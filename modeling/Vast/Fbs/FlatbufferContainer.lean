import Mathlib.Algebra.Order.Ring.Nat

/-! # Flatbuffer containers

A container is a file of segments behind a table of contents. The builder reserves space for
the table and appends the segments to it. If the table does not fit, the segments are moved
behind it, and their offsets are adjusted in place.
-/

namespace Vast

open List

structure FileSegment where
  offset : UInt64
  size : UInt64

def FileSegment.mutateOffset (f : UInt64 → UInt64) (segment : FileSegment) : FileSegment :=
  { segment with offset := f segment.offset }

/-- What is expected of the flatbuffers library: it returns the segments of a header at the
front of a buffer, and an offset is mutated in place. Bytes are of any type. -/
structure SegmentedFileHeader (β : Type) where
  build (identifier : String) (segments : List FileSegment) : List β
  fileSegments : List β → Option (List FileSegment)
  mutateOffset (i : Nat) (f : UInt64 → UInt64) : List β → List β
  fileSegments_build (identifier : String) (segments : List FileSegment) (rest : List β) :
    fileSegments (build identifier segments ++ rest) = some segments
  mutateOffset_build (identifier : String) (before : List FileSegment) (segment : FileSegment)
    (after : List FileSegment) (f : UInt64 → UInt64) (rest : List β) :
    mutateOffset before.length f (build identifier (before ++ segment :: after) ++ rest) =
      build identifier (before ++ segment.mutateOffset f :: after) ++ rest
  length_mutateOffset (i : Nat) (f : UInt64 → UInt64) (bytes : List β) :
    (mutateOffset i f bytes).length = bytes.length

variable {β : Type} (header : SegmentedFileHeader β) (assertions : Bool)

structure FlatbufferContainer (β : Type) where
  chunk : List β
  fileSegments : List FileSegment

namespace FlatbufferContainer

def make (chunk : List β) : Option (FlatbufferContainer β) :=
  if chunk.length < 4 then none else (header.fileSegments chunk).map (⟨chunk, ·⟩)

def size (container : FlatbufferContainer β) : Nat :=
  container.fileSegments.length

/-- A part of a chunk. The program asserts that it begins before the end of the chunk. -/
def slice (start length : Nat) (chunk : List β) : Option (List β) :=
  if assertions ∧ chunk.length ≤ start then none else some ((chunk.drop start).take length)

def getRaw (idx : Nat) (container : FlatbufferContainer β) : Option (List β) :=
  container.fileSegments[idx]?.bind fun range =>
    slice assertions range.offset.toNat range.size.toNat container.chunk

/-! ## Segments one after another -/

def segmentsFrom (start : Nat) : List (List β) → List FileSegment
  | [] => []
  | bytes :: rest =>
    ⟨start.toUInt64, bytes.length.toUInt64⟩ :: segmentsFrom (start + bytes.length) rest

variable {strings : List (List β)}

theorem length_segmentsFrom (start : Nat) (strings : List (List β)) :
    (segmentsFrom start strings).length = strings.length := by
  induction strings generalizing start with
  | nil => rfl
  | cons bytes rest ih => rw [segmentsFrom, length_cons, length_cons, ih]

theorem map_segmentsFrom (start adjustment : Nat) (strings : List (List β)) :
    (segmentsFrom start strings).map (.mutateOffset (· + adjustment.toUInt64)) =
      segmentsFrom (start + adjustment) strings := by
  induction strings generalizing start with
  | nil => rfl
  | cons bytes rest ih =>
    rw [segmentsFrom, map_cons, ih, Nat.add_right_comm]
    simp [segmentsFrom, FileSegment.mutateOffset]

/-- Strings behind some bytes are read back if the last one begins before the end. -/
theorem getRaw_iff (front : List β) (hsize : (front ++ strings.flatten).length < 2 ^ 64) :
    (∀ i, getRaw assertions i ⟨front ++ strings.flatten, segmentsFrom front.length strings⟩ =
      strings[i]?) ↔ (assertions = true → strings.getLast? ≠ some []) := by
  induction strings generalizing front with
  | nil => simp [getRaw, segmentsFrom]
  | cons bytes rest ih =>
    rw [flatten_cons, ← append_assoc] at hsize ⊢
    have hrest := ih (front ++ bytes) hsize
    rw [length_append, length_append] at hsize
    have hfirst : getRaw assertions 0 ⟨front ++ bytes ++ rest.flatten,
        segmentsFrom front.length (bytes :: rest)⟩ = some bytes ↔
          (assertions = true → (bytes :: rest).flatten ≠ []) := by
      have hstart : front.length.toUInt64.toNat = front.length := Nat.mod_eq_of_lt (by omega)
      have hlength : bytes.length.toUInt64.toNat = bytes.length := Nat.mod_eq_of_lt (by omega)
      have hslice : ((front ++ (bytes ++ rest.flatten)).drop front.length).take bytes.length =
          bytes := by
        rw [drop_left, take_left]
      show slice assertions front.length.toUInt64.toNat _ _ = _ ↔ _
      rw [hstart, hlength, append_assoc, slice, hslice, length_append, flatten_cons,
        ← length_pos_iff]
      simp only [ite_eq_right_iff, reduceCtorEq, imp_false, not_and]
      exact forall_congr' fun _ => by omega
    rw [← Nat.and_forall_add_one]
    rw [length_append] at hrest
    refine (and_congr hfirst hrest).trans ?_
    cases rest with
    | nil => simp
    | cons next rest =>
      rw [getLast?_cons_cons, and_iff_right_iff_imp]
      intro hlast hassert hempty
      refine hlast hassert ?_
      rw [getLast?_eq_some_getLast (cons_ne_nil next rest)]
      exact congrArg some (flatten_eq_nil_iff.mp hempty _ (mem_cons_of_mem _ (getLast_mem _)))

/-- The loop mutates all offsets and keeps the size of the header. -/
theorem foldl_mutateOffset (identifier : String) (f : UInt64 → UInt64)
    (before segments : List FileSegment) (rest : List β) :
    (range' before.length segments.length).foldl
        (fun contents i => header.mutateOffset i f contents)
        (header.build identifier (before ++ segments) ++ rest) =
      header.build identifier (before ++ segments.map (.mutateOffset f)) ++ rest ∧
    (header.build identifier (before ++ segments.map (.mutateOffset f))).length =
      (header.build identifier (before ++ segments)).length := by
  induction segments generalizing before with
  | nil => exact ⟨rfl, rfl⟩
  | cons segment segments ih =>
    have hfirst := header.mutateOffset_build identifier before segment segments f
    have hlength := congrArg length (hfirst [])
    rw [header.length_mutateOffset, append_nil, append_nil] at hlength
    obtain ⟨hloop, hrest⟩ := ih (before ++ [segment.mutateOffset f])
    simp only [length_append, length_singleton, append_assoc, singleton_append] at hloop hrest
    rw [length_cons, range'_succ, foldl_cons, hfirst, map_cons, hlength]
    exact ⟨hloop, hrest⟩

end FlatbufferContainer

/-! ## The builder -/

def probablyEnoughBytesForHeader : Nat :=
  8 * 1024

structure FlatbufferContainerBuilder (β : Type) [Inhabited β] where
  segments : List FileSegment := []
  fileContents : List β := List.replicate probablyEnoughBytesForHeader default

namespace FlatbufferContainerBuilder

open FlatbufferContainer

variable [Inhabited β]

def add (builder : FlatbufferContainerBuilder β) (bytes : List β) :
    FlatbufferContainerBuilder β where
  segments := builder.segments ++ [⟨builder.fileContents.length.toUInt64, bytes.length.toUInt64⟩]
  fileContents := builder.fileContents ++ bytes

variable (identifier : String)

def finish (builder : FlatbufferContainerBuilder β) : Option (FlatbufferContainer β) :=
  let headerBuffer := header.build identifier builder.segments
  if headerBuffer.length ≤ probablyEnoughBytesForHeader then
    make header (headerBuffer ++ builder.fileContents.drop headerBuffer.length)
  else
    let adjustment := headerBuffer.length - probablyEnoughBytesForHeader
    make header ((range' 0 builder.segments.length).foldl
      (fun contents i => header.mutateOffset i (· + adjustment.toUInt64) contents)
      (headerBuffer ++ builder.fileContents.drop probablyEnoughBytesForHeader))

theorem foldl_add (builder : FlatbufferContainerBuilder β) (strings : List (List β)) :
    strings.foldl add builder = ⟨builder.segments ++
      segmentsFrom builder.fileContents.length strings,
      builder.fileContents ++ strings.flatten⟩ := by
  induction strings generalizing builder with
  | nil => simp [segmentsFrom]
  | cons bytes rest ih => simp [ih, add, segmentsFrom]

/-- In a file, the segments follow a front that begins with the table of contents. -/
theorem finish_eq (strings : List (List β)) : ∃ front : List β,
    finish header identifier (strings.foldl add {}) = make header (front ++ strings.flatten) ∧
      make header (front ++ strings.flatten) =
        some ⟨front ++ strings.flatten, segmentsFrom front.length strings⟩ ∧
      front.length = max probablyEnoughBytesForHeader (header.build identifier
        (segmentsFrom probablyEnoughBytesForHeader strings)).length := by
  rw [foldl_add]
  simp only [nil_append, length_replicate, finish]
  generalize hheader : header.build identifier (segmentsFrom _ strings) = headerBuffer
  have hmake {front : List β} (hlen : probablyEnoughBytesForHeader ≤ front.length)
      (hsegments : header.fileSegments (front ++ strings.flatten) =
        some (segmentsFrom front.length strings)) : make header (front ++ strings.flatten) =
          some ⟨front ++ strings.flatten, segmentsFrom front.length strings⟩ := by
    have hroom : 4 ≤ probablyEnoughBytesForHeader := by decide
    rw [make, if_neg (by rw [length_append]; omega), hsegments, Option.map_some]
  split
  next hle =>
    have hfront : (headerBuffer ++ replicate (probablyEnoughBytesForHeader - headerBuffer.length)
        (default : β)).length = probablyEnoughBytesForHeader := by
      rw [length_append, length_replicate]
      omega
    refine ⟨_, ?_, hmake (Nat.le_of_eq hfront.symm) ?_, by omega⟩
    · rw [drop_append_of_le_length (by rwa [length_replicate]), drop_replicate, append_assoc]
    · rw [hfront, append_assoc, ← hheader, header.fileSegments_build]
  next hgt =>
    obtain ⟨hloop, hlength⟩ := foldl_mutateOffset header identifier
      (· + (headerBuffer.length - probablyEnoughBytesForHeader).toUInt64) []
      (segmentsFrom probablyEnoughBytesForHeader strings) strings.flatten
    rw [map_segmentsFrom, Nat.add_sub_cancel' (by omega), nil_append, nil_append, hheader]
      at hloop hlength
    refine ⟨header.build identifier (segmentsFrom headerBuffer.length strings), ?_,
      hmake (by omega) ?_, by omega⟩
    · rw [drop_left' length_replicate]
      exact congrArg (make header) hloop
    · rw [hlength, header.fileSegments_build]

/-- The container has the strings that have been added, and so has one made from its chunk. -/
def RoundTrips (strings : List (List β)) : Prop :=
  ∃ container, finish header identifier (strings.foldl add {}) = some container ∧
    container.size = strings.length ∧ (∀ i, container.getRaw assertions i = strings[i]?) ∧
    make header container.chunk = some container

/-- A container returns what has been added, unless an empty string at its end does not pass an
assertion. A file is smaller than the address space. -/
theorem roundTrips_iff (strings : List (List β))
    (hsize : max probablyEnoughBytesForHeader (header.build identifier
      (segmentsFrom probablyEnoughBytesForHeader strings)).length +
        strings.flatten.length < 2 ^ 64) :
    RoundTrips header assertions identifier strings ↔
      (assertions = true → strings.getLast? ≠ some []) := by
  obtain ⟨front, hfinish, hmake, hfront⟩ := finish_eq header identifier strings
  rw [← hfront, ← length_append] at hsize
  rw [RoundTrips, hfinish, hmake, ← getRaw_iff assertions front hsize]
  constructor
  · rintro ⟨container, heq, -, hraw, -⟩
    cases heq
    exact hraw
  · exact fun hraw => ⟨_, rfl, length_segmentsFrom _ _, hraw, hmake⟩

/-! ## A table of contents -/

def toBytes (value : UInt64) : List UInt8 :=
  (List.range 8).map fun i => .ofNat (value.toNat / 256 ^ i)

def ofBytes (bytes : List UInt8) : UInt64 :=
  .ofNat (bytes.foldr (fun byte value => byte.toNat + 256 * value) 0)

theorem ofBytes_toBytes (value : UInt64) : ofBytes (toBytes value) = value := by
  have hlt := value.toNat_lt
  apply UInt64.toNat.inj
  simp only [ofBytes, toBytes, range, range.loop, map_cons, map_nil, foldr_cons, foldr_nil,
    UInt8.toNat_ofNat', UInt64.toNat_ofNat']
  omega

theorem length_toBytes (value : UInt64) : (toBytes value).length = 8 := by
  simp [toBytes]

/-- An entry of the table: a mark, the offset and the size. -/
def toEntry (segment : FileSegment) : List UInt8 :=
  1 :: (toBytes segment.offset ++ toBytes segment.size)

theorem length_entries (segments : List FileSegment) :
    (segments.flatMap toEntry).length = 17 * segments.length := by
  induction segments with
  | nil => rfl
  | cons segment segments ih =>
    rw [flatMap_cons, length_append, ih, toEntry, length_cons, length_append, length_toBytes,
      length_toBytes, length_cons]
    omega

def readTable : Nat → List UInt8 → Option (List FileSegment)
  | _, 0 :: _ => some []
  | fuel + 1, 1 :: bytes =>
    (readTable fuel ((bytes.drop 8).drop 8)).map
      (⟨ofBytes (bytes.take 8), ofBytes ((bytes.drop 8).take 8)⟩ :: ·)
  | _, _ => none

theorem readTable_entries (segments : List FileSegment) (rest : List UInt8) {fuel : Nat}
    (hfuel : segments.length ≤ fuel) :
    readTable fuel (segments.flatMap toEntry ++ 0 :: rest) = some segments := by
  induction segments generalizing fuel with
  | nil => cases fuel <;> rfl
  | cons segment segments ih =>
    cases fuel with
    | zero => cases hfuel
    | succ fuel =>
      rw [flatMap_cons, toEntry, cons_append, cons_append, append_assoc, append_assoc]
      simp only [readTable, drop_left' (length_toBytes _), take_left' (length_toBytes _),
        ofBytes_toBytes, ih (Nat.le_of_succ_le_succ hfuel), Option.map_some]

/-- A table of contents that ends with another mark. -/
def tableHeader : SegmentedFileHeader UInt8 where
  build _ segments := segments.flatMap toEntry ++ [0]
  fileSegments bytes := readTable bytes.length bytes
  mutateOffset i f bytes :=
    let (front, back) := bytes.splitAt (17 * i + 1)
    if 8 ≤ back.length then front ++ (toBytes (f (ofBytes (back.take 8))) ++ back.drop 8)
    else bytes
  fileSegments_build _ segments rest := by
    rw [append_assoc]
    refine readTable_entries segments rest ?_
    rw [length_append, length_entries]
    omega
  mutateOffset_build _ before segment after f rest := by
    have hfront : (before.flatMap toEntry ++ [1]).length = 17 * before.length + 1 := by
      rw [length_append, length_entries, length_singleton]
    have hsplit (segment : FileSegment) : (before ++ segment :: after).flatMap toEntry ++ [0] ++
        rest = (before.flatMap toEntry ++ [1]) ++ (toBytes segment.offset ++
          (toBytes segment.size ++ (after.flatMap toEntry ++ [0] ++ rest))) := by
      simp [toEntry]
    simp only [hsplit, splitAt_eq, take_left' hfront, drop_left' hfront,
      take_left' (length_toBytes _), drop_left' (length_toBytes _), ofBytes_toBytes]
    rw [if_pos (by rw [length_append, length_toBytes]; omega)]
    rfl
  length_mutateOffset i f bytes := by
    simp only [splitAt_eq]
    split
    next hlong =>
      rw [length_drop] at hlong
      simp only [length_append, length_take, length_drop, length_toBytes]
      omega
    · rfl

theorem length_build (identifier : String) (start : Nat) (strings : List (List UInt8)) :
    (tableHeader.build identifier (segmentsFrom start strings)).length =
      17 * strings.length + 1 := by
  simp only [tableHeader, length_append, length_entries, length_segmentsFrom, length_singleton]

def manyStrings : List (List UInt8) :=
  replicate 500 [42]

/-- The table for 500 strings does not fit, so that they begin behind its 8501 bytes. -/
theorem relocated_round_trip : RoundTrips tableHeader true "VAST" manyStrings ∧
    ∃ container, finish tableHeader "VAST" (manyStrings.foldl add {}) = some container ∧
      container.fileSegments.head? = some ⟨8501, 1⟩ := by
  have hlen : manyStrings.length = 500 := length_replicate
  refine ⟨(roundTrips_iff tableHeader true "VAST" _ ?_).mpr ?_, ?_⟩
  · rw [length_build, hlen, manyStrings, length_flatten, map_replicate, sum_replicate_nat]
    decide
  · rw [manyStrings, getLast?_replicate]
    decide
  · obtain ⟨front, hfinish, hmake, hfront⟩ := finish_eq tableHeader "VAST" manyStrings
    rw [length_build, hlen] at hfront
    refine ⟨_, hfinish.trans hmake, ?_⟩
    rw [hfront]
    rfl

/-- An empty string at the end begins at the end of the file. -/
theorem empty_string_is_not_read : ∃ container,
    finish tableHeader "VAST" (add {} []) = some container ∧ container.getRaw true 0 = none := by
  obtain ⟨front, hfinish, hmake, hfront⟩ := finish_eq tableHeader "VAST" [[]]
  have hlen : front.length = probablyEnoughBytesForHeader := hfront.trans (by decide)
  refine ⟨_, hfinish.trans hmake, ?_⟩
  rw [hlen]
  exact if_pos ⟨rfl, by simp [hlen]; decide⟩

end FlatbufferContainerBuilder

end Vast
