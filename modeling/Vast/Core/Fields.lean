import Vast.Core.Record

/-! # Flat indexes of fields

Fields are addressed by offsets. Leaves are also addressed by their number, which several
functions count in loops of their own.
-/

namespace Vast.RecordType

open List Leaf

variable {fields : List (String × VastType)}

def fieldBelow (field : String × VastType) : Offset → Option (String × VastType)
  | [] => some field
  | position :: rest => field.2.fields[position]?.bind (fieldBelow · rest)

def field (fields : List (String × VastType)) : Offset → Option (String × VastType)
  | [] => none
  | position :: rest => fields[position]?.bind (fieldBelow · rest)

section Scan

variable (stop : Nat → Offset → Bool)

/-- The loop of the functions that count leaves, up to one at which they stop. -/
def scan : Nat → List (RecordLevel Unit) → Nat → Nat × Option Offset
  | 0, _, count => (count, none)
  | _ + 1, [], count => (count, none)
  | fuel + 1, level :: levels, count =>
    match level.fields[level.position]? with
    | none => scan fuel (advance levels) count
    | some (_, type) =>
      match type.resolveTransparent with
      | .record fields => scan fuel (⟨fields, 0, ()⟩ :: level :: levels) count
      | _ =>
        if stop count (index (level :: levels)) then (count, some (index (level :: levels)))
        else scan fuel (advance (level :: levels)) (count + 1)

def scanLeaves (fields : List (String × VastType)) : Nat × Option Offset :=
  scan stop (fieldsSteps fields) [⟨fields, 0, ()⟩] 0

/-- What the loop does with the offsets of the leaves. -/
def scanOffsets (count : Nat) : List Offset → Nat × Option Offset
  | [] => (count, none)
  | offset :: rest =>
    if stop count offset then (count, some offset) else scanOffsets (count + 1) rest

theorem scan_eq (fuel : Nat) (levels : List (RecordLevel Unit)) (count : Nat) :
    scan stop fuel levels count =
      scanOffsets stop count ((walk (fun _ _ => ()) fuel levels).map offset) := by
  fun_induction scan stop fuel levels count with
  | case1 => rfl
  | case2 => rfl
  | case3 fuel level levels count hnone ih => simp [walk, hnone, ih]
  | case4 fuel level levels count name type hsome fields hrecord ih =>
    simp [walk, hsome, hrecord, ih]
  | case5 fuel level levels count name type hsome hstop hleaf =>
    simp only [walk, hsome]
    rw [map_cons, scanOffsets, if_pos hstop]
  | case6 fuel level levels count name type hsome hstop hleaf ih =>
    simp only [walk, hsome]
    rw [map_cons, scanOffsets, if_neg hstop, ih]

theorem scanLeaves_eq (fields : List (String × VastType)) :
    scanLeaves stop fields = scanOffsets stop 0 ((leaves fields).map Leaf.offset) := by
  have hvisits : visits (fun _ _ => ()) () fields = (leaves fields).map (Leaf.map fun _ => ()) :=
    visits_map (fun _ : List String => ()) (fun _ _ => rfl) [] fields
  rw [scanLeaves, scan_eq, ← visits, hvisits, map_map]
  rfl

end Scan

section

variable (fields : List (String × VastType))

def numLeaves : Nat :=
  (scanLeaves (fun _ _ => false) fields).1

/-- The offset of a leaf. The program dies if there is none. -/
def resolveFlatIndex (flatIndex : Nat) : Option Offset :=
  (scanLeaves (fun current _ => current == flatIndex) fields).2

/-- The number of a leaf. There is none if the assertions fail. -/
def countFlatIndex (offset : Offset) : Option Nat :=
  let (flatIndex, found) := scanLeaves (fun _ current => current == offset) fields
  found.map fun _ => flatIndex

theorem numLeaves_eq : numLeaves fields = (leaves fields).length := by
  have hcount (offsets : List Offset) (count : Nat) :
      (scanOffsets (fun _ _ => false) count offsets).1 = count + offsets.length := by
    induction offsets generalizing count with
    | nil => rfl
    | cons offset offsets ih =>
      rw [scanOffsets, if_neg Bool.false_ne_true, ih, length_cons]
      omega
  rw [numLeaves, scanLeaves_eq, hcount, length_map, Nat.zero_add]

theorem resolveFlatIndex_eq (flatIndex : Nat) :
    resolveFlatIndex fields flatIndex = ((leaves fields).map offset)[flatIndex]? := by
  have hfind (offsets : List Offset) (count i : Nat) :
      (scanOffsets (fun current _ => current == count + i) count offsets).2 = offsets[i]? := by
    induction offsets generalizing count i with
    | nil => rfl
    | cons offset offsets ih =>
      rw [scanOffsets]
      cases i with
      | zero => simp
      | succ i =>
        rw [if_neg (by simp), ← Nat.add_assoc, Nat.add_right_comm]
        exact ih (count + 1) i
  have hres := hfind ((leaves fields).map offset) 0 flatIndex
  rwa [Nat.zero_add, ← scanLeaves_eq] at hres

end

theorem countFlatIndex_eq {offset : Offset} (hmem : offset ∈ (leaves fields).map Leaf.offset) :
    countFlatIndex fields offset = some (((leaves fields).map Leaf.offset).idxOf offset) := by
  have hfind (offsets : List Offset) (count : Nat) (hmem : offset ∈ offsets) :
      scanOffsets (fun _ current => current == offset) count offsets =
        (count + offsets.idxOf offset, some offset) := by
    induction offsets generalizing count with
    | nil => cases hmem
    | cons head rest ih =>
      rw [scanOffsets, idxOf_cons]
      by_cases heq : head = offset
      · simp [heq]
      · rw [if_neg (by simpa using heq), ih _ ((mem_cons.mp hmem).resolve_left (Ne.symm heq)),
          Bool.cond_eq_ite, if_neg (by simpa using heq), Nat.add_right_comm, Nat.add_assoc]
  rw [countFlatIndex, scanLeaves_eq, hfind _ 0 hmem, Nat.zero_add]
  rfl

theorem mem_leaves_iff_field (fields : List (String × VastType)) (offset : Offset) (name : String)
    (type : VastType) :
    (∃ leaf ∈ leaves fields, leaf.offset = offset ∧ leaf.name = name ∧ leaf.type = type) ↔
      field fields offset = some (name, type) ∧
        ∀ inner, type.resolveTransparent ≠ .record inner := by
  have hbelow (below : Offset) (records : List String) (outer : Offset)
      (top : String × VastType) :
      (∃ leaf, leafBelow enclose records outer top.1 top.2 below = some leaf ∧
        leaf.name = name ∧ leaf.type = type) ↔ fieldBelow top below = some (name, type) ∧
          ∀ inner, type.resolveTransparent ≠ .record inner := by
    induction below generalizing records outer top with
    | nil =>
      rw [leafBelow]
      split
      next inner hrecord =>
        refine iff_of_false (by simp) ?_
        rintro ⟨hfield, htype⟩
        cases hfield
        exact htype inner hrecord
      next hleaf =>
        constructor
        · rintro ⟨leaf, hsome, rfl, rfl⟩
          cases hsome
          exact ⟨rfl, hleaf⟩
        · rintro ⟨hfield, -⟩
          cases hfield
          exact ⟨_, rfl, rfl, rfl⟩
    | cons pos below ih =>
      rw [leafBelow, fieldBelow]
      cases top.2.fields[pos]? with
      | none => simp
      | some next => exact ih _ _ next
  constructor
  · rintro ⟨leaf, hleaf, rfl, hname, htype⟩
    obtain ⟨pos, top, htop, below, hleaf⟩ := mem_leaves.mp hleaf
    rw [offset_leafBelow hleaf, singleton_append, field, htop]
    exact (hbelow below [] [pos] top).mp ⟨leaf, hleaf, hname, htype⟩
  · rintro ⟨hfield, htype⟩
    cases offset with
    | nil => cases hfield
    | cons pos below =>
      obtain ⟨top, htop, hfield⟩ := Option.bind_eq_some_iff.mp hfield
      obtain ⟨leaf, hleaf, hname, htype⟩ := (hbelow below [] [pos] top).mpr ⟨hfield, htype⟩
      exact ⟨leaf, mem_leaves.mpr ⟨pos, top, htop, below, hleaf⟩, offset_leafBelow hleaf, hname,
        htype⟩

/-- The leaves are the fields that are not records, in the order of their offsets. The functions
that count them agree on their number and their order. -/
theorem flat_indexes_number_leaves (fields : List (String × VastType)) :
    (∀ offset name type,
      (∃ leaf ∈ leaves fields, leaf.offset = offset ∧ leaf.name = name ∧ leaf.type = type) ↔
        field fields offset = some (name, type) ∧
          ∀ inner, type.resolveTransparent ≠ .record inner) ∧
      ((leaves fields).map Leaf.offset).Pairwise (· < ·) ∧
      numLeaves fields = (leaves fields).length ∧
      (∀ i < numLeaves fields, ∃ offset, ((leaves fields).map Leaf.offset)[i]? = some offset ∧
        resolveFlatIndex fields i = some offset ∧ countFlatIndex fields offset = some i) ∧
      ∀ leaf ∈ leaves fields, ∃ i, countFlatIndex fields leaf.offset = some i ∧
        resolveFlatIndex fields i = some leaf.offset := by
  refine ⟨mem_leaves_iff_field fields, pairwise_offset_visits [] fields, numLeaves_eq fields,
    fun i hi => ?_, fun leaf hleaf => ?_⟩
  · rw [numLeaves_eq, ← length_map Leaf.offset] at hi
    refine ⟨_, getElem?_eq_getElem hi, ?_, ?_⟩
    · rw [resolveFlatIndex_eq, getElem?_eq_getElem hi]
    · have hnodup : ((leaves fields).map offset).Nodup := nodup_offset_visits [] fields
      rw [countFlatIndex_eq (getElem_mem hi), hnodup.idxOf_getElem]
  · have hmem : leaf.offset ∈ (leaves fields).map offset := mem_map_of_mem hleaf
    refine ⟨_, countFlatIndex_eq hmem, ?_⟩
    rw [resolveFlatIndex_eq, getElem?_idxOf hmem]

end Vast.RecordType
