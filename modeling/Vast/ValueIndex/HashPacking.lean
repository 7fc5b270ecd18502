import Mathlib.Data.List.Dedup
import Vast.ValueIndex.HashIndex

/-! # Packing a hash index

The digests, the digests that are taken and the seeds are packed into buffers of their own.
Unpacking reads as many taken digests as there are digests, although a value that was
appended twice has one taken digest only.
-/

namespace Vast

open Foundation List AssocList
open ValueIndex (History)

namespace HashIndex

structure Layout (δ : Type) where
  size : Nat
  encode : δ → List UInt8
  decode : List UInt8 → δ
  size_pos : 0 < size
  length_encode : ∀ digest, (encode digest).length = size
  decode_encode : ∀ digest, decode (encode digest) = digest

/-- The buffers. The values of the seeds are packed as they are. -/
structure Packed where
  digests : List UInt8
  uniqueDigests : List UInt8
  seeds : List (Data × Nat)

variable {δ : Type} [DecidableEq δ] (layout : Layout δ)

def pack (index : HashIndex δ) : Packed where
  digests := index.digests.flatMap layout.encode
  uniqueDigests := index.uniqueDigests.flatMap layout.encode
  seeds := index.seeds

/-- Read a number of elements from a buffer, unless there are fewer. -/
def readElements : Nat → List UInt8 → Option (List δ)
  | 0, _ => some []
  | n + 1, buffer =>
    if buffer.length < layout.size then none
    else
      (readElements n (buffer.drop layout.size)).map
        (layout.decode (buffer.take layout.size) :: ·)

/-- There is no result if an element is read that does not exist. -/
def unpack (packed : Packed) : Option (HashIndex δ) :=
  let numDigests := packed.digests.length / layout.size
  (readElements layout numDigests packed.digests).bind fun digests =>
    (readElements layout numDigests packed.uniqueDigests).map fun uniqueDigests =>
      { digests := digests
        uniqueDigests := uniqueDigests.dedup
        seeds := packed.seeds.foldl (fun seeds seed => AssocList.emplace seed.1 seed.2 seeds) [] }

/-! ## Unpacking -/

variable {layout}

omit [DecidableEq δ] in
theorem readElements_flatMap (items : List δ) (n : Nat) :
    readElements layout n (items.flatMap layout.encode) =
      if n ≤ items.length then some (items.take n) else none := by
  induction n generalizing items with
  | zero => rfl
  | succ n ih =>
    cases items with
    | nil => exact if_pos layout.size_pos
    | cons item items =>
      have hsize := layout.length_encode item
      have hdrop : (layout.encode item ++ items.flatMap layout.encode).drop layout.size =
          items.flatMap layout.encode := drop_left' hsize
      have htake : (layout.encode item ++ items.flatMap layout.encode).take layout.size =
          layout.encode item := take_left' hsize
      rw [flatMap_cons, readElements, if_neg (by simp [hsize]), hdrop, htake, ih,
        layout.decode_encode]
      by_cases hle : n ≤ items.length
      · simp
      · simp

theorem foldl_emplace {seeds known : List (Data × Nat)}
    (hnodup : ((known ++ seeds).map Prod.fst).Nodup) :
    seeds.foldl (fun known seed => emplace seed.1 seed.2 known) known =
      known ++ seeds := by
  induction seeds generalizing known with
  | nil => exact (append_nil known).symm
  | cons seed seeds ih =>
    have hnone : known.lookup seed.1 = none := by
      rw [lookup_eq_none_iff]
      intro entry hentry
      rw [map_append, nodup_append] at hnodup
      exact bne_iff_ne.mpr
        (hnodup.2.2 _ (mem_map_of_mem hentry) _ (mem_map_of_mem mem_cons_self)).symm
    rw [append_cons] at hnodup
    rw [foldl_cons, emplace, hnone]
    exact (ih hnodup).trans (append_cons known seed seeds).symm

/-- Neither the set nor the map has duplicates. -/
structure Distinct (index : HashIndex δ) : Prop where
  uniqueDigests : index.uniqueDigests.Nodup
  seeds : (index.seeds.map Prod.fst).Nodup

/-- The taken digests are read as often as there are digests. -/
theorem Distinct.unpack_pack {index : HashIndex δ} (hdist : Distinct index)
    (hle : index.uniqueDigests.length ≤ index.digests.length) : unpack layout (pack layout index) =
      if index.digests.length ≤ index.uniqueDigests.length then some index else none := by
  have hcount : (index.digests.flatMap layout.encode).length / layout.size =
      index.digests.length := by
    rw [length_flatMap, map_congr_left fun digest _ => layout.length_encode digest,
      map_const', sum_replicate_nat, Nat.mul_div_cancel _ layout.size_pos]
  simp only [unpack, pack, hcount, readElements_flatMap, le_refl, if_true, take_length,
    Option.bind_some, take_of_length_le hle]
  split
  · rw [Option.map_some, hdist.uniqueDigests.dedup, @foldl_emplace index.seeds [] hdist.seeds]
    rfl
  · rfl

theorem Distinct.digestRounds {hash : Data → Nat → δ} {index next : HashIndex δ} {x : Data}
    {digest : δ} {rounds i : Nat} (hdist : Distinct index)
    (hdigest : index.digestRounds hash x rounds i = some (digest, next)) : Distinct next := by
  fun_induction HashIndex.digestRounds hash index x rounds i with
  | case1 => cases hdigest
  | case2 rounds i hfree =>
    cases hdigest
    exact ⟨nodup_cons.mpr ⟨hfree, hdist.uniqueDigests⟩,
      nodup_keys_emplace x i hdist.seeds⟩
  | case3 =>
    cases hdigest
    exact hdist
  | case4 rounds i _ _ ih => exact ih hdigest

theorem distinct_run (hash : Data → Nat → δ) (calls : List (Data × Nat)) :
    Distinct (run hash calls).index.impl := by
  have happend {index next : HashIndex δ} {x : Data} (pos : Nat) {succeeded : Bool}
      (hdist : Distinct index)
      (heq : index.appendImpl hash x pos = (succeeded, next)) : Distinct next := by
    unfold appendImpl at heq
    split at heq
    · cases heq
      exact hdist
    · split at heq
      · cases heq
        exact hdist
      next hdigest =>
        cases heq
        exact { hdist.digestRounds hdigest with }
  apply History.invariant fun history : History (HashIndex δ) => Distinct history.index.impl
  · exact ⟨nodup_nil, nodup_nil⟩
  · intro history x pos next hdist happends
    cases happends with
    | fail state hstate =>
      rcases hstate with rfl | ⟨-, hstate⟩
      · exact hdist
      · exact happend pos hdist hstate
    | nil => exact hdist
    | value state _ _ hstate => exact happend pos hdist hstate

/-- There are as many taken digests as digests if and only if no value was repeated. -/
theorem length_digests_iff (hash : Data → Nat → δ) (calls : List (Data × Nat)) :
    let history := run hash calls
    history.index.impl.uniqueDigests.length ≤ history.index.impl.digests.length ∧
      (history.index.impl.digests.length ≤ history.index.impl.uniqueDigests.length ↔
        ((values history).map Prod.fst).Nodup) := by
  intro history
  have hstores := stores_run hash calls
  have hnodup := (distinct_run hash calls).uniqueDigests
  have hsubperm : history.index.impl.uniqueDigests.Subperm history.index.impl.digests :=
    subperm_of_subset hnodup fun digest hmem => (hstores.unique_iff digest).mp hmem
  have hdigests : history.index.impl.digests =
      ((values history).map Prod.fst).map (history.index.impl.findDigest hash) := by
    rw [map_map]
    exact hstores.digests_eq
  have hiff : history.index.impl.digests.Nodup ↔ ((values history).map Prod.fst).Nodup := by
    rw [hdigests]
    exact ⟨Nodup.of_map _, Nodup.map_on hstores.injective⟩
  refine ⟨hsubperm.length_le, ?_⟩
  rw [← hiff]
  constructor
  · intro hle
    exact (hsubperm.perm_of_length_le hle).nodup_iff.mp hnodup
  · intro hdist
    exact (subperm_of_subset hdist
      fun digest hmem => (hstores.unique_iff digest).mpr hmem).length_le

def Layout.byte : Layout UInt8 where
  size := 1
  encode digest := [digest]
  decode buffer := buffer.headD 0
  size_pos := Nat.one_pos
  length_encode _ := rfl
  decode_encode _ := rfl

end HashIndex

end Vast
