import Vast.Catalog.Synopsis
import Vast.Foundation.BloomFilter

/-! # The Bloom filters of synopses

A filter computes the digests of a value by double hashing and maps each digest
to a bit. The hash function is arbitrary.
-/

namespace Vast

open Foundation List BloomFilter Foundation.BloomFilter Nat

/-- Whether the bits are split into as many partitions as there are digests. -/
inductive Partitioning where
  | yes
  | no
  deriving DecidableEq

structure BloomFilter where
  k : Nat
  bits : List Bool
  deriving DecidableEq

namespace BloomFilter

-- A hash function takes a seed.
variable (hash : UInt64 → BasicData → UInt64) (partitioning : Partitioning)

def digests (k : Nat) (value : BasicData) : List UInt64 :=
  (List.range k).map fun i => hash 0 value + UInt64.ofNat i * hash 1 value

variable (filter : BloomFilter)

def position (i : Nat) (digest : UInt64) : Nat :=
  match partitioning with
  | .no => digest.toNat % filter.bits.length
  | .yes =>
    let numPartitionCells := filter.bits.length / filter.k
    i * numPartitionCells + digest.toNat % numPartitionCells

def setBit (result : Bool × List Bool) (digest : UInt64 × Nat) : Bool × List Bool :=
  let position := filter.position partitioning digest.2 digest.1
  (result.1 || !result.2.getD position false, result.2.set position true)

variable (value : BasicData)

/-- Add a value. The result tells whether one of its bits was not set. -/
def add : Bool × BloomFilter :=
  let result := (digests hash filter.k value).zipIdx.foldl (filter.setBit partitioning)
    (false, filter.bits)
  (result.1, { filter with bits := result.2 })

def lookup : Bool :=
  (digests hash filter.k value).zipIdx.all fun digest =>
    filter.bits.getD (filter.position partitioning digest.2 digest.1) false

/-! ## Positions -/

/-- The bits of a value, which depend on the size of the filter only. -/
def positions (size k : Nat) (value : BasicData) : List Nat :=
  (digests hash k value).zipIdx.map fun digest =>
    (BloomFilter.mk k (List.replicate size false)).position partitioning digest.2 digest.1

variable {hash partitioning}

theorem lookup_eq_marked : filter.lookup hash partitioning value =
      marked (positions hash partitioning filter.bits.length filter.k value)
        filter.bits := by
  rw [lookup, marked, positions, all_map]
  congr 1
  funext digest
  simp [position]

theorem foldl_setBit (entries : List (UInt64 × Nat))
    (result : Bool × List Bool) : (entries.foldl (filter.setBit partitioning) result).2 =
      mark (entries.map fun digest =>
        filter.position partitioning digest.2 digest.1) result.2 := by
  induction entries generalizing result with
  | nil => rfl
  | cons entry rest ih =>
    rw [foldl_cons, ih]
    rfl

theorem add_eq_mark :
    (filter.add hash partitioning value).2 = { filter with
      bits := mark
        (positions hash partitioning filter.bits.length filter.k value) filter.bits } := by
  simp [add, foldl_setBit, positions, position]

theorem position_lt {size k : Nat} (hsize : 0 < size)
    (hcells : partitioning = .yes → k ≤ size) {value : BasicData} :
    ∀ position ∈ positions hash partitioning size k value, position < size := by
  intro position hpos
  obtain ⟨⟨digest, i⟩, hdigest, rfl⟩ := mem_map.mp hpos
  cases partitioning with
  | no =>
    rw [position, length_replicate]
    exact mod_lt _ hsize
  | yes =>
    have hi : i < k := by
      have hlt := snd_lt_of_mem_zipIdx hdigest
      simpa [digests] using hlt
    have hcell : 0 < size / k := div_pos (hcells rfl) (by omega)
    have hmod := mod_lt digest.toNat hcell
    simp only [position, length_replicate]
    calc i * (size / k) + digest.toNat % (size / k)
        < i * (size / k) + size / k := by omega
      _ = (i + 1) * (size / k) := by rw [succ_mul]
      _ ≤ k * (size / k) := mul_le_mul_right _ hi
      _ ≤ size := mul_div_le size k

/-- All values that were added to a filter with a bit for every position are
reported. -/
theorem lookup_foldl_add (hsize : 0 < filter.bits.length)
    (hcells : partitioning = .yes → filter.k ≤ filter.bits.length) {values : List BasicData}
    {value : BasicData} (hvalue : value ∈ values) :
    (values.foldl (fun filter value => (filter.add hash partitioning value).2) filter).lookup hash
      partitioning value = true := by
  have hfold : ∀ (values : List BasicData) (bits : List Bool),
      bits.length = filter.bits.length →
      values.foldl (fun filter value => (filter.add hash partitioning value).2)
          { filter with bits := bits } =
        { filter with bits := values.foldl (fun bits value => mark
          (positions hash partitioning filter.bits.length filter.k value) bits) bits } := by
    intro values
    induction values with
    | nil => exact fun _ _ => rfl
    | cons head rest ih =>
      intro bits hbits
      rw [foldl_cons, add_eq_mark, foldl_cons]
      simp only [hbits]
      rw [ih _ (by rw [length_mark, hbits])]
  have hlen : ∀ (values : List BasicData) (bits : List Bool),
      (values.foldl (fun bits value => mark
        (positions hash partitioning filter.bits.length filter.k value) bits) bits).length =
        bits.length := by
    intro values
    induction values with
    | nil => exact fun _ => rfl
    | cons head rest ih => exact fun bits => (ih _).trans (length_mark _ _)
  have heq := hfold values filter.bits rfl
  rw [heq, lookup_eq_marked]
  simp only [hlen]
  exact marked_foldl_mark _ (position_lt hsize hcells) (Or.inl hvalue)

end BloomFilter

/-! ## The filters of a hash function -/

/-- What determines the filters: the parameters in the text of an attribute, the
numbers of bits and digests for given parameters, and the hash function. -/
structure HashFamily where
  parse : String → Option BloomFilterParameters
  evaluate : BloomFilterParameters → Option (Nat × Nat)
  hash : UInt64 → BasicData → UInt64

namespace HashFamily

variable (family : HashFamily)

/-- An empty filter, unless it would have no bits or no digests. -/
def makeBloomFilter (parameters : BloomFilterParameters) : Option BloomFilter :=
  match family.evaluate parameters with
  | none => none
  | some (m, k) => if m = 0 ∨ k = 0 then none else some ⟨k, List.replicate m false⟩

/-- Membership is decided by the filter to which the elements were added. -/
@[reducible]
def bloomFilters : BloomFilters where
  parse := family.parse
  makes := fun parameters => (family.makeBloomFilter parameters).isSome
  contains := fun parameters elements value =>
    match family.makeBloomFilter parameters with
    | none => false
    | some filter =>
      (elements.foldl (fun filter element => (filter.add family.hash .no element).2)
        filter).lookup family.hash .no value

theorem contains_of_mem {parameters : BloomFilterParameters}
    (hmakes : family.bloomFilters.makes parameters = true) {elements : List BasicData}
    {value : BasicData} (hvalue : value ∈ elements) :
    family.bloomFilters.contains parameters elements value = true := by
  obtain ⟨filter, hfilter⟩ := Option.isSome_iff_exists.mp hmakes
  rw [bloomFilters]
  simp only [hfilter]
  apply BloomFilter.lookup_foldl_add filter _ _ hvalue
  · unfold makeBloomFilter at hfilter
    split at hfilter
    · cases hfilter
    next m k _ =>
      split at hfilter
      · cases hfilter
      next hne =>
        cases hfilter
        rw [length_replicate]
        omega
  · exact fun hno => by cases hno

end HashFamily

end Vast
