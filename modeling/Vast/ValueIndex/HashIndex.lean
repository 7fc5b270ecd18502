import Mathlib.Data.List.Nodup
import Mathlib.Data.List.Perm.Subperm
import Vast.Foundation.AssocList
import Vast.ValueIndex.ValueIndex

/-! # Hash indexes

A hash index stores a digest per value. A value whose digest is taken gets another one
from the next seed, and the seed is remembered. The digests of appended values are
therefore distinct, but a value that was never appended is looked up with the first seed,
and its digest may be the one of a stored value.
-/

namespace Vast

open Foundation List Bitmap AssocList Nat
open ValueIndex (History Implementation Appends Recorded recorded_run)

/-- The digests of the values, the digests that are taken, and the seeds of the values. -/
structure HashIndex (δ : Type) where
  digests : List δ
  uniqueDigests : List δ
  seeds : List (Data × Nat)

namespace HashIndex

variable {δ : Type} [DecidableEq δ] (hash : Data → Nat → δ) {digest : δ} {next : HashIndex δ}

def empty : HashIndex δ where
  digests := []
  uniqueDigests := []
  seeds := []

def maxHashRounds : Nat := 32

/-- The rounds from a seed on. The value has a digest already if it has a seed. -/
def digestRounds (index : HashIndex δ) (x : Data) : Nat → Nat → Option (δ × HashIndex δ)
  | 0, _ => none
  | rounds + 1, i =>
    if hash x i ∉ index.uniqueDigests then
      some (hash x i, { index with
        seeds := AssocList.emplace x i index.seeds
        uniqueDigests := hash x i :: index.uniqueDigests })
    else
      match index.seeds.lookup x with
      | some seed => some (hash x seed, index)
      | none => index.digestRounds x rounds (i + 1)

variable (index : HashIndex δ)

/-- The digest of a value, which is made unless it exists. -/
def makeDigest (x : Data) : Option (δ × HashIndex δ) :=
  index.digestRounds hash x maxHashRounds 0

/-- The digest for a lookup. Values without a seed have the first one. -/
def findDigest (x : Data) : δ :=
  hash x ((index.seeds.lookup x).getD 0)

/-- A deserialized index has no digests that are taken. -/
def immutable : Bool :=
  index.uniqueDigests.isEmpty && !index.digests.isEmpty

def appendImpl (x : Data) (_ : Nat) : Bool × HashIndex δ :=
  if index.immutable then (false, index)
  else
    match index.makeDigest hash x with
    | none => (false, index)
    | some (digest, index) => (true, { index with digests := index.digests ++ [digest] })

def select (mask : Bitmap) : List Nat :=
  (List.range mask.length).filter fun i => mask.test i

/-- The scan over the digests. The range of positions is moved only when a digest matches. -/
def scanFrom (predicate : δ → Bool) (range : List Nat) (i lastMatch : Nat) (result : Bitmap) :
    List δ → Bitmap
  | [] => result
  | digest :: digests =>
    if predicate digest then
      let range := range.drop (i - lastMatch)
      scanFrom predicate range (i + 1) i (result.mark (range.headD 0)) digests
    else scanFrom predicate range (i + 1) lastMatch result digests

def scan (index : ValueIndex (HashIndex δ)) (predicate : δ → Bool) : Bitmap :=
  let range := select index.mask
  if range.isEmpty then [] else scanFrom predicate range 0 0 [] index.impl.digests

/-- Patterns and searches in strings are not supported, so that everything is returned. -/
def lookupImpl (index : ValueIndex (HashIndex δ)) (op : RelationalOperator) (x : Data) :
    Except IndexError Bitmap :=
  match op, x with
  | .equal, .basic (.pattern _) | .notEqual, .basic (.pattern _)
  | .in, .basic (.string _) | .notIn, .basic (.string _)
  | .ni, .basic (.string _) | .notNi, .basic (.string _) =>
    .ok (List.replicate index.impl.digests.length true)
  | .equal, x => .ok (scan index fun digest => decide (digest = index.impl.findDigest hash x))
  | .notEqual, x => .ok (scan index fun digest => decide (digest ≠ index.impl.findDigest hash x))
  | .in, .list xs =>
    .ok (scan index fun digest => (xs.map (index.impl.findDigest hash)).contains digest)
  | .notIn, .list xs =>
    .ok (scan index fun digest => !(xs.map (index.impl.findDigest hash)).contains digest)
  | .in, x | .notIn, x => .error (.typeClash x)
  | op, _ => .error (.unsupportedOperator op)

def implementation : Implementation (HashIndex δ) where
  appendImpl := appendImpl hash
  lookupImpl := lookupImpl hash

/-- The history of an index that starts with no values. -/
def run (calls : List (Data × Nat)) : History (HashIndex δ) :=
  History.run (implementation hash) empty calls

/-! ## What is stored -/

def values (history : History (HashIndex δ)) : List (Data × Nat) :=
  history.appended.filter fun entry => decide (entry.1 ≠ .none)

/-- Every value has a digest of its own, and so has the position of its bit. -/
structure Stores (history : History (HashIndex δ)) : Prop where
  select_eq : select history.index.mask = (values history).map Prod.snd
  digests_eq : history.index.impl.digests =
    (values history).map fun entry => history.index.impl.findDigest hash entry.1
  seeds_iff : ∀ x, (history.index.impl.seeds.lookup x).isSome = true ↔
    x ∈ (values history).map Prod.fst
  unique_iff : ∀ digest, digest ∈ history.index.impl.uniqueDigests ↔
    digest ∈ history.index.impl.digests
  first_mem : ∀ x ∈ (values history).map Prod.fst,
    hash x 0 ∈ history.index.impl.uniqueDigests
  injective : ∀ x ∈ (values history).map Prod.fst, ∀ y ∈ (values history).map Prod.fst,
    history.index.impl.findDigest hash x = history.index.impl.findDigest hash y → x = y

variable {hash} {pos : Nat}

/-- A value without a seed gets the first seed whose digest is not taken. -/
theorem digestRounds_of_none {index : HashIndex δ} {x : Data} (hnone : index.seeds.lookup x = none)
    {rounds i : Nat} (hdigest : index.digestRounds hash x rounds i = some (digest, next)) :
    ∃ seed, digest = hash x seed ∧ digest ∉ index.uniqueDigests ∧ i ≤ seed ∧
      (i < seed → hash x i ∈ index.uniqueDigests) ∧
      next = { index with
        seeds := emplace x seed index.seeds
        uniqueDigests := digest :: index.uniqueDigests } := by
  induction rounds generalizing i with
  | zero => cases hdigest
  | succ rounds ih =>
    rw [digestRounds] at hdigest
    split at hdigest
    next hfree =>
      cases hdigest
      exact ⟨i, rfl, hfree, le_refl i, fun hlt => absurd hlt (lt_irrefl i), rfl⟩
    next htaken =>
      rw [hnone] at hdigest
      obtain ⟨seed, heq, hfree, hle, -, hnext⟩ := ih hdigest
      exact ⟨seed, heq, hfree, le_of_succ_le hle, fun _ => not_not.mp htaken, hnext⟩

theorem select_mark {mask : Bitmap} (hpos : mask.length ≤ pos) :
    select (mask.mark pos) = select mask ++ [pos] := by
  have hrange : range (pos + 1) =
      range mask.length ++ range' mask.length (pos - mask.length) ++ [pos] := by
    have happend := @range'_append_1 0 mask.length (pos - mask.length)
    rw [Nat.zero_add, Nat.add_sub_cancel' hpos] at happend
    rw [range_succ, range_eq_range', range_eq_range', happend]
  have hold : ∀ i ∈ range mask.length, (mask.mark pos).test i = mask.test i := by
    intro i hi
    rw [mem_range] at hi
    rw [test_mark hpos, decide_eq_false (by omega), Bool.or_false]
  have hgap : ∀ i ∈ range' mask.length (pos - mask.length),
      ¬(mask.mark pos).test i = true := by
    intro i hi
    rw [mem_range'_1] at hi
    rw [test_mark hpos, test_of_length_le hi.1, decide_eq_false (by omega)]
    simp
  rw [select, length_mark hpos, hrange, filter_append, filter_append, filter_congr hold,
    filter_eq_nil_iff.mpr hgap]
  simp [select, test_mark hpos]

structure Digested (hash : Data → Nat → δ) (index : HashIndex δ) (x : Data) (digest : δ)
    (next : HashIndex δ) : Prop where
  digests_eq : next.digests = index.digests
  findDigest_eq : ∀ y, next.findDigest hash y =
    if y = x then digest else index.findDigest hash y
  seeds_iff : ∀ y, (next.seeds.lookup y).isSome = true ↔
    (index.seeds.lookup y).isSome = true ∨ y = x
  unique_iff : ∀ other, other ∈ next.uniqueDigests ↔ other ∈ index.uniqueDigests ∨ other = digest
  first_mem : hash x 0 ∈ next.uniqueDigests
  fresh : (index.seeds.lookup x).isSome = true ∧ index.findDigest hash x = digest ∨
    index.seeds.lookup x = none ∧ digest ∉ index.uniqueDigests

theorem digested_makeDigest {index next : HashIndex δ} {x : Data}
    (hseed : (index.seeds.lookup x).isSome = true →
      hash x 0 ∈ index.uniqueDigests ∧ index.findDigest hash x ∈ index.uniqueDigests)
    (hdigest : index.makeDigest hash x = some (digest, next)) :
    Digested hash index x digest next := by
  cases hlookup : index.seeds.lookup x with
  | some seed =>
    -- The first digest is taken, so the seed is used.
    obtain ⟨hfirst, hfound⟩ := hseed (by rw [hlookup]; rfl)
    have hfind : index.findDigest hash x = hash x seed := by rw [findDigest, hlookup]; rfl
    rw [makeDigest, maxHashRounds, digestRounds] at hdigest
    constructor <;> grind
  | none =>
    obtain ⟨seed, heq, hfree, -, hfirst, rfl⟩ := digestRounds_of_none hlookup hdigest
    have hlookup' (y : Data) : (emplace x seed index.seeds).lookup y =
        if y = x then some seed else index.seeds.lookup y := by
      rw [lookup_emplace, hlookup, Option.getD_none]
    constructor
    · rfl
    · intro y
      rw [findDigest, hlookup']
      split
      next hy => rw [hy, heq, Option.getD_some]
      · rfl
    · intro y
      rw [hlookup']
      split <;> simp [*]
    · intro other
      rw [mem_cons, or_comm]
    · rcases Nat.eq_zero_or_pos seed with rfl | hpos
      · exact mem_cons.mpr (Or.inl heq.symm)
      · exact mem_cons_of_mem _ (hfirst hpos)
    · exact Or.inr ⟨hlookup, hfree⟩

section

variable {history : History (HashIndex δ)} (hstores : Stores hash history) {x : Data}

include hstores

omit [DecidableEq δ] in
theorem Stores.findDigest_mem (hx : x ∈ (values history).map Prod.fst) :
    history.index.impl.findDigest hash x ∈ history.index.impl.uniqueDigests := by
  rw [hstores.unique_iff, hstores.digests_eq]
  obtain ⟨entry, hentry, rfl⟩ := mem_map.mp hx
  exact mem_map_of_mem hentry

omit [DecidableEq δ] in
theorem Stores.findDigest_of_new (hx : x ∉ (values history).map Prod.fst) :
    history.index.impl.findDigest hash x = hash x 0 := by
  rw [← hstores.seeds_iff, Option.not_isSome_iff_eq_none] at hx
  rw [findDigest, hx, Option.getD_none]

/-- Appending a value keeps the digests apart. -/
theorem Stores.value (hpos : history.index.offset ≤ pos) (hx : x ≠ .none)
    (hdigest : history.index.impl.makeDigest hash x = some (digest, next)) :
    Stores hash ⟨{ history.index with
      mask := history.index.mask.mark pos
      impl := { next with digests := next.digests ++ [digest] } },
      history.appended ++ [(x, pos)]⟩ := by
  obtain ⟨hdigests, hfind, hseeds, hunique, hfirst, hfresh⟩ :=
    digested_makeDigest (fun hsome => have hmem := (hstores.seeds_iff x).mp hsome
      ⟨hstores.first_mem x hmem, hstores.findDigest_mem hmem⟩) hdigest
  -- Digests of the values so far do not change.
  have hsame : ∀ y ∈ (values history).map Prod.fst,
      next.findDigest hash y = history.index.impl.findDigest hash y := by
    intro y hy
    have := hstores.findDigest_mem hy
    have := (hstores.seeds_iff y).mpr hy
    grind
  have hapart : ∀ y ∈ (values history).map Prod.fst, next.findDigest hash y = digest → y = x := by
    intro y hy heq
    have := hstores.findDigest_mem hy
    have := hstores.injective y hy x
    have := hstores.seeds_iff x
    grind
  have hvalues : values (⟨{ history.index with
      mask := history.index.mask.mark pos
      impl := { next with digests := next.digests ++ [digest] } },
      history.appended ++ [(x, pos)]⟩ : History (HashIndex δ)) = values history ++ [(x, pos)] := by
    simp [values, hx]
  have hnew : next.findDigest hash x = digest := by rw [hfind, if_pos rfl]
  constructor
  · rw [hvalues, map_append, ← hstores.select_eq]
    exact select_mark (le_trans (le_max_right _ _) hpos)
  · rw [hvalues, map_append]
    change next.digests ++ [digest] = _ ++ [next.findDigest hash x]
    rw [hnew, hdigests, hstores.digests_eq]
    congr 1
    apply map_congr_left
    intro entry hentry
    exact (hsame entry.1 (mem_map_of_mem hentry)).symm
  · intro y
    rw [hvalues, map_append, mem_append, ← hstores.seeds_iff]
    simpa using hseeds y
  · intro other
    simp only [hunique, hstores.unique_iff, hdigests, mem_append, mem_singleton]
  · intro y hy
    rw [hvalues, map_append, mem_append] at hy
    rcases hy with hy | hy
    · exact (hunique _).mpr (Or.inl (hstores.first_mem y hy))
    · rwa [mem_singleton.mp hy]
  · intro y hy z hz (heq : next.findDigest hash y = next.findDigest hash z)
    rw [hvalues, map_append, mem_append, map_singleton, mem_singleton]
      at hy hz
    rcases hy with hy | rfl <;> rcases hz with hz | rfl
    · exact hstores.injective y hy z hz (by rw [← hsame y hy, heq, hsame z hz])
    · exact hapart y hy (heq.trans hnew)
    · exact (hapart z hz (heq.symm.trans hnew)).symm
    · rfl

end

theorem stores_run (hash : Data → Nat → δ) (calls : List (Data × Nat)) :
    Stores hash (run hash calls) := by
  apply History.invariant
  · constructor <;> simp [values, ValueIndex.empty, empty, select]
  · intro history x pos next hstores happends
    cases happends with
    | fail state hstate =>
      have hsame : state = history.index.impl := by
        rcases hstate with hstate | ⟨-, hstate⟩
        · exact hstate
        · simp only [implementation, appendImpl] at hstate
          grind
      subst hsame
      exact ⟨hstores.1, hstores.2, hstores.3, hstores.4, hstores.5, hstores.6⟩
    | nil hpos hx =>
      have hvalues : (history.appended ++ [(x, pos)]).filter
          (fun entry => decide (entry.1 ≠ .none)) = values history := by
        simp [values, hx]
      constructor <;> simp only [values, hvalues]
      exacts [hstores.1, hstores.2, hstores.3, hstores.4, hstores.5, hstores.6]
    | value state hpos hx hstate =>
      simp only [implementation, appendImpl] at hstate
      split at hstate
      · cases hstate
      · split at hstate
        · cases hstate
        next digest made hmade =>
          cases hstate
          exact hstores.value hpos hx hmade

/-! ## Lookups -/

omit [DecidableEq δ] in
/-- The scan sets the positions whose digests match. -/
theorem test_scanFrom {predicate : δ → Bool} {digests : List δ} {range rest : List Nat}
    {i lastMatch : Nat} {result : Bitmap} (hlast : lastMatch ≤ i)
    (hrest : range.drop (i - lastMatch) = rest) (hlen : rest.length = digests.length)
    (hsorted : rest.Pairwise (· < ·)) (hres : ∀ p ∈ rest, result.length ≤ p) (pos : Nat) :
    (scanFrom predicate range i lastMatch result digests).test pos = true ↔
      result.test pos = true ∨ ∃ digest, (pos, digest) ∈ rest.zip digests ∧
        predicate digest = true := by
  induction digests generalizing range rest i lastMatch result with
  | nil => simp [scanFrom]
  | cons digest digests ih =>
    obtain ⟨first, rest, rfl⟩ : ∃ first tail, rest = first :: tail :=
      exists_cons_of_length_eq_add_one hlen
    have hlen : rest.length = digests.length := succ.inj hlen
    obtain ⟨hfirst, hsorted⟩ := pairwise_cons.mp hsorted
    have hmark := hres first mem_cons_self
    rw [scanFrom, zip_cons_cons]
    split
    next hmatch =>
      simp only [hrest, headD_cons]
      rw [ih (le_succ i) (by simp) hlen hsorted, test_mark hmark]
      · simp only [Bool.or_eq_true, decide_eq_true_eq, mem_cons, Prod.mk.injEq]
        grind
      · intro p hp
        rw [length_mark hmark]
        exact hfirst p hp
    next hmatch =>
      have hdrop : range.drop (i + 1 - lastMatch) = rest := by
        rw [Nat.sub_add_comm hlast, ← drop_drop, hrest, drop_one, tail_cons]
      simp only [mem_cons, Prod.mk.injEq]
      grind

theorem pairwise_select (mask : Bitmap) : (select mask).Pairwise (· < ·) :=
  Pairwise.filter _ pairwise_lt_range

omit [DecidableEq δ] in
/-- The scan sets the bit of a value whose digest matches. -/
theorem Stores.test_scan {history : History (HashIndex δ)} (hstores : Stores hash history)
    {v : Data} (hmem : (v, pos) ∈ values history) (predicate : δ → Bool) :
    (scan history.index predicate).test pos = predicate (history.index.impl.findDigest hash v) := by
  have hsorted := pairwise_select history.index.mask
  have hsel := hstores.select_eq
  have hne : select history.index.mask ≠ [] := by
    rw [hsel]
    exact ne_nil_of_mem (mem_map_of_mem hmem)
  have hscan := @test_scanFrom δ predicate history.index.impl.digests _ _ 0 0 []
    (le_refl 0) (drop_zero (l := select history.index.mask))
    (by simp [hsel, hstores.digests_eq]) hsorted (by simp) pos
  rw [Bool.eq_iff_iff, scan, if_neg (by simpa using hne), hscan]
  rw [hsel] at hsorted
  simp only [hsel, hstores.digests_eq, zip_map', mem_map, Prod.mk.injEq]
  constructor
  · rintro (hnone | ⟨digest, ⟨entry, hentry, hpos, rfl⟩, hmatch⟩)
    · simp at hnone
    · -- A position belongs to one value.
      have heq : entry = (v, pos) :=
        inj_on_of_nodup_map (hsorted.imp ne_of_lt) hentry hmem hpos
      rwa [heq] at hmatch
  · intro hmatch
    exact Or.inr ⟨_, ⟨(v, pos), hmem, rfl, rfl⟩, hmatch⟩

/-- Values other than patterns are compared by their digests. -/
theorem lookupImpl_of_ne_pattern (hash : Data → Nat → δ) (index : ValueIndex (HashIndex δ))
    {x : Data} (hpattern : ∀ p, x ≠ .basic (.pattern p)) : lookupImpl hash index .equal x =
        .ok (scan index fun digest => decide (digest = index.impl.findDigest hash x)) ∧
      lookupImpl hash index .notEqual x =
        .ok (scan index fun digest => decide (digest ≠ index.impl.findDigest hash x)) := by
  cases x with
  | basic b =>
    cases b with
    | pattern p => exact absurd rfl (hpattern p)
    | _ => exact ⟨rfl, rfl⟩
  | _ => exact ⟨rfl, rfl⟩

/-- The bit of a value is set by the lookups for `==` and `!=` as it should be. -/
def ExactAt (hash : Data → Nat → δ) (index : ValueIndex (HashIndex δ)) (x v : Data) (pos : Nat) :
    Prop :=
  ∃ equal notEqual, index.lookup (implementation hash) .equal x = .ok equal ∧
    index.lookup (implementation hash) .notEqual x = .ok notEqual ∧
    (equal.test pos = true ↔ v = x) ∧ (notEqual.test pos = true ↔ v ≠ x)

section ExactAt

variable {history : History (HashIndex δ)} {x v : Data} {pos : Nat} (hrec : Recorded history)
  (hmem : (v, pos) ∈ values history)

include hrec hmem

omit [DecidableEq δ] in
theorem bits_of_mem_values :
    v ≠ .none ∧ history.index.mask.test pos = true ∧ history.index.none.test pos = false := by
  obtain ⟨happended, hv⟩ := mem_filter.mp hmem
  have hmask := (hrec.mask_iff pos).mpr ⟨v, happended, of_decide_eq_true hv⟩
  exact ⟨of_decide_eq_true hv, hmask, hrec.disjoint pos hmask⟩

theorem exactAt_iff (hx : x ≠ .none) {equal notEqual : Bitmap}
    (hequal : lookupImpl hash history.index .equal x = .ok equal)
    (hnotEqual : lookupImpl hash history.index .notEqual x = .ok notEqual) :
    ExactAt hash history.index x v pos ↔
      (equal.test pos = true ↔ v = x) ∧ (notEqual.test pos = true ↔ v ≠ x) := by
  obtain ⟨-, hmask, hnone⟩ := bits_of_mem_values hrec hmem
  simp only [ExactAt, ValueIndex.lookup_of_ne_none hx, implementation, hequal, hnotEqual,
    Except.map, Except.ok.injEq]
  constructor
  · rintro ⟨_, _, rfl, rfl, hexact⟩
    simpa [ValueIndex.test_restrict, hmask, hnone] using hexact
  · intro hexact
    exact ⟨_, _, rfl, rfl, by simpa [ValueIndex.test_restrict, hmask, hnone] using hexact⟩

theorem exactAt_none : ExactAt hash history.index .none v pos := by
  obtain ⟨hne, hmask, hnone⟩ := bits_of_mem_values hrec hmem
  have hpos : pos < history.index.offset :=
    lt_of_lt_of_le (lt_length_of_test hmask) (le_max_right _ _)
  obtain ⟨equal, hequal, -, htest⟩ := ValueIndex.lookupNil_equal history.index
  obtain ⟨notEqual, hnotEqual, -, htest'⟩ := ValueIndex.lookupNil_notEqual history.index
  exact ⟨equal, notEqual, hequal, hnotEqual, by simp [htest, hnone, hne],
    by simp [htest' pos hpos, hnone, hne]⟩

theorem Stores.exactAt_iff (hstores : Stores hash history) (hx : x ≠ .none)
    (hpattern : ∀ p, x ≠ .basic (.pattern p)) :
    ExactAt hash history.index x v pos ↔
      (history.index.impl.findDigest hash v = history.index.impl.findDigest hash x ↔ v = x) := by
  obtain ⟨hequal, hnotEqual⟩ := lookupImpl_of_ne_pattern hash history.index hpattern
  rw [HashIndex.exactAt_iff hrec hmem hx hequal hnotEqual, hstores.test_scan hmem,
    hstores.test_scan hmem, decide_eq_true_eq, decide_eq_true_eq]
  exact and_iff_left_of_imp not_congr

end ExactAt

def isUnanswerable (op : RelationalOperator) (x : Data) : Bool :=
  match op, x with
  | .equal, .basic (.pattern _) | .notEqual, .basic (.pattern _)
  | .in, .basic (.string _) | .notIn, .basic (.string _)
  | .ni, .basic (.string _) | .notNi, .basic (.string _) => true
  | _, _ => false

theorem lookupImpl_of_isUnanswerable (index : ValueIndex (HashIndex δ)) {op : RelationalOperator}
    {x : Data} (hop : isUnanswerable op x = true) : x ≠ .none ∧
      lookupImpl hash index op x = .ok (replicate index.impl.digests.length true) := by
  unfold isUnanswerable at hop
  split at hop <;> first | exact ⟨nofun, rfl⟩ | cases hop

/-- A lookup that digests do not answer returns the first positions, as many as there are
values. These are the positions of all values if and only if the values have no gap and no
nil value before them. -/
theorem unanswerable_returns_all_iff (hash : Data → Nat → δ) (calls : List (Data × Nat))
    (op : RelationalOperator) (x : Data) (hop : isUnanswerable op x = true) :
    ∃ result, (run hash calls).index.lookup (implementation hash) op x = .ok result ∧
      ((∀ v pos, (v, pos) ∈ (run hash calls).appended → v ≠ .none → result.test pos = true) ↔
        (values (run hash calls)).map Prod.snd = List.range (values (run hash calls)).length) := by
  have hstores := stores_run hash calls
  have hrecorded : Recorded (run hash calls) := recorded_run (implementation hash) empty calls
  generalize run hash calls = history at hstores hrecorded ⊢
  obtain ⟨hx, hlookup⟩ := @lookupImpl_of_isUnanswerable _ _ hash history.index op x hop
  refine ⟨_, by simp only [ValueIndex.lookup_of_ne_none hx, implementation, hlookup]; rfl, ?_⟩
  have hlength : history.index.impl.digests.length = (values history).length := by
    rw [hstores.digests_eq, length_map]
  have hsorted := pairwise_select history.index.mask
  rw [hstores.select_eq] at hsorted
  -- A value is found if and only if its position is less than the number of values.
  have htest : ∀ v pos, (v, pos) ∈ history.appended → v ≠ .none →
      ((history.index.restrict op (replicate (values history).length true)).test pos = true ↔
        pos < (values history).length) := by
    intro v pos hmem hv
    have hmask := (hrecorded.mask_iff pos).mpr ⟨v, hmem, hv⟩
    rw [ValueIndex.test_restrict, hmask, hrecorded.disjoint pos hmask]
    simp [test, getD_eq_getElem?_getD, getElem?_replicate]
    grind
  rw [hlength]
  constructor
  · intro hall
    have hsubset : (values history).map Prod.snd ⊆ range (values history).length := by
      intro pos hpos
      obtain ⟨entry, hentry, rfl⟩ := mem_map.mp hpos
      obtain ⟨hmem, hv⟩ := mem_filter.mp hentry
      have hv : entry.1 ≠ .none := of_decide_eq_true hv
      exact mem_range.mpr ((htest _ _ hmem hv).mp (hall _ _ hmem hv))
    have hperm := (subperm_of_subset (hsorted.imp ne_of_lt) hsubset).perm_of_length_le
      (by simp)
    exact hperm.eq_of_pairwise (fun _ _ _ _ hlt hgt => absurd hlt (lt_asymm hgt)) hsorted
      pairwise_lt_range
  · intro hrange v pos hmem hv
    rw [htest v pos hmem hv, ← mem_range, ← hrange]
    exact mem_map_of_mem (mem_filter.mpr ⟨hmem, by simpa using hv⟩)

/-- The only value is at the first position and is returned. -/
theorem unanswerable_returns_first : ∃ result,
    (run (fun _ seed => seed) [(.basic (.string "ab"), 0)]).index.lookup
      (implementation fun _ seed => seed) .ni (.basic (.string "b")) = .ok result ∧
      result.test 0 = true := by
  obtain ⟨result, hlookup, hall⟩ := unanswerable_returns_all_iff (fun _ seed => seed)
    [(.basic (.string "ab"), 0)] .ni (.basic (.string "b")) rfl
  exact ⟨result, hlookup, hall.mpr (by decide) (.basic (.string "ab")) 0 (by decide) nofun⟩

/-- A nil value before the string hides the string from a search. -/
theorem string_after_nil_is_missed :
    (run (fun _ seed => seed) [(.none, 0), (.basic (.string "ab"), 1)]).appended =
        [(.none, 0), (.basic (.string "ab"), 1)] ∧
      (run (fun _ seed => seed) [(.none, 0), (.basic (.string "ab"), 1)]).index.lookup
        (implementation fun _ seed => seed) .ni (.basic (.string "b")) = .ok [false, false] := by
  decide

end HashIndex

end Vast
