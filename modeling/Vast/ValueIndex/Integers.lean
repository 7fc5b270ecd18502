import Vast.ValueIndex.Arithmetic
import Vast.ValueIndex.Levels

/-! # Indexes of integers

Integers are not binned, and signed ones are shifted such that the order of the stored
numbers is the one of the values. The coder knows numbers only up to a multiple of the
product of its base, so an index is exact if and only if the base has a representation
for all numbers of 64 bits.
-/

namespace Vast

open Foundation List MultiLevelCoder Bitmap Int64 UInt64 Temporal
open ValueIndex (History Recorded recorded_run)

def signedIntegers : ArithmeticType Int64 where
  view := Temporal.view
  bin x := x
  adjust _ x := x
  order := Temporal.order

/-- The representation of `uint64`. Conversions keep the bits. -/
def unsignedIntegers : ArithmeticType UInt64 where
  view x := (Temporal.view x).map Int64.toUInt64
  bin x := x
  adjust _ x := x
  order := UInt64.toNat

namespace ArithmeticIndex

section Exact

variable {ρ : Type} [LT ρ] [LE ρ]

variable (type : ArithmeticType ρ)

variable (data : ρ → BasicData)

/-- The lookups at the position of a value are exact. -/
structure ExactAt (index : ValueIndex MultiLevelCoder) (v : ρ) (pos : Nat) : Prop where
  compares : ∀ (op : RelationalOperator) (x : ρ), op.isComparison = true →
    ∃ result, index.lookup (implementation type) op (.basic (data x)) = .ok result ∧
      (result.test pos = true ↔ op.Compares v x)
  contains : ∀ xs : List ρ, ∃ result, index.lookup (implementation type) .in
    (.list (xs.map fun x => .basic (data x))) = .ok result ∧ (result.test pos = true ↔ v ∈ xs)
  excludes : ∀ xs : List ρ, ∃ result, index.lookup (implementation type) .notIn
    (.list (xs.map fun x => .basic (data x))) = .ok result ∧ (result.test pos = true ↔ v ∉ xs)

/-- An index that was constructed with a base is exact at the positions of all its values,
whatever is appended. -/
def ExactIndex (base : Base) : Prop :=
  ∀ calls v pos, (.basic (data v), pos) ∈ (run type base calls).appended →
    ExactAt type data (run type base calls).index v pos

/-- Values are stored without binning as the numbers of 64 bits in their order. -/
structure OrderedCode : Prop where
  view_none : type.view .none = none
  view_data : ∀ v, type.view (.basic (data v)) = some v
  bin_eq : ∀ v, type.bin v = v
  adjust_eq : ∀ op v, type.adjust op v = v
  order_lt : ∀ v, type.order v < 2 ^ 64
  order_surjective : ∀ n < 2 ^ 64, ∃ v, type.order v = n
  eq_iff : ∀ v x, type.order v = type.order x ↔ v = x
  lt_iff : ∀ v x, type.order v < type.order x ↔ v < x
  le_iff : ∀ v x, type.order v ≤ type.order x ↔ v ≤ x

variable {type : ArithmeticType ρ} {data : ρ → BasicData} {base : Base}
  {calls : List (Data × Nat)} {v : ρ} {pos : Nat}

theorem OrderedCode.compares_iff (hcode : OrderedCode type data) (op : RelationalOperator)
    (v x : ρ) : op.Compares (type.order v) (type.order x) ↔ op.Compares v x := by
  cases op <;>
    simp [RelationalOperator.Compares, hcode.eq_iff, hcode.lt_iff, hcode.le_iff]

theorem OrderedCode.test_lookup (hcode : OrderedCode type data)
    (hmem : (.basic (data v), pos) ∈ (run type base calls).appended) (op : RelationalOperator)
    (x : ρ) :
    ∃ result, (run type base calls).index.lookup (implementation type) op (.basic (data x)) =
      .ok result ∧ result.test pos = accepts base.values.prod op (type.order v) (type.order x) := by
  obtain ⟨values, hstores⟩ := exists_stores type hcode.view_none base calls
  refine ⟨_, lookup_basic (hcode.view_data x) op, ?_⟩
  have htest := hstores.test_restrict (recorded_run _ _ calls) hmem nofun (hcode.view_data v) op x
  rwa [code, hcode.bin_eq, hcode.bin_eq, hcode.adjust_eq] at htest

section Lists

variable {index : ValueIndex MultiLevelCoder}
  (hequal : ∀ x, ∃ ids, index.dispatch .equal (.basic (data x))
    (lookupImpl type index .equal (.basic (data x))) = .ok ids ∧ (ids.test pos = true ↔ v = x))
  {bits : Bitmap}

include hequal

omit [LT ρ] [LE ρ]

theorem lookupIn_iff (xs : List ρ) (hbits : pos < bits.length) :
    ∃ result, lookupIn type index (xs.map fun x => .basic (data x)) bits = .ok result ∧
      (result.test pos = true ↔ bits.test pos = true ∨ v ∈ xs) := by
  induction xs generalizing bits with
  | nil => exact ⟨bits, rfl, by simp⟩
  | cons x xs ih =>
    obtain ⟨ids, hids, htest⟩ := hequal x
    have hor : (or bits ids).test pos = true ↔ bits.test pos = true ∨ v = x := by
      rw [test_or, Bool.or_eq_true, htest]
    have hlen : pos < (or bits ids).length := by
      rw [length_or]
      omega
    rw [map_cons, lookupIn, hids]
    dsimp only
    split
    next hall =>
      -- All positions are there, so the rest of the list adds nothing.
      have hset : (or bits ids).test pos = true := by
        rw [test, getD_eq_getElem _ _ hlen]
        exact all_eq_true.mp hall _ (getElem_mem hlen)
      exact ⟨_, rfl, iff_of_true hset (by rw [mem_cons]; tauto)⟩
    · obtain ⟨result, hres, hiff⟩ := ih hlen
      exact ⟨result, hres, by rw [hiff, hor, mem_cons, or_assoc]⟩

theorem lookupNotIn_iff (xs : List ρ) :
    ∃ result, lookupNotIn type index (xs.map fun x => .basic (data x)) bits = .ok result ∧
      (result.test pos = true ↔ bits.test pos = true ∧ v ∉ xs) := by
  induction xs generalizing bits with
  | nil => exact ⟨bits, rfl, by simp⟩
  | cons x xs ih =>
    obtain ⟨ids, hids, htest⟩ := hequal x
    have hdiff : (diff bits ids).test pos = true ↔ bits.test pos = true ∧ v ≠ x := by
      rw [test_diff, Bool.and_eq_true, Bool.not_eq_true', ← Bool.not_eq_true, htest]
    rw [map_cons, lookupNotIn, hids]
    dsimp only
    split
    next hall =>
      have hunset : ¬(diff bits ids).test pos = true := by
        intro hset
        have hlt := lt_length_of_test hset
        rw [test, getD_eq_getElem _ _ hlt] at hset
        have hfalse := all_eq_true.mp hall _ (getElem_mem hlt)
        rw [hset] at hfalse
        cases hfalse
      exact ⟨_, rfl, iff_of_false hunset (by rw [mem_cons]; tauto)⟩
    · obtain ⟨result, hres, hiff⟩ := ih
      exact ⟨result, hres, by rw [hiff, hdiff, mem_cons, not_or, and_assoc]⟩

end Lists

/-- With a base for all numbers of 64 bits, all lookups are exact. -/
theorem OrderedCode.exact (hcode : OrderedCode type data) (hprod : 2 ^ 64 ≤ base.values.prod) :
    ExactIndex type data base := by
  intro calls v pos hmem
  have hcompares : ∀ (op : RelationalOperator) (x : ρ), op.isComparison = true →
      ∃ result, (run type base calls).index.lookup (implementation type) op (.basic (data x)) =
        .ok result ∧ (result.test pos = true ↔ op.Compares v x) := by
    intro op x hop
    obtain ⟨result, hlookup, htest⟩ := hcode.test_lookup hmem op x
    rw [accepts_eq (lt_of_lt_of_le (hcode.order_lt v) hprod)
      (lt_of_lt_of_le (hcode.order_lt x) hprod) hop] at htest
    exact ⟨result, hlookup, by rw [htest, decide_eq_true_eq, hcode.compares_iff]⟩
  have hrec : Recorded (run type base calls) := recorded_run _ _ calls
  have hmask := (hrec.mask_iff pos).mpr ⟨_, hmem, nofun⟩
  have hoffset : pos < (run type base calls).index.offset :=
    lt_of_lt_of_le (lt_length_of_test hmask) (le_max_right _ _)
  have hrestrict : ∀ (op : RelationalOperator) (answer : Bitmap), op ≠ .notEqual →
      ((run type base calls).index.restrict op answer).test pos = answer.test pos := by
    intro op answer hop
    rw [ValueIndex.test_restrict, hmask, decide_eq_false hop]
    simp
  refine ⟨hcompares, fun xs => ?_, fun xs => ?_⟩
  · obtain ⟨answer, hanswer, hiff⟩ := lookupIn_iff (fun x => hcompares .equal x rfl) xs
      (show pos < (replicate _ false).length by rwa [length_replicate])
    refine ⟨_, congrArg (Except.map _) hanswer, ?_⟩
    rw [hrestrict .in answer nofun, hiff, test_replicate_false]
    simp
  · obtain ⟨answer, hanswer, hiff⟩ := lookupNotIn_iff (fun x => hcompares .equal x rfl) xs
    refine ⟨_, congrArg (Except.map _) hanswer, ?_⟩
    rw [hrestrict .notIn answer nofun, hiff, and_iff_right]
    rw [test, getD_eq_getElem?_getD, getElem?_replicate_of_lt hoffset, Option.getD_some]

/-- Otherwise the product of the base cannot be told from zero. -/
theorem OrderedCode.exact_iff (hcode : OrderedCode type data) (base : Base) :
    ExactIndex type data base ↔ 2 ^ 64 ≤ base.values.prod := by
  refine ⟨fun hexact => ?_, hcode.exact⟩
  by_contra hprod
  have hpos : 0 < base.values.prod := prod_pos base.two_le
  obtain ⟨zero, hzero⟩ := hcode.order_surjective 0 (by decide)
  obtain ⟨product, hproduct⟩ := hcode.order_surjective base.values.prod (by omega)
  have hmem : (.basic (data zero), 0) ∈ (run type base [(.basic (data zero), 0)]).appended := by
    simp [run, History.run, History.step, ValueIndex.append, ValueIndex.appendValue, implementation,
      appendImpl, hcode.view_data, History.record, ValueIndex.empty, ValueIndex.offset]
  obtain ⟨result, hlookup, hiff⟩ := (hexact _ zero 0 hmem).compares .equal product rfl
  obtain ⟨_, hsome, htest⟩ := hcode.test_lookup hmem .equal product
  cases hlookup.symm.trans hsome
  have hequal : zero = product := by
    rw [← RelationalOperator.Compares.eq_1, ← hiff, htest, hzero, hproduct]
    simp [accepts]
  rw [← hcode.eq_iff] at hequal
  omega

end Exact

theorem order_eq (x : Int64) : (signedIntegers.order x : Int) = x.toInt + 2 ^ 63 := by
  have hlt := x.toUInt64.toNat_lt
  have htoInt := toInt_eq x
  have horder : signedIntegers.order x = order x := rfl
  rw [horder, order, UInt64.toNat_add, toNat_shift]
  split at htoInt <;> omega

theorem orderedCode_signed : OrderedCode signedIntegers BasicData.int64 where
  view_none := rfl
  view_data _ := rfl
  bin_eq _ := rfl
  adjust_eq _ _ := rfl
  order_lt v := toNat_lt _
  order_surjective n hn := by
    have horder := order_eq (ofInt (n - 2 ^ 63))
    rw [toInt_ofInt_of_le (by omega) (by omega)] at horder
    exact ⟨ofInt (n - 2 ^ 63), by omega⟩
  eq_iff v x := by
    rw [← toInt_inj]
    have hv := order_eq v
    have hx := order_eq x
    omega
  lt_iff v x := by
    rw [lt_iff_toInt_lt]
    have hv := order_eq v
    have hx := order_eq x
    omega
  le_iff v x := by
    rw [le_iff_toInt_le]
    have hv := order_eq v
    have hx := order_eq x
    omega

theorem orderedCode_unsigned : OrderedCode unsignedIntegers BasicData.uint64 where
  view_none := rfl
  view_data _ := rfl
  bin_eq _ := rfl
  adjust_eq _ _ := rfl
  order_lt v := toNat_lt v
  order_surjective n hn := ⟨ofNat n, toNat_ofNat_of_lt' hn⟩
  eq_iff _ _ := UInt64.toNat_inj
  lt_iff _ _ := lt_iff_toNat_lt.symm
  le_iff _ _ := le_iff_toNat_le.symm

/-- Indexes of integers are exact if and only if their base represents all numbers of 64
bits, which the default base does. -/
theorem integer_lookup_exact_iff (base : Base) :
    (ExactIndex signedIntegers BasicData.int64 base ↔ 2 ^ 64 ≤ base.values.prod) ∧
      (ExactIndex unsignedIntegers BasicData.uint64 base ↔ 2 ^ 64 ≤ base.values.prod) :=
  ⟨orderedCode_signed.exact_iff base, orderedCode_unsigned.exact_iff base⟩

example : 2 ^ 64 ≤ defaultBase.values.prod := by decide

/-- With two digits of base 10, the number 100 is found where 0 was appended. -/
theorem hundred_is_taken_for_zero :
    let history := run unsignedIntegers (Base.uniform 10 2 (by decide) (by decide))
      [(.basic (.uint64 0), 0)]
    history.appended = [(.basic (.uint64 0), 0)] ∧
      history.index.lookup (implementation unsignedIntegers) .equal (.basic (.uint64 100)) =
        .ok [true] := by
  intro history
  have hbits : history.index.restrict .equal
      (lookupBitmap unsignedIntegers history.index.impl .equal 100) = [true] := by
    decide +kernel
  refine ⟨by decide +kernel, ?_⟩
  rw [← hbits]
  exact lookup_basic rfl .equal

end ArithmeticIndex

end Vast
