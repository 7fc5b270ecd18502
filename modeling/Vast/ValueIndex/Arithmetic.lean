import Vast.Evaluate.Cell
import Vast.ValueIndex.Coder
import Vast.ValueIndex.ValueIndex

/-! # Arithmetic indexes

An arithmetic index puts values into bins, maps the bins to unsigned numbers and stores
those in a multi-level coder. Time points and durations are binned by seconds. Because
of the binning a lookup may return too much, but it should not miss a value; the
operand of a strict comparison is moved by one bin for that reason.
-/

namespace Vast

open Foundation List MultiLevelCoder Bitmap
open ValueIndex (History Implementation Appends Recorded recorded_run)

namespace Double

/-- The conversion to an integer, which truncates. Numbers outside of the range have no
defined conversion; here they wrap around. -/
def toInt64 (bits : UInt64) : Int64 :=
  let exponent := magnitude bits / 2 ^ 52
  let mantissa := magnitude bits % 2 ^ 52 + 2 ^ 52
  let value : Nat :=
    if exponent < 1023 then 0
    else if exponent < 1075 then mantissa / 2 ^ (1075 - exponent)
    else mantissa * 2 ^ (exponent - 1075)
  Int64.ofInt (if 2 ^ 63 ≤ bits.toNat then -(value : Int) else value)

end Double

/-- How an arithmetic index represents its values. The operand of a lookup is adjusted
after the binning. -/
structure ArithmeticType (ρ : Type) where
  view : Data → Option ρ
  bin : ρ → ρ
  adjust : RelationalOperator → ρ → ρ
  order : ρ → Nat

/-! ## Time points and durations -/

namespace Temporal

def view : Data → Option Int64
  | .basic (.bool value) => some (if value then 1 else 0)
  | .basic (.int64 value) => some value
  | .basic (.uint64 value) => some value.toInt64
  | .basic (.double bits) => some (Double.toInt64 bits)
  | .basic (.duration count) => some count
  | .basic (.time count) => some count
  | _ => none

/-- The bins are seconds. The divisor is unsigned, and so is the division. -/
def bin (x : Int64) : Int64 :=
  (x.toUInt64 / 1000000000).toInt64

/-- Binning loses precision, so strict comparisons include the bin of the operand. -/
def adjust (op : RelationalOperator) (binned : Int64) : Int64 :=
  match op with
  | .greater => binned - 1
  | .less => binned + 1
  | _ => binned

/-- Signed numbers are shifted, such that their order is the one of the bits. -/
def order (x : Int64) : Nat :=
  (x.toUInt64 + 9223372036854775808).toNat

end Temporal

def temporal : ArithmeticType Int64 where
  view := Temporal.view
  bin := Temporal.bin
  adjust := Temporal.adjust
  order := Temporal.order

/-! ## The index -/

namespace ArithmeticIndex

variable {ρ : Type} (type : ArithmeticType ρ) {x : Data} {v : ρ} {pos : Nat}

def code (x : ρ) : Nat :=
  type.order (type.bin x)

def appendImpl (bmi : MultiLevelCoder) (x : Data) (pos : Nat) : Bool × MultiLevelCoder :=
  match type.view x with
  | none => (false, bmi)
  | some x => (true, (bmi.skip (pos - bmi.size)).encode (code type x) 1)

def lookupBitmap (bmi : MultiLevelCoder) (op : RelationalOperator) (x : ρ) : Bitmap :=
  bmi.decode op (type.order (type.adjust op (type.bin x)))

mutual

/-- Values are looked up in the bitmap index, and lists by their elements. -/
def lookupImpl (index : ValueIndex MultiLevelCoder) (op : RelationalOperator) :
    Data → Except IndexError Bitmap
  | .list xs =>
    match op with
    | .in => lookupIn index xs (List.replicate index.offset false)
    | .notIn => lookupNotIn index xs (List.replicate index.offset true)
    | op => .error (.unsupportedOperator op)
  | x =>
    match type.view x with
    | none => .error (.typeClash x)
    | some x => .ok (lookupBitmap type index.impl op x)
termination_by structural x => x

/-- The elements are added until all positions are there. -/
def lookupIn (index : ValueIndex MultiLevelCoder) : List Data → Bitmap → Except IndexError Bitmap
  | [], result => .ok result
  | x :: xs, result =>
    match index.dispatch .equal x (lookupImpl index .equal x) with
    | .error e => .error e
    | .ok ids =>
      let result := Bitmap.or result ids
      if result.all id then .ok result else lookupIn index xs result
termination_by structural xs => xs

/-- The elements are removed until no position is left. -/
def lookupNotIn (index : ValueIndex MultiLevelCoder) :
    List Data → Bitmap → Except IndexError Bitmap
  | [], result => .ok result
  | x :: xs, result =>
    match index.dispatch .equal x (lookupImpl index .equal x) with
    | .error e => .error e
    | .ok ids =>
      let result := Bitmap.diff result ids
      if result.all (!·) then .ok result else lookupNotIn index xs result
termination_by structural xs => xs

end

def implementation : Implementation MultiLevelCoder where
  appendImpl := appendImpl type
  lookupImpl := lookupImpl type

/-- The history of an index that starts with no values. -/
def run (base : Base) (calls : List (Data × Nat)) : History MultiLevelCoder :=
  History.run (implementation type) (MultiLevelCoder.ofBase base) calls

/-! ## What is stored -/

/-- The coder holds the numbers of the appended values at their positions. -/
structure Stores (base : Base) (history : History MultiLevelCoder) (values : List Nat) :
    Prop where
  encodes : history.index.impl.Encodes values
  base_eq : history.index.impl.base = base.values
  length_eq : values.length = history.index.mask.length
  get_eq : ∀ x v pos, (x, pos) ∈ history.appended → type.view x = some v →
    values[pos]? = some (code type v)

variable {type} {base : Base} {history next : History MultiLevelCoder} {values : List Nat}

theorem Stores.appendImpl (hstores : Stores type base history values) (hview : type.view x = some v)
    (hpos : history.index.offset ≤ pos) : Stores type base
      ⟨{ history.index with
          mask := history.index.mask.mark pos
          impl := (history.index.impl.skip (pos - history.index.impl.size)).encode
            (code type v) 1 }, history.appended ++ [(x, pos)]⟩
      (values ++ replicate (pos - history.index.impl.size) 0 ++ [code type v]) := by
  have hsize : history.index.impl.size = values.length := hstores.encodes.size_eq
  have hmask : history.index.mask.length ≤ pos := le_trans (le_max_right _ _) hpos
  have hle : values.length ≤ pos := by rwa [hstores.length_eq]
  have hfilled : (values ++ replicate (pos - history.index.impl.size) 0).length = pos := by
    rw [length_append, length_replicate, hsize]
    omega
  constructor
  · exact (hstores.encodes.skip _).encode (code type v) 1
  · rw [← hstores.base_eq]
    rw [encode]
    split <;> rfl
  · rw [length_append, hfilled, length_mark hmask, length_singleton]
  · intro y w i hmem hy
    rcases mem_append.mp hmem with hold | hnew
    · have hget := hstores.get_eq y w i hold hy
      have hlt : i < values.length := by
        by_contra hge
        rw [getElem?_eq_none (Nat.le_of_not_lt hge)] at hget
        cases hget
      rw [append_assoc, getElem?_append_left hlt, hget]
    · rw [mem_singleton, Prod.mk.injEq] at hnew
      obtain ⟨rfl, rfl⟩ := hnew
      cases hview.symm.trans hy
      rw [getElem?_append_right (Nat.le_of_eq hfilled), hfilled, Nat.sub_self]
      rfl

theorem Stores.appends (hnil : type.view .none = none) (hstores : Stores type base history values)
    (happends : Appends (implementation type) history x pos next) :
    ∃ values, Stores type base next values := by
  cases happends with
  | fail state hstate =>
    have hsame : state = history.index.impl := by
      rcases hstate with hsame | ⟨-, hfalse⟩
      · exact hsame
      · simp only [implementation, ArithmeticIndex.appendImpl] at hfalse
        split at hfalse <;> cases hfalse
        rfl
    subst hsame
    exact ⟨values, hstores.encodes, hstores.base_eq, hstores.length_eq, hstores.get_eq⟩
  | nil hpos hx =>
    subst hx
    refine ⟨values, hstores.encodes, hstores.base_eq, hstores.length_eq, ?_⟩
    intro y v i hmem hy
    rcases mem_append.mp hmem with hold | hnew
    · exact hstores.get_eq y v i hold hy
    · rw [mem_singleton, Prod.mk.injEq] at hnew
      rw [hnew.1, hnil] at hy
      cases hy
  | value state hpos hx hstate =>
    simp only [implementation, ArithmeticIndex.appendImpl] at hstate
    split at hstate
    · cases hstate
    next v hview =>
      cases hstate
      exact ⟨_, hstores.appendImpl hview hpos⟩

theorem exists_stores (type : ArithmeticType ρ) (hnil : type.view .none = none) (base : Base)
    (calls : List (Data × Nat)) : ∃ values, Stores type base (run type base calls) values := by
  apply History.invariant fun history => ∃ values, Stores type base history values
  · refine ⟨[], encodes_ofBase base, rfl, rfl, ?_⟩
    intro x v pos hmem
    cases hmem
  · intro history x pos next hstores happends
    obtain ⟨values, hstores⟩ := hstores
    exact hstores.appends hnil happends

/-! ## Lookups -/

theorem lookup_basic {index : ValueIndex MultiLevelCoder} {value : BasicData} {w : ρ}
    (hview : type.view (.basic value) = some w) (op : RelationalOperator) :
    index.lookup (implementation type) op (.basic value) =
      .ok (index.restrict op (lookupBitmap type index.impl op w)) := by
  have himpl : lookupImpl type index op (.basic value) =
      .ok (lookupBitmap type index.impl op w) := by
    simp [lookupImpl, hview]
  exact congrArg (Except.map (index.restrict op)) himpl

/-- The bit at the position of a value compares the stored number with the operand. -/
theorem Stores.test_restrict (hstores : Stores type base history values)
    (hrec : Recorded history) (hmem : (x, pos) ∈ history.appended) (hne : x ≠ .none)
    (hview : type.view x = some v) (op : RelationalOperator) (w : ρ) :
    (history.index.restrict op (lookupBitmap type history.index.impl op w)).test pos =
      accepts base.values.prod op (code type v) (type.order (type.adjust op (type.bin w))) := by
  have hmask : history.index.mask.test pos = true :=
    (hrec.mask_iff pos).mpr ⟨x, hmem, hne⟩
  rw [ValueIndex.test_restrict, hmask, hrec.disjoint pos hmask, lookupBitmap,
    hstores.encodes.decode_eq, hstores.base_eq, test, getD_eq_getElem?_getD,
    getElem?_map, hstores.get_eq x v pos hmem hview]
  simp

end ArithmeticIndex

namespace Temporal

open ArithmeticIndex

/-- The second of a number of nanoseconds, taken as an unsigned number. -/
def bucket (x : Int64) : Nat :=
  x.toUInt64.toNat / 1000000000

theorem bucket_lt (x : Int64) : bucket x < 2 ^ 35 := by
  have hlt := x.toUInt64.toNat_lt
  rw [bucket]
  omega

theorem toNat_toUInt64_bin (x : Int64) : (bin x).toUInt64.toNat = bucket x := by
  simp [bin, bucket]

theorem toNat_shift : (9223372036854775808 : UInt64).toNat = 2 ^ 63 := by decide

theorem order_bin (x : Int64) : order (bin x) = bucket x + 2 ^ 63 := by
  have hlt := bucket_lt x
  rw [order, UInt64.toNat_add, toNat_toUInt64_bin, toNat_shift]
  omega

variable (op : RelationalOperator)

def moved (operand : Nat) : Nat :=
  match op with
  | .greater => operand - 1
  | .less => operand + 1
  | _ => operand

theorem order_adjust (x : Int64) : order (adjust op (bin x)) = moved op (bucket x + 2 ^ 63) := by
  have hlt := bucket_lt x
  have hone : (1 : Int64).toUInt64.toNat = 1 := by decide
  cases op with
  | greater =>
    rw [adjust, order, Int64.toUInt64_sub, UInt64.toNat_add, UInt64.toNat_sub, toNat_toUInt64_bin,
      toNat_shift, moved]
    omega
  | less =>
    rw [adjust, order, Int64.toUInt64_add, UInt64.toNat_add, UInt64.toNat_add, toNat_toUInt64_bin,
      toNat_shift, moved]
    omega
  | «in» | notIn | ni | notNi | equal | notEqual | lessEqual | greaterEqual =>
    simp [adjust, order_bin, moved]

theorem code_eq (x : Int64) : code temporal x = bucket x + 2 ^ 63 := by
  have horder : temporal.order = order := rfl
  have hbin : temporal.bin = bin := rfl
  rw [code, horder, hbin, order_bin]

/-! ## Missing values -/

inductive Kind where
  | time
  | duration
  deriving DecidableEq

/-- A value of such a type, or nil. -/
def Kind.data : Kind → Option Int64 → Data
  | _, none => .none
  | .time, some count => .basic (.time count)
  | .duration, some count => .basic (.duration count)

/-- A value that is not nil compares with an operand. All values differ from nil. -/
def Matches (v : Int64) : Option Int64 → Prop
  | none => op = .notEqual
  | some x =>
    match op with
    | .equal => v = x
    | .notEqual => v ≠ x
    | .less => v < x
    | .lessEqual => v ≤ x
    | .greater => v > x
    | .greaterEqual => v ≥ x
    | _ => False

/-- Stored numbers compare as the values do, up to equality and to multiples of the
product of the base. If the operand has only zero digits, it has no predecessor. -/
def KeptCode (product : Nat) (op : RelationalOperator) (stored operand : Nat) : Prop :=
  match op with
  | .notEqual => stored % product ≠ operand % product
  | .less | .lessEqual => stored % product ≤ operand % product
  | .greater | .greaterEqual =>
    0 < operand % product ∧ operand % product ≤ stored % product
  | _ => True

/-- The coder can tell that a value matches an operand. -/
def Kept (base : Base) (op : RelationalOperator) (v : Int64) : Option Int64 → Prop
  | none => True
  | some x => KeptCode base.values.prod op (code temporal v) (code temporal x)

theorem prod_pos {base : List Nat} (htwo : ∀ b ∈ base, 2 ≤ b) : 0 < base.prod := by
  induction base with
  | nil => decide
  | cons b base ih =>
    obtain ⟨hb, hbase⟩ := forall_mem_cons.mp htwo
    exact Nat.mul_pos (by omega) (ih hbase)

variable {op : RelationalOperator} {base : Base}

theorem accepts_iff_keptCode {product : Nat} (hproduct : 0 < product) {stored operand : Nat}
    (hoperand : 0 < operand) (hequal : op = .equal → stored = operand)
    (hop : op = .equal ∨ op = .notEqual ∨ op = .less ∨ op = .lessEqual ∨ op = .greater ∨
      op = .greaterEqual) : accepts product op stored (moved op operand) = true ↔
      KeptCode product op stored operand := by
  have hpred := @MixedRadix.pred_mod_lt_iff product operand stored hproduct hoperand
  rcases hop with rfl | rfl | rfl | rfl | rfl | rfl
  · simp [accepts, moved, KeptCode, hequal rfl]
  · exact decide_eq_true_iff
  · simp [accepts, moved, KeptCode]
  · exact decide_eq_true_iff
  · simp [accepts, moved, KeptCode, hpred]
  · simp [accepts, moved, KeptCode, hpred, ne_of_gt hoperand]

/-- The coder finds a matching value exactly if it is kept. -/
theorem accepts_iff_kept {v x : Int64} (hmatches : Matches op v (some x)) :
    accepts base.values.prod op (code temporal v) (order (adjust op (bin x))) =
      true ↔ Kept base op v (some x) := by
  have hpos : 0 < code temporal x := by
    rw [code_eq]
    exact Nat.add_pos_right _ (Nat.two_pow_pos 63)
  rw [order_adjust, ← code_eq]
  apply accepts_iff_keptCode (prod_pos base.two_le) hpos
  · intro hop
    subst hop
    rw [show v = x from hmatches]
  · cases op with
    | «in» | notIn | ni | notNi => exact hmatches.elim
    | equal | notEqual | less | lessEqual | greater | greaterEqual => simp

theorem view_data (kind : Kind) (v : Int64) : temporal.view (kind.data (some v)) = some v := by
  cases kind <;> rfl

/-- A lookup has the position of a matching value exactly if the value is kept. -/
theorem test_lookup_iff {kind : Kind} {calls : List (Data × Nat)} {v : Int64} {pos : Nat}
    {x : Option Int64} (hmem : (kind.data (some v), pos) ∈ (run temporal base calls).appended)
    (hmatches : Matches op v x) :
    (∃ result, (run temporal base calls).index.lookup (implementation temporal) op
      (kind.data x) = .ok result ∧ result.test pos = true) ↔ Kept base op v x := by
  have hrec : Recorded (run temporal base calls) := recorded_run _ _ calls
  have hne : kind.data (some v) ≠ .none := by cases kind <;> exact nofun
  cases x with
  | none =>
    have hop : op = .notEqual := hmatches
    subst hop
    obtain ⟨result, hlookup, -, htest⟩ :=
      ValueIndex.lookupNil_notEqual (run temporal base calls).index
    have hmask := (hrec.mask_iff pos).mpr ⟨_, hmem, hne⟩
    have hlt : pos < (run temporal base calls).index.offset :=
      lt_of_lt_of_le (lt_length_of_test hmask) (le_max_right _ _)
    refine iff_of_true ⟨result, hlookup, ?_⟩ trivial
    rw [htest pos hlt, hrec.disjoint pos hmask, Bool.not_false]
  | some x =>
    obtain ⟨values, hstores⟩ := exists_stores temporal rfl base calls
    obtain ⟨value, hvalue⟩ : ∃ value, kind.data (some x) = .basic value := by
      cases kind <;> exact ⟨_, rfl⟩
    have hview := view_data kind x
    rw [hvalue] at hview
    rw [hvalue, lookup_basic hview]
    have htest := hstores.test_restrict hrec hmem hne (view_data kind v) op x
    constructor
    · intro ⟨result, hres, hset⟩
      cases hres
      rw [htest] at hset
      exact (accepts_iff_kept hmatches).mp hset
    · intro hkept
      exact ⟨_, rfl, htest.trans ((accepts_iff_kept hmatches).mpr hkept)⟩

/-- A lookup has the positions of all matching values if and only if the coder can tell
that they match. -/
theorem temporal_lookup_complete_iff (kind : Kind) (base : Base)
    (calls : List (Option Int64 × Nat)) (op : RelationalOperator) (x : Option Int64) :
    let history := run temporal base (calls.map fun call => (kind.data call.1, call.2))
    (∀ v pos, (kind.data (some v), pos) ∈ history.appended → Matches op v x →
      ∃ result, history.index.lookup (implementation temporal) op (kind.data x) = .ok result ∧
        result.test pos = true) ↔
    ∀ v pos, (kind.data (some v), pos) ∈ history.appended → Matches op v x →
      Kept base op v x := by
  intro history
  apply forall₂_congr
  intro v pos
  apply forall₂_congr
  intro hmem hmatches
  exact test_lookup_iff hmem hmatches

def defaultBase : Base :=
  Base.uniform 8 22 (by decide) (by decide)

/-- A negative duration is less than zero, but it is not found. -/
theorem negative_duration_is_missed :
    let history := run temporal defaultBase [(Kind.duration.data (some (-1000000000)), 0)]
    history.appended = [(Kind.duration.data (some (-1000000000)), 0)] ∧
      Matches .less (-1000000000) (some 0) ∧
      history.index.lookup (implementation temporal) .less (Kind.duration.data (some 0)) =
        .ok [false] := by
  intro history
  have hless : (-1000000000 : Int64) < 0 := by decide
  have hview : temporal.view (.basic (.duration 0)) = some 0 := rfl
  have hbits : history.index.restrict .less (lookupBitmap temporal history.index.impl .less 0) =
      [false] := by
    decide +kernel
  refine ⟨by decide +kernel, hless, ?_⟩
  rw [← hbits]
  exact lookup_basic hview .less

theorem toInt_eq (x : Int64) :
    x.toInt = if 2 * x.toUInt64.toNat < 2 ^ 64 then (x.toUInt64.toNat : Int)
      else x.toUInt64.toNat - 2 ^ 64 :=
  BitVec.toInt_eq_toNat_cond x.toBitVec

end Temporal

end Vast
