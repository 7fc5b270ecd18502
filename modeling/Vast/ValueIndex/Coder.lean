import Vast.Core.Operator
import Vast.Foundation.Bitmap
import Vast.Foundation.MixedRadix

/-! # Coders

A coder stores a sequence of numbers as bitmaps. The range coder has a bitmap for
every bound, with the positions of the numbers that do not exceed the bound. The
multi-level coder splits numbers into digits and keeps a range coder per digit;
comparisons are evaluated digit by digit, starting with the least significant one.
-/

namespace Vast

open Foundation List MixedRadix Bitmap Nat

/-! ## The range coder -/

/-- A bitmap per bound. Bitmaps are filled up with set bits when they are needed. -/
structure RangeCoder where
  size : Nat
  bitmaps : List Bitmap

namespace RangeCoder

def empty (n : Nat) : RangeCoder where
  size := 0
  bitmaps := List.replicate n []

variable (coder : RangeCoder)

/-- The bitmap of a bound. The program fills it up in place, which is not visible
otherwise. -/
def bitmapAt (index : Nat) : Bitmap :=
  let bitmap := coder.bitmaps.getD index []
  bitmap ++ List.replicate (coder.size - bitmap.length) true

/-- Append a number several times. Only the bounds below it get unset bits. -/
def encode (x n : Nat) : RangeCoder where
  size := coder.size + n
  bitmaps := coder.bitmaps.mapIdx fun index bitmap =>
    if index < x then coder.bitmapAt index ++ List.replicate n false else bitmap

def skip (n : Nat) : RangeCoder :=
  { coder with size := coder.size + n }

structure Encodes (values : List Nat) : Prop where
  size_eq : coder.size = values.length
  bitmapAt_eq : ∀ index < coder.bitmaps.length,
    coder.bitmapAt index = values.map fun value => decide (value ≤ index)

theorem encodes_empty (n : Nat) : Encodes (empty n) [] where
  size_eq := rfl
  bitmapAt_eq := by
    intro index hindex
    simp only [empty, length_replicate] at hindex
    simp [bitmapAt, empty, getD_eq_getElem?_getD, hindex]

variable {coder : RangeCoder} {values : List Nat}

theorem Encodes.length_le (henc : Encodes coder values) {index : Nat}
    (hindex : index < coder.bitmaps.length) :
    (coder.bitmaps.getD index []).length ≤ coder.size := by
  have hlen := congrArg length (henc.bitmapAt_eq index hindex)
  simp only [bitmapAt, length_append, length_map, ← henc.size_eq] at hlen
  omega

/-- Numbers that are at most the number of bounds can be appended. -/
theorem Encodes.encode (henc : Encodes coder values) (x n : Nat) :
    Encodes (coder.encode x n) (values ++ replicate n x) := by
  constructor
  · simp [RangeCoder.encode, henc.size_eq]
  · intro index hindex
    have hbound : index < coder.bitmaps.length := by
      simpa [RangeCoder.encode] using hindex
    have hle := henc.length_le hbound
    have hold := henc.bitmapAt_eq index hbound
    have hlen : (coder.bitmapAt index).length = coder.size := by
      rw [hold, length_map, henc.size_eq]
    have hget : (coder.encode x n).bitmaps.getD index [] =
        if index < x then coder.bitmapAt index ++ replicate n false
        else coder.bitmaps.getD index [] := by
      simp [RangeCoder.encode, hbound]
    rw [bitmapAt, hget, map_append, ← hold, map_replicate]
    split
    next hlt =>
      have hx : decide (x ≤ index) = false := by simpa using hlt
      simp [RangeCoder.encode, hlen, hx]
    next hge =>
      have hx : decide (x ≤ index) = true := by simpa using hge
      have hfill : coder.size + n - (coder.bitmaps.getD index []).length =
          (coder.size - (coder.bitmaps.getD index []).length) + n := by omega
      rw [bitmapAt, hx]
      simp only [RangeCoder.encode]
      rw [hfill, replicate_add, append_assoc]

/-- Skipped positions look like zeros. -/
theorem Encodes.skip (henc : Encodes coder values) (n : Nat) :
    Encodes (coder.skip n) (values ++ replicate n 0) := by
  have hskip : coder.skip n = coder.encode 0 n := by
    simp only [RangeCoder.skip, RangeCoder.encode, not_lt_zero, if_false]
    rw [mapIdx_eq_iff.mpr fun _ => Option.map_id'.symm]
  rw [hskip]
  exact henc.encode 0 n

end RangeCoder

/-! ## The multi-level coder -/

structure Base where
  values : List Nat
  values_ne : values ≠ []
  two_le : ∀ b ∈ values, 2 ≤ b

def Base.uniform (b n : Nat) (hb : 2 ≤ b) (hn : n ≠ 0) : Base where
  values := List.replicate n b
  values_ne := by simpa using hn
  two_le := by
    intro value hvalue
    rw [List.eq_of_mem_replicate hvalue]
    exact hb

namespace Base

/-- The loop over the components, in the arithmetic of 64-bit numbers. -/
def composeLoop : Nat → Nat → List Nat → List Nat → Nat
  | result, m, b :: values, digit :: digits =>
    composeLoop ((result + digit * m) % 2 ^ 64) (m * b % 2 ^ 64) values digits
  | result, _, _, _ => result

def compose (values digits : List Nat) : Nat :=
  composeLoop 0 1 values digits

theorem composeLoop_eq (values digits : List Nat) (result m : Nat) :
    composeLoop (result % 2 ^ 64) (m % 2 ^ 64) values digits =
      (result + weigh m values digits) % 2 ^ 64 := by
  induction values generalizing digits result m with
  | nil => simp [composeLoop, weigh]
  | cons b values ih =>
    cases digits with
    | nil => simp [composeLoop, weigh]
    | cons digit digits =>
      have hresult : (result % 2 ^ 64 + digit * (m % 2 ^ 64)) % 2 ^ 64 =
          (result + digit * m) % 2 ^ 64 := by
        rw [add_mod, mod_mod, mul_mod_mod, ← add_mod]
      rw [composeLoop, hresult, mod_mul_mod, ih, weigh, add_assoc]

/-- The product of the components may exceed 64 bits: the weights that overflow belong to
digits that are zero. -/
theorem compose_decompose {values : List Nat} (htwo : ∀ b ∈ values, 2 ≤ b) {x : Nat}
    (hword : x < 2 ^ 64) (hx : x < values.prod) :
    Forall₂ (· < ·) (decompose values x) values ∧ compose values (decompose values x) = x ∧
      ∀ y < values.prod, x < y → (decompose values x).reverse < (decompose values y).reverse := by
  have hpos : ∀ b ∈ values, 0 < b := fun b hb => Nat.lt_of_lt_of_le Nat.two_pos (htwo b hb)
  refine ⟨forall₂_decompose hpos x, ?_, ?_⟩
  · have hloop := composeLoop_eq values (decompose values x) 0 1
    rw [weigh_decompose, mod_eq_of_lt hx, zero_add, one_mul,
      mod_eq_of_lt hword] at hloop
    exact hloop
  · intro y hy hlt
    apply reverse_decompose_lt hpos
    rwa [mod_eq_of_lt hx, mod_eq_of_lt hy]

/-- The digits of 42 for the base (7, 10). -/
theorem compose_decompose_pair : decompose [7, 10] 42 = [0, 6] ∧ compose [7, 10] [0, 6] = 42 :=
  ⟨rfl, (@compose_decompose [7, 10] (by decide) 42 (by decide) (by decide)).2.1⟩

end Base

/-- A range coder per component of the base. The digits of the last number are kept,
and the coders are made together with the space for them. -/
structure MultiLevelCoder where
  base : List Nat
  xs : List Nat
  coders : List RangeCoder

namespace MultiLevelCoder

/-- The last bitmap of a component would have all bits set and is left out. -/
def init (coder : MultiLevelCoder) : MultiLevelCoder :=
  { coder with
    xs := List.replicate coder.base.length 0
    coders := coder.base.map fun b => RangeCoder.empty (b - 1) }

def ofBase (base : Base) : MultiLevelCoder :=
  init { base := base.values, xs := [], coders := [] }

def size (coder : MultiLevelCoder) : Nat :=
  match coder.coders with
  | [] => 0
  | first :: _ => first.size

def encode (coder : MultiLevelCoder) (x n : Nat) : MultiLevelCoder :=
  let coder := if coder.xs.isEmpty then coder.init else coder
  let digits := MixedRadix.decompose coder.base x
  { coder with
    xs := digits
    coders := List.zipWith (fun coder digit => coder.encode digit n) coder.coders digits }

def skip (coder : MultiLevelCoder) (n : Nat) : MultiLevelCoder :=
  { coder with coders := coder.coders.map fun coder => coder.skip n }

/-- One round of the loop for the ordering operators. The result says so far which
numbers have lower digits that do not exceed those of the operand. -/
def compareDigit (result : Bitmap) (b : Nat) (coder : RangeCoder) (digit : Nat) : Bitmap :=
  let result := if digit ≠ b - 1 then Bitmap.and result (coder.bitmapAt digit) else result
  if digit ≠ 0 then Bitmap.or result (coder.bitmapAt (digit - 1)) else result

def compareLoop (result : Bitmap) : List Nat → List RangeCoder → List Nat → Bitmap
  | b :: base, coder :: coders, digit :: digits =>
    compareLoop (compareDigit result b coder digit) base coders digits
  | _, _, _ => result

/-- The numbers that have a digit. The last bitmap is not there and the first one has
no predecessor. -/
def equalDigit (b : Nat) (coder : RangeCoder) (digit : Nat) : Bitmap :=
  if digit = 0 then coder.bitmapAt 0
  else if digit = b - 1 then Bitmap.flip (coder.bitmapAt (b - 2))
  else Bitmap.xor (coder.bitmapAt digit) (coder.bitmapAt (digit - 1))

def equalLoop (result : Bitmap) : List Nat → List RangeCoder → List Nat → Bitmap
  | b :: base, coder :: coders, digit :: digits =>
    equalLoop (Bitmap.and result (equalDigit b coder digit)) base coders digits
  | _, _, _ => result

/-- The numbers that do not exceed the operand. The first component starts the
result. -/
def decodeLessEqual (coder : MultiLevelCoder) (x : Nat) : Bitmap :=
  let result := List.replicate coder.size true
  match coder.base, coder.coders, MixedRadix.decompose coder.base x with
  | b :: base, first :: coders, digit :: digits =>
    compareLoop (if digit < b - 1 then first.bitmapAt digit else result) base coders digits
  | _, _, _ => result

def decodeEqual (coder : MultiLevelCoder) (x : Nat) : Bitmap :=
  equalLoop (List.replicate coder.size true) coder.base coder.coders
    (MixedRadix.decompose coder.base x)

def decode (coder : MultiLevelCoder) (op : RelationalOperator) (x : Nat) : Bitmap :=
  if coder.coders.isEmpty then []
  else
    match op with
    | .less =>
      if x = 0 then List.replicate coder.size false else coder.decodeLessEqual (x - 1)
    | .lessEqual => coder.decodeLessEqual x
    | .greater => Bitmap.flip (coder.decodeLessEqual x)
    | .greaterEqual =>
      if x = 0 then List.replicate coder.size true
      else Bitmap.flip (coder.decodeLessEqual (x - 1))
    | .equal => coder.decodeEqual x
    | .notEqual => Bitmap.flip (coder.decodeEqual x)
    | _ => List.replicate coder.size false

/-! ## What is encoded -/

/-- The coders hold the digits of a sequence of numbers. -/
def EncodesDigits : List Nat → List RangeCoder → List Nat → Prop
  | [], [], _ => True
  | b :: base, coder :: coders, values =>
    coder.bitmaps.length = b - 1 ∧ coder.Encodes (values.map (· % b)) ∧
      EncodesDigits base coders (values.map (· / b))
  | _, _, _ => False

/-- A coder with a base that has digits holds a sequence of numbers. -/
structure Encodes (coder : MultiLevelCoder) (values : List Nat) : Prop where
  base_ne : coder.base ≠ []
  two_le : ∀ b ∈ coder.base, 2 ≤ b
  xs_ne : coder.xs ≠ []
  digits : EncodesDigits coder.base coder.coders values

theorem encodesDigits_empty (base : List Nat) :
    EncodesDigits base (base.map fun b => RangeCoder.empty (b - 1)) [] := by
  induction base with
  | nil => trivial
  | cons b base ih =>
    exact ⟨by simp [RangeCoder.empty], RangeCoder.encodes_empty (b - 1), ih⟩

variable {base values : List Nat} {coders : List RangeCoder}

theorem encodesDigits_encode (hdigits : EncodesDigits base coders values) (x n : Nat) :
    EncodesDigits base (zipWith (fun coder digit => coder.encode digit n) coders
      (decompose base x)) (values ++ replicate n x) := by
  fun_induction EncodesDigits base coders values generalizing x with
  | case1 => trivial
  | case2 b base coder coders values ih =>
    obtain ⟨hlen, hcoder, hrest⟩ := hdigits
    refine ⟨by simpa [RangeCoder.encode] using hlen, ?_, ?_⟩
    · rw [map_append, map_replicate]
      exact hcoder.encode (x % b) n
    · rw [map_append, map_replicate]
      exact ih hrest (x / b)
  | case3 => exact hdigits.elim

theorem encodesDigits_skip (hdigits : EncodesDigits base coders values) (n : Nat) :
    EncodesDigits base (coders.map fun coder => coder.skip n) (values ++ replicate n 0) := by
  fun_induction EncodesDigits base coders values with
  | case1 => trivial
  | case2 b base coder coders values ih =>
    obtain ⟨hlen, hcoder, hrest⟩ := hdigits
    refine ⟨hlen, ?_, ?_⟩
    · rw [map_append, map_replicate]
      exact hcoder.skip n
    · rw [map_append, map_replicate, Nat.zero_div]
      exact ih hrest
  | case3 => exact hdigits.elim

section Encodes

variable {coder : MultiLevelCoder} {values : List Nat}

theorem encodes_ofBase (base : Base) : Encodes (ofBase base) [] where
  base_ne := base.values_ne
  two_le := base.two_le
  xs_ne := by simpa [ofBase, init] using base.values_ne
  digits := encodesDigits_empty base.values

variable (henc : Encodes coder values)

include henc

theorem Encodes.encode (x n : Nat) : Encodes (coder.encode x n) (values ++ replicate n x) := by
  have hxs : coder.xs.isEmpty = false := by simpa using henc.xs_ne
  rw [MultiLevelCoder.encode, hxs]
  refine ⟨henc.base_ne, henc.two_le, ?_, encodesDigits_encode henc.digits x n⟩
  apply ne_nil_of_length_pos
  rw [length_decompose]
  exact length_pos_of_ne_nil henc.base_ne

theorem Encodes.skip (n : Nat) : Encodes (coder.skip n) (values ++ replicate n 0) :=
  ⟨henc.base_ne, henc.two_le, henc.xs_ne, encodesDigits_skip henc.digits n⟩

theorem Encodes.exists_cons :
    ∃ b base first coders, coder.base = b :: base ∧ coder.coders = first :: coders ∧ 2 ≤ b ∧
      (∀ b ∈ base, 2 ≤ b) ∧ first.bitmaps.length = b - 1 ∧
      first.Encodes (values.map (· % b)) ∧ EncodesDigits base coders (values.map (· / b)) := by
  obtain ⟨hne, htwo, -, hdigits⟩ := henc
  obtain ⟨base, xs, coders⟩ := coder
  cases base with
  | nil => exact absurd rfl hne
  | cons b base =>
    cases coders with
    | nil => exact hdigits.elim
    | cons first coders =>
      obtain ⟨hb, hbase⟩ := forall_mem_cons.mp htwo
      exact ⟨b, base, first, coders, rfl, rfl, hb, hbase, hdigits⟩

theorem Encodes.size_eq : coder.size = values.length := by
  obtain ⟨b, base, first, coders, -, hcoders, -, -, -, hfirst, -⟩ := henc.exists_cons
  simp only [size, hcoders]
  rw [hfirst.size_eq, length_map]

end Encodes

/-! ## Decoding -/

section Decode

variable {α : Type*} {items : List α} {value : α → Nat} {b digit : Nat} {base : List Nat}
  {coders : List RangeCoder}

section

variable {coder : RangeCoder} (hlen : coder.bitmaps.length = b - 1)
  (henc : coder.Encodes ((items.map value).map (· % b)))

include hlen henc

theorem bitmapAt_digit (hdigit : digit < b - 1) :
    coder.bitmapAt digit = items.map fun item => decide (value item % b ≤ digit) := by
  rw [henc.bitmapAt_eq digit (by rwa [hlen]), map_map, map_map]
  rfl

theorem equalDigit_eq (hb : 2 ≤ b) (hdigit : digit < b) :
    equalDigit b coder digit = items.map fun item => decide (value item % b = digit) := by
  rw [equalDigit]
  split
  next hzero =>
    rw [bitmapAt_digit hlen henc (by omega), hzero]
    simp
  next hzero =>
    split
    next hlast =>
      rw [bitmapAt_digit hlen henc (by omega), flip_map]
      apply map_congr_left
      intro item _
      have hlt := mod_lt (value item) (show 0 < b by omega)
      rw [← decide_not, decide_eq_decide]
      omega
    next hlast =>
      rw [bitmapAt_digit hlen henc (by omega),
        bitmapAt_digit hlen henc (by omega), combines_xor.map]
      apply map_congr_left
      intro item _
      rw [Bool.eq_iff_iff]
      simp only [bne_iff_ne, ne_eq, decide_eq_decide, decide_eq_true_eq]
      omega

theorem compareDigit_eq (hdigit : digit < b) (lower : α → Bool) :
    compareDigit (items.map lower) b coder digit =
      items.map fun item => decide (value item % b < digit) ||
        (decide (value item % b = digit) && lower item) := by
  have hand : (if digit ≠ b - 1 then and (items.map lower) (coder.bitmapAt digit)
      else items.map lower) =
      items.map fun item => lower item && decide (value item % b ≤ digit) := by
    split
    next hne => rw [bitmapAt_digit hlen henc (by omega), combines_and.map]
    next heq =>
      apply map_congr_left
      intro item _
      have hlt := mod_lt (value item) (show 0 < b by omega)
      rw [decide_eq_true (by omega), Bool.and_true]
  rw [compareDigit]
  simp only [hand]
  split
  next hne =>
    rw [bitmapAt_digit hlen henc (by omega), combines_or.map]
    apply map_congr_left
    intro item _
    rw [Bool.eq_iff_iff]
    simp only [Bool.or_eq_true, Bool.and_eq_true, decide_eq_true_eq]
    cases lower item with
    | false =>
      simp only [Bool.false_eq_true, false_and, and_false, or_false, false_or]
      omega
    | true =>
      simp only [true_and, and_true]
      omega
  next heq =>
    have hzero : digit = 0 := by simpa using heq
    simp [hzero, Bool.and_comm]

end

/-- The loops compare all digits above the ones that were already compared. -/
theorem loops_eq (htwo : ∀ b ∈ base, 2 ≤ b)
    (hdigits : EncodesDigits base coders (items.map value)) (lower : α → Bool) (x : Nat) :
    compareLoop (items.map lower) base coders (decompose base x) =
        items.map (fun item => decide (value item % base.prod < x % base.prod) ||
          (decide (value item % base.prod = x % base.prod) && lower item)) ∧
      equalLoop (items.map lower) base coders (decompose base x) =
        items.map fun item => lower item && decide (value item % base.prod = x % base.prod) := by
  generalize hvalues : items.map value = values at hdigits
  fun_induction EncodesDigits base coders values generalizing value lower x with
  | case1 => simp [compareLoop, equalLoop, mod_one]
  | case3 => exact hdigits.elim
  | case2 b base coder coders values ih =>
    subst hvalues
    obtain ⟨hlen, hcoder, hrest⟩ := hdigits
    obtain ⟨hb, hbase⟩ := forall_mem_cons.mp htwo
    have hpos : 0 < b := by omega
    have hdigit := mod_lt x hpos
    rw [decompose, compareLoop, compareDigit_eq hlen hcoder hdigit, equalLoop,
      equalDigit_eq hlen hcoder hb hdigit, combines_and.map, (ih hbase _ _ map_map.symm hrest).1,
      (ih hbase _ _ map_map.symm hrest).2]
    constructor <;> apply map_congr_left <;> intro item _ <;> rw [Bool.eq_iff_iff]
    · simp only [Bool.or_eq_true, Bool.and_eq_true, decide_eq_true_eq]
      rw [mod_prod_lt_iff hpos, mod_prod_eq_iff hpos]
      tauto
    · simp only [Bool.and_eq_true, decide_eq_true_eq]
      rw [mod_prod_eq_iff hpos]
      tauto

end Decode

section Encodes

variable {coder : MultiLevelCoder} {values : List Nat}

theorem Encodes.decodeLessEqual_eq (henc : Encodes coder values) (x : Nat) :
    coder.decodeLessEqual x =
      values.map fun value => decide (value % coder.base.prod ≤ x % coder.base.prod) := by
  obtain ⟨b, base, first, coders, hbase, hcoders, hb, htwo, hlen, hfirst, hrest⟩ :=
    henc.exists_cons
  have hpos : 0 < b := by omega
  have hstart : (if x % b < b - 1 then first.bitmapAt (x % b) else replicate coder.size true) =
      values.map fun value => decide (value % b ≤ x % b) := by
    split
    next hlt => rw [hfirst.bitmapAt_eq _ (by rwa [hlen]), map_map]; rfl
    next hge =>
      rw [henc.size_eq, ← map_const']
      apply map_congr_left
      intro value _
      have hlt := mod_lt value hpos
      rw [eq_comm, decide_eq_true_eq]
      omega
  simp only [decodeLessEqual, hbase, hcoders, decompose]
  rw [hstart, (loops_eq htwo hrest _ _).1]
  apply map_congr_left
  intro value _
  rw [Bool.eq_iff_iff]
  simp only [Bool.or_eq_true, Bool.and_eq_true, decide_eq_true_eq]
  simp only [le_iff_lt_or_eq]
  rw [mod_prod_lt_iff hpos, mod_prod_eq_iff hpos]
  tauto

theorem Encodes.decodeEqual_eq (henc : Encodes coder values) (x : Nat) : coder.decodeEqual x =
      values.map fun value => decide (value % coder.base.prod = x % coder.base.prod) := by
  have hdigits : EncodesDigits coder.base coder.coders (values.map id) := by
    rw [map_id]
    exact henc.digits
  rw [decodeEqual, henc.size_eq, ← map_const', (loops_eq henc.two_le hdigits _ _).2]
  simp

/-- Whether a stored number is in the result for an operand. Numbers count up to a
multiple of the product of the base. -/
def accepts (product : Nat) (op : RelationalOperator) (value x : Nat) : Bool :=
  match op with
  | .less => decide (x ≠ 0 ∧ value % product ≤ (x - 1) % product)
  | .lessEqual => decide (value % product ≤ x % product)
  | .greater => decide (x % product < value % product)
  | .greaterEqual => decide (x = 0 ∨ (x - 1) % product < value % product)
  | .equal => decide (value % product = x % product)
  | .notEqual => decide (value % product ≠ x % product)
  | _ => false

theorem Encodes.decode_eq (henc : Encodes coder values) (op : RelationalOperator) (x : Nat) :
    coder.decode op x = values.map fun value => accepts coder.base.prod op value x := by
  have hcoders : coder.coders.isEmpty = false := by
    obtain ⟨b, base, first, coders, -, hcoders, -⟩ := henc.exists_cons
    rw [hcoders, isEmpty_cons]
  cases op with
  | less =>
    by_cases hx : x = 0
    · simp [decode, hcoders, hx, accepts, henc.size_eq]
    · simp [decode, hcoders, hx, accepts, henc.decodeLessEqual_eq]
  | greaterEqual =>
    by_cases hx : x = 0
    · simp [decode, hcoders, hx, accepts, henc.size_eq]
    · simp [decode, hcoders, hx, accepts, henc.decodeLessEqual_eq, flip_map]
      intro value _
      rw [← decide_not, decide_eq_decide, not_lt]
  | lessEqual => simp [decode, hcoders, accepts, henc.decodeLessEqual_eq]
  | greater =>
    simp [decode, hcoders, accepts, henc.decodeLessEqual_eq, flip_map]
    intro value _
    rw [← decide_not, decide_eq_decide, not_lt]
  | equal => simp [decode, hcoders, accepts, henc.decodeEqual_eq]
  | notEqual =>
    simp [decode, hcoders, accepts, henc.decodeEqual_eq, flip_map]
  | «in» | notIn | ni | notNi => simp [decode, hcoders, accepts, henc.size_eq]

end Encodes

end MultiLevelCoder

end Vast
