import Mathlib.Data.Nat.Bitwise
import Vast.ValueIndex.CoderCalls

/-! # The bitslice coder

A bitslice coder has a bitmap for each bit of its numbers, with the positions where the
bit is zero. Appending fills all bitmaps up, but skipping does not touch them, and
decoding takes them as they are. A comparison that starts with the first bitmap
therefore ends with the last appended number.
-/

namespace Vast

open Foundation List Bitmap CoderCalls Nat

/-- A number of bitmaps that are filled up with unset bits when they are needed. -/
structure VectorCoder where
  size : Nat
  bitmaps : List Bitmap

namespace VectorCoder

def empty (n : Nat) : VectorCoder where
  size := 0
  bitmaps := List.replicate n []

def skip (coder : VectorCoder) (n : Nat) : VectorCoder :=
  { coder with size := coder.size + n }

end VectorCoder

namespace BitsliceCoder

variable (coder : VectorCoder)

/-- Append a number several times. Every bitmap is filled up first. -/
def encode (x n : Nat) : VectorCoder where
  size := coder.size + n
  bitmaps := coder.bitmaps.mapIdx fun index bitmap =>
    bitmap.fill false coder.size ++ List.replicate n (!x.testBit index)

/-- A loop over the bitmaps from an index on, with the bits of the operand. -/
def loop (step : Bool → Bitmap → Bitmap → Bitmap) (x : Nat) : Nat → Bitmap → List Bitmap → Bitmap
  | _, result, [] => result
  | index, result, bitmap :: bitmaps =>
    loop step x (index + 1) (step (x.testBit index) result bitmap) bitmaps

def orderStep (bit : Bool) (result bitmap : Bitmap) : Bitmap :=
  if bit then Bitmap.or result bitmap else Bitmap.and result bitmap

def equalStep (bit : Bool) (result bitmap : Bitmap) : Bitmap :=
  Bitmap.and result (if bit then bitmap.flip else bitmap)

/-- A round for containment, which collects the positions that lack a bit of the operand.
The program complements the operand and asks for its zeros. -/
def missingStep (bit : Bool) (result bitmap : Bitmap) : Bitmap :=
  if bit then Bitmap.or result bitmap else result

/-- The numbers that do not exceed the operand. An odd operand does not need the first
bitmap. -/
def decodeLessEqual (x : Nat) : Option Bitmap :=
  if x.testBit 0 then
    some (loop orderStep x 1 (List.replicate coder.size true) (coder.bitmaps.drop 1))
  else
    coder.bitmaps.head?.map fun first => loop orderStep x 1 first (coder.bitmaps.drop 1)

def decodeEqual (x : Nat) : Bitmap :=
  loop equalStep x 0 (List.replicate coder.size true) coder.bitmaps

def decodeMissing (x : Nat) : Bitmap :=
  loop missingStep x 0 (List.replicate coder.size false) coder.bitmaps

/-- The numbers that compare with the operand. There is no result if the first bitmap is
accessed and does not exist. -/
def decode (op : RelationalOperator) (x : Nat) : Option Bitmap :=
  match op with
  | .less =>
    if x = 0 then some (List.replicate coder.size false) else decodeLessEqual coder (x - 1)
  | .lessEqual => decodeLessEqual coder x
  | .greater => (decodeLessEqual coder x).map Bitmap.flip
  | .greaterEqual =>
    if x = 0 then some (List.replicate coder.size true)
    else (decodeLessEqual coder (x - 1)).map Bitmap.flip
  | .equal => some (decodeEqual coder x)
  | .notEqual => some (decodeEqual coder x).flip
  | .in =>
    if x = 0 then some (List.replicate coder.size false)
    else some (decodeMissing coder x).flip
  | .notIn =>
    if x = 0 then some (List.replicate coder.size false) else some (decodeMissing coder x)
  | .ni | .notNi => some (List.replicate coder.size false)

def call : CoderCall → VectorCoder
  | .encode x n => encode coder x n
  | .skip n => coder.skip n

/-- A coder with `n` bitmaps after a sequence of calls. -/
def run (n : Nat) (calls : List CoderCall) : VectorCoder :=
  calls.foldl call (VectorCoder.empty n)

/-! ## What is encoded -/

/-- The number of positions that were skipped since the last number was appended. -/
def trailing (calls : List CoderCall) : Nat :=
  calls.foldl (fun count call => match call with | .encode _ _ => 0 | .skip n => count + n) 0

def slice (stored : List (Option Nat)) (index : Nat) : Bitmap :=
  stored.map fun
    | some value => !value.testBit index
    | none => false

/-- The bitmaps hold the positions up to the last appended number. -/
structure Encodes (n : Nat) (coder : VectorCoder) (stored : List (Option Nat)) (skipped : Nat) :
    Prop where
  size_eq : coder.size = stored.length + skipped
  bitmaps_eq : coder.bitmaps = (List.range' 0 n).map (slice stored)

section Encodes

variable {n : Nat} {coder : VectorCoder} {stored : List (Option Nat)} {skipped : Nat}

theorem Encodes.encode (henc : Encodes n coder stored skipped) (x count : Nat) :
    Encodes n (encode coder x count)
      (stored ++ replicate skipped none ++ replicate count (some x)) 0 := by
  constructor
  · simp [BitsliceCoder.encode, henc.size_eq, add_assoc]
  · apply ext_getElem
    · simp [BitsliceCoder.encode, henc.bitmaps_eq]
    · simp [BitsliceCoder.encode, henc.bitmaps_eq, henc.size_eq, fill, slice]

theorem Encodes.skip (henc : Encodes n coder stored skipped) (count : Nat) :
    Encodes n (coder.skip count) stored (skipped + count) :=
  ⟨(congrArg (· + count) henc.size_eq).trans (add_assoc _ _ _), henc.bitmaps_eq⟩

theorem exists_encodes_run (n : Nat) (calls : List CoderCall) :
    ∃ stored, Encodes n (run n calls) stored (trailing calls) ∧
      entries calls = stored ++ replicate (trailing calls) none := by
  induction calls using reverseRecOn with
  | nil =>
    refine ⟨[], ⟨rfl, ?_⟩, rfl⟩
    have hslice : slice [] = fun _ => [] := rfl
    simp [run, VectorCoder.empty, hslice]
  | append_singleton calls last ih =>
    obtain ⟨stored, henc, hents⟩ := ih
    rw [run, trailing, foldl_append, foldl_append]
    cases last with
    | encode x count =>
      rw [entries_encode, hents]
      exact ⟨_, henc.encode x count, (append_nil _).symm⟩
    | skip count =>
      rw [entries_skip, hents]
      refine ⟨stored, henc.skip count, ?_⟩
      rw [append_assoc, replicate_append_replicate]
      rfl

end Encodes

/-! ## The loops -/

section Loops

variable {stored : List (Option Nat)} {i v : Nat} {step : Bool → Bitmap → Bitmap → Bitmap} {x : Nat}
  {result : Bitmap}

/-- What every round keeps, the whole loop keeps. -/
theorem loop_rule (inv : Nat → Bitmap → Prop) (hstep : ∀ index result, inv index result →
      inv (index + 1) (step (x.testBit index) result (slice stored index)))
    (index count : Nat) (hinv : inv index result) : inv (index + count)
      (loop step x index result ((range' index count).map (slice stored))) := by
  induction count generalizing index result with
  | zero => exact hinv
  | succ count ih =>
    rw [range'_succ, add_comm count 1, ← add_assoc]
    exact ih (index + 1) (hstep index result hinv)

theorem length_loop (hstep : ∀ bit result index, stored.length ≤ result.length →
      (step bit result (slice stored index)).length = result.length) (index count : Nat)
    (hres : stored.length ≤ result.length) :
    (loop step x index result ((range' index count).map (slice stored))).length =
      result.length := by
  refine loop_rule (fun _ bits => bits.length = result.length) (fun index bits hbits => ?_)
    index count rfl
  rw [hstep _ bits index (by rwa [hbits]), hbits]

theorem mod_two_pow_succ (x index : Nat) :
    x % 2 ^ (index + 1) = x % 2 ^ index + 2 ^ index * (x.testBit index).toNat := by
  rw [mod_pow_succ, testBit_eq_decide_div_mod_eq]
  rcases mod_two_eq_zero_or_one (x / 2 ^ index) with hbit | hbit <;> simp [hbit]

variable (hstored : stored[i]? = some (some v))

include hstored

theorem test_slice (index : Nat) : (slice stored index).test i = !v.testBit index := by
  rw [test, slice, getD_eq_getElem?_getD, getElem?_map, hstored]
  rfl

/-- The result compares the bits below the index, and the next bit decides before them. -/
theorem orderStep_inv (x index : Nat)
    (hinv : result.test i = decide (v % 2 ^ index ≤ x % 2 ^ index)) :
    (orderStep (x.testBit index) result (slice stored index)).test i =
      decide (v % 2 ^ (index + 1) ≤ x % 2 ^ (index + 1)) := by
  rw [mod_two_pow_succ, mod_two_pow_succ, orderStep]
  cases hxbit : x.testBit index <;> cases hvbit : v.testBit index <;>
    simp [test_or, test_and, test_slice hstored, hvbit] <;> omega

theorem equalStep_inv (x index : Nat)
    (hinv : result.test i = decide (v % 2 ^ index = x % 2 ^ index)) :
    (equalStep (x.testBit index) result (slice stored index)).test i =
      decide (v % 2 ^ (index + 1) = x % 2 ^ (index + 1)) := by
  have hlt : i < (slice stored index).length := by
    rw [slice, length_map]
    exact (List.getElem?_eq_some_iff.mp hstored).1
  rw [mod_two_pow_succ, mod_two_pow_succ, equalStep]
  cases hxbit : x.testBit index <;> cases hvbit : v.testBit index <;>
    simp [test_and, test_flip hlt, test_slice hstored, hvbit] <;> omega

/-- The result has the numbers that lack a bit of the operand below the index. -/
theorem missingStep_inv (x index : Nat)
    (hinv : result.test i = true ↔ ∃ k < index, x.testBit k = true ∧ v.testBit k = false) :
    (missingStep (x.testBit index) result (slice stored index)).test i = true ↔
      ∃ k < index + 1, x.testBit k = true ∧ v.testBit k = false := by
  simp only [exists_lt_succ_right, ← hinv, missingStep]
  cases hxbit : x.testBit index <;> simp [test_or, test_slice hstored]

end Loops

/-! ## Decoding -/

section Decode

variable {n : Nat} {coder : VectorCoder} {stored : List (Option Nat)} {skipped : Nat}

def Bits (stored : List (Option Nat)) (bit : Nat → Bool) (result : Bitmap) : Prop :=
  ∀ i v : Nat, stored[i]? = some (some v) → result.test i = bit v

theorem Encodes.test_replicate (henc : Encodes n coder stored skipped) {i v : Nat}
    (hstored : stored[i]? = some (some v)) (bit : Bool) :
    test (List.replicate coder.size bit) i = bit := by
  have hlt := (List.getElem?_eq_some_iff.mp hstored).1
  rw [test, getD_eq_getElem?_getD, getElem?_replicate_of_lt, Option.getD_some]
  rw [henc.size_eq]
  omega

theorem Encodes.length_le (henc : Encodes n coder stored skipped) (bit : Bool) :
    stored.length ≤ (replicate coder.size bit).length := by
  rw [length_replicate, henc.size_eq]
  exact le_add_right _ _

theorem length_slice (stored : List (Option Nat)) (index : Nat) :
    (slice stored index).length = stored.length :=
  length_map _

/-- The comparison is as long as its start, which is complete only for odd operands. -/
theorem Encodes.decodeLessEqual_eq (henc : Encodes (n + 1) coder stored skipped) (x : Nat) :
    ∃ result, decodeLessEqual coder x = some result ∧
      result.length = (if x.testBit 0 then coder.size else stored.length) ∧
      Bits stored (fun v => decide (v % 2 ^ (n + 1) ≤ x % 2 ^ (n + 1))) result := by
  have hloop : ∀ start : Bitmap, stored.length ≤ start.length →
      Bits stored (fun v => decide (v % 2 ^ 1 ≤ x % 2 ^ 1)) start →
      (loop orderStep x 1 start ((range' 1 n).map (slice stored))).length = start.length ∧
      Bits stored (fun v => decide (v % 2 ^ (n + 1) ≤ x % 2 ^ (n + 1)))
        (loop orderStep x 1 start ((range' 1 n).map (slice stored))) := by
    intro start hlen hstart
    constructor
    · apply length_loop _ 1 n hlen
      intro bit result index hres
      rw [orderStep, apply_ite length, length_or, length_and, length_slice,
        ite_self, max_eq_left hres]
    · intro i v hstored
      rw [add_comm n 1]
      exact loop_rule (fun index bits => bits.test i = decide (v % 2 ^ index ≤ x % 2 ^ index))
        (fun index _ hinv => orderStep_inv hstored x index hinv) 1 n (hstart i v hstored)
  have hbitmaps := henc.bitmaps_eq
  rw [range'_succ, map_cons] at hbitmaps
  rw [decodeLessEqual, hbitmaps]
  split
  next hodd =>
    obtain ⟨hlen, hbits⟩ := hloop (replicate coder.size true)
      (henc.length_le true) (fun i v hstored => by
        rw [testBit_zero, decide_eq_true_eq] at hodd
        rw [henc.test_replicate hstored, eq_comm, decide_eq_true_eq]
        omega)
    exact ⟨_, rfl, hlen.trans length_replicate, hbits⟩
  next heven =>
    obtain ⟨hlen, hbits⟩ := hloop (slice stored 0) (le_of_eq (length_slice stored 0).symm)
      (fun i v hstored => by
        rw [testBit_zero, decide_eq_true_eq] at heven
        rw [test_slice hstored, testBit_zero, ← decide_not, decide_eq_decide]
        omega)
    exact ⟨_, rfl, hlen.trans (length_slice stored 0), hbits⟩

theorem Encodes.decodeEqual_eq (henc : Encodes n coder stored skipped) (x : Nat) :
    (decodeEqual coder x).length = coder.size ∧
      Bits stored (fun v => decide (v % 2 ^ n = x % 2 ^ n)) (decodeEqual coder x) := by
  rw [decodeEqual, henc.bitmaps_eq]
  constructor
  · rw [length_loop _ 0 n (henc.length_le true), length_replicate]
    intro bit result index hres
    rw [equalStep, length_and, apply_ite length, length_flip, ite_self,
      length_slice, max_eq_left hres]
  · intro i v hstored
    have hstart : test (replicate coder.size true) i =
        decide (v % 2 ^ 0 = x % 2 ^ 0) := by
      rw [henc.test_replicate hstored]
      simp [mod_one]
    have hloop := loop_rule (fun index bits => bits.test i = decide (v % 2 ^ index = x % 2 ^ index))
      (fun index _ hinv => equalStep_inv hstored x index hinv) 0 n hstart
    rwa [zero_add] at hloop

theorem Encodes.decodeMissing_eq (henc : Encodes n coder stored skipped) {x : Nat}
    (hx : x < 2 ^ n) : (decodeMissing coder x).length = coder.size ∧
      Bits stored (fun v => !decide (v &&& x = x)) (decodeMissing coder x) := by
  rw [decodeMissing, henc.bitmaps_eq]
  constructor
  · rw [length_loop _ 0 n (henc.length_le false), length_replicate]
    intro bit result index hres
    rw [missingStep, apply_ite length, length_or, length_slice, max_eq_left hres, ite_self]
  · intro i v hstored
    have hstart : test (replicate coder.size false) i = true ↔
        ∃ k < 0, x.testBit k = true ∧ v.testBit k = false := by
      simp [henc.test_replicate hstored]
    have hloop := loop_rule (fun index bits => bits.test i = true ↔
        ∃ k < index, x.testBit k = true ∧ v.testBit k = false)
      (fun index _ hinv => missingStep_inv hstored x index hinv) 0 n hstart
    rw [zero_add] at hloop
    rw [Bool.eq_iff_iff, hloop, Bool.not_eq_true', decide_eq_false_iff_not]
    constructor
    · rintro ⟨k, -, hxk, hvk⟩ heq
      have hbit := congrArg (testBit · k) heq
      simp [hxk, hvk] at hbit
    · intro hne
      by_contra hnone
      refine hne (eq_of_testBit_eq fun k => ?_)
      rcases lt_or_ge k n with hlt | hge
      · cases hxk : x.testBit k <;> cases hvk : v.testBit k <;> simp [hxk, hvk]
        exact hnone ⟨k, hlt, hxk, hvk⟩
      · rw [testBit_and, testBit_lt_two_pow
          (Nat.lt_of_lt_of_le hx (Nat.pow_le_pow_right Nat.two_pos hge)), Bool.and_false]

end Decode

/-! ## Exactness -/

/-- The start of a comparison is complete. The first bitmap has to be there and filled up
unless the operand is odd. -/
def StartsComplete (n : Nat) (calls : List CoderCall) (x : Nat) : Prop :=
  x % 2 = 1 ∨ n ≠ 0 ∧ trailing calls = 0

/-- Decoding returns a bit for each position. For `<` and `>=` the operand is decremented,
and equality does not start with a bitmap. -/
def Complete (n : Nat) (calls : List CoderCall) (op : RelationalOperator) (x : Nat) : Prop :=
  match op with
  | .less | .greaterEqual => x = 0 ∨ StartsComplete n calls (x - 1)
  | .lessEqual | .greater => StartsComplete n calls x
  | _ => True

/-- A result with a bit for each position, which is right for appended numbers. -/
def Decodes (calls : List CoderCall) (bit : Nat → Bool) (result : Option Bitmap) : Prop :=
  ∃ bits, result = some bits ∧ bits.length = (CoderCalls.entries calls).length ∧
    CoderCalls.Exact calls bit bits

section Exact

variable {n : Nat} {calls : List CoderCall} {bit : Nat → Bool} {bits : Bitmap} {x : Nat}

theorem decodes_of_test (hlen : bits.length = (entries calls).length)
    (hbits : Bits (entries calls) bit bits) : Decodes calls bit (some bits) := by
  refine ⟨bits, rfl, hlen, fun i v hentry => ?_⟩
  have hlt : i < bits.length := by
    rw [hlen]
    exact (List.getElem?_eq_some_iff.mp hentry).1
  rw [← hbits i v hentry, test, getD_eq_getElem?_getD, getElem?_eq_getElem hlt, Option.getD_some]

theorem decodes_flip_iff {result : Option Bitmap} :
    Decodes calls bit (result.map Bitmap.flip) ↔ Decodes calls (fun v => !bit v) result := by
  cases result with
  | none => simp [Decodes]
  | some bits =>
    simp [Decodes, CoderCalls.Exact, Bitmap.flip]

theorem Bits.of_stored {stored : List (Option Nat)} {skipped : Nat}
    (hbits : Bits stored bit bits) : Bits (stored ++ replicate skipped none) bit bits := by
  intro i v hentry
  apply hbits
  grind

theorem decodeLessEqual_iff (hbelow : CoderCalls.Below (2 ^ n) calls) (hx : x < 2 ^ n) :
    Decodes calls (fun v => decide (v ≤ x)) (decodeLessEqual (run n calls) x) ↔
      StartsComplete n calls x := by
  obtain ⟨stored, henc, hents⟩ := exists_encodes_run n calls
  have hsize : (entries calls).length = stored.length + trailing calls := by
    rw [hents, length_append, length_replicate]
  cases n with
  | zero =>
    -- Without bitmaps the only operand is zero, which starts with the first one.
    have hzero : x = 0 := by simpa using hx
    have hnone : decodeLessEqual (run 0 calls) x = none := by
      simp [decodeLessEqual, henc.bitmaps_eq, hzero]
    rw [hnone]
    simp [Decodes, StartsComplete, hzero]
  | succ n =>
    obtain ⟨result, hdecode, hlen, hbits⟩ := henc.decodeLessEqual_eq x
    rw [testBit_zero, henc.size_eq] at hlen
    rw [hdecode]
    constructor
    · rintro ⟨_, hsome, hcompl, -⟩
      cases hsome
      rw [hlen] at hcompl
      by_cases hodd : x % 2 = 1
      · exact Or.inl hodd
      · rw [decide_eq_false hodd, if_neg Bool.false_ne_true] at hcompl
        exact Or.inr ⟨nofun, by omega⟩
    · intro hstarts
      apply decodes_of_test
      · rw [hlen, hsize]
        rcases hstarts with hodd | ⟨-, hfilled⟩
        · rw [decide_eq_true hodd, if_pos rfl]
        · rw [hfilled, add_zero, ite_self]
      · intro i v hentry
        have hv := hbelow.lt_of_mem (mem_of_getElem? hentry)
        rw [hents] at hentry
        simp [hbits.of_stored i v hentry, mod_eq_of_lt hv, mod_eq_of_lt hx]

theorem decodes_replicate (bit : Bool) :
    Decodes calls (fun _ => bit) (some (replicate (run n calls).size bit)) := by
  obtain ⟨stored, henc, hents⟩ := exists_encodes_run n calls
  apply decodes_of_test
  · rw [length_replicate, henc.size_eq, hents, length_append, length_replicate]
  · rw [hents]
    exact Bits.of_stored fun i v hstored => henc.test_replicate hstored bit

theorem decodes_equal (hbelow : CoderCalls.Below (2 ^ n) calls) (hx : x < 2 ^ n) :
    Decodes calls (fun v => decide (v = x)) (some (decodeEqual (run n calls) x)) := by
  obtain ⟨stored, henc, hents⟩ := exists_encodes_run n calls
  obtain ⟨hlen, hbits⟩ := henc.decodeEqual_eq x
  apply decodes_of_test
  · rw [hlen, henc.size_eq, hents, length_append, length_replicate]
  · intro i v hentry
    have hv := hbelow.lt_of_mem (mem_of_getElem? hentry)
    rw [hents] at hentry
    simp [hbits.of_stored i v hentry, mod_eq_of_lt hv, mod_eq_of_lt hx]

theorem decodes_in (hx : x < 2 ^ n) : Decodes calls (fun v => decide (v &&& x = x))
      ((some (decodeMissing (run n calls) x)).map flip) := by
  obtain ⟨stored, henc, hents⟩ := exists_encodes_run n calls
  obtain ⟨hlen, hbits⟩ := henc.decodeMissing_eq hx
  rw [decodes_flip_iff]
  apply decodes_of_test
  · rw [hlen, henc.size_eq, hents, length_append, length_replicate]
  · rw [hents]
    exact hbits.of_stored

end Exact

/-- For every operator, decoding has a bit for each position and the right one for each
appended number if and only if the comparison starts complete. Containment of bits is
always decoded. -/
theorem decode_exact_iff_complete (n : Nat) (calls : List CoderCall)
    (hbelow : CoderCalls.Below (2 ^ n) calls) (x : Nat) (hx : x < 2 ^ n) :
    (∀ op : RelationalOperator, op.isComparison = true →
      (Decodes calls (fun v => decide (op.Compares v x)) (decode (run n calls) op x) ↔
        Complete n calls op x)) ∧
    (x ≠ 0 → Decodes calls (fun v => decide (v &&& x = x)) (decode (run n calls) .in x)) := by
  have hless := fun y (hy : y ≤ x) => decodeLessEqual_iff hbelow (lt_of_le_of_lt hy hx)
  constructor
  · intro op hop
    cases op with
    | less =>
      by_cases hzero : x = 0
      · have hdecodes := @decodes_replicate n calls false
        simpa [decode, Complete, hzero, RelationalOperator.Compares] using hdecodes
      · simpa [decode, Complete, hzero, RelationalOperator.Compares, Nat.lt_iff_le_pred,
          Nat.pos_of_ne_zero hzero] using hless (x - 1) (by omega)
    | greaterEqual =>
      by_cases hzero : x = 0
      · have hdecodes := @decodes_replicate n calls true
        simpa [decode, Complete, hzero, RelationalOperator.Compares] using hdecodes
      · have hbit : (fun v => !decide (x ≤ v)) = fun v => decide (v ≤ x - 1) := by
          funext v
          rw [← decide_not, decide_eq_decide]
          omega
        simpa [decode, Complete, hzero, RelationalOperator.Compares, decodes_flip_iff, hbit]
          using hless (x - 1) (by omega)
    | lessEqual => exact hless x (le_refl x)
    | greater =>
      have hbit : (fun v => !decide (x < v)) = fun v => decide (v ≤ x) := by
        funext v
        rw [← decide_not, decide_eq_decide, not_lt]
      simpa [decode, Complete, RelationalOperator.Compares, decodes_flip_iff, hbit] using
        hless x (le_refl x)
    | equal => exact iff_of_true (decodes_equal hbelow hx) trivial
    | notEqual =>
      refine iff_of_true ?_ trivial
      have hflip := @decodes_flip_iff calls (fun v => decide (v ≠ x))
        (some (decodeEqual (run n calls) x))
      apply hflip.mpr
      simpa using decodes_equal hbelow hx
    | «in» | notIn | ni | notNi => cases hop
  · intro hne
    rw [decode, if_neg hne]
    exact decodes_in hx

/-- One number and one skipped position behind it: comparing with zero forgets the
skipped position. -/
theorem skipped_position_is_forgotten : (CoderCalls.entries [.encode 0 1, .skip 1]).length = 2 ∧
      decode (run 1 [.encode 0 1, .skip 1]) .lessEqual 0 = some [true] := by
  decide

/-- A skipped position before the last number is not forgotten. -/
theorem decodes_without_trailing_skip : Decodes [.skip 1, .encode 0 1] (fun v => decide (v ≤ 0))
      (decode (run 1 [.skip 1, .encode 0 1]) .lessEqual 0) := by
  have hbelow : CoderCalls.Below (2 ^ 1) [.skip 1, .encode 0 1] := by
    intro x n hmem
    have hx : x = 0 ∧ n = 1 := by simpa using hmem
    omega
  have hiff := (decode_exact_iff_complete 1 _ hbelow 0 (by decide)).1 .lessEqual rfl
  exact hiff.mpr (Or.inr ⟨nofun, rfl⟩)

end BitsliceCoder

end Vast
