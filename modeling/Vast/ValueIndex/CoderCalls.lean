import Mathlib.Data.List.Induction
import Vast.ValueIndex.Coder

/-! # Calls of a coder

A coder grows by appending numbers and by skipping positions. What it decodes is exact
if it has the right bit for every appended number; nothing is said about skipped
positions. The range coder alone decodes every operator from one or two neighbouring
bitmaps.
-/

namespace Vast

open Foundation List Bitmap

namespace RelationalOperator

def isComparison : RelationalOperator → Bool
  | .equal | .notEqual | .less | .lessEqual | .greater | .greaterEqual => true
  | .in | .notIn | .ni | .notNi => false

section Compares

variable {α : Type*} [LT α] [LE α]

def Compares (op : RelationalOperator) (value operand : α) : Prop :=
  match op with
  | .equal => value = operand
  | .notEqual => value ≠ operand
  | .less => value < operand
  | .lessEqual => value ≤ operand
  | .greater => value > operand
  | .greaterEqual => value ≥ operand
  | _ => False

instance [DecidableEq α] [DecidableLT α] [DecidableLE α] (op : RelationalOperator)
    (value operand : α) : Decidable (op.Compares value operand) :=
  match op with
  | .equal => inferInstanceAs (Decidable (value = operand))
  | .notEqual => inferInstanceAs (Decidable (value ≠ operand))
  | .less | .greater => inferInstanceAs (Decidable (_ < _))
  | .lessEqual | .greaterEqual => inferInstanceAs (Decidable (_ ≤ _))
  | .in | .notIn | .ni | .notNi => inferInstanceAs (Decidable False)

end Compares

end RelationalOperator

/-! ## Calls -/

inductive CoderCall where
  | encode (x n : Nat)
  | skip (n : Nat)

namespace CoderCalls

/-- The numbers at the positions of a coder. Skipped positions have none. -/
def entries (calls : List CoderCall) : List (Option Nat) :=
  calls.flatMap fun
    | .encode x n => List.replicate n (some x)
    | .skip n => List.replicate n none

def Below (bound : Nat) (calls : List CoderCall) : Prop :=
  ∀ x n, CoderCall.encode x n ∈ calls → x < bound

/-- A result has the right bit for every appended number. -/
def Exact (calls : List CoderCall) (bit : Nat → Bool) (result : Bitmap) : Prop :=
  ∀ i v : Nat, (entries calls)[i]? = some (some v) → result[i]? = some (bit v)

variable {calls : List CoderCall}

theorem entries_encode (calls : List CoderCall) (x n : Nat) :
    entries (calls ++ [.encode x n]) = entries calls ++ replicate n (some x) := by
  simp [entries]

theorem entries_skip (calls : List CoderCall) (n : Nat) :
    entries (calls ++ [.skip n]) = entries calls ++ replicate n none := by
  simp [entries]

theorem Below.lt_of_mem {bound v : Nat} (hbelow : Below bound calls)
    (hentry : some v ∈ entries calls) : v < bound := by
  obtain ⟨call, hcall, hmem⟩ := mem_flatMap.mp hentry
  cases call with
  | encode x n =>
    cases eq_of_mem_replicate hmem
    exact hbelow _ n hcall
  | skip n => cases eq_of_mem_replicate hmem

theorem exact_map {bit : Nat → Bool} {bits : Option Nat → Bool}
    (hbits : ∀ v, some v ∈ entries calls → bits (some v) = bit v) :
    Exact calls bit ((entries calls).map bits) := by
  intro i v hentry
  rw [getElem?_map, hentry, Option.map_some, hbits v (mem_of_getElem? hentry)]

end CoderCalls

/-! ## Decoding with the range coder -/

namespace RangeCoder

def call (coder : RangeCoder) : CoderCall → RangeCoder
  | .encode x n => coder.encode x n
  | .skip n => coder.skip n

def run (n : Nat) (calls : List CoderCall) : RangeCoder :=
  calls.foldl call (empty n)

/-- Skipped positions look like zeros. -/
theorem encodes_run (n : Nat) (calls : List CoderCall) : (run n calls).bitmaps.length = n ∧
      Encodes (run n calls) ((CoderCalls.entries calls).map (·.getD 0)) := by
  induction calls using reverseRecOn with
  | nil => exact ⟨length_replicate, encodes_empty n⟩
  | append_singleton calls last ih =>
    obtain ⟨hlen, henc⟩ := ih
    rw [run, foldl_append]
    cases last with
    | encode x count =>
      rw [CoderCalls.entries_encode, map_append, map_replicate]
      exact ⟨length_mapIdx.trans hlen, henc.encode x count⟩
    | skip count =>
      rw [CoderCalls.entries_skip, map_append, map_replicate]
      exact ⟨hlen, henc.skip count⟩

def bitmapAt? (coder : RangeCoder) (index : Nat) : Option Bitmap :=
  if index < coder.bitmaps.length then some (coder.bitmapAt index) else none

/-- The numbers that compare with the operand. There is no result if a bitmap is accessed
that does not exist. -/
def decode (coder : RangeCoder) (op : RelationalOperator) (x : Nat) : Option Bitmap :=
  match op with
  | .less =>
    if x = 0 then some (List.replicate coder.size false) else coder.bitmapAt? (x - 1)
  | .lessEqual => coder.bitmapAt? x
  | .equal => do
      let result ← coder.bitmapAt? x
      if x > 0 then
        let below ← coder.bitmapAt? (x - 1)
        return Bitmap.and result below.flip
      else return result
  | .notEqual => do
      let bitmap ← coder.bitmapAt? x
      if x > 0 then
        let below ← coder.bitmapAt? (x - 1)
        return Bitmap.or bitmap.flip below
      else return bitmap.flip
  | .greater => (coder.bitmapAt? x).map Bitmap.flip
  | .greaterEqual =>
    if x = 0 then some (List.replicate coder.size true)
    else (coder.bitmapAt? (x - 1)).map Bitmap.flip
  | _ => some (List.replicate coder.size false)

section Encodes

variable {coder : RangeCoder} {values : List Nat} {op : RelationalOperator} {x : Nat}

/-- All operators decode to the comparison as long as the bitmaps exist. -/
theorem Encodes.decode_eq (henc : Encodes coder values) (hop : op.isComparison = true)
    (hx : x ≤ coder.bitmaps.length)
    (hexists : x < coder.bitmaps.length ∨ op = .less ∨ op = .greaterEqual) :
    coder.decode op x = some (values.map fun value => decide (op.Compares value x)) := by
  have hbitmap : ∀ index < coder.bitmaps.length, coder.bitmapAt? index =
      some (values.map fun value => decide (value ≤ index)) := by
    intro index hindex
    rw [bitmapAt?, if_pos hindex, henc.bitmapAt_eq index hindex]
  have hbelow : x ≠ 0 → coder.bitmapAt? (x - 1) =
      some (values.map fun value => decide (value ≤ x - 1)) := fun _ => hbitmap _ (by omega)
  have hsize : ∀ bit : Bool, replicate coder.size bit = values.map fun _ => bit := by
    intro bit
    rw [henc.size_eq, ← map_const']
  cases op with
  | «in» | notIn | ni | notNi => cases hop
  | less | greaterEqual =>
    by_cases hzero : x = 0
    · simp [decode, hzero, hsize, RelationalOperator.Compares]
    · simp only [decode, hzero, if_false, hbelow hzero, Option.map_some, flip_map,
        RelationalOperator.Compares]
      grind
  | lessEqual | greater | equal | notEqual =>
    have hlt : x < coder.bitmaps.length := by simpa using hexists
    by_cases hzero : x = 0
    · subst hzero
      simp only [decode, hbitmap 0 hlt, Option.map_some, flip_map,
        RelationalOperator.Compares, Option.bind_eq_bind, Option.bind_some, gt_iff_lt]
      grind
    · simp only [decode, hbitmap x hlt, hbelow hzero, Option.map_some, flip_map,
        combines_and.map, combines_or.map, RelationalOperator.Compares, Option.bind_eq_bind,
        Option.bind_some, Nat.pos_of_ne_zero hzero, gt_iff_lt, if_true]
      grind

end Encodes

/-- Decoding is exact for all operands that are accepted, except that only `<` and `>=` do
without the bitmap of the largest one. -/
theorem decode_exact_iff (n : Nat) (calls : List CoderCall) (op : RelationalOperator)
    (hop : op.isComparison = true) (x : Nat) (hx : x < n + 1) :
    (∃ result, (run n calls).decode op x = some result ∧
      CoderCalls.Exact calls (fun v => decide (op.Compares v x)) result) ↔
      x < n ∨ op = .less ∨ op = .greaterEqual := by
  obtain ⟨hlength, hencodes⟩ := encodes_run n calls
  constructor
  · by_contra hnot
    have hnone : (run n calls).bitmapAt? x = none := if_neg (by omega)
    cases op <;> simp_all [decode, RelationalOperator.isComparison]
  · intro hexists
    refine ⟨_, hencodes.decode_eq hop (by omega) (by rwa [hlength]), ?_⟩
    rw [map_map]
    exact CoderCalls.exact_map fun _ _ => rfl

/-- The operand 1 is accepted by a coder with one bitmap, which has no bitmap for it. -/
theorem decode_largest_has_no_bitmap : (1 < (run 1 [.encode 0 1]).bitmaps.length + 1) ∧
      (run 1 [.encode 0 1]).decode .lessEqual 1 = none := by
  decide

/-- The comparison with `<` does without the bitmap of the largest operand. -/
theorem decode_exact_less_largest : ∃ result, (run 1 [.encode 0 1]).decode .less 1 = some result ∧
      CoderCalls.Exact [.encode 0 1] (fun v => decide (v < 1)) result :=
  (decode_exact_iff 1 [.encode 0 1] .less rfl 1 (by decide)).mpr (Or.inr (Or.inl rfl))

end RangeCoder

end Vast
