import Mathlib.Data.Int.ModEq
import Mathlib.Tactic.Ring

/-! # Parsing integers

Digits are accumulated in the type of the result, which is then multiplied with the factor of a
suffix. The number of digits is limited, but not to numbers that fit.
-/

namespace Vast

open List Int

/-- An integral type of the machine, by the number of its digits without the sign. -/
structure Integral where
  signed : Bool
  digits : Nat

namespace Integral

variable (type : Integral)

def min : Int :=
  if type.signed then -2 ^ type.digits else 0

def size : Int :=
  2 ^ type.digits - type.min

/-- Results that do not fit wrap around. -/
def wrap (number : Int) : Int :=
  (number - type.min) % type.size + type.min

def Fits (number : Int) : Prop :=
  type.min ≤ number ∧ number < 2 ^ type.digits

/-- One decimal digit more than always fit. -/
def maxDigits : Nat :=
  type.digits * 643 / 2136 + 1

/-! ## The parsers -/

def isDigit (c : Char) : Bool :=
  '0' ≤ c ∧ c ≤ '9'

def digit (c : Char) : Int :=
  (c.toNat : Int) - '0'.toNat

variable (negative : Bool)

/-- Digits of a negative number are subtracted. -/
def sign : Int :=
  if negative then -1 else 1

def accumulate (negative : Bool) : Nat → Int → List Char → Int × List Char
  | digits + 1, n, c :: rest =>
    if isDigit c then
      accumulate negative digits (type.wrap (type.wrap (n * 10) + sign negative * digit c)) rest
    else (n, c :: rest)
  | _, n, rest => (n, rest)

variable (input : List Char)

/-- There must be at least one digit. -/
def parseDigits : Option (Int × List Char) :=
  let (n, rest) := type.accumulate negative type.maxDigits 0 input
  if rest.length < input.length then some (n, rest) else none

def parse : Option (Int × List Char) :=
  match type.signed, input with
  | true, '-' :: rest => type.parseDigits true rest
  | true, '+' :: rest => type.parseDigits false rest
  | _, input => type.parseDigits false input

def isSpace (c : Char) : Bool :=
  c ∈ [' ', '\t', '\n', '\x0b', '\x0c', '\r']

def suffixes : List (List Char × Int) :=
  [(['K', 'i'], 2 ^ 10), (['M', 'i'], 2 ^ 20), (['G', 'i'], 2 ^ 30), (['T', 'i'], 2 ^ 40),
    (['P', 'i'], 2 ^ 50), (['E', 'i'], 2 ^ 60), (['k'], 10 ^ 3), (['M'], 10 ^ 6), (['G'], 10 ^ 9),
    (['T'], 10 ^ 12), (['P'], 10 ^ 15), (['E'], 10 ^ 18)]

/-- A number with a suffix. The product is computed with 64 bits. -/
def parseSuffixed (suffix : List Char × Int) : Option (Int × List Char) :=
  (type.parse input).bind fun (n, rest) =>
    let rest := rest.dropWhile isSpace
    if suffix.1 <+: rest then some (type.wrap (n * suffix.2), rest.drop suffix.1.length) else none

def parseSi : Option (Int × List Char) :=
  (suffixes.findSome? (type.parseSuffixed input)).or (type.parse input)

/-! ## The numbers that are written -/

def decimal (digits : List Char) : Option Int :=
  if digits ≠ [] ∧ digits.all isDigit then
    some (sign negative * digits.foldl (fun n c => n * 10 + digit c) 0)
  else none

/-- The number that a text denotes: digits with a sign or without. -/
def number : List Char → Option Int
  | '-' :: digits => decimal true digits
  | '+' :: digits => decimal false digits
  | digits => decimal false digits

variable {type}

theorem wrap_eq_iff {number : Int} : type.wrap number = number ↔ type.Fits number := by
  have hsize : type.size = 2 ^ type.digits - type.min := rfl
  have hpos : 0 < type.size := by
    have hpow : (0 : Int) < 2 ^ type.digits := Int.pow_pos (by decide)
    unfold size min
    split <;> omega
  have hlt := emod_lt_of_pos (number - type.min) hpos
  have hnonneg := emod_nonneg (number - type.min) hpos.ne'
  rw [wrap, Fits]
  constructor
  · omega
  · rintro ⟨hmin, hmax⟩
    rw [emod_eq_of_lt (by omega) (by omega)]
    omega

theorem wrap_modEq (number : Int) : type.wrap number ≡ number [ZMOD type.size] := by
  have hmod := (mod_modEq (number - type.min) type.size).add_right type.min
  rwa [sub_add_cancel] at hmod

theorem wrap_congr {number other : Int} (hmod : number ≡ other [ZMOD type.size]) :
    type.wrap number = type.wrap other :=
  congrArg (· + type.min) (hmod.sub_right type.min)

theorem accumulate_eq (digits : Nat) (n : Int) (input : List Char) :
    ∃ consumed rest, input = consumed ++ rest ∧ consumed.all isDigit = true ∧
      type.accumulate negative digits (type.wrap (sign negative * n)) input =
        (type.wrap (sign negative * consumed.foldl (fun n c => n * 10 + digit c) n), rest) := by
  induction digits generalizing n input with
  | zero => exact ⟨[], input, rfl, rfl, by cases input <;> rfl⟩
  | succ digits ih =>
    cases input with
    | nil => exact ⟨[], [], rfl, rfl, rfl⟩
    | cons c rest =>
      rw [accumulate]
      split
      next hdigit =>
        obtain ⟨consumed, left, rfl, hall, hrest⟩ := ih (n * 10 + digit c) rest
        refine ⟨c :: consumed, left, rfl, by simp [hdigit, hall], ?_⟩
        rw [foldl_cons, ← hrest]
        congr 1
        have hten := (wrap_modEq (type.wrap (sign negative * n) * 10)).trans
          ((wrap_modEq (sign negative * n)).mul_right 10)
        refine (wrap_congr (hten.add_right _)).trans ?_
        congr 1
        ring
      · exact ⟨[], c :: rest, rfl, rfl, rfl⟩

theorem parseDigits_eq_some {negative : Bool} {input rest : List Char} {n : Int}
    (hparse : type.parseDigits negative input = some (n, rest)) :
    ∃ digits value, input = digits ++ rest ∧ decimal negative digits = some value ∧
      n = type.wrap value := by
  obtain ⟨digits, left, rfl, hall, hacc⟩ :=
    @accumulate_eq type negative type.maxDigits 0 input
  have hzero : type.wrap (sign negative * 0) = 0 := by
    rw [mul_zero, wrap_eq_iff, Fits, min]
    have hpow : (0 : Int) < 2 ^ type.digits := Int.pow_pos (by decide)
    split <;> omega
  rw [hzero] at hacc
  rw [parseDigits, hacc] at hparse
  dsimp only at hparse
  split at hparse
  next hlt =>
    cases hparse
    refine ⟨digits, _, rfl, if_pos ⟨?_, hall⟩, rfl⟩
    rintro rfl
    exact lt_irrefl _ hlt
  · cases hparse

theorem parse_eq_some {input rest : List Char} {n : Int}
    (hparse : type.parse input = some (n, rest)) :
    ∃ text value, input = text ++ rest ∧ number text = some value ∧ n = type.wrap value := by
  unfold parse at hparse
  split at hparse
  · obtain ⟨digits, value, rfl, hvalue, hn⟩ := parseDigits_eq_some hparse
    exact ⟨'-' :: digits, value, rfl, hvalue, hn⟩
  · obtain ⟨digits, value, rfl, hvalue, hn⟩ := parseDigits_eq_some hparse
    exact ⟨'+' :: digits, value, rfl, hvalue, hn⟩
  · obtain ⟨digits, value, rfl, hvalue, hn⟩ := parseDigits_eq_some hparse
    refine ⟨digits, value, rfl, ?_, hn⟩
    -- A digit is no sign.
    unfold number
    split
    · simp [decimal, isDigit] at hvalue
    · simp [decimal, isDigit] at hvalue
    · exact hvalue

/-- The parsers accept a number with its value if and only if the value fits. -/
theorem parse_exact_iff (type : Integral) (input : List Char) :
    (∀ n rest, type.parse input = some (n, rest) → ∃ text value, input = text ++ rest ∧
      number text = some value ∧ (n = value ↔ type.Fits value)) ∧
    ∀ n rest, type.parseSi input = some (n, rest) → ∃ text spaces suffix value,
      input = text ++ spaces ++ suffix.1 ++ rest ∧ number text = some value ∧
        spaces.all isSpace = true ∧ suffix ∈ ([], 1) :: suffixes ∧
        (n = value * suffix.2 ↔ type.Fits (value * suffix.2)) := by
  constructor
  · intro n rest hparse
    obtain ⟨text, value, hinput, hvalue, rfl⟩ := parse_eq_some hparse
    exact ⟨text, value, hinput, hvalue, wrap_eq_iff⟩
  · intro n rest hparse
    rcases Option.or_eq_some_iff.mp hparse with hsuffixed | ⟨-, hplain⟩
    · obtain ⟨suffix, hsuffix, hsuffixed⟩ := exists_of_findSome?_eq_some hsuffixed
      obtain ⟨⟨m, behind⟩, hm, hsuffixed⟩ := Option.bind_eq_some_iff.mp hsuffixed
      dsimp only at hsuffixed
      split at hsuffixed
      next hprefix =>
        cases hsuffixed
        obtain ⟨left, hleft⟩ := hprefix
        obtain ⟨text, value, rfl, hvalue, rfl⟩ := parse_eq_some hm
        refine ⟨text, behind.takeWhile isSpace, suffix, value, ?_, hvalue, all_takeWhile,
          mem_cons_of_mem _ hsuffix, ?_⟩
        · rw [← hleft, drop_left, append_assoc, append_assoc, hleft, takeWhile_append_dropWhile]
        · rw [← wrap_eq_iff, wrap_congr ((wrap_modEq value).mul_right suffix.2)]
      · cases hsuffixed
    · obtain ⟨text, value, rfl, hvalue, rfl⟩ := parse_eq_some hplain
      refine ⟨text, [], ([], 1), value, by simp, hvalue, rfl, mem_cons_self, ?_⟩
      rw [mul_one]
      exact wrap_eq_iff

/-- A number that does not fit into 8 bits is accepted. -/
theorem large_number_wraps : parse ⟨false, 8⟩ ['2', '5', '6'] = some (0, []) := by
  decide

end Integral

end Vast
