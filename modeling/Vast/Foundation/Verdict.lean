import Mathlib.Data.List.Basic

/-! # Verdicts

A verdict is a truth value, or that a question does not apply, or an error. A
conjunction applies when all its parts apply, a disjunction when one of them
does. Parts are asked from left to right: the first error is the verdict, and a
conjunction asks no further once a part does not apply.
-/

namespace Foundation

open List

abbrev Verdict (ε : Type*) := Except ε (Option Bool)

namespace Verdict

variable {ε : Type*} {verdict : Verdict ε} {verdicts : List (Verdict ε)} {a : Bool}

def both : Verdict ε → Verdict ε → Verdict ε
  | .error error, _ => .error error
  | .ok none, _ => .ok none
  | .ok (some a), second => second.map (Option.map (a && ·))

def either : Verdict ε → Verdict ε → Verdict ε
  | .error error, _ => .error error
  | .ok none, second => second
  | .ok (some a), second => second.map fun b => some (a || b.getD false)

section

variable (verdict : Verdict ε)

def negate : Verdict ε :=
  verdict.map (Option.map (!·))

def conjoin (verdicts : List (Verdict ε)) : Verdict ε :=
  verdicts.foldr both (.ok (some true))

def disjoin (verdicts : List (Verdict ε)) : Verdict ε :=
  verdicts.foldr either (.ok none)

@[simp]
theorem conjoin_nil : conjoin ([] : List (Verdict ε)) = .ok (some true) := rfl

@[simp]
theorem conjoin_cons (rest : List (Verdict ε)) :
    conjoin (verdict :: rest) = both verdict (conjoin rest) := rfl

@[simp]
theorem disjoin_nil : disjoin ([] : List (Verdict ε)) = .ok none := rfl

@[simp]
theorem disjoin_cons (rest : List (Verdict ε)) :
    disjoin (verdict :: rest) = either verdict (disjoin rest) := rfl

@[simp]
theorem true_both : both (.ok (some true)) verdict = verdict := by
  match verdict with
  | .error _ => rfl
  | .ok none => rfl
  | .ok (some _) => rfl

@[simp]
theorem both_true : both verdict (.ok (some true)) = verdict := by
  match verdict with
  | .error _ => rfl
  | .ok none => rfl
  | .ok (some a) => simp [both, Except.map]

@[simp]
theorem either_none : either verdict (.ok none) = verdict := by
  match verdict with
  | .error _ => rfl
  | .ok none => rfl
  | .ok (some a) => simp [either, Except.map]

end

theorem both_ok (a b : Option Bool) :
    both (.ok a : Verdict ε) (.ok b) = .ok (a.bind fun a => b.map (a && ·)) := by
  cases a <;> rfl

theorem either_ok (a b : Option Bool) :
    either (.ok a : Verdict ε) (.ok b) = .ok (a.elim b fun a => some (a || b.getD false)) := by
  cases a <;> rfl

theorem both_assoc (a b c : Verdict ε) : both (both a b) c = both a (both b c) := by
  match a, b, c with
  | .error _, _, _ => rfl
  | .ok none, _, _ => rfl
  | .ok (some _), .error _, _ => rfl
  | .ok (some _), .ok none, _ => rfl
  | .ok (some _), .ok (some _), .error _ => rfl
  | .ok (some _), .ok (some _), .ok none => rfl
  | .ok (some a), .ok (some b), .ok (some c) =>
    simp [both, Except.map, Bool.and_assoc]

theorem either_assoc (a b c : Verdict ε) : either (either a b) c = either a (either b c) := by
  match a, b, c with
  | .error _, _, _ => rfl
  | .ok none, _, _ => rfl
  | .ok (some _), .error _, _ => rfl
  | .ok (some a), .ok none, .error _ => rfl
  | .ok (some a), .ok none, .ok c =>
    simp [either, Except.map]
  | .ok (some _), .ok (some _), .error _ => rfl
  | .ok (some a), .ok (some b), .ok c =>
    simp [either, Except.map, Bool.or_assoc]

theorem conjoin_append (first second : List (Verdict ε)) :
    conjoin (first ++ second) = both (conjoin first) (conjoin second) := by
  induction first with
  | nil => simp
  | cons verdict rest ih => rw [cons_append, conjoin_cons, ih, conjoin_cons, both_assoc]

theorem disjoin_append (first second : List (Verdict ε)) :
    disjoin (first ++ second) = either (disjoin first) (disjoin second) := by
  induction first with
  | nil => rfl
  | cons verdict rest ih => rw [cons_append, disjoin_cons, ih, disjoin_cons, either_assoc]

/-! ## Repeated parts -/

theorem both_both_self (a b : Verdict ε) : both a (both b a) = both a b := by
  match a, b with
  | .error _, _ => rfl
  | .ok none, _ => rfl
  | .ok (some _), .error _ => rfl
  | .ok (some _), .ok none => rfl
  | .ok (some a), .ok (some b) => cases a <;> cases b <;> rfl

theorem either_either_self (a b : Verdict ε) : either a (either b a) = either a b := by
  match a, b with
  | .error _, _ => rfl
  | .ok none, b => exact either_none b
  | .ok (some _), .error _ => rfl
  | .ok (some a), .ok none => cases a <;> rfl
  | .ok (some a), .ok (some b) => cases a <;> cases b <;> rfl

/-- A way to combine parts for which a repeated part adds nothing. -/
structure Absorbs (combine : List (Verdict ε) → Verdict ε) : Prop where
  append_congr : ∀ {first second : List (Verdict ε)}, combine first = combine second →
    ∀ rest, combine (first ++ rest) = combine (second ++ rest)
  concat_of_mem : ∀ {verdict : Verdict ε} {verdicts : List (Verdict ε)}, verdict ∈ verdicts →
    combine (verdicts ++ [verdict]) = combine verdicts

theorem absorbs_conjoin : Absorbs (conjoin : List (Verdict ε) → Verdict ε) where
  append_congr := by
    intro first second heq rest
    rw [conjoin_append, heq, conjoin_append]
  concat_of_mem := by
    intro verdict verdicts hmem
    obtain ⟨before, after, rfl⟩ := append_of_mem hmem
    simp [conjoin_append, both_both_self]

theorem absorbs_disjoin : Absorbs (disjoin : List (Verdict ε) → Verdict ε) where
  append_congr := by
    intro first second heq rest
    rw [disjoin_append, heq, disjoin_append]
  concat_of_mem := by
    intro verdict verdicts hmem
    obtain ⟨before, after, rfl⟩ := append_of_mem hmem
    simp [disjoin_append, either_either_self]

/-- A repeated part may be skipped wherever it stands. -/
theorem Absorbs.skip {combine : List (Verdict ε) → Verdict ε} (habsorbs : Absorbs combine)
    (hmem : verdict ∈ verdicts) (rest : List (Verdict ε)) :
    combine (verdicts ++ verdict :: rest) = combine (verdicts ++ rest) := by
  rw [← habsorbs.append_congr (habsorbs.concat_of_mem hmem) rest, append_assoc, singleton_append]

/-! ## Negation -/

@[simp]
theorem negate_ok (applies : Option Bool) :
    negate (.ok applies : Verdict ε) = .ok (applies.map (!·)) := rfl

theorem negate_negate (verdict : Verdict ε) : negate (negate verdict) = verdict := by
  match verdict with
  | .error _ => rfl
  | .ok none => rfl
  | .ok (some a) => cases a <;> rfl

end Verdict

end Foundation
