import Vast.Catalog.Summary

/-! # Intervals of time points

The synopsis of time points keeps the smallest interval that contains the values
and the bounds it started with. The interval is enough to deny a comparison that
no value satisfies. The negative operators are answered by the opposite of the
answer for the positive one, which is right only when the interval cannot contain
the literal or when no value differs from it.
-/

namespace Vast

open Cell
open Synopsis Int64

variable [BloomFilters] [Regex]

namespace MinMaxSynopsis

variable (min max : Int64)

variable (values : List Int64)

/-- A synopsis of time points that started with the given bounds. -/
def filled : Synopsis :=
  (values.map BasicData.time).foldl Synopsis.add (Synopsis.empty .time (.minMax min max))

/-- The interval that the bounds and the values span contains a time point. -/
def Spans (x : Int64) : Prop :=
  (min ≤ x ∨ ∃ value ∈ values, value ≤ x) ∧ (x ≤ max ∨ ∃ value ∈ values, x ≤ value)

/-- A negative operator asks for a value that differs from the literals. The answer
can be relied on when the interval contains none of the literals, or when no value
differs from all of them. -/
def Reliable : RelationalOperator → Data → Prop
  | .notEqual, .basic (.time x) => Spans min max values x → ∀ value ∈ values, value = x
  | .notIn, .list literals =>
    ∀ x, .basic (.time x) ∈ literals → Spans min max values x →
      ∀ value ∈ values, .basic (.time value) ∈ literals
  | _, _ => True

/-! ## The interval -/

/-- The bounds of a synopsis and what it has received. -/
structure Holds (synopsis : Synopsis) (min max : Int64) (values : List Int64) : Prop where
  type_eq : synopsis.type = .time
  received_eq : synopsis.received = values.map BasicData.time
  bounds : ∃ lower upper, synopsis.state = .minMax lower upper ∧
    ∀ x, (lower ≤ x ↔ min ≤ x ∨ ∃ value ∈ values, value ≤ x) ∧
      (x ≤ upper ↔ x ≤ max ∨ ∃ value ∈ values, x ≤ value)

section

omit [BloomFilters] [Regex]

theorem lower_iff (bound value x : Int64) :
    (if value < bound then value else bound) ≤ x ↔ bound ≤ x ∨ value ≤ x := by
  simp only [lt_iff_toInt_lt, le_iff_toInt_le]
  split <;> omega

theorem upper_iff (bound value x : Int64) :
    x ≤ (if bound < value then value else bound) ↔ x ≤ bound ∨ x ≤ value := by
  simp only [lt_iff_toInt_lt, le_iff_toInt_le]
  split <;> omega

/-- One more value extends the interval. -/
theorem Holds.add {synopsis : Synopsis} {min max : Int64} {values : List Int64}
    (hholds : Holds synopsis min max values) (value : Int64) :
    Holds (synopsis.add (.time value)) min max (values ++ [value]) := by
  obtain ⟨htype, hrecv, lower, upper, hstate, hbounds⟩ := hholds
  have hvalue : (BasicData.time value).type = some synopsis.type := by
    rw [htype]
    rfl
  rw [Synopsis.add, dif_pos hvalue]
  refine ⟨htype, by simp [hrecv], _, _,
    congrArg (SynopsisState.add (.time value)) hstate, fun x => ?_⟩
  rw [lower_iff, upper_iff, (hbounds x).1, (hbounds x).2]
  simp [or_assoc]

theorem filled_holds (values : List Int64) : Holds (filled min max values) min max values := by
  induction values using List.reverseRecOn with
  | nil => exact ⟨rfl, rfl, min, max, rfl, by simp⟩
  | append_singleton values value ih =>
    rw [filled, List.map_append, List.foldl_append]
    exact ih.add value

/-! ## Comparisons of time points -/

theorem compare_lt_iff (a b : Int64) : compare a.toInt b.toInt = .lt ↔ a < b :=
  compare_lt_iff_lt.trans lt_iff_toInt_lt.symm

theorem compare_eq_iff (a b : Int64) : compare a.toInt b.toInt = .eq ↔ a = b :=
  compare_eq_iff_eq.trans toInt_inj

end

omit [BloomFilters] in
theorem equal_time_iff (value : Int64) (rhs : Data) :
    equal (.basic (.time value)) rhs = true ↔ rhs = .basic (.time value) := by
  cases rhs with
  | basic other =>
    cases other with
    | time x =>
      simp only [equal, BasicData.compare, beq_iff_eq, Option.some.injEq, compare_eq_iff,
        Data.basic.injEq, BasicData.time.injEq]
      exact eq_comm
    | _ => simp [equal, BasicData.compare, BasicData.toInt, BasicData.toDouble]
  | _ => simp [equal, Data.same]

section

omit [BloomFilters] [Regex]

theorem less_time_iff (a b : Int64) :
    less (.basic (.time a)) (.basic (.time b)) = true ↔ a < b := by
  simp [less, BasicData.compare, compare_lt_iff]

theorem lessEqual_time_iff (a b : Int64) :
    lessEqual (.basic (.time a)) (.basic (.time b)) = true ↔ a ≤ b := by
  simp only [lessEqual, BasicData.compare, Bool.or_eq_true, beq_iff_eq, Option.some.injEq,
    compare_lt_iff, compare_eq_iff]
  rw [le_iff_toInt_le, lt_iff_toInt_lt, ← toInt_inj]
  omega

end

omit [BloomFilters] in
theorem member_time_iff (value : Int64) (literals : List Data) :
    member (.basic (.time value)) (.list literals) = true ↔ .basic (.time value) ∈ literals := by
  simp [member, equal_time_iff]

/-! ## Soundness -/

def isComparison : RelationalOperator → Bool
  | .equal | .less | .lessEqual | .greater | .greaterEqual => true
  | _ => false

omit [BloomFilters] in
/-- A value in the interval satisfies no comparison that the interval denies. -/
theorem lookup_comparison {lower upper value x : Int64} (hlower : lower ≤ value)
    (hupper : value ≤ upper) {op : RelationalOperator} (hop : isComparison op = true)
    (hcell : evaluate op (.basic (.time value)) (.basic (.time x)) = true) :
    minMaxLookup lower upper op x = true := by
  cases op with
  | equal =>
    have heq : Data.basic (.time x) = .basic (.time value) :=
      (equal_time_iff value (.basic (.time x))).mp hcell
    cases heq
    simp [minMaxLookup, hlower, hupper]
  | less =>
    have hlt := (less_time_iff value x).mp hcell
    simp [minMaxLookup, Int64.lt_of_le_of_lt hlower hlt]
  | lessEqual =>
    have hle := (lessEqual_time_iff value x).mp hcell
    simp [minMaxLookup, Int64.le_trans hlower hle]
  | greater =>
    have hlt := (less_time_iff x value).mp hcell
    simp [minMaxLookup, Int64.lt_of_lt_of_le hlt hupper]
  | greaterEqual =>
    have hle := (lessEqual_time_iff x value).mp hcell
    simp [minMaxLookup, Int64.le_trans hle hupper]
  | _ => cases hop

omit [BloomFilters] [Regex] in
/-- Whether a time point of the list lies in the interval. -/
theorem exists_minMaxMember (lower upper : Int64) (literals : List Data) :
    ∃ answer, minMaxMember lower upper (.list literals) = some answer ∧
      (answer = true ↔ ∃ x, .basic (.time x) ∈ literals ∧ lower ≤ x ∧ x ≤ upper) := by
  refine ⟨_, rfl, ?_⟩
  rw [List.any_eq_true]
  constructor
  · rintro ⟨literal, hliteral, hlookup⟩
    split at hlookup
    next x => exact ⟨x, hliteral, by simpa [minMaxLookup] using hlookup⟩
    · cases hlookup
  · rintro ⟨x, hx, hint⟩
    exact ⟨_, hx, by simpa [minMaxLookup] using hint⟩

omit [BloomFilters] in
theorem evaluate_notIn_time (value : Int64) (literals : List Data) :
    evaluate .notIn (.basic (.time value)) (.list literals) = true ↔
      .basic (.time value) ∉ literals := by
  rw [evaluate, Bool.not_eq_true', ← member_time_iff, Bool.not_eq_true]

omit [BloomFilters] in
theorem evaluate_notEqual_time (value x : Int64) :
    evaluate .notEqual (.basic (.time value)) (.basic (.time x)) = true ↔ value ≠ x := by
  rw [evaluate, Bool.not_eq_true', ← Bool.not_eq_true, equal_time_iff]
  simp [eq_comm]

omit [BloomFilters] [Regex] in
/-- A listed time point of the interval makes the synopsis deny that a value is not listed. -/
theorem notIn_sound_iff (lower upper : Int64) (values : List Int64) (literals : List Data) :
    (∀ value ∈ values, .basic (.time value) ∉ literals →
      (minMaxMember lower upper (.list literals)).map not ≠ some false) ↔
    ∀ x, .basic (.time x) ∈ literals → lower ≤ x ∧ x ≤ upper →
      ∀ value ∈ values, .basic (.time value) ∈ literals := by
  obtain ⟨answer, hanswer, hiff⟩ := exists_minMaxMember lower upper literals
  rw [hanswer]
  constructor
  · intro hsound x hx hinterval value hvalue
    by_contra hmem
    apply hsound value hvalue hmem
    rw [hiff.mpr ⟨x, hx, hinterval⟩]
    rfl
  · intro hreliable value hvalue hmem hfalse
    have htrue : answer = true := by simpa using hfalse
    obtain ⟨x, hx, hinterval⟩ := hiff.mp htrue
    exact hmem (hreliable x hx hinterval value hvalue)

/-- The synopsis denies nothing that a value satisfies if and only if its answer to
a negative operator can be relied on. -/
theorem minMax_soundFor_iff (op : RelationalOperator)
    (rhs : Data) : (filled min max values).SoundFor op rhs ↔ Reliable min max values op rhs := by
  obtain ⟨-, hreceived, lower, upper, hstate, hbounds⟩ := filled_holds min max values
  have hinside : ∀ value ∈ values, lower ≤ value ∧ value ≤ upper := fun value hvalue =>
    ⟨(hbounds value).1.mpr (Or.inr ⟨value, hvalue, Int64.le_refl value⟩),
      (hbounds value).2.mpr (Or.inr ⟨value, hvalue, Int64.le_refl value⟩)⟩
  have hspans : ∀ x, Spans min max values x ↔ lower ≤ x ∧ x ≤ upper := fun x =>
    and_congr (hbounds x).1.symm (hbounds x).2.symm
  rw [Synopsis.SoundFor, hreceived, List.forall_mem_map]
  simp only [lookup, hstate]
  cases op with
  | «in» =>
    simp only [Reliable, iff_true]
    intro value hvalue hcell
    cases rhs with
    | list literals =>
      obtain ⟨answer, hanswer, hiff⟩ := exists_minMaxMember lower upper literals
      have hmem := (member_time_iff value literals).mp hcell
      rw [hanswer, hiff.mpr ⟨value, hmem, hinside value hvalue⟩]
      simp
    | _ => simp [minMaxMember]
  | notIn =>
    cases rhs with
    | list literals =>
      simp only [Reliable, evaluate_notIn_time, hspans]
      exact notIn_sound_iff lower upper values literals
    | _ => simp [minMaxMember, Reliable]
  | ni | notNi => simp [Reliable]
  | notEqual =>
    cases rhs with
    | basic literal =>
      cases literal with
      | time x =>
        have hlookup : some (minMaxLookup lower upper .notEqual x) ≠ some false ↔
            ¬ (lower ≤ x ∧ x ≤ upper) := by
          simp [minMaxLookup]
        simp only [Reliable, evaluate_notEqual_time, hspans, hlookup]
        constructor
        · intro hsound hinterval value hvalue
          by_contra hne
          exact hsound value hvalue hne hinterval
        · exact fun hreliable value hvalue hne hinterval =>
            hne (hreliable hinterval value hvalue)
      | _ => simp [Reliable]
    | _ => simp [Reliable]
  | equal | less | lessEqual | greater | greaterEqual =>
    refine iff_of_true (fun value hvalue hcell => ?_) trivial
    dsimp only
    split
    next x =>
      rw [lookup_comparison (hinside value hvalue).1 (hinside value hvalue).2 rfl hcell]
      simp
    · simp

end MinMaxSynopsis

omit [BloomFilters] [Regex]

/-- No string matches a pattern. -/
@[reducible]
def CatalogState.noRegex : Regex where
  valid := fun _ => true
  fullMatch := fun _ _ => false
  search := fun _ _ => false

namespace MinMaxSynopsis

/-- Between two values, the synopsis denies that a value differs. -/
theorem minMax_denies_notEqual :
    ¬ @Synopsis.SoundFor PartitionSynopsis.exactFilters CatalogState.noRegex
      (filled maxValue minValue [4, 8]) .notEqual (.basic (.time 5)) := by
  decide

end MinMaxSynopsis

end Vast
