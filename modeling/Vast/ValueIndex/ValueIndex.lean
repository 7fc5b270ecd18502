import Vast.Core.Data
import Vast.Core.Operator
import Vast.Foundation.Bitmap

/-! # Value indexes

A value index maps values to the positions of a column that have them. The base class
keeps nil values and the positions of the other values, and leaves the rest to an
implementation. Positions need not be contiguous: a value may be appended at any
position behind the previous ones.
-/

namespace Vast

open Foundation List Bitmap

/-- Why a lookup fails. -/
inductive IndexError where
  | unsupportedOperator (op : RelationalOperator)
  | typeClash (x : Data)
  | invalidSubnetLength (length : Nat)
  deriving DecidableEq

inductive AppendError where
  | beforeEnd (pos offset : Nat)
  | appendImpl
  deriving DecidableEq

/-- The positions of values that are not nil, the positions of nil values, and the
state of the implementation. -/
structure ValueIndex (σ : Type) where
  mask : Bitmap
  none : Bitmap
  impl : σ

namespace ValueIndex

variable {σ : Type} {x : Data} {pos : Nat} {i : Nat}

def empty (impl : σ) : ValueIndex σ where
  mask := []
  none := []
  impl := impl

variable (index : ValueIndex σ)

def offset : Nat :=
  max index.none.length index.mask.length

/-- The virtual functions. Appending says whether it succeeded. -/
structure Implementation (σ : Type) where
  appendImpl : σ → Data → Nat → Bool × σ
  lookupImpl : ValueIndex σ → RelationalOperator → Data → Except IndexError Bitmap

variable (impl : Implementation σ)

def appendValue (index : ValueIndex σ) (x : Data) (pos : Nat) :
    Except AppendError Unit × ValueIndex σ :=
  match impl.appendImpl index.impl x pos with
  | (false, state) => (.error .appendImpl, { index with impl := state })
  | (true, state) => (.ok (), { index with mask := index.mask.mark pos, impl := state })

def append (index : ValueIndex σ) (x : Data) (pos : Nat) : Except AppendError Unit × ValueIndex σ :=
  if pos < index.offset then (.error (.beforeEnd pos index.offset), index)
  else
    match x with
    | .none => (.ok (), { index with none := index.none.mark pos })
    | x => appendValue impl index x pos

variable (op : RelationalOperator)

/-- Nil values are looked up without the implementation. -/
def lookupNil : Except IndexError Bitmap :=
  match op with
  | .equal => .ok (index.none.fill false index.mask.length)
  | .notEqual => .ok (Bitmap.fill index.none.flip true index.mask.length)
  | op => .error (.unsupportedOperator op)

/-- The answer of the implementation is restricted to values. Nil values differ from
all others. -/
def restrict (answer : Bitmap) : Bitmap :=
  let result := answer.and index.mask
  let isNegation := op == .notEqual
  let result := if isNegation then Bitmap.or result index.none else result
  Bitmap.fill result isNegation index.offset

/-- The lookup with the answer of the implementation, which is not asked about nil. -/
def dispatch (x : Data) (answer : Except IndexError Bitmap) : Except IndexError Bitmap :=
  match x with
  | .none => index.lookupNil op
  | _ => answer.map (index.restrict op)

def lookup (index : ValueIndex σ) (op : RelationalOperator) (x : Data) : Except IndexError Bitmap :=
  index.dispatch op x (impl.lookupImpl index op x)

/-! ## Histories -/

/-- An index together with the values that were appended. -/
structure History (σ : Type) where
  index : ValueIndex σ
  appended : List (Data × Nat)

namespace History

/-- A call that fails appends nothing, but the implementation may have changed. -/
def record (history : History σ) (call : Data × Nat)
    (outcome : Except AppendError Unit × ValueIndex σ) : History σ where
  index := outcome.2
  appended :=
    match outcome.1 with
    | .ok _ => history.appended ++ [call]
    | .error _ => history.appended

def step (impl : Implementation σ) (history : History σ) (call : Data × Nat) : History σ :=
  history.record call (append impl history.index call.1 call.2)

def run (impl : Implementation σ) (initial : σ) (calls : List (Data × Nat)) : History σ :=
  calls.foldl (step impl) ⟨ValueIndex.empty initial, []⟩

end History

/-- What a call of `append` does: it fails or it appends at a position behind the
others. -/
inductive Appends (impl : Implementation σ) (history : History σ) (x : Data) (pos : Nat) :
    History σ → Prop where
  | fail (state : σ)
      (hstate : state = history.index.impl ∨
        history.index.offset ≤ pos ∧ impl.appendImpl history.index.impl x pos = (false, state)) :
      Appends impl history x pos ⟨{ history.index with impl := state }, history.appended⟩
  | nil (hpos : history.index.offset ≤ pos) (hx : x = .none) : Appends impl history x pos
      ⟨{ history.index with none := history.index.none.mark pos }, history.appended ++ [(x, pos)]⟩
  | value (state : σ) (hpos : history.index.offset ≤ pos) (hx : x ≠ .none)
      (hstate : impl.appendImpl history.index.impl x pos = (true, state)) :
      Appends impl history x pos
        ⟨{ history.index with mask := history.index.mask.mark pos, impl := state },
          history.appended ++ [(x, pos)]⟩

variable {impl : Implementation σ} {history : History σ}

theorem appends_value (hpos : history.index.offset ≤ pos) (hx : x ≠ .none) :
    Appends impl history x pos
      (history.record (x, pos) (appendValue impl history.index x pos)) := by
  rcases hres : impl.appendImpl history.index.impl x pos with ⟨succeeded, state⟩
  rw [appendValue, hres]
  cases succeeded with
  | false => exact Appends.fail state (Or.inr ⟨hpos, hres⟩)
  | true => exact Appends.value state hpos hx hres

theorem appends_step (impl : Implementation σ) (history : History σ) (call : Data × Nat) :
    Appends impl history call.1 call.2 (history.step impl call) := by
  obtain ⟨x, pos⟩ := call
  unfold History.step append
  split
  next hlt => exact Appends.fail history.index.impl (Or.inl rfl)
  next hge =>
    have hpos := Nat.le_of_not_lt hge
    cases x with
    | none => exact Appends.nil hpos rfl
    | basic _ | list _ | map _ | record _ => exact appends_value hpos nofun

/-- An invariant that every kind of call keeps holds of all histories. -/
theorem History.invariant {initial : σ} (inv : History σ → Prop)
    (hempty : inv ⟨empty initial, []⟩)
    (hstep : ∀ history x pos next, inv history → Appends impl history x pos next → inv next)
    (calls : List (Data × Nat)) : inv (run impl initial calls) := by
  apply foldlRecOn calls _ hempty
  intro history hinv call _
  exact hstep history call.1 call.2 _ hinv (appends_step impl history call)

/-- The bitmaps have the positions of the appended values. -/
structure Recorded (history : History σ) : Prop where
  mask_iff : ∀ i, history.index.mask.test i = true ↔
    ∃ x, (x, i) ∈ history.appended ∧ x ≠ .none
  none_iff : ∀ i, history.index.none.test i = true ↔ (.none, i) ∈ history.appended
  disjoint : ∀ i, history.index.mask.test i = true → history.index.none.test i = false

theorem Recorded.appends {history next : History σ} (hrec : Recorded history)
    (happends : Appends impl history x pos next) : Recorded next := by
  cases happends with
  | fail state _ => exact ⟨hrec.mask_iff, hrec.none_iff, hrec.disjoint⟩
  | nil hpos hx =>
    have hlen : history.index.none.length ≤ pos :=
      le_trans (le_max_left _ _) hpos
    subst hx
    constructor
    · intro i
      rw [hrec.mask_iff]
      simp only [mem_append, mem_singleton, Prod.mk.injEq]
      constructor
      · intro ⟨x, hmem, hne⟩
        exact ⟨x, Or.inl hmem, hne⟩
      · intro ⟨x, hmem, hne⟩
        exact ⟨x, hmem.resolve_right fun heq => hne heq.1, hne⟩
    · intro i
      rw [test_mark hlen, Bool.or_eq_true, hrec.none_iff]
      simp
    · intro i hi
      have hlt : i < pos :=
        lt_of_lt_of_le (lt_length_of_test hi)
          (le_trans (le_max_right _ _) hpos)
      rw [test_mark hlen, hrec.disjoint i hi, decide_eq_false (ne_of_lt hlt), Bool.false_or]
  | value state hpos hx _ =>
    have hlen : history.index.mask.length ≤ pos :=
      le_trans (le_max_right _ _) hpos
    constructor
    · intro i
      rw [test_mark hlen, Bool.or_eq_true, decide_eq_true_eq, hrec.mask_iff]
      simp only [mem_append, mem_singleton, Prod.mk.injEq]
      constructor
      · intro hmarked
        rcases hmarked with ⟨y, hmem, hne⟩ | rfl
        · exact ⟨y, Or.inl hmem, hne⟩
        · exact ⟨x, Or.inr ⟨rfl, rfl⟩, hx⟩
      · intro ⟨y, hmem, hne⟩
        rcases hmem with hmem | ⟨-, rfl⟩
        · exact Or.inl ⟨y, hmem, hne⟩
        · exact Or.inr rfl
    · intro i
      rw [hrec.none_iff]
      simp [Ne.symm hx]
    · intro i hi
      rw [test_mark hlen, Bool.or_eq_true, decide_eq_true_eq] at hi
      rcases hi with hmask | rfl
      · exact hrec.disjoint i hmask
      · exact test_of_length_le (le_trans (le_max_left _ _) hpos)

theorem recorded_run (impl : Implementation σ) (initial : σ) (calls : List (Data × Nat)) :
    Recorded (History.run impl initial calls) := by
  apply History.invariant Recorded
  · constructor <;> simp [empty]
  · exact fun history x pos next hrec happends => hrec.appends happends

/-! ## Lookups -/

variable {index : ValueIndex σ}

/-- The positions of nil values are looked up, or all others. -/
theorem lookupNil_equal (index : ValueIndex σ) :
    ∃ result, index.lookupNil .equal = .ok result ∧ result.length = index.offset ∧
      ∀ i, result.test i = index.none.test i := by
  refine ⟨_, rfl, length_fill, fun i => test_fill_false⟩

theorem lookupNil_notEqual (index : ValueIndex σ) :
    ∃ result, index.lookupNil .notEqual = .ok result ∧ result.length = index.offset ∧
      ∀ i < index.offset, result.test i = !index.none.test i := by
  refine ⟨_, rfl, ?_, ?_⟩
  · rw [length_fill, length_flip]
    rfl
  · intro i hi
    rcases lt_or_ge i index.none.length with hlt | hge
    · rw [fill, test_append_left (by rwa [length_flip]), test_flip hlt]
    · have hmask : i < index.mask.length := by
        rw [offset] at hi
        omega
      rw [test_fill_true_of_length_le (by rwa [length_flip]) hmask,
        test_of_length_le hge, Bool.not_false]

/-- The restricted answer of the implementation has the bits of values, and those of nil
values for `!=`. It is only as long as the index if the answer is not longer. -/
theorem test_restrict (op : RelationalOperator) (answer : Bitmap) (i : Nat) :
    (index.restrict op answer).test i = ((answer.test i && index.mask.test i) ||
      (decide (op = .notEqual) && index.none.test i)) := by
  by_cases hop : op = .notEqual
  · -- With the nil values the result is complete.
    have hlen : index.offset ≤ (or (answer.and index.mask) index.none).length := by
      rw [length_or, length_and, offset]
      omega
    simp [restrict, hop, fill_of_length_le hlen, test_or, test_and]
  · have hnegation : (op == .notEqual) = false := by simpa using hop
    simp [restrict, hnegation, hop, test_fill_false, test_and]

theorem length_restrict (op : RelationalOperator) (answer : Bitmap) :
    (index.restrict op answer).length = max answer.length index.offset := by
  simp only [restrict, length_fill]
  split
  · rw [length_or, length_and, offset]
    omega
  · rw [length_and, offset]
    omega

theorem lookup_of_ne_none {op : RelationalOperator} (hx : x ≠ .none) :
    index.lookup impl op x = (impl.lookupImpl index op x).map (index.restrict op) := by
  cases x with
  | none => exact absurd rfl hx
  | basic _ | list _ | map _ | record _ => rfl

/-- A lookup has a bit for each position of the index, and bits are set only at positions
where a value was appended. -/
def Sound (history : History σ) (result : Bitmap) : Prop :=
  result.length = history.index.offset ∧
    ∀ i, result.test i = true → ∃ value, (value, i) ∈ history.appended

/-- Every position of the index has a value. -/
def Contiguous (history : History σ) : Prop :=
  ∀ i < history.index.offset, ∃ value, (value, i) ∈ history.appended

theorem Recorded.exists_of_none (hrec : Recorded history)
    (htest : history.index.none.test i = true) : ∃ value, (value, i) ∈ history.appended :=
  ⟨.none, (hrec.none_iff i).mp htest⟩

/-- Looking up `!= nil` has a bit for every position that has no nil value, whether it
has another value or none at all. -/
theorem sound_lookupNil_iff (hrec : Recorded history) (op : RelationalOperator) :
    (∀ result, history.index.lookupNil op = .ok result → Sound history result) ↔
      (op = .notEqual → Contiguous history) := by
  cases op with
  | equal =>
    refine iff_of_true ?_ nofun
    intro result hlookup
    obtain ⟨_, heq, hlen, htest⟩ := lookupNil_equal history.index
    cases heq.symm.trans hlookup
    refine ⟨hlen, fun i hi => hrec.exists_of_none ?_⟩
    rw [← htest, hi]
  | notEqual =>
    obtain ⟨result, heq, hlen, htest⟩ := lookupNil_notEqual history.index
    constructor
    · intro hsound _ i hi
      by_cases hnone : history.index.none.test i = true
      · exact hrec.exists_of_none hnone
      · apply (hsound result heq).2 i
        rw [htest i hi, Bool.eq_false_of_not_eq_true hnone, Bool.not_false]
    · intro hcontiguous result' hlookup
      cases heq.symm.trans hlookup
      refine ⟨hlen, fun i hi => hcontiguous rfl i ?_⟩
      rw [← hlen]
      exact lt_length_of_test hi
  | «in» | notIn | ni | notNi | less | lessEqual | greater | greaterEqual =>
    exact iff_of_true nofun nofun

/-- The restricted answer of an implementation is sound unless it is too long. -/
theorem sound_restrict_iff (hrec : Recorded history) (op : RelationalOperator) (answer : Bitmap) :
    Sound history (history.index.restrict op answer) ↔ answer.length ≤ history.index.offset := by
  rw [Sound, length_restrict]
  constructor
  · omega
  · intro hle
    refine ⟨max_eq_right hle, ?_⟩
    intro i hi
    rw [test_restrict, Bool.or_eq_true, Bool.and_eq_true, Bool.and_eq_true] at hi
    rcases hi with ⟨-, hmask⟩ | ⟨-, hnone⟩
    · obtain ⟨value, hmem, -⟩ := (hrec.mask_iff _).mp hmask
      exact ⟨value, hmem⟩
    · exact hrec.exists_of_none hnone

/-- A lookup of a value is sound if the implementation does not answer about positions
that the index does not have yet. A lookup of nil is sound, except for `!=` on an index
with gaps. -/
theorem lookup_sound_iff (impl : Implementation σ) (initial : σ) (calls : List (Data × Nat))
    (op : RelationalOperator) (x : Data) :
    let history := History.run impl initial calls
    (∀ result, history.index.lookup impl op x = .ok result → Sound history result) ↔
      (x = .none → op = .notEqual → Contiguous history) ∧
      (x ≠ .none → ∀ answer, impl.lookupImpl history.index op x = .ok answer →
        answer.length ≤ history.index.offset) := by
  intro history
  have hrecorded : Recorded history := recorded_run impl initial calls
  by_cases hx : x = .none
  · subst hx
    simp only [forall_const, ne_eq, not_true_eq_false, false_implies, and_true]
    exact sound_lookupNil_iff hrecorded op
  · simp only [hx, false_implies, true_and, ne_eq, not_false_eq_true, forall_const]
    rw [lookup_of_ne_none hx]
    constructor
    · intro hsound answer hanswer
      rw [← sound_restrict_iff hrecorded op]
      apply hsound
      rw [hanswer]
      rfl
    · intro hshort result hresult
      cases hanswer : impl.lookupImpl history.index op x with
      | error e => rw [hanswer] at hresult; cases hresult
      | ok answer =>
        rw [hanswer] at hresult
        cases hresult
        exact (sound_restrict_iff hrecorded op answer).mpr (hshort answer hanswer)

/-- A value at position 0 and a nil value at position 3: the positions between them are
returned for `!= nil`. -/
theorem notEqual_nil_returns_gap :
    let impl : Implementation Unit :=
      { appendImpl := fun state _ _ => (true, state)
        lookupImpl := fun _ _ x => .error (.typeClash x) }
    let history := History.run impl () [(.basic (.bool true), 0), (.none, 3)]
    history.appended = [(.basic (.bool true), 0), (.none, 3)] ∧
      history.index.lookup impl .notEqual .none = .ok [true, true, true, false] ∧
      ¬ Sound history [true, true, true, false] := by
  intro impl history
  have happended : history.appended = [(.basic (.bool true), 0), (.none, 3)] := by decide
  refine ⟨happended, by rfl, ?_⟩
  intro hsound
  obtain ⟨value, hmem⟩ := hsound.2 1 rfl
  rw [happended] at hmem
  simp at hmem

end ValueIndex

end Vast
