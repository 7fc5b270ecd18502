import Mathlib.Data.String.Basic
import Vast.Catalog.BloomFilter
import Vast.Catalog.Completeness

/-! # Buffered synopses and the filters they shrink to

A buffer answers from the set of its values, the Bloom filter made of it from
bits. Both answer equality and membership in a list only. The buffer reads the
literals of a list as values of its type without a check. The filter skips what is
not of its type, although a pattern in a list matches strings.
-/

namespace Vast

open Foundation List Cell Synopsis Data

namespace BufferedSynopsis

inductive Kind where
  | string
  | ip
  deriving DecidableEq

def Kind.type : Kind → BasicType
  | .string => .string
  | .ip => .ip

abbrev Element (kind : Kind) :=
  { value : BasicData // value.type = some kind.type }

def filled (kind : Kind) (p : UInt64) (values : List (Element kind)) : Synopsis :=
  (values.map Subtype.val).foldl Synopsis.add (Synopsis.empty kind.type (.buffered p []))

/-- The elements of a list are values of the type up to one that was added, if an
added value is in the list. -/
def Readable [Regex] (kind : Kind) (values : List (Element kind)) :
    RelationalOperator → Data → Prop
  | .in, .list literals =>
    (∃ value ∈ values, Cell.member (.basic value.1) (.list literals) = true) →
      ∃ before value after, literals = before ++ .basic value.1 :: after ∧ value ∈ values ∧
        ∀ literal ∈ before, ∃ element : Element kind, literal = .basic element.1
  | _, _ => True

/-! ## Buffers -/

/-- A buffer holds exactly the values that were added. -/
theorem exists_filled_state (kind : Kind) (p : UInt64) (values : List (Element kind)) :
    (filled kind p values).type = kind.type ∧
      (filled kind p values).received = values.map Subtype.val ∧
      ∃ data, (filled kind p values).state = .buffered p data ∧
        ∀ value, value ∈ data ↔ value ∈ values.map Subtype.val := by
  induction values using reverseRecOn with
  | nil => exact ⟨rfl, rfl, [], rfl, by simp⟩
  | append_singleton values value ih =>
    obtain ⟨htype, hrecv, data, hstate, hmem⟩ := ih
    rw [filled, map_append, foldl_append, ← filled]
    have hvalue : value.1.type = some (filled kind p values).type := by
      rw [htype]
      exact value.2
    rw [map_singleton, foldl_cons, add, dif_pos hvalue]
    refine ⟨htype, by simp [hrecv], _,
      congrArg (SynopsisState.add value.1) hstate, fun other => ?_⟩
    by_cases hknown : value.1 ∈ data
    · rw [if_pos hknown, mem_append, mem_singleton, ← hmem]
      exact ⟨Or.inl, fun hcases => hcases.elim (fun h => h) fun heq => heq ▸ hknown⟩
    · rw [if_neg hknown, mem_append, mem_append, hmem]

variable {value : BasicData} {type : BasicType}

section Scan

variable {kind : Kind} {data : List BasicData} {values : List (Element kind)}

theorem get_eq_ok_iff {literal : Data} :
    Synopsis.get type literal = .ok value ↔ literal = .basic value ∧ value.type = some type := by
  cases literal with
  | basic other =>
    simp only [Synopsis.get, basic.injEq]
    split
    next htype =>
      simp only [Except.ok.injEq]
      constructor
      · rintro rfl
        exact ⟨rfl, htype⟩
      · exact fun h => h.1
    next htype =>
      simp only [reduceCtorEq, false_iff]
      rintro ⟨rfl, h⟩
      exact htype h
  | _ => simp [Synopsis.get]

/-- The loop finds a value if and only if it can read the literals up to one that
the buffer has. -/
theorem scan_eq_true_iff (hmem : ∀ value, value ∈ data ↔ value ∈ values.map Subtype.val)
    (literals : List Data) : scan kind.type data literals = .ok true ↔
      ∃ before value after, literals = before ++ .basic value.1 :: after ∧ value ∈ values ∧
        ∀ literal ∈ before, ∃ element : Element kind, literal = .basic element.1 := by
  induction literals with
  | nil => simp [scan]
  | cons literal rest ih =>
    rw [scan]
    constructor
    · intro hscan
      split at hscan
      · cases hscan
      next value hget =>
        obtain ⟨rfl, htype⟩ := get_eq_ok_iff.mp hget
        split at hscan
        next hdata =>
          obtain ⟨element, helem, rfl⟩ := mem_map.mp ((hmem value).mp hdata)
          exact ⟨[], element, rest, rfl, helem, by simp⟩
        · obtain ⟨before, element, after, rfl, helem, hbefore⟩ := ih.mp hscan
          refine ⟨.basic value :: before, element, after, rfl, helem, ?_⟩
          exact forall_mem_cons.mpr ⟨⟨⟨value, htype⟩, rfl⟩, hbefore⟩
    · rintro ⟨before, element, after, heq, helem, hbefore⟩
      cases before with
      | nil =>
        obtain ⟨rfl, rfl⟩ := cons.inj heq
        rw [get_eq_ok_iff.mpr ⟨rfl, element.2⟩]
        exact if_pos ((hmem element.1).mpr (mem_map_of_mem helem))
      | cons head tail =>
        obtain ⟨rfl, rfl⟩ := cons.inj heq
        obtain ⟨⟨⟨value, htype⟩, rfl⟩, htail⟩ := forall_mem_cons.mp hbefore
        rw [get_eq_ok_iff.mpr ⟨rfl, htype⟩]
        simp only
        split
        · rfl
        · exact ih.mpr ⟨tail, element, after, rfl, helem, htail⟩

end Scan

/-! ## Filters -/

variable {kind : Kind} {p : UInt64}

section Filter

variable {family : HashFamily} {parameters : BloomFilterParameters} {elements : List BasicData}

theorem foldl_add_bloomFilter {synopsis : Synopsis}
    (hstate : synopsis.state = .bloomFilter parameters elements) {values : List BasicData}
    (htyped : ∀ value ∈ values, value.type = some synopsis.type) :
    (values.foldl add synopsis).state = .bloomFilter parameters (elements ++ values) := by
  induction values generalizing synopsis elements with
  | nil => rw [append_nil, foldl_nil, hstate]
  | cons value rest ih =>
    rw [forall_mem_cons] at htyped
    have hadd : (synopsis.add value).state = .bloomFilter parameters (elements ++ [value]) := by
      rw [add, dif_pos htyped.1]
      exact congrArg (SynopsisState.add value) hstate
    rw [foldl_cons, ih hadd, append_assoc, singleton_append]
    rw [add_type]
    exact htyped.2

theorem exists_shrunk_state {values : List (Element kind)} {shrunk : Synopsis}
    (hshrink : @shrink family.bloomFilters (filled kind p values) = some shrunk) :
    shrunk.type = kind.type ∧ ∃ parameters elements,
      shrunk.state = .bloomFilter parameters elements ∧
      ∀ value ∈ values, family.bloomFilters.contains parameters elements value.1 = true := by
  obtain ⟨htype, -, data, hstate, hmem⟩ := exists_filled_state kind p values
  refine ⟨(@shrink_type family.bloomFilters _ _ hshrink).trans htype, ?_⟩
  simp only [shrink, hstate] at hshrink
  split at hshrink
  next hmakes =>
    cases hshrink
    refine ⟨_, [] ++ data, foldl_add_bloomFilter rfl ?_, fun value hvalue => ?_⟩
    · intro value hvalue
      obtain ⟨element, -, rfl⟩ := mem_map.mp ((hmem value).mp hvalue)
      rw [htype]
      exact element.2
    · exact family.contains_of_mem hmakes ((hmem _).mpr (mem_map_of_mem hvalue))
  · cases hshrink

/-- A literal that the filter has keeps the answer from being no. -/
theorem bloomFilterMember_ne_false {literals : List Data} (hvalue : .basic value ∈ literals)
    (htype : value.type = some type)
    (hcontains : family.bloomFilters.contains parameters elements value = true) :
    @bloomFilterMember family.bloomFilters type parameters elements literals ≠
      some false := by
  induction literals with
  | nil => simp at hvalue
  | cons literal rest ih =>
    rcases mem_cons.mp hvalue with rfl | hrest
    · simp only [bloomFilterMember]
      rw [if_pos ⟨htype, hcontains⟩]
      simp
    · cases literal with
      | none => simp [bloomFilterMember]
      | basic other =>
        simp only [bloomFilterMember]
        split
        · simp
        · exact ih hrest
      | _ => exact ih hrest

end Filter

/-! ## Soundness -/

section Sound

variable [Regex]

/-- A value that satisfies a predicate is denied neither by the buffer, whose lookup
is defined, nor by the filter that it shrinks to. -/
def SoundUnderShrinking (family : HashFamily) (synopsis : Synopsis) (op : RelationalOperator)
    (rhs : Data) : Prop :=
  ∀ value ∈ synopsis.received, Cell.evaluate op (.basic value) rhs = true →
    (∀ p data, synopsis.state = .buffered p data →
      ∃ answer, Synopsis.bufferedLookup synopsis.type data op rhs = .ok answer ∧
        answer ≠ some false) ∧
    ∀ shrunk, @Synopsis.shrink family.bloomFilters synopsis = some shrunk →
      @Synopsis.lookup family.bloomFilters shrunk op rhs ≠ some false

theorem equal_element_iff (value : Element kind) (rhs : Data) :
    equal (.basic value.1) rhs = true ↔ rhs = .basic value.1 ∨
      ∃ text pattern, value.1 = .string text ∧ rhs = .basic (.pattern pattern) ∧
        Regex.fullMatch pattern text = true := by
  obtain ⟨value, htype⟩ := value
  cases kind with
  | string =>
    cases value with
    | string text =>
      cases rhs with
      | basic literal =>
        cases literal with
        | string other =>
          simp only [equal, BasicData.compare, beq_iff_eq, Option.some.injEq,
            Std.LawfulEqCmp.compare_eq_iff_eq, basic.injEq, BasicData.string.injEq,
            reduceCtorEq, false_and, and_false, exists_false, or_false]
          exact eq_comm
        | pattern pattern => simp [equal]
        | _ => simp [equal, BasicData.compare, BasicData.toInt, BasicData.toDouble]
      | _ => simp [equal, same]
    | _ => cases htype
  | ip =>
    cases value with
    | ip bytes =>
      cases rhs with
      | basic literal =>
        cases literal with
        | ip other =>
          simp only [equal, BasicData.compare, beq_iff_eq, Option.some.injEq,
            Nat.compare_eq_eq, BitVec.toNat_inj, basic.injEq, BasicData.ip.injEq,
            reduceCtorEq, false_and, exists_false, or_false]
          exact eq_comm
        | _ => simp [equal, BasicData.compare, BasicData.toInt, BasicData.toDouble]
      | _ => simp [equal, same]
    | _ => cases htype

/-- Equality is answered by none, or by yes for a value that was added. -/
theorem sound_equal {family : HashFamily} {values : List (Element kind)} {value : Element kind}
    (hvalue : value ∈ values) {rhs : Data} (hequal : equal (.basic value.1) rhs = true)
    {data : List BasicData} (hmem : ∀ value, value ∈ data ↔ value ∈ values.map Subtype.val) :
    (∃ answer, bufferedLookup kind.type data .equal rhs = .ok answer ∧
      answer ≠ some false) ∧
    ∀ shrunk, @Synopsis.shrink family.bloomFilters (filled kind p values) = some shrunk →
      @Synopsis.lookup family.bloomFilters shrunk .equal rhs ≠ some false := by
  rcases (equal_element_iff value rhs).mp hequal with rfl | ⟨text, pattern, htext, rfl, -⟩
  · have hpattern : Synopsis.isStringPattern kind.type value.1 = false := by
      obtain ⟨value, htype⟩ := value
      cases value <;> first | rfl | cases htype
    constructor
    · refine ⟨some true, ?_, by simp⟩
      have hdata : value.1 ∈ data := (hmem _).mpr (mem_map_of_mem hvalue)
      simp [Synopsis.bufferedLookup, Synopsis.isPatternFor, hpattern, Synopsis.get, value.2,
        Except.map, hdata]
    · intro shrunk hshrunk
      obtain ⟨htype, parameters, elements, hstate, hcontains⟩ := exists_shrunk_state hshrunk
      have hcontained := hcontains value hvalue
      simp only [Synopsis.lookup, hstate, htype, value.2, hcontained]
      simp
  · have hkind : kind = .string := by
      obtain ⟨value, htype⟩ := value
      cases htext
      cases kind with
      | string => rfl
      | ip => cases htype
    subst hkind
    constructor
    · exact ⟨none, rfl, by simp⟩
    · intro shrunk hshrunk
      obtain ⟨htype, parameters, elements, hstate, -⟩ := exists_shrunk_state hshrunk
      simp only [Synopsis.lookup, hstate, htype]
      simp [isStringPattern, Kind.type]

/-- Buffer and filter deny nothing that a value satisfies if and only if lists can
be read up to an added value. -/
theorem buffered_sound_iff (family : HashFamily) (kind : Kind) (p : UInt64)
    (values : List (Element kind)) (op : RelationalOperator) (rhs : Data) :
    SoundUnderShrinking family (filled kind p values) op rhs ↔ Readable kind values op rhs := by
  obtain ⟨htype, hreceived, data, hstate, hmem⟩ := exists_filled_state kind p values
  have hbuffer : SoundUnderShrinking family (filled kind p values) op rhs ↔
      ∀ value ∈ values, evaluate op (.basic value.1) rhs = true →
        (∃ answer, bufferedLookup kind.type data op rhs = .ok answer ∧
          answer ≠ some false) ∧
        ∀ shrunk, @Synopsis.shrink family.bloomFilters (filled kind p values) = some shrunk →
          @Synopsis.lookup family.bloomFilters shrunk op rhs ≠ some false := by
    rw [SoundUnderShrinking, hreceived, hstate, htype]
    simp
  rw [hbuffer]
  cases op with
  | equal =>
    exact iff_of_true (fun value hvalue hequal => sound_equal hvalue hequal hmem) trivial
  | «in» =>
    have hother : ∀ shrunk,
        @Synopsis.shrink family.bloomFilters (filled kind p values) = some shrunk →
        (∀ literals, rhs ≠ .list literals) →
        @Synopsis.lookup family.bloomFilters shrunk .in rhs ≠ some false := by
      intro shrunk hshrunk hlist
      obtain ⟨-, parameters, elements, hshrunkState, -⟩ := exists_shrunk_state hshrunk
      simp only [Synopsis.lookup, hshrunkState]
      cases rhs <;> simp at hlist ⊢
    cases rhs with
    | list literals =>
      rw [Readable, ← scan_eq_true_iff hmem]
      constructor
      · rintro hsound ⟨value, hvalue, hmember⟩
        obtain ⟨⟨answer, hanswer, hne⟩, -⟩ := hsound value hvalue hmember
        simp only [bufferedLookup] at hanswer
        cases hscan : scan kind.type data literals with
        | error undefined => simp [hscan, Except.map] at hanswer
        | ok found =>
          cases found with
          | true => rfl
          | false =>
            simp only [hscan, Except.map, Except.ok.injEq] at hanswer
            exact absurd hanswer.symm hne
      · intro hreadable value hvalue hmember
        have hscan := hreadable ⟨value, hvalue, hmember⟩
        refine ⟨⟨some true, by simp [bufferedLookup, hscan, Except.map], by simp⟩, ?_⟩
        intro shrunk hshrunk
        obtain ⟨htype, parameters, elements, hshrunkState, hcontains⟩ :=
          exists_shrunk_state hshrunk
        obtain ⟨before, found, after, rfl, hfound, -⟩ := (scan_eq_true_iff hmem _).mp hscan
        simp only [Synopsis.lookup, hshrunkState, htype]
        exact bloomFilterMember_ne_false (by simp) found.2 (hcontains found hfound)
    | _ =>
      exact iff_of_true (fun value hvalue _ => ⟨⟨none, rfl, by simp⟩,
        fun shrunk hshrunk => hother shrunk hshrunk (by simp)⟩) trivial
  | _ =>
    refine iff_of_true (fun value hvalue _ => ⟨⟨none, rfl, by simp⟩, ?_⟩) trivial
    intro shrunk hshrunk
    obtain ⟨-, parameters, elements, hshrunkState, -⟩ := exists_shrunk_state hshrunk
    simp only [Synopsis.lookup, hshrunkState]
    simp

end Sound

/-! ## An instance -/

/-- Patterns that match their own text only. -/
@[reducible]
def literalRegex : Regex where
  valid := fun _ => true
  fullMatch := fun pattern text => decide (pattern = text)
  search := fun pattern text => decide (pattern.toList <:+: text.toList)

/-- Filters with eight bits and a hash function without merit. -/
def smallFamily : HashFamily where
  parse := fun _ => none
  evaluate := fun _ => some (8, 2)
  hash := fun seed _ => seed

/-- A string is in a list with a pattern that matches it. The filter skips the
pattern and denies that, and the buffer reads the pattern as a string. -/
theorem pattern_in_list_is_denied : @Cell.evaluate literalRegex .in (.basic (.string "foo"))
        (.list [.basic (.pattern "foo")]) = true ∧
      bufferedLookup .string [.string "foo"] .in (.list [.basic (.pattern "foo")]) =
        .error .wrongAlternative ∧ (∃ shrunk, @Synopsis.shrink smallFamily.bloomFilters
          (filled .string 0 [⟨.string "foo", rfl⟩]) = some shrunk ∧
        @Synopsis.lookup smallFamily.bloomFilters shrunk .in
          (.list [.basic (.pattern "foo")]) = some false) ∧
      ¬ @SoundUnderShrinking literalRegex smallFamily (filled .string 0 [⟨.string "foo", rfl⟩]) .in
        (.list [.basic (.pattern "foo")]) := by
  refine ⟨by decide, by decide, ⟨_, rfl, by decide⟩, fun hsound => ?_⟩
  exact (hsound (.string "foo") (by decide) (by decide)).2 _ rfl (by decide)

end BufferedSynopsis

end Vast
