import Vast.Table.Slice

/-! # Synopses

A synopsis summarises the values of a column or of all columns of a type. It
answers a predicate with a definite yes or no, or not at all. While a partition
is filled, strings and addresses are buffered in full; shrinking turns a buffer
into a Bloom filter that receives the buffered values again.
-/

namespace Vast

open List

/-- The expected number of elements and the false positive rate, as the bits of a
double. The size of the filter and the number of hash functions follow from
these two. -/
structure BloomFilterParameters where
  n : UInt64
  p : UInt64
  deriving DecidableEq

/-- What is used of Bloom filters: the parameters in the text of an attribute,
whether parameters make a filter, and membership for the added elements, which
depends on the hash functions. -/
class BloomFilters where
  parse : String → Option BloomFilterParameters
  makes : BloomFilterParameters → Bool
  contains : BloomFilterParameters → List BasicData → BasicData → Bool

/-- What happens when a literal is read as a value of a type that it does not
have. -/
inductive Undefined where
  | wrongAlternative
  deriving DecidableEq

inductive SynopsisState where
  | bool (anyTrue anyFalse : Bool)
  | minMax (min max : Int64)
  | buffered (p : UInt64) (data : List BasicData)
  | bloomFilter (parameters : BloomFilterParameters) (elements : List BasicData)
  deriving DecidableEq

namespace SynopsisState

def add (value : BasicData) : SynopsisState → SynopsisState
  | .bool anyTrue anyFalse =>
    match value with
    | .bool true => .bool true anyFalse
    | .bool false => .bool anyTrue true
    | _ => .bool anyTrue anyFalse
  | .minMax min max =>
    match value with
    | .time count =>
      .minMax (if count < min then count else min) (if max < count then count else max)
    | _ => .minMax min max
  -- The buffer is a set.
  | .buffered p data => .buffered p (if value ∈ data then data else data ++ [value])
  | .bloomFilter parameters elements => .bloomFilter parameters (elements ++ [value])

end SynopsisState

/-- A synopsis for values of a basic type, with the values that it has received
through `add`. The values have the type, and a buffer retains what it has
received. -/
structure Synopsis where
  type : BasicType
  state : SynopsisState
  received : List BasicData
  typed : ∀ value ∈ received, value.type = some type
  retained : ∀ p data, state = .buffered p data → received ⊆ data

namespace Synopsis

variable {received : List BasicData}

theorem retained_add {state : SynopsisState}
    (hretained : ∀ p data, state = .buffered p data → received ⊆ data) (value : BasicData) :
    ∀ p data, state.add value = .buffered p data → received ++ [value] ⊆ data := by
  intro p data hstate
  cases state with
  | bool anyTrue anyFalse | minMax min max =>
    simp only [SynopsisState.add] at hstate
    split at hstate <;> cases hstate
  | bloomFilter parameters elements => cases hstate
  | buffered rate buffer =>
    simp only [SynopsisState.add, SynopsisState.buffered.injEq] at hstate
    obtain ⟨-, rfl⟩ := hstate
    have hbuffer := hretained rate buffer rfl
    split
    next hmem => exact append_subset.mpr ⟨hbuffer, by simpa using hmem⟩
    · apply append_subset.mpr
      exact ⟨Subset.trans hbuffer (subset_append_left _ _), subset_append_right _ _⟩

variable {value : BasicData}

theorem typed_add {type : BasicType} (htyped : ∀ value ∈ received, value.type = some type)
    (hvalue : value.type = some type) : ∀ v ∈ received ++ [value], v.type = some type := by
  intro v hv
  rcases mem_append.mp hv with hold | hnew
  · exact htyped v hold
  · rwa [mem_singleton.mp hnew]

/-- Add a value. Every synopsis asserts that the value has its type. -/
def add (synopsis : Synopsis) (value : BasicData) : Synopsis :=
  if htype : value.type = some synopsis.type then
    { synopsis with
      state := synopsis.state.add value
      received := synopsis.received ++ [value]
      typed := typed_add synopsis.typed htype
      retained := retained_add synopsis.retained value }
  else synopsis

def empty (type : BasicType) (state : SynopsisState) : Synopsis where
  type := type
  state := state
  received := []
  typed := by simp
  retained := by simp

theorem add_type (synopsis : Synopsis) (value : BasicData) :
    (synopsis.add value).type = synopsis.type := by
  unfold add
  split <;> rfl

variable {synopsis : Synopsis}

theorem foldl_add_type (synopsis : Synopsis) (values : List BasicData) :
    (values.foldl add synopsis).type = synopsis.type := by
  induction values generalizing synopsis with
  | nil => rfl
  | cons value values ih => rw [foldl_cons, ih, add_type]

theorem received_subset_foldl (synopsis : Synopsis) (values : List BasicData) :
    synopsis.received ⊆ (values.foldl add synopsis).received := by
  induction values generalizing synopsis with
  | nil => exact Subset.refl _
  | cons value values ih =>
    refine Subset.trans ?_ (ih _)
    unfold add
    split
    · exact subset_append_left _ _
    · exact Subset.refl _

theorem mem_received_foldl {values : List BasicData} (hvalue : value ∈ values)
    (htype : value.type = some synopsis.type) : value ∈ (values.foldl add synopsis).received := by
  induction values generalizing synopsis with
  | nil => simp at hvalue
  | cons head tail ih =>
    rcases mem_cons.mp hvalue with rfl | htail
    · exact received_subset_foldl _ tail (by simp [add, htype])
    · apply ih htail
      rwa [add_type]

/-- The non-null values of a column that are not containers. -/
def basicValues (values : List Data) : List BasicData :=
  values.filterMap fun value =>
    match value with
    | .basic value => some value
    | _ => none

def addColumn (synopsis : Synopsis) (values : List Data) : Synopsis :=
  (basicValues values).foldl add synopsis

/-- The synopsis has received a value through `add`. -/
def HasReceived (synopsis : Synopsis) (value : Data) : Prop :=
  ∃ element ∈ synopsis.received, value = .basic element

variable {value : Data}

theorem hasReceived_addColumn {values : List Data} {type : VastType}
    (htype : type.resolveTransparent = .basic synopsis.type)
    (hvalues : ∀ value ∈ values, type.admits value = true) (hvalue : value ∈ values)
    (hnull : value ≠ .none) : (synopsis.addColumn values).HasReceived value := by
  have hadmits := hvalues value hvalue
  cases value with
  | none => exact absurd rfl hnull
  | basic value =>
    refine ⟨value, mem_received_foldl ?_ ?_, rfl⟩
    · exact mem_filterMap.mpr ⟨.basic value, hvalue, rfl⟩
    · simpa [VastType.admits, htype] using hadmits
  | list values | map entries => simp [VastType.admits, htype] at hadmits
  | record fields => simp [VastType.admits] at hadmits

theorem HasReceived.addColumn (hrecv : synopsis.HasReceived value) (values : List Data) :
    (synopsis.addColumn values).HasReceived value := by
  obtain ⟨element, helem, rfl⟩ := hrecv
  exact ⟨element, received_subset_foldl synopsis _ helem, rfl⟩

/-! ## Lookup -/

/-- The comparison with an interval. Only these operators are passed on. -/
def minMaxLookup (min max : Int64) (op : RelationalOperator) (x : Int64) : Bool :=
  match op with
  | .equal => min ≤ x && x ≤ max
  | .notEqual => !(min ≤ x && x ≤ max)
  | .less => min < x
  | .lessEqual => min ≤ x
  | .greater => max > x
  | .greaterEqual => max ≥ x
  | _ => false

def minMaxMember (min max : Int64) : Data → Option Bool
  | .list values => some (values.any fun value =>
    match value with
    | .basic (.time count) => minMaxLookup min max .equal count
    | _ => false)
  | _ => none

section Lookup

variable [BloomFilters] {synopsis shrunk : Synopsis} {type : VastType}

/-- Whether an element of a list may be in the filter. A nil element makes the
answer unknown, and elements of other types are skipped. -/
def bloomFilterMember (type : BasicType) (parameters : BloomFilterParameters)
    (elements : List BasicData) : List Data → Option Bool
  | [] => some false
  | .none :: _ => none
  | .basic value :: rest =>
    if value.type = some type ∧ BloomFilters.contains parameters elements value = true then
      some true
    else bloomFilterMember type parameters elements rest
  | _ :: rest => bloomFilterMember type parameters elements rest

/-- Whether the literal is a pattern that is compared with strings. -/
def isStringPattern (type : BasicType) : BasicData → Bool
  | .pattern _ => type == .string
  | _ => false

def get (type : BasicType) : Data → Except Undefined BasicData
  | .basic value => if value.type = some type then .ok value else .error .wrongAlternative
  | _ => .error .wrongAlternative

/-- Whether the buffer has a literal of the list. The loop ends at the first one. -/
def scan (type : BasicType) (data : List BasicData) : List Data → Except Undefined Bool
  | [] => .ok false
  | literal :: rest =>
    match get type literal with
    | .error undefined => .error undefined
    | .ok value => if value ∈ data then .ok true else scan type data rest

/-- Whether a literal is a pattern that strings are compared with. -/
def isPatternFor (type : BasicType) : Data → Bool
  | .basic literal => isStringPattern type literal
  | _ => false

/-- The lookup of a buffer as the program does it, without a check of the type. -/
def bufferedLookup (type : BasicType) (data : List BasicData) (op : RelationalOperator)
    (rhs : Data) : Except Undefined (Option Bool) :=
  match op with
  | .equal =>
    if isPatternFor type rhs then .ok none
    else (get type rhs).map fun value => some (decide (value ∈ data))
  | .in =>
    match rhs with
    | .list literals => (scan type data literals).map some
    | _ => .ok none
  | _ => .ok none

/-- Whether the literal is read as what it is. -/
def reads (synopsis : Synopsis) (op : RelationalOperator) (rhs : Data) : Bool :=
  match synopsis.state with
  | .buffered _ data => (bufferedLookup synopsis.type data op rhs).isOk
  | _ => true

/-- The answer to a predicate, if the synopsis has one. -/
def lookup (synopsis : Synopsis) (op : RelationalOperator) (rhs : Data) : Option Bool :=
  match synopsis.state with
  | .bool anyTrue anyFalse =>
    match op, rhs with
    | .equal, .basic (.bool b) => some (if b then anyTrue else anyFalse)
    | .notEqual, .basic (.bool b) => some (if b then anyFalse else anyTrue)
    | _, _ => none
  | .minMax min max =>
    match op with
    | .in => minMaxMember min max rhs
    | .notIn => (minMaxMember min max rhs).map not
    | .ni | .notNi => none
    | op =>
      match rhs with
      | .basic (.time count) => some (minMaxLookup min max op count)
      | _ => none
  | .buffered _ data =>
    match bufferedLookup synopsis.type data op rhs with
    | .ok answer => answer
    -- The behaviour is not defined.
    | .error _ => none
  | .bloomFilter parameters elements =>
    match op, rhs with
    | .equal, .none => none
    | .equal, .basic value =>
      if isStringPattern synopsis.type value then none
      else if value.type = some synopsis.type then
        some (BloomFilters.contains parameters elements value)
      else some false
    | .equal, _ => some false
    | .in, .list values => bloomFilterMember synopsis.type parameters elements values
    | _, _ => none

/-! ## Shrinking -/

/-- The smallest power of two that is at least the size, found by doubling. -/
def nextPowerOfTwo (size : Nat) : Nat :=
  go size 1
where
  go : Nat → Nat → Nat
    | 0, power => power
    | fuel + 1, power => if size > power then go fuel (power * 2) else power

/-- Replace a buffer by a Bloom filter that receives the buffered values. Other
synopses do not shrink. -/
def shrink (synopsis : Synopsis) : Option Synopsis :=
  match synopsis.state with
  | .buffered p data =>
    let parameters := ⟨UInt64.ofNat (nextPowerOfTwo data.length), p⟩
    if BloomFilters.makes parameters then
      some (data.foldl add (empty synopsis.type (.bloomFilter parameters [])))
    else none
  | _ => none

theorem shrink_type (hshrink : synopsis.shrink = some shrunk) : shrunk.type = synopsis.type := by
  unfold shrink at hshrink
  split at hshrink
  · simp only at hshrink
    split at hshrink
    · cases hshrink
      rw [foldl_add_type]
      rfl
    · cases hshrink
  · cases hshrink

theorem HasReceived.shrink {value : Data} (hrecv : synopsis.HasReceived value)
    (hshrink : synopsis.shrink = some shrunk) : shrunk.HasReceived value := by
  obtain ⟨element, helem, rfl⟩ := hrecv
  unfold Synopsis.shrink at hshrink
  split at hshrink
  next p data hstate =>
    simp only at hshrink
    split at hshrink
    · cases hshrink
      refine ⟨element, mem_received_foldl ?_ ?_, rfl⟩
      · exact synopsis.retained p data hstate helem
      · exact synopsis.typed element helem
    · cases hshrink
  · cases hshrink

/-! ## Construction -/

def emptyMinMax : SynopsisState :=
  .minMax Int64.maxValue Int64.minValue

/-- The synopsis of a string or address column. Parameters attached to the type
make a Bloom filter from the start; otherwise the values are buffered. -/
def makeBuffered (basic : BasicType) (type : VastType) (fpRate : UInt64) : Option Synopsis :=
  match (type.findAttribute "synopsis").bind fun text =>
      if text = "" then none else BloomFilters.parse text with
  | some parameters =>
    if BloomFilters.makes parameters then some (empty basic (.bloomFilter parameters []))
    else none
  | none => some (empty basic (.buffered fpRate []))

structure Options where
  stringFpRate : UInt64
  addressFpRate : UInt64

/-- The registered factories: addresses, booleans, strings, and time points. -/
def make (type : VastType) (options : Options) : Option Synopsis :=
  match type.resolveTransparent with
  | .basic .ip => makeBuffered .ip type options.addressFpRate
  | .basic .bool => some (empty .bool (.bool false false))
  | .basic .string => makeBuffered .string type options.stringFpRate
  | .basic .time => some (empty .time emptyMinMax)
  | _ => none

theorem makeBuffered_type {basic : BasicType} {fpRate : UInt64}
    (hmake : makeBuffered basic type fpRate = some synopsis) : synopsis.type = basic := by
  unfold makeBuffered at hmake
  split at hmake
  · split at hmake <;> cases hmake
    rfl
  · cases hmake
    rfl

/-- A synopsis is made for values of the basic type of its column. -/
theorem make_type {options : Options} (hmake : make type options = some synopsis) :
    type.resolveTransparent = .basic synopsis.type := by
  unfold make at hmake
  split at hmake
  next hbasic => rw [hbasic, makeBuffered_type hmake]
  next hbasic =>
    cases hmake
    exact hbasic
  next hbasic => rw [hbasic, makeBuffered_type hmake]
  next hbasic =>
    cases hmake
    exact hbasic
  · cases hmake

end Lookup

end Synopsis

end Vast
