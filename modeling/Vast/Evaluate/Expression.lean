import Vast.Core.Expression
import Vast.Evaluate.Cell
import Vast.Foundation.Bitmap
import Vast.Table.Slice

/-! # Evaluating an expression on a table slice

The evaluation carries a selection of ids through the expression: a conjunction
narrows it operand by operand, a disjunction hands each operand what the ones
before it have left over, and a negation removes what its operand selects. The
result is what a row-wise reading of the expression says about the selected
rows.
-/

namespace Vast

open Foundation List Connective Bitmap Bool TableSlice

namespace Evaluate

variable [Regex] (slice : TableSlice) {selection : Bitmap} {property : List Data → Bool}

def firstId : Nat :=
  slice.offset.getD 0

def size : Nat :=
  firstId slice + slice.rows.length

def rowAt (id : Nat) : List Data :=
  slice.rows.getD (id - firstId slice) []

/-- Meta extractors are compared once per slice. -/
def evaluateMetaExtractor (kind : MetaExtractor) (op : RelationalOperator) (rhs : Data) : Bool :=
  match kind with
  | .type => Cell.evaluate op (.basic (.string slice.schema.name)) rhs
  | .importTime => Cell.evaluate op (.basic (.time slice.importTime)) rhs

/-- The comparison of a column with a literal in one row. -/
def evaluateCell (column : Nat) (op : RelationalOperator) (rhs : Data) (row : List Data) : Bool :=
  match (RecordType.leaves slice.schema.fields)[column]? with
  | some leaf => Cell.column op leaf.type (TableSlice.cell row column) rhs
  | none => false

def noIds : Bitmap :=
  List.replicate (size slice) false

def evaluateColumn (column : Nat) (op : RelationalOperator) (rhs : Data) (selection : Bitmap) :
    Bitmap :=
  (List.range (size slice)).map fun id =>
    selection.test id && evaluateCell slice column op rhs (rowAt slice id)

def evaluatePredicate (predicate : Predicate) (selection : Bitmap) : Bitmap :=
  match predicate.lhs, predicate.rhs with
  | .metaExtractor kind, .data rhs =>
    if !selection.any then selection
    else if evaluateMetaExtractor slice kind predicate.op rhs then selection
    else noIds slice
  | .dataExtractor _ column, .data rhs =>
    if !selection.any then noIds slice
    else evaluateColumn slice column predicate.op rhs selection
  -- The program dies on predicates that are not bound to the slice.
  | _, _ => noIds slice

mutual

def evaluateExpression : Expression → Bitmap → Bitmap
  | .none, _ => noIds slice
  | .negation operand, selection => selection.xor (evaluateExpression operand selection)
  | .conjunction operands, selection => evaluateConjunction operands selection
  | .disjunction operands, selection => evaluateDisjunction operands selection selection
  | .predicate predicate, selection => evaluatePredicate slice predicate selection

def evaluateConjunction : List Expression → Bitmap → Bitmap
  | [], selection => selection
  | operand :: rest, selection =>
    if !selection.any then selection
    else evaluateConjunction rest (evaluateExpression operand selection)

/-- The mask holds the selected ids that no operand has matched yet. -/
def evaluateDisjunction : List Expression → Bitmap → Bitmap → Bitmap
  | [], selection, mask => selection.and mask.flip
  | operand :: rest, selection, mask =>
    if !mask.any then selection
    else evaluateDisjunction rest selection
      (mask.and (evaluateExpression operand mask).flip)

end

/-- The ids to look at: all rows, or those that a non-empty bitmap of hints names. -/
def initialSelection (hints : Bitmap) : Bitmap :=
  (List.range (size slice)).map fun id =>
    decide (firstId slice ≤ id) && (hints.isEmpty || hints.test id)

def evaluate (expression : Expression) (hints : Bitmap) : Bitmap :=
  evaluateExpression slice expression (initialSelection slice hints)

/-! ## The row-wise reading -/

def predicateHolds (predicate : Predicate) (row : List Data) : Bool :=
  match predicate.lhs, predicate.rhs with
  | .metaExtractor kind, .data rhs => evaluateMetaExtractor slice kind predicate.op rhs
  | .dataExtractor _ column, .data rhs => evaluateCell slice column predicate.op rhs row
  | _, _ => false

mutual

def holds (row : List Data) : Expression → Bool
  | .none => false
  | .negation operand => !holds row operand
  | .conjunction operands => holdsAll row operands
  | .disjunction operands => holdsAny row operands
  | .predicate predicate => predicateHolds slice predicate row

def holdsAll (row : List Data) : List Expression → Bool
  | [] => true
  | operand :: rest => holds row operand && holdsAll row rest

def holdsAny (row : List Data) : List Expression → Bool
  | [] => false
  | operand :: rest => holds row operand || holdsAny row rest

end

theorem holdsAll_eq (row : List Data) (operands : List Expression) :
    holdsAll slice row operands = operands.all (holds slice row) := by
  induction operands with
  | nil => rfl
  | cons operand rest ih => rw [holdsAll, ih, all_cons]

theorem holdsAny_eq (row : List Data) (operands : List Expression) :
    holdsAny slice row operands = operands.any (holds slice row) := by
  induction operands with
  | nil => rfl
  | cons operand rest ih => rw [holdsAny, ih, any_cons]

theorem holds_apply (row : List Data) (kind : Connective) (operands : List Expression) :
    holds slice row (kind.apply operands) = kind.combine (operands.map (holds slice row)) := by
  cases kind with
  | all => rw [apply, holds, combine, holdsAll_eq, all_map, Function.id_comp]
  | any => rw [apply, holds, combine, holdsAny_eq, any_map, Function.id_comp]

omit [Regex] in
theorem test_map_range (count : Nat) (f : Nat → Bool) (id : Nat) :
    test ((range count).map f) id = (decide (id < count) && f id) := by
  rw [test]
  by_cases hid : id < count
  · simp [hid]
  · simp [hid]

/-- A bitmap over the ids of the slice that restricts a selection to the rows with
a property. -/
structure Restricts (selection result : Bitmap) (property : List Data → Bool) : Prop where
  length_eq : result.length = size slice
  test_eq : ∀ id, result.test id = (selection.test id && property (rowAt slice id))

omit [Regex] in
theorem restricts_noIds (hnone : ∀ id, (selection.test id && property (rowAt slice id)) = false) :
    Restricts slice selection (noIds slice) property where
  length_eq := length_replicate
  test_eq := by
    intro id
    rw [hnone, noIds, test_replicate_false]

theorem evaluatePredicate_restricts (predicate : Predicate) (hlen : selection.length = size slice) :
    Restricts slice selection (evaluatePredicate slice predicate selection)
      (predicateHolds slice predicate) := by
  unfold evaluatePredicate predicateHolds
  split
  next kind rhs _ _ =>
    by_cases hany : selection.any = true
    · simp only [hany, Bool.not_true, Bool.false_eq_true, if_false]
      split
      next hmatch => exact ⟨hlen, fun id => by simp [hmatch]⟩
      next hmatch => exact restricts_noIds slice (by simp [hmatch])
    · rw [Bool.not_eq_true] at hany
      simp only [hany]
      exact ⟨hlen, fun id => by simp [test_of_not_any hany id]⟩
  next type column rhs _ _ =>
    by_cases hany : selection.any = true
    · simp only [hany, Bool.not_true, Bool.false_eq_true, if_false]
      refine ⟨by simp [evaluateColumn], fun id => ?_⟩
      rw [evaluateColumn, test_map_range]
      cases htest : selection.test id with
      | false => simp
      | true => simp [hlen ▸ lt_length_of_test htest]
    · rw [Bool.not_eq_true] at hany
      simp only [hany]
      exact restricts_noIds slice (fun id => by simp [test_of_not_any hany id])
  · exact restricts_noIds slice (by simp)

section

omit [Regex]

variable {slice} {mask result : Bitmap} {other : List Data → Bool}

theorem Restricts.trans (hmask : Restricts slice selection mask property)
    (hres : Restricts slice mask result other) :
    Restricts slice selection result fun row => property row && other row where
  length_eq := hres.length_eq
  test_eq id := by rw [hres.test_eq, hmask.test_eq, Bool.and_assoc]

/-- What an operand matches is removed from the mask. -/
theorem Restricts.and_flip (hres : Restricts slice mask result property)
    (hlen : mask.length = size slice) :
    Restricts slice mask (mask.and result.flip) fun row => !property row where
  length_eq := by rw [length_and, length_flip, hres.length_eq, hlen, max_self]
  test_eq id := by
    rw [test_and]
    cases htest : mask.test id with
    | false => rfl
    | true =>
      have hlt := lt_length_of_test htest
      rw [test_flip (by rw [hres.length_eq]; omega), hres.test_eq, htest]
      rfl

end

mutual

theorem evaluateExpression_restricts {selection : Bitmap} (hlen : selection.length = size slice) :
    ∀ expr : Expression, Restricts slice selection (evaluateExpression slice expr selection)
        (fun row => holds slice row expr)
  | .none => by
    rw [evaluateExpression]
    exact restricts_noIds slice (by simp [holds])
  | .negation operand => by
    have hop := evaluateExpression_restricts hlen operand
    rw [evaluateExpression]
    refine ⟨?_, fun id => ?_⟩
    · rw [combines_xor.length, hlen, hop.length_eq, max_self]
    · rw [test_xor, hop.test_eq, holds]
      cases selection.test id <;> simp
  | .conjunction operands => by
    rw [evaluateExpression]
    simp only [holds]
    exact evaluateConjunction_restricts hlen operands
  | .disjunction operands => by
    rw [evaluateExpression]
    simp only [holds]
    have hmask : Restricts slice selection selection fun _ => !false := ⟨hlen, by simp⟩
    have hall := evaluateDisjunction_restricts hlen (fun _ => false) hmask operands
    simpa only [Bool.false_or] using hall
  | .predicate predicate => by
    rw [evaluateExpression]
    simp only [holds]
    exact evaluatePredicate_restricts slice predicate hlen

theorem evaluateConjunction_restricts {selection : Bitmap} (hlen : selection.length = size slice) :
    ∀ operands : List Expression,
      Restricts slice selection (evaluateConjunction slice operands selection)
        (fun row => holdsAll slice row operands)
  | [] => ⟨hlen, fun id => by simp [evaluateConjunction, holdsAll]⟩
  | operand :: rest => by
    rw [evaluateConjunction]
    by_cases hany : selection.any = true
    · have hhead := evaluateExpression_restricts hlen operand
      have htail := evaluateConjunction_restricts hhead.length_eq rest
      simp only [hany, Bool.not_true, Bool.false_eq_true, if_false, holdsAll]
      exact hhead.trans htail
    · rw [not_eq_true] at hany
      simp only [hany, Bool.not_false, if_true]
      exact ⟨hlen, fun id => by simp [test_of_not_any hany id]⟩

/-- The mask is what the operands so far have left of the selection. -/
theorem evaluateDisjunction_restricts {selection : Bitmap}
    (hlen : selection.length = size slice) (matched : List Data → Bool) {mask : Bitmap}
    (hmask : Restricts slice selection mask fun row => !matched row) :
    ∀ operands : List Expression,
      Restricts slice selection (evaluateDisjunction slice operands selection mask)
        (fun row => matched row || holdsAny slice row operands)
  | [] => by
    have hflip := hmask.and_flip hlen
    simpa only [evaluateDisjunction, holdsAny, Bool.not_not, Bool.or_false] using hflip
  | operand :: rest => by
    rw [evaluateDisjunction]
    by_cases hany : mask.any = true
    · have hhead := evaluateExpression_restricts hmask.length_eq operand
      have hleft := hmask.trans (hhead.and_flip hmask.length_eq)
      simp only [← Bool.not_or] at hleft
      simp only [hany, Bool.not_true, Bool.false_eq_true, if_false]
      simpa only [holdsAny, Bool.or_assoc] using evaluateDisjunction_restricts hlen _ hleft rest
    · rw [not_eq_true] at hany
      simp only [hany, Bool.not_false, if_true]
      refine ⟨hlen, fun id => ?_⟩
      have hleft := hmask.test_eq id
      rw [test_of_not_any hany id, eq_comm, and_eq_false_iff] at hleft
      rcases hleft with hsel | hmatched
      · rw [hsel, Bool.false_and]
      · rw [not_eq_false_eq_eq_true] at hmatched
        rw [hmatched, Bool.true_or, Bool.and_true]

end

omit [Regex] in
theorem length_initialSelection (hints : Bitmap) :
    (initialSelection slice hints).length = size slice := by
  simp [initialSelection]

theorem length_evaluate (expr : Expression) (hints : Bitmap) :
    (evaluate slice expr hints).length = size slice :=
  (evaluateExpression_restricts slice (length_initialSelection slice hints) expr).length_eq

omit [Regex] in
theorem rowAt_mem {id : Nat} (hfirst : firstId slice ≤ id) (hsize : id < size slice) :
    rowAt slice id ∈ slice.rows := by
  have hlt : id - firstId slice < slice.rows.length := by
    rw [size] at hsize
    omega
  rw [rowAt, getD_eq_getElem?_getD, getElem?_eq_getElem hlt]
  exact getElem_mem hlt

/-- A row is selected when it is among the hints, if any, and matches. -/
theorem test_evaluate (expr : Expression) (hints : Bitmap) (id : Nat) :
    (evaluate slice expr hints).test id =
      (decide (id < size slice) && (decide (firstId slice ≤ id) &&
          (hints.isEmpty || hints.test id)) && holds slice (rowAt slice id) expr) := by
  rw [evaluate, (evaluateExpression_restricts slice (length_initialSelection ..) expr).test_eq,
    initialSelection, test_map_range]

theorem evaluate_congr {first second : Expression}
    (hholds : ∀ row ∈ slice.rows, holds slice row first = holds slice row second)
    (hints : Bitmap) : evaluate slice first hints = evaluate slice second hints := by
  apply ext
  · rw [length_evaluate, length_evaluate]
  · intro id
    rw [test_evaluate, test_evaluate]
    by_cases hid : firstId slice ≤ id ∧ id < size slice
    · rw [hholds _ (rowAt_mem slice hid.1 hid.2)]
    · rw [not_and_or, not_le, not_lt] at hid
      rcases hid with hfirst | hsize
      · simp [not_le.mpr hfirst]
      · simp [not_lt.mpr hsize]

/-- The evaluation is compositional: however the selection is narrowed on the way, the result
has the ids of the slice that are among the hints and whose rows match, and what a row says
about a predicate is what the predicate yields for the whole slice. -/
theorem evaluate_compositional (expr : Expression) (hints : Bitmap) :
    (evaluate slice expr hints).length = firstId slice + slice.rows.length ∧
      (∀ id, (evaluate slice expr hints).test id = true ↔
        (firstId slice ≤ id ∧ id < firstId slice + slice.rows.length) ∧
          (hints ≠ [] → hints.test id = true) ∧ holds slice (rowAt slice id) expr = true) ∧
      ∀ predicate id, firstId slice ≤ id → id < firstId slice + slice.rows.length →
        predicateHolds slice predicate (rowAt slice id) =
          (evaluatePredicate slice predicate (initialSelection slice [])).test id := by
  refine ⟨length_evaluate slice expr hints, fun id => ?_, fun predicate id hfirst hsize => ?_⟩
  · rw [test_evaluate, and_eq_true, and_eq_true, and_eq_true, or_eq_true,
      decide_eq_true_eq, decide_eq_true_eq, List.isEmpty_iff, or_iff_not_imp_left, size]
    tauto
  · rw [(evaluatePredicate_restricts slice predicate (length_initialSelection ..)).test_eq,
      initialSelection, test_map_range, size, decide_eq_true hsize, decide_eq_true hfirst]
    rfl

/-! ## Complementary operators -/

theorem evaluate_negate {op : RelationalOperator} (hop : op = .equal ∨ op = .in ∨ op = .ni)
    (cell rhs : Data) : Cell.evaluate op.negate cell rhs = !Cell.evaluate op cell rhs := by
  rcases hop with rfl | rfl | rfl <;> rfl

/-- Of an operator and its complement, a column that is not null yields exactly one, unless a
container operator is applied to nil or a label is not one of the enumeration. Then it yields
neither. -/
theorem column_marks_exactly_one_iff {column : Nat} {leaf : Leaf (List String)}
    (hleaf : (RecordType.leaves slice.schema.fields)[column]? = some leaf)
    {op : RelationalOperator} (hop : op = .equal ∨ op = .in ∨ op = .ni) (rhs : Data)
    {selection : Bitmap} {id : Nat} (hid : id < size slice) (hsel : selection.test id = true)
    (hcell : cell (rowAt slice id) column ≠ .none) :
    Xor ((evaluateColumn slice column op rhs selection).test id = true)
        ((evaluateColumn slice column op.negate rhs selection).test id = true) ↔
      (rhs = .none → op = .equal) ∧ ∀ fields name, rhs = .basic (.string name) →
        leaf.type.resolveTransparent = .enumeration fields →
          (VastType.resolveEnumeration fields name).isSome = true := by
  have htest op : (evaluateColumn slice column op rhs selection).test id =
      Cell.column op leaf.type (cell (rowAt slice id) column) rhs := by
    rw [evaluateColumn, test_map_range, decide_eq_true hid, hsel, evaluateCell, hleaf]
    rfl
  have hxor (rhs : Data) : Xor (Cell.evaluate op (cell (rowAt slice id) column) rhs =
      true) (Cell.evaluate op.negate (cell (rowAt slice id) column) rhs = true) := by
    rw [evaluate_negate hop, not_eq_true', ← not_eq_true]
    exact xor_not_right.mpr Iff.rfl
  rw [htest, htest]
  generalize cell (rowAt slice id) column = cell at hcell hxor
  have hbne : (cell != .none) = true := bne_iff_ne.mpr hcell
  unfold Cell.column
  split
  next =>
    -- Nil only has the operators of equality.
    rcases hop with rfl | rfl | rfl <;> simp [RelationalOperator.negate, hcell]
  next rhs hrhs =>
    split
    next fields name htype =>
      cases hname : VastType.resolveEnumeration fields name with
      | none => simp [htype, hname]
      | some key => simpa [htype, hname, hbne] using hxor _
    next hother =>
      rw [hbne]
      exact iff_of_true (hxor _) ⟨fun heq => absurd heq hrhs,
        fun fields name hname htype => (hother fields name htype hname).elim⟩

def enumerationSlice : TableSlice where
  schema := .record [("x", .enumeration [("a", 0)])]
  offset := none
  importTime := 0
  rows := [[.basic (.enumeration 0)]]
  typed := by decide

omit [Regex]

/-- A label of the enumeration is equal to the cell or not. -/
theorem label_marks_exactly_one :
    let := literalRegex
    let marks op := (evaluateColumn enumerationSlice 0 op (.basic (.string "a")) [true]).test 0
    Xor (marks .equal = true) (marks .notEqual = true) := by
  intro _ marks
  refine (column_marks_exactly_one_iff enumerationSlice rfl (Or.inl rfl) _ (by decide) rfl
    (by decide)).mpr ⟨nofun, fun fields name hname htype => ?_⟩
  cases hname
  cases htype
  rfl

/-- A label that the enumeration does not have is neither equal nor unequal to a value. -/
theorem unknown_label_marks_none :
    let := literalRegex
    let marks op := evaluateColumn enumerationSlice 0 op (.basic (.string "b")) [true]
    marks .equal = [false] ∧ marks .notEqual = [false] :=
  ⟨rfl, rfl⟩

end Evaluate

end Vast
