import Mathlib.Data.Nat.Find
import Vast.Evaluate.Expression
import Vast.Foundation.Ascending
import Vast.Foundation.ItemRuns
import Vast.Query.Tailor

/-! # Selecting rows of a table slice

The ids of the rows that hints name and that satisfy an expression form a bitmap,
and every run of set bits becomes a slice of its own. The bitmap counts ids, the
record batch counts rows, and the new slices get ids again.
-/

namespace Vast

open Foundation List Bitmap Bool ItemRuns
open Evaluate

namespace TableSlice

def makeIds (first last : Nat) : Bitmap :=
  List.replicate first false ++ List.replicate (last - first) true

def rank (selection : Bitmap) : Nat :=
  selection.count true

def selectRuns (selection : Bitmap) : List (Nat × Nat) :=
  ItemRuns.runs id selection

variable (slice : TableSlice)

def cut (first last : Nat) : TableSlice where
  schema := slice.schema
  offset := some (firstId slice + first)
  importTime := slice.importTime
  rows := (slice.rows.drop (first - firstId slice)).take (last - first)
  typed := fun row hrow => slice.typed row (List.mem_of_mem_drop (List.mem_of_mem_take hrow))

/-- The ids of the rows that the hints name. An empty bitmap names all rows. -/
def hintedIds (hints : Bitmap) : Bitmap :=
  let sliceIds := makeIds (firstId slice) (firstId slice + slice.rows.length)
  if hints.isEmpty then sliceIds else sliceIds.and hints

/-- The slice itself if all its rows are selected, and a slice for every run of selected
rows otherwise. -/
def dice (selection : Bitmap) : List TableSlice :=
  if rank selection = slice.rows.length then [slice]
  else (selectRuns selection).map fun run => slice.cut run.1 run.2

variable [Regex]

variable (expression : Expression)

def select (hints : Bitmap) : List TableSlice :=
  let selection := slice.hintedIds hints
  if !selection.any then []
  else
    match expression with
    | .none => slice.dice selection
    | expression =>
      match tailor expression slice.schema with
      | .error _ => []
      | .ok tailored =>
        let selection := evaluate slice tailored selection
        if !selection.any then [] else slice.dice selection

/-! ## What is selected -/

/-- Whether a row satisfies an expression. The nil expression does not filter. -/
def satisfies (row : List Data) : Bool :=
  match expression with
  | .none => true
  | expression =>
    match tailor expression slice.schema with
    | .error _ => false
    | .ok tailored => holds slice row tailored

/-- Whether the hints name a row and it satisfies an expression. -/
def wanted (hints : Bitmap) (index : Nat) : Bool :=
  (hints.isEmpty || hints.test (firstId slice + index)) &&
    slice.satisfies expression (slice.rows.getD index [])

variable {slice} {property : Nat → Bool} {selection : Bitmap}

/-- A bitmap of the ids of the rows with a property. -/
def Selects (slice : TableSlice) (property : Nat → Bool) (selection : Bitmap) : Prop :=
  ∀ id, selection.test id = true ↔
    ∃ index < slice.rows.length, id = firstId slice + index ∧ property index = true

section

omit [Regex]

theorem test_makeIds (first last id : Nat) :
    (makeIds first last).test id = (decide (first ≤ id) && decide (id < last)) := by
  rw [makeIds, test, getD_eq_getElem?_getD]
  by_cases hid : id < first
  · rw [getElem?_append_left (by simpa using hid)]
    simp [Nat.not_le.mpr hid]
  · rw [getElem?_append_right (by simpa using hid)]
    by_cases hlast : id < last
    · simp [show id - first < last - first by omega, hlast, Nat.le_of_not_lt hid]
    · simp [show ¬id - first < last - first by omega, hlast]

theorem test_hintedIds (hints : Bitmap) (id : Nat) : (slice.hintedIds hints).test id =
      (decide (firstId slice ≤ id) && decide (id < size slice) &&
        (hints.isEmpty || hints.test id)) := by
  rw [hintedIds, size]
  cases hempty : hints.isEmpty with
  | true => simp [test_makeIds]
  | false => simp [test_and, test_makeIds]

/-- The ids of a slice are those of its rows. -/
theorem selects_of_test (htest : ∀ id, selection.test id =
    (decide (firstId slice ≤ id) && decide (id < size slice) && property (id - firstId slice))) :
    Selects slice property selection := by
  intro id
  rw [htest, size, and_eq_true, and_eq_true, decide_eq_true_eq, decide_eq_true_eq]
  constructor
  · rintro ⟨⟨hfirst, hsize⟩, hprop⟩
    exact ⟨id - firstId slice, by omega, by omega, hprop⟩
  · rintro ⟨index, hindex, rfl, hprop⟩
    rw [Nat.add_sub_cancel_left]
    exact ⟨⟨by omega, by omega⟩, hprop⟩

theorem selects_nil (hnone : ∀ index < slice.rows.length, property index = false) :
    Selects slice property [] := by
  intro id
  refine iff_of_false (by simp) ?_
  rintro ⟨index, hindex, -, hprop⟩
  rw [hnone index hindex] at hprop
  cases hprop

theorem any_iff (hsel : Selects slice property selection) :
    selection.any = true ↔ ∃ index < slice.rows.length, property index = true := by
  rw [any_iff_exists_test]
  constructor
  · rintro ⟨id, htest⟩
    obtain ⟨index, hindex, -, hprop⟩ := (hsel id).mp htest
    exact ⟨index, hindex, hprop⟩
  · rintro ⟨index, hindex, hprop⟩
    exact ⟨_, (hsel _).mpr ⟨index, hindex, rfl, hprop⟩⟩

end

theorem selects_hintedIds (slice : TableSlice) (hints : Bitmap) :
    Selects slice (slice.wanted .none hints) (slice.hintedIds hints) := by
  apply selects_of_test
  intro id
  rw [test_hintedIds, wanted]
  by_cases hfirst : firstId slice ≤ id
  · simp [satisfies, Nat.add_sub_cancel' hfirst]
  · simp [hfirst]

theorem wanted_of_tailored {expr tailored : Expression} (hexpr : expr ≠ .none)
    (htailored : tailor expr slice.schema = .ok tailored) (hints : Bitmap) (index : Nat) :
    slice.wanted expr hints index =
      (slice.wanted .none hints index && holds slice (slice.rows.getD index []) tailored) := by
  simp [wanted, satisfies, htailored]

section

variable (slice : TableSlice)

/-- The bitmap that is cut into runs names the wanted rows. -/
theorem select_eq (expr : Expression) (hints : Bitmap) :
    ∃ selection, Selects slice (slice.wanted expr hints) selection ∧
      slice.select expr hints = if !selection.any then [] else slice.dice selection := by
  have hhinted := selects_hintedIds slice hints
  unfold select
  cases hany : (slice.hintedIds hints).any with
  | false =>
    simp only [hany]
    refine ⟨[], selects_nil fun index hindex => ?_, rfl⟩
    have hnone : ¬(slice.wanted .none hints index = true) := fun hwanted =>
      absurd ((any_iff hhinted).mpr ⟨index, hindex, hwanted⟩) (by simp [hany])
    simp only [wanted, satisfies, Bool.and_true, Bool.not_eq_true] at hnone ⊢
    rw [hnone, Bool.false_and]
  | true =>
    simp only [hany]
    by_cases hexpr : expr = .none
    · subst hexpr
      exact ⟨_, hhinted, by simp [hany]⟩
    · cases htailored : tailor expr slice.schema with
      | error error =>
        refine ⟨[], selects_nil fun index _ => ?_, ?_⟩
        · simp [wanted, satisfies, htailored]
        · simp [htailored, Bitmap.any]
      | ok tailored =>
        refine ⟨evaluate slice tailored (slice.hintedIds hints), fun id => ?_, ?_⟩
        · have hne : (slice.hintedIds hints).isEmpty = false := by
            cases hids : slice.hintedIds hints with
            | nil => simp [hids, Bitmap.any] at hany
            | cons _ _ => rfl
          rw [test_evaluate, hne]
          constructor
          · intro hid
            simp only [Bool.and_eq_true] at hid
            obtain ⟨⟨-, -, htest⟩, hholds⟩ := hid
            obtain ⟨index, hindex, rfl, hwanted⟩ := (hhinted id).mp htest
            rw [rowAt, Nat.add_sub_cancel_left] at hholds
            exact ⟨index, hindex, rfl, by
              rw [wanted_of_tailored hexpr htailored, hwanted, hholds, Bool.true_and]⟩
          · rintro ⟨index, hindex, rfl, hwanted⟩
            rw [wanted_of_tailored hexpr htailored, Bool.and_eq_true] at hwanted
            have htest := (hhinted _).mpr ⟨index, hindex, rfl, hwanted.1⟩
            rw [htest, rowAt, Nat.add_sub_cancel_left, hwanted.2, size]
            simp [hindex]
        · simp [htailored]

/-! ## What is yielded -/

/-- A non-empty part of the rows, from a row on. -/
structure Piece (start : Nat) (piece : TableSlice) : Prop where
  schema_eq : piece.schema = slice.schema
  importTime_eq : piece.importTime = slice.importTime
  nonempty : 0 < piece.rows.length
  within : start + piece.rows.length ≤ slice.rows.length
  rows_eq : piece.rows = (slice.rows.drop start).take piece.rows.length

/-- Disjoint parts of a slice in ascending order that hold exactly the rows with a
property. Every part comes with the index of its first row. -/
structure Pieces (property : Nat → Bool) (pieces : List (Nat × TableSlice)) : Prop where
  piece : ∀ part ∈ pieces, Piece slice part.1 part.2
  ascending : pieces.Pairwise fun earlier later => earlier.1 + earlier.2.rows.length ≤ later.1
  exact : ∀ index < slice.rows.length, property index = true ↔
    ∃ part ∈ pieces, part.1 ≤ index ∧ index < part.1 + part.2.rows.length

/-- The offset of every part is the id of its first row. -/
def KeepsIds (pieces : List (Nat × TableSlice)) : Prop :=
  ∀ part ∈ pieces, part.2.offset = some (firstId slice + part.1)

end

section

omit [Regex]

theorem at_id_iff {index : Nat} : ItemRuns.At id selection index ↔ selection.test index = true := by
  rw [ItemRuns.At, test, getD_eq_getElem?_getD]
  cases selection[index]? with
  | none => simp
  | some bit => simp

/-- The runs of selected ids as parts of the slice. -/
def runPieces (slice : TableSlice) (selection : Bitmap) : List (Nat × TableSlice) :=
  (selectRuns selection).map fun run => (run.1 - firstId slice, slice.cut run.1 run.2)

theorem rank_eq_length_filter (selection : Bitmap) :
    rank selection = ((range selection.length).filter selection.test).length := by
  have hmap : selection = (range selection.length).map selection.test := by
    apply ext
    · simp
    · intro index
      rw [test_map_range]
      cases htest : selection.test index with
      | false => rw [Bool.and_false]
      | true => simp [lt_length_of_test htest]
  rw [rank, count, ← countP_eq_length_filter]
  conv_lhs => rw [hmap]
  rw [countP_map]
  exact countP_congr fun index _ => by simp

section

variable (hsel : Selects slice property selection) {run : Nat × Nat}

include hsel

theorem exists_row_of_run (hrun : run ∈ selectRuns selection) {id : Nat} (hge : run.1 ≤ id)
    (hlt : id < run.2) :
    ∃ index < slice.rows.length, id = firstId slice + index ∧ property index = true := by
  rw [← hsel, ← at_id_iff, (delimits_runs _ selection).exact id (Nat.zero_le _)]
  exact ⟨run, hrun, hge, hlt⟩

theorem run_bounds (hrun : run ∈ selectRuns selection) :
    firstId slice ≤ run.1 ∧ run.1 < run.2 ∧ run.2 ≤ firstId slice + slice.rows.length := by
  have hlt := (delimits_runs id selection).nonempty run hrun
  obtain ⟨first, -, hfirst, -⟩ := exists_row_of_run hsel hrun le_rfl hlt
  obtain ⟨last, hlast, hlasteq, -⟩ :=
    exists_row_of_run hsel hrun (Nat.le_sub_one_of_lt hlt) (Nat.sub_one_lt (by omega))
  exact ⟨by omega, hlt, by omega⟩

theorem length_cut (hrun : run ∈ selectRuns selection) :
    (slice.cut run.1 run.2).rows.length = run.2 - run.1 := by
  have hbounds := run_bounds hsel hrun
  rw [cut, length_take, length_drop]
  omega

theorem pieces_runPieces : Pieces slice property (runPieces slice selection) where
  piece := by
    rw [runPieces, forall_mem_map]
    intro run hrun
    have hbounds := run_bounds hsel hrun
    have hlen := length_cut hsel hrun
    refine ⟨rfl, rfl, ?_, ?_, ?_⟩ <;> dsimp only <;> rw [hlen]
    · omega
    · omega
    · rfl
  ascending := by
    rw [runPieces, pairwise_map]
    refine (delimits_runs id selection).ascending.imp_of_mem ?_
    intro earlier later hearlier hlater hlt
    have hbounds := run_bounds hsel hearlier
    rw [length_cut hsel hearlier]
    omega
  exact := by
    intro index hindex
    have hset : property index = true ↔ selection.test (firstId slice + index) = true := by
      rw [hsel]
      constructor
      · exact fun hprop => ⟨index, hindex, rfl, hprop⟩
      · rintro ⟨other, -, heq, hprop⟩
        rwa [Nat.add_left_cancel heq]
    rw [hset, ← at_id_iff, (delimits_runs id selection).exact _ (Nat.zero_le _)]
    simp only [runPieces, mem_map, exists_exists_and_eq_and]
    refine exists_congr fun run => and_congr_right fun hrun => ?_
    have hbounds := run_bounds hsel hrun
    rw [length_cut hsel hrun]
    omega

/-! ## Ranks -/

omit hsel in
/-- Ascending ids of the rows with a property are those of all these rows. -/
theorem ids_eq_map {ids : List Nat} (hids : Ascending id ids) (hmem : ∀ id, id ∈ ids ↔
      ∃ index < slice.rows.length, id = firstId slice + index ∧ property index = true) :
    ids = ((range slice.rows.length).filter property).map (firstId slice + ·) := by
  have hshifted : Ascending (firstId slice + ·) (range slice.rows.length) :=
    pairwise_lt_range.imp fun hlt => Nat.add_lt_add_left hlt _
  apply Ascending.ext hids ((hshifted.filter _).map fun _ => rfl)
  intro id
  simp only [hmem, mem_map, mem_filter, mem_range]
  exact exists_congr fun index => by tauto

theorem rank_eq : rank selection = ((range slice.rows.length).filter property).length := by
  have hrange : Ascending id (range selection.length) := pairwise_lt_range
  rw [rank_eq_length_filter, ids_eq_map (hrange.filter _), length_map]
  intro id
  rw [mem_filter, mem_range, and_iff_right_of_imp lt_length_of_test, hsel]

theorem rank_eq_rows_iff :
    rank selection = slice.rows.length ↔ ∀ index < slice.rows.length, property index = true := by
  have hall := length_filter_eq_length_iff (p := property) (l := range slice.rows.length)
  rw [length_range] at hall
  rw [rank_eq hsel, hall]
  simp

end

theorem pieces_nil (hnone : ∀ index < slice.rows.length, property index = false) :
    Pieces slice property [] where
  piece := by simp
  ascending := Pairwise.nil
  exact := fun index hindex => by simp [hnone index hindex]

theorem pieces_self (hrows : 0 < slice.rows.length)
    (hall : ∀ index < slice.rows.length, property index = true) :
    Pieces slice property [(0, slice)] where
  piece := by
    simp only [mem_singleton, forall_eq]
    exact ⟨rfl, rfl, hrows, by omega, by simp⟩
  ascending := pairwise_singleton _ _
  exact := by
    intro index hindex
    simp [hall index hindex, hindex]

end

/-! ## The three ways to select -/

variable {expr : Expression} {hints : Bitmap}

theorem select_of_none
    (hnone : ∀ index < slice.rows.length, slice.wanted expr hints index = false) :
    slice.select expr hints = [] := by
  obtain ⟨selection, hsel, hselect⟩ := select_eq slice expr hints
  have hany : selection.any = false := by
    rw [eq_false_iff, Ne, any_iff hsel]
    rintro ⟨index, hindex, hwanted⟩
    rw [hnone index hindex] at hwanted
    cases hwanted
  rw [hselect, hany]
  rfl

theorem select_of_all (hrows : 0 < slice.rows.length)
    (hall : ∀ index < slice.rows.length, slice.wanted expr hints index = true) :
    slice.select expr hints = [slice] := by
  obtain ⟨selection, hsel, hselect⟩ := select_eq slice expr hints
  have hany := (any_iff hsel).mpr ⟨0, hrows, hall 0 hrows⟩
  rw [hselect, hany, dice, if_pos ((rank_eq_rows_iff hsel).mpr hall)]
  rfl

theorem select_of_some (hsome : ∃ index < slice.rows.length, slice.wanted expr hints index = true)
    (hother : ∃ index < slice.rows.length, slice.wanted expr hints index = false) :
    ∃ selection, Selects slice (slice.wanted expr hints) selection ∧
      slice.select expr hints = (runPieces slice selection).map Prod.snd := by
  obtain ⟨selection, hsel, hselect⟩ := select_eq slice expr hints
  have hrank : ¬rank selection = slice.rows.length := by
    rw [rank_eq_rows_iff hsel]
    intro hall
    obtain ⟨index, hindex, hunwanted⟩ := hother
    rw [hall index hindex] at hunwanted
    cases hunwanted
  refine ⟨selection, hsel, ?_⟩
  rw [hselect, (any_iff hsel).mpr hsome, dice, if_neg hrank, runPieces, map_map]
  rfl

/-- Whatever the offset, the yielded slices are disjoint parts in ascending order that
hold exactly the wanted rows. -/
theorem exists_pieces (slice : TableSlice) (expr : Expression) (hints : Bitmap) :
    ∃ pieces, slice.select expr hints = pieces.map Prod.snd ∧
      Pieces slice (slice.wanted expr hints) pieces := by
  by_cases hsome : ∃ index < slice.rows.length, slice.wanted expr hints index = true
  · by_cases hother : ∃ index < slice.rows.length, slice.wanted expr hints index = false
    · obtain ⟨selection, hsel, hselect⟩ := select_of_some hsome hother
      exact ⟨_, hselect, pieces_runPieces hsel⟩
    · have hall : ∀ index < slice.rows.length, slice.wanted expr hints index = true := by
        simpa using hother
      have hrows : 0 < slice.rows.length := by omega
      exact ⟨[(0, slice)], select_of_all hrows hall, pieces_self hrows hall⟩
  · have hnone : ∀ index < slice.rows.length, slice.wanted expr hints index = false := by
      simpa using hsome
    exact ⟨[], select_of_none hnone, pieces_nil hnone⟩

/-! ## Ids -/

/-- The yielded slices are disjoint parts in ascending order that hold exactly the wanted
rows, and keep their ids. -/
def SelectsWithIds (slice : TableSlice) (expression : Expression) (hints : Bitmap) : Prop :=
  ∃ pieces, slice.select expression hints = pieces.map Prod.snd ∧
    Pieces slice (slice.wanted expression hints) pieces ∧ KeepsIds slice pieces

omit [Regex] in
/-- The offset of the slice is added to ids that contain it already. -/
theorem keepsIds_runPieces (hfirst : firstId slice = 0) :
    KeepsIds slice (runPieces slice selection) := by
  rw [KeepsIds, runPieces, forall_mem_map]
  intro run _
  show some (firstId slice + run.1) = some (firstId slice + (run.1 - firstId slice))
  rw [hfirst, Nat.sub_zero]

omit [Regex] in
theorem firstId_eq_zero (hsel : Selects slice property selection)
    (hsome : ∃ index < slice.rows.length, property index = true) {pieces : List (Nat × TableSlice)}
    (hselect : (runPieces slice selection).map Prod.snd = pieces.map Prod.snd)
    (hpieces : Pieces slice property pieces) (hkeeps : KeepsIds slice pieces) :
    firstId slice = 0 := by
  -- The part with the first row of all would have to start there.
  have hleast := Nat.find_spec hsome
  obtain ⟨part, hpart, hge, -⟩ := (hpieces.exact _ hleast.1).mp hleast.2
  have hmem : part.2 ∈ (runPieces slice selection).map Prod.snd :=
    hselect ▸ mem_map_of_mem hpart
  rw [runPieces, map_map, mem_map] at hmem
  obtain ⟨run, hrun, hcut⟩ := hmem
  have hoffset := hkeeps part hpart
  rw [← hcut, Function.comp_apply, cut, Option.some_inj] at hoffset
  obtain ⟨first, hfirst, hid, hprop⟩ :=
    exists_row_of_run hsel hrun le_rfl (run_bounds hsel hrun).2.1
  have hmin := Nat.find_min' hsome ⟨hfirst, hprop⟩
  omega

/-- Ids are kept if and only if no row is wanted, or all rows are and the slice has an
offset, or the slice starts at the first id of all. -/
theorem selectsWithIds_iff (slice : TableSlice) (expression : Expression) (hints : Bitmap) :
    SelectsWithIds slice expression hints ↔
      (∀ index < slice.rows.length, slice.wanted expression hints index = false) ∨
      ((∀ index < slice.rows.length, slice.wanted expression hints index = true) ∧
        slice.offset ≠ none) ∨
      ((∃ index < slice.rows.length, slice.wanted expression hints index = false) ∧
        firstId slice = 0) := by
  by_cases hnone : ∀ index < slice.rows.length, slice.wanted expression hints index = false
  · exact iff_of_true ⟨[], select_of_none hnone, pieces_nil hnone, by simp [KeepsIds]⟩
      (Or.inl hnone)
  have hsome : ∃ index < slice.rows.length, slice.wanted expression hints index = true := by
    simpa using hnone
  rw [or_iff_right hnone]
  by_cases hother : ∃ index < slice.rows.length, slice.wanted expression hints index = false
  · have hnotall : ¬∀ index < slice.rows.length, slice.wanted expression hints index = true := by
      simpa using hother
    obtain ⟨selection, hselects, hselect⟩ := select_of_some hsome hother
    rw [or_iff_right fun hall => hnotall hall.1, and_iff_right hother]
    constructor
    · rintro ⟨pieces, heq, hpieces, hkeeps⟩
      exact firstId_eq_zero hselects hsome (hselect.symm.trans heq) hpieces hkeeps
    · intro hfirst
      exact ⟨_, hselect, pieces_runPieces hselects, keepsIds_runPieces hfirst⟩
  · have hall : ∀ index < slice.rows.length, slice.wanted expression hints index = true := by
      simpa using hother
    have hrows : 0 < slice.rows.length := by omega
    have hselect := select_of_all hrows hall
    rw [or_iff_left fun hmixed => hother hmixed.1, and_iff_right hall]
    constructor
    · rintro ⟨pieces, heq, hpieces, hkeeps⟩ hoffset
      have hmem : slice ∈ pieces.map Prod.snd := by
        rw [← heq, hselect]
        exact mem_singleton_self _
      obtain ⟨part, hpart, hpiece⟩ := mem_map.mp hmem
      have hid := hkeeps part hpart
      rw [hpiece, hoffset] at hid
      cases hid
    · intro hoffset
      obtain ⟨offset, hoffset⟩ := Option.ne_none_iff_exists'.mp hoffset
      refine ⟨[(0, slice)], hselect, pieces_self hrows hall, ?_⟩
      simp [KeepsIds, firstId, hoffset]

def twoEvents : TableSlice where
  schema := .enriched (.record [("x", .basic .int64)]) (some "event") []
  offset := some 10
  importTime := 0
  rows := [[.basic (.int64 1)], [.basic (.int64 2)]]
  typed := by decide

omit [Regex] in
/-- The second event gets the id 21. -/
theorem second_event_moved : (@select twoEvents literalRegex .none (makeIds 11 12)).map
        (fun piece => (piece.offset, piece.rows)) = [(some 21, [[.basic (.int64 2)]])] ∧
      rowAt twoEvents 11 = [.basic (.int64 2)] ∧
      ¬@SelectsWithIds literalRegex twoEvents .none (makeIds 11 12) := by
  let := literalRegex
  have hselect : (twoEvents.select .none (makeIds 11 12)).map
      (fun piece => (piece.offset, piece.rows)) = [(some 21, [[.basic (.int64 2)]])] := rfl
  refine ⟨hselect, rfl, ?_⟩
  rintro ⟨pieces, heq, hpieces, hkeeps⟩
  obtain ⟨part, hpart, hge, -⟩ := (hpieces.exact 1 (by decide)).mp rfl
  have hmem : (part.2.offset, part.2.rows) ∈ [(some 21, [[.basic (.int64 2)]])] := by
    rw [← hselect, heq, map_map]
    exact mem_map_of_mem hpart
  have hoffset := hkeeps part hpart
  rw [(Prod.mk.inj (mem_singleton.mp hmem)).1, Option.some_inj] at hoffset
  have hfirst : firstId twoEvents = 10 := rfl
  omega

end TableSlice

end Vast
