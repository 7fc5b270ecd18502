import Vast.Bitmap.Bits
import Vast.Foundation.Bitmap

/-! # Bitwise operations on bitmaps

A binary operation walks over the ranges of two bitmaps and takes as many bits at a time as
both of the current sequences have. When a range ends, the rest of the longer bitmap is
appended or replaced by zeros. Neither the segmentation of the ranges nor the kinds of the
bitmaps matter.
-/

namespace Vast

open Foundation Word List Bitmap Bool Bits

/-- A bitmap as an operand: its range and its size. The sequences have bits, and runs consist
of equal bits. -/
structure BitmapOperand where
  range : List Bits
  size : Nat
  isEmpty_eq_false : ∀ xs ∈ range, xs.isEmpty = false
  homogeneous : ∀ xs ∈ range, xs.Homogeneous
  size_eq : size = (range.flatMap Bits.toList).length
  size_lt : size < 2 ^ 64

def BitmapOperand.contents (operand : BitmapOperand) : Bitmap :=
  operand.range.flatMap Bits.toList

/-- A kind of bitmap for results, which is known by what it appends. -/
structure ResultType (β : Type*) where
  empty : β
  appendBits : β → Bool → Nat → β
  appendBlock : β → Block → Nat → β
  size : β → Nat
  Represents : β → Bitmap → Prop
  represents_empty : Represents empty []
  represents_appendBits : ∀ {bm bits}, Represents bm bits → ∀ bit n,
    Represents (appendBits bm bit n) (bits ++ List.replicate n bit)
  represents_appendBlock : ∀ {bm bits}, Represents bm bits → ∀ block {n}, 0 < n → n ≤ 64 →
    Represents (appendBlock bm block n) (bits ++ Word.bits block n)
  size_eq : ∀ {bm bits}, Represents bm bits → size bm = bits.length % 2 ^ 64

namespace ResultType

variable {β : Type*} (type : ResultType β)

def append (bm : β) (xs : Bits) : β :=
  if xs.isRun then type.appendBits bm (xs.data != 0#64) xs.size
  else if !xs.isEmpty then type.appendBlock bm xs.data xs.size
  else bm

end ResultType

/-- The current sequence of a range and those that follow. -/
structure Cursor where
  bits : Bits
  rest : List Bits

namespace Cursor

def start (operand : BitmapOperand) : Cursor :=
  if operand.size = 0 then ⟨Bits.empty, operand.range⟩
  else
    match operand.range with
    | [] => ⟨Bits.empty, []⟩
    | xs :: rest => ⟨xs, rest⟩

def drop (cursor : Cursor) (n : Nat) : Cursor :=
  { cursor with bits := cursor.bits.drop n }

def clear (cursor : Cursor) : Cursor :=
  { cursor with bits := Bits.empty }

/-- Get the next sequence if the current one is exhausted. -/
def refill (cursor : Cursor) : Cursor :=
  if cursor.bits.isEmpty then
    match cursor.rest with
    | [] => cursor
    | xs :: rest => ⟨xs, rest⟩
  else cursor

def weight (cursor : Cursor) : Nat :=
  (if cursor.bits.isEmpty then 0 else 1) + cursor.rest.length

end Cursor

structure EvalState (β : Type*) where
  result : β
  lhs : Cursor
  rhs : Cursor

namespace BinaryEval

variable {β : Type*} (type : ResultType β) (op : Block → Block → Block)

def combine (state : EvalState β) : EvalState β :=
  let lhs := state.lhs.bits
  let rhs := state.rhs.bits
  let data := op lhs.data rhs.data
  if lhs.isRun && !rhs.isRun then
    { result := type.append state.result (Bits.make data rhs.size)
      lhs := state.lhs.drop rhs.size
      rhs := state.rhs.clear }
  else if !lhs.isRun && rhs.isRun then
    { result := type.append state.result (Bits.make data lhs.size)
      lhs := state.lhs.clear
      rhs := state.rhs.drop lhs.size }
  else
    let n := min lhs.size rhs.size
    { result := type.append state.result (Bits.make data n)
      lhs := state.lhs.drop n
      rhs := state.rhs.drop n }

def step (state : EvalState β) : EvalState β :=
  let state := combine type op state
  { state with lhs := state.lhs.refill, rhs := state.rhs.refill }

/-- Every case takes the bits that both sequences have. -/
theorem combine_eq (state : EvalState β) : combine type op state =
      let n := min state.lhs.bits.size state.rhs.bits.size
      { result := type.append state.result
          (make (op state.lhs.bits.data state.rhs.bits.data) n)
        lhs := state.lhs.drop n
        rhs := state.rhs.drop n } := by
  have hclear : ∀ cursor : Cursor, cursor.clear = cursor.drop cursor.bits.size := by
    intro cursor
    rw [Cursor.clear, Cursor.drop, drop_of_ge (le_refl _)]
  rw [combine]
  split
  next hlhs =>
    rw [and_eq_true, not_eq_true', ← not_eq_true, isRun_iff, isRun_iff] at hlhs
    have hmin : min state.lhs.bits.size state.rhs.bits.size = state.rhs.bits.size := by omega
    rw [hmin, hclear]
  · split
    next hrhs =>
      rw [and_eq_true, not_eq_true', ← not_eq_true, isRun_iff, isRun_iff] at hrhs
      have hmin : min state.lhs.bits.size state.rhs.bits.size = state.lhs.bits.size := by omega
      rw [hmin, hclear]
    · rfl

end BinaryEval

variable {n : Nat}

namespace Cursor

variable {cursor : Cursor}

theorem weight_refill_le (cursor : Cursor) : cursor.refill.weight ≤ cursor.weight := by
  obtain ⟨bits, rest⟩ := cursor
  cases hempty : bits.isEmpty with
  | false =>
    rw [refill, if_neg (by simp [hempty])]
  | true =>
    rw [refill, if_pos hempty]
    cases rest with
    | nil => exact le_refl _
    | cons xs rest =>
      rw [weight, weight]
      dsimp only
      rw [length_cons]
      split <;> omega

theorem weight_drop_le (hempty : cursor.bits.isEmpty = false) (n : Nat) :
    (cursor.drop n).weight ≤ cursor.weight := by
  rw [weight, weight, hempty]
  change (if _ then 0 else 1) + cursor.rest.length ≤ 1 + cursor.rest.length
  split <;> omega

theorem weight_drop_lt (hempty : cursor.bits.isEmpty = false) (hn : cursor.bits.size ≤ n) :
    (cursor.drop n).weight < cursor.weight := by
  rw [weight, weight, hempty, drop, drop_of_ge hn]
  change 0 + cursor.rest.length < 1 + cursor.rest.length
  omega

end Cursor

namespace BinaryEval

variable {β : Type*} (type : ResultType β) (op : Block → Block → Block)

/-- Every iteration exhausts a sequence. -/
theorem weight_step {state : EvalState β} (hlhs : state.lhs.bits.isEmpty = false)
    (hrhs : state.rhs.bits.isEmpty = false) :
    (step type op state).lhs.weight + (step type op state).rhs.weight <
      state.lhs.weight + state.rhs.weight := by
  rw [step, combine_eq]
  dsimp only
  have hleft := Cursor.weight_refill_le
    (state.lhs.drop (min state.lhs.bits.size state.rhs.bits.size))
  have hright := Cursor.weight_refill_le
    (state.rhs.drop (min state.lhs.bits.size state.rhs.bits.size))
  have hleft' := Cursor.weight_drop_le hlhs (min state.lhs.bits.size state.rhs.bits.size)
  have hright' := Cursor.weight_drop_le hrhs (min state.lhs.bits.size state.rhs.bits.size)
  rcases le_total state.lhs.bits.size state.rhs.bits.size with hle | hle
  · have hlt := Cursor.weight_drop_lt hlhs (le_of_eq (min_eq_left hle).symm)
    omega
  · have hlt := Cursor.weight_drop_lt hrhs (le_of_eq (min_eq_right hle).symm)
    omega

def loop (state : EvalState β) : EvalState β :=
  if hmore : state.lhs.bits.isEmpty = false ∧ state.rhs.bits.isEmpty = false then
    have := weight_step type op hmore.1 hmore.2
    loop (step type op state)
  else state
termination_by state.lhs.weight + state.rhs.weight

def appendRest (bm : β) (cursor : Cursor) : β :=
  cursor.rest.foldl type.append
    (if cursor.bits.isEmpty then bm else type.append bm cursor.bits)

end BinaryEval

section Algorithms

variable {β : Type*} (type : ResultType β)

open BinaryEval in
/-- Apply an operation, and fill up with the rest of an operand or with zeros. -/
def binaryEval (fillLHS fillRHS : Bool) (op : Block → Block → Block)
    (lhs rhs : BitmapOperand) : β :=
  let state := loop type op ⟨type.empty, Cursor.start lhs, Cursor.start rhs⟩
  let result := if fillLHS then appendRest type state.result state.lhs else state.result
  let result := if fillRHS then appendRest type result state.rhs else result
  type.appendBits result false (max lhs.size rhs.size - type.size result)

variable (lhs rhs : BitmapOperand)

def binaryAnd : β :=
  binaryEval type false false (fun x y => x &&& y) lhs rhs

def binaryOr : β :=
  binaryEval type true true (fun x y => x ||| y) lhs rhs

def binaryXor : β :=
  binaryEval type true true (fun x y => x ^^^ y) lhs rhs

def binaryNand : β :=
  binaryEval type true false (fun x y => x &&& ~~~y) lhs rhs

end Algorithms

/-! ## Sequences -/

namespace ResultType

variable {β : Type*} (type : ResultType β) {bm : β} {bits : Bitmap}

theorem represents_append (hbm : type.Represents bm bits) (xs : Bits) :
    type.Represents (type.append bm xs) (bits ++ xs.toList) := by
  rw [append, toList]
  split
  · exact type.represents_appendBits hbm _ _
  next hrun =>
    rw [isRun_iff] at hrun
    split
    next hsome =>
      rw [not_eq_true', ← not_eq_true, Bits.isEmpty_iff] at hsome
      exact type.represents_appendBlock hbm xs.data (Nat.pos_of_ne_zero hsome)
        (Nat.le_of_not_lt hrun)
    next hempty =>
      have hzero : xs.size = 0 := by simpa [Bits.isEmpty] using hempty
      rw [hzero]
      simpa [Word.bits] using hbm

theorem represents_foldl_append (hbm : type.Represents bm bits) (sequences : List Bits) :
    type.Represents (sequences.foldl type.append bm) (bits ++ sequences.flatMap toList) := by
  induction sequences generalizing bm bits with
  | nil =>
    rw [flatMap_nil, append_nil]
    exact hbm
  | cons xs sequences ih =>
    rw [flatMap_cons, ← append_assoc]
    exact ih (type.represents_append hbm xs)

end ResultType

namespace Cursor

variable {cursor : Cursor}

def remaining (cursor : Cursor) : Bitmap :=
  cursor.bits.toList ++ cursor.rest.flatMap Bits.toList

/-- The sequences that follow have bits, and runs consist of equal bits. -/
structure Sound (cursor : Cursor) : Prop where
  homogeneous : cursor.bits.Homogeneous
  isEmpty_eq_false : ∀ xs ∈ cursor.rest, xs.isEmpty = false
  rest_homogeneous : ∀ xs ∈ cursor.rest, xs.Homogeneous

/-- The current sequence is exhausted at the end only. -/
structure Ready (cursor : Cursor) : Prop extends Sound cursor where
  rest_eq_nil : cursor.bits.isEmpty = true → cursor.rest = []

theorem Sound.drop (hsound : cursor.Sound) (n : Nat) : (cursor.drop n).Sound :=
  ⟨homogeneous_drop hsound.homogeneous n, hsound.isEmpty_eq_false, hsound.rest_homogeneous⟩

theorem Sound.remaining_drop (hsound : cursor.Sound) (hn : n ≤ cursor.bits.size) :
    (cursor.drop n).remaining = cursor.remaining.drop n := by
  rw [remaining, remaining, drop_append_of_le_length (by rwa [length_toList]),
    ← toList_drop hsound.homogeneous]
  rfl

theorem toList_of_isEmpty {xs : Bits} (hempty : xs.isEmpty = true) : xs.toList = [] := by
  apply eq_nil_of_length_eq_zero
  rw [length_toList]
  exact isEmpty_iff.mp hempty

theorem Sound.refill (hsound : cursor.Sound) :
    cursor.refill.Ready ∧ cursor.refill.remaining = cursor.remaining := by
  rw [Cursor.refill]
  split
  next hempty =>
    match hrest : cursor.rest with
    | [] => exact ⟨⟨hsound, fun _ => hrest⟩, rfl⟩
    | xs :: rest =>
      have hnonempty := hsound.isEmpty_eq_false
      have hhomogeneous := hsound.rest_homogeneous
      rw [hrest] at hnonempty hhomogeneous
      refine ⟨⟨⟨hhomogeneous xs mem_cons_self, fun ys hys => hnonempty ys (mem_cons_of_mem _ hys),
        fun ys hys => hhomogeneous ys (mem_cons_of_mem _ hys)⟩, ?_⟩, ?_⟩
      · intro hxs
        rw [hnonempty xs mem_cons_self] at hxs
        cases hxs
      · rw [remaining, remaining, toList_of_isEmpty hempty, hrest, flatMap_cons, nil_append]
  next hsome => exact ⟨⟨hsound, fun hempty => absurd hempty hsome⟩, rfl⟩

theorem Ready.remaining_eq_nil (hready : cursor.Ready) (hempty : cursor.bits.isEmpty = true) :
    cursor.remaining = [] := by
  rw [remaining, toList_of_isEmpty hempty, hready.rest_eq_nil hempty]
  rfl

theorem start_eq (operand : BitmapOperand) :
    (start operand).Ready ∧ (start operand).remaining = operand.contents := by
  have hsound : Sound ⟨empty, operand.range⟩ :=
    ⟨fun hrun => absurd hrun (Nat.not_lt_zero 64), operand.isEmpty_eq_false, operand.homogeneous⟩
  have hstart : start operand = refill ⟨empty, operand.range⟩ := by
    rw [start]
    split
    next hzero =>
      have hnil : operand.range = [] := by
        cases hrange : operand.range with
        | nil => rfl
        | cons xs rest =>
          have hsize := operand.size_eq
          have hxs := operand.isEmpty_eq_false xs (by rw [hrange]; exact mem_cons_self)
          rw [hrange, flatMap_cons, length_append, length_toList] at hsize
          have hempty : xs.isEmpty = true := isEmpty_iff.mpr (by omega)
          rw [hxs] at hempty
          cases hempty
      rw [hnil]
      rfl
    · cases operand.range with
      | nil | cons => rfl
  rw [hstart]
  exact hsound.refill

end Cursor

/-! ## Evaluation -/

/-- The operation on blocks is one on each bit. -/
def Bitwise (op : Block → Block → Block) (f : Bool → Bool → Bool) : Prop :=
  ∀ x y i, i < 64 → (op x y).getLsbD i = f (x.getLsbD i) (y.getLsbD i)

section Bitwise

variable {op : Block → Block → Block} {f : Bool → Bool → Bool}

theorem Bitwise.bits_eq (hop : Bitwise op f) (x y : Block) (hn : n ≤ 64) :
    bits (op x y) n = zipWith f (bits x n) (bits y n) := by
  rw [bits, bits, bits, zipWith_map, zipWith_self]
  apply map_congr_left
  intro i hi
  exact hop x y i (lt_of_lt_of_le (mem_range.mp hi) hn)

theorem Bitwise.uniform_eq (hop : Bitwise op f) (a b : Bool) :
    op (uniform a) (uniform b) = uniform (f a b) := by
  have huniform : ∀ bit i, i < 64 → (uniform bit).getLsbD i = bit := by
    intro bit i hi
    cases bit
    · exact getLsbD_none
    · exact getLsbD_all.trans (decide_eq_true hi)
  apply BitVec.eq_of_getLsbD_eq
  intro i hi
  rw [hop _ _ i hi, huniform a i hi, huniform b i hi, huniform _ i hi]

/-- The sequence that is appended in an iteration. -/
theorem Bitwise.toList_make (hop : Bitwise op f) {xs ys : Bits} (hxs : xs.Homogeneous)
    (hys : ys.Homogeneous) : (make (op xs.data ys.data) (min xs.size ys.size)).toList =
      zipWith f (xs.toList.take (min xs.size ys.size)) (ys.toList.take (min xs.size ys.size)) := by
  have hleft := min_le_left xs.size ys.size
  have hright := min_le_right xs.size ys.size
  rcases lt_or_ge 64 (min xs.size ys.size) with hrun | hblock
  · obtain ⟨a, ha⟩ := hxs (lt_of_lt_of_le hrun hleft)
    obtain ⟨b, hb⟩ := hys (lt_of_lt_of_le hrun hright)
    rw [ha, hb, hop.uniform_eq, toList_make_uniform, toList_of_run (lt_of_lt_of_le hrun hleft) ha,
      toList_of_run (lt_of_lt_of_le hrun hright) hb, take_replicate, take_replicate,
      zipWith_replicate, min_eq_left hleft, min_eq_left hright, min_self]
  · rw [Bits.toList_make hblock, hop.bits_eq _ _ hblock, Bits.toList_take hxs hleft hblock,
      toList_take hys hright hblock]

end Bitwise

namespace BinaryEval

variable {β : Type*} {type : ResultType β} {op : Block → Block → Block}
  {f : Bool → Bool → Bool} {state : EvalState β} {bits left right : Bitmap}

/-- The bits of the result and those that are left. -/
structure Evaluates (type : ResultType β) (state : EvalState β) (bits left right : Bitmap) :
    Prop where
  represents : type.Represents state.result bits
  lhs_ready : state.lhs.Ready
  rhs_ready : state.rhs.Ready
  lhs_eq : state.lhs.remaining = left
  rhs_eq : state.rhs.remaining = right

theorem Evaluates.step (hstate : Evaluates type state bits left right) (hop : Bitwise op f) :
    ∃ n, n ≤ left.length ∧ n ≤ right.length ∧ Evaluates type (step type op state)
        (bits ++ zipWith f (left.take n) (right.take n)) (left.drop n) (right.drop n) := by
  have hlhs := hstate.lhs_ready.toSound
  have hrhs := hstate.rhs_ready.toSound
  have hleft := min_le_left state.lhs.bits.size state.rhs.bits.size
  have hright := min_le_right state.lhs.bits.size state.rhs.bits.size
  obtain ⟨hlhs', hleft'⟩ := (hlhs.drop (min state.lhs.bits.size state.rhs.bits.size)).refill
  obtain ⟨hrhs', hright'⟩ := (hrhs.drop (min state.lhs.bits.size state.rhs.bits.size)).refill
  have htake : ∀ {cursor : Cursor} {n : Nat}, n ≤ cursor.bits.size →
      cursor.remaining.take n = cursor.bits.toList.take n := by
    intro cursor n hn
    rw [Cursor.remaining, take_append_of_le_length (by rwa [length_toList])]
  have hlen : ∀ {cursor : Cursor} {n : Nat}, n ≤ cursor.bits.size →
      n ≤ cursor.remaining.length := by
    intro cursor n hn
    rw [Cursor.remaining, length_append, length_toList]
    exact Nat.le_add_right_of_le hn
  rw [← hstate.lhs_eq, ← hstate.rhs_eq]
  refine ⟨min state.lhs.bits.size state.rhs.bits.size, hlen hleft, hlen hright, ?_⟩
  rw [BinaryEval.step, combine_eq]
  refine ⟨?_, hlhs', hrhs', ?_, ?_⟩
  · rw [htake hleft, htake hright, ← hop.toList_make hlhs.homogeneous hrhs.homogeneous]
    exact type.represents_append hstate.represents _
  · rw [hleft', hlhs.remaining_drop hleft]
  · rw [hright', hrhs.remaining_drop hright]

theorem zipWith_split (hleft : n ≤ left.length) (hright : n ≤ right.length) :
    zipWith f left right = zipWith f (left.take n) (right.take n) ++
        zipWith f (left.drop n) (right.drop n) := by
  have hlen : (left.take n).length = (right.take n).length := by
    rw [length_take, length_take]
    omega
  rw [← zipWith_append hlen, take_append_drop, take_append_drop]

/-- The loop evaluates the common bits and leaves the rest of the longer operand. -/
theorem Evaluates.loop (hstate : Evaluates type state bits left right) (hop : Bitwise op f) :
    Evaluates type (loop type op state) (bits ++ zipWith f left right)
      (left.drop right.length) (right.drop left.length) := by
  induction hweight : state.lhs.weight + state.rhs.weight using Nat.strong_induction_on
    generalizing state bits left right with
  | _ weight ih =>
    rw [loop]
    split
    next hmore =>
      obtain ⟨n, hleft, hright, hstep⟩ := hstate.step hop
      have hless := weight_step type op hmore.1 hmore.2
      have hrest := ih _ (hweight ▸ hless) hstep rfl
      rw [append_assoc, ← zipWith_split hleft hright, drop_drop, drop_drop, length_drop,
        length_drop, Nat.add_sub_cancel' hleft, Nat.add_sub_cancel' hright] at hrest
      exact hrest
    next hend =>
      -- One of the operands has no more bits.
      cases hlhs : state.lhs.bits.isEmpty with
      | true =>
        have hnil : left = [] :=
          hstate.lhs_eq.symm.trans (hstate.lhs_ready.remaining_eq_nil hlhs)
        subst hnil
        rw [zipWith_nil_left, append_nil, drop_nil]
        exact hstate
      | false =>
        cases hrhs : state.rhs.bits.isEmpty with
        | true =>
          have hnil : right = [] :=
            hstate.rhs_eq.symm.trans (hstate.rhs_ready.remaining_eq_nil hrhs)
          subst hnil
          rw [zipWith_nil_right, append_nil, drop_nil]
          exact hstate
        | false => exact absurd ⟨hlhs, hrhs⟩ hend

theorem represents_appendRest {bm : β} (hbm : type.Represents bm bits) (cursor : Cursor) :
    type.Represents (appendRest type bm cursor) (bits ++ cursor.remaining) := by
  have hfirst : type.Represents (if cursor.bits.isEmpty then bm
      else type.append bm cursor.bits) (bits ++ cursor.bits.toList) := by
    split
    next hempty =>
      rw [Cursor.toList_of_isEmpty hempty, append_nil]
      exact hbm
    · exact type.represents_append hbm cursor.bits
  rw [Cursor.remaining, ← append_assoc]
  exact type.represents_foldl_append hfirst cursor.rest

/-- What is left of an operand is kept or not. -/
theorem represents_keep {bm : β} (hbm : type.Represents bm bits) (keep : Bool) (cursor : Cursor) :
    type.Represents (if keep then appendRest type bm cursor else bm)
      (bits ++ if keep then cursor.remaining else []) := by
  cases keep with
  | false =>
    rw [if_neg Bool.false_ne_true, if_neg Bool.false_ne_true, append_nil]
    exact hbm
  | true => exact represents_appendRest hbm cursor

end BinaryEval

section Algorithms

variable {β : Type*} (type : ResultType β) {op : Block → Block → Block} {f : Bool → Bool → Bool}
  {fillLHS fillRHS : Bool}

open BinaryEval in
/-- The result has the common bits and what is kept of the rest, and is filled with zeros. -/
theorem represents_binaryEval (fillLHS fillRHS : Bool) (hop : Bitwise op f)
    (lhs rhs : BitmapOperand) : type.Represents (binaryEval type fillLHS fillRHS op lhs rhs)
      (fill (zipRest f fillLHS fillRHS lhs.contents rhs.contents) false
        (max lhs.size rhs.size)) := by
  obtain ⟨hlhs, hleft⟩ := Cursor.start_eq lhs
  obtain ⟨hrhs, hright⟩ := Cursor.start_eq rhs
  have hstart : Evaluates type ⟨type.empty, Cursor.start lhs, Cursor.start rhs⟩ []
      lhs.contents rhs.contents := ⟨type.represents_empty, hlhs, hrhs, hleft, hright⟩
  have hloop := hstart.loop hop
  rw [binaryEval]
  generalize loop type op ⟨type.empty, Cursor.start lhs, Cursor.start rhs⟩ = final at hloop ⊢
  have hres := represents_keep (represents_keep hloop.represents fillLHS final.lhs) fillRHS
    final.rhs
  rw [nil_append, hloop.lhs_eq, hloop.rhs_eq, ← zipRest] at hres
  have hlen : (zipRest f fillLHS fillRHS lhs.contents rhs.contents).length < 2 ^ 64 := by
    have hle := length_zipRest_le f fillLHS fillRHS lhs.contents rhs.contents
    have hlhs := lhs.size_lt
    have hrhs := rhs.size_lt
    rw [lhs.size_eq] at hlhs
    rw [rhs.size_eq] at hrhs
    exact Nat.lt_of_le_of_lt hle (Nat.max_lt.mpr ⟨hlhs, hrhs⟩)
  rw [type.size_eq hres, Nat.mod_eq_of_lt hlen]
  exact type.represents_appendBits hres false _

/-- The result has as many bits as the longer operand, and each of them is given by the
operation, where bits beyond the end of an operand are unset. -/
def Computes (result : β) (f : Bool → Bool → Bool) (lhs rhs : BitmapOperand) : Prop :=
  ∃ bits, type.Represents result bits ∧ type.size result = max lhs.size rhs.size ∧
    bits.length = max lhs.size rhs.size ∧
    ∀ i, bits.test i = f (lhs.contents.test i) (rhs.contents.test i)

theorem computes_binaryEval (hop : Bitwise op f) (hleft : ∀ bit, f bit false = (fillLHS && bit))
    (hright : ∀ bit, f false bit = (fillRHS && bit)) (lhs rhs : BitmapOperand) :
    Computes type (binaryEval type fillLHS fillRHS op lhs rhs) f lhs rhs := by
  have hrep := represents_binaryEval type fillLHS fillRHS hop lhs rhs
  have hle := length_zipRest_le f fillLHS fillRHS lhs.contents rhs.contents
  have hlen : (fill (zipRest f fillLHS fillRHS lhs.contents rhs.contents) false
      (max lhs.size rhs.size)).length = max lhs.size rhs.size := by
    rw [length_fill, max_eq_right]
    rw [lhs.size_eq, rhs.size_eq]
    exact hle
  refine ⟨_, hrep, ?_, hlen, ?_⟩
  · rw [type.size_eq hrep, hlen]
    exact Nat.mod_eq_of_lt (Nat.max_lt.mpr ⟨lhs.size_lt, rhs.size_lt⟩)
  · intro i
    rw [test_fill_false, test_zipRest hleft hright]

variable (lhs rhs : BitmapOperand)

/-- The operations compute their results for all bitmaps. -/
theorem binary_operations_compute : Computes type (binaryAnd type lhs rhs) and lhs rhs ∧
      Computes type (binaryOr type lhs rhs) or lhs rhs ∧
      Computes type (binaryXor type lhs rhs) xor lhs rhs ∧
      Computes type (binaryNand type lhs rhs) (fun a b => a && !b) lhs rhs := by
  have hnand : Bitwise (fun x y => x &&& ~~~y) (fun a b => a && !b) := by
    intro x y i hi
    rw [BitVec.getLsbD_and, BitVec.getLsbD_not, decide_eq_true hi, Bool.true_and]
  refine ⟨?_, ?_, ?_, ?_⟩
  · exact computes_binaryEval type (fun _ _ _ _ => BitVec.getLsbD_and) (by decide) (by decide) _ _
  · exact computes_binaryEval type (fun _ _ _ _ => BitVec.getLsbD_or) (by decide) (by decide) _ _
  · exact computes_binaryEval type (fun _ _ _ _ => BitVec.getLsbD_xor) (by decide) (by decide) _ _
  · exact computes_binaryEval type hnand (by decide) (by decide) lhs rhs

end Algorithms

end Vast
