import Mathlib.Data.List.GetD
import Mathlib.Data.Set.Lattice

/-! # Bitmaps

Bit sequences of arbitrary length, where a bit beyond the end counts as unset.
Binary operations pad the shorter operand, so their results are as long as the
longer operand.
-/

namespace Foundation

open List Bool

abbrev Bitmap := List Bool

namespace Bitmap

variable {left right left' right' : Bitmap}

variable (bits : Bitmap) {α : Type*} {index : Nat}

def test (index : Nat) : Bool :=
  bits.getD index false

def toSet : Set Nat :=
  {index | bits.test index = true}

def or : Bitmap → Bitmap → Bitmap
  | [], right => right
  | left, [] => left
  | a :: left, b :: right => (a || b) :: or left right

def and : Bitmap → Bitmap → Bitmap
  | [], right => List.replicate right.length false
  | left, [] => List.replicate left.length false
  | a :: left, b :: right => (a && b) :: and left right

def xor : Bitmap → Bitmap → Bitmap
  | [], right => right
  | left, [] => left
  | a :: left, b :: right => (a != b) :: xor left right

def diff : Bitmap → Bitmap → Bitmap
  | [], right => List.replicate right.length false
  | left, [] => left
  | a :: left, b :: right => (a && !b) :: diff left right

def flip : Bitmap :=
  bits.map (!·)

def any : Bool :=
  bits.contains true

@[simp]
theorem test_nil (index : Nat) : test [] index = false := rfl

@[simp]
theorem test_cons_succ (bit : Bool) (bits : Bitmap) (index : Nat) :
    test (bit :: bits) (index + 1) = test bits index := rfl

theorem test_replicate_false (count index : Nat) :
    test (replicate count false) index = false := by
  simp only [test, getD_eq_getElem?_getD, getElem?_replicate]
  split <;> rfl

theorem ext (hlen : left.length = right.length)
    (htest : ∀ index, left.test index = right.test index) : left = right := by
  apply ext_getElem hlen
  intro index hleft hright
  have hbit := htest index
  simp only [test, getD_eq_getElem?_getD, getElem?_eq_getElem hleft,
    getElem?_eq_getElem hright] at hbit
  exact hbit

@[simp]
theorem or_nil : or bits [] = bits := by
  cases bits <;> rfl

@[simp]
theorem nil_or : or [] bits = bits := by
  cases bits <;> rfl

/-- The operation combines bits, and the shorter operand is padded. -/
structure Combines (f : Bool → Bool → Bool) (op : Bitmap → Bitmap → Bitmap) : Prop where
  cons : ∀ a left b right, op (a :: left) (b :: right) = f a b :: op left right
  nil_left : ∀ bits, op [] bits = bits.map (f false)
  nil_right : ∀ bits, op bits [] = bits.map (f · false)

section Combines

variable {f : Bool → Bool → Bool} {op : Bitmap → Bitmap → Bitmap} (hop : Combines f op)
include hop

theorem Combines.length (left right : Bitmap) :
    (op left right).length = max left.length right.length := by
  induction left generalizing right with
  | nil => simp [hop.nil_left]
  | cons a left ih =>
    cases right with
    | nil => simp [hop.nil_right]
    | cons b right => simp [hop.cons, ih]

theorem Combines.test_eq (hf : f false false = false) (left right : Bitmap) (index : Nat) :
    (op left right).test index = f (left.test index) (right.test index) := by
  have hmap {g : Bool → Bool} (hg : g false = false) (bits : Bitmap) (index : Nat) :
      test (bits.map g) index = g (bits.test index) := by
    rw [test, test, ← hg, getD_map, hg]
  induction left generalizing right index with
  | nil => rw [hop.nil_left, hmap hf, test_nil]
  | cons a left ih =>
    cases right with
    | nil => rw [hop.nil_right, @hmap (f · false) hf, test_nil]
    | cons b right =>
      rw [hop.cons]
      cases index with
      | zero => rfl
      | succ index => simp [ih]

theorem Combines.map (p q : α → Bool) (items : List α) :
    op (items.map p) (items.map q) = items.map fun item => f (p item) (q item) := by
  induction items with
  | nil => exact hop.nil_left []
  | cons item items ih => rw [map_cons, map_cons, hop.cons, ih, map_cons]

end Combines

theorem combines_or : Combines (· || ·) or where
  cons _ _ _ _ := rfl
  nil_left := by simp
  nil_right := by simp

theorem combines_and : Combines (· && ·) and where
  cons _ _ _ _ := rfl
  nil_left := by simp [and, map_const']
  nil_right bits := by cases bits <;> simp [and, map_const', replicate_succ]

theorem combines_xor : Combines (· != ·) xor where
  cons _ _ _ _ := rfl
  nil_left := by simp [xor]
  nil_right bits := by cases bits <;> simp [xor]

theorem combines_diff : Combines (fun a b => a && !b) diff where
  cons _ _ _ _ := rfl
  nil_left := by simp [diff, map_const']
  nil_right bits := by cases bits <;> simp [diff]

section

variable (left right : Bitmap)

theorem length_or : (or left right).length = max left.length right.length :=
  combines_or.length left right

theorem test_or (index : Nat) :
    (or left right).test index = (left.test index || right.test index) :=
  combines_or.test_eq rfl left right index

theorem length_and : (and left right).length = max left.length right.length :=
  combines_and.length left right

theorem test_and (index : Nat) :
    (and left right).test index = (left.test index && right.test index) :=
  combines_and.test_eq rfl left right index

theorem test_xor (index : Nat) :
    (xor left right).test index = (left.test index != right.test index) :=
  combines_xor.test_eq rfl left right index

theorem test_diff (index : Nat) :
    (diff left right).test index = (left.test index && !right.test index) :=
  combines_diff.test_eq rfl left right index

end

/-- An operation on the common bits, where the rest of the longer operand is kept or left
out. -/
def zipRest (f : Bool → Bool → Bool) (keepLeft keepRight : Bool) (left right : Bitmap) : Bitmap :=
  List.zipWith f left right ++ (if keepLeft then left.drop right.length else []) ++
    (if keepRight then right.drop left.length else [])

theorem length_zipRest_le (f : Bool → Bool → Bool) (keepLeft keepRight : Bool)
    (left right : Bitmap) :
    (zipRest f keepLeft keepRight left right).length ≤ max left.length right.length := by
  rw [zipRest]
  cases keepLeft <;> cases keepRight <;> simp <;> omega

/-- If bits beyond the end count as unset, so do those that are left out. -/
theorem test_zipRest {f : Bool → Bool → Bool} {keepLeft keepRight : Bool}
    (hleft : ∀ bit, f bit false = (keepLeft && bit))
    (hright : ∀ bit, f false bit = (keepRight && bit)) (left right : Bitmap) (index : Nat) :
    (zipRest f keepLeft keepRight left right).test index =
      f (left.test index) (right.test index) := by
  induction left generalizing right index with
  | nil =>
    rw [test_nil, hright]
    cases keepRight <;> simp [zipRest]
  | cons a left ih =>
    cases right with
    | nil =>
      rw [test_nil, hleft]
      cases keepLeft <;> simp [zipRest]
    | cons b right =>
      cases index with
      | zero => rfl
      | succ index =>
        rw [test_cons_succ, test_cons_succ, ← ih]
        rfl

theorem flip_map (f : α → Bool) (items : List α) :
    flip (items.map f) = items.map fun item => !f item := by
  rw [flip, map_map]
  rfl

theorem length_flip (bits : Bitmap) : bits.flip.length = bits.length :=
  length_map _

theorem test_flip {bits : Bitmap} (hindex : index < bits.length) :
    bits.flip.test index = !bits.test index := by
  simp [test, flip, hindex]

theorem lt_length_of_test {bits : Bitmap} (htest : bits.test index = true) :
    index < bits.length := by
  by_contra hge
  rw [test, getD_eq_getElem?_getD, getElem?_eq_none (Nat.le_of_not_lt hge)] at htest
  cases htest

section Fill

def fill (bits : Bitmap) (bit : Bool) (size : Nat) : Bitmap :=
  bits ++ List.replicate (size - bits.length) bit

/-- Fill up to a position and set the bit there. -/
def mark (bits : Bitmap) (index : Nat) : Bitmap :=
  bits.fill false index ++ [true]

variable {bits more : Bitmap} {bit : Bool} {size index other : Nat}

theorem length_fill : (bits.fill bit size).length = max bits.length size := by
  rw [fill, length_append, length_replicate]
  omega

theorem test_append_left (hindex : index < bits.length) :
    test (bits ++ more) index = bits.test index := by
  rw [test, test, getD_append _ _ _ _ hindex]

theorem test_append_right (hindex : bits.length ≤ index) :
    test (bits ++ more) index = more.test (index - bits.length) := by
  rw [test, test, getD_append_right _ _ _ _ hindex]

theorem test_of_length_le (hindex : bits.length ≤ index) : bits.test index = false := by
  rw [test, getD_eq_default _ _ hindex]

theorem test_fill_false : (bits.fill false size).test index = bits.test index := by
  rcases lt_or_ge index bits.length with hlt | hge
  · exact test_append_left hlt
  · rw [fill, test_append_right hge, test_replicate_false, test_of_length_le hge]

theorem test_fill_true_of_length_le (hlen : bits.length ≤ index) (hsize : index < size) :
    (bits.fill true size).test index = true := by
  rw [fill, test_append_right hlen, test, getD_eq_getElem?_getD,
    getElem?_replicate_of_lt (by omega), Option.getD_some]

theorem fill_of_length_le (hsize : size ≤ bits.length) : bits.fill bit size = bits := by
  rw [fill, Nat.sub_eq_zero_of_le hsize, replicate_zero, append_nil]

theorem length_mark (hindex : bits.length ≤ index) : (bits.mark index).length = index + 1 := by
  rw [mark, length_append, length_fill, length_singleton, max_eq_right hindex]

theorem test_mark (hindex : bits.length ≤ index) :
    (bits.mark index).test other = (bits.test other || decide (other = index)) := by
  have hlen : (bits.fill false index).length = index := by
    rw [length_fill, max_eq_right hindex]
  rcases lt_trichotomy other index with hlt | rfl | hgt
  · rw [← hlen] at hlt
    rw [mark, test_append_left hlt, test_fill_false, decide_eq_false (by omega), Bool.or_false]
  · rw [mark, test_append_right (Nat.le_of_eq hlen), hlen, Nat.sub_self,
      decide_eq_true rfl, Bool.or_true]
    rfl
  · have hmark : (bits.mark index).length ≤ other := by
      rw [length_mark hindex]
      exact hgt
    rw [test_of_length_le hmark, test_of_length_le (le_trans hindex (le_of_lt hgt)),
      decide_eq_false (ne_of_gt hgt), Bool.or_false]

end Fill

theorem any_iff_exists_test {bits : Bitmap} :
    bits.any = true ↔ ∃ index, bits.test index = true := by
  rw [any, contains_iff_mem]
  constructor
  · intro hmem
    obtain ⟨index, hlt, hbit⟩ := getElem_of_mem hmem
    refine ⟨index, ?_⟩
    rw [test, getD_eq_getElem?_getD, getElem?_eq_getElem hlt, hbit, Option.getD_some]
  · rintro ⟨index, htest⟩
    have hlt := lt_length_of_test htest
    rw [test, getD_eq_getElem?_getD, getElem?_eq_getElem hlt] at htest
    exact htest ▸ getElem_mem hlt

theorem test_of_not_any {bits : Bitmap} (hany : bits.any = false) (index : Nat) :
    bits.test index = false := by
  rw [eq_false_iff]
  intro htest
  rw [any_iff_exists_test.mpr ⟨index, htest⟩] at hany
  cases hany

@[simp]
theorem toSet_nil : toSet [] = ∅ := by
  ext index
  simp [toSet]

/-- A bitmap is contained in another one that is as long and has all its bits. -/
structure Le (left right : Bitmap) : Prop where
  length_le : left.length ≤ right.length
  test_le : ∀ index, left.test index = true → right.test index = true

theorem Le.refl (bits : Bitmap) : Le bits bits :=
  ⟨le_refl _, fun _ => id⟩

theorem Le.trans {middle : Bitmap} (hleft : Le left middle) (hright : Le middle right) :
    Le left right :=
  ⟨hleft.length_le.trans hright.length_le,
    fun index hbit => hright.test_le index (hleft.test_le index hbit)⟩

theorem le_or_left (left right : Bitmap) : Le left (or left right) := by
  refine ⟨?_, fun index hbit => ?_⟩
  · rw [length_or]
    exact le_max_left _ _
  · rw [test_or, hbit, Bool.true_or]

theorem or_mono (hleft : Le left left') (hright : Le right right') :
    Le (or left right) (or left' right') := by
  refine ⟨?_, fun index hbit => ?_⟩
  · have := hleft.length_le
    have := hright.length_le
    rw [length_or, length_or]
    omega
  · rw [test_or, or_eq_true] at hbit ⊢
    exact hbit.imp (hleft.test_le index) (hright.test_le index)

theorem and_mono (hleft : Le left left') (hright : Le right right') :
    Le (and left right) (and left' right') := by
  refine ⟨?_, fun index hbit => ?_⟩
  · have := hleft.length_le
    have := hright.length_le
    rw [length_and, length_and]
    omega
  · rw [test_and, and_eq_true] at hbit ⊢
    exact ⟨hleft.test_le index hbit.1, hright.test_le index hbit.2⟩

theorem or_eq_right_of_le (hle : Le left right) : or left right = right := by
  apply ext
  · rw [length_or]
    exact max_eq_right hle.length_le
  · intro index
    rw [test_or]
    cases hbit : left.test index with
    | false => rw [Bool.false_or]
    | true => rw [hle.test_le index hbit, Bool.true_or]

end Bitmap

end Foundation
