import Vast.Foundation.Ascending

/-! # Sets as ascending lists

A set over a sorted vector. Items are inserted at their lower bound, and the difference
of a list and a set goes through both at once.
-/

namespace Foundation

open List

variable {α κ : Type*} [LinearOrder κ]

structure FlatSet (κ : Type*) [LinearOrder κ] where
  items : List κ
  ascending : Ascending id items

namespace FlatSet

def empty : FlatSet κ where
  items := []
  ascending := List.Pairwise.nil

/-- Insert an item before the first one that is not less, unless they are equal. -/
def insertItem (item : κ) : List κ → List κ
  | [] => [item]
  | head :: rest =>
    if head < item then head :: insertItem item rest
    else if item < head then item :: head :: rest
    else head :: rest

theorem mem_insertItem {item other : κ} {items : List κ} :
    other ∈ insertItem item items ↔ other = item ∨ other ∈ items := by
  induction items with
  | nil => simp [insertItem]
  | cons head rest ih =>
    rw [insertItem]
    split
    · rw [mem_cons, ih, mem_cons, or_left_comm]
    next hge =>
      split
      · exact mem_cons
      next hle =>
        have heq : item = head := le_antisymm (not_lt.mp hge) (not_lt.mp hle)
        simp [heq]

theorem ascending_insertItem (item : κ) {items : List κ} (hitems : Ascending id items) :
    Ascending id (insertItem item items) := by
  induction items with
  | nil => exact pairwise_singleton _ _
  | cons head rest ih =>
    rw [insertItem]
    split
    next hlt =>
      refine pairwise_cons.mpr ⟨fun other hother => ?_, ih hitems.tail⟩
      rcases mem_insertItem.mp hother with rfl | hrest
      · exact hlt
      · exact hitems.lt_of_mem hrest
    · split
      next hlt =>
        refine pairwise_cons.mpr ⟨fun other hother => ?_, hitems⟩
        rcases mem_cons.mp hother with rfl | hrest
        · exact hlt
        · exact lt_trans hlt (hitems.lt_of_mem hrest)
      · exact hitems

def insert (set : FlatSet κ) (item : κ) : FlatSet κ where
  items := insertItem item set.items
  ascending := ascending_insertItem item set.ascending

theorem mem_insert {set : FlatSet κ} {item other : κ} :
    other ∈ (set.insert item).items ↔ other = item ∨ other ∈ set.items :=
  mem_insertItem

/-- The items whose key is not in the other list. The other list is skipped up to the key
at hand. -/
def difference (key : α → κ) : List α → List κ → List α
  | [], _ => []
  | item :: items, others =>
    match others.dropWhile fun other => decide (other < key item) with
    | [] => item :: items
    | other :: rest =>
      if key item < other then item :: difference key items (other :: rest)
      else difference key items rest

theorem difference_eq_filter {key : α → κ} {items : List α} {others : List κ}
    {absent : α → Bool} (habsent : ∀ item ∈ items, absent item = true ↔ key item ∉ others)
    (hitems : Ascending key items) (hothers : Ascending id others) :
    difference key items others = items.filter absent := by
  induction items generalizing others with
  | nil => rfl
  | cons item rest ih =>
    have hdropped : Ascending id (others.dropWhile fun other => decide (other < key item)) :=
      hothers.dropWhile _
    -- What is skipped is less than this key and all keys to come.
    have habsent' : ∀ kept ∈ item :: rest, absent kept = true ↔
        key kept ∉ others.dropWhile fun other => decide (other < key item) := by
      intro kept hkept
      have hmem := hothers.exists_mem_dropWhile_iff (hitems.le_of_mem_cons hkept)
      simp only [id_eq, exists_eq_right] at hmem
      rw [habsent kept hkept, hmem]
    rw [difference]
    cases hrest : others.dropWhile fun other => decide (other < key item) with
    | nil =>
      rw [filter_eq_self.mpr]
      intro kept hkept
      rw [habsent' kept hkept, hrest]
      exact not_mem_nil
    | cons other later =>
      rw [hrest] at hdropped habsent'
      obtain ⟨hitem, hlater⟩ := forall_mem_cons.mp habsent'
      dsimp only
      split
      next hlt =>
        have hkept : absent item = true := by
          rw [hitem, mem_cons, not_or]
          refine ⟨hlt.ne, fun hmem => ?_⟩
          exact lt_asymm hlt (hdropped.lt_of_mem hmem)
        rw [filter_cons_of_pos hkept, ih hlater hitems.tail hdropped]
      next hge =>
        have hother : key item ≤ other := hothers.le_of_mem_dropWhile (by simp [hrest])
        have heq : key item = other := le_antisymm hother (not_lt.mp hge)
        rw [filter_cons_of_neg (by simp [hitem, heq]), ih ?_ hitems.tail hdropped.tail]
        intro kept hkept
        have hne : key kept ≠ other := heq ▸ (hitems.lt_of_mem hkept).ne'
        rw [hlater kept hkept, mem_cons, or_iff_right hne]

end FlatSet

end Foundation
