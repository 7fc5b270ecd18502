import Mathlib.Data.List.Sort

/-! # Sorting routines

A sorting routine rearranges a list so that no item comes after one that it should
precede. It may arrange items of the same rank in any way.
-/

namespace Foundation

structure Sorting {α : Type*} (before : α → α → Prop) where
  sort : List α → List α
  perm : ∀ items, (sort items).Perm items
  sorted : ∀ items, (sort items).Pairwise fun first second => ¬before second first

namespace Sorting

variable {α : Type*} {before : α → α → Prop}

/-- Stable sorting by insertion, for a total order that contradicts the wrong order. -/
def insertion (order : α → α → Prop) [DecidableRel order] [Std.Total order] [IsTrans α order]
    (horder : ∀ first second, order first second → ¬before second first) : Sorting before where
  sort := List.insertionSort order
  perm := List.perm_insertionSort order
  sorted items := (List.pairwise_insertionSort order items).imp fun hle => horder _ _ hle

variable (sorting : Sorting before)

theorem length_sort (items : List α) : (sorting.sort items).length = items.length :=
  (sorting.perm items).length_eq

end Sorting

end Foundation
