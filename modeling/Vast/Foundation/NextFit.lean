import Mathlib.Algebra.Order.Ring.Nat
import Mathlib.Data.List.Chain

/-! # Filling bins one after another

Items arrive in a sequence and are put into bins of a fixed capacity. Only the
last bin is filled: an item that does not fit there gets a bin of its own, which
it may exceed. The bins hold consecutive segments of the sequence.
-/

namespace Foundation.NextFit

open List

variable {α : Type*} (capacity : Nat) (size : α → Nat)

def load (bin : List α) : Nat :=
  (bin.map size).sum

@[simp]
theorem load_nil : load size [] = 0 := rfl

@[simp]
theorem load_cons (item : α) (bin : List α) : load size (item :: bin) = size item + load size bin :=
  rfl

@[simp]
theorem load_append (first second : List α) :
    load size (first ++ second) = load size first + load size second := by
  simp [load]

variable {capacity size} {bins : List (List α)} {last items : List α} {item : α}

/-- The first item of the second bin does not fit into the first one. -/
def Overflows (capacity : Nat) (size : α → Nat) (first second : List α) : Prop :=
  ∃ item rest, second = item :: rest ∧ capacity < load size first + size item

/-- Bins hold consecutive segments of the items. A bin exceeds the capacity only
for the sake of a single item, and a new bin is begun only when it is needed. -/
structure Packed (capacity : Nat) (size : α → Nat) (items : List α) (bins : List (List α)) :
    Prop where
  flatten : bins.flatten = items
  nonempty : ∀ bin ∈ bins, bin ≠ []
  fits : ∀ bin ∈ bins, load size bin ≤ capacity ∨ bin.length = 1
  overflows : bins.IsChain (Overflows capacity size)

theorem packed_nil : Packed capacity size [] [] :=
  ⟨rfl, by simp, by simp, isChain_nil⟩

/-- An item that fits is put into the last bin. -/
theorem Packed.add (hpacked : Packed capacity size items (bins ++ [last]))
    (hfits : load size last + size item ≤ capacity) :
    Packed capacity size (items ++ [item]) (bins ++ [last ++ [item]]) := by
  obtain ⟨hflatten, hnonempty, hloads, hoverflows⟩ := hpacked
  rw [forall_mem_append] at hnonempty hloads
  refine ⟨?_, forall_mem_append.mpr ⟨hnonempty.1, by simp⟩,
    forall_mem_append.mpr ⟨hloads.1, ?_⟩, ?_⟩
  · rw [← hflatten]
    simp
  · rw [forall_mem_singleton, load_append]
    exact Or.inl hfits
  · rw [isChain_append] at hoverflows ⊢
    refine ⟨hoverflows.1, isChain_singleton _, ?_⟩
    intro previous hprevious bin hbin
    obtain rfl : last ++ [item] = bin := by simpa using hbin
    -- The bin begins with the same item as before.
    obtain ⟨first, rest, rfl, hfull⟩ := hoverflows.2.2 previous hprevious last (by simp)
    exact ⟨first, rest ++ [item], rfl, hfull⟩

/-- An item that does not fit into the last bin begins a new one. -/
theorem Packed.begin (hpacked : Packed capacity size items bins)
    (hfull : ∀ last ∈ bins.getLast?, capacity < load size last + size item) :
    Packed capacity size (items ++ [item]) (bins ++ [[item]]) := by
  obtain ⟨hflatten, hnonempty, hloads, hoverflows⟩ := hpacked
  refine ⟨?_, forall_mem_append.mpr ⟨hnonempty, by simp⟩,
    forall_mem_append.mpr ⟨hloads, by simp⟩, ?_⟩
  · rw [flatten_append, hflatten]
    rfl
  · rw [isChain_append]
    refine ⟨hoverflows, isChain_singleton _, ?_⟩
    intro previous hprevious bin hbin
    obtain rfl : [item] = bin := by simpa using hbin
    exact ⟨item, [], rfl, hfull previous hprevious⟩

end Foundation.NextFit
