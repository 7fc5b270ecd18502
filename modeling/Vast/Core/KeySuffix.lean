import Vast.Core.Record
import Vast.Foundation.SeparatedSuffix

/-! # Resolving a key by its suffix

A field extractor names a field by a suffix of its dotted key, optionally below
the name of the schema. The resolution walks through the record with a list of
keys per level: the keys that a match may start with anywhere, followed by what
is left of the keys that begin with the names of the records on the way.
-/

namespace Vast.RecordType

open Foundation List

/-- What follows a name and a dot in a key. -/
def stripName (name key : List Char) : Option (List Char) :=
  match mismatch name key with
  | ([], '.' :: rest) => some rest
  | _ => none

mutual

/-- The offset of the first field whose key is the given one. Records whose name
the key starts with are searched for the rest of the key, and the search goes on
behind a record in vain. -/
def resolveKey (position : Nat) (key : List Char) : List (String × VastType) → Option Offset
  | [] => none
  | (name, type) :: rest =>
    if key = [] then none
    else
      match resolveKeyField key name.toList type with
      | some offset => some (position :: offset)
      | none => resolveKey (position + 1) key rest

def resolveKeyField (key name : List Char) : VastType → Option Offset
  | .enriched type _ _ => resolveKeyField key name type
  | .record fields =>
    if name = key then some []
    else
      match stripName name key with
      | some rest => resolveKey 0 rest fields
      | none => none
  | _ => if name = key then some [] else none

end

/-- What is left of the key after the parts of the qualifier that start at its
beginning or after a dot. -/
def stripQualifier (key : List Char) : Bool → List Char → List (List Char)
  | _, [] => []
  | start, c :: rest =>
    (if start then (stripName (c :: rest) key).toList else []) ++
      stripQualifier key (c == '.') rest

/-- Whether the name of a leaf ends with a key. A flattened name contains dots,
so that the key can also be a part of the name. -/
def endsWithKey (name key : List Char) : Bool :=
  match mismatch name.reverse key.reverse with
  | ([], []) => true
  | ('.' :: _, []) => true
  | _ => false

/-- The keys in a nested record: the search starts over with the initial keys,
and continues with the keys that begin with the name of the record. -/
def enterKeys (initial remaining : List (List Char)) (name : String) : List (List Char) :=
  initial ++ remaining.filterMap (stripName name.toList)

def initialKeys (key qualifier : String) : List (List Char) :=
  key.toList :: stripQualifier key.toList true qualifier.toList

def resolveKeySuffix (key qualifier : String) (fields : List (String × VastType)) : List Offset :=
  if key = "" then []
  else
    let keys := initialKeys key qualifier
    ((visits (enterKeys keys) keys fields).filter
      fun leaf => leaf.context.any (endsWithKey leaf.name.toList)).map Leaf.offset

/-! ## String comparisons -/

theorem stripName_eq_some {name key rest : List Char} :
    stripName name key = some rest ↔ key = name ++ '.' :: rest := by
  rw [← mismatch_eq_nil_left_iff]
  unfold stripName
  split
  next rest' heq => simp [heq]
  next hne =>
    constructor
    · intro h
      cases h
    · intro heq
      exact absurd heq (hne rest)

theorem endsWithKey_iff (name key : List Char) :
    endsWithKey name key = true ↔ SeparatedSuffix '.' key name := by
  have hreverse : ∀ rest, mismatch name.reverse key.reverse = (rest, []) ↔
      name = rest.reverse ++ key := by
    intro rest
    rw [mismatch_eq_nil_right_iff]
    simp
  unfold endsWithKey SeparatedSuffix
  constructor
  · split
    next heq => exact fun _ => Or.inl (by simpa using ((hreverse []).mp heq).symm)
    next before heq =>
      intro _
      refine Or.inr ⟨before.reverse, ?_⟩
      simpa using ((hreverse ('.' :: before)).mp heq).symm
    · exact fun h => by cases h
  · rintro (rfl | ⟨before, rfl⟩)
    · rw [(hreverse []).mpr (by simp)]
    · rw [(hreverse ('.' :: before.reverse)).mpr (by simp)]
      rfl

theorem mem_stripQualifier_aux (key rest : List Char) (start : Bool) (qualifier : List Char) :
    rest ∈ stripQualifier key start qualifier ↔
      ∃ ending, ending ≠ [] ∧ (start = true ∧ ending = qualifier ∨ '.' :: ending <:+ qualifier) ∧
        key = ending ++ '.' :: rest := by
  induction qualifier generalizing start with
  | nil =>
    simp only [stripQualifier, not_mem_nil, suffix_nil, reduceCtorEq, or_false,
      false_iff, not_exists]
    rintro ending ⟨hne, ⟨_, heq⟩, _⟩
    exact hne heq
  | cons c tail ih =>
    have hhead : rest ∈ (if start then (stripName (c :: tail) key).toList else []) ↔
        start = true ∧ key = (c :: tail) ++ '.' :: rest := by
      cases start
      · simp
      · simp [stripName_eq_some]
    rw [stripQualifier, mem_append, hhead, ih]
    constructor
    · rintro (⟨hstart, heq⟩ | ⟨ending, hne, (⟨hdot, rfl⟩ | hsuffix), heq⟩)
      · exact ⟨c :: tail, by simp, Or.inl ⟨hstart, rfl⟩, heq⟩
      · rw [beq_iff_eq] at hdot
        exact ⟨ending, hne, Or.inr (by rw [hdot]), heq⟩
      · exact ⟨ending, hne, Or.inr (hsuffix.trans (suffix_cons c tail)), heq⟩
    · rintro ⟨ending, hne, (⟨hstart, rfl⟩ | hsuffix), heq⟩
      · exact Or.inl ⟨hstart, heq⟩
      · rcases suffix_cons_iff.mp hsuffix with hwhole | hsuffix
        · obtain ⟨rfl, rfl⟩ : '.' = c ∧ ending = tail := by simpa using hwhole
          exact Or.inr ⟨ending, hne, Or.inl ⟨rfl, rfl⟩, heq⟩
        · exact Or.inr ⟨ending, hne, Or.inr hsuffix, heq⟩

theorem mem_stripQualifier (key rest qualifier : List Char) :
    rest ∈ stripQualifier key true qualifier ↔
      ∃ ending, ending ≠ [] ∧ SeparatedSuffix '.' ending qualifier ∧
        key = ending ++ '.' :: rest := by
  rw [mem_stripQualifier_aux]
  simp [SeparatedSuffix]

/-! ## Keys on the way to a leaf -/

theorem qualify_append (outer inner : List String) (name : List Char) :
    qualify (outer ++ inner) name = qualify outer (qualify inner name) := by
  simp [qualify]

theorem qualify_cons (record : String) (records : List String) (name : List Char) :
    qualify (record :: records) name = record.toList ++ '.' :: qualify records name := rfl

/-- The keys at a leaf are what is left of the initial keys after the names of
the innermost records, as many of them as the key has. -/
theorem mem_foldl_enterKeys (initial : List (List Char)) (records : List String)
    (part : List Char) : part ∈ records.foldl (enterKeys initial) initial ↔
      ∃ inner, inner <:+ records ∧ qualify inner part ∈ initial := by
  induction records using reverseRecOn generalizing part with
  | nil => simp [qualify]
  | append_singleton records name ih =>
    rw [foldl_append, foldl_cons, foldl_nil, enterKeys, mem_append, mem_filterMap]
    constructor
    · rintro (hinitial | ⟨key, hkey, hstrip⟩)
      · exact ⟨[], nil_suffix, hinitial⟩
      · rw [stripName_eq_some] at hstrip
        obtain ⟨inner, hsuffix, hmem⟩ := (ih key).mp hkey
        refine ⟨inner ++ [name], suffix_append_self_iff.mpr hsuffix, ?_⟩
        rw [qualify_append, qualify_cons]
        exact hstrip ▸ hmem
    · rintro ⟨inner, hsuffix, hmem⟩
      rcases eq_nil_or_concat inner with rfl | ⟨init, last, rfl⟩
      · exact Or.inl hmem
      · rw [concat_eq_append] at hsuffix hmem
        obtain ⟨before, heq⟩ := hsuffix
        rw [← append_assoc] at heq
        obtain ⟨rfl, hlast⟩ := append_inj' heq rfl
        obtain rfl : last = name := by simpa using hlast
        rw [qualify_append] at hmem
        refine Or.inr ⟨last.toList ++ '.' :: part, ?_, stripName_eq_some.mpr rfl⟩
        exact (ih _).mpr ⟨init, suffix_append before init, hmem⟩

/-- A traversal with keys visits the leaves with the keys left by the records
around each of them. -/
theorem visits_enterKeys (initial : List (List Char)) (fields : List (String × VastType)) :
    visits (enterKeys initial) initial fields =
      (leaves fields).map (Leaf.map fun records => records.foldl (enterKeys initial) initial) := by
  have henter : ∀ (records : List String) (name : String),
      (enclose records name).foldl (enterKeys initial) initial =
        enterKeys initial (records.foldl (enterKeys initial) initial) name := by
    simp [enclose]
  exact visits_map (foldl (enterKeys initial) initial) henter [] fields

variable {key qualifier : String} {fields : List (String × VastType)}

/-- A leaf is found when an initial key consists of the names of the innermost
records around the leaf and of an ending of its name. -/
theorem mem_resolveKeySuffix {leaf : Leaf (List String)} (hkey : key ≠ "")
    (hleaf : leaf ∈ leaves fields) : leaf.offset ∈ resolveKeySuffix key qualifier fields ↔
      ∃ inner part, inner <:+ leaf.context ∧ SeparatedSuffix '.' part leaf.name.toList ∧
        qualify inner part ∈ initialKeys key qualifier := by
  have hunique : ∀ other ∈ leaves fields, other.offset = leaf.offset → other = leaf :=
    fun other hother heq => eq_of_offset_eq hother hleaf heq
  simp only [resolveKeySuffix, if_neg hkey, visits_enterKeys, filter_map, map_map, mem_map]
  simp only [mem_filter, Function.comp_apply, Leaf.map, any_eq_true, endsWithKey_iff,
    mem_foldl_enterKeys]
  constructor
  · rintro ⟨other, ⟨hother, part, ⟨inner, hsuffix, hmem⟩, hpart⟩, heq⟩
    obtain rfl := hunique other hother heq
    exact ⟨inner, part, hsuffix, hpart, hmem⟩
  · rintro ⟨inner, part, hsuffix, hpart, hmem⟩
    exact ⟨leaf, ⟨hleaf, part, ⟨inner, hsuffix, hmem⟩, hpart⟩, rfl⟩

theorem exists_leaf_of_mem_resolveKeySuffix {offset : Offset}
    (hoffset : offset ∈ resolveKeySuffix key qualifier fields) :
    ∃ leaf ∈ leaves fields, leaf.offset = offset := by
  unfold resolveKeySuffix at hoffset
  split at hoffset
  · simp at hoffset
  · obtain ⟨visit, hvisit, rfl⟩ := mem_map.mp hoffset
    rw [visits_enterKeys, mem_filter, mem_map] at hvisit
    obtain ⟨⟨leaf, hleaf, rfl⟩, -⟩ := hvisit
    exact ⟨leaf, hleaf, rfl⟩

theorem nodup_resolveKeySuffix (key qualifier : String) (fields : List (String × VastType)) :
    (resolveKeySuffix key qualifier fields).Nodup := by
  unfold resolveKeySuffix
  split
  · exact nodup_nil
  · exact Nodup.sublist (filter_sublist.map _)
      (nodup_offset_visits (initialKeys key qualifier) fields)

end Vast.RecordType
