import Vast.Core.KeySuffix

/-! # Matching field names in the catalog

The catalog decides by a direct comparison of strings whether a field extractor
names a field, while the resolution of an expression walks through the schema.
Both are meant to accept the endings of the schema name, a dot, and the key of
the field that start at the beginning or directly after a dot. The comparison
does. The walk forgets where a key was stripped, and does not look for dots in
the names of records, so that the two agree only on some keys.
-/

namespace Vast

open Foundation RecordType List QualifiedRecordField SeparatedSuffix

/-- Whether the key of a field extractor names the field. -/
def matchName (key : String) (field : QualifiedRecordField) : Bool :=
  let key := key.toList
  let fieldName := field.fieldName.toList
  let schemaName := field.schemaName.toList
  if key.length ≤ fieldName.length then
    let pos := fieldName.length - key.length
    fieldName.drop pos == key && (pos == 0 || fieldName[pos - 1]? == some '.')
  else if schemaName.length + 1 + fieldName.length < key.length then false
  else
    let pos := key.length - fieldName.length
    if key.drop pos != fieldName then false
    else if key[pos - 1]? != some '.' then false
    else
      let fpos := schemaName.length - (pos - 1)
      key.take (pos - 1) == schemaName.drop fpos &&
        (fpos == 0 || schemaName[fpos - 1]? == some '.')

/-- A longer key ends with a dot and the field name exactly when the positions
say so. -/
theorem eq_take_append_iff {key fieldName : List Char} (hlong : fieldName.length < key.length) :
    key = key.take (key.length - fieldName.length - 1) ++ '.' :: fieldName ↔
      key.drop (key.length - fieldName.length) = fieldName ∧
        key[key.length - fieldName.length - 1]? = some '.' := by
  have hlt : key.length - fieldName.length - 1 < key.length := by omega
  have hsucc : key.length - fieldName.length - 1 + 1 = key.length - fieldName.length := by omega
  have hcons := drop_eq_getElem_cons hlt
  rw [hsucc] at hcons
  have hsplit := take_append_drop (key.length - fieldName.length - 1) key
  rw [getElem?_eq_some_iff]
  constructor
  · intro heq
    have hdrop := append_cancel_left (hsplit.trans heq)
    rw [hcons, cons.injEq] at hdrop
    exact ⟨hdrop.2, hlt, hdrop.1⟩
  · rintro ⟨hdrop, _, hget⟩
    rw [hcons, hget, hdrop] at hsplit
    exact hsplit.symm

/-- The comparison accepts the separated endings of the full name. -/
theorem matchName_iff (key : String) (field : QualifiedRecordField) :
    matchName key field = true ↔ SeparatedSuffix '.' key.toList
        (field.schemaName.toList ++ '.' :: field.fieldName.toList) := by
  obtain ⟨schemaName, fieldName, type⟩ := field
  simp only [matchName]
  generalize key.toList = key, schemaName.toList = schemaName, fieldName.toList = fieldName
  rw [append_iff]
  split
  next hshort =>
    -- A short key cannot reach beyond the field name.
    have hlong : ¬ ∃ ending, SeparatedSuffix '.' ending schemaName ∧
        key = ending ++ '.' :: fieldName := by
      rintro ⟨ending, -, rfl⟩
      simp at hshort
      omega
    rw [or_iff_left hlong, iff_drop '.' hshort]
    simp
  next hlong =>
    have hfield : ¬ SeparatedSuffix '.' key fieldName :=
      fun hsuffix => hlong hsuffix.isSuffix.length_le
    rw [or_iff_right hfield]
    split
    next hexcess =>
      constructor
      · intro h
        cases h
      · rintro ⟨ending, hending, rfl⟩
        have hle := hending.isSuffix.length_le
        simp at hexcess
        omega
    next hfits =>
      have hlen : (key.take (key.length - fieldName.length - 1)).length =
          key.length - fieldName.length - 1 := by
        rw [length_take]
        omega
      have hending : SeparatedSuffix '.' (key.take (key.length - fieldName.length - 1))
          schemaName ↔ _ := iff_drop '.' (by omega)
      rw [hlen] at hending
      have hsplit := eq_take_append_iff (Nat.lt_of_not_le hlong)
      constructor
      · intro haccept
        split at haccept
        · cases haccept
        next hdrop =>
          split at haccept
          · cases haccept
          next hdot =>
            have heq := hsplit.mpr ⟨by simpa using hdrop, by simpa using hdot⟩
            refine ⟨_, hending.mpr ?_, heq⟩
            rw [Bool.and_eq_true, beq_iff_eq, Bool.or_eq_true, beq_iff_eq, beq_iff_eq] at haccept
            exact ⟨haccept.1.symm, haccept.2⟩
      · rintro ⟨ending, hsuffix, heq⟩
        have htake : key.take (key.length - fieldName.length - 1) = ending := by
          have hcount : key.length - fieldName.length - 1 = ending.length := by
            rw [heq]
            simp
            omega
          rw [hcount, heq, take_left]
        rw [← htake] at hsuffix heq
        obtain ⟨hdrop, hdot⟩ := hsplit.mp heq
        obtain ⟨hname, hpos⟩ := hending.mp hsuffix
        simp only [hdrop, hdot, hname]
        simpa using hpos

/-! ## Readings of a key

A key can be read as the name of a leaf in three ways. The name of the leaf is
given with the names of the records around it. -/

variable (key schemaName : List Char)

variable (records : List String)

variable (name : List Char)

/-- A reading that names a whole ending: a part of the name of the leaf, the leaf
below some of the innermost records, or the leaf below all records and an ending
of the schema name. -/
def Contiguous : Prop :=
  SeparatedSuffix '.' key name ∨
    (∃ inner, inner <:+ records ∧ inner ≠ [] ∧ key = qualify inner name) ∨
    ∃ ending, ending ≠ [] ∧ SeparatedSuffix '.' ending schemaName ∧
      key = ending ++ '.' :: qualify records name

/-- A reading that leaves out something in between: the front part of a leaf name
below a record, or a record below the schema name. -/
def Gapped : Prop :=
  (∃ inner part, inner <:+ records ∧ inner ≠ [] ∧ SeparatedSuffix '.' part name ∧ part ≠ name ∧
      key = qualify inner part) ∨
    ∃ ending inner part, ending ≠ [] ∧ SeparatedSuffix '.' ending schemaName ∧
      inner <:+ records ∧ SeparatedSuffix '.' part name ∧ (inner ≠ records ∨ part ≠ name) ∧
      key = ending ++ '.' :: qualify inner part

/-- A reading that starts at a dot in the name of a record, or with the dot after
the schema name. -/
def Hidden : Prop :=
  (∃ outer record inner ending, records = outer ++ record :: inner ∧
      SeparatedSuffix '.' ending record.toList ∧ ending ≠ record.toList ∧
      key = ending ++ '.' :: qualify inner name) ∨
    (SeparatedSuffix '.' [] schemaName ∧ key = '.' :: qualify records name)

theorem separatedSuffix_qualify_iff (key : List Char) (records : List String) (name : List Char) :
    SeparatedSuffix '.' key (qualify records name) ↔
      SeparatedSuffix '.' key name ∨ ∃ outer record inner ending,
        records = outer ++ record :: inner ∧ SeparatedSuffix '.' ending record.toList ∧
          key = ending ++ '.' :: qualify inner name := by
  induction records with
  | nil => simp [qualify]
  | cons first rest ih =>
    rw [qualify_cons, append_iff, ih]
    constructor
    · rintro ((hname | ⟨outer, record, inner, ending, rfl, hending, heq⟩) | ⟨ending, hending, heq⟩)
      · exact Or.inl hname
      · exact Or.inr ⟨first :: outer, record, inner, ending, rfl, hending, heq⟩
      · exact Or.inr ⟨[], first, rest, ending, rfl, hending, heq⟩
    · rintro (hname | ⟨outer, record, inner, ending, hrecords, hending, heq⟩)
      · exact Or.inl (Or.inl hname)
      · cases outer with
        | nil =>
          obtain ⟨rfl, rfl⟩ : first = record ∧ rest = inner := by simpa using hrecords
          exact Or.inr ⟨ending, hending, heq⟩
        | cons head outer =>
          obtain ⟨rfl, rfl⟩ : first = head ∧ rest = outer ++ record :: inner := by
            simpa using hrecords
          exact Or.inl (Or.inr ⟨outer, record, inner, ending, rfl, hending, heq⟩)

theorem separatedSuffix_iff_reading :
    SeparatedSuffix '.' key (schemaName ++ '.' :: qualify records name) ↔
      Contiguous key schemaName records name ∨ Hidden key schemaName records name := by
  rw [append_iff, separatedSuffix_qualify_iff]
  constructor
  · rintro ((hname | ⟨outer, record, inner, ending, rfl, hending, heq⟩) | ⟨ending, hending, heq⟩)
    · exact Or.inl (Or.inl hname)
    · by_cases hwhole : ending = record.toList
      · refine Or.inl (Or.inr (Or.inl ⟨record :: inner, suffix_append outer _, by simp, ?_⟩))
        rw [heq, hwhole, qualify_cons]
      · exact Or.inr (Or.inl ⟨outer, record, inner, ending, rfl, hending, hwhole, heq⟩)
    · by_cases hempty : ending = []
      · subst hempty
        exact Or.inr (Or.inr ⟨hending, heq⟩)
      · exact Or.inl (Or.inr (Or.inr ⟨ending, hempty, hending, heq⟩))
  · rintro ((hname | ⟨inner, ⟨outer, rfl⟩, hne, heq⟩ | ⟨ending, _, hending, heq⟩) |
      ⟨outer, record, inner, ending, hrecords, hending, _, heq⟩ | ⟨hschema, heq⟩)
    · exact Or.inl (Or.inl hname)
    · obtain ⟨record, inner, rfl⟩ := exists_cons_of_ne_nil hne
      exact Or.inl (Or.inr ⟨outer, record, inner, record.toList, rfl,
        refl '.' _, heq⟩)
    · exact Or.inr ⟨ending, hending, heq⟩
    · exact Or.inl (Or.inr ⟨outer, record, inner, ending, hrecords, hending, heq⟩)
    · exact Or.inr ⟨[], hschema, heq⟩

variable {leaf : Leaf (List String)}

/-- The walk finds the leaves for which the key has a contiguous reading or one
with a gap. -/
theorem mem_resolveKeySuffix_iff_reading {key schemaName : String}
    {fields : List (String × VastType)} (hkey : key ≠ "") (hleaf : leaf ∈ leaves fields) :
    leaf.offset ∈ resolveKeySuffix key schemaName fields ↔
      Contiguous key.toList schemaName.toList leaf.context leaf.name.toList ∨
        Gapped key.toList schemaName.toList leaf.context leaf.name.toList := by
  rw [mem_resolveKeySuffix hkey hleaf]
  simp only [initialKeys, mem_cons, mem_stripQualifier]
  constructor
  · rintro ⟨inner, part, hinner, hpart, heq | ⟨ending, hne, hending, heq⟩⟩
    · by_cases hempty : inner = []
      · subst hempty
        exact Or.inl (Or.inl (heq ▸ hpart))
      · by_cases hwhole : part = leaf.name.toList
        · exact Or.inl (Or.inr (Or.inl ⟨inner, hinner, hempty, hwhole ▸ heq.symm⟩))
        · exact Or.inr (Or.inl ⟨inner, part, hinner, hempty, hpart, hwhole, heq.symm⟩)
    · by_cases hwhole : inner = leaf.context ∧ part = leaf.name.toList
      · refine Or.inl (Or.inr (Or.inr ⟨ending, hne, hending, ?_⟩))
        rw [heq, hwhole.1, hwhole.2]
      · exact Or.inr (Or.inr ⟨ending, inner, part, hne, hending, hinner, hpart,
          not_and_or.mp hwhole, heq⟩)
  · have hrefl := refl '.' leaf.name.toList
    rintro ((hname | ⟨inner, hinner, _, heq⟩ | ⟨ending, hne, hending, heq⟩) |
      ⟨inner, part, hinner, _, hpart, _, heq⟩ |
      ⟨ending, inner, part, hne, hending, hinner, hpart, _, heq⟩)
    · exact ⟨[], key.toList, nil_suffix, hname, Or.inl rfl⟩
    · exact ⟨inner, leaf.name.toList, hinner, hrefl, Or.inl heq.symm⟩
    · exact ⟨leaf.context, leaf.name.toList, suffix_rfl, hrefl, Or.inr ⟨ending, hne, hending, heq⟩⟩
    · exact ⟨inner, part, hinner, hpart, Or.inl heq.symm⟩
    · exact ⟨inner, part, hinner, hpart, Or.inr ⟨ending, hne, hending, heq⟩⟩

/-- The walk, the endings of the full name, and the comparison of the catalog agree
on a leaf exactly when the key has a contiguous reading, or when it has a reading
with a gap just in case it has a hidden one. -/
theorem name_matching_agrees_iff (schema : VastType) (key : String) (hkey : key ≠ "")
    (leaf : Leaf (List String)) (hleaf : leaf ∈ leaves schema.fields) :
    ((leaf.offset ∈ resolveKeySuffix key schema.name schema.fields ↔ SeparatedSuffix '.' key.toList
            (schema.name ++ "." ++ RecordType.key schema.fields leaf.offset).toList) ∧
        (SeparatedSuffix '.' key.toList
            (schema.name ++ "." ++ RecordType.key schema.fields leaf.offset).toList ↔
          matchName key (ofLeaf schema leaf) = true) ∧
        (resolveKeySuffix key schema.name schema.fields).Nodup) ↔
      Contiguous key.toList schema.name.toList leaf.context leaf.name.toList ∨
        (Gapped key.toList schema.name.toList leaf.context leaf.name.toList ↔
          Hidden key.toList schema.name.toList leaf.context leaf.name.toList) := by
  have hfull : (schema.name ++ "." ++ RecordType.key schema.fields leaf.offset).toList =
      schema.name.toList ++ '.' :: (RecordType.key schema.fields leaf.offset).toList := by
    simp
  have hmatch := matchName_iff key (ofLeaf schema leaf)
  simp only [ofLeaf] at hmatch ⊢
  rw [hfull, hmatch, mem_resolveKeySuffix_iff_reading hkey hleaf, key_of_mem_leaves hleaf,
    separatedSuffix_iff_reading]
  rw [and_iff_left ⟨Iff.rfl, nodup_resolveKeySuffix key schema.name schema.fields⟩]
  by_cases hcontiguous : Contiguous key.toList schema.name.toList leaf.context leaf.name.toList
  · simp [hcontiguous]
  · simp [hcontiguous]

/-- No leaf of the schema with a property is named by the key with a gap only. -/
def GapFree (key : String) (property : VastType → Bool) (schema : VastType) : Prop :=
  ∀ leaf ∈ leaves schema.fields, property leaf.type = true →
    Gapped key.toList schema.name.toList leaf.context leaf.name.toList →
      Contiguous key.toList schema.name.toList leaf.context leaf.name.toList ∨
        Hidden key.toList schema.name.toList leaf.context leaf.name.toList

variable {key : String}

/-- The catalog accepts what the walk finds without a gap. -/
theorem matchName_of_mem_resolveKeySuffix {schema : VastType} {property : VastType → Bool}
    (hgap : GapFree key property schema) (hleaf : leaf ∈ leaves schema.fields)
    (hproperty : property leaf.type = true)
    (hfound : leaf.offset ∈ resolveKeySuffix key schema.name schema.fields) :
    matchName key (ofLeaf schema leaf) = true := by
  have hkey : key ≠ "" := by
    rintro rfl
    simp [resolveKeySuffix] at hfound
  rw [mem_resolveKeySuffix_iff_reading hkey hleaf] at hfound
  rw [matchName_iff]
  simp only [ofLeaf]
  rw [key_of_mem_leaves hleaf, separatedSuffix_iff_reading]
  rcases hfound with hcontiguous | hgapped
  · exact Or.inl hcontiguous
  · exact hgap leaf hleaf hproperty hgapped

/-- A schema with a nested record, as a connection log has it. -/
def connSchema : VastType :=
  .enriched (.record [("ts", .basic .time),
    ("id", .record [("orig_h", .basic .ip), ("resp_h", .basic .ip)])]) (some "zeek.conn") []

def origH : Leaf (List String) :=
  ⟨[1, 0], "orig_h", .basic .ip, ["id"]⟩

/-- The full key below the last component of the schema name is found by all three. -/
theorem name_matching_agrees_conn :
    [1, 0] ∈ resolveKeySuffix "conn.id.orig_h" "zeek.conn" connSchema.fields ↔
      matchName "conn.id.orig_h" (ofLeaf connSchema origH) = true := by
  have hagrees := (name_matching_agrees_iff connSchema "conn.id.orig_h" (by decide) origH
    (by decide)).mpr (Or.inl (Or.inr (Or.inr ⟨"conn".toList, by decide, by decide, by decide⟩)))
  exact hagrees.1.trans hagrees.2.1

/-- Without the record in between, the walk still finds the leaf. -/
theorem skipped_record_is_found : origH ∈ leaves connSchema.fields ∧
      [1, 0] ∈ resolveKeySuffix "conn.orig_h" "zeek.conn" connSchema.fields ∧
      ¬ SeparatedSuffix '.' "conn.orig_h".toList "zeek.conn.id.orig_h".toList ∧
      matchName "conn.orig_h" (ofLeaf connSchema origH) = false := by
  decide

end Vast
