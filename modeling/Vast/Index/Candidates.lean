import Vast.Index.Protocol
import Vast.Queue.Insertion

/-! # The candidates of a query

A lookup lists the partitions of the catalog once, under the schema they were
issued for. The partitions that the index adds are looked for under their schema
only, which is enough for the result to list every partition once as well.
-/

namespace Vast

open Foundation QueryQueue List AssocList CatalogLookupResult

variable {issued : List (Uuid × VastType)} {infos : List (VastType × CandidateInfo)} {id : Uuid}
  {result : CatalogLookupResult}

def CandidateInfo.uuids (info : CandidateInfo) : List Uuid :=
  info.partitionInfos.map PartitionInfo.uuid

/-- Each schema has one entry, which lists partitions of the schema, each one
once. -/
structure Listed (issued : List (Uuid × VastType)) (infos : List (VastType × CandidateInfo)) :
    Prop where
  keys : (infos.map Prod.fst).Nodup
  distinct : ∀ entry ∈ infos, entry.2.uuids.Nodup
  issued : ∀ entry ∈ infos, ∀ id ∈ entry.2.uuids, (id, entry.1) ∈ issued

theorem Listed.mono {later : List (Uuid × VastType)} (hlisted : Listed issued infos)
    (hissued : issued ⊆ later) : Listed later infos where
  keys := hlisted.keys
  distinct := hlisted.distinct
  issued := fun entry hentry id hid => hissued (hlisted.issued entry hentry id hid)

/-- An entry without partitions can be inserted for every schema. -/
theorem Listed.emplace (hlisted : Listed issued infos) (schema : VastType) (exp : Expression) :
    Listed issued (emplace schema ⟨exp, []⟩ infos) where
  keys := nodup_keys_emplace _ _ hlisted.keys
  distinct := forall_mem_emplace hlisted.distinct fun _ => nodup_nil
  issued := forall_mem_emplace hlisted.issued fun _ _ => nofun

theorem mem_uuids_candidates :
    id ∈ uuids result.candidates ↔ ∃ entry ∈ result.candidateInfos, id ∈ entry.2.uuids := by
  simp only [uuids, candidates, CandidateInfo.uuids, mem_map, mem_flatMap]
  constructor
  · rintro ⟨candidate, ⟨entry, hentry, info, hinfo, rfl⟩, rfl⟩
    exact ⟨entry, hentry, info, hinfo, rfl⟩
  · rintro ⟨entry, hentry, info, hinfo, rfl⟩
    exact ⟨(entry.1, info), ⟨entry, hentry, info, hinfo, rfl⟩, rfl⟩

/-- A partition of two schemas would be issued twice. -/
theorem Listed.nodup_uuids (hlisted : Listed issued result.candidateInfos)
    (hnodup : (issued.map Prod.fst).Nodup) : (uuids result.candidates).Nodup := by
  rw [uuids, candidates, map_flatMap, nodup_flatMap]
  constructor
  · intro entry hentry
    rw [map_map]
    exact hlisted.distinct entry hentry
  · have hkeys := pairwise_map.mp hlisted.keys
    apply hkeys.imp_of_mem
    intro entry other hentry hother hne
    simp only [map_map]
    intro id hid hid'
    exact hne (congrArg Prod.snd (inj_on_of_nodup_map hnodup
      (hlisted.issued entry hentry id hid) (hlisted.issued other hother id hid') rfl))

/-! ## Partitions that the index adds -/

namespace IndexEvaluate

variable {query : QueryContext} {version : UInt64} {candidate : Uuid × VastType}
  {info : CandidateInfo} {id : Uuid}

/-- The candidates of a schema with one more partition, unless it is listed. -/
def withCandidate (version : UInt64) (candidate : Uuid × VastType) (info : CandidateInfo) :
    CandidateInfo :=
  if info.partitionInfos.any fun other => other.uuid = candidate.1 then info
  else { info with
    partitionInfos := info.partitionInfos ++ [⟨candidate.1, 0, 0, candidate.2, version⟩] }

theorem any_uuid_iff :
    (info.partitionInfos.any fun other => other.uuid = id) = true ↔ id ∈ info.uuids := by
  simp [CandidateInfo.uuids]

theorem uuids_withCandidate (version : UInt64) (candidate : Uuid × VastType)
    (info : CandidateInfo) : (withCandidate version candidate info).uuids =
      if candidate.1 ∈ info.uuids then info.uuids else info.uuids ++ [candidate.1] := by
  rw [withCandidate]
  by_cases hmem : candidate.1 ∈ info.uuids
  · rw [if_pos (any_uuid_iff.mpr hmem), if_pos hmem]
  · rw [if_neg fun hany => hmem (any_uuid_iff.mp hany), if_neg hmem]
    simp [CandidateInfo.uuids]

theorem mem_uuids_withCandidate : id ∈ (withCandidate version candidate info).uuids ↔
      id ∈ info.uuids ∨ id = candidate.1 := by
  rw [uuids_withCandidate]
  split
  next hmem =>
    refine ⟨Or.inl, fun hcases => ?_⟩
    rcases hcases with hid | rfl
    · exact hid
    · exact hmem
  · rw [mem_append, mem_singleton]

theorem nodup_uuids_withCandidate (hnodup : info.uuids.Nodup) :
    (withCandidate version candidate info).uuids.Nodup := by
  rw [uuids_withCandidate]
  split
  · exact hnodup
  next hmem =>
    rw [nodup_append]
    exact ⟨hnodup, by simp, fun id hid other hother heq =>
      hmem (mem_singleton.mp hother ▸ heq ▸ hid)⟩

theorem addCandidate_listed (hlisted : Listed issued infos) (hissued : candidate ∈ issued) :
    Listed issued (addCandidate query version infos candidate) := by
  have hemplace := hlisted.emplace candidate.2 query.expr
  change Listed issued (adjust candidate.2 (withCandidate version candidate) _)
  constructor
  · rw [keys_adjust]
    exact hemplace.keys
  · exact forall_mem_adjust
      (fun _ hinfo => nodup_uuids_withCandidate (hemplace.distinct _ hinfo))
      fun entry hentry _ => hemplace.distinct entry hentry
  · refine forall_mem_adjust (fun info hinfo id hid => ?_) fun entry hentry _ =>
      hemplace.issued entry hentry
    rcases mem_uuids_withCandidate.mp hid with hid | rfl
    · exact hemplace.issued _ hinfo id hid
    · exact hissued

/-- One more partition is listed. -/
theorem mem_addCandidate :
    (∃ entry ∈ addCandidate query version infos candidate, id ∈ entry.2.uuids) ↔
      (∃ entry ∈ infos, id ∈ entry.2.uuids) ∨ id = candidate.1 := by
  constructor
  · have hemplace : ∀ entry ∈ emplace candidate.2 ⟨query.expr, []⟩ infos,
        id ∈ entry.2.uuids → ∃ entry ∈ infos, id ∈ entry.2.uuids :=
      forall_mem_emplace (fun entry hentry hid => ⟨entry, hentry, hid⟩) fun _ => nofun
    have hadjust : ∀ entry ∈ addCandidate query version infos candidate, id ∈ entry.2.uuids →
        (∃ entry ∈ infos, id ∈ entry.2.uuids) ∨ id = candidate.1 :=
      forall_mem_adjust
        (fun _ hinfo hid => (mem_uuids_withCandidate.mp hid).imp_left (hemplace _ hinfo))
        fun entry hentry _ hid => Or.inl (hemplace entry hentry hid)
    exact fun ⟨entry, hentry, hid⟩ => hadjust entry hentry hid
  · rintro (⟨entry, hentry, hid⟩ | rfl)
    · refine ⟨_, mem_map_of_mem (mem_emplace hentry), ?_⟩
      split
      · exact mem_uuids_withCandidate.mpr (Or.inl hid)
      · exact hid
    · obtain ⟨info, hinfo⟩ := exists_mem_emplace candidate.2 ⟨query.expr, []⟩ infos
      refine ⟨_, mem_map_of_mem hinfo, ?_⟩
      rw [if_pos rfl]
      exact mem_uuids_withCandidate.mpr (Or.inr rfl)

/-- The partitions that the index captured are added, each one once. -/
theorem foldl_addCandidate (query : QueryContext) (version : UInt64)
    (candidates : List (Uuid × VastType)) (hlisted : Listed issued infos)
    (hissued : ∀ candidate ∈ candidates, candidate ∈ issued) :
    Listed issued (candidates.foldl (addCandidate query version) infos) ∧
      ∀ id, (∃ entry ∈ candidates.foldl (addCandidate query version) infos, id ∈ entry.2.uuids) ↔
        (∃ entry ∈ infos, id ∈ entry.2.uuids) ∨ id ∈ candidates.map Prod.fst := by
  induction candidates generalizing infos with
  | nil => exact ⟨hlisted, by simp⟩
  | cons candidate rest ih =>
    rw [forall_mem_cons] at hissued
    obtain ⟨hrest, hmem⟩ := ih (addCandidate_listed hlisted hissued.1) hissued.2
    refine ⟨hrest, fun id => ?_⟩
    rw [foldl_cons, hmem, mem_addCandidate, map_cons, mem_cons, or_assoc]

end IndexEvaluate

/-! ## Partitions of the catalog -/

namespace CatalogState

variable {maps : List (VastType × FlatMap Uuid PartitionSynopsis)} {state : CatalogState}

/-- Each schema has one map, with partitions that were issued for the schema. -/
structure Catalogued (issued : List (Uuid × VastType))
    (maps : List (VastType × FlatMap Uuid PartitionSynopsis)) : Prop where
  keys : (maps.map Prod.fst).Nodup
  issued : ∀ entry ∈ maps, ∀ partition ∈ entry.2.entries, (partition.1, entry.1) ∈ issued

theorem Catalogued.mono {later : List (Uuid × VastType)} (hcat : Catalogued issued maps)
    (hissued : issued ⊆ later) : Catalogued later maps where
  keys := hcat.keys
  issued := fun entry hentry partition hpart =>
    hissued (hcat.issued entry hentry partition hpart)

theorem Catalogued.adjust_emplace (hcat : Catalogued issued maps) {type : VastType}
    {f : FlatMap Uuid PartitionSynopsis → FlatMap Uuid PartitionSynopsis}
    (hchange : ∀ map, ∀ partition ∈ (f map).entries,
      partition ∈ map.entries ∨ (partition.1, type) ∈ issued) :
    Catalogued issued (adjust type f (emplace type FlatMap.empty maps)) := by
  have hemplace : ∀ entry ∈ emplace type FlatMap.empty maps,
      ∀ partition ∈ entry.2.entries, (partition.1, entry.1) ∈ issued :=
    forall_mem_emplace hcat.issued fun _ _ => nofun
  constructor
  · rw [keys_adjust]
    exact nodup_keys_emplace _ _ hcat.keys
  · exact forall_mem_adjust (fun map hmap partition hpart =>
      (hchange map partition hpart).elim (hemplace _ hmap partition) id)
      fun entry hentry _ => hemplace entry hentry

theorem Catalogued.merge (hcat : Catalogued issued state.synopsesPerType) {partition : Uuid}
    {synopsis : PartitionSynopsis} (hissued : (partition, synopsis.schema) ∈ issued) :
    Catalogued issued (state.merge partition synopsis).synopsesPerType := by
  have hinsert : ∀ map : FlatMap Uuid PartitionSynopsis,
      ∀ other ∈ (map.insert partition synopsis).entries,
        other ∈ map.entries ∨ (other.1, synopsis.schema) ∈ issued := by
    intro map other hother
    rcases FlatMap.mem_of_mem_insert hother with rfl | hold
    · exact Or.inr hissued
    · exact Or.inl hold
  exact hcat.adjust_emplace hinsert

theorem catalogued_createFrom (taxonomies : Taxonomies)
    (partitions : List (Uuid × PartitionSynopsis)) :
    Catalogued (partitions.map fun entry => (entry.1, entry.2.schema))
      ((initial taxonomies).createFrom partitions).synopsesPerType := by
  obtain ⟨_, heq⟩ := foldl_updateUnprunableFields_eq partitions (initial taxonomies)
  simp only [createFrom, heq]
  have hinitial : Catalogued (partitions.map fun entry => (entry.1, entry.2.schema))
      (initial taxonomies).synopsesPerType :=
    ⟨by simp [initial], by simp [initial]⟩
  generalize (initial taxonomies).synopsesPerType = maps at hinitial
  generalize schemas partitions = types
  induction types generalizing maps with
  | nil => exact hinitial
  | cons type rest ih =>
    apply ih
    apply hinitial.adjust_emplace
    intro map partition hpart
    right
    have hschema := filedUnder_withSchema partitions type partition hpart
    have hmem := mem_of_mem_filter (FlatMap.mem_of_mem_ofList hpart)
    exact mem_map.mpr ⟨partition, hmem, by rw [hschema]⟩

section Lookup

variable [BloomFilters] [Regex] {steps : Nat}

/-- The candidates of a schema are partitions of its map, each one once. -/
theorem uuids_lookupImpl (partitions : FlatMap Uuid PartitionSynopsis) (expr : Expression) :
    let infos := sortByImportTime (lookupImpl partitions expr).partitionInfos
    (infos.map PartitionInfo.uuid).Nodup ∧
      ∀ info ∈ infos, info.uuid ∈ partitions.entries.map Prod.fst := by
  simp only [lookupImpl, sortByImportTime, candidates_eq, select]
  have hkeys : (partitions.entries.map Prod.fst).Nodup := by
    rw [Nodup, pairwise_map]
    exact partitions.ascending.imp fun hlt => hlt.ne
  constructor
  · rw [((perm_insertionSort _ _).map _).nodup_iff, map_map]
    exact hkeys.sublist (filter_sublist.map Prod.fst)
  · intro info hinfo
    rw [mem_insertionSort] at hinfo
    obtain ⟨entry, hentry, rfl⟩ := mem_map.mp hinfo
    exact mem_map_of_mem (mem_of_mem_filter hentry)

theorem listed_lookupTypes {taxonomies : Taxonomies} {pruned : Expression}
    (hcat : Catalogued issued maps)
    (hlookup : lookupTypes steps taxonomies pruned maps = .ok infos) :
    infos.map Prod.fst = maps.map Prod.fst ∧
      ∀ entry ∈ infos, entry.2.uuids.Nodup ∧ ∀ id ∈ entry.2.uuids, (id, entry.1) ∈ issued := by
  induction maps generalizing infos with
  | nil =>
    cases hlookup
    simp
  | cons head rest ih =>
    rw [lookupTypes] at hlookup
    split at hlookup
    · cases hlookup
    next resolved hresolve =>
      obtain ⟨tail, htail, rfl⟩ := Taxonomies.exists_of_map_eq_ok hlookup
      obtain ⟨hhead, hrest⟩ := forall_mem_cons.mp hcat.issued
      obtain ⟨hkeys, hents⟩ := ih ⟨(nodup_cons.mp hcat.keys).2, hrest⟩ htail
      obtain ⟨hnodup, hmem⟩ := uuids_lookupImpl head.2 resolved
      refine ⟨by simp [hkeys], forall_mem_cons.mpr ⟨⟨hnodup, fun id hid => ?_⟩, hents⟩⟩
      obtain ⟨info, hinfo, rfl⟩ := mem_map.mp hid
      obtain ⟨partition, hpart, heq⟩ := mem_map.mp (hmem info hinfo)
      rw [← heq]
      exact hhead partition hpart

theorem listed_lookup {expr : Expression} {result : CatalogLookupResult}
    (hcat : Catalogued issued state.synopsesPerType)
    (hlookup : state.lookup steps expr = .ok result) : Listed issued result.candidateInfos := by
  obtain ⟨infos, hinfos, rfl⟩ := Taxonomies.exists_of_map_eq_ok hlookup
  obtain ⟨hkeys, hents⟩ := listed_lookupTypes hcat hinfos
  exact ⟨hkeys ▸ hcat.keys, fun entry hentry => (hents entry hentry).1,
    fun entry hentry => (hents entry hentry).2⟩

end Lookup

end CatalogState

end Vast
