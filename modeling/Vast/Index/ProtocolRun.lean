import Vast.Index.Candidates

/-! # Queries among ingestion and persisting

However ingestion, persisting and lookups interleave, a partition is in one set
of the index at a time. A partition that moves on while a query waits for the
catalog is captured by the index and returned by the catalog, and is inserted
once.
-/

namespace Vast.IndexProtocol

open Foundation QueryQueue List CatalogState IndexProtocol.System AssocList IndexEvaluate FlatMap

variable {options : Options} {system : System} {issued later : List (Uuid × VastType)} {id : Uuid}
  {message : Message}

/-- The identifiers of the active, the unpersisted and the persisted partitions. -/
def System.ids (system : System) : List Uuid :=
  system.activeIds ++ (system.unpersisted.map Prod.fst ++ system.persistedPartitions)

def PendingQuery.captured (pending : PendingQuery) : List (Uuid × VastType) :=
  IndexEvaluate.localCandidates pending.activePartitions pending.unpersisted

/-- The candidates are those that the index captured and those that the catalog
returned, each one once. They are counted, and their schemas have a context. -/
structure Insertion.Complete (insertion : Insertion) : Prop where
  once : (uuids insertion.candidates.candidates).Nodup
  mem_iff : ∀ id, id ∈ uuids insertion.candidates.candidates ↔
    id ∈ uuids insertion.returned.candidates ∨
      id ∈ (PendingQuery.captured insertion.pending).map Prod.fst
  counted : insertion.state.candidatePartitions.toNat =
    (uuids insertion.candidates.candidates).length
  contexts : ∀ candidate ∈ insertion.candidates.candidates,
    (insertion.state.queryContextsPerType.find candidate.1).isSome

/-! ## The invariant -/

/-- A partition that a message is about is not active, and a synopsis has the
schema of its partition. A query carries partitions that exist. -/
def Message.Sound (issued : List (Uuid × VastType)) (active : List Uuid) : Message → Prop
  | .persist id slices =>
    id ∉ active ∧ slices ≠ [] ∧
      ∃ schema, (id, schema) ∈ issued ∧ ∀ slice ∈ slices, slice.schema = schema
  | .persistReply id (some synopsis) => id ∉ active ∧ (id, synopsis.schema) ∈ issued
  | .persistReply _ none => True
  | .merge id synopsis => id ∉ active ∧ (id, synopsis.schema) ∈ issued
  | .mergeReply id _ => id ∉ active ∧ ∃ schema, (id, schema) ∈ issued
  | .candidates pending => PendingQuery.captured pending ⊆ issued
  | .candidatesReply pending (some returned) =>
    PendingQuery.captured pending ⊆ issued ∧ Listed issued returned.candidateInfos
  | .candidatesReply _ none => True

/-- New identifiers may be issued, and only they become active. -/
theorem Message.Sound.mono {active active' : List Uuid} (hsound : message.Sound issued active)
    (hissued : issued ⊆ later)
    (hactive : ∀ id schema, (id, schema) ∈ issued → id ∉ active → id ∉ active') :
    message.Sound later active' := by
  cases message with
  | persist id slices =>
    obtain ⟨hid, hne, schema, hschema, hslices⟩ := hsound
    exact ⟨hactive id schema hschema hid, hne, schema, hissued hschema, hslices⟩
  | persistReply id synopsis =>
    cases synopsis with
    | none => trivial
    | some synopsis => exact ⟨hactive id _ hsound.2 hsound.1, hissued hsound.2⟩
  | merge id synopsis => exact ⟨hactive id _ hsound.2 hsound.1, hissued hsound.2⟩
  | mergeReply id ok =>
    obtain ⟨hid, schema, hschema⟩ := hsound
    exact ⟨hactive id schema hschema hid, schema, hissued hschema⟩
  | candidates pending => exact fun candidate hcand => hissued (hsound hcand)
  | candidatesReply pending returned =>
    cases returned with
    | none => trivial
    | some returned =>
      exact ⟨fun candidate hcand => hissued (hsound.1 hcand), hsound.2.mono hissued⟩

/-- The sets of the index are disjoint, and every partition is known with the
schema that it was issued for. -/
structure Consistent (system : System) : Prop where
  issued : (system.issued.map Prod.fst).Nodup
  ids : system.ids.Nodup
  active : ∀ entry ∈ system.activePartitions, (entry.2.id, entry.1) ∈ system.issued
  slices : ∀ entry ∈ system.activePartitions, ∀ slice ∈ entry.2.slices, slice.schema = entry.1
  unpersisted : system.unpersisted ⊆ system.issued
  persisted : ∀ id ∈ system.persistedPartitions, ∃ schema, (id, schema) ∈ system.issued
  catalog : CatalogState.Catalogued system.issued system.catalog.synopsesPerType
  messages : ∀ message ∈ system.messages, message.Sound system.issued system.activeIds
  insertions : ∀ insertion ∈ system.insertions, insertion.Complete

/-- An active partition has a slice. -/
def Filled (system : System) : Prop :=
  ∀ entry ∈ system.activePartitions, entry.2.slices ≠ []

theorem consistent_start (taxonomies : Taxonomies) (stored : FlatMap Uuid PartitionSynopsis) :
    Consistent (start taxonomies stored) := by
  have hkeys : (stored.entries.map Prod.fst).Nodup := by
    rw [Nodup, pairwise_map]
    exact stored.ascending.imp fun hlt => hlt.ne
  constructor
  case issued => simpa [start, Function.comp_def] using hkeys
  case ids => simpa [start, ids, activeIds] using hkeys
  case persisted =>
    intro id hid
    obtain ⟨entry, hentry, rfl⟩ := mem_map.mp hid
    exact ⟨entry.2.schema, mem_map.mpr ⟨entry, hentry, rfl⟩⟩
  case catalog => exact catalogued_createFrom taxonomies stored.entries
  all_goals simp [start]

namespace Consistent

theorem send (hcons : Consistent system) (hmsg : message.Sound system.issued system.activeIds) :
    Consistent (system.send message) :=
  { hcons with
    messages := forall_mem_concat hcons.messages hmsg }

/-! ## Partitions -/

theorem createActivePartition (hcons : Consistent system) (schema : VastType) {id : Uuid}
    (hfresh : id ∉ system.issued.map Prod.fst) :
    Consistent (system.createActivePartition options schema id) := by
  have hsub : system.issued ⊆ system.issued ++ [(id, schema)] := subset_append_left _ _
  have hne : ∀ other type, (other, type) ∈ system.issued → other ≠ id := by
    intro other type hother heq
    exact hfresh (heq ▸ mem_map_of_mem hother)
  have hids : id ∉ system.ids := by
    intro hmem
    rcases mem_append.mp hmem with hactive | hrest
    · obtain ⟨entry, hentry, heq⟩ := mem_map.mp hactive
      exact hne _ _ (hcons.active entry hentry) heq
    · rcases mem_append.mp hrest with hunpersisted | hpersisted
      · obtain ⟨entry, hentry, heq⟩ := mem_map.mp hunpersisted
        exact hne _ _ (hcons.unpersisted hentry) heq
      · obtain ⟨type, htype⟩ := hcons.persisted id hpersisted
        exact hne _ _ htype rfl
  have hactiveIds : (system.createActivePartition options schema id).activeIds =
      system.activeIds ++ [id] := by
    simp [System.createActivePartition, System.activeIds]
  constructor
  case issued =>
    rw [System.createActivePartition, map_append]
    refine nodup_append.mpr
      ⟨hcons.issued, by simp, fun other hother last hlast heq => ?_⟩
    rw [heq, mem_singleton.mp hlast] at hother
    exact hfresh hother
  case ids =>
    rw [System.ids, hactiveIds, append_assoc]
    exact nodup_middle.mpr (nodup_cons.mpr ⟨hids, hcons.ids⟩)
  case active =>
    refine forall_mem_concat (fun entry hentry => hsub (hcons.active entry hentry)) ?_
    exact mem_append_right _ (mem_singleton_self _)
  case slices => exact forall_mem_concat hcons.slices (by simp)
  case unpersisted => exact fun entry hentry => hsub (hcons.unpersisted hentry)
  case persisted =>
    intro other hother
    obtain ⟨type, htype⟩ := hcons.persisted other hother
    exact ⟨type, hsub htype⟩
  case catalog => exact hcons.catalog.mono hsub
  case messages =>
    intro message hmsg
    apply (hcons.messages message hmsg).mono hsub
    intro other type hother hactive
    rw [hactiveIds, mem_append, mem_singleton]
    exact fun hcases => hcases.elim hactive (hne other type hother)
  case insertions => exact hcons.insertions

theorem push (hcons : Consistent system) (slice : TableSlice) :
    Consistent (system.push options slice) := by
  have hids : (system.push options slice).activeIds = system.activeIds := by
    rw [System.push, activeIds, adjust, map_map]
    apply map_congr_left
    intro entry _
    rw [Function.comp_apply, apply_ite (fun entry : VastType × ActivePartition => entry.2.id)]
    exact ite_self _
  refine { hcons with
    ids := by rw [System.ids, hids]; exact hcons.ids
    messages := by rw [hids]; exact hcons.messages
    active := forall_mem_adjust
      (fun partition hpart => hcons.active (slice.schema, partition) hpart)
      fun entry hentry _ => hcons.active entry hentry
    slices := forall_mem_adjust
      (fun partition hpart => forall_mem_concat (hcons.slices _ hpart) rfl)
      fun entry hentry _ => hcons.slices entry hentry }

theorem decommissionActivePartition (hcons : Consistent system) (hfilled : Filled system)
    (schema : VastType) : Consistent (system.decommissionActivePartition schema) := by
  rw [System.decommissionActivePartition]
  split
  · exact hcons
  next partition hlookup =>
    have hmem := mem_of_lookup hlookup
    have hissued := hcons.active _ hmem
    obtain ⟨hactive, hrest, hdisjoint⟩ := nodup_append.mp hcons.ids
    -- No other active partition has the identifier.
    have hgone : partition.id ∉ (system.activePartitions.filter fun entry =>
        entry.1 ≠ schema).map fun entry => entry.2.id := by
      intro hid
      obtain ⟨entry, hentry, heq⟩ := mem_map.mp hid
      obtain ⟨hold, hne⟩ := mem_filter.mp hentry
      have hsame := inj_on_of_nodup_map hactive hold hmem heq
      simp [hsame] at hne
    have hsub : ((system.activePartitions.filter fun entry => entry.1 ≠ schema).map
        fun entry => entry.2.id).Sublist system.activeIds :=
      filter_sublist.map _
    refine { hcons with
      ids := ?_
      active := fun entry hentry => hcons.active entry (mem_of_mem_filter hentry)
      slices := fun entry hentry => hcons.slices entry (mem_of_mem_filter hentry)
      unpersisted := ?_
      messages := ?_ }
    · have hmoved : partition.id ∈ system.activeIds :=
        mem_map_of_mem (f := fun entry : VastType × ActivePartition => entry.2.id) hmem
      simp only [System.ids, map_append, map_cons, map_nil, append_assoc, singleton_append]
      rw [← append_assoc, nodup_middle, nodup_cons, append_assoc]
      constructor
      · intro hid
        rcases mem_append.mp hid with hother | hid
        · exact hgone hother
        · exact hdisjoint _ hmoved _ hid rfl
      · exact hcons.ids.sublist (hsub.append_right _)
    · exact forall_mem_concat (fun _ => @hcons.unpersisted _) hissued
    · refine forall_mem_concat (fun message hold => ?_)
        ⟨hgone, hfilled _ hmem, schema, hissued, hcons.slices _ hmem⟩
      apply (hcons.messages message hold).mono (Subset.refl _)
      exact fun id _ _ hid hstill => hid (hsub.subset hstill)

end Consistent

theorem Filled.decommissionActivePartition (hfilled : Filled system) (schema : VastType) :
    Filled (system.decommissionActivePartition schema) := by
  rw [System.decommissionActivePartition]
  split
  · exact hfilled
  · exact fun entry hentry => hfilled entry (mem_of_mem_filter hentry)

theorem filled_push {slice : TableSlice}
    (hfilled : ∀ entry ∈ system.activePartitions, entry.1 ≠ slice.schema → entry.2.slices ≠ []) :
    Filled (system.push options slice) := by
  intro entry hentry
  obtain ⟨origin, horigin, rfl⟩ := mem_map.mp hentry
  by_cases heq : origin.1 = slice.schema
  · rw [if_pos heq]
    simp [pushSlice]
  · rw [if_neg heq]
    exact hfilled origin horigin heq

theorem filled_push_create (hfilled : Filled system) (slice : TableSlice) (id : Uuid) :
    Filled ((system.createActivePartition options slice.schema id).push options slice) := by
  apply filled_push
  intro entry hentry hne
  rcases mem_append.mp hentry with hold | hnew
  · exact hfilled entry hold
  · rw [mem_singleton.mp hnew] at hne
    exact absurd rfl hne

theorem issued_decommission (system : System) (schema : VastType) :
    (system.decommissionActivePartition schema).issued = system.issued := by
  rw [decommissionActivePartition]
  split <;> rfl

theorem ingest_consistent (hcons : Consistent system) (hfilled : Filled system)
    (slice : TableSlice) (hfresh : id ∉ system.issued.map Prod.fst) :
    Consistent (system.ingest options slice id) ∧ Filled (system.ingest options slice id) := by
  rw [ingest]
  split
  · exact ⟨(hcons.createActivePartition slice.schema hfresh).push slice,
      filled_push_create hfilled slice id⟩
  next partition hpart =>
    split
    · have hmoved := hcons.decommissionActivePartition hfilled slice.schema
      rw [← issued_decommission system slice.schema] at hfresh
      exact ⟨(hmoved.createActivePartition slice.schema hfresh).push slice,
        filled_push_create (hfilled.decommissionActivePartition slice.schema) slice id⟩
    · exact ⟨hcons.push slice, filled_push fun entry hentry _ => hfilled entry hentry⟩

/-! ## Queries -/

theorem Consistent.captured_subset (hcons : Consistent system) (query : QueryContext)
    (qid : Uuid) (client : Actor) (taste : Option UInt32) :
    PendingQuery.captured (system.capture query qid client taste) ⊆ system.issued := by
  intro candidate hcand
  rcases mem_append.mp hcand with hactive | hunpersisted
  · simp only [capture, map_map, mem_map] at hactive
    obtain ⟨entry, hentry, rfl⟩ := hactive
    exact hcons.active entry hentry
  · exact hcons.unpersisted hunpersisted

theorem find_eq_lookup (contexts : TypeQueryContextMap) (schema : VastType) :
    contexts.find schema = contexts.entries.lookup schema := by
  rw [TypeQueryContextMap.find]
  induction contexts.entries with
  | nil => rfl
  | cons entry rest ih =>
    rw [lookup_cons, find?_cons]
    by_cases heq : schema = entry.1
    · simp [heq]
    · rw [decide_eq_false fun h => heq h.symm, beq_false_of_ne heq]
      exact ih

theorem Consistent.insertQuery (hcons : Consistent system) {pending : PendingQuery}
    {returned : CatalogLookupResult} (hcaptured : PendingQuery.captured pending ⊆ system.issued)
    (hlisted : Listed system.issued returned.candidateInfos) :
    Consistent (system.insertQuery options pending returned) := by
  rw [System.insertQuery]
  split
  · exact hcons
  next hempty =>
    split
    next hsize =>
      refine { hcons with insertions := forall_mem_concat hcons.insertions ?_ }
      obtain ⟨hadded, hmem⟩ := foldl_addCandidate pending.query
        options.partitionVersion (PendingQuery.captured pending) hlisted
        fun candidate hcand => hcaptured hcand
      constructor
      case once => exact Listed.nodup_uuids hadded hcons.issued
      case mem_iff =>
        intro id
        rw [mem_uuids_candidates, mem_uuids_candidates]
        exact hmem id
      case counted =>
        rw [uuids, length_map, CatalogLookupResult.length_candidates]
        exact UInt32.toNat_ofNat_of_lt' hsize
      case contexts =>
        intro candidate hcand
        obtain ⟨entry, hentry, info, -, rfl⟩ := by
          simpa only [CatalogLookupResult.candidates, mem_flatMap, mem_map]
            using hcand
        rw [find_eq_lookup]
        exact isSome_lookup_queryContexts _ _ hentry
    · exact hcons

/-! ## Messages -/

/-- A partition leaves the unpersisted ones, and may enter the persisted ones if it
is not active. -/
theorem Consistent.settle (hcons : Consistent system) {persisted : List Uuid}
    (hpersisted : persisted = system.persistedPartitions ∨
      (persisted = system.persistedPartitions.insert id ∧ id ∉ system.activeIds ∧
        ∃ schema, (id, schema) ∈ system.issued)) : Consistent { system with
      unpersisted := system.unpersisted.filter fun entry => entry.1 ≠ id
      persistedPartitions := persisted } := by
  have hsub : ((system.unpersisted.filter fun entry => entry.1 ≠ id).map Prod.fst).Sublist
      (system.unpersisted.map Prod.fst) := filter_sublist.map _
  have hids : (system.activeIds ++ ((system.unpersisted.filter fun entry => entry.1 ≠ id).map
      Prod.fst ++ system.persistedPartitions)).Nodup :=
    hcons.ids.sublist ((hsub.append_right _).append_left _)
  refine { hcons with ids := ?_, unpersisted := ?_, persisted := ?_ }
  · rcases hpersisted with rfl | ⟨rfl, hactive, -⟩
    · exact hids
    · by_cases hmem : id ∈ system.persistedPartitions
      · rw [insert_of_mem hmem]
        exact hids
      · rw [insert_of_not_mem hmem]
        simp only [System.ids]
        rw [← append_assoc, nodup_middle, nodup_cons, append_assoc]
        refine ⟨?_, hids⟩
        rw [mem_append, mem_append]
        rintro (hid | hid | hid)
        · exact hactive hid
        · obtain ⟨entry, hentry, heq⟩ := mem_map.mp hid
          simp [heq] at hentry
        · exact hmem hid
  · exact fun entry hentry => hcons.unpersisted (mem_of_mem_filter hentry)
  · intro other hother
    rcases hpersisted with rfl | ⟨rfl, -, hissued⟩
    · exact hcons.persisted other hother
    · rcases mem_insert_iff.mp hother with rfl | hold
      · exact hissued
      · exact hcons.persisted other hold

section Handle

variable [BloomFilters] [Regex] {pending : PendingQuery} {returned : CatalogLookupResult}

theorem lookup_of_lookupCandidates
    (hreturned : system.lookupCandidates options pending = some returned) :
    system.catalog.lookup options.resolveSteps pending.query.expr = .ok returned := by
  rw [lookupCandidates] at hreturned
  split at hreturned
  · cases hreturned
  · cases hlookup : system.catalog.lookup options.resolveSteps pending.query.expr with
    | error error => simp [hlookup, Except.toOption] at hreturned
    | ok result =>
      rw [hlookup] at hreturned
      cases hreturned
      rfl

theorem Consistent.handle (hcons : Consistent system)
    (hsound : message.Sound system.issued system.activeIds) (ok : Bool) :
    Consistent (system.handle options ok message) := by
  cases message with
  | persist id slices =>
    obtain ⟨hid, hne, schema, hschema, hslices⟩ := hsound
    apply hcons.send
    cases ok with
    | false => trivial
    | true =>
      refine ⟨hid, ?_⟩
      have hpersisted : (PartitionSynopsis.persisted options.indexConfig options.partitionVersion
          slices).schema = schema :=
        PartitionSynopsis.foldl_ingest_schema (Or.inl rfl) hslices hne
      rwa [hpersisted]
  | persistReply id synopsis =>
    cases synopsis with
    | none => exact hcons.settle (Or.inl rfl)
    | some synopsis => exact hcons.send hsound
  | merge id synopsis =>
    have hreply : ∀ stored, (Message.mergeReply id stored).Sound system.issued
        system.activeIds :=
      fun _ => ⟨hsound.1, synopsis.schema, hsound.2⟩
    rw [System.handle]
    split
    · have hmerged : Consistent { system with
          catalog := system.catalog.merge id synopsis } :=
        { hcons with catalog := hcons.catalog.merge hsound.2 }
      exact hmerged.send (hreply true)
    · exact hcons.send (hreply false)
  | mergeReply id stored =>
    apply hcons.settle
    cases stored with
    | false => exact Or.inl rfl
    | true => exact Or.inr ⟨rfl, hsound⟩
  | candidates pending =>
    apply hcons.send
    cases ok with
    | false => trivial
    | true =>
      cases hreturned : system.lookupCandidates options pending with
      | none => trivial
      | some returned => exact ⟨hsound, 
          listed_lookup hcons.catalog
            (lookup_of_lookupCandidates hreturned)⟩
  | candidatesReply pending returned =>
    cases returned with
    | none => exact hcons
    | some returned => exact hcons.insertQuery hsound.1 hsound.2

theorem activePartitions_handle (system : System) (ok : Bool) (message : Message) :
    (system.handle options ok message).activePartitions = system.activePartitions := by
  cases message with
  | persist id slices => rfl
  | persistReply id synopsis => cases synopsis <;> rfl
  | merge id synopsis => cases ok <;> rfl
  | mergeReply id stored => rfl
  | candidates pending => rfl
  | candidatesReply pending returned =>
    cases returned with
    | none => rfl
    | some returned =>
      simp only [handle, insertQuery]
      split
      · rfl
      · split <;> rfl

theorem Consistent.step (hcons : Consistent system) (hfilled : Filled system)
    {event : Event} (hfresh : system.Fresh event) :
    Consistent (system.step options event) ∧ Filled (system.step options event) := by
  cases event with
  | ingest slice id => exact ingest_consistent hcons hfilled slice hfresh
  | decommission schema =>
    exact ⟨hcons.decommissionActivePartition hfilled schema,
      hfilled.decommissionActivePartition schema⟩
  | evaluate query qid client taste =>
    rw [System.step, evaluate]
    split
    · exact ⟨hcons, hfilled⟩
    · exact ⟨hcons.send (hcons.captured_subset query qid client taste), hfilled⟩
  | deliver pos ok =>
    rw [System.step, deliver]
    split
    · exact ⟨hcons, hfilled⟩
    next message hmsg =>
      have hsound := hcons.messages message (mem_of_getElem? hmsg)
      have htaken : Consistent { system with messages := system.messages.eraseIdx pos } :=
        { hcons with messages := fun other hother => hcons.messages other (eraseIdx_subset hother) }
      refine ⟨htaken.handle hsound ok, ?_⟩
      rw [Filled, activePartitions_handle]
      exact hfilled

/-! ## Runs -/

/-- The index captured a query at one of the events. -/
def Captured (options : Options) (start : System) (events : List Event) (pending : PendingQuery) :
    Prop :=
  ∃ before query qid client taste after,
    events = before ++ .evaluate query qid client taste :: after ∧
      pending = (before.foldl (System.step options) start).capture query qid client taste

/-- The catalog had this answer for a query at some moment. -/
def Returned (options : Options) (start : System) (events : List Event) (pending : PendingQuery)
    (returned : CatalogLookupResult) : Prop :=
  ∃ before after, events = before ++ after ∧
    (before.foldl (System.step options) start).catalog.lookup options.resolveSteps
      pending.query.expr = .ok returned

/-- Where a query in flight comes from. -/
def Message.Explained (options : Options) (start : System) (events : List Event) : Message → Prop
  | .candidates pending => Captured options start events pending
  | .candidatesReply pending (some returned) =>
    Captured options start events pending ∧ Returned options start events pending returned
  | _ => True

/-- Where the queries in flight and the inserted ones come from. -/
structure Explained (options : Options) (start : System) (events : List Event)
    (system : System) : Prop where
  messages : ∀ message ∈ system.messages, message.Explained options start events
  inserted : ∀ insertion ∈ system.insertions,
    Captured options start events insertion.pending ∧
      Returned options start events insertion.pending insertion.returned

variable {start : System} {events : List Event} {message : Message}

theorem Captured.append (hcaptured : Captured options start events pending) (event : Event) :
    Captured options start (events ++ [event]) pending := by
  obtain ⟨before, query, qid, client, taste, after, rfl, hpend⟩ := hcaptured
  exact ⟨before, query, qid, client, taste, after ++ [event], by simp, hpend⟩

theorem Returned.append (hreturned : Returned options start events pending returned)
    (event : Event) : Returned options start (events ++ [event]) pending returned := by
  obtain ⟨before, after, rfl, hlookup⟩ := hreturned
  exact ⟨before, after ++ [event], by simp, hlookup⟩

theorem Message.Explained.append (hmsg : message.Explained options start events)
    (event : Event) : message.Explained options start (events ++ [event]) := by
  cases message with
  | candidates pending => exact Captured.append hmsg event
  | candidatesReply pending returned =>
    cases returned with
    | none => trivial
    | some returned => exact hmsg.imp (·.append event) (·.append event)
  | _ => trivial

namespace Explained

section

variable (hexpl : Explained options start events system)

include hexpl

theorem append (event : Event) : Explained options start (events ++ [event]) system where
  messages := fun message hmem => (hexpl.messages message hmem).append event
  inserted := fun insertion hmem =>
    (hexpl.inserted insertion hmem).imp (·.append event) (·.append event)

theorem send (hmsg : message.Explained options start events) :
    Explained options start events (system.send message) where
  messages := forall_mem_concat hexpl.messages hmsg
  inserted := hexpl.inserted

theorem handle (hcatalog : system.catalog = (events.foldl (step options) start).catalog)
    (hmsg : message.Explained options start events) (ok : Bool) :
    Explained options start events (system.handle options ok message) := by
  cases message with
  | persist id slices => exact hexpl.send trivial
  | persistReply id synopsis =>
    cases synopsis with
    | none => exact { hexpl with }
    | some synopsis => exact hexpl.send trivial
  | merge id synopsis =>
    rw [handle]
    split
    · have hmerged : Explained options start events { system with
          catalog := system.catalog.merge id synopsis } := { hexpl with }
      exact hmerged.send trivial
    · exact hexpl.send trivial
  | mergeReply id stored => exact { hexpl with }
  | candidates pending =>
    apply hexpl.send
    cases ok with
    | false => trivial
    | true =>
      cases hreply : system.lookupCandidates options pending with
      | none => simp [Message.Explained]
      | some returned =>
        rw [if_pos rfl]
        refine ⟨hmsg, events, [], by simp, ?_⟩
        rw [← hcatalog]
        exact lookup_of_lookupCandidates hreply
  | candidatesReply pending returned =>
    cases returned with
    | none => exact hexpl
    | some returned =>
      simp only [handle, insertQuery]
      split
      · exact hexpl
      · split
        · exact { hexpl with
            inserted := forall_mem_concat hexpl.inserted hmsg }
        · exact hexpl

theorem decommissionActivePartition (schema : VastType) :
    Explained options start events (system.decommissionActivePartition schema) := by
  rw [System.decommissionActivePartition]
  split
  · exact hexpl
  · exact ⟨forall_mem_concat hexpl.messages trivial, hexpl.inserted⟩

theorem ingest (slice : TableSlice)
    (id : Uuid) : Explained options start events (system.ingest options slice id) := by
  rw [System.ingest]
  split
  · exact { hexpl with }
  · split
    · exact { hexpl.decommissionActivePartition slice.schema with }
    · exact { hexpl with }

end

theorem step (start : System) (events : List Event)
    (hexpl : Explained options start events (events.foldl (System.step options) start))
    (event : Event) : Explained options start (events ++ [event])
      ((events ++ [event]).foldl (System.step options) start) := by
  rw [foldl_append, foldl_cons]
  cases event with
  | ingest slice id => exact (hexpl.ingest slice id).append _
  | decommission schema => exact (hexpl.decommissionActivePartition schema).append _
  | evaluate query qid client taste =>
    rw [System.step, evaluate]
    split
    · exact hexpl.append _
    · exact (hexpl.append _).send ⟨events, query, qid, client, taste, [], rfl, rfl⟩
  | deliver pos ok =>
    rw [System.step, deliver]
    split
    · exact hexpl.append _
    next message hmsg =>
      have htaken : Explained options start events
          { events.foldl (System.step options) start with
            messages :=
              (events.foldl (System.step options) start).messages.eraseIdx pos } :=
        { hexpl with
          messages := fun message hmem =>
            hexpl.messages message (eraseIdx_subset hmem) }
      exact (htaken.handle rfl (hexpl.messages message (mem_of_getElem? hmsg)) ok).append _

end Explained

/-- In every run a partition is in one of the three sets at a time, and a query is
inserted for the partitions that the index had when the request arrived and those
that the catalog returned, each one once. -/
theorem query_inserted_for_all_once (options : Options) (taxonomies : Taxonomies)
    (stored : FlatMap Uuid PartitionSynopsis) (events : List Event)
    (hrun : Run.Admissible (System.step options) System.Fresh
      (System.start taxonomies stored) events) :
    (events.foldl (System.step options) (System.start taxonomies stored)).ids.Nodup ∧ ∀ insertion ∈
          (events.foldl (System.step options) (System.start taxonomies stored)).insertions,
        Captured options (System.start taxonomies stored) events insertion.pending ∧
          Returned options (System.start taxonomies stored) events insertion.pending
            insertion.returned ∧ insertion.Complete := by
  have hinv : Consistent (events.foldl (step options) (start taxonomies stored)) ∧
      Filled (events.foldl (step options) (start taxonomies stored)) := by
    apply Run.invariant (fun system => Consistent system ∧ Filled system) _ _ hrun
    · exact fun system event hinv hfresh => hinv.1.step hinv.2 hfresh
    · exact ⟨consistent_start taxonomies stored, by simp [Filled, start]⟩
  have hexplained : Explained options (start taxonomies stored) events
      (events.foldl (step options) (start taxonomies stored)) :=
    Run.induction_on_run ⟨by simp [start], by simp [start]⟩
      (fun done event _ _ hdone => Explained.step _ done hdone event) hrun
  refine ⟨hinv.1.ids, fun insertion hinsertion => ?_⟩
  obtain ⟨hcaptured, hreturned⟩ := hexplained.inserted insertion hinsertion
  exact ⟨hcaptured, hreturned, hinv.1.insertions insertion hinsertion⟩

end Handle

/-! ## An instance -/

def smallOptions : Options where
  indexConfig := ⟨[], 0⟩
  partitionVersion := 1
  partitionCapacity := 2
  tastePartitions := 1
  resolveSteps := 0

/-- A query arrives while the partition of the slice is active. Before the catalog
looks for candidates, the partition has been persisted and merged. -/
def overtakingEvents : List Event :=
  [.ingest PartitionSynopsis.skipSlice 5,
    .evaluate ⟨0, CatalogState.fieldEquals "a" "x", 100⟩ 9 ⟨1⟩ none,
    .ingest PartitionSynopsis.skipSlice 6, .deliver 1 true, .deliver 1 true, .deliver 1 true,
    .deliver 0 true, .deliver 1 true, .deliver 0 true]

/-- The partition is captured and returned, and inserted once. -/
theorem query_inserted_for_all_once_overtaking :
    (∃ insertion ∈ (overtakingEvents.foldl (@System.step PartitionSynopsis.exactFilters
        noRegex smallOptions) (System.start noTaxonomies
          empty)).insertions, uuids insertion.returned.candidates = [5] ∧
        (PendingQuery.captured insertion.pending).map Prod.fst = [5] ∧
        uuids insertion.candidates.candidates = [5]) ∧
      ∀ insertion ∈ (overtakingEvents.foldl (@System.step PartitionSynopsis.exactFilters
        noRegex smallOptions) (System.start noTaxonomies
          empty)).insertions, insertion.Complete := by
  let := PartitionSynopsis.exactFilters
  let := noRegex
  refine ⟨by decide +kernel, fun insertion hinsertion => ?_⟩
  exact ((query_inserted_for_all_once smallOptions noTaxonomies empty
    overtakingEvents (by decide +kernel)).2
      insertion hinsertion).2.2

end Vast.IndexProtocol
