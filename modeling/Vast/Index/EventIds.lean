import Vast.Index.ProtocolRun
import Vast.Partition.Evaluator
import Vast.Table.Offsets

/-! # Event ids of active partitions

The index writes offsets into the slices that arrive. A slice goes to the partition that is
active for its schema, or to a new one if it does not fit. Since the offset is the capacity that
the slices before have taken, a partition numbers its events without gaps. The stream between
them belongs to the actor framework: it is only assumed to give a slice to the partitions whose
filter is its schema, and to be flushed before a partition leaves it.
-/

namespace Vast

open Foundation NextFit TableSlice List KeyedList AssocList

/-! ## The receiving partition -/

/-- What an active partition knows about its events. -/
structure PartitionData where
  events : Nat := 0
  typeIds : List (String × Ids) := []

namespace PartitionData

variable (data : PartitionData) {slice : TableSlice} {count : Nat}

/-- The id of the first row of a slice. Slices without an offset are appended. -/
def first (slice : TableSlice) : Nat :=
  slice.offset.getD data.events

def idsOf (name : String) : Ids :=
  (data.typeIds.lookup name).getD []

/-- The assertions about a slice that arrives. -/
def Expects (slice : TableSlice) : Prop :=
  data.first slice = data.events ∧ (data.idsOf slice.schema.name).length ≤ data.first slice

def receive (slice : TableSlice) : PartitionData where
  events := data.events + slice.rows.length
  typeIds :=
    adjust slice.schema.name
      (fun ids => ids ++ List.replicate (data.first slice - ids.length) false ++
        List.replicate slice.rows.length true)
      (emplace slice.schema.name [] data.typeIds)

variable {data}

/-- A slice that begins where the events of a partition end is expected, and its rows get the
next ids. -/
theorem receive_of_offset (hevents : data.events = count)
    (hids : data.typeIds = [(slice.schema.name, List.replicate count true)] ∨
      data.typeIds = [] ∧ count = 0)
    (hoffset : slice.offset = some count) :
    data.Expects slice ∧ (data.receive slice).events = count + slice.rows.length ∧
      (data.receive slice).typeIds =
        [(slice.schema.name, List.replicate (count + slice.rows.length) true)] := by
  have hfirst : data.first slice = count := by rw [first, hoffset, Option.getD_some]
  have hbefore : data.idsOf slice.schema.name = List.replicate count true := by
    rcases hids with hids | ⟨hids, rfl⟩ <;> simp [idsOf, hids]
  have hemplace : emplace slice.schema.name [] data.typeIds =
      [(slice.schema.name, List.replicate count true)] := by
    rcases hids with hids | ⟨hids, rfl⟩ <;> simp [emplace, hids]
  refine ⟨⟨hfirst.trans hevents.symm, ?_⟩, congrArg (· + slice.rows.length) hevents, ?_⟩
  · rw [hbefore, hfirst, length_replicate]
  · rw [receive, hemplace, hfirst]
    simp [adjust]

end PartitionData

/-- What a partition of a schema gets: slices of the schema that are numbered without gaps, and
no more than it can take, unless a single slice is too large. -/
structure ContiguousIds (partitionCapacity : Nat) (schema : VastType) (slices : List TableSlice) :
    Prop where
  sameSchema : ∀ slice ∈ slices, slice.schema = schema
  offset : ∀ before slice after, slices = before ++ slice :: after →
    slice.offset = some (load rowCount before)
  expected : Run.Admissible PartitionData.receive PartitionData.Expects {} slices
  events : (slices.foldl PartitionData.receive {}).events = load rowCount slices
  typeIds : (slices.foldl PartitionData.receive {}).typeIds =
    [(schema.name, List.replicate (load rowCount slices) true)]
  capacity : load rowCount slices ≤ partitionCapacity ∨ slices.length = 1

theorem ContiguousIds.concat {capacity : Nat} {slices : List TableSlice} (slice : TableSlice)
    (hids : slices = [] ∨ ContiguousIds capacity slice.schema slices)
    (hoffset : slice.offset = some (load rowCount slices))
    (hfits : slices = [] ∨ load rowCount slices + slice.rows.length ≤ capacity) :
    ContiguousIds capacity slice.schema (slices ++ [slice]) := by
  have hbefore : (∀ other ∈ slices, other.schema = slice.schema) ∧ Gapless slices ∧
      Run.Admissible PartitionData.receive PartitionData.Expects {} slices ∧
      (slices.foldl PartitionData.receive {}).events = load rowCount slices := by
    rcases hids with rfl | hids
    · exact ⟨by simp, gapless_nil, trivial, rfl⟩
    · exact ⟨hids.sameSchema, hids.offset, hids.expected, hids.events⟩
  obtain ⟨hschema, hgapless, hexpected, hevents⟩ := hbefore
  have hdata := PartitionData.receive_of_offset hevents
    (hids.symm.imp (·.typeIds) fun hnil => by subst hnil; exact ⟨rfl, rfl⟩) hoffset
  refine ⟨forall_mem_concat hschema rfl, gapless_append_singleton.mpr ⟨hgapless, hoffset⟩,
    Run.admissible_append.mpr ⟨hexpected, hdata.1, trivial⟩, ?_, ?_, ?_⟩
  · rw [foldl_append, load_append]
    exact hdata.2.1
  · rw [foldl_append, load_append]
    exact hdata.2.2
  · rcases hfits with hnil | hfits
    · exact Or.inr (by rw [hnil]; rfl)
    · exact Or.inl (by rw [load_append]; exact hfits)

namespace IndexProtocol

open IndexProtocol.System

variable {options : Options} {system : System} {slice : TableSlice} {schema : VastType}
  {partition : ActivePartition} {arrived : List TableSlice}

/-- The slices of a partition that is to persist itself. -/
def Message.slices : Message → List TableSlice
  | .persist _ slices => slices
  | _ => []

/-- The slices that the partitions of a schema have got, one partition after another. The active
one is the last. -/
def System.routed (system : System) (schema : VastType) : List TableSlice :=
  ofSchema (system.messages.flatMap Message.slices) schema ++
    ((system.activePartitions.lookup schema).map (·.slices)).getD []

/-! ## An active partition -/

/-- The capacity of an active partition is what its slices have left. -/
structure Numbers (partitionCapacity : Nat) (schema : VastType) (partition : ActivePartition) :
    Prop where
  capacity : partition.capacity = partitionCapacity - load rowCount partition.slices
  ids : partition.slices = [] ∨ ContiguousIds partitionCapacity schema partition.slices

/-- A slice that fits, or that is the first one, is numbered. -/
theorem Numbers.pushSlice (hnumbers : Numbers options.partitionCapacity slice.schema partition)
    (hrows : slice.rows ≠ [])
    (hfits : partition.slices = [] ∨ slice.rows.length ≤ partition.capacity) :
    Numbers options.partitionCapacity slice.schema (pushSlice options slice partition) := by
  have hpos : 0 < slice.rows.length := length_pos_of_ne_nil hrows
  have hcapacity := hnumbers.capacity
  have hload : load rowCount partition.slices = 0 ∨ slice.rows.length ≤ partition.capacity :=
    hfits.imp_left fun hnil => by rw [hnil, load_nil]
  -- The capacity that has been taken is the number of rows so far.
  have hoffset : options.partitionCapacity - partition.capacity =
      load rowCount partition.slices := by
    omega
  refine ⟨?_, Or.inr (.concat { slice with offset := some _ } hnumbers.ids
    (congrArg some hoffset) (hfits.imp_right fun hfits => ?_))⟩
  · have hnext : load rowCount (System.pushSlice options slice partition).slices =
        load rowCount partition.slices + slice.rows.length := load_append ..
    rw [hnext]
    simp only [System.pushSlice]
    split <;> omega
  · show _ + slice.rows.length ≤ _
    omega

/-! ## All partitions -/

/-- Slices are routed by their schema, in the order of arrival. -/
structure Routed (options : Options) (arrived : List TableSlice) (system : System) : Prop where
  keys : (system.activePartitions.map Prod.fst).Nodup
  active : ∀ schema partition, system.activePartitions.lookup schema = some partition →
    Numbers options.partitionCapacity schema partition
  persisted : ∀ id slices, .persist id slices ∈ system.messages →
    ∃ schema, (id, schema) ∈ system.unpersisted ∧
      ContiguousIds options.partitionCapacity schema slices
  arrived : ∀ schema, (system.routed schema).map withoutOffset =
    (ofSchema arrived schema).map withoutOffset

theorem lookup_createActivePartition (options : Options) (id : Uuid)
    (hnone : system.activePartitions.lookup schema = none) (other : VastType) :
    (system.createActivePartition options schema id).activePartitions.lookup other =
      if other = schema then some ⟨id, options.partitionCapacity, []⟩
      else system.activePartitions.lookup other := by
  rw [createActivePartition, lookup_append, lookup_cons_eq]
  split
  next heq => rw [heq, hnone, Option.none_or]
  · rw [lookup_nil, Option.or_none]

section

variable (hrouted : Routed options arrived system)

include hrouted

theorem Routed.create (id : Uuid) (hnone : system.activePartitions.lookup schema = none) :
    Routed options arrived (system.createActivePartition options schema id) := by
  have hlookup := lookup_createActivePartition options id hnone
  refine ⟨?_, fun other partition hpartition => ?_, hrouted.persisted, fun other => ?_⟩
  · rw [createActivePartition, map_append, nodup_append']
    refine ⟨hrouted.keys, nodup_singleton _, disjoint_singleton.mpr ?_⟩
    exact lookup_eq_none_iff_not_mem.mp hnone
  · rw [hlookup] at hpartition
    split at hpartition
    · cases hpartition
      exact ⟨rfl, Or.inl rfl⟩
    · exact hrouted.active other partition hpartition
  · rw [← hrouted.arrived, routed, routed, hlookup]
    split
    next heq =>
      rw [heq, hnone]
      rfl
    · rfl

theorem Routed.push (hlookup : system.activePartitions.lookup slice.schema = some partition)
    (hrows : slice.rows ≠ [])
    (hfits : partition.slices = [] ∨ slice.rows.length ≤ partition.capacity) :
    Routed options (arrived ++ [slice]) (system.push options slice) := by
  have hpushed (schema : VastType) : (system.push options slice).activePartitions.lookup schema =
      if schema = slice.schema then some (pushSlice options slice partition)
      else system.activePartitions.lookup schema := by
    rw [System.push, lookup_adjust, hlookup, Option.map_some]
  refine ⟨?_, fun schema other hother => ?_, hrouted.persisted, fun schema => ?_⟩
  · rw [System.push, keys_adjust]
    exact hrouted.keys
  · rw [hpushed] at hother
    split at hother
    next heq =>
      cases hother
      exact heq ▸ (hrouted.active _ _ hlookup).pushSlice hrows hfits
    · exact hrouted.active schema other hother
  · have harrived := hrouted.arrived schema
    rw [routed] at harrived ⊢
    rw [hpushed]
    by_cases heq : schema = slice.schema
    · subst heq
      rw [hlookup] at harrived
      rw [if_pos rfl, ofSchema_append_self, map_append, map_append, ← harrived]
      simp [System.push, System.pushSlice, withoutOffset]
    · rw [if_neg heq, ofSchema_append_of_ne arrived heq, ← harrived]
      rfl

theorem Routed.decommission (hlookup : system.activePartitions.lookup schema = some partition)
    (hne : partition.slices ≠ []) :
    Routed options arrived (system.decommissionActivePartition schema) := by
  have hids := (hrouted.active _ _ hlookup).ids.resolve_left hne
  have herase (other : VastType) : (system.activePartitions.filter fun entry =>
      entry.1 ≠ schema).lookup other =
        if other = schema then none else system.activePartitions.lookup other :=
    lookup_erase ..
  rw [decommissionActivePartition, hlookup]
  refine ⟨hrouted.keys.sublist (filter_sublist.map _), fun other found hfound => ?_,
    fun id slices hmem => ?_, fun other => ?_⟩
  · rw [herase] at hfound
    split at hfound
    · cases hfound
    · exact hrouted.active other found hfound
  · rcases mem_concat.mp hmem with hold | hnew
    · obtain ⟨other, hother, hslices⟩ := hrouted.persisted id slices hold
      exact ⟨other, mem_append_left _ hother, hslices⟩
    · cases hnew
      exact ⟨schema, mem_append_right _ (mem_singleton_self _), hids⟩
  · rw [← hrouted.arrived, routed, routed, herase]
    dsimp only
    rw [flatMap_append, flatMap_singleton, ofSchema, group_append, append_assoc]
    -- The slices of the partition are found in the message.
    by_cases heq : other = schema
    · subst heq
      have hall : group TableSlice.schema partition.slices other = partition.slices :=
        filter_eq_self.mpr fun slice hslice => decide_eq_true (hids.sameSchema slice hslice)
      rw [if_pos rfl, hlookup]
      simp [Message.slices, hall, ofSchema]
    · have hgone : group TableSlice.schema partition.slices other = [] :=
        filter_eq_nil_iff.mpr fun slice hslice => by
          simpa [hids.sameSchema slice hslice] using Ne.symm heq
      rw [if_neg heq]
      simp [Message.slices, hgone, ofSchema]

theorem Routed.ingest (hfilled : Filled system) (hrows : slice.rows ≠ []) (id : Uuid) :
    Routed options (arrived ++ [slice]) (system.ingest options slice id) ∧
      Filled (system.ingest options slice id) := by
  have hfirst {system : System} (hrouted : Routed options arrived system)
      (hnone : system.activePartitions.lookup slice.schema = none) : Routed options
        (arrived ++ [slice])
        ((system.createActivePartition options slice.schema id).push options slice) := by
    have hlookup := lookup_createActivePartition options id hnone slice.schema
    rw [if_pos rfl] at hlookup
    exact (hrouted.create id hnone).push hlookup hrows (.inl rfl)
  rw [System.ingest]
  split
  next hnone => exact ⟨hfirst hrouted hnone, filled_push_create hfilled slice id⟩
  next partition hlookup =>
    split
    · have hnone : (system.decommissionActivePartition
          slice.schema).activePartitions.lookup slice.schema = none := by
        rw [decommissionActivePartition, hlookup]
        exact (lookup_erase ..).trans (if_pos rfl)
      exact ⟨hfirst (hrouted.decommission hlookup (hfilled _ (mem_of_lookup hlookup))) hnone,
        filled_push_create (hfilled.decommissionActivePartition slice.schema) slice id⟩
    next hfits =>
      exact ⟨hrouted.push hlookup hrows (.inr (not_lt.mp hfits)),
        filled_push fun entry hentry _ => hfilled entry hentry⟩

end

/-! ## Runs -/

/-- Slices arrive, each with an identifier for the partition that may be needed. -/
def System.ingestAll (options : Options) (arrivals : List (TableSlice × Uuid)) (system : System) :
    System :=
  arrivals.foldl (fun system arrival => system.ingest options arrival.1 arrival.2) system

theorem routed_ingestAll (options : Options) (taxonomies : Taxonomies)
    (stored : FlatMap Uuid PartitionSynopsis) {arrivals : List (TableSlice × Uuid)}
    (hrows : ∀ arrival ∈ arrivals, arrival.1.rows ≠ []) :
    Routed options (arrivals.map Prod.fst) ((start taxonomies stored).ingestAll options arrivals) ∧
      Filled ((start taxonomies stored).ingestAll options arrivals) := by
  induction arrivals using reverseRecOn with
  | nil =>
    refine ⟨⟨nodup_nil, ?_, ?_, fun schema => rfl⟩, ?_⟩
    · simp [ingestAll, start]
    · simp [ingestAll, start]
    · simp [Filled, ingestAll, start]
  | append_singleton arrivals arrival ih =>
    rw [forall_mem_append, forall_mem_singleton] at hrows
    obtain ⟨hrouted, hfilled⟩ := ih hrows.1
    rw [ingestAll, foldl_append, map_append]
    exact hrouted.ingest hfilled hrows.2 arrival.2

/-- Slices of two schemas, one of which is too large for a partition with two events. -/
def mixedArrivals : List (TableSlice × Uuid) :=
  [(blank "flow" 1, 1), (blank "dns" 3, 2), (blank "flow" 1, 3), (blank "flow" 1, 4),
    (blank "dns" 1, 5)]

def mixedSystem : System :=
  (start CatalogState.noTaxonomies FlatMap.empty).ingestAll smallOptions mixedArrivals

end IndexProtocol

end Vast
