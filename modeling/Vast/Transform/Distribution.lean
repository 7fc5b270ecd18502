import Vast.Table.Offsets
import Vast.Transform.TransformerReply

/-! # Distributing transformed slices among partitions

The partitions of a schema are next to each other in a multimap, in the order in which they
were created. A slice goes to the last one, or to a new one if it does not fit, so that the
partitions hold the slices of the schema one after another. The offsets follow when the stores
are there.
-/

namespace Vast

open Foundation NextFit TableSlice List KeyedList PartitionSynopsis

namespace PartitionTransformer

variable {π : Type} {options : TransformerOptions π} {slice : TableSlice}
  {data : List (VastType × TransformedPartition)}

/-! ## The multimap -/

def partitionsOf (data : List (VastType × TransformedPartition)) (schema : VastType) :
    List (VastType × TransformedPartition) :=
  KeyedList.group Prod.fst data schema

theorem partitionsOf_cons (entry : VastType × TransformedPartition)
    (rest : List (VastType × TransformedPartition)) (schema : VastType) :
    partitionsOf (entry :: rest) schema =
      if entry.1 = schema then entry :: partitionsOf rest schema else partitionsOf rest schema :=
  group_cons ..

/-- No entry comes after one that it should precede. -/
def Ordered (options : TransformerOptions π) (data : List (VastType × TransformedPartition)) :
    Prop :=
  data.Pairwise fun first second => ¬options.precedes second.1 first.1 = true

abbrev StrictlyOrders (options : TransformerOptions π) : Prop :=
  IsStrictOrder VastType fun first second => options.precedes first second = true

theorem ordered_insertPartition (hstrict : StrictlyOrders options) (hordered : Ordered options data)
    (schema : VastType) (partition : TransformedPartition) :
    Ordered options (insertPartition options schema partition data) := by
  induction data with
  | nil => exact pairwise_singleton _ _
  | cons entry rest ih =>
    obtain ⟨hentry, hrest⟩ := pairwise_cons.mp hordered
    rw [insertPartition]
    split
    next hbefore =>
      refine pairwise_cons.mpr ⟨?_, hordered⟩
      intro other hother hafter
      rcases mem_cons.mp hother with rfl | hmem
      · exact hstrict.irrefl _ (hstrict.trans _ _ _ hbefore hafter)
      · exact hentry other hmem (hstrict.trans _ _ _ hafter hbefore)
    next hnot =>
      refine pairwise_cons.mpr ⟨?_, ih hrest⟩
      intro other hother
      rcases mem_cons.mp ((insertPartition_perm options schema partition rest).mem_iff.mp
        hother) with rfl | hmem
      · exact hnot
      · exact hentry other hmem

/-- A new partition comes after the partitions of its schema. -/
theorem partitionsOf_insertPartition (hstrict : StrictlyOrders options)
    (hordered : Ordered options data) (schema : VastType) (partition : TransformedPartition)
    (wanted : VastType) : partitionsOf (insertPartition options schema partition data) wanted =
      partitionsOf data wanted ++ if wanted = schema then [(schema, partition)] else [] := by
  induction data with
  | nil =>
    by_cases heq : wanted = schema
    · simp [insertPartition, partitionsOf, group, heq]
    · simp [insertPartition, partitionsOf, group, heq, Ne.symm heq]
  | cons entry rest ih =>
    obtain ⟨hentry, hrest⟩ := pairwise_cons.mp hordered
    rw [insertPartition]
    split
    next hbefore =>
      by_cases heq : wanted = schema
      · -- None of the entries that follow has the schema.
        have hnone : partitionsOf (entry :: rest) schema = [] := by
          apply filter_eq_nil_iff.mpr
          intro other hother hkey
          have hschema : other.1 = schema := by simpa using hkey
          rcases mem_cons.mp hother with rfl | hmem
          · rw [hschema] at hbefore
            exact hstrict.irrefl _ hbefore
          · rw [← hschema] at hbefore
            exact hentry other hmem hbefore
        rw [if_pos heq, heq, partitionsOf_cons, if_pos rfl, hnone]
        rfl
      · rw [if_neg heq, append_nil, partitionsOf_cons, if_neg (Ne.symm heq)]
    · rw [partitionsOf_cons, partitionsOf_cons, ih hrest]
      split <;> rfl

theorem keys_appendSlice (slice : TableSlice) (data : List (VastType × TransformedPartition)) :
    (appendSlice slice data).map Prod.fst = data.map Prod.fst := by
  induction data with
  | nil => rfl
  | cons entry rest ih =>
    rw [appendSlice]
    split
    · rfl
    · rw [map_cons, map_cons, ih]

theorem ordered_appendSlice (hordered : Ordered options data) (slice : TableSlice) :
    Ordered options (appendSlice slice data) := by
  have hkeys (entries : List (VastType × TransformedPartition)) : Ordered options entries ↔
      (entries.map Prod.fst).Pairwise fun first second =>
        ¬options.precedes second first = true := by
    rw [pairwise_map]
    rfl
  rw [hkeys, keys_appendSlice, ← hkeys]
  exact hordered

def TransformedPartition.add (slice : TableSlice) (partition : TransformedPartition) :
    TransformedPartition :=
  { partition with
    events := partition.events + slice.rows.length
    slices := partition.slices ++ [slice] }

theorem partitionsOf_appendSlice {init : List (VastType × TransformedPartition)}
    {last : VastType × TransformedPartition}
    (hlast : partitionsOf data slice.schema = init ++ [last]) :
    partitionsOf (appendSlice slice data) slice.schema =
      init ++ [(last.1, TransformedPartition.add slice last.2)] := by
  induction data generalizing init with
  | nil => simp [partitionsOf, group] at hlast
  | cons entry rest ih =>
    rw [partitionsOf_cons] at hlast
    rw [appendSlice]
    split
    next hhere =>
      have hnone : partitionsOf rest slice.schema = [] :=
        filter_eq_nil_iff.mpr fun other hother => by simpa using hhere.2 other hother
      rw [if_pos hhere.1, hnone] at hlast
      obtain ⟨rfl, rfl⟩ : init = [] ∧ last = entry := by
        cases init with
        | nil => exact ⟨rfl, (singleton_inj.mp hlast).symm⟩
        | cons head tail => simp at hlast
      rw [partitionsOf_cons, if_pos hhere.1, hnone]
      rfl
    next hlater =>
      rw [partitionsOf_cons]
      split
      next hkey =>
        -- The entry has the schema, but it is not the last one.
        rw [if_pos hkey] at hlast
        cases init with
        | nil =>
          have hnone : partitionsOf rest slice.schema = [] := (cons.inj hlast).2
          refine absurd ⟨hkey, fun other hother heq => ?_⟩ hlater
          have hmem : other ∈ partitionsOf rest slice.schema :=
            mem_group.mpr ⟨hother, heq⟩
          rw [hnone] at hmem
          cases hmem
        | cons head tail =>
          obtain ⟨rfl, htail⟩ := cons.inj hlast
          rw [ih htail]
          rfl
      next hkey =>
        rw [if_neg hkey] at hlast
        exact ih hlast

theorem partitionsOf_appendSlice_of_ne (data : List (VastType × TransformedPartition))
    {schema : VastType} (hne : schema ≠ slice.schema) :
    partitionsOf (appendSlice slice data) schema = partitionsOf data schema := by
  induction data with
  | nil => rfl
  | cons entry rest ih =>
    rw [appendSlice]
    split
    next hhere =>
      have hother : entry.1 ≠ schema := fun heq => hne (heq.symm.trans hhere.1)
      rw [partitionsOf_cons, partitionsOf_cons, if_neg hother, if_neg hother]
    · rw [partitionsOf_cons, partitionsOf_cons, ih]

/-! ## Filling partitions -/

def contents (entry : VastType × TransformedPartition) : List TableSlice :=
  entry.2.slices.map withoutOffset

/-- The partitions of a schema hold its slices, count their rows, and are listed in the order in
which their identifiers were drawn. -/
structure Holds (options : TransformerOptions π) (count : Nat) (slices : List TableSlice)
    (partitions : List (VastType × TransformedPartition)) : Prop where
  packed : Packed options.partitionCapacity rowCount (slices.map withoutOffset)
    (partitions.map contents)
  events : ∀ entry ∈ partitions, entry.2.events = load rowCount entry.2.slices
  created : (partitions.map fun entry => entry.2.id).Sublist
    ((List.range count).map options.random)

variable {count : Nat} {slices transformed : List TableSlice}
  {partitions init : List (VastType × TransformedPartition)}
  {last : VastType × TransformedPartition} {state : PartitionTransformer π}

theorem load_contents (entry : VastType × TransformedPartition) :
    load rowCount (contents entry) = load rowCount entry.2.slices :=
  load_map_withoutOffset entry.2.slices

theorem Holds.begin (hholds : Holds options count slices partitions)
    (hfull : ∀ last ∈ partitions.getLast?,
      options.partitionCapacity < last.2.events + slice.rows.length) :
    Holds options (count + 1) (slices ++ [slice]) (partitions ++ [(slice.schema,
      TransformedPartition.add slice ⟨options.random count, 0, []⟩)]) := by
  refine ⟨?_, ?_, ?_⟩
  · rw [map_append, map_append]
    refine hholds.packed.begin fun bin hbin => ?_
    rw [getLast?_map] at hbin
    obtain ⟨last, hlast, rfl⟩ := Option.map_eq_some_iff.mp hbin
    rw [load_contents, ← hholds.events last (mem_of_getLast? hlast)]
    exact hfull last hlast
  · rw [forall_mem_append]
    refine ⟨hholds.events, ?_⟩
    simp [TransformedPartition.add, rowCount]
  · rw [map_append, range_succ, map_append]
    exact hholds.created.append (Sublist.refl _)

theorem Holds.continue (hholds : Holds options count slices (init ++ [last]))
    (hfits : last.2.events + slice.rows.length ≤ options.partitionCapacity) :
    Holds options count (slices ++ [slice])
      (init ++ [(last.1, TransformedPartition.add slice last.2)]) := by
  obtain ⟨hpacked, hevents, hcreated⟩ := hholds
  rw [forall_mem_append, forall_mem_singleton] at hevents
  rw [map_append] at hpacked hcreated
  refine ⟨?_, ?_, ?_⟩
  · have hroom : load rowCount (contents last) + rowCount slice.withoutOffset ≤
        options.partitionCapacity := by
      rw [load_contents, ← hevents.2]
      exact hfits
    simpa [contents, TransformedPartition.add] using hpacked.add hroom
  · rw [forall_mem_append, forall_mem_singleton]
    refine ⟨hevents.1, ?_⟩
    rw [TransformedPartition.add, load_append, ← hevents.2]
    rfl
  · rw [map_append]
    exact hcreated

/-- The partitions of every schema hold its slices. -/
structure Distributed (options : TransformerOptions π) (transformed : List TableSlice)
    (data : List (VastType × TransformedPartition)) : Prop where
  ordered : Ordered options data
  holds : ∀ schema, Holds options data.length (ofSchema transformed schema)
    (partitionsOf data schema)

theorem length_appendSlice (slice : TableSlice) (data : List (VastType × TransformedPartition)) :
    (appendSlice slice data).length = data.length := by
  rw [← length_map Prod.fst, keys_appendSlice, length_map]

/-- A slice that does not fit goes to a new partition. -/
theorem Distributed.insert
    (hstrict : StrictlyOrders options) (hdist : Distributed options transformed data)
    (hfull : ∀ last ∈ (partitionsOf data slice.schema).getLast?,
      options.partitionCapacity < last.2.events + slice.rows.length) :
    Distributed options (transformed ++ [slice]) (appendSlice slice (insertPartition options
      slice.schema ⟨options.random data.length, 0, []⟩ data)) := by
  obtain ⟨hordered, hholds⟩ := hdist
  have hparts := partitionsOf_insertPartition hstrict hordered slice.schema
    ⟨options.random data.length, 0, []⟩
  refine ⟨ordered_appendSlice (ordered_insertPartition hstrict hordered _ _) slice,
    fun schema => ?_⟩
  rw [length_appendSlice, (insertPartition_perm options _ _ data).length_eq]
  by_cases heq : schema = slice.schema
  · subst heq
    have hlast := hparts slice.schema
    rw [if_pos rfl] at hlast
    rw [partitionsOf_appendSlice hlast, ofSchema_append_self]
    exact (hholds slice.schema).begin hfull
  · rw [partitionsOf_appendSlice_of_ne _ heq, hparts, if_neg heq, append_nil,
      ofSchema_append_of_ne transformed heq]
    exact ⟨(hholds schema).packed, (hholds schema).events,
      (hholds schema).created.trans ((range_sublist.mpr (Nat.le_succ _)).map options.random)⟩

theorem Distributed.append (hdist : Distributed options transformed data)
    (hlast : partitionsOf data slice.schema = init ++ [last])
    (hfits : last.2.events + slice.rows.length ≤ options.partitionCapacity) :
    Distributed options (transformed ++ [slice]) (appendSlice slice data) := by
  obtain ⟨hordered, hholds⟩ := hdist
  refine ⟨ordered_appendSlice hordered slice, fun schema => ?_⟩
  rw [length_appendSlice]
  by_cases heq : schema = slice.schema
  · subst heq
    rw [partitionsOf_appendSlice hlast, ofSchema_append_self]
    exact (hlast ▸ hholds slice.schema).continue hfits
  · rw [partitionsOf_appendSlice_of_ne _ heq, ofSchema_append_of_ne transformed heq]
    exact hholds schema

theorem Distributed.addTransformed (hstrict : StrictlyOrders options)
    (hdist : Distributed options transformed state.data) (slice : TableSlice) :
    Distributed options (transformed ++ [slice]) (state.addTransformed options slice).data := by
  have hneeds : needsPartition options state.data slice =
      (partitionsOf state.data slice.schema).getLast?.elim true fun entry =>
        decide (options.partitionCapacity < entry.2.events + slice.rows.length) := by
    rw [needsPartition, partitionsOf, group]
    cases getLast? _ <;> rfl
  rw [PartitionTransformer.addTransformed, createOrGetPartition, hneeds]
  rcases eq_nil_or_concat (partitionsOf state.data slice.schema) with
    hnil | ⟨init, last, hlast⟩
  · rw [hnil]
    exact hdist.insert hstrict (by simp [hnil])
  · rw [concat_eq_append] at hlast
    rw [hlast, getLast?_concat]
    dsimp only
    split
    next hfull => exact hdist.insert hstrict (by simpa [hlast] using hfull)
    next hfits => exact hdist.append hlast (by simpa using hfits)

theorem distributed_foldl (hstrict : StrictlyOrders options) (hdata : state.data = [])
    (transformed : List TableSlice) : Distributed options transformed
      (transformed.foldl (addTransformed options) state).data := by
  induction transformed using reverseRecOn with
  | nil =>
    rw [foldl_nil, hdata]
    exact ⟨Pairwise.nil, fun _ => ⟨packed_nil, by simp [partitionsOf, group], by
      simp [partitionsOf, group]⟩⟩
  | append_singleton transformed slice ih =>
    rw [foldl_append]
    exact ih.addTransformed hstrict slice

/-! ## Offsets -/

theorem assignOffsets_append_singleton (offset : Nat) (slices : List TableSlice)
    (slice : TableSlice) : assignOffsets offset (slices ++ [slice]) = assignOffsets offset slices ++
      [{ slice with offset := some (offset + load rowCount slices) }] := by
  induction slices generalizing offset with
  | nil => rfl
  | cons head rest ih =>
    rw [cons_append, assignOffsets, ih, load_cons, ← Nat.add_assoc]
    rfl

theorem map_withoutOffset_assignOffsets (offset : Nat) (slices : List TableSlice) :
    (assignOffsets offset slices).map withoutOffset = slices.map withoutOffset := by
  induction slices generalizing offset with
  | nil => rfl
  | cons head rest ih =>
    rw [assignOffsets, map_cons, ih]
    rfl

theorem load_assignOffsets (offset : Nat) (slices : List TableSlice) :
    load rowCount (assignOffsets offset slices) = load rowCount slices := by
  rw [← load_map_withoutOffset, map_withoutOffset_assignOffsets, load_map_withoutOffset]

theorem gapless_assignOffsets (slices : List TableSlice) : Gapless (assignOffsets 0 slices) := by
  induction slices using reverseRecOn with
  | nil => exact gapless_nil
  | append_singleton slices slice ih =>
    rw [assignOffsets_append_singleton, gapless_append_singleton, load_assignOffsets, Nat.zero_add]
    exact ⟨ih, rfl⟩

/-- A partition whose slices have got their offsets. -/
def number (entry : VastType × TransformedPartition) : VastType × TransformedPartition :=
  (entry.1, { entry.2 with slices := assignOffsets 0 entry.2.slices })

theorem Distributed.number (hdist : Distributed options transformed data) :
    Distributed options transformed (data.map number) := by
  refine ⟨pairwise_map.mpr hdist.ordered, fun schema => ?_⟩
  have hparts : partitionsOf (data.map PartitionTransformer.number) schema =
      (partitionsOf data schema).map PartitionTransformer.number := by
    apply group_map
    intro entry
    rfl
  obtain ⟨hpacked, hevents, hcreated⟩ := hdist.holds schema
  have hcontents : contents ∘ PartitionTransformer.number = contents :=
    funext fun entry => map_withoutOffset_assignOffsets 0 entry.2.slices
  rw [hparts, length_map]
  refine ⟨?_, ?_, ?_⟩
  · rw [map_map, hcontents]
    exact hpacked
  · intro entry hentry
    obtain ⟨origin, horigin, rfl⟩ := mem_map.mp hentry
    exact (hevents origin horigin).trans (load_assignOffsets 0 origin.2.slices).symm
  · rw [map_map]
    exact hcreated

/-- The slices of all partitions have got their offsets. -/
def Numbered (data : List (VastType × TransformedPartition)) : Prop :=
  ∀ entry ∈ data, Gapless entry.2.slices

theorem numbered_map_number (data : List (VastType × TransformedPartition)) :
    Numbered (data.map number) := by
  intro entry hentry
  obtain ⟨origin, -, rfl⟩ := mem_map.mp hentry
  exact gapless_assignOffsets origin.2.slices

/-! ## Runs -/

section Run

variable {state : PartitionTransformer π} {transformed : List TableSlice}

variable [BloomFilters] {messages : List Message}

/-- Partitions change when the input ends and when the stores are there, and at no other
time. -/
theorem data_step (options : TransformerOptions π) (state : PartitionTransformer π)
    {message : Message} (hdone : message ≠ .done) (hresume : message ≠ .resume) :
    (step options state message).data = state.data := by
  cases message with
  | done => exact absurd rfl hdone
  | resume => exact absurd rfl hresume
  | slice slice =>
    simp only [step]
    split <;> rfl
  | persist => exact congrArg Core.data (core_persist state)
  | wroteSynopsis pos error => rfl
  | wrotePartition pos error =>
    exact congrArg Core.data (core_wrotePartition state pos error)
  | down pos reason =>
    cases hstore : state.stores[pos]? with
    | none => simp [step, hstore]
    | some store => exact congrArg Core.data (core_down options hstore reason)

theorem data_resume (options : TransformerOptions π) (hrunning : state.running = true) :
    (step options state .resume).data = state.data.map number := by
  have hstep : step options state .resume = handleResume options { state with resuming := false } :=
    if_pos hrunning
  rw [hstep]
  exact congrArg Core.data (core_storeOrFulfill _ _)

/-- After the end of the input, the slices stay in their partitions. -/
theorem distributed_of_done (hphase : Phase state) (hdone : state.doneReceived = true)
    (hdist : Distributed options transformed state.data)
    (hrun : Foundation.Run.Admissible (step options) Legal state messages) :
    Distributed options transformed (messages.foldl (step options) state).data ∧
      (.resume ∈ messages ∨ Numbered state.data →
        Numbered (messages.foldl (step options) state).data) := by
  induction messages generalizing state with
  | nil => exact ⟨hdist, fun hcases => hcases.resolve_left not_mem_nil⟩
  | cons message rest ih =>
    obtain ⟨hlegal, hrest⟩ := hrun
    have hne : message ≠ .done := by
      rintro rfl
      rw [show state.doneReceived = false from hlegal] at hdone
      cases hdone
    have hphase' : Phase (step options state message) := hphase.step state message hlegal
    have hdone' := (doneReceived_step options hlegal hne).trans hdone
    by_cases hresume : message = .resume
    · subst hresume
      have hdata := data_resume options (hphase.of_resuming hlegal).running
      obtain ⟨hend, hnumbered⟩ := ih hphase' hdone' (hdata ▸ hdist.number) hrest
      exact ⟨hend, fun _ => hnumbered (Or.inr (hdata ▸ numbered_map_number state.data))⟩
    · have hdata := data_step options state hne hresume
      obtain ⟨hend, hnumbered⟩ := ih hphase' hdone' (hdata ▸ hdist) hrest
      refine ⟨hend, fun hcases => hnumbered ?_⟩
      rw [mem_cons, or_assoc] at hcases
      rcases hcases with heq | hmem | hbefore
      · exact absurd heq.symm hresume
      · exact Or.inl hmem
      · exact Or.inr (hdata ▸ hbefore)

theorem distributed_run (hstrict : StrictlyOrders options)
    (hphase : Phase state) (hdone : state.doneReceived = false)
    (hrun : Foundation.Run.Admissible (step options) Legal state messages)
    (hend : (messages.foldl (step options) state).doneReceived = true)
    (hfinish : options.pipeline.finish (collected options state.transform messages) =
      .ok transformed) :
    Distributed options transformed (messages.foldl (step options) state).data ∧
      (.resume ∈ messages → Numbered (messages.foldl (step options) state).data) := by
  obtain ⟨last, rest, hlast, htrans, hphase', hrest, hfold, hmem⟩ :=
    exists_done hphase hdone hrun hend
  obtain ⟨ids, hcore⟩ := core_done options hlast.running
  have hdist : Distributed options transformed (step options last .done).data := by
    rw [show (step options last .done).data = _ from congrArg Core.data hcore]
    simp only [partitioned, htrans, hfinish]
    apply distributed_foldl hstrict
    exact hlast.data
  obtain ⟨hfinal, hnumbered⟩ := distributed_of_done hphase' (congrArg Core.doneReceived hcore)
    hdist hrest
  rw [hfold]
  exact ⟨hfinal, fun hresume => hnumbered (Or.inl (hmem hresume))⟩

end Run

/-- The slices of each schema are distributed faithfully among its partitions: in the order of
their creation, they hold consecutive segments, and a new one is begun exactly when the next
slice does not fit. -/
structure Faithful (options : TransformerOptions π) (transformed : List TableSlice)
    (data : List (VastType × TransformedPartition)) : Prop where
  created : ∀ schema, ((partitionsOf data schema).map fun entry => entry.2.id).Sublist
    ((List.range data.length).map options.random)
  packed : ∀ schema, Packed options.partitionCapacity rowCount
    ((ofSchema transformed schema).map withoutOffset)
    ((partitionsOf data schema).map fun entry => entry.2.slices.map withoutOffset)
  events : ∀ entry ∈ data, entry.2.events = load rowCount entry.2.slices

theorem Distributed.faithful (hdist : Distributed options transformed data) :
    Faithful options transformed data where
  created schema := (hdist.holds schema).created
  packed schema := (hdist.holds schema).packed
  events entry hentry :=
    (hdist.holds entry.1).events entry (mem_group.mpr ⟨hentry, rfl⟩)

/-- When the input has ended, the slices that the pipeline returns are distributed faithfully
among partitions, and once the stores are there, the events of each partition are numbered
from 0 on. -/
theorem distributes_faithfully [BloomFilters] (options : TransformerOptions π) (transform : π)
    (messages : List Message) (transformed : List TableSlice) (hstrict : StrictlyOrders options)
    (hreceives : Receives options transform messages)
    (hdone : (run options transform messages).doneReceived = true)
    (hfinish : options.pipeline.finish (collected options transform messages) = .ok transformed) :
    Faithful options transformed (run options transform messages).data ∧
      (.resume ∈ messages → ∀ entry ∈ (run options transform messages).data,
        ∀ before slice after, entry.2.slices = before ++ slice :: after →
          slice.offset = some (load rowCount before)) := by
  obtain ⟨hdistributed, hnumbered⟩ :=
    distributed_run hstrict (phase_initial transform) rfl hreceives hdone hfinish
  exact ⟨hdistributed.faithful, hnumbered⟩

/-- A pipeline that returns slices of two schemas. -/
def mixedPipeline : Pipeline Unit where
  add := fun _ _ => (none, ())
  finish := fun _ => .ok [blank "flow" 1, blank "dns" 3, blank "flow" 1, blank "flow" 1]
  rows_ne_nil := by
    intro _ slices hfinish slice hslice
    cases hfinish
    simp only [List.mem_cons, List.not_mem_nil, or_false] at hslice
    rcases hslice with rfl | rfl | rfl | rfl <;> simp [blank]

def mixedOptions : TransformerOptions Unit :=
  { sampleOptions none with
    pipeline := mixedPipeline
    partitionCapacity := 2
    precedes := fun left right => left.name < right.name }

/-- The partition of the other schema comes first, and the three slices of one schema take two
partitions. -/
theorem mixed_distributed :
    (@run Unit exactFilters mixedOptions () [.done, .resume]).data.map
        (fun entry => (entry.2.events, entry.2.slices.map (·.offset))) =
        [(3, [some 0]), (2, [some 0, some 1]), (1, [some 0])] ∧
      Faithful mixedOptions [blank "flow" 1, blank "dns" 3, blank "flow" 1, blank "flow" 1]
        (@run Unit exactFilters mixedOptions () [.done, .resume]).data :=
  ⟨by decide, (@distributes_faithfully Unit exactFilters mixedOptions ()
    [.done, .resume] _
    { irrefl := fun _ hless => String.lt_irrefl _ (of_decide_eq_true hless)
      trans := fun _ _ _ hfirst hsecond => decide_eq_true
        (String.lt_trans (of_decide_eq_true hfirst) (of_decide_eq_true hsecond)) }
    (by decide) rfl rfl).1⟩

end PartitionTransformer

end Vast
