import Ehdb.Proof.Reference.Sessions
import Ehdb.Reference.EventLog

/-! What the driver does, said of a list of events, the consumers with their cursors and the
transactions that are taken. `Stands.call` is the refinement: every call answers and does what the
list says. -/

namespace Ehdb.Proof.Reference

open ProofKit Ehdb.Reference Transaction Ehdb.Stream Journal List
open ReferenceDatabase (applyMutation applyRecord applyStream)
open InMemoryStreamLog (createStream ensureStreamAbsent insertRecord publish replay
  replayRecords setStream stream validateAck)

/-- The event log as its callers see it: events, consumers and transaction ids. -/
structure EventLogState where
  events : List StreamRecord
  consumers : OrderedMap String DurableConsumer
  ids : List String

namespace EventLogState

def empty : EventLogState := ⟨[], .empty, []⟩

def duplicate (X : TextEnv) (a : EventLogState) (eventId : Option String) : Option Nat :=
  eventId.bind (existingSequenceForEventId X a.events)

def add (a : EventLogState) (subject : String) (payload : Bytes) (transactionId : String) :
    EventLogState :=
  { a with
    events := a.events ++ [⟨a.events.length + 1, subject, payload, transactionId⟩]
    ids := transactionId :: a.ids }

def create (a : EventLogState) (consumer transactionId : String) : EventLogState :=
  { a with
    consumers := a.consumers.insert consumer ⟨consumer, none⟩
    ids := transactionId :: a.ids }

def acked (a : EventLogState) (consumer : String) (sequence : Nat) (transactionId : String) :
    EventLogState :=
  { a with
    consumers := a.consumers.adjust consumer ({ · with ackedSequence := some sequence })
    ids := transactionId :: a.ids }

/-- A consumer that is known acks an event that is there, and not behind its cursor. -/
def checkAck (driver : LocalReferenceEventLogDriver) (a : EventLogState) (consumer : String)
    (sequence : Nat) : Result Unit := do
  if a.events.isEmpty then
    throw (.notFound s!"{driver.tenant}.{driver.namespaceName}.{eventLogStream}")
  if a.events.length < sequence then
    throw (.notFound s!"stream sequence {sequence}")
  match a.consumers.find? consumer with
  | none => throw (.notFound consumer)
  | some known =>
    match known.ackedSequence with
    | some acked =>
      if sequence < acked then
        throw (.invalidState
          s!"cannot move consumer {consumer} cursor backwards from {acked} to {sequence}")
    | none => return ()

def after (a : EventLogState) (sequence : Option Nat) : List StreamRecord :=
  a.events.filter fun record => sequence.all (· < record.sequence)

end EventLogState

variable {O D : Type} {G : Engines O D} {driver : LocalReferenceEventLogDriver} {x : Session O D}
  {a : EventLogState} {X : TextEnv}

/-- The stream holds the abstract log's events and consumers. -/
structure Carries (state : StreamState) (a : EventLogState) : Prop where
  config : state.config.retention = .keepAll
  next : state.nextSequence = a.events.length + 1
  records : state.records.entries = a.events.map fun record => (record.sequence, record)
  consumers : state.consumers = a.consumers

/-- A runtime that was opened on the file of a session and holds the event log. There is a stream
once there is an event. -/
structure Stands (G : Engines O D) (driver : LocalReferenceEventLogDriver) (x : Session O D)
    (a : EventLogState) : Prop where
  opened : LocalReferenceRuntime.openRuntime G x.file = .ok x.runtime
  ids : x.runtime.log.transactionIds = a.ids
  numbered : a.events.map StreamRecord.sequence = List.range' 1 a.events.length
  absent : a.events = [] → a.consumers = .empty ∧
    x.runtime.state.streams.streams.find? driver.coordinates.key = none
  present : a.events ≠ [] → ∃ state,
    x.runtime.state.streams.streams.find? driver.coordinates.key = some state ∧ Carries state a

theorem Stands.new : Stands G driver (.new G) .empty where
  opened := rfl
  ids := rfl
  numbered := rfl
  absent _ := ⟨rfl, rfl⟩
  present h := absurd rfl h

theorem Stands.reopen (stands : Stands G driver x a) : x.reopen G = .ok x := by
  unfold Session.reopen
  rw [stands.opened]
  rfl

section Streams

variable {streams : InMemoryStreamLog} {coords : Coordinates} {state : StreamState}

theorem stream_of_find? (h : streams.streams.find? coords.key = some state) :
    streams.stream coords = .ok state := by
  rw [stream, h]

theorem replayRecords_of_carries (h : streams.streams.find? coords.key = some state)
    (carries : Carries state a) (after : Option Nat) (filter : Option String) :
    streams.replayRecords coords after filter = .ok (a.events.filter fun record =>
      after.all (· < record.sequence) && filter.all (filterMatches · record.subject)) := by
  unfold replayRecords
  rw [stream_of_find? h]
  simp only [bind, Except.bind, pure, Except.pure, carries.records, filter_map, map_map]
  congr 1
  simp [Function.comp_def]

theorem replayRecords_of_absent (h : streams.streams.find? coords.key = none)
    (after : Option Nat) (filter : Option String) :
    ∃ e, streams.replayRecords coords after filter = .error e := by
  exact ⟨_, by rw [replayRecords, stream, h]; rfl⟩

end Streams

section

variable (stands : Stands G driver x a)
include stands

theorem Stands.replayed (some_events : a.events ≠ []) :
    driver.replayed x.runtime = .ok a.events := by
  obtain ⟨state, found, carries⟩ := stands.present some_events
  rw [LocalReferenceEventLogDriver.replayed, replay, replayRecords_of_carries found carries]
  simp

theorem Stands.replayed_none (none : a.events = []) : ∃ e, driver.replayed x.runtime = .error e :=
  replayRecords_of_absent (stands.absent none).2 _ _

theorem Stands.nextSequence :
    nextSequence (driver.replayed x.runtime) = (a.events.isEmpty, a.events.length + 1) := by
  by_cases none : a.events = []
  · obtain ⟨e, failed⟩ := stands.replayed_none none
    simp [Reference.nextSequence, failed, none]
  · simp [Reference.nextSequence, stands.replayed none, none]

theorem Stands.duplicateOf (eventId : Option String) :
    duplicateOf X (driver.replayed x.runtime) eventId =
      (a.duplicate X eventId).map fun sequence => (sequence, a.events.length) := by
  cases eventId with
  | none => rfl
  | some key =>
    by_cases none : a.events = []
    · obtain ⟨e, failed⟩ := stands.replayed_none none
      simp [Reference.duplicateOf, failed, EventLogState.duplicate, none,
        existingSequenceForEventId]
    · simp [Reference.duplicateOf, stands.replayed none, EventLogState.duplicate]

theorem Stands.recordCount : driver.recordCount x.runtime = a.events.length := by
  by_cases none : a.events = []
  · obtain ⟨e, failed⟩ := stands.replayed_none none
    simp [LocalReferenceEventLogDriver.recordCount, failed, none]
  · simp [LocalReferenceEventLogDriver.recordCount, stands.replayed none]

end

section Commits

variable {txId : String} {mutations : List StreamMutation}

theorem validateMutations_stream
    (valid : ∀ mutation ∈ mutations, validateStreamMutation mutation = .ok ()) :
    validateMutations (validateMutation G) (mutations.map .stream) = .ok () := by
  induction mutations with
  | nil => rfl
  | cons mutation mutations ih =>
    have first : validateMutation G (.stream mutation) = .ok () := valid mutation mem_cons_self
    show (validateMutation G (.stream mutation) >>= fun _ =>
      (mutations.map .stream).forM (validateMutation G)) = .ok ()
    rw [first]
    exact ih fun other mem => valid other (.tail _ mem)

structure Committable (driver : LocalReferenceEventLogDriver) (transactionId : String)
    (mutations : List StreamMutation) : Prop where
  coords : validateStreamCoordinates driver.coordinates = .ok ()
  id : validateIdentifier transactionId = .ok ()
  valid : ∀ mutation ∈ mutations, validateStreamMutation mutation = .ok ()
  some_mutations : mutations ≠ []

theorem buildRecord_commitOf (log : InMemoryTransactionLog (Mutation O))
    (ready : Committable driver txId mutations) :
    log.buildRecord (validateMutation G) (commitOf driver txId mutations) =
      if txId ∈ log.transactionIds then .error (.alreadyExists txId)
      else .ok ⟨log.expectedSequence, txId, driver.tenant, driver.namespaceName,
        mutations.map .stream⟩ := by
  obtain ⟨_, tenant, others⟩ := bind_eq_ok ready.coords
  obtain ⟨_, namespaceName, -⟩ := bind_eq_ok others
  have valid_transaction : validateTransaction (validateMutation G) txId driver.tenant
      driver.namespaceName (mutations.map .stream) = .ok () := by
    have not_empty : ¬(mutations.map (Mutation.stream (O := O))).isEmpty = true := by
      simpa using ready.some_mutations
    unfold validateTransaction
    rw [ready.id, show validateIdentifier driver.tenant = .ok () from tenant,
      show validateIdentifier driver.namespaceName = .ok () from namespaceName,
      validateMutations_stream ready.valid]
    simp only [bind, Except.bind, if_neg not_empty]
    rfl
  unfold InMemoryTransactionLog.buildRecord commitOf
  rw [valid_transaction]
  split <;> rfl

/-- The mutations take the streams from `before` to `after`, in whichever record they are. -/
def AppliesTo (driver : LocalReferenceEventLogDriver) (transactionId : String)
    (mutations : List StreamMutation) (before : InMemoryStreamLog)
    (after : Result InMemoryStreamLog) : Prop :=
  ∀ {O : Type} (record : LogRecord O), record.tenant = driver.tenant →
    record.namespaceName = driver.namespaceName → record.transactionId = transactionId →
    mutations.foldlM (fun streams => applyStream streams record) before = after

theorem commitOn_commitOf {runtime streams} (ready : Committable driver txId mutations)
    (applies : AppliesTo driver txId mutations runtime.state.streams streams) :
    commitOn G runtime (commitOf driver txId mutations) =
      if txId ∈ runtime.log.transactionIds then .error (.alreadyExists txId)
      else streams.bind fun streams => do
        let record : LogRecord O := ⟨runtime.log.expectedSequence, txId, driver.tenant,
          driver.namespaceName, mutations.map .stream⟩
        let log ← runtime.log.insertRecord (validateMutation G) record
        return (record, ⟨log, { runtime.state with streams := streams }⟩) := by
  have onStreams (record : LogRecord O) (db : ReferenceDatabase D) :
      (mutations.map .stream).foldlM (applyMutation G record) db =
        (mutations.foldlM (fun streams => applyStream streams record)
          db.streams).map fun streams => { db with streams := streams } := by
    clear applies ready
    induction mutations generalizing db with
    | nil => rfl
    | cons mutation mutations ih =>
      rw [map_cons, foldlM_cons, foldlM_cons, applyMutation]
      cases applyStream db.streams record mutation with
      | error e => rfl
      | ok streams => exact ih _
  unfold commitOn
  rw [buildRecord_commitOf runtime.log ready]
  split
  · rfl
  · have onRecord := applies (O := O) ⟨runtime.log.expectedSequence, txId, driver.tenant,
      driver.namespaceName, mutations.map .stream⟩ rfl rfl rfl
    simp only [bind, Except.bind, applyRecord, onStreams, onRecord]
    cases streams <;> rfl

section

variable (stands : Stands G driver x a) (ready : Committable driver txId mutations)
include stands ready

theorem Stands.commit_taken (taken : txId ∈ a.ids) :
    (LocalReferenceRuntime.append G (commitOf driver txId mutations)).outcome ()
      x.runtime x.file = some ((.error (.alreadyExists txId), x.runtime), x.file) := by
  have taken' : txId ∈ x.runtime.log.transactionIds := stands.ids ▸ taken
  have built := buildRecord_commitOf (G := G) x.runtime.log ready
  rw [if_pos taken'] at built
  rw [outcome_append, commitOn, built]
  rfl

theorem Stands.commit_done (free : txId ∉ a.ids) {streams}
    (applies : AppliesTo driver txId mutations x.runtime.state.streams (.ok streams)) :
    ∃ record runtime, commitOn G x.runtime (commitOf driver txId mutations) =
        .ok (record, runtime) ∧
      LocalReferenceRuntime.openRuntime G (x.file ++ [record]) = .ok runtime ∧
      runtime.log.transactionIds = txId :: a.ids ∧ runtime.state.streams = streams := by
  have free' : txId ∉ x.runtime.log.transactionIds := stands.ids ▸ free
  have committed := commitOn_commitOf (G := G) ready applies
  rw [if_neg free'] at committed
  have built := buildRecord_commitOf (G := G) x.runtime.log ready
  rw [if_neg free'] at built
  obtain ⟨log, inserted⟩ := insert_of_build built
  simp only [Except.bind, bind, inserted] at committed
  have takes := (commitOn_eq_ok committed).2
  have reads : ReadsBack G (mutations.map .stream) := by
    intro mutation mem
    obtain ⟨_, -, rfl⟩ := mem_map.1 mem
    rfl
  refine ⟨_, _, committed, openRuntime_takes stands.opened takes reads, ?_, rfl⟩
  obtain ⟨-, -, -, rfl⟩ := insertRecord_eq_ok_iff.1 inserted
  rw [← stands.ids]

end

end Commits

section Mutations

variable {streams : InMemoryStreamLog} {coords : Coordinates} {state : StreamState}
  {subject txId consumer : String} {payload : Bytes}

theorem find?_setStream (streams : InMemoryStreamLog) (coords : Coordinates) (state : StreamState) :
    (streams.setStream coords state).streams.find? coords.key = some state := by
  rw [setStream, OrderedMap.find?_insert, if_pos rfl]

theorem publish_carries (payload : Bytes) (valid : validateStreamCoordinates coords = .ok ())
    (good_subject : validateSubject subject = .ok ()) (good_id : validateIdentifier txId = .ok ())
    (found : streams.streams.find? coords.key = some state) (carries : Carries state a)
    (numbered : a.events.map StreamRecord.sequence = range' 1 a.events.length) :
    ∃ state', streams.publish coords subject payload txId =
        .ok (⟨a.events.length + 1, subject, payload, txId⟩, streams.setStream coords state') ∧
      Carries state' (a.add subject payload txId) := by
  obtain ⟨config, next, records, consumers⟩ := carries
  have below : ∀ e ∈ state.records.entries, e.1 < a.events.length + 1 := by
    intro e mem
    rw [records] at mem
    obtain ⟨record, known, rfl⟩ := mem_map.1 mem
    have among : record.sequence ∈ a.events.map StreamRecord.sequence := mem_map_of_mem known
    rw [numbered, mem_range'_1] at among
    omega
  refine ⟨{ state with
      records := state.records.insert (a.events.length + 1)
        ⟨a.events.length + 1, subject, payload, txId⟩
      nextSequence := a.events.length + 2 }, ?_, ?_⟩
  · unfold publish insertRecord validateStreamRecord
      StreamState.enforceRetention
    rw [valid, stream_of_find? found]
    simp only [bind, Except.bind, good_subject, good_id, next, config, ne_eq, not_true_eq_false,
      if_false]
    rfl
  · refine ⟨config, by simp [EventLogState.add], ?_, consumers⟩
    rw [OrderedMap.entries_insert_last below, records]
    simp [EventLogState.add]

theorem coordinatesIn_driver {record : LogRecord O} (tenant : record.tenant = driver.tenant)
    (namespaceName : record.namespaceName = driver.namespaceName) :
    coordinatesIn record eventLogStream = driver.coordinates := by
  rw [coordinatesIn, tenant, namespaceName]
  rfl

theorem Stands.applies_event (stands : Stands G driver x a) (payload : Bytes)
    (valid : validateStreamCoordinates driver.coordinates = .ok ())
    (good_subject : validateSubject subject = .ok ())
    (good_id : validateIdentifier txId = .ok ()) : ∃ streams state, AppliesTo driver txId
        (eventMutations a.events.isEmpty subject payload (a.events.length + 1))
        x.runtime.state.streams (.ok streams) ∧
      streams.streams.find? driver.coordinates.key = some state ∧
      Carries state (a.add subject payload txId) := by
  -- the publication, on streams that have the stream of the driver
  have publishes (before : InMemoryStreamLog) {state : StreamState}
      (found : before.streams.find? driver.coordinates.key = some state)
      (carries : Carries state a) : ∃ after state', AppliesTo driver txId
        [.publish eventLogStream subject payload (a.events.length + 1)] before (.ok after) ∧
        after.streams.find? driver.coordinates.key = some state' ∧
        Carries state' (a.add subject payload txId) := by
    obtain ⟨state', published, carries'⟩ :=
      publish_carries payload valid good_subject good_id found carries stands.numbered
    refine ⟨before.setStream driver.coordinates state', state', ?_, find?_setStream _ _ _, carries'⟩
    intro O record tenant namespaceName id
    simp only [foldlM_cons, foldlM_nil, applyStream,
      coordinatesIn_driver tenant namespaceName, id, published, bind, Except.bind, ne_eq,
      not_true_eq_false, if_false]
    rfl
  by_cases none : a.events = []
  · obtain ⟨consumers, absent⟩ := stands.absent none
    let config : StreamConfig := ⟨driver.tenant, driver.namespaceName, eventLogStream, .keepAll⟩
    have created : x.runtime.state.streams.createStream config =
        .ok ⟨x.runtime.state.streams.streams.insert config.key (.new config)⟩ := by
      unfold createStream validateStreamConfig
        ensureStreamAbsent
      rw [show validateStreamCoordinates ⟨_, _, _⟩ = _ from valid,
        show x.runtime.state.streams.streams.find? config.key = _ from absent]
      rfl
    have found : (x.runtime.state.streams.streams.insert config.key (.new config)).find?
        driver.coordinates.key = some (.new config) := by
      rw [OrderedMap.find?_insert]
      exact if_pos rfl
    obtain ⟨after, state', applies, found', carries'⟩ :=
      publishes ⟨x.runtime.state.streams.streams.insert config.key (.new config)⟩ found
        ⟨rfl, by simp [none, StreamState.new], by simp [none, StreamState.new, OrderedMap.empty],
          consumers.symm⟩
    refine ⟨after, state', ?_, found', carries'⟩
    intro O record tenant namespaceName id
    rw [eventMutations, if_pos (by simp [none]), singleton_append, foldlM_cons]
    have first : applyStream x.runtime.state.streams record
        (.createStream eventLogStream .keepAll) = x.runtime.state.streams.createStream config := by
      rw [applyStream, tenant, namespaceName]
    rw [first, created]
    exact applies record tenant namespaceName id
  · obtain ⟨state, found, carries⟩ := stands.present none
    obtain ⟨after, state', applies, found', carries'⟩ := publishes _ found carries
    refine ⟨after, state', ?_, found', carries'⟩
    intro O record tenant namespaceName id
    rw [eventMutations, if_neg (by simp [none]), nil_append]
    exact applies record tenant namespaceName id

theorem find?_records (carries : Carries state a)
    (numbered : a.events.map StreamRecord.sequence = range' 1 a.events.length) (sequence : Nat)
    (positive : sequence ≠ 0) :
    (state.records.find? sequence).isNone = decide (a.events.length < sequence) := by
  have among : sequence ∈ a.events.map StreamRecord.sequence ↔ ¬a.events.length < sequence := by
    rw [numbered, mem_range'_1]
    omega
  cases there : state.records.find? sequence with
  | some record =>
    have mem := OrderedMap.find?_eq_some.1 there
    rw [carries.records] at mem
    obtain ⟨known, is_event, eq⟩ := mem_map.1 mem
    have : sequence ∈ a.events.map StreamRecord.sequence :=
      mem_map.2 ⟨known, is_event, congrArg Prod.fst eq⟩
    simp [among.1 this]
  | none =>
    have not_among : sequence ∉ a.events.map StreamRecord.sequence := by
      intro mem
      obtain ⟨record, known, rfl⟩ := mem_map.1 mem
      have : (record.sequence, record) ∈ state.records.entries := by
        rw [carries.records]
        exact mem_map_of_mem known
      rw [OrderedMap.find?_eq_some.2 this] at there
      cases there
    simp only [Option.isNone_none, true_eq_decide_iff]
    exact not_not.1 fun h => not_among (among.2 h)

theorem ack_carries (txId : String) (valid : validateStreamCoordinates driver.coordinates = .ok ())
    (good_consumer : validateIdentifier consumer = .ok ()) {sequence} (positive : sequence ≠ 0)
    (found : streams.streams.find? driver.coordinates.key = some state) (carries : Carries state a)
    (numbered : a.events.map StreamRecord.sequence = range' 1 a.events.length)
    (some_events : a.events ≠ []) : ∃ state', streams.ack driver.coordinates consumer sequence =
        (a.checkAck driver consumer sequence).map
          (fun _ => streams.setStream driver.coordinates state') ∧
      Carries state' (a.acked consumer sequence txId) := by
  refine ⟨{ state with consumers :=
      state.consumers.adjust consumer ({ · with ackedSequence := some sequence }) }, ?_,
    carries.config, carries.next, carries.records, by rw [carries.consumers]; rfl⟩
  have not_empty : a.events.isEmpty = false := by simpa using some_events
  unfold InMemoryStreamLog.ack validateAck EventLogState.checkAck
  rw [valid, good_consumer, stream_of_find? found]
  simp only [bind, Except.bind, find?_records carries numbered sequence positive,
    carries.consumers, not_empty, Bool.false_eq_true, if_false, pure, Except.pure]
  by_cases beyond : a.events.length < sequence
  · simp only [beyond, decide_true, if_true]
    rfl
  · simp only [beyond, decide_false, Bool.false_eq_true, if_false]
    cases known : a.consumers.find? consumer with
    | none => rfl
    | some durable =>
      dsimp only
      cases acked : durable.ackedSequence with
      | none => rfl
      | some cursor =>
        dsimp only
        by_cases back : sequence < cursor
        · rfl
        · rfl

end Mutations

end Ehdb.Proof.Reference
