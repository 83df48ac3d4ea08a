import Ehdb.Proof.Reference.EventStream

/-! Each call of `LocalReferenceEventLogDriver`, as a function of the list of events, the consumers
and the ids that are taken. -/

namespace Ehdb.Proof.Reference

open ProofKit Ehdb.Reference Transaction Ehdb.Stream Journal List
open LocalReferenceEventLogDriver (scanGlobal validateAfter)
open EventLogState (add checkAck)
open InMemoryStreamLog (replay replayMatching)

variable {O D : Type} {G : Engines O D} {X : TextEnv} {driver : LocalReferenceEventLogDriver}
  {x : Session O D} {a : EventLogState}

variable {subject txId : String} {req : IdempotentAppend} {sequence : Nat}
  {runtime : LocalReferenceRuntime O D} {α : Type} {record : LogRecord O}

section Append

/-- The checks an append makes before it opens the runtime. -/
def checkAppend (driver : LocalReferenceEventLogDriver) (request : IdempotentAppend) :
    Result String := do
  validateStreamCoordinates driver.coordinates
  let subject ← executionSubject request.executionId
  validateIdentifier request.transactionId
  return subject

def appendedOutcome (a : EventLogState) (request : IdempotentAppend) : EventLogAppendOutcome :=
  ⟨"eventlog-append", strTrim request.executionId, a.events.length + 1,
    (intoBytes request.payload).length, a.events.isEmpty, a.events.length + 1, false⟩

def EventLogState.append (X : TextEnv) (driver : LocalReferenceEventLogDriver) (a : EventLogState)
    (request : IdempotentAppend) : Result EventLogAppendOutcome × EventLogState :=
  match checkAppend driver request with
  | .error e => (.error e, a)
  | .ok subject =>
    match a.duplicate X request.eventId with
    | some sequence =>
      (.ok ⟨"eventlog-append", strTrim request.executionId, sequence,
        (intoBytes request.payload).length, false, a.events.length, true⟩, a)
    | none =>
      if request.transactionId ∈ a.ids then (.error (.alreadyExists request.transactionId), a)
      else (.ok (appendedOutcome a request),
        a.add subject (intoBytes request.payload) request.transactionId)

theorem executionSubject_eq_ok {executionId} (h : executionSubject executionId = .ok subject) :
    subject = eventLogSubjectPrefix ++ "." ++ strTrim executionId ∧
      validateSubject subject = .ok () ∧ DurableSegmentStore.validName (strTrim executionId) := by
  unfold executionSubject at h
  dsimp only at h
  split at h
  · rename_i good
    obtain ⟨_, valid, is⟩ := bind_eq_ok h
    cases is
    exact ⟨rfl, valid, good⟩
  · cases h

theorem checkAppend_eq_ok (h : checkAppend driver req = .ok subject) :
    validateStreamCoordinates driver.coordinates = .ok () ∧
      executionSubject req.executionId = .ok subject ∧
      validateIdentifier req.transactionId = .ok () := by
  obtain ⟨_, coords, h⟩ := bind_eq_ok h
  obtain ⟨_, is_subject, h⟩ := bind_eq_ok h
  obtain ⟨_, id, h⟩ := bind_eq_ok h
  cases h
  exact ⟨coords, is_subject, id⟩

theorem validIdentifier_eventLogStream : validateIdentifier eventLogStream = .ok () := by
  decide +kernel

theorem committable_event {createdStream payload}
    (coords : validateStreamCoordinates driver.coordinates = .ok ())
    (good_subject : validateSubject subject = .ok ())
    (id : validateIdentifier txId = .ok ()) :
    Committable driver txId (eventMutations createdStream subject payload sequence) where
  coords := coords
  id := id
  valid mutation mem := by
    rcases mem_append.1 mem with create | publish
    · split at create
      · rw [mem_singleton.1 create]
        exact validIdentifier_eventLogStream
      · cases create
    · rw [mem_singleton.1 publish, validateStreamMutation, validIdentifier_eventLogStream]
      exact good_subject
  some_mutations := by simp [eventMutations]

theorem stands_committed {file a' streams state}
    (opened : LocalReferenceRuntime.openRuntime G file = .ok runtime)
    (ids : runtime.log.transactionIds = a'.ids) (is : runtime.state.streams = streams)
    (found : streams.streams.find? driver.coordinates.key = some state) (carries : Carries state a')
    (numbered : a'.events.map StreamRecord.sequence = range' 1 a'.events.length)
    (some_events : a'.events ≠ []) : Stands G driver ⟨file, runtime⟩ a' where
  opened := opened
  ids := ids
  numbered := numbered
  absent none := absurd none some_events
  present _ := ⟨state, is ▸ found, carries⟩

/-- The call ends with `result` and leaves a session that stands for `a'`. -/
def Answers (G : Engines O D) (driver : LocalReferenceEventLogDriver) {α : Type}
    (task : RuntimeTask O D α) (x : Session O D) (result : Result α) (a' : EventLogState) : Prop :=
  ∃ file runtime, task.outcome () x.runtime x.file = some ((result, runtime), file) ∧
    Stands G driver ⟨file, runtime⟩ a'

theorem outcome_checks (req : IdempotentAppend) (k : String → RuntimeTask O D α)
    (runtime : LocalReferenceRuntime O D) (file : LogFile O) : (do
      Task.ofExcept (validateStreamCoordinates driver.coordinates)
      let subject ← Task.ofExcept (executionSubject req.executionId)
      Task.ofExcept (validateIdentifier req.transactionId)
      k subject).outcome () runtime file =
    (Task.ofExcept (checkAppend driver req) >>= k).outcome () runtime file := by
  unfold checkAppend
  cases validateStreamCoordinates driver.coordinates with
  | error e => rfl
  | ok _ =>
    cases executionSubject req.executionId with
    | error e => rfl
    | ok subject => cases validateIdentifier req.transactionId <;> rfl

theorem outcome_of_commitOn {req} (committed : commitOn G x.runtime req = .ok (record, runtime)) :
    (LocalReferenceRuntime.append G req).outcome () x.runtime x.file =
      some ((.ok record, runtime), x.file ++ [record]) := by
  rw [outcome_append, committed]

/-- The commit an append of the driver makes over the abstract log. -/
def eventCommit (driver : LocalReferenceEventLogDriver) (a : EventLogState) (subject : String)
    (request : IdempotentAppend) : CommitTransaction (Mutation O) :=
  commitOf driver request.transactionId (eventMutations a.events.isEmpty subject
    (intoBytes request.payload) (a.events.length + 1))

section

variable (stands : Stands G driver x a) (checked : checkAppend driver req = .ok subject)
include stands checked

theorem Stands.event_taken (taken : req.transactionId ∈ a.ids) :
    (LocalReferenceRuntime.append G (eventCommit driver a subject req)).outcome () x.runtime
      x.file = some ((.error (.alreadyExists req.transactionId), x.runtime), x.file) := by
  obtain ⟨coords, is_subject, id⟩ := checkAppend_eq_ok checked
  obtain ⟨-, good_subject, -⟩ := executionSubject_eq_ok is_subject
  exact stands.commit_taken (committable_event coords good_subject id) taken

theorem Stands.event_added (free : req.transactionId ∉ a.ids) :
    ∃ record runtime, commitOn G x.runtime (eventCommit driver a subject req) =
        .ok (record, runtime) ∧ Stands G driver ⟨x.file ++ [record], runtime⟩
        (a.add subject (intoBytes req.payload) req.transactionId) := by
  obtain ⟨coords, is_subject, id⟩ := checkAppend_eq_ok checked
  obtain ⟨-, good_subject, -⟩ := executionSubject_eq_ok is_subject
  obtain ⟨streams, state, applies, found, carries⟩ :=
    stands.applies_event (intoBytes req.payload) coords good_subject id
  obtain ⟨record, runtime, committed, opened, ids, is⟩ :=
    stands.commit_done (committable_event coords good_subject id) free applies
  refine ⟨record, runtime, committed, stands_committed opened ids is found carries ?_
    (by simp [add])⟩
  simp only [add, map_append, stands.numbered, length_append, length_singleton, map_singleton]
  rw [range'_concat]
  simp [Nat.add_comm]

theorem Stands.outcome_append_event (fresh : a.duplicate X req.eventId = none)
    (committed : commitOn G x.runtime (eventCommit driver a subject req) = .ok (record, runtime))
    (stands' : Stands G driver ⟨x.file ++ [record], runtime⟩
      (a.add subject (intoBytes req.payload) req.transactionId)) :
    (driver.append X G req).outcome () x.runtime x.file =
      some ((.ok (appendedOutcome a req), runtime), x.file ++ [record]) := by
  unfold LocalReferenceEventLogDriver.append
  rw [outcome_checks, checked, Task.outcome_ok_bind, Task.outcome_memory_bind, stands.duplicateOf,
    fresh]
  simp only [Option.map_none, stands.nextSequence]
  refine (Task.outcome_bind_of_ok (outcome_of_commitOn committed)).trans ?_
  rw [Task.outcome_memory_bind, stands'.recordCount]
  simp [appendedOutcome, add]

end

/-- An append answers as the abstract log does. -/
theorem Stands.append (stands : Stands G driver x a) (X : TextEnv) (req : IdempotentAppend) :
    Answers G driver (driver.append X G req) x (a.append X driver req).1
      (a.append X driver req).2 := by
  unfold Answers EventLogState.append
  cases checked : checkAppend driver req with
  | error e =>
    refine ⟨_, _, ?_, stands⟩
    unfold LocalReferenceEventLogDriver.append
    rw [outcome_checks, checked]
    rfl
  | ok subject =>
    cases known : a.duplicate X req.eventId with
    | some sequence =>
      refine ⟨_, _, ?_, stands⟩
      unfold LocalReferenceEventLogDriver.append
      rw [outcome_checks, checked, Task.outcome_ok_bind, Task.outcome_memory_bind,
        stands.duplicateOf, known]
      rfl
    | none =>
      dsimp only
      by_cases taken : req.transactionId ∈ a.ids
      · rw [if_pos taken]
        refine ⟨_, _, ?_, stands⟩
        unfold LocalReferenceEventLogDriver.append
        rw [outcome_checks, checked, Task.outcome_ok_bind, Task.outcome_memory_bind,
          stands.duplicateOf, known]
        simp only [Option.map_none, stands.nextSequence]
        exact Task.outcome_bind_of_error (stands.event_taken checked taken)
      · rw [if_neg taken]
        obtain ⟨record, runtime, committed, stands'⟩ := stands.event_added checked taken
        exact ⟨_, _, stands.outcome_append_event checked known committed stands', stands'⟩

end Append

section Reads

variable (X : TextEnv) (driver : LocalReferenceEventLogDriver)

/-- What a page of a read returns for these records. -/
def shown (limit : Nat) (records : List StreamRecord) : List EventLogRecordView :=
  (records.take limit).map (projectRecord X)

def EventLogState.scan (a : EventLogState) (request : EventLogScanRequest) :
    Result EventLogScanOutcome := do
  validateStreamCoordinates driver.coordinates
  validateAfter request.after
  if a.events.isEmpty then return ⟨"eventlog-scan", false, 0, 0, [], 0⟩
  else
    let records := shown X request.limit (a.after request.after)
    return ⟨"eventlog-scan", true, (a.after request.after).length, records.length, records, 0⟩

def EventLogState.of (a : EventLogState) (subject : String) (sequence : Option Nat) :
    List StreamRecord :=
  a.events.filter fun record =>
    sequence.all (· < record.sequence) && filterMatches subject record.subject

def EventLogState.readExecution (a : EventLogState) (request : EventLogReadExecutionRequest) :
    Result EventLogReadExecutionOutcome := do
  validateStreamCoordinates driver.coordinates
  let subject ← executionSubject request.executionId
  validateSubjectFilter subject
  validateAfter request.after
  if a.events.isEmpty then
    return ⟨"eventlog-read-exec", strTrim request.executionId, false, 0, 0, [], 0⟩
  else
    let records := shown X request.limit (a.of subject request.after)
    return ⟨"eventlog-read-exec", strTrim request.executionId, true,
      (a.of subject request.after).length, records.length, records, 0⟩

def EventLogState.pending (a : EventLogState) (consumer : String) (created : Bool) (limit : Nat) :
    EventLogTailOutcome :=
  let acked := (a.consumers.find? consumer).bind DurableConsumer.ackedSequence
  let records := shown X limit (a.after acked)
  ⟨"eventlog-tail", consumer, true, created, acked, (a.after acked).length, records.length, records⟩

def EventLogState.tail (a : EventLogState) (request : EventLogTailRequest)
    (transactionId : String) :
    Result EventLogTailOutcome × EventLogState :=
  match (do validateStreamCoordinates driver.coordinates; validateIdentifier request.consumer) with
  | .error e => (.error e, a)
  | .ok _ =>
    if a.events.isEmpty then
      (.ok ⟨"eventlog-tail", request.consumer, false, false, none, 0, 0, []⟩, a)
    else if (a.consumers.find? request.consumer).isSome then
      (.ok (a.pending X request.consumer false request.limit), a)
    else
      match validateIdentifier transactionId with
      | .error e => (.error e, a)
      | .ok _ =>
        if transactionId ∈ a.ids then (.error (.alreadyExists transactionId), a)
        else
          (.ok ((a.create request.consumer transactionId).pending X request.consumer true
            request.limit), a.create request.consumer transactionId)

def EventLogState.ack (a : EventLogState) (request : EventLogAckRequest) (transactionId : String) :
    Result EventLogAckOutcome × EventLogState :=
  match (do
      validateStreamCoordinates driver.coordinates
      validateIdentifier request.consumer
      validateIdentifier transactionId
      validateSequence request.sequence) with
  | .error e => (.error e, a)
  | .ok _ =>
    if transactionId ∈ a.ids then (.error (.alreadyExists transactionId), a)
    else
      match a.checkAck driver request.consumer request.sequence with
      | .error e => (.error e, a)
      | .ok _ =>
        (.ok ⟨"eventlog-ack", request.consumer, request.sequence⟩,
          a.acked request.consumer request.sequence transactionId)

end Reads

section Refines

theorem outcome_check_pair (r r' : Result Unit) (k : RuntimeTask O D α)
    (runtime : LocalReferenceRuntime O D) (file : LogFile O) :
    (do Task.ofExcept r; Task.ofExcept r'; k : RuntimeTask O D α).outcome () runtime file =
      (do Task.ofExcept (do r; r'); k : RuntimeTask O D α).outcome () runtime file := by
  cases r <;> rfl

section

variable (stands : Stands G driver x a)
include stands

/-- A scan answers as the abstract log does. -/
theorem Stands.scan (X : TextEnv) (req : EventLogScanRequest) :
    Answers G driver (driver.scanGlobal X req : RuntimeTask O D _) x
      (a.scan X driver req) a := by
  refine ⟨x.file, x.runtime, ?_, stands⟩
  unfold scanGlobal EventLogState.scan
  cases validateStreamCoordinates driver.coordinates with
  | error e => rfl
  | ok _ =>
    cases validateAfter req.after with
    | error e => rfl
    | ok _ =>
      rw [Task.outcome_ok_bind, Task.outcome_ok_bind, Task.outcome_memory_bind]
      by_cases none : a.events = []
      · obtain ⟨e, failed⟩ := replayRecords_of_absent (stands.absent none).2 req.after
          Option.none
        rw [replay, failed]
        simp [none, bind, Except.bind]
        rfl
      · obtain ⟨state, found, carries⟩ := stands.present none
        rw [replay, replayRecords_of_carries found carries]
        simp [none, bind, Except.bind, shown, EventLogState.after]
        rfl

/-- The read of one execution answers as the abstract log does. -/
theorem Stands.readExecution (X : TextEnv) (req : EventLogReadExecutionRequest) :
    Answers G driver (driver.readExecution X req : RuntimeTask O D _) x
      (a.readExecution X driver req) a := by
  refine ⟨x.file, x.runtime, ?_, stands⟩
  unfold LocalReferenceEventLogDriver.readExecution EventLogState.readExecution
  cases validateStreamCoordinates driver.coordinates with
  | error e => rfl
  | ok _ =>
    cases executionSubject req.executionId with
    | error e => rfl
    | ok subject =>
      rw [Task.outcome_ok_bind, Task.outcome_ok_bind]
      show _ = some ((validateSubjectFilter subject >>= _, _), _)
      cases validateSubjectFilter subject with
      | error e => rfl
      | ok _ =>
        cases validateAfter req.after with
        | error e => rfl
        | ok _ =>
          simp only [Task.outcome_ok_bind, Task.outcome_memory_bind]
          by_cases none : a.events = []
          · obtain ⟨e, failed⟩ := replayRecords_of_absent (stands.absent none).2 req.after
              (some subject)
            rw [replayMatching, failed]
            simp [none, bind, Except.bind]
            rfl
          · obtain ⟨state, found, carries⟩ := stands.present none
            rw [replayMatching, replayRecords_of_carries found carries]
            simp [none, bind, Except.bind, shown, EventLogState.of]
            rfl

theorem Stands.consumer (some_events : a.events ≠ []) (consumer : String) :
    x.runtime.state.streams.consumer driver.coordinates consumer = a.consumers.find? consumer := by
  obtain ⟨state, found, carries⟩ := stands.present some_events
  rw [InMemoryStreamLog.consumer, found]
  exact congrArg (OrderedMap.find? · consumer) carries.consumers

theorem Stands.replayForConsumer (some_events : a.events ≠ []) {consumer durable}
    (known : a.consumers.find? consumer = some durable) :
    x.runtime.state.streams.replayForConsumer driver.coordinates consumer =
      .ok (a.after durable.ackedSequence) := by
  obtain ⟨state, found, carries⟩ := stands.present some_events
  unfold InMemoryStreamLog.replayForConsumer
  rw [stream_of_find? found]
  simp only [bind, Except.bind, carries.consumers, known]
  rw [replay, replayRecords_of_carries found carries]
  simp [EventLogState.after]

theorem Stands.pending (some_events : a.events ≠ [])
    {consumer} (known : (a.consumers.find? consumer).isSome) (created : Bool) (limit : Nat) : (do
      let runtime ← Task.memory
      let acked := (runtime.state.streams.consumer driver.coordinates consumer).bind
        DurableConsumer.ackedSequence
      let pending ← Task.ofExcept
        (runtime.state.streams.replayForConsumer driver.coordinates consumer)
      let records := (pending.take limit).map (projectRecord X)
      return ⟨"eventlog-tail", consumer, true, created, acked, pending.length, records.length,
        records⟩ : RuntimeTask O D EventLogTailOutcome).outcome () x.runtime x.file =
      some ((.ok (a.pending X consumer created limit), x.runtime), x.file) := by
  obtain ⟨durable, is⟩ := Option.isSome_iff_exists.1 known
  rw [Task.outcome_memory_bind, stands.replayForConsumer some_events is,
    stands.consumer some_events, Task.outcome_ok_bind]
  simp [EventLogState.pending, is, shown]

end

theorem committable_one {consumer mutation}
    (coords : validateStreamCoordinates driver.coordinates = .ok ())
    (good_consumer : validateIdentifier consumer = .ok ()) (id : validateIdentifier txId = .ok ())
    (checks : validateStreamMutation mutation =
      (do validateIdentifier eventLogStream; validateIdentifier consumer)) :
    Committable driver txId [mutation] where
  coords := coords
  id := id
  valid other mem := by
    rw [mem_singleton.1 mem, checks, validIdentifier_eventLogStream]
    exact good_consumer
  some_mutations := by simp

section

variable (stands : Stands G driver x a)

include stands

theorem Stands.createConsumer (some_events : a.events ≠ [])
    {consumer} (unknown : a.consumers.find? consumer = none)
    (coords : validateStreamCoordinates driver.coordinates = .ok ())
    (good_consumer : validateIdentifier consumer = .ok ())
    (id : validateIdentifier txId = .ok ()) (free : txId ∉ a.ids) :
    Answers G driver (driver.createConsumer G consumer txId) x (.ok true)
      (a.create consumer txId) := by
  obtain ⟨state, found, carries⟩ := stands.present some_events
  let state' := { state with consumers := a.consumers.insert consumer ⟨consumer, none⟩ }
  have carries' : Carries state' (a.create consumer txId) :=
    ⟨carries.config, carries.next, carries.records, rfl⟩
  have created : x.runtime.state.streams.createConsumer driver.coordinates consumer =
      .ok (x.runtime.state.streams.setStream driver.coordinates state') := by
    unfold InMemoryStreamLog.createConsumer InMemoryStreamLog.ensureConsumerAbsent
    rw [coords, good_consumer, stream_of_find? found]
    simp only [bind, Except.bind, carries.consumers, unknown]
    rfl
  have applies : AppliesTo driver txId [.createConsumer eventLogStream consumer]
      x.runtime.state.streams
      (.ok (x.runtime.state.streams.setStream driver.coordinates state')) := by
    intro O record tenant namespaceName _
    simp only [foldlM_cons, foldlM_nil, ReferenceDatabase.applyStream,
      coordinatesIn_driver tenant namespaceName, created]
    rfl
  obtain ⟨record, runtime, committed, opened, ids, is⟩ :=
    stands.commit_done (committable_one coords good_consumer id rfl) free applies
  refine ⟨_, _, ?_, stands_committed opened ids is (find?_setStream _ _ _) carries'
    stands.numbered some_events⟩
  unfold LocalReferenceEventLogDriver.createConsumer
  rw [Task.outcome_memory_bind, stands.consumer some_events, unknown]
  rw [id, Task.outcome_ok_bind]
  exact Task.outcome_bind_of_ok (outcome_of_commitOn committed)

/-- A tail answers as the abstract log does, and registers its consumer the first time. -/
theorem Stands.tail (X : TextEnv) (req : EventLogTailRequest)
    (txId : String) : Answers G driver (driver.tail X G req txId) x
      (a.tail X driver req txId).1 (a.tail X driver req txId).2 := by
  unfold Answers LocalReferenceEventLogDriver.tail EventLogState.tail
  rw [outcome_check_pair]
  cases checked : (do
    validateStreamCoordinates driver.coordinates; validateIdentifier req.consumer) with
  | error e => exact ⟨_, _, rfl, stands⟩
  | ok _ =>
    obtain ⟨_, coords, good_consumer⟩ := bind_eq_ok checked
    rw [Task.outcome_ok_bind, Task.outcome_memory_bind]
    by_cases none : a.events = []
    · obtain ⟨e, failed⟩ := stands.replayed_none none
      rw [failed, if_pos (by simp [none])]
      exact ⟨_, _, rfl, stands⟩
    · rw [stands.replayed none, if_neg (by simp [none])]
      cases known : a.consumers.find? req.consumer with
      | some durable =>
        have there : (a.consumers.find? req.consumer).isSome := by rw [known]; rfl
        refine ⟨_, _, ?_, stands⟩
        have created : (driver.createConsumer G req.consumer txId).outcome ()
            x.runtime x.file = some ((.ok false, x.runtime), x.file) := by
          unfold LocalReferenceEventLogDriver.createConsumer
          rw [Task.outcome_memory_bind, stands.consumer none, known]
          rfl
        refine (Task.outcome_bind_of_ok created).trans ?_
        simpa using stands.pending none there false req.limit
      | none =>
        cases id : validateIdentifier txId with
        | error e =>
          refine ⟨_, _, Task.outcome_bind_of_error ?_, stands⟩
          unfold LocalReferenceEventLogDriver.createConsumer
          rw [Task.outcome_memory_bind, stands.consumer none, known, id]
          rfl
        | ok _ =>
          by_cases taken : txId ∈ a.ids
          · rw [if_pos taken]
            refine ⟨_, _, Task.outcome_bind_of_error ?_, stands⟩
            unfold LocalReferenceEventLogDriver.createConsumer
            rw [Task.outcome_memory_bind, stands.consumer none, known]
            rw [id, Task.outcome_ok_bind]
            exact Task.outcome_bind_of_error
              (stands.commit_taken (committable_one coords good_consumer id rfl) taken)
          · rw [if_neg taken]
            obtain ⟨file, runtime, created, stands'⟩ :=
              stands.createConsumer none known coords good_consumer id taken
            have there : ((a.create req.consumer txId).consumers.find?
                req.consumer).isSome := by
              rw [EventLogState.create, OrderedMap.find?_insert, if_pos rfl]
              rfl
            refine ⟨file, runtime, (Task.outcome_bind_of_ok created).trans ?_, stands'⟩
            exact stands'.pending none there true req.limit

theorem Stands.applies_ack {consumer}
    (txId : String) (coords : validateStreamCoordinates driver.coordinates = .ok ())
    (good_consumer : validateIdentifier consumer = .ok ())
    (positive : validateSequence sequence = .ok ()) :
    ∃ after, AppliesTo driver txId [.ack eventLogStream consumer sequence]
        x.runtime.state.streams ((a.checkAck driver consumer sequence).map fun _ => after) ∧
      (a.checkAck driver consumer sequence = .ok () → a.events ≠ [] ∧ ∃ state,
        after.streams.find? driver.coordinates.key = some state ∧
        Carries state (a.acked consumer sequence txId)) := by
  by_cases none : a.events = []
  · refine ⟨x.runtime.state.streams, ?_, ?_⟩
    · intro O record tenant namespaceName _
      have missing := (stands.absent none).2
      have failed : a.checkAck driver consumer sequence = .error (.notFound
          s!"{driver.tenant}.{driver.namespaceName}.{eventLogStream}") := by
        rw [checkAck, if_pos (by simp [none])]
        rfl
      simp only [foldlM_cons, ReferenceDatabase.applyStream,
        coordinatesIn_driver tenant namespaceName, positive, InMemoryStreamLog.ack,
        InMemoryStreamLog.validateAck, InMemoryStreamLog.stream, coords, good_consumer, missing,
        failed, bind, Except.bind]
      rfl
    · intro passes
      rw [checkAck, if_pos (by simp [none])] at passes
      cases passes
  · obtain ⟨state, found, carries⟩ := stands.present none
    have not_zero : sequence ≠ 0 := by
      rintro rfl
      cases positive
    obtain ⟨state', acked, carries'⟩ := ack_carries txId coords
      good_consumer not_zero found carries stands.numbered none
    refine ⟨x.runtime.state.streams.setStream driver.coordinates state', ?_,
      fun _ => ⟨none, state', find?_setStream _ _ _, carries'⟩⟩
    intro O record tenant namespaceName _
    simp only [foldlM_cons, foldlM_nil, ReferenceDatabase.applyStream,
      coordinatesIn_driver tenant namespaceName, positive, acked]
    cases a.checkAck driver consumer sequence <;> rfl

/-- An acknowledgement answers as the abstract log does. -/
theorem Stands.ack (req : EventLogAckRequest)
    (txId : String) : Answers G driver (driver.ack G req txId) x
      (a.ack driver req txId).1 (a.ack driver req txId).2 := by
  unfold Answers LocalReferenceEventLogDriver.ack EventLogState.ack
  rw [outcome_check_pair, outcome_check_pair, outcome_check_pair]
  simp only [bind_assoc]
  cases checked : (do
    validateStreamCoordinates driver.coordinates
    validateIdentifier req.consumer
    validateIdentifier txId
    validateSequence req.sequence) with
  | error e => exact ⟨_, _, rfl, stands⟩
  | ok _ =>
    obtain ⟨_, coords, checked⟩ := bind_eq_ok checked
    obtain ⟨_, good_consumer, checked⟩ := bind_eq_ok checked
    obtain ⟨_, id, positive⟩ := bind_eq_ok checked
    rw [Task.outcome_ok_bind]
    have ready : Committable driver txId
        [.ack eventLogStream req.consumer req.sequence] :=
      committable_one coords good_consumer id rfl
    by_cases taken : txId ∈ a.ids
    · rw [if_pos taken]
      exact ⟨_, _, Task.outcome_bind_of_error (stands.commit_taken ready taken), stands⟩
    · rw [if_neg taken]
      obtain ⟨streams, applies, carries⟩ := stands.applies_ack txId coords good_consumer positive
      cases passes : a.checkAck driver req.consumer req.sequence with
      | error e =>
        rw [passes] at applies
        refine ⟨_, _, Task.outcome_bind_of_error (e := e) ?_, stands⟩
        rw [outcome_append, commitOn_commitOf ready applies, if_neg (stands.ids ▸ taken)]
        rfl
      | ok _ =>
        rw [passes] at applies
        obtain ⟨some_events, state, found, carries⟩ := carries passes
        obtain ⟨record, runtime, committed, opened, ids, is⟩ :=
          stands.commit_done ready taken applies
        exact ⟨_, _, Task.outcome_bind_of_ok (outcome_of_commitOn committed),
          stands_committed opened ids is found carries stands.numbered some_events⟩

end

end Refines

end Ehdb.Proof.Reference
