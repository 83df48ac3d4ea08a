import Ehdb.Proof.Reference.EventCalls

/-! A batch commits its events like appends that never look for a duplicate. It is the sequence of
its appends exactly when no key of it shows in a payload before it. -/

namespace Ehdb.Proof.Reference

open ProofKit Ehdb.Reference Transaction Ehdb.Stream Journal List
open EventLogState (add duplicate)
open LocalReferenceEventLogDriver (appendEach planBatch)

variable {O D : Type} {G : Engines O D} {X : TextEnv} {driver : LocalReferenceEventLogDriver}
  {x : Session O D} {a : EventLogState}

theorem fromUtf8Lossy_intoBytes (text : String) : fromUtf8Lossy X (intoBytes text) = text := by
  have back : (⟨(intoBytes text).toArray⟩ : ByteArray) = text.toByteArray := by
    simp [intoBytes]
  have valid : ByteArray.IsValidUTF8 ⟨(intoBytes text).toArray⟩ := back ▸ text.isValidUTF8
  unfold fromUtf8Lossy
  rw [dif_pos valid]
  exact String.toByteArray_inj.1 back

def EventLogState.texts (X : TextEnv) (a : EventLogState) : List String :=
  a.events.map fun record => fromUtf8Lossy X record.payload

theorem texts_add (subject payload txId : String) :
    (a.add subject (intoBytes payload) txId).texts X = a.texts X ++ [payload] := by
  simp [EventLogState.texts, add, fromUtf8Lossy_intoBytes]

def storedTexts (X : TextEnv) (driver : LocalReferenceEventLogDriver)
    (runtime : LocalReferenceRuntime O D) : List String :=
  match driver.replayed runtime with
  | .ok records => records.map fun record => fromUtf8Lossy X record.payload
  | .error _ => []

theorem Stands.storedTexts (stands : Stands G driver x a) :
    storedTexts X driver x.runtime = a.texts X := by
  unfold Reference.storedTexts EventLogState.texts
  by_cases none : a.events = []
  · obtain ⟨e, failed⟩ := stands.replayed_none none
    rw [failed, none]
    rfl
  · rw [stands.replayed none]

def freshKey (eventId : Option String) (payloads : List String) : Bool :=
  eventId.all fun key => !payloads.any (showsEventId key)

theorem duplicate_eq_none_iff (eventId : Option String) :
    a.duplicate X eventId = none ↔ freshKey eventId (a.texts X) = true := by
  cases eventId with
  | none => simp [duplicate, freshKey]
  | some key =>
    simp [duplicate, freshKey, existingSequenceForEventId, EventLogState.texts]

variable {creatingStream : Bool} {sequence : Nat} {req : IdempotentAppend}
  {requests : List IdempotentAppend} {transactions : List (CommitTransaction (Mutation O))}
  {outcomes : List EventLogAppendOutcome}

theorem planBatch_cons (coords : validateStreamCoordinates driver.coordinates = .ok ())
    (planned : planBatch driver creatingStream sequence (req :: requests) =
      .ok (transactions, outcomes)) :
    ∃ subject transactions' outcomes', checkAppend driver req = .ok subject ∧
      planBatch driver false (sequence + 1) requests = .ok (transactions', outcomes') ∧
      transactions = commitOf driver req.transactionId
        (eventMutations creatingStream subject (intoBytes req.payload) sequence) :: transactions' ∧
      outcomes = ⟨"eventlog-append", strTrim req.executionId, sequence,
        (intoBytes req.payload).length, creatingStream, sequence, false⟩ :: outcomes' := by
  obtain ⟨subject, is_subject, planned⟩ := bind_eq_ok planned
  obtain ⟨_, id, planned⟩ := bind_eq_ok planned
  obtain ⟨⟨transactions', outcomes'⟩, rest, planned⟩ := bind_eq_ok planned
  cases planned
  refine ⟨subject, transactions', outcomes', ?_, rest, rfl, rfl⟩
  unfold checkAppend
  rw [coords, is_subject, id]
  rfl

theorem planBatch_eq_ok (coords : validateStreamCoordinates driver.coordinates = .ok ())
    (planned : planBatch driver creatingStream sequence requests = .ok (transactions, outcomes)) :
    transactions.length = requests.length ∧
      outcomes.map EventLogAppendOutcome.globalSequence = range' sequence requests.length := by
  induction requests generalizing creatingStream sequence transactions outcomes with
  | nil =>
    cases planned
    exact ⟨rfl, rfl⟩
  | cons req requests ih =>
    obtain ⟨subject, transactions', outcomes', -, rest, rfl, rfl⟩ := planBatch_cons coords planned
    obtain ⟨length, sequences⟩ := ih rest
    refine ⟨by simp [length], ?_⟩
    rw [map_cons, sequences, length_cons, range'_succ]

variable {runtime : LocalReferenceRuntime O D}

def freshKeys : List String → List IdempotentAppend → Bool
  | _, [] => true
  | payloads, request :: requests =>
    freshKey request.eventId payloads && freshKeys (payloads ++ [request.payload]) requests

/-- The commits of a batch lead to a log of events, and to where its appends lead exactly when every
key is fresh. -/
theorem Stands.batch {records} (stands : Stands G driver x a)
    (coords : validateStreamCoordinates driver.coordinates = .ok ())
    (planned : planBatch driver a.events.isEmpty (a.events.length + 1) requests =
      .ok (transactions, outcomes))
    (committed : commitAll G x.runtime transactions = .ok (records, runtime)) :
    (∃ a', Stands G driver ⟨x.file ++ records, runtime⟩ a' ∧
        a'.texts X = a.texts X ++ requests.map (·.payload)) ∧
      ((driver.appendEach X G requests).outcome () x.runtime x.file =
          some ((.ok outcomes, runtime), x.file ++ records) ↔
        freshKeys (a.texts X) requests = true) := by
  induction requests generalizing x a transactions outcomes records with
  | nil =>
    cases planned
    cases committed
    rw [append_nil]
    exact ⟨⟨a, stands, by simp⟩, ⟨fun _ => rfl, fun _ => rfl⟩⟩
  | cons req requests ih =>
    obtain ⟨subject, transactions', outcomes', checked, rest, rfl, rfl⟩ :=
      planBatch_cons coords planned
    obtain ⟨⟨record, next⟩, first, committed⟩ := bind_eq_ok committed
    obtain ⟨⟨records', last⟩, others, committed⟩ := bind_eq_ok committed
    cases committed
    have stands' : Stands G driver ⟨x.file ++ [record], next⟩
        (a.add subject (intoBytes req.payload) req.transactionId) := by
      by_cases taken : req.transactionId ∈ a.ids
      · have failed := stands.event_taken checked taken
        cases (outcome_of_commitOn first).symm.trans failed
      · obtain ⟨record', runtime', committed', stands'⟩ := stands.event_added checked taken
        cases first.symm.trans committed'
        exact stands'
    have not_empty : (a.add subject (intoBytes req.payload)
        req.transactionId).events.isEmpty = false := by simp [add]
    have one_more : (a.add subject (intoBytes req.payload)
        req.transactionId).events.length = a.events.length + 1 := by simp [add]
    rw [← not_empty, ← one_more] at rest
    obtain ⟨⟨a', stands'', texts⟩, exact_tail⟩ := ih stands' rest others
    rw [texts_add] at exact_tail texts
    have split : x.file ++ record :: records' = x.file ++ [record] ++ records' := by simp
    rw [split]
    refine ⟨⟨a', stands'', by simp [texts]⟩, ?_⟩
    unfold appendEach freshKeys
    rw [Bool.and_eq_true, ← exact_tail, ← duplicate_eq_none_iff]
    cases known : a.duplicate X req.eventId with
    | none =>
      rw [Task.outcome_bind_of_ok (stands.outcome_append_event checked known first stands'),
        Task.outcome_map_eq_ok]
      constructor
      · rintro ⟨_, same, is⟩
        cases is
        exact ⟨rfl, same⟩
      · rintro ⟨-, same⟩
        exact ⟨_, same, rfl⟩
    | some sequence =>
      -- The append answers with the event that shows its key.
      obtain ⟨file, runtime', answered, -⟩ := stands.append X req
      have is : (a.append X driver req).1 = .ok ⟨"eventlog-append", strTrim req.executionId,
          sequence, (intoBytes req.payload).length, false, a.events.length, true⟩ := by
        unfold EventLogState.append
        rw [checked]
        rw [known]
      rw [is] at answered
      rw [Task.outcome_bind_of_ok answered, Task.outcome_map_eq_ok]
      constructor
      · rintro ⟨_, -, is⟩
        have same := congrArg (fun outcomes => outcomes.head?.map
          EventLogAppendOutcome.deduplicated) is
        simp at same
      · rintro ⟨none, -⟩
        cases none

theorem Stands.appendBatch (stands : Stands G driver x a) (X : TextEnv)
    (requests : List IdempotentAppend) :
    (∃ e, (driver.appendBatch G requests).outcome () x.runtime x.file =
        some ((.error e, x.runtime), x.file)) ∨
      ∃ outcomes file runtime a', (driver.appendBatch G requests).outcome () x.runtime x.file =
          some ((.ok outcomes, runtime), file) ∧ Stands G driver ⟨file, runtime⟩ a' ∧
        a'.texts X = a.texts X ++ requests.map (·.payload) ∧
        outcomes.map EventLogAppendOutcome.globalSequence =
          range' (a.events.length + 1) requests.length ∧
        ((driver.appendEach X G requests).outcome () x.runtime x.file =
            some ((.ok outcomes, runtime), file) ↔ freshKeys (a.texts X) requests = true) := by
  unfold LocalReferenceEventLogDriver.appendBatch
  by_cases none : requests = []
  · subst none
    exact .inr ⟨[], x.file, x.runtime, a, rfl, stands, by simp, rfl, fun _ => rfl, fun _ => rfl⟩
  rw [if_neg (by simpa using none)]
  cases coords : validateStreamCoordinates driver.coordinates with
  | error e => exact .inl ⟨e, rfl⟩
  | ok _ =>
    rw [Task.outcome_ok_bind, Task.outcome_memory_bind, stands.nextSequence]
    dsimp only
    cases planned : planBatch (O := O) driver a.events.isEmpty
        (a.events.length + 1) requests with
    | error e => exact .inl ⟨e, rfl⟩
    | ok plan =>
      obtain ⟨transactions, outcomes⟩ := plan
      obtain ⟨length, sequences⟩ := planBatch_eq_ok coords planned
      have some_transactions : transactions ≠ [] := by
        rintro rfl
        exact none (eq_nil_of_length_eq_zero length.symm)
      rw [Task.outcome_ok_bind]
      have done := outcome_appendBatch (G := G) x.runtime x.file some_transactions
      cases committed : commitBatchOn G x.runtime transactions with
      | error e =>
        rw [committed] at done
        exact .inl ⟨e, Task.outcome_bind_of_error done⟩
      | ok after =>
        obtain ⟨records, runtime⟩ := after
        rw [committed] at done
        obtain ⟨⟨a', stands', texts⟩, same⟩ :=
          stands.batch coords planned (commitAll_of_batch committed)
        exact .inr ⟨outcomes, _, _, a', Task.outcome_bind_of_ok done, stands', texts, sequences,
          same⟩

section Elsewhere

variable {streams streams' : InMemoryStreamLog} {coords : Coordinates} {record : LogRecord O}

theorem key_inj {coords'} (h : coords.key = coords'.key) : coords = coords' := by
  obtain ⟨tenant, namespaceName, stream⟩ := coords
  obtain ⟨tenant', namespaceName', stream'⟩ := coords'
  have first := congrArg (fun key => (ofLex key).1) h
  have second := congrArg (fun key => (ofLex (ofLex key).2).1) h
  have third := congrArg (fun key => (ofLex (ofLex key).2).2) h
  cases first
  cases second
  cases third
  rfl

theorem applyStream_sets {mutation}
    (h : ReferenceDatabase.applyStream streams record mutation = .ok streams') :
    ∃ state, streams' = streams.setStream (coordinatesIn record mutation.streamName) state := by
  cases mutation with
  | createStream stream retention =>
    obtain ⟨_, -, h⟩ := bind_eq_ok h
    obtain ⟨_, -, h⟩ := bind_eq_ok h
    cases h
    exact ⟨_, rfl⟩
  | createConsumer stream consumer =>
    obtain ⟨_, -, h⟩ := bind_eq_ok h
    obtain ⟨_, -, h⟩ := bind_eq_ok h
    obtain ⟨_, -, h⟩ := bind_eq_ok h
    obtain ⟨_, -, h⟩ := bind_eq_ok h
    cases h
    exact ⟨_, rfl⟩
  | publish stream subject payload sequence =>
    obtain ⟨⟨published, after⟩, inserted, h⟩ := bind_eq_ok h
    obtain ⟨-, h⟩ := unless_eq_ok h
    cases h
    obtain ⟨_, -, inserted⟩ := bind_eq_ok inserted
    obtain ⟨_, -, inserted⟩ := bind_eq_ok inserted
    obtain ⟨_, inserted, is⟩ := bind_eq_ok inserted
    cases is
    obtain ⟨_, -, inserted⟩ := bind_eq_ok inserted
    obtain ⟨_, -, inserted⟩ := bind_eq_ok inserted
    obtain ⟨-, inserted⟩ := unless_eq_ok inserted
    cases inserted
    exact ⟨_, rfl⟩
  | ack stream consumer sequence =>
    obtain ⟨_, -, h⟩ := bind_eq_ok h
    obtain ⟨_, -, h⟩ := bind_eq_ok h
    obtain ⟨_, -, h⟩ := bind_eq_ok h
    obtain ⟨_, -, h⟩ := bind_eq_ok h
    obtain ⟨_, -, h⟩ := bind_eq_ok h
    cases h
    exact ⟨_, rfl⟩

theorem applyRecord_elsewhere {db db' : ReferenceDatabase D}
    (elsewhere : ∀ mutation, Mutation.stream mutation ∈ record.mutations →
      coordinatesIn record mutation.streamName ≠ coords) (h : db.applyRecord G record = .ok db') :
    db'.streams.streams.find? coords.key = db.streams.streams.find? coords.key := by
  have all (mutations : List (Mutation O)) (among : ∀ m ∈ mutations, m ∈ record.mutations)
      (db : ReferenceDatabase D)
      (h : mutations.foldlM (ReferenceDatabase.applyMutation G record) db = .ok db') :
      db'.streams.streams.find? coords.key = db.streams.streams.find? coords.key := by
    induction mutations generalizing db with
    | nil =>
      cases h
      rfl
    | cons mutation mutations ih =>
      obtain ⟨next, first, h⟩ := bind_eq_ok h
      rw [ih (fun m mem => among m (.tail _ mem)) next h]
      cases mutation with
      | stream mutation =>
        obtain ⟨streams, applied, is⟩ := bind_eq_ok first
        cases is
        obtain ⟨state, rfl⟩ := applyStream_sets applied
        have other := elsewhere mutation (among _ mem_cons_self)
        exact (OrderedMap.find?_insert ..).trans (if_neg fun same => other (key_inj same.symm))
      | other mutation =>
        obtain ⟨rest, -, is⟩ := bind_eq_ok first
        cases is
        rfl
  exact all record.mutations (fun _ mem => mem) db h

end Elsewhere

variable {runtime : LocalReferenceRuntime O D}

/-- These engines, if each line that is written were read back. -/
def readingAll (G : Engines O D) : Engines O D := { G with unreadable := fun _ => none }

theorem readsBack_readingAll (mutations : List (Mutation O)) :
    ReadsBack (readingAll G) mutations := by
  intro mutation _
  cases mutation <;> rfl

theorem Stands.commitOn_elsewhere {req : CommitTransaction (Mutation O)} {record : LogRecord O}
    (stands : Stands (readingAll G) driver x a) (elsewhere : Elsewhere driver.coordinates req)
    (committed : commitOn G x.runtime req = .ok (record, runtime)) :
    ∃ a', Stands (readingAll G) driver ⟨x.file ++ [record], runtime⟩ a' := by
  obtain ⟨built, takes⟩ := commitOn_eq_ok committed
  obtain ⟨-, -, is⟩ := buildRecord_eq_ok built
  have elsewhere : ∀ mutation, Mutation.stream mutation ∈ record.mutations →
      coordinatesIn record mutation.streamName ≠ driver.coordinates := by
    rw [is]
    exact elsewhere
  have same : runtime.state.streams.streams.find? driver.coordinates.key =
      x.runtime.state.streams.streams.find? driver.coordinates.key :=
    applyRecord_elsewhere elsewhere takes.state
  obtain ⟨-, -, -, log⟩ := insertRecord_eq_ok_iff.1 takes.log
  refine ⟨⟨a.events, a.consumers, req.transactionId :: a.ids⟩,
    openRuntime_takes stands.opened ⟨takes.log, takes.state⟩ (readsBack_readingAll _), ?_,
    stands.numbered, fun none => ?_, fun others => ?_⟩
  · rw [log, ← stands.ids, is]
  · exact ⟨(stands.absent none).1, same.trans (stands.absent none).2⟩
  · obtain ⟨state, found, carries⟩ := stands.present others
    exact ⟨state, same.trans found, carries.config, carries.next, carries.records,
      carries.consumers⟩

theorem Stands.commitAll_elsewhere {requests records} (stands : Stands (readingAll G) driver x a)
    (elsewhere : ∀ req ∈ requests, Elsewhere driver.coordinates req)
    (committed : commitAll G x.runtime requests = .ok (records, runtime)) :
    ∃ a', Stands (readingAll G) driver ⟨x.file ++ records, runtime⟩ a' := by
  induction requests generalizing x a records with
  | nil =>
    cases committed
    exact ⟨a, by rwa [append_nil]⟩
  | cons req requests ih =>
    obtain ⟨⟨record, next⟩, first, committed⟩ := bind_eq_ok committed
    obtain ⟨⟨records', last⟩, others, committed⟩ := bind_eq_ok committed
    cases committed
    obtain ⟨a', stands'⟩ := stands.commitOn_elsewhere (elsewhere req mem_cons_self) first
    have split : x.file ++ record :: records' = x.file ++ [record] ++ records' := by simp
    rw [split]
    exact ih stands' (fun other mem => elsewhere other (.tail _ mem)) others

variable {α : Type} {task : RuntimeTask O D α} {result : Result α}

theorem call_of_outcome {file}
    (h : task.outcome () x.runtime x.file = some ((result, runtime), file)) :
    x.call task = (result, ⟨file, runtime⟩) := by
  unfold Session.call
  rw [show (task.exec x.runtime).eval () x.file = _ from h]

variable {x' : Session O D}

variable {a' : EventLogState}

theorem Answers.call (answers : Answers G driver task x result a') :
    (x.call task).1 = result ∧ Stands G driver (x.call task).2 a' := by
  obtain ⟨file, runtime, done, stands⟩ := answers
  rw [call_of_outcome done]
  exact ⟨rfl, stands⟩

theorem Answers.map {β} (answers : Answers G driver task x result a') (g : α → β) :
    Answers G driver (task >>= fun b => pure (g b)) x (result.map g) a' := by
  obtain ⟨file, runtime, done, stands⟩ := answers
  refine ⟨file, runtime, ?_, stands⟩
  rw [Task.outcome_map, done]
  rfl

def writtenBy : DriverCall → Result DriverAnswer → List (IdempotentAppend × Nat)
  | .append request, .ok (.appended outcome) =>
    if outcome.deduplicated then [] else [(request, outcome.globalSequence)]
  | .appendBatch requests, .ok (.batched outcomes) =>
    requests.zip (outcomes.map EventLogAppendOutcome.globalSequence)
  | _, _ => []

def EventLogState.entries (X : TextEnv) (a : EventLogState) : List (String × Nat) :=
  a.events.map fun record => (fromUtf8Lossy X record.payload, record.sequence)

def IsWritten (X : TextEnv) (written : List (IdempotentAppend × Nat)) (a : EventLogState) : Prop :=
  written.map (fun entry => (entry.1.payload, entry.2)) = a.entries X

theorem Stands.entries (stands : Stands G driver x a) :
    a.entries X = (a.texts X).zip (range' 1 a.events.length) := by
  rw [← stands.numbered]
  simp [EventLogState.entries, EventLogState.texts, zip_map']

theorem entries_append (req : IdempotentAppend) :
    (a.append X driver req).2.entries X = a.entries X ++
      (writtenBy (.append req) ((a.append X driver req).1.map .appended)).map
        fun entry => (entry.1.payload, entry.2) := by
  unfold EventLogState.append
  cases checkAppend driver req with
  | error e => exact (append_nil _).symm
  | ok subject =>
    cases a.duplicate X req.eventId with
    | some sequence => exact (append_nil _).symm
    | none =>
      dsimp only
      split
      · exact (append_nil _).symm
      · simp [EventLogState.entries, add, fromUtf8Lossy_intoBytes]
        rfl

theorem events_tail (req : EventLogTailRequest) (txId : String) :
    (a.tail X driver req txId).2.events = a.events := by
  unfold EventLogState.tail
  split
  · rfl
  · split
    · rfl
    · split
      · rfl
      · split
        · rfl
        · split <;> rfl

theorem events_ack (req : EventLogAckRequest) (txId : String) :
    (a.ack driver req txId).2.events = a.events := by
  unfold EventLogState.ack
  split
  · rfl
  · split
    · rfl
    · split <;> rfl

theorem Stands.call (stands : Stands G driver x a) (X : TextEnv) (call : DriverCall) :
    ∃ a', Stands G driver (x.call (driverTask X G driver call)).2 a' ∧ a'.entries X = a.entries X ++
        (writtenBy call (x.call (driverTask X G driver call)).1).map
          fun entry => (entry.1.payload, entry.2) := by
  cases call with
  | append req =>
    obtain ⟨answer, stands'⟩ := ((stands.append X req).map DriverAnswer.appended).call
    exact ⟨_, stands', by rw [entries_append, ← answer]; rfl⟩
  | appendBatch requests =>
    rcases stands.appendBatch X requests with ⟨e, failed⟩ | ⟨outcomes, file, runtime, a', done,
      stands', texts, sequences, -⟩
    · have failed : x.call (driverTask X G driver (.appendBatch requests)) = (.error e, x) := by
        refine call_of_outcome ((Task.outcome_map _ _).trans ?_)
        rw [failed]
        rfl
      rw [failed]
      exact ⟨a, stands, (append_nil _).symm⟩
    · have done : x.call (driverTask X G driver (.appendBatch requests)) =
          (.ok (.batched outcomes), ⟨file, runtime⟩) := by
        refine call_of_outcome ((Task.outcome_map _ _).trans ?_)
        rw [done]
        rfl
      rw [done]
      have lengths : a'.events.length = a.events.length + requests.length := by
        simpa [EventLogState.texts] using congrArg length texts
      have zipped : (requests.zip (range' (a.events.length + 1) requests.length)).map
          (fun entry => (entry.1.payload, entry.2)) =
            (requests.map (·.payload)).zip (range' (a.events.length + 1) requests.length) := by
        rw [zip_map_left]
        rfl
      refine ⟨a', stands', ?_⟩
      rw [stands.entries, stands'.entries, texts, lengths, writtenBy, sequences, zipped,
        ← zip_append (by simp [EventLogState.texts]), Nat.add_comm a.events.length 1,
        range'_append_1]
  | scan req =>
    obtain ⟨answer, stands'⟩ := ((stands.scan X req).map DriverAnswer.scanned).call
    exact ⟨a, stands', by simp [writtenBy]⟩
  | readExecution req =>
    obtain ⟨answer, stands'⟩ := ((stands.readExecution X req).map DriverAnswer.read).call
    exact ⟨a, stands', by simp [writtenBy]⟩
  | tail req txId =>
    obtain ⟨answer, stands'⟩ := ((stands.tail X req txId).map DriverAnswer.tailed).call
    exact ⟨_, stands', by simp [writtenBy, EventLogState.entries, events_tail]⟩
  | ack req txId =>
    obtain ⟨answer, stands'⟩ := ((stands.ack req txId).map DriverAnswer.acked).call
    exact ⟨_, stands', by simp [writtenBy, EventLogState.entries, events_ack]⟩

theorem driverTask_readingAll (call : DriverCall) :
    driverTask X (readingAll G) driver call = driverTask X G driver call := by
  cases call <;> rfl

theorem appendEach_readingAll (requests : List IdempotentAppend) :
    driver.appendEach X (readingAll G) requests = driver.appendEach X G requests := by
  induction requests with
  | nil => rfl
  | cons req requests ih =>
    unfold LocalReferenceEventLogDriver.appendEach
    rw [ih]
    rfl

/-- Lines of other engines that are not read back keep the file from being opened, and change
nothing in a runtime that stands. -/
theorem reached_stands (reached : EventLogReached X G driver x) :
    ∃ a, Stands (readingAll G) driver x a := by
  induction reached with
  | new => exact ⟨_, .new⟩
  | call call _ ih =>
    obtain ⟨a, stands⟩ := ih
    obtain ⟨a', stands', -⟩ := stands.call X call
    rw [driverTask_readingAll] at stands'
    exact ⟨a', stands'⟩
  | @reopen x _ _ reopened ih =>
    obtain ⟨a, stands⟩ := ih
    obtain ⟨runtime, opened, is⟩ := bind_eq_ok reopened
    have replays : Replays (readingAll G) x.file x.runtime := (openRuntime_iff.1 stands.opened).2
    rw [(openRuntime_iff.1 opened).2.unique ⟨replays.log, replays.state⟩] at is
    cases is
    exact ⟨a, stands⟩
  | @commit x req elsewhere _ ih =>
    obtain ⟨a, stands⟩ := ih
    rw [call_of_outcome (outcome_append x.runtime x.file req)]
    cases committed : commitOn G x.runtime req with
    | error e => exact ⟨a, stands⟩
    | ok after => exact stands.commitOn_elsewhere elsewhere committed
  | @commitBatch x requests elsewhere _ ih =>
    obtain ⟨a, stands⟩ := ih
    by_cases none : requests = []
    · subst none
      exact ⟨a, stands⟩
    · rw [call_of_outcome (outcome_appendBatch x.runtime x.file none)]
      cases committed : commitBatchOn G x.runtime requests with
      | error e => exact ⟨a, stands⟩
      | ok after => exact stands.commitAll_elsewhere elsewhere (commitAll_of_batch committed)

def writtenIn : List DriverDeed → List (Result (Option DriverAnswer)) →
    List (IdempotentAppend × Nat)
  | .call call :: deeds, .ok (some answer) :: answers =>
    writtenBy call (.ok answer) ++ writtenIn deeds answers
  | _ :: deeds, _ :: answers => writtenIn deeds answers
  | _, _ => []

theorem writtenIn_call (call : DriverCall) (deeds : List DriverDeed) (answer : Result DriverAnswer)
    (answers : List (Result (Option DriverAnswer))) :
    writtenIn (.call call :: deeds) (answer.map some :: answers) =
      writtenBy call answer ++ writtenIn deeds answers := by
  cases answer with
  | ok answer => rfl
  | error e => cases call <;> rfl

variable {written : List (IdempotentAppend × Nat)}

theorem run_written (deeds : List DriverDeed) (stands : Stands G driver x a)
    (is_written : IsWritten X written a) :
    ∃ a', Stands G driver (runDriver X G driver deeds x).2 a' ∧
      IsWritten X (written ++ writtenIn deeds (runDriver X G driver deeds x).1) a' := by
  induction deeds generalizing x a written with
  | nil => exact ⟨a, stands, by simpa [writtenIn] using is_written⟩
  | cons deed deeds ih =>
    cases deed with
    | call call =>
      obtain ⟨a', stands', entries⟩ := stands.call X call
      have is_written' : IsWritten X (written ++
          writtenBy call (x.call (driverTask X G driver call)).1) a' := by
        rw [IsWritten, map_append, is_written, entries]
      obtain ⟨a'', stands'', is_written''⟩ := ih stands' is_written'
      refine ⟨a'', stands'', ?_⟩
      rw [append_assoc, ← writtenIn_call] at is_written''
      exact is_written''
    | reopen =>
      have same : runDriver X G driver (.reopen :: deeds) x =
          (.ok none :: (runDriver X G driver deeds x).1, (runDriver X G driver deeds x).2) := by
        conv_lhs => unfold runDriver
        rw [stands.reopen]
      rw [same]
      exact ih stands is_written

theorem duplicate_written (is_written : IsWritten X written a) (key : String) :
    a.duplicate X (some key) =
      (written.find? fun entry => showsEventId key entry.1.payload).map Prod.snd := by
  have found : existingSequenceForEventId X a.events key = (a.entries X).findSome? fun entry =>
      if showsEventId key entry.1 then some entry.2 else none := by
    rw [EventLogState.entries, findSome?_map]
    rfl
  show existingSequenceForEventId X a.events key = _
  rw [found, ← is_written, findSome?_map]
  clear is_written found
  induction written with
  | nil => rfl
  | cons entry written ih =>
    by_cases shows : showsEventId key entry.1.payload = true
    · simp [shows]
    · simpa [shows] using ih

theorem written_inj (stands : Stands G driver x a) (is_written : IsWritten X written a)
    {entry entry'} (mem : entry ∈ written) (mem' : entry' ∈ written)
    (same : entry.2 = entry'.2) : entry = entry' := by
  have sequences : written.map Prod.snd = range' 1 a.events.length := by
    have := congrArg (map Prod.snd) is_written
    rw [map_map, EventLogState.entries, map_map] at this
    rw [← stands.numbered]
    exact this
  have distinct : (written.map Prod.snd).Nodup := sequences ▸ nodup_range'
  exact inj_on_of_nodup_map distinct mem mem' same

end Ehdb.Proof.Reference
