import Ehdb.Reference.Operations
import Ehdb.Reference.Runtime

/-! `LocalReferenceEventLogDriver`: the platform event log as one stream of the reference database.
The sequence of an event is its sequence in the stream, and an execution is a subject. -/

namespace Ehdb.Reference

open ProofKit Transaction Ehdb.Stream
open DurableSegmentStore (validName)

def eventLogStream : String := "noetl_event_log"

def eventLogSubjectPrefix : String := "noetl.event.exec"

def intoBytes (text : String) : Bytes := text.toByteArray.data.toList

def isWhitespace (ch : Char) : Bool :=
  let code := ch.toNat
  (9 ≤ code && code ≤ 13) || (0x2000 ≤ code && code ≤ 0x200a) ||
    [0x20, 0x85, 0xa0, 0x1680, 0x2028, 0x2029, 0x202f, 0x205f, 0x3000].contains code

def strTrim (text : String) : String :=
  .ofList ((text.toList.dropWhile isWhitespace).reverse.dropWhile isWhitespace).reverse

structure TextEnv where
  /-- What `from_utf8_lossy` makes of bytes that are not UTF-8. -/
  repaired : Bytes → String

structure IdempotentAppend extends EventLogAppendRequest where
  eventId : Option String
  deriving DecidableEq

structure LocalReferenceEventLogDriver where
  tenant : String
  namespaceName : String
  deriving DecidableEq

def LocalReferenceEventLogDriver.coordinates (driver : LocalReferenceEventLogDriver) :
    Coordinates :=
  ⟨driver.tenant, driver.namespaceName, eventLogStream⟩

section

variable (X : TextEnv)

def fromUtf8Lossy (bytes : Bytes) : String :=
  if valid : ByteArray.IsValidUTF8 ⟨bytes.toArray⟩ then .ofByteArray ⟨bytes.toArray⟩ valid
  else X.repaired bytes

def containsText (hay needle : String) : Bool :=
  hay.toList.tails.any (needle.toList.isPrefixOf ·)

def executionSubject (executionId : String) : Result String := do
  let id := strTrim executionId
  if validName id then
    let subject := eventLogSubjectPrefix ++ "." ++ id
    validateSubject subject
    return subject
  else
    throw (.invalidIdentifier s!"event-log execution id: {executionId.quote}")

def executionFromSubject (subject : String) : String :=
  let head := (eventLogSubjectPrefix ++ ".").toList
  if head.isPrefixOf subject.toList then .ofList (subject.toList.drop head.length) else subject

def projectRecord (record : StreamRecord) : EventLogRecordView :=
  ⟨record.sequence, executionFromSubject record.subject, record.transactionId,
    record.payload.length, fromUtf8Lossy X record.payload⟩

def showsEventId (eventId : String) (payload : String) : Bool :=
  containsText payload ("\"event_id\":\"" ++ eventId ++ "\"") ||
    containsText payload ("\"event_id\":" ++ eventId)

def existingSequenceForEventId (records : List StreamRecord) (eventId : String) : Option Nat :=
  records.findSome? fun record =>
    if showsEventId eventId (fromUtf8Lossy X record.payload) then some record.sequence else none

/-- The record that an append with a key acknowledges, and the number of records. -/
def duplicateOf (replayed : Result (List StreamRecord)) (eventId : Option String) :
    Option (Nat × Nat) :=
  match eventId, replayed with
  | some key, .ok records =>
    (existingSequenceForEventId X records key).map fun sequence => (sequence, records.length)
  | _, _ => none

def nextSequence (replayed : Result (List StreamRecord)) : Bool × Nat :=
  match replayed with
  | .ok records => (false, records.length + 1)
  | .error _ => (true, 1)

variable {O D : Type} (G : Engines O D) (driver : LocalReferenceEventLogDriver)

def commitOf (transactionId : String) (mutations : List StreamMutation) :
    CommitTransaction (Mutation O) :=
  ⟨transactionId, driver.tenant, driver.namespaceName, mutations.map .stream⟩

def eventMutations (createdStream : Bool) (subject : String) (payload : Bytes) (sequence : Nat) :
    List StreamMutation :=
  (if createdStream then [.createStream eventLogStream .keepAll] else []) ++
    [.publish eventLogStream subject payload sequence]

namespace LocalReferenceEventLogDriver

def replayed (runtime : LocalReferenceRuntime O D) : Result (List StreamRecord) :=
  runtime.state.streams.replay driver.coordinates none

def recordCount (runtime : LocalReferenceRuntime O D) : Nat :=
  match driver.replayed runtime with
  | .ok records => records.length
  | .error _ => 0

def append (request : IdempotentAppend) : RuntimeTask O D EventLogAppendOutcome := do
  Task.ofExcept (validateStreamCoordinates driver.coordinates)
  let subject ← Task.ofExcept (executionSubject request.executionId)
  Task.ofExcept (validateIdentifier request.transactionId)
  let payload := intoBytes request.payload
  let runtime ← Task.memory
  match duplicateOf X (driver.replayed runtime) request.eventId with
  | some (sequence, count) =>
    return ⟨"eventlog-append", strTrim request.executionId, sequence, payload.length, false, count,
      true⟩
  | none =>
    let (createdStream, sequence) := nextSequence (driver.replayed runtime)
    let _ ← LocalReferenceRuntime.append G (commitOf driver request.transactionId
      (eventMutations createdStream subject payload sequence))
    let runtime ← Task.memory
    return ⟨"eventlog-append", strTrim request.executionId, sequence, payload.length, createdStream,
      driver.recordCount runtime, false⟩

/-- The loop of `append_batch`: the transactions and the outcomes. -/
def planBatch (creatingStream : Bool) : Nat → List IdempotentAppend →
      Result (List (CommitTransaction (Mutation O)) × List EventLogAppendOutcome)
  | _, [] => return ([], [])
  | sequence, request :: requests => do
    let subject ← executionSubject request.executionId
    validateIdentifier request.transactionId
    let payload := intoBytes request.payload
    let (transactions, outcomes) ← planBatch false (sequence + 1) requests
    return (commitOf driver request.transactionId
        (eventMutations creatingStream subject payload sequence) :: transactions,
      ⟨"eventlog-append", strTrim request.executionId, sequence, payload.length, creatingStream,
        sequence, false⟩ :: outcomes)

def appendBatch (requests : List IdempotentAppend) : RuntimeTask O D (List EventLogAppendOutcome) :=
  if requests.isEmpty then return []
  else do
    Task.ofExcept (validateStreamCoordinates driver.coordinates)
    let runtime ← Task.memory
    let (creatingStream, baseSequence) := nextSequence (driver.replayed runtime)
    let (transactions, outcomes) ←
      Task.ofExcept (planBatch driver creatingStream baseSequence requests)
    let _ ← LocalReferenceRuntime.appendBatch G transactions
    return outcomes

/-- The default of the trait for `append_batch`: the appends, until one fails. -/
def appendEach : List IdempotentAppend → RuntimeTask O D (List EventLogAppendOutcome)
  | [] => return []
  | request :: requests => do
    let outcome ← append X G driver request
    let outcomes ← appendEach requests
    return outcome :: outcomes

def validateAfter : Option Nat → Result Unit
  | some value => validateSequence value
  | none => .ok ()

def scanGlobal (request : EventLogScanRequest) : RuntimeTask O D EventLogScanOutcome := do
  Task.ofExcept (validateStreamCoordinates driver.coordinates)
  Task.ofExcept (validateAfter request.after)
  let runtime ← Task.memory
  match runtime.state.streams.replay driver.coordinates request.after with
  | .ok records =>
    let projected := (records.take request.limit).map (projectRecord X)
    return ⟨"eventlog-scan", true, records.length, projected.length, projected, 0⟩
  | .error _ => return ⟨"eventlog-scan", false, 0, 0, [], 0⟩

def readExecution (request : EventLogReadExecutionRequest) :
    RuntimeTask O D EventLogReadExecutionOutcome := do
  Task.ofExcept (validateStreamCoordinates driver.coordinates)
  let subject ← Task.ofExcept (executionSubject request.executionId)
  Task.ofExcept (validateSubjectFilter subject)
  Task.ofExcept (validateAfter request.after)
  let runtime ← Task.memory
  match runtime.state.streams.replayMatching driver.coordinates subject request.after with
  | .ok records =>
    let projected := (records.take request.limit).map (projectRecord X)
    return ⟨"eventlog-read-exec", strTrim request.executionId, true, records.length,
      projected.length, projected, 0⟩
  | .error _ => return ⟨"eventlog-read-exec", strTrim request.executionId, false, 0, 0, [], 0⟩

/-- Create the consumer on its first pull; answers whether it was created. -/
def createConsumer (consumer transactionId : String) : RuntimeTask O D Bool := do
  let runtime ← Task.memory
  match runtime.state.streams.consumer driver.coordinates consumer with
  | some _ => return false
  | none =>
    Task.ofExcept (validateIdentifier transactionId)
    let _ ← LocalReferenceRuntime.append G (commitOf driver transactionId
      [.createConsumer eventLogStream consumer])
    return true

def tail (request : EventLogTailRequest) (transactionId : String) :
    RuntimeTask O D EventLogTailOutcome := do
  Task.ofExcept (validateStreamCoordinates driver.coordinates)
  Task.ofExcept (validateIdentifier request.consumer)
  let runtime ← Task.memory
  match driver.replayed runtime with
  | .error _ => return ⟨"eventlog-tail", request.consumer, false, false, none, 0, 0, []⟩
  | .ok _ =>
    let created ← createConsumer G driver request.consumer transactionId
    let runtime ← Task.memory
    let acked := (runtime.state.streams.consumer driver.coordinates request.consumer).bind
      DurableConsumer.ackedSequence
    let pending ← Task.ofExcept
      (runtime.state.streams.replayForConsumer driver.coordinates request.consumer)
    let records := (pending.take request.limit).map (projectRecord X)
    return ⟨"eventlog-tail", request.consumer, true, created, acked, pending.length,
      records.length, records⟩

def ack (request : EventLogAckRequest) (transactionId : String) :
    RuntimeTask O D EventLogAckOutcome := do
  Task.ofExcept (validateStreamCoordinates driver.coordinates)
  Task.ofExcept (validateIdentifier request.consumer)
  Task.ofExcept (validateIdentifier transactionId)
  Task.ofExcept (validateSequence request.sequence)
  let _ ← LocalReferenceRuntime.append G (commitOf driver transactionId
    [.ack eventLogStream request.consumer request.sequence])
  return ⟨"eventlog-ack", request.consumer, request.sequence⟩

end LocalReferenceEventLogDriver

def StreamMutation.streamName : StreamMutation → String
  | .createStream stream _ | .createConsumer stream _ | .publish stream _ _ _ | .ack stream _ _ =>
    stream

/-- A commit that has no mutation of the stream with the coordinates. -/
def Elsewhere (coords : Coordinates) (request : CommitTransaction (Mutation O)) : Prop :=
  ∀ mutation, Mutation.stream mutation ∈ request.mutations →
    (⟨request.tenant, request.namespaceName, mutation.streamName⟩ : Coordinates) ≠ coords

inductive DriverCall where
  | append (request : IdempotentAppend)
  | appendBatch (requests : List IdempotentAppend)
  | scan (request : EventLogScanRequest)
  | readExecution (request : EventLogReadExecutionRequest)
  | tail (request : EventLogTailRequest) (transactionId : String)
  | ack (request : EventLogAckRequest) (transactionId : String)
  deriving DecidableEq

inductive DriverAnswer where
  | appended (outcome : EventLogAppendOutcome)
  | batched (outcomes : List EventLogAppendOutcome)
  | scanned (outcome : EventLogScanOutcome)
  | read (outcome : EventLogReadExecutionOutcome)
  | tailed (outcome : EventLogTailOutcome)
  | acked (outcome : EventLogAckOutcome)
  deriving DecidableEq

open LocalReferenceEventLogDriver

def driverTask : DriverCall → RuntimeTask O D DriverAnswer
  | .append request => return .appended (← append X G driver request)
  | .appendBatch requests => return .batched (← appendBatch G driver requests)
  | .scan request => return .scanned (← scanGlobal X driver request)
  | .readExecution request => return .read (← readExecution X driver request)
  | .tail request transactionId => return .tailed (← tail X G driver request transactionId)
  | .ack request transactionId => return .acked (← ack G driver request transactionId)

/-- A call of the driver, or a new start of the process that serves them. -/
inductive DriverDeed where
  | call (call : DriverCall)
  | reopen
  deriving DecidableEq

/-- The sessions of an event log: calls of the driver, new starts, and commits of others that leave
its stream alone. -/
inductive EventLogReached : Session O D → Prop
  | new : EventLogReached (.new G)
  | call {x : Session O D} (call : DriverCall) : EventLogReached x →
      EventLogReached (x.call (driverTask X G driver call)).2
  | reopen {x x' : Session O D} : EventLogReached x → x.reopen G = .ok x' → EventLogReached x'
  | commit {x : Session O D} (request : CommitTransaction (Mutation O)) :
      Elsewhere driver.coordinates request → EventLogReached x →
      EventLogReached (x.call (LocalReferenceRuntime.append G request)).2
  | commitBatch {x : Session O D} (requests : List (CommitTransaction (Mutation O))) :
      (∀ request ∈ requests, Elsewhere driver.coordinates request) → EventLogReached x →
      EventLogReached (x.call (LocalReferenceRuntime.appendBatch G requests)).2

/-- What a run answers, one entry for each deed, and what it leaves. A start that fails leaves the
session as it was. -/
def runDriver : List DriverDeed → Session O D → List (Result (Option DriverAnswer)) × Session O D
  | [], x => ([], x)
  | .call call :: deeds, x =>
    let (answer, x) := x.call (driverTask X G driver call)
    let (answers, x) := runDriver deeds x
    (answer.map some :: answers, x)
  | .reopen :: deeds, x =>
    match x.reopen G with
    | .ok x =>
      let (answers, x) := runDriver deeds x
      (.ok none :: answers, x)
    | .error e =>
      let (answers, x) := runDriver deeds x
      (.error e :: answers, x)

end

end Ehdb.Reference
