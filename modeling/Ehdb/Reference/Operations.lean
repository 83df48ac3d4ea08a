import Ehdb.Reference.Store

/-! Append, scan, reads of one execution, and the tail and ack of a durable consumer. -/

namespace Ehdb.Reference.DurableSegmentStore

open ProofKit
open L0 (crc32 fromLeBytes slice frameMagic frameHeaderLen)

section

variable (E : StoreEnv)

def readExact (bytes : Bytes) (start len : Nat) : Result Bytes :=
  if start + len ≤ bytes.length then .ok (slice bytes start (start + len)) else .error ioError

/-- The frame at an offset of a segment, as `read_event` loads it. -/
def loadFrame (globalSequence : Nat) (bytes : Bytes) (offset : Nat) : Result SegmentFrame := do
  let header ← readExact bytes offset frameHeaderLen
  let magic := fromLeBytes (slice header 0 4)
  let bodyLen := fromLeBytes (slice header 4 8)
  let crc := fromLeBytes (slice header 8 12)
  if magic ≠ frameMagic then
    .error (.storage s!"durable event-log: bad frame magic reading sequence {globalSequence}")
  else
    let body ← readExact bytes (offset + frameHeaderLen) bodyLen
    if (crc32 body).toNat ≠ crc then
      .error (.storage s!"durable event-log: CRC mismatch reading sequence {globalSequence}")
    else
      match E.codec.fromSlice body with
      | .ok frame => .ok frame
      | .error err => .error (.storage s!"decode durable frame: {err}")

def recordView (globalSequence : Nat) (executionId transactionId payload : String) :
    EventLogRecordView :=
  ⟨globalSequence, executionId, transactionId, payload.utf8ByteSize, payload⟩

variable (s : DurableSegmentStore)

def wasReclaimed (globalSequence reclaimedThrough : Nat) : EhdbError :=
  .invalidState
    (s!"durable event-log: global sequence {globalSequence} was reclaimed by segment GC " ++
    s!"(retained from {reclaimedThrough + 1})")

def readEvent (d : Dir) (globalSequence : Nat) : Result EventLogRecordView :=
  if globalSequence ≤ s.reclaimedThrough then .error
    (wasReclaimed globalSequence s.reclaimedThrough)
  else
    match s.events[globalSequence - s.reclaimedThrough - 1]? with
    | none =>
      .error (.invalidState s!"durable event-log: no event at global sequence {globalSequence}")
    | some loc =>
      match d.segments.find? loc.segmentId with
      | none => .error ioError
      | some bytes => do
        match ← loadFrame E globalSequence bytes loc.offset with
        | .event seq executionId transactionId payload =>
          .ok (recordView seq executionId transactionId payload)
        | _ =>
          .error (.storage
            s!"durable event-log: sequence {globalSequence} indexed a non-event frame")

def sequencesAfter (after total : Nat) : List Nat := List.range' (after + 1) (total - after)

/-- The sequences that `scan_global` goes through. `after + 1` is a sum of `u64`: when the last one
is asked for, a release build starts at 0 (a debug build panics). Counts of events are below it. -/
def scannedSequences (after total : Nat) : List Nat :=
  if total ≤ after ∧ after + 1 = 2 ^ 64 then List.range' 0 (total + 1)
  else sequencesAfter after total

/-- Read the events at the first `limit` of some sequences. -/
def readUpTo (d : Dir) (limit : Nat) (sequences : List Nat) : Result (List EventLogRecordView) :=
  (sequences.take limit).mapM (readEvent E s d)

def validName (name : String) : Bool :=
  !name.isEmpty && name.toList.all fun c => c.isAlphanum || c == '_' || c == '-'

def validateExecutionId (executionId : String) : Result Unit :=
  if validName (E.trim executionId) then .ok ()
  else .error (.invalidIdentifier s!"event-log execution id: {executionId.quote}")

def validateConsumer (consumer : String) : Result Unit :=
  if validName (E.trim consumer) then .ok ()
  else .error (.invalidIdentifier s!"event-log consumer: {consumer.quote}")

def validateAppend (request : EventLogAppendRequest) : Result Unit := do
  validateExecutionId E request.executionId
  if (E.trim request.transactionId).isEmpty then
    .error (.invalidIdentifier s!"event-log transaction id: {request.transactionId.quote}")
  else .ok ()

/-- What `append` does to the memory once the frame is written. -/
def countEvent (loc : EventLoc) (executionId : String) (globalSequence : Nat)
    (s : DurableSegmentStore) : DurableSegmentStore :=
  let s := { s with eventCount := s.eventCount + 1 }
  if s.indexLoaded then s.pushEvent loc executionId globalSequence else s

def append (request : EventLogAppendRequest) : StoreTask EventLogAppendOutcome := do
  Task.ofExcept (validateAppend E request)
  let s ← Task.memory
  let executionId := E.trim request.executionId
  let globalSequence := s.eventCount + 1
  let loc ← writeFrame E (.event globalSequence executionId request.transactionId request.payload)
  Task.update (countEvent loc executionId globalSequence)
  persistCheckpoint E
  return ⟨"eventlog-append", executionId, globalSequence, request.payload.utf8ByteSize,
    s.eventCount = 0, s.eventCount + 1, false⟩

/-- The answer of `scan_global` from an index that is loaded. -/
def scanLoaded (d : Dir) (request : EventLogScanRequest) : Result EventLogScanOutcome :=
  if s.events.isEmpty then .ok ⟨"eventlog-scan", false, 0, 0, [], s.tornTailSkipped⟩
  else do
    let after := max (request.after.getD 0) s.reclaimedThrough
    let sequences := scannedSequences after s.eventCount
    let records ← readUpTo E s d request.limit sequences
    return ⟨"eventlog-scan", true, sequences.length, records.length, records, s.tornTailSkipped⟩

def scanGlobal (request : EventLogScanRequest) : StoreTask EventLogScanOutcome := do
  ensureIndexLoaded E
  let s ← Task.memory
  let d ← readDir
  Task.ofExcept (scanLoaded E s d request)

/-- The answer of `read_execution` from an index that is loaded. -/
def readExecutionLoaded (d : Dir)
    (request : EventLogReadExecutionRequest) : Result EventLogReadExecutionOutcome :=
  let executionId := E.trim request.executionId
  if s.events.isEmpty then
    .ok ⟨"eventlog-read-exec", executionId, false, 0, 0, [], s.tornTailSkipped⟩
  else do
    let after := request.after.getD 0
    let sequences := ((s.byExecution.find? executionId).getD []).filter (· > after)
    let records ← readUpTo E s d request.limit sequences
    return ⟨"eventlog-read-exec", executionId, true, sequences.length, records.length, records,
      s.tornTailSkipped⟩

def readExecution (request : EventLogReadExecutionRequest) :
    StoreTask EventLogReadExecutionOutcome := do
  Task.ofExcept (validateExecutionId E request.executionId)
  ensureIndexLoaded E
  let s ← Task.memory
  let d ← readDir
  Task.ofExcept (readExecutionLoaded E s d request)

def seeConsumer (consumer : String) (s : DurableSegmentStore) : DurableSegmentStore :=
  { s with consumersSeen := s.consumersSeen.insert consumer () }

/-- Create the consumer on its first pull; answers whether it was created. -/
def createConsumer (consumer : String) : StoreTask Bool := do
  let s ← Task.memory
  if (s.consumersSeen.find? consumer).isSome then pure false
  else
    let _ ← writeFrame E (.consumerCreate consumer)
    Task.update (seeConsumer consumer)
    persistCheckpoint E
    pure true

/-- The answer of `tail` for a consumer that is known. -/
def tailLoaded (d : Dir) (consumer : String) (created : Bool)
    (limit : Nat) : Result EventLogTailOutcome := do
  let acked := s.consumerAcks.find? consumer
  let sequences := sequencesAfter (max (acked.getD 0) s.reclaimedThrough) s.eventCount
  let records ← readUpTo E s d limit sequences
  return ⟨"eventlog-tail", consumer, true, created, acked, sequences.length, records.length,
    records⟩

def tail (request : EventLogTailRequest) : StoreTask EventLogTailOutcome := do
  Task.ofExcept (validateConsumer E request.consumer)
  ensureIndexLoaded E
  let consumer := E.trim request.consumer
  let s ← Task.memory
  if s.events.isEmpty then
    pure ⟨"eventlog-tail", consumer, false, false, none, 0, 0, []⟩
  else
    let created ← createConsumer E consumer
    let s ← Task.memory
    let d ← readDir
    Task.ofExcept (tailLoaded E s d consumer created request.limit)

def validateAck (request : EventLogAckRequest) : Result Unit := do
  validateConsumer E request.consumer
  if request.sequence = 0 then
    .error (.invalidState "durable event-log ack sequence must be >= 1")
  else if request.sequence > s.eventCount then
    .error (.invalidState
      s!"durable event-log ack sequence {request.sequence} exceeds log length {s.eventCount}")
  else .ok ()

def raiseCursor (consumer : String) (sequence : Nat) (s : DurableSegmentStore) :
    DurableSegmentStore :=
  { s with
    consumersSeen := s.consumersSeen.insert consumer ()
    consumerAcks := raise s.consumerAcks consumer sequence }

def ack (request : EventLogAckRequest) : StoreTask EventLogAckOutcome := do
  let s ← Task.memory
  Task.ofExcept (validateAck E s request)
  let consumer := E.trim request.consumer
  let _ ← writeFrame E (.ack consumer request.sequence)
  Task.update (raiseCursor consumer request.sequence)
  persistCheckpoint E
  return ⟨"eventlog-ack", consumer, request.sequence⟩

end

end Ehdb.Reference.DurableSegmentStore
