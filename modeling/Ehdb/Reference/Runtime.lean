import Ehdb.ProofKit.Memory
import Ehdb.Transaction.Log

/-! A transaction log and the database that its records build. The mutations of streams are
modelled; those of the other engines are left open. An append reaches the file as whole lines, so
the file is the list of the records that were written; which of them `serde_json` reads back is left
open for the mutations of the other engines. -/

namespace Ehdb.Reference

open ProofKit Transaction Ehdb.Stream

inductive StreamMutation where
  | createStream (stream : String) (retention : RetentionPolicy)
  | createConsumer (stream consumer : String)
  | publish (stream subject : String) (payload : Bytes) (sequence : Nat)
  | ack (stream consumer : String) (sequence : Nat)
  deriving DecidableEq

inductive Mutation (O : Type) where
  | stream (mutation : StreamMutation)
  | other (mutation : O)
  deriving DecidableEq

abbrev LogRecord (O : Type) := TransactionRecord (Mutation O)

/-- The engines beside the streams: what they hold, and what their mutations do to it. They read the
transaction id, the tenant and the namespace of a record, not its sequence. -/
structure Engines (O D : Type) where
  empty : D
  validate : O → Result Unit
  apply (transactionId tenant namespaceName : String) : O → D → Result D
  /-- What `serde_json` says of a line that it wrote for this mutation and does not read back, as
  one with a column type that is nested deeper than its recursion limit. -/
  unreadable : O → Option String

def validateStreamMutation : StreamMutation → Result Unit
  | .createStream stream _ => validateIdentifier stream
  | .createConsumer stream consumer => do
    validateIdentifier stream
    validateIdentifier consumer
  | .publish stream subject _ _ => do
    validateIdentifier stream
    validateSubject subject
  | .ack stream consumer _ => do
    validateIdentifier stream
    validateIdentifier consumer

structure ReferenceDatabase (D : Type) where
  streams : InMemoryStreamLog
  rest : D

section

variable {O D : Type} (G : Engines O D)

def validateMutation : Mutation O → Result Unit
  | .stream mutation => validateStreamMutation mutation
  | .other mutation => G.validate mutation

/-- Whether the line of a mutation is read back; those of streams are. -/
def unreadableMutation : Mutation O → Option String
  | .stream _ => none
  | .other mutation => G.unreadable mutation

/-- The coordinates of a stream of a record's tenant and namespace. -/
def coordinatesIn (record : LogRecord O) (stream : String) : Coordinates :=
  ⟨record.tenant, record.namespaceName, stream⟩

namespace ReferenceDatabase

def default : ReferenceDatabase D := ⟨.empty, G.empty⟩

def applyStream (streams : InMemoryStreamLog) (record : LogRecord O) :
    StreamMutation → Result InMemoryStreamLog
  | .createStream stream retention =>
    streams.createStream ⟨record.tenant, record.namespaceName, stream, retention⟩
  | .createConsumer stream consumer => streams.createConsumer (coordinatesIn record stream) consumer
  | .publish stream subject payload sequence => do
    let (published, streams) ←
      streams.publish (coordinatesIn record stream) subject payload record.transactionId
    if published.sequence ≠ sequence then
      throw (.invalidState
        s!"stream replay sequence mismatch: expected {sequence}, got {published.sequence}")
    return streams
  | .ack stream consumer sequence => do
    validateSequence sequence
    streams.ack (coordinatesIn record stream) consumer sequence

def applyMutation (record : LogRecord O) (db : ReferenceDatabase D) :
    Mutation O → Result (ReferenceDatabase D)
  | .stream mutation => do
    let streams ← applyStream db.streams record mutation
    return { db with streams := streams }
  | .other mutation => do
    let rest ← G.apply record.transactionId record.tenant record.namespaceName mutation db.rest
    return { db with rest := rest }

def applyRecord (db : ReferenceDatabase D) (record : LogRecord O) : Result (ReferenceDatabase D) :=
  record.mutations.foldlM (applyMutation G record) db

def applyRecords (db : ReferenceDatabase D) (records : List (LogRecord O)) :
    Result (ReferenceDatabase D) := records.foldlM (applyRecord G) db

end ReferenceDatabase

abbrev LogFile (O : Type) := List (LogRecord O)

structure LocalReferenceRuntime (O D : Type) where
  log : InMemoryTransactionLog (Mutation O)
  state : ReferenceDatabase D

abbrev RuntimeTask (O D α : Type) :=
  Task (LogFile O) Unit (LocalReferenceRuntime O D) EhdbError α

namespace LocalReferenceRuntime

def decodeLine (line : Nat) (record : LogRecord O) : Result (LogRecord O) :=
  match record.mutations.findSome? (unreadableMutation G) with
  | none => .ok record
  | some message => .error (mapDecodeError "transaction log" line message)

/-- `read_jsonl` on the lines from this one on. -/
def readLines : Nat → LogFile O → Result (List (LogRecord O))
  | _, [] => .ok []
  | line, written :: rest => do
    let record ← decodeLine G line written
    let records ← readLines (line + 1) rest
    return record :: records

def openLog (file : LogFile O) : Result (InMemoryTransactionLog (Mutation O)) := do
  let records ← readLines G 1 file
  records.foldlM (fun log record => log.insertRecord (validateMutation G) record) .empty

def openRuntime (file : LogFile O) : Result (LocalReferenceRuntime O D) := do
  let log ← openLog G file
  let state ← (ReferenceDatabase.default G).applyRecords G (log.replay none)
  return ⟨log, state⟩

def writeLines (records : List (LogRecord O)) : RuntimeTask O D Unit :=
  Task.file fun _ file => some (.ok (), file ++ records)

def insertRecords (records : List (LogRecord O)) : RuntimeTask O D Unit :=
  Task.each (fun record => do
    let runtime ← Task.memory
    let log ← Task.ofExcept (runtime.log.insertRecord (validateMutation G) record)
    Task.update fun runtime => { runtime with log := log }) records

/-- `LocalJsonlTransactionLog::append`. -/
def logAppend (request : CommitTransaction (Mutation O)) : RuntimeTask O D (LogRecord O) := do
  let runtime ← Task.memory
  let record ← Task.ofExcept (runtime.log.buildRecord (validateMutation G) request)
  writeLines [record]
  insertRecords G [record]
  return record

/-- `LocalJsonlTransactionLog::append_batch`. -/
def logAppendBatch (requests : List (CommitTransaction (Mutation O))) :
    RuntimeTask O D (List (LogRecord O)) :=
  if requests.isEmpty then return []
  else do
    let runtime ← Task.memory
    let records ← Task.ofExcept (runtime.log.buildBatch (validateMutation G) requests [] [])
    writeLines records
    insertRecords G records
    return records

/-- A request is previewed against the log and applied to a copy of the state. -/
def previewOn (log : InMemoryTransactionLog (Mutation O)) (state : ReferenceDatabase D)
    (request : CommitTransaction (Mutation O)) : Result (ReferenceDatabase D) := do
  let preview ← log.buildRecord (validateMutation G) request
  state.applyRecord G preview

def append (request : CommitTransaction (Mutation O)) : RuntimeTask O D (LogRecord O) := do
  let runtime ← Task.memory
  let nextState ← Task.ofExcept (previewOn G runtime.log runtime.state request)
  let record ← logAppend G request
  Task.update fun runtime => { runtime with state := nextState }
  return record

def appendBatch (requests : List (CommitTransaction (Mutation O))) :
    RuntimeTask O D (List (LogRecord O)) :=
  if requests.isEmpty then return []
  else do
    let runtime ← Task.memory
    let nextState ← Task.ofExcept (requests.foldlM (previewOn G runtime.log) runtime.state)
    let records ← logAppendBatch G requests
    Task.update fun runtime => { runtime with state := nextState }
    return records

end LocalReferenceRuntime

structure Session (O D : Type) where
  file : LogFile O
  runtime : LocalReferenceRuntime O D

/-- What a task does to the file and the runtime of a session. No action of it waits. -/
def Session.call {α : Type} (task : RuntimeTask O D α) (x : Session O D) : Result α × Session O D :=
  match (task.exec x.runtime).eval () x.file with
  | some ((result, runtime), file) => (result, ⟨file, runtime⟩)
  | none => (.error (.invalidState "blocked"), x)

def Session.reopen (x : Session O D) : Result (Session O D) := do
  let runtime ← LocalReferenceRuntime.openRuntime G x.file
  return ⟨x.file, runtime⟩

def Session.new : Session O D := ⟨[], ⟨.empty, .default G⟩⟩

end

end Ehdb.Reference
