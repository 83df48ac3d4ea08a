import Ehdb.Core.Journal
import Ehdb.ProofKit.OrderedMap
import Mathlib.Data.Prod.Lex
import Mathlib.Data.String.Basic

/-! `InMemoryStreamLog` holds streams of records with durable consumers; `LocalJsonlStreamLog` keeps
what was done to it in a journal. -/

namespace Ehdb.Stream

open Ehdb.Core ProofKit

/-- `validate_identifier`, the check of every identifier type. -/
def validateIdentifier (value : String) : Result Unit :=
  if !value.isEmpty && value.utf8ByteSize ≤ 128 &&
      value.toList.all fun ch => ch.isAlphanum || ch == '_' || ch == '-' then
    .ok ()
  else
    .error (.invalidIdentifier value)

/-- The text from the last occurrence of `separator` on is cut off, if there is one. -/
def rsplitOnce (value separator : String) : String :=
  match (value.splitOn separator).dropLast with
  | [] => value
  | parts => separator.intercalate parts

/-- `map_stream_journal_decode_error`, and `map_transaction_log_decode_error` with another name for
the log. -/
def mapDecodeError (log : String) (line : Nat) (message : String) : EhdbError :=
  if "invalid identifier: ".isPrefixOf message then
    .invalidIdentifier (rsplitOnce (message.drop 20).toString " at line ")
  else
    .storage s!"invalid {log} record at line {line}: {message}"

/-- `split('.')`, on characters. -/
def splitDots : List Char → List (List Char)
  | [] => [[]]
  | ch :: rest =>
    if ch = '.' then [] :: splitDots rest
    else
      match splitDots rest with
      | [] => [[ch]]
      | token :: tokens => (ch :: token) :: tokens

def subjectTokens (value : String) : List (List Char) := splitDots value.toList

def hasNonEmptySubjectTokens (value : String) : Bool :=
  (subjectTokens value).all (!·.isEmpty)

/-- `Subject::new`. -/
def validateSubject (value : String) : Result Unit :=
  if !value.isEmpty && value.utf8ByteSize ≤ 256 && hasNonEmptySubjectTokens value &&
      value.toList.all fun ch => ch.isAlphanum || ch == '.' || ch == '_' || ch == '-' then
    .ok ()
  else
    .error (.invalidIdentifier value)

/-- `StreamSequence::new`. -/
def validateSequence (value : Nat) : Result Unit :=
  if value = 0 then .error (.invalidState "stream sequence must be greater than zero") else .ok ()

/-- The wildcards of a filter: a token that has one is nothing else, and `>` is the last token. -/
def validFilterTokens : List (List Char) → Bool
  | [] => true
  | token :: rest =>
    (!token.contains '*' || token == ['*']) &&
      (!token.contains '>' || (token == ['>'] && rest.isEmpty)) && validFilterTokens rest

/-- `SubjectFilter::new`. -/
def validateSubjectFilter (value : String) : Result Unit :=
  if !value.isEmpty && value.utf8ByteSize ≤ 256 && hasNonEmptySubjectTokens value &&
      value.toList.all (fun ch =>
        ch.isAlphanum || ch == '.' || ch == '_' || ch == '-' || ch == '*' || ch == '>') &&
      validFilterTokens (subjectTokens value) then
    .ok ()
  else
    .error (.invalidIdentifier value)

/-- The loop of `SubjectFilter::matches`: the tokens of the filter and of the subject that are
left. -/
def matchesTokens : List (List Char) → List (List Char) → Bool
  | [], subject => subject.isEmpty
  | _ :: _, [] => false
  | token :: filter, own :: subject =>
    if token = ['>'] then filter.isEmpty
    else if token = ['*'] || token = own then matchesTokens filter subject
    else false

/-- `SubjectFilter::matches`. -/
def filterMatches (filter subject : String) : Bool :=
  matchesTokens (subjectTokens filter) (subjectTokens subject)

inductive RetentionPolicy where
  | keepAll
  | maxRecords (limit : Nat)
  deriving DecidableEq

abbrev StreamKey := String ×ₗ String ×ₗ String

def streamKey (tenant namespaceName stream : String) : StreamKey :=
  toLex (tenant, toLex (namespaceName, stream))

structure StreamConfig where
  tenant : String
  namespaceName : String
  name : String
  retention : RetentionPolicy
  deriving DecidableEq

variable (config : StreamConfig)

def StreamConfig.key : StreamKey :=
  streamKey config.tenant config.namespaceName config.name

structure StreamRecord where
  sequence : Nat
  subject : String
  payload : Bytes
  transactionId : String
  deriving DecidableEq

structure DurableConsumer where
  name : String
  ackedSequence : Option Nat
  deriving DecidableEq

structure Coordinates where
  tenant : String
  namespaceName : String
  stream : String
  deriving DecidableEq

variable (coords : Coordinates)

def Coordinates.key : StreamKey :=
  streamKey coords.tenant coords.namespaceName coords.stream

def validateStreamCoordinates : Result Unit := do
  validateIdentifier coords.tenant
  validateIdentifier coords.namespaceName
  validateIdentifier coords.stream

def validateStreamConfig : Result Unit := do
  validateStreamCoordinates ⟨config.tenant, config.namespaceName, config.name⟩
  if config.retention = .maxRecords 0 then
    throw (.invalidState "stream max-record retention must be greater than zero")

def validateStreamRecord (record : StreamRecord) : Result Unit := do
  validateSubject record.subject
  validateIdentifier record.transactionId

structure StreamState where
  config : StreamConfig
  nextSequence : Nat
  records : OrderedMap Nat StreamRecord
  consumers : OrderedMap String DurableConsumer

def StreamState.new : StreamState :=
  ⟨config, 1, .empty, .empty⟩

/-- The loop of `enforce_retention`; it goes round once for each record at most. -/
def dropOldest (limit : Nat) : Nat → OrderedMap Nat StreamRecord → OrderedMap Nat StreamRecord
  | 0, records => records
  | rounds + 1, records =>
    if limit < records.entries.length then
      match records.entries.head? with
      | some (sequence, _) => dropOldest limit rounds (records.erase sequence)
      | none => records
    else records

def StreamState.enforceRetention (state : StreamState) : StreamState :=
  match state.config.retention with
  | .keepAll => state
  | .maxRecords limit =>
    { state with records := dropOldest limit state.records.entries.length state.records }

structure InMemoryStreamLog where
  streams : OrderedMap StreamKey StreamState

namespace InMemoryStreamLog

def empty : InMemoryStreamLog := ⟨.empty⟩

variable (log : InMemoryStreamLog)

def stream (coords : Coordinates) : Result StreamState :=
  match log.streams.find? coords.key with
  | some state => .ok state
  | none => .error (.notFound s!"{coords.tenant}.{coords.namespaceName}.{coords.stream}")

def setStream (coords : Coordinates) (state : StreamState) : InMemoryStreamLog :=
  ⟨log.streams.insert coords.key state⟩

def ensureStreamAbsent (config : StreamConfig) : Result Unit :=
  match log.streams.find? config.key with
  | some _ => .error (.alreadyExists s!"{config.tenant}.{config.namespaceName}.{config.name}")
  | none => .ok ()

def createStream (config : StreamConfig) : Result InMemoryStreamLog := do
  validateStreamConfig config
  log.ensureStreamAbsent config
  return ⟨log.streams.insert config.key (.new config)⟩

def insertRecord (coords : Coordinates) (record : StreamRecord) : Result InMemoryStreamLog := do
  validateStreamRecord record
  let state ← log.stream coords
  if record.sequence ≠ state.nextSequence then
    throw (.invalidState s!"expected stream sequence {state.nextSequence}, got {record.sequence}")
  let state := { state with
    records := state.records.insert record.sequence record, nextSequence := state.nextSequence + 1 }
  return log.setStream coords state.enforceRetention

def publish (coords : Coordinates) (subject : String) (payload : Bytes)
    (transactionId : String) : Result (StreamRecord × InMemoryStreamLog) := do
  validateStreamCoordinates coords
  let state ← log.stream coords
  let record : StreamRecord := ⟨state.nextSequence, subject, payload, transactionId⟩
  let log ← log.insertRecord coords record
  return (record, log)

def replayRecords (coords : Coordinates) (after : Option Nat)
    (filter : Option String) : Result (List StreamRecord) := do
  let state ← log.stream coords
  return (state.records.entries.filter fun (sequence, record) =>
    after.all (· < sequence) && filter.all (filterMatches · record.subject)).map Prod.snd

def replay (coords : Coordinates) (after : Option Nat) : Result (List StreamRecord) :=
  log.replayRecords coords after none

def replayMatching (coords : Coordinates) (filter : String)
    (after : Option Nat) : Result (List StreamRecord) :=
  log.replayRecords coords after (some filter)

def replayForConsumer (coords : Coordinates) (consumer : String) : Result (List StreamRecord) := do
  let state ← log.stream coords
  match state.consumers.find? consumer with
  | none => throw (.notFound consumer)
  | some durable => log.replay coords durable.ackedSequence

def ensureConsumerAbsent (coords : Coordinates) (consumer : String) : Result Unit := do
  let state ← log.stream coords
  match state.consumers.find? consumer with
  | some _ => throw (.alreadyExists consumer)
  | none => return ()

def createConsumer (coords : Coordinates) (consumer : String) : Result InMemoryStreamLog := do
  validateStreamCoordinates coords
  validateIdentifier consumer
  log.ensureConsumerAbsent coords consumer
  let state ← log.stream coords
  return log.setStream coords
    { state with consumers := state.consumers.insert consumer ⟨consumer, none⟩ }

def validateAck (coords : Coordinates) (consumer : String)
    (sequence : Nat) : Result Unit := do
  let state ← log.stream coords
  if (state.records.find? sequence).isNone then
    throw (.notFound s!"stream sequence {sequence}")
  match state.consumers.find? consumer with
  | none => throw (.notFound consumer)
  | some known =>
    match known.ackedSequence with
    | some acked =>
      if sequence < acked then
        throw (.invalidState
          s!"cannot move consumer {consumer} cursor backwards from {acked} to {sequence}")
    | none => return ()

def ack (coords : Coordinates) (consumer : String) (sequence : Nat) : Result InMemoryStreamLog := do
  validateStreamCoordinates coords
  validateIdentifier consumer
  log.validateAck coords consumer sequence
  let state ← log.stream coords
  return log.setStream coords { state with
    consumers := state.consumers.adjust consumer ({ · with ackedSequence := some sequence }) }

/-- What `create_consumer` and `ack` answer: the consumer as the log has it then. -/
def consumer (coords : Coordinates) (consumer : String) : Option DurableConsumer := do
  let state ← log.streams.find? coords.key
  state.consumers.find? consumer

end InMemoryStreamLog

inductive StreamJournalEntry where
  | createStream (config : StreamConfig)
  | createConsumer (coords : Coordinates) (consumer : String)
  | publish (coords : Coordinates) (record : StreamRecord)
  | ack (coords : Coordinates) (consumer : String) (sequence : Nat)
  deriving DecidableEq

def applyJournalEntry (log : InMemoryStreamLog) : StreamJournalEntry → Result InMemoryStreamLog
  | .createStream config => log.createStream config
  | .createConsumer coords consumer => log.createConsumer coords consumer
  | .publish coords record => log.insertRecord coords record
  | .ack coords consumer sequence => log.ack coords consumer sequence

section Local

variable (codec : JsonCodec StreamJournalEntry)

/-- The journal of `LocalJsonlStreamLog`. -/
def streamJournal : JournalKind StreamJournalEntry InMemoryStreamLog where
  codec := codec
  decodeError := mapDecodeError "stream log"
  empty := .empty
  apply := applyJournalEntry

/-- The form of the calls of `LocalJsonlStreamLog`: one entry each. -/
def commitEntry {α : Type} (plan : InMemoryStreamLog → Result StreamJournalEntry)
    (answer : StreamJournalEntry → InMemoryStreamLog → α) : JournalAction InMemoryStreamLog α :=
  commit (streamJournal codec) plan (fun entry => [entry])
    (appendRecordToDisk (streamJournal codec)) answer

def planCreateStream (log : InMemoryStreamLog) : Result StreamJournalEntry := do
  validateStreamConfig config
  log.ensureStreamAbsent config
  return .createStream config

def planCreateConsumer (consumer : String) (log : InMemoryStreamLog) :
    Result StreamJournalEntry := do
  validateStreamCoordinates coords
  validateIdentifier consumer
  log.ensureConsumerAbsent coords consumer
  return .createConsumer coords consumer

def planPublish (subject : String) (payload : Bytes) (transactionId : String)
    (log : InMemoryStreamLog) : Result StreamJournalEntry := do
  validateStreamCoordinates coords
  let state ← log.stream coords
  let record : StreamRecord := ⟨state.nextSequence, subject, payload, transactionId⟩
  validateStreamRecord record
  return .publish coords record

def planAck (consumer : String) (sequence : Nat) (log : InMemoryStreamLog) :
    Result StreamJournalEntry := do
  validateStreamCoordinates coords
  validateIdentifier consumer
  log.validateAck coords consumer sequence
  return .ack coords consumer sequence

inductive StreamCall where
  | createStream (config : StreamConfig)
  | createConsumer (coords : Coordinates) (consumer : String)
  | publish (coords : Coordinates) (subject : String) (payload : Bytes) (transactionId : String)
  | ack (coords : Coordinates) (consumer : String) (sequence : Nat)
  deriving DecidableEq

def StreamCall.plan : StreamCall → InMemoryStreamLog → Result StreamJournalEntry
  | .createStream config => planCreateStream config
  | .createConsumer coords consumer => planCreateConsumer coords consumer
  | .publish coords subject payload transactionId =>
      planPublish coords subject payload transactionId
  | .ack coords consumer sequence => planAck coords consumer sequence

/-- What a call returns beside `Ok`. -/
inductive StreamAnswer where
  | done
  | consumer (state : Option DurableConsumer)
  | published (record : StreamRecord)
  deriving DecidableEq

def streamAnswer (entry : StreamJournalEntry) (log : InMemoryStreamLog) :
    StreamJournalEntry × StreamAnswer :=
  (entry, match entry with
    | .createStream _ => .done
    | .createConsumer coords consumer => .consumer (log.consumer coords consumer)
    | .publish _ record => .published record
    | .ack coords consumer _ => .consumer (log.consumer coords consumer))

/-- Calls on one open log. The answer comes with the entry that the call wrote. After a stop the
log is not used again. -/
def streamThread : Thread (JournalCell InMemoryStreamLog) WriteOutcome StreamCall
    (Result (StreamJournalEntry × StreamAnswer)) where
  program call := (commitEntry codec call.plan streamAnswer).run
  halt c := { c with stray := true }

end Local

end Ehdb.Stream
