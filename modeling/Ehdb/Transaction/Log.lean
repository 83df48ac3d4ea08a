import Ehdb.Stream.Log

/-! `InMemoryTransactionLog` numbers transactions; `LocalJsonlTransactionLog` keeps them in a
journal. What a mutation says plays no part: the type of mutations and their check are left open. -/

namespace Ehdb.Transaction

open Ehdb.Core ProofKit Ehdb.Stream

structure TransactionRecord (M : Type) where
  sequence : Nat
  transactionId : String
  tenant : String
  namespaceName : String
  mutations : List M
  deriving DecidableEq

def TransactionRecord.after {M : Type} (record : TransactionRecord M) :
    Option (TransactionRecord M) → TransactionRecord M
  | some previous => { record with sequence := previous.sequence + 1 }
  | none => record

structure CommitTransaction (M : Type) where
  transactionId : String
  tenant : String
  namespaceName : String
  mutations : List M
  deriving DecidableEq

structure InMemoryTransactionLog (M : Type) where
  nextSequence : Option Nat
  records : OrderedMap Nat (TransactionRecord M)
  transactionIds : List String

def validateMutations {M : Type} (validateMutation : M → Result Unit) (mutations : List M) :
    Result Unit := mutations.forM validateMutation

def validateTransaction {M : Type} (validateMutation : M → Result Unit)
    (transactionId tenant namespaceName : String) (mutations : List M) : Result Unit := do
  validateIdentifier transactionId
  validateIdentifier tenant
  validateIdentifier namespaceName
  validateMutations validateMutation mutations
  if mutations.isEmpty then
    throw (.invalidState "transaction requires at least one mutation")

namespace InMemoryTransactionLog

variable {M : Type} (validateMutation : M → Result Unit)

def empty : InMemoryTransactionLog M := ⟨none, .empty, []⟩

variable (log : InMemoryTransactionLog M)

/-- `TransactionSequence::first` until a record was inserted. -/
def expectedSequence : Nat :=
  log.nextSequence.getD 1

def buildRecord (request : CommitTransaction M) : Result (TransactionRecord M) := do
  validateTransaction validateMutation request.transactionId request.tenant request.namespaceName
    request.mutations
  if request.transactionId ∈ log.transactionIds then
    throw (.alreadyExists request.transactionId)
  return ⟨log.expectedSequence, request.transactionId, request.tenant, request.namespaceName,
    request.mutations⟩

def insertRecord (record : TransactionRecord M) : Result (InMemoryTransactionLog M) := do
  validateTransaction validateMutation record.transactionId record.tenant record.namespaceName
    record.mutations
  if record.transactionId ∈ log.transactionIds then
    throw (.alreadyExists record.transactionId)
  if record.sequence ≠ log.expectedSequence then
    throw (.invalidState
      s!"expected transaction sequence {log.expectedSequence}, got {record.sequence}")
  return ⟨some (record.sequence + 1), log.records.insert record.sequence record,
    record.transactionId :: log.transactionIds⟩

def replay (after : Option Nat) : List (TransactionRecord M) :=
  (log.records.entries.filter fun (sequence, _) => after.all (· < sequence)).map Prod.snd

/-- The loop of `append_batch` that builds the records. -/
def buildBatch (log : InMemoryTransactionLog M) :
    List (CommitTransaction M) → List (TransactionRecord M) → List String →
      Result (List (TransactionRecord M))
  | [], records, _ => .ok records
  | request :: requests, records, batchIds => do
    let record ← log.buildRecord validateMutation request
    if record.transactionId ∈ batchIds then
      throw (.alreadyExists record.transactionId)
    log.buildBatch requests (records ++ [record.after records.getLast?])
      (record.transactionId :: batchIds)

end InMemoryTransactionLog

section Local

variable {M : Type} (validateMutation : M → Result Unit) (codec : JsonCodec (TransactionRecord M))

/-- The journal of `LocalJsonlTransactionLog`. -/
def transactionJournal : JournalKind (TransactionRecord M) (InMemoryTransactionLog M) where
  codec := codec
  decodeError := mapDecodeError "transaction log"
  empty := .empty
  apply log record := log.insertRecord validateMutation record

abbrev TransactionAction (M α : Type) := JournalAction (InMemoryTransactionLog M) α

def append (request : CommitTransaction M) : TransactionAction M (TransactionRecord M) :=
  commit (transactionJournal validateMutation codec)
    (fun log => log.buildRecord validateMutation request)
    (fun record => [record])
    (appendRecordToDisk (transactionJournal validateMutation codec))
    (fun record _ => record)

def appendBatch (requests : List (CommitTransaction M)) :
    TransactionAction M (List (TransactionRecord M)) :=
  if requests.isEmpty then
    return []
  else
    commit (transactionJournal validateMutation codec)
      (fun log => log.buildBatch validateMutation requests [] [])
      id
      (appendRecordsToDisk (transactionJournal validateMutation codec))
      (fun records _ => records)

inductive TransactionCall (M : Type) where
  | append (request : CommitTransaction M)
  | appendBatch (requests : List (CommitTransaction M))
  deriving DecidableEq

def transactionThread : Thread (JournalCell (InMemoryTransactionLog M)) WriteOutcome
    (TransactionCall M) (Result (List (TransactionRecord M))) where
  program
    | .append request => (do return [← append validateMutation codec request]).run
    | .appendBatch requests => (appendBatch validateMutation codec requests).run
  halt c := { c with stray := true }

end Local

end Ehdb.Transaction
