import Ehdb.L0.Bloom

/-! The compiled-in shape of a dataset, over which the engine is generic. The laws that a dataset
has to keep are collected in `Dataset.Lawful`. -/

namespace Ehdb.L0

/-- The dataset trait. `toVec` and `fromSlice` are `serde_json` at the record type. -/
structure Dataset (Record : Type) where
  name : String
  sortKey : Record → Nat
  partition : Record → Nat → Nat
  indexKey : Record → String
  readPartition : String → Nat → Nat
  dedupeKey : Record → Option String := fun _ => none
  supersedeKey : Record → Option String := fun _ => none
  assignSortKey : Record → Nat → Record := fun r _ => r
  stampCommitHlc : Record → Nat → Record := fun r _ => r
  toVec : Record → Bytes
  fromSlice : Bytes → Option Record

/-- The contract of a dataset: `serde_json` reads back what it wrote, sort keys are `u64`, a
record lives in one of the shards and a read of its index value looks there, and stamping the
commit clock changes neither the keys of a record nor its shard. -/
structure Dataset.Lawful {Record : Type} (D : Dataset Record) : Prop where
  fromSlice_toVec : ∀ r, D.fromSlice (D.toVec r) = some r
  sortKey_lt : ∀ r, D.sortKey r < 2 ^ 64
  partition_lt : ∀ r n, D.partition r n < max 1 n
  readPartition_indexKey : ∀ r n, D.readPartition (D.indexKey r) n = D.partition r n
  sortKey_stamp : ∀ r hlc, D.sortKey (D.stampCommitHlc r hlc) = D.sortKey r
  partition_stamp : ∀ r hlc n, D.partition (D.stampCommitHlc r hlc) n = D.partition r n
  partition_assign : ∀ r k n, D.partition (D.assignSortKey r k) n = D.partition r n

def shardForExecution (P : Platform) (executionId : String) (shardCount : Nat) : Nat :=
  if shardCount ≤ 1 then
    0
  else
    let trimmed := P.trim executionId
    match P.parseI64 trimmed with
    | some idBytes => (P.xxHash64 0 idBytes).toNat % shardCount
    | none => (P.xxHash64 0 (P.utf8 trimmed)).toNat % shardCount

structure EventRecord where
  globalSequence : Nat
  executionId : String
  transactionId : String
  payload : String
  eventId : Option String
  commitHlc : Option Nat
  deriving DecidableEq

variable {R : Type}

/-- A cursor over the records of one shard. -/
structure ChangeFeed where
  shard : Nat
  cursor : Nat
  deriving DecidableEq

def ChangeFeed.after (D : Dataset R) (feed : ChangeFeed) (batch : List R) : ChangeFeed :=
  match batch.getLast? with
  | some last => { feed with cursor := D.sortKey last }
  | none => feed

/-- What `read_partition_after_limited` answers on a shard with the records `log`, in ascending
key order. -/
def readAfterLimited (D : Dataset R) (log : List R) (afterSeq limit : Nat) : List R :=
  (log.filter fun r => afterSeq < D.sortKey r).take limit

end Ehdb.L0
