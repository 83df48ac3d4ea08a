import Ehdb.L0.Maintain
import Ehdb.L0.Recovery

/-! A session is the caller's thread, the uploader thread and the state they share. A run
interleaves their actions in any order and may stop the process between any two of them. -/

namespace Ehdb.L0

open ProofKit

variable {R : Type}

/-- The operations of an engine. `hlc` and `aged` are what the clocks of the node say. -/
inductive Op (R : Type) where
  | openEngine (reach : ReplicaId → Reach)
  | coldLoad (reach : ReplicaId → Reach) (hlc : Nat → Nat) (aged : Bool)
  | append (hlc : Nat) (aged : Bool) (record : R)
  /-- Append the record a store builds from the next sequence, as `VectorStore::upsert` does. -/
  | appendNext (hlc : Nat) (aged : Bool) (make : Nat → R)
  | appendAssigned (hlc : Nat) (aged : Bool) (record : R)
  | sealAged (aged : Nat → Bool)
  | flush
  | backfill
  | merges (rounds : Nat)
  | reclaim
  | retain (keepFrom : Nat)
  | keepLast (records : Nat)
  | replicateTail
  | reclaimTail

def Op.starts : Op R → Bool
  | .openEngine _ => true
  | .coldLoad _ _ _ => true
  | _ => false

/-- Whether an operation can be called: a cold load is for a node with an empty disk. -/
def Op.ready (w : World R) : Op R → Bool
  | .coldLoad _ _ _ => w.disk.keys.isEmpty
  | _ => true

variable (C : L0Config R)

def Op.program : Op R → Fallible R Unit
  | .openEngine reach => openReplicated C reach
  | .coldLoad reach hlc aged => coldLoadReplicated C reach hlc aged
  | .append hlc aged record => do let _ ← appendRecord C hlc aged record
  | .appendNext hlc aged make => do
    let seq ← always (observe fun w => (w.engine.globalSequence + 1) % 2 ^ 64)
    let _ ← appendRecord C hlc aged (make seq)
  | .appendAssigned hlc aged record => do let _ ← appendWriterAssigned C hlc aged record
  | .sealAged aged => sealAgedParts C aged
  | .flush => flushAndWaitUploads C
  | .backfill => always (backfillUnderReplicated C)
  | .merges rounds => runPendingMerges C rounds
  | .reclaim => reclaimOrphans C
  | .retain keepFrom => applyRetention C keepFrom
  | .keepLast records => applyRetentionKeepLast C records
  | .replicateTail => Ehdb.L0.replicateTail C
  | .reclaimTail => do
    let watermarks ← always (observe fun w => contiguousDurableWatermarks w.engine.manifest)
    always (reclaimSupersededTailObjects C watermarks)

inductive Status where
  | down
  | opening
  | serving
  deriving DecidableEq

/-- A node: its state, whether an engine is open on it, what its caller's thread has still to
do, and what its uploader thread has still to do. -/
structure Session (R : Type) where
  world : World R
  status : Status
  main : Action R (Result Unit)
  up : Option (Action R Unit)

def Session.idle (s : Session R) : Bool :=
  match s.main with
  | .ret _ => true
  | .act _ _ => false

def World.initial : World R :=
  ⟨∅, fun _ => .empty, .assemble C .empty 0, []⟩

def Session.initial : Session R where
  world := .initial C
  status := .down
  main := .ret (.ok ())
  up := none

/-- One step of a run: a call on the idle engine, an action of either thread, or the end of the
process, with or without the loss of its local disk. -/
inductive Label (R : Type) where
  | call (op : Op R)
  | main (o : Outcome)
  | upload (o : Outcome)
  | stop (loseDisk : Bool)

def World.halt (loseDisk : Bool) (w : World R) : World R :=
  { w with
    disk := if loseDisk then ∅ else w.disk
    engine := .assemble C .empty 0
    trace := .stopped w.engine.globalSequence
      (((w.newestLatest C).map Manifest.maxSequence).getD 0) loseDisk :: w.trace }

def Session.halt (loseDisk : Bool) (s : Session R) : Session R where
  world := s.world.halt C loseDisk
  status := .down
  main := .ret (.ok ())
  up := none

/-- An engine that finished opening serves; one that failed to open is gone. -/
def Session.settle (s : Session R) : Session R :=
  match s.status, s.main with
  | .opening, .ret (.ok _) => { s with status := .serving }
  | .opening, .ret (.error _) => s.halt C false
  | _, _ => s

def Session.step (s : Session R) : Label R → Session R
  | .call op =>
    if s.idle && op.ready s.world then
      match op.starts, s.status with
      | true, .down => ({ s with status := .opening, main := (op.program C).run }).settle C
      | false, .serving => { s with main := (op.program C).run }
      | _, _ => s
    else
      s
  | .main o =>
    match s.main.step o s.world with
    | some (w, p) => ({ s with world := w, main := p }).settle C
    | none => s
  | .upload o =>
    match s.up with
    | some p =>
      match p.step o s.world with
      | some (w, .ret _) => { s with world := w, up := none }
      | some (w, .act f k) => { s with world := w, up := some (.act f k) }
      | none => s
    | none =>
      match s.world.engine.queue with
      | [] => s
      | job :: rest =>
        { s with
          world := (s.world.withEngine fun e => { e with queue := rest }).log .uploadBegin
          up := some (uploadJob C job) }
  | .stop loseDisk => s.halt C loseDisk

def Session.run (s : Session R) (schedule : List (Label R)) : Session R :=
  schedule.foldl (Session.step C) s

def runFrom (schedule : List (Label R)) : Session R :=
  (Session.initial C).run C schedule

structure Sample where
  key : UInt8
  second : Bool
  point : Bool
  deriving DecidableEq

def Sample.byteOf (b : Bool) : UInt8 := if b then 1 else 0

def sampleDataset (compacts : Bool) : Dataset Sample where
  name := "sample"
  sortKey r := r.key.toNat
  partition r shardCount := if r.second then 1 % max 1 shardCount else 0
  indexKey r := if r.second then "b" else "a"
  readPartition value shardCount := if value = "b" then 1 % max 1 shardCount else 0
  supersedeKey r := if compacts then some (if r.point then "q" else "p") else none
  assignSortKey r key := { r with key := UInt8.ofNat key }
  toVec r := [r.key, Sample.byteOf r.second, Sample.byteOf r.point]
  fromSlice
    | [key, second, point] => some ⟨key, second = 1, point = 1⟩
    | _ => none

theorem sampleDataset_lawful (compacts : Bool) : (sampleDataset compacts).Lawful where
  fromSlice_toVec r := by
    obtain ⟨key, second, point⟩ := r
    cases second <;> cases point <;> rfl
  sortKey_lt r := Nat.lt_trans r.key.toNat_lt (by decide)
  partition_lt r n := by
    obtain ⟨key, second, point⟩ := r
    cases second
    · exact Nat.lt_of_lt_of_le Nat.zero_lt_one (Nat.le_max_left _ _)
    · exact Nat.mod_lt _ (Nat.lt_of_lt_of_le Nat.zero_lt_one (Nat.le_max_left _ _))
  readPartition_indexKey r n := by
    obtain ⟨key, second, point⟩ := r
    cases second <;> rfl
  sortKey_stamp _ _ := rfl
  partition_stamp _ _ _ := rfl
  partition_assign _ _ _ := rfl

def samplePlatform : Platform where
  xxHash64 := fun seed bytes => bytes.foldl (fun h x => h * 31 + x.toUInt64) seed
  utf8 := fun s => s.toList.map fun c => UInt8.ofNat c.toNat
  trim := id
  parseI64 := fun _ => none
  optimalBits := fun n => (n * 9586 + 999) / 1000
  optimalProbes := fun m n => m * 7 / (n * 10)
  bloomScheme := .legacy

/-- An engine over the sample dataset that merges any two neighbouring parts. -/
def sampleConfig (compacts : Bool) (replicas : List ReplicaId) (shardCount sealMaxRecords : Nat) :
    L0Config Sample where
  platform := samplePlatform
  dataset := sampleDataset compacts
  replicas := replicas
  shardCount := shardCount
  granuleSize := 2
  sealMaxBytes := 1000000
  sealMaxRecords := sealMaxRecords
  sealMaxAge := false
  tailReplication := true
  dedupeCapacity := 0
  hlcStamps := false
  mergePolicy := ⟨10, 2, 8⟩
  manifestRetain := 0

def mainSteps (n : Nat) : List (Label Sample) := List.replicate n (.main .ok)

def uploadSteps (n : Nat) : List (Label Sample) := List.replicate n (.upload .ok)

def callSample (op : Op Sample) (n : Nat) : List (Label Sample) := .call op :: mainSteps n

end Ehdb.L0
