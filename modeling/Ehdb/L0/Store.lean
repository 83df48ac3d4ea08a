import Ehdb.L0.Part
import Mathlib.Data.List.AList

/-! Per shard, the sort keys of the most recent records by idempotency key. The window holds at most
`capacity` keys of a shard; `capacity = 0` switches it off. -/

namespace Ehdb.L0

inductive DedupeVerdict where
  | fresh
  | duplicate (sortKey : Nat)
  deriving DecidableEq

/-- `seen` maps an idempotency key to the sort key its record was appended at; `order` holds
the same keys, oldest first. -/
structure ShardWindow where
  seen : AList fun _ : String => Nat
  order : List String

structure DedupeIndex where
  capacity : Nat
  shards : AList fun _ : Nat => ShardWindow

namespace DedupeIndex

def withCapacity (capacity : Nat) : DedupeIndex := ⟨capacity, ∅⟩

def check (index : DedupeIndex) (shard : Nat) (key : String) : DedupeVerdict :=
  if index.capacity = 0 then
    .fresh
  else
    match (index.shards.lookup shard).bind fun w => w.seen.lookup key with
    | some seq => .duplicate seq
    | none => .fresh

/-- Forget the oldest keys until at most `capacity` are left; one round per key. -/
def evict (capacity : Nat) : Nat → ShardWindow → ShardWindow
  | 0, w => w
  | fuel + 1, w =>
    if w.order.length > capacity then
      match w.order with
      | [] => w
      | old :: rest => evict capacity fuel ⟨w.seen.erase old, rest⟩
    else
      w

def remember (index : DedupeIndex) (shard : Nat) (key : String) (sortKey : Nat) : DedupeIndex :=
  if index.capacity = 0 then
    index
  else
    let w := (index.shards.lookup shard).getD ⟨∅, []⟩
    let order := if (w.seen.lookup key).isNone then w.order ++ [key] else w.order
    let w := evict index.capacity order.length ⟨w.seen.insert key sortKey, order⟩
    { index with shards := index.shards.insert shard w }

end DedupeIndex

/-! The files of the local disk, the objects of each replica, and the state of the process in
memory. `World.trace` is a history, newest first, that no engine function reads. -/

variable {R : Type}

/-- The configuration of an engine, with the dataset it is generic over, its replica set and
the platform it runs on. -/
structure L0Config (R : Type) where
  platform : Platform
  dataset : Dataset R
  replicas : List ReplicaId
  shardCount : Nat
  granuleSize : Nat
  sealMaxBytes : Nat
  sealMaxRecords : Nat
  /-- Whether `seal_max_age` is set. -/
  sealMaxAge : Bool
  tailReplication : Bool
  dedupeCapacity : Nat
  /-- Whether `hlc_mode` stamps records. -/
  hlcStamps : Bool
  mergePolicy : MergePolicy
  manifestRetain : Nat

/-- The shards `0..shard_count.max(1)`. -/
def L0Config.shards (C : L0Config R) : List Nat :=
  List.range (max 1 C.shardCount)

/-- `tail/<dataset>/shard-<shard>/seq-<lo>-<hi>.eslog`. -/
structure TailKey where
  shard : Nat
  lo : Nat
  hi : Nat
  deriving DecidableEq

structure Substrate where
  parts : AList fun _ : PartKey => Bytes
  latest : Option Manifest
  versions : AList fun _ : Nat => Manifest
  tails : AList fun _ : TailKey => Bytes

def Substrate.empty : Substrate := ⟨∅, none, ∅, ∅⟩

abbrev Disk := AList fun _ : LocalPath => Bytes

/-- The active part of one shard. Its file is `LocalPath.active partition nextLocalId`;
`hasFile` says whether the writer holds an open handle to it. -/
structure PartWriter (R : Type) where
  partition : Nat
  freshIdFloor : Nat
  nextLocalId : Nat
  hasFile : Bool
  part : ActivePart R

def PartWriter.activePath (w : PartWriter R) : LocalPath :=
  .active w.partition w.nextLocalId

/-- `should_seal`; `aged` says whether the active part has reached `seal_max_age`. -/
def PartWriter.shouldSeal (C : L0Config R) (w : PartWriter R) (aged : Bool) : Bool :=
  !w.part.records.isEmpty &&
    (w.part.byteLen ≥ C.sealMaxBytes || w.part.records.length ≥ C.sealMaxRecords ||
      (C.sealMaxAge && aged))

inductive UploadSource where
  | localFile (path : LocalPath)
  | replica (replica : ReplicaId) (key : PartKey)
  deriving DecidableEq

structure UploadJob where
  substrateKey : PartKey
  source : UploadSource
  partId : PartId
  deriving DecidableEq

/-- The in-memory state of an open engine. `publishing` is the `published` mutex being held;
`queue` is the channel to the uploader thread. -/
structure Engine (R : Type) where
  manifest : Manifest
  published : Nat
  publishing : Bool
  writers : AList fun _ : Nat => PartWriter R
  globalSequence : Nat
  shardTailMax : AList fun _ : Nat => Nat
  tailCursor : AList fun _ : Nat => Nat
  dedupe : DedupeIndex
  queue : List UploadJob
  outstanding : Nat

def Engine.assemble (C : L0Config R) (manifest : Manifest) (globalSequence : Nat) : Engine R where
  manifest := manifest
  published := manifest.version
  publishing := false
  writers := ∅
  globalSequence := globalSequence
  shardTailMax := ∅
  tailCursor := ∅
  dedupe := .withCapacity C.dedupeCapacity
  queue := []
  outstanding := 0

inductive Request where
  | read
  | putPart
  | deletePart
  | putLatest
  | putVersion
  | deleteVersion
  | putTail
  | deleteTail
  deriving DecidableEq

/-- What happened, as far as the properties of a run speak about it. -/
inductive Event (R : Type) where
  /-- The frame of a record is in the active file and counted; from here `append_record` can
  only return `Ok`. -/
  | appended (record : R)
  /-- `append_record` returned the position of an earlier record with the same key. -/
  | deduplicated (record : R) (seq : Nat)
  /-- `append_writer_assigned` took `global_sequence + 1`. -/
  | minted (seq : Nat)
  | sealed (id : PartId)
  | fault (replica : ReplicaId) (request : Request)
  | unreached
  | coldStarted
  /-- A replica took a write-once put of a part, or already had its key. -/
  | offered (key : PartKey) (bytes : Bytes)
  /-- A merge read `records` from its sources, in key order. -/
  | merging (records : List R)
  | uploadBegin
  | uploadEnd
  /-- A reclaim pass starts; `current` says whether the newest published manifest has the
  durable parts of the one in memory. -/
  | reclaimBegin (current : Bool)
  | reclaimEnd
  | retained
  /-- The process stopped at the tip `globalSequence`, with `durableTip` the highest key of the
  newest published manifest; `lostDisk` says whether the local disk went with it. -/
  | stopped (globalSequence durableTip : Nat) (lostDisk : Bool)

structure World (R : Type) where
  disk : Disk
  replicas : ReplicaId → Substrate
  engine : Engine R
  trace : List (Event R)

namespace World

def log (w : World R) (e : Event R) : World R :=
  { w with trace := e :: w.trace }

def withEngine (w : World R) (f : Engine R → Engine R) : World R :=
  { w with engine := f w.engine }

def withManifest (w : World R) (f : Manifest → Manifest) : World R :=
  { w with engine := { w.engine with manifest := f w.engine.manifest } }

def withReplica (w : World R) (id : ReplicaId) (f : Substrate → Substrate) : World R :=
  { w with replicas := fun i => if i = id then f (w.replicas i) else w.replicas i }

def writeFile (w : World R) (path : LocalPath) (bytes : Bytes) : World R :=
  { w with disk := w.disk.insert path bytes }

def removeFile (w : World R) (path : LocalPath) : World R :=
  { w with disk := w.disk.erase path }

def renameFile (w : World R) (path target : LocalPath) : World R :=
  match w.disk.lookup path with
  | some bytes => { w with disk := (w.disk.erase path).insert target bytes }
  | none => w

@[simp] theorem log_disk (w : World R) (e : Event R) : (w.log e).disk = w.disk := rfl
@[simp] theorem log_replicas (w : World R) (e : Event R) : (w.log e).replicas = w.replicas := rfl
@[simp] theorem log_engine (w : World R) (e : Event R) : (w.log e).engine = w.engine := rfl
@[simp] theorem log_trace (w : World R) (e : Event R) : (w.log e).trace = e :: w.trace := rfl

section Updates

variable (w : World R) (f : Engine R → Engine R) (g : Manifest → Manifest)
  (id : ReplicaId) (k : Substrate → Substrate) (path target : LocalPath) (bytes : Bytes)

@[simp] theorem withEngine_engine : (w.withEngine f).engine = f w.engine := rfl
@[simp] theorem withManifest_engine :
    (w.withManifest g).engine = { w.engine with manifest := g w.engine.manifest } := rfl

theorem withReplica_replicas (r : ReplicaId) :
    (w.withReplica id k).replicas r = if r = id then k (w.replicas r) else w.replicas r := rfl

@[simp] theorem writeFile_disk : (w.writeFile path bytes).disk = w.disk.insert path bytes := rfl

@[simp] theorem renameFile_replicas : (w.renameFile path target).replicas = w.replicas := by
  unfold renameFile; split <;> rfl
@[simp] theorem renameFile_engine : (w.renameFile path target).engine = w.engine := by
  unfold renameFile; split <;> rfl
@[simp] theorem renameFile_trace : (w.renameFile path target).trace = w.trace := by
  unfold renameFile; split <;> rfl

end Updates

/-- The manifest with the highest version among the `LATEST` copies of `ids`; the first of
them when several have it. -/
def newestOf (replicas : ReplicaId → Substrate) : List ReplicaId → Option Manifest → Option Manifest
  | [], best => best
  | id :: rest, best =>
    match (replicas id).latest, best with
    | some m, some b => newestOf replicas rest (some (if m.version > b.version then m else b))
    | some m, none => newestOf replicas rest (some m)
    | none, best => newestOf replicas rest best

def newestLatest (C : L0Config R) (w : World R) : Option Manifest :=
  newestOf w.replicas C.replicas none

/-- Whether the newest published manifest lists exactly the durable parts of the manifest in
memory. -/
def latestIsCurrent (C : L0Config R) (w : World R) : Bool :=
  ((w.newestLatest C).map Manifest.parts).getD [] = w.engine.manifest.durableView.parts

end World

end Ehdb.L0
