import Ehdb.L0.Engine

/-! The maintenance operations of an open engine. -/

namespace Ehdb.L0

open ProofKit

variable {R : Type}

/-- The loop of `read_across_replicas`: the first listed replica that answers. -/
def readAcrossReplicas (C : L0Config R) : List ReplicaLocation → Fallible R Bytes
  | [] => throw (.storage "no reachable replica")
  | loc :: rest => do
    if loc.replica ∈ C.replicas then
      match ← caught (getPart loc.replica loc.key) with
      | .ok bytes => return bytes
      | .error _ => readAcrossReplicas C rest
    else
      readAcrossReplicas C rest

/-- `read_across_replicas` with the given read of an object. -/
def readAcross (C : L0Config R) (w : World R) (read : Bytes → Option Bytes) :
    List ReplicaLocation → Result Bytes
  | [] => .error (.storage "no reachable replica")
  | loc :: rest =>
    if loc.replica ∈ C.replicas then
      match ((w.replicas loc.replica).parts.lookup loc.key).bind read with
      | some bytes => .ok bytes
      | none => readAcross C w read rest
    else
      readAcross C w read rest

/-- Read from the local file of a part if it is resident, else across its replicas. -/
def readPart (C : L0Config R) (w : World R) (read : Bytes → Option Bytes) (part : PartMeta) :
    Result Bytes :=
  match part.localPath with
  | some path =>
    match (w.disk.lookup path).bind read with
    | some bytes => .ok bytes
    | none => .error (.storage "no such file")
  | none => readAcross C w read part.replicas

variable (C : L0Config R)

def readWholePart (part : PartMeta) : Fallible R Bytes :=
  match part.localPath with
  | some path => readLocalFile path
  | none => readAcrossReplicas C part.replicas

def decodePart (D : Dataset R) (bytes : Bytes) : Result (List R) :=
  match iterFramesExact bytes 0 with
  | .error e => .error e
  | .ok frames => decodeRecords D frames

def World.swapMerged (sourceIds : List PartId) (row : PartMeta) (w : World R) : World R :=
  w.withManifest fun m =>
    { m with
      parts := (m.parts.filter fun p => p.partId ∉ sourceIds) ++ [row]
      version := m.version + 1 }

def planSources (m : Manifest) (plan : MergePlan) : List PartMeta :=
  plan.sourceIds.filterMap fun id => m.parts.find? fun p => p.partId = id

def buildMergedPart (partition : Nat) (records : List R) : Fallible R (SealedPart R × Bytes) :=
  match records, layoutMerged C.dataset C.granuleSize records with
  | [], _ => throw (.invalidState "build_merged_part: empty record set")
  | _, .error e => throw e
  | _, .ok (part, bytes) => do
    let row := part.toMeta C.platform C.dataset C.granuleSize partition .merged
    always (update fun w => w.writeFile (.mergeTmp row.partId) bytes)
    always (update fun w => w.renameFile (.mergeTmp row.partId) (.merged row.partId))
    return (⟨row, part.records⟩, bytes)

def mergeOnce (plan : MergePlan) : Fallible R Unit := do
  let sources ← always (observe fun w => planSources w.engine.manifest plan)
  if sources.length < 2 then
    return
  let records ← Prog.tryEach
    (fun records source => do
      let bytes ← readWholePart C source
      return records ++ (← ofResult (decodePart C.dataset bytes)))
    [] sources
  let records := sortByKey C.dataset.sortKey records
  always (update fun w => w.log (.merging records))
  let (sealed, bytes) ← buildMergedPart C plan.partition (compactSuperseded C.dataset records)
  let key := substrateKeyFor plan.partition sealed.row.partId
  let locations ← always (replicateBytes C key bytes)
  if locations.isEmpty then
    throw (.storage "merge: merged part failed to write to any replica")
  let view ← always (.lift fun _ w =>
    let w' := w.swapMerged plan.sourceIds { sealed.row with replicas := locations }
    some (w'.engine.manifest.durableView, w'))
  always (writeManifestToAll C view)

/-- At most `rounds` iterations of `run_pending_merges`. -/
def runPendingMerges (C : L0Config R) : Nat → Fallible R Unit
  | 0 => return
  | rounds + 1 => do
    match ← always (observe fun w => planNextMerge w.engine.manifest C.mergePolicy) with
    | none => return
    | some plan =>
      mergeOnce C plan
      runPendingMerges C rounds

/-- What a reclaim pass decides from: the keys and files the manifest refers to, and what it
covers. -/
structure ReclaimView where
  referencedObjects : List PartKey
  referencedLocals : List LocalPath
  coverage : Coverage

def ReclaimView.of (m : Manifest) : ReclaimView where
  referencedObjects := m.parts.flatMap fun p => p.replicas.map ReplicaLocation.key
  referencedLocals := m.parts.filterMap PartMeta.localPath
  coverage := .of m

def ReclaimView.dropsObject (view : ReclaimView) (key : PartKey) : Bool :=
  key ∉ view.referencedObjects && view.coverage.objectIsSuperseded key

def ReclaimView.dropsFile (view : ReclaimView) (path : LocalPath) : Bool :=
  path ∉ view.referencedLocals && view.coverage.localIsReclaimable path

def reclaimReplica (view : ReclaimView) (replica : ReplicaId) : Fallible R Unit := do
  let keys ← substrateRead replica fun w => .ok (w.replicas replica).parts.keys
  Prog.tryEach
    (fun _ key => substrateOp replica .deletePart (fun _ => .ok ())
      (World.deletePart replica key)) ()
    (keys.filter view.dropsObject)

def reclaimFiles (view : ReclaimView) : Action R Unit := do
  let files ← observe fun w => w.disk.keys.filter view.dropsFile
  Prog.foldEach (fun _ path => update fun w => w.removeFile path) () files

def reclaimOrphans : Fallible R Unit := do
  let view ← always (.lift fun _ w =>
    some (ReclaimView.of w.engine.manifest, w.log (.reclaimBegin (w.latestIsCurrent C))))
  let result ← caught do
    Prog.tryEach (fun _ replica => reclaimReplica view replica) () C.replicas
    always (reclaimFiles view)
  always (update fun w => w.log .reclaimEnd)
  ofResult result

def World.dropRetained (plan : RetentionPlan) (w : World R) : World R :=
  (w.withManifest fun m =>
    { m with
      parts := m.parts.filter fun p => p.partId ∉ plan.dropIds
      reclaimedThrough := max m.reclaimedThrough plan.reclaimedThrough
      version := m.version + 1 }).log .retained

def applyRetention (keepFromSequence : Nat) : Fallible R Unit := do
  let plan ← always (observe fun w => planRetention w.engine.manifest keepFromSequence)
  if plan.dropIds.isEmpty then
    return
  let view ← always (.lift fun _ w =>
    let w' := w.dropRetained plan
    some (w'.engine.manifest.durableView, w'))
  always (writeManifestToAll C view)
  reclaimOrphans C

def applyRetentionKeepLast (keepLastRecords : Nat) : Fallible R Unit := do
  let keepFrom ← always (observe fun w =>
    min (w.engine.manifest.maxSequence - keepLastRecords + 1) (2 ^ 64 - 1))
  applyRetention C keepFrom

structure TailBatch where
  key : TailKey
  bytes : Bytes
  deriving DecidableEq

def pendingTail (e : Engine R) (shard : Nat) : List R :=
  let cursor := (e.tailCursor.lookup shard).getD 0
  match e.writers.lookup shard with
  | none => []
  | some writer => writer.part.records.filter fun r => C.dataset.sortKey r > cursor

def encodeAll (D : Dataset R) : List R → Result Bytes
  | [] => .ok []
  | record :: rest => do return (← encodeRecord D record) ++ (← encodeAll D rest)

/-- The batch of a shard, or `none` if nothing is pending. -/
def tailBatch (e : Engine R) (shard : Nat) : Result (Option TailBatch) :=
  match pendingTail C e shard with
  | [] => .ok none
  | pending => do
    let bytes ← encodeAll C.dataset pending
    let keys := pending.map C.dataset.sortKey
    return some ⟨⟨shard, keys.foldl min (2 ^ 64 - 1), keys.foldl max 0⟩, bytes⟩

def prepareTailBatches (e : Engine R) : Result (List TailBatch) :=
  if C.tailReplication then do
    return (← (sortByKey id e.writers.keys).mapM (tailBatch C e)).reduceOption
  else
    .ok []

def uploadTailBatch (batch : TailBatch) : Action R Bool :=
  Prog.foldEach
    (fun taken replica => do
      match ← (substrateOp replica .putTail (fun _ => .ok ())
          (World.putTail replica batch.key batch.bytes)).run with
      | .ok _ => return true
      | .error _ => return taken)
    false C.replicas

def World.commitTail (batch : TailBatch) (w : World R) : World R :=
  w.withEngine fun e =>
    { e with tailCursor := e.tailCursor.insert batch.key.shard batch.key.hi }

def replicateTail : Fallible R Unit := do
  let batches ← ofResult (← always (observe fun w => prepareTailBatches C w.engine))
  always (Prog.foldEach
    (fun _ batch => do
      if ← uploadTailBatch C batch then update (World.commitTail batch))
    () batches)

/-- Per shard, the highest key covered by a run of durable parts
from the lowest on. -/
def contiguousDurableWatermarks (m : Manifest) : List (Nat × Nat) :=
  (sortByKey id (m.parts.map PartMeta.partition)).dedup.map fun shard =>
    let durable := (m.partsInPartition shard).takeWhile PartMeta.isDurable
    (shard, (durable.map PartMeta.maxSequence).foldl max 0)

/-- Whether a durable part already covers a tail object, going by its key. -/
def tailIsCovered (watermarks : List (Nat × Nat)) (key : TailKey) : Bool :=
  key.hi ≤ (watermarks.lookup key.shard).getD 0

def reclaimSupersededTailObjects (watermarks : List (Nat × Nat)) : Action R Unit :=
  Prog.foldEach
    (fun _ replica => do
      match ← (substrateRead replica fun w => .ok (w.replicas replica).tails.keys).run with
      | .error _ => return
      | .ok keys =>
        Prog.foldEach
          (fun _ key => do
            let _ ← (substrateOp replica .deleteTail (fun _ => .ok ())
              (World.deleteTail replica key)).run)
          () (keys.filter (tailIsCovered watermarks)))
    () C.replicas

end Ehdb.L0
