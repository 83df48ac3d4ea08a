import Ehdb.L0.Writer

/-! The operations of an open engine and the job loop of its uploader thread, as programs of atomic
actions. The names follow the methods of `L0Engine`. -/

namespace Ehdb.L0

open ProofKit List

variable {R : Type}

def World.registerAndUpload (sealed : SealedPart R) (w : World R) : World R :=
  let row := sealed.row
  match row.localPath with
  | none => w
  | some path =>
    let job : UploadJob := ⟨substrateKeyFor row.partition row.partId, .localFile path, row.partId⟩
    w.withEngine fun e =>
      { e with
        manifest := e.manifest.pushPart row
        outstanding := e.outstanding + 1
        queue := e.queue ++ [job] }

variable (C : L0Config R)

def sealAndRegister (shard : Nat) : Fallible R Unit := do
  match ← sealWriter C shard with
  | some sealed => always (update (World.registerAndUpload sealed))
  | none => return

def dedupeHit (e : Engine R) (record : R) : Option Nat :=
  match C.dataset.dedupeKey record with
  | none => none
  | some key =>
    match e.dedupe.check (C.dataset.partition record C.shardCount) key with
    | .duplicate seq => some seq
    | .fresh => none

/-- `append_record`. `hlc` is the reading of the commit clock and `aged` whether the age
trigger fires. A failed seal does not fail the append. -/
def appendRecord (hlc : Nat) (aged : Bool) (record : R) : Fallible R Nat := do
  match ← always (observe fun w => dedupeHit C w.engine record) with
  | some seq =>
    always (update fun w => w.log (.deduplicated record seq))
    return seq
  | none =>
    let record := if C.hlcStamps then C.dataset.stampCommitHlc record hlc else record
    let shard := C.dataset.partition record C.shardCount
    attempt (World.ensureWriter C shard)
    attempt (World.appendFrame C shard record)
    let full ← always (observe fun w =>
      ((w.engine.writers.lookup shard).map fun wr => wr.shouldSeal C aged).getD false)
    if full then
      let _ ← caught (sealAndRegister C shard)
    return C.dataset.sortKey record

def appendWriterAssigned (hlc : Nat) (aged : Bool) (record : R) : Fallible R Nat := do
  match ← always (observe fun w => dedupeHit C w.engine record) with
  | some seq =>
    always (update fun w => w.log (.deduplicated record seq))
    return seq
  | none =>
    let seq ← always (.lift fun _ w =>
      let seq := (w.engine.globalSequence + 1) % 2 ^ 64
      some (seq, w.log (.minted seq)))
    appendRecord C hlc aged (C.dataset.assignSortKey record seq)

def sealAgedParts (aged : Nat → Bool) : Fallible R Unit := do
  let shards ← always (observe fun w => w.engine.writers.keys.filter aged)
  Prog.tryEach (fun _ shard => sealAndRegister C shard) ()
    (if C.sealMaxAge then shards else [])

/-- Seal every active part, register them, and wait until no upload is
outstanding. -/
def flushAndWaitUploads : Fallible R Unit := do
  let shards ← always (observe fun w => w.engine.writers.keys)
  let sealed ← Prog.tryEach
    (fun sealed shard => do return sealed ++ (← sealWriter C shard).toList) [] shards
  always (Prog.foldEach (fun _ part => update (World.registerAndUpload part)) () sealed)
  always (.lift fun _ w => if w.engine.outstanding = 0 then some ((), w) else none)

/-- The job that brings a part to every replica, if it can be read from anywhere. -/
def backfillJob (part : PartMeta) : Option UploadJob :=
  let key := substrateKeyFor part.partition part.partId
  match part.localPath, part.replicas.head? with
  | some path, _ => some ⟨key, .localFile path, part.partId⟩
  | none, some loc => some ⟨key, .replica loc.replica loc.key, part.partId⟩
  | none, none => none

def World.backfill (w : World R) : World R :=
  let jobs := (w.engine.manifest.parts.filter fun p =>
    p.replicas.length < C.replicas.length).filterMap backfillJob
  w.withEngine fun e =>
    { e with outstanding := e.outstanding + jobs.length, queue := e.queue ++ jobs }

def backfillUnderReplicated : Action R Unit :=
  update fun w => if C.replicas.length < 2 then w else w.backfill C

def setReplicas (partId : PartId) (locations : List ReplicaLocation) : List PartMeta → List PartMeta
  | [] => []
  | p :: rest =>
    if p.partId = partId then { p with replicas := locations } :: rest
    else p :: setReplicas partId locations rest

theorem mem_setReplicas {partId locations p parts} (h : p ∈ setReplicas partId locations parts) :
    p ∈ parts ∨ ∃ q ∈ parts, q.partId = partId ∧ p = { q with replicas := locations } := by
  induction parts with
  | nil => simp [setReplicas] at h
  | cons q rest ih =>
    rw [setReplicas] at h
    split at h
    · rename_i same
      rcases mem_cons.mp h with rfl | old
      · exact .inr ⟨q, mem_cons_self, same, rfl⟩
      · exact .inl (.tail _ old)
    · rcases mem_cons.mp h with rfl | later
      · exact .inl mem_cons_self
      · rcases ih later with old | ⟨q', mem, same, rfl⟩
        · exact .inl (.tail _ old)
        · exact .inr ⟨q', .tail _ mem, same, rfl⟩

/-- Record where a part was copied to. The version moves even if the row is gone. -/
def World.recordReplicas (partId : PartId) (locations : List ReplicaLocation) (w : World R) :
    World R :=
  w.withManifest fun m =>
    { m with parts := setReplicas partId locations m.parts, version := m.version + 1 }

/-- `decrement`: one upload less is outstanding. -/
def World.finishUpload (w : World R) : World R :=
  (w.withEngine fun e => { e with outstanding := e.outstanding - 1 }).log .uploadEnd

def readLocalFile (path : LocalPath) : Fallible R Bytes :=
  attempt fun w =>
    match w.disk.lookup path with
    | some bytes => (.ok bytes, w)
    | none => (.error (.storage "no such file"), w)

def readSource : UploadSource → Fallible R Bytes
  | .localFile path => readLocalFile path
  | .replica replica key =>
    if replica ∈ C.replicas then getPart replica key
    else throw (.invalidState "backfill source replica is not in the replica set")

def uploadJob (job : UploadJob) : Action R Unit := do
  match ← (readSource C job.source).run with
  | .error _ => update World.finishUpload
  | .ok bytes =>
    let locations ← replicateBytes C job.substrateKey bytes
    if locations.isEmpty then
      update World.finishUpload
    else
      let view ← Prog.lift fun _ w =>
        let w' := w.recordReplicas job.partId locations
        some (w'.engine.manifest.durableView, w')
      writeManifestToAll C view
      update World.finishUpload

end Ehdb.L0
