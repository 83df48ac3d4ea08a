import Ehdb.L0.Maintain

/-! Loading the newest durable manifest; then, on the node that wrote the log, sealing stranded
active parts, adopting unknown sealed files and replaying the live one; on a fresh node, replaying
the tail objects. -/

namespace Ehdb.L0

open ProofKit

variable {R : Type}

/-- How a replica answers while an engine is opened: it is up, it cannot be listed or asked
whether a key exists, or its objects cannot be read. -/
inductive Reach where
  | up
  | hidden
  | unreadable
  deriving DecidableEq

/-- Keep the manifest with the higher version, the earlier one when they are equal. -/
def keepNewer (m : Manifest) : Option Manifest → Option Manifest
  | none => some m
  | some best => if m.version > best.version then some m else some best

/-- The pass over the `LATEST` copies: the best one and whether some copy was unreadable. -/
def loadLatest (reach : ReplicaId → Reach) (replicas : ReplicaId → Substrate) :
    List ReplicaId → Option Manifest → Bool → Option Manifest × Bool
  | [], best, failed => (best, failed)
  | replica :: rest, best, failed =>
    match reach replica, (replicas replica).latest with
    | .hidden, _ | _, none => loadLatest reach replicas rest best failed
    | .unreadable, some _ => loadLatest reach replicas rest best true
    | .up, some m => loadLatest reach replicas rest (keepNewer m best) failed

/-- The newest snapshot of a replica, if it is newer than `best`. -/
def newestSnapshot (replica : Substrate) (best : Option Manifest) : Option Manifest :=
  match (sortByKey id replica.versions.keys).getLast? with
  | none => best
  | some version =>
    match best, replica.versions.lookup version with
    | some b, some m => if b.version ≥ version then some b else keepNewer m (some b)
    | none, some m => some m
    | best, none => best

def loadSnapshots (reach : ReplicaId → Reach) (replicas : ReplicaId → Substrate) :
    List ReplicaId → Option Manifest → Option Manifest
  | [], best => best
  | replica :: rest, best =>
    match reach replica with
    | .up => loadSnapshots reach replicas rest (newestSnapshot (replicas replica) best)
    | _ => loadSnapshots reach replicas rest best

def loadDurableManifest (C : L0Config R) (reach : ReplicaId → Reach)
    (replicas : ReplicaId → Substrate) : Result (Option Manifest) :=
  match loadLatest reach replicas C.replicas none false with
  | (best, false) => .ok best
  | (best, true) =>
    match loadSnapshots reach replicas C.replicas best with
    | some m => .ok (some m)
    | none => .error (.storage "decode durable manifest: no replica holds a readable manifest")

def World.logReach (C : L0Config R) (reach : ReplicaId → Reach) (w : World R) : World R :=
  if C.replicas.all fun r => reach r = .up then w else w.log .unreached

def World.loadAndAssemble (C : L0Config R) (reach : ReplicaId → Reach) (required : Bool)
    (w : World R) : Result Nat × World R :=
  let w := w.logReach C reach
  match loadDurableManifest C reach w.replicas with
  | .error e => (.error e, w)
  | .ok none =>
    if required then
      (.error (.invalidState "cold-load: no durable manifest on any replica"), w)
    else
      (.ok 0, w.withEngine fun _ => .assemble C .empty 0)
  | .ok (some m) =>
    let w := if required then w.log .coldStarted else w
    (.ok m.maxSequence, w.withEngine fun _ => .assemble C m m.maxSequence)

variable {C : L0Config R} {reach : ReplicaId → Reach} {required : Bool} {w w' : World R}

/-- What a load comes to: nothing was found, or the manifest that was. -/
theorem loadAndAssemble_ok {tip} (h : World.loadAndAssemble C reach required w = (.ok tip, w')) :
    (loadDurableManifest C reach w.replicas = .ok none ∧ required = false ∧
      w' = (w.logReach C reach).withEngine fun _ => .assemble C .empty 0) ∨
    ∃ m, loadDurableManifest C reach w.replicas = .ok (some m) ∧ tip = m.maxSequence ∧
      w' = (if required then (w.logReach C reach).log .coldStarted
        else w.logReach C reach).withEngine fun _ => .assemble C m m.maxSequence := by
  have replicas : (w.logReach C reach).replicas = w.replicas := by
    unfold World.logReach
    split <;> rfl
  unfold World.loadAndAssemble at h
  dsimp only at h
  split at h
  · simp at h
  · rename_i found
    split at h
    · simp at h
    · rename_i optional
      exact .inl ⟨replicas ▸ found, by simpa using optional, (Prod.mk.inj h).2.symm⟩
  · rename_i m found
    obtain ⟨tipEq, rfl⟩ := Prod.mk.inj h
    exact .inr ⟨m, replicas ▸ found, (Except.ok.inj tipEq).symm, rfl⟩

theorem loadAndAssemble_error {e}
    (h : World.loadAndAssemble C reach required w = (.error e, w')) : w' = w.logReach C reach := by
  unfold World.loadAndAssemble at h
  dsimp only at h
  split at h
  · exact (Prod.mk.inj h).2.symm
  · split at h
    · exact (Prod.mk.inj h).2.symm
    · simp at h
  · simp at h

/-- An active file to seal in place: its id, the part it becomes and the end of its last intact
frame. -/
structure Stranded where
  localId : Nat
  partId : PartId
  intact : Nat

def PartId.overlaps (a b : PartId) : Bool :=
  a.partition = b.partition && a.min ≤ b.max && b.min ≤ a.max

def strandedLoop (D : Dataset R) (floor shard : Nat) (live : Option Nat) :
    List (Nat × Bytes) → List PartId → List Stranded → Result (List Stranded × List PartId)
  | [], taken, out => .ok (out, taken)
  | (id, bytes) :: rest, taken, out =>
    if some id = live then
      strandedLoop D floor shard live rest taken out
    else
      match activeRange D bytes with
      | .error e => .error e
      | .ok none => strandedLoop D floor shard live rest taken out
      | .ok (some (lo, hi, intact)) =>
        let partId : PartId := ⟨shard, lo, hi⟩
        if lo ≤ floor || lo > hi || taken.any partId.overlaps then
          strandedLoop D floor shard live rest taken out
        else
          strandedLoop D floor shard live rest (taken ++ [partId]) (out ++ [⟨id, partId, intact⟩])

def liveRange (D : Dataset R) (shard : Nat) (live : Option Nat) :
    List (Nat × Bytes) → Result (List PartId)
  | [] => .ok []
  | (id, bytes) :: rest =>
    if some id = live then
      match activeRange D bytes with
      | .error e => .error e
      | .ok none => liveRange D shard live rest
      | .ok (some (lo, hi, _)) => do return ⟨shard, lo, hi⟩ :: (← liveRange D shard live rest)
    else
      liveRange D shard live rest

def strandedIn (D : Dataset R) (disk : Disk) (floor shard : Nat) (taken : List PartId) :
    Result (List Stranded × List PartId) := do
  let sealedMax := ((taken.filter fun r => r.partition = shard).map PartId.max).foldl max 0
  let (live, _) ← chooseLiveActive D disk shard sealedMax
  let actives := sortByKey Prod.fst (activeFiles disk shard)
  let range ← liveRange D shard live actives
  strandedLoop D floor shard live actives (taken ++ range) []

/-- `set_len` of an active file. -/
def World.cutFile (w : World R) (path : LocalPath) (len : Nat) : World R :=
  match w.disk.lookup path with
  | some bytes => w.writeFile path (bytes.take len)
  | none => w

/-- `seal_stranded_active`, after its range was checked: cut the torn tail and rename. -/
def sealStrandedActive (shard : Nat) (s : Stranded) : Fallible R Unit := do
  let path := LocalPath.active shard s.localId
  always (update fun w => w.cutFile path s.intact)
  attempt fun w =>
    if (w.disk.lookup (.sealed s.partId)).isSome then
      (.error (.alreadyExists "sealed part"), w)
    else
      (.ok (), w.sealFile path s.partId)

def sealStrandedActiveParts (C : L0Config R) : Fallible R Unit := do
  let (floor, taken) ← always (observe fun w =>
    (w.engine.manifest.reclaimedThrough, w.engine.manifest.parts.map fun p =>
        (⟨p.partition, p.minSequence, p.maxSequence⟩ : PartId)))
  let _ ← Prog.tryEach
    (fun taken shard => do
      let (stranded, taken) ← ofResult
        (← always (observe fun w => strandedIn C.dataset w.disk floor shard taken))
      Prog.tryEach (fun _ s => sealStrandedActive shard s) () stranded
      return taken)
    taken C.shards
  return

def sealedFiles (disk : Disk) : List PartId :=
  (disk.keys.filterMap fun
    | .sealed id => some id
    | _ => none).insertionSort fun a b => PartId.le a b

/-- Adopt one sealed file, unless the manifest knows it or covers its records. -/
def World.adoptFile (C : L0Config R) (coverage : Coverage) (known : List PartId) (id : PartId)
    (w : World R) : World R :=
  if id.partition ≥ max 1 C.shardCount || id ∈ known || coverage.superseded id then
    w
  else
    match (w.disk.lookup (.sealed id)).bind
      (readSealedPart C.platform C.dataset C.granuleSize id) with
    | none => w
    | some sealed =>
      (w.withEngine fun e => e.countRecovered C id.partition id.max
        sealed.records).registerAndUpload
        sealed

def adoptUnregisteredSealedParts (C : L0Config R) : Action R Unit := do
  let (files, coverage, known) ← observe fun w =>
    (sealedFiles w.disk, Coverage.of w.engine.manifest, w.engine.manifest.parts.map PartMeta.partId)
  Prog.foldEach (fun _ id => update (World.adoptFile C coverage known id)) () files

def recoverActiveParts (C : L0Config R) : Fallible R Unit :=
  Prog.tryEach (fun _ shard => attempt (World.ensureWriter C shard)) () C.shards

/-- `open_replicated_with_metrics`. -/
def openReplicated (C : L0Config R) (reach : ReplicaId → Reach) : Fallible R Unit := do
  if C.replicas.isEmpty then
    throw (.invalidState "L0 engine needs at least one replica target")
  let _ ← attempt (World.loadAndAssemble C reach false)
  sealStrandedActiveParts C
  always (adoptUnregisteredSealedParts C)
  recoverActiveParts C

/-- The records of one tail object above `afterSeq`. A record whose key was already found is
dropped. -/
def collectTailObject (D : Dataset R) (afterSeq : Nat) (bytes : Bytes) (found : List R) :
    Result (List R) := do
  let records ← decodeRecords D (← iterFramesFrom bytes 0)
  return records.foldl
    (fun found r =>
      if D.sortKey r > afterSeq && !(found.any fun f => D.sortKey f = D.sortKey r) then found ++ [r]
      else found)
    found

def collectTail (C : L0Config R) (reach : ReplicaId → Reach) (afterSeq : Nat)
    (replicas : ReplicaId → Substrate) : Result (List R) := do
  let objects := (C.replicas.filter fun r => reach r = .up).flatMap fun r =>
    (replicas r).tails.entries.map Sigma.snd
  let found ← objects.foldlM
    (fun found bytes => collectTailObject C.dataset afterSeq bytes found) []
  return sortByKey C.dataset.sortKey found

/-- Append what the tail objects hold above `afterSeq`. -/
def recoverTailFromReplicas (C : L0Config R) (reach : ReplicaId → Reach) (hlc : Nat → Nat)
    (aged : Bool) (afterSeq : Nat) : Fallible R Unit := do
  let records ← ofResult (← always (observe fun w => collectTail C reach afterSeq w.replicas))
  Prog.tryEach
    (fun _ r => do let _ ← appendRecord C (hlc (C.dataset.sortKey r)) aged r) () records

/-- `cold_load_replicated_with_metrics`. -/
def coldLoadReplicated (C : L0Config R) (reach : ReplicaId → Reach) (hlc : Nat → Nat)
    (aged : Bool) : Fallible R Unit := do
  if C.replicas.isEmpty then
    throw (.invalidState "L0 cold-load needs at least one replica target")
  let tip ← attempt (World.loadAndAssemble C reach true)
  recoverTailFromReplicas C reach hlc aged tip

end Ehdb.L0
