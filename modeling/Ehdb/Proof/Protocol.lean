import Ehdb.L0.Run

/-! What an action of an engine program can do to the shared state, said once. A task is what a
thread has in hand between two of its actions. That the programs take no other steps is proved in
`Ehdb.Proof.Programs`. -/

namespace Ehdb.Proof

open L0 ProofKit

variable {R : Type}

/-- A durable view on its way to the replicas: waiting for the lock, or being written with the
replicas that are still to be visited. -/
inductive Publication where
  | waiting (view : Manifest)
  | writing (view : Manifest) (todo : List ReplicaId)

def Publication.view : Publication → Manifest
  | .waiting view => view
  | .writing view _ => view

/-- How far a thread is in a publication, from the view it takes to the end of the pruning. -/
inductive PubStage where
  | free
  | holding (view : Manifest)
  | putting (view : Manifest) (todo : List ReplicaId)
  | recording (view : Manifest) (replica : ReplicaId) (todo : List ReplicaId)
  /-- The lock was given back, and `version` less the bound is deleted from the replicas. -/
  | evicting (version : Nat) (todo : List ReplicaId)
  | sweeping (todo : List ReplicaId)
  | deleting (replica : ReplicaId) (doomed : List Nat) (todo : List ReplicaId)

def PubStage.pub : PubStage → Option Publication
  | .holding view => some (.waiting view)
  | .putting view todo => some (.writing view todo)
  | .recording view _ todo => some (.writing view todo)
  | _ => none

def evictions (C : L0Config R) (version : Nat) : List Nat :=
  if C.manifestRetain = 0 ∨ version ≤ C.manifestRetain then [] else [version - C.manifestRetain]

def sweepTargets (C : L0Config R) (version : Nat) : List ReplicaId :=
  if C.manifestRetain ≠ 0 ∧ version % C.manifestRetain = 0 then C.replicas else []

def sweepStage : List ReplicaId → PubStage
  | [] => .free
  | replica :: todo => .sweeping (replica :: todo)

def deleteStage (replica : ReplicaId) (todo : List ReplicaId) : List Nat → PubStage
  | [] => sweepStage todo
  | version :: doomed => .deleting replica (version :: doomed) todo

def evictStage (C : L0Config R) (version : Nat) (todo : List ReplicaId) : PubStage :=
  match evictions C version, todo with
  | _ :: _, replica :: todo => .evicting version (replica :: todo)
  | _, _ => sweepStage (sweepTargets C version)

/-- Where the uploader stands. -/
inductive UpTask where
  | idle
  | reading (job : UploadJob)
  | copying (job : UploadJob) (bytes : Bytes) (locations : List ReplicaLocation)
      (todo : List ReplicaId)
  | publishing (l : PubStage)

/-- A merge between reading its sources and swapping them: the plan, the rows of its sources
and the records it has read. -/
structure MergeTask (R : Type) where
  plan : MergePlan
  sources : List PartMeta
  records : List R

/-- Where the foreground stands: opening, serving, merging, publishing or reclaiming. -/
inductive MainTask (R : Type) where
  | down
  | loaded (cold : Bool)
  /-- The pass over stranded active files, with the floor and the ranges taken so far. -/
  | stranding (floor : Nat) (taken : List PartId) (shard : Nat) (todo : List Stranded)
  | adopting (coverage : Coverage) (known : List PartId) (todo : List PartId)
  | resuming (todo : List Nat)
  | serving (sealed : List (SealedPart R))
  | renamed (shard : Nat) (writer : PartWriter R) (sealed : List (SealedPart R))
  | broken
  | planned (plan : MergePlan)
  | gathering (merge : MergeTask R) (todo : List PartMeta)
  | building (merge : MergeTask R)
  | written (merge : MergeTask R) (part : ActivePart R) (bytes : Bytes)
  | copying (merge : MergeTask R) (row : PartMeta) (bytes : Bytes)
      (locations : List ReplicaLocation) (todo : List ReplicaId)
  | retaining (plan : RetentionPlan)
  | publishing (l : PubStage)
  | collecting (view : ReclaimView)
  | tailing (batches : List TailBatch)
  | trimming (watermarks : List (Nat × Nat))

inductive MainTask.Rests : MainTask R → Prop where
  | serving : Rests (.serving [])
  | resumed : Rests (.resuming [])
  | cold : Rests (.loaded true)
  | broken : Rests .broken
  | planned {plan} : Rests (.planned plan)
  | gathering {merge todo} : Rests (.gathering merge todo)
  | building {merge} : Rests (.building merge)
  | copying {merge row bytes locations todo} : Rests (.copying merge row bytes locations todo)
  | retaining {plan} : Rests (.retaining plan)
  | published : Rests (.publishing .free)
  | tailing {batches} : Rests (.tailing batches)
  | trimming {watermarks} : Rests (.trimming watermarks)

def MainTask.stage : MainTask R → PubStage
  | .publishing l => l
  | _ => .free

def UpTask.stage : UpTask → PubStage
  | .publishing l => l
  | _ => .free

def MainTask.pub (m : MainTask R) : Option Publication := m.stage.pub

def UpTask.pub (u : UpTask) : Option Publication := u.stage.pub

def MainTask.held : MainTask R → List ReplicaLocation
  | .copying _ _ _ locations _ => locations
  | _ => []

def UpTask.held : UpTask → List ReplicaLocation
  | .copying _ _ locations _ => locations
  | _ => []

def MainTask.reclaims : MainTask R → Option ReclaimView
  | .collecting view => some view
  | _ => none

def MainTask.inHand : MainTask R → List (SealedPart R)
  | .serving sealed => sealed
  | .renamed _ _ sealed => sealed
  | _ => []

inductive Attempt (effect : World R → World R) (w : World R) : World R → Bool → Prop where
  | done : Attempt effect w (effect w) true
  | failed {replica request} : Attempt effect w (w.log (.fault replica request)) false
  | unsure {replica request} : Attempt effect w ((effect w).log (.fault replica request)) false

inductive Asks (replica : ReplicaId) (request : Request) (effect : World R → World R)
    (w : World R) : World R → Prop where
  | done : Asks replica request effect w (effect w)
  | failed : Asks replica request effect w (w.log (.fault replica request))
  | unsure : Asks replica request effect w ((effect w).log (.fault replica request))

/-- Looks at the state, and reads that failed. -/
inductive Aside : World R → World R → Prop where
  | stutter {w} : Aside w w
  | fault {w replica request} : Aside w (w.log (.fault replica request))

def taken (locations : List ReplicaLocation) (replica : ReplicaId) (key : PartKey) (flag : Bool) :
    List ReplicaLocation := if flag then locations ++ [⟨replica, key⟩] else locations

inductive PubStep (C : L0Config R) :
    World R → Publication → World R → Option Publication → Prop where
  | stale {w view} : w.engine.publishing = false → view.version ≤ w.engine.published →
      PubStep C w (.waiting view) w none
  | acquire {w view} : w.engine.publishing = false → w.engine.published < view.version →
      PubStep C w (.waiting view) (w.beginPublish view) (some (.writing view C.replicas))
  | put {w w' view replica todo flag} : Attempt (World.putLatest replica view) w w' flag →
      PubStep C w (.writing view (replica :: todo)) w' (some (.writing view todo))
  | release {w view} : PubStep C w (.writing view []) w.endPublish none

inductive SnapshotStep (C : L0Config R) : World R → PubStage → World R → PubStage → Prop where
  | putVersion {w w' view replica todo} :
      Asks replica .putVersion (World.putVersion replica view) w w' →
      SnapshotStep C w (.recording view replica todo) w' (.putting view todo)
  | evict {w w' version evicted replica todo} : evictions C version = [evicted] →
      Asks replica .deleteVersion (World.deleteVersion replica evicted) w w' →
      SnapshotStep C w (.evicting version (replica :: todo)) w' (evictStage C version todo)
  | list {w replica todo} : SnapshotStep C w (.sweeping (replica :: todo)) w
        (deleteStage replica todo
          (surplusVersions C.manifestRetain (w.replicas replica).versions.keys))
  | unlisted {w replica todo} :
      SnapshotStep C w (.sweeping (replica :: todo)) (w.log (.fault replica .read))
        (sweepStage todo)
  | delete {w w' replica version doomed todo} :
      Asks replica .deleteVersion (World.deleteVersion replica version) w w' →
      SnapshotStep C w (.deleting replica (version :: doomed) todo) w'
        (deleteStage replica todo doomed)

inductive StageStep (C : L0Config R) : World R → PubStage → World R → PubStage → Prop where
  | stale {w view} : w.engine.publishing = false → view.version ≤ w.engine.published →
      StageStep C w (.holding view) w .free
  | acquire {w view} : w.engine.publishing = false → w.engine.published < view.version →
      StageStep C w (.holding view) (w.beginPublish view) (.putting view C.replicas)
  | putLatest {w w' view replica todo} :
      Asks replica .putLatest (World.putLatest replica view) w w' →
      StageStep C w (.putting view (replica :: todo)) w' (.recording view replica todo)
  | release {w view} :
      StageStep C w (.putting view []) w.endPublish (evictStage C view.version C.replicas)
  | snapshot {w w' l l'} : SnapshotStep C w l w' l' → StageStep C w l w' l'

inductive ReadsSource (C : L0Config R) (w : World R) (bytes : Bytes) : UploadSource → Prop where
  | file {path} : w.disk.lookup path = some bytes → ReadsSource C w bytes (.localFile path)
  | object {replica key} : replica ∈ C.replicas →
      (w.replicas replica).parts.lookup key = some bytes →
      ReadsSource C w bytes (.replica replica key)

/-- One step of the uploader. -/
inductive UpStep (C : L0Config R) : World R → UpTask → World R → UpTask → Prop where
  | aside {w w' u} : Aside w w' → UpStep C w u w' u
  | read {w job bytes} : ReadsSource C w bytes job.source →
      UpStep C w (.reading job) w (.copying job bytes [] C.replicas)
  | missing {w job path} : job.source = .localFile path → w.disk.lookup path = none →
      UpStep C w (.reading job) w (.publishing .free)
  | unread {w job replica key} : job.source = .replica replica key →
      UpStep C w (.reading job) w.finishUpload .idle
  | put {w w' job bytes locations replica todo flag} :
      Attempt (World.putPart replica job.substrateKey bytes) w w' flag →
      UpStep C w (.copying job bytes locations (replica :: todo)) w'
        (.copying job bytes (taken locations replica job.substrateKey flag) todo)
  | lost {w job bytes} : UpStep C w (.copying job bytes [] []) w.finishUpload .idle
  | record {w job bytes locations} : locations ≠ [] →
      UpStep C w (.copying job bytes locations []) (w.recordReplicas job.partId locations)
        (.publishing (.holding (w.recordReplicas job.partId locations).engine.manifest.durableView))
  | publish {w w' l l'} : StageStep C w l w' l' → UpStep C w (.publishing l) w' (.publishing l')
  | close {w} : UpStep C w (.publishing .free) w.finishUpload .idle

inductive ReadsPart (C : L0Config R) (w : World R) (part : PartMeta) (bytes : Bytes) : Prop where
  | file {path} : part.localPath = some path → w.disk.lookup path = some bytes →
      ReadsPart C w part bytes
  | object {loc} : part.localPath = none → loc ∈ part.replicas → loc.replica ∈ C.replicas →
      (w.replicas loc.replica).parts.lookup loc.key = some bytes → ReadsPart C w part bytes

/-- One step of an append or a seal. -/
inductive WriteStep (C : L0Config R) : World R → MainTask R → World R → MainTask R → Prop where
  | ensureWriter {w w' shard} : World.ensureWriter C shard w = (.ok (), w') →
      WriteStep C w (.serving []) w' (.serving [])
  | dedup {w record seq} :
      WriteStep C w (.serving []) (w.log (.deduplicated record seq)) (.serving [])
  | mint {w} : WriteStep C w (.serving [])
        (w.log (.minted ((w.engine.globalSequence + 1) % 2 ^ 64))) (.serving [])
  | append {w w' record} :
      World.appendFrame C (C.dataset.partition record C.shardCount) record w = (.ok (), w') →
      WriteStep C w (.serving []) w' (.serving [])
  | rename {w w' shard writer sealed} : World.renameActive shard w = (some writer, w') →
      WriteStep C w (.serving sealed) w' (.renamed shard writer sealed)
  | reopen {w w' shard writer sealed} : World.reopenActive C shard writer w = (.ok (), w') →
      WriteStep C w (.renamed shard writer sealed) w' (.serving (sealed ++ [writer.sealedPart C]))
  | reopenFailed {w w' shard writer sealed e} :
      World.reopenActive C shard writer w = (.error e, w') →
      WriteStep C w (.renamed shard writer sealed) w' .broken
  | register {w part sealed} :
      WriteStep C w (.serving (part :: sealed)) (w.registerAndUpload part) (.serving sealed)
  | backfill {w} : WriteStep C w (.serving []) (w.backfill C) (.serving [])

/-- One step of a merge. -/
inductive MergeStep (C : L0Config R) : World R → MainTask R → World R → MainTask R → Prop where
  | plan {w plan} : planNextMerge w.engine.manifest C.mergePolicy = some plan →
      MergeStep C w (.serving []) w (.planned plan)
  | few {w plan} : (planSources w.engine.manifest plan).length < 2 →
      MergeStep C w (.planned plan) w (.serving [])
  | sources {w plan} : 2 ≤ (planSources w.engine.manifest plan).length →
      MergeStep C w (.planned plan) w
        (.gathering ⟨plan, planSources w.engine.manifest plan, []⟩
          (planSources w.engine.manifest plan))
  | read {w merge part todo bytes more} : ReadsPart C w part bytes →
      decodePart C.dataset bytes = .ok more → MergeStep C w (.gathering merge (part :: todo)) w
        (.gathering { merge with records := merge.records ++ more } todo)
  | merging {w merge} : MergeStep C w (.gathering merge [])
        (w.log (.merging (sortByKey C.dataset.sortKey merge.records)))
        (.building { merge with records := sortByKey C.dataset.sortKey merge.records })
  | write {w merge part bytes} : compactSuperseded C.dataset merge.records ≠ [] →
      layoutMerged C.dataset C.granuleSize (compactSuperseded C.dataset merge.records) =
        .ok (part, bytes) → MergeStep C w (.building merge)
        (w.writeFile (.mergeTmp ⟨merge.plan.partition, part.minSequence, part.maxSequence⟩) bytes)
        (.written merge part bytes)
  | name {w merge part bytes row} :
      row = part.toMeta C.platform C.dataset C.granuleSize merge.plan.partition .merged →
      MergeStep C w (.written merge part bytes)
        (w.renameFile (.mergeTmp row.partId) (.merged row.partId))
        (.copying merge row bytes [] C.replicas)
  | put {w w' merge row bytes locations replica todo flag} :
      Attempt (World.putPart replica (substrateKeyFor merge.plan.partition row.partId) bytes)
        w w' flag → MergeStep C w (.copying merge row bytes locations (replica :: todo)) w'
        (.copying merge row bytes
          (taken locations replica (substrateKeyFor merge.plan.partition row.partId) flag) todo)
  | swap {w w' merge row bytes locations} : locations ≠ [] →
      w' = w.swapMerged merge.plan.sourceIds { row with replicas := locations } →
      MergeStep C w (.copying merge row bytes locations []) w'
        (.publishing (.holding w'.engine.manifest.durableView))

/-- One step of retention or of a reclaim. -/
inductive UpkeepStep (C : L0Config R) : World R → MainTask R → World R → MainTask R → Prop where
  | planRetention {w keepFrom} :
      UpkeepStep C w (.serving []) w (.retaining (planRetention w.engine.manifest keepFrom))
  | drop {w w' plan} : w' = w.dropRetained plan →
      UpkeepStep C w (.retaining plan) w' (.publishing (.holding w'.engine.manifest.durableView))
  | reclaim {w} : UpkeepStep C w (.serving []) (w.log (.reclaimBegin (w.latestIsCurrent C)))
        (.collecting (.of w.engine.manifest))
  | deletePart {w w' view replica key flag} : view.dropsObject key = true →
      Attempt (World.deletePart replica key) w w' flag →
      UpkeepStep C w (.collecting view) w' (.collecting view)
  | deleteFile {w view path} : view.dropsFile path = true →
      UpkeepStep C w (.collecting view) (w.removeFile path) (.collecting view)
  | reclaimEnd {w view} : UpkeepStep C w (.collecting view) (w.log .reclaimEnd) (.serving [])
  | prepareTail {w batches} : prepareTailBatches C w.engine = .ok batches →
      UpkeepStep C w (.serving []) w (.tailing batches)
  | putTail {w w' batches batch replica flag} : batch ∈ batches →
      Attempt (World.putTail replica batch.key batch.bytes) w w' flag →
      UpkeepStep C w (.tailing batches) w' (.tailing batches)
  | commitTail {w batches batch} : batch ∈ batches →
      UpkeepStep C w (.tailing batches) (w.commitTail batch) (.tailing batches)
  | trim {w} :
      UpkeepStep C w (.serving []) w (.trimming (contiguousDurableWatermarks w.engine.manifest))
  | deleteTail {w w' watermarks replica key flag} : tailIsCovered watermarks key = true →
      Attempt (World.deleteTail replica key) w w' flag →
      UpkeepStep C w (.trimming watermarks) w' (.trimming watermarks)

/-- One step of opening the engine. -/
inductive OpenStep (C : L0Config R) : World R → MainTask R → World R → MainTask R → Prop where
  | load {w w' reach cold tip} : World.loadAndAssemble C reach cold w = (.ok tip, w') →
      OpenStep C w .down w' (.loaded cold)
  | loadFailed {w w' reach cold e} : World.loadAndAssemble C reach cold w = (.error e, w') →
      OpenStep C w .down w' .down
  | survey {w} : OpenStep C w (.loaded false) w
        (.stranding w.engine.manifest.reclaimedThrough
          (w.engine.manifest.parts.map fun p => ⟨p.partition, p.minSequence, p.maxSequence⟩) 0 [])
  | strand {w floor ranges ranges' last shard todo} :
      strandedIn C.dataset w.disk floor shard ranges = .ok (todo, ranges') →
      OpenStep C w (.stranding floor ranges last []) w (.stranding floor ranges' shard todo)
  | cut {w floor ranges shard s todo} : OpenStep C w (.stranding floor ranges shard (s :: todo))
        (w.cutFile (.active shard s.localId) s.intact) (.stranding floor ranges shard (s :: todo))
  | sealStranded {w floor ranges shard s todo} : w.disk.lookup (.sealed s.partId) = none →
      OpenStep C w (.stranding floor ranges shard (s :: todo))
        (w.sealFile (.active shard s.localId) s.partId) (.stranding floor ranges shard todo)
  | surveyFiles {w floor ranges shard} : OpenStep C w (.stranding floor ranges shard []) w
        (.adopting (.of w.engine.manifest) (w.engine.manifest.parts.map PartMeta.partId)
          (sealedFiles w.disk))
  | adopt {w coverage known id todo} :
      OpenStep C w (.adopting coverage known (id :: todo)) (w.adoptFile C coverage known id)
        (.adopting coverage known todo)
  | resumeFirst {w w' coverage known shard todo} : C.shards = shard :: todo →
      World.ensureWriter C shard w = (.ok (), w') →
      OpenStep C w (.adopting coverage known []) w' (.resuming todo)
  | resume {w w' shard todo} : World.ensureWriter C shard w = (.ok (), w') →
      OpenStep C w (.resuming (shard :: todo)) w' (.resuming todo)

/-- One step of the foreground. -/
inductive MainStep (C : L0Config R) : World R → MainTask R → World R → MainTask R → Prop where
  | aside {w w' m} : Aside w w' → MainStep C w m w' m
  | write {w m w' m'} : WriteStep C w m w' m' → MainStep C w m w' m'
  | merge {w m w' m'} : MergeStep C w m w' m' → MainStep C w m w' m'
  | upkeep {w m w' m'} : UpkeepStep C w m w' m' → MainStep C w m w' m'
  | opening {w m w' m'} : OpenStep C w m w' m' → MainStep C w m w' m'
  | publish {w w' l l'} : StageStep C w l w' l' → MainStep C w (.publishing l) w' (.publishing l')

inductive CallerStep (C : L0Config R) : World R → MainTask R → World R → MainTask R → Prop where
  | same {w m w' m'} : MainStep C w m w' m' → CallerStep C w m w' m'
  | next {w m w' m'} : m.Rests → MainStep C w (.serving []) w' m' → CallerStep C w m w' m'

/-- The states the engine can get to, over crashes and restarts. -/
inductive Reachable (C : L0Config R) : World R → MainTask R → UpTask → Prop where
  | initial : Reachable C (.initial C) .down .idle
  | main {w m u w' m'} : Reachable C w m u → MainStep C w m w' m' → Reachable C w' m' u
  | upload {w m u w' u'} : Reachable C w m u → UpStep C w u w' u' → Reachable C w' m u'
  | receive {w m job rest} : Reachable C w m .idle → w.engine.queue = job :: rest →
      Reachable C ((w.withEngine fun e => { e with queue := rest }).log .uploadBegin) m
        (.reading job)
  | rest {w m u} : Reachable C w m u → m.Rests → Reachable C w (.serving []) u
  | halt {w m u loseDisk} : Reachable C w m u → Reachable C (w.halt C loseDisk) .down .idle

end Ehdb.Proof
