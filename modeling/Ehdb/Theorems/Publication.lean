import Ehdb.Proof.Objects
import Ehdb.Proof.Snapshots
import Ehdb.Proof.Tip

/-! Whether a change of the manifest can be lost between two threads that each take a view under one
lock and publish it under another; and which snapshots pruning leaves. -/

namespace Ehdb.Theorems

open L0 Proof ProofKit

variable {R : Type}

/-- While an engine runs, `LATEST` never goes back to a lower version. When both threads are at
rest, `LATEST` on a replica that took every put is the view with the highest version, and it has
the durable parts and the retention floor of the manifest in memory. -/
theorem publication_loses_no_update (C : L0Config R) (s : Session R) (rest : AtRest s)
    (current : Versions C s.world none none) (schedule : List (Label R))
    (alive : ∀ loseDisk, .stop loseDisk ∉ schedule) (x : ReplicaId) (listed : x ∈ C.replicas) :
    observed C (lowersLatest x) s schedule = [] ∧
      (AtRest (s.run C schedule) → PutsSucceed x s.world (s.run C schedule).world →
        ∀ newest older, observed C viewTaken s schedule = newest :: older →
          ((s.run C schedule).world.replicas x).latest = some newest ∧
          (∀ view ∈ older, view.version < newest.version) ∧
          newest.parts = (s.run C schedule).world.engine.manifest.durableView.parts ∧
          newest.reclaimedThrough = (s.run C schedule).world.engine.manifest.reclaimedThrough) := by
  constructor
  · obtain ⟨m, u, tracks⟩ :=
      run_publishes (fun w => lowersLatest_eq_nil (Nat.le_refl _)) rest schedule alive
    exact (never_lowers listed current tracks.reach).2
  · intro rest' succeed newest older eq
    obtain ⟨m, u, tracks⟩ := run_publishes (C := C) viewTaken_self rest schedule alive
    obtain rfl := tracks.uploads_none rest'.noUpload
    have inv := latestInv listed current tracks.reach
    rw [(tracks.rests_of_idle rest'.idle).stage_free] at inv
    exact ⟨inv.settled succeed eq, (List.pairwise_cons.1 (eq ▸ inv.falling)).1,
      inv.newest newest older eq⟩

def twoPublishedParts : List (Label Sample) :=
  callSample (.openEngine fun _ => .up) 6 ++
  callSample (.append 0 false ⟨1, false, false⟩) 8 ++ uploadSteps 12 ++
  callSample (.append 0 false ⟨2, false, false⟩) 8 ++ uploadSteps 12

/-- The uploader takes the view of a third part; before it publishes, a merge of the first two
takes and publishes its own. The uploader then finds its view out of date. -/
def mergeOvertakesUpload : List (Label Sample) :=
  callSample (.append 0 false ⟨3, false, false⟩) 8 ++ uploadSteps 5 ++
  callSample (.merges 1) 17 ++ uploadSteps 4

theorem overtaken_upload_is_in_latest :
    let s := runFrom (sampleConfig false [0, 1] 1 1) twoPublishedParts
    let C := sampleConfig false [0, 1] 1 1
    (observed C viewTaken s mergeOvertakesUpload).map Manifest.version = [7, 6] ∧
      ∀ newest older, observed C viewTaken s mergeOvertakesUpload = newest :: older →
        ((s.run C mergeOvertakesUpload).world.replicas 1).latest = some newest ∧
        newest.parts = (s.run C mergeOvertakesUpload).world.engine.manifest.durableView.parts := by
  intro s C
  have rest : AtRest s := ⟨by decide, by decide, Option.isNone_iff_eq_none.1 (by decide)⟩
  have rest' : AtRest (s.run C mergeOvertakesUpload) :=
    ⟨by decide +kernel, by decide +kernel, Option.isNone_iff_eq_none.1 (by decide +kernel)⟩
  have current := rest.versions (by decide)
  have alive : ∀ loseDisk, .stop loseDisk ∉ mergeOvertakesUpload := by
    simp [mergeOvertakesUpload, callSample, mainSteps, uploadSteps]
  have succeed : PutsSucceed 1 s.world (s.run C mergeOvertakesUpload).world :=
    .of_trace (by decide +kernel)
  refine ⟨by decide +kernel, fun newest older eq => ?_⟩
  obtain ⟨latest, -, parts, -⟩ := (publication_loses_no_update C s rest current _ alive 1
    (by decide)).2 rest' succeed newest older eq
  exact ⟨latest, parts⟩

/-- An engine that is opened while its replica does not answer for `LATEST`, and its first upload.
-/
def openedBlind : List (Label Sample) :=
  twoPublishedParts ++ .stop true :: callSample (.openEngine fun _ => .hidden) 6

def thirdPart : List (Label Sample) :=
  callSample (.append 0 false ⟨3, false, false⟩) 8 ++ uploadSteps 12

/-- That engine counts versions from zero: every put succeeds, and `LATEST` goes from 4 to 2. -/
theorem blind_open_lowers_latest :
    let C := sampleConfig false [0] 1 1
    let s := runFrom C openedBlind
    AtRest s ∧ PutsSucceed 0 s.world (s.run C thirdPart).world ∧
      (s.world.replicas 0).latest.map Manifest.version = some 4 ∧
      observed C (lowersLatest 0) s thirdPart = [2] := by
  intro C s
  exact ⟨⟨by decide +kernel, by decide +kernel, Option.isNone_iff_eq_none.1 (by decide +kernel)⟩,
    .of_trace (by decide +kernel), by decide +kernel, by decide +kernel⟩

/-- If no version is evicted before all versions above it were published, the newest
`manifest_retain` published versions are there. If every version that leaves the window is evicted,
there are at most twice as many snapshots; with `manifest_retain = 1`, each of two busy threads may
have one more in hand. -/
theorem manifest_history_bounded (C : L0Config R) (retain : 0 < C.manifestRetain)
    (s : Session R) (rest : AtRest s) (current : Versions C s.world none none)
    (schedule : List (Label R)) (alive : ∀ loseDisk, .stop loseDisk ∉ schedule)
    (faultless : NoFault s.world (s.run C schedule).world) (x : ReplicaId)
    (listed : x ∈ C.replicas) (empty : snapshots x s.world = []) :
    (Keeping C.manifestRetain (observed C (recorded x) s schedule) →
      ∀ v ∈ (observed C (recorded x) s schedule).take C.manifestRetain,
        v ∈ snapshots x (s.run C schedule).world) ∧
    (Evicting C.manifestRetain (observed C (recorded x) s schedule) →
      (1 < C.manifestRetain ∨ (s.run C schedule).idle = true ∨ (s.run C schedule).up = none) →
        (snapshots x (s.run C schedule).world).length ≤ 2 * C.manifestRetain) := by
  obtain ⟨m, u, tracks⟩ := run_publishes (fun _ => recorded_of_subset fun _ mem => mem)
    rest schedule alive
  have inv := snapshotInv retain listed current empty tracks.reach faultless
  refine ⟨fun keeping v newest => ?_, fun evicting quiet => ?_⟩
  · have mem := List.mem_of_mem_take newest
    have few := newer_of_take inv.falling newest
    rcases inv.kept v mem with here | evicted | swept
    · exact here
    · exact absurd (keeping.newer mem evicted) (Nat.not_le.2 few)
    · exact absurd swept (Nat.not_le.2 few)
  rcases quiet with wide | idle | noUpload
  · have := inv.length_le evicting
    omega
  · rw [(tracks.rests_of_idle idle).stage_free] at inv
    have := inv.symm.length_le_of_free evicting
    omega
  · obtain rfl := tracks.uploads_none noUpload
    have := inv.length_le_of_free evicting
    omega

def keepsTwo : L0Config Sample := { sampleConfig false [0] 1 1 with manifestRetain := 2 }

def openedToKeepTwo : Session Sample :=
  runFrom keepsTwo (callSample (.openEngine fun _ => .up) 6)

def sealSample (key : UInt8) : List (Label Sample) :=
  callSample (.append 0 false ⟨key, false, false⟩) 8

/-- All seals come first, then the uploads and a merge publish the versions 4 to 7. -/
def publishedInTurn : List (Label Sample) :=
  sealSample 1 ++ sealSample 2 ++ sealSample 3 ++ uploadSteps 32 ++ callSample (.merges 1) 20

theorem published_in_turn_is_kept :
    observed keepsTwo (recorded 0) openedToKeepTwo publishedInTurn = [7, 6, 5, 4] ∧
      (∀ v ∈ [7, 6], v ∈ snapshots 0 (openedToKeepTwo.run keepsTwo publishedInTurn).world) ∧
      (snapshots 0 (openedToKeepTwo.run keepsTwo publishedInTurn).world).length ≤ 4 := by
  have rest : AtRest openedToKeepTwo :=
    ⟨by decide, by decide, Option.isNone_iff_eq_none.1 (by decide)⟩
  have current : Versions keepsTwo openedToKeepTwo.world none none := rest.versions (by decide)
  have alive : ∀ loseDisk, .stop loseDisk ∉ publishedInTurn := by
    simp [publishedInTurn, sealSample, callSample, mainSteps, uploadSteps]
  have published : observed keepsTwo (recorded 0) openedToKeepTwo publishedInTurn = [7, 6, 5, 4] :=
    by decide +kernel
  obtain ⟨kept, bounded⟩ := manifest_history_bounded keepsTwo (by decide) openedToKeepTwo rest
    current publishedInTurn alive (.of_trace (by decide +kernel)) 0 (by decide) (by decide +kernel)
  have two : keepsTwo.manifestRetain = 2 := rfl
  rw [published, two] at kept bounded
  exact ⟨published, kept (by decide), bounded (by decide) (.inl (by decide))⟩

/-- A part is sealed and uploaded, and then another: the versions 2 and 4 are published. -/
def sealedAndUploadedTwice : List (Label Sample) :=
  sealSample 1 ++ uploadSteps 11 ++ sealSample 2 ++ uploadSteps 11

def sealedAhead : List (Label Sample) :=
  let more := sealSample 3 ++ sealSample 4 ++ sealSample 5 ++ uploadSteps 10
  sealSample 1 ++ sealSample 2 ++ uploadSteps 10 ++ more ++ more ++ more ++ more

/-- A run from the open engine in which no replica fails and both threads come to rest. -/
def RunsToRest (schedule : List (Label Sample)) : Prop :=
  let s := openedToKeepTwo.run keepsTwo schedule
  s.idle = true ∧ s.up.isNone = true ∧ ∀ e ∈ s.world.trace, ¬(e matches .fault _ _)

instance (schedule : List (Label Sample)) : Decidable (RunsToRest schedule) := by
  unfold RunsToRest
  infer_instance

/-- A seal takes a version and publishes nothing. The version two below the newest can then be one
of the two newest published, and it is deleted. Odd versions four apart are neither evicted nor
swept, and five of them stay. -/
theorem seals_break_the_window : (RunsToRest sealedAndUploadedTwice ∧
      observed keepsTwo (recorded 0) openedToKeepTwo sealedAndUploadedTwice = [4, 2] ∧
      snapshots 0 (openedToKeepTwo.run keepsTwo sealedAndUploadedTwice).world = [4]) ∧
    (RunsToRest sealedAhead ∧
      snapshots 0 (openedToKeepTwo.run keepsTwo sealedAhead).world = [19, 15, 11, 7, 3]) := by
  decide +kernel

/-- Every part that the newest `LATEST` copy lists has its object on a replica listed for it, and
an engine that starts from this copy can read it. -/
def PublishedPartsReadable (C : L0Config R) (w : World R) : Prop :=
  ∀ a ∈ w.newestLatest C, ∀ p ∈ a.parts, (∃ loc ∈ p.replicas, loc.replica ∈ C.replicas ∧
      ((w.replicas loc.replica).parts.lookup loc.key).isSome) ∧ (readPart C w some p).isOk = true

instance (C : L0Config R) (w : World R) : Decidable (PublishedPartsReadable C w) := by
  unfold PublishedPartsReadable
  infer_instance

theorem readAcross_of_stored {C} {w : World R} {locations loc} (mem : loc ∈ locations)
    (stored : Stored C w loc) :
    (readAcross C w some locations).isOk = true := by
  induction locations with
  | nil => simp at mem
  | cons first rest ih =>
    rw [readAcross]
    split
    · split
      · rfl
      · rename_i missing
        rcases List.mem_cons.mp mem with rfl | later
        · obtain ⟨bytes, found⟩ := Option.isSome_iff_exists.mp stored.present
          simp [found] at missing
        · exact ih later
    · rename_i unlisted
      rcases List.mem_cons.mp mem with rfl | later
      · exact absurd stored.listed unlisted
      · exact ih later

/-- In a run in which no upload overlaps a reclaim pass and every pass starts from a manifest
whose durable parts are the published ones, garbage collection never strands the catalog. Any
operation on a replica may fail. -/
theorem reclaim_keeps_published_parts (C : L0Config R) (schedule : List (Label R))
    (reached : Reached (runFrom C schedule).world.trace)
    (calm : Calm (runFrom C schedule).world.trace)
    (current : CurrentAtReclaim (runFrom C schedule).world.trace) :
    PublishedPartsReadable C (runFrom C schedule).world := by
  obtain ⟨m, u, tracks⟩ := runFrom_tracks (C := C) schedule
  have inv := objects tracks.reachable reached calm current
  intro a newest p mem
  obtain ⟨stored, detached⟩ := inv.newest a (newestLatest_some newest)
  obtain ⟨replicated, remote⟩ := detached p mem
  obtain ⟨loc, rest, eq⟩ := List.exists_cons_of_ne_nil replicated
  have listed : loc ∈ p.replicas := by simp [eq]
  have here := stored p mem loc listed
  refine ⟨⟨loc, listed, here.listed, here.present⟩, ?_⟩
  rw [readPart, remote]
  exact readAcross_of_stored listed here

/-- Two records are appended, each in a part of its own that is uploaded and published. -/
def twoUploadedParts : List (Label Sample) :=
  callSample (.openEngine fun _ => .up) 6 ++
  callSample (.append 0 false ⟨1, false, false⟩) 8 ++ uploadSteps 10 ++
  callSample (.append 0 false ⟨2, false, false⟩) 8 ++ uploadSteps 10

def mergedAndReclaimed : List (Label Sample) :=
  twoUploadedParts ++ callSample (.merges 1) 18 ++ callSample .reclaim 12

theorem merged_run_stays_readable :
    Reached (runFrom (sampleConfig false [0] 1 1) mergedAndReclaimed).world.trace ∧
      PublishedPartsReadable (sampleConfig false [0] 1 1)
        (runFrom (sampleConfig false [0] 1 1) mergedAndReclaimed).world :=
  ⟨by decide +kernel, reclaim_keeps_published_parts _ _
    (by decide +kernel) (by decide +kernel) (by decide +kernel)⟩

/-- As `mergedAndReclaimed`, but the put of `LATEST` fails after the merge has swapped its sources
in memory. -/
def unpublishedMergeReclaimed : List (Label Sample) :=
  twoUploadedParts ++ callSample (.merges 1) 10 ++ [.main .fail] ++ mainSteps 8 ++
  callSample .reclaim 12

/-- After a failed publication a reclaim pass deletes the objects of the parts that the newest
published manifest still lists. -/
theorem unpublished_merge_strands_catalog : ¬PublishedPartsReadable (sampleConfig false [0] 1 1)
      (runFrom (sampleConfig false [0] 1 1) unpublishedMergeReclaimed).world := by
  decide +kernel

/-- In a run that stops only when the newest published manifest reaches up to the tip, every key
that is handed out is above every key appended before it, whatever retention dropped and over any
number of restarts and cold loads. -/
theorem assigned_keys_increase (C : L0Config R) (lawful : C.dataset.Lawful)
    (schedule : List (Label R)) (reached : Reached (runFrom C schedule).world.trace)
    (durable : TipDurable (runFrom C schedule).world.trace)
    (top : BelowTop C.dataset (runFrom C schedule).world.trace) :
    MintsFresh C.dataset (runFrom C schedule).world.trace := by
  obtain ⟨m, u, tracks⟩ := runFrom_tracks (C := C) schedule
  exact (tipInv lawful tracks.reachable reached durable (fun _ => id)
    fun r mem => top r (mem_history.mpr mem)).fresh

def sampleRecord : Sample := ⟨0, false, false⟩

def assignedAndFlushed : List (Label Sample) :=
  callSample (.openEngine fun _ => .up) 6 ++
  callSample (.appendAssigned 0 false sampleRecord) 10 ++ uploadSteps 10 ++ callSample .flush 6

def restartedAfterFlush : List (Label Sample) :=
  assignedAndFlushed ++ [.stop false] ++ callSample (.openEngine fun _ => .up) 8 ++
  callSample (.appendAssigned 0 false sampleRecord) 10

theorem restart_after_flush_increases :
    TipDurable (runFrom (sampleConfig false [0] 1 1) restartedAfterFlush).world.trace ∧
      MintsFresh (sampleConfig false [0] 1 1).dataset
        (runFrom (sampleConfig false [0] 1 1) restartedAfterFlush).world.trace :=
  (fun runs : _ ∧ _ ∧ _ => ⟨runs.1, assigned_keys_increase _ (sampleDataset_lawful _) _
    runs.2.1 runs.1 runs.2.2⟩) (by decide +kernel)

/-- As `restartedAfterFlush`, but before the stop retention drops every sealed part. -/
def restartedAfterRetention : List (Label Sample) :=
  assignedAndFlushed ++ callSample (.retain 9) 20 ++ callSample .flush 6 ++ [.stop false] ++
  callSample (.openEngine fun _ => .up) 8 ++ callSample (.appendAssigned 0 false sampleRecord) 10

/-- When retention has dropped the part with the highest key, the next process starts again from
the keys that are left and reissues one. -/
theorem retention_reissues_keys : ¬MintsFresh (sampleConfig false [0] 1 1).dataset
      (runFrom (sampleConfig false [0] 1 1) restartedAfterRetention).world.trace := by
  decide +kernel

end Ehdb.Theorems
