import Ehdb.Proof.Latest

/-! A publication deletes the snapshot `manifest_retain` versions below its own; a sweep deletes
what has `manifest_retain` newer snapshots. A seal takes a version and publishes nothing. -/

namespace Ehdb.Proof

open L0 ProofKit List

variable {R : Type}

abbrev snapshots (replica : ReplicaId) (w : World R) : List Nat :=
  (w.replicas replica).versions.keys

def recorded (replica : ReplicaId) (w w' : World R) : List Nat :=
  (snapshots replica w').filter fun v => v ∉ snapshots replica w

def NoFault (start w : World R) : Prop :=
  ∀ new, w.trace = new ++ start.trace → ∀ e ∈ new, ¬(e matches .fault _ _)

/-- Between two published versions `retain` apart, every version was published. -/
def Keeping (retain : Nat) (published : List Nat) : Prop :=
  ∀ v ∈ published, v + retain ∈ published → ∀ k < retain, v + k ∈ published

/-- A version that has left the window was evicted: the version `retain` above it was published. -/
def Evicting (retain : Nat) (published : List Nat) : Prop :=
  ∀ v ∈ published, ∀ newest ∈ published, v + retain ≤ newest → v + retain ∈ published

instance (retain : Nat) (published : List Nat) : Decidable (Keeping retain published) := by
  unfold Keeping
  infer_instance

instance (retain : Nat) (published : List Nat) : Decidable (Evicting retain published) := by
  unfold Evicting
  infer_instance

def newer (published : List Nat) (v : Nat) : Nat :=
  (published.filter fun u => v < u).length

variable {new : List Nat}

theorem newer_mono {old} (h : old <:+ new) (v : Nat) : newer old v ≤ newer new v :=
  (h.sublist.filter _).length_le

variable {retain v : Nat}

theorem newer_of_surplus {versions} (nodup : versions.Nodup)
    (h : v ∈ surplusVersions retain versions) : retain ≤ newer versions v := by
  have perm := sortByKey_perm id versions
  have sorted : (sortByKey id versions).Pairwise fun a b => a < b :=
    ((sortByKey_pairwise id versions).and (perm.nodup_iff.2 nodup)).imp
      fun ⟨le, ne⟩ => Nat.lt_of_le_of_ne le ne
  unfold surplusVersions at h
  generalize eq : versions.length - retain = surplus at h
  rw [← take_append_drop surplus (sortByKey id versions)] at sorted
  have above := (pairwise_append.1 sorted).2.2 v h
  have kept : ((sortByKey id versions).drop surplus).length ≤ newer (sortByKey id versions) v := by
    rw [newer, ← filter_eq_self.2 fun u mem => decide_eq_true (above u mem)]
    exact ((drop_sublist _ _).filter _).length_le
  have count : newer (sortByKey id versions) v = newer versions v := (perm.filter _).length_eq
  have length := perm.length_eq
  have some : 0 < surplus := by
    rcases Nat.eq_zero_or_pos surplus with rfl | pos
    · simp at h
    · exact pos
  rw [length_drop] at kept
  omega

theorem newer_of_take {published} (falling : published.Pairwise fun a b => b < a)
    (h : v ∈ published.take retain) : newer published v < retain := by
  induction published generalizing retain with
  | nil => simp at h
  | cons top rest ih =>
    obtain ⟨below, falling⟩ := pairwise_cons.1 falling
    cases retain with
    | zero => simp at h
    | succ retain =>
      rw [take_succ_cons, mem_cons] at h
      rcases h with rfl | later
      · have none : (v :: rest).filter (fun u => v < u) = [] := by
          rw [filter_eq_nil_iff]
          intro u mem
          rcases mem_cons.1 mem with rfl | later
          · simp
          · have := below u later
            simp only [decide_eq_true_eq]
            omega
        rw [newer, none]
        exact Nat.succ_pos _
      · have above := below v (mem_of_mem_take later)
        have := ih falling later
        rw [newer] at this ⊢
        rw [filter_cons_of_pos (by simpa using above), length_cons]
        omega

theorem Keeping.newer {published} (h : Keeping retain published) (mem : v ∈ published)
    (evicted : v + retain ∈ published) : retain ≤ newer published v := by
  have window : range' (v + 1) retain ⊆ published.filter fun u => v < u := by
    intro u within
    rw [mem_range'_1] at within
    rw [mem_filter, decide_eq_true_eq]
    refine ⟨?_, by omega⟩
    rcases Nat.lt_or_ge (u - v) retain with inside | edge
    · have := h v mem evicted (u - v) inside
      rwa [Nat.add_sub_cancel' (by omega)] at this
    · have eq : u = v + retain := by omega
      rwa [eq]
  have := (subperm_of_subset nodup_range' window).length_le
  rwa [length_range'] at this

def PubStage.unrecorded : PubStage → List ReplicaId
  | .putting _ todo => todo
  | .recording _ replica todo => replica :: todo
  | _ => []

/-- The publication of `version` has not yet deleted what it evicts from the replica. -/
def PubStage.evicts (replica : ReplicaId) (version : Nat) : PubStage → Prop
  | .putting view _ => view.version = version
  | .recording view _ _ => view.version = version
  | .evicting mine todo => mine = version ∧ replica ∈ todo
  | _ => False

variable {C : L0Config R} {x : ReplicaId} {start w w' : World R}
  {mine mine' other : PubStage} {published : List Nat}

/-- What a publication relies on at each stage. -/
structure StageOk (C : L0Config R) (x : ReplicaId) (published : List Nat) (l : PubStage) :
    Prop where
  writing : ∀ view todo, l.pub = some (.writing view todo) →
    0 < view.version ∧ (x ∈ l.unrecorded ∨ view.version ∈ published)
  evicting : ∀ version todo, l = .evicting version todo → version ∈ published
  doomed : ∀ doomed todo, l = .deleting x doomed todo →
    ∀ v ∈ doomed, C.manifestRetain ≤ newer published v

theorem StageOk.mono (h : StageOk C x published mine) (grown : published <:+ new) :
    StageOk C x new mine where
  writing := fun view todo eq => (h.writing view todo eq).imp id (.imp id (grown.subset ·))
  evicting := fun version todo eq => grown.subset (h.evicting version todo eq)
  doomed := fun doomed todo eq v mem => Nat.le_trans (h.doomed doomed todo eq v mem)
    (newer_mono grown v)

theorem StageOk.free : StageOk C x published .free := ⟨nofun, nofun, nofun⟩

theorem StageOk.holding (view : Manifest) : StageOk C x published (.holding view) :=
  ⟨nofun, nofun, nofun⟩

theorem StageOk.sweepStage (todo : List ReplicaId) : StageOk C x published (sweepStage todo) := by
  cases todo with
  | nil => exact .free
  | cons _ _ => exact ⟨nofun, nofun, nofun⟩

variable {version : Nat}

theorem StageOk.evictStage (h : version ∈ published) (todo : List ReplicaId) :
    StageOk C x published (evictStage C version todo) := by
  unfold Proof.evictStage
  split
  · refine ⟨nofun, ?_, nofun⟩
    intro _ _ eq
    cases eq
    exact h
  · exact .sweepStage _

variable {replica : ReplicaId}

theorem StageOk.deleteStage {doomed} (todo : List ReplicaId)
    (h : replica = x → ∀ v ∈ doomed, C.manifestRetain ≤ newer published v) :
    StageOk C x published (deleteStage replica todo doomed) := by
  cases doomed with
  | nil => exact .sweepStage _
  | cons v doomed =>
    refine ⟨nofun, nofun, ?_⟩
    intro _ _ eq
    cases eq
    exact h rfl

variable {todo : List ReplicaId}

/-- A publication that has put its snapshots goes on to delete what it evicts, if that is a
version at all. -/
theorem evictStage_evicts (retain : 0 < C.manifestRetain) (some : C.manifestRetain < version)
    (listed : x ∈ todo) : (evictStage C version todo).evicts x version := by
  have evicted : evictions C version = [version - C.manifestRetain] := if_neg (by omega)
  unfold evictStage
  rw [evicted]
  cases todo with
  | nil => cases listed
  | cons replica todo => exact ⟨rfl, listed⟩

theorem PubStage.evicts_unique (l : PubStage) (x : ReplicaId) :
    ∃ version, ∀ v, l.evicts x v → v = version := by
  cases l with
  | putting view todo => exact ⟨view.version, fun _ eq => eq.symm⟩
  | recording view replica todo => exact ⟨view.version, fun _ eq => eq.symm⟩
  | evicting version todo => exact ⟨version, fun _ eq => eq.1.symm⟩
  | _ => exact ⟨0, nofun⟩

/-- The snapshots of the replica `x` against the versions that were published to it, newest
first. -/
structure SnapshotInv (C : L0Config R) (x : ReplicaId) (w : World R) (mine other : PubStage)
    (published : List Nat) : Prop where
  versions : Versions C w mine.pub other.pub
  falling : published.Pairwise fun a b => b < a
  bounded : ∀ v ∈ published, 0 < v ∧ v ≤ w.engine.published
  listed : ∀ v ∈ snapshots x w, v ∈ published
  kept : ∀ v ∈ published, v ∈ snapshots x w ∨ v + C.manifestRetain ∈ published ∨
    C.manifestRetain ≤ newer published v
  pending : ∀ v ∈ snapshots x w, v + C.manifestRetain ∈ published →
    mine.evicts x (v + C.manifestRetain) ∨ other.evicts x (v + C.manifestRetain)
  mine : StageOk C x published mine
  other : StageOk C x published other

theorem recorded_of_subset (h : snapshots x w' ⊆ snapshots x w) : recorded x w w' = [] := by
  rw [recorded, filter_eq_nil_iff]
  intro v mem
  simpa using h mem

variable {view : Manifest}

namespace SnapshotInv

section

variable (h : SnapshotInv C x w mine other published)
include h

theorem symm : SnapshotInv C x w other mine published where
  versions := h.versions.symm
  falling := h.falling
  bounded := h.bounded
  listed := h.listed
  kept := h.kept
  pending := fun v mem evicted => (h.pending v mem evicted).symm
  mine := h.other
  other := h.mine

theorem quiet
    (versions : Versions C w' mine'.pub other.pub) (same : snapshots x w' = snapshots x w)
    (forward : w.engine.published ≤ w'.engine.published) (stage : StageOk C x published mine')
    (evicts : ∀ v ∈ snapshots x w, 0 < v → mine.evicts x (v + C.manifestRetain) →
      mine'.evicts x (v + C.manifestRetain)) :
    SnapshotInv C x w' mine' other (recorded x w w' ++ published) := by
  rw [recorded_of_subset (by rw [same]; exact fun _ mem => mem), nil_append]
  refine ⟨versions, h.falling, ?_, ?_, ?_, ?_, stage, h.other⟩
  · exact fun v mem => (h.bounded v mem).imp id (Nat.le_trans · forward)
  · rw [same]
    exact h.listed
  · rw [same]
    exact h.kept
  · rw [same]
    intro v mem evicted
    exact (h.pending v mem evicted).imp (evicts v mem (h.bounded v (h.listed v mem)).1) id

theorem erase (versions : Versions C w' mine'.pub other.pub)
    (erased : snapshots x w' = (snapshots x w).erase version)
    (same : w'.engine.published = w.engine.published)
    (old : version + C.manifestRetain ∈ published ∨ C.manifestRetain ≤ newer published version)
    (stage : StageOk C x published mine')
    (evicts : ∀ v ∈ snapshots x w, v ≠ version → mine.evicts x (v + C.manifestRetain) →
      mine'.evicts x (v + C.manifestRetain)) :
    SnapshotInv C x w' mine' other (recorded x w w' ++ published) := by
  have nodup : (snapshots x w).Nodup := (w.replicas x).versions.keys_nodup
  have left (v : Nat) : v ∈ snapshots x w' ↔ v ≠ version ∧ v ∈ snapshots x w := by
    rw [erased, nodup.mem_erase_iff]
  rw [recorded_of_subset fun v mem => ((left v).1 mem).2, nil_append]
  refine ⟨versions, h.falling, by rw [same]; exact h.bounded, ?_, ?_, ?_, stage, h.other⟩
  · exact fun v mem => h.listed v ((left v).1 mem).2
  · intro v mem
    by_cases is : v = version
    · exact .inr (is ▸ old)
    · exact (h.kept v mem).imp (fun here => (left v).2 ⟨is, here⟩) id
  · intro v mem evicted
    obtain ⟨ne, mem⟩ := (left v).1 mem
    exact (h.pending v mem evicted).imp (evicts v mem ne) id

theorem fresh (retain : 0 < C.manifestRetain)
    (is : v = w.engine.published) (absent : v ∉ snapshots x w) : ∀ u ∈ published, u < v := by
  have unlisted : v ∉ published := by
    intro mem
    rcases h.kept v mem with here | evicted | swept
    · exact absent here
    · have := (h.bounded _ evicted).2
      omega
    · have none : published.filter (fun u => v < u) = [] := by
        rw [filter_eq_nil_iff]
        intro u mem
        have := (h.bounded u mem).2
        simp only [decide_eq_true_eq]
        omega
      rw [newer, none] at swept
      exact absurd swept (Nat.not_le.2 retain)
  intro u mem
  have le := (h.bounded u mem).2
  have ne : u ≠ v := fun eq => unlisted (eq ▸ mem)
  omega

end

theorem record (h : SnapshotInv C x w (.recording view x todo) other published)
    (retain : 0 < C.manifestRetain) (absent : view.version ∉ snapshots x w)
    (versions : Versions C w' (PubStage.putting view todo).pub other.pub)
    (added : snapshots x w' = view.version :: snapshots x w)
    (same : w'.engine.published = w.engine.published) :
    SnapshotInv C x w' (.putting view todo) other (recorded x w w' ++ published) := by
  have is : view.version = w.engine.published := (h.versions.written _ _ (.inl rfl)).1
  have below := h.fresh retain is absent
  have new : recorded x w w' = [view.version] := by
    have none : (snapshots x w).filter (fun v => v ∉ snapshots x w) = [] := by
      simp [filter_eq_nil_iff]
    rw [recorded, added, filter_cons_of_pos (by simpa using absent), none]
  have grown : published <:+ view.version :: published := suffix_cons _ _
  rw [new, singleton_append]
  refine ⟨versions, pairwise_cons.2 ⟨below, h.falling⟩, ?_, ?_, ?_, ?_, ?_, h.other.mono grown⟩
  · intro v mem
    rw [same]
    rcases mem_cons.1 mem with rfl | old
    · exact ⟨(h.mine.writing _ _ rfl).1, Nat.le_of_eq is⟩
    · exact h.bounded v old
  · intro v mem
    rw [added] at mem
    exact mem_cons.2 ((mem_cons.1 mem).imp id (h.listed v))
  · intro v mem
    rw [added]
    rcases mem_cons.1 mem with rfl | old
    · exact .inl mem_cons_self
    · exact (h.kept v old).imp (.tail _ ·)
        (.imp (.tail _ ·) (Nat.le_trans · (newer_mono grown v)))
  · intro v mem evicted
    rw [added] at mem
    rcases mem_cons.1 mem with rfl | old
    · -- Nothing is published above the view, so nothing evicts it yet.
      rcases mem_cons.1 evicted with eq | old
      · omega
      · have := below _ old
        omega
    · rcases mem_cons.1 evicted with eq | older
      · exact .inl eq.symm
      · exact (h.pending v old older).imp id id
  · refine ⟨?_, nofun, nofun⟩
    intro _ _ eq
    cases eq
    exact ⟨(h.mine.writing _ _ rfl).1, .inr mem_cons_self⟩

end SnapshotInv

variable {req : Request}

theorem NoFault.not_fault (h : NoFault start w') (grown : start.trace <:+ w.trace)
    (eq : w'.trace = .fault replica req :: w.trace) : False := by
  obtain ⟨new, old⟩ := grown
  refine h (.fault replica req :: new) ?_ _ mem_cons_self rfl
  rw [eq, ← old, cons_append]

theorem Asks.effect {effect} (h : Asks replica req effect w w')
    (faultless : NoFault start w') (grown : start.trace <:+ w.trace)
    (quiet : (effect w).trace = w.trace) : w' = effect w := by
  cases h with
  | done => rfl
  | failed => exact (faultless.not_fault grown rfl).elim
  | unsure => exact (faultless.not_fault grown (by rw [World.log_trace, quiet])).elim

theorem snapshots_deleteVersion_other (ne : replica ≠ x) (version : Nat) :
    snapshots x (World.deleteVersion replica version w) = snapshots x w := by
  rw [snapshots, World.deleteVersion, World.withReplica_replicas, if_neg ne.symm]

theorem snapshots_deleteVersion (version : Nat) :
    snapshots x (World.deleteVersion x version w) = (snapshots x w).erase version := by
  rw [snapshots, World.deleteVersion, World.withReplica_replicas, if_pos rfl, AList.keys_erase]

section

variable (h : SnapshotInv C x w mine other published)

include h

theorem SnapshotInv.snapshotStep
    (retain : 0 < C.manifestRetain) (grown : start.trace <:+ w.trace) (faultless : NoFault start w')
    (step : SnapshotStep C w mine w' mine') :
    SnapshotInv C x w' mine' other (recorded x w w' ++ published) := by
  have versions := h.versions.stageStep (.snapshot step)
  cases step with
  | @putVersion _ view y todo asked =>
    obtain rfl := asked.effect faultless grown rfl
    by_cases here : y = x
    · subst here
      by_cases present : view.version ∈ snapshots y w
      · refine h.quiet versions ?_ (Nat.le_refl _) ⟨?_, nofun, nofun⟩ fun _ _ _ evicts => evicts
        · have found : ((w.replicas y).versions.lookup view.version).isSome = true :=
            AList.lookup_isSome.2 (AList.mem_keys.2 present)
          simp [snapshots, World.putVersion, World.withReplica_replicas, found]
        intro _ _ eq
        cases eq
        exact ⟨(h.mine.writing _ _ rfl).1, .inr (h.listed _ present)⟩
      · refine h.record retain present versions ?_ rfl
        have missing : ¬((w.replicas y).versions.lookup view.version).isSome = true :=
          fun found => present (AList.mem_keys.1 (AList.lookup_isSome.1 found))
        rw [snapshots, World.putVersion, World.withReplica_replicas, if_pos rfl, if_neg missing]
        simp [AList.keys_insert, erase_of_not_mem present]
    · refine h.quiet versions ?_ (Nat.le_refl _) ⟨?_, nofun, nofun⟩ fun _ _ _ evicts => evicts
      · rw [snapshots, World.putVersion, World.withReplica_replicas, if_neg (Ne.symm here)]
      intro _ _ eq
      cases eq
      refine (h.mine.writing _ _ rfl).imp id (.imp (fun mem => ?_) id)
      exact (mem_cons.1 mem).resolve_left (Ne.symm here)
  | @evict _ version evicted y todo one asked =>
    obtain rfl := asked.effect faultless grown rfl
    have put := h.mine.evicting _ _ rfl
    have is : version = evicted + C.manifestRetain := by
      unfold evictions at one
      split at one
      · cases one
      · cases one
        omega
    by_cases here : y = x
    · subst here
      refine h.erase versions (snapshots_deleteVersion _) rfl (.inl (is ▸ put))
        (.evictStage put _) ?_
      intro v _ ne evicts
      have : version = v + C.manifestRetain := evicts.1
      omega
    · refine h.quiet versions (snapshots_deleteVersion_other here _) (Nat.le_refl _)
        (.evictStage put _) ?_
      intro v _ some evicts
      obtain ⟨eq, mem⟩ := evicts
      rw [← eq]
      exact evictStage_evicts retain (by omega)
        ((mem_cons.1 mem).resolve_left (Ne.symm here))
  | @list y todo =>
    refine h.quiet versions rfl (Nat.le_refl _) (.deleteStage _ ?_) nofun
    rintro rfl v doomed
    have nodup : (snapshots y w).Nodup := (w.replicas y).versions.keys_nodup
    exact (newer_of_surplus nodup doomed).trans
      (subperm_of_subset (nodup.filter _) (filter_subset _ h.listed)).length_le
  | unlisted => exact (faultless.not_fault grown rfl).elim
  | @delete _ y version doomed todo asked =>
    obtain rfl := asked.effect faultless grown rfl
    by_cases here : y = x
    · subst here
      have old := h.mine.doomed _ _ rfl
      exact h.erase versions (snapshots_deleteVersion _) rfl
        (.inr (old version mem_cons_self))
        (.deleteStage _ fun _ v mem => old v (.tail _ mem)) nofun
    · exact h.quiet versions (snapshots_deleteVersion_other here _) (Nat.le_refl _)
        (.deleteStage _ fun eq => absurd eq here) nofun

theorem SnapshotInv.stageStep
    (retain : 0 < C.manifestRetain) (replica : x ∈ C.replicas) (grown : start.trace <:+ w.trace)
    (faultless : NoFault start w') (step : StageStep C w mine w' mine') :
    SnapshotInv C x w' mine' other (recorded x w w' ++ published) := by
  have versions := h.versions.stageStep step
  cases step with
  | stale _ _ => exact h.quiet versions rfl (Nat.le_refl _) .free nofun
  | @acquire view _ newer =>
    refine h.quiet versions rfl (Nat.le_of_lt newer) ⟨?_, nofun, nofun⟩ nofun
    intro _ _ eq
    cases eq
    exact ⟨Nat.zero_lt_of_lt newer, .inl replica⟩
  | putLatest asked =>
    obtain rfl := asked.effect faultless grown rfl
    refine h.quiet versions ?_ (Nat.le_refl _) ⟨?_, nofun, nofun⟩ fun _ _ _ evicts => evicts
    · rw [snapshots, World.putLatest, World.withReplica_replicas]
      split <;> rfl
    intro _ _ eq
    cases eq
    exact h.mine.writing _ _ rfl
  | @release view =>
    have put : view.version ∈ published := (h.mine.writing view [] rfl).2.resolve_left not_mem_nil
    refine h.quiet versions rfl (Nat.le_refl _) (.evictStage put _) ?_
    intro v _ some evicts
    have is : view.version = v + C.manifestRetain := evicts
    rw [← is]
    exact evictStage_evicts retain (by omega) replica
  | snapshot step => exact h.snapshotStep retain grown faultless step

theorem SnapshotInv.move
    (retain : 0 < C.manifestRetain) (replica : x ∈ C.replicas) (grown : start.trace <:+ w.trace)
    (faultless : NoFault start w') (step : PubMove C w mine w' mine') :
    SnapshotInv C x w' mine' other (recorded x w w' ++ published) := by
  have versions := h.versions.pubMove step
  cases step with
  | other neutral =>
    exact h.quiet versions (by rw [snapshots, neutral.versions])
      (Nat.le_of_eq neutral.published.symm)
      h.mine fun _ _ _ evicts => evicts
  | take mutates =>
    exact h.quiet versions (by rw [snapshots, mutates.replicas])
      (Nat.le_of_eq mutates.published.symm) (.holding _) nofun
  | stage step => exact h.stageStep retain replica grown faultless step

end

theorem NoFault.before (h : NoFault start w') (grown : w.trace <:+ w'.trace) : NoFault start w := by
  intro new eq e mem
  obtain ⟨more, eq'⟩ := grown
  refine h (more ++ new) ?_ e (mem_append_right _ mem)
  rw [← eq', eq, append_assoc]

theorem NoFault.of_trace (h : ∀ e ∈ w.trace, ¬(e matches .fault _ _)) : NoFault start w :=
  fun _ eq e mem => h e (eq ▸ mem_append_left _ mem)

theorem snapshotInv {m u} (retain : 0 < C.manifestRetain) (replica : x ∈ C.replicas)
    (current : Versions C start none none) (empty : snapshots x start = [])
    (reach : PubReach C (recorded x) start w m u published) (faultless : NoFault start w) :
    SnapshotInv C x w m u published := by
  induction reach with
  | start => exact ⟨current, .nil, by simp, by simp [empty], by simp, by simp, .free, .free⟩
  | main before step ih =>
    exact (ih (faultless.before step.trace)).move retain replica before.trace faultless step
  | upload before step ih =>
    exact ((ih (faultless.before step.trace)).symm.move retain replica before.trace faultless
      step).symm

namespace SnapshotInv

theorem length_le_late (h : SnapshotInv C x w mine other published)
    (evicting : Evicting C.manifestRetain published) (late : List Nat)
    (waits : ∀ v, mine.evicts x v ∨ other.evicts x v → v ∈ late) :
    (snapshots x w).length ≤ late.length + C.manifestRetain := by
  cases eq : published with
  | nil =>
    have none : snapshots x w = [] :=
      eq_nil_iff_forall_not_mem.2 fun v mem => by simpa [eq] using h.listed v mem
    rw [none]
    exact Nat.zero_le _
  | cons newest older =>
    have top : newest ∈ published := eq ▸ mem_cons_self
    have highest : ∀ v ∈ published, v ≤ newest := by
      intro v mem
      rw [eq] at mem
      rcases mem_cons.1 mem with rfl | old
      · exact Nat.le_refl _
      · exact Nat.le_of_lt ((pairwise_cons.1 (eq ▸ h.falling)).1 v old)
    have within : snapshots x w ⊆ late.map (· - C.manifestRetain) ++
        range' (newest + 1 - C.manifestRetain) C.manifestRetain := by
      intro v mem
      have published := h.listed v mem
      have le := highest v published
      rw [mem_append]
      rcases Nat.lt_or_ge newest (v + C.manifestRetain) with inside | left
      · rw [mem_range'_1]
        omega
      · have evicted := evicting v published newest top left
        exact .inl (mem_map.2 ⟨_, waits _ (h.pending v mem evicted), Nat.add_sub_cancel _ _⟩)
    have := (subperm_of_subset (w.replicas x).versions.keys_nodup within).length_le
    rwa [length_append, length_map, length_range'] at this

theorem length_le (h : SnapshotInv C x w mine other published)
    (evicting : Evicting C.manifestRetain published) :
    (snapshots x w).length ≤ C.manifestRetain + 2 := by
  obtain ⟨a, first⟩ := mine.evicts_unique x
  obtain ⟨b, second⟩ := other.evicts_unique x
  have := h.length_le_late evicting [a, b] fun v evicts => by
    rcases evicts with evicts | evicts
    · simp [first v evicts]
    · simp [second v evicts]
  simpa [Nat.add_comm] using this

theorem length_le_of_free (h : SnapshotInv C x w mine .free published)
    (evicting : Evicting C.manifestRetain published) :
    (snapshots x w).length ≤ C.manifestRetain + 1 := by
  obtain ⟨a, first⟩ := mine.evicts_unique x
  have := h.length_le_late evicting [a] fun v evicts => by
    simp [first v (evicts.resolve_right nofun)]
  simpa [Nat.add_comm] using this

end SnapshotInv

end Ehdb.Proof
