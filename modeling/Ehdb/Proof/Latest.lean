import Ehdb.Proof.Publish

/-! `PubMove` says what one action does to what publications read and write; every other action is
`Neutral`. -/

namespace Ehdb.Proof

open L0 ProofKit List

variable {R : Type}

/-- What publications neither read nor write is changed at most, or a part is sealed. -/
structure Neutral (w w' : World R) : Prop where
  latest : ∀ r, (w'.replicas r).latest = (w.replicas r).latest
  versions : ∀ r, (w'.replicas r).versions = (w.replicas r).versions
  published : w'.engine.published = w.engine.published
  publishing : w'.engine.publishing = w.engine.publishing
  manifest : w'.engine.manifest = w.engine.manifest ∨
    ∃ row, row.replicas = [] ∧ w'.engine.manifest = w.engine.manifest.pushPart row
  trace : w.trace <:+ w'.trace

/-- The manifest takes one new version other than by a seal. -/
structure Mutates (w w' : World R) : Prop where
  replicas : w'.replicas = w.replicas
  published : w'.engine.published = w.engine.published
  publishing : w'.engine.publishing = w.engine.publishing
  version : w'.engine.manifest.version = w.engine.manifest.version + 1
  notSeal : ∀ row, row.replicas = [] → w'.engine.manifest ≠ w.engine.manifest.pushPart row
  trace : w.trace <:+ w'.trace

/-- The moves of one task as its publication sees them. -/
inductive PubMove (C : L0Config R) : World R → PubStage → World R → PubStage → Prop where
  | other {w w' l} : Neutral w w' → PubMove C w l w' l
  | take {w w'} : Mutates w w' → PubMove C w .free w' (.holding w'.engine.manifest.durableView)
  | stage {w w' l l'} : StageStep C w l w' l' → PubMove C w l w' l'

variable {C : L0Config R} {w w' : World R} {m m' : MainTask R} {u u' : UpTask}
  {replica : ReplicaId} {key : PartKey} {bytes : Bytes} {flag : Bool}

theorem Neutral.of_engine (replicas : w'.replicas = w.replicas)
    (published : w'.engine.published = w.engine.published)
    (publishing : w'.engine.publishing = w.engine.publishing)
    (manifest : w'.engine.manifest = w.engine.manifest) (trace : w.trace <:+ w'.trace) :
    Neutral w w' :=
  ⟨fun _ => by rw [replicas], fun _ => by rw [replicas], published, publishing, .inl manifest,
    trace⟩

theorem Neutral.of_same (h : SameCatalog w w') (trace : w.trace <:+ w'.trace) : Neutral w w' :=
  ⟨h.latest, h.versions, h.published, h.publishing, .inl h.manifest, trace⟩

theorem Neutral.of_parts (latest : ∀ r, (w'.replicas r).latest = (w.replicas r).latest)
    (versions : ∀ r, (w'.replicas r).versions = (w.replicas r).versions)
    (engine : w'.engine = w.engine) (trace : w.trace <:+ w'.trace) : Neutral w w' :=
  ⟨latest, versions, by rw [engine], by rw [engine], .inl (by rw [engine]), trace⟩

theorem Attempt.versions {effect} (h : Attempt effect w w' flag)
    (same : ∀ r, ((effect w).replicas r).versions = (w.replicas r).versions) (r : ReplicaId) :
    (w'.replicas r).versions = (w.replicas r).versions := by
  cases h with
  | done => exact same r
  | failed => rfl
  | unsure => exact same r

theorem Attempt.putPart_neutral (h : Attempt (World.putPart replica key bytes) w w' flag)
    (trace : w.trace <:+ w'.trace) : Neutral w w' := by
  refine .of_parts h.putPart_latest (h.versions fun r => ?_) h.putPart_engine trace
  rw [World.putPart, World.log_replicas, withReplica_field (·.versions)]
  exact fun _ => rfl

theorem length_setReplicas (partId : PartId) (locations : List ReplicaLocation)
    (parts : List PartMeta) : (setReplicas partId locations parts).length = parts.length := by
  induction parts with
  | nil => rfl
  | cons p rest ih =>
    rw [setReplicas]
    split
    · rfl
    · simp [ih]

theorem MainStep.pubMove (hand : ∀ part ∈ m.inHand, part.row.replicas = []) (serves : m ≠ .down)
    (step : MainStep C w m w' m') : PubMove C w m.stage w' m'.stage := by
  have grown := step.trace
  cases step.catalog hand with
  | quiet same stage _ _ _ =>
    rw [stage]
    exact .other (.of_same same grown)
  | load _ => exact absurd rfl serves
  | push none push stage stage' _ _ _ _ =>
    rw [stage, stage']
    exact .other ⟨fun _ => by rw [push.replicas], fun _ => by rw [push.replicas], push.published,
      push.publishing, .inr ⟨_, none, push.manifest⟩, grown⟩
  | put asked => exact .other (asked.putPart_neutral grown)
  | swap ne =>
    refine .take ⟨rfl, rfl, rfl, rfl, fun sealed unreplicated same => ?_, suffix_rfl⟩
    have last := congrArg (fun m => m.parts.getLast?) same
    simp only [World.swapMerged, World.withManifest_engine, Manifest.pushPart,
      getLast?_append, getLast?_singleton, Option.some_or, Option.some.injEq] at last
    exact ne ((congrArg PartMeta.replicas last).trans unreplicated)
  | @drop plan =>
    refine .take ⟨rfl, rfl, rfl, rfl, fun row _ same => ?_, suffix_cons _ _⟩
    have lengths := congrArg (fun m => m.parts.length) same
    have fewer := length_filter_le (fun p => decide (p.partId ∉ plan.dropIds))
      w.engine.manifest.parts
    simp only [World.dropRetained, World.log_engine, World.withManifest_engine, Manifest.pushPart,
      length_append, length_singleton] at lengths
    omega
  | reclaim => exact .other (.of_same ((SameCatalog.refl w).log _) grown)
  | deletePart _ asked =>
    refine .other (.of_parts asked.deletePart_latest (asked.versions fun r => ?_)
      asked.deletePart_engine grown)
    rw [World.deletePart, withReplica_field (·.versions)]
    exact fun _ => rfl
  | publish staged => exact .stage staged

theorem UpStep.pubMove (step : UpStep C w u w' u') : PubMove C w u.stage w' u'.stage := by
  have grown := step.trace
  cases step with
  | aside step => exact .other (.of_same step.sameCatalog grown)
  | read | missing | unread | lost | close => exact .other (.of_engine rfl rfl rfl rfl grown)
  | put step => exact .other (step.putPart_neutral grown)
  | record _ =>
    refine .take ⟨rfl, rfl, rfl, rfl, fun row _ same => ?_, suffix_rfl⟩
    have lengths := congrArg (fun m => m.parts.length) same
    simp [World.recordReplicas, length_setReplicas, Manifest.pushPart] at lengths
  | publish step => exact .stage step

/-! The states that an open engine gets into while it is not stopped, with how far its two threads
are in a publication. `observed` collects what a run shows from one state to the next. -/

variable {γ : Type} {see : World R → World R → List γ}

structure AtRest (s : Session R) : Prop where
  serving : s.status = .serving
  idle : s.idle = true
  noUpload : s.up = none

def observed (C : L0Config R) (see : World R → World R → List γ) :
    Session R → List (Label R) → List γ
  | _, [] => []
  | s, label :: rest =>
    observed C see (s.step C label) rest ++ see s.world (s.step C label).world

theorem observed_append (s : Session R) (schedule : List (Label R)) (label : Label R) :
    observed C see s (schedule ++ [label]) =
      see (s.run C schedule).world ((s.run C schedule).step C label).world ++
        observed C see s schedule := by
  induction schedule generalizing s with
  | nil => simp [observed, Session.run]
  | cons first rest ih =>
    simp only [cons_append, observed, ih (s.step C first), append_assoc]
    rfl

/-- The states a running engine can get into, with how far its threads are in a publication and
what was seen on the way. -/
inductive PubReach (C : L0Config R) (see : World R → World R → List γ) (start : World R) :
    World R → PubStage → PubStage → List γ → Prop where
  | start : PubReach C see start start .free .free []
  | main {w w' m m' u seen} : PubReach C see start w m u seen → PubMove C w m w' m' →
      PubReach C see start w' m' u (see w w' ++ seen)
  | upload {w w' m u u' seen} : PubReach C see start w m u seen → PubMove C w u w' u' →
      PubReach C see start w' m u' (see w w' ++ seen)

/-- A serving session run from `start`, with what was seen on the way. -/
structure PubTracks (C : L0Config R) (see : World R → World R → List γ) (start : World R)
    (s : Session R) (m : MainTask R) (u : UpTask) (seen : List γ) : Prop where
  reach : PubReach C see start s.world m.stage u.stage seen
  serving : s.status = .serving
  caller : Follows (CallerStep C) s.main (fun _ m => m.Rests) m
  isOpen : m ≠ .down
  hand : ∀ part ∈ m.inHand, part.row.replicas = []
  uploader : Session.UploaderAt C s u

variable {start : World R} {s : Session R} {seen : List γ}

theorem PubTracks.rests_of_idle (h : PubTracks C see start s m u seen) (idle : s.idle = true) :
    m.Rests := by
  have caller := h.caller
  rw [Session.idle] at idle
  split at idle
  · rename_i ended
    rw [ended] at caller
    exact caller
  · cases idle

theorem PubTracks.uploads_none (h : PubTracks C see start s m u seen) (none : s.up = none) :
    u = .idle := by
  simpa [Session.UploaderAt, none] using h.uploader

theorem PubTracks.call (quiet : ∀ w, see w w = []) (h : PubTracks C see start s m u seen)
    (op : Op R) : ∃ m u, PubTracks C see start (s.step C (.call op)) m u
      (see s.world (s.step C (.call op)).world ++ seen) := by
  unfold Session.step
  dsimp only
  split
  · rename_i ready
    have rests := h.rests_of_idle (Bool.and_eq_true_iff.1 ready).1
    rw [h.serving]
    split
    · rename_i down
      cases down
    · rename_i serves _
      refine ⟨.serving [], u, ?_, rfl, Op.program_follows op serves, nofun, nofun, h.uploader⟩
      have reach := h.reach
      rw [rests.stage_free] at reach
      rw [quiet]
      exact reach
    · exact ⟨m, u, by simpa [quiet] using h⟩
  · exact ⟨m, u, by simpa [quiet] using h⟩

theorem settle_serving (s : Session R) (serving : s.status = .serving) : s.settle C = s := by
  unfold Session.settle
  rw [serving]

theorem MainStep.stays_open {w w' m m'} (step : MainStep C w m w' m')
    (isOpen : m ≠ .down) : m' ≠ .down := fun down => isOpen (step.to_down down).1

/-- A call that begins takes up no publication. -/
theorem CallerStep.pubMove {w w' m m'} (isOpen : m ≠ .down)
    (hand : ∀ part ∈ m.inHand, part.row.replicas = []) (step : CallerStep C w m w' m') :
    PubMove C w m.stage w' m'.stage ∧ m' ≠ .down ∧ ∀ part ∈ m'.inHand, part.row.replicas = [] := by
  cases step with
  | same step =>
    exact ⟨step.pubMove hand isOpen, step.stays_open isOpen, inHand_of_mainStep hand step⟩
  | next rests step =>
    have nothing : ∀ part ∈ (MainTask.serving (R := R) []).inHand, part.row.replicas = [] := nofun
    rw [rests.stage_free]
    exact ⟨step.pubMove nothing nofun, step.stays_open nofun, inHand_of_mainStep nothing step⟩

theorem PubTracks.main (quiet : ∀ w, see w w = []) (h : PubTracks C see start s m u seen)
    (o : Outcome) : ∃ m u, PubTracks C see start (s.step C (.main o)) m u
      (see s.world (s.step C (.main o)).world ++ seen) := by
  unfold Session.step
  dsimp only
  split
  · rename_i w p stepped
    obtain ⟨m', step, next⟩ := h.caller.step stepped
    obtain ⟨move, isOpen, hand⟩ := step.pubMove h.isOpen h.hand
    rw [settle_serving _ (by exact h.serving)]
    exact ⟨m', u, h.reach.main move, h.serving, next, isOpen, hand, h.uploader⟩
  · exact ⟨m, u, by simpa [quiet] using h⟩

theorem PubTracks.upload (quiet : ∀ w, see w w = []) (h : PubTracks C see start s m u seen)
    (o : Outcome) : ∃ m u, PubTracks C see start (s.step C (.upload o)) m u
      (see s.world (s.step C (.upload o)).world ++ seen) := by
  have uploader := h.uploader
  unfold Session.UploaderAt at uploader
  unfold Session.step
  dsimp only
  split
  · rename_i p running
    rw [running] at uploader
    split
    · rename_i w a stepped
      obtain ⟨u', step, ended⟩ := uploader.step stepped
      exact ⟨m, u', h.reach.upload step.pubMove, h.serving, h.caller, h.isOpen, h.hand, ended⟩
    · rename_i w f k stepped
      obtain ⟨u', step, next⟩ := uploader.step stepped
      exact ⟨m, u', h.reach.upload step.pubMove, h.serving, h.caller, h.isOpen, h.hand, next⟩
    · exact ⟨m, u, by simpa [quiet] using h⟩
  · rename_i none
    rw [none] at uploader
    cases uploader
    split
    · exact ⟨m, .idle, by simpa [quiet] using h⟩
    · rename_i job rest queued
      -- The uploader takes the next job.
      have neutral : Neutral s.world
          ((s.world.withEngine fun e => { e with queue := rest }).log .uploadBegin) :=
        .of_engine rfl rfl rfl rfl (suffix_cons _ _)
      exact ⟨m, .reading job, h.reach.upload (.other neutral), h.serving, h.caller, h.isOpen,
        h.hand, uploadJob_follows C job⟩

theorem run_publishes (quiet : ∀ w, see w w = []) (rest : AtRest s) (schedule : List (Label R))
    (alive : ∀ b, .stop b ∉ schedule) :
    ∃ m u, PubTracks C see s.world (s.run C schedule) m u (observed C see s schedule) := by
  induction schedule using reverseRecOn with
  | nil =>
    refine ⟨.serving [], .idle, .start, rest.serving, ?_, nofun, nofun, ?_⟩
    · have idle := rest.idle
      rw [Session.idle] at idle
      show Follows (CallerStep C) s.main _ _
      split at idle
      · rename_i ended
        rw [ended]
        exact .serving
      · cases idle
    · rw [Session.UploaderAt, show (s.run C []).up = none from rest.noUpload]
  | append_singleton schedule label ih =>
    obtain ⟨m, u, h⟩ := ih fun b mem => alive b (mem_append_left _ mem)
    rw [observed_append, Session.run, foldl_append, foldl_cons, foldl_nil]
    cases label with
    | call op => exact h.call quiet op
    | main o => exact h.main quiet o
    | upload o => exact h.upload quiet o
    | stop b => exact absurd (mem_append_right _ mem_cons_self) (alive b)

/-! The views that were taken have rising versions; the newest has the durable parts of the manifest
in memory, and is either waiting to be published or the last one that was. -/

def viewTaken (w w' : World R) : List Manifest :=
  let before := w.engine.manifest
  let after := w'.engine.manifest
  if after = before ∨
      (after.parts.getLast?).any fun row => row.replicas = [] ∧ after = before.pushPart row then []
  else [after.durableView]

def latestVersion (replica : ReplicaId) (w : World R) : Nat :=
  ((w.replicas replica).latest.map Manifest.version).getD 0

def lowersLatest (replica : ReplicaId) (w w' : World R) : List Nat :=
  if latestVersion replica w' < latestVersion replica w then [latestVersion replica w'] else []

def PutsSucceed (replica : ReplicaId) (start w : World R) : Prop :=
  ∀ new, w.trace = new ++ start.trace → .fault replica .putLatest ∉ new

variable {C : L0Config R} {x : ReplicaId} {start w w' : World R} {m m' u other : PubStage}

theorem PutsSucceed.before (h : PutsSucceed x start w') (grown : w.trace <:+ w'.trace) :
    PutsSucceed x start w := by
  intro new eq mem
  obtain ⟨more, eq'⟩ := grown
  refine h (more ++ new) ?_ (mem_append_right _ mem)
  rw [← eq', eq, append_assoc]

theorem PutsSucceed.of_trace
    (h : ∀ e ∈ w.trace, ¬(e matches .fault _ .putLatest)) : PutsSucceed x start w := by
  intro new eq mem
  exact h _ (eq ▸ mem_append_left _ mem) rfl

theorem viewTaken_self (w : World R) : viewTaken w w = [] := by
  simp [viewTaken]

theorem viewTaken_neutral (h : Neutral w w') : viewTaken w w' = [] := by
  rcases h.manifest with same | ⟨row, unreplicated, pushed⟩
  · simp [viewTaken, same]
  · unfold viewTaken
    rw [if_pos]
    refine .inr ?_
    rw [pushed]
    simp [Manifest.pushPart, unreplicated]

theorem viewTaken_mutates (h : Mutates w w') :
    viewTaken w w' = [w'.engine.manifest.durableView] := by
  unfold viewTaken
  rw [if_neg]
  rintro (same | sealed)
  · have := h.version
    rw [same] at this
    omega
  · cases last : w'.engine.manifest.parts.getLast? with
    | none => simp [last] at sealed
    | some row =>
      simp only [last, Option.any_some, decide_eq_true_eq] at sealed
      exact h.notSeal row sealed.1 sealed.2

theorem viewTaken_same (h : w'.engine.manifest = w.engine.manifest) : viewTaken w w' = [] := by
  simp [viewTaken, h]

def PubStage.unwritten : PubStage → List ReplicaId
  | .putting _ todo => todo
  | .recording _ _ todo => todo
  | _ => []

theorem unwritten_of_pub {l l' : PubStage} (h : l'.pub = l.pub) : l'.unwritten = l.unwritten := by
  cases l <;> cases l' <;> cases h <;> rfl

theorem holding_of_pub {l : PubStage} {view : Manifest} (h : l.pub = some (.waiting view)) :
    l = .holding view := by
  cases l <;> cases h
  rfl

variable {replica : ReplicaId} {request : Request} {effect : World R → World R}

theorem Asks.trace (h : Asks replica request effect w w') (quiet : (effect w).trace = w.trace) :
    w.trace <:+ w'.trace := by
  cases h with
  | done =>
    exact quiet ▸ suffix_rfl
  | failed => exact suffix_cons _ _
  | unsure =>
    rw [World.log_trace, quiet]
    exact suffix_cons _ _

theorem PubMove.trace (step : PubMove C w m w' m') : w.trace <:+ w'.trace := by
  cases step with
  | other neutral => exact neutral.trace
  | take mutates => exact mutates.trace
  | stage step => exact step.grows.suffix

theorem PubReach.trace {γ : Type} {see} {seen : List γ}
    (h : PubReach C see start w m u seen) : start.trace <:+ w.trace := by
  induction h with
  | start => exact suffix_rfl
  | main _ step ih => exact ih.trans step.trace
  | upload _ step ih => exact ih.trans step.trace

theorem Versions.pubMove (h : Versions C w m.pub other.pub) (step : PubMove C w m w' m') :
    Versions C w' m'.pub other.pub := by
  cases step with
  | other neutral =>
    refine h.advance neutral.latest ?_ neutral.published neutral.publishing
    rcases neutral.manifest with same | ⟨row, -, pushed⟩
    · rw [same]
    · rw [pushed]
      exact Nat.le_succ _
  | take mutates =>
    refine Versions.wait ?_ (Nat.le_refl _)
    exact h.advance (fun _ => by rw [mutates.replicas]) (by rw [mutates.version]; omega)
      mutates.published mutates.publishing
  | stage step => exact h.stageStep step

theorem PubMove.latest_le (h : Versions C w m.pub other.pub) (listed : x ∈ C.replicas)
    (step : PubMove C w m w' m') : latestVersion x w ≤ latestVersion x w' := by
  have same (eq : (w'.replicas x).latest = (w.replicas x).latest) :
      latestVersion x w ≤ latestVersion x w' := by
    rw [latestVersion, latestVersion, eq]
  cases step with
  | other neutral => exact same (neutral.latest x)
  | take mutates => exact same (by rw [mutates.replicas])
  | stage step =>
    cases step with
    | stale | acquire | release => exact Nat.le_refl _
    | putLatest asked =>
      obtain ⟨flag, attempt⟩ := asked.attempt
      rcases attempt.putLatest_latest x with old | ⟨rfl, new⟩
      · exact same old
      · rw [latestVersion, latestVersion, new]
        cases before : (w.replicas x).latest with
        | none => exact Nat.zero_le _
        | some a =>
          have below := h.below x listed a before
          rw [← (h.written _ _ (.inl rfl)).1] at below
          exact below
    | snapshot step => exact same (step.beside.1.latest x)

theorem lowersLatest_eq_nil (h : latestVersion x w ≤ latestVersion x w') :
    lowersLatest x w w' = [] := if_neg (Nat.not_lt.2 h)

theorem never_lowers {seen} (listed : x ∈ C.replicas)
    (caughtUp : Versions C start none none) (reach : PubReach C (lowersLatest x) start w m u seen) :
    Versions C w m.pub u.pub ∧ seen = [] := by
  induction reach with
  | start => exact ⟨caughtUp, rfl⟩
  | main _ step ih =>
    obtain ⟨versions, rfl⟩ := ih
    refine ⟨versions.pubMove step, ?_⟩
    rw [lowersLatest_eq_nil (step.latest_le versions listed), nil_append]
  | upload _ step ih =>
    obtain ⟨versions, rfl⟩ := ih
    refine ⟨(versions.symm.pubMove step).symm, ?_⟩
    rw [lowersLatest_eq_nil (step.latest_le versions.symm listed), nil_append]

variable {a : Manifest}

theorem eq_of_falling {seen : List Manifest}
    (falling : seen.Pairwise fun a b => b.version < a.version) {b : Manifest} (memA : a ∈ seen)
    (memB : b ∈ seen) (same : a.version = b.version) : a = b := by
  induction seen with
  | nil => cases memA
  | cons top rest ih =>
    obtain ⟨head, tail⟩ := pairwise_cons.1 falling
    rcases mem_cons.1 memA with rfl | laterA <;> rcases mem_cons.1 memB with rfl | laterB
    · rfl
    · have := head b laterB
      omega
    · have := head a laterA
      omega
    · exact ih tail laterA laterB

/-- What a running engine has done with the views that were taken, newest first, as far as the
replica `x` goes. -/
structure LatestInv (C : L0Config R) (x : ReplicaId) (start w : World R) (mine other : PubStage)
    (seen : List Manifest) : Prop where
  versions : Versions C w mine.pub other.pub
  trace : start.trace <:+ w.trace
  bounded : ∀ v ∈ seen, v.version ≤ w.engine.manifest.version
  falling : seen.Pairwise fun a b => b.version < a.version
  newest : ∀ top rest, seen = top :: rest → top.parts = w.engine.manifest.durableView.parts ∧
      top.reclaimedThrough = w.engine.manifest.reclaimedThrough
  inHand : ∀ p, mine.pub = some p ∨ other.pub = some p → p.view ∈ seen
  fate : ∀ top rest, seen = top :: rest → w.engine.published = top.version ∨
    (w.engine.published < top.version ∧ (mine = .holding top ∨ other = .holding top))
  held : PutsSucceed x start w → ∀ a ∈ seen, a.version = w.engine.published →
    x ∈ mine.unwritten ∨ x ∈ other.unwritten ∨ (w.replicas x).latest = some a

variable {top view : Manifest} {rest : List Manifest}

namespace LatestInv

variable {mine mine' : PubStage} {seen : List Manifest}

section

variable (h : LatestInv C x start w mine other seen)

include h

theorem symm : LatestInv C x start w other mine seen where
  versions := h.versions.symm
  trace := h.trace
  bounded := h.bounded
  falling := h.falling
  newest := h.newest
  inHand := fun p which => h.inHand p which.symm
  fate := fun top rest eq => (h.fate top rest eq).imp id fun ⟨lt, which⟩ => ⟨lt, which.symm⟩
  held := fun succeed a mem eq => by
    rcases h.held succeed a mem eq with todo | todo | latest
    · exact .inr (.inl todo)
    · exact .inl todo
    · exact .inr (.inr latest)

theorem le_top (eq : seen = top :: rest) (mem : a ∈ seen) : a.version ≤ top.version := by
  subst eq
  rcases mem_cons.1 mem with rfl | later
  · exact Nat.le_refl _
  · exact Nat.le_of_lt ((pairwise_cons.1 h.falling).1 a later)

theorem quiet
    (versions : Versions C w' mine'.pub other.pub) (grown : w.trace <:+ w'.trace)
    (latest : (w'.replicas x).latest = (w.replicas x).latest)
    (published : w'.engine.published = w.engine.published)
    (manifest : w'.engine.manifest = w.engine.manifest ∨
      ∃ row, row.replicas = [] ∧ w'.engine.manifest = w.engine.manifest.pushPart row)
    (pubs : ∀ p, mine'.pub = some p → mine.pub = some p)
    (waits : ∀ v, mine = .holding v → mine' = .holding v)
    (unwritten : mine'.unwritten = mine.unwritten) : LatestInv C x start w' mine' other seen := by
  have version : w.engine.manifest.version ≤ w'.engine.manifest.version := by
    rcases manifest with same | ⟨row, -, pushed⟩
    · rw [same]
    · rw [pushed]
      exact Nat.le_succ _
  have durable : w'.engine.manifest.durableView.parts = w.engine.manifest.durableView.parts ∧
      w'.engine.manifest.reclaimedThrough = w.engine.manifest.reclaimedThrough := by
    rcases manifest with same | ⟨row, unreplicated, pushed⟩
    · rw [same]
      exact ⟨rfl, rfl⟩
    · rw [pushed]
      simp [Manifest.durableView, Manifest.pushPart, PartMeta.isDurable, unreplicated]
  refine ⟨versions, h.trace.trans grown, ?_, h.falling, ?_, ?_, ?_, ?_⟩
  · exact fun v mem => (h.bounded v mem).trans version
  · intro top rest eq
    rw [durable.1, durable.2]
    exact h.newest top rest eq
  · exact fun p which => h.inHand p (which.imp (pubs p) id)
  · intro top rest eq
    rw [published]
    exact (h.fate top rest eq).imp id fun ⟨lt, which⟩ => ⟨lt, which.imp (waits top) id⟩
  · intro succeed a mem eq
    rw [unwritten, latest]
    exact h.held (succeed.before grown) a mem (published ▸ eq)

end

theorem stale (h : LatestInv C x start w (.holding view) other seen)
    (versions : Versions C w PubStage.free.pub other.pub)
    (old : view.version ≤ w.engine.published) :
    LatestInv C x start w .free other seen := by
  refine ⟨versions, h.trace, h.bounded, h.falling, h.newest, ?_, ?_, h.held⟩
  · rintro p (none | which)
    · cases none
    · exact h.inHand p (.inr which)
  · intro top rest eq
    rcases h.fate top rest eq with here | ⟨lt, mine | theirs⟩
    · exact .inl here
    · cases mine
      omega
    · exact .inr ⟨lt, .inr theirs⟩

theorem take (h : LatestInv C x start w .free other seen) (step : Mutates w w')
    (versions : Versions C w' (some (.waiting w'.engine.manifest.durableView)) other.pub) :
    LatestInv C x start w' (.holding w'.engine.manifest.durableView) other
      (w'.engine.manifest.durableView :: seen) := by
  have version : w'.engine.manifest.durableView.version = w.engine.manifest.version + 1 :=
    step.version
  have ram := h.versions.ram
  refine ⟨versions, h.trace.trans step.trace, ?_, ?_, ?_, ?_, ?_, ?_⟩
  · intro v mem
    rcases mem_cons.1 mem with rfl | old
    · exact Nat.le_refl _
    · have := h.bounded v old
      rw [step.version]
      omega
  · refine pairwise_cons.2 ⟨fun v mem => ?_, h.falling⟩
    have := h.bounded v mem
    omega
  · rintro top rest ⟨⟩
    exact ⟨rfl, rfl⟩
  · rintro p (mine | theirs)
    · cases mine
      exact mem_cons_self
    · exact .tail _ (h.inHand p (.inr theirs))
  · rintro top rest ⟨⟩
    refine .inr ⟨?_, .inl rfl⟩
    rw [step.published]
    omega
  · intro succeed a mem eq
    rw [step.published] at eq
    rcases mem_cons.1 mem with rfl | old
    · omega
    · rw [step.replicas]
      exact h.held (succeed.before step.trace) a old eq

theorem acquire (h : LatestInv C x start w (.holding view) other seen) (listed : x ∈ C.replicas)
    (newer : w.engine.published < view.version)
    (versions : Versions C (w.beginPublish view) (some (.writing view C.replicas)) other.pub) :
    LatestInv C x start (w.beginPublish view) (.putting view C.replicas) other seen := by
  have mine : view ∈ seen := h.inHand (.waiting view) (.inl rfl)
  refine ⟨versions, h.trace, h.bounded, h.falling, h.newest, ?_, ?_, fun _ _ _ _ => .inl listed⟩
  · rintro p (eq | theirs)
    · cases eq
      exact mine
    · exact h.inHand p (.inr theirs)
  · intro top rest eq
    have below := h.le_top eq mine
    rcases h.fate top rest eq with here | ⟨lt, which | which⟩
    · omega
    · cases which
      exact .inl rfl
    · by_cases same : view.version = top.version
      · exact .inl same
      · exact .inr ⟨Nat.lt_of_le_of_ne below same, .inr which⟩

theorem putLatest {todo} (h : LatestInv C x start w (.putting view (replica :: todo)) other seen)
    (asked : Asks replica .putLatest (World.putLatest replica view) w w')
    (versions : Versions C w' (some (.writing view todo)) other.pub) :
    LatestInv C x start w' (.recording view replica todo) other seen := by
  have grown : w.trace <:+ w'.trace := asked.trace rfl
  have engine : w'.engine = w.engine := by cases asked <;> rfl
  refine ⟨versions, h.trace.trans grown, ?_, h.falling, ?_, ?_, ?_, ?_⟩
  · rw [engine]
    exact h.bounded
  · rw [engine]
    exact h.newest
  · rintro p (eq | theirs)
    · cases eq
      exact h.inHand (.writing view (replica :: todo)) (.inl rfl)
    · exact h.inHand p (.inr theirs)
  · intro top rest eq
    rw [engine]
    refine (h.fate top rest eq).imp id fun ⟨lt, which⟩ => ⟨lt, .inr (which.resolve_left nofun)⟩
  · intro succeed a mem eq
    rw [engine] at eq
    by_cases here : x = replica
    · subst here
      have written : view.version = w.engine.published := (h.versions.written view _ (.inl rfl)).1
      have same : a = view := eq_of_falling h.falling mem
        (h.inHand (.writing view (x :: todo)) (.inl rfl)) (eq.trans written.symm)
      subst same
      refine .inr (.inr ?_)
      obtain ⟨new, eq⟩ := h.trace
      have unfailed (w'' : World R) (logged : w''.trace = .fault x .putLatest :: w.trace)
          (same : w'' = w') : False := by
        subst same
        refine succeed (.fault x .putLatest :: new) ?_ mem_cons_self
        rw [logged, ← eq]
        rfl
      cases asked with
      | done =>
        rw [World.putLatest, World.withReplica_replicas, if_pos rfl]
      | failed => exact (unfailed _ rfl rfl).elim
      | unsure => exact (unfailed _ rfl rfl).elim
    · have unchanged : (w'.replicas x).latest = (w.replicas x).latest := by
        obtain ⟨flag, attempt⟩ := asked.attempt
        exact (attempt.putLatest_latest x).resolve_right fun new => here new.1
      rcases h.held (succeed.before grown) a mem eq with mine | theirs | latest
      · exact .inl ((mem_cons.1 mine).resolve_left here)
      · exact .inr (.inl theirs)
      · exact .inr (.inr (unchanged.trans latest))

theorem stageStep (h : LatestInv C x start w mine other seen) (listed : x ∈ C.replicas)
    (step : StageStep C w mine w' mine') :
    LatestInv C x start w' mine' other (viewTaken w w' ++ seen) := by
  have versions := h.versions.stageStep step
  cases step with
  | stale _ old =>
    rw [viewTaken_self]
    exact h.stale versions old
  | @acquire view _ newer =>
    have none : viewTaken w (w.beginPublish view) = [] := viewTaken_same rfl
    rw [none]
    exact h.acquire listed newer versions
  | putLatest asked =>
    obtain ⟨flag, attempt⟩ := asked.attempt
    rw [viewTaken_same (by rw [attempt.putLatest_engine])]
    exact h.putLatest asked versions
  | release =>
    have none : viewTaken w w.endPublish = [] := viewTaken_same rfl
    have none_left := evictStage_pub C
    rw [none]
    exact h.quiet versions suffix_rfl rfl rfl (.inl rfl) (by simp [none_left]) nofun
      (unwritten_of_pub (l := .free) (none_left _ _))
  | snapshot step =>
    obtain ⟨beside, same⟩ := step.beside
    rw [viewTaken_same (by rw [beside.engine])]
    exact h.quiet versions beside.grows.suffix (beside.latest x) (by rw [beside.engine])
      (.inl (by rw [beside.engine])) (by rw [same]; exact fun _ => id)
      (fun v eq => holding_of_pub (same.trans (by rw [eq]; rfl))) (unwritten_of_pub same)

theorem move (h : LatestInv C x start w mine other seen) (listed : x ∈ C.replicas)
    (step : PubMove C w mine w' mine') :
    LatestInv C x start w' mine' other (viewTaken w w' ++ seen) := by
  have versions := h.versions.pubMove step
  cases step with
  | other neutral =>
    rw [viewTaken_neutral neutral]
    exact h.quiet versions neutral.trace (neutral.latest x) neutral.published neutral.manifest
      (fun _ eq => eq) (fun _ eq => eq) rfl
  | take mutates =>
    rw [viewTaken_mutates mutates]
    exact h.take mutates versions
  | stage step => exact h.stageStep listed step

end LatestInv

theorem latestInv {seen} (listed : x ∈ C.replicas)
    (caughtUp : Versions C start none none) (reach : PubReach C viewTaken start w m u seen) :
    LatestInv C x start w m u seen := by
  induction reach with
  | start =>
    exact ⟨caughtUp, suffix_rfl, by simp, by simp, by simp, by simp [PubStage.pub], by simp,
      by simp⟩
  | main _ step ih => exact ih.move listed step
  | upload _ step ih => exact (ih.symm.move listed step).symm

theorem LatestInv.settled {seen} (h : LatestInv C x start w .free .free seen)
    (succeed : PutsSucceed x start w) (eq : seen = top :: rest) :
    (w.replicas x).latest = some top := by
  have published : top.version = w.engine.published := by
    rcases h.fate top rest eq with here | ⟨-, mine | theirs⟩
    · exact here.symm
    · cases mine
    · cases theirs
  rcases h.held succeed top (eq ▸ mem_cons_self) published with todo | todo | latest
  · cases todo
  · cases todo
  · exact latest

theorem AtRest.versions {before}
    (rest : AtRest (runFrom C before)) (reached : Reached (runFrom C before).world.trace) :
    Versions C (runFrom C before).world none none := by
  obtain ⟨m, u, tracks⟩ := runFrom_tracks (C := C) before
  have uploader : u = .idle := by
    simpa [Session.UploaderAt, rest.noUpload] using tracks.uploader
  have rests : m.Rests := by
    have caller := tracks.caller
    rw [Session.CallerAt, rest.serving] at caller
    have idle := rest.idle
    unfold Session.idle at idle
    split at idle
    · rename_i returned
      rw [returned] at caller
      exact caller
    · cases idle
  have versions := (versionInv tracks.reachable reached).serving rests.not_down
  rwa [rests.pub_none, uploader] at versions

end Ehdb.Proof
