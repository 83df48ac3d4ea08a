import Ehdb.Proof.Publish

/-! As long as no upload is in progress during a reclaim pass and every pass starts from a manifest
whose durable parts are published, a pass deletes no object that a manifest refers to. -/

namespace Ehdb.Proof

open L0 ProofKit List
open MainTask (pub stage)

variable {R : Type} {C : L0Config R} {w w' : World R} {m m' : MainTask R} {u u' : UpTask}

def MainTask.targets : MainTask R → List ReplicaId
  | .copying _ _ _ _ todo => todo
  | _ => []

def UpTask.targets : UpTask → List ReplicaId
  | .copying _ _ _ todo => todo
  | _ => []

theorem targets_listed (h : Reachable C w m u) :
    m.targets ⊆ C.replicas ∧ u.targets ⊆ C.replicas := by
  induction h with
  | initial | halt => simp [MainTask.targets, UpTask.targets]
  | main _ step ih =>
    refine ⟨?_, ih.2⟩
    cases step with
    | aside _ => exact ih.1
    | write step => cases step <;> simp [MainTask.targets]
    | merge step =>
      cases step with
      | name _ => exact List.Subset.refl _
      | put _ => exact fun r mem => ih.1 (.tail _ mem)
      | _ => simp [MainTask.targets]
    | upkeep step => cases step <;> simp [MainTask.targets]
    | opening step => cases step <;> simp [MainTask.targets]
    | publish _ => simp [MainTask.targets]
  | upload _ step ih =>
    refine ⟨ih.1, ?_⟩
    cases step with
    | aside _ => exact ih.2
    | read _ => exact List.Subset.refl _
    | put _ => exact fun r mem => ih.2 (.tail _ mem)
    | _ => simp [UpTask.targets]
  | receive _ _ ih => exact ⟨ih.1, by simp [UpTask.targets]⟩
  | rest _ _ ih => exact ⟨by simp [MainTask.targets], ih.2⟩

structure Stored (C : L0Config R) (w : World R) (loc : ReplicaLocation) : Prop where
  listed : loc.replica ∈ C.replicas
  present : ((w.replicas loc.replica).parts.lookup loc.key).isSome

def AllStored (C : L0Config R) (w : World R) (a : Manifest) : Prop :=
  ∀ p ∈ a.parts, ∀ loc ∈ p.replicas, Stored C w loc

/-- No object is lost. -/
def Keeps (w w' : World R) : Prop :=
  ∀ r key, ((w.replicas r).parts.lookup key).isSome → ((w'.replicas r).parts.lookup key).isSome

theorem SameCatalog.keeps (h : SameCatalog w w') : Keeps w w' :=
  fun r key present => by rwa [h.parts r]

theorem Keeps.of_replicas (h : w'.replicas = w.replicas) : Keeps w w' :=
  fun r key present => by rwa [h]

variable {loc : ReplicaLocation}

theorem Stored.mono (h : Stored C w loc) (keeps : Keeps w w') : Stored C w' loc :=
  ⟨h.listed, keeps _ _ h.present⟩

variable {a : Manifest}

theorem AllStored.mono (h : AllStored C w a) (keeps : Keeps w w') : AllStored C w' a :=
  fun p mem loc listed => (h p mem loc listed).mono keeps

theorem AllStored.durableView (h : AllStored C w a) : AllStored C w a.durableView := by
  intro p mem loc listed
  obtain ⟨q, inDurable, rfl⟩ := mem_map.mp mem
  exact h q (mem_filter.mp inDurable).1 loc listed

theorem putPart_lookup (replica : ReplicaId) (key : PartKey) (bytes : Bytes) (w : World R)
    (r : ReplicaId) (k : PartKey) :
    (((World.putPart replica key bytes w).replicas r).parts.lookup k) =
      if r = replica ∧ k = key ∧ (w.replicas r).parts.lookup k = none then some bytes
      else (w.replicas r).parts.lookup k := by
  rw [World.putPart, World.log_replicas, World.withReplica_replicas]
  by_cases same : r = replica
  · subst same
    simp only [if_true, true_and]
    cases found : (w.replicas r).parts.lookup key with
    | some old =>
      simp only [Option.isSome_some, if_true]
      rw [if_neg]
      rintro ⟨rfl, missing⟩
      simp [found] at missing
    | none =>
      by_cases here : k = key
      · subst here
        simp [found]
      · simp [here]
  · simp [same]

variable {replica : ReplicaId} {key : PartKey} {bytes : Bytes} {flag : Bool}

theorem Attempt.putPart_keeps (h : Attempt (World.putPart replica key bytes) w w' flag) :
    Keeps w w' := by
  have keeps : Keeps w (World.putPart replica key bytes w) := by
    intro r k present
    rw [putPart_lookup]
    split
    · rfl
    · exact present
  cases h with
  | done => exact keeps
  | failed => exact .of_replicas rfl
  | unsure => exact keeps

theorem Attempt.putPart_taken (h : Attempt (World.putPart replica key bytes) w w' flag)
    (listed : replica ∈ C.replicas) {locations} (held : ∀ loc ∈ locations, Stored C w loc) :
    ∀ loc ∈ taken locations replica key flag, Stored C w' loc := by
  have before : ∀ loc ∈ locations, Stored C w' loc :=
    fun loc mem => (held loc mem).mono h.putPart_keeps
  cases h with
  | failed => exact before
  | unsure => exact before
  | done =>
    intro loc mem
    rcases mem_append.mp mem with old | new
    · exact before loc old
    · rw [mem_singleton.mp new]
      refine ⟨listed, ?_⟩
      rw [putPart_lookup]
      cases (w.replicas replica).parts.lookup key <;> simp

def Detached (a : Manifest) : Prop :=
  ∀ p ∈ a.parts, p.replicas ≠ [] ∧ p.localPath = none

theorem detached_durableView (a : Manifest) : Detached a.durableView := by
  intro p mem
  obtain ⟨q, inDurable, rfl⟩ := mem_map.mp mem
  have durable := (mem_filter.mp inDurable).2
  exact ⟨by simpa [PartMeta.isDurable] using durable, rfl⟩

def RefersWithin (keys : List PartKey) (a : Manifest) : Prop :=
  ∀ p ∈ a.parts, ∀ loc ∈ p.replicas, loc.key ∈ keys

theorem refersWithin_reclaimView (a : Manifest) :
    RefersWithin (ReclaimView.of a).referencedObjects a := by
  intro p mem loc listed
  exact mem_flatMap.mpr ⟨p, mem, mem_map.mpr ⟨loc, listed, rfl⟩⟩

theorem RefersWithin.durableView {keys b} (h : RefersWithin keys a)
    (same : b.parts = a.durableView.parts) : RefersWithin keys b := by
  intro p mem loc listed
  rw [same] at mem
  obtain ⟨q, inDurable, rfl⟩ := mem_map.mp mem
  exact h q (mem_filter.mp inDurable).1 loc listed

/-- Every object that a manifest or a task refers to is stored. -/
structure Objects (C : L0Config R) (w : World R) (m : MainTask R) (u : UpTask) : Prop where
  ram : AllStored C w w.engine.manifest
  newest : ∀ a, IsNewest C w a → AllStored C w a ∧ Detached a
  pending : ∀ p, m.pub = some p ∨ u.pub = some p → AllStored C w p.view ∧ Detached p.view
  held : ∀ loc, loc ∈ m.held ∨ loc ∈ u.held → Stored C w loc
  reclaim : ∀ view, m.reclaims = some view → RefersWithin view.referencedObjects w.engine.manifest ∧
      ∀ a, IsNewest C w a → RefersWithin view.referencedObjects a

theorem Objects.keep (h : Objects C w m u) (keeps : Keeps w w')
    (latest : ∀ r, (w'.replicas r).latest = (w.replicas r).latest)
    (manifest : w'.engine.manifest = w.engine.manifest)
    (pub : ∀ p, m'.pub = some p ∨ u'.pub = some p → m.pub = some p ∨ u.pub = some p)
    (held : ∀ loc, loc ∈ m'.held ∨ loc ∈ u'.held → Stored C w' loc)
    (reclaims : m'.reclaims = m.reclaims ∨ m'.reclaims = none) : Objects C w' m' u' where
  ram := by rw [manifest]; exact h.ram.mono keeps
  newest := fun a newest => by
    obtain ⟨stored, detached⟩ := h.newest a (newest.congr latest)
    exact ⟨stored.mono keeps, detached⟩
  pending := fun p which => by
    obtain ⟨stored, detached⟩ := h.pending p (pub p which)
    exact ⟨stored.mono keeps, detached⟩
  held := held
  reclaim := fun view pass => by
    rcases reclaims with same | none
    · obtain ⟨ram, newest⟩ := h.reclaim view (same ▸ pass)
      exact ⟨manifest ▸ ram, fun a isNewest => newest a (isNewest.congr latest)⟩
    · simp [none] at pass

/-- Part objects stay, rows stay or are dropped, and what the threads have in hand stays or is
dropped. -/
theorem Objects.frame (h : Objects C w m u) (keeps : Keeps w w')
    (latest : ∀ r, (w'.replicas r).latest = (w.replicas r).latest)
    (manifest : w'.engine.manifest = w.engine.manifest)
    (pub : ∀ p, m'.pub = some p ∨ u'.pub = some p → m.pub = some p ∨ u.pub = some p)
    (held : ∀ loc, loc ∈ m'.held ∨ loc ∈ u'.held → loc ∈ m.held ∨ loc ∈ u.held)
    (reclaims : m'.reclaims = m.reclaims ∨ m'.reclaims = none) : Objects C w' m' u' :=
  h.keep keeps latest manifest pub
    (fun loc which => (h.held loc (held loc which)).mono keeps) reclaims

theorem Objects.same (h : Objects C w m u) (same : SameCatalog w w') : Objects C w' m u :=
  h.frame same.keeps same.latest same.manifest (fun _ => id) (fun _ => id) (.inl rfl)

variable {view : Manifest} {other : Option Publication}

theorem Objects.publish {p p'} (h : Objects C w m u)
    (versions : Versions C w (some p) other) (step : PubStep C w p w' p')
    (mine : m.pub = some p ∨ u.pub = some p) (pass : m'.reclaims = none)
    (pub : ∀ q, m'.pub = some q ∨ u'.pub = some q → p' = some q ∨ m.pub = some q ∨ u.pub = some q)
    (held : ∀ loc, loc ∈ m'.held ∨ loc ∈ u'.held → loc ∈ m.held ∨ loc ∈ u.held) :
    Objects C w' m' u' := by
  have carried := h.pending p mine
  have keeps : Keeps w w' := by
    cases step with
    | stale | acquire | release => exact .of_replicas rfl
    | put step =>
      have put (replica view) : Keeps w (World.putLatest replica view w) := by
        intro r key present
        rw [World.putLatest, World.withReplica_replicas]
        split <;> exact present
      cases step with
      | done => exact put _ _
      | failed => exact .of_replicas rfl
      | unsure => exact put _ _
  have view : ∀ q, p' = some q → q.view = p.view := by
    intro q eq
    cases step <;> cases eq <;> rfl
  refine ⟨?_, ?_, ?_, ?_, ?_⟩
  · rw [step.manifest]
    exact h.ram.mono keeps
  · intro a newest
    have from_ : a = p.view ∨ IsNewest C w a := by
      cases step with
      | put step =>
        obtain ⟨⟨r, mem, found⟩, highest⟩ := newest
        rcases step.putLatest_latest r with old | ⟨_, new⟩
        · refine .inr ⟨⟨r, mem, old ▸ found⟩, fun r' mem' b hb => ?_⟩
          rcases step.putLatest_latest r' with old' | ⟨_, new'⟩
          · exact highest r' mem' b (old' ▸ hb)
          · -- the copy was overwritten by the view, whose version is the highest so far
            have top := highest r' mem' _ new'
            have version := (versions.written _ _ (.inl rfl)).1
            have below := versions.below r' mem' b hb
            omega
        · exact .inl (Option.some.inj (found.symm.trans new))
      | _ => exact .inr ⟨newest.present, newest.highest⟩
    rcases from_ with rfl | old
    · exact ⟨carried.1.mono keeps, carried.2⟩
    · exact ⟨(h.newest a old).1.mono keeps, (h.newest a old).2⟩
  · intro q which
    rcases pub q which with eq | old
    · rw [view q eq]
      exact ⟨carried.1.mono keeps, carried.2⟩
    · exact ⟨(h.pending q old).1.mono keeps, (h.pending q old).2⟩
  · exact fun loc which => (h.held loc (held loc which)).mono keeps
  · intro v some
    simp [pass] at some

theorem Objects.stageStep {l l'} (h : Objects C w m u)
    (versions : Versions C w l.pub other) (step : StageStep C w l w' l')
    (mine : m.pub = l.pub ∨ u.pub = l.pub) (pass : m'.reclaims = none)
    (pub : ∀ q, m'.pub = some q ∨ u'.pub = some q →
      l'.pub = some q ∨ m.pub = some q ∨ u.pub = some q)
    (held : ∀ loc, loc ∈ m'.held ∨ loc ∈ u'.held → loc ∈ m.held ∨ loc ∈ u.held) :
    Objects C w' m' u' := by
  rcases step.coarse with ⟨p, at_, step⟩ | ⟨beside, at_⟩
  · rw [at_] at versions mine
    exact h.publish versions step mine pass pub held
  · refine h.frame (fun r key => by rw [beside.parts]; exact id) beside.latest
      (by rw [beside.engine]) (fun q which => ?_) held (.inr pass)
    rcases pub q which with new | old
    · rw [at_] at new
      exact mine.imp (·.trans new) (·.trans new)
    · exact old

theorem Objects.announce (h : Objects C w m u) (replicas : w'.replicas = w.replicas)
    (ram : AllStored C w w'.engine.manifest) (pass : m'.reclaims = none)
    (pub : ∀ p, m'.pub = some p ∨ u'.pub = some p →
      p = .waiting w'.engine.manifest.durableView ∨ m.pub = some p ∨ u.pub = some p)
    (held : ∀ loc, loc ∈ m'.held ∨ loc ∈ u'.held → loc ∈ m.held ∨ loc ∈ u.held) :
    Objects C w' m' u' := by
  have keeps : Keeps w w' := .of_replicas replicas
  refine ⟨ram.mono keeps, ?_, ?_, ?_, ?_⟩
  · intro a newest
    obtain ⟨stored, detached⟩ := h.newest a (newest.congr fun r => by rw [replicas])
    exact ⟨stored.mono keeps, detached⟩
  · intro p which
    rcases pub p which with rfl | old
    · exact ⟨(ram.mono keeps).durableView, detached_durableView _⟩
    · exact ⟨(h.pending p old).1.mono keeps, (h.pending p old).2⟩
  · exact fun loc which => (h.held loc (held loc which)).mono keeps
  · intro v some
    simp [pass] at some

variable {cold : Bool}

theorem Loaded.replicas (loaded : Loaded C w cold w') : w'.replicas = w.replicas := by
  cases loaded with
  | none _ _ => rfl
  | some _ => cases cold <;> rfl

theorem Objects.mainStep (h : Objects C w m u) (inv : VersionInv C w m u)
    (idle : m = .down ∨ m.reclaims.isSome → u = .idle) (listed : m.targets ⊆ C.replicas)
    (reached : Reached w'.trace) (current : CurrentAtReclaim w'.trace)
    (step : CatalogStep C w m w' m') : Objects C w' m' u := by
  cases step with
  | quiet same stage held reclaims _ =>
    refine h.frame same.keeps same.latest same.manifest ?_ ?_ reclaims
    · simp [pub, stage]
    · exact fun loc which => which.imp_left fun mem => held mem
  | load loaded =>
    obtain rfl := idle (.inl rfl)
    have loaded := loadAndAssemble_reached loaded reached
    refine h.announce loaded.replicas ?_ rfl (fun p which => .inr which) (fun loc which => which)
    cases loaded with
    | none _ _ => simp [AllStored, Engine.assemble, Manifest.empty]
    | some found => exact (h.newest _ (newestLatest_some found)).1
  | push none push stage stage' held' pass' _ _ =>
    refine h.announce push.replicas ?_ pass' ?_ ?_
    · intro p mem loc listed
      rw [push.manifest] at mem
      rcases mem_append.mp mem with old | new
      · exact h.ram p old loc listed
      · rw [mem_singleton.mp new, none] at listed
        simp at listed
    · simp only [pub, stage, stage']
      exact fun p which => .inr which
    · exact fun loc which => .inr (which.resolve_left (by simp [held']))
  | put step =>
    refine h.keep step.putPart_keeps step.putPart_latest (by rw [step.putPart_engine])
      (fun _ => id) ?_ (.inr rfl)
    rintro loc (mine | other)
    · exact step.putPart_taken (listed mem_cons_self) (fun l mem => h.held l (.inl mem)) loc mine
    · exact (h.held loc (.inr other)).mono step.putPart_keeps
  | swap _ =>
    refine h.announce rfl ?_ rfl ?_
      (fun loc which => .inr (which.resolve_left (by simp [MainTask.held])))
    · intro p mem loc listed
      rcases mem_append.mp mem with old | new
      · exact h.ram p (mem_filter.mp old).1 loc listed
      · rw [mem_singleton.mp new] at listed
        exact h.held loc (.inl listed)
    · rintro p (mine | other)
      · exact .inl (Option.some.inj mine).symm
      · exact .inr (.inr other)
  | drop =>
    refine h.announce rfl ?_ rfl ?_ (fun loc which => which)
    · exact fun p mem => h.ram p (mem_filter.mp mem).1
    · rintro p (mine | other)
      · exact .inl (Option.some.inj mine).symm
      · exact .inr (.inr other)
  | reclaim =>
    have isCurrent : w.latestIsCurrent C = true := by
      cases found : w.latestIsCurrent C with
      | true => rfl
      | false => exact absurd rfl (current (.reclaimBegin false) (by simp [found]))
    have logged := h.same ((SameCatalog.refl w).log (.reclaimBegin (w.latestIsCurrent C)))
    refine ⟨logged.ram, logged.newest, logged.pending, logged.held, ?_⟩
    rintro view ⟨⟩
    refine ⟨refersWithin_reclaimView _, fun a newest => ?_⟩
    replace newest : IsNewest C w a := ⟨newest.present, newest.highest⟩
    -- the newest copy refers to the same objects as the manifest, which is current
    refine (refersWithin_reclaimView w.engine.manifest).durableView ?_
    cases found : w.newestLatest C with
    | none =>
      obtain ⟨⟨r, mem, latest⟩, _⟩ := newest
      simp [newestLatest_none found r mem] at latest
    | some b =>
      have other := newestLatest_some found
      obtain ⟨r, mem, latest⟩ := newest.present
      obtain ⟨r', mem', latest'⟩ := other.present
      have version : a.version = b.version :=
        Nat.le_antisymm (other.highest r mem a latest) (newest.highest r' mem' b latest')
      have same : a = b := inv.agree r mem r' mem' a b latest latest' version
      have parts : b.parts = w.engine.manifest.durableView.parts := by
        simpa [World.latestIsCurrent, found] using isCurrent
      rw [same, parts]
  | deletePart drops step =>
    rename_i view replica key flag
    obtain rfl := idle (.inr rfl)
    obtain ⟨ramRefers, newestRefers⟩ := h.reclaim view rfl
    have dropped : key ∉ view.referencedObjects := by
      have := drops
      simp only [ReclaimView.dropsObject, Bool.and_eq_true, decide_eq_true_eq] at this
      exact this.1
    have survives : ∀ a, AllStored C w a → RefersWithin view.referencedObjects a →
        AllStored C w' a := by
      intro a all refers p mem loc listed
      have stored := all p mem loc listed
      have other : loc.key ≠ key := fun eq => dropped (eq ▸ refers p mem loc listed)
      have kept : Stored C (World.deletePart replica key w) loc := by
        refine ⟨stored.listed, ?_⟩
        rw [World.deletePart, World.withReplica_replicas]
        split
        · rw [AList.lookup_erase_ne other]
          exact stored.present
        · exact stored.present
      cases step with
      | done => exact kept
      | failed => exact ⟨stored.listed, stored.present⟩
      | unsure => exact ⟨kept.listed, kept.present⟩
    refine ⟨?_, ?_, ?_, ?_, ?_⟩
    · rw [step.deletePart_engine]
      exact survives _ h.ram ramRefers
    · intro a newest
      have old := newest.congr step.deletePart_latest
      exact ⟨survives a (h.newest a old).1 (newestRefers a old), (h.newest a old).2⟩
    · rintro p (mine | other)
      · contradiction
      · contradiction
    · rintro loc (mine | other)
      · simp [MainTask.held] at mine
      · simp [UpTask.held] at other
    · intro v pass
      rw [step.deletePart_engine]
      obtain ⟨ram, newest⟩ := h.reclaim v pass
      exact ⟨ram, fun a isNewest => newest a (isNewest.congr step.deletePart_latest)⟩
  | publish step =>
    refine h.stageStep (inv.serving (by simp)) step (.inl rfl) rfl ?_ (fun loc which => which)
    exact fun q which => which.imp id .inr

theorem Objects.upStep (h : Objects C w m u) (versions : u ≠ .idle → Versions C w m.pub u.pub)
    (quiet : u ≠ .idle → m.reclaims = none) (listed : u.targets ⊆ C.replicas)
    (step : UpStep C w u w' u') : Objects C w' m u' := by
  cases step with
  | aside step => exact h.same step.sameCatalog
  | read _ =>
    exact h.frame (.of_replicas rfl) (fun _ => rfl) rfl (fun _ => id) (fun _ => id) (.inl rfl)
  | missing | unread | lost | close =>
    exact h.frame (.of_replicas rfl) (fun _ => rfl) rfl (fun _ => id) (fun _ => id) (.inl rfl)
  | put step =>
    refine h.keep step.putPart_keeps step.putPart_latest (by rw [step.putPart_engine])
      (fun _ => id) ?_ (.inr (quiet (by simp)))
    rintro loc (mine | other)
    · exact (h.held loc (.inl mine)).mono step.putPart_keeps
    · exact step.putPart_taken (listed mem_cons_self) (fun l mem => h.held l (.inr mem)) loc other
  | record _ =>
    refine h.announce rfl ?_ (quiet (by simp)) ?_ ?_
    · intro p mem loc listed
      rcases mem_setReplicas mem with old | ⟨q, _, _, rfl⟩
      · exact h.ram p old loc listed
      · exact h.held loc (.inr listed)
    · rintro p (mine | other)
      · exact .inr (.inl mine)
      · exact .inl (Option.some.inj other).symm
    · exact fun loc which => .inl (which.resolve_right (by simp [UpTask.held]))
  | publish step =>
    refine h.stageStep (versions (by simp)).symm step (.inr rfl) (quiet (by simp)) ?_
      (fun loc which => which)
    exact fun q which => which.symm.imp id .inl

theorem objects (h : Reachable C w m u) (reached : Reached w.trace) (calm : Calm w.trace)
    (current : CurrentAtReclaim w.trace) : Objects C w m u := by
  induction h with
  | initial =>
    refine ⟨by simp [AllStored, World.initial, Engine.assemble, Manifest.empty], ?_, ?_, ?_, ?_⟩
    · rintro a ⟨⟨r, _, found⟩, _⟩
      simp [World.initial, Substrate.empty] at found
    · simp [pub, UpTask.pub, stage, UpTask.stage, PubStage.pub]
    · simp [MainTask.held, UpTask.held]
    · simp [MainTask.reclaims]
  | main before step ih =>
    have old := step.trace
    have calmBefore := calm.suffix old
    have inv := versionInv before (reached.suffix old)
    refine (ih (reached.suffix old) calmBefore (current.suffix old)).mainStep inv ?_
      (targets_listed before).1 reached current (step.catalog (inHand_unreplicated before))
    rintro (down | pass)
    · exact (down_idle before down).1
    · exact calmBefore.idle before pass
  | @upload w m u _ _ before step ih =>
    have old := step.trace
    have calmBefore := calm.suffix old
    refine (ih (reached.suffix old) calmBefore (current.suffix old)).upStep ?_ ?_
      (targets_listed before).2 step
    · intro busy
      exact (versionInv before (reached.suffix old)).serving fun down =>
        busy (down_idle before down).1
    · intro busy
      cases pass : m.reclaims with
      | none => rfl
      | some view => exact absurd (calmBefore.idle before (by simp [pass])) busy
  | @receive w _ _ _ before _ ih =>
    have old : w.trace <:+ .uploadBegin :: w.trace := suffix_cons _ _
    exact (ih (reached.suffix old) (calm.suffix old) (current.suffix old)).frame
      (.of_replicas rfl) (fun _ => rfl) rfl (fun _ => id) (fun _ => id) (.inl rfl)
  | rest _ rests ih =>
    refine (ih reached calm current).frame (.of_replicas rfl) (fun _ => rfl) rfl ?_ ?_ (.inr rfl)
    · exact fun p which => .inr (which.resolve_left (by simp [pub, stage, PubStage.pub]))
    · exact fun loc which => .inr (which.resolve_left (by simp [MainTask.held]))
  | @halt w _ _ loseDisk before ih =>
    have old : w.trace <:+ (w.halt C loseDisk).trace := suffix_cons _ _
    have h := ih (reached.suffix old) (calm.suffix old) (current.suffix old)
    refine ⟨by simp [AllStored, World.halt, Engine.assemble, Manifest.empty], ?_, ?_, ?_, ?_⟩
    · intro a newest
      obtain ⟨stored, detached⟩ := h.newest a ⟨newest.present, newest.highest⟩
      exact ⟨stored.mono (.of_replicas rfl), detached⟩
    · simp [pub, UpTask.pub, stage, UpTask.stage, PubStage.pub]
    · simp [MainTask.held, UpTask.held]
    · simp [MainTask.reclaims]

end Ehdb.Proof
