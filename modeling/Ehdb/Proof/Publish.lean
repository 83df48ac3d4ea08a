import Ehdb.Proof.CatalogStep

/-! The newest `LATEST` copy among the replicas. A view is written under the `published` lock, its
version is above every version written before, and the copies of one version agree. -/

namespace Ehdb.Proof

open L0 ProofKit List
open World (beginPublish deletePart initial loadAndAssemble logReach log_replicas newestLatest
  newestOf putLatest putPart withReplica_replicas)

variable {R : Type} {C : L0Config R} {w w' : World R} {m m' : MainTask R} {u u' : UpTask}

/-- Manifest `a` is a published one of the highest version. -/
structure IsNewest (C : L0Config R) (w : World R) (a : Manifest) : Prop where
  present : ∃ r ∈ C.replicas, (w.replicas r).latest = some a
  highest : ∀ r ∈ C.replicas, ∀ b, (w.replicas r).latest = some b → b.version ≤ a.version

variable {replicas : ReplicaId → Substrate} {ids : List ReplicaId} {best : Option Manifest}

theorem newestOf_some {a} (h : newestOf replicas ids best = some a) :
    (best = some a ∨ ∃ r ∈ ids, (replicas r).latest = some a) ∧
      (∀ b, best = some b → b.version ≤ a.version) ∧
      ∀ r ∈ ids, ∀ b, (replicas r).latest = some b → b.version ≤ a.version := by
  induction ids generalizing best with
  | nil =>
    have h : best = some a := h
    exact ⟨.inl h, fun b hb => by simp_all, by simp⟩
  | cons id rest ih =>
    cases found : (replicas id).latest with
    | none =>
      have h : newestOf replicas rest best = some a := by
        simpa [newestOf, found] using h
      obtain ⟨from_, above, all⟩ := ih h
      refine ⟨from_.imp_right fun ⟨r, mem, eq⟩ => ⟨r, by simp [mem], eq⟩, above, ?_⟩
      simpa [found] using all
    | some c =>
      cases best with
      | none =>
        have h : newestOf replicas rest (some c) = some a := by
          simpa [newestOf, found] using h
        obtain ⟨from_, above, all⟩ := ih h
        refine ⟨.inr ?_, by simp, ?_⟩
        · rcases from_ with eq | ⟨r, mem, eq⟩
          · exact ⟨id, by simp, by rw [found, eq]⟩
          · exact ⟨r, by simp [mem], eq⟩
        · have top := above c rfl
          simpa [found, top] using all
      | some b =>
        have h : newestOf replicas rest
            (some (if c.version > b.version then c else b)) = some a := by
          simpa [newestOf, found] using h
        obtain ⟨from_, above, all⟩ := ih h
        have top := above _ rfl
        have both : c.version ≤ a.version ∧ b.version ≤ a.version := by
          split at top <;> omega
        refine ⟨?_, by simpa using both.2, by simpa [found, both.1] using all⟩
        rcases from_ with eq | ⟨r, mem, eq⟩
        · split at eq
          · exact .inr ⟨id, by simp, by rw [found, eq]⟩
          · exact .inl eq
        · exact .inr ⟨r, by simp [mem], eq⟩

theorem newestOf_none (h : newestOf replicas ids best = none) :
    best = none ∧ ∀ r ∈ ids, (replicas r).latest = none := by
  induction ids generalizing best with
  | nil => exact ⟨h, by simp⟩
  | cons id rest ih =>
    cases found : (replicas id).latest with
    | none =>
      obtain ⟨none, all⟩ := ih (show newestOf replicas rest best = none by
        simpa [newestOf, found] using h)
      exact ⟨none, by simpa [found] using all⟩
    | some c =>
      cases best with
      | none =>
        have kept := (ih (show newestOf replicas rest (some c) = none by
          simpa [newestOf, found] using h)).1
        contradiction
      | some b =>
        have kept := (ih (show newestOf replicas rest
            (some (if c.version > b.version then c else b)) = none by
          simpa [newestOf, found] using h)).1
        contradiction

theorem newestLatest_some {a} (h : w.newestLatest C = some a) : IsNewest C w a := by
  obtain ⟨from_, _, all⟩ := newestOf_some h
  exact ⟨from_.resolve_left (by simp), all⟩

theorem newestLatest_none (h : w.newestLatest C = none) :
    ∀ r ∈ C.replicas, (w.replicas r).latest = none := (newestOf_none h).2

theorem newestLatest_congr (latest : ∀ r, (w'.replicas r).latest = (w.replicas r).latest) :
    w'.newestLatest C = w.newestLatest C := by
  have general : ∀ ids best, newestOf w'.replicas ids best = newestOf w.replicas ids best := by
    intro ids
    induction ids with
    | nil => exact fun _ => rfl
    | cons id rest ih =>
      intro best
      simp only [newestOf, latest, ih]
  exact general _ _

theorem IsNewest.congr {a} (latest : ∀ r, (w'.replicas r).latest = (w.replicas r).latest)
    (h : IsNewest C w' a) : IsNewest C w a := by
  obtain ⟨⟨r, mem, eq⟩, highest⟩ := h
  exact ⟨⟨r, mem, latest r ▸ eq⟩, fun r mem b hb => highest r mem b (latest r ▸ hb)⟩

variable {reach : ReplicaId → Reach}

theorem loadLatest_up (up : ∀ r ∈ ids, reach r = .up) (best : Option Manifest) :
    loadLatest reach replicas ids best false = (newestOf replicas ids best, false) := by
  induction ids generalizing best with
  | nil => rfl
  | cons id rest ih =>
    have here := up id mem_cons_self
    have later := ih fun r mem => up r (.tail _ mem)
    cases found : (replicas id).latest with
    | none => simp [loadLatest, newestOf, here, found, later]
    | some c =>
      cases best with
      | none => simp [loadLatest, newestOf, here, found, later, keepNewer]
      | some b =>
        simp only [loadLatest, newestOf, here, found, later, keepNewer]
        split <;> rfl

theorem loadDurableManifest_up (up : ∀ r ∈ C.replicas, reach r = .up) (w : World R) :
    loadDurableManifest C reach w.replicas = .ok (w.newestLatest C) := by
  simp [loadDurableManifest, loadLatest_up up, newestLatest]

theorem up_of_reached (h : Reached (w.logReach C reach).trace) :
    ∀ r ∈ C.replicas, reach r = .up := by
  by_contra some_down
  have logged : (w.logReach C reach).trace = .unreached :: w.trace := by
    unfold logReach
    rw [if_neg]
    · rfl
    · simpa using some_down
  exact h .unreached (by simp [logged]) rfl

inductive Loaded (C : L0Config R) (w : World R) (cold : Bool) : World R → Prop where
  | none : w.newestLatest C = none → cold = false →
      Loaded C w cold (w.withEngine fun _ => .assemble C .empty 0)
  | some {a} : w.newestLatest C = some a → Loaded C w cold
      ((if cold then w.log .coldStarted else w).withEngine fun _ => .assemble C a a.maxSequence)

variable {cold : Bool}

theorem loadAndAssemble_reached {tip}
    (h : loadAndAssemble C reach cold w = (.ok tip, w')) (reached : Reached w'.trace) :
    Loaded C w cold w' := by
  have grown : (w.logReach C reach).trace <:+ w'.trace := by
    rcases loadAndAssemble_ok h with ⟨_, _, rfl⟩ | ⟨found, _, _, rfl⟩
    · exact suffix_rfl
    · cases cold with
      | false => exact suffix_rfl
      | true => exact suffix_cons _ _
  have up := up_of_reached (reached.suffix grown)
  have quiet : w.logReach C reach = w := by
    unfold logReach
    rw [if_pos (by simpa using up)]
  rcases loadAndAssemble_ok h with ⟨found, optional, rfl⟩ | ⟨a, found, _, rfl⟩
  · rw [quiet]
    rw [loadDurableManifest_up up] at found
    exact .none (Except.ok.inj found) optional
  · rw [quiet]
    rw [loadDurableManifest_up up] at found
    exact .some (Except.ok.inj found)

/-- Published manifests of one version are the same manifest. -/
def Agree (C : L0Config R) (w : World R) : Prop :=
  ∀ r ∈ C.replicas, ∀ r' ∈ C.replicas, ∀ a b, (w.replicas r).latest = some a →
    (w.replicas r').latest = some b → a.version = b.version → a = b

def Publication.isWriting : Publication → Bool
  | .waiting _ => false
  | .writing _ _ => true

def holdsLock (p : Option Publication) : Bool :=
  (p.map Publication.isWriting).getD false

/-- The publication state of an open engine whose threads are in the publications `mine` and
`other`. -/
structure Versions (C : L0Config R) (w : World R) (mine other : Option Publication) : Prop where
  ram : w.engine.published ≤ w.engine.manifest.version
  below : ∀ r ∈ C.replicas, ∀ a, (w.replicas r).latest = some a → a.version ≤ w.engine.published
  agree : Agree C w
  lock : w.engine.publishing = (holdsLock mine || holdsLock other)
  alone : ¬(holdsLock mine = true ∧ holdsLock other = true)
  written : ∀ view todo, mine = some (.writing view todo) ∨ other = some (.writing view todo) →
    view.version = w.engine.published ∧
      ∀ r ∈ C.replicas, ∀ a, (w.replicas r).latest = some a → a.version = view.version → a = view
  pending : ∀ p, mine = some p ∨ other = some p → p.view.version ≤ w.engine.manifest.version

variable {mine other : Option Publication}

theorem Versions.symm (h : Versions C w mine other) : Versions C w other mine where
  ram := h.ram
  below := h.below
  agree := h.agree
  lock := by rw [h.lock, Bool.or_comm]
  alone := fun both => h.alone both.symm
  written := fun view todo which => h.written view todo which.symm
  pending := fun p which => h.pending p which.symm

theorem Versions.advance (h : Versions C w mine other)
    (latest : ∀ r, (w'.replicas r).latest = (w.replicas r).latest)
    (version : w.engine.manifest.version ≤ w'.engine.manifest.version)
    (published : w'.engine.published = w.engine.published)
    (publishing : w'.engine.publishing = w.engine.publishing) : Versions C w' mine other where
  ram := by rw [published]; exact Nat.le_trans h.ram version
  below := by simpa only [latest, published] using h.below
  agree := by simpa only [Agree, latest] using h.agree
  lock := by rw [publishing, h.lock]
  alone := h.alone
  written := by simpa only [latest, published] using h.written
  pending := fun p which => Nat.le_trans (h.pending p which) version

theorem Versions.same (h : Versions C w mine other) (same : SameCatalog w w') :
    Versions C w' mine other :=
  h.advance same.latest (by rw [same.manifest]) same.published same.publishing

variable {view : Manifest}

theorem Versions.wait (h : Versions C w none other)
    (version : view.version ≤ w.engine.manifest.version) :
    Versions C w (some (.waiting view)) other where
  ram := h.ram
  below := h.below
  agree := h.agree
  lock := h.lock
  alone := h.alone
  written := fun v todo which => h.written v todo (by simpa using which)
  pending := by
    rintro p (eq | which)
    · cases eq
      exact version
    · exact h.pending p (.inr which)

variable {replica : ReplicaId} {flag : Bool}

theorem Attempt.putLatest_latest (h : Attempt (putLatest replica view) w w' flag)
    (r : ReplicaId) : (w'.replicas r).latest = (w.replicas r).latest ∨
      (r = replica ∧ (w'.replicas r).latest = some view) := by
  have written : ((putLatest replica view w).replicas r).latest = (w.replicas r).latest ∨
      (r = replica ∧ ((putLatest replica view w).replicas r).latest = some view) := by
    rw [putLatest, withReplica_replicas]
    split
    · rename_i same
      exact .inr ⟨same, rfl⟩
    · exact .inl rfl
  cases h with
  | done => exact written
  | failed => exact .inl rfl
  | unsure => exact written

theorem Attempt.putLatest_engine (h : Attempt (putLatest replica view) w w' flag) :
    w'.engine = w.engine := by
  cases h <;> rfl

theorem PubStep.manifest {p p'} (h : PubStep C w p w' p') :
    w'.engine.manifest = w.engine.manifest := by
  cases h with
  | put step => rw [step.putLatest_engine]
  | _ => rfl

theorem StageStep.manifest {l l'} (h : StageStep C w l w' l') :
    w'.engine.manifest = w.engine.manifest := by
  rcases h.coarse with ⟨_, _, step⟩ | ⟨beside, _⟩
  · exact step.manifest
  · rw [beside.engine]

theorem Versions.put {todo} (h : Versions C w (some (.writing view (replica :: todo))) other)
    (step : Attempt (putLatest replica view) w w' flag) :
    Versions C w' (some (.writing view todo)) other := by
  obtain ⟨version, same⟩ := h.written view _ (.inl rfl)
  have copy : ∀ r ∈ C.replicas, ∀ a, (w'.replicas r).latest = some a →
      (w.replicas r).latest = some a ∨ a = view := by
    intro r _ a found
    rcases step.putLatest_latest r with old | ⟨_, new⟩
    · exact .inl (old ▸ found)
    · exact .inr (Option.some.inj (found.symm.trans new))
  have engine := step.putLatest_engine
  refine ⟨?_, ?_, ?_, ?_, h.alone, ?_, ?_⟩
  · rw [engine]; exact h.ram
  · intro r mem a found
    rw [engine]
    rcases copy r mem a found with old | rfl
    · exact h.below r mem a old
    · exact Nat.le_of_eq version
  · intro r mem r' mem' a b foundA foundB eq
    rcases copy r mem a foundA with oldA | rfl <;> rcases copy r' mem' b foundB with oldB | rfl
    · exact h.agree r mem r' mem' a b oldA oldB eq
    · exact same r mem a oldA eq
    · exact (same r' mem' b oldB eq.symm).symm
    · rfl
  · rw [engine]; exact h.lock
  · rintro v todo' which
    have isView : v = view := by
      rcases which with eq | taken
      · cases eq; rfl
      · exact absurd ⟨rfl, by simp [holdsLock, taken, Publication.isWriting]⟩ h.alone
    subst isView
    refine ⟨by rw [engine]; exact version, ?_⟩
    intro r mem a found eq
    rcases copy r mem a found with old | rfl
    · exact same r mem a old eq
    · rfl
  · rintro p (eq | which)
    · cases eq
      rw [engine]
      exact h.pending (.writing view (replica :: todo)) (.inl rfl)
    · rw [engine]
      exact h.pending p (.inr which)

theorem Versions.acquire (h : Versions C w (some (.waiting view)) other)
    (unlocked : w.engine.publishing = false) (newer : w.engine.published < view.version) :
    Versions C (w.beginPublish view) (some (.writing view C.replicas)) other := by
  have free : holdsLock other = false := by
    have lock := h.lock
    rw [unlocked] at lock
    simpa [holdsLock, Publication.isWriting] using lock.symm
  refine ⟨h.pending _ (.inl rfl), ?_, h.agree, ?_, by simp [free], ?_, ?_⟩
  · intro r mem a found
    exact Nat.le_trans (h.below r mem a found) (Nat.le_of_lt newer)
  · simp [beginPublish, holdsLock, Publication.isWriting]
  · rintro v todo (eq | which)
    · cases eq
      refine ⟨rfl, fun r mem a found eq => ?_⟩
      have := h.below r mem a found
      omega
    · simp [holdsLock, which, Publication.isWriting] at free
  · rintro p (eq | which)
    · cases eq
      exact h.pending (.waiting view) (.inl rfl)
    · exact h.pending p (.inr which)

variable {p : Publication}

theorem Versions.finish (h : Versions C w (some p) other)
    (lock : w'.engine.publishing = holdsLock other) (replicas : w'.replicas = w.replicas)
    (manifest : w'.engine.manifest = w.engine.manifest)
    (published : w'.engine.published = w.engine.published) : Versions C w' none other where
  ram := by rw [manifest, published]; exact h.ram
  below := by rw [replicas, published]; exact h.below
  agree := by rw [Agree, replicas]; exact h.agree
  lock := by rw [lock]; rfl
  alone := by simp [holdsLock]
  written := fun v todo which => by
    rw [replicas, published]
    exact h.written v todo (.inr (by simpa using which))
  pending := fun q which => by
    rw [manifest]
    exact h.pending q (.inr (by simpa using which))

theorem Versions.pubStep {p'} (h : Versions C w (some p) other)
    (step : PubStep C w p w' p') : Versions C w' p' other := by
  cases step with
  | stale unlocked _ =>
    refine h.finish ?_ rfl rfl rfl
    simpa [holdsLock, Publication.isWriting] using h.lock
  | acquire unlocked newer => exact h.acquire unlocked newer
  | put step => exact h.put step
  | release =>
    have free : holdsLock other = false := by
      have alone := h.alone
      simpa [holdsLock, Publication.isWriting] using alone
    exact h.finish (by rw [free]; rfl) rfl rfl rfl

theorem Versions.stageStep {l l'} (h : Versions C w l.pub other)
    (step : StageStep C w l w' l') : Versions C w' l'.pub other := by
  rcases step.coarse with ⟨p, at_, step⟩ | ⟨beside, at_⟩
  · exact (at_ ▸ h).pubStep step
  · rw [at_]
    exact h.advance beside.latest (by rw [beside.engine]) (by rw [beside.engine])
      (by rw [beside.engine])

/-- The replicas agree, and no publication on its way can make them differ. -/
structure VersionInv (C : L0Config R) (w : World R) (m : MainTask R) (u : UpTask) : Prop where
  agree : Agree C w
  serving : m ≠ .down → Versions C w m.pub u.pub

theorem VersionInv.of_versions (h : Versions C w m.pub u.pub) : VersionInv C w m u :=
  ⟨h.agree, fun _ => h⟩

theorem versions_of_loaded (agree : Agree C w) (h : Loaded C w cold w') :
    Versions C w' none none := by
  cases h with
  | none found _ =>
    have nothing := newestLatest_none found
    refine ⟨Nat.le_refl _, ?_, agree, rfl, by simp [holdsLock], by simp, by simp⟩
    intro r mem a latest
    exact absurd ((nothing r mem).symm.trans latest) nofun
  | @some a found =>
    have newest := newestLatest_some found
    cases cold <;>
      exact ⟨Nat.le_refl _, newest.highest, agree, rfl, by simp [holdsLock], by simp, by simp⟩

variable {key : PartKey} {bytes : Bytes}

theorem Attempt.putPart_latest (h : Attempt (putPart replica key bytes) w w' flag)
    (r : ReplicaId) : (w'.replicas r).latest = (w.replicas r).latest := by
  have quiet : ((putPart replica key bytes w).replicas r).latest = (w.replicas r).latest := by
    rw [putPart, log_replicas, withReplica_replicas]
    split <;> rfl
  cases h with
  | done => exact quiet
  | failed => rfl
  | unsure => exact quiet

theorem Attempt.putPart_engine (h : Attempt (putPart replica key bytes) w w' flag) :
    w'.engine = w.engine := by
  cases h <;> rfl

theorem Attempt.deletePart_latest (h : Attempt (deletePart replica key) w w' flag)
    (r : ReplicaId) : (w'.replicas r).latest = (w.replicas r).latest := by
  have quiet : ((deletePart replica key w).replicas r).latest = (w.replicas r).latest := by
    rw [deletePart, withReplica_replicas]
    split <;> rfl
  cases h with
  | done => exact quiet
  | failed => rfl
  | unsure => exact quiet

theorem Attempt.deletePart_engine (h : Attempt (deletePart replica key) w w' flag) :
    w'.engine = w.engine := by
  cases h <;> rfl

theorem VersionInv.mainStep (h : VersionInv C w m u) (idle : m = .down → u = .idle)
    (reached : Reached w'.trace) (step : CatalogStep C w m w' m') : VersionInv C w' m' u := by
  cases step with
  | quiet same stage _ _ down =>
    refine ⟨by simpa only [Agree, same.latest] using h.agree, fun serves => ?_⟩
    rw [MainTask.pub, stage]
    exact (h.serving fun isDown => serves (down.mpr isDown)).same same
  | load loaded =>
    obtain rfl := idle rfl
    exact .of_versions (versions_of_loaded h.agree (loadAndAssemble_reached loaded reached))
  | push _ push stage stage' _ _ serves serves' =>
    have before := h.serving serves
    rw [MainTask.pub, stage, ← stage'] at before
    refine .of_versions (before.advance ?_ ?_ push.published push.publishing)
    · exact fun r => by rw [push.replicas]
    · rw [push.manifest]
      exact Nat.le_succ _
  | put step =>
    refine .of_versions ((h.serving (by simp)).advance step.putPart_latest ?_ ?_ ?_) <;>
      simp [step.putPart_engine]
  | swap | drop =>
    refine .of_versions (Versions.wait ?_ (Nat.le_refl _))
    exact (h.serving (by simp)).advance (fun _ => rfl) (Nat.le_succ _) rfl rfl
  | reclaim => exact .of_versions ((h.serving (by simp)).same ((SameCatalog.refl w).log _))
  | deletePart _ step =>
    refine .of_versions ((h.serving (by simp)).advance step.deletePart_latest ?_ ?_ ?_) <;>
      simp [step.deletePart_engine]
  | publish step => exact .of_versions ((h.serving (by simp)).stageStep step)

theorem Versions.upStep (h : Versions C w mine u.pub) (step : UpStep C w u w' u') :
    Versions C w' mine u'.pub := by
  cases step with
  | aside step => exact h.same step.sameCatalog
  | read _ => exact h
  | missing _ _ => exact h
  | unread | lost | close => exact h.same (.of_replicas rfl rfl rfl rfl)
  | put step =>
    refine h.advance step.putPart_latest ?_ ?_ ?_ <;> simp [step.putPart_engine]
  | record _ =>
    apply Versions.symm
    refine Versions.wait ?_ (Nat.le_refl _)
    exact h.symm.advance (fun _ => rfl) (Nat.le_succ _) rfl rfl
  | publish step => exact (h.symm.stageStep step).symm

theorem versionInv (h : Reachable C w m u) (reached : Reached w.trace) : VersionInv C w m u := by
  induction h with
  | initial => exact ⟨fun r _ _ _ a _ found => by simp [initial, Substrate.empty] at found,
      fun serves => absurd rfl serves⟩
  | main before step ih =>
    exact (ih (reached.suffix step.trace)).mainStep (fun down => (down_idle before down).1) reached
      (step.catalog (inHand_unreplicated before))
  | @upload w m u _ u' before step ih =>
    have before' := ih (reached.suffix step.trace)
    by_cases down : m = .down
    · obtain ⟨rfl, _⟩ := down_idle before down
      cases step with
      | aside step =>
        exact ⟨by simpa only [Agree, step.sameCatalog.latest] using before'.agree,
          fun serves => absurd down serves⟩
    · exact .of_versions ((before'.serving down).upStep step)
  | receive _ _ ih =>
    have before := ih (reached.suffix (suffix_cons _ _))
    exact ⟨before.agree, fun serves => (before.serving serves).same (.of_replicas rfl rfl rfl rfl)⟩
  | rest _ rests ih =>
    have before := (ih reached).serving rests.not_down
    rw [rests.pub_none] at before
    exact .of_versions before
  | halt _ ih =>
    exact ⟨(ih (reached.suffix (suffix_cons _ _))).agree, fun serves => absurd rfl serves⟩

end Ehdb.Proof
