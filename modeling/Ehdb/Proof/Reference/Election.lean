import Ehdb.Reference.Election

/-! The store takes a lease only at the version that was read, and a version never comes back. So an
acquisition writes one more than the epoch of the lease it replaces, and the epochs of a lease go
up. -/

namespace Ehdb.Proof.Reference

open ProofKit Ehdb.Reference List
open InMemoryLeaseStore (compareAndSwap create)

variable {w w' : Election} {i e : Nat}

/-- How far a call is: the elector as it was at the start, the lease that was read, and the epoch
that the store granted, to an acquisition or to a renewal. -/
inductive Progress where
  | idle
  | ready (self : Elector)
  | saw (self : Elector) (found : Option LeaseRecord)
  | won (self : Elector) (epoch : Nat) (acquired : Bool)

def wrote (w : Election) (name : String) (lease : LeaseRecord) : Election :=
  { w with leases := w.leases.insert name lease }

def granted (w : Election) (i e : Nat) (name : String) (lease : LeaseRecord) : Election :=
  { wrote w name lease with acquisitions := w.acquisitions ++ [⟨i, e, name, lease.transitions⟩] }

/-- What one step of an elector does to the leases. -/
inductive ElectionStep (i : Nat) : Election → Nat × Progress → Election → Nat × Progress → Prop
  | look {w : Election} {e self l} (live : w.live e = some self) :
      ElectionStep i w (e, l) w (e, .ready self)
  | read {w : Election} {e self elector} (live : w.live e = some elector) :
      ElectionStep i w (e, .ready self) w (e, .saw self (w.leases.find? elector.leaseName))
  | dropToken {w e l} : ElectionStep i w (e, l) (w.setHeld e none) (e, .idle)
  | miss {w e l} : ElectionStep i w (e, l) w (e, .idle)
  | create {w : Election} {e} {self elector : Elector} {now}
      (live : w.live e = some elector) (absent : w.leases.find? elector.leaseName = none) :
      ElectionStep i w (e, .saw self none)
        (granted w i e elector.leaseName ⟨self.identity, 1, now, self.durationSecs, 1⟩)
        (e, .won self 1 true)
  | acquire {w : Election} {e} {self elector : Elector} {existing current : LeaseRecord} {now}
      (live : w.live e = some elector)
      (found : w.leases.find? elector.leaseName = some current)
      (same : current.version = existing.version) : ElectionStep i w (e, .saw self (some existing))
        (granted w i e elector.leaseName
          ⟨self.identity, existing.transitions + 1, now, self.durationSecs, current.version + 1⟩)
        (e, .won self (existing.transitions + 1) true)
  | renew {w : Election} {e} {self elector : Elector} {existing current : LeaseRecord} {now}
      (live : w.live e = some elector)
      (found : w.leases.find? elector.leaseName = some current)
      (same : current.version = existing.version) (own : existing.holder = self.identity) :
      ElectionStep i w (e, .saw self (some existing))
        (wrote w elector.leaseName
          { existing with renewedAtMillis := now, version := current.version + 1 })
        (e, .won self existing.transitions false)
  | hold {w e self epoch acquired} :
      ElectionStep i w (e, .won self epoch acquired) (w.setHeld e (some epoch))
        (e, .won self epoch acquired)

def electionProtocol : Protocol Election ElectionCall ElectionAnswer (Nat × Progress) where
  start call := (call.elector, .idle)
  next := ElectionStep
  done call answer l := ∀ epoch, answer = .ok (some (.acquired epoch)) →
    ∃ self, l = (call.elector, .won self epoch true)

variable {α : Type}

theorem follows_onElector {f : Elector → Election → α × Election} {Q : α → Nat × Progress → Prop}
    {l : Nat × Progress}
    (h : ∀ w elector, w.live e = some elector → ∃ l', ElectionStep i w l (f elector w).2 l' ∧
      Q (f elector w).1 l') : Follows (ElectionStep i) (onElector e f) Q l := by
  refine .lift ?_
  intro _ w a w' acted
  obtain ⟨elector, live, is⟩ := Option.map_eq_some_iff.1 acted
  obtain ⟨l', step, done⟩ := h w elector live
  rw [is] at step done
  exact ⟨l', step, done⟩

variable {l : Progress} {Q : Unit → Nat × Progress → Prop}

theorem follows_dropToken (done : Q () (e, .idle)) :
    Follows (ElectionStep i) (dropToken e) Q (e, l) :=
  follows_onElector fun _ _ _ => ⟨_, .dropToken, done⟩

variable {self : Elector}

theorem follows_hold {epoch acquired} (done : Q () (e, .won self epoch acquired)) :
    Follows (ElectionStep i) (Reference.setHeld e (some epoch)) Q (e, .won self epoch acquired) :=
  follows_onElector fun _ _ _ => ⟨_, .hold, done⟩

theorem compareAndSwap_cases (store : InMemoryLeaseStore) (name : String) (expected : Nat)
    (record : LeaseRecord) :
    (∃ current, store.find? name = some current ∧ current.version = expected ∧
      compareAndSwap store name expected record =
        (.ok true, store.insert name { record with version := current.version + 1 })) ∨
    ∃ result, result ≠ .ok true ∧ compareAndSwap store name expected record = (result, store) := by
  unfold compareAndSwap
  cases found : store.find? name with
  | none => exact .inr ⟨.error _, nofun, rfl⟩
  | some current =>
    by_cases same : current.version = expected
    · exact .inl ⟨current, rfl, same, by simp [same]⟩
    · exact .inr ⟨.ok false, by simp, by simp [same]⟩

theorem follows_lookAtClock {Q} (done : ∀ self now, Q (self, now) (e, .ready self)) :
    Follows (ElectionStep i) (lookAtClock e) Q (e, l) := by
  refine .lift ?_
  intro now w a w' acted
  obtain ⟨self, live, is⟩ := Option.map_eq_some_iff.1 acted
  cases is
  exact ⟨_, .look live, done self now⟩

theorem follows_readLease {Q} (done : ∀ found, Q found (e, .saw self found)) :
    Follows (ElectionStep i) (readLease e) Q (e, .ready self) :=
  follows_onElector fun _ _ live => ⟨_, .read live, done _⟩

variable {now : Nat}

variable {Q : Result Bool → Nat × Progress → Prop} {existing : LeaseRecord}

def NotAcquired (result : Result ElectionOutcome) (_ : Nat × Progress) : Prop :=
  ∀ epoch, result ≠ .ok (.acquired epoch)

theorem follows_end {Q outcome} (done : Q (.ok outcome) (e, .idle)) : Follows (ElectionStep i)
      (dropToken e >>= fun _ => pure (.ok outcome) : ElectionProg (Result ElectionOutcome)) Q
        (e, l) :=
  .bind (follows_dropToken done)

theorem follows_renew : Follows (ElectionStep i) (Reference.renew e) NotAcquired (e, l) := by
  refine .bind (follows_lookAtClock fun self now => ?_)
  refine .bind (follows_readLease fun found => ?_)
  cases found with
  | none => exact follows_end nofun
  | some existing =>
    dsimp only
    split
    · exact follows_end nofun
    · rename_i own
      split
      · exact follows_end nofun
      · refine .bind (follows_onElector fun w elector live => ?_)
        rcases compareAndSwap_cases w.leases elector.leaseName existing.version
          { existing with renewedAtMillis := now } with
          ⟨current, found, same, swapped⟩ | ⟨result, failed, swapped⟩
        · rw [swapped]
          exact ⟨_, .renew live found same (not_not.1 own), .bind (follows_hold nofun)⟩
        · rw [swapped]
          refine ⟨_, .miss, ?_⟩
          rcases result with err | _ | _
          · exact nofun
          · exact follows_end nofun
          · exact absurd rfl failed

def Granted (e : Nat) (result : Result ElectionOutcome) (l : Nat × Progress) : Prop :=
  ∀ epoch, result = .ok (.acquired epoch) → ∃ self, l = (e, .won self epoch true)

theorem follows_tryAcquire :
    Follows (ElectionStep i) (Reference.tryAcquire i e) (Granted e) (e, l) := by
  refine .bind (follows_lookAtClock fun self now => ?_)
  refine .bind (follows_readLease fun found => ?_)
  cases found with
  | none =>
    refine .bind (follows_onElector fun w elector live => ?_)
    unfold create
    cases found : w.leases.find? elector.leaseName with
    | some current =>
      refine ⟨(e, .idle), ?_, follows_end nofun⟩
      simpa using ElectionStep.miss
    | none =>
      refine ⟨_, .create live found, .bind (follows_hold ?_)⟩
      intro epoch is
      cases is
      exact ⟨self, rfl⟩
  | some existing =>
    dsimp only
    split
    · exact follows_renew.mono fun result _ not epoch is => absurd is (not epoch)
    · split
      · exact follows_end nofun
      · refine .bind (follows_onElector fun w elector live => ?_)
        rcases compareAndSwap_cases w.leases elector.leaseName existing.version
          ⟨self.identity, existing.transitions + 1, now, self.durationSecs, existing.version⟩ with
          ⟨current, found, same, swapped⟩ | ⟨result, failed, swapped⟩
        · rw [swapped]
          refine ⟨_, .acquire live found same, .bind (follows_hold ?_)⟩
          intro epoch is
          cases is
          exact ⟨self, rfl⟩
        · rw [swapped]
          refine ⟨_, by simpa [failed] using ElectionStep.miss, ?_⟩
          rcases result with err | _ | _
          · exact nofun
          · exact follows_end nofun
          · exact absurd rfl failed

theorem follows_election (i : Nat) (call : ElectionCall) :
    Follows (electionProtocol.next i) (electionService.program i call)
      (electionProtocol.done call) (electionProtocol.start call) := by
  cases call with
  | tryAcquire e =>
    refine .bind (follows_tryAcquire.mono ?_)
    intro result l granted epoch is
    cases result with
    | error err => cases is
    | ok outcome =>
      cases is
      exact granted epoch rfl
  | renew e =>
    refine .bind (follows_renew.mono ?_)
    intro result l not epoch is
    cases result with
    | error err => cases is
    | ok outcome =>
      cases is
      exact absurd rfl (not epoch)
  | release e =>
    refine .bind (.bind (follows_dropToken ?_))
    exact nofun

def Is (w : Election) (e : Nat) (self : Elector) : Prop :=
  ∃ elector, w.electors[e]? = some elector ∧ elector.identity = self.identity ∧
    elector.shard = self.shard

/-- A lease is replaced by one of a higher version, an acquisition stays, and an elector keeps its
identity and its shard. -/
structure Grows (w w' : Election) : Prop where
  electors : ∀ e self, Is w e self → Is w' e self
  acquisitions : ∀ a ∈ w.acquisitions, a ∈ w'.acquisitions
  leases : ∀ name current, w.leases.find? name = some current →
    ∃ current', w'.leases.find? name = some current' ∧ current.version ≤ current'.version ∧
      (current'.version = current.version → current' = current)

theorem Grows.of_same (electors : ∀ e self, Is w e self → Is w' e self)
    (acquisitions : w'.acquisitions = w.acquisitions) (leases : w'.leases = w.leases) :
    Grows w w' where
  electors := electors
  acquisitions _ mem := acquisitions ▸ mem
  leases _ current found := ⟨current, leases ▸ found, Nat.le_refl _, fun _ => rfl⟩

variable {j : Nat}

theorem is_modify {f} (identity : ∀ elector, (f elector).identity = elector.identity)
    (shard : ∀ elector, (f elector).shard = elector.shard) (h : Is w e self) :
    ∃ elector, (w.electors.modify j f)[e]? = some elector ∧ elector.identity = self.identity ∧
      elector.shard = self.shard := by
  obtain ⟨elector, found, is_identity, is_shard⟩ := h
  rw [getElem?_modify, found]
  by_cases same : j = e
  · exact ⟨f elector, by simp [same], (identity elector).trans is_identity,
      (shard elector).trans is_shard⟩
  · exact ⟨elector, by simp [same], is_identity, is_shard⟩

variable {held : Option Nat}

theorem grows_setHeld : Grows w (w.setHeld e held) :=
  .of_same (fun _ _ h => is_modify (fun _ => rfl) (fun _ => rfl) h) rfl rfl

theorem grows_stop : Grows w (w.stop e) :=
  .of_same (fun _ _ h => is_modify (fun _ => rfl) (fun _ => rfl) h) rfl rfl

variable {identity : String} {shard durationSecs : Nat}

theorem grows_start : Grows w (w.start identity shard durationSecs) := by
  refine .of_same ?_ rfl rfl
  rintro j self ⟨elector, found, is⟩
  exact ⟨elector, List.getElem?_append_left (List.getElem?_eq_some_iff.1 found).1 ▸ found, is⟩

variable {lease : LeaseRecord} {name : String}

theorem grows_wrote
    (higher : ∀ current, w.leases.find? name = some current → current.version < lease.version) :
    Grows w (wrote w name lease) where
  electors _ _ h := h
  acquisitions _ mem := mem
  leases other current found := by
    by_cases same : other = name
    · subst same
      have above := higher current found
      refine ⟨lease, ?_, Nat.le_of_lt above, fun is => absurd above (is ▸ Nat.lt_irrefl _)⟩
      exact (OrderedMap.find?_insert ..).trans (if_pos rfl)
    · exact ⟨current, (OrderedMap.find?_insert ..).trans ((if_neg same).trans found), Nat.le_refl _,
        fun _ => rfl⟩

theorem Grows.refl : Grows w w := .of_same (fun _ _ h => h) rfl rfl

variable {elector : Elector}

theorem live_eq_some :
    w.live e = some elector ↔ w.electors[e]? = some elector ∧ elector.running = true := by
  simp [Election.live, Option.filter_eq_some_iff]

theorem Is.of_live (is : Is w e self) (live : w.live e = some elector) :
    elector.identity = self.identity ∧ elector.leaseName = self.leaseName := by
  obtain ⟨known, found, identity, shard⟩ := is
  rw [(live_eq_some.1 live).1] at found
  cases found
  exact ⟨identity, by rw [Elector.leaseName, Elector.leaseName, shard]⟩

/-- The epochs of a lease were taken in increasing order, none above its transitions. -/
structure Epochs (w : Election) : Prop where
  increasing : w.acquisitions.Pairwise fun a b => a.lease = b.lease → a.epoch < b.epoch
  bounded : ∀ a ∈ w.acquisitions,
    ∃ lease, w.leases.find? a.lease = some lease ∧ a.epoch ≤ lease.transitions

/-- What is known of a call: the elector is who it was, the lease that was read has been replaced by
higher versions only, and an acquisition was recorded. -/
def StageOk (w : Election) (i e : Nat) : Progress → Prop
  | .idle => True
  | .ready self => Is w e self
  | .saw self found => Is w e self ∧ ∀ existing, found = some existing →
    ∃ current, w.leases.find? self.leaseName = some current ∧
      existing.version ≤ current.version ∧ (current.version = existing.version → current = existing)
  | .won self epoch acquired => Is w e self ∧
    (acquired = true → ⟨i, e, self.leaseName, epoch⟩ ∈ w.acquisitions)

theorem StageOk.mono (h : StageOk w i e l) (grows : Grows w w') : StageOk w' i e l := by
  cases l with
  | idle => trivial
  | ready self => exact grows.electors e self h
  | saw self found =>
    refine ⟨grows.electors e self h.1, fun existing is => ?_⟩
    obtain ⟨current, now, older, same⟩ := h.2 existing is
    obtain ⟨current', later, above, same'⟩ := grows.leases _ current now
    refine ⟨current', later, older.trans above, fun back => ?_⟩
    have unchanged : current'.version = current.version := by omega
    rw [same' unchanged]
    exact same (unchanged ▸ back)
  | won self epoch acquired =>
    exact ⟨grows.electors e self h.1, fun taken => grows.acquisitions _ (h.2 taken)⟩

section Written

variable {name : String} {lease : LeaseRecord}

theorem find?_wrote {other} : (wrote w name lease).leases.find? other =
    if other = name then some lease else w.leases.find? other := OrderedMap.find?_insert ..

theorem epochs_wrote (h : Epochs w)
    (above : ∀ current, w.leases.find? name = some current →
      current.transitions ≤ lease.transitions) : Epochs (wrote w name lease) := by
  refine ⟨h.increasing, fun a mem => ?_⟩
  obtain ⟨current, found, below⟩ := h.bounded a mem
  rw [find?_wrote]
  split
  · rename_i same
    exact ⟨lease, rfl, below.trans (above current (same ▸ found))⟩
  · exact ⟨current, found, below⟩

end Written

/-- A step keeps the epochs and what its own call relies on. -/
structure StepKeeps (w w' : Election) (i e : Nat) (l' : Nat × Progress) : Prop where
  elector : l'.1 = e
  grows : Grows w w'
  epochs : Epochs w'
  stage : StageOk w' i e l'.2

variable {l' : Nat × Progress}

theorem StepKeeps.granted (epochs : Epochs w) (stage : Is w e self) (live : w.live e = some elector)
    (above : ∀ current, w.leases.find? elector.leaseName = some current →
      current.version < lease.version ∧ current.transitions < lease.transitions) :
    StepKeeps w (granted w i e elector.leaseName lease) i e
      (e, .won self lease.transitions true) := by
  have wrote := grows_wrote fun current found => (above current found).1
  have grows : Grows w (Reference.granted w i e elector.leaseName lease) :=
    ⟨wrote.electors, fun _ mem => mem_append_left _ mem, wrote.leases⟩
  refine ⟨rfl, grows, ?_, grows.electors _ _ stage, fun _ => ?_⟩
  · -- the epoch granted is above those of the lease so far
    have written := epochs_wrote epochs fun current found => Nat.le_of_lt (above current found).2
    refine ⟨pairwise_append.2 ⟨epochs.increasing, pairwise_singleton _ _, ?_⟩, ?_⟩
    · intro a mem b new same
      rw [mem_singleton.1 new] at same ⊢
      have same : a.lease = elector.leaseName := same
      obtain ⟨current, found, below⟩ := epochs.bounded a mem
      exact Nat.lt_of_le_of_lt below (above current (same ▸ found)).2
    · intro a mem
      rcases mem_append.1 mem with old | new
      · exact written.bounded a old
      · rw [mem_singleton.1 new]
        exact ⟨lease, by rw [show (Reference.granted w i e elector.leaseName lease).leases =
          (Reference.wrote w elector.leaseName lease).leases from rfl, find?_wrote, if_pos rfl],
            Nat.le_refl _⟩
  · rw [(Is.of_live stage live).2]
    exact mem_append_right _ (mem_singleton.2 rfl)

theorem ElectionStep.keeps {l} (step : ElectionStep i w l w' l')
    (epochs : Epochs w) (stage : StageOk w i l.1 l.2) : StepKeeps w w' i l.1 l' := by
  cases step with
  | @look e self _ live =>
    have found := (live_eq_some.1 live).1
    exact ⟨rfl, .refl, epochs, self, found, rfl, rfl⟩
  | @read e self elector live =>
    refine ⟨rfl, .refl, epochs, stage, fun existing is => ?_⟩
    rw [(Is.of_live stage live).2] at is
    exact ⟨existing, is, Nat.le_refl _, fun _ => rfl⟩
  | dropToken => exact ⟨rfl, grows_setHeld, ⟨epochs.increasing, epochs.bounded⟩, trivial⟩
  | miss => exact ⟨rfl, .refl, epochs, trivial⟩
  | @create e self elector now live absent =>
    refine .granted epochs stage.1 live fun current found => ?_
    rw [absent] at found
    cases found
  | @acquire e self elector existing current now live found same =>
    have name := (Is.of_live stage.1 live).2
    obtain ⟨known, is_known, -, unchanged⟩ := stage.2 existing rfl
    rw [← name, found] at is_known
    cases is_known
    cases unchanged same
    refine .granted epochs stage.1 live fun current' found' => ?_
    rw [found] at found'
    cases found'
    exact ⟨Nat.lt_succ_self _, Nat.lt_succ_self _⟩
  | @renew e self elector existing current now live found same own =>
    have name := (Is.of_live stage.1 live).2
    obtain ⟨known, is_known, -, unchanged⟩ := stage.2 existing rfl
    rw [← name, found] at is_known
    cases is_known
    cases unchanged same
    have grows : Grows w (wrote w elector.leaseName
        { existing with renewedAtMillis := now, version := existing.version + 1 }) :=
      grows_wrote fun current' found' => by
        rw [found] at found'
        cases found'
        exact Nat.lt_succ_self _
    refine ⟨rfl, grows, epochs_wrote epochs fun current' found' => ?_,
      grows.electors _ _ stage.1, nofun⟩
    rw [found] at found'
    cases found'
    exact Nat.le_refl _
  | hold => exact ⟨rfl, grows_setHeld, ⟨epochs.increasing, epochs.bounded⟩,
      grows_setHeld.electors _ _ stage.1, stage.2⟩

def Took (w : Election) (e : Nat) (name : String) (epoch : Nat) : Prop :=
  ∃ call, (⟨call, e, name, epoch⟩ : Acquisition) ∈ w.acquisitions

/-- No two electors of a shard that run have one identity, the one that a lease names took it, and a
token that is held was taken by its holder. -/
structure Owned (w : Election) : Prop where
  unique : ∀ e e' elector elector', w.live e = some elector → w.live e' = some elector' →
    elector.leaseName = elector'.leaseName → elector.identity = elector'.identity → e = e'
  owner : ∀ e elector lease, w.live e = some elector →
    w.leases.find? elector.leaseName = some lease → lease.holder = elector.identity →
    Took w e elector.leaseName lease.transitions
  held : ∀ e elector epoch, w.electors[e]? = some elector → elector.held = some epoch →
    Took w e elector.leaseName epoch

def OwnStage (w : Election) (e : Nat) : Progress → Prop
  | .saw self found => ∀ existing, found = some existing → existing.holder = self.identity →
    Took w e self.leaseName existing.transitions
  | .won self epoch _ => Took w e self.leaseName epoch
  | _ => True

theorem OwnStage.mono (h : OwnStage w e l) (more : ∀ a ∈ w.acquisitions, a ∈ w'.acquisitions) :
    OwnStage w' e l := by
  cases l with
  | idle => trivial
  | ready self => trivial
  | saw self found =>
    intro existing is own
    obtain ⟨call, mem⟩ := h existing is own
    exact ⟨call, more _ mem⟩
  | won self epoch acquired =>
    obtain ⟨call, mem⟩ := h
    exact ⟨call, more _ mem⟩

theorem getElem?_modify_eq_some {l : List α} {f : α → α} {k : Nat} {b : α}
    (h : (l.modify j f)[k]? = some b) :
    ∃ a, l[k]? = some a ∧ (b = a ∧ j ≠ k ∨ b = f a ∧ j = k) := by
  rw [getElem?_modify] at h
  cases found : l[k]? with
  | none => simp [found] at h
  | some a =>
    rw [found] at h
    by_cases same : j = k
    · refine ⟨a, rfl, .inr ⟨?_, same⟩⟩
      simpa [same] using h.symm
    · refine ⟨a, rfl, .inl ⟨?_, same⟩⟩
      simpa [same] using h.symm

theorem live_setHeld (live : (w.setHeld j held).live e = some elector) :
    ∃ before, w.live e = some before ∧ elector.leaseName = before.leaseName ∧
      elector.identity = before.identity := by
  obtain ⟨found, running⟩ := live_eq_some.1 live
  obtain ⟨before, known, ⟨rfl, -⟩ | ⟨rfl, -⟩⟩ := getElem?_modify_eq_some found
  · exact ⟨elector, live_eq_some.2 ⟨known, running⟩, rfl, rfl⟩
  · exact ⟨before, live_eq_some.2 ⟨known, running⟩, rfl, rfl⟩

theorem Owned.setHeld (h : Owned w)
    (own : ∀ elector epoch, w.electors[e]? = some elector → held = some epoch →
      Took w e elector.leaseName epoch) : Owned (w.setHeld e held) where
  unique j k elector elector' live live' name identity := by
    obtain ⟨before, was, same_name, same_identity⟩ := live_setHeld live
    obtain ⟨before', was', same_name', same_identity'⟩ := live_setHeld live'
    rw [same_name, same_name'] at name
    rw [same_identity, same_identity'] at identity
    exact h.unique j k before before' was was' name identity
  owner j elector lease live found holder := by
    obtain ⟨before, was, same_name, same_identity⟩ := live_setHeld live
    rw [same_name] at found ⊢
    exact h.owner j before lease was found (same_identity ▸ holder)
  held j elector epoch found is_held := by
    obtain ⟨before, known, ⟨rfl, -⟩ | ⟨rfl, rfl⟩⟩ := getElem?_modify_eq_some found
    · exact h.held j elector epoch known is_held
    · exact own before epoch known is_held

theorem live_stop (live : (w.stop j).live e = some elector) : w.live e = some elector := by
  obtain ⟨found, running⟩ := live_eq_some.1 live
  obtain ⟨before, known, ⟨rfl, -⟩ | ⟨rfl, -⟩⟩ := getElem?_modify_eq_some found
  · exact live_eq_some.2 ⟨known, running⟩
  · cases running

theorem Owned.stop (h : Owned w) : Owned (w.stop j) where
  unique e e' elector elector' live live' := h.unique e e' elector elector' (live_stop live)
    (live_stop live')
  owner e elector lease live := h.owner e elector lease (live_stop live)
  held e elector epoch found is_held := by
    obtain ⟨before, known, ⟨rfl, -⟩ | ⟨rfl, -⟩⟩ := getElem?_modify_eq_some found
    · exact h.held e elector epoch known is_held
    · exact h.held e before epoch known is_held

theorem electors_start
    (found : (w.start identity shard durationSecs).electors[e]? = some elector) :
    w.electors[e]? = some elector ∨
      e = w.electors.length ∧ elector = ⟨identity, shard, durationSecs, none, true⟩ := by
  by_cases old : e < w.electors.length
  · exact .inl (getElem?_append_left old ▸ found)
  · have found : (w.electors ++ [_])[e]? = some elector := found
    rw [getElem?_append_right (Nat.not_lt.1 old), getElem?_singleton] at found
    split at found
    · cases found
      exact .inr ⟨by omega, rfl⟩
    · cases found

theorem live_start (live : (w.start identity shard durationSecs).live e = some elector) :
    w.live e = some elector ∨
      e = w.electors.length ∧ elector = ⟨identity, shard, durationSecs, none, true⟩ := by
  obtain ⟨found, running⟩ := live_eq_some.1 live
  exact (electors_start found).imp_left fun old => live_eq_some.2 ⟨old, running⟩

theorem untaken (free : w.takenIdentity identity shard = false) :
    (∀ e elector, w.live e = some elector → elector.leaseName = shardLeaseName shard →
      elector.identity ≠ identity) ∧
    ∀ lease, w.leases.find? (shardLeaseName shard) = some lease → lease.holder ≠ identity := by
  obtain ⟨nobody, unnamed⟩ := Bool.or_eq_false_iff.1 free
  refine ⟨fun e elector live name same => ?_, fun lease found same => ?_⟩
  · obtain ⟨known, running⟩ := live_eq_some.1 live
    have := any_eq_false.1 nobody elector (mem_of_getElem? known)
    simp [running, name, same] at this
  · rw [found] at unnamed
    simp [same] at unnamed

theorem Owned.start (h : Owned w) (free : w.takenIdentity identity shard = false) :
    Owned (w.start identity shard durationSecs) := by
  obtain ⟨nobody, unnamed⟩ := untaken free
  refine ⟨?_, ?_, ?_⟩
  · intro e e' elector elector' live live' name same
    rcases live_start live with old | ⟨rfl, rfl⟩
    · rcases live_start live' with old' | ⟨rfl, rfl⟩
      · exact h.unique e e' elector elector' old old' name same
      · exact absurd same (nobody e elector old name)
    · rcases live_start live' with old' | ⟨rfl, rfl⟩
      · exact absurd same.symm (nobody e' elector' old' name.symm)
      · rfl
  · intro e elector lease live found holder
    rcases live_start live with old | ⟨rfl, rfl⟩
    · exact h.owner e elector lease old found holder
    · exact absurd holder (unnamed lease found)
  · intro e elector epoch found is_held
    rcases electors_start found with old | ⟨-, rfl⟩
    · exact h.held e elector epoch old is_held
    · cases is_held

theorem Owned.written (h : Owned w)
    (electors : w'.electors = w.electors) (leases : w'.leases = w.leases.insert name lease)
    (more : ∀ a ∈ w.acquisitions, a ∈ w'.acquisitions)
    (own : ∀ e elector, w.live e = some elector → elector.leaseName = name →
      lease.holder = elector.identity → Took w' e name lease.transitions) : Owned w' := by
  have live_eq (e : Nat) : w'.live e = w.live e := by
    rw [Election.live, electors]
    rfl
  have still {e : Nat} {name : String} {epoch : Nat} : Took w e name epoch → Took w' e name epoch :=
    fun ⟨call, mem⟩ => ⟨call, more _ mem⟩
  refine ⟨?_, ?_, ?_⟩
  · intro e e' elector elector' live live'
    exact h.unique e e' elector elector' (live_eq e ▸ live) (live_eq e' ▸ live')
  · intro e elector lease' live found holder
    rw [live_eq] at live
    rw [leases, OrderedMap.find?_insert] at found
    split at found
    · rename_i same
      cases found
      exact same ▸ own e elector live same holder
    · exact still (h.owner e elector lease' live found holder)
  · intro e elector epoch found is_held
    exact still (h.held e elector epoch (electors ▸ found) is_held)

theorem Owned.granted (h : Owned w) (stage : Is w e self) (live : w.live e = some elector)
    (holder : lease.holder = self.identity) : Owned (granted w i e elector.leaseName lease) ∧
      Took (granted w i e elector.leaseName lease) e self.leaseName lease.transitions := by
  obtain ⟨identity, name⟩ := Is.of_live stage live
  have took : Took (Reference.granted w i e elector.leaseName lease) e elector.leaseName
      lease.transitions := ⟨i, mem_append_right _ (mem_singleton.2 rfl)⟩
  refine ⟨h.written rfl rfl (fun _ mem => mem_append_left _ mem) ?_, name ▸ took⟩
  intro e' elector' live' name' holder'
  cases h.unique e e' elector elector' live live' name'.symm
    (identity.trans (holder.symm.trans holder'))
  exact took

theorem ElectionStep.owned {l} (step : ElectionStep i w l w' l')
    (stage : StageOk w i l.1 l.2) (own : OwnStage w l.1 l.2) (owned : Owned w) :
    Owned w' ∧ OwnStage w' l.1 l'.2 := by
  cases step with
  | look live => exact ⟨owned, trivial⟩
  | @read e self elector live =>
    refine ⟨owned, fun existing is holder => ?_⟩
    obtain ⟨identity, name⟩ := Is.of_live stage live
    rw [← name]
    exact owned.owner e elector existing live is (holder.trans identity.symm)
  | dropToken => exact ⟨owned.setHeld nofun, trivial⟩
  | miss => exact ⟨owned, trivial⟩
  | create live absent => exact owned.granted stage.1 live rfl
  | acquire live found same => exact owned.granted stage.1 live rfl
  | @renew e self elector existing current now live found same holds =>
    obtain ⟨identity, name⟩ := Is.of_live stage.1 live
    have took := own existing rfl holds
    refine ⟨owned.written rfl rfl (fun _ mem => mem) ?_, took⟩
    intro e' elector' live' name' holder
    have holder : elector.identity = elector'.identity := identity.trans (holds.symm.trans holder)
    cases owned.unique e e' elector elector' live live' name'.symm holder
    exact name ▸ took
  | @hold e self epoch acquired =>
    refine ⟨owned.setHeld fun elector epoch' found is => ?_, own.mono fun _ mem => mem⟩
    cases is
    obtain ⟨known, is_known, -, shard⟩ := stage.1
    rw [found] at is_known
    cases is_known
    rw [show elector.leaseName = self.leaseName from congrArg shardLeaseName shard]
    exact own

theorem ElectionStep.clash {l} (step : ElectionStep i w l w' l') : w'.clash = w.clash := by
  cases step <;> rfl

theorem keeps_election : electionProtocol.Keeps electionService (fun _ => True)
    (fun w _ => Epochs w ∧ (w.clash = false → Owned w)) (fun w i call l =>
      l.1 = call.elector ∧ StageOk w i l.1 l.2 ∧ (w.clash = false → OwnStage w l.1 l.2)) where
  call _ shared := ⟨shared, rfl, trivial, fun _ => trivial⟩
  drop _ := ⟨trivial, fun shared _ => ⟨shared, fun _ => id⟩⟩
  act {w w' n i call l l'} step _ := by
    refine ⟨trivial, fun _ shared own => ?_⟩
    have kept := step.keeps shared.1 own.2.1
    have owned (calm : w'.clash = false) : Owned w' ∧ OwnStage w' l.1 l'.2 := by
      rw [step.clash] at calm
      exact step.owned own.2.1 (own.2.2 calm) (shared.2 calm)
    have same := kept.elector
    refine ⟨⟨kept.epochs, fun calm => (owned calm).1⟩,
      ⟨same.trans own.1, ?_, fun calm => ?_⟩, fun _ other => ?_⟩
    · rw [same]
      exact kept.stage
    · rw [same]
      exact (owned calm).2
    · refine ⟨other.1, other.2.1.mono kept.grows, fun calm => ?_⟩
      rw [step.clash] at calm
      exact (other.2.2 calm).mono kept.grows.acquisitions
  world {w n} event _ := by
    refine ⟨trivial, fun shared => ?_⟩
    cases event with
    | start identity shard durationSecs =>
      refine ⟨⟨⟨shared.1.increasing, shared.1.bounded⟩, fun calm => ?_⟩, fun _ own => ?_⟩
      · obtain ⟨calm, free⟩ := Bool.or_eq_false_iff.1 calm
        exact (shared.2 calm).start free
      · refine ⟨own.1, own.2.1.mono grows_start, fun calm => ?_⟩
        exact (own.2.2 (Bool.or_eq_false_iff.1 calm).1).mono fun _ mem => mem
    | stop e =>
      refine ⟨⟨⟨shared.1.increasing, shared.1.bounded⟩, fun calm => (shared.2 calm).stop⟩, ?_⟩
      exact fun _ own => ⟨own.1, own.2.1.mono grows_stop, fun calm =>
        (own.2.2 calm).mono fun _ mem => mem⟩

end Ehdb.Proof.Reference
