import Ehdb.Core.Fence

/-! `FenceStep` says what one action of a call does. While the calls hold the marker one at a time,
also across processes, it does not go down, and no lower epoch is found fresh later. -/

namespace Ehdb.Proof.Fence

open Ehdb.Core ProofKit
open L0 (Outcome)

/-- Where a guarded call stands between taking the marker's lock and its answer. -/
inductive Stage where
  | asked
  | entered
  | read (highest : Nat)
  | writing (highest : Nat)
  | moved
  | leaving (result : Except FenceError FenceDecision)
  | done (result : Except FenceError FenceDecision)

def Stage.Inside : Stage → Prop
  | .asked => False
  | .done _ => False
  | _ => True

/-- What one step of a guarded call does to the marker. -/
inductive FenceStep (i : Nat) :
    MarkerCell → FenceCall × Stage → MarkerCell → FenceCall × Stage → Prop
  | entered {c q} :
      FenceStep i c (q, .asked) ((c.setLock q.key (some i)).log (.entered i)) (q, .entered)
  | read {c : MarkerCell} {q highest}
      (is : parseMarker c.marker = .ok highest) : FenceStep i c (q, .entered) c (q, .read highest)
  | stale {c} {q : FenceCall} {highest} (below : q.epoch < highest) :
      FenceStep i c (q, .read highest) (c.raise q.key highest)
        (q, .leaving (.ok (.stale q.epoch highest)))
  | current {c q} : FenceStep i c (q, .read q.epoch) (c.raise q.key q.epoch)
        (q, .leaving (.ok (.fresh q.epoch false)))
  | above {c} {q : FenceCall} {highest} (above : highest < q.epoch) :
      FenceStep i c (q, .read highest) (c.raise q.key highest) (q, .writing highest)
  | beside {c q} {stage : Stage} (inside : stage.Inside) : FenceStep i c (q, stage) c (q, stage)
  | broke {c q} {stage : Stage} {e}
      (inside : stage.Inside) : FenceStep i c (q, stage) c (q, .leaving (.error e))
  | moved {c q highest} :
      FenceStep i c (q, .writing highest) { c with marker := some (.epoch q.epoch) } (q, .moved)
  | movedBroke {c q highest} :
      FenceStep i c (q, .writing highest) { c with marker := some (.epoch q.epoch) }
        (q, .leaving (.error .commit))
  | advanced {c q} : FenceStep i c (q, .moved) (c.raise q.key q.epoch)
        (q, .leaving (.ok (.fresh q.epoch true)))
  | left {c q result} : FenceStep i c (q, .leaving result) ((c.setLock q.key none).log (.left i))
        (q, .done result)

def fenceProtocol :
    Protocol MarkerCell FenceCall (Except FenceError FenceDecision) (FenceCall × Stage) where
  start q := (q, .asked)
  next := FenceStep
  done q result l := l = (q, .done result)

variable {highest : Nat}

section Programs

variable {i : Nat} {q : FenceCall} {Q : Except FenceError Unit → FenceCall × Stage → Prop}

theorem follows_besideMarker {stage} (inside : stage.Inside) {e}
    (ok : Q (.ok ()) (q, stage)) (error : ∀ e, Q (.error e) (q, .leaving (.error e))) :
    Follows (FenceStep i) (besideMarker e).run Q (q, stage) := by
  intro o c b c' h
  cases o with
  | ok =>
    cases h
    exact ⟨_, .beside inside, ok⟩
  | fail | failAfter =>
    cases h
    exact ⟨_, .broke inside, error e⟩

theorem follows_writeMarker (ok : Q (.ok ()) (q, .moved))
    (error : ∀ e, Q (.error e) (q, .leaving (.error e))) :
    Follows (FenceStep i) (writeMarker q.epoch).run Q (q, .writing highest) := by
  refine .bindExcept (follows_besideMarker (by trivial) ?_ error)
  refine .bindExcept (follows_besideMarker (by trivial) ?_ error)
  refine .bindExcept (follows_besideMarker (by trivial) ?_ error)
  refine .bindExcept ?_
  intro o c b c' h
  cases o with
  | ok =>
    cases h
    exact ⟨_, .moved, follows_besideMarker (by trivial) ok error⟩
  | fail =>
    cases h
    exact ⟨_, .broke trivial, error .commit⟩
  | failAfter =>
    cases h
    exact ⟨_, .movedBroke, error .commit⟩

theorem follows_compareAndAdvance :
    Follows (FenceStep i) (compareAndAdvance q).run (fun result l => l = (q, .leaving result))
      (q, .entered) := by
  refine .bindExcept fun o c b c' h => ?_
  cases o with
  | fail | failAfter =>
    cases h
    exact ⟨_, .broke trivial, rfl⟩
  | ok =>
    cases h
    cases is : parseMarker c.marker with
    | error e => exact ⟨_, .broke trivial, rfl⟩
    | ok highest =>
      refine ⟨_, .read is, ?_⟩
      intro o c b c' h
      cases h
      -- What is decided once the epoch is known to the process.
      rcases Nat.lt_trichotomy q.epoch highest with below | rfl | above
      · refine ⟨_, .stale below, ?_⟩
        simp only [below, if_true]
        rfl
      · refine ⟨_, .current, ?_⟩
        simp only [lt_irrefl, if_false, decide_false]
        rfl
      · refine ⟨_, .above above, ?_⟩
        simp only [Nat.lt_asymm above, if_false, gt_iff_lt, above, decide_true, if_true]
        refine .bindExcept (follows_writeMarker ?_ fun _ => rfl)
        intro o c b c' h
        cases h
        exact ⟨_, .advanced, rfl⟩

theorem follows_checkAndAdvance (i : Nat) (q : FenceCall) :
    Follows (FenceStep i) (checkAndAdvance i q).run (fun result l => l = (q, .done result))
      (q, .asked) := by
  refine .bindExcept ?_
  intro o c b c' h
  dsimp only at h
  split at h
  · cases h
    refine ⟨_, .entered, ?_⟩
    refine .bindExcept (.bind (follows_compareAndAdvance.mono ?_))
    rintro result l rfl o c b c' h
    cases h
    exact ⟨_, .left, rfl⟩
  · cases h

end Programs

def inside : List FenceEvent → List Nat
  | [] => []
  | .entered i :: rest => i :: inside rest
  | .left i :: rest => (inside rest).erase i

/-- Whether each call took its lock while no other call held one, of whatever process. -/
def oneAtATime : List FenceEvent → Bool
  | [] => true
  | .entered _ :: rest => (inside rest).isEmpty && oneAtATime rest
  | .left _ :: rest => oneAtATime rest

theorem oneAtATime_tail {e rest} (h : oneAtATime (e :: rest) = true) : oneAtATime rest = true := by
  cases e with
  | entered i => exact (Bool.and_eq_true_iff.1 h).2
  | left i => exact h

def level : Option MarkerBody → Nat
  | some (.epoch value) => value
  | _ => 0

variable {marker : Option MarkerBody}

theorem level_of_parse (is : parseMarker marker = .ok highest) : level marker = highest := by
  cases marker with
  | none =>
    cases is
    rfl
  | some body =>
    cases body with
    | epoch value =>
      cases is
      rfl
    | notAnInteger => cases is

/-- A marker with an epoch keeps one, no lower than before. -/
def Rises (before after : Option MarkerBody) : Prop :=
  ∀ e, before = some (.epoch e) → ∃ e', after = some (.epoch e') ∧ e ≤ e'

theorem Rises.refl (marker : Option MarkerBody) : Rises marker marker := fun e is => ⟨e, is, le_rfl⟩

theorem Rises.trans {a b c} (first : Rises a b) (next : Rises b c) : Rises a c := by
  intro e is
  obtain ⟨e', is', le⟩ := first e is
  obtain ⟨e'', is'', le'⟩ := next e' is'
  exact ⟨e'', is'', le.trans le'⟩

variable {after : Option MarkerBody}

theorem Rises.level_le {before} (h : Rises before after) : level before ≤ level after := by
  cases before with
  | none => exact Nat.zero_le _
  | some body =>
    cases body with
    | epoch value =>
      obtain ⟨e', is, le⟩ := h value rfl
      rw [is]
      exact le
    | notAnInteger => exact Nat.zero_le _

theorem Rises.of_level_lt {epoch} (h : level marker < epoch) :
    Rises marker (some (.epoch epoch)) := by
  rintro e rfl
  exact ⟨epoch, rfl, h.le⟩

/-- What a result says of the marker: an epoch that was found fresh is the call's own, and the
marker is at it or above. -/
def ResultOk (marker : Option MarkerBody) (q : FenceCall) : Except FenceError FenceDecision → Prop
  | .ok (.fresh epoch _) => epoch = q.epoch ∧ epoch ≤ level marker
  | _ => True

def StageOk (marker : Option MarkerBody) : FenceCall × Stage → Prop
  | (_, .read highest) => level marker = highest
  | (q, .writing highest) => level marker = highest ∧ highest < q.epoch
  | (q, .moved) => level marker = q.epoch
  | (q, .leaving result) => ResultOk marker q result
  | (q, .done result) => ResultOk marker q result
  | _ => True

/-- A call inside the lock is alone there, and what it has read still stands. -/
structure CallOk (c : MarkerCell) (i : Nat) (q : FenceCall) (l : FenceCall × Stage) : Prop where
  request : l.1 = q
  alone : l.2.Inside → inside c.trace = [i]
  stage : StageOk c.marker l

theorem ResultOk.rises {before q result} (ok : ResultOk before q result)
    (rises : Rises before after) : ResultOk after q result := by
  cases result with
  | error e => trivial
  | ok decision =>
    cases decision with
    | stale observed highest => trivial
    | fresh epoch advanced => exact ⟨ok.1, ok.2.trans rises.level_le⟩

theorem StageOk.rises {before q stage}
    (ok : StageOk before (q, stage)) (outside : ¬stage.Inside) (rises : Rises before after) :
    StageOk after (q, stage) := by
  cases stage with
  | asked => trivial
  | done result => exact ResultOk.rises ok rises
  | entered => exact absurd trivial outside
  | read highest => exact absurd trivial outside
  | writing highest => exact absurd trivial outside
  | moved => exact absurd trivial outside
  | leaving result => exact absurd trivial outside

section Steps

variable {c c' : MarkerCell} {i : Nat} {q : FenceCall} {l l' : FenceCall × Stage}

section

variable (step : FenceStep i c l c' l')
include step

theorem FenceStep.before (h : oneAtATime c'.trace = true) : oneAtATime c.trace = true := by
  cases step with
  | entered => exact oneAtATime_tail h
  | left => exact oneAtATime_tail h
  | _ => exact h

theorem FenceStep.rises (ok : StageOk c.marker l) : Rises c.marker c'.marker := by
  cases step with
  | moved | movedBroke => exact .of_level_lt (ok.1.trans_lt ok.2)
  | _ => exact .refl _

theorem FenceStep.request : l'.1 = l.1 := by
  cases step <;> rfl

theorem FenceStep.stage (ok : StageOk c.marker l) : StageOk c'.marker l' := by
  cases step with
  | entered => trivial
  | read is => exact level_of_parse is
  | stale below => trivial
  | current => exact ⟨rfl, ok.ge⟩
  | above above => exact ⟨ok, above⟩
  | beside inside => exact ok
  | broke inside => trivial
  | moved => rfl
  | movedBroke => trivial
  | advanced => exact ⟨rfl, ok.ge⟩
  | left => exact ok

theorem FenceStep.inside_cases : (c'.trace = c.trace ∧ l.2.Inside) ∨
      (c'.trace = .entered i :: c.trace ∧ c'.marker = c.marker) ∨
      (c'.trace = .left i :: c.trace ∧ l.2.Inside ∧ ¬l'.2.Inside) := by
  cases step with
  | entered => exact .inr (.inl ⟨rfl, rfl⟩)
  | left => exact .inr (.inr ⟨rfl, trivial, id⟩)
  | beside inside => exact .inl ⟨rfl, inside⟩
  | broke inside => exact .inl ⟨rfl, inside⟩
  | _ => exact .inl ⟨rfl, trivial⟩

end

theorem CallOk.self (ok : CallOk c i q l) (step : FenceStep i c l c' l')
    (alone : oneAtATime c'.trace = true) : CallOk c' i q l' := by
  refine ⟨step.request.trans ok.request, ?_, step.stage ok.stage⟩
  intro is_inside
  rcases step.inside_cases with ⟨trace, was_inside⟩ | ⟨trace, -⟩ | ⟨-, -, outside⟩
  · rw [trace]
    exact ok.alone was_inside
  · rw [trace] at alone ⊢
    have empty := List.isEmpty_iff.1 (Bool.and_eq_true_iff.1 alone).1
    simp [inside, empty]
  · exact absurd is_inside outside

theorem CallOk.other {j r m} (ok : CallOk c j r m)
    (acts : CallOk c i q l) (step : FenceStep i c l c' l') (other : j ≠ i)
    (alone : oneAtATime c'.trace = true) : CallOk c' j r m := by
  have outside (held : l.2.Inside) : ¬m.2.Inside := by
    intro also
    have := (ok.alone also).symm.trans (acts.alone held)
    exact other (List.head_eq_of_cons_eq this)
  rcases step.inside_cases with ⟨trace, held⟩ | ⟨trace, marker⟩ | ⟨trace, held, -⟩
  · exact ⟨ok.request, fun also => absurd also (outside held),
      ok.stage.rises (outside held) (step.rises acts.stage)⟩
  · refine ⟨ok.request, fun also => ?_, marker ▸ ok.stage⟩
    rw [trace] at alone
    have empty := List.isEmpty_iff.1 (Bool.and_eq_true_iff.1 alone).1
    have := ok.alone also
    simp [empty] at this
  · exact ⟨ok.request, fun also => absurd also (outside held),
      ok.stage.rises (outside held) (step.rises acts.stage)⟩

end Steps

variable {floor : Nat}

/-- What the call has read or been granted is no lower than `floor`. -/
def Above (floor : Nat) : FenceCall × Stage → Prop
  | (_, .read highest) => floor ≤ highest
  | (_, .writing highest) => floor ≤ highest
  | (q, .moved) => floor ≤ q.epoch
  | (_, .leaving (.ok (.fresh epoch _))) => floor ≤ epoch
  | (_, .done (.ok (.fresh epoch _))) => floor ≤ epoch
  | _ => True

theorem Above.step {i c c' l l'} (h : Above floor l)
    (step : FenceStep i c l c' l') (ok : StageOk c.marker l) (marker : floor ≤ level c.marker) :
    Above floor l' := by
  cases step with
  | entered => trivial
  | read is => exact marker.trans_eq (level_of_parse is)
  | stale below => trivial
  | current => exact h
  | above above => exact h
  | beside inside => exact h
  | broke inside => trivial
  | moved => exact (marker.trans_eq ok.1).trans ok.2.le
  | movedBroke => trivial
  | advanced => exact h
  | @left q result =>
    cases result with
    | error e => trivial
    | ok decision => cases decision <;> exact h

/-- The marker does not go below `marker` and `floor`, nor does what the calls from number `n` on go
by. -/
theorem keeps_fence (marker : Option MarkerBody) (floor n : Nat) :
    fenceProtocol.Keeps fenceService (fun c => oneAtATime c.trace = true)
      (fun c _ => Rises marker c.marker ∧ floor ≤ level c.marker)
      fun c i q l => CallOk c i q l ∧ (n ≤ i → Above floor l) where
  call _ shared := ⟨shared, ⟨rfl, False.elim, trivial⟩, fun _ => trivial⟩
  act {c c' _ i q l l'} step alone := by
    refine ⟨FenceStep.before step alone, fun _ shared own => ?_⟩
    have rises := FenceStep.rises step own.1.stage
    exact ⟨⟨shared.1.trans rises, shared.2.trans rises.level_le⟩,
      ⟨own.1.self step alone, fun from_n => (own.2 from_n).step step own.1.stage shared.2⟩,
      fun other theirs => ⟨theirs.1.other own.1 step other alone, theirs.2⟩⟩
  drop {c _ i q l} alone := by
    refine ⟨alone, fun shared _ => ⟨shared, fun {j _ m} other theirs => ?_⟩⟩
    refine ⟨⟨theirs.1.request, fun held => ?_, theirs.1.stage⟩, theirs.2⟩
    have erased : inside (.left i :: c.trace) = (inside c.trace).erase i := rfl
    show inside (.left i :: c.trace) = [j]
    rw [erased, theirs.1.alone held]
    simp [other]
  world e := nomatch e

end Ehdb.Proof.Fence
