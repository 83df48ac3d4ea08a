import Ehdb.Feed.Cursor

/-! `StoreStep` says what one action of a `store` call does. The file holds every acknowledged
cursor, if calls look at the mark one at a time and above every failed write. -/

namespace Ehdb.Proof.Cursor

open Feed ProofKit
open L0 (Outcome)
open CursorCell (log moveTmp)

/-- Where a cursor store stands, from its check to its rename. -/
inductive Stage where
  | asked
  | raised
  | created
  | written
  | renamed
  | failed
  | done (result : Except CursorError Bool)

def Stage.Writing : Stage → Prop
  | .raised => True
  | .created => True
  | .written => True
  | _ => False

/-- What one step of a cursor store does to the cell. -/
inductive StoreStep (i : Nat) : CursorCell → Nat × Stage → CursorCell → Nat × Stage → Prop
  | checked {c x} : StoreStep i c (x, .asked) c (x, .asked)
  | refused {c x} : StoreStep i c (x, .asked) c (x, .done (.error .refused))
  | skipped {c : CursorCell} {x} (below : x ≤ c.store.written) :
      StoreStep i c (x, .asked) (c.log (.skipped i x)) (x, .done (.ok false))
  | raised {c : CursorCell} {x} (above : c.store.written < x) :
      StoreStep i c (x, .asked) ((c.raise x).log (.raised i x)) (x, .raised)
  | locked {c x} : StoreStep i c (x, .raised) (c.lock (some i)) (x, .raised)
  | created {c x} : StoreStep i c (x, .raised) { c with tmp := some .unparsable } (x, .created)
  | written {c x} :
      StoreStep i c (x, .created) { c with tmp := c.tmp.map fun _ => c.body x } (x, .written)
  | synced {c x} : StoreStep i c (x, .written) c (x, .written)
  | renamed {c : CursorCell} {x} (present : c.tmp.isSome) :
      StoreStep i c (x, .written) (c.moveTmp.log (.renamed i x)) (x, .renamed)
  | broke {c x} {stage : Stage} (tmp : Option FileBody)
      (writing : stage.Writing) :
      StoreStep i c (x, stage) (log { c with tmp := tmp } (.failed i x)) (x, .failed)
  | brokeAfter {c : CursorCell} {x} (present : c.tmp.isSome) :
      StoreStep i c (x, .written) (c.moveTmp.log (.failed i x)) (x, .failed)
  | succeeded {c x} : StoreStep i c (x, .renamed) (c.lock none) (x, .done (.ok true))
  | gaveUp {c x} : StoreStep i c (x, .failed) (c.lock none) (x, .done (.error .io))

def storeProtocol : Protocol CursorCell Nat (Except CursorError Bool) (Nat × Stage) where
  start x := (x, .asked)
  next := StoreStep
  done x result l := l = (x, .done result)

variable {stage : Stage}

section Programs

variable {i x : Nat} {α : Type} {Q : Except CursorError Unit → Nat × Stage → Prop}

theorem follows_fsStep {effect partly stage'}
    (writing : stage.Writing) (takes : ∀ c, StoreStep i c (x, stage) (effect c) (x, stage'))
    (effects : ∀ c, ∃ tmp, effect c = { c with tmp := tmp })
    (parts : ∀ c, ∃ tmp, partly c = { c with tmp := tmp }) (ok : Q (.ok ()) (x, stage'))
    (error : Q (.error .io) (x, .failed)) :
    Follows (StoreStep i) (fsStep i x effect partly).run Q (x, stage) := by
  intro o c b c' h
  cases o with
  | ok =>
    cases h
    exact ⟨_, takes c, ok⟩
  | fail =>
    cases h
    obtain ⟨tmp, eq⟩ := parts c
    exact ⟨_, eq ▸ .broke tmp writing, error⟩
  | failAfter =>
    cases h
    obtain ⟨tmp, eq⟩ := effects c
    exact ⟨_, eq ▸ .broke tmp writing, error⟩

theorem follows_writeCursor (ok : Q (.ok ()) (x, .renamed)) (error : Q (.error .io) (x, .failed)) :
    Follows (StoreStep i) (writeCursor i x).run Q (x, .raised) := by
  refine .bindExcept (follows_fsStep trivial (fun c => .created) (fun c => ⟨_, rfl⟩)
    (fun c => ⟨c.tmp, rfl⟩) ?_ error)
  refine .bindExcept (follows_fsStep trivial (fun c => .written) (fun c => ⟨_, rfl⟩)
    (fun c => ⟨_, rfl⟩) ?_ error)
  refine .bindExcept (follows_fsStep trivial (fun c => .synced) (fun c => ⟨c.tmp, rfl⟩)
    (fun c => ⟨c.tmp, rfl⟩) ?_ error)
  intro o c b c' h
  dsimp only at h
  split at h
  · rename_i present
    cases h
    exact ⟨_, .renamed (by simp [present]), ok⟩
  · rename_i present
    cases h
    exact ⟨_, .brokeAfter (by simp [present]), error⟩
  · cases h
    exact ⟨_, .broke c.tmp trivial, error⟩

theorem follows_store (i x : Nat) :
    Follows (StoreStep i) (store i x).run (fun result l => l = (x, .done result)) (x, .asked) := by
  refine .bindExcept fun o c b c' h => ?_
  dsimp only at h
  split at h
  · cases h
    exact ⟨_, .refused, rfl⟩
  cases h
  refine ⟨_, .checked, .bindExcept ?_⟩
  intro o c b c' h
  dsimp only at h
  split at h
  · rename_i below
    cases h
    exact ⟨_, .skipped below, rfl⟩
  rename_i above
  cases h
  refine ⟨_, .raised (Nat.lt_of_not_le above), ?_⟩
  refine .bindExcept fun o c b c' h => ?_
  dsimp only at h
  split at h
  on_goal 2 => cases h
  cases h
  refine ⟨_, .locked, ?_⟩
  -- The guard is given back whether or not the write went through.
  refine .bindExcept (.bind (follows_writeCursor ?_ ?_))
  · intro o c b c' h
    cases h
    exact ⟨_, .succeeded, rfl⟩
  · intro o c b c' h
    cases h
    exact ⟨_, .gaveUp, rfl⟩

end Programs

def writing : List CursorEvent → List Nat
  | [] => []
  | .raised i _ :: rest => i :: writing rest
  | .skipped _ _ :: rest => writing rest
  | .renamed i _ :: rest => (writing rest).erase i
  | .failed i _ :: rest => (writing rest).erase i

def failedCursors : List CursorEvent → List Nat
  | [] => []
  | .failed _ x :: rest => x :: failedCursors rest
  | _ :: rest => failedCursors rest

/-- Whether a call with cursor `x` may look at the mark after `rest`: no write is under way, and
`x` is above zero and above every cursor whose write failed. -/
def mayConsult (x : Nat) (rest : List CursorEvent) : Bool :=
  (writing rest).isEmpty && (failedCursors rest).all (· < x) && 0 < x

def orderly : List CursorEvent → Bool
  | [] => true
  | .raised _ x :: rest => mayConsult x rest && orderly rest
  | .skipped _ x :: rest => mayConsult x rest && orderly rest
  | .renamed _ _ :: rest => orderly rest
  | .failed _ _ :: rest => orderly rest

variable {rest : List CursorEvent} {x : Nat}

theorem mayConsult_iff :
    mayConsult x rest = true ↔ writing rest = [] ∧ (∀ y ∈ failedCursors rest, y < x) ∧ 0 < x := by
  simp [mayConsult, and_assoc]

def Alone (c : CursorCell) (i x : Nat) : Prop :=
  writing c.trace = [i] ∧ c.store.written = x

/-- A restart would read a cursor no lower than `x`. -/
def Held (c : CursorCell) (x : Nat) : Prop :=
  x ≤ c.store.written ∧ ∃ cursor, c.load = some cursor ∧ x ≤ cursor

/-- What a call relies on at each stage. -/
def CallOk (c : CursorCell) (i : Nat) : Nat × Stage → Prop
  | (x, .raised) => Alone c i x
  | (x, .created) => Alone c i x ∧ c.tmp.isSome
  | (x, .written) => Alone c i x ∧ c.tmp = some (c.body x)
  | (x, .renamed) => Held c x
  | (x, .done (.ok _)) => Held c x
  | (_, .asked) => True
  | (_, .failed) => True
  | (_, .done (.error _)) => True

/-- While nothing is being written, the file is at the mark unless the write of it failed. -/
def Level (c : CursorCell) : Prop :=
  writing c.trace = [] → c.store.written = 0 ∨ c.store.written ∈ failedCursors c.trace ∨
    ∃ cursor, c.load = some cursor ∧ c.store.written ≤ cursor

variable {c : CursorCell}

theorem CallOk.alone {i x} (ok : CallOk c i (x, stage))
    (writing : stage.Writing) : Alone c i x := by
  cases stage with
  | raised => exact ok
  | created => exact ok.1
  | written => exact ok.1
  | asked => cases writing
  | renamed => cases writing
  | failed => cases writing
  | done result => cases writing

variable {j : Nat} {c c' : CursorCell}

theorem CallOk.keep (ok : CallOk c j (x, stage))
    (idle : ¬stage.Writing) (held : ∀ y, Held c y → Held c' y) : CallOk c' j (x, stage) := by
  cases stage with
  | raised | created | written => exact absurd trivial idle
  | asked => trivial
  | renamed => exact held x ok
  | failed => trivial
  | done result =>
    cases result with
    | ok b => exact held x ok
    | error e => trivial

variable {y : Nat}

theorem CallOk.idle_of_alone {i x} (ok : CallOk c j (y, stage))
    (alone : Alone c i x) (other : j ≠ i) : ¬stage.Writing := by
  intro writing
  have := (ok.alone writing).1.symm.trans alone.1
  exact other (List.head_eq_of_cons_eq this)

theorem Held.of_load (held : Held c y)
    (mark : c.store.written ≤ c'.store.written) (load : c'.load = c.load) : Held c' y := by
  obtain ⟨below, cursor, eq, le⟩ := held
  exact ⟨below.trans mark, cursor, load.trans eq, le⟩

theorem load_moveTmp (tmp : c.tmp = some (c.body x)) : c.moveTmp.load = some x := by
  simp [CursorCell.load, moveTmp, tmp, CursorCell.body, CursorStore.load]

theorem Held.of_moveTmp (held : Held c y) (tmp : c.tmp = some (c.body x))
    (mark : c.store.written = x) (e : CursorEvent) : Held (c.moveTmp.log e) y :=
  ⟨held.1, x, load_moveTmp tmp, held.1.trans_eq mark⟩

/-- A step keeps what every call relies on. -/
structure Kept (c c' : CursorCell) (i : Nat) (l' : Nat × Stage) : Prop where
  self : CallOk c' i l'
  others : ∀ (j : Nat) (l : Nat × Stage), j ≠ i → CallOk c j l → CallOk c' j l
  level : Level c'

theorem orderly_tail {e} (h : orderly (e :: rest) = true) : orderly rest = true := by
  cases e with
  | raised i x => exact (Bool.and_eq_true_iff.1 h).2
  | skipped i x => exact (Bool.and_eq_true_iff.1 h).2
  | renamed i x => exact h
  | failed i x => exact h

variable {l' l : Nat × Stage}

section Steps

variable {c c' : CursorCell} {i x : Nat}

theorem Level.quiet (level : Level c) (trace : c'.trace = c.trace)
    (mark : c'.store.written = c.store.written) (load : c'.load = c.load) (self : CallOk c' i l')
    (others : ∀ (j : Nat) (l : Nat × Stage), j ≠ i → CallOk c j l → CallOk c' j l) :
    Kept c c' i l' := ⟨self, others, by rw [Level, trace, mark, load]; exact level⟩

theorem CallOk.of_lock {holder} (ok : CallOk c j l) : CallOk (c.lock holder) j l := by
  obtain ⟨y, stage⟩ := l
  cases stage with
  | done result => cases result <;> exact ok
  | _ => exact ok

theorem Level.skip (level : Level c) (below : x ≤ c.store.written)
    (may : mayConsult x c.trace = true) :
    Kept c (c.log (.skipped i x)) i (x, .done (.ok false)) := by
  obtain ⟨none, failed, positive⟩ := mayConsult_iff.1 may
  have held : Held c x := by
    refine ⟨below, ?_⟩
    rcases level none with zero | failing | ⟨cursor, load, le⟩
    · omega
    · have := failed _ failing
      omega
    · exact ⟨cursor, load, below.trans le⟩
  refine ⟨held, ?_, level⟩
  intro j l _ ok
  obtain ⟨y, stage⟩ := l
  cases stage with
  | done result => cases result <;> exact ok
  | _ => exact ok

theorem Kept.raise (above : c.store.written < x) (may : mayConsult x c.trace = true) :
    Kept c ((c.raise x).log (.raised i x)) i (x, .raised) := by
  obtain ⟨none, -, -⟩ := mayConsult_iff.1 may
  refine ⟨⟨by simp [log, CursorCell.raise, writing, none], rfl⟩, ?_, ?_⟩
  · intro j l _ ok
    obtain ⟨y, stage⟩ := l
    have idle : ¬stage.Writing := by
      intro writes
      have := (ok.alone writes).1
      simp [none] at this
    exact ok.keep idle fun y held => held.of_load above.le rfl
  · simp [Level, log, CursorCell.raise, writing]

theorem Level.touch (level : Level c) {tmp} (alone : Alone c i x)
    (self : CallOk { c with tmp := tmp } i l') : Kept c { c with tmp := tmp } i l' := by
  refine level.quiet rfl rfl rfl self ?_
  intro j l other ok
  exact ok.keep (ok.idle_of_alone alone other) fun y held => held.of_load le_rfl rfl

theorem Kept.rename (alone : Alone c i x) (tmp : c.tmp = some (c.body x)) :
    Kept c (c.moveTmp.log (.renamed i x)) i (x, .renamed) := by
  have held : Held (c.moveTmp.log (.renamed i x)) x := ⟨alone.2.ge, x, load_moveTmp tmp, le_rfl⟩
  refine ⟨held, ?_, fun _ => .inr (.inr ⟨x, load_moveTmp tmp, alone.2.le⟩)⟩
  intro j l other ok
  exact ok.keep (ok.idle_of_alone alone other) fun y h => h.of_moveTmp tmp alone.2 _

theorem StoreStep.keeps (step : StoreStep i c l c' l') (level : Level c) (ok : CallOk c i l)
    (order : orderly c'.trace = true) : Kept c c' i l' := by
  have may {y : Nat} {e : CursorEvent}
      (h : orderly (e :: c.trace) = true) (consults : e = .raised i y ∨ e = .skipped i y) :
      mayConsult y c.trace = true := by
    rcases consults with rfl | rfl <;> exact (Bool.and_eq_true_iff.1 h).1
  cases step with
  | checked | synced => exact level.quiet rfl rfl rfl ok fun _ _ _ h => h
  | refused => exact level.quiet rfl rfl rfl trivial fun _ _ _ h => h
  | skipped below => exact level.skip below (may order (.inr rfl))
  | raised above => exact Kept.raise above (may order (.inl rfl))
  | locked => exact level.quiet rfl rfl rfl ok.of_lock fun _ _ _ h => h.of_lock
  | created => exact level.touch ok ⟨ok, rfl⟩
  | written =>
    refine level.touch ok.1 ⟨ok.1, ?_⟩
    obtain ⟨body, tmp⟩ := Option.isSome_iff_exists.1 ok.2
    simp [tmp, CursorCell.body]
  | renamed _ => exact Kept.rename ok.1 ok.2
  | broke tmp writes =>
    have alone := ok.alone writes
    refine ⟨trivial, ?_, fun _ => .inr (.inl ?_)⟩
    · intro j l other ok
      exact ok.keep (ok.idle_of_alone alone other) fun y held => held.of_load le_rfl rfl
    · simp [log, failedCursors, alone.2]
  | brokeAfter _ =>
    obtain ⟨alone, tmp⟩ := ok
    refine ⟨trivial, ?_, fun _ => .inr (.inl ?_)⟩
    · intro j l other ok
      exact ok.keep (ok.idle_of_alone alone other) fun y h => h.of_moveTmp tmp alone.2 _
    · simp [log, moveTmp, failedCursors, alone.2]
  | succeeded => exact level.quiet rfl rfl rfl (CallOk.of_lock ok) fun _ _ _ h => h.of_lock
  | gaveUp => exact level.quiet rfl rfl rfl trivial fun _ _ _ h => h.of_lock

end Steps

theorem StoreStep.orderly_before {i} (step : StoreStep i c l c' l')
    (h : orderly c'.trace = true) : orderly c.trace = true := by
  cases step with
  | checked | refused | locked | created | written | synced | succeeded | gaveUp => exact h
  | skipped | raised | renamed | broke | brokeAfter => exact orderly_tail h

theorem keeps_store : storeProtocol.Keeps cursorService (fun c => orderly c.trace = true)
    (fun c _ => Level c) fun c i _ l => CallOk c i l where
  call _ level := ⟨level, trivial⟩
  act step order := by
    refine ⟨StoreStep.orderly_before step order, fun _ level ok => ?_⟩
    have kept := StoreStep.keeps step level ok order
    exact ⟨kept.level, kept.self, kept.others _ _⟩
  drop {c n i x l} := by
    simp only [cursorService]
    split
    · exact fun order => ⟨order, fun level _ => ⟨level, fun _ ok => ok.of_lock⟩⟩
    · exact fun order => ⟨order, fun level _ => ⟨level, fun _ ok => ok⟩⟩
  world e := nomatch e

/-- Every acknowledged cursor is still the one read back, or below it. -/
def AcksHeld (p : Pool CursorCell Outcome Nat (Except CursorError Bool)) : Prop :=
  ∀ (i x : Nat) (b : Bool), p.answer i = some (x, .ok b) →
    ∃ cursor, p.shared.load = some cursor ∧ x ≤ cursor

end Ehdb.Proof.Cursor
