import Ehdb.Feed.Groups
import Ehdb.Proof.Feed.GroupDelivery

/-! `GroupsStep` says what one action of a call does to the groups and their cursor files. Only the
holder of the write lock touches the temporary file of a cursor. -/

namespace Ehdb.Proof.Groups

open Feed ProofKit Proof.Group
open L0 (Dataset Outcome)

variable {R : Type} {D : Dataset R} {cfg : GroupsConfig R}

/-- Where a call that writes a cursor file stands, as far as its lock and its scratch file go. -/
inductive WriteStage where
  | before
  | inside
  | written
  | after
  deriving DecidableEq

def WriteStage.Locked : WriteStage → Prop
  | .inside => True
  | .written => True
  | _ => False

/-- What one step of the cursor write does to the cell it shares with the other calls. -/
inductive WriteStep (i x : Nat) : CursorCell → WriteStage → CursorCell → WriteStage → Prop
  | touch {c c' : CursorCell} {stage} (going : stage ≠ .after)
      (shard : c'.store.shard = c.store.shard) (lock : c'.store.writeLock = c.store.writeLock)
      (file : c'.file = c.file) (tmp : c'.tmp = c.tmp) : WriteStep i x c stage c' stage
  | skip {c c' : CursorCell} (store : c'.store = c.store) (file : c'.file = c.file)
      (tmp : c'.tmp = c.tmp) : WriteStep i x c .before c' .after
  | lock {c : CursorCell} (free : c.store.writeLock = none) :
      WriteStep i x c .before (c.lock (some i)) .inside
  | scratch {c c' : CursorCell} {stage : WriteStage} (locked : stage.Locked)
      (store : c'.store = c.store) (file : c'.file = c.file) : WriteStep i x c stage c' .inside
  | fill {c c' : CursorCell} (store : c'.store = c.store) (file : c'.file = c.file)
      (tmp : c'.tmp = c.tmp.map fun _ => c.body x) : WriteStep i x c .inside c' .written
  | rename {c c' : CursorCell} (store : c'.store = c.store) (file : c'.file = c.tmp) :
      WriteStep i x c .written c' .inside
  | unlock {c} {stage : WriteStage} (locked : stage.Locked) :
      WriteStep i x c stage (c.lock none) .after

variable {Q : Except CursorError Unit → WriteStage → Prop}

section Programs

variable {i x : Nat}

theorem follows_fsStep {effect partly stage} (stage' : WriteStage) (locked : stage.Locked)
    (takes : ∀ c c', c'.store = c.store → c'.file = (effect c).file → c'.tmp = (effect c).tmp →
      WriteStep i x c stage c' stage')
    (effects : ∀ c, (effect c).store = c.store ∧ (effect c).file = c.file)
    (parts : ∀ c, (partly c).store = c.store ∧ (partly c).file = c.file) (ok : Q (.ok ()) stage')
    (error : ∀ stage : WriteStage, stage.Locked → Q (.error .io) stage) :
    Follows (WriteStep i x) (fsStep i x effect partly).run Q stage := by
  intro o c b c' h
  cases o with
  | ok =>
    cases h
    exact ⟨_, takes c _ (effects c).1 rfl rfl, ok⟩
  | fail =>
    cases h
    exact ⟨_, .scratch locked (parts c).1 (parts c).2, error .inside trivial⟩
  | failAfter =>
    cases h
    exact ⟨_, .scratch locked (effects c).1 (effects c).2, error .inside trivial⟩

theorem follows_writeCursor (done : ∀ result (stage : WriteStage), stage.Locked → Q result stage) :
    Follows (WriteStep i x) (writeCursor i x).run Q .inside := by
  refine .bindExcept (follows_fsStep .inside trivial ?_ ?_ ?_ ?_ fun _ => done _ _)
  · exact fun c c' store file tmp => .scratch trivial store file
  · exact fun c => ⟨rfl, rfl⟩
  · exact fun c => ⟨rfl, rfl⟩
  refine .bindExcept (follows_fsStep .written trivial ?_ ?_ ?_ ?_ fun _ => done _ _)
  · exact fun c c' store file tmp => .fill store file tmp
  · exact fun c => ⟨rfl, rfl⟩
  · exact fun c => ⟨rfl, rfl⟩
  refine .bindExcept (follows_fsStep .written trivial ?_ ?_ ?_ ?_ fun _ => done _ _)
  · exact fun c c' store file tmp => .touch nofun (by rw [store]) (by rw [store]) file tmp
  · exact fun c => ⟨rfl, rfl⟩
  · exact fun c => ⟨rfl, rfl⟩
  intro o c b c' h
  dsimp only at h
  split at h
  · cases h
    exact ⟨_, .rename rfl rfl, done _ _ trivial⟩
  · cases h
    exact ⟨_, .rename rfl rfl, done _ _ trivial⟩
  · cases h
    exact ⟨_, .touch nofun rfl rfl rfl rfl, done _ .written trivial⟩

/-- The cursor store's own program takes only write steps. -/
theorem follows_store (i x : Nat) :
    Follows (WriteStep i x) (store i x).run (fun _ stage => stage = .after) .before := by
  refine .bindExcept fun o c b c' h => ?_
  dsimp only at h
  split at h
  · cases h
    exact ⟨_, .skip rfl rfl rfl, rfl⟩
  cases h
  refine ⟨_, .touch nofun rfl rfl rfl rfl, .bindExcept fun o c b c' h => ?_⟩
  dsimp only at h
  split at h
  · cases h
    exact ⟨_, .skip rfl rfl rfl, rfl⟩
  cases h
  refine ⟨_, .touch nofun rfl rfl rfl rfl, .bindExcept fun o c b c' h => ?_⟩
  dsimp only at h
  split at h
  · rename_i free
    cases h
    refine ⟨_, .lock free, .bindExcept (.bind (follows_writeCursor fun result stage locked => ?_))⟩
    intro o c b c' h
    cases h
    exact ⟨_, .unlock locked, by cases result <;> rfl⟩
  · cases h

end Programs

/-- The cursor the file gives back, if it gives one, is at most `bound`. -/
def Below (shard : Nat) (file : Option FileBody) (bound : Nat) : Prop :=
  ∀ cursor, CursorStore.load shard file = some cursor → cursor ≤ bound

/-- A writer past the lock holds it, and a scratch file it wrote has its own body. -/
structure CellOk (c : CursorCell) (i x : Nat) (stage : WriteStage) : Prop where
  locked : stage.Locked → c.store.writeLock = some i
  own : stage = .written → ∀ body, c.tmp = some body → body = c.body x

section Writes

variable {c c' : CursorCell} {i j x y : Nat} {stage stage' other : WriteStage}

section

variable (ok : CellOk c i x stage) (h : WriteStep i x c stage c' stage')
include ok h

/-- A writer's own step keeps its cell in order. -/
theorem CellOk.step : CellOk c' i x stage' := by
  cases h with
  | touch _ shard lock file tmp =>
    refine ⟨fun locked => lock.trans (ok.locked locked), fun written body eq => ?_⟩
    rw [ok.own written body (tmp.symm.trans eq), CursorCell.body, CursorCell.body, shard]
  | skip _ _ _ => exact ⟨nofun, nofun⟩
  | lock free => exact ⟨fun _ => rfl, nofun⟩
  | scratch locked store _ => exact ⟨fun _ => store ▸ ok.locked locked, nofun⟩
  | fill store _ tmp =>
    refine ⟨fun _ => store ▸ ok.locked trivial, fun _ body eq => ?_⟩
    rw [tmp, Option.map_eq_some_iff] at eq
    obtain ⟨_, _, rfl⟩ := eq
    rw [CursorCell.body, CursorCell.body, store]
  | rename store _ => exact ⟨fun _ => store ▸ ok.locked trivial, nofun⟩
  | unlock _ => exact ⟨nofun, nofun⟩

/-- Another call's write step keeps it too, as the lock is held by one call at a time. -/
theorem CellOk.others
    (differ : j ≠ i) (ok' : CellOk c j y other) : CellOk c' j y other := by
  -- the lock has one holder, so a call that is inside keeps the others out
  have apart : stage.Locked → ¬other.Locked := by
    intro locked locked'
    have same := (ok.locked locked).symm.trans (ok'.locked locked')
    exact differ (Option.some.inj same).symm
  have outside (locked : stage.Locked) : CellOk c' j y other :=
    ⟨fun locked' => absurd locked' (apart locked),
      fun written => absurd (show other.Locked from written ▸ trivial) (apart locked)⟩
  cases h with
  | touch _ shard lock _ tmp =>
    refine ⟨fun locked => lock.trans (ok'.locked locked), fun written body eq => ?_⟩
    rw [ok'.own written body (tmp.symm.trans eq), CursorCell.body, CursorCell.body, shard]
  | skip store _ tmp =>
    refine ⟨fun locked => store ▸ ok'.locked locked, fun written body eq => ?_⟩
    rw [ok'.own written body (tmp.symm.trans eq), CursorCell.body, CursorCell.body, store]
  | lock free =>
    refine ⟨fun locked => ?_, fun written => ?_⟩
    · exact absurd (free.symm.trans (ok'.locked locked)) nofun
    · exact absurd (free.symm.trans (ok'.locked (written ▸ trivial))) nofun
  | scratch locked _ _ => exact outside locked
  | fill _ _ _ => exact outside trivial
  | rename _ _ => exact outside trivial
  | unlock locked => exact outside locked

/-- The writer of a cursor up to `bound` puts none above it into the file. -/
theorem CellOk.below {shard bound} (at_shard : c.store.shard = shard) (le : x ≤ bound)
    (below : Below shard c.file bound) : Below shard c'.file bound := by
  cases h with
  | touch _ _ _ file _ => exact file ▸ below
  | skip _ file _ => exact file ▸ below
  | lock _ => exact below
  | scratch _ _ file => exact file ▸ below
  | fill _ file _ => exact file ▸ below
  | unlock _ => exact below
  | rename _ file =>
    intro cursor load
    rw [file] at load
    cases tmp : c.tmp with
    | none =>
      rw [tmp] at load
      cases load
    | some body =>
      rw [tmp, ok.own rfl body tmp] at load
      simp only [CursorCell.body, CursorStore.load, at_shard, and_self, if_true] at load
      cases load
      exact le

end

theorem WriteStep.shard (h : WriteStep i x c stage c' stage') : c'.store.shard = c.store.shard := by
  cases h with
  | touch _ shard _ _ _ => exact shard
  | skip store _ _ => rw [store]
  | lock _ => rfl
  | scratch _ store _ => rw [store]
  | fill store _ _ => rw [store]
  | rename store _ => rw [store]
  | unlock _ => rfl

theorem WriteStep.going (h : WriteStep i x c stage c' stage') : stage ≠ .after := by
  cases h with
  | touch going _ _ _ _ => exact going
  | skip | lock | fill | rename => exact nofun
  | scratch locked _ _ | unlock locked =>
    rintro rfl
    exact locked

end Writes

/-- Where a call to the groups stands between two of its steps. -/
inductive Stage where
  | free
  | opening (name : String)
  | storing (name : String) (cursor : Nat) (stage : WriteStage)

def Stage.ofWrite (name : String) (cursor : Nat) : WriteStage → Stage
  | .after => .free
  | stage => .storing name cursor stage

/-- What one step of any call to the groups does to the world they share. -/
inductive GroupsStep (D : Dataset R) (cfg : GroupsConfig R) (i : Nat) :
    GroupsWorld R → Stage → GroupsWorld R → Stage → Prop
  | look {s stage} : GroupsStep D cfg i s stage s stage
  | count {s n} : GroupsStep D cfg i s .free { s with cursorErrors := n } .free
  | enter {s : GroupsWorld R} {name} (free : s.groupsLock = none)
      (absent : s.groups.find? name = none) :
      GroupsStep D cfg i s .free { s with groupsLock := some i } (.opening name)
  | insert {s name hasStore stored tip} :
      GroupsStep D cfg i s (.opening name) (s.opened cfg name hasStore stored tip) .free
  | operate {s name op}
      (quiet : ∀ record, op ≠ .append record) :
      GroupsStep D cfg i s .free (s.operate D cfg name op) .free
  | acked {s : GroupsWorld R} {name} {og : OpenGroup R} {store sortKey}
      (found : s.groups.find? name = some og) (cursor : og.cursor = some store) :
      GroupsStep D cfg i s .free (s.operate D cfg name (.ack sortKey))
        (.storing name ((og.group.ack sortKey).2.committedCursor D) .before)
  | began {s : GroupsWorld R} {name} {og : OpenGroup R} {store}
      (found : s.groups.find? name = some og) (cursor : og.cursor = some store) :
      GroupsStep D cfg i s .free s (.storing name (og.group.committedCursor D) .before)
  | store {s : GroupsWorld R} {name x c c' stage stage'} (cell : s.cell cfg name = some c)
      (h : WriteStep i x c stage c' stage') :
      GroupsStep D cfg i s (.ofWrite name x stage) (s.setCell cfg name c') (.ofWrite name x stage')

def groupsProtocol (D : Dataset R) (cfg : GroupsConfig R) :
    Protocol (GroupsWorld R) GroupsRequest (GroupsAnswer R) Stage where
  start _ := .free
  next := GroupsStep D cfg
  done _ _ stage := stage = .free

variable {filter : SubjectFilter} {member : Nat}

section Programs

variable {i : Nat} {name : String} {Q : Unit → Stage → Prop}

theorem follows_handle (done : Q () .free) :
    Follows (GroupsStep D cfg i) (handle cfg i name) Q .free := by
  refine .bind fun o s b s' h => ?_
  dsimp only at h
  split at h
  · rename_i free
    split at h
    · cases h
      exact ⟨_, .look, done⟩
    · rename_i absent
      cases h
      refine ⟨_, .enter free absent, .bind fun o s b s' h => ?_⟩
      cases h
      refine ⟨_, .look, .bind fun o s b s' h => ?_⟩
      dsimp only at h
      have quiet : s' = s := by
        split at h <;> cases h <;> rfl
      subst quiet
      refine ⟨_, .look, .bind fun o s b s' h => ?_⟩
      cases h
      refine ⟨_, .look, fun o s b s' h => ?_⟩
      cases h
      exact ⟨_, .insert, done⟩
  · cases h

theorem follows_claimLoop {polls Q} (done : ∀ d, Q d .free) :
    Follows (GroupsStep D cfg i) (claimLoop D cfg name filter member polls) Q .free := by
  induction polls with
  | zero => exact done none
  | succ polls ih =>
    refine .bind fun o s b s' h => ?_
    obtain ⟨og, found, eq⟩ := Option.map_eq_some_iff.1 h
    cases eq
    refine ⟨_, .operate fun record => ?_, ?_⟩
    · split <;> nofun
    · generalize Option.join _ = delivery
      cases delivery with
      | none => exact ih
      | some d => exact done _

theorem follows_persist {x} (done : Q () .free) :
    Follows (GroupsStep D cfg i) (persist cfg i name (some x)) Q (.storing name x .before) := by
  refine .bind (.zoom (Stage.ofWrite name x) (follows_store i x) ?_ ?_)
  · exact fun s c stage c' stage' cell h => .store cell h
  · rintro result stage rfl
    cases result with
    | ok _ => exact done
    | error _ =>
      intro o s b s' h
      cases h
      exact ⟨_, .count, done⟩

/-- Every request to the groups runs by the steps of the protocol. -/
theorem follows_groups (i : Nat) (req : GroupsRequest) :
    Follows (GroupsStep D cfg i) ((groupsService D cfg).program i req)
      (fun _ stage => stage = .free) .free := by
  cases req with
  | openGroup name => exact .bind (follows_handle rfl)
  | claimNext name filter member polls =>
    exact .bind (.bind (follows_handle (follows_claimLoop fun _ => rfl)))
  | ack name sortKey =>
    refine .bind (.bind (follows_handle (.bind fun o s b s' h => ?_)))
    obtain ⟨og, found, eq⟩ := Option.map_eq_some_iff.1 h
    cases eq
    cases cursor : og.cursor with
    | none => exact ⟨_, .operate (fun _ => nofun), rfl⟩
    | some store => exact ⟨_, .acked found cursor, .bind (follows_persist rfl)⟩
  | checkpoint =>
    refine .bind (.bind fun o s b s' h => ?_)
    dsimp only at h
    split at h
    · cases h
      refine ⟨_, .look, .foldEach (fun _ _ stage => stage = .free) ?_ ?_ rfl⟩
      · rintro name rest _ _ rfl
        refine .bind fun o s b s' h => ?_
        cases h
        cases found : s.groups.find? name with
        | none => exact ⟨_, .look, rfl⟩
        | some og =>
          cases cursor : og.cursor with
          | none =>
            refine ⟨_, .look, ?_⟩
            simp only [Option.bind_some, cursor, Option.map_none]
            exact rfl
          | some store =>
            refine ⟨_, .began found cursor, ?_⟩
            simp only [Option.bind_some, cursor, Option.map_some]
            exact follows_persist rfl
      · rintro _ _ rfl
        exact rfl
    · cases h

end Programs

end Ehdb.Proof.Groups
