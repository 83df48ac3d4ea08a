import Ehdb.Feed.Cursor
import Ehdb.Feed.Group
import Mathlib.Data.String.Basic

/-! `GroupCoordinator`: named consumer groups over one shard. A group is opened when it is first
asked for and resumes from its cursor file; an ack stores the cursor after it has released the
group. -/

namespace Ehdb.Feed

open ProofKit
open L0 (Dataset Outcome)

variable {R : Type}

inductive CursorFallback where
  | tail
  | beginning
  deriving DecidableEq

def safeChar (c : Char) : Char :=
  if c.isAlphanum || c == '-' || c == '_' then c else '_'

/-- A group name, sanitised to `[A-Za-z0-9_-]`. -/
def safeName (group : String) : String :=
  .ofList (group.toList.map safeChar)

def cursorPath (group : String) (shard : Nat) : String :=
  "claim-cursor." ++ safeName group ++ ".shard-" ++ toString shard ++ ".json"

structure GroupsConfig (R : Type) where
  shard : Nat
  ackWaitTicks : Nat
  subjectOf : R → Subject
  fallback : CursorFallback
  batchLimit : Nat

/-- An open group and its store. `history` is what happened to the group since it was opened. -/
structure OpenGroup (R : Type) where
  group : SubjectConsumerGroup R
  cursor : Option CursorStore
  fromCursor : Nat
  history : List (GroupEvent R)

def OpenGroup.over (og : OpenGroup R) (log : List R) : GroupWorld R :=
  ⟨log, og.group, og.history⟩

inductive GroupsEvent (R : Type) where
  /-- A group was opened: the cursor that was loaded, what the file held, the tip that was
  read, and where the group starts. -/
  | resumed (group : String) (stored held : Option Nat) (tip fromCursor : Nat)
  | stopped (group : String) (fromCursor : Nat) (last : GroupWorld R)

/-- The coordinator, the directory of cursor files with the temporary file beside each path, and
the shard. `groupsLock` is the call that holds the lock of the map of groups. -/
structure GroupsWorld (R : Type) where
  log : List R
  tip : Nat
  now : Nat
  files : String → Option FileBody
  tmps : String → Option FileBody
  groups : OrderedMap String (OpenGroup R)
  groupsLock : Option Nat
  cursorErrors : Nat
  trace : List (GroupsEvent R)

abbrev GroupsAction (R α : Type) := Prog (GroupsWorld R) Outcome α

namespace GroupsWorld

def operate (D : Dataset R) (cfg : GroupsConfig R) (name : String) (op : GroupOp R)
    (s : GroupsWorld R) : GroupsWorld R :=
  { s with groups := s.groups.adjust name fun og =>
      let w := (og.over s.log).step D cfg.subjectOf op
      { og with group := w.group, history := w.trace } }

def cell (cfg : GroupsConfig R) (name : String) (s : GroupsWorld R) : Option CursorCell :=
  (s.groups.find? name).bind fun og => og.cursor.map fun store =>
    ⟨store, s.files (cursorPath name cfg.shard), s.tmps (cursorPath name cfg.shard), []⟩

def setCell (cfg : GroupsConfig R) (name : String) (c : CursorCell) (s : GroupsWorld R) :
    GroupsWorld R :=
  { s with
    groups := s.groups.adjust name fun og => { og with cursor := some c.store }
    files := fun path => if path = cursorPath name cfg.shard then c.file else s.files path
    tmps := fun path => if path = cursorPath name cfg.shard then c.tmp else s.tmps path }

end GroupsWorld

/-- Take the lock of the map. When the group is open the lock is given back at once. -/
def enterGroups (caller : Nat) (name : String) : GroupsAction R Bool :=
  .lift fun _ s =>
    if s.groupsLock = none then
      match s.groups.find? name with
      | some _ => some (true, s)
      | none => some (false, { s with groupsLock := some caller })
    else none

/-- `open_named`, whose `create_dir_all` may fail. -/
def openNamed : GroupsAction R Bool :=
  .lift fun o s => some (o == .ok, s)

/-- `load`, when there is a store; a read that fails counts as nothing stored. -/
def loadStored (cfg : GroupsConfig R) (name : String) (hasStore : Bool) :
    GroupsAction R (Option Nat) :=
  .lift fun o s =>
    if hasStore && o == .ok then
      some (CursorStore.load cfg.shard (s.files (cursorPath name cfg.shard)), s)
    else some (none, s)

def readTip : GroupsAction R Nat :=
  .lift fun _ s => some (s.tip, s)

def resumeFrom (fallback : CursorFallback) (stored : Option Nat) (tip : Nat) : Nat :=
  match stored with
  | some cursor => min cursor tip
  | none =>
    match fallback with
    | .tail => tip
    | .beginning => 0

def GroupsWorld.opened (cfg : GroupsConfig R) (name : String) (hasStore : Bool)
    (stored : Option Nat) (tip : Nat) (s : GroupsWorld R) : GroupsWorld R :=
  let fromCursor := resumeFrom cfg.fallback stored tip
  let held := CursorStore.load cfg.shard (s.files (cursorPath name cfg.shard))
  { s with
    groups := s.groups.insert name
      { group := .new cfg.shard cfg.ackWaitTicks fromCursor
        cursor := if hasStore then some (.opened cfg.shard false) else none
        fromCursor := fromCursor
        history := [] }
    groupsLock := none
    trace := .resumed name stored held tip fromCursor :: s.trace }

def insertGroup (cfg : GroupsConfig R) (name : String) (hasStore : Bool) (stored : Option Nat)
    (tip : Nat) : GroupsAction R Unit :=
  .lift fun _ s => some ((), s.opened cfg name hasStore stored tip)

def handle (cfg : GroupsConfig R) (caller : Nat) (name : String) : GroupsAction R Unit := do
  if ← enterGroups caller name then
    return ()
  let hasStore ← openNamed
  let stored ← loadStored cfg name hasStore
  let tip ← readTip
  insertGroup cfg name hasStore stored tip

def pollGroup (D : Dataset R) (cfg : GroupsConfig R) (name : String) (filter : SubjectFilter)
    (member : Nat) : GroupsAction R (Option (Delivery R)) :=
  .lift fun o s =>
    (s.groups.find? name).map fun og =>
      let read := fun cursor =>
        if o = .ok then .ok (L0.readAfterLimited D s.log cursor (cfg.batchLimit + 1))
        else .error (.storage "read failed")
      let op := if o = .ok then .pollAssign filter member s.now cfg.batchLimit
        else .pollFails filter member s.now
      let answer := (og.group.pollAssign D cfg.subjectOf read filter member s.now).1
      (answer.toOption.join, s.operate D cfg name op)

/-- The loop of `claim_next`, for as many polls as the caller waits for. -/
def claimLoop (D : Dataset R) (cfg : GroupsConfig R) (name : String) (filter : SubjectFilter)
    (member : Nat) : Nat → GroupsAction R (Option (Delivery R))
  | 0 => pure none
  | polls + 1 => do
    match ← pollGroup D cfg name filter member with
    | some delivery => return some delivery
    | none => claimLoop D cfg name filter member polls

def claimNext (D : Dataset R) (cfg : GroupsConfig R) (caller : Nat) (name : String)
    (filter : SubjectFilter) (member polls : Nat) : GroupsAction R (Option (Delivery R)) := do
  handle cfg caller name
  claimLoop D cfg name filter member polls

def readCommitted (D : Dataset R) (name : String) : GroupsAction R (Option Nat) :=
  .lift fun _ s => some ((s.groups.find? name).bind fun og =>
    og.cursor.map fun _ => og.group.committedCursor D, s)

/-- The part of `ack` that holds the group: whether the record was in flight, and what to
store. -/
def ackSection (D : Dataset R) (cfg : GroupsConfig R) (name : String) (sortKey : Nat) :
    GroupsAction R (Bool × Option Nat) :=
  .lift fun _ s =>
    (s.groups.find? name).map fun og =>
      let (acked, group) := og.group.ack sortKey
      ((acked, og.cursor.map fun _ => group.committedCursor D), s.operate D cfg name (.ack sortKey))

def recordCursorError : GroupsAction R Unit :=
  .lift fun _ s => some ((), { s with cursorErrors := s.cursorErrors + 1 })

/-- `store` on the store of a group; a failure is counted. -/
def persist (cfg : GroupsConfig R) (caller : Nat) (name : String) (committed : Option Nat) :
    GroupsAction R Unit :=
  match committed with
  | none => pure ()
  | some cursor => do
    match ← (store caller cursor).run.zoom (GroupsWorld.cell cfg name)
        (GroupsWorld.setCell cfg name) with
    | .ok _ => return ()
    | .error _ => recordCursorError

def ack (D : Dataset R) (cfg : GroupsConfig R) (caller : Nat) (name : String) (sortKey : Nat) :
    GroupsAction R Bool := do
  handle cfg caller name
  let (acked, committed) ← ackSection D cfg name sortKey
  persist cfg caller name committed
  return acked

def openNames : GroupsAction R (List String) :=
  .lift fun _ s =>
    if s.groupsLock = none then some (s.groups.entries.map Prod.fst, s) else none

def checkpoint (D : Dataset R) (cfg : GroupsConfig R) (caller : Nat) : GroupsAction R Unit := do
  Prog.foldEach (fun _ name => do persist cfg caller name (← readCommitted D name)) () (← openNames)

inductive GroupsRequest where
  | openGroup (name : String)
  | claimNext (name : String) (filter : SubjectFilter) (member polls : Nat)
  | ack (name : String) (sortKey : Nat)
  | checkpoint
  deriving DecidableEq

inductive GroupsAnswer (R : Type) where
  | opened
  | claimed (delivery : Option (Delivery R))
  | acked (inFlight : Bool)
  | checkpointed

inductive GroupsWorldEvent (R : Type) where
  | append (record : R)
  | advance (tip : Nat)
  | tick (millis : Nat)
  /-- A claim was dropped with a delivery; its record is due at once. -/
  | orphaned (name : String) (sortKey : Nat)
  | restart

namespace GroupsWorld

def restarted (s : GroupsWorld R) : GroupsWorld R :=
  { s with
    now := 0
    groups := .empty
    groupsLock := none
    cursorErrors := 0
    trace := s.groups.entries.map (fun (name, og) => .stopped name og.fromCursor (og.over s.log))
      ++ s.trace }

def happens (D : Dataset R) (cfg : GroupsConfig R) (s : GroupsWorld R) :
    GroupsWorldEvent R → GroupsWorld R
  | .append record =>
    -- the keys of a shard ascend
    if s.log.all fun r => D.sortKey r < D.sortKey record then
      { s with log := s.log ++ [record], tip := max s.tip (D.sortKey record) }
    else s
  | .advance tip => { s with tip := max s.tip tip }
  | .tick millis => { s with now := s.now + millis }
  | .orphaned name sortKey => s.operate D cfg name (.expireNow sortKey)
  | .restart => s.restarted

def release (caller : Nat) (s : GroupsWorld R) : GroupsWorld R :=
  { s with
    groupsLock := if s.groupsLock = some caller then none else s.groupsLock
    groups := s.groups.mapValues fun og => { og with
      cursor := og.cursor.map fun store =>
        if store.writeLock = some caller then { store with writeLock := none } else store } }

end GroupsWorld

def groupsService (D : Dataset R) (cfg : GroupsConfig R) :
    Service (GroupsWorld R) Outcome GroupsRequest (GroupsAnswer R) (GroupsWorldEvent R) where
  program caller
    | .openGroup name => do handle cfg caller name; return .opened
    | .claimNext name filter member polls => do
      return .claimed (← claimNext D cfg caller name filter member polls)
    | .ack name sortKey => do return .acked (← ack D cfg caller name sortKey)
    | .checkpoint => do checkpoint D cfg caller; return .checkpointed
  release := GroupsWorld.release
  world e s := s.happens D cfg e
  ends
    | .restart => true
    | _ => false

def GroupsWorld.new (log : List R) (tip : Nat) (files tmps : String → Option FileBody) :
    GroupsWorld R where
  log := log
  tip := tip
  now := 0
  files := files
  tmps := tmps
  groups := .empty
  groupsLock := none
  cursorErrors := 0
  trace := []

def runGroups (D : Dataset R) (cfg : GroupsConfig R) (log : List R) (tip : Nat)
    (files tmps : String → Option FileBody)
    (moves : List (Move Outcome GroupsRequest (GroupsWorldEvent R))) :
    Pool (GroupsWorld R) Outcome GroupsRequest (GroupsAnswer R) :=
  (Pool.start (.new log tip files tmps)).run (groupsService D cfg) moves

end Ehdb.Feed
