import Ehdb.L0.Dataset
import Ehdb.ProofKit.OrderedMap

/-! `SubjectConsumerGroup`: members compete for the records of one shard. A record is pulled from
the change feed, pending, in flight from its first delivery to its ack, and handed out again when
its deadline passes. -/

namespace Ehdb.Feed

open ProofKit
open L0 (Dataset ChangeFeed Platform EventRecord)

/-- A list of tokens. In a filter `*` stands for one token and `>` for the tail. -/
structure Subject where
  tokens : List String
  deriving DecidableEq

structure SubjectFilter where
  tokens : List String
  deriving DecidableEq

def Subject.command (pool : String) (shard : Nat) : Subject :=
  ⟨["commands", pool, "shard", toString shard]⟩

/-- `split('.')` without the empty tokens. -/
def SubjectFilter.parse (s : String) : SubjectFilter :=
  ⟨((s.toList.splitOn '.').filter (· ≠ [])).map String.ofList⟩

def defaultPool : String := "shared"

/-- `executionPool` is the string field `execution_pool` of a JSON payload. -/
def d1CommandSubject (P : Platform) (executionPool : String → Option String) (shardCount : Nat)
    (rec : EventRecord) : Subject :=
  let pool := ((executionPool rec.payload).filter (· ≠ "")).getD defaultPool
  .command pool (L0.shardForExecution P rec.executionId (max shardCount 1))

/-- The loop of `matches`: the filter tokens and the subject tokens that are left. -/
def SubjectFilter.matchesFrom : List String → List String → Bool
  | [], s => s.isEmpty
  | f :: fs, s =>
    if f = ">" then fs.isEmpty && !s.isEmpty
    else
      match s with
      | [] => false
      | t :: ts => if f ≠ "*" ∧ f ≠ t then false else matchesFrom fs ts

variable (filter : SubjectFilter)

def SubjectFilter.matches (subject : Subject) : Bool :=
  matchesFrom filter.tokens subject.tokens

variable {R : Type}

def u64Max : Nat := 2 ^ 64 - 1

def saturatingAdd (a b : Nat) : Nat := min (a + b) u64Max

structure SubjectInFlight (R : Type) where
  record : R
  subject : Subject
  member : Nat
  deadline : Nat
  redelivered : Bool
  deriving DecidableEq

structure Delivery (R : Type) where
  record : R
  sortKey : Nat
  member : Nat
  redelivered : Bool
  deriving DecidableEq

/-- A group. `pending` holds pulled records that were not assigned yet, `inflight` is in key
order, `earliestDeadline` bounds the deadlines in flight from below. -/
structure SubjectConsumerGroup (R : Type) where
  shard : Nat
  ackWaitTicks : Nat
  feed : ChangeFeed
  deliveredFrontier : Nat
  pending : List (Subject × R)
  inflight : OrderedMap Nat (SubjectInFlight R)
  earliestDeadline : Nat

namespace SubjectConsumerGroup

def new (shard ackWaitTicks fromCursor : Nat) : SubjectConsumerGroup R where
  shard := shard
  ackWaitTicks := ackWaitTicks
  feed := ⟨shard, fromCursor⟩
  deliveredFrontier := fromCursor
  pending := []
  inflight := .empty
  earliestDeadline := u64Max

variable (D : Dataset R)

/-- One record of `refill`. -/
def pull (subjectOf : R → Subject) (g : SubjectConsumerGroup R) (r : R) : SubjectConsumerGroup R :=
  { g with
    deliveredFrontier := max g.deliveredFrontier (D.sortKey r)
    pending := g.pending ++ [(subjectOf r, r)] }

/-- `refill`, when the feed's poll got `batch`. -/
def refill (subjectOf : R → Subject) (g : SubjectConsumerGroup R)
    (batch : List R) : SubjectConsumerGroup R :=
  batch.foldl (pull D subjectOf) { g with feed := g.feed.after D batch }

/-- The loop that looks for an expired record in flight. Returns the first one that matches the
filter, the lowest deadline among the unexpired ones seen, and whether any was expired. -/
def scanExpired (filter : SubjectFilter) (now : Nat) :
    List (Nat × SubjectInFlight R) → Nat → Bool → Option Nat × Nat × Bool
  | [], minDeadline, anyExpired => (none, minDeadline, anyExpired)
  | (sk, f) :: rest, minDeadline, anyExpired =>
    if f.deadline ≤ now then
      if filter.matches f.subject then (some sk, minDeadline, true)
      else scanExpired filter now rest minDeadline true
    else scanExpired filter now rest (min minDeadline f.deadline) anyExpired

/-- The expired record to hand out again, if any, and the refreshed lower bound. -/
def findExpired (now : Nat) (g : SubjectConsumerGroup R) : Option Nat × SubjectConsumerGroup R :=
  if g.earliestDeadline > now then
    (none, g)
  else
    match scanExpired filter now g.inflight.entries u64Max false with
    | (found, minDeadline, anyExpired) =>
      (found, if anyExpired then g else { g with earliestDeadline := minDeadline })

def redeliver (sk member now : Nat) (g : SubjectConsumerGroup R) : SubjectConsumerGroup R :=
  { g with inflight := g.inflight.adjust sk fun f =>
      { f with
        member := member
        deadline := saturatingAdd now g.ackWaitTicks
        redelivered := true } }

/-- Take the pending record at `pos` into flight. -/
def assignFresh (pos : Nat) (entry : Subject × R) (member now : Nat)
    (g : SubjectConsumerGroup R) : SubjectConsumerGroup R :=
  let deadline := saturatingAdd now g.ackWaitTicks
  { g with
    pending := g.pending.eraseIdx pos
    earliestDeadline := min g.earliestDeadline deadline
    inflight := g.inflight.insert (D.sortKey entry.2) ⟨entry.2, entry.1, member, deadline, false⟩ }

/-- The part of `poll_assign` after the refill. -/
def assign (filter : SubjectFilter) (member now : Nat)
    (g : SubjectConsumerGroup R) : Option (Delivery R) × SubjectConsumerGroup R :=
  let (expired, g) := findExpired filter now g
  match expired.bind fun sk => (g.inflight.find? sk).map fun f => (sk, f) with
  | some (sk, f) => (some ⟨f.record, sk, member, true⟩, g.redeliver sk member now)
  | none =>
    let pos := g.pending.findIdx fun entry => filter.matches entry.1
    match g.pending[pos]? with
    | some entry =>
      (some ⟨entry.2, D.sortKey entry.2, member, false⟩, g.assignFresh D pos entry member now)
    | none => (none, g)

/-- `poll_assign`; `read` is what the engine answers to the poll of the feed at its cursor. -/
def pollAssign (subjectOf : R → Subject) (read : Nat → Result (List R))
    (filter : SubjectFilter) (member now : Nat) (g : SubjectConsumerGroup R) :
    Result (Option (Delivery R)) × SubjectConsumerGroup R :=
  match read g.feed.cursor with
  | .error e => (.error e, g)
  | .ok batch =>
    let (delivery, g) := (g.refill D subjectOf batch).assign D filter member now
    (.ok delivery, g)

def ack (sortKey : Nat) (g : SubjectConsumerGroup R) : Bool × SubjectConsumerGroup R :=
  ((g.inflight.find? sortKey).isSome, { g with inflight := g.inflight.erase sortKey })

def expireNow (sortKey : Nat) (g : SubjectConsumerGroup R) : Bool × SubjectConsumerGroup R :=
  match g.inflight.find? sortKey with
  | some _ =>
    (true, { g with
      inflight := g.inflight.adjust sortKey fun f => { f with deadline := 0 }
      earliestDeadline := 0 })
  | none => (false, g)

def lowestOpen (g : SubjectConsumerGroup R) : Option Nat :=
  match g.inflight.entries.head?.map Prod.fst, g.pending.head?.map fun e => D.sortKey e.2 with
  | some a, some b => some (min a b)
  | some a, none => some a
  | none, some b => some b
  | none, none => none

def committedCursor (g : SubjectConsumerGroup R) : Nat :=
  match g.lowestOpen D with
  | some lowest => lowest - 1
  | none => g.deliveredFrontier

end SubjectConsumerGroup

/-- A `ShardConsumerGroup` keeps what a group keeps whose records all have one subject. -/
abbrev ShardConsumerGroup (R : Type) := SubjectConsumerGroup R

namespace ShardConsumerGroup

/-- The loop stops at the first expired record; the minimum is over the records before it. -/
def scanExpired (now : Nat) : List (Nat × SubjectInFlight R) → Nat → Option Nat × Nat
  | [], minDeadline => (none, minDeadline)
  | (sk, f) :: rest, minDeadline =>
    if f.deadline ≤ now then (some sk, minDeadline)
    else scanExpired now rest (min minDeadline f.deadline)

def findExpired (now : Nat) (g : ShardConsumerGroup R) : Option Nat × ShardConsumerGroup R :=
  if g.earliestDeadline > now then
    (none, g)
  else
    match scanExpired now g.inflight.entries u64Max with
    | (none, minDeadline) => (none, { g with earliestDeadline := minDeadline })
    | (some sk, _) => (some sk, g)

variable (D : Dataset R)

def assign (member now : Nat) (g : ShardConsumerGroup R) :
    Option (Delivery R) × ShardConsumerGroup R :=
  let (expired, g) := findExpired now g
  match expired.bind fun sk => (g.inflight.find? sk).map fun f => (sk, f) with
  | some (sk, f) => (some ⟨f.record, sk, member, true⟩, g.redeliver sk member now)
  | none =>
    match g.pending[0]? with
    | some entry =>
      (some ⟨entry.2, D.sortKey entry.2, member, false⟩, g.assignFresh D 0 entry member now)
    | none => (none, g)

def pollAssign (read : Nat → Result (List R)) (member now : Nat) (g : ShardConsumerGroup R) :
    Result (Option (Delivery R)) × ShardConsumerGroup R :=
  match read g.feed.cursor with
  | .error e => (.error e, g)
  | .ok batch =>
    let (delivery, g) := assign D member now (g.refill D (fun _ => ⟨[]⟩) batch)
    (.ok delivery, g)

end ShardConsumerGroup

inductive GroupEvent (R : Type) where
  | assigned (delivery : Delivery R) (filter : SubjectFilter) (now : Nat)
  | acked (sortKey : Nat)
  | expired (sortKey : Nat)
  deriving DecidableEq

/-- A group over a shard whose records are `log`, in append order. -/
structure GroupWorld (R : Type) where
  log : List R
  group : SubjectConsumerGroup R
  trace : List (GroupEvent R)

/-- What happens to a group and its shard. A poll gets at most `limit + 1` records from the
shard, or its read fails. -/
inductive GroupOp (R : Type) where
  | append (record : R)
  | pollAssign (filter : SubjectFilter) (member now limit : Nat)
  | pollFails (filter : SubjectFilter) (member now : Nat)
  | ack (sortKey : Nat)
  | expireNow (sortKey : Nat)

namespace GroupWorld

def new (log : List R) (shard ackWaitTicks fromCursor : Nat) : GroupWorld R :=
  ⟨log, .new shard ackWaitTicks fromCursor, []⟩

def polled (D : Dataset R) (subjectOf : R → Subject) (read : Nat → Result (List R))
    (filter : SubjectFilter) (member now : Nat) (w : GroupWorld R) : GroupWorld R :=
  match w.group.pollAssign D subjectOf read filter member now with
  | (.ok (some delivery), g) =>
    { w with group := g, trace := .assigned delivery filter now :: w.trace }
  | (_, g) => { w with group := g }

def step (D : Dataset R) (subjectOf : R → Subject) (w : GroupWorld R) : GroupOp R → GroupWorld R
  | .append record =>
    -- a record whose key does not ascend is not appended to such a shard
    if w.log.all fun r => D.sortKey r < D.sortKey record then
      { w with log := w.log ++ [record] }
    else w
  | .pollAssign filter member now limit =>
    w.polled D subjectOf (fun cursor => .ok (L0.readAfterLimited D w.log cursor (limit + 1)))
      filter member now
  | .pollFails filter member now =>
    w.polled D subjectOf (fun _ => .error (.storage "read failed")) filter member now
  | .ack sortKey =>
    match w.group.ack sortKey with
    | (true, g) => { w with group := g, trace := .acked sortKey :: w.trace }
    | (false, g) => { w with group := g }
  | .expireNow sortKey =>
    match w.group.expireNow sortKey with
    | (true, g) => { w with group := g, trace := .expired sortKey :: w.trace }
    | (false, g) => { w with group := g }

def run (D : Dataset R) (subjectOf : R → Subject) (w : GroupWorld R) (ops : List (GroupOp R)) :
    GroupWorld R := ops.foldl (step D subjectOf) w

end GroupWorld

/-! A call of `poll_assign_off_runtime`: its future, which may be dropped whenever it waits, the
closure on the blocking pool, and the channel between the two. -/

abbrev PollResult (R : Type) := Result (Option (Delivery R))

/-- The record of `Ok(Some(orphan))`. -/
def orphan : PollResult R → Option Nat
  | .ok (some delivery) => some delivery.sortKey
  | _ => none

/-- How far the future is. From `closing` to `releasing` it is in `PendingPoll::drop`; `spawned` is
the task that is left to wait for the group. -/
inductive PollFuture (R : Type) where
  | locking
  | waiting
  | received (result : PollResult R)
  | closing
  | closed
  | releasing (sortKey : Nat)
  | spawned (sortKey : Nat)
  | gone

/-- How far the closure is. It has the guard of the group until it has ended. -/
inductive BlockingPoll (R : Type) where
  | absent
  | polling
  | sending (result : PollResult R)
  | expiring (sortKey : Nat)
  | ending
  | ended

def PollFuture.rxClosed : PollFuture R → Bool
  | .locking | .waiting | .received _ | .closing => false
  | _ => true

def BlockingPoll.hasGroup : BlockingPoll R → Bool
  | .absent | .ended => false
  | _ => true

/-- A call with its group. `assigned` is the record that it was handed, `expired` are those that it
made due. -/
structure OffRuntimePoll (R : Type) where
  group : SubjectConsumerGroup R
  future : PollFuture R
  poll : BlockingPoll R
  channel : Option (PollResult R)
  assigned : Option Nat
  expired : List Nat

/-- A step of others on the group, of the future, of the closure, or the drop of the future. `free`
says whether others leave free what is tried next, the engine or the group. -/
inductive PollEvent (R : Type) where
  | others (change : SubjectConsumerGroup R → SubjectConsumerGroup R)
  | future (free : Bool) (read : Nat → Result (List R)) (now : Nat)
  | blocking (read : Nat → Result (List R)) (now : Nat)
  | drop

namespace OffRuntimePoll

def new (g : SubjectConsumerGroup R) : OffRuntimePoll R := ⟨g, .locking, .absent, none, none, []⟩

def expireNow (sortKey : Nat) (s : OffRuntimePoll R) : OffRuntimePoll R :=
  { s with group := (s.group.expireNow sortKey).2, expired := s.expired ++ [sortKey] }

variable (D : Dataset R) (subjectOf : R → Subject) (filter : SubjectFilter) (member : Nat)
  (runtime : Bool)

def pollAssign (read : Nat → Result (List R)) (now : Nat) (s : OffRuntimePoll R) :
    PollResult R × OffRuntimePoll R :=
  let polled := s.group.pollAssign D subjectOf read filter member now
  (polled.1, { s with group := polled.2, assigned := orphan polled.1 })

/-- `runtime` says whether there is one to spawn on. -/
def step (s : OffRuntimePoll R) : PollEvent R → OffRuntimePoll R
  | .others change => if s.poll.hasGroup then s else { s with group := change s.group }
  | .future free read now =>
    let free' := free && !s.poll.hasGroup
    match s.future with
    | .locking =>
      if free then
        let polled := s.pollAssign D subjectOf filter member read now
        { polled.2 with future := .received polled.1 }
      else { s with future := .waiting, poll := .polling }
    | .waiting =>
      match s.channel with
      | some result => { s with future := .received result, channel := none }
      | none => s
    | .closing => { s with future := .closed }
    | .closed =>
      match s.channel.bind orphan with
      | some sortKey => { s with future := .releasing sortKey, channel := none }
      | none => { s with future := .gone, channel := none }
    | .releasing sortKey =>
      if free' then { s.expireNow sortKey with future := .gone }
      else { s with future := if runtime then .spawned sortKey else .gone }
    | .spawned sortKey => if free' then { s.expireNow sortKey with future := .gone } else s
    | .received _ | .gone => s
  | .blocking read now =>
    match s.poll with
    | .polling =>
      let polled := s.pollAssign D subjectOf filter member read now
      { polled.2 with poll := .sending polled.1 }
    | .sending result =>
      if s.future.rxClosed then
        match orphan result with
        | some sortKey => { s with poll := .expiring sortKey }
        | none => { s with poll := .ending }
      else { s with channel := some result, poll := .ending }
    | .expiring sortKey => { s.expireNow sortKey with poll := .ending }
    | .ending => { s with poll := .ended }
    | .absent | .ended => s
  | .drop =>
    match s.future with
    | .locking => { s with future := .gone }
    | .waiting => { s with future := .closing }
    | _ => s

def run (s : OffRuntimePoll R) (events : List (PollEvent R)) : OffRuntimePoll R :=
  events.foldl (step D subjectOf filter member runtime) s

end OffRuntimePoll

end Ehdb.Feed
