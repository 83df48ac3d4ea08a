import Ehdb.L0.Run
import Ehdb.Proof.Feed.Resumes

/-! No record is lost, and one in flight is not handed out again before its time; named groups
resume from their own progress; a poll whose future is dropped gives its record back. -/

namespace Ehdb.Theorems

open Feed Proof.Group
open L0 (Dataset Outcome Sample sampleDataset)

/-- After any run of a group from cursor `c`, every record above `c` is in exactly one place,
records went to members whose filter matches, and the committed cursor only grows and stays below
what is not acked. A group rebuilt at a committed cursor gives a member that polls and acks every
record not acked that its filter matches. -/
theorem group_loses_no_record {R : Type} (D : Dataset R) (subjectOf : R → Subject) {log : List R}
    (ascending : log.Pairwise fun a b => D.sortKey a < D.sortKey b) (shard ackWaitTicks c : Nat)
    (ops : List (GroupOp R)) : let start := GroupWorld.new log shard ackWaitTicks c
    let w := start.run D subjectOf ops
    (∀ r ∈ w.log, c < D.sortKey r → ∃! p, At D w r p) ∧
    AssignedWell subjectOf ackWaitTicks w.trace ∧
    (∀ more, w.group.committedCursor D ≤ (w.run D subjectOf more).group.committedCursor D) ∧
    ∀ r ∈ w.log, c < D.sortKey r → .acked (D.sortKey r) ∉ w.trace →
      w.group.committedCursor D < D.sortKey r ∧
      ∀ earlier, earlier <+: ops → ∀ (shard ackWaitTicks : Nat) (more : List (GroupOp R))
        (filter : SubjectFilter) (member now limit : Nat), filter.matches (subjectOf r) = true →
        let cursor := (start.run D subjectOf earlier).group.committedCursor D
        let rebuilt := (GroupWorld.new w.log shard ackWaitTicks cursor).run D subjectOf more
        Delivered ((serve D subjectOf filter member now limit)^[backlog D rebuilt + 1]
          rebuilt).trace r := by
  have fresh : GroupInv D subjectOf c (.new log shard ackWaitTicks c) := .new ascending ..
  have inv := fresh.run ops
  refine ⟨fun r mem above => inv.place mem above, ?_, inv.committed_run, ?_⟩
  · have well := inv.well
    rw [fresh.run_ackWait] at well
    exact well
  · intro r mem above unacked
    have below := inv.committed_lt mem above unacked
    refine ⟨below, ?_⟩
    rintro earlier ⟨later, rfl⟩ shard' ackWaitTicks' more filter member now limit hit
    have grows := (fresh.run earlier).committed_run later
    rw [GroupWorld.run, GroupWorld.run, ← List.foldl_append] at grows
    have again (c : Nat) : GroupInv D subjectOf c (.new _ shard' ackWaitTicks' c) :=
      .new inv.ascending ..
    exact ((again _).run more).serve_delivers ((again _).run_log more mem) (grows.trans_lt below)
      hit (Nat.lt_succ_self _)

def deliveries : List (GroupOp Sample) :=
  [.append ⟨2, false, false⟩, .pollAssign ⟨[">"]⟩ 7 0 1, .expireNow 1, .pollAssign ⟨[">"]⟩ 8 1 1,
    .ack 1]

def groupAfterDeliveries : GroupWorld Sample :=
  (GroupWorld.new [⟨1, false, false⟩] 0 30 0).run (sampleDataset false) (fun _ => ⟨["a"]⟩)
    deliveries

theorem second_record_is_not_lost :
    groupAfterDeliveries.group.committedCursor (sampleDataset false) = 1 ∧
      ∃! p, At (sampleDataset false) groupAfterDeliveries ⟨2, false, false⟩ p :=
  ⟨by decide, (group_loses_no_record (sampleDataset false) (fun _ => ⟨["a"]⟩)
    (List.pairwise_singleton _ _) 0 30 0 deliveries).1 _ (by decide) (by decide)⟩

open ProofKit Proof.Groups List

/-- In a run that opens groups whose sanitised names differ, reads the cursor files it opens, finds
none above the tip, and has a cursor to read when it opens a group again (or replays from the
beginning), every group resumes at or below the cursor it had committed when the coordinator
stopped. -/
theorem groups_resume_from_own_commits {R : Type} (D : Dataset R) (cfg : GroupsConfig R)
    {log : List R} (ascending : log.Pairwise fun a b => D.sortKey a < D.sortKey b) (tip : Nat)
    (files tmps : String → Option FileBody)
    (moves : List (Move Outcome GroupsRequest (GroupsWorldEvent R)))
    (well : wellOpened cfg.fallback (runGroups D cfg log tip files tmps moves).shared.trace =
      true) :
    ResumesSafely D (runGroups D cfg log tip files tmps moves).shared.trace := by
  obtain ⟨ls, tracks⟩ := Pool.run_tracks (groupsService D cfg) (groupsProtocol D cfg)
    follows_groups (.new log tip files tmps) moves
  exact (keeps_groups.reach tracks.reach well (.new ascending ..)).1.safe

/-- Where groups resumed, with what each had committed when the coordinator last stopped. -/
def resumes {R : Type} (D : Dataset R) : List (GroupsEvent R) → List (String × Nat × Option Nat)
  | [] => []
  | .resumed name _ _ _ fromCursor :: rest =>
    (name, fromCursor, (lastStopped name rest).map fun last => last.2.group.committedCursor D) ::
      resumes D rest
  | .stopped .. :: rest => resumes D rest

theorem ResumesSafely.le {R : Type} {D : Dataset R} {trace}
    (safe : ResumesSafely D trace) {name : String} {fromCursor committed : Nat}
    (mem : (name, fromCursor, some committed) ∈ resumes D trace) : fromCursor ≤ committed := by
  induction trace with
  | nil => cases mem
  | cons e rest ih =>
    have tail : ResumesSafely D rest := fun name stored held tip fromCursor rest' suffix =>
      safe name stored held tip fromCursor rest' (suffix.trans (suffix_cons _ _))
    cases e with
    | stopped => exact ih tail mem
    | resumed other stored held tip fromCursor' =>
      rcases mem_cons.1 mem with new | old
      · simp only [Prod.mk.injEq] at new
        obtain ⟨rfl, rfl, stopped⟩ := new
        obtain ⟨⟨start, last⟩, found, rfl⟩ := Option.map_eq_some_iff.1 stopped.symm
        exact (safe _ _ _ _ _ _ suffix_rfl start last found).1
      · exact ih tail old

/-- Groups over one record, which start at the beginning when they have no cursor. -/
def sampleGroups : GroupsConfig Sample where
  shard := 0
  ackWaitTicks := 30
  subjectOf := fun _ => ⟨["a"]⟩
  fallback := .beginning
  batchLimit := 9

def groupSteps (i n : Nat) : List (Move Outcome GroupsRequest (GroupsWorldEvent Sample)) :=
  List.replicate n (.act i .ok)

/-- One group is opened, another claims the record and acks it, the coordinator restarts and the
first group is opened again. -/
def restartAfterAck (idle busy : String) :
    List (Move Outcome GroupsRequest (GroupsWorldEvent Sample)) :=
  .call (.openGroup idle) :: groupSteps 0 5 ++
  .call (.claimNext busy ⟨[">"]⟩ 7 1) :: groupSteps 1 6 ++ .call (.ack busy 1) :: groupSteps 2 10 ++
  .world .restart :: .call (.openGroup idle) :: groupSteps 3 5 ++
  .call (.openGroup busy) :: groupSteps 4 5

def afterRestart (idle busy : String) :
    Pool (GroupsWorld Sample) Outcome GroupsRequest (GroupsAnswer Sample) :=
  runGroups (sampleDataset false) sampleGroups [⟨1, false, false⟩] 1 (fun _ => none)
    (fun _ => none) (restartAfterAck idle busy)

theorem distinct_groups_resume_from_own_commits :
    resumes (sampleDataset false) (afterRestart "idle" "busy").shared.trace =
      [("busy", 1, some 1), ("idle", 0, some 0), ("busy", 0, none), ("idle", 0, none)] ∧
    ResumesSafely (sampleDataset false) (afterRestart "idle" "busy").shared.trace :=
  ⟨by decide, groups_resume_from_own_commits (sampleDataset false) sampleGroups
    (pairwise_singleton _ _) 1 _ _ _ (by decide)⟩

/-- The groups `a.b` and `a_b` have one cursor file: `a_b` resumes past the record that only `a.b`
has acked. -/
theorem other_group_is_skipped : "a.b" ≠ "a_b" ∧
      ¬ResumesSafely (sampleDataset false) (afterRestart "a_b" "a.b").shared.trace := by
  refine ⟨by decide, fun safe => ?_⟩
  have skipped : ("a_b", 1, some 0) ∈
      resumes (sampleDataset false) (afterRestart "a_b" "a.b").shared.trace := by decide
  exact absurd (ResumesSafely.le safe skipped) (by decide)

open OffRuntimePoll

variable {R : Type} {s : OffRuntimePoll R} {D : Dataset R} {subjectOf : R → Subject}
  {filter : SubjectFilter} {member : Nat}

def received : PollFuture R → List Nat
  | .received result => (orphan result).toList
  | _ => []

/-- Nothing of the call is left to run. -/
def Over (s : OffRuntimePoll R) : Prop :=
  s.poll.hasGroup = false ∧ (s.future = .gone ∨ ∃ result, s.future = .received result)

/-- The states of a call: the record that it was assigned is at one place. -/
inductive Accounted : PollFuture R → BlockingPoll R → Option (PollResult R) → Option Nat →
    List Nat → Prop
  | start : Accounted .locking .absent none none []
  | left : Accounted .gone .absent none none []
  | polling {f} (asked : f = .waiting ∨ f = .closing ∨ f = .closed ∨ f = .gone) :
      Accounted f .polling none none []
  | sending {f r} (asked : f = .waiting ∨ f = .closing ∨ f = .closed ∨ f = .gone) :
      Accounted f (.sending r) none (orphan r) []
  | sent {f p r} (asked : f = .waiting ∨ f = .closing ∨ f = .closed)
      (past : p = .ending ∨ p = .ended) :
      Accounted f p (some r) (orphan r) []
  | received {p r} (past : p = .absent ∨ p = .ending ∨ p = .ended) :
      Accounted (.received r) p none (orphan r) []
  | releasing {f p k} (owes : f = .releasing k ∨ f = .spawned k) (past : p = .ending ∨ p = .ended) :
      Accounted f p none (some k) []
  | expiring {f k} (closed : f = .closed ∨ f = .gone) : Accounted f (.expiring k) none (some k) []
  | nothing {f p} (closed : f = .closed ∨ f = .gone) (past : p = .ending ∨ p = .ended) :
      Accounted f p none none []
  | givenBack {f p k} (closed : f = .closed ∨ f = .gone) (past : p = .ending ∨ p = .ended) :
      Accounted f p none (some k) [k]

def Held (s : OffRuntimePoll R) : Prop :=
  Accounted s.future s.poll s.channel s.assigned s.expired

theorem Held.future (h : Held s) (free : Bool) (read now) :
    Held (s.step D subjectOf filter member true (.future free read now)) := by
  obtain ⟨g, future, poll, channel, assigned, expired⟩ := s
  unfold Held at h ⊢
  dsimp only at h
  cases h <;> grind [step, pollAssign, expireNow, Accounted]

theorem Held.blocking (h : Held s) (read now) :
    Held (s.step D subjectOf filter member true (.blocking read now)) := by
  obtain ⟨g, future, poll, channel, assigned, expired⟩ := s
  unfold Held at h ⊢
  dsimp only at h
  cases h <;> grind [step, pollAssign, expireNow, PollFuture.rxClosed, Accounted]

theorem Held.next (h : Held s) (e : PollEvent R) :
    Held (s.step D subjectOf filter member true e) := by
  cases e with
  | others change =>
    simp only [step]
    split <;> exact h
  | future free read now => exact h.future free read now
  | blocking read now => exact h.blocking read now
  | drop =>
    obtain ⟨g, future, poll, channel, assigned, expired⟩ := s
    unfold Held at h ⊢
    dsimp only at h
    cases h <;> grind [step, Accounted]

theorem Held.run (h : Held s) (events : List (PollEvent R)) :
    Held (s.run D subjectOf filter member true events) := by
  induction events generalizing s with
  | nil => exact h
  | cons e rest ih => exact ih (h.next e)

def own : PollEvent R → Bool
  | .future .. | .blocking .. => true
  | _ => false

/-- How many steps the closure and the future have before them. -/
def left (s : OffRuntimePoll R) : Nat :=
  (match s.poll with
    | .polling => 4
    | .sending _ => 3
    | .expiring _ => 2
    | .ending => 1
    | .absent | .ended => 0) + match s.future with
    | .closing => 3
    | .closed => 2
    | .locking | .waiting | .releasing _ | .spawned _ => 1
    | .gone | .received _ => 0

variable (D subjectOf filter member) in
theorem Held.nears (h : Held s) (more : 0 < left s) : ∃ e : PollEvent R, own e ∧
    left (s.step D subjectOf filter member true e) < left s := by
  refine ⟨if s.poll.hasGroup then .blocking (fun _ => .ok []) 0
    else .future true (fun _ => .ok []) 0, by split <;> rfl, ?_⟩
  obtain ⟨g, future, poll, channel, assigned, expired⟩ := s
  unfold Held at h
  dsimp only at h ⊢
  cases h with
  | @sent _ _ r asked past =>
    rcases asked with rfl | rfl | rfl <;> rcases past with rfl | rfl <;> cases is : orphan r <;>
      simp [step, BlockingPoll.hasGroup, left, is]
  | _ => grind [step, pollAssign, expireNow, BlockingPoll.hasGroup, left]

theorem over_of_left (none : left s = 0) : Over s := by
  obtain ⟨g, future, poll, channel, assigned, expired⟩ := s
  cases poll <;> cases future <;> simp_all [left, Over, BlockingPoll.hasGroup]

theorem Held.ends (h : Held s) :
    ∃ more, (∀ e ∈ more, own e) ∧ Over (s.run D subjectOf filter member true more) := by
  induction is : left s using Nat.strong_induction_on generalizing s with
  | _ n ih =>
    rcases Nat.eq_zero_or_pos (left s) with zero | more
    · exact ⟨[], nofun, over_of_left zero⟩
    · obtain ⟨e, mine, fewer⟩ := h.nears D subjectOf filter member more
      obtain ⟨rest, all, ends⟩ := ih _ (is ▸ fewer) (h.next e) rfl
      exact ⟨e :: rest, by simpa [mine] using all, ends⟩

theorem Held.given_back (h : Held s) (ended : Over s) :
    received s.future ++ s.expired = s.assigned.toList := by
  obtain ⟨g, future, poll, channel, assigned, expired⟩ := s
  obtain ⟨done, rfl | ⟨result, rfl⟩⟩ : _ ∧ (future = _ ∨ ∃ result, future = _) := ended
  all_goals
    unfold Held at h
    dsimp only at h done
    cases h <;> simp_all [received, BlockingPoll.hasGroup]

/-- In flight and due at once: whatever time it is, a poll that matches its subject hands it out
again, or one with a lower key that is due as well. -/
def DueNow (D : Dataset R) (subjectOf : R → Subject) (g : SubjectConsumerGroup R) (sortKey : Nat) :
    Prop :=
  ∃ f, g.inflight.find? sortKey = some f ∧ f.deadline = 0 ∧ g.earliestDeadline = 0 ∧
    ∀ read batch filter member now, read g.feed.cursor = .ok batch →
      filter.matches f.subject = true → ∃ first due, g.inflight.find? first = some due ∧
        first ≤ sortKey ∧ due.deadline ≤ now ∧ filter.matches due.subject = true ∧
        (g.pollAssign D subjectOf read filter member now).1 =
          .ok (some ⟨due.record, first, member, true⟩)

theorem firstDue_le {inflight : OrderedMap Nat (SubjectInFlight R)} (hit : Subject → Bool)
    {now sortKey f} (found : inflight.find? sortKey = some f) (due : f.deadline ≤ now)
    (hits : hit f.subject) :
    ∃ first other, firstDue hit now inflight.entries = some (first, other) ∧ first ≤ sortKey := by
  have mem := OrderedMap.find?_eq_some.1 found
  cases is : firstDue hit now inflight.entries with
  | none =>
    have := List.find?_eq_none.1 is _ mem
    simp [due, hits] at this
  | some entry =>
    refine ⟨entry.1, entry.2, rfl, ?_⟩
    obtain ⟨-, before, after, split, early⟩ := List.find?_eq_some_iff_append.1 is
    rw [split] at mem
    rcases List.mem_append.1 mem with skipped | later
    · have := early _ skipped
      simp [due, hits] at this
    · have ordered := inflight.ordered
      rw [split] at ordered
      rcases List.mem_cons.1 later with same | after
      · rw [← same]
      · exact (List.rel_of_pairwise_cons (List.pairwise_append.1 ordered).2.1 after).le

theorem assign_firstDue {g : SubjectConsumerGroup R} {now first other}
    (bound : g.earliestDeadline = 0)
    (due : firstDue filter.matches now g.inflight.entries = some (first, other)) :
    (g.assign D filter member now).1 = some ⟨other.record, first, member, true⟩ := by
  obtain ⟨low, any, scanned, -⟩ := scanExpired_spec filter now g.inflight.entries u64Max false
  have again : ((firstDue filter.matches now g.inflight.entries).map Prod.fst).bind (fun sk =>
      (g.inflight.find? sk).map fun f => (sk, f)) = _ := find?_firstDue
  rw [due] at scanned again
  unfold SubjectConsumerGroup.assign SubjectConsumerGroup.findExpired
  rw [if_neg (by omega), scanned]
  cases any <;> simp only [Option.map_some] at again ⊢ <;> simp [again]

/-- `expire_now` on a record in flight. -/
theorem dueNow_expireNow {g : SubjectConsumerGroup R} {sortKey : Nat}
    (found : (g.inflight.find? sortKey).isSome) :
    DueNow D subjectOf (g.expireNow sortKey).2 sortKey := by
  obtain ⟨f, is⟩ := Option.isSome_iff_exists.1 found
  have expired : (g.expireNow sortKey).2 = { g with
      inflight := g.inflight.adjust sortKey fun f => { f with deadline := 0 }
      earliestDeadline := 0 } := by
    rw [SubjectConsumerGroup.expireNow, is]
  have now_due : (g.inflight.adjust sortKey fun f => { f with deadline := 0 }).find? sortKey =
      some { f with deadline := 0 } := by
    rw [OrderedMap.find?_adjust, if_pos rfl, is]
    rfl
  rw [expired]
  refine ⟨_, now_due, rfl, rfl, fun read batch filter member now reads hits => ?_⟩
  obtain ⟨first, other, due, le⟩ := firstDue_le filter.matches now_due
    (Nat.zero_le now) hits
  have chosen := List.find?_some due
  simp only [Bool.and_eq_true, decide_eq_true_eq] at chosen
  refine ⟨first, other, OrderedMap.find?_eq_some.2 (List.mem_of_find?_eq_some due), le, chosen.1,
    chosen.2, ?_⟩
  unfold SubjectConsumerGroup.pollAssign
  dsimp only at reads ⊢
  rw [reads]
  dsimp only
  rw [refill_eq]
  exact congrArg Except.ok (assign_firstDue rfl due)

/-- What a poll hands out is in flight. -/
theorem pollAssign_inflight {g : SubjectConsumerGroup R} {read now sortKey}
    (handed : orphan (g.pollAssign D subjectOf read filter member now).1 = some sortKey) :
    ((g.pollAssign D subjectOf read filter member now).2.inflight.find? sortKey).isSome := by
  unfold SubjectConsumerGroup.pollAssign at handed ⊢
  split at handed
  · cases handed
  · generalize g.refill D subjectOf _ = g at handed ⊢
    unfold SubjectConsumerGroup.assign at handed ⊢
    generalize SubjectConsumerGroup.findExpired filter now g = found at handed ⊢
    dsimp only at handed ⊢
    split at handed
    · rename_i sk f is
      cases handed
      obtain ⟨sk, -, is⟩ := Option.bind_eq_some_iff.1 is
      obtain ⟨f, is, same⟩ := Option.map_eq_some_iff.1 is
      cases same
      simp [SubjectConsumerGroup.redeliver, OrderedMap.find?_adjust, is]
    · split at handed
      · cases handed
        simp [SubjectConsumerGroup.assignFresh, OrderedMap.find?_insert]
      · cases handed

/-- The record that the closure has to send or to make due, which others cannot take meanwhile. -/
def InFlight (s : OffRuntimePoll R) : Prop :=
  ∀ k, (s.poll = .expiring k ∨ ∃ r, s.poll = .sending r ∧ orphan r = some k) →
    (s.group.inflight.find? k).isSome

theorem InFlight.of_free (free : s.poll.hasGroup = false) : InFlight s := by
  rintro k (is | ⟨r, is, -⟩)
  all_goals
    rw [is] at free
    cases free

theorem InFlight.future (h : InFlight s) (held : Held s) (free : Bool) (read now) :
    InFlight (s.step D subjectOf filter member true (.future free read now)) := by
  obtain ⟨g, future, poll, channel, assigned, expired⟩ := s
  by_cases taken : poll.hasGroup = true
  · -- the closure has the guard: the future does not touch the group
    unfold Held at held
    dsimp only at held
    cases held <;> grind [step, InFlight, BlockingPoll.hasGroup]
  · cases future <;> grind [step, InFlight, pollAssign, expireNow, BlockingPoll.hasGroup]

theorem InFlight.blocking (h : InFlight s) (read now) :
    InFlight (s.step D subjectOf filter member true (.blocking read now)) := by
  obtain ⟨g, future, poll, channel, assigned, expired⟩ := s
  cases poll with
  | polling =>
    rintro k (is | ⟨r, is, handed⟩)
    · cases is
    · cases is
      exact pollAssign_inflight handed
  | sending result => grind [step, InFlight]
  | expiring sortKey => grind [step, InFlight, expireNow]
  | ending | absent | ended => grind [step, InFlight]

theorem InFlight.run (h : InFlight s) (held : Held s) (events : List (PollEvent R)) :
    InFlight (s.run D subjectOf filter member true events) := by
  induction events generalizing s with
  | nil => exact h
  | cons e rest ih =>
    refine ih ?_ (held.next e)
    cases e with
    | others change =>
      simp only [step]
      split
      · exact h
      · rename_i free
        exact .of_free (Bool.not_eq_true _ ▸ free)
    | future free read now => exact h.future held free read now
    | blocking read now => exact h.blocking read now
    | drop =>
      obtain ⟨g, future, poll, channel, assigned, expired⟩ := s
      cases future <;> exact h

/-- A step that makes a record due again: on the group it is `expire_now`, and the record is due if
it is in flight still, as it is when the closure failed to send it. -/
structure GivesBack (D : Dataset R) (subjectOf : R → Subject) (s s' : OffRuntimePoll R)
    (sortKey : Nat) : Prop where
  expired : s'.expired = s.expired ++ [sortKey]
  group : s'.group = (s.group.expireNow sortKey).2
  due : (s.group.inflight.find? sortKey).isSome → DueNow D subjectOf s'.group sortKey
  unsent : s.poll.hasGroup = true → (s.group.inflight.find? sortKey).isSome

theorem Held.gives_back (held : Held s) (inFlight : InFlight s) (e : PollEvent R) :
    (s.step D subjectOf filter member true e).expired = s.expired ∨
      ∃ sortKey, s.assigned = some sortKey ∧
        GivesBack D subjectOf s (s.step D subjectOf filter member true e) sortKey := by
  obtain ⟨g, future, poll, channel, assigned, expired⟩ := s
  unfold Held at held
  dsimp only at held
  cases e with
  | others change =>
    refine .inl ?_
    simp only [step]
    split <;> rfl
  | drop => cases future <;> exact .inl rfl
  | future free read now =>
    cases future with
    | releasing sortKey | spawned sortKey =>
      by_cases freed : (free && !poll.hasGroup) = true
      · refine .inr ⟨sortKey, by cases held <;> simp_all, ?_⟩
        simp only [step, if_pos freed]
        refine ⟨rfl, rfl, dueNow_expireNow, fun taken => ?_⟩
        simp [taken] at freed
      · refine .inl ?_
        simp only [step, if_neg freed]
    | _ => grind [step, pollAssign]
  | blocking read now =>
    cases poll with
    | expiring sortKey =>
      refine .inr ⟨sortKey, by cases held <;> simp_all, rfl, rfl, dueNow_expireNow, fun _ => ?_⟩
      exact inFlight sortKey (.inl rfl)
    | _ => grind [step, pollAssign]

/-- Others act on the group, and the future may be dropped, at any time. When the call is over, the
record that it was assigned, if any, has either been received or been made due again, once; as long
as it is not, the call has steps of its own that bring it to its end; and whenever one of its steps
makes a record due again, it is the assigned one, and the next poll that matches hands it out. -/
theorem abandoned_poll_gives_back_once {R : Type} (D : Dataset R) (subjectOf : R → Subject)
    (filter : SubjectFilter) (member : Nat) (g : SubjectConsumerGroup R)
    (events : List (PollEvent R)) :
    let s := (OffRuntimePoll.new g).run D subjectOf filter member true events
    (Over s → received s.future ++ s.expired = s.assigned.toList) ∧
    (∃ more, (∀ e ∈ more, own e) ∧ Over (s.run D subjectOf filter member true more)) ∧
    ∀ e, (s.step D subjectOf filter member true e).expired = s.expired ∨
      ∃ sortKey, s.assigned = some sortKey ∧
        GivesBack D subjectOf s (s.step D subjectOf filter member true e) sortKey := by
  intro s
  have held : Held s := Held.run (s := .new g) .start events
  have inFlight : InFlight s := InFlight.run (s := .new g) (.of_free rfl) .start events
  exact ⟨held.given_back, held.ends, held.gives_back inFlight⟩

/-- The future is dropped while the closure polls, and closes the channel before it sends. -/
def droppedPoll : List (PollEvent Sample) :=
  [.future false (fun _ => .ok []) 5, .drop, .future true (fun _ => .ok []) 5,
    .blocking (fun _ => .ok [⟨1, false, false⟩, ⟨2, false, false⟩]) 5,
    .blocking (fun _ => .ok []) 5, .blocking (fun _ => .ok []) 5, .blocking (fun _ => .ok []) 5,
    .future true (fun _ => .ok []) 5]

/-- The record of a dropped poll is the first that the next one gets, at the same time and again. -/
theorem dropped_poll_gives_back :
    let s := (OffRuntimePoll.new (.new 0 30 0)).run (sampleDataset false) (fun _ => ⟨["a"]⟩)
      ⟨[">"]⟩ 7 true droppedPoll
    received s.future ++ s.expired = s.assigned.toList ∧ s.assigned = some 1 ∧
      (s.group.pollAssign (sampleDataset false) (fun _ => ⟨["a"]⟩)
        (fun _ => .ok []) ⟨[">"]⟩ 8 5).1 =
        .ok (some ⟨⟨1, false, false⟩, 1, 8, true⟩) := by
  refine ⟨(abandoned_poll_gives_back_once (sampleDataset false) _ _ _ _ droppedPoll).1 ?_, ?_, ?_⟩
  · exact ⟨rfl, .inl rfl⟩
  · decide
  · decide

end Ehdb.Theorems
