import Ehdb.Proof.Feed.Group
import Ehdb.ProofKit.StableSort

/-! Where each record of the shard is after any run: not pulled, pending, in flight or acked. The
trace of assignments, acks and expiries says when a record in flight may be handed out again. -/

namespace Ehdb.Proof.Group

open Feed ProofKit SubjectConsumerGroup List
open L0 (Dataset ChangeFeed readAfterLimited)
open OrderedMap (erase_of_absent mem_adjust mem_erase mem_insert of_mem_adjust unique)

variable {R : Type} {D : Dataset R} {subjectOf : R → Subject} {c : Nat} {w : GroupWorld R}

def lastAssigned (k : Nat) : List (GroupEvent R) → Option Nat
  | [] => none
  | .assigned d _ now :: rest => if d.sortKey = k then some now else lastAssigned k rest
  | .acked s :: rest => if s = k then none else lastAssigned k rest
  | .expired _ :: rest => lastAssigned k rest

def expiredSince (k : Nat) : List (GroupEvent R) → Bool
  | [] => false
  | .assigned d _ _ :: rest => if d.sortKey = k then false else expiredSince k rest
  | .acked _ :: rest => expiredSince k rest
  | .expired s :: rest => if s = k then true else expiredSince k rest

def GroupEvent.key : GroupEvent R → Nat
  | .assigned d _ _ => d.sortKey
  | .acked k => k
  | .expired k => k

def Delivered (trace : List (GroupEvent R)) (r : R) : Prop :=
  ∃ d filter now, .assigned d filter now ∈ trace ∧ d.record = r

variable {trace trace' : List (GroupEvent R)} {r : R} {k : Nat}

theorem Delivered.mono (h : Delivered trace r) (grows : trace <:+ trace') : Delivered trace' r := by
  obtain ⟨d, filter, now, mem, eq⟩ := h
  exact ⟨d, filter, now, grows.mem mem, eq⟩

section Other

variable {e : GroupEvent R} (other : GroupEvent.key e ≠ k)
include other

theorem lastAssigned_other : lastAssigned k (e :: trace) = lastAssigned k trace := by
  cases e <;> simp_all [lastAssigned, GroupEvent.key]

theorem expiredSince_other : expiredSince k (e :: trace) = expiredSince k trace := by
  cases e <;> simp_all [expiredSince, GroupEvent.key]

end Other

def AckedAfterDelivery (D : Dataset R) (trace : List (GroupEvent R)) (r : R) : Prop :=
  ∃ rest, (.acked (D.sortKey r) :: rest) <:+ trace ∧
    ∃ d filter now, .assigned d filter now ∈ rest ∧ d.record = r

/-- Every record was assigned to a member whose filter matches it, and one that was in flight
only when its deadline had passed or `expire_now` had been called since. -/
def AssignedWell (subjectOf : R → Subject) (ackWait : Nat) (trace : List (GroupEvent R)) : Prop :=
  ∀ d filter now rest, (.assigned d filter now :: rest) <:+ trace →
    filter.matches (subjectOf d.record) = true ∧ ∀ t, lastAssigned d.sortKey rest = some t →
        expiredSince d.sortKey rest = true ∨ saturatingAdd t ackWait ≤ now

/-- An in-flight record is of the log, was delivered and is not yet acknowledged. -/
structure InFlightOk (D : Dataset R) (subjectOf : R → Subject) (c : Nat) (w : GroupWorld R)
    (k : Nat) (f : SubjectInFlight R) : Prop where
  key : D.sortKey f.record = k
  mem : f.record ∈ w.log
  subject : f.subject = subjectOf f.record
  above : c < k
  below : k ≤ w.group.deliveredFrontier
  unacked : .acked k ∉ w.trace
  delivered : Delivered w.trace f.record
  last : ∃ t, lastAssigned k w.trace = some t ∧
    (f.deadline = saturatingAdd t w.group.ackWaitTicks ∨ expiredSince k w.trace = true)

/-- A pending record is of the log, pulled and never assigned. -/
structure PendingOk (D : Dataset R) (subjectOf : R → Subject) (c : Nat) (w : GroupWorld R)
    (entry : Subject × R) : Prop where
  subject : entry.1 = subjectOf entry.2
  mem : entry.2 ∈ w.log
  above : c < D.sortKey entry.2
  below : D.sortKey entry.2 ≤ w.group.deliveredFrontier
  unassigned : lastAssigned (D.sortKey entry.2) w.trace = none
  unacked : .acked (D.sortKey entry.2) ∉ w.trace
  grounded : ∀ f, (D.sortKey entry.2, f) ∉ w.group.inflight.entries

/-- The group's invariant: every record it holds is above its start and up to its frontier. -/
structure GroupInv (D : Dataset R) (subjectOf : R → Subject) (c : Nat) (w : GroupWorld R) :
    Prop where
  ascending : w.log.Pairwise fun a b => D.sortKey a < D.sortKey b
  cursor : w.group.feed.cursor = w.group.deliveredFrontier
  start : c ≤ w.group.deliveredFrontier
  reached : w.group.deliveredFrontier = c ∨ ∃ r ∈ w.log, D.sortKey r = w.group.deliveredFrontier
  pendingAscends : PendingAscends D w.group
  pending : ∀ entry ∈ w.group.pending, PendingOk D subjectOf c w entry
  inflight : ∀ k f, (k, f) ∈ w.group.inflight.entries → InFlightOk D subjectOf c w k f
  acked : ∀ k, .acked k ∈ w.trace → k ≤ w.group.deliveredFrontier
  assigned : ∀ k t, lastAssigned k w.trace = some t → k ≤ w.group.deliveredFrontier
  covered : ∀ r ∈ w.log, c < D.sortKey r → D.sortKey r ≤ w.group.deliveredFrontier →
    (∃ entry ∈ w.group.pending, entry.2 = r) ∨
    (∃ f, (D.sortKey r, f) ∈ w.group.inflight.entries ∧ f.record = r) ∨
    AckedAfterDelivery D w.trace r
  timed : Timed w.group
  well : AssignedWell subjectOf w.group.ackWaitTicks w.trace

theorem GroupInv.new {log} (ascending : log.Pairwise fun a b => D.sortKey a < D.sortKey b)
    (shard ackWaitTicks : Nat) : GroupInv D subjectOf c (.new log shard ackWaitTicks c) where
  ascending := ascending
  cursor := rfl
  start := le_rfl
  reached := .inl rfl
  pendingAscends := .nil
  pending _ mem := absurd mem not_mem_nil
  inflight _ _ mem := absurd mem not_mem_nil
  acked _ mem := absurd mem not_mem_nil
  assigned _ _ h := by cases h
  covered _ _ above below := absurd (above.trans_le below) (lt_irrefl _)
  timed _ mem := absurd mem not_mem_nil
  well _ _ _ _ h := absurd (suffix_nil.1 h) (cons_ne_nil _ _)

theorem GroupInv.open_range (inv : GroupInv D subjectOf c w) (h : Open D w.group k) :
    c < k ∧ k ≤ w.group.deliveredFrontier := by
  rcases h with ⟨f, mem⟩ | ⟨entry, mem, rfl⟩
  · exact ⟨(inv.inflight k f mem).above, (inv.inflight k f mem).below⟩
  · exact ⟨(inv.pending entry mem).above, (inv.pending entry mem).below⟩

theorem GroupInv.append (inv : GroupInv D subjectOf c w) {record}
    (top : ∀ r ∈ w.log, D.sortKey r < D.sortKey record) :
    GroupInv D subjectOf c { w with log := w.log ++ [record] } := by
  have grow : ∀ r ∈ w.log, r ∈ w.log ++ [record] := fun r h => mem_append_left _ h
  refine { inv with ascending := ?_, reached := ?_, pending := ?_, inflight := ?_, covered := ?_ }
  · refine pairwise_append.2 ⟨inv.ascending, pairwise_singleton _ _, ?_⟩
    intro a mem b single
    rw [mem_singleton.1 single]
    exact top a mem
  · exact inv.reached.imp id fun ⟨r, mem, eq⟩ => ⟨r, grow r mem, eq⟩
  · exact fun entry mem => { inv.pending entry mem with mem := grow _ (inv.pending entry mem).mem }
  · exact fun k f mem => { inv.inflight k f mem with mem := grow _ (inv.inflight k f mem).mem }
  · intro r mem above below
    rcases mem_append.1 mem with old | new
    · exact inv.covered r old above below
    · -- the frontier is the start or a key of the log, and the new key is above both
      rw [mem_singleton.1 new] at above below
      have below : D.sortKey record ≤ w.group.deliveredFrontier := below
      rcases inv.reached with start | ⟨last, mem, eq⟩
      · omega
      · have := top last mem
        omega

section Batch

variable {log : List R} {after limit : Nat}

theorem mem_readAfterLimited (h : r ∈ readAfterLimited D log after limit) :
    r ∈ log ∧ after < D.sortKey r := by
  simpa using mem_of_mem_take h

theorem readAfterLimited_ascends
    (ascending : log.Pairwise fun a b => D.sortKey a < D.sortKey b) :
    (readAfterLimited D log after limit).Pairwise fun a b => D.sortKey a < D.sortKey b :=
  (ascending.filter _).take

theorem after_cursor {feed : ChangeFeed} {batch : List R}
    (ascends : batch.Pairwise fun a b => D.sortKey a < D.sortKey b)
    (above : ∀ r ∈ batch, feed.cursor < D.sortKey r) :
    (feed.after D batch).cursor = (batch.map D.sortKey).foldl max feed.cursor := by
  induction batch using reverseRecOn with
  | nil => rfl
  | append_singleton init last _ =>
    rw [pairwise_append] at ascends
    have below : (init.map D.sortKey).foldl max feed.cursor ≤ D.sortKey last := by
      refine foldl_max_le_iff.2 ⟨(above last (by simp)).le, fun k key => ?_⟩
      obtain ⟨r, mem, rfl⟩ := mem_map.1 key
      exact (ascends.2.2 r mem last (by simp)).le
    simp [ChangeFeed.after, max_eq_right below]

end Batch

def refilled (D : Dataset R) (subjectOf : R → Subject) (limit : Nat) (w : GroupWorld R) :
    GroupWorld R :=
  { w with
    group := w.group.refill D subjectOf (readAfterLimited D w.log w.group.feed.cursor limit) }

section Refill

variable {limit : Nat}

theorem refilled_frontier (D : Dataset R) (subjectOf : R → Subject) (limit : Nat)
    (w : GroupWorld R) : (refilled D subjectOf limit w).group.deliveredFrontier =
      ((readAfterLimited D w.log w.group.feed.cursor limit).map D.sortKey).foldl max
        w.group.deliveredFrontier := by
  simp [refilled, refill_eq]

theorem refilled_pending (D : Dataset R) (subjectOf : R → Subject) (limit : Nat)
    (w : GroupWorld R) : (refilled D subjectOf limit w).group.pending = w.group.pending ++
      (readAfterLimited D w.log w.group.feed.cursor limit).map fun r => (subjectOf r, r) := by
  simp [refilled, refill_eq]

theorem refilled_inflight (D : Dataset R) (subjectOf : R → Subject) (limit : Nat)
    (w : GroupWorld R) : (refilled D subjectOf limit w).group.inflight = w.group.inflight := by
  simp [refilled, refill_eq]

theorem frontier_le_refilled : w.group.deliveredFrontier ≤
    (refilled D subjectOf limit w).group.deliveredFrontier := by
  rw [refilled_frontier]
  exact start_le_foldl_max _ _

section

variable (inv : GroupInv D subjectOf c w)
include inv

theorem GroupInv.pulled
    (mem : r ∈ readAfterLimited D w.log w.group.feed.cursor limit) :
    w.group.deliveredFrontier < D.sortKey r ∧
      D.sortKey r ≤ (refilled D subjectOf limit w).group.deliveredFrontier := by
  refine ⟨inv.cursor ▸ (mem_readAfterLimited mem).2, ?_⟩
  rw [refilled_frontier]
  exact le_foldl_max (mem_map_of_mem mem)

theorem GroupInv.refill : GroupInv D subjectOf c (refilled D subjectOf limit w) where
  ascending := inv.ascending
  cursor := by
    rw [refilled_frontier, ← inv.cursor, ← after_cursor (readAfterLimited_ascends inv.ascending)
      fun r mem => (mem_readAfterLimited mem).2]
    simp [refilled, refill_eq]
  start := inv.start.trans frontier_le_refilled
  reached := by
    have grows : w.group.deliveredFrontier ≤
        (refilled D subjectOf limit w).group.deliveredFrontier := frontier_le_refilled
    rcases grows.eq_or_lt with same | more
    · rw [← same]
      exact inv.reached
    · rw [refilled_frontier] at more ⊢
      obtain ⟨last, mem, eq⟩ := mem_map.1 (foldl_max_mem more)
      exact .inr ⟨last, (mem_readAfterLimited mem).1, eq⟩
  pendingAscends := by
    rw [PendingAscends, refilled_pending, pairwise_append, pairwise_map]
    refine ⟨inv.pendingAscends, readAfterLimited_ascends inv.ascending, ?_⟩
    intro old pending new pulled
    obtain ⟨r, mem, rfl⟩ := mem_map.1 pulled
    exact (inv.pending old pending).below.trans_lt (inv.pulled mem).1
  pending := by
    intro entry mem
    rw [refilled_pending, mem_append] at mem
    rcases mem with old | new
    · have ok := inv.pending entry old
      exact { ok with
        below := ok.below.trans frontier_le_refilled
        grounded := by rw [refilled_inflight]; exact ok.grounded }
    · obtain ⟨r, mem, rfl⟩ := mem_map.1 new
      have above := (inv.pulled mem).1
      refine ⟨rfl, (mem_readAfterLimited mem).1, inv.start.trans_lt above, (inv.pulled mem).2,
        ?_, ?_, ?_⟩
      · by_contra assigned
        obtain ⟨t, last⟩ := Option.ne_none_iff_exists'.1 assigned
        exact absurd (inv.assigned _ t last) (not_le.2 above)
      · exact fun acked => absurd (inv.acked _ acked) (not_le.2 above)
      · rw [refilled_inflight]
        exact fun f flying => absurd (inv.inflight _ f flying).below (not_le.2 above)
  inflight := by
    intro k f mem
    rw [refilled_inflight] at mem
    have ok := inv.inflight k f mem
    refine { ok with below := ok.below.trans frontier_le_refilled, last := ?_ }
    simpa [refilled, refill_eq] using ok.last
  acked k mem := (inv.acked k mem).trans frontier_le_refilled
  assigned k t last := (inv.assigned k t last).trans frontier_le_refilled
  covered := by
    intro r mem above below
    rw [refilled_pending, refilled_inflight]
    by_cases old : D.sortKey r ≤ w.group.deliveredFrontier
    · refine (inv.covered r mem above old).imp_left fun waits => ?_
      obtain ⟨entry, pending, eq⟩ := waits
      exact ⟨entry, mem_append_left _ pending, eq⟩
    · refine .inl ⟨(subjectOf r, r), mem_append_right _ (mem_map.2 ⟨r, ?_, rfl⟩), rfl⟩
      rw [refilled_frontier] at below
      have fresh := not_le.1 old
      obtain ⟨last, isLast, eq⟩ := mem_map.1 (foldl_max_mem (fresh.trans_le below))
      have tail : r ∈ w.log.filter fun r => w.group.feed.cursor < D.sortKey r := by
        exact mem_filter.2 ⟨mem, decide_eq_true (inv.cursor ▸ fresh)⟩
      have order := inv.ascending.filter fun r => w.group.feed.cursor < D.sortKey r
      rw [← take_append_drop limit (w.log.filter _)] at tail order
      refine (mem_append.1 tail).resolve_right fun dropped => ?_
      have := (pairwise_append.1 order).2.2 last isLast r dropped
      omega
  timed := by
    simp only [refilled, refill_eq]
    exact inv.timed
  well := by simpa [refilled, refill_eq] using inv.well

end

end Refill

theorem AckedAfterDelivery.grow (e : GroupEvent R) (h : AckedAfterDelivery D trace r) :
    AckedAfterDelivery D (e :: trace) r := by
  obtain ⟨rest, suffix, delivered⟩ := h
  exact ⟨rest, suffix.trans (suffix_cons ..), delivered⟩

variable {ackWait now : Nat} {filter : SubjectFilter}

theorem AssignedWell.assign {d} (well : AssignedWell subjectOf ackWait trace)
    (hit : filter.matches (subjectOf d.record) = true)
    (due : ∀ t, lastAssigned d.sortKey trace = some t → expiredSince d.sortKey trace = true ∨
      saturatingAdd t ackWait ≤ now) :
    AssignedWell subjectOf ackWait (.assigned d filter now :: trace) := by
  intro d' filter' now' rest suffix
  rcases suffix_cons_iff.1 suffix with here | earlier
  · cases here
    exact ⟨hit, due⟩
  · exact well d' filter' now' rest earlier

theorem AssignedWell.other {e} (well : AssignedWell subjectOf ackWait trace)
    (other : ∀ d filter now, e ≠ .assigned d filter now) :
    AssignedWell subjectOf ackWait (e :: trace) := by
  intro d filter now rest suffix
  rcases suffix_cons_iff.1 suffix with here | earlier
  · exact absurd (head_eq_of_cons_eq here).symm (other d filter now)
  · exact well d filter now rest earlier

variable {e : Nat} {f : SubjectInFlight R} {g : SubjectConsumerGroup R} {event : GroupEvent R}

theorem InFlightOk.other (ok : InFlightOk D subjectOf c w k f) (other : GroupEvent.key event ≠ k)
    (front : g.deliveredFrontier = w.group.deliveredFrontier)
    (wait : g.ackWaitTicks = w.group.ackWaitTicks) :
    InFlightOk D subjectOf c { w with group := g, trace := event :: w.trace } k f := by
  refine { ok with
    below := front ▸ ok.below, unacked := ?_, delivered := ok.delivered.mono (suffix_cons ..)
    last := ?_ }
  · exact fun acked => ok.unacked ((mem_cons.1 acked).resolve_left fun here => other (here ▸ rfl))
  · obtain ⟨t, last, cause⟩ := ok.last
    exact ⟨t, (lastAssigned_other other).trans last,
      cause.imp (wait ▸ ·) (expiredSince_other other).trans⟩

theorem PendingOk.other {entry} (ok : PendingOk D subjectOf c w entry)
    (last : lastAssigned (D.sortKey entry.2) (event :: w.trace) =
      lastAssigned (D.sortKey entry.2) w.trace) (unacked : event ≠ .acked (D.sortKey entry.2))
    (front : g.deliveredFrontier = w.group.deliveredFrontier)
    (grounded : ∀ f, (D.sortKey entry.2, f) ∉ g.inflight.entries) :
    PendingOk D subjectOf c { w with group := g, trace := event :: w.trace } entry :=
  { ok with
    below := front ▸ ok.below
    unassigned := last.trans ok.unassigned
    unacked := fun acked => ok.unacked ((mem_cons.1 acked).resolve_left (Ne.symm unacked))
    grounded := grounded }

theorem flying_adjust {m : OrderedMap Nat (SubjectInFlight R)} {sk : Nat}
    {update : SubjectInFlight R → SubjectInFlight R} (same : ∀ f, (update f).record = f.record)
    (h : ∃ f, (k, f) ∈ m.entries ∧ f.record = r) :
    ∃ f, (k, f) ∈ (m.adjust sk update).entries ∧ f.record = r := by
  obtain ⟨f, mem, eq⟩ := h
  by_cases here : k = sk
  · exact ⟨_, mem_adjust.2 (.inr ⟨here, f, here ▸ mem, rfl⟩), (same f).trans eq⟩
  · exact ⟨f, mem_adjust.2 (.inl ⟨here, mem⟩), eq⟩

theorem GroupInv.again (inv : GroupInv D subjectOf c w) {sk member : Nat}
    (mem : (sk, f) ∈ w.group.inflight.entries) (due : f.deadline ≤ now)
    (hit : filter.matches f.subject = true)
    (same : g = ({ w.group with earliestDeadline := e } : SubjectConsumerGroup R).redeliver sk
      member now) (timed : Timed g) : GroupInv D subjectOf c
      { w with
        group := g
        trace := .assigned ⟨f.record, sk, member, true⟩ filter now :: w.trace } := by
  subst same
  have flying := inv.inflight sk f mem
  refine { inv with
    pending := ?_, inflight := ?_, acked := ?_, assigned := ?_, covered := ?_, timed := timed,
    well := ?_ }
  · intro entry pending
    have ok := inv.pending entry pending
    have other : sk ≠ D.sortKey entry.2 := fun same => ok.grounded f (same ▸ mem)
    refine ok.other (lastAssigned_other other) nofun rfl fun f' adjusted => ?_
    obtain ⟨f'', old⟩ := of_mem_adjust adjusted
    exact ok.grounded f'' old
  · intro k f' adjusted
    rcases mem_adjust.1 adjusted with ⟨other, old⟩ | ⟨rfl, f'', old, rfl⟩
    · exact (inv.inflight k f' old).other (Ne.symm other) rfl rfl
    · have ok := inv.inflight k f'' old
      exact { ok with
        unacked := by simpa using ok.unacked
        delivered := ok.delivered.mono (suffix_cons ..)
        last := ⟨now, by simp [lastAssigned], .inl rfl⟩ }
  · exact fun k acked => inv.acked k (by simpa using acked)
  · intro k t last
    by_cases same : sk = k
    · exact same ▸ flying.below
    · exact inv.assigned k t (by simpa [lastAssigned, same] using last)
  · intro r mem' above below
    exact (inv.covered r mem' above below).imp id
      (.imp (flying_adjust fun _ => rfl) (AckedAfterDelivery.grow _))
  · refine inv.well.assign (flying.subject ▸ hit) fun t last => ?_
    obtain ⟨t', last', cause⟩ := flying.last
    cases last'.symm.trans last
    rcases cause with eq | expired
    · exact .inr (eq ▸ due)
    · exact .inl expired

theorem GroupInv.fresh (inv : GroupInv D subjectOf c w) {pos member now entry}
    (at_pos : w.group.pending[pos]? = some entry) (hit : filter.matches entry.1 = true)
    (same : g = ({ w.group with earliestDeadline := e } : SubjectConsumerGroup R).assignFresh D
      pos entry member now) (timed : Timed g) : GroupInv D subjectOf c
      { w with
        group := g
        trace := .assigned ⟨entry.2, D.sortKey entry.2, member, false⟩ filter now :: w.trace } := by
  subst same
  have waiting := inv.pending entry (mem_of_getElem? at_pos)
  refine { inv with
    pendingAscends := ?_, pending := ?_, inflight := ?_, acked := ?_, assigned := ?_,
    covered := ?_, timed := timed, well := ?_ }
  · exact inv.pendingAscends.sublist (eraseIdx_sublist ..)
  · intro other kept
    obtain ⟨i, differ, at_i⟩ := mem_eraseIdx_iff_getElem?.1 kept
    have ok := inv.pending other (mem_of_getElem? at_i)
    have key : D.sortKey entry.2 ≠ D.sortKey other.2 := by
      obtain ⟨lt_i, rfl⟩ := List.getElem?_eq_some_iff.1 at_i
      obtain ⟨lt_pos, rfl⟩ := List.getElem?_eq_some_iff.1 at_pos
      rcases Nat.lt_or_gt_of_ne differ with lower | higher
      · exact (pairwise_iff_getElem.1 inv.pendingAscends _ _ lt_i lt_pos lower).ne'
      · exact (pairwise_iff_getElem.1 inv.pendingAscends _ _ lt_pos lt_i higher).ne
    refine ok.other (lastAssigned_other key) nofun rfl fun f inserted => ?_
    rcases mem_insert.1 inserted with ⟨same, -⟩ | ⟨-, old⟩
    · exact key same.symm
    · exact ok.grounded f old
  · intro k f inserted
    rcases mem_insert.1 inserted with ⟨rfl, rfl⟩ | ⟨other, old⟩
    · refine ⟨rfl, waiting.mem, waiting.subject, waiting.above, waiting.below,
        by simpa using waiting.unacked, ?_, ⟨now, ?_, .inl rfl⟩⟩
      · exact ⟨_, _, _, mem_cons_self .., rfl⟩
      · simp [lastAssigned]
    · exact (inv.inflight k f old).other (Ne.symm other) rfl rfl
  · exact fun k acked => inv.acked k (by simpa using acked)
  · intro k t last
    by_cases same : D.sortKey entry.2 = k
    · exact same ▸ waiting.below
    · exact inv.assigned k t (by simpa [lastAssigned, same] using last)
  · intro r mem above below
    rcases inv.covered r mem above below with ⟨other, pending, rfl⟩ | ⟨f, old, eq⟩ | acked
    · obtain ⟨i, at_i⟩ := getElem?_of_mem pending
      by_cases here : i = pos
      · subst here
        cases at_pos.symm.trans at_i
        exact .inr (.inl ⟨_, mem_insert.2 (.inl ⟨rfl, rfl⟩), rfl⟩)
      · exact .inl ⟨other, mem_eraseIdx_iff_getElem?.2 ⟨i, here, at_i⟩, rfl⟩
    · have other : D.sortKey r ≠ D.sortKey entry.2 := fun same => waiting.grounded f (same ▸ old)
      exact .inr (.inl ⟨f, mem_insert.2 (.inr ⟨other, old⟩), eq⟩)
    · exact .inr (.inr (acked.grow _))
  · refine inv.well.assign (waiting.subject ▸ hit) fun t last => ?_
    rw [waiting.unassigned] at last
    cases last

def assignedEvents (filter : SubjectFilter) (now : Nat) :
    Option (Delivery R) → List (GroupEvent R) → List (GroupEvent R)
  | some d, trace => .assigned d filter now :: trace
  | none, trace => trace

theorem GroupInv.assign (inv : GroupInv D subjectOf c w) {member delivery}
    (h : Assigned D filter member now w.group delivery g)
    (timed : Timed g) : GroupInv D subjectOf c
      { w with group := g, trace := assignedEvents filter now delivery w.trace } := by
  cases h with
  | again mem due hit => exact inv.again mem due hit rfl timed
  | fresh at_pos hit => exact inv.fresh at_pos hit rfl timed
  | nothing =>
    exact { inv with
      timed := timed
      pending := fun entry mem => { inv.pending entry mem with }
      inflight := fun k f mem => { inv.inflight k f mem with } }

theorem GroupInv.ack (inv : GroupInv D subjectOf c w) (mem : (k, f) ∈ w.group.inflight.entries) :
    GroupInv D subjectOf c
      { w with
        group := { w.group with inflight := w.group.inflight.erase k }
        trace := .acked k :: w.trace } := by
  have flying := inv.inflight k f mem
  refine { inv with
    pending := ?_, inflight := ?_, acked := ?_, assigned := ?_, covered := ?_, timed :=
      inv.timed.ack k,
    well := inv.well.other fun _ _ _ => nofun }
  · intro entry pending
    have ok := inv.pending entry pending
    have other : k ≠ D.sortKey entry.2 := fun same => ok.grounded f (same ▸ mem)
    exact ok.other (lastAssigned_other other) (by simpa using other) rfl fun f' kept =>
      ok.grounded f' (mem_erase.1 kept).2
  · intro k' f' kept
    obtain ⟨other, old⟩ := mem_erase.1 kept
    exact (inv.inflight k' f' old).other (Ne.symm other) rfl rfl
  · intro k' acked
    rcases mem_cons.1 acked with same | old
    · cases same
      exact flying.below
    · exact inv.acked k' old
  · intro k' t last
    simp only [lastAssigned] at last
    split at last
    · cases last
    · exact inv.assigned k' t last
  · intro r mem' above below
    rcases inv.covered r mem' above below with pending | ⟨f', old, eq⟩ | acked
    · exact .inl pending
    · by_cases same : D.sortKey r = k
      · subst same
        obtain ⟨d, filter, t, given, record⟩ := flying.delivered
        cases unique old mem
        exact .inr (.inr ⟨w.trace, suffix_rfl, d, filter, t, given, record.trans eq⟩)
      · exact .inr (.inl ⟨f', mem_erase.2 ⟨same, old⟩, eq⟩)
    · exact .inr (.inr (acked.grow _))

theorem GroupInv.expire (inv : GroupInv D subjectOf c w) (k : Nat) : GroupInv D subjectOf c
      { w with
        group := { w.group with
          inflight := w.group.inflight.adjust k fun f => { f with deadline := 0 }
          earliestDeadline := 0 }
        trace := .expired k :: w.trace } := by
  refine { inv with
    pending := ?_, inflight := ?_, acked := ?_, covered := ?_, timed := inv.timed.expire k,
    well := inv.well.other fun _ _ _ => nofun }
  · intro entry pending
    have ok := inv.pending entry pending
    refine ok.other rfl nofun rfl fun f' adjusted => ?_
    obtain ⟨f, old⟩ := of_mem_adjust adjusted
    exact ok.grounded f old
  · intro k' f' adjusted
    rcases mem_adjust.1 adjusted with ⟨other, old⟩ | ⟨rfl, f, old, rfl⟩
    · exact (inv.inflight k' f' old).other (Ne.symm other) rfl rfl
    · have ok := inv.inflight k' f old
      obtain ⟨t, last, -⟩ := ok.last
      exact { ok with
        unacked := by simpa using ok.unacked
        delivered := ok.delivered.mono (suffix_cons ..)
        last := ⟨t, last, .inr (by simp [expiredSince])⟩ }
  · exact fun k' acked => inv.acked k' (by simpa using acked)
  · intro r mem above below
    exact (inv.covered r mem above below).imp id
      (.imp (flying_adjust fun _ => rfl) (AckedAfterDelivery.grow _))

/-- What one call to a group can do to it. -/
inductive GroupStep (D : Dataset R) (subjectOf : R → Subject) (w : GroupWorld R) :
    GroupWorld R → Prop
  | same : GroupStep D subjectOf w w
  | append {record} (top : ∀ r ∈ w.log, D.sortKey r < D.sortKey record) :
      GroupStep D subjectOf w { w with log := w.log ++ [record] }
  | poll {limit member now filter delivery g}
      (h : Assigned D filter member now (refilled D subjectOf limit w).group delivery g)
      (timed : Timed g) : GroupStep D subjectOf w
        { w with group := g, trace := assignedEvents filter now delivery w.trace }
  | ack {k : Nat} {f : SubjectInFlight R} (mem : (k, f) ∈ w.group.inflight.entries) :
      GroupStep D subjectOf w
        { w with
          group := { w.group with inflight := w.group.inflight.erase k }
          trace := .acked k :: w.trace }
  | expire (k : Nat) : GroupStep D subjectOf w
        { w with
          group := { w.group with
            inflight := w.group.inflight.adjust k fun f => { f with deadline := 0 }
            earliestDeadline := 0 }
          trace := .expired k :: w.trace }

theorem polled_eq (D : Dataset R) (subjectOf : R → Subject) (filter : SubjectFilter)
    (member now limit : Nat) (w : GroupWorld R) :
    w.polled D subjectOf (fun cursor => .ok (readAfterLimited D w.log cursor limit))
        filter member now = { w with
        group := ((refilled D subjectOf limit w).group.assign D filter member now).2
        trace := assignedEvents filter now
          ((refilled D subjectOf limit w).group.assign D filter member now).1 w.trace } := by
  unfold GroupWorld.polled pollAssign refilled
  dsimp only
  generalize assign D filter member now _ = result
  obtain ⟨_ | d, g⟩ := result <;> rfl

section

variable (inv : GroupInv D subjectOf c w)
include inv

theorem GroupInv.step_cases (op : GroupOp R) : GroupStep D subjectOf w (w.step D subjectOf op) := by
  cases op with
  | append record =>
    simp only [GroupWorld.step]
    split
    · rename_i top
      exact .append (by simpa using top)
    · exact .same
  | pollAssign filter member now limit =>
    simp only [GroupWorld.step, polled_eq]
    exact .poll (assign_spec inv.refill.timed) (assign_timed inv.refill.timed)
  | pollFails filter member now => exact .same
  | ack k =>
    simp only [GroupWorld.step, SubjectConsumerGroup.ack]
    cases found : w.group.inflight.find? k with
    | some f => exact .ack (OrderedMap.find?_eq_some.1 found)
    | none =>
      simp only [Option.isSome_none, erase_of_absent found]
      exact .same
  | expireNow k =>
    simp only [GroupWorld.step, SubjectConsumerGroup.expireNow]
    cases w.group.inflight.find? k with
    | some f => exact .expire k
    | none => exact .same

theorem GroupInv.step {w'} (h : GroupStep D subjectOf w w') : GroupInv D subjectOf c w' := by
  cases h with
  | same => exact inv
  | append top => exact inv.append top
  | poll h timed => exact inv.refill.assign h timed
  | ack mem => exact inv.ack mem
  | expire k => exact inv.expire k

theorem GroupInv.run (ops : List (GroupOp R)) : GroupInv D subjectOf c (w.run D subjectOf ops) := by
  induction ops generalizing w with
  | nil => exact inv
  | cons op ops ih => exact ih (inv.step (inv.step_cases op))

theorem GroupInv.run_ackWait (ops : List (GroupOp R)) :
    (w.run D subjectOf ops).group.ackWaitTicks = w.group.ackWaitTicks := by
  induction ops generalizing w with
  | nil => rfl
  | cons op ops ih =>
    have step := inv.step_cases op
    refine (ih (inv.step step)).trans ?_
    generalize w.step D subjectOf op = w' at step
    cases step with
    | poll h => cases h <;> simp [redeliver, assignFresh, refilled, refill_eq]
    | same | append | ack | expire => rfl

end

end Ehdb.Proof.Group
