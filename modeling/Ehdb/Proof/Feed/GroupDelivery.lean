import Ehdb.Proof.Feed.GroupRuns

/-! The committed cursor only grows and stays below every record that is not acked, and a member
that polls and acks gets every record its filter matches. -/

namespace Ehdb.Proof.Group

open Feed ProofKit SubjectConsumerGroup List
open L0 (Dataset readAfterLimited)

variable {R : Type} {D : Dataset R} {subjectOf : R → Subject} {c : Nat} {w : GroupWorld R}

/-- The places a record of the log can be in for a group. -/
inductive Place where
  | notPulled
  | pending
  | inFlight
  | acked
  deriving DecidableEq

/-- What it means for record `r` to be in each place. -/
def At (D : Dataset R) (w : GroupWorld R) (r : R) : Place → Prop
  | .notPulled => w.group.deliveredFrontier < D.sortKey r
  | .pending => ∃ entry ∈ w.group.pending, entry.2 = r
  | .inFlight => ∃ f, (D.sortKey r, f) ∈ w.group.inflight.entries ∧ f.record = r
  | .acked => AckedAfterDelivery D w.trace r

variable {trace : List (GroupEvent R)} {r : R}

theorem AckedAfterDelivery.mem (h : AckedAfterDelivery D trace r) :
    .acked (D.sortKey r) ∈ trace := by
  obtain ⟨rest, suffix, -⟩ := h
  exact suffix.mem (mem_cons_self ..)

variable {p : Place}

section

variable (inv : GroupInv D subjectOf c w)
include inv

theorem GroupInv.below (h : At D w r p) (pulled : p ≠ .notPulled) :
    D.sortKey r ≤ w.group.deliveredFrontier := by
  cases p with
  | notPulled => exact absurd rfl pulled
  | pending =>
    obtain ⟨entry, mem, rfl⟩ := h
    exact (inv.pending entry mem).below
  | inFlight =>
    obtain ⟨f, mem, -⟩ := h
    exact (inv.inflight _ f mem).below
  | acked => exact inv.acked _ h.mem

theorem GroupInv.unacked (h : At D w r p) (notAcked : p ≠ .acked) :
    .acked (D.sortKey r) ∉ w.trace := by
  cases p with
  | notPulled => exact fun acked => absurd (inv.acked _ acked) (not_le.2 h)
  | pending =>
    obtain ⟨entry, mem, rfl⟩ := h
    exact (inv.pending entry mem).unacked
  | inFlight =>
    obtain ⟨f, mem, -⟩ := h
    exact (inv.inflight _ f mem).unacked
  | acked => exact absurd rfl notAcked

theorem GroupInv.place_unique {q} (hp : At D w r p) (hq : At D w r q) : p = q := by
  -- only two pairs of places are not told apart by the frontier or by the acks
  have grounded : At D w r .pending → ¬ At D w r .inFlight := by
    rintro ⟨entry, mem, rfl⟩ ⟨f, flying, -⟩
    exact (inv.pending entry mem).grounded f flying
  by_contra differ
  by_cases hpn : p = .notPulled
  · subst hpn
    exact absurd (inv.below hq (Ne.symm differ)) (not_le.2 hp)
  by_cases hqn : q = .notPulled
  · subst hqn
    exact absurd (inv.below hp hpn) (not_le.2 hq)
  by_cases hpa : p = .acked
  · subst hpa
    exact inv.unacked hq (Ne.symm differ) hp.mem
  by_cases hqa : q = .acked
  · subst hqa
    exact inv.unacked hp hpa hq.mem
  cases p <;> cases q <;> first | contradiction | exact grounded hp hq | exact grounded hq hp

theorem GroupInv.place (mem : r ∈ w.log) (above : c < D.sortKey r) : ∃! p, At D w r p := by
  suffices ∃ p, At D w r p by
    obtain ⟨p, hp⟩ := this
    exact ⟨p, hp, fun q hq => inv.place_unique hq hp⟩
  by_cases pulled : D.sortKey r ≤ w.group.deliveredFrontier
  · rcases inv.covered r mem above pulled with pending | flying | acked
    · exact ⟨.pending, pending⟩
    · exact ⟨.inFlight, flying⟩
    · exact ⟨.acked, acked⟩
  · exact ⟨.notPulled, not_le.1 pulled⟩

end

variable {k : Nat} {g g' : SubjectConsumerGroup R} {delivery : Option (Delivery R)}

theorem Assigned.opens {filter member now}
    (h : Assigned D filter member now g delivery g') (isOpen : Open D g' k) : Open D g k := by
  cases h with
  | again =>
    exact isOpen.imp (fun ⟨_, mem⟩ => OrderedMap.of_mem_adjust mem) id
  | fresh at_pos _ =>
    rcases isOpen with ⟨f, mem⟩ | ⟨other, kept, eq⟩
    · rcases OrderedMap.mem_insert.1 mem with ⟨rfl, -⟩ | ⟨-, old⟩
      · exact .inr ⟨_, mem_of_getElem? at_pos, rfl⟩
      · exact .inl ⟨f, old⟩
    · exact .inr ⟨other, mem_of_mem_eraseIdx kept, eq⟩
  | nothing => exact isOpen

theorem Assigned.frontier {filter member now} (h : Assigned D filter member now g delivery g') :
    g'.deliveredFrontier = g.deliveredFrontier := by
  cases h <;> rfl

variable {w' : GroupWorld R}

theorem GroupStep.frontier (h : GroupStep D subjectOf w w') :
    w.group.deliveredFrontier ≤ w'.group.deliveredFrontier := by
  cases h with
  | poll h => exact h.frontier ▸ frontier_le_refilled
  | same | append | ack | expire => exact le_rfl

section

variable (inv : GroupInv D subjectOf c w)
include inv

theorem GroupInv.step_opens (h : GroupStep D subjectOf w w')
    (isOpen : Open D w'.group k) : Open D w.group k ∨ w.group.deliveredFrontier < k := by
  cases h with
  | same | append => exact .inl isOpen
  | poll h =>
    rcases h.opens isOpen with ⟨f, mem⟩ | ⟨entry, mem, rfl⟩
    · rw [refilled_inflight] at mem
      exact .inl (.inl ⟨f, mem⟩)
    · rw [refilled_pending, mem_append] at mem
      rcases mem with old | new
      · exact .inl (.inr ⟨entry, old, rfl⟩)
      · obtain ⟨r, pulled, rfl⟩ := mem_map.1 new
        exact .inr (inv.pulled pulled).1
  | ack _ =>
    exact .inl (isOpen.imp (fun ⟨f, mem⟩ => ⟨f, (OrderedMap.mem_erase.1 mem).2⟩) id)
  | expire _ =>
    exact .inl (isOpen.imp (fun ⟨_, mem⟩ => OrderedMap.of_mem_adjust mem) id)

theorem GroupInv.committed_step (h : GroupStep D subjectOf w w') :
    w.group.committedCursor D ≤ w'.group.committedCursor D :=
  committedCursor_mono inv.pendingAscends (inv.step h).pendingAscends
    (fun _ isOpen => (inv.open_range isOpen).2) h.frontier fun _ => inv.step_opens h

theorem GroupInv.committed_run (ops : List (GroupOp R)) :
    w.group.committedCursor D ≤ (w.run D subjectOf ops).group.committedCursor D := by
  induction ops generalizing w with
  | nil => exact le_rfl
  | cons op ops ih =>
    have step := inv.step_cases op
    exact (inv.committed_step step).trans (ih (inv.step step))

theorem GroupInv.committed_lt (mem : r ∈ w.log)
    (above : c < D.sortKey r) (unacked : .acked (D.sortKey r) ∉ w.trace) :
    w.group.committedCursor D < D.sortKey r := by
  have positive : 0 < D.sortKey r := by omega
  obtain ⟨p, hp, -⟩ := inv.place mem above
  cases p with
  | notPulled =>
    have le := committedCursor_le inv.pendingAscends fun _ isOpen => (inv.open_range isOpen).2
    exact le.trans_lt hp
  | pending =>
    obtain ⟨entry, pending, rfl⟩ := hp
    exact committedCursor_lt inv.pendingAscends positive (.inr ⟨entry, pending, rfl⟩)
  | inFlight =>
    obtain ⟨f, flying, -⟩ := hp
    exact committedCursor_lt inv.pendingAscends positive (.inl ⟨f, flying⟩)
  | acked => exact absurd hp.mem unacked

end

def serve (D : Dataset R) (subjectOf : R → Subject) (filter : SubjectFilter)
    (member now limit : Nat) (w : GroupWorld R) : GroupWorld R :=
  let read := fun cursor => .ok (readAfterLimited D w.log cursor (limit + 1))
  let polled := w.step D subjectOf (.pollAssign filter member now limit)
  match (w.group.pollAssign D subjectOf read filter member now).1 with
  | .ok (some d) => polled.step D subjectOf (.ack d.sortKey)
  | _ => polled

def unpulled (D : Dataset R) (w : GroupWorld R) : List R :=
  w.log.filter fun r => w.group.deliveredFrontier < D.sortKey r

/-- A bound on the rounds until a member got everything: a record that is not pulled takes a
step to be pulled and one to be delivered. -/
def backlog (D : Dataset R) (w : GroupWorld R) : Nat :=
  2 * (unpulled D w).length + w.group.pending.length + w.group.inflight.entries.length

section Serve

variable {filter : SubjectFilter} {member now limit : Nat}

section

variable (inv : GroupInv D subjectOf c w)

include inv

theorem serve_cases : ∃ delivery g,
    Assigned D filter member now (refilled D subjectOf (limit + 1) w).group delivery g ∧
    let polled : GroupWorld R :=
      { w with group := g, trace := assignedEvents filter now delivery w.trace }
    serve D subjectOf filter member now limit w =
      (delivery.map fun d => polled.step D subjectOf (.ack d.sortKey)).getD polled := by
  refine ⟨_, _, assign_spec inv.refill.timed, ?_⟩
  simp only [serve, GroupWorld.step, polled_eq]
  unfold pollAssign refilled
  dsimp only
  generalize assign D filter member now _ = result
  obtain ⟨_ | d, g⟩ := result <;> rfl

theorem GroupInv.unpulled_refilled (limit : Nat) :
    (unpulled D (refilled D subjectOf limit w)).length +
      (readAfterLimited D w.log w.group.feed.cursor limit).length ≤ (unpulled D w).length := by
  have split := take_append_drop limit (unpulled D w)
  have batch : (unpulled D w).take limit = readAfterLimited D w.log w.group.feed.cursor limit := by
    rw [inv.cursor]
    rfl
  have rest : unpulled D (refilled D subjectOf limit w) = (unpulled D w).filter fun r =>
        (refilled D subjectOf limit w).group.deliveredFrontier < D.sortKey r := by
    rw [unpulled, unpulled, filter_filter]
    have grows : w.group.deliveredFrontier ≤
        (refilled D subjectOf limit w).group.deliveredFrontier := frontier_le_refilled
    exact filter_congr fun r _ => by simpa using grows.trans_lt
  have gone : (readAfterLimited D w.log w.group.feed.cursor limit).filter
      (fun r => (refilled D subjectOf limit w).group.deliveredFrontier < D.sortKey r) = [] := by
    refine filter_eq_nil_iff.2 fun r mem => ?_
    simpa using (inv.pulled mem).2
  rw [rest, ← split, batch, filter_append, gone, nil_append, length_append]
  have := length_filter_le (fun r =>
    (refilled D subjectOf limit w).group.deliveredFrontier < D.sortKey r)
    ((unpulled D w).drop limit)
  omega

theorem GroupInv.backlog_refilled (limit : Nat) : backlog D (refilled D subjectOf limit w) +
      (readAfterLimited D w.log w.group.feed.cursor limit).length ≤ backlog D w := by
  have := inv.unpulled_refilled limit
  rw [backlog, backlog, refilled_pending, refilled_inflight, length_append, length_map]
  omega

end

theorem Assigned.remaining {d} (h : Assigned D filter member now g (some d) g') :
    (∃ f, (d.sortKey, f) ∈ g'.inflight.entries) ∧
      g'.pending.length + (g'.inflight.erase d.sortKey).entries.length <
        g.pending.length + g.inflight.entries.length := by
  cases h with
  | again flying _ _ =>
    exact ⟨⟨_, OrderedMap.mem_adjust_self flying⟩,
      Nat.add_lt_add_left (OrderedMap.length_erase_adjust_lt flying) _⟩
  | @fresh _ pos _ at_pos _ =>
    refine ⟨⟨_, OrderedMap.mem_insert_self ..⟩, ?_⟩
    obtain ⟨lt, -⟩ := List.getElem?_eq_some_iff.1 at_pos
    have shorter : (g.pending.eraseIdx pos).length < g.pending.length := by
      rw [length_eraseIdx_of_lt lt]
      omega
    exact Nat.add_lt_add_of_lt_of_le shorter (OrderedMap.length_erase_insert_le ..)

theorem GroupInv.serve_progress (inv : GroupInv D subjectOf c w) (mem : r ∈ w.log)
    (above : c < D.sortKey r) (hit : filter.matches (subjectOf r) = true) :
    Delivered (serve D subjectOf filter member now limit w).trace r ∨
      backlog D (serve D subjectOf filter member now limit w) < backlog D w := by
  obtain ⟨delivery, g, h, eq⟩ := serve_cases inv
  have pull := inv.backlog_refilled (limit + 1)
  rw [eq]
  cases delivery with
  | some d =>
    right
    obtain ⟨⟨f, flies⟩, fewer⟩ := h.remaining
    have front := h.frontier
    rw [Option.map_some, Option.getD_some]
    simp only [GroupWorld.step, SubjectConsumerGroup.ack, OrderedMap.find?_eq_some.2 flies,
      Option.isSome_some]
    simp only [backlog, unpulled, front] at pull ⊢
    have : (refilled D subjectOf (limit + 1) w).log = w.log := rfl
    rw [this] at pull
    omega
  | none =>
    cases h with
    | nothing miss _ =>
      by_cases pulled : D.sortKey r ≤ w.group.deliveredFrontier
      · left
        rcases inv.covered r mem above pulled with ⟨entry, pending, eq⟩ | ⟨f, flying, eq⟩ | acked
        case inr.inl => exact eq ▸ (inv.inflight _ f flying).delivered
        case inr.inr =>
          obtain ⟨rest, suffix, d, filter, t, given, eq⟩ := acked
          exact ⟨d, filter, t, suffix.mem (.tail _ given), eq⟩
        have kept : entry ∈ (refilled D subjectOf (limit + 1) w).group.pending := by
          rw [refilled_pending]
          exact mem_append_left _ pending
        have := miss entry kept
        rw [(inv.pending entry pending).subject, eq, hit] at this
        cases this
      · right
        -- something is left to pull, so the poll pulled something
        have some : 0 < (readAfterLimited D w.log w.group.feed.cursor (limit + 1)).length := by
          have : r ∈ w.log.filter fun r => w.group.feed.cursor < D.sortKey r := by
            simpa [mem, inv.cursor] using pulled
          have := length_pos_of_mem this
          rw [readAfterLimited, length_take]
          omega
        have : backlog D (refilled D subjectOf (limit + 1) w) < backlog D w := by omega
        exact this

theorem GroupStep.trace_suffix (h : GroupStep D subjectOf w w') : w.trace <:+ w'.trace := by
  cases h with
  | same | append => exact suffix_rfl
  | @poll _ _ _ _ delivery _ _ =>
    cases delivery with
    | none => exact suffix_rfl
    | some d => exact suffix_cons _ _
  | ack | expire => exact suffix_cons _ _

theorem GroupStep.log_subset (h : GroupStep D subjectOf w w') : w.log ⊆ w'.log := by
  cases h with
  | append => exact subset_append_left _ _
  | same | poll | ack | expire => exact List.Subset.refl _

section

variable (inv : GroupInv D subjectOf c w)

include inv

theorem GroupInv.run_log (ops : List (GroupOp R)) : w.log ⊆ (w.run D subjectOf ops).log := by
  induction ops generalizing w with
  | nil => exact List.Subset.refl _
  | cons op ops ih =>
    have step := inv.step_cases op
    exact List.Subset.trans step.log_subset (ih (inv.step step))

theorem GroupInv.serve : GroupInv D subjectOf c (serve D subjectOf filter member now limit w) ∧
      w.log ⊆ (serve D subjectOf filter member now limit w).log ∧
      w.trace <:+ (serve D subjectOf filter member now limit w).trace := by
  have step := inv.step_cases (.pollAssign filter member now limit)
  have polled := inv.step step
  simp only [Group.serve]
  split
  · rename_i d _
    have step' := polled.step_cases (.ack d.sortKey)
    exact ⟨polled.step step', List.Subset.trans step.log_subset step'.log_subset,
      step.trace_suffix.trans step'.trace_suffix⟩
  · exact ⟨polled, step.log_subset, step.trace_suffix⟩

theorem GroupInv.serve_iterate (h : Delivered w.trace r) (n : Nat) :
    Delivered ((Group.serve D subjectOf filter member now limit)^[n] w).trace r := by
  induction n generalizing w with
  | zero => exact h
  | succ n ih =>
    obtain ⟨inv', -, grows⟩ := inv.serve
    exact ih inv' (h.mono grows)

theorem GroupInv.serve_delivers (mem : r ∈ w.log)
    (above : c < D.sortKey r) (hit : filter.matches (subjectOf r) = true) {n}
    (enough : backlog D w < n) :
    Delivered ((Group.serve D subjectOf filter member now limit)^[n] w).trace r := by
  induction n generalizing w with
  | zero => exact absurd enough (Nat.not_lt_zero _)
  | succ n ih =>
    obtain ⟨inv', keeps, -⟩ := inv.serve
    rcases inv.serve_progress mem above hit with delivered | fewer
    · exact inv'.serve_iterate delivered n
    · exact ih inv' (keeps mem) (by omega)

end

end Serve

end Ehdb.Proof.Group
