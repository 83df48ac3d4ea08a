import Ehdb.Feed.Group

/-! Specifications of the parts of `poll_assign`, and of the committed cursor by the keys that are
open, that is, pending or in flight. -/

namespace Ehdb.Proof.Group

open Feed ProofKit SubjectConsumerGroup List
open L0 (Dataset ChangeFeed)

variable {R : Type} {D : Dataset R} {subjectOf : R → Subject} {g : SubjectConsumerGroup R}

theorem foldl_pull (batch : List R) (g : SubjectConsumerGroup R) :
    batch.foldl (pull D subjectOf) g = { g with
        deliveredFrontier := (batch.map D.sortKey).foldl max g.deliveredFrontier
        pending := g.pending ++ batch.map fun r => (subjectOf r, r) } := by
  induction batch generalizing g with
  | nil => simp
  | cons r rest ih => simp [ih, pull]

theorem refill_eq (batch : List R) : g.refill D subjectOf batch = { g with
        feed := g.feed.after D batch
        deliveredFrontier := (batch.map D.sortKey).foldl max g.deliveredFrontier
        pending := g.pending ++ batch.map fun r => (subjectOf r, r) } := foldl_pull batch _

/-- The bound is below the deadlines in flight, which are `u64`. -/
def Timed (g : SubjectConsumerGroup R) : Prop :=
  ∀ entry ∈ g.inflight.entries, g.earliestDeadline ≤ entry.2.deadline ∧ entry.2.deadline ≤ u64Max

/-- The first record in flight that is due and has a subject that `hit` selects. -/
def firstDue (hit : Subject → Bool) (now : Nat) (entries : List (Nat × SubjectInFlight R)) :
    Option (Nat × SubjectInFlight R) := entries.find? fun e => e.2.deadline ≤ now && hit e.2.subject

variable {filter : SubjectFilter} {hit : Subject → Bool} {now member : Nat}

theorem scanExpired_spec (filter : SubjectFilter) (now : Nat)
    (entries : List (Nat × SubjectInFlight R)) (md : Nat) (any : Bool) :
    ∃ md' any', scanExpired filter now entries md any =
        ((firstDue filter.matches now entries).map Prod.fst, md', any') ∧
      (any' = false → any = false ∧ md' ≤ md ∧ ∀ entry ∈ entries, md' ≤ entry.2.deadline) := by
  induction entries generalizing md any with
  | nil => exact ⟨md, any, rfl, fun none => ⟨none, le_rfl, nofun⟩⟩
  | cons entry rest ih =>
    obtain ⟨k, f⟩ := entry
    unfold scanExpired firstDue
    by_cases due : f.deadline ≤ now
    · by_cases hit : filter.matches f.subject = true
      · exact ⟨md, true, by simp [due, hit], nofun⟩
      · obtain ⟨md', any', eq, low⟩ := ih md true
        exact ⟨md', any', by simpa [due, hit, firstDue] using eq, fun none => nomatch (low none).1⟩
    · obtain ⟨md', any', eq, low⟩ := ih (min md f.deadline) any
      refine ⟨md', any', by simpa [due, firstDue] using eq, fun none => ?_⟩
      obtain ⟨none, le, rest⟩ := low none
      refine ⟨none, le.trans (min_le_left _ _), ?_⟩
      exact forall_mem_cons.2 ⟨le.trans (min_le_right _ _), rest⟩

theorem firstDue_early (timed : Timed g) (early : g.earliestDeadline > now) :
    firstDue hit now g.inflight.entries = none := by
  refine find?_eq_none.2 fun entry mem => ?_
  simp [early.trans_le (timed entry mem).1]

/-- What a poll does after the refill, with `e` for the refreshed bound. -/
def assignment (D : Dataset R) (hit : Subject → Bool) (member now : Nat)
    (g : SubjectConsumerGroup R) (e : Nat) : Option (Delivery R) × SubjectConsumerGroup R :=
  let g' : SubjectConsumerGroup R := { g with earliestDeadline := e }
  match firstDue hit now g.inflight.entries with
  | some (sk, f) => (some ⟨f.record, sk, member, true⟩, g'.redeliver sk member now)
  | none =>
    let pos := g.pending.findIdx fun entry => hit entry.1
    match g.pending[pos]? with
    | some entry =>
      (some ⟨entry.2, D.sortKey entry.2, member, false⟩, g'.assignFresh D pos entry member now)
    | none => (none, g')

theorem find?_firstDue : ((firstDue hit now g.inflight.entries).map Prod.fst).bind (fun sk =>
      (g.inflight.find? sk).map fun f => (sk, f)) = firstDue hit now g.inflight.entries := by
  cases due : firstDue hit now g.inflight.entries with
  | none => rfl
  | some entry =>
    have found : g.inflight.find? entry.1 = some entry.2 :=
      OrderedMap.find?_eq_some.2 (mem_of_find?_eq_some due)
    simp [found]

theorem assign_eq (filter : SubjectFilter) (timed : Timed g) :
    ∃ e, Timed { g with earliestDeadline := e } ∧
      g.assign D filter member now = assignment D filter.matches member now g e := by
  obtain ⟨e, timed', eq⟩ : ∃ e, Timed { g with earliestDeadline := e } ∧ findExpired filter now g =
      ((firstDue filter.matches now g.inflight.entries).map Prod.fst,
        { g with earliestDeadline := e }) := by
    unfold findExpired
    split
    · rename_i early
      exact ⟨g.earliestDeadline, timed, by rw [firstDue_early timed early]; rfl⟩
    · obtain ⟨md, any, eq, low⟩ := scanExpired_spec filter now g.inflight.entries u64Max false
      rw [eq]
      cases any with
      | true => exact ⟨g.earliestDeadline, timed, rfl⟩
      | false => exact ⟨md, fun e mem => ⟨(low rfl).2.2 e mem, (timed e mem).2⟩, rfl⟩
  refine ⟨e, timed', ?_⟩
  unfold assign
  rw [eq]
  dsimp only
  rw [find?_firstDue]
  rfl

/-- The three ways `poll_assign` ends after the refill. The lower bound on the deadlines may have
been refreshed. -/
inductive Assigned (D : Dataset R) (filter : SubjectFilter) (member now : Nat)
    (g : SubjectConsumerGroup R) : Option (Delivery R) → SubjectConsumerGroup R → Prop
  | again {e sk} {f : SubjectInFlight R}
      (inflight : (sk, f) ∈ g.inflight.entries) (due : f.deadline ≤ now)
      (hit : filter.matches f.subject = true) :
      Assigned D filter member now g (some ⟨f.record, sk, member, true⟩)
        (({ g with earliestDeadline := e } : SubjectConsumerGroup R).redeliver sk member now)
  | fresh {e pos} {entry : Subject × R}
      (pending : g.pending[pos]? = some entry) (hit : filter.matches entry.1 = true) :
      Assigned D filter member now g (some ⟨entry.2, D.sortKey entry.2, member, false⟩)
        (({ g with earliestDeadline := e } : SubjectConsumerGroup R).assignFresh D pos entry
          member now)
  | nothing {e}
      (miss : ∀ entry ∈ g.pending, filter.matches entry.1 = false)
      (early : ∀ entry ∈ g.inflight.entries, entry.2.deadline ≤ now →
        filter.matches entry.2.subject = false) :
      Assigned D filter member now g none { g with earliestDeadline := e }

theorem assign_spec (timed : Timed g) : Assigned D filter member now g
    (g.assign D filter member now).1 (g.assign D filter member now).2 := by
  obtain ⟨e, -, eq⟩ := assign_eq (D := D) filter timed
  rw [eq]
  unfold assignment
  cases due : firstDue filter.matches now g.inflight.entries with
  | some entry =>
    have hit := find?_some due
    simp only [Bool.and_eq_true, decide_eq_true_eq] at hit
    exact .again (mem_of_find?_eq_some due) hit.1 hit.2
  | none =>
    dsimp only
    split
    · rename_i entry pending
      refine .fresh pending ?_
      have found := findIdx_getElem (w := (List.getElem?_eq_some_iff.1 pending).1)
      rw [(List.getElem?_eq_some_iff.1 pending).2] at found
      exact found
    · rename_i absent
      refine .nothing ?_ fun entry mem past => by simpa [past] using find?_eq_none.1 due entry mem
      exact findIdx_eq_length.1 (le_antisymm findIdx_le_length
        (getElem?_eq_none_iff.1 absent))

theorem assignment_timed {e} (timed : Timed { g with earliestDeadline := e }) :
    Timed (assignment D hit member now g e).2 := by
  unfold assignment
  cases due : firstDue hit now g.inflight.entries with
  | some entry =>
    have past : entry.2.deadline ≤ now := by
      have hit := find?_some due
      simp only [Bool.and_eq_true, decide_eq_true_eq] at hit
      exact hit.1
    rintro ⟨k, f⟩ adjusted
    rcases OrderedMap.mem_adjust.1 adjusted with ⟨-, old⟩ | ⟨rfl, f', old, rfl⟩
    · exact timed _ old
    · cases OrderedMap.unique old (mem_of_find?_eq_some due)
      obtain ⟨low, small⟩ := timed _ old
      exact ⟨low.trans (le_min (past.trans (Nat.le_add_right ..)) small), min_le_right _ _⟩
  | none =>
    dsimp only
    split
    · rintro ⟨k, f⟩ inserted
      rcases OrderedMap.mem_insert.1 inserted with ⟨-, rfl⟩ | ⟨-, old⟩
      · exact ⟨min_le_right _ _, min_le_right _ _⟩
      · exact (timed _ old).imp_left (min_le_left _ _).trans
    · exact timed

theorem assign_timed (timed : Timed g) : Timed (g.assign D filter member now).2 := by
  obtain ⟨e, timed', eq⟩ := assign_eq (D := D) filter timed
  exact eq ▸ assignment_timed timed'

theorem Timed.ack (timed : Timed g) (k : Nat) : Timed (g.ack k).2 :=
  fun entry kept => timed entry (OrderedMap.mem_erase.1 kept).2

theorem Timed.expire (timed : Timed g) (k : Nat) : Timed { g with
      inflight := g.inflight.adjust k fun f => { f with deadline := 0 }
      earliestDeadline := 0 } := by
  rintro ⟨k', f⟩ adjusted
  rcases OrderedMap.mem_adjust.1 adjusted with ⟨-, old⟩ | ⟨-, f', -, rfl⟩
  · exact ⟨Nat.zero_le _, (timed _ old).2⟩
  · exact ⟨le_rfl, Nat.zero_le _⟩

def Open (D : Dataset R) (g : SubjectConsumerGroup R) (k : Nat) : Prop :=
  (∃ f, (k, f) ∈ g.inflight.entries) ∨ ∃ entry ∈ g.pending, D.sortKey entry.2 = k

def PendingAscends (D : Dataset R) (g : SubjectConsumerGroup R) : Prop :=
  g.pending.Pairwise fun a b => D.sortKey a.2 < D.sortKey b.2

theorem lowestOpen_none (h : g.lowestOpen D = none) : ∀ k, ¬Open D g k := by
  unfold lowestOpen at h
  split at h
  · cases h
  · cases h
  · cases h
  · rename_i flight pend
    rintro k (⟨f, mem⟩ | ⟨entry, mem, -⟩)
    · simp only [Option.map_eq_none_iff, head?_eq_none_iff] at flight
      simp [flight] at mem
    · simp only [Option.map_eq_none_iff, head?_eq_none_iff] at pend
      simp [pend] at mem

section

variable (ascends : PendingAscends D g)

include ascends

theorem lowestOpen_some {m}
    (h : g.lowestOpen D = some m) : Open D g m ∧ ∀ k, Open D g k → m ≤ k := by
  have flight_le {a : Nat} (head : g.inflight.entries.head?.map Prod.fst = some a) :
      Open D g a ∧ ∀ k f, (k, f) ∈ g.inflight.entries → a ≤ k := by
    rw [Option.map_eq_some_iff] at head
    obtain ⟨⟨_, f⟩, head, rfl⟩ := head
    obtain ⟨rest, entries⟩ := head?_eq_some_iff.1 head
    exact ⟨.inl ⟨f, entries ▸ mem_cons_self ..⟩, fun k f' mem => OrderedMap.head_le entries mem⟩
  have pend_le {b : Nat} (head : (g.pending.head?.map fun e => D.sortKey e.2) = some b) :
      Open D g b ∧ ∀ entry ∈ g.pending, b ≤ D.sortKey entry.2 := by
    rw [Option.map_eq_some_iff] at head
    obtain ⟨entry, head, rfl⟩ := head
    obtain ⟨rest, pending⟩ := head?_eq_some_iff.1 head
    refine ⟨.inr ⟨entry, pending ▸ mem_cons_self .., rfl⟩, fun other mem => ?_⟩
    rw [PendingAscends, pending] at ascends
    rw [pending] at mem
    rcases mem_cons.1 mem with rfl | mem
    · exact le_rfl
    · exact ((pairwise_cons.1 ascends).1 other mem).le
  unfold lowestOpen at h
  split at h
  · rename_i a b flight pend
    cases h
    obtain ⟨openA, leA⟩ := flight_le flight
    obtain ⟨openB, leB⟩ := pend_le pend
    refine ⟨?_, ?_⟩
    · rcases le_total a b with le | le
      · rwa [min_eq_left le]
      · rwa [min_eq_right le]
    · rintro k (⟨f, mem⟩ | ⟨entry, mem, rfl⟩)
      · exact (min_le_left a b).trans (leA k f mem)
      · exact (min_le_right a b).trans (leB entry mem)
  · rename_i a flight pend
    cases h
    obtain ⟨openA, leA⟩ := flight_le flight
    refine ⟨openA, ?_⟩
    rintro k (⟨f, mem⟩ | ⟨entry, mem, -⟩)
    · exact leA k f mem
    · simp only [Option.map_eq_none_iff, head?_eq_none_iff] at pend
      simp [pend] at mem
  · rename_i b flight pend
    cases h
    obtain ⟨openB, leB⟩ := pend_le pend
    refine ⟨openB, ?_⟩
    rintro k (⟨f, mem⟩ | ⟨entry, mem, rfl⟩)
    · simp only [Option.map_eq_none_iff, head?_eq_none_iff] at flight
      simp [flight] at mem
    · exact leB entry mem
  · cases h

theorem committedCursor_lt {k} (positive : 0 < k)
    (isOpen : Open D g k) : g.committedCursor D < k := by
  unfold committedCursor
  cases lowest : g.lowestOpen D with
  | none => exact absurd isOpen (lowestOpen_none lowest k)
  | some m =>
    have := (lowestOpen_some ascends lowest).2 k isOpen
    dsimp only
    omega

theorem committedCursor_le
    (below : ∀ k, Open D g k → k ≤ g.deliveredFrontier) :
    g.committedCursor D ≤ g.deliveredFrontier := by
  unfold committedCursor
  cases lowest : g.lowestOpen D with
  | none => exact le_rfl
  | some m =>
    have := below m (lowestOpen_some ascends lowest).1
    dsimp only
    omega

theorem committedCursor_mono {g'}
    (ascends' : PendingAscends D g') (below : ∀ k, Open D g k → k ≤ g.deliveredFrontier)
    (frontier : g.deliveredFrontier ≤ g'.deliveredFrontier)
    (opens : ∀ k, Open D g' k → Open D g k ∨ g.deliveredFrontier < k) :
    g.committedCursor D ≤ g'.committedCursor D := by
  have bound := committedCursor_le ascends below
  cases lowest' : g'.lowestOpen D with
  | none =>
    have : g'.committedCursor D = g'.deliveredFrontier := by simp [committedCursor, lowest']
    omega
  | some m' =>
    have eq : g'.committedCursor D = m' - 1 := by simp [committedCursor, lowest']
    rcases opens m' (lowestOpen_some ascends' lowest').1 with old | new
    · cases lowest : g.lowestOpen D with
      | none => exact absurd old (lowestOpen_none lowest m')
      | some m =>
        have : g.committedCursor D = m - 1 := by simp [committedCursor, lowest]
        have := (lowestOpen_some ascends lowest).2 m' old
        omega
    · omega

end

end Ehdb.Proof.Group
