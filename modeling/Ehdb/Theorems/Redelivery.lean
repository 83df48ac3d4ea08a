import Ehdb.Proof.Feed.Group

/-! `earliest_deadline` lets a poll skip the search for expired records. A group with the bound
answers every call as one that searches on every poll. -/

namespace Ehdb.Theorems

open Feed ProofKit Proof.Group
open L0 (Dataset ChangeFeed)
open ShardConsumerGroup (assign findExpired pollAssign scanExpired)

variable {R Φ : Type} (D : Dataset R) (subjectOf : R → Subject)

/-- A group without the bound. -/
structure ScanningGroup (R : Type) where
  ackWaitTicks : Nat
  feed : ChangeFeed
  pending : List (Subject × R)
  inflight : OrderedMap Nat (SubjectInFlight R)

namespace ScanningGroup

def assign (hit : Subject → Bool) (member now : Nat) (s : ScanningGroup R) :
    Option (Delivery R) × ScanningGroup R :=
  let deadline := saturatingAdd now s.ackWaitTicks
  match firstDue hit now s.inflight.entries with
  | some (sk, f) =>
    (some ⟨f.record, sk, member, true⟩, { s with inflight := s.inflight.adjust sk fun f =>
      { f with member := member, deadline := deadline, redelivered := true } })
  | none =>
    let pos := s.pending.findIdx fun entry => hit entry.1
    match s.pending[pos]? with
    | some (subject, record) =>
      (some ⟨record, D.sortKey record, member, false⟩, { s with
        pending := s.pending.eraseIdx pos
        inflight := s.inflight.insert (D.sortKey record)
          ⟨record, subject, member, deadline, false⟩ })
    | none => (none, s)

def pollAssign (hit : Subject → Bool) (read : Nat → Result (List R)) (member now : Nat)
    (s : ScanningGroup R) : Result (Option (Delivery R)) × ScanningGroup R :=
  match read s.feed.cursor with
  | .error e => (.error e, s)
  | .ok batch =>
    let pulled := { s with
      feed := s.feed.after D batch
      pending := s.pending ++ batch.map fun r => (subjectOf r, r) }
    let (delivery, s) := pulled.assign D hit member now
    (.ok delivery, s)

def ack (sortKey : Nat) (s : ScanningGroup R) : Bool × ScanningGroup R :=
  ((s.inflight.find? sortKey).isSome, { s with inflight := s.inflight.erase sortKey })

def expireNow (sortKey : Nat) (s : ScanningGroup R) : Bool × ScanningGroup R :=
  match s.inflight.find? sortKey with
  | some _ => (true, { s with inflight := s.inflight.adjust sortKey fun f =>
      { f with deadline := 0 } })
  | none => (false, s)

end ScanningGroup

/-- A call on a group whose members ask with a `Φ`. What the engine answers to the poll of the
feed is up to the call, so that anything may have been appended before it. -/
inductive GroupCall (Φ R : Type) where
  | pollAssign (read : Nat → Result (List R)) (filter : Φ) (member now : Nat)
  | ack (sortKey : Nat)
  | expireNow (sortKey : Nat)

abbrev GroupAnswer (R : Type) := Result (Option (Delivery R)) ⊕ Bool

def answers {G : Type} (serve : GroupCall Φ R → G → GroupAnswer R × G) :
    List (GroupCall Φ R) → G → List (GroupAnswer R)
  | [], _ => []
  | call :: rest, g => (serve call g).1 :: answers serve rest (serve call g).2

def serve {G : Type} (poll : (Nat → Result (List R)) → Φ → Nat → Nat → G →
      Result (Option (Delivery R)) × G) (ack expireNow : Nat → G → Bool × G) :
    GroupCall Φ R → G → GroupAnswer R × G
  | .pollAssign read filter member now, g => (poll read filter member now g).map .inl id
  | .ack sortKey, g => (ack sortKey g).map .inr id
  | .expireNow sortKey, g => (expireNow sortKey g).map .inr id

def scanningAnswers (hit : Φ → Subject → Bool) (calls : List (GroupCall Φ R)) :
    ScanningGroup R → List (GroupAnswer R) :=
  answers (serve (fun read filter => ScanningGroup.pollAssign D subjectOf (hit filter) read)
    ScanningGroup.ack ScanningGroup.expireNow) calls

def groupAnswers (poll : (Nat → Result (List R)) → Φ → Nat → Nat → SubjectConsumerGroup R →
      Result (Option (Delivery R)) × SubjectConsumerGroup R) (calls : List (GroupCall Φ R)) :
    SubjectConsumerGroup R → List (GroupAnswer R) :=
  answers (serve poll SubjectConsumerGroup.ack SubjectConsumerGroup.expireNow) calls

def unbounded (g : SubjectConsumerGroup R) : ScanningGroup R :=
  ⟨g.ackWaitTicks, g.feed, g.pending, g.inflight⟩

def Alike {A : Type} (x : A × SubjectConsumerGroup R) (y : A × ScanningGroup R) : Prop :=
  x.map id unbounded = y ∧ Timed x.2

variable {D subjectOf} {g : SubjectConsumerGroup R} {member now : Nat}

theorem assignment_unbounded (hit : Subject → Bool) (e : Nat) (g : SubjectConsumerGroup R)
    (member now : Nat) : (assignment D hit member now g e).map id unbounded =
      (unbounded g).assign D hit member now := by
  unfold assignment ScanningGroup.assign
  simp only [unbounded]
  cases firstDue hit now g.inflight.entries with
  | some entry => rfl
  | none =>
    generalize g.pending.findIdx _ = pos
    cases g.pending[pos]? <;> rfl

theorem answers_alike {hit}
    (assign : Φ → Nat → Nat → SubjectConsumerGroup R → Option (Delivery R) × SubjectConsumerGroup R)
    (assigns : ∀ filter member now g, Timed g → ∃ e, Timed { g with earliestDeadline := e } ∧
      assign filter member now g = assignment D (hit filter) member now g e)
    (calls : List (GroupCall Φ R)) (timed : Timed g) : groupAnswers (fun read filter member now g =>
        match read g.feed.cursor with
        | .error e => (.error e, g)
        | .ok batch =>
          let (d, g) := assign filter member now (g.refill D subjectOf batch)
          (.ok d, g)) calls g = scanningAnswers D subjectOf hit calls (unbounded g) := by
  induction calls generalizing g with
  | nil => rfl
  | cons call rest ih =>
    -- what the call answers, and what it leaves for the rest
    suffices alike : Alike (serve _ _ _ call g) (serve _ _ _ call (unbounded g)) by
      exact congrArg₂ _ (congrArg Prod.fst alike.1) ((ih alike.2).trans
        (congrArg (scanningAnswers D subjectOf hit rest) (congrArg Prod.snd alike.1)))
    cases call with
    | pollAssign read filter member now =>
      simp only [serve, ScanningGroup.pollAssign, unbounded]
      cases read g.feed.cursor with
      | error e => exact ⟨rfl, timed⟩
      | ok batch =>
        obtain ⟨e, timed', eq⟩ := assigns filter member now (g.refill D subjectOf batch)
          (refill_eq (g := g) batch ▸ timed)
        simp only [eq]
        refine ⟨?_, assignment_timed timed'⟩
        have same := assignment_unbounded (D := D) (hit filter) e (g.refill D subjectOf batch)
        rw [refill_eq] at same ⊢
        exact congrArg (Prod.map (Sum.inl ∘ Except.ok) id) (same member now)
    | ack sortKey => exact ⟨rfl, timed.ack sortKey⟩
    | expireNow sortKey =>
      simp only [serve, SubjectConsumerGroup.expireNow, ScanningGroup.expireNow, unbounded]
      cases g.inflight.find? sortKey with
      | some f => exact ⟨rfl, timed.expire sortKey⟩
      | none => exact ⟨rfl, timed⟩

theorem shard_scan_spec (now : Nat) (entries : List (Nat × SubjectInFlight R)) (md : Nat) :
    ∃ md', scanExpired now entries md = ((firstDue (fun _ => true) now entries).map Prod.fst, md') ∧
      (firstDue (fun _ => true) now entries = none →
        md' ≤ md ∧ ∀ entry ∈ entries, md' ≤ entry.2.deadline) := by
  induction entries generalizing md with
  | nil => exact ⟨md, rfl, fun _ => ⟨le_rfl, nofun⟩⟩
  | cons entry rest ih =>
    obtain ⟨k, f⟩ := entry
    unfold scanExpired firstDue
    by_cases due : f.deadline ≤ now
    · exact ⟨md, by simp [due], by simp [due]⟩
    · obtain ⟨md', eq, low⟩ := ih (min md f.deadline)
      refine ⟨md', by simpa [due, firstDue] using eq, fun none => ?_⟩
      obtain ⟨le, rest⟩ := low (by simpa [due, firstDue] using none)
      refine ⟨le.trans (min_le_left _ _), ?_⟩
      exact List.forall_mem_cons.2 ⟨le.trans (min_le_right _ _), rest⟩

theorem shard_findExpired_spec (now : Nat) (timed : Timed g) :
    ∃ e, Timed { g with earliestDeadline := e } ∧ findExpired now g =
      ((firstDue (fun _ => true) now g.inflight.entries).map Prod.fst,
        { g with earliestDeadline := e }) := by
  unfold findExpired
  split
  · rename_i early
    exact ⟨g.earliestDeadline, timed, by rw [firstDue_early timed early]; rfl⟩
  · obtain ⟨md, eq, low⟩ := shard_scan_spec now g.inflight.entries u64Max
    rw [eq]
    cases due : firstDue (fun _ => true) now g.inflight.entries with
    | none => exact ⟨md, fun e mem => ⟨(low due).2 e mem, (timed e mem).2⟩, rfl⟩
    | some entry => exact ⟨g.earliestDeadline, timed, rfl⟩

theorem shard_assign_eq (timed : Timed g) : ∃ e, Timed { g with earliestDeadline := e } ∧
    assign D member now g = assignment D (fun _ => true) member now g e := by
  obtain ⟨e, timed', eq⟩ := shard_findExpired_spec now timed
  refine ⟨e, timed', ?_⟩
  have first : g.pending.findIdx (fun _ => true) = 0 := by cases g.pending <;> rfl
  unfold assign assignment
  rw [eq, first]
  dsimp only
  rewrite [find?_firstDue]
  rfl

variable (D subjectOf)

/-- Every answer of a group is that of a group that has no bound and searches on every poll. -/
theorem bound_changes_no_answer (shard ackWaitTicks fromCursor : Nat) :
    let group : SubjectConsumerGroup R := .new shard ackWaitTicks fromCursor
    let scanning : ScanningGroup R := ⟨ackWaitTicks, ⟨shard, fromCursor⟩, [], .empty⟩
    (∀ calls, groupAnswers (fun read (_ : Unit) => pollAssign D read) calls
        group = scanningAnswers D (fun _ => ⟨[]⟩) (fun _ _ => true) calls scanning) ∧
    ∀ calls, groupAnswers (SubjectConsumerGroup.pollAssign D subjectOf) calls group =
      scanningAnswers D subjectOf SubjectFilter.matches calls scanning := by
  intro group scanning
  have timed : Timed group := nofun
  refine ⟨fun calls => ?_, fun calls => ?_⟩
  · exact answers_alike (fun _ => assign D) (fun _ _ _ _ => shard_assign_eq)
      calls timed
  · exact answers_alike (SubjectConsumerGroup.assign D) (fun filter _ _ _ => assign_eq filter)
      calls timed

end Ehdb.Theorems
