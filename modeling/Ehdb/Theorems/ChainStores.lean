import Ehdb.Proof.Chain

/-! A partition in memory and the keys of an execution hold the same events as long as no replicated
event conflicts with one that is there. -/

namespace Ehdb.Theorems

open L0 ProofKit Proof.Chain List
open ChainEvent (eventId execSeq)
open DurableChainStore (append on)
open ChainAnswer (plain)

section Execution

variable {S S' : List ChainEvent} {p : ExecutionPartition} {d : ExecutionKeys} {e : ChainEvent}

structure Holds (S : List ChainEvent) (p : ExecutionPartition) : Prop where
  bySeq : ∀ n e, p.bySeq.find? n = some e ↔ e ∈ S ∧ e.execSeq = n
  byEvent : ∀ id n, p.byEvent.find? id = some n ↔ ∃ e ∈ S, e.eventId = id ∧ e.execSeq = n
  head : p.head = S.getLast?.map eventId

theorem Holds.entries (h : Holds S p) (ascending : Ascending execSeq S) :
    p.bySeq.entries = S.map fun e => (e.execSeq, e) := by
  have sorted : Ascending Prod.fst (S.map fun e => (e.execSeq, e)) := pairwise_map.2 ascending
  refine Ascending.eq_of_mem_iff p.bySeq.ordered sorted fun x => ?_
  obtain ⟨n, e⟩ := x
  rw [← OrderedMap.find?_eq_some, h.bySeq, mem_map]
  constructor
  · rintro ⟨mem, rfl⟩
    exact ⟨e, mem, rfl⟩
  · rintro ⟨e', mem, ⟨⟩⟩
    exact ⟨mem, rfl⟩

def Same (p : ExecutionPartition) (d : ExecutionKeys) : Prop := ∃ S, Holds S p ∧ Stored S d

theorem same_empty : Same {} {} :=
  ⟨[], ⟨fun _ _ => ⟨nofun, nofun⟩, fun _ _ => ⟨nofun, nofun⟩, rfl⟩, stored_nil⟩

theorem Same.chain (h : Same p d) : p.chain = d.chain := by
  obtain ⟨S, holds, stored⟩ := h
  rw [stored.chain, ExecutionPartition.chain, holds.entries stored.ascending, map_map]
  exact map_id' S

theorem Same.head (h : Same p d) : p.head = d.head.map Prod.snd := by
  obtain ⟨S, holds, stored⟩ := h
  rw [holds.head, stored.head, Option.map_map]
  rfl

theorem Same.span (h : Same p d) : p.span = d.headSeq ∧ p.span = d.span := by
  obtain ⟨S, holds, stored⟩ := h
  rw [ExecutionPartition.span, ExecutionKeys.headSeq, ExecutionKeys.span, stored.chain, stored.head,
    holds.entries stored.ascending, getLast?_map]
  cases S.getLast? <;> exact ⟨rfl, rfl⟩

theorem Same.get (h : Same p d) (id : String) : p.get id = d.ev.find? id := by
  obtain ⟨S, holds, stored⟩ := h
  refine Option.ext fun e => ?_
  rw [ExecutionPartition.get, Option.bind_eq_some_iff, stored.ev]
  constructor
  · rintro ⟨n, found, is⟩
    obtain ⟨mem, rfl⟩ := (holds.bySeq n e).1 is
    obtain ⟨x, stored', rfl, same⟩ := (holds.byEvent id _).1 found
    have equal := (holds.bySeq _ x).2 ⟨stored', same⟩
    rw [is] at equal
    cases equal
    exact ⟨mem, rfl⟩
  · rintro ⟨mem, rfl⟩
    exact ⟨e.execSeq, (holds.byEvent _ _).2 ⟨e, mem, rfl, rfl⟩, (holds.bySeq _ _).2 ⟨mem, rfl⟩⟩

theorem Holds.add (h : Holds S p) (newId : ∀ x ∈ S, x.eventId ≠ e.eventId)
    (newSeq : ∀ x ∈ S, x.execSeq ≠ e.execSeq) (members : ∀ x, x ∈ S' ↔ x = e ∨ x ∈ S)
    {head} (last : head = S'.getLast?.map eventId) :
    Holds S' ⟨p.bySeq.insert e.execSeq e, p.byEvent.insert e.eventId e.execSeq, head⟩ := by
  refine ⟨fun n x => ?_, fun id n => ?_, last⟩
  · rw [OrderedMap.find?_insert, members]
    split
    · rename_i same
      subst same
      constructor
      · rintro ⟨⟩
        exact ⟨.inl rfl, rfl⟩
      · rintro ⟨rfl | old, same⟩
        · rfl
        · exact absurd same (newSeq x old)
    · rename_i other
      rw [h.bySeq]
      constructor
      · rintro ⟨mem, rfl⟩
        exact ⟨.inr mem, rfl⟩
      · rintro ⟨rfl | old, same⟩
        · exact absurd same.symm other
        · exact ⟨old, same⟩
  · rw [OrderedMap.find?_insert]
    simp only [members]
    split
    · rename_i same
      subst same
      constructor
      · rintro ⟨⟩
        exact ⟨e, .inl rfl, rfl, rfl⟩
      · rintro ⟨x, rfl | old, same, rfl⟩
        · rfl
        · exact absurd same (newId x old)
    · rename_i other
      rw [h.byEvent]
      constructor
      · rintro ⟨x, mem, is, seq⟩
        exact ⟨x, .inr mem, is, seq⟩
      · rintro ⟨x, rfl | old, is, seq⟩
        · exact absurd is.symm other
        · exact ⟨x, old, is, seq⟩

def placed (S : List ChainEvent) (e : ChainEvent) : List ChainEvent :=
  (S.filter fun x => decide (x.execSeq < e.execSeq)) ++
    e :: S.filter fun x => decide (e.execSeq < x.execSeq)

theorem mem_placed (newSeq : ∀ x ∈ S, x.execSeq ≠ e.execSeq) (x : ChainEvent) :
    x ∈ placed S e ↔ x = e ∨ x ∈ S := by
  simp only [placed, mem_append, mem_cons, mem_filter, decide_eq_true_eq]
  constructor
  · rintro (⟨mem, -⟩ | same | ⟨mem, -⟩)
    · exact .inr mem
    · exact .inl same
    · exact .inr mem
  · rintro (same | mem)
    · exact .inr (.inl same)
    · rcases Nat.lt_or_gt_of_ne (newSeq x mem) with below | above
      · exact .inl ⟨mem, below⟩
      · exact .inr (.inr ⟨mem, above⟩)

theorem placed_ascending (h : Ascending execSeq S) : Ascending execSeq (placed S e) := by
  refine pairwise_append.2 ⟨h.filter _, pairwise_cons.2 ⟨fun x mem => ?_, h.filter _⟩,
    fun x left y right => ?_⟩
  · exact of_decide_eq_true (mem_filter.1 mem).2
  · have below : x.execSeq < e.execSeq := of_decide_eq_true (mem_filter.1 left).2
    rcases mem_cons.1 right with rfl | mem
    · exact below
    · exact below.trans (of_decide_eq_true (mem_filter.1 mem).2)

def isNewest (p : ExecutionPartition) (e : ChainEvent) : Bool :=
  p.bySeq.entries.getLast?.all fun top => decide (e.execSeq > top.1)

theorem isNewest_iff (holds : Holds S p) (ascending : Ascending execSeq S) :
    isNewest p e = true ↔ ∀ x ∈ S, x.execSeq < e.execSeq := by
  rw [isNewest, holds.entries ascending, getLast?_map, Option.all_map]
  cases last : S.getLast? with
  | none =>
    rw [getLast?_eq_none_iff.1 last]
    exact ⟨fun _ => nofun, fun _ => rfl⟩
  | some top =>
    obtain ⟨mem, most⟩ := (getLast?_ascending ascending).1 last
    rw [Option.all_some, decide_eq_true_eq]
    exact ⟨fun above x other => (most x other).trans_lt above, fun all => all top mem⟩

theorem getLast?_placed (ascending : Ascending execSeq S)
    (newSeq : ∀ x ∈ S, x.execSeq ≠ e.execSeq) : (placed S e).getLast? =
      if ∀ x ∈ S, x.execSeq < e.execSeq then some e else S.getLast? := by
  have sorted : Ascending execSeq (placed S e) := placed_ascending ascending
  split
  · rename_i newest
    refine (getLast?_ascending sorted).2 ⟨(mem_placed newSeq e).2 (.inl rfl), fun x mem => ?_⟩
    rcases (mem_placed newSeq x).1 mem with rfl | old
    · exact le_rfl
    · exact (newest x old).le
  · rename_i older
    simp only [not_forall, not_lt] at older
    obtain ⟨x, mem, below⟩ := older
    refine Option.ext fun y => ?_
    rw [getLast?_ascending sorted, getLast?_ascending ascending]
    simp only [mem_placed newSeq]
    constructor
    · rintro ⟨rfl | old, most⟩
      · exact absurd (le_antisymm (most x (.inr mem)) below) (newSeq x mem)
      · exact ⟨old, fun z other => most z (.inr other)⟩
    · rintro ⟨old, most⟩
      refine ⟨.inr old, ?_⟩
      rintro z (rfl | other)
      · exact below.trans (most x mem)
      · exact most z other

/-- A new event at an unused place. -/
theorem Same.add (h : Same p d) (positive : 0 < e.execSeq) (newId : d.ev.find? e.eventId = none)
    (newSeq : d.seq.find? e.execSeq = none) :
    Same ⟨p.bySeq.insert e.execSeq e, p.byEvent.insert e.eventId e.execSeq,
      if isNewest p e then some e.eventId else p.head⟩ (added d e) ∧
      ∀ x, x ∈ (added d e).chain ↔ x = e ∨ x ∈ d.chain := by
  obtain ⟨S, holds, stored⟩ := h
  have otherSeq := stored.seq_eq_none.1 newSeq
  have grown := stored.add newId newSeq positive (placed_ascending stored.ascending)
    (mem_placed otherSeq)
  rw [grown.chain, stored.chain]
  refine ⟨⟨placed S e, holds.add (stored.ev_eq_none.1 newId) otherSeq (mem_placed otherSeq) ?_,
    grown⟩, mem_placed otherSeq⟩
  rw [getLast?_placed stored.ascending otherSeq, holds.head]
  by_cases newest : ∀ x ∈ S, x.execSeq < e.execSeq
  · rw [if_pos newest, if_pos ((isNewest_iff holds stored.ascending).2 newest)]
    rfl
  · rw [if_neg newest, if_neg (mt (isNewest_iff holds stored.ascending).1 newest)]

variable {E : ChainEnv}

theorem Same.byEvent (h : Same p d) (id : String) :
    (p.byEvent.find? id).isSome = (d.ev.find? id).isSome := by
  obtain ⟨S, holds, stored⟩ := h
  rw [Bool.eq_iff_iff, Option.isSome_iff_exists, Option.isSome_iff_exists]
  constructor
  · rintro ⟨n, found⟩
    obtain ⟨e, mem, is, -⟩ := (holds.byEvent id n).1 found
    exact ⟨e, (stored.ev id e).2 ⟨mem, is⟩⟩
  · rintro ⟨e, found⟩
    obtain ⟨mem, is⟩ := (stored.ev id e).1 found
    exact ⟨e.execSeq, (holds.byEvent id _).2 ⟨e, mem, is, rfl⟩⟩

theorem append_same (h : Same p d) (follows : p.span + 1 < 2 ^ 64) {execution event}
    (named : E.blank execution = false ∧ E.blank event = false) (prev parent : Option String)
    (payload : String) : Goes (fun _ => True) (append E execution event prev parent payload).run
      (fun a d' => a.mapError ChainError.plain =
          (p.append execution event prev parent payload).1.mapError ChainError.plain ∧
        Same (p.append execution event prev parent payload).2 d') d := by
  have refuses : refusal E d execution event prev =
      if p.head ≠ prev then some (.notHead execution p.head prev)
      else if (p.byEvent.find? event).isSome then some (.invalid
        s!"event {event} already exists in execution {execution}: an event key is write-once")
      else none := by
    rw [refusal, named.1, named.2, h.head, h.byEvent]
    rfl
  refine append_rule trivial (fun err refused => ?_) fun e is accepted at_head newId => ?_
  · rw [refuses] at refused
    rw [ExecutionPartition.append]
    split at refused
    · rename_i elsewhere
      cases refused
      rw [if_pos elsewhere]
      exact ⟨rfl, h⟩
    · rename_i at_head
      split at refused
      · rename_i known
        cases refused
        rw [if_neg at_head, if_pos known]
        exact ⟨rfl, h⟩
      · cases refused
  · have next : e.execSeq = d.headSeq + 1 := by rw [is]
    have id : e.eventId = event := by rw [is]
    have fresh : p.append execution event prev parent payload = (.ok e.execSeq,
        ⟨p.bySeq.insert e.execSeq e, p.byEvent.insert e.eventId e.execSeq, some e.eventId⟩) := by
      rw [ExecutionPartition.append, if_neg (not_not.2 (h.head.trans at_head)),
        if_neg (by simp [h.byEvent, newId]), is]
      simp only [h.span.1, Nat.mod_eq_of_lt (h.span.1 ▸ follows)]
    have h' := h
    obtain ⟨S, holds, stored⟩ := h'
    have below : ∀ x ∈ S, x.execSeq < e.execSeq := fun x mem => by
      have := stored.le_headSeq mem
      omega
    have newest : isNewest p e = true := (isNewest_iff holds stored.ascending).2 below
    obtain ⟨grown, -⟩ := h.add (by omega) (id.symm ▸ newId)
      (stored.seq_eq_none.2 fun x mem => (below x mem).ne)
    rw [if_pos newest, added, if_pos (by omega)] at grown
    rw [fresh]
    exact ⟨trivial, trivial, trivial, rfl, grown⟩

/-- A replicated event that is there already, or of which neither the id nor the sequence is used.
-/
def Consistent (events : List ChainEvent) (e : ChainEvent) : Prop :=
  e ∈ events ∨ ∀ x ∈ events, x.eventId ≠ e.eventId ∧ x.execSeq ≠ e.execSeq

theorem applyReplicated_same (h : Same p d) (positive : 0 < e.execSeq)
    (consistent : Consistent p.chain e) :
    Goes (fun _ => True) (DurableChainStore.applyReplicated e).run
      (fun a d' => a = (p.applyReplicated e).1 ∧ Same (p.applyReplicated e).2 d' ∧
        ∀ x, x ∈ d'.chain ↔ x = e ∨ x ∈ d.chain) d := by
  refine applyReplicated_rule trivial trivial trivial ?_
  rw [ExecutionPartition.applyReplicated]
  have h' := h
  obtain ⟨S, holds, stored⟩ := h'
  rw [h.chain, stored.chain] at consistent
  rcases consistent with known | new
  · rw [(holds.byEvent _ _).2 ⟨e, known, rfl, rfl⟩]
    dsimp only
    rw [(holds.bySeq _ _).2 ⟨known, rfl⟩]
    dsimp only
    rw [if_pos rfl, stored.added_known known, stored.chain]
    exact ⟨rfl, h, fun x => (or_iff_right_of_imp (· ▸ known)).symm⟩
  · have newId := stored.ev_eq_none.2 fun x mem => (new x mem).1
    have absent : p.byEvent.find? e.eventId = none := by
      rw [← Option.isNone_iff_eq_none, ← Option.not_isSome, h.byEvent, newId]
      rfl
    rw [absent]
    exact ⟨rfl, h.add positive newId (stored.seq_eq_none.2 fun x mem => (new x mem).2)⟩

end Execution

section Calls

variable {E : ChainEnv} {store : ChainStore} {keys : String → ExecutionKeys}

def partition (store : ChainStore) (execution : String) : ExecutionPartition :=
  (store.find? execution).getD {}

def Related (store : ChainStore) (keys : String → ExecutionKeys) : Prop :=
  ∀ execution, Same (partition store execution) (keys execution)

section

variable (h : Related store keys)
include h

theorem Related.get : store.get = DurableChainStore.get keys := by
  funext execution event
  rw [DurableChainStore.get, ← (h execution).get, partition, ChainStore.get]
  cases store.find? execution <;> rfl

theorem Related.head (execution : String) :
    ((store.find? execution).bind (·.head)) = DurableChainStore.head keys execution := by
  rw [DurableChainStore.head, ← (h execution).head, partition]
  cases store.find? execution <;> rfl

theorem Related.chain (execution : String) : store.chain execution = (keys execution).chain := by
  rw [← (h execution).chain, partition, ChainStore.chain]
  cases store.find? execution <;> rfl

theorem Related.isComplete (execution : String) (fuel : Nat) :
    store.isComplete execution fuel = chainIsComplete (DurableChainStore.get keys) execution
      (DurableChainStore.head keys execution) (keys execution).span fuel := by
  rw [← h.get, ← h.head, ← (h execution).span.2, partition, ChainStore.isComplete]
  cases store.find? execution <;> rfl

theorem Related.insert {execution p d} (same : Same p d) :
    Related (store.insert execution p) (Function.update keys execution d) := by
  intro other
  rw [partition, OrderedMap.find?_insert, Function.update_apply]
  split
  · exact same
  · exact h other

end

/-- What a call must meet for the stores to agree: a replicated event has ids and a place of its
own, or is there already, and an append finds a last sequence that has a successor. -/
def Agreeable (E : ChainEnv) (store : ChainStore) : ChainCall → Prop
  | .append execution _ _ _ _ => (partition store execution).span + 1 < 2 ^ 64
  | .applyReplicated e => E.blank e.executionId = false ∧ E.blank e.eventId = false ∧
    0 < e.execSeq ∧ Consistent (store.chain e.executionId) e
  | _ => True

theorem Related.replicated (h : Related store keys) {e}
    (agreeable : Agreeable E store (.applyReplicated e)) :
    ∃ a keys', DurableChainStore.answer E keys (.applyReplicated e) = some (a, keys') ∧
      a.plain = (store.answer E (.applyReplicated e)).1.plain ∧
      Related (store.answer E (.applyReplicated e)).2 keys' ∧ ∀ other x, x ∈ (keys' other).chain ↔
        x ∈ (keys other).chain ∨ x = e ∧ x.executionId = other := by
  obtain ⟨named, known, positive, consistent⟩ := agreeable
  rw [h.chain, ← (h e.executionId).chain] at consistent
  obtain ⟨a, d', ends, rfl, same, members⟩ :=
    (applyReplicated_same (h e.executionId) positive consistent).eval
  rw [DurableChainStore.answer, on, ends]
  refine ⟨_, _, rfl, ?_, ?_, fun other x => ?_⟩
  · rw [ChainStore.answer, ChainStore.applyReplicated, named, known]
    rfl
  · rw [ChainStore.answer, ChainStore.applyReplicated, named, known]
    exact h.insert same
  · rw [Function.update_apply]
    grind

theorem Related.answer (h : Related store keys) {call} (agreeable : Agreeable E store call) :
    ∃ a keys', DurableChainStore.answer E keys call = some (a, keys') ∧
      a.plain = (store.answer E call).1.plain ∧ Related (store.answer E call).2 keys' := by
  cases call with
  | append execution event prev parent payload =>
    by_cases named : E.blank execution = false ∧ E.blank event = false
    · obtain ⟨a, d', ends, alike, same⟩ := (append_same (h execution) agreeable named prev parent
        payload).eval
      rw [DurableChainStore.answer, on, ends]
      refine ⟨_, _, rfl, ?_, ?_⟩
      all_goals
        rw [ChainStore.answer, ChainStore.append, named.1, named.2]
      · exact congrArg ChainAnswer.appended alike
      · exact h.insert same
    · have refused : ∃ text, store.append E execution event prev parent payload =
          (.error (.invalid text), store) := by
        rw [ChainStore.append]
        split
        · exact ⟨_, rfl⟩
        · rename_i first
          split
          · exact ⟨_, rfl⟩
          · rename_i second
            exact absurd ⟨Bool.not_eq_true _ ▸ first, Bool.not_eq_true _ ▸ second⟩ named
      obtain ⟨text, refused⟩ := refused
      have blank : (E.blank execution || E.blank event) = true := by
        cases first : E.blank execution <;> cases second : E.blank event
        · exact absurd ⟨first, second⟩ named
        all_goals rfl
      rw [DurableChainStore.answer, on, append, if_pos blank]
      refine ⟨_, _, rfl, ?_, ?_⟩
      all_goals rw [ChainStore.answer, refused]
      · rfl
      · rw [Function.update_eq_self]
        exact h
  | applyReplicated e =>
    obtain ⟨a, keys', answers, same, related, -⟩ := h.replicated agreeable
    exact ⟨a, keys', answers, same, related⟩
  | get execution event => exact ⟨_, _, rfl, by rw [ChainStore.answer, h.get], h⟩
  | parentOf event => exact ⟨_, _, rfl, by rw [ChainStore.answer, h.get], h⟩
  | chain execution => exact ⟨_, _, rfl, by rw [ChainStore.answer, h.chain], h⟩
  | walkFromHead execution fuel =>
    exact ⟨_, _, rfl, by rw [ChainStore.answer, h.get, h.head], h⟩
  | isComplete execution fuel => exact ⟨_, _, rfl, by rw [ChainStore.answer, h.isComplete], h⟩
  | parentExecutionOf execution =>
    refine ⟨_, _, rfl, ?_, h⟩
    rw [ChainStore.answer, ← (h execution).chain, partition, ChainStore.parentExecutionOf]
    cases store.find? execution <;> rfl

theorem Related.serve (h : Related store keys) {calls}
    (agreeable : ∀ front call back, calls = front ++ call :: back →
      Agreeable E (store.serve E front).2 call) :
    ∃ answers, DurableChainStore.serve E keys calls = some answers ∧
      answers.map plain = (store.serve E calls).1.map plain := by
  induction calls generalizing store keys with
  | nil => exact ⟨[], rfl, rfl⟩
  | cons call calls ih =>
    obtain ⟨a, keys', answers, same, related⟩ := h.answer (agreeable [] call calls rfl)
    obtain ⟨rest, served, equal⟩ := ih related fun front other back is =>
      agreeable (call :: front) other back (by rw [is]; rfl)
    refine ⟨a :: rest, ?_, ?_⟩
    · rw [DurableChainStore.serve, answers, Option.bind_some, served]
      rfl
    · rw [map_cons, same, equal]
      rfl

/-- Both stores, started empty, answer every run of calls alike, up to the texts of `Invalid`, in
which each replicated event has ids and a place of its own or is there already, and no append comes
after the last sequence of a `u64`. -/
theorem durable_store_answers_alike (E : ChainEnv) (calls : List ChainCall)
    (agreeable : ∀ front call back, calls = front ++ call :: back →
      Agreeable E (ChainStore.serve E .empty front).2 call) :
    ∃ answers, DurableChainStore.serve E (fun _ => {}) calls = some answers ∧ answers.map plain =
        (ChainStore.serve E .empty calls).1.map plain := by
  have related : Related .empty fun _ => {} := fun _ => same_empty
  exact related.serve agreeable

end Calls

section Replicas

variable {E : ChainEnv} {execution other : String} {P S : List ChainEvent} {store : ChainStore}
  {keys : String → ExecutionKeys} {e : ChainEvent} {events : List ChainEvent}

/-- What is read of an execution when the events `S` of the path `P` are there. -/
structure ReadsAs (P S : List ChainEvent) (execution : String)
    (get : String → String → Option ChainEvent) (head : Option String) (chain : List ChainEvent)
    (complete : Nat → Option (Except ChainError Bool)) : Prop where
  known : ∀ id e, get execution id = some e ↔ e ∈ S ∧ e.eventId = id
  last : head = S.getLast?.map eventId
  ordered : chain = S
  complete : ∀ fuel, P.length < fuel → ∃ answer, complete fuel = some (.ok answer) ∧
    (answer = true ↔ S <+: P) ∧ (answer = false → ∃ gap ∈ P, gap ∉ S ∧
      walkFromHead get execution head fuel = some (.error (.gapAt execution gap.eventId)))

/-- The keys after events were replicated one by one. -/
def afterReplicated (E : ChainEnv) (keys : String → ExecutionKeys) (events : List ChainEvent) :
    Option (String → ExecutionKeys) :=
  events.foldlM (fun keys e =>
    (DurableChainStore.answer E keys (.applyReplicated e)).map Prod.snd) keys

/-- Events that are linked one to the next, as appends leave them. -/
structure Linked (E : ChainEnv) (execution : String) (P : List ChainEvent) : Prop
    extends Apart P where
  named : ∀ e ∈ P, e.executionId = execution ∧ E.blank execution = false ∧
    E.blank e.eventId = false ∧ 0 < e.execSeq
  prev : ∀ e ∈ P, e.execSeq = 1 ∧ e.prevEventId = none ∨
    ∃ x ∈ P, e.execSeq = x.execSeq + 1 ∧ e.prevEventId = some x.eventId
  upTo : ∀ n, (P.filter fun e => decide (e.execSeq ≤ n)) = P.take n

theorem path_linked {log} (valid : Valid E execution log) :
    Linked E execution (path execution log) := by
  refine ⟨path_apart valid.distinct, fun e mem => ?_, fun e mem => ?_, path_filter⟩
  all_goals
    obtain ⟨i, at_i, seq⟩ := path_at mem
    rw [path_getElem?] at at_i
    obtain ⟨entry, here, rfl⟩ := Option.map_eq_some_iff.1 at_i
  · exact ⟨rfl, valid.execution, valid.named entry (mem_of_getElem? here), Nat.succ_pos i⟩
  · cases i with
    | zero => exact .inl ⟨rfl, rfl⟩
    | succ i =>
      have short := Nat.lt_of_succ_lt (List.getElem?_eq_some_iff.1 here).1
      have before := List.getElem?_eq_getElem short
      refine .inr ⟨_, mem_of_getElem? ((path_getElem? i).trans (congrArg _ before)), rfl, ?_⟩
      exact congrArg (Option.map LogEvent.eventId) before

variable (linked : Linked E execution P)
include linked

/-- A walk reaches the first event, or ends at an event that is not there. -/
theorem Linked.walk (get) (sub : S ⊆ P)
    (known : ∀ id e, get execution id = some e ↔ e ∈ S ∧ e.eventId = id) (here : e ∈ S) {fuel}
    (enough : e.execSeq ≤ fuel) : ((∀ x ∈ P, x.execSeq ≤ e.execSeq → x ∈ S) ∧
      ∃ walked, L0.walk get fuel e = some (.ok walked) ∧ walked.length = e.execSeq) ∨
    ∃ gap ∈ P, gap.execSeq < e.execSeq ∧ gap ∉ S ∧
      L0.walk get fuel e = some (.error (.gapAt execution gap.eventId)) := by
  induction fuel generalizing e with
  | zero => exact absurd enough (Nat.not_le.2 (linked.named e (sub here)).2.2.2)
  | succ fuel ih =>
    have below {n} (seq : e.execSeq = n + 1) (all : ∀ x ∈ P, x.execSeq ≤ n → x ∈ S) (x)
        (mem : x ∈ P) (low : x.execSeq ≤ e.execSeq) : x ∈ S := by
      by_cases last : x.execSeq = e.execSeq
      · exact linked.seq x mem e (sub here) last ▸ here
      · exact all x mem (by omega)
    rw [L0.walk, parentOf, (linked.named e (sub here)).1]
    rcases linked.prev e (sub here) with ⟨seq, prev⟩ | ⟨x, mem, seq, prev⟩
    · rw [prev]
      refine .inl ⟨below seq fun x mem low => ?_, [e], rfl, seq.symm⟩
      exact absurd low (Nat.not_le.2 (linked.named x mem).2.2.2)
    · rw [prev]
      by_cases there : x ∈ S
      · simp only [(known _ x).2 ⟨there, rfl⟩]
        rcases ih there (by omega) with ⟨all, walked, goes, long⟩ | ⟨gap, old, low, missing, ends⟩
        · exact .inl ⟨below seq all, e :: walked, by rw [goes]; rfl, by rw [seq, ← long]; rfl⟩
        · exact .inr ⟨gap, old, by omega, missing, by rw [ends]; rfl⟩
      · have absent : get execution x.eventId = none := by
          refine Option.eq_none_iff_forall_ne_some.2 fun y found => ?_
          obtain ⟨old, same⟩ := (known _ y).1 found
          exact there (linked.id y (sub old) x mem same ▸ old)
        exact .inr ⟨x, mem, by omega, there, by simp only [absent]⟩

theorem Linked.reads (is : P.filter (fun e => e ∈ events ∧ e.executionId = other) = S)
    (stored : Stored S (keys other)) :
    ReadsAs P S other (DurableChainStore.get keys) (DurableChainStore.head keys other)
      (keys other).chain (chainIsComplete (DurableChainStore.get keys) other
        (DurableChainStore.head keys other) (keys other).span) := by
  have sub : S ⊆ P := is ▸ filter_subset_self _
  have head : DurableChainStore.head keys other = S.getLast?.map eventId := by
    rw [DurableChainStore.head, stored.head, Option.map_map]
    rfl
  refine ⟨stored.ev, head, stored.chain, fun fuel enough => ?_⟩
  rw [head, ExecutionKeys.span, stored.chain, chainIsComplete]
  cases last : S.getLast? with
  | none =>
    rw [getLast?_eq_none_iff.1 last]
    exact ⟨true, rfl, by simp, nofun⟩
  | some e =>
    obtain ⟨here, most⟩ := (getLast?_ascending stored.ascending).1 last
    obtain rfl : other = execution := by
      have own := here
      rw [← is, mem_filter, decide_eq_true_iff] at own
      exact own.2.2.symm.trans (linked.named e own.1).1
    have found : DurableChainStore.get keys other e.eventId = some e :=
      (stored.ev _ e).2 ⟨here, rfl⟩
    simp only [Option.map_some, walkFromHead, found, Option.getD_some]
    have short : e.execSeq ≤ fuel := by
      have all := linked.upTo P.length
      rw [take_length, filter_eq_self] at all
      have := of_decide_eq_true (all e (sub here))
      omega
    rcases linked.walk (DurableChainStore.get keys) sub stored.ev here short with
      ⟨all, walked, goes, long⟩ | ⟨gap, there, low, missing, ends⟩
    · have front : S = P.take e.execSeq := by
        rw [← linked.upTo, ← is]
        refine filter_congr fun x there => ?_
        have is_there : x ∈ events ∧ x.executionId = other ↔ x ∈ S := by simp [← is, there]
        rw [decide_eq_decide, is_there]
        exact ⟨most x, all x there⟩
      exact ⟨true, by rw [goes]; simp [long],
        ⟨fun _ => front ▸ take_prefix _ _, fun _ => rfl⟩, nofun⟩
    · refine ⟨false, by rw [ends]; rfl, ⟨nofun, fun front => absurd ?_ missing⟩,
        fun _ => ⟨gap, there, missing, ends⟩⟩
      rw [prefix_iff_eq_take.1 front, ← linked.upTo] at here ⊢
      have := of_decide_eq_true (mem_filter.1 here).2
      exact mem_filter.2 ⟨there, decide_eq_true (by omega)⟩

theorem Linked.replicated (related : Related store keys) (sub : (keys execution).chain ⊆ P)
    (among : events ⊆ P) : ∃ keys', afterReplicated E keys events = some keys' ∧
      Related (store.serve E (events.map .applyReplicated)).2 keys' ∧ ∀ other x,
        x ∈ (keys' other).chain ↔ x ∈ (keys other).chain ∨ x ∈ events ∧ x.executionId = other := by
  induction events generalizing store keys with
  | nil => exact ⟨keys, rfl, related, by simp⟩
  | cons e events ih =>
    obtain ⟨there, among⟩ := cons_subset.1 among
    obtain ⟨own, blank, named, positive⟩ := linked.named e there
    have consistent : Consistent (store.chain execution) e := by
      rw [related.chain]
      refine (em _).imp_right fun absent x mem => ⟨fun same => ?_, fun same => ?_⟩
      · exact absent (linked.id x (sub mem) e there same ▸ mem)
      · exact absent (linked.seq x (sub mem) e there same ▸ mem)
    obtain ⟨a, keys', answers, -, related', members⟩ := related.replicated (e := e)
      ⟨own ▸ blank, named, positive, own ▸ consistent⟩
    obtain ⟨last, done, served, all⟩ := ih related' (fun x mem => by
      rcases (members _ x).1 mem with old | ⟨rfl, -⟩
      · exact sub old
      · exact there) among
    refine ⟨last, ?_, served, fun other x => by rw [all, members, mem_cons, or_and_right, or_assoc]⟩
    rw [afterReplicated, foldlM_cons, answers]
    exact done

omit linked

/-- Events of a path are replicated in any order, any of them more than once. Either store then
shows a chain determined by which events they were, complete exactly if it is the path up to some
event; else the walk reports a gap. -/
theorem replicas_know_their_gaps {log} (valid : Valid E execution log)
    (among : events ⊆ path execution log) (other : String) :
    let store := (ChainStore.serve E .empty (events.map .applyReplicated)).2
    let S := (path execution log).filter fun e => e ∈ events ∧ e.executionId = other
    ReadsAs (path execution log) S other store.get ((store.find? other).bind (·.head))
      (store.chain other) (store.isComplete other) ∧
    ∃ keys, afterReplicated E (fun _ => {}) events = some keys ∧
      ReadsAs (path execution log) S other (DurableChainStore.get keys)
        (DurableChainStore.head keys other) (keys other).chain
        (chainIsComplete (DurableChainStore.get keys) other
          (DurableChainStore.head keys other) (keys other).span) := by
  intro store S
  have linked := path_linked valid
  have empty : Related .empty fun _ => {} := fun _ => same_empty
  obtain ⟨keys, done, related, members⟩ := linked.replicated empty (nil_subset _) among
  obtain ⟨S', -, stored⟩ := related other
  replace members := members other
  rw [stored.chain] at members
  have is : S = S' := Ascending.eq_of_mem_iff (path_ascending.filter _) stored.ascending fun x => by
    rw [members]
    simpa [S, ExecutionKeys.chain] using fun new _ => among new
  have reads := linked.reads is stored
  refine ⟨?_, keys, done, is ▸ reads⟩
  rw [related.get, related.head, related.chain, funext (related.isComplete other)]
  exact is ▸ reads

end Replicas

def plainChains : ChainEnv := ⟨id, fun id => id.getD ""⟩

theorem second_event_alone : ∃ keys, afterReplicated plainChains (fun _ => {})
      [⟨2, "b", some "a", "x", none, "q"⟩] = some keys ∧
    (keys "x").chain = [⟨2, "b", some "a", "x", none, "q"⟩] := by
  obtain ⟨-, keys, done, reads⟩ := replicas_know_their_gaps (E := plainChains)
    (⟨by decide, by decide, by decide⟩ :
      Valid _ "x" [⟨"a", none, "p", none⟩, ⟨"b", none, "q", some "a"⟩])
    (by decide : [⟨2, "b", some "a", "x", none, "q"⟩] ⊆ _) "x"
  exact ⟨keys, done, reads.ordered⟩

def firstChained : ChainEvent := ⟨1, "a", none, "x", none, "p"⟩

/-- A replicated event, the same event again, and an append that follows it. -/
def redelivered : List ChainCall :=
  [.applyReplicated firstChained, .applyReplicated firstChained,
    .append "x" "b" (some "a") none "q"]

theorem stores_agree_on_redelivery : ∃ answers,
    DurableChainStore.serve plainChains (fun _ => {}) redelivered = some answers ∧
      answers.map plain = (ChainStore.serve plainChains .empty redelivered).1.map plain := by
  refine durable_store_answers_alike plainChains _ fun front call back is => ?_
  rcases front with _ | ⟨first, _ | ⟨second, _ | ⟨third, rest⟩⟩⟩
  · cases is
    exact ⟨by decide, by decide, by decide, .inr nofun⟩
  · cases is
    exact ⟨by decide, by decide, by decide, .inl (by decide)⟩
  · cases is
    show (partition _ "x").span + 1 < 2 ^ 64
    decide
  · simp [redelivered] at is

/-- An event with the id of the first and another payload: the store in memory reports a fork, the
durable one accepts it. -/
theorem durable_store_accepts_fork : (ChainStore.serve plainChains .empty
      [.applyReplicated firstChained, .applyReplicated { firstChained with payload := "q" }]).1 =
      [.applied (.ok ()), .applied (.error (.forked "x" "<root>" "a" "a"))] ∧
    DurableChainStore.serve plainChains (fun _ => {})
      [.applyReplicated firstChained, .applyReplicated { firstChained with payload := "q" }] =
      some [.applied (.ok ()), .applied (.ok ())] := by
  decide

end Ehdb.Theorems
