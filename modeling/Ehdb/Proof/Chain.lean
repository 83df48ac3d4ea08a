import Ehdb.L0.Chain

/-! What the records of an execution say of its events, and what the operations of the durable store
and the populator make of them, with every state on the way. -/

namespace Ehdb.Proof.Chain

open L0 ProofKit List
open ExecutionKeys (chain headSeq withEvent withHead withPointer)
open ChainEvent (eventId execSeq)
open DurableChainStore (append applyReplicated)
open Goes (bind bindExcept tryEach)
open ChainPopulator (chainIfAuthoritative populateFromLog prevAt)

variable {S S' : List ChainEvent} {d d' : ExecutionKeys} {e : ChainEvent}

/-- Keys that hold the events `S`: each with its record and its pointer, the last one as the head.
-/
structure Stored (S : List ChainEvent) (d : ExecutionKeys) : Prop where
  ascending : Ascending execSeq S
  positive : ∀ e ∈ S, 0 < e.execSeq
  ev : ∀ id e, d.ev.find? id = some e ↔ e ∈ S ∧ e.eventId = id
  seq : ∀ n id, d.seq.find? n = some id ↔ ∃ e ∈ S, e.execSeq = n ∧ e.eventId = id
  head : d.head = S.getLast?.map fun e => (e.execSeq, e.eventId)

/-- No write of an event is under way: each one has its pointer and is not above the head. -/
def Whole (d : ExecutionKeys) : Prop :=
  ∀ p ∈ d.ev.entries, d.seq.find? p.2.execSeq = some p.1 ∧ p.2.execSeq ≤ d.headSeq

instance (d : ExecutionKeys) : Decidable (Whole d) := inferInstanceAs (Decidable (∀ _ ∈ _, _))

theorem stored_nil : Stored [] {} :=
  ⟨.nil, nofun, fun _ _ => ⟨nofun, nofun⟩, fun _ _ => ⟨nofun, nofun⟩, rfl⟩

theorem getLast?_ascending (h : Ascending execSeq S) :
    S.getLast? = some e ↔ e ∈ S ∧ ∀ x ∈ S, x.execSeq ≤ e.execSeq := by
  constructor
  · intro last
    obtain ⟨front, rfl⟩ := getLast?_eq_some_iff.1 last
    refine ⟨by simp, fun x mem => ?_⟩
    rcases mem_append.1 mem with old | new
    · exact ((pairwise_append.1 h).2.2 x old e (by simp)).le
    · rw [mem_singleton.1 new]
  · rintro ⟨mem, most⟩
    obtain ⟨A, B, rfl⟩ := append_of_mem mem
    cases B with
    | nil => simp
    | cons x B =>
      have above := (pairwise_cons.1 (pairwise_append.1 h).2.1).1 x (by simp)
      have below := most x (by simp)
      omega

/-- The chain of keys in which each pointer leads to an event of `S` at its place, and each of those
has a pointer. -/
theorem chain_eq (ascending : Ascending execSeq S)
    (pointed : ∀ n id, d.seq.find? n = some id → ∃ e ∈ S, e.execSeq = n ∧ d.ev.find? id = some e)
    (all : ∀ e ∈ S, d.seq.find? e.execSeq = some e.eventId ∧ d.ev.find? e.eventId = some e) :
    d.chain = S := by
  have place {p : Nat × String} {x : ChainEvent} (mem : p ∈ d.seq.entries)
      (found : d.ev.find? p.2 = some x) : x ∈ S ∧ x.execSeq = p.1 := by
    obtain ⟨y, stored, seq, is⟩ := pointed p.1 p.2 (OrderedMap.find?_eq_some.2 mem)
    rw [is] at found
    cases found
    exact ⟨stored, seq⟩
  -- The pointers are in the order of their sequences, which are those of the events.
  have sorted : Ascending execSeq (d.seq.entries.filterMap fun p => d.ev.find? p.2) := by
    refine pairwise_filterMap.2 (d.seq.ordered.imp_of_mem fun {p q} left right less => ?_)
    intro a is_a b is_b
    rw [(place left is_a).2, (place right is_b).2]
    exact less
  rw [chain, sortByKey_of_ascending sorted]
  refine sorted.eq_of_mem_iff ascending fun x => ?_
  rw [mem_filterMap]
  constructor
  · rintro ⟨p, mem, found⟩
    exact (place mem found).1
  · intro mem
    exact ⟨(x.execSeq, x.eventId), OrderedMap.find?_eq_some.1 (all x mem).1, (all x mem).2⟩

theorem Stored.chain (h : Stored S d) : d.chain = S := by
  refine chain_eq h.ascending (fun n id found => ?_) fun e mem =>
    ⟨(h.seq _ _).2 ⟨e, mem, rfl, rfl⟩, (h.ev _ _).2 ⟨mem, rfl⟩⟩
  obtain ⟨e, mem, seq, is⟩ := (h.seq n id).1 found
  exact ⟨e, mem, seq, (h.ev id e).2 ⟨mem, is⟩⟩

theorem Stored.le_headSeq (h : Stored S d) (mem : e ∈ S) : e.execSeq ≤ d.headSeq := by
  obtain ⟨last, is⟩ : ∃ last, S.getLast? = some last :=
    Option.ne_none_iff_exists'.1 fun none => by
      rw [getLast?_eq_none_iff.1 none] at mem
      cases mem
  rw [headSeq, h.head, is]
  exact ((getLast?_ascending h.ascending).1 is).2 e mem

theorem Stored.ev_eq_none (h : Stored S d) {id} :
    d.ev.find? id = none ↔ ∀ x ∈ S, x.eventId ≠ id := by
  rw [Option.eq_none_iff_forall_ne_some]
  exact ⟨fun none x mem is => none x ((h.ev id x).2 ⟨mem, is⟩),
    fun none x found => none x ((h.ev id x).1 found).1 ((h.ev id x).1 found).2⟩

theorem Stored.seq_eq_none (h : Stored S d) {n} :
    d.seq.find? n = none ↔ ∀ x ∈ S, x.execSeq ≠ n := by
  rw [Option.eq_none_iff_forall_ne_some]
  constructor
  · exact fun none x mem is => none x.eventId ((h.seq n _).2 ⟨x, mem, is, rfl⟩)
  · rintro none id found
    obtain ⟨x, mem, is, -⟩ := (h.seq n id).1 found
    exact none x mem is

def added (d : ExecutionKeys) (e : ChainEvent) : ExecutionKeys :=
  if d.headSeq < e.execSeq then ((d.withEvent e).withPointer e).withHead e
  else (d.withEvent e).withPointer e

section

variable (newId : d.ev.find? e.eventId = none) (newSeq : d.seq.find? e.execSeq = none)
include newId

theorem withEvent_eq : d.withEvent e = { d with ev := d.ev.insert e.eventId e } := by
  rw [withEvent, newId]
  rfl

include newSeq

theorem withPointer_eq : (d.withEvent e).withPointer e =
    { d with ev := d.ev.insert e.eventId e, seq := d.seq.insert e.execSeq e.eventId } := by
  rw [withEvent_eq newId, withPointer, newSeq]
  rfl

theorem not_whole_withEvent : ¬Whole (d.withEvent e) := by
  rw [withEvent_eq newId]
  intro whole
  have := (whole _ (OrderedMap.mem_insert_self d.ev e.eventId e)).1
  rw [newSeq] at this
  cases this

theorem not_whole_withPointer (newer : d.headSeq < e.execSeq) :
    ¬Whole ((d.withEvent e).withPointer e) := by
  rw [withPointer_eq newId newSeq]
  intro whole
  have := (whole _ (OrderedMap.mem_insert_self d.ev e.eventId e)).2
  exact absurd this (not_le.2 newer)

theorem Stored.add (h : Stored S d) (positive : 0 < e.execSeq)
    (ascending : Ascending execSeq S') (members : ∀ x, x ∈ S' ↔ x = e ∨ x ∈ S) :
    Stored S' (added d e) := by
  have keys : added d e = { d with
      ev := d.ev.insert e.eventId e
      seq := d.seq.insert e.execSeq e.eventId
      head := if d.headSeq < e.execSeq then some (e.execSeq, e.eventId) else d.head } := by
    rw [added, withPointer_eq newId newSeq]
    split <;> rfl
  rw [keys]
  refine ⟨ascending, fun x mem => ?_, fun id x => ?_, fun n id => ?_, ?_⟩
  · rcases (members x).1 mem with rfl | old
    · exact positive
    · exact h.positive x old
  · simp only [OrderedMap.find?_insert, members]
    have fresh := h.ev_eq_none.1 newId
    split
    · rename_i same
      constructor
      · rintro ⟨⟩
        exact ⟨.inl rfl, same.symm⟩
      · rintro ⟨rfl | old, is⟩
        · rfl
        · exact absurd (is.trans same) (fresh x old)
    · rename_i other
      rw [h.ev]
      refine and_congr_left fun is => ⟨.inr, fun known => known.resolve_left ?_⟩
      rintro rfl
      exact other is.symm
  · simp only [OrderedMap.find?_insert, members]
    have fresh := h.seq_eq_none.1 newSeq
    split
    · rename_i same
      constructor
      · rintro ⟨⟩
        exact ⟨e, .inl rfl, same.symm, rfl⟩
      · rintro ⟨x, rfl | old, is, rfl⟩
        · rfl
        · exact absurd (is.trans same) (fresh x old)
    · rename_i other
      rw [h.seq]
      constructor
      · exact fun ⟨x, mem, is⟩ => ⟨x, .inr mem, is⟩
      · rintro ⟨x, rfl | old, is, id⟩
        · exact absurd is.symm other
        · exact ⟨x, old, is, id⟩
  · split
    · rename_i newer
      have last : S'.getLast? = some e := (getLast?_ascending ascending).2
        ⟨(members e).2 (.inl rfl), fun x mem => by
          rcases (members x).1 mem with rfl | old
          · exact le_rfl
          · exact (h.le_headSeq old).trans newer.le⟩
      rw [last]
      rfl
    · rename_i older
      rw [h.head]
      cases is : S.getLast? with
      | none =>
        rw [headSeq, h.head, is] at older
        exact absurd positive older
      | some last =>
        obtain ⟨mem, most⟩ := (getLast?_ascending h.ascending).1 is
        rw [headSeq, h.head, is] at older
        rw [(getLast?_ascending ascending).2 ⟨(members last).2 (.inr mem), fun x other => by
          rcases (members x).1 other with rfl | old
          · exact not_lt.1 older
          · exact most x old⟩]

end

theorem Stored.withEvent_known (h : Stored S d) (mem : e ∈ S) : d.withEvent e = d := by
  rw [withEvent, (h.ev _ _).2 ⟨mem, rfl⟩]
  rfl

theorem Stored.withPointer_known (h : Stored S d) (mem : e ∈ S) :
    (d.withEvent e).withPointer e = d := by
  rw [h.withEvent_known mem, withPointer, (h.seq _ _).2 ⟨e, mem, rfl, rfl⟩]
  rfl

theorem Stored.added_known (h : Stored S d) (mem : e ∈ S) : added d e = d := by
  rw [added, h.withPointer_known mem, if_neg (not_lt.2 (h.le_headSeq mem))]

theorem added_marks (d : ExecutionKeys) (e : ChainEvent) :
    (added d e).cov = d.cov ∧ (added d e).wm = d.wm := by
  unfold added withHead withPointer withEvent
  split <;> split <;> split <;> exact ⟨rfl, rfl⟩

theorem headSeq_withPointer (d : ExecutionKeys) (e : ChainEvent) :
    ((d.withEvent e).withPointer e).headSeq = d.headSeq := by
  unfold withPointer withEvent
  split <;> split <;> rfl

section Operations

variable {ε α : Type} {I : ExecutionKeys → Prop}

theorem goes_read {f : ExecutionKeys → α} {Q : Except ε α → ExecutionKeys → Prop} (here : I d)
    (done : Q (.ok (f d)) d) : Goes I (KeyOp.read f).run Q d := ⟨_, _, rfl, here, done⟩

theorem goes_write {f : ExecutionKeys → ExecutionKeys} {Q : Except ε Unit → ExecutionKeys → Prop}
    (there : I (f d)) (done : Q (.ok ()) (f d)) : Goes I (KeyOp.write f).run Q d :=
  ⟨_, _, rfl, there, done⟩

theorem goes_putEvent {Q : Except ε Bool → ExecutionKeys → Prop} (there : I (d.withEvent e))
    (done : Q (.ok (d.ev.find? e.eventId).isNone) (d.withEvent e)) :
    Goes I (KeyOp.putEvent e).run Q d := ⟨_, _, rfl, there, done⟩

variable {E : ChainEnv}

def refusal (E : ChainEnv) (d : ExecutionKeys) (execution event : String) (prev : Option String) :
    Option ChainError :=
  if E.blank execution || E.blank event then some
    (.invalid "execution_id and event_id are required")
  else if d.head.map Prod.snd ≠ prev then some (.notHead execution (d.head.map Prod.snd) prev)
  else if (d.ev.find? event).isSome then some (.invalid
    s!"event {event} already exists in execution {execution}: an event key is write-once")
  else none

variable {Q : Except ChainError Nat → ExecutionKeys → Prop}

theorem append_rule {execution event payload prev parent} (here : I d)
    (refused : ∀ err, refusal E d execution event prev = some err → Q (.error err) d)
    (writes : ∀ e : ChainEvent, e = ⟨d.headSeq + 1, event, prev, execution, parent, payload⟩ →
      refusal E d execution event prev = none → d.head.map Prod.snd = prev →
      d.ev.find? event = none → I (d.withEvent e) ∧
      I ((d.withEvent e).withPointer e) ∧ I (((d.withEvent e).withPointer e).withHead e) ∧
      Q (.ok e.execSeq) (((d.withEvent e).withPointer e).withHead e)) :
    Goes I (append E execution event prev parent payload).run Q d := by
  rw [append]
  rw [refusal] at refused writes
  split
  · rename_i blank
    exact refused _ (if_pos blank)
  · rename_i named
    rw [if_neg named] at refused writes
    refine bindExcept (goes_read here ?_)
    dsimp only
    split
    · rename_i elsewhere
      exact refused _ (if_pos elsewhere)
    · rename_i at_head
      rw [if_neg at_head] at refused writes
      cases known : d.ev.find? event with
      | some old =>
        refine bindExcept (goes_putEvent ?_ ?_)
        all_goals rw [withEvent, if_pos (by rw [known]; rfl)]
        · exact here
        · dsimp only
          rw [if_pos (by rw [known]; rfl)]
          exact refused _ (if_pos (by rw [known]; rfl))
      | none =>
        obtain ⟨first, second, third, done⟩ :=
          writes _ rfl (if_neg (by rw [known]; nofun)) (not_not.1 at_head) known
        refine bindExcept (goes_putEvent first ?_)
        dsimp only
        rw [known, if_neg (by simp)]
        refine bindExcept (goes_write second ?_)
        exact bindExcept (goes_write third done)

theorem applyReplicated_rule {Q}
    (first : I (d.withEvent e)) (second : I ((d.withEvent e).withPointer e)) (there : I (added d e))
    (done : Q (.ok ()) (added d e)) : Goes I (applyReplicated e).run Q d := by
  refine bindExcept (goes_putEvent first ?_)
  refine bindExcept (goes_write second ?_)
  refine bindExcept (goes_read second ?_)
  dsimp only
  rw [headSeq_withPointer]
  rw [added] at there done
  split
  · rename_i newer
    rw [if_pos newer] at there done
    exact goes_write there done
  · rename_i older
    rw [if_neg older] at done
    exact done

end Operations

section Path

variable {execution : String} {log : List LogEvent}

/-- The chain that a log makes: each event at its place, after the one before it. -/
def path (execution : String) (log : List LogEvent) : List ChainEvent :=
  log.zipIdx.map fun e => ⟨e.2 + 1, e.1.eventId, prevAt log e.2, execution,
    e.1.parentExecutionId, e.1.payload⟩

structure Valid (E : ChainEnv) (execution : String) (log : List LogEvent) : Prop where
  execution : E.blank execution = false
  named : ∀ e ∈ log, E.blank e.eventId = false
  distinct : (log.map LogEvent.eventId).Nodup

theorem length_path : (path execution log).length = log.length := by simp [path]

theorem path_getElem? (i : Nat) : (path execution log)[i]? = log[i]?.map fun e =>
    ⟨i + 1, e.eventId, prevAt log i, execution, e.parentExecutionId, e.payload⟩ := by
  rw [path, getElem?_map, getElem?_zipIdx]
  cases log[i]? <;> simp

theorem path_take (m : Nat) : path execution (log.take m) = (path execution log).take m := by
  refine ext_getElem? fun i => ?_
  by_cases inside : i < m
  · rw [getElem?_take_of_lt inside, path_getElem?, path_getElem?, getElem?_take_of_lt inside]
    have before : prevAt (log.take m) i = prevAt log i := by
      unfold prevAt
      rw [getElem?_take_of_lt (by omega)]
    rw [before]
  · rw [getElem?_eq_none (by rw [length_path, length_take]; omega),
      getElem?_eq_none (by rw [length_take]; omega)]

theorem path_ids : (path execution log).map eventId = log.map LogEvent.eventId := by
  refine ext_getElem? fun i => ?_
  rw [getElem?_map, getElem?_map, path_getElem?, Option.map_map]
  rfl

theorem path_ascending : Ascending execSeq (path execution log) := by
  refine pairwise_iff_getElem.2 fun i j left right less => ?_
  have at_i := getElem?_eq_getElem left
  have at_j := getElem?_eq_getElem right
  rw [path_getElem?] at at_i at_j
  obtain ⟨a, -, is_a⟩ := Option.map_eq_some_iff.1 at_i
  obtain ⟨b, -, is_b⟩ := Option.map_eq_some_iff.1 at_j
  rw [← is_a, ← is_b]
  exact Nat.succ_lt_succ less

theorem path_at (h : e ∈ path execution log) :
    ∃ i, (path execution log)[i]? = some e ∧ e.execSeq = i + 1 := by
  obtain ⟨i, here⟩ := mem_iff_getElem?.1 h
  refine ⟨i, here, ?_⟩
  rw [path_getElem?] at here
  obtain ⟨want, -, rfl⟩ := Option.map_eq_some_iff.1 here
  rfl

theorem path_filter (m : Nat) :
    ((path execution log).filter fun e => decide (e.execSeq ≤ m)) =
      (path execution log).take m := by
  refine (path_ascending.filter _).eq_of_mem_iff (path_ascending.sublist (take_sublist _ _))
    fun e => ?_
  rw [mem_filter, decide_eq_true_eq]
  constructor
  · rintro ⟨mem, low⟩
    obtain ⟨i, here, seq⟩ := path_at mem
    refine mem_of_getElem? (i := i) ?_
    rw [getElem?_take_of_lt (by omega), here]
  · intro mem
    obtain ⟨i, here⟩ := mem_iff_getElem?.1 mem
    have low : i < m := by
      by_contra high
      rw [getElem?_take_eq_none (by omega)] at here
      cases here
    rw [getElem?_take_of_lt low, path_getElem?] at here
    obtain ⟨want, -, rfl⟩ := Option.map_eq_some_iff.1 here
    exact ⟨mem_of_mem_take mem, low⟩

variable {E : ChainEnv}

theorem Valid.take (h : Valid E execution log) (m : Nat) : Valid E execution (log.take m) := by
  refine ⟨h.execution, fun e mem => h.named e (mem_of_mem_take mem), ?_⟩
  rw [map_take]
  exact h.distinct.sublist (take_sublist _ _)

structure Apart (P : List ChainEvent) : Prop where
  seq : ∀ x ∈ P, ∀ y ∈ P, x.execSeq = y.execSeq → x = y
  id : ∀ x ∈ P, ∀ y ∈ P, x.eventId = y.eventId → x = y

theorem path_apart (distinct : (log.map LogEvent.eventId).Nodup) : Apart (path execution log) := by
  refine ⟨fun x left y right same => ?_, fun x left y right same => ?_⟩
  · obtain ⟨i, at_i, seq⟩ := path_at left
    obtain ⟨j, at_j, seq'⟩ := path_at right
    obtain rfl : i = j := by omega
    exact Option.some.inj (at_i.symm.trans at_j)
  · exact inj_on_of_nodup_map (path_ids ▸ distinct) left right same

variable {storedLen logLen i : Nat}

theorem compare_of_front
    (h : S.map eventId <+: log.map LogEvent.eventId) :
    ChainPopulator.compare storedLen logLen i S log = none := by
  induction S generalizing log i with
  | nil => cases log <;> rfl
  | cons known S ih =>
    cases log with
    | nil => simp at h
    | cons want log =>
      obtain ⟨same, rest⟩ := cons_prefix_cons.1 h
      rw [ChainPopulator.compare, if_pos same.symm]
      exact ih rest

theorem compare_of_longer (longer : log.length < S.length)
    (h : log.map LogEvent.eventId <+: S.map eventId) :
    ChainPopulator.compare storedLen logLen i S log = some (.staleLog storedLen logLen) := by
  induction S generalizing log i with
  | nil => cases longer
  | cons known S ih =>
    cases log with
    | nil => rfl
    | cons want log =>
      obtain ⟨same, rest⟩ := cons_prefix_cons.1 h
      rw [ChainPopulator.compare, if_pos same]
      exact ih (Nat.lt_of_succ_lt_succ longer) rest

theorem prefix_of_compare
    (h : ChainPopulator.compare storedLen logLen i S log = none) :
    S.map eventId <+: log.map LogEvent.eventId := by
  induction S generalizing log i with
  | nil => exact nil_prefix
  | cons known S ih =>
    cases log with
    | nil => cases h
    | cons want log =>
      rw [ChainPopulator.compare] at h
      split at h
      · rename_i same
        exact cons_prefix_cons.2 ⟨same.symm, ih h⟩
      · cases h

variable {I : ExecutionKeys → Prop}

theorem head_take {k} (low : k ≤ log.length) :
    (((path execution log).take k).getLast?.map eventId) = prevAt log k ∧
      (((path execution log).take k).getLast?.map execSeq).getD 0 = k := by
  cases k with
  | zero => exact ⟨rfl, rfl⟩
  | succ k =>
    have some : log[k]? = Option.some log[k] := getElem?_eq_getElem low
    have prev : prevAt log (k + 1) = Option.some log[k].eventId := by
      rw [prevAt, if_neg (Nat.succ_ne_zero k), Nat.add_sub_cancel, some]
      rfl
    rw [getLast?_take, if_neg (Nat.succ_ne_zero k), Nat.add_sub_cancel, path_getElem?, some, prev]
    exact ⟨rfl, rfl⟩

theorem append_path_goes {j want Q} (valid : Valid E execution log)
    (here : log[j]? = some want) (stored : Stored ((path execution log).take j) d) (now : I d)
    (partly : ∀ d', ¬Whole d' → I d')
    (done : ∀ d', Stored ((path execution log).take (j + 1)) d' → d'.cov = d.cov → d'.wm = d.wm →
      I d' ∧ Q (.ok (j + 1)) d') : Goes I (append E execution want.eventId (prevAt log j)
      want.parentExecutionId want.payload).run Q d := by
  have bound := (List.getElem?_eq_some_iff.1 here).1
  have mem := mem_of_getElem? here
  obtain ⟨prev, at_head⟩ : _ ∧ (((path execution log).take j).getLast?.map _).getD 0 = j :=
    head_take bound.le
  have place : (path execution log)[j]? = some ⟨j + 1, want.eventId, prevAt log j,
      execution, want.parentExecutionId, want.payload⟩ := by
    rw [path_getElem?, here]
    rfl
  generalize is : (⟨j + 1, want.eventId, prevAt log j, execution,
    want.parentExecutionId, want.payload⟩ : ChainEvent) = e at place
  have headSeq : d.headSeq = j := by
    rw [headSeq, stored.head, Option.map_map]
    exact at_head
  have newId : d.ev.find? e.eventId = none := by
    refine stored.ev_eq_none.2 fun x old same => ?_
    have again := (path_apart valid.distinct).id x (mem_of_mem_take old) e (mem_of_getElem? place)
      same
    have below := stored.le_headSeq old
    rw [again, headSeq, ← is] at below
    exact Nat.not_succ_le_self j below
  have next : e.execSeq = d.headSeq + 1 := by rw [headSeq, ← is]
  have newSeq : d.seq.find? e.execSeq = none := by
    refine stored.seq_eq_none.2 fun x old same => ?_
    have := stored.le_headSeq old
    omega
  have more : (path execution log).take (j + 1) = (path execution log).take j ++ [e] := by
    rw [take_add_one, place]
    rfl
  have grown : Stored ((path execution log).take (j + 1)) (added d e) := by
    refine stored.add newId newSeq (by omega) (path_ascending.sublist (take_sublist _ _)) ?_
    intro x
    rw [more, mem_append, mem_singleton, or_comm]
  obtain ⟨cov, wm⟩ := added_marks d e
  obtain ⟨there, answer⟩ := done _ grown cov wm
  have newer : d.headSeq < e.execSeq := by omega
  have final : ((d.withEvent e).withPointer e).withHead e = added d e := (if_pos newer).symm
  subst is
  have accepted : refusal E d execution want.eventId (prevAt log j) = none := by
    have last : d.head.map Prod.snd = prevAt log j := by
      rw [stored.head, Option.map_map]
      exact prev
    simp [refusal, valid.execution, valid.named want mem, last, newId]
  refine append_rule now (fun err refused => by rw [accepted] at refused; cases refused) ?_
  rintro e' is - - -
  rw [← next] at is
  obtain rfl := is
  exact ⟨partly _ (not_whole_withEvent newId newSeq),
    partly _ (not_whole_withPointer newId newSeq newer), final ▸ there, final ▸ answer⟩

theorem appendEach_goes {k Q} (L : Nat → ExecutionKeys → Prop)
    (low : k ≤ log.length) (start : L k d)
    (step : ∀ j want d', log[j]? = some want → L j d' →
      Goes I (append E execution want.eventId (prevAt log j)
        want.parentExecutionId want.payload).run (fun
        | .ok _, t => L (j + 1) t
        | .error err, t => Q (.error (.storage (err.message E))) t) d')
    (done : ∀ d', L log.length d' → Q (.ok (log.length - k)) d') :
    Goes I (Prog.tryEach (fun appended e => do
      let _ ← ExceptT.adapt (fun err : ChainError => EhdbError.storage (err.message E))
        (append E execution e.1.eventId (prevAt log e.2)
          e.1.parentExecutionId e.1.payload)
      return appended + 1) 0 (log.zipIdx.drop k)).run Q d := by
  refine tryEach (fun rest appended d' => rest = log.zipIdx.drop (k + appended) ∧
    k + appended ≤ log.length ∧ L (k + appended) d') ?_ ?_ ⟨rfl, low, start⟩
  · rintro ⟨want, j⟩ rest appended d' ⟨split, -, now⟩
    have here : log.zipIdx[k + appended]? = some (want, j) := by
      rw [← head?_drop, ← split]
      rfl
    rw [getElem?_zipIdx, Option.map_eq_some_iff] at here
    obtain ⟨_, here, same⟩ := here
    rw [Prod.mk.injEq, Nat.zero_add] at same
    obtain ⟨rfl, rfl⟩ := same
    refine bindExcept (bind ((step _ _ d' here now).mono fun r t holds => ?_))
    cases r with
    | error err => exact holds
    | ok seq =>
      refine ⟨?_, (List.getElem?_eq_some_iff.1 here).1, holds⟩
      rw [← Nat.add_assoc, ← drop_drop, ← split]
      rfl
  · rintro appended d' ⟨split, bound, now⟩
    have all : k + appended = log.length := by
      have := congrArg length split
      rw [length_drop, length_zipIdx, length_nil] at this
      omega
    rw [show appended = log.length - k by omega]
    exact done d' (all ▸ now)

variable {Q : Except EhdbError FromLog → ExecutionKeys → Prop}

/-- A log of which the first events are stored: the rest is appended, one event after the other. -/
theorem populateFromLog_goes {root k} (valid : Valid E execution log)
    (first : log.head? = some root) (low : k ≤ log.length)
    (stored : Stored ((path execution log).take k) d)
    (older : ∀ c, d.cov = some c → c.2 ≤ log.length)
    (now : I d) (partly : ∀ d', ¬Whole d' → I d')
    (during : ∀ j d', k ≤ j → j ≤ log.length → Stored ((path execution log).take j) d' →
      d'.cov = some (root.eventId, log.length) → d'.wm = d.wm → I d')
    (done : ∀ d', Stored (path execution log) d' → d'.cov = some (root.eventId, log.length) →
      d'.wm = some (1, log.length) → I d' ∧ Q (.ok (.inSync log.length (log.length - k))) d') :
    Goes I (populateFromLog E execution log).run Q d := by
  rw [populateFromLog, first]
  refine bindExcept (goes_read now ?_)
  have part : (d.chain.map eventId) <+: log.map LogEvent.eventId := by
    rw [stored.chain, ← @path_ids execution, map_take]
    exact take_prefix _ _
  have size : d.chain.length = k := by
    rw [stored.chain, length_take, length_path]
    omega
  dsimp only
  rw [compare_of_front part, size]
  have covered : Stored ((path execution log).take k)
      { d with cov := some (root.eventId, log.length) } :=
        ⟨stored.1, stored.2, stored.3, stored.4, stored.5⟩
  have lower : (d.cov.any fun c => decide (c.2 > log.length) && c.1 == root.eventId) = false := by
    cases is : d.cov with
    | none => rfl
    | some c => simp [not_lt.2 (older c is)]
  refine bindExcept (bindExcept (goes_read now ?_))
  dsimp only
  rw [lower]
  refine goes_write (during k _ le_rfl low covered rfl rfl) ?_
  refine bindExcept (appendEach_goes (fun j d' => k ≤ j ∧ j ≤ log.length ∧
    Stored ((path execution log).take j) d' ∧ d'.cov = some (root.eventId, log.length) ∧
    d'.wm = d.wm) low ⟨le_rfl, low, covered, rfl, rfl⟩ ?_ ?_)
  · -- One append: the next event of the log goes behind those that are stored.
    rintro j want d' here ⟨after, -, stored', cov, wm⟩
    have bound := (List.getElem?_eq_some_iff.1 here).1
    refine append_path_goes valid here stored' (during j d' after bound.le stored' cov wm) partly
      fun t grown cov' wm' => ⟨?_, ?_⟩
    · exact during _ t (by omega) bound grown (cov'.trans cov) (wm'.trans wm)
    · exact ⟨by omega, bound, grown, cov'.trans cov, wm'.trans wm⟩
  · rintro d' ⟨-, -, stored', cov, wm⟩
    rw [take_of_length_le (by rw [length_path])] at stored'
    have marked : Stored (path execution log) { d' with wm := some (1, log.length) } :=
      ⟨stored'.1, stored'.2, stored'.3, stored'.4, stored'.5⟩
    obtain ⟨there, answer⟩ := done _ marked cov rfl
    exact bindExcept (goes_write there answer)

theorem populateFromLog_nil_goes (now : I { d with wm := some (0, 0) })
    (done : ∀ cov, (cov = d.cov ∧ (∃ c, cov = some c ∧ 0 < c.2) ∨ cov = some ("", 0)) →
      I { d with wm := some (0, 0), cov } ∧
        Q (.ok (.inSync 0 0)) { d with wm := some (0, 0), cov }) :
    Goes I (populateFromLog E execution []).run Q d := by
  refine bindExcept (goes_write now ?_)
  refine bindExcept (bindExcept (goes_read now ?_))
  dsimp only
  split
  · exact goes_write (done _ (.inr rfl)).1 (done _ (.inr rfl)).2
  · rename_i kept
    have longer : ∃ c, d.cov = some c ∧ 0 < c.2 := by
      cases is : d.cov with
      | none => simp [is] at kept
      | some c =>
        rw [is] at kept
        simp only [Option.any_some, Bool.not_eq_true', Bool.not_eq_false, Bool.and_eq_true,
          decide_eq_true_eq] at kept
        exact ⟨c, rfl, kept.1⟩
    exact (done _ (.inl ⟨rfl, longer⟩)).2

theorem chainIfAuthoritative_nil (stored : Stored [] d) (cov : d.cov = some ("", 0))
    (wm : d.wm = some (0, 0)) : chainIfAuthoritative d = some [] := by
  have headSeq : d.headSeq = 0 := by
    rw [headSeq, stored.head]
    rfl
  simp [chainIfAuthoritative, cov, wm, headSeq, stored.chain]

theorem chainIfAuthoritative_path {root first} (stored : Stored (path execution log) d)
    (start : log.head? = some root) (cov : d.cov = some (root.eventId, log.length))
    (wm : d.wm = some (first, log.length)) :
    chainIfAuthoritative d = some (path execution log) := by
  have whole : (path execution log).take log.length = path execution log :=
    take_of_length_le (by rw [length_path])
  have headSeq : d.headSeq = log.length := by
    rw [headSeq, stored.head, Option.map_map, ← whole]
    exact (head_take le_rfl).2
  have begins : (path execution log).head?.map eventId = some root.eventId := by
    rw [← head?_map, path_ids, head?_map, start]
    rfl
  obtain ⟨e, is, same⟩ := Option.map_eq_some_iff.1 begins
  simp [chainIfAuthoritative, cov, wm, headSeq, stored.chain, length_path, is, same]

end Path

end Ehdb.Proof.Chain
