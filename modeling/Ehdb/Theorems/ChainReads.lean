import Ehdb.Theorems.Chains

/-! The guard compares the head with the watermark and the number of events with the coverage, not
their places. A coverage written before its events counts any others. -/

namespace Ehdb.Theorems

open L0 ProofKit Proof.Chain List
open Goes (bind bindExcept)
open LogEvent (eventId)
open ChainPopulator (chainIfAuthoritative populateFromLog prevAt writeWatermark)
open OrderedMap (find?_insert)

section Records

variable {P : List ChainEvent} {d d' start : ExecutionKeys} {e x : ChainEvent}

def Has (d : ExecutionKeys) (e : ChainEvent) : Prop :=
  d.seq.find? e.execSeq = some e.eventId ∧ d.ev.find? e.eventId = some e

instance : DecidablePred (Has d) := fun _ => inferInstanceAs (Decidable (_ ∧ _))

/-- Every record is of an event of the log; a pointer has its event, and the head its pointer. -/
structure Truthful (P : List ChainEvent) (d : ExecutionKeys) : Prop where
  ev : ∀ id e, d.ev.find? id = some e → e ∈ P ∧ e.eventId = id
  seq : ∀ n id, d.seq.find? n = some id →
    ∃ e ∈ P, e.execSeq = n ∧ e.eventId = id ∧ d.ev.find? id = some e
  head : ∀ h, d.head = some h → d.seq.find? h.1 = some h.2

theorem Truthful.withEvent (h : Truthful P d) (apart : Apart P) (mem : e ∈ P) :
    Truthful P (d.withEvent e) ∧ (d.withEvent e).ev.find? e.eventId = some e ∧
      ∀ x, Has (d.withEvent e) x ↔ Has d x := by
  cases known : d.ev.find? e.eventId with
  | some old =>
    obtain ⟨stored, same⟩ := h.ev _ _ known
    obtain rfl := apart.id old stored e mem same
    rw [ExecutionKeys.withEvent, if_pos (by rw [known]; rfl)]
    exact ⟨h, known, fun _ => Iff.rfl⟩
  | none =>
    rw [withEvent_eq known]
    -- No pointer leads to the id yet.
    have other {n : Nat} {id : String} (found : d.seq.find? n = some id) : id ≠ e.eventId := by
      rintro rfl
      obtain ⟨_, _, _, _, here⟩ := h.seq _ _ found
      rw [known] at here
      cases here
    refine ⟨⟨fun id x found => ?_, fun n id found => ?_, h.head⟩, ?_, fun x => ?_⟩
    · rw [find?_insert] at found
      split at found
      · cases found
        exact ⟨mem, by symm; assumption⟩
      · exact h.ev id x found
    · rw [find?_insert, if_neg (other found)]
      exact h.seq n id found
    · rw [find?_insert, if_pos rfl]
    · refine and_congr_right fun found => ?_
      rw [find?_insert, if_neg (other found)]

theorem Truthful.withPointer (h : Truthful P d) (apart : Apart P) (mem : e ∈ P)
    (here : d.ev.find? e.eventId = some e) : Truthful P (d.withPointer e) ∧
      ∀ x ∈ P, Has (d.withPointer e) x ↔ Has d x ∨ x = e := by
  cases known : d.seq.find? e.execSeq with
  | some id =>
    obtain ⟨old, stored, same, rfl, -⟩ := h.seq _ _ known
    obtain rfl := apart.seq old stored e mem same
    rw [ExecutionKeys.withPointer, if_pos (by rw [known]; rfl)]
    refine ⟨h, fun x _ => ⟨.inl, ?_⟩⟩
    rintro (has | rfl)
    · exact has
    · exact ⟨known, here⟩
  | none =>
    rw [ExecutionKeys.withPointer, if_neg (by simp [known])]
    refine ⟨⟨h.ev, fun n id found => ?_, fun top is => ?_⟩, fun x other => ?_⟩
    · rw [find?_insert] at found
      split at found
      · rename_i same
        cases found
        exact ⟨e, mem, same.symm, rfl, here⟩
      · exact h.seq n id found
    · rw [find?_insert, if_neg]
      · exact h.head top is
      · intro same
        have := h.head top is
        rw [same, known] at this
        cases this
    · rw [Has, find?_insert]
      split
      · rename_i same
        obtain rfl := apart.seq x other e mem same
        exact ⟨fun _ => .inr rfl, fun _ => ⟨rfl, here⟩⟩
      · rename_i differs
        refine ⟨.inl, ?_⟩
        rintro (has | rfl)
        · exact has
        · exact absurd rfl differs

/-- The chain has the events up to the coverage, or the events up to some place and no others. -/
def Covered (P : List ChainEvent) (d : ExecutionKeys) : Prop :=
  ∀ c, d.cov = some c → (∀ x ∈ P, x.execSeq ≤ c.2 → Has d x) ∨ ∃ m, ∀ x ∈ P, Has d x ↔ x.execSeq ≤ m

def Joins (P : List ChainEvent) (d : ExecutionKeys) (e : ChainEvent) : Prop :=
  ∀ c, d.cov = some c → (∀ x ∈ P, x.execSeq ≤ c.2 → Has d x) ∨
    ∃ m, (∀ x ∈ P, Has d x ↔ x.execSeq ≤ m) ∧ e.execSeq ≤ m + 1

structure Kept (P : List ChainEvent) (start d : ExecutionKeys) : Prop where
  truthful : Truthful P d
  covered : Covered P d
  more : ∀ x ∈ P, Has start x → Has d x

theorem Kept.withMarks (h : Kept P start d) {wm} :
    Kept P start { d with wm } := ⟨⟨h.1.1, h.1.2, h.1.3⟩, h.2, h.3⟩

/-- The three writes of an event. -/
theorem Kept.writes (h : Kept P start d) (apart : Apart P) (mem : e ∈ P) (fits : Joins P d e) :
    Kept P start (d.withEvent e) ∧ Kept P start ((d.withEvent e).withPointer e) ∧
      Kept P start (((d.withEvent e).withPointer e).withHead e) ∧
      Has ((d.withEvent e).withPointer e) e := by
  obtain ⟨first, here, same⟩ := h.truthful.withEvent apart mem
  obtain ⟨second, grown⟩ := first.withPointer apart mem here
  have cov : (d.withEvent e).cov = d.cov ∧ ((d.withEvent e).withPointer e).cov = d.cov := by
    rw [ExecutionKeys.withPointer, ExecutionKeys.withEvent]
    constructor
    all_goals repeat' split
    all_goals rfl
  have has (x : ChainEvent) (other : x ∈ P) :
      Has ((d.withEvent e).withPointer e) x ↔ Has d x ∨ x = e := by
    rw [grown x other, same]
  have covered : Covered P ((d.withEvent e).withPointer e) := by
    intro c is
    rcases fits c (cov.2 ▸ is) with all | ⟨m, some, next⟩
    · exact .inl fun x other low => (has x other).2 (.inl (all x other low))
    · refine .inr ⟨max m e.execSeq, fun x other => ?_⟩
      rw [has x other, some x other]
      constructor
      · rintro (low | rfl) <;> omega
      · intro low
        rcases Nat.lt_or_ge m x.execSeq with high | below
        · exact .inr (apart.seq x other e mem (by omega))
        · exact .inl below
  have more (x : ChainEvent) (other : x ∈ P) (old : Has start x) :
      Has ((d.withEvent e).withPointer e) x := (has x other).2 (.inl (h.more x other old))
  have there : Has ((d.withEvent e).withPointer e) e := (has e mem).2 (.inr rfl)
  refine ⟨⟨first, fun c is => ?_, fun x other old => (same x).2 (h.more x other old)⟩,
    ⟨second, covered, more⟩, ⟨⟨second.1, second.2, ?_⟩, covered, more⟩, there⟩
  · simp only [same]
    exact h.covered c (cov.1 ▸ is)
  · rintro _ ⟨⟩
    exact there.1

end Records

section Calls

variable {E : ChainEnv} {execution : String} {log : List LogEvent} {d start : ExecutionKeys}
  {e : ChainEvent}

section

variable (h : Truthful (path execution log) d)

include h

theorem Truthful.chain : d.chain = (path execution log).filter (Has d) := by
  refine chain_eq (path_ascending.filter _) (fun n id found => ?_) fun e mem => ?_
  · obtain ⟨e, mem, rfl, rfl, here⟩ := h.seq n id found
    exact ⟨e, mem_filter.2 ⟨mem, decide_eq_true ⟨found, here⟩⟩, rfl, here⟩
  · exact of_decide_eq_true (mem_filter.1 mem).2

/-- A chain with the events up to `m` and no others. -/
theorem Truthful.chain_take {m : Nat} (upTo : ∀ x ∈ path execution log, Has d x ↔ x.execSeq ≤ m) :
    d.chain = (path execution log).take m := by
  rw [h.chain, ← path_filter]
  exact filter_congr fun x mem => decide_eq_decide.2 (upTo x mem)

/-- A chain with the events up to `n`. -/
theorem Truthful.take_prefix_chain {n : Nat}
    (all : ∀ x ∈ path execution log, x.execSeq ≤ n → Has d x) :
    (path execution log).take n <+: d.chain := by
  have whole : ((path execution log).take n).filter (Has d) = (path execution log).take n := by
    refine filter_eq_self.2 fun x mem => decide_eq_true (all x (mem_of_mem_take mem) ?_)
    rw [← path_filter] at mem
    exact of_decide_eq_true (mem_filter.1 mem).2
  refine ⟨((path execution log).drop n).filter (Has d), ?_⟩
  rw [h.chain, ← whole, ← filter_append, take_append_drop]

end

theorem of_chainIfAuthoritative {c} (h : chainIfAuthoritative d = some c) :
    d.chain = c ∧ ∃ cov, d.cov = some cov ∧ d.chain.length = cov.2 := by
  rw [chainIfAuthoritative] at h
  split at h
  · rename_i root total _ cov
    split at h
    · cases h
    · split at h
      · cases h
      · rename_i same
        refine ⟨?_, (root, total), cov, not_not.1 same⟩
        split at h
        all_goals
          split at h
          all_goals cases h
          rfl
  · cases h

/-- An event of the log that follows the head has the next sequence. -/
theorem Truthful.next (h : Truthful (path execution log) d)
    (distinct : (log.map eventId).Nodup) (mem : e ∈ path execution log)
    (at_head : d.head.map Prod.snd = e.prevEventId) : e.execSeq = d.headSeq + 1 := by
  obtain ⟨i, here, seq⟩ := path_at mem
  have prev : e.prevEventId = prevAt log i ∧ i < log.length := by
    rw [path_getElem?] at here
    obtain ⟨want, at_i, rfl⟩ := Option.map_eq_some_iff.1 here
    exact ⟨rfl, (List.getElem?_eq_some_iff.1 at_i).1⟩
  rw [prev.1, prevAt] at at_head
  rw [seq, ExecutionKeys.headSeq]
  split at at_head
  · rename_i first
    rw [first, Option.map_eq_none_iff.1 at_head]
    rfl
  · have before : log[i - 1]? = some log[i - 1] := getElem?_eq_getElem (by omega)
    rw [before] at at_head
    obtain ⟨⟨n, id⟩, top, same⟩ := Option.map_eq_some_iff.1 at_head
    obtain ⟨y, stored, rfl, is, -⟩ := h.seq n id (h.head _ top)
    have last := @path_getElem? execution log (i - 1)
    rw [before] at last
    -- The head and the event before have the same id, so they are the same.
    have equal := (path_apart distinct).id y stored _ (mem_of_getElem? last) (is.trans same)
    rw [top, equal]
    simp only [Option.map_some, Option.getD_some]
    omega

theorem Kept.fits_next (h : Kept (path execution log) start d)
    (next : e.execSeq = d.headSeq + 1) : Joins (path execution log) d e := by
  intro c is
  rcases h.covered c is with all | ⟨m, upTo⟩
  · exact .inl all
  · refine .inr ⟨m, upTo, ?_⟩
    rw [next, ExecutionKeys.headSeq]
    cases top : d.head with
    | none => exact Nat.le_add_left _ _
    | some last =>
      obtain ⟨n, id⟩ := last
      have pointer := h.truthful.head _ top
      obtain ⟨y, stored, rfl, rfl, here⟩ := h.truthful.seq _ _ pointer
      exact Nat.succ_le_succ ((upTo y stored).1 ⟨pointer, here⟩)

section

variable (distinct : (log.map eventId).Nodup) (h : Kept (path execution log) start d)
  (mem : e ∈ path execution log)
include distinct h mem

theorem append_kept :
    Goes (Kept (path execution log) start) (DurableChainStore.append E e.executionId e.eventId
      e.prevEventId e.parentExecutionId e.payload).run (fun a d' =>
        Kept (path execution log) start d' ∧ Kept (path execution log) d d' ∧
        ∀ n, a = .ok n → Has d' e) d := by
  have self : Kept (path execution log) d d := ⟨h.truthful, h.covered, fun _ _ => id⟩
  refine append_rule h (fun err _ => ⟨h, self, nofun⟩) ?_
  rintro e' is - at_head -
  have next := h.truthful.next distinct mem at_head
  obtain rfl : e' = e := by rw [is, ← next]
  obtain ⟨first, second, third, has⟩ := h.writes (path_apart distinct) mem (h.fits_next next)
  obtain ⟨-, -, grown, -⟩ := self.writes (path_apart distinct) mem (h.fits_next next)
  exact ⟨first, second, third, third, grown, fun _ _ => has⟩

theorem populate_kept :
    Goes (Kept (path execution log) start) (ChainPopulator.populate E e.executionId e.eventId
      e.prevEventId e.parentExecutionId e.payload).run
      (fun _ d' => Kept (path execution log) start d') d := by
  have last {t : ExecutionKeys} {first seq next : Nat} (kept : Kept (path execution log) start t) :
      Goes (Kept (path execution log) start) (ExceptT.run (if seq ≠ next then do
          writeWatermark first seq
          pure seq
        else pure seq : KeyOp ChainError Nat))
          (fun _ d' => Kept (path execution log) start d') t := by
    split
    · exact bindExcept (goes_write kept.withMarks kept.withMarks)
    · exact kept
  have appended {t : ExecutionKeys} {first next : Nat} {unmarked : Bool}
      (kept : Kept (path execution log) start t) :
      Goes (Kept (path execution log) start) (ExceptT.run (do
        let seq ← DurableChainStore.append E e.executionId e.eventId e.prevEventId
          e.parentExecutionId e.payload
        if unmarked then writeWatermark first seq
        if seq ≠ next then writeWatermark first seq
        return seq : KeyOp ChainError Nat)) (fun _ d' => Kept (path execution log) start d') t := by
    refine bindExcept ((append_kept distinct kept mem).mono fun r t kept => ?_)
    cases r with
    | error err => exact kept.1
    | ok seq =>
      dsimp only
      split
      · exact bindExcept (goes_write kept.1.withMarks (last kept.1.withMarks))
      · exact last kept.1
  refine bindExcept (goes_read h ?_)
  refine bindExcept (goes_read h ?_)
  dsimp only
  split
  · exact bindExcept (goes_write h.withMarks (appended h.withMarks))
  · exact appended h

end

def Honest (d : ExecutionKeys) : Prop := ∀ c ∈ d.cov, c.2 ≤ d.chain.length

instance (d : ExecutionKeys) : Decidable (Honest d) := inferInstanceAs (Decidable (∀ _ ∈ _, _))

theorem Kept.fits_honest (h : Kept (path execution log) start d) (honest : Honest d) :
    Joins (path execution log) d e := by
  intro c is
  rcases h.covered c is with all | ⟨m, upTo⟩
  · exact .inl all
  · refine .inl fun x mem low => (upTo x mem).2 ?_
    have few := honest c is
    rw [h.truthful.chain_take upTo, length_take] at few
    omega

theorem populateReplicated_kept (distinct : (log.map eventId).Nodup)
    (h : Kept (path execution log) start d) (mem : e ∈ path execution log) (honest : Honest d) :
    Goes (Kept (path execution log) start) (ChainPopulator.populateReplicated e).run
      (fun _ d' => Kept (path execution log) start d') d := by
  have applied {wm : Option (Nat × Nat)} {Q : Except ChainError Unit → ExecutionKeys → Prop}
      (done : ∀ t, Kept (path execution log) start t → Q (.ok ()) t) :
      Goes (Kept (path execution log) start) (DurableChainStore.applyReplicated e).run Q
        { d with wm } := by
    have kept : Kept (path execution log) start { d with wm } := h.withMarks
    obtain ⟨first, second, third, -⟩ := kept.writes (path_apart distinct) mem (h.fits_honest honest)
    have final : Kept (path execution log) start (added { d with wm } e) := by
      rw [added]
      split
      · exact third
      · exact second
    exact applyReplicated_rule first second final (done _ final)
  have marked {t : ExecutionKeys} {first through : Nat} {unmarked : Bool}
      (kept : Kept (path execution log) start t) : Goes (Kept (path execution log) start)
        (ExceptT.run (if unmarked then writeWatermark first through else pure () :
          KeyOp ChainError Unit)) (fun _ d' => Kept (path execution log) start d') t := by
    split
    · exact goes_write kept.withMarks kept.withMarks
    · exact kept
  refine bindExcept (goes_read h ?_)
  dsimp only
  split
  · refine bindExcept (goes_write h.withMarks (bindExcept (applied fun t kept => ?_)))
    exact marked kept
  · exact bindExcept (applied fun t kept => marked kept)

theorem prefix_of_ids {R S T} (apart : Apart R) (left : ∀ x ∈ S, x ∈ R) (right : ∀ x ∈ T, x ∈ R)
    (h : S.map ChainEvent.eventId <+: T.map ChainEvent.eventId) : S <+: T := by
  induction S generalizing T with
  | nil => exact nil_prefix
  | cons x S ih =>
    cases T with
    | nil => exact absurd (prefix_nil.1 h) nofun
    | cons y T =>
      obtain ⟨same, rest⟩ := cons_prefix_cons.1 h
      obtain rfl := apart.id x (left x (by simp)) y (right y (by simp)) same
      exact cons_prefix_cons.2 ⟨rfl, ih (fun z mem => left z (.tail _ mem))
        (fun z mem => right z (.tail _ mem)) rest⟩

/-- A chain whose ids are the first of the log has its first events and no others. -/
theorem Truthful.upTo (h : Truthful (path execution log) d) (distinct : (log.map eventId).Nodup)
    (part : d.chain.map ChainEvent.eventId <+: log.map eventId) :
    ∀ x ∈ path execution log, Has d x ↔ x.execSeq ≤ d.chain.length := by
  have front : d.chain <+: path execution log := by
    refine prefix_of_ids (path_apart distinct) (fun x mem => ?_) (fun x mem => mem)
      (by rw [path_ids]; exact part)
    rw [h.chain] at mem
    exact (mem_filter.1 mem).1
  intro x mem
  have inChain : x ∈ d.chain ↔ Has d x := by
    rw [h.chain, mem_filter, decide_eq_true_eq]
    exact and_iff_right mem
  rw [← inChain, prefix_iff_eq_take.1 front, ← path_filter, mem_filter, decide_eq_true_eq]
  rw [path_filter, ← prefix_iff_eq_take.1 front]
  exact and_iff_right mem

theorem compare_ne_inSync {S} {storedLen logLen i n k : Nat} :
    ChainPopulator.compare storedLen logLen i S log ≠ some (.inSync n k) := by
  induction S generalizing log i with
  | nil => cases log <;> simp [ChainPopulator.compare]
  | cons known S ih =>
    cases log with
    | nil => simp [ChainPopulator.compare]
    | cons want log =>
      rw [ChainPopulator.compare]
      split
      · exact ih
      · simp

theorem writeCoverage_kept {Q : Except EhdbError Unit → ExecutionKeys → Prop} {root : String}
    {total : Nat} (h : Kept (path execution log) start d)
    (covered : (∀ x ∈ path execution log, x.execSeq ≤ total → Has d x) ∨
      ∃ m, ∀ x ∈ path execution log, Has d x ↔ x.execSeq ≤ m)
    (done : ∀ cov, Kept (path execution log) start { d with cov } → Q (.ok ()) { d with cov }) :
    Goes (Kept (path execution log) start) (ChainPopulator.writeCoverage root total).run Q d := by
  refine bindExcept (goes_read h ?_)
  dsimp only
  split
  · have kept : Kept (path execution log) start { d with cov := some (root, total) } := by
      refine ⟨⟨h.1.1, h.1.2, h.1.3⟩, ?_, h.3⟩
      rintro _ ⟨⟩
      exact covered
    exact goes_write kept (done _ kept)
  · exact done _ h

theorem populateFromLog_kept (distinct : (log.map eventId).Nodup)
    {events : List LogEvent} (h : Kept (path execution log) start d) (part : events <+: log) :
    Goes (Kept (path execution log) start)
      (populateFromLog E execution events).run (fun a d' =>
        Kept (path execution log) start d' ∧ ∀ n k, a = .ok (.inSync n k) →
          ∀ x ∈ path execution log, x.execSeq ≤ events.length → Has d' x) d := by
  have positive {x : ChainEvent} (mem : x ∈ path execution log) : 0 < x.execSeq := by
    obtain ⟨i, -, seq⟩ := path_at mem
    omega
  rw [populateFromLog]
  split
  · rename_i none
    obtain rfl : events = [] := head?_eq_none_iff.1 none
    refine bindExcept (goes_write h.withMarks (bindExcept (writeCoverage_kept h.withMarks
      (.inl fun x mem low => ?_) fun cov kept => ⟨kept, fun _ _ _ x mem low => ?_⟩)))
    all_goals exact absurd low (not_le.2 (positive mem))
  · rename_i root first
    refine bindExcept (goes_read h ?_)
    dsimp only
    split
    · refine bindExcept (goes_write ?_ ⟨?_, fun _ _ is => by cases is⟩)
      all_goals exact ⟨⟨h.1.1, h.1.2, h.1.3⟩, fun _ is => (by cases is), h.3⟩
    · rename_i verdict _ is
      refine ⟨h, ?_⟩
      rintro n k ⟨⟩
      exact absurd is compare_ne_inSync
    · rename_i same
      have front := prefix_of_compare same
      have upTo := h.truthful.upTo distinct (front.trans (part.map _))
      have low : d.chain.length ≤ events.length := by
        simpa using front.length_le
      refine bindExcept (writeCoverage_kept h (.inr ⟨_, upTo⟩) fun cov kept => ?_)
      refine bindExcept (appendEach_goes (fun j d' => Kept (path execution log) start d' ∧
        ∀ x ∈ path execution log, x.execSeq ≤ j → Has d' x) low
        ⟨kept, fun x mem few => (upTo x mem).2 few⟩ ?_ ?_)
      · rintro j want d' here ⟨kept', all⟩
        have all_front : path execution events <+: path execution log := by
          rw [prefix_iff_eq_take.1 part, path_take]
          exact take_prefix _ _
        have mem := all_front.subset (mem_of_getElem? (i := j) (by rw [path_getElem?, here]; rfl))
        refine (append_kept distinct kept' mem).mono fun r t after => ?_
        obtain ⟨kept'', grown, has⟩ := after
        cases r with
        | error err => exact ⟨kept'', fun _ _ is => by cases is⟩
        | ok n =>
          refine ⟨kept'', fun x other few => ?_⟩
          rcases Nat.lt_or_ge j x.execSeq with last | before
          · rw [(path_apart distinct).seq x other _ mem (by dsimp only; omega)]
            exact has n rfl
          · exact grown.more x other (all x other before)
      · rintro d' ⟨kept', all⟩
        exact bindExcept (goes_write kept'.withMarks ⟨kept'.withMarks, fun _ _ _ => all⟩)

end Calls

inductive PopulatorCall where
  | fromLog (events : List LogEvent)
  | populate (e : ChainEvent)
  | replicated (e : ChainEvent)

namespace PopulatorCall

def run (E : ChainEnv) (execution : String) :
    PopulatorCall → Prog ExecutionKeys Unit (Option FromLog)
  | fromLog events =>
    (populateFromLog E execution events).run.bind fun r => .ret r.toOption
  | populate e => (ChainPopulator.populate E e.executionId e.eventId e.prevEventId
      e.parentExecutionId e.payload).run.bind fun _ => .ret none
  | replicated e => (ChainPopulator.populateReplicated e).run.bind fun _ => .ret none

def Of (execution : String) (log : List LogEvent) : PopulatorCall → Prop
  | fromLog events => events <+: log
  | populate e => e ∈ path execution log
  | replicated e => e ∈ path execution log

/-- A replicated event may come when no more events are promised than are there. -/
def Safe : PopulatorCall → ExecutionKeys → Prop
  | replicated _, d => Honest d
  | _, _ => True

end PopulatorCall

section Runs

variable {E : ChainEnv} {execution : String} {log : List LogEvent} {d : ExecutionKeys}
  {past : List (PopulatorCall × Option (Option FromLog))}

def Synced (execution : String) (log : List LogEvent)
    (past : List (PopulatorCall × Option (Option FromLog))) (d : ExecutionKeys) : Prop :=
  ∀ events n k, (PopulatorCall.fromLog events, some (some (FromLog.inSync n k))) ∈ past →
    ∀ x ∈ path execution log, x.execSeq ≤ events.length → Has d x

theorem Synced.append {d' call answer}
    (h : Synced execution log past d) (more : ∀ x ∈ path execution log, Has d x → Has d' x)
    (last : Synced execution log [(call, answer)] d') :
    Synced execution log (past ++ [(call, answer)]) d' := by
  intro events n k mem x other low
  rcases mem_append.1 mem with old | new
  · exact more x other (h events n k old x other low)
  · exact last events n k new x other low

theorem PopulatorCall.run_kept (distinct : (log.map eventId).Nodup) {call}
    (h : Kept (path execution log) d d) (of : call.Of execution log) (safe : call.Safe d) :
    Goes (Kept (path execution log) d) (call.run E execution) (fun a d' =>
      Kept (path execution log) d d' ∧ Synced execution log [(call, some a)] d') d := by
  cases call with
  | fromLog events =>
    refine bind ((populateFromLog_kept distinct h of).mono fun a d' ⟨kept, all⟩ => ⟨kept, ?_⟩)
    intro events n k mem
    obtain ⟨⟨⟩, same⟩ := Prod.mk.inj (mem_singleton.1 mem)
    cases a with
    | error err => cases same
    | ok v =>
      cases same
      exact all n k rfl
  | populate e =>
    exact bind ((populate_kept distinct h of).mono fun a d' kept => ⟨kept, fun _ _ _ => by simp⟩)
  | replicated e =>
    exact bind ((populateReplicated_kept distinct h of safe).mono
      fun a d' kept => ⟨kept, fun _ _ _ => by simp⟩)

/-- Whatever the calls of a run and wherever they are stopped, if each replicated event comes when
no more events are promised than are there: a chain that the guarded read gives is the first part of
the log, with every snapshot that was answered with `InSync`. -/
theorem guarded_read_is_prefix (distinct : (log.map eventId).Nodup)
    (run : Rounds (PopulatorCall.run E execution) PopulatorCall.Safe (fun _ => True) {} past d)
    (of : ∀ x ∈ past, x.1.Of execution log) {c : List ChainEvent}
    (reads : chainIfAuthoritative d = some c) : c <+: path execution log ∧ ∀ events n k,
      (PopulatorCall.fromLog events, some (some (FromLog.inSync n k))) ∈ past →
      events.length ≤ c.length := by
  have holds : Kept (path execution log) d d ∧ Synced execution log past d := by
    refine run.keeps (fun past d => Kept (path execution log) d d ∧ Synced execution log past d)
      (fun _ call => call.Of execution log) ?_ ?_ ?_
    · exact ⟨⟨⟨nofun, nofun, nofun⟩, nofun, fun _ _ => id⟩, nofun⟩
    · rintro past d call ⟨kept, synced⟩ of safe
      have stop {d' : ExecutionKeys} (now : Kept (path execution log) d d') :
          Kept (path execution log) d' d' ∧ Synced execution log (past ++ [(call, none)]) d' :=
        ⟨⟨now.1, now.2, fun _ _ => id⟩, synced.append now.more fun _ _ _ => by simp⟩
      refine ⟨?_, fun _ => stop kept⟩
      refine ((PopulatorCall.run_kept distinct kept of safe).states fun d' now _ =>
        stop now).mono ?_
      rintro a d' ⟨now, last⟩
      exact ⟨⟨now.1, now.2, fun _ _ => id⟩, synced.append now.more last⟩
    · rintro front call answer back rfl
      exact of (call, answer) (by simp)
  obtain ⟨kept, synced⟩ := holds
  obtain ⟨rfl, cov, is, size⟩ := of_chainIfAuthoritative reads
  refine ⟨?_, fun events n k mem => ?_⟩
  · rcases kept.covered cov is with all | ⟨m, upTo⟩
    · have front := kept.truthful.take_prefix_chain all
      have few : d.chain.length ≤ (path execution log).length := by
        rw [kept.truthful.chain]
        exact length_filter_le _ _
      rw [← front.eq_of_length (by rw [length_take]; omega)]
      exact take_prefix _ _
    · rw [kept.truthful.chain_take upTo]
      exact take_prefix _ _
  · have front := kept.truthful.take_prefix_chain (synced events n k mem)
    have part : events <+: log := of _ mem
    have few := front.length_le
    rw [length_take, length_path, Nat.min_eq_left part.length_le] at few
    exact few

end Runs

def threeChained : List LogEvent := twoEvents ++ [⟨"c", none, "r", some "b"⟩]

def sampleEvent (n : Nat) : ChainEvent := (path "x" threeChained).getD n ⟨0, "", none, "", none, ""⟩

def withReplicated (d : ExecutionKeys) (e : ChainEvent) : ExecutionKeys :=
  ((PopulatorCall.replicated e).run sampleChains "x").after 100 d

theorem guarded_read_after_repeated_event :
    path "x" twoEvents <+: path "x" threeChained ∧
      twoEvents.length ≤ (path "x" twoEvents).length := by
  have synced : Rounds (PopulatorCall.run sampleChains "x") PopulatorCall.Safe (fun _ => True) {}
      [(.fromLog twoEvents, some (some (.inSync 2 2)))] (populations [twoEvents]) :=
    .answered .start trivial rfl
  have run : Rounds (PopulatorCall.run sampleChains "x") PopulatorCall.Safe (fun _ => True) {}
      [(.fromLog twoEvents, some (some (.inSync 2 2))), (.replicated (sampleEvent 1), some none)]
      (withReplicated (populations [twoEvents]) (sampleEvent 1)) :=
    .answered synced (by decide : Honest (populations [twoEvents])) rfl
  have of : ∀ x ∈ [(PopulatorCall.fromLog twoEvents, some (some (FromLog.inSync 2 2))),
      (.replicated (sampleEvent 1), some none)], x.1.Of "x" threeChained := by
    rintro x (_ | ⟨_, _ | ⟨_, ⟨⟩⟩⟩)
    · exact (by decide : twoEvents <+: threeChained)
    · exact (by decide : sampleEvent 1 ∈ path "x" threeChained)
  have reads := guarded_read_is_prefix (by decide) run of (by rfl)
  exact ⟨reads.1, reads.2 twoEvents 2 2 (by simp)⟩

/-- The population with the first two events is stopped after the first, and then the third is
replicated: the guarded read gives the first and the third. -/
theorem guarded_read_skips_event :
    chainIfAuthoritative (withReplicated (stoppedPopulation 7) (sampleEvent 2)) =
      some [sampleEvent 0, sampleEvent 2] ∧
    ¬[sampleEvent 0, sampleEvent 2] <+: path "x" threeChained := by
  decide

end Ehdb.Theorems
