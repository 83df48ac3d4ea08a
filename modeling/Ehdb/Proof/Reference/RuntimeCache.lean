import Ehdb.Proof.Reference.Sessions
import Ehdb.Reference.RuntimeCache

/-! While no runtime is opened as long as a call has one, all calls have the same runtime, and it is
the one that the records of the file build. -/

namespace Ehdb.Proof.Reference

open ProofKit Ehdb.Reference Transaction Journal List
open LocalReferenceRuntime (append appendBatch openRuntime)

variable {O D : Type} {G : Engines O D} {cacheOn : Bool} {file : LogFile O}
  {t t' : RuntimeTable O D} {slot : Nat}

inductive RuntimeStage where
  | out
  | has (slot : Nat)

/-- What one step of a call does to the table of cached runtimes. -/
inductive RuntimeStep (G : Engines O D) (cacheOn : Bool) (i : Nat) :
    RuntimeTable O D → RuntimeStage → RuntimeTable O D → RuntimeStage → Prop
  | stay (t : RuntimeTable O D) (l : RuntimeStage) : RuntimeStep G cacheOn i t l t l
  | acquire {t t' : RuntimeTable O D} {slot} (h : t.acquire G cacheOn i = .ok (slot, t')) :
      RuntimeStep G cacheOn i t .out t' (.has slot)
  | lock {t t' : RuntimeTable O D} {slot} (h : t.lock slot = some t') :
      RuntimeStep G cacheOn i t (.has slot) t' (.has slot)
  | append {t t' : RuntimeTable O D} {slot request result}
      (h : t.perform slot (append G request) (fun record => [record]) =
        some (result, t')) : RuntimeStep G cacheOn i t (.has slot) t' (.has slot)
  | appendBatch {t t' : RuntimeTable O D} {slot requests result}
      (h : t.perform slot (appendBatch G requests) id = some (result, t')) :
      RuntimeStep G cacheOn i t (.has slot) t' (.has slot)
  | leave (t : RuntimeTable O D) (slot : Nat) :
      RuntimeStep G cacheOn i t (.has slot) (t.leave i slot) .out
  | evict (t : RuntimeTable O D) : RuntimeStep G cacheOn i t .out t.evict .out

def runtimeProtocol (G : Engines O D) (cacheOn : Bool) :
    Protocol (RuntimeTable O D) (RuntimeCall O D) (Result Unit) RuntimeStage where
  start _ := .out
  next := RuntimeStep G cacheOn
  done _ _ _ := True

theorem follows_closure (i : Nat) (f : Closure O D) :
    Follows (RuntimeStep G cacheOn i) (f.run G slot) (fun _ l => l = .has slot) (.has slot) := by
  induction f with
  | done => exact rfl
  | look next ih =>
    refine .bind (.lift ?_)
    intro _ t runtime t' looked
    obtain ⟨entry, -, is⟩ := Option.map_eq_some_iff.1 looked
    cases is
    exact ⟨_, .stay t _, ih _⟩
  | append req next ih =>
    exact .bind (.lift fun _ _ result _ performed =>
      ⟨_, .append performed, ih result⟩)
  | appendBatch requests next ih =>
    exact .bind (.lift fun _ _ result _ performed =>
      ⟨_, .appendBatch performed, ih result⟩)

theorem follows_runtime (i : Nat) (call : RuntimeCall O D) :
    Follows ((runtimeProtocol G cacheOn).next i) ((runtimeService G cacheOn).program i call)
      ((runtimeProtocol G cacheOn).done call) ((runtimeProtocol G cacheOn).start call) := by
  have evicts : Follows (RuntimeStep G cacheOn i)
      (onTable (fun t => some ((), t.evict)) >>= fun _ => pure (.ok ()) :
        RuntimeProg O D (Result Unit)) (fun _ _ => True) .out :=
    .bind (.lift fun _ t _ t' is => by
      cases is
      exact ⟨_, .evict t, trivial⟩)
  cases call with
  | withRuntime f =>
    refine .bind (.lift fun _ t found t' acquired => ?_)
    dsimp only at acquired
    cases is : t.acquire G cacheOn i with
    | error e =>
      rw [is] at acquired
      cases acquired
      exact ⟨_, .stay t _, trivial⟩
    | ok held =>
      obtain ⟨slot, t''⟩ := held
      rw [is] at acquired
      cases acquired
      refine ⟨_, .acquire is, .bind (.lift fun _ t _ t' locked => ?_)⟩
      obtain ⟨t'', locked, is⟩ := Option.map_eq_some_iff.1 locked
      cases is
      refine ⟨_, .lock locked, .bind ((follows_closure i f).mono ?_)⟩
      rintro _ _ rfl
      refine .bind (.lift fun _ t _ t' left => ?_)
      cases left
      exact ⟨_, .leave t slot, trivial⟩
  | forgetRuntime => exact evicts
  | invalidateCachedRuntime => exact evicts

variable {runtime : LocalReferenceRuntime O D} {requests : List (CommitTransaction (Mutation O))}

theorem commitAll_takesAll {runtime' records}
    (h : commitAll G runtime requests = .ok (records, runtime')) :
    TakesAll G runtime records runtime' := by
  induction requests generalizing runtime records with
  | nil =>
    cases h
    exact .nil
  | cons req requests ih =>
    obtain ⟨⟨record, next⟩, first, h⟩ := bind_eq_ok h
    obtain ⟨⟨records', last⟩, rest, h⟩ := bind_eq_ok h
    cases h
    exact .cons (commitOn_eq_ok first).2 (ih rest)

/-- The records are on file and in the runtime of the slot, which replays the file. -/
structure Performed (G : Engines O D) (t : RuntimeTable O D) (slot : Nat) (t' : RuntimeTable O D) :
    Prop where
  more : ∃ new runtime locked, t'.file = t.file ++ new ∧ t'.returned = t.returned ++ new ∧
    Replays G t'.file runtime ∧ t'.slots[slot]? = some ⟨runtime, locked⟩
  cached : t'.cached = t.cached
  holders : t'.holders = t.holders
  overlapped : t'.overlapped = t.overlapped

variable {α : Type} {task : RuntimeTask O D α} {records : α → List (LogRecord O)}
  {result : Result α}

theorem perform_of_outcome {result' entry} (new : List (LogRecord O))
    (found : t.slots[slot]? = some entry)
    (outcome : task.outcome () entry.runtime t.file = some ((result', runtime), t.file ++ new))
    (is_new : (result'.toOption.map records).getD [] = new)
    (replays : Replays G (t.file ++ new) runtime)
    (h : t.perform slot task records = some (result, t')) : Performed G t slot t' := by
  unfold RuntimeTable.perform at h
  rw [found] at h
  simp only [Option.bind_eq_bind, Option.bind_some,
    show (task.exec entry.runtime).eval () t.file = _ from outcome] at h
  cases h
  refine ⟨⟨new, runtime, entry.locked, rfl, ?_, replays, ?_⟩, rfl, rfl, rfl⟩
  · rw [is_new]
  · exact List.getElem?_set_self (List.getElem?_eq_some_iff.1 found).1

theorem performed_append {locked req result} (replays : Replays G t.file runtime)
    (found : t.slots[slot]? = some ⟨runtime, locked⟩)
    (h : t.perform slot (append G req) (fun record => [record]) = some (result, t')) :
    Performed G t slot t' := by
  have outcome := outcome_append (G := G) runtime t.file req
  cases committed : commitOn G runtime req with
  | error e =>
    rw [committed] at outcome
    exact perform_of_outcome [] found (by rw [append_nil]; exact outcome) rfl
      (by rwa [append_nil]) h
  | ok after =>
    rw [committed] at outcome
    exact perform_of_outcome _ found outcome rfl (replays.takes (commitOn_eq_ok committed).2) h

theorem performed_appendBatch {locked requests result} (replays : Replays G t.file runtime)
    (found : t.slots[slot]? = some ⟨runtime, locked⟩)
    (h : t.perform slot (appendBatch G requests) id = some (result, t')) :
    Performed G t slot t' := by
  by_cases none : requests = []
  · subst none
    exact perform_of_outcome [] found (by rw [append_nil]; rfl) rfl (by rwa [append_nil]) h
  have outcome := outcome_appendBatch (G := G) runtime t.file none
  cases committed : commitBatchOn G runtime requests with
  | error e =>
    rw [committed] at outcome
    exact perform_of_outcome [] found (by rw [append_nil]; exact outcome) rfl
      (by rwa [append_nil]) h
  | ok after =>
    rw [committed] at outcome
    exact perform_of_outcome _ found outcome rfl
      (replays.takesAll (commitAll_takesAll (commitAll_of_batch committed))) h

def InUse (t : RuntimeTable O D) (slot : Nat) : Prop :=
  t.cached = some slot ∨ ∃ i, (i, slot) ∈ t.holders

/-- The file is what it was and the records that were returned, and the one runtime in use is what
its records build. -/
structure Orderly (G : Engines O D) (cacheOn : Bool) (file : LogFile O) (t : RuntimeTable O D) :
    Prop where
  file : t.file = file ++ t.returned
  live : ∃ runtime, Replays G t.file runtime ∧
    ∀ slot, InUse t slot → ∃ locked, t.slots[slot]? = some ⟨runtime, locked⟩
  single : ∀ slot slot', InUse t slot → InUse t slot' → slot = slot'
  uncached : cacheOn = false → t.cached = none

def HasSlot (t : RuntimeTable O D) (i : Nat) : RuntimeStage → Prop
  | .out => True
  | .has slot => (i, slot) ∈ t.holders

theorem HasSlot.mono {i l} (h : HasSlot t i l)
    (more : ∀ slot, (i, slot) ∈ t.holders → (i, slot) ∈ t'.holders) : HasSlot t' i l := by
  cases l with
  | out => trivial
  | has slot => exact more slot h

variable {i : Nat}

theorem openFor_orderly (h : t.openFor G i = .ok (slot, t')) (calm : t'.overlapped = false)
    (orderly : Orderly G cacheOn file t) (uncached : t.cached = none) :
    t'.cached = none ∧ t'.file = file ++ t'.returned ∧ t'.holders = [(i, slot)] ∧ t.holders = [] ∧
      ∃ runtime, Replays G t'.file runtime ∧ t'.slots[slot]? = some ⟨runtime, false⟩ := by
  obtain ⟨runtime, opened, h⟩ := bind_eq_ok h
  cases h
  simp only [Bool.or_eq_false_iff, Bool.not_eq_false'] at calm
  have none : t.holders = [] := isEmpty_iff.1 calm.2
  exact ⟨uncached, orderly.file, by simp [none], none, runtime, (openRuntime_iff.1 opened).2,
    by simp⟩

theorem InUse.of_sub (cached : t'.cached = none ∨ t'.cached = t.cached)
    (holders : ∀ entry ∈ t'.holders, entry ∈ t.holders) (uses : InUse t' slot) : InUse t slot := by
  rcases uses with is | ⟨i, mem⟩
  · rcases cached with none | same
    · rw [none] at is
      cases is
    · exact .inl (same ▸ is)
  · exact .inr ⟨i, holders _ mem⟩

theorem Orderly.of_sub (orderly : Orderly G cacheOn file t) (same_file : t'.file = t.file)
    (same_returned : t'.returned = t.returned)
    (slots : ∀ (slot : Nat) (runtime : LocalReferenceRuntime O D) (locked : Bool),
      t.slots[slot]? = some ⟨runtime, locked⟩ → ∃ locked',
        t'.slots[slot]? = some ⟨runtime, locked'⟩)
    (cached : t'.cached = none ∨ t'.cached = t.cached)
    (holders : ∀ entry ∈ t'.holders, entry ∈ t.holders) : Orderly G cacheOn file t' where
  file := by rw [same_file, same_returned, orderly.file]
  live := by
    obtain ⟨runtime, replays, in_step⟩ := orderly.live
    refine ⟨runtime, same_file ▸ replays, fun slot uses => ?_⟩
    obtain ⟨locked, found⟩ := in_step slot (uses.of_sub cached holders)
    exact slots slot runtime locked found
  single slot slot' uses uses' :=
    orderly.single slot slot' (uses.of_sub cached holders) (uses'.of_sub cached holders)
  uncached off := by
    rcases cached with none | same
    · exact none
    · rw [same, orderly.uncached off]

variable {l : RuntimeStage}

theorem Orderly.of_sole {locked} (is_file : t.file = file ++ t.returned)
    (replays : Replays G t.file runtime) (found : t.slots[slot]? = some ⟨runtime, locked⟩)
    (only : ∀ slot', InUse t slot' → slot' = slot) (uncached : cacheOn = false → t.cached = none) :
    Orderly G cacheOn file t where
  file := is_file
  live := ⟨runtime, replays, fun slot' uses => ⟨locked, only slot' uses ▸ found⟩⟩
  single one other uses uses' := (only one uses).trans (only other uses').symm
  uncached := uncached

theorem Performed.orderly (done : Performed G t slot t') (orderly : Orderly G cacheOn file t)
    (uses : InUse t slot) : Orderly G cacheOn file t' := by
  obtain ⟨new, runtime, locked, is_file, is_returned, replays, found⟩ := done.more
  have same (slot' : Nat) (uses' : InUse t' slot') : slot' = slot := by
    refine orderly.single slot' slot (uses'.of_sub (.inr done.cached) ?_) uses
    exact fun entry mem => done.holders ▸ mem
  refine .of_sole ?_ replays found same (done.cached ▸ orderly.uncached)
  rw [is_file, is_returned, orderly.file, append_assoc]

theorem acquire_orderly (h : t.acquire G cacheOn i = .ok (slot, t')) (calm : t'.overlapped = false)
    (orderly : Orderly G cacheOn file t) : Orderly G cacheOn file t' ∧ (i, slot) ∈ t'.holders ∧
      ∀ entry ∈ t.holders, entry ∈ t'.holders := by
  -- A runtime that was opened just now is the only one in use.
  have fresh {t'' : RuntimeTable O D} (opened : t.openFor G i = .ok (slot, t''))
      (calm : t''.overlapped = false) (uncached : t.cached = none)
      (cached : t'.cached = none ∧ cacheOn = false ∨ t'.cached = some slot ∧ cacheOn = true)
      (same_file : t'.file = t''.file) (same_returned : t'.returned = t''.returned)
      (same_slots : t'.slots = t''.slots) (same_holders : t'.holders = t''.holders) :
      Orderly G cacheOn file t' ∧ (i, slot) ∈ t'.holders ∧
        ∀ entry ∈ t.holders, entry ∈ t'.holders := by
    obtain ⟨-, is_file, holders, none, runtime, replays, found⟩ :=
      openFor_orderly opened calm orderly uncached
    have only (slot' : Nat) (uses : InUse t' slot') : slot' = slot := by
      rcases uses with is | ⟨j, mem⟩
      · rcases cached with ⟨none, -⟩ | ⟨some, -⟩
        · rw [none] at is
          cases is
        · rw [some] at is
          cases is
          rfl
      · rw [same_holders, holders, mem_singleton] at mem
        cases mem
        rfl
    refine ⟨.of_sole (by rw [same_file, same_returned, is_file]) (same_file ▸ replays)
      (same_slots ▸ found) only fun off => ?_, by simp [same_holders, holders], by simp [none]⟩
    rcases cached with ⟨none, -⟩ | ⟨-, on⟩
    · exact none
    · rw [off] at on
      cases on
  unfold RuntimeTable.acquire at h
  cases cacheOn with
  | false =>
    have uncached := orderly.uncached rfl
    have still := (openFor_orderly h calm orderly uncached).1
    exact fresh h calm uncached (.inl ⟨still, rfl⟩) rfl rfl rfl rfl
  | true =>
    unfold RuntimeTable.lookup at h
    cases cached : t.cached with
    | some known =>
      rw [cached] at h
      cases h
      have sub : ∀ slot', InUse (t.hold i slot) slot' → InUse t slot' := by
        rintro slot' (is | ⟨j, mem⟩)
        · exact .inl is
        · rcases mem_cons.1 mem with is | old
          · cases is
            exact .inl cached
          · exact .inr ⟨j, old⟩
      obtain ⟨runtime, replays, in_step⟩ := orderly.live
      refine ⟨⟨orderly.file, ⟨runtime, replays, fun slot' uses => in_step slot' (sub slot' uses)⟩,
        fun one other uses uses' => orderly.single one other (sub one uses) (sub other uses'),
        nofun⟩, mem_cons_self, fun _ mem => .tail _ mem⟩
    | none =>
      rw [cached] at h
      obtain ⟨⟨slot', t''⟩, opened, h⟩ := bind_eq_ok h
      cases h
      exact fresh opened calm cached (.inr ⟨rfl, rfl⟩) rfl rfl rfl rfl

theorem perform_overlapped (h : t.perform slot task records = some (result, t')) :
    t'.overlapped = t.overlapped := by
  obtain ⟨entry, -, h⟩ := Option.bind_eq_some_iff.1 h
  obtain ⟨⟨⟨_, _⟩, _⟩, -, h⟩ := Option.bind_eq_some_iff.1 h
  cases h
  rfl

theorem lock_eq_some (h : t.lock slot = some t') :
    ∃ runtime, t.slots[slot]? = some ⟨runtime, false⟩ ∧
      t' = { t with slots := t.slots.set slot ⟨runtime, true⟩ } := by
  unfold RuntimeTable.lock at h
  split at h
  · rename_i runtime found
    cases h
    exact ⟨runtime, found, rfl⟩
  · cases h

variable {l' : RuntimeStage}

theorem RuntimeStep.overlapped (step : RuntimeStep G cacheOn i t l t' l')
    (calm : t'.overlapped = false) : t.overlapped = false := by
  have opened {t'' : RuntimeTable O D} {slot : Nat} (h : t.openFor G i = .ok (slot, t''))
      (calm : t''.overlapped = false) : t.overlapped = false := by
    obtain ⟨runtime, -, h⟩ := bind_eq_ok h
    cases h
    exact (Bool.or_eq_false_iff.1 calm).1
  cases step with
  | stay => exact calm
  | acquire h =>
    unfold RuntimeTable.acquire at h
    split at h
    · unfold RuntimeTable.lookup at h
      split at h
      · cases h
        exact calm
      · obtain ⟨⟨slot', t''⟩, is, h⟩ := bind_eq_ok h
        cases h
        exact opened is calm
    · exact opened h calm
  | lock h =>
    obtain ⟨runtime, -, rfl⟩ := lock_eq_some h
    exact calm
  | append h => exact perform_overlapped h ▸ calm
  | appendBatch h => exact perform_overlapped h ▸ calm
  | leave => exact calm
  | evict => exact calm

theorem RuntimeStep.orderly (step : RuntimeStep G cacheOn i t l t' l')
    (calm : t'.overlapped = false) (orderly : Orderly G cacheOn file t) (own : HasSlot t i l) :
    Orderly G cacheOn file t' ∧ HasSlot t' i l' ∧
      ∀ {j} {_ : RuntimeCall O D} {m}, j ≠ i → HasSlot t j m → HasSlot t' j m := by
  have in_use {slot : Nat} (own : (i, slot) ∈ t.holders) :
      ∃ runtime locked, Replays G t.file runtime ∧ t.slots[slot]? = some ⟨runtime, locked⟩ := by
    obtain ⟨runtime, replays, in_step⟩ := orderly.live
    obtain ⟨locked, found⟩ := in_step slot (.inr ⟨i, own⟩)
    exact ⟨runtime, locked, replays, found⟩
  have performed {slot : Nat} (done : Performed G t slot t') (own : (i, slot) ∈ t.holders) :
      Orderly G cacheOn file t' ∧ (i, slot) ∈ t'.holders ∧
        ∀ {j} {_ : RuntimeCall O D} {m}, j ≠ i → HasSlot t j m → HasSlot t' j m :=
    ⟨done.orderly orderly (.inr ⟨i, own⟩), done.holders ▸ own,
      fun _ other => other.mono fun _ => done.holders ▸ id⟩
  cases step with
  | stay => exact ⟨orderly, own, fun _ other => other⟩
  | acquire h =>
    obtain ⟨after, mine, more⟩ := acquire_orderly h calm orderly
    exact ⟨after, mine, fun _ other => other.mono fun _ => more _⟩
  | @lock _ slot h =>
    obtain ⟨runtime, found, rfl⟩ := lock_eq_some h
    refine ⟨orderly.of_sub rfl rfl (fun slot' runtime' locked' is => ?_) (.inr rfl) (fun _ => id),
      own, fun _ other => other.mono fun _ => id⟩
    by_cases same : slot = slot'
    · subst same
      rw [found] at is
      cases is
      exact ⟨true, List.getElem?_set_self (List.getElem?_eq_some_iff.1 found).1⟩
    · rw [List.getElem?_set_ne same]
      exact ⟨locked', is⟩
  | append h =>
    obtain ⟨runtime, locked, replays, found⟩ := in_use own
    exact performed (performed_append replays found h) own
  | appendBatch h =>
    obtain ⟨runtime, locked, replays, found⟩ := in_use own
    exact performed (performed_appendBatch replays found h) own
  | leave slot =>
    refine ⟨orderly.of_sub rfl rfl (fun slot' runtime locked is => ?_) (.inr rfl)
      fun entry mem => (mem_filter.1 mem).1, trivial,
      fun differ other => other.mono fun slot' mem => mem_filter.2 ⟨mem, by simp [differ]⟩⟩
    show ∃ locked', (t.slots.modify slot _)[slot']? = some ⟨runtime, locked'⟩
    rw [getElem?_modify, is]
    split
    · exact ⟨false, rfl⟩
    · exact ⟨locked, rfl⟩
  | evict =>
    exact ⟨orderly.of_sub rfl rfl (fun _ _ locked is => ⟨locked, is⟩) (.inl rfl) (fun _ => id),
      trivial, fun _ other => other.mono fun _ => id⟩

theorem keeps_runtime : (runtimeProtocol G cacheOn).Keeps (runtimeService G cacheOn)
    (fun t => t.overlapped = false) (fun t _ => Orderly G cacheOn file t)
    (fun t i _ l => HasSlot t i l) where
  call _ orderly := ⟨orderly, trivial⟩
  act step calm := ⟨RuntimeStep.overlapped step calm,
    fun _ orderly own => RuntimeStep.orderly step calm orderly own⟩
  drop calm := ⟨calm, fun orderly _ =>
    ⟨orderly.of_sub rfl rfl (fun _ _ locked is => ⟨locked, is⟩) (.inr rfl) fun _ => id,
      fun _ other => other.mono fun _ => id⟩⟩
  world e := nomatch e

end Ehdb.Proof.Reference
