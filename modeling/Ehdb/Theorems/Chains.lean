import Ehdb.Proof.Chain

/-! What the populator makes of the log of an execution. An append writes the event, its pointer and
the head one after the other; the next population needs all three or none. -/

namespace Ehdb.Theorems

open L0 ProofKit Proof.Chain List
open ChainPopulator (chainIfAuthoritative populateFromLog)

variable {E : ChainEnv} {execution : String} {log : List LogEvent} {d : ExecutionKeys}

/-- What growing snapshots of a log leave: some first events of it, no more than the snapshots had.
-/
def Resumable (execution : String) (log : List LogEvent)
    (past : List (List LogEvent × Option (Result FromLog))) (d : ExecutionKeys) : Prop :=
  ∃ k, Stored ((path execution log).take k) d ∧
    ∀ n, (∀ x ∈ past, x.1.length ≤ n) → k ≤ n ∧ ∀ c, d.cov = some c → c.2 ≤ n

variable {events : List LogEvent}

theorem take_of_front (h : events <+: log) {j : Nat} (low : j ≤ events.length) :
    (path execution events).take j = (path execution log).take j := by
  rw [prefix_iff_eq_take.1 h, path_take, take_take, Nat.min_eq_left low]

variable {past : List (List LogEvent × Option (Result FromLog))}

theorem populateFromLog_resumable (valid : Valid E execution log)
    (resumable : Resumable execution log past d) (part : events <+: log)
    (longest : ∀ x ∈ past, x.1.length ≤ events.length) :
    Goes (fun d' => Whole d' → Resumable execution log (past ++ [(events, none)]) d')
      (populateFromLog E execution events).run
      (fun a d' => Resumable execution log (past ++ [(events, some a)]) d' ∧
        ∃ n, a = .ok (.inSync events.length n) ∧
          chainIfAuthoritative d' = some (path execution events)) d := by
  obtain ⟨k, stored, bounds⟩ := resumable
  obtain ⟨low, older⟩ := bounds _ longest
  have size (answer : Option (Result FromLog)) {n : Nat}
      (all : ∀ x ∈ past ++ [(events, answer)], x.1.length ≤ n) : events.length ≤ n :=
    all (events, answer) (by simp)
  -- The keys with the first events of the snapshot and no longer coverage.
  have kept (answer : Option (Result FromLog)) {j : Nat} {d' : ExecutionKeys}
      (inside : j ≤ events.length) (stored' : Stored ((path execution events).take j) d')
      (cov : ∀ c, d'.cov = some c → c.2 ≤ events.length) :
      Resumable execution log (past ++ [(events, answer)]) d' :=
    ⟨j, take_of_front part inside ▸ stored', fun n all =>
      ⟨inside.trans (size answer all), fun c is => (cov c is).trans (size answer all)⟩⟩
  have stored' : Stored ((path execution events).take k) d := (take_of_front part low).symm ▸ stored
  have valid' : Valid E execution events := prefix_iff_eq_take.1 part ▸ valid.take _
  cases first : events.head? with
  | none =>
    obtain rfl : events = [] := head?_eq_none_iff.1 first
    obtain rfl : k = 0 := Nat.le_zero.1 low
    have marked {cov : Option (String × Nat)} : Stored ((path execution []).take 0)
        { d with wm := some (0, 0), cov } := ⟨stored'.1, stored'.2, stored'.3, stored'.4, stored'.5⟩
    refine populateFromLog_nil_goes (fun _ => kept none le_rfl marked older) fun cov is => ?_
    rcases is with ⟨rfl, c, is, some⟩ | rfl
    · exact absurd (older c is) (not_le.2 some)
    · have none_longer : ∀ c : String × Nat, some ("", 0) = some c → c.2 ≤ 0 := by
        rintro c ⟨⟩
        exact le_rfl
      exact ⟨fun _ => kept none le_rfl marked none_longer, kept _ le_rfl marked none_longer, 0, rfl,
        chainIfAuthoritative_nil marked rfl rfl⟩
  | some root =>
    refine populateFromLog_goes valid' first low stored' older
      (fun _ => kept none low stored' older)
      (fun d' partly whole => absurd whole partly) (fun j d' _ inside grown cov _ _ => ?_) ?_
    · exact kept none inside grown fun c is => by rw [cov] at is; cases is; exact le_rfl
    · intro d' grown cov wm
      have all : Stored ((path execution events).take events.length) d' := by
        rw [take_of_length_le (by rw [length_path])]
        exact grown
      have covered : ∀ c, d'.cov = some c → c.2 ≤ events.length := fun c is => by
        rw [cov] at is; cases is; exact le_rfl
      exact ⟨fun _ => kept none le_rfl all covered, kept _ le_rfl all covered, _, rfl,
        chainIfAuthoritative_path grown first cov wm⟩

/-- In every run of populations with growing first parts of a log, in which no call is stopped
between the write of an event and that of the head: a population with the whole log that is not
stopped ends in sync, and the guarded read then gives the chain of the log. -/
theorem population_resumes (valid : Valid E execution log) (run : Rounds (fun events =>
    (populateFromLog E execution events).run) (fun _ _ => True) Whole {} past d)
    (parts : ∀ x ∈ past, x.1 <+: log) (growing : past.Pairwise fun a b => a.1.length ≤ b.1.length) :
    ∃ n d', (populateFromLog E execution log).run.eval () d =
      some (.ok (.inSync log.length n), d') ∧
      chainIfAuthoritative d' = some (path execution log) := by
  have resumable : Resumable execution log past d := by
    refine run.keeps (Resumable execution log)
      (fun front call => call <+: log ∧ ∀ x ∈ front, x.1.length ≤ call.length) ?_ ?_ ?_
    · exact ⟨0, stored_nil, fun n _ => ⟨Nat.zero_le n, nofun⟩⟩
    · rintro front t call before ⟨part, longest⟩ -
      refine ⟨(populateFromLog_resumable valid before part longest).mono fun a t' h => h.1,
        fun _ => ?_⟩
      obtain ⟨k, stored, bounds⟩ := before
      exact ⟨k, stored, fun n all => bounds n fun x mem => all x (mem_append_left _ mem)⟩
    · rintro front call answer back rfl
      refine ⟨parts (call, answer) (by simp), fun x mem => ?_⟩
      exact (pairwise_append.1 growing).2.2 x mem (call, answer) (by simp)
  obtain ⟨a, d', ends, -, n, rfl, reads⟩ :=
    (populateFromLog_resumable valid resumable (prefix_refl log)
      fun x mem => (parts x mem).length_le).eval
  exact ⟨n, d', ends, reads⟩

def sampleChains : ChainEnv := ⟨id, fun id => id.getD ""⟩

def twoEvents : List LogEvent := [⟨"a", none, "p", none⟩, ⟨"b", none, "q", some "a"⟩]

def stoppedPopulation (n : Nat) : ExecutionKeys :=
  (populateFromLog sampleChains "x" twoEvents).run.after n {}

theorem population_resumes_between_appends :
    ∃ n d', (populateFromLog sampleChains "x" twoEvents).run.eval ()
      (stoppedPopulation 7) = some (.ok (.inSync 2 n), d') ∧
      chainIfAuthoritative d' = some (path "x" twoEvents) := by
  have valid : Valid sampleChains "x" twoEvents := ⟨by decide, by decide, by decide⟩
  have run : Rounds (fun events => (populateFromLog sampleChains "x" events).run)
      (fun _ _ => True) Whole {} [(twoEvents, none)] (stoppedPopulation 7) :=
        .stopped .start trivial (by decide)
  exact population_resumes valid run (by simp) (by simp)

/-- A stop between the write of an event and that of its pointer or of the head: the next population
fails, on the event that is there already or on the head that is not. -/
theorem population_sticks_inside_append : ((populateFromLog sampleChains "x" twoEvents).run.eval ()
      (stoppedPopulation 5)).map Prod.fst = some (.error (.storage
        "event a already exists in execution x: an event key is write-once")) ∧
    ((populateFromLog sampleChains "x" twoEvents).run.eval ()
      (stoppedPopulation 6)).map Prod.fst = some (.error (.storage
        "append to execution x out of order: head is , append claims predecessor a")) := by
  decide

def Marked (events : List LogEvent) (d : ExecutionKeys) : Prop :=
  match events.head? with
  | none => d.cov = some ("", 0) ∧ d.wm = some (0, 0)
  | some root => d.cov = some (root.eventId, events.length) ∧ d.wm = some (1, events.length)

theorem Marked.reads (marked : Marked events d) (stored : Stored (path execution events) d) :
    chainIfAuthoritative d = some (path execution events) := by
  unfold Marked at marked
  split at marked
  · rename_i none
    obtain rfl := head?_eq_none_iff.1 none
    exact chainIfAuthoritative_nil stored marked.1 marked.2
  · rename_i root first
    exact chainIfAuthoritative_path stored first marked.1 marked.2

structure Latest (execution : String) (log : List LogEvent)
    (past : List (List LogEvent × Option (Result FromLog))) (latest : List LogEvent)
    (d : ExecutionKeys) : Prop where
  part : latest <+: log
  stored : Stored (path execution latest) d
  longest : ∀ x ∈ past, x.1 <+: latest
  marks : past = [] ∧ latest = [] ∧ d.cov = none ∨ (∃ x ∈ past, x.1 = latest) ∧ Marked latest d

theorem populateFromLog_latest {latest I}
    (any : ∀ d', I d') (valid : Valid E execution log) (h : Latest execution log past latest d)
    (part : events <+: log) (filled : ∀ x ∈ past, x.1 ≠ [] → events ≠ []) :
    Goes I (populateFromLog E execution events).run
      (fun a d' => (∃ v, a = .ok v ∧ ∀ i known want, v ≠ .diverged i known want) ∧
        ∃ latest', Latest execution log (past ++ [(events, some a)]) latest' d') d := by
  have covered : ∀ c, d.cov = some c → c.2 ≤ latest.length := by
    intro c is
    rcases h.marks with ⟨-, -, none⟩ | ⟨-, marked⟩
    · rw [none] at is
      cases is
    · unfold Marked at marked
      split at marked
      all_goals
        rw [marked.1] at is
        cases is
      · exact Nat.zero_le _
      · exact le_rfl
  -- The new snapshot is the longest one.
  have newest {answer : Option (Result FromLog)} {d' : ExecutionKeys} (longer : latest <+: events)
      (stored : Stored (path execution events) d') (marked : Marked events d') :
      Latest execution log (past ++ [(events, answer)]) events d' := by
    refine ⟨part, stored, fun x mem => ?_, .inr ⟨⟨(events, answer), by simp, rfl⟩, marked⟩⟩
    rcases mem_append.1 mem with old | new
    · exact (h.longest x old).trans longer
    · exact mem_singleton.1 new ▸ prefix_refl _
  cases first : events.head? with
  | none =>
    obtain rfl : events = [] := head?_eq_none_iff.1 first
    have nothing : latest = [] := by
      rcases h.marks with ⟨-, empty, -⟩ | ⟨⟨x, mem, rfl⟩, -⟩
      · exact empty
      · by_contra some
        exact filled x mem some rfl
    subst nothing
    refine populateFromLog_nil_goes (any _) fun cov is =>
      ⟨any _, ⟨_, rfl, fun _ _ _ is => by cases is⟩, [], ?_⟩
    rcases is with ⟨rfl, c, is, some⟩ | rfl
    · exact absurd (covered c is) (not_le.2 some)
    · exact newest (prefix_refl _)
        ⟨h.stored.1, h.stored.2, h.stored.3, h.stored.4, h.stored.5⟩ ⟨rfl, rfl⟩
  | some root =>
    rcases Nat.lt_or_ge events.length latest.length with shorter | longer
    · -- An older snapshot: nothing is written.
      have older : events <+: latest := prefix_of_prefix_length_le part h.part shorter.le
      rw [populateFromLog, first]
      refine Goes.bindExcept (goes_read (any _) ?_)
      dsimp only
      rw [compare_of_longer (by rw [h.stored.chain, length_path]; exact shorter)
        (by rw [h.stored.chain, path_ids]; exact older.map _)]
      refine ⟨⟨_, rfl, fun _ _ _ is => by cases is⟩, latest, h.part, h.stored, fun x mem => ?_,
        .inr ⟨?_, ?_⟩⟩
      · rcases mem_append.1 mem with old | new
        · exact h.longest x old
        · rw [mem_singleton.1 new]
          exact older
      all_goals
        rcases h.marks with ⟨-, rfl, -⟩ | ⟨⟨x, mem, is⟩, marked⟩
        · cases shorter
      · exact ⟨x, mem_append_left _ mem, is⟩
      · exact marked
    · have older : latest <+: events := prefix_of_prefix_length_le h.part part longer
      have stored : Stored ((path execution events).take latest.length) d := by
        rw [take_of_front part longer, ← take_of_front h.part le_rfl,
          take_of_length_le (by rw [length_path])]
        exact h.stored
      refine populateFromLog_goes (prefix_iff_eq_take.1 part ▸ valid.take _) first longer stored
        (fun c is => (covered c is).trans longer) (any _) (fun _ _ => any _)
        (fun _ _ _ _ _ _ _ => any _) fun d' stored' cov wm =>
          ⟨any _, ⟨_, rfl, fun _ _ _ is => by cases is⟩, events, ?_⟩
      refine newest older stored' ?_
      rw [Marked, first]
      exact ⟨cov, wm⟩

/-- In every run of complete populations of one execution with first parts of its log in any order,
in which no empty one comes after one with an event: none is taken for a divergence, and the guarded
read gives the chain of the longest. -/
theorem snapshots_in_any_order (valid : Valid E execution log) (run : Rounds (fun events =>
    (populateFromLog E execution events).run) (fun _ _ => True) (fun _ => False) {}
    past d) (parts : ∀ x ∈ past, x.1 <+: log)
    (filled : past.Pairwise fun a b => a.1 ≠ [] → b.1 ≠ []) :
    (∀ x ∈ past, ∃ v, x.2 = some (.ok v) ∧ ∀ i known want, v ≠ .diverged i known want) ∧
    (past ≠ [] → ∃ x ∈ past, (∀ y ∈ past, y.1 <+: x.1) ∧
      chainIfAuthoritative d = some (path execution x.1)) := by
  have holds : (∀ x ∈ past, ∃ v, x.2 = some (.ok v) ∧ ∀ i known want, v ≠ .diverged i known want) ∧
      ∃ latest, Latest execution log past latest d := by
    refine run.keeps (fun past d => (∀ x ∈ past, ∃ v, x.2 = some (.ok v) ∧
        ∀ i known want, v ≠ .diverged i known want) ∧ ∃ latest, Latest execution log past latest d)
      (fun front call => call <+: log ∧ ∀ x ∈ front, x.1 ≠ [] → call ≠ []) ?_ ?_ ?_
    · exact ⟨nofun, [], nil_prefix, stored_nil, nofun, .inl ⟨rfl, rfl, rfl⟩⟩
    · rintro front t call ⟨answers, latest, before⟩ ⟨part, fills⟩ -
      refine ⟨?_, False.elim⟩
      refine (populateFromLog_latest (fun _ => False.elim) valid before part fills).mono ?_
      rintro a t' ⟨answered, after⟩
      refine ⟨fun x mem => ?_, after⟩
      rcases mem_append.1 mem with old | new
      · exact answers x old
      · rw [mem_singleton.1 new]
        obtain ⟨v, rfl, aligned⟩ := answered
        exact ⟨v, rfl, aligned⟩
    · rintro front call answer back rfl
      refine ⟨parts (call, answer) (by simp), fun x mem => ?_⟩
      exact (pairwise_append.1 filled).2.2 x mem (call, answer) (by simp)
  obtain ⟨answers, latest, last⟩ := holds
  refine ⟨answers, fun some => ?_⟩
  rcases last.marks with ⟨none, -⟩ | ⟨⟨x, mem, rfl⟩, marked⟩
  · exact absurd none some
  · exact ⟨x, mem, last.longest, marked.reads last.stored⟩

def populations (snapshots : List (List LogEvent)) : ExecutionKeys :=
  snapshots.foldl (fun d events =>
    (populateFromLog sampleChains "x" events).run.after 100 d) {}

theorem older_snapshot_changes_nothing :
    chainIfAuthoritative (populations [twoEvents, twoEvents.take 1]) =
      some (path "x" twoEvents) := by
  have valid : Valid sampleChains "x" twoEvents := ⟨by decide, by decide, by decide⟩
  have newer : Rounds (fun events => (populateFromLog sampleChains "x" events).run)
      (fun _ _ => True) (fun _ => False) {} [(twoEvents, some (.ok (.inSync 2 2)))]
        (populations [twoEvents]) :=
    .answered .start trivial rfl
  have run : Rounds (fun events => (populateFromLog sampleChains "x" events).run)
      (fun _ _ => True) (fun _ => False) {}
      [(twoEvents, some (.ok (.inSync 2 2))), (twoEvents.take 1, some (.ok (.staleLog 2 1)))]
      (populations [twoEvents, twoEvents.take 1]) := .answered newer trivial rfl
  obtain ⟨x, mem, longest, reads⟩ :=
    (snapshots_in_any_order valid run (by decide) (by decide)).2 nofun
  rcases mem_cons.1 mem with rfl | older
  · exact reads
  · obtain rfl := mem_singleton.1 older
    exact absurd (longest (twoEvents, _) (mem_cons_self ..)) (by decide)

/-- The empty snapshot after the one with an event: nothing is missing, and the guarded read gives
no chain. -/
theorem empty_snapshot_hides_chain : chainIfAuthoritative (populations [twoEvents.take 1]) =
      some (path "x" (twoEvents.take 1)) ∧
    chainIfAuthoritative (populations [twoEvents.take 1, []]) = none := by
  decide

end Ehdb.Theorems
