import Ehdb.Proof.Reference.Retention
import Ehdb.Theorems.SegmentReclaim

/-! The cap counts the segments with an event, among which the active segment is only once it holds
one. Before it is reached the acks of the consumers alone decide. -/

namespace Ehdb.Theorems

open Ehdb.Reference DurableSegmentStore ProofKit Proof.Reference List

variable {E : StoreEnv} {d d' : Dir} {L L' : Layout} {s s' : DurableSegmentStore} {n : Nat}
  {policy : SegmentGcPolicy}

/-- What a cap is for: the newest segments are all that is left if no consumer is known, and none of
them is taken in any case. -/
structure KeepsNewest (n : Nat) (d : Dir) (s : DurableSegmentStore) (d' : Dir) : Prop where
  alone : s.consumersSeen.entries = [] → d'.segmentIds = newest n d.segmentIds
  spared : ∀ id ∈ newest n d.segmentIds, id ∈ d'.segmentIds

/-- When the newest segments are what is left and no consumer is known: the active segment holds no
event yet, the cap is above the number of segments, or it is the floor. -/
def CapAlone (E : StoreEnv) (policy : SegmentGcPolicy) (n : Nat) (d : Dir)
    (s : DurableSegmentStore) : Prop :=
  d.segmentIds.length = 0 ∨
    if policy.enabled then 0 < n ∧ (d.segmentIds.length < n ∨ n ≤ max policy.minRetainedSegments 1 ∨
      holdsEvent E d s.activeSegmentId = false)
    else d.segmentIds.length ≤ n

/-- When none of the newest segments is taken: each of them that is sealed, acked by all consumers
and above the floor is one of a window that the cap covers, in which some segment holds no event. -/
def CapShared (E : StoreEnv) (policy : SegmentGcPolicy) (n : Nat) (d : Dir)
    (s : DurableSegmentStore) : Prop :=
  policy.enabled → ∀ e ∈ lastsOn E d, e.1 ∈ newest n d.segmentIds → e.1 < s.activeSegmentId →
    (∀ cursor ∈ s.consumerCursors, e.2 ≤ cursor.2) →
    rank ((lastsOn E d).map Prod.fst) e.1 + max policy.minRetainedSegments 1 ≤ d.segmentIds.length →
    n ≤ (lastsOn E d).length ∧ ∃ id ∈ newest n d.segmentIds, holdsEvent E d id = false

def CapHolds (E : StoreEnv) (policy : SegmentGcPolicy) (n : Nat) (d : Dir)
    (s : DurableSegmentStore) : Prop :=
  if s.consumersSeen.entries = [] then CapAlone E policy n d s else CapShared E policy n d s

instance (E : StoreEnv) (policy : SegmentGcPolicy) (n : Nat) (d : Dir) (s : DurableSegmentStore) :
    Decidable (CapAlone E policy n d s) := inferInstanceAs (Decidable (_ ∨ _))

instance (E : StoreEnv) (policy : SegmentGcPolicy) (n : Nat) (d : Dir) (s : DurableSegmentStore) :
    Decidable (CapShared E policy n d s) :=
  inferInstanceAs (Decidable (_ → ∀ _ ∈ _, _ → _ → _ → _ → _))

instance (E : StoreEnv) (policy : SegmentGcPolicy) (n : Nat) (d : Dir) (s : DurableSegmentStore) :
    Decidable (CapHolds E policy n d s) :=
  inferInstanceAs (Decidable
    (if s.consumersSeen.entries = [] then CapAlone E policy n d s else CapShared E policy n d s))

theorem interestCeiling_alone (unknown : s.consumersSeen.entries = []) :
    s.interestCeiling = none := by
  rw [interestCeiling, consumerCursors, unknown]
  rfl

/-- The ceiling of some consumers is the lowest of their cursors. -/
theorem interestCeiling_shared (known : s.consumersSeen.entries ≠ []) :
    ∃ t, s.interestCeiling = some t ∧ ∀ q, q ≤ t ↔ ∀ cursor ∈ s.consumerCursors, q ≤ cursor.2 := by
  have some_cursor : s.consumerCursors.map Prod.snd ≠ [] := by
    rw [consumerCursors, map_map]
    exact fun none => known (map_eq_nil_iff.1 none)
  obtain ⟨t, is⟩ := Option.ne_none_iff_exists'.1 (mt min?_eq_none_iff.1 some_cursor)
  refine ⟨t, is, fun q => ?_⟩
  rw [le_min?_iff is, forall_mem_map]

theorem drop_eq_newest_iff {ids} {r : Nat} (few : r ≤ ids.length) :
    ids.drop r = newest n ids ↔ r = ids.length - n := by
  refine ⟨fun same => ?_, fun is => by rw [is, newest]⟩
  have lengths := congrArg length same
  rw [newest, length_drop, length_drop] at lengths
  omega

section

variable (sound : Sound E d L) (current : Current E d L s)
  (ends : endOf E.codec L = (s.activeSegmentId, s.activeLen))
include sound current ends

section

variable (sound' : Sound E d' L') (settled : Settled E (contentsOf d L) L policy d' L')
  (unknown : s.consumersSeen.entries = []) (cap : policy.maxRetainedSegments = some n)
include sound' settled unknown cap

/-- What a reclaim leaves where no consumer is known. -/
theorem segmentIds_alone : d'.segmentIds = d.segmentIds.drop (if policy.enabled then
      excess policy n d.segmentIds.length (lastsOn E d).length else 0) := by
  have no_seen : (contentsOf d L).seen.entries = [] := current.seen ▸ unknown
  have left : d'.segmentIds = ((contentsOf d L).cut E.codec L policy).elim d.segmentIds
      fun e => d.segmentIds.filter (e.1 < ·) := by
    rw [sound'.lays.segmentIds, sound.lays.segmentIds]
    cases is : (contentsOf d L).cut E.codec L policy with
    | none => exact (settled.quiet is).2
    | some e =>
      obtain ⟨k, new, -, -, -, ids, nothing⟩ := settled.cut e is
      rw [ids, nothing no_seen, append_nil]
      rfl
  rw [left, current.cut_eq sound ends]
  by_cases enabled : policy.enabled = true
  · rw [if_pos enabled, if_pos enabled, interestCeiling_alone unknown]
    rcases current.active_last sound ends with none | ⟨A, is⟩
    · rw [none]
      cases cutOf policy _ _ _ _ <;> simp
    · have ordered := sound.ids_ascending
      have kept := lastsOn_ids_alone sound current ends unknown is
      rw [is] at ordered ⊢
      rw [length_append, length_singleton]
      exact left_alone (sound.lastsOn_ascending current.live) (sound.lastsOn_positive current.live)
        ordered kept cap
  · rw [if_neg enabled, if_neg enabled, drop_zero]
    rfl

theorem keepsNewest_alone
    (minimum : policy.minRetainedSegments ≤ n) :
    d'.segmentIds = newest n d.segmentIds ↔ CapAlone E policy n d s := by
  rw [segmentIds_alone sound current ends sound' settled unknown cap, CapAlone]
  by_cases enabled : policy.enabled = true
  · rw [if_pos enabled, if_pos enabled]
    rcases current.active_last sound ends with none | ⟨A, is⟩
    · simp [none, newest]
    · have events := congrArg length (lastsOn_ids_alone sound current ends unknown is)
      rw [length_map, length_append] at events
      have total : d.segmentIds.length = A.length + 1 := by simp [is]
      have few : excess policy n d.segmentIds.length
          (lastsOn E d).length ≤ d.segmentIds.length := by
        rw [excess]
        split <;> omega
      rw [drop_eq_newest_iff few, excess]
      cases active : holdsEvent E d s.activeSegmentId with
      | true =>
        rw [filter_cons_of_pos active] at events
        simp only [filter_nil, length_singleton] at events
        simp only [Bool.true_eq_false, or_false]
        split <;> omega
      | false =>
        rw [filter_cons_of_neg (by simp [active])] at events
        simp only [filter_nil, length_nil] at events
        simp only [or_true, and_true]
        split <;> omega
  · rw [if_neg enabled, if_neg enabled, drop_eq_newest_iff (Nat.zero_le _)]
    omega

end

theorem spared_iff (sound' : Sound E d' L') (settled : Settled E (contentsOf d L) L policy d' L') :
    (∀ id ∈ newest n d.segmentIds, id ∈ d'.segmentIds) ↔
      ¬∃ e, (contentsOf d L).cut E.codec L policy = some e ∧
        ∃ id ∈ newest n d.segmentIds, id ≤ e.1 := by
  constructor
  · rintro kept ⟨e, is, id, window, low⟩
    obtain ⟨k, new, -, -, -, ids, -⟩ := settled.cut e is
    rw [← sound'.lays.segmentIds, ← sound.lays.segmentIds] at ids
    have still := kept id window
    rw [ids] at still
    rcases mem_append.1 still with above | fresh
    · exact absurd (of_decide_eq_true (mem_filter.1 above).2) (not_lt.2 low)
    · -- A segment that the reclaim has begun is above the active one of before.
      have ordered := sound'.ids_ascending
      rw [ids, pairwise_append] at ordered
      have sealed : e.1 < s.activeSegmentId := by
        rw [current.cut_eq sound ends] at is
        split at is
        · exact (cutOf_eq_some is).2.1
        · cases is
      rcases current.active_last sound ends with none | ⟨A, last⟩
      · rw [none] at window
        cases mem_of_mem_drop window
      · have active : s.activeSegmentId ∈ d.segmentIds.filter (e.1 < ·) := by
          rw [last]
          simp [sealed]
        have above := ordered.2.2 _ active id fresh
        omega
  · intro none id window
    cases is : (contentsOf d L).cut E.codec L policy with
    | none =>
      rw [sound'.lays.segmentIds, (settled.quiet is).2, ← sound.lays.segmentIds]
      exact mem_of_mem_drop window
    | some e =>
      obtain ⟨k, new, -, -, -, ids, -⟩ := settled.cut e is
      rw [sound'.lays.segmentIds, ids, ← sound.lays.segmentIds]
      have above : e.1 < id := not_le.1 fun low => none ⟨e, is, id, window, low⟩
      exact mem_append_left _ (mem_filter.2
        ⟨mem_of_mem_drop window, decide_eq_true above⟩)

end

/-- In every run with stops anywhere and no failing step: a reclaim with a retention cap that is at
least its minimum keeps the newest segments if and only if the cap holds in the state before it. -/
theorem cap_keeps_newest_iff (E : StoreEnv) (deeds : List (Deed IoOutcome StoreCall))
    (policy : SegmentGcPolicy) (outcomes : List IoOutcome) (faultless : E.mayFail = false)
    (sized : 0 < E.segmentMaxBytes) (idle : (runStore E deeds).current = none)
    (is_open : (runStore E deeds).state = ⟨d, some s⟩) (cap : policy.maxRetainedSegments = some n)
    (minimum : policy.minRetainedSegments ≤ n)
    (answered : ((runStore E deeds).run (storeThread E)
      (.call (.reclaim policy) :: outcomes.map .act)).current = none) :
    KeepsNewest n d s ((runStore E deeds).run (storeThread E)
      (.call (.reclaim policy) :: outcomes.map .act)).state.disk ↔ CapHolds E policy n d s := by
  obtain ⟨L, sound, current, ends, -, at_end⟩ :=
    reclaim_run faultless sized idle is_open policy outcomes
  obtain ⟨s', L', -, sound', -, -, settled⟩ := at_end answered
  rw [CapHolds]
  by_cases unknown : s.consumersSeen.entries = []
  · rw [if_pos unknown, ← keepsNewest_alone sound current ends sound' settled unknown cap minimum]
    refine ⟨fun keeps => keeps.alone unknown, fun left => ⟨fun _ => left, fun id mem => ?_⟩⟩
    rw [left]
    exact mem
  · rw [if_neg unknown]
    refine Iff.trans ⟨KeepsNewest.spared, fun spared =>
      ⟨fun known => absurd known unknown, spared⟩⟩ ?_
    obtain ⟨t, ceiling, below⟩ := interestCeiling_shared unknown
    rw [spared_iff sound current ends sound' settled, current.cut_eq sound ends, CapShared]
    by_cases enabled : policy.enabled = true
    · rw [if_pos enabled, ceiling, newest_cut_iff (sound.lastsOn_ascending current.live)
        (sound.lastsOn_positive current.live) sound.ids_ascending
          (sound.lastsOn_ids current.live) cap]
      simp only [enabled, true_implies, not_exists, not_and, below, Classical.not_imp, not_forall,
        Bool.not_eq_true]
    · simp [enabled]

def threeEvents : List (Deed IoOutcome StoreCall) :=
  goesWell .openStore ++ goesWell (appendPayload "a") ++ goesWell (appendPayload "b") ++
    goesWell (appendPayload "d")

theorem cap_keeps_newest_two : (runStore (sampleStore false 1)
      (threeEvents ++ goesWell (.reclaim ⟨true, 2, some 2⟩))).state.disk.segmentIds = [2, 3] ∧
    ∃ s, (runStore (sampleStore false 1) threeEvents).state.memory = some s ∧
      KeepsNewest 2 (runStore (sampleStore false 1) threeEvents).state.disk s
        (runStore (sampleStore false 1)
          (threeEvents ++ goesWell (.reclaim ⟨true, 2, some 2⟩))).state.disk := by
  refine ⟨by decide +kernel, ?_⟩
  have idle : (runStore (sampleStore false 1) threeEvents).current.isNone := by decide +kernel
  have done : (runStore (sampleStore false 1)
      (threeEvents ++ goesWell (.reclaim ⟨true, 2, some 2⟩))).current.isNone := by decide +kernel
  have holds : (runStore (sampleStore false 1) threeEvents).state.memory.any (fun s =>
      CapHolds (sampleStore false 1) ⟨true, 2, some 2⟩ 2
        (runStore (sampleStore false 1) threeEvents).state.disk s) := by decide +kernel
  obtain ⟨s, is, fits⟩ := (Option.any_eq_true _ _).1 holds
  have is_open : (runStore (sampleStore false 1) threeEvents).state =
      ⟨(runStore (sampleStore false 1) threeEvents).state.disk, some s⟩ := by rw [← is]
  rw [runStore_goesWell] at done ⊢
  refine ⟨s, is, (cap_keeps_newest_iff (sampleStore false 1) threeEvents ⟨true, 2, some 2⟩
    (List.replicate 40 (.ok 0)) rfl (by decide) (Option.isNone_iff_eq_none.1 idle) is_open rfl
    (by decide) (Option.isNone_iff_eq_none.1 done)).2 (of_decide_eq_true fits)⟩

/-- A cap of two segments leaves one of three when the active segment holds an event. -/
theorem cap_leaves_one_too_few : (runStore (sampleStore false 1) threeEvents).state.memory.map
      (fun s => s.consumersSeen.entries) = some [] ∧
    newest 2 (runStore (sampleStore false 1) threeEvents).state.disk.segmentIds = [2, 3] ∧
    (runStore (sampleStore false 1)
      (threeEvents ++ goesWell (.reclaim ⟨true, 1, some 2⟩))).state.disk.segmentIds = [3] := by
  decide +kernel

end Ehdb.Theorems
