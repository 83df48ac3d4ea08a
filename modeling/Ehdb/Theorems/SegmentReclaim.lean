import Ehdb.Proof.Reference.Sparing
import Ehdb.Theorems.SegmentStore

/-! What a reclaim leaves when it comes to its end and when it is stopped. The floor of a policy
counts files, and the list that is cut has only the segments with an event. -/

namespace Ehdb.Theorems

open Ehdb.Reference DurableSegmentStore ProofKit Proof.Reference List

variable {E : StoreEnv} {d d' : Dir} {L L' : Layout} {s s' : DurableSegmentStore}

def Lists (E : StoreEnv) (h : StoreHost) (view : EventLogRecordView) : Prop :=
  ∃ request outcome h', answerOf E (.scan request) h = some (.ok (.scanned outcome), h') ∧
    view ∈ outcome.records

def tailRecords (E : StoreEnv) (h : StoreHost) (request : EventLogTailRequest) :
    Option (List EventLogRecordView) :=
  match answerOf E (.tail request) h with
  | some (.ok (.tailed outcome), _) => some outcome.records
  | _ => none

/-- A later store has what the consumers of the one before have not acked, only events of the one
before, its newest segments, and its consumers with their cursors and the records that they would
get. -/
structure Spares (E : StoreEnv) (floor : Nat) (d : Dir) (s : DurableSegmentStore) (d' : Dir)
    (s' : DurableSegmentStore) : Prop where
  events : ∀ name, (s.consumersSeen.find? name).isSome → ∀ view, Lists E ⟨d, some s⟩ view →
    (s.consumerAcks.find? name).getD 0 < view.globalSequence → ScanGives E ⟨d', some s'⟩ view
  kept : ∀ view, Lists E ⟨d', some s'⟩ view → Lists E ⟨d, some s⟩ view
  segments : ∀ id ∈ newest floor d.segmentIds, id ∈ d'.segmentIds
  consumers : ∀ name, (s.consumersSeen.find? name).isSome → (s'.consumersSeen.find? name).isSome ∧
    (s'.consumerAcks.find? name).getD 0 = (s.consumerAcks.find? name).getD 0
  tails : ∀ request, (s.consumersSeen.find? (E.trim request.consumer)).isSome →
    tailRecords E ⟨d', some s'⟩ request = tailRecords E ⟨d, some s⟩ request

section

variable (sound : Sound E d L) (current : Current E d L s)
  (ends : endOf E.codec L = (s.activeSegmentId, s.activeLen))
include sound current ends

theorem lists_iff {view} : Lists E ⟨d, some s⟩ view ↔ view ∈ (contentsOf d L).views := by
  have answers (req : EventLogScanRequest) :
      ∃ h, answerOf E (.scan req) ⟨d, some s⟩ = some (_, h) :=
    answerOf_reading sound current ends rfl rfl
  constructor
  · rintro ⟨req, outcome, h', answer, mem⟩
    obtain ⟨_, is⟩ := answers req
    rw [is] at answer
    cases result : (contentsOf d L).scanResult
        (if s.indexLoaded then s.tornTailSkipped else tornIn d L) req with
    | error e =>
      rw [result] at answer
      cases answer
    | ok a =>
      rw [result] at answer
      cases answer
      exact Contents.mem_of_scanResult result mem
  · intro mem
    obtain ⟨_, is⟩ := answers ⟨none, view.globalSequence⟩
    obtain ⟨above, last⟩ := sound.numbered.mem mem
    rw [Contents.scanResult_eq (.inr (by simp)) (Nat.lt_of_lt_of_le above last)] at is
    refine ⟨_, _, _, is, Contents.mem_scan sound.numbered mem ?_ ?_⟩
    · exact Nat.zero_lt_of_lt above
    · exact Nat.le_add_left _ _

/-- A consumer that is known gets the records after its cursor. -/
theorem tailRecords_eq {req} (known : (contentsOf d L).Knows (E.trim req.consumer)) :
    tailRecords E ⟨d, some s⟩ req = if (validateConsumer E req.consumer).isOk then
      some ((contentsOf d L).tailFor (E.trim req.consumer) false req.limit).records
    else none := by
  obtain ⟨_, is⟩ : ∃ h, answerOf E (.tail req) ⟨d, some s⟩ = some (_, h) :=
    answerOf_reading sound current ends rfl rfl
  rw [tailRecords, is]
  cases valid : validateConsumer E req.consumer with
  | error e =>
    have result : (contentsOf d L).tailResult E req = .error e := by
      rw [Contents.tailResult, valid]
      rfl
    rw [result]
    rfl
  | ok _ =>
    have result : (contentsOf d L).tailResult E req =
        (contentsOf d L).tailAnswer E (E.trim req.consumer) req.limit := by
      rw [Contents.tailResult, valid]
      rfl
    rw [result, Contents.tailAnswer]
    by_cases none : (contentsOf d L).views.isEmpty = true
    · -- There is nothing behind the cursor either.
      have no_views : (contentsOf d L).views = [] := isEmpty_iff.1 none
      have nothing : ((contentsOf d L).tailFor (E.trim req.consumer) false req.limit).records =
          [] := by
        refine filterMap_eq_nil_iff.2 fun q _ => ?_
        rw [Contents.viewAt, no_views]
        rfl
      rw [nothing, if_pos none]
      rfl
    · unfold Contents.Knows at known
      rw [if_neg none, if_pos known]
      rfl

theorem spares_of_reclaims {floor k : Nat} (sound' : Sound E d' L') (current' : Current E d' L' s')
    (ends' : endOf E.codec L' = (s'.activeSegmentId, s'.activeLen))
    (reclaims : Reclaims (contentsOf d L) k (contentsOf d' L'))
    (acked : k ≠ 0 → ∀ name, (contentsOf d L).Knows name →
      (contentsOf d' L').base ≤ (contentsOf d L).cursor name)
    (segments : ∀ id ∈ newest floor d.segmentIds, id ∈ d'.segmentIds) :
    Spares E floor d s d' s' where
  events name known view listed above := by
    rw [current.seen] at known
    rw [current.acks] at above
    have mem := (lists_iff sound current ends).1 listed
    refine scanGives_of_served sound' current'.known ?_ fun _ => ?_
    · -- What is dropped is at most the new base, and so at most the cursor.
      rw [reclaims.views]
      obtain ⟨i, is⟩ := mem_iff_getElem?.1 mem
      have number := sound.numbered.getElem? is
      have later : k ≤ i := by
        rcases Nat.eq_zero_or_pos k with rfl | some
        · exact Nat.zero_le _
        · have enough := acked some.ne' name known
          rw [reclaims.base] at enough
          have above : (contentsOf d L).cursor name < view.globalSequence := above
          omega
      refine mem_of_getElem? (i := i - k) ?_
      rw [getElem?_drop, Nat.add_sub_cancel' later]
      exact is
    · rw [current'.count, reclaims.tip]
      exact (sound.numbered.mem mem).2
  kept view listed := by
    rw [lists_iff sound' current' ends', reclaims.views] at listed
    exact (lists_iff sound current ends).2 (mem_of_mem_drop listed)
  segments := segments
  consumers name known := by
    rw [current.seen] at known
    rw [current'.seen, current'.acks, current.acks, reclaims.seen]
    exact ⟨known, reclaims.cursors name⟩
  tails req known := by
    rw [current.seen] at known
    have known' : (contentsOf d' L').Knows (E.trim req.consumer) := by
      rw [Contents.Knows, reclaims.seen]
      exact known
    rw [tailRecords_eq sound current ends known, tailRecords_eq sound' current' ends' known',
      reclaims.records (fun some => acked some _ known) false false]

end

/-- An open store that knows its directory, where a reclaim has come to its end. -/
def SettledTo (E : StoreEnv) (c : Contents) (L : Layout) (policy : SegmentGcPolicy)
    (memory : Option DurableSegmentStore) (d' : Dir) : Prop :=
  ∃ s' L', memory = some s' ∧ Sound E d' L' ∧ Current E d' L' s' ∧
    endOf E.codec L' = (s'.activeSegmentId, s'.activeLen) ∧ Settled E c L policy d' L'

/-- A reclaim in a run: where it starts, where it is at any moment and where it ends. -/
theorem reclaim_run {deeds} (faultless : E.mayFail = false)
    (sized : 0 < E.segmentMaxBytes) (idle : (runStore E deeds).current = none)
    (is_open : (runStore E deeds).state = ⟨d, some s⟩) (policy : SegmentGcPolicy)
    (outcomes : List IoOutcome) :
    ∃ L, Sound E d L ∧ Current E d L s ∧ endOf E.codec L = (s.activeSegmentId, s.activeLen) ∧
      let after :=
        (runStore E deeds).run (storeThread E) (.call (.reclaim policy) :: outcomes.map .act)
      Reclaiming E (contentsOf d L) L policy after.state.disk ∧ (after.current = none →
        SettledTo E (contentsOf d L) L policy after.state.memory after.state.disk) := by
  have holds := runStore_holds sized (@along_ready E deeds faultless _)
  generalize runStore E deeds = x at *
  obtain ⟨state, current, past⟩ := x
  obtain rfl : current = none := idle
  obtain rfl : state = ⟨d, some s⟩ := is_open
  obtain ⟨L, holding⟩ : Runs E past ⟨d, some s⟩ := holds
  obtain ⟨current, ends⟩ := holding.steady s rfl faultless
  have sound := holding.sound
  have here : Reclaiming E (contentsOf d L) L policy d :=
    Intact.reclaiming sound current.live ⟨⟨L, sound, rfl⟩, fun _ listed => listed⟩ policy
  have does := does_reclaimSegments sound current.known (fun _ => ⟨current, ends⟩) faultless policy
  have task : Does (Reclaiming E (contentsOf d L) L policy) (storeTask E (.reclaim policy)) s
      (fun _ s' d' => SettledTo E (contentsOf d L) L policy (some s') d')
        (fun _ _ _ => False) d := by
    refine .bind (does.mono (fun _ => id) ?_ fun _ _ _ => id)
    rintro a s' d' ⟨L', honours, settled⟩
    obtain ⟨current', ends'⟩ := honours.leaves.steady faultless
    exact .pure ⟨s', L', rfl, honours.leaves.sound, current', ends', settled⟩
  have served : Safely (Reclaiming E (contentsOf d L) L policy)
      (serveStore E (.reclaim policy) (some s))
      (fun r d' => SettledTo E (contentsOf d L) L policy r.2 d') d := by
    refine .bind (Safely.mono task (fun _ => id) ?_)
    rintro ⟨res, s'⟩ d' done
    cases res with
    | ok a => exact done
    | error e => exact done.elim
  obtain ⟨serves, moment⟩ := Solo.serve (x := ⟨⟨d, some s⟩, none, past⟩) (T := storeThread E) rfl
    (hostThread_serves (Q := fun _ => SettledTo E (contentsOf d L) L policy) here served)
    here outcomes
  refine ⟨L, sound, current, ends, moment, fun answered => ?_⟩
  rcases serves with ⟨rest, under_way, -⟩ | ⟨-, a, -, settled⟩
  · rw [answered] at under_way
    cases under_way
  · exact settled

/-- With stops anywhere and no failing step: a reclaim of a store in which every segment older than
a sealed one with an event holds an event, or with a floor of at most one segment, spares what its
consumers have not acked, their state and the newest segments, also when it is stopped and the
directory opened again. -/
theorem reclaim_spares (E : StoreEnv) (deeds : List (Deed IoOutcome StoreCall))
    (policy : SegmentGcPolicy) (outcomes : List IoOutcome) (faultless : E.mayFail = false)
    (sized : 0 < E.segmentMaxBytes) (idle : (runStore E deeds).current = none)
    (is_open : (runStore E deeds).state = ⟨d, some s⟩)
    (filled : policy.minRetainedSegments ≤ 1 ∨ FilledBelow E d) :
    let after := (runStore E deeds).run (storeThread E)
      (.call (.reclaim policy) :: outcomes.map .act)
    (after.current = none → ∃ s', after.state.memory = some s' ∧
      Spares E policy.minRetainedSegments d s after.state.disk s') ∧
    ∃ d' s', answerOf E .openStore ⟨after.state.disk, none⟩ = some (.ok .opened, ⟨d', some s'⟩) ∧
      Spares E policy.minRetainedSegments d s d' s' := by
  obtain ⟨L, sound, current, ends, moment, at_end⟩ :=
    reclaim_run faultless sized idle is_open policy outcomes
  have spared (d' : Dir) (stays : ∀ id ∈ L.map Segment.id,
      (∀ e, (contentsOf d L).cut E.codec L policy = some e → e.1 < id) → Stays d' id) (id : Nat)
      (mem : id ∈ newest policy.minRetainedSegments d.segmentIds) : Stays d' id := by
    rw [sound.lays.segmentIds] at mem
    exact stays id (mem_of_mem_drop mem) fun e is =>
      newest_above_cut sound current.live filled is id mem
  refine ⟨fun answered => ?_, ?_⟩
  · obtain ⟨s', L', is, sound', current', ends', settled⟩ := at_end answered
    obtain ⟨k, reclaims, acked⟩ := settled.reclaims
    obtain ⟨_, _, -, -, -, stays⟩ := moment
    exact ⟨s', is, spares_of_reclaims sound current ends sound' current' ends' reclaims acked
      fun id mem => (spared _ stays id mem).1⟩
  · obtain ⟨L', k, sound', reclaims, acked, stays⟩ := moment
    obtain ⟨s', d', answer, opened⟩ := answerOf_open sound' sized none
    rw [← opened.contents] at reclaims acked
    exact ⟨d', s', answer, spares_of_reclaims sound current ends opened.sound opened.current
      opened.ends reclaims acked fun id mem => (spared _ stays id mem).opened sound'.lays opened⟩

theorem reclaim_spares_three_segments : (runStore (sampleStore false 40)
      (threeSegments ++ goesWell (.reclaim ⟨true, 2, none⟩))).state.disk.segmentIds = [2, 3, 4, 5] ∧
    ∃ s s', (runStore (sampleStore false 40) threeSegments).state.memory = some s ∧
      Spares (sampleStore false 40) 2 (runStore (sampleStore false 40) threeSegments).state.disk s
        (runStore (sampleStore false 40)
          (threeSegments ++ goesWell (.reclaim ⟨true, 2, none⟩))).state.disk s' := by
  refine ⟨by decide +kernel, ?_⟩
  have up : (runStore (sampleStore false 40) threeSegments).state.memory.isSome := by decide +kernel
  have idle : (runStore (sampleStore false 40) threeSegments).current.isNone := by decide +kernel
  have done : (runStore (sampleStore false 40)
      (threeSegments ++ goesWell (.reclaim ⟨true, 2, none⟩))).current.isNone := by decide +kernel
  have filled : FilledBelow (sampleStore false 40)
      (runStore (sampleStore false 40) threeSegments).state.disk := by decide +kernel
  obtain ⟨s, is⟩ := Option.isSome_iff_exists.1 up
  have is_open : (runStore (sampleStore false 40) threeSegments).state =
      ⟨(runStore (sampleStore false 40) threeSegments).state.disk, some s⟩ := by rw [← is]
  rw [runStore_goesWell] at done ⊢
  obtain ⟨s', -, spares⟩ := (reclaim_spares (sampleStore false 40) threeSegments ⟨true, 2, none⟩
    (List.replicate 40 (.ok 0)) rfl (by decide) (Option.isNone_iff_eq_none.1 idle) is_open
    (.inr filled)).1 (Option.isNone_iff_eq_none.1 done)
  exact ⟨s, s', is, spares⟩

def eventsAndCursors : List (Deed IoOutcome StoreCall) :=
  goesWell .openStore ++ goesWell (appendPayload "a") ++ goesWell (.tail ⟨"c", 1⟩) ++
    goesWell (appendPayload "b") ++ goesWell (.ack ⟨"c", 2⟩) ++ goesWell (appendPayload "d")

/-- A reclaim with a floor of three segments takes the third newest one, since the segments without
an event count for the floor and not for the cut. -/
theorem reclaim_cuts_below_the_floor :
    (runStore (sampleStore false 1) eventsAndCursors).state.disk.segmentIds = [1, 2, 3, 4, 5] ∧
    newest 3 (runStore (sampleStore false 1) eventsAndCursors).state.disk.segmentIds = [3, 4, 5] ∧
    (runStore (sampleStore false 1)
      (eventsAndCursors ++ goesWell (.reclaim ⟨true, 3, none⟩))).state.disk.segmentIds =
        [4, 5, 6] := by
  decide +kernel

end Ehdb.Theorems
