import Ehdb.Proof.Reference.Sparing
import Ehdb.ProofKit.Rank

/-! The segments that a plan selects, each by its own place in the list of segments with an event,
and what is left of a directory in which no consumer is known. -/

namespace Ehdb.Proof.Reference

open Ehdb.Reference DurableSegmentStore ProofKit List

variable {E : StoreEnv} {c : Contents} {d : Dir} {L : Layout} {n active total : Nat}
  {policy : SegmentGcPolicy} {lasts : List (Nat × Nat)} {ceiling : Option Nat} {e : Nat × Nat}

/-- The segments with an event, each with the sequence of its last event, as a replay of each of
them alone finds out. -/
def lastsOn (E : StoreEnv) (d : Dir) : List (Nat × Nat) :=
  d.segmentIds.filterMap fun id =>
    let alone := (replaySegment E.codec id (d.bytes id) (.initial true)).2
    if alone.events.isEmpty then none else some (id, alone.reclaimedThrough + alone.events.length)

theorem baseOf_of_range {views m} (some : views ≠ [])
    (numbers : views.map EventLogRecordView.globalSequence = range' (m + 1) views.length) :
    baseOf views = m := by
  cases views with
  | nil => exact absurd rfl some
  | cons view rest =>
    simp only [map_cons, length_cons, range'_succ, cons.injEq] at numbers
    show view.globalSequence - 1 = m
    omega

theorem Sound.lastsOn_eq (sound : Sound E d L) (live : ∀ seg ∈ L, cutIn d < seg.id) :
    lastsOn E d = lastsFrom (contentsOf d L).base L := by
  have from_here (A B : Layout) (split : L = A ++ B) : (B.map Segment.id).filterMap (fun id =>
        let alone := (replaySegment E.codec id (d.bytes id) (.initial true)).2
        if alone.events.isEmpty then none
        else some (id, alone.reclaimedThrough + alone.events.length)) =
      lastsFrom ((contentsOf d L).base + (viewsOf (framesIn A)).length) B := by
    induction B generalizing A with
    | nil => rfl
    | cons seg B ih =>
      have mem : seg ∈ L := by simp [split]
      have rest := ih (A ++ [seg]) (by simp [split])
      rw [framesIn_append, viewsOf_append, length_append, ← Nat.add_assoc] at rest
      have one : (viewsOf (framesIn [seg])).length = seg.eventCount := by
        rw [framesIn_eventCount]
        rfl
      rw [one] at rest
      rw [map_cons, filterMap_cons, sound.replay_alone live mem, lastsFrom]
      dsimp only [withIndex]
      rw [length_locsOf_placedFrom, placedFrom_frames]
      by_cases none : seg.eventCount = 0
      · have empty : (locsOf (placedFrom E.codec seg.id 0 seg.frames)).isEmpty = true := by
          rw [List.isEmpty_iff, ← List.length_eq_zero_iff, length_locsOf_placedFrom]
          exact none
        rw [if_pos none, if_pos empty]
        rw [none, Nat.add_zero] at rest
        exact rest
      · have some : ¬(locsOf (placedFrom E.codec seg.id 0 seg.frames)).isEmpty = true := by
          rw [List.isEmpty_iff, ← List.length_eq_zero_iff, length_locsOf_placedFrom]
          exact none
        have numbers := Sound.segment_numbers (split ▸ sound) (split ▸ live)
        rw [← split, Nat.add_right_comm] at numbers
        have base : baseOf (viewsOf seg.frames) =
            (contentsOf d L).base + (viewsOf (framesIn A)).length :=
          baseOf_of_range (fun empty => none (congrArg length empty)) numbers
        rw [if_neg none, if_neg some, base]
        exact congrArg _ rest
  rw [lastsOn, sound.lays.segmentIds]
  exact from_here [] L rfl

theorem lastsFrom_ascending (ordered : L.Pairwise fun a b => a.id < b.id) (m : Nat) :
    (lastsFrom m L).Pairwise fun a b => a.1 < b.1 ∧ a.2 < b.2 := by
  induction L generalizing m with
  | nil => exact .nil
  | cons seg L ih =>
    obtain ⟨above, rest⟩ := pairwise_cons.1 ordered
    rw [lastsFrom]
    split
    · exact ih rest m
    · refine pairwise_cons.2 ⟨fun e mem => ?_, ih rest _⟩
      obtain ⟨A, other, B, rfl, some, id, last⟩ := mem_lastsFrom mem
      refine ⟨id ▸ above other (by simp), ?_⟩
      have more : (viewsOf (framesIn (A ++ [other]))).length =
          (viewsOf (framesIn A)).length + other.eventCount := by
        rw [framesIn_append, viewsOf_append, length_append, framesIn_eventCount]
        rfl
      omega

theorem lastsFrom_positive {m} (mem : e ∈ lastsFrom m L) : 0 < e.2 := by
  obtain ⟨A, seg, B, -, some, -, last⟩ := mem_lastsFrom mem
  rw [framesIn_append, viewsOf_append, length_append, framesIn_eventCount] at last
  omega

/-- Whether a plan takes a segment: it is sealed, the floor leaves room for it and it has no event
above the boundary. -/
structure Selects (policy : SegmentGcPolicy) (lasts : List (Nat × Nat)) (ceiling : Option Nat)
    (active total : Nat) (e : Nat × Nat) : Prop where
  mem : e ∈ lasts
  room : rank (lasts.map Prod.fst) e.1 + max policy.minRetainedSegments 1 ≤ total
  sealed : e.1 < active
  below : e.2 ≤ boundaryOf policy lasts ceiling

section

variable (ascending : lasts.Pairwise fun a b => a.1 < b.1 ∧ a.2 < b.2)
include ascending

theorem ids_ascending : (lasts.map Prod.fst).Pairwise (· < ·) :=
  pairwise_map.2 (ascending.imp And.left)

theorem mem_take_iff_rank_fst (mem : e ∈ lasts) :
    e ∈ lasts.take n ↔ rank (lasts.map Prod.fst) e.1 ≤ n := by
  have ids := ids_ascending ascending
  rw [← mem_take_iff_rank ids (mem_map_of_mem mem), ← map_take]
  refine ⟨mem_map_of_mem, fun listed => ?_⟩
  obtain ⟨other, early, same⟩ := mem_map.1 listed
  have distinct : (lasts.map Prod.fst).Nodup := ids.imp fun h => h.ne
  rw [← inj_on_of_nodup_map distinct (mem_of_mem_take early) mem same]
  exact early

theorem mem_selectReclaimable :
    e ∈ selectReclaimable (total - max policy.minRetainedSegments 1) active
      (boundaryOf policy lasts ceiling) lasts ↔ Selects policy lasts ceiling active total e := by
  have closed : (lasts.take (total - max policy.minRetainedSegments 1)).Pairwise fun a b =>
      (decide (b.1 < active) && decide (b.2 ≤ boundaryOf policy lasts ceiling)) = true →
      (decide (a.1 < active) && decide (a.2 ≤ boundaryOf policy lasts ceiling)) = true := by
    refine (ascending.sublist (take_sublist _ _)).imp fun {a b} below => ?_
    simp only [Bool.and_eq_true, decide_eq_true_eq]
    exact fun holds => ⟨below.1.trans holds.1, below.2.le.trans holds.2⟩
  rw [selectReclaimable, takeWhile_eq_filter closed, mem_filter]
  simp only [Bool.and_eq_true, decide_eq_true_eq]
  constructor
  · rintro ⟨early, sealed, below⟩
    have mem := mem_of_mem_take early
    have low := (mem_take_iff_rank_fst ascending mem).1 early
    have first := rank_pos (ids_ascending ascending) (mem_map_of_mem (f := Prod.fst) mem)
    exact ⟨mem, by omega, sealed, below⟩
  · rintro ⟨mem, room, sealed, below⟩
    exact ⟨(mem_take_iff_rank_fst ascending mem).2 (by omega), sealed, below⟩

theorem cutOf_greatest (is : cutOf policy lasts ceiling active total = some e) :
    Selects policy lasts ceiling active total e ∧
      ∀ x, Selects policy lasts ceiling active total x → x.1 ≤ e.1 := by
  unfold cutOf at is
  split at is
  · cases is
  · have selected := (mem_selectReclaimable ascending).1 (mem_of_getLast? is)
    refine ⟨selected, fun x other => ?_⟩
    have ordered : (selectReclaimable (total - max policy.minRetainedSegments 1) active
        (boundaryOf policy lasts ceiling) lasts).Pairwise fun a b => a.1 < b.1 ∧ a.2 < b.2 :=
      ascending.sublist ((takeWhile_sublist _).trans (take_sublist _ _))
    obtain ⟨front, split⟩ := getLast?_eq_some_iff.1 is
    have listed := (mem_selectReclaimable ascending).2 other
    rw [split, pairwise_append] at ordered
    rw [split, mem_append, mem_singleton] at listed
    rcases listed with early | rfl
    · exact (ordered.2.2 x early e (by simp)).1.le
    · exact le_rfl

theorem cutOf_eq_none_iff (positive : ∀ x ∈ lasts, 0 < x.2) :
    cutOf policy lasts ceiling active total = none ↔
      ∀ x, ¬Selects policy lasts ceiling active total x := by
  constructor
  · intro none x selected
    have some : boundaryOf policy lasts ceiling ≠ 0 :=
      (Nat.lt_of_lt_of_le (positive x selected.mem) selected.below).ne'
    rw [cutOf, if_neg some, getLast?_eq_none_iff] at none
    have listed := (mem_selectReclaimable ascending).2 selected
    rw [none] at listed
    cases listed
  · intro none
    cases is : cutOf policy lasts ceiling active total with
    | none => rfl
    | some e => exact absurd (cutOf_greatest ascending is).1 (none e)

/-- The events of a segment are in what a cap takes if enough segments with an event follow it. -/
theorem le_retentionTarget_iff (cap : policy.maxRetainedSegments = some n) (mem : e ∈ lasts) :
    (∀ t, retentionTarget policy lasts = some t → e.2 ≤ t) ↔
      (n ≤ lasts.length → rank (lasts.map Prod.fst) e.1 + (n - 1) ≤ lasts.length) := by
  have some_last : 0 < lasts.length := length_pos_of_mem mem
  by_cases exceeded : lasts.length > n - 1
  · -- The cap is the last event of the segment that has `n - 1` others behind it.
    have inside : lasts.length - (n - 1) - 1 < lasts.length := by omega
    have target : retentionTarget policy lasts =
        some (lasts.get ⟨lasts.length - (n - 1) - 1, inside⟩).2 := by
      rw [retentionTarget, cap, Option.bind_some, if_pos exceeded, getElem?_eq_getElem inside]
      rfl
    obtain ⟨i, bound, rfl⟩ := mem_iff_getElem.1 mem
    have place : rank (lasts.map Prod.fst) lasts[i].1 = i + 1 :=
      rank_getElem (ids_ascending ascending) (by simp [bound])
    have order := pairwise_iff_getElem.1 ascending
    have below : lasts[i].2 ≤ (lasts.get ⟨lasts.length - (n - 1) - 1, inside⟩).2 ↔
        i ≤ lasts.length - (n - 1) - 1 := by
      constructor
      · intro low
        by_contra high
        exact absurd (order _ _ inside bound (by omega)).2 (not_lt.2 low)
      · intro low
        rcases low.eq_or_lt with same | less
        · simp [same]
        · exact (order _ _ bound inside less).2.le
    rw [target, place]
    simp only [Option.some.injEq, forall_eq']
    omega
  · have target : retentionTarget policy lasts = none := by
      rw [retentionTarget, cap, Option.bind_some, if_neg exceeded]
    rw [target]
    refine ⟨fun _ => ?_, nofun⟩
    omega

end

theorem retentionTarget_isSome (cap : policy.maxRetainedSegments = some n) (some : lasts ≠ []) :
    (retentionTarget policy lasts).isSome ↔ n ≤ lasts.length := by
  have := length_pos_iff.2 some
  rw [retentionTarget, cap, Option.bind_some]
  dsimp only
  split
  · rw [getElem?_eq_getElem (by omega)]
    simp only [Option.map_some, Option.isSome_some, true_iff]
    omega
  · simp only [Option.isSome_none, Bool.false_eq_true, false_iff]
    omega

theorem le_boundaryOf_iff {q} (positive : 0 < q) :
    q ≤ boundaryOf policy lasts ceiling ↔ (∀ t, retentionTarget policy lasts = some t → q ≤ t) ∧
      (∀ t, ceiling = some t → q ≤ t) ∧
      ((retentionTarget policy lasts).isSome ∨ ceiling.isSome) := by
  unfold boundaryOf reclaimBoundary
  cases retentionTarget policy lasts with
  | none => cases ceiling <;> simp [positive.ne']
  | some t => cases ceiling <;> simp

theorem selects_iff (ascending : lasts.Pairwise fun a b => a.1 < b.1 ∧ a.2 < b.2)
    (positive : ∀ x ∈ lasts, 0 < x.2) (cap : policy.maxRetainedSegments = some n) :
    Selects policy lasts ceiling active total e ↔ e ∈ lasts ∧
      rank (lasts.map Prod.fst) e.1 + max policy.minRetainedSegments 1 ≤ total ∧ e.1 < active ∧
      (n ≤ lasts.length → rank (lasts.map Prod.fst) e.1 + (n - 1) ≤ lasts.length) ∧
      (∀ t, ceiling = some t → e.2 ≤ t) ∧ (n ≤ lasts.length ∨ ceiling.isSome) := by
  constructor
  · rintro ⟨mem, room, sealed, below⟩
    rw [le_boundaryOf_iff (positive e mem), le_retentionTarget_iff ascending cap mem,
      retentionTarget_isSome cap (ne_nil_of_mem mem)] at below
    exact ⟨mem, room, sealed, below⟩
  · rintro ⟨mem, room, sealed, below⟩
    rw [← le_retentionTarget_iff ascending cap mem,
      ← retentionTarget_isSome cap (ne_nil_of_mem mem),
      ← le_boundaryOf_iff (positive e mem)] at below
    exact ⟨mem, room, sealed, below⟩

variable {ids : List Nat} {id : Nat}

section

variable (ordered : ids.Pairwise (· < ·))

include ordered

theorem mem_newest_iff (mem : id ∈ ids) : id ∈ newest n ids ↔ ids.length < rank ids id + n := by
  have low := rank_le_length ids id
  have first := rank_pos ordered mem
  rw [newest, mem_drop_iff_rank ordered mem]
  omega

/-- A segment of the newest ones has `n - 1` marked ones behind it only if all of them are marked.
-/
theorem newest_marked {p} (marked : p id = true) (mem : id ∈ newest n ids)
    (enough : rank (ids.filter p) id + (n - 1) ≤ (ids.filter p).length) :
    ∀ other ∈ newest n ids, p other = true := by
  obtain ⟨W, V, split⟩ := append_of_mem mem
  have whole : ids = (ids.take (ids.length - n) ++ W) ++ id :: V := by
    rw [append_assoc, ← split, newest, take_append_drop]
  have size : W.length + 1 + V.length ≤ n := by
    have := congrArg length split
    rw [newest, length_drop, length_append, length_cons] at this
    omega
  have kept : ids.filter p = (ids.take (ids.length - n) ++ W).filter p ++ id :: V.filter p := by
    conv_lhs => rw [whole]
    rw [filter_append, filter_cons_of_pos marked]
  have place := kept ▸ rank_split (kept ▸ ordered.filter p)
  rw [place, kept, length_append, length_cons] at enough
  have few := length_filter_le p V
  have first : W = [] := length_eq_zero_iff.1 (by omega)
  have all : V.filter p = V := filter_sublist.eq_of_length_le (by omega)
  rw [split, first, nil_append]
  intro other known
  rcases mem_cons.1 known with rfl | later
  · exact marked
  · exact filter_eq_self.1 all other later

/-- If the newest segments are all marked, the oldest of them has `n - 1` marked ones behind it. -/
theorem oldest_marked {p}
    (mem : id ∈ newest n ids) (marked : ∀ other ∈ newest n ids, p other = true)
    (full : n ≤ ids.length) : ∃ oldest ∈ newest n ids, oldest ≤ id ∧
      rank (ids.filter p) oldest + (n - 1) ≤ (ids.filter p).length := by
  cases is : newest n ids with
  | nil => rw [is] at mem; cases mem
  | cons oldest V =>
    have whole : ids = ids.take (ids.length - n) ++ oldest :: V := by
      rw [← is, newest, take_append_drop]
    have size : V.length + 1 = n := by
      have := congrArg length is
      rw [newest, length_drop, length_cons] at this
      omega
    rw [is] at marked
    have kept : ids.filter p = (ids.take (ids.length - n)).filter p ++ oldest :: V := by
      conv_lhs => rw [whole]
      rw [filter_append, filter_eq_self.2 marked]
    have place := kept ▸ rank_split (kept ▸ ordered.filter p)
    have below : oldest ≤ id := by
      have tail := ordered.sublist (drop_sublist (ids.length - n) ids)
      rw [show ids.drop (ids.length - n) = oldest :: V from is, pairwise_cons] at tail
      rw [is] at mem
      rcases mem_cons.1 mem with rfl | later
      · exact le_rfl
      · exact (tail.1 id later).le
    refine ⟨oldest, mem_cons_self, below, ?_⟩
    rw [place, kept, length_append, length_cons]
    omega

end

section

variable {s : DurableSegmentStore} (sound : Sound E d L)
include sound

theorem Sound.ids_ascending : d.segmentIds.Pairwise (· < ·) := by
  rw [sound.lays.segmentIds]
  exact pairwise_map.2 sound.lays.ascending

section

variable (live : ∀ seg ∈ L, cutIn d < seg.id)
include live

theorem Sound.lastsOn_ascending : (lastsOn E d).Pairwise fun a b => a.1 < b.1 ∧ a.2 < b.2 := by
  rw [sound.lastsOn_eq live]
  exact lastsFrom_ascending sound.lays.ascending _

theorem Sound.lastsOn_positive : ∀ e ∈ lastsOn E d, 0 < e.2 := by
  rw [sound.lastsOn_eq live]
  exact fun e => lastsFrom_positive

theorem Sound.lastsOn_ids : (lastsOn E d).map Prod.fst = d.segmentIds.filter (holdsEvent E d) := by
  rw [sound.lastsOn_eq live, lastsFrom_ids, sound.lays.segmentIds, filter_map]
  refine congrArg _ (filter_congr fun seg mem => ?_)
  rw [Bool.eq_iff_iff, decide_eq_true_iff, Function.comp, sound.holdsEvent_iff live mem]

end

variable (current : Current E d L s) (ends : endOf E.codec L = (s.activeSegmentId, s.activeLen))
include current ends

theorem Current.cut_eq (policy : SegmentGcPolicy) :
    (contentsOf d L).cut E.codec L policy = if policy.enabled then
      cutOf policy (lastsOn E d) s.interestCeiling s.activeSegmentId d.segmentIds.length
    else none := by
  rw [Contents.cut, sound.lastsOn_eq current.live, current.interestCeiling, ends,
    sound.lays.segmentIds, length_map]

theorem Current.active_last : d.segmentIds = [] ∨ ∃ A, d.segmentIds = A ++ [s.activeSegmentId] := by
  rw [sound.lays.segmentIds]
  rcases eq_nil_or_concat L with rfl | ⟨A, last, rfl⟩
  · exact .inl rfl
  · rw [concat_eq_append, endOf_append_singleton, Prod.mk.injEq] at ends
    rw [concat_eq_append, map_append, map_singleton, ends.1]
    exact .inr ⟨_, rfl⟩

theorem sealed_holdsEvent (unknown : s.consumersSeen.entries = [])
    (mem : id ∈ d.segmentIds) (sealed : id ≠ s.activeSegmentId) : holdsEvent E d id = true := by
  rw [sound.lays.segmentIds] at mem
  obtain ⟨seg, known, rfl⟩ := mem_map.1 mem
  have only_events : ∀ frame ∈ seg.frames, consumerOf frame = none := by
    intro frame listed
    by_contra other
    obtain ⟨name, is⟩ := Option.ne_none_iff_exists'.1 other
    have seen : ((seenOf (liveFrames d L)).find? name).isSome := by
      rw [seenOf_isSome, liveFrames, liveIn_of_forall current.live]
      exact ⟨frame, mem_flatMap.2 ⟨seg, known, listed⟩, is⟩
    rw [show seenOf (liveFrames d L) = s.consumersSeen from current.seen.symm, OrderedMap.find?,
      unknown] at seen
    cases seen
  have some_frame : seg.frames ≠ [] := by
    obtain ⟨A, last, rfl⟩ := (eq_nil_or_concat L).resolve_left (ne_nil_of_mem known)
    rw [concat_eq_append, endOf_append_singleton, Prod.mk.injEq] at ends
    have filled := sound.filled
    rw [concat_eq_append, filled_concat] at filled
    rw [concat_eq_append, mem_append, mem_singleton] at known
    exact filled seg (known.resolve_right fun is => sealed (is ▸ ends.1))
  rw [sound.holdsEvent_iff current.live known]
  intro none
  obtain ⟨frame, rest, is⟩ := exists_cons_of_ne_nil some_frame
  cases frame with
  | event sequence execution transaction payload =>
    rw [Segment.eventCount, is] at none
    cases none
  | consumerCreate name => cases only_events (.consumerCreate name) (by simp [is])
  | ack name sequence => cases only_events (.ack name sequence) (by simp [is])

/-- Where no consumer is known, the list of a plan has all segments, or all but the active one. -/
theorem lastsOn_ids_alone (unknown : s.consumersSeen.entries = []) {A}
    (is : d.segmentIds = A ++ [s.activeSegmentId]) :
    (lastsOn E d).map Prod.fst = A ++ [s.activeSegmentId].filter (holdsEvent E d) := by
  have sealed : A.filter (holdsEvent E d) = A := by
    refine filter_eq_self.2 fun id mem => ?_
    have ordered := sound.ids_ascending
    rw [is, pairwise_append] at ordered
    have below := ordered.2.2 id mem s.activeSegmentId (by simp)
    exact sealed_holdsEvent sound current ends unknown (by simp [is, mem]) below.ne
  rw [sound.lastsOn_ids current.live, is, filter_append, sealed]

end

def excess (policy : SegmentGcPolicy) (n total events : Nat) : Nat :=
  if n ≤ events then
    min (total - max policy.minRetainedSegments 1) (min (total - 1) (events - (n - 1)))
  else 0

section

variable {A : List Nat} {p : Nat → Bool}
  (ascending : lasts.Pairwise fun a b => a.1 < b.1 ∧ a.2 < b.2) (positive : ∀ x ∈ lasts, 0 < x.2)
  (ordered : (A ++ [active]).Pairwise (· < ·))
  (kept : lasts.map Prod.fst = A ++ [active].filter p) (cap : policy.maxRetainedSegments = some n)
include ascending positive ordered kept cap

theorem selects_alone : Selects policy lasts none active (A.length + 1) e ↔
    e ∈ lasts ∧ rank (lasts.map Prod.fst) e.1 ≤ excess policy n (A.length + 1) lasts.length := by
  rw [selects_iff ascending positive cap]
  refine and_congr_right fun mem => ?_
  have listed : e.1 ∈ A ++ [active].filter p := kept ▸ mem_map_of_mem mem
  have first := rank_pos (ids_ascending ascending) (mem_map_of_mem (f := Prod.fst) mem)
  have sealed : e.1 < active ↔ rank (lasts.map Prod.fst) e.1 ≤ A.length := by
    have below := (pairwise_append.1 ordered).2.2
    rcases mem_append.1 listed with old | last
    · have less := below e.1 old active (by simp)
      have above : ∀ b ∈ [active].filter p, e.1 < b := fun b mem => by
        rw [mem_singleton.1 (mem_of_mem_filter mem)]
        exact less
      rw [kept, rank_append_of_lt A above]
      exact iff_of_true less (rank_le_length A e.1)
    · -- The active segment is behind all the others.
      obtain ⟨is, marked⟩ := mem_filter.1 last
      rw [mem_singleton] at is
      have place : rank (A ++ [active]) active = A.length + 1 := rank_split ordered
      rw [kept, is, filter_cons_of_pos (is ▸ marked), filter_nil, place]
      exact iff_of_false (lt_irrefl _) (by omega)
  rw [sealed, excess]
  simp only [reduceCtorEq, false_implies, implies_true, Option.isSome_none, Bool.false_eq_true,
    or_false, true_and]
  split <;> omega

theorem left_alone : (cutOf policy lasts none active (A.length + 1)).elim (A ++ [active])
      (fun e => (A ++ [active]).filter (e.1 < ·)) =
    (A ++ [active]).drop (excess policy n (A.length + 1) lasts.length) := by
  have selects (x : Nat × Nat) := selects_alone (e := x) ascending positive ordered kept cap
  have short : lasts.length ≤ A.length + 1 := by
    have := length_filter_le p [active]
    rw [← length_map (f := Prod.fst), kept, length_append]
    simpa using this
  have some_last {r : Nat} (some : 0 < r) (low : r ≤ lasts.length) :
      ∃ x ∈ lasts, rank (lasts.map Prod.fst) x.1 = r := by
    have bound : r - 1 < lasts.length := by omega
    refine ⟨lasts[r - 1], getElem_mem bound, ?_⟩
    rw [rank_getElem (i := r - 1) (ids_ascending ascending) (by simp [bound])]
    omega
  have few : excess policy n (A.length + 1) lasts.length ≤ lasts.length := by
    rw [excess]
    split <;> omega
  cases is : cutOf policy lasts none active (A.length + 1) with
  | none =>
    have nothing : excess policy n (A.length + 1) lasts.length = 0 := by
      by_contra some
      obtain ⟨x, mem, place⟩ := some_last (Nat.pos_of_ne_zero some) few
      exact (cutOf_eq_none_iff ascending positive).1 is x ((selects x).2 ⟨mem, place.le⟩)
    rw [nothing, drop_zero]
    rfl
  | some e =>
    obtain ⟨selected, greatest⟩ := cutOf_greatest ascending is
    obtain ⟨mem, low⟩ := (selects e).1 selected
    have first := rank_pos (ids_ascending ascending) (mem_map_of_mem (f := Prod.fst) mem)
    have place : rank (lasts.map Prod.fst) e.1 = excess policy n (A.length + 1) lasts.length := by
      obtain ⟨x, known, at_end⟩ := some_last (by omega) few
      have most := rank_mono (lasts.map Prod.fst) (greatest x ((selects x).2 ⟨known, at_end.le⟩))
      omega
    have same : rank (A ++ [active]) e.1 = rank (lasts.map Prod.fst) e.1 := by
      have above : ∀ b ∈ [active], e.1 < b := by simpa using selected.sealed
      rw [kept, rank_append_of_lt A above,
        rank_append_of_lt A fun b mem => above b (mem_of_mem_filter mem)]
    rw [← place, ← same]
    exact filter_lt_eq_drop ordered e.1

end

section

variable {ids : List Nat} {p : Nat → Bool}
  (ascending : lasts.Pairwise fun a b => a.1 < b.1 ∧ a.2 < b.2) (positive : ∀ x ∈ lasts, 0 < x.2)
  (ordered : ids.Pairwise (· < ·)) (kept : lasts.map Prod.fst = ids.filter p)
  (cap : policy.maxRetainedSegments = some n)
include ascending positive ordered kept cap

/-- A cut takes one of the newest segments if a segment among them is acked and sealed, the floor
has room for it, and either the cap is not reached or all of them are in the list. -/
theorem newest_cut_iff {t} :
    (∃ e, cutOf policy lasts (some t) active ids.length = some e ∧ ∃ id ∈ newest n ids, id ≤ e.1) ↔
    ∃ e ∈ lasts, e.1 ∈ newest n ids ∧ e.1 < active ∧ e.2 ≤ t ∧
      rank (lasts.map Prod.fst) e.1 + max policy.minRetainedSegments 1 ≤ ids.length ∧
      (n ≤ lasts.length → ∀ id ∈ newest n ids, p id = true) := by
  have selects (x : Nat × Nat) : Selects policy lasts (some t) active ids.length x ↔ _ :=
    selects_iff ascending positive cap
  have known {x : Nat × Nat} (mem : x ∈ lasts) : x.1 ∈ ids ∧ p x.1 = true := by
    rw [← mem_filter, ← kept]
    exact mem_map_of_mem mem
  have size : (ids.filter p).length = lasts.length := by rw [← kept, length_map]
  constructor
  · rintro ⟨e, is, id, window, low⟩
    obtain ⟨mem, room, sealed, capped, acked, -⟩ := (selects e).1 (cutOf_greatest ascending is).1
    have inside : e.1 ∈ newest n ids := by
      rw [mem_newest_iff ordered (mem_of_mem_drop window)] at window
      rw [mem_newest_iff ordered (known mem).1]
      exact Nat.lt_of_lt_of_le window (Nat.add_le_add_right (rank_mono ids low) n)
    refine ⟨e, mem, inside, sealed, acked t rfl, room, fun reached => ?_⟩
    have enough := capped reached
    rw [kept, ← size] at enough
    exact newest_marked ordered (known mem).2 inside enough
  · rintro ⟨e, mem, inside, sealed, acked, room, full⟩
    have found : ∃ x, Selects policy lasts (some t) active ids.length x ∧
        ∃ id ∈ newest n ids, id ≤ x.1 := by
      by_cases reached : n ≤ lasts.length
      · -- The oldest of them is selected, since it is below one that is acked and within the floor.
        have few : n ≤ ids.length := by
          have := length_filter_le p ids
          omega
        obtain ⟨oldest, window, low, enough⟩ := oldest_marked ordered inside (full reached) few
        have listed : oldest ∈ lasts.map Prod.fst := by
          rw [kept]
          exact mem_filter.2 ⟨mem_of_mem_drop window, full reached oldest window⟩
        obtain ⟨x, entry, rfl⟩ := mem_map.1 listed
        have earlier : x.2 ≤ e.2 := by
          obtain ⟨i, at_i, rfl⟩ := mem_iff_getElem.1 entry
          obtain ⟨j, at_j, rfl⟩ := mem_iff_getElem.1 mem
          have order := pairwise_iff_getElem.1 ascending
          rcases lt_trichotomy i j with less | rfl | more
          · exact (order i j at_i at_j less).2.le
          · exact le_rfl
          · exact absurd (order j i at_j at_i more).1 (not_lt.2 low)
        refine ⟨x, (selects x).2 ⟨entry, ?_, low.trans_lt sealed, fun _ => ?_, ?_, .inl reached⟩,
          x.1, window, le_rfl⟩
        · have := rank_mono (lasts.map Prod.fst) low
          omega
        · rw [kept, ← size]
          exact enough
        · rintro _ ⟨⟩
          exact earlier.trans acked
      · refine ⟨e, (selects e).2 ⟨mem, room, sealed, fun high => absurd high reached, ?_, .inr rfl⟩,
          e.1, inside, le_rfl⟩
        rintro _ ⟨⟩
        exact acked
    obtain ⟨x, selected, id, window, low⟩ := found
    cases is : cutOf policy lasts (some t) active ids.length with
    | none => exact absurd selected ((cutOf_eq_none_iff ascending positive).1 is x)
    | some cut =>
      exact ⟨cut, rfl, id, window, low.trans ((cutOf_greatest ascending is).2 x selected)⟩

end

end Ehdb.Proof.Reference
