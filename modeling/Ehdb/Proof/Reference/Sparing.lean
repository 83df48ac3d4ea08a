import Ehdb.Proof.Reference.Runs

/-! Which segments of a directory hold an event, where a plan cuts them, and what a consumer gets
from a log that has lost its first events. -/

namespace Ehdb.Proof.Reference

open Ehdb.Reference DurableSegmentStore ProofKit List

variable {E : StoreEnv} {c c' : Contents} {d : Dir} {L : Layout} {seg : Segment} {k : Nat}

def holdsEvent (E : StoreEnv) (d : Dir) (id : Nat) : Bool :=
  !(replaySegment E.codec id (d.bytes id) (.initial true)).2.events.isEmpty

theorem gapless_of_range {views n} (positive : 0 < n)
    (numbers : views.map EventLogRecordView.globalSequence = range' n views.length) :
    Gapless views := by
  cases views with
  | nil => exact gapless_nil
  | cons view rest =>
    simp only [map_cons, length_cons, range'_succ, cons.injEq] at numbers
    obtain ⟨first, others⟩ := numbers
    have base : baseOf (view :: rest) + 2 = n + 1 := by
      show view.globalSequence - 1 + 2 = n + 1
      omega
    rw [Gapless, tail_cons, others, base]

variable {A B : Layout}

theorem Sound.segment_numbers (sound : Sound E d (A ++ seg :: B))
    (live : ∀ other ∈ A ++ seg :: B, cutIn d < other.id) :
    (viewsOf seg.frames).map EventLogRecordView.globalSequence = range'
      ((contentsOf d (A ++ seg :: B)).base + 1 + (viewsOf (framesIn A)).length) seg.eventCount := by
  have numbers : (viewsOf (framesIn (A ++ seg :: B))).map EventLogRecordView.globalSequence =
      range' ((contentsOf d (A ++ seg :: B)).base + 1)
        (viewsOf (framesIn (A ++ seg :: B))).length := by
    have numbered := sound.numbered
    rw [Contents.Numbered, contentsOf, liveFrames, liveIn_of_forall live] at numbered
    rw [contentsOf, liveFrames, liveIn_of_forall live]
    exact numbered
  rw [framesIn_append, framesIn_cons, viewsOf_append, viewsOf_append, map_append,
    map_append, length_append, length_append, ← range'_append_1,
    ← range'_append_1] at numbers
  have rest := (append_inj numbers (by simp)).2
  exact (append_inj rest (by simp)).1

theorem Sound.replay_alone (sound : Sound E d L)
    (live : ∀ seg ∈ L, cutIn d < seg.id) (mem : seg ∈ L) :
    (replaySegment E.codec seg.id (d.bytes seg.id) (.initial true)).2 =
      withIndex (.initial true) (placedFrom E.codec seg.id 0 seg.frames) := by
  have gapless : Gapless (viewsOf seg.frames) := by
    obtain ⟨A, B, rfl⟩ := append_of_mem mem
    exact gapless_of_range (by omega) (sound.segment_numbers live)
  have replayed : replaySegment E.codec seg.id (encoded E.codec seg.frames ++ seg.torn)
      (withIndex (.initial true) []) = _ :=
    replaySegment_frames (sound.lays.fits seg mem) (sound.lays.torn seg mem) gapless
  have start : withIndex (.initial true) [] = DurableSegmentStore.initial true := rfl
  rw [start] at replayed
  rw [sound.lays.bytes_of_mem mem, replayed, nil_append]

theorem length_locsOf_placedFrom (codec : FrameCodec) (seg : Segment) :
    (locsOf (placedFrom codec seg.id 0 seg.frames)).length = seg.eventCount := by
  rw [locsOf_length, placedFrom_frames]
  rfl

theorem Sound.holdsEvent_iff (sound : Sound E d L)
    (live : ∀ seg ∈ L, cutIn d < seg.id) (mem : seg ∈ L) :
    holdsEvent E d seg.id = true ↔ seg.eventCount ≠ 0 := by
  rw [holdsEvent, sound.replay_alone live mem, ← length_locsOf_placedFrom E.codec seg]
  show (!(locsOf (placedFrom E.codec seg.id 0 seg.frames)).isEmpty) = true ↔ _
  simp

def newest (n : Nat) (ids : List Nat) : List Nat := ids.drop (ids.length - n)

variable {policy : SegmentGcPolicy} {e : Nat × Nat}

theorem split_at_cut (is : c.cut E.codec L policy = some e) :
    ∃ A seg B, L = A ++ seg :: B ∧ seg.id = e.1 ∧ seg.eventCount ≠ 0 ∧ B ≠ [] ∧
      e ∈ (lastsFrom c.base L).take (L.length - max policy.minRetainedSegments 1) := by
  rw [Contents.cut] at is
  split at is
  · obtain ⟨mem, sealed, -⟩ := cutOf_eq_some is
    obtain ⟨A, seg, B, rfl, some, id, -⟩ := mem_lastsFrom mem
    refine ⟨A, seg, B, rfl, id, some, ?_, ?_⟩
    · rintro rfl
      rw [endOf_append_singleton, ← id] at sealed
      exact lt_irrefl _ sealed
    · unfold cutOf at is
      split at is
      · cases is
      · exact (takeWhile_sublist _).mem (mem_of_getLast? is)
  · cases is

/-- Whether every segment that is older than a sealed one with an event holds an event. -/
def FilledBelow (E : StoreEnv) (d : Dir) : Prop :=
  ∀ id ∈ d.segmentIds, ∀ newer ∈ d.segmentIds, id < newer → d.segmentIds.getLast? ≠ some newer →
    holdsEvent E d newer = true → holdsEvent E d id = true

instance (E : StoreEnv) (d : Dir) : Decidable (FilledBelow E d) :=
  inferInstanceAs (Decidable (∀ _ ∈ _, ∀ _ ∈ _, _ → _ → _ → _))

theorem FilledBelow.older (h : FilledBelow E d) (sound : Sound E d (A ++ seg :: B))
    (live : ∀ other ∈ A ++ seg :: B, cutIn d < other.id)
    (sealed : B ≠ []) (some : seg.eventCount ≠ 0) : ∀ other ∈ A, other.eventCount ≠ 0 := by
  intro other old
  have ordered := sound.lays.ascending
  rw [pairwise_append, pairwise_cons] at ordered
  obtain ⟨-, ⟨above, -⟩, below⟩ := ordered
  have mem : seg ∈ A ++ seg :: B := by simp
  have known : other ∈ A ++ seg :: B := mem_append_left _ old
  refine (sound.holdsEvent_iff live known).1
    (h other.id ?_ seg.id ?_ (below other old seg (by simp))
    ?_ ((sound.holdsEvent_iff live mem).2 some))
  · rw [sound.lays.segmentIds]
    exact mem_map_of_mem known
  · rw [sound.lays.segmentIds]
    exact mem_map_of_mem mem
  · -- A segment with another one behind it is not the last.
    rw [sound.lays.segmentIds]
    obtain ⟨front, last, rfl⟩ := (eq_nil_or_concat B).resolve_left sealed
    intro is
    rw [concat_eq_append, ← cons_append, ← append_assoc, map_append,
      map_singleton, getLast?_concat] at is
    exact absurd (Option.some.inj is) (above last (by simp)).ne'

theorem newest_above_cut (sound : Sound E d L) (live : ∀ seg ∈ L, cutIn d < seg.id)
    (filled : policy.minRetainedSegments ≤ 1 ∨ FilledBelow E d)
    (is : c.cut E.codec L policy = some e) :
    ∀ id ∈ newest policy.minRetainedSegments (L.map Segment.id), e.1 < id := by
  obtain ⟨A, seg, B, rfl, at_cut, some, sealed, selected⟩ := split_at_cut is
  have ordered := sound.lays.ascending
  rw [pairwise_append, pairwise_cons] at ordered
  obtain ⟨-, ⟨above, -⟩, below⟩ := ordered
  have room : A.length + 1 ≤ (A ++ seg :: B).length - policy.minRetainedSegments := by
    rcases filled with low | filled
    · have := length_pos_iff.2 sealed
      simp only [length_append, length_cons]
      omega
    · -- The segments before the cut all count, so the cut is at the place of its segment.
      have older := filled.older sound live sealed some
      have ids := congrArg (take ((A ++ seg :: B).length - max policy.minRetainedSegments 1))
        (lastsFrom_ids c.base (A ++ seg :: B))
      rw [← map_take, filter_append, filter_eq_self.2 (by simpa using older), map_append] at ids
      have listed := mem_map_of_mem (f := Prod.fst) selected
      rw [ids, ← at_cut] at listed
      have behind : A.length < (A ++ seg :: B).length - max policy.minRetainedSegments 1 := by
        by_contra short
        rw [take_append_of_le_length (by simpa using Nat.le_of_not_lt short)] at listed
        obtain ⟨other, old, same⟩ := mem_map.1 (mem_of_mem_take listed)
        exact absurd same (below other old seg (by simp)).ne
      omega
  intro id mem
  rw [newest, length_map, map_append, map_cons] at mem
  have behind : id ∈ B.map Segment.id := by
    obtain ⟨more, is⟩ := Nat.exists_eq_add_of_le room
    rw [is, ← drop_drop] at mem
    have rest : (A.map Segment.id ++ seg.id :: B.map Segment.id).drop (A.length + 1) =
        B.map Segment.id := by
      rw [append_cons, drop_left']
      simp
    rw [rest] at mem
    exact mem_of_mem_drop mem
  obtain ⟨other, new, rfl⟩ := mem_map.1 behind
  exact at_cut ▸ above other new

variable {d' : Dir}

theorem Stays.opened {s' id} (stays : Stays d id)
    (lays : Lays E.codec d L) (opened : Opened E d L s' d') : id ∈ d'.segmentIds := by
  obtain ⟨mem, live⟩ := stays
  rw [lays.segmentIds] at mem
  obtain ⟨seg, known, rfl⟩ := mem_map.1 mem
  rw [opened.sound.lays.segmentIds, cleaned_ids]
  exact mem_map_of_mem (mem_liveIn.2 ⟨known, live⟩)

theorem Settled.reclaims {L'} (settled : Settled E c L policy d' L') :
    ∃ k, Reclaims c k (contentsOf d' L') ∧
      (k ≠ 0 → ∀ name, c.Knows name → (contentsOf d' L').base ≤ c.cursor name) := by
  cases is : c.cut E.codec L policy with
  | none =>
    have same := (settled.quiet is).1
    exact ⟨0, same ▸ .refl _, fun some => absurd rfl some⟩
  | some e =>
    obtain ⟨k, new, reclaims, at_cut, acked, -⟩ := settled.cut e is
    refine ⟨k, reclaims, fun _ name known => ?_⟩
    rw [reclaims.base, at_cut]
    exact acked name known

theorem Reclaims.records (h : Reclaims c k c') {name}
    (acked : k ≠ 0 → c'.base ≤ c.cursor name) (created created' : Bool) (limit : Nat) :
    (c'.tailFor name created limit).records = (c.tailFor name created' limit).records := by
  have from_cursor : max (c'.cursor name) c'.base = max (c.cursor name) c.base ∧
      ∀ q, max (c.cursor name) c.base < q → c'.viewAt q = c.viewAt q := by
    rw [h.cursors]
    rcases Nat.eq_zero_or_pos k with rfl | some
    · have base : c'.base = c.base := h.base
      refine ⟨by rw [base], fun q _ => ?_⟩
      rw [Contents.viewAt, Contents.viewAt, base, h.views, drop_zero]
    · have enough := acked some.ne'
      have base := h.base
      refine ⟨by omega, fun q above => ?_⟩
      rw [Contents.viewAt, Contents.viewAt, h.views, getElem?_drop]
      congr 1
      omega
  show (filterMap c'.viewAt ((sequencesAfter (max (c'.cursor name) c'.base) c'.tip).take limit)) =
    filterMap c.viewAt ((sequencesAfter (max (c.cursor name) c.base) c.tip).take limit)
  rw [from_cursor.1, h.tip]
  refine filterMap_congr fun q mem => ?_
  exact from_cursor.2 q (mem_sequencesAfter.1 (mem_of_mem_take mem)).1

end Ehdb.Proof.Reference
