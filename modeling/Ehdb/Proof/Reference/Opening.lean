import Ehdb.Proof.Reference.Replay

/-! `Current` is a store that knows what its directory holds. Opening a sound directory gives such a
store, whether by a replay or from the checkpoint, and leaves the contents as they are. -/

namespace Ehdb.Proof.Reference

open Ehdb.Reference DurableSegmentStore ProofKit List

variable {E : StoreEnv} {d d' : Dir} {L L' : Layout} {s s' : DurableSegmentStore}

def Keeps (E : StoreEnv) (c : Contents) (d : Dir) : Prop :=
  ∃ L, Sound E d L ∧ contentsOf d L = c

variable {A B : Layout} {seg : Segment}

theorem mem_dropLast_append (h : seg ∈ (A ++ B).dropLast) : seg ∈ A ∨ seg ∈ B.dropLast := by
  rcases eq_nil_or_concat B with rfl | ⟨front, last, rfl⟩
  · rw [append_nil] at h
    exact .inl (dropLast_subset A h)
  · rw [concat_eq_append, ← append_assoc, dropLast_concat] at h
    rw [concat_eq_append, dropLast_concat]
    exact mem_append.1 h

variable {cut : Nat}

theorem mem_cleaned (h : seg ∈ cleaned cut L) :
    seg.torn = [] ∧ cut < seg.id ∧ ∃ old ∈ L, old.id = seg.id := by
  obtain ⟨old, mem, rfl⟩ := mem_map.1 h
  obtain ⟨known, live⟩ := mem_liveIn.1 mem
  exact ⟨rfl, live, old, known, rfl⟩

@[simp]
theorem liveIn_cleaned (cut : Nat) (L : Layout) : liveIn cut (cleaned cut L) = cleaned cut L :=
  liveIn_of_forall fun _ mem => (mem_cleaned mem).2.1

theorem Sound.of_cleaned (h : Sound E d (A ++ B))
    (lays : Lays E.codec d' (cleaned (cutIn d) A ++ B))
    (checkpoint : d'.checkpoint = d.checkpoint) (reclaim : d'.reclaim = d.reclaim) :
    Sound E d' (cleaned (cutIn d) A ++ B) ∧
      contentsOf d' (cleaned (cutIn d) A ++ B) = contentsOf d (A ++ B) := by
  have manifest := manifest_congr reclaim
  have frames : liveFrames d' (cleaned (cutIn d) A ++ B) = liveFrames d (A ++ B) := by
    rw [liveFrames, liveFrames, cutIn, manifest, liveIn_append, liveIn_append, liveIn_cleaned,
      framesIn_append, framesIn_append, cleaned, framesIn_untorn]
  have same : contentsOf d' (cleaned (cutIn d) A ++ B) =
      contentsOf d (A ++ B) := contentsOf_congr reclaim frames
  have part : ((cleaned (cutIn d) A ++ B).map Segment.frames).Sublist
      ((A ++ B).map Segment.frames) := by
    have frames : (cleaned (cutIn d) A ++ B).map Segment.frames =
        (liveIn (cutIn d) A ++ B).map Segment.frames := by
      simp only [cleaned, map_append, map_map]
      rfl
    rw [frames]
    exact (filter_sublist.append_right B).map Segment.frames
  have filled : Filled (cleaned (cutIn d) A ++ B) := by
    intro frames mem
    refine h.filled frames ?_
    have shorter := (reverse_sublist.2 part).tail
    rw [tail_reverse, tail_reverse, reverse_sublist] at shorter
    exact shorter.mem mem
  refine ⟨h.of_frames lays ?_ ?_ ?_ same ?_ (.inl checkpoint) filled, same⟩
  · intro seg mem
    rcases mem_append.1 mem with mem | mem
    · obtain ⟨-, -, old, known, id⟩ := mem_cleaned mem
      exact id ▸ h.positive old (mem_append_left _ known)
    · exact h.positive seg (mem_append_right _ mem)
  · intro seg mem
    rcases mem_dropLast_append mem with mem | mem
    · exact (mem_cleaned mem).1
    · refine h.whole seg ?_
      rcases eq_nil_or_concat B with rfl | ⟨front, last, rfl⟩
      · cases mem
      · rw [concat_eq_append] at mem ⊢
        rw [← append_assoc, dropLast_concat]
        rw [dropLast_concat] at mem
        exact mem_append_right _ mem
  · rw [cutIn, manifest, liveIn_append, liveIn_cleaned]
    intro none
    obtain ⟨clean, rest⟩ := append_eq_nil_iff.1 none
    have old : liveIn (cutIn d) (A ++ B) = [] := by
      rw [liveIn_append, rest, append_nil]
      exact map_eq_nil_iff.1 clean
    obtain ⟨empty, zero⟩ := h.above old
    rw [clean, (append_eq_nil_iff.1 empty).2]
    exact ⟨rfl, zero⟩
  · rcases eq_nil_or_concat B with rfl | ⟨front, last, rfl⟩
    · rw [append_nil, append_nil, cleaned, endOf_untorn]
      have ends := h.endOf_live
      rwa [append_nil] at ends
    · rw [concat_eq_append, ← append_assoc, ← append_assoc, endOf_append_singleton,
        endOf_append_singleton]

theorem Sound.cleaning (h : Sound E d L) (cleaning : Cleaning E.codec d L d') :
    Keeps E (contentsOf d L) d' := by
  obtain ⟨⟨A, B, rfl, lays⟩, checkpoint, reclaim⟩ := cleaning
  exact ⟨_, h.of_cleaned lays checkpoint reclaim⟩

structure Indexed (E : StoreEnv) (d : Dir) (L : Layout) (s : DurableSegmentStore) : Prop where
  events : s.events = locsOf (placed E.codec L)
  byExecution : s.byExecution = executionsOf (framesIn L)
  base : s.reclaimedThrough = (contentsOf d L).base

/-- Where the next frame goes: the end of the last segment, or a segment that is not there yet. -/
def Placed (E : StoreEnv) (d : Dir) (L : Layout) (s : DurableSegmentStore) : Prop :=
  endOf E.codec L = (s.activeSegmentId, s.activeLen) ∨
    (∀ seg ∈ L, seg.id < s.activeSegmentId ∧ seg.frames ≠ []) ∧ s.activeLen = 0 ∧
      cutIn d < s.activeSegmentId

/-- Memory and directory agree, so that the next write goes where it belongs. -/
structure Current (E : StoreEnv) (d : Dir) (L : Layout) (s : DurableSegmentStore) : Prop where
  writable : s.readOnly = false
  untorn : ∀ seg ∈ L, seg.torn = []
  live : ∀ seg ∈ L, cutIn d < seg.id
  position : Placed E d L s
  count : s.eventCount = (contentsOf d L).tip
  seen : s.consumersSeen = (contentsOf d L).seen
  acks : s.consumerAcks = (contentsOf d L).acks
  cut : s.reclaimedSegment = cutIn d
  unloaded : s.indexLoaded = false → s.reclaimedThrough = d.manifest.reclaimedThroughSeq
  loaded : s.indexLoaded = true → Indexed E d L s

/-- As `Current`, without the counters that a reclaim brings up to date at its end. -/
structure Standing (E : StoreEnv) (d : Dir) (L : Layout) (s : DurableSegmentStore) : Prop where
  writable : s.readOnly = false
  untorn : ∀ seg ∈ L, seg.torn = []
  live : ∀ seg ∈ L, cutIn d < seg.id
  position : Placed E d L s
  cut : s.reclaimedSegment = cutIn d

theorem Current.standing (h : Current E d L s) : Standing E d L s :=
  ⟨h.writable, h.untorn, h.live, h.position, h.cut⟩

theorem Current.liveFrames (h : Current E d L s) : liveFrames d L = framesIn L := by
  rw [Reference.liveFrames, liveIn_of_forall h.live]

theorem Replayed.current (sound : Sound E d L) (h : Replayed E d L s s' d')
    (writable : s.readOnly = false) : Sound E d' (cleaned (cutIn d) L) ∧
    contentsOf d' (cleaned (cutIn d) L) = contentsOf d L ∧
    Current E d' (cleaned (cutIn d) L) (markLoaded true s') ∧ endOf E.codec (cleaned (cutIn d) L) =
      (s'.activeSegmentId, s'.activeLen) := by
  obtain ⟨-, rfl, lays, checkpoint, reclaim⟩ := h
  have manifest := manifest_congr reclaim
  have clean := Sound.of_cleaned (A := L) (B := []) (by rwa [append_nil])
    (by rwa [append_nil]) checkpoint reclaim
  rw [append_nil, append_nil] at clean
  obtain ⟨sound', same⟩ := clean
  have ends : endOf E.codec (cleaned (cutIn d) L) =
      endOf E.codec (liveIn (cutIn d) L) := endOf_untorn _ _
  have base : (settleBase d.manifest (during E.codec (cutIn d) s
      (liveIn (cutIn d) L))).reclaimedThrough = (contentsOf d L).base := by
    simp only [settleBase, during, withIndex, placed_frames, contentsOf, liveFrames]
    split <;> omega
  refine ⟨sound', same, ?_, ends⟩
  refine ⟨writable, fun seg mem => (mem_cleaned mem).1, ?_, .inl ends, ?_, ?_, ?_, ?_,
    fun is => (by cases is), fun _ => ⟨?_, ?_, ?_⟩⟩
  · simp only [cutIn, manifest]
    exact fun seg mem => (mem_cleaned mem).2.1
  · rw [same]
    show _ + (locsOf (placed E.codec _)).length = _
    rw [locsOf_length, placed_frames, Contents.tip]
    exact congrArg (· + _) base
  · rw [same]
    simp [replayed, settleBase, during, withIndex, contentsOf, liveFrames, markLoaded]
  · rw [same]
    simp [replayed, settleBase, during, withIndex, contentsOf, liveFrames, markLoaded]
  · simp only [cutIn, manifest]
    rfl
  · rw [cleaned, placed_untorn]
    rfl
  · rw [cleaned, framesIn_untorn]
    simp [replayed, settleBase, during, withIndex, markLoaded]
  · rw [same]
    exact base

theorem cleaned_of_untorn (h : ∀ seg ∈ L, seg.torn = []) : cleaned cut L = liveIn cut L := by
  refine (map_congr_left fun seg mem => ?_).trans (map_id _)
  rw [Segment.untorn, ← h seg (mem_liveIn.1 mem).1]
  rfl

theorem does_removeThrough (lays : Lays E.codec d L) (untorn : ∀ seg ∈ L, seg.torn = []) :
    Does (Cleaning E.codec d L) (removeThrough E (cutIn d)) s
      (fun _ s' d' => s' = s ∧ Lays E.codec d' (cleaned (cutIn d) L) ∧
        d'.checkpoint = d.checkpoint ∧ d'.reclaim = d.reclaim)
      (fun _ s' d' => s' = s ∧ E.mayFail = true ∧ Cleaning E.codec d L d') d := by
  refine .bind (does_readDir (.refl lays) ?_)
  rw [lays.segmentIds]
  refine .each (fun before rest m d' => ∃ A B, L = A ++ B ∧ before = A.map Segment.id ∧
    rest = B.map Segment.id ∧ m = s ∧ Lays E.codec d' (cleaned (cutIn d) A ++ B) ∧
    d'.checkpoint = d.checkpoint ∧ d'.reclaim = d.reclaim) ?_ ?_ ?_
  · rintro before id rest m d' ⟨A, B, split, rfl, rest_eq, rfl, now, checkpoint, reclaim⟩
    obtain ⟨seg, B, rfl, rfl, rfl⟩ : ∃ seg B', B = seg :: B' ∧ seg.id = id ∧
        B'.map Segment.id = rest := by
      cases B with
      | nil => cases rest_eq
      | cons seg B => exact ⟨seg, B, rfl, (cons.inj rest_eq).1.symm, (cons.inj rest_eq).2.symm⟩
    have split' : L = (A ++ [seg]) ++ B := by simpa using split
    have here : Cleaning E.codec d L d' := ⟨⟨A, seg :: B, split, now⟩, checkpoint, reclaim⟩
    split
    · rename_i dead
      have removed : Lays E.codec (d'.remove seg.id)
          (cleaned (cutIn d) (A ++ [seg]) ++ B) := by
        rw [cleaned, liveIn_concat_dead dead]
        exact now.remove
      refine does_diskStep ⟨⟨⟨A ++ [seg], B, split', removed⟩, checkpoint, reclaim⟩, ?_⟩
        fun faulty => ⟨here, rfl, faulty, here⟩
      exact ⟨A ++ [seg], B, split', by simp, rfl, rfl, removed, checkpoint, reclaim⟩
    · rename_i not_dead
      have live : cutIn d < seg.id := Nat.lt_of_not_le not_dead
      have whole : seg.untorn = seg := by
        rw [Segment.untorn, ← untorn seg (split ▸ mem_append_right _ mem_cons_self)]
      refine .pure ⟨A ++ [seg], B, split', by simp, rfl, rfl, ?_, checkpoint, reclaim⟩
      rw [cleaned, liveIn_concat_live live, map_append, map_singleton, whole]
      simpa [cleaned] using now
  · exact ⟨[], L, rfl, rfl, rfl, rfl, lays, rfl, rfl⟩
  · rintro m d' ⟨A, B, split, before_eq, rest_eq, same, now, checkpoint, reclaim⟩
    have none : B = [] := map_eq_nil_iff.1 rest_eq.symm
    rw [none, append_nil] at split now
    subst split
    exact ⟨same, now, checkpoint, reclaim⟩

variable {c : StoreCheckpoint}

theorem Sound.consistent (h : Sound E d L) (is : d.checkpoint = some c)
    (consistent : checkpointConsistent d c = true) :
    c = checkpointOf E.codec d L ∧ ∀ seg ∈ L, seg.torn = [] := by
  obtain ⟨earlier, current⟩ := h.checkpoint c is
  unfold checkpointConsistent at consistent
  rw [h.lays.segmentIds] at consistent
  dsimp only at consistent
  split at consistent
  · simp only [Bool.and_eq_true, List.isEmpty_iff, decide_eq_true_eq, List.map_eq_nil_iff]
      at consistent
    obtain ⟨⟨rfl, active⟩, len⟩ := consistent
    exact ⟨current active len, nofun⟩
  · rcases eq_nil_or_concat L with rfl | ⟨front, last, rfl⟩
    · cases consistent
    · rw [concat_eq_append] at *
      rw [map_append, map_singleton, getLast?_concat] at consistent
      simp only [Bool.and_eq_true, decide_eq_true_eq] at consistent
      obtain ⟨active, len⟩ := consistent
      rw [endOf_append_singleton] at earlier current
      have mem : last ∈ front ++ [last] := by simp
      rw [h.lays.bytes_of_mem mem, length_append] at len
      have whole : last.torn = [] := by
        rcases earlier with less | ⟨-, le⟩
        · exact absurd active.symm less.ne
        · exact length_eq_zero_iff.1 (by dsimp only at le; omega)
      refine ⟨current active.symm (by rw [← len, whole]; rfl), ?_⟩
      intro seg other
      rcases mem_append.1 other with older | is_last
      · exact h.whole seg (by rwa [dropLast_concat])
      · rw [mem_singleton.1 is_last, whole]

def tornIn (d : Dir) (L : Layout) : Nat :=
  (liveIn (cutIn d) L).countP fun seg => seg.torn ≠ []

/-- Opening keeps the contents and leaves memory current. -/
structure Opened (E : StoreEnv) (d : Dir) (L : Layout) (s' : DurableSegmentStore) (d' : Dir) :
    Prop where
  sound : Sound E d' (cleaned (cutIn d) L)
  contents : contentsOf d' (cleaned (cutIn d) L) = contentsOf d L
  current : Current E d' (cleaned (cutIn d) L) s'
  ends : endOf E.codec (cleaned (cutIn d) L) = (s'.activeSegmentId, s'.activeLen)
  reclaim : d'.reclaim = d.reclaim
  torn : s'.tornTailSkipped = tornIn d L
  unloaded : s'.indexLoaded = false → tornIn d L = 0

theorem Sound.persist (h : Sound E d L) (current : Current E d L s)
    (ends : endOf E.codec L = (s.activeSegmentId, s.activeLen)) :
    Sound E { d with checkpoint := some s.checkpoint } L ∧
      contentsOf { d with checkpoint := some s.checkpoint } L = contentsOf d L := by
  have is : s.checkpoint = checkpointOf E.codec d L := by
    rw [DurableSegmentStore.checkpoint, checkpointOf, ends, current.count, current.seen,
      current.acks]
  exact ⟨h.of_frames (h.lays.of_segments rfl) h.positive h.whole h.above rfl rfl
    (.inr (congrArg some is)) h.filled, rfl⟩

theorem does_persistCheckpoint {I ok err} (writable : s.readOnly = false)
    (here : I d) (persisted : I { d with checkpoint := some s.checkpoint })
    (done : ok () s { d with checkpoint := some s.checkpoint })
    (failed : E.mayFail = true → err ioError s d) : Does I (persistCheckpoint E) s ok err d := by
  refine .bind (.memory ?_)
  rw [if_neg (by simp [writable])]
  refine .bind (does_diskStep ⟨here, ?_⟩ fun faulty => ⟨here, failed faulty⟩)
  exact does_diskStep ⟨persisted, done⟩ fun faulty => ⟨here, failed faulty⟩

theorem Current.persist (h : Current E d L s) (mayFail : Bool) (c : Option StoreCheckpoint) :
    Current { E with mayFail := mayFail } { d with checkpoint := c } L s :=
  ⟨h.writable, h.untorn, h.live, h.position, h.count, h.seen, h.acks, h.cut, h.unloaded,
    fun loaded => ⟨(h.loaded loaded).events, (h.loaded loaded).byExecution, (h.loaded loaded).base⟩⟩

theorem does_openReplaying (sound : Sound E d L) (writable : s.readOnly = false) :
    Does (Keeps E (contentsOf d L)) (openReplaying E) s (fun _ s' d' => Opened E d L s' d')
      (fun _ _ d' => E.mayFail = true ∧ Keeps E (contentsOf d L) d') d := by
  refine .bind ((does_replay sound.lays writable sound.positive).mono
    (fun d' cleaning => sound.cleaning cleaning) ?_ ?_)
  · intro _ s' d' replayed
    obtain ⟨sound', same, current, ends⟩ := replayed.current sound writable
    refine .bind (.update ?_)
    have here : Keeps E (contentsOf d L) d' := ⟨_, sound', same⟩
    obtain ⟨persisted, same'⟩ := sound'.persist current ends
    refine does_persistCheckpoint current.writable here ⟨_, persisted, same'.trans same⟩ ?_
      fun faulty => ⟨faulty, here⟩
    exact ⟨persisted, same'.trans same, current.persist _ _, ends, replayed.reclaim,
      by rw [replayed.memory]; rfl, nofun⟩
  · rintro e s' d' ⟨cleaning, gap | ⟨faulty, -⟩⟩
    · exact absurd sound.numbered.gapless gap
    · exact ⟨faulty, sound.cleaning cleaning⟩

theorem does_openTrusting (sound : Sound E d L) (is : d.checkpoint = some c)
    (consistent : checkpointConsistent d c = true) :
    Does (Keeps E (contentsOf d L)) (openTrusting E c) (.initial false)
      (fun _ s' d' => Opened E d L s' d')
      (fun _ _ d' => E.mayFail = true ∧ Keeps E (contentsOf d L) d') d := by
  obtain ⟨rfl, untorn⟩ := sound.consistent is consistent
  have torn : tornIn d L = 0 :=
    countP_eq_zero.2 fun seg mem => by simpa using untorn seg (mem_liveIn.1 mem).1
  -- what the removal of leftover segments leaves is what opening is to leave
  have finish : ∀ d', Lays E.codec d' (cleaned (cutIn d) L) →
      d'.checkpoint = d.checkpoint → d'.reclaim = d.reclaim → Opened E d L (markLoaded false
        { applyCheckpoint (.initial false) (checkpointOf E.codec d L) with
          reclaimedThrough := d.manifest.reclaimedThroughSeq
          reclaimedSegment := cutIn d }) d' := by
    intro d' lays checkpoint reclaim
    have manifest := manifest_congr reclaim
    have clean := Sound.of_cleaned (A := L) (B := []) (by rwa [append_nil])
      (by rwa [append_nil]) checkpoint reclaim
    rw [append_nil, append_nil] at clean
    have ends : endOf E.codec (cleaned (cutIn d) L) = endOf E.codec L := by
      rw [cleaned, endOf_untorn, sound.endOf_live]
    refine ⟨clean.1, clean.2, ⟨rfl, fun seg mem =>
      (mem_cleaned mem).1, ?_, .inl ends, ?_, ?_, ?_, ?_,
      ?_, fun is => by cases is⟩, ends, reclaim, torn.symm, fun _ => torn⟩
    · simp only [cutIn, manifest]
      exact fun seg mem => (mem_cleaned mem).2.1
    · rw [clean.2]
      rfl
    · rw [clean.2]
      rfl
    · rw [clean.2]
      rfl
    · simp only [cutIn, manifest]
      rfl
    · rw [manifest]
      exact fun _ => rfl
  have here : Keeps E (contentsOf d L) d := ⟨L, sound, rfl⟩
  refine .bind (.update (.bind (does_readDir here (.bind (.update ?_)))))
  refine .bind (.bind (.memory ?_))
  by_cases none : cutIn d = 0
  · have all : cleaned (cutIn d) L = L := by
      rw [cleaned_of_untorn untorn, none]
      exact liveIn_of_forall sound.positive
    rw [if_pos (by simp [applyCheckpoint, initial, none])]
    exact .pure (.update (finish d (by rw [all]; exact sound.lays) rfl rfl))
  · rw [if_neg (by simp [applyCheckpoint, initial, none])]
    refine (does_removeThrough sound.lays untorn).mono
      (fun d' cleaning => sound.cleaning cleaning) ?_ ?_
    · rintro _ s' d' ⟨rfl, lays, checkpoint, reclaim⟩
      exact .update (finish d' lays checkpoint reclaim)
    · rintro e s' d' ⟨-, faulty, cleaning⟩
      exact ⟨faulty, sound.cleaning cleaning⟩

theorem does_openInner (sound : Sound E d L) (sized : 0 < E.segmentMaxBytes) :
    Does (Keeps E (contentsOf d L)) (openInner E false) (.initial false)
      (fun _ s' d' => Opened E d L s' d')
      (fun _ _ d' => E.mayFail = true ∧ Keeps E (contentsOf d L) d') d := by
  have here : Keeps E (contentsOf d L) d := ⟨L, sound, rfl⟩
  unfold openInner
  rw [if_neg (Nat.ne_of_gt sized), if_neg (by simp)]
  refine .bind (does_diskStep ⟨here, ?_⟩ fun faulty => ⟨here, faulty, here⟩)
  refine .bind (does_readDir here ?_)
  split
  · rename_i c is
    split
    · rename_i consistent
      exact does_openTrusting sound is consistent
    · exact does_openReplaying sound rfl
  · exact does_openReplaying sound rfl

end Ehdb.Proof.Reference
