import Ehdb.Proof.Reference.Layout

/-! The segments up to the manifest's are removed, torn tails are cut off, and the index is that of
the frames that are left. At every moment the directory still has those frames. -/

namespace Ehdb.Proof.Reference

open Ehdb.Reference DurableSegmentStore ProofKit List
open L0 (Torn torn_nil)

variable {E : StoreEnv} {I : Dir → Prop} {s : DurableSegmentStore} {d d' : Dir} {L : Layout}

/-- The last segment that the manifest of the directory says is reclaimed. -/
abbrev cutIn (d : Dir) : Nat := d.manifest.reclaimedThroughSegment

variable {ok : Unit → DurableSegmentStore → Dir → Prop}

section Steps

variable {err : EhdbError → DurableSegmentStore → Dir → Prop}

theorem does_readDir {ok} (here : I d) (h : ok d s d) : Does I readDir s ok err d := by
  refine .file ?_
  rintro o r d' ⟨⟩
  exact ⟨here, h⟩

theorem does_diskStep {effect} (done : I (effect d) ∧ ok () s (effect d))
    (failed : E.mayFail = true → I d ∧ err ioError s d) :
    Does I (diskStep E effect) s ok err d := by
  refine .file ?_
  intro o r d' stepped
  cases o with
  | ok n =>
    cases stepped
    exact done
  | fail n =>
    dsimp only at stepped
    split at stepped
    · rename_i faulty
      cases stepped
      exact failed faulty
    · cases stepped

end Steps

section Files

variable {codec : FrameCodec} {A B : Layout} {seg : Segment}

theorem Lays.segmentIds (h : Lays codec d L) : d.segmentIds = L.map Segment.id := by
  rw [Dir.segmentIds, h.entries, map_map]
  rfl

theorem Lays.ascending (h : Lays codec d L) : L.Pairwise fun a b => a.id < b.id := by
  have ordered := d.segments.ordered
  rw [h.entries, pairwise_map] at ordered
  exact ordered

theorem Lays.bytes (h : Lays codec d L) (mem : seg ∈ L) :
    d.segments.find? seg.id = some (encoded codec seg.frames ++ seg.torn) := by
  rw [OrderedMap.find?_eq_some, h.entries]
  exact mem_map_of_mem mem

theorem Lays.bytes_of_mem (h : Lays codec d L) (mem : seg ∈ L) :
    d.bytes seg.id = encoded codec seg.frames ++ seg.torn := by
  rw [Dir.bytes, h.bytes mem]
  rfl

theorem Lays.split (h : Lays codec d (A ++ seg :: B)) :
    d.segments.entries = A.map (Segment.file codec) ++
      (seg.id, encoded codec seg.frames ++ seg.torn) :: B.map (Segment.file codec) := by
  rw [h.entries, map_append, map_cons]
  rfl

theorem Lays.remove (h : Lays codec d (A ++ seg :: B)) : Lays codec (d.remove seg.id) (A ++ B) where
  entries := by
    rw [map_append]
    exact OrderedMap.entries_erase_split h.split
  fits other mem := h.fits other (by
    rcases mem_append.1 mem with mem | mem
    · exact mem_append_left _ mem
    · exact mem_append_right _ (.tail _ mem))
  torn other mem := h.torn other (by
    rcases mem_append.1 mem with mem | mem
    · exact mem_append_left _ mem
    · exact mem_append_right _ (.tail _ mem))

def Segment.untorn (seg : Segment) : Segment := { seg with torn := [] }

theorem Lays.replace {bytes seg'} (h : Lays codec d (A ++ seg :: B))
    (same : seg'.id = seg.id) (file : bytes = encoded codec seg'.frames ++ seg'.torn)
    (fits : ∀ frame ∈ seg'.frames, Fits codec frame) (torn : Torn seg'.torn) :
    Lays codec { d with segments := d.segments.insert seg.id bytes } (A ++ seg' :: B) where
  entries := by
    rw [map_append, map_cons, Segment.file, same, ← file]
    exact OrderedMap.entries_insert_split h.split
  fits other mem := by
    rcases mem_append.1 mem with mem | mem
    · exact h.fits other (mem_append_left _ mem)
    · rcases mem_cons.1 mem with rfl | mem
      · exact fits
      · exact h.fits other (mem_append_right _ (.tail _ mem))
  torn other mem := by
    rcases mem_append.1 mem with mem | mem
    · exact h.torn other (mem_append_left _ mem)
    · rcases mem_cons.1 mem with rfl | mem
      · exact torn
      · exact h.torn other (mem_append_right _ (.tail _ mem))

theorem Lays.truncate (h : Lays codec d (A ++ seg :: B)) :
    Lays codec (d.truncate seg.id (encoded codec seg.frames).length) (A ++ seg.untorn :: B) := by
  have mem : seg ∈ A ++ seg :: B := mem_append_right _ mem_cons_self
  refine h.replace rfl ?_ (h.fits seg mem) torn_nil
  rw [h.bytes_of_mem mem, take_left]
  simp [Segment.untorn]

theorem Lays.of_segments (h : Lays codec d L) (same : d'.segments = d.segments) : Lays codec d' L :=
  ⟨by rw [same, h.entries], h.fits, h.torn⟩

end Files

def liveIn (cut : Nat) (L : Layout) : Layout := L.filter fun seg => cut < seg.id

variable {cut : Nat}

theorem mem_liveIn {seg} : seg ∈ liveIn cut L ↔ seg ∈ L ∧ cut < seg.id := by
  simp [liveIn, mem_filter]

@[simp]
theorem liveIn_append (cut : Nat) (A B : Layout) :
    liveIn cut (A ++ B) = liveIn cut A ++ liveIn cut B :=
  filter_append ..

theorem liveIn_of_forall (h : ∀ seg ∈ L, cut < seg.id) : liveIn cut L = L :=
  filter_eq_self.2 fun seg mem => by simpa using h seg mem

def cleaned (cut : Nat) (L : Layout) : Layout := (liveIn cut L).map Segment.untorn

@[simp]
theorem framesIn_untorn (L : Layout) : framesIn (L.map Segment.untorn) = framesIn L := by
  rw [framesIn, flatMap_map]
  rfl

@[simp]
theorem placed_untorn (codec : FrameCodec) (L : Layout) :
    placed codec (L.map Segment.untorn) = placed codec L := by
  rw [placed, flatMap_map]
  rfl

/-- Where the last frame of a layout ends: the last segment and the length of its frames. -/
def endOf (codec : FrameCodec) (L : Layout) : Nat × Nat :=
  (L.getLast?.map fun seg => (seg.id, (encoded codec seg.frames).length)).getD (0, 0)

@[simp]
theorem endOf_append_singleton (codec : FrameCodec) (L : Layout) (seg : Segment) :
    endOf codec (L ++ [seg]) = (seg.id, (encoded codec seg.frames).length) := by
  simp [endOf]

@[simp]
theorem endOf_untorn (codec : FrameCodec) (L : Layout) :
    endOf codec (L.map Segment.untorn) = endOf codec L := by
  induction L using reverseRecOn with
  | nil => rfl
  | append_singleton L seg _ =>
    rw [map_append, map_singleton, endOf_append_singleton, endOf_append_singleton]
    rfl

/-- The store in the middle of a replay that has gone through some segments, of which `L` are
live. -/
def during (codec : FrameCodec) (cut : Nat) (s : DurableSegmentStore) (L : Layout) :
    DurableSegmentStore :=
  withIndex { s with
    activeSegmentId := (endOf codec L).1
    activeLen := (endOf codec L).2
    tornTailSkipped := L.countP fun seg => seg.torn ≠ []
    reclaimedSegment := cut } (placed codec L)

def replayed (codec : FrameCodec) (manifest : ReclaimManifest) (s : DurableSegmentStore)
    (L : Layout) : DurableSegmentStore :=
  settleBase manifest (during codec manifest.reclaimedThroughSegment s L)

def Cleaning (codec : FrameCodec) (d : Dir) (L : Layout) (d' : Dir) : Prop :=
  (∃ A B, L = A ++ B ∧ Lays codec d' (cleaned (cutIn d) A ++ B)) ∧
  d'.checkpoint = d.checkpoint ∧ d'.reclaim = d.reclaim

theorem Cleaning.refl {codec} (h : Lays codec d L) : Cleaning codec d L d :=
  ⟨⟨[], L, rfl, h⟩, rfl, rfl⟩

section Loop

variable {A B : Layout} {seg : Segment}

theorem endOf_lt {codec} (below : ∀ other ∈ A, other.id < seg.id)
    (positive : 0 < seg.id) (cut : Nat) : (endOf codec (liveIn cut A)).1 < seg.id := by
  rcases eq_nil_or_concat (liveIn cut A) with none | ⟨front, last, is⟩
  · rw [none]
    exact positive
  · rw [is, concat_eq_append, endOf_append_singleton]
    have mem : last ∈ liveIn cut A := by simp [is]
    exact below last (mem_liveIn.1 mem).1

variable {err : EhdbError → DurableSegmentStore → Dir → Prop}

theorem does_replayLive {X} (lays : Lays E.codec d' (X ++ seg :: B))
    (writable : s.readOnly = false) (here : I d')
    (truncated : I (d'.truncate seg.id (encoded E.codec seg.frames).length))
    (start : Gapless (viewsOf (framesIn A)))
    (done : Gapless (viewsOf (framesIn (A ++ [seg]))) → ∀ d'',
      (d'' = d' ∨ d'' = d'.truncate seg.id (encoded E.codec seg.frames).length) →
      Lays E.codec d'' (X ++ seg.untorn :: B) → ok () (during E.codec cut s (A ++ [seg])) d'')
    (gap : ¬Gapless (viewsOf (framesIn (A ++ [seg]))) → ∀ e s', err e s' d')
    (failed : E.mayFail = true → ∀ d'',
      (d'' = d' ∨ d'' = d'.truncate seg.id (encoded E.codec seg.frames).length) →
      ∀ s', s'.activeSegmentId = (endOf E.codec A).1 → s'.indexLoaded = s.indexLoaded →
      s'.readOnly = false → err ioError s' d'') :
    Does I (replayLive E seg.id) (during E.codec cut s A) ok err d' := by
  have mem : seg ∈ X ++ seg :: B := mem_append_right _ mem_cons_self
  have frames : framesIn (A ++ [seg]) = (placed E.codec A).map Prod.snd ++ seg.frames := by simp
  refine .bind (does_readDir here ?_)
  rw [lays.bytes_of_mem mem]
  refine .bind (.compute ?_)
  by_cases gapless : Gapless (viewsOf (framesIn (A ++ [seg])))
  · have rest : Gapless (viewsOf ((placed E.codec A).map Prod.snd ++ seg.frames)) :=
      frames ▸ gapless
    rw [during, replaySegment_frames (lays.fits seg mem) (lays.torn seg mem) rest]
    -- the store with the frames of `seg`, before its position is noted
    have placed_eq : placed E.codec A ++ placedFrom E.codec seg.id 0 seg.frames =
        placed E.codec (A ++ [seg]) := by simp [placed]
    rw [placed_eq]
    show Does I _ _ ok err d'
    by_cases torn : seg.torn = []
    · have untorn : seg.untorn = seg := by rw [Segment.untorn, ← torn]
      rw [dropTornTail, if_neg (by simp [torn])]
      refine .bind (.pure (.update ?_))
      have := done gapless d' (.inl rfl) (untorn ▸ lays)
      simpa [during, withIndex, torn] using this
    · have longer : (encoded E.codec seg.frames).length <
          (encoded E.codec seg.frames ++ seg.torn).length := by
        have := length_pos_iff.2 torn
        rw [length_append]
        omega
      rw [dropTornTail, if_pos longer]
      refine .bind (.bind (.update (.bind (.memory ?_))))
      rw [if_neg (by simp [withIndex, writable])]
      refine .bind (does_diskStep ⟨truncated, ?_⟩ fun faulty =>
        ⟨here, failed faulty d' (.inl rfl) _ rfl rfl writable⟩)
      refine does_diskStep ⟨truncated, .update ?_⟩ fun faulty =>
        ⟨truncated, failed faulty _ (.inr rfl) _ rfl rfl writable⟩
      have := done gapless _ (.inr rfl) lays.truncate
      simpa [during, withIndex, torn, countP_append] using this
  · obtain ⟨e, s', replays⟩ := replaySegment_gap seg.id seg.torn
      (s := { s with
        activeSegmentId := (endOf E.codec A).1
        activeLen := (endOf E.codec A).2
        tornTailSkipped := A.countP fun seg => seg.torn ≠ []
        reclaimedSegment := cut }) (P := placed E.codec A)
      (lays.fits seg mem) (by simpa using start) (frames ▸ gapless)
    rw [during, replays]
    exact gap gapless e s'

theorem liveIn_concat_dead (dead : seg.id ≤ cut) : liveIn cut (A ++ [seg]) = liveIn cut A := by
  simp [liveIn, Nat.not_lt.2 dead]

theorem liveIn_concat_live (live : cut < seg.id) :
    liveIn cut (A ++ [seg]) = liveIn cut A ++ [seg] := by
  simp [liveIn, live]

end Loop

structure Behind (s s' : DurableSegmentStore) (d' : Dir) : Prop where
  loaded : s'.indexLoaded = s.indexLoaded
  writable : s'.readOnly = false
  behind : ∃ id ∈ d'.segmentIds, s'.activeSegmentId < id

structure Through (E : StoreEnv) (d : Dir) (s : DurableSegmentStore) (A B : Layout)
    (m : DurableSegmentStore) (d' : Dir) : Prop where
  memory : m = during E.codec (cutIn d) s
    (liveIn (cutIn d) A)
  lays : Lays E.codec d' (cleaned (cutIn d) A ++ B)
  checkpoint : d'.checkpoint = d.checkpoint
  reclaim : d'.reclaim = d.reclaim
  gapless : Gapless (viewsOf (framesIn (liveIn (cutIn d) A)))

theorem Through.cleaning {A B m} (h : Through E d s A B m d')
    (split : L = A ++ B) : Cleaning E.codec d L d' :=
  ⟨⟨A, B, split, h.lays⟩, h.checkpoint, h.reclaim⟩

section

variable {A B : Layout} {seg : Segment} {m : DurableSegmentStore}

theorem does_replayOne (h : Through E d s A (seg :: B) m d') (split : L = A ++ seg :: B)
    (writable : s.readOnly = false) (positive : 0 < seg.id)
    (below : ∀ other ∈ A, other.id < seg.id) : Does (Cleaning E.codec d L)
      (if seg.id ≤ cutIn d then replayReclaimed E seg.id
        else replayLive E seg.id) m
      (fun _ m' d'' => Through E d s (A ++ [seg]) B m' d'')
      (fun _ m' d'' => Cleaning E.codec d L d'' ∧
        (¬Gapless (viewsOf (framesIn (liveIn (cutIn d) L))) ∨
          E.mayFail = true ∧ Behind s m' d'')) d' := by
  have here := h.cleaning split
  obtain ⟨rfl, lays, checkpoint, reclaim, gapless⟩ := h
  have known : seg.id ∈ d'.segmentIds := by
    rw [lays.segmentIds]
    exact mem_map_of_mem (mem_append_right _ mem_cons_self)
  have behind : Behind s (during E.codec (cutIn d) s
      (liveIn (cutIn d) A)) d' := ⟨rfl, writable, seg.id, known, endOf_lt below positive _⟩
  split
  · rename_i dead
    have removed : Lays E.codec (d'.remove seg.id)
        (cleaned (cutIn d) (A ++ [seg]) ++ B) := by
      rw [cleaned, liveIn_concat_dead dead]
      exact lays.remove
    refine .bind (.memory ?_)
    rw [if_neg (by exact fun locked => absurd (writable.symm.trans locked) nofun)]
    refine does_diskStep ⟨⟨⟨A ++ [seg], B, by simpa using split, removed⟩, checkpoint, reclaim⟩, ?_⟩
      fun faulty => ⟨here, here, .inr ⟨faulty, behind⟩⟩
    exact ⟨by rw [liveIn_concat_dead dead], removed, checkpoint, reclaim,
      by rwa [liveIn_concat_dead dead]⟩
  · rename_i not_dead
    have live : cutIn d < seg.id := Nat.lt_of_not_le not_dead
    have cleaned_eq : cleaned (cutIn d) A ++ seg.untorn :: B =
        cleaned (cutIn d) (A ++ [seg]) ++ B := by
      rw [cleaned, cleaned, liveIn_concat_live live]
      simp
    have truncated : Cleaning E.codec d L
        (d'.truncate seg.id (encoded E.codec seg.frames).length) :=
      ⟨⟨A ++ [seg], B, by simpa using split, cleaned_eq ▸ lays.truncate⟩, checkpoint, reclaim⟩
    refine does_replayLive lays writable here truncated gapless ?_ ?_ ?_
    · intro next d'' which lays'
      have kept : d''.checkpoint = d.checkpoint ∧ d''.reclaim = d.reclaim := by
        rcases which with rfl | rfl
        · exact ⟨checkpoint, reclaim⟩
        · exact ⟨checkpoint, reclaim⟩
      exact ⟨by rw [liveIn_concat_live live], cleaned_eq ▸ lays', kept.1, kept.2,
        by rwa [liveIn_concat_live live]⟩
    · intro gap e s'
      refine ⟨here, .inl fun whole => gap ?_⟩
      rw [split, ← singleton_append, ← append_assoc, liveIn_append,
        liveIn_concat_live live, framesIn_append, viewsOf_append] at whole
      exact whole.of_append
    · intro faulty d'' which s' active loaded readOnly
      have still : seg.id ∈ d''.segmentIds := by
        rcases which with rfl | rfl
        · exact known
        · rw [(lays.truncate).segmentIds]
          simp [Segment.untorn]
      refine ⟨?_, .inr ⟨faulty, loaded, readOnly, seg.id, still, ?_⟩⟩
      · rcases which with rfl | rfl
        · exact here
        · exact truncated
      · rw [active]
        exact endOf_lt below positive _

end

/-- What a replay leaves: the index of the live frames, and the directory without the reclaimed
segments and the torn tails. -/
structure Replayed (E : StoreEnv) (d : Dir) (L : Layout) (s s' : DurableSegmentStore) (d' : Dir) :
    Prop where
  gapless : Gapless (viewsOf (framesIn (liveIn (cutIn d) L)))
  memory : s' = replayed E.codec d.manifest s (liveIn (cutIn d) L)
  lays : Lays E.codec d' (cleaned (cutIn d) L)
  checkpoint : d'.checkpoint = d.checkpoint
  reclaim : d'.reclaim = d.reclaim

theorem does_replay (lays : Lays E.codec d L) (writable : s.readOnly = false)
    (positive : ∀ seg ∈ L, 0 < seg.id) :
    Does (Cleaning E.codec d L) (replay E) s (fun _ s' d' => Replayed E d L s s' d')
      (fun _ s' d' => Cleaning E.codec d L d' ∧
        (¬Gapless (viewsOf (framesIn (liveIn (cutIn d) L))) ∨
          E.mayFail = true ∧ Behind s s' d')) d := by
  refine .bind (.update (.bind (does_readDir (.refl lays) (.bind (.update ?_)))))
  rw [lays.segmentIds]
  refine .bind (.each (fun before rest m d' => ∃ A B, L = A ++ B ∧
    before = A.map Segment.id ∧ rest = B.map Segment.id ∧ Through E d s A B m d') ?_ ?_ ?_)
  · rintro before id rest m d' ⟨A, B, split, rfl, rest_eq, through⟩
    obtain ⟨seg, B, rfl, rfl, rfl⟩ : ∃ seg B', B = seg :: B' ∧ seg.id = id ∧
        B'.map Segment.id = rest := by
      cases B with
      | nil => cases rest_eq
      | cons seg B => exact ⟨seg, B, rfl, (cons.inj rest_eq).1.symm, (cons.inj rest_eq).2.symm⟩
    have mem : seg ∈ L := split ▸ mem_append_right _ mem_cons_self
    have below : ∀ other ∈ A, other.id < seg.id := by
      have ordered := lays.ascending
      rw [split, pairwise_append] at ordered
      exact fun other is => ordered.2.2 other is seg mem_cons_self
    refine (does_replayOne through split writable (positive seg mem) below).mono (fun _ => id) ?_
      fun _ _ _ => id
    intro _ m' d'' next
    exact ⟨A ++ [seg], B, by simpa using split, by simp, rfl, next⟩
  · exact ⟨[], L, rfl, rfl, rfl, rfl, lays, rfl, rfl, gapless_nil⟩
  · rintro m d' ⟨A, B, split, before_eq, rest_eq, through⟩
    have none : B = [] := map_eq_nil_iff.1 rest_eq.symm
    rw [none, append_nil] at split
    subst split
    refine .update ⟨through.gapless, by rw [through.memory]; rfl, ?_, through.checkpoint,
      through.reclaim⟩
    have := through.lays
    rwa [none, append_nil] at this

/-! The events that are left and their numbers, the consumers and their cursors. A directory is
`Sound` if its frames give such a log and its checkpoint, should it look current, says the same. -/

/-- A log: what was reclaimed, the events after `base` in order, the consumers and what they
acked. -/
structure Contents where
  manifest : ReclaimManifest
  base : Nat
  views : List EventLogRecordView
  seen : OrderedMap String Unit
  acks : OrderedMap String Nat

namespace Contents

def tip (c : Contents) : Nat := c.base + c.views.length

def add (c : Contents) (frame : SegmentFrame) : Contents :=
  ⟨c.manifest, c.base, c.views ++ (viewOf frame).toList, seenBy c.seen frame, ackedBy c.acks frame⟩

/-- The events are numbered without a gap from the base on. -/
def Numbered (c : Contents) : Prop :=
  c.views.map EventLogRecordView.globalSequence = List.range' (c.base + 1) c.views.length

def Follows (c : Contents) (frame : SegmentFrame) : Prop :=
  ∀ view, viewOf frame = some view → view.globalSequence = c.tip + 1

theorem Numbered.add {c : Contents} {frame} (h : c.Numbered)
    (next : c.Follows frame) : (c.add frame).Numbered := by
  unfold Numbered Contents.add at *
  cases is : viewOf frame with
  | none => simpa using h
  | some view =>
    have number := next view is
    simp only [Option.toList_some, map_append, h, map_cons, map_nil, number,
      length_append, length_singleton, range'_concat, tip]
    congr 2
    omega

end Contents

def liveFrames (d : Dir) (L : Layout) : List SegmentFrame :=
  framesIn (liveIn (cutIn d) L)

/-- What a replay of the directory gives. -/
def contentsOf (d : Dir) (L : Layout) : Contents :=
  ⟨d.manifest, max d.manifest.reclaimedThroughSeq (baseOf (viewsOf (liveFrames d L))),
    viewsOf (liveFrames d L), seenOf (liveFrames d L), acksOf (liveFrames d L)⟩

theorem manifest_congr {d d' : Dir} (reclaim : d'.reclaim = d.reclaim) :
    d'.manifest = d.manifest := by
  rw [Dir.manifest, Dir.manifest, reclaim]

theorem contentsOf_congr {d d' : Dir} {L L'} (reclaim : d'.reclaim = d.reclaim)
    (frames : liveFrames d' L' = liveFrames d L) : contentsOf d' L' = contentsOf d L := by
  rw [contentsOf, contentsOf, frames, manifest_congr reclaim]

theorem contentsOf_add {d d' : Dir} {L L' frame}
    (reclaim : d'.reclaim = d.reclaim) (frames : liveFrames d' L' = liveFrames d L ++ [frame])
    (next : (contentsOf d L).Follows frame) : contentsOf d' L' = (contentsOf d L).add frame := by
  have views : viewsOf [frame] = (viewOf frame).toList := by
    cases h : viewOf frame <;> simp [viewsOf, h]
  have base : max d.manifest.reclaimedThroughSeq (baseOf (viewsOf (liveFrames d L) ++
      (viewOf frame).toList)) = (contentsOf d L).base := by
    by_cases fresh : viewsOf (liveFrames d L) = []
    · cases is : viewOf frame with
      | none => simp [contentsOf]
      | some view =>
        have number := next view is
        simp only [contentsOf, Contents.tip, fresh, baseOf, head?_nil, Option.map_none,
          Option.getD_none, Nat.max_zero, length_nil] at number ⊢
        simp [number]
    · rw [baseOf_append fresh]
      rfl
  simp only [contentsOf, Contents.add, manifest_congr reclaim, frames, viewsOf_append, views,
    seenOf_append_singleton, acksOf_append_singleton] at base ⊢
  rw [base]

def checkpointOf (codec : FrameCodec) (d : Dir) (L : Layout) : StoreCheckpoint :=
  ⟨(contentsOf d L).tip, (endOf codec L).1, (endOf codec L).2, (contentsOf d L).seen,
    (contentsOf d L).acks⟩

structure Covers (codec : FrameCodec) (d : Dir) (L : Layout) (c : StoreCheckpoint) : Prop where
  earlier : c.activeSegmentId < (endOf codec L).1 ∨
    c.activeSegmentId = (endOf codec L).1 ∧ c.activeLen ≤ (endOf codec L).2
  current : c.activeSegmentId = (endOf codec L).1 → c.activeLen = (endOf codec L).2 →
    c = checkpointOf codec d L

def Filled (L : Layout) : Prop := ∀ frames ∈ (L.map Segment.frames).dropLast, frames ≠ []

theorem filled_concat {A seg} : Filled (A ++ [seg]) ↔ ∀ other ∈ A, other.frames ≠ [] := by
  rw [Filled, map_append, map_singleton, dropLast_concat]
  exact forall_mem_map

/-- The directory's invariant: its files lay out `L`, numbered, torn at its end at most. -/
structure Sound (E : StoreEnv) (d : Dir) (L : Layout) : Prop where
  lays : Lays E.codec d L
  positive : ∀ seg ∈ L, 0 < seg.id
  whole : ∀ seg ∈ L.dropLast, seg.torn = []
  above : liveIn (cutIn d) L = [] → L = [] ∧ cutIn d = 0
  numbered : (contentsOf d L).Numbered
  checkpoint : ∀ c, d.checkpoint = some c → Covers E.codec d L c
  filled : Filled L

theorem Contents.Numbered.gapless {d L} (h : (contentsOf d L).Numbered) :
    Gapless (viewsOf (liveFrames d L)) := by
  unfold Contents.Numbered at h
  simp only [contentsOf] at h
  cases is : viewsOf (liveFrames d L) with
  | nil => exact gapless_nil
  | cons view rest =>
    rw [is] at h
    simp only [map_cons, length_cons, range'_succ, cons.injEq] at h
    obtain ⟨first, others⟩ := h
    have base : max d.manifest.reclaimedThroughSeq (baseOf (view :: rest)) =
        baseOf (view :: rest) := by
      show _ = view.globalSequence - 1
      omega
    rw [Gapless, tail_cons, others, base]

theorem sound_empty (E : StoreEnv) : Sound E Dir.empty [] where
  lays := ⟨rfl, nofun, nofun⟩
  positive := nofun
  whole := nofun
  above _ := ⟨rfl, rfl⟩
  numbered := rfl
  checkpoint := nofun
  filled := nofun

section

variable {E : StoreEnv} {d d' : Dir} {L : Layout}

theorem Sound.liveIn_getLast (h : Sound E d L) : (liveIn (cutIn d) L).getLast? = L.getLast? := by
  rcases eq_nil_or_concat L with rfl | ⟨front, last, rfl⟩
  · rfl
  · rw [concat_eq_append] at h ⊢
    have live : cutIn d < last.id := by
      by_contra dead
      have none : liveIn (cutIn d) (front ++ [last]) = [] := by
        refine filter_eq_nil_iff.2 fun seg mem => ?_
        have ordered := h.lays.ascending
        rw [pairwise_append] at ordered
        have le : seg.id ≤ last.id := by
          rcases mem_append.1 mem with mem | mem
          · exact (ordered.2.2 seg mem last (by simp)).le
          · rw [mem_singleton.1 mem]
        simpa using le.trans (Nat.le_of_not_lt dead)
      simpa using (h.above none).1
    rw [liveIn_concat_live live]
    simp

theorem Sound.endOf_live (h : Sound E d L) :
    endOf E.codec (liveIn (cutIn d) L) = endOf E.codec L := by
  rw [endOf, endOf, h.liveIn_getLast]

theorem Sound.of_frames {L'} (h : Sound E d L) (lays : Lays E.codec d' L')
    (positive : ∀ seg ∈ L', 0 < seg.id) (whole : ∀ seg ∈ L'.dropLast, seg.torn = [])
    (above : liveIn (cutIn d') L' = [] → L' = [] ∧ cutIn d' = 0)
    (same : contentsOf d' L' = contentsOf d L) (ends : endOf E.codec L' = endOf E.codec L)
    (checkpoint : d'.checkpoint = d.checkpoint ∨ d'.checkpoint = some (checkpointOf E.codec d L))
    (filled : Filled L') : Sound E d' L' where
  lays := lays
  positive := positive
  whole := whole
  above := above
  numbered := same ▸ h.numbered
  checkpoint c is := by
    have equal : checkpointOf E.codec d' L' = checkpointOf E.codec d L := by
      rw [checkpointOf, checkpointOf, same, ends]
    rcases checkpoint with kept | new
    · obtain ⟨earlier, current⟩ := h.checkpoint c (kept ▸ is)
      exact ⟨ends ▸ earlier, by rw [ends, equal]; exact current⟩
    · rw [new] at is
      cases is
      refine ⟨.inr ?_, fun _ _ => equal.symm⟩
      rw [ends]
      exact ⟨rfl, Nat.le_refl _⟩
  filled := filled

end

end Ehdb.Proof.Reference
