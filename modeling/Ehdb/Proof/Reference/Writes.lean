import Ehdb.Proof.Reference.Opening

/-! A frame goes to the end of the last segment or to a new one. While it is written the segment
ends in a part of it; whatever happens, the frames that were there before stay as they are. -/

namespace Ehdb.Proof.Reference

open Ehdb.Reference DurableSegmentStore ProofKit List
open L0 (Torn torn_nil frameHeaderLen frameBytes maxFrameBodyBytes)

variable {E : StoreEnv} {d d' : Dir} {L A : Layout} {s s' : DurableSegmentStore} {id : Nat}
  {fs : List SegmentFrame} {frame : SegmentFrame} {t more : Bytes}

def Slot (L A : Layout) (id : Nat) (fs : List SegmentFrame) : Prop :=
  L = A ++ [⟨id, fs, []⟩] ∨ L = A ∧ fs = [] ∧ ∀ seg ∈ A, seg.id < id ∧ seg.frames ≠ []

theorem Slot.frames (h : Slot L A id fs) : framesIn L = framesIn A ++ fs := by
  rcases h with rfl | ⟨rfl, rfl, -⟩ <;> simp

theorem Slot.placed (h : Slot L A id fs) :
    Reference.placed E.codec L = Reference.placed E.codec A ++ placedFrom E.codec id 0 fs := by
  rcases h with rfl | ⟨rfl, rfl, -⟩ <;> simp [Reference.placed, placedFrom]

structure Wrote (codec : FrameCodec) (d : Dir) (A : Layout) (id : Nat) (fs : List SegmentFrame)
    (t : Bytes) (d' : Dir) : Prop where
  entries : d'.segments.entries = A.map (Segment.file codec) ++ [(id, encoded codec fs ++ t)]
  checkpoint : d'.checkpoint = d.checkpoint
  reclaim : d'.reclaim = d.reclaim

theorem Wrote.create (lays : Lays E.codec d L) (slot : Slot L A id fs) :
    Wrote E.codec d A id fs [] (d.create id) := by
  refine ⟨?_, rfl, rfl⟩
  rcases slot with rfl | ⟨rfl, rfl, fresh⟩
  · have mem : (⟨id, fs, []⟩ : Segment) ∈ A ++ [⟨id, fs, []⟩] := by simp
    rw [Dir.create, lays.bytes_of_mem mem]
    exact OrderedMap.entries_insert_split lays.split
  · have below : ∀ e ∈ d.segments.entries, e.1 < id := by
      rw [lays.entries]
      intro e mem
      obtain ⟨seg, known, rfl⟩ := mem_map.1 mem
      exact (fresh seg known).1
    have absent : d.bytes id = [] := by
      rw [Dir.bytes]
      cases found : d.segments.find? id with
      | none => rfl
      | some bytes => exact absurd (below _ (OrderedMap.find?_eq_some.1 found)) (lt_irrefl id)
    rw [Dir.create, absent]
    exact (OrderedMap.entries_insert_last below).trans (by rw [lays.entries]; rfl)

theorem Wrote.bytes (h : Wrote E.codec d A id fs t d') : d'.bytes id = encoded E.codec fs ++ t := by
  have mem : (id, encoded E.codec fs ++ t) ∈ d'.segments.entries := by
    rw [h.entries]
    simp
  rw [Dir.bytes, OrderedMap.find?_eq_some.2 mem]
  rfl

theorem Wrote.extend (h : Wrote E.codec d A id fs t d') (more : Bytes) :
    Wrote E.codec d A id fs (t ++ more) (d'.extend id more) := by
  refine ⟨?_, h.checkpoint, h.reclaim⟩
  rw [Dir.extend, h.bytes, append_assoc]
  exact OrderedMap.entries_insert_split h.entries

theorem Wrote.lays (lays : Lays E.codec d L) (slot : Slot L A id fs) {frames torn}
    (entries : d'.segments.entries = A.map (Segment.file E.codec) ++
      [(id, encoded E.codec frames ++ torn)])
    (fits : (∀ f ∈ fs, Fits E.codec f) → ∀ f ∈ frames, Fits E.codec f) (rest : Torn torn) :
    Lays E.codec d' (A ++ [⟨id, frames, torn⟩]) := by
  have old : A ⊆ L ∧ ∀ f ∈ fs, Fits E.codec f := by
    rcases slot with rfl | ⟨rfl, rfl, -⟩
    · exact ⟨subset_append_left _ _, lays.fits ⟨id, fs, []⟩ (by simp)⟩
    · exact ⟨Subset.refl _, nofun⟩
  refine ⟨by rw [entries, map_append]; rfl, fun seg mem => ?_, fun seg mem => ?_⟩
  all_goals rcases mem_append.1 mem with known | new
  · exact lays.fits seg (old.1 known)
  · exact mem_singleton.1 new ▸ fits old.2
  · exact lays.torn seg (old.1 known)
  · exact mem_singleton.1 new ▸ rest

theorem Wrote.lays_frame (lays : Lays E.codec d L) (slot : Slot L A id fs)
    (h : Wrote E.codec d A id fs (encodedFrame E.codec frame) d') (fits : Fits E.codec frame) :
    Lays E.codec d' (A ++ [⟨id, fs ++ [frame], []⟩]) := by
  refine Wrote.lays lays slot ?_ (fun old => ?_) torn_nil
  · simp [h.entries]
  · exact forall_mem_append.2 ⟨old, forall_mem_singleton.2 fits⟩

def Writing (codec : FrameCodec) (d : Dir) (A : Layout) (id : Nat) (fs : List SegmentFrame)
    (frame : SegmentFrame) (d' : Dir) : Prop :=
  d' = d ∨ ∃ t, t <+: encodedFrame codec frame ∧ Wrote codec d A id fs t d'

section

variable {ok : Unit → DurableSegmentStore → Dir → Prop}
  {err : EhdbError → DurableSegmentStore → Dir → Prop}

theorem does_writeAll (h : Wrote E.codec d A id fs t d')
    (within : t ++ more <+: encodedFrame E.codec frame)
    (done : ∀ d'', Wrote E.codec d A id fs (t ++ more) d'' → ok () s d'')
    (failed : E.mayFail = true → ∀ d'', Writing E.codec d A id fs frame d'' → err ioError s d'') :
    Does (Writing E.codec d A id fs frame) (writeAll E id more) s ok err d' := by
  have part (u : Bytes) (u_within : u <+: more) : t ++ u <+: encodedFrame E.codec frame :=
    ((prefix_append_right_inj t).2 u_within).trans within
  refine .bind (.file ?_)
  intro o r d'' stepped
  cases o with
  | ok n =>
    cases stepped
    have first := h.extend (more.take n)
    refine ⟨.inr ⟨_, part _ ( take_prefix n more), first⟩, .file ?_⟩
    intro o r d'' stepped
    cases o with
    | ok k =>
      cases stepped
      have both := first.extend (more.drop n)
      rw [append_assoc, take_append_drop] at both
      exact ⟨.inr ⟨_, within, both⟩, done _ both⟩
    | fail k =>
      dsimp only at stepped
      split at stepped
      · rename_i faulty
        cases stepped
        have some := first.extend ((more.drop n).take k)
        rw [append_assoc] at some
        have writing : Writing E.codec d A id fs frame _ := .inr ⟨_, part _ ?_, some⟩
        · exact ⟨writing, failed faulty _ writing⟩
        · conv_rhs => rw [← take_append_drop n more]
          exact (prefix_append_right_inj _).2 ( take_prefix k _)
      · cases stepped
  | fail n =>
    dsimp only at stepped
    split at stepped
    · rename_i faulty
      cases stepped
      have writing : Writing E.codec d A id fs frame _ :=
        .inr ⟨_, part _ ( take_prefix n more), h.extend (more.take n)⟩
      exact ⟨writing, failed faulty _ writing⟩
    · cases stepped

theorem does_appendFrame (lays : Lays E.codec d L) (slot : Slot L A id fs)
    (done : ∀ d', Wrote E.codec d A id fs (encodedFrame E.codec frame) d' → ok () s d')
    (failed : E.mayFail = true → ∀ d', Writing E.codec d A id fs frame d' → err ioError s d') :
    Does (Writing E.codec d A id fs frame) (appendFrame E id (E.codec.toVec frame)) s ok err d := by
  have created := Wrote.create lays slot
  have frame_eq : encodedFrame E.codec frame =
      frameHeader (E.codec.toVec frame) ++ E.codec.toVec frame := frameBytes_eq _
  refine .bind (does_diskStep ⟨.inr ⟨[], nil_prefix, created⟩, ?_⟩ fun faulty =>
    ⟨.inl rfl, failed faulty _ (.inl rfl)⟩)
  have first : [] ++ frameHeader (E.codec.toVec frame) <+: encodedFrame E.codec frame := by
    rw [nil_append, frame_eq]
    exact prefix_append _ _
  have all : frameHeader (E.codec.toVec frame) ++ E.codec.toVec frame <+:
      encodedFrame E.codec frame := by
    exact prefix_rfl
  refine .bind (does_writeAll created first ?_ failed)
  intro d' header
  rw [nil_append] at header
  refine .bind (does_writeAll header all ?_ failed)
  intro d'' body
  have here : Writing E.codec d A id fs frame d'' := .inr ⟨_, prefix_rfl, body⟩
  exact does_diskStep ⟨here, done d'' body⟩ fun faulty => ⟨here, failed faulty _ here⟩

end

theorem torn_or_whole (fits : Fits E.codec frame) (within : t <+: encodedFrame E.codec frame) :
    t = encodedFrame E.codec frame ∨ Torn t := by
  by_cases whole : t = encodedFrame E.codec frame
  · exact .inl whole
  · exact .inr ⟨E.codec.toVec frame, fits, within, whole⟩

theorem Covers.later {codec c L'} (h : Covers codec d L c)
    (grown : (endOf codec L).1 < (endOf codec L').1 ∨ (endOf codec L).1 = (endOf codec L').1 ∧
      (endOf codec L).2 < (endOf codec L').2) : Covers codec d' L' c := by
  obtain ⟨earlier, -⟩ := h
  refine ⟨?_, fun same len => ?_⟩ <;> omega

/-- The next frame goes behind `fs` in segment `id`. -/
structure Target (E : StoreEnv) (d : Dir) (L A : Layout) (id : Nat) (fs : List SegmentFrame) : Prop
    where
  slot : Slot L A id fs
  above : cutIn d < id
  untorn : ∀ seg ∈ L, seg.torn = []
  live : ∀ seg ∈ L, cutIn d < seg.id

namespace Target

theorem subset (h : Target E d L A id fs) {seg} (mem : seg ∈ A) : seg ∈ L := by
  rcases h.slot with rfl | ⟨rfl, -, -⟩
  · exact mem_append_left _ mem
  · exact mem

theorem ends (h : Target E d L A id fs) :
    endOf E.codec L = (id, (encoded E.codec fs).length) ∨ fs = [] ∧ (endOf E.codec L).1 < id := by
  rcases h.slot with rfl | ⟨rfl, rfl, fresh⟩
  · exact .inl (endOf_append_singleton _ _ _)
  · refine .inr ⟨rfl, ?_⟩
    rcases eq_nil_or_concat L with rfl | ⟨front, last, rfl⟩
    · exact Nat.zero_lt_of_lt h.above
    · rw [concat_eq_append, endOf_append_singleton]
      exact (fresh last (by simp)).1

theorem frames (h : Target E d L A id fs) (reclaim : d'.reclaim = d.reclaim)
    (more : List SegmentFrame) (t : Bytes) :
    liveFrames d' (A ++ [⟨id, fs ++ more, t⟩]) = liveFrames d L ++ more := by
  have manifest := manifest_congr reclaim
  have live : ∀ seg ∈ A ++ [⟨id, fs ++ more, t⟩], cutIn d < seg.id := by
    intro seg mem
    rcases mem_append.1 mem with old | new
    · exact h.live seg (h.subset old)
    · rw [mem_singleton.1 new]
      exact h.above
  rw [liveFrames, liveFrames, cutIn, manifest, liveIn_of_forall live, liveIn_of_forall h.live,
    h.slot.frames]
  simp

section

variable (h : Target E d L A id fs) (sound : Sound E d L)
include h sound

theorem sound_parts
    (reclaim : d'.reclaim = d.reclaim) (new : Segment) (same : new.id = id) :
    (∀ seg ∈ A ++ [new], 0 < seg.id) ∧ (∀ seg ∈ (A ++ [new]).dropLast, seg.torn = []) ∧
      (liveIn (cutIn d') (A ++ [new]) = [] → A ++ [new] = [] ∧ cutIn d' = 0) := by
  subst same
  refine ⟨?_, ?_, ?_⟩
  · intro seg mem
    rcases mem_append.1 mem with old | is_new
    · exact sound.positive seg (h.subset old)
    · rw [mem_singleton.1 is_new]
      exact Nat.zero_lt_of_lt h.above
  · rw [dropLast_concat]
    exact fun seg mem => h.untorn seg (h.subset mem)
  · rw [cutIn, manifest_congr reclaim, liveIn_concat_live h.above]
    exact fun none => absurd none (by simp)

theorem filled (new : Segment) : Filled (A ++ [new]) := by
  refine filled_concat.2 fun seg mem => ?_
  rcases h.slot with rfl | ⟨rfl, -, fresh⟩
  · exact filled_concat.1 sound.filled seg mem
  · exact (fresh seg mem).2

theorem sound_torn
    (wrote : Wrote E.codec d A id fs t d') (torn : Torn t) :
    Sound E d' (A ++ [⟨id, fs, t⟩]) ∧ contentsOf d' (A ++ [⟨id, fs, t⟩]) = contentsOf d L := by
  have frames := h.frames wrote.reclaim [] t
  rw [append_nil, append_nil] at frames
  have same := contentsOf_congr wrote.reclaim frames
  obtain ⟨positive, whole, above⟩ := h.sound_parts sound wrote.reclaim ⟨id, fs, t⟩ rfl
  have lays : Lays E.codec d' (A ++ [⟨id, fs, t⟩]) :=
    Wrote.lays sound.lays h.slot wrote.entries (fun old => old) torn
  refine ⟨?_, same⟩
  rcases h.ends with ends | ⟨rfl, later⟩
  · exact sound.of_frames lays positive whole above same
      (by rw [ends, endOf_append_singleton]) (.inl wrote.checkpoint) (h.filled sound _)
  · refine ⟨lays, positive, whole, above, same ▸ sound.numbered, fun c is => ?_, h.filled sound _⟩
    refine (sound.checkpoint c (wrote.checkpoint ▸ is)).later (.inl ?_)
    rwa [endOf_append_singleton]

theorem sound_frame
    (wrote : Wrote E.codec d A id fs (encodedFrame E.codec frame) d') (fits : Fits E.codec frame)
    (next : (contentsOf d L).Follows frame) : Sound E d' (A ++ [⟨id, fs ++ [frame], []⟩]) ∧
      contentsOf d' (A ++ [⟨id, fs ++ [frame], []⟩]) = (contentsOf d L).add frame := by
  have added := contentsOf_add wrote.reclaim (h.frames wrote.reclaim [frame] []) next
  obtain ⟨positive, whole, above⟩ := h.sound_parts sound wrote.reclaim ⟨id, fs ++ [frame], []⟩ rfl
  refine ⟨⟨wrote.lays_frame sound.lays h.slot fits, positive, whole, above,
    added ▸ sound.numbered.add next, fun c is => ?_, h.filled sound _⟩, added⟩
  refine (sound.checkpoint c (wrote.checkpoint ▸ is)).later ?_
  rw [endOf_append_singleton]
  rcases h.ends with ends | ⟨rfl, later⟩
  · have longer : 0 < (encodedFrame E.codec frame).length := encodedFrame_pos frame
    exact .inr (by simp [ends, longer])
  · exact .inl later

theorem writing (fits : Fits E.codec frame)
    (next : (contentsOf d L).Follows frame) (writing : Writing E.codec d A id fs frame d') :
    Keeps E (contentsOf d L) d' ∨ Keeps E ((contentsOf d L).add frame) d' := by
  rcases writing with rfl | ⟨t, within, wrote⟩
  · exact .inl ⟨L, sound, rfl⟩
  · rcases torn_or_whole fits within with rfl | torn
    · exact .inr ⟨_, h.sound_frame sound wrote fits next⟩
    · exact .inl ⟨_, h.sound_torn sound wrote torn⟩

end

end Target

theorem Standing.filled (h : Standing E d L s) (sound : Sound E d L) (written : 0 < s.activeLen)
    (seg : Segment) (mem : seg ∈ L) : seg.frames ≠ [] := by
  rcases h.position with ends | ⟨below, -, -⟩
  · rcases eq_nil_or_concat L with rfl | ⟨front, last, rfl⟩
    · cases mem
    · rw [concat_eq_append] at ends sound mem
      rw [endOf_append_singleton, Prod.mk.injEq] at ends
      rcases mem_append.1 mem with old | new
      · exact filled_concat.1 sound.filled seg old
      · rw [mem_singleton.1 new]
        intro none
        rw [none] at ends
        exact absurd ends.2 (Nat.ne_of_lt written)
  · exact (below seg mem).2

theorem Standing.target (h : Standing E d L s) (sound : Sound E d L) (frameLen : Nat) :
    ∃ A fs, Target E d L A (rollOver E frameLen s).activeSegmentId fs ∧
      (rollOver E frameLen s).activeLen = (encoded E.codec fs).length ∧
      rollOver E frameLen s = { s with
        activeSegmentId := (rollOver E frameLen s).activeSegmentId
        activeLen := (rollOver E frameLen s).activeLen } := by
  have target (A : Layout) (id : Nat) (fs : List SegmentFrame) (slot : Slot L A id fs)
      (above : cutIn d < id) : Target E d L A id fs := ⟨slot, above, h.untorn, h.live⟩
  unfold rollOver
  split
  · rename_i zero
    have none : L = [] := by
      rcases h.position with ends | ⟨-, -, above⟩
      · rcases eq_nil_or_concat L with rfl | ⟨front, last, rfl⟩
        · rfl
        · rw [concat_eq_append] at ends sound
          rw [endOf_append_singleton, Prod.mk.injEq] at ends
          have := sound.positive last (by simp)
          omega
      · omega
    refine ⟨[], [], target _ _ _ (.inr ⟨none, rfl, nofun⟩) ?_, rfl, rfl⟩
    rw [h.cut]
    exact Nat.lt_succ_self _
  · rename_i some
    have bounded : (∀ seg ∈ L, seg.id ≤ s.activeSegmentId) ∧ cutIn d < s.activeSegmentId := by
      rcases h.position with ends | ⟨below, -, above⟩
      · rcases eq_nil_or_concat L with rfl | ⟨front, last, rfl⟩
        · exact absurd (Prod.mk.injEq .. ▸ ends).1.symm some
        · rw [concat_eq_append] at ends sound h ⊢
          rw [endOf_append_singleton, Prod.mk.injEq] at ends
          have ordered := sound.lays.ascending
          rw [pairwise_append] at ordered
          rw [← ends.1]
          refine ⟨fun seg mem => ?_, h.live last (by simp)⟩
          rcases mem_append.1 mem with old | new
          · exact (ordered.2.2 seg old last (by simp)).le
          · rw [mem_singleton.1 new]
      · exact ⟨fun seg mem => (below seg mem).1.le, above⟩
    split
    · rename_i full
      refine ⟨L, [], target _ _ _ (.inr ⟨rfl, rfl, fun seg mem => ⟨?_, ?_⟩⟩) ?_, rfl, rfl⟩
      · exact Nat.lt_succ_of_le (bounded.1 seg mem)
      · exact h.filled sound full.1 seg mem
      · exact bounded.2.trans (Nat.lt_succ_self _)
    · rcases h.position with ends | ⟨below, len, -⟩
      · rcases eq_nil_or_concat L with rfl | ⟨front, last, rfl⟩
        · exact absurd (Prod.mk.injEq .. ▸ ends).1.symm some
        · rw [concat_eq_append] at *
          rw [endOf_append_singleton, Prod.mk.injEq] at ends
          refine ⟨front, last.frames, target _ _ _ (.inl ?_) bounded.2, ends.2.symm, rfl⟩
          rw [← ends.1, ← h.untorn last (by simp)]
      · exact ⟨L, [], target _ _ _ (.inr ⟨rfl, rfl, below⟩) bounded.2, len, rfl⟩

def noteFrame (loc : EventLoc) (frame : SegmentFrame) (s : DurableSegmentStore) :
    DurableSegmentStore :=
  { s with
    eventCount := s.eventCount + (viewOf frame).toList.length
    events := if s.indexLoaded then s.events ++
      ((viewOf frame).map fun _ => loc).toList else s.events
    byExecution := if s.indexLoaded then executedBy s.byExecution frame else s.byExecution
    consumersSeen := seenBy s.consumersSeen frame
    consumerAcks := ackedBy s.consumerAcks frame }

theorem Current.note (h : Current E d L s) {A id len fs}
    (target : Target E d L A id fs) (len_eq : len = (encoded E.codec fs).length)
    (reclaim : d'.reclaim = d.reclaim)
    (added : contentsOf d' (A ++ [⟨id, fs ++ [frame], []⟩]) = (contentsOf d L).add frame) :
    Current E d' (A ++ [⟨id, fs ++ [frame], []⟩]) (noteFrame ⟨id, len⟩ frame { s with
      activeSegmentId := id
      activeLen := len + (encodedFrame E.codec frame).length }) where
  writable := h.writable
  untorn seg mem := by
    rcases mem_append.1 mem with old | new
    · exact h.untorn seg (target.subset old)
    · rw [mem_singleton.1 new]
  live seg mem := by
    rw [cutIn, manifest_congr reclaim]
    rcases mem_append.1 mem with old | new
    · exact h.live seg (target.subset old)
    · rw [mem_singleton.1 new]
      exact target.above
  position := .inl (by simp [noteFrame, len_eq])
  count := by
    rw [added, Contents.tip, Contents.add]
    simp [noteFrame, h.count, Contents.tip, Nat.add_assoc]
  seen := by rw [added]; exact congrArg (seenBy · frame) h.seen
  acks := by rw [added]; exact congrArg (ackedBy · frame) h.acks
  cut := by rw [cutIn, manifest_congr reclaim]; exact h.cut
  unloaded not_loaded := by rw [manifest_congr reclaim]; exact h.unloaded not_loaded
  loaded is_loaded := by
    have is_loaded : s.indexLoaded = true := is_loaded
    have indexed := h.loaded is_loaded
    refine ⟨?_, ?_, ?_⟩
    · have locs : locsOf [(⟨id, len⟩, frame)] = ((viewOf frame).map fun _ => ⟨id, len⟩).toList := by
        cases is : viewOf frame <;> simp [locsOf, is]
      have slot : placed E.codec (A ++ [⟨id, fs ++ [frame], []⟩]) =
          placed E.codec L ++ [(⟨id, len⟩, frame)] := by
        rw [target.slot.placed (E := E), placed_append, len_eq]
        simp [placed, placedFrom_append, placedFrom]
      rw [slot, locsOf_append, locs]
      simp [noteFrame, is_loaded, indexed.events]
    · simp only [noteFrame, is_loaded, if_true, indexed.byExecution, target.slot.frames,
        framesIn_append, framesIn_cons, framesIn_nil, append_nil,
        ← append_assoc, executionsOf_append_singleton]
    · rw [added]
      exact indexed.base

variable {L' : Layout}

def Aligned (s : DurableSegmentStore) (d : Dir) : Prop :=
  (∀ id ∈ d.segmentIds, id ≤ s.activeSegmentId) ∧ (d.bytes s.activeSegmentId).length = s.activeLen

instance (s : DurableSegmentStore) (d : Dir) : Decidable (Aligned s d) :=
  inferInstanceAs (Decidable (_ ∧ _))

structure Serves (E : StoreEnv) (d : Dir) (L : Layout) (s : DurableSegmentStore) : Prop where
  base : s.reclaimedThrough = (contentsOf d L).base
  known : ∃ k ≤ (contentsOf d L).views.length, s.eventCount = (contentsOf d L).base + k ∧
    s.events = (locsOf (placed E.codec L)).take k

/-- What memory may rely on after a failed write: current again once aligned. -/
structure Known (E : StoreEnv) (d : Dir) (L : Layout) (s : DurableSegmentStore) : Prop where
  writable : s.readOnly = false
  live : ∀ seg ∈ L, cutIn d < seg.id
  current : Aligned s d → Current E d L s
  serves : s.indexLoaded = true → Serves E d L s

/-- Without failing writes memory stays current. -/
def Steady (E : StoreEnv) (d : Dir) (L : Layout) (s : DurableSegmentStore) : Prop :=
  E.mayFail = false → Current E d L s ∧ endOf E.codec L = (s.activeSegmentId, s.activeLen)

theorem locsOf_placed_length (d : Dir) (live : ∀ seg ∈ L, cutIn d < seg.id) :
    (locsOf (placed E.codec L)).length = (contentsOf d L).views.length := by
  rw [locsOf_length, placed_frames, contentsOf, liveFrames, liveIn_of_forall live]

theorem Current.serves (h : Current E d L s) (loaded : s.indexLoaded = true) : Serves E d L s := by
  have indexed := h.loaded loaded
  refine ⟨indexed.base, _, Nat.le_refl _, h.count, ?_⟩
  rw [indexed.events, ← locsOf_placed_length (E := E) d h.live, take_length]

theorem Current.known (h : Current E d L s) : Known E d L s :=
  ⟨h.writable, h.live, fun _ => h, h.serves⟩

theorem not_aligned_of_behind (h : ∃ id ∈ d.segmentIds, s.activeSegmentId < id) : ¬Aligned s d := by
  rintro ⟨bounded, -⟩
  obtain ⟨id, known, behind⟩ := h
  exact absurd (bounded id known) (Nat.not_le.2 behind)

/-- The frame is written whole, and memory has moved on to it. -/
structure Written (E : StoreEnv) (d : Dir) (L A : Layout) (fs : List SegmentFrame)
    (frame : SegmentFrame) (s : DurableSegmentStore) (loc : EventLoc) (s' : DurableSegmentStore)
    (d' : Dir) : Prop where
  target : Target E d L A loc.segmentId fs
  offset : loc.offset = (encoded E.codec fs).length
  fits : Fits E.codec frame
  wrote : Wrote E.codec d A loc.segmentId fs (encodedFrame E.codec frame) d'
  memory : s' = { s with
    activeSegmentId := loc.segmentId
    activeLen := loc.offset + (encodedFrame E.codec frame).length }

def grown (A : Layout) (fs : List SegmentFrame) (frame : SegmentFrame) (loc : EventLoc) : Layout :=
  A ++ [⟨loc.segmentId, fs ++ [frame], []⟩]

theorem Written.sound {loc} (h : Written E d L A fs frame s loc s' d')
    (sound : Sound E d L) (next : (contentsOf d L).Follows frame) :
    Sound E d' (grown A fs frame loc) ∧
      contentsOf d' (grown A fs frame loc) = (contentsOf d L).add frame :=
  h.target.sound_frame sound h.wrote h.fits next

theorem Written.current {loc} (h : Written E d L A fs frame s loc s' d')
    (sound : Sound E d L) (current : Current E d L s) (next : (contentsOf d L).Follows frame) :
    Current E d' (grown A fs frame loc) (noteFrame loc frame s') := by
  rw [h.memory]
  exact current.note h.target h.offset h.wrote.reclaim (h.sound sound next).2

theorem Written.ends {loc} (h : Written E d L A fs frame s loc s' d') :
    endOf E.codec (grown A fs frame loc) = (s'.activeSegmentId, s'.activeLen) := by
  rw [grown, endOf_append_singleton, h.memory]
  simp [h.offset]

theorem Current.at_target (h : Current E d L s) (target : Target E d L A id fs) :
    Current E d L { s with
      activeSegmentId := id, activeLen := (encoded E.codec fs).length } := by
  refine ⟨h.writable, h.untorn, h.live, ?_, h.count, h.seen, h.acks, h.cut, h.unloaded, ?_⟩
  · rcases target.slot with rfl | ⟨rfl, rfl, fresh⟩
    · exact .inl (endOf_append_singleton _ _ _)
    · exact .inr ⟨fresh, rfl, target.above⟩
  · intro loaded
    obtain ⟨events, byExecution, base⟩ := h.loaded loaded
    exact ⟨events, byExecution, base⟩

theorem Serves.grown (h : Serves E d L s) (live : ∀ seg ∈ L, cutIn d < seg.id)
    (more : List EventLoc) (locs : locsOf (placed E.codec L') = locsOf (placed E.codec L) ++ more)
    (base : (contentsOf d' L').base = (contentsOf d L).base)
    (views : (contentsOf d L).views.length ≤ (contentsOf d' L').views.length)
    (events : s'.events = s.events) (count : s'.eventCount = s.eventCount)
    (through : s'.reclaimedThrough = s.reclaimedThrough) : Serves E d' L' s' := by
  obtain ⟨base', k, bound, count', events'⟩ := h
  refine ⟨by rw [through, base', base], k, bound.trans views, by rw [count, count', base], ?_⟩
  rw [events, events', locs, take_append_of_le_length]
  rwa [locsOf_placed_length (E := E) d live]

/-- What a write that failed leaves: the contents without or with the frame, and a store that knows
them if it is in step with the files. -/
theorem Target.failed (target : Target E d L A id fs) (sound : Sound E d L)
    (current : Current E d L s) (fits : Fits E.codec frame)
    (next : (contentsOf d L).Follows frame) (writing : Writing E.codec d A id fs frame d') :
    ∃ L', Sound E d' L' ∧
      (contentsOf d' L' = contentsOf d L ∨ contentsOf d' L' = (contentsOf d L).add frame) ∧
      Known E d' L' { s with
        activeSegmentId := id, activeLen := (encoded E.codec fs).length } := by
  rcases writing with rfl | ⟨t, within, wrote⟩
  · exact ⟨L, sound, .inl rfl, (current.at_target target).known⟩
  have live (gs : List SegmentFrame) (u : Bytes) :
      ∀ seg ∈ A ++ [⟨id, gs, u⟩], cutIn d' < seg.id := by
    simp only [cutIn, manifest_congr wrote.reclaim]
    intro seg mem
    rcases mem_append.1 mem with old | new
    · exact target.live seg (target.subset old)
    · rw [mem_singleton.1 new]
      exact target.above
  have bytes := wrote.bytes
  rcases torn_or_whole fits within with rfl | torn
  · obtain ⟨sound', added⟩ := target.sound_frame sound wrote fits next
    refine ⟨_, sound', .inr added, current.writable, live _ _, ?_, ?_⟩
    · rintro ⟨-, len⟩
      have longer : 0 < (encodedFrame E.codec frame).length := encodedFrame_pos frame
      rw [bytes, length_append] at len
      dsimp only at len
      omega
    · intro loaded
      refine (current.serves loaded).grown current.live (locsOf (placedFrom E.codec id
        (encoded E.codec fs).length [frame])) ?_ (by rw [added]; rfl) ?_ rfl rfl rfl
      · rw [target.slot.placed (E := E)]
        simp [placed, placedFrom_append]
      · rw [added]
        simp [Contents.add]
  · obtain ⟨sound', same⟩ := target.sound_torn sound wrote torn
    refine ⟨_, sound', .inl same, current.writable, live _ _, ?_, ?_⟩
    · rintro ⟨-, len⟩
      have none : t = [] := by
        rw [bytes, length_append] at len
        exact length_eq_zero_iff.1 (by dsimp only at len; omega)
      subst none
      have indexed (loaded : s.indexLoaded = true) : Indexed E d' (A ++ [⟨id, fs, []⟩])
          { s with activeSegmentId := id, activeLen := (encoded E.codec fs).length } := by
        obtain ⟨events, byExecution, base⟩ := current.loaded loaded
        refine ⟨?_, ?_, ?_⟩
        · rw [events, target.slot.placed (E := E)]
          simp [placed]
        · rw [byExecution, target.slot.frames]
          simp
        · rw [base, same]
      refine ⟨current.writable, ?_, live _ _, .inl (endOf_append_singleton _ _ _), ?_, ?_, ?_, ?_,
        ?_,
        indexed⟩
      · intro seg mem
        rcases mem_append.1 mem with old | new
        · exact target.untorn seg (target.subset old)
        · rw [mem_singleton.1 new]
      · rw [same]
        exact current.count
      · rw [same]
        exact current.seen
      · rw [same]
        exact current.acks
      · rw [cutIn, manifest_congr wrote.reclaim]
        exact current.cut
      · rw [manifest_congr wrote.reclaim]
        exact current.unloaded
    · intro loaded
      refine (current.serves loaded).grown current.live [] ?_ (by rw [same]) (by rw [same])
        rfl rfl rfl
      rw [target.slot.placed (E := E)]
      simp [placed]

def TooLong (E : StoreEnv) (frame : SegmentFrame) (e : EhdbError) : Prop :=
  ¬Fits E.codec frame ∧ e = bodyOverCap (E.codec.toVec frame).length

def Unwritten (E : StoreEnv) (d : Dir) (L : Layout) (frame : SegmentFrame)
    (s : DurableSegmentStore) (e : EhdbError) (s' : DurableSegmentStore) (d' : Dir) : Prop :=
  s' = s ∧ d' = d ∧ TooLong E frame e ∨ E.mayFail = true ∧ Fits E.codec frame ∧
    ∃ A id fs, Target E d L A id fs ∧ Writing E.codec d A id fs frame d' ∧
      s' = { s with activeSegmentId := id, activeLen := (encoded E.codec fs).length }

/-- A crash in the middle of the write leaves a front part of the frame. -/
def Midway (E : StoreEnv) (d : Dir) (L : Layout) (frame : SegmentFrame) (d' : Dir) : Prop :=
  Fits E.codec frame ∧ ∃ A id fs, Target E d L A id fs ∧ Writing E.codec d A id fs frame d'

theorem does_writeFrame (sound : Sound E d L) (standing : Standing E d L s) :
    Does (Midway E d L frame) (writeFrame E frame) s
      (fun loc s' d' => ∃ A fs, Written E d L A fs frame s loc s' d')
      (fun e s' d' => Unwritten E d L frame s e s' d') d := by
  refine .bind (.memory ?_)
  rw [if_neg (by simp [standing.writable])]
  split
  · rename_i long
    exact .fail (.inl ⟨rfl, rfl, Nat.not_le.2 long, rfl⟩)
  · rename_i not_long
    have fits : Fits E.codec frame := Nat.le_of_not_lt not_long
    rw [← encodedFrame_length]
    obtain ⟨A, fs, target, len, memory⟩ := standing.target sound (encodedFrame E.codec frame).length
    refine .bind (.update (.bind ?_))
    have appends : Does (Writing E.codec d A _ fs frame) (appendFrame E _ (E.codec.toVec frame))
        (rollOver E (encodedFrame E.codec frame).length s)
        (fun _ m d' => m = rollOver E (encodedFrame E.codec frame).length s ∧
          Wrote E.codec d A _ fs (encodedFrame E.codec frame) d')
        (fun _ m d' => m = rollOver E (encodedFrame E.codec frame).length s ∧ E.mayFail = true ∧
          Writing E.codec d A _ fs frame d') d :=
      does_appendFrame sound.lays target.slot
        (fun d' wrote => ⟨rfl, wrote⟩) fun faulty d' writing =>
        ⟨rfl, faulty, writing⟩
    refine appends.mono (fun d' writing => ⟨fits, A, _, fs, target, writing⟩) ?_ ?_
    · rintro _ m d' ⟨rfl, wrote⟩
      refine .bind (.update (.pure ?_))
      refine ⟨A, fs, target, len, fits, wrote, ?_⟩
      rw [memory]
    · rintro e m d' ⟨rfl, faulty, writing⟩
      refine .inr ⟨faulty, fits, A, _, fs, target, writing, ?_⟩
      rw [← len]
      exact memory

end Ehdb.Proof.Reference
