import Ehdb.Proof.Reference.Calls

/-! A reclaim writes the state of the consumers forward, commits its cut and removes the files. At
every step the directory holds the log of before, or the log without the events up to the cut. -/

namespace Ehdb.Proof.Reference

open Ehdb.Reference DurableSegmentStore ProofKit List
open Contents (cut find?_raise)

variable {E : StoreEnv} {d d' : Dir} {L L' A B B' : Layout} {s s' m : DurableSegmentStore}
  {c c' c'' : Contents} {k : Nat}

def consumerOf : SegmentFrame → Option String
  | .event .. => none
  | .consumerCreate consumer => some consumer
  | .ack consumer _ => some consumer

variable {frames : List SegmentFrame} {name : String}

theorem seenOf_isSome :
    ((seenOf frames).find? name).isSome ↔ ∃ frame ∈ frames, consumerOf frame = some name := by
  induction frames using reverseRecOn with
  | nil => exact ⟨nofun, fun ⟨_, mem, _⟩ => nomatch mem⟩
  | append_singleton frames frame ih =>
    have one : (∃ other ∈ frames ++ [frame], consumerOf other = some name) ↔
        (∃ other ∈ frames, consumerOf other = some name) ∨ consumerOf frame = some name := by
      simp [or_and_right, exists_or]
    rw [seenOf_append_singleton, one, ← ih]
    have inserted (consumer : String) : (((seenOf frames).insert consumer ()).find? name).isSome ↔
        ((seenOf frames).find? name).isSome ∨ consumer = name := by
      rw [OrderedMap.find?_insert]
      split
      · rename_i same
        simp [same]
      · rename_i other
        simp [Ne.symm other]
    cases frame with
    | event sequence executionId txId payload => simp [seenBy, consumerOf]
    | consumerCreate consumer => simpa [seenBy, consumerOf] using inserted consumer
    | ack consumer q => simpa [seenBy, consumerOf] using inserted consumer

variable {q : Nat}

theorem mem_of_acksOf (is : (acksOf frames).find? name = some q) : .ack name q ∈ frames := by
  induction frames using reverseRecOn with
  | nil => cases is
  | append_singleton frames frame ih =>
    rw [acksOf_append_singleton] at is
    cases frame with
    | event sequence executionId txId payload => exact mem_append_left _ (ih is)
    | consumerCreate consumer => exact mem_append_left _ (ih is)
    | ack consumer new =>
      rw [ackedBy, find?_raise] at is
      split at is
      · rename_i same
        subst same
        cases before : (acksOf frames).find? name with
        | none =>
          rw [before, Option.getD_none, Nat.zero_max] at is
          cases is
          simp
        | some old =>
          rw [before, Option.getD_some, Option.some.injEq] at is
          rcases Nat.le_total old new with le | le
          · rw [Nat.max_eq_right le] at is
            simp [is]
          · rw [Nat.max_eq_left le] at is
            exact mem_append_left _ (ih (is ▸ before))
      · exact mem_append_left _ (ih is)

theorem acksOf_of_mem (mem : .ack name q ∈ frames) :
    ∃ q', (acksOf frames).find? name = some q' ∧ q ≤ q' := by
  induction frames using reverseRecOn with
  | nil => cases mem
  | append_singleton frames frame ih =>
    rw [acksOf_append_singleton]
    rcases mem_append.1 mem with old | new
    · obtain ⟨q', is, le⟩ := ih old
      cases frame with
      | event sequence executionId txId payload => exact ⟨q', is, le⟩
      | consumerCreate consumer => exact ⟨q', is, le⟩
      | ack consumer new =>
        rw [ackedBy, find?_raise]
        split
        · rename_i same
          refine ⟨_, rfl, ?_⟩
          rw [← same, is, Option.getD_some]
          omega
        · exact ⟨q', is, le⟩
    · rw [← mem_singleton.1 new, ackedBy, find?_raise, if_pos rfl]
      exact ⟨_, rfl, Nat.le_max_right _ _⟩

theorem consumers_of_suffix (front back : List SegmentFrame)
    (forward : ∀ name, ((seenOf (front ++ back)).find? name).isSome →
      ∃ q, (acksOf (front ++ back)).find? name = some q ∧ .ack name q ∈ back) :
    seenOf back = seenOf (front ++ back) ∧ acksOf back = acksOf (front ++ back) := by
  have known {name : String} {q : Nat} (mem : .ack name q ∈ back) :
      ((seenOf back).find? name).isSome :=
    seenOf_isSome.2 ⟨_, mem, rfl⟩
  have absent {name : String} (unseen : ¬((seenOf (front ++ back)).find? name).isSome) {q : Nat} :
      .ack name q ∉ front ++ back := fun mem => unseen (seenOf_isSome.2 ⟨_, mem, rfl⟩)
  refine ⟨OrderedMap.ext_find? fun name => ?_, OrderedMap.ext_find? fun name => ?_⟩
  · by_cases seen : ((seenOf (front ++ back)).find? name).isSome
    · obtain ⟨q, -, mem⟩ := forward name seen
      obtain ⟨_, is⟩ := Option.isSome_iff_exists.1 seen
      obtain ⟨_, is'⟩ := Option.isSome_iff_exists.1 (known mem)
      rw [is, is']
    · have unseen : ¬((seenOf back).find? name).isSome := by
        intro here
        obtain ⟨frame, mem, is⟩ := seenOf_isSome.1 here
        exact seen (seenOf_isSome.2 ⟨frame, mem_append_right _ mem, is⟩)
      rw [Option.not_isSome_iff_eq_none.1 seen, Option.not_isSome_iff_eq_none.1 unseen]
  · by_cases seen : ((seenOf (front ++ back)).find? name).isSome
    · obtain ⟨q, is, mem⟩ := forward name seen
      rw [is]
      obtain ⟨q', here, least⟩ := acksOf_of_mem mem
      obtain ⟨q'', is', most⟩ := acksOf_of_mem (mem_append_right front (mem_of_acksOf here))
      rw [is] at is'
      cases is'
      rw [here, Nat.le_antisymm most least]
    · have none (frames : List SegmentFrame) (within : ∀ q, .ack name q ∉ frames) :
          (acksOf frames).find? name = none := by
        cases is : (acksOf frames).find? name with
        | none => rfl
        | some q => exact absurd (mem_of_acksOf is) (within q)
      rw [none _ fun q => absent seen, none _ fun q mem => absent seen (mem_append_right _ mem)]

/-- The first `k` events are gone, and every cursor stays. -/
structure Reclaims (c : Contents) (k : Nat) (c' : Contents) : Prop where
  enough : k ≤ c.views.length
  base : c'.base = c.base + k
  views : c'.views = c.views.drop k
  seen : c'.seen = c.seen
  cursors : ∀ name, c'.cursor name = c.cursor name
  acks : ∀ name q, c.acks.find? name = some q → c'.acks.find? name = some q
  rooted : c.Rooted → c'.Rooted

theorem Reclaims.refl (c : Contents) : Reclaims c 0 c :=
  ⟨Nat.zero_le _, rfl, rfl, rfl, fun _ => rfl, fun _ _ => id, id⟩

theorem Reclaims.trans (h : Reclaims c 0 c') (h' : Reclaims c' k c'') : Reclaims c k c'' where
  enough := by simpa [h.views] using h'.enough
  base := by rw [h'.base, h.base, Nat.add_zero]
  views := by rw [h'.views, h.views, drop_zero]
  seen := h'.seen.trans h.seen
  cursors name := (h'.cursors name).trans (h.cursors name)
  acks name q is := h'.acks name q (h.acks name q is)
  rooted rooted := h'.rooted (h.rooted rooted)

theorem Reclaims.add (h : Reclaims c 0 c') (known : c.Knows name) :
    Reclaims c 0 (c'.add (.ack name (c.cursor name))) := by
  have find (other : String) : (c'.add (.ack name (c.cursor name))).acks.find? other =
      if other = name then some (c.cursor name) else c'.acks.find? other := by
    refine (find?_raise ..).trans ?_
    rw [show (c'.acks.find? name).getD 0 = c.cursor name from h.cursors name, Nat.max_self]
  obtain ⟨_, seen⟩ := Option.isSome_iff_exists.1 known
  refine ⟨h.enough, h.base, (append_nil _).trans h.views, ?_, fun other => ?_, ?_, h.rooted⟩
  · show c'.seen.insert name () = c.seen
    rw [h.seen]
    exact OrderedMap.insert_of_find? seen
  · rw [Contents.cursor, find]
    split
    · rename_i same
      rw [same]
      rfl
    · exact h.cursors other
  · intro other q is
    rw [find]
    split
    · rename_i same
      rw [Contents.cursor, ← same, is]
      rfl
    · exact h.acks other q is

theorem Reclaims.tip (h : Reclaims c k c') : c'.tip = c.tip := by
  have := h.enough
  rw [Contents.tip, Contents.tip, h.base, h.views, length_drop]
  omega

theorem Reclaims.grows (h : Reclaims c k c') (numbered : c.Numbered)
    (acked : k ≠ 0 → ∀ name, c.Knows name → c'.base ≤ c.cursor name) : c.Grows c' where
  base := by
    rw [h.base]
    exact Nat.le_add_right _ _
  tip := h.tip.ge
  events view mem := by
    rw [← take_append_drop k c.views] at mem
    rcases mem_append.1 mem with gone | still
    · have some : k ≠ 0 := by
        rintro rfl
        cases gone
      have below : view.globalSequence ≤ c'.base := by
        obtain ⟨i, is⟩ := mem_iff_getElem?.1 gone
        have within : i < k := (List.getElem?_eq_some_iff.1 is).1.trans_le (length_take_le ..)
        rw [List.getElem?_take_of_lt within] at is
        have number := numbered.getElem? is
        rw [h.base]
        omega
      exact .inr ⟨below, fun name known =>
        below.trans ((acked some name known).trans_eq (h.cursors name).symm)⟩
    · exact .inl (h.views ▸ still)
  same view mem _ := by
    rw [h.views] at mem
    exact mem_of_mem_drop mem
  seen name known := by
    rw [Contents.Knows, h.seen]
    exact known
  acks name q is := ⟨q, h.acks name q is, Nat.le_refl _⟩

/-- Midway through the cursors that are carried over to the newest segment. -/
structure Forwarding (E : StoreEnv) (d : Dir) (A B : Layout) (s : DurableSegmentStore)
    (done : List (String × Nat)) (m : DurableSegmentStore) (d' : Dir) (B' : Layout) : Prop where
  sound : Sound E d' (A ++ B')
  contents : Reclaims (contentsOf d (A ++ B)) 0 (contentsOf d' (A ++ B'))
  standing : Standing E d' (A ++ B') m
  ends : endOf E.codec (A ++ B') = (m.activeSegmentId, m.activeLen)
  memory : m = { s with activeSegmentId := m.activeSegmentId, activeLen := m.activeLen }
  frames : framesIn B' = framesIn B ++ done.map fun e => .ack e.1 e.2
  ids : ∃ new, B'.map Segment.id = B.map Segment.id ++ new ∧ (done = [] → new = [])
  reclaim : d'.reclaim = d.reclaim

def Stays (d : Dir) (id : Nat) : Prop :=
  id ∈ d.segmentIds ∧ cutIn d < id

/-- The log of before, or without its first `n` events; the segments of `B` are there. -/
def Reclaimable (E : StoreEnv) (c : Contents) (n : Nat) (B : Layout) (d' : Dir) : Prop :=
  ∃ L' k, (k = 0 ∨ k = n) ∧ Sound E d' L' ∧ Reclaims c k (contentsOf d' L') ∧
    ∀ seg ∈ B, Stays d' seg.id

variable {done : List (String × Nat)}

theorem Forwarding.here (h : Forwarding E d A B s done m d' B') (n : Nat) :
    Reclaimable E (contentsOf d (A ++ B)) n B d' := by
  refine ⟨_, 0, .inl rfl, h.sound, h.contents, fun seg mem => ?_⟩
  obtain ⟨new, ids, -⟩ := h.ids
  have listed : seg.id ∈ B'.map Segment.id := by
    rw [ids]
    exact mem_append_left _ (mem_map_of_mem mem)
  refine ⟨?_, ?_⟩
  · rw [h.sound.lays.segmentIds, map_append]
    exact mem_append_right _ listed
  · obtain ⟨other, known, same⟩ := mem_map.1 listed
    exact same ▸ h.standing.live other (mem_append_right _ known)

variable {id : Nat}

theorem Cleaning.stays (cleaning : Cleaning E.codec d L d') (lays : Lays E.codec d L)
    (stays : Stays d id) : Stays d' id := by
  refine ⟨cleaning.present stays.1 lays stays.2, ?_⟩
  rw [cutIn, manifest_congr cleaning.2.2]
  exact stays.2

variable {A₀ : Layout} {fs : List SegmentFrame}

theorem Slot.append (rest : B ≠ []) (slot : Slot (A ++ B) A₀ id fs) :
    ∃ B₀, A₀ = A ++ B₀ ∧ framesIn B = framesIn B₀ ++ fs ∧
      ∃ new, B₀.map Segment.id ++ [id] = B.map Segment.id ++ new := by
  rcases slot with last | ⟨rfl, rfl, -⟩
  · obtain ⟨B₀, seg, is⟩ := eq_nil_or_concat B |>.resolve_left rest
    rw [concat_eq_append] at is
    subst is
    rw [← append_assoc] at last
    obtain ⟨front, same⟩ := append_inj' last rfl
    rw [singleton_inj.1 same]
    exact ⟨B₀, front.symm, by simp, [], by simp⟩
  · exact ⟨B, rfl, by simp, [id], rfl⟩

theorem Writing.stays {x frame} (lays : Lays E.codec d L)
    (slot : Slot L A₀ id fs) (writing : Writing E.codec d A₀ id fs frame d') (stays : Stays d x) :
    Stays d' x := by
  rcases writing with rfl | ⟨t, -, wrote⟩
  · exact stays
  · obtain ⟨mem, live⟩ := stays
    refine ⟨?_, by rwa [cutIn, manifest_congr wrote.reclaim]⟩
    have ids : d'.segmentIds = A₀.map Segment.id ++ [id] := by
      rw [Dir.segmentIds, wrote.entries, map_append, map_map]
      rfl
    rw [lays.segmentIds] at mem
    rw [ids]
    rcases slot with rfl | ⟨rfl, -, -⟩
    · simpa using mem
    · exact mem_append_left _ mem

theorem Forwarding.step (h : Forwarding E d A B s done m d' B') (rest : B ≠ [])
    (faultless : E.mayFail = false) (n : Nat) (known : (contentsOf d (A ++ B)).Knows name) :
    Does (Reclaimable E (contentsOf d (A ++ B)) n B)
      (writeFrame E (.ack name ((contentsOf d (A ++ B)).cursor name)) >>= fun _ => pure ()) m
      (fun _ m' d'' => ∃ B'', Forwarding E d A B s
        (done ++ [(name, (contentsOf d (A ++ B)).cursor name)]) m' d'' B'')
      (fun e m' d'' => TooLong E (.ack name ((contentsOf d (A ++ B)).cursor name)) e ∧
        ∃ B'', Forwarding E d A B s done m' d'' B'') d' := by
  have next : (contentsOf d' (A ++ B')).Follows
      (.ack name ((contentsOf d (A ++ B)).cursor name)) := nofun
  have rest' : B' ≠ [] := by
    rintro rfl
    obtain ⟨new, ids, -⟩ := h.ids
    exact rest (map_eq_nil_iff.1 (append_eq_nil_iff.1 ids.symm).1)
  refine .bind ((does_writeFrame h.sound h.standing).mono ?_ ?_ ?_)
  · rintro d'' ⟨fits, A₀, id, fs, target, writing⟩
    have present (seg : Segment) (mem : seg ∈ B) : Stays d'' seg.id := by
      obtain ⟨_, _, _, _, _, stays⟩ := h.here n
      exact Writing.stays h.sound.lays target.slot writing (stays seg mem)
    rcases target.writing h.sound fits next writing with ⟨L', sound, same⟩ | ⟨L', sound, same⟩
    · exact ⟨L', 0, .inl rfl, sound, by rw [same]; exact h.contents, present⟩
    · exact ⟨L', 0, .inl rfl, sound, by rw [same]; exact h.contents.add known, present⟩
  · rintro loc m' d'' ⟨A₀, fs, written⟩
    obtain ⟨sound, added⟩ := written.sound h.sound next
    obtain ⟨B₀, rfl, frames, new, ids⟩ := written.target.slot.append rest'
    have ends := written.ends
    have target := written.target
    rw [grown, append_assoc] at sound added ends
    have manifest := manifest_congr written.wrote.reclaim
    have contents := h.contents.add known
    rw [← added] at contents
    refine .pure ⟨_, sound, contents, ⟨?_, ?_, ?_, .inl ends, ?_⟩, ends, ?_, ?_, ?_,
      written.wrote.reclaim.trans h.reclaim⟩
    · rw [written.memory]
      exact h.standing.writable
    · intro seg mem
      rw [← append_assoc] at mem
      rcases mem_append.1 mem with old | new
      · exact target.untorn seg (target.subset old)
      · rw [mem_singleton.1 new]
    · intro seg mem
      rw [← append_assoc] at mem
      rw [cutIn, manifest]
      rcases mem_append.1 mem with old | new
      · exact target.live seg (target.subset old)
      · rw [mem_singleton.1 new]
        exact target.above
    · rw [written.memory, cutIn, manifest]
      exact h.standing.cut
    · rw [written.memory, h.memory]
    · rw [framesIn_append, map_append, ← append_assoc, ← h.frames, frames]
      simp
    · obtain ⟨new', ids', -⟩ := h.ids
      refine ⟨new' ++ new, ?_, by simp⟩
      rw [← append_assoc, ← ids', ← ids, map_append]
      rfl
  · rintro e m' d'' (⟨rfl, rfl, long⟩ | ⟨faulty, -⟩)
    · exact ⟨long, B', h⟩
    · exact absurd faulty (by simp [faultless])

variable {segment seq : Nat}

theorem Cuts.liveIn {base} (cuts : Cuts L A B base segment seq) :
    Reference.liveIn segment L = B := by
  have dead : Reference.liveIn segment A = [] :=
    filter_eq_nil_iff.2 fun seg mem => by simpa using cuts.below seg mem
  rw [cuts.split, liveIn_append, dead, liveIn_of_forall cuts.above, nil_append]

theorem Sound.commit (sound : Sound E d L) (cuts : Cuts L A B (contentsOf d L).base segment seq)
    (live : ∀ seg ∈ L, cutIn d < seg.id)
    (forward : ∀ name, (contentsOf d L).Knows name →
      ∃ q, (contentsOf d L).acks.find? name = some q ∧ .ack name q ∈ framesIn B) :
    Sound E { d with reclaim := some ⟨seq, segment⟩ } L ∧
      Reclaims (contentsOf d L) (viewsOf (framesIn A)).length
        (contentsOf { d with reclaim := some ⟨seq, segment⟩ } L) := by
  have frames : liveFrames d L = framesIn A ++ framesIn B := by
    rw [liveFrames, liveIn_of_forall live, cuts.split, framesIn_append]
  have rest : liveFrames { d with reclaim := some ⟨seq, segment⟩ } L = framesIn B :=
    congrArg framesIn cuts.liveIn
  have views : (contentsOf d L).views = viewsOf (framesIn A) ++ viewsOf (framesIn B) := by
    rw [contentsOf, frames, viewsOf_append]
  obtain ⟨seen, acks⟩ := consumers_of_suffix (framesIn A) (framesIn B)
    (by simpa only [contentsOf, frames, Contents.Knows] using forward)
  have numbers : (viewsOf (framesIn B)).map EventLogRecordView.globalSequence =
      range' (seq + 1) (viewsOf (framesIn B)).length := by
    have all := sound.numbered
    rw [Contents.Numbered, views, map_append, length_append, ← range'_append_1] at all
    rw [(append_inj all (by simp)).2, cuts.seq]
    congr 1
    omega
  have base : max seq (baseOf (viewsOf (framesIn B))) = seq := by
    cases is : viewsOf (framesIn B) with
    | nil => exact Nat.max_zero _
    | cons first others =>
      rw [is, map_cons, length_cons, range'_succ] at numbers
      have := (cons.inj numbers).1
      simp only [baseOf, head?_cons, Option.map_some, Option.getD_some]
      omega
  have reclaims : Reclaims (contentsOf d L) (viewsOf (framesIn A)).length
      (contentsOf { d with reclaim := some ⟨seq, segment⟩ } L) := by
    have acks_same : (contentsOf { d with reclaim := some ⟨seq, segment⟩ } L).acks =
        (contentsOf d L).acks := by
      rw [contentsOf, contentsOf, frames, rest, acks]
    refine ⟨by simp [views], ?_, ?_, ?_, ?_, ?_, fun _ => ?_⟩
    · rw [← cuts.seq]
      show max seq _ = _
      rw [rest, base]
    · rw [views, drop_left]
      exact congrArg viewsOf rest
    · rw [contentsOf, contentsOf, frames, rest, seen]
    · intro name
      rw [Contents.cursor, acks_same]
      rfl
    · intro name q is
      rwa [acks_same]
    · show max seq _ = _
      rw [rest, base]
      rfl
  refine ⟨⟨sound.lays.of_segments rfl, sound.positive, sound.whole, ?_, ?_, ?_, sound.filled⟩,
    reclaims⟩
  · intro none
    exact absurd (cuts.liveIn.symm.trans none) cuts.rest
  · rw [Contents.Numbered, contentsOf]
    simp only [rest]
    rw [show Dir.manifest { d with reclaim := some ⟨seq, segment⟩ } = ⟨seq, segment⟩ from rfl, base]
    exact numbers
  · intro c is
    obtain ⟨earlier, current⟩ := sound.checkpoint c is
    refine ⟨earlier, fun active len => ?_⟩
    rw [current active len, checkpointOf, checkpointOf, reclaims.tip, reclaims.seen]
    congr 1
    rw [contentsOf, contentsOf, frames, rest, acks]

theorem cleaned_ids (cut : Nat) (L : Layout) :
    (cleaned cut L).map Segment.id = (liveIn cut L).map Segment.id := by
  rw [cleaned, map_map]
  rfl

/-- What a finished reclaim leaves. -/
structure Reclaimed (E : StoreEnv) (c : Contents) (n : Nat) (B : Layout)
    (s s' : DurableSegmentStore)
    (d' : Dir) (L' : Layout) : Prop where
  sound : Sound E d' L'
  contents : Reclaims c n (contentsOf d' L')
  current : Current E d' L' s'
  ends : endOf E.codec L' = (s'.activeSegmentId, s'.activeLen)
  loaded : s'.indexLoaded = true
  ids : ∃ new, L'.map Segment.id = B.map Segment.id ++ new ∧
    (s.consumersSeen.entries = [] → new = [])

theorem Current.mem_consumerCursors (current : Current E d L s) {e} :
    e ∈ s.consumerCursors ↔ (contentsOf d L).Knows e.1 ∧ e.2 = (contentsOf d L).cursor e.1 := by
  rw [consumerCursors, current.seen, current.acks, mem_map]
  constructor
  · rintro ⟨⟨name, ⟨⟩⟩, mem, rfl⟩
    exact ⟨by rw [Contents.Knows, OrderedMap.find?_eq_some.2 mem]; rfl, rfl⟩
  · rintro ⟨known, is⟩
    obtain ⟨_, found⟩ := Option.isSome_iff_exists.1 known
    exact ⟨(e.1, ()), OrderedMap.find?_eq_some.1 found, Prod.ext rfl is.symm⟩

theorem Forwarding.commit (h : Forwarding E d A B s s.consumerCursors m d' B')
    (current : Current E d (A ++ B) s)
    (cuts : Cuts (A ++ B) A B (contentsOf d (A ++ B)).base segment seq) :
    Cuts (A ++ B') A B' (contentsOf d' (A ++ B')).base segment seq ∧
    Sound E { d' with reclaim := some ⟨seq, segment⟩ } (A ++ B') ∧
    Reclaims (contentsOf d (A ++ B)) (viewsOf (framesIn A)).length
      (contentsOf { d' with reclaim := some ⟨seq, segment⟩ } (A ++ B')) := by
  obtain ⟨new, ids, -⟩ := h.ids
  have rest : B' ≠ [] := by
    rintro rfl
    exact cuts.rest (map_eq_nil_iff.1 (append_eq_nil_iff.1 ids.symm).1)
  have above : ∀ seg ∈ B', segment < seg.id := by
    obtain ⟨first, others, rfl⟩ := exists_cons_of_ne_nil cuts.rest
    have ordered := h.sound.lays.ascending
    rw [pairwise_append] at ordered
    have sorted : (B'.map Segment.id).Pairwise (· < ·) := pairwise_map.2 ordered.2.1
    rw [ids, map_cons, cons_append, pairwise_cons] at sorted
    intro seg mem
    have listed := mem_map_of_mem (f := Segment.id) mem
    rw [ids, map_cons, cons_append] at listed
    have lowest := cuts.above first mem_cons_self
    rcases mem_cons.1 listed with same | later
    · exact same ▸ lowest
    · exact lowest.trans (sorted.1 _ later)
  have cuts' : Cuts (A ++ B') A B' (contentsOf d' (A ++ B')).base segment seq :=
    ⟨rfl, rest, cuts.below, above, by rw [h.contents.base, Nat.add_zero, ← cuts.seq]⟩
  obtain ⟨sound, reclaims⟩ := h.sound.commit cuts' h.standing.live (by
    intro name known
    rw [Contents.Knows, h.contents.seen] at known
    have written : .ack name ((contentsOf d (A ++ B)).cursor name) ∈ framesIn B' := by
      rw [h.frames]
      exact mem_append_right _ (mem_map.2
        ⟨(name, _), current.mem_consumerCursors.2 ⟨known, rfl⟩, rfl⟩)
    have live : liveFrames d' (A ++ B') = framesIn A ++ framesIn B' := by
      rw [liveFrames, liveIn_of_forall h.standing.live, framesIn_append]
    obtain ⟨q, is, -⟩ := acksOf_of_mem (mem_append_right (framesIn A) written)
    rw [← live] at is
    have cursor := h.contents.cursors name
    rw [Contents.cursor, show (contentsOf d' (A ++ B')).acks.find? name = some q from is,
      Option.getD_some] at cursor
    exact ⟨q, is, cursor ▸ written⟩)
  exact ⟨cuts', sound, h.contents.trans reclaims⟩

theorem does_applyReclaim {plan} (sound : Sound E d (A ++ B)) (current : Current E d (A ++ B) s)
    (ends : endOf E.codec (A ++ B) = (s.activeSegmentId, s.activeLen))
    (loaded : s.indexLoaded = true) (faultless : E.mayFail = false)
    (cuts : Cuts (A ++ B) A B (contentsOf d (A ++ B)).base plan.reclaimedSegment
      plan.reclaimedSeq) :
    Does (Reclaimable E (contentsOf d (A ++ B)) (viewsOf (framesIn A)).length B)
      (applyReclaim E plan) s
      (fun _ s' d' => ∃ L', Reclaimed E (contentsOf d (A ++ B)) (viewsOf (framesIn A)).length B s s'
        d' L')
      (fun e s' d' => ∃ name, (contentsOf d (A ++ B)).Knows name ∧
        TooLong E (.ack name ((contentsOf d (A ++ B)).cursor name)) e ∧
          ∃ done B', Forwarding E d A B s done s' d' B') d := by
  refine .bind (.memory (.bind ?_))
  refine .each (fun before rest m d' => before ++ rest = s.consumerCursors ∧
    ∃ B', Forwarding E d A B s before m d' B') ?_ ?_ ?_
  · rintro before ⟨name, q⟩ rest m d' ⟨all, B', forwarding⟩
    have listed : (name, q) ∈ s.consumerCursors := by simp [← all]
    obtain ⟨known, is⟩ := current.mem_consumerCursors.1 listed
    dsimp only at known is
    subst is
    refine (forwarding.step cuts.rest faultless _ known).mono (fun _ => id) ?_ ?_
    · exact fun _ m' d'' next => ⟨by simpa using all, next⟩
    · rintro e m' d'' ⟨long, B'', forwarding⟩
      exact ⟨name, known, long, before, B'', forwarding⟩
  · exact ⟨rfl, B, sound, .refl _, current.standing, ends, rfl, by simp,
      ⟨[], by simp, fun _ => rfl⟩,
      rfl⟩
  rintro m d' ⟨-, B', forwarding⟩
  obtain ⟨cuts', committed, reclaims⟩ := forwarding.commit current cuts
  have no_fault {P : Prop} (faulty : E.mayFail = true) : P := absurd faulty (by simp [faultless])
  have present (seg : Segment) (mem : seg ∈ B) :
      Stays { d' with reclaim := some ⟨plan.reclaimedSeq, plan.reclaimedSegment⟩ } seg.id := by
    obtain ⟨_, _, _, _, _, stays⟩ := forwarding.here (viewsOf (framesIn A)).length
    exact ⟨(stays seg mem).1, cuts.above seg mem⟩
  have here : Reclaimable E (contentsOf d (A ++ B)) (viewsOf (framesIn A)).length B
      { d' with reclaim := some ⟨plan.reclaimedSeq, plan.reclaimedSegment⟩ } :=
    ⟨_, _, .inr rfl, committed, reclaims, present⟩
  refine .bind (.bind (does_diskStep ⟨forwarding.here _, ?_⟩ no_fault))
  refine does_diskStep ⟨here, ?_⟩ no_fault
  have untorn := forwarding.standing.untorn
  -- the files go, then the index is built again from those that are left
  have cleaning {d₁ d₂ : Dir} {L₁ : Layout} (sound : Sound E d₁ L₁)
      (reclaims : Reclaims (contentsOf d (A ++ B)) (viewsOf (framesIn A)).length (contentsOf d₁ L₁))
      (present : ∀ seg ∈ B, Stays d₁ seg.id) (cleaning : Cleaning E.codec d₁ L₁ d₂) :
      Reclaimable E (contentsOf d (A ++ B)) (viewsOf (framesIn A)).length B d₂ := by
    obtain ⟨L₂, sound₂, same⟩ := sound.cleaning cleaning
    refine ⟨L₂, _, .inr rfl, sound₂, by rw [same]; exact reclaims, fun seg mem => ?_⟩
    exact cleaning.stays sound.lays (present seg mem)
  refine .bind ((does_removeThrough committed.lays untorn).mono
    (fun _ => cleaning committed reclaims present) ?_ ?_)
  · rintro _ m₂ d₂ ⟨memory, lays, checkpoint, reclaim⟩
    rw [memory]
    have clean := Sound.of_cleaned (A := A ++ B') (B := []) (by rwa [append_nil])
      (by rwa [append_nil]) checkpoint reclaim
    rw [append_nil, append_nil] at clean
    obtain ⟨sound₂, same₂⟩ := clean
    have present₂ : ∀ seg ∈ B, Stays d₂ seg.id := by
      have cleaned : Cleaning E.codec _ (A ++ B') d₂ :=
        ⟨⟨_, [], (append_nil _).symm, by rwa [append_nil]⟩, checkpoint, reclaim⟩
      exact fun seg mem => cleaned.stays committed.lays (present seg mem)
    have manifest₂ := manifest_congr reclaim
    rw [← same₂] at reclaims
    refine .bind ((does_replay lays forwarding.standing.writable sound₂.positive).mono
      (fun _ => cleaning sound₂ reclaims present₂) ?_ ?_)
    · intro _ s' d₃ replayed
      obtain ⟨sound₃, same₃, current₃, ends₃⟩ :=
        replayed.current sound₂ forwarding.standing.writable
      have marked : markLoaded true s' = s' := by
        have kept : s'.indexLoaded = true := by
          have before : m.indexLoaded = true := by
            rw [forwarding.memory]
            exact loaded
          rw [replayed.memory]
          exact before
        rw [markLoaded, ← kept]
      rw [marked] at current₃
      rw [← same₃] at reclaims
      obtain ⟨persisted, same₄⟩ := sound₃.persist current₃ ends₃
      have present₃ : ∀ seg ∈ B, Stays d₃ seg.id := by
        have cleaned : Cleaning E.codec d₂ (cleaned _ (A ++ B')) d₃ :=
          ⟨⟨_, [], (append_nil _).symm, by rw [append_nil]; exact replayed.lays⟩,
            replayed.checkpoint, replayed.reclaim⟩
        exact fun seg mem => cleaned.stays lays (present₂ seg mem)
      refine does_persistCheckpoint current₃.writable ⟨_, _, .inr rfl, sound₃, reclaims, present₃⟩
        ⟨_, _, .inr rfl, persisted, by rw [same₄]; exact reclaims, present₃⟩ ?_ no_fault
      refine ⟨_, persisted, by rw [same₄]; exact reclaims, current₃.persist _ _, ends₃, ?_, ?_⟩
      · rw [← marked]
        rfl
      · obtain ⟨new, ids, none⟩ := forwarding.ids
        refine ⟨new, ?_, fun no_consumer => none ?_⟩
        · rw [cleaned_ids, cutIn, manifest₂, liveIn_cleaned, cleaned_ids, ← ids]
          exact congrArg (map Segment.id) cuts'.liveIn
        · rw [consumerCursors, no_consumer]
          rfl
    · rintro e s' d₃ ⟨-, gap | ⟨faulty, -⟩⟩
      · exact absurd sound₂.numbered.gapless gap
      · exact no_fault faulty
  · rintro e s' d'' ⟨-, faulty, -⟩
    exact no_fault faulty

/-- A moment of `reclaim_segments`: what is gone is acked, and the segments above the cut are
there. -/
def Reclaiming (E : StoreEnv) (c : Contents) (L : Layout) (policy : SegmentGcPolicy) (d' : Dir) :
    Prop :=
  ∃ L' k, Sound E d' L' ∧ Reclaims c k (contentsOf d' L') ∧
    (k ≠ 0 → ∀ name, c.Knows name → (contentsOf d' L').base ≤ c.cursor name) ∧
    ∀ id ∈ L.map Segment.id, (∀ e, c.cut E.codec L policy = some e → e.1 < id) → Stays d' id

structure Settled (E : StoreEnv) (c : Contents) (L : Layout) (policy : SegmentGcPolicy) (d' : Dir)
    (L' : Layout) : Prop where
  quiet : c.cut E.codec L policy = none → contentsOf d' L' = c ∧
    L'.map Segment.id = L.map Segment.id
  cut : ∀ e, c.cut E.codec L policy = some e → ∃ k new, Reclaims c k (contentsOf d' L') ∧
    c.base + k = e.2 ∧ (∀ name, c.Knows name → e.2 ≤ c.cursor name) ∧
    L'.map Segment.id = (L.map Segment.id).filter (e.1 < ·) ++ new ∧
    (c.seen.entries = [] → new = [])

theorem Intact.reclaiming (sound : Sound E d L)
    (live : ∀ seg ∈ L, cutIn d < seg.id) (h : Intact E d L d')
    (policy : SegmentGcPolicy) : Reclaiming E (contentsOf d L) L policy d' := by
  obtain ⟨⟨L', sound', same⟩, ids⟩ := h
  refine ⟨L', 0, sound', by rw [same]; exact .refl _, fun none => absurd rfl none, ?_⟩
  intro id listed _
  have manifest : d'.manifest = d.manifest := congrArg Contents.manifest same
  refine ⟨ids id (by rwa [sound.lays.segmentIds]), ?_⟩
  obtain ⟨seg, mem, rfl⟩ := mem_map.1 listed
  rw [cutIn, manifest]
  exact live seg mem

theorem Current.base_le (current : Current E d L s) :
    s.reclaimedThrough ≤ (contentsOf d L).base := by
  cases loaded : s.indexLoaded with
  | true => exact (current.loaded loaded).base.le
  | false =>
    rw [current.unloaded loaded]
    exact Nat.le_max_left _ _

/-- With a cut there is a boundary above 0, which every consumer has reached, so a cursor that is
written forward was written before. -/
theorem Sound.forward_fits (sound : Sound E d L) (some_acked : (contentsOf d L).cursor name ≠ 0) :
    Fits E.codec (.ack name ((contentsOf d L).cursor name)) := by
  cases is : (contentsOf d L).acks.find? name with
  | none => exact absurd (by rw [Contents.cursor, is]; rfl) some_acked
  | some q =>
    have mem : .ack name q ∈ liveFrames d L := mem_of_acksOf is
    obtain ⟨seg, live, inside⟩ := mem_flatMap.1 mem
    rw [Contents.cursor, is]
    exact sound.lays.fits seg (mem_liveIn.1 live).1 _ inside

theorem does_reclaimSegments (sound : Sound E d L) (known : Known E d L s)
    (steady : Steady E d L s) (faultless : E.mayFail = false) (policy : SegmentGcPolicy) :
    Does (Reclaiming E (contentsOf d L) L policy) (reclaimSegments E policy) s
      (fun a s' d' => ∃ L', Honours E (contentsOf d L) (.reclaim policy) s (.reclaimed a) s' d' L' ∧
        Settled E (contentsOf d L) L policy d' L')
      (fun _ _ _ => False) d := by
  have here : Intact E d L d := ⟨⟨L, sound, rfl⟩, fun _ listed => listed⟩
  refine .bind (.memory ?_)
  rw [if_neg (by simp [known.writable])]
  split
  · rename_i disabled
    refine .bind (does_readDir (here.reclaiming sound known.live policy) (.pure ?_))
    refine ⟨L, ⟨.refl sound known steady, fun e mem => ?_, fun _ is => by cases is⟩,
      fun _ => ⟨rfl, rfl⟩, fun e is => ?_⟩
    · rw [mem_singleton.1 mem]
      exact (steady faultless).1.base_le
    · rw [cut, if_neg (by simpa using disabled)] at is
      cases is
  · rename_i enabled
    refine .bind ((does_ensureIndexLoaded sound known).mono
      (fun _ intact => intact.reclaiming sound known.live policy) ?_ ?_)
    · rintro _ s₁ d₁ ⟨L₁, loaded⟩
      obtain ⟨current, ends⟩ := loaded.steady steady faultless
      have ids : L₁.map Segment.id = L.map Segment.id := by
        have untorn := congrArg (map Segment.id) loaded.untorn
        rwa [map_map, map_map] at untorn
      have cut : (contentsOf d L).cut E.codec L policy = cutOf policy s₁.segmentLastSequences
          s₁.interestCeiling s₁.activeSegmentId d₁.segmentIds.length := by
        rw [← Contents.cut_untorn, ← loaded.untorn, Contents.cut_untorn, cut,
          if_pos (by simpa using enabled), current.segmentLastSequences loaded.sound loaded.loaded,
          current.interestCeiling, loaded.same, ends, loaded.sound.lays.segmentIds, length_map]
      have here₁ : Reclaiming E (contentsOf d L) L policy d₁ :=
        Intact.reclaiming sound known.live ⟨⟨L₁, loaded.sound, loaded.same⟩, fun id listed => by
          rwa [loaded.sound.lays.segmentIds, ids, ← sound.lays.segmentIds]⟩ policy
      refine .bind (.memory (.bind (does_readDir here₁ ?_)))
      cases is : (contentsOf d L).cut E.codec L policy with
      | none =>
        obtain ⟨watermark, note, plan⟩ := planReclaim_none (cut.symm.trans is)
        rw [plan]
        refine .pure ⟨L₁, ⟨loaded.leaves steady, fun e mem => ?_, fun _ is => by cases is⟩,
          fun _ => ⟨loaded.same, ids⟩, fun e some => by rw [is] at some; cases some⟩
        rw [mem_singleton.1 mem]
        exact current.base_le
      | some e =>
        obtain ⟨segments, watermark, plan⟩ := planReclaim_some (cut.symm.trans is)
        obtain ⟨mem, sealed, below, positive⟩ := cutOf_eq_some (cut.symm.trans is)
        rw [current.segmentLastSequences loaded.sound loaded.loaded, current.interestCeiling] at *
        rw [plan]
        obtain ⟨A, B, cuts⟩ := exists_cuts (E := E) loaded.sound.lays.ascending mem (by rwa [ends])
        obtain rfl := cuts.split
        have acked (name : String) (known : (contentsOf d L).Knows name) :
            e.2 ≤ (contentsOf d L).cursor name := by
          rw [← loaded.same] at known ⊢
          exact below.trans (Contents.boundary_le _ policy _ known)
        have seq : (contentsOf d L).base + (viewsOf (framesIn A)).length = e.2 := by
          rw [cuts.seq, loaded.same]
        have above : ((A ++ B).map Segment.id).filter (e.1 < ·) = B.map Segment.id := by
          rw [filter_map]
          exact congrArg (map Segment.id) cuts.liveIn
        have reclaiming (d₂ : Dir) (moment : Reclaimable E (contentsOf d₁ (A ++ B))
            (viewsOf (framesIn A)).length B d₂) : Reclaiming E (contentsOf d L) L policy d₂ := by
          obtain ⟨L₂, k, which, sound₂, reclaims, present⟩ := moment
          rw [loaded.same] at reclaims
          refine ⟨L₂, k, sound₂, reclaims, fun some name known => ?_, fun id listed higher => ?_⟩
          · rw [reclaims.base, which.resolve_left some, seq]
            exact acked name known
          · have kept : id ∈ B.map Segment.id := by
              rw [← above, mem_filter]
              exact ⟨by rwa [ids], decide_eq_true (higher e is)⟩
            obtain ⟨seg, mem, rfl⟩ := mem_map.1 kept
            exact present seg mem
        refine .bind ((does_applyReclaim loaded.sound current ends loaded.loaded faultless
          cuts).mono ?_ ?_ ?_)
        · intro d₂ moment
          exact reclaiming d₂ moment
        · rintro _ s₂ d₂ ⟨L₂, reclaimed⟩
          have contents := reclaimed.contents
          rw [loaded.same] at contents
          have base : (contentsOf d₂ L₂).base = e.2 := by rw [contents.base, seq]
          have grows := contents.grows sound.numbered
            fun _ name known => base ▸ acked name known
          have leaves : Leaves E true (contentsOf d L) s s₂ d₂ L₂ := by
            refine ⟨reclaimed.sound, grows, contents.rooted, fun is => (by cases is),
              reclaimed.current.known, fun _ => ⟨reclaimed.current, reclaimed.ends⟩,
                fun _ => .inl ?_⟩
            rw [reclaimed.current.count]
            exact grows.tip
          obtain ⟨new, ids₂, none⟩ := reclaimed.ids
          have stays : ∀ seg ∈ B, Stays d₂ seg.id := by
            intro seg mem
            have listed : seg.id ∈ L₂.map Segment.id := by
              rw [ids₂]
              exact mem_append_left _ (mem_map_of_mem mem)
            refine ⟨reclaimed.sound.lays.segmentIds ▸ listed, ?_⟩
            obtain ⟨other, known, same⟩ := mem_map.1 listed
            exact same ▸ reclaimed.current.live other known
          refine .bind (.memory (.bind (does_readDir (reclaiming d₂ ⟨L₂, _, .inr rfl,
            reclaimed.sound, reclaimed.contents, stays⟩) (.pure ?_))))
          refine ⟨L₂, ⟨leaves, fun effect mem => ?_, fun _ is => by cases is⟩, fun quiet => ?_,
            fun e' same => ?_⟩
          · rw [mem_singleton.1 mem]
            exact reclaimed.current.base_le
          · rw [is] at quiet
            cases quiet
          · rw [is] at same
            cases same
            refine ⟨_, new, contents, seq, acked, ?_, fun no_consumer => none ?_⟩
            · rw [ids₂, ← ids, ← above]
            · rw [current.seen, loaded.same]
              exact no_consumer
        · rintro error s₂ d₂ ⟨name, known, ⟨long, -⟩, -⟩
          refine long (loaded.sound.forward_fits ?_)
          have := Contents.boundary_le _ policy
            (lastsFrom (contentsOf d₁ (A ++ B)).base (A ++ B)) known
          omega
    · rintro e s' d' ⟨faulty, -⟩
      exact absurd faulty (by simp [faultless])

end Ehdb.Proof.Reference
