import Ehdb.Proof.Reference.Reads
import Mathlib.Data.List.TakeWhile

/-! What each call but a reclaim does to the log of the directory, what it answers and what it
leaves in memory. -/

namespace Ehdb.Proof.Reference

open Ehdb.Reference DurableSegmentStore ProofKit List

variable {E : StoreEnv} {c : Contents} {d d' : Dir} {L L' : Layout} {s s' : DurableSegmentStore}
  {frame : SegmentFrame}

def isReclaim : StoreCall → Bool
  | .reclaim _ => true
  | _ => false

/-- A directory that holds a later state of the log, of which nothing is gone unless `reclaiming`.
-/
def Follow (E : StoreEnv) (reclaiming : Bool) (c : Contents) (d : Dir) : Prop :=
  ∃ L, Sound E d L ∧ c.Grows (contentsOf d L) ∧ (c.Rooted → (contentsOf d L).Rooted) ∧
    (reclaiming = false → (contentsOf d L).base = c.base)

def Serving (c : Contents) (s s' : DurableSegmentStore) : Prop :=
  s'.indexLoaded = true →
    c.tip ≤ s'.eventCount ∨ s.indexLoaded = true ∧ s.eventCount ≤ s'.eventCount

/-- What every call, failed or not, leaves of the store and its directory. -/
structure Leaves (E : StoreEnv) (reclaiming : Bool) (c : Contents) (s s' : DurableSegmentStore)
    (d' : Dir) (L' : Layout) : Prop where
  sound : Sound E d' L'
  grows : c.Grows (contentsOf d' L')
  rooted : c.Rooted → (contentsOf d' L').Rooted
  base : reclaiming = false → (contentsOf d' L').base = c.base
  known : Known E d' L' s'
  steady : Steady E d' L' s'
  serving : Serving c s s'

def Left (E : StoreEnv) (reclaiming : Bool) (c : Contents) (s s' : DurableSegmentStore) (d' : Dir) :
    Prop := ∃ L', Leaves E reclaiming c s s' d' L'

variable {reclaiming : Bool}

theorem Keeps.follow (h : Keeps E c d) : Follow E reclaiming c d := by
  obtain ⟨L, sound, rfl⟩ := h
  exact ⟨L, sound, .refl _, id, fun _ => rfl⟩

theorem Keeps.follow_add (h : Keeps E (c.add frame) d) (next : c.Follows frame) :
    Follow E reclaiming c d := by
  obtain ⟨L, sound, same⟩ := h
  exact ⟨L, sound, same ▸ .add next, fun rooted => same ▸ rooted.add frame, fun _ =>
    by rw [same]; rfl⟩

theorem Leaves.refl (sound : Sound E d L) (known : Known E d L s) (steady : Steady E d L s) :
    Leaves E reclaiming (contentsOf d L) s s d L :=
  ⟨sound, .refl _, id, fun _ => rfl, known, steady, fun loaded => .inr ⟨loaded, Nat.le_refl _⟩⟩

theorem Known.ready (h : Known E d L s) (steady : Steady E d L s)
    (ready : E.mayFail = true → Aligned s d) : Current E d L s := by
  cases faulty : E.mayFail with
  | true => exact h.current (ready faulty)
  | false => exact (steady faulty).1

/-- Loading the index leaves the contents as they are. -/
structure Loaded (E : StoreEnv) (d : Dir) (L : Layout) (s s' : DurableSegmentStore) (d' : Dir)
    (L' : Layout) : Prop where
  sound : Sound E d' L'
  same : contentsOf d' L' = contentsOf d L
  known : Known E d' L' s'
  loaded : s'.indexLoaded = true
  steady : Steady E d L s → Steady E d' L' s'
  serving : Serving (contentsOf d L) s s'
  current : Current E d L s → Current E d' L' s'
  torn : s'.tornTailSkipped = if s.indexLoaded then s.tornTailSkipped else tornIn d L
  untorn : L'.map Segment.untorn = L.map Segment.untorn

theorem Loaded.leaves (h : Loaded E d L s s' d' L') (steady : Steady E d L s) :
    Leaves E reclaiming (contentsOf d L) s s' d' L' :=
  ⟨h.sound, h.same ▸ .refl _, fun rooted => h.same ▸ rooted, fun _ => by rw [h.same], h.known,
    h.steady steady, h.serving⟩

variable {s'' : DurableSegmentStore}

theorem Serving.trans (h : Serving c s s') (loaded : s'.indexLoaded = true)
    (h' : Serving c s' s'') :
    Serving c s s'' := by
  intro now
  rcases h' now with all | ⟨-, le⟩
  · exact .inl all
  · rcases h loaded with all | ⟨before, le'⟩
    · exact .inl (all.trans le)
    · exact .inr ⟨before, le'.trans le⟩

theorem Loaded.then {d'' L''} (h : Loaded E d L s s' d' L')
    (h' : Leaves E reclaiming (contentsOf d' L') s' s'' d'' L'') :
    Leaves E reclaiming (contentsOf d L) s s'' d'' L'' := by
  obtain ⟨sound, grows, rooted, base, known, steady, serving⟩ := h'
  rw [h.same] at grows rooted base serving
  exact ⟨sound, grows, rooted, base, known, steady, h.serving.trans h.loaded serving⟩

def Intact (E : StoreEnv) (d : Dir) (L : Layout) (d' : Dir) : Prop :=
  Keeps E (contentsOf d L) d' ∧ ∀ id ∈ d.segmentIds, id ∈ d'.segmentIds

theorem Cleaning.present (cleaning : Cleaning E.codec d L d') {id} (known : id ∈ d.segmentIds)
    (lays : Lays E.codec d L) (above : cutIn d < id) : id ∈ d'.segmentIds := by
  obtain ⟨⟨X, Y, rfl, lays'⟩, -, -⟩ := cleaning
  rw [lays.segmentIds] at known
  obtain ⟨seg, mem, rfl⟩ := mem_map.1 known
  rw [lays'.segmentIds, map_append]
  rcases mem_append.1 mem with first | second
  · refine mem_append_left _ (mem_map.2 ⟨seg.untorn, ?_, rfl⟩)
    exact mem_map_of_mem (mem_liveIn.2 ⟨first, above⟩)
  · exact mem_append_right _ (mem_map_of_mem second)

theorem Known.intact (known : Known E d L s) (sound : Sound E d L)
    (cleaning : Cleaning E.codec d L d') : Intact E d L d' := by
  refine ⟨sound.cleaning cleaning, fun id listed => cleaning.present listed sound.lays ?_⟩
  rw [sound.lays.segmentIds] at listed
  obtain ⟨seg, mem, rfl⟩ := mem_map.1 listed
  exact known.live seg mem

theorem does_ensureIndexLoaded (sound : Sound E d L) (known : Known E d L s) :
    Does (Intact E d L) (ensureIndexLoaded E) s
      (fun _ s' d' => ∃ L', Loaded E d L s s' d' L')
      (fun _ s' d' => E.mayFail = true ∧ Left E false (contentsOf d L) s s' d') d := by
  refine .bind (.memory ?_)
  cases loaded : s.indexLoaded with
  | true =>
    exact .pure ⟨L, sound, rfl, known, loaded, id, fun _ => .inr ⟨loaded, Nat.le_refl _⟩, id,
      by rw [if_pos loaded], rfl⟩
  | false =>
    refine .bind ((does_replay sound.lays known.writable sound.positive).mono
      (fun d' cleaning => known.intact sound cleaning) ?_ ?_)
    · intro _ s' d' replayed
      obtain ⟨sound', same, current, ends⟩ := replayed.current sound known.writable
      refine .update ⟨_, sound', same, current.known, rfl, fun _ _ => ⟨current, ends⟩,
        fun _ => .inl ?_,
        fun _ => current, ?_, ?_⟩
      · rw [current.count, same]
      · rw [replayed.memory, loaded, if_neg (by simp)]
        rfl
      · rw [cleaned, liveIn_of_forall known.live, map_map]
        rfl
    · rintro e s' d' ⟨⟨⟨A, B, rfl, lays⟩, checkpoint, reclaim⟩, gap | ⟨faulty, behind⟩⟩
      · exact absurd sound.numbered.gapless gap
      · obtain ⟨sound', same⟩ := sound.of_cleaned lays checkpoint reclaim
        have unloaded : ¬s'.indexLoaded = true := by simp [behind.loaded, loaded]
        refine ⟨faulty, _, sound', same ▸ .refl _, fun rooted => same ▸ rooted,
          fun _ => by rw [same], ⟨behind.writable, ?_, ?_, ?_⟩,
          fun steady => absurd steady (by simp [faulty]), fun now => absurd now unloaded⟩
        · simp only [cutIn, manifest_congr reclaim]
          intro seg mem
          rcases mem_append.1 mem with clean | rest
          · exact (mem_cleaned clean).2.1
          · exact known.live seg (mem_append_right _ rest)
        · exact fun aligned => absurd aligned (not_aligned_of_behind behind.behind)
        · exact fun now => absurd now unloaded

/-- The frame is the last of the store's contents, and memory knows of it. -/
structure Recorded (E : StoreEnv) (c : Contents) (frame : SegmentFrame) (s s' : DurableSegmentStore)
    (d' : Dir) (L' : Layout) : Prop where
  fits : Fits E.codec frame
  sound : Sound E d' L'
  added : contentsOf d' L' = c.add frame
  current : Current E d' L' s'
  ends : endOf E.codec L' = (s'.activeSegmentId, s'.activeLen)
  loaded : s'.indexLoaded = s.indexLoaded
  torn : s'.tornTailSkipped = s.tornTailSkipped

theorem Recorded.leaves (h : Recorded E c frame s s' d' L') (next : c.Follows frame) :
    Leaves E reclaiming c s s' d' L' := by
  have grows : c.Grows (contentsOf d' L') := h.added ▸ .add next
  refine ⟨h.sound, grows, fun rooted => h.added ▸ rooted.add frame,
    fun _ => by rw [h.added]; rfl, h.current.known, fun _ => ⟨h.current, h.ends⟩, fun _ => .inl ?_⟩
  rw [h.current.count]
  exact grows.tip

/-- The steps that `append`, `tail` and `ack` share: write a frame, note it, write the
checkpoint. -/
theorem does_record {β : Type} {note : EventLoc → DurableSegmentStore → DurableSegmentStore}
    {rest : StoreTask β} {I : Dir → Prop} {ok : β → DurableSegmentStore → Dir → Prop}
    {err : EhdbError → DurableSegmentStore → Dir → Prop} (sound : Sound E d L)
    (current : Current E d L s) (steady : Steady E d L s)
    (next : (contentsOf d L).Follows frame) (notes : ∀ loc m, note loc m = noteFrame loc frame m)
    (follow : ∀ d', Follow E false (contentsOf d L) d' → I d')
    (go_on : ∀ s' d' L', Recorded E (contentsOf d L) frame s s' d' L' → Does I rest s' ok err d')
    (failed : ∀ e s' d', TooLong E frame e ∨ E.mayFail = true →
      Left E false (contentsOf d L) s s' d' →
      err e s' d') : Does I (writeFrame E frame >>= fun loc => Task.update (note loc) >>= fun _ =>
      persistCheckpoint E >>= fun _ => rest) s ok err d := by
  refine .bind ((does_writeFrame sound current.standing).mono ?_ ?_ ?_)
  · rintro d' ⟨fits, A, id, fs, target, writing⟩
    rcases target.writing sound fits next writing with kept | added
    · exact follow d' kept.follow
    · exact follow d' (added.follow_add next)
  · rintro loc m d' ⟨A, fs, written⟩
    obtain ⟨sound', added⟩ := written.sound sound next
    have current' := written.current sound current next
    have ends' := written.ends
    refine .bind (.update (.bind ?_))
    rw [notes]
    have loaded : (noteFrame loc frame m).indexLoaded = s.indexLoaded := by
      rw [written.memory]
      rfl
    have torn : (noteFrame loc frame m).tornTailSkipped = s.tornTailSkipped := by
      rw [written.memory]
      rfl
    obtain ⟨persisted, same⟩ := sound'.persist current' ends'
    refine does_persistCheckpoint current'.writable
      (follow d' (Keeps.follow_add ⟨_, sound', added⟩ next))
      (follow _ (Keeps.follow_add ⟨_, persisted, same.trans added⟩ next)) ?_ fun faulty => ?_
    · exact go_on _ _ _ ⟨written.fits, persisted, same.trans added, current'.persist _ _, ends',
        loaded, torn⟩
    · exact failed _ _ _ (.inr faulty)
        ⟨_, Recorded.leaves ⟨written.fits, sound', added, current', ends', loaded, torn⟩ next⟩
  · rintro e s' d' (⟨rfl, rfl, long⟩ | ⟨faulty, fits, A, id, fs, target, writing, rfl⟩)
    · exact failed _ _ _ (.inl long) ⟨L, .refl sound current.known steady⟩
    · obtain ⟨L', sound', contents, known⟩ := target.failed sound current fits next writing
      refine failed _ _ _ (.inr faulty) ⟨L', sound', ?_, ?_, fun _ => ?_, known,
        fun steady => absurd steady (by simp [faulty]), fun loaded => ?_⟩
      · rcases contents with same | added
        · exact same ▸ .refl _
        · exact added ▸ .add next
      · rcases contents with same | added
        · exact fun rooted => same ▸ rooted
        · exact fun rooted => added ▸ rooted.add frame
      · rcases contents with same | added
        · rw [same]
        · rw [added]
          rfl
      · exact .inr ⟨loaded, Nat.le_refl _⟩

namespace Contents

def readExecutionResult (E : StoreEnv) (c : Contents) (torn : Nat)
    (request : EventLogReadExecutionRequest) : Result EventLogReadExecutionOutcome := do
  validateExecutionId E request.executionId
  return c.readExecution torn (E.trim request.executionId) request

def tailAnswer (E : StoreEnv) (c : Contents) (consumer : String) (limit : Nat) :
    Result EventLogTailOutcome :=
  let body := E.codec.toVec (.consumerCreate consumer)
  if c.views.isEmpty then .ok ⟨"eventlog-tail", consumer, false, false, none, 0, 0, []⟩
  else if (c.seen.find? consumer).isSome then .ok (c.tailFor consumer false limit)
  else if body.length > L0.maxFrameBodyBytes then .error (bodyOverCap body.length)
  else .ok (c.tailFor consumer true limit)

def tailed (c : Contents) (consumer : String) (limit : Nat) : EventLogTailOutcome × Contents :=
  if c.views.isEmpty then (⟨"eventlog-tail", consumer, false, false, none, 0, 0, []⟩, c)
  else if (c.seen.find? consumer).isSome then (c.tailFor consumer false limit, c)
  else (c.tailFor consumer true limit, c.add (.consumerCreate consumer))

def tailResult (E : StoreEnv) (c : Contents) (request : EventLogTailRequest) :
    Result EventLogTailOutcome := do
  validateConsumer E request.consumer
  c.tailAnswer E (E.trim request.consumer) request.limit

theorem tailFor_add (c : Contents) (created consumer : String) (new : Bool) (limit : Nat) :
    (c.add (.consumerCreate created)).tailFor consumer new limit =
      c.tailFor consumer new limit := by
  have same : c.views ++ (viewOf (.consumerCreate created)).toList = c.views := append_nil _
  unfold tailFor pick viewAt
  simp only [add, tip, same, ackedBy]

end Contents

/-- An answered call left the store sound, and what it answered is in the contents. -/
structure Honours (E : StoreEnv) (c : Contents) (call : StoreCall) (s : DurableSegmentStore)
    (a : StoreAnswer) (s' : DurableSegmentStore) (d' : Dir) (L' : Layout) : Prop where
  leaves : Leaves E (isReclaim call) c s s' d' L'
  effects : ∀ e ∈ effectsOf (.answered call (.ok a)), e.In (contentsOf d' L')
  fresh : ∀ view, appendedBy (.answered call (.ok a)) = some view →
    c.tip < view.globalSequence ∧ (s'.indexLoaded = true → view.globalSequence ≤ s'.eventCount)

def eventOf (E : StoreEnv) (s : DurableSegmentStore) (request : EventLogAppendRequest) :
    SegmentFrame :=
  .event (s.eventCount + 1) (E.trim request.executionId) request.transactionId request.payload

theorem Current.follows_event (current : Current E d L s) {req} :
    (contentsOf d L).Follows (eventOf E s req) := by
  intro view is
  cases is
  rw [current.count]
  rfl

def outcomeOf (E : StoreEnv) (s : DurableSegmentStore) (request : EventLogAppendRequest) :
    EventLogAppendOutcome :=
  ⟨"eventlog-append", E.trim request.executionId, s.eventCount + 1, request.payload.utf8ByteSize,
    s.eventCount = 0, s.eventCount + 1, false⟩

theorem Recorded.append {req}
    (h : Recorded E (contentsOf d L) (eventOf E s req) s s' d' L') (current : Current E d L s) :
    Honours E (contentsOf d L) (.append req) s (.appended (outcomeOf E s req)) s' d' L' := by
  refine ⟨h.leaves current.follows_event, ?_, ?_⟩
  · intro e mem
    rw [mem_singleton.1 mem, Effect.In, h.added]
    exact .inr (mem_append_right _ (mem_singleton.2 rfl))
  · intro view is
    cases is
    refine ⟨Nat.lt_succ_of_le current.count.ge, fun _ => ?_⟩
    rw [h.current.count, h.added, Contents.add_tip, ← current.count]
    exact Nat.le_refl _

theorem Recorded.ack {req} (h : Recorded E c (.ack (E.trim req.consumer) req.sequence) s s' d' L') :
    Honours E c (.ack req) s (.acked ⟨"eventlog-ack", E.trim req.consumer,
      req.sequence⟩) s' d' L' := by
  refine ⟨h.leaves nofun, fun e mem => ?_, nofun⟩
  rcases mem_cons.1 mem with rfl | mem
  · rw [Effect.In, h.added]
    exact Contents.knows_acked ..
  · rw [mem_singleton.1 mem, Effect.In, h.added]
    exact ⟨_, (Contents.find?_raise ..).trans (if_pos rfl), Nat.le_max_right _ _⟩

/-- Why a call that writes `frame` fails: a check, after which nothing has changed, the length of
the frame, or a step that may fail. -/
def Refuses (E : StoreEnv) (c : Contents) (d : Dir) (s : DurableSegmentStore) (check : Result Unit)
    (frame : SegmentFrame) (e : EhdbError) (s' : DurableSegmentStore) (d' : Dir) : Prop :=
  check = .error e ∧ s' = s ∧ d' = d ∨
    (TooLong E frame e ∨ E.mayFail = true) ∧ Left E false c s s' d'

section

variable (sound : Sound E d L)
include sound

theorem Refuses.left (known : Known E d L s) (steady : Steady E d L s) {check e}
    (h : Refuses E (contentsOf d L) d s check frame e s' d') :
    Left E false (contentsOf d L) s s' d' := by
  rcases h with ⟨-, rfl, rfl⟩ | ⟨-, left⟩
  · exact ⟨L, .refl sound known steady⟩
  · exact left

theorem does_append (current : Current E d L s) (steady : Steady E d L s)
    (req : EventLogAppendRequest) : Does (Follow E false (contentsOf d L)) (append E req) s
      (fun a s' d' => a = outcomeOf E s req ∧
        ∃ L', Recorded E (contentsOf d L) (eventOf E s req) s s' d' L')
      (Refuses E (contentsOf d L) d s (validateAppend E req) (eventOf E s req)) d := by
  refine .bind (.ofExcept ?_)
  cases validateAppend E req with
  | error e => exact .inl ⟨rfl, rfl, rfl⟩
  | ok _ =>
    refine .bind (.memory ?_)
    refine does_record sound current steady current.follows_event (fun loc m => ?_)
      (fun _ => id) (fun _ _ L' recorded => .pure ⟨rfl, L', recorded⟩)
      fun _ _ _ why left => .inr ⟨why, left⟩
    unfold countEvent noteFrame
    cases m.indexLoaded <;> simp [viewOf, pushEvent, executedBy, seenBy, ackedBy]

theorem does_ack (current : Current E d L s) (steady : Steady E d L s)
    (req : EventLogAckRequest) : Does (Follow E false (contentsOf d L)) (ack E req) s
      (fun a s' d' => a = ⟨"eventlog-ack", E.trim req.consumer, req.sequence⟩ ∧
        ∃ L', Recorded E (contentsOf d L) (.ack (E.trim req.consumer) req.sequence) s s' d' L')
      (Refuses E (contentsOf d L) d s (validateAck E s req)
        (.ack (E.trim req.consumer) req.sequence)) d := by
  refine .bind (.memory (.bind (.ofExcept ?_)))
  cases validateAck E s req with
  | error e => exact .inl ⟨rfl, rfl, rfl⟩
  | ok _ =>
    refine does_record sound current steady nofun (fun loc m => ?_)
      (fun _ => id) (fun _ _ L' recorded => .pure ⟨rfl, L', recorded⟩)
      fun _ _ _ why left => .inr ⟨why, left⟩
    simp [raiseCursor, noteFrame, viewOf, executedBy, seenBy, ackedBy]

/-- A scan that has loaded the index answers from the first events of the log. -/
def Scanned (E : StoreEnv) (d : Dir) (L : Layout) (s : DurableSegmentStore)
    (req : EventLogScanRequest) (result : Result EventLogScanOutcome) (s' : DurableSegmentStore)
    (d' : Dir) : Prop :=
  ∃ L', Loaded E d L s s' d' L' ∧ ∃ k ≤ (contentsOf d L).views.length,
    s'.eventCount = (contentsOf d L).base + k ∧
      ((contentsOf d L).first k).scanResult s'.tornTailSkipped req = result

theorem does_scanGlobal (known : Known E d L s) (req : EventLogScanRequest) :
    Does (Keeps E (contentsOf d L)) (scanGlobal E req) s (fun a => Scanned E d L s req (.ok a))
      (fun e s' d' => E.mayFail = true ∧ Left E false (contentsOf d L) s s' d' ∨
        Scanned E d L s req (.error e) s' d') d := by
  refine .bind ((does_ensureIndexLoaded sound known).mono (fun _ h => h.1) ?_
    fun _ _ _ => .inl)
  rintro _ s' d' ⟨L', loaded⟩
  refine .bind (.memory (.bind (does_readDir ⟨L', loaded.sound, loaded.same⟩ ?_)))
  obtain ⟨k, bound, count, answer⟩ := (loaded.known.serves loaded.loaded).scan loaded.sound.lays
    loaded.known.live req
  rw [loaded.same] at bound count answer
  refine .ofExcept ?_
  cases result : scanLoaded E s' d' req with
  | ok a => exact ⟨L', loaded, k, bound, count, answer.symm.trans result⟩
  | error e => exact .inr ⟨L', loaded, k, bound, count, answer.symm.trans result⟩

theorem does_readExecution (known : Known E d L s) (steady : Steady E d L s)
    (req : EventLogReadExecutionRequest) : Does (Keeps E (contentsOf d L)) (readExecution E req) s
      (fun a s' d' => ∃ L', Loaded E d L s s' d' L' ∧ (Current E d' L' s' →
        (contentsOf d L).readExecutionResult E s'.tornTailSkipped req = .ok a))
      (fun e s' d' => Left E false (contentsOf d L) s s' d' ∧ (E.mayFail = true ∨
        ∀ torn, (contentsOf d L).readExecutionResult E torn req = .error e)) d := by
  refine .bind (.ofExcept ?_)
  cases valid : validateExecutionId E req.executionId with
  | error e =>
    refine ⟨⟨L, .refl sound known steady⟩, .inr fun torn => ?_⟩
    rw [Contents.readExecutionResult, valid]
    rfl
  | ok _ =>
    refine .bind ((does_ensureIndexLoaded sound known).mono (fun _ h => h.1) ?_ ?_)
    · rintro _ s' d' ⟨L', loaded⟩
      refine .bind (.memory (.bind (does_readDir ⟨L', loaded.sound, loaded.same⟩ ?_)))
      have answer (current : Current E d' L' s') : readExecutionLoaded E s' d' req =
          (contentsOf d L).readExecutionResult E s'.tornTailSkipped req := by
        rw [current.readExecution loaded.sound loaded.loaded req, loaded.same,
          Contents.readExecutionResult, valid]
        rfl
      refine .ofExcept ?_
      cases read : readExecutionLoaded E s' d' req with
      | ok a => exact ⟨L', loaded, fun current => (answer current).symm.trans read⟩
      | error e =>
        refine ⟨⟨L', loaded.leaves steady⟩, ?_⟩
        cases faulty : E.mayFail with
        | true => exact .inl rfl
        | false =>
          have exact_answer := answer (loaded.steady steady faulty).1
          rw [read, Contents.readExecutionResult, valid] at exact_answer
          cases exact_answer
    · rintro e s' d' ⟨faulty, left⟩
      exact ⟨left, .inl faulty⟩

theorem does_tail (current : Current E d L s) (steady : Steady E d L s)
    (req : EventLogTailRequest) : Does (Follow E false (contentsOf d L)) (tail E req) s
      (fun a s' d' => (contentsOf d L).tailResult E req = .ok a ∧
        ∃ L', Honours E (contentsOf d L) (.tail req) s (.tailed a) s' d' L' ∧
          contentsOf d' L' = ((contentsOf d L).tailed (E.trim req.consumer) req.limit).2 ∧
          s'.tornTailSkipped = if s.indexLoaded then s.tornTailSkipped else tornIn d L)
      (fun e s' d' => Left E false (contentsOf d L) s s' d' ∧
        (E.mayFail = true ∨ (contentsOf d L).tailResult E req = .error e)) d := by
  refine .bind (.ofExcept ?_)
  cases valid : validateConsumer E req.consumer with
  | error e =>
    refine ⟨⟨L, .refl sound current.known steady⟩, .inr ?_⟩
    rw [Contents.tailResult, valid]
    rfl
  | ok _ =>
    refine .bind ((does_ensureIndexLoaded sound current.known).mono
      (fun _ intact => intact.1.follow) ?_ ?_)
    · rintro _ s' d' ⟨L', loaded⟩
      refine .bind (.memory ?_)
      have current' := loaded.current current
      have empty := current'.isEmpty loaded.loaded
      rw [loaded.same] at empty
      have result : (contentsOf d L).tailResult E req =
          (contentsOf d L).tailAnswer E (E.trim req.consumer) req.limit := by
        rw [Contents.tailResult, valid]
        rfl
      rw [empty, result]
      unfold Contents.tailAnswer Contents.tailed
      split
      · exact .pure ⟨rfl, L', ⟨loaded.leaves steady, fun _ mem => (by cases mem),
          fun _ is => by cases is⟩, loaded.same, loaded.torn⟩
      · have here : Follow E false (contentsOf d L) d' :=
          Keeps.follow ⟨L', loaded.sound, loaded.same⟩
        refine .bind (.bind (.memory ?_))
        rw [current'.seen, loaded.same]
        split
        · rename_i known
          refine .pure (.bind (.memory (.bind (does_readDir here ?_))))
          rw [current'.tailLoaded loaded.sound loaded.loaded, loaded.same]
          refine .ofExcept ⟨rfl, L',
            ⟨loaded.leaves steady, fun e mem => ?_, fun _ is => by cases is⟩,
            loaded.same, loaded.torn⟩
          rw [mem_singleton.1 mem, Effect.In, loaded.same]
          exact known
        · have next : (contentsOf d' L').Follows (.consumerCreate (E.trim req.consumer)) :=
            fun _ is => by cases is
          refine does_record loaded.sound current' (loaded.steady steady) next
            (fun loc m => ?_) (fun d'' follow => loaded.same ▸ follow) ?_ ?_
          · simp [seeConsumer, noteFrame, viewOf, executedBy, seenBy, ackedBy]
          · intro s'' d'' L'' recorded
            have follow : Follow E false (contentsOf d L) d'' :=
              loaded.same ▸ Keeps.follow_add ⟨L'', recorded.sound, recorded.added⟩ next
            refine .pure (.bind (.memory (.bind (does_readDir follow ?_))))
            rw [recorded.current.tailLoaded recorded.sound (recorded.loaded.trans loaded.loaded),
              recorded.added, Contents.tailFor_add, loaded.same]
            refine .ofExcept ⟨if_neg ?_, L'', ⟨loaded.then (recorded.leaves next),
              fun e mem => ?_, fun _ is => by cases is⟩, loaded.same ▸ recorded.added,
                recorded.torn.trans loaded.torn⟩
            · exact Nat.not_lt.2 recorded.fits
            · rw [mem_singleton.1 mem, Effect.In, recorded.added]
              exact Contents.knows_created ..
          · rintro e s'' d'' (⟨long, rfl⟩ | faulty) ⟨L'', leaves⟩
            · exact ⟨⟨L'', loaded.then leaves⟩, .inr (if_pos (Nat.lt_of_not_le long))⟩
            · exact ⟨⟨L'', loaded.then leaves⟩, .inl faulty⟩
    · rintro e s' d' ⟨faulty, left⟩
      exact ⟨left, .inl faulty⟩

end

variable {A B : Layout}

def Segment.eventCount (seg : Segment) : Nat := (viewsOf seg.frames).length

/-- The segments with an event, each with the sequence of its last event, after `n` events. -/
def lastsFrom (n : Nat) : Layout → List (Nat × Nat)
  | [] => []
  | seg :: rest =>
    if seg.eventCount = 0 then lastsFrom n rest
    else (seg.id, n + seg.eventCount) :: lastsFrom (n + seg.eventCount) rest

theorem framesIn_eventCount (seg : Segment) (L : Layout) :
    (viewsOf (framesIn (seg :: L))).length = seg.eventCount + (viewsOf (framesIn L)).length := by
  rw [framesIn_cons, viewsOf_append, length_append]
  rfl

theorem lastsFrom_ids (n : Nat) (L : Layout) :
    (lastsFrom n L).map Prod.fst = (L.filter fun seg => seg.eventCount ≠ 0).map Segment.id := by
  induction L generalizing n with
  | nil => rfl
  | cons seg L ih =>
    rw [lastsFrom]
    split
    · rename_i none
      rw [ih, filter_cons_of_neg (by simp [none])]
    · rename_i some
      rw [filter_cons_of_pos (by simp [some]), map_cons, map_cons, ih]

variable {e : Nat × Nat}

theorem mem_lastsFrom {n} (mem : e ∈ lastsFrom n L) :
    ∃ A seg B, L = A ++ seg :: B ∧ seg.eventCount ≠ 0 ∧ seg.id = e.1 ∧
      e.2 = n + (viewsOf (framesIn (A ++ [seg]))).length := by
  induction L generalizing n with
  | nil => cases mem
  | cons first L ih =>
    have later {m : Nat} (here : e ∈ lastsFrom m L) (count : m = n + first.eventCount) :
        ∃ A seg B, first :: L = A ++ seg :: B ∧ seg.eventCount ≠ 0 ∧ seg.id = e.1 ∧
          e.2 = n + (viewsOf (framesIn (A ++ [seg]))).length := by
      obtain ⟨A, seg, B, rfl, some, id, last⟩ := ih here
      refine ⟨first :: A, seg, B, rfl, some, id, ?_⟩
      rw [last, count, cons_append, framesIn_eventCount, Nat.add_assoc]
    rw [lastsFrom] at mem
    split at mem
    · rename_i none
      exact later mem (by rw [none, Nat.add_zero])
    · rename_i some
      rcases mem_cons.1 mem with rfl | here
      · refine ⟨[], first, L, rfl, some, rfl, ?_⟩
        rw [nil_append, framesIn_eventCount]
        rfl
      · exact later here rfl

variable {base i : Nat} {out : List (Nat × Nat)}

theorem foldl_pushLast {locs : List EventLoc} {id : Nat} (same : ∀ loc ∈ locs, loc.segmentId = id)
    (fresh : ∀ e ∈ out, e.1 ≠ id) :
    (locs.zipIdx i).foldl (fun out e => pushLast out e.1.segmentId (base + e.2 + 1)) out =
      if locs.length = 0 then out else out ++ [(id, base + i + locs.length)] := by
  induction locs using reverseRecOn with
  | nil => rfl
  | append_singleton locs loc ih =>
    have here : loc.segmentId = id := same loc (by simp)
    rw [zipIdx_append, foldl_append, ih fun other mem => same other (mem_append_left _ mem)]
    simp only [zipIdx_cons, zipIdx_nil, foldl_cons, foldl_nil, here,
      length_append, length_singleton, Nat.succ_ne_zero, if_false]
    split
    · rename_i none
      rw [none, pushLast]
      split
      · rename_i seg last is
        rw [if_neg (fresh (seg, last) (mem_of_getLast? is))]
        simp
      · simp
    · rw [pushLast, getLast?_concat]
      simp only [if_true, dropLast_concat]
      congr 3
      omega

theorem foldl_pushLast_placed {codec} (ordered : L.Pairwise fun a b => a.id < b.id)
    (fresh : ∀ e ∈ out, ∀ seg ∈ L, e.1 < seg.id) : ((locsOf (placed codec L)).zipIdx i).foldl
      (fun out e => pushLast out e.1.segmentId (base + e.2 + 1)) out =
        out ++ lastsFrom (base + i) L := by
  induction L generalizing i out with
  | nil => exact (append_nil _).symm
  | cons seg L ih =>
    obtain ⟨below, rest⟩ := pairwise_cons.1 ordered
    have here : ∀ loc ∈ locsOf (placedFrom codec seg.id 0 seg.frames), loc.segmentId = seg.id := by
      intro loc mem
      obtain ⟨⟨loc', frame⟩, placed, is⟩ := mem_filterMap.1 mem
      obtain ⟨_, _, same⟩ := Option.map_eq_some_iff.1 is
      obtain ⟨_, _, _, eq⟩ := mem_placedFrom placed
      rw [← same, eq]
    have count : (locsOf (placedFrom codec seg.id 0 seg.frames)).length = seg.eventCount := by
      rw [locsOf_length, placedFrom_frames]
      rfl
    have split : placed codec (seg :: L) = placedFrom codec seg.id 0 seg.frames ++ placed codec L :=
      flatMap_cons
    rw [split, locsOf_append, zipIdx_append, foldl_append, count,
      foldl_pushLast here fun e mem => (fresh e mem seg mem_cons_self).ne, count, lastsFrom]
    split
    · rename_i none
      rw [none, Nat.add_zero]
      exact ih rest fun e mem other known => fresh e mem other (.tail _ known)
    · rw [ih rest, append_assoc, singleton_append]
      · congr 3
        omega
      · intro e mem other known
        rcases mem_append.1 mem with old | new
        · exact fresh e old other (.tail _ known)
        · rw [mem_singleton.1 new]
          exact below other known

theorem Current.segmentLastSequences (current : Current E d L s) (sound : Sound E d L)
    (loaded : s.indexLoaded = true) :
    s.segmentLastSequences = lastsFrom (contentsOf d L).base L := by
  have indexed := current.loaded loaded
  rw [DurableSegmentStore.segmentLastSequences, indexed.events, indexed.base]
  exact foldl_pushLast_placed sound.lays.ascending nofun

section

variable (policy : SegmentGcPolicy) (lasts : List (Nat × Nat)) (ceiling : Option Nat)

def boundaryOf : Nat := reclaimBoundary (retentionTarget policy lasts) ceiling

def cutOf (active total : Nat) : Option (Nat × Nat) :=
  if boundaryOf policy lasts ceiling = 0 then none
  else (selectReclaimable (total - max policy.minRetainedSegments 1) active
    (boundaryOf policy lasts ceiling) lasts).getLast?

end

variable {total : Nat} {policy : SegmentGcPolicy}

theorem planReclaim_none
    (h : cutOf policy s.segmentLastSequences s.interestCeiling s.activeSegmentId total = none) :
    ∃ watermark note, planReclaim s policy total = .nothing watermark note := by
  unfold cutOf boundaryOf at h
  simp only [planReclaim]
  split
  · exact ⟨_, _, rfl⟩
  · rename_i some
    rw [if_neg some] at h
    rw [h]
    exact ⟨_, _, rfl⟩

theorem planReclaim_some
    (h : cutOf policy s.segmentLastSequences s.interestCeiling s.activeSegmentId total = some e) :
    ∃ segments watermark, planReclaim s policy total =
      .reclaim ⟨e.1, e.2, segments, watermark⟩ := by
  unfold cutOf boundaryOf at h
  simp only [planReclaim]
  split at h
  · cases h
  · rename_i some
    rw [if_neg some, h]
    exact ⟨_, _, rfl⟩

theorem cutOf_eq_some {lasts ceiling active}
    (h : cutOf policy lasts ceiling active total = some e) :
    e ∈ lasts ∧ e.1 < active ∧ e.2 ≤ boundaryOf policy lasts ceiling ∧
      boundaryOf policy lasts ceiling ≠ 0 := by
  unfold cutOf at h
  split at h
  · cases h
  · rename_i some
    have mem := mem_of_getLast? h
    have holds := mem_takeWhile_imp mem
    rw [Bool.and_eq_true, decide_eq_true_eq, decide_eq_true_eq] at holds
    exact ⟨mem_of_mem_take ((takeWhile_sublist _).mem mem), holds.1, holds.2, some⟩

def Contents.ceiling (c : Contents) : Option Nat :=
  (c.seen.entries.map fun e => c.cursor e.1).min?

theorem Contents.boundary_le (c : Contents) (policy : SegmentGcPolicy) (lasts : List (Nat × Nat))
    {name} (known : c.Knows name) : boundaryOf policy lasts c.ceiling ≤ c.cursor name := by
  obtain ⟨_, found⟩ := Option.isSome_iff_exists.1 known
  have listed : c.cursor name ∈ c.seen.entries.map fun e => c.cursor e.1 :=
    mem_map.2 ⟨(name, ()), OrderedMap.find?_eq_some.1 found, rfl⟩
  cases least : c.ceiling with
  | none =>
    rw [Contents.ceiling, min?_eq_none_iff] at least
    rw [least] at listed
    cases listed
  | some ceiling =>
    have le : reclaimBoundary (retentionTarget policy lasts) (some ceiling) ≤ ceiling := by
      cases retentionTarget policy lasts with
      | none => exact Nat.le_refl _
      | some target => exact Nat.min_le_right _ _
    exact le.trans ((min?_eq_some_iff.1 least).2 _ listed)

theorem Current.interestCeiling (current : Current E d L s) :
    s.interestCeiling = (contentsOf d L).ceiling := by
  rw [DurableSegmentStore.interestCeiling, consumerCursors, current.seen, current.acks, map_map]
  rfl

def Contents.cut (codec : FrameCodec) (c : Contents) (L : Layout) (policy : SegmentGcPolicy) :
    Option (Nat × Nat) :=
  if policy.enabled then cutOf policy (lastsFrom c.base L) c.ceiling (endOf codec L).1 L.length
  else none

theorem lastsFrom_untorn (n : Nat) (L : Layout) :
    lastsFrom n (L.map Segment.untorn) = lastsFrom n L := by
  induction L generalizing n with
  | nil => rfl
  | cons seg L ih =>
    rw [map_cons, lastsFrom, lastsFrom, ih, ih]
    rfl

theorem Contents.cut_untorn (codec : FrameCodec) (c : Contents) (L : Layout)
    (policy : SegmentGcPolicy) :
      c.cut codec (L.map Segment.untorn) policy = c.cut codec L policy := by
  rw [Contents.cut, Contents.cut, lastsFrom_untorn, endOf_untorn, length_map]

/-- Where a reclaim cuts the layout: `A` goes, up to `segment`, with the events up to `seq`. -/
structure Cuts (L A B : Layout) (base segment seq : Nat) : Prop where
  split : L = A ++ B
  rest : B ≠ []
  below : ∀ seg ∈ A, seg.id ≤ segment
  above : ∀ seg ∈ B, segment < seg.id
  seq : seq = base + (viewsOf (framesIn A)).length

theorem exists_cuts (ordered : L.Pairwise fun a b => a.id < b.id) (mem : e ∈ lastsFrom base L)
    (more : e.1 < (endOf E.codec L).1) : ∃ A B, Cuts L A B base e.1 e.2 := by
  obtain ⟨A, seg, B, rfl, -, id, last⟩ := mem_lastsFrom mem
  rw [pairwise_append, pairwise_cons] at ordered
  obtain ⟨-, ⟨above, -⟩, below⟩ := ordered
  refine ⟨A ++ [seg], B, by simp, ?_, ?_, ?_, last⟩
  · rintro rfl
    rw [endOf_append_singleton, ← id] at more
    exact lt_irrefl _ more
  · intro other mem
    rcases mem_append.1 mem with old | new
    · exact id ▸ (below other old seg (by simp)).le
    · rw [mem_singleton.1 new, id]
  · exact fun other mem => id ▸ above other mem

end Ehdb.Proof.Reference
