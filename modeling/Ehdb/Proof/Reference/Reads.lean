import Ehdb.Proof.Reference.Writes

/-! What the reads of a store answer is a function of the contents of its directory. -/

namespace Ehdb.Proof.Reference

open Ehdb.Reference DurableSegmentStore ProofKit List

variable {E : StoreEnv} {d d' : Dir} {L L' : Layout} {s s' : DurableSegmentStore}

def located (P : List (EventLoc × SegmentFrame)) : List (EventLoc × EventLogRecordView) :=
  P.filterMap fun e => (viewOf e.2).map fun view => (e.1, view)

theorem located_locs (P : List (EventLoc × SegmentFrame)) :
    (located P).map Prod.fst = locsOf P := by
  rw [located, map_filterMap, locsOf]
  congr 1
  funext e
  cases viewOf e.2 <;> rfl

theorem located_views (P : List (EventLoc × SegmentFrame)) :
    (located P).map Prod.snd = viewsOf (P.map Prod.snd) := by
  rw [located, map_filterMap, viewsOf, filterMap_map]
  congr 1
  simp [Function.comp_def]

variable {loc : EventLoc} {frame : SegmentFrame}

theorem mem_placedFrom {codec id offset frames}
    (h : (loc, frame) ∈ placedFrom codec id offset frames) :
    ∃ front back, frames = front ++ frame :: back ∧
      loc = ⟨id, offset + (encoded codec front).length⟩ := by
  induction frames generalizing offset with
  | nil => cases h
  | cons first rest ih =>
    rcases mem_cons.1 h with same | later
    · cases same
      exact ⟨[], rest, rfl, rfl⟩
    · obtain ⟨front, back, rfl, rfl⟩ := ih later
      exact ⟨first :: front, back, rfl, by simp [Nat.add_assoc]⟩

theorem load_placed (lays : Lays E.codec d L) (mem : (loc, frame) ∈ placed E.codec L)
    (sequence : Nat) : ∃ bytes, d.segments.find? loc.segmentId = some bytes ∧
      loadFrame E sequence bytes loc.offset = .ok frame := by
  obtain ⟨seg, known, here⟩ := mem_flatMap.1 mem
  obtain ⟨front, back, frames, rfl⟩ := mem_placedFrom here
  refine ⟨_, lays.bytes known, ?_⟩
  have fits := lays.fits seg known frame (by simp [frames])
  have split : encoded E.codec seg.frames ++ seg.torn = encoded E.codec front ++
      encodedFrame E.codec frame ++ (encoded E.codec back ++ seg.torn) := by
    rw [frames]
    simp
  rw [split, Nat.zero_add]
  exact loadFrame_encoded fits sequence _ _

variable {i : Nat} {view : EventLogRecordView}

theorem Serves.readEvent (serves : Serves E d L s) (lays : Lays E.codec d L)
    (live : ∀ seg ∈ L, cutIn d < seg.id) (is : (contentsOf d L).views[i]? = some view)
    (known : s.reclaimedThrough + i + 1 ≤ s.eventCount) :
    readEvent E s d (s.reclaimedThrough + i + 1) = .ok view := by
  obtain ⟨base, k, -, count, events⟩ := serves
  have views : (contentsOf d L).views = (located (placed E.codec L)).map Prod.snd := by
    rw [located_views, placed_frames, contentsOf, liveFrames, liveIn_of_forall live]
  rw [views, getElem?_map, Option.map_eq_some_iff] at is
  obtain ⟨⟨loc, view'⟩, found, rfl⟩ := is
  have at_loc : s.events[i]? = some loc := by
    rw [events, getElem?_take_of_lt (by omega), ← located_locs, getElem?_map, found]
    rfl
  obtain ⟨⟨loc', frame⟩, mem, eq⟩ := mem_filterMap.1 (mem_of_getElem? found)
  obtain ⟨view'', is_event, same⟩ := Option.map_eq_some_iff.1 eq
  cases same
  obtain ⟨bytes, file, loads⟩ := load_placed lays mem (s.reclaimedThrough + i + 1)
  unfold Ehdb.Reference.DurableSegmentStore.readEvent
  rw [if_neg (by omega), show s.reclaimedThrough + i + 1 - s.reclaimedThrough - 1 = i by omega,
    at_loc]
  simp only [file, loads]
  cases frame with
  | event sequence executionId txId payload =>
    cases is_event
    rfl
  | consumerCreate consumer => cases is_event
  | ack consumer sequence => cases is_event

namespace Contents

def viewAt (c : Contents) (sequence : Nat) : Option EventLogRecordView :=
  c.views[sequence - c.base - 1]?

def pick (c : Contents) (limit : Nat) (sequences : List Nat) : List EventLogRecordView :=
  (sequences.take limit).filterMap c.viewAt

def first (c : Contents) (k : Nat) : Contents := { c with views := c.views.take k }

def scan (c : Contents) (torn : Nat) (request : EventLogScanRequest) : EventLogScanOutcome :=
  if c.views.isEmpty then ⟨"eventlog-scan", false, 0, 0, [], torn⟩
  else
    let sequences := sequencesAfter (max (request.after.getD 0) c.base) c.tip
    ⟨"eventlog-scan", true, sequences.length, (c.pick request.limit sequences).length,
      c.pick request.limit sequences, torn⟩

/-- A scan from the last `u64` on starts at sequence 0, which no log has. -/
def scanResult (c : Contents) (torn : Nat) (request : EventLogScanRequest) :
    Result EventLogScanOutcome :=
  let after := max (request.after.getD 0) c.base
  if c.views.isEmpty = false ∧ c.tip ≤ after ∧ after + 1 = 2 ^ 64 then
    if request.limit = 0 then .ok ⟨"eventlog-scan", true, c.tip + 1, 0, [], torn⟩
    else .error (wasReclaimed 0 c.base)
  else .ok (c.scan torn request)

def executions (c : Contents) : OrderedMap String (List Nat) :=
  c.views.foldl (fun m view => pushSequence m view.executionId view.globalSequence) .empty

def readExecution (c : Contents) (torn : Nat) (executionId : String)
    (request : EventLogReadExecutionRequest) : EventLogReadExecutionOutcome :=
  if c.views.isEmpty then ⟨"eventlog-read-exec", executionId, false, 0, 0, [], torn⟩
  else
    let sequences := ((c.executions.find? executionId).getD []).filter (· > request.after.getD 0)
    ⟨"eventlog-read-exec", executionId, true, sequences.length,
      (c.pick request.limit sequences).length, c.pick request.limit sequences, torn⟩

def tailFor (c : Contents) (consumer : String) (created : Bool) (limit : Nat) :
    EventLogTailOutcome :=
  let acked := c.acks.find? consumer
  let sequences := sequencesAfter (max (acked.getD 0) c.base) c.tip
  ⟨"eventlog-tail", consumer, true, created, acked, sequences.length,
    (c.pick limit sequences).length, c.pick limit sequences⟩

@[simp]
theorem first_length (c : Contents) : c.first c.views.length = c := by
  rw [first, take_length]

end Contents

theorem mem_sequencesAfter {after total sequence} :
    sequence ∈ sequencesAfter after total ↔ after < sequence ∧ sequence ≤ total := by
  rw [sequencesAfter, mem_range'_1]
  omega

theorem mapM_ok {α β : Type} {f : α → Result β} {g : α → Option β} {xs : List α}
    (h : ∀ x ∈ xs, ∃ y, f x = .ok y ∧ g x = some y) : xs.mapM f = .ok (xs.filterMap g) := by
  induction xs with
  | nil => rfl
  | cons x xs ih =>
    obtain ⟨y, fx, gx⟩ := h x mem_cons_self
    rw [mapM_cons, fx, ih fun x mem => h x (.tail _ mem), filterMap_cons_some gx]
    rfl

variable {k : Nat}

theorem events_isEmpty (live : ∀ seg ∈ L, cutIn d < seg.id)
    (events : s.events = (locsOf (placed E.codec L)).take k) :
    s.events.isEmpty = ((contentsOf d L).first k).views.isEmpty := by
  have same := locsOf_placed_length (E := E) d live
  rw [events, Contents.first]
  rw [Bool.eq_iff_iff, isEmpty_iff_length_eq_zero, isEmpty_iff_length_eq_zero,
    length_take, length_take, same]

section

variable (serves : Serves E d L s) (lays : Lays E.codec d L)
  (live : ∀ seg ∈ L, cutIn d < seg.id)
include serves lays live

theorem Serves.readUpTo (count : s.eventCount = (contentsOf d L).base + k)
    (bound : k ≤ (contentsOf d L).views.length) (limit : Nat) (sequences : List Nat)
    (within : ∀ q ∈ sequences, (contentsOf d L).base < q ∧ q ≤ s.eventCount) :
    readUpTo E s d limit sequences = .ok (((contentsOf d L).first k).pick limit sequences) := by
  refine mapM_ok fun q mem => ?_
  obtain ⟨above, below⟩ := within q (mem_of_mem_take mem)
  have base : s.reclaimedThrough = (contentsOf d L).base := serves.base
  obtain ⟨i, rfl⟩ : ∃ i, q = s.reclaimedThrough + i + 1 := ⟨q - s.reclaimedThrough - 1, by omega⟩
  have inside : i < (contentsOf d L).views.length := by omega
  have is := getElem?_eq_getElem inside
  refine ⟨_, serves.readEvent lays live is below, ?_⟩
  rw [Contents.viewAt, Contents.first, base,
    show (contentsOf d L).base + i + 1 - (contentsOf d L).base - 1 = i by omega,
    getElem?_take_of_lt (by omega), is]

theorem Serves.scan (req : EventLogScanRequest) :
    ∃ k ≤ (contentsOf d L).views.length, s.eventCount = (contentsOf d L).base + k ∧
      scanLoaded E s d req = ((contentsOf d L).first k).scanResult s.tornTailSkipped req := by
  obtain ⟨base, k, bound, count, events⟩ := id serves
  refine ⟨k, bound, count, ?_⟩
  have tip : ((contentsOf d L).first k).tip = s.eventCount := by
    rw [count, Contents.tip, Contents.first, length_take, Nat.min_eq_left bound]
  unfold scanLoaded Contents.scanResult Contents.scan
  rw [events_isEmpty live events, tip,
    show ((contentsOf d L).first k).base = s.reclaimedThrough from base.symm]
  by_cases empty : ((contentsOf d L).first k).views.isEmpty = true
  · rw [if_pos empty, if_neg fun h => by simp [empty] at h, if_pos empty]
  have filled : ((contentsOf d L).first k).views.isEmpty = false := by simpa using empty
  simp only [filled, Bool.false_eq_true, if_false, true_and]
  by_cases last : s.eventCount ≤ max (req.after.getD 0) s.reclaimedThrough ∧
      max (req.after.getD 0) s.reclaimedThrough + 1 = 2 ^ 64
  · -- the first sequence is 0, and it is read unless nothing is asked for
    simp only [scannedSequences, if_pos last, DurableSegmentStore.readUpTo]
    cases limit : req.limit with
    | zero => simp [pure, Except.pure, bind, Except.bind]
    | succ n =>
      rw [List.range'_succ, take_succ_cons, mapM_cons]
      simp [DurableSegmentStore.readEvent, bind, Except.bind]
  · have reads := serves.readUpTo lays live count bound req.limit
      (sequencesAfter (max (req.after.getD 0) s.reclaimedThrough) s.eventCount)
      fun q mem => by
        obtain ⟨above, below⟩ := mem_sequencesAfter.1 mem
        exact ⟨by omega, below⟩
    simp only [scannedSequences, if_neg last, reads, bind, Except.bind, pure, Except.pure]

end

theorem executionsOf_eq (frames : List SegmentFrame) : executionsOf frames =
    (viewsOf frames).foldl (fun m view => pushSequence m view.executionId view.globalSequence)
      .empty := by
  induction frames using reverseRecOn with
  | nil => rfl
  | append_singleton frames frame ih =>
    rw [executionsOf_append_singleton, viewsOf_append, foldl_append, ← ih]
    cases frame <;> rfl

variable {c : Contents}

theorem Contents.mem_executions {executionId q}
    (mem : q ∈ (c.executions.find? executionId).getD []) :
    ∃ view ∈ c.views, view.globalSequence = q := by
  unfold Contents.executions at mem
  generalize c.views = views at mem
  induction views using reverseRecOn with
  | nil => cases mem
  | append_singleton views view ih =>
    rw [foldl_append, foldl_cons, foldl_nil, pushSequence, OrderedMap.find?_insert] at mem
    split at mem
    · rename_i same
      rw [Option.getD_some, mem_append, ← same] at mem
      rcases mem with old | new
      · obtain ⟨other, known, is⟩ := ih old
        exact ⟨other, mem_append_left _ known, is⟩
      · exact ⟨view, by simp, (mem_singleton.1 new).symm⟩
    · obtain ⟨other, known, is⟩ := ih mem
      exact ⟨other, mem_append_left _ known, is⟩

theorem Contents.Numbered.getElem? (h : c.Numbered) (is : c.views[i]? = some view) :
    view.globalSequence = c.base + i + 1 := by
  have inside : i < c.views.length := (List.getElem?_eq_some_iff.1 is).1
  have number : (c.views.map EventLogRecordView.globalSequence)[i]? =
      (List.range' (c.base + 1) c.views.length)[i]? := by rw [show c.views.map _ = _ from h]
  rw [List.getElem?_map, is, List.getElem?_range' inside] at number
  have := Option.some.inj number
  omega

theorem Contents.Numbered.mem (h : c.Numbered) (mem : view ∈ c.views) :
    c.base < view.globalSequence ∧ view.globalSequence ≤ c.tip := by
  have listed := mem_map_of_mem (f := EventLogRecordView.globalSequence) mem
  rw [h, mem_range'_1] at listed
  rw [Contents.tip]
  omega

theorem Contents.Numbered.first (h : c.Numbered) (bound : k ≤ c.views.length) :
    (c.first k).Numbered := by
  have all : c.views.map EventLogRecordView.globalSequence = range' (c.base + 1) k ++
      range' (c.base + 1 + k) (c.views.length - k) := by
    rw [range'_append_1, Nat.add_sub_cancel' bound]
    exact h
  have taken := congrArg (take k) all
  rw [take_left' length_range', ← map_take] at taken
  rw [Contents.Numbered, Contents.first, length_take, Nat.min_eq_left bound]
  exact taken

theorem Contents.mem_scan (h : c.Numbered) (mem : view ∈ c.views) {torn req}
    (after : req.after.getD 0 < view.globalSequence)
    (reach : view.globalSequence ≤ max (req.after.getD 0) c.base + req.limit) :
    view ∈ (c.scan torn req).records := by
  obtain ⟨above, below⟩ := h.mem mem
  have some_event : ¬c.views.isEmpty = true := by
    rw [List.isEmpty_iff]
    rintro none
    rw [none] at mem
    cases mem
  have at_view : c.viewAt view.globalSequence = some view := by
    obtain ⟨i, is⟩ := mem_iff_getElem?.1 mem
    rw [Contents.viewAt, h.getElem? is, show c.base + i + 1 - c.base - 1 = i by omega, is]
  rw [Contents.scan, if_neg some_event]
  refine mem_filterMap.2 ⟨view.globalSequence, ?_, at_view⟩
  have place : view.globalSequence - max (req.after.getD 0) c.base - 1 < req.limit := by
    omega
  refine mem_of_getElem? (i := view.globalSequence - max (req.after.getD 0) c.base - 1) ?_
  rw [getElem?_take_of_lt place, sequencesAfter, getElem?_range' (by omega)]
  congr 1
  omega

theorem Contents.scanResult_eq {torn : Nat} {req : EventLogScanRequest}
    (follows : req.after.getD 0 < c.tip ∨ req.after.getD 0 + 1 ≠ 2 ^ 64) (base : c.base < c.tip) :
    c.scanResult torn req = .ok (c.scan torn req) :=
  if_neg fun last => by omega

/-- A scan shows events of the log only. -/
theorem Contents.mem_of_scanResult {torn : Nat} {req : EventLogScanRequest} {outcome}
    (is : c.scanResult torn req = .ok outcome) (mem : view ∈ outcome.records) : view ∈ c.views := by
  unfold Contents.scanResult Contents.scan at is
  dsimp only at is
  split at is
  · split at is
    · cases is
      cases mem
    · cases is
  · split at is
    · cases is
      cases mem
    · cases is
      obtain ⟨q, -, at_q⟩ := mem_filterMap.1 mem
      exact mem_of_getElem? at_q

section

variable (sound : Sound E d L) (current : Current E d L s) (loaded : s.indexLoaded = true)
include sound current loaded

theorem Current.readUpTo (limit : Nat) (sequences : List Nat)
    (within : ∀ q ∈ sequences, (contentsOf d L).base < q ∧ q ≤ (contentsOf d L).tip) :
    readUpTo E s d limit sequences = .ok ((contentsOf d L).pick limit sequences) := by
  have reads := (current.serves loaded).readUpTo sound.lays current.live current.count
    (Nat.le_refl _) limit sequences fun q mem => current.count ▸ within q mem
  rwa [Contents.first_length] at reads

omit sound in
theorem Current.isEmpty : s.events.isEmpty = (contentsOf d L).views.isEmpty := by
  have whole : s.events = (locsOf (placed E.codec L)).take (contentsOf d L).views.length := by
    rw [← locsOf_placed_length (E := E) d current.live, take_length, (current.loaded loaded).events]
  have empty := events_isEmpty current.live whole
  rwa [Contents.first_length] at empty

theorem Current.readExecution (req : EventLogReadExecutionRequest) :
    readExecutionLoaded E s d req = .ok ((contentsOf d L).readExecution s.tornTailSkipped
      (E.trim req.executionId) req) := by
  have indexed : s.byExecution = (contentsOf d L).executions := by
    rw [(current.loaded loaded).byExecution, executionsOf_eq, Contents.executions, contentsOf,
      current.liveFrames]
  unfold readExecutionLoaded Contents.readExecution
  rw [current.isEmpty loaded, indexed]
  split
  · rfl
  · have reads := current.readUpTo sound loaded req.limit
      ((((contentsOf d L).executions.find? (E.trim req.executionId)).getD []).filter
        (· > req.after.getD 0)) fun q mem => by
        obtain ⟨view, known, rfl⟩ := Contents.mem_executions (mem_filter.1 mem).1
        exact sound.numbered.mem known
    simp only [reads, bind, Except.bind, pure, Except.pure]

theorem Current.tailLoaded (consumer : String) (created : Bool) (limit : Nat) :
    tailLoaded E s d consumer created limit =
      .ok ((contentsOf d L).tailFor consumer created limit) := by
  unfold Ehdb.Reference.DurableSegmentStore.tailLoaded Contents.tailFor
  rw [current.acks, current.count, (current.loaded loaded).base]
  have reads := current.readUpTo sound loaded limit (sequencesAfter
    (max (((contentsOf d L).acks.find? consumer).getD 0) (contentsOf d L).base)
    (contentsOf d L).tip) fun q mem => by
      obtain ⟨above, below⟩ := mem_sequencesAfter.1 mem
      exact ⟨by omega, below⟩
  simp only [reads, bind, Except.bind, pure, Except.pure]

end

namespace Contents

variable (c : Contents)

def Knows (consumer : String) : Prop := (c.seen.find? consumer).isSome

def cursor (consumer : String) : Nat := (c.acks.find? consumer).getD 0

/-- The base is the one the manifest records. -/
def Rooted : Prop := c.base = c.manifest.reclaimedThroughSeq

/-- A later state of a log. An event is gone only if every consumer that was known has acked it. -/
structure Grows (c c' : Contents) : Prop where
  base : c.base ≤ c'.base
  tip : c.tip ≤ c'.tip
  events : ∀ view ∈ c.views, view ∈ c'.views ∨ view.globalSequence ≤ c'.base ∧
    ∀ consumer, c.Knows consumer → view.globalSequence ≤ c'.cursor consumer
  same : ∀ view ∈ c'.views, view.globalSequence ≤ c.tip → view ∈ c.views
  seen : ∀ consumer, c.Knows consumer → c'.Knows consumer
  acks : ∀ consumer q, c.acks.find? consumer = some q →
    ∃ q', c'.acks.find? consumer = some q' ∧ q ≤ q'

theorem Grows.refl : c.Grows c :=
  ⟨Nat.le_refl _, Nat.le_refl _, fun _ => .inl, fun _ mem _ => mem, fun _ => id,
    fun _ q is => ⟨q, is, Nat.le_refl _⟩⟩

theorem add_tip (frame : SegmentFrame) :
    (c.add frame).tip = c.tip + (viewOf frame).toList.length := by
  simp [tip, add, Nat.add_assoc]

theorem find?_raise (acks : OrderedMap String Nat) (consumer name : String) (q : Nat) :
    (raise acks consumer q).find? name = if name = consumer then
      some (max ((acks.find? consumer).getD 0) q) else acks.find? name := by
  rw [raise, OrderedMap.find?_insert]
  have larger : (if q > (acks.find? consumer).getD 0 then q else (acks.find? consumer).getD 0) =
      max ((acks.find? consumer).getD 0) q := by
    split <;> omega
  rw [larger]

theorem Grows.add {c : Contents} {frame} (next : c.Follows frame) : c.Grows (c.add frame) where
  base := Nat.le_refl _
  tip := by
    rw [add_tip]
    exact Nat.le_add_right _ _
  events view mem := .inl (mem_append_left _ mem)
  same view mem le := by
    rcases mem_append.1 mem with old | new
    · exact old
    · have is := next view (Option.mem_toList.1 new)
      omega
  seen consumer known := by
    have kept (name : String) : ((c.seen.insert name ()).find? consumer).isSome := by
      rw [OrderedMap.find?_insert]
      split
      · rfl
      · exact known
    cases frame with
    | event sequence executionId txId payload => exact known
    | consumerCreate name => exact kept name
    | ack name q => exact kept name
  acks consumer q is := by
    cases frame with
    | event sequence executionId txId payload => exact ⟨q, is, Nat.le_refl _⟩
    | consumerCreate name => exact ⟨q, is, Nat.le_refl _⟩
    | ack name q' =>
      show ∃ q'', (raise c.acks name q').find? consumer = some q'' ∧ q ≤ q''
      rw [find?_raise]
      split
      · rename_i same
        refine ⟨_, rfl, ?_⟩
        rw [← same, is]
        exact Nat.le_max_left _ _
      · exact ⟨q, is, Nat.le_refl _⟩

theorem knows_created (name : String) : (c.add (.consumerCreate name)).Knows name := by
  show ((c.seen.insert name ()).find? name).isSome
  rw [OrderedMap.find?_insert, if_pos rfl]
  rfl

theorem knows_acked (name : String) (q : Nat) : (c.add (.ack name q)).Knows name :=
  c.knows_created name

theorem Rooted.add {c : Contents} (h : c.Rooted) (frame : SegmentFrame) : (c.add frame).Rooted := h

end Contents

inductive Effect where
  | event (view : EventLogRecordView)
  | consumer (name : String)
  | cursor (name : String) (sequence : Nat)
  | base (sequence : Nat)

def appendedBy : Fate StoreCall (Result StoreAnswer) → Option EventLogRecordView
  | .answered (.append request) (.ok (.appended outcome)) =>
    some (recordView outcome.globalSequence outcome.executionId request.transactionId
      request.payload)
  | _ => none

def effectsOf (fate : Fate StoreCall (Result StoreAnswer)) : List Effect :=
  (appendedBy fate).toList.map .event ++ match fate with
  | .answered _ (.ok (.tailed outcome)) =>
    if outcome.present then [.consumer outcome.consumer] else []
  | .answered _ (.ok (.acked outcome)) =>
    [.consumer outcome.consumer, .cursor outcome.consumer outcome.ackedSequence]
  | .answered _ (.ok (.reclaimed outcome)) => [.base outcome.reclaimedThroughSeq]
  | _ => []

def Effect.In (c : Contents) : Effect → Prop
  | .event view => view.globalSequence ≤ c.base ∨ view ∈ c.views
  | .consumer name => c.Knows name
  | .cursor name sequence => ∃ q, c.acks.find? name = some q ∧ sequence ≤ q
  | .base sequence => sequence ≤ c.base

theorem Effect.In.grows {c c'} {e : Effect} (h : e.In c) (grows : c.Grows c') : e.In c' := by
  cases e with
  | event view =>
    rcases h with below | mem
    · exact .inl (below.trans grows.base)
    · rcases grows.events view mem with still | ⟨below, -⟩
      · exact .inr still
      · exact .inl below
  | consumer name => exact grows.seen name h
  | cursor name sequence =>
    obtain ⟨q, is, le⟩ := h
    obtain ⟨q', now, le'⟩ := grows.acks name q is
    exact ⟨q', now, le.trans le'⟩
  | base sequence => exact h.trans grows.base

def appendedIn (past : List (Fate StoreCall (Result StoreAnswer))) : List EventLogRecordView :=
  past.filterMap appendedBy

/-- Every effect that was acknowledged is still in the contents. -/
structure Kept (past : List (Fate StoreCall (Result StoreAnswer))) (c : Contents) : Prop where
  effects : ∀ fate ∈ past, ∀ e ∈ effectsOf fate, e.In c
  ascending : (appendedIn past).Pairwise fun a b => a.globalSequence < b.globalSequence
  positive : ∀ view ∈ appendedIn past, 0 < view.globalSequence

variable {past : List (Fate StoreCall (Result StoreAnswer))} {view : EventLogRecordView}

theorem Kept.event_in {c} (h : Kept past c) (mem : view ∈ appendedIn past) :
    view.globalSequence ≤ c.base ∨ view ∈ c.views := by
  obtain ⟨fate, known, here⟩ := mem_filterMap.1 mem
  have promised : .event view ∈ effectsOf fate := by
    unfold effectsOf
    rw [here]
    exact mem_append_left _ (mem_singleton.2 rfl)
  exact h.effects fate known _ promised

theorem Kept.le_tip {c} (h : Kept past c) (numbered : c.Numbered)
    (mem : view ∈ appendedIn past) : view.globalSequence ≤ c.tip := by
  rcases h.event_in mem with below | inside
  · exact below.trans (Nat.le_add_right _ _)
  · exact (numbered.mem inside).2

theorem Kept.grows {c c'} (h : Kept past c) (numbered : c.Numbered) (grows : c.Grows c')
    {fate} (effects : ∀ e ∈ effectsOf fate, e.In c')
    (fresh : ∀ view, appendedBy fate = some view → c.tip < view.globalSequence) :
    Kept (past ++ [fate]) c' where
  effects other mem e is := by
    rcases mem_append.1 mem with old | new
    · exact (h.effects other old e is).grows grows
    · rw [mem_singleton.1 new] at is
      exact effects e is
  ascending := by
    rw [appendedIn, filterMap_append, pairwise_append]
    refine ⟨h.ascending, ?_, fun a old b new => ?_⟩
    · cases is : appendedBy fate <;> simp [is]
    · obtain ⟨other, mem, is⟩ := mem_filterMap.1 new
      rw [mem_singleton.1 mem] at is
      exact (h.le_tip numbered old).trans_lt (fresh b is)
  positive view mem := by
    rw [appendedIn, filterMap_append, mem_append] at mem
    rcases mem with old | new
    · exact h.positive view old
    · obtain ⟨other, mem, is⟩ := mem_filterMap.1 new
      rw [mem_singleton.1 mem] at is
      exact Nat.zero_lt_of_lt (fresh view is)

end Ehdb.Proof.Reference
