import Ehdb.Proof.Reference.Runs

/-! What a store that was opened again, with or without its checkpoint, still has of what was
acknowledged. -/

namespace Ehdb.Theorems

open Ehdb.Reference DurableSegmentStore ProofKit Proof.Reference List

variable {E : StoreEnv} {h : StoreHost}

def ScanGives (E : StoreEnv) (h : StoreHost) (view : EventLogRecordView) : Prop :=
  ∀ request : EventLogScanRequest, request.after.getD 0 < view.globalSequence →
    view.globalSequence ≤ request.after.getD 0 + request.limit →
    ∃ outcome h', answerOf E (.scan request) h = some (.ok (.scanned outcome), h') ∧
      view ∈ outcome.records

variable {d : Dir} {L : Layout}

/-- A store whose index has an event gives it. -/
theorem scanGives_of_served {s} (sound : Sound E d L) (known : Known E d L s)
    {view} (mem : view ∈ (contentsOf d L).views)
    (served : s.indexLoaded = true → view.globalSequence ≤ s.eventCount) :
    ScanGives E ⟨d, some s⟩ view := by
  intro req after reach
  have shown {result s' d'} (scanned : Scanned E.calm d L s req result s' d') :
      ∃ outcome, result = .ok outcome ∧ view ∈ outcome.records := by
    obtain ⟨L', loaded, k, bound, count, is_result⟩ := scanned
    obtain ⟨i, is⟩ := mem_iff_getElem?.1 mem
    have number := sound.numbered.getElem? is
    have below := (sound.numbered.mem mem).2
    have inside : i < k := by
      rcases loaded.serving loaded.loaded with all | ⟨before, le⟩
      · omega
      · have := served before
        omega
    have first : view ∈ ((contentsOf d L).first k).views :=
      mem_of_getElem? (by rw [Contents.first, getElem?_take_of_lt inside]; exact is)
    obtain ⟨above, last⟩ := (sound.numbered.first bound).mem first
    rw [Contents.scanResult_eq (.inl (Nat.lt_of_lt_of_le after last))
      (Nat.lt_of_lt_of_le above last)]
      at is_result
    refine ⟨_, is_result.symm, Contents.mem_scan (sound.numbered.first bound) first after ?_⟩
    have := Nat.le_max_left (req.after.getD 0) ((contentsOf d L).first k).base
    omega
  obtain ⟨a, s', d', answer, scanned⟩ | ⟨e, s', d', answer, ⟨faulty, -⟩ | scanned⟩ :=
    answerOf_task (.scan req) .scanned (fun is => by cases is) rfl
      (does_scanGlobal sound.calm known.calm req)
  · obtain ⟨outcome, is, mem⟩ := shown scanned
    cases is
    exact ⟨_, _, answer, mem⟩
  · cases faulty
  · obtain ⟨outcome, is, -⟩ := shown scanned
    cases is

/-- Opening the directory succeeds, and gives back the events. -/
theorem reopens_with (sound : Sound E d L) (sized : 0 < E.segmentMaxBytes) :
    ∃ h, answerOf E .openStore ⟨d, none⟩ = some (.ok .opened, h) ∧
      ∀ view ∈ (contentsOf d L).views, ScanGives E h view := by
  obtain ⟨s', d', is, opened⟩ := answerOf_open sound sized none
  refine ⟨_, is, fun view mem => ?_⟩
  rw [← opened.contents] at mem
  refine scanGives_of_served opened.sound opened.current.known mem fun _ => ?_
  rw [opened.current.count]
  exact (opened.sound.numbered.mem mem).2

/-- A call that writes finds the store in step with its files: no call before it has left bytes in
the active segment that the store does not count. -/
def InStep (h : StoreHost) (call : StoreCall) : Prop :=
  writesFrame call = true → ∀ s ∈ h.memory, Aligned s h.disk

instance (h : StoreHost) (call : StoreCall) : Decidable (InStep h call) :=
  inferInstanceAs (Decidable (_ → ∀ s ∈ h.memory, Aligned s h.disk))

/-- With stops anywhere and any failure of writes and syncs, unless a store is written through that
a failed call has left out of step with its files: every acknowledged event is given by a scan, also
after the directory is opened again at any moment, and no sequence was issued twice. -/
theorem failed_appends_lose_nothing (E : StoreEnv) (deeds : List (Deed IoOutcome StoreCall))
    (sized : 0 < E.segmentMaxBytes) (no_reclaim : ∀ policy, .call (.reclaim policy) ∉ deeds)
    (along : (Solo.start newHost).Along (storeThread E) InStep deeds) :
    ((runStore E deeds).current.isNone → (runStore E deeds).state.memory.isSome →
      ∀ view ∈ appendedIn (runStore E deeds).past, ScanGives E (runStore E deeds).state view) ∧
    (∃ h, answerOf E .openStore ⟨(runStore E deeds).state.disk, none⟩ = some (.ok .opened, h) ∧
      ∀ view ∈ appendedIn (runStore E deeds).past, ScanGives E h view) ∧
    (appendedIn (runStore E deeds).past).Pairwise
      fun a b => a.globalSequence < b.globalSequence := by
  have ready : (Solo.start newHost).Along (storeThread E) (Ready E) deeds :=
    (along.and_calls (P := fun call => isReclaim call = false) fun call mem => by
      cases call with
      | reclaim policy => exact absurd mem (no_reclaim policy)
      | _ => rfl).mono fun h call meets _ => ⟨meets.2, meets.1⟩
  have holds := runStore_holds sized ready
  have none := no_reclaims (E := E) no_reclaim
  refine ⟨fun idle open_store => ?_, ?_, ?_⟩
  · generalize runStore E deeds = x at *
    obtain ⟨⟨d, memory⟩, current, past⟩ := x
    obtain rfl : current = Option.none := Option.isNone_iff_eq_none.1 idle
    obtain ⟨s, rfl⟩ : ∃ s, memory = some s := Option.isSome_iff_exists.1 open_store
    obtain ⟨L, holding⟩ : Runs E past ⟨d, some s⟩ := holds
    intro view mem
    exact scanGives_of_served holding.sound (holding.known s rfl) (holding.mem_views none mem)
      fun loaded => holding.served s rfl loaded view mem
  · obtain ⟨L, holding⟩ := holding_disk holds
    obtain ⟨h, is, gives⟩ := reopens_with holding.sound sized
    refine ⟨h, is, fun view mem => gives view (holding.mem_views none ?_)⟩
    rwa [appendedIn_fates]
  · obtain ⟨L, holding⟩ := holding_disk holds
    rw [← appendedIn_fates]
    exact holding.kept.ascending

def readsLog : StoreCall → Bool
  | .scan _ => true
  | .readExecution _ => true
  | .tail _ => true
  | _ => false

/-- A store has what a call has done. An event that was reclaimed counts as there. -/
def Shows (E : StoreEnv) (d : Dir) (s : DurableSegmentStore) : Effect → Prop
  | .event view => view.globalSequence ≤ s.reclaimedThrough ∨ ScanGives E ⟨d, some s⟩ view
  | .consumer name => (s.consumersSeen.find? name).isSome
  | .cursor name sequence => ∃ q, s.consumerAcks.find? name = some q ∧ sequence ≤ q
  | .base sequence => sequence ≤ s.reclaimedThrough

structure Reports (E : StoreEnv) (c : Contents) (torn : Nat) (d : Dir) (s : DurableSegmentStore) :
    Prop where
  base : s.reclaimedThrough = c.base
  count : s.eventCount = c.tip
  seen : s.consumersSeen = c.seen
  acks : s.consumerAcks = c.acks
  answers : ∀ call r, c.answer E torn call = some r → ∃ h, answerOf E call ⟨d, some s⟩ = some (r, h)
  shows : ∀ e : Effect, e.In c → Shows E d s e

theorem opens_and_reports (sound : Sound E d L) (rooted : (contentsOf d L).Rooted)
    (sized : 0 < E.segmentMaxBytes) :
    ∃ s' d', answerOf E .openStore ⟨d, none⟩ = some (.ok .opened, ⟨d', some s'⟩) ∧
      Reports E (contentsOf d L) (tornIn d L) d' s' := by
  obtain ⟨s', d', is, opened⟩ := answerOf_open sound sized none
  have base : s'.reclaimedThrough = (contentsOf d L).base := by
    cases loaded : s'.indexLoaded with
    | true => rw [(opened.current.loaded loaded).base, opened.contents]
    | false =>
      rw [opened.current.unloaded loaded, manifest_congr opened.reclaim]
      exact rooted.symm
  have torn : (if s'.indexLoaded then s'.tornTailSkipped else
      tornIn d' (cleaned d.manifest.reclaimedThroughSegment L)) = tornIn d L := by
    cases loaded : s'.indexLoaded with
    | true => exact opened.torn
    | false =>
      rw [opened.unloaded loaded]
      exact countP_eq_zero.2 fun seg mem => by
        simpa using opened.current.untorn seg (mem_liveIn.1 mem).1
  refine ⟨s', d', is, base, by rw [opened.current.count, opened.contents],
    by rw [opened.current.seen, opened.contents], by rw [opened.current.acks, opened.contents], ?_,
      ?_⟩
  · intro call r answer
    rw [← opened.contents] at answer
    exact answerOf_reading opened.sound opened.current opened.ends torn answer
  · intro e inside
    cases e with
    | event view =>
      rcases inside with gone | here
      · exact .inl (base ▸ gone)
      · refine .inr ?_
        obtain ⟨h, again, gives⟩ := reopens_with sound sized
        rw [is] at again
        cases again
        exact gives view here
    | consumer name =>
      rw [Shows, opened.current.seen, opened.contents]
      exact inside
    | cursor name sequence =>
      rw [Shows, opened.current.acks, opened.contents]
      exact inside
    | base sequence =>
      rw [Shows, base]
      exact inside

/-- With stops anywhere between two steps on the file system, the directory opens with its
checkpoint as it does without, and with the effect of every call that was answered with Ok. Only
what the manifest gives as reclaimed is gone. -/
theorem checkpoint_agrees_with_replay (E : StoreEnv) (deeds : List (Deed IoOutcome StoreCall))
    (faultless : E.mayFail = false) (sized : 0 < E.segmentMaxBytes) :
    ∃ s s' d d', answerOf E .openStore ⟨(runStore E deeds).state.disk, none⟩ =
        some (.ok .opened, ⟨d, some s⟩) ∧
      answerOf E .openStore ⟨{ (runStore E deeds).state.disk with checkpoint := none }, none⟩ =
        some (.ok .opened, ⟨d', some s'⟩) ∧
      s.eventCount = s'.eventCount ∧ s.reclaimedThrough = s'.reclaimedThrough ∧
      s.consumersSeen = s'.consumersSeen ∧ s.consumerAcks = s'.consumerAcks ∧
      (∀ call, readsLog call = true → (answerOf E call ⟨d, some s⟩).map Prod.fst =
        (answerOf E call ⟨d', some s'⟩).map Prod.fst) ∧
      (∀ fate ∈ (runStore E deeds).fates, ∀ e ∈ effectsOf fate, Shows E d s e ∧ Shows E d' s' e) ∧
      s.reclaimedThrough = (runStore E deeds).state.disk.manifest.reclaimedThroughSeq := by
  obtain ⟨L, holding⟩ := holding_disk (runStore_holds sized (along_ready faultless _))
  have bare : Sound E { (runStore E deeds).state.disk with checkpoint := none } L :=
    ⟨holding.sound.lays.of_segments rfl, holding.sound.positive, holding.sound.whole,
      holding.sound.above, holding.sound.numbered, nofun, holding.sound.filled⟩
  obtain ⟨s, d, is, reports⟩ := opens_and_reports holding.sound holding.rooted sized
  obtain ⟨s', d', is', reports'⟩ := opens_and_reports bare holding.rooted sized
  refine ⟨s, s', d, d', is, is', reports.count.trans reports'.count.symm,
    reports.base.trans reports'.base.symm,
    reports.seen.trans reports'.seen.symm, reports.acks.trans reports'.acks.symm,
      fun call reads => ?_,
    fun fate mem e promised => ?_, reports.base.trans holding.rooted⟩
  · obtain ⟨r, answer⟩ : ∃ r, (contentsOf (runStore E deeds).state.disk L).answer E
        (tornIn (runStore E deeds).state.disk L) call = some r := by
      cases call <;> first | exact ⟨_, rfl⟩ | cases reads
    obtain ⟨h, one⟩ := reports.answers call r answer
    obtain ⟨h', other⟩ := reports'.answers call r answer
    rw [one, other]
    rfl
  · have inside := holding.kept.effects fate mem e promised
    exact ⟨reports.shows e inside, reports'.shows e inside⟩

def charBytes (c : Char) : Bytes :=
  [UInt8.ofNat c.toNat, UInt8.ofNat (c.toNat / 256), UInt8.ofNat (c.toNat / 65536)]

def textBytes : List Char → Bytes
  | [] => [0]
  | c :: rest => 1 :: charBytes c ++ textBytes rest

def readText : Bytes → Option (List Char × Bytes)
  | 0 :: rest => some ([], rest)
  | 1 :: a :: b :: c :: rest =>
    (readText rest).map fun read =>
      (Char.ofNat (a.toNat + 256 * b.toNat + 65536 * c.toNat) :: read.1, read.2)
  | _ => none

theorem readText_textBytes (text : List Char) (rest : Bytes) :
    readText (textBytes text ++ rest) = some (text, rest) := by
  induction text with
  | nil => rfl
  | cons c text ih =>
    have number : (UInt8.ofNat c.toNat).toNat + 256 * (UInt8.ofNat (c.toNat / 256)).toNat +
        65536 * (UInt8.ofNat (c.toNat / 65536)).toNat = c.toNat := by
      have bound : c.toNat < 1114112 := by
        rcases c.valid with low | ⟨-, high⟩
        · exact low.trans (by decide)
        · exact high
      simp only [UInt8.toNat_ofNat']
      omega
    show (readText (textBytes text ++ rest)).map _ = _
    rw [ih, Option.map_some, number, Char.ofNat_toNat]

theorem readText_end (text : List Char) : readText (textBytes text) = some (text, []) := by
  simpa using readText_textBytes text []

def numberBytes (n : Nat) : Bytes := List.replicate n 1 ++ [0]

def readNumber : Bytes → Option (Nat × Bytes)
  | 0 :: rest => some (0, rest)
  | 1 :: rest => (readNumber rest).map fun read => (read.1 + 1, read.2)
  | _ => none

theorem readNumber_numberBytes (n : Nat) (rest : Bytes) :
    readNumber (numberBytes n ++ rest) = some (n, rest) := by
  induction n with
  | zero => rfl
  | succ n ih =>
    show (readNumber (numberBytes n ++ rest)).map _ = _
    rw [ih]
    rfl

def frameBody : SegmentFrame → Bytes
  | .event sequence executionId transactionId payload =>
    2 :: (numberBytes sequence ++
      (textBytes executionId.toList ++ (textBytes transactionId.toList ++
      textBytes payload.toList)))
  | .consumerCreate consumer => 3 :: textBytes consumer.toList
  | .ack consumer sequence => 4 :: (numberBytes sequence ++ textBytes consumer.toList)

def readBody : Bytes → Option SegmentFrame
  | 2 :: bytes => do
    let (sequence, bytes) ← readNumber bytes
    let (executionId, bytes) ← readText bytes
    let (transactionId, bytes) ← readText bytes
    let (payload, _) ← readText bytes
    return .event sequence (.ofList executionId) (.ofList transactionId) (.ofList payload)
  | 3 :: bytes => do
    let (consumer, _) ← readText bytes
    return .consumerCreate (.ofList consumer)
  | 4 :: bytes => do
    let (sequence, bytes) ← readNumber bytes
    let (consumer, _) ← readText bytes
    return .ack (.ofList consumer) sequence
  | _ => none

def sampleFrames : FrameCodec where
  toVec := frameBody
  fromSlice bytes := (readBody bytes).elim (.error "expected value") .ok
  fromSlice_toVec frame := by
    cases frame <;>
      simp [frameBody, readBody, readNumber_numberBytes, readText_textBytes, readText_end]

def sampleStore (mayFail : Bool) (segmentMaxBytes : Nat) : StoreEnv :=
  ⟨sampleFrames, id, segmentMaxBytes, mayFail⟩

def appendPayload (payload : String) : StoreCall := .append ⟨"e", "t", payload⟩

def goesWell (call : StoreCall) : List (Deed IoOutcome StoreCall) :=
  .call call :: List.replicate 40 (.act (.ok 0))

/-- A call whose first `n` steps go well and the next one fails after `written` bytes. -/
def goesWrong (call : StoreCall) (n written : Nat) : List (Deed IoOutcome StoreCall) :=
  .call call :: List.replicate n (.act (.ok 0)) ++ [.act (.fail written), .act (.ok 0)]

theorem runStore_goesWell (E : StoreEnv) (deeds : List (Deed IoOutcome StoreCall))
    (call : StoreCall) : runStore E (deeds ++ goesWell call) = (runStore E deeds).run
      (storeThread E) (.call call :: (replicate 40 (.ok 0)).map .act) := by
  rw [runStore, Solo.run_append, goesWell, map_replicate]
  rfl

variable {call req : StoreCall}

theorem call_mem_goesWell (h : .call req ∈ goesWell call) : req = call := by
  rcases mem_cons.1 h with same | act
  · exact Deed.call.inj same
  · cases (mem_replicate.1 act).2

theorem call_mem_goesWrong {n written : Nat} (h : .call req ∈ goesWrong call n written) :
    req = call := by
  rcases mem_append.1 h with steps | last
  · rcases mem_cons.1 steps with same | act
    · exact Deed.call.inj same
    · cases (mem_replicate.1 act).2
  · simp at last

def shortFrame : List (Deed IoOutcome StoreCall) :=
  goesWell .openStore ++ goesWrong (appendPayload "a") 2 1 ++ goesWell (appendPayload "b")

def unsyncedFrame : List (Deed IoOutcome StoreCall) :=
  goesWell .openStore ++ goesWrong (appendPayload "a") 6 0 ++ goesWell (appendPayload "b")

def reopenedAfterFaults : List (Deed IoOutcome StoreCall) :=
  goesWell .openStore ++ goesWrong (appendPayload "a") 2 1 ++ .stop :: goesWell .openStore ++
    goesWrong (appendPayload "b") 6 0 ++ goesWell .openStore ++ goesWell (appendPayload "c")

theorem reopened_after_faults_keeps_events :
    appendedIn (runStore (sampleStore true 100) reopenedAfterFaults).past =
      [recordView 2 "e" "t" "c"] ∧
    ∀ view ∈ appendedIn (runStore (sampleStore true 100) reopenedAfterFaults).past,
      ScanGives (sampleStore true 100)
        (runStore (sampleStore true 100) reopenedAfterFaults).state view := by
  have no_reclaim : ∀ policy, .call (.reclaim policy) ∉ reopenedAfterFaults := by
    intro policy mem
    simp only [reopenedAfterFaults, append_assoc, mem_append, mem_cons,
      reduceCtorEq, false_or] at mem
    rcases mem with h | h | h | h | h | h
    all_goals first | cases call_mem_goesWell h | cases call_mem_goesWrong h
  have along : (Solo.start newHost).Along
      (storeThread (sampleStore true 100)) InStep reopenedAfterFaults := by
    decide +kernel
  refine ⟨by decide +kernel, ?_⟩
  exact (failed_appends_lose_nothing (sampleStore true 100) reopenedAfterFaults
    (by decide) no_reclaim along).1
    (by decide +kernel) (by decide +kernel)

/-- After a short write or a failed sync the next append is acknowledged, a scan fails or gives the
payload of the append that failed, and the directory cannot be opened any more. -/
theorem failed_append_poisons_the_store :
    (appendedIn (runStore (sampleStore true 100) shortFrame).past = [recordView 1 "e" "t" "b"] ∧
      (answerOf (sampleStore true 100) (.scan ⟨none, 1⟩)
          (runStore (sampleStore true 100) shortFrame).state).map Prod.fst =
        some (.error (.storage "durable event-log: bad frame magic reading sequence 1")) ∧
      (answerOf (sampleStore true 100) .openStore
          ⟨(runStore (sampleStore true 100) shortFrame).state.disk, none⟩).map Prod.fst =
        some (.error (.storage "durable event-log segment 1: bad frame magic at offset 0"))) ∧
    (appendedIn (runStore (sampleStore true 100) unsyncedFrame).past = [recordView 1 "e" "t" "b"] ∧
      (answerOf (sampleStore true 100) (.scan ⟨none, 1⟩)
          (runStore (sampleStore true 100) unsyncedFrame).state).map Prod.fst =
        some (.ok (.scanned ⟨"eventlog-scan", true, 1, 1, [recordView 1 "e" "t" "a"], 0⟩)) ∧
      (answerOf (sampleStore true 100) .openStore
          ⟨(runStore (sampleStore true 100) unsyncedFrame).state.disk, none⟩).map Prod.fst =
        some (.error (.storage "durable event-log: replay sequence gap, expected 2 got 1"))) := by
  decide +kernel

/-- Three events in segments of their own, and a consumer that has acked the first. -/
def threeSegments : List (Deed IoOutcome StoreCall) :=
  goesWell .openStore ++ goesWell (appendPayload "a") ++ goesWell (appendPayload "b") ++
    goesWell (.tail ⟨"c", 1⟩) ++ goesWell (.ack ⟨"c", 1⟩) ++ goesWell (appendPayload "d")

/-- A reclaim of the first segment has committed its manifest and not removed the file. -/
def stoppedReclaim : List (Deed IoOutcome StoreCall) :=
  threeSegments ++ (goesWell (.reclaim ⟨true, 1, none⟩)).take 12

theorem checkpoint_agrees_after_stopped_reclaim :
    (runStore (sampleStore false 40) stoppedReclaim).state.disk.manifest = ⟨1, 1⟩ ∧
    ∃ s s' d d', answerOf (sampleStore false 40) .openStore
        ⟨(runStore (sampleStore false 40) stoppedReclaim).state.disk, none⟩ =
          some (.ok .opened, ⟨d, some s⟩) ∧ answerOf (sampleStore false 40) .openStore
        ⟨{ (runStore (sampleStore false 40) stoppedReclaim).state.disk with checkpoint := none },
          none⟩ = some (.ok .opened, ⟨d', some s'⟩) ∧
      s.eventCount = s'.eventCount ∧ s.reclaimedThrough = s'.reclaimedThrough := by
  refine ⟨by decide +kernel, ?_⟩
  obtain ⟨s, s', d, d', is, is', count, base, -⟩ :=
    checkpoint_agrees_with_replay (sampleStore false 40) stoppedReclaim rfl (by decide)
  exact ⟨s, s', d, d', is, is', count, base⟩

end Ehdb.Theorems
