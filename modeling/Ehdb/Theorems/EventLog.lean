import Ehdb.Proof.Reference.EventRuns

/-! What the search for an event id in the payloads decides, when a batch is its appends one by one,
and what a scan shows. -/

namespace Ehdb.Theorems

open ProofKit Ehdb.Reference Ehdb.Proof.Reference Transaction Ehdb.Stream
open Proof.Journal (bind_eq_ok)

variable {O D : Type}

/-- The answer to an append with a key is a duplicate exactly when a written append carried the key,
and then it has the sequence of one. -/
def Exact (written : List (IdempotentAppend × Nat)) (key : String)
    (outcome : EventLogAppendOutcome) : Prop :=
  (outcome.deduplicated = true ↔ ∃ entry ∈ written, entry.1.eventId = some key) ∧
    (outcome.deduplicated = true →
      ∃ entry ∈ written, entry.1.eventId = some key ∧ entry.2 = outcome.globalSequence)

/-- The first written payload with the text of the key is one of an append that carried it, and
without such a payload no append carried it. -/
def textFollowsKey (written : List (IdempotentAppend × Nat)) (key : String) : Bool :=
  match written.find? fun entry => showsEventId key entry.1.payload with
  | some entry => entry.1.eventId == some key
  | none => written.all fun entry => entry.1.eventId != some key

theorem exact_iff_of_written {written} {X : TextEnv}
    {G : Engines O D} {driver} {x : Session O D} {a}
    (stands : Stands G driver x a) (is_written : IsWritten X written a) {req}
    {key : String} (carries : req.eventId = some key) {outcome}
    (answered : (a.append X driver req).1 = .ok outcome) :
    Exact written key outcome ↔ textFollowsKey written key = true := by
  have found := duplicate_written is_written key
  unfold EventLogState.append at answered
  rw [carries] at answered
  generalize checkAppend driver req = checked at answered
  cases checked with
  | error e => cases answered
  | ok subject =>
    unfold Exact textFollowsKey
    cases first : written.find? fun entry => showsEventId key entry.1.payload with
    | some entry =>
      rw [found, first] at answered
      cases answered
      have mem := List.mem_of_find?_eq_some first
      simp only [true_iff, forall_const, beq_iff_eq]
      constructor
      · rintro ⟨-, entry', mem', own, same⟩
        rwa [written_inj stands is_written mem' mem same] at own
      · intro own
        exact ⟨⟨entry, mem, own⟩, entry, mem, own, rfl⟩
    | none =>
      rw [found, first] at answered
      dsimp only [Option.map_none] at answered
      split at answered
      · cases answered
      · cases answered
        simp [appendedOutcome]

/-- After any run of calls and new starts, an append with a key is answered right exactly when the
texts of the written payloads follow the keys they were written with. -/
theorem event_id_exact_iff (X : TextEnv) (G : Engines O D) (driver : LocalReferenceEventLogDriver)
    (deeds : List DriverDeed) (request : IdempotentAppend) (key : String)
    (outcome : EventLogAppendOutcome) (carries : request.eventId = some key)
    (answered : ((runDriver X G driver deeds (.new G)).2.call (driver.append X G request)).1 =
      .ok outcome) : Exact (writtenIn deeds (runDriver X G driver deeds (.new G)).1) key outcome ↔
      textFollowsKey (writtenIn deeds (runDriver X G driver deeds (.new G)).1) key = true := by
  obtain ⟨a, stands, is_written⟩ := run_written deeds (.new : Stands G driver _ _)
    (rfl : IsWritten X [] .empty)
  rw [(stands.append X request).call.1] at answered
  exact exact_iff_of_written stands is_written carries answered

def plainText : TextEnv := ⟨fun _ => ""⟩

def noEngines : Engines Empty Unit := ⟨(), nofun, nofun, nofun⟩

def sampleDriver : LocalReferenceEventLogDriver := ⟨"tenant", "ns"⟩

def sampleAppend (transactionId payload key : String) : IdempotentAppend :=
  ⟨⟨"exec-1", transactionId, payload⟩, some key⟩

theorem event_id_exact_after_same_id :
    Exact [(sampleAppend "tx-1" "\x7b\"event_id\":\"a\"\x7d" "a", 1)] "a"
      ⟨"eventlog-append", "exec-1", 1, 16, false, 1, true⟩ :=
  (event_id_exact_iff plainText noEngines sampleDriver
    [.call (.append (sampleAppend "tx-1" "\x7b\"event_id\":\"a\"\x7d" "a"))]
    (sampleAppend "tx-2" "\x7b\"event_id\":\"a\"\x7d" "a") "a"
    ⟨"eventlog-append", "exec-1", 1, 16, false, 1, true⟩ rfl (by decide)).2
    (by decide)

/-- An event whose id is the beginning of an earlier one is dropped, and an event whose payload does
not have its id is stored twice. -/
theorem event_id_search_drops_and_repeats : (runDriver plainText noEngines sampleDriver
      [.call (.append (sampleAppend "tx-1" "\x7b\"event_id\":12\x7d" "12")),
        .call (.append (sampleAppend "tx-2" "\x7b\"event_id\":1\x7d" "1"))] (.new noEngines)).1 =
      [.ok (some (.appended ⟨"eventlog-append", "exec-1", 1, 15, true, 1, false⟩)),
        .ok (some (.appended ⟨"eventlog-append", "exec-1", 1, 14, false, 1, true⟩))] ∧
    (runDriver plainText noEngines sampleDriver
      [.call (.append (sampleAppend "tx-1" "\x7b\x7d" "a")),
        .call (.append (sampleAppend "tx-2" "\x7b\x7d" "a"))] (.new noEngines)).1 =
      [.ok (some (.appended ⟨"eventlog-append", "exec-1", 1, 2, true, 1, false⟩)),
        .ok (some (.appended ⟨"eventlog-append", "exec-1", 2, 2, false, 2, false⟩))] := by
  decide

/-- From every session of an event log: a batch that fails changes nothing, and a batch that returns
is its appends one by one exactly when no key of it shows in a payload stored before, or before it
in the batch. -/
theorem batch_is_appends_iff (X : TextEnv) (G : Engines O D) (driver : LocalReferenceEventLogDriver)
    (x : Session O D) (reached : EventLogReached X G driver x) (requests : List IdempotentAppend) :
    (∀ e, (x.call (driver.appendBatch G requests)).1 = .error e →
      (x.call (driver.appendBatch G requests)).2 = x) ∧
    ∀ outcomes, (x.call (driver.appendBatch G requests)).1 = .ok outcomes →
      (x.call (driver.appendEach X G requests) = x.call (driver.appendBatch G requests) ↔
        freshKeys (storedTexts X driver x.runtime) requests = true) := by
  obtain ⟨a, stands⟩ := reached_stands reached
  have batch : driver.appendBatch G requests = driver.appendBatch (readingAll G) requests := rfl
  rw [stands.storedTexts, batch, ← appendEach_readingAll]
  rcases stands.appendBatch X requests with ⟨e, failed⟩ | ⟨outcomes, file, runtime, a', done, -, -,
    -, same⟩
  · rw [call_of_outcome failed]
    exact ⟨fun _ _ => rfl, nofun⟩
  · rw [call_of_outcome done]
    refine ⟨nofun, fun _ _ => ?_⟩
    rw [← same]
    refine ⟨fun h => ?_, fun h => call_of_outcome h⟩
    cases done : (driver.appendEach X (readingAll G) requests).outcome () x.runtime x.file with
    | none =>
      unfold Session.call at h
      rw [show ((driver.appendEach X (readingAll G) requests).exec x.runtime).eval () x.file = none
        from done] at h
      cases h
    | some result =>
      obtain ⟨⟨result, runtime⟩, file⟩ := result
      rw [call_of_outcome done] at h
      cases h
      rfl

/-- The keys of a batch are not looked for: an event is stored again. -/
theorem batch_stores_an_event_again :
    ((Session.new noEngines).call (sampleDriver.appendBatch noEngines
      [sampleAppend "tx-1" "\x7b\"event_id\":\"a\"\x7d" "a",
        sampleAppend "tx-2" "\x7b\"event_id\":\"a\"\x7d" "a"])).1 =
      .ok [⟨"eventlog-append", "exec-1", 1, 16, true, 1, false⟩,
        ⟨"eventlog-append", "exec-1", 2, 16, false, 2, false⟩] ∧
    ((Session.new noEngines).call (sampleDriver.appendEach plainText noEngines
      [sampleAppend "tx-1" "\x7b\"event_id\":\"a\"\x7d" "a",
        sampleAppend "tx-2" "\x7b\"event_id\":\"a\"\x7d" "a"])).1 =
      .ok [⟨"eventlog-append", "exec-1", 1, 16, true, 1, false⟩,
        ⟨"eventlog-append", "exec-1", 1, 16, false, 1, true⟩] := by
  decide

theorem batch_of_two_ids_is_appends :
    (Session.new noEngines).call (sampleDriver.appendEach plainText noEngines
      [sampleAppend "tx-1" "\x7b\"event_id\":\"a\"\x7d" "a",
        sampleAppend "tx-2" "\x7b\"event_id\":\"b\"\x7d" "b"]) =
    (Session.new noEngines).call (sampleDriver.appendBatch noEngines
      [sampleAppend "tx-1" "\x7b\"event_id\":\"a\"\x7d" "a",
        sampleAppend "tx-2" "\x7b\"event_id\":\"b\"\x7d" "b"]) :=
  ((batch_is_appends_iff plainText noEngines sampleDriver (.new noEngines) .new
    [sampleAppend "tx-1" "\x7b\"event_id\":\"a\"\x7d" "a",
      sampleAppend "tx-2" "\x7b\"event_id\":\"b\"\x7d" "b"]).2
    [⟨"eventlog-append", "exec-1", 1, 16, true, 1, false⟩,
      ⟨"eventlog-append", "exec-1", 2, 16, false, 2, false⟩] (by decide)).2
    (by decide)

/-- After any run, a scan shows what was written behind its cursor, in order, up to its limit. -/
theorem scan_shows_what_was_written {X : TextEnv} {G : Engines O D} {driver deeds req outcome}
    (answered : ((runDriver X G driver deeds (.new G)).2.call (driver.scanGlobal X req)).1 =
      .ok outcome) : outcome.records.map (fun view => (view.payload, view.globalSequence)) =
      (((writtenIn deeds (runDriver X G driver deeds (.new G)).1).map fun entry =>
        (entry.1.payload, entry.2)).filter fun entry => req.after.all (· < entry.2)).take
          req.limit := by
  obtain ⟨a, stands, is_written⟩ := run_written deeds (.new : Stands G driver _ _)
    (rfl : IsWritten X [] .empty)
  rw [← List.nil_append (writtenIn _ _), is_written]
  rw [(stands.scan X req).call.1] at answered
  obtain ⟨-, -, answered⟩ := bind_eq_ok answered
  obtain ⟨-, -, answered⟩ := bind_eq_ok answered
  unfold EventLogState.entries
  split at answered
  · cases answered
    simp_all
  · cases answered
    simp [shown, EventLogState.after, projectRecord, List.filter_map, Function.comp_def]

def fourAppends : List DriverDeed :=
  [.call (.append (sampleAppend "tx-1" "x" "a")), .call (.append (sampleAppend "tx-2" "y" "b")),
    .reopen, .call (.appendBatch [sampleAppend "tx-3" "z" "c", sampleAppend "tx-4" "u" "d"])]

theorem scan_shows_the_append :
    [("y", 2), ("z", 3)] = (((writtenIn fourAppends
      (runDriver plainText noEngines sampleDriver fourAppends (.new noEngines)).1).map fun entry =>
        (entry.1.payload, entry.2)).filter fun entry => (some 1).all (· < entry.2)).take 2 :=
  @scan_shows_what_was_written _ _ plainText noEngines sampleDriver fourAppends ⟨some 1, 2⟩
    ⟨"eventlog-scan", true, 3, 2, [⟨2, "exec-1", "tx-2", 1, "y"⟩, ⟨3, "exec-1", "tx-3", 1, "z"⟩], 0⟩
    (by decide +kernel)

end Ehdb.Theorems
