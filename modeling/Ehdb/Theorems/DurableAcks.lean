import Ehdb.L0.Run
import Ehdb.Proof.Feed.Writer
import Ehdb.Proof.Feed.Cursor

/-! Whether the cursor file holds what `store` acknowledged. -/

namespace Ehdb.Theorems

open Feed ProofKit Proof.Cursor Proof.Writer
open L0 (L0Config Outcome Sample World sampleConfig)

/-- In a run whose calls look at the mark while no write is under way, with a cursor above every
cursor whose write failed, the file holds every acknowledged cursor from the acknowledgement
on. -/
theorem acknowledged_cursor_is_held (shard : Nat) (fenced : Bool) (file : Option FileBody)
    (moves : List (Move Outcome Nat Empty))
    (order : orderly (runStores shard fenced file moves).shared.trace = true) :
    AcksHeld (runStores shard fenced file moves) := by
  intro i x b answered
  obtain ⟨ls, tracks⟩ := Pool.run_tracks cursorService storeProtocol follows_store
    (.opened shard fenced file) moves
  obtain ⟨l, known, done⟩ := tracks.answered answered
  have ok := (keeps_store.reach tracks.reach order fun _ => .inl rfl).2 i x l known
  rw [show l = (x, .done (.ok b)) from done] at ok
  exact ok.2

def storeSteps (i n : Nat) : List (Move Outcome Nat Empty) := List.replicate n (.act i .ok)

def oneByOne : List (Move Outcome Nat Empty) :=
  .call 5 :: storeSteps 0 8 ++ .call 7 :: storeSteps 1 8

theorem one_by_one_is_held : (runStores 0 false none oneByOne).answer 1 = some (7, .ok true) ∧
      AcksHeld (runStores 0 false none oneByOne) :=
  ⟨by decide, acknowledged_cursor_is_held _ _ _ _ (by decide)⟩

def racing : List (Move Outcome Nat Empty) :=
  .call 5 :: .call 7 :: storeSteps 0 2 ++ storeSteps 1 8 ++ storeSteps 0 6

def retried : List (Move Outcome Nat Empty) :=
  .call 5 :: storeSteps 0 3 ++ [.act 0 .fail, .act 0 .ok] ++ .call 5 :: storeSteps 1 2

/-- The file goes back to 5 after 7 was acknowledged, and the repeated call is acknowledged
though nothing was written. -/
theorem acknowledged_cursor_is_lost :
    ¬AcksHeld (runStores 0 false none racing) ∧ ¬AcksHeld (runStores 0 false none retried) := by
  constructor
  · intro held
    obtain ⟨cursor, load, le⟩ := held 1 7 true (by decide)
    have at_five : (runStores 0 false none racing).shared.load = some 5 := by decide
    rw [at_five] at load
    cases load
    omega
  · intro held
    obtain ⟨cursor, load, -⟩ := held 1 5 false (by decide)
    have absent : (runStores 0 false none retried).shared.load = none := by decide
    rw [absent] at load
    cases load

/-- In a run in which the frame that the idempotency window names is synced or owed a sync whenever
the window answers a record, and in which no debt wraps around, every acknowledged record is synced
when its call returns and from then on. -/
theorem acknowledged_record_is_synced {R : Type} (C : L0Config R) (start : WriterWorld R)
    (moves : List (Move IoOutcome (AppendRequest R) WriterEvent))
    (sound : (runWriter C start moves).shared.trace.all earned = true) :
    AcksDurable C (runWriter C start moves) := by
  intro i request acks answered ack mem
  obtain ⟨ls, tracks⟩ := Pool.run_tracks (writerService C) (commitProtocol C) follows_writer
    start moves
  obtain ⟨l, known, done⟩ := tracks.answered answered
  have ok := (keeps_commit.reach tracks.reach (List.all_eq_true.1 sound) trivial).2 i request
    l known
  rcases done with rfl | ⟨-, empty⟩
  · exact ok acks rfl ack mem
  · cases empty
    cases mem

def keyedConfig : L0Config Sample :=
  let C := sampleConfig false [] 1 8
  { C with
    dataset := { C.dataset with dedupeKey := fun r => some (if r.point then "q" else "p") }
    dedupeCapacity := 4 }

def keyedRun (moves : List (Move IoOutcome (AppendRequest Sample) WriterEvent)) :
    Pool (WriterWorld Sample) IoOutcome (AppendRequest Sample) (Except WriterError (List Ack)) :=
  runWriter keyedConfig (.over (World.initial keyedConfig)) moves

/-- Call 0 appends a record and takes `n` actions that succeed, and then those of `last`; call 1
appends the same record in a batch. -/
def appendedTwice (n : Nat) (last : List IoOutcome) :
    List (Move IoOutcome (AppendRequest Sample) WriterEvent) :=
  .call (.append ⟨9, false, false⟩) :: List.replicate n (.act 0 {}) ++ last.map (.act 0) ++
    .call (.appendBatch [⟨9, false, false⟩]) :: List.replicate 12 (.act 1 {})

/-- The first call returns before the second one starts. -/
theorem repeated_record_is_synced : (keyedRun (appendedTwice 12 [])).answer 1 =
      some (.appendBatch [⟨9, false, false⟩], .ok [⟨1, false, some 0⟩]) ∧
    AcksDurable keyedConfig (keyedRun (appendedTwice 12 [])) :=
  ⟨by decide, acknowledged_record_is_synced _ _ _ (by decide)⟩

theorem not_durable_of_unsynced
    {moves req} {ack : Ack} {n : Nat} (place : ack.frame = some n)
    (answered : (keyedRun moves).answer 1 = some (req, .ok [ack]))
    (unsynced : (((keyedRun moves).shared.frames[n]?).all fun f => !f.synced) = true) :
    ¬AcksDurable keyedConfig (keyedRun moves) := by
  intro durable
  obtain ⟨n', f, place', found, -, synced⟩ := durable 1 req [ack] answered ack List.mem_cons_self
  rw [place] at place'
  cases place'
  simp [found, synced.resolve_right id] at unsynced

/-- A record is acknowledged that no completed `sync_data` covers: the call that wrote it has taken
the debt, and its sync is pending or has failed. -/
theorem repeated_record_is_not_synced : ¬AcksDurable keyedConfig (keyedRun (appendedTwice 8 [])) ∧
    (keyedRun (appendedTwice 9 [{ ok := false }])).answer 0 =
      some (.append ⟨9, false, false⟩, .error .fsync) ∧
    ¬AcksDurable keyedConfig (keyedRun (appendedTwice 9 [{ ok := false }])) := by
  have pending : (keyedRun (appendedTwice 8 [])).answer 1 =
      some (.appendBatch [⟨9, false, false⟩], .ok [⟨1, false, some 0⟩]) := by decide
  have failed : (keyedRun (appendedTwice 9 [{ ok := false }])).answer 1 =
      some (.appendBatch [⟨9, false, false⟩], .ok [⟨1, false, some 0⟩]) := by decide
  exact ⟨not_durable_of_unsynced rfl pending (by decide), by decide,
    not_durable_of_unsynced rfl failed (by decide)⟩

end Ehdb.Theorems
