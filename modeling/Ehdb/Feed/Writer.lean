import Ehdb.L0.Engine
import Ehdb.ProofKit.Pool

/-! `FeedWriter`: threads append to one engine under its lock, take the `fsync` debt of the shards
with them, and `fsync` after they have released the lock. Every frame has a mark that says whether a
completed `sync_data` covers it. -/

namespace Ehdb.Feed

open ProofKit
open L0 (World PartWriter LocalPath L0Config)

variable {R : Type}

/-- How the write of a frame ends: a write that fails is cut off again, unless that fails too and
the writer is left without its file. -/
inductive WriteOutcome where
  | done
  | rolledBack
  | stuck
  deriving DecidableEq

/-- How `seal` ends: the first of its steps that fails. -/
inductive SealOutcome where
  | done
  | syncFails
  | renameFails
  | reopenFails
  | dirSyncFails
  | openFails
  deriving DecidableEq

structure IoOutcome where
  /-- Whether the fence admits the writer, and whether an `fsync` succeeds. -/
  ok : Bool := true
  clock : Nat := 0
  aged : Bool := false
  opens : Bool := true
  /-- Whether what an earlier process left in an active file was synced. -/
  leftSynced : Bool := false
  write : WriteOutcome := .done
  sealing : SealOutcome := .done
  unclonable : List Nat := []
  deriving DecidableEq

/-- A frame of a part file, which is named by the path it was created at. `synced` says whether a
completed `sync_data` covers it. -/
structure StoredFrame (R : Type) where
  shard : Nat
  file : LocalPath
  record : R
  synced : Bool

inductive CommitEvent where
  /-- A frame was counted; `debt` is what the shard then owes. -/
  | wrote (debt : Nat)
  /-- The idempotency window answered; `covered` says whether the frame it names was synced, or
  the shard owed a sync of its file. -/
  | deduplicated (covered : Bool)
  deriving DecidableEq

/-- A writer and its engine. `debts` is `unflushed_since_fsync` of the shards, `engineLock` the
call that holds the engine; `frames` lists every frame, oldest first, and no function reads it
or `trace`. -/
structure WriterWorld (R : Type) where
  l0 : World R
  debts : Nat → Nat
  frames : List (StoredFrame R)
  closed : Bool
  engineLock : Option Nat
  tip : Nat
  trace : List CommitEvent

/-- The key of a record that was answered, whether the record was written, and which frame holds
the record of that key. -/
structure Ack where
  key : Nat
  appended : Bool
  frame : Option Nat
  deriving DecidableEq

namespace WriterWorld

variable (w : WriterWorld R)

def log (e : CommitEvent) : WriterWorld R :=
  { w with trace := e :: w.trace }

def lock (holder : Option Nat) : WriterWorld R :=
  { w with engineLock := holder }

def owe (shard debt : Nat) : WriterWorld R :=
  { w with debts := fun s => if s = shard then debt else w.debts s }

/-- A `sync_data` of `file` that began when there were `count` frames has succeeded. -/
def sync (file : LocalPath) (count : Nat) : WriterWorld R :=
  { w with frames := w.frames.mapIdx fun n f =>
      if n < count ∧ f.file = file then { f with synced := true } else f }

/-- Whether the next `take_sync_handles` takes the file of a frame. -/
def owesSync (f : StoredFrame R) : Bool :=
  match w.l0.engine.writers.lookup f.shard with
  | some writer =>
    writer.hasFile && decide (writer.activePath = f.file) && decide (w.debts f.shard ≠ 0)
  | none => false

def covers (n : Nat) : Bool :=
  match w.frames[n]? with
  | some f => f.synced || w.owesSync f
  | none => false

variable (C : L0Config R)

/-- The newest frame with this shard, idempotency key and sort key. -/
def named (w : WriterWorld R) (shard : Nat) (key : Option String) (seq : Nat) : Option Nat :=
  (List.range w.frames.length).reverse.find? fun n =>
    (w.frames[n]?).any fun f =>
      f.shard = shard && C.dataset.dedupeKey f.record = key && C.dataset.sortKey f.record = seq

def setWriter (shard : Nat) (writer : PartWriter R) : WriterWorld R :=
  { w with l0 := w.l0.setWriter shard writer w.l0.disk }

/-- The part of `seal` after its `sync_data`, for a part that is not empty, and the registration
of the sealed part. -/
def sealSynced (o : SealOutcome) (shard : Nat) (writer : PartWriter R)
    (w : WriterWorld R) : Result Unit × WriterWorld R :=
  let renamed := { w with l0 := w.l0.sealFile writer.activePath writer.sealedId }
  match if (w.l0.disk.lookup writer.activePath).isSome then o else .reopenFails with
  | .renameFails =>
    (.error (.storage "seal rename"), w.setWriter shard { writer with hasFile := true })
  | .reopenFails =>
    (.error (.storage "seal rename failed; reopening the active part also failed"),
      w.setWriter shard { writer with hasFile := false })
  | .dirSyncFails =>
    (.error (.storage "sync directory"), renamed.setWriter shard { writer with hasFile := false })
  | .openFails =>
    (.error (.storage "open active part"), (renamed.setWriter shard
        ⟨writer.partition, writer.freshIdFloor, writer.nextId, false, .empty⟩).owe shard 0)
  | .done | .syncFails =>
    match World.reopenActive C shard writer renamed.l0 with
    | (.error e, l0) => (.error e, { renamed with l0 := l0 }.owe shard 0)
    | (.ok _, l0) =>
      (.ok (), { renamed with l0 := l0.registerAndUpload (writer.sealedPart C) }.owe shard 0)

/-- `PartWriter::seal` for the writer of a shard, and `register_and_upload`. -/
def sealPart (o : SealOutcome) (shard : Nat) (w : WriterWorld R) : Result Unit × WriterWorld R :=
  match w.l0.engine.writers.lookup shard with
  | none => (.ok (), w)
  | some writer =>
    if writer.part.records.isEmpty then (.ok (), w)
    else if writer.hasFile then
      if o = .syncFails then (.error (.storage "sync_data"), w)
      else sealSynced C o shard writer (w.sync writer.activePath w.frames.length)
    else sealSynced C o shard writer w

variable (o : IoOutcome)

/-- `ensure_writer`. The frames of a file that an earlier process left are frames from here on. -/
def ensureWriter (shard : Nat) (w : WriterWorld R) : Result Unit × WriterWorld R :=
  if (w.l0.engine.writers.lookup shard).isSome then (.ok (), w)
  else if o.opens then
    match World.ensureWriter C shard w.l0 with
    | (.error e, _) => (.error e, w)
    | (.ok _, l0) =>
      let left := match l0.engine.writers.lookup shard with
        | some writer =>
          writer.part.records.map fun r => StoredFrame.mk shard writer.activePath r o.leftSynced
        | none => []
      (.ok (), { w with l0 := l0, frames := w.frames ++ left }.owe shard 0)
  else (.error (.storage "open"), w)

/-- The frame of a record was written to `file`, and the shard owes a sync. -/
def count (l0 : World R) (shard : Nat) (file : LocalPath) (record : R) : WriterWorld R :=
  let debt := (w.debts shard + 1) % 2 ^ 32
  let frames := w.frames ++ [⟨shard, file, record, false⟩]
  ({ w with l0 := l0, frames := frames }.owe shard debt).log (.wrote debt)

/-- `PartWriter::append` when the caller drives the flushes: the frame is written, or what was
written of it is cut off, and the debt grows. -/
def appendFrame (shard : Nat) (record : R) (w : WriterWorld R) : Result Unit × WriterWorld R :=
  match w.l0.engine.writers.lookup shard with
  | none => (.error (.invalidState "no writer"), w)
  | some writer =>
    match World.appendFrame C shard record w.l0, o.write with
    | (.error e, _), _ => (.error e, w)
    | (.ok _, _), .rolledBack => (.error (.storage "write"), w)
    | (.ok _, _), .stuck =>
      (.error (.storage "write; rolling back also failed"),
        w.setWriter shard { writer with hasFile := false })
    | (.ok _, l0), .done => (.ok (), w.count l0 shard writer.activePath record)

def sealIfFull (shard : Nat) (w : WriterWorld R) : WriterWorld R :=
  match w.l0.engine.writers.lookup shard with
  | some writer => if writer.shouldSeal C o.aged then (w.sealPart C o.sealing shard).2 else w
  | none => w

def answerHit (record : R) (seq : Nat) (appended : Bool) (w : WriterWorld R) :
    Result Ack × WriterWorld R :=
  let frame := w.named C (C.dataset.partition record C.shardCount) (C.dataset.dedupeKey record) seq
  (.ok ⟨seq, appended, frame⟩, w.log (.deduplicated ((frame.map w.covers).getD false)))

def appendRecord (record : R) (w : WriterWorld R) : Result Ack × WriterWorld R :=
  match L0.dedupeHit C w.l0.engine record with
  | some seq => w.answerHit C record seq true
  | none =>
    let record := if C.hlcStamps then C.dataset.stampCommitHlc record o.clock else record
    let shard := C.dataset.partition record C.shardCount
    match w.ensureWriter C o shard with
    | (.error e, w) => (.error e, w)
    | (.ok _, w) =>
      match w.appendFrame C o shard record with
      | (.error e, w) => (.error e, w)
      | (.ok _, w) =>
        (.ok ⟨C.dataset.sortKey record, true, some (w.frames.length - 1)⟩, w.sealIfFull C o shard)

/-- `append_writer_assigned_reporting`; `append_writer_assigned` is the same without the report. -/
def appendWriterAssigned (record : R) (w : WriterWorld R) : Result Ack × WriterWorld R :=
  match L0.dedupeHit C w.l0.engine record with
  | some seq => w.answerHit C record seq false
  | none =>
    w.appendRecord C o
      (C.dataset.assignSortKey record ((w.l0.engine.globalSequence + 1) % 2 ^ 64))

def takeSyncHandle (shard : Nat) (w : WriterWorld R) : Result (Option LocalPath) × WriterWorld R :=
  if w.debts shard = 0 then (.ok none, w)
  else
    match w.l0.engine.writers.lookup shard with
    | none => (.ok none, w)
    | some writer =>
      if !writer.hasFile then (.ok none, w)
      else if shard ∈ o.unclonable then (.error (.storage "try_clone"), w)
      else (.ok (some writer.activePath), w.owe shard 0)

def takeFrom (o : IoOutcome) : List Nat → List LocalPath → WriterWorld R →
    Result (List LocalPath) × WriterWorld R
  | [], handles, w => (.ok handles, w)
  | shard :: rest, handles, w =>
    match w.takeSyncHandle o shard with
    | (.error e, w) => (.error e, w)
    | (.ok handle, w) => takeFrom o rest (handles ++ handle.toList) w

def takeSyncHandles (w : WriterWorld R) : Result (List LocalPath) × WriterWorld R :=
  w.takeFrom o w.l0.engine.writers.keys []

end WriterWorld

inductive WriterError where
  | closed
  | refused
  | engine (e : EhdbError)
  | fsync
  deriving DecidableEq

abbrev WriterAction (R α : Type) := ExceptT WriterError (Prog (WriterWorld R) IoOutcome) α

def engineOp {α : Type} (f : IoOutcome → WriterWorld R → Result α × WriterWorld R) :
    WriterAction R α :=
  Prog.lift fun o w =>
    match f o w with
    | (.ok a, w) => some (.ok a, w)
    | (.error e, w) => some (.error (.engine e), w)

def ensureOpen : WriterAction R Unit :=
  Prog.lift fun _ w => some (if w.closed then .error .closed else .ok (), w)

/-- `EpochFence::check` and `EpochFence::confirm`. -/
def consultFence : WriterAction R Unit :=
  Prog.lift fun o w => some (if o.ok then .ok () else .error .refused, w)

def lockEngine (caller : Nat) : WriterAction R Unit :=
  Prog.lift fun _ w =>
    if w.engineLock = none then some (.ok (), w.lock (some caller)) else none

def unlockEngine : Prog (WriterWorld R) IoOutcome Unit :=
  .lift fun _ w => some ((), w.lock none)

/-- What the append paths do while they hold the engine: append, and take the debt. -/
def appendLocked (C : L0Config R) (records : List R) :
    WriterAction R (List Ack × List LocalPath) := do
  consultFence
  ensureOpen
  let acks ← Prog.tryEach
    (fun acks record => do
      let ack ← engineOp fun o w => w.appendWriterAssigned C o record
      return acks ++ [ack]) [] records
  let handles ← engineOp fun o w => w.takeSyncHandles o
  return (acks, handles)

def syncData (file : LocalPath) : WriterAction R Unit := do
  let count ← ExceptT.lift (Prog.lift fun _ w => some (w.frames.length, w))
  Prog.lift fun o w =>
    if o.ok then some (.ok (), w.sync file count) else some (.error .fsync, w)

def commit (handles : List LocalPath) : WriterAction R Unit :=
  Prog.tryEach (fun _ handle => syncData handle) () handles

/-- What the append paths have in common. `tipOf` is the tip they announce. -/
def groupCommit (C : L0Config R) (tipOf : List Ack → Option Nat) (caller : Nat)
    (records : List R) : WriterAction R (List Ack) := do
  ensureOpen
  consultFence
  lockEngine caller
  let appended ← ExceptT.lift (appendLocked C records).run
  ExceptT.lift unlockEngine
  let (acks, handles) ← ExceptT.mk (.ret appended)
  commit handles
  ExceptT.lift (.lift fun _ w => some ((), { w with tip := (tipOf acks).getD w.tip }))
  return acks

namespace FeedWriter

def append (C : L0Config R) (caller : Nat) (record : R) : WriterAction R (List Ack) :=
  groupCommit C (fun acks => acks.getLast?.map Ack.key) caller [record]

def appendBatch (C : L0Config R) (caller : Nat) (records : List R) : WriterAction R (List Ack) :=
  if records.isEmpty then return []
  else groupCommit C (fun acks => acks.getLast?.map Ack.key) caller records

def appendBatchReporting (C : L0Config R) (caller : Nat) (records : List R) :
    WriterAction R (List Ack) :=
  if records.isEmpty then return []
  else groupCommit C (fun acks => ((acks.filter Ack.appended).map Ack.key).max?) caller records

end FeedWriter

inductive AppendRequest (R : Type) where
  | append (record : R)
  | appendBatch (records : List R)
  | appendBatchReporting (records : List R)
  deriving DecidableEq

/-- What other threads do: `seal_and_close` closes the writer, and it and the age timer seal
parts while no call holds the engine. -/
inductive WriterEvent where
  | close
  | sealPart (shard : Nat) (o : SealOutcome)

/-- Calls of the append paths on one writer. A call that unwinds gives the engine back. -/
def writerService (C : L0Config R) :
    Service (WriterWorld R) IoOutcome (AppendRequest R) (Except WriterError (List Ack))
      WriterEvent where
  program caller
    | .append record => (FeedWriter.append C caller record).run
    | .appendBatch records => (FeedWriter.appendBatch C caller records).run
    | .appendBatchReporting records => (FeedWriter.appendBatchReporting C caller records).run
  release caller w := if w.engineLock = some caller then w.lock none else w
  world
    | .close, w => { w with closed := true }
    | .sealPart shard o, w => if w.engineLock = none then (w.sealPart C o shard).2 else w

def runWriter (C : L0Config R) (start : WriterWorld R)
    (moves : List (Move IoOutcome (AppendRequest R) WriterEvent)) :
    Pool (WriterWorld R) IoOutcome (AppendRequest R) (Except WriterError (List Ack)) :=
  (Pool.start start).run (writerService C) moves

/-- `FeedWriter::new` on an engine that owes no sync. -/
def WriterWorld.over (w : World R) : WriterWorld R where
  l0 := w
  debts := fun _ => 0
  frames := []
  closed := false
  engineLock := none
  tip := w.engine.globalSequence
  trace := []

end Ehdb.Feed
