import Ehdb.L0.Actions
import Ehdb.ProofKit.Pool

/-! `FenceLedger` keeps the highest epoch of a shard in a marker file. `check_and_advance` compares
an epoch with the marker and raises it, under a lock that ledgers of one process share when they
name the marker by the same path. -/

namespace Ehdb.Core

open ProofKit
open L0 (Outcome)

/-- What a marker file holds: an epoch, or text that is not an integer. -/
inductive MarkerBody where
  | epoch (value : Nat)
  | notAnInteger
  deriving DecidableEq

structure FenceLedger where
  root : String
  deriving DecidableEq

/-- Where a `MarkerState` is found: the registry of the process, at the path that the ledger has
for the marker. -/
structure MarkerKey where
  process : Nat
  ledger : FenceLedger
  deriving DecidableEq

/-- `lock` is the call that holds the lock, `highest` the highest epoch that the process has read
or written. -/
structure MarkerState where
  lock : Option Nat
  highest : Nat
  deriving DecidableEq

inductive FenceDecision where
  | fresh (epoch : Nat) (advanced : Bool)
  | stale (observed highest : Nat)
  deriving DecidableEq

inductive FenceError where
  /-- `read fence marker …` -/
  | read
  /-- `fence marker … is not an integer: …` -/
  | notAnInteger
  /-- `write fence marker …` -/
  | write
  /-- `commit fence marker …` -/
  | commit
  /-- `fsync dir of fence marker …` -/
  | syncDir
  deriving DecidableEq

/-- A call takes the lock of its marker, and is done with the marker. -/
inductive FenceEvent where
  | entered (caller : Nat)
  | left (caller : Nat)
  deriving DecidableEq

/-- The marker file of a shard, the registries of the processes and what happened so far. -/
structure MarkerCell where
  marker : Option MarkerBody
  registry : MarkerKey → MarkerState
  trace : List FenceEvent

namespace MarkerCell

def log (c : MarkerCell) (e : FenceEvent) : MarkerCell :=
  { c with trace := e :: c.trace }

def setLock (c : MarkerCell) (key : MarkerKey) (holder : Option Nat) : MarkerCell :=
  { c with
    registry := Function.update c.registry key { c.registry key with lock := holder } }

/-- `fetch_max` on the highest epoch that the process knows. -/
def raise (c : MarkerCell) (key : MarkerKey) (epoch : Nat) : MarkerCell :=
  { c with
    registry := Function.update c.registry key
      { c.registry key with highest := max (c.registry key).highest epoch } }

def opened (marker : Option MarkerBody) : MarkerCell :=
  ⟨marker, fun _ => ⟨none, 0⟩, []⟩

end MarkerCell

abbrev FenceAction (α : Type) := ExceptT FenceError (Prog MarkerCell Outcome) α

structure FenceCall where
  key : MarkerKey
  epoch : Nat
  deriving DecidableEq

/-- `highest_epoch`, on what the path of the marker holds. -/
def parseMarker : Option MarkerBody → Except FenceError Nat
  | some (.epoch value) => .ok value
  | some .notAnInteger => .error .notAnInteger
  | none => .ok 0

def highestEpoch : FenceAction Nat :=
  Prog.lift fun o c =>
    match o with
    | .ok => some (parseMarker c.marker, c)
    | _ => some (.error .read, c)

def fetchMaxHighest (key : MarkerKey) (epoch : Nat) : FenceAction Unit :=
  Prog.lift fun _ c => some (.ok (), c.raise key epoch)

/-- A step of `write_marker` that leaves the marker alone: the temporary file has a name of its
own, and is removed when it could not be written. -/
def besideMarker (error : FenceError) : FenceAction Unit :=
  Prog.lift fun o c =>
    match o with
    | .ok => some (.ok (), c)
    | _ => some (.error error, c)

/-- `rename` of the temporary file, which holds the whole of `epoch`. -/
def renameMarker (epoch : Nat) : FenceAction Unit :=
  Prog.lift fun o c =>
    match o with
    | .ok => some (.ok (), { c with marker := some (.epoch epoch) })
    | .fail => some (.error .commit, c)
    | .failAfter => some (.error .commit, { c with marker := some (.epoch epoch) })

def writeMarker (epoch : Nat) : FenceAction Unit := do
  -- `File::create`, `write_all`, `sync_all`
  besideMarker .write
  besideMarker .write
  besideMarker .write
  renameMarker epoch
  besideMarker .syncDir

def lockMarker (caller : Nat) (key : MarkerKey) : Prog MarkerCell Outcome Unit :=
  .lift fun _ c =>
    if (c.registry key).lock = none then
      some ((), (c.setLock key (some caller)).log (.entered caller))
    else none

def unlockMarker (caller : Nat) (key : MarkerKey) : Prog MarkerCell Outcome Unit :=
  .lift fun _ c => some ((), (c.setLock key none).log (.left caller))

/-- The part of `check_and_advance` that holds the lock. -/
def compareAndAdvance (call : FenceCall) : FenceAction FenceDecision := do
  let highest ← highestEpoch
  fetchMaxHighest call.key highest
  if call.epoch < highest then
    return .stale call.epoch highest
  let advanced := decide (call.epoch > highest)
  if advanced then
    writeMarker call.epoch
    fetchMaxHighest call.key call.epoch
  return .fresh call.epoch advanced

def checkAndAdvance (caller : Nat) (call : FenceCall) : FenceAction FenceDecision := do
  ExceptT.lift (lockMarker caller call.key)
  let decision ← ExceptT.lift (compareAndAdvance call).run
  ExceptT.lift (unlockMarker caller call.key)
  ExceptT.mk (.ret decision)

/-- Calls of `check_and_advance` on one marker. A call that is dropped is that of a process that
was killed: it does nothing more, and the lock is gone with the process. -/
def fenceService :
    Service MarkerCell Outcome FenceCall (Except FenceError FenceDecision) Empty where
  program caller call := (checkAndAdvance caller call).run
  release caller c := c.log (.left caller)
  world e := nomatch e

/-- The state after a run of `check_and_advance` calls, with the calls. -/
def runFence (marker : Option MarkerBody) (moves : List (Move Outcome FenceCall Empty)) :
    Pool MarkerCell Outcome FenceCall (Except FenceError FenceDecision) :=
  (Pool.start (.opened marker)).run fenceService moves

end Ehdb.Core
