import Ehdb.L0.Actions
import Ehdb.ProofKit.Pool

/-! `CursorStore`: the file with the committed cursor of a claim group. `store` raises a mark in
memory, takes the write lock, writes a temporary file and renames it over the live one. -/

namespace Ehdb.Feed

open ProofKit
open L0 (Outcome)

structure CursorFile where
  version : Nat
  shard : Nat
  committedCursor : Nat
  deriving DecidableEq

def cursorFileVersion : Nat := 1

/-- What a file holds: the body of a cursor file, or bytes that do not parse as one. -/
inductive FileBody where
  | cursor (file : CursorFile)
  | unparsable
  deriving DecidableEq

/-- The store in memory. `written` is the highest value this process set out to write,
`writeLock` the call that holds the write lock, `fenced` whether a fence is installed. -/
structure CursorStore where
  shard : Nat
  written : Nat
  writeLock : Option Nat
  fenced : Bool
  deriving DecidableEq

/-- `open` and `open_named`: nothing is known of the file. -/
def CursorStore.opened (shard : Nat) (fenced : Bool) : CursorStore :=
  ⟨shard, 0, none, fenced⟩

/-- `load`, on what the path of the store holds. -/
def CursorStore.load (shard : Nat) : Option FileBody → Option Nat
  | some (.cursor file) =>
    if file.version = cursorFileVersion ∧ file.shard = shard then some file.committedCursor
    else none
  | some .unparsable => none
  | none => none

inductive CursorEvent where
  /-- `fetch_max` raised the mark; a write follows. -/
  | raised (caller cursor : Nat)
  /-- `fetch_max` found the mark at or above the cursor. -/
  | skipped (caller cursor : Nat)
  | renamed (caller cursor : Nat)
  | failed (caller cursor : Nat)
  deriving DecidableEq

/-- A store, the file at its path and the temporary file beside it. -/
structure CursorCell where
  store : CursorStore
  file : Option FileBody
  tmp : Option FileBody
  trace : List CursorEvent
  deriving DecidableEq

inductive CursorError where
  | refused
  | io
  deriving DecidableEq

abbrev CursorAction (α : Type) := ExceptT CursorError (Prog CursorCell Outcome) α

namespace CursorCell

variable (c : CursorCell)

def log (e : CursorEvent) : CursorCell :=
  { c with trace := e :: c.trace }

def load : Option Nat :=
  CursorStore.load c.store.shard c.file

def raise (cursor : Nat) : CursorCell :=
  { c with store := { c.store with written := cursor } }

def lock (holder : Option Nat) : CursorCell :=
  { c with store := { c.store with writeLock := holder } }

def body (cursor : Nat) : FileBody :=
  .cursor ⟨cursorFileVersion, c.store.shard, cursor⟩

def moveTmp : CursorCell :=
  { c with file := c.tmp, tmp := none }

end CursorCell

def checkFence : CursorAction Unit :=
  Prog.lift fun o c =>
    if c.store.fenced && o != .ok then some (.error .refused, c) else some (.ok (), c)

variable (caller cursor : Nat)

/-- Answers whether the mark was already at or past `cursor`. -/
def fetchMax : CursorAction Bool :=
  Prog.lift fun _ c =>
    if cursor ≤ c.store.written then some (.ok true, c.log (.skipped caller cursor))
    else some (.ok false, (c.raise cursor).log (.raised caller cursor))

def lockWrites (caller : Nat) : CursorAction Unit :=
  Prog.lift fun _ c =>
    if c.store.writeLock = none then some (.ok (), c.lock (some caller)) else none

def unlockWrites : Prog CursorCell Outcome Unit :=
  .lift fun _ c => some ((), c.lock none)

def fsStep (effect partly : CursorCell → CursorCell) : CursorAction Unit :=
  Prog.lift fun o c =>
    match o with
    | .ok => some (.ok (), effect c)
    | .fail => some (.error .io, (partly c).log (.failed caller cursor))
    | .failAfter => some (.error .io, (effect c).log (.failed caller cursor))

def createTmp : CursorAction Unit :=
  fsStep caller cursor (fun c => { c with tmp := some .unparsable }) id

/-- `write_all`; a write that fails may have written a part of the body. -/
def writeTmp : CursorAction Unit :=
  fsStep caller cursor (fun c => { c with tmp := c.tmp.map fun _ => c.body cursor })
    fun c => { c with tmp := c.tmp.map fun _ => .unparsable }

def syncTmp : CursorAction Unit :=
  fsStep caller cursor id id

def renameTmp : CursorAction Unit :=
  Prog.lift fun o c =>
    match o, c.tmp with
    | .ok, some _ => some (.ok (), c.moveTmp.log (.renamed caller cursor))
    | .failAfter, some _ => some (.error .io, c.moveTmp.log (.failed caller cursor))
    | _, _ => some (.error .io, c.log (.failed caller cursor))

/-- The part of `store` that holds the write lock. The `fsync` of the directory is best effort
and leaves the state of the model as it is. -/
def writeCursor : CursorAction Unit := do
  createTmp caller cursor
  writeTmp caller cursor
  syncTmp caller cursor
  renameTmp caller cursor

def store : CursorAction Bool := do
  checkFence
  if ← fetchMax caller cursor then
    return false
  lockWrites caller
  let written ← ExceptT.lift (writeCursor caller cursor).run
  ExceptT.lift unlockWrites
  ExceptT.mk (.ret written)
  return true

/-- Calls of `store` on one store. A call that unwinds gives the write lock back. -/
def cursorService : Service CursorCell Outcome Nat (Except CursorError Bool) Empty where
  program caller cursor := (store caller cursor).run
  release caller c := if c.store.writeLock = some caller then c.lock none else c
  world e := nomatch e

def CursorCell.opened (shard : Nat) (fenced : Bool) (file : Option FileBody) : CursorCell :=
  ⟨.opened shard fenced, file, none, []⟩

def runStores (shard : Nat) (fenced : Bool) (file : Option FileBody)
    (moves : List (Move Outcome Nat Empty)) :
    Pool CursorCell Outcome Nat (Except CursorError Bool) :=
  (Pool.start (.opened shard fenced file)).run cursorService moves

end Ehdb.Feed
