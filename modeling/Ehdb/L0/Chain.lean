import Ehdb.L0.Frame
import Ehdb.ProofKit.OrderedMap
import Ehdb.ProofKit.StableSort
import Ehdb.ProofKit.Stops
import Mathlib.Data.String.Basic

/-! The events of an execution in order, in memory (`chain.rs`) and on a substrate
(`chain_store_durable.rs`), and the populator that fills the latter from the log
(`chain_populator.rs`). Keys are kept apart by family, and a record is what its text decodes to. -/

namespace Ehdb.L0

open ProofKit

/-- What the texts of the chain stores depend on: `str::trim`, and `{:?}` of an optional id. -/
structure ChainEnv where
  trim : String → String
  debug : Option String → String

def ChainEnv.blank (E : ChainEnv) (text : String) : Bool := (E.trim text).isEmpty

/-- An event of an execution. `exec_seq` is a `u64`, and both stores add 1 to the last one. The
store in memory takes the sum modulo `2 ^ 64`, as a release build does; for the durable store it is
the sum itself, so what is said of its appends is about sequences that have a successor. -/
structure ChainEvent where
  execSeq : Nat
  eventId : String
  prevEventId : Option String
  executionId : String
  parentExecutionId : Option String
  payload : String
  deriving DecidableEq

inductive ChainError where
  | gapAt (executionId eventId : String)
  | forked (executionId prevEventId first second : String)
  | notHead (executionId : String) (expected got : Option String)
  | invalid (message : String)
  deriving DecidableEq

def ChainError.message (E : ChainEnv) : ChainError → String
  | .gapAt execution event =>
      s!"chain gap in execution {execution}: event {event} is not present (named, not empty: " ++
      "a reader may wait, serve a shorter prefix, or report it)"
  | .forked execution prev first second =>
      s!"chain FORK in execution {execution}: events {first} and {second} both claim " ++
      s!"predecessor {prev} — single-writer exclusion was not real"
  | .notHead execution expected got =>
    s!"append to execution {execution} out of order: head is " ++ E.debug expected ++
      ", append claims predecessor " ++ E.debug got
  | .invalid message => message

section Walk

variable (get : String → String → Option ChainEvent)

def parentOf (event : ChainEvent) : Except ChainError (Option ChainEvent) :=
  match event.prevEventId with
  | none => .ok none
  | some prev =>
    match get event.executionId prev with
    | some parent => .ok (some parent)
    | none => .error (.gapAt event.executionId prev)

/-- The loop of `walk_from_head`; `none` if it goes on for more than `fuel` events. -/
def walk : Nat → ChainEvent → Option (Except ChainError (List ChainEvent))
  | 0, _ => none
  | fuel + 1, cursor =>
    match parentOf get cursor with
    | .error e => some (.error e)
    | .ok none => some (.ok [cursor])
    | .ok (some parent) => (walk fuel parent).map fun r => r.map (cursor :: ·)

def walkFromHead (execution : String) (head : Option String) (fuel : Nat) :
    Option (Except ChainError (List ChainEvent)) :=
  match head with
  | none => some (.ok [])
  | some head =>
    match get execution head with
    | none => some (.error (.gapAt execution head))
    | some cursor => walk get fuel cursor

def chainIsComplete (execution : String) (head : Option String) (span fuel : Nat) :
    Option (Except ChainError Bool) :=
  (walkFromHead get execution head fuel).map fun
    | .ok walked => .ok (walked.length == span)
    | .error (.gapAt _ _) => .ok false
    | .error e => .error e

end Walk

structure ExecutionPartition where
  bySeq : OrderedMap Nat ChainEvent := .empty
  byEvent : OrderedMap String Nat := .empty
  head : Option String := none

namespace ExecutionPartition

variable (p : ExecutionPartition)

def span : Nat := (p.bySeq.entries.getLast?.map Prod.fst).getD 0

def get (event : String) : Option ChainEvent :=
  (p.byEvent.find? event).bind p.bySeq.find?

def chain : List ChainEvent := p.bySeq.entries.map Prod.snd

def append (execution event : String) (prev parent : Option String)
    (payload : String) : Except ChainError Nat × ExecutionPartition :=
  if p.head ≠ prev then (.error (.notHead execution p.head prev), p)
  else if (p.byEvent.find? event).isSome then
    (.error (.invalid s!"event {event} already present in execution {execution}"), p)
  else
    let seq := (p.span + 1) % 2 ^ 64
    (.ok seq, ⟨p.bySeq.insert seq ⟨seq, event, prev, execution, parent, payload⟩,
      p.byEvent.insert event seq, some event⟩)

def applyReplicated (e : ChainEvent) : Except ChainError Unit × ExecutionPartition :=
  match p.byEvent.find? e.eventId with
  | some seq =>
    match p.bySeq.find? seq with
    | some known =>
      if known = e then (.ok (), p)
      else (.error (.forked e.executionId (e.prevEventId.getD "<root>") known.eventId e.eventId), p)
    -- `expect` of the source; the two maps agree.
    | none => (.error (.invalid "index/seq agree"), p)
  | none =>
    let newest := p.bySeq.entries.getLast?.all fun top => decide (e.execSeq > top.1)
    (.ok (), ⟨p.bySeq.insert e.execSeq e, p.byEvent.insert e.eventId e.execSeq,
      if newest then some e.eventId else p.head⟩)

end ExecutionPartition

abbrev ChainStore := OrderedMap String ExecutionPartition

namespace ChainStore

def append (E : ChainEnv) (store : ChainStore) (execution event : String)
    (prev parent : Option String) (payload : String) : Except ChainError Nat × ChainStore :=
  if E.blank execution then (.error (.invalid "execution_id is empty"), store)
  else if E.blank event then (.error (.invalid "event_id is empty"), store)
  else
    let r := ((store.find? execution).getD {}).append execution event prev parent payload
    (r.1, store.insert execution r.2)

def applyReplicated (E : ChainEnv) (store : ChainStore) (e : ChainEvent) :
    Except ChainError Unit × ChainStore :=
  if E.blank e.executionId || E.blank e.eventId then
    (.error (.invalid "replicated event needs execution_id and event_id"), store)
  else
    let r := ((store.find? e.executionId).getD {}).applyReplicated e
    (r.1, store.insert e.executionId r.2)

def get (store : ChainStore) (execution event : String) : Option ChainEvent :=
  (store.find? execution).bind fun p => p.get event

def chain (store : ChainStore) (execution : String) : List ChainEvent :=
  ((store.find? execution).map ExecutionPartition.chain).getD []

def isComplete (store : ChainStore) (execution : String) (fuel : Nat) :
    Option (Except ChainError Bool) :=
  match store.find? execution with
  | none => some (.ok true)
  | some p => chainIsComplete store.get execution p.head p.span fuel

def parentExecutionOf (store : ChainStore) (execution : String) : Option String :=
  (store.find? execution).bind fun p => p.chain.head?.bind ChainEvent.parentExecutionId

end ChainStore

structure ExecutionKeys where
  ev : OrderedMap String ChainEvent := .empty
  seq : OrderedMap Nat String := .empty
  head : Option (Nat × String) := none
  wm : Option (Nat × Nat) := none
  cov : Option (String × Nat) := none

namespace ExecutionKeys

variable (d : ExecutionKeys)

def headSeq : Nat := (d.head.map Prod.fst).getD 0

def chain : List ChainEvent :=
  sortByKey ChainEvent.execSeq (d.seq.entries.filterMap fun e => d.ev.find? e.2)

def span : Nat := (d.chain.getLast?.map ChainEvent.execSeq).getD 0

/-- The events with `e`, if there is none of its id yet. -/
def withEvent (e : ChainEvent) : ExecutionKeys :=
  if (d.ev.find? e.eventId).isSome then d else { d with ev := d.ev.insert e.eventId e }

def withPointer (e : ChainEvent) : ExecutionKeys :=
  if (d.seq.find? e.execSeq).isSome then d else { d with seq := d.seq.insert e.execSeq e.eventId }

def withHead (e : ChainEvent) : ExecutionKeys :=
  { d with head := some (e.execSeq, e.eventId) }

end ExecutionKeys

section Durable

variable {ε α : Type}

abbrev KeyOp (ε α : Type) := ExceptT ε (Prog ExecutionKeys Unit) α

def KeyOp.read (f : ExecutionKeys → α) : KeyOp ε α :=
  ExceptT.mk (Prog.lift fun _ d => some (.ok (f d), d))

def KeyOp.write (f : ExecutionKeys → ExecutionKeys) : KeyOp ε Unit :=
  ExceptT.mk (Prog.lift fun _ d => some (.ok (), f d))

/-- `put_if_absent` of an event: whether it was written. -/
def KeyOp.putEvent (e : ChainEvent) : KeyOp ε Bool :=
  ExceptT.mk (Prog.lift fun _ d => some (.ok (d.ev.find? e.eventId).isNone, d.withEvent e))

namespace DurableChainStore

variable (E : ChainEnv)

def append (execution event : String) (prev parent : Option String) (payload : String) :
    KeyOp ChainError Nat := do
  if E.blank execution || E.blank event then
    throw (.invalid "execution_id and event_id are required")
  let head ← KeyOp.read ExecutionKeys.head
  if head.map Prod.snd ≠ prev then
    throw (.notHead execution (head.map Prod.snd) prev)
  let seq := (head.map Prod.fst).getD 0 + 1
  let e : ChainEvent := ⟨seq, event, prev, execution, parent, payload⟩
  if !(← KeyOp.putEvent e) then
    throw (.invalid
      s!"event {event} already exists in execution {execution}: an event key is write-once")
  KeyOp.write (·.withPointer e)
  KeyOp.write (·.withHead e)
  return seq

def applyReplicated (e : ChainEvent) : KeyOp ChainError Unit := do
  let _ ← KeyOp.putEvent e
  KeyOp.write (·.withPointer e)
  let current ← KeyOp.read ExecutionKeys.headSeq
  if current < e.execSeq then
    KeyOp.write (·.withHead e)

end DurableChainStore

structure LogEvent where
  eventId : String
  parentExecutionId : Option String
  payload : String
  prevEventId : Option String
  deriving DecidableEq

inductive FromLog where
  | inSync (total appended : Nat)
  | diverged (atPosition : Nat) (stored log : String)
  | staleLog (storedLen logLen : Nat)
  deriving DecidableEq

namespace ChainPopulator

variable (E : ChainEnv)

def writeWatermark (first through : Nat) : KeyOp ε Unit :=
  KeyOp.write fun d => { d with wm := some (first, through) }

def populate (execution event : String) (prev parent : Option String) (payload : String) :
    KeyOp ChainError Nat := do
  let before ← KeyOp.read ExecutionKeys.wm
  let next := (← KeyOp.read ExecutionKeys.headSeq) + 1
  let first := (before.map Prod.fst).getD next
  if before.isSome then
    writeWatermark first next
  let seq ← DurableChainStore.append E execution event prev parent payload
  if before.isNone then
    writeWatermark first seq
  if seq ≠ next then
    writeWatermark first seq
  return seq

def populateReplicated (e : ChainEvent) : KeyOp ChainError Unit := do
  let before ← KeyOp.read ExecutionKeys.wm
  let first := (before.map fun wm => min wm.1 e.execSeq).getD e.execSeq
  let through := (before.map fun wm => max wm.2 e.execSeq).getD e.execSeq
  if before.isSome then
    writeWatermark first through
  DurableChainStore.applyReplicated e
  if before.isNone then
    writeWatermark first through

def writeCoverage (root : String) (total : Nat) : KeyOp ε Unit := do
  let coverage ← KeyOp.read ExecutionKeys.cov
  if !(coverage.any fun c => decide (c.2 > total) && c.1 == root) then
    KeyOp.write fun d => { d with cov := some (root, total) }

/-- The comparison of the stored chain with the log, from position `i` on; `none` if it is a prefix.
-/
def compare (storedLen logLen : Nat) : Nat → List ChainEvent → List LogEvent → Option FromLog
  | _, [], _ => none
  | _, _ :: _, [] => some (.staleLog storedLen logLen)
  | i, known :: stored, want :: log =>
    if want.eventId = known.eventId then compare storedLen logLen (i + 1) stored log
    else some (.diverged i known.eventId want.eventId)

def prevAt (events : List LogEvent) (i : Nat) : Option String :=
  if i = 0 then none else events[i - 1]?.map LogEvent.eventId

def populateFromLog (execution : String) (events : List LogEvent) : KeyOp EhdbError FromLog := do
  match events.head? with
  | none =>
    writeWatermark 0 0
    writeCoverage "" 0
    return .inSync 0 0
  | some root =>
    let stored ← KeyOp.read ExecutionKeys.chain
    match compare stored.length events.length 0 stored events with
    | some (.diverged i known want) =>
      KeyOp.write fun d => { d with cov := none }
      return .diverged i known want
    | some verdict => return verdict
    | none =>
      writeCoverage root.eventId events.length
      let appended ← Prog.tryEach (fun appended e => do
        let _ ← ExceptT.adapt (fun err : ChainError => EhdbError.storage (err.message E))
          (DurableChainStore.append E execution e.1.eventId (prevAt events e.2)
            e.1.parentExecutionId e.1.payload)
        return appended + 1) 0 (events.zipIdx.drop stored.length)
      writeWatermark 1 events.length
      return .inSync events.length appended

def chainIfAuthoritative (d : ExecutionKeys) : Option (List ChainEvent) :=
  match d.wm, d.cov with
  | some (_, through), some (root, total) =>
    if d.headSeq ≠ through then none
    else if d.chain.length ≠ total then none
    else
      match d.chain.head? with
      | none => if root ≠ "" then none else some d.chain
      | some first => if first.eventId = root then some d.chain else none
  | _, _ => none

end ChainPopulator

end Durable

inductive ChainCall where
  | append (execution event : String) (prev parent : Option String) (payload : String)
  | applyReplicated (e : ChainEvent)
  | get (execution event : String)
  | parentOf (event : ChainEvent)
  | chain (execution : String)
  | walkFromHead (execution : String) (fuel : Nat)
  | isComplete (execution : String) (fuel : Nat)
  | parentExecutionOf (execution : String)

inductive ChainAnswer where
  | appended (r : Except ChainError Nat)
  | applied (r : Except ChainError Unit)
  | event (r : Except ChainError (Option ChainEvent))
  | chain (events : List ChainEvent)
  | walked (r : Option (Except ChainError (List ChainEvent)))
  | complete (r : Option (Except ChainError Bool))
  | execution (id : Option String)
  deriving DecidableEq

def ChainStore.answer (E : ChainEnv) (store : ChainStore) : ChainCall → ChainAnswer × ChainStore
  | .append execution event prev parent payload =>
    let r := store.append E execution event prev parent payload
    (.appended r.1, r.2)
  | .applyReplicated e =>
    let r := store.applyReplicated E e
    (.applied r.1, r.2)
  | .get execution event => (.event (.ok (store.get execution event)), store)
  | .parentOf event => (.event (parentOf store.get event), store)
  | .chain execution => (.chain (store.chain execution), store)
  | .walkFromHead execution fuel =>
    (.walked (walkFromHead store.get execution ((store.find? execution).bind (·.head)) fuel), store)
  | .isComplete execution fuel => (.complete (store.isComplete execution fuel), store)
  | .parentExecutionOf execution => (.execution (store.parentExecutionOf execution), store)

namespace DurableChainStore

variable {α : Type} (E : ChainEnv) (keys : String → ExecutionKeys)

def get (execution event : String) : Option ChainEvent := (keys execution).ev.find? event

def head (execution : String) : Option String := (keys execution).head.map Prod.snd

def on (execution : String) (op : KeyOp ChainError α) (answer : Except ChainError α → ChainAnswer) :
    Option (ChainAnswer × (String → ExecutionKeys)) :=
  (op.run.eval () (keys execution)).map fun r => (answer r.1, Function.update keys execution r.2)

def answer : ChainCall → Option (ChainAnswer × (String → ExecutionKeys))
  | .append execution event prev parent payload =>
    on keys execution (append E execution event prev parent payload) .appended
  | .applyReplicated e => on keys e.executionId (applyReplicated e) .applied
  | .get execution event => some (.event (.ok (get keys execution event)), keys)
  | .parentOf event => some (.event (parentOf (get keys) event), keys)
  | .chain execution => some (.chain (keys execution).chain, keys)
  | .walkFromHead execution fuel =>
    some (.walked (walkFromHead (get keys) execution (head keys execution) fuel), keys)
  | .isComplete execution fuel => some (.complete
    (chainIsComplete (get keys) execution (head keys execution) (keys execution).span fuel), keys)
  | .parentExecutionOf execution =>
    some (.execution ((keys execution).chain.head?.bind ChainEvent.parentExecutionId), keys)

end DurableChainStore

def ChainStore.serve (E : ChainEnv) : ChainStore → List ChainCall → List ChainAnswer × ChainStore
  | store, [] => ([], store)
  | store, call :: calls =>
    let r := store.answer E call
    let rest := ChainStore.serve E r.2 calls
    (r.1 :: rest.1, rest.2)

def DurableChainStore.serve (E : ChainEnv) :
    (String → ExecutionKeys) → List ChainCall → Option (List ChainAnswer)
  | _, [] => some []
  | keys, call :: calls => (DurableChainStore.answer E keys call).bind fun r =>
    (DurableChainStore.serve E r.2 calls).map (r.1 :: ·)

/-- The error without the message of an `Invalid`. -/
def ChainError.plain : ChainError → ChainError
  | .invalid _ => .invalid ""
  | e => e

def ChainAnswer.plain : ChainAnswer → ChainAnswer
  | .appended r => .appended (r.mapError ChainError.plain)
  | .applied r => .applied (r.mapError ChainError.plain)
  | .event r => .event (r.mapError ChainError.plain)
  | .walked r => .walked (r.map (·.mapError ChainError.plain))
  | .complete r => .complete (r.map (·.mapError ChainError.plain))
  | a => a

end Ehdb.L0
