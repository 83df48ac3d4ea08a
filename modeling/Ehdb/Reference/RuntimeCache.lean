import Ehdb.ProofKit.Pool
import Ehdb.Reference.Runtime

/-! `with_runtime` on one log path by the threads of one process. With the cache on, a thread takes
the runtime that the cache holds, or opens one and puts it there, and then waits for its lock; with
the cache off, every call opens a runtime of its own. -/

namespace Ehdb.Reference

open ProofKit Transaction

/-- What a closure does with the runtime it was given: it looks at it, and appends. -/
inductive Closure (O D : Type) where
  | done
  | look (next : LocalReferenceRuntime O D → Closure O D)
  | append (request : CommitTransaction (Mutation O)) (next : Result (LogRecord O) → Closure O D)
  | appendBatch (requests : List (CommitTransaction (Mutation O)))
      (next : Result (List (LogRecord O)) → Closure O D)

structure RuntimeSlot (O D : Type) where
  runtime : LocalReferenceRuntime O D
  locked : Bool

/-- The file of a log, the runtimes that were opened on it and the one that the cache holds. -/
structure RuntimeTable (O D : Type) where
  file : LogFile O
  slots : List (RuntimeSlot O D)
  cached : Option Nat
  holders : List (Nat × Nat)
  overlapped : Bool
  returned : List (LogRecord O)

inductive RuntimeCall (O D : Type) where
  | withRuntime (f : Closure O D)
  | forgetRuntime
  | invalidateCachedRuntime

section

variable {O D : Type} (G : Engines O D)

namespace RuntimeTable

def new (file : LogFile O) : RuntimeTable O D := ⟨file, [], none, [], false, []⟩

def hold (i slot : Nat) (t : RuntimeTable O D) : RuntimeTable O D :=
  { t with holders := (i, slot) :: t.holders }

/-- `LocalReferenceRuntime::open`, for call `i`: the number of the new runtime. -/
def openFor (i : Nat) (t : RuntimeTable O D) : Result (Nat × RuntimeTable O D) := do
  let runtime ← LocalReferenceRuntime.openRuntime G t.file
  return (t.slots.length, { t with
    slots := t.slots ++ [⟨runtime, false⟩]
    holders := (i, t.slots.length) :: t.holders
    overlapped := t.overlapped || !t.holders.isEmpty })

/-- The lookup of `with_runtime` under the lock of the map. -/
def lookup (i : Nat) (t : RuntimeTable O D) : Result (Nat × RuntimeTable O D) :=
  match t.cached with
  | some slot => .ok (slot, t.hold i slot)
  | none => do
    let (slot, t) ← t.openFor G i
    return (slot, { t with cached := some slot })

/-- How call `i` gets a runtime. -/
def acquire (cacheOn : Bool) (i : Nat) (t : RuntimeTable O D) : Result (Nat × RuntimeTable O D) :=
  if cacheOn then t.lookup G i else t.openFor G i

def lock (slot : Nat) (t : RuntimeTable O D) : Option (RuntimeTable O D) :=
  match t.slots[slot]? with
  | some ⟨runtime, false⟩ => some { t with slots := t.slots.set slot ⟨runtime, true⟩ }
  | _ => none

/-- The guard of call `i` goes, and its runtime with it unless others have it. -/
def leave (i slot : Nat) (t : RuntimeTable O D) : RuntimeTable O D :=
  { t with
    slots := t.slots.modify slot ({ · with locked := false })
    holders := t.holders.filter (· ≠ (i, slot)) }

def evict (t : RuntimeTable O D) : RuntimeTable O D := { t with cached := none }

def perform {α : Type} (slot : Nat) (task : RuntimeTask O D α) (records : α → List (LogRecord O))
    (t : RuntimeTable O D) : Option (Result α × RuntimeTable O D) := do
  let entry ← t.slots[slot]?
  let ((result, runtime), file) ← (task.exec entry.runtime).eval () t.file
  return (result, { t with
    file := file
    slots := t.slots.set slot { entry with runtime := runtime }
    returned := t.returned ++ (result.toOption.map records).getD [] })

end RuntimeTable

abbrev RuntimeProg (O D α : Type) := Prog (RuntimeTable O D) Unit α

def onTable {α : Type} (f : RuntimeTable O D → Option (α × RuntimeTable O D)) : RuntimeProg O D α :=
  .lift fun _ t => f t

def Closure.run (slot : Nat) : Closure O D → RuntimeProg O D Unit
  | .done => pure ()
  | .look next => do
    let runtime ← onTable fun t => t.slots[slot]?.map fun entry => (entry.runtime, t)
    (next runtime).run slot
  | .append request next => do
    let result ← onTable (RuntimeTable.perform slot (LocalReferenceRuntime.append G request)
      fun record => [record])
    (next result).run slot
  | .appendBatch requests next => do
    let result ← onTable (RuntimeTable.perform slot
      (LocalReferenceRuntime.appendBatch G requests) id)
    (next result).run slot

def withRuntime (cacheOn : Bool) (i : Nat) (f : Closure O D) : RuntimeProg O D (Result Unit) := do
  let found : Result Nat ← onTable fun t =>
    match t.acquire G cacheOn i with
    | .ok (slot, t) => some (.ok slot, t)
    | .error e => some (.error e, t)
  match found with
  | .error e => return .error e
  | .ok slot =>
    -- A runtime of its own has no lock; taking it then does not wait.
    onTable fun t => (t.lock slot).map fun t => ((), t)
    f.run G slot
    onTable fun t => some ((), t.leave i slot)
    return .ok ()

def runtimeProgram (cacheOn : Bool) (i : Nat) : RuntimeCall O D → RuntimeProg O D (Result Unit)
  | .withRuntime f => withRuntime G cacheOn i f
  | .forgetRuntime | .invalidateCachedRuntime => do
    onTable fun t => some ((), t.evict)
    return .ok ()

/-- The threads of a process on one path. A thread that goes no further keeps what it has. -/
def runtimeService (cacheOn : Bool) :
    Service (RuntimeTable O D) Unit (RuntimeCall O D) (Result Unit) Empty where
  program := runtimeProgram G cacheOn
  release _ := id
  world := nofun

end

end Ehdb.Reference
