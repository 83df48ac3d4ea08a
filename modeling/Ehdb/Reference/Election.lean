import Ehdb.Core.Names
import Ehdb.L0.Frame
import Ehdb.ProofKit.OrderedMap
import Ehdb.ProofKit.Pool
import Mathlib.Data.String.Basic

/-! `ShardElection` over an `InMemoryLeaseStore`: any number of electors, each in a process that may
die at any time. The clock that an action reads may show anything. -/

namespace Ehdb.Reference

open Ehdb.Core ProofKit

structure LeaseRecord where
  holder : String
  transitions : Nat
  renewedAtMillis : Nat
  durationSecs : Nat
  version : Nat
  deriving DecidableEq

/-- The sum and the product are on `u64`. -/
def LeaseRecord.isExpired (lease : LeaseRecord) (nowMillis : Nat) : Bool :=
  (lease.renewedAtMillis + lease.durationSecs * 1000) % 2 ^ 64 < nowMillis

def shardLeaseName (shard : Nat) : String := "ehdb-shard-" ++ hex8 shard

inductive ElectionOutcome where
  | acquired (epoch : Nat)
  | renewed (epoch : Nat)
  | heldByOther (holderEpoch : Nat)
  | lost
  deriving DecidableEq

abbrev InMemoryLeaseStore := OrderedMap String LeaseRecord

namespace InMemoryLeaseStore

def create (store : InMemoryLeaseStore) (name : String) (record : LeaseRecord) :
    Bool × InMemoryLeaseStore :=
  if (store.find? name).isSome then (false, store)
  else (true, store.insert name { record with version := 1 })

def compareAndSwap (store : InMemoryLeaseStore) (name : String) (expectedVersion : Nat)
    (record : LeaseRecord) : Result Bool × InMemoryLeaseStore :=
  match store.find? name with
  | none => (.error (.notFound s!"lease {name}"), store)
  | some current =>
    if current.version ≠ expectedVersion then (.ok false, store)
    else (.ok true, store.insert name { record with version := current.version + 1 })

end InMemoryLeaseStore

/-- A `ShardElection`, and whether its process lives. -/
structure Elector where
  identity : String
  shard : Nat
  durationSecs : Nat
  held : Option Nat
  running : Bool
  deriving DecidableEq

def Elector.leaseName (elector : Elector) : String := shardLeaseName elector.shard

structure Acquisition where
  call : Nat
  elector : Nat
  lease : String
  epoch : Nat
  deriving DecidableEq

structure Election where
  leases : InMemoryLeaseStore
  electors : List Elector
  acquisitions : List Acquisition
  /-- Whether an elector was started under an identity that a running elector of its shard had, or
  that the lease of its shard named. -/
  clash : Bool

namespace Election

def empty : Election := ⟨.empty, [], [], false⟩

def live (w : Election) (e : Nat) : Option Elector :=
  w.electors[e]?.filter (·.running)

/-- Another elector of the shard has the identity, or the lease names it. -/
def takenIdentity (w : Election) (identity : String) (shard : Nat) : Bool :=
  w.electors.any (fun elector =>
      elector.running && elector.leaseName == shardLeaseName shard &&
        elector.identity == identity) ||
    (w.leases.find? (shardLeaseName shard)).any (·.holder == identity)

def start (w : Election) (identity : String) (shard durationSecs : Nat) : Election :=
  { w with
    electors := w.electors ++ [⟨identity, shard, durationSecs, none, true⟩]
    clash := w.clash || w.takenIdentity identity shard }

def stop (w : Election) (e : Nat) : Election :=
  { w with electors := w.electors.modify e ({ · with running := false }) }

def setHeld (w : Election) (e : Nat) (held : Option Nat) : Election :=
  { w with electors := w.electors.modify e ({ · with held := held }) }

end Election

abbrev ElectionProg (α : Type) := Prog Election Nat α

/-- One action of elector `e`. A process that has died does nothing. -/
def onElector {α : Type} (e : Nat) (f : Elector → Election → α × Election) : ElectionProg α :=
  .lift fun _ w => (w.live e).map fun elector => f elector w

/-- The identity and the settings of the elector, and what its clock shows. -/
def lookAtClock (e : Nat) : ElectionProg (Elector × Nat) :=
  .lift fun now w => (w.live e).map fun elector => ((elector, now), w)

def readLease (e : Nat) : ElectionProg (Option LeaseRecord) :=
  onElector e fun elector w => (w.leases.find? elector.leaseName, w)

def setHeld (e : Nat) (held : Option Nat) : ElectionProg Unit :=
  onElector e fun _ w => ((), w.setHeld e held)

def dropToken (e : Nat) : ElectionProg Unit := setHeld e none

/-- `create` in the store; a lease that was created is an acquisition of call `i`. -/
def createLease (i e : Nat) (record : LeaseRecord) : ElectionProg Bool :=
  onElector e fun elector w =>
    let (created, leases) := InMemoryLeaseStore.create w.leases elector.leaseName record
    let taken := if created then [⟨i, e, elector.leaseName, record.transitions⟩] else []
    (created, { w with leases := leases, acquisitions := w.acquisitions ++ taken })

def swapAcquired (i e expectedVersion : Nat) (record : LeaseRecord) : ElectionProg (Result Bool) :=
  onElector e fun elector w =>
    let (swapped, leases) :=
      InMemoryLeaseStore.compareAndSwap w.leases elector.leaseName expectedVersion record
    let taken := if swapped = .ok true then [⟨i, e, elector.leaseName, record.transitions⟩] else []
    (swapped, { w with leases := leases, acquisitions := w.acquisitions ++ taken })

def swapRenewed (e expectedVersion : Nat) (record : LeaseRecord) : ElectionProg (Result Bool) :=
  onElector e fun elector w =>
    let (swapped, leases) :=
      InMemoryLeaseStore.compareAndSwap w.leases elector.leaseName expectedVersion record
    (swapped, { w with leases := leases })

def renew (e : Nat) : ElectionProg (Result ElectionOutcome) := do
  let (self, now) ← lookAtClock e
  match ← readLease e with
  | none => do
    dropToken e
    return .ok .lost
  | some existing =>
    if existing.holder ≠ self.identity then do
      dropToken e
      return .ok .lost
    else if existing.isExpired now then do
      dropToken e
      return .ok .lost
    else
      match ← swapRenewed e existing.version { existing with renewedAtMillis := now } with
      | .error err => return .error err
      | .ok true => do
        setHeld e (some existing.transitions)
        return .ok (.renewed existing.transitions)
      | .ok false => do
        dropToken e
        return .ok .lost

def tryAcquire (i e : Nat) : ElectionProg (Result ElectionOutcome) := do
  let (self, now) ← lookAtClock e
  match ← readLease e with
  | none =>
    if ← createLease i e ⟨self.identity, 1, now, self.durationSecs, 0⟩ then do
      setHeld e (some 1)
      return .ok (.acquired 1)
    else do
      dropToken e
      return .ok (.heldByOther 0)
  | some existing =>
    if existing.holder = self.identity ∧ existing.isExpired now = false then renew e
    else if existing.isExpired now = false then do
      dropToken e
      return .ok (.heldByOther existing.transitions)
    else
      let epoch := existing.transitions + 1
      match ← swapAcquired i e existing.version
          ⟨self.identity, epoch, now, self.durationSecs, existing.version⟩ with
      | .error err => return .error err
      | .ok true => do
        setHeld e (some epoch)
        return .ok (.acquired epoch)
      | .ok false => do
        dropToken e
        return .ok (.heldByOther existing.transitions)

def release (e : Nat) : ElectionProg (Result Unit) := do
  dropToken e
  return .ok ()

inductive ElectionCall where
  | tryAcquire (elector : Nat)
  | renew (elector : Nat)
  | release (elector : Nat)
  deriving DecidableEq

def ElectionCall.elector : ElectionCall → Nat
  | .tryAcquire e => e
  | .renew e => e
  | .release e => e

inductive ElectionEvent where
  | start (identity : String) (shard durationSecs : Nat)
  | stop (elector : Nat)

abbrev ElectionAnswer := Result (Option ElectionOutcome)

def electionService : Service Election Nat ElectionCall ElectionAnswer ElectionEvent where
  program i
    | .tryAcquire e => do return (← tryAcquire i e).map some
    | .renew e => do return (← renew e).map some
    | .release e => do return (← release e).map fun _ => none
  release _ w := w
  world
    | .start identity shard durationSecs, w => w.start identity shard durationSecs
    | .stop e, w => w.stop e

end Ehdb.Reference
