import Ehdb.L0.Actions
import Ehdb.L0.Kv
import Ehdb.ProofKit.Pool

/-! `KvCoordinator`: buckets of keys with an expiry. In the store below, a key is the bucket and the
key joined by a slash, and a value is an envelope of the value and the time from which it is
invisible. -/

namespace Ehdb.Feed

open ProofKit
open L0 (KvStore Outcome)

/-- The stored envelope; `exp` is 0 for an entry that never expires. -/
structure Envelope where
  v : String
  exp : Nat
  deriving DecidableEq

def Envelope.expired (e : Envelope) (now : Nat) : Bool :=
  e.exp ≠ 0 && e.exp ≤ now

/-- `serde_json` at the envelope: it reads back what it wrote, for an expiry of 64 bits. -/
structure EnvelopeCodec where
  toString : Envelope → String
  fromStr : String → Option Envelope
  fromStr_toString : ∀ e, e.exp < 2 ^ 64 → fromStr (toString e) = some e

def physical (bucket key : String) : String := bucket ++ "/" ++ key

/-- Strip a pattern off the front as often as it is there; the fuel is the length of the text. -/
def stripRepeatedly (pat : List Char) : Nat → List Char → List Char
  | 0, text => text
  | fuel + 1, text =>
    if pat.isPrefixOf text then stripRepeatedly pat fuel (text.drop pat.length) else text

/-- `trim_start_matches` for a pattern that is not empty. -/
def trimStartMatches (pat text : String) : String :=
  .ofList (stripRepeatedly pat.toList text.toList.length text.toList)

inductive KvError where
  | unparsable
  deriving DecidableEq

namespace KvCoordinator

variable (E : EnvelopeCodec)

def get (now : Nat) (bucket key : String) (store : KvStore) : Except KvError (Option String) :=
  match store.get (physical bucket key) with
  | none => .ok none
  | some entry =>
    match E.fromStr entry.value with
    | none => .error .unparsable
    | some env => .ok (if env.expired now then none else some env.v)

/-- The expiry that `put` stamps; the addition is on `u64`. -/
def expiry (now ttlMs : Nat) : Nat :=
  if ttlMs = 0 then 0 else (now + ttlMs) % 2 ^ 64

def put (bucket key value : String) (exp : Nat) (store : KvStore) : Nat × KvStore :=
  store.put (physical bucket key) (E.toString ⟨value, exp⟩)

def delete (bucket key : String) (store : KvStore) : Bool × KvStore :=
  let (version, store) := store.delete (physical bucket key)
  (version.isSome, store)

/-- What `scan` makes of an entry of the store. -/
def scanEntry (now : Nat) (pre : String) (entry : String × String) : Option (String × String) :=
  (E.fromStr entry.2).bind fun env =>
    if env.expired now then none else some (trimStartMatches pre entry.1, env.v)

def scan (now : Nat) (bucket : String) (store : KvStore) : List (String × String) :=
  (store.prefixScan (bucket ++ "/")).filterMap (scanEntry E now (bucket ++ "/"))

/-- The first section of `sweep_expired`. -/
def doomed (now : Nat) (bucket : String) (store : KvStore) : List String :=
  ((store.prefixScan (bucket ++ "/")).filter fun entry =>
    ((E.fromStr entry.2).map fun env => env.expired now).getD false).map Prod.fst

/-- The second section of `sweep_expired`: how many were deleted, and the store. -/
def deleteDoomed (keys : List String) (store : KvStore) : Nat × KvStore :=
  keys.foldl (fun (n, store) key =>
    let (version, store) := store.delete key
    (if version.isSome then n + 1 else n, store)) (0, store)

/-- Whether a key of the store holds an entry that is not expired. -/
def isLive (now : Nat) (store : KvStore) (key : String) : Bool :=
  match store.get key with
  | none => false
  | some entry => !((E.fromStr entry.value).map fun env => env.expired now).getD false

end KvCoordinator

inductive KvCall where
  | put (bucket key value : String) (ttlMs : Nat)
  | delete (bucket key : String)
  | get (bucket key : String)
  | scan (bucket : String)
  deriving DecidableEq

def KvCall.apply (E : EnvelopeCodec) (store : KvStore) : Nat × KvCall → KvStore
  | (now, .put bucket key value ttlMs) =>
    (KvCoordinator.put E bucket key value (KvCoordinator.expiry now ttlMs) store).2
  | (_, .delete bucket key) => (KvCoordinator.delete bucket key store).2
  | (_, .get ..) => store
  | (_, .scan _) => store

def runKvCalls (E : EnvelopeCodec) (calls : List (Nat × KvCall)) : KvStore :=
  calls.foldl (KvCall.apply E) .empty

inductive KvEvent where
  | clock (before now : Nat)
  /-- A sweep that had read `now` collected its victims while the clock was at `clock`. -/
  | collected (sweep now clock : Nat) (doomed : List String)
  | put (key : String)
  /-- A sweep deleted its victims, of which those in `live` held an entry that was not expired. -/
  | swept (sweep : Nat) (doomed live : List String)
  deriving DecidableEq

structure KvWorld where
  store : KvStore
  clock : Nat
  trace : List KvEvent

inductive KvRequest where
  | call (call : KvCall)
  | sweepExpired (bucket : String)
  deriving DecidableEq

inductive KvAnswer where
  | put (version : Nat)
  | deleted (present : Bool)
  | got (answer : Except KvError (Option String))
  | scanned (entries : List (String × String))
  | swept (removed : Nat)
  deriving DecidableEq

abbrev KvAction (α : Type) := Prog KvWorld Outcome α

def kvSection {α : Type} (f : KvWorld → α × KvWorld) : KvAction α :=
  .lift fun _ s => some (f s)

namespace KvCoordinator

variable (E : EnvelopeCodec)

def nowMs : KvAction Nat := kvSection fun s => (s.clock, s)

/-- `put` reads the clock before it takes the lock. -/
def putCall (bucket key value : String) (ttlMs : Nat) : KvAction KvAnswer := do
  let now ← nowMs
  kvSection fun s =>
    let (version, store) := put E bucket key value (expiry now ttlMs) s.store
    (.put version, { s with store := store, trace := .put (physical bucket key) :: s.trace })

def deleteCall (bucket key : String) : KvAction KvAnswer :=
  kvSection fun s =>
    let (present, store) := delete bucket key s.store
    (.deleted present, { s with store := store })

def getCall (bucket key : String) : KvAction KvAnswer :=
  kvSection fun s => (.got (get E s.clock bucket key s.store), s)

def scanCall (bucket : String) : KvAction KvAnswer :=
  kvSection fun s => (.scanned (scan E s.clock bucket s.store), s)

/-- `sweep_expired`. A sweep that does not delete leaves the store as it is. -/
def sweepExpired (deletes : Bool) (sweep : Nat) (bucket : String) : KvAction KvAnswer := do
  let now ← nowMs
  let keys ← kvSection fun s =>
    let keys := doomed E now bucket s.store
    (keys, { s with trace := .collected sweep now s.clock keys :: s.trace })
  kvSection fun s =>
    let (removed, store) := deleteDoomed keys s.store
    (.swept removed, { s with
        store := if deletes then store else s.store
        trace := .swept sweep keys (keys.filter (isLive E s.clock s.store)) :: s.trace })

end KvCoordinator

/-- Calls on one coordinator; the surroundings set the clock. With `sweeps` false the sweeps of a
run do nothing. -/
def kvCoordinatorService (E : EnvelopeCodec) (sweeps : Bool) :
    Service KvWorld Outcome KvRequest KvAnswer Nat where
  program caller
    | .call (.put bucket key value ttlMs) => KvCoordinator.putCall E bucket key value ttlMs
    | .call (.delete bucket key) => KvCoordinator.deleteCall bucket key
    | .call (.get bucket key) => KvCoordinator.getCall E bucket key
    | .call (.scan bucket) => KvCoordinator.scanCall E bucket
    | .sweepExpired bucket => KvCoordinator.sweepExpired E sweeps caller bucket
  release _ s := s
  world now s := { s with clock := now, trace := .clock s.clock now :: s.trace }

def runCoordinator (E : EnvelopeCodec) (sweeps : Bool) (store : KvStore) (clock : Nat)
    (moves : List (Move Outcome KvRequest Nat)) : Pool KvWorld Outcome KvRequest KvAnswer :=
  (Pool.start ⟨store, clock, []⟩).run (kvCoordinatorService E sweeps) moves

end Ehdb.Feed
