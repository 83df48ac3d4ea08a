import Ehdb.Reference.EventLog

/-! `LocalReferenceKvStateDriver`: every write of a key is a record in one stream of the reference
database, and the last of them is what the key holds. Each call opens the log anew. -/

namespace Ehdb.Reference

open ProofKit Transaction Ehdb.Stream
open DurableSegmentStore (validName)

def kvStateStream : String := "noetl_kv_state"

def kvSubjectPrefix : String := "noetl.kv"

def maxKvValueBytes : Nat := 1048576

structure KvEnvelope where
  bucket : String
  key : String
  value : String
  version : Nat
  deleted : Bool
  expiresAtMs : Option Nat
  deriving DecidableEq

/-- The SHA-256 of a key in hexadecimal, and the JSON of an envelope. -/
structure KvText where
  keyDigestToken : String → String
  toVec : KvEnvelope → Bytes
  fromSlice : Bytes → Option KvEnvelope

inductive KvCasExpectation where
  | absent
  | version (expected : Nat)

structure KvPutRequest where
  bucket : String
  key : String
  value : String
  expiresAtMs : Option Nat
  cas : Option KvCasExpectation
  transactionId : String

structure KvPutOutcome where
  action : String
  bucket : String
  key : String
  version : Nat
  written : Bool
  casConflict : Bool
  currentVersion : Option Nat
  createdStream : Bool
  globalSequence : Nat
  byteLen : Nat
  deriving DecidableEq

structure KvGetRequest where
  bucket : String
  key : String
  nowMs : Option Nat

structure KvEntryView where
  bucket : String
  key : String
  value : String
  version : Nat
  expiresAtMs : Option Nat
  deriving DecidableEq

structure KvGetOutcome where
  action : String
  bucket : String
  key : String
  found : Bool
  expired : Bool
  entry : Option KvEntryView
  deriving DecidableEq

def validatedBucket (bucket : String) : Result String :=
  if validName (strTrim bucket) then .ok (strTrim bucket)
  else .error (.invalidIdentifier s!"kv bucket: {bucket.quote}")

def keySubject (K : KvText) (bucket key : String) : Result String := do
  let bucket ← validatedBucket bucket
  if key.isEmpty then
    throw (.invalidIdentifier "kv key: empty")
  let subject := kvSubjectPrefix ++ "." ++ bucket ++ "." ++ K.keyDigestToken key
  validateSubject subject
  return subject

def isExpired : Option Nat → Option Nat → Bool
  | some expiry, some now => expiry ≤ now
  | _, _ => false

def entryView (env : KvEnvelope) : KvEntryView :=
  ⟨env.bucket, env.key, env.value, env.version, env.expiresAtMs⟩

structure LocalReferenceKvStateDriver where
  tenant : String
  namespaceName : String

namespace LocalReferenceKvStateDriver

variable {O D : Type} (driver : LocalReferenceKvStateDriver) (K : KvText) (G : Engines O D)

def coordinates : Coordinates := ⟨driver.tenant, driver.namespaceName, kvStateStream⟩

def latestEnvelope (runtime : LocalReferenceRuntime O D) (subject key : String) :
    Option KvEnvelope :=
  match do
      validateSubjectFilter subject
      runtime.state.streams.replayMatching driver.coordinates subject none with
  | .ok records =>
    records.reverse.findSome? fun record => (K.fromSlice record.payload).filter (·.key = key)
  | .error _ => none

/-- The version of an entry that was not deleted. -/
def liveVersion (latest : Option KvEnvelope) : Option Nat :=
  (latest.filter (!·.deleted)).map KvEnvelope.version

def satisfied (live : Option Nat) : Option KvCasExpectation → Bool
  | none => true
  | some .absent => live.isNone
  | some (.version expected) => live = some expected

/-- What `put` does once the log is open. -/
def write (bucket subject : String) (request : KvPutRequest) : RuntimeTask O D KvPutOutcome := do
  let runtime ← Task.memory
  let latest := driver.latestEnvelope K runtime subject request.key
  let live := liveVersion latest
  let byteLen := request.value.utf8ByteSize
  if satisfied live request.cas then
    let version := (latest.map KvEnvelope.version).getD 0 + 1
    let (createdStream, sequence) :=
      nextSequence (runtime.state.streams.replay driver.coordinates none)
    let payload := K.toVec
      ⟨bucket, request.key, request.value, version, false, request.expiresAtMs⟩
    let mutations : List StreamMutation :=
      (if createdStream then [.createStream kvStateStream .keepAll] else []) ++
        [.publish kvStateStream subject payload sequence]
    let _ ← LocalReferenceRuntime.append G
      ⟨request.transactionId, driver.tenant, driver.namespaceName, mutations.map .stream⟩
    return ⟨"kv-put", bucket, request.key, version, true, false, some version, createdStream,
      sequence, byteLen⟩
  else
    return ⟨"kv-put", bucket, request.key, live.getD 0, false, true, live, false, 0, byteLen⟩

/-- What `put` does before it writes. -/
def prepare (request : KvPutRequest) (file : LogFile O) :
    Result (String × String × LocalReferenceRuntime O D) := do
  validateStreamCoordinates driver.coordinates
  let bucket ← validatedBucket request.bucket
  let subject ← keySubject K request.bucket request.key
  let byteLen := request.value.utf8ByteSize
  if maxKvValueBytes < byteLen then
    throw (.invalidState s!"kv value {byteLen} bytes exceeds bound {maxKvValueBytes}")
  validateIdentifier request.transactionId
  return (bucket, subject, ← LocalReferenceRuntime.openRuntime G file)

def put (request : KvPutRequest) (file : LogFile O) : Result KvPutOutcome × LogFile O :=
  match driver.prepare K G request file with
  | .ok (bucket, subject, runtime) =>
    let called := Session.call (driver.write K G bucket subject request) ⟨file, runtime⟩
    (called.1, called.2.file)
  | .error e => (.error e, file)

def get (request : KvGetRequest) (file : LogFile O) : Result KvGetOutcome := do
  validateStreamCoordinates driver.coordinates
  let subject ← keySubject K request.bucket request.key
  let bucket ← validatedBucket request.bucket
  let runtime ← LocalReferenceRuntime.openRuntime G file
  match driver.latestEnvelope K runtime subject request.key with
  | none => return ⟨"kv-get", bucket, request.key, false, false, none⟩
  | some env =>
    if env.deleted then return ⟨"kv-get", bucket, request.key, false, false, none⟩
    else if isExpired env.expiresAtMs request.nowMs then
      return ⟨"kv-get", bucket, request.key, false, true, none⟩
    else return ⟨"kv-get", bucket, request.key, true, false, some (entryView env)⟩

end LocalReferenceKvStateDriver

end Ehdb.Reference
