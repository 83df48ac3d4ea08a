import Ehdb.Core.Names
import Ehdb.L0.Frame
import Ehdb.ProofKit.Memory
import Ehdb.ProofKit.OrderedMap
import Ehdb.ProofKit.Pool
import Mathlib.Data.String.Basic

/-! `put_segment`, `append_segment` and `get_segment` of `FilesystemSharedBackend` as actions on the
files. A crash may fall between any two of them, and in the middle of a write. The hash is left
open. -/

namespace Ehdb.Reference

open Ehdb.Core ProofKit

/-! The bytes of segments, their integrity markers, the reclaim watermarks, and the temporary files
that become one of these. A file is what its bytes decode to. -/

structure SharedReclaimWatermark where
  seq : Nat
  segment : Nat
  deriving DecidableEq

/-- The sidecar of a segment; `H` is the state of a running hash. -/
structure SharedSegmentMeta (H : Type) where
  byteLen : Nat
  digest : String
  hasherState : Option H
  deriving DecidableEq

inductive SharedFile (H : Type) where
  | object (bytes : Bytes)
  | sidecar (content : SharedSegmentMeta H)
  | watermark (content : SharedReclaimWatermark)
  deriving DecidableEq

def sharedSegmentKey (shard segmentId : Nat) : String :=
  "noetl.ehdb.seg." ++ hex8 shard ++ "." ++ hex16 segmentId

def metaName (shard segmentId : Nat) : String := sharedSegmentKey shard segmentId ++ ".meta"

def watermarkName (shard : Nat) : String := "noetl.ehdb.rw." ++ hex8 shard

/-- The temporary file of `atomic_write`. -/
def tmpName (name : String) : String := withExtension name "tmp"

abbrev SharedDir (H : Type) := OrderedMap String (SharedFile H)

/-- The text of the error of an operation on a file that is not there. -/
def noSuchFile : String := "No such file or directory (os error 2)"

namespace SharedDir

variable {H : Type}

/-- `atomic_write` as far as the temporary file: opened, truncated and written. -/
def writeTemp (dir : SharedDir H) (name : String) (file : SharedFile H) : SharedDir H :=
  dir.insert (tmpName name) file

def renameTemp (dir : SharedDir H) (name : String) : Result Unit × SharedDir H :=
  match dir.find? (tmpName name) with
  | some file => (.ok (), (dir.erase (tmpName name)).insert name file)
  | none => (.error (.storage noSuchFile), dir)

/-- `read_watermark`; what does not decode counts as absent. -/
def readWatermark (dir : SharedDir H) (shard : Nat) : Option SharedReclaimWatermark :=
  match dir.find? (watermarkName shard) with
  | some (.watermark content) => some content
  | _ => none

def reclaimWatermark (dir : SharedDir H) (shard : Nat) : SharedReclaimWatermark :=
  (readWatermark dir shard).getD ⟨0, 0⟩

end SharedDir

/-- A running hash, as `XxHash64`. -/
structure Hashing (H : Type) where
  withSeed : H
  write : H → Bytes → H
  finish : H → Nat
  write_nil : ∀ h, write h [] = h
  write_append : ∀ h a b, write (write h a) b = write h (a ++ b)

structure SharedSegmentPutOutcome where
  key : String
  byteLen : Nat
  digest : String
  newlyWritten : Bool
  deriving DecidableEq

namespace SharedDir

variable {H : Type} (dir : SharedDir H)

/-- `read_meta`; the sidecar decodes. -/
def readMeta (shard segmentId : Nat) : Option (SharedSegmentMeta H) :=
  match dir.find? (metaName shard segmentId) with
  | some (.sidecar content) => some content
  | _ => none

def object (shard segmentId : Nat) : Option Bytes :=
  match dir.find? (sharedSegmentKey shard segmentId) with
  | some (.object bytes) => some bytes
  | _ => none

def objectLen (shard segmentId : Nat) : Nat :=
  ((dir.object shard segmentId).getD []).length

def readObjectPrefix (shard segmentId len : Nat) : Result Bytes :=
  match dir.object shard segmentId with
  | none => .error (.storage noSuchFile)
  | some bytes =>
    if len ≤ bytes.length then .ok (bytes.take len)
    else .error (.storage "failed to fill whole buffer")

def setObject (shard segmentId : Nat) (bytes : Bytes) : SharedDir H :=
  dir.insert (sharedSegmentKey shard segmentId) (.object bytes)

end SharedDir

section Segments

variable {H : Type} (K : Hashing H)

/-- `{:016x}` of a finished hash. -/
def digestText (h : H) : String := hex16 (K.finish h)

def segmentDigest (bytes : Bytes) : String := digestText K (K.write K.withSeed bytes)

def getSegment (dir : SharedDir H) (shard segmentId : Nat) : Result (Option Bytes) :=
  match dir.readMeta shard segmentId with
  | none => .ok none
  | some content =>
    match dir.object shard segmentId with
    | none => .error (.storage (s!"shared segment {sharedSegmentKey shard segmentId}: meta " ++
        "present but object bytes missing"))
    | some bytes =>
      if bytes.length < content.byteLen then
        .error (.storage (s!"shared segment {sharedSegmentKey shard segmentId}: length " ++
          s!"{bytes.length} < committed {content.byteLen} (truncated/corrupt)"))
      else if segmentDigest K (bytes.take content.byteLen) ≠ content.digest then
        .error (.storage
          s!"shared segment {sharedSegmentKey shard segmentId}: digest mismatch (bit-rot)")
      else .ok (some (bytes.take content.byteLen))

abbrev SegmentProg (H α : Type) := Prog (SharedDir H) Unit α

def look {α : Type} (f : SharedDir H → α) : SegmentProg H α := .lift fun _ dir => some (f dir, dir)

def change (f : SharedDir H → SharedDir H) : SegmentProg H Unit :=
  .lift fun _ dir => some ((), f dir)

def atomicWrite (name : String) (file : SharedFile H) : SegmentProg H (Result Unit) := do
  change (·.writeTemp name file)
  .lift fun _ dir => some (dir.renameTemp name)

def commitMeta (shard segmentId byteLen : Nat) (hasher : H) (newlyWritten : Bool) :
    SegmentProg H (Result SharedSegmentPutOutcome) := do
  let digest := digestText K hasher
  let written ← atomicWrite (metaName shard segmentId) (.sidecar ⟨byteLen, digest, some hasher⟩)
  return written.map fun _ => ⟨sharedSegmentKey shard segmentId, byteLen, digest, newlyWritten⟩

variable (shard segmentId : Nat)

def putSegment (bytes : Bytes) : SegmentProg H (Result SharedSegmentPutOutcome) := do
  let hasher := K.write K.withSeed bytes
  let existing ← look (·.readMeta shard segmentId)
  if existing.any fun content =>
      content.byteLen = bytes.length && content.digest = digestText K hasher then
    return .ok ⟨sharedSegmentKey shard segmentId, bytes.length, digestText K hasher, false⟩
  else do
    match ← atomicWrite (sharedSegmentKey shard segmentId) (.object bytes) with
    | .error e => return .error e
    | .ok _ => commitMeta K shard segmentId bytes.length hasher true

/-- `write_all` at the end of an object; a crash leaves any part of the bytes. -/
def writeBytes (bytes : Bytes) : SegmentProg H Unit :=
  Prog.foldEach (fun _ byte => change fun dir =>
    dir.setObject shard segmentId ((dir.object shard segmentId).getD [] ++ [byte])) () bytes

/-- The running hash of the committed prefix: the state of the sidecar, if it is one of that length,
or the hash of the bytes themselves. -/
def resumeDigest (shard segmentId committedLen : Nat) : SegmentProg H (Result H) := do
  let prevMeta ← look (·.readMeta shard segmentId)
  match (prevMeta.filter (·.byteLen = committedLen)).bind (·.hasherState) with
  | some state => return .ok state
  | none =>
    if 0 < committedLen then do
      let bytes ← look (·.readObjectPrefix shard segmentId committedLen)
      return bytes.map (K.write K.withSeed)
    else return .ok K.withSeed

/-- `truncate_object`, if there is something behind the committed length. -/
def dropTail (shard segmentId committedLen curObjLen : Nat) : SegmentProg H Unit :=
  if committedLen < curObjLen then
    change fun dir =>
      dir.setObject shard segmentId (((dir.object shard segmentId).getD []).take committedLen)
  else pure ()

/-- `append_segment_impl`. -/
def appendSegment (shard segmentId committedLen : Nat) (delta : Bytes) :
    SegmentProg H (Result SharedSegmentPutOutcome) := do
  match ← resumeDigest K shard segmentId committedLen with
  | .error e => return .error e
  | .ok hasher => do
    let curObjLen ← look (·.objectLen shard segmentId)
    if committedLen = 0 then do
      change (·.setObject shard segmentId [])
      writeBytes shard segmentId delta
      commitMeta K shard segmentId delta.length (K.write hasher delta) (!delta.isEmpty)
    else if curObjLen < committedLen then
      return .error (.storage (s!"append_segment {sharedSegmentKey shard segmentId}: object " ++
        s!"length {curObjLen} < committed {committedLen} (lost/torn shared object)"))
    else do
      dropTail shard segmentId committedLen curObjLen
      writeBytes shard segmentId delta
      commitMeta K shard segmentId (committedLen + delta.length) (K.write hasher delta)
        (!delta.isEmpty)

/-- `put_reclaim_watermark`. -/
def raiseWatermark (shard seq segmentId : Nat) : SegmentProg H (Result Unit) := do
  let current ← look (·.reclaimWatermark shard)
  if segmentId ≤ current.segment ∧ seq ≤ current.seq then return .ok ()
  else
    atomicWrite (watermarkName shard)
      (.watermark ⟨max seq current.seq, max segmentId current.segment⟩)

def deleteSegment : SegmentProg H (Result Unit) := do
  change (·.erase (metaName shard segmentId))
  change (·.erase (sharedSegmentKey shard segmentId))
  return .ok ()

end Segments

/-! `put_reclaim_watermark` over one shared directory: a read of the watermark, then the temporary
file, its sync and its rename. -/

structure PutWatermark where
  shard : Nat
  seq : Nat
  segment : Nat
  deriving DecidableEq

def PutWatermark.pair (put : PutWatermark) : SharedReclaimWatermark := ⟨put.seq, put.segment⟩

namespace SharedReclaimWatermark

def below (low high : SharedReclaimWatermark) : Prop :=
    low.seq ≤ high.seq ∧ low.segment ≤ high.segment

instance (low high : SharedReclaimWatermark) : Decidable (low.below high) :=
  inferInstanceAs (Decidable (_ ∧ _))

def merge (put current : SharedReclaimWatermark) : SharedReclaimWatermark :=
  ⟨max put.seq current.seq, max put.segment current.segment⟩

end SharedReclaimWatermark

structure WatermarkDir (H : Type) where
  dir : SharedDir H
  /-- The calls that have read the watermark of their shard and are going to replace it. -/
  putting : List (Nat × Nat)
  /-- Those that have written the temporary file and not yet renamed it. -/
  writing : List Nat
  puts : List PutWatermark
  /-- Whether two calls were putting a watermark of one shard at a time, or two calls were writing
  at a time. -/
  overlapped : Bool

namespace WatermarkDir

variable {H : Type}

def new (dir : SharedDir H) : WatermarkDir H := ⟨dir, [], [], [], false⟩

/-- Call `i` reads the watermark, and will go on unless that is as high as its own. -/
def begin (i : Nat) (put : PutWatermark) (w : WatermarkDir H) :
    SharedReclaimWatermark × WatermarkDir H :=
  let current := w.dir.reclaimWatermark put.shard
  let w := { w with puts := put :: w.puts }
  if put.pair.below current then (current, w)
  else (current, { w with
    putting := (i, put.shard) :: w.putting
    overlapped := w.overlapped || w.putting.any (·.2 == put.shard) })

def writeTemp (i shard : Nat) (next : SharedReclaimWatermark) (w : WatermarkDir H) :
    WatermarkDir H :=
  { w with
    dir := w.dir.writeTemp (watermarkName shard) (.watermark next)
    writing := i :: w.writing
    overlapped := w.overlapped || !w.writing.isEmpty }

def leave (i : Nat) (w : WatermarkDir H) : WatermarkDir H :=
  { w with
    putting := w.putting.filter (·.1 ≠ i)
    writing := w.writing.filter (· ≠ i) }

def rename (i shard : Nat) (w : WatermarkDir H) : Result Unit × WatermarkDir H :=
  let (result, dir) := w.dir.renameTemp (watermarkName shard)
  (result, { w with dir := dir }.leave i)

end WatermarkDir

variable {H : Type}

def onDir {α : Type} (f : WatermarkDir H → α × WatermarkDir H) : Prog (WatermarkDir H) Unit α :=
  .lift fun _ w => some (f w)

def putReclaimWatermark (i : Nat) (put : PutWatermark) :
    Prog (WatermarkDir H) Unit (Result Unit) := do
  let current ← onDir (·.begin i put)
  if put.pair.below current then return .ok ()
  else do
    onDir fun w => ((), w.writeTemp i put.shard (put.pair.merge current))
    onDir fun w => ((), w)
    onDir (·.rename i put.shard)

def watermarkService (H : Type) :
    Service (WatermarkDir H) Unit PutWatermark (Result Unit) Empty where
  program := putReclaimWatermark
  release := WatermarkDir.leave
  world e := e.elim

/-! `FencedSharedBackend`: a call compares the epoch of its writer with the marker of the shard,
raises the marker, and hands the write on to the backend, in separate steps between which a process
may die. -/

inductive FencingMode where
  | shadow
  | enforce
  deriving DecidableEq

inductive FenceDecision where
  | fresh (epoch : Nat) (advanced : Bool)
  | stale (observed highest : Nat)
  deriving DecidableEq

inductive SharedMutation where
  | putSegment (segmentId : Nat) (bytes : Bytes)
  | appendSegment (segmentId committedLen : Nat) (delta : Bytes)
  | putReclaimWatermark (seq segmentId : Nat)
  | deleteSegment (segmentId : Nat)
  deriving DecidableEq

structure SharedBackend (B ω : Type) where
  mutate : Nat → SharedMutation → Prog B ω (Result Unit)

structure FencedWrite where
  epoch : Nat
  shard : Nat
  mutation : SharedMutation
  deriving DecidableEq

def staleEpochError (shard observed highest : Nat) : EhdbError :=
  .invalidState (s!"stale_epoch: shard {shard} write at epoch {observed} refused; " ++
    s!"store has already accepted epoch {highest}")

def markerName (shard : Nat) : String := "shard-" ++ hex8 shard ++ ".epoch"

def markerTmp (shard : Nat) : String := withExtension (markerName shard) "epoch.tmp"

/-- The files of the ledger, each as the epoch that it holds, and the backend. -/
structure FencedStore (B : Type) where
  ledger : OrderedMap String Nat
  backend : B
  /-- The calls that were let through and are not over, with their shards. -/
  passed : List (Nat × Nat)
  /-- Whether a call was let through while another call of the shard was. -/
  overlapped : Bool

namespace FencedStore

variable {B : Type}

def new (backend : B) : FencedStore B := ⟨.empty, backend, [], false⟩

def highestEpoch (store : FencedStore B) (shard : Nat) : Nat :=
  (store.ledger.find? (markerName shard)).getD 0

def enter (i shard : Nat) (store : FencedStore B) : FencedStore B :=
  { store with
    passed := (i, shard) :: store.passed
    overlapped := store.overlapped || store.passed.any (·.2 == shard) }

def leave (i : Nat) (store : FencedStore B) : FencedStore B :=
  { store with passed := store.passed.filter (·.1 ≠ i) }

/-- Call `i` reads the highest epoch, which is all that the comparison depends on. -/
def readHighest (mode : FencingMode) (i shard epoch : Nat) (store : FencedStore B) :
    Nat × FencedStore B :=
  let highest := store.highestEpoch shard
  if epoch < highest ∧ mode = .enforce then (highest, store) else (highest, store.enter i shard)

/-- The temporary file of `write_marker`: created and written. -/
def writeTmp (shard epoch : Nat) (store : FencedStore B) : FencedStore B :=
  { store with ledger := store.ledger.insert (markerTmp shard) epoch }

def renameTmp (shard : Nat) (store : FencedStore B) : Result Unit × FencedStore B :=
  match store.ledger.find? (markerTmp shard) with
  | some epoch =>
    let ledger := (store.ledger.erase (markerTmp shard)).insert (markerName shard) epoch
    (.ok (), { store with ledger := ledger })
  | none => (.error (.storage noSuchFile), store)

end FencedStore

section

variable {B ω : Type}

abbrev FencedProg (B ω α : Type) := Prog (FencedStore B) ω α

def onLedger {α : Type} (f : FencedStore B → α × FencedStore B) : FencedProg B ω α :=
  .lift fun _ store => some (f store)

def writeMarker (shard epoch : Nat) : FencedProg B ω (Result Unit) := do
  onLedger fun store => ((), store.writeTmp shard epoch)
  onLedger fun store => ((), store)
  onLedger (·.renameTmp shard)

def checkAndAdvance (mode : FencingMode) (i shard epoch : Nat) :
    FencedProg B ω (Result FenceDecision) := do
  let highest ← onLedger (·.readHighest mode i shard epoch)
  if epoch < highest then return .ok (.stale epoch highest)
  else if highest < epoch then do
    let written ← writeMarker shard epoch
    return written.map fun _ => .fresh epoch true
  else return .ok (.fresh epoch false)

def guardWrite (mode : FencingMode) (i shard epoch : Nat) :
    FencedProg B ω (Result FenceDecision) := do
  match ← checkAndAdvance mode i shard epoch with
  | .error e => return .error e
  | .ok (.stale observed highest) =>
    if mode = .enforce then return .error (staleEpochError shard observed highest)
    else return .ok (.stale observed highest)
  | .ok decision => return .ok decision

/-- `put_segment`, `append_segment`, `put_reclaim_watermark` and `delete_segment`. -/
def fencedMutate (inner : SharedBackend B ω) (mode : FencingMode) (i : Nat) (write : FencedWrite) :
    FencedProg B ω (Result Unit) := do
  match ← guardWrite mode i write.shard write.epoch with
  | .error e => do
    onLedger fun store => ((), store.leave i)
    return .error e
  | .ok _ => do
    let result ← (inner.mutate write.shard write.mutation).zoom
      (fun store : FencedStore B => some store.backend)
      (fun backend store => { store with backend := backend })
    onLedger fun store => ((), store.leave i)
    return result

def fencingService (inner : SharedBackend B ω) (mode : FencingMode) :
    Service (FencedStore B) ω FencedWrite (Result Unit) Empty where
  program := fencedMutate inner mode
  release := FencedStore.leave
  world e := e.elim

def filesystemBackend {H : Type} (K : Hashing H) : SharedBackend (SharedDir H) Unit where
  mutate shard
    | .putSegment segmentId bytes => do
      let outcome ← putSegment K shard segmentId bytes
      return outcome.map fun _ => ()
    | .appendSegment segmentId committedLen delta => do
      let outcome ← appendSegment K shard segmentId committedLen delta
      return outcome.map fun _ => ()
    | .putReclaimWatermark seq segmentId => raiseWatermark shard seq segmentId
    | .deleteSegment segmentId => deleteSegment shard segmentId

end

end Ehdb.Reference
