import Ehdb.L0.Store
import Ehdb.ProofKit.Prog

/-! One operation on a file or a replica, or one critical section on the shared state. Publication
of a durable view holds the `published` lock over its puts and drops a view that is not newer than
the last one published. -/

namespace Ehdb.L0

open ProofKit

variable {R : Type}

/-- How a replica answers: it does what it is asked, it fails without effect, or it fails after
the effect. -/
inductive Outcome where
  | ok
  | fail
  | failAfter
  deriving DecidableEq

abbrev Action (R α : Type) := Prog (World R) Outcome α

abbrev Fallible (R α : Type) := ExceptT EhdbError (Prog (World R) Outcome) α

def always {α : Type} (p : Action R α) : Fallible R α :=
  ExceptT.lift p

def caught {α : Type} (p : Fallible R α) : Fallible R (Result α) :=
  ExceptT.lift p.run

def ofResult {α : Type} (r : Result α) : Fallible R α :=
  ExceptT.mk (.ret r)

def observe {α : Type} (f : World R → α) : Action R α :=
  .lift fun _ w => some (f w, w)

def update (f : World R → World R) : Action R Unit :=
  .lift fun _ w => some ((), f w)

/-- An operation on the local disk or the process that may be refused. -/
def attempt {α : Type} (f : World R → Result α × World R) : Fallible R α :=
  Prog.lift fun _ w => some (f w)

variable (replica : ReplicaId)

def substrateOp {α : Type} (request : Request) (answer : World R → Result α)
    (effect : World R → World R) : Fallible R α :=
  Prog.lift fun o w =>
    match o with
    | .ok => some (answer w, effect w)
    | .fail =>
      some (.error (.storage "substrate operation failed"), w.log (.fault replica request))
    | .failAfter =>
      some (.error (.storage "substrate operation failed"), (effect w).log (.fault replica request))

def substrateRead {α : Type} (answer : World R → Result α) : Fallible R α :=
  substrateOp replica .read answer fun w => w

namespace World

/-- `put_if_absent` of a part object. -/
def putPart (key : PartKey) (bytes : Bytes) (w : World R) : World R :=
  (w.withReplica replica fun s =>
    { s with parts :=
        if (s.parts.lookup key).isSome then s.parts else s.parts.insert key bytes }).log
    (.offered key bytes)

def deletePart (key : PartKey) (w : World R) : World R :=
  w.withReplica replica fun s => { s with parts := s.parts.erase key }

/-- `put_overwrite` of `LATEST`. -/
def putLatest (view : Manifest) (w : World R) : World R :=
  w.withReplica replica fun s => { s with latest := some view }

/-- `put_if_absent` of a versioned snapshot. -/
def putVersion (view : Manifest) (w : World R) : World R :=
  w.withReplica replica fun s =>
    { s with versions :=
        if (s.versions.lookup view.version).isSome then s.versions
        else s.versions.insert view.version view }

def deleteVersion (version : Nat) (w : World R) : World R :=
  w.withReplica replica fun s => { s with versions := s.versions.erase version }

/-- `put_if_absent` of a tail object. -/
def putTail (key : TailKey) (bytes : Bytes) (w : World R) : World R :=
  w.withReplica replica fun s =>
    { s with tails := if (s.tails.lookup key).isSome then s.tails else s.tails.insert key bytes }

def deleteTail (key : TailKey) (w : World R) : World R :=
  w.withReplica replica fun s => { s with tails := s.tails.erase key }

/-- Take the `published` lock for `view` and raise the high-water mark to its version. -/
def beginPublish (view : Manifest) (w : World R) : World R :=
  w.withEngine fun e => { e with published := view.version, publishing := true }

def endPublish (w : World R) : World R :=
  w.withEngine fun e => { e with publishing := false }

end World

def getPart (key : PartKey) : Fallible R Bytes :=
  substrateRead replica fun w =>
    match (w.replicas replica).parts.lookup key with
    | some bytes => .ok bytes
    | none => .error (.storage "no such object")

/-- A write-once copy to every replica; the answer lists those that took it,
which includes those that already had the key. -/
def replicateBytes (C : L0Config R) (key : PartKey) (bytes : Bytes) :
    Action R (List ReplicaLocation) :=
  Prog.foldEach
    (fun locations replica => do
      match ← (substrateOp replica .putPart (fun _ => .ok ())
          (World.putPart replica key bytes)).run with
      | .ok _ => return locations ++ [⟨replica, key⟩]
      | .error _ => return locations)
    [] C.replicas

def deleteVersions (versions : List Nat) : Action R Unit :=
  Prog.foldEach
    (fun _ version => do
      let _ ← (substrateOp replica .deleteVersion (fun _ => .ok ())
        (World.deleteVersion replica version)).run)
    () versions

/-- The snapshots beyond the newest `retain`. -/
def surplusVersions (retain : Nat) (versions : List Nat) : List Nat :=
  (sortByKey id versions).take (versions.length - retain)

/-- List the snapshots of a replica and delete those beyond the retention bound. -/
def sweepVersions (retain : Nat) (replica : ReplicaId) : Action R Unit := do
  match ← (substrateRead replica fun w => .ok (w.replicas replica).versions.keys).run with
  | .error _ => return
  | .ok versions => deleteVersions replica (surplusVersions retain versions)

/-- Delete the snapshot that just left the window, and sweep on every `retain`-th version. -/
def pruneManifestVersions (C : L0Config R) (latestVersion : Nat) : Action R Unit := do
  let retain := C.manifestRetain
  let evicted := if retain = 0 ∨ latestVersion ≤ retain then [] else [latestVersion - retain]
  Prog.foldEach (fun _ replica => deleteVersions replica evicted) () C.replicas
  let swept := if retain ≠ 0 ∧ latestVersion % retain = 0 then C.replicas else []
  Prog.foldEach (fun _ replica => sweepVersions retain replica) () swept

def publishTo (view : Manifest) (replica : ReplicaId) : Action R Unit := do
  let _ ← (substrateOp replica .putLatest (fun _ => .ok ()) (World.putLatest replica view)).run
  let _ ← (substrateOp replica .putVersion (fun _ => .ok ()) (World.putVersion replica view)).run

/-- `write_manifest_to_all`. Taking the lock blocks while another thread holds it. -/
def writeManifestToAll (C : L0Config R) (view : Manifest) : Action R Unit := do
  let fresh ← Prog.lift fun _ w =>
    if w.engine.publishing then none
    else if view.version ≤ w.engine.published then some (false, w)
    else some (true, w.beginPublish view)
  if fresh then
    Prog.foldEach (fun _ replica => publishTo view replica) () C.replicas
    update World.endPublish
    pruneManifestVersions C view.version

end Ehdb.L0
