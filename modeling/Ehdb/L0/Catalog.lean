import Ehdb.L0.Bloom
import Ehdb.ProofKit.StableSort

/-! One `PartMeta` row per immutable part, in a versioned manifest. Names that the source formats
are kept as what they are formatted from: an object key and a local path as the part id in them. -/

namespace Ehdb.L0

open ProofKit

/-- `shard-<partition>-seq-<min>-<max>`. -/
structure PartId where
  partition : Nat
  min : Nat
  max : Nat
  deriving DecidableEq

/-- A file below `parts/<dataset>` on the local disk. -/
inductive LocalPath where
  /-- `shard-<shard>/part-<id>.active` -/
  | active (shard id : Nat)
  /-- `shard-<p>/<part_id>.eslog` -/
  | sealed (partId : PartId)
  /-- `shard-<p>/merged/<part_id>.eslog` -/
  | merged (partId : PartId)
  /-- `shard-<p>/merged/<part_id>.merge-tmp` -/
  | mergeTmp (partId : PartId)
  deriving DecidableEq

/-- `parts/<dataset>/shard-<partition>/<part_id>.eslog`, the object of a part. -/
structure PartKey where
  partition : Nat
  partId : PartId
  deriving DecidableEq

def substrateKeyFor (partition : Nat) (partId : PartId) : PartKey :=
  ⟨partition, partId⟩

abbrev ReplicaId := Nat

structure ReplicaLocation where
  replica : ReplicaId
  key : PartKey
  deriving DecidableEq

structure GranuleMark where
  firstSequence : Nat
  byteOffset : Nat
  recordCount : Nat
  deriving DecidableEq

structure SparseIndex where
  granuleSize : Nat
  marks : List GranuleMark
  deriving DecidableEq

structure PartMeta where
  partId : PartId
  partition : Nat
  minSequence : Nat
  maxSequence : Nat
  recordCount : Nat
  byteSize : Nat
  replicas : List ReplicaLocation
  localPath : Option LocalPath
  sparseIndex : SparseIndex
  executionBloom : Option Bloom
  granuleBlooms : List Bloom
  deriving DecidableEq

def PartMeta.isDurable (part : PartMeta) : Bool :=
  !part.replicas.isEmpty

structure Manifest where
  version : Nat
  parts : List PartMeta
  reclaimedThrough : Nat
  deriving DecidableEq

namespace Manifest

def empty : Manifest := ⟨0, [], 0⟩

def pushPart (m : Manifest) (part : PartMeta) : Manifest :=
  { m with parts := m.parts ++ [part], version := m.version + 1 }

def durableView (m : Manifest) : Manifest :=
  { m with parts := (m.parts.filter PartMeta.isDurable).map fun p => { p with localPath := none } }

def maxSequence (m : Manifest) : Nat :=
  (m.parts.map PartMeta.maxSequence).foldl max 0

end Manifest

end Ehdb.L0
