import Ehdb.L0.Catalog
import Ehdb.L0.Dataset

/-! The records of one part with its sparse index, and the catalog row it gets. The write path
(`PartWriter::append`), the recovery path (`replay_frames`) and the merge path (`build_merged_part`)
build the marks in loops of their own. -/

namespace Ehdb.L0

open ProofKit

variable {R : Type}

/-- What a `PartWriter` keeps of its active part: the records, the marks, the keys of the first and
the last record, the end of the last frame, and how many records there are. -/
structure ActivePart (R : Type) where
  records : List R
  marks : List GranuleMark
  minSequence : Nat
  maxSequence : Nat
  byteLen : Nat
  recordCount : Nat
  deriving DecidableEq

def ActivePart.empty : ActivePart R := ⟨[], [], 0, 0, 0, 0⟩

def growLastMark (marks : List GranuleMark) : List GranuleMark :=
  marks.modify (marks.length - 1) fun m => { m with recordCount := m.recordCount + 1 }

variable (D : Dataset R)

/-- `PartWriter::append` once the frame of `record` stands in the file. -/
def ActivePart.append (granuleSize : Nat) (part : ActivePart R) (record : R) (frameLen : Nat) :
    ActivePart R :=
  let sortKey := D.sortKey record
  -- start-of-granule mark: the first record of each granule
  let marks :=
    if part.recordCount % max 1 granuleSize = 0 then part.marks ++ [⟨sortKey, part.byteLen, 0⟩]
    else part.marks
  { records := part.records ++ [record]
    marks := growLastMark marks
    minSequence := if part.recordCount = 0 then sortKey else part.minSequence
    maxSequence := sortKey
    byteLen := part.byteLen + frameLen
    recordCount := part.recordCount + 1 }

def encodeRecord (record : R) : Result Bytes :=
  encodeFrame (D.toVec record)

def decodeRecord (body : Bytes) : Result R :=
  match D.fromSlice body with
  | some record => .ok record
  | none => .error (.storage "decode l0 record")

def decodeRecords (frames : List DecodedFrame) : Result (List R) :=
  frames.mapM fun frame => decodeRecord D frame.body

/-- Records replayed from a run of intact frames, with the marks an orderly append would have
produced. -/
structure Replayed (R : Type) where
  records : List R
  marks : List GranuleMark
  minSequence : Nat
  maxSequence : Nat
  intactLen : Nat

def Replayed.empty : Replayed R := ⟨[], [], 0, 0, 0⟩

/-- The loop of `replay_frames`. -/
def replayFrames (D : Dataset R) (granuleSize : Nat) :
    List DecodedFrame → Replayed R → Result (Replayed R)
  | [], out => .ok out
  | frame :: rest, out =>
    match decodeRecord D frame.body with
    | .error e => .error e
    | .ok record =>
      let sortKey := D.sortKey record
      let marks :=
        if out.records.length % max 1 granuleSize = 0 then
          out.marks ++ [⟨sortKey, frame.offset, 0⟩]
        else out.marks
      replayFrames D granuleSize rest
        { records := out.records ++ [record]
          marks := growLastMark marks
          minSequence := if out.records.isEmpty then sortKey else out.minSequence
          maxSequence := sortKey
          intactLen := frame.offset + frame.frameLen }

/-- The fields a writer takes over from what it replayed. -/
def Replayed.toPart (out : Replayed R) : ActivePart R :=
  ⟨out.records, out.marks, out.minSequence, out.maxSequence, out.intactLen, out.records.length⟩

variable (P : Platform)

def bloomSizeFor (D : Dataset R) (records : List R) : Nat :=
  match P.bloomScheme with
  | .legacy => records.length
  | .mixed => (records.map D.indexKey).eraseDups.length

def granuleBloomFor (D : Dataset R) (records : List R) (gsize : Nat)
    (g : Nat) (mark : GranuleMark) : Bloom :=
  let start := min (g * gsize) records.length
  let stop := min (start + mark.recordCount) records.length
  match P.bloomScheme with
  | .legacy => .forExpectedIn P mark.recordCount P.bloomScheme
  | .mixed => .forExpectedIn P (bloomSizeFor P D ((records.take stop).drop start)) P.bloomScheme

/-- Insert the index key of record `i` into the part's filter and into its granule's. -/
def insertIndexKeys (P : Platform) (D : Dataset R) (gsize : Nat) :
    List R → Nat → Bloom × List Bloom → Bloom × List Bloom
  | [], _, blooms => blooms
  | record :: rest, i, (partBloom, granuleBlooms) =>
    let key := D.indexKey record
    insertIndexKeys P D gsize rest (i + 1)
      (partBloom.insert P key, granuleBlooms.modify (i / gsize) fun b => b.insert P key)

def buildIndexBlooms (P : Platform) (D : Dataset R) (records : List R)
    (marks : List GranuleMark) (granuleSize : Nat) : Bloom × List Bloom :=
  let gsize := max 1 granuleSize
  let partBloom := Bloom.forExpectedIn P (bloomSizeFor P D records) P.bloomScheme
  let granuleBlooms := marks.mapIdx (granuleBloomFor P D records gsize)
  insertIndexKeys P D gsize records 0 (partBloom, granuleBlooms)

/-- The row of a part that lives in the file `path` and has no replica yet. -/
def ActivePart.toMeta (D : Dataset R) (granuleSize partition : Nat)
    (path : PartId → LocalPath) (part : ActivePart R) : PartMeta :=
  let partId : PartId := ⟨partition, part.minSequence, part.maxSequence⟩
  let blooms := buildIndexBlooms P D part.records part.marks granuleSize
  { partId := partId
    partition := partition
    minSequence := part.minSequence
    maxSequence := part.maxSequence
    recordCount := part.recordCount
    byteSize := part.byteLen
    replicas := []
    localPath := some (path partId)
    sparseIndex := ⟨max 1 granuleSize, part.marks⟩
    executionBloom := some blooms.1
    granuleBlooms := blooms.2 }

structure SealedPart (R : Type) where
  row : PartMeta
  records : List R

/-- The row of a sealed file that never reached the durable manifest, or
`none` if the bytes are not a clean part of that name. -/
def readSealedPart (D : Dataset R) (granuleSize : Nat) (partId : PartId)
    (bytes : Bytes) : Option (SealedPart R) :=
  match iterFramesFrom bytes 0 with
  | .error _ => none
  | .ok frames =>
    if frames.isEmpty then
      none
    else
      match replayFrames D granuleSize frames .empty with
      | .error _ => none
      | .ok replayed =>
        if replayed.intactLen ≠ bytes.length then
          none
        else if partId ≠ ⟨partId.partition, replayed.minSequence, replayed.maxSequence⟩ then
          none
        else
          some ⟨replayed.toPart.toMeta P D granuleSize partId.partition .sealed, replayed.records⟩

/-- First key, last key and end of the intact frames of an active part. -/
def activeRange (bytes : Bytes) : Result (Option (Nat × Nat × Nat)) := do
  let frames ← iterFramesFrom bytes 0
  match frames.head?, frames.getLast? with
  | some first, some last =>
    let firstRecord ← decodeRecord D first.body
    let lastRecord ← decodeRecord D last.body
    return some (D.sortKey firstRecord, D.sortKey lastRecord, last.offset + last.frameLen)
  | _, _ => return none

/-- The loop of `build_merged_part` over its records from the one with index `i` on: the marks, and
the bytes of the file. -/
def layoutRecords (D : Dataset R) (granuleSize : Nat) :
    List R → Nat → List GranuleMark → Bytes → Result (List GranuleMark × Bytes)
  | [], _, marks, bytes => .ok (marks, bytes)
  | record :: rest, i, marks, bytes =>
    match encodeRecord D record with
    | .error e => .error e
    | .ok frame =>
      let marks :=
        if i % max 1 granuleSize = 0 then marks ++ [⟨D.sortKey record, bytes.length, 0⟩] else marks
      layoutRecords D granuleSize rest (i + 1) (growLastMark marks) (bytes ++ frame)

/-- The merged part of some records, and its file. -/
def layoutMerged (D : Dataset R) (granuleSize : Nat) (records : List R) :
    Result (ActivePart R × Bytes) :=
  match layoutRecords D granuleSize records 0 [] [] with
  | .error e => .error e
  | .ok (marks, bytes) =>
    .ok (⟨records, marks, (records.head?.map D.sortKey).getD 0,
      (records.getLast?.map D.sortKey).getD 0, bytes.length, records.length⟩, bytes)

structure MergePolicy where
  smallPartMaxRecords : Nat
  triggerRunLen : Nat
  maxMergeParts : Nat
  deriving DecidableEq

def MergePolicy.isSmallCandidate (policy : MergePolicy) (part : PartMeta) : Bool :=
  part.isDurable && part.recordCount ≤ policy.smallPartMaxRecords

structure MergePlan where
  partition : Nat
  sourceIds : List PartId
  deriving DecidableEq

/-- The first maximal run of consecutive small parts that is long enough, cut to the policy's
fan-in. Every round consumes a part, so `parts.length` rounds are enough. -/
def findRun (policy : MergePolicy) : Nat → List PartMeta → Option (List PartMeta)
  | 0, _ => none
  | _ + 1, [] => none
  | fuel + 1, part :: rest =>
    if policy.isSmallCandidate part then
      let run := (part :: rest).takeWhile policy.isSmallCandidate
      if run.length ≥ policy.triggerRunLen then
        some (run.take policy.maxMergeParts)
      else
        findRun policy fuel ((part :: rest).dropWhile policy.isSmallCandidate)
    else
      findRun policy fuel rest

def Manifest.partsInPartition (m : Manifest) (partition : Nat) : List PartMeta :=
  sortByKey PartMeta.minSequence (m.parts.filter fun p => p.partition = partition)

def planNextMerge (m : Manifest) (policy : MergePolicy) : Option MergePlan :=
  let partitions := (sortByKey id (m.parts.map PartMeta.partition)).dedup
  partitions.findSome? fun partition =>
    let parts := m.partsInPartition partition
    (findRun policy parts.length parts).map fun run => ⟨partition, run.map PartMeta.partId⟩

/-- Walk an ascending list from its end and keep the last record of each supersede key. A
record without one is always kept. -/
def compactBackwards (D : Dataset R) : List R → List String → List R → List R
  | [], _, kept => kept
  | record :: earlier, seen, kept =>
    match D.supersedeKey record with
    | none => compactBackwards D earlier seen (record :: kept)
    | some key =>
      if key ∈ seen then compactBackwards D earlier seen kept
      else compactBackwards D earlier (key :: seen) (record :: kept)

def compactSuperseded (D : Dataset R) (records : List R) : List R :=
  compactBackwards D records.reverse [] []

structure RetentionPlan where
  dropIds : List PartId
  reclaimedThrough : Nat
  deriving DecidableEq

/-- Drop every part whose keys all lie below `keepFromSequence`. -/
def planRetention (m : Manifest) (keepFromSequence : Nat) : RetentionPlan :=
  let dropped := m.parts.filter fun p => p.maxSequence < keepFromSequence
  { dropIds := dropped.map PartMeta.partId
    reclaimedThrough := (dropped.map PartMeta.maxSequence).foldl max m.reclaimedThrough }

/-- What a manifest accounts for: the retention floor, every part's range, and the ids of the
durable parts. -/
structure Coverage where
  reclaimedThrough : Nat
  ranges : List PartId
  durable : List PartId

def PartId.le (a b : PartId) : Bool :=
  a.partition < b.partition ||
    (a.partition = b.partition && (a.min < b.min || (a.min = b.min && a.max ≤ b.max)))

def Coverage.of (m : Manifest) : Coverage where
  reclaimedThrough := m.reclaimedThrough
  ranges := (m.parts.map fun p =>
    (⟨p.partition, p.minSequence, p.maxSequence⟩ : PartId)).insertionSort
    fun a b => PartId.le a b
  durable := (m.parts.filter PartMeta.isDurable).map PartMeta.partId

/-- Walk the sorted ranges of one shard; `need` is the lowest key not yet shown covered. -/
def Coverage.covers : List PartId → Nat → Nat → Bool
  | [], _, _ => false
  | range :: rest, need, last =>
    if range.max < need then covers rest need last
    else if range.min > need then false
    else if range.max ≥ last then true
    else covers rest (range.max + 1) last

/-- Whether every key of the range is below the floor or inside the union of the shard's part
ranges. -/
def Coverage.superseded (coverage : Coverage) (id : PartId) : Bool :=
  if id.max ≤ coverage.reclaimedThrough then
    true
  else
    covers (coverage.ranges.filter fun r => r.partition = id.partition)
      (Nat.max id.min (coverage.reclaimedThrough + 1)) id.max

def Coverage.objectIsSuperseded (coverage : Coverage) (key : PartKey) : Bool :=
  key.partition = key.partId.partition && coverage.superseded key.partId

/-- Whether an unreferenced local part file may be deleted. Only `.eslog` files are asked. -/
def Coverage.localIsReclaimable (coverage : Coverage) : LocalPath → Bool
  | .sealed id => id ∈ coverage.durable || coverage.superseded id
  | .merged _ => true
  | _ => false

end Ehdb.L0
