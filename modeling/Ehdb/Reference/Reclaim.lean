import Ehdb.Reference.Operations

/-! `reclaim_segments` drops the oldest segments: those that every durable consumer has acked past,
or that a retention cap leaves no room for. -/

namespace Ehdb.Reference

open ProofKit

structure ReclaimPlan where
  reclaimedSegment : Nat
  reclaimedSeq : Nat
  segments : Nat
  watermark : Nat
  deriving DecidableEq

inductive ReclaimPlanOutcome where
  | reclaim (plan : ReclaimPlan)
  | nothing (watermark : Nat) (note : String)
  deriving DecidableEq

namespace DurableSegmentStore

/-- One round of the loop of `segment_last_sequences`. -/
def pushLast (out : List (Nat × Nat)) (segmentId seq : Nat) : List (Nat × Nat) :=
  match out.getLast? with
  | some (seg, _) =>
    if seg = segmentId then out.dropLast ++ [(seg, seq)] else out ++ [(segmentId, seq)]
  | none => out ++ [(segmentId, seq)]

variable (s : DurableSegmentStore)

def segmentLastSequences : List (Nat × Nat) :=
  s.events.zipIdx.foldl
    (fun out e => pushLast out e.1.segmentId (s.reclaimedThrough + e.2 + 1)) []

/-- The state of each consumer: its ack cursor, 0 if it never acked. -/
def consumerCursors : List (String × Nat) :=
  s.consumersSeen.entries.map fun c => (c.1, (s.consumerAcks.find? c.1).getD 0)

/-- The lowest cursor; `none` if there is no consumer. -/
def interestCeiling : Option Nat :=
  (s.consumerCursors.map Prod.snd).min?

def retentionTarget (policy : SegmentGcPolicy) (segLast : List (Nat × Nat)) : Option Nat :=
  policy.maxRetainedSegments.bind fun maxRet =>
    let keepSealed := maxRet - 1
    if segLast.length > keepSealed then
      segLast[segLast.length - keepSealed - 1]?.map Prod.snd
    else none

def reclaimBoundary (target ceiling : Option Nat) : Nat :=
  match target with
  | some rt => match ceiling with
    | some c => min rt c
    | none => rt
  | none => ceiling.getD 0

def nothingNote (ceiling maxRetained : Option Nat) : String :=
  match ceiling, maxRetained with
  | none, none => "no durable consumer and no retention — nothing reclaimable"
  | none, some _ => "retention window not yet exceeded — nothing reclaimable"
  | some 0, _ =>
    "a durable consumer has acked nothing (watermark 0) — nothing reclaimable"
  | _, _ => "effective reclaim boundary is 0 — nothing reclaimable"

/-- The segments that the loop of `plan_reclaim` selects: it stops at the first one that is beyond
the floor, active or needed. -/
def selectReclaimable (maxReclaimable activeSegmentId boundary : Nat)
    (segLast : List (Nat × Nat)) : List (Nat × Nat) :=
  (segLast.take maxReclaimable).takeWhile fun e => e.1 < activeSegmentId && e.2 ≤ boundary

def planReclaim (policy : SegmentGcPolicy) (totalSegments : Nat) : ReclaimPlanOutcome :=
  let segLast := s.segmentLastSequences
  let ceiling := s.interestCeiling
  let boundary := reclaimBoundary (retentionTarget policy segLast) ceiling
  if boundary = 0 then
    .nothing 0 (nothingNote ceiling policy.maxRetainedSegments)
  else
    let keepFloor := max policy.minRetainedSegments 1
    let selected := selectReclaimable (totalSegments - keepFloor) s.activeSegmentId boundary segLast
    match selected.getLast? with
    | none =>
      .nothing boundary
        "no sealed segment fully below the effective boundary within the min-retained floor"
    | some (reclaimedSegment, reclaimedSeq) =>
      .reclaim ⟨reclaimedSegment, reclaimedSeq, selected.length, boundary⟩

section

variable (E : StoreEnv)

/-- Write the state of the consumers forward, commit the manifest, remove the
files, rebuild the index. -/
def applyReclaim (plan : ReclaimPlan) : StoreTask Unit := do
  let s ← Task.memory
  Task.each (fun c : String × Nat => do
    let _ ← writeFrame E (.ack c.1 c.2)
    pure ()) s.consumerCursors
  persistReclaimManifest E ⟨plan.reclaimedSeq, plan.reclaimedSegment⟩
  removeThrough E plan.reclaimedSegment
  replay E
  persistCheckpoint E

def readOnlyReclaim : EhdbError :=
  .invalidState
    "durable event-log: read-only cold-load view cannot reclaim segments (not the shard owner)"

def reclaimedNothing (d : Dir) (enabled : Bool) (watermark : Nat)
    (note : String) : SegmentGcOutcome :=
  ⟨enabled, 0, 0, watermark, s.reclaimedThrough, s.reclaimedSegment, d.segmentIds.length, some note⟩

def reclaimSegments (policy : SegmentGcPolicy) : StoreTask SegmentGcOutcome := do
  let s ← Task.memory
  if s.readOnly then Task.fail readOnlyReclaim
  else if !policy.enabled then
    let d ← readDir
    pure (reclaimedNothing s d false 0 "segment GC disabled")
  else
    ensureIndexLoaded E
    let s ← Task.memory
    let d ← readDir
    match planReclaim s policy d.segmentIds.length with
    | .nothing watermark note => pure (reclaimedNothing s d true watermark note)
    | .reclaim plan =>
      applyReclaim E plan
      let after ← Task.memory
      let d ← readDir
      pure ⟨true, plan.segments, plan.reclaimedSeq - s.reclaimedThrough, plan.watermark,
        after.reclaimedThrough, after.reclaimedSegment, d.segmentIds.length, none⟩

end

end DurableSegmentStore

inductive StoreCall where
  | openStore
  | append (request : EventLogAppendRequest)
  | scan (request : EventLogScanRequest)
  | readExecution (request : EventLogReadExecutionRequest)
  | tail (request : EventLogTailRequest)
  | ack (request : EventLogAckRequest)
  | reclaim (policy : SegmentGcPolicy)
  deriving DecidableEq

inductive StoreAnswer where
  | opened
  | appended (outcome : EventLogAppendOutcome)
  | scanned (outcome : EventLogScanOutcome)
  | read (outcome : EventLogReadExecutionOutcome)
  | tailed (outcome : EventLogTailOutcome)
  | acked (outcome : EventLogAckOutcome)
  | reclaimed (outcome : SegmentGcOutcome)
  deriving DecidableEq

section

variable (E : StoreEnv)

open DurableSegmentStore

def storeTask : StoreCall → StoreTask StoreAnswer
  | .openStore => return .opened
  | .append request => return .appended (← append E request)
  | .scan request => return .scanned (← scanGlobal E request)
  | .readExecution request => return .read (← readExecution E request)
  | .tail request => return .tailed (← tail E request)
  | .ack request => return .acked (← ack E request)
  | .reclaim policy => return .reclaimed (← reclaimSegments E policy)

/-- `open`: the store that was open before is given up. -/
def openDir : Prog Dir IoOutcome (Result StoreAnswer × Option DurableSegmentStore) :=
  ((openInner E false).exec (.initial false)).bind fun r =>
    .ret (r.1.map fun _ => .opened, r.1.toOption.map fun _ => r.2)

/-- A store that is not open serves no call but `open`. -/
def serveStore (call : StoreCall) (memory : Option DurableSegmentStore) :
    Prog Dir IoOutcome (Result StoreAnswer × Option DurableSegmentStore) :=
  match call, memory with
  | .openStore, _ => openDir E
  | _, none => .ret (.error (.invalidState "no open store"), none)
  | call, some s => ((storeTask E call).exec s).bind fun r => .ret (r.1, some r.2)

abbrev StoreHost := Host Dir DurableSegmentStore

def storeThread : Thread StoreHost IoOutcome StoreCall (Result StoreAnswer) :=
  hostThread (serveStore E)

def newHost : StoreHost := ⟨.empty, none⟩

abbrev StoreRun := Solo StoreHost IoOutcome StoreCall (Result StoreAnswer)

def runStore (deeds : List (Deed IoOutcome StoreCall)) : StoreRun :=
  (Solo.start newHost).run (storeThread E) deeds

def StoreEnv.calm : StoreEnv := { E with mayFail := false }

def answerOf (call : StoreCall) (h : StoreHost) : Option (Result StoreAnswer × StoreHost) :=
  ((serveStore E.calm call h.memory).eval (.ok 0) h.disk).map fun r => (r.1.1, ⟨r.2, r.1.2⟩)

end

end Ehdb.Reference
