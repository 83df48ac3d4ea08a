import Ehdb.L0.Actions

/-! Choosing and replaying the active file a process left behind, appending a frame, and sealing the
active part into an immutable file. -/

namespace Ehdb.L0

open ProofKit

variable {R : Type}

def sealedMaxInDir (disk : Disk) (shard : Nat) : Nat :=
  (disk.keys.filterMap fun
    | .sealed id => if id.partition = shard then some id.max else none
    | _ => none).foldl max 0

def activeFiles (disk : Disk) (shard : Nat) : List (Nat × Bytes) :=
  disk.entries.filterMap fun
    | ⟨.active s id, bytes⟩ => if s = shard then some (id, bytes) else none
    | _ => none

/-- `(last sort key, id)` pairs in lexicographic order. -/
def newerActive (candidate best : Nat × Nat) : Bool :=
  candidate.1 > best.1 || (candidate.1 = best.1 && candidate.2 > best.2)

/-- The loop of `choose_live_active`: the best candidate so far and the first unused id. -/
def chooseLoop (D : Dataset R) (sealedMax : Nat) :
    List (Nat × Bytes) → Option (Nat × Nat) → Nat → Result (Option Nat × Nat)
  | [], best, floor => .ok (best.map Prod.snd, floor)
  | (id, bytes) :: rest, best, floor =>
    match activeRange D bytes with
    | .error e => .error e
    | .ok none => chooseLoop D sealedMax rest best (max floor (id + 1))
    | .ok (some (firstKey, lastKey, _)) =>
      -- a part that starts at or below a sealed key is never the live one
      if firstKey ≤ sealedMax then
        chooseLoop D sealedMax rest best (max floor (id + 1))
      else
        let best := match best with
          | none => some (lastKey, id)
          | some b => if newerActive (lastKey, id) b then some (lastKey, id) else some b
        chooseLoop D sealedMax rest best (max floor (id + 1))

def chooseLiveActive (D : Dataset R) (disk : Disk) (shard sealedMax : Nat) :
    Result (Option Nat × Nat) :=
  chooseLoop D (max sealedMax (sealedMaxInDir disk shard)) (activeFiles disk shard) none 0

/-- The part an active file holds, or `none` if there is nothing intact. -/
def recoverActive (C : L0Config R) (disk : Disk) (path : LocalPath) :
    Result (Option (ActivePart R)) :=
  match disk.lookup path with
  | none => .ok none
  | some bytes =>
    match iterFramesFrom bytes 0 with
    | .error e => .error e
    | .ok [] => .ok none
    | .ok frames =>
      match replayFrames C.dataset C.granuleSize frames .empty with
      | .error e => .error e
      | .ok replayed => .ok (some replayed.toPart)

/-- Replay what the file holds, cutting a torn tail, or start an empty file. -/
def openActive (C : L0Config R) (disk : Disk) (partition freshIdFloor localId : Nat) :
    Result (PartWriter R × Disk) :=
  let path := LocalPath.active partition localId
  match recoverActive C disk path with
  | .error e => .error e
  | .ok (some part) =>
    .ok (⟨partition, freshIdFloor, localId, true, part⟩,
      disk.insert path (((disk.lookup path).getD []).take part.byteLen))
  | .ok none => .ok (⟨partition, freshIdFloor, localId, true, .empty⟩, disk.insert path [])

def openAbove (C : L0Config R) (disk : Disk) (shard sealedMax : Nat) :
    Result (PartWriter R × Disk) :=
  match chooseLiveActive C.dataset disk shard sealedMax with
  | .error e => .error e
  | .ok (live, floor) => openActive C disk shard floor (live.getD floor)

def Manifest.sealedMax (m : Manifest) (shard : Nat) : Nat :=
  ((m.parts.filter fun p => p.partition = shard).map PartMeta.maxSequence).foldl max 0

def raiseTail (tails : AList fun _ : Nat => Nat) (shard key : Nat) : AList fun _ : Nat => Nat :=
  tails.insert shard (max key ((tails.lookup shard).getD key))

def rememberAll (D : Dataset R) (dedupe : DedupeIndex) (shard : Nat) (records : List R) :
    DedupeIndex :=
  records.foldl
    (fun index r =>
      match D.dedupeKey r with
      | some key => index.remember shard key (D.sortKey r)
      | none => index)
    dedupe

/-- Count records found on disk: lift the tip and the shard tail, and seed the idempotency
window. -/
def Engine.countRecovered (C : L0Config R) (e : Engine R) (shard maxSequence : Nat)
    (records : List R) : Engine R :=
  { e with
    globalSequence := max e.globalSequence maxSequence
    shardTailMax := raiseTail e.shardTailMax shard maxSequence
    dedupe := rememberAll C.dataset e.dedupe shard records }

/-- Take over the writer of a shard and the disk it was opened on, and count its records. -/
def World.installWriter (C : L0Config R) (shard : Nat) (writer : PartWriter R) (disk : Disk)
    (w : World R) : World R :=
  let e := if writer.part.records.isEmpty then w.engine
    else w.engine.countRecovered C shard writer.part.maxSequence writer.part.records
  { w with disk := disk, engine := { e with writers := e.writers.insert shard writer } }

def World.ensureWriter (C : L0Config R) (shard : Nat) (w : World R) : Result Unit × World R :=
  if (w.engine.writers.lookup shard).isSome then
    (.ok (), w)
  else
    match openAbove C w.disk shard (w.engine.manifest.sealedMax shard) with
    | .error e => (.error e, w)
    | .ok (writer, disk) => (.ok (), w.installWriter C shard writer disk)

variable {C : L0Config R} {shard : Nat} {w w' : World R} {e : EhdbError}

theorem ensureWriter_error (h : World.ensureWriter C shard w = (.error e, w')) : w' = w := by
  unfold World.ensureWriter at h
  split at h
  · simp at h
  · split at h
    · exact (Prod.mk.inj h).2.symm
    · simp at h

theorem ensureWriter_ok (h : World.ensureWriter C shard w = (.ok (), w')) :
    ((w.engine.writers.lookup shard).isSome ∧ w' = w) ∨
      ∃ writer disk, w.engine.writers.lookup shard = none ∧
        openAbove C w.disk shard (w.engine.manifest.sealedMax shard) = .ok (writer, disk) ∧
        w' = w.installWriter C shard writer disk := by
  unfold World.ensureWriter at h
  split at h
  · rename_i isOpen
    exact .inl ⟨isOpen, (Prod.mk.inj h).2.symm⟩
  · rename_i closed
    split at h
    · simp at h
    · rename_i writer disk opened
      refine .inr ⟨writer, disk, by simpa using closed, opened, (Prod.mk.inj h).2.symm⟩

/-- The frame of `record` stands in the active file of `writer` and the record is counted. -/
def World.pushFrame (C : L0Config R) (shard : Nat) (writer : PartWriter R) (record : R)
    (frame : Bytes) (w : World R) : World R :=
  let sortKey := C.dataset.sortKey record
  let bytes := (w.disk.lookup writer.activePath).getD []
  let part := writer.part.append C.dataset C.granuleSize record frame.length
  let outOfOrder := match w.engine.shardTailMax.lookup shard with
    | some prev => decide (sortKey ≤ prev)
    | none => false
  let e := w.engine
  { w with
    disk := w.disk.insert writer.activePath (bytes ++ frame)
    engine := { e with
      writers := e.writers.insert shard { writer with part := part }
      shardTailMax := if outOfOrder then e.shardTailMax else e.shardTailMax.insert shard sortKey
      dedupe := rememberAll C.dataset e.dedupe shard [record]
      globalSequence := max e.globalSequence sortKey }
    trace := .appended record :: w.trace }

/-- Write the frame of `record` to the shard's active file and count it. -/
def World.appendFrame (C : L0Config R) (shard : Nat) (record : R) (w : World R) :
    Result Unit × World R :=
  match w.engine.writers.lookup shard with
  | none => (.error (.invalidState "no writer"), w)
  | some writer =>
    match encodeRecord C.dataset record with
    | .error e => (.error e, w)
    | .ok frame =>
      if writer.hasFile then
        (.ok (), w.pushFrame C shard writer record frame)
      else
        (.error (.invalidState "l0 part writer has no active file"), w)

variable {record : R}

theorem appendFrame_ok (h : World.appendFrame C shard record w = (.ok (), w')) :
    ∃ writer frame, w.engine.writers.lookup shard = some writer ∧ writer.hasFile = true ∧
      encodeRecord C.dataset record = .ok frame ∧ w' = w.pushFrame C shard writer record frame := by
  unfold World.appendFrame at h
  split at h
  · simp at h
  · rename_i writer found
    split at h
    · simp at h
    · rename_i frame encoded
      split at h
      · rename_i hasFile
        exact ⟨writer, frame, found, hasFile, encoded, (Prod.mk.inj h).2.symm⟩
      · simp at h

theorem appendFrame_error (h : World.appendFrame C shard record w = (.error e, w')) : w' = w := by
  unfold World.appendFrame at h
  split at h
  · exact (Prod.mk.inj h).2.symm
  · split at h
    · exact (Prod.mk.inj h).2.symm
    · split at h
      · simp at h
      · exact (Prod.mk.inj h).2.symm

def PartWriter.sealedId (writer : PartWriter R) : PartId :=
  ⟨writer.partition, writer.part.minSequence, writer.part.maxSequence⟩

def PartWriter.sealedPart (C : L0Config R) (writer : PartWriter R) : SealedPart R :=
  ⟨writer.part.toMeta C.platform C.dataset C.granuleSize writer.partition .sealed,
    writer.part.records⟩

def PartWriter.nextId (writer : PartWriter R) : Nat :=
  max (writer.nextLocalId + 1) writer.freshIdFloor

def World.setWriter (shard : Nat) (writer : PartWriter R) (disk : Disk) (w : World R) : World R :=
  { w with
    disk := disk
    engine := { w.engine with writers := w.engine.writers.insert shard writer } }

/-- Open the next active file of a writer whose active part was renamed away. -/
def World.reopenActive (C : L0Config R) (shard : Nat) (writer : PartWriter R) (w : World R) :
    Result Unit × World R :=
  match openActive C w.disk writer.partition writer.freshIdFloor writer.nextId with
  | .ok (next, disk) => (.ok (), w.setWriter shard next disk)
  | .error e =>
    (.error e, w.setWriter shard
      ⟨writer.partition, writer.freshIdFloor, writer.nextId, false, .empty⟩ w.disk)

variable {writer : PartWriter R}

theorem reopenActive_ok (h : World.reopenActive C shard writer w = (.ok (), w')) :
    ∃ next disk, openActive C w.disk writer.partition writer.freshIdFloor writer.nextId =
      .ok (next, disk) ∧ w' = w.setWriter shard next disk := by
  unfold World.reopenActive at h
  split at h
  · rename_i next disk opened
    exact ⟨next, disk, opened, (Prod.mk.inj h).2.symm⟩
  · simp at h

theorem reopenActive_error (h : World.reopenActive C shard writer w = (.error e, w')) :
    openActive C w.disk writer.partition writer.freshIdFloor writer.nextId = .error e ∧
      w' = w.setWriter shard
        ⟨writer.partition, writer.freshIdFloor, writer.nextId, false, .empty⟩ w.disk := by
  unfold World.reopenActive at h
  split at h
  · simp at h
  · rename_i e' failed
    obtain ⟨h, rfl⟩ := Prod.mk.inj h
    cases h
    exact ⟨failed, rfl⟩

def World.sealFile (w : World R) (path : LocalPath) (id : PartId) : World R :=
  (w.renameFile path (.sealed id)).log (.sealed id)

/-- Rename the active file of the writer of `shard`, unless there is nothing to seal. -/
def World.renameActive (shard : Nat) (w : World R) : Option (PartWriter R) × World R :=
  match w.engine.writers.lookup shard with
  | none => (none, w)
  | some writer =>
    if writer.part.records.isEmpty then (none, w)
    else (some writer, w.sealFile writer.activePath writer.sealedId)

theorem renameActive_some (h : World.renameActive shard w = (some writer, w')) :
    w.engine.writers.lookup shard = some writer ∧ writer.part.records ≠ [] ∧
      w' = w.sealFile writer.activePath writer.sealedId := by
  unfold World.renameActive at h
  split at h
  · simp at h
  · rename_i found
    split at h
    · simp at h
    · rename_i filled
      obtain ⟨⟨⟩, rfl⟩ := Prod.mk.inj h
      exact ⟨found, by simpa using filled, rfl⟩

/-- `PartWriter::seal` for the writer of `shard`; `none` if there is nothing to seal. -/
def sealWriter (C : L0Config R) (shard : Nat) : Fallible R (Option (SealedPart R)) := do
  match ← always (.lift fun _ w => some (w.renameActive shard)) with
  | none => return none
  | some writer =>
    attempt (World.reopenActive C shard writer)
    return some (writer.sealedPart C)

end Ehdb.L0
