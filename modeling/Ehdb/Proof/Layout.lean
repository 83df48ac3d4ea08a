import Ehdb.L0.Maintain

/-! A part file is the frames of its records. All paths that build a part arrive at the state that
its records determine, and reading the bytes gives the records back. -/

namespace Ehdb.Proof

open L0 ProofKit List

variable {R : Type} (D : Dataset R) (g : Nat)

def Fits (r : R) : Prop := (D.toVec r).length ≤ maxFrameBodyBytes

def bytesOf (records : List R) : Bytes :=
  (records.map D.toVec).flatMap frameBytes

/-- The part of a writer that appended these records. -/
def partOf (records : List R) : ActivePart R :=
  records.foldl (fun part r => part.append D g r (frameBytes (D.toVec r)).length) .empty

def firstKey (records : List R) : Nat := (records.head?.map D.sortKey).getD 0

def lastKey (records : List R) : Nat := (records.getLast?.map D.sortKey).getD 0

@[simp] theorem bytesOf_nil : bytesOf D [] = [] := rfl

@[simp] theorem bytesOf_append (front back : List R) :
    bytesOf D (front ++ back) = bytesOf D front ++ bytesOf D back := by
  simp [bytesOf]

@[simp] theorem bytesOf_singleton (r : R) : bytesOf D [r] = frameBytes (D.toVec r) := by
  simp [bytesOf]

theorem bytesOf_cons (r : R) (rest : List R) :
    bytesOf D (r :: rest) = frameBytes (D.toVec r) ++ bytesOf D rest := by
  simp [bytesOf]

theorem bytesOf_eq_nil {records} : bytesOf D records = [] ↔ records = [] := by
  cases records with
  | nil => simp
  | cons r rest => simp [bytesOf_cons, frameBytes_ne_nil]

theorem encodeRecord_fits {r} (h : Fits D r) : encodeRecord D r = .ok (frameBytes (D.toVec r)) := by
  rw [encodeRecord, encodeFrame, if_neg (Nat.not_lt.2 h), frameBytes]

variable {D g}

theorem partOf_append_singleton (records : List R) (r : R) : partOf D g (records ++ [r]) =
    (partOf D g records).append D g r (frameBytes (D.toVec r)).length := by
  simp [partOf]

@[simp] theorem partOf_nil : partOf D g [] = .empty := rfl

@[simp]
theorem partOf_records (records : List R) : (partOf D g records).records = records := by
  induction records using reverseRecOn with
  | nil => rfl
  | append_singleton front r ih => simp [partOf_append_singleton, ActivePart.append, ih]

@[simp]
theorem partOf_recordCount (records : List R) :
    (partOf D g records).recordCount = records.length := by
  induction records using reverseRecOn with
  | nil => rfl
  | append_singleton front r ih => simp [partOf_append_singleton, ActivePart.append, ih]

@[simp]
theorem partOf_byteLen (records : List R) :
    (partOf D g records).byteLen = (bytesOf D records).length := by
  induction records using reverseRecOn with
  | nil => rfl
  | append_singleton front r ih =>
    rw [partOf_append_singleton, bytesOf_append, length_append, bytesOf_singleton]
    simp only [ActivePart.append, ih]

@[simp]
theorem partOf_minSequence (records : List R) :
    (partOf D g records).minSequence = firstKey D records := by
  induction records using reverseRecOn with
  | nil => rfl
  | append_singleton front r ih =>
    cases front with
    | nil => rfl
    | cons first rest =>
      rw [partOf_append_singleton]
      simp [ActivePart.append, ih, firstKey]

@[simp]
theorem partOf_maxSequence (records : List R) :
    (partOf D g records).maxSequence = lastKey D records := by
  induction records using reverseRecOn with
  | nil => rfl
  | append_singleton front r _ => simp [partOf_append_singleton, ActivePart.append, lastKey]

section Reading

variable {records : List R}

theorem small_bodies (fits : ∀ r ∈ records, Fits D r) :
    ∀ body ∈ records.map D.toVec, body.length ≤ maxFrameBodyBytes := by
  intro body mem
  obtain ⟨r, hr, rfl⟩ := mem_map.mp mem
  exact fits r hr

theorem iterFramesFrom_bytesOf (fits : ∀ r ∈ records, Fits D r) :
    iterFramesFrom (bytesOf D records) 0 = .ok (framesOf 0 (records.map D.toVec)) := by
  simpa [bytesOf] using iterFramesFrom_frames (small_bodies fits) torn_nil []

theorem decodeRecords_framesOf (lawful : D.Lawful) (offset : Nat) (records : List R) :
    decodeRecords D (framesOf offset (records.map D.toVec)) = .ok records := by
  induction records generalizing offset with
  | nil => rfl
  | cons r rest ih =>
    have step := ih (offset + frameHeaderLen + (D.toVec r).length)
    rw [decodeRecords] at step ⊢
    simp only [map_cons, framesOf, mapM_cons, decodeRecord, lawful.fromSlice_toVec]
    simp only [decodeRecord] at step
    rw [step]
    rfl

theorem decodePart_bytesOf (lawful : D.Lawful) (fits : ∀ r ∈ records, Fits D r) :
    decodePart D (bytesOf D records) = .ok records := by
  have frames := iterFramesExact_frames (small_bodies fits) []
  rw [nil_append, length_nil] at frames
  rw [decodePart, bytesOf, frames]
  exact decodeRecords_framesOf lawful 0 records

/-- What replaying the frames of some records has to give: the part of a writer that appended them,
whose counter is the number of its records. -/
def replayOf (D : Dataset R) (g : Nat) (records : List R) : Replayed R :=
  let part := partOf D g records
  ⟨part.records, part.marks, part.minSequence, part.maxSequence, part.byteLen⟩

theorem replayOf_toPart : (replayOf D g records).toPart = partOf D g records := by
  have count := partOf_recordCount (D := D) (g := g) records
  rw [← congrArg length (partOf_records (D := D) (g := g) records)] at count
  simp only [replayOf, Replayed.toPart, ← count]

/-- One frame: `replay_frames` counts the records it has and takes the frame's own offset, `append`
keeps a counter and the end of the file. -/
theorem replayFrames_cons (lawful : D.Lawful) (front : List R) (r : R) (rest : List DecodedFrame) :
    replayFrames D g (⟨(bytesOf D front).length, D.toVec r, frameHeaderLen + (D.toVec r).length⟩ ::
      rest) (replayOf D g front) = replayFrames D g rest (replayOf D g (front ++ [r])) := by
  have empty : front.isEmpty = true ↔ front.length = 0 := by cases front <;> simp
  simp [replayFrames, decodeRecord, lawful.fromSlice_toVec, replayOf, partOf_append_singleton,
    ActivePart.append, empty]

theorem replayFrames_framesOf (lawful : D.Lawful) (front records : List R) :
    replayFrames D g (framesOf (bytesOf D front).length (records.map D.toVec))
      (replayOf D g front) =
      .ok (replayOf D g (front ++ records)) := by
  induction records generalizing front with
  | nil => simp [framesOf, replayFrames]
  | cons r rest ih =>
    have next := ih (front ++ [r])
    rw [bytesOf_append, length_append, bytesOf_singleton, frameBytes_length, ← Nat.add_assoc,
      append_assoc, singleton_append] at next
    rw [map_cons, framesOf, replayFrames_cons lawful, next]

theorem replayFrames_partOf (lawful : D.Lawful) (records : List R) :
    replayFrames D g (framesOf 0 (records.map D.toVec)) .empty = .ok (replayOf D g records) :=
  replayFrames_framesOf lawful [] records

/-- An active file that is opened holds the whole frames of what was there. -/
theorem openActive_torn {C} {records : List R} {torn : Bytes} {disk : Disk}
    {shard floor id : Nat} (lawful : C.dataset.Lawful) (fits : ∀ r ∈ records, Fits C.dataset r)
    (short : Torn torn)
    (found : (disk.lookup (.active shard id)).getD [] = bytesOf C.dataset records ++ torn) :
    openActive C disk shard floor id =
      .ok (⟨shard, floor, id, true, partOf C.dataset C.granuleSize records⟩,
        disk.insert (.active shard id) (bytesOf C.dataset records)) := by
  have recovered : recoverActive C disk (.active shard id) =
      .ok (if records = [] then none else some (partOf C.dataset C.granuleSize records)) := by
    unfold recoverActive
    cases lookup : disk.lookup (.active shard id) with
    | none =>
      rw [lookup, Option.getD_none, eq_comm, append_eq_nil_iff, bytesOf_eq_nil] at found
      simp [found.1]
    | some bytes =>
      rw [lookup, Option.getD_some] at found
      have frames := iterFramesFrom_frames (small_bodies fits) short []
      rw [nil_append, length_nil, ← bytesOf, ← found] at frames
      simp only [frames]
      cases records with
      | nil => rfl
      | cons r rest =>
        have replay := replayFrames_partOf (g := C.granuleSize) lawful (r :: rest)
        simp only [map_cons, framesOf] at replay ⊢
        rw [replay]
        exact congrArg (fun part => Except.ok (some part)) replayOf_toPart
  unfold openActive
  simp only [recovered]
  by_cases empty : records = []
  · subst empty
    rfl
  · simp [empty, found]

theorem activeRange_torn {torn : Bytes} (lawful : D.Lawful) (fits : ∀ r ∈ records, Fits D r)
    (short : Torn torn) :
    activeRange D (bytesOf D records ++ torn) = .ok (if records = [] then none
      else some (firstKey D records, lastKey D records, (bytesOf D records).length)) := by
  have frames := iterFramesFrom_frames (small_bodies fits) short []
  rw [nil_append, length_nil, ← bytesOf] at frames
  unfold activeRange
  rw [frames]
  cases records using reverseRecOn with
  | nil => rfl
  | append_singleton front last =>
    have finish := framesOf_end 0 ((front ++ [last]).map D.toVec)
    have lastFrame : (framesOf 0 ((front ++ [last]).map D.toVec)).getLast? =
        some ⟨0 + ((front.map D.toVec).flatMap frameBytes).length, D.toVec last,
          frameHeaderLen + (D.toVec last).length⟩ := by
      rw [map_append, framesOf_append]
      simp [framesOf]
    have firstFrame : ∃ frame, (framesOf 0 ((front ++ [last]).map D.toVec)).head? = some frame ∧
        decodeRecord D frame.body = .ok ((front ++ [last]).head (by simp)) := by
      cases front with
      | nil => exact ⟨_, rfl, by simp [decodeRecord, lawful.fromSlice_toVec]⟩
      | cons a as => exact ⟨_, rfl, by simp [decodeRecord, lawful.fromSlice_toVec]⟩
    obtain ⟨frame, head, decoded⟩ := firstFrame
    rw [lastFrame] at finish
    simp only [Option.map_some, Option.getD_some, Nat.zero_add] at finish
    have firstKeyEq : D.sortKey ((front ++ [last]).head (by simp)) =
        firstKey D (front ++ [last]) := by
      rw [firstKey, head?_eq_some_head (by simp)]
      rfl
    have lastDecoded : decodeRecord D (D.toVec last) = .ok last := by
      rw [decodeRecord, lawful.fromSlice_toVec]
    simp only [bind, Except.bind, head, lastFrame, decoded, lastDecoded, Nat.zero_add, finish,
      firstKeyEq]
    simp [pure, Except.pure, lastKey, bytesOf]

theorem mem_activeFiles {disk : Disk} {shard id : Nat} {bytes : Bytes} :
    (id, bytes) ∈ activeFiles disk shard ↔ disk.lookup (.active shard id) = some bytes := by
  rw [activeFiles, mem_filterMap, ← Option.mem_def, AList.mem_lookup_iff]
  constructor
  · rintro ⟨⟨path, b⟩, mem, eq⟩
    cases path with
    | active s i =>
      dsimp only at eq
      split at eq
      · rename_i same
        obtain ⟨rfl, rfl⟩ := Prod.mk.inj (Option.some.inj eq)
        exact same ▸ mem
      · cases eq
    | sealed | merged | mergeTmp => cases eq
  · intro mem
    exact ⟨_, mem, if_pos rfl⟩

theorem layoutRecords_partOf (front : List R) (fits : ∀ r ∈ records, Fits D r) :
    layoutRecords D g records front.length (partOf D g front).marks (bytesOf D front) =
      .ok ((partOf D g (front ++ records)).marks, bytesOf D (front ++ records)) := by
  induction records generalizing front with
  | nil => simp [layoutRecords]
  | cons r rest ih =>
    have next := ih (front ++ [r]) fun x mem => fits x (.tail _ mem)
    rw [layoutRecords, encodeRecord_fits D (fits r mem_cons_self)]
    simpa [partOf_append_singleton, ActivePart.append] using next

theorem layoutMerged_bytesOf (fits : ∀ r ∈ records, Fits D r) :
    layoutMerged D g records = .ok (partOf D g records, bytesOf D records) := by
  have laidOut := layoutRecords_partOf (g := g) [] fits
  have whole : (replayOf D g records).toPart = _ := replayOf_toPart
  simp only [replayOf, Replayed.toPart, partOf_records, partOf_byteLen, partOf_minSequence,
    partOf_maxSequence] at whole
  unfold layoutMerged
  rw [show layoutRecords D g records 0 [] [] = _ from laidOut]
  exact congrArg (fun part => Except.ok (part, bytesOf D records)) whole

end Reading

end Ehdb.Proof
