import Ehdb.L0.Run
import Ehdb.Proof.Layout

/-! What is read back from a file that was cut at any byte. -/

namespace Ehdb.Theorems

open L0 Proof ProofKit List

section Frames

variable {bodies frames : List Bytes} {bytes : Bytes}

/-- How many frames lie wholly in the first `cut` bytes. -/
def wholeFrames : List Bytes → Nat → Nat
  | [], _ => 0
  | body :: rest, cut =>
    if (frameBytes body).length ≤ cut then wholeFrames rest (cut - (frameBytes body).length) + 1
    else 0

theorem le_wholeFrames {cut j : Nat} (low : j ≤ bodies.length) :
    ((bodies.take j).flatMap frameBytes).length ≤ cut ↔ j ≤ wholeFrames bodies cut := by
  induction bodies generalizing cut j with
  | nil =>
    obtain rfl : j = 0 := Nat.le_zero.1 low
    simp
  | cons body rest ih =>
    cases j with
    | zero => simp
    | succ j =>
      have inner := @ih (cut - (frameBytes body).length) j (Nat.le_of_succ_le_succ low)
      rw [take_succ_cons, flatMap_cons, length_append, wholeFrames]
      split <;> omega

theorem wholeFrames_le {cut : Nat} : wholeFrames bodies cut ≤ bodies.length := by
  induction bodies generalizing cut with
  | nil => exact le_rfl
  | cons body rest ih =>
    rw [wholeFrames]
    split
    · exact Nat.succ_le_succ ih
    · exact Nat.zero_le _

/-- The first bytes of a run of frames are the frames that lie in them and a torn one. -/
theorem take_frames (small : ∀ body ∈ bodies, body.length ≤ maxFrameBodyBytes) (cut : Nat) :
    ∃ torn, Torn torn ∧ (bodies.flatMap frameBytes).take cut =
      (bodies.take (wholeFrames bodies cut)).flatMap frameBytes ++ torn := by
  induction bodies generalizing cut with
  | nil => exact ⟨[], torn_nil, by simp [wholeFrames]⟩
  | cons body rest ih =>
    rw [wholeFrames, flatMap_cons, take_append]
    split
    · rename_i whole
      obtain ⟨torn, short, eq⟩ := ih (fun b mem => small b (.tail _ mem))
        (cut - (frameBytes body).length)
      exact ⟨torn, short, by rw [eq, take_of_length_le whole]; simp⟩
    · rename_i short
      refine ⟨(frameBytes body).take cut, ⟨body, small body mem_cons_self, take_prefix _ _,
        fun same => ?_⟩, ?_⟩
      · have := congrArg length same
        rw [length_take] at this
        omega
      · rw [Nat.sub_eq_zero_of_le (by omega)]
        simp

theorem mapM_encodeFrame (h : bodies.mapM encodeFrame = .ok frames) :
    (∀ body ∈ bodies, body.length ≤ maxFrameBodyBytes) ∧ frames = bodies.map frameBytes := by
  induction bodies generalizing frames with
  | nil =>
    cases h
    exact ⟨nofun, rfl⟩
  | cons body rest ih =>
    rw [mapM_cons] at h
    simp only [bind, Except.bind, pure, Except.pure] at h
    split at h
    · cases h
    · rename_i frame encoded
      split at h
      · cases h
      · rename_i more encodedRest
        cases h
        obtain ⟨small, rfl⟩ := encodeFrame_eq_ok encoded
        obtain ⟨others, rfl⟩ := ih encodedRest
        exact ⟨forall_mem_cons.2 ⟨small, others⟩, rfl⟩

def boundary (frames : List Bytes) (n : Nat) : Nat := (frames.take n).flatten.length

/-- A byte prefix of encoded frames has `k` whole ones. Decoding from any boundary gives the whole
frames from there on, and gives them as all there is exactly when the prefix ends on a boundary. -/
theorem frames_of_cut_bytes (encoded : bodies.mapM encodeFrame = .ok frames)
    (front : bytes <+: frames.flatten) :
    ∃ k ≤ bodies.length, (∀ j ≤ bodies.length, boundary frames j ≤ bytes.length ↔ j ≤ k) ∧
      ∀ j ≤ k, iterFramesFrom bytes (boundary frames j) =
          .ok (framesOf (boundary frames j) ((bodies.take k).drop j)) ∧
        ((∃ found, iterFramesExact bytes (boundary frames j) = .ok found) ↔
          ∃ n ≤ bodies.length, bytes.length = boundary frames n) := by
  obtain ⟨small, rfl⟩ := mapM_encodeFrame encoded
  have flat (l : List Bytes) : (l.map frameBytes).flatten = l.flatMap frameBytes := rfl
  have starts (n : Nat) : boundary (bodies.map frameBytes) n =
      ((bodies.take n).flatMap frameBytes).length := by
    rw [boundary, ← map_take, flat]
  obtain ⟨torn, short, cut⟩ := take_frames small bytes.length
  rw [← prefix_iff_eq_take.1 (flat bodies ▸ front)] at cut
  have le : wholeFrames bodies bytes.length ≤ bodies.length := wholeFrames_le
  have count (j : Nat) (low : j ≤ bodies.length) := @le_wholeFrames bodies bytes.length j low
  generalize wholeFrames bodies bytes.length = k at cut le count
  subst cut
  refine ⟨k, le, fun j low => by rw [starts]; exact count j low, fun j low => ?_⟩
  have split : (bodies.take k).flatMap frameBytes =
      (bodies.take j).flatMap frameBytes ++ ((bodies.take k).drop j).flatMap frameBytes := by
    rw [← flatMap_append]
    conv_lhs => rw [← take_append_drop j (bodies.take k), take_take, Nat.min_eq_left low]
  have inside : ∀ body ∈ (bodies.take k).drop j, body.length ≤ maxFrameBodyBytes :=
    fun body mem => small body (mem_of_mem_take (mem_of_mem_drop mem))
  have decoded := iterFramesFrom_frames inside short ((bodies.take j).flatMap frameBytes)
  rw [starts, split]
  refine ⟨decoded, ?_⟩
  have finish := framesOf_end ((bodies.take j).flatMap frameBytes).length ((bodies.take k).drop j)
  have exact_iff : (∃ found, iterFramesExact ((bodies.take j).flatMap frameBytes ++
      ((bodies.take k).drop j).flatMap frameBytes ++ torn)
        ((bodies.take j).flatMap frameBytes).length = .ok found) ↔ torn = [] := by
    simp only [iterFramesExact, decoded, finish]
    cases torn with
    | nil => simp
    | cons b rest => simp
  rw [exact_iff, ← split, length_append]
  constructor
  · rintro rfl
    exact ⟨k, le, by rw [starts]; rfl⟩
  · rintro ⟨n, bound, eq⟩
    rw [starts] at eq
    have low' : n ≤ k := (count n bound).1 (by rw [length_append]; omega)
    have : ((bodies.take n).flatMap frameBytes).length ≤
        ((bodies.take k).flatMap frameBytes).length := by
      rw [← Nat.min_eq_left low', ← take_take]
      conv_rhs => rw [← take_append_drop n (bodies.take k), flatMap_append]
      rw [length_append]
      omega
    exact length_eq_zero_iff.1 (by omega)

/-- Three frames, cut in the second. -/
theorem frames_of_cut_byte :
    let frames := [[7], [8, 9], []].map frameBytes
    ∃ k ≤ 3, (∀ j ≤ 3, boundary frames j ≤ 20 ↔ j ≤ k) ∧ k = 1 ∧
      iterFramesFrom (frames.flatten.take 20) 0 = .ok (framesOf 0 [[7]]) := by
  obtain ⟨k, le, count, decoded⟩ := @frames_of_cut_bytes [[7], [8, 9], []]
    ([[7], [8, 9], []].map frameBytes) (([[7], [8, 9], []].map frameBytes).flatten.take 20) rfl
    ( take_prefix _ _)
  have one : 1 ≤ k := (count 1 (by decide)).1 (by decide)
  have not_two : ¬ 2 ≤ k := mt (count 2 (by decide)).2 (by decide)
  obtain rfl : k = 1 := by omega
  exact ⟨1, le, count, rfl, (decoded 0 (Nat.zero_le 1)).1⟩

end Frames

section Parts

variable {R : Type} {C : L0Config R} {records : List R} {w : World R} {shard floor id : Nat}

inductive PartEvent (R : Type) where
  | append (record : R)
  | crash (cut : Nat)

/-- An append, or a crash that leaves the first `cut` bytes of the writer's file and the opening of
the shard's writer after it. -/
def livePart (C : L0Config R) (shard : Nat) (w : World R) : PartEvent R → Result (World R)
  | .append record => .ok (World.appendFrame C shard record w).2
  | .crash cut =>
    match w.engine.writers.lookup shard with
    | none => .error (.invalidState "no writer")
    | some writer => do
      let left := ((w.disk.lookup writer.activePath).getD []).take cut
      let (next, disk) ← openAbove C (w.disk.insert writer.activePath left) shard
        (w.engine.manifest.sealedMax shard)
      return w.setWriter shard next disk

/-- The records of a part, as its file should have them. -/
def keptRecords (D : Dataset R) (records : List R) : PartEvent R → List R
  | .append record =>
    if (D.toVec record).length ≤ maxFrameBodyBytes then records ++ [record] else records
  | .crash cut => records.take (wholeFrames (records.map D.toVec) cut)

/-- Whether the next open takes up the file again: its first frame is whole, and its first key is
above every sealed one. -/
def leavesLive (D : Dataset R) (sealedMax : Nat) (records : List R) : PartEvent R → Bool
  | .append _ => true
  | .crash cut =>
    (keptRecords D records (.crash cut)).head?.any fun first => sealedMax < D.sortKey first

def staysLive (D : Dataset R) (sealedMax : Nat) : List R → List (PartEvent R) → Bool
  | _, [] => true
  | records, event :: rest =>
    leavesLive D sealedMax records event && staysLive D sealedMax (keptRecords D records event) rest

/-- The keys that `choose_live_active` compares with: those of the manifest and of the directory. -/
def sealedKeys (shard : Nat) (w : World R) : Nat :=
  max (w.engine.manifest.sealedMax shard) (sealedMaxInDir w.disk shard)

theorem filterMap_erase_skipped {α β : Type} [BEq α] [LawfulBEq α] {f : α → Option β} {a : α}
    (skipped : f a = none) (l : List α) : (l.erase a).filterMap f = l.filterMap f := by
  induction l with
  | nil => rfl
  | cons b rest ih =>
    rw [erase_cons]
    split
    · rename_i same
      rw [beq_iff_eq.1 same, filterMap_cons_none skipped]
    · rw [filterMap_cons, filterMap_cons, ih]

theorem sealedMaxInDir_insert (disk : Disk) (bytes : Bytes) :
    sealedMaxInDir (disk.insert (.active shard id) bytes) shard = sealedMaxInDir disk shard := by
  rw [sealedMaxInDir, AList.keys_insert, filterMap_cons_none rfl, filterMap_erase_skipped rfl]
  rfl

/-- The choice among copies of one part that starts above the sealed keys. -/
theorem chooseLoop_one {D : Dataset R} {sealedMax first last stop : Nat} {bytes : Bytes}
    (range : activeRange D bytes = .ok (some (first, last, stop))) (above : sealedMax < first)
    {files : List (Nat × Bytes)} (only : ∀ file ∈ files, file = (id, bytes))
    {best : Option (Nat × Nat)} (found : best = some (last, id) ∨ best = none ∧ files ≠ [])
    (floor : Nat) : ∃ floor', chooseLoop D sealedMax files best floor = .ok (some id, floor') := by
  induction files generalizing best floor with
  | nil =>
    obtain rfl : best = some (last, id) := found.resolve_right fun h => h.2 rfl
    exact ⟨floor, rfl⟩
  | cons file rest ih =>
    obtain rfl := only file mem_cons_self
    have next := @ih (fun file mem => only file (.tail _ mem)) _ (.inl rfl) (max floor (id + 1))
    rw [chooseLoop, range]
    simp only [if_neg (Nat.not_le.2 above)]
    rcases found with rfl | ⟨rfl, -⟩
    · simpa [newerActive] using next
    · exact next

/-- The writer and its file are those of a writer that appended `records`, and the file is the only
active one of the shard. -/
structure Lives (C : L0Config R) (shard id sealedMax : Nat) (records : List R) (w : World R) :
    Prop where
  writer : ∃ floor, w.engine.writers.lookup shard =
    some ⟨shard, floor, id, true, partOf C.dataset C.granuleSize records⟩
  file : (w.disk.lookup (.active shard id)).getD [] = bytesOf C.dataset records
  only : ∀ other, (w.disk.lookup (.active shard other)).isSome → other = id
  sealed : sealedKeys shard w = sealedMax
  fits : ∀ r ∈ records, Fits C.dataset r

theorem Lives.setFile {disk : Disk} {bytes : Bytes}
    (only : ∀ other, (disk.lookup (.active shard other)).isSome → other = id) (other : Nat)
    (found : ((disk.insert (.active shard id) bytes).lookup (.active shard other)).isSome) :
    other = id := by
  by_cases same : other = id
  · exact same
  · rw [AList.lookup_insert_ne (by simpa using same)] at found
    exact only other found

/-- The open after a crash takes up the file that was left. -/
theorem Lives.openAbove {sealedMax cut : Nat} (lawful : C.dataset.Lawful)
    (h : Lives C shard id sealedMax records w)
    (live : leavesLive C.dataset sealedMax records (.crash cut)) :
    let kept := keptRecords C.dataset records (.crash cut)
    let disk : Disk := w.disk.insert (.active shard id) ((bytesOf C.dataset records).take cut)
    ∃ floor, openAbove C disk shard (w.engine.manifest.sealedMax shard) =
      .ok (⟨shard, floor, id, true, partOf C.dataset C.granuleSize kept⟩,
        disk.insert (.active shard id) (bytesOf C.dataset kept)) := by
  intro kept disk
  obtain ⟨torn, short, cut_eq⟩ := take_frames (small_bodies h.fits) cut
  have fits : ∀ r ∈ kept, Fits C.dataset r := fun r mem => h.fits r (mem_of_mem_take mem)
  have left : (bytesOf C.dataset records).take cut = bytesOf C.dataset kept ++ torn := by
    rw [bytesOf, cut_eq, ← map_take]
    rfl
  have found : disk.lookup (.active shard id) = some (bytesOf C.dataset kept ++ torn) := by
    rw [← left]
    exact AList.lookup_insert _
  have range := activeRange_torn lawful fits short
  obtain ⟨first, rest, split, above⟩ : ∃ first rest, kept = first :: rest ∧
      sealedMax < C.dataset.sortKey first := by
    obtain ⟨first, head, above⟩ := (Option.any_eq_true _ _).1 live
    exact ⟨first, kept.tail, (cons_head?_tail head).symm, of_decide_eq_true above⟩
  rw [if_neg (by simp [split]), show firstKey C.dataset kept = C.dataset.sortKey first by
    rw [split]; rfl] at range
  have only : ∀ file ∈ activeFiles disk shard, file = (id, bytesOf C.dataset kept ++ torn) := by
    rintro ⟨other, bytes⟩ mem
    have here := mem_activeFiles.1 mem
    obtain rfl := Lives.setFile h.only other (by rw [here]; rfl)
    rw [Option.some.inj (here.symm.trans found)]
  obtain ⟨floor, chosen⟩ := chooseLoop_one range above only
    (.inr ⟨rfl, ne_nil_of_mem (mem_activeFiles.2 found)⟩) 0
  refine ⟨floor, ?_⟩
  have top : max (w.engine.manifest.sealedMax shard) (sealedMaxInDir disk shard) = sealedMax := by
    rw [sealedMaxInDir_insert]
    exact h.sealed
  rw [L0.openAbove, chooseLiveActive, top, chosen]
  exact openActive_torn lawful fits short (congrArg (Option.getD · []) found)

theorem Lives.step {sealedMax : Nat} (lawful : C.dataset.Lawful)
    (h : Lives C shard id sealedMax records w) (event : PartEvent R)
    (live : leavesLive C.dataset sealedMax records event) :
    ∃ w', livePart C shard w event = .ok w' ∧
      Lives C shard id sealedMax (keptRecords C.dataset records event) w' := by
  obtain ⟨floor, writer⟩ := h.writer
  cases event with
  | append record =>
    refine ⟨_, rfl, ?_⟩
    rw [World.appendFrame, writer]
    rcases Nat.lt_or_ge maxFrameBodyBytes (C.dataset.toVec record).length with long | small
    · rw [keptRecords, if_neg (by omega)]
      simp only [encodeRecord, encodeFrame, if_pos long]
      exact h
    · rw [keptRecords, if_pos small]
      simp only [encodeRecord_fits C.dataset small, if_true]
      refine ⟨⟨floor, ?_⟩, ?_, Lives.setFile h.only, ?_, fun r mem => ?_⟩
      · rw [partOf_append_singleton]
        exact AList.lookup_insert _
      · show (AList.lookup _ (AList.insert (LocalPath.active shard id) _ w.disk)).getD [] = _
        rw [AList.lookup_insert, Option.getD_some, bytesOf_append, bytesOf_singleton, ← h.file]
        rfl
      · rw [← h.sealed]
        exact congrArg (max _) (sealedMaxInDir_insert w.disk _)
      · rcases mem_append.1 mem with old | new
        · exact h.fits r old
        · rw [mem_singleton.1 new]
          exact small
  | crash cut =>
    obtain ⟨floor, opened⟩ := h.openAbove lawful live
    simp only [livePart, writer, PartWriter.activePath, h.file, opened]
    refine ⟨_, rfl, ⟨floor, AList.lookup_insert _⟩, by simp [World.setWriter],
      Lives.setFile (Lives.setFile h.only), ?_, fun r mem => h.fits r (mem_of_mem_take mem)⟩
    rw [← h.sealed, sealedKeys, World.setWriter, sealedMaxInDir_insert, sealedMaxInDir_insert]
    rfl

theorem Lives.run {sealedMax : Nat} (lawful : C.dataset.Lawful)
    (h : Lives C shard id sealedMax records w) (events : List (PartEvent R))
    (live : staysLive C.dataset sealedMax records events) :
    ∃ w', events.foldlM (livePart C shard) w = .ok w' ∧
      Lives C shard id sealedMax (events.foldl (keptRecords C.dataset) records) w' := by
  induction events generalizing records w with
  | nil => exact ⟨w, rfl, h⟩
  | cons event rest ih =>
    obtain ⟨first, later⟩ := (Bool.and_eq_true _ _).mp live
    obtain ⟨w', step, lives⟩ := h.step lawful event first
    obtain ⟨w'', run, lives'⟩ := ih lives later
    exact ⟨w'', by rw [foldlM_cons, step]; exact run, lives'⟩

theorem staysLive_appends (D : Dataset R) (sealedMax : Nat) (appended before : List R) :
    staysLive D sealedMax before (appended.map PartEvent.append) := by
  induction appended generalizing before with
  | nil => rfl
  | cons r rest ih => exact ih _

theorem kept_appends (fits : ∀ r ∈ records, Fits C.dataset r) (before : List R) :
    (records.map PartEvent.append).foldl (keptRecords C.dataset) before = before ++ records := by
  induction records generalizing before with
  | nil => simp
  | cons r rest ih =>
    have first : keptRecords C.dataset before (.append r) = before ++ [r] :=
      if_pos (fits r mem_cons_self)
    rw [map_cons, foldl_cons, first, ih fun x mem => fits x (.tail _ mem)]
    simp

/-- A part that starts empty as the only active one of its shard, whatever is appended to it and
wherever its file is cut, as long as the first frame stays whole and its key is above the sealed
ones: the writer's state and the file are those of a writer that appended just the records whose
frames were left whole. -/
theorem recovery_refines_appending (lawful : C.dataset.Lawful)
    (fresh : w.engine.writers.lookup shard = some ⟨shard, floor, id, true, .empty⟩)
    (empty : (w.disk.lookup (.active shard id)).getD [] = [])
    (only : ∀ other, (w.disk.lookup (.active shard other)).isSome → other = id)
    (events : List (PartEvent R)) (live : staysLive C.dataset (sealedKeys shard w) [] events) :
    ∃ lived appended, events.foldlM (livePart C shard) w = .ok lived ∧
      ((events.foldl (keptRecords C.dataset) []).map PartEvent.append).foldlM (livePart C shard) w =
        .ok appended ∧
      (lived.engine.writers.lookup shard).map PartWriter.part =
        (appended.engine.writers.lookup shard).map PartWriter.part ∧
      (lived.engine.writers.lookup shard).map PartWriter.activePath = some (.active shard id) ∧
      (lived.disk.lookup (.active shard id)).getD [] =
        (appended.disk.lookup (.active shard id)).getD [] ∧
      (lived.disk.lookup (.active shard id)).getD [] =
        ((events.foldl (keptRecords C.dataset) []).map C.dataset.toVec).flatMap frameBytes ∧
      (lived.engine.writers.lookup shard).map (fun writer => writer.part.records) =
        some (events.foldl (keptRecords C.dataset) []) := by
  have start : Lives C shard id (sealedKeys shard w) [] w :=
    ⟨⟨floor, fresh⟩, empty, only, rfl, nofun⟩
  obtain ⟨lived, run, lives⟩ := start.run lawful events live
  obtain ⟨appended, run', lives'⟩ := start.run lawful
    ((events.foldl (keptRecords C.dataset) []).map PartEvent.append) (staysLive_appends ..)
  rw [kept_appends lives.fits, nil_append] at lives'
  obtain ⟨_, writer⟩ := lives.writer
  obtain ⟨_, writer'⟩ := lives'.writer
  refine ⟨lived, appended, run, run', ?_, ?_, ?_, lives.file, ?_⟩
  · rw [writer, writer', Option.map_some, Option.map_some]
  · rw [writer]
    rfl
  · rw [lives.file, lives'.file]
  · rw [writer, Option.map_some, partOf_records]

/-- A shard whose writer has just been opened on an empty directory. -/
def freshShard : World Sample :=
  (World.initial (sampleConfig false [] 1 9)).setWriter 0 ⟨0, 0, 0, true, .empty⟩ ∅

theorem recovery_after_torn_frame :
    ∃ lived : World Sample, [PartEvent.append ⟨1, false, false⟩, .append ⟨2, true, true⟩,
        .crash 20, .append ⟨3, false, true⟩, .append ⟨4, true, true⟩, .crash 44].foldlM
          (livePart (sampleConfig false [] 1 9) 0) freshShard = .ok lived ∧
      (lived.engine.writers.lookup 0).map (fun writer => writer.part.records) =
        some [⟨1, false, false⟩, ⟨3, false, true⟩] := by
  obtain ⟨lived, appended, run, -, -, -, -, -, kept⟩ := @recovery_refines_appending _
    (sampleConfig false [] 1 9) freshShard 0 0 0 (sampleDataset_lawful false) rfl rfl nofun
    [.append ⟨1, false, false⟩, .append ⟨2, true, true⟩, .crash 20, .append ⟨3, false, true⟩,
      .append ⟨4, true, true⟩, .crash 44] (by decide)
  exact ⟨lived, run, kept.trans (by decide)⟩

/-- A file whose first frame was cut is not taken up and keeps its torn bytes, and a part that
starts with key 0 is not taken up at all: the new writer has none of its records. -/
theorem first_frame_is_not_recovered :
    (([PartEvent.append ⟨1, false, false⟩, .crash 5].foldlM
        (livePart (sampleConfig false [] 1 9) 0) freshShard).toOption.map fun lived =>
      ((lived.disk.lookup (.active 0 0)).map List.length,
        (lived.engine.writers.lookup 0).map PartWriter.activePath)) =
      some (some 5, some (.active 0 1)) ∧
    (([PartEvent.append ⟨0, false, false⟩, .append ⟨1, false, false⟩, .crash 99].foldlM
        (livePart (sampleConfig false [] 1 9) 0) freshShard).toOption.map fun lived =>
      (lived.engine.writers.lookup 0).map fun writer => writer.part.records) = some (some []) := by
  decide +kernel

end Parts

end Ehdb.Theorems
