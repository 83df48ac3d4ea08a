import Ehdb.Proof.Reference.Fencing
import Ehdb.Proof.Reference.SharedSegments
import Ehdb.Proof.Reference.Watermarks

/-! The append of the shared directory goes by the length that the caller gives, not by the one that
was committed. It keeps what was committed when the two are the same. -/

namespace Ehdb.Theorems

open ProofKit Ehdb.Reference Ehdb.Proof.Reference List

variable {H : Type}

def foldHash : Hashing Nat where
  withSeed := 0
  write h bytes := bytes.foldl (fun h byte => 257 * h + byte.toNat + 1) h
  finish := id
  write_nil _ := rfl
  write_append _ _ _ := (foldl_append ..).symm

abbrev FencedMove (ω : Type) := Move ω FencedWrite Empty

abbrev FencedPool (B ω : Type) := Pool (FencedStore B) ω FencedWrite (L0.Result Unit)

def runFenced {B ω : Type} (inner : SharedBackend B ω) (backend : B) (moves : List (FencedMove ω)) :
    FencedPool B ω := (Pool.start (.new backend)).run (fencingService inner .enforce) moves

/-- In every interleaving in which no call of a shard is let through while another one is: once a
write has succeeded, no action of a call of the shard with a smaller epoch changes the backend. -/
theorem superseded_writes_nothing {B ω : Type} (inner : SharedBackend B ω) (backend : B)
    (moves more : List (FencedMove ω)) (i j : Nat) (o : ω) (write stale : FencedWrite)
    (apart : (runFenced inner backend (moves ++ more ++ [.act j o])).shared.overlapped = false)
    (succeeded : (runFenced inner backend moves).answer i = some (write, .ok ()))
    (issued : (runFenced inner backend (moves ++ more)).calls[j]?.map (·.request) = some stale)
    (same_shard : stale.shard = write.shard) (smaller : stale.epoch < write.epoch) :
    (runFenced inner backend (moves ++ more ++ [.act j o])).shared.backend =
      (runFenced inner backend (moves ++ more)).shared.backend := by
  obtain ⟨ls, tracks⟩ := Pool.run_tracks (fencingService inner .enforce) (fencingProtocol B)
    (follows_fenced inner) (.new backend) moves
  obtain ⟨ls', later, tracks'⟩ := tracks.run (follows_fenced inner) more
  rw [← Pool.run_append] at later tracks'
  have last : runFenced inner backend (moves ++ more ++ [.act j o]) =
      (runFenced inner backend (moves ++ more)).step (fencingService inner .enforce) (.act j o) :=
    Pool.run_append ..
  rw [last] at apart ⊢
  rcases tracks'.acted j o with unchanged | ⟨call, l, l', found, known, step⟩
  · exact congrArg _ unchanged
  have step : FenceStep j _ l _ l' := step
  have before := step.apart apart
  -- The marker has reached the epoch of the write that succeeded, and stays there.
  have marker : write.epoch ≤
      (runFenced inner backend (moves ++ more)).shared.highestEpoch write.shard := by
    obtain ⟨l, at_end, done⟩ := tracks.answered succeeded
    cases done rfl
    obtain ⟨earlier, onward⟩ := (keeps_fenced write.shard write.epoch).later later before
    obtain ⟨⟨sole, -⟩, calls⟩ :=
      (keeps_fenced write.shard 0).reach tracks.reach earlier ⟨Sole.nil, Nat.zero_le _⟩
    exact (onward ⟨⟨sole, (calls _ _ _ at_end).1⟩, calls⟩).1.2
  refine step.backend_of_not_ready fun ready is => ?_
  subst is
  obtain ⟨⟨-, at_marker⟩, asks⟩ := ((keeps_fenced write.shard 0).reach tracks'.reach before
    ⟨Sole.nil, Nat.zero_le _⟩).2 _ _ _ known
  have asked : ready = stale := by
    rw [asks _ rfl]
    exact Option.some.inj ((congrArg (Option.map _) found).symm.trans issued)
  rw [asked, same_shard] at at_marker
  exact absurd (marker.trans at_marker.le) (Nat.not_le.2 smaller)

def writersInTurn : List (FencedMove Unit) :=
  .call ⟨1, 0, .putSegment 7 [1]⟩ :: List.replicate 11 (.act 0 ()) ++
    .call ⟨2, 0, .putSegment 7 [2]⟩ :: List.replicate 11 (.act 1 ())

theorem superseded_writes_nothing_in_turn :
    (runFenced (filesystemBackend foldHash) .empty writersInTurn).answer 1 =
      some (⟨2, 0, .putSegment 7 [2]⟩, .ok ()) ∧ (runFenced (filesystemBackend foldHash) .empty
        (writersInTurn ++ [.call ⟨1, 0, .putSegment 7 [3]⟩] ++ [.act 2 ()])).shared.backend =
      (runFenced (filesystemBackend foldHash) .empty
        (writersInTurn ++ [.call ⟨1, 0, .putSegment 7 [3]⟩])).shared.backend := by
  -- One evaluation of the run serves the three hypotheses.
  refine (fun runs : _ ∧ _ ∧ _ => ⟨runs.1, superseded_writes_nothing (filesystemBackend foldHash)
    .empty writersInTurn [.call ⟨1, 0, .putSegment 7 [3]⟩] 1 2 () _ ⟨1, 0, .putSegment 7 [3]⟩
    runs.2.1 runs.1 runs.2.2 rfl (by decide)⟩) ?_
  decide

/-- The second writer does the whole of its write between the comparison of the first and its
write. -/
def writersAtOnce : List (FencedMove Unit) :=
  .call ⟨1, 0, .putSegment 7 [1]⟩ :: List.replicate 4 (.act 0 ()) ++
    .call ⟨2, 0, .putSegment 7 [2]⟩ :: List.replicate 11 (.act 1 ())

/-- The write of the second is lost to the first, which was superseded. -/
theorem superseded_writer_overwrites :
    (let run := runFenced (filesystemBackend foldHash) .empty writersAtOnce
    run.answer 1 = some (⟨2, 0, .putSegment 7 [2]⟩, .ok ()) ∧
      getSegment foldHash run.shared.backend 0 7 = .ok (some [2])) ∧
    (let run := runFenced (filesystemBackend foldHash) .empty
      (writersAtOnce ++ List.replicate 11 (.act 0 ()))
    run.answer 0 = some (⟨1, 0, .putSegment 7 [1]⟩, .ok ()) ∧
      getSegment foldHash run.shared.backend 0 7 = .ok (some [1])) := by
  decide

abbrev WatermarkMove := Move Unit PutWatermark Empty

def runPuts (H : Type) (moves : List WatermarkMove) : WatermarkDir H :=
  ((Pool.start (.new .empty)).run (watermarkService H) moves).shared

/-- Of any two pairs that are put for one shard, one is at most the other in both parts. -/
def putsInOrder (puts : List PutWatermark) : Prop :=
  ∀ put ∈ puts, ∀ put' ∈ puts, put.shard = put'.shard →
    put.pair.below put'.pair ∨ put'.pair.below put.pair

instance (puts : List PutWatermark) : Decidable (putsInOrder puts) :=
  inferInstanceAs (Decidable (∀ _ ∈ _, ∀ _ ∈ _, _ → _))

/-- In every interleaving in which no two calls use the temporary file at a time, no two calls put a
watermark of one shard at a time, and the pairs that are put for a shard are ordered: the watermark
of a shard is one that was put for it, or none was put yet, and it does not go down. -/
theorem watermarks_stay_apart (H : Type) (moves more : List WatermarkMove)
    (apart : (runPuts H (moves ++ more)).overlapped = false)
    (ordered : putsInOrder (runPuts H (moves ++ more)).puts) (shard : Nat) :
    ((runPuts H (moves ++ more)).dir.reclaimWatermark shard = ⟨0, 0⟩ ∨
      ∃ put ∈ (runPuts H (moves ++ more)).puts, put.shard = shard ∧
        put.pair = (runPuts H (moves ++ more)).dir.reclaimWatermark shard) ∧
    ((runPuts H moves).dir.reclaimWatermark shard).below
      ((runPuts H (moves ++ more)).dir.reclaimWatermark shard) := by
  obtain ⟨ls, tracks⟩ := Pool.run_tracks (watermarkService H) (watermarkProtocol H)
    follows_watermark (.new .empty) moves
  obtain ⟨ls', later, tracks'⟩ := tracks.run follows_watermark more
  rw [← Pool.run_append] at later tracks'
  have calm : Calm (runPuts H (moves ++ more)) := ⟨apart, ordered⟩
  obtain ⟨before, after⟩ := (keeps_watermarks shard _).later later calm
  obtain ⟨separate, sure⟩ := reach_watermarks shard tracks.reach before
  refine ⟨?_, (after ⟨⟨separate, Nat.le_refl _, Nat.le_refl _⟩, sure⟩).1.2⟩
  have separate := (reach_watermarks shard tracks'.reach calm).1
  cases stored : (runPuts H (moves ++ more)).dir.readWatermark shard with
  | none =>
    rw [SharedDir.reclaimWatermark, stored]
    exact .inl rfl
  | some pair =>
    obtain ⟨put, mem, same, is⟩ := separate.stored shard pair stored
    rw [SharedDir.reclaimWatermark, stored]
    exact .inr ⟨put, mem, same, is⟩

def putsInTurn : List WatermarkMove :=
  .call ⟨0, 5, 1⟩ :: List.replicate 4 (.act 0 ()) ++ .call ⟨1, 3, 2⟩ :: List.replicate 4 (.act 1 ())

theorem watermarks_stay_apart_in_turn : (runPuts Unit putsInTurn).dir.reclaimWatermark 0 = ⟨5, 1⟩ ∧
      ((runPuts Unit putsInTurn).dir.reclaimWatermark 0 = ⟨0, 0⟩ ∨
        ∃ put ∈ (runPuts Unit putsInTurn).puts, put.shard = 0 ∧
          put.pair = (runPuts Unit putsInTurn).dir.reclaimWatermark 0) :=
  ⟨by decide, (watermarks_stay_apart Unit [] putsInTurn (by decide)
    (by decide) 0).1⟩

def putsAtOnce : List WatermarkMove :=
  [.call ⟨0, 5, 1⟩, .call ⟨1, 3, 2⟩, .act 0 (), .act 1 (), .act 0 (), .act 1 (), .act 0 (),
    .act 0 ()]

def putsAcross : List WatermarkMove :=
  .call ⟨0, 5, 1⟩ :: List.replicate 4 (.act 0 ()) ++ .call ⟨0, 3, 2⟩ :: List.replicate 4 (.act 1 ())

/-- A shard gets the watermark of another shard, and a watermark that nobody put. -/
theorem watermarks_mix : ((runPuts Unit putsAtOnce).dir.reclaimWatermark 0 = ⟨3, 2⟩ ∧
      (runPuts Unit putsAtOnce).puts = [⟨1, 3, 2⟩, ⟨0, 5, 1⟩]) ∧
    (runPuts Unit putsAcross).dir.reclaimWatermark 0 = ⟨5, 2⟩ ∧
      (runPuts Unit putsAcross).puts = [⟨0, 3, 2⟩, ⟨0, 5, 1⟩] := by
  decide

end Ehdb.Theorems
