import Ehdb.Proof.Core.Names
import Ehdb.ProofKit.Exclusion
import Ehdb.Reference.SharedSegments

/-! While no two calls of a shard are let through at a time, a call that works on the backend has
the epoch of the marker, and markers do not go down. -/

namespace Ehdb.Proof.Reference

open ProofKit Ehdb.Reference Proof.Core List
open Ehdb.Core (hex8)
open FencedStore (renameTmp)
open OrderedMap (find?_insert)

variable {B ω : Type} {w w' : FencedStore B} {i : Nat} {write : FencedWrite}

theorem markerTmp_eq (shard : Nat) : markerTmp shard = "shard-" ++ hex8 shard ++ ".epoch.tmp" := by
  have name : (markerName shard).toList =
      ("shard-" ++ hex8 shard).toList ++ '.' :: "epoch".toList := by
    simp [markerName]
  have stem : ("shard-" ++ hex8 shard).toList ≠ [] := by simp
  have last : '.' ∉ "epoch".toList := by decide
  rw [markerTmp, withExtension_of_last _ name stem last, String.append_assoc]
  rfl

variable {shard shard' : Nat}

theorem markerName_injective (same : markerName shard = markerName shard') : shard = shard' := by
  have chars := congrArg String.toList same
  simp only [markerName, String.toList_append, append_cancel_right_eq,
    append_cancel_left_eq] at chars
  exact hex8_injective (String.toList_injective chars)

theorem markerTmp_injective (same : markerTmp shard = markerTmp shard') : shard = shard' := by
  have chars := congrArg String.toList same
  simp only [markerTmp_eq, String.toList_append, append_cancel_right_eq,
    append_cancel_left_eq] at chars
  exact hex8_injective (String.toList_injective chars)

theorem markerName_ne_tmp (shard shard' : Nat) : markerName shard ≠ markerTmp shard' := by
  intro same
  have ends := congrArg (fun name => name.toList.reverse.head?) same
  simp [markerName, markerTmp_eq] at ends

variable {epoch : Nat}

theorem highestEpoch_writeTmp (shard shard' : Nat) :
    (w.writeTmp shard' epoch).highestEpoch shard = w.highestEpoch shard := by
  unfold FencedStore.highestEpoch FencedStore.writeTmp
  rw [find?_insert, if_neg (markerName_ne_tmp shard shard')]

theorem highestEpoch_renameTmp (temp : w.ledger.find? (markerTmp shard) = some epoch)
    (shard' : Nat) :
    (w.renameTmp shard).2.highestEpoch shard' =
      if shard' = shard then epoch else w.highestEpoch shard' := by
  unfold renameTmp
  rw [temp]
  unfold FencedStore.highestEpoch
  rw [find?_insert]
  by_cases same : shard' = shard
  · rw [if_pos (congrArg markerName same), if_pos same]
    rfl
  · rw [if_neg fun h => same (markerName_injective h), if_neg same,
      OrderedMap.find?_erase_of_ne (markerName_ne_tmp shard' shard)]

/-- Where a fenced write stands, from its look at the marker to the write it guards. -/
inductive FenceStage where
  | idle (write : FencedWrite)
  | behind (write : FencedWrite)
  | wroteTmp (write : FencedWrite)
  | ready (write : FencedWrite)
  | accepted (write : FencedWrite)
  | refused

/-- What one step of a fenced write does to the store all writers share. -/
inductive FenceStep (i : Nat) : FencedStore B → FenceStage → FencedStore B → FenceStage → Prop
  | refuse {w : FencedStore B} {write} : FenceStep i w (.idle write) w .refused
  | enterBehind {w : FencedStore B} {write : FencedWrite}
      (lower : w.highestEpoch write.shard < write.epoch) :
      FenceStep i w (.idle write) (w.enter i write.shard) (.behind write)
  | enterReady {w : FencedStore B} {write : FencedWrite}
      (same : w.highestEpoch write.shard = write.epoch) :
      FenceStep i w (.idle write) (w.enter i write.shard) (.ready write)
  | writeTmp {w : FencedStore B} {write} :
      FenceStep i w (.behind write) (w.writeTmp write.shard write.epoch) (.wroteTmp write)
  | sync {w : FencedStore B} {write} : FenceStep i w (.wroteTmp write) w (.wroteTmp write)
  | rename {w : FencedStore B} {write} :
      FenceStep i w (.wroteTmp write) (w.renameTmp write.shard).2 (.ready write)
  | fail {w : FencedStore B} {write : FencedWrite}
      (missing : w.ledger.find? (markerTmp write.shard) = none) :
      FenceStep i w (.wroteTmp write) w .refused
  | mutate {w write backend} :
      FenceStep i w (.ready write) { w with backend := backend } (.ready write)
  | accept {w : FencedStore B} {write} : FenceStep i w (.ready write) (w.leave i) (.accepted write)
  | giveUp {w : FencedStore B} : FenceStep i w .refused (w.leave i) .refused

/-- Fenced writes over one store; an accepted one ends past its guarded write. -/
def fencingProtocol (B : Type) : Protocol (FencedStore B) FencedWrite (Result Unit) FenceStage where
  start := .idle
  next := FenceStep
  done write result l := result = .ok () → l = .accepted write

variable {l : FenceStage}

theorem follows_onLedger {α f Q} (h : ∀ w, ∃ l', FenceStep i w l (f w).2 l' ∧ Q (f w).1 l') :
    Follows (FenceStep i) (onLedger f : FencedProg B ω α) Q l := by
  refine .lift ?_
  intro _ w a w' acted
  have is : f w = (a, w') := Option.some.inj acted
  obtain ⟨l', step, done⟩ := h w
  rw [is] at step done
  exact ⟨l', step, done⟩

theorem follows_writeMarker (write : FencedWrite) :
    Follows (FenceStep i) (writeMarker write.shard write.epoch : FencedProg B ω _)
      (fun result l => l = if result.isOk then .ready write else .refused) (.behind write) := by
  refine .bind (follows_onLedger fun w => ⟨_, .writeTmp, ?_⟩)
  refine .bind (follows_onLedger fun w => ⟨_, .sync, ?_⟩)
  refine follows_onLedger fun w => ?_
  cases temp : w.ledger.find? (markerTmp write.shard) with
  | some epoch =>
    refine ⟨_, .rename, ?_⟩
    simp [renameTmp, temp, Except.isOk, Except.toBool]
  | none =>
    have unchanged : w.renameTmp write.shard = (.error (.storage noSuchFile), w) := by
      simp [renameTmp, temp]
    rw [unchanged]
    exact ⟨_, .fail temp, rfl⟩

theorem follows_guardWrite (write : FencedWrite) :
    Follows (FenceStep i) (guardWrite .enforce i write.shard write.epoch : FencedProg B ω _)
      (fun result l => l = if result.isOk then .ready write else .refused) (.idle write) := by
  refine .bind (.bind (follows_onLedger fun w => ?_))
  unfold FencedStore.readHighest
  rcases Nat.lt_trichotomy write.epoch (w.highestEpoch write.shard) with stale | same | lower
  · rw [if_pos ⟨stale, rfl⟩]
    refine ⟨_, .refuse, ?_⟩
    rw [if_pos stale]
    exact rfl
  · rw [if_neg fun h => absurd h.1 (by omega)]
    refine ⟨_, .enterReady same.symm, ?_⟩
    rw [if_neg (by omega), if_neg (by omega)]
    exact rfl
  · rw [if_neg fun h => absurd h.1 (by omega)]
    refine ⟨_, .enterBehind lower, ?_⟩
    rw [if_neg (by omega), if_pos lower]
    refine .bind ((follows_writeMarker write).mono fun result l is => ?_)
    cases result with
    | ok => exact is
    | error e => exact is

/-- A fenced write runs by the steps of the protocol. -/
theorem follows_fenced (inner : SharedBackend B ω) (i : Nat) (write : FencedWrite) :
    Follows ((fencingProtocol B).next i) ((fencingService inner .enforce).program i write)
      ((fencingProtocol B).done write) ((fencingProtocol B).start write) := by
  refine .bind ((follows_guardWrite write).mono fun result l is => ?_)
  cases result with
  | error e =>
    rw [is]
    exact .bind (follows_onLedger fun w => ⟨_, .giveUp, nofun⟩)
  | ok decision =>
    rw [is]
    refine .bind (Follows.zoom (fun _ : Unit => FenceStage.ready write)
      (Follows.free (l := ())) ?_ ?_)
    · exact fun w _ _ _ _ _ _ => .mutate
    · exact fun result _ _ => .bind (follows_onLedger fun w => ⟨_, .accept, fun _ => rfl⟩)

/-- What a write knows of its shard's marker while no other is inside the same shard. -/
def Fenced (w : FencedStore B) (i : Nat) : FenceStage → Prop
  | .idle _ => True
  | .refused => True
  | .behind write => (i, write.shard) ∈ w.passed ∧ w.highestEpoch write.shard < write.epoch
  | .wroteTmp write => (i, write.shard) ∈ w.passed ∧ w.highestEpoch write.shard < write.epoch ∧
    w.ledger.find? (markerTmp write.shard) = some write.epoch
  | .ready write => (i, write.shard) ∈ w.passed ∧ w.highestEpoch write.shard = write.epoch
  | .accepted write => write.epoch ≤ w.highestEpoch write.shard

variable {l' : FenceStage}

theorem FenceStep.apart (step : FenceStep i w l w' l') (apart : w'.overlapped = false) :
    w.overlapped = false := by
  cases step with
  | enterBehind | enterReady => exact (Bool.or_eq_false_iff.1 apart).1
  | @rename write =>
    have same : (w.renameTmp write.shard).2.overlapped = w.overlapped := by
      unfold renameTmp
      split <;> rfl
    rw [← same]
    exact apart
  | _ => exact apart

theorem passed_renameTmp (shard : Nat) : (w.renameTmp shard).2.passed = w.passed := by
  unfold renameTmp
  split <;> rfl

/-- No step lowers the highest epoch of a shard. -/
theorem FenceStep.raises (step : FenceStep i w l w' l') (known : Fenced w i l) (shard : Nat) :
    w.highestEpoch shard ≤ w'.highestEpoch shard := by
  cases step with
  | writeTmp => exact (highestEpoch_writeTmp shard _).ge
  | rename =>
    obtain ⟨-, lower, temp⟩ := known
    rw [highestEpoch_renameTmp temp]
    split
    · rename_i same
      exact same ▸ lower.le
    · exact le_rfl
  | _ => exact le_rfl

/-- A step keeps what its own writer knows of the marker. -/
theorem FenceStep.keeps (step : FenceStep i w l w' l') (apart : w'.overlapped = false)
    (sole : Sole w.passed) (known : Fenced w i l) : Sole w'.passed ∧ Fenced w' i l' := by
  cases step with
  | refuse => exact ⟨sole, trivial⟩
  | enterBehind lower =>
    exact ⟨sole.enter (Bool.or_eq_false_iff.1 apart).2, mem_cons_self, lower⟩
  | enterReady same => exact ⟨sole.enter (Bool.or_eq_false_iff.1 apart).2, mem_cons_self, same⟩
  | writeTmp =>
    obtain ⟨mine, lower⟩ := known
    refine ⟨sole, mine, (highestEpoch_writeTmp _ _).trans_lt lower, ?_⟩
    unfold FencedStore.writeTmp
    rw [find?_insert, if_pos rfl]
  | sync => exact ⟨sole, known⟩
  | @rename write =>
    obtain ⟨mine, lower, temp⟩ := known
    have passed := passed_renameTmp (w := w) write.shard
    refine ⟨passed ▸ sole, passed ▸ mine, ?_⟩
    rw [highestEpoch_renameTmp temp, if_pos rfl]
  | fail => exact ⟨sole, trivial⟩
  | mutate => exact ⟨sole, known⟩
  | accept => exact ⟨sole.filter _, known.2.ge⟩
  | giveUp => exact ⟨sole.filter _, trivial⟩

variable {j : Nat}

theorem Fenced.of_same (known : Fenced w j l)
    (passed : ∀ shard, (j, shard) ∈ w.passed → (j, shard) ∈ w'.passed)
    (marker : ∀ shard, (j, shard) ∈ w.passed → w'.highestEpoch shard = w.highestEpoch shard)
    (temp : ∀ shard, (j, shard) ∈ w.passed →
      w'.ledger.find? (markerTmp shard) = w.ledger.find? (markerTmp shard))
    (raised : ∀ shard, w.highestEpoch shard ≤ w'.highestEpoch shard) : Fenced w' j l := by
  cases l with
  | idle write => trivial
  | refused => trivial
  | behind write => exact ⟨passed _ known.1, (marker _ known.1).trans_lt known.2⟩
  | wroteTmp write =>
    obtain ⟨mine, lower, is_temp⟩ := known
    exact ⟨passed _ mine, (marker _ mine).trans_lt lower, (temp _ mine).trans is_temp⟩
  | ready write => exact ⟨passed _ known.1, (marker _ known.1).trans known.2⟩
  | accepted write => exact le_trans known (raised _)

theorem Fenced.leave (known : Fenced w j l) (other : j ≠ i) : Fenced (w.leave i) j l :=
  known.of_same (fun _ mem => mem_others mem other) (fun _ _ => rfl)
    (fun _ _ => rfl) fun _ => le_rfl

/-- A step keeps what the other writers know, as they are inside other shards. -/
theorem FenceStep.others {m} (step : FenceStep i w l w' l') (sole : Sole w.passed)
    (known : Fenced w i l) (other : j ≠ i) (theirs : Fenced w j m) : Fenced w' j m := by
  have raised := step.raises known
  -- The shard of a call that was let through is not that of another one.
  have apart {shard shard' : Nat} (mine : (i, shard') ∈ w.passed) (mem : (j, shard) ∈ w.passed) :
      shard ≠ shard' := fun same => other (sole j i shard mem (same ▸ mine))
  cases step with
  | refuse => exact theirs
  | enterBehind | enterReady =>
    exact theirs.of_same (fun _ mem => .tail _ mem) (fun _ _ => rfl) (fun _ _ => rfl)
      raised
  | writeTmp =>
    refine theirs.of_same (fun _ => id) (fun _ _ => highestEpoch_writeTmp _ _) (fun shard mem => ?_)
      raised
    unfold FencedStore.writeTmp
    rw [find?_insert, if_neg fun same => apart known.1 mem (markerTmp_injective same)]
  | sync => exact theirs
  | rename =>
    obtain ⟨mine, lower, temp⟩ := known
    refine theirs.of_same (fun _ mem => ?_) (fun shard mem => ?_) (fun shard mem => ?_) raised
    · rw [passed_renameTmp]
      exact mem
    · rw [highestEpoch_renameTmp temp, if_neg (apart mine mem)]
    · unfold renameTmp
      split
      · rw [find?_insert, if_neg (markerName_ne_tmp _ shard).symm,
          OrderedMap.find?_erase_of_ne fun same => apart mine mem (markerTmp_injective same)]
      · rfl
  | fail => exact theirs
  | mutate => exact theirs.of_same (fun _ => id) (fun _ _ => rfl) (fun _ _ => rfl) raised
  | accept => exact theirs.leave other
  | giveUp => exact theirs.leave other

variable {inner : SharedBackend B ω} {backend : B} {ls : Locals FencedWrite FenceStage}

def FenceStage.write? : FenceStage → Option FencedWrite
  | .idle write | .behind write | .wroteTmp write | .ready write | .accepted write => some write
  | .refused => none

theorem FenceStep.write?_eq (step : FenceStep i w l w' l') (at_write : l'.write? = some write) :
    l.write? = some write := by
  cases step with
  | refuse => cases at_write
  | fail => cases at_write
  | _ => exact at_write

theorem keeps_fenced (shard floor : Nat) :
    (fencingProtocol B).Keeps (fencingService inner .enforce) (fun w => w.overlapped = false)
      (fun w _ => Sole w.passed ∧ floor ≤ w.highestEpoch shard)
      fun w i asked l => Fenced w i l ∧ ∀ write, l.write? = some write → write = asked where
  call _ shared := ⟨shared, trivial, fun _ is => (Option.some.inj is).symm⟩
  act step apart := by
    refine ⟨FenceStep.apart step apart, fun _ shared own => ?_⟩
    obtain ⟨sole, fenced⟩ := FenceStep.keeps step apart shared.1 own.1
    exact ⟨⟨sole, shared.2.trans (FenceStep.raises step own.1 shard)⟩,
      ⟨fenced, fun write is => own.2 write (FenceStep.write?_eq step is)⟩,
      fun other theirs => ⟨FenceStep.others step shared.1 own.1 other theirs.1, theirs.2⟩⟩
  drop apart := ⟨apart, fun shared _ => ⟨⟨shared.1.filter _, shared.2⟩,
    fun other theirs => ⟨theirs.1.leave other, theirs.2⟩⟩⟩
  world e := e.elim

theorem FenceStep.backend_of_not_ready (step : FenceStep i w l w' l')
    (not_ready : ∀ write, l ≠ .ready write) : w'.backend = w.backend := by
  cases step with
  | rename =>
    unfold renameTmp
    split <;> rfl
  | mutate => exact absurd rfl (not_ready _)
  | _ => rfl

end Ehdb.Proof.Reference
