import Ehdb.Proof.Core.Names
import Ehdb.ProofKit.Exclusion
import Ehdb.Reference.SharedSegments

/-! Every shard has a watermark file of its own, and all of them have the same temporary file. While
one call at a time uses it, what is stored for a shard was put for it. -/

namespace Ehdb.Proof.Reference

open ProofKit Ehdb.Reference Ehdb.Core Proof.Core List
open SharedDir (readWatermark reclaimWatermark renameTemp writeTemp)

variable {H : Type} {w w' : WatermarkDir H} {i : Nat} {put : PutWatermark} {shard : Nat}

def watermarkTmp : String := "noetl.ehdb.rw.tmp"

theorem tmpName_watermark (shard : Nat) : tmpName (watermarkName shard) = watermarkTmp := by
  have name : (watermarkName shard).toList = "noetl.ehdb.rw".toList ++ '.' :: hexPad 8 shard := by
    delta watermarkName
    simp [hex8]
  exact withExtension_of_last _ name (by decide) (dot_notMem_hexPad 8 shard)

variable {shard' : Nat}

theorem watermarkName_injective {shard} (same : watermarkName shard = watermarkName shard') :
    shard = shard' := by
  delta watermarkName at same
  have chars := congrArg String.toList same
  simp only [String.toList_append, append_cancel_left_eq] at chars
  exact hex8_injective (String.toList_injective chars)

theorem watermarkName_ne_tmp (shard : Nat) : watermarkName shard ≠ watermarkTmp := by
  intro same
  delta watermarkName at same
  have lengths := congrArg (fun name => name.toList.length) same
  have long := length_hexPad 8 shard
  simp [watermarkTmp, hex8] at lengths
  omega

variable {dir : SharedDir H} {file : SharedFile H}

theorem readWatermark_writeTemp :
    (dir.writeTemp (watermarkName shard') file).readWatermark shard = dir.readWatermark shard := by
  unfold writeTemp
  rw [tmpName_watermark]
  unfold readWatermark
  rw [OrderedMap.find?_insert, if_neg (watermarkName_ne_tmp shard)]

variable {next : SharedReclaimWatermark}

inductive PutStage where
  | idle (put : PutWatermark)
  | chose (put : PutWatermark) (current : SharedReclaimWatermark)
  | wrote (put : PutWatermark) (next : SharedReclaimWatermark)
  | ended

/-- What one step of a put does to the directory. -/
inductive PutStep (i : Nat) : WatermarkDir H → PutStage → WatermarkDir H → PutStage → Prop
  | skip {w : WatermarkDir H} {put} :
      PutStep i w (.idle put) { w with puts := put :: w.puts } .ended
  | begin {w : WatermarkDir H} {put : PutWatermark}
      (higher : ¬put.pair.below (w.dir.reclaimWatermark put.shard)) : PutStep i w (.idle put)
        { w with
          puts := put :: w.puts
          putting := (i, put.shard) :: w.putting
          overlapped := w.overlapped || w.putting.any (·.2 == put.shard) }
        (.chose put (w.dir.reclaimWatermark put.shard))
  | write {w put current} :
      PutStep i w (.chose put current) (w.writeTemp i put.shard (put.pair.merge current))
        (.wrote put (put.pair.merge current))
  | sync {w : WatermarkDir H} {put next} : PutStep i w (.wrote put next) w (.wrote put next)
  | rename {w : WatermarkDir H} {put next} :
      PutStep i w (.wrote put next) (w.rename i put.shard).2 .ended

def watermarkProtocol (H : Type) :
    Protocol (WatermarkDir H) PutWatermark (Result Unit) PutStage where
  start := .idle
  next := PutStep
  done _ _ _ := True

variable {l : PutStage}

theorem follows_onDir {α : Type} {f : WatermarkDir H → α × WatermarkDir H} {Q : α → PutStage → Prop}
    (h : ∀ w, ∃ l', PutStep i w l (f w).2 l' ∧ Q (f w).1 l') :
    Follows (PutStep i) (onDir f) Q l := by
  refine .lift ?_
  intro _ w a w' acted
  have is : f w = (a, w') := Option.some.inj acted
  obtain ⟨l', step, done⟩ := h w
  rw [is] at step done
  exact ⟨l', step, done⟩

theorem follows_watermark (i : Nat) (put : PutWatermark) :
    Follows ((watermarkProtocol H).next i) ((watermarkService H).program i put)
      ((watermarkProtocol H).done put) ((watermarkProtocol H).start put) := by
  refine .bind (follows_onDir fun w => ?_)
  unfold WatermarkDir.begin
  by_cases low : put.pair.below (w.dir.reclaimWatermark put.shard)
  · rw [if_pos low]
    refine ⟨_, .skip, ?_⟩
    rw [if_pos low]
    trivial
  · rw [if_neg low]
    refine ⟨_, .begin low, ?_⟩
    rw [if_neg low]
    refine .bind (follows_onDir fun w => ⟨_, .write, ?_⟩)
    refine .bind (follows_onDir fun w => ⟨_, .sync, ?_⟩)
    exact follows_onDir fun w => ⟨_, .rename, trivial⟩

/-- Puts to one shard do not overlap, and any two of their pairs are comparable. -/
structure Calm (w : WatermarkDir H) : Prop where
  apart : w.overlapped = false
  chain : ∀ put ∈ w.puts, ∀ put' ∈ w.puts, put.shard = put'.shard →
    put.pair.below put'.pair ∨ put'.pair.below put.pair

structure Separate (w : WatermarkDir H) : Prop where
  stored : ∀ shard pair, w.dir.readWatermark shard = some pair →
    ∃ put ∈ w.puts, put.shard = shard ∧ put.pair = pair
  putting : ∀ i j shard, (i, shard) ∈ w.putting → (j, shard) ∈ w.putting → i = j
  writing : ∀ i j, i ∈ w.writing → j ∈ w.writing → i = j

/-- What call `i` knows: the watermark that it read is still there, and what it wrote is in the
temporary file. -/
def Sure (w : WatermarkDir H) (i : Nat) : PutStage → Prop
  | .idle _ => True
  | .ended => True
  | .chose put current => put ∈ w.puts ∧ (i, put.shard) ∈ w.putting ∧
    current = w.dir.reclaimWatermark put.shard ∧ ¬put.pair.below current
  | .wrote put next => put ∈ w.puts ∧ (i, put.shard) ∈ w.putting ∧ i ∈ w.writing ∧
    w.dir.find? watermarkTmp = some (.watermark next) ∧
    next = put.pair.merge (w.dir.reclaimWatermark put.shard) ∧
    ¬put.pair.below (w.dir.reclaimWatermark put.shard)

theorem merge_of_below {low high : SharedReclaimWatermark} (h : low.below high) :
    high.merge low = high := by
  obtain ⟨seq, segment⟩ := h
  unfold SharedReclaimWatermark.merge
  rw [max_eq_left seq, max_eq_left segment]

theorem below_merge (put current : SharedReclaimWatermark) : current.below (put.merge current) :=
  ⟨le_max_right _ _, le_max_right _ _⟩

theorem Separate.below_of_not (h : Separate w) (calm : Calm w) (mem : put ∈ w.puts)
    (higher : ¬put.pair.below (w.dir.reclaimWatermark put.shard)) :
    (w.dir.reclaimWatermark put.shard).below put.pair := by
  cases stored : w.dir.readWatermark put.shard with
  | none =>
    rw [reclaimWatermark, stored]
    exact ⟨Nat.zero_le _, Nat.zero_le _⟩
  | some pair =>
    obtain ⟨earlier, known, same, is⟩ := h.stored _ _ stored
    rw [reclaimWatermark, stored] at higher ⊢
    rcases calm.chain put mem earlier known same.symm with low | high
    · exact absurd (is ▸ low) higher
    · exact is ▸ high

variable {l' : PutStage}

theorem PutStep.calm (step : PutStep i w l w' l') (calm : Calm w') : Calm w := by
  have of_more {put : PutWatermark} {more : WatermarkDir H} (calm : Calm more)
      (apart : more.overlapped = false → w.overlapped = false) (puts : more.puts = put :: w.puts) :
      Calm w := by
    refine ⟨apart calm.apart, fun one mem other mem' => calm.chain one ?_ other ?_⟩
    · exact puts ▸ .tail _ mem
    · exact puts ▸ .tail _ mem'
  cases step with
  | skip => exact of_more calm id rfl
  | begin => exact of_more calm (fun apart => (Bool.or_eq_false_iff.1 apart).1) rfl
  | write => exact ⟨(Bool.or_eq_false_iff.1 calm.apart).1, calm.chain⟩
  | sync => exact calm
  | rename => exact ⟨calm.apart, calm.chain⟩

theorem Separate.leave (h : Separate w) : Separate (w.leave i) where
  stored := h.stored
  putting := Sole.filter h.putting _
  writing j k one other := h.writing j k (mem_filter.1 one).1 (mem_filter.1 other).1

variable {j : Nat}

theorem Sure.leave (h : Sure w j l) (other : j ≠ i) : Sure (w.leave i) j l := by
  have stays {shard : Nat} (mem : (j, shard) ∈ w.putting) : (j, shard) ∈ (w.leave i).putting :=
    mem_others mem other
  cases l with
  | idle put => trivial
  | ended => trivial
  | chose put current => exact ⟨h.1, stays h.2.1, h.2.2⟩
  | wrote put next =>
    exact ⟨h.1, stays h.2.1, mem_filter.2 ⟨h.2.2.1, by simpa using other⟩, h.2.2.2⟩

theorem Separate.skip (h : Separate w) : Separate { w with puts := put :: w.puts } where
  stored shard pair is := by
    obtain ⟨earlier, mem, same⟩ := h.stored shard pair is
    exact ⟨earlier, .tail _ mem, same⟩
  putting := h.putting
  writing := h.writing

theorem readWatermark_rename (temp : w.dir.find? watermarkTmp = some (.watermark next))
    (shard' : Nat) : (w.rename i shard).2.dir.readWatermark shard' =
      if shard' = shard then some next else w.dir.readWatermark shard' := by
  change (w.dir.renameTemp (watermarkName shard)).2.readWatermark shard' = _
  unfold renameTemp
  rw [tmpName_watermark, temp]
  unfold readWatermark
  rw [OrderedMap.find?_insert]
  by_cases same : shard' = shard
  · rw [if_pos (congrArg watermarkName same), if_pos same]
  · rw [if_neg fun h => same (watermarkName_injective h), if_neg same,
      OrderedMap.find?_erase_of_ne (watermarkName_ne_tmp shard')]

theorem PutStep.keeps (step : PutStep i w l w' l') (calm : Calm w') (separate : Separate w)
    (sure : Sure w i l) : Separate w' ∧ Sure w' i l' := by
  have before := step.calm calm
  cases step with
  | skip => exact ⟨separate.skip, trivial⟩
  | @begin put higher =>
    have alone := (Bool.or_eq_false_iff.1 calm.apart).2
    exact ⟨⟨separate.skip.stored, Sole.enter separate.putting alone, separate.writing⟩,
      mem_cons_self, mem_cons_self, rfl, higher⟩
  | @write put current =>
    obtain ⟨mem, putting, is_current, higher⟩ := sure
    have nobody : w.writing = [] := by
      have none := (Bool.or_eq_false_iff.1 calm.apart).2
      simpa using none
    have same_files (shard : Nat) :
        (w.writeTemp i put.shard (put.pair.merge current)).dir.readWatermark
        shard = w.dir.readWatermark shard := readWatermark_writeTemp
    refine ⟨⟨fun shard pair is => separate.stored shard pair (same_files shard ▸ is),
      separate.putting, ?_⟩, mem, putting, mem_cons_self, ?_, ?_, ?_⟩
    · intro j k one other
      have one : j ∈ i :: w.writing := one
      have other : k ∈ i :: w.writing := other
      rw [nobody, mem_singleton] at one other
      exact one.trans other.symm
    · show (w.dir.insert (tmpName (watermarkName put.shard)) _).find? watermarkTmp = _
      rw [tmpName_watermark, OrderedMap.find?_insert, if_pos rfl]
    · rw [reclaimWatermark, same_files, ← reclaimWatermark, is_current]
    · rw [reclaimWatermark, same_files, ← reclaimWatermark, ← is_current]
      exact higher
  | sync => exact ⟨separate, sure⟩
  | @rename put next =>
    obtain ⟨mem, putting, writing, temp, is_next, higher⟩ := sure
    refine ⟨⟨?_, separate.leave.putting, separate.leave.writing⟩, trivial⟩
    intro shard pair is
    rw [readWatermark_rename temp] at is
    split at is
    · rename_i same
      cases is
      rw [merge_of_below (separate.below_of_not before mem higher)] at is_next
      exact ⟨put, mem, same.symm, is_next.symm⟩
    · exact separate.stored shard pair is

theorem Sure.of_same (h : Sure w j l) (puts : ∀ put ∈ w.puts, put ∈ w'.puts)
    (putting : ∀ shard, (j, shard) ∈ w.putting → (j, shard) ∈ w'.putting)
    (writing : j ∈ w.writing → j ∈ w'.writing)
    (stored : ∀ shard, (j, shard) ∈ w.putting →
      w'.dir.readWatermark shard = w.dir.readWatermark shard)
    (temp : j ∈ w.writing → w'.dir.find? watermarkTmp = w.dir.find? watermarkTmp) :
    Sure w' j l := by
  cases l with
  | idle put => trivial
  | ended => trivial
  | chose put current =>
    obtain ⟨mem, mine, is_current, higher⟩ := h
    refine ⟨puts _ mem, putting _ mine, ?_, higher⟩
    rw [reclaimWatermark, stored _ mine]
    exact is_current
  | wrote put next =>
    obtain ⟨mem, mine, mine', is_temp, is_next, higher⟩ := h
    have same : w'.dir.reclaimWatermark put.shard = w.dir.reclaimWatermark put.shard := by
      rw [reclaimWatermark, stored _ mine]
      rfl
    rw [← same] at is_next higher
    exact ⟨puts _ mem, putting _ mine, writing mine', (temp mine').trans is_temp, is_next, higher⟩

theorem PutStep.others {m} (step : PutStep i w l w' l') (calm : Calm w')
    (separate : Separate w) (sure : Sure w i l) (other : j ≠ i) (known : Sure w j m) :
    Sure w' j m := by
  cases step with
  | skip =>
    exact known.of_same (fun _ mem => .tail _ mem) (fun _ => id) id (fun _ _ => rfl)
      fun _ => rfl
  | begin =>
    exact known.of_same (fun _ mem => .tail _ mem)
      (fun _ mem => .tail _ mem) id (fun _ _ => rfl) fun _ => rfl
  | write =>
    -- Another call that is writing would make two at a time.
    have nobody : w.writing = [] := by simpa using (Bool.or_eq_false_iff.1 calm.apart).2
    refine known.of_same (fun _ => id) (fun _ => id) (mem_cons_of_mem _)
      (fun _ _ => readWatermark_writeTemp) fun mem => ?_
    rw [nobody] at mem
    cases mem
  | sync => exact known
  | @rename put next =>
    obtain ⟨-, putting, writing, temp, -, -⟩ := sure
    have left : Sure { w with dir := (w.dir.renameTemp (watermarkName put.shard)).2 } j m := by
      refine known.of_same (fun _ => id) (fun _ => id) id (fun shard mine => ?_) fun mine => ?_
      · refine (readWatermark_rename (i := i) temp shard).trans (if_neg fun same => other ?_)
        exact separate.putting j i shard mine (same ▸ putting)
      · exact absurd (separate.writing j i mine writing) other
    exact left.leave other

theorem Calm.leave (calm : Calm (w.leave i)) : Calm w := ⟨calm.apart, calm.chain⟩

variable {ls : Locals PutWatermark PutStage}

theorem PutStep.raises (step : PutStep i w l w' l') (sure : Sure w i l) (shard : Nat) :
    (w.dir.reclaimWatermark shard).below (w'.dir.reclaimWatermark shard) := by
  have refl (pair : SharedReclaimWatermark) : pair.below pair := ⟨Nat.le_refl _, Nat.le_refl _⟩
  cases step with
  | skip => exact refl _
  | begin => exact refl _
  | write =>
    rw [reclaimWatermark, reclaimWatermark,
      show (WatermarkDir.writeTemp ..).dir.readWatermark shard = _ from readWatermark_writeTemp]
    exact refl _
  | sync => exact refl _
  | @rename put next =>
    obtain ⟨-, -, -, temp, is_next, -⟩ := sure
    show SharedReclaimWatermark.below _
      (((w.rename i put.shard).2.dir.readWatermark shard).getD ⟨0, 0⟩)
    rw [readWatermark_rename temp]
    split
    · rename_i same
      rw [is_next, same]
      exact below_merge _ _
    · exact refl _

theorem keeps_watermarks (shard : Nat) (pair : SharedReclaimWatermark) :
    (watermarkProtocol H).Keeps (watermarkService H) Calm
      (fun w _ => Separate w ∧ pair.below (w.dir.reclaimWatermark shard))
      fun w i _ l => Sure w i l where
  call _ shared := ⟨shared, trivial⟩
  act step calm := by
    refine ⟨PutStep.calm step calm, fun _ shared sure => ?_⟩
    obtain ⟨separate, sure'⟩ := PutStep.keeps step calm shared.1 sure
    have raised := PutStep.raises step sure shard
    exact ⟨⟨separate, shared.2.1.trans raised.1, shared.2.2.trans raised.2⟩, sure',
      PutStep.others step calm shared.1 sure⟩
  drop calm := ⟨calm.leave, fun shared _ =>
    ⟨⟨shared.1.leave, shared.2⟩, fun other known => known.leave other⟩⟩
  world e := e.elim

theorem reach_watermarks (shard : Nat)
    (reach : (watermarkProtocol H).Reach (watermarkService H) (.new .empty) w ls) (calm : Calm w) :
    Separate w ∧ ∀ (i : Nat) (put : PutWatermark) (l : PutStage),
      ls[i]? = some (put, some l) → Sure w i l :=
  ((keeps_watermarks shard ⟨0, 0⟩).reach reach calm
    ⟨⟨nofun, nofun, nofun⟩, Nat.zero_le _, Nat.zero_le _⟩).imp_left And.left

end Ehdb.Proof.Reference
