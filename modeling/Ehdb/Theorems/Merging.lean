import Ehdb.Proof.Planning
import Ehdb.Proof.Publish
import Mathlib.Data.List.Dedup

/-! A merge of two sources or more replaces them by one part, so that the manifest gets shorter. A
plan with fewer is carried out by doing nothing, and the next round plans it again. -/

namespace Ehdb.Theorems

open L0 Proof ProofKit List

variable {R : Type} {C : L0Config R} {w w' : World R} {plan : MergePlan}

/-- A round of the loop of `run_pending_merges` in which nothing fails. -/
def Round (C : L0Config R) (w w' : World R) : Prop :=
  ∃ plan, planNextMerge w.engine.manifest C.mergePolicy = some plan ∧
    (mergeOnce C plan).run.alone .ok w = some (.ok (), w')

def Endless (C : L0Config R) (w : World R) : Prop :=
  ∃ worlds : Nat → World R, worlds 0 = w ∧ ∀ n, Round C (worlds n) (worlds (n + 1))

def Merging (before : Manifest) (plan : MergePlan) (w : World R) : MainTask R → Prop
  | .planned p => p = plan ∧ w.engine.manifest = before
  | .gathering merge _ => merge.plan = plan ∧ w.engine.manifest = before
  | .building merge => merge.plan = plan ∧ w.engine.manifest = before
  | .written merge _ _ => merge.plan = plan ∧ w.engine.manifest = before
  | .copying merge _ _ _ _ => merge.plan = plan ∧ w.engine.manifest = before
  | .publishing _ => ∃ row, w.engine.manifest.parts =
      (before.parts.filter fun p => p.partId ∉ plan.sourceIds) ++ [row]
  | _ => False

variable {before : Manifest} {m m' : MainTask R}

theorem Merging.congr (h : Merging before plan w m)
    (same : w'.engine.manifest = w.engine.manifest) : Merging before plan w' m := by
  unfold Merging at h ⊢
  rwa [same]

theorem Merging.step (many : 2 ≤ (planSources before plan).length) (h : Merging before plan w m)
    (step : MainStep C w m w' m') : Merging before plan w' m' := by
  cases step with
  | aside step => exact h.congr step.sameCatalog.manifest
  | write step => cases step <;> exact h.elim
  | merge step =>
    cases step with
    | plan => exact h.elim
    | few few =>
      obtain ⟨rfl, rfl⟩ := h
      exact absurd few (Nat.not_lt.2 many)
    | sources | read | merging | write => exact h
    | name _ => simpa only [Merging, World.renameFile_engine] using h
    | put step =>
      exact (h : Merging before plan w (.copying ..)).congr (by rw [step.putPart_engine])
    | swap _ eq =>
      obtain ⟨rfl, rfl⟩ := h
      exact ⟨_, by rw [eq]; rfl⟩
  | upkeep step => cases step <;> exact h.elim
  | opening step => cases step <;> exact h.elim
  | publish step => exact (h : Merging before plan w (.publishing _)).congr step.manifest

theorem Round.shrinks (trigger : 2 ≤ C.mergePolicy.triggerRunLen)
    (fanIn : 2 ≤ C.mergePolicy.maxMergeParts) (h : Round C w w') :
    w'.engine.manifest.parts.length < w.engine.manifest.parts.length := by
  obtain ⟨plan, planned, ran⟩ := h
  obtain ⟨-, run, -, -, ids, n, -, long, length⟩ := planNextMerge_spec planned
  obtain ⟨rows, found⟩ := planNextMerge_length planned
  have many : 2 ≤ plan.sourceIds.length := by
    rw [ids, length_map, length]
    omega
  obtain ⟨os, ran⟩ := Prog.along_of_alone ran
  obtain ⟨m', merging, ended⟩ := (mergeOnce_follows C plan).along
    (I := Merging w.engine.manifest plan) (.step (by omega)) ⟨rfl, rfl⟩ ran
  rcases ended with rfl | rfl
  · exact merging.elim
  · obtain ⟨row, parts⟩ := merging
    have split := length_eq_length_filter_add (l := w.engine.manifest.parts)
      fun p => decide (p.partId ∈ plan.sourceIds)
    simp only [← decide_not] at split
    rw [parts, length_append, length_singleton, split]
    omega

theorem round_of_few (planned : planNextMerge w.engine.manifest C.mergePolicy = some plan)
    (few : plan.sourceIds.length < 2) : Round C w w := by
  refine ⟨plan, planned, ?_⟩
  have found := (planNextMerge_length planned).2
  show (if (planSources w.engine.manifest plan).length < 2 then _ else _ :
    Fallible R Unit).run.alone
    .ok w = _
  rw [if_pos (by omega)]
  rfl

/-- A durable part of one record, and of none if a part of one is too large for the policy. -/
def smallPart (policy : MergePolicy) (sequence : Nat) : PartMeta :=
  let id : PartId := ⟨0, sequence, sequence⟩
  let count := min 1 policy.smallPartMaxRecords
  ⟨id, 0, sequence, sequence, count, 20 * count,
    [⟨0, substrateKeyFor 0 id⟩], none, ⟨1, []⟩, none, []⟩

def smallParts (C : L0Config R) (n : Nat) : World R :=
  (World.initial C).withManifest fun m =>
    { m with parts := (range' 1 n).map (smallPart C.mergePolicy) }

theorem findRun_of_small {policy : MergePolicy} {parts : List PartMeta} (some_part : parts ≠ [])
    (small : ∀ p ∈ parts, policy.isSmallCandidate p = true)
    (long : policy.triggerRunLen ≤ parts.length) :
    findRun policy parts.length parts = some (parts.take policy.maxMergeParts) := by
  cases parts with
  | nil => exact absurd rfl some_part
  | cons p rest =>
    have whole : (p :: rest).takeWhile policy.isSmallCandidate = p :: rest :=
      takeWhile_eq_self_iff.2 small
    rw [length_cons, findRun, if_pos (small p mem_cons_self), whole]
    dsimp only
    rw [if_pos long]

/-- A run that the trigger lets pass, and as many of its parts as a merge takes. -/
theorem smallParts_planned (C : L0Config R) {n : Nat} (some_part : 0 < n)
    (long : C.mergePolicy.triggerRunLen ≤ n) :
    planNextMerge (smallParts C n).engine.manifest C.mergePolicy = some ⟨0,
      (((range' 1 n).map (smallPart C.mergePolicy)).take C.mergePolicy.maxMergeParts).map
        PartMeta.partId⟩ := by
  let parts := (range' 1 n).map (smallPart C.mergePolicy)
  have is_parts : (smallParts C n).engine.manifest.parts = parts := rfl
  have length : parts.length = n := by simp [parts]
  have ascending : Ascending PartMeta.minSequence parts := pairwise_map.2 pairwise_lt_range'
  have inside : parts.filter (fun p => p.partition = 0) = parts :=
    filter_eq_self.2 (forall_mem_map.2 fun _ _ => rfl)
  have run : (smallParts C n).engine.manifest.partsInPartition 0 = parts := by
    rw [Manifest.partsInPartition, is_parts, inside, sortByKey_of_ascending ascending]
  have partitions : (sortByKey id (parts.map PartMeta.partition)).dedup = [0] := by
    have zeros : parts.map PartMeta.partition = replicate n 0 := by
      simp [parts, smallPart, Function.comp_def]
    rw [zeros, perm_replicate.1 (sortByKey_perm id _)]
    exact replicate_dedup (Nat.pos_iff_ne_zero.1 some_part)
  have small : ∀ p ∈ parts, C.mergePolicy.isSmallCandidate p = true := by
    refine forall_mem_map.2 fun _ _ => ?_
    simp [MergePolicy.isSmallCandidate, PartMeta.isDurable, smallPart]
  have found := findRun_of_small (ne_nil_of_length_pos (by omega)) small (by omega)
  rw [planNextMerge, is_parts, partitions]
  simp only [findSome?_cons, run, found, Option.map_some]
  rfl

theorem merging_ends_iff (C : L0Config R) : (∀ w, ¬Endless C w) ↔
    2 ≤ C.mergePolicy.triggerRunLen ∧ 2 ≤ C.mergePolicy.maxMergeParts := by
  constructor
  · intro ends
    by_contra less
    have planned :=
      smallParts_planned C (Nat.le_max_left 1 _) (Nat.le_max_right 1 C.mergePolicy.triggerRunLen)
    refine ends _ ⟨fun _ => smallParts C (max 1 C.mergePolicy.triggerRunLen), rfl, fun _ => ?_⟩
    exact round_of_few planned (by simp only [length_map, length_take, length_range']; omega)
  · rintro ⟨trigger, fanIn⟩ w ⟨worlds, -, rounds⟩
    have falls (n : Nat) : (worlds n).engine.manifest.parts.length + n ≤
        (worlds 0).engine.manifest.parts.length := by
      induction n with
      | zero => exact Nat.le_refl _
      | succ n ih =>
        have := (rounds n).shrinks trigger fanIn
        omega
    have := falls ((worlds 0).engine.manifest.parts.length + 1)
    omega

def mergesOne : L0Config Sample := { sampleConfig false [0] 1 1 with mergePolicy := ⟨8, 2, 1⟩ }

/-- A policy that merges one part at most: two small parts are planned, left as they are and
planned again. -/
theorem merging_without_end : Endless mergesOne (smallParts mergesOne 2) := by
  refine ⟨fun _ => smallParts mergesOne 2, rfl, fun _ => ?_⟩
  exact round_of_few (smallParts_planned _ (by decide) (by decide)) (by decide)

/-- A merge of parts that were merged before leaves what one merge of all their records leaves: of
each supersede key the last record, and every record without one. -/
theorem merging_in_steps (D : Dataset R) (first next : List R) :
    compactSuperseded D (compactSuperseded D first ++ next) =
      compactSuperseded D (first ++ next) := by
  induction first with
  | nil => rfl
  | cons r first ih =>
    have same : isSuperseded D [] (compactSuperseded D first ++ next) r =
        isSuperseded D [] (first ++ next) r := by
      simp [isSuperseded, keys_compactSuperseded, -mem_filterMap]
    rw [cons_append, compactSuperseded_cons r (first ++ next), compactSuperseded_cons r first]
    split
    · rename_i later
      have also : isSuperseded D [] (first ++ next) r = true := by
        cases is : D.supersedeKey r <;> simp_all [isSuperseded]
      rw [if_pos also, ih]
    · rw [cons_append, compactSuperseded_cons, same, ih]

/-- Keys are 64 bits wide in the source. No sum there exceeds `id.max`, so none of them is cut. -/
theorem superseded_iff_accounted_for (m : Manifest) (id : PartId) (some_key : id.min ≤ id.max) :
    (Coverage.of m).superseded id = true ↔ ∀ k, id.min ≤ k → k ≤ id.max →
      k ≤ m.reclaimedThrough ∨ ∃ p ∈ m.parts, p.partition = id.partition ∧
        p.minSequence ≤ k ∧ k ≤ p.maxSequence := by
  unfold Coverage.superseded
  split
  · exact iff_of_true rfl fun k _ high => .inl (le_trans high ‹_›)
  · have mem (r : PartId) : (r ∈ (Coverage.of m).ranges.filter fun r =>
      r.partition = id.partition) ↔
        ∃ p ∈ m.parts, ⟨p.partition, p.minSequence, p.maxSequence⟩ = r ∧
          r.partition = id.partition := by
      simp only [Coverage.of, mem_filter, mem_insertionSort, mem_map, decide_eq_true_eq]
      grind
    have floor : (Coverage.of m).reclaimedThrough = m.reclaimedThrough := rfl
    rw [covers_iff (Nat.max_le.2 ⟨some_key, Nat.lt_of_not_le ‹_›⟩) (ranges_sorted m id.partition)]
    simp only [mem]
    grind

/-- Nested and overlapping ranges in no order, and a floor. -/
def scattered : Manifest :=
  ⟨0, [(5, 9), (3, 6), (4, 4)].map fun (low, high) =>
    { smallPart mergesOne.mergePolicy low with partId := ⟨0, low, high⟩, maxSequence := high }, 2⟩

theorem scattered_accounts_for : (Coverage.of scattered).superseded ⟨0, 1, 9⟩ = true ∧
    ∀ k, 1 ≤ k → k ≤ 9 → k ≤ scattered.reclaimedThrough ∨
      ∃ p ∈ scattered.parts, p.partition = 0 ∧ p.minSequence ≤ k ∧ k ≤ p.maxSequence :=
  have covered : (Coverage.of scattered).superseded ⟨0, 1, 9⟩ = true := by decide
  ⟨covered, (superseded_iff_accounted_for scattered ⟨0, 1, 9⟩ (by decide)).1 covered⟩

end Ehdb.Theorems
