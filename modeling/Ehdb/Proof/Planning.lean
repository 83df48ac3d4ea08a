import Ehdb.L0.Maintain
import Mathlib.Data.List.TakeWhile

/-! What the pure planning functions promise: a merge plan is a run of neighbouring parts of one
shard, compaction keeps a sublist with the last record, and a covered range is covered. -/

namespace Ehdb.Proof

open L0 ProofKit List

variable {R : Type}

variable {policy : MergePolicy}

theorem findRun_spec {fuel parts run}
    (h : findRun policy fuel parts = some run) : (∃ before after, parts = before ++ run ++ after) ∧
      ∃ n, 0 < n ∧ policy.triggerRunLen ≤ n ∧ run.length = min policy.maxMergeParts n := by
  induction fuel generalizing parts with
  | zero => simp [findRun] at h
  | succ fuel ih =>
    cases parts with
    | nil => simp [findRun] at h
    | cons part rest =>
      rw [findRun] at h
      split at h
      · dsimp only at h
        split at h
        · obtain rfl := Option.some.inj h
          generalize runEq : (part :: rest).takeWhile policy.isSmallCandidate = all
          refine ⟨⟨[], all.drop policy.maxMergeParts ++
            (part :: rest).dropWhile policy.isSmallCandidate, ?_⟩, all.length, ?_, ?_, length_take⟩
          · calc part :: rest
                = all ++ (part :: rest).dropWhile policy.isSmallCandidate := by
                  rw [← runEq, takeWhile_append_dropWhile]
              _ = _ := by
                  rw [nil_append, ← append_assoc, take_append_drop]
          · rw [← runEq, takeWhile_cons_of_pos (by assumption)]
            exact Nat.succ_pos _
          · rwa [← runEq]
        · obtain ⟨⟨before, after, split⟩, long⟩ := ih h
          refine ⟨⟨(part :: rest).takeWhile policy.isSmallCandidate ++ before, after, ?_⟩, long⟩
          calc part :: rest
              = (part :: rest).takeWhile policy.isSmallCandidate ++
                  (part :: rest).dropWhile policy.isSmallCandidate :=
                takeWhile_append_dropWhile.symm
            _ = _ := by rw [split]; simp
      · obtain ⟨⟨before, after, split⟩, long⟩ := ih h
        exact ⟨⟨part :: before, after, by rw [split]; simp⟩, long⟩

variable {a : Manifest} {plan : MergePlan}

theorem planNextMerge_spec (h : planNextMerge a policy = some plan) :
    ∃ before run after, a.partsInPartition plan.partition = before ++ run ++ after ∧
      plan.sourceIds = run.map PartMeta.partId ∧
      ∃ n, 0 < n ∧ policy.triggerRunLen ≤ n ∧ run.length = min policy.maxMergeParts n := by
  obtain ⟨partition, _, found⟩ := exists_of_findSome?_eq_some h
  obtain ⟨run, foundRun, rfl⟩ := Option.map_eq_some_iff.mp found
  obtain ⟨⟨before, after, split⟩, long⟩ := findRun_spec foundRun
  exact ⟨before, run, after, split, rfl, long⟩

/-- A plan names parts of the manifest: so many rows have one of its ids, and it finds as many. -/
theorem planNextMerge_length (h : planNextMerge a policy = some plan) :
    plan.sourceIds.length ≤ (a.parts.filter fun p => p.partId ∈ plan.sourceIds).length ∧
      (planSources a plan).length = plan.sourceIds.length := by
  obtain ⟨before, run, after, split, ids, -⟩ := planNextMerge_spec h
  have perm : (a.partsInPartition plan.partition).Perm
      (a.parts.filter fun p => p.partition = plan.partition) := sortByKey_perm _ _
  have within : run <+ a.partsInPartition plan.partition := by
    rw [split, append_assoc]
    exact (sublist_append_left _ _).trans (sublist_append_right _ _)
  constructor
  · have named : run.filter (fun p => p.partId ∈ plan.sourceIds) = run :=
      filter_eq_self.2 fun p mem => by simpa [ids] using ⟨p, mem, rfl⟩
    calc plan.sourceIds.length = (run.filter fun p => p.partId ∈ plan.sourceIds).length := by
          rw [named, ids, length_map]
      _ ≤ ((a.partsInPartition plan.partition).filter
            fun p => p.partId ∈ plan.sourceIds).length := (within.filter _).length_le
      _ = ((a.parts.filter fun p => p.partition = plan.partition).filter
            fun p => p.partId ∈ plan.sourceIds).length := (perm.filter _).length_eq
      _ ≤ _ := (filter_sublist.filter _).length_le
  · rw [planSources, length_filterMap_eq_countP, countP_eq_length]
    intro id mem
    rw [ids] at mem
    obtain ⟨p, inRun, rfl⟩ := mem_map.1 mem
    have inParts : p ∈ a.parts := (mem_filter.1 (perm.subset (within.subset inRun))).1
    simpa using ⟨p, inParts, rfl⟩

variable {D : Dataset R}

/-- Whether a record has one of the supersede keys `seen` or that of one of the records. -/
def isSuperseded (D : Dataset R) (seen : List String) (records : List R) (r : R) : Bool :=
  (D.supersedeKey r).any (· ∈ seen ++ records.filterMap D.supersedeKey)

theorem compactBackwards_last (records : List R) (seen : List String) (r : R) (kept : List R) :
    compactBackwards D (records ++ [r]) seen kept =
      if isSuperseded D seen records r then compactBackwards D records seen kept
      else r :: compactBackwards D records seen kept := by
  induction records generalizing seen kept with
  | nil => cases is : D.supersedeKey r <;> simp [compactBackwards, isSuperseded, is]
  | cons first rest ih =>
    have same (seen' : List String) (keys : ∀ key, key ∈ seen ++ (first :: rest).filterMap
        D.supersedeKey ↔ key ∈ seen' ++ rest.filterMap D.supersedeKey) :
        isSuperseded D seen (first :: rest) r = isSuperseded D seen' rest r := by
      simp only [isSuperseded, keys]
    rw [cons_append, compactBackwards, compactBackwards]
    cases is : D.supersedeKey first with
    | none =>
      rw [same seen (by simp [is])]
      exact ih seen (first :: kept)
    | some key =>
      by_cases known : key ∈ seen
      · rw [same seen (by simp [is]; grind)]
        simpa [known] using ih seen kept
      · rw [same (key :: seen) (by simp [is]; grind)]
        simpa [known] using ih (key :: seen) (first :: kept)

theorem compactSuperseded_cons (r : R) (records : List R) : compactSuperseded D (r :: records) =
    if isSuperseded D [] records r then compactSuperseded D records
    else r :: compactSuperseded D records := by
  have same : isSuperseded D [] records.reverse r = isSuperseded D [] records r := by
    simp [isSuperseded, filterMap_reverse]
  rw [compactSuperseded, reverse_cons, compactBackwards_last, same]
  rfl

theorem compactSuperseded_sublist (records : List R) :
    (compactSuperseded D records).Sublist records := by
  induction records with
  | nil => exact .slnil
  | cons r records ih =>
    rw [compactSuperseded_cons]
    split
    · exact ih.cons r
    · exact ih.cons_cons r

theorem keys_compactSuperseded (records : List R) (key : String) :
    key ∈ (compactSuperseded D records).filterMap D.supersedeKey ↔
      key ∈ records.filterMap D.supersedeKey := by
  induction records with
  | nil => rfl
  | cons r records ih =>
    rw [compactSuperseded_cons]
    split
    · rename_i later
      cases is : D.supersedeKey r <;> simp_all [isSuperseded]
    · simp only [filterMap_cons]
      split <;> simp [ih]

theorem covers_iff {ranges need last} (some_key : need ≤ last)
    (sorted : ranges.Pairwise fun a b => a.min ≤ b.min) : Coverage.covers ranges need last = true ↔
      ∀ k, need ≤ k → k ≤ last → ∃ r ∈ ranges, r.min ≤ k ∧ k ≤ r.max := by
  induction ranges generalizing need with
  | nil =>
    refine iff_of_false (by simp [Coverage.covers]) fun covered => ?_
    obtain ⟨_, mem, _⟩ := covered need le_rfl some_key
    cases mem
  | cons range rest ih =>
    obtain ⟨lowest, sorted⟩ := pairwise_cons.1 sorted
    simp only [Coverage.covers, exists_mem_cons_iff]
    split
    · rw [ih some_key sorted]
      grind
    · split
      · refine iff_of_false Bool.false_ne_true fun covered => ?_
        -- The lowest key that is needed lies below every range that is left.
        rcases covered need le_rfl some_key with here | ⟨r, mem, low, _⟩
        · omega
        · have := lowest r mem
          omega
      · split
        · exact iff_of_true rfl fun k _ _ => .inl (by omega)
        · rw [ih (by omega) sorted]
          grind

theorem ranges_sorted (m : Manifest) (partition : Nat) :
    ((Coverage.of m).ranges.filter fun r => r.partition = partition).Pairwise
      fun a b => a.min ≤ b.min := by
  have total : Std.Total fun a b => PartId.le a b = true := ⟨fun a b => by grind [PartId.le]⟩
  have trans : IsTrans PartId fun a b => PartId.le a b = true := ⟨fun a b c => by grind [PartId.le]⟩
  have sorted : (Coverage.of m).ranges.Pairwise fun a b => PartId.le a b = true :=
    pairwise_insertionSort _ _
  refine pairwise_filter.2 (sorted.imp fun le here there => ?_)
  grind [PartId.le]

end Ehdb.Proof
