import Ehdb.Proof.Core.Journal
import Ehdb.Slm.Gate

/-! Every decision is made on the events so far, and an admission is one of the events that the next
decision is made on. -/

namespace Ehdb.Theorems

open Slm ProofKit List
open Proof.Journal (bind_eq_ok)

/-- What the events of an execution come to: the budget as far as they spend it, and the turns, each
once. -/
def spent (budget : Budget) (log : EventLog) : WorkingContext :=
  log.foldl (fun ctx e => e.2.toOption.elim ctx ctx.apply) ⟨[], budget⟩

def recorded (executionId : String) (seq : Nat) : Decision → EventLog
  | .admitted depth => [(seq, .ok (.stepAdmitted executionId depth))]
  | _ => []

/-- The decisions on proposals in the course of a log, oldest first. Each is made on the fold of the
log so far, and an admission goes to the log. -/
inductive Decides (executionId : String) (budget : Budget) : EventLog → List Decision → Prop
  | start : Decides executionId budget [] []
  | event {log decided} (seq payload) : Decides executionId budget log decided →
      Decides executionId budget (log ++ [(seq, payload)]) decided
  | decide {log decided upToSeq ctx d} (seq spec policy validate off) :
      Decides executionId budget log decided → (∀ e ∈ log, e.1 ≤ upToSeq) →
      fold executionId log upToSeq budget = .ok ctx →
      admitProposal spec ctx policy validate off = d →
      Decides executionId budget (log ++ recorded executionId seq d) (decided ++ [d])

variable {budget : Budget} {ctx ctx' : WorkingContext} {log : EventLog} {executionId : String}
  {upToSeq : Nat}

theorem foldEvents_eq {index : Nat} {prev : Option Nat} (covered : ∀ e ∈ log, e.1 ≤ upToSeq)
    (folds : foldEvents executionId upToSeq index prev ctx log = .ok ctx') :
    ctx' = log.foldl (fun ctx e => e.2.toOption.elim ctx ctx.apply) ctx := by
  induction log generalizing index prev ctx with
  | nil =>
    cases folds
    rfl
  | cons e log ih =>
    obtain ⟨seq, payload⟩ := e
    obtain ⟨here, later⟩ := forall_mem_cons.1 covered
    unfold foldEvents at folds
    rw [if_neg (Nat.not_lt.2 here)] at folds
    split at folds
    · cases folds
    · cases payload with
      | error detail => cases folds
      | ok event =>
        dsimp only at folds
        split at folds
        · cases folds
        · exact ih later folds

/-- Something is left of the budget. -/
def Left (ctx : WorkingContext) : Prop :=
  ctx.budget.stepsAdmitted < ctx.budget.maxGeneratedSteps ∧
    ctx.budget.maxDepthSeen < ctx.budget.maxDepth ∧ ctx.turns.length < ctx.budget.maxTurns

theorem fold_spent (folds : fold executionId log upToSeq budget = .ok ctx)
    (covered : ∀ e ∈ log, e.1 ≤ upToSeq) (few : (spent budget log).turns.length < 2 ^ 32) :
    ctx.budget.maxDepthSeen = (spent budget log).budget.maxDepthSeen ∧
      (ctx.budget.exhausted = none ↔ Left (spent budget log)) := by
  obtain ⟨ctx', events, is⟩ := bind_eq_ok folds
  cases is
  obtain rfl : ctx' = spent budget log := foldEvents_eq covered events
  rw [(sortByKey_perm _ _).length_eq, Nat.mod_eq_of_lt few]
  refine ⟨rfl, ?_⟩
  simp only [Budget.recomputeExhaustion, Left]
  split
  · exact iff_of_false nofun (by omega)
  · split
    · exact iff_of_false nofun (by omega)
    · split
      · exact iff_of_false nofun (by omega)
      · exact iff_of_true rfl (by omega)

structure Grows (ctx ctx' : WorkingContext) : Prop where
  limits : ctx'.budget.maxGeneratedSteps = ctx.budget.maxGeneratedSteps ∧
    ctx'.budget.maxDepth = ctx.budget.maxDepth ∧ ctx'.budget.maxTurns = ctx.budget.maxTurns
  steps : ctx.budget.stepsAdmitted ≤ ctx'.budget.stepsAdmitted
  depth : ctx.budget.maxDepthSeen ≤ ctx'.budget.maxDepthSeen
  turns : ctx.turns.length ≤ ctx'.turns.length

theorem Grows.trans {ctx''} (first : Grows ctx ctx') (next : Grows ctx' ctx'') :
    Grows ctx ctx'' := by
  obtain ⟨⟨_, _, _⟩, _, _, _⟩ := first
  obtain ⟨⟨_, _, _⟩, _, _, _⟩ := next
  constructor <;> omega

theorem Left.before (left : Left ctx') (grows : Grows ctx ctx') : Left ctx := by
  obtain ⟨⟨steps, depth, turns⟩, _, _, _⟩ := grows
  unfold Left at left ⊢
  omega

theorem Grows.refl (ctx : WorkingContext) : Grows ctx ctx :=
  ⟨⟨rfl, rfl, rfl⟩, le_rfl, le_rfl, le_rfl⟩

theorem grows_spent (log : EventLog) (seq : Nat) (payload : Except String SlmContextEvent) :
    Grows (spent budget log) (spent budget (log ++ [(seq, payload)])) := by
  simp only [spent, foldl_append, foldl_cons, foldl_nil]
  generalize log.foldl _ _ = ctx
  have slot (turn : Nat) : ctx.turns.length ≤ (turnSlot ctx.turns turn).length := by
    unfold turnSlot
    split <;> simp
  rcases payload with detail | event
  · exact .refl ctx
  · cases event with
    | turnPrompted _ turn | turnCompleted _ turn | turnDegraded _ turn =>
      exact ⟨⟨rfl, rfl, rfl⟩, le_rfl, le_rfl, slot turn⟩
    | stepAdmitted =>
      refine ⟨⟨rfl, rfl, rfl⟩, ?_, le_max_left _ _, le_rfl⟩
      show _ ≤ saturatingSucc _
      unfold saturatingSucc
      split <;> omega
    | _ => exact .refl ctx

def OverBudget (d : Decision) : Prop :=
  d = .rejected .budgetExhausted ∨ d = .rejected .depthExceeded

theorem admitProposal_cases {spec policy validate off d}
    (is : admitProposal spec ctx policy validate off = d) :
    (∀ depth, d = .admitted depth → ctx.budget.exhausted = none ∧
      depth = saturatingSucc ctx.budget.maxDepthSeen) ∧
    (OverBudget d → ctx.budget.exhausted ≠ none) := by
  unfold admitProposal at is
  repeat' split at is
  all_goals
    subst is
    simp_all [OverBudget]

structure Bounded (budget : Budget) (ctx : WorkingContext) (decided : List Decision) : Prop where
  grown : Grows ⟨[], budget⟩ ctx
  steps : decided.countP Decision.isAdmitted ≤ budget.maxGeneratedSteps
  counted : decided.countP Decision.isAdmitted ≤ ctx.budget.stepsAdmitted
  depths : ∀ depth, .admitted depth ∈ decided → depth ≤ budget.maxDepth
  closed : ∀ d ∈ decided, OverBudget d → ¬Left ctx
  last : decided.Pairwise fun d d' => OverBudget d → d'.isAdmitted = false

variable {decided : List Decision}

theorem Bounded.grow (h : Bounded budget ctx decided) (grows : Grows ctx ctx') :
    Bounded budget ctx' decided where
  grown := h.grown.trans grows
  steps := h.steps
  counted := h.counted.trans grows.steps
  depths := h.depths
  closed d mem over_budget left := h.closed d mem over_budget (left.before grows)
  last := h.last

theorem Bounded.decide {d : Decision} (h : Bounded budget ctx decided) (grows : Grows ctx ctx')
    (admits : d.isAdmitted → Left ctx ∧ ctx'.budget.stepsAdmitted = ctx.budget.stepsAdmitted + 1)
    (depth : ∀ depth, d = .admitted depth → depth ≤ budget.maxDepth)
    (rejects : OverBudget d → ¬Left ctx) : Bounded budget ctx' (decided ++ [d]) := by
  obtain ⟨grown, steps, counted, depths, closed, last⟩ := h.grow grows
  have count : (decided ++ [d]).countP Decision.isAdmitted ≤ budget.maxGeneratedSteps ∧
      (decided ++ [d]).countP Decision.isAdmitted ≤ ctx'.budget.stepsAdmitted := by
    cases is : d.isAdmitted with
    | false => simpa [is] using ⟨steps, counted⟩
    | true =>
      obtain ⟨left, more⟩ := admits is
      have room : _ < budget.maxGeneratedSteps := h.grown.limits.1 ▸ left.1
      have before := h.counted
      simp only [countP_append, countP_singleton, is, if_true]
      omega
  refine ⟨grown, count.1, count.2, fun n mem => ?_, fun d' mem over_budget left => ?_, ?_⟩
  · exact (mem_append.1 mem).elim (depths n) fun new => depth n (mem_singleton.1 new).symm
  · rcases mem_append.1 mem with old | new
    · exact closed d' old over_budget left
    · exact rejects (mem_singleton.1 new ▸ over_budget) (left.before grows)
  · refine pairwise_append.2 ⟨last, pairwise_singleton _ _, fun d' mem d'' new over_budget => ?_⟩
    rw [mem_singleton.1 new, ← Bool.not_eq_true]
    exact fun is => h.closed d' mem over_budget (admits is).1

theorem Decides.bounded (decides : Decides executionId budget log decided)
    (few : (spent budget log).turns.length < 2 ^ 32) :
    Bounded budget (spent budget log) decided := by
  induction decides with
  | start => exact ⟨.refl _, Nat.zero_le _, Nat.zero_le _, nofun, nofun, .nil⟩
  | @event log _ seq payload _ ih =>
    have grows := (grows_spent log seq payload : Grows (spent budget log) _)
    exact (ih (grows.turns.trans_lt few)).grow grows
  | @decide log decided upToSeq ctx d seq spec policy validate off _ covered folds is ih =>
    obtain ⟨admits, rejects⟩ := admitProposal_cases is
    have grows : Grows (spent budget log) (spent budget (log ++ recorded executionId seq d)) := by
      cases d with
      | admitted depth => exact grows_spent log seq _
      | _ => simpa only [recorded, append_nil] using .refl _
    have few := grows.turns.trans_lt few
    obtain ⟨seen, opens⟩ := fold_spent folds covered few
    obtain ⟨most, deepest, -⟩ := (ih few).grown.limits
    refine (ih few).decide grows (fun is_admitted => ?_) (fun depth is_depth => ?_)
      fun over_budget => mt opens.2 (rejects over_budget)
    · cases d with
      | admitted depth =>
        have left := opens.1 (admits depth rfl).1
        refine ⟨left, ?_⟩
        have fits := (spent budget log).budget.fits
        simp only [recorded, spent, foldl_append]
        exact if_pos (left.1.trans_le fits)
      | _ => cases is_admitted
    · obtain ⟨room, rfl⟩ := admits depth is_depth
      have low : _ < budget.maxDepth := deepest ▸ (opens.1 room).2.1
      rw [seen, saturatingSucc]
      split <;> omega

theorem generation_is_bounded (decides : Decides executionId budget log decided)
    (few : (spent budget log).turns.length < 2 ^ 32) :
    decided.countP Decision.isAdmitted ≤ budget.maxGeneratedSteps ∧
      (∀ depth, .admitted depth ∈ decided → depth ≤ budget.maxDepth) ∧
      decided.Pairwise fun d d' => OverBudget d → d'.isAdmitted = false :=
  have bounded := decides.bounded few
  ⟨bounded.steps, bounded.depths, bounded.last⟩

def oneStep : Budget := ⟨1, 2, 2, 0, 0, 0, none, by decide⟩

def runsOnly : Policy := ⟨["run"], [], [], false, []⟩

def runProposal : Json := .object [("kind", .string "run")]

/-- A proposal is admitted, and the next one is rejected for the budget. -/
theorem generation_is_bounded_of_oneStep :
    ∃ log, Decides "e" oneStep log [.admitted 1, .rejected .budgetExhausted] ∧
      [Decision.admitted 1, .rejected .budgetExhausted].countP Decision.isAdmitted ≤ 1 := by
  have first : Decides "e" oneStep [(1, .ok (.stepAdmitted "e" 1))] [.admitted 1] :=
    @Decides.decide _ _ [] [] 0 _ _ 1 runProposal runsOnly
      (fun _ => true) false .start nofun rfl rfl
  have both : Decides "e" oneStep _ [.admitted 1, .rejected .budgetExhausted] :=
    @Decides.decide _ _ _ _ 1 _ _ 2 runProposal runsOnly (fun _ => true) false first
      (by decide) rfl rfl
  exact ⟨_, both, (generation_is_bounded both (by decide)).1⟩

end Ehdb.Theorems
