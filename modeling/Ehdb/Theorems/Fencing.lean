import Ehdb.Proof.Core.Clock
import Ehdb.Proof.Core.Fence

/-! When every timestamp that the clock issues is above all that it issued and observed before. -/

namespace Ehdb.Theorems

open Ehdb.Core ProofKit Proof.Clock Proof.Fence
open L0 (Outcome)

/-- The clock is monotone and causal in a run exactly if each `now` of the run finds milliseconds of
the source whose low 48 bits are above the last ones, or a source that is not above them and a last
value below the highest one. -/
theorem clock_monotone_and_causal_iff (seed : Hlc) (calls : List ClockCall) :
    MonotoneAndCausal seed calls ↔ Advancing (.seededFrom seed) calls := by
  constructor
  · rintro monotone before physical after rfl
    have above := monotone _ _ _ (run_append _ before (.now physical :: after))
    rw [← lt_next_iff]
    rcases after_state_known (.seededFrom seed) before with eq | ⟨stamp, mem, eq⟩
    · rw [eq] at above ⊢
      exact above.1
    · exact eq ▸ above.2 stamp mem
  · intro advancing before value after ran
    obtain ⟨earlier, c, later, rfl, rfl, issued⟩ := split_of_run _ ran
    cases c with
    | observe remote => cases issued
    | now physical =>
      cases issued
      obtain ⟨seed_le, known_le⟩ := advancing.left.known_le
      have above := lt_iff_toNat.1 ((lt_next_iff _ _).2 (advancing earlier physical later rfl))
      refine ⟨lt_iff_toNat.2 (seed_le.trans_lt above), ?_⟩
      intro stamp mem
      exact lt_iff_toNat.2 ((known_le stamp mem).trans_lt above)

/-- A source that reads `2 ^ 48` milliseconds takes the clock back to zero, and so does the call
after the highest timestamp was observed. -/
theorem clock_goes_back : ¬MonotoneAndCausal ⟨5⟩ [.now (2 ^ 48)] ∧
      ¬MonotoneAndCausal ⟨0⟩ [.observe ⟨2 ^ 64 - 1⟩, .now 7] := by
  constructor
  · intro monotone
    have above := (monotone [] ⟨0⟩ [] (by decide)).1
    exact absurd above (by decide)
  · intro monotone
    have above := (monotone [.observed ⟨2 ^ 64 - 1⟩] ⟨0⟩ [] (by decide)).2
    exact absurd (above _ (List.mem_singleton_self _)) (by decide)

/-- The marker does not go down between two moments of a run, and once an epoch was found fresh no
call that starts later finds a lower one fresh. -/
def MarkRises (marker : Option MarkerBody) (moves later : List (Move Outcome FenceCall Empty)) :
    Prop :=
  Rises (runFence marker moves).shared.marker (runFence marker (moves ++ later)).shared.marker ∧
    ∀ (i : Nat) (call : FenceCall) (epoch : Nat) (advanced : Bool),
      (runFence marker moves).answer i = some (call, .ok (.fresh epoch advanced)) →
      ∀ (j : Nat) (call' : FenceCall) (result : Except FenceError FenceDecision),
        (runFence marker moves).calls.length ≤ j →
        (runFence marker (moves ++ later)).answer j = some (call', result) →
        call'.epoch < call.epoch →
          (∃ observed highest, result = .ok (.stale observed highest)) ∨ ∃ e, result = .error e

/-- The high-water mark only rises in a run in which no call takes the lock of its marker while a
call that has another lock for it is at it: a call of another process, or of a ledger whose root is
spelled differently. -/
theorem fence_mark_only_rises (marker : Option MarkerBody)
    (moves later : List (Move Outcome FenceCall Empty))
    (alone : oneAtATime (runFence marker (moves ++ later)).shared.trace = true) :
    MarkRises marker moves later := by
  obtain ⟨ls, tracks⟩ := Pool.run_tracks fenceService fenceProtocol follows_checkAndAdvance
    (.opened marker) moves
  obtain ⟨ls', onward, tracks'⟩ := tracks.run follows_checkAndAdvance later
  have joined : ((Pool.start (.opened marker)).run fenceService moves).run fenceService later =
      runFence marker (moves ++ later) := (Pool.run_append _ _ _ _).symm
  rw [joined] at onward tracks'
  have young {k : Nat} {entry : FenceCall × Option (FenceCall × Stage)}
      (at_k : ls[k]? = some entry) (past : ls.length ≤ k) : False :=
    absurd (List.getElem?_eq_some_iff.1 at_k).1 (Nat.not_lt.2 past)
  have kept (floor : Nat) := (keeps_fence (runFence marker moves).shared.marker floor
    ls.length).later onward alone
  have calls := ((keeps_fence marker 0 0).reach tracks.reach (kept 0).1 ⟨.refl _, Nat.zero_le _⟩).2
  refine ⟨((kept 0).2 ⟨⟨.refl _, Nat.zero_le _⟩, fun k q l at_k =>
    ⟨(calls k q l at_k).1, fun past => (young at_k past).elim⟩⟩).1.1, ?_⟩
  intro i call epoch advanced answered j call' result started answered' below
  obtain ⟨l, known, rfl⟩ := tracks.answered answered
  obtain ⟨l', known', rfl⟩ := tracks'.answered answered'
  have fresh := (calls i _ _ known).1.stage
  obtain ⟨own, above⟩ := ((kept epoch).2 ⟨⟨.refl _, fresh.2⟩, fun k q l at_k =>
    ⟨(calls k q l at_k).1, fun past => (young at_k past).elim⟩⟩).2 j _ _ known'
  cases result with
  | error e => exact .inr ⟨e, rfl⟩
  | ok decision =>
    cases decision with
    | stale observed highest => exact .inl ⟨observed, highest, rfl⟩
    | fresh epoch' advanced' =>
      have le : epoch ≤ epoch' := above (tracks.length.trans_le started)
      have := fresh.1
      have := own.stage.1
      omega

def ledgerOf (p : Nat) : MarkerKey := ⟨p, ⟨"/var/ehdb/fence"⟩⟩

def fenceSteps (i n : Nat) : List (Move Outcome FenceCall Empty) := List.replicate n (.act i .ok)

/-- A call of one process is answered, then one of another process with a lower epoch. -/
theorem superseded_epoch_is_stale : (runFence none (.call ⟨ledgerOf 0, 7⟩ :: fenceSteps 0 10 ++
        .call ⟨ledgerOf 1, 5⟩ :: fenceSteps 1 10)).answer 1 =
      some (⟨ledgerOf 1, 5⟩, .ok (.stale 5 7)) ∧
    MarkRises none (.call ⟨ledgerOf 0, 7⟩ :: fenceSteps 0 10)
      (.call ⟨ledgerOf 1, 5⟩ :: fenceSteps 1 10) :=
  ⟨by decide, fence_mark_only_rises _ _ _ (by decide)⟩

/-- Two processes find no marker; the one with the lower epoch replaces it last. -/
def racingAdvances : List (Move Outcome FenceCall Empty) :=
  .call ⟨ledgerOf 0, 7⟩ :: .call ⟨ledgerOf 1, 5⟩ :: fenceSteps 0 2 ++ fenceSteps 1 2 ++
    fenceSteps 0 8 ++ fenceSteps 1 8

/-- The marker goes from 7 back to 5, and 6 is found fresh after 7 was. -/
theorem fence_mark_goes_down : ¬MarkRises none (racingAdvances.take 14) (racingAdvances.drop 14) ∧
      ¬MarkRises none racingAdvances (.call ⟨ledgerOf 2, 6⟩ :: fenceSteps 2 10) := by
  constructor
  · intro rises
    obtain ⟨e', is, le⟩ := rises.1 7 (by decide)
    have at_five : (runFence none
        (racingAdvances.take 14 ++ racingAdvances.drop 14)).shared.marker = some (.epoch 5) := by
      decide
    rw [at_five] at is
    cases is
    omega
  · intro rises
    have refused := rises.2 0 ⟨ledgerOf 0, 7⟩ 7 true (by decide) 2 ⟨ledgerOf 2, 6⟩
      (.ok (.fresh 6 true)) (by decide) (by decide) (by decide)
    rcases refused with ⟨_, _, is⟩ | ⟨_, is⟩ <;> cases is

end Ehdb.Theorems
