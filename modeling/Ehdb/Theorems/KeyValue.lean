import Ehdb.Proof.Feed.Kv
import Ehdb.Proof.Feed.KvSweep

/-! Whether buckets behave like a map from buckets and keys with expiry, and whether a sweep of
expired keys can be seen by the calls that run beside it. -/

namespace Ehdb.Theorems

open Feed ProofKit Proof.Kv
open L0 (KvStore Outcome)
open KvCoordinator (get scan)

/-- After calls on buckets without a slash, with keys that do not start with their own bucket and a
slash and expiries that fit in a `u64`: `get` returns the value put last under this bucket and key,
unless it was deleted or has expired, and `scan` every key and value of the bucket for which `get`
does so, once. -/
theorem buckets_are_a_map (E : EnvelopeCodec) (calls : List (Nat × KvCall))
    (regular : ∀ call ∈ calls, Regular call) (now : Nat) (bucket : String) (plain : Plain bucket) :
    (∀ key, get E now bucket key (runKvCalls E calls) =
      .ok ((KvMap.after calls).get now bucket key)) ∧
    (∀ key value, (key, value) ∈ scan E now bucket (runKvCalls E calls) ↔
      (KvMap.after calls).get now bucket key = some value) ∧
    ((scan E now bucket (runKvCalls E calls)).map Prod.fst).Nodup :=
  have rep := represents regular
  ⟨rep.get plain now, fun _ _ => rep.mem_scan plain, rep.scan_nodup plain now⟩

def unaryCodec : EnvelopeCodec where
  toString e := .ofList (List.replicate e.exp 'e' ++ ':' :: e.v.toList)
  fromStr s :=
    match s.toList.dropWhile (· = 'e') with
    | ':' :: v => some ⟨.ofList v, (s.toList.takeWhile (· = 'e')).length⟩
    | _ => none
  fromStr_toString e _ := by
    obtain ⟨v, exp⟩ := e
    simp

def sessions : List (Nat × KvCall) :=
  [(5, .put "a" "k" "x" 0), (6, .put "b" "k" "y" 10), (7, .put "a" "l" "z" 0), (8, .delete "a" "l")]

theorem sessions_are_a_map :
    get unaryCodec 15 "b" "k" (runKvCalls unaryCodec sessions) = .ok (some "y") ∧
    get unaryCodec 16 "b" "k" (runKvCalls unaryCodec sessions) =
      .ok ((KvMap.after sessions).get 16 "b" "k") ∧
    scan unaryCodec 16 "a" (runKvCalls unaryCodec sessions) = [("k", "x")] :=
  ⟨by decide, (buckets_are_a_map unaryCodec sessions (by decide) 16 "b" (by decide)).1 "k",
    by decide⟩

/-- A bucket with a slash reads the keys of another one, a scan shortens a key that starts with its
bucket, and an expiry that overflows is in the past. -/
theorem buckets_are_no_map : (get unaryCodec 1 "a/b" "c"
        (runKvCalls unaryCodec [(0, .put "a" "b/c" "x" 0)]) = .ok (some "x") ∧
      (KvMap.after [(0, .put "a" "b/c" "x" 0)]).get 1 "a/b" "c" = none) ∧ (scan unaryCodec 1 "a"
        (runKvCalls unaryCodec [(0, .put "a" "a/k" "x" 0)]) = [("k", "x")] ∧
      (KvMap.after [(0, .put "a" "a/k" "x" 0)]).get 1 "a" "k" = none) ∧ (get unaryCodec 3 "a" "k"
        (runKvCalls unaryCodec [(2, .put "a" "k" "x" (2 ^ 64 - 1))]) = .ok none ∧
      (KvMap.after [(2, .put "a" "k" "x" (2 ^ 64 - 1))]).get 3 "a" "k" = some "x") := by
  decide

/-- In a run in which no put to a victim of a sweep comes between the two sections of the sweep,
and in which the clock does not go backwards, every `get` and `scan` returns what it returns in
the same run with sweeps that do nothing, and sweeps delete expired entries only. -/
theorem sweeps_are_invisible (E : EnvelopeCodec) (store : KvStore) (clock : Nat)
    (moves : List (Move Outcome KvRequest Nat))
    (calm : undisturbed (runCoordinator E true store clock moves).shared.trace = true) :
    (∀ i request answer, Reads request →
      (runCoordinator E true store clock moves).answer i = some (request, answer) →
      (runCoordinator E false store clock moves).answer i = some (request, answer)) ∧
    ∀ sweep doomed live,
      .swept sweep doomed live ∈ (runCoordinator E true store clock moves).shared.trace →
      live = [] := by
  have start : Beside E ⟨store, clock, []⟩ ⟨store, clock, []⟩ :=
    ⟨rfl, fun _ => .inl rfl, fun _ _ cleared => absurd cleared Bool.false_ne_true,
      fun _ _ _ mem => absurd mem List.not_mem_nil⟩
  have paired := Pool.run_paired follows_disturbing keeps_calm sweeps_paired start moves calm
  refine ⟨fun i request answer reads answered => ?_, paired.shared.spared⟩
  obtain ⟨answer', answered', same⟩ := paired.answer answered
  rw [same reads]
  exact answered'

def kvSteps (i n : Nat) : List (Move Outcome KvRequest Nat) := List.replicate n (.act i .ok)

/-- A session expires at 1; a sweep at 2 collects it; the session is refreshed, before or after
the sweep deletes what it collected; and the session is looked up. -/
def refreshed (between : Bool) : List (Move Outcome KvRequest Nat) :=
  .call (.call (.put "s" "k" "old" 1)) :: kvSteps 0 2 ++
  .world 2 :: .call (.sweepExpired "s") :: kvSteps 1 2 ++ .call (.call (.put "s" "k" "new" 3)) ::
    (if between then kvSteps 2 2 ++ kvSteps 1 1 else kvSteps 1 1 ++ kvSteps 2 2) ++
  .call (.call (.get "s" "k")) :: kvSteps 3 1

theorem refresh_after_sweep_is_seen :
    (runCoordinator unaryCodec true .empty 0 (refreshed false)).answer 3 =
      some (.call (.get "s" "k"), .got (.ok (some "new"))) ∧
    (runCoordinator unaryCodec false .empty 0 (refreshed false)).answer 3 =
      some (.call (.get "s" "k"), .got (.ok (some "new"))) :=
  have seen : (runCoordinator unaryCodec true .empty 0 (refreshed false)).answer 3 =
      some (.call (.get "s" "k"), .got (.ok (some "new"))) := by decide
  ⟨seen, (sweeps_are_invisible unaryCodec .empty 0 (refreshed false) (by decide)).1 3 _ _
    trivial seen⟩

/-- A session that is refreshed between the two sections of a sweep is deleted by it. -/
theorem refresh_during_sweep_is_lost :
    (runCoordinator unaryCodec true .empty 0 (refreshed true)).answer 3 =
      some (.call (.get "s" "k"), .got (.ok none)) ∧
    (runCoordinator unaryCodec false .empty 0 (refreshed true)).answer 3 =
      some (.call (.get "s" "k"), .got (.ok (some "new"))) ∧ .swept 1 ["s/k"] ["s/k"] ∈
      (runCoordinator unaryCodec true .empty 0 (refreshed true)).shared.trace := by
  decide

end Ehdb.Theorems
