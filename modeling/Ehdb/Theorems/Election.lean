import Ehdb.Proof.Reference.Election

/-! A token that an elector holds is one that it acquired itself, unless it was started under an
identity that the lease still names. -/

namespace Ehdb.Theorems

open ProofKit Ehdb.Reference Ehdb.Proof.Reference

abbrev ElectionMove := Move Nat ElectionCall ElectionEvent

def runElection (moves : List ElectionMove) : Pool Election Nat ElectionCall ElectionAnswer :=
  (Pool.start .empty).run electionService moves

/-- Call `i` returned that elector `e` acquired the lease of its shard with the epoch. -/
def ReturnedEpoch (moves : List ElectionMove) (i e : Nat) (lease : String) (epoch : Nat) : Prop :=
  ∃ call elector, (runElection moves).answer i = some (call, .ok (some (.acquired epoch))) ∧
    call.elector = e ∧ (runElection moves).shared.electors[e]? = some elector ∧
    elector.leaseName = lease

/-- In every run in which no elector is started under an identity that a running elector of its
shard has or the lease of its shard names: an epoch of a lease is returned by one acquisition, the
epochs go up, and a token that an elector holds is one that it acquired. -/
theorem epoch_has_one_holder (moves : List ElectionMove)
    (calm : (runElection moves).shared.clash = false) :
    (∀ i j e e' lease epoch, ReturnedEpoch moves i e lease epoch →
      ReturnedEpoch moves j e' lease epoch → i = j ∧ e = e') ∧
    ((runElection moves).shared.acquisitions.Pairwise fun a b =>
      a.lease = b.lease → a.epoch < b.epoch) ∧
    (∀ i e lease epoch, ReturnedEpoch moves i e lease epoch →
      ⟨i, e, lease, epoch⟩ ∈ (runElection moves).shared.acquisitions) ∧
    ∀ e elector epoch, (runElection moves).shared.electors[e]? = some elector →
      elector.held = some epoch →
      ∃ call, ⟨call, e, elector.leaseName, epoch⟩ ∈ (runElection moves).shared.acquisitions := by
  obtain ⟨ls, tracks⟩ := Pool.run_tracks electionService electionProtocol follows_election
    .empty moves
  obtain ⟨⟨epochs, owned⟩, stages⟩ := keeps_election.reach tracks.reach trivial
    ⟨⟨.nil, nofun⟩, fun _ => ⟨nofun, nofun, nofun⟩⟩
  have recorded : ∀ i e lease epoch, ReturnedEpoch moves i e lease epoch →
      (⟨i, e, lease, epoch⟩ : Acquisition) ∈ (runElection moves).shared.acquisitions := by
    rintro i e lease epoch ⟨call, elector, answered, rfl, found, rfl⟩
    obtain ⟨l, known, done⟩ := tracks.answered answered
    obtain ⟨self, rfl⟩ := done epoch rfl
    obtain ⟨-, ⟨⟨elector', found', -, shard⟩, taken⟩, -⟩ := stages i call _ known
    obtain rfl : elector = elector' := Option.some.inj (found.symm.trans found')
    rw [show elector.leaseName = self.leaseName from congrArg shardLeaseName shard]
    exact taken rfl
  refine ⟨?_, epochs.increasing, recorded, (owned calm).held⟩
  intro i j e e' lease epoch returned returned'
  have mem := recorded i e lease epoch returned
  have mem' := recorded j e' lease epoch returned'
  -- Two acquisitions of a lease have different epochs.
  have symm : Std.Symm fun a b : Acquisition => a.lease = b.lease → a.epoch ≠ b.epoch :=
    ⟨fun _ _ h same => (h same.symm).symm⟩
  have distinct := epochs.increasing.imp fun {a b} h (same : a.lease = b.lease) =>
    Nat.ne_of_lt (h same)
  by_contra differ
  refine distinct.forall mem mem' ?_ rfl rfl
  intro same
  cases same
  exact differ ⟨rfl, rfl⟩

/-- Elector `e` calls `try_acquire` as call `i`, which takes its actions at one time. -/
def acquiresAt (i e now actions : Nat) : List ElectionMove :=
  .call (.tryAcquire e) :: List.replicate actions (.act i now)

def takeover : List ElectionMove :=
  .world (.start "node-a" 0 15) :: acquiresAt 0 0 100 4 ++
    .world (.start "node-b" 0 15) :: acquiresAt 1 1 20000 4

theorem epoch_has_one_holder_after_takeover :
    (runElection takeover).shared.electors[1]? = some ⟨"node-b", 0, 15, some 2, true⟩ ∧
      ∃ call, ⟨call, 1, "ehdb-shard-00000000", 2⟩ ∈ (runElection takeover).shared.acquisitions :=
  have held : (runElection takeover).shared.electors[1]? =
      some ⟨"node-b", 0, 15, some 2, true⟩ := by decide
  ⟨held, (epoch_has_one_holder takeover (by decide)).2.2.2 1 _ 2 held rfl⟩

/-- A node acquires the lease, dies, and elects again under its identity before the lease has
expired. -/
def restart : List ElectionMove :=
  .world (.start "node-a" 0 15) :: acquiresAt 0 0 100 4 ++
    .world (.stop 0) :: .world (.start "node-a" 0 15) :: acquiresAt 1 1 200 6

/-- The elector of the second process holds the token of the first, and has acquired none. -/
theorem restarted_elector_holds_old_token :
    (runElection restart).shared.electors[1]? = some ⟨"node-a", 0, 15, some 1, true⟩ ∧
      (runElection restart).shared.acquisitions = [⟨0, 0, "ehdb-shard-00000000", 1⟩] ∧
      (runElection restart).answer 1 = some (.tryAcquire 1, .ok (some (.renewed 1))) := by
  refine ⟨by decide, by decide, ?_⟩
  rfl

end Ehdb.Theorems
