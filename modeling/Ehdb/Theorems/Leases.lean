import Ehdb.Proof.Core.Journal
import Ehdb.Reference.KvState

/-! A writer that asks for an absent key goes by the deletion of the last entry, a reader by its
expiry too. -/

namespace Ehdb.Theorems

open ProofKit Ehdb.Reference
open Proof.Journal (bind_eq_ok)
open LocalReferenceKvStateDriver
open LocalReferenceRuntime (openRuntime)

variable {O D : Type} {G : Engines O D} {K : KvText} {driver : LocalReferenceKvStateDriver}
  {runtime : LocalReferenceRuntime O D} {file : LogFile O} {req : KvPutRequest}
  {subject : String}

/-- The last entry of the key was not deleted, and its time has passed. -/
def Lapsed (latest : Option KvEnvelope) (t : Nat) : Prop :=
  ∃ env, latest = some env ∧ env.deleted = false ∧ isExpired env.expiresAtMs (some t) = true

theorem written_of_put (opened : openRuntime G file = .ok runtime)
    (is_subject : keySubject K req.bucket req.key = .ok subject) {outcome}
    (done : (driver.put K G req file).1 = .ok outcome) : outcome.written = satisfied
      (liveVersion (driver.latestEnvelope K runtime subject req.key)) req.cas := by
  unfold LocalReferenceKvStateDriver.put at done
  split at done
  case h_2 => cases done
  rename_i bucket subject' runtime' prepared
  obtain ⟨_, -, h⟩ := bind_eq_ok prepared
  obtain ⟨_, -, h⟩ := bind_eq_ok h
  obtain ⟨_, same, h⟩ := bind_eq_ok h
  by_cases big : maxKvValueBytes < req.value.utf8ByteSize
  · rw [if_pos big] at h
    obtain ⟨_, refused, -⟩ := bind_eq_ok h
    cases refused
  · rw [if_neg big] at h
    obtain ⟨_, -, h⟩ := bind_eq_ok h
    obtain ⟨_, again, h⟩ := bind_eq_ok h
    obtain rfl := Except.ok.inj (is_subject.symm.trans same)
    obtain rfl := Except.ok.inj (opened.symm.trans again)
    obtain ⟨-, rfl, rfl⟩ : _ ∧ _ ∧ _ := by simpa [pure, Except.pure] using h
    unfold Session.call at done
    split at done
    case h_2 => cases done
    rename_i result runtime' file' ends
    obtain rfl : result = .ok outcome := done
    replace ends : (driver.write K G _ _ _).outcome () runtime file = _ := ends
    unfold LocalReferenceKvStateDriver.write at ends
    rw [Task.outcome_memory_bind] at ends
    dsimp only at ends
    split at ends
    case isTrue meets =>
      obtain ⟨_, -, rfl⟩ := Task.outcome_map_eq_ok.1 ends
      exact meets.symm
    case isFalse fails =>
      cases ends
      exact (Bool.not_eq_true _ ▸ fails).symm

theorem found_of_get (opened : openRuntime G file = .ok runtime)
    (asked : KvGetRequest) (is_subject : keySubject K asked.bucket asked.key = .ok subject)
    {answer} (done : driver.get K G asked file = .ok answer) :
    answer.found = (driver.latestEnvelope K runtime subject asked.key).any fun env =>
      !env.deleted && !isExpired env.expiresAtMs asked.nowMs := by
  obtain ⟨_, -, h⟩ := bind_eq_ok done
  obtain ⟨_, same, h⟩ := bind_eq_ok h
  obtain ⟨_, -, h⟩ := bind_eq_ok h
  obtain ⟨_, again, h⟩ := bind_eq_ok h
  cases is_subject.symm.trans same
  cases opened.symm.trans again
  cases found : driver.latestEnvelope K runtime subject asked.key with
  | none =>
    rw [found] at h
    cases h
    rfl
  | some env =>
    rw [found] at h
    dsimp only at h
    split at h
    · cases h
      simp [*]
    · split at h <;> cases h <;> simp [*]

/-- Whatever the log holds, so after every history of calls: a create-only write that comes to an
outcome at `t` is written if and only if a get at `t` reports the key as not found, exactly if the
last entry of the key has not lapsed at `t`. -/
theorem create_only_as_read_iff {t : Nat} (create : req.cas = some .absent)
    (opened : openRuntime G file = .ok runtime)
    (is_subject : keySubject K req.bucket req.key = .ok subject)
    {outcome : KvPutOutcome} (put : (driver.put K G req file).1 = .ok outcome)
    {answer : KvGetOutcome}
    (get : driver.get K G ⟨req.bucket, req.key, some t⟩ file = .ok answer) :
    (outcome.written = true ↔ answer.found = false) ↔
      ¬ Lapsed (driver.latestEnvelope K runtime subject req.key) t := by
  rw [written_of_put opened is_subject put, create,
    found_of_get opened ⟨req.bucket, req.key, some t⟩ is_subject get]
  cases driver.latestEnvelope K runtime subject req.key with
  | none => simp [Lapsed, satisfied, liveVersion]
  | some env => cases deleted : env.deleted <;> simp [Lapsed, satisfied, liveVersion, deleted]

/-- A text for the entries of one key. -/
def leaseText : KvText where
  keyDigestToken := id
  toVec env := [env.version.toUInt8, (env.expiresAtMs.getD 0).toUInt8, env.deleted.toUInt8]
  fromSlice
    | [version, expiry, deleted] =>
      some ⟨"b", "k", "v", version.toNat, deleted = 1, some expiry.toNat⟩
    | _ => none

def bareEngines : Engines Empty Unit := ⟨(), nofun, nofun, nofun⟩

/-- A lease that is asked for until this time, under a condition. -/
def putLease (transactionId : String) (deadline : Nat) (cas : KvCasExpectation)
    (file : LogFile Empty) : Result KvPutOutcome × LogFile Empty :=
  put ⟨"t", "n"⟩ leaseText bareEngines ⟨"b", "k", "v", some deadline, some cas, transactionId⟩ file

def getLease (now : Nat) (file : LogFile Empty) : Result KvGetOutcome :=
  get ⟨"t", "n"⟩ leaseText bareEngines ⟨"b", "k", some now⟩ file

def lastLease (file : LogFile Empty) : Option KvEnvelope :=
  latestEnvelope ⟨"t", "n"⟩ leaseText ((openRuntime bareEngines file).toOption.getD
    ⟨.empty, .default bareEngines⟩) "noetl.kv.b.k" "k"

def leased : LogFile Empty := (putLease "tx-1" 5 .absent []).2

def renewed : LogFile Empty := (putLease "tx-2" 20 (.version 1) leased).2

/-- The lease is given up: the last entry says that it is deleted. -/
def givenUp : LogFile Empty :=
  renewed ++ [⟨3, "tx-3", "t", "n", [.stream (.publish kvStateStream "noetl.kv.b.k"
    (leaseText.toVec ⟨"b", "k", "", 3, true, none⟩) 3)]⟩]

theorem lease_taken_when_free :
    (getLease 10 renewed).map KvGetOutcome.found = .ok true ∧
    (getLease 30 givenUp).map KvGetOutcome.found = .ok false ∧
    ¬Lapsed (lastLease leased) 4 ∧ ¬Lapsed (lastLease renewed) 10 ∧
      ¬Lapsed (lastLease givenUp) 30 := by
  have opens (file : LogFile Empty) (ok : (openRuntime bareEngines file).isOk = true) :
      openRuntime bareEngines file = .ok ((openRuntime bareEngines file).toOption.getD
        ⟨.empty, .default bareEngines⟩) := by
    cases is : openRuntime bareEngines file with
    | ok runtime => rfl
    | error e =>
      rw [is] at ok
      cases ok
  have held : (putLease "tx-4" 9 .absent leased).1 =
      .ok ⟨"kv-put", "b", "k", 1, false, true, some 1, false, 0, 1⟩ := by decide +kernel
  have found : getLease 4 leased =
      .ok ⟨"kv-get", "b", "k", true, false, some ⟨"b", "k", "v", 1, some 5⟩⟩ := by decide +kernel
  have still : (putLease "tx-4" 9 .absent renewed).1 =
      .ok ⟨"kv-put", "b", "k", 2, false, true, some 2, false, 0, 1⟩ := by decide +kernel
  have later : getLease 10 renewed =
      .ok ⟨"kv-get", "b", "k", true, false, some ⟨"b", "k", "v", 2, some 20⟩⟩ := by decide +kernel
  have free : (putLease "tx-4" 40 .absent givenUp).1 =
      .ok ⟨"kv-put", "b", "k", 4, true, false, some 4, false, 4, 1⟩ := by decide +kernel
  have missing : getLease 30 givenUp = .ok ⟨"kv-get", "b", "k", false, false, none⟩ :=
    by decide +kernel
  exact ⟨by rw [later]; rfl, by rw [missing]; rfl,
    (create_only_as_read_iff rfl (opens leased (by decide)) (by decide) held found).1 (by decide),
    (create_only_as_read_iff rfl (opens renewed (by decide +kernel)) (by decide) still later).1
      (by decide),
    (create_only_as_read_iff rfl (opens givenUp (by decide +kernel)) (by decide) free missing).1
      (by decide)⟩

/-- At 10 the lease has lapsed for a reader, and is refused to a writer. -/
theorem lapsed_lease_refused :
    getLease 10 leased = .ok ⟨"kv-get", "b", "k", false, true, none⟩ ∧
      (putLease "tx-2" 15 .absent leased).1 =
        .ok ⟨"kv-put", "b", "k", 1, false, true, some 1, false, 0, 1⟩ := by
  decide

end Ehdb.Theorems
