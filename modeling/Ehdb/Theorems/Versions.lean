import Ehdb.L0.Kv

/-! The version of a write is one above what `get` shows, and `get` shows nothing of a key that was
deleted: a key that is written again after a delete starts at version 1. -/

namespace Ehdb.Theorems

open L0 List

inductive KvCall where
  | put (key value : String)
  | delete (key : String)
  | compareAndSet (key : String) (expectedVersion : Nat) (value : String)
  deriving DecidableEq

def KvCall.apply (s : KvStore) : KvCall → KvStore
  | .put key value => (s.put key value).2
  | .delete key => (s.delete key).2
  | .compareAndSet key expectedVersion value => (s.compareAndSet key expectedVersion value).2

def kvRun (calls : List KvCall) : KvStore := calls.foldl KvCall.apply .empty

/-- What was written for a key, tombstones among it, in order. -/
def written (s : KvStore) (key : String) : List KvOp := s.readIndexAfter key 0

/-- Whether a call writes a key that was deleted. -/
def KvCall.revives (s : KvStore) : KvCall → Prop
  | .put key _ => s.get key = none ∧ written s key ≠ []
  | .delete _ => False
  | .compareAndSet key expectedVersion _ =>
    expectedVersion = 0 ∧ s.get key = none ∧ written s key ≠ []

def RevivesNothing (calls : List KvCall) : Prop :=
  ∀ (n : Nat) (call : KvCall), calls[n]? = some call → ¬call.revives (kvRun (calls.take n))

/-- A `get` after the first `n` calls shows version `v` of a key, or the last of them is a `put`
that returned it. -/
def Obtained (calls : List KvCall) (n : Nat) (key : String) (v : Nat) : Prop :=
  ((kvRun (calls.take n)).get key).map KvEntry.version = some v ∨
    ∃ m value, n = m + 1 ∧ calls[m]? = some (.put key value) ∧
      ((kvRun (calls.take m)).put key value).1 = v

section Steps

variable {s : KvStore} {key : String} {e : KvEntry}

theorem written_append (s : KvStore) (key value : String) (version : Nat) (deleted : Bool)
    (other : String) : written (s.append key value version deleted) other = written s other ++
        if key = other then [⟨s.globalSequence + 1, key, value, version, deleted⟩] else [] := by
  simp only [written, KvStore.readIndexAfter_zero, KvStore.append, filter_append]
  by_cases same : key = other <;> simp [same]

theorem get_eq_some (found : s.get key = some e) :
    ∃ before op, written s key = before ++ [op] ∧ op.version = e.version := by
  obtain ⟨op, last, live⟩ := Option.bind_eq_some_iff.1 found
  split at live
  · cases live
  · cases live
    obtain ⟨before, eq⟩ := getLast?_eq_some_iff.1 last
    exact ⟨before, op, eq, rfl⟩

/-- A call changes nothing, or it writes one record, whose version is one above what `get` shows. -/
theorem apply_cases (s : KvStore) (call : KvCall) :
    call.apply s = s ∨ ∃ key value deleted, call.apply s =
      s.append key value (((s.get key).map KvEntry.version).getD 0 + 1) deleted ∧
        (¬call.revives s → s.get key = none → written s key = []) := by
  cases call with
  | put key value =>
    refine .inr ⟨key, value, false, rfl, fun calm absent => ?_⟩
    by_contra old
    exact calm ⟨absent, old⟩
  | delete key =>
    simp only [KvCall.apply, KvStore.delete]
    cases found : s.get key with
    | none => exact .inl rfl
    | some e =>
      refine .inr ⟨key, "", true, by rw [found]; rfl, fun _ absent => ?_⟩
      cases found.symm.trans absent
  | compareAndSet key expected value =>
    simp only [KvCall.apply, KvStore.compareAndSet]
    split
    · exact .inl rfl
    · rename_i same
      refine .inr ⟨key, value, false, rfl, fun calm absent => ?_⟩
      by_contra old
      rw [absent] at same
      exact calm ⟨(not_not.1 same).symm, absent, old⟩

end Steps

structure Versioned (s : KvStore) (key : String) : Prop where
  ascending : (written s key).Pairwise fun a b => a.version < b.version
  positive : ∀ op ∈ written s key, 0 < op.version

variable {s : KvStore} {key : String} {v : Nat} {calls : List KvCall}

theorem Versioned.apply (h : Versioned s key) {call : KvCall} (calm : ¬call.revives s) :
    Versioned (call.apply s) key := by
  rcases apply_cases s call with same | ⟨other, value, deleted, eq, fresh⟩
  · rwa [same]
  rw [eq]
  by_cases here : other = key
  · subst here
    have below : ∀ op ∈ written s other,
        op.version < ((s.get other).map KvEntry.version).getD 0 + 1 := by
      intro op mem
      cases found : s.get other with
      | none =>
        rw [fresh calm found] at mem
        cases mem
      | some e =>
        obtain ⟨before, last, split, version⟩ := get_eq_some found
        have ascending := h.ascending
        rw [split] at mem ascending
        show op.version < e.version + 1
        rcases mem_append.1 mem with old | new
        · have := (pairwise_append.1 ascending).2.2 op old last (mem_singleton.2 rfl)
          omega
        · rw [mem_singleton.1 new]
          omega
    constructor
    · rw [written_append, if_pos rfl]
      refine pairwise_append.2 ⟨h.ascending, pairwise_singleton _ _, fun op mem new is => ?_⟩
      rw [mem_singleton.1 is]
      exact below op mem
    · rw [written_append, if_pos rfl]
      intro op mem
      rcases mem_append.1 mem with old | new
      · exact h.positive op old
      · rw [mem_singleton.1 new]
        exact Nat.succ_pos _
  · constructor
    · simpa [written_append, here] using h.ascending
    · simpa [written_append, here] using h.positive

theorem kvRun_concat (calls : List KvCall) (call : KvCall) :
    kvRun (calls ++ [call]) = call.apply (kvRun calls) := foldl_append ..

theorem kvRun_versioned (calm : RevivesNothing calls) (key : String) :
    Versioned (kvRun calls) key := by
  induction calls using reverseRecOn with
  | nil => exact ⟨Pairwise.nil, nofun⟩
  | append_singleton calls call ih =>
    rw [kvRun_concat]
    refine (ih fun n c at_n => ?_).apply ?_
    · have lt := (List.getElem?_eq_some_iff.1 at_n).1
      have here := calm n c (by rwa [getElem?_append_left lt])
      rwa [take_append_of_le_length lt.le] at here
    · have here := calm calls.length call (by simp)
      rwa [take_left' rfl] at here

theorem written_of_take (calls : List KvCall) (n : Nat) (key : String) :
    written (kvRun (calls.take n)) key <+: written (kvRun calls) key := by
  conv_rhs => rw [← take_append_drop n calls, kvRun, foldl_append, ← kvRun]
  induction calls.drop n using reverseRecOn with
  | nil => exact prefix_rfl
  | append_singleton rest call ih =>
    rw [foldl_append]
    refine ih.trans ?_
    rw [foldl_cons, foldl_nil]
    rcases apply_cases (foldl KvCall.apply (kvRun (calls.take n)) rest) call
      with same | ⟨_, _, _, eq, -⟩
    · exact same.symm ▸ prefix_rfl
    · rw [eq, written_append]
      exact prefix_append _ _

theorem Obtained.get {n : Nat} (h : Obtained calls n key v) :
    ((kvRun (calls.take n)).get key).map KvEntry.version = some v := by
  rcases h with shown | ⟨m, value, rfl, at_m, rfl⟩
  · exact shown
  · rw [take_add_one, at_m, Option.toList_some, kvRun_concat, KvCall.apply, KvStore.put,
      KvStore.get_append, if_pos rfl]
    rfl

/-- In every run that writes no key that was deleted: the versions of a key go up, and a
`compare_and_set` with a version that was obtained succeeds only if the key was not written since.
-/
theorem versions_are_tokens (calm : RevivesNothing calls) :
    (∀ key, ((written (kvRun calls) key).map KvOp.version).Pairwise (· < ·)) ∧
    ∀ n key v value, Obtained calls n key v →
      ((kvRun calls).compareAndSet key v value).1.isSome = true →
      written (kvRun calls) key = written (kvRun (calls.take n)) key := by
  refine ⟨fun key => pairwise_map.2 (kvRun_versioned calm key).ascending, ?_⟩
  intro n key v value obtained success
  have current : (((kvRun calls).get key).map KvEntry.version).getD 0 = v := by
    by_contra other
    rw [KvStore.compareAndSet, if_pos other] at success
    cases success
  obtain ⟨e, found, rfl⟩ := Option.map_eq_some_iff.1 obtained.get
  obtain ⟨before, op, split, version⟩ := get_eq_some found
  have versioned := kvRun_versioned calm key
  obtain ⟨more, eq⟩ := written_of_take calls n key
  -- what was written later has a higher version, and the last of it is what `get` shows
  have later := versioned.ascending
  have positive := versioned.positive op (by rw [← eq, split]; simp)
  rw [← eq, split, append_assoc] at later
  have later := (pairwise_append.1 later).2.1
  cases shown : (kvRun calls).get key with
  | none =>
    rw [shown] at current
    have : 0 = e.version := current
    omega
  | some e' =>
    rw [shown] at current
    have same : e'.version = e.version := current
    obtain ⟨before', op', split', version'⟩ := get_eq_some shown
    rcases eq_nil_or_concat more with rfl | ⟨init, last, rfl⟩
    · rw [← eq, append_nil]
    · rw [concat_eq_append, ← append_assoc] at eq
      obtain ⟨-, rfl⟩ := append_inj' (eq.trans split') rfl |>.imp_right singleton_inj.1
      have := @rel_of_pairwise_cons _ _ _ _ later last (by simp)
      omega

theorem versions_of_one_key :
    ((written (kvRun [.put "k" "a", .compareAndSet "k" 1 "b"]) "k").map KvOp.version).Pairwise
      (· < ·) := by
  refine (versions_are_tokens fun n call at_n => ?_).1 "k"
  match n, at_n with
  | 0, at_0 =>
    cases at_0
    exact fun revived => revived.2 rfl
  | 1, at_1 =>
    cases at_1
    exact nofun

/-- A put, a delete and a put: the second put has the version of the first again, and a
`compare_and_set` with the version of the first succeeds. -/
theorem deleted_key_reuses_version :
    (written (kvRun [.put "k" "a", .delete "k", .put "k" "b"]) "k").map KvOp.version = [1, 2, 1] ∧
      Obtained [.put "k" "a", .delete "k", .put "k" "b"] 1 "k" 1 ∧
      ((kvRun [.put "k" "a", .delete "k", .put "k" "b"]).compareAndSet "k" 1 "c").1 = some 2 := by
  refine ⟨by decide, .inl (by decide), by decide⟩

end Ehdb.Theorems
