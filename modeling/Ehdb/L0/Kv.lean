import Ehdb.ProofKit.OrderedMap
import Mathlib.Data.List.Induction
import Mathlib.Data.String.Basic

/-! `KvStore`: the latest value of each key, folded from a log of operations. The engine below it is
seen as the records it holds, in the order of their sort keys. -/

namespace Ehdb.L0

open ProofKit List

structure KvOp where
  opSeq : Nat
  key : String
  value : String
  version : Nat
  deleted : Bool
  deriving DecidableEq

structure KvEntry where
  value : String
  version : Nat
  deriving DecidableEq

/-- The store: the records of its engine in ascending order, and the engine's global sequence. -/
structure KvStore where
  ops : List KvOp
  globalSequence : Nat
  ascending : ops.Pairwise fun a b => a.opSeq < b.opSeq
  bounded : ∀ op ∈ ops, 0 < op.opSeq ∧ op.opSeq ≤ globalSequence

namespace KvStore

def empty : KvStore := ⟨[], 0, .nil, by simp⟩

variable (s : KvStore) (key : String)

def readIndexAfter (afterSeq : Nat) : List KvOp :=
  s.ops.filter fun op => op.key = key && afterSeq < op.opSeq

def get : Option KvEntry :=
  (s.readIndexAfter key 0).getLast?.bind fun op =>
    if op.deleted then none else some ⟨op.value, op.version⟩

def append (key value : String) (version : Nat) (deleted : Bool) : KvStore where
  ops := s.ops ++ [⟨s.globalSequence + 1, key, value, version, deleted⟩]
  globalSequence := s.globalSequence + 1
  ascending := by
    refine pairwise_append.2 ⟨s.ascending, pairwise_singleton _ _, ?_⟩
    intro a mem b single
    rw [mem_singleton.1 single]
    exact Nat.lt_succ_of_le (s.bounded a mem).2
  bounded := by
    intro op mem
    rcases mem_append.1 mem with old | new
    · exact ⟨(s.bounded op old).1, Nat.le_succ_of_le (s.bounded op old).2⟩
    · rw [mem_singleton.1 new]
      exact ⟨Nat.succ_pos _, Nat.le_refl _⟩

def put (key value : String) : Nat × KvStore :=
  let nextVersion := ((s.get key).map KvEntry.version).getD 0 + 1
  (nextVersion, s.append key value nextVersion false)

/-- `compare_and_set`; version 0 stands for a key that is not there. -/
def compareAndSet (expectedVersion : Nat) (value : String) : Option Nat × KvStore :=
  let current := ((s.get key).map KvEntry.version).getD 0
  if current ≠ expectedVersion then (none, s)
  else (some (current + 1), s.append key value (current + 1) false)

def delete : Option Nat × KvStore :=
  match s.get key with
  | none => (none, s)
  | some e => (some (e.version + 1), s.append key "" (e.version + 1) true)

def latest : OrderedMap String KvOp :=
  s.ops.foldl (fun m op => m.insert op.key op) .empty

def prefixScan (pre : String) : List (String × String) :=
  (s.latest.entries.filter fun (k, op) => pre.toList.isPrefixOf k.toList && !op.deleted).map
    fun (k, op) => (k, op.value)

theorem readIndexAfter_zero : s.readIndexAfter key 0 = s.ops.filter fun op => op.key = key := by
  refine filter_congr fun op mem => ?_
  simp [(s.bounded op mem).1]

theorem latest_find? : s.latest.find? key = (s.readIndexAfter key 0).getLast? := by
  rw [readIndexAfter_zero, latest]
  induction s.ops using reverseRecOn with
  | nil => rfl
  | append_singleton ops op ih =>
    rw [foldl_append, foldl_cons, foldl_nil, OrderedMap.find?_insert, filter_append]
    by_cases same : op.key = key
    · simp [same]
    · simp [same, Ne.symm same, ih]

theorem get_eq : s.get key = (s.latest.find? key).bind fun op =>
      if op.deleted then none else some ⟨op.value, op.version⟩ := by
  rw [latest_find?, get]

theorem mem_prefixScan {s : KvStore} {pre key value : String} : (key, value) ∈ s.prefixScan pre ↔
      pre.toList <+: key.toList ∧ ∃ version, s.get key = some ⟨value, version⟩ := by
  simp only [prefixScan, mem_map, mem_filter, Bool.and_eq_true, isPrefixOf_iff_prefix,
    Bool.not_eq_true', get_eq]
  constructor
  · rintro ⟨⟨k, op⟩, ⟨mem, starts, live⟩, eq⟩
    cases eq
    refine ⟨starts, op.version, ?_⟩
    have live : op.deleted = false := live
    simp [OrderedMap.find?_eq_some.2 mem, live]
  · rintro ⟨starts, version, found⟩
    obtain ⟨op, mem, live⟩ := Option.bind_eq_some_iff.1 found
    split at live
    · cases live
    · rename_i alive
      cases live
      exact ⟨(key, op), ⟨OrderedMap.find?_eq_some.1 mem, starts, by simpa using alive⟩, rfl⟩

theorem prefixScan_ascends (pre : String) : (s.prefixScan pre).Pairwise fun a b => a.1 < b.1 := by
  refine pairwise_map.2 ((s.latest.ordered.filter _).imp ?_)
  exact fun h => h

theorem get_append (key value : String) (version : Nat) (deleted : Bool)
    (other : String) : (s.append key value version deleted).get other =
      if other = key then (if deleted then none else some ⟨value, version⟩) else s.get other := by
  have latest_eq : (s.append key value version deleted).latest =
      s.latest.insert key ⟨s.globalSequence + 1, key, value, version, deleted⟩ := by
    simp [latest, append]
  rw [get_eq, get_eq, latest_eq, OrderedMap.find?_insert]
  split
  · cases deleted <;> rfl
  · rfl

theorem get_put (key value other : String) : ((s.put key value).2.get other).map KvEntry.value =
      if other = key then some value else (s.get other).map KvEntry.value := by
  rw [put, get_append]
  split <;> rfl

theorem get_delete (key other : String) :
    (s.delete key).2.get other = if other = key then none else s.get other := by
  unfold delete
  split
  · rename_i absent
    split
    · rename_i same
      exact same ▸ absent
    · rfl
  · rw [get_append]
    rfl

end KvStore

end Ehdb.L0
