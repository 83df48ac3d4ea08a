import Mathlib.Data.List.Sort

/-! `sortByKey key` is the stable sort every ordered read and merge goes through. A sorted list
without repeated keys is determined by its members. The highest key is found by folding `max`. -/

namespace Ehdb.ProofKit

variable {α : Type}

def sortByKey (key : α → Nat) (l : List α) : List α :=
  l.insertionSort fun a b => key a ≤ key b

def Ascending (key : α → Nat) (l : List α) : Prop :=
  l.Pairwise fun a b => key a < key b

variable {key : α → Nat}

local instance keyTotal : Std.Total (fun a b : α => key a ≤ key b) := ⟨fun _ _ => Nat.le_total _ _⟩

local instance keyTrans : IsTrans α (fun a b : α => key a ≤ key b) := ⟨fun _ _ _ => Nat.le_trans⟩

theorem sortByKey_perm (key : α → Nat) (l : List α) : (sortByKey key l).Perm l :=
  List.perm_insertionSort _ l

@[simp]
theorem mem_sortByKey {l} {a : α} : a ∈ sortByKey key l ↔ a ∈ l := List.mem_insertionSort _

theorem sortByKey_pairwise (key : α → Nat) (l : List α) :
    (sortByKey key l).Pairwise fun a b => key a ≤ key b := List.pairwise_insertionSort _ l

theorem sortByKey_of_ascending {l} (h : Ascending key l) : sortByKey key l = l :=
  List.Pairwise.insertionSort_eq (h.imp Nat.le_of_lt)

theorem Ascending.eq_of_mem_iff {l l'} (h : Ascending key l) (h' : Ascending key l')
    (same : ∀ a, a ∈ l ↔ a ∈ l') : l = l' := by
  have irrefl : Std.Irrefl fun a b : α => key a < key b := ⟨fun _ => Nat.lt_irrefl _⟩
  have antisymm : Std.Antisymm fun a b : α => key a < key b :=
    ⟨fun _ _ hab hba => absurd hab (Nat.lt_asymm hba)⟩
  exact List.Pairwise.eq_of_mem_iff h h' same

open List

theorem foldl_max_le_iff {l : List Nat} {start bound : Nat} :
    l.foldl max start ≤ bound ↔ start ≤ bound ∧ ∀ x ∈ l, x ≤ bound := by
  induction l generalizing start with
  | nil => simp
  | cons x rest ih =>
    rw [foldl_cons, ih, Nat.max_le, forall_mem_cons, and_assoc]

theorem le_foldl_max {l : List Nat} {start x : Nat} (mem : x ∈ l) : x ≤ l.foldl max start :=
  (foldl_max_le_iff.mp (Nat.le_refl _)).2 x mem

theorem start_le_foldl_max (l : List Nat) (start : Nat) : start ≤ l.foldl max start :=
  (foldl_max_le_iff.mp (Nat.le_refl _)).1

theorem foldl_max_mem {l : List Nat} {start : Nat} (above : start < l.foldl max start) :
    l.foldl max start ∈ l := by
  induction l generalizing start with
  | nil => exact absurd above (Nat.lt_irrefl _)
  | cons x rest ih =>
    rw [foldl_cons] at above ⊢
    rcases Nat.lt_or_ge (max start x) (rest.foldl max (max start x)) with later | here
    · exact .tail _ (ih later)
    · have eq := Nat.le_antisymm here (start_le_foldl_max rest (max start x))
      rw [eq] at above ⊢
      have : max start x = x := by omega
      rw [this]
      exact mem_cons_self

end Ehdb.ProofKit
