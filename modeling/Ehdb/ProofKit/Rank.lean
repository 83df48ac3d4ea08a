import Mathlib.Data.List.Nodup
import Mathlib.Algebra.Order.Ring.Nat

/-! The rank of an element is the number of elements up to it, itself included. A prefix of an
ascending list has the elements of the lowest ranks. -/

namespace Ehdb.ProofKit

open List

variable {α : Type} [LinearOrder α] {l : List α} {a b : α} {n : Nat}

def rank (l : List α) (a : α) : Nat := l.countP (· ≤ a)

theorem rank_le_length (l : List α) (a : α) : rank l a ≤ l.length := countP_le_length

theorem rank_mono (l : List α) (h : a ≤ b) : rank l a ≤ rank l b :=
  countP_mono_left fun c _ below => by simpa using (of_decide_eq_true below).trans h

theorem rank_append_of_lt (A : List α) {B} (above : ∀ b ∈ B, a < b) :
    rank (A ++ B) a = rank A a := by
  have none : B.countP (fun b => decide (b ≤ a)) = 0 :=
    countP_eq_zero.2 fun b mem => by simpa using above b mem
  rw [rank, countP_append, none]
  rfl

theorem rank_split {A B} (ascending : (A ++ a :: B).Pairwise (· < ·)) :
    rank (A ++ a :: B) a = A.length + 1 := by
  rw [pairwise_append, pairwise_cons] at ascending
  obtain ⟨-, ⟨above, -⟩, below⟩ := ascending
  have front : A.countP (fun c => decide (c ≤ a)) = A.length :=
    countP_eq_length.2 fun c mem => by simpa using (below c mem a (by simp)).le
  have back : B.countP (fun c => decide (c ≤ a)) = 0 :=
    countP_eq_zero.2 fun c mem => by simpa using above c mem
  rw [rank, countP_append, countP_cons, front, back]
  simp

section

variable (ascending : l.Pairwise (· < ·))
include ascending

theorem rank_pos (mem : a ∈ l) : 0 < rank l a := by
  obtain ⟨A, B, rfl⟩ := append_of_mem mem
  rw [rank_split ascending]
  exact Nat.succ_pos _

theorem rank_getElem {i} (is : l[i]? = some a) : rank l a = i + 1 := by
  obtain ⟨bound, here⟩ := List.getElem?_eq_some_iff.1 is
  have split : l = l.take i ++ a :: l.drop (i + 1) := by
    rw [← here, getElem_cons_drop, take_append_drop]
  rw [split, rank_split (split ▸ ascending), length_take]
  omega

theorem mem_take_iff_rank (mem : a ∈ l) : a ∈ l.take n ↔ rank l a ≤ n := by
  obtain ⟨i, is⟩ := mem_iff_getElem?.1 mem
  rw [rank_getElem ascending is]
  constructor
  · intro early
    obtain ⟨j, at_j⟩ := mem_iff_getElem?.1 early
    obtain ⟨bound, -⟩ := List.getElem?_eq_some_iff.1 at_j
    rw [length_take] at bound
    rw [List.getElem?_take_of_lt (by omega)] at at_j
    have same := (rank_getElem ascending at_j).symm.trans (rank_getElem ascending is)
    omega
  · intro early
    exact mem_of_getElem? (by rw [getElem?_take_of_lt early]; exact is)

theorem mem_drop_iff_rank (mem : a ∈ l) : a ∈ l.drop n ↔ n < rank l a := by
  rw [← Nat.not_le, ← mem_take_iff_rank ascending mem]
  have distinct : l.Nodup := ascending.imp fun h => h.ne
  rw [← take_append_drop n l] at mem distinct
  constructor
  · exact fun late early => disjoint_of_nodup_append distinct early late
  · exact fun late => (mem_append.1 mem).resolve_left late

theorem filter_lt_eq_drop (a : α) : l.filter (a < ·) = l.drop (rank l a) := by
  induction l with
  | nil => rfl
  | cons b l ih =>
    obtain ⟨above, rest⟩ := pairwise_cons.1 ascending
    by_cases low : b ≤ a
    · have one : rank (b :: l) a = rank l a + 1 := countP_cons_of_pos (by simpa using low)
      rw [one, filter_cons_of_neg (by simpa using low), drop_succ_cons, ih rest]
    · have high : a < b := not_le.1 low
      have all : ∀ c ∈ b :: l, a < c := by
        intro c mem
        rcases mem_cons.1 mem with rfl | later
        · exact high
        · exact high.trans (above c later)
      have none : rank (b :: l) a = 0 := countP_eq_zero.2 fun c mem => by simpa using all c mem
      rw [none, drop_zero, filter_eq_self.2 fun c mem => by simpa using all c mem]

end

/-- Where a condition holds of everything before what it holds of, stopping is the same as leaving
out. -/
theorem takeWhile_eq_filter {β : Type} {p} {l : List β}
    (closed : l.Pairwise fun a b => p b = true → p a = true) : l.takeWhile p = l.filter p := by
  induction l with
  | nil => rfl
  | cons a l ih =>
    obtain ⟨first, rest⟩ := pairwise_cons.1 closed
    by_cases holds : p a = true
    · rw [takeWhile_cons_of_pos holds, filter_cons_of_pos holds, ih rest]
    · rw [takeWhile_cons_of_neg holds, filter_cons_of_neg holds, eq_comm]
      exact filter_eq_nil_iff.2 fun b mem other => holds (first b mem other)

end Ehdb.ProofKit
