import Mathlib.Data.List.Basic

/-! A list of the callers that are at work, each with the key of what it works on. When nobody
enters at a key at which another is, every key has at most one caller. -/

namespace Ehdb.ProofKit

open List

variable {κ : Type} {busy : List (Nat × κ)} {i j : Nat} {key : κ}

def Sole (busy : List (Nat × κ)) : Prop :=
  ∀ i j key, (i, key) ∈ busy → (j, key) ∈ busy → i = j

theorem Sole.nil : Sole ([] : List (Nat × κ)) := nofun

theorem Sole.enter [DecidableEq κ] (sole : Sole busy)
    (free : (busy.any fun entry => entry.2 == key) = false) : Sole ((i, key) :: busy) := by
  have alone (j : Nat) : (j, key) ∉ busy := by
    intro mem
    have other := any_eq_false.1 free _ mem
    simp at other
  intro j k key' one other
  rcases mem_cons.1 one with is | old
  · cases is
    rcases mem_cons.1 other with is | old
    · cases is
      rfl
    · exact absurd old (alone k)
  · rcases mem_cons.1 other with is | old'
    · cases is
      exact absurd old (alone j)
    · exact sole j k key' old old'

theorem Sole.filter (sole : Sole busy) (p : Nat × κ → Bool) : Sole (busy.filter p) :=
  fun i j key one other => sole i j key (mem_filter.1 one).1 (mem_filter.1 other).1

theorem mem_others (mem : (j, key) ∈ busy) (other : j ≠ i) :
    (j, key) ∈ busy.filter fun entry => decide (entry.1 ≠ i) :=
  mem_filter.2 ⟨mem, by simpa using other⟩

end Ehdb.ProofKit
