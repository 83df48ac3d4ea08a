import Mathlib.Data.List.Basic

/-! If what the others do cannot be told apart from doing nothing, a party's answers are those of
the run with its own actions alone. -/

namespace Ehdb.ProofKit

open List

variable {σ A B C : Type} {step : σ → A → B × σ}

def answerEach (step : σ → A → B × σ) : σ → List A → List (A × B) × σ
  | s, [] => ([], s)
  | s, a :: rest =>
    let (answer, s) := step s a
    let (answers, s) := answerEach step s rest
    ((a, answer) :: answers, s)

def seenBy (own : A → Bool) (view : B → C) (answers : List (A × B)) : List (A × C) :=
  (answers.filter fun e => own e.1).map fun e => (e.1, view e.2)

/-- An own action gets the same answer in related states, and an action of another party keeps a
state related to where it was. -/
structure Unwinds (step : σ → A → B × σ) (own : A → Bool) (view : B → C) (allowed : A → Prop)
    (related : σ → σ → Prop) : Prop where
  own_step : ∀ {s s' : σ} {a : A}, allowed a → own a = true → related s s' →
    view (step s a).1 = view (step s' a).1 ∧ related (step s a).2 (step s' a).2
  other_step : ∀ {s s' : σ} {a : A}, allowed a → own a = false → related s s' →
    related (step s a).2 s'

variable {own : A → Bool} {view : B → C} {allowed : A → Prop} {related : σ → σ → Prop}

theorem Unwinds.purge (unwinds : Unwinds step own view allowed related) {s s'}
    (start : related s s') {actions} (all : ∀ a ∈ actions, allowed a) :
    seenBy own view (answerEach step s actions).1 =
        seenBy own view (answerEach step s' (actions.filter own)).1 ∧
      related (answerEach step s actions).2 (answerEach step s' (actions.filter own)).2 := by
  induction actions generalizing s s' with
  | nil => exact ⟨rfl, start⟩
  | cons a rest ih =>
    obtain ⟨first, all⟩ := forall_mem_cons.1 all
    cases is_own : own a with
    | true =>
      obtain ⟨same, next⟩ := unwinds.own_step first is_own start
      obtain ⟨seen, last⟩ := ih next all
      rw [filter_cons_of_pos is_own]
      refine ⟨?_, last⟩
      simp only [seenBy, answerEach, filter_cons, is_own, if_true, map_cons, same]
      exact congrArg _ seen
    | false =>
      obtain ⟨seen, last⟩ := ih (unwinds.other_step first is_own start) all
      have not_own : ¬own a = true := by simp [is_own]
      rw [filter_cons_of_neg not_own]
      refine ⟨?_, last⟩
      rw [← seen]
      simp [seenBy, answerEach, is_own]

def Alike {ε α β : Type} (related : α → β → Prop) : Except ε α → Except ε β → Prop
  | .ok a, .ok b => related a b
  | .error e, .error e' => e = e'
  | _, _ => False

section Alike

variable {ε α β γ δ : Type} {related : α → β → Prop} {related' : γ → δ → Prop}

theorem Alike.bind {x : Except ε α} {y : Except ε β} {f g}
    (h : Alike related x y) (next : ∀ a b, related a b → Alike related' (f a) (g b)) :
    Alike related' (x >>= f) (y >>= g) := by
  cases x with
  | error e =>
    cases y with
    | error e' => exact h
    | ok b => exact h.elim
  | ok a =>
    cases y with
    | error e' => exact h.elim
    | ok b => exact next a b h

theorem alike_bind (x : Except ε α) {f g}
    (next : ∀ a, Alike related' (f a) (g a)) : Alike related' (x >>= f) (x >>= g) := by
  cases x with
  | error e => exact rfl
  | ok a => exact next a

theorem alike_unless {p q : Prop} [Decidable p] [Decidable q] {e : ε} {x : Except ε α}
    {y : Except ε β} (same : p ↔ q) (next : Alike related x y) :
    Alike related (if p then throw e else x) (if q then throw e else y) := by
  by_cases holds : p
  · rw [if_pos holds, if_pos (same.1 holds)]
    exact rfl
  · rw [if_neg holds, if_neg fun h => holds (same.2 h)]
    exact next

theorem alike_foldlM {ι : Type} {f : α → ι → Except ε α} {g : β → ι → Except ε β} {l : List ι}
    (step : ∀ i ∈ l, ∀ a b, related a b → Alike related (f a i) (g b i)) {a : α} {b : β}
    (h : related a b) : Alike related (l.foldlM f a) (l.foldlM g b) := by
  induction l generalizing a b with
  | nil => exact h
  | cons i rest ih =>
    refine (step i mem_cons_self a b h).bind ?_
    intro a' b' next
    exact ih (fun j mem => step j (.tail _ mem)) next

theorem foldlM_keeps {ι : Type} {f : α → ι → Except ε α} {l : List ι} (keeps : α → Prop)
    (step : ∀ i ∈ l, ∀ a a', keeps a → f a i = .ok a' → keeps a') {a a' : α} (h : keeps a)
    (done : l.foldlM f a = .ok a') : keeps a' := by
  induction l generalizing a with
  | nil =>
    cases done
    exact h
  | cons i rest ih =>
    rw [foldlM_cons] at done
    cases first : f a i with
    | error e =>
      rw [first] at done
      cases done
    | ok next =>
      rw [first] at done
      exact ih (fun j mem => step j (.tail _ mem))
        (step i mem_cons_self a next h first) done

def verdict (x : Except ε α) : Except ε Unit := x.map fun _ => ()

end Alike

end Ehdb.ProofKit
