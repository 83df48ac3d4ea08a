import Ehdb.ProofKit.Memory

/-! Programs whose actions the environment does not choose. A call runs to its end, or is stopped
after some of its actions and leaves the state as it is then. -/

namespace Ehdb.ProofKit

variable {σ κ α β ε : Type}

def Prog.after : Nat → Prog σ Unit α → σ → σ
  | 0, _, s => s
  | _ + 1, .ret _, s => s
  | n + 1, .act f k, s =>
    match f () s with
    | some (b, s') => (k b).after n s'
    | none => s

/-- The program comes to its end with `Q`, and `I` holds after each of its actions. -/
def Goes (I : σ → Prop) : Prog σ Unit α → (α → σ → Prop) → σ → Prop
  | .ret a, Q, s => Q a s
  | .act f k, Q, s => ∃ b s', f () s = some (b, s') ∧ I s' ∧ Goes I (k b) Q s'

variable {p : Prog σ Unit α}

section Goes

variable {I : σ → Prop} {Q : α → σ → Prop} {s : σ}

theorem Goes.bind {p : Prog σ Unit β} {f : β → Prog σ Unit α}
    (h : Goes I p (fun b s' => Goes I (f b) Q s') s) : Goes I (p.bind f) Q s := by
  induction p generalizing s with
  | ret b => exact h
  | act g k ih =>
    obtain ⟨b, s', acts, here, rest⟩ := h
    exact ⟨b, s', acts, here, ih b rest⟩

theorem Goes.mono {Q'} (h : Goes I p Q s) (imp : ∀ a s', Q a s' → Q' a s') : Goes I p Q' s := by
  induction p generalizing s with
  | ret a => exact imp a s h
  | act g k ih =>
    obtain ⟨b, s', acts, here, rest⟩ := h
    exact ⟨b, s', acts, here, ih b rest⟩

theorem Goes.states {I'} (h : Goes I p Q s) (imp : ∀ s', I s' → I' s') : Goes I' p Q s := by
  induction p generalizing s with
  | ret a => exact h
  | act g k ih =>
    obtain ⟨b, s', acts, here, rest⟩ := h
    exact ⟨b, s', acts, imp s' here, ih b rest⟩

theorem Goes.bindExcept {x : ExceptT ε (Prog σ Unit) β} {f : β → ExceptT ε (Prog σ Unit) α}
    {E : Except ε α → σ → Prop}
    (h : Goes I x.run (fun
      | .ok b, s' => Goes I (f b).run E s'
      | .error e, s' => E (.error e) s') s) : Goes I (x >>= f).run E s := by
  refine bind (h.mono fun r s' holds => ?_)
  cases r with
  | ok b => exact holds
  | error e => exact holds

theorem Goes.tryEach {f : β → α → ExceptT ε (Prog σ Unit) β} {E : Except ε β → σ → Prop}
    (L : List α → β → σ → Prop)
    (body : ∀ a rest b s, L (a :: rest) b s → Goes I (f b a).run (fun
      | .ok b', s' => L rest b' s'
      | .error e, s' => E (.error e) s') s)
    (done : ∀ b s, L [] b s → E (.ok b) s) {as : List α} {b : β} (start : L as b s) :
    Goes I (Prog.tryEach f b as).run E s := by
  induction as generalizing b s with
  | nil => exact done b s start
  | cons a rest ih =>
    refine bindExcept ((body a rest b s start).mono fun r s' h => ?_)
    cases r with
    | ok b' => exact ih h
    | error e => exact h

theorem Goes.after (h : Goes I p Q s) (here : I s) (n : Nat) : I (p.after n s) := by
  induction p generalizing s n with
  | ret a => cases n <;> exact here
  | act g k ih =>
    obtain ⟨b, s', acts, there, rest⟩ := h
    cases n with
    | zero => exact here
    | succ n =>
      simp only [Prog.after, acts]
      exact ih b rest there n

theorem Goes.eval (h : Goes I p Q s) : ∃ a s', p.eval () s = some (a, s') ∧ Q a s' := by
  induction p generalizing s with
  | ret a => exact ⟨a, s, rfl, h⟩
  | act g k ih =>
    obtain ⟨b, s', acts, -, rest⟩ := h
    obtain ⟨a, t, ends, holds⟩ := ih b rest
    exact ⟨a, t, by simp only [Prog.eval, acts, Option.bind_some, ends], holds⟩

end Goes

/-- The states that a run of calls leads to, with what was answered. Each call is made in a state in
which it may be. A call that is stopped has no answer, and the state it leaves meets `P`. -/
inductive Rounds (program : κ → Prog σ Unit α) (May : κ → σ → Prop) (P : σ → Prop) (init : σ) :
    List (κ × Option α) → σ → Prop where
  | start : Rounds program May P init [] init
  | answered {past s s' call a} : Rounds program May P init past s → May call s →
      (program call).eval () s = some (a, s') →
      Rounds program May P init (past ++ [(call, some a)]) s'
  | stopped {past s call n} : Rounds program May P init past s → May call s →
      P ((program call).after n s) →
      Rounds program May P init (past ++ [(call, none)]) ((program call).after n s)

theorem Rounds.keeps {program May P} {init s : σ} {past} (h : Rounds program May P init past s)
    (J : List (κ × Option α) → σ → Prop) (C : List (κ × Option α) → κ → Prop) (start : J [] init)
    (calls : ∀ past s call, J past s → C past call → May call s →
      Goes (fun s' => P s' → J (past ++ [(call, none)]) s') (program call)
        (fun a s' => J (past ++ [(call, some a)]) s') s ∧ (P s → J (past ++ [(call, none)]) s))
    (meets : ∀ front call answer back, past = front ++ (call, answer) :: back → C front call) :
    J past s := by
  induction h with
  | start => exact start
  | @answered past s s' call a _ may ends ih =>
    have before := ih fun front other answer back is =>
      meets front other answer (back ++ [(call, some a)]) (by rw [is, List.append_assoc]; rfl)
    obtain ⟨goes, -⟩ := calls past s call before (meets past call _ [] rfl) may
    obtain ⟨a', t, ends', holds⟩ := goes.eval
    rw [ends] at ends'
    cases ends'
    exact holds
  | @stopped past s call n _ may ok ih =>
    have before := ih fun front other answer back is =>
      meets front other answer (back ++ [(call, none)]) (by rw [is, List.append_assoc]; rfl)
    obtain ⟨goes, here⟩ := calls past s call before (meets past call _ [] rfl) may
    exact goes.after here n ok

end Ehdb.ProofKit
