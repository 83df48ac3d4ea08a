import Ehdb.ProofKit.Pool
import Mathlib.Data.List.Forall2

/-! `Agree G R x y Q` says that the programs `x` and `y`, run on states that `R` relates, take steps
together to states that `R` relates, as long as `G` holds of the first, and end with answers that
`Q` relates. `run_paired` lifts this to runs under one schedule; `G` is asked of the last state
only, as no step can restore it. -/

namespace Ehdb.ProofKit

variable {σ ω κ α ε : Type}

section Lists

variable {τ : Type*} {R : τ → τ → Prop} {xs ys : List τ}

theorem getElem?_of_forall₂ (h : List.Forall₂ R xs ys) (i : Nat) : Option.Rel R xs[i]? ys[i]? := by
  induction h generalizing i with
  | nil => exact .none
  | cons first _ ih =>
    cases i with
    | zero => exact .some first
    | succ i => exact ih i

theorem set_of_forall₂ {x y} (h : List.Forall₂ R xs ys) (new : R x y) (i : Nat) :
    List.Forall₂ R (xs.set i x) (ys.set i y) := by
  induction h generalizing i with
  | nil => exact .nil
  | cons first rest ih =>
    cases i with
    | zero => exact .cons new rest
    | succ i => exact .cons first (ih i)

end Lists

def Agree (G : σ → Prop) (R : σ → σ → Prop) : Prog σ ω α → Prog σ ω α → (α → α → Prop) → Prop
  | .ret a, .ret b, Q => Q a b
  | .act f k, .act g m, Q =>
    ∀ o s t, R s t → (f o s = none ∧ g o t = none) ∨
      ∃ b s' c t', f o s = some (b, s') ∧ g o t = some (c, t') ∧
        (G s' → R s' t' ∧ Agree G R (k b) (m c) Q)
  | _, _, _ => False

variable {β : Type} {G : σ → Prop} {R : σ → σ → Prop} {Q : α → α → Prop}

theorem Agree.bind {x y : Prog σ ω β} {f g} (h : Agree G R x y fun b c => Agree G R (f b) (g c) Q) :
    Agree G R (x.bind f) (y.bind g) Q := by
  induction x generalizing y with
  | ret b =>
    cases y with
    | ret c => exact h
    | act => cases h
  | act u k ih =>
    cases y with
    | ret => cases h
    | act v m =>
      intro o s t related
      rcases h o s t related with blocked | ⟨b, s', c, t', eu, ev, next⟩
      · exact .inl blocked
      · exact .inr ⟨b, s', c, t', eu, ev, fun good => ⟨(next good).1, ih b (next good).2⟩⟩

theorem Agree.lift {f g : σ → α × σ}
    (h : ∀ s t, R s t → G (f s).2 → R (f s).2 (g t).2 ∧ Q (f s).1 (g t).1) :
    Agree G R (Prog.lift fun (_ : ω) s => some (f s)) (Prog.lift fun _ t => some (g t)) Q :=
  fun _ s t related => .inr ⟨_, _, _, _, rfl, rfl, h s t related⟩

inductive Call.Agree (G : σ → Prop) (R : σ → σ → Prop) (Q : κ → α → α → Prop) :
    Call σ ω κ α → Call σ ω κ α → Prop
  | gone (request : κ) : Call.Agree G R Q ⟨request, none⟩ ⟨request, none⟩
  | runs {request : κ} {x y : Prog σ ω α} : ProofKit.Agree G R x y (Q request) →
      Call.Agree G R Q ⟨request, some x⟩ ⟨request, some y⟩

structure Pool.Paired (G : σ → Prop) (R : σ → σ → Prop) (Q : κ → α → α → Prop)
    (p q : Pool σ ω κ α) : Prop where
  shared : R p.shared q.shared
  calls : List.Forall₂ (Call.Agree G R Q) p.calls q.calls

structure Service.Paired (G : σ → Prop) (R : σ → σ → Prop) (Q : κ → α → α → Prop)
    (S S' : Service σ ω κ α ε) : Prop where
  program : ∀ i request, Agree G R (S.program i request) (S'.program i request) (Q request)
  release : ∀ i s t, R s t → G (S.release i s) → R (S.release i s) (S'.release i t)
  world : ∀ e s t, R s t → G (S.world e s) → R (S.world e s) (S'.world e t)
  ends : ∀ e, S.ends e = S'.ends e

section Paired

variable {S S' : Service σ ω κ α ε} {Q : κ → α → α → Prop} {p q : Pool σ ω κ α} {i : Nat}

theorem Call.Agree.cut {c d : Call σ ω κ α} (h : c.Agree G R Q d) : c.cut.Agree G R Q d.cut := by
  cases h with
  | gone req => exact .gone req
  | @runs req x y agree =>
    match x, y, agree with
    | .ret a, .ret b, agree => exact .runs agree
    | .act f k, .act g m, _ => exact .gone req

section Step

variable (h : p.Paired G R Q q)
include h

theorem Pool.Paired.act {o} (good : G (p.step S (.act i o)).shared) :
    (p.step S (.act i o)).Paired G R Q (q.step S' (.act i o)) := by
  have pair := getElem?_of_forall₂ h.calls i
  simp only [Pool.step] at good ⊢
  generalize p.calls[i]? = c, q.calls[i]? = d at pair good ⊢
  cases pair with
  | none => exact h
  | some agree =>
    cases agree with
    | gone req => exact h
    | @runs req x y agree =>
      rcases x with a | ⟨f, k⟩ <;> rcases y with b | ⟨g, m⟩
      · exact h
      · cases agree
      · cases agree
      · rcases agree o _ _ h.shared with ⟨ef, eg⟩ | ⟨b, s, c, t, ef, eg, next⟩
        · simpa [Prog.step, ef, eg] using h
        · simp only [Prog.step, ef, eg, Option.map_some] at good ⊢
          exact ⟨(next good).1, set_of_forall₂ h.calls (.runs (next good).2) i⟩

variable (paired : S.Paired G R Q S')
include paired

theorem Pool.Paired.drop (good : G (p.step S (.drop i)).shared) :
    (p.step S (.drop i)).Paired G R Q (q.step S' (.drop i)) := by
  have pair := getElem?_of_forall₂ h.calls i
  simp only [Pool.step] at good ⊢
  generalize p.calls[i]? = c, q.calls[i]? = d at pair good ⊢
  cases pair with
  | none => exact h
  | some agree =>
    cases agree with
    | gone req => exact h
    | @runs req x y agree =>
      rcases x with a | ⟨f, k⟩ <;> rcases y with b | ⟨g, m⟩
      · exact h
      · cases agree
      · cases agree
      · exact ⟨paired.release i _ _ h.shared good, set_of_forall₂ h.calls (.gone req) i⟩

theorem Pool.Paired.step (move : Move ω κ ε) (good : G (p.step S move).shared) :
    (p.step S move).Paired G R Q (q.step S' move) := by
  cases move with
  | call req =>
    have new := paired.program p.calls.length req
    exact ⟨h.shared, List.rel_append h.calls
      (.cons (.runs (h.calls.length_eq ▸ new)) .nil)⟩
  | act i o => exact h.act good
  | drop i => exact h.drop paired good
  | world e =>
    refine ⟨paired.world e _ _ h.shared good, ?_⟩
    simp only [Pool.step, ← paired.ends e]
    split
    · exact List.rel_map (fun _ _ agree => agree.cut) h.calls
    · exact h.calls

end Step

variable {ℓ : Type} {T : Protocol σ κ α ℓ} {s t : σ}

/-- No step restores `G`, so the states before have it as well. -/
theorem Pool.run_paired
    (follows : ∀ i req, Follows (T.next i) (S.program i req) (T.done req) (T.start req))
    (keeps : T.Keeps S G (fun _ _ => True) (fun _ _ _ _ => True)) (paired : S.Paired G R Q S')
    (start : R s t) (moves : List (Move ω κ ε)) (good : G ((Pool.start s).run S moves).shared) :
    ((Pool.start s).run S moves).Paired G R Q ((Pool.start t).run S' moves) := by
  have general : ∀ {p q : Pool σ ω κ α} {ls}, p.Tracks S T s ls → p.Paired G R Q q →
      G (p.run S moves).shared → (p.run S moves).Paired G R Q (q.run S' moves) := by
    clear good
    induction moves with
    | nil => exact fun _ h _ => h
    | cons move moves ih =>
      intro p q ls tracks h good
      obtain ⟨ls', -, tracks'⟩ := tracks.run follows [move]
      obtain ⟨_, later, -⟩ := tracks'.run follows moves
      exact ih tracks' (h.step paired move (keeps.later later good).1) good
  obtain ⟨ls, tracks⟩ := Pool.run_tracks S T follows s []
  exact general tracks ⟨start, .nil⟩ good

theorem Pool.Paired.answer {req a} (h : p.Paired G R Q q)
    (answered : p.answer i = some (req, a)) : ∃ b, q.answer i = some (req, b) ∧ Q req a b := by
  have pair := getElem?_of_forall₂ h.calls i
  rw [Pool.answer_eq_some.1 answered] at pair
  generalize found : q.calls[i]? = d at pair
  cases pair with
  | some agree =>
    cases agree with
    | @runs _ _ y agree =>
      match y, agree with
      | .ret b, agree => exact ⟨b, Pool.answer_eq_some.2 found, agree⟩

end Paired

end Ehdb.ProofKit
