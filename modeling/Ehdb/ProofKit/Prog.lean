import Mathlib.Algebra.Order.Ring.Nat

/-! An action is given an outcome that the environment chooses and answers with a value and a new
state, or is blocked. Between two actions other programs may run, or the program be stopped.

`Follows T p Q l` says that `p`, started in the protocol state `l`, takes only steps that the
protocol `T` allows, whatever the rest of the system does in between, and ends in a protocol state
that satisfies `Q`. -/

namespace Ehdb.ProofKit

inductive Prog (σ ω α : Type) : Type 1 where
  | ret (a : α) : Prog σ ω α
  | act {β : Type} (f : ω → σ → Option (β × σ)) (k : β → Prog σ ω α) : Prog σ ω α

namespace Prog

variable {σ ω α β γ ε : Type}

def bind : Prog σ ω α → (α → Prog σ ω β) → Prog σ ω β
  | .ret a, g => g a
  | .act f k, g => .act f fun b => (k b).bind g

instance : Monad (Prog σ ω) where
  pure := .ret
  bind := bind

def lift (f : ω → σ → Option (α × σ)) : Prog σ ω α :=
  .act f .ret

def step (o : ω) (s : σ) : Prog σ ω α → Option (σ × Prog σ ω α)
  | .ret _ => none
  | .act f k => (f o s).map fun (b, s') => (s', k b)

/-- The program on its own, with every outcome `o`. -/
def alone (o : ω) : Prog σ ω α → σ → Option (α × σ)
  | .ret a, s => some (a, s)
  | .act f k, s => (f o s).bind fun (b, s') => (k b).alone o s'

/-- The program on its own, with the given outcomes in turn. -/
def along : Prog σ ω α → List ω → σ → Option (α × List ω × σ)
  | .ret a, os, s => some (a, os, s)
  | .act _ _, [], _ => none
  | .act f k, o :: os, s => (f o s).bind fun (b, s') => (k b).along os s'

theorem along_bind {p : Prog σ ω α} {f : α → Prog σ ω β} {os : List ω} {s : σ}
    {r : β × List ω × σ} (h : (p.bind f).along os s = some r) :
    ∃ a os' s', p.along os s = some (a, os', s') ∧ (f a).along os' s' = some r := by
  induction p generalizing os s with
  | ret a => exact ⟨a, os, s, rfl, h⟩
  | act g k ih =>
    cases os with
    | nil => cases h
    | cons o os =>
      obtain ⟨⟨b, next⟩, acted, ran⟩ := Option.bind_eq_some_iff.1 h
      rw [along, acted]
      exact ih b ran

theorem along_of_alone {p : Prog σ ω α} {o : ω} {s : σ} {r : α × σ} (h : p.alone o s = some r) :
    ∃ os, p.along os s = some (r.1, [], r.2) := by
  induction p generalizing s with
  | ret a =>
    cases h
    exact ⟨[], rfl⟩
  | act f k ih =>
    obtain ⟨⟨b, next⟩, acted, ran⟩ := Option.bind_eq_some_iff.1 h
    obtain ⟨os, along⟩ := ih b ran
    exact ⟨o :: os, by rw [Prog.along, acted]; exact along⟩

/-- A program on a part of a larger state; blocked while the state does not have that part. -/
def zoom {τ : Type} (get : σ → Option τ) (set : τ → σ → σ) : Prog τ ω α → Prog σ ω α
  | .ret a => .ret a
  | .act f k =>
    .act (fun o s => (get s).bind fun t => (f o t).map fun (b, t') => (b, set t' s))
      fun b => (k b).zoom get set

def foldEach (f : β → α → Prog σ ω β) : β → List α → Prog σ ω β
  | b, [] => .ret b
  | b, a :: rest => (f b a).bind fun b => foldEach f b rest

theorem along_foldEach {f : β → α → Prog σ ω β} (I : List α → List ω → β → σ → Prop)
    (body : ∀ a rest os b s b' os' s', I (a :: rest) os b s →
      (f b a).along os s = some (b', os', s') → I rest os' b' s')
    {xs : List α} {os os' : List ω} {b b' : β} {s s' : σ} (start : I xs os b s)
    (ran : (foldEach f b xs).along os s = some (b', os', s')) : I [] os' b' s' := by
  induction xs generalizing os b s with
  | nil =>
    cases ran
    exact start
  | cons a rest ih =>
    obtain ⟨_, _, _, first, later⟩ := along_bind ran
    exact ih (body a rest os b s _ _ _ start first) later

/-- Run `f` on the elements of a list until one of them fails, threading an accumulator. -/
def tryEach (f : β → α → ExceptT ε (Prog σ ω) β) : β → List α → ExceptT ε (Prog σ ω) β
  | b, [] => pure b
  | b, a :: rest => do tryEach f (← f b a) rest

end Prog

section Follows

variable {σ ω ℓ : Type} (T : σ → ℓ → σ → ℓ → Prop)

def Follows {α : Type} : Prog σ ω α → (α → ℓ → Prop) → ℓ → Prop
  | .ret a, Q, l => Q a l
  | .act f k, Q, l =>
    ∀ o s b s', f o s = some (b, s') → ∃ l', T s l s' l' ∧ Follows (k b) Q l'

variable {T} {α β ε : Type} {Q : α → ℓ → Prop} {l : ℓ}

theorem Follows.step {p p'} {o : ω} {s s' : σ} (h : Follows T p Q l)
    (hs : p.step o s = some (s', p')) : ∃ l', T s l s' l' ∧ Follows T p' Q l' := by
  cases p with
  | ret a => simp [Prog.step] at hs
  | act f k =>
    simp only [Prog.step, Option.map_eq_some_iff, Prod.mk.injEq] at hs
    obtain ⟨⟨b, s''⟩, hf, rfl, rfl⟩ := hs
    exact h o s b s'' hf

theorem Follows.bind {p : Prog σ ω β} {f}
    (h : Follows T p (fun b l' => Follows T (f b) Q l') l) : Follows T (p.bind f) Q l := by
  induction p generalizing l with
  | ret b => exact h
  | act g k ih =>
    intro o s b s' hg
    obtain ⟨l', step, next⟩ := h o s b s' hg
    exact ⟨l', step, ih b next⟩

variable {p : Prog σ ω α}

theorem Follows.mono {Q'} (h : Follows T p Q l)
    (imp : ∀ a l', Q a l' → Q' a l') : Follows T p Q' l := by
  induction p generalizing l with
  | ret a => exact imp a l h
  | act g k ih =>
    intro o s b s' hg
    obtain ⟨l', step, next⟩ := h o s b s' hg
    exact ⟨l', step, ih b next⟩

theorem Follows.weaken {T'} (h : Follows T p Q l)
    (imp : ∀ {s l s' l'}, T s l s' l' → T' s l s' l') : Follows T' p Q l := by
  induction p generalizing l with
  | ret a => exact h
  | act g k ih =>
    intro o s b s' hg
    obtain ⟨l', step, next⟩ := h o s b s' hg
    exact ⟨l', imp step, ih b next⟩

/-- What every step keeps holds when the program has run on its own. -/
theorem Follows.along {I : σ → ℓ → Prop} {os os' : List ω} {s s' : σ} {a : α}
    (h : Follows T p Q l) (keeps : ∀ {s l s' l'}, I s l → T s l s' l' → I s' l') (start : I s l)
    (ran : p.along os s = some (a, os', s')) : ∃ l', I s' l' ∧ Q a l' := by
  induction p generalizing l s os with
  | ret b =>
    cases ran
    exact ⟨l, start, h⟩
  | act f k ih =>
    cases os with
    | nil => cases ran
    | cons o os =>
      obtain ⟨⟨b, next⟩, acted, ran⟩ := Option.bind_eq_some_iff.1 ran
      obtain ⟨l', step, later⟩ := h o s b next acted
      exact ih b later (keeps start step) ran

theorem Follows.lift {f : ω → σ → Option (α × σ)}
    (h : ∀ o s b s', f o s = some (b, s') → ∃ l', T s l s' l' ∧ Q b l') :
    Follows T (Prog.lift f) Q l := h

theorem Follows.free : Follows (fun _ _ _ _ => True) p (fun _ _ => True) l := by
  induction p with
  | ret a => trivial
  | act f k ih => exact fun _ _ b _ _ => ⟨l, trivial, ih b⟩

theorem Follows.zoom {τ ℓ' : Type} {U get} {set : τ → σ → σ} {p : Prog τ ω α} {E} {m : ℓ'}
    (inner : ℓ' → ℓ) (h : Follows U p E m)
    (lifts : ∀ s t m t' m', get s = some t → U t m t' m' → T s (inner m) (set t' s) (inner m'))
    (done : ∀ a m', E a m' → Q a (inner m')) : Follows T (p.zoom get set) Q (inner m) := by
  induction p generalizing m with
  | ret a => exact done a m h
  | act f k ih =>
    intro o s b s' stepped
    obtain ⟨t, found, stepped⟩ := Option.bind_eq_some_iff.1 stepped
    obtain ⟨⟨b', t'⟩, acted, eq⟩ := Option.map_eq_some_iff.1 stepped
    cases eq
    obtain ⟨m', step, next⟩ := h o t b t' acted
    exact ⟨inner m', lifts s t m t' m' found step, ih b next⟩

theorem Follows.bindExcept {x : ExceptT ε (Prog σ ω) β} {f : β → ExceptT ε (Prog σ ω) α}
    {E : Except ε α → ℓ → Prop}
    (h : Follows T x.run (fun
      | .ok b, l' => Follows T (f b).run E l'
      | .error e, l' => E (.error e) l') l) : Follows T (x >>= f).run E l := by
  refine bind (h.mono ?_)
  intro res l' next
  cases res with
  | ok b => exact next
  | error e => exact next

theorem Follows.foldEach {γ : Type} {f : γ → β → Prog σ ω γ} {E : γ → ℓ → Prop}
    (I : List β → γ → ℓ → Prop)
    (body : ∀ a rest c l, I (a :: rest) c l → Follows T (f c a) (fun c' l' => I rest c' l') l)
    (done : ∀ c l, I [] c l → E c l) {xs : List β} {c : γ} (start : I xs c l) :
    Follows T (Prog.foldEach f c xs) E l := by
  induction xs generalizing l c with
  | nil => exact done c l start
  | cons a rest ih =>
    refine bind ((body a rest c l start).mono ?_)
    intro c' l' h
    exact ih h

theorem Follows.tryEach {γ : Type} {f : γ → β → ExceptT ε (Prog σ ω) γ}
    {E : Except ε γ → ℓ → Prop} (I : List β → γ → ℓ → Prop)
    (body : ∀ a rest c l, I (a :: rest) c l → Follows T (f c a).run (fun
      | .ok c', l' => I rest c' l'
      | .error e, l' => E (.error e) l') l)
    (done : ∀ c l, I [] c l → E (.ok c) l) {xs : List β} {c : γ} (start : I xs c l) :
    Follows T (Prog.tryEach f c xs).run E l := by
  induction xs generalizing l c with
  | nil => exact done c l start
  | cons a rest ih =>
    refine bindExcept ((body a rest c l start).mono ?_)
    intro res l' h
    cases res with
    | ok c' => exact ih h
    | error e => exact h

end Follows

end Ehdb.ProofKit
