import Ehdb.ProofKit.Prog
import Mathlib.Data.List.Induction

/-! A process that makes one call after another on a state, and may stop between any two actions.

`Safely I p Q s` says that `p`, run from `s` with nothing else running, takes the state through
states that satisfy `I` only, and ends in one that satisfies `Q`. `Solo.keeps` lifts this to
runs. -/

namespace Ehdb.ProofKit

open List

variable {σ ω κ α β ε : Type}

variable {p : Prog σ ω α}

section Safely

def Safely (I : σ → Prop) : Prog σ ω α → (α → σ → Prop) → σ → Prop
  | .ret a, Q, s => Q a s
  | .act f k, Q, s => ∀ o b s', f o s = some (b, s') → I s' ∧ Safely I (k b) Q s'

variable {I : σ → Prop} {Q : α → σ → Prop} {s : σ}

theorem Safely.bind {p : Prog σ ω β} {f}
    (h : Safely I p (fun b s' => Safely I (f b) Q s') s) : Safely I (p.bind f) Q s := by
  induction p generalizing s with
  | ret b => exact h
  | act g k ih =>
    intro o b s' stepped
    obtain ⟨holds, next⟩ := h o b s' stepped
    exact ⟨holds, ih b next⟩

theorem Safely.mono {I' Q'} (h : Safely I p Q s)
    (invariant : ∀ s', I s' → I' s') (imp : ∀ a s', Q a s' → Q' a s') : Safely I' p Q' s := by
  induction p generalizing s with
  | ret a => exact imp a s h
  | act g k ih =>
    intro o b s' stepped
    obtain ⟨holds, next⟩ := h o b s' stepped
    exact ⟨invariant s' holds, ih b next⟩

theorem Safely.bindExcept {x : ExceptT ε (Prog σ ω) β} {f : β → ExceptT ε (Prog σ ω) α}
    {E : Except ε α → σ → Prop}
    (h : Safely I x.run (fun
      | .ok b, s' => Safely I (f b).run E s'
      | .error e, s' => E (.error e) s') s) : Safely I (x >>= f).run E s := by
  refine bind (h.mono (fun _ => id) ?_)
  intro res s' next
  cases res with
  | ok b => exact next
  | error e => exact next

theorem Safely.step {p'} {o : ω} {s' : σ} (h : Safely I p Q s)
    (stepped : p.step o s = some (s', p')) : I s' ∧ Safely I p' Q s' := by
  cases p with
  | ret a => cases stepped
  | act f k =>
    simp only [Prog.step, Option.map_eq_some_iff, Prod.mk.injEq] at stepped
    obtain ⟨⟨b, s''⟩, acted, rfl, rfl⟩ := stepped
    exact h o b s'' acted

end Safely

/-- The program of a call, and what is left of the state when the process stops. -/
structure Thread (σ ω κ α : Type) where
  program : κ → Prog σ ω α
  halt : σ → σ

inductive Deed (ω κ : Type) where
  | call (request : κ)
  | act (o : ω)
  | stop
  deriving DecidableEq

inductive Fate (κ α : Type) where
  | answered (request : κ) (a : α)
  | stopped (request : Option κ)
  deriving DecidableEq

def Fate.About (P : κ → Prop) : Fate κ α → Prop
  | .answered request _ => P request
  | .stopped (some request) => P request
  | .stopped none => True

/-- The state, the call under way and what is left of it, and the calls before it, oldest first. -/
structure Solo (σ ω κ α : Type) where
  state : σ
  current : Option (κ × Prog σ ω α)
  past : List (Fate κ α)

variable {deeds : List (Deed ω κ)} {d : Deed ω κ}

namespace Solo

def start (s : σ) : Solo σ ω κ α := ⟨s, none, []⟩

def settle (x : Solo σ ω κ α) : Solo σ ω κ α :=
  match x.current with
  | some (request, .ret a) => ⟨x.state, none, x.past ++ [.answered request a]⟩
  | _ => x

/-- A deed that does not fit, such as a call while another one is under way, changes nothing. -/
def step (T : Thread σ ω κ α) (x : Solo σ ω κ α) : Deed ω κ → Solo σ ω κ α
  | .call request =>
    match x.current with
    | none => settle ⟨x.state, some (request, T.program request), x.past⟩
    | some _ => x
  | .act o =>
    match x.current with
    | some (request, rest) =>
      match rest.step o x.state with
      | some (s, rest) => settle ⟨s, some (request, rest), x.past⟩
      | none => x
    | none => x
  | .stop => ⟨T.halt x.state, none, x.past ++ [.stopped (x.current.map Prod.fst)]⟩

def run (T : Thread σ ω κ α) (x : Solo σ ω κ α) (deeds : List (Deed ω κ)) : Solo σ ω κ α :=
  deeds.foldl (step T) x

theorem run_append (T : Thread σ ω κ α) (x : Solo σ ω κ α) (deeds more : List (Deed ω κ)) :
    x.run T (deeds ++ more) = (x.run T deeds).run T more := foldl_append

def fates (x : Solo σ ω κ α) : List (Fate κ α) :=
  match x.current with
  | none => x.past
  | some (request, _) => x.past ++ [.stopped (some request)]

/-- Whether a deed that starts a call meets a condition on the state and the call. -/
def Meets (C : σ → κ → Prop) (x : Solo σ ω κ α) : Deed ω κ → Prop
  | .call request => x.current.isNone → C x.state request
  | _ => True

instance (C : σ → κ → Prop) [∀ s request, Decidable (C s request)] (x : Solo σ ω κ α)
    (d : Deed ω κ) : Decidable (x.Meets C d) :=
  match d with
  | .call _ => inferInstanceAs (Decidable (_ → _))
  | .act _ => .isTrue trivial
  | .stop => .isTrue trivial

def Along (T : Thread σ ω κ α) (C : σ → κ → Prop) : Solo σ ω κ α → List (Deed ω κ) → Prop
  | _, [] => True
  | x, d :: deeds => x.Meets C d ∧ Along T C (x.step T d) deeds

instance decidableAlong (T : Thread σ ω κ α) (C : σ → κ → Prop)
    [∀ s request, Decidable (C s request)] :
    (x : Solo σ ω κ α) → (deeds : List (Deed ω κ)) → Decidable (x.Along T C deeds)
  | _, [] => .isTrue trivial
  | x, d :: deeds =>
    have := decidableAlong T C (x.step T d) deeds
    inferInstanceAs (Decidable (_ ∧ _))

theorem Along.and_calls {T : Thread σ ω κ α} {C : σ → κ → Prop} {P : κ → Prop} {x : Solo σ ω κ α}
    (along : x.Along T C deeds) (calls : ∀ req, .call req ∈ deeds → P req) :
    x.Along T (fun s req => C s req ∧ P req) deeds := by
  induction deeds generalizing x with
  | nil => trivial
  | cons d deeds ih =>
    refine ⟨?_, ih along.2 fun req mem => calls req (.tail _ mem)⟩
    cases d with
    | call req => exact fun idle => ⟨along.1 idle, calls req mem_cons_self⟩
    | act o => trivial
    | stop => trivial

theorem Along.mono {T : Thread σ ω κ α} {C C' : σ → κ → Prop} {x : Solo σ ω κ α}
    (along : x.Along T C deeds) (imp : ∀ s req, C s req → C' s req) : x.Along T C' deeds := by
  induction deeds generalizing x with
  | nil => trivial
  | cons d deeds ih =>
    refine ⟨?_, ih along.2⟩
    cases d with
    | call req => exact fun idle => imp _ _ (along.1 idle)
    | act o => trivial
    | stop => trivial

section About

variable {T : Thread σ ω κ α} {P : κ → Prop} {x : Solo σ ω κ α}

theorem fates_settle (h : ∀ fate ∈ x.fates, fate.About P) : ∀ fate ∈ x.settle.fates,
    fate.About P := by
  obtain ⟨s, current, past⟩ := x
  unfold settle
  split
  · rename_i req a is
    cases is
    have old : ∀ fate ∈ past ++ [.stopped (some req)], fate.About P := h
    intro fate mem
    rcases mem_append.1 mem with before | last
    · exact old fate (mem_append_left _ before)
    · rw [mem_singleton.1 last]
      exact old (.stopped (some req)) (by simp)
  · exact h

theorem fates_step (h : ∀ fate ∈ x.fates, fate.About P)
    (calls : ∀ req, d = .call req → P req) : ∀ fate ∈ (x.step T d).fates, fate.About P := by
  obtain ⟨s, current, past⟩ := x
  have more {fate : Fate κ α} (old : ∀ other ∈ past, other.About P) (new : fate.About P) :
      ∀ other ∈ past ++ [fate], other.About P := by
    intro other mem
    rcases mem_append.1 mem with before | last
    · exact old other before
    · exact mem_singleton.1 last ▸ new
  cases current with
  | none =>
    cases d with
    | call req => exact fates_settle (more h (calls req rfl))
    | act o => exact h
    | stop => exact more h trivial
  | some under_way =>
    cases d with
    | call req => exact h
    | act o =>
      simp only [step]
      split
      · exact fates_settle h
      · exact h
    | stop => exact h

theorem fates_run (h : ∀ fate ∈ x.fates, fate.About P)
    (calls : ∀ req, .call req ∈ deeds → P req) : ∀ fate ∈ (x.run T deeds).fates, fate.About P := by
  induction deeds generalizing x with
  | nil => exact h
  | cons d deeds ih =>
    refine ih (fates_step h fun req is => calls req (by simp [is])) fun req mem => ?_
    exact calls req (.tail _ mem)

end About

end Solo

/-- `J` is an invariant of the states between calls, and of what a stop leaves of the states in
between, for calls that start under the condition `C`. -/
structure Thread.Keeps (T : Thread σ ω κ α) (C : σ → κ → Prop) (J : List (Fate κ α) → σ → Prop) :
    Prop where
  calls : ∀ past s request, J past s → C s request →
    Safely (fun s' => J (past ++ [.stopped (some request)]) (T.halt s')) (T.program request)
      (fun a s' => J (past ++ [.answered request a]) s') s
  stops : ∀ past s request, J past s → J (past ++ [.stopped request]) (T.halt s)

def Solo.Holds (T : Thread σ ω κ α) (J : List (Fate κ α) → σ → Prop) (x : Solo σ ω κ α) : Prop :=
  match x.current with
  | none => J x.past x.state
  | some (request, rest) =>
    J (x.past ++ [.stopped (some request)]) (T.halt x.state) ∧
      Safely (fun s' => J (x.past ++ [.stopped (some request)]) (T.halt s')) rest
        (fun a s' => J (x.past ++ [.answered request a]) s') x.state

section Keeps

variable {T : Thread σ ω κ α} {C : σ → κ → Prop} {J : List (Fate κ α) → σ → Prop}
  {x : Solo σ ω κ α}

theorem Solo.Holds.settle (h : x.Holds T J) : x.settle.Holds T J := by
  unfold Solo.settle
  split
  · rename_i is
    unfold Solo.Holds at h
    rw [is] at h
    exact h.2
  · exact h

theorem Solo.Holds.step (keeps : T.Keeps C J) (h : x.Holds T J) (meets : x.Meets C d) :
    (x.step T d).Holds T J := by
  obtain ⟨s, current, past⟩ := x
  cases d with
  | call req =>
    cases current with
    | none =>
      exact Solo.Holds.settle ⟨keeps.stops past s _ h, keeps.calls past s req h (meets rfl)⟩
    | some under_way => exact h
  | act o =>
    cases current with
    | none => exact h
    | some under_way =>
      obtain ⟨req, rest⟩ := under_way
      simp only [Solo.step]
      split
      · rename_i stepped
        exact Solo.Holds.settle (h.2.step stepped)
      · exact h
  | stop =>
    cases current with
    | none => exact keeps.stops past s none h
    | some under_way => exact h.1

theorem Solo.Holds.run (keeps : T.Keeps C J) (h : x.Holds T J) (along : x.Along T C deeds) :
    (x.run T deeds).Holds T J := by
  induction deeds generalizing x with
  | nil => exact h
  | cons d deeds ih => exact ih (h.step keeps along.1) along.2

theorem Solo.keeps (keeps : T.Keeps C J) {s : σ} (init : J [] s)
    (along : (Solo.start s).Along T C deeds) : ((Solo.start s).run T deeds).Holds T J :=
  Solo.Holds.run (x := .start s) keeps init along

end Keeps

section Serve

variable {T : Thread σ ω κ α} {I : σ → Prop} {Q : α → σ → Prop} {req : κ}
  {past : List (Fate κ α)} {x : Solo σ ω κ α}

def Solo.Serves (I : σ → Prop) (Q : α → σ → Prop) (request : κ) (past : List (Fate κ α))
    (x : Solo σ ω κ α) : Prop :=
  (∃ rest, x.current = some (request, rest) ∧ x.past = past ∧ Safely I rest Q x.state) ∨
    x.current = none ∧ ∃ a, x.past = past ++ [.answered request a] ∧ Q a x.state

theorem Solo.serves_settle {rest : Prog σ ω α} {s : σ} (safe : Safely I rest Q s) :
    (Solo.settle ⟨s, some (req, rest), past⟩).Serves I Q req past := by
  cases rest with
  | ret a => exact .inr ⟨rfl, a, rfl, safe⟩
  | act f k => exact .inl ⟨_, rfl, rfl, safe⟩

theorem Solo.Serves.act (h : x.Serves I Q req past) (here : I x.state) (o : ω) :
    (x.step T (.act o)).Serves I Q req past ∧ I (x.step T (.act o)).state := by
  obtain ⟨s, current, before⟩ := x
  rcases h with ⟨rest, rfl, rfl, safe⟩ | ⟨rfl, answered⟩
  · simp only [Solo.step]
    split
    · rename_i s' rest' stepped
      obtain ⟨holds, next⟩ := safe.step stepped
      refine ⟨Solo.serves_settle next, ?_⟩
      cases rest' <;> exact holds
    · exact ⟨.inl ⟨rest, rfl, rfl, safe⟩, here⟩
  · exact ⟨.inr ⟨rfl, answered⟩, here⟩

/-- What holds on the way of a program holds while its call is under way, and what holds at its end
once the call is answered. -/
theorem Solo.serve (idle : x.current = none) (safe : Safely I (T.program req) Q x.state)
    (here : I x.state) (outcomes : List ω) :
    (x.run T (.call req :: outcomes.map .act)).Serves I Q req x.past ∧
      I (x.run T (.call req :: outcomes.map .act)).state := by
  have start : (x.step T (.call req)).Serves I Q req x.past ∧ I (x.step T (.call req)).state := by
    simp only [Solo.step, idle]
    refine ⟨Solo.serves_settle safe, ?_⟩
    cases T.program req <;> exact here
  show ((x.step T (.call req)).run T (outcomes.map .act)).Serves I Q req x.past ∧
    I ((x.step T (.call req)).run T (outcomes.map .act)).state
  generalize x.step T (.call req) = y at start
  induction outcomes generalizing y with
  | nil => exact start
  | cons o outcomes ih => exact ih _ (start.1.act start.2 o)

end Serve

end Ehdb.ProofKit
