import Ehdb.ProofKit.Prog
import Mathlib.Data.List.Induction

/-! A run of a pool starts calls on a shared state, lets any of them take its next action, drops
calls, and lets the surroundings change the state or end every call, in any order.

`run_tracks` replaces the programs by a protocol that they follow. -/

namespace Ehdb.ProofKit

/-- The program of a call, which knows its number; what dropping a call does to the shared state;
and what the surroundings may do to it. -/
structure Service (σ ω κ α ε : Type) where
  program : Nat → κ → Prog σ ω α
  release : Nat → σ → σ
  world : ε → σ → σ
  ends : ε → Bool := fun _ => false

/-- A call: what was asked, and what is left to do. Nothing is left of a call that was dropped. -/
structure Call (σ ω κ α : Type) where
  request : κ
  rest : Option (Prog σ ω α)

structure Pool (σ ω κ α : Type) where
  shared : σ
  calls : List (Call σ ω κ α)

inductive Move (ω κ ε : Type) where
  | call (request : κ)
  | act (caller : Nat) (o : ω)
  | drop (caller : Nat)
  | world (e : ε)

variable {σ ω κ α ε ℓ : Type}

def Call.cut (c : Call σ ω κ α) : Call σ ω κ α :=
  match c.rest with
  | some (.ret _) => c
  | _ => { c with rest := none }

variable {i : Nat} {req : κ} {a : α}

namespace Pool

def start (s : σ) : Pool σ ω κ α := ⟨s, []⟩

def step (S : Service σ ω κ α ε) (p : Pool σ ω κ α) : Move ω κ ε → Pool σ ω κ α
  | .call request =>
    { p with calls := p.calls ++ [⟨request, some (S.program p.calls.length request)⟩] }
  | .act i o =>
    match p.calls[i]? with
    | some ⟨request, some rest⟩ =>
      match rest.step o p.shared with
      | some (s, rest) => ⟨s, p.calls.set i ⟨request, some rest⟩⟩
      | none => p
    | _ => p
  | .drop i =>
    match p.calls[i]? with
    | some ⟨request, some (.act _ _)⟩ => ⟨S.release i p.shared, p.calls.set i ⟨request, none⟩⟩
    | _ => p
  | .world e => ⟨S.world e p.shared, if S.ends e then p.calls.map Call.cut else p.calls⟩

def run (S : Service σ ω κ α ε) (p : Pool σ ω κ α) (moves : List (Move ω κ ε)) : Pool σ ω κ α :=
  moves.foldl (step S) p

theorem run_append (S : Service σ ω κ α ε) (p : Pool σ ω κ α) (moves more : List (Move ω κ ε)) :
    p.run S (moves ++ more) = (p.run S moves).run S more := List.foldl_append

def answer (p : Pool σ ω κ α) (i : Nat) : Option (κ × α) :=
  match p.calls[i]? with
  | some ⟨request, some (.ret a)⟩ => some (request, a)
  | _ => none

theorem answer_eq_some {p : Pool σ ω κ α} :
    p.answer i = some (req, a) ↔ p.calls[i]? = some ⟨req, some (.ret a)⟩ := by
  constructor
  · intro h
    unfold answer at h
    split at h
    · rename_i eq
      cases h
      exact eq
    · cases h
  · intro h
    simp [answer, h]

end Pool

/-- A protocol for the calls of a service: where a call starts, what one action of a call may do,
and where a call that returned `a` has ended. -/
structure Protocol (σ κ α ℓ : Type) where
  start : κ → ℓ
  next : Nat → σ → ℓ → σ → ℓ → Prop
  done : κ → α → ℓ → Prop

abbrev Locals (κ ℓ : Type) := List (κ × Option ℓ)

variable {j : Nat} {new entry : κ × Option ℓ} {ls : Locals κ ℓ}

theorem Locals.set_cases (h : (List.set ls i new)[j]? = some entry) :
    (j = i ∧ entry = new) ∨ (j ≠ i ∧ ls[j]? = some entry) := by
  rw [List.getElem?_set] at h
  split at h
  · rename_i same
    split at h
    · cases h
      exact .inl ⟨same.symm, rfl⟩
    · cases h
  · rename_i other
    exact .inr ⟨fun same => other same.symm, h⟩

theorem Locals.append_cases (h : (ls ++ [new] : Locals κ ℓ)[j]? = some entry) :
    (j = ls.length ∧ entry = new) ∨ ls[j]? = some entry := by
  rw [List.getElem?_append] at h
  split at h
  · exact .inr h
  · rw [List.getElem?_singleton] at h
    split at h
    · cases h
      exact .inl ⟨by omega, rfl⟩
    · cases h

namespace Protocol

def Cut (T : Protocol σ κ α ℓ) (before after : Locals κ ℓ) : Prop :=
  after.length = before.length ∧
    ∀ (i : Nat) (request : κ) (l : Option ℓ), before[i]? = some (request, l) →
      after[i]? = some (request, none) ∨
        (after[i]? = some (request, l) ∧ ∀ l', l = some l' → ∃ a, T.done request a l')

inductive Reach (S : Service σ ω κ α ε) (T : Protocol σ κ α ℓ) (init : σ) : σ → Locals κ ℓ → Prop
  | init : Reach S T init init []
  | call {s ls} (request : κ) :
      Reach S T init s ls → Reach S T init s (ls ++ [(request, some (T.start request))])
  | act {s s' ls i request l l'} :
      Reach S T init s ls → ls[i]? = some (request, some l) → T.next i s l s' l' →
      Reach S T init s' (ls.set i (request, some l'))
  | drop {s ls i request l} : Reach S T init s ls → ls[i]? = some (request, some l) →
      Reach S T init (S.release i s) (ls.set i (request, none))
  | world {s ls} (e : ε) : Reach S T init s ls → S.ends e = false → Reach S T init (S.world e s) ls
  | ended {s ls ls'} (e : ε) :
      Reach S T init s ls → S.ends e = true → T.Cut ls ls' → Reach S T init (S.world e s) ls'

/-- One move of a service whose calls follow the protocol; `stay` when the call that was asked to
move could not. -/
inductive Next (S : Service σ ω κ α ε) (T : Protocol σ κ α ℓ) :
    σ → Locals κ ℓ → σ → Locals κ ℓ → Prop
  | stay {s ls} : Next S T s ls s ls
  | call {s ls} (request : κ) : Next S T s ls s (ls ++ [(request, some (T.start request))])
  | act {s s' ls i request l l'} : ls[i]? = some (request, some l) → T.next i s l s' l' →
      Next S T s ls s' (ls.set i (request, some l'))
  | drop {s ls i request l} : ls[i]? = some (request, some l) →
      Next S T s ls (S.release i s) (ls.set i (request, none))
  | world {s ls} (e : ε) : S.ends e = false → Next S T s ls (S.world e s) ls
  | ended {s ls ls'} (e : ε) : S.ends e = true → T.Cut ls ls' → Next S T s ls (S.world e s) ls'

inductive Later (S : Service σ ω κ α ε) (T : Protocol σ κ α ℓ) (s : σ) (ls : Locals κ ℓ) :
    σ → Locals κ ℓ → Prop
  | refl : Later S T s ls s ls
  | next {s' s'' ls' ls''} :
      Later S T s ls s' ls' → T.Next S s' ls' s'' ls'' → Later S T s ls s'' ls''

section Next

variable {S : Service σ ω κ α ε} {T : Protocol σ κ α ℓ} {init s s' : σ} {ls ls' : Locals κ ℓ}

theorem Reach.onward (reach : T.Reach S init s ls) : T.Later S init [] s ls := by
  induction reach with
  | init => exact .refl
  | call req _ ih => exact ih.next (.call req)
  | act _ known step ih => exact ih.next (.act known step)
  | drop _ known ih => exact ih.next (.drop known)
  | world e _ goes ih => exact ih.next (.world e goes)
  | ended e _ ends cut ih => exact ih.next (.ended e ends cut)

/-- What each move must give for an invariant `J` of the shared state, which may speak of the number
of calls, and `P` of each call, in runs that stay `calm`. A state before a calm one is calm. -/
structure Keeps (S : Service σ ω κ α ε) (T : Protocol σ κ α ℓ) (calm : σ → Prop)
    (J : σ → Nat → Prop) (P : σ → Nat → κ → ℓ → Prop) : Prop where
  call : ∀ {s n} request, J s n → J s (n + 1) ∧ P s n request (T.start request)
  act : ∀ {s s' n i request l l'}, T.next i s l s' l' → calm s' → calm s ∧
    (i < n → J s n → P s i request l → J s' n ∧ P s' i request l' ∧
      ∀ {j request' m}, j ≠ i → P s j request' m → P s' j request' m)
  drop : ∀ {s n i request l}, calm (S.release i s) → calm s ∧ (J s n → P s i request l →
    J (S.release i s) n ∧
      ∀ {j request' m}, j ≠ i → P s j request' m → P (S.release i s) j request' m)
  world : ∀ {s n} e, calm (S.world e s) → calm s ∧ (J s n → J (S.world e s) n ∧
    ∀ {j request m}, (S.ends e = true → ∃ a, T.done request a m) → P s j request m →
      P (S.world e s) j request m)

def Holds (J : σ → Nat → Prop) (P : σ → Nat → κ → ℓ → Prop) (s : σ) (ls : Locals κ ℓ) : Prop :=
  J s ls.length ∧
    ∀ (i : Nat) (request : κ) (l : ℓ), ls[i]? = some (request, some l) → P s i request l

variable {calm : σ → Prop} {J : σ → Nat → Prop} {P : σ → Nat → κ → ℓ → Prop}

theorem Keeps.next (keeps : T.Keeps S calm J P) (next : T.Next S s ls s' ls') (now : calm s') :
    calm s ∧ (Holds J P s ls → Holds J P s' ls') := by
  cases next with
  | stay => exact ⟨now, id⟩
  | call req =>
    refine ⟨now, fun ⟨shared, calls⟩ => ?_⟩
    obtain ⟨shared', start⟩ := keeps.call req shared
    rw [Holds, List.length_append]
    refine ⟨shared', fun j request' m known => ?_⟩
    rcases Locals.append_cases known with ⟨rfl, is⟩ | old
    · cases is
      exact start
    · exact calls j request' m old
  | act known step =>
    obtain ⟨before, acts⟩ := keeps.act step now
    refine ⟨before, fun ⟨shared, calls⟩ => ?_⟩
    obtain ⟨shared', own, others⟩ :=
      acts (List.getElem?_eq_some_iff.1 known).1 shared (calls _ _ _ known)
    rw [Holds, List.length_set]
    refine ⟨shared', fun j request' m of_j => ?_⟩
    rcases Locals.set_cases of_j with ⟨rfl, is⟩ | ⟨other, old⟩
    · cases is
      exact own
    · exact others other (calls j request' m old)
  | drop known =>
    obtain ⟨before, drops⟩ := keeps.drop now
    refine ⟨before, fun ⟨shared, calls⟩ => ?_⟩
    obtain ⟨shared', others⟩ := drops shared (calls _ _ _ known)
    rw [Holds, List.length_set]
    refine ⟨shared', fun j request' m of_j => ?_⟩
    rcases Locals.set_cases of_j with ⟨-, is⟩ | ⟨other, old⟩
    · cases is
    · exact others other (calls j request' m old)
  | world e goes =>
    obtain ⟨before, turns⟩ := keeps.world e now
    refine ⟨before, fun ⟨shared, calls⟩ => ⟨(turns shared).1, fun j req m known => ?_⟩⟩
    exact (turns shared).2 (by rw [goes]; nofun) (calls j req m known)
  | ended e _ cut =>
    obtain ⟨before, turns⟩ := keeps.world e now
    refine ⟨before, fun ⟨shared, calls⟩ => ?_⟩
    rw [Holds, cut.1]
    refine ⟨(turns shared).1, fun j req m known => ?_⟩
    have bound := cut.1 ▸ (List.getElem?_eq_some_iff.1 known).1
    obtain ⟨⟨_, _⟩, there⟩ := (⟨_, List.getElem?_eq_getElem bound⟩ : ∃ entry, _ = some entry)
    rcases cut.2 j _ _ there with gone | ⟨same, done⟩
    · rw [known] at gone
      cases gone
    · rw [known] at same
      cases same
      exact (turns shared).2 (fun _ => done m rfl) (calls j _ _ there)

theorem Keeps.later (keeps : T.Keeps S calm J P) (later : T.Later S s ls s' ls') (now : calm s') :
    calm s ∧ (Holds J P s ls → Holds J P s' ls') := by
  induction later with
  | refl => exact ⟨now, id⟩
  | next _ next ih =>
    obtain ⟨before, after⟩ := keeps.next next now
    exact ⟨(ih before).1, fun holds => after ((ih before).2 holds)⟩

theorem Keeps.reach (keeps : T.Keeps S calm J P) (reach : T.Reach S init s ls) (now : calm s)
    (holds : J init 0) : Holds J P s ls := (keeps.later reach.onward now).2 ⟨holds, nofun⟩

end Next

end Protocol

/-- What is left of call `i` follows the protocol from where the call is known to be. -/
def Call.Fits (T : Protocol σ κ α ℓ) (i : Nat) (c : Call σ ω κ α) : Option ℓ → Prop
  | some l => ∃ rest, c.rest = some rest ∧ Follows (T.next i) rest (T.done c.request) l
  | none => c.rest = none

structure Pool.Tracks (S : Service σ ω κ α ε) (T : Protocol σ κ α ℓ) (init : σ)
    (p : Pool σ ω κ α) (ls : Locals κ ℓ) : Prop where
  reach : T.Reach S init p.shared ls
  length : ls.length = p.calls.length
  fits : ∀ (i : Nat) (c : Call σ ω κ α), p.calls[i]? = some c →
    ∃ l, ls[i]? = some (c.request, l) ∧ c.Fits T i l

variable {c : Call σ ω κ α}

section Tracks

variable {S : Service σ ω κ α ε} {T : Protocol σ κ α ℓ} {init : σ} {p : Pool σ ω κ α}
  {ls : Locals κ ℓ}

section

variable (t : p.Tracks S T init ls)
include t

theorem Pool.Tracks.call
    (follows : ∀ i, Follows (T.next i) (S.program i req) (T.done req) (T.start req)) :
    ∃ ls', T.Next S p.shared ls (p.step S (.call req)).shared ls' ∧
      (p.step S (.call req)).Tracks S T init ls' := by
  refine ⟨_, .call req, t.reach.call req, by simp [Pool.step, t.length], ?_⟩
  intro i c found
  simp only [Pool.step, List.getElem?_append, List.getElem?_singleton] at found ⊢
  rw [t.length]
  split at found
  · rename_i old
    rw [if_pos old]
    exact t.fits i c found
  · rename_i new
    rw [if_neg new]
    split at found
    · rename_i first
      cases found
      have last : i = p.calls.length := by omega
      exact ⟨_, if_pos first, _, rfl, last ▸ follows _⟩
    · cases found

theorem Pool.Tracks.set {c' s' l'}
    (found : p.calls[i]? = some c) (reach : T.Reach S init s' (ls.set i (c'.request, l')))
    (fits : c'.Fits T i l') :
    Pool.Tracks S T init ⟨s', p.calls.set i c'⟩ (ls.set i (c'.request, l')) := by
  refine ⟨reach, by simp [t.length], ?_⟩
  intro j d at_j
  have bound : i < p.calls.length := (List.getElem?_eq_some_iff.1 found).1
  by_cases same : i = j
  · subst same
    rw [List.getElem?_set_self bound] at at_j
    cases at_j
    exact ⟨l', List.getElem?_set_self (t.length ▸ bound), fits⟩
  · rw [List.getElem?_set_ne same] at at_j ⊢
    exact t.fits j d at_j

theorem Pool.Tracks.act (i : Nat) (o : ω) :
    ∃ ls', T.Next S p.shared ls (p.step S (.act i o)).shared ls' ∧
      (p.step S (.act i o)).Tracks S T init ls' := by
  unfold Pool.step
  dsimp only
  split
  · rename_i req rest found
    obtain ⟨l, known, fits⟩ := t.fits i _ found
    split
    · rename_i s rest' stepped
      cases l with
      | none => cases fits
      | some l =>
        obtain ⟨_, eq, follows⟩ := fits
        cases eq
        obtain ⟨l', next, follows'⟩ := follows.step stepped
        exact ⟨_, .act known next, t.set found (t.reach.act known next) ⟨rest', rfl, follows'⟩⟩
    · exact ⟨ls, .stay, t⟩
  · exact ⟨ls, .stay, t⟩

/-- An action of call `i` changes the shared state only by a step of the protocol from where the
call is known to be. -/
theorem Pool.Tracks.acted (i : Nat) (o : ω) : (p.step S (.act i o)).shared = p.shared ∨
      ∃ c l l', p.calls[i]? = some c ∧ ls[i]? = some (c.request, some l) ∧
        T.next i p.shared l (p.step S (.act i o)).shared l' := by
  unfold Pool.step
  dsimp only
  split
  · rename_i req rest found
    obtain ⟨l, known, fits⟩ := t.fits i _ found
    split
    · rename_i s rest' stepped
      cases l with
      | none => cases fits
      | some l =>
        obtain ⟨_, eq, follows⟩ := fits
        cases eq
        obtain ⟨l', next, -⟩ := follows.step stepped
        exact .inr ⟨_, l, l', found, known, next⟩
    · exact .inl rfl
  · exact .inl rfl

theorem Pool.Tracks.drop (i : Nat) : ∃ ls', T.Next S p.shared ls (p.step S (.drop i)).shared ls' ∧
      (p.step S (.drop i)).Tracks S T init ls' := by
  unfold Pool.step
  dsimp only
  split
  · rename_i found
    obtain ⟨l, known, fits⟩ := t.fits i _ found
    cases l with
    | none => cases fits
    | some l => exact ⟨_, .drop known, t.set found (t.reach.drop known) rfl⟩
  · exact ⟨ls, .stay, t⟩

end

def cutLocals (calls : List (Call σ ω κ α)) (ls : Locals κ ℓ) : Locals κ ℓ :=
  List.zipWith (fun c l => (l.1, if c.cut.rest.isSome then l.2 else none)) calls ls

theorem Call.Fits.cut {l} (fits : c.Fits T i l) :
    c.cut.Fits T i (if c.cut.rest.isSome then l else none) ∧
      (c.cut.rest.isSome → ∀ l', l = some l' → ∃ a, T.done c.request a l') := by
  obtain ⟨req, rest⟩ := c
  cases l with
  | none =>
    cases fits
    exact ⟨rfl, fun _ _ h => by cases h⟩
  | some l =>
    obtain ⟨rest, eq, follows⟩ := fits
    cases eq
    cases rest with
    | ret a => exact ⟨⟨_, rfl, follows⟩, fun _ l' h => by cases h; exact ⟨a, follows⟩⟩
    | act f k => exact ⟨rfl, fun h => by cases h⟩

theorem Pool.Tracks.cut (t : p.Tracks S T init ls) : T.Cut ls (cutLocals p.calls ls) := by
  refine ⟨by simp [cutLocals, t.length], ?_⟩
  intro i req l known
  have bound : i < p.calls.length := t.length ▸ (List.getElem?_eq_some_iff.1 known).1
  obtain ⟨c, found⟩ : ∃ c, p.calls[i]? = some c := ⟨_, List.getElem?_eq_getElem bound⟩
  obtain ⟨l', known', fits⟩ := t.fits i c found
  rw [known] at known'
  cases known'
  have entry : (cutLocals p.calls ls)[i]? =
      some (c.request, if c.cut.rest.isSome then l else none) := by
    simp [cutLocals, List.getElem?_zipWith, found, known]
  rw [entry]
  by_cases returned : c.cut.rest.isSome
  · exact .inr ⟨by rw [if_pos returned], fits.cut.2 returned⟩
  · exact .inl (by rw [if_neg returned])

theorem Call.cut_request (c : Call σ ω κ α) : c.cut.request = c.request := by
  unfold Call.cut
  split <;> rfl

theorem Pool.Tracks.world (t : p.Tracks S T init ls) (e : ε) :
    ∃ ls', T.Next S p.shared ls (p.step S (.world e)).shared ls' ∧
      (p.step S (.world e)).Tracks S T init ls' := by
  cases ends : S.ends e with
  | false =>
    refine ⟨ls, .world e ends, t.reach.world e ends, ?_, ?_⟩
    · simpa [Pool.step, ends] using t.length
    · simpa [Pool.step, ends] using t.fits
  | true =>
    refine ⟨cutLocals p.calls ls, .ended e ends t.cut, t.reach.ended e ends t.cut, ?_, ?_⟩
    · simp [Pool.step, ends, cutLocals, t.length]
    · intro i c found
      simp only [Pool.step, ends, if_true, List.getElem?_map, Option.map_eq_some_iff] at found
      obtain ⟨c, found, rfl⟩ := found
      obtain ⟨l, known, fits⟩ := t.fits i c found
      refine ⟨_, ?_, fits.cut.1⟩
      simp [cutLocals, List.getElem?_zipWith, found, known, c.cut_request]

theorem Pool.Tracks.run
    (follows : ∀ i req, Follows (T.next i) (S.program i req) (T.done req) (T.start req))
    (t : p.Tracks S T init ls) (moves : List (Move ω κ ε)) :
    ∃ ls', T.Later S p.shared ls (p.run S moves).shared ls' ∧
      (p.run S moves).Tracks S T init ls' := by
  induction moves using List.reverseRecOn with
  | nil => exact ⟨ls, .refl, t⟩
  | append_singleton moves move ih =>
    obtain ⟨ls', later, t'⟩ := ih
    have step : ∃ ls'', T.Next S (p.run S moves).shared ls' ((p.run S moves).step S move).shared
        ls'' ∧ ((p.run S moves).step S move).Tracks S T init ls'' := by
      cases move with
      | call req => exact t'.call fun i => follows i req
      | act i o => exact t'.act i o
      | drop i => exact t'.drop i
      | world e => exact t'.world e
    obtain ⟨ls'', next, t''⟩ := step
    rw [Pool.run_append]
    exact ⟨ls'', later.next next, t''⟩

variable (S T) in
theorem Pool.run_tracks
    (follows : ∀ i req, Follows (T.next i) (S.program i req) (T.done req) (T.start req))
    (init : σ) (moves : List (Move ω κ ε)) :
    ∃ ls, ((Pool.start init).run S moves).Tracks S T init ls := by
  have start : (Pool.start init : Pool σ ω κ α).Tracks S T init [] :=
    ⟨.init, rfl, fun i c found => by simp [Pool.start] at found⟩
  obtain ⟨ls, -, t⟩ := start.run follows moves
  exact ⟨ls, t⟩

theorem Pool.Tracks.answered (t : p.Tracks S T init ls) (h : p.answer i = some (req, a)) :
    ∃ l, ls[i]? = some (req, some l) ∧ T.done req a l := by
  obtain ⟨l, known, fits⟩ := t.fits i _ (Pool.answer_eq_some.1 h)
  cases l with
  | none => cases fits
  | some l =>
    obtain ⟨rest, eq, follows⟩ := fits
    cases eq
    exact ⟨l, known, follows⟩

end Tracks

end Ehdb.ProofKit
