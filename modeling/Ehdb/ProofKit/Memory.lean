import Ehdb.ProofKit.Solo

/-! A task works on a state that outlives the process, such as a disk, and on a memory that does
not. It may fail; what it did until then stays.

`Does I t m ok err s` is the rule of pre- and postconditions for tasks: every state on the way
satisfies `I`, and the task ends in `ok` or, if it fails, in `err`. -/

namespace Ehdb.ProofKit

variable {σ ω μ ε κ α β : Type}

variable {p : Prog σ ω α} {xs : List β}

namespace Prog

def eval (o : ω) : Prog σ ω α → σ → Option (α × σ)
  | .ret a, s => some (a, s)
  | .act f k, s => (f o s).bind fun (b, s') => eval o (k b) s'

def Total (o : ω) : Prog σ ω α → Prop
  | .ret _ => True
  | .act f k => ∀ s, ∃ b s', f o s = some (b, s') ∧ Total o (k b)

variable {o : ω} {f : α → Prog σ ω β}

theorem Total.bind (h : p.Total o) (next : ∀ a, (f a).Total o) : (p.bind f).Total o := by
  induction p with
  | ret a => exact next a
  | act g k ih =>
    intro s
    obtain ⟨b, s', acted, rest⟩ := h s
    exact ⟨b, s', acted, ih b rest⟩

theorem Total.eval (h : p.Total o) (s : σ) : ∃ a s', p.eval o s = some (a, s') := by
  induction p generalizing s with
  | ret a => exact ⟨a, s, rfl⟩
  | act f k ih =>
    obtain ⟨b, s', acted, rest⟩ := h s
    obtain ⟨a, s'', ends⟩ := ih b rest s'
    exact ⟨a, s'', by rw [Prog.eval, acted]; exact ends⟩

theorem eval_bind_eq (p : Prog σ ω α) (f : α → Prog σ ω β) (s : σ) :
    (p.bind f).eval o s = (p.eval o s).bind fun (a, s') => (f a).eval o s' := by
  induction p generalizing s with
  | ret a => rfl
  | act g k ih =>
    show (g o s).bind (fun (b, s') => ((k b).bind f).eval o s') =
      ((g o s).bind fun (b, s') => (k b).eval o s').bind _
    rw [Option.bind_assoc]
    congr 1
    funext ⟨b, s'⟩
    exact ih b s'

theorem eval_bind {s s' a} (h : p.eval o s = some (a, s')) :
    (p.bind f).eval o s = (f a).eval o s' := by
  rw [eval_bind_eq, h]
  rfl

def Ends (o : ω) (p : Prog σ ω α) (Q : α → σ → Prop) (s : σ) : Prop :=
  ∃ a s', p.eval o s = some (a, s') ∧ Q a s'

section Ends

variable {Q : α → σ → Prop} {s : σ}

theorem Ends.bind {p : Prog σ ω β} {f}
    (h : p.Ends o (fun b s' => (f b).Ends o Q s') s) : (p.bind f).Ends o Q s := by
  obtain ⟨b, s', ends, a, s'', ends', done⟩ := h
  exact ⟨a, s'', (eval_bind ends).trans ends', done⟩

theorem Ends.lift {f a s'} (acts : f o s = some (a, s'))
    (done : Q a s') : (Prog.lift f).Ends o Q s := ⟨a, s', by simp [Prog.lift, eval, acts], done⟩

theorem Ends.ret {a} (done : Q a s) : (Prog.ret a : Prog σ ω α).Ends o Q s := ⟨a, s, rfl, done⟩

theorem Ends.mono {Q'} (h : p.Ends o Q s) (imp : ∀ a s', Q a s' → Q' a s') : p.Ends o Q' s := by
  obtain ⟨a, s', ends, done⟩ := h
  exact ⟨a, s', ends, imp a s' done⟩

theorem Ends.foldEach {γ : Type} {f E} (L : List β → γ → σ → Prop)
    (body : ∀ b rest c s, L (b :: rest) c s → (f c b).Ends o (fun c' s' => L rest c' s') s)
    (done : ∀ c s, L [] c s → E c s) {c : γ} (start : L xs c s) :
    (Prog.foldEach f c xs).Ends o E s := by
  induction xs generalizing s c with
  | nil => exact ret (done c s start)
  | cons b rest ih => exact bind ((body b rest c s start).mono fun _ _ h => ih h)

end Ends

end Prog

section Safely

variable {I : σ → Prop} {Q : α → σ → Prop} {s s' : σ} {o : ω} {a : α}

theorem Safely.eval (h : Safely I p Q s) (ends : p.eval o s = some (a, s')) : Q a s' := by
  induction p generalizing s with
  | ret b =>
    cases ends
    exact h
  | act f k ih =>
    obtain ⟨⟨b, next⟩, acted, rest⟩ := Option.bind_eq_some_iff.1 ends
    exact ih b (h o b next acted).2 rest

theorem Safely.invariant (h : Safely I p Q s) (init : I s) :
    Safely I p (fun a s' => I s' ∧ Q a s') s := by
  induction p generalizing s with
  | ret b => exact ⟨init, h⟩
  | act f k ih =>
    intro o b next acted
    obtain ⟨holds, rest⟩ := h o b next acted
    exact ⟨holds, ih b rest holds⟩

theorem Safely.zoom {τ : Type} {get} {set : τ → σ → σ} {p : Prog τ ω α}
    {K : τ → Prop} {E} {t : τ} (part : get s = some t)
    (get_set : ∀ t s, (get s).isSome → get (set t s) = some t) (h : Safely K p E t)
    (R : σ → Prop) (here : R s)
    (lifts : ∀ s t, R s → (get s).isSome → K t → R (set t s) ∧ I (set t s))
    (done : ∀ a s t, R s → get s = some t → E a t → Q a s) : Safely I (p.zoom get set) Q s := by
  induction p generalizing s t with
  | ret b => exact done b s t here part h
  | act f k ih =>
    intro o b s' stepped
    obtain ⟨t', found, stepped⟩ := Option.bind_eq_some_iff.1 stepped
    obtain ⟨⟨b', t''⟩, acted, eq⟩ := Option.map_eq_some_iff.1 stepped
    cases eq
    rw [part] at found
    cases found
    have is_some : (get s).isSome := by rw [part]; rfl
    obtain ⟨holds, next⟩ := h o b t'' acted
    obtain ⟨kept, safe⟩ := lifts s t'' here is_some holds
    exact ⟨safe, ih b (get_set t'' s is_some) next kept⟩

end Safely

abbrev Task (σ ω μ ε α : Type) := ExceptT ε (StateT μ (Prog σ ω)) α

variable {f : β → Task σ ω μ ε α} {e : ε}

namespace Task

def exec (t : Task σ ω μ ε α) (m : μ) : Prog σ ω (Except ε α × μ) :=
  StateT.run (ExceptT.run t) m

def file (f : ω → σ → Option (Except ε α × σ)) : Task σ ω μ ε α :=
  ExceptT.mk fun m => .act f fun r => .ret (r, m)

def compute (f : μ → Except ε α × μ) : Task σ ω μ ε α :=
  ExceptT.mk fun m => .ret (f m)

def memory : Task σ ω μ ε μ := compute fun m => (.ok m, m)

def update (f : μ → μ) : Task σ ω μ ε Unit := compute fun m => (.ok (), f m)

def fail (e : ε) : Task σ ω μ ε α := compute fun m => (.error e, m)

def ofExcept (r : Except ε α) : Task σ ω μ ε α := compute fun m => (r, m)

def each (f : β → Task σ ω μ ε Unit) : List β → Task σ ω μ ε Unit
  | [] => pure ()
  | b :: rest => do
    f b
    each f rest

def outcome (o : ω) (t : Task σ ω μ ε α) (m : μ) (s : σ) : Option ((Except ε α × μ) × σ) :=
  (t.exec m).eval o s

section Outcome

variable {o : ω} {m : μ} {s : σ}

@[simp]
theorem outcome_pure (a : α) : (pure a : Task σ ω μ ε α).outcome o m s = some ((.ok a, m), s) := rfl

theorem outcome_bind (t : Task σ ω μ ε β) (f : β → Task σ ω μ ε α) :
    (t >>= f).outcome o m s = (t.outcome o m s).bind fun
      | ((.ok b, m'), s') => (f b).outcome o m' s'
      | ((.error e, m'), s') => some ((.error e, m'), s') := by
  show (Prog.bind (t.exec m) _).eval o s = _
  rw [Prog.eval_bind_eq]
  congr 1
  funext ⟨⟨r, m'⟩, s'⟩
  cases r <;> rfl

variable {t : Task σ ω μ ε β}

theorem outcome_bind_of_ok {b m' s'} (h : t.outcome o m s = some ((.ok b, m'), s')) :
    (t >>= f).outcome o m s = (f b).outcome o m' s' := by
  rw [outcome_bind, h]
  rfl

theorem outcome_bind_of_error {m' s'} (h : t.outcome o m s = some ((.error e, m'), s')) :
    (t >>= f).outcome o m s = some ((.error e, m'), s') := by
  rw [outcome_bind, h]
  rfl

theorem outcome_map (t : Task σ ω μ ε β) (g : β → α) : (t >>= fun b => pure (g b)).outcome o m s =
      (t.outcome o m s).map fun r => ((r.1.1.map g, r.1.2), r.2) := by
  rw [outcome_bind]
  rcases t.outcome o m s with _ | ⟨⟨e | b, m'⟩, s'⟩ <;> rfl

theorem outcome_map_eq_ok {g : β → α} {c : α} {m' : μ} {s' : σ} :
    (t >>= fun b => pure (g b)).outcome o m s = some ((.ok c, m'), s') ↔
      ∃ b, t.outcome o m s = some ((.ok b, m'), s') ∧ g b = c := by
  rw [outcome_map]
  rcases t.outcome o m s with _ | ⟨⟨e | b, m''⟩, s''⟩ <;> simp [Except.map]
  tauto

@[simp]
theorem outcome_memory_bind (f : μ → Task σ ω μ ε α) :
    (memory >>= f).outcome o m s = (f m).outcome o m s := rfl

@[simp]
theorem outcome_ok_bind (b : β) (f : β → Task σ ω μ ε α) :
    (ofExcept (.ok b) >>= f).outcome o m s = (f b).outcome o m s := rfl

end Outcome

def Total (o : ω) (t : Task σ ω μ ε α) : Prop := ∀ m, (t.exec m).Total o

namespace Total

variable {o : ω}

theorem pure (a : α) : (Pure.pure a : Task σ ω μ ε α).Total o := fun _ => trivial

theorem bind {t} (h : t.Total o) (next : ∀ b, (f b).Total o) : (t >>= f).Total o := by
  intro m
  refine Prog.Total.bind (h m) ?_
  rintro ⟨res, m'⟩
  cases res with
  | ok b => exact next b m'
  | error e => trivial

theorem file {f} (h : ∀ s, ∃ r, f o s = some r) : (Task.file f : Task σ ω μ ε α).Total o := by
  intro m s
  obtain ⟨⟨r, s'⟩, is⟩ := h s
  exact ⟨r, s', is, trivial⟩

theorem compute (f : μ → Except ε α × μ) : (Task.compute f : Task σ ω μ ε α).Total o :=
  fun _ => trivial

theorem each {f : β → Task σ ω μ ε Unit} (h : ∀ b, (f b).Total o) (xs : List β) :
    (Task.each f xs).Total o := by
  induction xs with
  | nil => exact Total.pure ()
  | cons b rest ih => exact Total.bind (h b) fun _ => ih

theorem ite {c : Prop} [Decidable c] {t t' : Task σ ω μ ε α} (h : t.Total o) (h' : t'.Total o) :
    (if c then t else t').Total o := by
  split
  · exact h
  · exact h'

end Total

end Task

section Does

variable {I : σ → Prop} {m m' : μ} {s s' : σ}

def Ended (ok : α → μ → σ → Prop) (err : ε → μ → σ → Prop) (r : Except ε α × μ) (s : σ) : Prop :=
  match r.1 with
  | .ok a => ok a r.2 s
  | .error e => err e r.2 s

def Does (I : σ → Prop) (t : Task σ ω μ ε α) (m : μ) (ok : α → μ → σ → Prop)
    (err : ε → μ → σ → Prop) (s : σ) : Prop := Safely I (t.exec m) (Ended ok err) s

variable {t : Task σ ω μ ε β} {ok ok' : α → μ → σ → Prop} {err err' : ε → μ → σ → Prop}

theorem Does.bind (h : Does I t m (fun b m' s' => Does I (f b) m' ok err s') err s) :
    Does I (t >>= f) m ok err s := by
  refine Safely.bind (Safely.mono h (fun _ => id) ?_)
  rintro ⟨res, m'⟩ s' next
  cases res with
  | ok b => exact next
  | error e => exact next

theorem Does.pure {a} (h : ok a m s) : Does I (pure a : Task σ ω μ ε α) m ok err s := h

variable {t : Task σ ω μ ε α}

theorem Does.mono {I'} (h : Does I t m ok err s)
    (invariant : ∀ s', I s' → I' s') (good : ∀ a m' s', ok a m' s' → ok' a m' s')
    (bad : ∀ e m' s', err e m' s' → err' e m' s') : Does I' t m ok' err' s := by
  refine Safely.mono h invariant ?_
  rintro ⟨res, m'⟩ s' ends
  cases res with
  | ok a => exact good a m' s' ends
  | error e => exact bad e m' s' ends

theorem Does.file {f : ω → σ → Option (Except ε α × σ)}
    (h : ∀ o r s', f o s = some (r, s') → I s' ∧ Ended ok err (r, m) s') :
    Does I (Task.file f) m ok err s := h

theorem Does.compute {f} (h : Ended ok err (f m) s) :
    Does I (Task.compute f : Task σ ω μ ε α) m ok err s := h

theorem Does.memory {ok} (h : ok m m s) : Does I (Task.memory : Task σ ω μ ε μ) m ok err s := h

theorem Does.update {f ok} (h : ok () (f m) s) :
    Does I (Task.update f : Task σ ω μ ε Unit) m ok err s := h

theorem Does.fail (h : err e m s) : Does I (Task.fail e : Task σ ω μ ε α) m ok err s := h

theorem Does.ofExcept {r} (h : Ended ok err (r, m) s) :
    Does I (Task.ofExcept r : Task σ ω μ ε α) m ok err s := h

/-- The rule for a loop: `L` holds of the elements that have been visited and of those that are
left. -/
theorem Does.each {f : β → Task σ ω μ ε Unit} {ok : Unit → μ → σ → Prop}
    (L : List β → List β → μ → σ → Prop)
    (body : ∀ before b rest m s, L before (b :: rest) m s →
      Does I (f b) m (fun _ m' s' => L (before ++ [b]) rest m' s') err s) (start : L [] xs m s)
    (done : ∀ m s, L xs [] m s → ok () m s) : Does I (Task.each f xs) m ok err s := by
  suffices general : ∀ before rest m s, L before rest m s →
      (∀ m s, L (before ++ rest) [] m s → ok () m s) → Does I (Task.each f rest) m ok err s from
    general [] xs m s start done
  intro before rest
  induction rest generalizing before with
  | nil =>
    intro m s here done
    exact pure (done m s (by rwa [List.append_nil]))
  | cons b rest ih =>
    intro m s here done
    refine bind ((body before b rest m s here).mono (fun _ => id) ?_ fun _ _ _ => id)
    intro _ m' s' next
    exact ih (before ++ [b]) m' s' next (by simpa using done)

theorem Does.eval {o} (h : Does I t m ok err s) (total : t.Total o) :
    ∃ r s', (t.exec m).eval o s = some (r, s') ∧ Ended ok err r s' := by
  obtain ⟨r, s', ends⟩ := (total m).eval s
  exact ⟨r, s', ends, Safely.eval h ends⟩

end Does

structure Host (σ μ : Type) where
  disk : σ
  memory : Option μ
  deriving DecidableEq

/-- A process that serves calls: each works on the memory that the one before left. -/
def hostThread (serve : κ → Option μ → Prog σ ω (α × Option μ)) : Thread (Host σ μ) ω κ α where
  program request :=
    .act (fun _ h => some (h.memory, h)) fun memory =>
      ((serve request memory).zoom (fun h => some h.disk) fun d h => { h with disk := d }).bind
        fun r => .act (fun _ h => some (r.1, { h with memory := r.2 })) .ret
  halt h := { h with memory := none }

variable {serve : κ → Option μ → Prog σ ω (α × Option μ)}

theorem hostThread_serves {I : σ → Prop} {Q : α → Option μ → σ → Prop} {h : Host σ μ} {req : κ}
    (here : I h.disk) (safe : Safely I (serve req h.memory) (fun r d => Q r.1 r.2 d) h.disk) :
    Safely (fun h' => I h'.disk) ((hostThread serve).program req)
      (fun a h' => Q a h'.memory h'.disk) h := by
  intro o memory h' same
  cases same
  refine ⟨here, .bind ?_⟩
  refine Safely.zoom rfl (fun _ _ _ => rfl) (Safely.invariant safe here)
    (fun _ => True) trivial ?_ ?_
  · intro h' d _ _ holds
    exact ⟨trivial, holds⟩
  · rintro r h' d _ part ⟨holds, ends⟩ o b h'' stepped
    cases part
    cases stepped
    exact ⟨holds, ends⟩

theorem hostThread_keeps {C : Host σ μ → κ → Prop} {J : List (Fate κ α) → Host σ μ → Prop}
    (serves : ∀ past h req, J past h → C h req →
      Safely (fun d => J (past ++ [.stopped (some req)]) ⟨d, none⟩) (serve req h.memory)
      (fun r d => J (past ++ [.answered req r.1]) ⟨d, r.2⟩) h.disk)
    (stops : ∀ past h req, J past h → J (past ++ [.stopped req]) ⟨h.disk, none⟩) :
    (hostThread serve).Keeps C J where
  calls past h req holds meets :=
    hostThread_serves (Q := fun a memory d => J (past ++ [.answered req a]) ⟨d, memory⟩)
      (stops past h (some req) holds) (serves past h req holds meets)
  stops past h req holds := stops past h req holds

end Ehdb.ProofKit
