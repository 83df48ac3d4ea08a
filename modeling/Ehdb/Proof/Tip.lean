import Ehdb.Proof.KnownKeys

/-! `global_sequence` is the highest key an open engine knows of. It is kept in memory only, and an
engine that is opened starts from the highest key of the manifest it loads. -/

namespace Ehdb.Proof

open L0 ProofKit List

variable {R : Type} {C : L0Config R} {w w' : World R} {m m' : MainTask R} {u u' : UpTask}
  {trace : List (Event R)}

def tellsKey : Event R → Bool
  | .appended _ | .minted _ | .stopped _ _ _ => true
  | _ => false

/-- Every minted key is above the keys appended before it. -/
def MintsFresh (D : Dataset R) (trace : List (Event R)) : Prop :=
  ∀ seq earlier, .minted seq :: earlier <:+ trace → ∀ r ∈ history earlier, D.sortKey r < seq

/-- Whether an event is no mint, or the mint of a key above those of `earlier`. -/
def isFresh (D : Dataset R) (earlier : List (Event R)) : Event R → Bool
  | .minted seq => (history earlier).all fun r => D.sortKey r < seq
  | _ => true

variable {D : Dataset R} {e : Event R}

theorem mintsFresh_cons {earlier} :
    MintsFresh D (e :: earlier) ↔ isFresh D earlier e = true ∧ MintsFresh D earlier := by
  constructor
  · intro h
    refine ⟨?_, fun seq before older => h seq before (older.trans (suffix_cons _ _))⟩
    cases e with
    | minted seq => simpa [isFresh] using h seq earlier suffix_rfl
    | _ => rfl
  · rintro ⟨here, before⟩ seq older grown
    rcases suffix_cons_iff.mp grown with eq | grown
    · cases eq
      simpa [isFresh] using here
    · exact before seq older grown

instance MintsFresh.decidable (D : Dataset R) :
    (trace : List (Event R)) → Decidable (MintsFresh D trace)
  | [] => .isTrue fun _ _ grown => by simp at grown
  | _ :: earlier =>
    have := MintsFresh.decidable D earlier
    decidable_of_iff' _ mintsFresh_cons

/-- Whether the newest published manifest reached up to the tip, if the process stopped here. -/
def stopsCovered : Event R → Bool
  | .stopped tip durableTip _ => tip ≤ durableTip
  | _ => true

def TipDurable (trace : List (Event R)) : Prop :=
  ∀ e ∈ trace, stopsCovered e = true

def BelowTop (D : Dataset R) (trace : List (Event R)) : Prop :=
  ∀ r ∈ history trace, D.sortKey r + 1 < 2 ^ 64

instance (trace : List (Event R)) : Decidable (TipDurable trace) := by
  unfold TipDurable
  infer_instance

instance (D : Dataset R) (trace : List (Event R)) : Decidable (BelowTop D trace) := by
  unfold BelowTop
  infer_instance

variable {old new : List (Event R)}

theorem TipDurable.suffix (h : TipDurable new) (grown : old <:+ new) : TipDurable old :=
  fun e mem => h e (grown.subset mem)

/-- The step says nothing about keys and leaves the tip. -/
structure Silent (w w' : World R) : Prop where
  said : ∃ events, w'.trace = events ++ w.trace ∧ ∀ e ∈ events, tellsKey e = false
  tip : w'.engine.globalSequence = w.engine.globalSequence

/-- The steps as the tip sees them. -/
inductive TipStep (D : Dataset R) (P : R → Prop) (w w' : World R) : Prop where
  | silent : Silent w w' → TipStep D P w w'
  | lift {top} : w'.trace = w.trace → Attained D P top →
      w'.engine.globalSequence = max w.engine.globalSequence top → TipStep D P w w'
  | append {r} : w'.trace = .appended r :: w.trace →
      w'.engine.globalSequence = max w.engine.globalSequence (D.sortKey r) → TipStep D P w w'
  | mint : w'.trace = .minted ((w.engine.globalSequence + 1) % 2 ^ 64) :: w.trace →
      w'.engine.globalSequence = w.engine.globalSequence → TipStep D P w w'

theorem Silent.same (trace : w'.trace = w.trace)
    (tip : w'.engine.globalSequence = w.engine.globalSequence) : Silent w w' :=
  ⟨⟨[], trace, by simp⟩, tip⟩

theorem Silent.one (trace : w'.trace = e :: w.trace) (quiet : tellsKey e = false)
    (tip : w'.engine.globalSequence = w.engine.globalSequence) : Silent w w' :=
  ⟨⟨[e], trace, by simpa using quiet⟩, tip⟩

theorem Silent.log (h : Silent w w') (quiet : tellsKey e = false) : Silent w (w'.log e) := by
  obtain ⟨⟨events, said, all⟩, tip⟩ := h
  exact ⟨⟨e :: events, by simp [said], by simpa using ⟨quiet, all⟩⟩, tip⟩

theorem Attempt.silent {effect flag} (h : Attempt effect w w' flag)
    (quiet : Silent w (effect w)) : Silent w w' := by
  cases h with
  | done => exact quiet
  | failed => exact .one rfl rfl rfl
  | unsure => exact quiet.log rfl

theorem Aside.silent (h : Aside w w') : Silent w w' := by
  cases h with
  | stutter => exact .same rfl rfl
  | fault => exact .one rfl rfl rfl

theorem PubStep.silent {p p'} (h : PubStep C w p w' p') : Silent w w' := by
  cases h with
  | stale | acquire | release => exact .same rfl rfl
  | put h => exact h.silent (.same rfl rfl)

theorem StageStep.silent {l l'} (h : StageStep C w l w' l') : Silent w w' := by
  rcases h.coarse with ⟨_, _, step⟩ | ⟨beside, _⟩
  · exact step.silent
  · rcases beside.trace with same | ⟨_, _, logged⟩
    · exact .same same (by rw [beside.engine])
    · exact .one logged rfl (by rw [beside.engine])

theorem UpStep.silent (h : UpStep C w u w' u') : Silent w w' := by
  cases h with
  | aside h => exact h.silent
  | put h => exact h.silent (.one rfl rfl rfl)
  | publish h => exact h.silent
  | unread | lost | close => exact .one rfl rfl rfl
  | read | missing | record => exact .same rfl rfl

theorem MergeStep.silent (h : MergeStep C w m w' m') : Silent w w' := by
  cases h with
  | plan | few | sources | read | write => exact .same rfl rfl
  | merging => exact .one rfl rfl rfl
  | name _ => exact .same (by simp) (by simp)
  | put h => exact h.silent (.one rfl rfl rfl)
  | swap _ swapped => exact swapped ▸ .same rfl rfl

theorem UpkeepStep.silent (h : UpkeepStep C w m w' m') : Silent w w' := by
  cases h with
  | planRetention | deleteFile | prepareTail | commitTail | trim => exact .same rfl rfl
  | drop dropped => exact dropped ▸ .one rfl rfl rfl
  | reclaim => exact .one rfl rfl rfl
  | deletePart _ h => exact h.silent (.same rfl rfl)
  | reclaimEnd => exact .one rfl rfl rfl
  | putTail _ h => exact h.silent (.same rfl rfl)
  | deleteTail _ h => exact h.silent (.same rfl rfl)

variable {P : R → Prop}

theorem RowsTold.attained {a} (h : RowsTold C P a) : Attained C.dataset P a.maxSequence := by
  rcases Nat.eq_zero_or_pos a.maxSequence with none | above
  · exact .inl none
  · obtain ⟨p, mem, eq⟩ := mem_map.mp (foldl_max_mem above)
    have told := h p mem
    rwa [eq] at told

variable {shard : Nat}

theorem ensureWriter_tip (lawful : C.dataset.Lawful) (h : WorldTold C P w m u)
    (ensured : World.ensureWriter C shard w = (.ok (), w')) : TipStep C.dataset P w w' := by
  rcases ensureWriter_ok ensured with ⟨_, rfl⟩ | ⟨writer, disk, _, opened, rfl⟩
  · exact .silent (.same rfl rfl)
  · unfold World.installWriter
    split
    · exact .silent (.same rfl rfl)
    · exact .lift rfl (h.disk.openAbove lawful opened).1 rfl

theorem MainStep.tip (lawful : C.dataset.Lawful) (wf : WorldTold C P w m u)
    (h : MainStep C w m w' m') (isOpen : m ≠ .down) : TipStep C.dataset P w w' := by
  cases h with
  | aside h => exact .silent h.silent
  | write h =>
    cases h with
    | ensureWriter ensured => exact ensureWriter_tip lawful wf ensured
    | dedup => exact .silent (.one rfl rfl rfl)
    | mint => exact .mint rfl rfl
    | append appended =>
      obtain ⟨writer, frame, _, _, _, rfl⟩ := appendFrame_ok appended
      exact .append rfl rfl
    | rename renamed =>
      obtain ⟨_, _, rfl⟩ := renameActive_some renamed
      exact .silent (.one (sealFile_trace _ _ _) rfl (by simp [World.sealFile]))
    | reopen reopened =>
      obtain ⟨_, _, _, rfl⟩ := reopenActive_ok reopened
      exact .silent (.same rfl rfl)
    | reopenFailed failed =>
      obtain ⟨_, rfl⟩ := reopenActive_error failed
      exact .silent (.same rfl rfl)
    | register =>
      refine .silent (.same (registerAndUpload_trace _ _) ?_)
      unfold World.registerAndUpload
      dsimp only
      split <;> rfl
    | backfill => exact .silent (.same rfl rfl)
  | merge h => exact .silent h.silent
  | upkeep h => exact .silent h.silent
  | opening h =>
    cases h with
    | load _ => exact absurd rfl isOpen
    | loadFailed _ => exact absurd rfl isOpen
    | survey | strand | surveyFiles => exact .silent (.same rfl rfl)
    | cut =>
      refine .silent (.same (cutFile_trace _ _ _) ?_)
      unfold World.cutFile
      split <;> rfl
    | sealStranded _ => exact .silent (.one (sealFile_trace _ _ _) rfl (by simp [World.sealFile]))
    | adopt =>
      unfold World.adoptFile
      split
      · exact .silent (.same rfl rfl)
      · split
        · exact .silent (.same rfl rfl)
        · rename_i part read
          obtain ⟨bytes, found, read⟩ := Option.bind_eq_some_iff.mp read
          obtain ⟨told, named⟩ := (wf.disk _ _ found).readSealedPart lawful read
          refine .lift (registerAndUpload_trace _ _) (named ▸ told) ?_
          unfold World.registerAndUpload
          dsimp only
          split <;> rfl
    | resumeFirst _ ensured => exact ensureWriter_tip lawful wf ensured
    | resume ensured => exact ensureWriter_tip lawful wf ensured
  | publish h => exact .silent h.silent

def durableTip (C : L0Config R) (w : World R) : Nat :=
  ((w.newestLatest C).map Manifest.maxSequence).getD 0

def KeysUpTo (D : Dataset R) (trace : List (Event R)) (tip : Nat) : Prop :=
  ∀ r, .appended r ∈ trace → D.sortKey r ≤ tip

/-- The tip is at or above every key of the run, across restarts. -/
structure TipInv (C : L0Config R) (P : R → Prop) (w : World R) (m : MainTask R) : Prop where
  attained : m ≠ .down → Attained C.dataset P w.engine.globalSequence
  above : m ≠ .down → KeysUpTo C.dataset w.trace w.engine.globalSequence
  durable : m = .down → KeysUpTo C.dataset w.trace (durableTip C w)
  fresh : MintsFresh C.dataset w.trace

theorem Attained.max {a b} (h : Attained D P a) (h' : Attained D P b) : Attained D P (max a b) := by
  rcases Nat.le_total a b with le | le
  · rwa [Nat.max_eq_right le]
  · rwa [Nat.max_eq_left le]

variable {events : List (Event R)}

theorem MintsFresh.silent (h : MintsFresh D trace) (quiet : ∀ e ∈ events, tellsKey e = false) :
    MintsFresh D (events ++ trace) := by
  induction events with
  | nil => exact h
  | cons e rest ih =>
    have later := ih fun x mem => quiet x (.tail _ mem)
    have here := quiet e mem_cons_self
    refine mintsFresh_cons.mpr ⟨?_, later⟩
    cases e with
    | minted _ => simp [tellsKey] at here
    | _ => rfl

theorem appended_of_silent {r} (quiet : ∀ e ∈ events, tellsKey e = false)
    (mem : .appended r ∈ events ++ trace) : .appended r ∈ trace := by
  rcases mem_append.mp mem with new | old
  · exact absurd (quiet _ new) (by simp [tellsKey])
  · exact old

theorem TipInv.silent (h : TipInv C P w m) (silent : Silent w w') (same : m' = .down ↔ m = .down)
    (latest : m = .down → ∀ r, (w'.replicas r).latest = (w.replicas r).latest) :
    TipInv C P w' m' := by
  have tip := silent.tip
  obtain ⟨events, said, quiet⟩ := silent.said
  refine ⟨fun isOpen => ?_, fun isOpen => ?_, fun down => ?_, ?_⟩
  · rw [tip]
    exact h.attained (mt same.mpr isOpen)
  · rw [tip, said]
    exact fun r mem => h.above (mt same.mpr isOpen) r (appended_of_silent quiet mem)
  · rw [durableTip, newestLatest_congr (latest (same.mp down)), ← durableTip, said]
    exact fun r mem => h.durable (same.mp down) r (appended_of_silent quiet mem)
  · rw [said]
    exact h.fresh.silent quiet

theorem TipInv.step (h : TipInv C P w m) (isOpen : m ≠ .down) (isOpen' : m' ≠ .down)
    (seen : ∀ r, .appended r ∈ w'.trace → P r) (top : ∀ r, P r → C.dataset.sortKey r + 1 < 2 ^ 64)
    (step : TipStep C.dataset P w w') : TipInv C P w' m' := by
  have attained := h.attained isOpen
  have above := h.above isOpen
  cases step with
  | silent quiet =>
    exact h.silent quiet (by simp [isOpen, isOpen']) fun down => absurd down isOpen
  | lift said found tip =>
    refine ⟨fun _ => ?_, fun _ => ?_, fun down => absurd down isOpen', said ▸ h.fresh⟩
    · rw [tip]
      exact attained.max found
    · rw [tip, said]
      exact fun r mem => Nat.le_trans (above r mem) (Nat.le_max_left _ _)
  | @append r said tip =>
    refine ⟨fun _ => ?_, fun _ => ?_, fun down => absurd down isOpen',
      said ▸ mintsFresh_cons.mpr ⟨rfl, h.fresh⟩⟩
    · rw [tip]
      exact attained.max (.inr ⟨r, seen r (said ▸ mem_cons_self), rfl⟩)
    · rw [tip, said]
      intro x mem
      rcases mem_cons.mp mem with new | old
      · cases new
        exact Nat.le_max_right _ _
      · exact Nat.le_trans (above x old) (Nat.le_max_left _ _)
  | mint said tip =>
    have room : w.engine.globalSequence + 1 < 2 ^ 64 := by
      rcases attained with none | ⟨r, mem, eq⟩
      · rw [none]
        decide
      · rw [← eq]
        exact top r mem
    rw [Nat.mod_eq_of_lt room] at said
    refine ⟨fun _ => ?_, fun _ => ?_, fun down => absurd down isOpen', ?_⟩
    · rw [tip]
      exact attained
    · rw [tip, said]
      intro x mem
      exact above x ((mem_cons.mp mem).resolve_left (by simp))
    · rw [said]
      refine mintsFresh_cons.mpr ⟨all_eq_true.mpr fun r mem => ?_, h.fresh⟩
      exact decide_eq_true (Nat.lt_succ_of_le (above r (mem_history.mp mem)))

variable {cold : Bool}

theorem Loaded.tip (h : Loaded C w cold w') : w'.engine.globalSequence = durableTip C w ∧
      ∃ events, w'.trace = events ++ w.trace ∧ ∀ e ∈ events, tellsKey e = false := by
  cases h with
  | none found _ => exact ⟨by simp [durableTip, found, Engine.assemble], [], rfl, by simp⟩
  | @some a found =>
    refine ⟨by simp [durableTip, found, Engine.assemble], ?_⟩
    cases cold with
    | false => exact ⟨[], rfl, by simp⟩
    | true => exact ⟨[.coldStarted], rfl, by simp [tellsKey]⟩

theorem TipInv.load (h : TipInv C P w .down) (wf : WorldTold C P w .down u)
    (loaded : Loaded C w cold w') : TipInv C P w' (.loaded cold) := by
  obtain ⟨tip, events, said, quiet⟩ := loaded.tip
  refine ⟨fun _ => ?_, fun _ => ?_, by simp, ?_⟩
  · rw [tip, durableTip]
    cases newest : w.newestLatest C with
    | none => exact .inl rfl
    | some a =>
      obtain ⟨r, _, found⟩ := (newestLatest_some newest).present
      exact ((wf.replicas r).latest a found).attained
  · rw [tip, said]
    exact fun r mem => h.durable rfl r (appended_of_silent quiet mem)
  · rw [said]
    exact h.fresh.silent quiet

theorem TipInv.mainStep (lawful : C.dataset.Lawful) (h : TipInv C P w m) (wf : WorldTold C P w m u)
    (reached : Reached w'.trace) (seen : ∀ r, .appended r ∈ w'.trace → P r)
    (top : ∀ r, P r → C.dataset.sortKey r + 1 < 2 ^ 64) (step : MainStep C w m w' m') :
      TipInv C P w' m' := by
  by_cases down : m = .down
  · subst down
    cases step with
    | aside step => exact h.silent step.silent Iff.rfl fun _ => step.sameCatalog.latest
    | write step => cases step
    | merge step => cases step
    | upkeep step => cases step
    | opening step =>
      cases step with
      | load loaded => exact h.load wf (loadAndAssemble_reached loaded reached)
      | loadFailed failed =>
        rw [loadAndAssemble_error failed]
        unfold World.logReach
        split
        · exact h
        · exact h.silent (.one rfl rfl rfl) Iff.rfl fun _ _ => rfl
  · exact h.step down (fun down' => down (step.to_down down').1) seen top (step.tip lawful wf down)

theorem tipInv (lawful : C.dataset.Lawful) (h : Reachable C w m u) (reached : Reached w.trace)
    (durable : TipDurable w.trace) (seen : ∀ r, .appended r ∈ w.trace → P r)
    (top : ∀ r, P r → C.dataset.sortKey r + 1 < 2 ^ 64) : TipInv C P w m := by
  induction h with
  | initial =>
    refine ⟨by simp, by simp, by simp [KeysUpTo, World.initial], ?_⟩
    simp [MintsFresh, World.initial]
  | main before step ih =>
    have grown := step.trace
    have reached' := Reached.suffix reached grown
    have seen' (r : R) mem := seen r (grown.subset mem)
    exact (ih reached' (durable.suffix grown) seen').mainStep lawful
      (worldTold lawful before reached' seen') reached seen top step
  | upload before step ih =>
    have grown := step.trace
    have inv := ih (Reached.suffix reached grown) (durable.suffix grown)
      fun r mem => seen r (grown.subset mem)
    refine inv.silent step.silent Iff.rfl fun down => ?_
    obtain ⟨rfl, _⟩ := down_idle before down
    cases step with
    | aside step => exact step.sameCatalog.latest
  | @receive w m job rest _ queued ih =>
    have grown : w.trace <:+ .uploadBegin :: w.trace := suffix_cons _ _
    have inv := ih (Reached.suffix reached grown) (durable.suffix grown)
      fun r mem => seen r (grown.subset mem)
    exact inv.silent (.one rfl rfl rfl) Iff.rfl fun _ _ => rfl
  | rest _ rests ih =>
    have inv := ih reached durable seen
    have serves := rests.not_down
    exact ⟨fun _ => inv.attained serves, fun _ => inv.above serves, by simp, inv.fresh⟩
  | @halt w m u loseDisk _ ih =>
    have grown : w.trace <:+ (w.halt C loseDisk).trace := suffix_cons _ _
    have inv := ih (Reached.suffix reached grown) (durable.suffix grown)
      fun r mem => seen r (grown.subset mem)
    refine ⟨by simp, by simp, fun _ r mem => ?_, mintsFresh_cons.mpr ⟨rfl, inv.fresh⟩⟩
    have old : .appended r ∈ w.trace := (mem_cons.mp mem).resolve_left (by simp)
    have covered : w.engine.globalSequence ≤ durableTip C w := by
      simpa [stopsCovered, durableTip] using durable _ mem_cons_self
    by_cases down : m = .down
    · exact inv.durable down r old
    · exact Nat.le_trans (inv.above down r old) covered

end Ehdb.Proof
