import Ehdb.Proof.Frames

/-! What the steps of the caller's thread do to the manifest in memory, the publication state, the
part objects and the `LATEST` copies. -/

namespace Ehdb.Proof

open L0 ProofKit List

variable {R : Type}

/-- The manifest gains `row`, and nothing else of the catalog changes. -/
structure Pushes (row : PartMeta) (w w' : World R) : Prop where
  replicas : w'.replicas = w.replicas
  manifest : w'.engine.manifest = w.engine.manifest.pushPart row
  published : w'.engine.published = w.engine.published
  publishing : w'.engine.publishing = w.engine.publishing

/-- The foreground's moves as the catalog sees them. -/
inductive CatalogStep (C : L0Config R) : World R → MainTask R → World R → MainTask R → Prop where
  | quiet {w m w' m'} : SameCatalog w w' → m'.stage = m.stage → m'.held ⊆ m.held →
      (m'.reclaims = m.reclaims ∨ m'.reclaims = none) → (m' = .down ↔ m = .down) →
      CatalogStep C w m w' m'
  | load {w w' reach cold tip} : World.loadAndAssemble C reach cold w = (.ok tip, w') →
      CatalogStep C w .down w' (.loaded cold)
  | push {w m w' m' row} : row.replicas = [] → Pushes row w w' → m.stage = .free →
      m'.stage = .free →
      m'.held = [] → m'.reclaims = none → m ≠ .down → m' ≠ .down → CatalogStep C w m w' m'
  | put {w w' merge row bytes locations replica todo flag} :
      Attempt (World.putPart replica (substrateKeyFor merge.plan.partition row.partId) bytes)
        w w' flag → CatalogStep C w (.copying merge row bytes locations (replica :: todo)) w'
        (.copying merge row bytes
          (taken locations replica (substrateKeyFor merge.plan.partition row.partId) flag) todo)
  | swap {w merge row bytes locations} : locations ≠ [] →
      CatalogStep C w (.copying merge row bytes locations [])
        (w.swapMerged merge.plan.sourceIds { row with replicas := locations })
        (.publishing (.holding (w.swapMerged merge.plan.sourceIds
          { row with replicas := locations }).engine.manifest.durableView))
  | drop {w plan} : CatalogStep C w (.retaining plan) (w.dropRetained plan)
        (.publishing (.holding (w.dropRetained plan).engine.manifest.durableView))
  | reclaim {w} : CatalogStep C w (.serving []) (w.log (.reclaimBegin (w.latestIsCurrent C)))
        (.collecting (.of w.engine.manifest))
  | deletePart {w w' view replica key flag} : view.dropsObject key = true →
      Attempt (World.deletePart replica key) w w' flag →
      CatalogStep C w (.collecting view) w' (.collecting view)
  | publish {w w' l l'} : StageStep C w l w' l' →
      CatalogStep C w (.publishing l) w' (.publishing l')

variable {C : L0Config R} {w w' : World R} {m m' : MainTask R} {u u' : UpTask}

theorem MainTask.Rests.stage_free (h : m.Rests) : m.stage = .free := by
  cases h <;> rfl

theorem MainTask.Rests.pub_none (h : m.Rests) : m.pub = none := by
  rw [MainTask.pub, h.stage_free]
  rfl

theorem MainTask.Rests.not_down (h : m.Rests) : m ≠ .down := by
  cases h <;> simp

theorem MainTask.Rests.reclaims_none (h : m.Rests) : m.reclaims = none := by
  cases h <;> rfl

theorem inHand_of_mainStep (h : ∀ part ∈ m.inHand, part.row.replicas = [])
    (step : MainStep C w m w' m') : ∀ part ∈ m'.inHand, part.row.replicas = [] := by
  cases step with
  | aside _ => exact h
  | write step =>
    cases step with
    | ensureWriter | dedup | mint | append | rename | backfill => exact h
    | reopen _ =>
      intro part mem
      rcases mem_append.mp mem with old | new
      · exact h part old
      · rw [mem_singleton.mp new]
        rfl
    | reopenFailed => simp [MainTask.inHand]
    | register => exact fun part mem => h part (.tail _ mem)
  | merge step => cases step <;> simp [MainTask.inHand]
  | upkeep step => cases step <;> simp [MainTask.inHand]
  | opening step => cases step <;> simp [MainTask.inHand]
  | publish _ => simp [MainTask.inHand]

theorem inHand_unreplicated (h : Reachable C w m u) :
    ∀ part ∈ m.inHand, part.row.replicas = [] := by
  induction h with
  | initial | rest | halt => simp [MainTask.inHand]
  | main _ step ih => exact inHand_of_mainStep ih step
  | upload _ _ ih => exact ih
  | receive _ _ ih => exact ih

theorem registerAndUpload_catalog (part : SealedPart R) (w : World R) :
    SameCatalog w (w.registerAndUpload part) ∨ Pushes part.row w (w.registerAndUpload part) := by
  unfold World.registerAndUpload
  dsimp only
  split
  · exact .inl (.refl w)
  · exact .inr ⟨rfl, rfl, rfl, rfl⟩

def MainTask.isDown : MainTask R → Bool
  | .down => true
  | _ => false

theorem MainTask.isDown_iff : m.isDown = true ↔ m = .down := by
  cases m <;> simp [isDown]

/-- What the catalog has to do with a task. -/
def MainTask.catalog (m : MainTask R) :
    PubStage × List ReplicaLocation × Option ReclaimView × Bool :=
  (m.stage, m.held, m.reclaims, m.isDown)

theorem SameCatalog.step (same : SameCatalog w w') (task : m'.catalog = m.catalog) :
    CatalogStep C w m w' m' := by
  simp only [MainTask.catalog, Prod.mk.injEq] at task
  obtain ⟨stage, held, reclaims, down⟩ := task
  refine .quiet same stage (held ▸ List.Subset.refl _) (.inl reclaims) ?_
  rw [← MainTask.isDown_iff, ← MainTask.isDown_iff, down]

theorem WriteStep.catalog (hand : ∀ part ∈ m.inHand, part.row.replicas = [])
    (step : WriteStep C w m w' m') : CatalogStep C w m w' m' := by
  cases step with
  | ensureWriter h =>
    exact (sameCatalog_ensureWriter h).step rfl
  | dedup | mint =>
    exact ((SameCatalog.refl w).log _).step rfl
  | append h =>
    obtain ⟨writer, frame, _, _, _, rfl⟩ := appendFrame_ok h
    exact SameCatalog.step (.of_replicas rfl rfl rfl rfl) rfl
  | rename h =>
    obtain ⟨_, _, rfl⟩ := renameActive_some h
    exact SameCatalog.step (.of_engine (by simp [World.sealFile]) (by simp [World.sealFile])) rfl
  | reopen h =>
    exact (sameCatalog_reopenActive h).step rfl
  | reopenFailed h =>
    exact (sameCatalog_reopenActive h).step rfl
  | register =>
    rename_i part sealed
    rcases registerAndUpload_catalog part w with same | push
    · exact same.step rfl
    · exact .push (hand part mem_cons_self) push rfl rfl rfl rfl (by simp) (by simp)
  | backfill =>
    exact SameCatalog.step (.of_replicas rfl rfl rfl rfl) rfl

theorem MergeStep.catalog (step : MergeStep C w m w' m') : CatalogStep C w m w' m' := by
  cases step with
  | plan | few | sources | read => exact SameCatalog.step (.refl w) rfl
  | merging =>
    exact ((SameCatalog.refl w).log _).step rfl
  | write _ _ => exact SameCatalog.step (.of_engine rfl rfl) rfl
  | name _ =>
    exact SameCatalog.step (.of_engine (by simp) (by simp)) rfl
  | put h => exact .put h
  | swap ne h =>
    subst h
    exact .swap ne

theorem UpkeepStep.catalog (step : UpkeepStep C w m w' m') : CatalogStep C w m w' m' := by
  cases step with
  | planRetention | prepareTail | trim =>
    exact SameCatalog.step (.refl w) rfl
  | drop h =>
    subst h
    exact .drop
  | reclaim => exact .reclaim
  | deletePart drops h => exact .deletePart drops h
  | deleteFile _ => exact SameCatalog.step (.of_engine rfl rfl) rfl
  | reclaimEnd =>
    exact .quiet ((SameCatalog.refl w).log _) rfl (List.Subset.refl _) (.inr rfl) (by simp)
  | putTail _ h =>
    exact (h.sameCatalog (sameCatalog_tails (fun tails => if (tails.lookup _).isSome then tails
      else tails.insert _ _) w)).step rfl
  | commitTail _ =>
    exact SameCatalog.step (.of_replicas rfl rfl rfl rfl) rfl
  | deleteTail _ h =>
    exact (sameCatalog_deleteTail h).step rfl

theorem OpenStep.catalog (step : OpenStep C w m w' m') : CatalogStep C w m w' m' := by
  cases step with
  | load h => exact .load h
  | loadFailed h =>
    rw [loadAndAssemble_error h]
    refine .quiet ?_ rfl (List.Subset.refl _) (.inl rfl) (by simp)
    unfold World.logReach
    split
    · exact .refl w
    · exact (SameCatalog.refl w).log _
  | survey | strand | surveyFiles =>
    exact SameCatalog.step (.refl w) rfl
  | cut =>
    refine SameCatalog.step ?_ rfl
    unfold World.cutFile
    split <;> exact .of_engine rfl rfl
  | sealStranded _ =>
    refine .quiet (.of_engine ?_ ?_) rfl (List.Subset.refl _) (.inl rfl) (by simp) <;>
      simp [World.sealFile]
  | adopt =>
    rename_i coverage known id todo
    unfold World.adoptFile
    split
    · exact (SameCatalog.refl w).step rfl
    split
    · exact (SameCatalog.refl w).step rfl
    · rename_i part read
      obtain ⟨bytes, _, read⟩ := Option.bind_eq_some_iff.mp read
      rcases registerAndUpload_catalog part
          (w.withEngine fun e => e.countRecovered C id.partition id.max part.records)
            with same | push
      · exact SameCatalog.step ⟨same.parts, same.latest, same.versions, same.manifest,
          same.published, same.publishing⟩ rfl
      · have none : part.row.replicas = [] := by
          unfold readSealedPart at read
          repeat' split at read
          all_goals cases read
          rfl
        exact .push none ⟨push.replicas, push.manifest, push.published,
          push.publishing⟩ rfl rfl rfl rfl (by simp) (by simp)
  | resumeFirst _ h =>
    exact (sameCatalog_ensureWriter h).step rfl
  | resume h =>
    exact (sameCatalog_ensureWriter h).step rfl

theorem MainStep.catalog (hand : ∀ part ∈ m.inHand, part.row.replicas = [])
    (step : MainStep C w m w' m') : CatalogStep C w m w' m' := by
  cases step with
  | aside h => exact .quiet h.sameCatalog rfl (List.Subset.refl _) (.inl rfl) Iff.rfl
  | write step => exact step.catalog hand
  | merge step => exact step.catalog
  | upkeep step => exact step.catalog
  | opening step => exact step.catalog
  | publish step => exact .publish step

/-- The records appended in the run, oldest first. -/
def history : List (Event R) → List R
  | [] => []
  | .appended r :: earlier => history earlier ++ [r]
  | _ :: earlier => history earlier

variable {trace : List (Event R)}

@[simp]
theorem mem_history {r} : r ∈ history trace ↔ .appended r ∈ trace := by
  induction trace with
  | nil => simp [history]
  | cons e earlier ih => cases e <;> simp [history, ih, or_comm]

def uploading : List (Event R) → Bool
  | [] => false
  | .uploadBegin :: _ => true
  | .uploadEnd :: _ => false
  | .stopped _ _ _ :: _ => false
  | _ :: rest => uploading rest

def collecting : List (Event R) → Bool
  | [] => false
  | .reclaimBegin _ :: _ => true
  | .reclaimEnd :: _ => false
  | .stopped _ _ _ :: _ => false
  | _ :: rest => collecting rest

/-- No upload was under way at any time that a reclaim was. -/
def Calm : List (Event R) → Prop
  | [] => True
  | e :: rest => ¬(uploading (e :: rest) = true ∧ collecting (e :: rest) = true) ∧ Calm rest

instance Calm.decidable : (trace : List (Event R)) → Decidable (Calm trace)
  | [] => .isTrue trivial
  | _ :: rest => @instDecidableAnd _ _ _ (Calm.decidable rest)

variable {old new : List (Event R)}

theorem Calm.suffix (h : Calm new) (grown : old <:+ new) : Calm old := by
  induction new with
  | nil => rwa [suffix_nil.mp grown]
  | cons e rest ih =>
    rcases suffix_cons_iff.mp grown with rfl | older
    · exact h
    · exact ih h.2 older

theorem Calm.now (h : Calm trace) : ¬(uploading trace = true ∧ collecting trace = true) := by
  cases trace with
  | nil => simp [uploading]
  | cons e rest => exact h.1

def Reached (trace : List (Event R)) : Prop :=
  ∀ e ∈ trace, ¬(e matches .unreached)

instance Reached.decidable (trace : List (Event R)) : Decidable (Reached trace) := by
  unfold Reached
  infer_instance

theorem Reached.suffix (h : Reached new) (grown : old <:+ new) : Reached old :=
  fun e mem => h e (grown.subset mem)

/-- Whenever a reclaim pass began, the newest published manifest listed the durable parts of the
manifest in memory. -/
def CurrentAtReclaim (trace : List (Event R)) : Prop :=
  ∀ e ∈ trace, ¬(e matches .reclaimBegin false)

instance CurrentAtReclaim.decidable (trace : List (Event R)) :
    Decidable (CurrentAtReclaim trace) := by
  unfold CurrentAtReclaim
  infer_instance

theorem CurrentAtReclaim.suffix (h : CurrentAtReclaim new) (grown : old <:+ new) :
    CurrentAtReclaim old := fun e mem => h e (grown.subset mem)

theorem MainStep.to_down {C} {w w' : World R} {m m'}
    (step : MainStep C w m w' m') (down : m' = .down) : m = .down ∧ w'.engine = w.engine := by
  cases step with
  | aside h =>
    refine ⟨down, ?_⟩
    cases h with
    | stutter => rfl
    | fault => rfl
  | write h => cases h <;> contradiction
  | merge h => cases h <;> contradiction
  | upkeep h => cases h <;> contradiction
  | opening h =>
    cases h with
    | loadFailed h =>
      rw [loadAndAssemble_error h]
      refine ⟨rfl, ?_⟩
      unfold World.logReach
      split <;> rfl
    | _ => contradiction
  | publish h => cases h <;> contradiction

theorem down_idle {C} {w : World R} {m} {u : UpTask}
    (h : Reachable C w m u) (down : m = .down) : u = .idle ∧ w.engine = .assemble C .empty 0 := by
  induction h with
  | initial => exact ⟨rfl, rfl⟩
  | main _ step ih =>
    obtain ⟨down, engine⟩ := step.to_down down
    exact engine ▸ ih down
  | upload _ step ih =>
    obtain ⟨rfl, engine⟩ := ih down
    cases step with
    | aside h =>
      refine ⟨rfl, ?_⟩
      cases h with
      | stutter => exact engine
      | fault => exact engine
  | receive _ queued ih =>
    rw [(ih down).2] at queued
    simp [Engine.assemble] at queued
  | rest => contradiction
  | halt => exact ⟨rfl, rfl⟩

variable {events : List (Event R)}

section Flags

variable {C : L0Config R} {w w' : World R} {m m' : MainTask R} {u u' : UpTask}

theorem flags_append (plain : ∀ e ∈ events, marks e = false) (trace : List (Event R)) :
    uploading (events ++ trace) = uploading trace ∧
      collecting (events ++ trace) = collecting trace := by
  induction events with
  | nil => exact ⟨rfl, rfl⟩
  | cons e rest ih =>
    have plainHead := plain e mem_cons_self
    have tail := ih fun x mem => plain x (.tail _ mem)
    cases e <;> first | exact tail | simp [marks] at plainHead

theorem Grows.uploading_eq (h : Grows w w') : uploading w'.trace = uploading w.trace := by
  obtain ⟨events, grown, plain⟩ := h
  exact grown ▸ (flags_append plain _).1

theorem Grows.collecting_eq (h : Grows w w') : collecting w'.trace = collecting w.trace := by
  obtain ⟨events, grown, plain⟩ := h
  exact grown ▸ (flags_append plain _).2

theorem uploading_iff (h : Reachable C w m u) : uploading w.trace = true ↔ u ≠ .idle := by
  induction h with
  | initial => simp [World.initial, uploading]
  | main _ step ih =>
    rcases step.grows with ⟨grown, _⟩ | ⟨_, grown⟩ | ⟨_, grown⟩
    · rw [grown.uploading_eq, ih]
    · rw [grown, ← ih]; rfl
    · rw [grown, ← ih]; rfl
  | upload _ step ih =>
    rcases step.grows with ⟨grown, same⟩ | ⟨rfl, grown⟩
    · rw [grown.uploading_eq, ih, not_iff_not, same]
    · simp [grown, uploading]
  | receive _ _ _ => simp [uploading]
  | rest _ _ ih => exact ih
  | halt _ _ => simp [World.halt, uploading]

theorem collecting_iff (h : Reachable C w m u) : collecting w.trace = true ↔ m.reclaims.isSome := by
  induction h with
  | initial => simp [World.initial, collecting, MainTask.reclaims]
  | main _ step ih =>
    rcases step.grows with ⟨grown, same⟩ | ⟨begins, grown⟩ | ⟨ends, grown⟩
    · rw [grown.collecting_eq, ih, same]
    · simp [grown, collecting, begins]
    · simp [grown, collecting, ends]
  | upload _ step ih =>
    rcases step.grows with ⟨grown, _⟩ | ⟨_, grown⟩
    · rw [grown.collecting_eq, ih]
    · rw [grown, ← ih]; rfl
  | receive _ _ ih => exact ih
  | rest _ rests ih =>
    rw [ih, rests.reclaims_none]
    rfl
  | halt _ _ => simp [World.halt, collecting, MainTask.reclaims]

theorem Calm.idle (calm : Calm w.trace) (h : Reachable C w m u) (reclaims : m.reclaims.isSome) :
    u = .idle := by
  by_contra busy
  exact calm.now ⟨(uploading_iff h).mpr busy, (collecting_iff h).mpr reclaims⟩

end Flags

end Ehdb.Proof
