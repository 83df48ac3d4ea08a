import Ehdb.Proof.Programs

/-! The history only grows; most steps leave the catalog alone, that is the manifest in memory, the
publication state, the part objects and the `LATEST` copies. -/

namespace Ehdb.Proof

open L0 ProofKit List

variable {R : Type} {C : L0Config R} {w w' : World R} {m m' : MainTask R} {u u' : UpTask}

/-- Neither the stored objects nor the catalog of the engine change. -/
structure SameCatalog (w w' : World R) : Prop where
  parts : ∀ r, (w'.replicas r).parts = (w.replicas r).parts
  latest : ∀ r, (w'.replicas r).latest = (w.replicas r).latest
  versions : ∀ r, (w'.replicas r).versions = (w.replicas r).versions
  manifest : w'.engine.manifest = w.engine.manifest
  published : w'.engine.published = w.engine.published
  publishing : w'.engine.publishing = w.engine.publishing

theorem SameCatalog.refl (w : World R) : SameCatalog w w :=
  ⟨fun _ => rfl, fun _ => rfl, fun _ => rfl, rfl, rfl, rfl⟩

theorem SameCatalog.of_replicas (replicas : w'.replicas = w.replicas)
    (manifest : w'.engine.manifest = w.engine.manifest)
    (published : w'.engine.published = w.engine.published)
    (publishing : w'.engine.publishing = w.engine.publishing) : SameCatalog w w' :=
  ⟨fun _ => by rw [replicas], fun _ => by rw [replicas], fun _ => by rw [replicas], manifest,
    published, publishing⟩

theorem SameCatalog.of_engine (replicas : w'.replicas = w.replicas)
    (engine : w'.engine = w.engine) : SameCatalog w w' :=
  .of_replicas replicas (by rw [engine]) (by rw [engine]) (by rw [engine])

theorem SameCatalog.log (h : SameCatalog w w') (e : Event R) : SameCatalog w (w'.log e) :=
  ⟨h.parts, h.latest, h.versions, h.manifest, h.published, h.publishing⟩

theorem withReplica_field {α} (field : Substrate → α) (id : ReplicaId)
    (f : Substrate → Substrate) (same : ∀ s, field (f s) = field s) (w : World R) (r : ReplicaId) :
    field ((w.withReplica id f).replicas r) = field (w.replicas r) := by
  rw [World.withReplica_replicas]
  split
  · exact same _
  · rfl

variable {effect : World R → World R} {flag : Bool}

theorem Attempt.sameCatalog (quiet : SameCatalog w (effect w)) (h : Attempt effect w w' flag) :
    SameCatalog w w' := by
  cases h with
  | done => exact quiet
  | failed => exact (SameCatalog.refl w).log _
  | unsure => exact quiet.log _

theorem Aside.sameCatalog (h : Aside w w') : SameCatalog w w' := by
  cases h with
  | stutter => exact .refl w
  | fault => exact (SameCatalog.refl w).log _

variable {replica : ReplicaId} {key : TailKey}

theorem sameCatalog_tails (f : AList (fun _ : TailKey => Bytes) → AList fun _ : TailKey => Bytes)
    (w : World R) :
    SameCatalog w (w.withReplica replica fun s => { s with tails := f s.tails }) := by
  let g : Substrate → Substrate := fun s => { s with tails := f s.tails }
  exact ⟨withReplica_field (·.parts) replica g (fun _ => rfl) w,
    withReplica_field (·.latest) replica g (fun _ => rfl) w,
    withReplica_field (·.versions) replica g (fun _ => rfl) w, rfl, rfl, rfl⟩

theorem sameCatalog_deleteTail (h : Attempt (World.deleteTail replica key) w w' flag) :
    SameCatalog w w' := h.sameCatalog (sameCatalog_tails (fun tails => tails.erase key) w)

variable {shard : Nat}

theorem sameCatalog_ensureWriter (h : World.ensureWriter C shard w = (.ok (), w')) :
    SameCatalog w w' := by
  rcases ensureWriter_ok h with ⟨_, rfl⟩ | ⟨writer, disk, _, _, rfl⟩
  · exact .refl _
  · refine .of_replicas rfl ?_ ?_ ?_ <;> (unfold World.installWriter; split <;> rfl)

variable {writer : PartWriter R}

theorem sameCatalog_reopenActive {r}
    (h : World.reopenActive C shard writer w = (r, w')) : SameCatalog w w' := by
  cases r with
  | ok _ =>
    obtain ⟨next, disk, _, rfl⟩ := reopenActive_ok h
    exact .of_replicas rfl rfl rfl rfl
  | error e =>
    obtain ⟨_, rfl⟩ := reopenActive_error h
    exact .of_replicas rfl rfl rfl rfl

theorem sweepStage_pub (todo : List ReplicaId) : (sweepStage todo).pub = none := by
  cases todo <;> rfl

theorem deleteStage_pub (replica : ReplicaId) (todo : List ReplicaId) (doomed : List Nat) :
    (deleteStage replica todo doomed).pub = none := by
  cases doomed with
  | nil => exact sweepStage_pub todo
  | cons _ _ => rfl

theorem evictStage_pub (C : L0Config R) (version : Nat) (todo : List ReplicaId) :
    (evictStage C version todo).pub = none := by
  unfold evictStage
  split
  · rfl
  · exact sweepStage_pub _

variable {req : Request}

theorem Asks.attempt (h : Asks replica req effect w w') : ∃ flag, Attempt effect w w' flag := by
  cases h with
  | done => exact ⟨_, .done⟩
  | failed => exact ⟨_, .failed⟩
  | unsure => exact ⟨_, .unsure⟩

/-- Nothing but versioned snapshots is changed. -/
structure Beside (w w' : World R) : Prop where
  parts : ∀ r, (w'.replicas r).parts = (w.replicas r).parts
  latest : ∀ r, (w'.replicas r).latest = (w.replicas r).latest
  tails : ∀ r, (w'.replicas r).tails = (w.replicas r).tails
  disk : w'.disk = w.disk
  engine : w'.engine = w.engine
  trace : w'.trace = w.trace ∨ ∃ replica request, w'.trace = .fault replica request :: w.trace

theorem Beside.refl (w : World R) : Beside w w :=
  ⟨fun _ => rfl, fun _ => rfl, fun _ => rfl, rfl, rfl, .inl rfl⟩

theorem Asks.beside {f : AList (fun _ : Nat => Manifest) → AList fun _ : Nat => Manifest}
    (h : Asks replica req effect w w')
    (is : effect w = w.withReplica replica fun s => { s with versions := f s.versions }) :
    Beside w w' := by
  let g : Substrate → Substrate := fun s => { s with versions := f s.versions }
  have parts := withReplica_field (·.parts) replica g (fun _ => rfl) w
  have latest := withReplica_field (·.latest) replica g (fun _ => rfl) w
  have tails := withReplica_field (·.tails) replica g (fun _ => rfl) w
  cases h with
  | done =>
    rw [is]
    exact ⟨parts, latest, tails, rfl, rfl, .inl rfl⟩
  | failed => exact ⟨fun _ => rfl, fun _ => rfl, fun _ => rfl, rfl, rfl, .inr ⟨_, _, rfl⟩⟩
  | unsure =>
    rw [is]
    exact ⟨parts, latest, tails, rfl, rfl, .inr ⟨_, _, rfl⟩⟩

theorem SnapshotStep.beside {l l'} (h : SnapshotStep C w l w' l') :
    Beside w w' ∧ l'.pub = l.pub := by
  cases h with
  | @putVersion _ view _ _ asked =>
    exact ⟨asked.beside (f := fun vs =>
      if (vs.lookup view.version).isSome then vs else vs.insert view.version view) rfl, rfl⟩
  | evict _ asked => exact ⟨asked.beside (f := fun vs => vs.erase _) rfl, evictStage_pub _ _ _⟩
  | list => exact ⟨.refl _, deleteStage_pub _ _ _⟩
  | unlisted =>
    exact ⟨⟨fun _ => rfl, fun _ => rfl, fun _ => rfl, rfl, rfl, .inr ⟨_, _, rfl⟩⟩, sweepStage_pub _⟩
  | delete asked => exact ⟨asked.beside (f := fun vs => vs.erase _) rfl, deleteStage_pub _ _ _⟩

/-- A stage goes on as the publication it is in does, or touches snapshots only. -/
theorem StageStep.coarse {l l'} (h : StageStep C w l w' l') :
    (∃ p, l.pub = some p ∧ PubStep C w p w' l'.pub) ∨ (Beside w w' ∧ l'.pub = l.pub) := by
  cases h with
  | stale unlocked old => exact .inl ⟨_, rfl, .stale unlocked old⟩
  | acquire unlocked newer => exact .inl ⟨_, rfl, .acquire unlocked newer⟩
  | putLatest asked =>
    obtain ⟨flag, attempt⟩ := asked.attempt
    exact .inl ⟨_, rfl, .put attempt⟩
  | release => exact .inl ⟨_, rfl, evictStage_pub C _ _ ▸ .release⟩
  | snapshot step => exact .inr step.beside

def marks : Event R → Bool
  | .uploadBegin | .uploadEnd | .reclaimBegin _ | .reclaimEnd | .stopped _ _ _ => true
  | _ => false

/-- The step adds to the trace, but no mark of an upload, a reclaim or a stop. -/
def Grows (w w' : World R) : Prop :=
  ∃ events, w'.trace = events ++ w.trace ∧ ∀ e ∈ events, marks e = false

theorem Grows.same (h : w'.trace = w.trace) : Grows w w' := ⟨[], h, by simp⟩

variable {e : Event R}

theorem Grows.one (h : w'.trace = e :: w.trace) (plain : marks e = false) : Grows w w' :=
  ⟨[e], h, by simpa using plain⟩

theorem Grows.log (h : Grows w w') (plain : marks e = false) : Grows w (w'.log e) := by
  obtain ⟨events, grown, all⟩ := h
  refine ⟨e :: events, by simp [grown], ?_⟩
  intro x mem
  rcases mem_cons.mp mem with rfl | old
  · exact plain
  · exact all x old

theorem Grows.suffix (h : Grows w w') : w.trace <:+ w'.trace := by
  obtain ⟨events, grown, _⟩ := h
  exact ⟨events, grown.symm⟩

theorem Attempt.grows (quiet : Grows w (effect w)) (h : Attempt effect w w' flag) : Grows w w' := by
  cases h with
  | done => exact quiet
  | failed => exact .one rfl rfl
  | unsure => exact quiet.log rfl

theorem Aside.grows (h : Aside w w') : Grows w w' := by
  cases h with
  | stutter => exact .same rfl
  | fault => exact .one rfl rfl

theorem PubStep.grows {p p'} (h : PubStep C w p w' p') : Grows w w' := by
  cases h with
  | stale | acquire | release => exact .same rfl
  | put h => exact h.grows (.same rfl)

theorem Beside.grows (h : Beside w w') : Grows w w' := by
  rcases h.trace with same | ⟨_, _, logged⟩
  · exact .same same
  · exact .one logged rfl

theorem StageStep.grows {l l'} (h : StageStep C w l w' l') : Grows w w' := by
  rcases h.coarse with ⟨_, _, step⟩ | ⟨beside, _⟩
  · exact step.grows
  · exact beside.grows

theorem ensureWriter_trace (h : World.ensureWriter C shard w = (.ok (), w')) :
    w'.trace = w.trace := by
  rcases ensureWriter_ok h with ⟨_, rfl⟩ | ⟨writer, disk, _, _, rfl⟩ <;> rfl

@[simp]
theorem registerAndUpload_trace (part : SealedPart R) (w : World R) :
    (w.registerAndUpload part).trace = w.trace := by
  unfold World.registerAndUpload
  dsimp only
  split <;> rfl

@[simp]
theorem sealFile_trace (w : World R) (path : LocalPath) (id : PartId) :
    (w.sealFile path id).trace = .sealed id :: w.trace := by
  simp [World.sealFile]

@[simp]
theorem adoptFile_trace (coverage : Coverage) (known : List PartId) (id : PartId) (w : World R) :
    (w.adoptFile C coverage known id).trace = w.trace := by
  unfold World.adoptFile
  split
  · rfl
  · split
    · rfl
    · exact registerAndUpload_trace ..

@[simp]
theorem cutFile_trace (path : LocalPath) (len : Nat) (w : World R) :
    (w.cutFile path len).trace = w.trace := by
  unfold World.cutFile
  split <;> rfl

theorem WriteStep.grows (h : WriteStep C w m w' m') : Grows w w' := by
  cases h with
  | ensureWriter h => exact .same (ensureWriter_trace h)
  | dedup => exact .one rfl rfl
  | mint => exact .one rfl rfl
  | append h =>
    obtain ⟨writer, frame, _, _, _, rfl⟩ := appendFrame_ok h
    exact .one rfl rfl
  | rename h =>
    obtain ⟨_, _, rfl⟩ := renameActive_some h
    exact .one (sealFile_trace _ _ _) rfl
  | reopen h =>
    obtain ⟨next, disk, _, rfl⟩ := reopenActive_ok h
    exact .same rfl
  | reopenFailed h =>
    obtain ⟨_, rfl⟩ := reopenActive_error h
    exact .same rfl
  | register => exact .same (registerAndUpload_trace _ _)
  | backfill => exact .same rfl

theorem MergeStep.grows (h : MergeStep C w m w' m') : Grows w w' := by
  cases h with
  | plan | few | sources | read | write => exact .same rfl
  | merging => exact .one rfl rfl
  | name _ => exact .same (World.renameFile_trace _ _ _)
  | put h => exact h.grows (.one rfl rfl)
  | swap _ h => exact .same (h ▸ rfl)

theorem logReach_grows (reach : ReplicaId → Reach) (w : World R) :
    Grows w (w.logReach C reach) := by
  unfold World.logReach
  split
  · exact .same rfl
  · exact .one rfl rfl

theorem OpenStep.grows (h : OpenStep C w m w' m') : Grows w w' := by
  cases h with
  | @load _ reach cold _ h =>
    have grown := logReach_grows (C := C) reach w
    rcases loadAndAssemble_ok h with ⟨_, _, rfl⟩ | ⟨found, _, _, rfl⟩
    · exact grown
    · cases cold with
      | false => exact grown
      | true => exact grown.log rfl
  | loadFailed h => rw [loadAndAssemble_error h]; exact logReach_grows _ _
  | survey | strand | surveyFiles => exact .same rfl
  | cut => exact .same (cutFile_trace _ _ _)
  | sealStranded _ => exact .one (sealFile_trace _ _ _) rfl
  | adopt => exact .same (adoptFile_trace _ _ _ _)
  | resumeFirst _ h => exact .same (ensureWriter_trace h)
  | resume h => exact .same (ensureWriter_trace h)

theorem UpkeepStep.grows (h : UpkeepStep C w m w' m') : (Grows w w' ∧ m'.reclaims = m.reclaims) ∨
      (m'.reclaims.isSome ∧ w'.trace = .reclaimBegin (w.latestIsCurrent C) :: w.trace) ∨
      (m'.reclaims = none ∧ w'.trace = .reclaimEnd :: w.trace) := by
  cases h with
  | planRetention | prepareTail | commitTail | trim | deleteFile => exact .inl ⟨.same rfl, rfl⟩
  | drop h =>
    subst h
    exact .inl ⟨.one rfl rfl, rfl⟩
  | deletePart _ h => exact .inl ⟨h.grows (.same rfl), rfl⟩
  | putTail _ h => exact .inl ⟨h.grows (.same rfl), rfl⟩
  | deleteTail _ h => exact .inl ⟨h.grows (.same rfl), rfl⟩
  | reclaim => exact .inr (.inl ⟨rfl, rfl⟩)
  | reclaimEnd => exact .inr (.inr ⟨rfl, rfl⟩)

theorem MainStep.grows (h : MainStep C w m w' m') : (Grows w w' ∧ m'.reclaims = m.reclaims) ∨
      (m'.reclaims.isSome ∧ w'.trace = .reclaimBegin (w.latestIsCurrent C) :: w.trace) ∨
      (m'.reclaims = none ∧ w'.trace = .reclaimEnd :: w.trace) := by
  cases h with
  | aside h => exact .inl ⟨h.grows, rfl⟩
  | write h => exact .inl ⟨h.grows, by cases h <;> rfl⟩
  | merge h => exact .inl ⟨h.grows, by cases h <;> rfl⟩
  | upkeep h => exact h.grows
  | opening h => exact .inl ⟨h.grows, by cases h <;> rfl⟩
  | publish h => exact .inl ⟨h.grows, rfl⟩

theorem UpStep.grows (h : UpStep C w u w' u') :
    (Grows w w' ∧ (u' = .idle ↔ u = .idle)) ∨ (u' = .idle ∧ w'.trace = .uploadEnd :: w.trace) := by
  cases h with
  | aside h => exact .inl ⟨h.grows, Iff.rfl⟩
  | read | missing | record => exact .inl ⟨.same rfl, by simp⟩
  | put h => exact .inl ⟨h.grows (.one rfl rfl), by simp⟩
  | publish h => exact .inl ⟨h.grows, by simp⟩
  | unread | lost | close => exact .inr ⟨rfl, rfl⟩

theorem MainStep.trace (h : MainStep C w m w' m') : w.trace <:+ w'.trace := by
  rcases h.grows with ⟨grown, _⟩ | ⟨_, grown⟩ | ⟨_, grown⟩
  · exact grown.suffix
  · exact grown ▸ suffix_cons _ _
  · exact grown ▸ suffix_cons _ _

theorem UpStep.trace (h : UpStep C w u w' u') : w.trace <:+ w'.trace := by
  rcases h.grows with ⟨grown, _⟩ | ⟨_, grown⟩
  · exact grown.suffix
  · exact grown ▸ suffix_cons _ _

end Ehdb.Proof
