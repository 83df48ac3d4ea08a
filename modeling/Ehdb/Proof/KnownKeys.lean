import Ehdb.Proof.Layout
import Ehdb.Proof.Planning
import Ehdb.Proof.Publish

/-! A file or an object holds records that were appended, and a row tells the key of one. `P` holds
of the records that are appended up to the end of a run. -/

namespace Ehdb.Proof

open L0 ProofKit List

variable {R : Type} {C : L0Config R} {D : Dataset R} {P : R → Prop}
  {records : List R} {bytes : Bytes} {disk : Disk}

/-- The tip is the key of a record with `P`, or there is none. -/
def Attained (D : Dataset R) (P : R → Prop) (tip : Nat) : Prop :=
  tip = 0 ∨ ∃ r, P r ∧ D.sortKey r = tip

def Logged (C : L0Config R) (P : R → Prop) (records : List R) : Prop :=
  ∀ r ∈ records, Fits C.dataset r ∧ P r

/-- The bytes are the frames of records with `P`. -/
def Told (C : L0Config R) (P : R → Prop) (bytes : Bytes) : Prop :=
  ∃ records, Logged C P records ∧ bytes = bytesOf C.dataset records

def RowsTold (C : L0Config R) (P : R → Prop) (a : Manifest) : Prop :=
  ∀ p ∈ a.parts, Attained C.dataset P p.maxSequence

def DiskTold (C : L0Config R) (P : R → Prop) (disk : Disk) : Prop :=
  ∀ path bytes, disk.lookup path = some bytes → Told C P bytes

structure ReplicaTold (C : L0Config R) (P : R → Prop) (s : Substrate) : Prop where
  parts : ∀ key bytes, s.parts.lookup key = some bytes → Told C P bytes
  latest : ∀ a, s.latest = some a → RowsTold C P a

/-- The file of a stranded part ends where its last frame does. -/
def Intact (disk : Disk) (shard : Nat) (s : Stranded) : Prop :=
  ∀ bytes, disk.lookup (.active shard s.localId) = some bytes → bytes.length ≤ s.intact

def MainTold (C : L0Config R) (P : R → Prop) (disk : Disk) : MainTask R → Prop
  | .stranding _ _ shard todo => ∀ s ∈ todo, Intact disk shard s
  | .serving sealed => ∀ part ∈ sealed, Attained C.dataset P part.row.maxSequence
  | .renamed _ writer sealed => Attained C.dataset P writer.part.maxSequence ∧
    ∀ part ∈ sealed, Attained C.dataset P part.row.maxSequence
  | .gathering merge _ => Logged C P merge.records
  | .building merge => Logged C P merge.records
  | .written _ part bytes => Attained C.dataset P part.maxSequence ∧ Told C P bytes
  | .copying _ row bytes _ _ => Attained C.dataset P row.maxSequence ∧ Told C P bytes
  | .publishing l => ∀ p, l.pub = some p → RowsTold C P p.view
  | _ => True

def UpTold (C : L0Config R) (P : R → Prop) : UpTask → Prop
  | .copying _ bytes _ _ => Told C P bytes
  | .publishing l => ∀ p, l.pub = some p → RowsTold C P p.view
  | _ => True

/-- Every key and every frame in the world comes from a record with `P`. -/
structure WorldTold (C : L0Config R) (P : R → Prop) (w : World R) (m : MainTask R)
    (u : UpTask) : Prop where
  disk : DiskTold C P w.disk
  replicas : ∀ r, ReplicaTold C P (w.replicas r)
  ram : RowsTold C P w.engine.manifest
  writers : ∀ shard writer, w.engine.writers.lookup shard = some writer →
    Attained C.dataset P writer.part.maxSequence
  main : MainTold C P w.disk m
  up : UpTold C P u

theorem Logged.attained (h : Logged C P records) :
    Attained C.dataset P (lastKey C.dataset records) := by
  cases records using reverseRecOn with
  | nil => exact .inl rfl
  | append_singleton front r =>
    refine .inr ⟨r, (h r (by simp)).2, ?_⟩
    simp [lastKey]

theorem Logged.fits (h : Logged C P records) : ∀ r ∈ records, Fits C.dataset r :=
  fun r mem => (h r mem).1

theorem Logged.append {more} (h : Logged C P records) (h' : Logged C P more) :
    Logged C P (records ++ more) := by
  intro r mem
  rcases mem_append.mp mem with old | new
  · exact h r old
  · exact h' r new

theorem DiskTold.insert {path} (h : DiskTold C P disk) (told : Told C P bytes) :
    DiskTold C P (disk.insert path bytes) := by
  intro p b found
  by_cases same : p = path
  · subst same
    rw [AList.lookup_insert] at found
    exact Option.some.inj found ▸ told
  · rw [AList.lookup_insert_ne same] at found
    exact h p b found

theorem lookup_of_erase {α β} [DecidableEq α] {l : AList fun _ : α => β} {a b v}
    (h : (l.erase a).lookup b = some v) : l.lookup b = some v := by
  by_cases same : b = a
  · subst same
    simp at h
  · rwa [AList.lookup_erase_ne same] at h

theorem DiskTold.erase {path} (h : DiskTold C P disk) :
    DiskTold C P (disk.erase path) := fun p b found => h p b (lookup_of_erase found)

variable {w w' : World R}

theorem DiskTold.rename {path target} (h : DiskTold C P w.disk) :
    DiskTold C P (w.renameFile path target).disk := by
  unfold World.renameFile
  split
  · rename_i bytes found
    exact h.erase.insert (h path bytes found)
  · exact h

theorem DiskTold.layout (h : DiskTold C P disk) (path : LocalPath) :
    ∃ records, Logged C P records ∧ (disk.lookup path).getD [] = bytesOf C.dataset records := by
  cases found : disk.lookup path with
  | none => exact ⟨[], by simp [Logged], rfl⟩
  | some bytes => exact h path bytes found

variable {writer : PartWriter R}

/-- An active file that is opened goes on from the last of its keys. -/
theorem DiskTold.openActive (lawful : C.dataset.Lawful) (h : DiskTold C P disk)
    {shard floor id disk'} (opened : openActive C disk shard floor id = .ok (writer, disk')) :
    Attained C.dataset P writer.part.maxSequence ∧ DiskTold C P disk' := by
  obtain ⟨records, logged, found⟩ := h.layout (.active shard id)
  rw [openActive_torn lawful logged.fits torn_nil (by rw [found, append_nil])] at opened
  cases opened
  refine ⟨?_, h.insert ⟨records, logged, rfl⟩⟩
  rw [partOf_maxSequence]
  exact logged.attained

theorem DiskTold.openAbove (lawful : C.dataset.Lawful) (h : DiskTold C P disk)
    {shard sealedMax disk'} (opened : openAbove C disk shard sealedMax = .ok (writer, disk')) :
    Attained C.dataset P writer.part.maxSequence ∧ DiskTold C P disk' := by
  unfold L0.openAbove at opened
  split at opened
  · cases opened
  · exact h.openActive lawful opened

variable {part : SealedPart R}

theorem Told.readSealedPart (lawful : C.dataset.Lawful) {id} (h : Told C P bytes)
    (read : readSealedPart C.platform C.dataset C.granuleSize id bytes = some part) :
    Attained C.dataset P part.row.maxSequence ∧ part.row.maxSequence = id.max := by
  obtain ⟨records, logged, rfl⟩ := h
  unfold L0.readSealedPart at read
  simp only [iterFramesFrom_bytesOf logged.fits, replayFrames_partOf lawful] at read
  split at read
  · cases read
  · split at read
    · cases read
    · split at read
      · cases read
      · rename_i named
        cases read
        have same : id.max = (partOf C.dataset C.granuleSize records).maxSequence :=
          congrArg PartId.max (not_not.1 named)
        refine ⟨?_, same.symm⟩
        show Attained C.dataset P (partOf C.dataset C.granuleSize records).maxSequence
        rw [partOf_maxSequence]
        exact logged.attained

theorem strandedLoop_intact (lawful : C.dataset.Lawful) (told : DiskTold C P disk)
    {shard floor live files}
    (here : ∀ file ∈ files, disk.lookup (.active shard file.1) = some file.2)
    {taken taken' out todo} (before : ∀ s ∈ out, Intact disk shard s)
    (h : strandedLoop C.dataset floor shard live files taken out = .ok (todo, taken')) :
    ∀ s ∈ todo, Intact disk shard s := by
  induction files generalizing taken out with
  | nil =>
    obtain ⟨rfl, rfl⟩ := Prod.mk.inj (Except.ok.inj h)
    exact before
  | cons file rest ih =>
    obtain ⟨id, bytes⟩ := file
    have next := @ih fun f mem => here f (.tail _ mem)
    have found : disk.lookup (.active shard id) = some bytes := here _ mem_cons_self
    obtain ⟨records, logged, rfl⟩ := told _ _ found
    have whole := activeRange_torn lawful logged.fits torn_nil
    rw [append_nil] at whole
    rw [strandedLoop, whole] at h
    split at h
    · exact next before h
    · split at h
      · cases h
      · exact next before h
      · rename_i range
        dsimp only at h
        split at h
        · exact next before h
        · refine next (fun s mem => ?_) h
          rcases mem_append.mp mem with old | new
          · exact before s old
          · rw [mem_singleton.mp new]
            intro bytes found'
            rw [found] at found'
            cases found'
            split at range
            · cases range
            · cases range
              exact le_rfl

variable {shard : Nat}

theorem cutFile_lookup {s} (h : Intact w.disk shard s) (path : LocalPath) :
    (w.cutFile (.active shard s.localId) s.intact).disk.lookup path = w.disk.lookup path := by
  unfold World.cutFile
  split
  · rename_i bytes found
    rw [take_of_length_le (h bytes found), World.writeFile_disk]
    by_cases same : path = .active shard s.localId
    · rw [same, AList.lookup_insert, found]
    · rw [AList.lookup_insert_ne same]
  · rfl

variable {m m' : MainTask R} {u u' : UpTask} {effect : World R → World R} {flag : Bool}

theorem WorldTold.attempt (step : Attempt effect w w' flag) (h : WorldTold C P w m u)
    (done : WorldTold C P (effect w) m u) : WorldTold C P w' m u := by
  cases step with
  | done => exact done
  | failed => exact { h with }
  | unsure => exact { done with }

section

variable (h : WorldTold C P w m u)
include h

theorem WorldTold.withReplica {id f} (told : ReplicaTold C P (f (w.replicas id))) :
    WorldTold C P (w.withReplica id f) m u := by
  refine { h with replicas := fun r => ?_ }
  rw [World.withReplica_replicas]
  split
  · rename_i same
    exact same ▸ told
  · exact h.replicas r

theorem WorldTold.putPart {replica key}
    (told : Told C P bytes) : WorldTold C P (World.putPart replica key bytes w) m u := by
  refine { h with replicas := fun r => ⟨fun k b found => ?_, fun a found => ?_⟩ }
  · rw [World.putPart, World.log_replicas, World.withReplica_replicas] at found
    split at found
    · split at found
      · exact (h.replicas r).parts k b found
      · by_cases same : k = key
        · rw [same, AList.lookup_insert] at found
          exact Option.some.inj found ▸ told
        · rw [AList.lookup_insert_ne same] at found
          exact (h.replicas r).parts k b found
    · exact (h.replicas r).parts k b found
  · rw [World.putPart, World.log_replicas, World.withReplica_replicas] at found
    split at found <;> exact (h.replicas r).latest a found

theorem WorldTold.aside (step : Aside w w') : WorldTold C P w' m u := by
  cases step with
  | stutter => exact h
  | fault => exact { h with }

theorem WorldTold.pubStep {p p'} (rows : RowsTold C P p.view) (step : PubStep C w p w' p') :
    WorldTold C P w' m u ∧ ∀ q, p' = some q → RowsTold C P q.view := by
  cases step with
  | stale _ _ => exact ⟨h, nofun⟩
  | acquire _ _ =>
    refine ⟨{ h with }, ?_⟩
    rintro q ⟨⟩
    exact rows
  | put step =>
    refine ⟨.attempt step h (h.withReplica ⟨(h.replicas _).parts, ?_⟩), ?_⟩
    · rintro a ⟨⟩
      exact rows
    · rintro q ⟨⟩
      exact rows
  | release => exact ⟨{ h with }, nofun⟩

theorem WorldTold.stageStep {l l'}
    (rows : ∀ p, l.pub = some p → RowsTold C P p.view) (step : StageStep C w l w' l') :
    WorldTold C P w' m u ∧ ∀ p, l'.pub = some p → RowsTold C P p.view := by
  rcases step.coarse with ⟨p, at_, step⟩ | ⟨beside, at_⟩
  · exact h.pubStep (rows p at_) step
  · refine ⟨⟨?_, fun r => ⟨?_, ?_⟩, ?_, ?_, ?_, h.up⟩, by rwa [at_]⟩
    · exact beside.disk ▸ h.disk
    · exact beside.parts r ▸ (h.replicas r).parts
    · exact beside.latest r ▸ (h.replicas r).latest
    · exact beside.engine ▸ h.ram
    · exact beside.engine ▸ h.writers
    · exact beside.disk ▸ h.main

end

theorem RowsTold.append {a row parts}
    (h : RowsTold C P a) (told : Attained C.dataset P row.maxSequence)
    (sub : parts ⊆ a.parts) : RowsTold C P { a with parts := parts ++ [row] } := by
  intro p mem
  rcases mem_append.mp mem with old | new
  · exact h p (sub old)
  · rw [mem_singleton.mp new]
    exact told

theorem RowsTold.durableView {a} (h : RowsTold C P a) : RowsTold C P a.durableView := by
  intro p mem
  obtain ⟨q, inDurable, rfl⟩ := mem_map.mp mem
  exact h q (mem_filter.mp inDurable).1

theorem RowsTold.holding {a} (h : RowsTold C P a) (p : Publication)
    (at_ : (PubStage.holding a).pub = some p) : RowsTold C P p.view := by
  cases at_
  exact h

theorem WorldTold.register (h : WorldTold C P w m u)
    (told : Attained C.dataset P part.row.maxSequence) :
    WorldTold C P (w.registerAndUpload part) m u := by
  unfold World.registerAndUpload
  dsimp only
  split
  · exact h
  · exact { h with ram := h.ram.append told (List.Subset.refl _) }

theorem WorldTold.setWriter (h : WorldTold C P w m u)
    (told : Attained C.dataset P writer.part.maxSequence) :
    ∀ s wr, (w.engine.writers.insert shard writer).lookup s = some wr →
      Attained C.dataset P wr.part.maxSequence := by
  intro s wr found
  by_cases same : s = shard
  · rw [same, AList.lookup_insert] at found
    exact Option.some.inj found ▸ told
  · rw [AList.lookup_insert_ne same] at found
    exact h.writers s wr found

theorem WorldTold.ensureWriter (lawful : C.dataset.Lawful)
    (h : WorldTold C P w m u) (ensured : World.ensureWriter C shard w = (.ok (), w'))
    (main : ∀ disk, MainTold C P disk m') : WorldTold C P w' m' u := by
  rcases ensureWriter_ok ensured with ⟨_, rfl⟩ | ⟨writer, disk, _, opened, rfl⟩
  · exact { h with main := main _ }
  · obtain ⟨told, disk⟩ := h.disk.openAbove lawful opened
    unfold World.installWriter
    split
    · exact { h with disk, writers := h.setWriter told, main := main _ }
    · exact { h with disk, writers := h.setWriter told, main := main _ }

theorem WorldTold.append (h : WorldTold C P w m u) {record}
    (appended : World.appendFrame C shard record w = (.ok (), w'))
    (logged : P record) (main : ∀ disk, MainTold C P disk m) : WorldTold C P w' m u := by
  obtain ⟨writer, frame, found, _, encoded, rfl⟩ := appendFrame_ok appended
  obtain ⟨fits, rfl⟩ := encodeFrame_eq_ok encoded
  obtain ⟨records, old, bytes⟩ := h.disk.layout writer.activePath
  have all : Logged C P (records ++ [record]) :=
    old.append fun r mem => by rw [mem_singleton.mp mem]; exact ⟨fits, logged⟩
  have told : Told C P ((w.disk.lookup writer.activePath).getD [] ++
      frameBytes (C.dataset.toVec record)) :=
    ⟨_, all, by rw [bytes, bytesOf_append, bytesOf_singleton]⟩
  exact { h with
    disk := h.disk.insert told
    writers := h.setWriter (.inr ⟨record, logged, rfl⟩)
    main := main _ }

theorem WorldTold.writeStep (lawful : C.dataset.Lawful) (h : WorldTold C P w m u)
    (seen : ∀ r, .appended r ∈ w'.trace → P r) (step : WriteStep C w m w' m') :
      WorldTold C P w' m' u := by
  cases step with
  | ensureWriter ensured => exact h.ensureWriter lawful ensured fun _ _ => nofun
  | dedup | mint | backfill => exact { h with }
  | append appended =>
    refine h.append appended (seen _ ?_) fun _ _ => nofun
    obtain ⟨_, _, _, _, _, rfl⟩ := appendFrame_ok appended
    exact mem_cons_self
  | rename renamed =>
    obtain ⟨found, _, rfl⟩ := renameActive_some renamed
    have told := h.writers _ _ found
    unfold World.sealFile World.renameFile
    split
    · rename_i bytes here
      exact { h with disk := h.disk.erase.insert (h.disk _ _ here), main := ⟨told, h.main⟩ }
    · exact { h with main := ⟨told, h.main⟩ }
  | reopen reopened =>
    obtain ⟨next, disk, opened, rfl⟩ := reopenActive_ok reopened
    obtain ⟨told, disk⟩ := h.disk.openActive lawful opened
    refine { h with disk, writers := h.setWriter told, main := fun part mem => ?_ }
    rcases mem_append.mp mem with old | new
    · exact h.main.2 part old
    · rw [mem_singleton.mp new]
      exact h.main.1
  | reopenFailed failed =>
    obtain ⟨_, rfl⟩ := reopenActive_error failed
    exact { h with writers := h.setWriter (.inl rfl), main := trivial }
  | @register part sealed =>
    have next := h.register (h.main part mem_cons_self)
    exact { next with main := fun p mem => h.main p (.tail _ mem) }

theorem WorldTold.mergeStep (lawful : C.dataset.Lawful) (h : WorldTold C P w m u)
    (step : MergeStep C w m w' m') : WorldTold C P w' m' u := by
  cases step with
  | plan _ => exact { h with main := trivial }
  | few _ => exact { h with main := nofun }
  | sources _ => exact { h with main := (nofun : ∀ r ∈ [], _) }
  | @read merge part todo bytes more read decoded =>
    have told : Told C P bytes := by
      cases read with
      | file _ found => exact h.disk _ _ found
      | object _ _ _ found => exact (h.replicas _).parts _ _ found
    obtain ⟨records, logged, rfl⟩ := told
    rw [decodePart_bytesOf lawful logged.fits] at decoded
    cases decoded
    exact { h with main := Logged.append h.main logged }
  | merging => exact { h with main := fun r mem => h.main r (mem_sortByKey.mp mem) }
  | @write merge part bytes _ laidOut =>
    have logged : Logged C P (compactSuperseded C.dataset merge.records) :=
      fun r mem => h.main r ((compactSuperseded_sublist _).subset mem)
    rw [layoutMerged_bytesOf logged.fits] at laidOut
    obtain ⟨rfl, rfl⟩ := Prod.mk.inj (Except.ok.inj laidOut)
    have told := logged.attained
    rw [← partOf_maxSequence (g := C.granuleSize)] at told
    exact { h with disk := h.disk.insert ⟨_, logged, rfl⟩, main := ⟨told, _, logged, rfl⟩ }
  | name named =>
    subst named
    refine ⟨h.disk.rename, ?_, ?_, ?_, h.main, h.up⟩
    · rw [World.renameFile_replicas]
      exact h.replicas
    all_goals rw [World.renameFile_engine]
    · exact h.ram
    · exact h.writers
  | put step =>
    have put := WorldTold.attempt step h (h.putPart h.main.2)
    exact { put with main := h.main }
  | @swap _ merge row bytes locations _ swapped =>
    subst swapped
    have ram : RowsTold C P
        (w.swapMerged merge.plan.sourceIds { row with replicas := locations }).engine.manifest :=
      RowsTold.append h.ram h.main.1 fun p mem => (mem_filter.mp mem).1
    exact { h with ram, main := ram.durableView.holding }

theorem WorldTold.upkeepStep (h : WorldTold C P w m u) (step : UpkeepStep C w m w' m') :
    WorldTold C P w' m' u := by
  have same (r : ReplicaId) := h.replicas r
  cases step with
  | planRetention | reclaim | prepareTail | trim => exact { h with main := trivial }
  | @drop _ plan dropped =>
    subst dropped
    have ram : RowsTold C P (w.dropRetained plan).engine.manifest :=
      fun p mem => h.ram p (mem_filter.mp mem).1
    exact { h with ram, main := ram.durableView.holding }
  | deletePart _ step =>
    exact .attempt step h (h.withReplica ⟨fun key bytes found => (same _).parts key bytes
      (lookup_of_erase found), (same _).latest⟩)
  | deleteFile _ => exact { h with disk := h.disk.erase, main := trivial }
  | reclaimEnd => exact { h with main := fun _ => nofun }
  | putTail _ step => exact .attempt step h (h.withReplica ⟨(same _).parts, (same _).latest⟩)
  | commitTail _ => exact { h with }
  | deleteTail _ step => exact .attempt step h (h.withReplica ⟨(same _).parts, (same _).latest⟩)

theorem WorldTold.loaded {cold} (h : WorldTold C P w m u) (loaded : Loaded C w cold w') :
    WorldTold C P w' (.loaded cold) u := by
  cases loaded with
  | none _ _ => exact { h with ram := fun _ => nofun, writers := nofun, main := trivial }
  | @some a newest =>
    obtain ⟨r, _, found⟩ := (newestLatest_some newest).present
    have rows := (h.replicas r).latest a found
    cases cold with
    | false | true => exact { h with ram := rows, writers := nofun, main := trivial }

section

variable (lawful : C.dataset.Lawful) (h : WorldTold C P w m u)
include lawful h

theorem WorldTold.adopt {coverage known id} :
    WorldTold C P (w.adoptFile C coverage known id) m u := by
  unfold World.adoptFile
  split
  · exact h
  · split
    · exact h
    · rename_i part read
      obtain ⟨bytes, found, read⟩ := Option.bind_eq_some_iff.mp read
      have counted : WorldTold C P
          (w.withEngine fun e => e.countRecovered C id.partition id.max part.records) m u :=
        { h with }
      exact counted.register ((h.disk _ _ found).readSealedPart lawful read).1

theorem WorldTold.openStep
    (reached : Reached w'.trace) (step : OpenStep C w m w' m') : WorldTold C P w' m' u := by
  cases step with
  | load loaded => exact h.loaded (loadAndAssemble_reached loaded reached)
  | loadFailed failed =>
    rw [loadAndAssemble_error failed]
    unfold World.logReach
    split
    · exact h
    · exact { h with }
  | survey => exact { h with main := fun _ => nofun }
  | strand found =>
    refine { h with main := ?_ }
    unfold strandedIn at found
    simp only [bind, Except.bind] at found
    split at found
    · contradiction
    split at found
    · contradiction
    refine strandedLoop_intact lawful h.disk ?_ (by simp) found
    rintro ⟨id, bytes⟩ mem
    exact mem_activeFiles.1 (mem_sortByKey.mp mem)
  | @cut floor ranges shard s todo =>
    have same := cutFile_lookup (h.main s mem_cons_self)
    have disk : DiskTold C P (w.cutFile (.active shard s.localId) s.intact).disk :=
      fun path bytes found => h.disk path bytes (same path ▸ found)
    have main : ∀ t ∈ s :: todo,
        Intact (w.cutFile (.active shard s.localId) s.intact).disk shard t :=
      fun t mem bytes found => h.main t mem bytes (same _ ▸ found)
    have rest : (w.cutFile (.active shard s.localId) s.intact).replicas = w.replicas ∧
        (w.cutFile (.active shard s.localId) s.intact).engine = w.engine := by
      unfold World.cutFile
      split <;> exact ⟨rfl, rfl⟩
    exact ⟨disk, rest.1 ▸ h.replicas, rest.2 ▸ h.ram, rest.2 ▸ h.writers, main, h.up⟩
  | @sealStranded floor ranges shard s todo _ =>
    refine ⟨h.disk.rename, ?_, ?_, ?_, fun t mem bytes found => ?_, h.up⟩
    · simpa [World.sealFile] using h.replicas
    · simpa [World.sealFile] using h.ram
    · simpa [World.sealFile] using h.writers
    · refine h.main t (.tail _ mem) bytes ?_
      -- a file that was renamed is not there any more
      simp only [World.sealFile, World.log_disk] at found
      unfold World.renameFile at found
      split at found
      · rw [AList.lookup_insert_ne (by simp)] at found
        exact lookup_of_erase found
      · exact found
  | surveyFiles => exact { h with main := trivial }
  | adopt => exact { h.adopt lawful with main := trivial }
  | resumeFirst _ ensured => exact h.ensureWriter lawful ensured fun _ => trivial
  | resume ensured => exact h.ensureWriter lawful ensured fun _ => trivial

theorem WorldTold.mainStep
    (reached : Reached w'.trace) (seen : ∀ r, .appended r ∈ w'.trace → P r)
    (step : MainStep C w m w' m') :
    WorldTold C P w' m' u := by
  cases step with
  | aside step => exact h.aside step
  | write step => exact h.writeStep lawful seen step
  | merge step => exact h.mergeStep lawful step
  | upkeep step => exact h.upkeepStep step
  | opening step => exact h.openStep lawful reached step
  | publish step =>
    obtain ⟨next, rows⟩ := h.stageStep h.main step
    exact { next with main := rows }

end

theorem WorldTold.upStep (h : WorldTold C P w m u) (step : UpStep C w u w' u') :
    WorldTold C P w' m u' := by
  cases step with
  | aside step => exact h.aside step
  | read read =>
    refine { h with up := ?_ }
    generalize job_source : UploadJob.source _ = source at read
    cases read with
    | file found => exact h.disk _ _ found
    | object _ found => exact (h.replicas _).parts _ _ found
  | missing _ _ => exact { h with up := nofun }
  | unread | lost | close => exact { h with up := trivial }
  | put step =>
    have put := WorldTold.attempt step h (h.putPart h.up)
    exact { put with up := h.up }
  | @record job bytes locations _ =>
    have ram : RowsTold C P (w.recordReplicas job.partId locations).engine.manifest := by
      intro p mem
      rcases mem_setReplicas mem with old | ⟨q, inParts, -, rfl⟩
      · exact h.ram p old
      · exact h.ram q inParts
    exact { h with ram, up := ram.durableView.holding }
  | publish step =>
    obtain ⟨next, rows⟩ := h.stageStep h.up step
    exact { next with up := rows }

theorem worldTold (lawful : C.dataset.Lawful) (h : Reachable C w m u) (reached : Reached w.trace)
    (seen : ∀ r, .appended r ∈ w.trace → P r) : WorldTold C P w m u := by
  induction h with
  | initial =>
    exact ⟨nofun, fun _ => ⟨nofun, nofun⟩, nofun, nofun, trivial, trivial⟩
  | main _ step ih =>
    exact (ih (Reached.suffix reached step.trace)
      fun r mem => seen r (step.trace.subset mem)).mainStep lawful reached seen step
  | upload _ step ih =>
    exact (ih (Reached.suffix reached step.trace) fun r mem =>
      seen r (step.trace.subset mem)).upStep
      step
  | receive _ _ ih =>
    exact { ih (Reached.suffix reached (suffix_cons _ _)) fun r mem =>
      seen r (.tail _ mem) with up := trivial }
  | rest _ rests ih =>
    cases rests <;> exact { ih reached seen with main := fun _ => nofun }
  | @halt w m u loseDisk _ ih =>
    have before := ih (Reached.suffix reached (suffix_cons _ _)) fun r mem =>
      seen r (.tail _ mem)
    refine ⟨?_, before.replicas, nofun, nofun, trivial, trivial⟩
    cases loseDisk with
    | true => exact nofun
    | false => exact before.disk

end Ehdb.Proof
