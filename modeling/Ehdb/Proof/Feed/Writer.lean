import Ehdb.Feed.Writer

/-! A frame that is synced or owed a sync stays so until the debt is taken: an append raises the
debt, and a seal syncs the file before it goes. -/

namespace Ehdb.Proof.Writer

open Feed ProofKit List
open L0 (World PartWriter LocalPath L0Config)
open WriterWorld (appendFrame owesSync sealSynced takeFrom)

variable {R : Type} {C : L0Config R} {w w' w'' : WriterWorld R}

/-- Frames stay where they are and as they are, or become synced. -/
def Grows (w w' : WriterWorld R) : Prop :=
  ∀ (n : Nat) (f : StoredFrame R), w.frames[n]? = some f →
    w'.frames[n]? = some f ∨ w'.frames[n]? = some { f with synced := true }

/-- No frame that is synced, or owed a sync, is lost. -/
def Kept (w w' : WriterWorld R) : Prop :=
  ∀ (n : Nat) (f : StoredFrame R), w.frames[n]? = some f → f.synced = true ∨ w.owesSync f = true →
    ∃ f', w'.frames[n]? = some f' ∧ f'.record = f.record ∧
      (f'.synced = true ∨ w'.owesSync f' = true)

def Elsewhere (shard : Nat) (w w' : WriterWorld R) : Prop :=
  ∀ s, s ≠ shard → w'.l0.engine.writers.lookup s = w.l0.engine.writers.lookup s ∧
    w'.debts s = w.debts s

theorem Grows.of_eq (same : w'.frames = w.frames) : Grows w w' := by
  intro n f found
  exact .inl (same ▸ found)

theorem Grows.of_append {fs} (longer : w'.frames = w.frames ++ fs) : Grows w w' := by
  intro n f found
  refine .inl ?_
  rw [longer, List.getElem?_append_left (List.getElem?_eq_some_iff.1 found).1]
  exact found

theorem Grows.trans (first : Grows w w') (second : Grows w' w'') : Grows w w'' := by
  intro n f found
  rcases first n f found with same | synced
  · exact second n f same
  · exact .inr ((second n _ synced).elim id id)

variable {f : StoredFrame R}

theorem sync_frame (w : WriterWorld R) (file : LocalPath) (count : Nat) {n}
    (found : w.frames[n]? = some f) : (w.sync file count).frames[n]? =
      some (if n < count ∧ f.file = file then { f with synced := true } else f) := by
  simp [WriterWorld.sync, found]

theorem Grows.of_sync (w : WriterWorld R) (file : LocalPath) (count : Nat) :
    Grows w (w.sync file count) := by
  intro n f found
  rw [sync_frame w file count found]
  split
  · exact .inr rfl
  · exact .inl rfl

theorem Kept.refl (w : WriterWorld R) : Kept w w := fun _ f found safe => ⟨f, found, rfl, safe⟩

theorem Kept.trans (first : Kept w w') (second : Kept w' w'') : Kept w w'' := by
  intro n f found safe
  obtain ⟨f', found', same, safe'⟩ := first n f found safe
  obtain ⟨f'', found'', same', safe''⟩ := second n f' found' safe'
  exact ⟨f'', found'', same'.trans same, safe''⟩

theorem owesSync_congr
    (writer : w'.l0.engine.writers.lookup f.shard = w.l0.engine.writers.lookup f.shard)
    (debt : w'.debts f.shard = w.debts f.shard) : w'.owesSync f = w.owesSync f := by
  simp only [owesSync, writer, debt]

theorem owesSync_iff :
    w.owesSync f = true ↔ ∃ writer, w.l0.engine.writers.lookup f.shard = some writer ∧
      writer.hasFile = true ∧ writer.activePath = f.file ∧ w.debts f.shard ≠ 0 := by
  unfold owesSync
  split
  · rename_i writer found
    simp [found, and_assoc]
  · rename_i absent
    simp [absent]

variable {shard : Nat}

theorem Kept.of_elsewhere (grows : Grows w w') (elsewhere : Elsewhere shard w w')
    (here : ∀ (n : Nat) (f : StoredFrame R), w.frames[n]? = some f → f.shard = shard →
      w.owesSync f = true → ∃ f', w'.frames[n]? = some f' ∧ f'.record = f.record ∧
      (f'.synced = true ∨ w'.owesSync f' = true)) : Kept w w' := by
  intro n f found safe
  by_cases same : f.shard = shard ∧ w.owesSync f = true
  · exact here n f found same.1 same.2
  · rcases grows n f found with found' | found'
    · refine ⟨f, found', rfl, safe.imp id fun owed => ?_⟩
      obtain ⟨writer, debt⟩ := elsewhere f.shard fun eq => same ⟨eq, owed⟩
      rw [owesSync_congr writer debt]
      exact owed
    · exact ⟨_, found', rfl, .inl rfl⟩

theorem elsewhere_setWriter (shard : Nat) (writer : PartWriter R) (w : WriterWorld R) :
    Elsewhere shard w (w.setWriter shard writer) :=
  fun _ other => ⟨AList.lookup_insert_ne other, rfl⟩

theorem Elsewhere.owe {debt} (h : Elsewhere shard w w') : Elsewhere shard w (w'.owe shard debt) :=
  fun s other => ⟨(h s other).1, (if_neg other).trans (h s other).2⟩

theorem Elsewhere.trans (first : Elsewhere shard w w') (second : Elsewhere shard w' w'') :
    Elsewhere shard w w'' :=
  fun s other => ⟨(second s other).1.trans (first s other).1,
    (second s other).2.trans (first s other).2⟩

structure Unsealed (shard : Nat) (w w' : WriterWorld R) : Prop where
  frames : w'.frames = w.frames
  trace : w'.trace = w.trace
  engineLock : w'.engineLock = w.engineLock
  elsewhere : Elsewhere shard w w'

variable {s : Nat}

theorem reopenActive_writers (C : L0Config R) (shard : Nat) (writer : PartWriter R) (w : World R)
    (other : s ≠ shard) :
    (World.reopenActive C shard writer w).2.engine.writers.lookup s =
      w.engine.writers.lookup s := by
  unfold World.reopenActive
  split <;> exact AList.lookup_insert_ne other

theorem sealSynced_unsealed (C : L0Config R) (o : SealOutcome) (shard : Nat)
    (writer : PartWriter R) (w : WriterWorld R) :
    Unsealed shard w (sealSynced C o shard writer w).2 := by
  have renamed : Elsewhere shard w
      { w with l0 := w.l0.sealFile writer.activePath writer.sealedId } :=
    fun s _ => ⟨by simp [World.sealFile], rfl⟩
  unfold sealSynced
  dsimp only
  split
  · exact ⟨rfl, rfl, rfl, elsewhere_setWriter shard _ w⟩
  · exact ⟨rfl, rfl, rfl, elsewhere_setWriter shard _ w⟩
  · exact ⟨rfl, rfl, rfl, renamed.trans (elsewhere_setWriter shard _ _)⟩
  · exact ⟨rfl, rfl, rfl, (renamed.trans (elsewhere_setWriter shard _ _)).owe⟩
  all_goals
    have reopened {s : Nat} (other : s ≠ shard) := reopenActive_writers C shard writer
      (w.l0.sealFile writer.activePath writer.sealedId) other
    split
    · rename_i e l0 eq
      rw [eq] at reopened
      exact ⟨rfl, rfl, rfl, Elsewhere.owe fun s other =>
        ⟨(reopened other).trans (renamed s other).1, rfl⟩⟩
    · rename_i l0 eq
      rw [eq] at reopened
      refine ⟨rfl, rfl, rfl, Elsewhere.owe fun s other => ⟨?_, rfl⟩⟩
      exact (reopened other).trans (renamed s other).1

/-- What every step of a commit does for the others. -/
structure Advances (w w' : WriterWorld R) : Prop where
  grows : Grows w w'
  engineLock : w'.engineLock = w.engineLock
  trace : ∀ e ∈ w.trace, e ∈ w'.trace

theorem Advances.refl (w : WriterWorld R) : Advances w w := ⟨.of_eq rfl, rfl, fun _ mem => mem⟩

theorem Advances.trans (first : Advances w w') (second : Advances w' w'') : Advances w w'' :=
  ⟨first.grows.trans second.grows, second.engineLock.trans first.engineLock,
    fun e mem => second.trace e (first.trace e mem)⟩

theorem Unsealed.advances (h : Unsealed shard w w') : Advances w w' :=
  ⟨.of_eq h.frames, h.engineLock, fun _ mem => h.trace ▸ mem⟩

theorem sealPart_keeps (C : L0Config R) (o : SealOutcome) (shard : Nat) (w : WriterWorld R) :
    Advances w (w.sealPart C o shard).2 ∧ Kept w (w.sealPart C o shard).2 := by
  unfold WriterWorld.sealPart
  split
  · exact ⟨.refl w, .refl w⟩
  · rename_i writer found
    split
    · exact ⟨.refl w, .refl w⟩
    · split
      · split
        · exact ⟨.refl w, .refl w⟩
        · have rest := sealSynced_unsealed C o shard writer
            (w.sync writer.activePath w.frames.length)
          have synced : Advances w (w.sync writer.activePath w.frames.length) :=
            ⟨.of_sync w _ _, rfl, fun _ mem => mem⟩
          refine ⟨synced.trans rest.advances, ?_⟩
          refine Kept.of_elsewhere (synced.trans rest.advances).grows
            (fun s other => rest.elsewhere s other) ?_
          intro n f at_n same owed
          obtain ⟨writer', found', -, file, -⟩ := owesSync_iff.1 owed
          rw [same, found] at found'
          cases found'
          refine ⟨{ f with synced := true }, ?_, rfl, .inl rfl⟩
          rw [rest.frames, sync_frame w _ _ at_n,
            if_pos ⟨(List.getElem?_eq_some_iff.1 at_n).1, file.symm⟩]
      · rename_i noFile
        have rest := sealSynced_unsealed C o shard writer w
        refine ⟨rest.advances, .of_elsewhere rest.advances.grows rest.elsewhere ?_⟩
        intro n f at_n same owed
        obtain ⟨writer', found', hasFile, -⟩ := owesSync_iff.1 owed
        rw [same, found] at found'
        cases found'
        exact absurd hasFile noFile

theorem sealIfFull_keeps (C : L0Config R) (o : IoOutcome) (shard : Nat) (w : WriterWorld R) :
    Advances w (w.sealIfFull C o shard) ∧ Kept w (w.sealIfFull C o shard) := by
  unfold WriterWorld.sealIfFull
  split
  · split
    · exact sealPart_keeps C o.sealing shard w
    · exact ⟨.refl w, .refl w⟩
  · exact ⟨.refl w, .refl w⟩

variable {o : IoOutcome}

theorem ensureWriter_keeps {result} (h : w.ensureWriter C o shard = (result, w')) :
    Advances w w' ∧ Kept w w' := by
  unfold WriterWorld.ensureWriter at h
  split at h
  · cases h
    exact ⟨.refl w, .refl w⟩
  · rename_i absent
    split at h
    · split at h
      · cases h
        exact ⟨.refl w, .refl w⟩
      · rename_i l0 ensured
        obtain ⟨writer, disk, none, -, rfl⟩ :=
          (L0.ensureWriter_ok ensured).resolve_left fun present => absent present.1
        cases h
        refine ⟨⟨.of_append rfl, rfl, fun _ mem => mem⟩,
          .of_elsewhere (.of_append rfl) (Elsewhere.owe fun s other =>
            ⟨?_, rfl⟩) ?_⟩
        · unfold World.installWriter
          split <;> exact AList.lookup_insert_ne other
        intro n f _ same owed
        obtain ⟨_, found, -⟩ := owesSync_iff.1 owed
        rw [same, none] at found
        cases found
    · cases h
      exact ⟨.refl w, .refl w⟩

/-- An event after which the acknowledgement is earned: the debt is there, and a frame that the
idempotency window names is synced or owed a sync. -/
def earned : CommitEvent → Bool
  | .wrote debt => debt ≠ 0
  | .deduplicated covered => covered

variable {record : R}

theorem appendFrame_advances {result}
    (h : w.appendFrame C o shard record = (result, w')) : Advances w w' := by
  unfold appendFrame at h
  split at h
  · cases h
    exact .refl w
  · split at h
    · cases h
      exact .refl w
    · cases h
      exact .refl w
    · cases h
      exact ⟨.of_eq rfl, rfl, fun _ mem => mem⟩
    · cases h
      exact ⟨.of_append rfl, rfl, fun _ mem => .tail _ mem⟩

theorem appendFrame_keeps (h : w.appendFrame C o shard record = (.ok (), w'))
    (sound : ∀ e ∈ w'.trace, earned e = true) :
    Kept w w' ∧ ∃ f, w'.frames = w.frames ++ [f] ∧ f.record = record ∧ w'.owesSync f = true := by
  have grows := (appendFrame_advances h).grows
  unfold appendFrame at h
  split at h
  · cases h
  · rename_i writer found
    split at h
    · cases h
    · cases h
    · cases h
    · rename_i l0 appended _
      cases h
      obtain ⟨writer', frame, found', hasFile, -, rfl⟩ := L0.appendFrame_ok appended
      rw [found] at found'
      cases found'
      have debt : (w.debts shard + 1) % 2 ^ 32 ≠ 0 := by
        simpa [earned] using sound _ mem_cons_self
      have owed (f : StoredFrame R) (here : f.shard = shard) (file : writer.activePath = f.file) :
          (w.count (w.l0.pushFrame C shard writer record frame) shard writer.activePath
            record).owesSync f = true := by
        let part := writer.part.append C.dataset C.granuleSize record frame.length
        refine owesSync_iff.2 ⟨{ writer with part := part }, ?_, hasFile, file, ?_⟩
        · rw [here]
          exact AList.lookup_insert w.l0.engine.writers
        · rw [here]
          simpa [WriterWorld.count, WriterWorld.owe, WriterWorld.log] using debt
      refine ⟨.of_elsewhere grows
        (fun s other => ⟨AList.lookup_insert_ne other, if_neg other⟩) ?_,
        _, rfl, rfl, owed _ rfl rfl⟩
      intro n f at_n same old
      obtain ⟨writer', found', -, file, -⟩ := owesSync_iff.1 old
      rw [same, found] at found'
      cases found'
      rcases grows n f at_n with at_n' | at_n'
      · exact ⟨f, at_n', rfl, .inr (owed f same file)⟩
      · exact ⟨_, at_n', rfl, .inl rfl⟩

/-- The frame of an acknowledgement holds a record of its key, and is synced unless `P`. -/
def Acked (C : L0Config R) (w : WriterWorld R) (P : Nat → StoredFrame R → Prop) (ack : Ack) :
    Prop :=
  ∃ n f, ack.frame = some n ∧ w.frames[n]? = some f ∧ C.dataset.sortKey f.record = ack.key ∧
    (f.synced = true ∨ P n f)

def Owed (C : L0Config R) (w : WriterWorld R) : Ack → Prop :=
  Acked C w fun _ f => w.owesSync f = true

def Durable (C : L0Config R) (w : WriterWorld R) : Ack → Prop :=
  Acked C w fun _ _ => False

variable {ack : Ack}

theorem Acked.grow {P P'} (h : Acked C w P ack) (grows : Grows w w')
    (imp : ∀ n f, P n f → P' n f) : Acked C w' P' ack := by
  obtain ⟨n, f, frame, found, key, safe⟩ := h
  rcases grows n f found with found' | found'
  · exact ⟨n, f, frame, found', key, safe.imp id (imp n f)⟩
  · exact ⟨n, _, frame, found', key, .inl rfl⟩

theorem Owed.keep (h : Owed C w ack) (kept : Kept w w') : Owed C w' ack := by
  obtain ⟨n, f, frame, found, key, safe⟩ := h
  obtain ⟨f', found', same, safe'⟩ := kept n f found safe
  exact ⟨n, f', frame, found', same ▸ key, safe'⟩

/-- What one append leaves: what was owed stays owed, and so is the record that was answered. -/
structure Answers (C : L0Config R) (w w' : WriterWorld R) (result : Result Ack) : Prop where
  advances : Advances w w'
  owed : ∀ ack, result = .ok ack → (∀ e ∈ w'.trace, earned e = true) → Kept w w' ∧ Owed C w' ack

theorem answerHit_answers (C : L0Config R) (record : R) (seq : Nat) (appended : Bool)
    (w : WriterWorld R) :
    Answers C w (w.answerHit C record seq appended).2 (w.answerHit C record seq appended).1 := by
  refine ⟨⟨.of_eq rfl, rfl, fun _ mem => .tail _ mem⟩, ?_⟩
  intro ack eq sound
  cases eq
  refine ⟨Kept.refl w, ?_⟩
  have covered := sound _ mem_cons_self
  simp only [earned] at covered
  cases named : w.named C (C.dataset.partition record C.shardCount)
      (C.dataset.dedupeKey record) seq with
  | none => simp [named] at covered
  | some n =>
    have found := find?_some named
    simp only [named, Option.map_some, Option.getD_some, WriterWorld.covers] at covered
    cases at_n : w.frames[n]? with
    | none => simp [at_n] at covered
    | some f =>
      simp only [at_n, Option.any_some, Bool.and_eq_true, decide_eq_true_eq] at found
      simp only [at_n, Bool.or_eq_true] at covered
      exact ⟨n, f, rfl, at_n, found.2, covered⟩

theorem appendRecord_answers {result} (h : w.appendRecord C o record = (result, w')) :
    Answers C w w' result := by
  unfold WriterWorld.appendRecord at h
  split at h
  · rename_i seq _
    have := answerHit_answers C record seq true w
    rwa [h] at this
  · dsimp only at h
    generalize (if C.hlcStamps = true then C.dataset.stampCommitHlc record o.clock else record) =
      stamped at h
    split at h
    · rename_i ensured
      cases h
      exact ⟨(ensureWriter_keeps ensured).1, fun _ eq => by cases eq⟩
    · rename_i w₁ ensured
      obtain ⟨opened, keptOpened⟩ := ensureWriter_keeps ensured
      split at h
      · rename_i appended
        cases h
        exact ⟨opened.trans (appendFrame_advances appended), fun _ eq => by cases eq⟩
      · rename_i w₂ appended
        cases h
        obtain ⟨advanced, keptSealed⟩ :=
          sealIfFull_keeps C o (C.dataset.partition stamped C.shardCount) w₂
        have written := appendFrame_advances appended
        refine ⟨(opened.trans written).trans advanced, ?_⟩
        intro ack eq sound
        cases eq
        obtain ⟨keptWritten, f, frames, held, owed⟩ :=
          appendFrame_keeps appended fun e mem => sound e (advanced.trace e mem)
        have answered : Owed C w₂
            ⟨C.dataset.sortKey stamped, true, some (w₂.frames.length - 1)⟩ :=
          ⟨_, f, rfl, by simp [frames], by rw [held], .inr owed⟩
        exact ⟨(keptOpened.trans keptWritten).trans keptSealed, answered.keep keptSealed⟩

theorem appendWriterAssigned_answers {result}
    (h : w.appendWriterAssigned C o record = (result, w')) : Answers C w w' result := by
  unfold WriterWorld.appendWriterAssigned at h
  split at h
  · rename_i seq _
    have := answerHit_answers C record seq false w
    rwa [h] at this
  · exact appendRecord_answers h

structure OnlyDebts (w w' : WriterWorld R) : Prop where
  l0 : w'.l0 = w.l0
  frames : w'.frames = w.frames
  trace : w'.trace = w.trace
  engineLock : w'.engineLock = w.engineLock

theorem OnlyDebts.advances (h : OnlyDebts w w') : Advances w w' :=
  ⟨.of_eq h.frames, h.engineLock, fun _ mem => h.trace ▸ mem⟩

theorem OnlyDebts.trans (first : OnlyDebts w w') (second : OnlyDebts w' w'') : OnlyDebts w w'' :=
  ⟨second.l0.trans first.l0, second.frames.trans first.frames, second.trace.trans first.trace,
    second.engineLock.trans first.engineLock⟩

variable {result : Result (Option LocalPath)}

theorem takeSyncHandle_cases (h : w.takeSyncHandle o shard = (result, w')) :
    (∃ writer, w.l0.engine.writers.lookup shard = some writer ∧
      result = .ok (some writer.activePath) ∧ w' = w.owe shard 0) ∨
    (w' = w ∧ ∀ handle, result = .ok handle →
      ∀ f : StoredFrame R, f.shard = shard → ¬w.owesSync f = true) := by
  unfold WriterWorld.takeSyncHandle at h
  split at h
  · rename_i noDebt
    cases h
    refine .inr ⟨rfl, fun _ _ f same owed => ?_⟩
    obtain ⟨-, -, -, -, debt⟩ := owesSync_iff.1 owed
    exact debt (same ▸ noDebt)
  · split at h
    · rename_i none
      cases h
      refine .inr ⟨rfl, fun _ _ f same owed => ?_⟩
      obtain ⟨_, found, -⟩ := owesSync_iff.1 owed
      rw [same, none] at found
      cases found
    · rename_i writer found
      split at h
      · rename_i noFile
        cases h
        refine .inr ⟨rfl, fun _ _ f same owed => ?_⟩
        obtain ⟨writer', found', hasFile, -⟩ := owesSync_iff.1 owed
        rw [same, found] at found'
        cases found'
        simp [hasFile] at noFile
      · split at h
        · cases h
          exact .inr ⟨rfl, fun _ eq => by cases eq⟩
        · cases h
          exact .inl ⟨writer, found, rfl, rfl⟩

theorem takeSyncHandle_onlyDebts (h : w.takeSyncHandle o shard = (result, w')) :
    OnlyDebts w w' := by
  obtain ⟨writer, -, -, rfl⟩ | ⟨rfl, -⟩ := takeSyncHandle_cases h
  · exact ⟨rfl, rfl, rfl, rfl⟩
  · exact ⟨rfl, rfl, rfl, rfl⟩

variable {shards : List Nat} {handles : List LocalPath}

theorem takeFrom_onlyDebts {result}
    (h : w.takeFrom o shards handles = (result, w')) : OnlyDebts w w' := by
  induction shards generalizing handles w with
  | nil =>
    cases h
    exact ⟨rfl, rfl, rfl, rfl⟩
  | cons shard rest ih =>
    rw [takeFrom] at h
    split at h
    · rename_i taken
      cases h
      exact takeSyncHandle_onlyDebts taken
    · rename_i taken
      exact (takeSyncHandle_onlyDebts taken).trans (ih h)

theorem takeFrom_takes {taken} (h : w.takeFrom o shards handles = (.ok taken, w')) :
    (∀ file ∈ handles, file ∈ taken) ∧
      ∀ f, f.shard ∈ shards → w.owesSync f = true → f.file ∈ taken := by
  induction shards generalizing handles w with
  | nil =>
    cases h
    exact ⟨fun _ mem => mem, fun _ mem => absurd mem not_mem_nil⟩
  | cons shard rest ih =>
    rw [takeFrom] at h
    split at h
    · cases h
    · rename_i handle w₁ first
      obtain ⟨earlier, later⟩ := ih h
      refine ⟨fun file mem => earlier file (mem_append_left _ mem), ?_⟩
      intro f mem owed
      -- the file is taken with its shard, and stays owed a sync with another shard
      obtain ⟨writer, found, taken, rfl⟩ | ⟨rfl, nothing⟩ := takeSyncHandle_cases first
      · by_cases same : f.shard = shard
        · subst same
          obtain ⟨writer', found', -, file, -⟩ := owesSync_iff.1 owed
          rw [found] at found'
          cases found'
          cases taken
          exact earlier f.file (mem_append_right _ (by simp [file]))
        · have kept : (w.owe shard 0).owesSync f = w.owesSync f := owesSync_congr rfl (if_neg same)
          exact later f ((mem_cons.1 mem).resolve_left same) (kept.trans owed)
      · exact later f ((mem_cons.1 mem).resolve_left fun same =>
          nothing handle rfl f same owed) owed

/-! `CommitStep` says what one action of a call does. What a call was told is synced or owed a sync
while it holds the engine, and later synced or in a file that it is going to sync. -/

inductive Stage where
  | asked
  | inside (acks : List Ack)
  | leaving (result : Except WriterError (List Ack × List LocalPath))
  | taken (acks : List Ack) (handles : List LocalPath)
  | syncing (acks : List Ack) (file : LocalPath) (count : Nat) (handles : List LocalPath)
  | done (result : Except WriterError (List Ack))

/-- What one step of a group commit does to the writers' world. -/
inductive CommitStep (C : L0Config R) (i : Nat) :
    WriterWorld R → Stage → WriterWorld R → Stage → Prop
  | admitted {w : WriterWorld R} : CommitStep C i w .asked w .asked
  | refused {w e} : CommitStep C i w .asked w (.done (.error e))
  | locked {w : WriterWorld R} (free : w.engineLock = none) :
      CommitStep C i w .asked (w.lock (some i)) (.inside [])
  | confirmed {w acks} : CommitStep C i w (.inside acks) w (.inside acks)
  | turnedBack {w acks e} : CommitStep C i w (.inside acks) w (.leaving (.error e))
  | appended {w w' : WriterWorld R} {acks ack o record}
      (h : w.appendWriterAssigned C o record = (.ok ack, w')) :
      CommitStep C i w (.inside acks) w' (.inside (acks ++ [ack]))
  | appendFailed {w w' : WriterWorld R} {acks e o record}
      (h : w.appendWriterAssigned C o record = (.error e, w')) :
      CommitStep C i w (.inside acks) w' (.leaving (.error (.engine e)))
  | took {w w' : WriterWorld R} {acks handles o}
      (h : w.takeSyncHandles o = (.ok handles, w')) :
      CommitStep C i w (.inside acks) w' (.leaving (.ok (acks, handles)))
  | takeFailed {w w' : WriterWorld R} {acks e o}
      (h : w.takeSyncHandles o = (.error e, w')) :
      CommitStep C i w (.inside acks) w' (.leaving (.error (.engine e)))
  | unlocked {w acks handles} :
      CommitStep C i w (.leaving (.ok (acks, handles))) (w.lock none) (.taken acks handles)
  | gaveUp {w e} : CommitStep C i w (.leaving (.error e)) (w.lock none) (.done (.error e))
  | began {w acks file handles} : CommitStep C i w (.taken acks (file :: handles)) w
        (.syncing acks file w.frames.length handles)
  | synced {w acks file count handles} :
      CommitStep C i w (.syncing acks file count handles) (w.sync file count) (.taken acks handles)
  | syncFailed {w acks file count handles} :
      CommitStep C i w (.syncing acks file count handles) w (.done (.error .fsync))
  | told {w acks} (tip : Nat) :
      CommitStep C i w (.taken acks []) { w with tip := tip } (.done (.ok acks))

def commitProtocol (C : L0Config R) :
    Protocol (WriterWorld R) (AppendRequest R) (Except WriterError (List Ack)) Stage where
  start _ := .asked
  next := CommitStep C
  done _ result l := l = .done result ∨ (l = .asked ∧ result = .ok [])

section Programs

variable {i : Nat} {Q : Except WriterError Unit → Stage → Prop}

theorem follows_check {f : IoOutcome → WriterWorld R → Except WriterError Unit}
    {l : Stage} {l' : WriterError → Stage} (stays : ∀ w, CommitStep C i w l w l)
    (turns : ∀ w e, CommitStep C i w l w (l' e)) (ok : Q (.ok ()) l)
    (error : ∀ e, Q (.error e) (l' e)) :
    Follows (CommitStep C i) (Prog.lift fun o w => some (f o w, w)) Q l := by
  intro o w b w' h
  cases h
  cases f o w with
  | ok => exact ⟨l, stays w, ok⟩
  | error e => exact ⟨l' e, turns w e, error e⟩

theorem follows_engineOp {α : Type} {f : IoOutcome → WriterWorld R → Result α × WriterWorld R}
    {l : Stage} {Q : Except WriterError α → Stage → Prop}
    (ok : ∀ o w a w', f o w = (.ok a, w') → ∃ l', CommitStep C i w l w' l' ∧ Q (.ok a) l')
    (error : ∀ o w e w', f o w = (.error e, w') →
      ∃ l', CommitStep C i w l w' l' ∧ Q (.error (.engine e)) l') :
    Follows (CommitStep C i) (engineOp f).run Q l := by
  intro o w b w' h
  dsimp only at h
  split at h
  · rename_i a w₁ eq
    cases h
    exact ok o w a _ eq
  · rename_i e w₁ eq
    cases h
    exact error o w e _ eq

theorem follows_appendLocked (records : List R) :
    Follows (CommitStep C i) (appendLocked C records).run (fun result l => l = .leaving result)
      (.inside []) := by
  refine .bindExcept (follows_check (fun _ => .confirmed) (fun _ _ => .turnedBack) ?_ fun _ => rfl)
  refine .bindExcept (follows_check (fun _ => .confirmed) (fun _ _ => .turnedBack) ?_ fun _ => rfl)
  refine .bindExcept (.tryEach (fun _ acks l => l = .inside acks) ?_ ?_ rfl)
  · rintro record rest acks _ rfl
    exact .bindExcept (follows_engineOp
      (fun o w ack w' eq => ⟨_, .appended eq, rfl⟩)
      fun o w e w' eq => ⟨_, .appendFailed eq, rfl⟩)
  · rintro acks _ rfl
    exact .bindExcept (follows_engineOp
      (fun o w handles w' eq => ⟨_, .took eq, rfl⟩)
      fun o w e w' eq => ⟨_, .takeFailed eq, rfl⟩)

theorem follows_groupCommit (tipOf : List Ack → Option Nat) (records : List R) :
    Follows (CommitStep C i) (groupCommit C tipOf i records).run (fun result l => l = .done result)
      .asked := by
  refine .bindExcept (follows_check (fun _ => .admitted) (fun _ _ => .refused) ?_ fun _ => rfl)
  refine .bindExcept (follows_check (fun _ => .admitted) (fun _ _ => .refused) ?_ fun _ => rfl)
  refine .bindExcept fun o w b w' h => ?_
  dsimp only at h
  split at h
  case isFalse => cases h
  rename_i free
  cases h
  refine ⟨_, .locked free, ?_⟩
  refine .bindExcept (.bind ((follows_appendLocked records).mono ?_))
  rintro (e | ⟨acks, handles⟩) _ rfl
  · intro o w b w' h
    cases h
    exact ⟨_, .gaveUp, rfl⟩
  · intro o w b w' h
    cases h
    refine ⟨_, .unlocked, .bindExcept ?_⟩
    refine .bindExcept (x := commit handles)
      (.tryEach (fun rest _ l => l = .taken acks rest) ?_ ?_ rfl)
    · rintro file rest _ _ rfl o w b w' h
      cases h
      refine ⟨_, .began, ?_⟩
      intro o w b w' h
      dsimp only at h
      split at h
      · cases h
        exact ⟨_, .synced, rfl⟩
      · cases h
        exact ⟨_, .syncFailed, rfl⟩
    · rintro _ _ rfl o w b w' h
      cases h
      exact ⟨_, .told _, rfl⟩

theorem follows_batch (tipOf : List Ack → Option Nat) (records : List R)
    (req : AppendRequest R) : Follows (CommitStep C i)
      (if records.isEmpty then return [] else groupCommit C tipOf i records :
        WriterAction R (List Ack)).run ((commitProtocol C).done req) .asked := by
  split
  · exact .inr ⟨rfl, rfl⟩
  · exact (follows_groupCommit tipOf records).mono fun _ _ eq => .inl eq

theorem follows_writer (i : Nat) (req : AppendRequest R) :
    Follows (CommitStep C i) ((writerService C).program i req)
      ((commitProtocol C).done req) .asked := by
  cases req with
  | append record =>
    simp only [writerService, FeedWriter.append]
    exact (follows_groupCommit _ [record]).mono fun _ _ eq => .inl eq
  | appendBatch records => exact follows_batch _ records _
  | appendBatchReporting records => exact follows_batch _ records _

end Programs

/-- The frames a call has appended are synced, or the call still owes their sync. -/
def CallOk (C : L0Config R) (w : WriterWorld R) (i : Nat) : Stage → Prop
  | .asked => True
  | .inside acks => w.engineLock = some i ∧ ∀ ack ∈ acks, Owed C w ack
  | .leaving result => w.engineLock = some i ∧ ∀ acks handles, result = .ok (acks, handles) →
      ∀ ack ∈ acks, Acked C w (fun _ f => f.file ∈ handles) ack
  | .taken acks handles => ∀ ack ∈ acks, Acked C w (fun _ f => f.file ∈ handles) ack
  | .syncing acks file count handles => ∀ ack ∈ acks,
      Acked C w (fun n f => f.file ∈ handles ∨ (n < count ∧ f.file = file)) ack
  | .done result => ∀ acks, result = .ok acks → ∀ ack ∈ acks, Durable C w ack

/-- What a call was told stands as long as no frame is taken back, and as long as the engine is
left alone while the call holds it. -/
theorem CallOk.keep {j l} (ok : CallOk C w j l) (grows : Grows w w')
    (held : w.engineLock = some j → w'.engineLock = some j ∧ w'.l0 = w.l0 ∧ w'.debts = w.debts) :
    CallOk C w' j l := by
  cases l with
  | asked => trivial
  | inside acks =>
    obtain ⟨lock, l0, debts⟩ := held ok.1
    refine ⟨lock, fun ack mem => Acked.grow (ok.2 ack mem) grows fun _ f owed => ?_⟩
    exact (owesSync_congr (by rw [l0]) (by rw [debts])).trans owed
  | leaving result =>
    refine ⟨(held ok.1).1, fun acks handles eq ack mem => ?_⟩
    exact (ok.2 acks handles eq ack mem).grow grows fun _ _ h => h
  | taken acks handles => exact fun ack mem => (ok ack mem).grow grows fun _ _ h => h
  | syncing acks file count handles => exact fun ack mem => (ok ack mem).grow grows fun _ _ h => h
  | done result => exact fun acks eq ack mem => (ok acks eq ack mem).grow grows fun _ _ h => h

theorem Acked.sync {ack file count P}
    (h : Acked C w (fun n f => P n f ∨ (n < count ∧ f.file = file)) ack) :
    Acked C (w.sync file count) P ack := by
  obtain ⟨n, f, frame, found, key, safe⟩ := h
  have found' := sync_frame w file count found
  split at found'
  · exact ⟨n, _, frame, found', key, .inl rfl⟩
  · rename_i outside
    refine ⟨n, f, frame, found', key, safe.imp id fun h => ?_⟩
    exact h.resolve_right outside

theorem Acked.begin {ack file handles} (h : Acked C w (fun _ f => f.file ∈ file :: handles) ack) :
    Acked C w (fun n f => f.file ∈ handles ∨ (n < w.frames.length ∧ f.file = file)) ack := by
  obtain ⟨n, f, frame, found, key, safe⟩ := h
  refine ⟨n, f, frame, found, key, safe.imp id fun mem => ?_⟩
  rcases mem_cons.1 mem with same | later
  · exact .inr ⟨(List.getElem?_eq_some_iff.1 found).1, same⟩
  · exact .inl later

section Steps

variable {i : Nat} {l l' : Stage}

section

variable (step : CommitStep C i w l w' l')

include step

theorem CommitStep.advances : Grows w w' ∧ ∀ e ∈ w.trace, e ∈ w'.trace := by
  cases step with
  | appended h =>
    have advances := (appendWriterAssigned_answers h).advances
    exact ⟨advances.grows, advances.trace⟩
  | appendFailed h =>
    have advances := (appendWriterAssigned_answers h).advances
    exact ⟨advances.grows, advances.trace⟩
  | took h => exact ⟨(takeFrom_onlyDebts h).advances.grows, (takeFrom_onlyDebts h).advances.trace⟩
  | takeFailed h =>
    exact ⟨(takeFrom_onlyDebts h).advances.grows, (takeFrom_onlyDebts h).advances.trace⟩
  | synced => exact ⟨.of_sync w _ _, fun _ mem => mem⟩
  | _ => exact ⟨.of_eq rfl, fun _ mem => mem⟩

theorem CommitStep.outside {j} (ok : CallOk C w i l)
    (other : j ≠ i) (held : w.engineLock = some j) :
    w'.engineLock = some j ∧ w'.l0 = w.l0 ∧ w'.debts = w.debts := by
  have away (mine : w.engineLock = some i) : False := by
    rw [held] at mine
    exact other (Option.some.inj mine)
  cases step with
  | locked free => simp [held] at free
  | appended | appendFailed | took | takeFailed | unlocked | gaveUp => exact (away ok.1).elim
  | _ => exact ⟨held, rfl, rfl⟩

theorem CommitStep.own (ok : CallOk C w i l)
    (sound : ∀ e ∈ w'.trace, earned e = true) : CallOk C w' i l' := by
  cases step with
  | admitted => trivial
  | refused | gaveUp | syncFailed => exact fun _ eq => by cases eq
  | locked _ => exact ⟨rfl, fun _ mem => absurd mem not_mem_nil⟩
  | confirmed => exact ok
  | turnedBack => exact ⟨ok.1, fun _ _ eq => by cases eq⟩
  | appended h =>
    have answers := appendWriterAssigned_answers h
    obtain ⟨kept, owed⟩ := answers.owed _ rfl sound
    refine ⟨answers.advances.engineLock.trans ok.1, fun ack mem => ?_⟩
    rcases mem_append.1 mem with old | new
    · exact (ok.2 ack old).keep kept
    · exact mem_singleton.1 new ▸ owed
  | appendFailed h =>
    exact ⟨(appendWriterAssigned_answers h).advances.engineLock.trans ok.1,
      fun _ _ eq => by cases eq⟩
  | took h =>
    refine ⟨(takeFrom_onlyDebts h).engineLock.trans ok.1, ?_⟩
    rintro _ _ ⟨⟩ ack mem
    refine Acked.grow (ok.2 ack mem) (takeFrom_onlyDebts h).advances.grows ?_
    intro n f owes
    obtain ⟨writer, found, -⟩ := owesSync_iff.1 owes
    have open_shard : f.shard ∈ w.l0.engine.writers := AList.lookup_isSome.1 (by rw [found]; rfl)
    exact (takeFrom_takes h).2 f (AList.mem_keys.2 open_shard) owes
  | takeFailed h =>
    exact ⟨(takeFrom_onlyDebts h).engineLock.trans ok.1, fun _ _ eq => by cases eq⟩
  | unlocked => exact fun ack mem => (ok.2 _ _ rfl ack mem).grow (.of_eq rfl) fun _ _ h => h
  | began => exact fun ack mem => (ok ack mem).begin
  | synced => exact fun ack mem => (ok ack mem).sync
  | told tip =>
    rintro _ ⟨⟩ ack mem
    exact (ok ack mem).grow (.of_eq rfl) fun _ _ none => absurd none not_mem_nil

end

end Steps

theorem keeps_commit : (commitProtocol C).Keeps (writerService C)
    (fun w => ∀ e ∈ w.trace, earned e = true) (fun _ _ => True) fun w i _ l => CallOk C w i l where
  call _ _ := ⟨trivial, trivial⟩
  act step sound := by
    obtain ⟨grows, earlier⟩ := CommitStep.advances step
    refine ⟨fun e mem => sound e (earlier e mem), fun _ _ mine =>
      ⟨trivial, CommitStep.own step mine sound, fun other theirs => ?_⟩⟩
    exact theirs.keep grows fun held => CommitStep.outside step mine other held
  drop {w n i req l} := by
    simp only [writerService]
    split
    · rename_i mine
      refine fun sound => ⟨sound, fun _ _ => ⟨trivial, fun other theirs => ?_⟩⟩
      refine theirs.keep (.of_eq rfl) fun held => ?_
      rw [mine] at held
      exact absurd (Option.some.inj held).symm other
    · exact fun sound => ⟨sound, fun _ _ => ⟨trivial, fun _ theirs => theirs⟩⟩
  world {w n} e sound := by
    cases e with
    | close => exact ⟨sound, fun _ => ⟨trivial, fun _ ok =>
        ok.keep (.of_eq rfl) fun held => ⟨held, rfl, rfl⟩⟩⟩
    | sealPart shard o =>
      simp only [writerService] at sound ⊢
      split at sound
      · rename_i free
        rw [if_pos free]
        have advances := (sealPart_keeps C o shard w).1
        refine ⟨fun e mem => sound e (advances.trace e mem), fun _ => ⟨trivial, fun _ ok => ?_⟩⟩
        refine ok.keep advances.grows fun held => ?_
        rw [free] at held
        cases held
      · rename_i busy
        rw [if_neg busy]
        exact ⟨sound, fun _ => ⟨trivial, fun _ ok => ok⟩⟩

/-- Every acknowledged record has its frame on disk, synced. -/
def AcksDurable (C : L0Config R)
    (p : Pool (WriterWorld R) IoOutcome (AppendRequest R) (Except WriterError (List Ack))) : Prop :=
  ∀ i request acks, p.answer i = some (request, .ok acks) → ∀ ack ∈ acks, Durable C p.shared ack

end Ehdb.Proof.Writer
