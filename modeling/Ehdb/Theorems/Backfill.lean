import Ehdb.Proof.Publish

/-! The uploader does not add to the copies that the row of a part lists, it replaces them by those
that the replicas took this time. -/

namespace Ehdb.Theorems

open L0 Proof ProofKit List

variable {R : Type} {C : L0Config R} {w w' : World R} {job : UploadJob}
  {outcomes rest : List Outcome}

inductive Pass where
  | backfill
  /-- The next upload, and how its operations end: the read, then a put to each replica. -/
  | upload (outcomes : List Outcome)

def pass (C : L0Config R) (w : World R) : Pass → Option (World R)
  | .backfill => ((backfillUnderReplicated C).along [.ok] w).map fun r => r.2.2
  | .upload outcomes =>
    match w.engine.queue with
    | [] => some w
    | job :: rest =>
      ((uploadJob C job).along outcomes
        ((w.withEngine fun e => { e with queue := rest }).log .uploadBegin)).map fun r => r.2.2

/-- The replicas that hold a recorded copy of the part take it again. -/
def Retaken (C : L0Config R) (w : World R) : Pass → Prop
  | .backfill => True
  | .upload outcomes => ∀ job ∈ w.engine.queue.head?, ∀ row ∈ w.engine.manifest.parts,
      row.partId = job.partId → ∀ loc ∈ row.replicas, loc.key = job.substrateKey ∧
        (loc.replica, .ok) ∈ C.replicas.zip outcomes.tail

def AllRetaken (C : L0Config R) : World R → List Pass → Prop
  | _, [] => True
  | w, p :: rest => Retaken C w p ∧ ∀ w' ∈ pass C w p, AllRetaken C w' rest

/-- Each row is where it was, lists the copies that it listed and has no lower count of them. -/
def Remembers (before after : Manifest) : Prop :=
  ∀ (i : Nat) (row : PartMeta), before.parts[i]? = some row →
    ∃ row', after.parts[i]? = some row' ∧ row'.partId = row.partId ∧
      (∀ loc ∈ row.replicas, loc ∈ row'.replicas) ∧
      (row.replicas.Nodup → row.replicas.length ≤ row'.replicas.length)

theorem readSource_along {source result}
    (ran : (readSource C source).run.along outcomes w = some (result, rest, w')) :
    w'.engine = w.engine ∧ (rest = outcomes.tail ∨ ∃ e, result = .error e) := by
  cases source with
  | localFile path =>
    cases outcomes with
    | nil => cases ran
    | cons o os =>
      cases ran
      refine ⟨?_, .inl rfl⟩
      dsimp only
      split <;> rfl
  | replica r key =>
    simp only [readSource] at ran
    split at ran
    · cases outcomes with
      | nil => cases ran
      | cons o os =>
        cases o with
        | ok | fail | failAfter =>
          cases ran
          exact ⟨rfl, .inl rfl⟩
    · cases ran
      exact ⟨rfl, .inr ⟨_, rfl⟩⟩

theorem replicateBytes_along {key bytes locations}
    (ran : (replicateBytes C key bytes).along outcomes w = some (locations, rest, w')) :
    w'.engine = w.engine ∧ ∀ r : ReplicaId, (r, .ok) ∈ C.replicas.zip outcomes →
      ⟨r, key⟩ ∈ locations := by
  -- a put that is to succeed has been made, or is still to come
  refine (Prog.along_foldEach (fun todo os taken w₁ => w₁.engine = w.engine ∧
    ∀ r : ReplicaId, (r, .ok) ∈ C.replicas.zip outcomes →
      (⟨r, key⟩ : ReplicaLocation) ∈ taken ∨ (r, .ok) ∈ todo.zip os)
    ?_ ⟨rfl, fun r put => .inr put⟩ ran).imp id
    fun all r put => (all r put).resolve_right nofun
  rintro replica todo os taken w₁ taken' os' w₂ ⟨same, all⟩ put
  cases os with
  | nil => cases put
  | cons o os =>
    cases o with
    | ok =>
      cases put
      refine ⟨same, fun r put => ?_⟩
      rcases all r put with before | now
      · exact .inl (mem_append_left _ before)
      · rcases mem_cons.1 now with this | later
        · cases this
          exact .inl (mem_append_right _ (mem_singleton.2 rfl))
        · exact .inr later
    | fail | failAfter =>
      cases put
      refine ⟨same, fun r put => (all r put).imp id fun now => ?_⟩
      exact (mem_cons.1 now).resolve_left nofun

theorem uploadJob_along (ran : (uploadJob C job).along outcomes w = some ((), rest, w')) :
    w'.engine.manifest.parts = w.engine.manifest.parts ∨ ∃ locations : List ReplicaLocation,
      w'.engine.manifest.parts = setReplicas job.partId locations w.engine.manifest.parts ∧
      ∀ r : ReplicaId, (r, .ok) ∈ C.replicas.zip outcomes.tail →
        ⟨r, job.substrateKey⟩ ∈ locations := by
  obtain ⟨result, os, w₁, read, ran⟩ := Prog.along_bind ran
  obtain ⟨same, left⟩ := readSource_along read
  cases result with
  | error e =>
    cases os with
    | nil => cases ran
    | cons o os =>
      cases ran
      exact .inl (congrArg (fun e => e.manifest.parts) same)
  | ok bytes =>
    obtain rfl := left.resolve_right nofun
    obtain ⟨locations, os', w₂, copied, ran⟩ := Prog.along_bind ran
    obtain ⟨same', taken⟩ := replicateBytes_along copied
    have parts : w₂.engine.manifest.parts = w.engine.manifest.parts := by rw [same', same]
    cases os' with
    | nil => split at ran <;> cases ran
    | cons o os' =>
      split at ran
      · cases ran
        exact .inl parts
      · obtain ⟨view, _, _, recorded, ran⟩ := Prog.along_bind ran
        cases recorded
        obtain ⟨_, os'', w₃, published, ran⟩ := Prog.along_bind ran
        obtain ⟨_, manifest, -⟩ := (writeManifestToAll_follows (T := StageStep C)
          (Q := fun _ _ => True) id _ trivial).along (I := fun w _ => w.engine.manifest =
            (w₂.recordReplicas job.partId locations).engine.manifest)
          (fun same step => step.manifest.trans same) rfl published
        cases os'' with
        | nil => cases ran
        | cons o os'' =>
          cases ran
          refine .inr ⟨locations, ?_, taken⟩
          rw [← parts]
          exact congrArg Manifest.parts manifest

theorem setReplicas_getElem? (partId : PartId) (locations : List ReplicaLocation)
    {parts} {i : Nat} {row} (is : parts[i]? = some row) :
    (setReplicas partId locations parts)[i]? = some row ∨ row.partId = partId ∧
      (setReplicas partId locations parts)[i]? = some { row with replicas := locations } := by
  induction parts generalizing i with
  | nil => cases is
  | cons p parts ih =>
    rw [setReplicas]
    split
    · rename_i same
      cases i with
      | zero =>
        cases is
        exact .inr ⟨same, rfl⟩
      | succ i => exact .inl is
    · cases i with
      | zero => exact .inl is
      | succ i => exact ih is

theorem Remembers.refl (m : Manifest) : Remembers m m :=
  fun _ row is => ⟨row, is, rfl, fun _ => id, fun _ => Nat.le_refl _⟩

theorem pass_remembers {p} (retaken : Retaken C w p) (done : pass C w p = some w') :
    Remembers w.engine.manifest w'.engine.manifest := by
  cases p with
  | backfill =>
    cases done
    split <;> exact .refl _
  | upload outcomes =>
    simp only [pass] at done
    cases queue : w.engine.queue with
    | nil =>
      rw [queue] at done
      cases done
      exact .refl _
    | cons job rest =>
      rw [queue] at done
      obtain ⟨⟨_, os, w₁⟩, ran, rfl⟩ := Option.map_eq_some_iff.1 done
      rw [Remembers]
      rcases uploadJob_along ran with same | ⟨locations, parts, taken⟩
      · rw [same]
        exact Remembers.refl w.engine.manifest
      · rw [parts]
        intro i row is
        rcases setReplicas_getElem? job.partId locations is with kept | ⟨own, set⟩
        · exact ⟨row, kept, rfl, fun _ => id, fun _ => Nat.le_refl _⟩
        · have again : ∀ loc ∈ row.replicas, loc ∈ locations := by
            rintro ⟨replica, key⟩ mem
            obtain ⟨rfl, put⟩ := retaken job (by simp [queue]) row (mem_of_getElem? is) own _ mem
            exact taken replica put
          exact ⟨_, set, rfl, again, fun nodup => (subperm_of_subset nodup again).length_le⟩

/-- What a row lists is listed for good when the replicas that hold a recorded copy take it again,
whatever the others do. -/
theorem recorded_copies_stay {passes : List Pass} (retaken : AllRetaken C w passes) :
    ∀ w' ∈ passes.foldlM (pass C) w, Remembers w.engine.manifest w'.engine.manifest := by
  intro w' ran
  induction passes generalizing w with
  | nil =>
    cases ran
    exact .refl _
  | cons p passes ih =>
    obtain ⟨w₁, done, ran⟩ := Option.bind_eq_some_iff.1 ran
    intro i row is
    obtain ⟨row₁, is₁, id₁, kept, -⟩ := pass_remembers retaken.1 done i row is
    obtain ⟨row', is', id', kept', -⟩ := ih (retaken.2 w₁ done) ran i row₁ is₁
    have all (loc : ReplicaLocation) (mem : loc ∈ row.replicas) := kept' loc (kept loc mem)
    exact ⟨row', is', id'.trans id₁, all, fun nodup => (subperm_of_subset nodup all).length_le⟩

def threeReplicas : L0Config Sample := sampleConfig false [0, 1, 2] 1 1

def sealedOne : World Sample :=
  (runFrom threeReplicas (callSample (.openEngine fun _ => .up) 6 ++
    callSample (.append 0 false ⟨1, false, false⟩) 8)).world

def uploadTo (puts : List Outcome) : Pass := .upload (.ok :: puts ++ replicate 12 .ok)

def listed (w : World Sample) : List (List ReplicaId) :=
  w.engine.manifest.parts.map fun p => p.replicas.map ReplicaLocation.replica

/-- A part that two of three replicas took, queued for a backfill. -/
def onTwoReplicas : World Sample :=
  ([uploadTo [.ok, .ok, .fail], .backfill].foldlM (pass threeReplicas) sealedOne).getD sealedOne

theorem backfill_keeps_copies : listed onTwoReplicas = [[0, 1]] ∧
    ∀ w' ∈ [uploadTo [.ok, .ok, .ok]].foldlM (pass threeReplicas) onTwoReplicas,
      Remembers onTwoReplicas.engine.manifest w'.engine.manifest := by
  refine ⟨by decide +kernel, recorded_copies_stay ⟨?_, fun _ _ => trivial⟩⟩
  simp only [Retaken, uploadTo]
  decide +kernel

theorem backfill_forgets_copies : listed onTwoReplicas = [[0, 1]] ∧
    ([uploadTo [.fail, .fail, .ok]].foldlM (pass threeReplicas) onTwoReplicas).map listed =
      some [[2]] := by
  decide +kernel

end Ehdb.Theorems
