import Ehdb.Proof.Protocol

/-! Every operation of the engine and every round of the uploader takes only steps of
`Ehdb.Proof.Protocol`, and a run of a session passes through reachable states only. -/

namespace Ehdb.Proof

open L0 ProofKit List

variable {R : Type} {ℓ α β : Type} {T : World R → ℓ → World R → ℓ → Prop} {l : ℓ}

variable {f : World R → α} {replica : ReplicaId} {answer : World R → Result α}

section Rules

variable {E : Result α → ℓ → Prop} {Q : α → ℓ → Prop}

theorem follows_observe (h : ∀ w, ∃ l', T w l w l' ∧ Q (f w) l') : Follows T (observe f) Q l := by
  rintro o w b w' ⟨⟩
  exact h w

theorem follows_update {f Q}
    (h : ∀ w, ∃ l', T w l (f w) l' ∧ Q () l') : Follows T (update f) Q l := by
  rintro o w b w' ⟨⟩
  exact h w

theorem follows_always {p} (h : Follows T p (fun a l' => E (.ok a) l') l) :
    Follows T (always p).run E l := .bind h

theorem follows_caught {p : Fallible R α} {E : Result (Result α) → ℓ → Prop}
    (h : Follows T p.run (fun r l' => E (.ok r) l') l) : Follows T (caught p).run E l := .bind h

theorem follows_ofResult {r} (h : E r l) : Follows T (ofResult r).run E l := h

theorem follows_attempt {f}
    (h : ∀ w r w', f w = (r, w') → ∃ l', T w l w' l' ∧ E r l') : Follows T (attempt f).run E l := by
  rintro o w b w' step
  exact h w b w' (Option.some.inj step)

theorem follows_substrateOp {req effect} (done : ∀ w, ∃ l', T w l (effect w) l' ∧ E (answer w) l')
    (failed : ∀ w w' e, Attempt effect w w' false → ∃ l', T w l w' l' ∧ E (.error e) l') :
    Follows T (substrateOp replica req answer effect).run E l := by
  rintro o w b w' step
  cases o with
  | ok =>
    obtain ⟨rfl, rfl⟩ := Prod.mk.inj (Option.some.inj step)
    exact done w
  | fail =>
    obtain ⟨rfl, rfl⟩ := Prod.mk.inj (Option.some.inj step)
    exact failed w _ _ .failed
  | failAfter =>
    obtain ⟨rfl, rfl⟩ := Prod.mk.inj (Option.some.inj step)
    exact failed w _ _ .unsure

end Rules

/-- A protocol in which effects on versioned snapshots and failed reads are always allowed. -/
def AllowsAside (T : World R → ℓ → World R → ℓ → Prop) : Prop :=
  ∀ {w w'} l, Aside w w' → T w l w' l

theorem follows_look {Q} (allows : AllowsAside T) (h : ∀ w, Q (f w) l) :
    Follows T (observe f) Q l := follows_observe fun w => ⟨l, allows l .stutter, h w⟩

variable {w w' : World R}

theorem Aside.of_read_failed (h : Attempt (fun w => w) w w' false) : Aside w w' := by
  cases h with
  | failed => exact .fault
  | unsure => exact .fault

theorem follows_read {E} (allows : AllowsAside T)
    (done : ∀ w, ∃ l', T w l w l' ∧ E (answer w) l') (failed : ∀ e, E (.error e) l) :
    Follows T (substrateRead replica answer).run E l :=
  follows_substrateOp done fun _ _ e h => ⟨l, allows l (.of_read_failed h), failed e⟩

theorem allowsAside_upStep (C : L0Config R) : AllowsAside (UpStep C) := fun _ h => .aside h

theorem allowsAside_mainStep (C : L0Config R) : AllowsAside (MainStep C) := fun _ h => .aside h

theorem allowsAside_callerStep (C : L0Config R) : AllowsAside (CallerStep C) :=
  fun _ h => .same (.aside h)

section Publish

variable {C : L0Config R} {wrap : PubStage → ℓ} {Q : Unit → ℓ → Prop}
  (embed : ∀ {w l w' l'}, StageStep C w l w' l' → T w (wrap l) w' (wrap l'))

include embed

theorem follows_asks_run {req effect l l' E}
    (move : ∀ w w', Asks replica req effect w w' → StageStep C w l w' l')
    (done : ∀ r, E r (wrap l')) :
    Follows T (substrateOp replica req (fun _ => .ok ()) effect).run E (wrap l) := by
  intro o w b w' asked
  cases o with
  | ok =>
    cases asked
    exact ⟨_, embed (move _ _ .done), done _⟩
  | fail =>
    cases asked
    exact ⟨_, embed (move _ _ .failed), done _⟩
  | failAfter =>
    cases asked
    exact ⟨_, embed (move _ _ .unsure), done _⟩

theorem follows_asks {req effect l l'}
    (move : ∀ w w', Asks replica req effect w w' → StageStep C w l w' l')
    (done : Q () (wrap l')) :
    Follows T (do let _ ← (substrateOp replica req (fun _ => .ok ()) effect).run :
      Action R Unit) Q (wrap l) := .bind (follows_asks_run embed move fun _ => done)

theorem evictions_follow (version : Nat)
    (done : Q () (wrap (sweepStage (sweepTargets C version)))) :
    Follows T
      (Prog.foldEach (fun _ replica => deleteVersions replica (evictions C version)) () C.replicas)
      Q (wrap (evictStage C version C.replicas)) := by
  refine .foldEach (fun todo _ l => l = wrap (evictStage C version todo)) ?_ ?_ rfl
  · rintro replica todo _ _ rfl
    cases due : evictions C version with
    | nil =>
      have skip : evictStage C version (replica :: todo) = evictStage C version todo := by
        simp [evictStage, due]
      exact congrArg wrap skip
    | cons evicted rest =>
      have single : rest = [] := by
        unfold evictions at due
        split at due
        · cases due
        · cases due
          rfl
      subst single
      have here : evictStage C version (replica :: todo) = .evicting version (replica :: todo) := by
        simp [evictStage, due]
      rw [here]
      exact .bind (follows_asks embed (fun w w' asked => .snapshot (.evict due asked)) rfl)
  · rintro _ _ rfl
    have last : evictStage C version [] = sweepStage (sweepTargets C version) := by
      unfold evictStage
      split
      · contradiction
      · rfl
    exact last ▸ done

theorem writeManifestToAll_follows (view : Manifest) (done : Q () (wrap .free)) :
    Follows T (writeManifestToAll C view) Q (wrap (.holding view)) := by
  refine .bind (.lift ?_)
  intro o w fresh w' locked
  split at locked
  · cases locked
  · rename_i unlocked
    have unlocked : w.engine.publishing = false := by simpa using unlocked
    split at locked
    · rename_i old
      cases locked
      exact ⟨_, embed (.stale unlocked old), done⟩
    · rename_i new
      cases locked
      refine ⟨_, embed (.acquire unlocked (Nat.lt_of_not_le new)), .bind ?_⟩
      refine .foldEach (fun todo _ l => l = wrap (.putting view todo)) ?_ ?_ rfl
      · rintro replica todo _ _ rfl
        refine .bind (follows_asks_run embed (fun w w' asked => .putLatest asked) fun _ => ?_)
        exact follows_asks embed (fun w w' asked => .snapshot (.putVersion asked)) rfl
      · rintro _ _ rfl
        refine .bind (follows_update fun w => ⟨_, embed .release, ?_⟩)
        refine .bind (evictions_follow embed _ ?_)
        refine .foldEach (fun todo _ l => l = wrap (sweepStage todo)) ?_ ?_ rfl
        · rintro replica todo _ _ rfl
          refine .bind ?_
          intro o w b w' listed
          cases o with
          | ok =>
            cases listed
            refine ⟨_, embed (.snapshot .list), ?_⟩
            refine .foldEach (fun doomed _ l => l = wrap (deleteStage replica todo doomed)) ?_
              ?_ rfl
            · rintro version doomed _ _ rfl
              exact follows_asks embed (fun w w' asked => .snapshot (.delete asked)) rfl
            · rintro _ _ rfl
              rfl
          | fail | failAfter =>
            cases listed
            exact ⟨_, embed (.snapshot .unlisted), rfl⟩
        · rintro _ _ rfl
          exact done

end Publish

theorem replicateBytes_follows (C : L0Config R) (key : PartKey) (bytes : Bytes)
    (wrap : List ReplicaLocation → List ReplicaId → ℓ)
    (embed : ∀ {w w' locations replica todo flag},
      Attempt (World.putPart replica key bytes) w w' flag →
      T w (wrap locations (replica :: todo)) w' (wrap (taken locations replica key flag) todo))
    {Q} (done : ∀ locations, Q locations (wrap locations [])) :
    Follows T (replicateBytes C key bytes) Q (wrap [] C.replicas) := by
  refine .foldEach (fun todo locations l' => l' = wrap locations todo) ?_ ?_ rfl
  · rintro replica rest locations _ rfl
    refine .bind (follows_substrateOp ?_ ?_)
    · exact fun w => ⟨_, embed .done, rfl⟩
    · exact fun w w' _ h => ⟨_, embed h, rfl⟩
  · rintro locations _ rfl
    exact done locations

theorem readSource_follows (C : L0Config R) (job : UploadJob) {E}
    (read : ∀ bytes, E (.ok bytes) (.copying job bytes [] C.replicas))
    (missing : ∀ e, E (.error e) (.publishing .free))
    (unread : ∀ e replica key, job.source = .replica replica key → E (.error e) (.reading job)) :
    Follows (UpStep C) (readSource C job.source).run E (.reading job) := by
  cases source : job.source with
  | localFile path =>
    refine follows_attempt fun w r w' h => ?_
    cases found : w.disk.lookup path with
    | some bytes =>
      obtain ⟨rfl, rfl⟩ := Prod.mk.inj (by simpa [found] using h)
      exact ⟨_, .read (source ▸ .file found), read bytes⟩
    | none =>
      obtain ⟨rfl, rfl⟩ := Prod.mk.inj (by simpa [found] using h)
      exact ⟨_, .missing source found, missing _⟩
  | replica replica key =>
    rw [readSource]
    split
    · rename_i listed
      refine follows_read (allowsAside_upStep C) (fun w => ?_) fun e => unread e _ _ source
      cases found : (w.replicas replica).parts.lookup key with
      | some bytes => exact ⟨_, .read (source ▸ .object listed found), read bytes⟩
      | none => exact ⟨_, .aside .stutter, unread _ _ _ source⟩
    · exact unread _ _ _ source

theorem uploadJob_follows (C : L0Config R) (job : UploadJob) :
    Follows (UpStep C) (uploadJob C job) (fun _ u => u = .idle) (.reading job) := by
  refine .bind (readSource_follows C job ?_ ?_ ?_)
  · intro bytes
    refine .bind (replicateBytes_follows C job.substrateKey bytes
      (UpTask.copying job bytes) UpStep.put ?_)
    intro locations
    cases locations with
    | nil => exact follows_update fun w => ⟨_, .lost, rfl⟩
    | cons loc rest =>
      refine .bind (.lift ?_)
      rintro o w view w' ⟨⟩
      refine ⟨_, .record (cons_ne_nil _ _), .bind ?_⟩
      refine writeManifestToAll_follows UpStep.publish _ ?_
      exact follows_update fun w => ⟨_, .close, rfl⟩
  · exact fun _ => follows_update fun w => ⟨_, .close, rfl⟩
  · exact fun _ _ _ source => follows_update fun w => ⟨_, .unread source, rfl⟩

section Caller

variable {C : L0Config R} {m : MainTask R}

theorem sealWriter_follows (C : L0Config R) (shard : Nat) (sealed : List (SealedPart R)) {E}
    (nothing : E (.ok none) (.serving sealed))
    (one : ∀ part, E (.ok (some part)) (.serving (sealed ++ [part])))
    (failed : ∀ e, E (.error e) .broken) :
    Follows (CallerStep C) (sealWriter C shard).run E (.serving sealed) := by
  refine .bindExcept (follows_always (.lift ?_))
  intro o w found w' h
  have h : w.renameActive shard = (found, w') := Option.some.inj h
  cases found with
  | none =>
    have same : w' = w := by
      unfold World.renameActive at h
      split at h
      · exact (Prod.mk.inj h).2.symm
      · split at h
        · exact (Prod.mk.inj h).2.symm
        · simp at h
    exact ⟨_, .same (.aside (same ▸ .stutter)), nothing⟩
  | some writer =>
    refine ⟨_, .same (.write (.rename h)), ?_⟩
    refine .bindExcept (follows_attempt fun w r w' h => ?_)
    cases r with
    | ok _ => exact ⟨_, .same (.write (.reopen h)), one _⟩
    | error e => exact ⟨_, .same (.write (.reopenFailed h)), failed e⟩

theorem sealAndRegister_follows (C : L0Config R) (shard : Nat) :
    Follows (CallerStep C) (sealAndRegister C shard).run
      (fun
        | .ok _, m => m = .serving []
        | .error _, m => m = .broken) (.serving []) := by
  refine .bindExcept (sealWriter_follows C shard [] ?_ ?_ ?_)
  · exact rfl
  · intro part
    exact follows_always (follows_update fun w => ⟨_, .same (.write .register), rfl⟩)
  · exact fun _ => rfl

theorem appendRecord_follows (hlc : Nat) (aged : Bool) (record : R) (rests : m.Rests) :
    Follows (CallerStep C) (appendRecord C hlc aged record).run (fun _ m => m.Rests) m := by
  refine .bindExcept (follows_always (follows_look (allowsAside_callerStep C) fun w => ?_))
  cases dedupeHit C w.engine record with
  | some seq =>
    refine .bindExcept (follows_always (follows_update fun w => ?_))
    exact ⟨_, .next rests (.write .dedup), .serving⟩
  | none =>
    generalize (if C.hlcStamps then C.dataset.stampCommitHlc record hlc else record) = stamped
    refine .bindExcept (follows_attempt fun w r w' h => ?_)
    cases r with
    | error e =>
      have same : w' = w := ensureWriter_error h
      exact ⟨_, .same (.aside (same ▸ .stutter)), rests⟩
    | ok _ =>
      refine ⟨_, .next rests (.write (.ensureWriter h)), ?_⟩
      refine .bindExcept (follows_attempt fun w r w' h => ?_)
      cases r with
      | error e =>
        have same : w' = w := appendFrame_error h
        exact ⟨_, .same (.aside (same ▸ .stutter)), .serving⟩
      | ok _ =>
        refine ⟨_, .same (.write (.append h)), ?_⟩
        refine .bindExcept (follows_always
          (follows_look (allowsAside_callerStep C) fun w => ?_))
        dsimp only
        split
        · refine .bindExcept (follows_caught ((sealAndRegister_follows C _).mono ?_))
          intro r m' h
          cases r with
          | ok _ => exact h ▸ .serving
          | error e => exact h ▸ .broken
        · exact .serving

theorem appendWriterAssigned_follows (hlc : Nat) (aged : Bool) (record : R) :
    Follows (CallerStep C) (appendWriterAssigned C hlc aged record).run (fun _ m => m.Rests)
      (.serving []) := by
  refine .bindExcept (follows_always (follows_look (allowsAside_callerStep C) fun w => ?_))
  cases dedupeHit C w.engine record with
  | some seq =>
    refine .bindExcept (follows_always (follows_update fun w => ?_))
    exact ⟨_, .same (.write .dedup), .serving⟩
  | none =>
    refine .bindExcept (follows_always (.lift ?_))
    rintro o w seq w' ⟨⟩
    exact ⟨_, .same (.write .mint), appendRecord_follows _ _ _ .serving⟩

theorem flushAndWaitUploads_follows (C : L0Config R) :
    Follows (CallerStep C) (flushAndWaitUploads C).run (fun _ m => m.Rests) (.serving []) := by
  refine .bindExcept (follows_always (follows_look (allowsAside_callerStep C) fun w => ?_))
  refine .bindExcept (.tryEach (fun _ sealed m => m = .serving sealed) ?_ ?_ rfl)
  · rintro shard rest sealed _ rfl
    refine .bindExcept (sealWriter_follows C shard sealed ?_ ?_ ?_)
    · show MainTask.serving sealed = .serving (sealed ++ [])
      rw [append_nil]
    · exact fun part => rfl
    · exact fun _ => .broken
  · rintro sealed _ rfl
    refine .bindExcept (follows_always
      (.foldEach (fun todo _ m => m = .serving todo) ?_ ?_ rfl))
    · rintro part rest _ _ rfl
      exact follows_update fun w => ⟨_, .same (.write .register), rfl⟩
    · rintro _ _ rfl
      refine follows_always (.lift ?_)
      intro o w b w' h
      split at h
      · obtain ⟨rfl, rfl⟩ := Prod.mk.inj (Option.some.inj h)
        exact ⟨_, .same (.aside .stutter), .serving⟩
      · contradiction

section Read

variable {merge : MergeTask R} {part : PartMeta} {todo : List PartMeta}
  {E : Result Bytes → MainTask R → Prop}

theorem readAcrossReplicas_follows (resident : part.localPath = none)
    (read : ∀ w bytes, ReadsPart C w part bytes →
      ∃ m', MainStep C w (.gathering merge (part :: todo)) w m' ∧ E (.ok bytes) m')
    (failed : ∀ e, E (.error e) (.gathering merge (part :: todo)))
    (locations : List ReplicaLocation) (listed : ∀ loc ∈ locations, loc ∈ part.replicas) :
    Follows (MainStep C) (readAcrossReplicas C locations).run E
      (.gathering merge (part :: todo)) := by
  induction locations with
  | nil => exact failed _
  | cons loc rest ih =>
    have next := ih fun l hl => listed l (.tail _ hl)
    rw [readAcrossReplicas]
    split
    · rename_i known
      refine .bindExcept (follows_caught ?_)
      refine follows_read (allowsAside_mainStep C) (fun w => ?_) fun _ => next
      cases found : (w.replicas loc.replica).parts.lookup loc.key with
      | some bytes => exact read w bytes (.object resident (listed loc (by simp)) known found)
      | none => exact ⟨_, .aside .stutter, next⟩
    · exact next

theorem readWholePart_follows
    (read : ∀ w bytes, ReadsPart C w part bytes →
      ∃ m', MainStep C w (.gathering merge (part :: todo)) w m' ∧ E (.ok bytes) m')
    (failed : ∀ e, E (.error e) (.gathering merge (part :: todo))) :
    Follows (MainStep C) (readWholePart C part).run E (.gathering merge (part :: todo)) := by
  rw [readWholePart]
  cases resident : part.localPath with
  | some path =>
    refine follows_attempt fun w r w' h => ?_
    cases found : w.disk.lookup path with
    | some bytes =>
      obtain ⟨rfl, rfl⟩ := Prod.mk.inj (by simpa [found] using h)
      exact read w bytes (.file resident found)
    | none =>
      obtain ⟨rfl, rfl⟩ := Prod.mk.inj (by simpa [found] using h)
      exact ⟨_, .aside .stutter, failed _⟩
  | none => exact readAcrossReplicas_follows resident read failed _ fun _ h => h

end Read

/-- How a merge ends: it had too little to merge, or it has published. -/
abbrev Merged : Result Unit → MainTask R → Prop
  | .ok _, m => m = .serving [] ∨ m = .publishing .free
  | .error _, m => m.Rests

theorem mergeOnce_follows (C : L0Config R) (plan : MergePlan) :
    Follows (MainStep C) (mergeOnce C plan).run Merged (.planned plan) := by
  refine .bindExcept (follows_always (follows_observe fun w => ?_))
  generalize sourcesEq : planSources w.engine.manifest plan = sources
  by_cases few : sources.length < 2
  · refine ⟨_, .merge (.few (sourcesEq ▸ few)), ?_⟩
    dsimp only
    rw [if_pos few]
    exact .inl rfl
  refine ⟨.gathering ⟨plan, sources, []⟩ sources, .merge ?_, ?_⟩
  · subst sourcesEq
    exact .sources (by omega)
  dsimp only
  rw [if_neg few]
  refine .bindExcept (.tryEach
    (fun todo records m => m = .gathering ⟨plan, sources, records⟩ todo) ?_ ?_ rfl)
  · rintro part todo records _ rfl
    refine .bindExcept (readWholePart_follows (fun w bytes reads => ?_) fun _ => .gathering)
    cases decoded : decodePart C.dataset bytes with
    | ok more =>
      refine ⟨_, .merge (.read reads decoded), .bindExcept (follows_ofResult ?_)⟩
      rw [decoded]
      rfl
    | error e =>
      refine ⟨_, .aside .stutter, .bindExcept (follows_ofResult ?_)⟩
      rw [decoded]
      exact .gathering
  · rintro records _ rfl
    refine .bindExcept (follows_always (follows_update fun w => ?_))
    refine ⟨_, .merge .merging, ?_⟩
    refine .bindExcept ?_
    unfold buildMergedPart
    split
    · exact .building
    · exact .building
    rename_i part bytes layout filled
    refine .bindExcept (follows_always (follows_update fun w => ?_))
    refine ⟨_, .merge (.write filled layout), ?_⟩
    refine .bindExcept (follows_always (follows_update fun w => ⟨_, .merge (.name rfl), ?_⟩))
    refine .bindExcept (follows_always (replicateBytes_follows C _ bytes
      (MainTask.copying ⟨plan, sources, _⟩ _ bytes)
      (fun h => .merge (.put h)) fun locations => ?_))
    cases locations with
    | nil => exact .copying
    | cons loc rest =>
      refine .bindExcept (follows_always (.lift ?_))
      rintro o w view w' ⟨⟩
      refine ⟨_, .merge (.swap (cons_ne_nil _ _) rfl), ?_⟩
      exact follows_always (writeManifestToAll_follows MainStep.publish _ (.inr rfl))

theorem runPendingMerges_follows (C : L0Config R) (rounds : Nat) (rests : m.Rests) :
    Follows (CallerStep C) (runPendingMerges C rounds).run (fun _ m => m.Rests) m := by
  induction rounds generalizing m with
  | zero => exact rests
  | succ rounds ih =>
    refine .bindExcept (follows_always (follows_observe fun w => ?_))
    cases planned : planNextMerge w.engine.manifest C.mergePolicy with
    | none => exact ⟨_, .same (.aside .stutter), rests⟩
    | some plan =>
      refine ⟨_, .next rests (.merge (.plan planned)), ?_⟩
      refine .bindExcept (((mergeOnce_follows C plan).weaken .same).mono ?_)
      intro r m' h
      cases r with
      | ok _ =>
        rcases h with rfl | rfl
        · exact ih .serving
        · exact ih .published
      | error e => exact h

theorem reclaimReplica_follows (C : L0Config R) (view : ReclaimView) (replica : ReplicaId) :
    Follows (CallerStep C) (reclaimReplica view replica).run (fun _ m => m = .collecting view)
      (.collecting view) := by
  refine .bindExcept (follows_read (allowsAside_callerStep C)
    (fun w => ⟨_, .same (.aside .stutter), ?_⟩) fun _ => rfl)
  refine .tryEach
    (fun todo _ m => m = .collecting view ∧ ∀ key ∈ todo, view.dropsObject key = true) ?_
    (fun _ _ h => h.1) ⟨rfl, fun key h => (mem_filter.mp h).2⟩
  rintro key rest _ _ ⟨rfl, drops⟩
  have drop := drops key (by simp)
  have later : ∀ key ∈ rest, view.dropsObject key = true := fun k h => drops k (by simp [h])
  exact follows_substrateOp (fun w => ⟨_, .same (.upkeep (.deletePart drop .done)), rfl, later⟩)
    fun w w' _ h => ⟨_, .same (.upkeep (.deletePart drop h)), rfl⟩

theorem reclaimOrphans_follows (rests : m.Rests) :
    Follows (CallerStep C) (reclaimOrphans C).run (fun _ m => m.Rests) m := by
  refine .bindExcept (follows_always (.lift ?_))
  rintro o w view w' ⟨⟩
  refine ⟨_, .next rests (.upkeep .reclaim), ?_⟩
  generalize ReclaimView.of w.engine.manifest = view
  have swept : Follows (CallerStep C) (ExceptT.run do
      Prog.tryEach (fun _ replica => reclaimReplica view replica) () C.replicas
      always (reclaimFiles view)) (fun _ m => m = .collecting view) (.collecting view) := by
    refine .bindExcept (.tryEach (fun _ _ m => m = .collecting view) ?_ ?_ rfl)
    · rintro replica rest _ _ rfl
      refine (reclaimReplica_follows C view replica).mono ?_
      intro r m' h
      cases r with
      | ok _ => exact h
      | error e => exact h
    · rintro _ _ rfl
      refine follows_always ?_
      refine .bind (follows_look (allowsAside_callerStep C) fun w => ?_)
      refine .foldEach
        (fun todo _ (m : MainTask R) =>
          m = .collecting view ∧ ∀ path ∈ todo, view.dropsFile path = true) ?_
        (fun _ _ h => h.1) ⟨rfl, fun path h => (mem_filter.mp h).2⟩
      rintro path rest _ _ ⟨rfl, drops⟩
      exact follows_update fun w => ⟨_, .same (.upkeep (.deleteFile (drops path (by simp)))), rfl,
        fun p h => drops p (by simp [h])⟩
  refine .bindExcept (follows_caught (swept.mono ?_))
  rintro r _ rfl
  refine .bindExcept (follows_always (follows_update fun w => ?_))
  exact ⟨_, .same (.upkeep .reclaimEnd), .serving⟩

theorem applyRetention_follows (C : L0Config R) (keepFrom : Nat) :
    Follows (CallerStep C) (applyRetention C keepFrom).run (fun _ m => m.Rests) (.serving []) := by
  refine .bindExcept (follows_always (follows_observe fun w => ?_))
  refine ⟨.retaining (planRetention w.engine.manifest keepFrom), .same (.upkeep .planRetention), ?_⟩
  dsimp only
  split
  · exact .retaining
  · refine .bindExcept (follows_always (.lift ?_))
    rintro o w view w' ⟨⟩
    refine ⟨_, .same (.upkeep (.drop rfl)), ?_⟩
    exact .bindExcept (follows_always (writeManifestToAll_follows
      (fun h => .same (.publish h)) _ (reclaimOrphans_follows .published)))

theorem replicateTail_follows (C : L0Config R) :
    Follows (CallerStep C) (replicateTail C).run (fun _ m => m.Rests) (.serving []) := by
  refine .bindExcept (follows_always (follows_observe fun w => ?_))
  cases prepared : prepareTailBatches C w.engine with
  | error e => exact ⟨_, .same (.aside .stutter), .serving⟩
  | ok batches =>
    refine ⟨_, .same (.upkeep (.prepareTail prepared)), follows_always ?_⟩
    refine .foldEach (fun todo _ m => m = .tailing batches ∧ ∀ b ∈ todo, b ∈ batches) ?_
      (fun _ _ h => h.1 ▸ .tailing) ⟨rfl, fun _ h => h⟩
    rintro batch rest _ _ ⟨rfl, listed⟩
    have here := listed batch (by simp)
    have later : ∀ b ∈ rest, b ∈ batches := fun b h => listed b (by simp [h])
    refine .bind (.foldEach (fun _ _ m => m = .tailing batches) ?_ ?_ rfl)
    · rintro replica _ _ _ rfl
      exact .bind (follows_substrateOp
        (fun w => ⟨_, .same (.upkeep (.putTail here .done)), rfl⟩)
        fun w w' _ h => ⟨_, .same (.upkeep (.putTail here h)), rfl⟩)
    · rintro took _ rfl
      cases took with
      | true => exact follows_update fun w => ⟨_, .same (.upkeep (.commitTail here)), rfl, later⟩
      | false => exact ⟨rfl, later⟩

theorem sealStrandedActiveParts_follows (C : L0Config R) :
    Follows (CallerStep C) (sealStrandedActiveParts C).run
      (fun
        | .ok _, m => ∃ floor ranges shard, m = .stranding floor ranges shard []
        | .error _, _ => True) (.loaded false) := by
  refine .bindExcept (follows_always (follows_observe fun w => ?_))
  refine ⟨_, .same (.opening .survey), ?_⟩
  generalize w.engine.manifest.reclaimedThrough = floor
  generalize (w.engine.manifest.parts.map fun p =>
    (⟨p.partition, p.minSequence, p.maxSequence⟩ : PartId)) = ranges
  refine .bindExcept (.tryEach
    (fun _ ranges m => ∃ shard, m = .stranding floor ranges shard []) ?_ ?_ ⟨0, rfl⟩)
  · rintro shard rest ranges _ ⟨last, rfl⟩
    refine .bindExcept (follows_always (follows_observe fun w => ?_))
    cases found : strandedIn C.dataset w.disk floor shard ranges with
    | error e => exact ⟨_, .same (.aside .stutter), trivial⟩
    | ok pair =>
      obtain ⟨stranded, ranges'⟩ := pair
      refine ⟨_, .same (.opening (.strand found)), ?_⟩
      refine .bindExcept (follows_ofResult ?_)
      refine .bindExcept (.tryEach
        (fun todo _ m => m = .stranding floor ranges' shard todo) ?_ ?_ rfl)
      · rintro s todo _ _ rfl
        refine .bindExcept (follows_always (follows_update fun w => ?_))
        refine ⟨_, .same (.opening .cut), follows_attempt fun w r w' h => ?_⟩
        cases found : w.disk.lookup (.sealed s.partId) with
        | some bytes =>
          obtain ⟨rfl, rfl⟩ := Prod.mk.inj (by simpa [found] using h)
          exact ⟨_, .same (.aside .stutter), trivial⟩
        | none =>
          obtain ⟨rfl, rfl⟩ := Prod.mk.inj (by simpa [found] using h)
          exact ⟨_, .same (.opening (.sealStranded found)), rfl⟩
      · rintro _ _ rfl
        exact ⟨shard, rfl⟩
  · rintro ranges _ ⟨shard, rfl⟩
    exact ⟨_, _, _, rfl⟩

theorem recoverActiveParts_follows (C : L0Config R) {coverage known} :
    Follows (CallerStep C) (recoverActiveParts C).run
      (fun
        | .ok _, m => m.Rests
        | .error _, _ => True) (.adopting coverage known []) := by
  have nonempty : C.shards ≠ [] := by
    simp only [L0Config.shards, ne_eq, range_eq_nil]
    omega
  refine .tryEach
    (fun todo _ m => m = .resuming todo ∨
      (todo = C.shards ∧ m = .adopting coverage known [])) ?_ ?_ (.inr ⟨rfl, rfl⟩)
  · rintro shard rest _ m at_
    refine follows_attempt fun w r w' h => ?_
    cases r with
    | error e => exact ⟨m, .same (.aside (ensureWriter_error h ▸ .stutter)), trivial⟩
    | ok _ =>
      rcases at_ with rfl | ⟨first, rfl⟩
      · exact ⟨_, .same (.opening (.resume h)), .inl rfl⟩
      · exact ⟨_, .same (.opening (.resumeFirst first.symm h)), .inl rfl⟩
  · rintro _ _ (rfl | ⟨none, rfl⟩)
    · exact .resumed
    · exact absurd none.symm nonempty

def Opened : Result Unit → MainTask R → Prop
  | .ok _, m => m.Rests
  | .error _, _ => True

theorem openReplicated_follows (C : L0Config R) (reach : ReplicaId → Reach) :
    Follows (CallerStep C) (openReplicated C reach).run Opened .down := by
  unfold openReplicated
  split
  · exact trivial
  refine .bindExcept (follows_attempt fun w r w' h => ?_)
  cases r with
  | error e => exact ⟨_, .same (.opening (.loadFailed h)), trivial⟩
  | ok tip =>
    refine ⟨_, .same (.opening (.load h)), ?_⟩
    refine .bindExcept ((sealStrandedActiveParts_follows C).mono ?_)
    intro r m' at_
    cases r with
    | error e => trivial
    | ok _ =>
      obtain ⟨floor, ranges, shard, rfl⟩ := at_
      refine .bindExcept (follows_always (.bind (follows_observe fun w => ?_)))
      refine ⟨_, .same (.opening .surveyFiles), ?_⟩
      refine .foldEach (fun todo _ (m : MainTask R) => m = .adopting (.of w.engine.manifest)
        (w.engine.manifest.parts.map PartMeta.partId) todo) ?_ ?_ rfl
      · rintro id rest _ _ rfl
        exact follows_update fun w => ⟨_, .same (.opening .adopt), rfl⟩
      rintro _ _ rfl
      refine (recoverActiveParts_follows C).mono ?_
      intro r m' h
      cases r with
      | ok _ => exact h
      | error e => trivial

theorem coldLoadReplicated_follows (reach : ReplicaId → Reach) (hlc : Nat → Nat) (aged : Bool) :
    Follows (CallerStep C) (coldLoadReplicated C reach hlc aged).run Opened .down := by
  unfold coldLoadReplicated
  split
  · exact trivial
  refine .bindExcept (follows_attempt fun w r w' h => ?_)
  cases r with
  | error e => exact ⟨_, .same (.opening (.loadFailed h)), trivial⟩
  | ok tip =>
    refine ⟨_, .same (.opening (.load h)), ?_⟩
    refine .bindExcept (follows_always
      (follows_look (allowsAside_callerStep C) fun w => ?_))
    refine .bindExcept (follows_ofResult ?_)
    cases collectTail C reach tip w.replicas with
    | error e => exact trivial
    | ok records =>
      refine .tryEach (fun _ _ m => m.Rests) ?_ (fun _ _ h => h) .cold
      intro r rest _ m rests
      refine .bindExcept ((appendRecord_follows _ _ r rests).mono ?_)
      intro res m' h
      cases res with
      | ok _ => exact h
      | error e => trivial

end Caller

section Sessions

variable {C : L0Config R} {s : Session R} {m : MainTask R} {u : UpTask}

theorem Op.program_follows (op : Op R) (serves : op.starts = false) :
    Follows (CallerStep C) (op.program C).run (fun _ m => m.Rests) (.serving []) := by
  cases op with
  | openEngine reach => simp [Op.starts] at serves
  | coldLoad reach hlc aged => simp [Op.starts] at serves
  | append hlc aged record =>
    refine .bindExcept ((appendRecord_follows hlc aged record .serving).mono ?_)
    intro r m h
    cases r <;> exact h
  | appendNext hlc aged make =>
    refine .bindExcept (follows_always (follows_look (allowsAside_callerStep C) fun w => ?_))
    refine .bindExcept ((appendRecord_follows hlc aged _ .serving).mono ?_)
    intro r m h
    cases r <;> exact h
  | appendAssigned hlc aged record =>
    refine .bindExcept ((appendWriterAssigned_follows hlc aged record).mono ?_)
    intro r m h
    cases r <;> exact h
  | sealAged aged =>
    refine .bindExcept (follows_always (follows_look (allowsAside_callerStep C) fun w => ?_))
    refine .tryEach (fun _ _ m => m = .serving []) ?_ (fun _ _ h => h ▸ .serving) rfl
    rintro shard rest _ _ rfl
    refine (sealAndRegister_follows C shard).mono ?_
    intro r m' h
    cases r with
    | ok _ => exact h
    | error e => exact h ▸ .broken
  | flush => exact flushAndWaitUploads_follows C
  | backfill =>
    refine follows_always (follows_update fun w => ?_)
    split
    · exact ⟨_, .same (.aside .stutter), .serving⟩
    · exact ⟨_, .same (.write .backfill), .serving⟩
  | merges rounds => exact runPendingMerges_follows C rounds .serving
  | reclaim => exact reclaimOrphans_follows .serving
  | retain keepFrom => exact applyRetention_follows C keepFrom
  | keepLast records =>
    exact .bindExcept (follows_always (follows_look (allowsAside_callerStep C) fun _ =>
      applyRetention_follows C _))
  | replicateTail => exact replicateTail_follows C
  | reclaimTail =>
    refine .bindExcept (follows_always (follows_observe fun w => ?_))
    refine ⟨_, .same (.upkeep .trim), follows_always ?_⟩
    generalize contiguousDurableWatermarks w.engine.manifest = watermarks
    refine .foldEach (fun _ _ m => m = .trimming watermarks) ?_
      (fun _ _ h => h ▸ .trimming) rfl
    rintro replica rest _ _ rfl
    refine .bind (follows_read (allowsAside_callerStep C)
      (fun w => ⟨_, .same (.aside .stutter), ?_⟩) fun _ => rfl)
    refine .foldEach
      (fun todo _ (m : MainTask R) =>
        m = .trimming watermarks ∧ ∀ key ∈ todo, tailIsCovered watermarks key = true)
      ?_ (fun _ _ h => h.1) ⟨rfl, fun key h => (mem_filter.mp h).2⟩
    rintro key later _ _ ⟨rfl, covered⟩
    have here := covered key (by simp)
    have rest : ∀ key ∈ later, tailIsCovered watermarks key = true :=
      fun k h => covered k (by simp [h])
    exact .bind (follows_substrateOp
      (fun w => ⟨_, .same (.upkeep (.deleteTail here .done)), rfl, rest⟩)
      fun w w' _ h => ⟨_, .same (.upkeep (.deleteTail here h)), rfl, rest⟩)

theorem Op.opening_follows (op : Op R) (starts : op.starts = true) :
    Follows (CallerStep C) (op.program C).run Opened .down := by
  cases op with
  | openEngine reach => exact openReplicated_follows C reach
  | coldLoad reach hlc aged => exact coldLoadReplicated_follows reach hlc aged
  | _ => simp [Op.starts] at starts

def Session.CallerAt (C : L0Config R) (s : Session R) (m : MainTask R) : Prop :=
  match s.status with
  | .down => m = .down ∧ s.idle = true
  | .opening => Follows (CallerStep C) s.main Opened m
  | .serving => Follows (CallerStep C) s.main (fun _ m => m.Rests) m

def Session.UploaderAt (C : L0Config R) (s : Session R) (u : UpTask) : Prop :=
  match s.up with
  | none => u = .idle
  | some p => Follows (UpStep C) p (fun _ u => u = .idle) u

/-- The session's two programs stand at tasks the protocol can reach. -/
structure Tracks (C : L0Config R) (s : Session R) (m : MainTask R) (u : UpTask) : Prop where
  reachable : Reachable C s.world m u
  caller : Session.CallerAt C s m
  uploader : Session.UploaderAt C s u

theorem Tracks.halt (h : Tracks C s m u) (loseDisk : Bool) :
    Tracks C (s.halt C loseDisk) .down .idle := ⟨h.reachable.halt, ⟨rfl, rfl⟩, rfl⟩

theorem Tracks.settle (h : Tracks C s m u) : ∃ m u, Tracks C (s.settle C) m u := by
  unfold Session.settle
  split
  · rename_i opening ended
    have rests : m.Rests := by
      have caller := h.caller
      rw [Session.CallerAt, opening, ended] at caller
      exact caller
    exact ⟨m, u, h.reachable, by rw [Session.CallerAt, ended]; exact rests, h.uploader⟩
  · exact ⟨_, _, h.halt false⟩
  · exact ⟨m, u, h⟩

theorem CallerStep.reachable {m'} (h : Reachable C w m u)
    (step : CallerStep C w m w' m') : Reachable C w' m' u := by
  cases step with
  | same step => exact h.main step
  | next rests step => exact (h.rest rests).main step

theorem Tracks.call (h : Tracks C s m u) (op : Op R) :
    ∃ m u, Tracks C (s.step C (.call op)) m u := by
  unfold Session.step
  dsimp only
  split
  · rename_i free
    have idle : s.idle = true := by simp_all
    split
    · rename_i starts down
      have caller := h.caller
      rw [Session.CallerAt, down] at caller
      obtain ⟨rfl, _⟩ := caller
      exact settle (m := .down) ⟨h.reachable, Op.opening_follows op starts, h.uploader⟩
    · rename_i serves serving
      have rests : m.Rests := by
        have caller := h.caller
        rw [Session.CallerAt, serving] at caller
        rw [Session.idle] at idle
        split at idle
        · rename_i ended
          rw [ended] at caller
          exact caller
        · contradiction
      refine ⟨.serving [], u, h.reachable.rest rests, ?_, h.uploader⟩
      rw [Session.CallerAt, serving]
      exact Op.program_follows op serves
    · exact ⟨m, u, h⟩
  · exact ⟨m, u, h⟩

theorem Tracks.main (h : Tracks C s m u) (o : Outcome) :
    ∃ m u, Tracks C (s.step C (.main o)) m u := by
  unfold Session.step
  dsimp only
  split
  · rename_i w p stepped
    have caller := h.caller
    unfold Session.CallerAt at caller
    split at caller
    · obtain ⟨_, idle⟩ := caller
      rw [Session.idle] at idle
      split at idle
      · rename_i ended
        simp [ended, Prog.step] at stepped
      · contradiction
    · rename_i opening
      obtain ⟨m', step, next⟩ := caller.step stepped
      refine settle (m := m') ⟨step.reachable h.reachable, ?_, h.uploader⟩
      rw [Session.CallerAt, opening]
      exact next
    · rename_i serving
      obtain ⟨m', step, next⟩ := caller.step stepped
      refine settle (m := m') ⟨step.reachable h.reachable, ?_, h.uploader⟩
      rw [Session.CallerAt, serving]
      exact next
  · exact ⟨m, u, h⟩

theorem Tracks.upload (h : Tracks C s m u) (o : Outcome) :
    ∃ m u, Tracks C (s.step C (.upload o)) m u := by
  unfold Session.step
  have uploader := h.uploader
  unfold Session.UploaderAt at uploader
  dsimp only
  split
  · rename_i p running
    rw [running] at uploader
    split
    · rename_i w a stepped
      obtain ⟨u', step, ended⟩ := uploader.step stepped
      exact ⟨m, u', h.reachable.upload step, h.caller, ended⟩
    · rename_i w f k stepped
      obtain ⟨u', step, next⟩ := uploader.step stepped
      exact ⟨m, u', h.reachable.upload step, h.caller, next⟩
    · exact ⟨m, u, h⟩
  · rename_i free
    rw [free] at uploader
    cases uploader
    split
    · exact ⟨m, .idle, h⟩
    · rename_i job rest queued
      exact ⟨m, _, h.reachable.receive queued, h.caller, uploadJob_follows C job⟩

theorem runFrom_tracks (schedule : List (Label R)) : ∃ m u, Tracks C (runFrom C schedule) m u := by
  induction schedule using reverseRecOn with
  | nil => exact ⟨.down, .idle, .initial, ⟨rfl, rfl⟩, rfl⟩
  | append_singleton schedule label ih =>
    obtain ⟨m, u, h⟩ := ih
    rw [runFrom, Session.run, foldl_append, foldl_cons, foldl_nil]
    cases label with
    | call op => exact h.call op
    | main o => exact h.main o
    | upload o => exact h.upload o
    | stop loseDisk => exact ⟨_, _, h.halt loseDisk⟩

end Sessions

end Ehdb.Proof
