import Ehdb.Proof.Reference.Reclaiming

/-! What holds in every run of a process that opens a directory and makes calls on the store, with
stops anywhere: the directory is sound, and the log in it has kept what the answers promise. -/

namespace Ehdb.Proof.Reference

open Ehdb.Reference DurableSegmentStore ProofKit List

variable {E : StoreEnv} {c : Contents} {d d' : Dir} {L L' : Layout} {s s' : DurableSegmentStore}

def writesFrame : StoreCall → Bool
  | .append _ => true
  | .tail _ => true
  | .ack _ => true
  | _ => false

/-- Where steps may fail, a call that writes has to find the store in step with its files. What a
reclaim leaves when a step of it fails is not considered. -/
def Ready (E : StoreEnv) (h : StoreHost) (call : StoreCall) : Prop :=
  E.mayFail = true → isReclaim call = false ∧
    (writesFrame call = true → ∀ s ∈ h.memory, Aligned s h.disk)

theorem Loaded.honours (h : Loaded E d L s s' d' L') (steady : Steady E d L s) {call a}
    (none : effectsOf (.answered call (.ok a)) = [])
    (no_event : appendedBy (.answered call (.ok a)) = Option.none) :
    Honours E (contentsOf d L) call s a s' d' L' := by
  refine ⟨h.leaves steady, ?_, ?_⟩
  · rw [none]
    exact nofun
  · rw [no_event]
    exact nofun

theorem Reclaiming.follow {policy} (numbered : c.Numbered)
    (h : Reclaiming E c L policy d') : Follow E true c d' := by
  obtain ⟨L', k, sound, reclaims, acked, -⟩ := h
  exact ⟨L', sound, reclaims.grows numbered acked, reclaims.rooted, nofun⟩

theorem does_storeTask (sound : Sound E d L) (known : Known E d L s) (steady : Steady E d L s)
    {call} (ready : Ready E ⟨d, some s⟩ call) :
    Does (Follow E (isReclaim call) (contentsOf d L)) (storeTask E call) s
      (fun a s' d' => ∃ L', Honours E (contentsOf d L) call s a s' d' L')
      (fun _ s' d' => Left E (isReclaim call) (contentsOf d L) s s' d') d := by
  have writes (writing : writesFrame call = true) :=
    known.ready steady fun faulty => (ready faulty).2 writing s rfl
  cases call with
  | openStore => exact Does.pure ⟨L, .refl sound known steady, nofun, nofun⟩
  | append req =>
    have current := writes rfl
    refine .bind ((does_append sound current steady req).mono (fun _ => id) ?_
      fun _ _ _ => Refuses.left sound known steady)
    rintro _ s' d' ⟨rfl, L', recorded⟩
    exact .pure ⟨L', recorded.append current⟩
  | scan req =>
    refine .bind ((does_scanGlobal sound known req).mono (fun _ => Keeps.follow) ?_ ?_)
    · rintro a s' d' ⟨L', loaded, -⟩
      exact .pure ⟨L', loaded.honours steady rfl rfl⟩
    · rintro e s' d' (⟨-, left⟩ | ⟨L', loaded, -⟩)
      · exact left
      · exact ⟨L', loaded.leaves steady⟩
  | readExecution req =>
    refine .bind ((does_readExecution sound known steady req).mono (fun _ => Keeps.follow) ?_ ?_)
    · rintro a s' d' ⟨L', loaded, -⟩
      exact .pure ⟨L', loaded.honours steady rfl rfl⟩
    · exact fun _ _ _ failed => failed.1
  | tail req =>
    have current := writes rfl
    refine .bind ((does_tail sound current steady req).mono (fun _ => id) ?_
      fun _ _ _ failed => failed.1)
    rintro a s' d' ⟨-, L', honours, -⟩
    exact .pure ⟨L', honours⟩
  | ack req =>
    have current := writes rfl
    refine .bind ((does_ack sound current steady req).mono (fun _ => id) ?_
      fun _ _ _ => Refuses.left sound known steady)
    rintro _ s' d' ⟨rfl, L', recorded⟩
    exact .pure ⟨L', recorded.ack⟩
  | reclaim policy =>
    have faultless : E.mayFail = false := by
      cases faulty : E.mayFail with
      | true => cases (ready faulty).1
      | false => rfl
    refine .bind ((does_reclaimSegments sound known steady faultless policy).mono
      (fun _ => Reclaiming.follow sound.numbered) ?_ fun _ _ _ => False.elim)
    rintro a s' d' ⟨L', honours, -⟩
    exact .pure ⟨L', honours⟩

def reclaimIn : Fate StoreCall (Result StoreAnswer) → Bool
  | .answered call _ => isReclaim call
  | .stopped (some call) => isReclaim call
  | .stopped none => false

/-- The layout `L` of the directory, and the log in it, after the calls of `past`. -/
structure Holding (E : StoreEnv) (past : List (Fate StoreCall (Result StoreAnswer))) (h : StoreHost)
    (L : Layout) : Prop where
  sound : Sound E h.disk L
  rooted : (contentsOf h.disk L).Rooted
  whole : (∀ fate ∈ past, reclaimIn fate = false) → (contentsOf h.disk L).base = 0
  kept : Kept past (contentsOf h.disk L)
  known : ∀ s ∈ h.memory, Known E h.disk L s
  steady : ∀ s ∈ h.memory, Steady E h.disk L s
  served : ∀ s ∈ h.memory, s.indexLoaded = true →
    ∀ view ∈ appendedIn past, view.globalSequence ≤ s.eventCount

def Runs (E : StoreEnv) (past : List (Fate StoreCall (Result StoreAnswer))) (h : StoreHost) :
    Prop :=
  ∃ L, Holding E past h L

section

variable {past : List (Fate StoreCall (Result StoreAnswer))} {h : StoreHost} {call : StoreCall}

theorem appendedIn_append (past more : List (Fate StoreCall (Result StoreAnswer))) :
    appendedIn (past ++ more) = appendedIn past ++ appendedIn more := filterMap_append

theorem Holding.whole_append (holding : Holding E past h L) {fate}
    (base : reclaimIn fate = false → (contentsOf d' L').base = (contentsOf h.disk L).base) :
    (∀ other ∈ past ++ [fate], reclaimIn other = false) → (contentsOf d' L').base = 0 := by
  intro none
  rw [base (none fate (by simp))]
  exact holding.whole fun other mem => none other (mem_append_left _ mem)

theorem Holding.stopped (holding : Holding E past h L) (req : Option StoreCall)
    (follow : Follow E (reclaimIn (.stopped req)) (contentsOf h.disk L) d') :
    Runs E (past ++ [.stopped req]) ⟨d', none⟩ := by
  obtain ⟨L', sound, grows, rooted, base⟩ := follow
  exact ⟨L', sound, rooted holding.rooted, holding.whole_append base,
    holding.kept.grows holding.sound.numbered grows nofun nofun,
    nofun, nofun, nofun⟩

theorem effectsOf_error (call : StoreCall) (e : EhdbError) :
    effectsOf (.answered call (.error e)) = [] ∧ appendedBy (.answered call (.error e)) = none := by
  cases call <;> exact ⟨rfl, rfl⟩

section

variable (holding : Holding E past h L)

include holding

/-- The log after an answered call, whatever the answer was. -/
theorem Holding.goes_on (is : h.memory = some s) {r}
    (leaves : Leaves E (isReclaim call) (contentsOf h.disk L) s s' d' L')
    (kept : Kept (past ++ [.answered call r]) (contentsOf d' L'))
    (fresh : ∀ view, appendedBy (.answered call r) = some view → s'.indexLoaded = true →
      view.globalSequence ≤ s'.eventCount) : Runs E (past ++ [.answered call r]) ⟨d', some s'⟩ := by
  refine ⟨L', leaves.sound, leaves.rooted holding.rooted, holding.whole_append leaves.base, kept,
    ?_, ?_, ?_⟩
  · rintro _ ⟨⟩
    exact leaves.known
  · rintro _ ⟨⟩
    exact leaves.steady
  · rintro _ ⟨⟩ loaded view mem
    rw [appendedIn_append, mem_append] at mem
    rcases mem with old | new
    · rcases leaves.serving loaded with all | ⟨before, le⟩
      · exact (holding.kept.le_tip holding.sound.numbered old).trans all
      · exact (holding.served s is before view old).trans le
    · obtain ⟨_, last, is⟩ := mem_filterMap.1 new
      rw [mem_singleton.1 last] at is
      exact fresh view is loaded

theorem Holding.failed (is : h.memory = some s)
    (left : Left E (isReclaim call) (contentsOf h.disk L) s s' d') (e : EhdbError) :
    Runs E (past ++ [.answered call (.error e)]) ⟨d', some s'⟩ := by
  obtain ⟨L', leaves⟩ := left
  obtain ⟨none, no_event⟩ := effectsOf_error call e
  refine holding.goes_on is leaves (holding.kept.grows holding.sound.numbered leaves.grows ?_ ?_) ?_
  · rw [none]
    exact nofun
  all_goals
    rw [no_event]
    exact nofun

theorem Holding.answered (is : h.memory = some s) {a}
    (honours : Honours E (contentsOf h.disk L) call s a s' d' L') :
    Runs E (past ++ [.answered call (.ok a)]) ⟨d', some s'⟩ := by
  obtain ⟨leaves, effects, fresh⟩ := honours
  exact holding.goes_on is leaves (holding.kept.grows holding.sound.numbered leaves.grows effects
    fun view is => (fresh view is).1) fun view is => (fresh view is).2

theorem Holding.mem_views (none : ∀ fate ∈ past, reclaimIn fate = false)
    {view} (mem : view ∈ appendedIn past) : view ∈ (contentsOf h.disk L).views := by
  rcases holding.kept.event_in mem with gone | here
  · have := holding.kept.positive view mem
    rw [holding.whole none] at gone
    omega
  · exact here

theorem Holding.opens (sized : 0 < E.segmentMaxBytes) :
    Safely (fun d' => Runs E (past ++ [.stopped (some .openStore)]) ⟨d', none⟩) (openDir E)
      (fun r d' => Runs E (past ++ [.answered .openStore r.1]) ⟨d', r.2⟩) h.disk := by
  refine .bind (Safely.mono (does_openInner holding.sound sized) ?_ ?_)
  · exact fun d' kept => holding.stopped _ kept.follow
  · rintro ⟨res, s'⟩ d' ends
    cases res with
    | ok _ =>
      obtain ⟨sound, same, current, ends, -⟩ := ends
      refine ⟨_, sound, same ▸ holding.rooted, holding.whole_append fun _ => by rw [same], ?_, ?_,
        ?_, ?_⟩
      · exact holding.kept.grows holding.sound.numbered (same ▸ .refl _) nofun nofun
      · rintro _ ⟨⟩
        exact current.known
      · rintro _ ⟨⟩ _
        exact ⟨current, ends⟩
      · rintro _ ⟨⟩ _ view mem
        rw [appendedIn_append, mem_append] at mem
        rcases mem with old | new
        · rw [current.count, same]
          exact holding.kept.le_tip holding.sound.numbered old
        · cases new
    | error e =>
      obtain ⟨-, L', sound, same⟩ := ends
      refine ⟨L', sound, same ▸ holding.rooted, holding.whole_append fun _ => by rw [same], ?_,
        nofun, nofun, nofun⟩
      exact holding.kept.grows holding.sound.numbered (same ▸ .refl _) nofun nofun

end

end

theorem storeThread_keeps (sized : 0 < E.segmentMaxBytes) :
    (storeThread E).Keeps (Ready E) (Runs E) := by
  refine hostThread_keeps ?_ ?_
  · rintro past ⟨d, memory⟩ call ⟨L, holding⟩ ready
    cases memory with
    | none =>
      cases call with
      | openStore => exact holding.opens sized
      | _ =>
        refine ⟨L, holding.sound, holding.rooted, holding.whole_append fun _ => rfl, ?_, nofun,
          nofun, nofun⟩
        exact holding.kept.grows holding.sound.numbered (.refl _) nofun nofun
    | some s =>
      have served (call : StoreCall) (ready : Ready E ⟨d, some s⟩ call) :
          Safely (fun d' => Runs E (past ++ [.stopped (some call)]) ⟨d', none⟩)
            (((storeTask E call).exec s).bind fun r => .ret (r.1, some r.2))
            (fun r d' => Runs E (past ++ [.answered call r.1]) ⟨d', r.2⟩) d := by
        refine .bind (Safely.mono (does_storeTask holding.sound (holding.known s rfl)
          (holding.steady s rfl) ready)
          (fun d' follow => holding.stopped _ follow) ?_)
        rintro ⟨res, s'⟩ d' ends
        cases res with
        | ok a =>
          obtain ⟨L', honours⟩ := ends
          exact holding.answered rfl honours
        | error e => exact holding.failed rfl ends e
      cases call with
      | openStore => exact holding.opens sized
      | append req => exact served _ ready
      | scan req => exact served _ ready
      | readExecution req => exact served _ ready
      | tail req => exact served _ ready
      | ack req => exact served _ ready
      | reclaim policy => exact served _ ready
  · rintro past ⟨d, memory⟩ req ⟨L, holding⟩
    exact holding.stopped req ⟨L, holding.sound, .refl _, id, fun _ => rfl⟩

theorem runs_newHost (E : StoreEnv) : Runs E [] newHost :=
  ⟨[], sound_empty E, rfl, fun _ => rfl, ⟨by simp, .nil, nofun⟩, nofun, nofun, nofun⟩

section

variable {deeds : List (Deed IoOutcome StoreCall)}

theorem runStore_holds (sized : 0 < E.segmentMaxBytes)
    (along : (Solo.start newHost).Along (storeThread E) (Ready E) deeds) :
    (runStore E deeds).Holds (storeThread E) (Runs E) :=
  Solo.keeps (storeThread_keeps sized) (runs_newHost E) along

theorem along_ready (faultless : E.mayFail = false) (x : StoreRun) :
    x.Along (storeThread E) (Ready E) deeds := by
  induction deeds generalizing x with
  | nil => trivial
  | cons d deeds ih =>
    refine ⟨?_, ih _⟩
    cases d with
    | call req => exact fun _ faulty => absurd faulty (by simp [faultless])
    | act o => trivial
    | stop => trivial

theorem holding_disk {x : StoreRun} (h : x.Holds (storeThread E) (Runs E)) :
    ∃ L, Holding E x.fates ⟨x.state.disk, none⟩ L := by
  obtain ⟨state, current, past⟩ := x
  cases current with
  | none =>
    obtain ⟨L, holding⟩ := h
    exact ⟨L, holding.sound, holding.rooted, holding.whole, holding.kept, nofun, nofun, nofun⟩
  | some under_way => exact h.1

theorem appendedIn_fates (x : StoreRun) : appendedIn x.fates = appendedIn x.past := by
  obtain ⟨state, current, past⟩ := x
  cases current with
  | none => rfl
  | some under_way => exact (appendedIn_append _ _).trans (append_nil _)

theorem no_reclaims (none : ∀ policy, .call (.reclaim policy) ∉ deeds) :
    ∀ fate ∈ (runStore E deeds).fates, reclaimIn fate = false := by
  have about : ∀ fate ∈ (runStore E deeds).fates, fate.About fun call =>
      isReclaim call = false := by
    refine Solo.fates_run (x := .start newHost) (fun _ mem => nomatch mem) fun call mem => ?_
    cases call with
    | reclaim policy => exact absurd mem (none policy)
    | _ => rfl
  intro fate mem
  have is := about fate mem
  cases fate with
  | answered call a => exact is
  | stopped req =>
    cases req with
    | none => rfl
    | some call => exact is

end

section Total

variable (E : StoreEnv)

theorem total_readDir : (readDir).Total (.ok 0) := .file fun _ => ⟨_, rfl⟩

theorem total_diskStep (effect : Dir → Dir) : (diskStep E effect).Total (.ok 0) :=
  .file fun _ => ⟨_, rfl⟩

theorem total_writeAll (id : Nat) (bytes : Bytes) : (writeAll E id bytes).Total (.ok 0) :=
  .bind (.file fun _ => ⟨_, rfl⟩) fun _ => .file fun _ => ⟨_, rfl⟩

theorem total_persistCheckpoint : (persistCheckpoint E).Total (.ok 0) :=
  .bind (.compute _) fun _ =>
    .ite (.pure _) (.bind (total_diskStep E _) fun _ => total_diskStep E _)

theorem total_removeThrough (segment : Nat) : (removeThrough E segment).Total (.ok 0) :=
  .bind total_readDir fun _ => .each (fun _ => .ite (total_diskStep E _) (.pure _)) _

theorem total_replayLive (id : Nat) : (replayLive E id).Total (.ok 0) := by
  refine .bind total_readDir fun d => .bind (.compute _) fun _ => .bind ?_ fun _ => .compute _
  exact .ite (.bind (.compute _) fun _ => .bind (.compute _) fun _ => .ite (.pure _)
    (.bind (total_diskStep E _) fun _ => total_diskStep E _)) (.pure _)

theorem total_replay : (replay E).Total (.ok 0) := by
  refine .bind (.compute _) fun _ => .bind total_readDir fun _ => .bind (.compute _) fun _ =>
    .bind (.each (fun id => .ite ?_ (total_replayLive E id)) _) fun _ => .compute _
  exact .bind (.compute _) fun _ => .ite (.pure _) (total_diskStep E _)

theorem total_ensureIndexLoaded : (ensureIndexLoaded E).Total (.ok 0) :=
  .bind (.compute _) fun _ => .ite (.pure _) (.bind (total_replay E) fun _ => .compute _)

theorem total_openReplaying : (openReplaying E).Total (.ok 0) :=
  .bind (total_replay E) fun _ => .bind (.compute _) fun _ => total_persistCheckpoint E

theorem total_openTrusting (c : StoreCheckpoint) : (openTrusting E c).Total (.ok 0) :=
  .bind (.compute _) fun _ => .bind total_readDir fun _ => .bind (.compute _) fun _ =>
    .bind (.bind (.compute _) fun _ => .ite (.pure _) (total_removeThrough E _)) fun _ => .compute _

theorem total_openInner (readOnly : Bool) : (openInner E readOnly).Total (.ok 0) := by
  refine .ite (.compute _) (.ite (.bind (total_replay E) fun _ => .compute _) ?_)
  refine .bind (total_diskStep E _) fun _ => .bind total_readDir fun d => ?_
  cases d.checkpoint with
  | some c => exact .ite (total_openTrusting E c) (total_openReplaying E)
  | none => exact total_openReplaying E

theorem total_writeFrame (frame : SegmentFrame) : (writeFrame E frame).Total (.ok 0) := by
  refine .bind (.compute _) fun _ => .ite (.compute _) (.ite (.compute _) ?_)
  refine .bind (.compute _) fun _ => .bind ?_ fun _ => .bind (.compute _) fun _ => .pure _
  exact .bind (total_diskStep E _) fun _ => .bind (total_writeAll E _ _) fun _ =>
    .bind (total_writeAll E _ _) fun _ => total_diskStep E _

theorem total_tail (req : EventLogTailRequest) : (tail E req).Total (.ok 0) := by
  refine .bind (.compute _) fun _ => .bind (total_ensureIndexLoaded E) fun _ =>
    .bind (.compute _) fun _ => .ite (.pure _) (.bind (.bind (.compute _) fun _ => ?_) fun _ =>
      .bind (.compute _) fun _ => .bind total_readDir fun _ => .compute _)
  exact .ite (.pure _) (.bind (total_writeFrame E _) fun _ => .bind (.compute _) fun _ =>
    .bind (total_persistCheckpoint E) fun _ => .pure _)

theorem total_applyReclaim (plan : ReclaimPlan) : (applyReclaim E plan).Total (.ok 0) :=
  .bind (.compute _) fun _ =>
    .bind (.each (fun _ => .bind (total_writeFrame E _) fun _ => .pure _) _)
    fun _ => .bind (.bind (total_diskStep E _) fun _ => total_diskStep E _) fun _ =>
      .bind (total_removeThrough E _) fun _ => .bind (total_replay E) fun _ =>
        total_persistCheckpoint E

theorem total_reclaimSegments (policy : SegmentGcPolicy) :
    (reclaimSegments E policy).Total (.ok 0) := by
  refine .bind (.compute _) fun _ =>
    .ite (.compute _) (.ite (.bind total_readDir fun _ => .pure _) ?_)
  refine .bind (total_ensureIndexLoaded E) fun _ => .bind (.compute _) fun s =>
    .bind total_readDir fun d => ?_
  cases s.planReclaim policy d.segmentIds.length with
  | nothing watermark note => exact .pure _
  | reclaim plan =>
    exact .bind (total_applyReclaim E plan) fun _ => .bind (.compute _) fun _ =>
      .bind total_readDir fun _ => .pure _

theorem total_storeTask (call : StoreCall) : (storeTask E call).Total (.ok 0) := by
  cases call with
  | openStore => exact .pure _
  | append req | ack req =>
    exact .bind (.bind (.compute _) fun _ => .bind (.compute _) fun _ =>
      .bind (total_writeFrame E _) fun _ => .bind (.compute _) fun _ =>
        .bind (total_persistCheckpoint E) fun _ => .pure _) fun _ => .pure _
  | scan req =>
    exact .bind (.bind (total_ensureIndexLoaded E) fun _ => .bind (.compute _) fun _ =>
      .bind total_readDir fun _ => .compute _) fun _ => .pure _
  | readExecution req =>
    exact .bind (.bind (.compute _) fun _ => .bind (total_ensureIndexLoaded E) fun _ =>
      .bind (.compute _) fun _ => .bind total_readDir fun _ => .compute _) fun _ => .pure _
  | tail req => exact .bind (total_tail E req) fun _ => .pure _
  | reclaim policy => exact .bind (total_reclaimSegments E policy) fun _ => .pure _

end Total

section

variable {E : StoreEnv} {d d' : Dir} {L L' : Layout} {s s' : DurableSegmentStore}

theorem Sound.with_mayFail (h : Sound E d L) (mayFail : Bool) :
    Sound { E with mayFail := mayFail } d L :=
  ⟨h.lays, h.positive, h.whole, h.above, h.numbered, h.checkpoint, h.filled⟩

theorem Sound.calm (h : Sound E d L) : Sound E.calm d L := h.with_mayFail false

theorem Current.calm (h : Current E d L s) : Current E.calm d L s := h.persist false d.checkpoint

theorem Known.calm (h : Known E d L s) : Known E.calm d L s :=
  ⟨h.writable, h.live, fun aligned => (h.current aligned).calm, fun loaded =>
    ⟨(h.serves loaded).base, (h.serves loaded).known⟩⟩

theorem Opened.of_calm (h : Opened E.calm d L s d') : Opened E d L s d' :=
  ⟨h.sound.with_mayFail E.mayFail, h.contents, h.current.persist E.mayFail d'.checkpoint, h.ends,
    h.reclaim, h.torn, h.unloaded⟩

theorem answerOf_open (sound : Sound E d L) (sized : 0 < E.segmentMaxBytes)
    (memory : Option DurableSegmentStore) :
    ∃ s' d', answerOf E .openStore ⟨d, memory⟩ = some (.ok .opened, ⟨d', some s'⟩) ∧
      Opened E d L s' d' := by
  obtain ⟨⟨res, s'⟩, d', is, ends⟩ := (does_openInner sound.calm sized).eval
    (total_openInner E.calm false)
  cases res with
  | ok _ =>
    refine ⟨s', d', ?_, Opened.of_calm ends⟩
    rw [answerOf, serveStore, openDir, Prog.eval_bind is]
    rfl
  | error e => cases ends.1

theorem answerOf_task {α I t ok err}
    (call : StoreCall) (f : α → StoreAnswer) (not_open : call ≠ .openStore)
    (task : storeTask E.calm call = t >>= fun a => pure (f a)) (does : Does I t s ok err d) :
    (∃ a s' d', answerOf E call ⟨d, some s⟩ = some (.ok (f a), ⟨d', some s'⟩) ∧ ok a s' d') ∨
      ∃ e s' d', answerOf E call ⟨d, some s⟩ = some (.error e, ⟨d', some s'⟩) ∧ err e s' d' := by
  have answers : Does I (storeTask E.calm call) s
      (fun a s' d' => ∃ b, a = f b ∧ ok b s' d') err d := by
    rw [task]
    exact .bind (does.mono (fun _ => id) (fun b _ _ done => .pure ⟨b, rfl, done⟩)
      fun _ _ _ => id)
  obtain ⟨⟨res, s'⟩, d', is, ends⟩ := answers.eval (total_storeTask E.calm call)
  have serves : serveStore E.calm call (some s) =
      ((storeTask E.calm call).exec s).bind fun r => .ret (r.1, some r.2) := by
    cases call with
    | openStore => exact absurd rfl not_open
    | _ => rfl
  have answer : answerOf E call ⟨d, some s⟩ = some (res, ⟨d', some s'⟩) := by
    rw [answerOf, serves, Prog.eval_bind is]
    rfl
  cases res with
  | ok a =>
    obtain ⟨b, rfl, done⟩ := ends
    exact .inl ⟨b, s', d', answer, done⟩
  | error e => exact .inr ⟨e, s', d', answer, ends⟩

def Contents.answer (E : StoreEnv) (c : Contents) (torn : Nat) :
    StoreCall → Option (Result StoreAnswer)
  | .scan request => some ((c.scanResult torn request).map .scanned)
  | .readExecution request => some ((c.readExecutionResult E torn request).map .read)
  | .tail request => some ((c.tailResult E request).map .tailed)
  | _ => none

/-- The answer of a store that is in step with its files is about all of the log. -/
theorem Scanned.whole {req result s' d'} (scanned : Scanned E d L s req result s' d')
    (current : Current E d L s) : (contentsOf d L).scanResult
      (if s.indexLoaded then s.tornTailSkipped else tornIn d L) req = result := by
  obtain ⟨L', loaded, k, bound, count, is⟩ := scanned
  have all : k = (contentsOf d L).views.length := by
    have tip := (loaded.current current).count
    rw [count, loaded.same, Contents.tip] at tip
    omega
  rwa [all, Contents.first_length, loaded.torn] at is

theorem answerOf_reading (sound : Sound E d L) (current : Current E d L s)
    (ends : endOf E.codec L = (s.activeSegmentId, s.activeLen)) {torn}
    (skipped : (if s.indexLoaded then s.tornTailSkipped else tornIn d L) = torn) {call r}
    (is : (contentsOf d L).answer E torn call = some r) :
    ∃ h, answerOf E call ⟨d, some s⟩ = some (r, h) := by
  have steady : Steady E.calm d L s := fun _ => ⟨current.calm, ends⟩
  cases call with
  | scan req =>
    cases is
    obtain ⟨a, s', d', answer, scanned⟩ | ⟨e, s', d', answer, ⟨faulty, -⟩ | scanned⟩ :=
      answerOf_task (.scan req) .scanned (fun is => by cases is) rfl
        (does_scanGlobal sound.calm current.calm.known req)
    · exact ⟨_, answer.trans (by rw [← skipped, scanned.whole current.calm]; rfl)⟩
    · cases faulty
    · exact ⟨_, answer.trans (by rw [← skipped, scanned.whole current.calm]; rfl)⟩
  | readExecution req =>
    cases is
    obtain ⟨a, s', d', answer, L', loaded, read⟩ | ⟨e, s', d', answer, -, faulty | refused⟩ :=
      answerOf_task (.readExecution req) .read (fun is => by cases is) rfl
        (does_readExecution sound.calm current.calm.known steady req)
    · have result := read (loaded.current current.calm)
      rw [loaded.torn, skipped] at result
      exact ⟨_, answer.trans (by
        rw [show Contents.readExecutionResult E _ _ _ = _ from result]; rfl)⟩
    · cases faulty
    · exact ⟨_, answer.trans (by
        rw [show Contents.readExecutionResult E _ _ _ = _ from refused torn]; rfl)⟩
  | tail req =>
    cases is
    obtain ⟨a, s', d', answer, result, -⟩ | ⟨e, s', d', answer, -, faulty | refused⟩ :=
      answerOf_task (.tail req) .tailed (fun is => by cases is) rfl
        (does_tail sound.calm current.calm steady req)
    · exact ⟨_, answer.trans (by rw [show Contents.tailResult E _ _ = _ from result]; rfl)⟩
    · cases faulty
    · exact ⟨_, answer.trans (by rw [show Contents.tailResult E _ _ = _ from refused]; rfl)⟩
  | openStore => cases is
  | append req => cases is
  | ack req => cases is
  | reclaim policy => cases is

end

end Ehdb.Proof.Reference
