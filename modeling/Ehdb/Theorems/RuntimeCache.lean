import Ehdb.Proof.Reference.RuntimeCache
import Ehdb.Theorems.EventLog

/-! When the threads of a process keep the file of a log whole. -/

namespace Ehdb.Theorems

open ProofKit Ehdb.Reference Ehdb.Proof.Reference Transaction
open LocalReferenceRuntime (append appendBatch openRuntime)

variable {O D : Type}

def runThreads (G : Engines O D) (cacheOn : Bool) (file : LogFile O)
    (moves : List (Move Unit (RuntimeCall O D) Empty)) : RuntimeTable O D :=
  ((Pool.start (.new file)).run (runtimeService G cacheOn) moves).shared

/-- From a file that opens, in every interleaving of calls in which no runtime is opened while a
call has one: the file opens if the lines of the returned records are read back, it is what it was
and every record that was returned, once and in order, and its records are numbered one after the
other. -/
theorem shared_log_stays_whole (G : Engines O D) (cacheOn : Bool) (file : LogFile O)
    (moves : List (Move Unit (RuntimeCall O D) Empty)) (opens : (openRuntime G file).isOk = true)
    (calm : (runThreads G cacheOn file moves).overlapped = false) :
    ((∀ record ∈ (runThreads G cacheOn file moves).returned, ReadsBack G record.mutations) →
      (openRuntime G (runThreads G cacheOn file moves).file).isOk = true) ∧
      (runThreads G cacheOn file moves).file = file ++ (runThreads G cacheOn file moves).returned ∧
      ((runThreads G cacheOn file moves).file.map TransactionRecord.transactionId).Nodup ∧
      (runThreads G cacheOn file moves).file.map TransactionRecord.sequence =
        List.range' 1 (runThreads G cacheOn file moves).file.length := by
  have opens : ∃ runtime, openRuntime G file = .ok runtime := by
    cases is : openRuntime G file with
    | ok runtime => exact ⟨runtime, rfl⟩
    | error e =>
      rw [is] at opens
      cases opens
  obtain ⟨runtime, opens⟩ := opens
  obtain ⟨readable, replays⟩ := openRuntime_iff.1 opens
  obtain ⟨ls, tracks⟩ := Pool.run_tracks (runtimeService G cacheOn) (runtimeProtocol G cacheOn)
    follows_runtime (.new file) moves
  have nobody : ∀ slot, ¬InUse (.new file : RuntimeTable O D) slot := by
    rintro slot (cached | ⟨i, mem⟩)
    · cases cached
    · cases mem
  have fresh : Orderly G cacheOn file (.new file) :=
    ⟨(List.append_nil _).symm, ⟨runtime, replays, fun slot uses => absurd uses (nobody slot)⟩,
      fun slot _ uses => absurd uses (nobody slot), fun _ => rfl⟩
  have orderly := (keeps_runtime.reach tracks.reach calm fresh).1
  obtain ⟨runtime', replays', -⟩ := orderly.live
  refine ⟨fun returned => ?_, orderly.file, (Proof.Journal.replay_of_inserted replays'.log).2.2.2,
    (Proof.Journal.sequences_of_inserted replays'.log).1⟩
  have all : ∀ record ∈ (runThreads G cacheOn file moves).file, ReadsBack G record.mutations := by
    intro record mem
    rw [show (runThreads G cacheOn file moves).file = _ from orderly.file] at mem
    rcases List.mem_append.1 mem with old | new
    · exact readable record old
    · exact returned record new
  rw [show openRuntime G (runThreads G cacheOn file moves).file = _ from
    openRuntime_iff.2 ⟨all, replays'⟩]
  rfl

def createsStream (transactionId stream : String) : RuntimeCall Empty Unit :=
  .withRuntime (.append ⟨transactionId, "tenant", "ns", [.stream (.createStream stream .keepAll)]⟩
    fun _ => .done)

def goOn (i n : Nat) : List (Move Unit (RuntimeCall Empty Unit) Empty) :=
  List.replicate n (.act i ())

def forgottenBetween : List (Move Unit (RuntimeCall Empty Unit) Empty) :=
  [.call (createsStream "tx-1" "a")] ++ goOn 0 4 ++ [.call .forgetRuntime] ++ goOn 1 1 ++
    [.call (createsStream "tx-2" "b")] ++ goOn 2 4

theorem log_stays_whole_around_forget :
    ((runThreads noEngines true [] forgottenBetween).file.map TransactionRecord.sequence) =
      List.range' 1 (runThreads noEngines true [] forgottenBetween).file.length :=
  (shared_log_stays_whole noEngines true [] forgottenBetween (by decide)
    (by decide)).2.2.2

def bothOpen : List (Move Unit (RuntimeCall Empty Unit) Empty) :=
  [.call (createsStream "tx-1" "a"), .call (createsStream "tx-2" "b")] ++ goOn 0 1 ++ goOn 1 1 ++
    goOn 0 3 ++ goOn 1 3

/-- The runtime of a call is forgotten before it appends, and another call opens the file. -/
def forgottenInUse : List (Move Unit (RuntimeCall Empty Unit) Empty) :=
  [.call (createsStream "tx-1" "a"), .call .forgetRuntime, .call (createsStream "tx-2" "b")] ++
    goOn 0 1 ++ goOn 1 1 ++ goOn 2 1 ++ goOn 0 3 ++ goOn 2 3

/-- Both appends return Ok with sequence 1, and the file does not open any more. -/
theorem two_runtimes_corrupt_the_log :
    ((runThreads noEngines false [] bothOpen).returned.map fun record =>
      (record.sequence, record.transactionId)) = [(1, "tx-1"), (1, "tx-2")] ∧ (openRuntime noEngines
      (runThreads noEngines false [] bothOpen).file).isOk = false ∧
    ((runThreads noEngines true [] forgottenInUse).returned.map fun record =>
      (record.sequence, record.transactionId)) = [(1, "tx-1"), (1, "tx-2")] ∧ (openRuntime noEngines
      (runThreads noEngines true [] forgottenInUse).file).isOk = false := by
  decide

inductive CommitCall (O : Type) where
  | append (request : CommitTransaction (Mutation O))
  | appendBatch (requests : List (CommitTransaction (Mutation O)))

def CommitCall.requests : CommitCall O → List (CommitTransaction (Mutation O))
  | .append request => [request]
  | .appendBatch requests => requests

/-- A call on the runtime, with the records that it returns. -/
def commit (G : Engines O D) (x : Session O D) :
    CommitCall O → Result (List (LogRecord O)) × Session O D
  | .append request => (x.call (append G request)).map (.map fun r => [r]) id
  | .appendBatch requests => x.call (appendBatch G requests)

variable {G : Engines O D}

theorem commit_cases (x : Session O D) (call : CommitCall O) :
    (∃ e, commit G x call = (.error e, x)) ∨
    ∃ records runtime, commit G x call = (.ok records, ⟨x.file ++ records, runtime⟩) ∧
      commitAll G x.runtime call.requests = .ok (records, runtime) := by
  cases call with
  | append req =>
    have done := outcome_append (G := G) x.runtime x.file req
    cases committed : commitOn G x.runtime req with
    | error e =>
      rw [committed] at done
      exact .inl ⟨e, by rw [commit, call_of_outcome done]; rfl⟩
    | ok result =>
      obtain ⟨record, runtime⟩ := result
      rw [committed] at done
      refine .inr ⟨[record], runtime, by rw [commit, call_of_outcome done]; rfl, ?_⟩
      simp only [CommitCall.requests, commitAll, committed]
      rfl
  | appendBatch requests =>
    by_cases none : requests = []
    · subst none
      exact .inr ⟨[], x.runtime, by rw [List.append_nil]; rfl, rfl⟩
    have done := outcome_appendBatch (G := G) x.runtime x.file none
    cases committed : commitBatchOn G x.runtime requests with
    | error e =>
      rw [committed] at done
      exact .inl ⟨e, call_of_outcome done⟩
    | ok result =>
      rw [committed] at done
      exact .inr ⟨_, _, call_of_outcome done, commitAll_of_batch committed⟩

theorem requests_of_commitAll {runtime : LocalReferenceRuntime O D} {requests result}
    (h : commitAll G runtime requests = .ok result) : result.1.map (fun record =>
      ⟨record.transactionId, record.tenant, record.namespaceName, record.mutations⟩) =
        requests := by
  induction requests generalizing runtime result with
  | nil =>
    cases h
    rfl
  | cons req requests ih =>
    obtain ⟨⟨record, next⟩, first, h⟩ := Proof.Journal.bind_eq_ok h
    obtain ⟨rest, others, h⟩ := Proof.Journal.bind_eq_ok h
    cases h
    obtain ⟨-, -, rfl⟩ := Proof.Journal.buildRecord_eq_ok (commitOn_eq_ok first).1
    exact congrArg (req :: ·) (ih others)

theorem replays_commit {x : Session O D} (replays : Replays G x.file x.runtime)
    (call : CommitCall O) :
    Replays G (commit G x call).2.file (commit G x call).2.runtime := by
  rcases commit_cases (G := G) x call with ⟨e, is⟩ | ⟨records, runtime, is, committed⟩
  · rwa [is]
  · rw [is]
    exact replays.takesAll (commitAll_takesAll committed)

theorem readable_commit {x : Session O D} {call : CommitCall O}
    (readable : ∀ record ∈ x.file, ReadsBack G record.mutations)
    (reads : ∀ req ∈ call.requests, ReadsBack G req.mutations) :
    ∀ record ∈ (commit G x call).2.file, ReadsBack G record.mutations := by
  rcases commit_cases (G := G) x call with ⟨e, is⟩ | ⟨records, runtime, is, committed⟩
  · rwa [is]
  · rw [is]
    intro record mem
    rcases List.mem_append.1 mem with old | new
    · exact readable record old
    · have asked := requests_of_commitAll committed
      exact reads _ (asked ▸ List.mem_map_of_mem new)

/-- From a session whose runtime is what its file opens to, after any calls the runtime is what the
file opens to exactly when each line of it is read back, and so it is when the mutations that were
asked for are; one more call fails and changes nothing, or all it was asked to commit is at the end
of the file. -/
theorem runtime_is_replay_of_log (G : Engines O D) (x : Session O D)
    (opened : openRuntime G x.file = .ok x.runtime)
    (calls : List (CommitCall O)) (call : CommitCall O) :
    let y := calls.foldl (fun x call => (commit G x call).2) x
    (openRuntime G y.file = .ok y.runtime ↔ ∀ record ∈ y.file, ReadsBack G record.mutations) ∧
    ((∀ call ∈ calls, ∀ req ∈ call.requests, ReadsBack G req.mutations) →
      openRuntime G y.file = .ok y.runtime) ∧
    match commit G y call with
      | (.error _, z) => z = y
      | (.ok records, z) => z.file = y.file ++ records ∧ records.map (fun record =>
        ⟨record.transactionId, record.tenant, record.namespaceName, record.mutations⟩) =
          call.requests := by
  intro y
  obtain ⟨readable, replays⟩ := openRuntime_iff.1 opened
  have replays' : Replays G y.file y.runtime :=
    calls.foldlRecOn (motive := fun y : Session O D => Replays G y.file y.runtime) _ replays
      fun _ now call _ => replays_commit now call
  refine ⟨?_, fun reads => openRuntime_iff.2 ⟨?_, replays'⟩, ?_⟩
  · rw [openRuntime_iff]
    exact ⟨And.left, fun all => ⟨all, replays'⟩⟩
  · exact calls.foldlRecOn
      (motive := fun y : Session O D => ∀ record ∈ y.file, ReadsBack G record.mutations) _ readable
      fun _ now call mem => readable_commit now (reads call mem)
  · rcases commit_cases (G := G) y call with ⟨e, is⟩ | ⟨records, runtime, is, committed⟩
    · rw [is]
    · rw [is]
      exact ⟨rfl, requests_of_commitAll committed⟩

/-- Tables of one column, given by how many lists its type is nested in. In the line of a
`CreateTable` each list is two objects, eight levels down; at 128 levels `serde_json` stops. -/
def tableEngines : Engines Nat (List Nat) where
  empty := []
  validate _ := .ok ()
  apply _ _ _ lists tables := .ok (lists :: tables)
  unreadable lists := if 8 + 2 * lists < 128 then none else some "recursion limit exceeded"

def inTenant (transactionId : String) (mutations : List (Mutation Nat)) :
    CommitTransaction (Mutation Nat) :=
  ⟨transactionId, "tenant", "ns", mutations⟩

/-- The table is created, and the file that has it does not open. -/
theorem accepted_type_closes_the_log :
    let x := commit tableEngines (.new tableEngines) (.append (inTenant "tx-1" [.other 60]))
    x.1 = .ok [⟨1, "tx-1", "tenant", "ns", [.other 60]⟩] ∧ x.2.runtime.state.rest = [60] ∧
      openRuntime tableEngines x.2.file =
        .error (.storage "invalid transaction log record at line 1: recursion limit exceeded") := by
  refine ⟨rfl, rfl, ?_⟩
  change Except.error (Stream.mapDecodeError "transaction log" 1 "recursion limit exceeded") = _
  rewrite [Stream.mapDecodeError, if_neg (by decide +kernel)]
  rfl

def dependentCommits : CommitCall Nat :=
  .appendBatch [
    inTenant "tx-1" [.stream (.createStream "a" .keepAll), .stream (.publish "a" "s" [1] 1)],
    inTenant "tx-2" [.stream (.createConsumer "a" "worker"), .stream (.ack "a" "worker" 1),
      .other 59]]

/-- The second commit of the batch repeats an id, so the first is not applied either. -/
def repeatedId : CommitCall Nat :=
  .appendBatch [inTenant "tx-3" [.stream (.publish "a" "s" [2] 2)], inTenant "tx-1" [.other 1]]

theorem dependent_commits_are_replayed :
    let x := (commit tableEngines (.new tableEngines) dependentCommits).2
    let y := (commit tableEngines x repeatedId).2
    openRuntime tableEngines y.file = .ok y.runtime ∧
      y.file.map TransactionRecord.transactionId = ["tx-1", "tx-2"] ∧ y = x := by
  have reads : ∀ call ∈ [dependentCommits, repeatedId], ∀ req ∈ call.requests,
      ReadsBack tableEngines req.mutations := by
    unfold ReadsBack
    decide
  exact ⟨(runtime_is_replay_of_log tableEngines (.new tableEngines) rfl
    [dependentCommits, repeatedId] repeatedId).2.1 reads, by decide,
    (runtime_is_replay_of_log tableEngines (.new tableEngines) rfl [dependentCommits]
      repeatedId).2.2⟩

end Ehdb.Theorems
