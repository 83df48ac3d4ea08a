import Ehdb.Proof.Core.Logs
import Ehdb.Reference.Runtime

/-! A record that the log and the state take reaches the file, and nothing changes otherwise. A
runtime that was opened on a file stays the one that the file opens to. -/

namespace Ehdb.Proof.Reference

open ProofKit Ehdb.Reference Transaction Ehdb.Stream Journal List
open InMemoryTransactionLog (buildRecord insertRecord)
open LocalReferenceRuntime (decodeLine logAppend logAppendBatch openLog openRuntime previewOn
  readLines)

variable {O D : Type} {G : Engines O D} {file : LogFile O} {record : LogRecord O}
  {runtime runtime' : LocalReferenceRuntime O D} {req : CommitTransaction (Mutation O)}
  {x x' : Session O D}

/-- The runtime takes the record into its log and its state. -/
structure Takes (G : Engines O D) (runtime : LocalReferenceRuntime O D) (record : LogRecord O)
    (runtime' : LocalReferenceRuntime O D) : Prop where
  log : runtime.log.insertRecord (validateMutation G) record = .ok runtime'.log
  state : runtime.state.applyRecord G record = .ok runtime'.state

inductive TakesAll (G : Engines O D) :
    LocalReferenceRuntime O D → List (LogRecord O) → LocalReferenceRuntime O D → Prop
  | nil {runtime : LocalReferenceRuntime O D} : TakesAll G runtime [] runtime
  | cons {runtime next last record records} :
      Takes G runtime record next → TakesAll G next records last →
      TakesAll G runtime (record :: records) last

/-- All mutations of these are read back from the file. -/
def ReadsBack (G : Engines O D) (mutations : List (Mutation O)) : Prop :=
  ∀ mutation ∈ mutations, unreadableMutation G mutation = none

theorem readLines_eq_ok {records : List (LogRecord O)} {line : Nat} :
    readLines G line file = .ok records ↔
      records = file ∧ ∀ record ∈ file, ReadsBack G record.mutations := by
  induction file generalizing records line with
  | nil =>
    constructor
    · intro h
      cases h
      exact ⟨rfl, nofun⟩
    · rintro ⟨rfl, -⟩
      rfl
  | cons written rest ih =>
    rw [forall_mem_cons, ReadsBack, ← findSome?_eq_none_iff]
    unfold readLines decodeLine
    cases written.mutations.findSome? (unreadableMutation G) with
    | some message => exact ⟨nofun, nofun⟩
    | none =>
      constructor
      · intro h
        obtain ⟨_, decoded, h⟩ := bind_eq_ok h
        obtain ⟨others, read, h⟩ := bind_eq_ok h
        cases decoded
        cases h
        obtain ⟨rfl, all⟩ := ih.1 read
        exact ⟨rfl, rfl, all⟩
      · rintro ⟨rfl, -, all⟩
        simp only [bind, Except.bind, ih.2 ⟨rfl, all⟩]
        rfl

/-- The runtime that the records of a file build, whether or not the file is read. -/
structure Replays (G : Engines O D) (file : LogFile O) (runtime : LocalReferenceRuntime O D) :
    Prop where
  log : file.foldlM (insertRecord (validateMutation G)) .empty = .ok runtime.log
  state : (ReferenceDatabase.default G).applyRecords G file = .ok runtime.state

theorem openRuntime_iff : openRuntime G file = .ok runtime ↔
    (∀ record ∈ file, ReadsBack G record.mutations) ∧ Replays G file runtime := by
  constructor
  · intro h
    obtain ⟨log, opened, h⟩ := bind_eq_ok h
    obtain ⟨state, applied, h⟩ := bind_eq_ok h
    cases h
    obtain ⟨records, read, inserted⟩ := bind_eq_ok opened
    obtain ⟨rfl, readable⟩ := readLines_eq_ok.1 read
    exact ⟨readable, inserted, replay_none inserted ▸ applied⟩
  · rintro ⟨readable, inserted, applied⟩
    have opened : openLog G file = .ok runtime.log := by
      unfold openLog
      rw [readLines_eq_ok.2 ⟨rfl, readable⟩]
      exact inserted
    unfold openRuntime
    rw [opened]
    simp only [bind, Except.bind, replay_none inserted, applied]
    rfl

theorem Replays.takes (h : Replays G file runtime) (takes : Takes G runtime record runtime') :
    Replays G (file ++ [record]) runtime' where
  log := by
    rw [foldlM_append, h.log]
    simp only [foldlM_cons, foldlM_nil, bind, Except.bind, takes.log]
    rfl
  state := by
    have applied := h.state
    rw [ReferenceDatabase.applyRecords] at applied
    rw [ReferenceDatabase.applyRecords, foldlM_append, applied]
    simp only [foldlM_cons, foldlM_nil, bind, Except.bind, takes.state]
    rfl

theorem Replays.unique (h : Replays G file runtime) (h' : Replays G file runtime') :
    runtime = runtime' := by
  have log : runtime.log = runtime'.log := Except.ok.inj (h.log.symm.trans h'.log)
  have state : runtime.state = runtime'.state := Except.ok.inj (h.state.symm.trans h'.state)
  cases runtime
  cases runtime'
  cases log
  cases state
  rfl

variable {records : List (LogRecord O)}

theorem Replays.takesAll (h : Replays G file runtime)
    (takes : TakesAll G runtime records runtime') : Replays G (file ++ records) runtime' := by
  induction takes generalizing file with
  | nil => rwa [append_nil]
  | cons first _ ih =>
    rw [← singleton_append, ← append_assoc]
    exact ih (h.takes first)

theorem openRuntime_takes (h : openRuntime G file = .ok runtime)
    (takes : Takes G runtime record runtime') (readable : ReadsBack G record.mutations) :
    openRuntime G (file ++ [record]) = .ok runtime' := by
  obtain ⟨before, replays⟩ := openRuntime_iff.1 h
  refine openRuntime_iff.2 ⟨fun other mem => ?_, replays.takes takes⟩
  rcases mem_append.1 mem with old | new
  · exact before other old
  · rwa [mem_singleton.1 new]

/-- What `LocalReferenceRuntime::append` does: the record and the runtime that took it. -/
def commitOn (G : Engines O D) (runtime : LocalReferenceRuntime O D)
    (request : CommitTransaction (Mutation O)) :
      Result (LogRecord O × LocalReferenceRuntime O D) := do
  let record ← runtime.log.buildRecord (validateMutation G) request
  let state ← runtime.state.applyRecord G record
  let log ← runtime.log.insertRecord (validateMutation G) record
  return (record, ⟨log, state⟩)

theorem insert_of_build (built : runtime.log.buildRecord (validateMutation G) req = .ok record) :
    ∃ log, runtime.log.insertRecord (validateMutation G) record = .ok log := by
  obtain ⟨valid, absent, rfl⟩ := buildRecord_eq_ok built
  exact ⟨_, insertRecord_eq_ok_iff.2 ⟨valid, absent, rfl, rfl⟩⟩

variable {log : InMemoryTransactionLog (Mutation O)}

theorem outcome_insertRecords {runtime}
    (h : records.foldlM (insertRecord (validateMutation G)) runtime.log = .ok log) :
    (LocalReferenceRuntime.insertRecords G records).outcome () runtime file =
      some ((.ok (), { runtime with log := log }), file) := by
  induction records generalizing runtime with
  | nil =>
    cases h
    rfl
  | cons record records ih =>
    obtain ⟨next, inserted, rest⟩ := bind_eq_ok h
    have first : (do
        let runtime ← Task.memory
        let log ← Task.ofExcept (runtime.log.insertRecord (validateMutation G) record)
        Task.update fun runtime => { runtime with log := log } : RuntimeTask O D Unit).outcome ()
          runtime file = some ((.ok (), { runtime with log := next }), file) := by
      rw [Task.outcome_memory_bind, inserted]
      rfl
    exact (Task.outcome_bind_of_ok first).trans (ih rest)

theorem outcome_append (runtime : LocalReferenceRuntime O D) (file : LogFile O)
    (req : CommitTransaction (Mutation O)) :
    (LocalReferenceRuntime.append G req).outcome () runtime file =
      some (match commitOn G runtime req with
        | .ok (record, runtime') => ((.ok record, runtime'), file ++ [record])
        | .error e => ((.error e, runtime), file)) := by
  unfold LocalReferenceRuntime.append commitOn previewOn
  rw [Task.outcome_memory_bind]
  cases built : runtime.log.buildRecord (validateMutation G) req with
  | error e => rfl
  | ok record =>
    simp only [bind, Except.bind]
    cases applied : runtime.state.applyRecord G record with
    | error e => rfl
    | ok state =>
      obtain ⟨log, inserted⟩ := insert_of_build built
      rw [inserted]
      have all : [record].foldlM (insertRecord (validateMutation G))
          runtime.log = .ok log := by simpa using inserted
      have logged : (logAppend G req).outcome () runtime file =
          some ((.ok record, { runtime with log := log }), file ++ [record]) := by
        unfold logAppend
        rw [Task.outcome_memory_bind, built, Task.outcome_ok_bind]
        exact Task.outcome_bind_of_ok (outcome_insertRecords all)
      exact Task.outcome_bind_of_ok logged

theorem commitOn_eq_ok (h : commitOn G runtime req = .ok (record, runtime')) :
    runtime.log.buildRecord (validateMutation G) req = .ok record ∧
      Takes G runtime record runtime' := by
  obtain ⟨_, built, h⟩ := bind_eq_ok h
  obtain ⟨_, applied, h⟩ := bind_eq_ok h
  obtain ⟨_, inserted, h⟩ := bind_eq_ok h
  cases h
  exact ⟨built, inserted, applied⟩

/-- What `LocalReferenceRuntime::append_batch` does with a batch that is not empty. -/
def commitBatchOn (G : Engines O D) (runtime : LocalReferenceRuntime O D)
    (requests : List (CommitTransaction (Mutation O))) :
    Result (List (LogRecord O) × LocalReferenceRuntime O D) := do
  let state ← requests.foldlM (previewOn G runtime.log) runtime.state
  let records ← runtime.log.buildBatch (validateMutation G) requests [] []
  let log ← records.foldlM (insertRecord (validateMutation G)) runtime.log
  return (records, ⟨log, state⟩)

variable {requests : List (CommitTransaction (Mutation O))}

theorem outcome_appendBatch (runtime : LocalReferenceRuntime O D) (file : LogFile O)
    (some_requests : requests ≠ []) :
    (LocalReferenceRuntime.appendBatch G requests).outcome () runtime file =
      some (match commitBatchOn G runtime requests with
        | .ok (records, runtime') => ((.ok records, runtime'), file ++ records)
        | .error e => ((.error e, runtime), file)) := by
  have not_empty : ¬requests.isEmpty = true := by simpa using some_requests
  unfold LocalReferenceRuntime.appendBatch commitBatchOn
  rw [if_neg not_empty, Task.outcome_memory_bind]
  cases previewed : requests.foldlM (previewOn G runtime.log)
      runtime.state with
  | error e => rfl
  | ok state =>
    rw [Task.outcome_ok_bind]
    simp only [bind, Except.bind]
    cases built : runtime.log.buildBatch (validateMutation G) requests [] [] with
    | error e =>
      have failed : (logAppendBatch G requests).outcome () runtime file =
          some ((.error e, runtime), file) := by
        unfold logAppendBatch
        rw [if_neg not_empty, Task.outcome_memory_bind, built]
        rfl
      exact Task.outcome_bind_of_error failed
    | ok records =>
      obtain ⟨log, inserted⟩ := (buildBatch_takes ⟨rfl, rfl, fun _ mem => .inr mem⟩ built).1
      simp only [inserted]
      have logged : (logAppendBatch G requests).outcome () runtime file =
          some ((.ok records, { runtime with log := log }), file ++ records) := by
        unfold logAppendBatch
        rw [if_neg not_empty, Task.outcome_memory_bind, built, Task.outcome_ok_bind]
        exact Task.outcome_bind_of_ok (outcome_insertRecords inserted)
      exact Task.outcome_bind_of_ok logged

def commitAll (G : Engines O D) : LocalReferenceRuntime O D →
    List (CommitTransaction (Mutation O)) → Result (List (LogRecord O) × LocalReferenceRuntime O D)
  | runtime, [] => return ([], runtime)
  | runtime, request :: requests => do
    let (record, next) ← commitOn G runtime request
    let (records, last) ← commitAll G next requests
    return (record :: records, last)

variable {next : InMemoryTransactionLog (Mutation O)}

variable {state state' : ReferenceDatabase D}

/-- The loop of `append_batch` over the rest of a batch, when `next` is the log with the records
built so far and `state` has them applied. -/
theorem commitAll_of_building {result batchIds}
    (building : Building (validateMutation G) log records batchIds next)
    (previewed : requests.foldlM (previewOn G log) state = .ok state')
    (built : log.buildBatch (validateMutation G) requests records batchIds = .ok result) :
    ∃ new last, result = records ++ new ∧
      result.foldlM (insertRecord (validateMutation G)) log = .ok last ∧
      commitAll G ⟨next, state⟩ requests = .ok (new, ⟨last, state'⟩) := by
  induction requests generalizing records batchIds next state with
  | nil =>
    cases built
    cases previewed
    exact ⟨[], next, by simp, building.inserted, rfl⟩
  | cons req requests ih =>
    obtain ⟨middle, applied, previewed⟩ := bind_eq_ok previewed
    obtain ⟨first, ⟨next', pushed⟩, built⟩ := building.advance built
    -- The state was previewed with the number of the first record of the batch.
    have applied : state.applyRecord G (recordOf req next.expectedSequence) = .ok middle := by
      unfold previewOn at applied
      rw [first] at applied
      exact applied
    obtain ⟨new, last, split, inserted, rest⟩ := ih pushed previewed built
    refine ⟨recordOf req next.expectedSequence :: new, last, by simp [split], inserted, ?_⟩
    have both := pushed.inserted
    rw [foldlM_append, building.inserted] at both
    have both : next.insertRecord _ _ >>= pure = .ok next' := both
    rw [bind_pure] at both
    have committed : commitOn G ⟨next, state⟩ req =
        .ok (recordOf req next.expectedSequence, ⟨next', middle⟩) := by
      obtain ⟨valid, absent, -, -⟩ := insertRecord_eq_ok_iff.1 both
      have valid : validateTransaction (validateMutation G) req.transactionId req.tenant
          req.namespaceName req.mutations = .ok () := valid
      have absent : req.transactionId ∉ next.transactionIds := absent
      have built : next.buildRecord (validateMutation G) req =
          .ok (recordOf req next.expectedSequence) := by
        unfold buildRecord
        rw [valid]
        simp only [bind, Except.bind, absent, if_false]
        rfl
      unfold commitOn
      simp only [built, bind, Except.bind, applied, both]
      rfl
    unfold commitAll
    simp only [committed, bind, Except.bind, rest]
    rfl

theorem commitAll_of_batch (h : commitBatchOn G runtime requests = .ok (records, runtime')) :
    commitAll G runtime requests = .ok (records, runtime') := by
  obtain ⟨state, previewed, h⟩ := bind_eq_ok h
  obtain ⟨built, is_built, h⟩ := bind_eq_ok h
  obtain ⟨log, inserted, h⟩ := bind_eq_ok h
  cases h
  have start : Building (validateMutation G) runtime.log [] [] runtime.log :=
    ⟨rfl, rfl, fun _ mem => .inr mem⟩
  obtain ⟨new, last, rfl, inserted', committed⟩ := commitAll_of_building start previewed is_built
  rw [inserted] at inserted'
  cases inserted'
  exact committed

end Ehdb.Proof.Reference
