import Ehdb.Proof.Core.Journal
import Ehdb.Transaction.Log

/-! The transaction log and the stream log write only records that they take: what a call plans from
the log in memory goes through the checks of the insertion. -/

namespace Ehdb.Proof.Journal

open Ehdb.Core ProofKit Transaction Ehdb.Stream List
open InMemoryTransactionLog (expectedSequence insertRecord replay)

theorem unless_eq_ok {ε β : Type} {p : Prop} [Decidable p] {e : ε} {x : Except ε β} {b : β}
    (h : (if p then throw e else x) = .ok b) : ¬p ∧ x = .ok b := by
  split at h
  · cases h
  · rename_i not
    exact ⟨not, h⟩

section Transactions

variable {M : Type} {validateMutation : M → Result Unit} {log log' : InMemoryTransactionLog M}
  {req : CommitTransaction M} {record : TransactionRecord M}

theorem buildRecord_eq_ok
    (h : log.buildRecord validateMutation req = .ok record) :
    validateTransaction validateMutation req.transactionId req.tenant
        req.namespaceName req.mutations = .ok () ∧ req.transactionId ∉ log.transactionIds ∧
      record = ⟨log.expectedSequence, req.transactionId, req.tenant,
        req.namespaceName, req.mutations⟩ := by
  obtain ⟨_, valid, h⟩ := bind_eq_ok h
  obtain ⟨absent, h⟩ := unless_eq_ok h
  cases h
  exact ⟨valid, absent, rfl⟩

theorem insertRecord_eq_ok_iff : log.insertRecord validateMutation record = .ok log' ↔
      validateTransaction validateMutation record.transactionId record.tenant record.namespaceName
        record.mutations = .ok () ∧
      record.transactionId ∉ log.transactionIds ∧ record.sequence = log.expectedSequence ∧
      log' = ⟨some (record.sequence + 1), log.records.insert record.sequence record,
        record.transactionId :: log.transactionIds⟩ := by
  constructor
  · intro h
    obtain ⟨_, valid, h⟩ := bind_eq_ok h
    obtain ⟨absent, h⟩ := unless_eq_ok h
    obtain ⟨next, h⟩ := unless_eq_ok h
    cases h
    exact ⟨valid, absent, not_not.1 next, rfl⟩
  · rintro ⟨valid, absent, next, rfl⟩
    unfold insertRecord
    rw [valid]
    simp only [bind, Except.bind, absent, next, if_false, ne_eq, not_true_eq_false]
    rfl

def recordOf (request : CommitTransaction M) (sequence : Nat) : TransactionRecord M :=
  ⟨sequence, request.transactionId, request.tenant, request.namespaceName, request.mutations⟩

/-- What is known while `append_batch` builds its records: those built so far go into the log, and
the log they give expects the number that the next record gets. -/
structure Building (validateMutation : M → Result Unit) (log : InMemoryTransactionLog M)
    (records : List (TransactionRecord M)) (batchIds : List String)
    (next : InMemoryTransactionLog M) : Prop where
  inserted : records.foldlM (insertRecord validateMutation) log = .ok next
  expected : next.expectedSequence =
    (records.getLast?.map (·.sequence + 1)).getD log.expectedSequence
  ids : ∀ id ∈ next.transactionIds, id ∈ batchIds ∨ id ∈ log.transactionIds

variable {next : InMemoryTransactionLog M} {batchIds : List String}

theorem Building.push {records} (h : Building validateMutation log records batchIds next)
    (built : log.buildRecord validateMutation req = .ok record)
    (fresh : record.transactionId ∉ batchIds) : ∃ next', Building validateMutation log
      (records ++ [recordOf req next.expectedSequence]) (req.transactionId :: batchIds)
      next' := by
  obtain ⟨valid, absent, rfl⟩ := buildRecord_eq_ok built
  obtain ⟨next', is, inserted⟩ : ∃ next', next' = _ ∧
      next.insertRecord validateMutation (recordOf req next.expectedSequence) = .ok next' :=
    ⟨_, rfl, insertRecord_eq_ok_iff.2
      ⟨valid, fun mem => (h.ids _ mem).elim fresh absent, rfl, rfl⟩⟩
  refine ⟨next', ?_, ?_, ?_⟩
  · rw [foldlM_append, h.inserted]
    simp only [foldlM_cons, foldlM_nil, bind, Except.bind, inserted]
    rfl
  · simp [is, expectedSequence, recordOf]
  · intro id mem
    rw [is] at mem
    rcases mem_cons.1 mem with rfl | old
    · exact .inl mem_cons_self
    · exact (h.ids id old).imp (mem_cons_of_mem _) fun known => known

variable {requests : List (CommitTransaction M)}

/-- The number that the loop gives the record is the one that the log expects. -/
theorem Building.advance {records result} (h : Building validateMutation log records batchIds next)
    (built : log.buildBatch validateMutation (req :: requests) records batchIds = .ok result) :
    log.buildRecord validateMutation req = .ok (recordOf req log.expectedSequence) ∧
    (∃ next', Building validateMutation log (records ++ [recordOf req next.expectedSequence])
      (req.transactionId :: batchIds) next') ∧
    log.buildBatch validateMutation requests (records ++ [recordOf req next.expectedSequence])
      (req.transactionId :: batchIds) = .ok result := by
  obtain ⟨record, first, built⟩ := bind_eq_ok built
  obtain ⟨fresh, built⟩ := unless_eq_ok built
  have pushed := h.push first fresh
  obtain ⟨-, -, rfl⟩ := buildRecord_eq_ok first
  refine ⟨first, pushed, ?_⟩
  rw [show recordOf req next.expectedSequence = _ by rw [h.expected]]
  cases last : records.getLast? <;> simpa [recordOf, TransactionRecord.after, last] using built

theorem buildBatch_takes
    {records result} (h : Building validateMutation log records batchIds next)
    (built : log.buildBatch validateMutation requests records batchIds = .ok result) :
    (∃ final, result.foldlM (insertRecord validateMutation) log =
        .ok final) ∧ result.length = records.length + requests.length := by
  induction requests generalizing records batchIds next with
  | nil =>
    cases built
    exact ⟨⟨next, h.inserted⟩, rfl⟩
  | cons req requests ih =>
    obtain ⟨-, ⟨next', pushed⟩, built⟩ := h.advance built
    obtain ⟨inserted, length⟩ := ih pushed built
    exact ⟨inserted, by simp [length]; omega⟩

variable {es : List (TransactionRecord M)}

section

variable (h : es.foldlM (insertRecord validateMutation) .empty = .ok log)

include h

theorem replay_of_inserted : log.records.entries.map Prod.snd = es ∧
      (∀ e ∈ log.records.entries, e.1 < log.expectedSequence) ∧
      log.transactionIds = (es.map TransactionRecord.transactionId).reverse ∧
      (es.map TransactionRecord.transactionId).Nodup := by
  induction es using reverseRecOn generalizing log with
  | nil =>
    cases h
    exact ⟨rfl, nofun, rfl, nodup_nil⟩
  | append_singleton es record ih =>
    rw [foldlM_append] at h
    obtain ⟨before, earlier, last⟩ := bind_eq_ok h
    have last : before.insertRecord validateMutation record = .ok log := by simpa using last
    obtain ⟨-, absent, next, rfl⟩ := insertRecord_eq_ok_iff.1 last
    obtain ⟨entries, below, ids, distinct⟩ := ih earlier
    have at_end := OrderedMap.entries_insert_last (m := before.records) (k := record.sequence)
      (v := record) (next ▸ below)
    refine ⟨by simp [at_end, entries], ?_, by simp [ids], ?_⟩
    · intro e mem
      rw [at_end] at mem
      rcases mem_append.1 mem with old | new
      · have := below e old
        simp only [expectedSequence, Option.getD_some]
        omega
      · rw [mem_singleton.1 new]
        simp [expectedSequence]
    · rw [map_append, nodup_append]
      refine ⟨distinct, by simp, ?_⟩
      intro a mem b is_last
      rw [mem_singleton.1 is_last]
      rintro rfl
      rw [ids, mem_reverse] at absent
      exact absent mem

theorem sequences_of_inserted : es.map TransactionRecord.sequence = range' 1 es.length ∧
      log.expectedSequence = es.length + 1 := by
  induction es using reverseRecOn generalizing log with
  | nil =>
    cases h
    exact ⟨rfl, rfl⟩
  | append_singleton es record ih =>
    rw [foldlM_append] at h
    obtain ⟨before, earlier, last⟩ := bind_eq_ok h
    have last : before.insertRecord validateMutation record = .ok log := by simpa using last
    obtain ⟨-, -, next, rfl⟩ := insertRecord_eq_ok_iff.1 last
    obtain ⟨numbers, expected⟩ := ih earlier
    rw [expected] at next
    refine ⟨?_, by simp [expectedSequence, next]⟩
    rw [map_append, numbers, length_append, length_singleton, range'_concat]
    simp [next, Nat.add_comm]

theorem replay_none : log.replay none = es := by
  rw [← (replay_of_inserted h).1, replay]
  simp

end

variable {codec : JsonCodec (TransactionRecord M)} {c : JournalCell (InMemoryTransactionLog M)}
  {es : List (TransactionRecord M)}

/-- The codec writes the records that a call makes on this log exactly. -/
def ExactCall (validateMutation : M → Result Unit) (codec : JsonCodec (TransactionRecord M))
    (log : InMemoryTransactionLog M) : TransactionCall M → Prop
  | .append request => ∀ record, log.buildRecord validateMutation request = .ok record →
      codec.exact record
  | .appendBatch requests => ∀ records,
      log.buildBatch validateMutation requests [] [] = .ok records →
        ∀ record ∈ records, codec.exact record

section

variable (ready : Ready (transactionJournal validateMutation codec) c es)
  (no_stray : c.stray = false)
include ready no_stray

theorem safely_append (is_exact : ExactCall validateMutation codec c.inner (.append req)) :
    Safely (fun c' => Replays (transactionJournal validateMutation codec) es c'.file)
      (append validateMutation codec req).run
      (Ends (transactionJournal validateMutation codec) es fun record => [record]) c := by
  refine safely_commit ready (fun _ _ => rfl) ?_
  · intro record built
    have record_exact := is_exact record built
    obtain ⟨valid, absent, rfl⟩ := buildRecord_eq_ok built
    obtain ⟨next, inserted⟩ : ∃ next, c.inner.insertRecord validateMutation
        (recordOf req c.inner.expectedSequence) = .ok next :=
      ⟨_, insertRecord_eq_ok_iff.2 ⟨valid, absent, rfl, rfl⟩⟩
    refine ⟨⟨next, ?_⟩, ?_, safely_appendRecordToDisk ready no_stray record_exact⟩
    · exact (congrArg (· >>= pure) inserted)
    · intro record mem
      rwa [mem_singleton.1 mem]

theorem safely_appendBatch
    (is_exact : ExactCall validateMutation codec c.inner (.appendBatch requests)) :
    Safely (fun c' => Replays (transactionJournal validateMutation codec) es c'.file)
      (appendBatch validateMutation codec requests).run
      (Ends (transactionJournal validateMutation codec) es fun records => records) c := by
  unfold appendBatch
  split
  · show Settled _ (es ++ []) c
    rw [append_nil]
    exact ready.settled
  · rename_i some_requests
    refine safely_commit ready (fun _ _ => rfl) ?_
    · intro records built
      obtain ⟨inserted, length⟩ := buildBatch_takes ⟨rfl, rfl, fun _ => .inr⟩ built
      have all_exact := is_exact records built
      have some_records : ¬ records.isEmpty = true := fun none => some_requests <|
        isEmpty_iff_length_eq_zero.2 (by simpa [isEmpty_iff.1 none] using length.symm)
      refine ⟨inserted, all_exact, ?_⟩
      unfold appendRecordsToDisk
      rw [if_neg some_records]
      refine .bindExcept ((safely_prepareAppend ready no_stray).mono (fun _ h => h.1.sound) ?_)
      intro result c' prepared
      cases result with
      | error _ => exact prepared.1.sound
      | ok _ =>
        refine .bindExcept (safely_writeRecords prepared all_exact prefix_rfl ?_ fun _ => id)
        intro c'' whole
        have sound := whole.sound all_exact prefix_rfl
        exact safely_besideFile sound whole sound

end

end Transactions

section Streams

variable {codec : JsonCodec StreamJournalEntry} {log : InMemoryStreamLog} {call : StreamCall}
  {entry : StreamJournalEntry}

theorem plan_takes
    (h : call.plan log = .ok entry) : ∃ log', applyJournalEntry log entry = .ok log' := by
  cases call with
  | createStream config =>
    obtain ⟨_, valid, h⟩ := bind_eq_ok h
    obtain ⟨_, absent, h⟩ := bind_eq_ok h
    cases h
    simp only [applyJournalEntry, InMemoryStreamLog.createStream, valid, absent, bind, Except.bind]
    exact ⟨_, rfl⟩
  | createConsumer coords consumer =>
    obtain ⟨_, valid, h⟩ := bind_eq_ok h
    obtain ⟨_, named, h⟩ := bind_eq_ok h
    obtain ⟨_, absent, h⟩ := bind_eq_ok h
    cases h
    obtain ⟨state, found, -⟩ := bind_eq_ok absent
    simp only [applyJournalEntry, InMemoryStreamLog.createConsumer, valid, named, absent, found,
      bind, Except.bind]
    exact ⟨_, rfl⟩
  | publish coords subject payload txId =>
    obtain ⟨_, -, h⟩ := bind_eq_ok h
    obtain ⟨state, found, h⟩ := bind_eq_ok h
    obtain ⟨_, valid, h⟩ := bind_eq_ok h
    cases h
    simp only [applyJournalEntry, InMemoryStreamLog.insertRecord, valid, found, bind, Except.bind,
      ne_eq, not_true_eq_false, if_false]
    exact ⟨_, rfl⟩
  | ack coords consumer sequence =>
    obtain ⟨_, valid, h⟩ := bind_eq_ok h
    obtain ⟨_, named, h⟩ := bind_eq_ok h
    obtain ⟨_, may, h⟩ := bind_eq_ok h
    cases h
    obtain ⟨state, found, -⟩ := bind_eq_ok may
    simp only [applyJournalEntry, InMemoryStreamLog.ack, valid, named, may, found, bind,
      Except.bind]
    exact ⟨_, rfl⟩

/-- The codec writes the entry that a call makes on this log exactly. -/
def ExactStreamCall (codec : JsonCodec StreamJournalEntry) (log : InMemoryStreamLog)
    (call : StreamCall) : Prop :=
  ∀ entry, call.plan log = .ok entry → codec.exact entry

end Streams

end Ehdb.Proof.Journal
