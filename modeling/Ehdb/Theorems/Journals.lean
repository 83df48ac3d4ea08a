import Ehdb.Proof.Core.Logs

/-! Whether a journal can be opened and holds all that was acknowledged after appends that
failed. -/

namespace Ehdb.Theorems

open Ehdb.Core ProofKit Transaction Ehdb.Stream Proof.Journal List

section

variable {M : Type} (validateMutation : M → Result Unit) (codec : JsonCodec (TransactionRecord M))

/-- A run of calls on a transaction log that was opened, and what the log acknowledged. -/
def runTransactions (log : JournalCell (InMemoryTransactionLog M))
    (deeds : List (Deed WriteOutcome (TransactionCall M))) :
    Solo (JournalCell (InMemoryTransactionLog M)) WriteOutcome (TransactionCall M)
      (Result (List (TransactionRecord M))) :=
  (Solo.start log).run (transactionThread validateMutation codec) deeds

def runStreams (codec : JsonCodec StreamJournalEntry) (log : JournalCell InMemoryStreamLog)
    (deeds : List (Deed WriteOutcome StreamCall)) :
    Solo (JournalCell InMemoryStreamLog) WriteOutcome StreamCall
      (Result (StreamJournalEntry × StreamAnswer)) :=
  (Solo.start log).run (streamThread codec) deeds

end

/-- A log is used with any failure of its writes and syncs, but not again once a failed call has
left bytes of its records in the file. Then the file can be opened at any moment, and the log
replays what it held at first, all that was acknowledged since, in order and once, and then perhaps
records of the last call. -/
theorem journals_keep_acknowledged (file : Option Bytes) :
    (∀ {M : Type} (validateMutation : M → Result Unit) (codec : JsonCodec (TransactionRecord M))
        (log : JournalCell (InMemoryTransactionLog M))
        (deeds : List (Deed WriteOutcome (TransactionCall M))),
      openJournal (transactionJournal validateMutation codec) file = .ok log →
      (Solo.start log).Along (transactionThread validateMutation codec)
        (fun c call => c.stray = false ∧ ExactCall validateMutation codec c.inner call) deeds →
      ∃ log' extra, openJournal (transactionJournal validateMutation codec)
          (runTransactions validateMutation codec log deeds).state.file = .ok log' ∧
        log'.inner.replay none = log.inner.replay none ++ ackedRecords (fun _ records => records)
            (runTransactions validateMutation codec log deeds).past ++ extra ∧
        ((log'.inner.replay none).map TransactionRecord.transactionId).Nodup) ∧
    (∀ (codec : JsonCodec StreamJournalEntry) (log : JournalCell InMemoryStreamLog)
        (deeds : List (Deed WriteOutcome StreamCall)),
      openJournal (streamJournal codec) file = .ok log → (Solo.start log).Along (streamThread codec)
        (fun c call => c.stray = false ∧ ExactStreamCall codec c.inner call) deeds →
      ∃ log' initial extra, openJournal (streamJournal codec)
          (runStreams codec log deeds).state.file = .ok log' ∧
        Opens (streamJournal codec) file initial ∧
        Opens (streamJournal codec) (runStreams codec log deeds).state.file
          (initial ++ ackedRecords (fun _ answer => [answer.1])
            (runStreams codec log deeds).past ++ extra)) := by
  constructor
  · intro M validateMutation codec log deeds opened along
    obtain ⟨initial, ready, -, -⟩ := ready_of_open opened
    have keeps := journal_keeps (K := transactionJournal validateMutation codec)
      (T := transactionThread validateMutation codec) (ExactCall validateMutation codec)
      (fun _ records => records) initial (fun _ => rfl) fun c es call ready no_stray is_exact => by
        cases call with
        | append request =>
          have appended := safely_append ready no_stray is_exact
          refine .bindExcept (appended.mono (fun _ => id) ?_)
          intro result c' ends
          cases result with
          | ok record => exact ends
          | error e => exact ends
        | appendBatch requests => exact safely_appendBatch ready no_stray is_exact
    obtain ⟨extra, log', reopened, -, applied⟩ := journal_reopens (fun _ => rfl) keeps ready along
    refine ⟨log', extra, reopened, ?_, ?_⟩
    · rw [replay_none applied, replay_none ready.inner]
      rfl
    · rw [replay_none applied]
      exact (replay_of_inserted applied).2.2.2
  · intro codec log deeds opened along
    obtain ⟨initial, ready, -, opens⟩ := ready_of_open opened
    have keeps := journal_keeps (T := streamThread codec) (ExactStreamCall codec)
      (fun _ answer => [answer.1]) initial
        (fun _ => rfl) fun c es call ready no_stray is_exact => by
        refine safely_commit ready (fun _ _ => rfl) ?_
        intro entry planned
        obtain ⟨log', applied⟩ := plan_takes planned
        have entry_exact : codec.exact entry := is_exact entry planned
        refine ⟨⟨log', ?_⟩, fun e mem => mem_singleton.1 mem ▸ entry_exact,
          safely_appendRecordToDisk ready no_stray entry_exact⟩
        exact congrArg (· >>= pure) applied
    obtain ⟨extra, log', reopened, replays, -⟩ := journal_reopens (fun _ => rfl) keeps ready along
    exact ⟨log', initial, extra, reopened, opens, replays⟩

theorem while_ones (n : Nat) (rest : Bytes) (other : ∀ b ∈ rest.head?, b ≠ 49) :
    (replicate n 49 ++ rest).dropWhile (· == (49 : UInt8)) = rest ∧
      (replicate n 49 ++ rest).takeWhile (· == (49 : UInt8)) = replicate n 49 := by
  induction n with
  | zero =>
    cases rest with
    | nil => exact ⟨rfl, rfl⟩
    | cons b rest =>
      have : b ≠ 49 := other b rfl
      simp [this]
  | succ n ih =>
    exact ⟨by simpa using ih.1, by simpa using ih.2⟩

def numberCodec {E : Type} (number : E → Nat) (numbered : Nat → E) : JsonCodec E where
  toVec e := 123 :: (List.replicate (number e) 49 ++ [125])
  fromSlice
    | 123 :: text =>
      match text.dropWhile (· == 49) with
      | [] => .eof "EOF while parsing"
      | [125] => .entry (numbered (text.takeWhile (· == 49)).length)
      | _ => .invalid "trailing characters"
    | _ => .invalid "expected value"
  exact e := numbered (number e) = e
  fromSlice_toVec e is_exact := by
    obtain ⟨rest, ones⟩ := while_ones (number e) [125] (by simp)
    simp [rest, ones, is_exact]
  fromSlice_torn e _ text is_part some_text short := by
    cases text with
    | nil => exact absurd rfl some_text
    | cons b text =>
      obtain ⟨rfl, within⟩ := cons_prefix_cons.1 is_part
      rcases prefix_concat_iff.1 within with whole | ones
      · exact absurd (congrArg (123 :: ·) whole) short
      · obtain ⟨-, only_ones⟩ := prefix_replicate_iff.1 ones
        obtain ⟨rest, -⟩ := while_ones text.length [] (by simp)
        rw [append_nil, ← only_ones] at rest
        exact ⟨"EOF while parsing", by simp only [rest]⟩
  toVec_opens e := ⟨_, rfl⟩
  toVec_one_line e := by simp [newline, carriageReturn]

def sampleTransaction (id : String) : CommitTransaction Unit := ⟨id, "t", "n", [()]⟩

def transactionAt (sequence : Nat) (id : String) : TransactionRecord Unit :=
  recordOf (sampleTransaction id) sequence

def sampleCodec : JsonCodec (TransactionRecord Unit) :=
  numberCodec (fun record => 2 * record.sequence + if record.transactionId = "a" then 0 else 1)
    fun n => transactionAt (n / 2) (if n % 2 = 0 then "a" else "b")

def anyMutation (_ : Unit) : Result Unit := .ok ()

def emptyLog {S : Type} (inner : S) : JournalCell S := ⟨none, inner, 0, .default, false⟩

def beginCall {κ : Type} (call : κ) (n : Nat) : List (Deed WriteOutcome κ) :=
  .call call :: List.replicate n (.act .ok)

def appendSample (id : String) : TransactionCall Unit := .append (sampleTransaction id)

def sampleStream : StreamConfig := ⟨"t", "n", "s", .keepAll⟩

def failedSync : List (Deed WriteOutcome (TransactionCall Unit)) :=
  beginCall (appendSample "a") 7 ++ .act (.fail 0) :: beginCall (appendSample "a") 9

def shortWrite : List (Deed WriteOutcome (TransactionCall Unit)) :=
  beginCall (appendSample "a") 5 ++ .act (.fail 1) :: beginCall (appendSample "a") 9

def failedCreate : List (Deed WriteOutcome StreamCall) :=
  beginCall (.createStream sampleStream) 7 ++ .act (.fail 0) ::
    beginCall (.createStream sampleStream) 9

def sampleStreamCodec : JsonCodec StreamJournalEntry :=
  numberCodec (fun _ => 0) fun _ => .createStream sampleStream

/-- An append is acknowledged, one fails before it writes, one stops after two bytes. -/
def failsLast : List (Deed WriteOutcome (TransactionCall Unit)) :=
  beginCall (appendSample "a") 9 ++ beginCall (appendSample "b") 4 ++ .act (.fail 0) ::
    beginCall (appendSample "b") 5 ++ [.act (.fail 2)]

/-- Both transactions are written exactly, wherever they are. -/
theorem sample_is_exact {id} (known : id = "a" ∨ id = "b") (log : InMemoryTransactionLog Unit) :
    ExactCall anyMutation sampleCodec log (appendSample id) := by
  intro record built
  obtain ⟨-, -, rfl⟩ := buildRecord_eq_ok built
  rcases known with rfl | rfl
  · show transactionAt _ _ = _
    simp [transactionAt, recordOf, sampleTransaction]
  · show transactionAt _ _ = _
    have half : (2 * log.expectedSequence + 1) / 2 = log.expectedSequence := by omega
    simp [transactionAt, recordOf, sampleTransaction, half, Nat.add_mod]

theorem acknowledged_before_the_failure : (ackedRecords (fun _ records => records)
        (runTransactions anyMutation sampleCodec (emptyLog .empty) failsLast).past =
      [transactionAt 1 "a"] ∧ ∃ log' extra, openJournal (transactionJournal anyMutation sampleCodec)
        (runTransactions anyMutation sampleCodec (emptyLog .empty) failsLast).state.file =
          .ok log' ∧ log'.inner.replay none = [] ++ ackedRecords (fun _ records => records)
        (runTransactions anyMutation sampleCodec (emptyLog .empty) failsLast).past ++ extra ∧
      ((log'.inner.replay none).map TransactionRecord.transactionId).Nodup) ∧
    ∃ log' initial extra, openJournal (streamJournal sampleStreamCodec)
        (runStreams sampleStreamCodec (emptyLog .empty) (failedCreate.take 9)).state.file =
          .ok log' ∧ Opens (streamJournal sampleStreamCodec) none initial ∧
      Opens (streamJournal sampleStreamCodec)
        (runStreams sampleStreamCodec (emptyLog .empty) (failedCreate.take 9)).state.file
        (initial ++ ackedRecords (fun _ answer => [answer.1])
          (runStreams sampleStreamCodec (emptyLog .empty) (failedCreate.take 9)).past ++
          extra) := by
  have clean : (Solo.start (emptyLog .empty)).Along (transactionThread anyMutation sampleCodec)
      (fun c _ => c.stray = false) failsLast := by decide
  have calls : ∀ call, .call call ∈ failsLast →
      ∀ log, ExactCall anyMutation sampleCodec log call := by
    intro call mem
    have known : call = appendSample "a" ∨ call = appendSample "b" := by
      simpa [failsLast, beginCall] using mem
    rcases known with rfl | rfl
    · exact sample_is_exact (.inl rfl)
    · exact sample_is_exact (.inr rfl)
  have clean' : (Solo.start (emptyLog .empty)).Along (streamThread sampleStreamCodec)
      (fun c _ => c.stray = false) (failedCreate.take 9) := by decide
  have calls' : ∀ call, .call call ∈ failedCreate.take 9 →
      ∀ log, ExactStreamCall sampleStreamCodec log call := by
    intro call mem log entry planned
    obtain rfl : call = .createStream sampleStream := by
      simpa [failedCreate, beginCall] using mem
    obtain ⟨_, -, planned⟩ := bind_eq_ok planned
    obtain ⟨_, -, planned⟩ := bind_eq_ok planned
    cases planned
    rfl
  exact ⟨⟨by decide, (journals_keep_acknowledged none).1 anyMutation sampleCodec
      (emptyLog .empty) failsLast rfl
      ((clean.and_calls calls).mono fun _ _ meets => ⟨meets.1, meets.2 _⟩)⟩,
    (journals_keep_acknowledged none).2 sampleStreamCodec (emptyLog .empty)
      (failedCreate.take 9) rfl
      ((clean'.and_calls calls').mono fun _ _ meets => ⟨meets.1, meets.2 _⟩)⟩

/-- An error where a log is expected. -/
theorem not_opened {E S : Type} {K : JournalKind E S} {file : Option Bytes}
    (h : (openJournal K file).toOption.isSome = false) : ¬∃ log, openJournal K file = .ok log := by
  rintro ⟨log, opened⟩
  rw [opened] at h
  cases h

/-- After a failed sync or a short write the repeated append is acknowledged, and the file cannot be
opened any more; likewise after a failed sync of a stream log. -/
theorem failed_append_poisons_the_journal : (ackedRecords (fun _ records => records)
        (runTransactions anyMutation sampleCodec (emptyLog .empty) failedSync).past =
      [transactionAt 1 "a"] ∧ ¬∃ log, openJournal (transactionJournal anyMutation sampleCodec)
        (runTransactions anyMutation sampleCodec (emptyLog .empty) failedSync).state.file =
          .ok log) ∧ (ackedRecords (fun _ records => records)
        (runTransactions anyMutation sampleCodec (emptyLog .empty) shortWrite).past =
      [transactionAt 1 "a"] ∧ ¬∃ log, openJournal (transactionJournal anyMutation sampleCodec)
        (runTransactions anyMutation sampleCodec (emptyLog .empty) shortWrite).state.file =
          .ok log) ∧ (ackedRecords (fun _ answer => [answer.1])
        (runStreams sampleStreamCodec (emptyLog .empty) failedCreate).past =
      [.createStream sampleStream] ∧ ¬∃ log, openJournal (streamJournal sampleStreamCodec)
        (runStreams sampleStreamCodec (emptyLog .empty) failedCreate).state.file = .ok log) :=
  ⟨⟨by decide, not_opened (by decide)⟩, ⟨by decide, not_opened (by decide)⟩,
    by decide, not_opened (by decide)⟩

section

/-- A file, and the records whose texts it has whole, after lives of a process that each read the
file, repair it and append to it, and end at any byte of this: within a truncation, or when the
lines of `new` and `text` of the next line are written. -/
inductive Crashed {E S : Type} (K : JournalKind E S) : Option Bytes → List E → Prop where
  | missing : Crashed K none []
  | truncating {bytes es read len n} : Crashed K (some bytes) es →
      readJsonl K.codec K.decodeError (some bytes) = .ok read →
      read.repair.truncateTo = some len → len ≤ n → Crashed K (some (bytes.take n)) es
  | appending {file es read c new e text} {inner : S} : Crashed K file es →
      readJsonl K.codec K.decodeError file = .ok read →
      (applyRepair read.repair).run.alone .ok ⟨file, inner, 0, read.repair, false⟩ =
        some (.ok (), c) →
      (∀ x ∈ e :: new, K.codec.exact x) → text <+: K.codec.toVec e ++ [newline] →
      Crashed K (some (c.file.getD [] ++ recordLines K new ++ text))
        (es ++ new ++ if K.codec.toVec e <+: text then [e] else [])

variable {E S : Type} {K : JournalKind E S} {file : Option Bytes} {es : List E}

theorem readJsonl_getD : readJsonl K.codec K.decodeError file =
    readJsonl K.codec K.decodeError (some (file.getD [])) := by
  cases file <;> rfl

theorem alone_applyRepair {repair} (mends : Mends K file repair es) (inner : S) :
    ∃ c, (applyRepair repair).run.alone .ok ⟨file, inner, 0, repair, false⟩ = some (.ok (), c) ∧
      Clean K (c.file.getD []) es := by
  cases cut : repair.truncateTo with
  | some len =>
    simp only [Mends, cut] at mends
    obtain ⟨bytes, rfl, short, clean⟩ := mends
    simp only [applyRepair, cut]
    exact ⟨_, rfl, by simpa [short] using clean⟩
  | none =>
    cases end_mark : repair.appendNewline with
    | false =>
      simp only [Mends, cut, end_mark] at mends
      simp only [applyRepair, cut, end_mark]
      exact ⟨_, rfl, mends⟩
    | true =>
      simp only [Mends, cut, end_mark, if_true] at mends
      obtain ⟨bytes, rfl, clean⟩ := mends
      simp only [applyRepair, cut, end_mark, if_true]
      exact ⟨_, rfl, clean⟩

theorem Crashed.cutText (h : Crashed K file es) : CutText K (file.getD []) es := by
  induction h with
  | missing => exact .clean ⟨[], .start E, rfl, nofun, rfl, rfl, rfl⟩
  | truncating _ reads cut le ih =>
    obtain ⟨read, reads', -, cuts⟩ := ih.reads
    cases reads.symm.trans reads'
    exact cuts _ _ cut le
  | appending _ reads repaired is_exact part ih =>
    obtain ⟨read', reads', entries, -⟩ := ih.reads
    rw [← readJsonl_getD] at reads'
    cases reads.symm.trans reads'
    obtain ⟨c', ran, clean⟩ := alone_applyRepair (mends_of_read reads) _
    cases repaired.symm.trans ran
    rw [entries] at clean
    have whole := clean.append fun x mem => is_exact x (.tail _ mem)
    exact whole.cutText (is_exact _ mem_cons_self) part

end

/-- A journal reads as the records whose texts were written whole, however often the process ended
within an append or a repair; and then as those and a record that is appended after the repair. -/
theorem journal_survives_crashes {E S : Type} {K : JournalKind E S} {file : Option Bytes}
    {es : List E} (h : Crashed K file es) :
    ∃ read, readJsonl K.codec K.decodeError file = .ok read ∧ read.entries.map Prod.snd = es ∧
      ∀ (inner : S) (e : E), K.codec.exact e → ∃ c,
        (applyRepair read.repair).run.alone .ok ⟨file, inner, 0, read.repair, false⟩ =
          some (.ok (), c) ∧ Opens K (some (c.file.getD [] ++ recordLines K [e])) (es ++ [e]) := by
  obtain ⟨read, reads, entries, -⟩ := h.cutText.reads
  rw [← readJsonl_getD] at reads
  refine ⟨read, reads, entries, fun inner e is_exact => ?_⟩
  obtain ⟨c, ran, clean⟩ := alone_applyRepair (mends_of_read reads) inner
  rw [entries] at clean
  exact ⟨c, ran, (clean.append fun x mem => mem_singleton.1 mem ▸ is_exact).opens⟩

def numberJournal : JournalKind Nat Unit :=
  ⟨numberCodec id id, fun _ message => .storage message, (), fun _ _ => .ok ()⟩

/-- The process ends when the line of 1 and three bytes of another are written, then within the
repair, and then when after a repair the line of 3 and that of 2 without its end are written. -/
def crashedOften : Bytes :=
  [123, 49, 125, 10] ++ recordLines numberJournal [3] ++ [123, 49, 49, 125]

theorem torn_journal_reads : Opens numberJournal (some crashedOften) [1, 3, 2] ∧
    Opens numberJournal (some (crashedOften ++ [10] ++ recordLines numberJournal [4]))
      [1, 3, 2, 4] := by
  have torn : Crashed numberJournal (some [123, 49, 125, 10, 123, 49, 49]) [1] :=
    @Crashed.appending _ _ numberJournal none [] _ _ [1] 2 [123, 49, 49] () .missing rfl rfl
      (fun _ _ => rfl) (by decide)
  have repairing : Crashed numberJournal (some [123, 49, 125, 10, 123]) [1] :=
    @Crashed.truncating _ _ numberJournal _ _ _ 4 5 torn rfl rfl (by decide)
  have crashed : Crashed numberJournal (some crashedOften) [1, 3, 2] :=
    @Crashed.appending _ _ numberJournal _ _ _ _ [3] 2 [123, 49, 49, 125] () repairing rfl rfl
      (fun _ _ => rfl) (by decide)
  obtain ⟨read, reads, entries, appended⟩ := journal_survives_crashes crashed
  obtain ⟨c, ran, opens⟩ := appended () 4 rfl
  refine ⟨⟨read, reads, entries⟩, ?_⟩
  cases reads
  cases ran
  exact opens

end Ehdb.Theorems
