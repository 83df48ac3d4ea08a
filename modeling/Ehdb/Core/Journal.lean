import Ehdb.L0.Frame
import Ehdb.ProofKit.Solo

/-! A journal is a file of lines, one record each. `read_jsonl` skips a last line that is cut off
and leaves what has to be done to the file to the next append, as a `TailRepair`. `JournalKind` says
what the records are and what they do to the log in memory. -/

namespace Ehdb.Core

open ProofKit

def newline : UInt8 := 10

def carriageReturn : UInt8 := 13

/-- What `serde_json::from_slice` makes of a line: a record, the end of the line before the end of
the record (`is_eof`), or another error. -/
inductive Decoded (E : Type) where
  | entry (e : E)
  | eof (message : String)
  | invalid (message : String)
  deriving DecidableEq

/-- The text of a record. A record that is `exact` is read back as it was: it has no number that
JSON cannot write, such as a NaN, and a text that stops short of its end is seen to do so. -/
structure JsonCodec (E : Type) where
  toVec : E → Bytes
  fromSlice : Bytes → Decoded E
  exact : E → Prop
  fromSlice_toVec : ∀ e, exact e → fromSlice (toVec e) = .entry e
  fromSlice_torn : ∀ e, exact e → ∀ text, text <+: toVec e → text ≠ [] → text ≠ toVec e →
    ∃ message, fromSlice text = .eof message
  toVec_opens : ∀ e, ∃ rest, toVec e = 123 :: rest
  toVec_one_line : ∀ e, newline ∉ toVec e ∧ carriageReturn ∉ toVec e

/-- `truncate_to`: cut the file to this length. `append_newline`: the last record lost its
newline. -/
structure TailRepair where
  truncateTo : Option Nat
  appendNewline : Bool
  deriving DecidableEq

def TailRepair.default : TailRepair := ⟨none, false⟩

structure JournalRead (E : Type) where
  entries : List (Nat × E)
  tornTailSkipped : Nat
  repair : TailRepair
  deriving DecidableEq

/-- The lines that `read_until` finds, each with its newline; the last one may be without. -/
def lines : Bytes → List Bytes
  | [] => []
  | b :: rest =>
    if b = newline then [b] :: lines rest
    else
      match lines rest with
      | [] => [[b]]
      | line :: others => (b :: line) :: others

def stripSuffix (b : UInt8) (buf : Bytes) : Bytes :=
  if buf.getLast? = some b then buf.dropLast else buf

def trimNewline (buf : Bytes) : Bytes :=
  stripSuffix carriageReturn (stripSuffix newline buf)

def isAsciiWhitespace (b : UInt8) : Bool :=
  b == 9 || b == 10 || b == 12 || b == 13 || b == 32

/-- The variables of the loop of `read_jsonl`. -/
structure ReadState (E : Type) where
  entries : List (Nat × E)
  offset : Nat
  lastByte : Option UInt8
  index : Nat
  torn : Option (Nat × Nat × String)
  deriving DecidableEq

def ReadState.start (E : Type) : ReadState E := ⟨[], 0, none, 0, none⟩

section Read

variable {E : Type} (codec : JsonCodec E) (decodeError : Nat → String → EhdbError)

/-- The body of the loop, on the line `buf`. -/
def readLine (st : ReadState E) (buf : Bytes) : Result (ReadState E) :=
  let start := st.offset
  let st := { st with
    offset := st.offset + buf.length, lastByte := buf.getLast?, index := st.index + 1 }
  let line := trimNewline buf
  if line.all isAsciiWhitespace then .ok st
  else
    match st.torn with
    | some (tornIndex, _, message) => .error (decodeError tornIndex message)
    | none =>
      match codec.fromSlice line with
      | .entry e => .ok { st with entries := st.entries ++ [(st.index, e)] }
      | .eof message => .ok { st with torn := some (st.index, start, message) }
      | .invalid message => .error (decodeError st.index message)

def ReadState.finish (st : ReadState E) : JournalRead E :=
  match st.torn with
  | some (_, start, _) => ⟨st.entries, 1, ⟨some start, false⟩⟩
  | none => ⟨st.entries, 0, ⟨none, st.lastByte.any (· != newline)⟩⟩

def readJsonl (file : Option Bytes) : Result (JournalRead E) :=
  match file with
  | none => .ok ⟨[], 0, .default⟩
  | some bytes => ((lines bytes).foldlM (readLine codec decodeError) (.start E)).map
      ReadState.finish

end Read

/-- A journal with records of type `E` and a log of type `S` in memory. -/
structure JournalKind (E S : Type) where
  codec : JsonCodec E
  decodeError : Nat → String → EhdbError
  empty : S
  apply : S → E → Result S

/-- A log that is open and its file. `stray` says that the file has bytes of records that the log
does not hold. -/
structure JournalCell (S : Type) where
  file : Option Bytes
  inner : S
  tornTailSkipped : Nat
  repair : TailRepair
  stray : Bool
  deriving DecidableEq

/-- How a step on the file system ends; a write that fails has written some bytes. -/
inductive WriteOutcome where
  | ok
  | fail (written : Nat)
  deriving DecidableEq

abbrev JournalAction (S α : Type) := ExceptT EhdbError (Prog (JournalCell S) WriteOutcome) α

section Append

variable {E S : Type} (K : JournalKind E S)

/-- The error of a step on the file system, whose text is the system's. -/
def ioError : EhdbError := .storage "io error"

def besideFile : JournalAction S Unit :=
  Prog.lift fun o c =>
    match o with
    | .ok => some (.ok (), c)
    | .fail _ => some (.error ioError, c)

/-- `open` without `create`: there has to be a file. -/
def openExisting : JournalAction S Unit :=
  Prog.lift fun o c =>
    match o, c.file with
    | .ok, some _ => some (.ok (), c)
    | _, _ => some (.error ioError, c)

/-- `open` with `create` and `append`. -/
def openAppend : JournalAction S Unit :=
  Prog.lift fun o c =>
    match o with
    | .ok => some (.ok (), { c with file := some (c.file.getD []) })
    | .fail _ => some (.error ioError, c)

/-- The file with `bytes` at its end. -/
def JournalCell.extend (c : JournalCell S) (bytes : Bytes) : JournalCell S :=
  { c with file := some (c.file.getD [] ++ bytes) }

def setLen (len : Nat) : JournalAction S Unit :=
  Prog.lift fun o c =>
    match o with
    | .ok =>
      let bytes := c.file.getD []
      let cut := bytes.take len ++ List.replicate (len - bytes.length) 0
      some (.ok (), { c with file := some cut })
    | .fail _ => some (.error ioError, c)

/-- `write_all` of the newline that the last record lost. -/
def writeNewline : JournalAction S Unit :=
  Prog.lift fun o c =>
    match o with
    | .ok => some (.ok (), c.extend [newline])
    | .fail _ => some (.error ioError, c)

def forgetRepair : JournalAction S Unit :=
  Prog.lift fun _ c => some (.ok (), { c with repair := .default })

/-- `TailRepair::apply`. -/
def applyRepair (repair : TailRepair) : JournalAction S Unit := do
  match repair.truncateTo with
  | some len =>
    openExisting
    setLen len
    besideFile
  | none =>
    if repair.appendNewline then
      openExisting
      writeNewline
      besideFile
  forgetRepair

def writeRecords (bytes : Bytes) : JournalAction S Unit :=
  Prog.lift fun o c =>
    match o with
    | .ok => some (.ok (), { c.extend bytes with stray := true })
    | .fail n =>
      some (.error ioError, { c.extend (bytes.take n) with stray := c.stray || 0 < n })

def getCell : JournalAction S (JournalCell S) :=
  Prog.lift fun _ c => some (.ok c, c)

def prepareAppend : JournalAction S Unit := do
  let c ← getCell
  applyRepair c.repair
  besideFile
  openAppend

/-- `append_record_to_disk` of the transaction log and `append_entry_to_disk` of the stream log. -/
def appendRecordToDisk (e : E) : JournalAction S Unit := do
  prepareAppend
  writeRecords (K.codec.toVec e)
  writeRecords [newline]
  besideFile

/-- The buffer of `append_records_to_disk`. -/
def recordLines (es : List E) : Bytes :=
  es.flatMap fun e => K.codec.toVec e ++ [newline]

def appendRecordsToDisk (es : List E) : JournalAction S Unit := do
  if es.isEmpty then
    let c ← getCell
    applyRepair c.repair
  else
    prepareAppend
    writeRecords (recordLines K es)
    besideFile

def insertAll : S → List E → S × Result Unit
  | s, [] => (s, .ok ())
  | s, e :: rest =>
    match K.apply s e with
    | .ok s => insertAll s rest
    | .error error => (s, .error error)

/-- The records go into the log, which then holds all that is in the file. Answers the log. -/
def insertRecords (es : List E) : JournalAction S S :=
  Prog.lift fun _ c =>
    match insertAll K c.inner es with
    | (inner, .ok ()) => some (.ok inner, { c with inner := inner, stray := false })
    | (inner, .error error) => some (.error error, { c with inner := inner })

/-- The form of every call that changes a log: check the call and plan its records from the log in
memory, write them to the file, insert them, answer. -/
def commit {β α : Type} (plan : S → Result β) (records : β → List E)
    (write : β → JournalAction S Unit) (answer : β → S → α) : JournalAction S α := do
  let c ← getCell
  let planned ← ExceptT.mk (.ret (plan c.inner))
  write planned
  let inner ← insertRecords K (records planned)
  return answer planned inner

/-- `open`. -/
def openJournal (file : Option Bytes) : Result (JournalCell S) := do
  let read ← readJsonl K.codec K.decodeError file
  let inner ← (read.entries.map Prod.snd).foldlM K.apply K.empty
  return ⟨file, inner, read.tornTailSkipped, read.repair, false⟩

end Append

end Ehdb.Core
