import Ehdb.Stream.Log

/-! `LocalArrowSnapshotScanner` reads the record batches of a table's latest snapshot, keeps the
rows that an equality predicate asks for and the columns that a projection names. -/

namespace Ehdb.Reference

inductive DataType where
  | utf8
  | int64
  deriving DecidableEq

inductive ArrowScalarValue where
  | utf8 (value : String)
  | int64 (value : Int64)
  deriving DecidableEq

structure Field where
  name : String
  dataType : DataType
  nullable : Bool
  deriving DecidableEq

/-- The arrays of one type of values in `arrow-array`. A null has a value in the value buffer too,
and an array that is made of values has no null. -/
structure ArrowKind (α : Type) where
  Array : Type
  len : Array → Nat
  isNull : Array → Nat → Bool
  value : Array → Nat → α
  ofValues : List α → Array
  len_ofValues (values : List α) : len (ofValues values) = values.length
  isNull_ofValues (values : List α) (row : Nat) : isNull (ofValues values) row = false
  value_ofValues (values : List α) (row : Nat) (inside : row < values.length) :
    value (ofValues values) row = values[row]

attribute [simp] ArrowKind.len_ofValues ArrowKind.isNull_ofValues ArrowKind.value_ofValues

/-- `StringArray` and `Int64Array`. -/
structure ArrowArrays where
  strings : ArrowKind String
  ints : ArrowKind Int64

variable {A : ArrowArrays}

inductive ArrowArray (A : ArrowArrays) where
  | utf8 (strings : A.strings.Array)
  | int64 (ints : A.ints.Array)

namespace ArrowArray

def dataType : ArrowArray A → DataType
  | .utf8 _ => .utf8
  | .int64 _ => .int64

def len : ArrowArray A → Nat
  | .utf8 strings => A.strings.len strings
  | .int64 ints => A.ints.len ints

def isNull (array : ArrowArray A) (row : Nat) : Bool :=
  match array with
  | .utf8 strings => A.strings.isNull strings row
  | .int64 ints => A.ints.isNull ints row

def value (array : ArrowArray A) (row : Nat) : ArrowScalarValue :=
  match array with
  | .utf8 strings => .utf8 (A.strings.value strings row)
  | .int64 ints => .int64 (A.ints.value ints row)

end ArrowArray

/-- A column of a batch with its field in the schema. -/
structure Column (A : ArrowArrays) where
  field : Field
  array : ArrowArray A

/-- What `RecordBatch::try_new` asks of a column. -/
def Column.Fits (numRows : Nat) (column : Column A) : Prop :=
  column.array.dataType = column.field.dataType ∧ column.array.len = numRows ∧
    (column.field.nullable ∨ ∀ row < numRows, column.array.isNull row = false)

instance (numRows : Nat) : DecidablePred (Column.Fits numRows : Column A → Prop) :=
  fun _ => instDecidableAnd

/-- What a reader sees in a row: nothing for a null. -/
def Column.cell (row : Nat) (column : Column A) : Option ArrowScalarValue :=
  if column.array.isNull row then none else some (column.array.value row)

structure RecordBatch (A : ArrowArrays) where
  columns : List (Column A)
  numRows : Nat
  fits : ∀ column ∈ columns, column.Fits numRows

namespace RecordBatch

def schema (batch : RecordBatch A) : List Field := batch.columns.map Column.field

def rows (batch : RecordBatch A) : List (List (Option ArrowScalarValue)) :=
  (List.range batch.numRows).map fun row => batch.columns.map (·.cell row)

end RecordBatch

/-- `RecordBatch::try_new` of `arrow-array`. It makes a batch of columns that fit. -/
structure BatchMaker (A : ArrowArrays) where
  tryNew : List (Column A) → Except String (RecordBatch A)
  tryNew_of_fits {columns : List (Column A)} {n : Nat} (fits : ∀ column ∈ columns, column.Fits n)
    (column : columns ≠ []) : tryNew columns = .ok ⟨columns, n, fits⟩

def matchingRowIndices (batch : RecordBatch A) (columnIndex : Nat) (value : ArrowScalarValue) :
    Result (List Nat) :=
  let rows (array : ArrowArray A) := (List.range array.len).filter fun row =>
    !array.isNull row && array.value row = value
  match value, batch.columns[columnIndex]? with
  | .utf8 _, some ⟨_, .utf8 strings⟩ => .ok (rows (.utf8 strings))
  | .utf8 _, _ => .error (.invalidState "UTF-8 equality predicate requires a UTF-8 column")
  | .int64 _, some ⟨_, .int64 ints⟩ => .ok (rows (.int64 ints))
  | .int64 _, _ => .error (.invalidState "Int64 equality predicate requires an Int64 column")

/-- The values of the rows make up the new array, which has no null. -/
def takeRows (array : ArrowArray A) (rows : List Nat) : ArrowArray A :=
  match array with
  | .utf8 strings => .utf8 (A.strings.ofValues (rows.map (A.strings.value strings)))
  | .int64 ints => .int64 (A.ints.ofValues (rows.map (A.ints.value ints)))

variable (B : BatchMaker A)

def filterBatch (batch : RecordBatch A) :
    Option (Nat × ArrowScalarValue) → Result (RecordBatch A)
  | none => .ok batch
  | some (columnIndex, value) => do
    let keep ← matchingRowIndices batch columnIndex value
    if keep.length = batch.numRows then
      return batch
    match B.tryNew (batch.columns.map fun column =>
        { column with array := takeRows column.array keep }) with
    | .ok batch => return batch
    | .error err => throw (.invalidState s!"arrow filter failed: {err}")

/-- What stands at these positions. -/
def picked {α : Type} (indices : Option (List Nat)) (columns : List α) : List α :=
  match indices with
  | none => columns
  | some indices => indices.filterMap (columns[·]?)

def projectBatch (batch : RecordBatch A) (projection : Option (List Nat)) :
    Result (RecordBatch A) :=
  if projection.isNone then .ok batch
  else
    match B.tryNew (picked projection batch.columns) with
    | .ok batch => .ok batch
    | .error err => .error (.invalidState s!"arrow projection failed: {err}")

def position (schema : List Field) (what column : String) : Result Nat :=
  match schema.findIdx? (·.name == column) with
  | some index => .ok index
  | none => .error (.notFound s!"{what} column {column}")

def projectionIndices (schema : List Field) (columns : List String) : Result (List Nat) := do
  if columns.isEmpty then
    throw (.invalidState "arrow scan projection must contain at least one column")
  let _ ← columns.foldlM (fun (seen : List String) column => do
    Stream.validateIdentifier column
    if column ∈ seen then
      throw (.invalidState s!"duplicate arrow scan projection column: {column}")
    return column :: seen) []
  columns.mapM (position schema "projection")

structure ArrowEqualityPredicate where
  column : String
  value : ArrowScalarValue

def predicateIndex (schema : List Field) (predicate : ArrowEqualityPredicate) :
    Result (Nat × ArrowScalarValue) := do
  Stream.validateIdentifier predicate.column
  return (← position schema "predicate" predicate.column, predicate.value)

/-- A batch of a snapshot with the path of its file. A file from which `get_verified` and
`decode_record_batches` make no batches stands for one with their error. -/
structure StoredBatch (A : ArrowArrays) where
  path : String
  batch : Result (RecordBatch A)

/-- The body of the loop of `scan_latest`. -/
def scanStored (schema : List Field) (projection : Option (List Nat))
    (predicate : Option (Nat × ArrowScalarValue)) (stored : StoredBatch A) :
    Result (RecordBatch A) := do
  let batch ← stored.batch
  if batch.schema ≠ schema then
    throw (.invalidState s!"arrow ipc schema mismatch for {stored.path}")
  projectBatch B (← filterBatch B batch predicate) projection

/-- `scan_latest`, for a table of this schema whose latest snapshot has these batches. -/
def scanLatest (schema : List Field) (stored : List (StoredBatch A))
    (projection : Option (List String)) (predicate : Option ArrowEqualityPredicate) :
    Result (List (RecordBatch A)) := do
  let projection ← projection.mapM (projectionIndices schema)
  let predicate ← predicate.mapM (predicateIndex schema)
  stored.mapM (scanStored B schema projection predicate)

end Ehdb.Reference
