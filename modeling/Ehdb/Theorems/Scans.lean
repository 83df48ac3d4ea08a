import Ehdb.Proof.Core.Journal
import Ehdb.Reference.Scan

/-! Scans with a predicate. -/

namespace Ehdb.Theorems

open List Reference
open Proof.Journal (bind_eq_ok)

variable {A : ArrowArrays} {B : BatchMaker A} {batch out : RecordBatch A} {index : Nat}
  {value : ArrowScalarValue}
variable {indices : Option (List Nat)}

def typeOf : ArrowScalarValue → DataType
  | .utf8 _ => .utf8
  | .int64 _ => .int64

/-- The column holds values of the kind that is asked for. -/
def Typed (batch : RecordBatch A) (index : Nat) (value : ArrowScalarValue) : Prop :=
  batch.columns[index]?.map (·.array.dataType) = some (typeOf value)

/-- The row is one that the predicate asks for. -/
def Selected (index : Nat) (value : ArrowScalarValue) (row : List (Option ArrowScalarValue)) :
    Prop := row[index]? = some (some value)

instance : DecidablePred (Selected index value) := fun _ => inferInstanceAs (Decidable (_ = _))

/-- The rows that a scan ought to give for the batch. -/
def selection (batch : RecordBatch A) (index : Nat) (value : ArrowScalarValue)
    (indices : Option (List Nat)) : List (List (Option ArrowScalarValue)) :=
  (batch.rows.filter (Selected index value)).map (picked indices)

/-- No row has to be left out, or no row that stays has a null in a column that is shown. -/
def KeepsNulls (batch : RecordBatch A) (index : Nat) (value : ArrowScalarValue)
    (indices : Option (List Nat)) : Prop :=
  (∀ row ∈ batch.rows, Selected index value row) ∨
    ∀ row ∈ batch.rows, Selected index value row → none ∉ picked indices row

def keptRows (batch : RecordBatch A) (index : Nat) (value : ArrowScalarValue) : List Nat :=
  (range batch.numRows).filter fun row => Selected index value (batch.columns.map (·.cell row))

theorem matchingRowIndices_eq_ok {keep} : matchingRowIndices batch index value = .ok keep ↔
      Typed batch index value ∧ keep = keptRows batch index value := by
  unfold matchingRowIndices Typed
  cases found : batch.columns[index]? with
  | none => cases value <;> simp
  | some column =>
    have same : ((range column.array.len).filter fun row =>
        !column.array.isNull row && column.array.value row = value) =
          keptRows batch index value := by
      rw [keptRows, (batch.fits column (mem_of_getElem? found)).2.1]
      congr 1
      funext row
      cases null : column.array.isNull row <;> simp [Selected, found, Column.cell, null]
    rw [← same]
    obtain ⟨field, _ | _⟩ := column <;> cases value <;>
      simp [typeOf, ArrowArray.dataType, eq_comm]

theorem picked_map {α β : Type} (g : α → β) (columns : List α) :
    picked indices (columns.map g) = (picked indices columns).map g := by
  cases indices <;> simp [picked, map_filterMap]

/-- The cell that a scan shows, for a row of those that it keeps. -/
def shownCell (batch : RecordBatch A) (keep : List Nat) (row : Nat) (column : Column A) :
    Option ArrowScalarValue :=
  if keep.length = batch.numRows then column.cell row else some (column.array.value row)

theorem filterBatch_rows {keep} (found : matchingRowIndices batch index value = .ok keep) :
    ∃ out, filterBatch B batch (some (index, value)) = .ok out ∧ out.schema = batch.schema ∧
      out.rows = keep.map fun row => batch.columns.map (shownCell batch keep row) := by
  obtain ⟨typed, kept⟩ := matchingRowIndices_eq_ok.1 found
  simp only [filterBatch, found]
  by_cases whole : keep.length = batch.numRows
  · have all : keep = range batch.numRows := by
      rw [kept, keptRows] at whole ⊢
      exact filter_sublist.eq_of_length (by simpa using whole)
    refine ⟨batch, by simp [whole, bind, Except.bind, pure, Except.pure], rfl, ?_⟩
    simp [RecordBatch.rows, shownCell, all]
  · have fits : ∀ column ∈ batch.columns.map fun column =>
        { column with array := takeRows column.array keep }, column.Fits keep.length := by
      simp only [forall_mem_map]
      intro column mem
      obtain ⟨same, -⟩ := batch.fits column mem
      obtain ⟨field, _ | _⟩ := column <;>
        simp_all [Column.Fits, takeRows, ArrowArray.dataType, ArrowArray.len, ArrowArray.isNull]
    have column : batch.columns ≠ [] := by
      intro none
      simp [Typed, none] at typed
    refine ⟨⟨_, _, fits⟩, ?_, by simp [RecordBatch.schema], ?_⟩
    · simp [whole, B.tryNew_of_fits fits (by simpa using column), bind, Except.bind, pure,
        Except.pure]
    · refine ext_getElem (by simp [RecordBatch.rows]) fun j _ within => ?_
      simp only [RecordBatch.rows, getElem_map, getElem_range, map_map]
      refine map_congr_left fun column _ => ?_
      have within : j < keep.length := by simpa using within
      obtain ⟨field, _ | _⟩ := column <;>
        simp [shownCell, whole, Column.cell, takeRows, ArrowArray.isNull, ArrowArray.value, within]

theorem projectBatch_rows (column : indices = none ∨ picked indices batch.schema ≠ []) :
    ∃ out, projectBatch B batch indices = .ok out ∧ out.rows = batch.rows.map (picked indices) := by
  cases indices with
  | none => exact ⟨batch, rfl, by simp [show picked none = id from rfl]⟩
  | some indices =>
    have fits : ∀ column ∈ picked (some indices) batch.columns, column.Fits batch.numRows := by
      intro column mem
      obtain ⟨i, -, at_i⟩ := mem_filterMap.1 mem
      exact batch.fits column (mem_of_getElem? at_i)
    have some_column : picked (some indices) batch.columns ≠ [] := by
      simpa [RecordBatch.schema, picked_map] using column
    refine ⟨⟨_, _, fits⟩, by simp [projectBatch, B.tryNew_of_fits fits some_column], ?_⟩
    simp [RecordBatch.rows, picked_map, Function.comp_def]

theorem scanBatch_iff (typed : Typed batch index value)
    (column : indices = none ∨ picked indices batch.schema ≠ []) :
    ∃ out, (do projectBatch B (← filterBatch B batch (some (index, value))) indices) = .ok out ∧
      out.rows.length = (selection batch index value indices).length ∧
      (out.rows = selection batch index value indices ↔ KeepsNulls batch index value indices) := by
  have found := matchingRowIndices_eq_ok.2 ⟨typed, rfl⟩
  obtain ⟨mid, filtered, schema, rows⟩ := filterBatch_rows (B := B) found
  obtain ⟨out, projected, rows'⟩ := @projectBatch_rows _ B mid indices (schema ▸ column)
  refine ⟨out, by simp [filtered, projected, bind, Except.bind], ?_⟩
  have chosen : selection batch index value indices = (keptRows batch index value).map
      fun row => (picked indices batch.columns).map (·.cell row) := by
    simp only [selection, RecordBatch.rows, filter_map, map_map, Function.comp_def, picked_map,
      keptRows]
  have all : (keptRows batch index value).length = batch.numRows ↔
      ∀ row ∈ batch.rows, Selected index value row := by
    have := length_filter_eq_length_iff (l := range batch.numRows)
      (p := fun row => Selected index value (batch.columns.map (·.cell row)))
    simpa [RecordBatch.rows, keptRows] using this
  rw [rows', rows, chosen]
  refine ⟨by simp, ?_⟩
  simp only [map_map, Function.comp_def, picked_map, map_inj_left, KeepsNulls, ← all]
  by_cases whole : (keptRows batch index value).length = batch.numRows
  · simp [shownCell, whole]
  · have seen (row : Nat) (column : Column A) :
        shownCell batch (keptRows batch index value) row column = column.cell row ↔
          column.cell row ≠ none := by
      simp [shownCell, whole, Column.cell]
    simp only [seen, whole, false_or]
    simp [RecordBatch.rows, keptRows, picked_map]

theorem picked_ne_nil {schema : List Field} {projection : Option (List String)}
    (named : projection.mapM (projectionIndices schema) = .ok indices) :
    indices = none ∨ picked indices schema ≠ [] := by
  cases projection with
  | none => exact .inl (Except.ok.inj named).symm
  | some columns =>
    obtain ⟨found, listed, whole⟩ := bind_eq_ok named
    obtain rfl : some found = indices := Except.ok.inj whole
    unfold projectionIndices at listed
    split at listed
    · cases listed
    rename_i some_column
    obtain ⟨_, -, positions⟩ := bind_eq_ok listed
    obtain ⟨column, rest, rfl⟩ := exists_cons_of_ne_nil (by simpa using some_column)
    rw [mapM_cons] at positions
    obtain ⟨index, first, positions⟩ := bind_eq_ok positions
    obtain ⟨_, -, positions⟩ := bind_eq_ok positions
    obtain rfl := Except.ok.inj positions
    unfold position at first
    split at first
    · rename_i at_index
      obtain ⟨within, -⟩ := findIdx?_eq_some_iff_findIdx_eq.1 at_index
      obtain rfl := Except.ok.inj first
      exact .inr (by simp [picked, getElem?_eq_getElem within])
    · cases first

theorem mapM_flatMap_iff {α β γ δ ε : Type} {f : α → Except ε δ} {rows : δ → List γ}
    {R : α → β → Prop} {expected : β → List γ} {typed good : β → Prop} {as : List α} {bs : List β}
    (related : Forall₂ R as bs)
    (one : ∀ a b, R a b → typed b → ∃ c, f a = .ok c ∧ (rows c).length = (expected b).length ∧
      (rows c = expected b ↔ good b)) (needs : ∀ a b c, R a b → f a = .ok c → typed b) :
    (∃ cs, as.mapM f = .ok cs ∧ cs.flatMap rows = bs.flatMap expected) ↔
      ∀ b ∈ bs, typed b ∧ good b := by
  induction related with
  | nil => exact ⟨fun _ => nofun, fun _ => ⟨[], rfl, rfl⟩⟩
  | @cons a b as bs first _ ih =>
    rw [forall_mem_cons, ← ih, mapM_cons]
    constructor
    · rintro ⟨_, done, same⟩
      obtain ⟨c, here, done⟩ := bind_eq_ok done
      obtain ⟨cs, rest, done⟩ := bind_eq_ok done
      obtain rfl := Except.ok.inj done
      have is_typed := needs a b c first here
      obtain ⟨c', here', len, decides⟩ := one a b first is_typed
      obtain rfl := Except.ok.inj (here.symm.trans here')
      obtain ⟨same_first, same_rest⟩ := append_inj same len
      exact ⟨⟨is_typed, decides.1 same_first⟩, cs, rest, same_rest⟩
    · rintro ⟨⟨is_typed, is_good⟩, cs, rest, same⟩
      obtain ⟨c, here, -, decides⟩ := one a b first is_typed
      refine ⟨c :: cs, by simp [here, rest, bind, Except.bind, pure, Except.pure], ?_⟩
      rw [flatMap_cons, flatMap_cons, decides.2 is_good, same]

theorem stored_of_scan {schema stored batches}
    (scanned : scanLatest B schema stored none none = .ok batches) :
    Forall₂ (fun entry batch => entry.batch = .ok batch ∧ batch.schema = schema) stored
      batches := by
  replace scanned : stored.mapM (scanStored B schema none none) = .ok batches := scanned
  induction stored generalizing batches with
  | nil =>
    cases scanned
    exact .nil
  | cons entry stored ih =>
    rw [mapM_cons] at scanned
    obtain ⟨batch, here, scanned⟩ := bind_eq_ok scanned
    obtain ⟨rest, later, scanned⟩ := bind_eq_ok scanned
    obtain ⟨batch', read, checked⟩ := bind_eq_ok here
    obtain rfl := Except.ok.inj scanned
    split at checked
    · cases checked
    · rename_i table
      obtain rfl := Except.ok.inj checked
      exact .cons ⟨read, not_not.1 table⟩ (ih later)

/-- A scan with a predicate gives the rows of the scan without one whose column is equal to the
value, nulls included, exactly if the column holds values of that kind and in each batch all rows
stay, or the rows that stay have no null in a column that is shown. -/
theorem filtered_scan_exact_iff {schema : List Field} {stored : List (StoredBatch A)}
    {projection : Option (List String)} {predicate : ArrowEqualityPredicate}
    {batches : List (RecordBatch A)} (scanned : scanLatest B schema stored none none = .ok batches)
    (named : projection.mapM (projectionIndices schema) = .ok indices)
    (on : predicateIndex schema predicate = .ok (index, value)) :
    (∃ found, scanLatest B schema stored projection (some predicate) = .ok found ∧
      found.flatMap RecordBatch.rows =
        ((batches.flatMap RecordBatch.rows).filter (Selected index value)).map (picked indices)) ↔
      ∀ batch ∈ batches, Typed batch index value ∧ KeepsNulls batch index value indices := by
  have expected : ((batches.flatMap RecordBatch.rows).filter (Selected index value)).map
      (picked indices) = batches.flatMap (selection · index value indices) := by
    simp only [filter_flatMap, map_flatMap, selection]
  have scan : scanLatest B schema stored projection (some predicate) =
      stored.mapM (scanStored B schema indices (some (index, value))) := by
    rw [scanLatest, named]
    simp [on, bind, Except.bind, Functor.map, Except.map]
  rw [expected, scan]
  refine mapM_flatMap_iff (stored_of_scan scanned) ?_ ?_
  · rintro entry batch ⟨read, rfl⟩ typed
    simpa [scanStored, read, bind, Except.bind] using scanBatch_iff typed (picked_ne_nil named)
  · rintro entry batch out ⟨read, rfl⟩ done
    have done : (do projectBatch B (← filterBatch B batch (some (index, value))) indices) =
        .ok out := by
      simpa [scanStored, read, bind, Except.bind] using done
    obtain ⟨mid, filter, -⟩ := bind_eq_ok done
    obtain ⟨keep, found, -⟩ := bind_eq_ok filter
    exact (matchingRowIndices_eq_ok.1 found).1

/-- A slot of an array: its bit in the null bitmap, and what the value buffer holds there. -/
structure Slot (α : Type) where
  valid : Bool
  value : α

def slotKind {α : Type} (zero : α) : ArrowKind α where
  Array := List (Slot α)
  len := length
  isNull slots row := slots[row]?.any (!·.valid)
  value slots row := (slots[row]?.map Slot.value).getD zero
  ofValues := map (⟨true, ·⟩)
  len_ofValues := by simp
  isNull_ofValues values row := by cases is : values[row]? <;> simp [is]
  value_ofValues := by simp +contextual

def slotArrays : ArrowArrays := ⟨slotKind "", slotKind 0⟩

def slotBatches : BatchMaker slotArrays where
  tryNew columns :=
    let n := (columns.head?.map (·.array.len)).getD 0
    if fits : columns ≠ [] ∧ ∀ column ∈ columns, column.Fits n then .ok ⟨columns, n, fits.2⟩
    else .error "Invalid argument error"
  tryNew_of_fits {columns n} fits column := by
    obtain ⟨first, rest, rfl⟩ := exists_cons_of_ne_nil column
    obtain rfl := (fits first mem_cons_self).2.1
    exact dif_pos ⟨column, fits⟩

def noteSchema : List Field := [⟨"id", .int64, false⟩, ⟨"note", .utf8, true⟩]

/-- The first of two rows has no note. -/
def noteBatch : RecordBatch slotArrays where
  columns := [⟨⟨"id", .int64, false⟩, .int64 ([⟨true, 1⟩, ⟨true, 2⟩] : List (Slot Int64))⟩,
    ⟨⟨"note", .utf8, true⟩, .utf8 ([⟨false, ""⟩, ⟨true, "x"⟩] : List (Slot String))⟩]
  numRows := 2
  fits := by decide

def scanNotes (id : Int64) : Result (List (RecordBatch slotArrays)) :=
  scanLatest slotBatches noteSchema [⟨"notes", .ok noteBatch⟩] none (some ⟨"id", .int64 id⟩)

theorem noted_row_scanned : ∃ found, scanNotes 2 = .ok found ∧ found.flatMap RecordBatch.rows =
      (([noteBatch].flatMap RecordBatch.rows).filter (Selected 0 (.int64 2))).map
        (picked none) := by
  refine (filtered_scan_exact_iff rfl rfl (by decide)).2 fun batch mem => ?_
  obtain rfl := mem_singleton.1 mem
  exact ⟨rfl, .inr (by decide)⟩

/-- The null of the row that stays is an empty note in the scan. -/
theorem null_scanned_as_empty :
    (scanNotes 1).map (·.flatMap RecordBatch.rows) = .ok [[some (.int64 1), some (.utf8 "")]] ∧
      noteBatch.rows = [[some (.int64 1), none], [some (.int64 2), some (.utf8 "x")]] := by
  decide

end Ehdb.Theorems
