import SpeedTables.Search.RecordRuns
import SpeedTables.Table.DoubleInsert
import SpeedTables.Table.Export

/-! The records of a table that is exported, and those of the table that its lines are imported
into.
-/

namespace SpeedTables

open Lib

variable {creator : CreatorTable} {host : Host}

-----------------------------------------------------------------------------------------
-- Values
-----------------------------------------------------------------------------------------

/-- The value of a field of data: a null has none. -/
def dataValue (data : creator.Data) (field : creator.DataField) : Option FieldValue :=
  (data field).fieldValue (creator.fields field)

namespace ExportOptions

/-- The values that come back: those of the fields that are exported, and of other fields those of
new rows.
-/
def restored (options : ExportOptions creator) (data : creator.Data) (field : creator.DataField)
    : Option FieldValue :=
  if options.fieldNums.contains field.val then dataValue data field
  else dataValue creator.init.data field

end ExportOptions

/-- A field of a new row that is set to the text of a field gets the value of the field. -/
def Restores (host : Host) (row : Row creator) (field : creator.Field) : Prop :=
  ∀ cell, (cellSet creator host field (creator.fields field).initialCell
      (getString host row field)).leaves (creator.fields field).initialCell = some cell →
    cell.fieldValue (creator.fields field) = (row.cells field).fieldValue (creator.fields field)

instance restores_decidable (row : Row creator) (field : creator.Field)
    : Decidable (Restores host row field) :=
  inferInstanceAs (Decidable (∀ cell ∈ SetOutcome.leaves _ _, _ = _))

section Rows

variable {options : ExportOptions creator} {row : Row creator} {record next : Record creator}

end Rows

-----------------------------------------------------------------------------------------
-- Lines
-----------------------------------------------------------------------------------------

section Lines

variable {options : ExportOptions creator} {table after : CTable creator} {row : Row creator}
  {line : CString}

/-- What an import needs to bring a row back: it is read as it was written, and the texts of fields
that are not written as the null string give their values.
-/
structure ExportOptions.Restorable (host : Host) (options : ExportOptions creator)
    (row : Row creator) : Prop where
  legible : options.LegibleRow host row
  restores : ∀ field ∈ options.fieldNums, options.writesNull row field = false →
    Restores host row field

theorem ExportOptions.restorable_iff {options : ExportOptions creator} {row : Row creator}
    : options.Restorable host row
      ↔ options.LegibleRow host row ∧ ∀ field ∈ options.fieldNums,
          options.writesNull row field = false → Restores host row field :=
  ⟨fun restorable => ⟨restorable.legible, restorable.restores⟩, fun both => ⟨both.1, both.2⟩⟩

instance restorable_decidable (options : ExportOptions creator) (row : Row creator)
    : Decidable (options.Restorable host row) :=
  decidable_of_iff
    (options.LegibleRow host row ∧ options.fieldNums.all (fun field =>
      options.writesNull row field || decide (Restores host row field)) = true)
    (by
      rw [ExportOptions.restorable_iff]
      simp [or_iff_not_imp_left])

/-- The lines of rows end no input, and the terminator has no line end and ends it. -/
structure ExportOptions.Ends (host : Host) (options : ExportOptions creator)
    (table : CTable creator) : Prop where
  rows : ∀ id ∈ options.rowIds host table, ∀ line,
    options.lineText host (table.rowAt id) = some line →
      options.importOptions.endsInput host line = false
  term : ∀ term ∈ options.term,
    10 ∉ term ∧ options.importOptions.endsInput host term = true

instance ends_decidable (options : ExportOptions creator) (table : CTable creator)
    : Decidable (options.Ends host table) :=
  decidable_of_iff
    ((∀ id ∈ options.rowIds host table, ∀ line ∈ options.lineText host (table.rowAt id),
        options.importOptions.endsInput host line = false)
      ∧ ∀ term ∈ options.term, 10 ∉ term ∧ options.importOptions.endsInput host term = true)
    ⟨fun both => ⟨both.1, both.2⟩, fun ends => ⟨ends.rows, ends.term⟩⟩

end Lines

-----------------------------------------------------------------------------------------
-- An export and its import
-----------------------------------------------------------------------------------------

end SpeedTables
