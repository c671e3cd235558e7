import SpeedTables.Lib.TclMatch
import SpeedTables.Lib.TclSplit

/-! The key of a Cassandra row as one text: made of the key columns, and taken apart for the
commands on the row.
-/

namespace SpeedTables.Stapi

open Lib

-----------------------------------------------------------------------------------------
-- The table and its keys
-----------------------------------------------------------------------------------------

/-- What `connect_cassandra` records of a table. It has seen every key column with its type, and
refuses a table without a partition key.
-/
structure CassandraTable where
  tableName : Text
  partitionKeys : List Text
  clusterKeys : List Text
  fields : List Text
  keysep : Text
  types : Text → Option Text
  partitionKeys_present : partitionKeys ≠ []
  types_present : ∀ column ∈ partitionKeys ++ clusterKeys, (types column).isSome = true

namespace CassandraTable

variable (table : CassandraTable)

def keyfields : List Text := table.partitionKeys ++ table.clusterKeys

/-- The conditions on the columns of a key. `quote` stands for `::casstcl::quote`. -/
def conditions (quote : Text → Text → Text) (pairs : List (Text × Text)) : Option (List Text) :=
  pairs.mapM (fun pair => (table.types pair.1).map (fun type =>
    pair.1 ++ " = ".toList ++ quote pair.2 type))

/-- The selected columns for the arguments of a `get`. The array of aliases has another name where
it is made.
-/
def selected (keys : Option (List Text)) (slist : List Text) : Option (List Text) :=
  (slist.mapM fun arg =>
    if arg = "_key".toList ∨ arg = "-key".toList then keys
    else if arg = "-all".toList then some []
    else if arg = "-count".toList then some ["COUNT(1)".toList]
    else some [arg]).map List.flatten

/-- A `SELECT` for one row. -/
structure SelectRow where
  select : List Text
  tableName : Text
  conditions : List Text

def SelectRow.text (statement : SelectRow) : Text :=
  "SELECT ".toList ++ ",".toList.intercalate statement.select ++ " FROM ".toList
    ++ statement.tableName
    ++ (if statement.conditions = [] then []
        else " WHERE ".toList ++ " AND ".toList.intercalate statement.conditions)
    ++ " LIMIT 1;".toList

/-- Arguments that stand for themselves, or one list of them. -/
def listed (args : List Text) : Option (List Text) :=
  if args.length = 1 then TclList.parse (args.headD []) else some args

/-- One key column has a value, in which no character is of the separator, or there are more, the
separator is one character, and no value has it.
-/
def KeyFits (array : Text → Option Text) : Prop :=
  (∃ column value, table.keyfields = [column] ∧ array column = some value ∧ value ≠ []
    ∧ ∀ c ∈ value, c ∉ table.keysep)
  ∨ 2 ≤ table.keyfields.length
    ∧ ∃ c, table.keysep = [c]
      ∧ ∀ column ∈ table.keyfields, ∀ value, array column = some value → c ∉ value

variable {table : CassandraTable} {array : Text → Option Text}

/-- Two flights of one day, by their day and number. -/
def flights : CassandraTable where
  tableName := "flights".toList
  partitionKeys := ["day".toList]
  clusterKeys := ["ident".toList]
  fields := ["day".toList, "ident".toList, "gate".toList]
  keysep := ":".toList
  types := fun column =>
    if column ∈ ["day".toList, "ident".toList, "gate".toList] then some "text".toList else none
  partitionKeys_present := by decide
  types_present := by decide

/-- A row of the flights. -/
def flight (day ident : String) (column : Text) : Option Text :=
  if column = "day".toList then some day.toList
  else if column = "ident".toList then some ident.toList
  else none

end CassandraTable

end SpeedTables.Stapi
