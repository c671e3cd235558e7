import Mathlib
import SpeedTables.Remote.Framing
import SpeedTables.Table.Quote

/-! The rows of a remote search, streamed as tab-separated lines up to an end marker, and how the
client decodes them.
-/

namespace SpeedTables.Remote

open Lib (Text)

-----------------------------------------------------------------------------------------
-- Quoting
-----------------------------------------------------------------------------------------

/-- The bytes of a character in a string of Tcl, where NUL has two. -/
def tclBytes (c : Char) : CString :=
  if c = Char.ofNat 0 then [0xC0, 0x80] else String.utf8EncodeChar c

/-- The bytes of a text. -/
def textBytes (text : Text) : CString :=
  text.flatMap tclBytes

/-- `quoteChar` of `ctable_quoteString` -/
def quoteMark : QuoteType → Option UInt8
  | .none => none
  | .uri | .strictUri => some 37
  | .escape | .strictEscape => some 92

def isStrict : QuoteType → Bool
  | .strictUri | .strictEscape => true
  | _ => false

/-- The bytes that are quoted, for the default separator. -/
def quotesByte (type : QuoteType) (byte : UInt8) : Bool :=
  quoteMark type == some byte || byte == 9 || byte < 0x20 || (isStrict type && 0x80 ≤ byte)

/-- `%02x` -/
def hexText (byte : UInt8) : Text :=
  [Nat.digitChar (byte.toNat / 16), Nat.digitChar (byte.toNat % 16)]

/-- `%03o` -/
def octalText (byte : UInt8) : Text :=
  [Nat.digitChar (byte.toNat / 64), Nat.digitChar (byte.toNat / 8 % 8),
    Nat.digitChar (byte.toNat % 8)]

/-- The tables `special` and `replace`. -/
def escapeLetter (byte : UInt8) : Option Char :=
  if byte = 8 then some 'b'
  else if byte = 12 then some 'f'
  else if byte = 10 then some 'n'
  else if byte = 13 then some 'r'
  else if byte = 9 then some 't'
  else if byte = 11 then some 'v'
  else if byte = 92 then some '\\'
  else none

def quoteByte (type : QuoteType) (byte : UInt8) : Text :=
  match type with
  | .uri | .strictUri => '%' :: hexText byte
  | _ => '\\' :: ((escapeLetter byte).elim (octalText byte) fun letter => [letter])

/-- A character has all its bytes quoted, or none. -/
def quoteChar (type : QuoteType) (c : Char) : Text :=
  if (tclBytes c).any (quotesByte type) then (tclBytes c).flatMap (quoteByte type) else [c]

/-- `ctable_quoteString` -/
def quoteString (type : QuoteType) (text : Text) : Text :=
  if type = .none then text else text.flatMap (quoteChar type)

-----------------------------------------------------------------------------------------
-- The exchange
-----------------------------------------------------------------------------------------

/-- A column of a row: its text, and whether the table quotes it. -/
structure Column where
  text : Text
  quoted : Bool
  deriving DecidableEq

/-- The name of a field, or `_key`. -/
structure FieldName where
  text : Text
  present : text ≠ []
  word : ∀ c ∈ text, c.isAlphanum = true ∨ c = '_'

/-- The response that ends an exchange. -/
inductive Reply where
  | ok (result : Text)
  | error (message info code : Text)

def Reply.line : Reply → Text
  | .ok result => Lib.TclList.format [['k'], result]
  | .error message info code => Lib.TclList.format [['e'], message, info, code]

/-- The local table of `-into`: its fields and those it quotes, and whether it can store a row
behind others.
-/
structure LocalTable where
  fields : List Text
  quotes : Text → Bool
  takes : List (List CString) → List CString → Bool

/-- What the client does with the rows: it writes the lines to a channel, evaluates a script, for
which a variable may be named, or stores the rows in a table.
-/
inductive Mode where
  | writeTabsep
  | code (action : Bool)
  | into (table : LocalTable)

def Mode.raw : Mode → Bool
  | .writeTabsep => true
  | _ => false

/-- `::ncgi::decode`, which reads a plus as a space. -/
structure Ncgi where
  decode : Text → Text
  nil : decode [] = []
  plus : ∀ rest, decode ('+' :: rest) = ' ' :: decode rest
  escape : ∀ (byte : UInt8) (rest : Text), byte < 0x80 →
    decode ('%' :: hexText byte ++ rest) = Char.ofNat byte.toNat :: decode rest
  other : ∀ (c : Char) (rest : Text), c ≠ '+' → c ≠ '%' → decode (c :: rest) = c :: decode rest

/-- A search of a remote table: what its caller asks for, whether the client has had quoting enabled,
and what the search of the server writes. Rows are written below a line of names, if any.
-/
structure Exchange where
  mode : Mode
  asked : QuoteType
  enabled : Bool
  names : Option (List FieldName)
  rows : List (List Column)
  reply : Reply
  headed : mode.raw = false → names = none → rows = []
  fits : ∀ fields ∈ names, ∀ row ∈ rows, row.length = fields.length

/-- The end marker. -/
def marker : Text := ['\\', '.']

/-- The columns of a line. -/
def tabbed (columns : List Text) : Text :=
  ['\t'].intercalate columns

def columnTitles (names : List FieldName) : List Text :=
  names.map FieldName.text

namespace Exchange

variable (exchange : Exchange)

/-- The `-quote` option that reaches the server: the client replaces that of its caller if it has had
quoting enabled.
-/
def serverQuote : QuoteType :=
  if exchange.enabled then .uri else exchange.asked

/-- A column as it is written under a type of quoting. -/
def writtenUnder (type : QuoteType) (column : Column) : Text :=
  if column.quoted then quoteString type column.text else column.text

def written (column : Column) : Text :=
  writtenUnder exchange.serverQuote column

/-- `dstring_append_get_tabsep` -/
def rowText (row : List Column) : Text :=
  tabbed (row.map exchange.written)

/-- `dstring_append_fieldnames` -/
def titles : List Text :=
  exchange.names.toList.map fun names => tabbed (columnTitles names)

/-- The lines that the search writes. -/
def lines : List Text :=
  exchange.titles ++ exchange.rows.map exchange.rowText

end Exchange

/-- `remote_send` -/
def remoteSend (line : Text) : Text :=
  (if 8192 < line.length ∨ '\n' ∈ line then
      ['#', ' '] ++ Nat.toDigits 10 (line.length + 1) ++ ['\n']
    else []) ++ line ++ ['\n']

/-- The line of a response as it is read: with its line end if it was announced. -/
def arrived (line : Text) : Text :=
  if 8192 < line.length ∨ '\n' ∈ line then line ++ ['\n'] else line

/-- What the server sends behind the line `m`. -/
def Exchange.sent (exchange : Exchange) : Text :=
  joined (exchange.lines ++ [marker]) ++ remoteSend exchange.reply.line

/-- A text behind the translations of both sockets. -/
def translated (text : Text) : Text :=
  (autoTranslate false (crlf text)).1

-----------------------------------------------------------------------------------------
-- The client
-----------------------------------------------------------------------------------------

/-- `gets`, which waits for the end of a line. -/
def getsLine (text : Text) : Option (Text × Text) :=
  match text.dropWhile (· ≠ '\n') with
  | [] => none
  | _ :: rest => some (text.takeWhile (· ≠ '\n'), rest)

/-- `get_response` -/
def getResponse (text : Text) : Option (Text × Text) :=
  match getsLine (text.dropWhile (· = '\n')) with
  | none => none
  | some ('#' :: header, rest) =>
      let length := Nat.ofDigitChars 10 (trim header) 0
      if length = 0 ∨ rest.length < length then none else some (rest.take length, rest.drop length)
  | some (line, rest) => some (line, rest)

/-- `split $line "\t"` -/
def splitTabs (line : Text) : List Text :=
  if line = [] then [] else line.splitOn '\t'

/-- The values of a list, and empty ones up to a length. -/
def padded (length : Nat) (values : List Text) : List Text :=
  values ++ List.replicate (length - values.length) []

/-- `foreach var $fields value [split $line "\t"]`, with the values that are assigned. -/
def foreachPairs (ncgi : Ncgi) (dequoting : Bool) (fields : List Text) (line : Text)
    : List (Text × Text) :=
  let values := splitTabs line
  let rounds := max fields.length values.length
  (padded rounds fields).zip
    ((padded rounds values).map fun value => if dequoting then ncgi.decode value else value)

/-- `get_fields_from_tabsep` without an unknown field. -/
def LocalTable.knows (table : LocalTable) (columns : List Text) : Bool :=
  match columns with
  | ['_', 'k', 'e', 'y'] :: rest => rest.all table.fields.contains
  | columns => columns.all table.fields.contains

/-- The values that `set_from_tabsep` takes from a line. -/
def LocalTable.values (table : LocalTable) (dequoting : Bool) (columns : List Text) (line : Text)
    : List CString :=
  columns.zipWith
    (fun column piece =>
      let bytes := textBytes piece
      if dequoting ∧ table.quotes column then (copyDequoted .uri bytes.length bytes).getD []
      else bytes)
    (padded columns.length (line.splitOn '\t'))

/-- What a loop does with a line. -/
inductive Taken where
  | next
  | stop
  | fail
  deriving DecidableEq

/-- What the loop that reads the response does with a line behind the lines accepted so far: that of
`remote_ctable_send`, or that of `import_tabsep`.
-/
def Exchange.take (exchange : Exchange) (accepted : List Text) (line : Text) : Taken :=
  match exchange.mode with
  | .writeTabsep => if line = marker then .stop else .next
  | .code action =>
      if line = marker then .stop
      else
        match accepted with
        | [] => .next
        | header :: _ =>
            match Lib.TclList.parse header with
            | none => .fail
            | some fields =>
                if action = false ∧ (fields ≠ [] ∨ splitTabs line ≠ []) then .fail else .next
  | .into table =>
      match accepted with
      | [] =>
          if line = [] then .stop
          else if table.knows (line.splitOn '\t') then .next
          else .fail
      | header :: rows =>
          if line = [] ∨ line = marker then .stop
          else
            let values := table.values exchange.enabled (header.splitOn '\t')
            if table.takes (rows.map values) (values line) then .next else .fail

/-- The lines that a loop accepts, whether it fails, and the rest of the stream. The first argument
bounds the lines.
-/
def consume (take : List Text → Text → Taken)
    : Nat → List Text → Text → Option (List Text × Bool × Text)
  | 0, _, _ => none
  | fuel + 1, accepted, text =>
      match getsLine text with
      | none => none
      | some (line, rest) =>
          match take accepted line with
          | .next => consume take fuel (accepted ++ [line]) rest
          | .stop => some (accepted, false, rest)
          | .fail => some (accepted, true, rest)

/-- What the caller of a search is given: lines, the variables and values for each evaluation of the
script, or the rows of a table.
-/
inductive Delivered where
  | written (lines : List Text)
  | evaluated (rows : Option (List (List (Text × Text))))
  | stored (rows : Option (List Text × List (List CString)))
  deriving DecidableEq

/-- What the lines accepted become. -/
def Exchange.delivered (exchange : Exchange) (ncgi : Ncgi) (accepted : List Text) : Delivered :=
  match exchange.mode, accepted with
  | .writeTabsep, lines => .written lines
  | .code _, [] => .evaluated none
  | .code _, header :: rows =>
      let fields := (Lib.TclList.parse header).getD []
      .evaluated (some (rows.map (foreachPairs ncgi exchange.enabled fields)))
  | .into _, [] => .stored none
  | .into table, header :: rows =>
      let columns := header.splitOn '\t'
      .stored (some (columns, rows.map (table.values exchange.enabled columns)))

/-- What the search wrote, as the caller asked for it. -/
def Exchange.expected (exchange : Exchange) : Delivered :=
  match exchange.mode with
  | .writeTabsep =>
      .written (exchange.titles
        ++ exchange.rows.map fun row => tabbed (row.map (writtenUnder exchange.asked)))
  | .code _ =>
      .evaluated (exchange.names.map fun names =>
        exchange.rows.map fun row => (columnTitles names).zip (row.map Column.text))
  | .into _ =>
      .stored (exchange.names.map fun names =>
        (columnTitles names, exchange.rows.map fun row => row.map fun column => textBytes column.text))

/-- What the client makes of a response: what it delivers, the stream behind the line where the
decoding ended, the response it reads from there, and what is left in the stream.
-/
structure Outcome where
  delivered : Delivered
  behind : Text
  response : Option Text
  left : Text
  deriving DecidableEq

/-- The branch `m` of `remote_ctable_send`, unless it waits for more. -/
def Exchange.receive (exchange : Exchange) (ncgi : Ncgi) (text : Text) : Option Outcome :=
  match consume exchange.take (text.length + 1) [] text with
  | none => none
  | some (accepted, true, rest) =>
      some
        { delivered := exchange.delivered ncgi accepted, behind := rest, response := none
          left := rest }
  | some (accepted, false, rest) =>
      (getResponse rest).map fun (line, left) =>
        { delivered := exchange.delivered ncgi accepted, behind := rest, response := some line
          left := left }

/-- The client delivers what the search wrote, ends at the end marker, reads the final response and
leaves nothing.
-/
def Exchange.Faithful (exchange : Exchange) (ncgi : Ncgi) : Prop :=
  exchange.receive ncgi (translated exchange.sent)
    = some
        { delivered := exchange.expected
          behind := translated (remoteSend exchange.reply.line)
          response := some (arrived exchange.reply.line)
          left := [] }

end SpeedTables.Remote
