import SpeedTables.Lib.TclList

/-! The table server's reception of requests: the handler of a readable connection. -/

namespace SpeedTables.Remote

open Lib (Text)

-----------------------------------------------------------------------------------------
-- Connections
-----------------------------------------------------------------------------------------

/-- A request as `remote_receive` takes it from its line. -/
structure Request where
  url : Text
  command : Text
  deriving DecidableEq

/-- `lassign $line ctableUrl line` -/
def Request.ofElements (elements : List Text) : Request where
  url := elements.headD []
  command := elements.tail.headD []

/-- What a request is served with: the request, and the quoting that `remote_invoke` adds to a
search.
-/
structure Handed where
  request : Request
  quote : Option Text
  deriving DecidableEq

/-- What the reception of requests depends on: the integers of the interpreter; the table that a URL
names, unless the URL is refused or the table redirected; and the commands that close their own
connection.
-/
structure ServerHost where
  getInt : Text → Option Int
  table : Text → Option Text
  closes : Request → Bool

/-- The string kept in `bytesNeeded`. -/
inductive ByteCount where
  | number (count : Int)
  | string (value : Text)
  deriving DecidableEq

/-- The elements of the server's arrays at one socket name. -/
structure SocketArrays where
  bytesNeeded : Option ByteCount
  incompleteLine : Option Text
  nEmptyCallbacks : Nat
  quoteType : Option Text
  deriving DecidableEq

/-- No array has an element for the socket name. -/
def SocketArrays.unset : SocketArrays where
  bytesNeeded := none
  incompleteLine := none
  nEmptyCallbacks := 0
  quoteType := none

/-- How the far end of a connection ends it. -/
inductive Ending where
  | eof
  | reset
  deriving DecidableEq

/-- An accepted connection: the characters received and not read, after the translation of line
ends, and whether the last of them was a carriage return; how the far end has ended; whether the
last read met the end of file; and whether the handler is still installed.
-/
structure Connection where
  received : Text
  sawReturn : Bool
  ending : Option Ending
  eof : Bool
  watched : Bool
  deriving DecidableEq

/-- A connection as `accept_connection` leaves it. -/
def Connection.accepted : Connection where
  received := []
  sawReturn := false
  ending := none
  eof := false
  watched := true

/-- The input translation `auto`: a carriage return, a newline, or both are one line end. -/
def autoTranslate : Bool → Text → Text × Bool
  | saw, [] => ([], saw)
  | saw, c :: rest =>
      if c = '\r' then
        let (text, last) := autoTranslate true rest
        ('\n' :: text, last)
      else if c = '\n' ∧ saw then autoTranslate false rest
      else
        let (text, last) := autoTranslate false rest
        (c :: text, last)

/-- Some characters arrive. -/
def Connection.arrive (connection : Connection) (chunk : Text) : Connection :=
  if connection.ending.isSome then connection
  else
    { connection with
      received := connection.received ++ (autoTranslate connection.sawReturn chunk).1
      sawReturn := (autoTranslate connection.sawReturn chunk).2 }

/-- `read`, which takes what has arrived, or fails on a connection that was reset. -/
def Connection.read (connection : Connection) (count : Nat) : Option (Text × Connection) :=
  let taken := connection.received.take count
  if taken = [] ∧ 0 < count ∧ connection.ending = some .reset then none
  else
    some (taken,
      { connection with
        received := connection.received.drop count
        eof := taken.length < count && connection.ending == some .eof })

/-- The outcome of `gets`. -/
inductive Gets where
  | line (line : Text) (connection : Connection)
  | none (connection : Connection)
  | error

/-- `gets` on a connection that does not block: the last line needs no line end. -/
def Connection.gets (connection : Connection) : Gets :=
  let line := connection.received.takeWhile (· ≠ '\n')
  match connection.received.dropWhile (· ≠ '\n') with
  | _ :: rest => .line line { connection with received := rest }
  | [] =>
      match connection.ending with
      | some .reset => .error
      | some .eof =>
          let atEnd := { connection with received := [], eof := true }
          if line = [] then .none atEnd else .line line atEnd
      | none => .none connection

-----------------------------------------------------------------------------------------
-- The handler
-----------------------------------------------------------------------------------------

/-- What a call of the handler leaves: the arrays, the connection unless it is closed, the requests
handed to `remote_invoke`, and whether the handler waits for more to arrive.
-/
structure Turn where
  arrays : SocketArrays
  connection : Option Connection
  handed : List Handed
  blocked : Bool
  deriving DecidableEq

/-- `handle_eof`, which forgets none of the arrays but one. -/
def Turn.close (arrays : SocketArrays) (handed : List Handed) : Turn where
  arrays := { arrays with nEmptyCallbacks := 0 }
  connection := none
  handed := handed
  blocked := true

/-- An error in the handler, which removes it from the connection. -/
def Turn.fail (arrays : SocketArrays) (connection : Connection) : Turn where
  arrays := arrays
  connection := some { connection with watched := false }
  handed := []
  blocked := true

/-- The handler returns. -/
def Turn.wait (arrays : SocketArrays) (connection : Connection) (blocked : Bool) : Turn where
  arrays := arrays
  connection := some connection
  handed := []
  blocked := blocked

/-- The value an `enable quote` command sets `quoteType` to. -/
def enabledQuote (command : Text) : Option Text :=
  match Lib.TclList.parse command with
  | some (['e', 'n', 'a', 'b', 'l', 'e'] :: ['q', 'u', 'o', 't', 'e'] :: rest) =>
      some (rest.headD ['1'])
  | _ => none

/-- The element of `quoteType` that `remote_invoke` finds. It does not declare the array as a
variable of its namespace, and reads a local one that is never set.
-/
def localQuoteType (_ : SocketArrays) : Option Text :=
  none

/-- The end of `remote_receive`, on a whole request: a line that is no list is an error, a URL that
is refused or redirected gets a response at once, and a connection on which the response cannot be
written is closed.
-/
def serve (host : ServerHost) (arrays : SocketArrays) (connection : Connection) (line : Text)
    : Turn :=
  match Lib.TclList.parse line with
  | none => .fail arrays connection
  | some elements =>
      let request := Request.ofElements elements
      match host.table request.url with
      | none =>
          if connection.ending = some .reset then .close arrays []
          else .wait arrays connection false
      | some _ =>
          let handed := [{ request := request, quote := localQuoteType arrays }]
          let enabled :=
            match enabledQuote request.command with
            | some value => { arrays with quoteType := some value }
            | none => arrays
          if host.closes request ∨ connection.ending = some .reset then .close enabled handed
          else
            { arrays := enabled, connection := some connection, handed := handed, blocked := false }

/-- Whether `$bytesNeeded($sock) > 0`: what is no number is compared as a string. -/
def ByteCount.positive : ByteCount → Bool
  | .number count => 0 < count
  | .string value => ['0'] < value

/-- `string trim` -/
def trim (text : Text) : Text :=
  ((text.dropWhile Lib.TclList.isSpace).reverse.dropWhile Lib.TclList.isSpace).reverse

/-- The rest of a request of which so many characters are missing. -/
def receiveRest (host : ServerHost) (arrays : SocketArrays) (connection : Connection) (count : Int)
    : Turn :=
  match connection.read count.toNat with
  | none => .fail arrays connection
  | some (lineRead, connection) =>
      let needed := count - lineRead.length
      let line := arrays.incompleteLine.getD [] ++ lineRead
      let arrays :=
        { arrays with bytesNeeded := some (.number needed), incompleteLine := some line }
      if 0 < needed then .wait arrays connection true else serve host arrays connection line

/-- The line that announces a request of several lines. -/
def receiveHeader (host : ServerHost) (arrays : SocketArrays) (connection : Connection)
    (header : Text) : Turn :=
  match host.getInt (trim header) with
  | none => .fail { arrays with bytesNeeded := some (.string (trim header)) } connection
  | some count =>
      let arrays := { arrays with bytesNeeded := some (.number count) }
      if count < 0 then .fail arrays connection
      else
        match connection.read count.toNat with
        | none => .fail arrays connection
        | some (lineRead, connection) =>
            let needed := count - lineRead.length
            let arrays := { arrays with bytesNeeded := some (.number needed) }
            if 0 < needed then
              .wait { arrays with incompleteLine := some lineRead } connection true
            else serve host arrays connection lineRead

/-- `remote_receive` -/
def remoteReceive (host : ServerHost) (arrays : SocketArrays) (connection : Connection) : Turn :=
  if connection.eof then .close arrays []
  else
    match arrays.bytesNeeded.filter ByteCount.positive with
    | some (.string _) => .fail arrays connection
    | some (.number count) => receiveRest host arrays connection count
    | none =>
        match connection.gets with
        | .error => .close arrays []
        | .none connection =>
            if connection.eof then .close arrays []
            else
              let count := arrays.nEmptyCallbacks + 1
              let arrays := { arrays with nEmptyCallbacks := count }
              if 1000 < count then .close arrays [] else .wait arrays connection true
        | .line line connection =>
            let arrays := { arrays with nEmptyCallbacks := 0 }
            match line with
            | [] => .wait arrays connection false
            | '#' :: header => receiveHeader host arrays connection header
            | line => serve host arrays connection line

end SpeedTables.Remote
