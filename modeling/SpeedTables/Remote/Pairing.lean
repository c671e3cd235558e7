import SpeedTables.Remote.StreamLines

/-! The commands that a client issues through the remote tables of a URL, and the lines that it takes
for their answers.
-/

namespace SpeedTables.Remote

open Lib (Text)

-----------------------------------------------------------------------------------------
-- Responses
-----------------------------------------------------------------------------------------

/-- The line that answers a command. -/
inductive Final where
  | reply (reply : Reply)
  | redirect (url : Text)

def Final.line : Final → Text
  | .reply answer => answer.line
  | .redirect url => Lib.TclList.format [['r'], url]

/-- The response of a server to a command. A search streams lines, unless it is one for a count. -/
inductive Response where
  | direct (final : Final)
  | streamed (lines : List Text) (reply : Reply)

def Response.final : Response → Final
  | .direct final => final
  | .streamed _ reply => .reply reply

/-- What `remote_receive` and `remote_invoke` send. -/
def Response.sent : Response → Text
  | .direct final => remoteSend final.line
  | .streamed lines reply => joined (['m'] :: lines ++ [marker]) ++ remoteSend reply.line

-----------------------------------------------------------------------------------------
-- Calls
-----------------------------------------------------------------------------------------

/-- What a client is to do with the lines of a stream. Rows that have been stored in a table may be
given to a local search of it.
-/
inductive Action where
  | none
  | writeTabsep
  | code
  | into (further : Bool)
  deriving DecidableEq

/-- The return codes of Tcl. -/
inductive TclStatus where
  | ok
  | error
  | return
  | break
  | continue
  deriving DecidableEq

/-- Where a call of `remote_ctable_send` stands: in front of `get_response`, in its loop over the lines
or in `read_tabsep`, each behind its first line or not, or in the code for a row or in the local
search, where more commands may be issued.
-/
inductive Stage where
  | waiting
  | looping (titled : Bool)
  | importing (titled : Bool)
  | body
  | acting
  deriving DecidableEq

/-- A call of `remote_ctable_send`: its command, what it is to do with a stream, whether it follows
redirects, and the number of the connection that its `sock` names.
-/
structure Sending where
  command : Nat
  action : Action
  follows : Bool
  connection : Nat
  stage : Stage

/-- A client with its calls, of which the innermost comes first. Commands and connections are
numbered; of the connection that is cached, if it is open, there is the stream that is unread. The
last two fields are histories of the answers, by command: what servers have produced, and what the
client has taken.
-/
structure Client where
  calls : List Sending
  issued : Nat
  opened : Nat
  stream : Option Text
  produced : List (Nat × Text)
  taken : List (Nat × Text)

def Client.new : Client where
  calls := []
  issued := 0
  opened := 0
  stream := none
  produced := []
  taken := []

-----------------------------------------------------------------------------------------
-- Steps
-----------------------------------------------------------------------------------------

/-- What happens next: a command is issued, which the server will answer; the innermost call reads a
line, and may fail to handle it; the script that is evaluated for a call ends; the connection is
dropped by the caller.
-/
inductive ClientEvent where
  | issue (action : Action) (follows : Bool) (response : Response)
  | read (fails : Bool)
  | finish (status : TclStatus)
  | disconnect

/-- `lindex $line 0` -/
def firstWord (line : Text) : Option Text :=
  (Lib.TclList.parse line).map (·.headD [])

namespace Client

variable (client : Client)

/-- A script of the client is running: no call is in progress, or the innermost evaluates one. -/
def idle : Bool :=
  match client.calls with
  | [] => true
  | call :: _ => call.stage = .body ∨ call.stage = .acting

/-- `remote_ctable_cache_disconnect` -/
def disconnect : Client :=
  { client with stream := none }

/-- `remote_ctable_cache_connect` -/
def connect : Client :=
  match client.stream with
  | some _ => client
  | none => { client with opened := client.opened + 1, stream := some [] }

/-- `remote_sock_send`, with the response that is to come. -/
def sockSend (action : Action) (follows : Bool) (response : Response) : Client :=
  { client with
    calls :=
      { command := client.issued, action := action, follows := follows, connection := client.opened
        stage := .waiting } :: client.calls
    issued := client.issued + 1
    stream := client.stream.map (· ++ translated response.sent)
    produced := (client.issued, arrived response.final.line) :: client.produced }

/-- The stream of a call, unless its connection has been closed. -/
def streamOf (call : Sending) : Option Text :=
  if call.connection = client.opened then client.stream else none

/-- The innermost call goes on at another stage. -/
def goOn (call : Sending) (stage : Stage) (calls : List Sending) (rest : Text) : Client :=
  { client with calls := { call with stage := stage } :: calls, stream := some rest }

/-- The innermost call returns, with the rest of the stream left to the connection. -/
def leave (calls : List Sending) (rest : Text) : Client :=
  { client with calls := calls, stream := some rest }

/-- A call in front of `get_response`. -/
def getResponse (call : Sending) (calls : List Sending) (stream : Text) : Client :=
  match Remote.getResponse stream with
  | none => client
  | some (line, rest) =>
      if firstWord line = some ['m'] then
        match call.action with
        | .into _ => client.goOn call (.importing false) calls rest
        | _ => client.goOn call (.looping false) calls rest
      else
        let answered := { client with taken := (call.command, line) :: client.taken }
        if firstWord line = some ['r'] ∧ call.follows then
          { answered with calls := calls, stream := none }
        else answered.leave calls rest

/-- A round of the loop over the lines. -/
def loop (call : Sending) (calls : List Sending) (titled fails : Bool) (stream : Text) : Client :=
  match getsLine stream with
  | none => client
  | some (line, rest) =>
      if line = marker then client.goOn call .waiting calls rest
      else
        match call.action with
        | .writeTabsep =>
            if fails then { client.disconnect with calls := calls }
            else client.goOn call (.looping true) calls rest
        | .code =>
            if !titled then client.goOn call (.looping true) calls rest
            else if fails then client.leave calls rest
            else client.goOn call .body calls rest
        | _ => client.leave calls rest

/-- A round of `read_tabsep`, and what follows when it ends. -/
def readTabsep (call : Sending) (calls : List Sending) (titled fails : Bool) (stream : Text)
    : Client :=
  match getsLine stream with
  | none => client
  | some (line, rest) =>
      if line = [] ∨ titled ∧ line = marker then
        client.goOn call (if call.action = .into true then .acting else .waiting) calls rest
      else if fails then client.leave calls rest
      else client.goOn call (.importing true) calls rest

/-- The innermost call reads. A read from a closed connection ends the call with an error. -/
def read (fails : Bool) : Client :=
  match client.calls with
  | [] => client
  | call :: calls =>
      match call.stage with
      | .body | .acting => client
      | stage =>
          match client.streamOf call with
          | none => { client with calls := calls }
          | some stream =>
              match stage with
              | .looping titled => client.loop call calls titled fails stream
              | .importing titled => client.readTabsep call calls titled fails stream
              | _ => client.getResponse call calls stream

/-- The code for a row, or the local search, ends. -/
def finish (status : TclStatus) : Client :=
  match client.calls with
  | [] => client
  | call :: calls =>
      match call.stage with
      | .body =>
          if status = .ok ∨ status = .continue then
            { client with calls := { call with stage := .looping true } :: calls }
          else { client.disconnect with calls := calls }
      | .acting =>
          if status = .ok then { client with calls := { call with stage := .waiting } :: calls }
          else { client with calls := calls }
      | _ => client

/-- One step. What cannot happen changes nothing. -/
def step : ClientEvent → Client
  | .issue action follows response =>
      if client.idle then client.connect.sockSend action follows response else client
  | .read fails => client.read fails
  | .finish status => client.finish status
  | .disconnect => if client.idle then client.disconnect else client

def run (events : List ClientEvent) : Client :=
  events.foldl step client

-----------------------------------------------------------------------------------------
-- What is to hold
-----------------------------------------------------------------------------------------

/-- Every line taken for the answer to a command is the one that was produced for it. -/
def Paired : Prop :=
  ∀ answer ∈ client.taken, answer ∈ client.produced

instance : Decidable client.Paired :=
  inferInstanceAs (Decidable (∀ answer ∈ client.taken, answer ∈ client.produced))

/-- The innermost call reads from an open connection. -/
def Attached (call : Sending) : Prop :=
  client.calls.head? = some call ∧ (client.streamOf call).isSome

end Client

/-- The lines that `gets` finds in some lines of a stream. -/
def linesRead (lines : List Text) : List Text :=
  lines.flatMap fun line => (line.map lineEnd).splitOn '\n'

/-- The lines of a stream end at the end marker for what is to be done with them: none of them is the
marker, or blank for a table, which also needs the line of names, and there are none when nothing is
to be done.
-/
structure Action.Suits (action : Action) (titled : Bool) (lines : List Text) : Prop where
  unmarked : marker ∉ lines
  filled : ∀ further, action = .into further → [] ∉ lines
  headed : ∀ further, action = .into further → titled = false → lines ≠ []
  handled : action = .none → lines = []

/-- A response has no carriage return in its last line, and its stream suits the action. -/
def Response.Suits (action : Action) : Response → Prop
  | .direct final => '\r' ∉ final.line
  | .streamed lines reply => '\r' ∉ reply.line ∧ action.Suits false (linesRead lines)

/-- A command is not issued on a connection from which a call in progress reads, and its response
suits it; while its connection is open, a call is not left by a line that it cannot handle, except
that of `-write_tabsep`, nor by its local search.
-/
def Client.Spares (client : Client) : ClientEvent → Prop
  | .issue action _ response =>
      (∀ call ∈ client.calls, client.streamOf call = none) ∧ response.Suits action
  | .read fails =>
      fails = true → ∀ call, client.Attached call → call.stage ≠ .waiting → call.action = .writeTabsep
  | .finish status => ∀ call, client.Attached call → call.stage = .acting → status = .ok
  | .disconnect => True

/-- Every step of a run meets the condition. -/
def Client.Along : Client → List ClientEvent → Prop
  | _, [] => True
  | client, event :: events => client.Spares event ∧ (client.step event).Along events

-----------------------------------------------------------------------------------------
-- Lines of a stream
-----------------------------------------------------------------------------------------

theorem splitOn_newline (text : Text)
    : joined (text.splitOn '\n') = text ++ ['\n'] ∧ ∀ piece ∈ text.splitOn '\n', '\n' ∉ piece := by
  induction text with
  | nil => simp [joined]
  | cons c text ih =>
      obtain ⟨whole, plain⟩ := ih
      rw [List.splitOn_cons_eq_if_modifyHead]
      split
      case isTrue newline =>
        rw [beq_iff_eq] at newline
        subst newline
        rw [joined_cons, whole]
        exact ⟨rfl, List.forall_mem_cons.mpr ⟨List.not_mem_nil, plain⟩⟩
      case isFalse other =>
        cases pieces : text.splitOn '\n' with
        | nil => exact absurd pieces (List.splitOn_ne_nil _ _)
        | cons first others =>
            rw [pieces, joined_cons] at whole
            rw [pieces] at plain
            rw [List.modifyHead_cons, joined_cons, List.cons_append, whole]
            refine ⟨rfl, ?_⟩
            obtain ⟨head, tail⟩ := List.forall_mem_cons.mp plain
            refine List.forall_mem_cons.mpr ⟨fun member => ?_, tail⟩
            rcases List.mem_cons.mp member with same | member
            · exact other (beq_iff_eq.mpr same.symm)
            · exact head member

/-- A stream of lines consists of the lines that are read of it. -/
theorem translated_lines (lines : List Text)
    : translated (joined lines) = joined (linesRead lines) := by
  rw [translated_map]
  induction lines with
  | nil => rfl
  | cons line lines ih =>
      have first := (splitOn_newline (line.map lineEnd)).1
      have newline : lineEnd '\n' = '\n' := by decide
      have split : linesRead (line :: lines)
          = (line.map lineEnd).splitOn '\n' ++ linesRead lines := rfl
      rw [joined_cons, List.map_append, List.map_cons, ih, split, joined_append, first, newline,
        List.append_assoc]
      rfl

/-- The response of a search as it arrives. -/
theorem translated_sent (lines : List Text) (reply : Reply)
    : translated (Response.streamed lines reply).sent
      = 'm' :: '\n' :: joined (linesRead lines ++ [marker]) ++ translated (remoteSend reply.line) := by
  have ends : linesRead [marker] = [marker] := by decide
  have begins : joined (linesRead [['m']]) = ['m', '\n'] := by decide
  have split : linesRead (['m'] :: lines ++ [marker])
      = linesRead [['m']] ++ (linesRead lines ++ linesRead [marker]) := by
    rw [List.cons_append, ← List.singleton_append]
    simp only [linesRead, List.flatMap_append]
  rw [Response.sent, translated_append, translated_lines, split, joined_append, begins, ends]
  rfl

theorem linesRead_whole (lines : List Text) : ∀ line ∈ linesRead lines, '\n' ∉ line := by
  intro line member
  obtain ⟨sent, -, piece⟩ := List.mem_flatMap.mp member
  exact (splitOn_newline (sent.map lineEnd)).2 line piece

theorem getsLine_cons {line : Text} (whole : '\n' ∉ line) (lines : List Text) (rest : Text)
    : getsLine (joined (line :: lines) ++ rest) = some (line, joined lines ++ rest) := by
  rw [getsLine_some, joined_cons]
  exact ⟨by simp, whole⟩

/-- The line that announces a stream. -/
theorem getResponse_stream (rest : Text)
    : getResponse ('m' :: '\n' :: rest) = some (['m'], rest) := by
  have read : getsLine ('m' :: '\n' :: rest) = some (['m'], rest) := by
    rw [getsLine_some]
    exact ⟨rfl, by decide⟩
  rw [getResponse, List.dropWhile_cons_of_neg (by decide), read]
  rfl

/-- The first word of a list of several elements, behind which anything may stand. -/
theorem firstWord_format (first second : Text) (others : List Text) (behind : Text)
    : firstWord (Lib.TclList.format (first :: second :: others) ++ behind) = none
      ∨ firstWord (Lib.TclList.format (first :: second :: others) ++ behind) = some first := by
  have ends : Lib.TclList.Ends (Lib.TclList.formatRest (second :: others) ++ behind) := by
    intro c head
    rw [Lib.TclList.formatRest] at head
    cases head
    decide
  rw [firstWord, Lib.TclList.parse, Lib.TclList.format, List.append_assoc,
    Lib.TclList.parseAll_element true first ends]
  cases Lib.TclList.parseAll _ _ with
  | none => exact .inl rfl
  | some elements => exact .inr rfl

theorem Final.firstWord_ne (final : Final) (behind : Text)
    : firstWord (final.line ++ behind) ≠ some ['m'] := by
  have other {first second : Text} {others : List Text} (letter : first ≠ ['m'])
      : firstWord (Lib.TclList.format (first :: second :: others) ++ behind) ≠ some ['m'] := by
    rcases firstWord_format first second others behind with none | found
    · rw [none]
      exact nofun
    · rw [found]
      exact fun same => letter (Option.some.inj same)
  cases final with
  | redirect url => exact other (by decide)
  | reply answer => cases answer <;> exact other (by decide)

theorem Final.line_head (final : Final)
    : ∃ c rest, final.line = c :: rest ∧ c ≠ '#' ∧ c ≠ '\n' := by
  cases final with
  | reply answer => exact answer.line_head
  | redirect url => exact ⟨'r', _, rfl, by decide, by decide⟩

/-- The last line of a response, as the client reads it. -/
theorem Final.read {final : Final} (plain : '\r' ∉ final.line)
    : getResponse (translated (remoteSend final.line)) = some (arrived final.line, [])
      ∧ firstWord (arrived final.line) ≠ some ['m'] := by
  refine ⟨(getResponse_remoteSend final.line_head).mpr plain, ?_⟩
  unfold arrived
  split
  · exact final.firstWord_ne ['\n']
  · simpa using final.firstWord_ne []

-----------------------------------------------------------------------------------------
-- The invariant
-----------------------------------------------------------------------------------------

/-- What is unread of the response to a call: from some line on, up to the last line. -/
def Sending.Unread (call : Sending) (produced : List (Nat × Text)) (stream : Text) : Prop :=
  ∃ final : Final, '\r' ∉ final.line ∧ (call.command, arrived final.line) ∈ produced
    ∧ ∃ titled lines, call.action.Suits titled lines ∧ (∀ line ∈ lines, '\n' ∉ line)
      ∧ match call.stage with
        | .waiting =>
            stream = translated (remoteSend final.line)
              ∨ titled = false
                ∧ stream = 'm' :: '\n' :: joined (lines ++ [marker])
                    ++ translated (remoteSend final.line)
        | .looping behind =>
            behind = titled ∧ (∀ further, call.action ≠ .into further)
              ∧ stream = joined (lines ++ [marker]) ++ translated (remoteSend final.line)
        | .importing behind =>
            behind = titled ∧ (∃ further, call.action = .into further)
              ∧ stream = joined (lines ++ [marker]) ++ translated (remoteSend final.line)
        | .body =>
            titled = true ∧ (∀ further, call.action ≠ .into further)
              ∧ stream = joined (lines ++ [marker]) ++ translated (remoteSend final.line)
        | .acting => stream = translated (remoteSend final.line)

theorem Action.Suits.tail {action : Action} {titled : Bool} {line : Text} {lines : List Text}
    (suits : action.Suits titled (line :: lines))
    : action.Suits true lines where
  unmarked := fun member => suits.unmarked (List.mem_cons_of_mem _ member)
  filled := fun further into member => suits.filled further into (List.mem_cons_of_mem _ member)
  headed := nofun
  handled := fun none => nomatch suits.handled none

namespace Client

/-- What every step keeps: the answers taken are paired, the connections of the calls come after each
other, and of the stream there is what the innermost call has not read, if it reads from it, and
else nothing.
-/
structure Sound (client : Client) : Prop where
  paired : client.Paired
  bounded : ∀ call ∈ client.calls, call.connection ≤ client.opened
  apart : client.calls.Pairwise fun inner outer => outer.connection < inner.connection
  unread : ∀ stream ∈ client.stream, ∀ call ∈ client.calls.head?,
    call.connection = client.opened → call.Unread client.produced stream
  quiet : ∀ stream ∈ client.stream, (∀ call ∈ client.calls, call.connection ≠ client.opened) →
    stream = []

theorem new_sound : Client.new.Sound where
  paired := nofun
  bounded := nofun
  apart := .nil
  unread := nofun
  quiet := nofun

-----------------------------------------------------------------------------------------
-- Steps of the innermost call
-----------------------------------------------------------------------------------------

variable {client : Client} {call : Sending} {calls : List Sending} {stream : Text}

/-- The innermost call ends, and its connection is closed or read up to its end. -/
theorem Sound.pop (sound : client.Sound) (shape : client.calls = call :: calls) {rest : Option Text}
    (empty : call.connection = client.opened → ∀ left ∈ rest, left = [])
    (closes : rest = client.stream ∨ ∀ left ∈ rest, left = [])
    : ({ client with calls := calls, stream := rest } : Client).Sound := by
  have bounded := sound.bounded
  have apart := sound.apart
  rw [shape] at bounded apart
  obtain ⟨below, apart⟩ := List.pairwise_cons.mp apart
  have earlier : ∀ outer ∈ calls, outer.connection ≠ client.opened := by
    intro outer member
    have smaller := below outer member
    have top := bounded call List.mem_cons_self
    omega
  exact {
    paired := sound.paired
    bounded := fun outer member => bounded outer (List.mem_cons_of_mem _ member)
    apart := apart
    unread := fun _ _ outer head same =>
      absurd same (earlier outer (List.mem_of_mem_head? head))
    quiet := by
      intro left member _
      by_cases same : call.connection = client.opened
      · exact empty same left member
      · rcases closes with rfl | closes
        · refine sound.quiet left member ?_
          rw [shape]
          exact List.forall_mem_cons.mpr ⟨same, earlier⟩
        · exact closes left member }

/-- The innermost call goes on to what is left of its stream. -/
theorem Sound.goOn (sound : client.Sound) (shape : client.calls = call :: calls) {stage : Stage}
    {rest : Option Text}
    (unread : call.connection = client.opened → ∀ left ∈ rest,
      Sending.Unread { call with stage := stage } client.produced left)
    (same : call.connection ≠ client.opened → rest = client.stream)
    : ({ client with calls := { call with stage := stage } :: calls, stream := rest }
        : Client).Sound := by
  have bounded := sound.bounded
  have apart := sound.apart
  rw [shape] at bounded apart
  exact {
    paired := sound.paired
    bounded := by simpa using bounded
    apart := by simpa using apart
    unread := by
      intro left member inner head connected
      cases head
      exact unread connected left member
    quiet := by
      intro left member others
      obtain ⟨closed, below⟩ := List.forall_mem_cons.mp others
      refine sound.quiet left (same closed ▸ member) ?_
      rw [shape]
      exact List.forall_mem_cons.mpr ⟨closed, below⟩ }

/-- The client takes an answer that was produced. -/
theorem Sound.take (sound : client.Sound) {answer : Nat × Text}
    (present : answer ∈ client.produced)
    : ({ client with taken := answer :: client.taken } : Client).Sound :=
  { sound with paired := List.forall_mem_cons.mpr ⟨present, sound.paired⟩ }

theorem Sound.getResponse (sound : client.Sound) (shape : client.calls = call :: calls)
    (connected : call.connection = client.opened) (open' : client.stream = some stream)
    (stage : call.stage = .waiting)
    : (client.getResponse call calls stream).Sound := by
  obtain ⟨final, plain, present, titled, lines, suits, whole, left⟩ :=
    sound.unread stream open' call (by rw [shape]; rfl) connected
  rw [stage] at left
  rcases left with rfl | ⟨rfl, rfl⟩
  · obtain ⟨read, other⟩ := Final.read plain
    have answered := sound.take present
    simp only [Client.getResponse, read, if_neg other]
    split
    case isTrue => exact answered.pop shape (fun _ => nofun) (.inr nofun)
    case isFalse =>
      exact answered.pop shape (fun _ _ same => (Option.some.inj same).symm)
        (.inr fun _ same => (Option.some.inj same).symm)
  · simp only [Client.getResponse, List.cons_append, getResponse_stream]
    rw [if_pos (by decide)]
    split
    case h_1 further action =>
      refine sound.goOn shape (fun _ left same => ?_) (fun closed => absurd connected closed)
      cases same
      exact ⟨final, plain, present, false, lines, suits, whole, rfl, ⟨further, action⟩, rfl⟩
    case h_2 other =>
      refine sound.goOn shape (fun _ left same => ?_) (fun closed => absurd connected closed)
      cases same
      exact ⟨final, plain, present, false, lines, suits, whole, rfl, other, rfl⟩

theorem Sound.loop (sound : client.Sound) (shape : client.calls = call :: calls)
    (connected : call.connection = client.opened) (open' : client.stream = some stream)
    {titled : Bool} (stage : call.stage = .looping titled) {fails : Bool}
    (handles : fails = true → call.action = .writeTabsep)
    : (client.loop call calls titled fails stream).Sound := by
  obtain ⟨final, plain, present, _, lines, suits, whole, left⟩ :=
    sound.unread stream open' call (by rw [shape]; rfl) connected
  rw [stage] at left
  obtain ⟨rfl, other, rfl⟩ := left
  have reattached : call.connection ≠ client.opened → ∀ rest : Option Text, rest = client.stream :=
    fun closed => absurd connected closed
  cases lines with
  | nil =>
      rw [List.nil_append] at open' ⊢
      simp only [Client.loop, getsLine_cons (show '\n' ∉ marker by decide), if_true]
      refine sound.goOn shape (fun _ left same => ?_) (fun closed => reattached closed _)
      cases same
      exact ⟨final, plain, present, true, [], { suits with headed := nofun }, nofun, .inl rfl⟩
  | cons line lines =>
      obtain ⟨wholeLine, whole⟩ := List.forall_mem_cons.mp whole
      have unmarked : line ≠ marker :=
        fun same => suits.unmarked (same ▸ List.mem_cons_self)
      have further (stage : Stage) (goesOn : stage = .looping true ∨ stage = .body)
          : ({ call with stage := stage } : Sending).Unread client.produced
              (joined (lines ++ [marker]) ++ translated (remoteSend final.line)) := by
        refine ⟨final, plain, present, true, lines, suits.tail, whole, ?_⟩
        rcases goesOn with rfl | rfl <;> exact ⟨rfl, other, rfl⟩
      simp only [Client.loop, List.cons_append, getsLine_cons wholeLine, if_neg unmarked]
      split
      case h_1 =>
        split
        case isTrue => exact sound.pop shape (fun _ => nofun) (.inr nofun)
        case isFalse =>
          refine sound.goOn shape (fun _ left same => ?_) (fun closed => reattached closed _)
          cases same
          exact further _ (.inl rfl)
      case h_2 action =>
        split
        case isTrue =>
          refine sound.goOn shape (fun _ left same => ?_) (fun closed => reattached closed _)
          cases same
          exact further _ (.inl rfl)
        case isFalse =>
          split
          case isTrue failed => exact absurd ((handles failed).symm.trans action) nofun
          case isFalse =>
            refine sound.goOn shape (fun _ left same => ?_) (fun closed => reattached closed _)
            cases same
            exact further _ (.inr rfl)
      case h_3 notWritten notCode =>
        cases action : call.action with
        | none => exact absurd (suits.handled action) nofun
        | writeTabsep => exact absurd action notWritten
        | code => exact absurd action notCode
        | into further => exact absurd action (other further)

theorem Sound.readTabsep (sound : client.Sound) (shape : client.calls = call :: calls)
    (connected : call.connection = client.opened) (open' : client.stream = some stream)
    {titled : Bool} (stage : call.stage = .importing titled) {fails : Bool}
    (handles : fails = true → call.action = .writeTabsep)
    : (client.readTabsep call calls titled fails stream).Sound := by
  obtain ⟨final, plain, present, _, lines, suits, whole, left⟩ :=
    sound.unread stream open' call (by rw [shape]; rfl) connected
  rw [stage] at left
  obtain ⟨rfl, ⟨further, into⟩, rfl⟩ := left
  cases lines with
  | nil =>
      have behind : titled = true := by
        by_contra first
        exact suits.headed further into (by simpa using first) rfl
      subst behind
      rw [List.nil_append] at open' ⊢
      simp only [Client.readTabsep, getsLine_cons (show '\n' ∉ marker by decide), true_and, or_true,
        if_true]
      refine sound.goOn shape (fun _ left same => ?_) (fun closed => absurd connected closed)
      cases same
      refine ⟨final, plain, present, true, [], { suits with headed := nofun }, nofun, ?_⟩
      split
      case h_1 => exact .inl rfl
      case h_5 => rfl
      all_goals grind
  | cons line lines =>
      obtain ⟨wholeLine, whole⟩ := List.forall_mem_cons.mp whole
      have inside : ¬(line = [] ∨ titled = true ∧ line = marker) := by
        rintro (blank | ⟨-, marked⟩)
        · exact suits.filled further into (blank ▸ List.mem_cons_self)
        · exact suits.unmarked (marked ▸ List.mem_cons_self)
      have handled : ¬fails = true := by
        intro failed
        exact absurd ((handles failed).symm.trans into) nofun
      simp only [Client.readTabsep, List.cons_append, getsLine_cons wholeLine, if_neg inside,
        if_neg handled]
      refine sound.goOn shape (fun _ left same => ?_) (fun closed => absurd connected closed)
      cases same
      exact ⟨final, plain, present, true, lines, suits.tail, whole, rfl, ⟨further, into⟩, rfl⟩

theorem Sound.read (sound : client.Sound) {fails : Bool} (spares : client.Spares (.read fails))
    : (client.read fails).Sound := by
  unfold Client.read
  split
  case h_1 => exact sound
  case h_2 call calls shape =>
    have reads : client.streamOf call = none ∨ ∃ stream, client.streamOf call = some stream
        ∧ call.connection = client.opened ∧ client.stream = some stream
        ∧ (fails = true → call.stage ≠ .waiting → call.action = .writeTabsep) := by
      cases attached : client.streamOf call with
      | none => exact .inl rfl
      | some stream =>
          have open' := attached
          unfold streamOf at open'
          split at open'
          case isFalse => cases open'
          case isTrue connected =>
            refine .inr ⟨stream, rfl, connected, open', fun failed => spares failed call ?_⟩
            exact ⟨by rw [shape]; rfl, by rw [attached]; rfl⟩
    split
    case h_1 => exact sound
    case h_2 => exact sound
    case h_3 =>
      rcases reads with closed | ⟨stream, attached, connected, open', handles⟩
      · rw [closed]
        refine sound.pop shape (fun connected left member => ?_) (.inl rfl)
        rw [streamOf, if_pos connected] at closed
        rw [closed] at member
        cases member
      · rw [attached]
        dsimp only
        split
        case h_1 titled stage =>
          exact sound.loop shape connected open' stage fun failed =>
            handles failed (by rw [stage]; exact nofun)
        case h_2 titled stage =>
          exact sound.readTabsep shape connected open' stage fun failed =>
            handles failed (by rw [stage]; exact nofun)
        case h_3 =>
          refine sound.getResponse shape connected open' ?_
          cases stage : call.stage <;> simp_all

theorem Sound.finish (sound : client.Sound) {status : TclStatus}
    (spares : client.Spares (.finish status))
    : (client.finish status).Sound := by
  unfold Client.finish
  split
  case h_1 => exact sound
  case h_2 call calls shape =>
    split
    case h_1 stage =>
      split
      case isTrue =>
        refine sound.goOn shape (fun connected left member => ?_) (fun _ => rfl)
        obtain ⟨final, plain, present, titled, lines, suits, whole, unread⟩ :=
          sound.unread left member call (by rw [shape]; rfl) connected
        rw [stage] at unread
        obtain ⟨rfl, other, unread⟩ := unread
        exact ⟨final, plain, present, true, lines, suits, whole, rfl, other, unread⟩
      case isFalse => exact sound.pop shape (fun _ => nofun) (.inr nofun)
    case h_2 stage =>
      split
      case isTrue =>
        refine sound.goOn shape (fun connected left member => ?_) (fun _ => rfl)
        obtain ⟨final, plain, present, titled, lines, suits, whole, unread⟩ :=
          sound.unread left member call (by rw [shape]; rfl) connected
        rw [stage] at unread
        exact ⟨final, plain, present, titled, lines, suits, whole, .inl unread⟩
      case isFalse failed =>
        refine sound.pop shape (fun connected left member => ?_) (.inl rfl)
        refine absurd (spares call ⟨by rw [shape]; rfl, ?_⟩ stage) failed
        rw [streamOf, if_pos connected, show client.stream = some left from member]
        rfl
    case h_3 => exact sound

theorem Sound.disconnect (sound : client.Sound) : client.disconnect.Sound where
  paired := sound.paired
  bounded := sound.bounded
  apart := sound.apart
  unread := nofun
  quiet := nofun

/-- The connection for a new command, from which no call in progress reads. -/
theorem Sound.connect (sound : client.Sound)
    (free : ∀ call ∈ client.calls, client.streamOf call = none)
    : client.connect.Sound ∧ client.connect.stream = some []
      ∧ ∀ call ∈ client.connect.calls, call.connection < client.connect.opened := by
  unfold Client.connect
  split
  case h_1 stream open' =>
    have others : ∀ call ∈ client.calls, call.connection ≠ client.opened := by
      intro call member connected
      have closed := free call member
      rw [streamOf, if_pos connected, open'] at closed
      cases closed
    refine ⟨sound, ?_, fun call member => ?_⟩
    · rw [open', sound.quiet stream open' others]
    · exact Nat.lt_of_le_of_ne (sound.bounded call member) (others call member)
  case h_2 =>
    have below : ∀ call ∈ client.calls, call.connection < client.opened + 1 :=
      fun call member => Nat.lt_succ_of_le (sound.bounded call member)
    exact ⟨
      { paired := sound.paired
        bounded := fun call member => Nat.le_of_lt (below call member)
        apart := sound.apart
        unread := fun _ _ call head connected =>
          absurd connected (Nat.ne_of_lt (below call (List.mem_of_mem_head? head)))
        quiet := fun _ member _ => (Option.some.inj member).symm },
      rfl, below⟩

theorem Sound.sockSend (sound : client.Sound) (empty : client.stream = some [])
    (below : ∀ call ∈ client.calls, call.connection < client.opened) {action : Action}
    {response : Response} (suits : response.Suits action) (follows : Bool)
    : (client.sockSend action follows response).Sound where
  paired := fun answer member => List.mem_cons_of_mem _ (sound.paired answer member)
  bounded := List.forall_mem_cons.mpr ⟨Nat.le_refl _, sound.bounded⟩
  apart := List.pairwise_cons.mpr ⟨below, sound.apart⟩
  unread := by
    intro stream member call head _
    cases head
    rw [Client.sockSend, empty] at member
    cases member
    refine ⟨response.final, ?_⟩
    cases response with
    | direct final =>
        have none : action.Suits true [] :=
          { unmarked := nofun, filled := fun _ _ => nofun, headed := nofun, handled := fun _ => rfl }
        exact ⟨suits, List.mem_cons_self, true, [], none, nofun, .inl (List.nil_append _)⟩
    | streamed lines reply =>
        refine ⟨suits.1, List.mem_cons_self, false, linesRead lines, suits.2, linesRead_whole lines,
          .inr ⟨rfl, ?_⟩⟩
        exact translated_sent lines reply
  quiet := by
    intro stream _ others
    exact absurd rfl (others _ List.mem_cons_self)

theorem Sound.step (sound : client.Sound) (event : ClientEvent) (spares : client.Spares event)
    : (client.step event).Sound := by
  cases event with
  | issue action follows response =>
      simp only [Client.step]
      split
      case isTrue =>
        obtain ⟨connected, empty, below⟩ := sound.connect spares.1
        exact connected.sockSend empty below spares.2 follows
      case isFalse => exact sound
  | read fails => exact sound.read spares
  | finish status => exact sound.finish spares
  | disconnect =>
      simp only [Client.step]
      split
      case isTrue => exact sound.disconnect
      case isFalse => exact sound

theorem Sound.run (sound : client.Sound) {events : List ClientEvent} (along : client.Along events)
    : (client.run events).Sound := by
  induction events generalizing client with
  | nil => exact sound
  | cons event events ih => exact ih (sound.step event along.1) along.2

end Client

end SpeedTables.Remote
