import SpeedTables.Remote.Reception

/-! Requests as the client sends them, and how the server takes them from the stream. -/

namespace SpeedTables.Remote

open Lib (Text)

-----------------------------------------------------------------------------------------
-- The client
-----------------------------------------------------------------------------------------

/-- The list that carries a request. -/
def Request.line (request : Request) : Text :=
  Lib.TclList.format [request.url, request.command]

/-- The header of a request of several lines, which `list` builds. -/
def Request.header (request : Request) : Text :=
  Lib.TclList.format [['#'], Nat.toDigits 10 (request.line.length + 1)]

/-- `remote_sock_send` -/
def sockSend (request : Request) : Text :=
  (if '\n' ∈ request.line then request.header ++ ['\n'] else []) ++ request.line ++ ['\n']

/-- The output translation of a socket: a newline leaves as carriage return and newline. -/
def crlf (text : Text) : Text :=
  text.flatMap fun c => if c = '\n' then ['\r', '\n'] else [c]

-----------------------------------------------------------------------------------------
-- The server
-----------------------------------------------------------------------------------------

/-- A connection at the server: the arrays, the connection unless it is closed, and the requests
handed to `remote_invoke` so far.
-/
structure Receiver where
  arrays : SocketArrays
  connection : Option Connection
  handed : List Request

/-- Nothing has arrived. -/
def Receiver.initial : Receiver where
  arrays := .unset
  connection := some .accepted
  handed := []

/-- The handler is called, unless it was removed. -/
def Receiver.call (host : ServerHost) (receiver : Receiver) : Receiver :=
  match receiver.connection with
  | none => receiver
  | some connection =>
      if connection.watched then
        let turn := remoteReceive host receiver.arrays connection
        { arrays := turn.arrays
          connection := turn.connection
          handed := receiver.handed ++ turn.handed.map Handed.request }
      else receiver

/-- A readable event: the handler is called after some characters have arrived, or none when it
had left some unread.
-/
def Receiver.event (host : ServerHost) (receiver : Receiver) (chunk : Text) : Receiver :=
  { receiver with connection := receiver.connection.map (Connection.arrive · chunk) }.call host

/-- The handler is called again, so many times at most, while whole lines are left. -/
def Receiver.settle (host : ServerHost) : Nat → Receiver → Receiver
  | 0, receiver => receiver
  | limit + 1, receiver =>
      match receiver.connection with
      | none => receiver
      | some connection =>
          if '\n' ∈ connection.received then (receiver.call host).settle host limit else receiver

/-- A stream arrives in pieces. -/
def Receiver.run (host : ServerHost) (chunks : List Text) : Receiver :=
  (chunks.foldl (Receiver.event host) .initial).settle host chunks.flatten.length

/-- No line takes more than a thousand readable events: of the lines expected, with the events
since the last line, and what has arrived of the next.
-/
def patient : Nat → Nat → Text → Bool → List Text → Bool
  | 0, _, _, _, _ => true
  | _ + 1, _, _, _, [] => true
  | left + 1, events, unread, saw, chunk :: chunks =>
      let arrived := unread ++ (autoTranslate saw chunk).1
      match arrived.dropWhile (· ≠ '\n') with
      | _ :: rest => patient left 0 rest (autoTranslate saw chunk).2 chunks
      | [] =>
          events + 1 ≤ 1000
            && patient (left + 1) (events + 1) arrived (autoTranslate saw chunk).2 chunks

-----------------------------------------------------------------------------------------
-- Lines and requests
-----------------------------------------------------------------------------------------

/-- The requests that reach `remote_invoke` from some lines, none of which is blank or begins with
a hash.
-/
def interpreted (host : ServerHost) : List Text → List Request
  | [] => []
  | line :: lines =>
      match Lib.TclList.parse line with
      | none => []
      | some elements =>
          let request := Request.ofElements elements
          match host.table request.url with
          | none => interpreted host lines
          | some _ => if host.closes request then [request] else request :: interpreted host lines

/-- The handler waits for a line on an open connection. -/
structure Receiver.Listening (receiver : Receiver) (unread : Text) (saw : Bool) (events : Nat)
    : Prop where
  connection :
    receiver.connection
      = some
          { received := unread, sawReturn := saw, ending := none, eof := false, watched := true }
  needed : receiver.arrays.bytesNeeded = none
  counted : receiver.arrays.nEmptyCallbacks = events

/-- The handler is not called any more. -/
def Receiver.Stopped (receiver : Receiver) : Prop :=
  ∀ connection, receiver.connection = some connection → connection.watched = false

theorem Receiver.Stopped.call {receiver : Receiver} (stopped : receiver.Stopped)
    (host : ServerHost)
    : receiver.call host = receiver := by
  unfold Receiver.call
  split
  next => rfl
  next connection found => rw [stopped connection found]; rfl

theorem Receiver.Stopped.event {receiver : Receiver} (stopped : receiver.Stopped)
    (host : ServerHost) (chunk : Text)
    : (receiver.event host chunk).Stopped
        ∧ (receiver.event host chunk).handed = receiver.handed := by
  have arrived
      : Receiver.Stopped
          { receiver with connection := receiver.connection.map (Connection.arrive · chunk) } := by
    intro connection found
    obtain ⟨before, present, rfl⟩ := Option.map_eq_some_iff.mp found
    have unwatched := stopped before present
    unfold Connection.arrive
    split <;> exact unwatched
  rw [Receiver.event, arrived.call host]
  exact ⟨arrived, rfl⟩

theorem Receiver.Stopped.settle {receiver : Receiver} (stopped : receiver.Stopped)
    (host : ServerHost) (limit : Nat)
    : receiver.settle host limit = receiver := by
  induction limit with
  | zero => rfl
  | succ limit ih =>
      rw [Receiver.settle, stopped.call host, ih]
      split
      next => rfl
      next => split <;> rfl

/-- Nothing is handed over after the handler has stopped. -/
theorem Receiver.Stopped.run {receiver : Receiver} (stopped : receiver.Stopped)
    (host : ServerHost) (chunks : List Text) (limit : Nat)
    : ((chunks.foldl (Receiver.event host) receiver).settle host limit).handed
        = receiver.handed := by
  induction chunks generalizing receiver with
  | nil => rw [List.foldl_nil, stopped.settle host limit]
  | cons chunk chunks ih =>
      obtain ⟨still, same⟩ := stopped.event host chunk
      rw [List.foldl_cons, ih still, same]

theorem takeWhile_line {line : Text} (rest : Text) (whole : '\n' ∉ line)
    : (line ++ '\n' :: rest).takeWhile (· ≠ '\n') = line
        ∧ (line ++ '\n' :: rest).dropWhile (· ≠ '\n') = '\n' :: rest := by
  have other : ∀ c ∈ line, decide (c ≠ '\n') = true := by
    intro c member
    simp only [decide_eq_true_eq]
    exact fun same => whole (same ▸ member)
  constructor
  · rw [List.takeWhile_append_of_pos other]
    simp
  · rw [List.dropWhile_append_of_pos other]
    simp

theorem dropWhile_partial {unread : Text} (open' : '\n' ∉ unread)
    : unread.dropWhile (· ≠ '\n') = [] := by
  induction unread with
  | nil => rfl
  | cons c rest ih =>
      obtain ⟨other, tail⟩ := not_or.mp (mt List.mem_cons.mpr open')
      rw [List.dropWhile_cons_of_pos (by simpa using Ne.symm other), ih tail]

/-- A call without a whole line: the event is counted, and the connection closed after too many. -/
theorem Receiver.Listening.call_partial {receiver : Receiver} {unread : Text} {saw : Bool}
    {events : Nat} (listening : receiver.Listening unread saw events) (open' : '\n' ∉ unread)
    (host : ServerHost)
    : (receiver.call host).handed = receiver.handed
        ∧ if events + 1 ≤ 1000 then (receiver.call host).Listening unread saw (events + 1)
          else (receiver.call host).Stopped := by
  obtain ⟨found, needed, counted⟩ := listening
  have waits
      : receiver.call host
          = let arrays := { receiver.arrays with nEmptyCallbacks := events + 1 }
            if 1000 < events + 1 then
              { arrays := { arrays with nEmptyCallbacks := 0 }
                connection := none, handed := receiver.handed }
            else { receiver with arrays := arrays } := by
    simp only [Receiver.call, found, if_true, remoteReceive, needed, Option.filter_none,
      Connection.gets, dropWhile_partial open', counted, Bool.false_eq_true, if_false]
    split
    next => simp [Turn.close]
    next => simp [Turn.wait]
  rw [waits]
  dsimp only
  split
  next many =>
    rw [if_neg (Nat.not_le_of_gt many)]
    exact ⟨rfl, nofun⟩
  next few =>
    rw [if_pos (Nat.le_of_not_lt few)]
    exact ⟨rfl, found, needed, rfl⟩

/-- A request whose command leaves the connection open. -/
theorem serve_open {host : ServerHost} (arrays : SocketArrays) (connection : Connection)
    {line table : Text} {elements : List Text} (parsed : Lib.TclList.parse line = some elements)
    (named : host.table (Request.ofElements elements).url = some table)
    (stays : host.closes (Request.ofElements elements) = false) (alive : connection.ending = none)
    : (serve host arrays connection line).connection = some connection
        ∧ (serve host arrays connection line).arrays.bytesNeeded = arrays.bytesNeeded
        ∧ (serve host arrays connection line).arrays.nEmptyCallbacks = arrays.nEmptyCallbacks
        ∧ (serve host arrays connection line).handed.map Handed.request
            = [Request.ofElements elements] := by
  simp only [serve, parsed, named, stays, alive]
  refine ⟨rfl, ?_, ?_, rfl⟩ <;>
  · simp only [Bool.false_eq_true, reduceCtorEq, or_self, if_false]
    split <;> rfl

/-- A request whose command closes the connection. -/
theorem serve_closes {host : ServerHost} (arrays : SocketArrays) (connection : Connection)
    {line table : Text} {elements : List Text} (parsed : Lib.TclList.parse line = some elements)
    (named : host.table (Request.ofElements elements).url = some table)
    (closes : host.closes (Request.ofElements elements) = true)
    : (serve host arrays connection line).connection = none
        ∧ (serve host arrays connection line).handed.map Handed.request
            = [Request.ofElements elements] := by
  simp [serve, parsed, named, closes, Turn.close]

/-- A call with a whole line hands over what the line carries, and goes on or stops as the lines
do.
-/
theorem Receiver.Listening.call_line {receiver : Receiver} {line rest : Text} {saw : Bool}
    {events : Nat} (listening : receiver.Listening (line ++ '\n' :: rest) saw events)
    (whole : '\n' ∉ line) (present : line ≠ []) (noHash : line.head? ≠ some '#')
    (host : ServerHost)
    : ∃ lead, (receiver.call host).handed = receiver.handed ++ lead
        ∧ (((receiver.call host).Stopped ∧ ∀ lines, interpreted host (line :: lines) = lead)
          ∨ (receiver.call host).Listening rest saw 0
            ∧ Lib.TclList.parse line ≠ none
            ∧ ∀ lines, interpreted host (line :: lines) = lead ++ interpreted host lines) := by
  obtain ⟨found, needed, counted⟩ := listening
  obtain ⟨taken, dropped⟩ := takeWhile_line rest whole
  let arrays := { receiver.arrays with nEmptyCallbacks := 0 }
  let connection :=
    { received := rest, sawReturn := saw, ending := none, eof := false, watched := true
      : Connection }
  have noneNeeded : receiver.arrays.bytesNeeded.filter ByteCount.positive = none := by
    rw [needed]
    rfl
  have served
      : receiver.call host
          = { arrays := (serve host arrays connection line).arrays
              connection := (serve host arrays connection line).connection
              handed :=
                receiver.handed
                  ++ (serve host arrays connection line).handed.map Handed.request } := by
    simp only [Receiver.call, found, if_true, remoteReceive, Bool.false_eq_true, if_false,
      noneNeeded, Connection.gets, taken, dropped]
    split
    next => exact absurd rfl present
    next => exact absurd rfl noHash
    next => rfl
  rw [served]
  rcases parsed : Lib.TclList.parse line with _ | elements
  · have fails : serve host arrays connection line = .fail arrays connection := by
      simp only [serve, parsed]
    rw [fails]
    refine ⟨[], by simp [Turn.fail], .inl ⟨?_, fun lines => by simp [interpreted, parsed]⟩⟩
    intro other same
    cases same
    rfl
  · rcases named : host.table (Request.ofElements elements).url with _ | table
    · have refused : serve host arrays connection line = .wait arrays connection false := by
        simp only [serve, parsed, named]
        rfl
      rw [refused]
      refine ⟨[], by simp [Turn.wait], .inr ⟨⟨rfl, needed, rfl⟩, nofun, ?_⟩⟩
      intro lines
      simp [interpreted, parsed, named]
    · rcases closes : host.closes (Request.ofElements elements) with _ | _
      · have goesOn :=
          serve_open arrays connection parsed named closes rfl
        refine ⟨[Request.ofElements elements], by rw [goesOn.2.2.2], .inr ⟨⟨?_, ?_, ?_⟩, nofun, ?_⟩⟩
        · exact goesOn.1
        · exact goesOn.2.1.trans needed
        · exact goesOn.2.2.1
        · intro lines
          simp [interpreted, parsed, named, closes]
      · have gone := serve_closes arrays connection parsed named closes
        refine ⟨[Request.ofElements elements], by rw [gone.2], .inl ⟨?_, ?_⟩⟩
        · intro other same
          rw [gone.1] at same
          cases same
        · intro lines
          simp [interpreted, parsed, named, closes]

-----------------------------------------------------------------------------------------
-- Whole runs
-----------------------------------------------------------------------------------------

/-- Some lines as they stand in a stream. -/
def joined (lines : List Text) : Text :=
  lines.flatMap (· ++ ['\n'])

/-- A line that the handler takes as a request: one without line ends that is not blank and does not
begin with a hash.
-/
structure Plain (line : Text) : Prop where
  whole : '\n' ∉ line
  present : line ≠ []
  noHash : line.head? ≠ some '#'

/-- The lines are all there is, or one of them stops the handler. -/
def Ended : List Text → Text → Prop
  | [], rest => rest = []
  | line :: lines, rest => Lib.TclList.parse line = none ∨ Ended lines rest

theorem autoTranslate_append (saw : Bool) (before after : Text)
    : (autoTranslate saw (before ++ after)).1
        = (autoTranslate saw before).1
            ++ (autoTranslate (autoTranslate saw before).2 after).1 := by
  induction before generalizing saw with
  | nil => rfl
  | cons c before ih =>
      simp only [List.cons_append, autoTranslate]
      split
      next => simp [ih true]
      next =>
        split
        next => exact ih false
        next => simp [ih false]

theorem autoTranslate_length (saw : Bool) (text : Text)
    : (autoTranslate saw text).1.length ≤ text.length := by
  induction text generalizing saw with
  | nil => exact Nat.le_refl 0
  | cons c text ih =>
      simp only [autoTranslate]
      split
      next => exact Nat.succ_le_succ (ih true)
      next =>
        split
        next => exact Nat.le_succ_of_le (ih false)
        next => exact Nat.succ_le_succ (ih false)

theorem length_le_joined (lines : List Text) : lines.length ≤ (joined lines).length := by
  induction lines with
  | nil => exact Nat.le_refl 0
  | cons line lines ih =>
      simp only [joined, List.flatMap_cons, List.length_append, List.length_cons,
        List.length_nil] at ih ⊢
      omega

/-- A stream that begins with a whole line is split in one way. -/
theorem line_unique {line line' rest rest' : Text} (whole : '\n' ∉ line) (whole' : '\n' ∉ line')
    (same : line ++ '\n' :: rest = line' ++ '\n' :: rest')
    : line = line' ∧ rest = rest' := by
  obtain ⟨taken, dropped⟩ := takeWhile_line rest whole
  obtain ⟨taken', dropped'⟩ := takeWhile_line rest' whole'
  rw [same, taken'] at taken
  rw [same, dropped'] at dropped
  exact ⟨taken.symm, (List.cons.inj dropped).2.symm⟩

/-- All lines that have arrived are read before the handler rests. -/
theorem Receiver.Listening.settle {host : ServerHost} {lines : List Text} {rest : Text}
    {receiver : Receiver} {saw : Bool} {events limit : Nat}
    (listening : receiver.Listening (joined lines ++ rest) saw events)
    (plain : ∀ line ∈ lines, Plain line) (ended : Ended lines rest) (enough : lines.length ≤ limit)
    : (receiver.settle host limit).handed = receiver.handed ++ interpreted host lines := by
  induction lines generalizing receiver events limit with
  | nil =>
      have nothing : rest = [] := ended
      have found := listening.connection
      rcases limit with _ | limit
      · simp [Receiver.settle, interpreted]
      · simp [Receiver.settle, found, nothing, joined, interpreted]
  | cons line lines ih =>
      obtain ⟨limit, rfl⟩ := Nat.exists_eq_succ_of_ne_zero (Nat.ne_of_gt (Nat.zero_lt_of_lt enough))
      obtain ⟨whole, present, noHash⟩ := plain line (by simp)
      have found := listening.connection
      have shape : joined (line :: lines) ++ rest = line ++ '\n' :: (joined lines ++ rest) := by
        simp [joined]
      rw [shape] at listening
      have again : receiver.settle host (limit + 1) = (receiver.call host).settle host limit := by
        simp [Receiver.settle, found, shape]
      rw [again]
      obtain ⟨lead, handed, ⟨stopped, reads⟩ | ⟨still, parsed, reads⟩⟩ :=
        listening.call_line whole present noHash host
      · rw [stopped.settle host limit, handed, reads lines]
      · have more : Ended lines rest := ended.resolve_left parsed
        rw [ih still (fun other member => plain other (by simp [member])) more
            (Nat.le_of_succ_le_succ enough), handed, reads lines, List.append_assoc]

/-- A run reads the first of the lines it receives, and all of them when the server is patient. The
proof is by induction on the readable events.
-/
theorem Receiver.Listening.run {host : ServerHost} {chunks lines : List Text} {rest unread : Text}
    {receiver : Receiver} {saw : Bool} {events limit : Nat}
    (listening : receiver.Listening unread saw events)
    (stream : unread ++ (autoTranslate saw chunks.flatten).1 = joined lines ++ rest)
    (plain : ∀ line ∈ lines, Plain line) (ended : Ended lines rest) (enough : lines.length ≤ limit)
    : ∃ taken,
        (lines.length ≤ taken ↔ patient lines.length events unread saw chunks = true)
          ∧ ((chunks.foldl (Receiver.event host) receiver).settle host limit).handed
            = receiver.handed ++ interpreted host (lines.take taken) := by
  induction chunks generalizing receiver lines unread saw events with
  | nil =>
      refine ⟨lines.length, ?_, ?_⟩
      · cases lines <;> simp [patient]
      · have unreadLines : unread = joined lines ++ rest := by
          simpa [autoTranslate] using stream
        rw [unreadLines] at listening
        rw [List.take_length, List.foldl_nil, listening.settle plain ended enough]
  | cons chunk chunks ih =>
      rw [List.flatten_cons, autoTranslate_append, ← List.append_assoc] at stream
      have arrived
          : Receiver.Listening
              { receiver with connection := receiver.connection.map (Connection.arrive · chunk) }
              (unread ++ (autoTranslate saw chunk).1) (autoTranslate saw chunk).2 events := by
        refine ⟨?_, listening.needed, listening.counted⟩
        rw [listening.connection]
        rfl
      rw [List.foldl_cons]
      by_cases complete : '\n' ∈ unread ++ (autoTranslate saw chunk).1
      · obtain ⟨first, behind, split, whole⟩ := List.eq_append_cons_of_mem complete
        have dropped := (takeWhile_line behind whole).2
        rw [split] at arrived
        rw [split, List.append_assoc, List.cons_append] at stream
        cases lines with
        | nil =>
            have nothing : rest = [] := ended
            simp [joined, nothing] at stream
        | cons line lines =>
            obtain ⟨wholeLine, present, noHash⟩ := plain line (by simp)
            obtain ⟨rfl, tail⟩ : first = line
                ∧ behind ++ (autoTranslate (autoTranslate saw chunk).2 chunks.flatten).1
                    = joined lines ++ rest :=
              line_unique whole wholeLine (by simpa [joined] using stream)
            have waits
                : patient (first :: lines).length events unread saw (chunk :: chunks)
                    = patient lines.length 0 behind (autoTranslate saw chunk).2 chunks := by
              simp only [List.length_cons, patient, split, dropped]
            rw [waits]
            obtain ⟨lead, handed, ⟨stopped, reads⟩ | ⟨still, parsed, reads⟩⟩ :=
              arrived.call_line whole present noHash host
            · have rested := stopped.run host chunks limit
              by_cases all
                  : patient lines.length 0 behind (autoTranslate saw chunk).2 chunks = true
              · refine ⟨lines.length + 1, by simp [all], ?_⟩
                rw [List.take_succ_cons, reads, ← handed]
                exact rested
              · refine ⟨1, ?_, ?_⟩
                · have some : lines ≠ [] := by
                    rintro rfl
                    exact all (by simp [patient])
                  have positive := List.length_pos_iff.mpr some
                  simp only [List.length_cons, all, iff_false, Bool.false_eq_true]
                  omega
                · rw [List.take_succ_cons, reads, ← handed]
                  exact rested
            · obtain ⟨taken, exact', run⟩ :=
                ih still tail (fun other member => plain other (by simp [member]))
                  (ended.resolve_left parsed) (Nat.le_of_succ_le enough)
              refine ⟨taken + 1, by simpa using exact', ?_⟩
              rw [List.take_succ_cons, reads, ← List.append_assoc, ← handed]
              exact run
      · obtain ⟨handed, next⟩ := arrived.call_partial complete host
        replace handed : (Receiver.call host _).handed = receiver.handed := handed
        have dropped := dropWhile_partial complete
        split at next
        next few =>
          obtain ⟨taken, exact', run⟩ := ih next stream plain ended enough
          refine ⟨taken, ?_, by rw [← handed]; exact run⟩
          rw [exact']
          cases lines with
          | nil => simp [patient]
          | cons line lines => simp only [List.length_cons, patient, dropped, few, decide_true,
              Bool.true_and]
        next many =>
          have rested := next.run host chunks limit
          cases lines with
          | nil =>
              refine ⟨0, by simp [patient], ?_⟩
              rw [List.take_nil, interpreted, List.append_nil, ← handed]
              exact rested
          | cons line lines =>
              refine ⟨0, ?_, ?_⟩
              · simp only [List.length_cons, patient, dropped, many, decide_false, Bool.false_and]
                simp
              · rw [List.take_zero, interpreted, List.append_nil, ← handed]
                exact rested

-----------------------------------------------------------------------------------------
-- The client's stream
-----------------------------------------------------------------------------------------

/-- Whether a character is a line end for one of the two translations. -/
def isBreak (c : Char) : Bool :=
  c == '\n' || c == '\r'

theorem isBreak_space {c : Char} (breaks : isBreak c = true)
    : Lib.TclList.isSpace c = true ∧ c ≠ ' ' := by
  simp only [isBreak, Bool.or_eq_true, beq_iff_eq] at breaks
  rcases breaks with rfl | rfl <;> decide

theorem not_isBreak {c : Char} (other : isBreak c = false) : c ≠ '\n' ∧ c ≠ '\r' := by
  simpa [isBreak] using other

/-- The handler takes a list that does not begin with a hash as a request. -/
theorem plain_format {texts : List Text} {cut behind : Text} (some : texts ≠ [])
    (split : Lib.TclList.format texts = cut ++ behind) (noBreak : ∀ c ∈ cut, isBreak c = false)
    (present : cut ≠ [])
    : Plain cut := by
  refine ⟨fun raw => ?_, present, ?_⟩
  · exact absurd (noBreak _ raw) (by decide)
  · cases texts with
    | nil => exact absurd rfl some
    | cons text texts =>
        obtain ⟨c, rest, shape, noHash⟩ := Lib.TclList.format_head text texts
        cases cut with
        | nil => exact absurd rfl present
        | cons first cut =>
            rw [shape, List.cons_append] at split
            rw [List.head?_cons, ← (List.cons.inj split).1]
            simpa using noHash

/-- A request whose line has no line end inside. -/
def Request.Unbroken (request : Request) : Prop :=
  ∀ c ∈ request.line, isBreak c = false

theorem Request.Unbroken.plain {request : Request} (unbroken : request.Unbroken)
    : Plain request.line := by
  obtain ⟨c, rest, shape, -⟩ := Lib.TclList.format_head request.url [request.command]
  refine plain_format (List.cons_ne_nil _ _) (List.append_nil _).symm unbroken ?_
  rw [Request.line, shape]
  exact List.cons_ne_nil c rest

/-- A run reads the first of the lines that its stream consists of. -/
theorem run_reads (host : ServerHost) {chunks lines : List Text} {rest : Text}
    (stream : (autoTranslate false chunks.flatten).1 = joined lines ++ rest)
    (plain : ∀ line ∈ lines, Plain line) (ended : Ended lines rest)
    : ∃ taken,
        (lines.length ≤ taken ↔ patient lines.length 0 [] false chunks = true)
          ∧ (Receiver.run host chunks).handed = interpreted host (lines.take taken) := by
  have listening : Receiver.initial.Listening [] false 0 := ⟨rfl, rfl, rfl⟩
  have enough : lines.length ≤ chunks.flatten.length := by
    have translated := autoTranslate_length false chunks.flatten
    rw [stream, List.length_append] at translated
    have counted := length_le_joined lines
    omega
  obtain ⟨taken, exact', run⟩ := listening.run stream plain ended enough
  exact ⟨taken, exact', run⟩

end SpeedTables.Remote
