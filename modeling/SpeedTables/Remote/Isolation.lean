import Mathlib
import SpeedTables.Remote.Reception

/-! The connections of a table server, whose arrays are indexed by socket names that are used again. -/

namespace SpeedTables.Remote

open Lib (Text)

-----------------------------------------------------------------------------------------
-- The server
-----------------------------------------------------------------------------------------

/-- What can happen to a connection. -/
inductive Happening where
  | arrive (chunk : Text)
  | ends (ending : Ending)
  | readable
  deriving DecidableEq

/-- What a connection has seen, and the requests handed to `remote_invoke` for it. -/
structure History where
  happenings : List Happening
  log : List Handed
  deriving DecidableEq

/-- A connection that is open, with its history. -/
structure OpenConnection where
  connection : Connection
  history : History

/-- A server: its arrays and open connections, by socket name, and the histories of the connections
that are closed.
-/
structure ServerState where
  arrays : Nat → SocketArrays
  connections : Nat → Option OpenConnection
  closed : List History

/-- No connection yet. -/
def ServerState.initial : ServerState where
  arrays _ := .unset
  connections _ := none
  closed := []

/-- What happens next at a server. -/
inductive ServerEvent where
  | opens (sock : Nat)
  | happens (sock : Nat) (happening : Happening)
  deriving DecidableEq

/-- What a happening does to a connection, with the arrays that its handler sees. -/
def advance (host : ServerHost) (arrays : SocketArrays) (connection : Connection)
    : Happening → Turn
  | .arrive chunk => .wait arrays (connection.arrive chunk) false
  | .ends ending =>
      .wait arrays { connection with ending := connection.ending.or (some ending) } false
  | .readable =>
      if connection.watched then remoteReceive host arrays connection
      else .wait arrays connection true

/-- One event. A socket name is not used again before its connection is closed. -/
def ServerState.step (host : ServerHost) (state : ServerState) : ServerEvent → ServerState
  | .opens sock =>
      match state.connections sock with
      | some _ => state
      | none =>
          let accepted :=
            { connection := .accepted, history := { happenings := [], log := [] } }
          { state with connections := Function.update state.connections sock (some accepted) }
  | .happens sock happening =>
      match state.connections sock with
      | none => state
      | some open' =>
          let turn := advance host (state.arrays sock) open'.connection happening
          let history :=
            { happenings := open'.history.happenings ++ [happening]
              log := open'.history.log ++ turn.handed }
          { arrays := Function.update state.arrays sock turn.arrays
            connections :=
              Function.update state.connections sock
                (turn.connection.map fun connection =>
                  { connection := connection, history := history })
            closed := if turn.connection.isNone then history :: state.closed else state.closed }

/-- A run of events. -/
def ServerState.run (host : ServerHost) (state : ServerState) (events : List ServerEvent)
    : ServerState :=
  events.foldl (ServerState.step host) state

-----------------------------------------------------------------------------------------
-- A connection by itself
-----------------------------------------------------------------------------------------

/-- A connection that is the only one its server ever has. -/
structure Alone where
  arrays : SocketArrays
  connection : Option Connection
  log : List Handed

def Alone.initial : Alone where
  arrays := .unset
  connection := some .accepted
  log := []

def Alone.step (host : ServerHost) (alone : Alone) (happening : Happening) : Alone :=
  match alone.connection with
  | none => alone
  | some connection =>
      let turn := advance host alone.arrays connection happening
      { arrays := turn.arrays, connection := turn.connection, log := alone.log ++ turn.handed }

/-- The connection after some happenings. -/
def Alone.after (host : ServerHost) (happenings : List Happening) : Alone :=
  happenings.foldl (Alone.step host) .initial

/-- What was handed over for a connection is what is handed over when there is no other. -/
def History.Isolated (host : ServerHost) (history : History) : Prop :=
  history.log = (Alone.after host history.happenings).log

/-- The requests handed over for each connection, and their quoting, depend on nothing but what
happened to that connection.
-/
def ServerState.Isolated (host : ServerHost) (state : ServerState) : Prop :=
  (∀ sock open', state.connections sock = some open' → open'.history.Isolated host)
    ∧ ∀ history ∈ state.closed, history.Isolated host

/-- What the handler finds missing of a request when it is called. -/
def SocketArrays.pending (arrays : SocketArrays) : Option ByteCount :=
  arrays.bytesNeeded.filter ByteCount.positive

/-- No connection is opened under a socket name at which a part of a request is missing. -/
def ServerState.Unburdened (state : ServerState) : ServerEvent → Prop
  | .opens sock => (state.arrays sock).pending = none
  | .happens _ _ => True

/-- Every event of a run meets the condition. -/
def UnburdenedRun (host : ServerHost) : ServerState → List ServerEvent → Prop
  | _, [] => True
  | state, event :: events =>
      state.Unburdened event ∧ UnburdenedRun host (state.step host event) events

-----------------------------------------------------------------------------------------
-- Arrays that the handler cannot tell apart
-----------------------------------------------------------------------------------------

/-- The handler sees no difference between two sets of arrays. -/
structure Alike (left right : SocketArrays) : Prop where
  counted : left.nEmptyCallbacks = right.nEmptyCallbacks
  pending : left.pending = right.pending
  incomplete : left.pending ≠ none → left.incompleteLine = right.incompleteLine

/-- Two turns are the same as far as a later call can tell. -/
structure SameTurn (left right : Turn) : Prop where
  connection : left.connection = right.connection
  handed : left.handed = right.handed
  alike : ∀ connection, left.connection = some connection → connection.watched = true
    → Alike left.arrays right.arrays
  reset : left.connection = none → left.arrays.nEmptyCallbacks = 0

theorem Alike.waiting {left right : SocketArrays} (alike : Alike left right)
    (value : Option ByteCount) (line : Option Text)
    : Alike { left with bytesNeeded := value, incompleteLine := line }
        { right with bytesNeeded := value, incompleteLine := line } :=
  ⟨alike.counted, rfl, fun _ => rfl⟩

theorem Alike.complete {left right : SocketArrays} (alike : Alike left right)
    {value : Option ByteCount} (complete : value.filter ByteCount.positive = none)
    : Alike { left with bytesNeeded := value } { right with bytesNeeded := value } :=
  ⟨alike.counted, rfl, fun pending => absurd complete pending⟩

theorem SameTurn.close {left right : SocketArrays} (handed : List Handed)
    : SameTurn (.close left handed) (.close right handed) :=
  ⟨rfl, rfl, nofun, fun _ => rfl⟩

theorem SameTurn.fail {left right : SocketArrays} (connection : Connection)
    : SameTurn (.fail left connection) (.fail right connection) := by
  refine ⟨rfl, rfl, ?_, nofun⟩
  intro other same watched
  cases same
  cases watched

theorem SameTurn.wait {left right : SocketArrays} (alike : Alike left right)
    (connection : Connection) (blocked : Bool)
    : SameTurn (.wait left connection blocked) (.wait right connection blocked) :=
  ⟨rfl, rfl, fun _ _ _ => alike, nofun⟩

/-- A request is served in the same way. -/
theorem serve_alike {left right : SocketArrays} (alike : Alike left right) (host : ServerHost)
    (connection : Connection) (line : Text)
    : SameTurn (serve host left connection line) (serve host right connection line) := by
  simp only [serve]
  split
  next => exact .fail connection
  next elements parsed =>
    split
    next =>
      split
      next => exact .close []
      next => exact .wait alike connection false
    next =>
      dsimp only [localQuoteType]
      split
      next => exact .close _
      next =>
        refine ⟨rfl, rfl, fun _ _ _ => ?_, nofun⟩
        dsimp only
        split
        next => exact ⟨alike.counted, alike.pending, alike.incomplete⟩
        next => exact alike

/-- The rest of a request is received in the same way when the same part of it has arrived. -/
theorem receiveRest_alike {left right : SocketArrays} (alike : Alike left right)
    (same : left.incompleteLine = right.incompleteLine) (host : ServerHost)
    (connection : Connection) (count : Int)
    : SameTurn (receiveRest host left connection count)
        (receiveRest host right connection count) := by
  simp only [receiveRest, same]
  split
  next => exact .fail connection
  next =>
    split
    next => exact .wait (alike.waiting _ _) _ true
    next => exact serve_alike (alike.waiting _ _) host _ _

/-- A header, with what has arrived of its request, is received in the same way. -/
theorem receiveHeader_alike {left right : SocketArrays} (alike : Alike left right)
    (host : ServerHost) (connection : Connection) (header : Text)
    : SameTurn (receiveHeader host left connection header)
        (receiveHeader host right connection header) := by
  simp only [receiveHeader]
  split
  next => exact .fail connection
  next =>
    split
    next => exact .fail connection
    next =>
      split
      next => exact .fail connection
      next =>
        split
        next => exact .wait (alike.waiting _ _) _ true
        next done =>
          refine serve_alike (alike.complete ?_) host _ _
          simpa [ByteCount.positive] using done

/-- A call of the handler is the same. -/
theorem remoteReceive_alike {left right : SocketArrays} (alike : Alike left right)
    (host : ServerHost) (connection : Connection)
    : SameTurn (remoteReceive host left connection) (remoteReceive host right connection) := by
  have pending := alike.pending
  have incomplete := alike.incomplete
  simp only [SocketArrays.pending] at pending incomplete
  simp only [remoteReceive, pending, alike.counted] at incomplete ⊢
  split
  next => exact .close []
  next =>
    split
    next => exact .fail connection
    next count found =>
      rw [found] at incomplete
      exact receiveRest_alike alike (incomplete nofun) host connection count
    next =>
      have counts (count : Nat)
          : Alike { left with nEmptyCallbacks := count } { right with nEmptyCallbacks := count } :=
        ⟨rfl, alike.pending, alike.incomplete⟩
      split
      next => exact .close []
      next =>
        split
        next => exact .close []
        next =>
          split
          next => exact .close []
          next => exact .wait (counts _) _ true
      next =>
        split
        next => exact .wait (counts 0) _ false
        next => exact receiveHeader_alike (counts 0) host _ _
        next => exact serve_alike (counts 0) host _ _

/-- A happening does the same to a connection. -/
theorem advance_alike {left right : SocketArrays} {connection : Connection}
    (alike : connection.watched = true → Alike left right) (host : ServerHost)
    (happening : Happening)
    : SameTurn (advance host left connection happening) (advance host right connection happening) := by
  cases happening with
  | arrive chunk =>
      refine ⟨rfl, rfl, ?_, nofun⟩
      intro other same watched
      cases same
      refine alike ?_
      rw [← watched]
      unfold Connection.arrive
      split <;> rfl
  | ends ending =>
      refine ⟨rfl, rfl, ?_, nofun⟩
      intro other same watched
      cases same
      exact alike watched
  | readable =>
      dsimp only [advance]
      split
      next watched => exact remoteReceive_alike (alike watched) host connection
      next unwatched =>
        refine ⟨rfl, rfl, ?_, nofun⟩
        intro other same watched
        cases same
        exact absurd watched unwatched

-----------------------------------------------------------------------------------------
-- Isolation
-----------------------------------------------------------------------------------------

/-- An open connection is where it would be by itself. -/
structure OpenConnection.Follows (host : ServerHost) (open' : OpenConnection)
    (arrays : SocketArrays) : Prop where
  connection :
    (Alone.after host open'.history.happenings).connection = some open'.connection
  log : open'.history.log = (Alone.after host open'.history.happenings).log
  alike : open'.connection.watched = true
    → Alike arrays (Alone.after host open'.history.happenings).arrays

/-- Every open connection is where it would be by itself, every closed one got what it would have
got, and no empty callbacks are counted where no connection is.
-/
structure ServerState.Separate (host : ServerHost) (state : ServerState) : Prop where
  opened : ∀ sock open', state.connections sock = some open' →
    open'.Follows host (state.arrays sock)
  closed : ∀ history ∈ state.closed, history.Isolated host
  reset : ∀ sock, state.connections sock = none → (state.arrays sock).nEmptyCallbacks = 0

theorem ServerState.Separate.initial (host : ServerHost)
    : ServerState.initial.Separate host :=
  ⟨nofun, nofun, fun _ _ => rfl⟩

theorem Alone.after_snoc (host : ServerHost) (happenings : List Happening) (happening : Happening)
    : Alone.after host (happenings ++ [happening])
        = (Alone.after host happenings).step host happening := by
  simp [Alone.after]

/-- A connection that is opened where nothing is pending begins as if by itself. -/
theorem ServerState.Separate.opens {host : ServerHost} {state : ServerState}
    (separate : state.Separate host) {sock : Nat} (unburdened : (state.arrays sock).pending = none)
    : (state.step host (.opens sock)).Separate host := by
  rcases found : state.connections sock with _ | open'
  · simp only [ServerState.step, found]
    refine ⟨?_, separate.closed, ?_⟩
    · intro other open' present
      rcases Decidable.em (other = sock) with rfl | distinct
      · simp only [Function.update_self, Option.some.injEq] at present
        subst present
        refine ⟨rfl, rfl, fun _ => ⟨separate.reset other found, unburdened, ?_⟩⟩
        exact fun pending => absurd unburdened pending
      · simp only [Function.update_of_ne distinct] at present
        exact separate.opened other open' present
    · intro other absent
      rcases Decidable.em (other = sock) with rfl | distinct
      · simp at absent
      · simp only [Function.update_of_ne distinct] at absent
        exact separate.reset other absent
  · simp only [ServerState.step, found]
    exact separate

/-- What happens to a connection happens as it would by itself, and to no other connection. -/
theorem ServerState.Separate.happens {host : ServerHost} {state : ServerState}
    (separate : state.Separate host) (sock : Nat) (happening : Happening)
    : (state.step host (.happens sock happening)).Separate host := by
  rcases found : state.connections sock with _ | open'
  · simp only [ServerState.step, found]
    exact separate
  · have follows := separate.opened sock open' found
    have same := advance_alike follows.alike host happening
    have alone
        : Alone.after host (open'.history.happenings ++ [happening])
            = let turn :=
                advance host (Alone.after host open'.history.happenings).arrays open'.connection
                  happening
              { arrays := turn.arrays
                connection := turn.connection
                log := (Alone.after host open'.history.happenings).log ++ turn.handed } := by
      rw [Alone.after_snoc, Alone.step, follows.connection]
    simp only [ServerState.step, found]
    refine ⟨?_, ?_, ?_⟩
    · intro other open'' present
      dsimp only at present ⊢
      rcases Decidable.em (other = sock) with rfl | distinct
      · simp only [Function.update_self] at present ⊢
        obtain ⟨connection, stays, rfl⟩ := Option.map_eq_some_iff.mp present
        refine ⟨?_, ?_, ?_⟩
        · rw [alone]
          exact same.connection.symm.trans stays
        · rw [alone, follows.log, same.handed]
        · intro watched
          rw [alone]
          exact same.alike connection stays watched
      · simp only [Function.update_of_ne distinct] at present ⊢
        exact separate.opened other open'' present
    · intro history member
      dsimp only at member
      split at member
      next =>
        rcases List.mem_cons.mp member with rfl | member
        · rw [History.Isolated, alone, follows.log, same.handed]
        · exact separate.closed history member
      next => exact separate.closed history member
    · intro other absent
      dsimp only at absent ⊢
      rcases Decidable.em (other = sock) with rfl | distinct
      · simp only [Function.update_self, Option.map_eq_none_iff] at absent ⊢
        exact same.reset absent
      · simp only [Function.update_of_ne distinct] at absent ⊢
        exact separate.reset other absent

theorem ServerState.Separate.run {host : ServerHost} {events : List ServerEvent}
    {state : ServerState} (separate : state.Separate host)
    (unburdened : UnburdenedRun host state events)
    : (state.run host events).Separate host := by
  induction events generalizing state with
  | nil => exact separate
  | cons event events ih =>
      obtain ⟨first, rest⟩ := unburdened
      refine ih ?_ rest
      cases event with
      | opens sock => exact separate.opens first
      | happens sock happening => exact separate.happens sock happening

end SpeedTables.Remote
