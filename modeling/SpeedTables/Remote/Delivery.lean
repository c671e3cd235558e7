import Mathlib

/-! The commands of a remote table: a client that sends them again when it loses its connection. -/

namespace SpeedTables.Remote

-----------------------------------------------------------------------------------------
-- The client, the network and the servers
-----------------------------------------------------------------------------------------

/-- A response of `remote_receive` to a request: a redirect, which it sends without executing the
command, or a result or an error.
-/
inductive Answer where
  | redirect
  | result
  deriving DecidableEq

/-- A request or a response under way on a connection, with the number of its command. -/
structure Message (α : Type) where
  connection : Nat
  command : Nat
  body : α
  deriving DecidableEq

/-- Where `remote_ctable_send` is: not called, about to send a command, or waiting for its response.
The failures are the loop's `i`.
-/
inductive Call where
  | idle
  | sending (command failures : Nat)
  | waiting (command failures : Nat)
  deriving DecidableEq

/-- A client and all servers it talks to. Commands are numbered as the client issues them, and
connections as it opens them. The last four fields are histories: the commands sent, executed by
a server, sent without a response, and sent on to another server.
-/
structure RemoteState where
  call : Call
  issued : Nat
  connection : Nat
  requests : List (Message Unit)
  responses : List (Message Answer)
  sent : List Nat
  executed : List Nat
  lost : List Nat
  followed : List Nat

/-- Nothing is issued yet. -/
def RemoteState.initial : RemoteState where
  call := .idle
  issued := 0
  connection := 0
  requests := []
  responses := []
  sent := []
  executed := []
  lost := []
  followed := []

/-- What happens next. `send` tells whether the request leaves the client and whether `puts` and
`flush` succeed; a request under way can reach a server, which may redirect it, also after the
client has given up its connection; what is under way may get lost; the client reads the
response, or the end of file.
-/
inductive RemoteEvent where
  | issue
  | unreachable
  | send (leaves reported : Bool)
  | serve (request : Message Unit) (redirects : Bool)
  | loseRequest (request : Message Unit)
  | loseResponse (response : Message Answer)
  | respond (answer : Answer) (follows : Bool)
  | eof
  deriving DecidableEq

/-- The request or its response is lost: give up after the sixth failure, and connect again before
that.
-/
def RemoteState.fail (state : RemoteState) (command failures : Nat) : RemoteState :=
  { state with
    call := if 5 < failures + 1 then .idle else .sending command (failures + 1)
    connection := state.connection + 1
    lost := command :: state.lost }

/-- One event. An event that cannot happen leaves the state as it is. -/
def RemoteState.step (state : RemoteState) : RemoteEvent → RemoteState
  | .issue =>
      match state.call with
      | .idle => { state with call := .sending state.issued 0, issued := state.issued + 1 }
      | _ => state
  | .unreachable =>
      match state.call with
      | .sending _ _ => { state with call := .idle }
      | _ => state
  | .send leaves reported =>
      match state.call with
      | .sending command failures =>
          let request :=
            { connection := state.connection, command := command, body := () : Message Unit }
          let sent :=
            { state with
              call := .waiting command failures
              requests := if leaves then request :: state.requests else state.requests
              sent := command :: state.sent }
          if reported then sent else sent.fail command failures
      | _ => state
  | .serve request redirects =>
      if request ∈ state.requests then
        let answer := if redirects then .redirect else .result
        { state with
          requests := state.requests.erase request
          responses := { request with body := answer } :: state.responses
          executed := if redirects then state.executed else request.command :: state.executed }
      else state
  | .loseRequest request => { state with requests := state.requests.erase request }
  | .loseResponse response => { state with responses := state.responses.erase response }
  | .respond answer follows =>
      match state.call with
      | .waiting command _ =>
          let response :=
            { connection := state.connection, command := command, body := answer : Message Answer }
          if response ∈ state.responses then
            let read := { state with responses := state.responses.erase response }
            match answer, follows with
            | .redirect, true =>
                { read with
                  call := .sending command 0
                  connection := state.connection + 1
                  followed := command :: state.followed }
            | _, _ => { read with call := .idle }
          else state
      | _ => state
  | .eof =>
      match state.call with
      | .waiting command failures => state.fail command failures
      | _ => state

/-- A run of events. -/
def RemoteState.run (state : RemoteState) (events : List RemoteEvent) : RemoteState :=
  events.foldl RemoteState.step state

/-- Each command has been executed at most once more than it was sent without a response, and has
been sent at most six times for each server it was sent to.
-/
def RemoteState.AtMostResent (state : RemoteState) : Prop :=
  ∀ command,
    state.executed.count command ≤ state.lost.count command + 1
      ∧ state.sent.count command ≤ 6 * (state.followed.count command + 1)

-----------------------------------------------------------------------------------------
-- The count of each command
-----------------------------------------------------------------------------------------

/-- The number of messages of a command. -/
def underway {α : Type} (messages : List (Message α)) (command : Nat) : Nat :=
  messages.countP (fun message => message.command = command)

/-- The number of redirects under way for a command. -/
def redirects (responses : List (Message Answer)) (command : Nat) : Nat :=
  responses.countP (fun message => message.command = command ∧ message.body = .redirect)

/-- The command of a call. -/
def Call.command : Call → Option Nat
  | .idle => none
  | .sending command _ | .waiting command _ => some command

/-- The failures of a call since it was last redirected. -/
def Call.failures : Call → Nat
  | .idle => 0
  | .sending _ failures | .waiting _ failures => failures

/-- A waiting client has sent its command once more than it knows the outcome of. -/
def Call.pending : Call → Nat
  | .waiting _ _ => 1
  | _ => 0

/-- What the counts of one command satisfy: every execution, every redirect followed or under way,
and every request under way belongs to a sending of its own; and of every sending but one the
client has seen that it was lost or redirected.
-/
structure RemoteState.Tally (state : RemoteState) (command : Nat) : Prop where
  known : state.lost.count command + state.followed.count command ≤ state.sent.count command
  executed :
    state.executed.count command + state.followed.count command
      + redirects state.responses command + underway state.requests command
        ≤ state.sent.count command
  resolved :
    state.sent.count command ≤ state.lost.count command + state.followed.count command + 1
  bounded : state.sent.count command ≤ 6 * (state.followed.count command + 1)
  calling : state.call.command = some command →
    state.sent.count command
      = state.lost.count command + state.followed.count command + state.call.pending
  tried : state.call.command = some command →
    state.sent.count command
      ≤ 6 * state.followed.count command + state.call.failures + state.call.pending

/-- The invariant of a run: the tallies of all commands, of which those to come have not been sent,
and a call that has not failed too often.
-/
structure RemoteState.Counted (state : RemoteState) : Prop where
  tally : ∀ command, state.Tally command
  fresh : ∀ command, state.issued ≤ command → state.sent.count command = 0
  current : ∀ command, state.call.command = some command → command < state.issued
  patient : state.call.failures ≤ 5

theorem RemoteState.initial_counted : RemoteState.initial.Counted where
  tally := fun command => by
    constructor <;> simp [RemoteState.initial, redirects, underway, Call.command]
  fresh := fun _ _ => rfl
  current := nofun
  patient := Nat.zero_le 5

section Counts

variable {state : RemoteState}

theorem underway_cons {α : Type} (message : Message α) (messages : List (Message α)) (command : Nat)
    : underway (message :: messages) command
        = underway messages command + if message.command = command then 1 else 0 := by
  simp [underway, List.countP_cons]

theorem redirects_cons (message : Message Answer) (responses : List (Message Answer))
    (command : Nat)
    : redirects (message :: responses) command
        = redirects responses command
          + if message.command = command ∧ message.body = .redirect then 1 else 0 := by
  simp [redirects, List.countP_cons]

/-- Taking a message off the network takes it out of the count of its command. -/
theorem underway_erase {α : Type} [DecidableEq α] {message : Message α}
    {messages : List (Message α)} (there : message ∈ messages) (command : Nat)
    : underway messages command
        = underway (messages.erase message) command
          + if message.command = command then 1 else 0 := by
  rw [← underway_cons]
  exact (List.perm_cons_erase there).countP_eq _

theorem redirects_erase {message : Message Answer} {responses : List (Message Answer)}
    (there : message ∈ responses) (command : Nat)
    : redirects responses command
        = redirects (responses.erase message) command
          + if message.command = command ∧ message.body = .redirect then 1 else 0 := by
  rw [← redirects_cons]
  exact (List.perm_cons_erase there).countP_eq _

theorem underway_erase_le {α : Type} [DecidableEq α] (message : Message α)
    (messages : List (Message α)) (command : Nat)
    : underway (messages.erase message) command ≤ underway messages command :=
  List.Sublist.countP_le List.erase_sublist

theorem redirects_erase_le (message : Message Answer) (responses : List (Message Answer))
    (command : Nat)
    : redirects (responses.erase message) command ≤ redirects responses command :=
  List.Sublist.countP_le List.erase_sublist

/-- A call that ends, with fewer messages under way, keeps every tally. -/
theorem RemoteState.Counted.quiet (counted : state.Counted) {after : RemoteState}
    (call : after.call = .idle ∨ after.call = state.call) (issued : after.issued = state.issued)
    (sent : after.sent = state.sent) (lost : after.lost = state.lost)
    (followed : after.followed = state.followed)
    (executed : ∀ command,
      after.executed.count command + redirects after.responses command
          + underway after.requests command
        ≤ state.executed.count command + redirects state.responses command
          + underway state.requests command)
    : after.Counted := by
  have before (command : Nat) (current : after.call.command = some command)
      : after.call = state.call := by
    rcases call with idle | same
    · rw [idle] at current
      cases current
    · exact same
  constructor
  · intro command
    have tally := counted.tally command
    have fewer := executed command
    constructor
    · rw [lost, followed, sent]
      exact tally.known
    · have all := tally.executed
      rw [followed, sent]
      omega
    · rw [lost, followed, sent]
      exact tally.resolved
    · rw [followed, sent]
      exact tally.bounded
    · intro current
      have same := before command current
      rw [same] at current
      rw [same, lost, followed, sent]
      exact tally.calling current
    · intro current
      have same := before command current
      rw [same] at current
      rw [same, followed, sent]
      exact tally.tried current
  · intro command
    rw [issued, sent]
    exact counted.fresh command
  · intro command current
    rw [before command current] at current
    rw [issued]
    exact counted.current command current
  · rcases call with idle | same
    · rw [idle]
      exact Nat.zero_le 5
    · rw [same]
      exact counted.patient

/-- The first sending of a command is still to come. -/
theorem RemoteState.Counted.issue (counted : state.Counted)
    : RemoteState.Counted
        { state with call := .sending state.issued 0, issued := state.issued + 1 } := by
  constructor
  · intro command
    have tally := counted.tally command
    refine { tally with calling := ?_, tried := ?_ }
    · rintro ⟨⟩
      have none := counted.fresh state.issued (Nat.le_refl _)
      have known := tally.known
      simp only [Call.pending]
      omega
    · rintro ⟨⟩
      have none := counted.fresh state.issued (Nat.le_refl _)
      simp only [Call.pending, Call.failures]
      omega
  · intro command late
    exact counted.fresh command (Nat.le_of_succ_le late)
  · rintro _ ⟨⟩
    exact Nat.lt_succ_self _
  · exact Nat.zero_le 5

/-- A request is sent, and its response is waited for. -/
theorem RemoteState.Counted.send (counted : state.Counted) {command failures : Nat}
    (sending : state.call = .sending command failures) (request : Message Unit) (leaves : Bool)
    (about : request.command = command)
    : RemoteState.Counted
        { state with
          call := .waiting command failures
          requests := if leaves then request :: state.requests else state.requests
          sent := command :: state.sent } := by
  have fits := counted.patient
  rw [sending] at fits
  constructor
  · intro other
    have tally := counted.tally other
    have requests : underway (if leaves then request :: state.requests else state.requests) other
        ≤ underway state.requests other + if command = other then 1 else 0 := by
      split
      · exact Nat.le_of_eq (by rw [underway_cons, about])
      · exact Nat.le_add_right _ _
    rcases eq_or_ne command other with rfl | different
    · have calling := tally.calling (by rw [sending]; rfl)
      have tried := tally.tried (by rw [sending]; rfl)
      have executed := tally.executed
      rw [sending] at calling tried
      simp only [Call.pending, Call.failures] at calling tried fits
      rw [if_pos rfl] at requests
      constructor <;>
        simp only [List.count_cons_self, Call.command, Call.pending, Call.failures,
          forall_const] <;>
        omega
    · rw [if_neg different] at requests
      have executed := tally.executed
      have same : (command :: state.sent).count other = state.sent.count other :=
        List.count_cons_of_ne different
      constructor
      · rw [same]
        exact tally.known
      · dsimp only
        rw [same]
        omega
      · rw [same]
        exact tally.resolved
      · rw [same]
        exact tally.bounded
      · rintro ⟨⟩
        exact absurd rfl different
      · rintro ⟨⟩
        exact absurd rfl different
  · intro other late
    have below := counted.current command (by rw [sending]; rfl)
    have different : command ≠ other := by
      rintro rfl
      exact absurd below (Nat.not_lt.mpr late)
    exact (List.count_cons_of_ne different).trans (counted.fresh other late)
  · rintro _ ⟨⟩
    exact counted.current command (by rw [sending]; rfl)
  · exact fits

/-- A sending turns out to be lost: the command is sent again, or given up. -/
theorem RemoteState.Counted.fail (counted : state.Counted) {command failures : Nat}
    (waiting : state.call = .waiting command failures)
    : (state.fail command failures).Counted := by
  have fits := counted.patient
  rw [waiting] at fits
  have current : state.call.command = some command := by
    rw [waiting]
    rfl
  have about (other : Nat) (about : (state.fail command failures).call.command = some other)
      : (state.fail command failures).call = .sending command (failures + 1)
        ∧ command = other ∧ failures + 1 ≤ 5 := by
    unfold RemoteState.fail at about ⊢
    dsimp only at about ⊢
    split at about
    · cases about
    next more =>
      rw [if_neg more]
      exact ⟨rfl, Option.some.inj about, by omega⟩
  constructor
  · intro other
    have tally := counted.tally other
    rcases eq_or_ne command other with rfl | different
    · have calling := tally.calling current
      have tried := tally.tried current
      have bounded := tally.bounded
      have executed := tally.executed
      rw [waiting] at calling tried
      simp only [Call.pending, Call.failures] at calling tried fits
      have lost : (state.fail command failures).lost.count command
          = state.lost.count command + 1 :=
        List.count_cons_self
      constructor
      · rw [lost]
        show _ + state.followed.count command ≤ state.sent.count command
        omega
      · exact executed
      · rw [lost]
        show state.sent.count command ≤ _ + state.followed.count command + 1
        omega
      · exact bounded
      · intro about'
        obtain ⟨call, -, -⟩ := about command about'
        rw [call, lost]
        show state.sent.count command = _ + state.followed.count command + 0
        omega
      · intro about'
        obtain ⟨call, -, -⟩ := about command about'
        rw [call]
        show state.sent.count command ≤ 6 * state.followed.count command + (failures + 1) + 0
        omega
    · have lost : (state.fail command failures).lost.count other = state.lost.count other :=
        List.count_cons_of_ne different
      constructor
      · rw [lost]
        exact tally.known
      · exact tally.executed
      · rw [lost]
        exact tally.resolved
      · exact tally.bounded
      · intro about'
        exact absurd (about other about').2.1 different
      · intro about'
        exact absurd (about other about').2.1 different
  · exact counted.fresh
  · intro other about'
    obtain ⟨-, rfl, -⟩ := about other about'
    exact counted.current command current
  · unfold RemoteState.fail
    dsimp only
    split
    · exact Nat.zero_le 5
    next more =>
      show failures + 1 ≤ 5
      omega

/-- A redirect is followed: the command is sent to another server, with new failures. -/
theorem RemoteState.Counted.follow (counted : state.Counted) {command failures : Nat}
    (waiting : state.call = .waiting command failures) {response : Message Answer}
    (there : response ∈ state.responses) (about : response.command = command)
    (redirect : response.body = .redirect)
    : RemoteState.Counted
        { state with
          responses := state.responses.erase response
          call := .sending command 0
          connection := state.connection + 1
          followed := command :: state.followed } := by
  have fits := counted.patient
  rw [waiting] at fits
  have current : state.call.command = some command := by
    rw [waiting]
    rfl
  constructor
  · intro other
    have tally := counted.tally other
    have erased := redirects_erase there other
    have executed := tally.executed
    rcases eq_or_ne command other with rfl | different
    · rw [if_pos ⟨about, redirect⟩] at erased
      have calling := tally.calling current
      have tried := tally.tried current
      have bounded := tally.bounded
      rw [waiting] at calling tried
      simp only [Call.pending, Call.failures] at calling tried fits
      constructor <;>
        simp only [List.count_cons_self, Call.command, Call.pending, Call.failures,
          forall_const] <;>
        omega
    · rw [about, if_neg fun both => different both.1] at erased
      have followed : (command :: state.followed).count other = state.followed.count other :=
        List.count_cons_of_ne different
      constructor
      · rw [followed]
        exact tally.known
      · dsimp only
        rw [followed]
        omega
      · rw [followed]
        exact tally.resolved
      · rw [followed]
        exact tally.bounded
      · rintro ⟨⟩
        exact absurd rfl different
      · rintro ⟨⟩
        exact absurd rfl different
  · exact counted.fresh
  · rintro _ ⟨⟩
    exact counted.current command current
  · exact Nat.zero_le 5

/-- A server executes or redirects a request that is under way. -/
theorem RemoteState.Counted.serve (counted : state.Counted) {request : Message Unit}
    (there : request ∈ state.requests) (redirected : Bool)
    : RemoteState.Counted
        { state with
          requests := state.requests.erase request
          responses := { request with body := if redirected then .redirect else .result }
            :: state.responses
          executed := if redirected then state.executed
            else request.command :: state.executed } := by
  refine counted.quiet (.inr rfl) rfl rfl rfl rfl ?_
  intro command
  have taken := underway_erase there command
  cases redirected with
  | true =>
      dsimp only
      rw [redirects_cons]
      simp only [↓reduceIte, and_true]
      omega
  | false =>
      dsimp only
      rw [redirects_cons]
      simp only [Bool.false_eq_true, ↓reduceIte, reduceCtorEq, and_false, List.count_cons,
        beq_iff_eq]
      omega

/-- Every event keeps the counts. -/
theorem RemoteState.Counted.step (counted : state.Counted) (event : RemoteEvent)
    : (state.step event).Counted := by
  cases event with
  | issue =>
      dsimp only [RemoteState.step]
      split
      · exact counted.issue
      · exact counted
  | unreachable =>
      dsimp only [RemoteState.step]
      split
      · exact counted.quiet (.inl rfl) rfl rfl rfl rfl fun _ => Nat.le_refl _
      · exact counted
  | send leaves reported =>
      dsimp only [RemoteState.step]
      split
      next command failures sending =>
        have sent := counted.send sending
          { connection := state.connection, command := command, body := () } leaves rfl
        split
        · exact sent
        · exact sent.fail rfl
      · exact counted
  | serve request redirected =>
      dsimp only [RemoteState.step]
      split
      next there => exact counted.serve there redirected
      · exact counted
  | loseRequest request =>
      refine counted.quiet (.inr rfl) rfl rfl rfl rfl ?_
      intro command
      have fewer := underway_erase_le request state.requests command
      exact Nat.add_le_add_left fewer _
  | loseResponse response =>
      refine counted.quiet (.inr rfl) rfl rfl rfl rfl ?_
      intro command
      have fewer := redirects_erase_le response state.responses command
      exact Nat.add_le_add_right (Nat.add_le_add_left fewer _) _
  | respond answer follows =>
      dsimp only [RemoteState.step]
      split
      next command failures waiting =>
        split
        next there =>
          split
          · exact counted.follow waiting there rfl rfl
          · refine counted.quiet (.inl rfl) rfl rfl rfl rfl ?_
            intro other
            exact Nat.add_le_add_right
              (Nat.add_le_add_left (redirects_erase_le _ state.responses other) _) _
        · exact counted
      · exact counted
  | eof =>
      dsimp only [RemoteState.step]
      split
      next command failures waiting => exact counted.fail waiting
      · exact counted

theorem RemoteState.Counted.run (counted : state.Counted) (events : List RemoteEvent)
    : (state.run events).Counted := by
  induction events generalizing state with
  | nil => exact counted
  | cons event rest ih => exact ih (counted.step event)

end Counts

/-- In every run a command is executed at most once more than it was sent in vain, and sent at most
six times for each server it was sent to.
-/
theorem remoteSend_atMostResent (events : List RemoteEvent)
    : (RemoteState.initial.run events).AtMostResent := by
  intro command
  have tally := (RemoteState.initial_counted.run events).tally command
  have executed := tally.executed
  have resolved := tally.resolved
  exact ⟨by omega, tally.bounded⟩

/-- The response to the first command gets lost after its execution, and the command is sent and
executed again.
-/
theorem remoteSend_executedTwice
    : ¬ ∀ events command, (RemoteState.initial.run events).executed.count command ≤ 1 := by
  intro claim
  have twice := claim
    [.issue, .send true true, .serve { connection := 0, command := 0, body := () } false, .eof,
      .send true true, .serve { connection := 1, command := 0, body := () } false] 0
  exact absurd twice (by decide)

end SpeedTables.Remote
