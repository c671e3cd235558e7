import Mathlib
import SpeedTables.Lib.TclMatch
import SpeedTables.Lib.TclString

/-! The server's cache of URLs: which table a request goes to, and which requests are redirected. -/

namespace SpeedTables.Remote

open Lib (Text cutAt cutAtLast stringMatch PlainPattern)

-----------------------------------------------------------------------------------------
-- URLs
-----------------------------------------------------------------------------------------

/-- The list that `split_ctable_url` returns. -/
structure CtableUrl where
  host : Text
  port : Text
  dir : Text
  tableName : Text
  options : Text
  deriving DecidableEq

/-- The protocols of its pattern. -/
def ctableProtocols : List Text :=
  [['c', 't', 'a', 'b', 'l', 'e'], ['s', 't', 't', 'p']]

def ctableDefaultPort : Text :=
  ['1', '1', '1', '1', '1']

/-- The part of a URL behind its protocol, which is written in any case. -/
def behindProtocol (cttpUrl : Text) : Option Text :=
  ctableProtocols.findSome? (fun proto =>
    if (proto ++ [':', '/', '/']).isPrefixOf (cttpUrl.map Char.toLower) then
      some (cttpUrl.drop (proto.length + 3))
    else none)

/-- The error of `split_ctable_url`. -/
def invalidUrl (cttpUrl : Text) : Text :=
  "invalid URL syntax in '".toList ++ cttpUrl
    ++ "', should be proto://host?:port?/?dir/table??stuff?".toList

/-- `split_ctable_url`. The shortest host and port end at the first slash, and each further pattern
begins with a longest part.
-/
def splitCtableUrl (cttpUrl : Text) : Except Text CtableUrl :=
  match (behindProtocol cttpUrl).bind (cutAt '/') with
  | none => .error (invalidUrl cttpUrl)
  | some (hostPort, theRest) =>
      let (host, port) := (cutAtLast ':' hostPort).getD (hostPort, ctableDefaultPort)
      let (theRest, options) := (cutAtLast '?' theRest).getD (theRest, [])
      let (dir, tableName) := (cutAtLast '/' theRest).getD ([], theRest)
      .ok { host, port, dir, tableName, options }

example
    : splitCtableUrl
        ['S', 't', 't', 'p', ':', '/', '/', 'h', ':', '1', '/', 'd', '/', 't', '?', 'o']
      = .ok
        { host := ['h'], port := ['1'], dir := ['d'], tableName := ['t'], options := ['o'] } := by
  decide +kernel

-----------------------------------------------------------------------------------------
-- The server
-----------------------------------------------------------------------------------------

/-- What `remote_receive` does with a request: it sends an error or a redirect, or calls
`remote_invoke` with a table.
-/
inductive Decision where
  | error (err : Text)
  | redirect (target : Text)
  | invoke (table : Text)
  deriving DecidableEq

/-- The index `$table:$port` of a redirect. -/
def redirectIndex (table port : Text) : Text :=
  table ++ ':' :: port

/-- The pattern of the URLs that are dropped with a redirect of a table. -/
def uncachePattern (table : Text) : Text :=
  '*' :: (('/' :: table) ++ ['*'])

/-- The two arrays of the server. -/
structure UrlServer where
  registeredCtableRedirects : Text → Option Text
  ctableUrlCache : Text → Option Text

def UrlServer.initial : UrlServer where
  registeredCtableRedirects _ := none
  ctableUrlCache _ := none

/-- The decision for a request whose URL is split and looked up. -/
def lookUp (redirects : Text → Option Text) (ctableUrl myPort : Text) : Decision :=
  match splitCtableUrl ctableUrl with
  | .error err => .error err
  | .ok parts =>
      match redirects (redirectIndex parts.tableName myPort) with
      | some target => .redirect target
      | none => .invoke parts.tableName

/-- The part of `remote_receive` that decides about a request. -/
def UrlServer.remoteReceive (server : UrlServer) (ctableUrl myPort : Text) : Decision × UrlServer :=
  match server.ctableUrlCache ctableUrl with
  | some table => (.invoke table, server)
  | none =>
      match splitCtableUrl ctableUrl with
      | .error err => (.error err, server)
      | .ok parts =>
          match server.registeredCtableRedirects (redirectIndex parts.tableName myPort) with
          | some target => (.redirect target, server)
          | none =>
              (.invoke parts.tableName,
                { server with
                  ctableUrlCache :=
                    Function.update server.ctableUrlCache ctableUrl (some parts.tableName) })

/-- The arrays after `register_redirect_ctable`. Nothing is registered when `start_server` fails. -/
def setRedirect (redirects : Text → Option Text) (table port target : Text) (listening : Bool)
    : Text → Option Text :=
  if listening then Function.update redirects (redirectIndex table port) (some target)
  else redirects

def UrlServer.registerRedirectCtable (server : UrlServer) (table port target : Text)
    (listening : Bool)
    : UrlServer where
  registeredCtableRedirects :=
    setRedirect server.registeredCtableRedirects table port target listening
  ctableUrlCache name :=
    if listening ∧ stringMatch (uncachePattern table) name then none
    else server.ctableUrlCache name

/-- What reaches the server: a request on a port, or a redirect to register. The flag tells whether
`start_server` succeeds.
-/
inductive ServerCall where
  | request (ctableUrl myPort : Text)
  | register (table port target : Text) (listening : Bool)

def UrlServer.step (server : UrlServer) : ServerCall → UrlServer
  | .request ctableUrl myPort => (server.remoteReceive ctableUrl myPort).2
  | .register table port target listening =>
      server.registerRedirectCtable table port target listening

def UrlServer.run (server : UrlServer) (calls : List ServerCall) : UrlServer :=
  calls.foldl step server

/-- The decisions for the requests among the calls. -/
def UrlServer.decisions : UrlServer → List ServerCall → List Decision
  | _, [] => []
  | server, .request ctableUrl myPort :: calls =>
      (server.remoteReceive ctableUrl myPort).1
        :: (server.step (.request ctableUrl myPort)).decisions calls
  | server, .register table port target listening :: calls =>
      (server.step (.register table port target listening)).decisions calls

/-- The decisions of a server that has no cache. -/
def uncachedDecisions : (Text → Option Text) → List ServerCall → List Decision
  | _, [] => []
  | redirects, .request ctableUrl myPort :: calls =>
      lookUp redirects ctableUrl myPort :: uncachedDecisions redirects calls
  | redirects, .register table port target listening :: calls =>
      uncachedDecisions (setRedirect redirects table port target listening) calls

-----------------------------------------------------------------------------------------
-- One request
-----------------------------------------------------------------------------------------

/-- Every cached URL is cached with its table. -/
def UrlServer.Sound (server : UrlServer) : Prop :=
  ∀ ctableUrl table, server.ctableUrlCache ctableUrl = some table →
    ∃ parts, splitCtableUrl ctableUrl = .ok parts ∧ parts.tableName = table

/-- A request whose URL is cached although its table is redirected. -/
def UrlServer.Stale (server : UrlServer) (ctableUrl myPort : Text) : Prop :=
  ∃ table, server.ctableUrlCache ctableUrl = some table
    ∧ (server.registeredCtableRedirects (redirectIndex table myPort)).isSome

variable {server : UrlServer} {ctableUrl myPort : Text} {calls : List ServerCall}

theorem UrlServer.initial_sound : initial.Sound := by
  intro ctableUrl table cached
  cases cached

theorem UrlServer.remoteReceive_redirects
    : (server.remoteReceive ctableUrl myPort).2.registeredCtableRedirects
      = server.registeredCtableRedirects := by
  unfold remoteReceive
  split
  · rfl
  · split
    · rfl
    · split <;> rfl

/-- What a request leaves in the cache. -/
theorem UrlServer.remoteReceive_cache {name table : Text} (sound : server.Sound)
    : (server.remoteReceive ctableUrl myPort).2.ctableUrlCache name = some table
      ↔ server.ctableUrlCache name = some table
        ∨ (name = ctableUrl
          ∧ (∃ parts, splitCtableUrl ctableUrl = .ok parts ∧ parts.tableName = table)
          ∧ server.registeredCtableRedirects (redirectIndex table myPort) = none) := by
  unfold remoteReceive
  cases cached : server.ctableUrlCache ctableUrl with
  | some known =>
      refine ⟨Or.inl, ?_⟩
      intro found
      rcases found with before | ⟨same, ⟨parts, split, named⟩, -⟩
      · exact before
      · obtain ⟨others, otherSplit, otherNamed⟩ := sound ctableUrl known cached
        have parts : others = parts := Except.ok.inj (otherSplit.symm.trans split)
        rw [same, cached, ← otherNamed, parts, named]
  | none =>
      cases split : splitCtableUrl ctableUrl with
      | error err => simp
      | ok parts =>
          cases redirect : server.registeredCtableRedirects
              (redirectIndex parts.tableName myPort) with
          | some target =>
              simp only [redirect]
              refine ⟨Or.inl, ?_⟩
              intro found
              rcases found with before | ⟨-, ⟨others, otherSplit, otherNamed⟩, free⟩
              · exact before
              · cases otherSplit
                rw [otherNamed, free] at redirect
                cases redirect
          | none =>
              simp only [redirect]
              by_cases same : name = ctableUrl
              · subst same
                simp only [Function.update_self, Option.some.injEq, cached, reduceCtorEq, false_or,
                  true_and, Except.ok.injEq, exists_eq_left']
                constructor
                · intro named
                  exact ⟨named, named ▸ redirect⟩
                · exact And.left
              · simp [same]

theorem UrlServer.Sound.step (sound : server.Sound) (call : ServerCall)
    : (server.step call).Sound := by
  intro name table cached
  cases call with
  | request ctableUrl myPort =>
      rcases (remoteReceive_cache sound).mp cached with before | ⟨same, parts, -⟩
      · exact sound name table before
      · exact same ▸ parts
  | register other port target listening =>
      refine sound name table ?_
      simp only [UrlServer.step, registerRedirectCtable] at cached
      split at cached
      · cases cached
      · exact cached

theorem UrlServer.Sound.run (sound : server.Sound) : (server.run calls).Sound := by
  induction calls generalizing server with
  | nil => exact sound
  | cons call calls ih => exact ih (sound.step call)

/-- The two servers decide the same unless the request is stale. -/
theorem UrlServer.remoteReceive_fresh_iff (sound : server.Sound)
    : (server.remoteReceive ctableUrl myPort).1
        = lookUp server.registeredCtableRedirects ctableUrl myPort
      ↔ ¬ server.Stale ctableUrl myPort := by
  cases cached : server.ctableUrlCache ctableUrl with
  | some table =>
      obtain ⟨parts, split, rfl⟩ := sound ctableUrl table cached
      simp only [remoteReceive, lookUp, Stale, cached, split, Option.some.injEq, exists_eq_left']
      cases server.registeredCtableRedirects (redirectIndex parts.tableName myPort) <;> simp
  | none =>
      simp only [remoteReceive, lookUp, Stale, cached, reduceCtorEq, false_and, exists_false,
        not_false_eq_true, iff_true]
      split
      · rfl
      · split <;> rfl

-----------------------------------------------------------------------------------------
-- Runs
-----------------------------------------------------------------------------------------

/-- A run decides as without a cache exactly if none of its requests is stale, by induction on the
calls.
-/
theorem UrlServer.decisions_fresh_iff (sound : server.Sound)
    : server.decisions calls = uncachedDecisions server.registeredCtableRedirects calls
      ↔ ∀ early ctableUrl myPort late,
        calls = early ++ .request ctableUrl myPort :: late →
          ¬ (server.run early).Stale ctableUrl myPort := by
  induction calls generalizing server with
  | nil => simp [decisions, uncachedDecisions]
  | cons call calls ih =>
      have rest := ih (sound.step call)
      have behind : (∀ early ctableUrl myPort late,
            call :: calls = early ++ .request ctableUrl myPort :: late →
              ¬ (server.run early).Stale ctableUrl myPort)
          ↔ (∀ ctableUrl myPort, call = .request ctableUrl myPort →
              ¬ server.Stale ctableUrl myPort)
            ∧ ∀ early ctableUrl myPort late,
              calls = early ++ .request ctableUrl myPort :: late →
                ¬ ((server.step call).run early).Stale ctableUrl myPort := by
        constructor
        · intro fresh
          refine ⟨fun ctableUrl myPort same => fresh [] ctableUrl myPort calls (by simp [same]), ?_⟩
          intro early ctableUrl myPort late split
          exact fresh (call :: early) ctableUrl myPort late (by simp [split])
        · intro ⟨first, others⟩ early ctableUrl myPort late split
          cases early with
          | nil =>
              cases split
              exact first ctableUrl myPort rfl
          | cons other early =>
              cases split
              exact others early ctableUrl myPort late rfl
      rw [behind, ← rest]
      cases call with
      | request ctableUrl myPort =>
          have redirects : (server.step (.request ctableUrl myPort)).registeredCtableRedirects
              = server.registeredCtableRedirects := remoteReceive_redirects
          rw [decisions, uncachedDecisions, List.cons.injEq, remoteReceive_fresh_iff sound,
            redirects]
          simp only [ServerCall.request.injEq, and_imp, forall_apply_eq_imp_iff, forall_eq']
      | register table port target listening =>
          simp only [decisions, uncachedDecisions, reduceCtorEq, false_implies, implies_true,
            true_and]
          rfl

/-- A redirect with the index of this table and port is registered by one of the calls. -/
def Redirected (calls : List ServerCall) (table port : Text) : Prop :=
  ∃ other otherPort target, .register other otherPort target true ∈ calls
    ∧ redirectIndex other otherPort = redirectIndex table port

/-- One of the calls registers a redirect that drops this URL. -/
def Dropped (calls : List ServerCall) (ctableUrl : Text) : Prop :=
  ∃ table port target, .register table port target true ∈ calls
    ∧ stringMatch (uncachePattern table) ctableUrl = true

theorem redirected_request {table port : Text}
    : Redirected (.request ctableUrl myPort :: calls) table port ↔ Redirected calls table port := by
  simp [Redirected]

theorem redirected_register {other otherPort target table port : Text} {listening : Bool}
    : Redirected (.register other otherPort target listening :: calls) table port
      ↔ (listening = true ∧ redirectIndex other otherPort = redirectIndex table port)
        ∨ Redirected calls table port := by
  constructor
  · intro ⟨name, namePort, namedTarget, member, same⟩
    cases member with
    | head => exact .inl ⟨rfl, same⟩
    | tail _ later => exact .inr ⟨name, namePort, namedTarget, later, same⟩
  · intro found
    rcases found with ⟨succeeds, same⟩ | ⟨name, namePort, namedTarget, member, same⟩
    · exact ⟨other, otherPort, target, by simp [succeeds], same⟩
    · exact ⟨name, namePort, namedTarget, List.mem_cons_of_mem _ member, same⟩

theorem dropped_request {port : Text} {name : Text}
    : Dropped (.request name port :: calls) ctableUrl ↔ Dropped calls ctableUrl := by
  simp [Dropped]

theorem dropped_register {table port target : Text} {listening : Bool}
    : Dropped (.register table port target listening :: calls) ctableUrl
      ↔ (listening = true ∧ stringMatch (uncachePattern table) ctableUrl = true)
        ∨ Dropped calls ctableUrl := by
  constructor
  · intro ⟨name, namePort, namedTarget, member, matched⟩
    cases member with
    | head => exact .inl ⟨rfl, matched⟩
    | tail _ later => exact .inr ⟨name, namePort, namedTarget, later, matched⟩
  · intro found
    rcases found with ⟨succeeds, matched⟩ | ⟨name, namePort, namedTarget, member, matched⟩
    · exact ⟨table, port, target, by simp [succeeds], matched⟩
    · exact ⟨name, namePort, namedTarget, List.mem_cons_of_mem _ member, matched⟩

theorem UrlServer.run_redirects {table port : Text}
    : ((server.run calls).registeredCtableRedirects (redirectIndex table port)).isSome
      ↔ (server.registeredCtableRedirects (redirectIndex table port)).isSome
        ∨ Redirected calls table port := by
  induction calls generalizing server with
  | nil => simp [run, Redirected]
  | cons call calls ih =>
      rw [show server.run (call :: calls) = (server.step call).run calls from rfl, ih]
      cases call with
      | request ctableUrl myPort =>
          rw [redirected_request, UrlServer.step, remoteReceive_redirects]
      | register other otherPort target listening =>
          have step : ((server.step (.register other otherPort target listening)
                ).registeredCtableRedirects (redirectIndex table port)).isSome
              ↔ (server.registeredCtableRedirects (redirectIndex table port)).isSome
                ∨ (listening = true
                  ∧ redirectIndex other otherPort = redirectIndex table port) := by
            cases listening with
            | false => simp [UrlServer.step, registerRedirectCtable, setRedirect]
            | true =>
                by_cases same : redirectIndex table port = redirectIndex other otherPort
                · simp [UrlServer.step, registerRedirectCtable, setRedirect, same]
                · simp [UrlServer.step, registerRedirectCtable, setRedirect, same, Ne.symm same]
          rw [step, redirected_register, or_assoc]

/-- A request for a URL is the first call, or one of the others. -/
theorem exists_request_cons {call : ServerCall}
    {property : List ServerCall → Text → List ServerCall → Prop}
    : (∃ early port late, call :: calls = early ++ .request ctableUrl port :: late
          ∧ property early port late)
      ↔ (∃ port, call = .request ctableUrl port ∧ property [] port calls)
        ∨ ∃ early port late, calls = early ++ .request ctableUrl port :: late
          ∧ property (call :: early) port late := by
  constructor
  · intro ⟨early, port, late, split, holds⟩
    cases early with
    | nil =>
        cases split
        exact .inl ⟨port, rfl, holds⟩
    | cons first early =>
        cases split
        exact .inr ⟨early, port, late, rfl, holds⟩
  · intro found
    rcases found with ⟨port, first, holds⟩ | ⟨early, port, late, split, holds⟩
    · exact ⟨[], port, calls, by rw [first]; rfl, holds⟩
    · exact ⟨call :: early, port, late, by rw [split]; rfl, holds⟩

/-- A URL is cached with its table behind a request that was not redirected, until it is dropped, by
induction on the calls.
-/
theorem UrlServer.run_cache {table : Text} (sound : server.Sound)
    : (server.run calls).ctableUrlCache ctableUrl = some table
      ↔ (server.ctableUrlCache ctableUrl = some table ∧ ¬ Dropped calls ctableUrl)
        ∨ ∃ early port middle, calls = early ++ .request ctableUrl port :: middle
          ∧ (∃ parts, splitCtableUrl ctableUrl = .ok parts ∧ parts.tableName = table)
          ∧ (server.run early).registeredCtableRedirects (redirectIndex table port) = none
          ∧ ¬ Dropped middle ctableUrl := by
  induction calls generalizing server with
  | nil => simp [run, Dropped]
  | cons call calls ih =>
      rw [show server.run (call :: calls) = (server.step call).run calls from rfl,
        ih (sound.step call), exists_request_cons, ← or_assoc]
      refine or_congr_left ?_
      cases call with
      | request name myPort =>
          rw [dropped_request, show (server.step (.request name myPort)).ctableUrlCache ctableUrl
            = some table ↔ _ from remoteReceive_cache sound, or_and_right]
          refine or_congr_right ?_
          constructor
          · intro ⟨⟨same, split, free⟩, kept⟩
            subst same
            exact ⟨myPort, rfl, split, free, kept⟩
          · intro ⟨port, same, split, free, kept⟩
            cases same
            exact ⟨⟨rfl, split, free⟩, kept⟩
      | register other otherPort target listening =>
          simp only [reduceCtorEq, false_and, exists_false, or_false, dropped_register, not_or,
            UrlServer.step, registerRedirectCtable]
          split
          · rename_i dropped
            simp [dropped]
          · rename_i kept
            simp [kept]

/-- Between two requests for a URL whose table is redirected on the second port, and was not
redirected on the first one when the first came, a redirect drops the URL.
-/
def NeverStale (calls : List ServerCall) : Prop :=
  ∀ early ctableUrl first middle second late parts,
    calls = early ++ .request ctableUrl first :: (middle ++ .request ctableUrl second :: late) →
    splitCtableUrl ctableUrl = .ok parts →
    ¬ Redirected early parts.tableName first →
    Redirected (early ++ middle) parts.tableName second → Dropped middle ctableUrl

theorem redirected_append {more : List ServerCall} {table port : Text}
    : Redirected (calls ++ more) table port
      ↔ Redirected calls table port ∨ Redirected more table port := by
  simp only [Redirected, List.mem_append, or_and_right, exists_or]

/-- The redirects of a run from the start. -/
theorem UrlServer.redirects_iff {table port : Text}
    : ((initial.run calls).registeredCtableRedirects (redirectIndex table port)).isSome
      ↔ Redirected calls table port := by
  simp [run_redirects, initial]

/-- A stale request in terms of the calls before it. -/
theorem UrlServer.stale_iff
    : (initial.run calls).Stale ctableUrl myPort
      ↔ ∃ early first middle, calls = early ++ .request ctableUrl first :: middle
        ∧ ∃ parts, splitCtableUrl ctableUrl = .ok parts ∧ ¬ Redirected early parts.tableName first
          ∧ Redirected (early ++ middle) parts.tableName myPort ∧ ¬ Dropped middle ctableUrl := by
  have free {early : List ServerCall} {table port : Text}
      : (initial.run early).registeredCtableRedirects (redirectIndex table port) = none
        ↔ ¬ Redirected early table port := by
    rw [← redirects_iff, Option.not_isSome_iff_eq_none]
  have around {early middle : List ServerCall} {table port first : Text}
      : Redirected (early ++ .request ctableUrl first :: middle) table port
        ↔ Redirected (early ++ middle) table port := by
    rw [redirected_append, redirected_request, redirected_append]
  unfold Stale
  simp only [run_cache initial_sound, redirects_iff, free]
  constructor
  · intro ⟨table, cached, redirected⟩
    rcases cached with ⟨nothing, -⟩ | ⟨early, first, middle, split, isTable, cached, kept⟩
    · cases nothing
    · obtain ⟨parts, isUrl, rfl⟩ := isTable
      subst split
      exact ⟨early, first, middle, rfl, parts, isUrl, cached, around.mp redirected, kept⟩
  · intro ⟨early, first, middle, split, parts, isUrl, cached, redirected, kept⟩
    subst split
    exact ⟨parts.tableName, .inr ⟨early, first, middle, rfl, ⟨parts, isUrl, rfl⟩, cached, kept⟩,
      around.mpr redirected⟩

theorem UrlServer.fresh_iff_stale
    : initial.decisions calls = uncachedDecisions (fun _ => none) calls
      ↔ ∀ early ctableUrl myPort late,
        calls = early ++ .request ctableUrl myPort :: late →
          ¬ (initial.run early).Stale ctableUrl myPort :=
  decisions_fresh_iff initial_sound

theorem NeverStale.fresh (never : NeverStale calls)
    : UrlServer.initial.decisions calls = uncachedDecisions (fun _ => none) calls := by
  refine UrlServer.fresh_iff_stale.mpr ?_
  intro before ctableUrl second late split stale
  obtain ⟨early, first, middle, rfl, parts, isUrl, cached, redirected, kept⟩ :=
    UrlServer.stale_iff.mp stale
  exact kept (never early ctableUrl first middle second late parts (by simp [split]) isUrl cached
    redirected)

/-- The decisions are those of a server without a cache exactly if a redirect drops each URL that
was cached for a port without it.
-/
theorem urlCache_fresh_iff (calls : List ServerCall)
    : UrlServer.initial.decisions calls = uncachedDecisions (fun _ => none) calls
      ↔ NeverStale calls := by
  refine ⟨?_, NeverStale.fresh⟩
  intro fresh early ctableUrl first middle second late parts split isUrl cached redirected
  by_contra kept
  exact UrlServer.fresh_iff_stale.mp fresh (early ++ .request ctableUrl first :: middle) ctableUrl
    second late (by simp [split])
    (UrlServer.stale_iff.mpr
      ⟨early, first, middle, rfl, parts, isUrl, cached, redirected, kept⟩)

/-- `ctable://h/t` -/
def plainUrl : Text :=
  ['c', 't', 'a', 'b', 'l', 'e', ':', '/', '/', 'h', '/', 't']

/-- A URL that is cached on one port is not redirected on another one. -/
theorem urlCache_otherPort
    : ¬ ∀ calls, UrlServer.initial.decisions calls = uncachedDecisions (fun _ => none) calls := by
  intro fresh
  have same := fresh [.register ['t'] ['2'] ['u'] true, .request plainUrl ['1'],
    .request plainUrl ['2']]
  have differ : UrlServer.initial.decisions [.register ['t'] ['2'] ['u'] true,
        .request plainUrl ['1'], .request plainUrl ['2']]
      ≠ uncachedDecisions (fun _ => none) [.register ['t'] ['2'] ['u'] true,
        .request plainUrl ['1'], .request plainUrl ['2']] := by
    decide +kernel
  exact differ same

/-- A bracket in the name of a table is part of the pattern, which then misses the table's URLs. -/
example
    : stringMatch (uncachePattern ['t', '[', '1', ']'])
        (plainUrl ++ ['[', '1', ']']) = false := by
  decide +kernel

-----------------------------------------------------------------------------------------
-- Plain names
-----------------------------------------------------------------------------------------

theorem beforeOptions_begins (theRest : Text)
    : ((cutAtLast '?' theRest).getD (theRest, [])).1 <+: theRest := by
  cases cut : cutAtLast '?' theRest with
  | none => exact List.prefix_rfl
  | some parts => exact ⟨'?' :: parts.2, (Lib.cutAtLast_split cut).symm⟩

theorem behindDir_within (theRest : Text)
    : ('/' :: ((cutAtLast '/' theRest).getD ([], theRest)).2) <:+: '/' :: theRest := by
  cases cut : cutAtLast '/' theRest with
  | none => exact List.infix_rfl
  | some parts =>
      have behind : ('/' :: parts.2) <:+ theRest := ⟨parts.1, (Lib.cutAtLast_split cut).symm⟩
      exact (behind.trans (List.suffix_cons '/' theRest)).isInfix

/-- A URL has its table behind a slash. -/
theorem splitCtableUrl_within {parts : CtableUrl} (split : splitCtableUrl ctableUrl = .ok parts)
    : ('/' :: parts.tableName) <:+: ctableUrl := by
  unfold splitCtableUrl at split
  cases cut : (behindProtocol ctableUrl).bind (cutAt '/') with
  | none =>
      rw [cut] at split
      cases split
  | some cutParts =>
      obtain ⟨hostPort, theRest⟩ := cutParts
      rw [cut] at split
      cases split
      obtain ⟨rest, behind, slash⟩ := Option.bind_eq_some_iff.mp cut
      obtain ⟨proto, -, dropped⟩ := List.exists_of_findSome?_eq_some behind
      have inUrl : ('/' :: theRest) <:+: ctableUrl := by
        split at dropped
        · have isRest := Option.some.inj dropped
          rw [Lib.cutAt_split slash] at isRest
          exact (List.suffix_append hostPort _).isInfix.trans
            (isRest ▸ (List.drop_suffix _ _).isInfix)
        · cases dropped
      refine List.IsInfix.trans ?_ inUrl
      exact (behindDir_within _).trans
        ((List.prefix_cons_inj '/').mpr (beforeOptions_begins theRest)).isInfix

theorem redirectIndex_injective {table port other otherPort : Text}
    (same : redirectIndex table port = redirectIndex other otherPort) (plain : ':' ∉ port)
    (otherPlain : ':' ∉ otherPort)
    : table = other ∧ port = otherPort := by
  have cut : cutAtLast ':' (redirectIndex table port) = some (table, port) :=
    Lib.cutAtLast_append plain
  have otherCut : cutAtLast ':' (redirectIndex other otherPort) = some (other, otherPort) :=
    Lib.cutAtLast_append otherPlain
  rw [same, otherCut] at cut
  cases cut
  exact ⟨rfl, rfl⟩

/-- With plain names of tables and ports, and one port for each URL, the cache changes nothing. -/
theorem urlCache_fresh_plain
    (tables : ∀ table port target listening,
      ServerCall.register table port target listening ∈ calls →
        PlainPattern table ∧ ':' ∉ port)
    (ports : ∀ name port, ServerCall.request name port ∈ calls → ':' ∉ port)
    (onePort : ∀ name port other, ServerCall.request name port ∈ calls →
      ServerCall.request name other ∈ calls → port = other)
    : UrlServer.initial.decisions calls = uncachedDecisions (fun _ => none) calls := by
  refine NeverStale.fresh ?_
  intro early name first middle second late parts split isUrl cached redirected
  have firstCalled : ServerCall.request name first ∈ calls := by simp [split]
  have secondCalled : ServerCall.request name second ∈ calls := by simp [split]
  have same := onePort name first second firstCalled secondCalled
  subst same
  obtain ⟨table, port, target, registered, index⟩ := (redirected_append.mp redirected).resolve_left
    cached
  have called : ServerCall.register table port target true ∈ calls := by simp [split, registered]
  obtain ⟨plainTable, plainPort⟩ := tables table port target true called
  have isTable := (redirectIndex_injective index plainPort (ports name first firstCalled)).1
  refine ⟨table, port, target, registered, ?_⟩
  have plain : PlainPattern ('/' :: table) := by
    intro c member
    cases member with
    | head => decide
    | tail _ inTable => exact plainTable c inTable
  rw [uncachePattern, Lib.stringMatch_infix plain, isTable]
  exact splitCtableUrl_within isUrl

end SpeedTables.Remote
