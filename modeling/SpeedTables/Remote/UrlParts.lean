import SpeedTables.Remote.UrlCache

/-! URLs that are joined from parts, and the parts that they are split into again. -/

namespace SpeedTables.Remote

open Lib (Text cutAt cutAtLast)

-----------------------------------------------------------------------------------------
-- Joining
-----------------------------------------------------------------------------------------

def ctableDefaultProtocol : Text :=
  ['c', 't', 'a', 'b', 'l', 'e']

/-- A part with a mark before it, if there is one. -/
def optional (mark : Char) (part : Text) : Text :=
  if part = [] then [] else mark :: part

namespace CtableUrl

/-- The host and the port of a URL. -/
def hostPort (parts : CtableUrl) : Text :=
  parts.host ++ optional ':' parts.port

/-- The directory and the table of a URL, each behind a slash. -/
def path (parts : CtableUrl) : Text :=
  optional '/' parts.dir ++ '/' :: parts.tableName

end CtableUrl

/-- `join_ctable_url` -/
def joinCtableUrl (parts : CtableUrl) : Text :=
  ctableDefaultProtocol ++ [':', '/', '/'] ++ parts.hostPort ++ parts.path
    ++ optional '?' parts.options

-----------------------------------------------------------------------------------------
-- Splitting what is joined
-----------------------------------------------------------------------------------------

namespace CtableUrl

/-- The parts stand in a URL without being taken for others: there is no slash in the host, the port
and the table, the last colon is that of the port, and the last question mark that of the options.
-/
def Plain (parts : CtableUrl) : Prop :=
  ('/' ∉ parts.host ∧ '/' ∉ parts.port ∧ '/' ∉ parts.tableName)
    ∧ (if parts.port = [] then ':' ∉ parts.host else ':' ∉ parts.port)
    ∧ (if parts.options = [] then '?' ∉ parts.dir ∧ '?' ∉ parts.tableName
      else '?' ∉ parts.options)

/-- The port of a URL that has none is the default. -/
def withPort (parts : CtableUrl) : CtableUrl :=
  { parts with port := if parts.port = [] then ctableDefaultPort else parts.port }

variable {parts : CtableUrl}

/-- The path behind its first slash. -/
def pathRest (parts : CtableUrl) : Text :=
  if parts.dir = [] then parts.tableName else parts.dir ++ '/' :: parts.tableName

theorem path_eq (parts : CtableUrl) : parts.path = '/' :: parts.pathRest := by
  unfold path pathRest optional
  split <;> simp

/-- The host and the port are cut at their last colon as they were joined. -/
theorem hostPort_cut_iff (parts : CtableUrl)
    : (cutAtLast ':' parts.hostPort).getD (parts.hostPort, ctableDefaultPort)
        = (parts.host, parts.withPort.port)
      ↔ if parts.port = [] then ':' ∉ parts.host else ':' ∉ parts.port := by
  unfold hostPort optional withPort
  by_cases noPort : parts.port = []
  · simp only [if_pos noPort, List.append_nil]
    constructor
    · intro same
      cases cut : cutAtLast ':' parts.host with
      | none => exact Lib.absent_of_cutAtLast cut
      | some cutParts =>
          obtain ⟨before, behind⟩ := cutParts
          rw [cut, Option.getD_some, Prod.mk.injEq] at same
          have joined := Lib.cutAtLast_split cut
          rw [same.1] at joined
          simp at joined
    · intro absent
      rw [Lib.cutAtLast_none absent]
      rfl
  · simp only [if_neg noPort]
    constructor
    · intro same
      cases cut : cutAtLast ':' (parts.host ++ ':' :: parts.port) with
      | none => exact absurd (Lib.absent_of_cutAtLast cut) (by simp)
      | some cutParts =>
          rw [cut, Option.getD_some] at same
          rw [same] at cut
          exact Lib.cutAtLast_absent cut
    · intro absent
      rw [Lib.cutAtLast_append absent]
      rfl

/-- The directory and the table of a path are cut at their last slash. -/
def pathCut (text : Text) : Text × Text :=
  (cutAtLast '/' text).getD ([], text)

/-- The table that is cut from a path has no slash. -/
theorem pathCut_absent (text : Text) : '/' ∉ (pathCut text).2 := by
  unfold pathCut
  cases cut : cutAtLast '/' text with
  | none => exact Lib.absent_of_cutAtLast cut
  | some cutParts => exact Lib.cutAtLast_absent cut

theorem pathCut_rest (plain : '/' ∉ parts.tableName)
    : pathCut parts.pathRest = (parts.dir, parts.tableName) := by
  unfold pathCut pathRest
  split
  · next noDir =>
      rw [Lib.cutAtLast_none plain, noDir]
      rfl
  · rw [Lib.cutAtLast_append plain]
    rfl

/-- A path is not cut into the parts of a longer one. -/
theorem pathRest_ne {text : Text} {mark : Char}
    (cut : pathCut text = (parts.dir, parts.tableName))
    : parts.pathRest ≠ text ++ [mark] := by
  intro longer
  have length := congrArg List.length longer
  rw [List.length_append, List.length_singleton] at length
  unfold pathCut at cut
  unfold pathRest at length
  cases cutLast : cutAtLast '/' text with
  | none =>
      rw [cutLast, Option.getD_none, Prod.mk.injEq] at cut
      rw [if_pos cut.1.symm, cut.2] at length
      omega
  | some cutParts =>
      obtain ⟨before, behind⟩ := cutParts
      rw [cutLast, Option.getD_some, Prod.mk.injEq] at cut
      rw [Lib.cutAtLast_split cutLast, cut.1, cut.2] at length
      split at length <;> simp only [List.length_append, List.length_cons] at length <;> omega

/-- The options are cut from the path at the last question mark. -/
def optionsCut (text : Text) : Text × Text :=
  (cutAtLast '?' text).getD (text, [])

theorem absent_pathRest_iff (mark : Char) (apart : mark ≠ '/')
    : mark ∉ parts.pathRest ↔ mark ∉ parts.dir ∧ mark ∉ parts.tableName := by
  unfold pathRest
  split
  · next noDir => simp [noDir]
  · simp [apart]

/-- The path and the options are cut as they were joined. -/
theorem optionsCut_iff
    : (optionsCut (parts.pathRest ++ optional '?' parts.options)).2 = parts.options
        ∧ pathCut (optionsCut (parts.pathRest ++ optional '?' parts.options)).1
          = (parts.dir, parts.tableName)
      ↔ '/' ∉ parts.tableName
        ∧ (if parts.options = [] then '?' ∉ parts.dir ∧ '?' ∉ parts.tableName
          else '?' ∉ parts.options) := by
  have noSlash (text : Text) (cut : pathCut text = (parts.dir, parts.tableName))
      : '/' ∉ parts.tableName := by
    have absent := pathCut_absent text
    rwa [cut] at absent
  unfold optional
  by_cases noOptions : parts.options = []
  · rw [if_pos noOptions, if_pos noOptions, List.append_nil,
      ← absent_pathRest_iff '?' (by decide)]
    constructor
    · rintro ⟨options, path⟩
      refine ⟨noSlash _ path, ?_⟩
      unfold optionsCut at options path
      cases cut : cutAtLast '?' parts.pathRest with
      | none => exact Lib.absent_of_cutAtLast cut
      | some cutParts =>
          obtain ⟨before, behind⟩ := cutParts
          rw [cut, Option.getD_some] at options path
          dsimp only at options path
          have joined := Lib.cutAtLast_split cut
          rw [options, noOptions] at joined
          exact absurd joined (pathRest_ne path)
    · rintro ⟨plain, absent⟩
      rw [optionsCut, Lib.cutAtLast_none absent]
      exact ⟨noOptions.symm, pathCut_rest plain⟩
  · rw [if_neg noOptions, if_neg noOptions]
    constructor
    · rintro ⟨options, path⟩
      refine ⟨noSlash _ path, ?_⟩
      unfold optionsCut at options
      cases cut : cutAtLast '?' (parts.pathRest ++ '?' :: parts.options) with
      | none => exact absurd (Lib.absent_of_cutAtLast cut) (by simp)
      | some cutParts =>
          obtain ⟨before, behind⟩ := cutParts
          rw [cut, Option.getD_some] at options
          dsimp only at options
          have absent := Lib.cutAtLast_absent cut
          rwa [options] at absent
    · rintro ⟨plain, absent⟩
      rw [optionsCut, Lib.cutAtLast_append absent]
      exact ⟨rfl, pathCut_rest plain⟩

end CtableUrl

/-- A URL of the default protocol is cut behind it. -/
theorem behindProtocol_joined (rest : Text)
    : behindProtocol (ctableDefaultProtocol ++ [':', '/', '/'] ++ rest) = some rest := by
  simp [behindProtocol, ctableProtocols, ctableDefaultProtocol]

/-- A character of a part that is cut from the host and the port is theirs or the default's. -/
theorem hostPort_within {text host port : Text} {mark : Char} (absent : mark ∉ text)
    (cut : (cutAtLast ':' text).getD (text, ctableDefaultPort) = (host, port))
    : mark ∉ host ∧ (mark ∈ port → port = ctableDefaultPort) := by
  cases cutLast : cutAtLast ':' text with
  | none =>
      rw [cutLast, Option.getD_none, Prod.mk.injEq] at cut
      exact ⟨cut.1 ▸ absent, fun _ => cut.2.symm⟩
  | some cutParts =>
      rw [cutLast, Option.getD_some] at cut
      subst cut
      rw [Lib.cutAtLast_split cutLast] at absent
      simp only [List.mem_append, List.mem_cons, not_or] at absent
      exact ⟨absent.1, fun member => absurd member absent.2.2⟩

/-- A URL that is joined is split at its first slash. -/
theorem split_join (parts : CtableUrl) (host : '/' ∉ parts.hostPort)
    : splitCtableUrl (joinCtableUrl parts)
      = .ok {
        host := ((cutAtLast ':' parts.hostPort).getD (parts.hostPort, ctableDefaultPort)).1
        port := ((cutAtLast ':' parts.hostPort).getD (parts.hostPort, ctableDefaultPort)).2
        dir := (CtableUrl.pathCut (CtableUrl.optionsCut
          (parts.pathRest ++ optional '?' parts.options)).1).1
        tableName := (CtableUrl.pathCut (CtableUrl.optionsCut
          (parts.pathRest ++ optional '?' parts.options)).1).2
        options := (CtableUrl.optionsCut (parts.pathRest ++ optional '?' parts.options)).2 } := by
  rw [joinCtableUrl, List.append_assoc, List.append_assoc, splitCtableUrl, behindProtocol_joined,
    Option.bind_some, parts.path_eq, List.cons_append, Lib.cutAt_append host]
  rfl

theorem CtableUrl.hostPort_absent {parts : CtableUrl} (host : '/' ∉ parts.host)
    (port : '/' ∉ parts.port) : '/' ∉ parts.hostPort := by
  unfold CtableUrl.hostPort optional
  split <;> simp [host, port]

/-- Parts that are split from their URL have no slash in the host and the port. -/
theorem CtableUrl.slash_absent {parts : CtableUrl}
    (split : splitCtableUrl (joinCtableUrl parts) = .ok parts.withPort)
    : '/' ∉ parts.host ∧ '/' ∉ parts.port := by
  rw [joinCtableUrl, List.append_assoc, List.append_assoc, splitCtableUrl, behindProtocol_joined,
    Option.bind_some] at split
  cases cut : cutAt '/' (parts.hostPort ++ (parts.path ++ optional '?' parts.options)) with
  | none =>
      rw [cut] at split
      cases split
  | some cutParts =>
      obtain ⟨hostPort, theRest⟩ := cutParts
      rw [cut] at split
      have same := Except.ok.inj split
      have cutHost : (cutAtLast ':' hostPort).getD (hostPort, ctableDefaultPort)
          = (parts.host, parts.withPort.port) :=
        Prod.ext (congrArg CtableUrl.host same) (congrArg CtableUrl.port same)
      obtain ⟨noHost, fromDefault⟩ := hostPort_within (Lib.cutAt_absent cut) cutHost
      refine ⟨noHost, fun member => ?_⟩
      have given : parts.port ≠ [] := fun none' => by
        rw [none'] at member
        cases member
      have isPort : parts.withPort.port = parts.port := if_neg given
      have isDefault := fromDefault (by rw [isPort]; exact member)
      rw [isPort] at isDefault
      rw [isDefault] at member
      exact absurd member (by decide)

/-- Joined parts are split into themselves, with the default port for none, if and only if they are
plain.
-/
theorem split_join_iff (parts : CtableUrl)
    : splitCtableUrl (joinCtableUrl parts) = .ok parts.withPort ↔ parts.Plain := by
  constructor
  · intro split
    obtain ⟨host, port⟩ := CtableUrl.slash_absent split
    rw [split_join parts (CtableUrl.hostPort_absent host port)] at split
    have same := Except.ok.inj split
    have hostPort := parts.hostPort_cut_iff.mp
      (Prod.ext (congrArg CtableUrl.host same) (congrArg CtableUrl.port same))
    obtain ⟨table, options⟩ := CtableUrl.optionsCut_iff.mp ⟨congrArg CtableUrl.options same,
      Prod.ext (congrArg CtableUrl.dir same) (congrArg CtableUrl.tableName same)⟩
    exact ⟨⟨host, port, table⟩, hostPort, options⟩
  · rintro ⟨⟨host, port, table⟩, hostPort, options⟩
    have cut := parts.hostPort_cut_iff.mpr hostPort
    obtain ⟨isOptions, path⟩ := CtableUrl.optionsCut_iff.mpr ⟨table, options⟩
    rw [split_join parts (CtableUrl.hostPort_absent host port), cut, path, isOptions]
    rfl

/-- A table in a directory, on a port and with options. -/
example
    : splitCtableUrl (joinCtableUrl
        { host := ['h'], port := ['1'], dir := ['d'], tableName := ['t'], options := ['o'] })
      = .ok
        { host := ['h'], port := ['1'], dir := ['d'], tableName := ['t'], options := ['o'] } := by
  decide +kernel

end SpeedTables.Remote
