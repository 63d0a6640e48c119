import IntentumdiffLsp.Precedence
import IntentumdiffLsp.Validation

/-!
From the file of a user to the launch of a server.
-/

namespace IntentumdiffLsp.Autostart

open Foundations
open Foundations.Fallible
open IntentumdiffLsp.Json
open IntentumdiffLsp.Specs
open IntentumdiffLsp.Validation
open IntentumdiffLsp.Precedence

/-- The file has been read as an object, and this member of it is the first with the
language. -/
def Supplies (process : Process) (file : ConfigFile) (language : String)
    (member : String × Value) : Prop :=
  ∃ raw document members, file.readToString = .ok raw ∧ process.readDocument raw = .ok document ∧
    asObject document.toValue = some members ∧ IsFirst process members language member

def launch (process : Process) (language : String) (entry : ServerEntry) (host : String) :
    Except String LaunchPlan := do
  let spec ← entry.toSpec
  resolveLaunch process language (some spec) host

/-- Every placeholder in the part is the process id in the text, and none is left. -/
def Substituted (process : Process) (part text : String) : Prop :=
  (∃ first rest, part.toList = Replace.join pidPlaceholder first rest ∧
    (∀ piece ∈ first :: rest, ¬pidPlaceholder <:+: piece) ∧
    text.toList = Replace.join (Text.decimal process.pid) first rest) ∧
    ¬pidPlaceholder <:+: text.toList

def OptedIn (data : Value) : Prop :=
  data.get "transport" = some (.string "tcp") ∧
    (∃ items, items ≠ [] ∧ data.get "command" = some (.array items)) ∧
    data.get "allow_unverified_tcp_autostart" = some (.bool true)

/-- What becomes of the entry that a JSON object supplies, on any host. -/
structure FailsClosed (process : Process) (language : String) (data : Value)
    (entry : ServerEntry) (host : String) : Prop where
  autostart : ∀ command h timeout,
    launch process language entry host = .ok (.tcpAutostart command h timeout) → OptedIn data
  refused : data.get "transport" = some (.string "tcp") →
    (∃ items, items ≠ [] ∧ data.get "command" = some (.array items)) →
    data.get "allow_unverified_tcp_autostart" ≠ some (.bool true) →
    ∃ error, launch process language entry host = .error error
  manual : data.get "transport" = some (.string "tcp") →
    (data.get "command" = none ∨ data.get "command" = some (.array [])) →
    (∃ error, entry.toSpec = .error error) ∧
      ∃ error, launch process language entry host = .error error
  stdio : entry.transport = .stdio → ∃ command,
    launch process language entry host = .ok (.stdio command) ∧ command ≠ [] ∧
      command.length = entry.command.length ∧
      List.Forall₂ (Substituted process) entry.command command

section Entries

variable {process : Process} {language host : String} {data : Value} {entry : ServerEntry}

theorem substituted (process : Process) (part : String) :
    Substituted process part (substitutePid process part) := by
  have hplaceholder : pidPlaceholder ≠ [] := by decide
  have hletters : ∀ c ∈ pidPlaceholder, (!c.isDigit) = true := List.all_eq_true.mp (by decide)
  have hdigits : ∀ c ∈ Text.decimal process.pid, c ∉ pidPlaceholder := by
    intro c hc hmem
    have hletter := hletters c hmem
    rw [Text.mem_decimal hc] at hletter
    cases hletter
  have htext : (substitutePid process part).toList =
      Replace.replace pidPlaceholder (Text.decimal process.pid) part.toList := String.toList_ofList
  obtain ⟨first, rest, hjoin, hpieces, hreplace⟩ := Replace.replace_join hplaceholder part.toList
  rw [Substituted, htext]
  exact ⟨⟨first, rest, hjoin, hpieces, hreplace _⟩,
    Replace.not_infix_replace hplaceholder Nat.toDigits_ne_nil hdigits _⟩

theorem tolerated_eq_some {field : String → Option Value} {key : String} {v : Value}
    (h : tolerated field key = some v) : field key = some v := by
  unfold tolerated at h
  split at h
  · exact Option.eq_some_of_filter_eq_some h
  · split at h
    · exact Option.eq_some_of_filter_eq_some h
    · exact h

theorem launch_manual (process : Process) (language host : String) (h : entry.command = []) :
    (∃ error, entry.toSpec = .error error) ∧
      ∃ error, launch process language entry host = .error error := by
  rcases hspec : entry.toSpec with error | spec
  · have hlaunch : launch process language entry host = .error error := by
      rw [launch, hspec]
      rfl
    exact ⟨⟨error, rfl⟩, error, hlaunch⟩
  · simp [ServerEntry.toSpec, h] at hspec

theorem launch_tcp (process : Process) (language host : String) (hcommand : entry.command ≠ [])
    (htransport : entry.transport = .tcp) :
    (entry.allowUnverifiedTcpAutostart = true ∧ launch process language entry host =
        .ok (.tcpAutostart entry.command host entry.startupTimeout)) ∨
      entry.allowUnverifiedTcpAutostart = false ∧
        ∃ error, launch process language entry host = .error error := by
  rw [launch, ServerEntry.toSpec, if_neg (by simp [hcommand])]
  simp only [bind, Except.bind, resolveLaunch, Option.some_or, htransport]
  rcases entry.allowUnverifiedTcpAutostart with _ | _
  · exact .inr ⟨rfl, _, rfl⟩
  · exact .inl ⟨rfl, rfl⟩

theorem launch_stdio (hcommand : entry.command ≠ []) (htransport : entry.transport = .stdio) :
    launch process language entry host =
      .ok (.stdio (entry.command.map (substitutePid process))) := by
  rw [launch, ServerEntry.toSpec, if_neg (by simp [hcommand])]
  simp only [bind, Except.bind, resolveLaunch, Option.some_or, htransport]

theorem failsClosed {name : String}
    (hparse : ServerEntry.parse process.debugStr name data = .ok entry) :
    FailsClosed process language data entry host := by
  obtain ⟨-, hcarries, hvalid⟩ := parse_eq_ok.mp hparse
  have hcommandField : tolerated data.get "command" = data.get "command" :=
    tolerated_of_ne (by decide) (by decide) (by decide)
  have htcp : data.get "transport" = some (.string "tcp") → entry.transport = .tcp := by
    intro hfield
    refine hcarries.transport_tcp.mp ?_
    change (data.get "transport").filter _ = _
    rw [hfield]
    rfl
  have hallow : entry.allowUnverifiedTcpAutostart = true →
      data.get "allow_unverified_tcp_autostart" = some (.bool true) := by
    intro htrue
    rcases hcarries.allowUnverifiedTcpAutostart with ⟨-, hdefault⟩ | hfield
    · cases htrue.symm.trans hdefault
    · rw [htrue] at hfield
      exact tolerated_eq_some hfield
  constructor
  · intro command h timeout hlaunch
    rcases eq_or_ne entry.command [] with hnil | hcommand
    · obtain ⟨-, error, herror⟩ := launch_manual process language host hnil
      cases herror.symm.trans hlaunch
    · rcases htransport : entry.transport with _ | _
      · rcases launch_tcp process language host hcommand htransport with
          ⟨htrue, -⟩ | ⟨-, error, herror⟩
        · refine ⟨tolerated_eq_some (hcarries.transport_tcp.mpr htransport), ?_, hallow htrue⟩
          rcases hcarries.command with ⟨-, hdefault⟩ | hfield
          · exact absurd hdefault hcommand
          · exact ⟨_, by simpa using hcommand, tolerated_eq_some hfield⟩
        · cases herror.symm.trans hlaunch
      · cases (launch_stdio hcommand htransport).symm.trans hlaunch
  · rintro hfield ⟨items, hne, hitems⟩ hnot
    have hcommand : entry.command ≠ [] := by
      rw [← hcommandField] at hitems
      intro hnil
      rcases hcarries.command_nil.mpr hnil with hnone | hempty
      · cases hnone.symm.trans hitems
      · cases hempty.symm.trans hitems
        exact hne rfl
    rcases launch_tcp process language host hcommand (htcp hfield) with ⟨htrue, -⟩ | ⟨-, herror⟩
    · exact absurd (hallow htrue) hnot
    · exact herror
  · intro hfield hempty
    rw [← hcommandField] at hempty
    exact launch_manual process language host (hcarries.command_nil.mp hempty)
  · intro hstdio
    have hcommand := hvalid.stdioCommand hstdio
    refine ⟨_, launch_stdio hcommand hstdio, by simpa using hcommand, List.length_map _, ?_⟩
    rw [List.forall₂_map_right_iff]
    exact List.forall₂_same.mpr fun part _ => substituted process part

end Entries

/-- The entries of a file fail closed, each by the object that supplies it, and the
built-in ones are never started on a port. -/
def FailsClosedThroughout (process : Process) (file : ConfigFile) (servers : ServerMap) : Prop :=
  (∀ language entry, servers language = some entry → ∃ name data,
    Supplies process file language (name, data) ∧
      ServerEntry.parse process.debugStr name data = .ok entry ∧
      ∀ host, FailsClosed process language data entry host) ∧
    ∀ language host command h timeout,
      resolveLaunch process language none host ≠ .ok (.tcpAutostart command h timeout)

theorem knownSpec_stdio {language : String} {spec : ServerSpec}
    (h : knownSpec language = some spec) : spec.transport = .stdio := by
  have htable : ∀ known ∈ knownServerSpecs, known.2.transport = .stdio := by decide
  obtain ⟨known, hfind, rfl⟩ := Option.map_eq_some_iff.mp h
  exact htable known (List.mem_of_find?_eq_some hfind)

theorem load_fails_closed (process : Process) (file : ConfigFile) (servers : ServerMap)
    (hload : loadLspServersJson process file = .ok servers) :
    FailsClosedThroughout process file servers := by
  constructor
  · intro language entry hentry
    unfold loadLspServersJson at hload
    split at hload
    · cases hload
      cases hentry
    split at hload
    · cases hload
    rename_i raw hraw
    split at hload
    · cases hload
    rename_i document hdocument
    split at hload
    · cases hload
    rename_i members hmembers
    obtain ⟨-, hservers⟩ := insertEntries_eq_ok.mp hload
    rw [hservers] at hentry
    obtain ⟨⟨name, data⟩, hfirst, hparse⟩ := lookup_eq_some.mp (Option.none_or.symm.trans hentry)
    exact ⟨name, data, ⟨raw, document, members, hraw, hdocument, hmembers, hfirst⟩, hparse,
      fun host => failsClosed hparse⟩
  · intro language host command h timeout hlaunch
    unfold resolveLaunch at hlaunch
    rw [Option.none_or] at hlaunch
    split at hlaunch
    · cases hlaunch
    · rename_i spec hspec
      rw [knownSpec_stdio hspec] at hlaunch
      cases hlaunch

/-- A file with one entry, which opts in. -/
def legacy : List (String × Value) :=
  [("legacy", .object [("allow_unverified_tcp_autostart", .bool true),
    ("command", .array [.string "legacy-server"]), ("language", .string "go"),
    ("transport", .string "tcp")])]

def legacyText : String :=
  "\x7b\"legacy\": \x7b\"language\": \"go\", \"transport\": \"tcp\", " ++
    "\"command\": [\"legacy-server\"], \"allow_unverified_tcp_autostart\": true\x7d\x7d"

def legacyProcess : Process :=
  { debugStr := id
    pid := 1
    readDocument := fun raw =>
      if raw = legacyText then .ok (.object legacy) else .error "expected value" }

def legacyFile : ConfigFile :=
  { display := "lsp_servers.json", present := true, readToString := .ok legacyText }

theorem legacy_fails_closed : ∃ servers, loadLspServersJson legacyProcess legacyFile = .ok servers ∧
    (servers "go").isSome = true ∧ FailsClosedThroughout legacyProcess legacyFile servers := by
  have hgo : ((loadLspServersJson legacyProcess legacyFile).toOption.map fun servers =>
      (servers "go").isSome) = some true := by decide +kernel
  rcases hload : loadLspServersJson legacyProcess legacyFile with error | servers
  · rw [hload] at hgo
    cases hgo
  · rw [hload] at hgo
    exact ⟨servers, rfl, Option.some.inj hgo, load_fails_closed _ _ servers hload⟩

end IntentumdiffLsp.Autostart
