import IntentumdiffLsp.Callers
import IntentumdiffLsp.Stderr

/-!
The life of a client: the handshake, its use, `shutdown`, and what is released on each
way out of it. An action is a step of its owner, of one of its tasks, of the child, or
of the world around them.
-/

namespace IntentumdiffLsp.Lifecycle

open Foundations
open IntentumdiffLsp.Json
open IntentumdiffLsp.Client
open IntentumdiffLsp.Callers
open IntentumdiffLsp.Stderr

/-- What a client is connected with, and the calls that its user makes on it. -/
structure Launch where
  serde : SerdeJson
  debugStr : String → String
  timeout : String
  processId : UInt32
  rootUri : String
  spawned : Bool
  calls : List Call

def initializeParams (processId : UInt32) (rootUri : String) : Value :=
  .object [
    ("processId", .number (.posInt processId.toUInt64)),
    ("rootUri", .string rootUri),
    ("workspaceFolders", .array
      [.object [("uri", .string rootUri), ("name", .string "workspace")]]),
    ("capabilities", .object [
      ("textDocument", .object [
        ("hover", .object [
          ("contentFormat", .array [.string "plaintext", .string "markdown"])])]),
      ("workspace", .object [("workspaceFolders", .bool true)])]),
    ("clientInfo", .object [("name", .string "IntentumDiff"), ("version", .string "0.1")])]

def initializeCall : Nat := 0

def initializedCall : Nat := 1

def shutdownCall : Nat := 2

def exitCall : Nat := 3

def userCall (i : Nat) : Nat := i + 4

def Launch.session (l : Launch) : Session where
  serde := l.serde
  debugStr := l.debugStr
  timeout := l.timeout
  calls
    | 0 => .request "initialize" (initializeParams l.processId l.rootUri)
    | 1 => .notification "initialized" (.object [])
    | 2 => .request "shutdown" .null
    | 3 => .notification "exit" .null
    -- There is no call behind the last of the user.
    | i + 4 => (l.calls[i]?).getD (.notification "" .null)

/-- A task that is aborted may still finish what it does up to its next await. -/
inductive Task where
  | running
  | aborted
  | ended

def Task.abort : Task → Task
  | .running => .aborted
  | task => task

structure Child where
  exited : Bool
  killed : Bool

/-- There is nothing to signal behind the exit. -/
def Child.startKill (child : Child) : Child :=
  if child.exited then child else { child with killed := true }

/-- What `initialize` makes of the error of its request. -/
def explained (error : LspError) (hint : String) : LspError :=
  match error with
  | .timeout msg => .timeout s!"{msg}{hint}"
  | .connection msg => .connection s!"{msg} — the server may have crashed{hint}"
  | .server code message => .server code message

inductive Ending where
  | failed (error : LspError)
  | closed
  | dropped

/-- Where the owner of the client is: the handshake, its use, the two messages of
`shutdown`, the ladder behind them, and the end. -/
inductive Phase where
  | handshaking
  | announcing
  | connected
  | closing
  | exiting
  | waiting
  | killing
  | lastWait
  | closingWriter
  | gone (ending : Ending)

/-- The tasks have not been torn down. -/
def Phase.isUsing : Phase → Bool
  | .handshaking | .announcing | .connected | .closing | .exiting => true
  | _ => false

/-- `taken` tells that the client has no child, or has it no longer. -/
structure Lifetime where
  client : LspClient
  phase : Phase
  readerTask : Task
  stderrTask : Option Task
  ring : StderrRing
  process : Option Child
  taken : Bool

/-- The most that one read of the child's stderr returns. -/
def stderrChunk : Nat := 512

/-- The calls that may make a step now. -/
def mayAct (l : Launch) (phase : Phase) : Nat → Bool
  | 0 => (phase matches .handshaking)
  | 1 => (phase matches .announcing)
  | 2 => (phase matches .closing)
  | 3 => (phase matches .exiting)
  | i + 4 => (phase matches .connected) && i < l.calls.length

def isResting : Stage → Bool
  | .idle | .returned _ => true
  | _ => false

/-- No call borrows the client. -/
def usersRest (l : Launch) (client : LspClient) : Bool :=
  (List.range l.calls.length).all fun i => isResting (client.stage (userCall i))

/-- The reader task is at its end when it has cleared the map. -/
def Task.afterAction (task : Task) : Action → Task
  | .clear => .ended
  | _ => task

namespace Lifetime

def teardownTasks (s : Lifetime) : Lifetime :=
  { s with
    readerTask := s.readerTask.abort
    stderrTask := s.stderrTask.map Task.abort }

/-- The child is taken out of the client and killed. -/
def killProcess (s : Lifetime) : Lifetime :=
  { s with
    process := if s.taken then s.process else s.process.map Child.startKill
    taken := true }

/-- The destructor of the client. -/
def drop (s : Lifetime) (ending : Ending) : Lifetime :=
  { s.teardownTasks.killProcess with phase := .gone ending }

end Lifetime

inductive Turn where
  | client (a : Action)
  | handshaken
  | announced
  | shutdown
  | asked
  | exited
  | waited
  | waitFailed
  | waitTimeout
  | killed
  | writerShut
  | drop
  | readerDropped
  | stderr (chunk : List UInt8)
  | stderrEnded
  | stderrDropped
  | childExited

section Steps

variable (l : Launch) (s : Lifetime)

/-- Messages arrive at any time, the reader task works until it is gone, and a call makes
its steps when it is its turn. -/
def allowed (a : Action) : Bool :=
  match caller a, a, s.readerTask with
  | some c, _, _ => mayAct l s.phase c
  | none, .arrive _, _ => true
  | none, _, .ended => false
  | none, _, _ => true

def start : Lifetime where
  client := .new
  phase := .handshaking
  readerTask := .running
  stderrTask := if l.spawned then some .running else none
  ring := .empty
  process := if l.spawned then some { exited := false, killed := false } else none
  taken := false

def step : Turn → Option Lifetime
  | .client a =>
      if allowed l s a then
        (Client.step l.session s.client a).map fun client =>
          { s with client := client, readerTask := s.readerTask.afterAction a }
      else none
  -- `initialize`
  | .handshaken =>
      match s.phase, s.client.stage initializeCall with
      | .handshaking, .returned (.ok _) => some { s with phase := .announcing }
      | .handshaking, .returned (.error e) =>
          some (s.teardownTasks.killProcess.drop (.failed (explained e s.ring.hint)))
      | _, _ => none
  | .announced =>
      match s.phase, s.client.stage initializedCall with
      | .announcing, .returned (.ok _) => some { s with phase := .connected }
      | .announcing, .returned (.error e) => some (s.drop (.failed e))
      | _, _ => none
  -- `shutdown` takes the client by value, the results of its two messages are dropped
  | .shutdown =>
      match s.phase with
      | .connected => if usersRest l s.client then some { s with phase := .closing } else none
      | _ => none
  | .asked =>
      match s.phase, s.client.stage shutdownCall with
      | .closing, .returned _ => some { s with phase := .exiting }
      | _, _ => none
  | .exited =>
      match s.phase, s.client.stage exitCall with
      | .exiting, .returned _ =>
          let s' := s.teardownTasks.killProcess
          match s.process with
          | some _ => some { s' with phase := .waiting }
          | none => some { s' with phase := .closingWriter }
      | _, _ => none
  -- the ladder: `wait` for three seconds, `kill` and its own wait, one more second
  | .waited =>
      match s.phase, s.process with
      | .waiting, some child | .lastWait, some child =>
          if child.exited then some (s.drop .closed) else none
      | _, _ => none
  | .waitFailed =>
      match s.phase with
      | .waiting | .lastWait => some (s.drop .closed)
      | .killing => some { s with phase := .lastWait }
      | _ => none
  | .waitTimeout =>
      match s.phase with
      | .waiting => some { s with process := s.process.map Child.startKill, phase := .killing }
      | .lastWait => some (s.drop .closed)
      | _ => none
  | .killed =>
      match s.phase, s.process with
      | .killing, some child => if child.exited then some { s with phase := .lastWait } else none
      | _, _ => none
  | .writerShut =>
      match s.phase with
      | .closingWriter => some (s.drop .closed)
      | _ => none
  -- the client is dropped, or the future that owns it
  | .drop =>
      match s.phase with
      | .gone _ => none
      | _ => some (s.drop .dropped)
  -- the tasks and the child
  | .readerDropped =>
      match s.readerTask, s.client.reader with
      -- There is no await between the removal of a sender and its use.
      | .aborted, .resolving _ _ => none
      | .aborted, _ => some { s with readerTask := .ended }
      | _, _ => none
  | .stderr chunk =>
      match s.stderrTask with
      | some .running | some .aborted =>
          if chunk ≠ [] ∧ chunk.length ≤ stderrChunk then
            some { s with ring := s.ring.push chunk }
          else none
      | _ => none
  | .stderrEnded =>
      match s.stderrTask with
      | some .running | some .aborted => some { s with stderrTask := some .ended }
      | _ => none
  | .stderrDropped =>
      match s.stderrTask with
      | some .aborted => some { s with stderrTask := some .ended }
      | _ => none
  | .childExited =>
      match s.process with
      | some child =>
          if child.exited then none
          else some { s with process := some { child with exited := true } }
      | none => none

end Steps

def lifecycle (l : Launch) : ActionSystem Lifetime Turn where
  init := start l
  step := step l

section Fields

variable (s : Lifetime) (ending : Ending)

@[simp] theorem drop_phase : (s.drop ending).phase = .gone ending := rfl

end Fields

/-- The owner waits for the child or for the writer, and leaves when that is over. -/
def Phase.mayLeave : Phase → Bool
  | .waiting | .lastWait | .closingWriter => true
  | _ => false

/-- What a step can do, with its guards. -/
inductive Step (l : Launch) (s : Lifetime) : Turn → Lifetime → Prop
  | call {a c client'} (own : caller a = some c) (turn : mayAct l s.phase c = true)
      (client : Client.Step l.session s.client a client') :
      Step l s (.client a) { s with client := client' }
  | reader {a client'} (own : caller a = none)
      (client : Client.Step l.session s.client a client') :
      Step l s (.client a)
        { s with client := client', readerTask := s.readerTask.afterAction a }
  | handshaken {value} (phase : s.phase = .handshaking)
      (stage : s.client.stage initializeCall = .returned (.ok value)) :
      Step l s .handshaken { s with phase := .announcing }
  | refused {e} (phase : s.phase = .handshaking)
      (stage : s.client.stage initializeCall = .returned (.error e)) :
      Step l s .handshaken
        (s.teardownTasks.killProcess.drop (.failed (explained e s.ring.hint)))
  | announced {value} (phase : s.phase = .announcing)
      (stage : s.client.stage initializedCall = .returned (.ok value)) :
      Step l s .announced { s with phase := .connected }
  | unannounced {e} (phase : s.phase = .announcing)
      (stage : s.client.stage initializedCall = .returned (.error e)) :
      Step l s .announced (s.drop (.failed e))
  | shutdown (phase : s.phase = .connected) (rest : usersRest l s.client = true) :
      Step l s .shutdown { s with phase := .closing }
  | asked {outcome} (phase : s.phase = .closing)
      (stage : s.client.stage shutdownCall = .returned outcome) :
      Step l s .asked { s with phase := .exiting }
  | exited {outcome child} (phase : s.phase = .exiting)
      (stage : s.client.stage exitCall = .returned outcome) (process : s.process = some child) :
      Step l s .exited { s.teardownTasks.killProcess with phase := .waiting }
  | exitedAlone {outcome} (phase : s.phase = .exiting)
      (stage : s.client.stage exitCall = .returned outcome) (process : s.process = none) :
      Step l s .exited { s.teardownTasks.killProcess with phase := .closingWriter }
  | left {turn} (phase : s.phase.mayLeave = true) : Step l s turn (s.drop .closed)
  | waitTimeout (phase : s.phase = .waiting) :
      Step l s .waitTimeout
        { s with process := s.process.map Child.startKill, phase := .killing }
  | killed {turn} (phase : s.phase = .killing) : Step l s turn { s with phase := .lastWait }
  | drop (phase : ∀ ending, s.phase ≠ .gone ending) : Step l s .drop (s.drop .dropped)
  | readerDropped (task : s.readerTask = .aborted) :
      Step l s .readerDropped { s with readerTask := .ended }
  | stderr {chunk} : Step l s (.stderr chunk) { s with ring := s.ring.push chunk }
  | stderrEnded {turn} : Step l s turn { s with stderrTask := some .ended }
  | childExited {child} (process : s.process = some child) :
      Step l s .childExited { s with process := some { child with exited := true } }

theorem step_cases {l : Launch} {s s' : Lifetime} {turn : Turn} (h : step l s turn = some s') :
    Step l s turn s' := by
  cases turn <;> simp only [step] at h
  case client a =>
    split at h
    · rename_i hallowed
      obtain ⟨client, hclient, rfl⟩ := Option.map_eq_some_iff.mp h
      have hclient := Client.step_iff.mp hclient
      cases hcaller : caller a with
      | none => exact .reader hcaller hclient
      | some c =>
          have hturn : mayAct l s.phase c = true := by
            simpa only [allowed, hcaller] using hallowed
          have hafter : s.readerTask.afterAction a = s.readerTask := by
            cases a <;> first | rfl | cases hcaller
          rw [hafter]
          exact .call hcaller hturn hclient
    · cases h
  case handshaken =>
    split at h <;> cases h
    · exact .handshaken ‹_› ‹_›
    · exact .refused ‹_› ‹_›
  case announced =>
    split at h <;> cases h
    · exact .announced ‹_› ‹_›
    · exact .unannounced ‹_› ‹_›
  case shutdown =>
    split at h
    · split at h <;> cases h
      exact .shutdown ‹_› ‹_›
    · cases h
  case asked =>
    split at h <;> cases h
    exact .asked ‹_› ‹_›
  case exited =>
    split at h
    · split at h <;> cases h
      · exact .exited ‹_› ‹_› ‹_›
      · exact .exitedAlone ‹_› ‹_› ‹_›
    · cases h
  case waited =>
    split at h
    all_goals (try split at h) <;> cases h
    all_goals exact .left (by simp only [*, Phase.mayLeave])
  case waitFailed =>
    split at h <;> cases h
    · exact .left (by simp only [*, Phase.mayLeave])
    · exact .left (by simp only [*, Phase.mayLeave])
    · exact .killed ‹_›
  case waitTimeout =>
    split at h <;> cases h
    · exact .waitTimeout ‹_›
    · exact .left (by simp only [*, Phase.mayLeave])
  case killed =>
    split at h
    · split at h <;> cases h
      exact .killed ‹_›
    · cases h
  case writerShut =>
    split at h <;> cases h
    exact .left (by simp only [*, Phase.mayLeave])
  case drop =>
    split at h <;> cases h
    exact .drop ‹_›
  case readerDropped =>
    split at h <;> cases h
    exact .readerDropped ‹_›
  case stderr chunk =>
    split at h
    all_goals (try split at h) <;> cases h
    all_goals exact .stderr
  case stderrEnded =>
    split at h <;> cases h
    all_goals exact .stderrEnded
  case stderrDropped =>
    split at h <;> cases h
    exact .stderrEnded
  case childExited =>
    split at h
    · split at h <;> cases h
      exact .childExited ‹_›
    · cases h

section Sample

/-- A server of its own process, and no call of the user. -/
def quietLaunch : Launch where
  serde := RoundTrip.nullJson
  debugStr s := "\"" ++ s ++ "\""
  timeout := "10s"
  processId := 7
  rootUri := "file:///ws"
  spawned := true
  calls := []

def initializeAnswer : Value :=
  .object [("id", .ofI64 1), ("result", .null)]

def greetingTurns : List Turn :=
  [.client (.takeId 0), .client (.register 0), .client (.lock 0)]

def answeredTurns : List Turn :=
  [.client (.flushed 0), .client (.arrive initializeAnswer), .client .dispatch,
    .client .resolve, .client (.receive 0), .handshaken, .client (.notify 1),
    .client (.lock 1)]

def announcedTurns : List Turn :=
  [.client (.flushed 1), .announced]

def handshakeTurns : List Turn :=
  greetingTurns ++ .client (.accept 0 25) :: (answeredTurns ++
    .client (.accept 1 25) :: announcedTurns)

def connectedLifetime : Lifetime :=
  ((lifecycle quietLaunch).play (start quietLaunch) handshakeTurns).getD (start quietLaunch)

theorem connectedLifetime_play :
    (lifecycle quietLaunch).play (start quietLaunch) handshakeTurns = some connectedLifetime :=
  rfl

end Sample

end IntentumdiffLsp.Lifecycle
