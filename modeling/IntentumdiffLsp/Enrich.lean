import IntentumdiffLsp.Callers
import IntentumdiffLsp.Foundations.Semaphore

/-!
Batch hovers over one client: the document is opened, its targets are hovered
concurrently under a cap, and the document is closed.
-/

namespace IntentumdiffLsp.Enrich

open Foundations
open IntentumdiffLsp.Json
open IntentumdiffLsp.Client
open IntentumdiffLsp.Callers

/-- Max concurrent hover requests per file. -/
def maxConcurrentHovers : Nat := 50

structure HoverTarget where
  id : String
  line : UInt32
  col : UInt32

/-- The arguments of `enrich_targets` beside the client. -/
structure Batch where
  uri : String
  languageId : String
  text : String
  targets : List HoverTarget

def didOpen (uri languageId text : String) : Call :=
  .notification "textDocument/didOpen" (.object [("textDocument", .object
    [("uri", .string uri), ("languageId", .string languageId),
      ("version", .number (.posInt 1)), ("text", .string text)])])

def didClose (uri : String) : Call :=
  .notification "textDocument/didClose"
    (.object [("textDocument", .object [("uri", .string uri)])])

def hoverParams (uri : String) (line col : UInt32) : Value :=
  .object [("textDocument", .object [("uri", .string uri)]),
    ("position", .object [("line", .number (.posInt line.toUInt64)),
      ("character", .number (.posInt col.toUInt64))])]

def hover (uri : String) (line col : UInt32) : Call :=
  .request "textDocument/hover" (hoverParams uri line col)

/-- Trimmed text, unless nothing is left of it. -/
def someTrimmed (s : String) : Option String :=
  let t := String.ofList (Text.trim s.toList)
  if t = "" then none else some t

def valueText (contents : Value) : String :=
  ((contents.get "value").bind Value.asStr).getD ""

def itemText (serde : SerdeJson) : Value → String
  | .object fields => valueText (.object fields)
  | .string s => s
  | other => serde.toString other

/-- Hover `contents` as plain text. -/
def extractHoverText (serde : SerdeJson) (result : Value) : Option String :=
  match result with
  | .null => none
  | _ =>
      match result.get "contents" with
      | some (.string s) => someTrimmed s
      | some (.object fields) => someTrimmed (valueText (.object fields))
      | some (.array items) =>
          let texts := (items.map (itemText serde)).filter fun t => t ≠ ""
          someTrimmed ("\n".intercalate texts)
      | _ => none

/-- What `hover` makes of the result of its request. -/
def hoverResult (serde : SerdeJson) (outcome : Outcome) : Except LspError (Option String) :=
  outcome.map (extractHoverText serde)

/-- What the future of a target gives. -/
def hit (serde : SerdeJson) (target : HoverTarget) (outcome : Outcome) :
    Option (String × String) :=
  match hoverResult serde outcome with
  | .ok (some typeStr) => some (target.id, typeStr)
  -- no info, timeout, server error
  | .ok none | .error _ => none

def openCall : Nat := 0

def closeCall : Nat := 1

def hoverCall (i : Nat) : Nat := i + 2

/-- The calls of a batch, and those that other tasks make on the same client. -/
def withBatch (base : Session) (b : Batch) : Session :=
  { base with
    calls := fun
      | 0 => didOpen b.uri b.languageId b.text
      | 1 => didClose b.uri
      | i + 2 =>
          match b.targets[i]? with
          | some target => hover b.uri target.line target.col
          | none => base.calls (i + 2) }

/-- `futures_join_all` in the middle of its work: the future that is polled next,
if the task is awake, and what the futures have given. -/
structure JoinAll (τ : Type) where
  results : List (Option τ)
  done : Nat
  cursor : Option Nat

namespace JoinAll

variable {τ : Type}

def start (total : Nat) : JoinAll τ where
  results := List.replicate total none
  done := 0
  cursor := some 0

/-- The future under the cursor, if it has no result. -/
def polled (join : JoinAll τ) : Option Nat :=
  join.cursor.bind fun idx =>
    match join.results[idx]? with
    | some none => some idx
    | _ => none

def next (join : JoinAll τ) (idx : Nat) : JoinAll τ :=
  { join with cursor := some (idx + 1) }

def store (join : JoinAll τ) (idx : Nat) (value : τ) : JoinAll τ :=
  { results := join.results.set idx (some value)
    done := join.done + 1
    cursor := some (idx + 1) }

def park (join : JoinAll τ) : JoinAll τ :=
  { join with cursor := none }

def wake (join : JoinAll τ) : JoinAll τ :=
  { join with cursor := some 0 }

/-- The results, unless one is missing. -/
def unwrap (join : JoinAll τ) : Option (List τ) :=
  join.results.mapM id

end JoinAll

/-- The hits are inserted in the order of the targets. -/
def collect (results : List (Option (String × String))) : String → Option String :=
  (results.filterMap id).foldl (fun map hit => Function.update map hit.1 (some hit.2)) fun _ => none

/-- Where `enrich_targets` stands. -/
inductive Phase where
  | opening
  | querying (sem : Semaphore Nat maxConcurrentHovers) (join : JoinAll (Option (String × String)))
  | panicked
  | closing (map : String → Option String)
  | finished (map : String → Option String)

structure Enriching where
  client : LspClient
  phase : Phase

/-- A hover makes its steps while its future is polled and holds a permit. -/
def hoverPolled (phase : Phase) (i : Nat) : Bool :=
  match phase with
  | .querying sem join => join.polled == some i && sem.holders.contains i
  | _ => false

/-- The calls of the batch that may make a step now; other tasks may always. -/
def mayAct (b : Batch) (phase : Phase) : Nat → Bool
  | 0 => (phase matches .opening)
  | 1 => (phase matches .closing _)
  | i + 2 => if i < b.targets.length then hoverPolled phase i else true

inductive Turn where
  | client (a : Action)
  | opened
  | acquire
  | ready
  | pending
  | park
  | joined
  | wake
  | closed

def start : Enriching where
  client := .new
  phase := .opening

def step (base : Session) (b : Batch) (s : Enriching) : Turn → Option Enriching
  | .client a =>
      if (caller a).all (mayAct b s.phase) then
        (Client.step (withBatch base b) s.client a).map fun client => { s with client }
      else none
  -- `did_open` has returned
  | .opened =>
      match s.phase, s.client.stage openCall with
      | .opening, .returned (.error _) => some { s with phase := .finished fun _ => none }
      | .opening, .returned (.ok _) =>
          if b.targets.isEmpty then some { s with phase := .closing fun _ => none }
          else some { s with phase := .querying .free (.start b.targets.length) }
      | _, _ => none
  -- the future under the cursor: a permit, the hover, its result
  | .acquire =>
      match s.phase with
      | .querying sem join =>
          join.polled.bind fun idx =>
            (sem.acquire idx).map fun sem => { s with phase := .querying sem join }
      | _ => none
  | .ready =>
      match s.phase with
      | .querying sem join =>
          join.polled.bind fun idx =>
            match b.targets[idx]?, s.client.stage (hoverCall idx) with
            | some target, .returned outcome =>
                some { s with
                  phase := .querying (sem.release idx)
                    (join.store idx (hit base.serde target outcome)) }
            | _, _ => none
      | _ => none
  -- it is pending, or it has its result already
  | .pending =>
      match s.phase with
      | .querying sem join =>
          join.cursor.bind fun idx =>
            if idx < join.results.length ∧
                ¬(join.polled = some idx ∧ hasReturned (s.client.stage (hoverCall idx)) = true) then
              some { s with phase := .querying sem (join.next idx) }
            else none
      | _ => none
  -- the end of the loop
  | .park =>
      match s.phase with
      | .querying sem join =>
          if join.cursor = some join.results.length ∧ join.done ≠ join.results.length then
            some { s with phase := .querying sem join.park }
          else none
      | _ => none
  | .joined =>
      match s.phase with
      | .querying _ join =>
          if join.cursor = some join.results.length ∧ join.done = join.results.length then
            match join.unwrap with
            | some results => some { s with phase := .closing (collect results) }
            | none => some { s with phase := .panicked }
          else none
      | _ => none
  | .wake =>
      match s.phase with
      | .querying sem join =>
          match join.cursor with
          | none => some { s with phase := .querying sem join.wake }
          | some _ => none
      | _ => none
  -- `did_close` has returned, its result is dropped
  | .closed =>
      match s.phase, s.client.stage closeCall with
      | .closing map, .returned _ => some { s with phase := .finished map }
      | _, _ => none

def enrich (base : Session) (b : Batch) : ActionSystem Enriching Turn where
  init := start
  step := step base b

/-- What a turn can do, with its guards. -/
inductive Step (base : Session) (b : Batch) (s : Enriching) : Turn → Enriching → Prop
  | client {a client} (allowed : ∀ c, caller a = some c → mayAct b s.phase c = true)
      (step : Client.Step (withBatch base b) s.client a client) :
      Step base b s (.client a) ⟨client, s.phase⟩
  | refused {error} (phase : s.phase = .opening)
      (stage : s.client.stage openCall = .returned (.error error)) :
      Step base b s .opened ⟨s.client, .finished fun _ => none⟩
  | openedEmpty {value} (phase : s.phase = .opening)
      (stage : s.client.stage openCall = .returned (.ok value)) (targets : b.targets = []) :
      Step base b s .opened ⟨s.client, .closing fun _ => none⟩
  | opened {value} (phase : s.phase = .opening)
      (stage : s.client.stage openCall = .returned (.ok value)) (targets : b.targets ≠ []) :
      Step base b s .opened ⟨s.client, .querying .free (.start b.targets.length)⟩
  | acquire {sem sem' join idx} (phase : s.phase = .querying sem join)
      (polled : join.polled = some idx) (acquired : sem.acquire idx = some sem') :
      Step base b s .acquire ⟨s.client, .querying sem' join⟩
  | ready {sem join idx target outcome} (phase : s.phase = .querying sem join)
      (polled : join.polled = some idx) (found : b.targets[idx]? = some target)
      (stage : s.client.stage (hoverCall idx) = .returned outcome) :
      Step base b s .ready
        ⟨s.client, .querying (sem.release idx) (join.store idx (hit base.serde target outcome))⟩
  | pending {sem join idx} (phase : s.phase = .querying sem join)
      (cursor : join.cursor = some idx) (inside : idx < join.results.length)
      (waits : ¬(join.polled = some idx ∧ hasReturned (s.client.stage (hoverCall idx)) = true)) :
      Step base b s .pending ⟨s.client, .querying sem (join.next idx)⟩
  | park {sem join} (phase : s.phase = .querying sem join)
      (cursor : join.cursor = some join.results.length) (short : join.done ≠ join.results.length) :
      Step base b s .park ⟨s.client, .querying sem join.park⟩
  | joined {sem join results} (phase : s.phase = .querying sem join)
      (cursor : join.cursor = some join.results.length)
      (complete : join.done = join.results.length) (unwrapped : join.unwrap = some results) :
      Step base b s .joined ⟨s.client, .closing (collect results)⟩
  | panicked {sem join} (phase : s.phase = .querying sem join)
      (cursor : join.cursor = some join.results.length)
      (complete : join.done = join.results.length) (unwrapped : join.unwrap = none) :
      Step base b s .joined ⟨s.client, .panicked⟩
  | wake {sem join} (phase : s.phase = .querying sem join) (cursor : join.cursor = none) :
      Step base b s .wake ⟨s.client, .querying sem join.wake⟩
  | closed {map outcome} (phase : s.phase = .closing map)
      (stage : s.client.stage closeCall = .returned outcome) :
      Step base b s .closed ⟨s.client, .finished map⟩

theorem step_iff {base : Session} {b : Batch} {s s' : Enriching} {turn : Turn} :
    step base b s turn = some s' ↔ Step base b s turn s' := by
  constructor
  · intro h
    cases turn <;> simp only [step] at h
    case client a =>
      split at h
      · rename_i hallowed
        obtain ⟨client, hclient, rfl⟩ := Option.map_eq_some_iff.mp h
        refine .client (fun c hc => ?_) (Client.step_iff.mp hclient)
        rwa [hc] at hallowed
      · cases h
    case opened =>
      split at h
      · cases h
        exact .refused ‹_› ‹_›
      · split at h
        · cases h
          exact .openedEmpty ‹_› ‹_› (List.isEmpty_iff.mp ‹_›)
        · cases h
          exact .opened ‹_› ‹_› fun hnil => absurd (List.isEmpty_iff.mpr hnil) ‹_›
      · cases h
    case acquire =>
      split at h
      · obtain ⟨idx, hpolled, h⟩ := Option.bind_eq_some_iff.mp h
        obtain ⟨sem', hacquired, rfl⟩ := Option.map_eq_some_iff.mp h
        exact .acquire ‹_› hpolled hacquired
      · cases h
    case ready =>
      split at h
      · obtain ⟨idx, hpolled, h⟩ := Option.bind_eq_some_iff.mp h
        split at h
        · cases h
          exact .ready ‹_› hpolled ‹_› ‹_›
        · cases h
      · cases h
    case pending =>
      split at h
      · obtain ⟨idx, hcursor, h⟩ := Option.bind_eq_some_iff.mp h
        split at h
        · rename_i hwaits
          cases h
          exact .pending ‹_› hcursor hwaits.1 hwaits.2
        · cases h
      · cases h
    case park =>
      split at h
      · split at h
        · rename_i hend
          cases h
          exact .park ‹_› hend.1 hend.2
        · cases h
      · cases h
    case joined =>
      split at h
      · split at h
        · rename_i hend
          split at h
          · cases h
            exact .joined ‹_› hend.1 hend.2 ‹_›
          · cases h
            exact .panicked ‹_› hend.1 hend.2 ‹_›
        · cases h
      · cases h
    case wake =>
      split at h
      · split at h
        · cases h
          exact .wake ‹_› ‹_›
        · cases h
      · cases h
    case closed =>
      split at h
      · cases h
        exact .closed ‹_› ‹_›
      · cases h
  · intro h
    cases h with
    | @client a client allowed hclient =>
        have hallowed : (caller a).all (mayAct b s.phase) = true := by
          cases hc : caller a with
          | none => rfl
          | some c => exact allowed c hc
        rw [step, if_pos hallowed, Client.step_iff.mpr hclient]
        rfl
    | pending phase cursor inside waits =>
        simp only [step, phase, cursor, Option.bind_some]
        rw [if_pos ⟨inside, waits⟩]
    | park phase cursor short =>
        simp only [step, phase]
        rw [if_pos ⟨cursor, short⟩]
    | joined phase cursor complete unwrapped | panicked phase cursor complete unwrapped =>
        simp only [step, phase]
        rw [if_pos ⟨cursor, complete⟩, unwrapped]
    | _ => simp_all [step]

end IntentumdiffLsp.Enrich
