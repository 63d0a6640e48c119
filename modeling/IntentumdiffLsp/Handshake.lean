import IntentumdiffLsp.Connection
import IntentumdiffLsp.Progress
import IntentumdiffLsp.Release
import IntentumdiffLsp.Tracking

/-!
What a server is told: the handshake before anything else, and every message in the
order that the protocol gives to it.
-/

namespace IntentumdiffLsp.Handshake

open Foundations.ActionSystem
open Function
open IntentumdiffLsp.Json
open IntentumdiffLsp.Codec
open IntentumdiffLsp.Client
open IntentumdiffLsp.Client.LspClient
open IntentumdiffLsp.Correlation
open IntentumdiffLsp.Delivery
open IntentumdiffLsp.Wire
open IntentumdiffLsp.Callers
open IntentumdiffLsp.RoundTrip
open IntentumdiffLsp.Reading
open IntentumdiffLsp.Lifecycle
open IntentumdiffLsp.Progress
open IntentumdiffLsp.Tracking

def firstMessage (l : Launch) : Value :=
  request "initialize" (initializeParams l.processId l.rootUri) 1

def secondMessage : Value :=
  notification "initialized" (.object [])

def firstFrame (l : Launch) : List UInt8 :=
  encodeMessage l.serde (firstMessage l)

def secondFrame (l : Launch) : List UInt8 :=
  encodeMessage l.serde secondMessage

/-- Only `initialize` has been begun. -/
structure Greeting (l : Launch) (t : LspClient) : Prop where
  idle : ∀ c, c ≠ initializeCall → t.stage c = .idle
  next : t.stage initializeCall = .idle → t.nextId = 1
  id : t.stage initializeCall ≠ .idle → t.ids initializeCall = 1
  wire : t.wire = (firstFrame l).take (t.accepted initializeCall)

/-- `initialize` has succeeded, and only `initialized` has been begun since. -/
structure Announcing (l : Launch) (t : LspClient) : Prop where
  idle : ∀ c, c ≠ initializeCall → c ≠ initializedCall → t.stage c = .idle
  answered : ∃ value, t.stage initializeCall = .returned (.ok value)
  id : t.ids initializeCall = 1
  wire : t.wire = firstFrame l ++ (secondFrame l).take (t.accepted initializedCall)

/-- The handshake is over. -/
structure Introduced (l : Launch) (t : LspClient) : Prop where
  answered : ∃ value, t.stage initializeCall = .returned (.ok value)
  announced : ∃ value, t.stage initializedCall = .returned (.ok value)
  id : t.ids initializeCall = 1
  wire : firstFrame l ++ secondFrame l <+: t.wire

section Forms

variable {l : Launch} {t t' : LspClient} {a : Client.Action}

theorem greeting_new (l : Launch) : Greeting l .new where
  idle _ _ := rfl
  next _ := rfl
  id h := absurd rfl h
  wire := rfl

theorem frame_first (hid : t.ids initializeCall = 1) :
    t.frame l.session initializeCall = firstFrame l := by
  have hmessage : t.message l.session initializeCall =
      request "initialize" (initializeParams l.processId l.rootUri) (t.ids initializeCall) := rfl
  rw [LspClient.frame, hmessage, hid]
  rfl

/-- What the transport has of a frame, with the next bytes of it. -/
theorem take_transmit (sess : Session) (t : LspClient) (c n : Nat) :
    (t.frame sess c).take ((t.transmit sess c n).accepted c) =
      (t.frame sess c).take (t.accepted c) ++ ((t.frame sess c).drop (t.accepted c)).take n := by
  rw [transmit_accepted, update_self, List.take_add]

/-- The first request of a client takes the id 1. -/
theorem Greeting.id_step (hg : Greeting l t) (h : Client.Step l.session t a t')
    (hturn : ∀ c, caller a = some c → c = initializeCall) :
    (t'.stage initializeCall = .idle → t'.nextId = 1) ∧
      (t'.stage initializeCall ≠ .idle → t'.ids initializeCall = 1) := by
  by_cases hstart : startOf a = some initializeCall
  · obtain ⟨hidle, hbegun⟩ := startOf_moves h hstart
    refine ⟨fun hidle' => absurd hidle' hbegun, fun _ => ?_⟩
    cases h with
    | takeId =>
        obtain rfl := Option.some.inj hstart
        rw [setStage_ids, fetchId_ids, update_self]
        exact hg.next hidle
    | notify call =>
        obtain rfl := Option.some.inj hstart
        cases call
    | _ => cases hstart
  · have hsame := idle_of_other h hstart
    constructor
    · intro hidle'
      have htake : ∀ c, a ≠ .takeId c := by
        rintro c rfl
        obtain rfl := hturn c rfl
        exact hstart rfl
      rw [nextId_of_step h htake]
      exact hg.next (hsame.mp hidle')
    · intro hbegun'
      have hbegun : t.stage initializeCall ≠ .idle := fun hidle => hbegun' (hsame.mpr hidle)
      rw [h.ids_eq hbegun]
      exact hg.id hbegun

theorem Greeting.step (hg : Greeting l t) (h : Client.Step l.session t a t')
    (hturn : ∀ c, caller a = some c → c = initializeCall) : Greeting l t' := by
  obtain ⟨hnext, hid⟩ := hg.id_step h hturn
  refine ⟨?_, hnext, hid, ?_⟩
  · intro c hc
    rw [stage_of_other h fun hcaller => hc (hturn c hcaller)]
    exact hg.idle c hc
  · by_cases ha : ∃ c n, a = .accept c n
    · obtain ⟨c, n, rfl⟩ := ha
      obtain rfl := hturn c rfl
      cases h with
      | accept stage =>
          have hid := hg.id (by rw [stage]; exact Stage.noConfusion)
          have htake := take_transmit l.session t initializeCall n
          rw [frame_first hid] at htake
          rw [htake, transmit_wire, hg.wire, frame_first hid]
    · obtain ⟨haccepted, hwire⟩ := written_of_step h fun c n heq => ha ⟨c, n, heq⟩
      rw [hwire, haccepted]
      exact hg.wire

theorem Announcing.step (hn : Announcing l t) (h : Client.Step l.session t a t')
    (hturn : ∀ c, caller a = some c → c = initializedCall) : Announcing l t' := by
  obtain ⟨value, hvalue⟩ := hn.answered
  refine ⟨?_, ⟨value, returned_kept h hvalue⟩, ?_, ?_⟩
  · intro c hc hc'
    rw [stage_of_other h fun hcaller => hc' (hturn c hcaller)]
    exact hn.idle c hc hc'
  · rw [h.ids_eq (by rw [hvalue]; exact Stage.noConfusion)]
    exact hn.id
  · by_cases ha : ∃ c n, a = .accept c n
    · obtain ⟨c, n, rfl⟩ := ha
      obtain rfl := hturn c rfl
      cases h with
      | accept =>
          have htake := take_transmit l.session t initializedCall n
          have hframe : t.frame l.session initializedCall = secondFrame l := rfl
          rw [hframe] at htake
          rw [htake, transmit_wire, hn.wire, hframe, List.append_assoc]
    · obtain ⟨haccepted, hwire⟩ := written_of_step h fun c n heq => ha ⟨c, n, heq⟩
      rw [hwire, haccepted]
      exact hn.wire

theorem Introduced.step (hi : Introduced l t) (h : Client.Step l.session t a t') :
    Introduced l t' := by
  obtain ⟨value, hvalue⟩ := hi.answered
  obtain ⟨value', hvalue'⟩ := hi.announced
  refine ⟨⟨value, returned_kept h hvalue⟩, ⟨value', returned_kept h hvalue'⟩, ?_, ?_⟩
  · rw [h.ids_eq (by rw [hvalue]; exact Stage.noConfusion)]
    exact hi.id
  · exact hi.wire.trans (wire_step h)

theorem Greeting.announcing (hg : Greeting l t) (hreachable : (client l.session).Reachable t)
    {value : Value} (hvalue : t.stage initializeCall = .returned (.ok value)) :
    Announcing l t := by
  have hid := hg.id (by rw [hvalue]; exact Stage.noConfusion)
  have hwhole := whole_of_reachable hreachable initializeCall (by rw [hvalue]; rfl)
  have hidle := hg.idle initializedCall (by decide)
  have hunwritten : t.accepted initializedCall = 0 :=
    (exclusive_of_reachable hreachable).unwritten _ (by rw [hidle]; rfl)
  refine ⟨fun c hc _ => hg.idle c hc, ⟨value, hvalue⟩, hid, ?_⟩
  rw [frame_first hid] at hwhole
  rw [hg.wire, hwhole, List.take_length, hunwritten, List.take_zero, List.append_nil]

theorem Announcing.introduced (hn : Announcing l t)
    (hreachable : (client l.session).Reachable t) {value : Value}
    (hvalue : t.stage initializedCall = .returned (.ok value)) : Introduced l t := by
  have hwhole := whole_of_reachable hreachable initializedCall (by rw [hvalue]; rfl)
  have hframe : t.frame l.session initializedCall = secondFrame l := rfl
  have hwire : t.wire = firstFrame l ++ secondFrame l := by
    rw [hframe] at hwhole
    rw [hn.wire, hwhole, List.take_length]
  exact ⟨hn.answered, ⟨value, hvalue⟩, hn.id, ⟨[], by rw [List.append_nil, hwire]⟩⟩

end Forms

/-- The turns with which `connect` fails: with the error of the request and the hint of
that moment, or with the error of the notification as it is. -/
inductive Fails (s : Lifetime) (error : LspError) : Turn → Prop
  | refused {e} (phase : s.phase = .handshaking)
      (stage : s.client.stage initializeCall = .returned (.error e))
      (explains : error = explained e s.ring.hint) : Fails s error .handshaken
  | unannounced (phase : s.phase = .announcing)
      (stage : s.client.stage initializedCall = .returned (.error error)) :
      Fails s error .announced

/-- `connect` has returned the client. -/
def hasConnected : Phase → Bool
  | .handshaking | .announcing | .gone (.failed _) | .gone .dropped => false
  | _ => true

/-- What has been said by the time of a phase. -/
structure Said (l : Launch) (s : Lifetime) : Prop where
  handshaking : s.phase = .handshaking → Greeting l s.client
  announcing : s.phase = .announcing → Announcing l s.client
  connected : hasConnected s.phase = true → Introduced l s.client
  failed : ∀ error, s.phase = .gone (.failed error) →
    Greeting l s.client ∨ Announcing l s.client
  dropped : s.phase = .gone .dropped →
    Greeting l s.client ∨ Announcing l s.client ∨ Introduced l s.client

section Saying

variable {l : Launch} {s s' : Lifetime} {turn : Turn}

theorem Said.any (hs : Said l s) :
    Greeting l s.client ∨ Announcing l s.client ∨ Introduced l s.client := by
  cases hphase : s.phase with
  | handshaking => exact .inl (hs.handshaking hphase)
  | announcing => exact .inr (.inl (hs.announcing hphase))
  | gone ending =>
      cases ending with
      | failed error => exact (hs.failed error hphase).imp_right .inl
      | dropped => exact hs.dropped hphase
      | closed => exact .inr (.inr (hs.connected (by rw [hphase]; rfl)))
  | _ => exact .inr (.inr (hs.connected (by rw [hphase]; rfl)))

/-- Behind the end no call has its turn. -/
theorem barred_of_gone {ending : Ending} {a : Client.Action} (hphase : s.phase = .gone ending)
    (hturn : ∀ c, caller a = some c → mayAct l s.phase c = true) (c' : Nat) :
    ∀ c, caller a = some c → c = c' := by
  intro c hc
  have husing := Release.using_of_mayAct (hturn c hc)
  rw [hphase] at husing
  cases husing

theorem Said.step_client (hs : Said l s) {a : Client.Action} {t : LspClient}
    (h : Client.Step l.session s.client a t)
    (hturn : ∀ c, caller a = some c → mayAct l s.phase c = true) (task : Task) :
    Said l { s with client := t, readerTask := task } where
  handshaking hphase := (hs.handshaking hphase).step h fun c hc =>
    (mayAct_iff (by rw [hphase]; rfl)).mp (hturn c hc)
  announcing hphase := (hs.announcing hphase).step h fun c hc =>
    (mayAct_iff (by rw [hphase]; rfl)).mp (hturn c hc)
  connected hphase := (hs.connected hphase).step h
  failed error hphase := by
    have hbarred := barred_of_gone hphase hturn
    exact (hs.failed error hphase).imp (·.step h (hbarred _)) (·.step h (hbarred _))
  dropped hphase := by
    have hbarred := barred_of_gone hphase hturn
    exact (hs.dropped hphase).imp (·.step h (hbarred _))
      (Or.imp (·.step h (hbarred _)) (·.step h))

theorem Said.of_connected (hi : Introduced l s.client) (hphase : hasConnected s.phase = true) :
    Said l s := by
  refine ⟨?_, ?_, fun _ => hi, ?_, ?_⟩
  · intro h
    rw [h] at hphase
    cases hphase
  · intro h
    rw [h] at hphase
    cases hphase
  · intro error h
    rw [h] at hphase
    cases hphase
  · intro h
    rw [h] at hphase
    cases hphase

theorem Said.of_failed {error : LspError} (hsaid : Greeting l s.client ∨ Announcing l s.client)
    (hphase : s.phase = .gone (.failed error)) : Said l s := by
  refine ⟨?_, ?_, ?_, fun _ _ => hsaid, ?_⟩ <;> rw [hphase] <;> exact nofun

theorem Said.step (hs : Said l s) (hreachable : (client l.session).Reachable s.client)
    (h : Lifecycle.Step l s turn s') : Said l s' := by
  cases h with
  | call own turn client =>
      refine hs.step_client client ?_ s.readerTask
      intro c hc
      obtain rfl := Option.some.inj (own.symm.trans hc)
      exact turn
  | @reader a client' own client =>
      refine hs.step_client client ?_ (s.readerTask.afterAction a)
      intro c hc
      cases own.symm.trans hc
  | handshaken phase stage =>
      have hn := (hs.handshaking phase).announcing hreachable stage
      exact ⟨nofun, fun _ => hn, nofun, nofun, nofun⟩
  | refused phase =>
      have hg := hs.handshaking phase
      exact .of_failed (.inl hg) rfl
  | announced phase stage =>
      exact .of_connected ((hs.announcing phase).introduced hreachable stage) rfl
  | unannounced phase =>
      have hn := hs.announcing phase
      exact .of_failed (.inr hn) rfl
  | shutdown phase | asked phase | exited phase | exitedAlone phase | waitTimeout phase
  | killed phase =>
      exact .of_connected (hs.connected (by rw [phase]; rfl)) rfl
  | left phase =>
      have hconnected : hasConnected s.phase = true := by
        cases hphase : s.phase <;> rw [hphase] at phase <;> first | rfl | cases phase
      exact .of_connected (hs.connected hconnected) rfl
  | drop => exact ⟨nofun, nofun, nofun, nofun, fun _ => hs.any⟩
  | readerDropped | stderr | stderrEnded | childExited =>
      exact ⟨hs.handshaking, hs.announcing, hs.connected, hs.failed, hs.dropped⟩

theorem said_of_reachable (h : (lifecycle l).Reachable s) : Said l s := by
  have hall : (client l.session).Reachable s.client ∧ Said l s := by
    refine h.invariant (P := fun s => (client l.session).Reachable s.client ∧ Said l s)
      ⟨⟨[], .start⟩, fun _ => greeting_new l, nofun, nofun, nofun, nofun⟩ ?_
    rintro u turn u' ⟨hreachable, hs⟩ hstep
    exact ⟨client_step hreachable (step_cases hstep), hs.step hreachable (step_cases hstep)⟩
  exact hall.2

/-- A `connect` that has failed had failed before, or fails with this turn. -/
theorem fails_of_step (h : Lifecycle.Step l s turn s') {error : LspError}
    (hphase : s'.phase = .gone (.failed error)) :
    s.phase = .gone (.failed error) ∨ Fails s error turn := by
  cases h with
  | refused phase stage =>
      cases hphase
      exact .inr (.refused phase stage rfl)
  | unannounced phase stage =>
      cases hphase
      exact .inr (.unannounced phase stage)
  | call | reader | readerDropped | stderr | stderrEnded | childExited => exact .inl hphase
  | _ => cases hphase

theorem fails_of_run {turns : List Turn} (hrun : (lifecycle l).Run Anything (start l) turns s)
    {error : LspError} (hphase : s.phase = .gone (.failed error)) :
    ∃ front turn back u, turns = front ++ turn :: back ∧
      (lifecycle l).Run Anything (start l) front u ∧ Fails u error turn := by
  refine hrun.trace_invariant (P := fun turns s => s.phase = .gone (.failed error) →
    ∃ front turn back u, turns = front ++ turn :: back ∧
      (lifecycle l).Run Anything (start l) front u ∧ Fails u error turn) nofun ?_ hphase
  intro done u turn u' hrun ih _ hstep hphase
  rcases fails_of_step (step_cases hstep) hphase with hbefore | hfails
  · obtain ⟨front, failing, back, v, rfl, hfront, hfails⟩ := ih hbefore
    exact ⟨front, failing, back ++ [turn], v, by simp, hfront, hfails⟩
  · exact ⟨done, turn, [], u, rfl, hrun, hfails⟩

theorem answered_first (hreachable : (client l.session).Reachable s.client)
    (hid : s.client.ids initializeCall = 1)
    (hanswered : ∃ value, s.client.stage initializeCall = .returned (.ok value)) :
    ∃ msg ∈ Connection.dispatched s.client, messageId msg = some 1 ∧ msg.get "error" = none := by
  obtain ⟨value, hvalue⟩ := hanswered
  have hrequest : IsRequest l.session initializeCall := ⟨_, _, rfl⟩
  have hanswer := (reachable_sound hreachable).1.returned _ _ hvalue trivial hrequest
  obtain ⟨msg, hmem, hmessage, houtcome⟩ := Connection.mem_dispatched hanswer
  rw [hid] at hmessage
  refine ⟨msg, hmem, hmessage, ?_⟩
  unfold messageOutcome at houtcome
  split at houtcome
  · cases houtcome
  · assumption

end Saying

/-- A server is told the handshake before anything else: `initialize` under the id 1, and
nothing behind it before a message without an error under that id has been routed; then
`initialized`, and no other call begins before its frame is complete. A `connect` that
fails has written no more than that, and at the turn of the run with which it failed its
error was that of the request with the hint of the moment, or that of the notification as
it is. -/
theorem handshake_first (l : Launch) (turns : List Turn) (s : Lifetime)
    (hrun : (lifecycle l).Run Anything (start l) turns s) :
    (s.client.wire <+: firstFrame l ++ secondFrame l ∨
      firstFrame l ++ secondFrame l <+: s.client.wire) ∧
    ((firstFrame l).length < s.client.wire.length →
      ∃ msg ∈ Connection.dispatched s.client,
        messageId msg = some 1 ∧ msg.get "error" = none) ∧
    (∀ c, c ≠ initializeCall → c ≠ initializedCall → s.client.stage c ≠ .idle →
      firstFrame l ++ secondFrame l <+: s.client.wire) ∧
    ∀ error, s.phase = .gone (.failed error) →
      s.client.wire <+: firstFrame l ++ secondFrame l ∧
        ∃ front turn back u, turns = front ++ turn :: back ∧
          (lifecycle l).Run Anything (start l) front u ∧ Fails u error turn := by
  have hs := said_of_reachable ⟨turns, hrun⟩
  have hreachable := client_reachable ⟨turns, hrun⟩
  have hgreeting : Greeting l s.client → s.client.wire <+: firstFrame l := by
    intro hg
    rw [hg.wire]
    exact List.take_prefix _ _
  have hannouncing : Announcing l s.client →
      s.client.wire <+: firstFrame l ++ secondFrame l := by
    intro hn
    rw [hn.wire]
    exact (List.prefix_append_right_inj _).mpr (List.take_prefix _ _)
  have hshort : firstFrame l <+: firstFrame l ++ secondFrame l := List.prefix_append _ _
  refine ⟨?_, ?_, ?_, ?_⟩
  · rcases hs.any with hg | hn | hi
    · exact .inl ((hgreeting hg).trans hshort)
    · exact .inl (hannouncing hn)
    · exact .inr hi.wire
  · intro hlonger
    rcases hs.any with hg | hn | hi
    · exact absurd (hgreeting hg).length_le (Nat.not_le.mpr hlonger)
    · exact answered_first hreachable hn.id hn.answered
    · exact answered_first hreachable hi.id hi.answered
  · intro c hc hc' hbegun
    rcases hs.any with hg | hn | hi
    · exact absurd (hg.idle c hc) hbegun
    · exact absurd (hn.idle c hc hc') hbegun
    · exact hi.wire
  · intro error hphase
    refine ⟨?_, fails_of_run hrun hphase⟩
    rcases hs.failed error hphase with hg | hn
    · exact (hgreeting hg).trans hshort
    · exact hannouncing hn

theorem handshake_first_connected : ∃ msg ∈ Connection.dispatched connectedLifetime.client,
    messageId msg = some 1 ∧ msg.get "error" = none :=
  (handshake_first quietLaunch handshakeTurns connectedLifetime
    (run_of_play connectedLifetime_play)).2.1 (by decide)

/-- The place of a call in the life of a client. -/
def callOrder : Nat → Nat
  | 0 => 0
  | 1 => 1
  | 2 => 3
  | 3 => 4
  | _ + 4 => 2

def phaseOrder : Phase → Nat
  | .handshaking => 0
  | .announcing => 1
  | .connected => 2
  | .closing => 3
  | .exiting => 4
  | _ => 5

/-- As `Intact`, for the calls of a client over its life. -/
def IntactTurn (l : Launch) (s : Lifetime) (turn : Turn) : Prop :=
  ∀ a, turn = .client a → Intact l.session s.client a

/-- The calls whose frames are complete stand in their order. -/
structure Ordered (l : Launch) (s : Lifetime) (complete : List Nat) : Prop where
  framed : Framed l.session s.client complete
  sorted : complete.Pairwise fun c c' => callOrder c ≤ callOrder c'
  sofar : ∀ c ∈ complete, callOrder c ≤ phaseOrder s.phase

section Order

variable {l : Launch} {s s' : Lifetime} {turn : Turn} {c : Nat}

theorem callOrder_of_mayAct {phase : Phase} (h : mayAct l phase c = true) :
    callOrder c = phaseOrder phase := by
  rcases c with _ | _ | _ | _ | i <;> cases phase <;> first | rfl | cases h

theorem phaseOrder_le (h : Lifecycle.Step l s turn s') :
    phaseOrder s.phase ≤ phaseOrder s'.phase := by
  have hfive : ∀ phase, phaseOrder phase ≤ 5 := by
    intro phase
    cases phase <;> simp [phaseOrder]
  cases h with
  | handshaken phase | announced phase | shutdown phase | asked phase =>
      simp [phaseOrder, phase]
  | call | reader | readerDropped | stderr | stderrEnded | childExited => exact Nat.le_refl _
  | _ => exact hfive _

theorem Ordered.step_client {complete : List Nat} (ho : Ordered l s complete)
    (hx : Exclusive l.session s.client) {a : Client.Action} {t : LspClient}
    (h : Client.Step l.session s.client a t)
    (hturn : ∀ c, caller a = some c → mayAct l s.phase c = true)
    (hintact : Intact l.session s.client a) (task : Task) :
    ∃ complete', Ordered l { s with client := t, readerTask := task } complete' := by
  by_cases ha : ∃ c n, a = .accept c n
  · obtain ⟨c, n, rfl⟩ := ha
    have hplace := callOrder_of_mayAct (hturn c rfl)
    cases h with
    | accept stage pos fits =>
        have hwhole := hintact c n rfl
        rcases Nat.eq_or_lt_of_le fits with hfull | hshort
        · refine ⟨_, ho.framed.transmit_full hx hwhole stage pos hfull, ?_, ?_⟩
          · refine List.pairwise_append.mpr ⟨ho.sorted, List.pairwise_singleton _ _, ?_⟩
            intro c₁ hc₁ c₂ hc₂
            obtain rfl := List.mem_singleton.mp hc₂
            rw [hplace]
            exact ho.sofar c₁ hc₁
          · intro c' hc'
            rcases List.mem_append.mp hc' with hold | hnew
            · exact ho.sofar c' hold
            · obtain rfl := List.mem_singleton.mp hnew
              exact hplace.le
        · exact ⟨_, ho.framed.transmit_short hx hwhole stage pos hshort, ho.sorted, ho.sofar⟩
  · have hframed := ho.framed.step_other hx h fun c n heq => ha ⟨c, n, heq⟩
    exact ⟨complete, hframed, ho.sorted, ho.sofar⟩

theorem Ordered.step {complete : List Nat} (ho : Ordered l s complete)
    (hx : Exclusive l.session s.client) (h : Lifecycle.Step l s turn s')
    (hintact : IntactTurn l s turn) : ∃ complete', Ordered l s' complete' := by
  have hmono := phaseOrder_le h
  have hsame : s'.client = s.client → Ordered l s' complete := by
    intro hclient
    refine ⟨?_, ho.sorted, fun c hc => (ho.sofar c hc).trans hmono⟩
    rw [hclient]
    exact ho.framed
  cases h with
  | call own turn client =>
      refine ho.step_client hx client ?_ (hintact _ rfl) s.readerTask
      intro c hc
      obtain rfl := Option.some.inj (own.symm.trans hc)
      exact turn
  | @reader a client' own client =>
      refine ho.step_client hx client ?_ (hintact _ rfl) (s.readerTask.afterAction a)
      intro c hc
      cases own.symm.trans hc
  | _ => exact ⟨complete, hsame rfl⟩

theorem ordered_start (l : Launch) : ∃ complete, Ordered l (start l) complete := by
  have hnew : Exclusive l.session .new ∧ ∃ complete, Framed l.session .new complete :=
    framed_of_run .start
  obtain ⟨-, complete, hframed⟩ := hnew
  have hnone : complete = [] := by
    refine List.eq_nil_iff_forall_not_mem.mpr fun c hc => ?_
    have hpos := frame_pos l.session .new c
    exact hpos.ne ((hframed.mem c).mp hc)
  subst hnone
  exact ⟨[], hframed, .nil, nofun⟩

theorem ordered_of_run {turns : List Turn}
    (hrun : (lifecycle l).Run (IntactTurn l) (start l) turns s) :
    Exclusive l.session s.client ∧ ∃ complete, Ordered l s complete := by
  refine hrun.invariant
    (P := fun s => Exclusive l.session s.client ∧ ∃ complete, Ordered l s complete)
    ⟨exclusive_new, ordered_start l⟩ ?_
  rintro u turn u' ⟨hx, complete, ho⟩ hintact hstep
  have hstep := step_cases hstep
  refine ⟨?_, ho.step hx hstep hintact⟩
  rcases client_of_step hstep with hsame | ⟨a, hclient⟩
  · rw [hsame]
    exact hx
  · exact hx.step hclient

end Order

/-- As long as no byte follows a torn frame, the wire holds the complete frames in the order
of the protocol, whatever the calls of the user do: `initialize`, `initialized`, the user's
messages, `shutdown`, `exit`, and then at most a piece of one more. This is what a decoder
at the other end makes of it. -/
theorem messages_ordered (l : Launch) (turns : List Turn) (s : Lifetime)
    (hrun : (lifecycle l).Run (IntactTurn l) (start l) turns s) :
    ∃ (complete : List Nat) (part : List UInt8), complete.Nodup ∧
      (complete.Pairwise fun c c' => callOrder c ≤ callOrder c') ∧
      (∀ c, c ∈ complete ↔ s.client.accepted c = (s.client.frame l.session c).length) ∧
      s.client.wire = complete.flatMap (s.client.frame l.session) ++ part ∧
      (part = [] ∨ ∃ c, c ∉ complete ∧ part <+: s.client.frame l.session c) ∧
      ((∀ c, 0 < s.client.accepted c →
          Deliverable l.serde (s.client.message l.session c)) →
        framesOf l.serde 64 s.client.wire = complete.map (s.client.message l.session)) := by
  obtain ⟨-, complete, hframed, hsorted, -⟩ := ordered_of_run hrun
  obtain ⟨part, hwire, hpart⟩ := hframed.wire_eq
  exact ⟨complete, part, hframed.nodup, hsorted, hframed.mem, hwire, hpart,
    Connection.framesOf_wire hframed⟩

section Sample

/-- The client that is about to write `initialize`. -/
def greetingLifetime : Lifetime :=
  ((lifecycle quietLaunch).play (start quietLaunch) greetingTurns).getD (start quietLaunch)

/-- The client that is about to write `initialized`. -/
def announcingLifetime : Lifetime :=
  ((lifecycle quietLaunch).play greetingLifetime
    (.client (.accept 0 25) :: answeredTurns)).getD greetingLifetime

theorem intactTurn_of_ne {l : Launch} {turn : Turn} (h : ∀ c n, turn ≠ .client (.accept c n))
    (s : Lifetime) : IntactTurn l s turn := by
  rintro a rfl c n rfl
  exact absurd rfl (h c n)

theorem greetingLifetime_intact (turn : Turn) :
    IntactTurn quietLaunch greetingLifetime turn := by
  intro a _ c n _ c' htorn
  exact absurd htorn.1.1 (Nat.lt_irrefl 0)

theorem announcingLifetime_intact (turn : Turn) :
    IntactTurn quietLaunch announcingLifetime turn := by
  intro a _ c n _ c' htorn
  rcases c' with _ | c'
  · have hwhole : announcingLifetime.client.accepted 0 =
        (announcingLifetime.client.frame quietLaunch.session 0).length := rfl
    exact hwhole.not_lt htorn.1.2
  · exact absurd htorn.1.1 (Nat.lt_irrefl 0)

theorem handshakeTurns_run : (lifecycle quietLaunch).Run (IntactTurn quietLaunch)
    (start quietLaunch) handshakeTurns connectedLifetime := by
  have hgreeting : (lifecycle quietLaunch).Run (IntactTurn quietLaunch) (start quietLaunch)
      greetingTurns greetingLifetime := by
    apply (run_of_play rfl).meeting
    simp [greetingTurns, intactTurn_of_ne]
  have hfirst : ∃ s, (lifecycle quietLaunch).step greetingLifetime (.client (.accept 0 25)) =
      some s ∧ (lifecycle quietLaunch).play s answeredTurns = some announcingLifetime :=
    ⟨_, rfl, rfl⟩
  have hsecond : ∃ s, (lifecycle quietLaunch).step announcingLifetime (.client (.accept 1 25)) =
      some s ∧ (lifecycle quietLaunch).play s announcedTurns = some connectedLifetime :=
    ⟨_, rfl, rfl⟩
  obtain ⟨s, haccept, hanswered⟩ := hfirst
  obtain ⟨t, haccept', hannounced⟩ := hsecond
  have hmiddle : (lifecycle quietLaunch).Run (IntactTurn quietLaunch) s answeredTurns
      announcingLifetime := by
    apply (run_of_play hanswered).meeting
    simp [answeredTurns, intactTurn_of_ne]
  have hback : (lifecycle quietLaunch).Run (IntactTurn quietLaunch) t announcedTurns
      connectedLifetime := by
    apply (run_of_play hannounced).meeting
    simp [announcedTurns, intactTurn_of_ne]
  have hrest := hmiddle.append (.cons (announcingLifetime_intact _) haccept' hback)
  exact hgreeting.append (.cons (greetingLifetime_intact _) haccept hrest)

theorem messages_ordered_connected : ∃ complete : List Nat, complete.Nodup ∧
    (complete.Pairwise fun c c' => callOrder c ≤ callOrder c') ∧
    ∀ c, c ∈ complete ↔ connectedLifetime.client.accepted c =
      (connectedLifetime.client.frame quietLaunch.session c).length := by
  obtain ⟨complete, -, hnodup, hsorted, hmem, -⟩ :=
    messages_ordered quietLaunch handshakeTurns connectedLifetime handshakeTurns_run
  exact ⟨complete, hnodup, hsorted, hmem⟩

end Sample

end IntentumdiffLsp.Handshake
