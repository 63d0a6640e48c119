import IntentumdiffLsp.Serving

/-!
The process comes to rest: the steps it takes are paid for by the bytes it reads,
and what it rests in is known.
-/

namespace IntentumdiffLsp.Settling

open IntentumdiffLsp.Json
open IntentumdiffLsp.Codec
open IntentumdiffLsp.Codec.FrameDecoder
open IntentumdiffLsp.Server
open IntentumdiffLsp.Reading
open IntentumdiffLsp.Process
open IntentumdiffLsp.Serving

section Decoder

variable {serde : SerdeJson} {bits : Nat}

theorem loopBody_done_le {d d' : FrameDecoder} {result : Except DecodeError (Option DecodeEvent)}
    (h : loopBody serde bits d = .done result d') : d'.buf.length ≤ d.buf.length := by
  obtain ⟨buf, state⟩ := d
  cases state with
  | poisoned error =>
      cases h
      exact Nat.le_refl _
  | body length pos =>
      rw [loopBody_body] at h
      split at h
      · cases h
        exact Nat.le_refl _
      · cases h
        rw [List.length_drop]
        exact Nat.sub_le _ _
  | headers headerBytes contentLength =>
      rcases hterm : findCrlf buf with _ | term
      · rw [loopBody_unterminated serde bits hterm] at h
        split at h
        · cases h
          exact Nat.le_refl _
        · cases h
          exact Nat.le_refl _
      · rw [loopBody_line serde bits hterm] at h
        split at h
        · cases h
        · cases h
          dsimp only
          split
          · exact Nat.le_refl _
          · rw [List.length_drop]
            exact Nat.sub_le _ _

theorem nextEvent_le (d : FrameDecoder) :
    (nextEvent serde bits d).2.buf.length ≤ d.buf.length := by
  induction hlength : d.buf.length using Nat.strongRecOn generalizing d with
  | ind length ih =>
      subst hlength
      rcases hbody : loopBody serde bits d with ⟨result, d'⟩ | d'
      · rw [nextEvent_done serde bits hbody]
        exact loopBody_done_le hbody
      · rw [nextEvent_again serde bits hbody]
        have hlt := loopBody_again_lt serde bits hbody
        exact (ih _ hlt d' rfl).trans hlt.le

theorem pull_le (l : ReadLoop) :
    (l.pull serde bits).2.decoder.buf.length ≤ l.decoder.buf.length :=
  nextEvent_le l.decoder

theorem pull_lt {l : ReadLoop} {event : DecodeEvent}
    (h : (l.pull serde bits).1 = .ok (some event)) :
    (l.pull serde bits).2.decoder.buf.length < l.decoder.buf.length :=
  nextEvent_event_lt serde bits (Prod.ext h rfl)

end Decoder

/-- What the main loop has left to do with the messages it has taken. -/
def toDo (dirty : List String) : MainLoop → Nat
  | .receiving => 3
  | .collecting batch => 2 * batch.length + 6
  | .handling rest => 2 * rest.length + dirty.length + 5
  | .computing rest => rest.length + 4
  | .leaving => 2
  | .joining => 1
  | .ended => 0

/-- What the reader thread has left to do with the bytes it has read. -/
def toPull (l : ReadLoop) : Reader → Nat
  | .running => 7 * l.decoder.buf.length + (if l.pulling then 2 else 1)
  | .returned => 7 * l.decoder.buf.length

def effort (p : ServerProcess) : Nat :=
  toPull p.loop p.reader + 6 * p.channel.length + toDo p.session.dirty p.main

section Effort

variable {prog : Program} {p p' : ServerProcess}

theorem store_dirty (s : Session) (uri text : Option String) :
    (s.store uri text).dirty.length ≤ s.dirty.length + 1 := by
  unfold Session.store
  split
  · dsimp only
    split
    · exact Nat.le_succ _
    · rw [List.length_append]
      exact Nat.le_refl _
  · exact Nat.le_succ _

/-- A message makes at most one more document dirty. -/
theorem handle_dirty (ctx : Context) (env : Nat → Env) (s : Session) (msg : Value) :
    (s.handle ctx env msg).dirty.length ≤ s.dirty.length + 1 := by
  rcases hexited : s.exited with _ | _
  · rw [Sessions.handle_running hexited]
    show (s.dispatch ctx (env s.trace.length) msg).1.dirty.length ≤ s.dirty.length + 1
    unfold Session.dispatch
    rcases methodOf msg with _ | method
    · exact Nat.le_succ _
    cases method with
    | didOpen | didChange => exact store_dirty s _ _
    | didClose =>
        dsimp only [Session.close]
        split
        · exact (List.length_filter_le _ _).trans (Nat.le_succ _)
        · exact Nat.le_succ _
    | semanticDiff =>
        dsimp only
        split <;> exact Nat.le_succ _
    | initializeRequest | initialized | codeLens | shutdown | exit | unknown =>
        exact Nat.le_succ _
  · rw [Session.handle, if_pos hexited]
    exact Nat.le_succ _

theorem effort_main (h : MainStep prog p p') : effort p' + 1 ≤ effort p := by
  unfold effort
  cases h with
  | receive main channel | collect main channel =>
      rw [main, channel]
      simp only [toDo, List.length_append, List.length_cons, List.length_nil]
      omega
  | batch main | hangUp main | handled main | computed main | compute main =>
      rw [main]
      simp only [toDo, List.length_cons, List.length_nil]
      omega
  | @handle msg rest main =>
      have hdirty := handle_dirty prog.ctx prog.env p.session msg
      rw [main]
      simp only [toDo, List.length_cons]
      omega
  | exit main | leave main =>
      rw [main]
      simp only [toDo, List.length_cons, List.length_nil]
      omega
  | join main =>
      rw [main]
      exact Nat.le_refl _

/-- A message in the channel is paid for by a byte. -/
theorem effort_pull (hreader : p.reader = .running) (hpulling : p.loop.pulling = true)
    (h : Pull prog p p') : effort p' + 1 ≤ effort p := by
  unfold effort
  have hle := @pull_le prog.serde prog.bits p.loop
  cases h with
  | send result =>
      have hlt := pull_lt result
      simp only [hreader, hpulling, toPull, pulling_pull, result, isEvent, List.length_append,
        List.length_singleton]
      omega
  | refused result =>
      simp only [hreader, hpulling, toPull, if_true]
      omega
  | malformed result =>
      have hlt := pull_lt result
      simp only [hreader, hpulling, toPull, pulling_pull, result, isEvent]
      omega
  | drained result =>
      simp only [hreader, hpulling, toPull, pulling_pull, result, isEvent, if_true,
        Bool.false_eq_true, if_false]
      omega
  | fatal result =>
      simp only [hreader, hpulling, toPull, if_true]
      omega

/-- Every step but a read lowers the effort that is left; a read pays for its bytes. -/
theorem effort_step {a : Action} (h : Step prog p a p') :
    effort p' + 1 + 9 * p.loop.received.length ≤ effort p + 9 * p'.loop.received.length := by
  cases h with
  | @read chunk reader idle nonempty =>
      have hpos := List.length_pos_iff.mpr nonempty
      simp only [effort, toPull, ReadLoop.feed, FrameDecoder.feed, reader, idle, if_true,
        Bool.false_eq_true, if_false, List.length_append]
      omega
  | endOfInput reader idle =>
      simp only [effort, toPull, reader, idle, Bool.false_eq_true, if_false]
      omega
  | pull reader pulling pull =>
      have heffort := effort_pull reader pulling pull
      have hreceived : p'.loop.received = p.loop.received := by cases pull <;> rfl
      rw [hreceived]
      omega
  | main main =>
      have heffort := effort_main main
      rw [(main_frame main).1]
      omega

theorem effort_run {actions : List Action}
    (hrun : (process prog).Run Anything prog.started actions p) :
    actions.length + effort p ≤ 9 * p.loop.received.length + 4 := by
  refine hrun.trace_invariant
    (P := fun actions p => actions.length + effort p ≤ 9 * p.loop.received.length + 4)
    (Nat.le_refl _) ?_
  intro done u a u' _ ih _ hstep
  have heffort := effort_step (step_cases hstep)
  rw [List.length_append, List.length_singleton]
  omega

end Effort

section Rest

variable {prog : Program} {p : ServerProcess}

theorem mainStep_eq_none (h : mainStep prog p = none) :
    (p.main = .receiving ∧ p.channel = [] ∧ p.reader = .running) ∨
      (p.main = .joining ∧ p.reader = .running) ∨ p.main = .ended := by
  unfold mainStep at h
  split at h
  · split at h <;> cases h
    exact .inl ⟨‹_›, ‹_›, ‹_›⟩
  · split at h <;> cases h
  · cases h
  · cases h
  · cases h
  · cases h
  · cases h
  · split at h <;> cases h
    exact .inr (.inl ⟨‹_›, ‹_›⟩)
  · exact .inr (.inr ‹_›)

theorem pull_eq_none (h : Process.step prog p .pull = none) (hreader : p.reader = .running) :
    p.loop.pulling = false := by
  simp only [Process.step, hreader] at h
  split at h
  · cases h
  · rename_i hpulling
    exact Bool.eq_false_iff.mpr hpulling

/-- When nothing is left in the channel, every frame that has been pulled is in a batch. -/
theorem flatten_of_idle (hs : Accounts prog p) (hidle : p.loop.pulling = false)
    (hmain : p.main = .receiving) (hchannel : p.channel = []) :
    p.batches.flatten = framesOf prog.serde prog.bits p.loop.received := by
  obtain ⟨events, hpulled, hsent⟩ := hs.pulled
  have hlistens : p.main.listens = true := by
    rw [hmain]
    rfl
  have hall := hs.channel hlistens
  rw [hsent.eq_of_listens hlistens, hpulled.frames_eq hidle, hmain, hchannel] at hall
  simpa [inHand] using hall.symm

end Rest

/-- The steps of a run are bounded by the bytes that have been read. When neither thread
can go on without more of them, the main loop has handled every message in them and
written all that it writes for them, or it has exited and waits for its reader thread, or
the process has ended. -/
theorem process_settles (prog : Program) (actions : List Action) (p : ServerProcess)
    (hrun : (process prog).Run Anything prog.started actions p) :
    actions.length ≤ 9 * p.loop.received.length + 4 ∧
      (Process.step prog p .main = none → Process.step prog p .pull = none →
        p.main = .receiving ∧ p.reader = .running ∧ p.loop.pulling = false ∧
            p.batches.flatten = framesOf prog.serde prog.bits p.loop.received ∧
            p.session = served prog p.batches ∨
          p.main = .joining ∧ p.reader = .running ∧ p.loop.pulling = false ∧
            p.session.exited = true ∨
          p.main = .ended ∧ p.reader = .returned) := by
  have hs := accounts_of_reachable hrun.reachable
  constructor
  · have heffort := effort_run hrun
    omega
  · intro hmain hpull
    rcases mainStep_eq_none hmain with ⟨hmain, hchannel, hreader⟩ | ⟨hmain, hreader⟩ | hmain
    · have hidle := pull_eq_none hpull hreader
      have hstands := hs.stands
      rw [hmain] at hstands
      exact .inl ⟨hmain, hreader, hidle, flatten_of_idle hs hidle hmain hchannel, hstands.1⟩
    · refine .inr (.inl ⟨hmain, hreader, pull_eq_none hpull hreader, ?_⟩)
      refine (hs.finished (by rw [hmain]; rfl)).resolve_right fun hdone => ?_
      cases hreader.symm.trans hdone.1
    · exact .inr (.inr ⟨hmain, hs.joined hmain⟩)

theorem process_settles_exit : exitActions.length ≤ 9 * exitEnded.loop.received.length + 4 ∧
    exitEnded.main = .ended ∧ exitEnded.reader = .returned := by
  obtain ⟨hbound, hrest⟩ := process_settles exitProgram exitActions exitEnded exitActions_run
  refine ⟨hbound, ?_⟩
  rcases hrest rfl rfl with hidle | hwaits | hended
  · cases hidle.1
  · cases hwaits.1
  · exact hended

/-- A fatal error, or a message that came behind the exit. -/
def Outlived (prog : Program) (p : ServerProcess) : Prop :=
  (∃ error,
    (drain prog.serde prog.bits (FrameDecoder.new.feed p.loop.received)).result = .error error) ∨
    p.session.exited = true ∧
      ∃ msg, p.sent ++ [msg] <+: framesOf prog.serde prog.bits p.loop.received

section Exit

variable {prog : Program} {p p' : ServerProcess}

theorem exited_main (h : MainStep prog p p') (hexited : p.session.exited = true) :
    p'.session.exited = true := by
  cases h with
  | handle | exit =>
      show (p.session.handle prog.ctx prog.env _).exited = true
      rw [Session.handle, if_pos hexited]
      exact hexited
  | _ => exact hexited

theorem outlived_main (h : MainStep prog p p') (hp : Outlived prog p) : Outlived prog p' := by
  obtain ⟨hloop, -, hsent, -⟩ := main_frame h
  rw [Outlived, hloop, hsent]
  exact hp.imp_right fun hexit => ⟨exited_main h hexit.1, hexit.2⟩

theorem outlived_pull (hs : Accounts prog p) (hreader : p.reader = .running)
    (h : Pull prog p p') (hreturned : p'.reader = .returned) : Outlived prog p' := by
  obtain ⟨events, hpulled, hsent⟩ := hs.pulled
  cases h with
  | send | malformed | drained => cases hreader.symm.trans hreturned
  | @refused msg result listens =>
      have hover : isOver p.main = true := by
        cases hmain : p.main <;> simp_all [MainLoop.listens, isOver]
      have hexited := (hs.finished hover).resolve_right fun hdone => by
        cases hreader.symm.trans hdone.1
      refine .inr ⟨hexited, msg, ?_⟩
      have hfront := (hpulled.event result).frames_isPrefix
      rwa [filterMap_frameOf, ← hsent.eq_of_running hreader] at hfront
  | fatal result => exact .inl ⟨_, hpulled.fatal result⟩

end Exit

/-- The exit alone does not end the process. As long as its input does not end, it ends
behind a fatal error, or when one more message arrives behind the exit. -/
theorem exit_waits (prog : Program) (actions : List Action) (p : ServerProcess)
    (hrun : (process prog).Run Anything prog.started actions p)
    (hopen : .endOfInput ∉ actions) (hended : p.main = .ended) : Outlived prog p := by
  have hjoined := (accounts_of_reachable hrun.reachable).joined hended
  refine hrun.trace_invariant
    (P := fun actions p => .endOfInput ∉ actions → p.reader = .returned → Outlived prog p)
    (fun _ hreturned => nomatch hreturned) ?_ hopen hjoined
  intro done u a u' hrun ih _ hstep hopen hreturned
  rw [List.mem_append, List.mem_singleton, not_or] at hopen
  have hs := accounts_of_reachable hrun.reachable
  cases step_cases hstep with
  | read reader => cases reader.symm.trans hreturned
  | endOfInput => exact absurd rfl hopen.2
  | pull reader _ pull => exact outlived_pull hs reader pull hreturned
  | main main =>
      rw [(main_frame main).2.1] at hreturned
      exact outlived_main main (ih hopen.1 hreturned)

theorem exit_waits_exit : exitEnded.main = .ended ∧ Outlived exitProgram exitEnded :=
  ⟨rfl, exit_waits exitProgram exitActions exitEnded exitActions_run (by simp [exitActions]) rfl⟩

end IntentumdiffLsp.Settling
