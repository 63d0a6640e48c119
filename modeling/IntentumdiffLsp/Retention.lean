import IntentumdiffLsp.Codec

/-!
How long the loops of the decoder run, and how much it holds between two reads.
-/

namespace IntentumdiffLsp.Retention

open IntentumdiffLsp.Json
open IntentumdiffLsp.Codec
open IntentumdiffLsp.Codec.FrameDecoder

section Budget

variable (serde : SerdeJson) (bits : Nat)

/-- The loop of `nextEvent` with a budget of passes. -/
def nextEventWithin : Nat → FrameDecoder →
    Option (Except DecodeError (Option DecodeEvent) × FrameDecoder)
  | 0, _ => none
  | passes + 1, d =>
      match loopBody serde bits d with
      | .done result d' => some (result, d')
      | .again d' => nextEventWithin passes d'

/-- The loop around `nextEvent` with a budget of calls. -/
def drainWithin : Nat → FrameDecoder → Option Drained
  | 0, _ => none
  | calls + 1, d =>
      match nextEvent serde bits d with
      | (.ok (some event), d') =>
          (drainWithin calls d').map fun r => { r with events := event :: r.events }
      | (.ok none, d') => some ⟨[], .ok (), d'⟩
      | (.error error, d') => some ⟨[], .error error, d'⟩

theorem nextEventWithin_eq {passes : Nat} {d : FrameDecoder} (h : d.buf.length < passes) :
    nextEventWithin serde bits passes d = some (nextEvent serde bits d) := by
  induction passes generalizing d with
  | zero => exact absurd h (Nat.not_lt_zero _)
  | succ passes ih =>
      rw [nextEventWithin]
      rcases hbody : loopBody serde bits d with ⟨result, d'⟩ | d'
      · rw [nextEvent_done serde bits hbody]
      · have hlt := loopBody_again_lt serde bits hbody
        rw [nextEvent_again serde bits hbody]
        exact ih (by omega)

theorem drainWithin_eq {calls : Nat} {d : FrameDecoder} (h : d.buf.length < calls) :
    drainWithin serde bits calls d = some (drain serde bits d) := by
  induction calls generalizing d with
  | zero => exact absurd h (Nat.not_lt_zero _)
  | succ calls ih =>
      rw [drainWithin]
      rcases hnext : nextEvent serde bits d with ⟨error | event, d'⟩
      · rw [drain_error serde bits hnext]
      · rcases event with _ | event
        · rw [drain_none serde bits hnext]
        · have hlt := nextEvent_event_lt serde bits hnext
          have hrest := ih (d := d') (by omega)
          rw [drain_event serde bits hnext]
          simp only [hrest, Option.map_some]

variable {serde bits}

/-- What going round the loop preserves holds before the pass that returns. -/
theorem nextEvent_last {P : FrameDecoder → Prop}
    (hagain : ∀ d d', P d → loopBody serde bits d = .again d' → P d') {d : FrameDecoder}
    (hd : P d) : ∃ last, P last ∧
      loopBody serde bits last = .done (nextEvent serde bits d).1 (nextEvent serde bits d).2 := by
  induction hlen : d.buf.length using Nat.strongRecOn generalizing d with
  | ind len ih =>
      subst hlen
      rcases hbody : loopBody serde bits d with ⟨result, d'⟩ | d'
      · rw [nextEvent_done serde bits hbody]
        exact ⟨d, hd, hbody⟩
      · rw [nextEvent_again serde bits hbody]
        exact ih _ (loopBody_again_lt serde bits hbody) (hagain d d' hd hbody) rfl

/-- What every call preserves holds of the decoder that a drain leaves behind, and
held before its last call. -/
theorem drain_last {P : FrameDecoder → Prop}
    (hcall : ∀ d, P d → P (nextEvent serde bits d).2) {d : FrameDecoder} (hd : P d) :
    P (drain serde bits d).decoder ∧
      ((drain serde bits d).result = .ok () → ∃ last, P last ∧
        nextEvent serde bits last = (.ok none, (drain serde bits d).decoder)) := by
  induction hlen : d.buf.length using Nat.strongRecOn generalizing d with
  | ind len ih =>
      subst hlen
      have hcalled := hcall d hd
      rcases hnext : nextEvent serde bits d with ⟨error | event, d'⟩
      · rw [hnext] at hcalled
        rw [drain_error serde bits hnext]
        exact ⟨hcalled, fun hresult => nomatch hresult⟩
      · rw [hnext] at hcalled
        rcases event with _ | event
        · rw [drain_none serde bits hnext]
          exact ⟨hcalled, fun _ => ⟨d, hd, hnext⟩⟩
        · rw [drain_event serde bits hnext]
          exact ih _ (nextEvent_event_lt serde bits hnext) hcalled rfl

end Budget

/-- The decoders between two passes of the loop: it is fed, and goes round. -/
inductive Visited (serde : SerdeJson) (bits : Nat) : FrameDecoder → Prop
  | new : Visited serde bits .new
  | feed {d : FrameDecoder} (visited : Visited serde bits d) (bytes : List UInt8) :
      Visited serde bits (d.feed bytes)
  | again {d d' : FrameDecoder} (visited : Visited serde bits d)
      (body : loopBody serde bits d = .again d') : Visited serde bits d'
  | done {d d' : FrameDecoder} {result : Except DecodeError (Option DecodeEvent)}
      (visited : Visited serde bits d) (body : loopBody serde bits d = .done result d') :
      Visited serde bits d'

/-- The caps that a state has passed. -/
def Capped : DecodeState → Prop
  | .headers headerBytes _ => headerBytes ≤ maxHeadersTotal
  | .body length _ => length ≤ maxBodyBytes
  | .poisoned _ => True

/-- More bytes are needed: neither a line nor a body is complete, and what there is of
it is within its cap. -/
def Starved (d : FrameDecoder) : Prop :=
  match d.state with
  | .headers headerBytes _ =>
      headerBytes ≤ maxHeadersTotal ∧ ¬crlf <:+: d.buf ∧ d.buf.length ≤ maxHeaderLine
  | .body length _ => 1 ≤ length ∧ length ≤ maxBodyBytes ∧ d.buf.length < length
  | .poisoned _ => False

theorem findCrlf_eq_none_iff {buf : List UInt8} : findCrlf buf = none ↔ ¬crlf <:+: buf := by
  induction buf with
  | nil => simp [findCrlf, crlf]
  | cons b rest ih =>
      have hstarts : crlf <+: b :: rest ↔ b = cr ∧ rest.head? = some lf := by
        rcases rest with _ | ⟨c, rest⟩
        · simp [crlf]
        · simp [crlf, eq_comm]
      rw [findCrlf, List.infix_cons_iff, hstarts, not_or, ← ih]
      split
      · rename_i hhead
        simp [hhead]
      · rename_i hhead
        simp [hhead]

theorem lineVerdict_capped {bits headerBytes : Nat} {contentLength : Option Nat}
    {line : List UInt8} {state : DecodeState}
    (h : lineVerdict bits headerBytes contentLength line = .ok state) : Capped state := by
  unfold lineVerdict at h
  split at h
  · cases h
  split at h
  · cases h
  rename_i htotal
  split at h
  · rcases contentLength with _ | len
    · cases h
      exact Nat.zero_le _
    · rw [sectionEnd] at h
      split at h
      · cases h
      split at h
      · cases h
        exact Nat.le_of_not_gt ‹_›
      · cases h
        exact Nat.zero_le _
  · split at h
    · cases h
      exact Nat.le_of_not_gt htotal
    · cases h
      exact Nat.le_of_not_gt htotal
    · cases h

section Pass

variable {serde : SerdeJson} {bits : Nat} {d d' : FrameDecoder}
  {result : Except DecodeError (Option DecodeEvent)}

theorem again_pass (h : loopBody serde bits d = .again d') :
    Capped d'.state ∧ d'.buf <:+ d.buf := by
  obtain ⟨buf, state⟩ := d
  rcases state with ⟨headerBytes, contentLength⟩ | ⟨length, pos⟩ | error
  · rcases hterm : findCrlf buf with _ | term
    · rw [loopBody_unterminated serde bits hterm] at h
      split at h <;> cases h
    · rw [loopBody_line serde bits hterm] at h
      split at h
      · rename_i state hverdict
        cases h
        exact ⟨lineVerdict_capped hverdict, List.drop_suffix _ _⟩
      · cases h
  · rw [loopBody_body] at h
    split at h <;> cases h
  · cases h

theorem failed_pass {error : DecodeError} (h : result = .error error) :
    (result = .ok none → Starved d') ∧
      ∀ event, result = .ok (some event) → d'.buf <:+ d.buf ∧ d'.buf ≠ d.buf := by
  rw [h]
  constructor
  · intro hnone
    cases hnone
  · intro event hevent
    cases hevent

theorem waiting_pass (h : result = .ok none) (hstarved : Starved d') :
    (result = .ok none → Starved d') ∧
      ∀ event, result = .ok (some event) → d'.buf <:+ d.buf ∧ d'.buf ≠ d.buf := by
  rw [h]
  constructor
  · exact fun _ => hstarved
  · intro event hevent
    cases hevent

theorem done_pass (hcapped : Capped d.state) (h : loopBody serde bits d = .done result d') :
    Capped d'.state ∧ (result = .ok none → Starved d') ∧
      ∀ event, result = .ok (some event) → d'.buf <:+ d.buf ∧ d'.buf ≠ d.buf := by
  obtain ⟨buf, state⟩ := d
  rcases state with ⟨headerBytes, contentLength⟩ | ⟨length, pos⟩ | error
  · rcases hterm : findCrlf buf with _ | term
    · rw [loopBody_unterminated serde bits hterm] at h
      split at h
      · cases h
        exact ⟨trivial, failed_pass rfl⟩
      · rename_i hshort
        cases h
        refine ⟨hcapped, waiting_pass rfl ⟨hcapped, ?_, Nat.le_of_not_gt hshort⟩⟩
        exact findCrlf_eq_none_iff.mp hterm
    · rw [loopBody_line serde bits hterm] at h
      split at h
      · cases h
      · cases h
        exact ⟨trivial, failed_pass rfl⟩
  · rw [loopBody_body] at h
    split at h
    · rename_i hshort
      cases h
      exact ⟨hcapped, waiting_pass rfl ⟨pos, hcapped, hshort⟩⟩
    · rename_i hlong
      cases h
      refine ⟨Nat.zero_le _, ?_, fun event _ => ⟨List.drop_suffix _ _, fun heq => ?_⟩⟩
      · intro hnone
        cases hnone
      have hlength := congrArg List.length heq
      rw [List.length_drop] at hlength
      change ¬buf.length < length at hlong
      change buf.length - length = buf.length at hlength
      omega
  · cases h
    exact ⟨trivial, failed_pass rfl⟩

theorem capped_of_visited (h : Visited serde bits d) : Capped d.state := by
  induction h with
  | new => exact Nat.zero_le _
  | feed visited bytes ih => exact ih
  | again visited body ih => exact (again_pass body).1
  | done visited body ih => exact (done_pass ih body).1

theorem Visited.nextEvent (h : Visited serde bits d) :
    Visited serde bits (nextEvent serde bits d).2 := by
  obtain ⟨last, hlast, hbody⟩ := nextEvent_last (fun _ _ => Visited.again) h
  exact hlast.done hbody

theorem Visited.drain (h : Visited serde bits d) :
    Visited serde bits (drain serde bits d).decoder :=
  (drain_last (fun _ => Visited.nextEvent) h).1

theorem Visited.drainChunks (h : Visited serde bits d) (chunks : List (List UInt8)) :
    Visited serde bits (drainChunks serde bits d chunks).decoder := by
  induction chunks using List.reverseRecOn with
  | nil => exact h
  | append_singleton chunks chunk ih =>
      rw [FrameDecoder.drainChunks, List.foldl_append]
      exact (ih.feed chunk).drain

theorem starved_of_nextEvent (h : Visited serde bits d)
    (hnone : nextEvent serde bits d = (.ok none, d')) : Starved d' := by
  obtain ⟨last, hlast, hbody⟩ := nextEvent_last (fun _ _ => Visited.again) h
  rw [hnone] at hbody
  exact (done_pass (capped_of_visited hlast) hbody).2.1 rfl

theorem starved_of_drain (h : Visited serde bits d) (hresult : (drain serde bits d).result = .ok ()) :
    Starved (drain serde bits d).decoder := by
  obtain ⟨last, hlast, hnone⟩ := (drain_last (fun _ => Visited.nextEvent) h).2 hresult
  exact starved_of_nextEvent hlast hnone

theorem consumed_of_nextEvent {event : DecodeEvent} (h : Visited serde bits d)
    (hevent : nextEvent serde bits d = (.ok (some event), d')) :
    ∃ consumed, consumed ≠ [] ∧ d.buf = consumed ++ d'.buf := by
  obtain ⟨last, ⟨hlast, hsuffix⟩, hbody⟩ := nextEvent_last
    (P := fun d₁ => Visited serde bits d₁ ∧ d₁.buf <:+ d.buf)
    (fun d₁ d₂ hd₁ hagain => ⟨hd₁.1.again hagain, (again_pass hagain).2.trans hd₁.2⟩)
    ⟨h, List.suffix_refl _⟩
  rw [hevent] at hbody
  obtain ⟨hrest, -⟩ := (done_pass (capped_of_visited hlast) hbody).2.2 event rfl
  obtain ⟨consumed, hconsumed⟩ := hrest.trans hsuffix
  refine ⟨consumed, ?_, hconsumed.symm⟩
  rintro rfl
  have hlt := nextEvent_event_lt serde bits hevent
  rw [← hconsumed] at hlt
  exact absurd hlt (Nat.lt_irrefl _)

theorem Starved.retained (h : Starved d) : d.buf.length ≤ maxBodyBytes - 1 := by
  obtain ⟨buf, state⟩ := d
  rcases state with ⟨headerBytes, contentLength⟩ | ⟨length, pos⟩ | error
  · exact h.2.2.trans (by decide)
  · have hlength := h.2.1
    have hbuf := h.2.2
    dsimp only at hbuf ⊢
    omega
  · exact h.elim

end Pass

/-- The loops end within as many rounds as bytes are buffered and one more, an event
takes bytes off the front, and the counter of header bytes fits 64 bits when a line is
added to it. -/
structure Proceeds (serde : SerdeJson) (bits : Nat) (d : FrameDecoder) : Prop where
  passes : nextEventWithin serde bits (d.buf.length + 1) d = some (nextEvent serde bits d)
  calls : drainWithin serde bits (d.buf.length + 1) d = some (drain serde bits d)
  consumes : ∀ event d', nextEvent serde bits d = (.ok (some event), d') →
    ∃ consumed, consumed ≠ [] ∧ d.buf = consumed ++ d'.buf
  fits : ∀ headerBytes contentLength term, d.state = .headers headerBytes contentLength →
    findCrlf d.buf = some term → term + 2 ≤ maxHeaderLine → headerBytes + (term + 2) < 2 ^ 64

/-- Every loop of the decoder ends, and between two reads it holds less than one body. -/
theorem retained_bounded (serde : SerdeJson) :
    (∀ d, Visited serde 64 d → Proceeds serde 64 d) ∧
      ∀ chunks, Visited serde 64 (drainChunks serde 64 .new chunks).decoder ∧
        ((drainChunks serde 64 .new chunks).result = .ok () →
          Starved (drainChunks serde 64 .new chunks).decoder ∧
            (drainChunks serde 64 .new chunks).decoder.buf.length ≤ maxBodyBytes - 1) := by
  constructor
  · intro d hvisited
    constructor
    · exact nextEventWithin_eq serde 64 (Nat.lt_succ_self _)
    · exact drainWithin_eq serde 64 (Nat.lt_succ_self _)
    · exact fun event d' => consumed_of_nextEvent hvisited
    · intro headerBytes contentLength term hstate _ hline
      have hcapped := capped_of_visited hvisited
      rw [hstate] at hcapped
      change headerBytes ≤ maxHeadersTotal at hcapped
      simp only [maxHeadersTotal, maxHeaderLine] at hcapped hline
      omega
  · intro chunks
    refine ⟨Visited.new.drainChunks chunks, fun hresult => ?_⟩
    have hstarved : Starved (drainChunks serde 64 .new chunks).decoder := by
      rcases chunks.eq_nil_or_concat' with rfl | ⟨front, chunk, rfl⟩
      · exact ⟨Nat.zero_le _, by simp [drainChunks, new, crlf], Nat.zero_le _⟩
      · rw [drainChunks, List.foldl_append] at hresult ⊢
        exact starved_of_drain ((Visited.new.drainChunks front).feed chunk) hresult
    exact ⟨hstarved, hstarved.retained⟩

end IntentumdiffLsp.Retention
