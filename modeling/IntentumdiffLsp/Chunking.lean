import IntentumdiffLsp.Codec
import IntentumdiffLsp.Foundations.StreamMachine

namespace IntentumdiffLsp.Chunking

open Foundations
open IntentumdiffLsp.Json
open IntentumdiffLsp.Codec
open IntentumdiffLsp.Codec.FrameDecoder

theorem findCrlf_append_some {buf : List UInt8} {term : Nat} (h : findCrlf buf = some term)
    (more : List UInt8) : findCrlf (buf ++ more) = some term := by
  induction buf generalizing term with
  | nil => simp [findCrlf] at h
  | cons b rest ih =>
      rw [findCrlf] at h
      rw [List.cons_append, findCrlf]
      split at h
      · rename_i hhead
        cases h
        cases rest with
        | nil => simp at hhead
        | cons c rest => exact if_pos hhead
      · rename_i hhead
        obtain ⟨term', hterm, rfl⟩ := Option.map_eq_some_iff.mp h
        cases rest with
        | nil => simp [findCrlf] at hterm
        | cons c rest =>
            rw [ih hterm]
            exact if_neg hhead

/-- A terminator that appears when bytes are appended uses at most the last
byte that was there before. -/
theorem findCrlf_append_none {buf more : List UInt8} {term : Nat} (h : findCrlf buf = none)
    (happend : findCrlf (buf ++ more) = some term) : buf.length ≤ term + 1 := by
  induction buf generalizing term with
  | nil => simp
  | cons b rest ih =>
      rw [findCrlf] at h
      rw [List.cons_append, findCrlf] at happend
      split at h
      · cases h
      rename_i hhead
      have hrest : findCrlf rest = none := by simpa using h
      split at happend
      · cases rest with
        | nil => simp
        | cons c rest => exact absurd ‹_› hhead
      · obtain ⟨term', hterm, rfl⟩ := Option.map_eq_some_iff.mp happend
        have := ih hrest hterm
        simp only [List.length_cons]
        omega

section Machine

variable (serde : SerdeJson) (bits : Nat)

/-- The decoder as a machine over the bytes it is fed. -/
def poll : DecodeState → List UInt8 → Verdict DecodeState DecodeEvent DecodeError
  | .poisoned error, _ => .fail error
  | .headers headerBytes contentLength, buf =>
      match findCrlf buf with
      | none => if buf.length > maxHeaderLine then .fail .headerLineTooLong else .wait
      | some term =>
          match lineVerdict bits headerBytes contentLength (buf.take term) with
          | .ok state => .take (term + 2) none state
          | .error error => .fail error
  | .body length _, buf =>
      if buf.length < length then .wait
      else .take length (some (bodyEvent serde (buf.take length))) (.headers 0 none)

theorem lineVerdict_too_long {bits headerBytes : Nat} {contentLength : Option Nat}
    {line : List UInt8} (h : line.length + 2 > maxHeaderLine) :
    lineVerdict bits headerBytes contentLength line = .error .headerLineTooLong :=
  if_pos h

theorem poll_progress {state next : DecodeState} {buf : List UInt8} {n : Nat}
    {event : Option DecodeEvent} (h : poll serde bits state buf = .take n event next) :
    0 < n ∧ n ≤ buf.length := by
  cases state with
  | poisoned error => cases h
  | body length pos =>
      simp only [poll] at h
      split at h
      · cases h
      · cases h
        exact ⟨pos, by omega⟩
  | headers headerBytes contentLength =>
      simp only [poll] at h
      split at h
      · split at h <;> cases h
      · rename_i term hterm
        have hbound := findCrlf_bound hterm
        split at h
        · cases h
          exact ⟨by omega, hbound⟩
        · cases h

/-- A line that is complete is judged without a look at what follows it. -/
theorem poll_terminated {buf : List UInt8} {term : Nat} (hterm : findCrlf buf = some term)
    (more : List UInt8) {headerBytes : Nat} {contentLength : Option Nat} :
    poll serde bits (.headers headerBytes contentLength) (buf ++ more) =
      poll serde bits (.headers headerBytes contentLength) buf := by
  have hbound := findCrlf_bound hterm
  simp only [poll, hterm, findCrlf_append_some hterm more]
  rw [List.take_append_of_le_length (by omega)]

theorem poll_stable_take {state next : DecodeState} {buf : List UInt8} {n : Nat}
    {event : Option DecodeEvent} (h : poll serde bits state buf = .take n event next)
    (more : List UInt8) : poll serde bits state (buf ++ more) = .take n event next := by
  cases state with
  | poisoned error => cases h
  | body length pos =>
      simp only [poll] at h ⊢
      split at h
      · cases h
      · cases h
        rw [if_neg (by rw [List.length_append]; omega),
          List.take_append_of_le_length (by omega)]
  | headers headerBytes contentLength =>
      rcases hterm : findCrlf buf with _ | term
      · simp only [poll, hterm] at h
        split at h <;> cases h
      · rwa [poll_terminated serde bits hterm more]

theorem poll_stable_fail {state : DecodeState} {buf : List UInt8} {error : DecodeError}
    (h : poll serde bits state buf = .fail error) (more : List UInt8) :
    poll serde bits state (buf ++ more) = .fail error := by
  cases state with
  | poisoned error' => exact h
  | body length pos =>
      simp only [poll] at h
      split at h <;> cases h
  | headers headerBytes contentLength =>
      rcases hterm : findCrlf buf with _ | term
      · simp only [poll, hterm] at h ⊢
        split at h
        · rename_i hlong
          cases h
          -- The line may be complete now, but it is over the cap in any case.
          split
          · rw [if_pos (by rw [List.length_append]; omega)]
          · rename_i term hterm'
            have hge := findCrlf_append_none hterm hterm'
            have hbound := findCrlf_bound hterm'
            have hlength : ((buf ++ more).take term).length = term := by
              rw [List.length_take]
              omega
            rw [lineVerdict_too_long (by omega)]
        · cases h
      · rwa [poll_terminated serde bits hterm more]

def machine : StreamMachine DecodeState UInt8 DecodeEvent DecodeError where
  poll := poll serde bits
  progress := poll_progress serde bits
  stable_take := poll_stable_take serde bits
  stable_fail := poll_stable_fail serde bits

/-- The loop body does what the machine says. A failing pass may or may not
have taken the offending line out of the buffer. -/
theorem loopBody_poll (state : DecodeState) (buf : List UInt8) :
    match poll serde bits state buf with
    | .wait => loopBody serde bits ⟨buf, state⟩ = .done (.ok none) ⟨buf, state⟩
    | .fail error => ∃ buf',
        loopBody serde bits ⟨buf, state⟩ = .done (.error error) ⟨buf', .poisoned error⟩
    | .take n none next => loopBody serde bits ⟨buf, state⟩ = .again ⟨buf.drop n, next⟩
    | .take n (some event) next =>
        loopBody serde bits ⟨buf, state⟩ = .done (.ok (some event)) ⟨buf.drop n, next⟩ := by
  cases state with
  | poisoned error => exact ⟨buf, rfl⟩
  | body length pos =>
      simp only [poll, loopBody_body]
      by_cases hlength : buf.length < length <;> simp [hlength]
  | headers headerBytes contentLength =>
      cases hterm : findCrlf buf with
      | none =>
          simp only [poll, hterm, loopBody_unterminated serde bits hterm]
          by_cases hlong : buf.length > maxHeaderLine <;> simp [hlong]
      | some term =>
          simp only [poll, hterm, loopBody_line serde bits hterm]
          cases lineVerdict bits headerBytes contentLength (buf.take term) with
          | ok next => rfl
          | error error => exact ⟨_, rfl⟩

/-- The result of the last call and the decoder it leaves, for each way a
drain of the machine can end. -/
def Ends (stop : Stop DecodeState UInt8 DecodeError) (r : Drained) : Prop :=
  match stop with
  | .waiting state rest => r.result = .ok () ∧ r.decoder = ⟨rest, state⟩
  | .failed error => r.result = .error error ∧ r.decoder.state = .poisoned error

def Refines (r : Drained)
    (m : List DecodeEvent × Stop DecodeState UInt8 DecodeError) : Prop :=
  r.events = m.1 ∧ Ends m.2 r

theorem drain_refines (state : DecodeState) (buf : List UInt8) :
    Refines (drain serde bits ⟨buf, state⟩) ((machine serde bits).drain state buf) := by
  induction state, buf using (machine serde bits).drain_induction with
  | wait state buf h =>
      have hbody := loopBody_poll serde bits state buf
      rw [show poll serde bits state buf = .wait from h] at hbody
      rw [(machine serde bits).drain_wait h,
        drain_none serde bits (nextEvent_done serde bits hbody)]
      exact ⟨rfl, rfl, rfl⟩
  | fail state buf error h =>
      have hbody := loopBody_poll serde bits state buf
      rw [show poll serde bits state buf = .fail error from h] at hbody
      obtain ⟨buf', hbody⟩ := hbody
      rw [(machine serde bits).drain_fail h,
        drain_error serde bits (nextEvent_done serde bits hbody)]
      exact ⟨rfl, rfl, rfl⟩
  | take state buf n event next h ih =>
      have hbody := loopBody_poll serde bits state buf
      rw [show poll serde bits state buf = .take n event next from h] at hbody
      rw [(machine serde bits).drain_take h]
      cases event with
      | none =>
          rw [drain_again serde bits hbody]
          exact ih
      | some event =>
          rw [drain_event serde bits (nextEvent_done serde bits hbody)]
          exact ⟨congrArg (event :: ·) ih.1, ih.2⟩

theorem feed_refines {r : Drained}
    {m : List DecodeEvent × Stop DecodeState UInt8 DecodeError} (h : Refines r m)
    (chunk : List UInt8) :
    Refines
      { drain serde bits (r.decoder.feed chunk) with
        events := r.events ++ (drain serde bits (r.decoder.feed chunk)).events }
      ((machine serde bits).resume m chunk) := by
  obtain ⟨events, stop⟩ := m
  obtain ⟨hevents, hends⟩ := h
  cases stop with
  | waiting state rest =>
      obtain ⟨-, hdecoder⟩ := hends
      have hdrain := drain_refines serde bits state (rest ++ chunk)
      rw [hdecoder, feed, hevents]
      exact ⟨congrArg (events ++ ·) hdrain.1, hdrain.2⟩
  | failed error =>
      obtain ⟨-, hstate⟩ := hends
      have hbody : loopBody serde bits (r.decoder.feed chunk) =
          .done (.error error) (r.decoder.feed chunk) := by
        simp only [loopBody, feed, hstate]
      rw [drain_error serde bits (nextEvent_done serde bits hbody), hevents]
      exact ⟨List.append_nil _, rfl, hstate⟩

theorem foldl_refines {r : Drained}
    {m : List DecodeEvent × Stop DecodeState UInt8 DecodeError} (h : Refines r m)
    (chunks : List (List UInt8)) :
    Refines
      (chunks.foldl
        (fun r chunk =>
          let r' := drain serde bits (r.decoder.feed chunk)
          { r' with events := r.events ++ r'.events }) r)
      ((machine serde bits).feedAll m chunks) := by
  induction chunks generalizing r m with
  | nil => exact h
  | cons chunk chunks ih => exact ih (feed_refines serde bits h chunk)

theorem drainChunks_refines (chunks : List (List UInt8)) :
    Refines (drainChunks serde bits new chunks)
      ((machine serde bits).drain (.headers 0 none) chunks.flatten) := by
  have hstart : (machine serde bits).drain (.headers 0 none) [] =
      ([], .waiting (.headers 0 none) []) :=
    (machine serde bits).drain_wait rfl
  have hall := (machine serde bits).feedAll_drain (.headers 0 none) [] chunks
  rw [List.nil_append, hstart] at hall
  have hinit : Refines ⟨[], .ok (), new⟩ ([], .waiting (.headers 0 none) []) :=
    ⟨rfl, rfl, rfl⟩
  rw [← hall]
  exact foldl_refines serde bits hinit chunks

theorem drain_feed_refines (s : List UInt8) :
    Refines (drain serde bits (new.feed s)) ((machine serde bits).drain (.headers 0 none) s) :=
  drain_refines serde bits (.headers 0 none) s

end Machine

theorem Refines.agree {r r' : Drained}
    {m : List DecodeEvent × Stop DecodeState UInt8 DecodeError} (h : Refines r m)
    (h' : Refines r' m) : r.events = r'.events ∧ r.result = r'.result := by
  obtain ⟨events, stop⟩ := m
  refine ⟨h.1.trans h'.1.symm, ?_⟩
  cases stop with
  | waiting state rest => exact h.2.1.trans h'.2.1.symm
  | failed error => exact h.2.1.trans h'.2.1.symm

theorem Refines.failed {r : Drained} {error : DecodeError}
    {m : List DecodeEvent × Stop DecodeState UInt8 DecodeError} (h : Refines r m)
    (hresult : r.result = .error error) : m.2 = .failed error := by
  obtain ⟨events, stop⟩ := m
  cases stop with
  | waiting state rest => cases hresult.symm.trans h.2.1
  | failed error' =>
      cases hresult.symm.trans h.2.1
      rfl

/-- However a byte string is cut into chunks, the decoder yields the same events
and ends with the same result as when it is fed whole; the events of a front
part are a prefix of the events of the whole, and a failure on a front part is
the failure of the whole. -/
theorem drainChunks_eq_drain (serde : SerdeJson) (bits : Nat) (chunks : List (List UInt8)) :
    (drainChunks serde bits new chunks).events =
        (drain serde bits (new.feed chunks.flatten)).events ∧
      (drainChunks serde bits new chunks).result =
        (drain serde bits (new.feed chunks.flatten)).result ∧
      ∀ front back, chunks.flatten = front ++ back →
        (drain serde bits (new.feed front)).events <+:
            (drain serde bits (new.feed chunks.flatten)).events ∧
          ∀ error, (drain serde bits (new.feed front)).result = .error error →
            (drain serde bits (new.feed chunks.flatten)).events =
                (drain serde bits (new.feed front)).events ∧
              (drain serde bits (new.feed chunks.flatten)).result = .error error := by
  have hwhole := drain_feed_refines serde bits chunks.flatten
  have hagree := (drainChunks_refines serde bits chunks).agree hwhole
  refine ⟨hagree.1, hagree.2, ?_⟩
  intro front back hcut
  have hfront := drain_feed_refines serde bits front
  rw [hcut] at hwhole ⊢
  constructor
  · rw [hfront.1, hwhole.1]
    exact (machine serde bits).drain_events_isPrefix _ front back
  · intro error herror
    have hfailed := hfront.failed herror
    rw [(machine serde bits).drain_append_of_failed hfailed back] at hwhole
    have hsame := hwhole.agree hfront
    exact ⟨hsame.1, hsame.2.trans herror⟩

end IntentumdiffLsp.Chunking
