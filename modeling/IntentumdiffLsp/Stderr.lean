import IntentumdiffLsp.Foundations.Text
import IntentumdiffLsp.Foundations.Window

/-!
The end of what a server has written to its stderr, and the hint made of it.
-/

namespace IntentumdiffLsp.Stderr

open Foundations
open Foundations.Utf8
open Foundations.Text

/-- Max bytes retained from a server's stderr. -/
def stderrRingBytes : Nat := 65536

structure StderrRing where
  buf : List UInt8
  capped : buf.length ≤ stderrRingBytes

namespace StderrRing

@[ext] theorem ext {ring ring' : StderrRing} (h : ring.buf = ring'.buf) : ring = ring' := by
  cases ring
  cases ring'
  cases h
  rfl

def empty : StderrRing where
  buf := []
  capped := Nat.zero_le _

/-- The bytes over the cap are drained at the front. -/
def extended (buf chunk : List UInt8) : List UInt8 :=
  let buf := buf ++ chunk
  if buf.length > stderrRingBytes then
    let excess := buf.length - stderrRingBytes
    buf.drop excess
  else buf

theorem extended_eq (buf chunk : List UInt8) :
    extended buf chunk = (buf ++ chunk).rtake stderrRingBytes := by
  simp only [extended]
  split
  · rfl
  · exact (Window.rtake_of_length_le (Nat.le_of_not_gt ‹_›)).symm

def push (ring : StderrRing) (chunk : List UInt8) : StderrRing where
  buf := extended ring.buf chunk
  capped := by
    rw [extended_eq, Window.length_rtake]
    exact Nat.min_le_right _ _

def pushAll (ring : StderrRing) (chunks : List (List UInt8)) : StderrRing :=
  chunks.foldl push ring

/-- Max characters of a hint. -/
def hintChars : Nat := 500

/-- The hint that is appended to connection errors. -/
def hint (ring : StderrRing) : String :=
  if ring.buf.isEmpty then ""
  else
    let text := trim (decodeLossy ring.buf)
    let tail :=
      if text.length > hintChars then
        let skip := text.length - hintChars
        '\u2026' :: text.drop skip
      else text
    s!" (stderr: {String.ofList tail})"

end StderrRing

/-- What a read of the child's stderr gives; nothing once it is closed. -/
inductive Read where
  | bytes (chunk : List UInt8)
  | failed

/-- The task that fills the ring, up to the first read that fails or gives nothing. -/
def stderrTask (ring : StderrRing) : List Read → StderrRing
  | [] => ring
  | .failed :: _ => ring
  | .bytes chunk :: reads =>
      if chunk.length = 0 then ring else stderrTask (ring.push chunk) reads

/-- The chunks in front of the first read that fails or gives nothing. -/
def captured : List Read → List (List UInt8)
  | [] => []
  | .failed :: _ => []
  | .bytes chunk :: reads => if chunk.length = 0 then [] else chunk :: captured reads

open StderrRing

theorem stderrTask_eq (ring : StderrRing) (reads : List Read) :
    stderrTask ring reads = ring.pushAll (captured reads) := by
  induction reads generalizing ring with
  | nil => rfl
  | cons read reads ih =>
      rcases read with chunk | _
      · rw [stderrTask, captured]
        split
        · rfl
        · exact ih (ring.push chunk)
      · rfl

theorem buf_pushAll (ring : StderrRing) (chunks : List (List UInt8)) :
    (ring.pushAll chunks).buf =
      chunks.foldl (fun kept chunk => (kept ++ chunk).rtake stderrRingBytes) ring.buf := by
  induction chunks generalizing ring with
  | nil => rfl
  | cons chunk chunks ih =>
      have hpush : (ring.push chunk).buf = (ring.buf ++ chunk).rtake stderrRingBytes :=
        extended_eq ring.buf chunk
      rw [pushAll, List.foldl_cons, List.foldl_cons, ← hpush]
      exact ih (ring.push chunk)

/-- The ring holds the end of all that was pushed. -/
theorem buf_pushAll_empty (chunks : List (List UInt8)) :
    (empty.pushAll chunks).buf = chunks.flatten.rtake stderrRingBytes := by
  rw [buf_pushAll]
  exact Window.foldl_rtake [] chunks stderrRingBytes

/-- The hint wraps the last characters of the text, behind an ellipsis exactly if some
are dropped. -/
def Wraps (text : List Char) (hint : String) : Prop :=
  ∃ dropped tail, text = dropped ++ tail ∧ tail.length = min text.length hintChars ∧
    hint = " (stderr: " ++ (if dropped = [] then "" else "\u2026") ++ String.ofList tail ++ ")"

theorem hint_of_nil {ring : StderrRing} (h : ring.buf = []) : ring.hint = "" := by
  rw [hint, h]
  rfl

theorem wraps_hint {ring : StderrRing} (h : ring.buf ≠ []) :
    Wraps (trim (decodeLossy ring.buf)) ring.hint := by
  have hempty : ring.buf.isEmpty = false := List.isEmpty_eq_false_iff.mpr h
  simp only [hint, hempty, Bool.false_eq_true, if_false]
  generalize trim (decodeLossy ring.buf) = text
  by_cases hlong : text.length > hintChars
  · have hdropped : text.take (text.length - hintChars) ≠ [] := by
      rw [← List.length_pos_iff, List.length_take]
      omega
    refine ⟨_, _, (List.take_append_drop (text.length - hintChars) text).symm, ?_, ?_⟩
    · rw [List.length_drop]
      omega
    · have hellipsis : ∀ s : List Char,
          String.ofList ('\u2026' :: s) = "\u2026" ++ String.ofList s :=
        fun s => @String.ofList_append ['\u2026'] s
      rw [if_pos hlong, if_neg hdropped, hellipsis, @String.append_assoc " (stderr: "]
      rfl
  · refine ⟨[], text, rfl, ?_, ?_⟩
    · omega
    · rw [if_neg hlong, if_pos rfl, String.append_empty]
      rfl

theorem hint_eq_empty_iff {ring : StderrRing} : ring.hint = "" ↔ ring.buf = [] := by
  refine ⟨fun hhint => ?_, hint_of_nil⟩
  by_contra hbuf
  obtain ⟨dropped, tail, -, -, heq⟩ := wraps_hint hbuf
  rw [hhint] at heq
  have hlength := congrArg String.length heq
  have hpos : 0 < " (stderr: ".length := by decide
  simp only [String.length_append, String.length_empty] at hlength
  omega

/-- The ring holds exactly the end of the log, however the log was cut into chunks, and
the hint the end of its text. -/
theorem ring_tail :
    (∀ chunks : List (List UInt8),
      (empty.pushAll chunks).buf <:+ chunks.flatten ∧
        (empty.pushAll chunks).buf.length = min chunks.flatten.length stderrRingBytes ∧
        ((empty.pushAll chunks).hint = "" ↔ chunks.flatten = [])) ∧
      (∀ chunks chunks' : List (List UInt8), chunks.flatten = chunks'.flatten →
        empty.pushAll chunks = empty.pushAll chunks') ∧
      (∀ reads, stderrTask empty reads = empty.pushAll (captured reads)) ∧
      ∀ ring : StderrRing, (ring.hint = "" ↔ ring.buf = []) ∧
        (ring.buf ≠ [] → Wraps (trim (decodeLossy ring.buf)) ring.hint) := by
  refine ⟨fun chunks => ?_, fun chunks chunks' hlog => ?_, stderrTask_eq empty, fun ring =>
    ⟨hint_eq_empty_iff, wraps_hint⟩⟩
  · have hlength := Window.length_rtake chunks.flatten stderrRingBytes
    rw [hint_eq_empty_iff, buf_pushAll_empty]
    refine ⟨Window.rtake_suffix _ _, hlength, ?_⟩
    have hpos : 0 < stderrRingBytes := by decide
    rw [← List.length_eq_zero_iff, ← List.length_eq_zero_iff, hlength]
    omega
  · apply StderrRing.ext
    rw [buf_pushAll_empty, buf_pushAll_empty, hlog]

end IntentumdiffLsp.Stderr
