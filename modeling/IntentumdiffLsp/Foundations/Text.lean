import IntentumdiffLsp.Foundations.Utf8
import Mathlib.Algebra.Ring.Int.Defs
import Mathlib.Algebra.Ring.Nat
import Mathlib.Data.List.DropRight

namespace Foundations.Text

open Foundations.Utf8

/-- The Unicode property `White_Space`. -/
def isWhitespace (c : Char) : Bool :=
  let n := c.toNat
  (0x09 ≤ n && n ≤ 0x0D) || n == 0x20 || n == 0x85 || n == 0xA0 || n == 0x1680 ||
    (0x2000 ≤ n && n ≤ 0x200A) || n == 0x2028 || n == 0x2029 || n == 0x202F ||
    n == 0x205F || n == 0x3000

def trim (s : List Char) : List Char :=
  (s.dropWhile isWhitespace).rdropWhile isWhitespace

/-- The text before and after the first occurrence of `sep`. -/
def splitOnce (sep : Char) : List Char → Option (List Char × List Char)
  | [] => none
  | c :: s =>
      if c = sep then some ([], s)
      else (splitOnce sep s).map fun p => (c :: p.1, p.2)

def eqIgnoreAsciiCase (s t : List Char) : Bool :=
  s.map Char.toLower == t.map Char.toLower

def parseDigits (s : List Char) : Option Nat :=
  if s ≠ [] ∧ s.all Char.isDigit = true then some (Nat.ofDigitChars 10 s 0) else none

/-- A decimal integer with an optional sign that fits 64 bits. -/
def parseI64 : List Char → Option Int
  | '-' :: s => (parseDigits s).bind fun n => if n ≤ 2 ^ 63 then some (-(n : Int)) else none
  | '+' :: s => (parseDigits s).bind fun n => if n < 2 ^ 63 then some (n : Int) else none
  | s => (parseDigits s).bind fun n => if n < 2 ^ 63 then some (n : Int) else none

def decimal (n : Nat) : List Char :=
  Nat.toDigits 10 n

theorem splitOnce_append {sep : Char} {s : List Char} (hs : sep ∉ s) (t : List Char) :
    splitOnce sep (s ++ sep :: t) = some (s, t) := by
  induction s with
  | nil => simp [splitOnce]
  | cons c s ih =>
      simp only [List.mem_cons, not_or] at hs
      rw [List.cons_append, splitOnce, if_neg (Ne.symm hs.1), ih hs.2]
      rfl

theorem trim_eq_self {s : List Char} (hs : ∀ c ∈ s, isWhitespace c = false) : trim s = s := by
  have hfront : s.dropWhile isWhitespace = s := by
    cases s with
    | nil => rfl
    | cons c s => rw [List.dropWhile_cons, hs c (by simp)]; rfl
  rw [trim, hfront, List.rdropWhile_eq_self_iff]
  intro hne
  rw [hs _ (List.getLast_mem hne)]
  exact Bool.false_ne_true

theorem trim_cons_whitespace {c : Char} (hc : isWhitespace c = true) (s : List Char) :
    trim (c :: s) = trim s := by
  rw [trim, List.dropWhile_cons, hc, trim]
  rfl

theorem isDigit_ascii {c : Char} (hc : c.isDigit = true) : 0x30 ≤ c.toNat ∧ c.toNat ≤ 0x39 := by
  simp only [Char.isDigit, Bool.and_eq_true, decide_eq_true_eq] at hc
  exact hc

theorem isDigit_not_whitespace {c : Char} (hc : c.isDigit = true) : isWhitespace c = false := by
  obtain ⟨hlow, hhigh⟩ := isDigit_ascii hc
  simp only [isWhitespace]
  grind

theorem mem_decimal {n : Nat} {c : Char} (hc : c ∈ decimal n) : c.isDigit = true :=
  Nat.isDigit_of_mem_toDigits (by decide) (by decide) hc

theorem parseDigits_decimal (n : Nat) : parseDigits (decimal n) = some n := by
  rw [parseDigits, if_pos]
  · exact congrArg some Nat.ofDigitChars_ten_toDigits
  · exact ⟨Nat.toDigits_ne_nil, List.all_eq_true.mpr fun c hc => mem_decimal hc⟩

theorem parseI64_decimal {n : Nat} (hn : n < 2 ^ 63) : parseI64 (decimal n) = some (n : Int) := by
  have hparse := parseDigits_decimal n
  have hmem : ∀ c ∈ decimal n, c.isDigit = true := fun c hc => mem_decimal hc
  cases hd : decimal n with
  | nil => exact absurd hd Nat.toDigits_ne_nil
  | cons c s =>
      rw [hd] at hparse hmem
      have hc := hmem c (by simp)
      have hminus : c ≠ '-' := by rintro rfl; exact absurd hc (by decide)
      have hplus : c ≠ '+' := by rintro rfl; exact absurd hc (by decide)
      rw [parseI64.eq_3 _ (by simpa using fun h => absurd h hminus)
        (by simpa using fun h => absurd h hplus), hparse]
      exact if_pos hn

theorem parseI64_lt {s : List Char} {n : Int} (h : parseI64 s = some n) : n < 2 ^ 63 := by
  unfold parseI64 at h
  split at h
  all_goals
    obtain ⟨m, -, hm⟩ := Option.bind_eq_some_iff.mp h
    split at hm
    · cases hm
      omega
    · cases hm

/-- Text of ASCII characters occupies one byte per character. -/
theorem encode_ascii {s : List Char} (hs : ∀ c ∈ s, c.toNat < 0x80) :
    encode s = s.map fun c => UInt8.ofNat c.toNat := by
  induction s with
  | nil => rfl
  | cons c s ih =>
      rw [encode_cons, utf8EncodeChar_ascii (hs c (by simp)),
        ih fun d hd => hs d (by simp [hd])]
      rfl

end Foundations.Text
