import Mathlib.Data.List.Basic
import Mathlib.Tactic.Common

namespace Foundations.Utf8

def encode (s : List Char) : List UInt8 :=
  s.flatMap String.utf8EncodeChar

@[simp] theorem encode_nil : encode [] = [] := rfl

@[simp] theorem encode_cons (c : Char) (s : List Char) :
    encode (c :: s) = String.utf8EncodeChar c ++ encode s := rfl

@[simp] theorem encode_append (s t : List Char) :
    encode (s ++ t) = encode s ++ encode t :=
  List.flatMap_append

theorem length_encode_toList (s : String) : (encode s.toList).length = s.utf8ByteSize := by
  conv_rhs =>
    rw [← String.ofList_toList (s := s), ← String.size_toByteArray, String.toByteArray_ofList]
  rw [List.utf8Encode, List.size_toByteArray]
  rfl

/-- U+FFFD, which stands in for every malformed sequence. -/
def replacement : Char := '\uFFFD'

def isContinuation (b : UInt8) : Bool :=
  0x80 ≤ b.toNat && b.toNat ≤ 0xBF

/-- How a lead byte constrains its sequence: the number of bytes and the
interval in which the second byte has to lie. Overlong forms, surrogates and
code points above U+10FFFF are excluded by the second byte. -/
structure Lead where
  width : Nat
  low : Nat
  high : Nat
  deriving DecidableEq, Repr

def lead (b : UInt8) : Option Lead :=
  let n := b.toNat
  if 0xC2 ≤ n ∧ n ≤ 0xDF then some ⟨2, 0x80, 0xBF⟩
  else if n = 0xE0 then some ⟨3, 0xA0, 0xBF⟩
  else if n = 0xED then some ⟨3, 0x80, 0x9F⟩
  else if 0xE1 ≤ n ∧ n ≤ 0xEF then some ⟨3, 0x80, 0xBF⟩
  else if n = 0xF0 then some ⟨4, 0x90, 0xBF⟩
  else if n = 0xF4 then some ⟨4, 0x80, 0x8F⟩
  else if 0xF1 ≤ n ∧ n ≤ 0xF3 then some ⟨4, 0x80, 0xBF⟩
  else none

/-- Lossy decoding: a well-formed sequence becomes its character, and each
maximal ill-formed subpart becomes one U+FFFD. -/
def decodeLossy : List UInt8 → List Char
  | [] => []
  | b0 :: rest0 =>
      if b0.toNat < 0x80 then Char.ofNat b0.toNat :: decodeLossy rest0
      else
        match lead b0, rest0 with
        | none, rest0 => replacement :: decodeLossy rest0
        | some _, [] => [replacement]
        | some l, b1 :: rest1 =>
            if ¬(l.low ≤ b1.toNat ∧ b1.toNat ≤ l.high) then
              replacement :: decodeLossy (b1 :: rest1)
            else if l.width = 2 then
              Char.ofNat (b0.toNat % 32 * 64 + b1.toNat % 64) :: decodeLossy rest1
            else
              match rest1 with
              | [] => [replacement]
              | b2 :: rest2 =>
                  if ¬isContinuation b2 then replacement :: decodeLossy (b2 :: rest2)
                  else if l.width = 3 then
                    Char.ofNat (b0.toNat % 16 * 4096 + b1.toNat % 64 * 64 + b2.toNat % 64) ::
                      decodeLossy rest2
                  else
                    match rest2 with
                    | [] => [replacement]
                    | b3 :: rest3 =>
                        if ¬isContinuation b3 then replacement :: decodeLossy (b3 :: rest3)
                        else
                          Char.ofNat (b0.toNat % 8 * 262144 + b1.toNat % 64 * 4096 +
                            b2.toNat % 64 * 64 + b3.toNat % 64) :: decodeLossy rest3

example : decodeLossy [0x61, 0xE2, 0x82, 0xAC, 0xE2, 0x82, 0x62] = ['a', '€', '\uFFFD', 'b'] := by
  decide

theorem decodeLossy_ascii {b : UInt8} (hb : b.toNat < 0x80) (rest : List UInt8) :
    decodeLossy (b :: rest) = Char.ofNat b.toNat :: decodeLossy rest := by
  rw [decodeLossy.eq_def]
  simp [hb]

theorem decodeLossy_two {b0 b1 : UInt8} {l : Lead} (h0 : ¬b0.toNat < 0x80)
    (hl : lead b0 = some l) (hw : l.width = 2)
    (h1 : l.low ≤ b1.toNat ∧ b1.toNat ≤ l.high) (rest : List UInt8) :
    decodeLossy (b0 :: b1 :: rest) =
      Char.ofNat (b0.toNat % 32 * 64 + b1.toNat % 64) :: decodeLossy rest := by
  rw [decodeLossy.eq_def]
  simp [h0, hl, h1, hw]

theorem decodeLossy_three {b0 b1 b2 : UInt8} {l : Lead} (h0 : ¬b0.toNat < 0x80)
    (hl : lead b0 = some l) (hw : l.width = 3)
    (h1 : l.low ≤ b1.toNat ∧ b1.toNat ≤ l.high) (h2 : isContinuation b2 = true)
    (rest : List UInt8) :
    decodeLossy (b0 :: b1 :: b2 :: rest) =
      Char.ofNat (b0.toNat % 16 * 4096 + b1.toNat % 64 * 64 + b2.toNat % 64) ::
        decodeLossy rest := by
  rw [decodeLossy.eq_def]
  simp [h0, hl, h1, hw, h2]

theorem decodeLossy_four {b0 b1 b2 b3 : UInt8} {l : Lead} (h0 : ¬b0.toNat < 0x80)
    (hl : lead b0 = some l) (hw : l.width = 4)
    (h1 : l.low ≤ b1.toNat ∧ b1.toNat ≤ l.high) (h2 : isContinuation b2 = true)
    (h3 : isContinuation b3 = true) (rest : List UInt8) :
    decodeLossy (b0 :: b1 :: b2 :: b3 :: rest) =
      Char.ofNat (b0.toNat % 8 * 262144 + b1.toNat % 64 * 4096 +
        b2.toNat % 64 * 64 + b3.toNat % 64) :: decodeLossy rest := by
  rw [decodeLossy.eq_def]
  simp [h0, hl, h1, hw, h2, h3]

theorem toNat_ofNat_of_lt {n : Nat} (hn : n < 256) : (UInt8.ofNat n).toNat = n := by
  simp only [UInt8.toNat_ofNat']
  omega

theorem isContinuation_ofNat {n : Nat} (hn : n < 64) :
    isContinuation (UInt8.ofNat (n + 0x80)) = true := by
  rw [isContinuation, toNat_ofNat_of_lt (by omega)]
  simp only [Bool.and_eq_true, decide_eq_true_eq]
  omega

theorem utf8EncodeChar_ascii {c : Char} (hc : c.toNat < 0x80) :
    String.utf8EncodeChar c = [UInt8.ofNat c.toNat] := by
  have hv : c.val.toNat ≤ 0x7f := Nat.le_of_lt_succ hc
  rw [String.utf8EncodeChar]
  exact if_pos hv

theorem decodeLossy_form_two {v : Nat} (hlow : 0x80 ≤ v) (hhigh : v < 0x800) (rest : List UInt8) :
    decodeLossy (UInt8.ofNat (v / 64 % 32 + 0xc0) :: UInt8.ofNat (v % 64 + 0x80) :: rest) =
      Char.ofNat v :: decodeLossy rest := by
  have h0 : (UInt8.ofNat (v / 64 % 32 + 0xc0)).toNat = v / 64 + 0xc0 := by
    rw [toNat_ofNat_of_lt (by omega)]
    omega
  have h1 : (UInt8.ofNat (v % 64 + 0x80)).toNat = v % 64 + 0x80 :=
    toNat_ofNat_of_lt (by omega)
  have hl : lead (UInt8.ofNat (v / 64 % 32 + 0xc0)) = some ⟨2, 0x80, 0xBF⟩ := by
    simp only [lead, h0]
    rw [if_pos (by omega)]
  have hcode : (v / 64 + 0xc0) % 32 * 64 + (v % 64 + 0x80) % 64 = v := by omega
  rw [decodeLossy_two (by omega) hl rfl (by simp only [h1]; omega), h0, h1, hcode]

theorem decodeLossy_form_three {v : Nat} (hlow : 0x800 ≤ v) (hhigh : v < 0x10000)
    (hvalid : v < 0xd800 ∨ 0xdfff < v) (rest : List UInt8) :
    decodeLossy (UInt8.ofNat (v / 4096 % 16 + 0xe0) :: UInt8.ofNat (v / 64 % 64 + 0x80) ::
        UInt8.ofNat (v % 64 + 0x80) :: rest) = Char.ofNat v :: decodeLossy rest := by
  have h0 : (UInt8.ofNat (v / 4096 % 16 + 0xe0)).toNat = v / 4096 + 0xe0 := by
    rw [toNat_ofNat_of_lt (by omega)]
    omega
  have h1 : (UInt8.ofNat (v / 64 % 64 + 0x80)).toNat = v / 64 % 64 + 0x80 :=
    toNat_ofNat_of_lt (by omega)
  have h2 : (UInt8.ofNat (v % 64 + 0x80)).toNat = v % 64 + 0x80 :=
    toNat_ofNat_of_lt (by omega)
  -- The lead bytes E0 and ED narrow the second byte, against overlong forms and surrogates.
  have hl : ∃ l, lead (UInt8.ofNat (v / 4096 % 16 + 0xe0)) = some l ∧ l.width = 3 ∧
      l.low ≤ v / 64 % 64 + 0x80 ∧ v / 64 % 64 + 0x80 ≤ l.high := by
    simp only [lead, h0]
    rw [if_neg (by omega)]
    split
    · exact ⟨_, rfl, rfl, by simp only; omega, by simp only; omega⟩
    split
    · exact ⟨_, rfl, rfl, by simp only; omega, by simp only; omega⟩
    rw [if_pos (by omega)]
    exact ⟨_, rfl, rfl, by simp only; omega, by simp only; omega⟩
  obtain ⟨l, hl, hw, hlow, hhigh⟩ := hl
  have hcode : (v / 4096 + 0xe0) % 16 * 4096 + (v / 64 % 64 + 0x80) % 64 * 64 +
      (v % 64 + 0x80) % 64 = v := by omega
  rw [decodeLossy_three (by omega) hl hw (by rw [h1]; exact ⟨hlow, hhigh⟩)
    (isContinuation_ofNat (by omega)), h0, h1, h2, hcode]

theorem decodeLossy_form_four {v : Nat} (hlow : 0x10000 ≤ v) (hhigh : v < 0x110000)
    (rest : List UInt8) :
    decodeLossy (UInt8.ofNat (v / 262144 % 8 + 0xf0) :: UInt8.ofNat (v / 4096 % 64 + 0x80) ::
        UInt8.ofNat (v / 64 % 64 + 0x80) :: UInt8.ofNat (v % 64 + 0x80) :: rest) =
      Char.ofNat v :: decodeLossy rest := by
  have h0 : (UInt8.ofNat (v / 262144 % 8 + 0xf0)).toNat = v / 262144 + 0xf0 := by
    rw [toNat_ofNat_of_lt (by omega)]
    omega
  have h1 : (UInt8.ofNat (v / 4096 % 64 + 0x80)).toNat = v / 4096 % 64 + 0x80 :=
    toNat_ofNat_of_lt (by omega)
  have h2 : (UInt8.ofNat (v / 64 % 64 + 0x80)).toNat = v / 64 % 64 + 0x80 :=
    toNat_ofNat_of_lt (by omega)
  have h3 : (UInt8.ofNat (v % 64 + 0x80)).toNat = v % 64 + 0x80 :=
    toNat_ofNat_of_lt (by omega)
  have hl : ∃ l, lead (UInt8.ofNat (v / 262144 % 8 + 0xf0)) = some l ∧ l.width = 4 ∧
      l.low ≤ v / 4096 % 64 + 0x80 ∧ v / 4096 % 64 + 0x80 ≤ l.high := by
    simp only [lead, h0]
    rw [if_neg (by omega), if_neg (by omega), if_neg (by omega), if_neg (by omega)]
    split
    · exact ⟨_, rfl, rfl, by simp only; omega, by simp only; omega⟩
    split
    · exact ⟨_, rfl, rfl, by simp only; omega, by simp only; omega⟩
    rw [if_pos (by omega)]
    exact ⟨_, rfl, rfl, by simp only; omega, by simp only; omega⟩
  obtain ⟨l, hl, hw, hlow, hhigh⟩ := hl
  have hcode : (v / 262144 + 0xf0) % 8 * 262144 + (v / 4096 % 64 + 0x80) % 64 * 4096 +
      (v / 64 % 64 + 0x80) % 64 * 64 + (v % 64 + 0x80) % 64 = v := by omega
  rw [decodeLossy_four (by omega) hl hw (by rw [h1]; exact ⟨hlow, hhigh⟩)
    (isContinuation_ofNat (by omega)) (isContinuation_ofNat (by omega)), h0, h1, h2, h3, hcode]

theorem decodeLossy_utf8EncodeChar (c : Char) (rest : List UInt8) :
    decodeLossy (String.utf8EncodeChar c ++ rest) = c :: decodeLossy rest := by
  have hvalid := c.valid
  simp only [UInt32.isValidChar, Nat.isValidChar] at hvalid
  have hofNat : Char.ofNat c.val.toNat = c := Char.ofNat_toNat c
  unfold String.utf8EncodeChar
  generalize c.val.toNat = v at hvalid hofNat ⊢
  rw [← hofNat]
  simp only
  split
  · have hv : (UInt8.ofNat v).toNat = v := toNat_ofNat_of_lt (by omega)
    rw [List.singleton_append, decodeLossy_ascii (by omega), hv]
  split
  · exact decodeLossy_form_two (by omega) (by omega) rest
  split
  · exact decodeLossy_form_three (by omega) (by omega) (by omega) rest
  · exact decodeLossy_form_four (by omega) (by omega) rest

theorem decodeLossy_encode_append (s : List Char) (rest : List UInt8) :
    decodeLossy (encode s ++ rest) = s ++ decodeLossy rest := by
  induction s with
  | nil => rfl
  | cons c s ih =>
      rw [encode_cons, List.append_assoc, decodeLossy_utf8EncodeChar, ih]
      rfl

@[simp] theorem decodeLossy_encode (s : List Char) : decodeLossy (encode s) = s := by
  simpa [decodeLossy] using decodeLossy_encode_append s []

theorem encode_injective : Function.Injective encode :=
  Function.LeftInverse.injective decodeLossy_encode

theorem encode_ne_nil {s : List Char} (h : s ≠ []) : encode s ≠ [] :=
  fun hnil => h (encode_injective hnil)

/-- The bytes encode a text. -/
def IsUtf8 (bs : List UInt8) : Prop :=
  encode (decodeLossy bs) = bs

instance (bs : List UInt8) : Decidable (IsUtf8 bs) :=
  inferInstanceAs (Decidable (encode (decodeLossy bs) = bs))

theorem isUtf8_encode (s : List Char) : IsUtf8 (encode s) := by
  rw [IsUtf8, decodeLossy_encode]

theorem IsUtf8.append {bs cs : List UInt8} (hbs : IsUtf8 bs) (hcs : IsUtf8 cs) :
    IsUtf8 (bs ++ cs) := by
  rw [← hbs, ← hcs, ← encode_append]
  exact isUtf8_encode _

theorem not_isContinuation_ascii {b : UInt8} (hb : b.toNat < 0x80) :
    isContinuation b = false := by
  rw [isContinuation, decide_eq_false (by omega), Bool.false_and]

theorem lead_low {b : UInt8} {l : Lead} (hl : lead b = some l) : 0x80 ≤ l.low := by
  unfold lead at hl
  grind

/-- An ASCII byte never belongs to the sequence before it, so decoding can be
cut in front of it. -/
theorem decodeLossy_append_ascii (bs : List UInt8) {b : UInt8} (hb : b.toNat < 0x80)
    (rest : List UInt8) :
    decodeLossy (bs ++ b :: rest) = decodeLossy bs ++ Char.ofNat b.toNat :: decodeLossy rest := by
  have hcont := not_isContinuation_ascii hb
  have hascii := decodeLossy_ascii hb rest
  fun_induction decodeLossy bs with
  | case1 => exact hascii
  | case2 b0 rest0 h0 ih =>
      rw [List.cons_append, decodeLossy_ascii h0, ih]
      rfl
  | case3 b0 h0 rest0 hl ih =>
      rw [List.cons_append, decodeLossy.eq_def]
      simp [h0, hl, ih]
  | case4 b0 h0 l hl =>
      have hlow := lead_low hl
      have hout : ¬(l.low ≤ b.toNat ∧ b.toNat ≤ l.high) := by omega
      rw [List.cons_append, List.nil_append, decodeLossy.eq_def]
      simp only [h0, if_false, hl, hout, not_false_eq_true, if_true, hascii, List.cons_append,
        List.nil_append]
  | case5 b0 h0 l b1 rest1 hl hout ih =>
      rw [List.cons_append, List.cons_append, decodeLossy.eq_def]
      simp only [h0, if_false, hl, hout, not_false_eq_true, if_true]
      rw [← List.cons_append, ih, List.cons_append]
  | case6 b0 h0 l b1 rest1 hl h1 hw ih =>
      rw [List.cons_append, List.cons_append,
        decodeLossy_two h0 hl hw (not_not.mp h1), ih, List.cons_append]
  | case7 b0 h0 l b1 hl h1 hw =>
      rw [List.cons_append, List.cons_append, List.nil_append, decodeLossy.eq_def]
      simp only [h0, if_false, hl, h1, hw, hcont, Bool.false_eq_true, not_false_eq_true,
        if_true, hascii, List.cons_append, List.nil_append]
  | case8 b0 h0 l b1 hl h1 hw b2 rest2 h2 ih =>
      rw [List.cons_append, List.cons_append, List.cons_append, decodeLossy.eq_def]
      simp only [h0, if_false, hl, h1, hw, h2, Bool.false_eq_true, not_false_eq_true, if_true]
      rw [← List.cons_append, ih, List.cons_append]
  | case9 b0 h0 l b1 hl h1 hw b2 rest2 h2 hw3 ih =>
      rw [List.cons_append, List.cons_append, List.cons_append,
        decodeLossy_three h0 hl hw3 (not_not.mp h1) (not_not.mp h2), ih, List.cons_append]
  | case10 b0 h0 l b1 hl h1 hw b2 h2 hw3 =>
      rw [List.cons_append, List.cons_append, List.cons_append, List.nil_append,
        decodeLossy.eq_def]
      simp only [h0, if_false, hl, h1, hw, h2, hw3, hcont, Bool.false_eq_true,
        not_false_eq_true, if_true, hascii, List.cons_append, List.nil_append]
  | case11 b0 h0 l b1 hl h1 hw b2 h2 hw3 b3 rest3 h3 ih =>
      rw [List.cons_append, List.cons_append, List.cons_append, List.cons_append,
        decodeLossy.eq_def]
      simp only [h0, if_false, hl, h1, hw, h2, hw3, h3, Bool.false_eq_true, not_false_eq_true,
        if_true]
      rw [← List.cons_append, ih, List.cons_append]
  | case12 b0 h0 l b1 hl h1 hw b2 h2 hw3 b3 rest3 h3 ih =>
      rw [List.cons_append, List.cons_append, List.cons_append, List.cons_append,
        decodeLossy.eq_def]
      simp only [h0, if_false, hl, h1, hw, h2, hw3, h3, ih, List.cons_append]

theorem toNat_charOfNat {n : Nat} (hn : n.isValidChar) : (Char.ofNat n).toNat = n := by
  rw [Char.ofNat, dif_pos hn]
  rfl

theorem replacement_not_ascii : 0x80 ≤ replacement.toNat := by
  decide

theorem assembled_two {b0 b1 : UInt8} {l : Lead} (hl : lead b0 = some l) (hw : l.width = 2) :
    0x80 ≤ (Char.ofNat (b0.toNat % 32 * 64 + b1.toNat % 64)).toNat := by
  have hrange : 0xC2 ≤ b0.toNat ∧ b0.toNat ≤ 0xDF := by
    unfold lead at hl
    grind
  rw [toNat_charOfNat (Or.inl (by omega))]
  omega

theorem assembled_three {b0 b1 b2 : UInt8} {l : Lead} (hl : lead b0 = some l)
    (hw : l.width = 3) (h1 : l.low ≤ b1.toNat ∧ b1.toNat ≤ l.high) :
    0x80 ≤ (Char.ofNat (b0.toNat % 16 * 4096 + b1.toNat % 64 * 64 + b2.toNat % 64)).toNat := by
  have hrange : 0xE0 ≤ b0.toNat ∧ b0.toNat ≤ 0xEF ∧ (b0.toNat = 0xE0 → 0xA0 ≤ b1.toNat) ∧
      (b0.toNat = 0xED → b1.toNat ≤ 0x9F) ∧ 0x80 ≤ b1.toNat ∧ b1.toNat ≤ 0xBF := by
    simp only [lead] at hl
    split_ifs at hl <;> cases hl <;> simp only at hw h1 <;> omega
  have hvalid : (b0.toNat % 16 * 4096 + b1.toNat % 64 * 64 + b2.toNat % 64).isValidChar := by
    unfold Nat.isValidChar
    omega
  rw [toNat_charOfNat hvalid]
  omega

theorem assembled_four {b0 b1 b2 b3 : UInt8} {l : Lead} (hl : lead b0 = some l)
    (hw2 : l.width ≠ 2) (hw3 : l.width ≠ 3) (h1 : l.low ≤ b1.toNat ∧ b1.toNat ≤ l.high) :
    0x80 ≤ (Char.ofNat (b0.toNat % 8 * 262144 + b1.toNat % 64 * 4096 +
      b2.toNat % 64 * 64 + b3.toNat % 64)).toNat := by
  have hrange : 0xF0 ≤ b0.toNat ∧ b0.toNat ≤ 0xF4 ∧ (b0.toNat = 0xF0 → 0x90 ≤ b1.toNat) ∧
      (b0.toNat = 0xF4 → b1.toNat ≤ 0x8F) ∧ 0x80 ≤ b1.toNat ∧ b1.toNat ≤ 0xBF := by
    simp only [lead] at hl
    split_ifs at hl <;> cases hl <;> simp only at hw2 hw3 h1 <;> omega
  have hvalid : (b0.toNat % 8 * 262144 + b1.toNat % 64 * 4096 +
      b2.toNat % 64 * 64 + b3.toNat % 64).isValidChar := by
    unfold Nat.isValidChar
    omega
  rw [toNat_charOfNat hvalid]
  omega

/-- The first decoded character either stands for one ASCII byte or is not
ASCII itself; decoding goes on at a later position. -/
theorem decodeLossy_cons (b0 : UInt8) (rest : List UInt8) :
    (b0.toNat < 0x80 ∧ decodeLossy (b0 :: rest) = Char.ofNat b0.toNat :: decodeLossy rest) ∨
      ∃ c rest', 0x80 ≤ c.toNat ∧ rest' <:+ rest ∧
        decodeLossy (b0 :: rest) = c :: decodeLossy rest' := by
  by_cases h0 : b0.toNat < 0x80
  · exact Or.inl ⟨h0, decodeLossy_ascii h0 rest⟩
  right
  rw [decodeLossy.eq_def]
  simp only [h0, if_false]
  split
  · exact ⟨_, _, replacement_not_ascii, List.suffix_refl _, rfl⟩
  · exact ⟨_, [], replacement_not_ascii, List.suffix_refl _, rfl⟩
  rename_i l b1 rest1 hl
  split
  · exact ⟨_, _, replacement_not_ascii, List.suffix_refl _, rfl⟩
  rename_i h1
  replace h1 := not_not.mp h1
  split
  · rename_i hw
    exact ⟨_, rest1, assembled_two hl hw, ⟨[b1], rfl⟩, rfl⟩
  rename_i hw2
  split
  · exact ⟨_, [], replacement_not_ascii, ⟨[b1], rfl⟩, rfl⟩
  rename_i b2 rest2
  split
  · exact ⟨_, _, replacement_not_ascii, ⟨[b1], rfl⟩, rfl⟩
  split
  · rename_i hw3
    exact ⟨_, rest2, assembled_three hl hw3 h1, ⟨[b1, b2], rfl⟩, rfl⟩
  rename_i hw3
  split
  · exact ⟨_, [], replacement_not_ascii, ⟨[b1, b2], rfl⟩, rfl⟩
  rename_i b3 rest3
  split
  · exact ⟨_, _, replacement_not_ascii, ⟨[b1, b2], rfl⟩, rfl⟩
  · exact ⟨_, rest3, assembled_four hl hw2 hw3 h1, ⟨[b1, b2, b3], rfl⟩, rfl⟩

@[simp] theorem decodeLossy_isEmpty (bs : List UInt8) : (decodeLossy bs).isEmpty = bs.isEmpty := by
  cases bs with
  | nil => rfl
  | cons b0 rest =>
      rcases decodeLossy_cons b0 rest with ⟨-, heq⟩ | ⟨c, rest', -, -, heq⟩ <;> rw [heq] <;> rfl

theorem ofNat_toNat_charOfNat {b : UInt8} (hb : b.toNat < 0x80) :
    UInt8.ofNat (Char.ofNat b.toNat).toNat = b := by
  rw [toNat_charOfNat (Or.inl (by omega)), UInt8.ofNat_toNat]

/-- Decoding creates no ASCII character: each one stands for its own byte. -/
theorem mem_of_mem_decodeLossy {bs : List UInt8} {c : Char} (hc : c.toNat < 0x80)
    (h : c ∈ decodeLossy bs) : UInt8.ofNat c.toNat ∈ bs := by
  induction hn : bs.length using Nat.strongRecOn generalizing bs with
  | ind n ih =>
      subst hn
      cases bs with
      | nil => simp [decodeLossy] at h
      | cons b0 rest =>
          rcases decodeLossy_cons b0 rest with ⟨h0, heq⟩ | ⟨d, rest', hd, hsuffix, heq⟩
          · rw [heq, List.mem_cons] at h
            rcases h with rfl | h
            · rw [ofNat_toNat_charOfNat h0]
              exact List.mem_cons_self
            · exact List.mem_cons_of_mem _ (ih rest.length (by simp) h rfl)
          · rw [heq, List.mem_cons] at h
            rcases h with rfl | h
            · omega
            · have hlt : rest'.length < (b0 :: rest).length :=
                Nat.lt_succ_of_le hsuffix.length_le
              exact List.mem_cons_of_mem _ (hsuffix.subset (ih _ hlt h rfl))

theorem eq_encode_of_decodeLossy_ascii {bs : List UInt8}
    (h : ∀ c ∈ decodeLossy bs, c.toNat < 0x80) : bs = encode (decodeLossy bs) := by
  induction bs with
  | nil => rfl
  | cons b0 rest ih =>
      rcases decodeLossy_cons b0 rest with ⟨h0, heq⟩ | ⟨d, rest', hd, -, heq⟩
      · have hhead : (Char.ofNat b0.toNat).toNat < 0x80 := h _ (by simp [heq])
        have htail : ∀ c ∈ decodeLossy rest, c.toNat < 0x80 :=
          fun c hc => h c (by simp [heq, hc])
        rw [heq, encode_cons, utf8EncodeChar_ascii hhead, ofNat_toNat_charOfNat h0, ← ih htail]
        rfl
      · have := h d (by simp [heq])
        omega

/-- Cutting a byte string at an ASCII separator and then decoding is the same
as decoding first. -/
theorem splitOn_decodeLossy (bs : List UInt8) {sep : UInt8} (hsep : sep.toNat < 0x80) :
    (decodeLossy bs).splitOn (Char.ofNat sep.toNat) = (bs.splitOn sep).map decodeLossy := by
  have hchar : (Char.ofNat sep.toNat).toNat < 0x80 := by
    rwa [toNat_charOfNat (Or.inl (by omega))]
  induction hn : bs.length using Nat.strongRecOn generalizing bs with
  | ind n ih =>
      subst hn
      by_cases hmem : sep ∈ bs
      · obtain ⟨front, back, rfl, hfront⟩ := List.eq_append_cons_of_mem hmem
        have hfront' : Char.ofNat sep.toNat ∉ decodeLossy front := fun h =>
          hfront (ofNat_toNat_charOfNat hsep ▸ mem_of_mem_decodeLossy hchar h)
        have hlt : back.length < (front ++ sep :: back).length := by
          simp only [List.length_append, List.length_cons]
          omega
        rw [decodeLossy_append_ascii _ hsep,
          List.splitOn_append_cons_self_of_not_mem hfront,
          List.splitOn_append_cons_self_of_not_mem hfront', ih _ hlt back rfl]
        rfl
      · have hmem' : Char.ofNat sep.toNat ∉ decodeLossy bs := fun h =>
          hmem (ofNat_toNat_charOfNat hsep ▸ mem_of_mem_decodeLossy hchar h)
        rw [List.splitOn_eq_singleton hmem, List.splitOn_eq_singleton hmem']
        rfl

theorem mem_of_mem_encode {s : List Char} {b : UInt8} (hb : b.toNat < 0x80) (h : b ∈ encode s) :
    Char.ofNat b.toNat ∈ s := by
  obtain ⟨front, back, heq⟩ := List.append_of_mem h
  rw [← decodeLossy_encode s, heq, decodeLossy_append_ascii _ hb]
  exact List.mem_append_right _ List.mem_cons_self

theorem encode_charOfNat {b : UInt8} (hb : b.toNat < 0x80) (s : List Char) :
    encode (Char.ofNat b.toNat :: s) = b :: encode s := by
  have hchar : (Char.ofNat b.toNat).toNat < 0x80 := by
    rwa [toNat_charOfNat (Or.inl (by omega))]
  rw [encode_cons, utf8EncodeChar_ascii hchar, ofNat_toNat_charOfNat hb]
  rfl

/-- In front of a text, an ASCII byte ends a text. -/
theorem isUtf8_append_ascii {bs cs : List UInt8} {b : UInt8} (hb : b.toNat < 0x80)
    (hcs : IsUtf8 cs) : IsUtf8 (bs ++ b :: cs) ↔ IsUtf8 bs := by
  rw [IsUtf8, IsUtf8, decodeLossy_append_ascii bs hb, encode_append, encode_charOfNat hb, hcs]
  exact List.append_left_inj _

theorem splitOn_encode (s : List Char) {sep : UInt8} (hsep : sep.toNat < 0x80) :
    (encode s).splitOn sep = (s.splitOn (Char.ofNat sep.toNat)).map encode := by
  induction hn : s.length using Nat.strongRecOn generalizing s with
  | ind n ih =>
      subst hn
      by_cases hmem : Char.ofNat sep.toNat ∈ s
      · obtain ⟨front, back, rfl, hfront⟩ := List.eq_append_cons_of_mem hmem
        have hfront' : sep ∉ encode front := fun h => hfront (mem_of_mem_encode hsep h)
        have hlt : back.length < (front ++ Char.ofNat sep.toNat :: back).length := by
          simp only [List.length_append, List.length_cons]
          omega
        rw [encode_append, encode_charOfNat hsep, List.splitOn_append_cons_self_of_not_mem hfront,
          List.splitOn_append_cons_self_of_not_mem hfront', ih _ hlt back rfl]
        rfl
      · have hmem' : sep ∉ encode s := fun h => hmem (mem_of_mem_encode hsep h)
        rw [List.splitOn_eq_singleton hmem, List.splitOn_eq_singleton hmem']
        rfl

end Foundations.Utf8
