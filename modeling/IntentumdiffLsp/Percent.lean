import IntentumdiffLsp.Naming

/-!
The loop of `percent_decode`, and that it inverts every way to escape a text.
-/

namespace IntentumdiffLsp.Percent

open Foundations.Utf8
open IntentumdiffLsp.UriPath
open IntentumdiffLsp.Naming

section Loop

/-- One round of the loop; a read behind the end of the bytes panics. -/
inductive Round where
  | finished
  | again (i : Nat) (out : List UInt8)
  | panicked

def round (bytes : List UInt8) (i : Nat) (out : List UInt8) : Round :=
  if i < bytes.length then
    match bytes[i]? with
    | none => .panicked
    | some b =>
        if b = 0x25 ∧ i + 2 < bytes.length then
          match bytes[i + 1]?, bytes[i + 2]? with
          | some h, some l =>
              match hexDigit h, hexDigit l with
              | some hi, some lo => .again (i + 3) (out ++ [hi * 16 + lo])
              | _, _ => .again (i + 1) (out ++ [b])
          | _, _ => .panicked
        else .again (i + 1) (out ++ [b])
  else .finished

/-- The bytes after at most so many rounds, if the loop has ended without a panic. -/
def rounds (bytes : List UInt8) : Nat → Nat → List UInt8 → Option (List UInt8)
  | 0, _, _ => none
  | fuel + 1, i, out =>
      match round bytes i out with
      | .finished => some out
      | .again i out => rounds bytes fuel i out
      | .panicked => none

/-- The bytes begin with two hexadecimal digits. -/
def Digits (rest : List UInt8) : Prop :=
  ∃ h l tail, rest = h :: l :: tail ∧ (hexDigit h).isSome = true ∧ (hexDigit l).isSome = true

theorem percentBytes_plain {b : UInt8} {rest : List UInt8} (h : b = 0x25 → ¬Digits rest) :
    percentBytes (b :: rest) = b :: percentBytes rest := by
  rcases rest with _ | ⟨h1, _ | ⟨l, rest⟩⟩
  · rfl
  · rfl
  · rw [percentBytes]
    split
    · rename_i hi lo hsign hhigh hlow
      exact absurd ⟨h1, l, rest, rfl, by simp [hhigh], by simp [hlow]⟩ (h (beq_iff_eq.mp hsign))
    · rfl

theorem escape_or_plain (b : UInt8) (rest : List UInt8) :
    (∃ h l hi lo tail, b = 0x25 ∧ rest = h :: l :: tail ∧ hexDigit h = some hi ∧
        hexDigit l = some lo) ∨ (b = 0x25 → ¬Digits rest) := by
  rw [or_iff_not_imp_right, not_forall]
  rintro ⟨hsign, hdigits⟩
  obtain ⟨h, l, tail, hrest, hhigh, hlow⟩ := not_not.mp hdigits
  obtain ⟨hi, hhigh⟩ := Option.isSome_iff_exists.mp hhigh
  obtain ⟨lo, hlow⟩ := Option.isSome_iff_exists.mp hlow
  exact ⟨h, l, hi, lo, tail, hsign, hrest, hhigh, hlow⟩

theorem getElem?_behind (front rest : List UInt8) (k : Nat) :
    (front ++ rest)[front.length + k]? = rest[k]? := by
  rw [List.getElem?_append_right (Nat.le_add_right _ _), Nat.add_sub_cancel_left]

theorem round_end (front out : List UInt8) : round front front.length out = .finished :=
  if_neg (Nat.lt_irrefl _)

theorem round_escape {h l hi lo : UInt8} (hhigh : hexDigit h = some hi)
    (hlow : hexDigit l = some lo) (front tail out : List UInt8) :
    round (front ++ 0x25 :: h :: l :: tail) front.length out =
      .again (front.length + 3) (out ++ [hi * 16 + lo]) := by
  have hread := getElem?_behind front (0x25 :: h :: l :: tail)
  have hfirst := hread 0
  have hlong : front.length + 2 < (front ++ 0x25 :: h :: l :: tail).length := by simp
  rw [Nat.add_zero] at hfirst
  rw [round, if_pos (by omega), hfirst, hread 1, hread 2]
  dsimp only [List.getElem?_cons_zero, List.getElem?_cons_succ]
  rw [if_pos ⟨rfl, hlong⟩, hhigh, hlow]

/-- The look-ahead stays inside: two bytes are read only if there are two. -/
theorem round_plain {b : UInt8} {rest : List UInt8} (h : b = 0x25 → ¬Digits rest)
    (front out : List UInt8) :
    round (front ++ b :: rest) front.length out = .again (front.length + 1) (out ++ [b]) := by
  have hread := getElem?_behind front (b :: rest)
  have hfirst := hread 0
  rw [Nat.add_zero] at hfirst
  rw [round, if_pos (by simp), hfirst, hread 1, hread 2]
  dsimp only [List.getElem?_cons_zero]
  split
  · rename_i hahead
    obtain ⟨hsign, hlong⟩ := hahead
    rcases rest with _ | ⟨d, _ | ⟨d', tail⟩⟩
    · simp at hlong
    · simp at hlong
    dsimp only [List.getElem?_cons_zero, List.getElem?_cons_succ]
    split
    · rename_i hi lo hhigh hlow
      exact absurd ⟨d, d', tail, rfl, by simp [hhigh], by simp [hlow]⟩ (h hsign)
    · rfl
  · rfl

/-- The loop computes what the recursion over the bytes does. -/
theorem rounds_eq {fuel : Nat} {front rest : List UInt8} (out : List UInt8)
    (hfuel : rest.length < fuel) :
    rounds (front ++ rest) fuel front.length out = some (out ++ percentBytes rest) := by
  induction fuel generalizing front rest out with
  | zero => omega
  | succ fuel ih =>
      rw [rounds]
      rcases rest with _ | ⟨b, rest⟩
      · rw [List.append_nil, round_end]
        exact congrArg some (List.append_nil out).symm
      rw [List.length_cons] at hfuel
      rcases escape_or_plain b rest with ⟨h, l, hi, lo, tail, rfl, rfl, hhigh, hlow⟩ | hplain
      · have hfront : front ++ 0x25 :: h :: l :: tail = (front ++ [0x25, h, l]) ++ tail := by simp
        have hlength : front.length + 3 = (front ++ [0x25, h, l]).length := by simp
        simp only [List.length_cons] at hfuel
        rw [round_escape hhigh hlow, percentBytes_escape hhigh hlow, hfront, hlength]
        dsimp only
        rw [ih _ (by omega), List.append_assoc]
        rfl
      · have hfront : front ++ b :: rest = (front ++ [b]) ++ rest := by simp
        have hlength : front.length + 1 = (front ++ [b]).length := by simp
        rw [round_plain hplain, percentBytes_plain hplain, hfront, hlength]
        dsimp only
        rw [ih _ (by omega), List.append_assoc]
        rfl

end Loop

section Encoding

/-- A byte is written as itself, if it is ASCII and not the sign of an escape, or escaped
with digits of either case. -/
inductive Writes : List UInt8 → UInt8 → Prop where
  | itself (b : UInt8) : b.toNat < 0x80 → b ≠ 0x25 → Writes [b] b
  | escape (high low : Fin 16) (h l : UInt8) : h ∈ hexDigits high → l ∈ hexDigits low →
      Writes [0x25, h, l] (UInt8.ofNat (16 * high + low))

def Escapes (text s : List Char) : Prop :=
  ∃ pieces, List.Forall₂ Writes pieces (encode s) ∧ encode text = pieces.flatten

theorem percentBytes_pieces {pieces : List (List UInt8)} {bytes : List UInt8}
    (h : List.Forall₂ Writes pieces bytes) : percentBytes pieces.flatten = bytes := by
  induction h with
  | nil => rfl
  | cons hwrites _ ih =>
      rw [List.flatten_cons]
      cases hwrites with
      | itself b _ hsign => exact (percentBytes_literal hsign _).trans (congrArg _ ih)
      | escape high low h l hh hl =>
          exact (percentBytes_escaped high low hh hl _).trans (congrArg _ ih)

/-- No sign is followed by two digits. -/
def Unescaped (bytes : List UInt8) : Prop :=
  ∀ front rest, bytes = front ++ 0x25 :: rest → ¬Digits rest

theorem percentBytes_unescaped {bytes : List UInt8} (h : Unescaped bytes) :
    percentBytes bytes = bytes := by
  induction bytes with
  | nil => rfl
  | cons b rest ih =>
      have hplain : b = 0x25 → ¬Digits rest := by
        rintro rfl
        exact h [] rest rfl
      have hrest : Unescaped rest := fun front back heq => h (b :: front) back (by rw [heq]; rfl)
      rw [percentBytes_plain hplain, ih hrest]

/-- A sign is no digit, so decoding can be cut in front of it. -/
theorem percentBytes_append_sign (front rest : List UInt8) :
    percentBytes (front ++ 0x25 :: rest) = percentBytes front ++ percentBytes (0x25 :: rest) := by
  induction hlen : front.length using Nat.strongRecOn generalizing front with
  | ind len ih =>
      subst hlen
      rcases front with _ | ⟨b, front⟩
      · rfl
      rcases escape_or_plain b front with ⟨h, l, hi, lo, tail, rfl, rfl, hhigh, hlow⟩ | hplain
      · have hlt : tail.length < (0x25 :: h :: l :: tail : List UInt8).length := by
          simp only [List.length_cons]
          omega
        have hcons := congrArg ((hi * 16 + lo) :: ·) (ih _ hlt tail rfl)
        rw [percentBytes_escape hhigh hlow]
        exact (percentBytes_escape hhigh hlow _).trans hcons
      · have hcut : b = 0x25 → ¬Digits (front ++ 0x25 :: rest) := by
          rintro hsign ⟨h, l, tail, heq, hhigh, hlow⟩
          rcases front with _ | ⟨d, _ | ⟨d', front⟩⟩
          · cases heq
            cases hhigh
          · cases heq
            cases hlow
          · cases heq
            exact hplain hsign ⟨h, l, front, rfl, hhigh, hlow⟩
        rw [List.cons_append, percentBytes_plain hcut, percentBytes_plain hplain,
          ih front.length (Nat.lt_succ_self _) front rfl]
        rfl

/-- What an escape stands for is not looked at again. -/
theorem percentBytes_single_pass (high low : Fin 16) {h l : UInt8} (hh : h ∈ hexDigits high)
    (hl : l ∈ hexDigits low) (front rest : List UInt8) :
    percentBytes (front ++ 0x25 :: h :: l :: rest) =
      percentBytes front ++ UInt8.ofNat (16 * high + low) :: percentBytes rest := by
  rw [percentBytes_append_sign, percentBytes_escaped high low hh hl]

theorem percentDecode_sign (front rest : List Char) :
    percentDecode (front ++ '%' :: '2' :: '5' :: rest) =
      percentDecode front ++ '%' :: percentDecode rest := by
  have hencode : encode (front ++ '%' :: '2' :: '5' :: rest) =
      encode front ++ 0x25 :: 0x32 :: 0x35 :: encode rest := by
    rw [encode_append]
    rfl
  rw [percentDecode, hencode, percentBytes_single_pass 2 5 (by decide) (by decide)]
  exact decodeLossy_append_ascii _ (by decide) _

/-- Decoding inverts every way to escape a text, leaves a text without escapes alone,
looks at nothing twice, and its loop ends after at most one round a byte and one more,
without a read behind the end. -/
theorem percentDecode_inverts :
    (∀ text s, Escapes text s → percentDecode text = s) ∧
      (∀ s, Unescaped (encode s) → percentDecode s = s) ∧
      (∀ (high low : Fin 16), ∀ h ∈ hexDigits high, ∀ l ∈ hexDigits low, ∀ front rest,
        percentBytes (front ++ 0x25 :: h :: l :: rest) =
          percentBytes front ++ UInt8.ofNat (16 * high + low) :: percentBytes rest) ∧
      (∀ front rest, percentDecode (front ++ '%' :: '2' :: '5' :: rest) =
        percentDecode front ++ '%' :: percentDecode rest) ∧
      ∀ bytes fuel, bytes.length < fuel → rounds bytes fuel 0 [] = some (percentBytes bytes) := by
  refine ⟨?_, fun s h => ?_, ?_, percentDecode_sign, fun bytes fuel hfuel => ?_⟩
  · rintro text s ⟨pieces, hwrites, htext⟩
    rw [percentDecode, htext, percentBytes_pieces hwrites, decodeLossy_encode]
  · rw [percentDecode, percentBytes_unescaped h, decodeLossy_encode]
  · exact fun high low h hh l hl => percentBytes_single_pass high low hh hl
  · exact @rounds_eq fuel [] bytes [] hfuel

end Encoding

end IntentumdiffLsp.Percent
