import Mathlib.Algebra.Ring.Int.Defs
import Mathlib.Algebra.Ring.Nat
import Mathlib.Data.Nat.Log
import Mathlib.Tactic.Common

/-!
Double-precision floats by their bits: conversion of integers, and the sign.
-/

namespace Foundations

structure Binary64 where
  bits : UInt64
  deriving DecidableEq

namespace Binary64

/-- The significand of a positive integer, rounded to nearest with ties to even. A carry
out of it runs into the exponent. -/
def significand (n : Nat) : Nat :=
  let e := Nat.log2 n
  if e ≤ 52 then n * 2 ^ (52 - e)
  else
    let unit := 2 ^ (e - 52)
    let q := n / unit
    let r := n % unit
    if unit < 2 * r ∨ (unit = 2 * r ∧ q % 2 = 1) then q + 1 else q

def natBits (n : Nat) : Nat :=
  if n = 0 then 0 else (1022 + Nat.log2 n) * 2 ^ 52 + significand n

/-- The cast `as f64` of an integer of at most 64 bits. -/
def ofInt (n : Int) : Binary64 :=
  ⟨UInt64.ofNat ((if n < 0 then 2 ^ 63 else 0) + natBits n.natAbs)⟩

def isNaN (x : Binary64) : Bool :=
  2047 * 2 ^ 52 < x.bits.toNat % 2 ^ 63

/-- The comparison `x <= 0.0`, which is false of a NaN. -/
def leZero (x : Binary64) : Bool :=
  !x.isNaN && (x.bits.toNat == 0 || 2 ^ 63 ≤ x.bits.toNat)

/-- A number above zero: neither a zero nor a NaN, and without the sign bit. -/
def Positive (x : Binary64) : Prop :=
  0 < x.bits.toNat ∧ x.bits.toNat ≤ 2047 * 2 ^ 52

instance (x : Binary64) : Decidable x.Positive :=
  inferInstanceAs (Decidable (_ ∧ _))

theorem significand_le (n : Nat) : significand n ≤ 2 ^ 53 := by
  have hlog : n < 2 ^ (Nat.log2 n + 1) := Nat.lt_log2_self
  unfold significand
  dsimp only
  split
  · rename_i he
    calc n * 2 ^ (52 - Nat.log2 n)
        ≤ 2 ^ (Nat.log2 n + 1) * 2 ^ (52 - Nat.log2 n) := Nat.mul_le_mul_right _ hlog.le
      _ = 2 ^ 53 := by rw [← Nat.pow_add]; congr 1; omega
  · rename_i he
    have hquotient : n / 2 ^ (Nat.log2 n - 52) < 2 ^ 53 := by
      rw [Nat.div_lt_iff_lt_mul (Nat.two_pow_pos _), ← Nat.pow_add]
      refine hlog.trans_le (Nat.pow_le_pow_right (by decide) ?_)
      omega
    split
    · exact hquotient
    · exact hquotient.le

theorem natBits_bounds {n : Nat} (hn : n ≠ 0) (hfits : n < 2 ^ 64) :
    0 < natBits n ∧ natBits n ≤ 2047 * 2 ^ 52 := by
  have hsignificand := significand_le n
  have hlog : Nat.log2 n < 64 := (Nat.log2_lt hn).mpr hfits
  rw [natBits, if_neg hn]
  constructor
  · omega
  · omega

theorem natBits_le {n : Nat} (hfits : n < 2 ^ 64) : natBits n ≤ 2047 * 2 ^ 52 := by
  rcases eq_or_ne n 0 with rfl | hn
  · decide
  · exact (natBits_bounds hn hfits).2

theorem not_leZero {x : Binary64} (hnumber : x.isNaN = false) :
    x.leZero = false ↔ x.Positive := by
  rw [leZero, hnumber, Positive]
  simp only [isNaN, decide_eq_false_iff_not] at hnumber
  simp only [Bool.not_false, Bool.true_and, Bool.or_eq_false_iff, beq_eq_false_iff_ne,
    decide_eq_false_iff_not]
  have hbound := x.bits.toNat_lt
  omega

theorem ofInt_bits {n : Int} (hlow : -2 ^ 63 ≤ n) (hhigh : n < 2 ^ 64) :
    (ofInt n).bits.toNat = (if n < 0 then 2 ^ 63 else 0) + natBits n.natAbs := by
  have hbits := natBits_le (n := n.natAbs) (by omega)
  apply UInt64.toNat_ofNat_of_lt'
  change _ < 2 ^ 64
  split <;> omega

theorem isNaN_ofInt {n : Int} (hlow : -2 ^ 63 ≤ n) (hhigh : n < 2 ^ 64) :
    (ofInt n).isNaN = false := by
  have hbits := natBits_le (n := n.natAbs) (by omega)
  rw [isNaN, ofInt_bits hlow hhigh, decide_eq_false_iff_not]
  split <;> omega

theorem positive_ofInt {n : Int} (hlow : -2 ^ 63 ≤ n) (hhigh : n < 2 ^ 64) :
    (ofInt n).Positive ↔ 0 < n := by
  rw [Positive, ofInt_bits hlow hhigh]
  rcases lt_trichotomy n 0 with hneg | rfl | hpos
  · rw [if_pos hneg]
    omega
  · decide
  · have hbounds := natBits_bounds (n := n.natAbs) (by omega) (by omega)
    rw [if_neg (by omega), Nat.zero_add]
    exact ⟨fun _ => hpos, fun _ => hbounds⟩

end Binary64

end Foundations
