import Mathlib.Data.Nat.Bitwise
import Mathlib.Data.Nat.Log
import Mathlib.Tactic.NormNum

/-!
The arithmetic of `kalloc.cpp`: `CeilPower2`, which rounds a 64-bit size up to
a power of two by smearing its leading bit, and the loop `log2`.
-/

namespace LabKernel.Rounding

/-- `x |= x >> k`. -/
def smear (x k : Nat) : Nat := x ||| x >>> k

/-- `CeilPower2` on 64-bit words, the same in `kalloc.cpp` and in the
`memory.c` of the user library. -/
def ceilPower2 (x : Nat) : Nat :=
  let x := (x + 2 ^ 64 - 1) % 2 ^ 64
  let x := smear x 1
  let x := smear x 2
  let x := smear x 4
  let x := smear x 8
  let x := smear x 16
  let x := smear x 32
  (x + 1) % 2 ^ 64

/-- The loop `while (x >>= 1) res++`, which ends after at most 63 rounds. -/
def log2Loop : Nat → Nat → Nat → Nat
  | 0, _, res => res
  | fuel + 1, x, res =>
      if x >>> 1 = 0 then res else log2Loop fuel (x >>> 1) (res + 1)

/-- `log2` on 64-bit words. -/
def log2 (x : Nat) : Nat := log2Loop 64 x 0

theorem log2Loop_eq (fuel x res : Nat) (hx : x < 2 ^ fuel) :
    log2Loop fuel x res = res + Nat.log 2 x := by
  induction fuel generalizing x res with
  | zero =>
      have hzero : x = 0 := by simpa using hx
      simp [log2Loop, hzero]
  | succ fuel ih =>
      simp only [log2Loop, Nat.shiftRight_one]
      split
      · next hsmall =>
          have hlt : x < 2 := by omega
          simp [Nat.log_of_lt hlt]
      · next hlarge =>
          have hhalf : x / 2 < 2 ^ fuel := by
            rw [pow_succ] at hx
            omega
          have hlog : Nat.log 2 x = Nat.log 2 (x / 2) + 1 :=
            Nat.log_of_one_lt_of_le (by norm_num) (by omega)
          rw [ih (x / 2) (res + 1) hhalf, hlog]
          omega

theorem log2_eq (x : Nat) (hx : x < 2 ^ 64) : log2 x = Nat.log 2 x := by
  simp [log2, log2Loop_eq 64 x 0 hx]

theorem log2_pow (e : Nat) (he : e < 64) : log2 (2 ^ e) = e := by
  rw [log2_eq _ (Nat.pow_lt_pow_right (by norm_num) he), Nat.log_pow (by norm_num)]

/-- `z` has a bit set exactly where one of the next `m` bits of `y`, counted
upwards from that position, is set. -/
def Smeared (y m z : Nat) : Prop :=
  ∀ i, z.testBit i = true ↔ ∃ j < m, y.testBit (i + j) = true

theorem smeared_one (y : Nat) : Smeared y 1 y := by
  intro i
  constructor
  · intro h
    exact ⟨0, by omega, h⟩
  · rintro ⟨j, hj, h⟩
    have hzero : j = 0 := by omega
    simpa [hzero] using h

theorem smeared_double {y m z : Nat} (h : Smeared y m z) : Smeared y (2 * m) (smear z m) := by
  intro i
  rw [smear, Nat.testBit_or, Nat.testBit_shiftRight, Bool.or_eq_true, h, h]
  constructor
  · rintro (⟨j, hj, hbit⟩ | ⟨j, hj, hbit⟩)
    · exact ⟨j, by omega, hbit⟩
    · exact ⟨m + j, by omega, by rwa [show i + (m + j) = m + i + j by omega]⟩
  · rintro ⟨j, hj, hbit⟩
    by_cases hlow : j < m
    · exact Or.inl ⟨j, hlow, hbit⟩
    · exact Or.inr ⟨j - m, by omega, by rwa [show m + i + (j - m) = i + j by omega]⟩

theorem eq_of_smeared {y z e : Nat} (hlow : 2 ^ e ≤ y) (hhigh : y < 2 ^ (e + 1)) (he : e < 64)
    (h : Smeared y 64 z) : z = 2 ^ (e + 1) - 1 := by
  apply Nat.eq_of_testBit_eq
  intro i
  rw [Nat.testBit_two_pow_sub_one]
  apply Bool.eq_iff_iff.mpr
  rw [h i, decide_eq_true_eq]
  constructor
  · rintro ⟨j, _, hbit⟩
    by_contra hge
    have hlt : y < 2 ^ (i + j) :=
      lt_of_lt_of_le hhigh (Nat.pow_le_pow_right (by norm_num) (by omega))
    simp [Nat.testBit_lt_two_pow hlt] at hbit
  · intro hi
    refine ⟨e - i, by omega, ?_⟩
    rw [show i + (e - i) = e by omega]
    exact Nat.testBit_of_two_pow_le_and_two_pow_add_one_gt hlow hhigh

theorem smear_all (y : Nat) :
    Smeared y 64 (smear (smear (smear (smear (smear (smear y 1) 2) 4) 8) 16) 32) :=
  smeared_double (smeared_double (smeared_double (smeared_double (smeared_double
    (smeared_double (smeared_one y))))))

theorem ceilPower2_of_le {x e : Nat} (hlow : 2 ^ e < x) (hhigh : x ≤ 2 ^ (e + 1))
    (he : e < 63) : ceilPower2 x = 2 ^ (e + 1) := by
  have hpow : 2 ^ (e + 1) ≤ 2 ^ 63 := Nat.pow_le_pow_right (by norm_num) (by omega)
  have hdec : (x + 2 ^ 64 - 1) % 2 ^ 64 = x - 1 := by
    have hsum : x + 2 ^ 64 - 1 = (x - 1) + 2 ^ 64 := by omega
    rw [hsum, Nat.add_mod_right, Nat.mod_eq_of_lt (by omega)]
  have hall := eq_of_smeared (show 2 ^ e ≤ x - 1 by omega) (show x - 1 < 2 ^ (e + 1) by omega)
    (by omega) (smear_all (x - 1))
  simp only [ceilPower2, hdec, hall]
  rw [Nat.sub_add_cancel Nat.one_le_two_pow, Nat.mod_eq_of_lt (by omega)]

theorem ceilPower2_of_gt {x : Nat} (hlow : 2 ^ 63 < x) (hhigh : x < 2 ^ 64) :
    ceilPower2 x = 0 := by
  have hdec : (x + 2 ^ 64 - 1) % 2 ^ 64 = x - 1 := by
    have hsum : x + 2 ^ 64 - 1 = (x - 1) + 2 ^ 64 := by omega
    rw [hsum, Nat.add_mod_right, Nat.mod_eq_of_lt (by omega)]
  have hall := eq_of_smeared (show 2 ^ 63 ≤ x - 1 by omega) (show x - 1 < 2 ^ (63 + 1) by omega)
    (by omega) (smear_all (x - 1))
  simp only [ceilPower2, hdec, hall]
  norm_num

theorem ceilPower2_one : ceilPower2 1 = 1 := by decide

theorem ceilPower2_spec (x : Nat) (hlow : 1 ≤ x) (hhigh : x ≤ 2 ^ 63) :
    ∃ e ≤ 63, ceilPower2 x = 2 ^ e ∧ x ≤ 2 ^ e ∧ ∀ d, x ≤ 2 ^ d → e ≤ d := by
  rcases Nat.eq_or_lt_of_le hlow with hone | hmore
  · exact ⟨0, by omega, by rw [← hone]; exact ceilPower2_one, by omega, by omega⟩
  · have hpos : x - 1 ≠ 0 := by omega
    have hbelow : 2 ^ Nat.log 2 (x - 1) ≤ x - 1 := Nat.pow_log_le_self 2 hpos
    have habove : x - 1 < 2 ^ (Nat.log 2 (x - 1) + 1) := Nat.lt_pow_succ_log_self (by norm_num) _
    have hsmall : Nat.log 2 (x - 1) < 63 :=
      Nat.log_lt_of_lt_pow hpos (by omega)
    refine ⟨Nat.log 2 (x - 1) + 1, by omega,
      ceilPower2_of_le (by omega) (by omega) hsmall, by omega, ?_⟩
    intro d hd
    have hlt : 2 ^ Nat.log 2 (x - 1) < 2 ^ d := by omega
    exact (Nat.pow_lt_pow_iff_right (by norm_num)).mp hlt

theorem ceilPower2_zero : ceilPower2 0 = 0 := by decide

theorem ceilPower2_cases (x : Nat) (hx : x < 2 ^ 64) :
    ceilPower2 x = 0 ∨ ∃ e ≤ 63, ceilPower2 x = 2 ^ e := by
  rcases Nat.eq_zero_or_pos x with rfl | hpos
  · exact Or.inl ceilPower2_zero
  · rcases Nat.lt_or_ge (2 ^ 63) x with hgt | hle
    · exact Or.inl (ceilPower2_of_gt hgt hx)
    · obtain ⟨e, he, hceil, -⟩ := ceilPower2_spec x hpos hle
      exact Or.inr ⟨e, he, hceil⟩

theorem pow_div_pow (e b : Nat) : 2 ^ e / 2 ^ b = 0 ∨ ∃ k, 2 ^ e / 2 ^ b = 2 ^ k := by
  rcases Nat.lt_or_ge e b with hlt | hge
  · exact Or.inl (Nat.div_eq_of_lt (Nat.pow_lt_pow_right (by norm_num) hlt))
  · exact Or.inr ⟨e - b, Nat.pow_div hge (by norm_num)⟩

theorem pow_le_units_mul (e b : Nat) : 2 ^ e ≤ max (2 ^ e / 2 ^ b) 1 * 2 ^ b := by
  rcases Nat.lt_or_ge e b with hlt | hge
  · have hpow : 2 ^ e ≤ 2 ^ b := Nat.pow_le_pow_right (by norm_num) hlt.le
    calc 2 ^ e ≤ 1 * 2 ^ b := by rwa [Nat.one_mul]
      _ ≤ max (2 ^ e / 2 ^ b) 1 * 2 ^ b := Nat.mul_le_mul_right _ (Nat.le_max_right ..)
  · calc 2 ^ e = 2 ^ e / 2 ^ b * 2 ^ b := (Nat.div_mul_cancel (pow_dvd_pow 2 hge)).symm
      _ ≤ max (2 ^ e / 2 ^ b) 1 * 2 ^ b := Nat.mul_le_mul_right _ (Nat.le_max_left ..)

/-- The size is rounded up to the power of two with exponent `e`, which is a
number of batches that holds it for both sizes of the batches. -/
structure RoundsTo (x e : Nat) : Prop where
  ceil : ceilPower2 x = 2 ^ e
  le : x ≤ 2 ^ e
  least : ∀ d, x ≤ 2 ^ d → 2 ^ e ≤ 2 ^ d
  log : log2 (ceilPower2 x) = e
  units : ∀ batch, batch = 128 ∨ batch = 4096 →
    (ceilPower2 x / batch = 0 ∨ ∃ k, ceilPower2 x / batch = 2 ^ k) ∧
      x ≤ max (ceilPower2 x / batch) 1 * batch

/-- Every size up to `2 ^ 63` is rounded up as the allocators rely on. -/
theorem ceilPower2_rounds (x : Nat) (hlow : 1 ≤ x) (hhigh : x ≤ 2 ^ 63) :
    ∃ e ≤ 63, RoundsTo x e := by
  obtain ⟨e, he, hceil, hle, hleast⟩ := ceilPower2_spec x hlow hhigh
  have hbatch : ∀ b, (ceilPower2 x / 2 ^ b = 0 ∨ ∃ k, ceilPower2 x / 2 ^ b = 2 ^ k) ∧
      x ≤ max (ceilPower2 x / 2 ^ b) 1 * 2 ^ b := by
    intro b
    rw [hceil]
    exact ⟨pow_div_pow e b, hle.trans (pow_le_units_mul e b)⟩
  refine ⟨e, he, hceil, hle, fun d hd => ?_, ?_, ?_⟩
  · exact Nat.pow_le_pow_right (by norm_num) (hleast d hd)
  · rw [hceil, log2_pow e (by omega)]
  · rintro batch (rfl | rfl)
    · exact hbatch 7
    · exact hbatch 12

theorem page_and_byte_rounds : ∃ e ≤ 63, RoundsTo 4097 e :=
  ceilPower2_rounds 4097 (by norm_num) (by norm_num)

end LabKernel.Rounding
