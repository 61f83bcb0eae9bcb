import Mathlib.Data.List.TakeWhile
import Mathlib.Tactic.Ring

/-!
Numbers as decimal text: what is read back from digits, and what digits behind
a number do to it.
-/

namespace LabKernel.DecimalText

/-- `std::to_string`. -/
def toText (value : Int) : List UInt8 :=
  (if value < 0 then '-' :: Nat.toDigits 10 value.natAbs else Nat.toDigits 10 value.natAbs).map
    fun c => UInt8.ofNat c.toNat

/-- A character from `0` to `9`. -/
def IsDigit (b : UInt8) : Prop := 48 ≤ b ∧ b ≤ 57

instance (b : UInt8) : Decidable (IsDigit b) := inferInstanceAs (Decidable (_ ∧ _))

/-- The number that digits make behind a number. -/
def extend (number : Int) (digits : List UInt8) : Int :=
  digits.foldl (fun number b => number * 10 + b.toNat - 48) number

/-- Read digits up to the terminator, behind a number; there is no result if
another character comes first. -/
def readDigits (number : Int) : List UInt8 → Option Int
  | [] => some number
  | b :: rest =>
      if b = 0 then some number
      else if IsDigit b then readDigits (number * 10 + b.toNat - 48) rest
      else none

theorem extend_append (number : Int) (digits digits' : List UInt8) :
    extend number (digits ++ digits') = extend (extend number digits) digits' :=
  List.foldl_append

theorem extend_eq (number : Int) (digits : List UInt8) :
    extend number digits = number * 10 ^ digits.length + extend 0 digits := by
  induction digits generalizing number with
  | nil => simp [extend]
  | cons b rest ih =>
      have hstep : ∀ a, extend a (b :: rest) = extend (a * 10 + b.toNat - 48) rest := fun _ => rfl
      rw [hstep, hstep, ih, ih (0 * 10 + b.toNat - 48), List.length_cons]
      ring

theorem ne_zero_of_isDigit {b : UInt8} (h : IsDigit b) : b ≠ 0 := by
  rintro rfl
  exact absurd h.1 (by decide)

theorem readDigits_append {digits rest : List UInt8} (h : ∀ b ∈ digits, IsDigit b) (number : Int) :
    readDigits number (digits ++ rest) = readDigits (extend number digits) rest := by
  induction digits generalizing number with
  | nil => rfl
  | cons b digits ih =>
      have hb := h b List.mem_cons_self
      rw [List.cons_append, readDigits, if_neg (ne_zero_of_isDigit hb), if_pos hb]
      exact ih (fun b' hb' => h b' (List.mem_cons_of_mem b hb')) _

/-- The text up to the terminator. -/
def text (bytes : List UInt8) : List UInt8 := bytes.takeWhile fun b => b ≠ 0

theorem readDigits_text (number : Int) (bytes : List UInt8) :
    readDigits number bytes = readDigits number (text bytes) := by
  induction bytes generalizing number with
  | nil => rfl
  | cons b rest ih =>
      rcases eq_or_ne b 0 with rfl | hb
      · simp [text, readDigits]
      · have hcons : text (b :: rest) = b :: text rest := by simp [text, hb]
        rw [hcons, readDigits, readDigits, ih]

theorem zero_notMem_text (bytes : List UInt8) : ∀ b ∈ text bytes, b ≠ 0 := by
  intro b hb
  simpa using List.mem_takeWhile_imp hb

theorem readDigits_eq_some {bytes : List UInt8} {number number' : Int} :
    readDigits number bytes = some number' ↔
      (∀ b ∈ text bytes, IsDigit b) ∧ number' = extend number (text bytes) := by
  rw [readDigits_text]
  have hzero := zero_notMem_text bytes
  generalize text bytes = digits at hzero
  induction digits generalizing number with
  | nil => simp [readDigits, extend, eq_comm]
  | cons b rest ih =>
      have hb : b ≠ 0 := hzero b List.mem_cons_self
      have ih := @ih (number * 10 + b.toNat - 48) fun b' hb' =>
        hzero b' (List.mem_cons_of_mem b hb')
      rw [readDigits, if_neg hb]
      split
      next hdigit =>
        refine ih.trans ?_
        rw [List.forall_mem_cons]
        exact ⟨fun ⟨hall, heq⟩ => ⟨⟨hdigit, hall⟩, heq⟩, fun ⟨hall, heq⟩ => ⟨hall.2, heq⟩⟩
      next hnot =>
        exact ⟨nofun, fun ⟨hall, _⟩ => absurd (hall b List.mem_cons_self) hnot⟩

theorem toNat_ofNat_char {c : Char} (h : c.isDigit) :
    (UInt8.ofNat c.toNat).toNat = c.toNat ∧ 48 ≤ c.toNat ∧ c.toNat ≤ 57 := by
  have hbounds : 48 ≤ c.toNat ∧ c.toNat ≤ 57 := by
    simpa [Char.isDigit, UInt32.le_iff_toNat_le] using h
  refine ⟨?_, hbounds⟩
  rw [UInt8.toNat_ofNat']
  omega

theorem toText_of_nonneg {value : Int} (h : 0 ≤ value) :
    toText value = (Nat.toDigits 10 value.natAbs).map fun c => UInt8.ofNat c.toNat := by
  rw [toText, if_neg (not_lt.mpr h)]

theorem isDigit_of_mem_toText {value : Int} (h : 0 ≤ value) : ∀ b ∈ toText value, IsDigit b := by
  rw [toText_of_nonneg h]
  intro b hb
  obtain ⟨c, hc, rfl⟩ := List.mem_map.mp hb
  obtain ⟨heq, hlo, hhi⟩ :=
    toNat_ofNat_char (Nat.isDigit_of_mem_toDigits (by decide) (le_refl 10) hc)
  rw [IsDigit, UInt8.le_iff_toNat_le, UInt8.le_iff_toNat_le, heq]
  exact ⟨hlo, hhi⟩

/-- The text of a number reads as the number. -/
theorem extend_toText {value : Int} (h : 0 ≤ value) : extend 0 (toText value) = value := by
  have hfold : ∀ l : List Char, (∀ c ∈ l, c.isDigit) → ∀ n : Nat,
      extend n (l.map fun c => UInt8.ofNat c.toNat) = Nat.ofDigitChars 10 l n := by
    intro l
    induction l with
    | nil => exact fun _ _ => rfl
    | cons c rest ih =>
        intro hall n
        obtain ⟨heq, hlo, -⟩ := toNat_ofNat_char (hall c List.mem_cons_self)
        have hstep : (n : Int) * 10 + (UInt8.ofNat c.toNat).toNat - 48 =
            ((10 * n + (c.toNat - '0'.toNat) : Nat) : Int) := by
          have hzero : '0'.toNat = 48 := rfl
          rw [heq, hzero]
          omega
        rw [Nat.ofDigitChars_cons, ← ih (fun c' hc' => hall c' (List.mem_cons_of_mem c hc')),
          ← hstep]
        rfl
  rw [toText_of_nonneg h]
  refine (hfold _ (fun c hc => Nat.isDigit_of_mem_toDigits (by decide) (le_refl 10) hc) 0).trans ?_
  rw [Nat.ofDigitChars_ten_toDigits]
  omega

theorem length_toText_pos (value : Int) : 0 < (toText value).length := by
  rw [toText, List.length_map]
  split
  next => exact Nat.succ_pos _
  next => exact Nat.length_toDigits_pos

theorem length_toText_le {value : Int} (hlo : -10 ^ 9 < value) (hhi : value < 10 ^ 10) :
    (toText value).length ≤ 10 := by
  rw [toText, List.length_map]
  split
  next hneg =>
    have hlen := (Nat.length_toDigits_le_iff (n := value.natAbs) (k := 9) (b := 10) (by decide)
      (by decide)).mpr (by omega)
    exact Nat.succ_le_succ hlen
  next => exact (Nat.length_toDigits_le_iff (by decide) (by decide)).mpr (by omega)

end LabKernel.DecimalText
