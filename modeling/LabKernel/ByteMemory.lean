import Mathlib.Tactic.Ring
import Mathlib.Data.Nat.Bitwise

/-!
Areas of bytes, the copying of bytes between them, little-endian numbers in
them and bits in them.
-/

namespace LabKernel.ByteMemory

/-- An area of memory, indexed from its first byte. -/
abbrev Bytes : Type := Nat → UInt8

def zeros : Bytes := fun _ => 0

/-- `memcpy` of `length` bytes of `src`, from position `start` on, to position
`position` of `dest`. -/
def copy (dest : Bytes) (position : Nat) (src : Bytes) (start length : Nat) : Bytes := fun i =>
  if position ≤ i ∧ i < position + length then src (start + (i - position)) else dest i

/-- The number in `width` bytes from `position` on, least byte first. -/
def getNat (d : Bytes) (position : Nat) : Nat → Nat
  | 0 => 0
  | width + 1 => (d position).toNat + 256 * getNat d (position + 1) width

/-- The bytes of a number, least byte first. -/
def natBytes (n : Nat) : Bytes := fun i => UInt8.ofNat (n / 256 ^ i)

def get16 (d : Bytes) (position : Nat) : UInt16 := UInt16.ofNat (getNat d position 2)
def get32 (d : Bytes) (position : Nat) : UInt32 := UInt32.ofNat (getNat d position 4)

/-- A store of a 32-bit number. -/
def put32 (d : Bytes) (position : Nat) (n : UInt32) : Bytes :=
  copy d position (natBytes n.toNat) 0 4

/-- The string from `position` on up to its terminator, at most `limit` bytes. -/
def cString (d : Bytes) (position : Nat) : Nat → List UInt8
  | 0 => []
  | limit + 1 =>
      if d position = 0 then [] else d position :: cString d (position + 1) limit

/-- The bytes of a list, followed by zeros. -/
def listBytes (l : List UInt8) : Bytes := fun i => l.getD i 0

variable {d d' src : Bytes} {position position' start length width i : Nat}

theorem copy_inside (h : position ≤ i) (h' : i < position + length) :
    copy d position src start length i = src (start + (i - position)) :=
  if_pos ⟨h, h'⟩

theorem copy_outside (h : i < position ∨ position + length ≤ i) :
    copy d position src start length i = d i :=
  if_neg (by omega)

theorem getNat_congr (h : ∀ i < width, d (position + i) = d' (position' + i)) :
    getNat d position width = getNat d' position' width := by
  induction width generalizing position position' with
  | zero => rfl
  | succ width ih =>
      have hfirst := h 0 (by omega)
      have hrest := @ih (position + 1) (position' + 1) fun i hi => by
        have := h (i + 1) (by omega)
        rwa [← Nat.add_assoc, ← Nat.add_assoc, Nat.add_right_comm, Nat.add_right_comm position']
          at this
      simp only [getNat, hrest]
      rw [show d position = d' position' from hfirst]

theorem getNat_natBytes (n shift width : Nat) :
    getNat (natBytes n) shift width = n / 256 ^ shift % 256 ^ width := by
  induction width generalizing shift with
  | zero => simp [getNat, Nat.mod_one]
  | succ width ih =>
      simp only [getNat, ih, natBytes, UInt8.toNat_ofNat']
      rw [pow_succ 256 shift, ← Nat.div_div_eq_div_mul, pow_succ 256 width, mul_comm (256 ^ width)]
      rw [Nat.mod_mul]

theorem get32_congr (h : ∀ i < 4, d (position + i) = d' (position' + i)) :
    get32 d position = get32 d' position' := by
  rw [get32, get32, getNat_congr h]

theorem get16_congr (h : ∀ i < 2, d (position + i) = d' (position' + i)) :
    get16 d position = get16 d' position' := by
  rw [get16, get16, getNat_congr h]

/-- Four bytes that are those of `n` read as `n`. -/
theorem get32_eq {n : UInt32} (h : ∀ i < 4, d (position + i) = natBytes n.toNat i) :
    get32 d position = n := by
  have hbytes : getNat d position 4 = getNat (natBytes n.toNat) 0 4 :=
    getNat_congr fun i hi => by rw [h i hi, Nat.zero_add]
  rw [get32, hbytes, getNat_natBytes]
  have := n.toNat_lt
  rw [show n.toNat / 256 ^ 0 % 256 ^ 4 = n.toNat by omega, UInt32.ofNat_toNat]

theorem get16_eq {n : UInt16} (h : ∀ i < 2, d (position + i) = natBytes n.toNat i) :
    get16 d position = n := by
  have hbytes : getNat d position 2 = getNat (natBytes n.toNat) 0 2 :=
    getNat_congr fun i hi => by rw [h i hi, Nat.zero_add]
  rw [get16, hbytes, getNat_natBytes]
  have := n.toNat_lt
  rw [show n.toNat / 256 ^ 0 % 256 ^ 2 = n.toNat by omega, UInt16.ofNat_toNat]

theorem get32_zeros (position : Nat) : get32 zeros position = 0 := by
  simp [get32, getNat, zeros]

theorem get32_put32_self (d : Bytes) (position : Nat) (n : UInt32) :
    get32 (put32 d position n) position = n := by
  refine get32_eq fun i hi => ?_
  rw [put32, copy_inside (by omega) (by omega)]
  congr 1
  omega

theorem get32_put32_of_ne (d : Bytes) (n : UInt32)
    (h : position' + 4 ≤ position ∨ position + 4 ≤ position') :
    get32 (put32 d position n) position' = get32 d position' :=
  get32_congr fun _ _ => copy_outside (by omega)

theorem put32_outside {n : UInt32} (h : i < position ∨ position + 4 ≤ i) :
    put32 d position n i = d i :=
  copy_outside h

theorem cString_congr {limit : Nat} (h : ∀ i < limit, d (position + i) = d' (position' + i)) :
    cString d position limit = cString d' position' limit := by
  induction limit generalizing position position' with
  | zero => rfl
  | succ limit ih =>
      have hfirst : d position = d' position' := h 0 (by omega)
      have hrest := @ih (position + 1) (position' + 1) fun i hi => by
        have := h (i + 1) (by omega)
        rwa [← Nat.add_assoc, ← Nat.add_assoc, Nat.add_right_comm, Nat.add_right_comm position']
          at this
      simp only [cString, hrest, hfirst]

theorem cString_listBytes {l : List UInt8} {limit shift : Nat} (hl : l.length < limit + shift)
    (hzero : ∀ x ∈ l, x ≠ 0) : cString (listBytes l) shift limit = l.drop shift := by
  induction limit generalizing shift with
  | zero => simp [cString, List.drop_eq_nil_of_le (show l.length ≤ shift by omega)]
  | succ limit ih =>
      by_cases hshift : shift < l.length
      · have hget : listBytes l shift = l[shift] := by simp [listBytes, hshift]
        have hne : listBytes l shift ≠ 0 := hget ▸ hzero _ (List.getElem_mem hshift)
        rw [List.drop_eq_getElem_cons hshift, ← hget,
          ← ih (show l.length < limit + (shift + 1) by omega)]
        exact if_neg hne
      · have hget : listBytes l shift = 0 := by simp [listBytes, hshift]
        rw [List.drop_eq_nil_of_le (show l.length ≤ shift by omega)]
        exact if_pos hget

/-- A string that ends in the area is read up to its terminator. -/
theorem cString_eq {l : List UInt8} {limit : Nat} (hl : l.length < limit) (hzero : 0 ∉ l)
    (h : ∀ i ≤ l.length, d (position + i) = listBytes l i) : cString d position limit = l := by
  induction l generalizing position limit with
  | nil =>
      obtain ⟨limit, rfl⟩ := Nat.exists_eq_succ_of_ne_zero (Nat.ne_of_gt hl)
      exact if_pos (h 0 (Nat.zero_le _))
  | cons x rest ih =>
      obtain ⟨limit, rfl⟩ := Nat.exists_eq_succ_of_ne_zero (Nat.ne_zero_of_lt hl)
      obtain ⟨hx, hrest⟩ := not_or.mp (mt List.mem_cons.mpr hzero)
      have hfirst : d position = x := h 0 (Nat.zero_le _)
      rw [cString, hfirst, if_neg (Ne.symm hx)]
      congr 1
      apply ih (Nat.lt_of_succ_lt_succ hl) hrest
      intro i hi
      rw [Nat.add_assoc, Nat.add_comm 1]
      exact h (i + 1) (Nat.succ_le_succ hi)

theorem le_length_cString {k limit : Nat} (h : ∀ i < k, d (position + i) ≠ 0) (hk : k ≤ limit) :
    k ≤ (cString d position limit).length := by
  induction limit generalizing position k with
  | zero => exact hk
  | succ limit ih =>
      cases k with
      | zero => exact Nat.zero_le _
      | succ k =>
          have hfirst : d position ≠ 0 := h 0 (Nat.zero_lt_succ k)
          rw [cString, if_neg hfirst, List.length_cons]
          refine Nat.succ_le_succ (ih (fun i hi => ?_) (Nat.le_of_succ_le_succ hk))
          rw [Nat.add_assoc, Nat.add_comm 1]
          exact h (i + 1) (Nat.succ_lt_succ hi)

/-- Bit `n` of an area used as a bit map. -/
def bit (d : Bytes) (n : Nat) : Bool := (d (n / 8)).toNat.testBit (n % 8)

/-- `d[j] |= 1 << k`. -/
def setBit (d : Bytes) (j k : Nat) : Bytes := fun i =>
  if i = j then d j ||| 1 <<< UInt8.ofNat k else d i

/-- `d[j] &= ~(1 << k)`. -/
def clearBit (d : Bytes) (j k : Nat) : Bytes := fun i =>
  if i = j then d j &&& ~~~(1 <<< UInt8.ofNat k) else d i

theorem toNat_one_shiftLeft : ∀ k < 8, ((1 : UInt8) <<< UInt8.ofNat k).toNat = 2 ^ k := by
  decide

theorem testBit_complement : ∀ k < 8, ∀ i < 8,
    (~~~((1 : UInt8) <<< UInt8.ofNat k)).toNat.testBit i = decide (i ≠ k) := by
  decide

theorem bit_setBit {j k : Nat} (hk : k < 8) (n : Nat) :
    bit (setBit d j k) n = (decide (n = 8 * j + k) || bit d n) := by
  unfold bit setBit
  by_cases hj : n / 8 = j
  · subst hj
    rw [if_pos rfl, UInt8.toNat_or, Nat.testBit_or, toNat_one_shiftLeft k hk, Bool.or_comm,
      Nat.testBit_two_pow]
    congr 1
    rw [decide_eq_decide]
    omega
  · rw [if_neg hj, decide_eq_false (by omega), Bool.false_or]

theorem bit_clearBit {j k : Nat} (hk : k < 8) (n : Nat) :
    bit (clearBit d j k) n = (decide (n ≠ 8 * j + k) && bit d n) := by
  unfold bit clearBit
  by_cases hj : n / 8 = j
  · subst hj
    rw [if_pos rfl, UInt8.toNat_and, Nat.testBit_and, Bool.and_comm,
      testBit_complement k hk (n % 8) (by omega)]
    congr 1
    rw [decide_eq_decide]
    omega
  · rw [if_neg hj, decide_eq_true (by omega), Bool.true_and]

theorem and_one_shiftLeft_eq_zero (x : UInt8) {k : Nat} (hk : k < 8) :
    x &&& 1 <<< UInt8.ofNat k = 0 ↔ x.toNat.testBit k = false := by
  rw [← UInt8.toNat_inj, UInt8.toNat_and, toNat_one_shiftLeft k hk, Nat.and_two_pow]
  cases x.toNat.testBit k <;> simp

end LabKernel.ByteMemory
