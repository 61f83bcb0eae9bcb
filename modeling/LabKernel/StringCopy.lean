import LabKernel.ByteMemory

/-!
`strncpy` of the kernel (`string.c`) and of the user library.

The loops are the same.  The counter is decremented when it is tested, also in
the test that ends the first loop; it is a `size_t` in the kernel and an `int`
in the library.
-/

namespace LabKernel.StringCopy

open LabKernel.ByteMemory

/-- A string in memory: the bytes in front of its terminator. -/
structure SourceString where
  bytes : List UInt8
  notNul : 0 ∉ bytes

section Loops

variable {Counter : Type} (isPositive : Counter → Bool) (decrement : Counter → Counter)

/-- `while (*src && n-- > 0) *dest++ = *src++;`, where `i` is how far `dest` has
moved. -/
def copyLoop : List UInt8 → Counter → Bytes → Nat → Counter × Bytes × Nat
  | [], n, dest, i => (n, dest, i)
  | c :: src, n, dest, i =>
      if isPositive n then copyLoop src (decrement n) (Function.update dest i c) (i + 1)
      else (decrement n, dest, i)

/-- `while (n-- > 0) *dest++ = '\0';`, for as many rounds as there is fuel. -/
def padLoop : Nat → Counter → Bytes → Nat → Option (Bytes × Nat)
  | 0, _, _, _ => none
  | fuel + 1, n, dest, i =>
      if isPositive n then padLoop fuel (decrement n) (Function.update dest i 0) (i + 1)
      else some (dest, i)

/-- The memory from `dest` on after the call, and how many bytes were written
from `dest` on. -/
def copyAndPad (fuel : Nat) (dest : Bytes) (src : SourceString) (n : Counter) :
    Option (Bytes × Nat) :=
  let copied := copyLoop isPositive decrement src.bytes n dest 0
  padLoop isPositive decrement fuel copied.1 copied.2.1 copied.2.2

end Loops

/-- `strncpy` of the kernel. -/
def kernelStrncpy (fuel : Nat) (dest : Bytes) (src : SourceString) (n : UInt64) :
    Option (Bytes × Nat) :=
  copyAndPad (fun n => 0 < n) (fun n => n - 1) fuel dest src n

/-- `strncpy` of the user library. -/
def libcStrncpy (fuel : Nat) (dest : Bytes) (src : SourceString) (n : Int32) :
    Option (Bytes × Nat) :=
  copyAndPad (fun n => 0 < n) (fun n => n - 1) fuel dest src n

/-- `counter` stands for the numbers up to `bound`. -/
structure CountsDown {Counter : Type} (isPositive : Counter → Bool)
    (decrement : Counter → Counter) (counter : Nat → Counter) (bound : Nat) : Prop where
  isPositive : ∀ k ≤ bound, isPositive (counter k) = decide (0 < k)
  decrement : ∀ k < bound, decrement (counter (k + 1)) = counter k

theorem countsDown_uint64 :
    CountsDown (fun n : UInt64 => 0 < n) (fun n => n - 1) UInt64.ofNat (2 ^ 64 - 1) := by
  refine ⟨fun k hk => ?_, fun k _ => ?_⟩
  · have hlt : k < 2 ^ 64 := by omega
    rw [decide_eq_decide, UInt64.lt_iff_toNat_lt, UInt64.toNat_ofNat_of_lt' hlt]
    rfl
  · rw [UInt64.ofNat_add]
    exact UInt64.add_sub_cancel ..

theorem countsDown_int32 :
    CountsDown (fun n : Int32 => 0 < n) (fun n => n - 1) Int32.ofNat (2 ^ 31 - 1) := by
  refine ⟨fun k hk => ?_, fun k _ => ?_⟩
  · have hlt : k < 2 ^ 31 := by omega
    rw [decide_eq_decide, Int32.lt_iff_toInt_lt, Int32.toInt_ofNat_of_lt hlt]
    exact Int.natCast_pos
  · rw [Int32.ofNat_add]
    exact Int32.add_sub_cancel ..

section Loops

variable {Counter : Type} {isPositive : Counter → Bool} {decrement : Counter → Counter}
  {counter : Nat → Counter} {bound n i k fuel : Nat} {rest : List UInt8} {dest dest' src : Bytes}

theorem copy_zero : copy dest 0 src 0 0 = dest := funext fun p => copy_outside (by omega)

theorem copy_succ :
    Function.update (copy dest 0 src 0 i) i (src i) = copy dest 0 src 0 (i + 1) := by
  funext p
  rcases Nat.lt_trichotomy p i with hlt | rfl | hgt
  · rw [Function.update_of_ne hlt.ne, copy_inside (Nat.zero_le p) (by omega),
      copy_inside (Nat.zero_le p) (by omega)]
  · rw [Function.update_self, copy_inside (Nat.zero_le p) (by omega), Nat.sub_zero, Nat.zero_add]
  · rw [Function.update_of_ne hgt.ne', copy_outside (by omega), copy_outside (by omega)]

theorem spells_tail {c : UInt8}
    (h : ∀ j < (c :: rest).length, src (i + j) = (c :: rest).getD j 0) :
    ∀ j < rest.length, src (i + 1 + j) = rest.getD j 0 := by
  intro j hj
  have hnext := h (j + 1) (Nat.succ_lt_succ hj)
  rwa [← Nat.add_assoc, Nat.add_right_comm] at hnext

theorem copyLoop_fits (dest : Bytes) (h : CountsDown isPositive decrement counter bound)
    (hn : n ≤ bound) (hrest : ∀ j < rest.length, src (i + j) = rest.getD j 0)
    (hle : rest.length ≤ n) :
    copyLoop isPositive decrement rest (counter n) (copy dest 0 src 0 i) i =
      (counter (n - rest.length), copy dest 0 src 0 (i + rest.length), i + rest.length) := by
  induction rest generalizing n i with
  | nil => rfl
  | cons c rest ih =>
      cases n with
      | zero => cases hle
      | succ n =>
          have hc : src i = c := hrest 0 (Nat.succ_pos _)
          have hrest' := spells_tail hrest
          rw [copyLoop, h.isPositive _ hn, if_pos (by simp), h.decrement n hn, ← hc, copy_succ,
            ih (Nat.le_of_succ_le hn) hrest' (Nat.le_of_succ_le_succ hle), List.length_cons,
            Nat.add_sub_add_right, Nat.add_assoc, Nat.add_comm 1]

theorem copyLoop_cut (dest : Bytes) (h : CountsDown isPositive decrement counter bound)
    (hn : n ≤ bound) (hrest : ∀ j < rest.length, src (i + j) = rest.getD j 0)
    (hlt : n < rest.length) :
    copyLoop isPositive decrement rest (counter n) (copy dest 0 src 0 i) i =
      (decrement (counter 0), copy dest 0 src 0 (i + n), i + n) := by
  induction rest generalizing n i with
  | nil => cases hlt
  | cons c rest ih =>
      cases n with
      | zero =>
          rw [copyLoop, h.isPositive _ hn, if_neg (by simp)]
          rfl
      | succ n =>
          have hc : src i = c := hrest 0 (Nat.succ_pos _)
          have hrest' := spells_tail hrest
          rw [copyLoop, h.isPositive _ hn, if_pos (by simp), h.decrement n hn, ← hc, copy_succ,
            ih (Nat.le_of_succ_le hn) hrest' (Nat.lt_of_succ_lt_succ hlt), Nat.add_assoc,
            Nat.add_comm 1]

theorem padLoop_pads (dest : Bytes) (h : CountsDown isPositive decrement counter bound)
    (hk : k ≤ bound) (hzero : ∀ p ≥ i, src p = 0) :
    padLoop isPositive decrement (k + 1) (counter k) (copy dest 0 src 0 i) i =
      some (copy dest 0 src 0 (i + k), i + k) := by
  induction k generalizing i with
  | zero =>
      rw [padLoop, h.isPositive _ hk, if_neg (by simp)]
      rfl
  | succ k ih =>
      have hzero' : ∀ p ≥ i + 1, src p = 0 := fun p hp => hzero p (Nat.le_of_succ_le hp)
      rw [padLoop, h.isPositive _ hk, if_pos (by simp), h.decrement k hk, ← hzero i le_rfl,
        copy_succ, ih (Nat.le_of_succ_le hk) hzero', Nat.add_assoc, Nat.add_comm 1]

theorem padLoop_moves (h : CountsDown isPositive decrement counter bound) (hk : k ≤ bound)
    (hpad : padLoop isPositive decrement fuel (counter k) dest i = some (dest', n)) :
    n = i + k := by
  induction fuel generalizing k dest i with
  | zero => cases hpad
  | succ fuel ih =>
      rw [padLoop, h.isPositive _ hk] at hpad
      cases k with
      | zero =>
          rw [if_neg (by simp)] at hpad
          cases hpad
          rfl
      | succ k =>
          rw [if_pos (by simp), h.decrement k hk] at hpad
          rw [ih (Nat.le_of_succ_le hk) hpad, Nat.add_assoc, Nat.add_comm 1]

end Loops

/-- The call returns with the `n` bytes from `dest` on written and no other: the
string as far as it goes, and zeros. -/
def Copies (run : Nat → Option (Bytes × Nat)) (dest : Bytes) (src : SourceString) (n : Nat) :
    Prop :=
  ∃ fuel, run fuel = some (copy dest 0 (listBytes src.bytes) 0 n, n)

/-- What the two versions do for one string and one `n`, which the library takes
if it is an `int`. -/
structure StrncpyRight (dest : Bytes) (src : SourceString) (n : UInt64) : Prop where
  kernel : Copies (fun fuel => kernelStrncpy fuel dest src n) dest src n.toNat
  libc : n.toNat < 2 ^ 31 →
    Copies (fun fuel => libcStrncpy fuel dest src (Int32.ofNat n.toNat)) dest src n.toNat
  agree : n.toNat < 2 ^ 31 → ∃ fuel fuel' result,
    kernelStrncpy fuel dest src n = some result ∧
      libcStrncpy fuel' dest src (Int32.ofNat n.toNat) = some result

section Versions

variable {Counter : Type} {isPositive : Counter → Bool} {decrement : Counter → Counter}
  {counter : Nat → Counter} {bound n fuel : Nat} {dest dest' : Bytes} {src : SourceString}

theorem listBytes_spells (l : List UInt8) :
    ∀ j < l.length, listBytes l (0 + j) = l.getD j 0 := by
  intro j _
  rw [Nat.zero_add, listBytes]

theorem copyAndPad_fits (dest : Bytes) (h : CountsDown isPositive decrement counter bound)
    (hn : n ≤ bound) (hle : src.bytes.length ≤ n) :
    Copies (fun fuel => copyAndPad isPositive decrement fuel dest src (counter n)) dest src n := by
  have hcopied := copyLoop_fits dest h hn (listBytes_spells src.bytes) hle
  rw [copy_zero, Nat.zero_add] at hcopied
  have hzero : ∀ p ≥ src.bytes.length, listBytes src.bytes p = 0 := by
    intro p hp
    rw [listBytes, List.getD_eq_default _ _ hp]
  refine ⟨n - src.bytes.length + 1, ?_⟩
  have hpadded := padLoop_pads dest h (Nat.sub_le_of_le_add (by omega)) hzero
    (k := n - src.bytes.length)
  rw [Nat.add_sub_cancel' hle] at hpadded
  simp only [copyAndPad, hcopied]
  exact hpadded

theorem copyAndPad_cut (fuel : Nat) (dest : Bytes)
    (h : CountsDown isPositive decrement counter bound) (hn : n ≤ bound)
    (hlt : n < src.bytes.length) :
    copyAndPad isPositive decrement fuel dest src (counter n) =
      padLoop isPositive decrement fuel (decrement (counter 0))
        (copy dest 0 (listBytes src.bytes) 0 n) n := by
  have hcopied := copyLoop_cut dest h hn (listBytes_spells src.bytes) hlt
  rw [copy_zero, Nat.zero_add] at hcopied
  rw [copyAndPad, hcopied]

theorem libcStrncpy_copies (dest : Bytes) (src : SourceString) (hn : n < 2 ^ 31) :
    Copies (fun fuel => libcStrncpy fuel dest src (Int32.ofNat n)) dest src n := by
  rcases Nat.lt_or_ge n src.bytes.length with hlt | hle
  · refine ⟨1, ?_⟩
    -- -1 is not positive
    exact copyAndPad_cut 1 dest countsDown_int32 (Nat.le_pred_of_lt hn) hlt
  · exact copyAndPad_fits dest countsDown_int32 (Nat.le_pred_of_lt hn) hle

theorem kernelStrncpy_copies (dest : Bytes) {n : UInt64} (hle : src.bytes.length ≤ n.toNat) :
    Copies (fun fuel => kernelStrncpy fuel dest src n) dest src n.toNat := by
  have hcopies := copyAndPad_fits dest countsDown_uint64
    (Nat.le_pred_of_lt n.toNat_lt) hle
  rwa [UInt64.ofNat_toNat] at hcopies

/-- In the kernel the counter wraps around when the string is longer than `n`,
and the zeros go on. -/
theorem kernelStrncpy_overruns {n : UInt64} {length : Nat} (hlt : n.toNat < src.bytes.length)
    (hrun : kernelStrncpy fuel dest src n = some (dest', length)) :
    length = n.toNat + (2 ^ 64 - 1) := by
  have hcut := copyAndPad_cut fuel dest countsDown_uint64
    (Nat.le_pred_of_lt n.toNat_lt) hlt
  rw [UInt64.ofNat_toNat] at hcut
  have hwrapped : (UInt64.ofNat 0 - 1 : UInt64) = UInt64.ofNat (2 ^ 64 - 1) := by decide
  rw [hwrapped] at hcut
  exact padLoop_moves countsDown_uint64 le_rfl (hcut.symm.trans hrun)

theorem kernelStrncpy_not_copies {n : UInt64} (hlt : n.toNat < src.bytes.length) :
    ¬ Copies (fun fuel => kernelStrncpy fuel dest src n) dest src n.toNat := by
  rintro ⟨fuel, hrun⟩
  have hlength := kernelStrncpy_overruns hlt hrun
  omega

end Versions

theorem strncpy_right_iff (dest : Bytes) (src : SourceString) (n : UInt64) :
    StrncpyRight dest src n ↔ src.bytes.length ≤ n.toNat := by
  refine ⟨fun h => ?_, fun hle => ?_⟩
  · by_contra hlt
    exact kernelStrncpy_not_copies (Nat.lt_of_not_le hlt) h.kernel
  · refine ⟨kernelStrncpy_copies dest hle, libcStrncpy_copies dest src, fun hn => ?_⟩
    obtain ⟨fuel, hkernel⟩ := kernelStrncpy_copies dest hle
    obtain ⟨fuel', hlibc⟩ := libcStrncpy_copies dest src hn
    exact ⟨fuel, fuel', _, hkernel, hlibc⟩

/-- The string `ab`. -/
def twoLetters : SourceString := ⟨[97, 98], by decide⟩

/-- One byte of two. -/
theorem longString_not_right : ¬ StrncpyRight zeros twoLetters 1 := by
  intro h
  exact kernelStrncpy_not_copies (by decide) h.kernel

end LabKernel.StringCopy
