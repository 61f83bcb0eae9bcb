import LabKernel.FormattedText

/-!
The numbers that `tiny_libc` prints: its `mini_itoa` beside the one of the
kernel, and what `atol` makes of the text.
-/

namespace LabKernel.PrintedNumbers

open LabKernel.DecimalText
open LabKernel.FormattedText
open LabKernel.IntegerParsing

/-- The loop that stores the digits; all of it is done with `long`s. -/
def libcDigits (radix : Nat) (uppercase : Bool) : Nat → Int64 → Option (List UInt8)
  | 0, _ => none
  | rounds + 1, value =>
      let c := digitChar uppercase (value % .ofNat radix).toInt
      let value := value / .ofNat radix
      if 0 < value then (libcDigits radix uppercase rounds value).map fun rest => c :: rest
      else some [c]

/-- The text that is left before the terminator. -/
def libcItoa (value : Int64) (radix : Nat) (uppercase unsig : Bool) (zeroPad : UInt32) :
    Option (List UInt8) :=
  if 16 < radix then some []
  else
    let negative := value < 0 ∧ unsig = false
    let value := if negative then -value else value
    (libcDigits radix uppercase 64 value).map fun digits =>
      let padded := digits ++ List.replicate (zeroPad.toNat - digits.length) 48
      turnRound (if negative then padded ++ [45] else padded)

def unsigOf : Kind → Bool
  | .signed => false
  | _ => true

theorem radix_bounds (kind : Kind) : 1 < kind.radix ∧ kind.radix ≤ 16 := by
  cases kind with
  | signed => decide
  | unsigned => decide
  | hexadecimal _ => exact ⟨by simp [Kind.radix], le_refl 16⟩

/-- The values that the loop of `tiny_libc` prints right: those that are not
negative as a `long`, and for `%d` every one that has an opposite. -/
def Printable (kind : Kind) (value : Int64) : Prop :=
  0 ≤ value.toInt ∨ unsigOf kind = false ∧ value.toInt ≠ -2 ^ 63

variable {radix : Nat} {uppercase unsig : Bool} {value : Int64} {zeroPad : UInt32} {kind : Kind}
  {n : Nat} {digits : List UInt8}

theorem libcDigits_eq {rounds : Nat} (h : 0 ≤ value.toInt) (hradix : radix ≤ 16) :
    libcDigits radix uppercase rounds value = storeDigits radix uppercase false rounds value := by
  induction rounds generalizing value with
  | zero => rfl
  | succ rounds ih =>
      obtain ⟨hplain, -⟩ := quotient_eq (Or.inr h : Plain false value) hradix
      have hnonneg : 0 ≤ (value / .ofNat radix).toInt := by simpa [Plain, quotient] using hplain
      by_cases hzero : value / .ofNat radix = 0
      · simp [libcDigits, storeDigits, remainder, quotient, hzero]
      · have hpos : 0 < value / .ofNat radix := by
          rw [Int64.lt_iff_toInt_lt, Int64.toInt_zero]
          refine lt_of_le_of_ne hnonneg fun heq => hzero ?_
          rw [← Int64.toInt_inj, ← heq, Int64.toInt_zero]
        simp [libcDigits, storeDigits, remainder, quotient, hzero, hpos, ih hnonneg]

theorem libcDigits_all (uppercase : Bool) (h : 0 ≤ value.toInt) (hone : 1 < radix)
    (hradix : radix ≤ 16) :
    libcDigits radix uppercase 64 value =
      some (numeral radix uppercase value.toInt.natAbs).reverse := by
  rw [libcDigits_eq h hradix]
  exact storeDigits_all uppercase (Or.inr h) hone hradix

/-- The number that a value is printed as. -/
def shownAs (value : Int64) : Kind → Int
  | .signed => value.toInt
  | _ => value.toUInt64.toNat

theorem miniItoa_eq (kind : Kind) (h : kind = .signed → value.toInt ≠ -2 ^ 63) (nPad : UInt32) :
    miniItoa value kind.radix kind.uppercase (unsigOf kind) nPad 48 =
      some (numberText true nPad.toNat kind.radix kind.uppercase (shownAs value kind)) := by
  cases kind with
  | signed => exact miniItoa_signed true (by decide) (by decide) (h rfl)
  | unsigned => exact miniItoa_unsigned true (by decide) (by decide)
  | hexadecimal uppercase =>
      exact miniItoa_unsigned true (radix_bounds (.hexadecimal uppercase)).1 (le_refl 16)

theorem libcItoa_eq (h : Printable kind value) (zeroPad : UInt32) :
    libcItoa value kind.radix kind.uppercase (unsigOf kind) zeroPad =
      some (numberText true zeroPad.toNat kind.radix kind.uppercase (shownAs value kind)) := by
  obtain ⟨hone, hradix⟩ := radix_bounds kind
  have hle := value.le_toInt
  by_cases hnonneg : 0 ≤ value.toInt
  · have hdigits := libcDigits_all kind.uppercase hnonneg hone hradix
    have hplain : ¬value < 0 := by simpa [Int64.lt_iff_toInt_lt] using hnonneg
    have hword : (value.toUInt64.toNat : Int) = value.toInt := by
      have hclamp := Int64.toNat_toUInt64_of_le (x := value)
        (by simpa [Int64.le_iff_toInt_le] using hnonneg)
      rw [hclamp, Int64.toNatClampNeg]
      omega
    have hshown : shownAs value kind = value.toInt := by
      cases kind with
      | signed => rfl
      | unsigned => exact hword
      | hexadecimal _ => exact hword
    simp [libcItoa, Nat.not_lt.mpr hradix, hplain, hdigits, turnRound_eq, numberText, hshown,
      Int.not_lt.mpr hnonneg]
  · obtain ⟨hunsig, hmin⟩ := h.resolve_left hnonneg
    have hneg : value < 0 := by simpa [Int64.lt_iff_toInt_lt] using hnonneg
    have hopposite : (-value).toInt = -value.toInt := by
      rw [Int64.toInt_neg]
      exact Int.bmod_eq_of_le (by omega) (by omega)
    have hpositive : 0 ≤ (-value).toInt := by omega
    have hdigits := libcDigits_all kind.uppercase hpositive hone hradix
    have hshown : shownAs value kind = value.toInt := by
      cases kind with
      | signed => rfl
      | unsigned => cases hunsig
      | hexadecimal _ => cases hunsig
    simp [libcItoa, Nat.not_lt.mpr hradix, hneg, hunsig, hdigits, turnRound_eq, numberText, hshown,
      hopposite, Int.not_le.mp hnonneg]

theorem digitValue_digitChar : ∀ d < 16, ∀ uppercase : Bool,
    digitValue (digitChar uppercase (d : Nat)) = d := by
  decide

theorem isHexDigit_digitChar : ∀ d < 16, ∀ uppercase : Bool,
    IsHexDigit (digitChar uppercase (d : Nat)) := by
  unfold IsHexDigit
  decide

theorem isDigit_digitChar : ∀ d < 10, ∀ uppercase : Bool,
    IsDigit (digitChar uppercase (d : Nat)) := by
  decide

theorem number_append (base n : Nat) (digits : List UInt8) (c : UInt8) :
    number base n (digits ++ [c]) = number base n digits * base + digitValue c := by
  simp [number]

theorem number_zeros (base k : Nat) : number base 0 (List.replicate k 48) = 0 := by
  induction k with
  | zero => rfl
  | succ k ih =>
      rw [List.replicate_succ', number_append, ih]
      simp [digitValue]

theorem forall_numeral {P : UInt8 → Prop} (hone : 1 < radix) (hradix : radix ≤ 16)
    (hP : ∀ d < radix, P (digitChar uppercase (d : Nat))) (n : Nat) :
    ∀ c ∈ numeral radix uppercase n, P c := by
  induction n using Nat.strong_induction_on with
  | _ n ih =>
      by_cases hlt : n < radix
      · simpa [numeral_of_lt hlt hradix] using hP n hlt
      · have hle : radix ≤ n := Nat.le_of_not_lt hlt
        rw [numeral_of_le hone hradix hle]
        intro c hc
        rcases List.mem_append.mp hc with hfirst | hlast
        · exact ih _ (Nat.div_lt_self (by omega) hone) c hfirst
        · rw [List.mem_singleton.mp hlast]
          exact hP _ (Nat.mod_lt n (by omega))

theorem number_numeral (hone : 1 < radix) (hradix : radix ≤ 16) (k n : Nat) :
    number radix 0 (List.replicate k 48 ++ numeral radix uppercase n) = n := by
  induction n using Nat.strong_induction_on with
  | _ n ih =>
      by_cases hlt : n < radix
      · rw [numeral_of_lt hlt hradix, number_append, number_zeros,
          digitValue_digitChar n (by omega)]
        omega
      · have hle : radix ≤ n := Nat.le_of_not_lt hlt
        have hdigit : n % radix < 16 := (Nat.mod_lt n (by omega)).trans_le hradix
        rw [numeral_of_le hone hradix hle, ← List.append_assoc, number_append,
          ih _ (Nat.div_lt_self (by omega) hone), digitValue_digitChar _ hdigit]
        exact Nat.div_add_mod' n radix

theorem digit_ge (hone : 1 < radix) (hradix : radix ≤ 16) (n : Nat) :
    ∀ c ∈ numeral radix uppercase n, 48 ≤ c := by
  refine forall_numeral hone hradix (fun d hd => ?_) n
  have hge : ∀ d < 16, ∀ uppercase : Bool, 48 ≤ digitChar uppercase (d : Nat) := by decide
  exact hge d (by omega) uppercase

theorem libcDigits_negative (uppercase : Bool) (hneg : value.toInt < 0) (hone : 1 < radix)
    (hradix : radix ≤ 16) (rounds : Nat) :
    ∃ c, libcDigits radix uppercase (rounds + 1) value = some [c] ∧ (48 ≤ c → c = 48) := by
  obtain ⟨n, hn⟩ := Int.eq_ofNat_of_zero_le (show 0 ≤ -value.toInt by omega)
  have hvalue : value.toInt = -(n : Int) := by omega
  have hne : Int64.ofNat radix ≠ -1 := fun heq => by
    have hint := toInt_radix hradix
    rw [heq] at hint
    simp at hint
  have hquotient : ¬0 < value / .ofNat radix := by
    rw [Int64.lt_iff_toInt_lt, Int64.toInt_div_of_ne_right _ _ hne, toInt_radix hradix, hvalue,
      Int.neg_tdiv, ← Int.ofNat_tdiv, Int64.toInt_zero]
    exact Int.not_lt.mpr (Int.neg_nonpos_of_nonneg (Int.natCast_nonneg _))
  have hremainder : (value % .ofNat radix).toInt = -((n % radix : Nat) : Int) := by
    rw [Int64.toInt_mod, toInt_radix hradix, hvalue, Int.neg_tmod, Int.ofNat_tmod]
  have hdigit : ∀ d < 16, ∀ uppercase : Bool,
      48 ≤ digitChar uppercase (-((d : Nat) : Int)) → digitChar uppercase (-(d : Int)) = 48 := by
    decide
  refine ⟨_, by rw [libcDigits, if_neg hquotient], fun hc => ?_⟩
  rw [hremainder] at hc ⊢
  exact hdigit _ ((Nat.mod_lt n (by omega)).trans_le hradix) uppercase hc

theorem libcItoa_unsigned_ne (kind : Kind) (hneg : value.toInt < 0) (zeroPad : UInt32) :
    libcItoa value kind.radix kind.uppercase true zeroPad ≠
      miniItoa value kind.radix kind.uppercase true zeroPad 48 := by
  obtain ⟨hone, hradix⟩ := radix_bounds kind
  obtain ⟨c, hdigits, hlow⟩ := libcDigits_negative kind.uppercase hneg hone hradix 63
  have hkernel : miniItoa value kind.radix kind.uppercase true zeroPad 48 = some _ :=
    miniItoa_unsigned true hone hradix
  have hlibc : libcItoa value kind.radix kind.uppercase true zeroPad =
      some (List.replicate (zeroPad.toNat - 1) 48 ++ [c]) := by
    simp [libcItoa, Nat.not_lt.mpr hradix, hdigits, turnRound_eq]
  intro heq
  rw [hkernel, hlibc, Option.some.injEq] at heq
  have hnonneg : ¬((value.toUInt64.toNat : Int) < 0) := by omega
  rw [numberText, if_neg hnonneg, List.nil_append, Int.natAbs_natCast, if_pos rfl] at heq
  -- Both end in a digit, so the one of `tiny_libc` is `0`, and then all are.
  have hlast : 48 ≤ c := by
    have hmem : c ∈ List.replicate (zeroPad.toNat - 1) 48 ++ [c] := by simp
    rw [heq] at hmem
    rcases List.mem_append.mp hmem with hzero | hdigit
    · rw [List.eq_of_mem_replicate hzero]
      decide
    · exact digit_ge hone hradix _ c hdigit
  have hnumber := congrArg (number kind.radix 0) heq
  rw [hlow hlast, ← List.replicate_succ', number_zeros, number_numeral hone hradix] at hnumber
  have hzero : value.toUInt64 = 0 := UInt64.toNat_inj.mp hnumber.symm
  rw [← Int64.toInt64_toUInt64 value, hzero] at hneg
  exact absurd hneg (by decide)

theorem libcItoa_min_ne (zeroPad : UInt32) :
    libcItoa Int64.minValue 10 false false zeroPad ≠
      miniItoa Int64.minValue 10 false false zeroPad 48 := by
  have hlibc : libcDigits 10 false 64 (-Int64.minValue) = some [40] := by decide
  obtain ⟨rest, hkernel⟩ : ∃ rest, storeDigits 10 false false 64 (-Int64.minValue) =
      some (40 :: 48 :: 40 :: rest) := ⟨_, rfl⟩
  have hneg : Int64.minValue < 0 := by decide
  intro heq
  simp only [libcItoa, miniItoa, hneg, hlibc, hkernel, turnRound_eq, if_true, and_self,
    Option.map_some, Option.some.injEq, List.reverse_inj, show ¬16 < 10 by decide, if_false] at heq
  have hthird := congrArg (fun text => text[2]?) heq
  have hpadded : ∀ k, ((40 : UInt8) :: (List.replicate k 48 ++ [45]))[2]? ≠ some 40 := by
    intro k
    rcases k with _ | _ | k
    · decide
    · decide
    · simp [List.replicate_succ]
  exact hpadded _ (by simpa using hthird)

/-- The formatter of `tiny_libc` and the one of the kernel print a number alike
if and only if it is not negative as a `long`, or is printed with its sign and
is not the least `long`. -/
theorem libcItoa_eq_miniItoa_iff (kind : Kind) (value : Int64) (zeroPad : UInt32) :
    libcItoa value kind.radix kind.uppercase (unsigOf kind) zeroPad =
        miniItoa value kind.radix kind.uppercase (unsigOf kind) zeroPad 48 ↔
      Printable kind value := by
  constructor
  · intro heq
    by_contra hnot
    obtain ⟨hneg, hbad⟩ := not_or.mp hnot
    cases kind with
    | signed =>
        have hmin : value = Int64.minValue := by
          rw [← Int64.toInt_inj]
          by_contra hne
          exact hbad ⟨rfl, hne⟩
        exact libcItoa_min_ne zeroPad (hmin ▸ heq)
    | unsigned => exact libcItoa_unsigned_ne .unsigned (Int.not_le.mp hneg) zeroPad heq
    | hexadecimal uppercase =>
        exact libcItoa_unsigned_ne (.hexadecimal uppercase) (Int.not_le.mp hneg) zeroPad heq
  · intro h
    rw [libcItoa_eq h, miniItoa_eq kind]
    rintro rfl heq
    rcases h with hnonneg | ⟨-, hmin⟩
    · omega
    · exact hmin heq

/-- What stands before the digits of a number that is to be read back. -/
def prefixOf : Kind → List UInt8
  | .hexadecimal _ => [48, 120]
  | _ => []

theorem denotes_numberText (kind : Kind) (width : Nat) (value : Int64) :
    Denotes (prefixOf kind ++ numberText true width kind.radix kind.uppercase (shownAs value kind))
      (shownAs value kind) := by
  have hblanks : ∀ c ∈ ([] : List UInt8), IsSpace c := fun c hc => absurd hc List.not_mem_nil
  have hdecimal : ∀ k n, Numeral (List.replicate k 48 ++ numeral 10 false n) n := by
    intro k n
    have hdigits : ∀ c ∈ List.replicate k 48 ++ numeral 10 false n, IsDigit c := by
      intro c hc
      rcases List.mem_append.mp hc with hzero | hdigit
      · rw [List.eq_of_mem_replicate hzero]
        decide
      · exact forall_numeral (by decide) (by decide) (fun d hd => isDigit_digitChar d hd false) n
          c hdigit
    have hnumeral := Numeral.decimal (by simp [numeral_ne_nil]) hdigits
    rwa [number_numeral (by decide) (by decide)] at hnumeral
  have hhexadecimal : ∀ k n uppercase,
      Numeral (48 :: 120 :: (List.replicate k 48 ++ numeral 16 uppercase n)) n := by
    intro k n uppercase
    have hdigits : ∀ c ∈ List.replicate k 48 ++ numeral 16 uppercase n, IsHexDigit c := by
      intro c hc
      rcases List.mem_append.mp hc with hzero | hdigit
      · rw [List.eq_of_mem_replicate hzero]
        exact isHexDigit_digitChar 0 (by decide) false
      · exact forall_numeral (by decide) (by decide)
          (fun d hd => isHexDigit_digitChar d hd uppercase) n c hdigit
    have hnumeral := Numeral.hexadecimal (Or.inl rfl) (by simp [numeral_ne_nil]) hdigits
    rwa [number_numeral (by decide) (by decide)] at hnumeral
  have hword : ∀ w : UInt64, ¬((w.toNat : Int) < 0) := fun w => by omega
  cases kind with
  | signed =>
      by_cases hneg : value.toInt < 0
      · have hminus := Denotes.minus hblanks (hdecimal
          (width - (numeral 10 false value.toInt.natAbs).length) value.toInt.natAbs)
        have habs : -(value.toInt.natAbs : Int) = value.toInt := by omega
        rw [habs] at hminus
        simpa [prefixOf, numberText, shownAs, hneg, Kind.radix, Kind.uppercase] using hminus
      · have hplain := Denotes.plain hblanks (hdecimal
          (width - (numeral 10 false value.toInt.natAbs).length) value.toInt.natAbs)
        have habs : (value.toInt.natAbs : Int) = value.toInt := by omega
        rw [habs] at hplain
        simpa [prefixOf, numberText, shownAs, hneg, Kind.radix, Kind.uppercase] using hplain
  | unsigned =>
      have hplain := Denotes.plain hblanks (hdecimal
        (width - (numeral 10 false value.toUInt64.toNat).length) value.toUInt64.toNat)
      simpa [prefixOf, numberText, shownAs, hword, Kind.radix, Kind.uppercase] using hplain
  | hexadecimal uppercase =>
      have hplain := Denotes.plain hblanks (hhexadecimal
        (width - (numeral 16 uppercase value.toUInt64.toNat).length) value.toUInt64.toNat uppercase)
      simpa [prefixOf, numberText, shownAs, hword, Kind.radix, Kind.uppercase] using hplain

theorem not_isSpace_numberText (kind : Kind) (width : Nat) (value : Int64) :
    ¬IsSpace (current (prefixOf kind ++
      numberText true width kind.radix kind.uppercase (shownAs value kind))) := by
  obtain ⟨hone, hradix⟩ := radix_bounds kind
  have hall : ∀ c ∈ prefixOf kind ++
      numberText true width kind.radix kind.uppercase (shownAs value kind), 45 ≤ c := by
    have hprefix : ∀ c ∈ prefixOf kind, 45 ≤ c := by cases kind <;> simp [prefixOf]
    intro c hc
    simp only [numberText, List.mem_append] at hc
    rcases hc with hc | (hc | hc) | hc
    · exact hprefix c hc
    · split at hc
      next =>
        rw [List.mem_singleton.mp hc]
        decide
      next => simp at hc
    · rw [List.eq_of_mem_replicate hc]
      decide
    · exact UInt8.le_trans (by decide) (digit_ge hone hradix _ c hc)
  have hne : prefixOf kind ++
      numberText true width kind.radix kind.uppercase (shownAs value kind) ≠ [] := by
    simp [numberText, numeral_ne_nil]
  have hmem : ∀ str : List UInt8, str ≠ [] → current str ∈ str := by
    intro str hstr
    cases str with
    | nil => exact absurd rfl hstr
    | cons c rest => exact List.mem_cons_self
  have hfirst := hall _ (hmem _ hne)
  rintro (hc | hc | hc | hc | hc | hc) <;> rw [hc] at hfirst <;> exact absurd hfirst (by decide)

theorem ofInt_shownAs (kind : Kind) (value : Int64) : Int64.ofInt (shownAs value kind) = value := by
  have hword : Int64.ofInt (value.toUInt64.toNat : Int) = value := by
    rw [Int64.ofInt_eq_ofNat, ← Int64.toInt64_toUInt64 (.ofNat _), Int64.toUInt64_ofNat',
      UInt64.ofNat_toNat, Int64.toInt64_toUInt64]
  cases kind with
  | signed => exact Int64.ofInt_toInt value
  | unsigned => exact hword
  | hexadecimal _ => exact hword

/-- What `tiny_libc` prints for a number, behind `0x` where it is hexadecimal,
its `atol` reads back. -/
theorem atol_libcItoa (kind : Kind) (h : Printable kind value) (zeroPad : UInt32) (rounds : Nat) :
    ∃ text, libcItoa value kind.radix kind.uppercase (unsigOf kind) zeroPad = some text ∧
      atol (rounds + 1) (prefixOf kind ++ text) = some value := by
  have hblank := not_isSpace_numberText kind zeroPad.toNat value
  have hdenotes := denotes_numberText kind zeroPad.toNat value
  refine ⟨_, libcItoa_eq h zeroPad, ?_⟩
  rw [atol, skipBlanks, if_neg hblank, Option.map_some, scan_of_denotes hdenotes hblank,
    ofInt_shownAs]

/-- Minus seven in a field of five digits. -/
theorem minusSeven_read : ∃ text, libcItoa (-7) 10 false false 5 = some text ∧
    atol 1 text = some (-7) :=
  atol_libcItoa .signed (Or.inr ⟨rfl, by decide⟩) 5 0

end LabKernel.PrintedNumbers
