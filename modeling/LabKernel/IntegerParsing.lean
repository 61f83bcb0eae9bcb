import LabKernel.DecimalText

/-!
`atol` of `tiny_libc`: which texts denote which numbers, and what the scanner
makes of them.  A string is the list of its bytes before the terminator.
-/

namespace LabKernel.IntegerParsing

open LabKernel.DecimalText

/-- `isspace`. -/
def IsSpace (c : UInt8) : Prop := c = 32 ∨ c = 9 ∨ c = 10 ∨ c = 11 ∨ c = 12 ∨ c = 13

instance (c : UInt8) : Decidable (IsSpace c) := inferInstanceAs (Decidable (_ ∨ _))

/-- `*str`. -/
def current (str : List UInt8) : UInt8 := str.headD 0

/-- The loop `while (isspace(*str))`, whose body is empty; there is no result
when it is still running after the given rounds. -/
def skipBlanks : Nat → List UInt8 → Option (List UInt8)
  | 0, _ => none
  | rounds + 1, str => if IsSpace (current str) then skipBlanks rounds str else some str

/-- Whether the number is negative, and the text behind the sign. -/
def readSign (str : List UInt8) : Option (Bool × List UInt8) :=
  if current str = 43 then some (false, str.tail)
  else if current str = 45 then some (true, str.tail)
  else if IsDigit (current str) then some (false, str)
  else none

def readBase (str : List UInt8) : Nat × List UInt8 :=
  if current str = 48 ∧ current str.tail = 120 ∨ current str = 48 ∧ current str.tail = 88 then
    (16, str.tail.tail)
  else (10, str)

/-- What a character adds to the result; there is none where the source
returns 0. -/
def digitOf (base : Nat) (c : UInt8) : Option Nat :=
  if IsDigit c then some (c.toNat - 48)
  else if base = 16 then
    if 97 ≤ c ∧ c ≤ 102 then some (c.toNat - 97 + 10)
    else if 65 ≤ c ∧ c ≤ 70 then some (c.toNat - 65 + 10)
    else none
  else none

/-- The loop that converts the digits; the arithmetic of `long` wraps around. -/
def convert (base : Nat) (ret : Int64) : List UInt8 → Option Int64
  | [] => some ret
  | c :: rest => (digitOf base c).bind fun d => convert base (ret * .ofNat base + .ofNat d) rest

/-- `atol` behind the blanks. -/
def scan (str : List UInt8) : Int64 :=
  match readSign str with
  | none => 0
  | some (negative, str) =>
      match convert (readBase str).1 0 (readBase str).2 with
      | none => 0
      | some ret => if negative then -ret else ret

def atol (rounds : Nat) (str : List UInt8) : Option Int64 := (skipBlanks rounds str).map scan

def IsHexDigit (c : UInt8) : Prop := IsDigit c ∨ (97 ≤ c ∧ c ≤ 102) ∨ 65 ≤ c ∧ c ≤ 70

def digitValue (c : UInt8) : Nat :=
  if c ≤ 57 then c.toNat - 48 else if c ≤ 70 then c.toNat - 55 else c.toNat - 87

/-- The value of digits, the first one the highest, behind a number. -/
def number (base n : Nat) (digits : List UInt8) : Nat :=
  digits.foldl (fun n c => n * base + digitValue c) n

inductive Numeral : List UInt8 → Nat → Prop
  | decimal {digits : List UInt8} : digits ≠ [] → (∀ c ∈ digits, IsDigit c) →
      Numeral digits (number 10 0 digits)
  | hexadecimal {x : UInt8} {digits : List UInt8} : x = 120 ∨ x = 88 → digits ≠ [] →
      (∀ c ∈ digits, IsHexDigit c) → Numeral (48 :: x :: digits) (number 16 0 digits)

/-- Blanks, a sign or none, and a numeral. -/
inductive Denotes : List UInt8 → Int → Prop
  | plain {blanks body : List UInt8} {n : Nat} : (∀ c ∈ blanks, IsSpace c) → Numeral body n →
      Denotes (blanks ++ body) n
  | plus {blanks body : List UInt8} {n : Nat} : (∀ c ∈ blanks, IsSpace c) → Numeral body n →
      Denotes (blanks ++ 43 :: body) n
  | minus {blanks body : List UInt8} {n : Nat} : (∀ c ∈ blanks, IsSpace c) → Numeral body n →
      Denotes (blanks ++ 45 :: body) (-n)

/-- The number that a text denotes, modulo `2 ^ 64`, and 0 for other texts. -/
def Right (str : List UInt8) (r : Int64) : Prop :=
  (∀ z, Denotes str z → r = Int64.ofInt z) ∧ ((∀ z, ¬Denotes str z) → r = 0)

variable {str body digits : List UInt8} {base n : Nat} {c x : UInt8} {ret r : Int64} {z : Int}

theorem digitOf_ten (h : IsDigit c) (base : Nat) : digitOf base c = some (digitValue c) := by
  rw [digitOf, if_pos h, digitValue, if_pos h.2]

theorem digitOf_sixteen (h : IsHexDigit c) : digitOf 16 c = some (digitValue c) := by
  rcases em (IsDigit c) with hdigit | hdigit
  · exact digitOf_ten hdigit 16
  · rw [digitOf, if_neg hdigit, if_pos rfl]
    unfold digitValue
    rcases h.resolve_left hdigit with hlower | hupper
    · rw [if_pos hlower]
      have h1 : ¬c ≤ 57 := fun hle => absurd (UInt8.le_trans hlower.1 hle) (by decide)
      have h2 : ¬c ≤ 70 := fun hle => absurd (UInt8.le_trans hlower.1 hle) (by decide)
      have h3 : 97 ≤ c.toNat := UInt8.le_iff_toNat_le.mp hlower.1
      rw [if_neg h1, if_neg h2]
      exact congrArg some (by omega)
    · have h1 : ¬c ≤ 57 := fun hle => absurd (UInt8.le_trans hupper.1 hle) (by decide)
      have h2 : ¬(97 ≤ c ∧ c ≤ 102) := fun hle =>
        absurd (UInt8.le_trans hle.1 hupper.2) (by decide)
      have h3 : 65 ≤ c.toNat := UInt8.le_iff_toNat_le.mp hupper.1
      rw [if_neg h2, if_pos hupper, if_neg h1, if_pos hupper.2]
      exact congrArg some (by omega)

theorem digitOf_ten_isSome (h : (digitOf 10 c).isSome) : IsDigit c := by
  by_contra hdigit
  rw [digitOf, if_neg hdigit, if_neg (by decide)] at h
  cases h

theorem digitOf_sixteen_isSome (h : (digitOf 16 c).isSome) : IsHexDigit c := by
  unfold digitOf at h
  rw [if_pos rfl] at h
  split at h
  next hdigit => exact Or.inl hdigit
  next =>
    split at h
    next hlower => exact Or.inr (Or.inl hlower)
    next =>
      split at h
      next hupper => exact Or.inr (Or.inr hupper)
      next => cases h

theorem convert_number (h : ∀ c ∈ digits, digitOf base c = some (digitValue c)) (n : Nat) :
    convert base (.ofNat n) digits = some (.ofNat (number base n digits)) := by
  induction digits generalizing n with
  | nil => rfl
  | cons c rest ih =>
      rw [convert, h c List.mem_cons_self, Option.bind_some, ← Int64.ofNat_mul, ← Int64.ofNat_add]
      exact ih (fun c' hc' => h c' (List.mem_cons_of_mem c hc')) _

theorem digitOf_of_convert (h : convert base ret digits = some r) :
    ∀ c ∈ digits, (digitOf base c).isSome := by
  induction digits generalizing ret with
  | nil => exact fun c hc => absurd hc List.not_mem_nil
  | cons c rest ih =>
      obtain ⟨d, hd, hrest⟩ := Option.bind_eq_some_iff.mp h
      intro c' hc'
      rcases List.mem_cons.mp hc' with rfl | hc'
      · exact Option.isSome_iff_exists.mpr ⟨d, hd⟩
      · exact ih hrest c' hc'

theorem isDigit_current (h : ∀ c ∈ digits, IsDigit c) (hne : digits ≠ []) :
    IsDigit (current digits) := by
  cases digits with
  | nil => exact absurd rfl hne
  | cons c rest => exact h c List.mem_cons_self

theorem readBase_decimal (h : ∀ c ∈ digits, IsDigit c) : readBase digits = (10, digits) := by
  refine if_neg ?_
  have hx : ∀ x : UInt8, ¬IsDigit x → x ≠ 0 → current digits.tail ≠ x := by
    rintro x hx hzero rfl
    rcases eq_or_ne digits.tail [] with hnil | hne
    · rw [hnil] at hzero
      exact hzero rfl
    · exact hx (isDigit_current (fun c hc => h c (List.mem_of_mem_tail hc)) hne)
  rintro (⟨-, hlower⟩ | ⟨-, hupper⟩)
  · exact hx 120 (by decide) (by decide) hlower
  · exact hx 88 (by decide) (by decide) hupper

theorem readBase_hexadecimal (hx : x = 120 ∨ x = 88) :
    readBase (48 :: x :: digits) = (16, digits) :=
  if_pos (hx.imp (fun hx => ⟨rfl, hx⟩) fun hx => ⟨rfl, hx⟩)

theorem Numeral.isDigit (h : Numeral body n) : IsDigit (current body) := by
  cases h with
  | decimal hne hdigits => exact isDigit_current hdigits hne
  | hexadecimal _ _ _ =>
      have hzero : IsDigit 48 := by decide
      exact hzero

theorem Numeral.convert (h : Numeral body n) :
    convert (readBase body).1 0 (readBase body).2 = some (.ofNat n) := by
  cases h with
  | decimal _ hdigits =>
      rw [readBase_decimal hdigits]
      exact convert_number (fun c hc => digitOf_ten (hdigits c hc) 10) 0
  | hexadecimal hx _ hdigits =>
      rw [readBase_hexadecimal hx]
      exact convert_number (fun c hc => digitOf_sixteen (hdigits c hc)) 0

theorem numeral_of_convert (h : convert (readBase body).1 0 (readBase body).2 = some ret) :
    ret = 0 ∨ ∃ n, Numeral body n := by
  unfold readBase at h
  split at h
  next hbase =>
    have hbody : body = 48 :: current body.tail :: body.tail.tail := by
      match body, hbase with
      | [], hbase => exact absurd hbase (by decide)
      | [c], hbase => exact absurd hbase (by simp [current])
      | c :: x :: rest, hbase => rw [show c = 48 from hbase.elim And.left And.left]; rfl
    rcases eq_or_ne body.tail.tail [] with hnil | hne
    · rw [hnil] at h
      exact Or.inl (Option.some.inj h).symm
    · rw [hbody]
      exact Or.inr ⟨_, .hexadecimal (hbase.imp And.right And.right) hne
        fun c hc => digitOf_sixteen_isSome (digitOf_of_convert h c hc)⟩
  next =>
    rcases eq_or_ne body [] with rfl | hne
    · exact Or.inl (Option.some.inj h).symm
    · exact Or.inr ⟨_, .decimal hne fun c hc => digitOf_ten_isSome (digitOf_of_convert h c hc)⟩

/-- Without blanks in front, a text that denotes a number begins with its sign
or its numeral. -/
theorem Denotes.signed (h : Denotes str z) (hblank : ¬IsSpace (current str)) :
    ∃ negative body n, readSign str = some (negative, body) ∧ Numeral body n ∧
      z = if negative then -(n : Int) else n := by
  have hnil : ∀ {blanks rest : List UInt8}, str = blanks ++ rest → (∀ c ∈ blanks, IsSpace c) →
      str = rest := by
    intro blanks rest hstr hblanks
    cases blanks with
    | nil => exact hstr
    | cons c blanks =>
        rw [hstr] at hblank
        exact absurd (hblanks c List.mem_cons_self) hblank
  cases h with
  | @plain blanks body n hblanks hnumeral =>
      have hdigit := hnumeral.isDigit
      rw [hnil rfl hblanks]
      refine ⟨false, body, n, ?_, hnumeral, rfl⟩
      have hplus : current body ≠ 43 := fun heq => absurd (heq ▸ hdigit) (by decide)
      have hminus : current body ≠ 45 := fun heq => absurd (heq ▸ hdigit) (by decide)
      rw [readSign, if_neg hplus, if_neg hminus, if_pos hdigit]
  | @plus blanks body n hblanks hnumeral =>
      rw [hnil rfl hblanks]
      exact ⟨false, body, n, rfl, hnumeral, rfl⟩
  | @minus blanks body n hblanks hnumeral =>
      rw [hnil rfl hblanks]
      exact ⟨true, body, n, rfl, hnumeral, rfl⟩

theorem denotes_of_readSign {negative : Bool} (h : readSign str = some (negative, body))
    (hnumeral : Numeral body n) : ∃ z, Denotes str z := by
  have hblanks : ∀ c ∈ ([] : List UInt8), IsSpace c := fun c hc => absurd hc List.not_mem_nil
  have hcons : ∀ c : UInt8, c ≠ 0 → current str = c → str = c :: str.tail := by
    intro c hc hcurrent
    cases str with
    | nil => exact absurd hcurrent.symm hc
    | cons a rest => rw [← hcurrent]; rfl
  unfold readSign at h
  split at h
  next hplus =>
    cases h
    rw [hcons 43 (by decide) hplus]
    exact ⟨_, .plus hblanks hnumeral⟩
  next =>
    split at h
    next hminus =>
      cases h
      rw [hcons 45 (by decide) hminus]
      exact ⟨_, .minus hblanks hnumeral⟩
    next =>
      split at h
      next =>
        cases h
        exact ⟨_, .plain hblanks hnumeral⟩
      next => cases h

theorem scan_of_denotes (h : Denotes str z) (hblank : ¬IsSpace (current str)) :
    scan str = Int64.ofInt z := by
  obtain ⟨negative, body, n, hsign, hnumeral, rfl⟩ := h.signed hblank
  unfold scan
  rw [hsign]
  dsimp only
  rw [hnumeral.convert]
  cases negative with
  | false => exact Int64.ofInt_eq_ofNat.symm
  | true =>
      change -Int64.ofNat n = Int64.ofInt (-n)
      rw [Int64.ofInt_neg, Int64.ofInt_eq_ofNat]

theorem scan_of_not_denotes (h : ∀ z, ¬Denotes str z) : scan str = 0 := by
  unfold scan
  cases hsign : readSign str with
  | none => rfl
  | some signed =>
      obtain ⟨negative, body⟩ := signed
      dsimp only
      cases hconvert : convert (readBase body).1 0 (readBase body).2 with
      | none => rfl
      | some ret =>
          rcases numeral_of_convert hconvert with rfl | ⟨n, hnumeral⟩
          · cases negative <;> rfl
          · obtain ⟨z, hz⟩ := denotes_of_readSign hsign hnumeral
            exact absurd hz (h z)

theorem skipBlanks_of_isSpace (h : IsSpace (current str)) (rounds : Nat) :
    skipBlanks rounds str = none := by
  induction rounds with
  | zero => rfl
  | succ rounds ih => rw [skipBlanks, if_pos h, ih]

/-- `atol` returns the right number if and only if the text does not begin
with a blank; otherwise it does not return. -/
theorem atol_right_iff (str : List UInt8) :
    (∃ rounds r, atol rounds str = some r ∧ Right str r) ↔ ¬IsSpace (current str) := by
  constructor
  · rintro ⟨rounds, r, hreturns, -⟩ hblank
    rw [atol, skipBlanks_of_isSpace hblank] at hreturns
    cases hreturns
  · intro hblank
    refine ⟨1, scan str, ?_, fun z hz => scan_of_denotes hz hblank, scan_of_not_denotes⟩
    rw [atol, skipBlanks, if_neg hblank]
    rfl

/-- The text " 7" denotes 7, and `atol` never returns. -/
theorem blankSeven_not_right : Denotes [32, 55] 7 ∧
    ¬∃ rounds r, atol rounds [32, 55] = some r ∧ Right [32, 55] r := by
  have hblank : IsSpace (current [32, 55]) := by decide
  have hnumeral : Numeral [55] 7 := Numeral.decimal (List.cons_ne_nil 55 []) fun c hc => by
    rw [List.mem_singleton.mp hc]
    decide
  have hblanks : ∀ c ∈ [32], IsSpace c := fun c hc => by
    rw [List.mem_singleton.mp hc]
    exact hblank
  refine ⟨Denotes.plain hblanks hnumeral, ?_⟩
  rintro ⟨rounds, r, hreturns, -⟩
  rw [atol, skipBlanks_of_isSpace hblank] at hreturns
  cases hreturns

end LabKernel.IntegerParsing
