import LabKernel.IntegerParsing
import Mathlib.Logic.Function.Basic

/-!
The formatter of `kstdio.c`: `mini_itoa`, `mini_vsnprintf` and the text that a
format and its arguments make.
-/

namespace LabKernel.FormattedText

open LabKernel.DecimalText
open LabKernel.IntegerParsing (current)

def digitChar (uppercase : Bool) (digit : Int) : UInt8 :=
  UInt8.ofInt (if digit < 10 then 48 + digit else (if uppercase then 65 else 97) + digit - 10)

/-- `value % radix`, for a `long` or an `unsigned long`. -/
def remainder (radix : Nat) (unsig : Bool) (value : Int64) : Int :=
  if unsig then ((value.toUInt64 % .ofNat radix).toNat : Int) else (value % .ofNat radix).toInt

def quotient (radix : Nat) (unsig : Bool) (value : Int64) : Int64 :=
  if unsig then (value.toUInt64 / .ofNat radix).toInt64 else value / .ofNat radix

/-- The loop that stores the digits, the lowest first; there is no result when
it is still running after the given rounds. -/
def storeDigits (radix : Nat) (uppercase unsig : Bool) : Nat → Int64 → Option (List UInt8)
  | 0, _ => none
  | rounds + 1, value =>
      let c := digitChar uppercase (remainder radix unsig value)
      let value := quotient radix unsig value
      if value = 0 then some [c]
      else (storeDigits radix uppercase unsig rounds value).map fun rest => c :: rest

def exchange (buffer : List UInt8) (i j : Nat) : List UInt8 :=
  (buffer.set i (buffer.getD j 0)).set j (buffer.getD i 0)

/-- The loop that turns the text round. -/
def turnRound (buffer : List UInt8) : List UInt8 :=
  (List.range (buffer.length / 2)).foldl (fun b i => exchange b i (buffer.length - i - 1)) buffer

/-- The text that `mini_itoa` leaves before the terminator. -/
def miniItoa (value : Int64) (radix : Nat) (uppercase unsig : Bool) (nPad : UInt32)
    (cpad : UInt8) : Option (List UInt8) :=
  if 16 < radix then some []
  else
    let negative := value < 0 ∧ unsig = false
    let value := if negative then -value else value
    (storeDigits radix uppercase unsig 64 value).map fun digits =>
      let padded := digits ++ List.replicate (nPad.toNat - digits.length) cpad
      turnRound (if negative then padded ++ [45] else padded)

/-- The memory from `buffer` on, and `pbuffer` as the distance from it. -/
structure MiniBuff where
  bytes : Nat → UInt8
  pbuffer : Nat
  bufferLen : UInt32

/-- `*(b->pbuffer++) = ch`. -/
def MiniBuff.push (b : MiniBuff) (ch : UInt8) : MiniBuff :=
  { b with bytes := Function.update b.bytes b.pbuffer ch, pbuffer := b.pbuffer + 1 }

/-- `*(b->pbuffer) = '\0'`. -/
def MiniBuff.terminate (b : MiniBuff) : MiniBuff :=
  { b with bytes := Function.update b.bytes b.pbuffer 0 }

/-- `(unsigned int)((b->pbuffer - b->buffer) + 1) >= b->buffer_len`. -/
def MiniBuff.Full (b : MiniBuff) : Prop := b.bufferLen ≤ .ofNat (b.pbuffer + 1)

instance (b : MiniBuff) : Decidable b.Full := inferInstanceAs (Decidable (_ ≤ _))

def MiniBuff.putc (b : MiniBuff) (ch : UInt8) : MiniBuff :=
  if b.Full then b else (b.push ch).terminate

/-- `b->buffer_len - (b->pbuffer - b->buffer) - 1`, a `long`. -/
def MiniBuff.room (b : MiniBuff) : Int := (b.bufferLen.toNat : Int) - b.pbuffer - 1

/-- `_puts`, for the bytes that it copies. -/
def MiniBuff.puts (b : MiniBuff) (s : List UInt8) : MiniBuff :=
  let len := if b.room < s.length then (b.room % 2 ^ 32).toNat else s.length
  ((s.take len).foldl MiniBuff.push b).terminate

/-- What is passed behind the format: a word, or a string without its
terminator. -/
inductive Arg
  | word (w : UInt64)
  | string (s : List UInt8)

/-- The loop that reads a width. -/
def readWidth (nPad : UInt32) : List UInt8 → UInt32 × List UInt8
  | [] => (nPad, [])
  | ch :: rest =>
      if IsDigit ch then readWidth (nPad * 10 + ch.toUInt32 - 48) rest else (nPad, ch :: rest)

/-- The argument of `%d`, which is an `int` or a `long`. -/
def signedArg (longflag : Bool) (w : UInt64) : Int64 :=
  if longflag then w.toInt64 else w.toUInt32.toInt32.toInt64

/-- The argument of `%u`, `%x` and `%X`. -/
def unsignedArg (longflag : Bool) (w : UInt64) : Int64 :=
  if longflag then w.toInt64 else w.toUInt32.toUInt64.toInt64

/-- A number goes through `bf`, which has 24 bytes. -/
def putNumber (b : MiniBuff) (bf : Option (List UInt8)) : Option MiniBuff :=
  bf.bind fun bf => if bf.length < 24 then some (b.puts bf) else none

/-- The switch over the character of a conversion: the rest of the arguments
and the buffer.  There is no result where an argument of the kind is missing. -/
def convert (ch : UInt8) (longflag : Bool) (nPad : UInt32) (cPad : UInt8) (args : List Arg)
    (b : MiniBuff) : Option (List Arg × MiniBuff) :=
  if ch = 117 then
    match args with
    | .word w :: args =>
        (putNumber b (miniItoa (unsignedArg longflag w) 10 false true nPad cPad)).map (args, ·)
    | _ => none
  else if ch = 100 then
    match args with
    | .word w :: args =>
        (putNumber b (miniItoa (signedArg longflag w) 10 false false nPad cPad)).map (args, ·)
    | _ => none
  else if ch = 120 ∨ ch = 88 then
    match args with
    | .word w :: args =>
        (putNumber b (miniItoa (unsignedArg longflag w) 16 (ch = 88) true nPad cPad)).map
          (args, ·)
    | _ => none
  else if ch = 99 then
    match args with
    | .word w :: args => some (args, b.putc w.toUInt8)
    | _ => none
  else if ch = 115 then
    match args with
    | .string s :: args =>
        let b := b.puts s
        if s.length < nPad.toNat then
          some (args, b.puts (List.replicate (nPad.toNat - s.length) 32))
        else some (args, b)
    | _ => none
  else some (args, b.putc ch)

/-- What stands behind `%`: the rest of the format, which is empty where the
source leaves the loop, the rest of the arguments and the buffer. -/
def directive (fmt : List UInt8) (args : List Arg) (b : MiniBuff) :
    Option (List UInt8 × List Arg × MiniBuff) :=
  let cPad := if current fmt = 48 then 48 else 32
  let width := readWidth 0 fmt
  let longflag : Bool := current width.2 = 108
  let fmt := if longflag then width.2.tail else width.2
  if current fmt = 0 then some ([], args, b)
  else if current fmt = 108 then some (fmt.tail, args, b)
  else (convert (current fmt) longflag width.1 cPad args b).map fun r => (fmt.tail, r)

def formatLoop : Nat → List UInt8 → List Arg → MiniBuff → Option MiniBuff
  | 0, _, _, _ => none
  | rounds + 1, fmt, args, b =>
      if current fmt = 0 then some b
      else if b.Full then some b
      else if current fmt = 37 then
        (directive fmt.tail args b).bind fun r => formatLoop rounds r.1 r.2.1 r.2.2
      else formatLoop rounds fmt.tail args (b.putc (current fmt))

/-- `mini_vsnprintf`; the result of the source is `pbuffer`. -/
def miniVsnprintf (bytes : Nat → UInt8) (bufferLen : UInt32) (fmt : List UInt8)
    (args : List Arg) : Option MiniBuff :=
  formatLoop (fmt.length + 1) fmt args ⟨bytes, 0, bufferLen⟩

/-- What `_vprint` hands to the output function, with what is on the stack. -/
def vprint (stack : Nat → UInt8) (fmt : List UInt8) (args : List Arg) : Option (List UInt8) :=
  (miniVsnprintf stack 256 fmt args).map fun b =>
    text ((List.range (b.pbuffer + 1)).map b.terminate.bytes)

/-- The digits of a number, the highest first. -/
def numeral (radix : Nat) (uppercase : Bool) (n : Nat) : List UInt8 :=
  (Nat.toDigits radix n).map fun c => .ofNat (if uppercase then c.toUpper else c).toNat

/-- A number in its field: the sign stands before the padding. -/
def numberText (zero : Bool) (width radix : Nat) (uppercase : Bool) (z : Int) : List UInt8 :=
  (if z < 0 then [45] else []) ++
    List.replicate (width - (numeral radix uppercase z.natAbs).length) (if zero then 48 else 32) ++
    numeral radix uppercase z.natAbs

inductive Kind
  | signed
  | unsigned
  | hexadecimal (uppercase : Bool)

def Kind.letter : Kind → UInt8
  | .signed => 100
  | .unsigned => 117
  | .hexadecimal uppercase => if uppercase then 88 else 120

def Kind.radix : Kind → Nat
  | .hexadecimal _ => 16
  | _ => 10

def Kind.uppercase : Kind → Bool
  | .hexadecimal uppercase => uppercase
  | _ => false

/-- The number that a word is printed as. -/
def Kind.value (long : Bool) (w : UInt64) : Kind → Int
  | .signed => if long then w.toInt64.toInt else w.toUInt32.toInt32.toInt
  | _ => if long then w.toNat else w.toUInt32.toNat

/-- The parts of a format. -/
inductive Piece
  | plain (c : UInt8)
  | percent
  | number (zero : Bool) (width : Nat) (long : Bool) (kind : Kind)
  | character
  | string (width : Nat)

def widthText (zero : Bool) (width : Nat) : List UInt8 :=
  (if zero then [48] else []) ++ if width = 0 then [] else toText width

/-- How a part is written. -/
def Piece.format : Piece → List UInt8
  | .plain c => [c]
  | .percent => [37, 37]
  | .number zero width long kind =>
      37 :: (widthText zero width ++ ((if long then [108] else []) ++ [kind.letter]))
  | .character => [37, 99]
  | .string width => 37 :: (widthText false width ++ [115])

def formatOf (pieces : List Piece) : List UInt8 := pieces.flatMap Piece.format

/-- The text that a part makes of the first arguments, and the other ones.  A
number takes less than 24 characters, and the least `long` cannot be printed as
a signed number. -/
inductive Makes : Piece → List Arg → List UInt8 → List Arg → Prop
  | plain {c : UInt8} {args : List Arg} : c ≠ 0 → c ≠ 37 → Makes (.plain c) args [c] args
  | percent {args : List Arg} : Makes .percent args [37] args
  | number {zero long : Bool} {width : Nat} {kind : Kind} {w : UInt64} {args : List Arg} :
      kind.value long w ≠ -2 ^ 63 →
      (numberText zero width kind.radix kind.uppercase (kind.value long w)).length < 24 →
      Makes (.number zero width long kind) (.word w :: args)
        (numberText zero width kind.radix kind.uppercase (kind.value long w)) args
  | character {w : UInt64} {args : List Arg} :
      Makes .character (.word w :: args) [w.toUInt8] args
  | string {width : Nat} {s : List UInt8} {args : List Arg} :
      s.length < 2 ^ 32 → width < 2 ^ 32 →
      Makes (.string width) (.string s :: args) (s ++ List.replicate (width - s.length) 32) args

/-- The text that a format makes of its arguments. -/
inductive Renders : List Piece → List Arg → List UInt8 → Prop
  | nil {args : List Arg} : Renders [] args []
  | cons {piece : Piece} {pieces : List Piece} {args args' : List Arg} {s t : List UInt8} :
      Makes piece args s args' → Renders pieces args' t → Renders (piece :: pieces) args (s ++ t)

variable {radix : Nat} {uppercase unsig : Bool} {value : Int64}

theorem digitChar_eq : ∀ d < 16, ∀ uppercase : Bool,
    digitChar uppercase (d : Nat) =
      .ofNat (if uppercase then (Nat.digitChar d).toUpper else Nat.digitChar d).toNat := by
  decide

theorem numeral_of_lt {n : Nat} (h : n < radix) (hradix : radix ≤ 16) :
    numeral radix uppercase n = [digitChar uppercase n] := by
  simp [numeral, Nat.toDigits_of_lt_base h, digitChar_eq n (by omega)]

theorem numeral_of_le {n : Nat} (hone : 1 < radix) (hradix : radix ≤ 16) (h : radix ≤ n) :
    numeral radix uppercase n =
      numeral radix uppercase (n / radix) ++ [digitChar uppercase (n % radix : Nat)] := by
  have hdigit : n % radix < 16 := (Nat.mod_lt n (by omega)).trans_le hradix
  rw [digitChar_eq _ hdigit]
  simp [numeral, Nat.toDigits_of_base_le hone h]

theorem numeral_ne_nil (n : Nat) : numeral radix uppercase n ≠ [] := by
  simp [numeral]

/-- The number that the loop of the digits works on. -/
def magnitude (unsig : Bool) (value : Int64) : Nat :=
  if unsig then value.toUInt64.toNat else value.toInt.natAbs

/-- A number that the loop does not take for a negative one. -/
def Plain (unsig : Bool) (value : Int64) : Prop := unsig = true ∨ 0 ≤ value.toInt

theorem magnitude_lt (value : Int64) : magnitude unsig value < 2 ^ 64 := by
  have hlt := value.toInt_lt
  have hle := value.le_toInt
  have hword := value.toUInt64.toNat_lt
  cases unsig <;> simp only [magnitude] <;> simp <;> omega

theorem magnitude_eq_zero (unsig : Bool) (value : Int64) :
    magnitude unsig value = 0 ↔ value = 0 := by
  cases unsig with
  | false => simp [magnitude, ← Int64.toInt_inj]
  | true =>
      refine ⟨fun h => ?_, fun h => h ▸ rfl⟩
      have hword : value.toUInt64 = 0 := UInt64.toNat_inj.mp h
      rw [← Int64.toInt64_toUInt64 value, hword]
      rfl

theorem toInt_radix (hradix : radix ≤ 16) : (Int64.ofNat radix).toInt = radix :=
  Int64.toInt_ofNat_of_lt (by omega)

theorem toNat_radix (hradix : radix ≤ 16) : (UInt64.ofNat radix).toNat = radix := by
  simp only [UInt64.toNat_ofNat']
  omega

theorem remainder_eq (h : Plain unsig value) (hradix : radix ≤ 16) :
    remainder radix unsig value = (magnitude unsig value % radix : Nat) := by
  cases unsig with
  | false =>
      have hnonneg : 0 ≤ value.toInt := by simpa [Plain] using h
      obtain ⟨n, hn⟩ := Int.eq_ofNat_of_zero_le hnonneg
      simp [remainder, magnitude, toInt_radix hradix, hn, ← Int.ofNat_tmod]
  | true => simp [remainder, magnitude, UInt64.toNat_mod, toNat_radix hradix, -UInt64.toNat_ofNat']

theorem quotient_eq (h : Plain unsig value) (hradix : radix ≤ 16) :
    Plain unsig (quotient radix unsig value) ∧
      magnitude unsig (quotient radix unsig value) = magnitude unsig value / radix := by
  cases unsig with
  | false =>
      have hnonneg : 0 ≤ value.toInt := by simpa [Plain] using h
      obtain ⟨n, hn⟩ := Int.eq_ofNat_of_zero_le hnonneg
      have hne : Int64.ofNat radix ≠ -1 := fun heq => by
        have hint := toInt_radix hradix
        rw [heq] at hint
        simp at hint
      have hdiv : (value / .ofNat radix).toInt = (n / radix : Nat) := by
        rw [Int64.toInt_div_of_ne_right _ _ hne, toInt_radix hradix, hn, Int.ofNat_tdiv]
      refine ⟨Or.inr ?_, ?_⟩
      · rw [quotient, if_neg Bool.false_ne_true, hdiv]
        exact Int.natCast_nonneg _
      · simp only [quotient, magnitude, hdiv, hn, Bool.false_eq_true, if_false, Int.natAbs_natCast]
  | true =>
      refine ⟨Or.inl rfl, ?_⟩
      simp [quotient, magnitude, UInt64.toNat_div, toNat_radix hradix, -UInt64.toNat_ofNat']

theorem storeDigits_eq {rounds : Nat} (h : Plain unsig value) (hone : 1 < radix)
    (hradix : radix ≤ 16) (hrounds : magnitude unsig value < radix ^ (rounds + 1)) :
    storeDigits radix uppercase unsig (rounds + 1) value =
      some (numeral radix uppercase (magnitude unsig value)).reverse := by
  induction rounds generalizing value with
  | zero =>
      obtain ⟨hplain, hquotient⟩ := quotient_eq h hradix
      have hlt : magnitude unsig value < radix := by simpa using hrounds
      have hzero : quotient radix unsig value = 0 := by
        rw [← magnitude_eq_zero unsig, hquotient, Nat.div_eq_of_lt hlt]
      simp [storeDigits, hzero, remainder_eq h hradix, numeral_of_lt hlt hradix,
        Nat.mod_eq_of_lt hlt]
  | succ rounds ih =>
      obtain ⟨hplain, hquotient⟩ := quotient_eq h hradix
      rw [storeDigits]
      by_cases hlt : magnitude unsig value < radix
      · have hzero : quotient radix unsig value = 0 := by
          rw [← magnitude_eq_zero unsig, hquotient, Nat.div_eq_of_lt hlt]
        simp [hzero, remainder_eq h hradix, numeral_of_lt hlt hradix, Nat.mod_eq_of_lt hlt]
      · have hle : radix ≤ magnitude unsig value := Nat.le_of_not_lt hlt
        have hne : quotient radix unsig value ≠ 0 := by
          rw [Ne, ← magnitude_eq_zero unsig, hquotient]
          exact (Nat.div_pos hle (by omega)).ne'
        have hrest : magnitude unsig (quotient radix unsig value) < radix ^ (rounds + 1) := by
          rw [hquotient]
          exact Nat.div_lt_of_lt_mul (by rwa [← Nat.pow_succ'])
        rw [numeral_of_le hone hradix hle]
        simp [hne, ih hplain hrest, hquotient, remainder_eq h hradix]

@[simp] theorem length_exchange (buffer : List UInt8) (i j : Nat) :
    (exchange buffer i j).length = buffer.length := by
  simp [exchange]

theorem getElem?_exchange {buffer : List UInt8} {i j k : Nat} (hi : i < buffer.length)
    (hj : j < buffer.length) :
    (exchange buffer i j)[k]? = buffer[if k = j then i else if k = i then j else k]? := by
  unfold exchange
  rw [List.getElem?_set, List.getElem?_set, List.length_set]
  by_cases hkj : k = j
  · simp [hkj, hi, hj]
  · by_cases hki : k = i
    · subst hki
      simp [hkj, hi, hj, Ne.symm hkj]
    · simp [hki, hkj, Ne.symm hki, Ne.symm hkj]

theorem exchanged (buffer : List UInt8) {rounds : Nat} (h : rounds ≤ buffer.length / 2) :
    ((List.range rounds).foldl (fun b i => exchange b i (buffer.length - i - 1)) buffer).length =
        buffer.length ∧
      ∀ k < buffer.length,
        ((List.range rounds).foldl (fun b i => exchange b i (buffer.length - i - 1)) buffer)[k]? =
          buffer[if k < rounds ∨ buffer.length - rounds ≤ k then buffer.length - 1 - k
            else k]? := by
  induction rounds with
  | zero =>
      refine ⟨rfl, fun k hk => ?_⟩
      rw [if_neg (by omega)]
      rfl
  | succ rounds ih =>
      obtain ⟨hlength, hget⟩ := ih (by omega)
      rw [List.range_succ, List.foldl_append, List.foldl_cons, List.foldl_nil]
      refine ⟨by simp [hlength], fun k hk => ?_⟩
      rw [getElem?_exchange (by omega) (by omega)]
      by_cases hlast : k = buffer.length - rounds - 1
      · rw [if_pos hlast, hget _ (by omega), if_neg (by omega), if_pos (by omega)]
        congr 1
        omega
      · rw [if_neg hlast]
        by_cases hfirst : k = rounds
        · rw [if_pos hfirst, hget _ (by omega), if_neg (by omega), if_pos (by omega)]
          congr 1
          omega
        · rw [if_neg hfirst, hget k hk]
          congr 1
          exact if_congr (by omega) rfl rfl

theorem turnRound_eq (buffer : List UInt8) : turnRound buffer = buffer.reverse := by
  obtain ⟨hlength, hget⟩ := exchanged buffer (le_refl (buffer.length / 2))
  refine List.ext_getElem? fun k => ?_
  by_cases hk : k < buffer.length
  · rw [turnRound, hget k hk, List.getElem?_reverse hk]
    congr 1
    split <;> omega
  · rw [List.getElem?_eq_none (by rw [turnRound, hlength]; omega),
      List.getElem?_eq_none (by rw [List.length_reverse]; omega)]

variable {nPad : UInt32}

theorem storeDigits_all (uppercase : Bool) (h : Plain unsig value) (hone : 1 < radix)
    (hradix : radix ≤ 16) :
    storeDigits radix uppercase unsig 64 value =
      some (numeral radix uppercase (magnitude unsig value)).reverse :=
  storeDigits_eq h hone hradix ((magnitude_lt value).trans_le (Nat.pow_le_pow_left hone 64))

theorem miniItoa_unsigned (zero : Bool) (hone : 1 < radix) (hradix : radix ≤ 16) :
    miniItoa value radix uppercase true nPad (if zero then 48 else 32) =
      some (numberText zero nPad.toNat radix uppercase value.toUInt64.toNat) := by
  have hplain : Plain true value := Or.inl rfl
  have hdigits := storeDigits_all uppercase hplain hone hradix
  simp [miniItoa, Nat.not_lt.mpr hradix, hdigits, turnRound_eq, numberText, magnitude]

theorem miniItoa_signed (zero : Bool) (hone : 1 < radix) (hradix : radix ≤ 16)
    (hmin : value.toInt ≠ -2 ^ 63) :
    miniItoa value radix uppercase false nPad (if zero then 48 else 32) =
      some (numberText zero nPad.toNat radix uppercase value.toInt) := by
  have hle := value.le_toInt
  by_cases hneg : value < 0
  · have hnegInt : value.toInt < 0 := by simpa [Int64.lt_iff_toInt_lt] using hneg
    have hopposite : (-value).toInt = -value.toInt := by
      rw [Int64.toInt_neg]
      exact Int.bmod_eq_of_le (by omega) (by omega)
    have hplain : Plain false (-value) := Or.inr (by omega)
    have hdigits := storeDigits_all uppercase hplain hone hradix
    simp [miniItoa, Nat.not_lt.mpr hradix, hneg, hdigits, turnRound_eq, numberText, magnitude,
      hopposite, hnegInt]
  · have hnonneg : 0 ≤ value.toInt := by simpa [Int64.lt_iff_toInt_lt] using hneg
    have hplain : Plain false value := Or.inr hnonneg
    have hdigits := storeDigits_all uppercase hplain hone hradix
    simp [miniItoa, Nat.not_lt.mpr hradix, hneg, hdigits, turnRound_eq, numberText, magnitude,
      Int.not_lt.mpr hnonneg]

/-- The memory with a text at its beginning. -/
def laid (bytes : Nat → UInt8) (out : List UInt8) : Nat → UInt8 := fun a => out.getD a (bytes a)

variable {bytes : Nat → UInt8} {out s t : List UInt8} {b : MiniBuff} {bufferLen : UInt32}
  {ch : UInt8}

theorem laid_append (bytes : Nat → UInt8) (out : List UInt8) (ch : UInt8) :
    laid bytes (out ++ [ch]) = Function.update (laid bytes out) out.length ch := by
  funext a
  rcases lt_trichotomy a out.length with hlt | rfl | hgt
  · simp [laid, Function.update_of_ne hlt.ne, List.getElem?_append_left hlt]
  · simp [laid]
  · have hout : out[a]? = none := List.getElem?_eq_none hgt.le
    have happend : (out ++ [ch])[a]? = none := List.getElem?_eq_none (by simp; omega)
    simp [laid, Function.update_of_ne hgt.ne', hout, happend]

/-- The buffer holds a text and has room for the terminator; the terminator
stands behind the text once something was stored. -/
structure Holds (bytes : Nat → UInt8) (bufferLen : UInt32) (out : List UInt8) (b : MiniBuff) :
    Prop where
  terminated : b.terminate =
    ⟨Function.update (laid bytes out) out.length 0, out.length, bufferLen⟩
  ended : out ≠ [] → b.terminate = b
  room : out.length < bufferLen.toNat

@[simp] theorem terminate_terminate (b : MiniBuff) : b.terminate.terminate = b.terminate := by
  simp [MiniBuff.terminate]

@[simp] theorem push_terminate (b : MiniBuff) (ch : UInt8) : b.terminate.push ch = b.push ch := by
  simp [MiniBuff.terminate, MiniBuff.push]

theorem Holds.pbuffer (h : Holds bytes bufferLen out b) : b.pbuffer = out.length :=
  congrArg MiniBuff.pbuffer h.terminated

theorem Holds.limit (h : Holds bytes bufferLen out b) : b.bufferLen = bufferLen :=
  congrArg MiniBuff.bufferLen h.terminated

theorem foldl_push (bytes : Nat → UInt8) (out s : List UInt8) (bufferLen : UInt32) :
    s.foldl MiniBuff.push ⟨laid bytes out, out.length, bufferLen⟩ =
      ⟨laid bytes (out ++ s), (out ++ s).length, bufferLen⟩ := by
  induction s generalizing out with
  | nil => simp
  | cons ch rest ih =>
      have hpush : MiniBuff.push ⟨laid bytes out, out.length, bufferLen⟩ ch =
          ⟨laid bytes (out ++ [ch]), (out ++ [ch]).length, bufferLen⟩ := by
        simp [MiniBuff.push, laid_append]
      rw [List.foldl_cons, hpush, ih]
      simp

theorem Holds.foldl_push (h : Holds bytes bufferLen out b) (s : List UInt8) :
    (s.foldl MiniBuff.push b).terminate =
      (s.foldl MiniBuff.push ⟨laid bytes out, out.length, bufferLen⟩).terminate := by
  cases s with
  | nil => exact h.terminated
  | cons ch rest =>
      rw [List.foldl_cons, List.foldl_cons, ← push_terminate b, h.terminated]
      simp [MiniBuff.push]

theorem Holds.stored (h : Holds bytes bufferLen out b)
    (hroom : (out ++ s).length < bufferLen.toNat) :
    Holds bytes bufferLen (out ++ s) (s.foldl MiniBuff.push b).terminate := by
  refine ⟨?_, fun _ => terminate_terminate _, hroom⟩
  rw [terminate_terminate, h.foldl_push, FormattedText.foldl_push]
  rfl

/-- The buffer holds as much of a text as there is room for. -/
def Shows (bytes : Nat → UInt8) (bufferLen : UInt32) (t : List UInt8) (b : MiniBuff) : Prop :=
  Holds bytes bufferLen (t.take (bufferLen.toNat - 1)) b

theorem take_append_take (t s : List UInt8) (k : Nat) :
    (t ++ s).take k = t.take k ++ s.take (k - (t.take k).length) := by
  rw [List.take_append, List.length_take]
  congr 2
  omega

theorem Shows.puts (h : Shows bytes bufferLen t b) (s : List UInt8) :
    Shows bytes bufferLen (t ++ s) (b.puts s) := by
  have hroom := h.room
  have hlen : b.room = (bufferLen.toNat - 1 - (t.take (bufferLen.toNat - 1)).length : Nat) := by
    rw [MiniBuff.room, h.pbuffer, h.limit]
    omega
  have htake : s.take (if b.room < s.length then (b.room % 2 ^ 32).toNat else s.length) =
      s.take (bufferLen.toNat - 1 - (t.take (bufferLen.toNat - 1)).length) := by
    have hword := bufferLen.toNat_lt
    rw [hlen]
    split
    next =>
      congr 1
      omega
    next hle => rw [List.take_of_length_le (by omega), List.take_of_length_le (by omega)]
  rw [Shows, take_append_take, MiniBuff.puts, htake]
  refine h.stored ?_
  rw [List.length_append, List.length_take (l := s)]
  omega

theorem Shows.full_iff (h : Shows bytes bufferLen t b) :
    b.Full ↔ bufferLen.toNat - 1 ≤ t.length := by
  have hroom := h.room
  have hword := bufferLen.toNat_lt
  rw [MiniBuff.Full, h.pbuffer, h.limit, UInt32.le_iff_toNat_le, UInt32.toNat_ofNat']
  rw [List.length_take] at hroom ⊢
  omega

theorem Shows.more (h : Shows bytes bufferLen t b) (hfull : b.Full) (s : List UInt8) :
    Shows bytes bufferLen (t ++ s) b := by
  have hle := h.full_iff.mp hfull
  rwa [Shows, List.take_append_of_le_length hle]

theorem Shows.putc (h : Shows bytes bufferLen t b) (ch : UInt8) :
    Shows bytes bufferLen (t ++ [ch]) (b.putc ch) := by
  by_cases hfull : b.Full
  · rw [MiniBuff.putc, if_pos hfull]
    exact h.more hfull [ch]
  · have hlt := Nat.lt_of_not_le fun hle => hfull (h.full_iff.mpr hle)
    rw [MiniBuff.putc, if_neg hfull]
    rw [Shows, List.take_of_length_le hlt.le] at h
    rw [Shows, List.take_of_length_le (by simp; omega)]
    exact h.stored (by simp; omega)

variable {zero : Bool} {width : Nat} {long : Bool} {rest digits : List UInt8} {args : List Arg}

theorem readWidth_rest (hrest : ¬IsDigit (current rest)) (nPad : UInt32) :
    readWidth nPad rest = (nPad, rest) := by
  cases rest with
  | nil => rfl
  | cons ch rest => exact if_neg hrest

theorem ofInt_natCast (n : Nat) : UInt32.ofInt n = .ofNat n := by
  rw [← UInt32.toNat_inj]
  simp only [UInt32.ofInt, UInt32.toNat_ofNat']
  omega

theorem readWidth_append (h : ∀ b ∈ digits, IsDigit b) (hrest : ¬IsDigit (current rest))
    (number : Int) :
    readWidth (.ofInt number) (digits ++ rest) = (.ofInt (extend number digits), rest) := by
  induction digits generalizing number with
  | nil => exact readWidth_rest hrest _
  | cons ch digits ih =>
      have hword : UInt32.ofInt ch.toNat = ch.toUInt32 := by
        rw [ofInt_natCast, UInt32.ofNat_uInt8ToNat]
      have hstep : UInt32.ofInt number * 10 + ch.toUInt32 - 48 =
          .ofInt (number * 10 + ch.toNat - 48) := by
        rw [Int.sub_eq_add_neg, UInt32.ofInt_add, UInt32.ofInt_add, UInt32.ofInt_mul, hword,
          UInt32.sub_eq_add_neg]
        rfl
      rw [List.cons_append, readWidth, if_pos (h ch (by simp)), hstep]
      exact ih (fun b hb => h b (by simp [hb])) _

theorem current_toText (hwidth : width ≠ 0) : current (toText width) ≠ 48 := by
  induction width using Nat.strong_induction_on with
  | _ width ih =>
      rw [toText_of_nonneg (Int.natCast_nonneg width), Int.natAbs_natCast]
      by_cases hlt : width < 10
      · rw [Nat.toDigits_of_lt_base hlt]
        have hdigit : ∀ d < 10, d ≠ 0 → UInt8.ofNat (Nat.digitChar d).toNat ≠ 48 := by decide
        simpa [current] using hdigit width hlt hwidth
      · have hquotient : width / 10 ≠ 0 := by omega
        have hhead := ih (width / 10) (by omega) hquotient
        rw [toText_of_nonneg (Int.natCast_nonneg _), Int.natAbs_natCast] at hhead
        rw [Nat.toDigits_of_base_le (by omega) (by omega), List.map_append]
        cases hdigits : Nat.toDigits 10 (width / 10) with
        | nil => exact absurd hdigits Nat.toDigits_ne_nil
        | cons c cs => simpa [current, hdigits] using hhead

theorem widthText_isDigit (zero : Bool) (width : Nat) : ∀ b ∈ widthText zero width, IsDigit b := by
  intro b hb
  rcases List.mem_append.mp hb with hzero | hdigits
  · cases zero with
    | false => simp at hzero
    | true =>
        rw [show b = 48 by simpa using hzero]
        decide
  · by_cases hwidth : width = 0
    · simp [hwidth] at hdigits
    · exact isDigit_of_mem_toText (Int.natCast_nonneg width) b (by simpa [hwidth] using hdigits)

theorem extend_widthText (zero : Bool) (width : Nat) : extend 0 (widthText zero width) = width := by
  have hzero : extend 0 (if zero then [48] else []) = 0 := by cases zero <;> rfl
  rw [widthText, extend_append, hzero]
  by_cases hwidth : width = 0
  · simp [hwidth, extend]
  · rw [if_neg hwidth, extend_toText (Int.natCast_nonneg width)]

theorem current_widthText (hrest : ¬IsDigit (current rest)) :
    current (widthText zero width ++ rest) = 48 ↔ zero = true := by
  cases zero with
  | true => exact iff_of_true rfl rfl
  | false =>
      refine iff_of_false (fun hcurrent => ?_) Bool.false_ne_true
      by_cases hwidth : width = 0
      · have hnil : widthText false width = [] := by simp [widthText, hwidth]
        rw [hnil, List.nil_append] at hcurrent
        rw [hcurrent] at hrest
        exact hrest (by decide)
      · have htext : widthText false width = toText width := by simp [widthText, hwidth]
        rw [htext] at hcurrent
        cases hdigits : toText width with
        | nil => exact absurd (length_toText_pos width) (by simp [hdigits])
        | cons c cs =>
            refine current_toText hwidth ?_
            rw [hdigits] at hcurrent ⊢
            exact hcurrent

theorem directive_eq (hzero : ch ≠ 0) (hlong : ch ≠ 108) (hdigit : ¬IsDigit ch) :
    directive (widthText zero width ++ ((if long then [108] else []) ++ ch :: rest)) args b =
      (convert ch long (.ofNat width) (if zero then 48 else 32) args b).map fun r => (rest, r) := by
  have hrest : ¬IsDigit (current ((if long then [108] else []) ++ ch :: rest)) := by
    cases long with
    | false => exact hdigit
    | true =>
        have hletter : ¬IsDigit 108 := by decide
        exact hletter
  have hread := readWidth_append (widthText_isDigit zero width) hrest 0
  have hpad : (if current (widthText zero width ++ ((if long then [108] else []) ++ ch :: rest)) =
      48 then (48 : UInt8) else 32) = if zero then 48 else 32 :=
    if_congr (current_widthText hrest) rfl rfl
  rw [extend_widthText, ofInt_natCast] at hread
  unfold directive
  rw [hpad, show (0 : UInt32) = .ofInt 0 from rfl, hread]
  cases long with
  | false => simp [current, hzero, hlong]
  | true => simp [current, hzero, hlong]

variable {pieces : List Piece}

theorem putNumber_shows (h : Shows bytes bufferLen t b) (hs : s.length < 24) :
    ∃ b', putNumber b (some s) = some b' ∧ Shows bytes bufferLen (t ++ s) b' :=
  ⟨b.puts s, by simp [putNumber, hs], h.puts s⟩

theorem length_numberText (zero : Bool) (width radix : Nat) (uppercase : Bool) (z : Int) :
    width ≤ (numberText zero width radix uppercase z).length := by
  simp [numberText]
  omega

theorem number_shows {kind : Kind} {w : UInt64} (args : List Arg) (h : Shows bytes bufferLen t b)
    (hmin : kind.value long w ≠ -2 ^ 63)
    (hfit : (numberText zero width kind.radix kind.uppercase (kind.value long w)).length < 24) :
    ∃ b', convert kind.letter long (.ofNat width) (if zero then 48 else 32) (.word w :: args) b =
        some (args, b') ∧
      Shows bytes bufferLen
        (t ++ numberText zero width kind.radix kind.uppercase (kind.value long w)) b' := by
  have hwidth : (UInt32.ofNat width).toNat = width := by
    have hle := length_numberText zero width kind.radix kind.uppercase (kind.value long w)
    rw [UInt32.toNat_ofNat']
    omega
  obtain ⟨b', hput, hshows⟩ := putNumber_shows h hfit
  refine ⟨b', ?_, hshows⟩
  cases kind with
  | signed =>
      have hvalue : (signedArg long w).toInt = Kind.signed.value long w := by
        cases long <;> simp [signedArg, Kind.value]
      have htext : miniItoa (signedArg long w) 10 false false (.ofNat width)
          (if zero then 48 else 32) = some (numberText zero width 10 false _) :=
        hwidth ▸ miniItoa_signed zero (by decide) (by decide) (hvalue ▸ hmin)
      rw [hvalue] at htext
      simpa [convert, Kind.letter, htext, Kind.radix, Kind.uppercase] using hput
  | unsigned =>
      have hvalue : ((unsignedArg long w).toUInt64.toNat : Int) = Kind.unsigned.value long w := by
        cases long <;> simp [unsignedArg, Kind.value]
      have htext : miniItoa (unsignedArg long w) 10 false true (.ofNat width)
          (if zero then 48 else 32) = some (numberText zero width 10 false _) :=
        hwidth ▸ miniItoa_unsigned zero (by decide) (by decide)
      rw [hvalue] at htext
      simpa [convert, Kind.letter, htext, Kind.radix, Kind.uppercase] using hput
  | hexadecimal uppercase =>
      have hvalue : ((unsignedArg long w).toUInt64.toNat : Int) =
          (Kind.hexadecimal uppercase).value long w := by
        cases long <;> simp [unsignedArg, Kind.value]
      have htext : miniItoa (unsignedArg long w) 16 uppercase true (.ofNat width)
          (if zero then 48 else 32) = some (numberText zero width 16 uppercase _) :=
        hwidth ▸ miniItoa_unsigned zero (by decide) (by decide)
      rw [hvalue] at htext
      cases uppercase <;>
        simpa [convert, Kind.letter, htext, Kind.radix, Kind.uppercase] using hput

theorem string_shows (s : List UInt8) (args : List Arg) (h : Shows bytes bufferLen t b)
    (hwidth : width < 2 ^ 32) :
    ∃ b', convert 115 false (.ofNat width) (if false then 48 else 32) (.string s :: args) b =
        some (args, b') ∧
      Shows bytes bufferLen (t ++ (s ++ List.replicate (width - s.length) 32)) b' := by
  have hword : (UInt32.ofNat width).toNat = width := by
    rw [UInt32.toNat_ofNat']
    omega
  by_cases hpad : s.length < width
  · refine ⟨_, ?_, List.append_assoc t s _ ▸ (h.puts s).puts _⟩
    simp [convert, hword, hpad, -UInt32.toNat_ofNat']
  · have hnil : List.replicate (width - s.length) (32 : UInt8) = [] := by
      rw [Nat.sub_eq_zero_of_le (Nat.le_of_not_lt hpad), List.replicate_zero]
    refine ⟨b.puts s, ?_, by simpa [hnil] using h.puts s⟩
    simp [convert, hword, hpad, -UInt32.toNat_ofNat']

theorem formatLoop_cons (hzero : ch ≠ 0) (hfull : ¬b.Full) (rounds : Nat) (fmt : List UInt8)
    (args : List Arg) :
    formatLoop (rounds + 1) (ch :: fmt) args b =
      if ch = 37 then (directive fmt args b).bind fun r => formatLoop rounds r.1 r.2.1 r.2.2
      else formatLoop rounds fmt args (b.putc ch) := by
  simp [formatLoop, current, hzero, hfull]

theorem Kind.letter_ne (kind : Kind) :
    kind.letter ≠ 0 ∧ kind.letter ≠ 108 ∧ ¬IsDigit kind.letter := by
  cases kind with
  | signed => decide
  | unsigned => decide
  | hexadecimal uppercase => cases uppercase <;> decide

theorem formatLoop_conversion {args' : List Arg} {b' : MiniBuff} (hfull : ¬b.Full) (hzero : ch ≠ 0)
    (hlong : ch ≠ 108) (hdigit : ¬IsDigit ch)
    (hconvert : convert ch long (.ofNat width) (if zero then 48 else 32) args b = some (args', b'))
    (rounds : Nat) (fmt : List UInt8) :
    formatLoop (rounds + 1)
        (37 :: (widthText zero width ++ ((if long then [108] else []) ++ [ch])) ++ fmt) args b =
      formatLoop rounds fmt args' b' := by
  simp [formatLoop_cons, hfull, directive_eq hzero hlong hdigit, hconvert]

/-- One round of the loop puts the text of one part behind what the buffer
holds. -/
theorem formatLoop_piece {piece : Piece} {args' : List Arg} (h : Makes piece args s args')
    (hshows : Shows bytes bufferLen t b) (hfull : ¬b.Full) (rounds : Nat) (fmt : List UInt8) :
    ∃ b', formatLoop (rounds + 1) (piece.format ++ fmt) args b = formatLoop rounds fmt args' b' ∧
      Shows bytes bufferLen (t ++ s) b' := by
  cases h with
  | @plain c _ hzero hpercent =>
      refine ⟨b.putc c, ?_, hshows.putc c⟩
      simp [Piece.format, formatLoop_cons hzero hfull, hpercent]
  | percent =>
      have hconvert : convert 37 false (.ofNat 0) (if false then 48 else 32) args b =
          some (args, b.putc 37) := rfl
      exact ⟨b.putc 37, formatLoop_conversion hfull (by decide) (by decide) (by decide) hconvert
        rounds fmt, hshows.putc 37⟩
  | @number zero long width kind w _ hmin hfit =>
      obtain ⟨hzero, hlong, hdigit⟩ := kind.letter_ne
      obtain ⟨b', hconvert, hshows'⟩ := number_shows args' hshows hmin hfit
      exact ⟨b', formatLoop_conversion hfull hzero hlong hdigit hconvert rounds fmt, hshows'⟩
  | @character w _ =>
      have hconvert : convert 99 false (.ofNat 0) (if false then 48 else 32) (.word w :: args') b =
          some (args', b.putc w.toUInt8) := rfl
      exact ⟨b.putc w.toUInt8, formatLoop_conversion hfull (by decide) (by decide) (by decide)
        hconvert rounds fmt, hshows.putc _⟩
  | @string width s _ hs hwidth =>
      obtain ⟨b', hconvert, hshows'⟩ := string_shows s args' hshows hwidth
      exact ⟨b', formatLoop_conversion hfull (by decide) (by decide) (by decide) hconvert rounds
        fmt, hshows'⟩

theorem Makes.format_ne {piece : Piece} {args' : List Arg} (h : Makes piece args s args') :
    ∃ c fmt, piece.format = c :: fmt ∧ c ≠ 0 := by
  cases h with
  | plain hzero _ => exact ⟨_, _, rfl, hzero⟩
  | percent | number | character | string => exact ⟨37, _, rfl, by decide⟩

theorem formatLoop_shows {rounds : Nat} {t' : List UInt8} (h : Renders pieces args t')
    (hshows : Shows bytes bufferLen t b) (hrounds : (formatOf pieces).length < rounds) :
    ∃ b', formatLoop rounds (formatOf pieces) args b = some b' ∧
      Shows bytes bufferLen (t ++ t') b' := by
  induction h generalizing t b rounds with
  | nil =>
      cases rounds with
      | zero => simp at hrounds
      | succ rounds => exact ⟨b, rfl, by simpa using hshows⟩
  | @cons piece pieces args args' s t' hmakes hrest ih =>
      obtain ⟨c, fmt, hformat, hzero⟩ := hmakes.format_ne
      cases rounds with
      | zero => simp at hrounds
      | succ rounds =>
          by_cases hfull : b.Full
          · refine ⟨b, ?_, hshows.more hfull _⟩
            simp [formatOf, hformat, formatLoop, current, hzero, hfull]
          · obtain ⟨b', hloop, hshows'⟩ :=
              formatLoop_piece hmakes hshows hfull rounds (formatOf pieces)
            have hlength : (formatOf pieces).length < rounds := by
              simp [formatOf, hformat] at hrounds ⊢
              omega
            obtain ⟨b₁, hreturns, hshows₁⟩ := ih hshows' hlength
            rw [formatOf, List.flatMap_cons, ← formatOf, hloop, hreturns]
            exact ⟨b₁, rfl, List.append_assoc t s t' ▸ hshows₁⟩

theorem shows_start (bytes : Nat → UInt8) (h : 0 < bufferLen.toNat) :
    Shows bytes bufferLen [] ⟨bytes, 0, bufferLen⟩ := by
  refine ⟨?_, fun hne => absurd List.take_nil hne, by simpa using h⟩
  have hlaid : laid bytes [] = bytes := rfl
  simp [MiniBuff.terminate, hlaid]

theorem Shows.bytes_eq (h : Shows bytes bufferLen t b) :
    b.pbuffer = (t.take (bufferLen.toNat - 1)).length ∧
      (∀ i < b.pbuffer, some (b.bytes i) = t[i]?) ∧
      (0 < b.pbuffer → b.bytes b.pbuffer = 0) ∧ ∀ a, b.pbuffer < a → b.bytes a = bytes a := by
  have hp := h.pbuffer
  have hbytes : ∀ a, a ≠ b.pbuffer →
      b.bytes a = laid bytes (t.take (bufferLen.toNat - 1)) a := by
    intro a ha
    have hterminated : Function.update b.bytes b.pbuffer 0 a = Function.update
        (laid bytes (t.take (bufferLen.toNat - 1))) (t.take (bufferLen.toNat - 1)).length 0 a :=
      congrFun (congrArg MiniBuff.bytes h.terminated) a
    rwa [Function.update_of_ne ha, ← hp, Function.update_of_ne ha] at hterminated
  refine ⟨hp, fun i hi => ?_, fun hpos => ?_, fun a ha => ?_⟩
  · rw [hp, List.length_take] at hi
    rw [hbytes i (by rw [hp, List.length_take]; omega)]
    have htext : i < t.length := by omega
    simp [laid, htext, show i < bufferLen.toNat - 1 by omega]
  · have hne : t.take (bufferLen.toNat - 1) ≠ [] := by
      rw [← List.length_pos_iff, ← hp]
      exact hpos
    have hended := congrArg MiniBuff.bytes (h.ended hne)
    rw [← hended]
    exact Function.update_self ..
  · have hout : (t.take (bufferLen.toNat - 1))[a]? = none := List.getElem?_eq_none (by omega)
    rw [hbytes a ha.ne', laid, List.getD_eq_getElem?_getD, hout, Option.getD_none]

/-- `mini_vsnprintf` returns for every format that makes a text: the buffer gets
as much of the text as fits before the terminator, and no byte behind the
terminator is stored into. -/
theorem miniVsnprintf_renders (h : Renders pieces args t) (hlen : 0 < bufferLen.toNat) :
    ∃ b, miniVsnprintf bytes bufferLen (formatOf pieces) args = some b ∧
      b.pbuffer = (t.take (bufferLen.toNat - 1)).length ∧
      (∀ i < b.pbuffer, some (b.bytes i) = t[i]?) ∧
      (0 < b.pbuffer → b.bytes b.pbuffer = 0) ∧ ∀ a, b.pbuffer < a → b.bytes a = bytes a := by
  obtain ⟨b, hreturns, hshows⟩ := formatLoop_shows h (shows_start bytes hlen) (Nat.lt_succ_self _)
  exact ⟨b, hreturns, hshows.bytes_eq⟩

/-- A number, a bar and a string in a buffer of eight bytes. -/
theorem barred_renders :
    ∃ b, miniVsnprintf (fun _ => 7) 8
        (formatOf [.number false 5 false .signed, .plain 124, .string 0])
        [.word 42, .string [65, 66, 67]] = some b ∧
      b.pbuffer = 7 ∧
      (∀ i < b.pbuffer, some (b.bytes i) = [32, 32, 32, 52, 50, 124, 65, 66, 67][i]?) ∧
      (0 < b.pbuffer → b.bytes b.pbuffer = 0) ∧ ∀ a, b.pbuffer < a → b.bytes a = 7 := by
  have hnumber : Makes (.number false 5 false .signed) [.word 42, .string [65, 66, 67]]
      [32, 32, 32, 52, 50] [.string [65, 66, 67]] := .number (by decide) (by decide)
  have hbar : Makes (.plain 124) [.string [65, 66, 67]] [124] [.string [65, 66, 67]] :=
    .plain (by decide) (by decide)
  have hstring : Makes (.string 0) [.string [65, 66, 67]] [65, 66, 67] [] :=
    .string (by decide) (by decide)
  exact miniVsnprintf_renders (.cons hnumber (.cons hbar (.cons hstring .nil))) (by decide)

/-- `_vprint` hands out the first 255 characters of the text, up to a zero
among them. -/
theorem vprint_renders (h : Renders pieces args t) (stack : Nat → UInt8) :
    vprint stack (formatOf pieces) args = some (text (t.take 255)) := by
  have hstart : Shows stack 256 [] ⟨stack, 0, 256⟩ := shows_start stack (by decide)
  obtain ⟨b, hreturns, hshows⟩ := formatLoop_shows h hstart (Nat.lt_succ_self _)
  have hlaid : ∀ out : List UInt8, (List.range out.length).map (laid stack out) = out := by
    intro out
    refine List.ext_getElem (by simp) fun i hi hi' => ?_
    simp [laid, hi']
  have htext : ∀ out : List UInt8, text (out ++ [0]) = text out := by
    intro out
    induction out with
    | nil => rfl
    | cons c out ih => by_cases hc : c = 0 <;> simp [text, hc] at ih ⊢; exact ih
  have hbytes : (List.range (b.pbuffer + 1)).map b.terminate.bytes = t.take 255 ++ [0] := by
    have hout : ∀ i ∈ List.range (t.take 255).length,
        Function.update (laid stack (t.take 255)) (t.take 255).length 0 i =
          laid stack (t.take 255) i := fun i hi =>
      Function.update_of_ne (List.mem_range.mp hi).ne ..
    rw [hshows.terminated, hshows.pbuffer]
    change (List.range ((t.take 255).length + 1)).map
      (Function.update (laid stack (t.take 255)) (t.take 255).length 0) = _
    rw [List.range_succ, List.map_append, List.map_congr_left hout, hlaid]
    simp
  rw [vprint, miniVsnprintf, hreturns, Option.map_some, hbytes, htext]

end LabKernel.FormattedText
