import LabKernel.DecimalText
import Mathlib.Logic.Function.Basic

/-!
A terminal on a serial line: the bytes that it receives and the characters that
it shows.  Where its cursor goes behind a character is left open.
-/

namespace LabKernel.SerialTerminal

open LabKernel.DecimalText

/-- What the terminal has read of a control sequence: the numbers that are
complete, and the one that is being read. -/
inductive Mode
  | ground
  | escape
  | parameters (done : List Nat) (number : Nat)
  | privateParameters
  deriving DecidableEq

/-- The device at the other end of the line, which is not part of the kernel: a
specification of the sequences that the driver sends.  It has the characters by
their rows and columns, both from 0, and the cursor. -/
structure Terminal where
  cells : Nat → Nat → UInt8
  row : Nat
  column : Nat
  mode : Mode

/-- The bytes that show as a character. -/
def IsPrintable (b : UInt8) : Prop := 32 ≤ b ∧ b ≤ 126

instance (b : UInt8) : Decidable (IsPrintable b) := inferInstanceAs (Decidable (_ ∧ _))

def Terminal.put (t : Terminal) (b : UInt8) : Terminal :=
  { t with cells := Function.update t.cells t.row (Function.update (t.cells t.row) t.column b) }

/-- The cursor goes to a place whose row and column are counted from 1; a zero
stands for one. -/
def Terminal.moveTo (t : Terminal) (row column : Nat) : Terminal :=
  { t with row := row - 1, column := column - 1, mode := .ground }

def Terminal.clear (t : Terminal) : Terminal :=
  { t with cells := fun _ _ => 32, mode := .ground }

/-- The end of a control sequence. -/
def Terminal.finish (t : Terminal) (done : List Nat) (number : Nat) (b : UInt8) :
    Option Terminal :=
  if b = 72 then
    match done with
    | [row] => some (t.moveTo row number)
    | _ => none
  else if b = 74 ∧ done = [] ∧ number = 2 then some t.clear
  else none

variable (advance : Nat → Nat → Nat × Nat)

/-- A byte is received.  Other bytes and sequences than these have effects that
are not described. -/
def Terminal.receive (t : Terminal) (b : UInt8) : Option Terminal :=
  match t.mode with
  | .ground =>
      if b = 27 then some { t with mode := .escape }
      else if IsPrintable b then
        let next := advance t.row t.column
        some { t.put b with row := next.1, column := next.2 }
      else none
  | .escape => if b = 91 then some { t with mode := .parameters [] 0 } else none
  | .parameters done number =>
      if IsDigit b then some { t with mode := .parameters done (number * 10 + (b.toNat - 48)) }
      else if b = 59 then some { t with mode := .parameters (done ++ [number]) 0 }
      else if b = 63 then some { t with mode := .privateParameters }
      else t.finish done number b
  | .privateParameters =>
      if IsDigit b then some t
      else if b = 108 ∨ b = 104 then some { t with mode := .ground }
      else none

def Terminal.receiveAll (t : Terminal) (bytes : List UInt8) : Option Terminal :=
  bytes.foldlM (Terminal.receive advance) t

variable {t t' : Terminal} {bytes bytes' digits : List UInt8} {done : List Nat}
  {number row column : Nat}

theorem receiveAll_append (t : Terminal) (bytes bytes' : List UInt8) :
    t.receiveAll advance (bytes ++ bytes') =
      (t.receiveAll advance bytes).bind fun t => t.receiveAll advance bytes' := by
  simp [Terminal.receiveAll]

theorem receiveAll_cons (t : Terminal) (b : UInt8) (bytes : List UInt8) :
    t.receiveAll advance (b :: bytes) =
      (t.receive advance b).bind fun t => t.receiveAll advance bytes := by
  simp [Terminal.receiveAll]

@[simp] theorem receiveAll_nil (t : Terminal) : t.receiveAll advance [] = some t := rfl

theorem receiveAll_digits (h : ∀ b ∈ digits, IsDigit b) (hmode : t.mode = .parameters done number) :
    ∃ n : Nat, (n : Int) = extend number digits ∧
      t.receiveAll advance digits = some { t with mode := .parameters done n } := by
  induction digits generalizing t number with
  | nil => exact ⟨number, rfl, by simp [← hmode]⟩
  | cons b digits ih =>
      have hb := h b (by simp)
      have hge : 48 ≤ b.toNat := UInt8.le_iff_toNat_le.mp hb.1
      have hstep : t.receive advance b =
          some { t with mode := .parameters done (number * 10 + (b.toNat - 48)) } := by
        simp [Terminal.receive, hmode, hb]
      obtain ⟨n, hn, hrest⟩ := ih (t := { t with mode := _ }) (fun c hc => h c (by simp [hc])) rfl
      refine ⟨n, ?_, by rw [receiveAll_cons, hstep]; exact hrest⟩
      rw [hn]
      change _ = extend ((number : Int) * 10 + b.toNat - 48) digits
      congr 1
      omega

theorem receiveAll_toText (hmode : t.mode = .parameters done 0) (n : Nat) :
    t.receiveAll advance (toText n) = some { t with mode := .parameters done n } := by
  obtain ⟨n', hn, hreceive⟩ :=
    receiveAll_digits advance (isDigit_of_mem_toText (Int.natCast_nonneg n)) hmode
  rw [Int.ofNat_zero, extend_toText (Int.natCast_nonneg n)] at hn
  rw [hreceive, Int.ofNat.inj hn]

/-- The sequence that moves the cursor. -/
def moveSequence (row column : Nat) : List UInt8 :=
  27 :: 91 :: (toText row ++ 59 :: (toText column ++ [72]))

theorem receiveAll_moveSequence (hmode : t.mode = .ground) (row column : Nat) :
    t.receiveAll advance (moveSequence row column) = some (t.moveTo row column) := by
  have hescape : t.receive advance 27 = some { t with mode := .escape } := by
    simp [Terminal.receive, hmode]
  have hbracket : Terminal.receive advance { t with mode := .escape } 91 =
      some { t with mode := .parameters [] 0 } := rfl
  have hrow : Terminal.receiveAll advance { t with mode := .parameters [] 0 } (toText row) =
      some { t with mode := .parameters [] row } := receiveAll_toText advance rfl row
  have hsemicolon : Terminal.receive advance { t with mode := .parameters [] row } 59 =
      some { t with mode := .parameters [row] 0 } := rfl
  have hcolumn : Terminal.receiveAll advance { t with mode := .parameters [row] 0 }
      (toText column) = some { t with mode := .parameters [row] column } :=
    receiveAll_toText advance rfl column
  have hfinish : Terminal.receive advance { t with mode := .parameters [row] column } 72 =
      some (t.moveTo row column) := rfl
  simp [moveSequence, receiveAll_cons, receiveAll_append, hescape, hbracket, hrow, hsemicolon,
    hcolumn, hfinish]

theorem receiveAll_clear (hmode : t.mode = .ground) :
    t.receiveAll advance [27, 91, 50, 74] = some t.clear := by
  have hescape : t.receive advance 27 = some { t with mode := .escape } := by
    simp [Terminal.receive, hmode]
  rw [receiveAll_cons, hescape]
  rfl

theorem receiveAll_hide (hmode : t.mode = .ground) :
    t.receiveAll advance [27, 91, 63, 50, 53, 108] = some t := by
  have hescape : t.receive advance 27 = some { t with mode := .escape } := by
    simp [Terminal.receive, hmode]
  have hrest : Terminal.receiveAll advance { t with mode := .escape } [91, 63, 50, 53, 108] =
      some { t with mode := .ground } := rfl
  rw [receiveAll_cons, hescape, Option.bind_some, hrest, ← hmode]

theorem receive_printable {b : UInt8} (hmode : t.mode = .ground) (hb : IsPrintable b) :
    ∃ t', t.receiveAll advance [b] = some t' ∧ t'.mode = .ground ∧ t'.cells = (t.put b).cells := by
  have hne : b ≠ 27 := fun heq => by
    rw [heq] at hb
    exact absurd hb (by decide)
  simp [receiveAll_cons, Terminal.receive, hmode, hb, hne, Terminal.put]

end LabKernel.SerialTerminal
