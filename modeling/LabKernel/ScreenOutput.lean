import LabKernel.FormattedText
import LabKernel.ScreenCursor
import LabKernel.SerialTerminal
import LabKernel.Simulation

/-!
What the screen driver (`drivers/screen.cpp`) sends over the serial line, and
what a terminal at the other end shows.
-/

namespace LabKernel.ScreenOutput

open LabKernel.DecimalText
open LabKernel.FormattedText
open LabKernel.ScreenCursor
open LabKernel.SerialTerminal
open LabKernel.Simulation

/-- The screen, and the bytes that were sent. -/
structure Console (Process : Type*) where
  screen : Screen Process
  sent : List UInt8

section Driver

variable {Process : Type*} (stack : Nat → UInt8)

/-- A C `int` that is passed behind a format. -/
def intArg (x : Int) : Arg := .word (.ofInt x)

/-- `printv("%c[%d;%dH", 27, y, x)`. -/
def vt100MoveCursor (x y : Int) : Option (List UInt8) :=
  vprint stack [37, 99, 91, 37, 100, 59, 37, 100, 72] [intArg 27, intArg y, intArg x]

/-- `printv("%c[2J", 27)`. -/
def vt100Clear : Option (List UInt8) := vprint stack [37, 99, 91, 50, 74] [intArg 27]

/-- `printv("%c[?25l", 27)`. -/
def vt100HiddenCursor : Option (List UInt8) :=
  vprint stack [37, 99, 91, 63, 50, 53, 108] [intArg 27]

def Console.send (c : Console Process) (text : Option (List UInt8)) : Option (Console Process) :=
  text.map fun bytes => { c with sent := c.sent ++ bytes }

/-- `old_screen[loc] = new_screen[loc]`. -/
def drawn (s : Screen Process) (loc : Int) : Screen Process :=
  { s with oldScreen := Function.update s.oldScreen loc (s.newScreen loc) }

/-- The body of the loops of `screen_reflush`. -/
def reflushPlace (c : Console Process) (place : Nat × Nat) : Option (Console Process) :=
  let loc := screenLoc place.2 place.1
  if c.screen.newScreen loc ≠ c.screen.oldScreen loc then
    (c.send (vt100MoveCursor stack (place.2 + 1) (place.1 + 1))).map fun c =>
      { screen := drawn c.screen loc, sent := c.sent ++ [c.screen.newScreen loc] }
  else some c

/-- The rows and columns of the two loops, in their order. -/
@[irreducible]
def places : List (Nat × Nat) :=
  (List.range 50).flatMap fun i => (List.range 80).map fun j => (i, j)

/-- `screen_reflush`. -/
def reflush (p : Process) (c : Console Process) : Option (Console Process) :=
  (places.foldlM (reflushPlace stack) c).bind fun c =>
    c.send (vt100MoveCursor stack (c.screen.cursor p).x (c.screen.cursor p).y)

variable [DecidableEq Process]

/-- `screen_clear`. -/
def clear (p : Process) (c : Console Process) : Option (Console Process) :=
  reflush stack p { c with screen :=
    (locations.foldl (fun s loc => s.store loc 32) c.screen).setCursor p ⟨0, 0⟩ }

/-- `screen_move_cursor`. -/
def moveCursor (p : Process) (c : Console Process) (x y : Int) : Option (Console Process) :=
  let screen := screenMoveCursor p c.screen x y
  { c with screen := screen }.send
    (vt100MoveCursor stack ((screen.cursor p).x + 1) ((screen.cursor p).y + 1))

/-- `init_screen`. -/
def initScreen (p : Process) (c : Console Process) : Option (Console Process) :=
  (c.send (vt100HiddenCursor stack)).bind fun c =>
    (c.send (vt100Clear stack)).bind fun c => clear stack p c

inductive Action (Process : Type*)
  | init (p : Process)
  | call (call : Call Process)
  | reflush (p : Process)

def act (c : Console Process) : Action Process → Option (Console Process)
  | .init p => initScreen stack p c
  | .call (.write p buff) => some { c with screen := screenWrite p c.screen buff }
  | .call (.moveCursor p x y) => moveCursor stack p c x y
  | .call (.clear p) => clear stack p c
  | .reflush p => reflush stack p c

/-- A character that shows, a line feed, or one of the two that go back. -/
def IsText (ch : UInt8) : Prop := IsPrintable ch ∨ ch = 10 ∨ ch = 8 ∨ ch = 127

/-- The text that is written stays on the screen and shows on a terminal. -/
def Allowed (c : Console Process) : Action Process → Prop
  | .call (.write p buff) => Fits c.screen (.write p buff) ∧ ∀ ch ∈ buff, IsText ch
  | _ => True

def Acts (c : Console Process) (a : Action Process) (c' : Console Process) : Prop :=
  Allowed c a ∧ act stack c a = some c'

/-- Nothing was sent. -/
def silent : Console Process := ⟨initial, []⟩

end Driver

variable {Process : Type*} (stack : Nat → UInt8) {c c' : Console Process} {s : Screen Process}
  {p : Process} {bytes : List UInt8} {advance : Nat → Nat → Nat × Nat} {t₀ t t' : Terminal}
  {i j : Nat}

theorem value_intArg : ∀ n < 128, Kind.signed.value false (.ofInt (n : Nat)) = n := by
  decide

theorem numberText_toText (n : Nat) : numberText false 0 10 false n = toText n := by
  have hnonneg : ¬((n : Int) < 0) := by omega
  simp [numberText, toText, numeral, hnonneg]

theorem makes_number {n : Nat} (h : n < 128) (args : List Arg) :
    Makes (.number false 0 false .signed) (intArg n :: args) (toText n) args := by
  have hvalue := value_intArg n h
  have hlength : (toText n).length ≤ 10 := length_toText_le (by omega) (by omega)
  have hmakes : Makes (.number false 0 false .signed) (intArg n :: args)
      (numberText false 0 10 false (Kind.signed.value false (.ofInt (n : Nat)))) args := by
    refine .number ?_ ?_
    · rw [hvalue]
      omega
    · rw [hvalue]
      exact (congrArg List.length (numberText_toText n)).trans_lt (by omega)
  rwa [hvalue, numberText_toText] at hmakes

theorem makes_escape (args : List Arg) : Makes .character (intArg 27 :: args) [27] args :=
  .character

theorem text_of_ne_zero (h : ∀ ch ∈ bytes, ch ≠ 0) (hlength : bytes.length ≤ 255) :
    DecimalText.text (bytes.take 255) = bytes := by
  rw [List.take_of_length_le hlength, DecimalText.text, List.takeWhile_eq_self_iff]
  simpa using h

theorem vt100MoveCursor_eq (hi : i < 128) (hj : j < 128) :
    vt100MoveCursor stack j i = some (moveSequence i j) := by
  have hrenders : Renders [.character, .plain 91, .number false 0 false .signed, .plain 59,
      .number false 0 false .signed, .plain 72] [intArg 27, intArg i, intArg j]
      (moveSequence i j) := by
      have hend : Renders [.plain 72] [] ([72] ++ []) := .cons (.plain (by decide) (by decide)) .nil
      have hrow := Renders.cons (makes_number hi [intArg j])
        (.cons (.plain (c := 59) (by decide) (by decide)) (.cons (makes_number hj []) hend))
      simpa [moveSequence] using
        Renders.cons (makes_escape _) (.cons (.plain (c := 91) (by decide) (by decide)) hrow)
  have hzero : ∀ ch ∈ moveSequence i j, ch ≠ 0 := by
    have hdigits : ∀ n : Nat, ∀ ch ∈ toText n, ch ≠ 0 := fun n ch hch =>
      ne_zero_of_isDigit (isDigit_of_mem_toText (Int.natCast_nonneg n) ch hch)
    simp only [moveSequence, List.mem_cons, List.mem_append]
    rintro ch (rfl | rfl | hch | rfl | hch | rfl | hch)
    · decide
    · decide
    · exact hdigits i ch hch
    · decide
    · exact hdigits j ch hch
    · decide
    · cases hch
  have hlength : (moveSequence i j).length ≤ 255 := by
    have hrow : (toText i).length ≤ 10 := length_toText_le (by omega) (by omega)
    have hcolumn : (toText j).length ≤ 10 := length_toText_le (by omega) (by omega)
    simp [moveSequence]
    omega
  have hformat : formatOf [.character, .plain 91, .number false 0 false .signed, .plain 59,
      .number false 0 false .signed, .plain 72] = [37, 99, 91, 37, 100, 59, 37, 100, 72] := rfl
  have hprinted := vprint_renders hrenders stack
  rw [text_of_ne_zero hzero hlength, hformat] at hprinted
  exact hprinted

theorem renders_plain (h : ∀ ch ∈ bytes, ch ≠ 0 ∧ ch ≠ 37) :
    Renders (bytes.map .plain) [] bytes := by
  induction bytes with
  | nil => exact .nil
  | cons ch bytes ih =>
      obtain ⟨hzero, hpercent⟩ := h ch (by simp)
      exact .cons (.plain hzero hpercent) (ih fun ch hch => h ch (by simp [hch]))

theorem vprint_escape (bytes : List UInt8) (h : ∀ ch ∈ bytes, ch ≠ 0 ∧ ch ≠ 37)
    (hlength : bytes.length < 255) :
    vprint stack (37 :: 99 :: bytes) [intArg 27] = some (27 :: bytes) := by
  have hrenders : Renders (.character :: bytes.map .plain) [intArg 27] (27 :: bytes) :=
    .cons (makes_escape []) (renders_plain h)
  have hzero : ∀ ch ∈ 27 :: bytes, ch ≠ 0 := by
    simpa using fun ch hch => (h ch hch).1
  have hplain : formatOf (bytes.map .plain) = bytes := by
    simp [formatOf, List.flatMap_map, Piece.format]
  have hformat : formatOf (.character :: bytes.map .plain) = 37 :: 99 :: bytes :=
    congrArg (fun fmt => 37 :: 99 :: fmt) hplain
  have hprinted := vprint_renders hrenders stack
  rw [text_of_ne_zero hzero hlength, hformat] at hprinted
  exact hprinted

theorem vt100Clear_eq : vt100Clear stack = some [27, 91, 50, 74] :=
  vprint_escape stack [91, 50, 74] (by simp) (by simp)

theorem vt100HiddenCursor_eq : vt100HiddenCursor stack = some [27, 91, 63, 50, 53, 108] :=
  vprint_escape stack [91, 63, 50, 53, 108] (by simp) (by simp)

theorem screenLoc_inj {i' j' : Nat} (hj : j < 80) (hj' : j' < 80)
    (h : screenLoc j i = screenLoc j' i') : i = i' ∧ j = j' := by
  simp only [screenLoc, screenWidth] at h
  omega

/-- What was sent brings the terminal into a state between two sequences. -/
def Received (advance : Nat → Nat → Nat × Nat) (t₀ : Terminal) (c : Console Process)
    (t : Terminal) : Prop :=
  t₀.receiveAll advance c.sent = some t ∧ t.mode = .ground

/-- Where nothing is left to draw, the terminal shows the screen. -/
def Tracks (s : Screen Process) (t : Terminal) : Prop :=
  ∀ i j : Nat, i < 50 → j < 80 → s.newScreen (screenLoc j i) = s.oldScreen (screenLoc j i) →
    s.newScreen (screenLoc j i) ≠ 0 → t.cells i j = s.newScreen (screenLoc j i)

/-- Everything that is still to be drawn shows. -/
def Drawable (s : Screen Process) : Prop :=
  ∀ i j : Nat, i < 50 → j < 80 → s.newScreen (screenLoc j i) ≠ s.oldScreen (screenLoc j i) →
    IsPrintable (s.newScreen (screenLoc j i))

theorem Received.send (h : Received advance t₀ c t) (hbytes : t.receiveAll advance bytes = some t')
    (hmode : t'.mode = .ground) :
    ∃ c', c.send (some bytes) = some c' ∧ c'.screen = c.screen ∧ Received advance t₀ c' t' := by
  refine ⟨_, rfl, rfl, ?_, hmode⟩
  rw [receiveAll_append, h.1]
  exact hbytes

theorem Received.moveCursor (h : Received advance t₀ c t) (hi : i < 128) (hj : j < 128) :
    ∃ c', c.send (vt100MoveCursor stack j i) = some c' ∧ c'.screen = c.screen ∧
      Received advance t₀ c' (t.moveTo i j) := by
  rw [vt100MoveCursor_eq stack hi hj]
  exact h.send (receiveAll_moveSequence advance h.2 i j) rfl

theorem drawn_of_eq {loc : Int} (h : s.newScreen loc = s.oldScreen loc) : drawn s loc = s := by
  rw [drawn, h, Function.update_eq_self]

theorem oldScreen_drawn {loc loc' : Int} :
    (drawn s loc).oldScreen loc' = if loc' = loc then s.newScreen loc else s.oldScreen loc' := by
  simp only [drawn, Function.update_apply]

theorem reflushPlace_tracks (h : Received advance t₀ c t) (htracks : Tracks c.screen t)
    (hdrawable : Drawable c.screen) (hi : i < 50) (hj : j < 80) :
    ∃ c' t', reflushPlace stack c (i, j) = some c' ∧ Received advance t₀ c' t' ∧
      c'.screen = drawn c.screen (screenLoc j i) ∧ Tracks c'.screen t' ∧ Drawable c'.screen := by
  by_cases hsame : c.screen.newScreen (screenLoc j i) = c.screen.oldScreen (screenLoc j i)
  · exact ⟨c, t, by simp [reflushPlace, hsame], h, (drawn_of_eq hsame).symm, htracks, hdrawable⟩
  · obtain ⟨c₁, hsend, hscreen, hreceived⟩ :=
      h.moveCursor stack (i := i + 1) (j := j + 1) (by omega) (by omega)
    obtain ⟨t', hreceive, hmode, hcells⟩ :=
      receive_printable advance hreceived.2 (hdrawable i j hi hj hsame)
    have hcells' : t'.cells = Function.update t.cells i
        (Function.update (t.cells i) j (c.screen.newScreen (screenLoc j i))) := hcells
    have hother : ∀ i' j' : Nat, j' < 80 → ¬(i' = i ∧ j' = j) →
        screenLoc j' i' ≠ screenLoc j i ∧ t'.cells i' j' = t.cells i' j' := by
      intro i' j' hj' hne
      refine ⟨fun heq => hne (screenLoc_inj hj' hj heq), ?_⟩
      rw [hcells']
      by_cases hi' : i' = i
      · have hj' : j' ≠ j := fun heq => hne ⟨hi', heq⟩
        simp [hi', hj']
      · simp [hi']
    refine ⟨⟨drawn c.screen (screenLoc j i), c₁.sent ++ [c.screen.newScreen (screenLoc j i)]⟩, t',
      ?_, ⟨?_, hmode⟩, rfl, fun i' j' hi' hj' => ?_, fun i' j' hi' hj' => ?_⟩
    · have hsend' : c.send (vt100MoveCursor stack ((j : Int) + 1) ((i : Int) + 1)) = some c₁ :=
        hsend
      simp [reflushPlace, hsame, hsend', hscreen]
    · rw [receiveAll_append, hreceived.1]
      exact hreceive
    · by_cases hplace : i' = i ∧ j' = j
      · obtain ⟨rfl, rfl⟩ := hplace
        intro _ _
        simp [hcells', drawn]
      · obtain ⟨hloc, hsame'⟩ := hother i' j' hj' hplace
        rw [oldScreen_drawn, if_neg hloc, hsame']
        exact htracks i' j' hi' hj'
    · rw [oldScreen_drawn]
      by_cases hplace : i' = i ∧ j' = j
      · obtain ⟨rfl, rfl⟩ := hplace
        simp [drawn]
      · rw [if_neg (hother i' j' hj' hplace).1]
        exact hdrawable i' j' hi' hj'

theorem reflush_loop (places : List (Nat × Nat)) (hplaces : ∀ place ∈ places, place.1 < 50 ∧
      place.2 < 80) (h : Received advance t₀ c t) (htracks : Tracks c.screen t)
    (hdrawable : Drawable c.screen) :
    ∃ c' t', places.foldlM (reflushPlace stack) c = some c' ∧ Received advance t₀ c' t' ∧
      c'.screen = places.foldl (fun s place => drawn s (screenLoc place.2 place.1)) c.screen ∧
      Tracks c'.screen t' := by
  induction places generalizing c t with
  | nil => exact ⟨c, t, rfl, h, rfl, htracks⟩
  | cons place places ih =>
      obtain ⟨hi, hj⟩ := hplaces place (by simp)
      obtain ⟨c₁, t₁, hplace, h₁, hscreen, htracks₁, hdrawable₁⟩ :=
        reflushPlace_tracks stack h htracks hdrawable hi hj
      obtain ⟨c', t', hloop, h', hscreen', htracks'⟩ :=
        ih (fun place hmem => hplaces place (by simp [hmem])) h₁ htracks₁ hdrawable₁
      refine ⟨c', t', ?_, h', ?_, htracks'⟩
      · rw [List.foldlM_cons, hplace]
        exact hloop
      · rw [hscreen', hscreen, List.foldl_cons]

theorem foldl_drawn (locs : List (Nat × Nat)) (s : Screen Process) :
    locs.foldl (fun s place => drawn s (screenLoc place.2 place.1)) s =
      { s with oldScreen := fun loc =>
          if ∃ place ∈ locs, loc = screenLoc place.2 place.1 then s.newScreen loc
          else s.oldScreen loc } := by
  induction locs generalizing s with
  | nil => simp
  | cons place locs ih =>
      rw [List.foldl_cons, ih]
      refine congrArg (fun old => { s with oldScreen := old }) (funext fun loc => ?_)
      rw [oldScreen_drawn]
      by_cases hplace : loc = screenLoc place.2 place.1
      · simp [hplace, drawn]
      · rw [if_neg hplace]
        exact if_congr (by simp [hplace]) rfl rfl

theorem mem_places (place : Nat × Nat) : place ∈ places ↔ place.1 < 50 ∧ place.2 < 80 := by
  obtain ⟨i, j⟩ := place
  simp [places]

theorem exists_place (loc : Int) :
    (∃ place ∈ places, loc = screenLoc place.2 place.1) ↔
      0 ≤ loc ∧ loc < screenWidth * screenHeight := by
  constructor
  · rintro ⟨place, hmem, rfl⟩
    have hplace := (mem_places place).mp hmem
    simp only [screenLoc, screenWidth, screenHeight]
    omega
  · rintro ⟨hlo, hhi⟩
    simp only [screenWidth, screenHeight] at hhi
    have hplace : (loc / 80).toNat < 50 ∧ (loc % 80).toNat < 80 := by omega
    refine ⟨((loc / 80).toNat, (loc % 80).toNat), (mem_places _).mpr hplace, ?_⟩
    simp only [screenLoc, screenWidth]
    omega

/-- What was drawn shows. -/
def Mirrors (s : Screen Process) (t : Terminal) : Prop :=
  ∀ i j : Nat, i < 50 → j < 80 → s.oldScreen (screenLoc j i) ≠ 0 →
    t.cells i j = s.oldScreen (screenLoc j i)

theorem Mirrors.tracks (h : Mirrors s t) : Tracks s t := fun i j hi hj hsame hzero => by
  rw [hsame] at hzero ⊢
  exact h i j hi hj hzero

theorem screenReflush_old (hi : i < 50) (hj : j < 80) :
    (screenReflush s).oldScreen (screenLoc j i) = s.newScreen (screenLoc j i) := by
  have hplace : ∃ place ∈ places, screenLoc j i = screenLoc place.2 place.1 :=
    ⟨(i, j), (mem_places _).mpr ⟨hi, hj⟩, rfl⟩
  rw [screenReflush]
  dsimp only
  rw [if_pos ((exists_place _).mp hplace)]

theorem reflush_mirrors (h : Received advance t₀ c t) (htracks : Tracks c.screen t)
    (hdrawable : Drawable c.screen) (hcursor : (c.screen.cursor p).OnScreen) :
    ∃ c' t', reflush stack p c = some c' ∧ Received advance t₀ c' t' ∧
      c'.screen = screenReflush c.screen ∧ Mirrors c'.screen t' := by
  obtain ⟨c₁, t₁, hloop, h₁, hscreen, htracks₁⟩ :=
    reflush_loop stack places (fun place => (mem_places place).mp) h htracks hdrawable
  have hreflush : c₁.screen = screenReflush c.screen := by
    rw [hscreen, foldl_drawn]
    refine congrArg (fun old => { c.screen with oldScreen := old }) (funext fun loc => ?_)
    exact if_congr (exists_place loc) rfl rfl
  obtain ⟨⟨hx, hx'⟩, hy, hy'⟩ := hcursor
  simp only [screenWidth, screenHeight] at hx' hy'
  obtain ⟨x, hx₁⟩ := Int.eq_ofNat_of_zero_le hx
  obtain ⟨y, hy₁⟩ := Int.eq_ofNat_of_zero_le hy
  obtain ⟨c', hsend, hscreen', h'⟩ :=
    h₁.moveCursor stack (i := y) (j := x) (by omega) (by omega)
  refine ⟨c', _, ?_, h', hscreen'.trans hreflush, fun i j hi hj hzero => ?_⟩
  · have hsame : (c₁.screen.cursor p).x = x ∧ (c₁.screen.cursor p).y = y := by
      rw [hreflush]
      exact ⟨hx₁, hy₁⟩
    rw [reflush, hloop, Option.bind_some, hsame.1, hsame.2, hsend]
  · rw [hscreen', hreflush, screenReflush_old hi hj] at hzero ⊢
    have htrack := htracks₁ i j hi hj
    rw [hreflush, screenReflush_old hi hj] at htrack
    exact htrack rfl hzero

/-- A place that was never stored into holds no character, and the others hold
one that shows. -/
def Written (s : Screen Process) : Prop :=
  ∀ loc, s.newScreen loc = 0 ∧ s.oldScreen loc = 0 ∨ IsPrintable (s.newScreen loc)

theorem Written.drawable (h : Written s) : Drawable s := fun i j _ _ hne => by
  rcases h (screenLoc j i) with ⟨hnew, hold⟩ | hprintable
  · exact absurd (hnew.trans hold.symm) hne
  · exact hprintable

theorem Written.store (h : Written s) {ch : UInt8} (hch : IsPrintable ch) (loc : Int) :
    Written (s.store loc ch) := by
  intro loc'
  by_cases hloc : loc' = loc
  · exact Or.inr (by simpa [Screen.store, hloc] using hch)
  · simpa [Screen.store, hloc] using h loc'

theorem foldl_blank (locs : List Int) (s : Screen Process) (hs : Written s) :
    Written (locs.foldl (fun s loc => s.store loc 32) s) ∧
      (locs.foldl (fun s loc => s.store loc 32) s).oldScreen = s.oldScreen ∧
      ∀ loc ∈ locs, (locs.foldl (fun s loc => s.store loc 32) s).newScreen loc = 32 := by
  have hspace : IsPrintable 32 := by decide
  have hkeep : ∀ (locs : List Int) (s : Screen Process) loc, s.newScreen loc = 32 →
      (locs.foldl (fun s loc => s.store loc 32) s).newScreen loc = 32 := by
    intro locs
    induction locs with
    | nil => exact fun s loc hloc => hloc
    | cons first locs ih =>
        intro s loc hloc
        refine ih _ loc ?_
        by_cases hfirst : loc = first
        · simp [Screen.store, hfirst]
        · simpa [Screen.store, hfirst] using hloc
  induction locs generalizing s with
  | nil => exact ⟨hs, rfl, fun loc hloc => absurd hloc List.not_mem_nil⟩
  | cons first locs ih =>
      obtain ⟨hwritten, hold, hblank⟩ := ih _ (hs.store hspace first)
      refine ⟨hwritten, hold, fun loc hloc => ?_⟩
      rcases List.mem_cons.mp hloc with rfl | hrest
      · exact hkeep locs _ loc (by simp [Screen.store])
      · exact hblank loc hrest

theorem Written.screenReflush (h : Written s) : Written (screenReflush s) := by
  intro loc
  rcases h loc with ⟨hnew, hold⟩ | hprintable
  · refine Or.inl ⟨hnew, ?_⟩
    rw [ScreenCursor.screenReflush]
    dsimp only
    split
    next => exact hnew
    next => exact hold
  · exact Or.inr hprintable

/-- The state of the driver and of the terminal between two actions. -/
structure Faithful (advance : Nat → Nat → Nat × Nat) (t₀ : Terminal) (c : Console Process)
    (t : Terminal) : Prop where
  received : Received advance t₀ c t
  onScreen : OnScreen c.screen
  written : Written c.screen
  mirrors : Mirrors c.screen t

theorem faithful_reflush (h : Received advance t₀ c t) (honScreen : OnScreen c.screen)
    (hwritten : Written c.screen) (htracks : Tracks c.screen t) (p : Process) :
    ∃ c' t', reflush stack p c = some c' ∧ c'.screen = screenReflush c.screen ∧
      Faithful advance t₀ c' t' := by
  obtain ⟨c', t', hreflush, h', hscreen, hmirrors⟩ :=
    reflush_mirrors stack h htracks hwritten.drawable (honScreen.cursor p)
  exact ⟨c', t', hreflush, hscreen, h', hscreen ▸ honScreen.screenReflush,
    hscreen ▸ hwritten.screenReflush, hmirrors⟩

/-- Nothing is left to draw. -/
def Settled (s : Screen Process) : Prop :=
  ∀ i j : Nat, i < 50 → j < 80 → s.oldScreen (screenLoc j i) = s.newScreen (screenLoc j i)

theorem settled_screenReflush (s : Screen Process) : Settled (screenReflush s) :=
  fun _ _ hi hj => screenReflush_old hi hj

theorem faithful_silent (hmode : t₀.mode = .ground) :
    Faithful advance t₀ (silent : Console Process) t₀ :=
  ⟨⟨rfl, hmode⟩, onScreen_initial, fun _ => Or.inl ⟨rfl, rfl⟩, fun _ _ _ _ hne => absurd rfl hne⟩

variable [DecidableEq Process] {a : Action Process}

theorem Written.screenWriteCh (h : Written s) {ch : UInt8} (hch : IsText ch) :
    Written (screenWriteCh p s ch) ∧ (screenWriteCh p s ch).oldScreen = s.oldScreen := by
  have hspace : IsPrintable 32 := by decide
  have hmoved : ∀ cursor, Written (s.setCursor p cursor) := fun _ => h
  unfold ScreenCursor.screenWriteCh
  dsimp only
  by_cases hfeed : ch = 10
  · rw [if_pos hfeed]
    exact ⟨h, rfl⟩
  · rw [if_neg hfeed]
    by_cases hback : ch = 8 ∨ ch = 127
    · rw [if_pos hback]
      split
      next => exact ⟨(hmoved _).store hspace _, rfl⟩
      next => exact ⟨h, rfl⟩
    · rw [if_neg hback]
      have hprintable : IsPrintable ch := by
        rcases hch with hprintable | hline | hdelete
        · exact hprintable
        · exact absurd hline hfeed
        · exact absurd hdelete hback
      split
      next => exact ⟨h.store hprintable _, rfl⟩
      next => exact ⟨h.store hprintable _, rfl⟩

theorem Written.screenWrite (h : Written s) {buff : List UInt8} (hbuff : ∀ ch ∈ buff, IsText ch) :
    Written (screenWrite p s buff) ∧ (screenWrite p s buff).oldScreen = s.oldScreen := by
  have hfold : ∀ (text : List UInt8) (s : Screen Process), Written s → (∀ ch ∈ text, IsText ch) →
      Written (text.foldl (ScreenCursor.screenWriteCh p) s) ∧
        (text.foldl (ScreenCursor.screenWriteCh p) s).oldScreen = s.oldScreen := by
    intro text
    induction text with
    | nil => exact fun s hs _ => ⟨hs, rfl⟩
    | cons ch text ih =>
        intro s hs htext
        obtain ⟨hone, hsame⟩ := hs.screenWriteCh (p := p) (htext ch (by simp))
        obtain ⟨hrest, hsame'⟩ := ih _ hone fun ch hch => htext ch (by simp [hch])
        exact ⟨hrest, hsame'.trans hsame⟩
  exact hfold _ s h fun ch hch => hbuff ch (List.mem_of_mem_take hch)

/-- The screen before `screen_clear` draws it. -/
def blanked (p : Process) (s : Screen Process) : Screen Process :=
  (locations.foldl (fun s loc => s.store loc 32) s).setCursor p ⟨0, 0⟩

theorem setCursor_kept (p : Process) (s : Screen Process) (cursor : Cursor) :
    (s.setCursor p cursor).newScreen = s.newScreen ∧
      (s.setCursor p cursor).oldScreen = s.oldScreen := ⟨rfl, rfl⟩

omit [DecidableEq Process] in
theorem onScreen_of_screenReflush (h : OnScreen (screenReflush s)) : OnScreen s :=
  ⟨h.stored, h.cursor⟩

theorem screenClear_eq (p : Process) (s : Screen Process) :
    screenClear p s = screenReflush (blanked p s) := rfl

theorem blanked_oldScreen (hs : Written s) : (blanked p s).oldScreen = s.oldScreen := by
  rw [blanked, (setCursor_kept p _ _).2]
  exact (foldl_blank locations s hs).2.1

theorem written_blanked (hs : Written s) : Written (blanked p s) := by
  have hfilled := (foldl_blank locations s hs).1
  intro loc
  rw [blanked, (setCursor_kept p _ _).1, (setCursor_kept p _ _).2]
  exact hfilled loc

theorem blanked_newScreen (hs : Written s) (hi : i < 50) (hj : j < 80) :
    (blanked p s).newScreen (screenLoc j i) = 32 := by
  have hmem : screenLoc j i ∈ locations := by
    rw [locations, List.mem_flatMap]
    exact ⟨i, List.mem_range.mpr hi, List.mem_map.mpr ⟨j, List.mem_range.mpr hj, rfl⟩⟩
  rw [blanked, (setCursor_kept p _ _).1]
  exact (foldl_blank locations s hs).2.2 _ hmem

theorem faithful_clear (h : Received advance t₀ c t) (honScreen : OnScreen c.screen)
    (hwritten : Written c.screen) (htracks : Tracks (blanked p c.screen) t) :
    ∃ c' t', clear stack p c = some c' ∧ c'.screen = screenReflush (blanked p c.screen) ∧
      Faithful advance t₀ c' t' := by
  have hcleared := honScreen.screenClear p
  rw [screenClear_eq] at hcleared
  exact faithful_reflush stack (c := { c with screen := blanked p c.screen }) h
    (onScreen_of_screenReflush hcleared) (written_blanked hwritten) htracks p

/-- The actions that end with drawing the screen. -/
def Draws : Action Process → Prop
  | .init _ => True
  | .call (.clear _) => True
  | .call _ => False
  | .reflush _ => True

theorem faithful_act (h : Faithful advance t₀ c t) (ha : Allowed c a) :
    ∃ c' t', act stack c a = some c' ∧ Faithful advance t₀ c' t' ∧
      (Draws a → Settled c'.screen) := by
  cases a with
  | init p =>
      obtain ⟨c₁, hhide, hscreen₁, h₁⟩ :=
        h.received.send (receiveAll_hide advance h.received.2) h.received.2
      obtain ⟨c₂, hclear, hscreen₂, h₂⟩ := h₁.send (receiveAll_clear advance h₁.2) rfl
      have hsame : c₂.screen = c.screen := hscreen₂.trans hscreen₁
      have htracks : Tracks (blanked p c₂.screen) t.clear := fun i j hi hj _ _ => by
        rw [blanked_newScreen (hsame ▸ h.written) hi hj]
        rfl
      obtain ⟨c', t', hact, hscreen, h'⟩ := faithful_clear stack h₂
        (hsame ▸ h.onScreen) (hsame ▸ h.written) htracks
      refine ⟨c', t', ?_, h', fun _ => hscreen ▸ settled_screenReflush _⟩
      rw [act, initScreen, vt100HiddenCursor_eq, hhide, Option.bind_some, vt100Clear_eq, hclear]
      exact hact
  | reflush p =>
      obtain ⟨c', t', hact, hscreen, h'⟩ :=
        faithful_reflush stack h.received h.onScreen h.written h.mirrors.tracks p
      exact ⟨c', t', hact, h', fun _ => hscreen ▸ settled_screenReflush _⟩
  | call call =>
      cases call with
      | write p buff =>
          obtain ⟨hfits, hbuff⟩ := ha
          obtain ⟨hwritten, hold⟩ := h.written.screenWrite (p := p) hbuff
          have honScreen := (onScreen_perform_iff h.onScreen).mpr hfits
          refine ⟨_, t, rfl, ⟨h.received, honScreen, hwritten, ?_⟩,
            fun hdraws => absurd hdraws id⟩
          intro i j hi hj
          rw [hold]
          exact h.mirrors i j hi hj
      | moveCursor p x y =>
          have honScreen := h.onScreen.screenMoveCursor p x y
          obtain ⟨⟨hx, hx'⟩, hy, hy'⟩ := honScreen.cursor p
          simp only [screenWidth, screenHeight] at hx' hy'
          obtain ⟨j, hj⟩ := Int.eq_ofNat_of_zero_le hx
          obtain ⟨i, hi⟩ := Int.eq_ofNat_of_zero_le hy
          have hmoved : Received advance t₀ { c with screen := screenMoveCursor p c.screen x y }
              t := h.received
          obtain ⟨c', hsend, hscreen, h'⟩ :=
            hmoved.moveCursor stack (i := i + 1) (j := j + 1) (by omega) (by omega)
          refine ⟨c', _, ?_, ⟨h', hscreen ▸ honScreen, hscreen ▸ h.written, hscreen ▸ h.mirrors⟩,
            fun hdraws => absurd hdraws id⟩
          rw [act, ScreenOutput.moveCursor, hi, hj]
          exact hsend
      | clear p =>
          have htracks : Tracks (blanked p c.screen) t := by
            refine Mirrors.tracks fun i j hi hj => ?_
            rw [blanked_oldScreen h.written]
            exact h.mirrors i j hi hj
          obtain ⟨c', t', hact, hscreen, h'⟩ :=
            faithful_clear stack h.received h.onScreen h.written htracks
          exact ⟨c', t', hact, h', fun _ => hscreen ▸ settled_screenReflush _⟩

theorem faithful_acts (advance : Nat → Nat → Nat × Nat) {as : List (Action Process)}
    (hmode : t₀.mode = .ground) (hrun : Path (Acts stack) silent as c) :
    ∃ t, Faithful advance t₀ c t := by
  refine hrun.invariant (P := fun c => ∃ t, Faithful advance t₀ c t) ?_
    ⟨t₀, faithful_silent hmode⟩
  rintro c a c' ⟨t, h⟩ ⟨hallowed, hact⟩
  obtain ⟨c₁, t₁, hact₁, h₁, -⟩ := faithful_act stack h hallowed
  rw [hact, Option.some.injEq] at hact₁
  exact ⟨t₁, hact₁ ▸ h₁⟩

/-- In every run in which the texts show and stay on the screen no printing
fails, and a terminal that receives what was sent shows what the driver takes it
to show.  When the last action was to draw, that is the screen itself. -/
theorem terminal_shows_screen (advance : Nat → Nat → Nat × Nat) {as : List (Action Process)}
    (hmode : t₀.mode = .ground) (hrun : Path (Acts stack) silent as c) :
    (∀ a, Allowed c a → (act stack c a).isSome) ∧
      ∃ t, t₀.receiveAll advance c.sent = some t ∧
        (∀ i j : Nat, i < 50 → j < 80 → c.screen.oldScreen (screenLoc j i) ≠ 0 →
          t.cells i j = c.screen.oldScreen (screenLoc j i)) ∧
        ((∀ a ∈ as.getLast?, Draws a) → ∀ i j : Nat, i < 50 → j < 80 →
          c.screen.newScreen (screenLoc j i) ≠ 0 →
            t.cells i j = c.screen.newScreen (screenLoc j i)) := by
  obtain ⟨t, h⟩ := faithful_acts stack advance hmode hrun
  refine ⟨fun a ha => ?_, t, h.received.1, h.mirrors, fun hlast => ?_⟩
  · obtain ⟨c', t', hact, -⟩ := faithful_act stack h ha
    simp [hact]
  · have hsettled : Settled c.screen := by
      rcases List.eq_nil_or_concat as with rfl | ⟨before, a, rfl⟩
      · cases hrun
        exact fun _ _ _ _ => rfl
      · obtain ⟨c₁, hbefore, hone⟩ := Path.split (by simpa using hrun)
        obtain ⟨t₁, h₁⟩ := faithful_acts stack advance hmode hbefore
        cases hone with
        | cons hacts hrest =>
            cases hrest
            obtain ⟨c', t', hact, -, hsettled⟩ := faithful_act stack h₁ hacts.1
            rw [hacts.2, Option.some.injEq] at hact
            exact hact ▸ hsettled (hlast a (by simp))
    intro i j hi hj
    rw [← hsettled i j hi hj]
    exact h.mirrors i j hi hj

/-- Two letters are written and drawn. -/
theorem twoLetters_shown : ∃ (c : Console Unit) (t : Terminal),
    Path (Acts fun _ => 0) silent [.call (.write () [72, 105]), .reflush ()] c ∧
      Terminal.receiveAll (fun row column => (row, column + 1)) ⟨fun _ _ => 63, 7, 7, .ground⟩
        c.sent = some t ∧ t.cells 0 0 = 72 ∧ t.cells 0 1 = 105 := by
  let before : Terminal := ⟨fun _ _ => 63, 7, 7, .ground⟩
  have hmode : before.mode = .ground := rfl
  have hfits : Fits (initial : Screen Unit) (.write () [72, 105]) := by
    unfold Fits
    decide
  have hwrite : Acts (fun _ => 0) (silent : Console Unit) (.call (.write () [72, 105]))
      { silent with screen := screenWrite () initial [72, 105] } :=
    ⟨⟨hfits, by simp [IsText, IsPrintable]⟩, rfl⟩
  obtain ⟨t₁, h₁⟩ := faithful_acts (fun _ => 0) (fun row column => (row, column + 1)) hmode
    (Path.single hwrite)
  obtain ⟨c, t', hreflush, hscreen, -⟩ := faithful_reflush (fun _ => 0) h₁.received h₁.onScreen
    h₁.written h₁.mirrors.tracks ()
  have hrun : Path (Acts fun _ => 0) silent [.call (.write () [72, 105]), .reflush ()] c :=
    .cons hwrite (.single ⟨trivial, hreflush⟩)
  obtain ⟨-, t, ht, -, hshown⟩ :=
    terminal_shows_screen (fun _ => 0) (fun row column => (row, column + 1)) hmode hrun
  have hletters : c.screen.newScreen (screenLoc 0 0) = 72 ∧
      c.screen.newScreen (screenLoc 1 0) = 105 := by
    rw [hscreen]
    decide
  refine ⟨c, t, hrun, ht, ?_, ?_⟩
  · have hfirst := hshown (by simp [Draws]) 0 0 (by decide) (by decide)
    exact (hfirst (hletters.1 ▸ by decide)).trans hletters.1
  · have hsecond := hshown (by simp [Draws]) 0 1 (by decide) (by decide)
    exact (hsecond (hletters.2 ▸ by decide)).trans hletters.2

end LabKernel.ScreenOutput
