import Mathlib.Data.List.Induction
import Mathlib.Logic.Function.Basic
import Mathlib.Order.Basic

/-!
The screen driver (`drivers/screen.cpp`): the cursors of the processes and the
places of `new_screen` that are stored into.
-/

namespace LabKernel.ScreenCursor

def screenWidth : Int := 80

def screenHeight : Int := 50

def screenLoc (x y : Int) : Int := y * screenWidth + x

structure Cursor where
  x : Int
  y : Int
  deriving DecidableEq, Repr

/-- The bytes around the two buffers, by their index in the buffer, and the
indices in `new_screen` that were stored into, the latest first. -/
structure Screen (Process : Type*) where
  newScreen : Int → UInt8
  oldScreen : Int → UInt8
  stored : List Int
  cursor : Process → Cursor

variable {Process : Type*} [DecidableEq Process]

def initial : Screen Process := ⟨fun _ => 0, fun _ => 0, [], fun _ => ⟨0, 0⟩⟩

def Screen.store (s : Screen Process) (loc : Int) (ch : UInt8) : Screen Process :=
  { s with newScreen := Function.update s.newScreen loc ch, stored := loc :: s.stored }

def Screen.setCursor (s : Screen Process) (p : Process) (c : Cursor) : Screen Process :=
  { s with cursor := Function.update s.cursor p c }

/-- The beginning of the next line. -/
def Cursor.nextLine (c : Cursor) : Cursor := ⟨0, if c.y < screenHeight then c.y + 1 else c.y⟩

def screenWriteCh (p : Process) (s : Screen Process) (ch : UInt8) : Screen Process :=
  let c := s.cursor p
  if ch = 10 then s.setCursor p c.nextLine
  else if ch = 8 ∨ ch = 127 then
    if 0 < c.x then (s.setCursor p ⟨c.x - 1, c.y⟩).store (screenLoc (c.x - 1) c.y) 32
    else s
  else
    let s := s.store (screenLoc c.x c.y) ch
    if screenWidth ≤ c.x + 1 then s.setCursor p c.nextLine
    else s.setCursor p ⟨c.x + 1, c.y⟩

/-- `int l = strlen(buff)`. -/
def rounds (buff : List UInt8) : Nat := (BitVec.ofNat 32 buff.length).toInt.toNat

def screenWrite (p : Process) (s : Screen Process) (buff : List UInt8) : Screen Process :=
  (buff.take (rounds buff)).foldl (screenWriteCh p) s

def screenMoveCursor (p : Process) (s : Screen Process) (x y : Int) : Screen Process :=
  let x := if screenWidth ≤ x then screenWidth - 1 else if x < 0 then 0 else x
  let y := if screenHeight ≤ y then screenHeight - 1 else if y < 0 then 0 else y
  s.setCursor p ⟨x, y⟩

/-- `screen_reflush`, without what it prints. -/
def screenReflush (s : Screen Process) : Screen Process :=
  { s with oldScreen := fun loc =>
      if 0 ≤ loc ∧ loc < screenWidth * screenHeight then s.newScreen loc else s.oldScreen loc }

/-- The places of the two loops of `screen_clear`, in their order. -/
@[irreducible]
def locations : List Int :=
  (List.range 50).flatMap fun i : Nat => (List.range 80).map fun j : Nat => screenLoc j i

def screenClear (p : Process) (s : Screen Process) : Screen Process :=
  screenReflush ((locations.foldl (fun s loc => s.store loc 32) s).setCursor p ⟨0, 0⟩)

inductive Call (Process : Type*)
  | write (p : Process) (buff : List UInt8)
  | moveCursor (p : Process) (x y : Int)
  | clear (p : Process)

def perform (s : Screen Process) : Call Process → Screen Process
  | .write p buff => screenWrite p s buff
  | .moveCursor p x y => screenMoveCursor p s x y
  | .clear p => screenClear p s

def Cursor.OnScreen (c : Cursor) : Prop :=
  (0 ≤ c.x ∧ c.x < screenWidth) ∧ 0 ≤ c.y ∧ c.y < screenHeight

/-- Every store so far was into the screen, and every cursor is on it. -/
structure OnScreen (s : Screen Process) : Prop where
  stored : ∀ loc ∈ s.stored, 0 ≤ loc ∧ loc < screenWidth * screenHeight
  cursor : ∀ p, (s.cursor p).OnScreen

/-- How many times writing a text from the given column goes on to another
line. -/
def lineBreaks : Int → List UInt8 → Nat
  | _, [] => 0
  | x, ch :: rest =>
      if ch = 10 then lineBreaks 0 rest + 1
      else if ch = 8 ∨ ch = 127 then lineBreaks (if 0 < x then x - 1 else x) rest
      else if screenWidth ≤ x + 1 then lineBreaks 0 rest + 1
      else lineBreaks (x + 1) rest

/-- The lines of a text that is written end above the bottom of the screen. -/
def Fits (s : Screen Process) : Call Process → Prop
  | .write p buff =>
      (s.cursor p).y + lineBreaks (s.cursor p).x (buff.take (rounds buff)) < screenHeight
  | .moveCursor _ _ _ => True
  | .clear _ => True

variable {s : Screen Process} {p q : Process} {ch : UInt8} {text : List UInt8} {c : Cursor}
  {call : Call Process}

/-- The cursor behind a character. -/
def Cursor.moved (c : Cursor) (ch : UInt8) : Cursor :=
  if ch = 10 then c.nextLine
  else if ch = 8 ∨ ch = 127 then if 0 < c.x then ⟨c.x - 1, c.y⟩ else c
  else if screenWidth ≤ c.x + 1 then c.nextLine
  else ⟨c.x + 1, c.y⟩

theorem setCursor_self (s : Screen Process) (p : Process) (c : Cursor) :
    (s.setCursor p c).cursor p = c :=
  Function.update_self ..

theorem cursor_screenWriteCh (p : Process) (s : Screen Process) (ch : UInt8) :
    (screenWriteCh p s ch).cursor p = (s.cursor p).moved ch := by
  unfold screenWriteCh Cursor.moved
  dsimp only
  split
  next => exact setCursor_self ..
  next =>
    split
    next =>
      split
      next => exact setCursor_self ..
      next => rfl
    next =>
      split
      next => exact setCursor_self ..
      next => exact setCursor_self ..

theorem screenWidth_pos : 0 < screenWidth := by decide

theorem screenHeight_pos : 0 < screenHeight := by decide

/-- Inside the lines of the screen, or in the line below them. -/
structure Cursor.InRows (c : Cursor) : Prop where
  left : 0 ≤ c.x
  right : c.x < screenWidth
  top : 0 ≤ c.y
  bottom : c.y ≤ screenHeight

/-- The cursor goes down by the line breaks of the text and stops below the
screen. -/
theorem moved_row (h : c.InRows) (ch : UInt8) (rest : List UInt8) :
    (c.moved ch).InRows ∧
      min screenHeight ((c.moved ch).y + lineBreaks (c.moved ch).x rest) =
        min screenHeight (c.y + lineBreaks c.x (ch :: rest)) := by
  obtain ⟨hx, hx', hy, hy'⟩ := h
  have hnext : c.nextLine.InRows ∧
      min screenHeight (c.nextLine.y + lineBreaks 0 rest) =
        min screenHeight (c.y + (lineBreaks 0 rest + 1 : Nat)) := by
    unfold Cursor.nextLine
    split
    next =>
      refine ⟨⟨Int.le_refl 0, screenWidth_pos, ?_, ?_⟩, ?_⟩
      all_goals
        dsimp only
        omega
    next => exact ⟨⟨Int.le_refl 0, screenWidth_pos, hy, hy'⟩, by dsimp only; omega⟩
  unfold Cursor.moved
  rw [lineBreaks]
  split
  next => exact hnext
  next =>
    split
    next =>
      split
      next => exact ⟨⟨by dsimp only; omega, by dsimp only; omega, hy, hy'⟩, rfl⟩
      next => exact ⟨⟨hx, hx', hy, hy'⟩, rfl⟩
    next =>
      split
      next => exact hnext
      next => exact ⟨⟨by dsimp only; omega, by dsimp only; omega, hy, hy'⟩, rfl⟩

theorem cursor_foldl (text : List UInt8) (h : (s.cursor p).InRows) :
    ((text.foldl (screenWriteCh p) s).cursor p).y =
      min screenHeight ((s.cursor p).y + lineBreaks (s.cursor p).x text) := by
  induction text generalizing s with
  | nil =>
      have hbottom := h.bottom
      rw [List.foldl_nil, lineBreaks]
      omega
  | cons ch rest ih =>
      obtain ⟨hmoved, hrow⟩ := moved_row h ch rest
      rw [← cursor_screenWriteCh p s ch] at hmoved hrow
      rw [List.foldl_cons, ih hmoved, hrow]

theorem screenLoc_onScreen (h : c.OnScreen) :
    0 ≤ screenLoc c.x c.y ∧ screenLoc c.x c.y < screenWidth * screenHeight := by
  obtain ⟨⟨hx, hx'⟩, hy, hy'⟩ := h
  unfold screenLoc
  unfold screenWidth screenHeight at *
  omega

theorem Cursor.OnScreen.inRows (h : c.OnScreen) : c.InRows :=
  ⟨h.1.1, h.1.2, h.2.1, Int.le_of_lt h.2.2⟩

omit [DecidableEq Process] in
theorem OnScreen.store (h : OnScreen s) (hc : c.OnScreen) (ch : UInt8) :
    OnScreen (s.store (screenLoc c.x c.y) ch) := by
  refine ⟨fun loc hloc => ?_, h.cursor⟩
  rcases List.mem_cons.mp hloc with rfl | hloc
  · exact screenLoc_onScreen hc
  · exact h.stored loc hloc

theorem OnScreen.setCursor (h : OnScreen s) (hc : c.OnScreen) : OnScreen (s.setCursor p c) := by
  refine ⟨h.stored, fun q => ?_⟩
  change (Function.update s.cursor p c q).OnScreen
  rcases eq_or_ne q p with rfl | hne
  · rwa [Function.update_self]
  · rw [Function.update_of_ne hne]
    exact h.cursor q

theorem OnScreen.screenWriteCh (h : OnScreen s) (hmoved : ((s.cursor p).moved ch).OnScreen) :
    OnScreen (screenWriteCh p s ch) := by
  have hstored := h.store (h.cursor p) ch
  unfold Cursor.moved at hmoved
  unfold ScreenCursor.screenWriteCh
  dsimp only
  split
  next hnewline =>
    rw [if_pos hnewline] at hmoved
    exact h.setCursor hmoved
  next hnewline =>
    rw [if_neg hnewline] at hmoved
    split
    next hback =>
      rw [if_pos hback] at hmoved
      split
      next hx =>
        rw [if_pos hx] at hmoved
        exact (h.setCursor hmoved).store (c := ⟨(s.cursor p).x - 1, (s.cursor p).y⟩) hmoved _
      next => exact h
    next hback =>
      rw [if_neg hback] at hmoved
      split
      next hedge =>
        rw [if_pos hedge] at hmoved
        exact hstored.setCursor hmoved
      next hedge =>
        rw [if_neg hedge] at hmoved
        exact hstored.setCursor hmoved

theorem OnScreen.foldl (h : OnScreen s)
    (hfits : (s.cursor p).y + lineBreaks (s.cursor p).x text < screenHeight) :
    OnScreen (text.foldl (ScreenCursor.screenWriteCh p) s) := by
  induction text generalizing s with
  | nil => exact h
  | cons ch rest ih =>
      obtain ⟨hmoved, hrow⟩ := moved_row (h.cursor p).inRows ch rest
      have hbelow : ((s.cursor p).moved ch).y + lineBreaks ((s.cursor p).moved ch).x rest <
          screenHeight := by omega
      have honScreen : ((s.cursor p).moved ch).OnScreen :=
        ⟨⟨hmoved.left, hmoved.right⟩, hmoved.top, by omega⟩
      refine ih (h.screenWriteCh honScreen) ?_
      rwa [cursor_screenWriteCh]

omit [DecidableEq Process] in
theorem onScreen_initial : OnScreen (initial : Screen Process) :=
  ⟨fun _ hloc => absurd hloc List.not_mem_nil,
    fun _ => ⟨⟨Int.le_refl 0, screenWidth_pos⟩, Int.le_refl 0, screenHeight_pos⟩⟩

omit [DecidableEq Process] in
theorem OnScreen.screenReflush (h : OnScreen s) : OnScreen (screenReflush s) :=
  ⟨h.stored, h.cursor⟩

theorem OnScreen.screenClear (h : OnScreen s) (p : Process) : OnScreen (screenClear p s) := by
  have hstore : ∀ (locs : List Int) (s : Screen Process), OnScreen s →
      (∀ loc ∈ locs, 0 ≤ loc ∧ loc < screenWidth * screenHeight) →
        OnScreen (locs.foldl (fun s loc => s.store loc 32) s) := by
    intro locs
    induction locs with
    | nil => exact fun s hs _ => hs
    | cons loc rest ih =>
        intro s hs hlocs
        refine ih _ ⟨fun loc' hloc' => ?_, hs.cursor⟩ fun loc' hloc' =>
          hlocs loc' (List.mem_cons_of_mem loc hloc')
        rcases List.mem_cons.mp hloc' with rfl | hloc'
        · exact hlocs _ List.mem_cons_self
        · exact hs.stored loc' hloc'
  have hlocations : ∀ loc ∈ locations, 0 ≤ loc ∧ loc < screenWidth * screenHeight := by
    intro loc hloc
    rw [locations, List.mem_flatMap] at hloc
    obtain ⟨i, hi, hloc⟩ := hloc
    obtain ⟨j, hj, rfl⟩ := List.mem_map.mp hloc
    have hi := List.mem_range.mp hi
    have hj := List.mem_range.mp hj
    exact screenLoc_onScreen (c := ⟨j, i⟩)
      ⟨⟨Int.natCast_nonneg j, by unfold screenWidth; dsimp only; omega⟩, Int.natCast_nonneg i,
        by unfold screenHeight; dsimp only; omega⟩
  have hcleared := (hstore locations s h hlocations).setCursor (p := p) (c := ⟨0, 0⟩)
    ⟨⟨Int.le_refl 0, screenWidth_pos⟩, Int.le_refl 0, screenHeight_pos⟩
  unfold ScreenCursor.screenClear
  exact hcleared.screenReflush

theorem OnScreen.screenMoveCursor (h : OnScreen s) (p : Process) (x y : Int) :
    OnScreen (screenMoveCursor p s x y) := by
  refine h.setCursor ⟨?_, ?_⟩
  · unfold screenWidth
    dsimp only
    split <;> [skip; split] <;> omega
  · unfold screenHeight
    dsimp only
    split <;> [skip; split] <;> omega

theorem onScreen_perform_iff (h : OnScreen s) : OnScreen (perform s call) ↔ Fits s call := by
  cases call with
  | write p buff =>
      constructor
      · intro hafter
        have hbottom := (hafter.cursor p).2.2
        rw [perform, screenWrite, cursor_foldl _ (h.cursor p).inRows] at hbottom
        unfold Fits
        omega
      · exact h.foldl
  | moveCursor p x y => exact iff_of_true (h.screenMoveCursor p x y) trivial
  | clear p => exact iff_of_true (h.screenClear p) trivial

/-- The states after the calls of a sequence. -/
def run (calls : List (Call Process)) : Screen Process := calls.foldl perform initial

/-- In a sequence of calls every state is on the screen if and only if every
text that is written fits. -/
theorem onScreen_iff_fits (calls : List (Call Process)) :
    (∀ done, done <+: calls → OnScreen (run done)) ↔
      ∀ done call, done ++ [call] <+: calls → Fits (run done) call := by
  have hnext : ∀ (done : List (Call Process)) call,
      run (done ++ [call]) = perform (run done) call := fun done call => by
    rw [run, List.foldl_append]
    rfl
  constructor
  · intro hrun done call hprefix
    have hbefore := hrun done ((List.prefix_append done [call]).trans hprefix)
    have hafter := hrun _ hprefix
    rw [hnext] at hafter
    exact (onScreen_perform_iff hbefore).mp hafter
  · intro hfits done hprefix
    induction done using List.reverseRecOn with
    | nil => exact onScreen_initial
    | append_singleton done call ih =>
        rw [hnext]
        refine (onScreen_perform_iff (ih ?_)).mpr (hfits done call hprefix)
        exact (List.prefix_append done [call]).trans hprefix

/-- Fifty line feeds and a letter: the letter is stored behind the buffer. -/
theorem fiftyLines_not_onScreen :
    ¬∀ done, done <+: [Call.write () (List.replicate 50 10 ++ [65])] →
      OnScreen (run done : Screen Unit) := by
  intro hrun
  have hlast := hrun _ (List.prefix_refl _)
  have hstored : (run [Call.write () (List.replicate 50 10 ++ [65])] : Screen Unit).stored =
      [4000] := by decide +kernel
  have hbound := hlast.stored 4000 (by rw [hstored]; exact List.mem_singleton_self _)
  exact absurd hbound.2 (by decide)

end LabKernel.ScreenCursor
