import LabKernel.DirectoryTrees

/-!
The path in the prompt of the shell (`cwd` in `shell.c`), which follows the
current directory of the kernel.

`truncate_cwd` normalises the path in place: everything is copied from `j` to
`i`, and behind a component that ends with dots `i` goes back over one or two
separators.
-/

namespace LabKernel.PromptPath

open LabKernel.BlockCache
open LabKernel.BlockObject
open LabKernel.BlockOwnership
open LabKernel.ByteMemory
open LabKernel.Directories
open LabKernel.DirectoryCalls
open LabKernel.DirectoryTrees
open LabKernel.FsCode
open LabKernel.FsLayout
open LabKernel.FsRuns
open LabKernel.FsTables
open LabKernel.FsView
open LabKernel.MkdirPaths
open LabKernel.PathWalks
open LabKernel.ProgramLogic
open LabKernel.TidyCalls
open LabKernel.TidyDisk
open LabKernel.TidyRuns
open LabKernel.TransitionSystem

/-- The inner loop of `truncate_cwd`: `i` goes back over `dash` separators, or
to the beginning. -/
def goBack (cwd : Bytes) : Nat → Nat → Nat
  | 0, i => i
  | _ + 1, 0 => 0
  | dash + 1, i + 1 => goBack cwd (if cwd i = 47 then dash else dash + 1) i

/-- `dash` for the separator at `j`. -/
def dashes (cwd : Bytes) (j : Nat) : Nat :=
  if cwd (j - 1) = 46 then if cwd (j - 2) = 46 then 2 else 1 else 0

/-- The loop of `truncate_cwd`, with the number of rounds left in the array. -/
def truncateLoop : Nat → Nat → Nat → Bytes → Nat × Bytes
  | 0, _, i, cwd => (i, cwd)
  | left + 1, j, i, cwd =>
      if cwd j = 0 then (i, cwd)
      else
        let i := if 0 < j ∧ cwd j = 47 then goBack cwd (dashes cwd j) i else i
        truncateLoop left (j + 1) (i + 1) (Function.update cwd i (cwd j))

structure Shell where
  cwd : Bytes
  cwdIdx : Nat

/-- The size of the array `cwd`. -/
def cwdSize : Nat := 256

def truncateCwd (cwd : Bytes) : Shell :=
  let cwdIdx := (cString cwd 0 cwdSize).length
  let cwd := Function.update (Function.update cwd cwdIdx 47) (cwdIdx + 1) 0
  let result := truncateLoop cwdSize 0 0 cwd
  ⟨Function.update result.2 (result.1 - 1) 0, result.1 - 1⟩

/-- The command `cd` after `sys_cd` returned 0. -/
def Shell.cd (sh : Shell) (path : List UInt8) : Shell :=
  let cwd := Function.update sh.cwd sh.cwdIdx 47
  truncateCwd (copy cwd (sh.cwdIdx + 1) (listBytes path) 0 (path.length + 1))

def startShell : Shell := ⟨zeros, 0⟩

/-- The bytes from the position on. -/
def Holds (b : Bytes) (position : Nat) (l : List UInt8) : Prop :=
  ∀ q c, l[q]? = some c → b (position + q) = c

variable {b b' : Bytes} {position i j d left : Nat} {l l' : List UInt8} {c : List UInt8} {x : UInt8}

theorem holds_append : Holds b position (l ++ l') ↔
    Holds b position l ∧ Holds b (position + l.length) l' := by
  constructor
  · intro h
    refine ⟨fun q x hx => h q x ?_, fun q x hx => ?_⟩
    · rw [List.getElem?_append_left (List.getElem?_eq_some_iff.mp hx).1, hx]
    · rw [Nat.add_assoc]
      apply h
      rw [List.getElem?_append_right (Nat.le_add_right ..), Nat.add_sub_cancel_left, hx]
  · rintro ⟨hfirst, hsecond⟩ q x hx
    rcases Nat.lt_or_ge q l.length with hlt | hge
    · rw [List.getElem?_append_left hlt] at hx
      exact hfirst q x hx
    · rw [List.getElem?_append_right hge] at hx
      have hq := hsecond _ x hx
      rwa [Nat.add_assoc, Nat.add_sub_cancel' hge] at hq

theorem holds_cons : Holds b position (x :: l) ↔ b position = x ∧ Holds b (position + 1) l := by
  rw [← List.singleton_append, holds_append, List.length_singleton]
  refine and_congr_left fun _ => ⟨fun h => h 0 x rfl, fun h q y hy => ?_⟩
  cases q with
  | zero => exact h.trans (Option.some.inj hy)
  | succ q => cases hy

theorem holds_congr (h : ∀ p, position ≤ p → p < position + l.length → b' p = b p)
    (hb : Holds b position l) : Holds b' position l := by
  intro q x hx
  have hq := (List.getElem?_eq_some_iff.mp hx).1
  rw [h _ (Nat.le_add_right ..) (by omega)]
  exact hb q x hx

/-- The area after the text has been stored at a position. -/
def stored (b : Bytes) (position : Nat) (l : List UInt8) : Bytes :=
  copy b position (listBytes l) 0 l.length

theorem stored_outside {p : Nat} (h : p < position ∨ position + l.length ≤ p) :
    stored b position l p = b p :=
  copy_outside h

theorem holds_stored : Holds (stored b position l) position l := by
  intro q x hx
  have hq := (List.getElem?_eq_some_iff.mp hx).1
  unfold stored
  rw [copy_inside (Nat.le_add_right ..) (by omega), Nat.add_sub_cancel_left, Nat.zero_add,
    listBytes, List.getD_eq_getElem?_getD, hx]
  rfl

theorem stored_cons :
    stored (Function.update b position x) (position + 1) l = stored b position (x :: l) := by
  funext p
  rcases Nat.lt_trichotomy p position with hlt | rfl | hgt
  · rw [stored_outside (Or.inl (by omega)), stored_outside (Or.inl hlt),
      Function.update_of_ne hlt.ne]
  · rw [stored_outside (Or.inl (Nat.lt_succ_self p)), Function.update_self]
    exact (holds_stored 0 x rfl).symm
  · unfold stored
    rcases Nat.lt_or_ge p (position + 1 + l.length) with hin | hout
    · rw [copy_inside hgt hin, copy_inside hgt.le (by rw [List.length_cons]; omega),
        show 0 + (p - position) = 0 + (p - (position + 1)) + 1 by omega]
      rfl
    · rw [copy_outside (Or.inr hout), copy_outside (Or.inr (by rw [List.length_cons]; omega)),
        Function.update_of_ne hgt.ne']

abbrev Name : Type := List UInt8

/-- The components, each behind a separator. -/
def joined (names : List Name) : List UInt8 := names.flatMap fun c => 47 :: c

/-- The number of dots at the end of a component, at most 2. -/
def dots (c : Name) : Nat :=
  if c.getLast? = some 46 then if c.dropLast.getLast? = some 46 then 2 else 1 else 0

/-- What a component does to the components before it, the last one first. -/
def put (stack : List Name) (c : Name) : List Name :=
  if dots c = 0 then c :: stack else if dots c = 1 then stack else stack.tail

/-- A component of a path. -/
def Component (c : Name) : Prop := 47 ∉ c ∧ 0 ∉ c

variable {stack rest names : List Name}

theorem joined_cons (c : Name) (names : List Name) :
    joined (c :: names) = 47 :: c ++ joined names := List.flatMap_cons

theorem joined_reverse_cons (c : Name) (stack : List Name) :
    joined (c :: stack).reverse = joined stack.reverse ++ 47 :: c := by
  rw [joined, List.reverse_cons, List.flatMap_append, List.flatMap_singleton]
  rfl

theorem goBack_name (h : Holds b position (47 :: c)) (hc : 47 ∉ c) :
    goBack b (d + 1) (position + 1 + c.length) = goBack b d position := by
  obtain ⟨hslash, hname⟩ := holds_cons.mp h
  have hback : ∀ n ≤ c.length, goBack b (d + 1) (position + 1 + n) = goBack b d position := by
    intro n hn
    induction n with
    | zero =>
        change goBack b (if b position = 47 then d else d + 1) position = _
        rw [if_pos hslash]
    | succ n ih =>
        have hx := hname n _ (List.getElem?_eq_getElem hn)
        have hne : b (position + 1 + n) ≠ 47 := by
          rw [hx]
          exact fun heq => hc (heq ▸ List.getElem_mem hn)
        change goBack b (if b (position + 1 + n) = 47 then d else d + 1) (position + 1 + n) = _
        rw [if_neg hne]
        exact ih (Nat.le_of_succ_le hn)
  exact hback _ le_rfl

theorem goBack_put (h : Holds b 0 (joined stack.reverse ++ 47 :: c)) (hc : 47 ∉ c)
    (hstack : ∀ c' ∈ stack, 47 ∉ c') :
    goBack b (dots c) ((joined stack.reverse).length + 1 + c.length) =
      (joined (put stack c).reverse).length := by
  obtain ⟨hbefore, hname⟩ := holds_append.mp h
  rw [Nat.zero_add] at hname
  unfold put
  split
  next hzero =>
    rw [hzero, joined_reverse_cons, List.length_append, List.length_cons, goBack]
    omega
  next hne =>
    split
    next hone => rw [hone, goBack_name hname hc, goBack]
    next hne' =>
      have htwo : dots c = 2 := by
        unfold dots at hne hne' ⊢
        split at hne
        next hlast =>
          rw [if_pos hlast] at hne' ⊢
          split
          next => rfl
          next hnot => exact absurd (if_neg hnot) hne'
        next => exact absurd rfl hne
      rw [htwo, goBack_name hname hc]
      cases stack with
      | nil => rfl
      | cons top stack =>
          rw [joined_reverse_cons] at hbefore ⊢
          obtain ⟨-, htop⟩ := holds_append.mp hbefore
          rw [Nat.zero_add] at htop
          rw [List.length_append, List.length_cons, Nat.add_comm top.length, ← Nat.add_assoc,
            goBack_name htop (hstack top List.mem_cons_self), goBack]
          rfl

theorem truncateLoop_name (h : Holds b j c) (hc : Component c) (hi : i ≤ j) (hj : 0 < j) :
    truncateLoop (left + c.length) j i b =
      truncateLoop left (j + c.length) (i + c.length) (stored b i c) := by
  induction c generalizing i j b with
  | nil =>
      have hsame : stored b i [] = b := funext fun p => stored_outside (by simp; omega)
      rw [hsame]
      rfl
  | cons x rest ih =>
      obtain ⟨hx, hrest⟩ := holds_cons.mp h
      have hslash : x ≠ 47 := fun heq => hc.1 (heq ▸ List.mem_cons_self)
      have hzero : x ≠ 0 := fun heq => hc.2 (heq ▸ List.mem_cons_self)
      have hcomponent : Component rest :=
        ⟨fun hmem => hc.1 (List.mem_cons_of_mem _ hmem),
          fun hmem => hc.2 (List.mem_cons_of_mem _ hmem)⟩
      have hahead : Holds (Function.update b i x) (j + 1) rest :=
        holds_congr (fun p hp _ => Function.update_of_ne (by omega) ..) hrest
      rw [List.length_cons, ← Nat.add_assoc, truncateLoop, hx, if_neg hzero,
        if_neg fun hboth => hslash hboth.2, ih hahead hcomponent (Nat.succ_le_succ hi)
          (Nat.succ_pos j), stored_cons]
      congr 1
      · omega
      · omega

/-- The loop is at the beginning of a component, with the components before it
normalised.  It never goes back by just one byte. -/
structure Scanned (stack rest : List Name) (j i : Nat) (b : Bytes) : Prop where
  index : i = (joined stack.reverse).length + 1
  done : Holds b 0 (joined stack.reverse ++ [47])
  behind : 0 < j ∧ b (j - 1) = 47
  ahead : Holds b j (rest.flatMap (· ++ [47]) ++ [0])
  gap : i = j ∨ i + 2 ≤ j

theorem dashes_stored (hbehind : 0 < j ∧ b (j - 1) = 47) (hahead : Holds b j c)
    (hgap : i = j ∨ i + 2 ≤ j) : dashes (stored b i c) (j + c.length) = dots c := by
  rcases List.eq_nil_or_concat c with rfl | ⟨init, last, rfl⟩
  · have hprevious : stored b i [] (j - 1) = 47 := by
      rw [stored_outside (by simp; omega), hbehind.2]
    unfold dashes
    rw [List.length_nil, Nat.add_zero, if_neg (by rw [hprevious]; decide)]
    rfl
  · rw [List.concat_eq_append] at hahead ⊢
    have hlength : (init ++ [last]).length = init.length + 1 := List.length_append
    have hlast : stored b i (init ++ [last]) (j + (init ++ [last]).length - 1) = last := by
      have hget : (init ++ [last])[init.length]? = some last := List.getElem?_concat_length
      rw [hlength, show j + (init.length + 1) - 1 = j + init.length by omega]
      rcases hgap with rfl | hlt
      · exact holds_stored _ _ hget
      · rw [stored_outside (Or.inr (by omega))]
        exact hahead _ _ hget
    unfold dashes dots
    rw [hlast, List.getLast?_concat, List.dropLast_concat]
    rcases List.eq_nil_or_concat init with rfl | ⟨init', last', rfl⟩
    · have hprevious : stored b i ([] ++ [last]) (j + ([] ++ [last]).length - 2) = 47 := by
        rw [hlength, show j + (([] : Name).length + 1) - 2 = j - 1 by simp,
          stored_outside (by rw [hlength]; simp; omega), hbehind.2]
      rw [hprevious]
      simp
    · rw [List.concat_eq_append] at hahead hlength ⊢
      have hlength' : (init' ++ [last']).length = init'.length + 1 := List.length_append
      have hprevious : stored b i (init' ++ [last'] ++ [last])
          (j + (init' ++ [last'] ++ [last]).length - 2) = last' := by
        have hget : (init' ++ [last'] ++ [last])[init'.length]? = some last' := by
          rw [List.append_assoc, List.getElem?_append_right le_rfl, Nat.sub_self]
          rfl
        rw [hlength, hlength', show j + (init'.length + 1 + 1) - 2 = j + init'.length by omega]
        rcases hgap with rfl | hlt
        · exact holds_stored _ _ hget
        · rw [stored_outside (Or.inr (by omega))]
          exact hahead _ _ hget
      rw [hprevious, List.getLast?_concat]
      simp

theorem put_length_le (stack : List Name) (c : Name) :
    (dots c = 0 ∧ (joined (put stack c).reverse).length =
        (joined stack.reverse).length + 1 + c.length) ∨
      (c ≠ [] ∧ (joined (put stack c).reverse).length ≤ (joined stack.reverse).length) := by
  unfold put
  split
  next hzero =>
    refine Or.inl ⟨hzero, ?_⟩
    rw [joined_reverse_cons, List.length_append, List.length_cons]
    omega
  next hne =>
    have hc : c ≠ [] := by
      rintro rfl
      exact hne rfl
    refine Or.inr ⟨hc, ?_⟩
    split
    · exact le_rfl
    · cases stack with
      | nil => exact le_rfl
      | cons top stack =>
          rw [joined_reverse_cons, List.length_append, List.tail_cons]
          exact Nat.le_add_right ..

theorem joined_put_prefix (stack : List Name) (c : Name) :
    joined (put stack c).reverse <+: joined stack.reverse ++ 47 :: c := by
  unfold put
  split
  · rw [joined_reverse_cons]
  · split
    · exact List.prefix_append ..
    · cases stack with
      | nil => exact List.nil_prefix
      | cons top stack =>
          rw [joined_reverse_cons, List.append_assoc]
          exact List.prefix_append ..

theorem forall_put {P : Name → Prop} (h : ∀ c' ∈ stack, P c') (hc : dots c = 0 → P c) :
    ∀ c' ∈ put stack c, P c' := by
  intro c' hc'
  unfold put at hc'
  split at hc'
  next hzero =>
    rcases List.mem_cons.mp hc' with rfl | hold
    · exact hc hzero
    · exact h c' hold
  next =>
    split at hc'
    · exact h c' hc'
    · exact h c' (List.mem_of_mem_tail hc')

theorem forall_foldl_put {P : Name → Prop} (h : ∀ c ∈ stack, P c)
    (hnames : ∀ c ∈ names, dots c = 0 → P c) : ∀ c ∈ names.foldl put stack, P c := by
  induction names generalizing stack with
  | nil => exact h
  | cons c rest ih =>
      exact ih (forall_put h (hnames c List.mem_cons_self))
        fun c' hc' => hnames c' (List.mem_cons_of_mem _ hc')

theorem foldl_put_length_le (names stack : List Name) :
    (joined (names.foldl put stack).reverse).length ≤
      (joined stack.reverse).length + (joined names).length := by
  induction names generalizing stack with
  | nil => exact Nat.le_add_right ..
  | cons c rest ih =>
      have hrest := ih (put stack c)
      rw [List.foldl_cons, joined_cons, List.length_append, List.length_cons]
      rcases put_length_le stack c with ⟨-, hlength⟩ | ⟨-, hlength⟩
      · omega
      · omega

theorem Scanned.step (h : Scanned stack (c :: rest) j i b) (hc : Component c)
    (hstack : ∀ c' ∈ stack, 47 ∉ c') (left : Nat) :
    ∃ i' b', Scanned (put stack c) rest (j + c.length + 1) i' b' ∧
      truncateLoop (left + 1 + c.length) j i b = truncateLoop left (j + c.length + 1) i' b' := by
  obtain ⟨hindex, hdone, hbehind, hahead, hgap⟩ := h
  rw [List.flatMap_cons, List.append_assoc, List.append_assoc, holds_append,
    List.singleton_append, holds_cons] at hahead
  obtain ⟨hname, hslash, hrest⟩ := hahead
  have hle : i ≤ j := by omega
  have hdashes := dashes_stored hbehind hname hgap
  have hslash' : stored b i c (j + c.length) = 47 := by
    rw [stored_outside (Or.inr (by omega)), hslash]
  -- The components before this one and its bytes stand in front of `i`.
  have hfront : Holds (stored b i c) 0 (joined stack.reverse ++ 47 :: c) := by
    rw [← List.singleton_append, ← List.append_assoc, holds_append]
    refine ⟨holds_congr (fun p _ hp => stored_outside (Or.inl ?_)) hdone, ?_⟩
    · rw [List.length_append, List.length_singleton] at hp
      omega
    · rw [List.length_append, List.length_singleton, Nat.zero_add, ← hindex]
      exact holds_stored
  have hback : goBack (stored b i c) (dots c) (i + c.length) =
      (joined (put stack c).reverse).length := by
    rw [hindex]
    exact goBack_put (hindex ▸ hfront) hc.1 hstack
  set k := (joined (put stack c).reverse).length with hk
  have hkle : k ≤ j + c.length ∧ (k + 1 = j + c.length + 1 ∨ k + 1 + 2 ≤ j + c.length + 1) := by
    rcases put_length_le stack c with ⟨-, hlength⟩ | ⟨hne, hlength⟩
    · omega
    · have hpos := List.length_pos_iff.mpr hne
      omega
  refine ⟨k + 1, Function.update (stored b i c) k 47, ⟨by rw [hk], ?_, ?_, ?_, hkle.2⟩, ?_⟩
  · rw [holds_append, Nat.zero_add, ← hk]
    obtain ⟨tail, htail⟩ := joined_put_prefix stack c
    rw [← htail, holds_append] at hfront
    refine ⟨holds_congr (fun p _ hp => Function.update_of_ne (by omega) ..) hfront.1, ?_⟩
    exact holds_cons.mpr ⟨Function.update_self .., nofun⟩
  · refine ⟨Nat.succ_pos _, ?_⟩
    rw [Nat.add_sub_cancel]
    rcases eq_or_ne (j + c.length) k with heq | hne
    · rw [heq, Function.update_self]
    · rw [Function.update_of_ne hne, hslash']
  · refine holds_congr (fun p hp _ => ?_) hrest
    rw [Function.update_of_ne (by omega), stored_outside (Or.inr (by omega))]
  · rw [truncateLoop_name hname hc hle hbehind.1, truncateLoop, hslash', if_neg (by decide),
      if_pos ⟨by omega, rfl⟩, hdashes, hback]

theorem Scanned.run (h : Scanned stack rest j i b) (hrest : ∀ c ∈ rest, Component c)
    (hstack : ∀ c ∈ stack, Component c) (hleft : (rest.flatMap (· ++ [47])).length ≤ left) :
    ∃ b', truncateLoop left j i b = ((joined (rest.foldl put stack).reverse).length + 1, b') ∧
      Holds b' 0 (joined (rest.foldl put stack).reverse ++ [47]) := by
  induction rest generalizing stack j i b left with
  | nil =>
      obtain ⟨hindex, hdone, -, hahead, -⟩ := h
      have hend : b j = 0 := hahead 0 0 rfl
      refine ⟨b, ?_, hdone⟩
      rw [List.foldl_nil, ← hindex]
      cases left with
      | zero => rfl
      | succ left => rw [truncateLoop, if_pos hend]
  | cons c rest ih =>
      rw [List.flatMap_cons, List.length_append, List.length_append, List.length_singleton] at hleft
      have hstack' := forall_put hstack (c := c) fun _ => hrest c List.mem_cons_self
      obtain ⟨i', b', hscanned, hloop⟩ := h.step (hrest c List.mem_cons_self)
        (fun c' hc' => (hstack c' hc').1) (left - 1 - c.length)
      rw [show left = left - 1 - c.length + 1 + c.length by omega, hloop]
      exact ih hscanned (fun c' hc' => hrest c' (List.mem_cons_of_mem _ hc')) hstack' (by omega)

theorem joined_append (names names' : List Name) :
    joined (names ++ names') = joined names ++ joined names' := List.flatMap_append

theorem joined_splitOn (path : List UInt8) : joined (path.splitOn 47) = 47 :: path := by
  induction path with
  | nil => rfl
  | cons c rest ih =>
      rw [splitOn_cons]
      split
      next hc =>
        rw [joined_cons, ih, hc]
        rfl
      next =>
        cases hsplit : rest.splitOn 47 with
        | nil =>
            rw [hsplit] at ih
            cases ih
        | cons first others =>
            rw [hsplit, joined_cons] at ih
            have htail : first ++ joined others = rest := List.tail_eq_of_cons_eq ih
            rw [List.modifyHead_cons, joined_cons, List.cons_append, List.cons_append, htail]

theorem joined_concat (names : List Name) :
    joined names ++ [47] = 47 :: names.flatMap (· ++ [47]) := by
  induction names with
  | nil => rfl
  | cons c rest ih =>
      rw [joined_cons, List.append_assoc, ih, List.flatMap_cons, List.cons_append,
        List.append_assoc, List.singleton_append]

theorem component_joined (h : ∀ c ∈ names, Component c) : 0 ∉ joined names := by
  intro hmem
  obtain ⟨c, hc, hin⟩ := List.mem_flatMap.mp hmem
  rcases List.mem_cons.mp hin with heq | hin
  · cases heq
  · exact (h c hc).2 hin

/-- The string in the array. -/
def Shell.text (sh : Shell) : List UInt8 := cString sh.cwd 0 cwdSize

/-- The array holds the text of the components. -/
structure Shows (sh : Shell) (stack : List Name) : Prop where
  text : Holds sh.cwd 0 (joined stack.reverse ++ [0])
  index : sh.cwdIdx = (joined stack.reverse).length
  fits : (joined stack.reverse).length < cwdSize
  plain : ∀ c ∈ stack, dots c = 0
  component : ∀ c ∈ stack, Component c

variable {sh : Shell} {path : List UInt8}

theorem cString_of_holds {b : Bytes} {l : List UInt8} (h : Holds b 0 (l ++ [0])) (hzero : 0 ∉ l)
    (hl : l.length < cwdSize) : cString b 0 cwdSize = l := by
  obtain ⟨htext, hend⟩ := holds_append.mp h
  apply cString_eq hl hzero
  intro i hi
  rcases Nat.lt_or_eq_of_le hi with hlt | rfl
  · rw [htext i _ (List.getElem?_eq_getElem hlt)]
    simp [listBytes, hlt]
  · have hzero' := hend 0 0 rfl
    rw [Nat.add_zero] at hzero'
    rw [hzero']
    simp [listBytes]

theorem Shows.text_eq (h : Shows sh stack) : sh.text = joined stack.reverse :=
  cString_of_holds h.text (component_joined fun c hc => h.component c (List.mem_reverse.mp hc))
    h.fits

theorem shows_startShell : Shows startShell [] := by
  refine ⟨?_, rfl, by decide, nofun, nofun⟩
  exact holds_cons.mpr ⟨rfl, nofun⟩

theorem foldl_put (h : ∀ c ∈ names, dots c = 0) (stack : List Name) :
    names.foldl put stack = names.reverse ++ stack := by
  induction names generalizing stack with
  | nil => rfl
  | cons c rest ih =>
      have hput : put stack c = c :: stack := if_pos (h c List.mem_cons_self)
      rw [List.foldl_cons, hput, ih fun c' hc' => h c' (List.mem_cons_of_mem _ hc'),
        List.reverse_cons, List.append_assoc, List.singleton_append]

theorem truncateCwd_shows {b : Bytes} (h : Holds b 0 (joined names ++ [0]))
    (hnames : ∀ c ∈ names, Component c) (hfits : (joined names).length + 2 ≤ cwdSize) :
    Shows (truncateCwd b) (names.foldl put []) := by
  have hlength : (cString b 0 cwdSize).length = (joined names).length := by
    rw [cString_of_holds h (component_joined hnames) (by omega)]
  obtain ⟨htext, -⟩ := holds_append.mp h
  set b₁ := Function.update (Function.update b (joined names).length 47)
    ((joined names).length + 1) 0 with hb₁
  have hfull : Holds b₁ 0 (47 :: (names.flatMap (· ++ [47]) ++ [0])) := by
    rw [← List.cons_append, ← joined_concat, holds_append, holds_append, List.length_append,
      List.length_singleton, Nat.zero_add, Nat.zero_add]
    refine ⟨⟨holds_congr (fun p _ hp => ?_) htext, ?_⟩, ?_⟩
    · rw [hb₁, Function.update_of_ne (by omega), Function.update_of_ne (by omega)]
    · refine holds_cons.mpr ⟨?_, nofun⟩
      rw [hb₁, Function.update_of_ne (by omega), Function.update_self]
    · exact holds_cons.mpr ⟨Function.update_self .., nofun⟩
  obtain ⟨hfirst, hahead⟩ := holds_cons.mp hfull
  have hscanned : Scanned [] names 1 1 b₁ :=
    ⟨rfl, holds_cons.mpr ⟨hfirst, nofun⟩, ⟨Nat.one_pos, hfirst⟩, hahead, Or.inl rfl⟩
  have hconcat := congrArg List.length (joined_concat names)
  rw [List.length_append, List.length_singleton, List.length_cons] at hconcat
  have hleft : (names.flatMap (· ++ [47])).length ≤ 255 := by
    unfold cwdSize at hfits
    omega
  obtain ⟨b₂, hloop, hdone⟩ := hscanned.run hnames nofun hleft
  set final := names.foldl put [] with hfinal
  have hstart : truncateLoop cwdSize 0 0 b₁ =
      ((joined final.reverse).length + 1, b₂) := by
    have hsame : Function.update b₁ 0 47 = b₁ := Function.update_eq_self_iff.mpr hfirst.symm
    rw [← hloop]
    change truncateLoop (255 + 1) 0 0 b₁ = _
    rw [truncateLoop, hfirst, if_neg (by decide), if_neg fun hboth => absurd hboth.1 (by decide)]
    change truncateLoop 255 1 1 (Function.update b₁ 0 47) = _
    rw [hsame]
  have hcomponents : ∀ c ∈ final, Component c := forall_foldl_put nofun fun c hc _ => hnames c hc
  have hplain : ∀ c ∈ final, dots c = 0 := forall_foldl_put nofun fun _ _ hzero => hzero
  have hshort : (joined final.reverse).length ≤ (joined names).length := by
    have hle := foldl_put_length_le names []
    rwa [List.reverse_nil, show (joined []).length = 0 from rfl, Nat.zero_add] at hle
  refine ⟨?_, ?_, ?_, hplain, hcomponents⟩
  · unfold truncateCwd
    dsimp only
    rw [hlength, ← hb₁, hstart, Nat.add_sub_cancel, holds_append, Nat.zero_add]
    obtain ⟨hkept, -⟩ := holds_append.mp hdone
    refine ⟨holds_congr (fun p _ hp => Function.update_of_ne (by omega) ..) hkept, ?_⟩
    exact holds_cons.mpr ⟨Function.update_self .., nofun⟩
  · unfold truncateCwd
    dsimp only
    rw [hlength, ← hb₁, hstart, Nat.add_sub_cancel]
  · omega

theorem component_splitOn (hpath : 0 ∉ path) : ∀ c ∈ path.splitOn 47, Component c := by
  intro c hc
  refine ⟨notMem_of_mem_splitOn hc, fun hzero => hpath ?_⟩
  have hmem : (0 : UInt8) ∈ joined (path.splitOn 47) :=
    List.mem_flatMap.mpr ⟨c, hc, List.mem_cons_of_mem _ hzero⟩
  rw [joined_splitOn] at hmem
  rcases List.mem_cons.mp hmem with heq | hmem
  · cases heq
  · exact hmem

theorem Shows.cd (h : Shows sh stack) (hpath : 0 ∉ path)
    (hfits : sh.cwdIdx + path.length + 3 ≤ cwdSize) :
    Shows (sh.cd path) ((path.splitOn 47).foldl put stack) := by
  have hcomponent : ∀ c ∈ stack.reverse ++ path.splitOn 47, Component c := by
    intro c hc
    rcases List.mem_append.mp hc with hold | hnew
    · exact h.component c (List.mem_reverse.mp hold)
    · exact component_splitOn hpath c hnew
  have hjoined : joined (stack.reverse ++ path.splitOn 47) =
      joined stack.reverse ++ 47 :: path := by
    rw [joined_append, joined_splitOn]
  have hlength : (joined (stack.reverse ++ path.splitOn 47)).length =
      sh.cwdIdx + path.length + 1 := by
    rw [hjoined, List.length_append, List.length_cons, ← h.index, Nat.add_assoc]
  have hshows := truncateCwd_shows
    (b := copy (Function.update sh.cwd sh.cwdIdx 47) (sh.cwdIdx + 1) (listBytes path) 0
      (path.length + 1)) ?_ hcomponent (by omega)
  · have hplain : ∀ c ∈ stack.reverse, dots c = 0 :=
      fun c hc => h.plain c (List.mem_reverse.mp hc)
    rw [List.foldl_append, foldl_put hplain, List.reverse_reverse, List.append_nil] at hshows
    exact hshows
  · obtain ⟨htext, -⟩ := holds_append.mp h.text
    rw [hjoined, List.append_assoc, holds_append, List.cons_append, holds_cons, Nat.zero_add,
      ← h.index]
    refine ⟨holds_congr (fun p _ hp => ?_) htext, ?_, fun q x hx => ?_⟩
    · rw [← h.index] at hp
      rw [copy_outside (Or.inl (by omega)), Function.update_of_ne (by omega)]
    · rw [copy_outside (Or.inl (by omega)), Function.update_self]
    · have hq := (List.getElem?_eq_some_iff.mp hx).1
      rw [List.length_append, List.length_singleton] at hq
      rw [copy_inside (by omega) (by omega), Nat.add_sub_cancel_left, Nat.zero_add, listBytes,
        List.getD_eq_getElem?_getD]
      rcases Nat.lt_or_ge q path.length with hlt | hge
      · rw [List.getElem?_append_left hlt] at hx
        rw [hx]
        rfl
      · rw [List.getElem?_append_right hge] at hx
        rw [List.getElem?_eq_none hge]
        obtain rfl : q = path.length := by omega
        rw [Nat.sub_self] at hx
        cases hx
        rfl

/-- The components behind the separators of a text. -/
def shownNames (text : List UInt8) : List Name := (text.splitOn 47).tail

theorem splitOn_append (hc : 47 ∉ c) (l : List UInt8) :
    (c ++ 47 :: l).splitOn 47 = c :: l.splitOn 47 := by
  induction c with
  | nil => rw [List.nil_append, splitOn_cons, if_pos rfl]
  | cons x rest ih =>
      have hx : x ≠ 47 := fun heq => hc (heq ▸ List.mem_cons_self)
      rw [List.cons_append, splitOn_cons, if_neg hx, ih (List.not_mem_of_not_mem_cons hc)]
      rfl

theorem splitOn_joined (h : ∀ c ∈ names, Component c) :
    (joined names).splitOn 47 = [] :: names := by
  induction names with
  | nil => rfl
  | cons c rest ih =>
      have hrest := ih fun c' hc' => h c' (List.mem_cons_of_mem _ hc')
      have hc := (h c List.mem_cons_self).1
      rw [joined_cons, List.cons_append, splitOn_cons, if_pos rfl]
      cases rest with
      | nil => rw [joined, List.flatMap_nil, List.append_nil, List.splitOn_eq_singleton hc]
      | cons c' rest =>
          rw [joined_cons, List.cons_append, splitOn_append hc]
          rw [joined_cons, List.cons_append, splitOn_cons, if_pos rfl] at hrest
          rw [(List.cons.inj hrest).2]

theorem Shows.shownNames_eq (h : Shows sh stack) : shownNames sh.text = stack.reverse := by
  rw [shownNames, h.text_eq, splitOn_joined fun c hc => h.component c (List.mem_reverse.mp hc)]
  rfl

/-- No component but "." and ".." ends with a dot, and no ".." goes back to an
empty component, which stands behind a separator at the end of an earlier
path. -/
def Plain : List Name → List Name → Prop
  | _, [] => True
  | stack, c :: rest =>
      if c = dot then Plain stack rest
      else if c = dotDot then stack.head? ≠ some [] ∧ Plain stack.tail rest
      else c.getLast? ≠ some 46 ∧ Plain (c :: stack) rest

/-- The components lead from the root to the directory. -/
inductive Leads (s : FsState) : List Name → UInt32 → Prop
  | root : Leads s [] 0
  | down {stack : List Name} {dir next : UInt32} {name : Name} : Leads s stack dir →
      Dir s dir.toNat → name ≠ dot → name ≠ dotDot → enter s dir name = some next →
      Leads s (name :: stack) next
  | slash {stack : List Name} {dir : UInt32} : Leads s stack dir → Leads s ([] :: stack) dir

variable {s : FsState} {dir next : UInt32} {name : Name}

theorem Leads.up (h : Leads s stack dir) (htree : DirectoryTree s) (hempty : stack.head? ≠ some [])
    (henter : enter s dir dotDot = some next) : Leads s stack.tail next := by
  cases h with
  | root =>
      rw [htree.root] at henter
      cases henter
      exact .root
  | down habove hdir hdot hdotDot hstep =>
      rw [htree.parent _ _ _ hdir hdot hdotDot hstep] at henter
      cases henter
      exact habove
  | slash _ => exact absurd rfl hempty

theorem Leads.put {rest : List Name} (h : Leads s stack dir) (htree : DirectoryTree s)
    (hdir : Dir s dir.toNat) (hplain : Plain stack (name :: rest))
    (henter : enter s dir name = some next) :
    Leads s (put stack name) next ∧ Plain (put stack name) rest := by
  unfold Plain at hplain
  unfold PromptPath.put
  split at hplain
  next hdot =>
    subst hdot
    rw [htree.self dir hdir] at henter
    cases henter
    exact ⟨h, hplain⟩
  next hdot =>
    split at hplain
    next hdotDot =>
      subst hdotDot
      exact ⟨h.up htree hplain.1 henter, hplain.2⟩
    next hdotDot =>
      have hzero : dots name = 0 := if_neg hplain.1
      rw [if_pos hzero]
      exact ⟨.down h hdir hdot hdotDot henter, hplain.2⟩

theorem Leads.walk (h : Leads s stack dir) (htidy : Tidy s) (htree : DirectoryTree s)
    (hdir : Dir s dir.toNat) (hplain : Plain stack names)
    (hfollow : follow s dir names = some next) :
    Leads s (names.foldl PromptPath.put stack) next := by
  induction names generalizing stack dir with
  | nil =>
      cases hfollow
      exact h
  | cons name rest ih =>
      rw [follow_cons] at hfollow
      obtain ⟨middle, henter, hrest⟩ := Option.bind_eq_some_iff.mp hfollow
      obtain ⟨hleads, hplain'⟩ := h.put htree hdir hplain henter
      exact ih hleads (dir_of_enter htidy hdir henter) hplain' hrest

theorem Leads.cd (h : Leads s stack dir) (htidy : Tidy s) (htree : DirectoryTree s)
    (hdir : Dir s dir.toNat) (hplain : Plain stack (pieces path))
    (hfollow : follow s dir (pieces path) = some next) :
    Leads s ((path.splitOn 47).foldl PromptPath.put stack) next := by
  have hleads := h.walk htidy htree hdir hplain hfollow
  unfold pieces trim at hleads
  split at hleads
  next hlast =>
    rw [← List.dropLast_append_getLast? [] hlast, List.foldl_append]
    exact .slash hleads
  next => exact hleads

theorem Leads.follow_eq (h : Leads s stack dir) (htree : DirectoryTree s) :
    follow s 0 (stack.reverse.filter (· ≠ [])) = some dir := by
  induction h with
  | root => rfl
  | down habove hdir hdot hdotDot hstep ih =>
      rename_i stack dir next name
      have hne : name ≠ [] := by
        rintro rfl
        rw [htree.named dir hdir] at hstep
        cases hstep
      have hsingle : [name].filter (· ≠ []) = [name] := by simp [hne]
      rw [List.reverse_cons, List.filter_append, hsingle, follow, List.foldlM_append]
      change (follow s 0 _).bind (fun dir => follow s dir [name]) = _
      rw [ih, Option.bind_some, follow_cons, hstep]
      rfl
  | slash _ ih =>
      have hsingle : ([[]] : List Name).filter (· ≠ []) = [] := rfl
      rw [List.reverse_cons, List.filter_append, hsingle, List.append_nil, ih]

/-- The machine and the shell of a session. -/
abbrev Session : Type := Machine Bytes Globals × Shell

/-- A session starts in the root of a tree, and its steps are the commands `cd`
for which `sys_cd` returns 0.  The text fits in the array, with the separator
of `truncate_cwd`. -/
def session : System Session (List UInt8) where
  start w := w.2 = startShell ∧ w.1.globals.cwdNode = 0 ∧
    ∃ s, Realizes w.1 s ∧ Tidy s ∧ DirectoryTree s
  step w path w' := 0 ∉ path ∧ w.2.text.length + path.length + 3 ≤ cwdSize ∧
    (fsCd path).run w.1 = (.ok 0, w'.1) ∧ w'.2 = w.2.cd path

/-- The names in the prompt; nothing stands between two separators. -/
def promptNames (sh : Shell) : List Name := (shownNames sh.text).filter (· ≠ [])

def atRoot (m : Machine Bytes Globals) : Machine Bytes Globals :=
  { m with globals := { m.globals with cwdNode := 0 } }

/-- From the root the kernel walks along the names in the prompt into its
current directory. -/
def Tracks (w : Session) : Prop :=
  ∃ m', (cdLoop 0 (promptNames w.2)).run (atRoot w.1) = (.ok 0, m') ∧
    m'.globals.cwdNode = w.1.globals.cwdNode

/-- The condition on an argument. -/
def PlainArgument (w : Session) (path : List UInt8) : Prop :=
  Plain (shownNames w.2.text).reverse (pieces path)

/-- What every command keeps. -/
structure Followed (w : Session) (s : FsState) (stack : List Name) : Prop where
  realizes : Realizes w.1 s
  tidy : Tidy s
  tree : DirectoryTree s
  shows : Shows w.2 stack
  leads : Leads s stack s.cwd

variable {w w' : Session} {m : Machine Bytes Globals}

theorem tree_goto (h : DirectoryTree s) (dir : UInt32) : DirectoryTree (goto s dir) :=
  ⟨h.self, h.root, h.parent, h.named⟩

theorem Leads.goto (h : Leads s stack dir) (next : UInt32) :
    Leads (PathWalks.goto s next) stack dir := by
  induction h with
  | root => exact .root
  | down _ hdir hdot hdotDot hstep ih => exact .down ih hdir hdot hdotDot hstep
  | slash _ ih => exact .slash ih

theorem Followed.tracks (h : Followed w s stack) : Tracks w := by
  have hroot : Realizes (atRoot w.1) (goto s 0) :=
    (setCwdNode_realizes h.realizes 0 (E := Never)).ok (a := ()) rfl
  have hdir : Dir s (0 : UInt32).toNat := h.tidy.root
  have hfollow : follow s 0 (promptNames w.2) = some s.cwd := by
    rw [promptNames, h.shows.shownNames_eq]
    exact h.leads.follow_eq h.tree
  have hruns : Runs (cdLoop 0 (promptNames w.2)) (atRoot w.1) Never fun r m' =>
      Walked s (follow s 0 (promptNames w.2)) 0 r m' :=
    cdLoop_walked hroot (walkable h.tidy hdir _)
  obtain ⟨r, m', hrun, hwalked⟩ := hruns.returns fun _ _ he => he
  rw [hfollow] at hwalked
  rcases hwalked with ⟨rfl, harrived, h'⟩ | ⟨-, hnone, -⟩
  · cases harrived
    have hcwd : m'.globals.cwdNode = s.cwd := h'.cwd
    exact ⟨m', hrun, hcwd.trans h.realizes.cwd.symm⟩
  · cases hnone

theorem Followed.step (h : Followed w s stack) (hplain : PlainArgument w path)
    (hstep : session.step w path w') : ∃ s' stack', Followed w' s' stack' := by
  obtain ⟨hzero, hfits, hrun, hsh⟩ := hstep
  rw [PlainArgument, h.shows.shownNames_eq, List.reverse_reverse] at hplain
  rw [h.shows.text_eq, ← h.shows.index] at hfits
  rcases (fsCd_tidy h.realizes h.tidy path).ok hrun with ⟨-, hfollow, h'⟩ | ⟨hr, -, -⟩
  · rename_i dir
    have hdir := dir_of_follow h.tidy h.tidy.cwd hfollow
    have hleads := h.leads.cd h.tidy h.tree h.tidy.cwd hplain hfollow
    have htree := tree_goto h.tree dir
    refine ⟨_, _, h', h.tidy.goto hdir, htree, ?_, hleads.goto dir⟩
    rw [hsh]
    exact h.shows.cd hzero hfits
  · cases hr

/-- In every session with plain arguments the prompt names the current
directory of the kernel. -/
theorem prompt_tracks (h : ReachableUnder session PlainArgument w) : Tracks w := by
  have hfollowed : ∃ s stack, Followed w s stack := by
    refine h.invariant (P := fun w => ∃ s stack, Followed w s stack) ?_ ?_
    · rintro ⟨m, sh⟩ ⟨rfl, hcwd, s, hs, htidy, htree⟩
      have hroot : s.cwd = 0 := hs.cwd.symm.trans hcwd
      exact ⟨s, [], hs, htidy, htree, shows_startShell, hroot ▸ .root⟩
    · rintro w path w' ⟨s, stack, hfollowed⟩ hplain hstep
      exact hfollowed.step hplain hstep
  obtain ⟨s, stack, hfollowed⟩ := hfollowed
  exact hfollowed.tracks

/-- The disk with one directory in the root. -/
def withDirectory (path : List UInt8) : Machine Bytes Globals :=
  ((fsMkdir path).run blankFormatted).2

theorem start_withDirectory (hname : NameOk path) (hpath : path ≠ [])
    (hresult : returned ((fsMkdir path).run blankFormatted).1 = some 0) :
    session.start (withDirectory path, startShell) := by
  obtain ⟨s, hs, hcwd, hfree⟩ := planted_of_formatted formatted_blankFormatted
  obtain ⟨s', hs', hcwd'⟩ := planted_mkdir hs ⟨2, by decide, hfree⟩ hname hpath
    (run_eq_of_returned hresult)
  refine ⟨rfl, ?_, s', hs'.realizes, hs'.inOrder.tidy, hs'.tree⟩
  exact (hs'.realizes.cwd.trans hcwd').trans hcwd

theorem step_withDirectory (hzero : 0 ∉ path) (hfits : path.length + 3 ≤ cwdSize)
    (hresult : returned ((fsCd path).run (withDirectory path)).1 = some 0) :
    session.step (withDirectory path, startShell) path
      (((fsCd path).run (withDirectory path)).2, startShell.cd path) := by
  refine ⟨hzero, ?_, run_eq_of_returned hresult, rfl⟩
  rw [shows_startShell.text_eq]
  change 0 + path.length + 3 ≤ cwdSize
  omega

theorem oneDirectory_tracked : ∃ w, promptNames w.2 = [[97]] ∧ w.1.globals.cwdNode = 1 ∧
    Tracks w := by
  have hfacts : returned ((fsMkdir [97]).run blankFormatted).1 = some 0 ∧
      returned ((fsCd [97]).run (withDirectory [97])).1 = some 0 ∧
      ((fsCd [97]).run (withDirectory [97])).2.globals.cwdNode = 1 := by
    rw [blankFormatted_eq]
    decide +kernel
  obtain ⟨hmkdir, hcd, hcwd⟩ := hfacts
  have hstart := start_withDirectory (nameOk_singleton (by decide)) (by decide) hmkdir
  have hshows : Shows (startShell.cd [97]) [[97]] :=
    shows_startShell.cd (by decide) (by decide)
  have hplain : PlainArgument (withDirectory [97], startShell) [97] := by
    rw [PlainArgument, pieces_of_notMem (by decide) (by decide)]
    exact ⟨by decide, trivial⟩
  refine ⟨_, ?_, hcwd, prompt_tracks (.step (.start hstart) hplain
    (step_withDirectory (by decide) (by decide) hcd))⟩
  rw [promptNames, hshows.shownNames_eq]
  rfl

/-- `cd` into a directory whose name ends with a dot: the prompt stays in the
root. -/
theorem dottedDirectory_not_tracked : ∃ w, Reachable session w ∧ ¬Tracks w := by
  have hfacts : returned ((fsMkdir [97, 46]).run blankFormatted).1 = some 0 ∧
      returned ((fsCd [97, 46]).run (withDirectory [97, 46])).1 = some 0 ∧
      ((fsCd [97, 46]).run (withDirectory [97, 46])).2.globals.cwdNode = 1 := by
    rw [blankFormatted_eq]
    decide +kernel
  obtain ⟨hmkdir, hcd, hcwd⟩ := hfacts
  have hname : NameOk [97, 46] := by
    refine ⟨by decide, fun x hx => ?_⟩
    rcases List.mem_pair.mp hx with rfl | rfl
    · decide
    · decide
  have hstart := start_withDirectory hname (by decide) hmkdir
  have hshows : Shows (startShell.cd [97, 46]) [] :=
    shows_startShell.cd (by decide) (by decide)
  refine ⟨_, .step (.start hstart) trivial (step_withDirectory (by decide) (by decide) hcd), ?_⟩
  rintro ⟨m', hrun, hsame⟩
  have hnames : promptNames (startShell.cd [97, 46]) = [] := by
    rw [promptNames, hshows.shownNames_eq]
    rfl
  rw [hnames] at hrun
  cases hrun
  rw [hcwd] at hsame
  exact absurd hsame (by decide)

end LabKernel.PromptPath
