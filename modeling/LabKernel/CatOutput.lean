import LabKernel.InertReads
import LabKernel.PathWalks

/-!
What `fs_cat` prints.

Every round leaves the bytes of one block in `cat_buffer` and passes the
buffer to `putstr` as a string.  Behind these bytes the buffer holds what
earlier rounds and calls left there, and a whole block leaves no room for a
terminator.
-/

namespace LabKernel.CatOutput

open LabKernel.BlockCache
open LabKernel.BlockObject
open LabKernel.BlockOwnership
open LabKernel.ByteMemory
open LabKernel.ComposedPrograms
open LabKernel.DirectData
open LabKernel.DirectoryCalls
open LabKernel.FileWrites
open LabKernel.FsCode
open LabKernel.FsLayout
open LabKernel.FsPrimitives
open LabKernel.FsRuns
open LabKernel.FsTables
open LabKernel.FsView
open LabKernel.InertReads
open LabKernel.PathWalks
open LabKernel.ProgramLogic
open LabKernel.SteadyPrograms
open LabKernel.TransitionSystem

variable {m m' m₁ : Machine Bytes Globals} {s : FsState} {c : Nat → Bytes} {n : Inode}
  {buffer : Bytes} {path : List UInt8} {o : Nat}

/-- The entries of the index blocks on the way to an offset. -/
def entriesTo : Nat → Nat → List Nat
  | 0, _ => []
  | depth + 1, o => o / entrySize (depth + 1) :: entriesTo depth (o % entrySize (depth + 1))

/-- The block with the byte at an offset of a file. -/
def blockOf (s : FsState) (n : Inode) (o : Nat) : UInt32 :=
  blockAt s n ⟨rootOf o, entriesTo (rootOf o).depth (below o)⟩

/-- The byte at an offset of a file; 0 where no block is. -/
def byteAt (s : FsState) (n : Inode) (o : Nat) : UInt8 :=
  if blockOf s n o = 0 then 0
  else (s.data (blockOf s n o).toNat).getD zeros (o % blockSize)

/-- The `inode.size` bytes of a file. -/
def bytesOf (s : FsState) (n : Inode) : List UInt8 :=
  (List.range n.size.toNat).map (byteAt s n)

theorem length_bytesOf (s : FsState) (n : Inode) : (bytesOf s n).length = n.size.toNat := by
  rw [bytesOf, List.length_map, List.length_range]

theorem blockOf_direct (h : o < l0Bound) : blockOf s n o = direct n (o / 4096) := by
  unfold blockOf
  rw [rootOf_direct h]
  exact (direct_eq_pointer (directIndex_lt h)).symm

theorem byteAt_ne_zero (h : 0 ∉ bytesOf s n) (ho : o < n.size.toNat) : byteAt s n o ≠ 0 :=
  fun hzero => h (List.mem_map.mpr ⟨o, List.mem_range.mpr ho, hzero⟩)

theorem block_of_byte (h : byteAt s n o ≠ 0) :
    blockOf s n o ≠ 0 ∧
      byteAt s n o = (s.data (blockOf s n o).toNat).getD zeros (o % blockSize) := by
  unfold byteAt at h ⊢
  split at h
  next => exact absurd rfl h
  next hblock => exact ⟨hblock, if_neg hblock⟩

/-- Every run keeps what is on the console. -/
def Appends {α : Type} (p : Fs α) : Prop :=
  ∀ m : Machine Bytes Globals, m.globals.console <+: (p.run m).2.globals.console

section Console

variable {α γ : Type} {p : Fs α} {k : α → Fs γ}

theorem appends_bind (hp : Appends p) (hk : ∀ a, Appends (k a)) : Appends (p >>= k) := by
  intro m
  have hfirst := hp m
  rw [run_bind]
  generalize p.run m = outcome at hfirst ⊢
  obtain ⟨result, m₁⟩ := outcome
  cases result with
  | error e => exact hfirst
  | ok a => exact hfirst.trans (hk a m₁)

theorem appends_of_steady (h : Steady (fun m : Machine Bytes Globals => m.globals.console) p) :
    Appends p := by
  intro m
  rw [show (p.run m).2.globals.console = m.globals.console from h m]

theorem Appends.runs (h : Appends p) (m : Machine Bytes Globals) :
    Runs p m Stopped fun _ m' => m.globals.console <+: m'.globals.console := by
  refine (runs_any p m).withRun.mono (fun _ _ he => he) ?_
  rintro a m' ⟨-, hrun⟩
  have happends := h m
  rwa [hrun] at happends

theorem appends_print (text : Printed) : Appends (print text) := fun _ => List.prefix_append _ _

end Console

theorem appends_catLoop (left : Nat) (n : Inode) (offset : Nat) :
    Appends (catLoop left n offset) := by
  induction left generalizing n offset with
  | zero => exact appends_of_steady (steady_pure _)
  | succ left ih =>
      unfold catLoop
      split
      next =>
        refine appends_bind (appends_of_steady steady_getGlobals) fun g => ?_
        refine appends_bind (appends_of_steady
          (steady_composed (composed_inodeModifyData _ _ _ _ _))) fun r => ?_
        refine appends_bind (fun _ => List.prefix_refl _) fun _ => ?_
        exact appends_bind (appends_print _) fun _ => ih _ _
      next => exact appends_of_steady (steady_pure _)

theorem readBlock (h : Showing c m) {p : UInt32} {offset length : Nat} (hset : p ≠ 0)
    (hdisk : p.toNat < maxBlockNum) :
    Runs (inodeModifyDataRecur false 0 none p (.buffer buffer) offset length) m Never fun r m' =>
      r = (p, .buffer (copy buffer 0 (c p.toNat) offset length), false) ∧ Showing c m' ∧
        m'.globals = m.globals := by
  have hopen : Runs (openPointer none p) m Never fun r m' => r.1 = p ∧ r.2.1 = false ∧
      r.2.2.blockid = p.toNat ∧ Fresh {p.toNat} m' r.2.2 ∧ Showing c m' ∧
        m'.globals = m.globals := by
    unfold openPointer
    rw [if_neg hset]
    refine (runs_openBlock h.ready.sound (T := {p.toNat}) (by simp [cacheSize])
      (Finset.mem_singleton_self _) fun hle => absurd hle (not_le.mpr hdisk)).bind ?_
    rintro block m₁ ⟨hid, hfresh, hev, hg⟩
    exact runs_pure ⟨rfl, rfl, hid, hfresh, h.evolves hev (congrArg Globals.superblock hg), hg⟩
  refine hopen.bind ?_
  rintro ⟨_, _, block⟩ m₁ ⟨rfl, rfl, hid, hfresh, h₁, hg⟩
  have htransfer : Runs (transfer false block (.buffer buffer) offset length) m₁ Never
      fun data m' => data = .buffer (copy buffer 0 (visible m₁ block.blockid) offset length) ∧
        m' = m₁ := by
    refine (runs_load h₁.ready.sound hfresh).bind ?_
    rintro d m₁ ⟨rfl, rfl⟩
    exact runs_pure ⟨rfl, rfl⟩
  refine htransfer.bind ?_
  rintro _ m₂ ⟨rfl, rfl⟩
  dsimp only at hid hdisk ⊢
  rw [hid, h₁.visible_eq _ hdisk]
  exact runs_pure ⟨rfl, h₁, hg⟩

theorem readPresent (h : Showing c m) {offset length : UInt32} (hlt : offset.toNat < l0Bound)
    (hkeep : changes n offset length = false)
    (hwithin : offset.toNat % blockSize + length.toNat ≤ blockSize)
    (hdisk : (direct n (offset.toNat / 4096)).toNat < maxBlockNum) :
    Runs (inodeModifyData false n buffer offset length) m Never fun r m' => r.1 = n ∧
      r.2.1 = copy buffer 0 (c (direct n (offset.toNat / 4096)).toNat) (offset.toNat % 4096)
        length.toNat ∧ Showing c m' ∧ m'.globals = m.globals := by
  have hset : pointer n (rootOf offset.toNat) ≠ 0 := by
    rw [changes, Bool.or_eq_false_iff] at hkeep
    exact of_decide_eq_false hkeep.2
  have hbelow : below offset.toNat = offset.toNat % 4096 := if_pos hlt
  have hdepth : (rootOf offset.toNat).depth = 0 := by
    rw [rootOf_direct hlt]
    rfl
  rw [← pointer_rootOf hlt n] at hdisk ⊢
  rw [inodeModifyData_eq, grown_of_changes hkeep, hbelow, hdepth]
  refine runs_bind (runs_assert (fun hfalse => absurd hwithin (of_decide_eq_false hfalse)) ?_)
  intro _
  refine (readBlock h hset hdisk).bind ?_
  rintro _ m₁ ⟨rfl, h₁, hg⟩
  exact runs_pure ⟨setPointer_self n _, rfl, h₁, hg⟩

/-- What the first round prints. -/
def firstText (c : Nat → Bytes) (n : Inode) (buffer : Bytes) : List UInt8 :=
  cString (copy buffer 0 (c (direct n 0).toNat) 0 (min blockSize n.size.toNat)) 0 blockSize

/-- The state after the first round. -/
structure FirstRound (c : Nat → Bytes) (n : Inode) (m m₁ : Machine Bytes Globals) : Prop where
  showing : Showing c m₁
  console : m₁.globals.console =
    m.globals.console ++ [.name (firstText c n m.globals.catBuffer)]

theorem catLoop_first {Q : Unit → Machine Bytes Globals → Prop} (h : Showing c m)
    (hsize : n.size.toNat ≠ 0) (hset : direct n 0 ≠ 0) (hdisk : (direct n 0).toNat < maxBlockNum)
    {left : Nat} {E : Failure → Machine Bytes Globals → Prop}
    (hrest : ∀ m₁, FirstRound c n m m₁ →
      Runs (catLoop left n (min blockSize n.size.toNat)) m₁ E Q) :
    Runs (catLoop (left + 1) n 0) m E Q := by
  have hlt : 0 < n.size.toNat := Nat.pos_of_ne_zero hsize
  set length := min blockSize n.size.toNat with hlength
  have hle : length ≤ blockSize := Nat.min_le_left _ _
  have hle' : length ≤ n.size.toNat := Nat.min_le_right _ _
  have hpos : 0 < length := lt_min (by decide) hlt
  have hplace : InPlace n (0 : UInt32).toNat length := by
    refine ⟨by rwa [UInt32.toNat_zero, Nat.zero_add], fun o _ ho => ?_⟩
    rw [UInt32.toNat_zero, Nat.zero_add] at ho
    have ho : o < 4096 := lt_of_lt_of_le ho hle
    rw [pointer_rootOf (lt_of_lt_of_le ho (by decide)), Nat.div_eq_of_lt ho]
    exact hset
  obtain ⟨hkeep, -⟩ := changes_of_inPlace hpos (le_refl _) hplace
  have hnat : (UInt32.ofNat length).toNat = length := by
    rw [UInt32.toNat_ofNat', Nat.mod_eq_of_lt (lt_of_le_of_lt hle (by decide))]
  unfold catLoop
  rw [if_pos hlt]
  refine runs_getGlobals.bind ?_
  rintro _ m ⟨rfl, rfl⟩
  rw [Nat.sub_zero, ← hlength]
  have hread : Runs (inodeModifyData false n m.globals.catBuffer 0 (.ofNat length)) m Never _ :=
    readPresent h (by decide) hkeep (by rw [hnat]; simpa using hle) hdisk
  refine (hread.mono (fun _ _ he => he.elim) fun _ _ hq => hq).bind ?_
  rintro ⟨n', buffer, _⟩ m₁ ⟨hn, hbuffer, h₁, hg₁⟩
  dsimp only at hn hbuffer
  subst hn hbuffer
  refine (runs_modifyGlobals h₁.ready.sound _ (T := ∅)).bind ?_
  rintro _ m₂ ⟨hev₂, -, -, hg₂⟩
  have h₂ := h₁.evolves hev₂ (by rw [hg₂])
  refine (runs_modifyGlobals h₂.ready.sound _ (T := ∅)).bind ?_
  rintro _ m₃ ⟨hev₃, -, -, hg₃⟩
  rw [Nat.zero_add]
  refine hrest m₃ ⟨h₂.evolves hev₃ (by rw [hg₃]), ?_⟩
  rw [hg₃, hg₂, hg₁, hnat]
  rfl

theorem catPrefix_showing (h : Showing c m) (hfile : (catPrefix path).run m = (.ok (some n), m₁)) :
    Showing c m₁ ∧ m₁.globals = m.globals := by
  have hsilent : Silent id (catPrefix path) := by
    refine silent_composed (.bind (composed_lookup path 0) fun ino => ?_)
    refine composed_ite (.pure _) (.bind (composed_readInode ino) fun n => ?_)
    exact composed_ite (.pure _) (.pure _)
  have hidle : Idle (catPrefix path) := by
    refine idle_bind (idle_getInodeByFilename path 0) fun ino => ?_
    refine idle_ite (idle_pure _) (idle_bind (idle_readInode ino) fun n => ?_)
    exact idle_ite (idle_pure _) (idle_pure _)
  have hglobals : m₁.globals = m.globals := by
    have := hsilent m
    rwa [hfile] at this
  have hev := (hidle m h.ready.sound).ok hfile
  exact ⟨h.evolves hev (congrArg Globals.superblock hglobals), hglobals⟩

/-- The loop of `fs_cat` with the line break after it. -/
def catRest (n : Inode) : Fs Int := do
  catLoop (n.size.toNat / blockSize + 1) n 0
  print (.text "\n")
  return 0

theorem fsCat_run (hfile : (catPrefix path).run m = (.ok (some n), m₁)) :
    (fsCat path).run m = (catRest n).run m₁ := by
  unfold catPrefix at hfile
  unfold fsCat
  rw [run_bind] at hfile ⊢
  generalize (getInodeByFilename path false 0).run m = outcome at hfile ⊢
  obtain ⟨_ | ino, m₂⟩ := outcome
  · cases hfile
  · dsimp only at hfile ⊢
    split at hfile
    next => cases hfile
    next hino =>
      rw [if_neg hino]
      rw [run_bind] at hfile ⊢
      generalize (readInode ino).run m₂ = outcome at hfile ⊢
      obtain ⟨_ | inode, m₃⟩ := outcome
      · cases hfile
      · dsimp only at hfile ⊢
        split at hfile
        next => cases hfile
        next htype =>
          rw [if_neg htype]
          cases hfile
          rfl

/-- `fs_cat` shows exactly the file and changes nothing.  Each string passed to
`putstr` has its terminator inside `cat_buffer`; without one it would go on in
the memory behind the buffer. -/
structure Exact (n : Inode) (m m' : Machine Bytes Globals) : Prop where
  printed : ∃ texts : List (List UInt8),
    m'.globals.console = m.globals.console ++ texts.map .name ++ [.text "\n"] ∧
      (∀ text ∈ texts, text.length < blockSize) ∧ texts.flatten = bytesOf (shown m) n
  blocks : ∀ x < maxBlockNum, blockBit m' x = blockBit m x
  inodes : ∀ k < maxInodeNum, inodeAt m' k = inodeAt m k
  bytes : bytesOf (shown m') n = bytesOf (shown m) n

theorem catLoop_done {left offset : Nat} (h : n.size.toNat ≤ offset)
    {E : Failure → Machine Bytes Globals → Prop} :
    Runs (catLoop left n offset) m E fun _ m' => m' = m := by
  cases left with
  | zero => exact runs_pure rfl
  | succ left =>
      unfold catLoop
      rw [if_neg (not_lt.mpr h)]
      exact runs_pure rfl

theorem print_showing (h : Showing c m) (text : Printed)
    {E : Failure → Machine Bytes Globals → Prop} :
    Runs (print text) m E fun _ m' =>
      Showing c m' ∧ m'.globals.console = m.globals.console ++ [text] := by
  refine (runs_modifyGlobals h.ready.sound _ (T := ∅)).mono (fun _ _ he => he) ?_
  rintro _ m' ⟨hev, -, -, hg⟩
  exact ⟨h.evolves hev (by rw [hg]), by rw [hg]⟩

theorem byte_first (hzero : 0 ∉ bytesOf (shown m) n) (ho : o < n.size.toNat) (hlt : o < 4096) :
    direct n 0 ≠ 0 ∧ byteAt (shown m) n o = visible m (direct n 0).toNat o ∧
      visible m (direct n 0).toNat o ≠ 0 := by
  have hne := byteAt_ne_zero hzero ho
  obtain ⟨hblock, hbyte⟩ := block_of_byte hne
  have hdirect : blockOf (shown m) n o = direct n 0 := by
    rw [blockOf_direct (lt_of_lt_of_le hlt (by decide)), Nat.div_eq_of_lt hlt]
  rw [hdirect] at hblock hbyte
  rw [show o % blockSize = o from Nat.mod_eq_of_lt hlt] at hbyte
  have hshown : byteAt (shown m) n o = visible m (direct n 0).toNat o := hbyte
  exact ⟨hblock, hshown, hshown ▸ hne⟩

/-- The first string is at least as long as the bytes in the buffer up to the
first terminator. -/
theorem le_length_firstText {k : Nat} (hzero : 0 ∉ bytesOf (shown m) n) (hk : k ≤ blockSize)
    (hbuffer : ∀ i < k, n.size.toNat ≤ i → buffer i ≠ 0) :
    k ≤ (firstText (visible m) n buffer).length := by
  refine le_length_cString (fun i hi => ?_) hk
  have hlt : i < 4096 := lt_of_lt_of_le hi hk
  rw [Nat.zero_add]
  rcases lt_or_ge i n.size.toNat with hin | hout
  · rw [copy_inside (Nat.zero_le i) (by rw [Nat.zero_add]; exact lt_min hlt hin), Nat.zero_add,
      Nat.sub_zero]
    exact (byte_first hzero hin hlt).2.2
  · rw [copy_outside (Or.inr (by rw [Nat.zero_add]; exact (Nat.min_le_right _ _).trans hout))]
    exact hbuffer i hi hout

theorem firstText_eq (hzero : 0 ∉ bytesOf (shown m) n) (hlt : n.size.toNat < blockSize)
    (hbuffer : buffer n.size.toNat = 0) :
    firstText (visible m) n buffer = bytesOf (shown m) n := by
  have hlength := length_bytesOf (shown m) n
  refine cString_eq (by rw [hlength]; exact hlt) hzero fun i hi => ?_
  rw [hlength] at hi
  rw [Nat.zero_add, Nat.min_eq_right hlt.le]
  rcases Nat.lt_or_eq_of_le hi with hin | rfl
  · have hbyte := (byte_first hzero hin (hin.trans hlt)).2.1
    rw [copy_inside (Nat.zero_le i) (by rwa [Nat.zero_add]), Nat.zero_add, Nat.sub_zero, ← hbyte]
    simp [listBytes, bytesOf, hin]
  · rw [copy_outside (Or.inr (by rw [Nat.zero_add])), hbuffer]
    simp [listBytes, bytesOf]

/-- The file fits into the buffer with a terminator, and the buffer has one
behind it. -/
def Terminated (m : Machine Bytes Globals) (n : Inode) : Prop :=
  n.size = 0 ∨ n.size.toNat < blockSize ∧ m.globals.catBuffer n.size.toNat = 0

theorem exact_of_showing (h : Showing (visible m) m') {texts : List (List UInt8)}
    (hdisk : ∀ o < n.size.toNat, OnDisk n o) (hsize : n.size.toNat < blockSize)
    (hconsole : m'.globals.console =
      m.globals.console ++ texts.map .name ++ [.text "\n"])
    (hlength : ∀ text ∈ texts, text.length < blockSize)
    (hflatten : texts.flatten = bytesOf (shown m) n) : Exact n m m' := by
  refine ⟨⟨texts, hconsole, hlength, hflatten⟩, fun x hx => ?_, fun k hk => ?_, ?_⟩
  · have hlt : 2 + x / 32768 < maxBlockNum := by
      rw [maxBlockNum_eq] at hx ⊢
      omega
    rw [blockBit, blockBit, h.visible_eq _ hlt]
  · have hlt : 5 + k / 64 < maxBlockNum :=
      (inodeBlock_lt hk).trans (by decide)
    rw [inodeAt, inodeAt, h.visible_eq _ hlt]
  · unfold bytesOf
    refine List.map_congr_left fun o ho => ?_
    have ho := List.mem_range.mp ho
    have hbound : o < l0Bound := ho.trans (hsize.trans (by decide))
    unfold byteAt
    rw [blockOf_direct hbound, blockOf_direct hbound]
    split
    next => rfl
    next =>
      exact congrArg (fun d : Bytes => d (o % blockSize)) (h.visible_eq _ (hdisk o ho hbound))

theorem catRest_exact (h : Showing (visible m) m₁) (hglobals : m₁.globals = m.globals)
    (hdisk : ∀ o < n.size.toNat, OnDisk n o) (hzero : 0 ∉ bytesOf (shown m) n)
    (hterminated : Terminated m n) :
    Runs (catRest n) m₁ Never fun _ m' => Exact n m m' := by
  have hsize : n.size.toNat < blockSize := by
    rcases hterminated with hempty | ⟨hlt, -⟩
    · rw [hempty]
      decide
    · exact hlt
  have hloop : Runs (catLoop (n.size.toNat / blockSize + 1) n 0) m₁ Never fun _ m' =>
      Showing (visible m) m' ∧ ∃ texts : List (List UInt8),
        m'.globals.console = m.globals.console ++ texts.map .name ∧
          (∀ text ∈ texts, text.length < blockSize) ∧ texts.flatten = bytesOf (shown m) n := by
    rcases eq_or_ne n.size.toNat 0 with hempty | hne
    · refine (catLoop_done hempty.le).mono (fun _ _ he => he) ?_
      rintro _ m' rfl
      refine ⟨h, [], by rw [hglobals]; simp, fun _ ht => absurd ht List.not_mem_nil, ?_⟩
      rw [bytesOf, hempty]
      rfl
    · have hpos := Nat.pos_of_ne_zero hne
      obtain ⟨hset, -⟩ := byte_first hzero hpos (by decide)
      refine catLoop_first h hne hset (hdisk 0 hpos (by decide)) fun m₂ hfirst => ?_
      refine (catLoop_done (by rw [Nat.min_eq_right hsize.le])).mono (fun _ _ he => he) ?_
      rintro _ m' rfl
      have hbuffer : m₁.globals.catBuffer n.size.toNat = 0 := by
        rw [hglobals]
        exact (hterminated.resolve_left fun h0 => hne (by rw [h0]; rfl)).2
      have htext := firstText_eq hzero hsize hbuffer
      have hconsole := hfirst.console
      rw [htext, hglobals] at hconsole
      refine ⟨hfirst.showing, [bytesOf (shown m) n], hconsole, fun text ht => ?_, by simp⟩
      rw [List.mem_singleton.mp ht, length_bytesOf]
      exact hsize
  refine hloop.bind ?_
  rintro _ m₂ ⟨h₂, texts, hconsole, hlength, hflatten⟩
  refine (print_showing h₂ _).bind ?_
  rintro _ m₃ ⟨h₃, hprinted⟩
  rw [hconsole] at hprinted
  exact runs_pure (exact_of_showing h₃ hdisk hsize hprinted hlength hflatten)

theorem not_exact_of_unterminated (h : Showing (visible m) m₁) (hglobals : m₁.globals = m.globals)
    (hdisk : ∀ o < n.size.toNat, OnDisk n o) (hzero : 0 ∉ bytesOf (shown m) n)
    (hterminated : ¬Terminated m n) {r : Int}
    (hrun : (catRest n).run m₁ = (.ok r, m')) : ¬Exact n m m' := by
  obtain ⟨hne, hbuffer⟩ := not_or.mp hterminated
  have hne : n.size.toNat ≠ 0 := fun hempty => hne (UInt32.toNat_inj.mp hempty)
  have hpos := Nat.pos_of_ne_zero hne
  obtain ⟨hset, -⟩ := byte_first hzero hpos (by decide)
  set text := firstText (visible m) n m.globals.catBuffer with htext
  have hlong : min (n.size.toNat + 1) blockSize ≤ text.length := by
    refine le_length_firstText hzero (Nat.min_le_right _ _) fun i hi hle hterminator => ?_
    have hi' : i = n.size.toNat := by omega
    subst hi'
    exact hbuffer ⟨by omega, hterminator⟩
  have hprefix : m.globals.console ++ [.name text] <+: m'.globals.console := by
    have hloop : Runs (catLoop (n.size.toNat / blockSize + 1) n 0) m₁ Stopped fun _ m' =>
        m.globals.console ++ [.name text] <+: m'.globals.console := by
      refine catLoop_first h hne hset (hdisk 0 hpos (by decide)) fun m₂ hfirst => ?_
      have hconsole := hfirst.console
      rw [hglobals, ← htext] at hconsole
      rw [← hconsole]
      exact (appends_catLoop _ _ _).runs m₂
    have hruns : Runs (catRest n) m₁ Stopped fun _ m' =>
        m.globals.console ++ [.name text] <+: m'.globals.console := by
      refine hloop.bind fun _ m₂ h₂ => ?_
      refine ((appends_print _).runs m₂).bind fun _ m₃ h₃ => ?_
      exact runs_pure (h₂.trans h₃)
    exact hruns.ok hrun
  intro hexact
  obtain ⟨texts, hconsole, hlength, hflatten⟩ := hexact.printed
  rw [hconsole, List.append_assoc, List.prefix_append_right_inj] at hprefix
  obtain ⟨rest, hrest⟩ := hprefix
  cases texts with
  | nil => cases hrest
  | cons first others =>
      obtain rfl : text = first := Printed.name.inj (List.cons.inj hrest).1
      have hshort := hlength text List.mem_cons_self
      have hsum := congrArg List.length hflatten
      rw [List.flatten_cons, List.length_append, length_bytesOf] at hsum
      omega

/-- In every run whose reads stay inside the direct part of the files, a call
shows a file exactly if the buffer ends the string.  No block past the end of
the disk was written, and the file has its bytes in no such block. -/
theorem cat_exact_iff (h : ReachableUnder fileSystem Restrained m) (hstrayed : m.strayed = false)
    (hfile : (catPrefix path).run m = (.ok (some n), m₁))
    (hdisk : ∀ o < n.size.toNat, OnDisk n o) (hzero : 0 ∉ bytesOf (shown m) n) :
    (∃ r m', (fsCat path).run m = (.ok r, m') ∧ Exact n m m') ↔ Terminated m n := by
  obtain ⟨h₁, hglobals⟩ := catPrefix_showing (showing_of_calm (calm_of_reachable h hstrayed)) hfile
  rw [fsCat_run hfile]
  constructor
  · rintro ⟨r, m', hrun, hexact⟩
    by_contra hterminated
    exact not_exact_of_unterminated h₁ hglobals hdisk hzero hterminated hrun hexact
  · intro hterminated
    exact (catRest_exact h₁ hglobals hdisk hzero hterminated).returns fun _ _ he => he

/-- The file that `fs_cat` finds. -/
def catFile (path : List UInt8) (m : Machine Bytes Globals) : Option Inode :=
  (returned ((catPrefix path).run m).1).join

theorem catPrefix_run (h : catFile path m = some n) :
    ∃ m₁, (catPrefix path).run m = (.ok (some n), m₁) :=
  ⟨_, run_eq_of_returned (Option.join_eq_some_iff.mp h)⟩

/-- A file with two bytes. -/
def twoBytes : List FsOp := [.fopen [97] oRdwr, .fwrite 0 (fun _ => 65) 2]

theorem twoBytes_cat_exact : ∃ m n, replay next blankFormatted twoBytes = some m ∧
    catFile [97] m = some n ∧ bytesOf (shown m) n = [65, 65] ∧
      ∃ r m', (fsCat [97]).run m = (.ok r, m') ∧ Exact n m m' := by
  have hfacts : (replay next blankFormatted twoBytes).map (fun m =>
      ((catFile [97] m).map fun n => (n.size, (n.dataDirect 0).toNat, bytesOf (shown m) n),
        m.globals.catBuffer 2, m.strayed)) = some (some (2, 518, [65, 65]), 0, false) := by
    rw [blankFormatted_eq]
    decide +kernel
  obtain ⟨m, hreplay, hfacts⟩ := Option.map_eq_some_iff.mp hfacts
  obtain ⟨hfound, hfacts⟩ := Prod.mk.inj hfacts
  obtain ⟨hbuffer, hstrayed⟩ := Prod.mk.inj hfacts
  obtain ⟨n, hfile, hfields⟩ := Option.map_eq_some_iff.mp hfound
  obtain ⟨hsize, hfields⟩ := Prod.mk.inj hfields
  obtain ⟨hdirect, hbytes⟩ := Prod.mk.inj hfields
  obtain ⟨m₁, hprefix⟩ := catPrefix_run hfile
  have hstart : ReachableUnder fileSystem Restrained blankFormatted :=
    ReachableUnder.start formatted_blankFormatted
  have hreachable : ReachableUnder fileSystem Restrained m := by
    refine reachableUnder_of_always hstart twoBytes ?_ hreplay
    intro op hop s
    simp only [twoBytes, List.mem_cons, List.not_mem_nil, or_false] at hop
    rcases hop with rfl | rfl
    · trivial
    · trivial
  have hdisk : ∀ o < n.size.toNat, OnDisk n o := by
    intro o ho _
    have ho : o < 2 := by rwa [hsize] at ho
    rw [show o / 4096 = 0 by omega]
    exact hdirect.trans_lt (by decide)
  refine ⟨m, n, hreplay, hfile, hbytes, ?_⟩
  refine (cat_exact_iff hreachable hstrayed hprefix hdisk
    (by rw [hbytes]; decide)).mpr (Or.inr ?_)
  rw [hsize]
  exact ⟨by decide, hbuffer⟩

/-- The string passed to `putstr`. -/
def putstrText : Printed → Option (List UInt8)
  | .name s => some s
  | _ => none

/-- A file with one byte, shown after one with two. -/
def shorterSecond : List FsOp :=
  [.fopen [97] oRdwr, .fwrite 0 (fun _ => 65) 2, .fopen [98] oRdwr, .fwrite 1 (fun _ => 66) 1,
    .cat [97]]

/-- The second byte of the first file is shown again. -/
theorem shorterSecond_not_exact : ∃ m n, Reachable fileSystem m ∧ catFile [98] m = some n ∧
    bytesOf (shown m) n = [66] ∧ ¬∃ r m', (fsCat [98]).run m = (.ok r, m') ∧ Exact n m m' := by
  have hfacts : (replay next blankFormatted shorterSecond).map (fun m =>
      ((catFile [98] m).map fun n => bytesOf (shown m) n,
        (((fsCat [98]).run m).2.globals.console.drop m.globals.console.length).filterMap
          putstrText)) = some (some [66], [[66, 65]]) := by
    rw [blankFormatted_eq]
    decide +kernel
  obtain ⟨m, hreplay, hfacts⟩ := Option.map_eq_some_iff.mp hfacts
  obtain ⟨hfound, hconsole⟩ := Prod.mk.inj hfacts
  obtain ⟨n, hfile, hbytes⟩ := Option.map_eq_some_iff.mp hfound
  refine ⟨m, n, reachable_of_replay (ReachableUnder.start formatted_blankFormatted) _ hreplay,
    hfile, hbytes, ?_⟩
  rintro ⟨r, m', hrun, hexact⟩
  obtain ⟨texts, hprinted, -, hflatten⟩ := hexact.printed
  rw [hrun] at hconsole
  dsimp only at hconsole
  rw [hprinted, List.append_assoc, List.drop_left, List.filterMap_append, List.filterMap_map,
    show putstrText ∘ Printed.name = some from rfl, List.filterMap_some,
    show [Printed.text "\n"].filterMap putstrText = [] from rfl, List.append_nil] at hconsole
  rw [hconsole, hbytes] at hflatten
  exact absurd hflatten (by decide)

end LabKernel.CatOutput
