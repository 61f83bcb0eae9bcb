import LabKernel.ImageLoading
import LabKernel.Teardown

/-!
The arguments of a new process (`sys_exec` in `process.cpp`): the pointers and
the strings are copied one after another into the page at `argv_va`.

The copying goes through the kernel's addresses of the page, and nothing in it
looks at the end of the page.  The strings of the caller are modelled by their
bytes, and the thread of the new process is left out.
-/

namespace LabKernel.ArgumentPassing

open LabKernel.AddressSpace
open LabKernel.ByteMemory
open LabKernel.ImageLoading
open LabKernel.PageTable
open LabKernel.PageUpdates (Booted Kept Tree kva2pa kva2pa_toKva toKva)
open LabKernel.ProgramLogic
open LabKernel.UserIsolation

variable {Process : Type}

/-- A string without its terminator. -/
def CString : Type := { bytes : List UInt8 // 0 ∉ bytes }

def strlen (s : CString) : Nat := s.1.length

/-- The bytes of the string and its terminator. -/
def CString.stored (s : CString) : List UInt8 := s.1 ++ [0]

/-- What the pages hold, and the addresses that have been written. -/
structure Copying where
  frames : Ppn → Bytes
  written : List Ptr

/-- The page of an address in the direct mapping. -/
def kvaPage (kva : Ptr) : Ppn := (kva2pa kva >>> (12 : Nat)).setWidth 44

def storeByte (c : Copying) (kva : Ptr) (b : UInt8) : Copying where
  frames := Function.update c.frames (kvaPage kva)
    (Function.update (c.frames (kvaPage kva)) (kva.toNat % 4096) b)
  written := kva :: c.written

/-- `memcpy` of the given bytes. -/
def memcpy (c : Copying) (dest : Ptr) : List UInt8 → Copying
  | [] => c
  | b :: rest => memcpy (storeByte c dest b) (dest + 1) rest

/-- The bytes of a pointer in memory. -/
def pointerBytes (va : Ptr) : List UInt8 := (List.range 8).map (natBytes va.toNat)

/-- The loop of `sys_exec` from argument `i` on. -/
def copyLoop (argvCopy : Ptr) : Nat → List CString → Ptr → Ptr → Copying → Copying
  | _, [], _, _, c => c
  | i, s :: rest, argvData, argcDataVa, c =>
      let len := strlen s + 1
      let c := memcpy c argvData s.stored
      let c := memcpy c (argvCopy + BitVec.ofNat 64 (8 * i)) (pointerBytes argcDataVa)
      copyLoop argvCopy (i + 1) rest (argvData + BitVec.ofNat 64 len)
        (argcDataVa + BitVec.ofNat 64 len) c

def argvVa : Ptr := 0x100000

/-- The task is loaded into a new process, with the page of its arguments. -/
def loadWithPage [DecidableEq Process] (t : TaskTable) (disk : Bytes) (taskid : Nat)
    (p : Process) : Loader Process Ppn := do
  let _ ← loadNew t disk taskid p
  let pdir ← onKernel (pagedirOf p)
  onKernel (allocPageForVa pdir argvVa)

/-- `sys_exec`, with the page of the arguments and the addresses written while
copying them if there is such a task. -/
def sysExec [DecidableEq Process] (t : TaskTable) (disk : Bytes) (name : List UInt8)
    (argv : List CString) (p : Process) : Loader Process (Option (Ppn × List Ptr)) :=
  let taskIdx := findTaskIdxByName t name
  if taskIdx = -1 then pure none
  else do
    let page ← loadWithPage t disk taskIdx.toNat p
    let m ← getState
    let argc := argv.length
    let c := copyLoop (toKva page) 0 argv (toKva page + BitVec.ofNat 64 (8 * argc))
      (argvVa + BitVec.ofNat 64 (8 * argc)) ⟨m.frames, []⟩
    modifyState fun m => { m with frames := c.frames }
    pure (some (page, c.written))

/-- The process reads the bytes from the address on. -/
def Reads (m : Machine Process) (p : Process) (va : Ptr) (bytes : List UInt8) : Prop :=
  ∀ j b, bytes[j]? = some b → ∃ e x, UserMaps m.kernel p (pageOf (va + BitVec.ofNat 64 j)) e x ∧
    m.frames x ((va + BitVec.ofNat 64 j).toNat % 4096) = b

/-- The arguments are in their page, and nothing has been written outside. -/
structure ArgumentsPlaced (argv : List CString) (p : Process) (page : Ppn) (written : List Ptr)
    (m : Machine Process) : Prop where
  inside : ∀ kva ∈ written, ∃ o < 4096, kva = toKva page + BitVec.ofNat 64 o
  copied : ∀ i s, argv[i]? = some s → ∃ va : Ptr,
    Reads m p (argvVa + BitVec.ofNat 64 (8 * i)) (pointerBytes va) ∧ Reads m p va s.stored

/-- The size of the strings with their terminators. -/
def stringsSize (argv : List CString) : Nat := (argv.map fun s => strlen s + 1).sum

/-- The size of the pointers and the strings. -/
def argumentsSize (argv : List CString) : Nat := 8 * argv.length + stringsSize argv

variable {c : Copying} {x : Ppn} {dest kva : Ptr} {bytes : List UInt8} {n o i d : Nat}

theorem toNat_toKva_add (ho : o < 4096) :
    (kva2pa (toKva x + BitVec.ofNat 64 o)).toNat = 4096 * x.toNat + o := by
  have hpa : kva2pa (toKva x + BitVec.ofNat 64 o) =
      kva2pa (toKva x) + BitVec.ofNat 64 o := by
    unfold kva2pa
    rw [BitVec.sub_eq_add_neg, BitVec.sub_eq_add_neg, BitVec.add_assoc, BitVec.add_assoc,
      BitVec.add_comm (BitVec.ofNat 64 o)]
  have hx := x.isLt
  rw [hpa, kva2pa_toKva, BitVec.toNat_add, BitVec.toNat_shiftLeft, BitVec.toNat_setWidth,
    BitVec.toNat_ofNat, Nat.shiftLeft_eq]
  omega

theorem kvaPage_toKva_add (ho : o < 4096) : kvaPage (toKva x + BitVec.ofNat 64 o) = x := by
  apply BitVec.eq_of_toNat_eq
  have hx := x.isLt
  unfold kvaPage
  rw [BitVec.toNat_setWidth, BitVec.toNat_ushiftRight, toNat_toKva_add ho,
    Nat.shiftRight_eq_div_pow]
  omega

theorem toKva_add_mod (ho : o < 4096) : (toKva x + BitVec.ofNat 64 o).toNat % 4096 = o := by
  have hkva : toKva x + BitVec.ofNat 64 o =
      kva2pa (toKva x + BitVec.ofNat 64 o) + 0xffffffc000000000 := by
    unfold kva2pa
    exact (BitVec.sub_add_cancel ..).symm
  have hbase : (0xffffffc000000000 : Ptr).toNat = 4096 * 0xffffffc000000 := by decide
  rw [hkva, BitVec.toNat_add, toNat_toKva_add ho, hbase]
  omega

theorem mem_written_memcpy :
    kva ∈ (memcpy c dest bytes).written ↔
      kva ∈ c.written ∨ ∃ j < bytes.length, kva = dest + BitVec.ofNat 64 j := by
  induction bytes generalizing c dest with
  | nil =>
      constructor
      · exact Or.inl
      · rintro (h | ⟨j, hj, -⟩)
        · exact h
        · exact absurd hj (Nat.not_lt_zero j)
  | cons b rest ih =>
      unfold memcpy
      rw [ih]
      have hnext : ∀ j, dest + 1 + BitVec.ofNat 64 j = dest + BitVec.ofNat 64 (j + 1) := by
        intro j
        rw [BitVec.add_assoc, Nat.add_comm, BitVec.ofNat_add]
        rfl
      constructor
      · rintro (h | ⟨j, hj, rfl⟩)
        · rcases List.mem_cons.mp h with rfl | hold
          · exact Or.inr ⟨0, Nat.succ_pos _, (BitVec.add_zero _).symm⟩
          · exact Or.inl hold
        · exact Or.inr ⟨j + 1, Nat.succ_lt_succ hj, hnext j⟩
      · rintro (h | ⟨j, hj, rfl⟩)
        · exact Or.inl (List.mem_cons_of_mem _ h)
        · cases j with
          | zero => exact Or.inl (List.mem_cons.mpr (Or.inl (BitVec.add_zero _)))
          | succ j => exact Or.inr ⟨j, Nat.lt_of_succ_lt_succ hj, (hnext j).symm⟩

theorem frames_memcpy (h : d + bytes.length ≤ 4096) :
    (memcpy c (toKva x + BitVec.ofNat 64 d) bytes).frames =
      Function.update c.frames x (copy (c.frames x) d (listBytes bytes) 0 bytes.length) := by
  induction bytes generalizing c d with
  | nil =>
      have hsame : copy (c.frames x) d (listBytes []) 0 0 = c.frames x :=
        funext fun i => copy_outside (by omega)
      exact (Function.update_eq_self_iff.mpr hsame).symm
  | cons b rest ih =>
      have hd : d < 4096 := by
        rw [List.length_cons] at h
        omega
      have hnext : toKva x + BitVec.ofNat 64 d + 1 = toKva x + BitVec.ofNat 64 (d + 1) := by
        rw [BitVec.add_assoc, BitVec.ofNat_add]
        rfl
      unfold memcpy
      rw [hnext, ih (by rw [List.length_cons] at h; omega)]
      dsimp only [storeByte]
      rw [kvaPage_toKva_add hd, toKva_add_mod hd, Function.update_idem, Function.update_self]
      congr 1
      funext i
      rcases Nat.lt_trichotomy i d with hlt | rfl | hgt
      · rw [copy_outside (Or.inl (by omega)), copy_outside (Or.inl hlt),
          Function.update_of_ne hlt.ne]
      · rw [copy_outside (Or.inl (Nat.lt_succ_self i)), Function.update_self,
          copy_inside le_rfl (by rw [List.length_cons]; omega), Nat.sub_self]
        rfl
      · rcases Nat.lt_or_ge i (d + 1 + rest.length) with hin | hout
        · rw [copy_inside hgt hin, copy_inside hgt.le (by rw [List.length_cons]; omega),
            show 0 + (i - d) = 0 + (i - (d + 1)) + 1 by omega]
          rfl
        · rw [copy_outside (Or.inr hout), copy_outside (Or.inr (by rw [List.length_cons]; omega)),
            Function.update_of_ne hgt.ne']

variable {rest argv : List CString} {s : CString} {c' : Copying}

theorem length_stored (s : CString) : s.stored.length = strlen s + 1 :=
  List.length_append

theorem length_pointerBytes (va : Ptr) : (pointerBytes va).length = 8 := by
  rw [pointerBytes, List.length_map, List.length_range]

theorem stringsSize_cons (s : CString) (rest : List CString) :
    stringsSize (s :: rest) = strlen s + 1 + stringsSize rest :=
  List.sum_cons

/-- The first two stores of a round. -/
def copyOne (x : Ppn) (i d : Nat) (s : CString) (c : Copying) : Copying :=
  memcpy (memcpy c (toKva x + BitVec.ofNat 64 d) s.stored)
    (toKva x + BitVec.ofNat 64 (8 * i)) (pointerBytes (argvVa + BitVec.ofNat 64 d))

/-- The loop that begins with the cursors at offset `d`. -/
def copyFrom (x : Ppn) (i d : Nat) (rest : List CString) (c : Copying) : Copying :=
  copyLoop (toKva x) i rest (toKva x + BitVec.ofNat 64 d) (argvVa + BitVec.ofNat 64 d) c

theorem copyFrom_cons : copyFrom x i d (s :: rest) c =
    copyFrom x (i + 1) (d + (strlen s + 1)) rest (copyOne x i d s c) := by
  unfold copyFrom copyOne
  rw [BitVec.ofNat_add d, ← BitVec.add_assoc, ← BitVec.add_assoc]
  rfl

/-- The arguments from `i` on have been copied; their strings begin at offset
`d`, behind the pointers. -/
structure Copied (x : Ppn) (i d : Nat) (rest : List CString) (c c' : Copying) : Prop where
  kept : ∀ o, o < 8 * i ∨ (8 * (i + rest.length) ≤ o ∧ o < d) → c'.frames x o = c.frames x o
  placed : ∀ k s, rest[k]? = some s → ∃ off, off + s.stored.length ≤ 4096 ∧
    (∀ j < 8, c'.frames x (8 * (i + k) + j) =
      listBytes (pointerBytes (argvVa + BitVec.ofNat 64 off)) j) ∧
    ∀ j < s.stored.length, c'.frames x (off + j) = listBytes s.stored j
  inside : ∀ kva ∈ c'.written, kva ∈ c.written ∨ ∃ o < 4096, kva = toKva x + BitVec.ofNat 64 o

theorem copied_copyOne (htable : 8 * (i + 1) ≤ d) (h : d + (strlen s + 1) ≤ 4096) :
    (∀ o, o < 8 * i ∨ (8 * (i + 1) ≤ o ∧ o < d) →
      (copyOne x i d s c).frames x o = c.frames x o) ∧
    (∀ j < 8, (copyOne x i d s c).frames x (8 * i + j) =
      listBytes (pointerBytes (argvVa + BitVec.ofNat 64 d)) j) ∧
    (∀ j < s.stored.length, (copyOne x i d s c).frames x (d + j) = listBytes s.stored j) ∧
    ∀ kva ∈ (copyOne x i d s c).written,
      kva ∈ c.written ∨ ∃ o < 4096, kva = toKva x + BitVec.ofNat 64 o := by
  have hstored := length_stored s
  have hpointer := length_pointerBytes (argvVa + BitVec.ofNat 64 d)
  have hframes : (copyOne x i d s c).frames x =
      copy (copy (c.frames x) d (listBytes s.stored) 0 s.stored.length) (8 * i)
        (listBytes (pointerBytes (argvVa + BitVec.ofNat 64 d))) 0 8 := by
    unfold copyOne
    rw [frames_memcpy (by omega), frames_memcpy (by omega), Function.update_self,
      Function.update_self, hpointer]
  refine ⟨?_, ?_, ?_, ?_⟩
  · intro o ho
    rw [hframes, copy_outside (by omega), copy_outside (by omega)]
  · intro j hj
    rw [hframes, copy_inside (by omega) (by omega), Nat.add_sub_cancel_left, Nat.zero_add]
  · intro j hj
    rw [hframes, copy_outside (by omega), copy_inside (by omega) (by omega),
      Nat.add_sub_cancel_left, Nat.zero_add]
  · intro kva hkva
    have hadd : ∀ a j, toKva x + BitVec.ofNat 64 a + BitVec.ofNat 64 j =
        toKva x + BitVec.ofNat 64 (a + j) := by
      intro a j
      rw [BitVec.add_assoc, BitVec.ofNat_add]
    rcases mem_written_memcpy.mp hkva with hfirst | ⟨j, hj, rfl⟩
    · rcases mem_written_memcpy.mp hfirst with hold | ⟨j, hj, rfl⟩
      · exact Or.inl hold
      · exact Or.inr ⟨d + j, by omega, hadd d j⟩
    · exact Or.inr ⟨8 * i + j, by omega, hadd (8 * i) j⟩

theorem copied_copyFrom (htable : 8 * (i + rest.length) ≤ d)
    (h : d + stringsSize rest ≤ 4096) : Copied x i d rest c (copyFrom x i d rest c) := by
  induction rest generalizing i d c with
  | nil => exact ⟨fun _ _ => rfl, fun _ _ hs => absurd hs nofun, fun _ hkva => Or.inl hkva⟩
  | cons s rest ih =>
      rw [List.length_cons] at htable
      rw [stringsSize_cons] at h
      have hstored := length_stored s
      obtain ⟨hkept, hpointer, hstring, hinside⟩ :=
        copied_copyOne (x := x) (i := i) (s := s) (c := c) (d := d) (by omega) (by omega)
      rw [copyFrom_cons]
      obtain ⟨hkept', hplaced', hinside'⟩ := ih (i := i + 1) (d := d + (strlen s + 1))
        (c := copyOne x i d s c) (by omega) (by omega)
      refine ⟨?_, ?_, ?_⟩
      · intro o ho
        rw [List.length_cons] at ho
        rw [hkept' o (by omega), hkept o (by omega)]
      · intro k s' hk
        cases k with
        | zero =>
            obtain rfl := Option.some.inj hk
            refine ⟨d, by omega, fun j hj => ?_, fun j hj => ?_⟩
            · rw [hkept' _ (Or.inl (by omega))]
              exact hpointer j hj
            · rw [hkept' _ (Or.inr (by omega)), hstring j hj]
        | succ k =>
            obtain ⟨off, hoff, hpointer', hstring'⟩ := hplaced' k s' hk
            refine ⟨off, hoff, fun j hj => ?_, hstring'⟩
            rw [show i + (k + 1) = i + 1 + k by omega]
            exact hpointer' j hj
      · intro kva hkva
        rcases hinside' kva hkva with hold | hnew
        · exact hinside kva hold
        · exact Or.inr hnew

theorem written_copyOne (hkva : kva ∈ c.written) : kva ∈ (copyOne x i d s c).written :=
  mem_written_memcpy.mpr (Or.inl (mem_written_memcpy.mpr (Or.inl hkva)))

theorem written_copyFrom (hkva : kva ∈ c.written) : kva ∈ (copyFrom x i d rest c).written := by
  induction rest generalizing i d c with
  | nil => exact hkva
  | cons s rest ih =>
      rw [copyFrom_cons]
      exact ih (written_copyOne hkva)

theorem pointer_written {k : Nat} (hk : k < rest.length) :
    toKva x + BitVec.ofNat 64 (8 * (i + k)) ∈ (copyFrom x i d rest c).written := by
  induction rest generalizing i d c k with
  | nil => exact absurd hk (Nat.not_lt_zero k)
  | cons s rest ih =>
      rw [copyFrom_cons]
      cases k with
      | zero =>
          apply written_copyFrom
          refine mem_written_memcpy.mpr (Or.inr ⟨0, ?_, (BitVec.add_zero _).symm⟩)
          rw [length_pointerBytes]
          decide
      | succ k =>
          rw [show i + (k + 1) = i + 1 + k by omega]
          exact ih (Nat.lt_of_succ_lt_succ hk)

theorem string_written (hd : d ≤ o) (ho : o < d + stringsSize rest) :
    toKva x + BitVec.ofNat 64 o ∈ (copyFrom x i d rest c).written := by
  induction rest generalizing i d c with
  | nil => exact absurd ho (Nat.not_lt.mpr hd)
  | cons s rest ih =>
      rw [copyFrom_cons]
      rw [stringsSize_cons] at ho
      rcases Nat.lt_or_ge o (d + (strlen s + 1)) with hlt | hge
      · apply written_copyFrom
        refine mem_written_memcpy.mpr (Or.inl (mem_written_memcpy.mpr (Or.inr ⟨o - d, ?_, ?_⟩)))
        · rw [length_stored]
          omega
        · rw [BitVec.add_assoc, ← BitVec.ofNat_add, Nat.add_sub_cancel' hd]
      · exact ih hge (by omega)

theorem written_behind (h : 4096 < argumentsSize argv) :
    toKva x + BitVec.ofNat 64 4096 ∈ (copyFrom x 0 (8 * argv.length) argv c).written := by
  unfold argumentsSize at h
  rcases Nat.lt_or_ge 512 argv.length with hmany | hfew
  · have hpointer := pointer_written (x := x) (i := 0) (d := 8 * argv.length) (c := c) hmany
    rwa [Nat.zero_add] at hpointer
  · exact string_written (by omega) h

section Space

variable {boot : Memory} {ioremaps : List (Ptr × Ptr)} {p : Process} {dir : PageDir} {va : Ptr}
  {s s' : State Process}

/-- The process has the directory, whose tables form a tree and map its half
of the addresses for the user. -/
structure Space (boot : Memory) (p : Process) (dir : PageDir) (s : State Process) : Prop where
  pagedir : s.pagedir p = some dir
  bound : dir.userMemBound = 0x300000
  tree : ∃ node, Tree boot node dir.root s
  leaves : ∀ a : VirtualPage, a.vpn2.val < 256 → ∀ e y,
    translation s.memory dir.root a = some (e, y) → e.U = true

theorem runs_nextTable_pagedir {pte : Ppn × Fin 512} :
    Runs (nextTable pte) s Any fun _ s' => s'.pagedir = s.pagedir := by
  unfold nextTable
  apply runs_bind
  apply runs_load
  split
  · apply runs_bind
    exact runs_kalloc fun _ _ _ => rfl
  · exact runs_pure rfl

theorem runs_lookup_pagedir : Runs (lookup dir va) s Any fun _ s' => s'.pagedir = s.pagedir := by
  unfold lookup
  apply runs_bind
  apply runs_load
  split
  · exact runs_pure rfl
  · apply runs_nextTable_pagedir.bind
    intro table s₁ hs₁
    apply runs_bind
    apply runs_load
    split
    · exact runs_pure hs₁
    · apply runs_nextTable_pagedir.bind
      exact fun _ _ hs₂ => hs₂.trans hs₁

theorem runs_allocPageForVa (hs : Space boot p dir s) :
    Runs (allocPageForVa dir va) s Any fun page s' => Space boot p dir s' ∧
      ∃ e, UserMaps s' p (pageOf va) e page := by
  unfold allocPageForVa
  split
  · exact runs_fail trivial
  next hbelow =>
    rw [hs.bound] at hbelow
    have hlt : va.toNat < 0x300000 := BitVec.lt_def.mp (BitVec.not_le.mp hbelow)
    have hva : va.toNat < 2 ^ 38 := hlt.trans (by decide)
    have hlow : (pageOf va).vpn2.val < 256 := PageUpdates.getVpn_low hva
    obtain ⟨node, htree⟩ := hs.tree
    apply ((PageUpdates.runs_lookup htree hva).and runs_lookup_pagedir |>.mono
      (fun _ _ h => h.1) fun _ _ h => h).bind
    rintro ⟨y, k⟩ s₁ ⟨⟨node₁, hs₁, hkept, hk, hy, hreaches⟩, hpagedir⟩
    obtain rfl : k = getVpn va 0 := hk
    dsimp only at hy hreaches
    have hd₁ : s₁.pagedir p = some dir := hpagedir ▸ hs.pagedir
    have hleaves₁ : ∀ a : VirtualPage, a.vpn2.val < 256 → ∀ e z,
        translation s₁.memory dir.root a = some (e, z) → e.U = true := by
      intro a ha e z htranslate
      rw [hkept.translate] at htranslate
      exact hs.leaves a ha e z htranslate
    apply runs_bind
    apply runs_load
    dsimp only
    split
    next hv =>
      have htranslate : translation s₁.memory dir.root (pageOf va) =
          some (s₁.memory y (getVpn va 0), (s₁.memory y (getVpn va 0)).ppn) := by
        rw [hreaches.translate]
        apply if_neg
        rintro (hfalse | hdir)
        · exact absurd (hv.symm.trans hfalse) nofun
        · exact hs₁.leaves y _ _ hy _ hv hdir
      exact ⟨⟨hd₁, hs.bound, ⟨node₁, hs₁⟩, hleaves₁⟩, _, dir, hd₁, htranslate,
        hleaves₁ _ hlow _ _ htranslate⟩
    next =>
      apply runs_bind
      apply runs_kalloc
      intro page rest _
      have hs₂ := hs₁.take page rest
      set s₂ : State Process :=
        { s₁ with supply := rest, block := Function.update s₁.block page .paging } with hdef
      have hreaches₂ : Reaches s₂.memory dir.root (pageOf va) y := hreaches
      have hself : writeEntry s₂.memory (y, getVpn va 0) (.setAsLeaf page) y (getVpn va 0) =
          .setAsLeaf page := if_pos rfl
      have hnew : translation (writeEntry s₂.memory (y, getVpn va 0) (.setAsLeaf page)) dir.root
          (pageOf va) = some (.setAsLeaf page, page) :=
        hs₂.translate_self (a := pageOf va) hy hreaches₂
      have hmap : Runs (mapVaKva dir va page .normal) s₂ Any fun _ s' => s' = { s₂ with
          memory := writeEntry s₂.memory (y, getVpn va 0) (.setAsLeaf page) } := by
        unfold mapVaKva
        apply (runs_lookup_reached hreaches₂).bind
        rintro - - ⟨rfl, rfl⟩
        apply runs_bind
        apply runs_load
        apply runs_bind
        apply runs_kassert
        exact fun _ => runs_modifyState rfl
      apply hmap.bind
      rintro - - rfl
      apply runs_bind
      apply runs_load
      dsimp only
      rw [hself]
      refine ⟨⟨hd₁, hs.bound, ⟨node₁, hs₂.writeLeaf hy (fun _ h => by cases h) _⟩, ?_⟩,
        .setAsLeaf page, dir, hd₁, hnew, rfl⟩
      intro a ha e z htranslate
      rcases eq_or_ne a (pageOf va) with rfl | hne
      · cases hnew.symm.trans htranslate
        rfl
      · apply hleaves₁ a ha e z
        exact (hs₂.translate_writeEntry (a := pageOf va) hy hne).symm.trans htranslate

theorem runs_createProcess [DecidableEq Process] (hs : Booted ioremaps s) :
    Runs (createProcess p) s Any fun _ s' =>
      ∃ dir, Space (bootMemory ioremaps) p dir s' := by
  unfold createProcess
  apply runs_bind
  apply runs_getState
  split
  · exact runs_fail trivial
  · have hnew : Runs PageUpdates.newPageDir s Any fun d s' =>
        PageUpdates.Treelike (bootMemory ioremaps) ⟨s', d⟩ ∧
          ∀ i : Fin 512, i.val < 256 → s'.memory d.root i = .cleared := by
      apply ((PageUpdates.runs_newPageDir hs).and Teardown.runs_newPageDir_cleared).mono
        (fun _ _ h => h.1)
      rintro d s' ⟨htree, hcleared⟩
      exact ⟨htree, hcleared (funext hs.pgdir) (PageRuns.kernelTables_bootMemory ioremaps)
        hs.used.1⟩
    unfold PageUpdates.newPageDir at hnew
    apply hnew.of_bind.bind
    intro root s₁ hs₁
    apply hs₁.of_bind.bind
    intro _ s₂ hs₂
    obtain ⟨⟨node, htree⟩, hcleared⟩ :
      PageUpdates.Treelike (bootMemory ioremaps) ⟨s₂, ⟨root, 0x2000000000, 0x300000⟩⟩ ∧
        ∀ i : Fin 512, i.val < 256 → s₂.memory root i = .cleared := hs₂
    apply runs_modifyState
    refine ⟨⟨root, 0x2000000000, 0x300000⟩, Function.update_self .., rfl, ⟨node, ?_⟩, ?_⟩
    · exact ⟨htree.kernel, htree.used, htree.windowUsed, htree.windowFree, htree.window,
        htree.top, htree.kernelHalf, htree.userHalf, htree.middle, htree.leaves⟩
    · intro a ha e y htranslate
      have hblank : (s₂.memory root a.vpn2).V = false := by
        rw [hcleared _ ha]
        rfl
      exact absurd ((translate_eq_none .top hblank).symm.trans htranslate) nofun

variable {m m' : Machine Process} {t : TaskTable} {disk : Bytes} {taskid : Nat}

theorem runs_loadLoop_space {left : Nat} {sdcardId blockNum : BitVec 64}
    (hm : Space boot p dir m.kernel) :
    Runs (loadLoop disk dir left va sdcardId blockNum) m (fun _ _ => True) fun _ m' =>
      Space boot p dir m'.kernel := by
  induction left generalizing m va sdcardId blockNum with
  | zero => exact runs_pure hm
  | succ left ih =>
      unfold loadLoop
      apply runs_bind
      apply runs_onKernel
      apply (runs_allocPageForVa hm).mono (fun _ _ _ => trivial)
      rintro kva s₁ ⟨hs₁, -⟩
      apply runs_bind
      apply runs_modifyState
      exact ih hs₁

theorem runs_pagedirOf_space {E : Stop → State Process → Prop}
    {Q : PageDir → State Process → Prop} (hs : Space boot p dir s) (h : Q dir s) :
    Runs (pagedirOf p) s E Q := by
  unfold pagedirOf
  apply runs_bind
  apply runs_getState
  rw [hs.pagedir]
  exact runs_pure h

theorem runs_loadWithPage [DecidableEq Process] (hm : Booted ioremaps m.kernel) :
    Runs (loadWithPage t disk taskid p) m (fun _ _ => True) fun page m' =>
      ∃ e, UserMaps m'.kernel p (pageOf argvVa) e page := by
  have hload : Runs (loadNew t disk taskid p) m (fun _ _ => True) fun _ m' =>
      ∃ dir, Space (bootMemory ioremaps) p dir m'.kernel := by
    unfold loadNew
    apply runs_bind
    apply runs_onKernel
    apply (runs_createProcess hm).mono (fun _ _ _ => trivial)
    rintro - s₁ ⟨dir, hs₁⟩
    apply runs_bind
    apply runs_onKernel
    apply runs_pagedirOf_space hs₁
    unfold ImageLoading.loadTaskImg
    split
    · exact runs_pure ⟨dir, hs₁⟩
    · dsimp only
      apply (runs_loadLoop_space (m := ⟨s₁, m.frames⟩) hs₁).bind
      exact fun _ _ hm' => ⟨dir, hm'⟩
  unfold loadWithPage
  apply hload.bind
  rintro - m₁ ⟨dir, hm₁⟩
  apply runs_bind
  apply runs_onKernel
  apply runs_pagedirOf_space hm₁
  apply runs_onKernel
  apply (runs_allocPageForVa hm₁).mono (fun _ _ _ => trivial)
  exact fun _ _ h => h.2

end Space

section Placing

variable {ioremaps : List (Ptr × Ptr)} {p : Process} {page : Ppn} {m m' : Machine Process}
  {frames : Ppn → Bytes} {e : PageEntry} {written : List Ptr}

theorem toNat_argvVa_add (ho : o < 4096) :
    (argvVa + BitVec.ofNat 64 o).toNat = 0x100000 + o := by
  have hbase : argvVa.toNat = 0x100000 := rfl
  rw [BitVec.toNat_add, BitVec.toNat_ofNat, hbase]
  omega

theorem pageOf_argvVa_add (ho : o < 4096) :
    pageOf (argvVa + BitVec.ofNat 64 o) = pageOf argvVa := by
  have hvpn : ∀ sizeid, getVpn (argvVa + BitVec.ofNat 64 o) sizeid = getVpn argvVa sizeid := by
    intro sizeid
    have hbase : argvVa.toNat = 4096 * 256 := rfl
    apply Fin.ext
    rw [getVpn_val, getVpn_val, toNat_argvVa_add ho, hbase, Nat.pow_add,
      ← Nat.div_div_eq_div_mul, ← Nat.div_div_eq_div_mul]
    have hfirst : (0x100000 + o) / 2 ^ 12 = 256 := by omega
    rw [hfirst]
  unfold pageOf
  rw [hvpn, hvpn, hvpn]

theorem reads_of_frames (hmaps : UserMaps m.kernel p (pageOf argvVa) e page)
    (hlength : d + bytes.length ≤ 4096)
    (h : ∀ j < bytes.length, m.frames page (d + j) = listBytes bytes j) :
    Reads m p (argvVa + BitVec.ofNat 64 d) bytes := by
  intro j b hj
  obtain ⟨hlt, hb⟩ := List.getElem?_eq_some_iff.mp hj
  have hva : argvVa + BitVec.ofNat 64 d + BitVec.ofNat 64 j =
      argvVa + BitVec.ofNat 64 (d + j) := by
    rw [BitVec.add_assoc, BitVec.ofNat_add]
  refine ⟨e, page, ?_, ?_⟩
  · rw [hva, pageOf_argvVa_add (by omega)]
    exact hmaps
  · rw [hva, toNat_argvVa_add (by omega), show (0x100000 + (d + j)) % 4096 = d + j by omega,
      h j hlt]
    simpa [listBytes] using congrArg (fun b => b.getD 0) hj

theorem copyLoop_placed_iff (hmaps : UserMaps m.kernel p (pageOf argvVa) e page)
    (hframes : m.frames = (copyFrom page 0 (8 * argv.length) argv ⟨frames, []⟩).frames)
    (hwritten : written = (copyFrom page 0 (8 * argv.length) argv ⟨frames, []⟩).written) :
    ArgumentsPlaced argv p page written m ↔ argumentsSize argv ≤ 4096 := by
  constructor
  · intro hplaced
    by_contra hlarge
    have hbehind := written_behind (x := page) (c := ⟨frames, []⟩) (Nat.not_le.mp hlarge)
    rw [← hwritten] at hbehind
    obtain ⟨o, ho, heq⟩ := hplaced.inside _ hbehind
    have hoffset := congrArg BitVec.toNat ((BitVec.add_right_inj _).mp heq)
    rw [BitVec.toNat_ofNat, BitVec.toNat_ofNat] at hoffset
    omega
  · intro hfits
    have hcopied : Copied page 0 (8 * argv.length) argv ⟨frames, []⟩ _ :=
      copied_copyFrom (by omega) hfits
    refine ⟨?_, ?_⟩
    · intro kva hkva
      rw [hwritten] at hkva
      rcases hcopied.inside kva hkva with hold | hnew
      · cases hold
      · exact hnew
    · intro i s hs
      obtain ⟨off, hoff, hpointer, hstring⟩ := hcopied.placed i s hs
      have hi := (List.getElem?_eq_some_iff.mp hs).1
      have hsize := length_pointerBytes (argvVa + BitVec.ofNat 64 off)
      unfold argumentsSize at hfits
      refine ⟨argvVa + BitVec.ofNat 64 off, ?_, ?_⟩
      · apply reads_of_frames hmaps (by omega)
        intro j hj
        rw [hframes, ← hpointer j (by omega), Nat.zero_add]
      · apply reads_of_frames hmaps hoff
        intro j hj
        rw [hframes, hstring j hj]

variable [DecidableEq Process] {t : TaskTable} {disk : Bytes} {name : List UInt8}

theorem sysExec_returns {m₁ : Machine Process} (hm : Booted ioremaps m.kernel)
    (hfound : findTaskIdxByName t name ≠ -1)
    (hload : (loadWithPage t disk (findTaskIdxByName t name).toNat p).run m = (.ok page, m₁)) :
    ∃ written m', (sysExec t disk name argv p).run m = (.ok (some (page, written)), m') ∧
      (ArgumentsPlaced argv p page written m' ↔ argumentsSize argv ≤ 4096) := by
  obtain ⟨e, hmaps⟩ := (runs_loadWithPage hm).ok hload
  set c := copyFrom page 0 (8 * argv.length) argv ⟨m₁.frames, []⟩ with hc
  refine ⟨c.written, { m₁ with frames := c.frames }, ?_, ?_⟩
  · unfold sysExec
    dsimp only
    rw [if_neg hfound, run_bind_ok hload]
    rfl
  · exact copyLoop_placed_iff hmaps rfl rfl

/-- If `sys_exec` returns, the arguments have been copied as they should be if
and only if they fit into their page. -/
theorem argumentsPlaced_iff_fits (hm : Booted ioremaps m.kernel)
    (hrun : (sysExec t disk name argv p).run m = (.ok (some (page, written)), m')) :
    ArgumentsPlaced argv p page written m' ↔ argumentsSize argv ≤ 4096 := by
  have hfound : findTaskIdxByName t name ≠ -1 := by
    intro hnone
    unfold sysExec at hrun
    dsimp only at hrun
    rw [if_pos hnone] at hrun
    cases hrun
  rcases hload : (loadWithPage t disk (findTaskIdxByName t name).toNat p).run m with ⟨result, m₁⟩
  cases result with
  | error stop =>
      unfold sysExec at hrun
      dsimp only at hrun
      rw [if_neg hfound, run_bind, hload] at hrun
      cases hrun
  | ok page' =>
      obtain ⟨written', m₂, hrun', hiff⟩ := sysExec_returns hm hfound hload
      rw [hrun'] at hrun
      cases hrun
      exact hiff

end Placing

/-- A single task, which is called `a` and has no sectors. -/
def oneTask : TaskTable where
  tasks i := if i = 16 then 97 else 0
  taskNum := 1

def firstMachine : Machine Unit where
  kernel := { initial [] with supply := [0x60000, 0x60001, 0x60002, 0x60003] }
  frames _ := zeros

theorem booted_firstMachine : Booted [] firstMachine.kernel :=
  ⟨fun _ => rfl, fun _ => rfl, by decide +kernel⟩

theorem find_oneTask : findTaskIdxByName oneTask [97] = 0 := by decide +kernel

theorem firstMachine_loads : ∃ m₁,
    (loadWithPage oneTask zeros (findTaskIdxByName oneTask [97]).toNat ()).run firstMachine =
      (.ok 0x60003, m₁) := by
  rw [find_oneTask, Int.toNat_zero]
  have hresult : ((loadWithPage oneTask zeros 0 ()).run firstMachine).1.toOption =
      some 0x60003 := by
    decide +kernel
  rcases hrun : (loadWithPage oneTask zeros 0 ()).run firstMachine with ⟨result, m₁⟩
  rw [hrun] at hresult
  cases result with
  | error stop => cases hresult
  | ok page =>
      obtain rfl : page = 0x60003 := Option.some.inj hresult
      exact ⟨m₁, rfl⟩

/-- The string of `length` letters `a`. -/
def letters (length : Nat) : CString :=
  ⟨List.replicate length 97, fun h => absurd (List.eq_of_mem_replicate h) (by decide)⟩

theorem argumentsSize_letters (length : Nat) : argumentsSize [letters length] = length + 9 := by
  have hlength : strlen (letters length) = length := List.length_replicate
  unfold argumentsSize stringsSize
  rw [List.map_singleton, List.sum_singleton, hlength, List.length_singleton]
  omega

theorem firstMachine_returns (argv : List CString) : ∃ written m',
    (sysExec oneTask zeros [97] argv ()).run firstMachine =
      (.ok (some (0x60003, written)), m') ∧
    (ArgumentsPlaced argv () 0x60003 written m' ↔ argumentsSize argv ≤ 4096) := by
  obtain ⟨m₁, hload⟩ := firstMachine_loads
  refine sysExec_returns booted_firstMachine ?_ hload
  rw [find_oneTask]
  decide

theorem twoLetters_placed : ∃ written m',
    (sysExec oneTask zeros [97] [letters 2] ()).run firstMachine =
      (.ok (some (0x60003, written)), m') ∧
    ArgumentsPlaced [letters 2] () 0x60003 written m' := by
  obtain ⟨written, m', hrun, -⟩ := firstMachine_returns [letters 2]
  refine ⟨written, m', hrun, (argumentsPlaced_iff_fits booted_firstMachine hrun).mpr ?_⟩
  rw [argumentsSize_letters]
  decide

/-- The terminator of an argument of 4088 letters is stored behind the page. -/
theorem longArgument_not_placed : ∃ written m',
    (sysExec oneTask zeros [97] [letters 4088] ()).run firstMachine =
      (.ok (some (0x60003, written)), m') ∧
    ¬ArgumentsPlaced [letters 4088] () 0x60003 written m' := by
  obtain ⟨written, m', hrun, hiff⟩ := firstMachine_returns [letters 4088]
  refine ⟨written, m', hrun, mt hiff.mp ?_⟩
  rw [argumentsSize_letters]
  decide

end LabKernel.ArgumentPassing
