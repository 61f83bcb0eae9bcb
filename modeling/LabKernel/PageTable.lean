import Mathlib.Algebra.Group.Nat.Defs
import Mathlib.Data.List.FinRange
import Mathlib.Logic.Function.Basic
import LabKernel.ProgramLogic
import LabKernel.TransitionSystem

/-!
Page tables and shared pages (`page.cpp`, `page.hpp`), with the calls that
change them.

A page of physical memory is named by its `ppn`; the kernel reaches it through
the direct mapping, so that a kernel address of a page is modelled by its
`ppn` as well.  Only the contents of page tables are modelled.  `kalloc` may
return any page that is not in use.
-/

namespace LabKernel.PageTable

open LabKernel.ProgramLogic
open LabKernel.TransitionSystem

abbrev Ptr := BitVec 64

abbrev Ppn := BitVec 44

inductive PageAttr
  | noleaf
  | r
  | rw
  | x
  | rx
  | rwx
  deriving DecidableEq, Repr

inductive PageOSFlag
  | normal
  | shared
  | swapped
  | reserved
  deriving DecidableEq, Repr

structure PageEntry where
  V : Bool
  XWR : PageAttr
  U : Bool
  G : Bool
  A : Bool
  D : Bool
  OSflag : PageOSFlag
  ppn : Ppn
  deriving DecidableEq, Repr

/-- `PageEntry::clear`. -/
def PageEntry.cleared : PageEntry := ⟨false, .noleaf, false, false, false, false, .normal, 0⟩

def PageEntry.setAsLeaf (pa : Ppn) : PageEntry := ⟨true, .rwx, true, false, true, true, .normal, pa⟩

def PageEntry.setAsDir (pa : Ppn) : PageEntry :=
  ⟨true, .noleaf, false, false, false, false, .normal, pa⟩

/-- The entries the kernel writes for itself: `U = 0`, `G = 1`. -/
def PageEntry.kernelLeaf (pa : Ppn) : PageEntry :=
  ⟨true, .rwx, false, true, true, true, .normal, pa⟩

theorem and_mask_lt (v : Ptr) : (v &&& 0x1ff).toNat < 512 := by
  rw [BitVec.toNat_and]
  exact Nat.lt_of_le_of_lt Nat.and_le_right (by decide)

def getVpn (va : Ptr) (sizeid : Nat) : Fin 512 :=
  ⟨(va >>> (12 + 9 * sizeid) &&& 0x1ff).toNat, and_mask_lt _⟩

theorem getVpn_val (va : Ptr) (sizeid : Nat) :
    (getVpn va sizeid).val = va.toNat / 2 ^ (12 + 9 * sizeid) % 512 := by
  have hmask : (0x1ff : Ptr).toNat = 2 ^ 9 - 1 := rfl
  change (va >>> (12 + 9 * sizeid) &&& 0x1ff).toNat = _
  rw [BitVec.toNat_and, hmask, Nat.and_two_pow_sub_one_eq_mod, BitVec.toNat_ushiftRight,
    Nat.shiftRight_eq_div_pow]

/-- The page of a virtual address, by its indices into the tables of the three
levels. -/
structure VirtualPage where
  vpn2 : Fin 512
  vpn1 : Fin 512
  vpn0 : Fin 512
  deriving DecidableEq

def pageOf (va : Ptr) : VirtualPage := ⟨getVpn va 2, getVpn va 1, getVpn va 0⟩

abbrev Memory := Ppn → Fin 512 → PageEntry

def writeEntry (m : Memory) (pte : Ppn × Fin 512) (e : PageEntry) : Memory :=
  fun x i => if (x, i) = pte then e else m x i

def writePage (m : Memory) (page : Ppn) (entries : Fin 512 → PageEntry) : Memory :=
  fun x i => if x = page then entries i else m x i

/-- The Sv39 translation of a page: the leaf entry that maps it, and the
physical page. -/
def translation (m : Memory) (root : Ppn) (a : VirtualPage) : Option (PageEntry × Ppn) :=
  let e := m root a.vpn2
  if e.V = false then none
  else if e.XWR ≠ .noleaf then some (e, e.ppn + BitVec.ofNat 44 (a.vpn1 * 512 + a.vpn0))
  else
    let e := m e.ppn a.vpn1
    if e.V = false then none
    else if e.XWR ≠ .noleaf then some (e, e.ppn + BitVec.ofNat 44 a.vpn0)
    else
      let e := m e.ppn a.vpn0
      if e.V = false ∨ e.XWR = .noleaf then none else some (e, e.ppn)

/-- The page at `PGDIR_PA`. -/
def pgdirPage : Ppn := 0x50510

/-- The second-level table of the `ioremap` window, at `PGDIR_PA + PAGE_SIZE`. -/
def ioPage : Ppn := 0x50511

def kernelBase : Ptr := 0x40000000

def pa2kva (pa : Ptr) : Ptr := pa + 0xffffffc000000000

def ioBaseVa : Ptr := 0xffffffe000000000

/-- `setup_vm`.  It does not clear the table of the `ioremap` window; memory is
zero when the machine starts. -/
def setupVm : Memory :=
  writePage (fun _ _ => .cleared) pgdirPage fun i =>
    if i = getVpn kernelBase 2 ∨ i = getVpn (pa2kva kernelBase) 2 then
      .kernelLeaf 0x40000
    else if i = getVpn ioBaseVa 2 then
      ⟨true, .noleaf, false, true, false, false, .normal, ioPage⟩
    else .cleared

/-- Entry `n` of the table of the `ioremap` window, which may lie behind its
end. -/
def ioEntry (n : Nat) : Ppn × Fin 512 := (ioPage + BitVec.ofNat 44 (n / 512), Fin.ofNat 512 n)

/-- The loop of `ioremap`. -/
def ioremapLoop (first : Nat) (phys : Ptr) : Nat → Memory → Memory
  | 0, m => m
  | count + 1, m =>
      writeEntry (ioremapLoop first phys count m) (ioEntry (first + count))
        (.kernelLeaf (((phys + BitVec.ofNat 64 (count * 2 ^ 21)) >>> 12).setWidth 44))

/-- `ioremap` on the memory and `io_base_va`. -/
def ioremap (m : Memory × Ptr) (call : Ptr × Ptr) : Memory × Ptr :=
  let phys := call.1
  let size := call.2 + phys % 0x200000
  let count := size / 0x200000 + if size % 0x200000 ≠ 0 then 1 else 0
  (ioremapLoop (getVpn m.2 1) (phys / 0x200000 * 0x200000) count.toNat m.1,
    m.2 + count * 0x200000)

/-- The memory when the first process is created, after the given calls of
`ioremap`. -/
def bootMemory (ioremaps : List (Ptr × Ptr)) : Memory :=
  (ioremaps.foldl ioremap (setupVm, ioBaseVa)).1

/-- What `set_kernel_vm` copies into the root table of a process. -/
def kernelVm (m : Memory) (i : Fin 512) : PageEntry :=
  if i = getVpn kernelBase 2 then .cleared else m pgdirPage i

structure PageDir where
  root : Ppn
  sharedPageStart : Ptr
  userMemBound : Ptr
  deriving DecidableEq

structure SharedPage where
  key : Ptr
  kva : Ppn
  cnt : BitVec 64
  deriving DecidableEq

/-- Who holds a page of physical memory. -/
inductive Block
  | free
  /-- The tables made at boot, outside the heap. -/
  | boot
  /-- Allocated by other parts of the kernel. -/
  | kernel
  /-- Allocated by `page.cpp`. -/
  | paging
  deriving DecidableEq

structure State (Process : Type) where
  memory : Memory
  block : Ppn → Block
  /-- The pages that the next calls of `kalloc` return. -/
  supply : List Ppn
  created : Process → Bool
  pagedir : Process → Option PageDir
  sharedPages : List SharedPage
  /-- For which key a process has obtained a page by `sys_shmpageget` that it
  has not detached. -/
  attached : Process → VirtualPage → Option (BitVec 32)

inductive Stop
  /-- A kernel assertion failed. -/
  | assertion
  /-- The call cannot be made. -/
  | impossible

variable {Process : Type}

def initial (ioremaps : List (Ptr × Ptr)) : State Process where
  memory := bootMemory ioremaps
  block x := if x = pgdirPage ∨ x = ioPage then .boot else .free
  supply := []
  created _ := false
  pagedir _ := none
  sharedPages := []
  attached _ _ := none

def Start (ioremaps : List (Ptr × Ptr)) (s : State Process) : Prop := s = initial ioremaps

theorem start_initial (ioremaps : List (Ptr × Ptr)) :
    Start ioremaps (initial ioremaps : State Process) := rfl

variable [DecidableEq Process]

abbrev Kernel (Process α : Type) := Program (State Process) Stop α

def kalloc : Kernel Process Ppn := do
  let s ← getState
  match s.supply with
  | [] => fail .impossible
  | page :: rest =>
      if s.block page = .free then do
        modifyState fun s =>
          { s with supply := rest, block := Function.update s.block page .paging }
        pure page
      else fail .impossible

def kfree (page : Ppn) : Kernel Process Unit :=
  modifyState fun s => { s with block := Function.update s.block page .free }

def load (pte : Ppn × Fin 512) : Kernel Process PageEntry := do
  let s ← getState
  pure (s.memory pte.1 pte.2)

def store (pte : Ppn × Fin 512) (e : PageEntry) : Kernel Process Unit :=
  modifyState fun s => { s with memory := writeEntry s.memory pte e }

def bzeropage (page : Ppn) : Kernel Process Unit :=
  modifyState fun s => { s with memory := writePage s.memory page fun _ => .cleared }

def kassert (b : Bool) : Kernel Process Unit :=
  if b then pure () else fail .assertion

def pagedirOf (p : Process) : Kernel Process PageDir := do
  let s ← getState
  match s.pagedir p with
  | none => fail .impossible
  | some d => pure d

def setPagedir (p : Process) (d : PageDir) : Kernel Process Unit :=
  modifyState fun s => { s with pagedir := Function.update s.pagedir p (some d) }

def setKernelVm (root : Ppn) : Kernel Process Unit := do
  bzeropage root
  modifyState fun s => { s with memory := writePage s.memory root (kernelVm s.memory) }

/-- The step of `lookup` to the table below an entry, which is created if it
is missing. -/
def nextTable (pte : Ppn × Fin 512) : Kernel Process Ppn := do
  let e ← load pte
  if e.V = false then do
    let pdir ← kalloc
    bzeropage pdir
    store pte (.setAsDir pdir)
    let e ← load pte
    pure e.ppn
  else pure e.ppn

def lookup (d : PageDir) (va : Ptr) : Kernel Process (Ppn × Fin 512) := do
  let e ← load (d.root, getVpn va 2)
  if e.XWR ≠ .noleaf then pure (d.root, getVpn va 2)
  else do
    let table ← nextTable (d.root, getVpn va 2)
    let e ← load (table, getVpn va 1)
    if e.XWR ≠ .noleaf then pure (table, getVpn va 1)
    else do
      let table ← nextTable (table, getVpn va 1)
      pure (table, getVpn va 0)

def mapVaKva (d : PageDir) (va : Ptr) (kva : Ppn) (osflag : PageOSFlag) : Kernel Process Unit := do
  let pte ← lookup d va
  let e ← load pte
  kassert (!e.V)
  store pte { PageEntry.setAsLeaf kva with OSflag := osflag }

def allocPageForVa (d : PageDir) (va : Ptr) : Kernel Process Ppn :=
  if d.userMemBound ≤ va then fail .assertion
  else do
    let pte ← lookup d va
    let e ← load pte
    if e.V then pure e.ppn
    else do
      let kva ← kalloc
      mapVaKva d va kva .normal
      let e ← load pte
      pure e.ppn

def attachSharedPage (p : Process) (kva : Ppn) : Kernel Process Ptr := do
  let d ← pagedirOf p
  mapVaKva d d.sharedPageStart kva .shared
  setPagedir p { d with sharedPageStart := d.sharedPageStart + 4096 }
  pure d.sharedPageStart

def freeSharedPage (d : PageDir) (va : Ptr) : Kernel Process Ppn := do
  let pte ← lookup d va
  let e ← load pte
  kassert e.V
  store pte { e with V := false }
  pure e.ppn

/-- One round of the loop of `freeUserRecur`. -/
def freeEntry (recur : Ppn → Kernel Process Unit) (pdir : Ppn) (i : Fin 512) :
    Kernel Process Unit := do
  let e ← load (pdir, i)
  if e.V ∧ e.U ∧ e.XWR = .noleaf then recur e.ppn
  else if e.V ∧ e.U ∧ e.OSflag = .normal then kfree e.ppn
  else kassert (!e.V || !e.U)

def forEach {α : Type} (f : α → Kernel Process Unit) : List α → Kernel Process Unit
  | [] => pure ()
  | a :: rest => do
      f a
      forEach f rest

@[irreducible] def entryIndices : List (Fin 512) := List.finRange 512

/-- `freeUserRecur`, which never goes deeper than the three levels. -/
def freeUserRecur : Nat → Ppn → Kernel Process Unit
  | 0, _ => fail .impossible
  | depth + 1, pdir => do
      forEach (freeEntry (freeUserRecur depth) pdir) entryIndices
      kfree pdir

/-- Change the first element that satisfies `P`, or remove it. -/
def updateFirst {α : Type} (P : α → Bool) (f : α → Option α) : List α → List α
  | [] => []
  | a :: rest => if P a then (f a).toList ++ rest else a :: updateFirst P f rest

/-- Find the shared page of a key, or make it. -/
def getSharedPage (key : Ptr) : Kernel Process Ppn := do
  let s ← getState
  match s.sharedPages.find? (·.key == key) with
  | some page => pure page.kva
  | none => do
      let kva ← kalloc
      modifyState fun s => { s with sharedPages := s.sharedPages ++ [⟨key, kva, 0⟩] }
      pure kva

def sysShmpageget (p : Process) (key : BitVec 32) : Kernel Process Ptr := do
  let kva ← getSharedPage (key.signExtend 64)
  modifyState fun s => { s with
    sharedPages := updateFirst (·.key == key.signExtend 64)
      (fun page => some { page with cnt := page.cnt + 1 }) s.sharedPages }
  attachSharedPage p kva

/-- The loop of `sys_shmpagedt` over the shared pages. -/
def dropSharedPage (kva : Ppn) : Kernel Process Unit := do
  let s ← getState
  match s.sharedPages.find? (·.kva == kva) with
  | none => pure ()
  | some page => do
      modifyState fun s => { s with
        sharedPages := updateFirst (·.kva == kva)
          (fun page => if page.cnt - 1 = 0 then none else some { page with cnt := page.cnt - 1 })
          s.sharedPages }
      if page.cnt - 1 = 0 then kfree page.kva else pure ()

def sysShmpagedt (p : Process) (va : Ptr) : Kernel Process Unit := do
  let d ← pagedirOf p
  let kva ← freeSharedPage d va
  dropSharedPage kva

def sysBrk (p : Process) (addr : Ptr) : Kernel Process Unit := do
  let d ← pagedirOf p
  setPagedir p { d with userMemBound := addr }

def sysSbrk (p : Process) (increment : Ptr) : Kernel Process Unit := do
  let d ← pagedirOf p
  setPagedir p { d with userMemBound := d.userMemBound + increment }

/-- The page directory of a new process. -/
def createProcess (p : Process) : Kernel Process Unit := do
  let s ← getState
  if s.created p then fail .impossible
  else do
    let root ← kalloc
    setKernelVm root
    modifyState fun s => { s with
      created := Function.update s.created p true
      pagedir := Function.update s.pagedir p (some ⟨root, 0x2000000000, 0x300000⟩) }

/-- The loop of `load_task_img`. -/
def loadTaskImg (d : PageDir) : Nat → Ptr → Kernel Process Unit
  | 0, _ => pure ()
  | pages + 1, va => do
      let _ ← allocPageForVa d va
      loadTaskImg d pages (va + 4096)

def sysExec (p : Process) (pages : Nat) : Kernel Process Unit := do
  createProcess p
  let d ← pagedirOf p
  loadTaskImg d pages 0x200000
  let _ ← allocPageForVa d 0x100000

/-- The page directory of a process that is deleted. -/
def deleteProcess (p : Process) : Kernel Process Unit := do
  let d ← pagedirOf p
  freeUserRecur 3 d.root
  modifyState fun s => { s with pagedir := Function.update s.pagedir p none }

def pageFault (p : Process) (stval : Ptr) : Kernel Process Unit := do
  let d ← pagedirOf p
  let _ ← allocPageForVa d stval

/-- Another part of the kernel allocates a page. -/
def allocOther : Kernel Process Unit := do
  let page ← kalloc
  modifyState fun s => { s with block := Function.update s.block page .kernel }

/-- Another part of the kernel frees one of its pages. -/
def freeOther (page : Ppn) : Kernel Process Unit := do
  let s ← getState
  if s.block page = .kernel then kfree page else fail .impossible

inductive Call (Process : Type)
  | createProcess (p : Process)
  | exec (p : Process) (pages : Nat)
  | deleteProcess (p : Process)
  | pageFault (p : Process) (stval : Ptr)
  | brk (p : Process) (addr : Ptr)
  | sbrk (p : Process) (increment : Ptr)
  | shmpageget (p : Process) (key : BitVec 32)
  | shmpagedt (p : Process) (va : Ptr)
  | allocOther
  | freeOther (page : Ppn)

/-- The history of `attached`, when `p` has obtained or detached the page at
`va`.  The kernel keeps no such record. -/
def State.recordAttached (s : State Process) (p : Process) (va : Ptr)
    (key : Option (BitVec 32)) : State Process :=
  { s with
    attached := Function.update s.attached p (Function.update (s.attached p) (pageOf va) key) }

/-- A call, which is then recorded with its result. -/
def perform : Call Process → Kernel Process Unit
  | .createProcess p => createProcess p
  | .exec p pages => sysExec p pages
  | .deleteProcess p => deleteProcess p
  | .pageFault p stval => pageFault p stval
  | .brk p addr => sysBrk p addr
  | .sbrk p increment => sysSbrk p increment
  | .shmpageget p key => do
      let va ← sysShmpageget p key
      modifyState (·.recordAttached p va (some key))
  | .shmpagedt p va => do
      sysShmpagedt p va
      modifyState (·.recordAttached p va none)
  | .allocOther => allocOther
  | .freeOther page => freeOther page

/-- A call, with the pages that `kalloc` returns during it. -/
structure Action (Process : Type) where
  call : Call Process
  supply : List Ppn

/-- A call that returns.  At a failed assertion the kernel stops. -/
def next (s : State Process) (a : Action Process) : Option (State Process) :=
  match (perform a.call).run { s with supply := a.supply } with
  | (.ok _, s') => some s'
  | (.error _, _) => none

def system (ioremaps : List (Ptr × Ptr)) : System (State Process) (Action Process) :=
  ofFunction (Start ioremaps) next

end LabKernel.PageTable
