import LabKernel.PageRuns

/-!
What the operations of one page directory do to its translations (`PageDir` in
`page.cpp`).

Here the pages that are mapped may be any pages, also ones that are mapped
elsewhere: the translation of a page depends on the tables alone.  The tables
form a tree below the root, made of pages that are in use, so that `kalloc`
never returns one of them.
-/

namespace LabKernel.PageUpdates

open LabKernel.AddressSpace
open LabKernel.PageRuns
open LabKernel.PageTable
open LabKernel.ProgramLogic
open LabKernel.TransitionSystem

variable {Process : Type}

def kva2pa (kva : Ptr) : Ptr := kva - 0xffffffc000000000

/-- `PageEntry::to_kva`. -/
def toKva (page : Ppn) : Ptr := pa2kva (page.setWidth 64 <<< 12)

theorem kva2pa_toKva (page : Ppn) : kva2pa (toKva page) = page.setWidth 64 <<< 12 :=
  BitVec.add_sub_cancel ..

/-- The Sv39 translation of an address. -/
def walk (m : Memory) (root : Ppn) (va : Ptr) : Option Ptr :=
  (translation m root (pageOf va)).map fun leaf : PageEntry × Ppn =>
    (leaf.2.setWidth 64 <<< (12 : Nat) : Ptr) + va % 4096

/-- A page directory and the memory of the machine. -/
structure Machine (Process : Type) where
  kernel : State Process
  dir : PageDir

/-- The constructor `PageDir::PageDir`. -/
def newPageDir : Kernel Process PageDir := do
  let root ← kalloc
  setKernelVm root
  pure ⟨root, 0x2000000000, 0x300000⟩

inductive Update
  /-- `map_va_kva` with the kernel address of a page. -/
  | mapVaKva (va : Ptr) (page : Ppn) (osflag : PageOSFlag)
  | allocPageForVa (va : Ptr)
  | freeSharedPage (va : Ptr)
  | setUserMemBound (bound : Ptr)

/-- An operation with the pages that `kalloc` may return during it. -/
structure Action where
  update : Update
  supply : List Ppn

/-- The state in which an operation begins. -/
def Machine.supplied (s : Machine Process) (supply : List Ppn) : State Process :=
  { s.kernel with supply := supply }

/-- The state of a call that returned. -/
def returned {α : Type} (dir : PageDir) (run : Except Stop α × State Process) :
    Option (Machine Process) :=
  match run with
  | (.ok _, s) => some ⟨s, dir⟩
  | (.error _, _) => none

/-- An operation on an address below `2 ^ 38` that returns. -/
def next (s : Machine Process) (a : Action) : Option (Machine Process) :=
  match a.update with
  | .mapVaKva va page osflag =>
      if va.toNat < 2 ^ 38 then
        returned s.dir ((mapVaKva s.dir va page osflag).run (s.supplied a.supply))
      else none
  | .allocPageForVa va =>
      if va.toNat < 2 ^ 38 then
        returned s.dir ((allocPageForVa s.dir va).run (s.supplied a.supply))
      else none
  | .freeSharedPage va =>
      if va.toNat < 2 ^ 38 then
        returned s.dir ((freeSharedPage s.dir va).run (s.supplied a.supply))
      else none
  | .setUserMemBound bound => some ⟨s.kernel, { s.dir with userMemBound := bound }⟩

/-- The tables made at boot are in place and in use; nothing is known of the
other pages. -/
structure Booted (ioremaps : List (Ptr × Ptr)) (s : State Process) : Prop where
  pgdir : ∀ i, s.memory pgdirPage i = bootMemory ioremaps pgdirPage i
  window : ∀ i, s.memory ioPage i = bootMemory ioremaps ioPage i
  used : s.block pgdirPage ≠ .free ∧ s.block ioPage ≠ .free

/-- The constructor has returned. -/
def Constructed (ioremaps : List (Ptr × Ptr)) (s : Machine Process) : Prop :=
  ∃ before : State Process, Booted ioremaps before ∧
    newPageDir.run before = (.ok s.dir, s.kernel)

def system (ioremaps : List (Ptr × Ptr)) : System (Machine Process) Action :=
  ofFunction (Constructed ioremaps) next

/-- The addresses of other pages are translated as before. -/
def OthersKept (before after : State Process) (root : Ppn) (va : Ptr) : Prop :=
  ∀ va', pageOf va' ≠ pageOf va → walk after.memory root va' = walk before.memory root va'

structure Mapped (before after : State Process) (root : Ppn) (va : Ptr) (page : Ppn)
    (osflag : PageOSFlag) : Prop where
  walk : ∀ va', pageOf va' = pageOf va →
    PageUpdates.walk after.memory root va' = some (kva2pa (toKva page) + va' % 4096)
  flag : ∃ leaf, translation after.memory root (pageOf va) = some leaf ∧ leaf.1.OSflag = osflag
  others : OthersKept before after root va

structure Unmapped (before after : State Process) (root : Ppn) (va : Ptr) (page : Ppn) : Prop where
  walk : ∀ va', pageOf va' = pageOf va → PageUpdates.walk after.memory root va' = none
  was : ∀ va', pageOf va' = pageOf va →
    PageUpdates.walk before.memory root va' = some (kva2pa (toKva page) + va' % 4096)
  others : OthersKept before after root va

/-- What the operations do when they return. -/
structure Lawful (s : Machine Process) : Prop where
  map : ∀ supply va page osflag after, va.toNat < 2 ^ 38 →
    (mapVaKva s.dir va page osflag).run (s.supplied supply) = (.ok (), after) →
      Mapped s.kernel after s.dir.root va page osflag
  lookup : ∀ supply va pte after, va.toNat < 2 ^ 38 →
    (lookup s.dir va).run (s.supplied supply) = (.ok pte, after) →
      ∀ va', walk after.memory s.dir.root va' = walk s.kernel.memory s.dir.root va'
  free : ∀ supply va page after, va.toNat < 2 ^ 38 →
    (freeSharedPage s.dir va).run (s.supplied supply) = (.ok page, after) →
      Unmapped s.kernel after s.dir.root va page

/-- The place of a table in the tree. -/
inductive Node
  | root
  | middle (i : Fin 512)
  | leaves (i j : Fin 512)
  deriving DecidableEq

/-- The entry has no table below it, or the one of the given place. -/
def Below (node : Ppn → Option Node) (place : Node) (e : PageEntry) : Prop :=
  Blank e ∨ (e.V = true ∧ e.XWR = .noleaf ∧ node e.ppn = some place)

structure Tree (boot : Memory) (node : Ppn → Option Node) (root : Ppn) (s : State Process) :
    Prop where
  kernel : KernelTables boot
  used : ∀ x, node x ≠ none → s.block x ≠ .free
  windowUsed : s.block ioPage ≠ .free
  windowFree : node ioPage = none
  window : ∀ i, s.memory ioPage i = boot ioPage i
  top : node root = some .root
  kernelHalf : ∀ i : Fin 512, 256 ≤ i.val → s.memory root i = boot pgdirPage i
  userHalf : ∀ i : Fin 512, i.val < 256 → Below node (.middle i) (s.memory root i)
  middle : ∀ x i, node x = some (.middle i) → ∀ j, Below node (.leaves i j) (s.memory x j)
  leaves : ∀ x i j, node x = some (.leaves i j) → ∀ k, (s.memory x k).V = true →
    (s.memory x k).XWR ≠ .noleaf

variable {boot : Memory} {node : Ppn → Option Node} {root x : Ppn} {s : State Process}
  {a a' : VirtualPage} {pte : Ppn × Fin 512} {place : Node} {e : PageEntry}

theorem Tree.belowRoot (hs : Tree boot node root s) {i : Fin 512}
    (hv : (s.memory root i).V = true) (hdir : (s.memory root i).XWR = .noleaf) :
    (s.memory root i).ppn = ioPage ∨ node (s.memory root i).ppn = some (.middle i) := by
  rcases Nat.lt_or_ge i.val 256 with hlow | hhigh
  · rcases hs.userHalf i hlow with hblank | ⟨-, -, hnode⟩
    · rw [hblank.1] at hv
      cases hv
    · exact Or.inr hnode
  · rw [hs.kernelHalf i hhigh] at hv hdir ⊢
    exact Or.inl ((hs.kernel.high i hhigh).2 hv hdir)

theorem Tree.belowMiddle (hs : Tree boot node root s) (hv : (s.memory root a.vpn2).V = true)
    (hdir : (s.memory root a.vpn2).XWR = .noleaf)
    (hv' : (s.memory (s.memory root a.vpn2).ppn a.vpn1).V = true)
    (hdir' : (s.memory (s.memory root a.vpn2).ppn a.vpn1).XWR = .noleaf) :
    node (s.memory (s.memory root a.vpn2).ppn a.vpn1).ppn = some (.leaves a.vpn2 a.vpn1) := by
  rcases hs.belowRoot hv hdir with hio | hnode
  · rw [hio, hs.window] at hv' hdir'
    exact absurd hdir' ((hs.kernel.window _).2 hv')
  · rcases hs.middle _ _ hnode a.vpn1 with hblank | ⟨-, -, hleaves⟩
    · rw [hblank.1] at hv'
      cases hv'
    · exact hleaves

theorem Tree.visits (hs : Tree boot node root s) (h : Visits s.memory root a pte) :
    pte = (root, a.vpn2) ∨ pte.1 = ioPage ∨
      (node pte.1 = some (.middle a.vpn2) ∧ pte.2 = a.vpn1) ∨
      (node pte.1 = some (.leaves a.vpn2 a.vpn1) ∧ pte.2 = a.vpn0) := by
  cases h with
  | top => exact Or.inl rfl
  | middle hv hdir =>
      rcases hs.belowRoot hv hdir with hio | hnode
      · exact Or.inr (Or.inl hio)
      · exact Or.inr (Or.inr (Or.inl ⟨hnode, rfl⟩))
  | bottom hv hdir hv' hdir' =>
      exact Or.inr (Or.inr (Or.inr ⟨hs.belowMiddle hv hdir hv' hdir', rfl⟩))

theorem Tree.visits_used (hs : Tree boot node root s) (h : Visits s.memory root a pte) :
    s.block pte.1 ≠ .free := by
  rcases hs.visits h with rfl | hio | ⟨hnode, -⟩ | ⟨hnode, -⟩
  · exact hs.used root (hs.top ▸ nofun)
  · rw [hio]
    exact hs.windowUsed
  · exact hs.used _ (hnode ▸ nofun)
  · exact hs.used _ (hnode ▸ nofun)

/-- The place of a table that `lookup` creates. -/
inductive Hangs (node : Ppn → Option Node) (root : Ppn) : Ppn × Fin 512 → Node → Prop
  | top {n : Fin 512} (hn : n.val < 256) : Hangs node root (root, n) (.middle n)
  | middle {y : Ppn} {i n : Fin 512} (hy : node y = some (.middle i)) :
      Hangs node root (y, n) (.leaves i n)

theorem Hangs.below (h : Hangs node root pte place) (hs : Tree boot node root s) :
    Below node place (s.memory pte.1 pte.2) := by
  cases h with
  | top hn => exact hs.userHalf _ hn
  | middle hy => exact hs.middle _ _ hy _

theorem Hangs.node_ne (h : Hangs node root pte place) (hs : Tree boot node root s) :
    node pte.1 ≠ none ∧ ∀ i j, node pte.1 ≠ some (.leaves i j) := by
  cases h with
  | top hn =>
      rw [hs.top]
      exact ⟨nofun, nofun⟩
  | middle hy =>
      rw [hy]
      exact ⟨nofun, nofun⟩

theorem Tree.translate_hang (hs : Tree boot node root s) (hplace : Hangs node root pte place)
    (hblank : (s.memory pte.1 pte.2).V = false) (hx : s.block x = .free) (a : VirtualPage) :
    translation (hang s.memory pte x) root a = translation s.memory root a := by
  have hne : ∀ y, node y ≠ none → y ≠ x := by
    rintro y hy rfl
    exact hs.used y hy hx
  have hptex := hne _ (hplace.node_ne hs).1
  have hrootx := hne root (hs.top ▸ nofun)
  rcases Classical.em (Visits s.memory root a pte) with hvisit | hnot
  · rw [translate_eq_none hvisit hblank]
    unfold translation
    cases hvisit with
    | top =>
        have hself : hang s.memory (root, a.vpn2) x root a.vpn2 = .setAsDir x := hang_self
        simp only [hself]
        simp [PageEntry.setAsDir, hang_new hptex, PageEntry.cleared]
    | middle hv hdir =>
        have hother : (root, a.vpn2) ≠ ((s.memory root a.vpn2).ppn, a.vpn1) := by
          intro heq
          have hroot := (Prod.mk.inj heq).1
          rcases hs.belowRoot hv hdir with hio | hnode
          · have htop := hs.top
            rw [hroot, hio, hs.windowFree] at htop
            cases htop
          · rw [← hroot, hs.top] at hnode
            cases hnode
        have hself : hang s.memory ((s.memory root a.vpn2).ppn, a.vpn1) x
            (s.memory root a.vpn2).ppn a.vpn1 = .setAsDir x := hang_self
        simp only [hang_other hother hrootx, hv, hdir, hself]
        simp [PageEntry.setAsDir, hang_new hptex, PageEntry.cleared]
    | bottom hv hdir hv' hdir' =>
        exact absurd (hs.belowMiddle hv hdir hv' hdir') ((hplace.node_ne hs).2 _ _)
  · apply translate_congr
    intro pte' hvisit
    apply hang_other
    · rintro rfl
      exact hnot hvisit
    · rintro rfl
      exact hs.visits_used hvisit hx

theorem Below.update {place' : Node} (h : Below node place e) (hx : node x = none) :
    Below (Function.update node x (some place')) place e := by
  rcases h with hblank | ⟨hv, hdir, hnode⟩
  · exact Or.inl hblank
  · refine Or.inr ⟨hv, hdir, ?_⟩
    have hne : e.ppn ≠ x := by
      intro heq
      rw [heq, hx] at hnode
      cases hnode
    rw [Function.update_of_ne hne, hnode]

theorem Tree.hang (hs : Tree boot node root s) (hplace : Hangs node root pte place)
    (hx : s.block x = .free) (supply : List Ppn) :
    Tree boot (Function.update node x (some place)) root { s with
      memory := hang s.memory pte x
      block := Function.update s.block x .paging
      supply := supply } := by
  have hne : ∀ y, node y ≠ none → y ≠ x := by
    rintro y hy rfl
    exact hs.used y hy hx
  have hnode : node x = none := by
    by_contra hused
    exact hs.used x hused hx
  have hptex := hne _ (hplace.node_ne hs).1
  have hself : Below (Function.update node x (some place)) place (.setAsDir x) :=
    Or.inr ⟨rfl, rfl, Function.update_self ..⟩
  have hio : ioPage ≠ x := by
    rintro rfl
    exact hs.windowUsed hx
  have hioPte : ∀ i, (ioPage, i) ≠ pte := by
    rintro i rfl
    exact (hplace.node_ne hs).1 hs.windowFree
  have hentry : ∀ y i, y ≠ x → (y, i) ≠ pte →
      AddressSpace.hang s.memory pte x y i = s.memory y i := fun y i hy hi => hang_other hi hy
  have hnew : ∀ i, AddressSpace.hang s.memory pte x x i = .cleared := hang_new hptex
  have hold : ∀ y n, y ≠ x → Function.update node x (some place) y = some n → node y = some n :=
    fun y n hy h => by rwa [Function.update_of_ne hy] at h
  have hrootx := hne root (hs.top ▸ nofun)
  constructor
  · exact hs.kernel
  · intro y hy
    dsimp only
    rcases eq_or_ne y x with rfl | hyx
    · rw [Function.update_self]
      decide
    · rw [Function.update_of_ne hyx] at hy ⊢
      exact hs.used y hy
  · dsimp only
    rw [Function.update_of_ne hio]
    exact hs.windowUsed
  · rw [Function.update_of_ne hio]
    exact hs.windowFree
  · intro i
    dsimp only
    rw [hentry _ i hio (hioPte i)]
    exact hs.window i
  · rw [Function.update_of_ne hrootx]
    exact hs.top
  · intro i hi
    dsimp only
    rw [hentry root i hrootx]
    · exact hs.kernelHalf i hi
    · rintro rfl
      cases hplace with
      | top hn => omega
      | middle hy =>
          rw [hs.top] at hy
          cases hy
  · intro i hi
    dsimp only
    rcases eq_or_ne (root, i) pte with rfl | hpte
    · rw [@hang_self s.memory x (root, i)]
      cases hplace with
      | top hn => exact hself
      | middle hy =>
          rw [hs.top] at hy
          cases hy
    · rw [hentry root i hrootx hpte]
      exact (hs.userHalf i hi).update hnode
  · intro y i hy j
    dsimp only
    rcases eq_or_ne y x with rfl | hyx
    · rw [hnew]
      exact Or.inl cleared_blank
    · have hyold := hold y _ hyx hy
      rcases eq_or_ne (y, j) pte with rfl | hpte
      · rw [@hang_self s.memory x (y, j)]
        cases hplace with
        | top hn => cases hs.top.symm.trans hyold
        | middle hy' =>
            cases hy'.symm.trans hyold
            exact hself
      · rw [hentry y j hyx hpte]
        exact (hs.middle y i hyold j).update hnode
  · intro y i j hy k hv
    dsimp only at hv ⊢
    rcases eq_or_ne y x with rfl | hyx
    · rw [hnew] at hv
      cases hv
    · have hyold := hold y _ hyx hy
      have hpte : (y, k) ≠ pte := by
        rintro rfl
        exact (hplace.node_ne hs).2 i j hyold
      rw [hentry y k hyx hpte] at hv ⊢
      exact hs.leaves y i j hyold k hv

theorem Tree.take (hs : Tree boot node root s) (x : Ppn) (supply : List Ppn) :
    Tree boot node root
      { s with supply := supply, block := Function.update s.block x .paging } := by
  have hused : ∀ y, s.block y ≠ .free → Function.update s.block x .paging y ≠ .free := by
    intro y hy
    rcases eq_or_ne y x with rfl | hyx
    · rw [Function.update_self]
      decide
    · rwa [Function.update_of_ne hyx]
  exact ⟨hs.kernel, fun y hy => hused y (hs.used y hy), hused _ hs.windowUsed, hs.windowFree,
    hs.window, hs.top, hs.kernelHalf, hs.userHalf, hs.middle, hs.leaves⟩

/-- Tables have been added, but no translation has changed. -/
structure Kept (node : Ppn → Option Node) (root : Ppn) (s : State Process)
    (node' : Ppn → Option Node) (s' : State Process) : Prop where
  translate : ∀ a, translation s'.memory root a = translation s.memory root a
  nodes : ∀ x, node x ≠ none → node' x = node x
  entries : ∀ x i, node x ≠ none → (s.memory x i).V = true → s'.memory x i = s.memory x i

theorem Kept.refl : Kept node root s node s :=
  ⟨fun _ => rfl, fun _ _ => rfl, fun _ _ _ _ => rfl⟩

variable {node₁ node₂ : Ppn → Option Node} {s₁ s₂ : State Process} {d : PageDir} {va : Ptr}

theorem Kept.trans (h₁ : Kept node root s node₁ s₁) (h₂ : Kept node₁ root s₁ node₂ s₂) :
    Kept node root s node₂ s₂ := by
  have hnode : ∀ x, node x ≠ none → node₁ x ≠ none := by
    intro x hx
    rwa [h₁.nodes x hx]
  refine ⟨fun a => (h₂.translate a).trans (h₁.translate a), ?_, ?_⟩
  · intro x hx
    rw [h₂.nodes x (hnode x hx), h₁.nodes x hx]
  · intro x i hx hv
    have hkept := h₁.entries x i hx hv
    rw [h₂.entries x i (hnode x hx) (hkept ▸ hv), hkept]

theorem Kept.leadsTo (h : Kept node root s node₁ s₁) (hx : node pte.1 ≠ none)
    (hleads : LeadsTo s.memory pte x) : LeadsTo s₁.memory pte x := by
  unfold LeadsTo
  rw [h.entries pte.1 pte.2 hx hleads.1]
  exact hleads

theorem Tree.kept_hang (hs : Tree boot node root s) (hplace : Hangs node root pte place)
    (hblank : (s.memory pte.1 pte.2).V = false) (hx : s.block x = .free) (supply : List Ppn) :
    Kept node root s (Function.update node x (some place)) { s with
      memory := AddressSpace.hang s.memory pte x
      block := Function.update s.block x .paging
      supply := supply } := by
  have hne : ∀ y, node y ≠ none → y ≠ x := by
    rintro y hy rfl
    exact hs.used y hy hx
  refine ⟨hs.translate_hang hplace hblank hx, ?_, ?_⟩
  · exact fun y hy => Function.update_of_ne (hne y hy) ..
  · intro y i hy hv
    apply hang_other _ (hne y hy)
    rintro rfl
    rw [hblank] at hv
    cases hv

theorem runs_nextTable (hs : Tree boot node root s) (hplace : Hangs node root pte place) :
    Runs (nextTable pte) s Any fun table s' =>
      ∃ node', Tree boot node' root s' ∧ Kept node root s node' s' ∧ node' table = some place ∧
        LeadsTo s'.memory pte table := by
  unfold nextTable
  apply runs_bind
  apply runs_load
  rcases hplace.below hs with hblank | ⟨hv, hdir, hnode⟩
  · rw [if_pos hblank.1]
    apply runs_bind
    apply runs_kalloc
    intro page rest hfree
    have hself : AddressSpace.hang s.memory pte page pte.1 pte.2 = .setAsDir page := hang_self
    refine ⟨_, hs.hang hplace hfree rest, hs.kept_hang hplace hblank.1 hfree rest, ?_, ?_⟩
    · change Function.update node page (some place)
        (AddressSpace.hang s.memory pte page pte.1 pte.2).ppn = some place
      rw [hself]
      exact Function.update_self ..
    · change LeadsTo (AddressSpace.hang s.memory pte page) pte
        (AddressSpace.hang s.memory pte page pte.1 pte.2).ppn
      unfold LeadsTo
      rw [hself]
      exact ⟨rfl, rfl, rfl⟩
  · rw [if_neg (by rw [hv]; decide)]
    exact ⟨node, hs, Kept.refl, hnode, hv, hdir, rfl⟩

theorem Below.noleaf (h : Below node place e) : e.XWR = .noleaf := by
  rcases h with hblank | ⟨-, hdir, -⟩
  · exact hblank.2
  · exact hdir

theorem getVpn_low (hva : va.toNat < 2 ^ 38) : (getVpn va 2).val < 256 := by
  rw [getVpn_val]
  omega

theorem runs_lookup (hs : Tree boot node d.root s) (hva : va.toNat < 2 ^ 38) :
    Runs (lookup d va) s Any fun pte s' =>
      ∃ node', Tree boot node' d.root s' ∧ Kept node d.root s node' s' ∧
        pte.2 = getVpn va 0 ∧ node' pte.1 = some (.leaves (getVpn va 2) (getVpn va 1)) ∧
        Reaches s'.memory d.root (pageOf va) pte.1 := by
  unfold lookup
  apply runs_bind
  apply runs_load
  have hlow := getVpn_low hva
  rw [if_neg (not_not.mpr (hs.userHalf _ hlow).noleaf)]
  apply (runs_nextTable hs (.top hlow)).bind
  rintro table s₁ ⟨node₁, hs₁, hkept₁, htable, hleads₁⟩
  apply runs_bind
  apply runs_load
  rw [if_neg (not_not.mpr (hs₁.middle table _ htable (getVpn va 1)).noleaf)]
  apply (runs_nextTable hs₁ (.middle htable)).bind
  rintro bottom s₂ ⟨node₂, hs₂, hkept₂, hbottom, hleads₂⟩
  have hroot : node₁ d.root ≠ none := hs₁.top ▸ nofun
  have hkept := hkept₂.leadsTo hroot hleads₁
  refine ⟨node₂, hs₂, hkept₁.trans hkept₂, rfl, hbottom, ⟨hkept.1, hkept.2.1, rfl⟩, ?_⟩
  change LeadsTo s₂.memory ((s₂.memory d.root (getVpn va 2)).ppn, getVpn va 1) bottom
  rw [hkept.2.2]
  exact hleads₂

variable {y : Ppn}

/-- A change in a table of the last level is seen by one page only. -/
theorem Tree.translate_writeEntry (hs : Tree boot node root s)
    (hy : node y = some (.leaves a.vpn2 a.vpn1)) (hne : a' ≠ a) :
    translation (writeEntry s.memory (y, a.vpn0) e) root a' = translation s.memory root a' := by
  apply translate_congr
  rintro ⟨z, k⟩ hvisit
  apply if_neg
  rintro ⟨⟩
  rcases hs.visits hvisit with heq | hio | ⟨hmiddle, -⟩ | ⟨hleaves, hvpn⟩
  · rw [(Prod.mk.inj heq).1, hs.top] at hy
    cases hy
  · dsimp only at hio
    rw [hio, hs.windowFree] at hy
    cases hy
  · rw [hy] at hmiddle
    cases hmiddle
  · rw [hy] at hleaves
    injection hleaves with hleaves
    injection hleaves with hi hj
    apply hne
    cases a
    cases a'
    dsimp only at *
    rw [hi, hj, hvpn]

theorem Tree.reaches_writeEntry (hs : Tree boot node root s)
    (hy : node y = some (.leaves a.vpn2 a.vpn1)) (h : Reaches s.memory root a y) :
    Reaches (writeEntry s.memory (y, a.vpn0) e) root a y := by
  have hroot : ∀ n, writeEntry s.memory (y, a.vpn0) e root n = s.memory root n := by
    intro n
    apply if_neg
    rintro ⟨⟩
    rw [hs.top] at hy
    cases hy
  have hmiddle : ∀ n, writeEntry s.memory (y, a.vpn0) e (s.memory root a.vpn2).ppn n =
      s.memory (s.memory root a.vpn2).ppn n := by
    intro n
    apply if_neg
    intro heq
    have heq := (Prod.mk.inj heq).1
    rcases hs.belowRoot h.middle.1 h.middle.2.1 with hio | hnode
    · rw [← heq, hio, hs.windowFree] at hy
      cases hy
    · rw [heq, hy] at hnode
      cases hnode
  obtain ⟨hfirst, hsecond⟩ := h
  constructor
  · unfold LeadsTo at hfirst ⊢
    dsimp only at hfirst ⊢
    rw [hroot]
    exact hfirst
  · unfold LeadsTo at hsecond ⊢
    dsimp only at hsecond ⊢
    rw [hroot, hmiddle]
    exact hsecond

theorem Tree.translate_self (hs : Tree boot node root s)
    (hy : node y = some (.leaves a.vpn2 a.vpn1)) (h : Reaches s.memory root a y) :
    translation (writeEntry s.memory (y, a.vpn0) e) root a =
      if e.V = false ∨ e.XWR = .noleaf then none else some (e, e.ppn) := by
  have hself : writeEntry s.memory (y, a.vpn0) e y a.vpn0 = e := if_pos rfl
  rw [(hs.reaches_writeEntry hy h).translate, hself]

theorem Tree.writeLeaf (hs : Tree boot node root s) {i j : Fin 512}
    (hy : node y = some (.leaves i j)) (he : e.V = true → e.XWR ≠ .noleaf) (k : Fin 512) :
    Tree boot node root { s with memory := writeEntry s.memory (y, k) e } := by
  have hother : ∀ z n, node z ≠ node y → writeEntry s.memory (y, k) e z n = s.memory z n := by
    intro z n hz
    apply if_neg
    rintro ⟨⟩
    exact hz rfl
  refine ⟨hs.kernel, hs.used, hs.windowUsed, hs.windowFree, ?_, hs.top, ?_, ?_, ?_, ?_⟩
  · intro n
    dsimp only
    rw [hother]
    · exact hs.window n
    · rw [hs.windowFree, hy]
      exact nofun
  · intro n hn
    dsimp only
    rw [hother]
    · exact hs.kernelHalf n hn
    · rw [hs.top, hy]
      exact nofun
  · intro n hn
    dsimp only
    rw [hother]
    · exact hs.userHalf n hn
    · rw [hs.top, hy]
      exact nofun
  · intro z i' hz n
    dsimp only
    rw [hother]
    · exact hs.middle z i' hz n
    · rw [hz, hy]
      exact nofun
  · intro z i' j' hz n
    dsimp only
    rcases eq_or_ne (z, n) (y, k) with heq | hne
    · cases heq
      have hself : writeEntry s.memory (y, k) e y k = e := if_pos rfl
      rw [hself]
      exact he
    · have hkept : writeEntry s.memory (y, k) e z n = s.memory z n := if_neg hne
      rw [hkept]
      exact hs.leaves z i' j' hz n

variable {boot : Memory} {node : Ppn → Option Node} {s s' : State Process} {d : PageDir} {va : Ptr}

theorem runs_mapVaKva (hs : Tree boot node d.root s) (hva : va.toNat < 2 ^ 38) (page : Ppn)
    (osflag : PageOSFlag) :
    Runs (mapVaKva d va page osflag) s Any fun _ s' =>
      ∃ node', Tree boot node' d.root s' ∧
        translation s'.memory d.root (pageOf va) =
          some ({ PageEntry.setAsLeaf page with OSflag := osflag }, page) ∧
        ∀ a, a ≠ pageOf va → translation s'.memory d.root a = translation s.memory d.root a := by
  unfold mapVaKva
  apply (runs_lookup hs hva).bind
  rintro ⟨y, k⟩ s₁ ⟨node₁, hs₁, hkept, hk, hy, hreaches⟩
  obtain rfl : k = getVpn va 0 := hk
  apply runs_bind
  apply runs_load
  apply runs_bind
  apply runs_kassert
  intro _
  refine ⟨node₁, hs₁.writeLeaf hy (fun _ h => by cases h) _, ?_, ?_⟩
  · exact hs₁.translate_self (a := pageOf va) hy hreaches
  · intro a ha
    exact (hs₁.translate_writeEntry (a := pageOf va) hy ha).trans (hkept.translate a)

theorem runs_freeSharedPage (hs : Tree boot node d.root s) (hva : va.toNat < 2 ^ 38) :
    Runs (freeSharedPage d va) s Any fun page s' =>
      ∃ node', Tree boot node' d.root s' ∧
        translation s'.memory d.root (pageOf va) = none ∧
        (∃ e, translation s.memory d.root (pageOf va) = some (e, page)) ∧
        ∀ a, a ≠ pageOf va → translation s'.memory d.root a = translation s.memory d.root a := by
  unfold freeSharedPage
  apply (runs_lookup hs hva).bind
  rintro ⟨y, k⟩ s₁ ⟨node₁, hs₁, hkept, hk, hy, hreaches⟩
  obtain rfl : k = getVpn va 0 := hk
  apply runs_bind
  apply runs_load
  apply runs_bind
  apply runs_kassert
  intro hv
  have hleaf := hs₁.leaves y _ _ hy _ hv
  refine ⟨node₁, hs₁.writeLeaf hy (fun h => by cases h) _, ?_, ⟨s₁.memory y (getVpn va 0), ?_⟩, ?_⟩
  · exact hs₁.translate_self (a := pageOf va) hy hreaches
  · rw [← hkept.translate, hreaches.translate]
    apply if_neg
    rintro (hfalse | hdir)
    · exact absurd (hv.symm.trans hfalse) nofun
    · exact hleaf hdir
  · intro a ha
    exact (hs₁.translate_writeEntry (a := pageOf va) hy ha).trans (hkept.translate a)

theorem runs_allocPageForVa (hs : Tree boot node d.root s) (hva : va.toNat < 2 ^ 38) :
    Runs (allocPageForVa d va) s Any fun _ s' => ∃ node', Tree boot node' d.root s' := by
  unfold allocPageForVa
  split
  · exact runs_fail trivial
  · apply (runs_lookup hs hva).bind
    rintro pte s₁ ⟨node₁, hs₁, -⟩
    apply runs_bind
    apply runs_load
    split
    · exact runs_pure ⟨node₁, hs₁⟩
    · apply runs_bind
      apply runs_kalloc
      intro page rest _
      apply (runs_mapVaKva (hs₁.take page rest) hva page .normal).bind
      rintro - s₂ ⟨node₂, hs₂, -⟩
      exact ⟨node₂, hs₂⟩

variable {ioremaps : List (Ptr × Ptr)} {m m' : Machine Process}

/-- The tables of the directory form a tree. -/
def Treelike (boot : Memory) (m : Machine Process) : Prop :=
  ∃ node, Tree boot node m.dir.root m.kernel

theorem runs_newPageDir (hs : Booted ioremaps s) :
    Runs newPageDir s Any fun d s' => Treelike (bootMemory ioremaps) ⟨s', d⟩ := by
  unfold newPageDir
  apply runs_bind
  apply runs_kalloc
  intro root rest hfree
  have hpgdir : pgdirPage ≠ root := by
    rintro rfl
    exact hs.used.1 hfree
  have hio : ioPage ≠ root := by
    rintro rfl
    exact hs.used.2 hfree
  have hkernel := kernelTables_bootMemory ioremaps
  have hroot : ∀ m : Memory, ∀ i, writePage m root (kernelVm m) root i = kernelVm m i :=
    fun m i => if_pos rfl
  have hentry : ∀ i, kernelVm (writePage s.memory root fun _ => .cleared) i =
      kernelVm (bootMemory ioremaps) i := by
    intro i
    unfold kernelVm
    split
    · rfl
    · exact (if_neg hpgdir).trans (hs.pgdir i)
  refine ⟨Function.update (fun _ => none) root (some .root), hkernel, ?_, ?_, ?_, ?_,
    Function.update_self .., ?_, ?_, ?_, ?_⟩
  · intro x hx
    rcases eq_or_ne x root with rfl | hne
    · exact fun h => absurd ((Function.update_self ..).symm.trans h) (by decide)
    · exact absurd (Function.update_of_ne hne ..) hx
  · exact fun h => hs.used.2 ((Function.update_of_ne hio ..).symm.trans h)
  · exact Function.update_of_ne hio ..
  · exact fun i => ((if_neg hio).trans (if_neg hio)).trans (hs.window i)
  · intro i hi
    refine ((hroot _ i).trans (hentry i)).trans (if_neg ?_)
    rintro rfl
    revert hi
    decide
  · intro i hi
    refine Or.inl ?_
    have hcleared := hkernel.low i (by omega)
    change Blank (writePage _ root (kernelVm _) root i)
    rw [hroot, hentry, hcleared]
    exact cleared_blank
  · intro x i hx
    rcases eq_or_ne x root with rfl | hne
    · cases (Function.update_self ..).symm.trans hx
    · cases (Function.update_of_ne hne ..).symm.trans hx
  · intro x i j hx
    rcases eq_or_ne x root with rfl | hne
    · cases (Function.update_self ..).symm.trans hx
    · cases (Function.update_of_ne hne ..).symm.trans hx

theorem returned_eq_some {α : Type} {run : Except Stop α × State Process}
    (h : returned d run = some m) : ∃ a, run = (.ok a, m.kernel) ∧ m.dir = d := by
  obtain ⟨result, s⟩ := run
  cases result with
  | error e => cases h
  | ok a =>
      cases h
      exact ⟨a, rfl, rfl⟩

theorem Runs.treelike {α : Type} {p : Kernel Process α}
    (h : Runs p s Any fun _ s' => ∃ node', Tree boot node' d.root s')
    (hrun : returned d (p.run s) = some m) : Treelike boot m := by
  obtain ⟨a, hrun, hdir⟩ := returned_eq_some hrun
  obtain ⟨node', hs'⟩ := h.ok hrun
  exact ⟨node', hdir ▸ hs'⟩

theorem Tree.supplied (hs : Tree boot node m.dir.root m.kernel) (supply : List Ppn) :
    Tree boot node m.dir.root (m.supplied supply) :=
  ⟨hs.kernel, hs.used, hs.windowUsed, hs.windowFree, hs.window, hs.top, hs.kernelHalf, hs.userHalf,
    hs.middle, hs.leaves⟩

theorem Treelike.next {a : Action} (hm : Treelike boot m) (hstep : next m a = some m') :
    Treelike boot m' := by
  obtain ⟨node, htree⟩ := hm
  have hs := htree.supplied a.supply
  unfold PageUpdates.next at hstep
  split at hstep
  · split at hstep
    · next hva =>
        apply Runs.treelike _ hstep
        apply (runs_mapVaKva hs hva _ _).mono (fun _ _ h => h)
        rintro - s' ⟨node', hs', -⟩
        exact ⟨node', hs'⟩
    · cases hstep
  · split at hstep
    · next hva => exact Runs.treelike (runs_allocPageForVa hs hva) hstep
    · cases hstep
  · split at hstep
    · next hva =>
        apply Runs.treelike _ hstep
        apply (runs_freeSharedPage hs hva).mono (fun _ _ h => h)
        rintro - s' ⟨node', hs', -⟩
        exact ⟨node', hs'⟩
    · cases hstep
  · cases hstep
    exact ⟨node, htree⟩

theorem treelike_of_reachable (h : Reachable (system ioremaps) m) :
    Treelike (bootMemory ioremaps) m := by
  apply h.invariant
  · rintro s ⟨before, hbooted, hrun⟩
    exact (runs_newPageDir hbooted).ok hrun
  · exact fun s a s' hs _ hstep => hs.next hstep

theorem walk_eq {m : Memory} {root : Ppn} {a : VirtualPage} {e : PageEntry} {page : Ppn}
    {va : Ptr} (ha : pageOf va = a) (h : translation m root a = some (e, page)) :
    walk m root va = some (kva2pa (toKva page) + va % 4096) := by
  unfold walk
  rw [ha, h, kva2pa_toKva]
  rfl

theorem walk_congr {m m' : Memory} {root : Ppn} {va : Ptr}
    (h : translation m' root (pageOf va) = translation m root (pageOf va)) :
    walk m' root va = walk m root va := by
  unfold walk
  rw [h]

theorem lawful_of_reachable (h : Reachable (system ioremaps) m) : Lawful m := by
  obtain ⟨node, hs⟩ := treelike_of_reachable h
  constructor
  · intro supply va page osflag after hva hrun
    obtain ⟨-, -, hself, hothers⟩ :=
      (runs_mapVaKva (hs.supplied supply) hva page osflag).ok hrun
    exact ⟨fun va' hpage => walk_eq hpage hself, ⟨_, hself, rfl⟩,
      fun va' hpage => walk_congr (hothers _ hpage)⟩
  · intro supply va pte after hva hrun va'
    obtain ⟨_, -, hkept, -⟩ := (runs_lookup (hs.supplied supply) hva).ok hrun
    exact walk_congr (hkept.translate _)
  · intro supply va page after hva hrun
    obtain ⟨-, -, hself, ⟨e, hwas⟩, hothers⟩ :=
      (runs_freeSharedPage (hs.supplied supply) hva).ok hrun
    refine ⟨?_, fun va' hpage => walk_eq hpage hwas, fun va' hpage => walk_congr (hothers _ hpage)⟩
    intro va' hpage
    unfold walk
    rw [hpage, hself]
    rfl

theorem freeSharedPage_returns {pa : Ptr} (hmapped : walk s.memory d.root va = some pa) :
    ∃ page s', (freeSharedPage d va).run s = (.ok page, s') := by
  obtain ⟨⟨e, page⟩, htranslate, -⟩ := Option.map_eq_some_iff.mp hmapped
  have hruns : Runs (freeSharedPage d va) s (fun _ _ => False) fun _ _ => True := by
    unfold freeSharedPage
    apply (runs_lookup_mapped htranslate).bind
    rintro pte s' ⟨rfl, he, hv⟩
    apply runs_bind
    apply runs_load
    rw [he, hv]
    trivial
  obtain ⟨page, s', hrun, -⟩ := hruns.returns fun _ _ he => he
  exact ⟨page, s', hrun⟩

/-- The first directory after boot. -/
def firstDir : Machine Unit :=
  let run := newPageDir.run { initial [] with supply := [0x60000] }
  ⟨run.2, ⟨0x60000, 0x2000000000, 0x300000⟩⟩

theorem constructed_firstDir : Constructed [] firstDir := by
  refine ⟨{ initial [] with supply := [0x60000] }, ⟨fun _ => rfl, fun _ => rfl, ?_⟩, rfl⟩
  decide +kernel

/-- A page is mapped and freed again. -/
theorem firstDir_mapped : ∃ m m' : Machine Unit,
    next firstDir ⟨.mapVaKva 0x200000 0x70000 .shared, [0x60001, 0x60002]⟩ = some m ∧
      walk m.kernel.memory m.dir.root 0x200008 = some 0x70000008 ∧ Lawful m ∧
      next m ⟨.freeSharedPage 0x200008, []⟩ = some m' ∧
      walk m'.kernel.memory m.dir.root 0x200008 = none ∧ Lawful m' := by
  have hwalk : (next firstDir ⟨.mapVaKva 0x200000 0x70000 .shared, [0x60001, 0x60002]⟩).map
      (fun m => walk m.kernel.memory m.dir.root 0x200008) = some (some 0x70000008) := by
    decide +kernel
  obtain ⟨m, hstep, hm⟩ := Option.map_eq_some_iff.mp hwalk
  have hreachable : Reachable (system []) m :=
    (ReachableUnder.start constructed_firstDir).step trivial hstep
  obtain ⟨page, after, hrun⟩ := freeSharedPage_returns (s := m.supplied []) hm
  have hfreed : next m ⟨.freeSharedPage 0x200008, []⟩ = some ⟨after, m.dir⟩ := by
    unfold next
    simp only [hrun, returned]
    rfl
  have hlawful := lawful_of_reachable hreachable
  exact ⟨m, ⟨after, m.dir⟩, hstep, hm, hlawful, hfreed,
    (hlawful.free [] _ page after (by decide) hrun).walk _ (by decide),
    lawful_of_reachable (hreachable.step trivial hfreed)⟩

end LabKernel.PageUpdates
