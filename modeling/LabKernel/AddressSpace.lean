import Mathlib.Data.Set.Card
import LabKernel.PageTable

/-!
How the address spaces are laid out in physical memory.

Every page that `page.cpp` has allocated has one role: it is a table of one
process at one place of its tree, a private page of one process at one
address, or the shared page of one key.  The entries of the tables point to
pages of the right role, so that no page is reached in two ways.
-/

namespace LabKernel.AddressSpace

open LabKernel.PageTable
open LabKernel.ProgramLogic

/-- What a page of physical memory is used for. -/
inductive Role (Process : Type)
  | unused
  | root (p : Process)
  | middle (p : Process) (i : Fin 512)
  | leaves (p : Process) (i j : Fin 512)
  | frame (p : Process) (a : VirtualPage)
  | shared (key : Ptr)

variable {Process : Type}

def Blank (e : PageEntry) : Prop := e.V = false ∧ e.XWR = .noleaf

/-- The entry has no table below it, or one with the given role. -/
def Directory (role : Ppn → Role Process) (below : Role Process) (e : PageEntry) : Prop :=
  Blank e ∨ (e.V = true ∧ e.XWR = .noleaf ∧ e.U = false ∧ role e.ppn = below)

/-- An entry of a table of the last level, for the page `a` of process `p`. -/
def LeafEntry (role : Ppn → Role Process) (p : Process) (a : VirtualPage) (e : PageEntry) : Prop :=
  e.V = true → e.XWR ≠ .noleaf ∧ e.U = true ∧
    ((e.OSflag = .normal ∧ role e.ppn = .frame p a) ∨
      (e.OSflag = .shared ∧ ∃ key, role e.ppn = .shared key))

/-- What the tables made at boot look like. -/
structure KernelTables (boot : Memory) : Prop where
  low : ∀ i : Fin 512, i.val < 257 → kernelVm boot i = .cleared
  high : ∀ i : Fin 512, 256 ≤ i.val → (boot pgdirPage i).U = false ∧
    ((boot pgdirPage i).V = true → (boot pgdirPage i).XWR = .noleaf →
      (boot pgdirPage i).ppn = ioPage)
  window : ∀ j, (boot ioPage j).U = false ∧
    ((boot ioPage j).V = true → (boot ioPage j).XWR ≠ .noleaf)
  direct : ∀ i : Fin 512, i.val = 257 →
    (boot pgdirPage i).V = true ∧ (boot pgdirPage i).XWR ≠ .noleaf

/-- The roles describe the state.  User pages are mapped below the root
entries with an index less than `bound`. -/
structure Laid (boot : Memory) (bound : Nat) (role : Ppn → Role Process) (s : State Process) :
    Prop where
  kernel : KernelTables boot
  range : 256 ≤ bound ∧ bound ≤ 257
  owned : ∀ x, role x ≠ .unused → s.block x = .paging
  bootBlocks : s.block pgdirPage = .boot ∧ s.block ioPage = .boot
  bootTables : ∀ i, s.memory pgdirPage i = boot pgdirPage i ∧ s.memory ioPage i = boot ioPage i
  root : ∀ p d, s.pagedir p = some d → role d.root = .root p
  kernelHalf : ∀ p d, s.pagedir p = some d → ∀ i : Fin 512, bound ≤ i.val →
    s.memory d.root i = boot pgdirPage i
  userHalf : ∀ p d, s.pagedir p = some d → ∀ i : Fin 512, i.val < bound →
    Directory role (.middle p i) (s.memory d.root i)
  middle : ∀ x p i, role x = .middle p i → ∀ j, Directory role (.leaves p i j) (s.memory x j)
  leaves : ∀ x p i j, role x = .leaves p i j → ∀ k, LeafEntry role p ⟨i, j, k⟩ (s.memory x k)
  keys : (s.sharedPages.map SharedPage.key).Nodup
  shared : ∀ x key, role x = .shared key ↔ ∃ page ∈ s.sharedPages, page.kva = x ∧ page.key = key
  starts : ∀ p d, s.pagedir p = some d →
    d.sharedPageStart.toNat ≤ 2 ^ 38 + 2 ^ 30 ∧ d.sharedPageStart.toNat % 4096 = 0

variable {boot : Memory} {bound : Nat} {role : Ppn → Role Process} {s : State Process}
  {p : Process} {d : PageDir} {m m' : Memory} {r : Ppn} {a : VirtualPage} {x : Ppn}

theorem Laid.unused_of_ne (hs : Laid boot bound role s) (hx : s.block x ≠ .paging) :
    role x = .unused := by
  by_contra hne
  exact hx (hs.owned x hne)

theorem Laid.ne_of_role (hs : Laid boot bound role s) (hx : role x ≠ .unused) {y : Ppn}
    (hy : s.block y ≠ .paging) : x ≠ y := by
  rintro rfl
  exact hy (hs.owned x hx)

theorem Laid.role_pgdirPage (hs : Laid boot bound role s) : role pgdirPage = .unused := by
  apply hs.unused_of_ne
  rw [hs.bootBlocks.1]
  decide

theorem Laid.role_ioPage (hs : Laid boot bound role s) : role ioPage = .unused := by
  apply hs.unused_of_ne
  rw [hs.bootBlocks.2]
  decide

theorem cleared_blank : Blank .cleared := ⟨rfl, rfl⟩

/-- The entries that the translation of a page reads. -/
inductive Visits (m : Memory) (root : Ppn) (a : VirtualPage) : Ppn × Fin 512 → Prop
  | top : Visits m root a (root, a.vpn2)
  | middle (hv : (m root a.vpn2).V = true) (hdir : (m root a.vpn2).XWR = .noleaf) :
      Visits m root a ((m root a.vpn2).ppn, a.vpn1)
  | bottom (hv : (m root a.vpn2).V = true) (hdir : (m root a.vpn2).XWR = .noleaf)
      (hv' : (m (m root a.vpn2).ppn a.vpn1).V = true)
      (hdir' : (m (m root a.vpn2).ppn a.vpn1).XWR = .noleaf) :
      Visits m root a ((m (m root a.vpn2).ppn a.vpn1).ppn, a.vpn0)

theorem translate_congr (h : ∀ pte, Visits m r a pte → m' pte.1 pte.2 = m pte.1 pte.2) :
    translation m' r a = translation m r a := by
  have htop : m' r a.vpn2 = m r a.vpn2 := h _ .top
  unfold translation
  dsimp only
  rw [htop]
  cases hv : (m r a.vpn2).V with
  | false => rfl
  | true =>
      rcases ne_or_eq (m r a.vpn2).XWR .noleaf with hleaf | hdir
      · simp only [if_pos hleaf]
      · have hmiddle : m' (m r a.vpn2).ppn a.vpn1 = m (m r a.vpn2).ppn a.vpn1 :=
          h _ (.middle hv hdir)
        rw [hmiddle]
        cases hv' : (m (m r a.vpn2).ppn a.vpn1).V with
        | false => rfl
        | true =>
            rcases ne_or_eq (m (m r a.vpn2).ppn a.vpn1).XWR .noleaf with hleaf' | hdir'
            · simp only [if_pos hleaf']
            · rw [h _ (.bottom hv hdir hv' hdir')]

theorem translate_eq_none {pte : Ppn × Fin 512} (h : Visits m r a pte)
    (hv : (m pte.1 pte.2).V = false) : translation m r a = none := by
  unfold translation
  cases h with
  | top => simp only [hv, if_pos]
  | middle htop hdir => simp [htop, hdir, hv]
  | bottom htop hdir htop' hdir' => simp [htop, hdir, htop', hdir', hv]

/-- The table below a root entry belongs to the kernel, or to the process. -/
theorem Laid.belowRoot (hs : Laid boot bound role s) (hd : s.pagedir p = some d) {i : Fin 512}
    (hv : (s.memory d.root i).V = true) (hdir : (s.memory d.root i).XWR = .noleaf) :
    (s.memory d.root i).ppn = ioPage ∨ role (s.memory d.root i).ppn = .middle p i := by
  rcases Nat.lt_or_ge i.val bound with hlow | hhigh
  · rcases hs.userHalf p d hd i hlow with hblank | ⟨-, -, -, hrole⟩
    · rw [hblank.1] at hv
      cases hv
    · exact Or.inr hrole
  · rw [hs.kernelHalf p d hd i hhigh] at hv hdir ⊢
    exact Or.inl ((hs.kernel.high _ (hs.range.1.trans hhigh)).2 hv hdir)

theorem Laid.belowMiddle (hs : Laid boot bound role s) (hd : s.pagedir p = some d)
    (hv : (s.memory d.root a.vpn2).V = true) (hdir : (s.memory d.root a.vpn2).XWR = .noleaf)
    (hv' : (s.memory (s.memory d.root a.vpn2).ppn a.vpn1).V = true)
    (hdir' : (s.memory (s.memory d.root a.vpn2).ppn a.vpn1).XWR = .noleaf) :
    role (s.memory (s.memory d.root a.vpn2).ppn a.vpn1).ppn = .leaves p a.vpn2 a.vpn1 := by
  rcases hs.belowRoot hd hv hdir with hio | hrole
  · rw [hio, (hs.bootTables _).2] at hv' hdir'
    exact absurd hdir' ((hs.kernel.window _).2 hv')
  · rcases hs.middle _ p _ hrole a.vpn1 with hblank | ⟨-, -, -, hleaves⟩
    · rw [hblank.1] at hv'
      cases hv'
    · exact hleaves

/-- The tables that a translation goes through belong to the process, or to
the kernel. -/
theorem Laid.visits (hs : Laid boot bound role s) (hd : s.pagedir p = some d)
    {pte : Ppn × Fin 512} (h : Visits s.memory d.root a pte) :
    pte = (d.root, a.vpn2) ∨ pte.1 = ioPage ∨
      (role pte.1 = .middle p a.vpn2 ∧ pte.2 = a.vpn1) ∨
      (role pte.1 = .leaves p a.vpn2 a.vpn1 ∧ pte.2 = a.vpn0) := by
  cases h with
  | top => exact Or.inl rfl
  | middle hv hdir =>
      rcases hs.belowRoot hd hv hdir with hio | hrole
      · exact Or.inr (Or.inl hio)
      · exact Or.inr (Or.inr (Or.inl ⟨hrole, rfl⟩))
  | bottom hv hdir hv' hdir' =>
      exact Or.inr (Or.inr (Or.inr ⟨hs.belowMiddle hd hv hdir hv' hdir', rfl⟩))

theorem Laid.assign (hs : Laid boot bound role s) (hx : role x = .unused)
    (hboot : s.block x ≠ .boot) {new : Role Process} {m : Memory} {block : Ppn → Block}
    {supply : List Ppn} {pages : List SharedPage} (hself : block x = .paging)
    (hblock : ∀ y, y ≠ x → block y = s.block y) (hold : ∀ y, y ≠ x → m y = s.memory y)
    (htable : ∀ p i, new = .middle p i → ∀ j, m x j = .cleared)
    (hleaves : ∀ p i j, new = .leaves p i j → ∀ k, m x k = .cleared)
    (hkeys : (pages.map SharedPage.key).Nodup)
    (hshared : ∀ y key, Function.update role x new y = .shared key ↔
      ∃ page ∈ pages, page.kva = y ∧ page.key = key) :
    Laid boot bound (Function.update role x new)
      { s with memory := m, block := block, supply := supply, sharedPages := pages } := by
  have hne : ∀ y, role y ≠ .unused → y ≠ x := by
    rintro y hy rfl
    exact hy hx
  have hkeep : ∀ {y : Ppn} {k : Role Process}, role y = k → k ≠ .unused →
      Function.update role x new y = k := by
    intro y k hy hk
    rw [Function.update_of_ne (hne y (hy ▸ hk)), hy]
  have hdirectory : ∀ {below : Role Process} {e : PageEntry}, below ≠ .unused →
      Directory role below e → Directory (Function.update role x new) below e := by
    rintro below e hbelow (hblank | ⟨hv, hdir, hu, hrole⟩)
    · exact Or.inl hblank
    · exact Or.inr ⟨hv, hdir, hu, hkeep hrole hbelow⟩
  have hpgdir : pgdirPage ≠ x := by
    rintro rfl
    exact hboot hs.bootBlocks.1
  have hio : ioPage ≠ x := by
    rintro rfl
    exact hboot hs.bootBlocks.2
  have hroot : ∀ p d, s.pagedir p = some d → m d.root = s.memory d.root := by
    intro p d hd
    apply hold
    apply hne
    rw [hs.root p d hd]
    exact nofun
  refine ⟨hs.kernel, hs.range, ?_, ?_, ?_, ?_, ?_, ?_, ?_, ?_, hkeys, hshared, hs.starts⟩
  · intro y hy
    dsimp only
    rcases eq_or_ne y x with rfl | hyx
    · exact hself
    · rw [Function.update_of_ne hyx] at hy
      rw [hblock y hyx]
      exact hs.owned y hy
  · dsimp only
    rw [hblock _ hpgdir, hblock _ hio]
    exact hs.bootBlocks
  · intro i
    dsimp only
    rw [hold _ hpgdir, hold _ hio]
    exact hs.bootTables i
  · intro p d hd
    exact hkeep (hs.root p d hd) nofun
  · intro p d hd i hi
    dsimp only
    rw [hroot p d hd]
    exact hs.kernelHalf p d hd i hi
  · intro p d hd i hi
    dsimp only
    rw [hroot p d hd]
    exact hdirectory nofun (hs.userHalf p d hd i hi)
  · intro y p i hy j
    dsimp only
    rcases eq_or_ne y x with rfl | hyx
    · rw [Function.update_self] at hy
      rw [htable p i hy j]
      exact Or.inl cleared_blank
    · rw [Function.update_of_ne hyx] at hy
      rw [hold y hyx]
      exact hdirectory nofun (hs.middle y p i hy j)
  · intro y p i j hy k hv
    dsimp only at hv ⊢
    rcases eq_or_ne y x with rfl | hyx
    · rw [Function.update_self] at hy
      rw [hleaves p i j hy k] at hv
      cases hv
    · rw [Function.update_of_ne hyx] at hy
      rw [hold y hyx] at hv ⊢
      obtain ⟨hxwr, hu, ⟨hflag, hrole⟩ | ⟨hflag, key, hrole⟩⟩ := hs.leaves y p i j hy k hv
      · exact ⟨hxwr, hu, Or.inl ⟨hflag, hkeep hrole nofun⟩⟩
      · exact ⟨hxwr, hu, Or.inr ⟨hflag, key, hkeep hrole nofun⟩⟩

/-- A page that was free gets a role. -/
theorem Laid.allocate (hs : Laid boot bound role s) (hfree : s.block x = .free)
    {new : Role Process} (hnew : ∀ key, new ≠ .shared key) {m : Memory} {supply : List Ppn}
    (hold : ∀ y, y ≠ x → m y = s.memory y)
    (htable : ∀ p i, new = .middle p i → ∀ j, m x j = .cleared)
    (hleaves : ∀ p i j, new = .leaves p i j → ∀ k, m x k = .cleared) :
    Laid boot bound (Function.update role x new)
      { s with
        memory := m
        block := Function.update s.block x .paging
        supply := supply } := by
  have hx : role x = .unused := by
    apply hs.unused_of_ne
    rw [hfree]
    decide
  apply hs.assign hx _ (Function.update_self ..) _ hold htable hleaves hs.keys
  · intro y key
    rw [← hs.shared]
    rcases eq_or_ne y x with rfl | hyx
    · rw [Function.update_self, hx]
      exact iff_of_false (hnew key) nofun
    · rw [Function.update_of_ne hyx]
  · rw [hfree]
    decide
  · exact fun y hy => Function.update_of_ne hy ..

theorem Laid.write (hs : Laid boot bound role s) {z : Ppn} {n : Fin 512} {e : PageEntry}
    (hz : role z ≠ .unused)
    (hroot : ∀ p, role z = .root p → n.val < bound ∧ Directory role (.middle p n) e)
    (hmiddle : ∀ p i, role z = .middle p i → Directory role (.leaves p i n) e)
    (hleaves : ∀ p i j, role z = .leaves p i j → LeafEntry role p ⟨i, j, n⟩ e) :
    Laid boot bound role { s with memory := writeEntry s.memory (z, n) e } := by
  have hother : ∀ y i, (y, i) ≠ (z, n) → writeEntry s.memory (z, n) e y i = s.memory y i :=
    fun y i hne => if_neg hne
  have hself : writeEntry s.memory (z, n) e z n = e := if_pos rfl
  have hunused : ∀ y, role y = .unused → ∀ i, writeEntry s.memory (z, n) e y i = s.memory y i := by
    intro y hy i
    apply hother
    rintro ⟨⟩
    exact hz hy
  refine ⟨hs.kernel, hs.range, hs.owned, hs.bootBlocks, ?_, hs.root, ?_, ?_, ?_, ?_, hs.keys,
    hs.shared, hs.starts⟩
  · intro i
    dsimp only
    rw [hunused _ hs.role_pgdirPage, hunused _ hs.role_ioPage]
    exact hs.bootTables i
  · intro p d hd i hi
    dsimp only
    rw [hother]
    · exact hs.kernelHalf p d hd i hi
    · rintro ⟨⟩
      exact absurd (hroot p (hs.root p d hd)).1 (Nat.not_lt.mpr hi)
  · intro p d hd i hi
    dsimp only
    rcases eq_or_ne (d.root, i) (z, n) with heq | hne
    · obtain ⟨rfl, rfl⟩ := Prod.mk.inj heq
      rw [hself]
      exact (hroot p (hs.root p d hd)).2
    · rw [hother _ _ hne]
      exact hs.userHalf p d hd i hi
  · intro y p i hy j
    dsimp only
    rcases eq_or_ne (y, j) (z, n) with heq | hne
    · obtain ⟨rfl, rfl⟩ := Prod.mk.inj heq
      rw [hself]
      exact hmiddle p i hy
    · rw [hother _ _ hne]
      exact hs.middle y p i hy j
  · intro y p i j hy k
    dsimp only
    rcases eq_or_ne (y, k) (z, n) with heq | hne
    · obtain ⟨rfl, rfl⟩ := Prod.mk.inj heq
      rw [hself]
      exact hleaves p i j hy
    · rw [hother _ _ hne]
      exact hs.leaves y p i j hy k

/-- The entries of the last level that attach a shared page. -/
def attachments (role : Ppn → Role Process) (m : Memory) (x : Ppn) : Set (Ppn × Fin 512) :=
  {pte | (∃ p i j, role pte.1 = .leaves p i j) ∧ (m pte.1 pte.2).V = true ∧
    (m pte.1 pte.2).OSflag = .shared ∧ (m pte.1 pte.2).ppn = x}

/-- Pages and tables have been added, but no mapping has changed. -/
structure Grown (role : Ppn → Role Process) (s : State Process) (role' : Ppn → Role Process)
    (s' : State Process) : Prop where
  pagedir : s'.pagedir = s.pagedir
  sharedPages : s'.sharedPages = s.sharedPages
  attached : s'.attached = s.attached
  blocks : ∀ x, s.block x ≠ .free → s'.block x = s.block x ∧ role' x = role x
  entries : ∀ x i, s.block x ≠ .free → (s.memory x i).V = true → s'.memory x i = s.memory x i
  translate : ∀ p d, s.pagedir p = some d → ∀ a,
    translation s'.memory d.root a = translation s.memory d.root a
  attachments : ∀ x, attachments role' s'.memory x = attachments role s.memory x

theorem Grown.refl : Grown role s role s :=
  ⟨rfl, rfl, rfl, fun _ _ => ⟨rfl, rfl⟩, fun _ _ _ _ => rfl, fun _ _ _ _ => rfl, fun _ => rfl⟩

variable {role₁ role₂ : Ppn → Role Process} {s₁ s₂ : State Process}

theorem Grown.trans (h₁ : Grown role s role₁ s₁) (h₂ : Grown role₁ s₁ role₂ s₂) :
    Grown role s role₂ s₂ := by
  have hblock : ∀ x, s.block x ≠ .free → s₁.block x ≠ .free := by
    intro x hx
    rwa [(h₁.blocks x hx).1]
  refine ⟨h₂.pagedir.trans h₁.pagedir, h₂.sharedPages.trans h₁.sharedPages,
    h₂.attached.trans h₁.attached, ?_, ?_, ?_, ?_⟩
  · intro x hx
    obtain ⟨hblock₂, hrole₂⟩ := h₂.blocks x (hblock x hx)
    exact ⟨hblock₂.trans (h₁.blocks x hx).1, hrole₂.trans (h₁.blocks x hx).2⟩
  · intro x i hx hv
    have hkept := h₁.entries x i hx hv
    rw [h₂.entries x i (hblock x hx) (hkept ▸ hv), hkept]
  · intro p d hd a
    rw [h₂.translate p d (h₁.pagedir ▸ hd), h₁.translate p d hd]
  · exact fun x => (h₂.attachments x).trans (h₁.attachments x)

theorem Grown.role_eq (h : Grown role s role₁ s₁) (hs : Laid boot bound role s) {new : Role Process}
    (hx : role x = new) (hnew : new ≠ .unused) : role₁ x = new := by
  have hblock : s.block x = .paging := hs.owned x (hx ▸ hnew)
  rw [(h.blocks x (by rw [hblock]; decide)).2, hx]

/-- The memory after a new table has been hung below an entry. -/
def hang (m : Memory) (pte : Ppn × Fin 512) (x : Ppn) : Memory :=
  writeEntry (writePage m x fun _ => .cleared) pte (.setAsDir x)

theorem hang_self {pte : Ppn × Fin 512} : hang m pte x pte.1 pte.2 = .setAsDir x := if_pos rfl

theorem hang_new {pte : Ppn × Fin 512} (hne : pte.1 ≠ x) (i : Fin 512) :
    hang m pte x x i = .cleared := by
  unfold hang writeEntry
  rw [if_neg]
  · exact if_pos rfl
  · rintro rfl
    exact hne rfl

theorem hang_other {pte : Ppn × Fin 512} {y : Ppn} {i : Fin 512} (hne : (y, i) ≠ pte)
    (hy : y ≠ x) : hang m pte x y i = m y i := by
  unfold hang writeEntry
  rw [if_neg hne]
  exact if_neg hy

/-- The place of a table that `lookup` creates. -/
inductive Place (bound : Nat) (role : Ppn → Role Process) (s : State Process) :
    Ppn × Fin 512 → Role Process → Prop
  | root {p : Process} {d : PageDir} {n : Fin 512} (hd : s.pagedir p = some d)
      (hn : n.val < bound) : Place bound role s (d.root, n) (.middle p n)
  | middle {p : Process} {z : Ppn} {i n : Fin 512} (hz : role z = .middle p i) :
      Place bound role s (z, n) (.leaves p i n)

variable {pte : Ppn × Fin 512} {new : Role Process}

theorem Place.role_ne (hplace : Place bound role s pte new) (hs : Laid boot bound role s) :
    role pte.1 ≠ .unused ∧ ∀ p i j, role pte.1 ≠ .leaves p i j := by
  cases hplace with
  | root hd hn =>
      rw [hs.root _ _ hd]
      exact ⟨nofun, nofun⟩
  | middle hz =>
      rw [hz]
      exact ⟨nofun, nofun⟩

theorem Place.directory (hplace : Place bound role s pte new) (hs : Laid boot bound role s) :
    Directory role new (s.memory pte.1 pte.2) := by
  cases hplace with
  | root hd hn => exact hs.userHalf _ _ hd _ hn
  | middle hz => exact hs.middle _ _ _ hz _

theorem Laid.visits_ne (hs : Laid boot bound role s) (hx : s.block x = .free)
    (hd : s.pagedir p = some d) (hvisit : Visits s.memory d.root a pte) : pte.1 ≠ x := by
  have hfree : s.block x ≠ .paging := by
    rw [hx]
    decide
  rcases hs.visits hd hvisit with rfl | hio | hmiddle | hleaves
  · exact hs.ne_of_role (hs.root p d hd ▸ nofun) hfree
  · rintro rfl
    rw [hio, hs.bootBlocks.2] at hx
    cases hx
  · exact hs.ne_of_role (hmiddle.1 ▸ nofun) hfree
  · exact hs.ne_of_role (hleaves.1 ▸ nofun) hfree

theorem Laid.translate_hang (hs : Laid boot bound role s) (hplace : Place bound role s pte new)
    (hblank : (s.memory pte.1 pte.2).V = false) (hx : s.block x = .free)
    (hd : s.pagedir p = some d) (a : VirtualPage) :
    translation (hang s.memory pte x) d.root a = translation s.memory d.root a := by
  have hfree : s.block x ≠ .paging := by
    rw [hx]
    decide
  have hptex : pte.1 ≠ x := hs.ne_of_role (hplace.role_ne hs).1 hfree
  have hrootx : d.root ≠ x := by
    apply hs.ne_of_role _ hfree
    rw [hs.root p d hd]
    exact nofun
  rcases Classical.em (Visits s.memory d.root a pte) with hvisit | hnot
  · rw [translate_eq_none hvisit hblank]
    unfold translation
    cases hvisit with
    | top =>
        have hself : hang s.memory (d.root, a.vpn2) x d.root a.vpn2 = .setAsDir x := hang_self
        simp only [hself]
        simp [PageEntry.setAsDir, hang_new hptex, PageEntry.cleared]
    | middle hv hdir =>
        have hne : (d.root, a.vpn2) ≠ ((s.memory d.root a.vpn2).ppn, a.vpn1) := by
          intro heq
          have hroot := (Prod.mk.inj heq).1
          rcases hs.belowRoot hd hv hdir with hio | hrole
          · have hunused := hs.role_ioPage
            rw [← hio, ← hroot, hs.root p d hd] at hunused
            cases hunused
          · rw [← hroot, hs.root p d hd] at hrole
            cases hrole
        have hself : hang s.memory ((s.memory d.root a.vpn2).ppn, a.vpn1) x
            (s.memory d.root a.vpn2).ppn a.vpn1 = .setAsDir x := hang_self
        simp only [hang_other hne hrootx, hv, hdir, hself]
        simp [PageEntry.setAsDir, hang_new hptex, PageEntry.cleared]
    | bottom hv hdir hv' hdir' =>
        exact absurd (hs.belowMiddle hd hv hdir hv' hdir') ((hplace.role_ne hs).2 _ _ _)
  · apply translate_congr
    intro pte' hvisit
    apply hang_other
    · rintro rfl
      exact hnot hvisit
    · exact hs.visits_ne hx hd hvisit

theorem Laid.attachments_hang (hs : Laid boot bound role s) (hplace : Place bound role s pte new)
    (hx : s.block x = .free) (y : Ppn) :
    attachments (Function.update role x new) (hang s.memory pte x) y =
      attachments role s.memory y := by
  have hfree : s.block x ≠ .paging := by
    rw [hx]
    decide
  have hptex : pte.1 ≠ x := hs.ne_of_role (hplace.role_ne hs).1 hfree
  ext ⟨z, k⟩
  unfold attachments
  rcases eq_or_ne z x with rfl | hzx
  · simp [hang_new hptex, PageEntry.cleared, hs.unused_of_ne hfree]
  · rcases eq_or_ne (z, k) pte with rfl | hne
    · have hno : ¬ ∃ p i j, role z = .leaves p i j := by
        rintro ⟨p, i, j, hz⟩
        exact (hplace.role_ne hs).2 p i j hz
      simp only [Set.mem_ofPred_eq, Function.update_of_ne hzx, hno, false_and]
    · simp only [Set.mem_ofPred_eq, Function.update_of_ne hzx, hang_other hne hzx]

theorem Laid.hang (hs : Laid boot bound role s) (hplace : Place bound role s pte new)
    (hblank : (s.memory pte.1 pte.2).V = false) (hx : s.block x = .free) {supply : List Ppn} :
    let s' := { s with
      memory := hang s.memory pte x
      block := Function.update s.block x .paging
      supply := supply }
    Laid boot bound (Function.update role x new) s' ∧
      Grown role s (Function.update role x new) s' := by
  have hfree : s.block x ≠ .paging := by
    rw [hx]
    decide
  have hne := (hplace.role_ne hs).1
  have hptex : pte.1 ≠ x := hs.ne_of_role hne hfree
  have hkeep : Function.update role x new pte.1 = role pte.1 := Function.update_of_ne hptex ..
  have hdir : Directory (Function.update role x new) new (.setAsDir x) :=
    Or.inr ⟨rfl, rfl, rfl, Function.update_self ..⟩
  constructor
  · have hallocated : Laid boot bound (Function.update role x new) { s with
        memory := writePage s.memory x fun _ => .cleared
        block := Function.update s.block x .paging
        supply := supply } := by
      apply hs.allocate hx
      · cases hplace with
        | root hd hn => exact nofun
        | middle hz => exact nofun
      · intro y hy
        funext i
        exact if_neg hy
      · exact fun _ _ _ _ => if_pos rfl
      · exact fun _ _ _ _ _ => if_pos rfl
    apply hallocated.write
    · rw [hkeep]
      exact hne
    · intro p hp
      rw [hkeep] at hp
      cases hplace with
      | root hd hn =>
          rw [hs.root _ _ hd] at hp
          cases hp
          exact ⟨hn, hdir⟩
      | middle hz =>
          rw [hz] at hp
          cases hp
    · intro p i hp
      rw [hkeep] at hp
      cases hplace with
      | root hd hn =>
          rw [hs.root _ _ hd] at hp
          cases hp
      | middle hz =>
          rw [hz] at hp
          cases hp
          exact hdir
    · intro p i j hp
      rw [hkeep] at hp
      exact absurd hp ((hplace.role_ne hs).2 p i j)
  · refine ⟨rfl, rfl, rfl, ?_, ?_, fun p d hd a => hs.translate_hang hplace hblank hx hd a,
      hs.attachments_hang hplace hx⟩
    · intro y hy
      have hyx : y ≠ x := by
        rintro rfl
        exact hy hx
      exact ⟨Function.update_of_ne hyx .., Function.update_of_ne hyx ..⟩
    · intro y i hy hv
      apply hang_other
      · rintro rfl
        rw [hblank] at hv
        cases hv
      · rintro rfl
        exact hy hx

theorem Laid.take (hs : Laid boot bound role s) (hx : s.block x = .free) {new : Role Process}
    (hnew : new = .unused ∨ ∃ p a, new = .frame p a) (supply : List Ppn) :
    let s' := { s with supply := supply, block := Function.update s.block x .paging }
    Laid boot bound (Function.update role x new) s' ∧
      Grown role s (Function.update role x new) s' := by
  have hrole : role x = .unused := by
    apply hs.unused_of_ne
    rw [hx]
    decide
  constructor
  · apply hs.allocate hx
    · rcases hnew with rfl | ⟨p, a, rfl⟩
      · exact nofun
      · exact nofun
    · exact fun _ _ => rfl
    · rcases hnew with rfl | ⟨p, a, rfl⟩
      · exact nofun
      · exact nofun
    · rcases hnew with rfl | ⟨p, a, rfl⟩
      · exact nofun
      · exact nofun
  · refine ⟨rfl, rfl, rfl, ?_, fun _ _ _ _ => rfl, fun _ _ _ _ => rfl, ?_⟩
    · intro z hz
      have hne : z ≠ x := by
        rintro rfl
        exact hz hx
      exact ⟨Function.update_of_ne hne .., Function.update_of_ne hne ..⟩
    · intro z
      ext ⟨w, k⟩
      unfold attachments
      rcases eq_or_ne w x with rfl | hne
      · rcases hnew with rfl | ⟨p, a, rfl⟩
        · simp [hrole]
        · simp [hrole]
      · simp only [Set.mem_ofPred_eq, Function.update_of_ne hne]

/-- Nothing is said about calls that stop. -/
def Any (_ : Stop) (_ : State Process) : Prop := True

theorem runs_kalloc {Q : Ppn → State Process → Prop}
    (h : ∀ page rest, s.block page = .free →
      Q page { s with supply := rest, block := Function.update s.block page .paging }) :
    Runs kalloc s Any Q := by
  unfold kalloc
  apply runs_bind
  apply runs_getState
  cases hsupply : s.supply with
  | nil => exact runs_fail trivial
  | cons page rest =>
      dsimp only
      split
      · next hfree => exact h page rest hfree
      · exact runs_fail trivial

theorem runs_load {E : Stop → State Process → Prop} {Q : PageEntry → State Process → Prop}
    (h : Q (s.memory pte.1 pte.2) s) : Runs (load pte) s E Q := h

theorem runs_kassert {b : Bool} {Q : Unit → State Process → Prop} (h : b = true → Q () s) :
    Runs (kassert b) s Any Q := by
  unfold kassert
  split
  · next hb => exact h hb
  · exact runs_fail trivial

theorem runs_pagedirOf {Q : PageDir → State Process → Prop}
    (h : ∀ d, s.pagedir p = some d → Q d s) : Runs (pagedirOf p) s Any Q := by
  unfold pagedirOf
  apply runs_bind
  apply runs_getState
  cases hd : s.pagedir p with
  | none => exact runs_fail trivial
  | some d => exact h d hd

/-- The entry at `pte` leads to the table `x`. -/
def LeadsTo (m : Memory) (pte : Ppn × Fin 512) (x : Ppn) : Prop :=
  (m pte.1 pte.2).V = true ∧ (m pte.1 pte.2).XWR = .noleaf ∧ (m pte.1 pte.2).ppn = x

theorem runs_nextTable (hs : Laid boot bound role s) (hplace : Place bound role s pte new) :
    Runs (nextTable pte) s Any fun table s' =>
      ∃ role', Laid boot bound role' s' ∧ Grown role s role' s' ∧ role' table = new ∧
        LeadsTo s'.memory pte table := by
  unfold nextTable
  apply runs_bind
  apply runs_load
  rcases hplace.directory hs with hblank | ⟨hv, hdir, -, hrole⟩
  · rw [if_pos hblank.1]
    apply runs_bind
    apply runs_kalloc
    intro page rest hfree
    obtain ⟨hlaid, hgrown⟩ := hs.hang hplace hblank.1 hfree
    have hself : AddressSpace.hang s.memory pte page pte.1 pte.2 = .setAsDir page := hang_self
    refine ⟨_, hlaid, hgrown, ?_, ?_⟩
    · change Function.update role page new
        (AddressSpace.hang s.memory pte page pte.1 pte.2).ppn = new
      rw [hself]
      exact Function.update_self ..
    · change LeadsTo (AddressSpace.hang s.memory pte page) pte
        (AddressSpace.hang s.memory pte page pte.1 pte.2).ppn
      unfold LeadsTo
      rw [hself]
      exact ⟨rfl, rfl, rfl⟩
  · rw [if_neg (by rw [hv]; decide)]
    exact ⟨role, hs, Grown.refl, hrole, hv, hdir, rfl⟩

/-- The table of the last level that maps a page. -/
structure Reaches (m : Memory) (root : Ppn) (a : VirtualPage) (y : Ppn) : Prop where
  middle : LeadsTo m (root, a.vpn2) (m root a.vpn2).ppn
  bottom : LeadsTo m ((m root a.vpn2).ppn, a.vpn1) y

theorem Grown.leadsTo (h : Grown role s role₁ s₁) (hx : s.block pte.1 ≠ .free)
    (hleads : LeadsTo s.memory pte x) : LeadsTo s₁.memory pte x := by
  unfold LeadsTo
  rw [h.entries pte.1 pte.2 hx hleads.1]
  exact hleads

theorem runs_lookup (hs : Laid boot bound role s) (hd : s.pagedir p = some d) {va : Ptr}
    (hva : (getVpn va 2).val < bound) :
    Runs (lookup d va) s Any fun pte s' =>
      ∃ role', Laid boot bound role' s' ∧ Grown role s role' s' ∧
        pte.2 = getVpn va 0 ∧ role' pte.1 = .leaves p (getVpn va 2) (getVpn va 1) ∧
        Reaches s'.memory d.root (pageOf va) pte.1 := by
  unfold lookup
  apply runs_bind
  apply runs_load
  have hnoleaf : (s.memory d.root (getVpn va 2)).XWR = .noleaf := by
    rcases hs.userHalf p d hd _ hva with hblank | ⟨-, hdir, -⟩
    · exact hblank.2
    · exact hdir
  rw [if_neg (not_not.mpr hnoleaf)]
  apply (runs_nextTable hs (.root hd hva)).bind
  rintro table s₁ ⟨role₁, hs₁, hgrown₁, htable, hleads₁⟩
  apply runs_bind
  apply runs_load
  have hnoleaf₁ : (s₁.memory table (getVpn va 1)).XWR = .noleaf := by
    rcases hs₁.middle table p _ htable (getVpn va 1) with hblank | ⟨-, hdir, -⟩
    · exact hblank.2
    · exact hdir
  rw [if_neg (not_not.mpr hnoleaf₁)]
  apply (runs_nextTable hs₁ (.middle htable)).bind
  rintro bottom s₂ ⟨role₂, hs₂, hgrown₂, hbottom, hleads₂⟩
  have hroot : s₁.block d.root ≠ .free := by
    rw [hs₁.owned]
    · decide
    · rw [hs₁.root p d (hgrown₁.pagedir ▸ hd)]
      exact nofun
  have hkept := hgrown₂.leadsTo hroot hleads₁
  refine ⟨role₂, hs₂, hgrown₁.trans hgrown₂, rfl, hbottom, ⟨hkept.1, hkept.2.1, rfl⟩, ?_⟩
  change LeadsTo s₂.memory ((s₂.memory d.root (getVpn va 2)).ppn, getVpn va 1) bottom
  rw [hkept.2.2]
  exact hleads₂

variable {p' : Process} {a' : VirtualPage} {e : PageEntry} {y : Ppn}

theorem Reaches.translate (h : Reaches m r a y) :
    translation m r a =
      if (m y a.vpn0).V = false ∨ (m y a.vpn0).XWR = .noleaf then none
      else some (m y a.vpn0, (m y a.vpn0).ppn) := by
  obtain ⟨⟨hv, hdir, -⟩, hv', hdir', hy⟩ := h
  unfold PageTable.translation
  dsimp only at *
  simp [hv, hdir, hv', hdir', hy]

/-- Changing an entry of the last level leaves every other page as it is. -/
theorem Laid.translate_writeEntry (hs : Laid boot bound role s)
    (hy : role y = .leaves p a.vpn2 a.vpn1) (hd : s.pagedir p' = some d)
    (hne : ¬(p' = p ∧ a' = a)) :
    translation (writeEntry s.memory (y, a.vpn0) e) d.root a' = translation s.memory d.root a' := by
  apply translate_congr
  intro pte hvisit
  obtain ⟨z, k⟩ := pte
  apply if_neg
  rintro ⟨⟩
  rcases hs.visits hd hvisit with heq | hio | ⟨hmiddle, -⟩ | ⟨hleaves, hvpn⟩
  · rw [(Prod.mk.inj heq).1, hs.root _ _ hd] at hy
    cases hy
  · dsimp only at hio
    rw [hio, hs.role_ioPage] at hy
    cases hy
  · rw [hy] at hmiddle
    cases hmiddle
  · rw [hy] at hleaves
    injection hleaves with hp hi hj
    apply hne
    refine ⟨hp.symm, ?_⟩
    cases a
    cases a'
    dsimp only at *
    rw [hi, hj, hvpn]

/-- The walk to a table of the last level does not read such tables. -/
theorem Laid.reaches_writeEntry (hs : Laid boot bound role s) (hd : s.pagedir p = some d)
    {q : Process} {i j : Fin 512} {z : Ppn} (hz : role z = .leaves q i j)
    (h : Reaches s.memory d.root a y) (k : Fin 512) :
    Reaches (writeEntry s.memory (z, k) e) d.root a y := by
  have hroot : ∀ n, writeEntry s.memory (z, k) e d.root n = s.memory d.root n := by
    intro n
    apply if_neg
    rintro ⟨⟩
    rw [hs.root p d hd] at hz
    cases hz
  have hmiddle : ∀ n, writeEntry s.memory (z, k) e (s.memory d.root a.vpn2).ppn n =
      s.memory (s.memory d.root a.vpn2).ppn n := by
    intro n
    apply if_neg
    intro heq
    have heq := (Prod.mk.inj heq).1
    rcases hs.belowRoot hd h.middle.1 h.middle.2.1 with hio | hrole
    · rw [← heq, hio, hs.role_ioPage] at hz
      cases hz
    · rw [heq, hz] at hrole
      cases hrole
  obtain ⟨hfirst, hsecond⟩ := h
  constructor
  · unfold LeadsTo at hfirst ⊢
    dsimp only at hfirst ⊢
    rw [hroot]
    exact hfirst
  · unfold LeadsTo at hsecond ⊢
    dsimp only at hsecond ⊢
    rw [hroot, hmiddle]
    exact hsecond

theorem Laid.writeLeaf (hs : Laid boot bound role s) (hy : role y = .leaves p a.vpn2 a.vpn1)
    (he : LeafEntry role p a e) :
    Laid boot bound role { s with memory := writeEntry s.memory (y, a.vpn0) e } := by
  apply hs.write
  · rw [hy]
    exact nofun
  · intro q hq
    rw [hy] at hq
    cases hq
  · intro q i hq
    rw [hy] at hq
    cases hq
  · intro q i j hq
    rw [hy] at hq
    cases hq
    exact he

/-- Every mapping that is open to the user comes from an entry of the last
level. -/
theorem Laid.userLeaf (hs : Laid boot bound role s) (hd : s.pagedir p = some d)
    (htranslate : translation s.memory d.root a = some (e, x)) (hu : e.U = true) :
    ∃ y, a.vpn2.val < bound ∧ Reaches s.memory d.root a y ∧ role y = .leaves p a.vpn2 a.vpn1 ∧
      s.memory y a.vpn0 = e ∧ e.V = true ∧ e.ppn = x := by
  unfold PageTable.translation at htranslate
  dsimp only at htranslate
  obtain ⟨hv, htranslate⟩ := Option.ite_none_left_eq_some.mp htranslate
  have hv := Bool.eq_true_of_not_eq_false hv
  split at htranslate
  · next hleaf =>
      exfalso
      rcases Nat.lt_or_ge a.vpn2.val bound with hlow | hhigh
      · rcases hs.userHalf p d hd a.vpn2 hlow with hblank | ⟨-, hdir, -⟩
        · exact hleaf hblank.2
        · exact hleaf hdir
      · cases htranslate
        rw [hs.kernelHalf p d hd _ hhigh,
          (hs.kernel.high _ (hs.range.1.trans hhigh)).1] at hu
        cases hu
  · next hdir =>
      have hdir := not_not.mp hdir
      obtain ⟨hv', htranslate⟩ := Option.ite_none_left_eq_some.mp htranslate
      have hv' := Bool.eq_true_of_not_eq_false hv'
      split at htranslate
      · next hleaf =>
          exfalso
          rcases hs.belowRoot hd hv hdir with hio | hrole
          · cases htranslate
            rw [hio, (hs.bootTables _).2, (hs.kernel.window _).1] at hu
            cases hu
          · rcases hs.middle _ p _ hrole a.vpn1 with hblank | ⟨-, hdir', -⟩
            · exact hleaf hblank.2
            · exact hleaf hdir'
      · next hdir' =>
          have hdir' := not_not.mp hdir'
          obtain ⟨hvalid, htranslate⟩ := Option.ite_none_left_eq_some.mp htranslate
          cases htranslate
          refine ⟨_, ?_, ⟨⟨hv, hdir, rfl⟩, hv', hdir', rfl⟩,
            hs.belowMiddle hd hv hdir hv' hdir', rfl, Bool.eq_true_of_not_eq_false fun h => hvalid (Or.inl h), rfl⟩
          by_contra hhigh
          have hhigh := Nat.not_lt.mp hhigh
          have htop := hs.kernelHalf p d hd _ hhigh
          have hio := (hs.kernel.high _ (hs.range.1.trans hhigh)).2 (htop ▸ hv) (htop ▸ hdir)
          rw [htop, hio, (hs.bootTables _).2] at hv' hdir'
          exact (hs.kernel.window _).2 hv' hdir'

theorem attachments_write_shared (hy : role y = .leaves p a.vpn2 a.vpn1) (hv : e.V = true)
    (hflag : e.OSflag = .shared) :
    attachments role (writeEntry m (y, a.vpn0) e) e.ppn =
      insert (y, a.vpn0) (attachments role m e.ppn) := by
  ext ⟨z, k⟩
  unfold attachments writeEntry
  rcases eq_or_ne (z, k) (y, a.vpn0) with heq | hne
  · cases heq
    simp [hv, hflag, hy]
  · simp [hne]

theorem attachments_write_other (hx : ¬(e.V = true ∧ e.OSflag = .shared ∧ e.ppn = x)) :
    attachments role (writeEntry m (y, a.vpn0) e) x =
      attachments role m x \ {(y, a.vpn0)} := by
  ext ⟨z, k⟩
  unfold attachments writeEntry
  rcases eq_or_ne (z, k) (y, a.vpn0) with heq | hne
  · cases heq
    simpa using fun _ _ _ _ hv hflag happn => hx ⟨hv, hflag, happn⟩
  · simp [hne]

theorem mem_updateFirst {α : Type} {P : α → Bool} {f : α → Option α} {l : List α} {b : α}
    (hunique : l.Pairwise fun a a' => P a = true → P a' = false) :
    b ∈ updateFirst P f l ↔ (b ∈ l ∧ P b = false) ∨ ∃ a ∈ l, P a = true ∧ f a = some b := by
  induction l with
  | nil => simp [updateFirst]
  | cons a rest ih =>
      obtain ⟨hfirst, hrest⟩ := List.pairwise_cons.mp hunique
      unfold updateFirst
      split
      · next ha =>
          have hnone : ∀ c ∈ rest, P c = false := fun c hc => hfirst c hc ha
          simp only [List.mem_append, Option.mem_toList, List.mem_cons]
          constructor
          · rintro (hb | hb)
            · exact Or.inr ⟨a, Or.inl rfl, ha, hb⟩
            · exact Or.inl ⟨Or.inr hb, hnone b hb⟩
          · rintro (⟨rfl | hb, hfalse⟩ | ⟨c, rfl | hc, hp, hf⟩)
            · rw [ha] at hfalse
              cases hfalse
            · exact Or.inr hb
            · exact Or.inl hf
            · rw [hnone c hc] at hp
              cases hp
      · next ha =>
          rw [List.mem_cons, ih hrest]
          constructor
          · rintro (rfl | ⟨hb, hfalse⟩ | ⟨c, hc, hp, hf⟩)
            · exact Or.inl ⟨List.mem_cons_self, Bool.eq_false_of_not_eq_true ha⟩
            · exact Or.inl ⟨List.mem_cons_of_mem a hb, hfalse⟩
            · exact Or.inr ⟨c, List.mem_cons_of_mem a hc, hp, hf⟩
          · rintro (⟨hb, hfalse⟩ | ⟨c, hc, hp, hf⟩)
            · rcases List.mem_cons.mp hb with rfl | hb
              · exact Or.inl rfl
              · exact Or.inr (Or.inl ⟨hb, hfalse⟩)
            · rcases List.mem_cons.mp hc with rfl | hc
              · exact absurd hp ha
              · exact Or.inr (Or.inr ⟨c, hc, hp, hf⟩)

theorem updateFirst_map_sublist {α β : Type} {P : α → Bool} {f : α → Option α} {g : α → β}
    (hf : ∀ a b, f a = some b → g b = g a) (l : List α) :
    ((updateFirst P f l).map g).Sublist (l.map g) := by
  induction l with
  | nil => exact List.Sublist.slnil
  | cons a rest ih =>
      unfold updateFirst
      split
      · rw [List.map_append, List.map_cons]
        cases hb : f a with
        | none => exact List.sublist_cons_self ..
        | some b =>
            rw [← hf a b hb]
            exact List.Sublist.refl _
      · exact ih.cons_cons _

theorem Laid.role_kva (hs : Laid boot bound role s) {page : SharedPage}
    (hpage : page ∈ s.sharedPages) : role page.kva = .shared page.key :=
  (hs.shared _ _).mpr ⟨page, hpage, rfl, rfl⟩

theorem Laid.eq_of_kva (hs : Laid boot bound role s) {page page' : SharedPage}
    (hpage : page ∈ s.sharedPages) (hpage' : page' ∈ s.sharedPages) (heq : page.kva = page'.kva) :
    page = page' := by
  have hrole := hs.role_kva hpage
  rw [heq, hs.role_kva hpage'] at hrole
  injection hrole with hkey
  exact List.inj_on_of_nodup_map hs.keys hpage hpage' hkey.symm

theorem Laid.kva_eq (hs : Laid boot bound role s) {page : SharedPage} {key : Ptr}
    (hpage : page ∈ s.sharedPages) (hkey : page.key = key) (hx : role x = .shared key) :
    page.kva = x := by
  obtain ⟨page', hpage', rfl, hkey'⟩ := (hs.shared x key).mp hx
  rw [List.inj_on_of_nodup_map hs.keys hpage hpage' (hkey.trans hkey'.symm)]

theorem Laid.pairwise (hs : Laid boot bound role s) :
    s.sharedPages.Pairwise fun page page' => page.key ≠ page'.key ∧ page.kva ≠ page'.kva := by
  have hkeys : s.sharedPages.Pairwise fun page page' => page.key ≠ page'.key :=
    List.pairwise_map.mp hs.keys
  apply List.Pairwise.imp_of_mem _ hkeys
  intro page page' hpage hpage' hne
  exact ⟨hne, fun heq => hne (hs.eq_of_kva hpage hpage' heq ▸ rfl)⟩

theorem Laid.unique_key (hs : Laid boot bound role s) (key : Ptr) :
    s.sharedPages.Pairwise fun page page' =>
      (page.key == key) = true → (page'.key == key) = false := by
  apply hs.pairwise.imp
  intro page page' hne heq
  rw [beq_iff_eq] at heq
  rw [beq_eq_false_iff_ne, ← heq]
  exact hne.1.symm

theorem Laid.setAttached (hs : Laid boot bound role s)
    {attached : Process → VirtualPage → Option (BitVec 32)} :
    Laid boot bound role { s with attached := attached } :=
  ⟨hs.kernel, hs.range, hs.owned, hs.bootBlocks, hs.bootTables, hs.root, hs.kernelHalf,
    hs.userHalf, hs.middle, hs.leaves, hs.keys, hs.shared, hs.starts⟩

/-- A list with the same keys and pages. -/
theorem Laid.recount (hs : Laid boot bound role s) {pages : List SharedPage}
    (hkeys : (pages.map SharedPage.key).Nodup)
    (hmem : ∀ x key, (∃ page ∈ pages, page.kva = x ∧ page.key = key) ↔
      ∃ page ∈ s.sharedPages, page.kva = x ∧ page.key = key) :
    Laid boot bound role { s with sharedPages := pages } :=
  ⟨hs.kernel, hs.range, hs.owned, hs.bootBlocks, hs.bootTables, hs.root, hs.kernelHalf,
    hs.userHalf, hs.middle, hs.leaves, hkeys,
    fun x key => (hs.shared x key).trans (hmem x key).symm, hs.starts⟩

theorem Laid.push (hs : Laid boot bound role s) (hx : role x = .unused)
    (hblock : s.block x = .paging) {key : Ptr} (hkey : ∀ page ∈ s.sharedPages, page.key ≠ key)
    (cnt : BitVec 64) :
    Laid boot bound (Function.update role x (.shared key))
      { s with sharedPages := s.sharedPages ++ [⟨key, x, cnt⟩] } := by
  refine hs.assign hx ?_ hblock (fun _ _ => rfl) (fun _ _ => rfl) ?_ ?_ ?_ ?_
  · rw [hblock]
    decide
  · exact nofun
  · exact nofun
  · rw [List.map_append]
    have hnot : key ∉ s.sharedPages.map SharedPage.key := by
      intro hmem
      obtain ⟨page, hpage, heq⟩ := List.mem_map.mp hmem
      exact hkey page hpage heq
    simpa using hs.keys.concat hnot
  · intro y key'
    simp only [List.mem_append, List.mem_singleton, or_and_right, exists_or, exists_eq_left]
    rw [← hs.shared]
    rcases eq_or_ne y x with rfl | hyx
    · simp [hx]
    · simp [Function.update_of_ne hyx, hyx.symm]

/-- A page to which nothing points any more is freed. -/
theorem Laid.release (hs : Laid boot bound role s) (hx : role x ≠ .unused)
    (hmiddle : ∀ p i, role x ≠ .middle p i) (hleaves : ∀ p i j, role x ≠ .leaves p i j)
    (hleaf : ∀ y p i j, role y = .leaves p i j → ∀ k, (s.memory y k).V = true →
      (s.memory y k).ppn ≠ x)
    {pagedir : Process → Option PageDir} {pages : List SharedPage}
    (hpagedir : ∀ p d, pagedir p = some d → s.pagedir p = some d ∧ d.root ≠ x)
    (hkeys : (pages.map SharedPage.key).Nodup)
    (hshared : ∀ y key, Function.update role x .unused y = .shared key ↔
      ∃ page ∈ pages, page.kva = y ∧ page.key = key) :
    Laid boot bound (Function.update role x .unused)
      { s with
        block := Function.update s.block x .free
        pagedir := pagedir
        sharedPages := pages } := by
  have hpgdir : pgdirPage ≠ x := by
    rintro rfl
    exact hx hs.role_pgdirPage
  have hio : ioPage ≠ x := by
    rintro rfl
    exact hx hs.role_ioPage
  have hold : ∀ {y : Ppn} {r : Role Process}, Function.update role x .unused y = r → r ≠ .unused →
      y ≠ x ∧ role y = r := by
    intro y r hy hr
    rcases eq_or_ne y x with rfl | hne
    · rw [Function.update_self] at hy
      exact absurd hy.symm hr
    · rw [Function.update_of_ne hne] at hy
      exact ⟨hne, hy⟩
  have hdirectory : ∀ {below : Role Process} {e : PageEntry}, role x ≠ below →
      Directory role below e → Directory (Function.update role x .unused) below e := by
    rintro below e hbelow (hblank | ⟨hv, hdir, hu, hrole⟩)
    · exact Or.inl hblank
    · refine Or.inr ⟨hv, hdir, hu, ?_⟩
      rw [Function.update_of_ne, hrole]
      intro heq
      exact hbelow (heq ▸ hrole)
  refine ⟨hs.kernel, hs.range, ?_, ?_, hs.bootTables, ?_, ?_, ?_, ?_, ?_, hkeys, hshared, ?_⟩
  · intro y hy
    obtain ⟨hne, hrole⟩ := hold rfl hy
    dsimp only
    rw [Function.update_of_ne hne]
    exact hs.owned y (hrole ▸ hy)
  · dsimp only
    rw [Function.update_of_ne hpgdir, Function.update_of_ne hio]
    exact hs.bootBlocks
  · intro p d hd
    obtain ⟨hd, hne⟩ := hpagedir p d hd
    rw [Function.update_of_ne hne]
    exact hs.root p d hd
  · intro p d hd
    exact hs.kernelHalf p d (hpagedir p d hd).1
  · intro p d hd i hi
    exact hdirectory (hmiddle p i) (hs.userHalf p d (hpagedir p d hd).1 i hi)
  · intro y p i hy j
    exact hdirectory (hleaves p i j) (hs.middle y p i (hold hy nofun).2 j)
  · intro y p i j hy k hv
    obtain ⟨-, hrole⟩ := hold hy nofun
    have hne := hleaf y p i j hrole k hv
    rw [Function.update_of_ne hne]
    exact hs.leaves y p i j hrole k hv
  · intro p d hd
    exact hs.starts p d (hpagedir p d hd).1

/-- A process gets a page directory, or another content of its own. -/
theorem Laid.setPagedir [DecidableEq Process] (hs : Laid boot bound role s)
    (hroot : role d.root = .root p)
    (hkernel : ∀ i : Fin 512, bound ≤ i.val → s.memory d.root i = boot pgdirPage i)
    (huser : ∀ i : Fin 512, i.val < bound → Directory role (.middle p i) (s.memory d.root i))
    (hstart : d.sharedPageStart.toNat ≤ 2 ^ 38 + 2 ^ 30 ∧ d.sharedPageStart.toNat % 4096 = 0)
    {created : Process → Bool} :
    Laid boot bound role
      { s with created := created, pagedir := Function.update s.pagedir p (some d) } := by
  have hcases : ∀ {q : Process} {d' : PageDir},
      Function.update s.pagedir p (some d) q = some d' →
        (q = p ∧ d' = d) ∨ s.pagedir q = some d' := by
    intro q d' hd
    rcases eq_or_ne q p with rfl | hne
    · rw [Function.update_self] at hd
      exact Or.inl ⟨rfl, (Option.some.inj hd).symm⟩
    · rw [Function.update_of_ne hne] at hd
      exact Or.inr hd
  refine ⟨hs.kernel, hs.range, hs.owned, hs.bootBlocks, hs.bootTables, ?_, ?_, ?_, hs.middle,
    hs.leaves, hs.keys, hs.shared, ?_⟩
  · intro q d' hd
    rcases hcases hd with ⟨rfl, rfl⟩ | hd
    · exact hroot
    · exact hs.root q d' hd
  · intro q d' hd
    rcases hcases hd with ⟨rfl, rfl⟩ | hd
    · exact hkernel
    · exact hs.kernelHalf q d' hd
  · intro q d' hd
    rcases hcases hd with ⟨rfl, rfl⟩ | hd
    · exact huser
    · exact hs.userHalf q d' hd
  · intro q d' hd
    rcases hcases hd with ⟨rfl, rfl⟩ | hd
    · exact hstart
    · exact hs.starts q d' hd

end LabKernel.AddressSpace
