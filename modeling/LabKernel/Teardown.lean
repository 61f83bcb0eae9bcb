import LabKernel.PageUpdates

/-!
Which pages `free_user_private_mem` gives back (`freeUserRecur` of `page.cpp`),
for the page directories that the operations of `PageDir` lead to.
-/

namespace LabKernel.Teardown

open LabKernel.AddressSpace
open LabKernel.PageTable
open LabKernel.PageUpdates
open LabKernel.ProgramLogic
open LabKernel.TransitionSystem

/-- The calls of `kfree` in one round of the loop of `freeUserRecur`; there are
none when the assertion fails. -/
def entryFreed (recur : Ppn → Option (List Ppn)) (e : PageEntry) : Option (List Ppn) :=
  if e.V ∧ e.U ∧ e.XWR = .noleaf then recur e.ppn
  else if e.V ∧ e.U ∧ e.OSflag = .normal then some [e.ppn]
  else if !e.V || !e.U then some []
  else none

/-- The calls of `kfree` in the rounds for the given entries. -/
def entriesFreed (recur : Ppn → Option (List Ppn)) : List PageEntry → Option (List Ppn)
  | [] => some []
  | e :: rest =>
      (entryFreed recur e).bind fun l => (entriesFreed recur rest).map fun l' => l ++ l'

/-- The calls of `kfree` in `freeUserRecur`, in their order. -/
def freed (m : Memory) : Nat → Ppn → Option (List Ppn)
  | 0, _ => none
  | depth + 1, pdir =>
      (entriesFreed (freed m depth) (entryIndices.map (m pdir))).map fun l => l ++ [pdir]

/-- The heap after calls of `kfree`. -/
def released (block : Ppn → Block) (l : List Ppn) : Ppn → Block :=
  l.foldl (fun block page => Function.update block page .free) block

/-- The tables that `lookup` has allocated for user addresses. -/
inductive Table (m : Memory) (root : Ppn) : Ppn → Prop
  | middle {i : Fin 512} : i.val < 256 → (m root i).V = true → (m root i).XWR = .noleaf →
      Table m root (m root i).ppn
  | leaves {i j : Fin 512} : i.val < 256 → (m root i).V = true → (m root i).XWR = .noleaf →
      (m (m root i).ppn j).V = true → (m (m root i).ppn j).XWR = .noleaf →
      Table m root (m (m root i).ppn j).ppn

/-- A private page of the process that is mapped. -/
def Private (m : Memory) (root x : Ppn) : Prop :=
  ∃ a e, translation m root a = some (e, x) ∧ e.U = true ∧ e.OSflag = .normal

/-- What the directory owns. -/
def Owns (m : Memory) (root x : Ppn) : Prop := x = root ∨ Table m root x ∨ Private m root x

/-- `free_user_private_mem` ends, gives back every page of the directory once
and no other page. -/
def TearsDown {Process : Type} (s : State Process) (root : Ppn) : Prop :=
  ∃ l, (freeUserRecur 3 root).run s = (.ok (), { s with block := released s.block l }) ∧
    freed s.memory 3 root = some l ∧ (∀ x, Owns s.memory root x → l.count x = 1) ∧
      ∀ x ∈ l, Owns s.memory root x

inductive Call
  | allocPageForVa (va : Ptr)
  | attachSharedPage (kva : Ppn)
  | freeSharedPage (va : Ptr)

/-- A call with the pages that `kalloc` may return during it. -/
structure Action where
  call : Call
  supply : List Ppn

/-- A call on a user address that returns. -/
def next {Process : Type} (s : Machine Process) (a : Action) : Option (Machine Process) :=
  match a.call with
  | .allocPageForVa va =>
      if va.toNat < 2 ^ 38 then
        returned s.dir ((allocPageForVa s.dir va).run (s.supplied a.supply))
      else none
  | .attachSharedPage kva =>
      if s.dir.sharedPageStart.toNat < 2 ^ 38 then
        returned { s.dir with sharedPageStart := s.dir.sharedPageStart + 4096 }
          ((mapVaKva s.dir s.dir.sharedPageStart kva .shared).run (s.supplied a.supply))
      else none
  | .freeSharedPage va =>
      if va.toNat < 2 ^ 38 then
        returned s.dir ((freeSharedPage s.dir va).run (s.supplied a.supply))
      else none

variable {Process : Type} {boot : Memory} {node : Ppn → Option Node} {s s' : State Process}
  {d : PageDir} {va : Ptr} {root x : Ppn} {l : List Ppn} {ioremaps : List (Ptr × Ptr)}
  {m m' : Machine Process}

theorem released_append (block : Ppn → Block) (l l' : List Ppn) :
    released block (l ++ l') = released (released block l) l' :=
  List.foldl_append

/-- The recursion makes the calls listed for it, whatever the heap. -/
def Frees (recur : Ppn → Kernel Process Unit) (listed : Ppn → Option (List Ppn)) (m : Memory) :
    Prop :=
  ∀ x l, listed x = some l → ∀ s : State Process, s.memory = m →
    (recur x).run s = (.ok (), { s with block := released s.block l })

theorem run_freeEntry {recur : Ppn → Kernel Process Unit} {listed : Ppn → Option (List Ppn)}
    (hrecur : Frees recur listed s.memory) (pdir : Ppn) (i : Fin 512)
    (hl : entryFreed listed (s.memory pdir i) = some l) :
    (freeEntry recur pdir i).run s = (.ok (), { s with block := released s.block l }) := by
  have hload : (load (pdir, i)).run s = (.ok (s.memory pdir i), s) := rfl
  unfold freeEntry
  rw [run_bind_ok hload]
  unfold entryFreed at hl
  split at hl
  next hdir =>
    rw [if_pos hdir]
    exact hrecur _ l hl s rfl
  next hdir =>
    rw [if_neg hdir]
    split at hl
    next hpage =>
      rw [if_pos hpage]
      cases hl
      rfl
    next hpage =>
      rw [if_neg hpage]
      split at hl
      next hassert =>
        cases hl
        rw [hassert]
        rfl
      next => cases hl

theorem run_forEach {recur : Ppn → Kernel Process Unit} {listed : Ppn → Option (List Ppn)}
    (hrecur : Frees recur listed s.memory) (pdir : Ppn) (indices : List (Fin 512))
    (hl : entriesFreed listed (indices.map (s.memory pdir)) = some l) :
    (forEach (freeEntry recur pdir) indices).run s =
      (.ok (), { s with block := released s.block l }) := by
  induction indices generalizing s l with
  | nil =>
      cases hl
      rfl
  | cons i rest ih =>
      obtain ⟨l₁, hl₁, hrest⟩ := Option.bind_eq_some_iff.mp hl
      obtain ⟨l₂, hl₂, rfl⟩ := Option.map_eq_some_iff.mp hrest
      rw [forEach, run_bind_ok (run_freeEntry hrecur pdir i hl₁), released_append]
      exact ih (s := { s with block := released s.block l₁ }) hrecur hl₂

theorem frees_freeUserRecur (m : Memory) (depth : Nat) :
    Frees (freeUserRecur depth : Ppn → Kernel Process Unit) (freed m depth) m := by
  induction depth with
  | zero => exact fun x l hl => nomatch hl
  | succ depth ih =>
      rintro pdir l hl s rfl
      obtain ⟨l₁, hl₁, rfl⟩ := Option.map_eq_some_iff.mp hl
      rw [freeUserRecur, run_bind_ok (run_forEach ih pdir entryIndices hl₁), released_append]
      rfl

theorem freed_of_unmarked {depth : Nat} {pdir : Ppn}
    (h : ∀ i, ((s.memory pdir i).V && (s.memory pdir i).U) = false) :
    freed s.memory (depth + 1) pdir = some [pdir] := by
  have hentry : ∀ recur i, entryFreed recur (s.memory pdir i) = some [] := by
    intro recur i
    have hnot : ∀ P : Prop,
        ¬((s.memory pdir i).V = true ∧ (s.memory pdir i).U = true ∧ P) := by
      rintro P ⟨hv, hu, -⟩
      have hi := h i
      rw [hv, hu] at hi
      cases hi
    have hassert : (!(s.memory pdir i).V || !(s.memory pdir i).U) = true := by
      rw [← Bool.not_and, h i]
      rfl
    rw [entryFreed, if_neg (hnot _), if_neg (hnot _), if_pos hassert]
  have hentries : ∀ recur (indices : List (Fin 512)),
      entriesFreed recur (indices.map (s.memory pdir)) = some [] := by
    intro recur indices
    induction indices with
    | nil => rfl
    | cons i rest ih => rw [List.map_cons, entriesFreed, hentry, Option.bind_some, ih]; rfl
  rw [freed, hentries]
  rfl

/-- No entry becomes a user entry. -/
def NoNewUsers (s s' : State Process) : Prop :=
  ∀ x i, (s'.memory x i).U = true → (s.memory x i).U = true

theorem NoNewUsers.trans {s₁ : State Process} (h : NoNewUsers s s₁) (h' : NoNewUsers s₁ s') :
    NoNewUsers s s' :=
  fun x i hu => h x i (h' x i hu)

theorem runs_nextTable_users (pte : Ppn × Fin 512) :
    Runs (nextTable pte) s Any fun _ s' => NoNewUsers s s' := by
  unfold nextTable
  apply runs_bind
  apply runs_load
  split
  · apply runs_bind
    apply runs_kalloc
    intro page rest _
    apply runs_bind
    apply runs_modifyState
    apply runs_bind
    apply runs_modifyState
    apply runs_bind
    apply runs_load
    apply runs_pure
    intro x i hu
    dsimp only at hu
    unfold writeEntry writePage at hu
    split at hu
    · cases hu
    · split at hu
      · cases hu
      · exact hu
  · exact runs_pure fun _ _ hu => hu

theorem runs_lookup_users (d : PageDir) (va : Ptr) :
    Runs (PageTable.lookup d va) s Any fun _ s' => NoNewUsers s s' := by
  unfold PageTable.lookup
  apply runs_bind
  apply runs_load
  split
  · exact runs_pure fun _ _ hu => hu
  · apply (runs_nextTable_users _).bind
    intro table s₁ h₁
    apply runs_bind
    apply runs_load
    split
    · exact runs_pure h₁
    · apply (runs_nextTable_users _).bind
      intro table' s₂ h₂
      exact runs_pure (h₁.trans h₂)

/-- The user half of the root table has no user entries. -/
structure Unmarked (boot : Memory) (root : Ppn) (s : State Process) : Prop where
  tree : ∃ node, Tree boot node root s
  users : ∀ i : Fin 512, i.val < 256 → (s.memory root i).U = false

/-- And it has a table. -/
structure Grown (boot : Memory) (root : Ppn) (s : State Process) : Prop
    extends Unmarked boot root s where
  table : ∃ i : Fin 512, i.val < 256 ∧ (s.memory root i).V = true ∧
    (s.memory root i).XWR = .noleaf

theorem runs_lookup_grown (hs : Unmarked boot d.root s) (hva : va.toNat < 2 ^ 38) :
    Runs (PageTable.lookup d va) s Any fun pte s' => Grown boot d.root s' ∧ ∃ node',
      Tree boot node' d.root s' ∧
        node' pte.1 = some (.leaves (getVpn va 2) (getVpn va 1)) := by
  obtain ⟨node, htree⟩ := hs.tree
  refine ((runs_lookup htree hva).and (runs_lookup_users d va)).mono (fun _ _ _ => trivial) ?_
  rintro pte s' ⟨⟨node', htree', -, -, hnode, hreaches⟩, husers⟩
  refine ⟨⟨⟨⟨node', htree'⟩, fun i hi => ?_⟩, getVpn va 2, getVpn_low hva, hreaches.middle.1,
    hreaches.middle.2.1⟩, node', htree', hnode⟩
  cases hu : (s'.memory d.root i).U with
  | false => rfl
  | true =>
      have hbefore := husers d.root i hu
      rw [hs.users i hi] at hbefore
      cases hbefore

/-- A change of a table of the last level leaves the root table as it is. -/
theorem Grown.writeLeaf {i j : Fin 512} {y : Ppn} {k : Fin 512} {e : PageEntry}
    (hs : Grown boot root s) (htree : Tree boot node root s) (hy : node y = some (.leaves i j))
    (he : e.V = true → e.XWR ≠ .noleaf) :
    Grown boot root { s with memory := writeEntry s.memory (y, k) e } := by
  have hne : root ≠ y := by
    rintro rfl
    rw [htree.top] at hy
    cases hy
  have hroot : ∀ i, writeEntry s.memory (y, k) e root i = s.memory root i :=
    fun i => if_neg fun heq => hne (Prod.mk.inj heq).1
  refine ⟨⟨⟨node, htree.writeLeaf hy he _⟩, fun i hi => ?_⟩, ?_⟩
  · change (writeEntry s.memory (y, k) e root i).U = false
    rw [hroot]
    exact hs.users i hi
  · obtain ⟨i, hi, hv, hdir⟩ := hs.table
    refine ⟨i, hi, ?_, ?_⟩
    · exact (congrArg PageEntry.V (hroot i)).trans hv
    · exact (congrArg PageEntry.XWR (hroot i)).trans hdir

theorem runs_mapVaKva_grown (hs : Unmarked boot d.root s) (hva : va.toNat < 2 ^ 38) (kva : Ppn)
    (osflag : PageOSFlag) :
    Runs (mapVaKva d va kva osflag) s Any fun _ s' => Grown boot d.root s' := by
  unfold mapVaKva
  apply (runs_lookup_grown hs hva).bind
  rintro ⟨y, k⟩ s₁ ⟨hs₁, node₁, htree₁, hy⟩
  apply runs_bind
  apply runs_load
  apply runs_bind
  apply runs_kassert
  intro _
  exact runs_modifyState (hs₁.writeLeaf htree₁ hy fun _ => nofun)

theorem runs_allocPageForVa_grown (hs : Unmarked boot d.root s) (hva : va.toNat < 2 ^ 38) :
    Runs (allocPageForVa d va) s Any fun _ s' => Grown boot d.root s' := by
  unfold allocPageForVa
  split
  · exact runs_fail trivial
  · apply (runs_lookup_grown hs hva).bind
    rintro pte s₁ ⟨hs₁, -⟩
    apply runs_bind
    apply runs_load
    split
    · exact runs_pure hs₁
    · apply runs_bind
      apply runs_kalloc
      intro page rest _
      obtain ⟨node₁, htree₁⟩ := hs₁.tree
      have htaken : Unmarked boot d.root
          { s₁ with supply := rest, block := Function.update s₁.block page .paging } :=
        ⟨⟨node₁, htree₁.take page rest⟩, hs₁.users⟩
      apply (runs_mapVaKva_grown htaken hva page .normal).bind
      intro _ s₂ hs₂
      exact runs_bind (runs_load (runs_pure hs₂))

theorem runs_freeSharedPage_grown (hs : Unmarked boot d.root s) (hva : va.toNat < 2 ^ 38) :
    Runs (freeSharedPage d va) s Any fun _ s' => Grown boot d.root s' := by
  unfold freeSharedPage
  apply (runs_lookup_grown hs hva).bind
  rintro ⟨y, k⟩ s₁ ⟨hs₁, node₁, htree₁, hy⟩
  apply runs_bind
  apply runs_load
  apply runs_bind
  apply runs_kassert
  intro _
  apply runs_bind
  apply runs_modifyState
  exact runs_pure (hs₁.writeLeaf htree₁ hy fun h => by cases h)

theorem Unmarked.next {a : Action} (hm : Unmarked boot m.dir.root m.kernel)
    (hstep : next m a = some m') : Grown boot m'.dir.root m'.kernel := by
  have hs : Unmarked boot m.dir.root (m.supplied a.supply) :=
    ⟨hm.tree.imp fun _ htree => htree.supplied a.supply, hm.users⟩
  have hcall : ∀ {α : Type} {p : Kernel Process α} {dir : PageDir},
      returned dir (p.run (m.supplied a.supply)) = some m' → dir.root = m.dir.root →
      Runs p (m.supplied a.supply) Any (fun _ s' => Grown boot m.dir.root s') →
      Grown boot m'.dir.root m'.kernel := by
    intro α p dir hreturned hroot hruns
    obtain ⟨result, hrun, hdir⟩ := returned_eq_some hreturned
    rw [hdir, hroot]
    exact hruns.ok hrun
  unfold Teardown.next at hstep
  split at hstep
  · obtain ⟨hva, hstep⟩ := Option.ite_none_right_eq_some.mp hstep
    exact hcall hstep rfl (runs_allocPageForVa_grown hs hva)
  · obtain ⟨hva, hstep⟩ := Option.ite_none_right_eq_some.mp hstep
    exact hcall hstep rfl (runs_mapVaKva_grown hs hva _ _)
  · obtain ⟨hva, hstep⟩ := Option.ite_none_right_eq_some.mp hstep
    exact hcall hstep rfl (runs_freeSharedPage_grown hs hva)

theorem grown_of_replay {a : Action} {rest : List Action}
    (hm : Unmarked boot m.dir.root m.kernel) (h : replay next m (a :: rest) = some m') :
    Grown boot m'.dir.root m'.kernel := by
  induction rest generalizing a m with
  | nil =>
      rw [replay, Option.bind_eq_some_iff] at h
      obtain ⟨m₁, hstep, hrest⟩ := h
      cases hrest
      exact hm.next hstep
  | cons b rest ih =>
      rw [replay, Option.bind_eq_some_iff] at h
      obtain ⟨m₁, hstep, hrest⟩ := h
      exact ih (hm.next hstep).toUnmarked hrest

theorem Unmarked.freed (hs : Unmarked boot root s) : freed s.memory 3 root = some [root] := by
  obtain ⟨node, htree⟩ := hs.tree
  refine freed_of_unmarked fun i => ?_
  have hu : (s.memory root i).U = false := by
    rcases Nat.lt_or_ge i.val 256 with hlow | hhigh
    · exact hs.users i hlow
    · rw [htree.kernelHalf i hhigh]
      exact (htree.kernel.high i hhigh).1
  rw [hu, Bool.and_false]

theorem Grown.not_tearsDown (hs : Grown boot root s) : ¬TearsDown s root := by
  rintro ⟨l, -, hl, honce, -⟩
  rw [hs.toUnmarked.freed] at hl
  cases hl
  obtain ⟨i, hi, hv, hdir⟩ := hs.table
  have hcount := honce _ (Or.inr (Or.inl (.middle hi hv hdir)))
  have hroot : (s.memory root i).ppn = root := by
    by_contra hne
    rw [List.count_eq_zero_of_not_mem (fun hmem => hne (List.mem_singleton.mp hmem))] at hcount
    cases hcount
  obtain ⟨node, htree⟩ := hs.tree
  rcases htree.userHalf i hi with hblank | ⟨-, -, hnode⟩
  · exact absurd (hblank.1.symm.trans hv) nofun
  · rw [hroot, htree.top] at hnode
    cases hnode

theorem Unmarked.translation_user {a : VirtualPage} {e : PageEntry} (hs : Unmarked boot root s)
    (ha : 256 ≤ a.vpn2.val) (h : translation s.memory root a = some (e, x)) : e.U = false := by
  obtain ⟨node, htree⟩ := hs.tree
  have htop := htree.kernel.high a.vpn2 ha
  rw [← htree.kernelHalf a.vpn2 ha] at htop
  obtain ⟨hu, hio⟩ := htop
  unfold translation at h
  dsimp only at h
  split at h
  · cases h
  · next hv =>
      split at h
      · cases h
        exact hu
      · next hdir =>
          rw [hio (eq_true_of_ne_false hv) (not_not.mp hdir), htree.window] at h
          split at h
          · cases h
          · next hv' =>
              have hleaf := (htree.kernel.window a.vpn1).2 (eq_true_of_ne_false hv')
              rw [if_pos hleaf] at h
              cases h
              exact (htree.kernel.window a.vpn1).1

theorem Unmarked.tearsDown (hs : Unmarked boot root s)
    (hblank : ∀ i : Fin 512, i.val < 256 → (s.memory root i).V = false) : TearsDown s root := by
  refine ⟨[root], frees_freeUserRecur s.memory 3 root _ hs.freed s rfl, hs.freed, ?_, ?_⟩
  · rintro x (rfl | htable | ⟨a, e, htranslation, hu, -⟩)
    · exact List.count_singleton_self
    · cases htable with
      | middle hi hv _ => exact absurd ((hblank _ hi).symm.trans hv) nofun
      | leaves hi hv _ _ _ => exact absurd ((hblank _ hi).symm.trans hv) nofun
    · rcases Nat.lt_or_ge a.vpn2.val 256 with hlow | hhigh
      · rw [translate_eq_none .top (hblank _ hlow)] at htranslation
        cases htranslation
      · exact absurd ((hs.translation_user hhigh htranslation).symm.trans hu) nofun
  · intro x hx
    exact Or.inl (List.mem_singleton.mp hx)

theorem runs_newPageDir_cleared :
    Runs newPageDir s Any fun d s' => s.memory pgdirPage = boot pgdirPage → KernelTables boot →
      s.block pgdirPage ≠ .free → ∀ i : Fin 512, i.val < 256 → s'.memory d.root i = .cleared := by
  unfold newPageDir
  apply runs_bind
  apply runs_kalloc
  intro root rest hfree hpgdir hkernel hused i hi
  have hne : pgdirPage ≠ root := by
    rintro rfl
    exact hused hfree
  have hentry : kernelVm (writePage s.memory root fun _ => .cleared) i = kernelVm boot i := by
    unfold kernelVm
    split
    · rfl
    · exact (if_neg hne).trans (congrFun hpgdir i)
  exact ((if_pos rfl).trans hentry).trans (hkernel.low i (by omega))

theorem Constructed.unmarked (h : Constructed ioremaps m) :
    Unmarked (bootMemory ioremaps) m.dir.root m.kernel ∧
      ∀ i : Fin 512, i.val < 256 → (m.kernel.memory m.dir.root i).V = false := by
  obtain ⟨before, hbooted, hrun⟩ := h
  have hcleared := runs_newPageDir_cleared.ok hrun (funext hbooted.pgdir)
    (PageRuns.kernelTables_bootMemory ioremaps) hbooted.used.1
  refine ⟨⟨(runs_newPageDir hbooted).ok hrun, fun i hi => ?_⟩, fun i hi => ?_⟩
  · rw [hcleared i hi]
    rfl
  · rw [hcleared i hi]
    rfl

/-- After any calls, `free_user_private_mem` gives back what the directory owns
if and only if there were no calls. -/
theorem tearsDown_iff {actions : List Action} (hstart : Constructed ioremaps m)
    (h : replay next m actions = some m') : TearsDown m'.kernel m'.dir.root ↔ actions = [] := by
  obtain ⟨hunmarked, hblank⟩ := Constructed.unmarked hstart
  cases actions with
  | nil =>
      cases h
      exact iff_of_true (hunmarked.tearsDown hblank) rfl
  | cons a rest =>
      exact iff_of_false (grown_of_replay hunmarked h).not_tearsDown (List.cons_ne_nil a rest)

theorem firstDir_tearsDown :
    replay next firstDir [] = some firstDir ∧ TearsDown firstDir.kernel firstDir.dir.root := by
  have hreplay : replay next firstDir [] = some firstDir := rfl
  exact ⟨hreplay, (tearsDown_iff constructed_firstDir hreplay).mpr rfl⟩

/-- One private page. -/
def onePage : List Action := [⟨.allocPageForVa 0x200000, [0x60001, 0x60002, 0x60003]⟩]

theorem onePage_not_tearsDown : ∃ m : Machine Unit, replay next firstDir onePage = some m ∧
    Private m.kernel.memory m.dir.root 0x60003 ∧ ¬TearsDown m.kernel m.dir.root := by
  have hfacts : (replay next firstDir onePage).map (fun m =>
      (translation m.kernel.memory m.dir.root (pageOf 0x200000)).map fun leaf =>
        (leaf.1.U, leaf.1.OSflag, leaf.2)) = some (some (true, .normal, 0x60003)) := by
    decide +kernel
  obtain ⟨m, hreplay, hleaf⟩ := Option.map_eq_some_iff.mp hfacts
  obtain ⟨⟨e, x⟩, htranslation, hfields⟩ := Option.map_eq_some_iff.mp hleaf
  obtain ⟨hu, hrest⟩ := Prod.mk.inj hfields
  obtain ⟨hflag, hx⟩ := Prod.mk.inj hrest
  cases hx
  exact ⟨m, hreplay, ⟨_, e, htranslation, hu, hflag⟩,
    (grown_of_replay (Constructed.unmarked constructed_firstDir).1 hreplay).not_tearsDown⟩

end LabKernel.Teardown
