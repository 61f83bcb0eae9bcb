import LabKernel.HardLinks
import LabKernel.MkdirPaths

/-!
Directories that form a tree.

The entries `.` and `..` lead to the directory itself and to the directory that
it was entered from, so that no directory has two parents.  `fs_mkdir` keeps
the tree in a directory that is not full.
-/

namespace LabKernel.DirectoryTrees

open LabKernel.BlockCache
open LabKernel.BlockObject
open LabKernel.BlockOwnership
open LabKernel.ByteMemory
open LabKernel.Directories
open LabKernel.DirectoryCalls
open LabKernel.FsCode
open LabKernel.FsLayout
open LabKernel.FsRuns
open LabKernel.FsTables
open LabKernel.FsView
open LabKernel.Formatting
open LabKernel.HardLinks
open LabKernel.MkdirPaths
open LabKernel.PathWalks
open LabKernel.ProgramLogic
open LabKernel.TidyCalls
open LabKernel.TidyDisk
open LabKernel.TidyRuns

/-- The directories form a tree with the root 0. -/
structure DirectoryTree (s : FsState) : Prop where
  self : ∀ dir : UInt32, Dir s dir.toNat → enter s dir dot = some dir
  root : enter s 0 dotDot = some 0
  parent : ∀ (dir next : UInt32) name, Dir s dir.toNat → name ≠ dot → name ≠ dotDot →
    enter s dir name = some next → enter s next dotDot = some dir
  named : ∀ dir : UInt32, Dir s dir.toNat → enter s dir [] = none

variable {s s' s₀ s₁ : FsState} {dir next ino p : UInt32} {name path : List UInt8} {q q' : Nat}
  {k : Nat} {e : DirEntry}

theorem enter_iff (h : Tidy s) (hdir : Dir s dir.toNat) : enter s dir name = some next ↔
    ∃ q e, slot s (s.inode dir.toNat) q = some e ∧ e.name = name ∧ e.inode = next ∧
      (s.inode next.toNat).type = 1 := by
  constructor
  · intro henter
    obtain ⟨e, he, hnext⟩ := Option.bind_eq_some_iff.mp henter
    obtain ⟨htype, hinode⟩ := Option.ite_none_right_eq_some.mp hnext
    cases hinode
    rcases lookup_cases s (s.inode dir.toNat) name with ⟨q, e', hfinds, heq⟩ | ⟨-, hnone⟩
    · obtain rfl := Option.some.inj (he.symm.trans heq)
      exact ⟨q, e, hfinds.slot_eq, hfinds.name_eq, rfl, htype⟩
    · rw [hnone] at he
      cases he
  · rintro ⟨q, e, he, rfl, rfl, htype⟩
    rw [enter, lookup_of_slot (h.folder _ hdir) he, Option.bind_some, if_pos htype]

theorem dir_of_enter (h : Tidy s) (hdir : Dir s dir.toNat) (henter : enter s dir name = some next) :
    Dir s next.toNat := by
  obtain ⟨q, e, he, -, rfl, htype⟩ := (enter_iff h hdir).mp henter
  exact ⟨(h.folder _ hdir).entries q e he, htype⟩

theorem tree_initial (h : Initial s p) : DirectoryTree s := by
  have htidy := (inOrder_initial h).tidy
  have hcwd : s.cwd.toNat = 0 := by
    rw [h.cwd]
    rfl
  have hhere : s.inode 0 = s.here := by rw [FsState.here, hcwd]
  have honly : ∀ dir : UInt32, Dir s dir.toNat → dir = 0 := by
    intro dir hdir
    have hused := hdir.1.2
    rw [h.inodeUsed] at hused
    exact UInt32.toNat_inj.mp (of_decide_eq_true hused)
  have hslot : ∀ q, slot s (s.inode (0 : UInt32).toNat) q =
      if q = 0 then some ⟨0, 1, dot⟩ else if q = 1 then some ⟨0, 1, dotDot⟩ else none := by
    intro q
    rw [← h.slot_eq, ← hhere]
    rfl
  have hroot : Dir s (0 : UInt32).toNat := htidy.root
  refine ⟨fun dir hdir => ?_, ?_, fun dir next name hdir hdot hdotDot henter => ?_,
    fun dir hdir => ?_⟩
  · obtain rfl := honly dir hdir
    exact (enter_iff htidy hroot).mpr ⟨0, ⟨0, 1, dot⟩, (hslot 0).trans rfl, rfl, rfl, hroot.2⟩
  · exact (enter_iff htidy hroot).mpr ⟨1, ⟨0, 1, dotDot⟩, (hslot 1).trans rfl, rfl, rfl, hroot.2⟩
  · obtain rfl := honly dir hdir
    obtain ⟨q, e, he, hname, -, -⟩ := (enter_iff htidy hroot).mp henter
    rw [hslot] at he
    split at he
    · cases he
      exact absurd hname.symm hdot
    · split at he
      · cases he
        exact absurd hname.symm hdotDot
      · cases he
  · obtain rfl := honly dir hdir
    rw [Option.eq_none_iff_forall_ne_some]
    intro next henter
    obtain ⟨q, e, he, hname, -, -⟩ := (enter_iff htidy hroot).mp henter
    rw [hslot] at he
    split at he
    · cases he
      cases hname
    · split at he
      · cases he
        cases hname
      · cases he

theorem created_keeps (h : Tidy s) (hcreated : Created s path 0 ino q s₀ s₁)
    (hfree : slot s s.here q = none) (hk : Dir s k) (he : slot s (s.inode k) q' = some e) :
    slot s₁ (s₁.inode k) q' = some e := by
  obtain ⟨hcwd, hhere, hdata⟩ := hcreated.provided.here_eq h.standing
  have hdir₀ : Live s₀ k ∧ slot s₀ (s₀.inode k) q' = some e := by
    cases hcreated.provided with
    | given hzero => exact absurd rfl hzero
    | new _ _ hunused =>
        have hne : k ≠ ino.toNat := by
          rintro rfl
          rw [hk.1.2] at hunused
          cases hunused
        refine ⟨⟨hk.1.1, (Function.update_of_ne hne ..).trans hk.1.2⟩, ?_⟩
        have hinode : ((s.setInodeUsed ino.toNat true).setInode ino.toNat Inode.empty).inode k =
            s.inode k := Function.update_of_ne hne ..
        rw [hinode]
        exact he
  have hset := hcreated.slotSet
  rcases eq_or_ne k s₀.cwd.toNat with heq | hne
  · have hq : q' ≠ q := by
      rintro rfl
      rw [heq, hcwd] at he
      exact Option.some_ne_none e (he.symm.trans hfree)
    have hslot := hset.slot_of_ne q' hq
    rw [FsState.here, hset.leaves.cwd, ← heq, FsState.here, ← heq] at hslot
    exact hslot.trans hdir₀.2
  · rw [hset.leaves.slot_eq hne hdir₀.1]
    exact hdir₀.2

theorem created_type (h : Tidy s) (hcreated : Created s path 0 ino q s₀ s₁) (hk : Live s k) :
    (s₁.inode k).type = (s.inode k).type := by
  obtain ⟨hcwd, hhere, -⟩ := hcreated.provided.here_eq h.standing
  have hset := hcreated.slotSet
  rcases eq_or_ne k s.cwd.toNat with rfl | hne
  · have htype := hset.type
    rw [FsState.here, hset.leaves.cwd, hcwd, hhere] at htype
    exact htype
  · rw [hset.leaves.inode k (by rwa [hcwd])]
    cases hcreated.provided with
    | given hzero => exact absurd rfl hzero
    | new _ _ hunused =>
        have hino : k ≠ ino.toNat := by
          rintro rfl
          rw [hk.2] at hunused
          cases hunused
        exact congrArg Inode.type (Function.update_of_ne hino ..)

theorem enter_made (h : InOrder s) (hcreated : Created s path 0 ino q s₀ s₁)
    (hfree : slot s s.here q = none) (hmade : Made s₁ ino s') (hdir : Dir s' dir.toNat) :
    enter s' dir name = some next ↔
      (dir = ino ∧ (name = dot ∧ next = ino ∨ name = dotDot ∧ next = s.cwd)) ∨
        (dir ≠ ino ∧ (dir = s.cwd ∧ name = path ∧ next = ino ∨ enter s dir name = some next)) := by
  have hnew := newName_of_created h hcreated
  have htidy := hnew.tidy.made hmade hnew.live hnew.inode
  have hcwd₁ : s₁.cwd = s.cwd :=
    hcreated.slotSet.leaves.cwd.trans (hcreated.provided.here_eq h.tidy.standing).1
  have hne : ∀ {k : UInt32}, Live s k.toNat → k ≠ ino := fun hk heq => hnew.dead (heq ▸ hk)
  have htype : ∀ {k : UInt32}, Live s k.toNat →
      (s'.inode k.toNat).type = (s.inode k.toNat).type := by
    intro k hk
    rw [hmade.leaves.inode _ fun heq => hne hk (UInt32.toNat_inj.mp heq)]
    exact created_type h.tidy hcreated hk
  rw [enter_iff htidy hdir]
  rcases eq_or_ne dir ino with rfl | hdirne
  · simp only [true_and, ne_eq, not_true_eq_false, false_and, or_false, hmade.slot_eq, hcwd₁]
    constructor
    · rintro ⟨q', e, he, rfl, rfl, -⟩
      split at he
      · cases he
        exact Or.inl ⟨rfl, rfl⟩
      · split at he
        · cases he
          exact Or.inr ⟨rfl, rfl⟩
        · cases he
    · rintro (⟨rfl, rfl⟩ | ⟨rfl, rfl⟩)
      · exact ⟨0, _, if_pos rfl, rfl, rfl, hmade.type⟩
      · refine ⟨1, _, rfl, rfl, rfl, ?_⟩
        rw [htype h.tidy.cwd.1]
        exact h.tidy.cwd.2
  · have hdir₁ : Dir s₁ dir.toNat :=
      (dir_of_leaves hmade.leaves fun heq => hdirne (UInt32.toNat_inj.mp heq)).mp hdir
    simp only [hdirne, false_and, ne_eq, not_false_eq_true, true_and, false_or,
      hmade.leaves.slot_eq (fun heq => hdirne (UInt32.toNat_inj.mp heq)) hdir₁.1]
    constructor
    · rintro ⟨q', e, he, rfl, rfl, hnext⟩
      rcases created_entry h.tidy hcreated hdir₁ he with ⟨hk, -, rfl⟩ | ⟨hold, he⟩
      · exact Or.inl ⟨UInt32.toNat_inj.mp hk, rfl, rfl⟩
      · right
        refine (enter_iff h.tidy hold).mpr ⟨q', e, he, rfl, rfl, ?_⟩
        rw [← htype ((h.tidy.folder _ hold).entries q' e he)]
        exact hnext
    · rintro (⟨rfl, rfl, rfl⟩ | henter)
      · refine ⟨q, ⟨next, 1, name⟩, ?_, rfl, rfl, hmade.type⟩
        rw [← hcwd₁]
        exact hcreated.slotSet.slot_self
      · have hold : Dir s dir.toNat := by
          have hlive := (newDir_of_made h hcreated hmade).live _
            (fun heq => hdirne (UInt32.toNat_inj.mp heq)) hdir.1
          exact ⟨hlive, (htype hlive).symm.trans hdir.2⟩
        obtain ⟨q', e, he, hname, hinode, hnext⟩ := (enter_iff h.tidy hold).mp henter
        refine ⟨q', e, created_keeps h.tidy hcreated hfree hold he, hname, hinode, ?_⟩
        rw [htype (hinode ▸ (h.tidy.folder _ hold).entries q' e he)]
        exact hnext

theorem DirectoryTree.made (ht : DirectoryTree s) (h : InOrder s)
    (hcreated : Created s path 0 ino q s₀ s₁) (hfree : slot s s.here q = none)
    (hmade : Made s₁ ino s') (hpath : path ≠ []) : DirectoryTree s' := by
  have hnew := newDir_of_made h hcreated hmade
  have henter : ∀ {dir next : UInt32} {name}, Dir s' dir.toNat → (enter s' dir name = some next ↔
      (dir = ino ∧ (name = dot ∧ next = ino ∨ name = dotDot ∧ next = s.cwd)) ∨
        (dir ≠ ino ∧ (dir = s.cwd ∧ name = path ∧ next = ino ∨ enter s dir name = some next))) :=
    fun hdir => enter_made h hcreated hfree hmade hdir
  have hold : ∀ {dir : UInt32}, Dir s' dir.toNat → dir ≠ ino → Dir s dir.toNat := by
    intro dir hdir hne
    have hne' : dir.toNat ≠ ino.toNat := fun heq => hne (UInt32.toNat_inj.mp heq)
    have hdir₁ := (dir_of_leaves hmade.leaves hne').mp hdir
    have hlive := hnew.live _ hne' hdir.1
    exact ⟨hlive, (created_type h.tidy hcreated hlive).symm.trans hdir₁.2⟩
  have hlive : ∀ {dir : UInt32}, Dir s dir.toNat → dir ≠ ino :=
    fun hdir heq => hnew.dead (heq ▸ hdir.1)
  refine ⟨fun dir hdir => ?_, ?_, fun dir next name hdir hdot hdotDot hstep => ?_,
    fun dir hdir => ?_⟩
  · rw [henter hdir]
    rcases eq_or_ne dir ino with rfl | hne
    · exact Or.inl ⟨rfl, Or.inl ⟨rfl, rfl⟩⟩
    · exact Or.inr ⟨hne, Or.inr (ht.self dir (hold hdir hne))⟩
  · have hroot : Dir s (0 : UInt32).toNat := h.tidy.root
    have hroot' : Dir s' (0 : UInt32).toNat := hnew.tidy.root
    exact (henter hroot').mpr (Or.inr ⟨hlive hroot, Or.inr ht.root⟩)
  · rcases (henter hdir).mp hstep with ⟨-, ⟨hname, -⟩ | ⟨hname, -⟩⟩ | ⟨hne, hcases⟩
    · exact absurd hname hdot
    · exact absurd hname hdotDot
    · rcases hcases with ⟨rfl, -, rfl⟩ | hbefore
      · exact (henter hnew.dir).mpr (Or.inl ⟨rfl, Or.inr ⟨rfl, rfl⟩⟩)
      · have hnext := dir_of_enter h.tidy (hold hdir hne) hbefore
        refine (henter (dir_of_enter hnew.tidy hdir hstep)).mpr (Or.inr ⟨hlive hnext, Or.inr ?_⟩)
        exact ht.parent dir next name (hold hdir hne) hdot hdotDot hbefore
  · rw [Option.eq_none_iff_forall_ne_some]
    intro next hstep
    rcases (henter hdir).mp hstep with ⟨-, ⟨hname, -⟩ | ⟨hname, -⟩⟩ | ⟨hne, ⟨-, hname, -⟩ | hbefore⟩
    · cases hname
    · cases hname
    · exact hpath hname.symm
    · rw [ht.named dir (hold hdir hne)] at hbefore
      cases hbefore

variable {m m' : Machine Bytes Globals}

/-- The tables and the directories of the disk are in order. -/
structure Planted (m : Machine Bytes Globals) (s : FsState) : Prop where
  realizes : Realizes m s
  inOrder : InOrder s
  tree : DirectoryTree s

theorem planted_of_formatted (h : Formatted m) :
    ∃ s, Planted m s ∧ s.cwd = 0 ∧ slot s s.here 2 = none := by
  obtain ⟨s, p, hrealizes, hinitial⟩ := formatted_realizes h
  exact ⟨s, ⟨hrealizes, inOrder_initial hinitial, tree_initial hinitial⟩, hinitial.cwd,
    (hinitial.slot_eq 2).trans rfl⟩

theorem planted_mkdir (h : Planted m s) (hfree : ∃ q < 1024, slot s s.here q = none)
    (hname : NameOk path) (hpath : path ≠ []) (hrun : (fsMkdir path).run m = (.ok 0, m')) :
    ∃ s', Planted m' s' ∧ s'.cwd = s.cwd := by
  obtain ⟨s', hs', hmade⟩ := (fsMkdir_made h.realizes h.inOrder hname).ok hrun
  have hinOrder := hmade.inOrder h.inOrder
  generalize hr : (0 : Int) = r at hmade
  cases hmade with
  | made hcreated hmade =>
      have hfree' := (free_iff_of_created hcreated).mp hfree
      have hcwd := hcreated.slotSet.leaves.cwd.trans
        (hcreated.provided.here_eq h.inOrder.tidy.standing).1
      exact ⟨s', ⟨hs', hinOrder, h.tree.made h.inOrder hcreated hfree' hmade hpath⟩,
        hmade.leaves.cwd.trans hcwd⟩
  | existed _ => cases hr

end LabKernel.DirectoryTrees
