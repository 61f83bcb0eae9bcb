import LabKernel.FsView

/-!
A disk in order: every entry of every directory names an allocated inode, no
directory has a name twice, and the objects of open files are up to date.
-/

namespace LabKernel.TidyDisk

open LabKernel.BlockCache
open LabKernel.BlockFreeing
open LabKernel.BlockObject
open LabKernel.BlockOwnership
open LabKernel.ByteMemory
open LabKernel.DirectData
open LabKernel.Directories
open LabKernel.DirectoryCalls
open LabKernel.FileWrites
open LabKernel.Formatting
open LabKernel.FsCode
open LabKernel.FsLayout
open LabKernel.FsPrimitives
open LabKernel.FsRuns
open LabKernel.FsTables
open LabKernel.FsView
open LabKernel.ProgramLogic

variable {m m' : Machine Bytes Globals} {s s' s₀ : FsState} {n : Inode} {path : List UInt8}
  {k k' q : Nat} {e : DirEntry} {new : Option DirEntry} {ino newInodeIdx p : UInt32}

def Dir (s : FsState) (k : Nat) : Prop := Live s k ∧ (s.inode k).type = 1

/-- The blocks and the entries of a directory are in order. -/
structure Folder (s : FsState) (k : Nat) : Prop where
  hasBlocks : HasBlocks s (s.inode k)
  entries : ∀ q e, slot s (s.inode k) q = some e → Live s e.inode.toNat
  names : ∀ q q' e e', slot s (s.inode k) q = some e → slot s (s.inode k) q' = some e' →
    e.name = e'.name → q = q'

/-- The object of an open file has the type and the pointers of its inode. -/
structure UpToDate (s : FsState) (file : File) : Prop where
  live : Live s file.inodeIdx.toNat
  pointer : ∀ r, pointer file.inode r = pointer (s.inode file.inodeIdx.toNat) r
  object : file.inode.type = 2
  inode : (s.inode file.inodeIdx.toNat).type = 2

structure Tidy (s : FsState) : Prop where
  owned : Owned s
  root : Dir s 0
  cwd : Dir s s.cwd.toNat
  folder : ∀ k, Dir s k → Folder s k
  files : ∀ file, some file ∈ s.files → UpToDate s file
  keys : ∀ (i j : Nat) (file file' : File), (s.files[i]?).join = some file →
    (s.files[j]?).join = some file' → file.inodeIdx = file'.inodeIdx → i = j

/-- Every allocated inode is a directory or a file. -/
def Typed (s : FsState) : Prop := ∀ k, Live s k → (s.inode k).type = 1 ∨ (s.inode k).type = 2

namespace Tidy

theorem standing (h : Tidy s) : Standing s :=
  ⟨h.owned, h.cwd.1, (h.folder _ h.cwd).hasBlocks, h.cwd.2⟩

theorem here (h : Tidy s) : Folder s s.cwd.toNat := h.folder _ h.cwd

end Tidy

/-- There are 1024 slots. -/
theorem lt_of_slot (h : slot s n q = some e) : q < 1024 := by
  by_contra hge
  rw [slot_of_zero (by rw [direct, dif_neg (by omega)])] at h
  cases h

theorem dir_of_leaves (h : Leaves k s s') (hne : k' ≠ k) : Dir s' k' ↔ Dir s k' := by
  unfold Dir
  rw [h.inode k' hne]
  exact and_congr_left fun _ => ⟨h.of_live, h.live⟩

theorem folder_of_leaves (h : Leaves k s s') (hne : k' ≠ k) (hk' : Live s k')
    (hfolder : Folder s k') : Folder s' k' := by
  refine ⟨h.hasBlocks hne hk' hfolder.hasBlocks, fun q e he => ?_, fun q q' e e' he he' => ?_⟩
  · rw [h.slot_eq hne hk'] at he
    exact h.live (hfolder.entries q e he)
  · rw [h.slot_eq hne hk'] at he he'
    exact hfolder.names q q' e e' he he'

/-- A change of one inode and its blocks, and of the open files, keeps the
order if it keeps the order of the inode itself. -/
theorem Tidy.of_leaves (h : Tidy s) (hleaves : Leaves k s s') (howned : Owned s')
    {files : List (Option File)} (hdir : Dir s k → Dir s' k)
    (hfolder : Dir s' k → Folder s' k)
    (hfiles : ∀ file, some file ∈ files →
      (some file ∈ s.files ∧ file.inodeIdx.toNat ≠ k) ∨ UpToDate s' file)
    (hkeys : ∀ (i j : Nat) (file file' : File), (files[i]?).join = some file →
      (files[j]?).join = some file' → file.inodeIdx = file'.inodeIdx → i = j) :
    Tidy { s' with files := files } := by
  have hother : ∀ k' ≠ k, Dir s' k' → Folder s' k' := fun k' hne hk' => by
    have hdir := (dir_of_leaves hleaves hne).mp hk'
    exact folder_of_leaves hleaves hne hdir.1 (h.folder k' hdir)
  have hkept : ∀ k', Dir s k' → Dir s' k' := fun k' hk' => by
    rcases eq_or_ne k' k with rfl | hne
    · exact hdir hk'
    · exact (dir_of_leaves hleaves hne).mpr hk'
  refine ⟨⟨howned.tables, howned.isData, howned.settled, howned.unique⟩, hkept 0 h.root, ?_,
    fun k' hk' => ?_, fun file hfile => ?_, hkeys⟩
  · show Dir s' s'.cwd.toNat
    rw [hleaves.cwd]
    exact hkept _ h.cwd
  · have hfolder' : Folder s' k' := by
      rcases eq_or_ne k' k with rfl | hne
      · exact hfolder hk'
      · exact hother k' hne hk'
    exact ⟨hfolder'.hasBlocks, hfolder'.entries, hfolder'.names⟩
  · rcases hfiles file hfile with ⟨hold, hne⟩ | hupToDate
    · obtain ⟨hlive, hpointer, hobject, hinode⟩ := h.files file hold
      have hsame := hleaves.inode _ hne
      exact ⟨hleaves.live hlive, fun r => (hpointer r).trans (by rw [← hsame]), hobject,
        (congrArg Inode.type hsame).trans hinode⟩
    · exact ⟨hupToDate.live, hupToDate.pointer, hupToDate.object, hupToDate.inode⟩

theorem Tidy.leaves (h : Tidy s) (hleaves : Leaves k s s') (howned : Owned s')
    (hdir : Dir s k → Dir s' k) (hfolder : Dir s' k → Folder s' k)
    (hfiles : ∀ file, some file ∈ s.files → file.inodeIdx.toNat = k → UpToDate s' file) :
    Tidy s' := by
  have htidy := h.of_leaves hleaves howned hdir hfolder (fun file hmem => ?_)
    h.keys
  · rwa [← hleaves.files] at htidy
  · rcases eq_or_ne file.inodeIdx.toNat k with heq | hne
    · exact Or.inr (hfiles file hmem heq)
    · exact Or.inl ⟨hmem, hne⟩

/-- The entry in one slot of the current directory changes. -/
theorem Tidy.slotSet (h : Tidy s) (hset : SlotSet s s' q new)
    (hnew : ∀ e, new = some e → Live s e.inode.toNat ∧
      ∀ q' e', slot s s.here q' = some e' → e'.name ≠ e.name) : Tidy s' := by
  have hcwd : s'.cwd = s.cwd := hset.leaves.cwd
  have hhere : s'.inode s.cwd.toNat = s'.here := by rw [FsState.here, hcwd]
  have hslot : ∀ q' e', slot s' s'.here q' = some e' →
      (q' = q ∧ new = some e') ∨ (q' ≠ q ∧ slot s s.here q' = some e') := by
    intro q' e' he'
    rcases eq_or_ne q' q with rfl | hne
    · exact Or.inl ⟨rfl, hset.slot_self.symm.trans he'⟩
    · exact Or.inr ⟨hne, (hset.slot_of_ne q' hne).symm.trans he'⟩
  apply h.leaves hset.leaves hset.owned
  · intro _
    have hstanding := hset.standing h.standing
    rw [← hcwd]
    exact ⟨hstanding.live, hstanding.type⟩
  · intro _
    refine ⟨?_, fun q' e' he' => ?_, fun q₁ q₂ e₁ e₂ he₁ he₂ hname => ?_⟩
    · rw [hhere]
      exact hset.hasBlocks
    · rw [hhere] at he'
      rcases hslot q' e' he' with ⟨-, heq⟩ | ⟨-, hold⟩
      · exact hset.leaves.live (hnew e' heq).1
      · exact hset.leaves.live (h.here.entries q' e' hold)
    · rw [hhere] at he₁ he₂
      rcases hslot q₁ e₁ he₁ with ⟨rfl, heq₁⟩ | ⟨-, hold₁⟩
      · rcases hslot q₂ e₂ he₂ with ⟨rfl, -⟩ | ⟨-, hold₂⟩
        · rfl
        · exact absurd hname.symm ((hnew e₁ heq₁).2 q₂ e₂ hold₂)
      · rcases hslot q₂ e₂ he₂ with ⟨rfl, heq₂⟩ | ⟨-, hold₂⟩
        · exact absurd hname ((hnew e₂ heq₂).2 q₁ e₁ hold₁)
        · exact h.here.names q₁ q₂ e₁ e₂ hold₁ hold₂ hname
  · intro file hfile heq
    have htype := (h.files file hfile).inode
    rw [heq] at htype
    exact absurd (h.cwd.2.symm.trans htype) (by decide)

theorem leaves_setInode (s : FsState) (k : Nat) (n : Inode) : Leaves k s (s.setInode k n) :=
  ⟨rfl, rfl, rfl, fun _ hne => Function.update_of_ne hne .., fun _ _ _ _ _ _ => rfl⟩

/-- An inode is written back with the same pointers. -/
theorem Tidy.setInode (h : Tidy s) (hpointer : ∀ r, pointer n r = pointer (s.inode k) r)
    (hdir : n.type = 1 ↔ (s.inode k).type = 1) (hfile : (s.inode k).type = 2 → n.type = 2) :
    Tidy (s.setInode k n) := by
  have hself : (s.setInode k n).inode k = n := Function.update_self ..
  have hslot : ∀ q, slot (s.setInode k n) ((s.setInode k n).inode k) q = slot s (s.inode k) q := by
    intro q
    unfold slot
    rw [hself, direct_congr hpointer]
    rfl
  apply h.leaves (leaves_setInode s k n) (h.owned.setInode hpointer)
  · rintro ⟨hlive, htype⟩
    exact ⟨hlive, by rw [hself, hdir, htype]⟩
  · rintro ⟨hlive, htype⟩
    rw [hself, hdir] at htype
    have hfolder := h.folder k ⟨hlive, htype⟩
    refine ⟨fun i hi => ?_, fun q e he => ?_, fun q q' e e' he he' => ?_⟩
    · rw [hself, direct_congr hpointer] at hi ⊢
      exact hfolder.hasBlocks i hi
    · rw [hslot] at he
      exact hfolder.entries q e he
    · rw [hslot] at he he'
      exact hfolder.names q q' e e' he he'
  · intro file hmem heq
    obtain ⟨hlive, hfile', hobject, hinode⟩ := h.files file hmem
    rw [heq] at hinode
    refine ⟨hlive, fun r => ?_, hobject, ?_⟩
    · rw [hfile', heq, hself, hpointer]
    · rw [heq, hself, hfile hinode]

/-- A new inode is on no list yet. -/
theorem Tidy.newInode (h : Tidy s) (hfree : s.inodeUsed k = false) (hpointer : ∀ r, pointer n r = 0)
    (htype : n.type ≠ 1) : Tidy ((s.setInodeUsed k true).setInode k n) := by
  set s₀ := (s.setInodeUsed k true).setInode k n with hs₀
  have hdead : ¬Live s k := fun hk => by
    rw [hk.2] at hfree
    cases hfree
  have hinode : ∀ k', Live s k' → s₀.inode k' = s.inode k' := by
    intro k' hk'
    have hne : k' ≠ k := by
      rintro rfl
      exact hdead hk'
    exact Function.update_of_ne hne ..
  have hlive : ∀ k', Live s k' → Live s₀ k' := by
    refine fun k' hk' => ⟨hk'.1, ?_⟩
    rw [hs₀, FsState.setInode_inodeUsed, FsState.setInodeUsed_inodeUsed, Function.update_apply,
      hk'.2, ite_self]
  have hdir : ∀ k', Dir s₀ k' → Dir s k' := by
    rintro k' ⟨hk', htype'⟩
    rcases eq_or_ne k' k with rfl | hne
    · rw [hs₀, FsState.setInode_inode, Function.update_self] at htype'
      exact absurd htype' htype
    · have hold : Live s k' := ⟨hk'.1, (Function.update_of_ne hne ..).symm.trans hk'.2⟩
      rw [hinode k' hold] at htype'
      exact ⟨hold, htype'⟩
  have hslot : ∀ k', Live s k' → ∀ q, slot s₀ (s₀.inode k') q = slot s (s.inode k') q := by
    intro k' hk' q
    rw [hinode k' hk']
    rfl
  have hkept : ∀ k', Dir s k' → Dir s₀ k' := fun k' hk' =>
    ⟨hlive k' hk'.1, by rw [hinode k' hk'.1, hk'.2]⟩
  refine ⟨h.owned.newInode hpointer, hkept 0 h.root, hkept _ h.cwd, fun k' hk' => ?_,
    fun file hfile => ?_, h.keys⟩
  · have hold := hdir k' hk'
    have hfolder := h.folder k' hold
    refine ⟨?_, fun q e he => ?_, fun q q' e e' he he' => ?_⟩
    · rw [hinode k' hold.1]
      exact hfolder.hasBlocks
    · rw [hslot k' hold.1] at he
      exact hlive _ (hfolder.entries q e he)
    · rw [hslot k' hold.1] at he he'
      exact hfolder.names q q' e e' he he'
  · obtain ⟨hfileLive, hfile', hobject, htype'⟩ := h.files file hfile
    have hsame := hinode _ hfileLive
    exact ⟨hlive _ hfileLive, fun r => by rw [hfile', hsame], hobject, by rw [hsame, htype']⟩

theorem Tidy.provided (h : Tidy s) (hprovided : Provided s newInodeIdx ino s₀) : Tidy s₀ := by
  cases hprovided with
  | given _ => exact h
  | new _ _ hfree =>
      exact h.newInode hfree (fun r => by cases r <;> rfl) (show ¬(0 : UInt8) = 1 by decide)

theorem live_of_provided (h : Provided s newInodeIdx ino s₀)
    (hgiven : newInodeIdx ≠ 0 → Live s newInodeIdx.toNat) : Live s₀ ino.toNat := by
  cases h with
  | given hne => exact hgiven hne
  | new _ hlt _ => exact ⟨hlt, Function.update_self ..⟩

/-- A name that was not there is created. -/
theorem Tidy.created (h : Tidy s) (hcreated : Created s path newInodeIdx ino q s₀ s')
    (hgiven : newInodeIdx ≠ 0 → Live s newInodeIdx.toNat) : Tidy s' := by
  obtain ⟨-, hhere, hdata⟩ := hcreated.provided.here_eq h.standing
  refine (h.provided hcreated.provided).slotSet hcreated.slotSet ?_
  rintro _ ⟨⟩
  refine ⟨live_of_provided hcreated.provided hgiven, fun q' e' he' => ?_⟩
  rw [hhere, slot_congr hdata] at he'
  exact hcreated.misses q' (Nat.zero_le _) (lt_of_slot he') e' he'

/-- What making a directory out of an empty inode does. -/
structure Made (s : FsState) (ino : UInt32) (s' : FsState) : Prop where
  leaves : Leaves ino.toNat s s'
  owned : Owned s'
  type : (s'.inode ino.toNat).type = 1
  linkCnt : (s'.inode ino.toNat).linkCnt = 1
  size : (s'.inode ino.toNat).size = 0
  hasBlocks : HasBlocks s' (s'.inode ino.toNat)
  slot_eq : ∀ q, slot s' (s'.inode ino.toNat) q =
    if q = 0 then some ⟨ino, 1, dot⟩ else if q = 1 then some ⟨s.cwd, 1, dotDot⟩ else none

/-- The inode of a new directory with its first block. -/
def newDirectory (p : UInt32) : Inode :=
  { setDirect Inode.empty 0 p with type := 1, linkCnt := 1 }

theorem direct_newDirectory (i : Nat) : direct (newDirectory p) i = if i = 0 then p else 0 := by
  have hempty : direct Inode.empty i = 0 := by
    unfold direct
    split
    next => rfl
    next => rfl
  have hdirect := direct_setDirect (n := Inode.empty) (p := p) (j := i) (show 0 < 8 by omega)
  rwa [hempty] at hdirect

theorem made_of_pointed (h : Owned s) (hlive : Live s ino.toNat)
    (hempty : s.inode ino.toNat = Inode.empty) (hp : IsData p)
    (hfree : s.blockUsed p.toNat = false) :
    Made s ino ((((s.setBlockUsed p.toNat true).setData p.toNat none).setData p.toNat
      (some (copy zeros 0 (dotEntries ino s.cwd) 0 64))).setInode ino.toNat (newDirectory p)) := by
  set s' := (((s.setBlockUsed p.toNat true).setData p.toNat none).setData p.toNat
    (some (copy zeros 0 (dotEntries ino s.cwd) 0 64))).setInode ino.toNat (newDirectory p) with hs'
  have hself : s'.inode ino.toNat = newDirectory p := Function.update_self ..
  have hdata : s'.data p.toNat = some (copy zeros 0 (dotEntries ino s.cwd) 0 64) :=
    Function.update_self ..
  have hpne : p ≠ 0 := ne_zero_of_isData hp
  have hdirect : direct (s.inode ino.toNat) 0 = 0 := by
    rw [hempty]
    rfl
  have hpointed : Pointed s (direct (s.inode ino.toNat) 0) p
      ((s.setBlockUsed p.toNat true).setData p.toNat none) := .new hdirect hfree
  refine ⟨⟨rfl, rfl, rfl, fun k' hne => Function.update_of_ne hne .., ?_⟩, ?_, ?_, ?_, ?_, ?_, ?_⟩
  · intro k' hne hk' a ha hblock
    have hdiff := ne_of_pointed (i := 0) h hlive (by omega) hpointed hk' ha hblock (Or.inl hne)
    exact (Function.update_of_ne hdiff ..).trans (Function.update_of_ne hdiff ..)
  · refine owned_of_pointed (i := 0) h hlive (by omega) hpointed hp fun r => ?_
    rw [hempty]
    cases r <;> rfl
  · rw [hself]
    rfl
  · rw [hself]
    rfl
  · rw [hself]
    rfl
  · intro i hi
    rw [hself, direct_newDirectory] at hi ⊢
    split at hi
    next heq =>
      rw [if_pos heq]
      exact ⟨hp, _, hdata⟩
    next => exact absurd rfl hi
  · intro q
    rw [hself]
    rcases eq_or_ne (q / 128) 0 with hblock | hblock
    · have hpointer : direct (newDirectory p) (q / 128) = p := by
        rw [direct_newDirectory, if_pos hblock]
      rw [slot_of_data (by rw [hpointer]; exact hpne) (by rw [hpointer]; exact hdata),
        entryOf_dotEntries, show q % 128 = q by omega]
    · rw [slot_of_zero (by rw [direct_newDirectory, if_neg hblock]), if_neg (by omega),
        if_neg (by omega)]

theorem Made.entry {s' : FsState} (h : Made s ino s')
    (he : slot s' (s'.inode ino.toNat) q = some e) :
    (q = 0 ∧ e = ⟨ino, 1, dot⟩) ∨ (q = 1 ∧ e = ⟨s.cwd, 1, dotDot⟩) := by
  rw [h.slot_eq] at he
  split at he
  next hq => exact Or.inl ⟨hq, (Option.some.inj he).symm⟩
  next =>
    split at he
    next hq => exact Or.inr ⟨hq, (Option.some.inj he).symm⟩
    next => cases he

theorem Tidy.made (h : Tidy s) (hmade : Made s ino s') (hlive : Live s ino.toNat)
    (hempty : s.inode ino.toNat = Inode.empty) : Tidy s' := by
  have hdots : dot ≠ dotDot := by decide
  apply h.leaves hmade.leaves hmade.owned
  · exact fun _ => ⟨hmade.leaves.live hlive, hmade.type⟩
  · intro _
    refine ⟨hmade.hasBlocks, fun q e he => ?_, fun q q' e e' he he' hname => ?_⟩
    · rcases hmade.entry he with ⟨-, rfl⟩ | ⟨-, rfl⟩
      · exact hmade.leaves.live hlive
      · exact hmade.leaves.live h.cwd.1
    · rcases hmade.entry he with ⟨rfl, rfl⟩ | ⟨rfl, rfl⟩
      · rcases hmade.entry he' with ⟨rfl, -⟩ | ⟨-, rfl⟩
        · rfl
        · exact absurd hname hdots
      · rcases hmade.entry he' with ⟨-, rfl⟩ | ⟨rfl, -⟩
        · exact absurd hname.symm hdots
        · rfl
  · intro file hfile heq
    have htype := (h.files file hfile).inode
    rw [heq, hempty] at htype
    exact absurd htype (show ¬(0 : UInt8) = 2 by decide)

/-- What giving an inode with its blocks back leaves. -/
noncomputable def discarded (s : FsState) (k : Nat) : FsState :=
  (release s (leaves s (s.inode k))).setInodeUsed k false

theorem live_discarded : Live (discarded s k) k' ↔ k' ≠ k ∧ Live s k' := by
  have hused : (discarded s k).inodeUsed k' = if k' = k then false else s.inodeUsed k' :=
    Function.update_apply ..
  unfold Live
  rw [hused]
  rcases eq_or_ne k' k with rfl | hne
  · simp
  · rw [if_neg hne]
    exact ⟨fun h => ⟨hne, h⟩, fun h => h.2⟩

/-- An inode without further names, that is not in use, is given back. -/
theorem Tidy.discard (h : Tidy s) (hlive : Live s k) (hroot : k ≠ 0) (hcwd : s.cwd.toNat ≠ k)
    (hnames : ∀ k', Dir s k' → k' ≠ k → ∀ q e, slot s (s.inode k') q = some e → e.inode.toNat ≠ k)
    (hfiles : ∀ file, some file ∈ s.files → file.inodeIdx.toNat ≠ k) : Tidy (discarded s k) := by
  have hdir : ∀ k', Dir (discarded s k) k' → k' ≠ k ∧ Dir s k' := fun k' hk' =>
    ⟨(live_discarded.mp hk'.1).1, (live_discarded.mp hk'.1).2, hk'.2⟩
  refine ⟨Owned.discard h.owned hlive, ⟨live_discarded.mpr ⟨hroot.symm, h.root.1⟩, h.root.2⟩,
    ⟨live_discarded.mpr ⟨hcwd, h.cwd.1⟩, h.cwd.2⟩, fun k' hk' => ?_, fun file hfile => ?_, h.keys⟩
  · obtain ⟨hne, hold⟩ := hdir k' hk'
    have hfolder := h.folder k' hold
    refine ⟨hfolder.hasBlocks, fun q e he => ?_, hfolder.names⟩
    exact live_discarded.mpr ⟨hnames k' hold hne q e he, hfolder.entries q e he⟩
  · obtain ⟨hfileLive, hpointer, hobject, htype⟩ := h.files file hfile
    exact ⟨live_discarded.mpr ⟨hfiles file hfile, hfileLive⟩, hpointer, hobject, htype⟩

theorem Tidy.setFiles (h : Tidy s) {files : List (Option File)}
    (hfiles : ∀ file, some file ∈ files → UpToDate s file)
    (hkeys : ∀ (i j : Nat) (file file' : File), (files[i]?).join = some file →
      (files[j]?).join = some file' → file.inodeIdx = file'.inodeIdx → i = j) :
    Tidy { s with files := files } := by
  refine ⟨⟨h.owned.tables, h.owned.isData, h.owned.settled, h.owned.unique⟩, h.root, h.cwd,
    fun k hk => ?_, fun file hfile => ?_, hkeys⟩
  · have hfolder := h.folder k hk
    exact ⟨hfolder.hasBlocks, hfolder.entries, hfolder.names⟩
  · obtain ⟨hlive, hpointer, hobject, htype⟩ := hfiles file hfile
    exact ⟨hlive, hpointer, hobject, htype⟩

theorem getElem?_set_join {files : List (Option File)} {i fd : Nat} {entry : Option File}
    {file : File} (h : ((files.set fd entry)[i]?).join = some file) :
    (i = fd ∧ entry = some file) ∨ i ≠ fd ∧ (files[i]?).join = some file := by
  rcases eq_or_ne i fd with rfl | hne
  · rcases lt_or_ge i files.length with hlt | hge
    · rw [List.getElem?_set_self hlt] at h
      exact Or.inl ⟨rfl, h⟩
    · rw [List.getElem?_eq_none (by rw [List.length_set]; exact hge)] at h
      cases h
  · rw [List.getElem?_set_ne hne.symm] at h
    exact Or.inr ⟨hne, h⟩

theorem mem_of_join {files : List (Option File)} {i : Nat} {file : File}
    (h : (files[i]?).join = some file) : some file ∈ files :=
  List.mem_of_getElem? (Option.join_eq_some_iff.mp h)

theorem Tidy.keys_set (h : Tidy s) {fd : Nat} {file file' : File}
    (hfile : (s.files[fd]?).join = some file) (hidx : file'.inodeIdx = file.inodeIdx) (i j : Nat)
    (file₁ file₂ : File) (h₁ : ((s.files.set fd (some file'))[i]?).join = some file₁)
    (h₂ : ((s.files.set fd (some file'))[j]?).join = some file₂)
    (hsame : file₁.inodeIdx = file₂.inodeIdx) : i = j := by
  have hold : ∀ (i : Nat) (file₁ : File), ((s.files.set fd (some file'))[i]?).join = some file₁ →
      ∃ file₂, (s.files[i]?).join = some file₂ ∧ file₂.inodeIdx = file₁.inodeIdx := by
    intro i file₁ h₁
    rcases getElem?_set_join h₁ with ⟨rfl, heq⟩ | ⟨-, hold⟩
    · cases heq
      exact ⟨file, hfile, hidx.symm⟩
    · exact ⟨file₁, hold, rfl⟩
  obtain ⟨old₁, hold₁, hidx₁⟩ := hold i file₁ h₁
  obtain ⟨old₂, hold₂, hidx₂⟩ := hold j file₂ h₂
  exact h.keys i j old₁ old₂ hold₁ hold₂ (hidx₁.trans (hsame.trans hidx₂.symm))

theorem Tidy.storeFile (h : Tidy s) {fd : Nat} {file file' : File}
    (hfile : (s.files[fd]?).join = some file) (hidx : file'.inodeIdx = file.inodeIdx)
    (hupToDate : UpToDate s file') : Tidy { s with files := s.files.set fd (some file') } := by
  refine h.setFiles (fun file₁ hmem => ?_) (h.keys_set hfile hidx)
  rcases List.mem_or_eq_of_mem_set hmem with hmem | heq
  · exact h.files file₁ hmem
  · rw [Option.some.inj heq]
    exact hupToDate

theorem Tidy.closeFile (h : Tidy s) (fd : Nat) : Tidy { s with files := s.files.set fd none } := by
  refine h.setFiles (fun file hmem => ?_) fun i j file₁ file₂ h₁ h₂ hsame => ?_
  · rcases List.mem_or_eq_of_mem_set hmem with hmem | heq
    · exact h.files file hmem
    · cases heq
  · rcases getElem?_set_join h₁ with ⟨-, heq⟩ | ⟨-, hold₁⟩
    · cases heq
    · rcases getElem?_set_join h₂ with ⟨-, heq⟩ | ⟨-, hold₂⟩
      · cases heq
      · exact h.keys i j file₁ file₂ hold₁ hold₂ hsame

/-- A file without an object gets one. -/
theorem Tidy.openFile (h : Tidy s) {file : File} (hnone : lookupFile file.inodeIdx s.files = none)
    (hupToDate : UpToDate s file) : Tidy { s with files := s.files ++ [some file] } := by
  have hfresh : ∀ (i : Nat) (file₁ : File), (s.files[i]?).join = some file₁ →
      file₁.inodeIdx ≠ file.inodeIdx := by
    intro i file₁ h₁ hsame
    have hall := List.findIdx?_eq_none_iff.mp hnone (some file₁) (mem_of_join h₁)
    rw [Option.map_some, hsame, decide_eq_true rfl] at hall
    cases hall
  have hcases : ∀ (i : Nat) (file₁ : File), ((s.files ++ [some file])[i]?).join = some file₁ →
      (s.files[i]?).join = some file₁ ∨ i = s.files.length ∧ file₁ = file := by
    intro i file₁ h₁
    rcases lt_trichotomy i s.files.length with hlt | rfl | hgt
    · rw [List.getElem?_append_left hlt] at h₁
      exact Or.inl h₁
    · rw [List.getElem?_append_right (le_refl _), Nat.sub_self] at h₁
      exact Or.inr ⟨rfl, (Option.some.inj h₁).symm⟩
    · rw [List.getElem?_eq_none (by rw [List.length_append, List.length_singleton]; omega)] at h₁
      cases h₁
  refine h.setFiles (fun file₁ hmem => ?_) fun i j file₁ file₂ h₁ h₂ hsame => ?_
  · rcases List.mem_append.mp hmem with hmem | hmem
    · exact h.files file₁ hmem
    · rw [Option.some.inj (List.mem_singleton.mp hmem)]
      exact hupToDate
  · rcases hcases i file₁ h₁ with hold₁ | ⟨rfl, rfl⟩
    · rcases hcases j file₂ h₂ with hold₂ | ⟨rfl, rfl⟩
      · exact h.keys i j file₁ file₂ hold₁ hold₂ hsame
      · exact absurd hsame (hfresh i file₁ hold₁)
    · rcases hcases j file₂ h₂ with hold₂ | ⟨rfl, rfl⟩
      · exact absurd hsame.symm (hfresh j file₂ hold₂)
      · rfl

theorem Tidy.goto (h : Tidy s) {dir : UInt32} (hdir : Dir s dir.toNat) :
    Tidy { s with cwd := dir } := by
  refine ⟨⟨h.owned.tables, h.owned.isData, h.owned.settled, h.owned.unique⟩, h.root, hdir,
    fun k hk => ?_, fun file hfile => ?_, h.keys⟩
  · have hfolder := h.folder k hk
    exact ⟨hfolder.hasBlocks, hfolder.entries, hfolder.names⟩
  · obtain ⟨hlive, hpointer, hobject, htype⟩ := h.files file hfile
    exact ⟨hlive, hpointer, hobject, htype⟩

end LabKernel.TidyDisk
