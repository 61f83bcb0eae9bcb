import LabKernel.FsView
import Mathlib.Algebra.BigOperators.Group.Finset.Piecewise

/-!
The link count of a file is the number of its names.

The calls considered keep the current directory at the root and make no
directories, so all names are in the root directory.
-/

namespace LabKernel.LinkCounts

open LabKernel.BlockCache
open LabKernel.BlockFreeing
open LabKernel.BlockObject
open LabKernel.BlockOwnership
open LabKernel.ByteMemory
open LabKernel.DirectData
open LabKernel.Directories
open LabKernel.DirectoryCalls
open LabKernel.FileWrites
open LabKernel.Formatting
open LabKernel.FsCode
open LabKernel.FsLayout
open LabKernel.FsPrimitives
open LabKernel.FsRuns
open LabKernel.FsTables
open LabKernel.FsView
open LabKernel.HandleRecycling
open LabKernel.ProgramLogic
open LabKernel.TransitionSystem

variable {m m' : Machine Bytes Globals} {s s' s₀ : FsState} {n : Inode} {path : List UInt8}
  {k q : Nat} {e : DirEntry} {new : Option DirEntry} {ino newInodeIdx : UInt32}

/-- The inode named in slot `q` of the current directory. -/
def namedIn (s : FsState) (q : Nat) : Option Nat := (slot s s.here q).map fun e => e.inode.toNat

/-- The number of names of an inode in the current directory. -/
def count (s : FsState) (k : Nat) : Nat :=
  ((Finset.range 1024).filter fun q => namedIn s q = some k).card

theorem count_le (s : FsState) (k : Nat) : count s k ≤ 1024 :=
  (Finset.card_filter_le _ _).trans (Finset.card_range 1024).le

theorem count_congr (h : ∀ q, slot s' s'.here q = slot s s.here q) (k : Nat) :
    count s' k = count s k := by
  unfold count namedIn
  simp only [h]

theorem count_slotSet (h : SlotSet s s' q new) (hq : q < 1024) (k : Nat) :
    count s' k + (if namedIn s q = some k then 1 else 0) =
      count s k + (if new.map (fun e => e.inode.toNat) = some k then 1 else 0) := by
  have hmem : q ∈ Finset.range 1024 := Finset.mem_range.mpr hq
  have hself : namedIn s' q = new.map fun e => e.inode.toNat := by rw [namedIn, h.slot_self]
  have hrest : ∑ q' ∈ (Finset.range 1024).erase q, (if namedIn s' q' = some k then 1 else 0) =
      ∑ q' ∈ (Finset.range 1024).erase q, (if namedIn s q' = some k then 1 else 0) := by
    refine Finset.sum_congr rfl fun q' hq' => ?_
    rw [namedIn, namedIn, h.slot_of_ne q' (Finset.ne_of_mem_erase hq')]
  unfold count
  rw [Finset.card_filter, Finset.card_filter, ← Finset.add_sum_erase _ _ hmem,
    ← Finset.add_sum_erase _ (fun q => if namedIn s q = some k then 1 else 0) hmem, hrest, hself]
  omega

theorem count_pos (hq : q < 1024) (h : namedIn s q = some k) : 0 < count s k :=
  Finset.card_pos.mpr ⟨q, Finset.mem_filter.mpr ⟨Finset.mem_range.mpr hq, h⟩⟩

theorem namedIn_of_slot (h : slot s s.here q = some e) : namedIn s q = some e.inode.toNat := by
  rw [namedIn, h]
  rfl

theorem slot_of_namedIn (h : namedIn s q = some k) :
    ∃ e, slot s s.here q = some e ∧ e.inode.toNat = k :=
  Option.map_eq_some_iff.mp h

structure Flat (s : FsState) : Prop where
  standing : Standing s
  cwd : s.cwd = 0
  only : ∀ k, Live s k → (s.inode k).type = 1 → k = 0
  entries : ∀ q e, slot s s.here q = some e → Live s e.inode.toNat
  files : ∀ file, some file ∈ s.files → file.inode.type ≠ 1

/-- The count of an inode is right.  An inode that has no type yet gets its
count with its type, so it must have at most one name. -/
structure Counted (s : FsState) (k : Nat) : Prop where
  file : Live s k → (s.inode k).type = 2 → (s.inode k).linkCnt.toNat = count s k
  untyped : Live s k → (s.inode k).type = 0 → count s k ≤ 1

structure Linked (s : FsState) : Prop where
  flat : Flat s
  counted : ∀ k, Counted s k

namespace Flat

theorem cwd_toNat (h : Flat s) : s.cwd.toNat = 0 := by
  rw [h.cwd]
  rfl

theorem ne_zero_of_type (h : Flat s) (htype : (s.inode k).type ≠ 1) : k ≠ 0 := by
  rintro rfl
  have hroot := h.standing.type
  rw [FsState.here, h.cwd_toNat] at hroot
  exact htype hroot

theorem slotSet (h : Flat s) (hset : SlotSet s s' q new)
    (hnew : ∀ e, new = some e → Live s e.inode.toNat) : Flat s' := by
  refine ⟨hset.standing h.standing, hset.leaves.cwd.trans h.cwd, ?_, ?_, ?_⟩
  · intro k hk htype
    by_contra hne
    rw [hset.leaves.inode k (by rw [h.cwd_toNat]; exact hne)] at htype
    exact hne (h.only k (hset.leaves.of_live hk) htype)
  · intro q' e he
    rcases eq_or_ne q' q with rfl | hne
    · exact hset.leaves.live (hnew e (hset.slot_self.symm.trans he))
    · rw [hset.slot_of_ne q' hne] at he
      exact hset.leaves.live (h.entries q' e he)
  · rw [hset.leaves.files]
    exact h.files

theorem provided (h : Flat s) (hprovided : Provided s newInodeIdx ino s₀) : Flat s₀ := by
  have hstanding := hprovided.standing h.standing
  obtain ⟨hcwd, hhere, hdata⟩ := hprovided.here_eq h.standing
  cases hprovided with
  | given _ => exact h
  | @new ino _ hlt hfree =>
      set s₀ := (s.setInodeUsed ino.toNat true).setInode ino.toNat Inode.empty with hs₀
      refine ⟨hstanding, h.cwd, ?_, ?_, h.files⟩
      · intro k hk htype
        rcases eq_or_ne k ino.toNat with rfl | hne
        · rw [hs₀, FsState.setInode_inode, Function.update_self] at htype
          exact absurd htype (by decide)
        · rw [hs₀, FsState.setInode_inode, Function.update_of_ne hne] at htype
          refine h.only k ⟨hk.1, ?_⟩ htype
          rw [← hk.2]
          exact (Function.update_of_ne hne ..).symm
      · intro q e he
        rw [hhere, slot_congr hdata] at he
        obtain ⟨hlt', hused⟩ := h.entries q e he
        refine ⟨hlt', ?_⟩
        rw [hs₀, FsState.setInode_inodeUsed, FsState.setInodeUsed_inodeUsed, Function.update_apply,
          hused, ite_self]

end Flat

theorem here_setInode_pointer (hpointer : ∀ r, pointer n r = pointer (s.inode k) r) (r : Root) :
    pointer (s.setInode k n).here r = pointer s.here r := by
  rw [FsState.here, FsState.setInode_inode, Function.update_apply]
  split
  next heq =>
    rw [hpointer, ← heq]
    rfl
  next => rfl

theorem slot_setInode (hpointer : ∀ r, pointer n r = pointer (s.inode k) r) (q : Nat) :
    slot (s.setInode k n) (s.setInode k n).here q = slot s s.here q := by
  unfold slot
  rw [direct_congr (here_setInode_pointer hpointer)]
  rfl

/-- Writing an inode back with the same pointers. -/
theorem Flat.setInode (h : Flat s) (hpointer : ∀ r, pointer n r = pointer (s.inode k) r)
    (htype : n.type = 1 ↔ k = 0) : Flat (s.setInode k n) := by
  refine ⟨⟨h.standing.owned.setInode hpointer, h.standing.live, ?_, ?_⟩, h.cwd, ?_, ?_, h.files⟩
  · intro i hi
    rw [direct_congr (here_setInode_pointer hpointer)] at hi ⊢
    exact h.standing.hasBlocks i hi
  · rw [FsState.here, FsState.setInode_inode, Function.update_apply]
    split
    next heq =>
      rw [htype, ← heq]
      exact h.cwd_toNat
    next => exact h.standing.type
  · intro k' hk'
    rw [FsState.setInode_inode, Function.update_apply]
    split
    next heq => exact fun htype' => heq.trans (htype.mp htype')
    next => exact h.only k' hk'
  · intro q e he
    rw [slot_setInode hpointer] at he
    exact h.entries q e he

/-- Writing an inode back completes the counts. -/
theorem Linked.setInode (h : Flat s) (hcounted : ∀ k' ≠ k, Counted s k')
    (hpointer : ∀ r, pointer n r = pointer (s.inode k) r) (htype : n.type = 1 ↔ k = 0)
    (hfile : n.type = 2 → n.linkCnt.toNat = count s k) (huntyped : n.type = 0 → count s k ≤ 1) :
    Linked (s.setInode k n) := by
  have hsame := count_congr (slot_setInode (s := s) hpointer)
  refine ⟨h.setInode hpointer htype, fun k' => ?_⟩
  rcases eq_or_ne k' k with rfl | hne
  · have hself : (s.setInode k' n).inode k' = n := Function.update_self ..
    refine ⟨fun _ => ?_, fun _ => ?_⟩
    · rw [hself, hsame]
      exact hfile
    · rw [hself, hsame]
      exact huntyped
  · have hother : (s.setInode k n).inode k' = s.inode k' := Function.update_of_ne hne ..
    refine ⟨fun hk' => ?_, fun hk' => ?_⟩
    · rw [hother, hsame]
      exact (hcounted k' hne).file hk'
    · rw [hother, hsame]
      exact (hcounted k' hne).untyped hk'

/-- A new entry overwrites no name of a file: the directory has a free slot
other than slot 0, or slot 0 names no file. -/
def Spares (s : FsState) : Prop :=
  (∃ q < 1024, 0 < q ∧ slot s s.here q = none) ∨
    ∀ e ∈ slot s s.here 0, (s.inode e.inode.toNat).type ≠ 2

theorem type_ne_of_chosen (hroom : Spares s) (hchosen : Chosen s s.here q)
    (hnamed : namedIn s q = some k) : (s.inode k).type ≠ 2 := by
  obtain ⟨e, he, rfl⟩ := slot_of_namedIn hnamed
  rcases hchosen with hfree | ⟨rfl, hfull⟩
  · rw [hfree] at he
    cases he
  · rcases hroom with ⟨q', hlt, hpos, hfree⟩ | hspared
    · exact absurd hfree (hfull q' hpos hlt)
    · exact hspared e he

theorem provided_of_ne (h : Provided s newInodeIdx ino s₀) (hne : k ≠ ino.toNat) :
    (Live s₀ k → Live s k) ∧ s₀.inode k = s.inode k := by
  cases h with
  | given _ => exact ⟨fun hk => hk, rfl⟩
  | new _ _ _ =>
      refine ⟨fun hk => ⟨hk.1, ?_⟩, Function.update_of_ne hne ..⟩
      rw [← hk.2]
      exact (Function.update_of_ne hne ..).symm

theorem provided_live (h : Provided s newInodeIdx ino s₀)
    (hgiven : newInodeIdx ≠ 0 → Live s newInodeIdx.toNat) : Live s₀ ino.toNat := by
  cases h with
  | given hne => exact hgiven hne
  | new _ hlt _ => exact ⟨hlt, Function.update_self ..⟩

theorem created_count (h : Created s path newInodeIdx ino q s₀ s') (hs : Standing s) (k : Nat) :
    count s' k + (if namedIn s q = some k then 1 else 0) =
      count s k + (if ino.toNat = k then 1 else 0) := by
  obtain ⟨-, hhere, hdata⟩ := h.provided.here_eq hs
  have hslot : ∀ q, slot s₀ s₀.here q = slot s s.here q := fun q => by
    rw [hhere, slot_congr hdata]
  have hcount := count_slotSet h.slotSet h.lt k
  have hnamed : namedIn s₀ q = namedIn s q := by rw [namedIn, namedIn, hslot]
  rw [hnamed, count_congr hslot] at hcount
  simpa using hcount

/-- What a new name leaves of the counts. -/
structure NewName (s : FsState) (newInodeIdx ino : UInt32) (s' : FsState) : Prop where
  flat : Flat s'
  live : Live s' ino.toNat
  counted : ∀ k ≠ ino.toNat, Counted s' k
  empty : newInodeIdx = 0 → count s' ino.toNat = 1 ∧ s'.inode ino.toNat = Inode.empty
  given : newInodeIdx ≠ 0 → ino = newInodeIdx ∧ s'.inode ino.toNat = s.inode ino.toNat ∧
    ((s.inode ino.toNat).type = 2 → count s' ino.toNat = count s ino.toNat + 1)

theorem created_newName (h : Created s path newInodeIdx ino q s₀ s') (hl : Linked s)
    (hroom : Spares s) (hgiven : newInodeIdx ≠ 0 → Live s newInodeIdx.toNat) :
    NewName s newInodeIdx ino s' := by
  have hflat₀ := hl.flat.provided h.provided
  have hlive₀ := provided_live h.provided hgiven
  have hflat : Flat s' := by
    refine hflat₀.slotSet h.slotSet ?_
    rintro e ⟨⟩
    exact hlive₀
  have hcount := created_count h hl.flat.standing
  -- The inodes other than the root directory are those before the entry was written.
  have hinode : ∀ k ≠ 0, s'.inode k = s₀.inode k := fun k hk =>
    h.slotSet.leaves.inode k (by rw [hflat₀.cwd_toNat]; exact hk)
  have hroot : (s'.inode 0).type = 1 := by
    have htype := hflat.standing.type
    rwa [FsState.here, hflat.cwd_toNat] at htype
  have hkeep : ∀ k, (s.inode k).type = 2 → namedIn s q ≠ some k := fun k htype hnamed =>
    type_ne_of_chosen hroom h.chosen hnamed htype
  refine ⟨hflat, h.slotSet.leaves.live hlive₀, fun k hne => ?_, fun hzero => ?_, fun hne => ?_⟩
  · have hsame := hcount k
    rw [if_neg (show ¬ino.toNat = k from fun heq => hne heq.symm)] at hsame
    rcases eq_or_ne k 0 with rfl | hk0
    · refine ⟨fun _ htype => ?_, fun _ htype => ?_⟩
      · exact absurd (hroot.symm.trans htype) (by decide)
      · exact absurd (hroot.symm.trans htype) (by decide)
    · obtain ⟨hlive, hinode₀⟩ := provided_of_ne h.provided hne
      have hback : s'.inode k = s.inode k := (hinode k hk0).trans hinode₀
      refine ⟨fun hk htype => ?_, fun hk htype => ?_⟩
      · rw [hback] at htype ⊢
        rw [if_neg (hkeep k htype)] at hsame
        rw [(hl.counted k).file (hlive (h.slotSet.leaves.of_live hk)) htype]
        omega
      · rw [hback] at htype
        have := (hl.counted k).untyped (hlive (h.slotSet.leaves.of_live hk)) htype
        omega
  · have hsame := hcount ino.toNat
    rw [if_pos (show ino.toNat = ino.toNat from rfl)] at hsame
    cases h.provided with
    | given hne => exact absurd hzero hne
    | @new ino _ hlt hfree =>
        have hdead : ¬Live s ino.toNat := fun hk => by
          rw [hk.2] at hfree
          cases hfree
        have hino0 : ino.toNat ≠ 0 := by
          intro heq
          have hlive := hl.flat.standing.live
          rw [hl.flat.cwd_toNat, ← heq] at hlive
          exact hdead hlive
        have hnone : ∀ q, namedIn s q ≠ some ino.toNat := by
          intro q hnamed
          obtain ⟨e, he, heq⟩ := slot_of_namedIn hnamed
          exact hdead (heq ▸ hl.flat.entries q e he)
        have hzero : count s ino.toNat = 0 := by
          rw [count, Finset.card_eq_zero, Finset.filter_eq_empty_iff]
          exact fun q _ => hnone q
        rw [if_neg (hnone q)] at hsame
        refine ⟨by omega, ?_⟩
        rw [hinode _ hino0, FsState.setInode_inode, Function.update_self]
  · have hsame := hcount ino.toNat
    rw [if_pos (show ino.toNat = ino.toNat from rfl)] at hsame
    cases h.provided with
    | given _ =>
        have hino0 : ino.toNat ≠ 0 := fun heq => hne (UInt32.toNat_inj.mp heq)
        refine ⟨rfl, hinode _ hino0, fun htype => ?_⟩
        rw [if_neg (hkeep _ htype), Nat.add_zero] at hsame
        exact hsame
    | new hzero _ _ => exact absurd hzero hne

theorem counted_root (h : Flat s) : Counted s 0 := by
  have hroot := h.standing.type
  rw [FsState.here, h.cwd_toNat] at hroot
  refine ⟨fun _ htype => ?_, fun _ htype => ?_⟩
  · exact absurd (hroot.symm.trans htype) (by decide)
  · exact absurd (hroot.symm.trans htype) (by decide)

/-- The inode of a name that is looked up, and created if it is missing. -/
structure Obtained (s : FsState) (ino : UInt32) : Prop where
  flat : Flat s
  live : Live s ino.toNat
  counted : ∀ k ≠ ino.toNat, Counted s k
  untyped : (s.inode ino.toNat).type = 0 → count s ino.toNat = 1
  typed : (s.inode ino.toNat).type ≠ 0 → Counted s ino.toNat

theorem Obtained.linked (h : Obtained s ino) (htype : (s.inode ino.toNat).type ≠ 0) : Linked s := by
  refine ⟨h.flat, fun k => ?_⟩
  rcases eq_or_ne k ino.toNat with rfl | hne
  · exact h.typed htype
  · exact h.counted k hne

theorem Obtained.linked_file (h : Obtained s ino) (htype : (s.inode ino.toNat).type = 0) :
    Linked (s.setInode ino.toNat { s.inode ino.toNat with type := 2, linkCnt := 1 }) := by
  have hne : ino.toNat ≠ 0 := h.flat.ne_zero_of_type (by rw [htype]; decide)
  refine Linked.setInode h.flat h.counted (fun r => by cases r <;> rfl) ?_ ?_ ?_
  · exact iff_of_false (show ¬(2 : UInt8) = 1 by decide) hne
  · exact fun _ => (h.untyped htype).symm
  · exact fun hzero => absurd hzero (show ¬(2 : UInt8) = 0 by decide)

theorem finds_live (hl : Flat s) (h : Finds s s.here path 0 1024 q e) :
    Live s e.inode.toNat ∧ 0 < count s e.inode.toNat :=
  ⟨hl.entries q e h.slot_eq, count_pos h.lt (namedIn_of_slot h.slot_eq)⟩

theorem obtain_realizes (h : Realizes m s) (hl : Linked s) (hname : NameOk path)
    (hroom : lookup s s.here path = none → Spares s) :
    Runs (getInodeByFilename path true 0) m Any fun ino m' =>
      ∃ s', Realizes m' s' ∧ Obtained s' ino := by
  refine (getInode_realizes h hl.flat.standing hname).mono (fun _ _ _ => trivial) ?_
  rintro ino m' ⟨s', h', ⟨rfl, q, e, hfinds, rfl⟩ | ⟨q, s₀, hcreated⟩⟩
  · obtain ⟨hlive, hpos⟩ := finds_live hl.flat hfinds
    refine ⟨s', h', hl.flat, hlive, fun k _ => hl.counted k, fun htype => ?_, fun _ => hl.counted _⟩
    have := (hl.counted _).untyped hlive htype
    omega
  · have hnew := created_newName hcreated hl (hroom (lookup_of_misses hcreated.misses))
      fun hne => absurd rfl hne
    obtain ⟨hcount, hinode⟩ := hnew.empty rfl
    refine ⟨s', h', hnew.flat, hnew.live, hnew.counted, fun _ => hcount, fun htype => ?_⟩
    rw [hinode] at htype
    exact absurd rfl htype

theorem fsTouch_linked (h : Realizes m s) (hl : Linked s) (hname : NameOk path)
    (hroom : lookup s s.here path = none → Spares s) :
    Runs (fsTouch path) m Any fun _ m' => ∃ s', Realizes m' s' ∧ Linked s' := by
  refine (obtain_realizes h hl hname hroom).bind ?_
  rintro ino m₁ ⟨s₁, h₁, hobtained⟩
  rw [not_isNegative hobtained.live.1, if_neg Bool.false_ne_true]
  refine (readInode_realizes h₁ hobtained.live.1).bind ?_
  rintro _ m₂ ⟨rfl, h₂⟩
  split
  next htype =>
    refine (failWith_realizes h₂ _).mono (fun _ _ he => he) fun _ m₃ h₃ => ?_
    exact ⟨s₁, h₃, hobtained.linked htype⟩
  next htype =>
    refine (writeInode_realizes h₂ hobtained.live.1).bind ?_
    intro _ m₃ h₃
    exact runs_pure ⟨_, h₃, hobtained.linked_file (not_not.mp htype)⟩

theorem Linked.setFiles {files : List (Option File)} (h : Linked s)
    (hfiles : ∀ file, some file ∈ files → file.inode.type ≠ 1) :
    Linked { s with files := files } := by
  have howned := h.flat.standing.owned
  refine ⟨⟨⟨⟨howned.tables, howned.isData, howned.settled, howned.unique⟩, h.flat.standing.live,
    h.flat.standing.hasBlocks, h.flat.standing.type⟩, h.flat.cwd, h.flat.only, h.flat.entries,
    hfiles⟩, fun k => ⟨(h.counted k).file, (h.counted k).untyped⟩⟩

theorem initFile_linked {file : File} (h : Realizes m s) (hl : Linked s)
    (htype : file.inode.type ≠ 1) :
    Runs (initFile file) m Any fun _ m' => ∃ s', Realizes m' s' ∧ Linked s' := by
  refine (initFile_realizes h file).mono (fun _ _ he => he) ?_
  rintro _ m' ⟨files, h', hfiles⟩
  refine ⟨_, h', hl.setFiles fun file' hfile' => ?_⟩
  rcases hfiles with rfl | ⟨-, rfl⟩
  · exact hl.flat.files file' hfile'
  · rcases List.mem_append.mp hfile' with hmem | hmem
    · exact hl.flat.files file' hmem
    · rw [Option.some.inj (List.mem_singleton.mp hmem)]
      exact htype

theorem fsFopen_linked {mode : UInt32} (h : Realizes m s) (hl : Linked s) (hname : NameOk path)
    (hroom : lookup s s.here path = none → Spares s) :
    Runs (fsFopen path mode) m Any fun _ m' => ∃ s', Realizes m' s' ∧ Linked s' := by
  refine (obtain_realizes h hl hname hroom).bind ?_
  rintro ino m₁ ⟨s₁, h₁, hobtained⟩
  refine (readInode_realizes h₁ hobtained.live.1).bind ?_
  rintro _ m₂ ⟨rfl, h₂⟩
  split
  next htype => exact runs_pure ⟨s₁, h₂, hobtained.linked (by rw [htype]; decide)⟩
  next htype =>
    split
    next hzero =>
      refine (writeInode_realizes h₂ hobtained.live.1).bind ?_
      intro _ m₃ h₃
      exact initFile_linked h₃ (hobtained.linked_file hzero) (show ¬(2 : UInt8) = 1 by decide)
    next hne => exact initFile_linked h₂ (hobtained.linked hne) htype

theorem fsFclose_linked {fd : Nat} (h : Realizes m s) (hl : Linked s) :
    Runs (fsFclose fd) m Any fun _ m' => ∃ s', Realizes m' s' ∧ Linked s' := by
  refine (setFile_realizes h fd none).bind ?_
  intro _ m' h'
  refine runs_pure ⟨_, h', hl.setFiles fun file hfile => ?_⟩
  rcases List.mem_or_eq_of_mem_set hfile with hmem | heq
  · exact hl.flat.files file hmem
  · cases heq

theorem removed_counted {s₁ : FsState} (hl : Linked s) (hset : SlotSet s s₁ q none) (hq : q < 1024)
    (hnamed : namedIn s q = some k) :
    Flat s₁ ∧ (∀ k' ≠ k, Counted s₁ k') ∧ count s₁ k + 1 = count s k := by
  have hflat : Flat s₁ := hl.flat.slotSet hset nofun
  have hcount := count_slotSet hset hq
  refine ⟨hflat, fun k' hne => ?_, ?_⟩
  · rcases eq_or_ne k' 0 with rfl | hk0
    · exact counted_root hflat
    · have hsame := hcount k'
      rw [hnamed, if_neg (show ¬some k = some k' from fun heq => hne (Option.some.inj heq).symm),
        Option.map_none, if_neg (show ¬none = some k' from nofun)] at hsame
      have hinode := hset.leaves.inode k' (by rw [hl.flat.cwd_toNat]; exact hk0)
      refine ⟨fun hk htype => ?_, fun hk htype => ?_⟩
      · rw [hinode] at htype ⊢
        rw [(hl.counted k').file (hset.leaves.of_live hk) htype]
        omega
      · rw [hinode] at htype
        have := (hl.counted k').untyped (hset.leaves.of_live hk) htype
        omega
  · have hsame := hcount k
    rw [if_pos hnamed, Option.map_none, if_neg (show ¬none = some k from nofun)] at hsame
    omega

theorem blockAt_leaves {j : Nat} {a : Place} (h : Leaves j s s') (hne : k ≠ j) (hk : Live s k)
    (ha : a.Fits) : blockAt s' (s.inode k) a = blockAt s (s.inode k) a :=
  blockAt_congr (fun _ => rfl) (fun a ha _ hb => h.data k hne hk a ha hb) ha

theorem leaves_of_leaves {j : Nat} (h : Leaves j s s') (hne : k ≠ j) (hk : Live s k) :
    leaves s' (s.inode k) = leaves s (s.inode k) := by
  ext x
  simp only [mem_leaves]
  refine exists_congr fun a => and_congr_right fun ha => ?_
  rw [blockAt_leaves h hne hk ha]

/-- The blocks that the removal of the last name works on at a time fit into
the cache. -/
def TreeFits (s : FsState) (n : Inode) : Prop :=
  n.dataL3 = 0 ∧ ∀ i, n.dataL2 i ≠ 0 → (insert (n.dataL2 i).toNat
    (blockMapArea ∪ indexEntries ((s.data (n.dataL2 i).toNat).getD zeros))).card ≤ cacheSize

theorem TreeFits.outerFits (h : TreeFits s n) {i : Fin 2} (hne : n.dataL2 i ≠ 0) :
    OuterFits s (n.dataL2 i) := by
  intro index hindex
  have hcard := h.2 i hne
  rwa [hindex, Option.getD_some] at hcard

theorem TreeFits.leaves {j : Nat} (h : TreeFits s (s.inode k)) (hleaves : Leaves j s s')
    (hne : k ≠ j) (hk : Live s k) : TreeFits s' (s.inode k) := by
  refine ⟨h.1, fun i hi => ?_⟩
  have hdata : s'.data ((s.inode k).dataL2 i).toNat = s.data ((s.inode k).dataL2 i).toNat :=
    hleaves.data k hne hk ⟨.l2 i, []⟩ (fits_root _) hi
  rw [hdata]
  exact h.2 i hi

/-- What the removal of a name does to the file. -/
structure NameRemoved (s s' : FsState) (k : Nat) : Prop where
  last : count s k = 1 →
    s'.inodeUsed k = false ∧ ∀ x ∈ leaves s (s.inode k), s'.blockUsed x = false
  other : count s k ≠ 1 → s'.inodeUsed k = true ∧ s'.blockUsed = s.blockUsed

theorem discard_linked {s₁ : FsState} (hflat : Flat s₁) (hcounted : ∀ k' ≠ k, Counted s₁ k')
    (hk : Live s₁ k) (hk0 : k ≠ 0) (hcount : count s₁ k = 0) :
    Linked ((release s₁ (leaves s₁ (s₁.inode k))).setInodeUsed k false) := by
  set s₂ := (release s₁ (leaves s₁ (s₁.inode k))).setInodeUsed k false with hs₂
  have hother : ∀ k' ≠ k, Live s₁ k' → Live s₂ k' := fun k' hne hk' =>
    ⟨hk'.1, (Function.update_of_ne hne ..).trans hk'.2⟩
  have hback : ∀ k', Live s₂ k' → k' ≠ k ∧ Live s₁ k' := by
    rintro k' ⟨hlt, hused⟩
    rw [hs₂, FsState.setInodeUsed_inodeUsed, Function.update_apply] at hused
    split at hused
    next => cases hused
    next hne => exact ⟨hne, hlt, hused⟩
  have hroot : Live s₂ s₂.cwd.toNat :=
    hother _ (fun heq => hk0 (heq ▸ hflat.cwd_toNat)) hflat.standing.live
  refine ⟨⟨⟨Owned.discard hflat.standing.owned hk, hroot, hflat.standing.hasBlocks,
    hflat.standing.type⟩, hflat.cwd, fun k' hk' => hflat.only k' (hback k' hk').2, ?_,
    hflat.files⟩, fun k' => ⟨fun hk' => ?_, fun hk' => ?_⟩⟩
  · intro q e he
    have he' : slot s₁ s₁.here q = some e := he
    refine hother _ (fun heq => ?_) (hflat.entries q e he')
    rcases lt_or_ge q 1024 with hq | hq
    · have := count_pos hq (namedIn_of_slot he')
      rw [heq, hcount] at this
      exact absurd this (lt_irrefl 0)
    · rw [slot_of_zero (by rw [direct, dif_neg (by omega)])] at he'
      cases he'
  · exact (hcounted k' (hback k' hk').1).file (hback k' hk').2
  · exact (hcounted k' (hback k' hk').1).untyped (hback k' hk').2

theorem lookup_linked (h : Realizes m s) (hl : Linked s) :
    Runs (getInodeByFilename path false newInodeIdx) m Any fun ino m' => Realizes m' s ∧
      ((∃ q e, Finds s s.here path 0 1024 q e ∧ ino = e.inode ∧ isNegative ino = false) ∨
        (lookup s s.here path = none ∧ isNegative ino = true)) := by
  refine (lookup_realizes h hl.flat.standing.live.1 hl.flat.standing.hasBlocks).mono
    (fun _ _ he => he) ?_
  rintro ino m' ⟨h', ⟨q, e, hfinds, rfl⟩ | ⟨rfl, hmiss⟩⟩
  · exact ⟨h', Or.inl ⟨q, e, hfinds, rfl, not_isNegative (finds_live hl.flat hfinds).1.1⟩⟩
  · exact ⟨h', Or.inr ⟨lookup_of_misses hmiss, by decide⟩⟩

theorem fsRm_linked (h : Realizes m s) (hl : Linked s)
    (hfits : ∀ e, lookup s s.here path = some e → (s.inode e.inode.toNat).type = 2 →
      (s.inode e.inode.toNat).linkCnt = 1 → TreeFits s (s.inode e.inode.toNat)) :
    Runs (fsRm path) m Any fun _ m' => ∃ s', Realizes m' s' ∧ Linked s' ∧
      ∀ e, lookup s s.here path = some e → (s.inode e.inode.toNat).type = 2 →
        NameRemoved s s' e.inode.toNat := by
  refine (lookup_linked h hl).bind ?_
  rintro ino m₁ ⟨h₁, ⟨q, e, hfinds, rfl, hnegative⟩ | ⟨hnone, hnegative⟩⟩
  · rw [hnegative, if_neg Bool.false_ne_true]
    obtain ⟨hlive, hpos⟩ := finds_live hl.flat hfinds
    have hlookup := lookup_of_finds hfinds
    refine (readInode_realizes h₁ hlive.1).bind ?_
    rintro _ m₂ ⟨rfl, h₂⟩
    split
    next htype =>
      refine (failWith_realizes h₂ _).mono (fun _ _ he => he) fun _ m₃ h₃ => ?_
      refine ⟨s, h₃, hl, fun e' he' htype' => ?_⟩
      rw [hlookup] at he'
      rw [← Option.some.inj he'] at htype'
      exact absurd htype' htype
    next htype =>
      have htype : (s.inode e.inode.toNat).type = 2 := not_not.mp htype
      have hk0 : e.inode.toNat ≠ 0 := hl.flat.ne_zero_of_type (by rw [htype]; decide)
      have hcwd : e.inode.toNat ≠ s.cwd.toNat := by
        rw [hl.flat.cwd_toNat]
        exact hk0
      have hfile := (hl.counted _).file hlive htype
      refine (removeInode_realizes h₂ hl.flat.standing hfinds).bind ?_
      rintro _ m₃ ⟨s₁, h₃, hset, -, hblockUsed⟩
      obtain ⟨hflat₁, hcounted₁, hcount₁⟩ :=
        removed_counted hl hset hfinds.lt (namedIn_of_slot hfinds.slot_eq)
      have hlive₁ := hset.leaves.live hlive
      have hinode₁ := hset.leaves.inode _ hcwd
      rw [← hinode₁]
      refine (dropLink_realizes h₃ hlive₁ ?_ ?_).mono (fun _ _ he => he) ?_
      · exact fun _ r => indexed_of_owned hflat₁.standing.owned hlive₁ (fits_root r)
          (Nat.zero_add _)
      · intro hone
        rw [hinode₁] at hone ⊢
        have htree := (hfits e hlookup htype hone).leaves hset.leaves hcwd hlive
        exact ⟨htree.1, fun i hi => htree.outerFits hi⟩
      rintro _ m₄ (⟨hlink, h₄⟩ | ⟨hlink, h₄⟩)
      · have hmany : count s e.inode.toNat ≠ 1 := by
          intro hone
          rw [hinode₁] at hlink
          exact hlink (UInt16.toNat_inj.mp (hfile.trans hone))
        refine ⟨_, h₄, Linked.setInode hflat₁ hcounted₁ (fun r => by cases r <;> rfl) ?_ ?_ ?_, ?_⟩
        · rw [hinode₁, htype]
          exact iff_of_false (by decide) hk0
        · intro _
          show ((s₁.inode e.inode.toNat).linkCnt - 1).toNat = _
          rw [hinode₁, UInt16.toNat_sub_of_le, hfile]
          · have : (1 : UInt16).toNat = 1 := rfl
            omega
          · rw [UInt16.le_iff_toNat_le, hfile]
            exact hpos
        · rw [hinode₁, htype]
          exact fun hzero => absurd hzero (by decide)
        · intro e' he' _
          rw [hlookup] at he'
          rw [← Option.some.inj he']
          exact ⟨fun hone => absurd hone hmany, fun _ => ⟨hlive₁.2, hblockUsed⟩⟩
      · have hone : count s e.inode.toNat = 1 := by
          rw [hinode₁] at hlink
          rw [← hfile, hlink]
          rfl
        refine ⟨_, h₄, discard_linked hflat₁ hcounted₁ hlive₁ hk0 (by omega), ?_⟩
        intro e' he' _
        rw [hlookup] at he'
        rw [← Option.some.inj he']
        refine ⟨fun _ => ⟨Function.update_self .., fun x hx => ?_⟩, fun hmany => absurd hone hmany⟩
        rw [← leaves_of_leaves hset.leaves hcwd hlive, ← hinode₁] at hx
        exact if_pos hx
  · rw [hnegative, if_pos rfl]
    refine (failWith_realizes h₁ _).mono (fun _ _ he => he) fun _ m₂ h₂ => ?_
    refine ⟨s, h₂, hl, fun e he => ?_⟩
    rw [hnone] at he
    cases he

end LabKernel.LinkCounts
