import LabKernel.BitMaps
import LabKernel.BlockHolders
import LabKernel.MindedRuns

/-!
The size of a directory is the number of its entries other than `.` and `..`,
by which `fs_rmdir` tells an empty directory.
-/

namespace LabKernel.DirectorySizes

open LabKernel.BitMaps (card_taken_le mem_taken taken taken_update_false taken_update_true)
open LabKernel.BlindPrograms (closed withFiles)
open LabKernel.BlockCache
open LabKernel.BlockFreeing
open LabKernel.BlockHolders
open LabKernel.BlockObject
open LabKernel.BlockOwnership
open LabKernel.ByteMemory
open LabKernel.Directories
open LabKernel.DirectoryCalls
open LabKernel.Formatting
open LabKernel.FsCode
open LabKernel.FsLayout
open LabKernel.FsPrimitives
open LabKernel.FsRuns
open LabKernel.FsTables
open LabKernel.FsView
open LabKernel.MindedRuns
open LabKernel.ProgramLogic
open LabKernel.TidyCalls
open LabKernel.TidyDisk
open LabKernel.TidyRuns
open LabKernel.TransitionSystem

variable {m m' : Machine Bytes Globals} {s s' s₀ s₁ : FsState} {n n' : Inode}
  {path : List UInt8} {k q : Nat} {e : DirEntry} {ino newInodeIdx : UInt32} {type : UInt8}

/-- An entry other than `.` and `..`. -/
def counted : Option DirEntry → Bool
  | some e => decide (e.name ≠ dot ∧ e.name ≠ dotDot)
  | none => false

theorem counted_dot (i : UInt32) (v : UInt32) : counted (some ⟨i, v, dot⟩) = false := by
  simp [counted]

theorem counted_dotDot (i : UInt32) (v : UInt32) : counted (some ⟨i, v, dotDot⟩) = false := by
  simp [counted]

/-- The number of entries of a directory that count. -/
def children (s : FsState) (n : Inode) : Nat :=
  (taken (fun q => counted (slot s n q)) 1024).card

/-- The size of every directory is right. -/
def Sized (s : FsState) : Prop := ∀ k, Dir s k → (s.inode k).size.toNat = children s (s.inode k)

theorem children_le (s : FsState) (n : Inode) : children s n ≤ 1024 := card_taken_le _ _

theorem children_congr (h : ∀ q, slot s' n' q = slot s n q) : children s' n' = children s n := by
  unfold children
  simp only [h]

theorem Sized.sameDirs (hs : Sized s) (h : SameDirs s s') : Sized s' := by
  intro k hk
  have hold := (h.dir k).mp hk
  rw [h.size k hold, children_congr (h.slot_eq k hold)]
  exact hs k hold

theorem sameDirs_setInode (hpointer : ∀ r, pointer n r = pointer (s.inode k) r)
    (htype : n.type = 1 ↔ (s.inode k).type = 1) (hsize : n.size = (s.inode k).size) :
    SameDirs s (s.setInode k n) := by
  refine ⟨fun k' => and_congr_right fun _ => ?_, fun k' _ => ?_, fun k' _ q => ?_⟩
  · rcases eq_or_ne k' k with rfl | hne
    · rw [FsState.setInode_inode, Function.update_self]
      exact htype
    · rw [FsState.setInode_inode, Function.update_of_ne hne]
  · rcases eq_or_ne k' k with rfl | hne
    · rw [FsState.setInode_inode, Function.update_self]
      exact hsize
    · rw [FsState.setInode_inode, Function.update_of_ne hne]
  · rcases eq_or_ne k' k with rfl | hne
    · rw [FsState.setInode_inode, Function.update_self]
      unfold slot
      rw [direct_congr hpointer]
      rfl
    · rw [FsState.setInode_inode, Function.update_of_ne hne]
      rfl

theorem children_slotSet {new : Option DirEntry} (h : SlotSet s s' q new) :
    (fun q' => counted (slot s' s'.here q')) =
      Function.update (fun q' => counted (slot s s.here q')) q (counted new) := by
  funext q'
  rw [Function.update_apply]
  split
  next heq => rw [heq, h.slot_self]
  next hne => rw [h.slot_of_ne q' hne]

theorem children_add {new : Option DirEntry} (h : SlotSet s s' q new) (hq : q < 1024)
    (hold : counted (slot s s.here q) = false) (hnew : counted new = true) :
    children s' s'.here = children s s.here + 1 := by
  have hnot : q ∉ taken (fun q' => counted (slot s s.here q')) 1024 := fun hmem => by
    rw [(mem_taken.mp hmem).2] at hold
    cases hold
  unfold children
  rw [children_slotSet h, hnew, taken_update_true hq, Finset.card_insert_of_notMem hnot]

theorem children_sub {new : Option DirEntry} (h : SlotSet s s' q new) (hq : q < 1024)
    (hold : counted (slot s s.here q) = true) (hnew : counted new = false) :
    children s' s'.here + 1 = children s s.here := by
  have hmem : q ∈ taken (fun q' => counted (slot s s.here q')) 1024 := mem_taken.mpr ⟨hq, hold⟩
  unfold children
  rw [children_slotSet h, hnew, taken_update_false, Finset.card_erase_add_one hmem]

/-- The new name counts, and it takes a slot that did not. -/
def InsertOk (s : FsState) (path : List UInt8) : Prop :=
  lookup s s.here path = none → (path ≠ dot ∧ path ≠ dotDot) ∧
    ((∃ q < 1024, slot s s.here q = none) ∨ counted (slot s s.here 0) = false)

theorem inode_provided (h : Provided s newInodeIdx ino s₀) (hk : Dir s₀ k) :
    s₀.inode k = s.inode k := by
  cases h with
  | given _ => rfl
  | new _ _ _ =>
      refine Function.update_of_ne ?_ ..
      rintro rfl
      have htype := hk.2
      rw [FsState.setInode_inode, Function.update_self] at htype
      exact absurd htype (show ¬(0 : UInt8) = 1 by decide)

theorem Sized.created (hs : Sized s) (ht : Tidy s)
    (hcreated : Created s path newInodeIdx ino q s₀ s') (hok : InsertOk s path) : Sized s' := by
  intro k hk
  have hset := hcreated.slotSet
  obtain ⟨hcwd₀, hhere₀, hdata₀⟩ := hcreated.provided.here_eq ht.standing
  rcases eq_or_ne k s.cwd.toNat with rfl | hne
  · obtain ⟨⟨hdot, hdots⟩, hroom⟩ := hok (lookup_of_misses hcreated.misses)
    have hhere : s'.inode s.cwd.toNat = s'.here := by
      rw [FsState.here, hset.leaves.cwd, hcwd₀]
    have hslot : ∀ q, slot s₀ s₀.here q = slot s s.here q := fun q => by
      rw [hhere₀, slot_congr hdata₀]
    have hold : counted (slot s₀ s₀.here q) = false := by
      rw [hslot]
      rcases hcreated.chosen with hnone | ⟨rfl, hfull⟩
      · rw [hnone]
        rfl
      · rcases hroom with ⟨q', hq', hfree⟩ | hzero
        · rcases Nat.eq_zero_or_pos q' with rfl | hpos
          · rw [hfree]
            rfl
          · exact absurd hfree (hfull q' hpos hq')
        · exact hzero
    have hchildren := children_add hset hcreated.lt hold (decide_eq_true ⟨hdot, hdots⟩)
    have hsize : s.here.size.toNat = children s s.here := hs _ ht.cwd
    have hle := children_le s s.here
    rw [hhere, hchildren, children_congr hslot, hcreated.size, UInt32.toNat_add, hsize]
    exact Nat.mod_eq_of_lt (show children s s.here + 1 < 2 ^ 32 by omega)
  · have hne₀ : k ≠ s₀.cwd.toNat := by rwa [hcwd₀]
    have hk₀ := (dir_of_leaves hset.leaves hne₀).mp hk
    obtain ⟨hold, hslot⟩ := provided_entry hcreated.provided hk₀
    have hsame : ∀ q, slot s' (s'.inode k) q = slot s (s.inode k) q := fun q => by
      rw [hset.leaves.slot_eq hne₀ hk₀.1, hslot]
    rw [children_congr hsame, hset.leaves.inode k hne₀, inode_provided hcreated.provided hk₀]
    exact hs k hold

theorem Sized.made (hs : Sized s) (hmade : Made s ino s') : Sized s' := by
  intro k hk
  rcases eq_or_ne k ino.toNat with rfl | hne
  · have hnone : taken (fun q => counted (slot s' (s'.inode ino.toNat) q)) 1024 = ∅ := by
      refine Finset.eq_empty_of_forall_notMem fun q hmem => ?_
      have hcounted := (mem_taken.mp hmem).2
      rw [hmade.slot_eq] at hcounted
      split at hcounted
      next =>
        rw [counted_dot] at hcounted
        cases hcounted
      next =>
        split at hcounted
        next =>
          rw [counted_dotDot] at hcounted
          cases hcounted
        next => cases hcounted
    rw [hmade.size, children, hnone]
    rfl
  · have hold := (dir_of_leaves hmade.leaves hne).mp hk
    have hsame : children s' (s'.inode k) = children s (s.inode k) :=
      children_congr (hmade.leaves.slot_eq hne hold.1)
    rw [hsame, hmade.leaves.inode k hne]
    exact hs k hold

/-- The new inode of a name becomes a file. -/
theorem Sized.touched (hs : Sized s) (ho : InOrder s) (h : Touched s path s')
    (hok : InsertOk s path) : Sized s' := by
  cases h with
  | existed => exact hs
  | created hcreated =>
      have hnew := newName_of_created ho hcreated
      refine (hs.created ho.tidy hcreated hok).sameDirs (sameDirs_setInode ?_ ?_ rfl)
      · intro r
        cases r <;> rfl
      · rw [hnew.inode]
        exact iff_of_false (show ¬(2 : UInt8) = 1 by decide) (show ¬(0 : UInt8) = 1 by decide)

theorem Sized.madeDir {r : Int} (hs : Sized s) (ho : InOrder s) (h : MadeDir s path r s')
    (hok : InsertOk s path) : Sized s' := by
  cases h with
  | existed _ => exact hs
  | made hcreated hmade => exact (hs.created ho.tidy hcreated hok).made hmade

theorem sameDirs_countUp (s : FsState) (k : Nat) : SameDirs s (countUp s k) :=
  sameDirs_setInode (fun r => by cases r <;> rfl) Iff.rfl rfl

theorem Sized.linked {srcPath dstPath : List UInt8} {r : Int} (hs : Sized s) (ho : InOrder s)
    (h : LinkDone s srcPath dstPath r s')
    (hok : ∀ e, lookup s s.here srcPath = some e → InsertOk s dstPath) : Sized s' := by
  cases h with
  | missing _ => exact hs
  | existed _ _ => exact hs.sameDirs (sameDirs_countUp _ _)
  | created hsrc hcreated =>
      exact (hs.created ho.tidy hcreated (hok _ hsrc)).sameDirs (sameDirs_countUp _ _)

/-- The name that is removed counts. -/
def RemovalCounts (s : FsState) (path : List UInt8) (type : UInt8) : Prop :=
  ∀ e, lookup s s.here path = some e → (s.inode e.inode.toNat).type = type →
    (type = 1 → (s.inode e.inode.toNat).size = 0) → path ≠ dot ∧ path ≠ dotDot

theorem Sized.cleared (hs : Sized s) (ht : Tidy s) (hset : SlotSet s s' q none)
    (he : slot s s.here q = some e) (hdot : e.name ≠ dot ∧ e.name ≠ dotDot)
    (hsize : s'.here.size = s.here.size - 1) : Sized s' := by
  intro k hk
  rcases eq_or_ne k s.cwd.toNat with rfl | hne
  · have hhere : s'.inode s.cwd.toNat = s'.here := by rw [FsState.here, hset.leaves.cwd]
    have hold : counted (slot s s.here q) = true := by
      rw [he]
      exact decide_eq_true hdot
    have hchildren := children_sub hset (lt_of_slot he) hold rfl
    have hbefore : s.here.size.toNat = children s s.here := hs _ ht.cwd
    have hle := children_le s s.here
    rw [hhere, hsize, UInt32.toNat_sub, hbefore, show (1 : UInt32).toNat = 1 from rfl]
    omega
  · have hold := (dir_of_leaves hset.leaves hne).mp hk
    have hsame : children s' (s'.inode k) = children s (s.inode k) :=
      children_congr (hset.leaves.slot_eq hne hold.1)
    rw [hsame, hset.leaves.inode k hne]
    exact hs k hold

theorem Sized.discarded (hs : Sized s) (k : Nat) : Sized (discarded s k) := fun k' hk' =>
  hs k' ⟨(live_discarded.mp hk'.1).2, hk'.2⟩

theorem Sized.removed (hs : Sized s) (ho : InOrder s) (h : Removed s path type s')
    (hok : RemovalCounts s path type) : Sized s' := by
  cases h with
  | kept => exact hs
  | removed hfinds htype hsize hset hsmaller hdropped =>
      have hdot := hok _ (lookup_of_finds hfinds) htype hsize
      rw [← hfinds.name_eq] at hdot
      have hs₁ := hs.cleared ho.tidy hset hfinds.slot_eq hdot hsmaller
      cases hdropped with
      | counted _ =>
          exact hs₁.sameDirs (sameDirs_setInode (fun r => by cases r <;> rfl) Iff.rfl rfl)
      | last _ => exact hs₁.discarded _

/-- The names that a call creates or removes count. -/
def NamesCount (m : Machine Bytes Globals) : FsOp → Prop
  | .mkdir path => InsertOk (shown m) path
  | .touch path => InsertOk (shown m) path
  | .fopen path _ => InsertOk (shown m) path
  | .ln srcPath dstPath => ∀ e, lookup (shown m) (shown m).here srcPath = some e →
      InsertOk (shown m) dstPath
  | .rm path => RemovalCounts (shown m) path 2
  | .rmdir path => RemovalCounts (shown m) path 1
  | _ => True

theorem slot_here_shown (h : Realizes m s) (ht : Tidy s) (q : Nat) :
    slot (shown m) (shown m).here q = slot s s.here q := by
  rw [here_shown h ht.standing.live, slot_shown h ht.standing.hasBlocks]

theorem insertOk_of_shown (h : Realizes m s) (ht : Tidy s) (hok : InsertOk (shown m) path) :
    InsertOk s path := by
  unfold InsertOk at hok
  simp only [slot_here_shown h ht, lookup_shown h ht] at hok
  exact hok

theorem removalCounts_of_shown (h : Realizes m s) (ht : Tidy s)
    (hok : RemovalCounts (shown m) path type) : RemovalCounts s path type := by
  intro e he htype hsize
  have hinode := inode_shown h (live_of_lookup ht he)
  refine hok e (by rw [lookup_shown h ht, he]) ?_ ?_
  · rwa [hinode]
  · rwa [hinode]

/-- The disk is in order, with right sizes. -/
def Measured (m : Machine Bytes Globals) : Prop := ∃ s, Realizes m s ∧ InOrder s ∧ Sized s

theorem sized_initial {p : UInt32} (h : Initial s p) : Sized s := by
  intro k hk
  have hzero : k = 0 := by
    have hused := hk.1.2
    rw [h.inodeUsed] at hused
    exact of_decide_eq_true hused
  have hhere : s.inode 0 = s.here := by
    rw [FsState.here, h.cwd]
    rfl
  have hnone : taken (fun q => counted (slot s s.here q)) 1024 = ∅ := by
    refine Finset.eq_empty_of_forall_notMem fun q hmem => ?_
    have hcounted := (mem_taken.mp hmem).2
    rw [h.slot_eq] at hcounted
    split at hcounted
    next => exact absurd hcounted (by decide)
    next =>
      split at hcounted
      next => exact absurd hcounted (by decide)
      next => cases hcounted
  rw [hzero, hhere, children, hnone, h.here]
  rfl

theorem measured_of_formatted (h : Formatted m) : Measured m := by
  obtain ⟨s, p, hs, hinitial⟩ := formatted_realizes h
  exact ⟨s, hs, inOrder_initial hinitial, sized_initial hinitial⟩

theorem measured_of_left {op : FsOp} (hs : Realizes m s) (ho : InOrder s) (hsized : Sized s)
    (hnames : NamesOk m op) (hcount : NamesCount m op) (hleft : Left s m' op) : Measured m' := by
  have ht := ho.tidy
  cases op with
  | mkfs => exact hnames.elim
  | mkdir path =>
      obtain ⟨r, s', h', hmade⟩ := hleft
      exact ⟨s', h', hmade.inOrder ho, hsized.madeDir ho hmade (insertOk_of_shown hs ht hcount)⟩
  | touch path =>
      obtain ⟨s', h', htouched⟩ := hleft
      exact ⟨s', h', htouched.inOrder ho,
        hsized.touched ho htouched (insertOk_of_shown hs ht hcount)⟩
  | fopen path mode =>
      obtain ⟨s₁, htouched, s', h', ho', hsame⟩ := hleft
      exact ⟨s', h', ho',
        (hsized.touched ho htouched (insertOk_of_shown hs ht hcount)).sameDirs hsame⟩
  | ln srcPath dstPath =>
      obtain ⟨r, s', h', hdone⟩ := hleft
      refine ⟨s', h', hdone.inOrder ho (linkOk_of_shown hs ht hnames.2),
        hsized.linked ho hdone fun e he => insertOk_of_shown hs ht (hcount e ?_)⟩
      rw [lookup_shown hs ht, he]
  | rm path =>
      obtain ⟨s', h', hremoved⟩ := hleft
      exact ⟨s', h', hremoved.inOrder ho (removeOk_of_shown hs ht hnames),
        hsized.removed ho hremoved (removalCounts_of_shown hs ht hcount)⟩
  | rmdir path =>
      obtain ⟨s', h', hremoved⟩ := hleft
      exact ⟨s', h', hremoved.inOrder ho (removeOk_of_shown hs ht hnames),
        hsized.removed ho hremoved (removalCounts_of_shown hs ht hcount)⟩
  | statfs | cd | ls | cat | fread | fwrite | lseek | fclose =>
      obtain ⟨s', h', ho', hsame⟩ := hleft
      exact ⟨s', h', ho', hsized.sameDirs hsame⟩

/-- The table of open files is on no disk. -/
theorem measured_closed (h : Measured m) : Measured (closed m) := by
  obtain ⟨s, hs, ho, hsized⟩ := h
  exact ⟨_, realizes_closed hs, inOrder_noFiles ho, hsized⟩

theorem measured_next {op : FsOp} (h : Measured (closed m)) (hok : Minded m op)
    (hcount : NamesCount m op) (hnext : next m op = some m') : Measured (closed m') := by
  obtain ⟨s, hs, ho, hsized⟩ := h
  have hcount' : NamesCount (closed m) op := by
    cases op <;> exact hcount
  rcases minded_cases hs ho hok hnext with ⟨-, s', p, hs', hinitial⟩ | ⟨hnames, hleft⟩
  · exact ⟨s', hs', inOrder_initial hinitial, sized_initial hinitial⟩
  · exact measured_of_left hs ho hsized hnames hcount' hleft

/-- Every entry in the tree of directories names an allocated file or directory,
and the sizes of the directories are right. -/
structure WellFormed (m : Machine Bytes Globals) : Prop where
  entries : ∀ k, InTree (shown m) k → (inodeAt m k).type = 1 → ∀ q e,
    slot (shown m) (inodeAt m k) q = some e → inodeBit m e.inode.toNat = true ∧
      ((inodeAt m e.inode.toNat).type = 1 ∨ (inodeAt m e.inode.toNat).type = 2)
  size : ∀ k, InTree (shown m) k → (inodeAt m k).type = 1 →
    (inodeAt m k).size.toNat = children (shown m) (inodeAt m k)

theorem wellFormed_of_measured (h : Measured m) : WellFormed m := by
  obtain ⟨s, hs, ho, hsized⟩ := h
  have ht := ho.tidy
  have hdir : ∀ k, InTree (shown m) k → (inodeAt m k).type = 1 → Dir s k := by
    intro k htree htype
    have hlive := htree.live hs ht
    rw [hs.inode k hlive.1] at htype
    exact ⟨hlive, htype⟩
  constructor
  · intro k htree htype q e he
    have hk := hdir k htree htype
    have hslot : slot s (s.inode k) q = some e := (slot_dir_shown hs ht hk q).symm.trans he
    have hlive := (ht.folder k hk).entries q e hslot
    rw [hs.inodeUsed _ hlive.1, hs.inode _ hlive.1]
    exact ⟨hlive.2, ho.typed _ hlive⟩
  · intro k htree htype
    have hk := hdir k htree htype
    have hchildren : children (shown m) (inodeAt m k) = children s (s.inode k) :=
      children_congr (slot_dir_shown hs ht hk)
    rw [hchildren, hs.inode k hk.1.1]
    exact hsized k hk

theorem inTree_closed (h : InTree (shown m) k) : InTree (shown (closed m)) k := by
  induction h with
  | root => exact .root
  | entry _ htype he ih => exact .entry ih htype he

theorem wellFormed_closed (h : WellFormed (closed m)) : WellFormed m :=
  ⟨fun k htree => h.entries k (inTree_closed htree), fun k htree => h.size k (inTree_closed htree)⟩

/-- In every run of minded calls whose names count, the directories are well
formed. -/
theorem wellFormed_of_minded
    (h : ReachableUnder fileSystem (fun m op => Minded m op ∧ NamesCount m op) m) :
    WellFormed m := by
  apply wellFormed_closed
  apply wellFormed_of_measured
  refine h.invariant (P := fun m => Measured (closed m))
    (fun _ hstart => measured_closed (measured_of_formatted hstart)) ?_
  exact fun m op m' hm hok hstep => measured_next hm hok.1 hok.2 hstep

/-- A directory made after a second `fs_mkfs`, with a file of the first file
system still open. -/
theorem oneChild_wellFormed : ∃ m, replay next blankFormatted [.fopen [97] 3, .mkfs, .mkdir [97]] =
    some m ∧ m.globals.files.length = 1 ∧ (inodeAt m 0).size = 1 ∧ WellFormed m := by
  have hslot : (slot (shown blankFormatted) (shown blankFormatted).here 2).isNone = true := by
    rw [blankFormatted_eq]
    decide +kernel
  have hfacts : (replay next blankFormatted [.fopen [97] 3, .mkfs]).map (fun m =>
      ((slot (shown m) (shown m).here 2).isNone,
        (next m (.mkdir [97])).map fun m => (m.globals.files.length, (inodeAt m 0).size))) =
          some (true, some (1, 1)) := by
    rw [blankFormatted_eq]
    decide +kernel
  obtain ⟨m, hreplay, hall⟩ := Option.map_eq_some_iff.mp hfacts
  obtain ⟨hslot', hmkdir⟩ := Prod.mk.inj hall
  obtain ⟨m', hnext, hboth⟩ := Option.map_eq_some_iff.mp hmkdir
  obtain ⟨hopen, hsize⟩ := Prod.mk.inj hboth
  have hinsert : ∀ {m : Machine Bytes Globals},
      (slot (shown m) (shown m).here 2).isNone = true → InsertOk (shown m) [97] :=
    fun hfree _ => ⟨by decide, Or.inl ⟨2, by decide, Option.isNone_iff_eq_none.mp hfree⟩⟩
  have hname : NameOk [97] := nameOk_singleton (by decide)
  obtain ⟨m₁, hfopen, hrest⟩ := Option.bind_eq_some_iff.mp hreplay
  obtain ⟨m₂, hmkfs, hend⟩ := Option.bind_eq_some_iff.mp hrest
  obtain rfl := Option.some.inj hend
  have hstart : ReachableUnder fileSystem (fun m op => Minded m op ∧ NamesCount m op) m₁ :=
    .step (.start formatted_blankFormatted) (a := .fopen [97] 3)
      ⟨⟨trivial, hname⟩, hinsert hslot⟩ hfopen
  have hformatted : ReachableUnder fileSystem (fun m op => Minded m op ∧ NamesCount m op) m₂ :=
    .step hstart (a := .mkfs) ⟨trivial, trivial⟩ hmkfs
  refine ⟨m', ?_, hopen, hsize, wellFormed_of_minded
    (.step hformatted (a := .mkdir [97]) ⟨⟨trivial, hname⟩, hinsert hslot'⟩ hnext)⟩
  simp only [replay, hfopen, hmkfs, hnext, Option.bind_some]

/-- The calls considered, with names that fit into an entry. -/
def Listed : FsOp → Prop
  | .cd path => NameOk path
  | .mkdir path => NameOk path
  | .touch path => NameOk path
  | .fopen path _ => NameOk path
  | .rm path => NameOk path
  | .rmdir path => NameOk path
  | .ln srcPath dstPath => NameOk srcPath ∧ NameOk dstPath
  | _ => False

/-- A link of the root directory, whose number 0 stands for a new inode: the
entry names an inode without a type. -/
theorem rootLink_not_wellFormed :
    ∃ m, ReachableUnder fileSystem (fun _ op => Listed op) m ∧ ¬ WellFormed m := by
  have hfacts : (next blankFormatted (.ln dot [120])).map (fun m => ((inodeAt m 0).type,
      (slot (shown m) (inodeAt m 0) 2).map fun e => (inodeAt m e.inode.toNat).type)) =
        some (1, some 0) := by
    rw [blankFormatted_eq]
    decide +kernel
  obtain ⟨m, hnext, hfields⟩ := Option.map_eq_some_iff.mp hfacts
  obtain ⟨hroot, hentry⟩ := Prod.mk.inj hfields
  obtain ⟨e, he, htype⟩ := Option.map_eq_some_iff.mp hentry
  have hlisted : Listed (.ln dot [120]) :=
    ⟨nameOk_singleton (by decide), nameOk_singleton (by decide)⟩
  refine ⟨m, .step (.start formatted_blankFormatted) hlisted hnext, fun h => ?_⟩
  have hone := (h.entries 0 .root hroot 2 e he).2
  rw [htype] at hone
  exact absurd hone (by decide)

end LabKernel.DirectorySizes
