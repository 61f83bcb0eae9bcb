import LabKernel.TidyRuns

/-!
Which inodes and open files hold a block: in a run without premature removals
every block has one holder.
-/

namespace LabKernel.BlockHolders

open LabKernel.BlockCache
open LabKernel.BlockFreeing
open LabKernel.BlockObject
open LabKernel.BlockOwnership
open LabKernel.ByteMemory
open LabKernel.DirectData
open LabKernel.Directories
open LabKernel.DirectoryCalls
open LabKernel.FsCode
open LabKernel.FsLayout
open LabKernel.FsPrimitives
open LabKernel.FsRuns
open LabKernel.FsTables
open LabKernel.FsView
open LabKernel.ProgramLogic
open LabKernel.TidyCalls
open LabKernel.TidyDisk
open LabKernel.TidyRuns
open LabKernel.TransitionSystem

variable {m : Machine Bytes Globals} {s : FsState} {n : Inode} {k : Nat} {a : Place}

/-- The files and directories that are reached from the root directory. -/
inductive InTree (s : FsState) : Nat → Prop
  | root : InTree s 0
  | entry {k q : Nat} {e : DirEntry} : InTree s k → (s.inode k).type = 1 →
      slot s (s.inode k) q = some e → InTree s e.inode.toNat

/-- The inodes that blocks are reached from, with their numbers: those in the
tree, and the copies in the objects of open files. -/
inductive Holder (m : Machine Bytes Globals) : Nat → Inode → Prop
  | inTree {k : Nat} : InTree (shown m) k → Holder m k (inodeAt m k)
  | opened {file : File} : some file ∈ m.globals.files → Holder m file.inodeIdx.toNat file.inode

/-- Every block that is reached is marked as used, and it is reached from one
inode number through one pointer. -/
structure Exclusive (m : Machine Bytes Globals) : Prop where
  used : ∀ k n (a : Place), Holder m k n → a.Fits → blockAt (shown m) n a ≠ 0 →
    blockBit m (blockAt (shown m) n a).toNat = true
  unique : ∀ k k' n n' (a a' : Place), Holder m k n → Holder m k' n' → a.Fits → a'.Fits →
    blockAt (shown m) n a ≠ 0 → blockAt (shown m) n a = blockAt (shown m) n' a' → k = k' ∧ a = a'

theorem InTree.live (h : InTree (shown m) k) (hs : Realizes m s) (ht : Tidy s) : Live s k := by
  induction h with
  | root => exact ht.root.1
  | entry _ htype he ih =>
      rw [inode_shown hs ih] at htype
      have hdir : Dir s _ := ⟨ih, htype⟩
      rw [slot_dir_shown hs ht hdir] at he
      exact (ht.folder _ hdir).entries _ _ he

theorem Holder.blockAt_eq (h : Holder m k n) (hs : Realizes m s) (ht : Tidy s) (ha : a.Fits) :
    Live s k ∧ blockAt (shown m) n a = blockAt s (s.inode k) a := by
  obtain ⟨hlive, hpointer⟩ : Live s k ∧ ∀ r, pointer n r = pointer (s.inode k) r := by
    cases h with
    | inTree htree =>
        have hlive := htree.live hs ht
        exact ⟨hlive, fun r => by rw [hs.inode k hlive.1]⟩
    | opened hfile =>
        rw [hs.files] at hfile
        have hupToDate := ht.files _ hfile
        exact ⟨hupToDate.live, hupToDate.pointer⟩
  refine ⟨hlive, blockAt_congr hpointer (fun b hb hinner hne => ?_) ha⟩
  obtain ⟨d, hd⟩ := ht.owned.settled k hlive b hb hinner hne
  have hdata := (ht.owned.isData k hlive b hb hne).1
  rw [hd]
  exact congrArg some (hs.data _ hdata.1 hdata.2 d hd).1

theorem exclusive_of_ordered (h : Ordered m) : Exclusive m := by
  obtain ⟨s, hs, ho⟩ := h
  have howned := ho.tidy.owned
  constructor
  · intro k n a hholder ha hne
    obtain ⟨hlive, hblock⟩ := hholder.blockAt_eq hs ho.tidy ha
    rw [hblock] at hne ⊢
    obtain ⟨hdata, hused⟩ := howned.isData k hlive a ha hne
    rw [hs.blockUsed _ hdata.2, hused]
  · intro k k' n n' a a' hholder hholder' ha ha' hne heq
    obtain ⟨hlive, hblock⟩ := hholder.blockAt_eq hs ho.tidy ha
    obtain ⟨hlive', hblock'⟩ := hholder'.blockAt_eq hs ho.tidy ha'
    rw [hblock] at hne heq
    rw [hblock'] at heq
    exact howned.unique k k' hlive hlive' a a' ha ha' hne heq

/-- In every run of tended calls the blocks have one holder each. -/
theorem exclusive_of_tended (h : ReachableUnder fileSystem Tended m) : Exclusive m :=
  exclusive_of_ordered (ordered_of_tended h)

/-- A file with a block. -/
def oneBlock : List FsOp := [.fopen [97] oRdwr, .fwrite 0 zeros 1]

/-- The first block of the object behind a handle, and whether it is marked. -/
def firstBlock (fd : Nat) (m : Machine Bytes Globals) : Option (Nat × Bool) :=
  ((m.globals.files[fd]?).join).map fun file =>
    ((file.inode.dataDirect 0).toNat, blockBit m (file.inode.dataDirect 0).toNat)

theorem oneBlock_exclusive : ∃ m b, replay next blankFormatted oneBlock = some m ∧
    firstBlock 0 m = some (b, true) ∧ b ≠ 0 ∧ Exclusive m := by
  have hfacts : ((replay next blankFormatted oneBlock).bind (firstBlock 0)).map
      (fun block => (decide (block.1 = 0), block.2)) = some (false, true) := by
    rw [blankFormatted_eq]
    decide +kernel
  obtain ⟨⟨b, marked⟩, hblock, hfields⟩ := Option.map_eq_some_iff.mp hfacts
  obtain ⟨hb, hmarked⟩ := Prod.mk.inj hfields
  obtain ⟨m, hreplay, hfirst⟩ := Option.bind_eq_some_iff.mp hblock
  dsimp only at hmarked
  rw [hmarked] at hfirst
  have hstart : ReachableUnder fileSystem Tended blankFormatted :=
    ReachableUnder.start formatted_blankFormatted
  refine ⟨m, b, hreplay, hfirst, of_decide_eq_false hb, exclusive_of_tended ?_⟩
  refine reachableUnder_of_always hstart _ ?_ hreplay
  intro op hop s
  simp only [oneBlock, List.mem_cons, List.not_mem_nil, or_false] at hop
  rcases hop with rfl | rfl
  · exact ⟨trivial, nameOk_singleton (by decide)⟩
  · exact ⟨trivial, trivial⟩

/-- The file is removed while it is open. -/
def removedOpen : List FsOp := oneBlock ++ [.rm [97]]

theorem removedOpen_not_exclusive : ∃ m, replay next blankFormatted removedOpen = some m ∧
    Reachable fileSystem m ∧ ¬Exclusive m := by
  have hfacts : ((replay next blankFormatted removedOpen).bind (firstBlock 0)).map
      (fun block => (decide (block.1 = 0), block.2)) = some (false, false) := by
    rw [blankFormatted_eq]
    decide +kernel
  obtain ⟨⟨b, marked⟩, hblock, hfields⟩ := Option.map_eq_some_iff.mp hfacts
  obtain ⟨hb, hmarked⟩ := Prod.mk.inj hfields
  obtain ⟨m, hreplay, hfirst⟩ := Option.bind_eq_some_iff.mp hblock
  refine ⟨m, hreplay,
    reachable_of_replay (ReachableUnder.start formatted_blankFormatted) _ hreplay, ?_⟩
  intro hexclusive
  obtain ⟨file, hfile, hpair⟩ := Option.map_eq_some_iff.mp hfirst
  obtain ⟨rfl, rfl⟩ := Prod.mk.inj hpair
  have hused := hexclusive.used _ _ ⟨.direct 0, []⟩ (.opened (mem_of_join hfile)) (fits_root _)
    fun hzero => of_decide_eq_false hb (congrArg UInt32.toNat hzero)
  have hbit : blockBit m (file.inode.dataDirect 0).toNat = true := hused
  dsimp only at hmarked
  rw [hbit] at hmarked
  cases hmarked

end LabKernel.BlockHolders
