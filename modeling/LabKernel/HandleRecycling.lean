import LabKernel.CallSafety

/-!
When the file system uses a block object whose slot was recycled.
-/

namespace LabKernel.HandleRecycling

open LabKernel.BlockCache
open LabKernel.BlockObject
open LabKernel.ByteMemory
open LabKernel.CacheCoherence
open LabKernel.CacheRecency
open LabKernel.CallSafety
open LabKernel.FsCode
open LabKernel.FsLayout
open LabKernel.FsPrimitives
open LabKernel.FsRuns
open LabKernel.HandleSafety
open LabKernel.ProgramLogic
open LabKernel.TransitionSystem

variable {m m' : Machine Bytes Globals} {T T' : Finset Nat} {P : Machine Bytes Globals → Prop}

/-- The blocks of the inode table that hold the inodes named in a block of a
directory. -/
def inodeBlocksListed (d : Bytes) : Finset Nat :=
  ((Finset.range dirEntryPerBlock).filter fun j => (DirEntry.ofBytes d j).valid ≠ 0).image
    fun j => 5 + (DirEntry.ofBytes d j).inode.toNat / 64

/-- The cache holds a block of the directory together with the inodes it
names, whatever the block shows when it is opened. -/
def ListingFits (m : Machine Bytes Globals) (inode : Inode) : Prop :=
  ∀ i, direct inode i ≠ 0 → sector (direct inode i).toNat < blockEnd / sectorSize →
    ∀ d, MayShow m.cache (direct inode i).toNat d →
      (insert (direct inode i).toNat (inodeBlocksListed d)).card ≤ cacheSize

theorem ListingFits.tracks {inode : Inode} (h : ListingFits m inode)
    (htracks : Tracks T T' ∅ m m') : ListingFits m' inode := fun i hi hsector d hd =>
  h i hi hsector d (htracks.mayShow _ _ (fun _ hw => absurd hw (Set.notMem_empty _)) hd)

section Lasting

variable [Lasting P]

theorem print_tracks (h : P m) (s : Printed) :
    Runs (print s) m Halted fun _ m' => P m' ∧ Tracks T T ∅ m m' :=
  (modifyGlobals_tracks (T := T) h (layout_of_lasting h)).mono (fun _ _ he => he)
    fun _ _ hq => ⟨hq.1, hq.2.1⟩

theorem listEntry_tracks {block : Block} {optL : Bool} {j : Nat} (h : P m)
    (hT : T.card ≤ cacheSize) (hfresh : Fresh T m block) (hj : j < dirEntryPerBlock)
    (hlisted : optL = true → inodeBlocksListed (visible m block.blockid) ⊆ T) :
    Runs (listEntry block optL j) m Halted fun _ m' => P m' ∧ Tracks T T ∅ m m' := by
  refine ((tracked_of_lasting h).runs_load hfresh).bind ?_
  rintro d m ⟨rfl, rfl⟩
  dsimp only
  split
  next => exact runs_pure ⟨h, tracks_refl h⟩
  next hvalid =>
    split
    next hopt =>
      have hmem : 5 + (DirEntry.ofBytes (visible m block.blockid) j).inode.toNat / 64 ∈ T :=
        hlisted hopt (Finset.mem_image.mpr
          ⟨j, Finset.mem_filter.mpr ⟨Finset.mem_range.mpr hj, hvalid⟩, rfl⟩)
      refine (readInode_tracks h hT hmem).bind ?_
      rintro n m₁ ⟨h₁, htracks₁⟩
      refine ((tracked_of_lasting h₁).runs_load (htracks₁.fresh _ hfresh)).bind ?_
      rintro d m₁ ⟨rfl, rfl⟩
      refine (print_tracks (T := T) h₁ _).mono (fun _ _ he => he) ?_
      rintro _ m₂ ⟨h₂, htracks₂⟩
      exact ⟨h₂, htracks₁.trans htracks₂⟩
    next => exact print_tracks h _

theorem listEntries_tracks {block : Block} {optL : Bool} {left j : Nat} (h : P m)
    (hT : T.card ≤ cacheSize) (hfresh : Fresh T m block) (hj : j + left ≤ dirEntryPerBlock)
    (hlisted : optL = true → inodeBlocksListed (visible m block.blockid) ⊆ T) :
    Runs (listEntries block optL left j) m Halted fun _ m' => P m' ∧ Tracks T T ∅ m m' := by
  induction left generalizing m j with
  | zero => exact runs_pure ⟨h, tracks_refl h⟩
  | succ left ih =>
      refine (listEntry_tracks h hT hfresh (by omega) hlisted).bind ?_
      rintro _ m₁ ⟨h₁, htracks₁⟩
      refine (ih h₁ (htracks₁.fresh _ hfresh) (by omega) ?_).mono (fun _ _ he => he) ?_
      · rw [htracks₁.visible_eq _ hfresh (Set.notMem_empty _)]
        exact hlisted
      · rintro _ m₂ ⟨h₂, htracks₂⟩
        exact ⟨h₂, htracks₁.trans htracks₂⟩

theorem listBlocks_keeps {inode : Inode} {optL : Bool} {left i : Nat} (h : P m)
    (hfits : optL = true → ListingFits m inode) :
    Runs (listBlocks inode optL left i) m Halted fun _ m' => P m' := by
  induction left generalizing m i with
  | zero => exact runs_pure h
  | succ left ih =>
      unfold listBlocks
      split
      next => exact ih h hfits
      next hi =>
        set x := (direct inode i).toNat with hx
        refine (openBlock_tracks h (T := {x}) (by simp [cacheSize])
          (Finset.mem_singleton_self x)).bind ?_
        rintro block m₁ ⟨h₁, hid, hfresh, htracks₁, -⟩
        have hrest : ∀ m₂, P m₂ → Tracks ∅ ∅ ∅ m₁ m₂ →
            Runs (listBlocks inode optL left (i + 1)) m₂ Halted fun _ m' => P m' :=
          fun m₂ h₂ htracks₂ => ih h₂ fun hopt =>
            (hfits hopt).tracks (htracks₁.forget.trans htracks₂)
        cases optL with
        | false =>
            refine (listEntries_tracks h₁ (by simp [cacheSize]) hfresh (by simp) (by simp)).bind ?_
            rintro _ m₂ ⟨h₂, htracks₂⟩
            exact hrest m₂ h₂ htracks₂.forget
        | true =>
            have hsector : sector x < blockEnd / sectorSize :=
              hid ▸ (tracked_of_lasting h₁).fresh_sector_lt hfresh
            have hcard := hfits rfl i hi hsector (visible m₁ x) (htracks₁.mayShow _ _
              (fun _ hw => absurd hw (Set.notMem_empty _)) (mayShow_visible m₁ x))
            refine (listEntries_tracks h₁ hcard (hfresh.mono (Finset.singleton_subset_iff.mpr
              (Finset.mem_insert_self _ _))) (by simp) (by
                rw [hid]
                exact fun _ => Finset.subset_insert _ _)).bind ?_
            rintro _ m₂ ⟨h₂, htracks₂⟩
            exact hrest m₂ h₂ htracks₂.forget

end Lasting

/-- The blocks named in an index block. -/
def indexEntries (d : Bytes) : Finset Nat :=
  ((Finset.range pointersPerBlock).filter fun i => get32 d (4 * i) ≠ 0).image
    fun i => (get32 d (4 * i)).toNat

/-- The cache holds an outer index block together with the inner ones and the
bit map, whatever the outer one shows when it is opened. -/
def IndexFits (m : Machine Bytes Globals) (x : Nat) : Prop :=
  x ≠ 0 → sector x < blockEnd / sectorSize → (∀ y ∈ blockMapArea, sector y ≠ sector x) ∧
    ∀ d, MayShow m.cache x d → (insert x (blockMapArea ∪ indexEntries d)).card ≤ cacheSize

/-- The condition under which the blocks of an inode are freed safely.  The
pointer `data_l3` is never set by the file system. -/
def FreeingFits (m : Machine Bytes Globals) (inode : Inode) : Prop :=
  inode.dataL3 = 0 ∧ ∀ i, IndexFits m (inode.dataL2 i).toNat

theorem IndexFits.tracks {x : Nat} (h : IndexFits m x)
    (htracks : Tracks T T' blockMapArea m m') : IndexFits m' x := by
  intro hx hsector
  obtain ⟨harea, hcard⟩ := h hx hsector
  exact ⟨harea, fun d hd => hcard d (htracks.mayShow x d harea hd)⟩

section LastingWrite

variable [LastingWrite P]

theorem freeEntries_tracks {block : Block} {freeEntry : UInt32 → Fs Unit} {G : UInt32 → Prop}
    {left i : Nat}
    (hfree : ∀ p m, P m → G p →
      Runs (freeEntry p) m Halted fun _ m' => P m' ∧ Tracks T T blockMapArea m m')
    (h : P m) (hfresh : Fresh T m block) (hi : i + left ≤ pointersPerBlock)
    (hG : ∀ m', Tracks T T blockMapArea m m' → ∀ i < pointersPerBlock,
      get32 (visible m' block.blockid) (4 * i) ≠ 0 →
        G (get32 (visible m' block.blockid) (4 * i))) :
    Runs (freeEntries block freeEntry left i) m Halted fun _ m' =>
      P m' ∧ Tracks T T blockMapArea m m' := by
  induction left generalizing m i with
  | zero => exact runs_pure ⟨h, tracks_refl h⟩
  | succ left ih =>
      refine ((tracked_of_lasting h).runs_load hfresh).bind ?_
      rintro d m ⟨rfl, rfl⟩
      dsimp only
      split
      next => exact ih h hfresh (by omega) hG
      next hpointer =>
        refine (hfree _ m h (hG m (tracks_refl h) i (by omega) hpointer)).bind ?_
        rintro _ m₁ ⟨h₁, htracks₁⟩
        refine (ih h₁ (htracks₁.fresh _ hfresh) (by omega)
          fun m' htracks' => hG m' (htracks₁.trans htracks')).mono (fun _ _ he => he) ?_
        rintro _ m₂ ⟨h₂, htracks₂⟩
        exact ⟨h₂, htracks₁.trans htracks₂⟩

theorem freeRecur_zero_tracks {p : UInt32} (h : P m) (hT : T.card ≤ cacheSize)
    (hmem : blockMapArea ⊆ T) :
    Runs (freeInodeBlocksRecur 0 p) m Halted fun _ m' =>
      P m' ∧ Tracks T T blockMapArea m m' := by
  unfold freeInodeBlocksRecur
  split
  next => exact runs_pure ⟨h, tracks_refl h⟩
  next => exact blockFree_tracks h hT hmem

theorem freeRecur_one_tracks {p : UInt32} (h : P m) (hT : T.card ≤ cacheSize)
    (hmem : blockMapArea ⊆ T) (hp : p.toNat ∈ T) :
    Runs (freeInodeBlocksRecur 1 p) m Halted fun _ m' =>
      P m' ∧ Tracks T T blockMapArea m m' := by
  rw [freeInodeBlocksRecur_succ]
  refine (openBlock_tracks h hT hp).bind ?_
  rintro block m₁ ⟨h₁, -, hfresh, htracks₁, -⟩
  refine (freeEntries_tracks (G := fun _ => True)
    (fun p m h _ => freeRecur_zero_tracks h hT hmem) h₁ hfresh (by simp)
    fun _ _ _ _ _ => trivial).mono (fun _ _ he => he) ?_
  rintro _ m₂ ⟨h₂, htracks₂⟩
  exact ⟨h₂, (htracks₁.mono (Set.empty_subset _)).trans htracks₂⟩

theorem freeRecur_two_tracks {p : UInt32} (h : P m) (hp : p ≠ 0)
    (hfits : IndexFits m p.toNat) :
    Runs (freeInodeBlocksRecur 2 p) m Halted fun _ m' =>
      P m' ∧ Tracks ∅ ∅ blockMapArea m m' := by
  have hp0 : p.toNat ≠ 0 := fun heq => hp (UInt32.toNat_inj.mp heq)
  rw [freeInodeBlocksRecur_succ]
  refine (openBlock_tracks h (T := {p.toNat}) (by simp [cacheSize])
    (Finset.mem_singleton_self _)).bind ?_
  rintro block m₁ ⟨h₁, hid, hfresh, htracks₁, -⟩
  obtain ⟨harea, hcard⟩ := hfits hp0 (hid ▸ (tracked_of_lasting h₁).fresh_sector_lt hfresh)
  have hT := hcard (visible m₁ p.toNat) (htracks₁.mayShow _ _
    (fun _ hw => absurd hw (Set.notMem_empty _)) (mayShow_visible m₁ _))
  set T := insert p.toNat (blockMapArea ∪ indexEntries (visible m₁ p.toNat)) with hTdef
  have hmem : blockMapArea ⊆ T :=
    Finset.subset_union_left.trans (Finset.subset_insert _ _)
  have hentries : indexEntries (visible m₁ p.toNat) ⊆ T :=
    Finset.subset_union_right.trans (Finset.subset_insert _ _)
  have hfresh' : Fresh T m₁ block :=
    hfresh.mono (Finset.singleton_subset_iff.mpr (Finset.mem_insert_self _ _))
  have houter : block.blockid ∉ (blockMapArea : Set Nat) := fun hblock =>
    harea _ hblock (congrArg sector hid)
  refine (freeEntries_tracks (G := fun q => q.toNat ∈ T)
    (fun q m h hq => freeRecur_one_tracks h hT hmem hq) h₁ hfresh' (by simp) ?_).mono
    (fun _ _ he => he) ?_
  · intro m' htracks' i hi hne
    rw [htracks'.visible_eq _ hfresh' houter, hid] at hne ⊢
    exact hentries (Finset.mem_image.mpr
      ⟨i, Finset.mem_filter.mpr ⟨Finset.mem_range.mpr hi, hne⟩, rfl⟩)
  · rintro _ m₂ ⟨h₂, htracks₂⟩
    exact ⟨h₂, (htracks₁.mono (Set.empty_subset _)).forget.trans htracks₂.forget⟩

theorem freePointers_tracks {depth : Nat} {pointers : List UInt32} {G : UInt32 → Prop}
    (hfree : ∀ p m', P m' → Tracks ∅ ∅ blockMapArea m m' → p ≠ 0 → G p →
      Runs (freeInodeBlocksRecur depth p) m' Halted fun _ m'' =>
        P m'' ∧ Tracks ∅ ∅ blockMapArea m' m'') (h : P m)
    (hG : ∀ p ∈ pointers, G p) :
    Runs (freePointers depth pointers) m Halted fun _ m' =>
      P m' ∧ Tracks ∅ ∅ blockMapArea m m' := by
  induction pointers generalizing m with
  | nil => exact runs_pure ⟨h, tracks_refl h⟩
  | cons p rest ih =>
      unfold freePointers
      split
      next => exact ih hfree h fun q hq => hG q (by simp [hq])
      next hp =>
        refine (hfree p m h (tracks_refl h) hp (hG p (by simp))).bind ?_
        rintro _ m₁ ⟨h₁, htracks₁⟩
        refine (ih (fun q m' h' htracks' => hfree q m' h' (htracks₁.trans htracks')) h₁
          fun q hq => hG q (by simp [hq])).mono (fun _ _ he => he) ?_
        rintro _ m₂ ⟨h₂, htracks₂⟩
        exact ⟨h₂, htracks₁.trans htracks₂⟩

theorem freeInodeBlocks_keeps {inode : Inode} (h : P m) (hfits : FreeingFits m inode) :
    Runs (freeInodeBlocks inode) m Halted fun _ m' => P m' := by
  have hcard : blockMapArea.card = 4 := by decide
  refine (freePointers_tracks (G := fun _ => True) ?_ h fun _ _ => trivial).bind ?_
  · intro p m' h' _ _ _
    exact (freeRecur_zero_tracks h' (T := blockMapArea) (by rw [hcard]; decide)
      (Finset.Subset.refl _)).mono (fun _ _ he => he) fun _ _ hq => ⟨hq.1, hq.2.forget⟩
  rintro _ m₁ ⟨h₁, htracks₁⟩
  refine (freePointers_tracks (G := fun _ => True) ?_ h₁ fun _ _ => trivial).bind ?_
  · intro p m' h' _ _ _
    have hinsert := Finset.card_insert_le p.toNat blockMapArea
    exact (freeRecur_one_tracks h' (T := insert p.toNat blockMapArea)
      (by rw [hcard] at hinsert; rw [cacheSize]; omega) (Finset.subset_insert _ _)
      (Finset.mem_insert_self _ _)).mono (fun _ _ he => he) fun _ _ hq => ⟨hq.1, hq.2.forget⟩
  rintro _ m₂ ⟨h₂, htracks₂⟩
  refine (freePointers_tracks (G := fun p => IndexFits m p.toNat) ?_ h₂ ?_).bind ?_
  · intro p m' h' htracks' hp hindex
    exact freeRecur_two_tracks h' hp (hindex.tracks (htracks₁.trans (htracks₂.trans htracks')))
  · intro p hp
    obtain ⟨i, rfl⟩ := (List.mem_ofFn' ..).mp hp
    exact hfits.2 i
  rintro _ m₃ ⟨h₃, -⟩
  unfold freePointers
  rw [if_pos hfits.1]
  exact runs_pure h₃

theorem dropLink_keeps {ino : UInt32} {inode : Inode} (h : P m)
    (hfits : inode.linkCnt = 1 → FreeingFits m inode) :
    Runs (dropLink ino inode) m Halted fun _ m' => P m' := by
  unfold dropLink
  dsimp only
  split
  next => exact keeps_bind (keeps_writeInode _ _) (fun _ => keeps_pure _) m h
  next hlink =>
    have hone : inode.linkCnt = 1 := by
      have hzero : inode.linkCnt - 1 = 0 := not_not.mp hlink
      rw [← UInt16.sub_add_cancel inode.linkCnt 1, hzero]
      rfl
    refine (freeInodeBlocks_keeps h ?_).bind fun _ m₁ h₁ =>
      keeps_bind (keeps_inodeFree _) (fun _ => keeps_pure _) m₁ h₁
    exact hfits hone

end LastingWrite

/-- `fs_ls` up to the listing: the inode of the directory. -/
def lsPrefix (path : List UInt8) : Fs (Option Inode) := do
  let result ← fsCd path
  if result = -1 then return none
  else
    let inode ← readInode (← cwdNode)
    if inode.type ≠ 1 then return none else return some inode

/-- `fs_rm` (for `type` 2) and `fs_rmdir` (for `type` 1) up to the removal of
the entry: the inode that loses a link. -/
def rmPrefix (type : UInt8) (path : List UInt8) : Fs (Option Inode) := do
  let ino ← getInodeByFilename path false 0
  if isNegative ino then return none
  else
    let inode ← readInode ino
    if inode.type ≠ type then return none
    else if type = 1 ∧ inode.size ≠ 0 then return none
    else
      removeInodeByFilename path
      return some inode

/-- The blocks of an inode that is about to be freed fit into the cache. -/
def RemovalFits (m : Machine Bytes Globals) (type : UInt8) (path : List UInt8) : Prop :=
  ∀ inode m₁, (rmPrefix type path).run m = (.ok (some inode), m₁) →
    inode.linkCnt = 1 → FreeingFits m₁ inode

/-- The condition on a call: the blocks that a long listing, or the removal
of the last name of a file, works on at a time fit into the cache. -/
def Fits (m : Machine Bytes Globals) : FsOp → Prop
  | .ls path option => option &&& lsL ≠ 0 →
      ∀ inode m₁, (lsPrefix path).run m = (.ok (some inode), m₁) → ListingFits m₁ inode
  | .rm path => RemovalFits m 2 path
  | .rmdir path => RemovalFits m 1 path
  | _ => True

theorem header_tracks [Lasting P] {optL : Bool} {s : Printed} (h : P m) :
    Runs (doWhen optL (print s)) m Halted fun _ m' => P m' ∧ Tracks ∅ ∅ ∅ m m' := by
  cases optL with
  | false => exact runs_pure ⟨h, tracks_refl h⟩
  | true => exact print_tracks h s

theorem fsLs_keeps [Lasting P] {path : List UInt8} {option : UInt32} (h : P m)
    (hfits : Fits m (.ls path option)) : Runs (fsLs path option) m Halted fun _ m' => P m' := by
  have hcwd : ∀ m, cwdNode.run m = (.ok m.globals.cwdNode, m) := fun _ => rfl
  refine runs_cwdNode.bind ?_
  rintro oldCwd m ⟨rfl, rfl⟩
  refine (keeps_fsCd path m h).withRun.bind ?_
  rintro result m₁ ⟨h₁, hrun₁⟩
  split
  next => exact keeps_bind (keeps_setCwdNode _) (fun _ => keeps_pure _) m₁ h₁
  next hresult =>
    refine runs_cwdNode.bind ?_
    rintro ino m₁ ⟨rfl, rfl⟩
    refine (keeps_readInode _ m₁ h₁).withRun.bind ?_
    rintro inode m₂ ⟨h₂, hrun₂⟩
    split
    next =>
      exact keeps_bind (keeps_print _) (fun _ => keeps_bind (keeps_setCwdNode _) fun _ =>
        keeps_pure _)
        m₂ h₂
    next htype =>
      have hprefix : (lsPrefix path).run m = (.ok (some inode), m₂) := by
        unfold lsPrefix
        rw [run_bind_ok hrun₁, if_neg hresult, run_bind_ok (hcwd m₁), run_bind_ok hrun₂,
          if_neg htype]
        rfl
      refine (header_tracks h₂).bind ?_
      rintro _ m₃ ⟨h₃, htracks₃⟩
      refine (listBlocks_keeps h₃ ?_).bind fun _ m₄ h₄ => ?_
      · intro hopt
        exact (hfits (of_decide_eq_true hopt) inode m₂ hprefix).tracks htracks₃
      · exact keeps_bind (keeps_print _) (fun _ => keeps_bind (keeps_setCwdNode _) fun _ =>
          keeps_pure _) m₄ h₄

section LastingWrite

variable [LastingWrite P]

theorem fsRm_keeps {path : List UInt8} (h : P m) (hfits : Fits m (.rm path)) :
    Runs (fsRm path) m Halted fun _ m' => P m' := by
  refine (keeps_lookup path 0 m h).withRun.bind ?_
  rintro ino m₁ ⟨h₁, hrun₁⟩
  split
  next => exact keeps_failWith _ m₁ h₁
  next hino =>
    refine (keeps_readInode ino m₁ h₁).withRun.bind ?_
    rintro inode m₂ ⟨h₂, hrun₂⟩
    split
    next => exact keeps_failWith _ m₂ h₂
    next htype =>
      refine (keeps_removeInodeByFilename path m₂ h₂).withRun.bind ?_
      rintro _ m₃ ⟨h₃, hrun₃⟩
      refine dropLink_keeps h₃ fun hlink => hfits inode m₃ ?_ hlink
      unfold rmPrefix
      rw [run_bind_ok hrun₁, if_neg hino, run_bind_ok hrun₂, if_neg htype, if_neg (by simp),
        run_bind_ok hrun₃]
      rfl

theorem fsRmdir_keeps {path : List UInt8} (h : P m) (hfits : Fits m (.rmdir path)) :
    Runs (fsRmdir path) m Halted fun _ m' => P m' := by
  refine (keeps_lookup path 0 m h).withRun.bind ?_
  rintro ino m₁ ⟨h₁, hrun₁⟩
  split
  next => exact keeps_failWith _ m₁ h₁
  next hino =>
    refine (keeps_readInode ino m₁ h₁).withRun.bind ?_
    rintro inode m₂ ⟨h₂, hrun₂⟩
    split
    next => exact keeps_failWith _ m₂ h₂
    next htype =>
      split
      next => exact keeps_failWith _ m₂ h₂
      next hsize =>
        refine (keeps_removeInodeByFilename path m₂ h₂).withRun.bind ?_
        rintro _ m₃ ⟨h₃, hrun₃⟩
        refine dropLink_keeps h₃ fun hlink => hfits inode m₃ ?_ hlink
        unfold rmPrefix
        rw [run_bind_ok hrun₁, if_neg hino, run_bind_ok hrun₂, if_neg htype,
          if_neg fun hboth => hsize hboth.2, run_bind_ok hrun₃]
        rfl

theorem program_keeps {op : FsOp} (h : P m) (hfits : Fits m op)
    (hcat : ∀ path, op = .cat path → Runs (fsCat path) m Halted fun _ m' => P m')
    (hfread : ∀ fd buff length, op = .fread fd buff length →
      Runs (fsFread fd buff length) m Halted fun _ m' => P m') :
    Runs op.program m Halted fun _ m' => P m' := by
  have hdone : ∀ {α : Type} {p : Fs α} {m : Machine Bytes Globals},
      (Runs p m Halted fun _ m' => P m') →
        Runs (do let _ ← p) m Halted fun _ m' => P m' :=
    fun hp => hp.bind fun _ m' h' => runs_pure h'
  cases op with
  | mkfs => exact hdone (keeps_fsMkfs m h)
  | statfs =>
      exact hdone (keeps_bind keeps_getSuperblock (fun _ => keeps_bind (keeps_print _) fun _ =>
        keeps_pure _) m h)
  | cd path => exact hdone (keeps_fsCd path m h)
  | ls path option => exact hdone (fsLs_keeps h hfits)
  | mkdir path => exact hdone (keeps_fsMkdir path m h)
  | touch path => exact hdone (keeps_fsTouch path m h)
  | rm path => exact hdone (fsRm_keeps h hfits)
  | rmdir path => exact hdone (fsRmdir_keeps h hfits)
  | ln srcPath dstPath => exact hdone (keeps_fsLn srcPath dstPath m h)
  | cat path => exact hdone (hcat path rfl)
  | fopen path mode => exact hdone (keeps_fsFopen path mode m h)
  | fread fd buff length => exact hdone (hfread fd buff length rfl)
  | fwrite fd buff length => exact hdone (keeps_fsFwrite fd buff length m h)
  | lseek fd offset whence => exact hdone (keeps_fsLseek fd offset whence m h)
  | fclose fd =>
      exact hdone (keeps_bind (keeps_setFile fd none) (fun _ => keeps_pure _) m h)

end LastingWrite

/-- A call keeps a property that does not depend on the contents of the
blocks. -/
theorem program_enduring [Enduring P] {op : FsOp} (h : P m) (hfits : Fits m op) :
    Runs op.program m Halted fun _ m' => P m' :=
  program_keeps h hfits (fun path _ => keeps_fsCat (keeps_inodeModifyData false) path m h)
    fun fd buff length _ => keeps_fsFread (keeps_inodeModifyData false) fd buff length m h

theorem mounted_of_reachable (h : ReachableUnder fileSystem Fits m) : Mounted m := by
  refine ReachableUnder.invariant (P := Mounted) ?_ ?_ h
  · exact fun m hm => mounted_of_formatted hm
  · exact fun m op m' hm hfits hstep =>
      (program_enduring hm hfits).ok (program_run_of_next hstep)

/-- In every run whose calls meet the condition, no call uses a block object
after its slot was recycled, also if the call stops at an assertion. -/
theorem handles_not_recycled (h : ReachableUnder fileSystem Fits m) {op : FsOp}
    (hfits : Fits m op) : (op.program.run m).2.recycled = false := by
  have hop := program_enduring (mounted_of_reachable h) hfits
  unfold Runs at hop
  split at hop
  next hrun =>
    rw [hrun]
    exact hop.tracked.recycled
  next hrun =>
    rw [hrun]
    exact hop

/-- A file with one block and no other name. -/
def closedFile : List FsOp := [.fopen [97] oRdwr, .fwrite 0 zeros 10, .fclose 0]

theorem handles_not_recycled_rm : ∃ m, replay next blankFormatted closedFile = some m ∧
    returned ((fsRm [97]).run m).1 = some 0 ∧
      ((FsOp.rm [97]).program.run m).2.recycled = false := by
  have hfacts : (replay next blankFormatted closedFile).map (fun m =>
      (returned ((fsRm [97]).run m).1, (returned ((rmPrefix 2 [97]).run m).1).join.map fun n =>
        (n.linkCnt, n.dataDirect 0, decide (∀ i, n.dataL2 i = 0), n.dataL3))) =
        some (some 0, some (1, 518, true, 0)) := by
    rw [blankFormatted_eq]
    decide +kernel
  obtain ⟨m, hreplay, hfacts⟩ := Option.map_eq_some_iff.mp hfacts
  obtain ⟨hresult, hprefix⟩ := Prod.mk.inj hfacts
  have hreachable : ReachableUnder fileSystem Fits m := by
    refine reachableUnder_of_always (ReachableUnder.start formatted_blankFormatted) closedFile ?_
      hreplay
    intro op hop s
    simp only [closedFile, List.mem_cons, List.not_mem_nil, or_false] at hop
    rcases hop with rfl | rfl | rfl
    · trivial
    · trivial
    · trivial
  refine ⟨m, hreplay, hresult, handles_not_recycled hreachable fun inode m₁ hrun _ => ?_⟩
  rw [hrun] at hprefix
  simp only [returned, Option.join_some, Option.map_some, Option.some.injEq, Prod.mk.injEq]
    at hprefix
  obtain ⟨-, -, hl2, hl3⟩ := hprefix
  refine ⟨hl3, fun i hne => absurd ?_ hne⟩
  rw [of_decide_eq_true hl2 i]
  rfl

/-- A block of a directory with 64 entries, each naming an inode in another
block of the inode table. -/
def scatteredEntries : Bytes := fun i =>
  if i % 32 = 0 then UInt8.ofNat (64 * (i / 32))
  else if i % 32 = 1 then UInt8.ofNat (64 * (i / 32) / 256)
  else if i % 32 = 4 ∧ i / 32 < 64 then 1
  else if i % 32 = 8 then 97
  else 0

/-- A file is removed while it is open, its block becomes that of the new
directory `b`, and the open file then writes the entries of `b`. -/
def scatteringCalls : List FsOp :=
  [.fopen [97] oRdwr, .fwrite 0 zeros 4096, .rm [97], .mkdir [98], .lseek 0 0 seekSet,
    .fwrite 0 scatteredEntries 4096]

/-- The long listing of `b` opens 64 blocks of the inode table while it holds
the block of `b`, whose slot goes to the last of them. -/
theorem scattered_listing_recycles :
    ∃ m, Reachable fileSystem m ∧ ((FsOp.ls [98] lsL).program.run m).2.recycled = true := by
  have hrun : (replay next blankFormatted scatteringCalls).map
      (fun m => ((FsOp.ls [98] lsL).program.run m).2.recycled) = some true := by
    rw [blankFormatted_eq]
    decide +kernel
  obtain ⟨m, hreplay, hrecycled⟩ := Option.map_eq_some_iff.mp hrun
  exact ⟨m, reachable_of_replay (ReachableUnder.start formatted_blankFormatted) _ hreplay,
    hrecycled⟩

end LabKernel.HandleRecycling
