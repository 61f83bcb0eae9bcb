import LabKernel.IndexWrites
import LabKernel.FsRuns

/-!
Writing to an open file, in terms of the tables.

While a file is written, its inode is in memory and the pointers of new
blocks are not on disk yet.  The tables that matter are those with the inode
of the `File` object, and the machine shows them up to that inode.
-/

namespace LabKernel.FileWrites

open LabKernel.BlockCache
open LabKernel.BlockObject
open LabKernel.BlockOwnership
open LabKernel.ByteMemory
open LabKernel.DirectData
open LabKernel.FsCode
open LabKernel.FsLayout
open LabKernel.FsPrimitives
open LabKernel.FsTables
open LabKernel.HandleSafety
open LabKernel.IndexWrites
open LabKernel.ProgramLogic

variable {m m' : Machine Bytes Globals} {s s' : FsState} {k : Nat} {n₀ : Inode}

/-- The machine shows the tables `s` except that inode `k` is `n₀` on disk. -/
structure Writing (k : Nat) (n₀ : Inode) (m : Machine Bytes Globals) (s : FsState) : Prop where
  realizes : Realizes m (s.setInode k n₀)
  owned : Owned s
  live : Live s k

/-- The pointer behind which an offset of a file lies. -/
def rootOf (o : Nat) : Root :=
  if h0 : o < l0Bound then .direct ⟨o / l0Size, directIndex_lt h0⟩
  else if h1 : o < l1Bound then .l1 ⟨(o - l0Bound) / l1Size, l1Index_lt h1⟩
  else if h2 : o < l2Bound then .l2 ⟨(o - l1Bound) / l2Size, l2Index_lt h2⟩
  else .l3

/-- The offset below that root. -/
def below (o : Nat) : Nat :=
  if o < l0Bound then o % l0Size
  else if o < l1Bound then (o - l0Bound) % l1Size
  else (o - l1Bound) % l2Size

theorem offset_lt_l2Bound (offset : UInt32) : offset.toNat < l2Bound := by
  have := offset.toNat_lt
  have hbound : 2 ^ 32 ≤ l2Bound := by decide
  omega

theorem rootOf_ne_l3 (offset : UInt32) : rootOf offset.toNat ≠ .l3 := by
  unfold rootOf
  split
  next => exact nofun
  next =>
    split
    next => exact nofun
    next =>
      rw [dif_pos (offset_lt_l2Bound offset)]
      exact nofun

theorem offsetFits_below (offset : UInt32) :
    OffsetFits (rootOf offset.toNat).depth (below offset.toNat) := by
  have h1 : pointersPerBlock * entrySize 1 = l1Size := by decide
  have h2 : pointersPerBlock * entrySize 2 = l2Size := by decide
  have hpos1 : 0 < l1Size := by decide
  have hpos2 : 0 < l2Size := by decide
  unfold rootOf below OffsetFits
  split
  next => exact fun hne => absurd rfl hne
  next =>
    split
    next =>
      rw [Root.depth, h1]
      exact fun _ => Nat.mod_lt _ hpos1
    next =>
      rw [dif_pos (offset_lt_l2Bound offset), Root.depth, h2]
      exact fun _ => Nat.mod_lt _ hpos2

theorem pointer_grown (n : Inode) (bound : UInt32) (r : Root) :
    pointer (grown n bound) r = pointer n r := by
  unfold grown
  split <;> cases r <;> rfl

theorem takes_setInode {n : Inode} (hpointer : ∀ r, pointer n r = pointer (s.inode k) r) :
    Takes k s (s.setInode k n) := by
  refine takes_of_same rfl rfl rfl fun a ha => blockAt_congr (fun r => ?_) (fun _ _ _ _ => rfl) ha
  rw [FsState.setInode_inode, Function.update_self, hpointer]

theorem grows_setInode {n : Inode} (hpointer : ∀ r, pointer n r = pointer (s.inode k) r)
    (htype : n.type = (s.inode k).type) (hlinkCnt : n.linkCnt = (s.inode k).linkCnt) :
    Grows k s (s.setInode k n) := by
  have hself : (s.setInode k n).inode k = n := Function.update_self ..
  have hpointer' : ∀ k' r, pointer ((s.setInode k n).inode k') r = pointer (s.inode k') r := by
    intro k' r
    rcases eq_or_ne k' k with rfl | hne
    · rw [hself, hpointer]
    · rw [FsState.setInode_inode, Function.update_of_ne hne]
  refine ⟨rfl, rfl, rfl, fun k' hne => Function.update_of_ne hne .., ?_, ?_,
    fun k' _ a ha _ => blockAt_congr (hpointer' k') (fun _ _ _ _ => rfl) ha,
    fun _ _ _ _ _ _ => rfl, fun _ => takes_setInode hpointer⟩
  · rw [hself, htype]
  · rw [hself, hlinkCnt]

theorem grown_type (n : Inode) (bound : UInt32) : (grown n bound).type = n.type := by
  unfold grown
  split <;> rfl

theorem grown_linkCnt (n : Inode) (bound : UInt32) : (grown n bound).linkCnt = n.linkCnt := by
  unfold grown
  split <;> rfl

theorem grows_grown (s : FsState) (k : Nat) (bound : UInt32) :
    Grows k s (s.setInode k (grown (s.inode k) bound)) :=
  grows_setInode (pointer_grown _ bound) (grown_type _ bound) (grown_linkCnt _ bound)

/-- The recursion from a pointer of the inode.  A read behind an index block
would leave the bytes read in the index block. -/
theorem transferRoot {isWrite : Bool} {r : Root} {buffer : Bytes} {offset length : Nat}
    (h : Writing k n₀ m s) (hr : r ≠ .l3) (hoffset : OffsetFits r.depth offset)
    (hread : isWrite = false → r.depth = 0) :
    Runs (inodeModifyDataRecur isWrite r.depth none (pointer (s.inode k) r) (.buffer buffer) offset
      length) m Full fun b m' => b.2.2 = decide (pointer (s.inode k) r = 0) ∧ b.1 ≠ 0 ∧
        ∃ s', Writing k n₀ m' s' ∧ Grows k s s' ∧ s'.inode k = setPointer (s.inode k) r b.1 := by
  have hcard : blockMapArea.card = 4 := by decide
  have hdepth : r.depth ≤ 2 := by
    cases r with
    | l3 => exact absurd rfl hr
    | _ => simp [Root.depth]
  have href : RefersTo blockMapArea m s k ⟨r, []⟩ none := rfl
  have hT : blockMapArea.card + r.depth < cacheSize := by
    rw [hcard, cacheSize]
    omega
  have hfits : Place.Fits ⟨r, []⟩ := ⟨Nat.zero_le _, fun e he => absurd he List.not_mem_nil⟩
  have hpends : Pends blockMapArea ∅ k n₀ m s := pends_of_realizes h.realizes
  have hwrote : Runs (inodeModifyDataRecur isWrite r.depth none (pointer (s.inode k) r)
      (.buffer buffer) offset length) m Full fun b m' =>
        b.2.2 = decide (pointer (s.inode k) r = 0) ∧ ∃ s', Wrote blockMapArea ∅ none k n₀ s ⟨r, []⟩
          (pointer (s.inode k) r) b.1 m m' s' := by
    cases isWrite with
    | true =>
        have hbuffer : FreshData blockMapArea m (.buffer buffer) := trivial
        exact writeRecur_pends hpends h.owned h.live hfits (Nat.zero_add _) hoffset hT
          (Finset.Subset.refl _) href hbuffer rfl
    | false =>
        have hzero := hread rfl
        have hleaf : ¬Place.Inner ⟨r, []⟩ := by
          unfold Place.Inner
          rw [hzero]
          exact Nat.lt_irrefl 0
        rw [hzero] at hT ⊢
        exact readLeaf_pends hpends h.owned h.live hfits hleaf hT (Finset.Subset.refl _) href rfl
  refine hwrote.mono (fun _ _ he => he) ?_
  rintro ⟨b, data, new⟩ m' ⟨hnew, s', hwrote⟩
  obtain ⟨T', P', hpends, -, hsub⟩ := hwrote.pends
  simp only [withParent, ite_self] at hsub
  exact ⟨hnew, hwrote.present, s', ⟨hpends.realizes_of_empty hsub, hwrote.owned,
    hwrote.grows.live h.live⟩, hwrote.grows, hwrote.inode_eq⟩

/-- A transfer changes the inode in memory. -/
def changes (n : Inode) (offset length : UInt32) : Bool :=
  (n.size < offset + length && n.type = 2) || pointer n (rootOf offset.toNat) = 0

theorem grown_of_changes {n : Inode} {offset length : UInt32}
    (h : changes n offset length = false) : grown n (offset + length) = n := by
  unfold changes at h
  rw [Bool.or_eq_false_iff] at h
  rw [grown, if_neg]
  rw [h.1]
  exact Bool.false_ne_true

/-- The three branches of `inode_modify_data` as one. -/
theorem inodeModifyData_eq {isWrite : Bool} {n : Inode} {buffer : Bytes} {offset length : UInt32} :
    inodeModifyData isWrite n buffer offset length = (do
      assert (offset.toNat % blockSize + length.toNat ≤ blockSize) .crossesBlock
      let (blockid, data, modified) ← inodeModifyDataRecur isWrite (rootOf offset.toNat).depth none
        (pointer n (rootOf offset.toNat)) (.buffer buffer) (below offset.toNat) length.toNat
      return (setPointer (grown n (offset + length)) (rootOf offset.toNat) blockid,
        data.bytes buffer, (n.size < offset + length && n.type = 2) || modified)) := by
  rw [← pointer_grown n (offset + length)]
  unfold inodeModifyData rootOf below
  dsimp only
  by_cases h0 : offset.toNat < l0Bound
  · simp only [dif_pos h0, if_pos h0]
    rfl
  · by_cases h1 : offset.toNat < l1Bound
    · simp only [dif_neg h0, if_neg h0, dif_pos h1, if_pos h1]
      rfl
    · simp only [dif_neg h0, if_neg h0, dif_neg h1, if_neg h1, dif_pos (offset_lt_l2Bound offset)]
      rfl

theorem depth_rootOf_of_lt {o : Nat} (h : o < l0Bound) : (rootOf o).depth = 0 := by
  rw [rootOf, dif_pos h]
  rfl

theorem depth_rootOf_pos {o : Nat} (h : l0Bound ≤ o) : ∃ depth, (rootOf o).depth = depth + 1 := by
  unfold rootOf
  rw [dif_neg (not_lt.mpr h)]
  split
  next => exact ⟨0, rfl⟩
  next =>
    split
    next => exact ⟨1, rfl⟩
    next => exact ⟨2, rfl⟩

/-- One pointer of an inode is set, the others are as they were. -/
structure Repointed (n : Inode) (root : Root) (n' : Inode) : Prop where
  present : pointer n' root ≠ 0
  others : ∀ r ≠ root, pointer n' r = pointer n r

theorem inodeModifyData_writing {isWrite : Bool} {buffer : Bytes} {offset length : UInt32}
    (h : Writing k n₀ m s) (hfit : offset.toNat % blockSize + length.toNat ≤ blockSize)
    (hread : isWrite = false → offset.toNat < l0Bound) :
    Runs (inodeModifyData isWrite (s.inode k) buffer offset length) m Full fun r m' =>
      r.2.2 = changes (s.inode k) offset length ∧
        r.1.size = (grown (s.inode k) (offset + length)).size ∧ ∃ s', Writing k n₀ m' s' ∧
          Grows k s s' ∧ s'.inode k = r.1 ∧ (r.2.2 = false → r.1 = s.inode k) ∧
          Repointed (s.inode k) (rootOf offset.toNat) r.1 := by
  set s₁ := s.setInode k (grown (s.inode k) (offset + length)) with hs₁
  have hself : s₁.inode k = grown (s.inode k) (offset + length) := Function.update_self ..
  have h₁ : Writing k n₀ m s₁ := by
    refine ⟨?_, h.owned.setInode fun r => pointer_grown _ _ r, h.live⟩
    simp only [hs₁, FsState.setInode, Function.update_idem]
    exact h.realizes
  have hpointer : pointer (s.inode k) (rootOf offset.toNat) =
      pointer (s₁.inode k) (rootOf offset.toNat) := by
    rw [hself, pointer_grown]
  rw [inodeModifyData_eq, hpointer]
  refine runs_bind (runs_assert (fun hfalse => absurd hfit (by simpa using hfalse)) fun _ => ?_)
  refine (transferRoot h₁ (rootOf_ne_l3 offset) (offsetFits_below offset) fun hfalse =>
    depth_rootOf_of_lt (hread hfalse)).bind ?_
  rintro ⟨b, data, new⟩ m' ⟨hnew, hb, s', h', hgrows, hinode⟩
  simp only at hnew hb
  rw [hself] at hinode
  have hpointed : ∀ r, pointer (setPointer (grown (s.inode k) (offset + length))
      (rootOf offset.toNat) b) r = if r = rootOf offset.toNat then b else pointer (s.inode k) r :=
    fun r => by rw [pointer_setPointer, pointer_grown]
  refine runs_pure ⟨?_, ?_, s', h', (grows_grown s k _).trans hgrows, hinode, fun hfalse => ?_,
    ?_, fun r hr => ?_⟩
  · rw [changes, hpointer, hnew]
  · cases rootOf offset.toNat <;> rfl
  · rw [hnew, ← hpointer] at hfalse
    have hsame : changes (s.inode k) offset length = false := hfalse
    have hne : pointer (s.inode k) (rootOf offset.toNat) ≠ 0 := by
      simpa using (Bool.or_eq_false_iff.mp hfalse).2
    have hb : b = pointer (s.inode k) (rootOf offset.toNat) := by
      have hblock := hgrows.block k h₁.live ⟨rootOf offset.toNat, []⟩
        ⟨Nat.zero_le _, fun e he => absurd he List.not_mem_nil⟩ (by
          rw [blockAt_root, ← hpointer]
          exact hne)
      rw [blockAt_root, blockAt_root, hinode, pointer_setPointer, if_pos rfl, ← hpointer] at hblock
      exact hblock
    rw [grown_of_changes hsame, hb, setPointer_self]
  · rw [hpointed, if_pos rfl]
    exact hb
  · rw [hpointed, if_neg hr]

/-- The bytes from `start` on lie inside the file, behind pointers that are
set. -/
structure InPlace (n : Inode) (start length : Nat) : Prop where
  within : start + length ≤ n.size.toNat
  present : ∀ o, start ≤ o → o < start + length → pointer n (rootOf o) ≠ 0

/-- The size of a round of the loop. -/
def roundSize (file : File) (length : Nat) : Nat :=
  min (blockSize - file.filePtr.toNat % blockSize) length

theorem roundSize_pos {file : File} {length : Nat} (h : length ≠ 0) :
    0 < roundSize file length := by
  have := Nat.mod_lt file.filePtr.toNat (show 0 < blockSize by decide)
  unfold roundSize
  omega

theorem changes_of_inPlace {n : Inode} {offset : UInt32} {size length : Nat} (hpos : 0 < size)
    (hle : size ≤ length) (h : InPlace n offset.toNat length) :
    changes n offset (UInt32.ofNat size) = false ∧
      (offset + UInt32.ofNat size).toNat = offset.toNat + size := by
  have hlt := n.size.toNat_lt
  have hwithin := h.within
  have hsum := toNat_add_ofNat (a := offset) (i := size) (by omega)
  refine ⟨?_, hsum⟩
  rw [changes, Bool.or_eq_false_iff, Bool.and_eq_false_iff]
  refine ⟨Or.inl (decide_eq_false ?_), decide_eq_false (h.present _ (le_refl _) (by omega))⟩
  rw [UInt32.lt_iff_toNat_lt, hsum]
  omega

theorem fileRound_writing {isWrite : Bool} {file : File} {buff : Bytes} {done length : Nat}
    (h : Writing k n₀ m s) (hfile : file.inode = s.inode k)
    (hread : isWrite = false → file.filePtr.toNat < l0Bound) :
    Runs (fileRound isWrite file buff done length) m Full fun r m' =>
      r.2.2.1 = changes file.inode file.filePtr (UInt32.ofNat (roundSize file length)) ∧
      r.2.2.2 = roundSize file length ∧
      r.1.filePtr = file.filePtr + UInt32.ofNat (roundSize file length) ∧
      r.1.inodeIdx = file.inodeIdx ∧ r.1.mode = file.mode ∧ ∃ s', Writing k n₀ m' s' ∧ Grows k s s' ∧
        r.1.inode = s'.inode k ∧ (r.2.2.1 = false → r.1.inode = file.inode) ∧
        Repointed file.inode (rootOf file.filePtr.toNat) r.1.inode := by
  have hsize : (UInt32.ofNat (roundSize file length)).toNat ≤ roundSize file length := by
    rw [UInt32.toNat_ofNat']
    exact Nat.mod_le _ _
  have hfit : file.filePtr.toNat % blockSize + (UInt32.ofNat (roundSize file length)).toNat ≤
      blockSize := by
    have := Nat.mod_lt file.filePtr.toNat (show 0 < blockSize by decide)
    unfold roundSize at *
    omega
  rw [hfile]
  unfold fileRound
  rw [hfile]
  refine (inodeModifyData_writing h hfit hread).bind ?_
  rintro ⟨n, bytes, modified⟩ m' ⟨hmodified, -, s', h', hgrows, hn, hsame, hrepointed⟩
  exact runs_pure ⟨hmodified, rfl, rfl, rfl, rfl, s', h', hgrows, hn.symm, hsame, hrepointed⟩

/-- The inode has an index block. -/
def HasIndexes (n : Inode) : Prop := ∃ r : Root, r.depth ≠ 0 ∧ pointer n r ≠ 0

theorem Repointed.hasIndexes {n n' : Inode} {root : Root} (h : Repointed n root n') :
    HasIndexes n' ↔ HasIndexes n ∨ root.depth ≠ 0 := by
  constructor
  · rintro ⟨r, hr, hne⟩
    rcases eq_or_ne r root with rfl | hother
    · exact Or.inr hr
    · rw [h.others r hother] at hne
      exact Or.inl ⟨r, hr, hne⟩
  · rintro (⟨r, hr, hne⟩ | hroot)
    · rcases eq_or_ne r root with rfl | hother
      · exact ⟨r, hr, h.present⟩
      · exact ⟨r, hr, by rwa [h.others r hother]⟩
    · exact ⟨root, hroot, h.present⟩

theorem depth_rootOf {o : Nat} : (rootOf o).depth ≠ 0 ↔ l0Bound ≤ o := by
  rcases lt_or_ge o l0Bound with hlt | hge
  · exact iff_of_false (not_not.mpr (depth_rootOf_of_lt hlt)) (not_le.mpr hlt)
  · obtain ⟨depth, hdepth⟩ := depth_rootOf_pos hge
    exact iff_of_true (by rw [hdepth]; exact Nat.succ_ne_zero _) hge

/-- A transfer of bytes behind the direct part. -/
def Deep (position length : Nat) : Prop := length ≠ 0 ∧ l0Bound < position + length

/-- What the loop leaves in the file. -/
structure Looped (k : Nat) (n₀ : Inode) (s : FsState) (file file' : File) (length : Nat)
    (modified modified' : Bool) (m' : Machine Bytes Globals) (s' : FsState) : Prop where
  writing : Writing k n₀ m' s'
  grows : Grows k s s'
  inode_eq : file'.inode = s'.inode k
  inodeIdx : file'.inodeIdx = file.inodeIdx
  mode : file'.mode = file.mode
  unmodified : modified' = false → modified = false ∧ file'.inode = file.inode
  inPlace : InPlace file.inode file.filePtr.toNat length → modified = false → modified' = false
  hasIndexes : HasIndexes file'.inode ↔ HasIndexes file.inode ∨ Deep file.filePtr.toNat length

/-- A round sets an index, or the rest of the loop does. -/
theorem hasIndexes_round {file file₁ file' : File} {length size : Nat} (hlength : length ≠ 0)
    (hsize : size = roundSize file length)
    (hptr : file₁.filePtr = file.filePtr + UInt32.ofNat size)
    (hrepointed : Repointed file.inode (rootOf file.filePtr.toNat) file₁.inode)
    (hrest : HasIndexes file'.inode ↔
      HasIndexes file₁.inode ∨ Deep file₁.filePtr.toNat (length - size)) :
    HasIndexes file'.inode ↔ HasIndexes file.inode ∨ Deep file.filePtr.toNat length := by
  have hbound : l0Bound = 32768 := by decide
  have hround : size = min (4096 - file.filePtr.toNat % 4096) length := hsize
  have hpos : 0 < roundSize file length := roundSize_pos hlength
  rw [hrest, hrepointed.hasIndexes, depth_rootOf, or_assoc]
  refine or_congr_right ?_
  unfold Deep
  rcases lt_or_ge file.filePtr.toNat l0Bound with hbelow | hge
  · have hsum : file₁.filePtr.toNat = file.filePtr.toNat + size := by
      rw [hptr, toNat_add_ofNat (by omega)]
    rw [hsum]
    omega
  · exact iff_of_true (Or.inl hge) (by omega)

theorem fileLoop_writing {isWrite : Bool} {left : Nat} {file : File} {buff : Bytes}
    {done length : Nat} {modified : Bool} (h : Writing k n₀ m s) (hfile : file.inode = s.inode k)
    (hleft : length ≤ left)
    (hread : isWrite = false → length = 0 ∨ file.filePtr.toNat + length ≤ l0Bound) :
    Runs (fileLoop isWrite left file buff done length modified) m Full fun r m' =>
      ∃ s', Looped k n₀ s file r.1 length modified r.2.2 m' s' := by
  have hstop : ∀ {m s file length modified}, Writing k n₀ m s → file.inode = s.inode k →
      length = 0 → Looped k n₀ s file file length modified modified m s := by
    rintro m s file _ modified h hfile rfl
    refine ⟨h, Grows.refl k s, hfile, rfl, rfl, fun hfalse => ⟨hfalse, rfl⟩, fun _ hfalse => hfalse,
      (or_iff_left fun hdeep => hdeep.1 rfl).symm⟩
  induction left generalizing m s file buff done length modified with
  | zero => exact runs_pure ⟨s, hstop h hfile (by omega)⟩
  | succ left ih =>
      rw [fileLoop]
      split
      next hzero => exact runs_pure ⟨s, hstop h hfile hzero⟩
      next hlength =>
        have hround : isWrite = false → file.filePtr.toNat < l0Bound := fun hfalse => by
          have := (hread hfalse).resolve_left hlength
          omega
        refine (fileRound_writing h hfile hround).bind ?_
        rintro ⟨file₁, buff₁, modified₁, size⟩ m₁ ⟨hmodified, hsize, hptr, hidx, hmode, s₁, h₁,
          hgrows₁, hfile₁, hsame₁, hrepointed⟩
        simp only at hmodified hsize hptr hidx hmode hfile₁ hsame₁ hrepointed
        have hrest : isWrite = false → length - size = 0 ∨
            file₁.filePtr.toNat + (length - size) ≤ l0Bound := fun hfalse => by
          have hbound := (hread hfalse).resolve_left hlength
          have hlimit : l0Bound < 2 ^ 32 := by decide
          have hle : roundSize file length ≤ length := Nat.min_le_right _ _
          rw [hptr, hsize, toNat_add_ofNat (by omega)]
          exact Or.inr (by omega)
        have hpos : 0 < roundSize file length := roundSize_pos hlength
        refine (ih h₁ hfile₁ (by omega) hrest).mono (fun _ _ he => he) ?_
        rintro r m₂ ⟨s₂, h₂⟩
        refine ⟨s₂, h₂.writing, hgrows₁.trans h₂.grows, h₂.inode_eq, h₂.inodeIdx.trans hidx,
          h₂.mode.trans hmode, ?_, ?_,
          hasIndexes_round hlength hsize (by rw [hptr, hsize]) hrepointed h₂.hasIndexes⟩
        · intro hfalse
          obtain ⟨hboth, hsame⟩ := h₂.unmodified hfalse
          rw [Bool.or_eq_false_iff] at hboth
          exact ⟨hboth.1, hsame.trans (hsame₁ hboth.2)⟩
        · intro hplace hfalse
          have hle : roundSize file length ≤ length := Nat.min_le_right _ _
          obtain ⟨hkeep, hsum⟩ := changes_of_inPlace (roundSize_pos hlength) hle hplace
          rw [hkeep] at hmodified
          refine h₂.inPlace ?_ (by rw [hfalse, hmodified]; rfl)
          rw [hsame₁ hmodified, hptr, hsum, hsize]
          have := hplace.within
          refine ⟨by omega, fun o hlo hhi => hplace.present o (by omega) (by omega)⟩

theorem Grows.leaves {n n' : Inode} (h : Grows k (s.setInode k n) s') :
    Leaves k s (s'.setInode k n') := by
  refine ⟨h.inodeUsed, h.cwd, h.files, fun k' hne => ?_, fun k' hne hk' a ha hblock => ?_⟩
  · rw [FsState.setInode_inode, Function.update_of_ne hne, h.inode k' hne]
    exact Function.update_of_ne hne ..
  · have hsame : (s.setInode k n).inode k' = s.inode k' := Function.update_of_ne hne ..
    have hdata := h.data k' hne hk' a ha
    rw [hsame] at hdata
    exact hdata hblock

/-- What a write leaves of the inode itself, on disk and in the file. -/
structure Written (k : Nat) (s : FsState) (file file' : File) (length : Nat) (s' : FsState) :
    Prop where
  leaves : Leaves k s s'
  takes : Takes k s s'
  inodeIdx : file'.inodeIdx = file.inodeIdx
  mode : file'.mode = file.mode
  type : file'.inode.type = file.inode.type
  linkCnt : file'.inode.linkCnt = file.inode.linkCnt
  inode : s'.inode k = s.inode k ∨
    s'.inode k = file'.inode ∧ ¬InPlace file.inode file.filePtr.toNat length

/-- The transfers that keep the tables: all writes, and the reads of the direct
part. -/
def Direct (isWrite : Bool) (file : File) (length : Nat) : Prop :=
  isWrite = false → file.mode &&& oRdonly = 0 ∨ length = 0 ∨
    file.filePtr.toNat + length ≤ l0Bound

theorem direct_write (file : File) (length : Nat) : Direct true file length := nofun

/-- The tables with the inode of the object. -/
theorem writing_of_realizes {n : Inode} (h : Realizes m s) (howned : Owned s) (hk : Live s k)
    (hpointer : ∀ r, pointer n r = pointer (s.inode k) r) :
    Writing k (s.inode k) m (s.setInode k n) := by
  refine ⟨?_, howned.setInode hpointer, hk⟩
  simp only [FsState.setInode, Function.update_idem, Function.update_eq_self]
  exact h

theorem fileTransfer_realizes {isWrite : Bool} {file : File} {buff : Bytes} {length : Nat}
    (h : Realizes m s) (howned : Owned s) (hk : Live s file.inodeIdx.toNat)
    (hpointer : ∀ r, pointer file.inode r = pointer (s.inode file.inodeIdx.toNat) r)
    (hdirect : Direct isWrite file length) :
    Runs (fileTransfer isWrite file buff length) m Full fun r m' => ∃ s', Realizes m' s' ∧
      Owned s' ∧ Written file.inodeIdx.toNat s file r.1 length s' ∧
        ∀ root, pointer r.1.inode root = pointer (s'.inode file.inodeIdx.toNat) root := by
  set k := file.inodeIdx.toNat with hkdef
  rw [fileTransfer]
  rcases eq_or_ne (file.mode &&& if isWrite then oWronly else oRdonly) 0 with hmode | hmode
  · rw [if_pos hmode]
    refine runs_pure ⟨s, h, howned, ⟨⟨rfl, rfl, rfl, fun _ _ => rfl, fun _ _ _ _ _ _ => rfl⟩,
      takes_refl k s, rfl, rfl, rfl, rfl, Or.inl rfl⟩, hpointer⟩
  · rw [if_neg hmode]
    have hread : isWrite = false → length = 0 ∨ file.filePtr.toNat + length ≤ l0Bound := by
      rintro rfl
      exact (hdirect rfl).resolve_left hmode
    have hself : (s.setInode k file.inode).inode k = file.inode := Function.update_self ..
    have hwriting := writing_of_realizes h howned hk hpointer
    refine (fileLoop_writing hwriting hself.symm (le_refl _) hread).bind ?_
    rintro ⟨file', buff', modified⟩ m₁ ⟨s₁, h₁⟩
    have htakes : Takes k s s₁ := (takes_setInode hpointer).trans (h₁.grows.takes hwriting.live)
    have htype : file'.inode.type = file.inode.type := by
      rw [h₁.inode_eq, h₁.grows.type, hself]
    have hlinkCnt : file'.inode.linkCnt = file.inode.linkCnt := by
      rw [h₁.inode_eq, h₁.grows.linkCnt, hself]
    cases modified with
    | false =>
        have hsame := (h₁.unmodified rfl).2
        have hkept : ∀ r, pointer (s.inode k) r = pointer (s₁.inode k) r := fun r => by
          rw [← h₁.inode_eq, hsame, hpointer]
        refine runs_pure ⟨_, h₁.writing.realizes, h₁.writing.owned.setInode hkept,
          ⟨Grows.leaves h₁.grows, htakes.trans (takes_setInode hkept), h₁.inodeIdx, h₁.mode, htype,
            hlinkCnt, Or.inl (Function.update_self ..)⟩, fun root => ?_⟩
        rw [FsState.setInode_inode, Function.update_self, hsame, hpointer]
    | true =>
        have hidx : file'.inodeIdx.toNat = k := by rw [h₁.inodeIdx]
        refine (writeInode_realizes h₁.writing.realizes (by rw [hidx]; exact hk.1)).bind ?_
        intro _ m₂ h₂
        rw [hidx, h₁.inode_eq] at h₂
        have hfront : (s₁.setInode k (s.inode k)).setInode k (s₁.inode k) = s₁ := by
          simp only [FsState.setInode, Function.update_idem, Function.update_eq_self]
        rw [hfront] at h₂
        have hleaves : Leaves k s (s₁.setInode k (s₁.inode k)) := Grows.leaves h₁.grows
        have hnochange : s₁.setInode k (s₁.inode k) = s₁ := by
          simp only [FsState.setInode, Function.update_eq_self]
        rw [hnochange] at hleaves
        refine runs_pure ⟨s₁, h₂, h₁.writing.owned, ⟨hleaves, htakes, h₁.inodeIdx, h₁.mode, htype,
          hlinkCnt, Or.inr ⟨h₁.inode_eq.symm, fun hplace => ?_⟩⟩, fun root => by rw [h₁.inode_eq]⟩
        cases h₁.inPlace hplace rfl

end LabKernel.FileWrites
