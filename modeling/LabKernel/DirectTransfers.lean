import LabKernel.FileContents
import LabKernel.FileWrites
import LabKernel.FsPairs

/-!
Transfers to and from an open file that stay behind the direct pointers of its
inode, on two disks that differ in free blocks.
-/

namespace LabKernel.DirectTransfers

open LabKernel.BlockCache
open LabKernel.BlockObject
open LabKernel.BlockOwnership
open LabKernel.BlockPairs
open LabKernel.ByteMemory
open LabKernel.DirectData
open LabKernel.Directories
open LabKernel.DirectoryCalls
open LabKernel.FileContents
open LabKernel.FileWrites
open LabKernel.FsCode
open LabKernel.FsLayout
open LabKernel.FsPairs
open LabKernel.FsPrimitives
open LabKernel.FsTables
open LabKernel.IndexWrites
open LabKernel.PairedRuns
open LabKernel.ProgramLogic

variable {m₁ m₂ : Machine Bytes Globals} {s s' s₁ : FsState} {n n' n₀ : Inode} {k i j : Nat}
  {p : UInt32} {d d' : Bytes}

/-- The contents of a file as far as the direct pointers reach. -/
def contentsOf (s : FsState) (n : Inode) : Bytes := fun o =>
  if direct n (o / 4096) = 0 then 0
  else (s.data (direct n (o / 4096)).toNat).getD zeros (o % 4096)

theorem contentsOf_congr (hdirect : ∀ i, direct n' i = direct n i)
    (hdata : ∀ i, direct n i ≠ 0 → s'.data (direct n i).toNat = s.data (direct n i).toNat) :
    contentsOf s' n' = contentsOf s n := by
  funext o
  unfold contentsOf
  rw [hdirect]
  split
  next => rfl
  next hne => rw [hdata _ hne]

/-- A file after block `i` was replaced. -/
structure Replaced (k i : Nat) (d' : Bytes) (s s' : FsState) : Prop where
  owned : Owned s'
  grows : Grows k s s'
  hasBlocks : HasBlocks s' (s'.inode k)
  contents : ∀ o, contentsOf s' (s'.inode k) o =
    if o / 4096 = i then d' (o % 4096) else contentsOf s (s.inode k) o

theorem grows_of_pointed (h : Owned s) (hk : Live s k) (hi : i < 8)
    (hpointed : Pointed s (direct (s.inode k) i) p s₁) (hp : IsData p)
    (hpointer : ∀ r, pointer n' r = pointer (setDirect (s.inode k) i p) r)
    (htype : n'.type = (s.inode k).type) (hlinkCnt : n'.linkCnt = (s.inode k).linkCnt) :
    Grows k s ((s₁.setData p.toNat (some d')).setInode k n') := by
  set r : Root := .direct ⟨i, hi⟩ with hr
  have hleaf : ¬Place.Inner ⟨r, []⟩ := Nat.lt_irrefl 0
  have hdirect : direct (s.inode k) i = pointer (s.inode k) r := direct_eq_pointer hi
  cases hpointed with
  | old hne =>
      rw [hdirect] at hne hpointer ⊢
      refine (grows_setData_leaf h hk (fits_root r) hleaf hne (some d')).trans
        (grows_setInode (fun r' => ?_) htype hlinkCnt)
      rw [hpointer, pointer_setDirect hi]
      exact congrArg (fun n => pointer n r') (setPointer_self _ r)
  | new hzero hfree =>
      rw [hdirect] at hzero
      have hself : (attachRoot s k r p).inode k = setPointer (s.inode k) r p :=
        Function.update_self ..
      have hblock : blockAt (attachRoot s k r p) ((attachRoot s k r p).inode k) ⟨r, []⟩ = p := by
        rw [hself, blockAt_root, pointer_setPointer, if_pos rfl]
      have hattach := grows_attachRoot h hk hp hfree hzero
      have hwrite := grows_setData_leaf (h.attachRoot hp hfree hzero) (hattach.live hk)
        (fits_root r) hleaf (by
          rw [hblock]
          exact ne_zero_of_isData hp) (some d')
      rw [hblock] at hwrite
      have hsame : ((((s.setBlockUsed p.toNat true).setData p.toNat none).setData p.toNat
          (some d')).setInode k n') = (((attachRoot s k r p).setData p.toNat
            (some d')).setInode k n') := by
        simp only [attachRoot, FsState.setInode, FsState.setData, FsState.setBlockUsed,
          Function.update_idem]
      rw [hsame]
      refine (hattach.trans hwrite).trans (grows_setInode (fun r' => ?_) ?_ ?_)
      · rw [hpointer, pointer_setDirect hi]
        exact congrArg (fun n => pointer n r') hself.symm
      · exact htype.trans (congrArg Inode.type hself).symm
      · exact hlinkCnt.trans (congrArg Inode.linkCnt hself).symm

theorem replaced_of_pointed (h : Owned s) (hk : Live s k) (hblocks : HasBlocks s (s.inode k))
    (hi : i < 8) (hpointed : Pointed s (direct (s.inode k) i) p s₁) (hp : IsData p)
    (hpointer : ∀ r, pointer n' r = pointer (setDirect (s.inode k) i p) r)
    (htype : n'.type = (s.inode k).type) (hlinkCnt : n'.linkCnt = (s.inode k).linkCnt) :
    Replaced k i d' s ((s₁.setData p.toNat (some d')).setInode k n') := by
  set s' := (s₁.setData p.toNat (some d')).setInode k n' with hs'
  have hself : s'.inode k = n' := Function.update_self ..
  have hdirect : ∀ j, direct n' j = if j = i then p else direct (s.inode k) j := fun j => by
    rw [direct_congr hpointer]
    exact direct_setDirect hi
  have hnew : s'.data p.toNat = some d' := Function.update_self ..
  -- The other blocks of the file are left alone.
  have hothers : ∀ j ≠ i, direct (s.inode k) j ≠ 0 →
      s'.data (direct (s.inode k) j).toNat = s.data (direct (s.inode k) j).toNat := by
    intro j hji hne
    have hj : j < 8 := by
      by_contra hle
      exact hne (dif_neg hle)
    rw [direct_eq_pointer hj] at hne ⊢
    have hdiff := ne_of_pointed (a := ⟨.direct ⟨j, hj⟩, []⟩) h hk hi hpointed hk (fits_root _) hne
      (Or.inr fun heq => hji (by simpa using heq))
    exact (Function.update_of_ne hdiff ..).trans (data_of_pointed hpointed hdiff)
  refine ⟨owned_of_pointed h hk hi hpointed hp hpointer,
    grows_of_pointed h hk hi hpointed hp hpointer htype hlinkCnt, ?_, ?_⟩
  · rw [hself]
    intro j hj
    rw [hdirect] at hj ⊢
    split at hj
    next heq =>
      rw [if_pos heq]
      exact ⟨hp, d', hnew⟩
    next hne =>
      rw [if_neg hne, hothers j hne hj]
      exact hblocks j hj
  · intro o
    rw [hself]
    unfold contentsOf
    rw [hdirect]
    split
    next => rw [if_neg (ne_zero_of_isData hp), hnew, Option.getD_some]
    next hne =>
      split
      next => rfl
      next hne' => rw [hothers _ hne hne']

/-- Both machines hold the tables `s` except that inode `k` is `n₀` on disk. -/
structure Transferring (k : Nat) (n₀ : Inode) (s : FsState) (m₁ m₂ : Machine Bytes Globals) :
    Prop where
  paired : Paired (s.setInode k n₀) m₁ m₂
  owned : Owned s
  live : Live s k
  hasBlocks : HasBlocks s (s.inode k)

/-- What a transfer of `length` bytes at `position` does to a file. -/
structure Transferred (isWrite : Bool) (k position : Nat) (buffer : Bytes) (done length : Nat)
    (s s' : FsState) (buffer' : Bytes) : Prop where
  grows : Grows k s s'
  contents : contentsOf s' (s'.inode k) =
    (transferred isWrite (contentsOf s (s.inode k)) position buffer done length).1
  buffer_eq : buffer' =
    (transferred isWrite (contentsOf s (s.inode k)) position buffer done length).2

theorem pointed_setInode (h : Pointed (s.setInode k n₀) (direct n i) p s₁) :
    ∃ s₂, Pointed s (direct n i) p s₂ ∧ s₁ = s₂.setInode k n₀ := by
  generalize hpointer : direct n i = q at h
  cases h with
  | old hne => exact ⟨s, .old hne, rfl⟩
  | new hzero hfree => exact ⟨_, .new hzero hfree, rfl⟩

theorem direct_of_directIndex (n : Inode) {offset : UInt32} (h : offset.toNat < l0Bound) :
    n.dataDirect (directIndex offset h) = direct n (offset.toNat / 4096) :=
  (direct_eq_pointer (directIndex_lt h)).symm

theorem setDirect_of_directIndex (n : Inode) {offset : UInt32} (h : offset.toNat < l0Bound) :
    { n with dataDirect := Function.update n.dataDirect (directIndex offset h) p } =
      setDirect n (offset.toNat / 4096) p := by
  unfold setDirect
  congr 1
  funext j
  rw [Function.update_apply]
  exact if_congr Fin.ext_iff rfl rfl

theorem setDirect_direct (n : Inode) (i : Nat) : setDirect n i (direct n i) = n := by
  unfold setDirect
  congr 1
  funext j
  split
  next hj =>
    rw [← hj]
    exact dif_pos j.isLt
  next => rfl

theorem pointer_setDirect_grown (n : Inode) (bound : UInt32) (hi : i < 8) (r : Root) :
    pointer (setDirect (grown n bound) i p) r = pointer (setDirect n i p) r := by
  rw [pointer_setDirect hi, pointer_setDirect hi, pointer_setPointer, pointer_setPointer,
    pointer_grown]

theorem contents_copy {d buffer : Bytes} {position length : Nat}
    (hheld : ∀ o, o / 4096 = position / 4096 → d (o % 4096) = contentsOf s n o)
    (hfit : position % 4096 + length ≤ 4096) (o : Nat) :
    (if o / 4096 = position / 4096 then copy d (position % 4096) buffer 0 length (o % 4096)
      else contentsOf s n o) = copy (contentsOf s n) position buffer 0 length o := by
  rcases em (position ≤ o ∧ o < position + length) with hin | hout
  · rw [if_pos (by omega), copy_inside (by omega) (by omega), copy_inside hin.1 hin.2]
    exact congrArg buffer (by omega)
  · rw [copy_outside (show o < position ∨ position + length ≤ o by omega)]
    split
    next heq => rw [copy_outside (by omega), hheld o heq]
    next => rfl

theorem transfer_write_paired {buffer : Bytes} {offset length : UInt32}
    (h : Transferring k n₀ s m₁ m₂)
    (hfit : offset.toNat % 4096 + length.toNat ≤ 4096) (hlt : offset.toNat < l0Bound) :
    Together (inodeModifyData true (s.inode k) buffer offset length) m₁ m₂ fun r m₁' m₂' =>
      ∃ s', Transferring k n₀ s' m₁' m₂' ∧ r.1 = s'.inode k ∧ (r.2.2 = false → r.1 = s.inode k) ∧
        Transferred true k offset.toNat buffer 0 length.toNat s s' r.2.1 := by
  set i := offset.toNat / 4096 with hi'
  have hi : i < 8 := directIndex_lt hlt
  have htables : TablesUsed (s.setInode k n₀) := h.owned.tables
  refine (inodeModifyData_write_paired h.paired htables hlt fun hne => ?_).mono ?_
  · exact h.owned.isData k h.live ⟨.direct (directIndex offset hlt), []⟩ (fits_root _) hne
  rintro ⟨n, buffer', modified⟩ m₁' m₂' ⟨s₁, d, p, hpointed, hp, hheld, hn, hbuffer, hmodified, h'⟩
  rw [direct_of_directIndex, ← hi'] at hpointed hheld hmodified
  obtain ⟨s₂, hpointed₂, rfl⟩ := pointed_setInode hpointed
  have hn : n = setDirect (grown (s.inode k) (offset + length)) i p := by
    simp only at hn
    rw [hn, ← setDirect_of_directIndex _ hlt, grown_dataDirect]
  set d' := copy d (offset.toNat % 4096) buffer 0 length.toNat with hd'
  have hpointer : ∀ r, pointer n r = pointer (setDirect (s.inode k) i p) r := fun r => by
    rw [hn, pointer_setDirect_grown _ _ hi]
  have htype : n.type = (s.inode k).type := by
    rw [hn]
    exact grown_type _ _
  have hlinkCnt : n.linkCnt = (s.inode k).linkCnt := by
    rw [hn]
    exact grown_linkCnt _ _
  have hreplaced : Replaced k i d' s ((s₂.setData p.toNat (some d')).setInode k n) :=
    replaced_of_pointed h.owned h.live h.hasBlocks hi hpointed₂ hp hpointer htype hlinkCnt
  set s' := (s₂.setData p.toNat (some d')).setInode k n with hs'
  have hself : s'.inode k = n := Function.update_self ..
  have hdisk : s'.setInode k n₀ = (s₂.setInode k n₀).setData p.toNat (some d') := by
    simp only [hs', FsState.setInode, FsState.setData, Function.update_idem]
  refine ⟨s', ⟨hdisk ▸ h', hreplaced.owned, hreplaced.grows.live h.live, hreplaced.hasBlocks⟩,
    hself.symm, ?_, hreplaced.grows, ?_, hbuffer⟩
  · intro hfalse
    rw [hmodified, Bool.or_eq_false_iff, decide_eq_false_iff_not] at hfalse
    have hgrown : grown (s.inode k) (offset + length) = s.inode k := by
      rw [grown, if_neg]
      rw [hfalse.1]
      exact Bool.false_ne_true
    cases hpointed₂ with
    | old _ =>
        simp only
        rw [hn, hgrown, setDirect_direct]
    | new hzero _ => exact absurd hzero hfalse.2
  · funext o
    rw [hreplaced.contents]
    refine contents_copy (fun o ho => ?_) hfit o
    unfold contentsOf
    rw [ho]
    split
    next hzero =>
      rw [hheld.1 hzero]
      rfl
    next hne =>
      obtain ⟨-, d₀, hd₀⟩ := h.hasBlocks _ hne
      rw [hd₀, hheld.2 hne d₀ hd₀]
      rfl

theorem setInode_setInode (s : FsState) (k : Nat) (n n' : Inode) :
    (s.setInode k n).setInode k n' = s.setInode k n' := by
  simp only [FsState.setInode, Function.update_idem]

/-- The inode in memory changes in its other fields. -/
theorem Transferring.setInode (h : Transferring k n₀ s m₁ m₂)
    (hpointer : ∀ r, pointer n r = pointer (s.inode k) r) :
    Transferring k n₀ (s.setInode k n) m₁ m₂ := by
  refine ⟨(setInode_setInode s k n n₀).symm ▸ h.paired, h.owned.setInode hpointer, h.live,
    fun j hj => ?_⟩
  have hself : (s.setInode k n).inode k = n := Function.update_self ..
  rw [hself, direct_congr hpointer] at hj ⊢
  exact h.hasBlocks j hj

theorem transfer_read_paired {buffer : Bytes} {offset length : UInt32}
    (h : Transferring k n₀ s m₁ m₂)
    (hfit : offset.toNat % 4096 + length.toNat ≤ 4096) (hlt : offset.toNat < l0Bound)
    (hset : direct (s.inode k) (offset.toNat / 4096) ≠ 0) :
    Together (inodeModifyData false (s.inode k) buffer offset length) m₁ m₂ fun r m₁' m₂' =>
      ∃ s', Transferring k n₀ s' m₁' m₂' ∧ r.1 = s'.inode k ∧ (r.2.2 = false → r.1 = s.inode k) ∧
        Transferred false k offset.toNat buffer 0 length.toNat s s' r.2.1 := by
  set n' := grown (s.inode k) (offset + length) with hn'
  have hpointer : ∀ r, pointer n' r = pointer (s.inode k) r := pointer_grown _ _
  obtain ⟨hp, d, hd⟩ := h.hasBlocks _ hset
  have hused : s.blockUsed (direct (s.inode k) (offset.toNat / 4096)).toNat = true := by
    rw [← direct_of_directIndex _ hlt] at hset ⊢
    exact (h.owned.isData k h.live ⟨.direct (directIndex offset hlt), []⟩ (fits_root _) hset).2
  unfold inodeModifyData
  refine (together_assert (Q := fun _ => Transferring k n₀ s) fun _ => h).bind fun _ m₁ m₂ h => ?_
  extract_lets grows inode' o
  rw [dif_pos (show o < l0Bound from hlt)]
  extract_lets i
  have hsame : inode' = n' := rfl
  have hdirect : inode'.dataDirect i = direct (s.inode k) (offset.toNat / 4096) := by
    rw [hsame, hn', grown_dataDirect]
    exact direct_of_directIndex _ hlt
  rw [hdirect]
  refine (readDirect_paired h.paired hp hused hd).bind ?_
  rintro _ m₁ m₂ ⟨rfl, h'⟩
  have h' : Transferring k n₀ s m₁ m₂ := ⟨h', h.owned, h.live, h.hasBlocks⟩
  have hself : (s.setInode k n').inode k = n' := Function.update_self ..
  have hupdate : { inode' with
      dataDirect := Function.update inode'.dataDirect i
        (direct (s.inode k) (offset.toNat / 4096)) } = n' := by
    rw [← hdirect, Function.update_eq_self]
    rfl
  refine together_pure ⟨s.setInode k n', h'.setInode hpointer, ?_, fun hfalse => ?_,
    grows_grown s k _, ?_, ?_⟩
  · rw [hself]
    exact hupdate
  · rw [Bool.or_false] at hfalse
    refine hupdate.trans ?_
    rw [hn', grown, if_neg]
    exact fun htrue => Bool.false_ne_true (hfalse.symm.trans htrue)
  · rw [hself]
    exact contentsOf_congr (direct_congr hpointer) fun _ _ => rfl
  · simp only [Data.bytes]
    funext j
    simp only [transferred, Bool.false_eq_true, if_false]
    rcases em (j < length.toNat) with hj | hj
    · rw [copy_inside (Nat.zero_le _) (by omega), copy_inside (Nat.zero_le _) (by omega)]
      unfold contentsOf
      have hl0 : l0Size = 4096 := rfl
      rw [show (offset.toNat + (j - 0)) / 4096 = offset.toNat / 4096 by omega, if_neg hset, hd,
        Option.getD_some, hl0]
      exact congrArg d (by omega)
    · rw [copy_outside (by omega), copy_outside (by omega)]

/-- A read stays behind pointers that are set. -/
def Present (isWrite : Bool) (n : Inode) (position length : Nat) : Prop :=
  isWrite = false → ∀ o, position ≤ o → o < position + length → direct n (o / 4096) ≠ 0

theorem transfer_paired {isWrite : Bool} {buffer : Bytes} {offset length : UInt32}
    (h : Transferring k n₀ s m₁ m₂) (hpos : 0 < length.toNat)
    (hfit : offset.toNat % 4096 + length.toNat ≤ 4096) (hlt : offset.toNat < l0Bound)
    (hset : Present isWrite (s.inode k) offset.toNat length.toNat) :
    Together (inodeModifyData isWrite (s.inode k) buffer offset length) m₁ m₂ fun r m₁' m₂' =>
      ∃ s', Transferring k n₀ s' m₁' m₂' ∧ r.1 = s'.inode k ∧ (r.2.2 = false → r.1 = s.inode k) ∧
        Transferred isWrite k offset.toNat buffer 0 length.toNat s s' r.2.1 := by
  cases isWrite with
  | false => exact transfer_read_paired h hfit hlt (hset rfl _ (le_refl _) (by omega))
  | true => exact transfer_write_paired h hfit hlt

theorem Transferred.trans {isWrite : Bool} {position done length length' : Nat}
    {buff buff' buff'' : Bytes} {s'' : FsState}
    (h : Transferred isWrite k position buff done length s s' buff')
    (h' : Transferred isWrite k (position + length) buff' (done + length) length' s' s'' buff'') :
    Transferred isWrite k position buff done (length + length') s s'' buff'' := by
  have hboth := transferred_transferred isWrite (contentsOf s (s.inode k)) position buff done length
    length'
  rw [← h.contents, ← h.buffer_eq] at hboth
  refine ⟨h.grows.trans h'.grows, ?_, ?_⟩
  · rw [← hboth]
    exact h'.contents
  · rw [← hboth]
    exact h'.buffer_eq

theorem transferred_refl (isWrite : Bool) (k position : Nat) (buff : Bytes) (done : Nat)
    (s : FsState) : Transferred isWrite k position buff done 0 s s buff := by
  refine ⟨Grows.refl k s, ?_, ?_⟩
  · rw [transferred_zero]
  · rw [transferred_zero]

theorem direct_of_grows (h : Grows k s s') (hk : Live s k) (hne : direct (s.inode k) i ≠ 0) :
    direct (s'.inode k) i = direct (s.inode k) i := by
  have hi : i < 8 := by
    by_contra hle
    exact hne (dif_neg hle)
  rw [direct_eq_pointer hi] at hne ⊢
  rw [direct_eq_pointer hi]
  exact h.block k hk ⟨.direct ⟨i, hi⟩, []⟩ (fits_root _) hne

theorem Present.grows {isWrite : Bool} {position length : Nat}
    (h : Present isWrite (s.inode k) position length) (hgrows : Grows k s s') (hk : Live s k)
    {size : Nat} (hle : size ≤ length) :
    Present isWrite (s'.inode k) (position + size) (length - size) := by
  intro hread o hlo hhi
  have hne := h hread o (by omega) (by omega)
  rw [direct_of_grows hgrows hk hne]
  exact hne

theorem fileRound_paired {isWrite : Bool} {file : File} {buff : Bytes} {done length : Nat}
    (h : Transferring k n₀ s m₁ m₂) (hfile : file.inode = s.inode k)
    (hfit : file.filePtr.toNat + length ≤ 32768) (hpos : 0 < length)
    (hset : Present isWrite (s.inode k) file.filePtr.toNat length) :
    Together (fileRound isWrite file buff done length) m₁ m₂ fun r m₁' m₂' =>
      0 < r.2.2.2 ∧ r.2.2.2 ≤ length ∧ Moved file r.1 r.2.2.2 ∧
        ∃ s', Transferring k n₀ s' m₁' m₂' ∧ r.1.inode = s'.inode k ∧
          (r.2.2.1 = false → r.1.inode = file.inode) ∧
          Transferred isWrite k file.filePtr.toNat buff done r.2.2.2 s s' r.2.1 := by
  have hblock : blockSize = 4096 := rfl
  have hl0 : l0Bound = 32768 := rfl
  unfold fileRound
  extract_lets size
  have hsize : size = min (4096 - file.filePtr.toNat % 4096) length := rfl
  have hsmall : (UInt32.ofNat size).toNat = size := by
    rw [UInt32.toNat_ofNat']
    omega
  rw [hfile]
  have hset' : Present isWrite (s.inode k) file.filePtr.toNat (UInt32.ofNat size).toNat :=
    fun hread o hlo hhi => hset hread o hlo (by omega)
  refine (transfer_paired h (by omega) (by omega) (by omega) hset').bind ?_
  rintro ⟨n, bytes, modified⟩ m₁ m₂ ⟨s', h', hn, hsame, hgrows, hcontents, hbytes⟩
  simp only at hn hsame hbytes
  rw [hsmall] at hcontents hbytes
  obtain ⟨hfirst, hsecond⟩ :=
    transferred_shift isWrite (contentsOf s (s.inode k)) file.filePtr.toNat buff done size
  refine together_pure ⟨show 0 < size by omega, show size ≤ length by omega, ⟨rfl, rfl, ?_⟩, s', h',
    hn, hsame, hgrows, ?_, ?_⟩
  · exact toNat_add_ofNat (show file.filePtr.toNat + size < 2 ^ 32 by omega)
  · rw [hcontents]
    exact hfirst
  · simp only
    rw [hbytes]
    exact hsecond

/-- What the loop leaves. -/
structure Finished (isWrite : Bool) (k : Nat) (n₀ : Inode) (s : FsState) (file file' : File)
    (buff buff' : Bytes) (done length : Nat) (m₁ m₂ : Machine Bytes Globals) (s' : FsState) :
    Prop where
  transferring : Transferring k n₀ s' m₁ m₂
  inode_eq : file'.inode = s'.inode k
  moved : Moved file file' length
  transferred : Transferred isWrite k file.filePtr.toNat buff done length s s' buff'

theorem fileLoop_paired {isWrite : Bool} {left : Nat} {file : File} {buff : Bytes}
    {done length : Nat} {modified : Bool} (h : Transferring k n₀ s m₁ m₂)
    (hfile : file.inode = s.inode k) (hleft : length ≤ left)
    (hfit : 0 < length → file.filePtr.toNat + length ≤ 32768)
    (hset : Present isWrite (s.inode k) file.filePtr.toNat length) :
    Together (fileLoop isWrite left file buff done length modified) m₁ m₂ fun r m₁' m₂' =>
      (r.2.2 = false → modified = false ∧ r.1.inode = file.inode) ∧
        ∃ s', Finished isWrite k n₀ s file r.1 buff r.2.1 done length m₁' m₂' s' := by
  induction left generalizing s file buff done length modified m₁ m₂ with
  | zero =>
      obtain rfl : length = 0 := by omega
      exact together_pure ⟨fun hfalse => ⟨hfalse, rfl⟩, s, h, hfile, ⟨rfl, rfl, rfl⟩,
        transferred_refl ..⟩
  | succ left ih =>
      rw [fileLoop]
      split
      next hzero =>
        subst hzero
        exact together_pure ⟨fun hfalse => ⟨hfalse, rfl⟩, s, h, hfile, ⟨rfl, rfl, rfl⟩,
          transferred_refl ..⟩
      next hlength =>
        refine (fileRound_paired h hfile (hfit (by omega)) (by omega) hset).bind ?_
        rintro ⟨file₁, buff₁, modified₁, size⟩ m₁ m₂
          ⟨hsize, hle, hmoved, s₁, h₁, hfile₁, hsame₁, hround⟩
        simp only at hsize hle hmoved hfile₁ hsame₁ hround ⊢
        have hset₁ := hset.grows hround.grows h.live hle
        rw [← hmoved.filePtr] at hset₁
        refine (ih h₁ hfile₁ (by omega) (fun hpos => ?_) hset₁).mono ?_
        · have := hfit (by omega)
          rw [hmoved.filePtr]
          omega
        rintro r m₁ m₂ ⟨hsame₂, s₂, h₂⟩
        have hall := hmoved.trans h₂.moved
        have hrest := h₂.transferred
        rw [hmoved.filePtr] at hrest
        have hrest := hround.trans hrest
        rw [show size + (length - size) = length by omega] at hall hrest
        refine ⟨fun hfalse => ?_, s₂, h₂.transferring, h₂.inode_eq, hall, hrest⟩
        obtain ⟨hboth, hinode⟩ := hsame₂ hfalse
        rw [Bool.or_eq_false_iff] at hboth
        exact ⟨hboth.1, hinode.trans (hsame₁ hboth.2)⟩

/-- A transfer starts with the inode in the object of the file, which has the
pointers of the one on the disk. -/
theorem transferring_object (h : Paired s m₁ m₂) (howned : Owned s) (hlive : Live s k)
    (hpointer : ∀ r, pointer n r = pointer (s.inode k) r) (hblocks : HasBlocks s (s.inode k)) :
    Transferring k (s.inode k) (s.setInode k n) m₁ m₂ ∧
      contentsOf (s.setInode k n) ((s.setInode k n).inode k) = contentsOf s (s.inode k) := by
  have hself : (s.setInode k n).inode k = n := Function.update_self ..
  have hback : (s.setInode k n).setInode k (s.inode k) = s := by
    simp only [FsState.setInode, Function.update_idem, Function.update_eq_self]
  refine ⟨⟨hback.symm ▸ h, howned.setInode hpointer, hlive, fun j hj => ?_⟩, ?_⟩
  · rw [hself, direct_congr hpointer] at hj ⊢
    exact hblocks j hj
  · rw [hself]
    exact contentsOf_congr (direct_congr hpointer) fun _ _ => rfl

/-- What is left when a transfer is through and its inode, which was `n` and is
`n'` now, was written back if it changed. -/
structure WrittenBack (k : Nat) (s s₁ s' : FsState) (n n' : Inode) : Prop where
  owned : Owned s'
  leaves : Leaves k s s'
  hasBlocks : HasBlocks s' (s'.inode k)
  contents : contentsOf s' (s'.inode k) = contentsOf s₁ (s₁.inode k)
  pointer : ∀ r, pointer n' r = pointer (s'.inode k) r
  inode : s'.inode k = n' ∨ s'.inode k = s.inode k ∧ n' = n

theorem writeBack_paired {modified : Bool} {ino : UInt32} (h : Transferring k (s.inode k) s₁ m₁ m₂)
    (hino : ino.toNat = k) (hinode : s₁.inode k = n')
    (hpointer : ∀ r, pointer n r = pointer (s.inode k) r)
    (hgrows : Grows k (s.setInode k n) s₁) (hsame : modified = false → n' = n) :
    Together (doWhen modified (writeInode ino n')) m₁ m₂ fun _ m₁' m₂' =>
      ∃ s', Paired s' m₁' m₂' ∧ WrittenBack k s s₁ s' n n' := by
  subst hinode
  cases modified with
  | false =>
      -- The inode is the same as before, so it is on the disk already.
      have hn := hsame rfl
      set s' := s₁.setInode k (s.inode k) with hs'
      have hself : s'.inode k = s.inode k := Function.update_self ..
      have hpointer' : ∀ r, pointer (s.inode k) r = pointer (s₁.inode k) r := fun r => by
        rw [hn, hpointer]
      have hdirect : ∀ j, direct (s.inode k) j = direct (s₁.inode k) j := direct_congr hpointer'
      refine together_pure ⟨s', h.paired, ⟨h.owned.setInode hpointer', Grows.leaves hgrows, ?_, ?_,
        ?_, Or.inr ⟨hself, hn⟩⟩⟩
      · rw [hself]
        intro j hj
        rw [hdirect] at hj ⊢
        exact h.hasBlocks j hj
      · rw [hself]
        exact contentsOf_congr hdirect fun _ _ => rfl
      · rw [hself]
        exact fun r => (hpointer' r).symm
  | true =>
      refine (writeInode_paired h.paired (by rw [hino]; exact h.live.1)).mono ?_
      intro _ m₁ m₂ h₂
      have hfront : (s₁.setInode k (s.inode k)).setInode k (s₁.inode k) = s₁ := by
        simp only [FsState.setInode, Function.update_idem, Function.update_eq_self]
      rw [hino, hfront] at h₂
      have hleaves : Leaves k s (s₁.setInode k (s₁.inode k)) := Grows.leaves hgrows
      have hnochange : s₁.setInode k (s₁.inode k) = s₁ := by
        simp only [FsState.setInode, Function.update_eq_self]
      rw [hnochange] at hleaves
      exact ⟨s₁, h₂, h.owned, hleaves, h.hasBlocks, rfl, fun _ => rfl, Or.inl rfl⟩

/-- What a transfer leaves of the tables and of the object of the file. -/
structure Carried (isWrite : Bool) (s s' : FsState) (file file' : File) (buff buff' : Bytes)
    (length : Nat) : Prop where
  owned : Owned s'
  leaves : Leaves file.inodeIdx.toNat s s'
  hasBlocks : HasBlocks s' (s'.inode file.inodeIdx.toNat)
  moved : Moved file file' length
  type : file'.inode.type = file.inode.type
  linkCnt : file'.inode.linkCnt = file.inode.linkCnt
  inode_type : (s'.inode file.inodeIdx.toNat).type = file.inode.type
  inode_linkCnt : (s'.inode file.inodeIdx.toNat).linkCnt = file.inode.linkCnt ∨
    (s'.inode file.inodeIdx.toNat).linkCnt = (s.inode file.inodeIdx.toNat).linkCnt
  pointer : ∀ r, pointer file'.inode r = pointer (s'.inode file.inodeIdx.toNat) r
  contents : contentsOf s' (s'.inode file.inodeIdx.toNat) =
    (transferred isWrite (contentsOf s (s.inode file.inodeIdx.toNat)) file.filePtr.toNat buff 0
      length).1
  buffer_eq : buff' =
    (transferred isWrite (contentsOf s (s.inode file.inodeIdx.toNat)) file.filePtr.toNat buff 0
      length).2

/-- The inode in the object of an open file has the type and the pointers of
the one on the disk. -/
structure Fitting (s : FsState) (file : File) : Prop where
  live : Live s file.inodeIdx.toNat
  pointer : ∀ r, pointer file.inode r = pointer (s.inode file.inodeIdx.toNat) r
  type : file.inode.type = (s.inode file.inodeIdx.toNat).type

theorem fileTransfer_paired {isWrite : Bool} {file : File} {buff : Bytes} {length : Nat}
    (h : Paired s m₁ m₂) (howned : Owned s) (hfitting : Fitting s file)
    (hblocks : HasBlocks s (s.inode file.inodeIdx.toNat))
    (hmode : file.mode &&& (if isWrite then oWronly else oRdonly) ≠ 0)
    (hfit : 0 < length → file.filePtr.toNat + length ≤ 32768)
    (hset : Present isWrite file.inode file.filePtr.toNat length) :
    Together (fileTransfer isWrite file buff length) m₁ m₂ fun r m₁' m₂' =>
      ∃ s', Paired s' m₁' m₂' ∧ Carried isWrite s s' file r.1 buff r.2.1 length := by
  obtain ⟨k, hk⟩ : ∃ k, k = file.inodeIdx.toNat := ⟨_, rfl⟩
  obtain ⟨hlive, hpointer, htype⟩ := hfitting
  rw [← hk] at hlive hpointer htype hblocks
  rw [fileTransfer, if_neg hmode]
  have hself : (s.setInode k file.inode).inode k = file.inode := Function.update_self ..
  obtain ⟨htransferring, hcontents₀⟩ := transferring_object h howned hlive hpointer hblocks
  have hset' := hself.symm ▸ hset
  refine (fileLoop_paired htransferring hself.symm (le_refl _) hfit hset').bind ?_
  rintro ⟨file', buff', modified⟩ m₁ m₂ ⟨hsame, s₁, h₁⟩
  simp only at hsame h₁
  obtain ⟨hgrows, hcontents, hbuffer⟩ := h₁.transferred
  rw [hcontents₀] at hcontents hbuffer
  have htype₁ : file'.inode.type = file.inode.type := by rw [h₁.inode_eq, hgrows.type, hself]
  have hlinkCnt₁ : file'.inode.linkCnt = file.inode.linkCnt := by
    rw [h₁.inode_eq, hgrows.linkCnt, hself]
  have hmoved := h₁.moved
  refine (writeBack_paired h₁.transferring (by rw [hmoved.inodeIdx, hk]) h₁.inode_eq.symm hpointer
    hgrows fun hfalse => (hsame hfalse).2).bind ?_
  rintro _ m₁ m₂ ⟨s', h', hback⟩
  refine together_pure ⟨s', h', ⟨hback.owned, hk ▸ hback.leaves, hk ▸ hback.hasBlocks, hmoved,
    htype₁, hlinkCnt₁, ?_, ?_, hk ▸ hback.pointer, ?_, ?_⟩⟩
  · rw [← hk]
    rcases hback.inode with heq | ⟨heq, -⟩
    · rw [heq, htype₁]
    · rw [heq, htype]
  · rw [← hk]
    rcases hback.inode with heq | ⟨heq, -⟩
    · exact Or.inl (by rw [heq, hlinkCnt₁])
    · exact Or.inr (by rw [heq])
  · rw [← hk, hback.contents]
    exact hcontents
  · rw [← hk]
    exact hbuffer

end LabKernel.DirectTransfers
