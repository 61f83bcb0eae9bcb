import LabKernel.IndexPairs
import LabKernel.TidyDisk

/-!
Writing to an open file on two disks that differ in free blocks: the direct
part, the part behind index blocks, and the loop over both.
-/

namespace LabKernel.PairedWrites

open LabKernel.BlockCache
open LabKernel.BlockObject
open LabKernel.BlockOwnership
open LabKernel.ByteMemory
open LabKernel.DirectData
open LabKernel.DirectTransfers
open LabKernel.Directories
open LabKernel.DirectoryCalls
open LabKernel.FileContents
open LabKernel.FileWrites
open LabKernel.FsCode
open LabKernel.FsLayout
open LabKernel.FsPairs
open LabKernel.FsPrimitives
open LabKernel.FsTables
open LabKernel.IndexPairs
open LabKernel.IndexWrites
open LabKernel.PairedRuns
open LabKernel.ProgramLogic
open LabKernel.TidyDisk

variable {m₁ m₂ : Machine Bytes Globals} {s s' : FsState} {k : Nat} {n₀ : Inode}
  {buffer buff : Bytes} {offset length : UInt32} {file : File}

/-- The size of a file after `length` bytes were written at `position`. -/
def extended (size position length : Nat) : Nat :=
  if length = 0 then size else max size (position + length)

theorem extended_extended {size position length length' : Nat} :
    extended (extended size position length) (position + length) length' =
      extended size position (length + length') := by
  unfold extended
  split_ifs <;> omega

/-- What writing `length` bytes of the buffer from `done` on at `position`
leaves of file `k`. -/
structure Overwritten (k position : Nat) (buff : Bytes) (done length : Nat) (s s' : FsState) :
    Prop where
  grows : Grows k s s'
  contents : ∀ o < l0Bound, contentsOf s' (s'.inode k) o =
    copy (contentsOf s (s.inode k)) position buff done length o
  size : (s'.inode k).size.toNat = extended (s.inode k).size.toNat position length

theorem Overwritten.trans {position done length length' : Nat} {s'' : FsState}
    (h : Overwritten k position buff done length s s')
    (h' : Overwritten k (position + length) buff (done + length) length' s' s'') :
    Overwritten k position buff done (length + length') s s'' := by
  refine ⟨h.grows.trans h'.grows, fun o ho => ?_, ?_⟩
  · rw [h'.contents o ho, ← copy_copy]
    unfold copy
    split
    next => rfl
    next => exact h.contents o ho
  · rw [h'.size, h.size, extended_extended]

theorem overwritten_refl (k position : Nat) (buff : Bytes) (done : Nat) (s : FsState) :
    Overwritten k position buff done 0 s s :=
  ⟨Grows.refl k s, fun _ _ => (copy_outside (by omega)).symm, (if_pos rfl).symm⟩

theorem size_grown {n : Inode} (htype : n.type = 2)
    (hfit : offset.toNat + length.toNat < 2 ^ 32) (hpos : 0 < length.toNat) :
    (grown n (offset + length)).size.toNat =
      extended n.size.toNat offset.toNat length.toNat := by
  have hsum : (offset + length).toNat = offset.toNat + length.toNat := by
    rw [UInt32.toNat_add, Nat.mod_eq_of_lt hfit]
  have hgrows : (n.size < offset + length && n.type = 2) = true ↔
      n.size.toNat < offset.toNat + length.toNat := by
    rw [htype, decide_eq_true rfl, Bool.and_true, decide_eq_true_iff, UInt32.lt_iff_toNat_lt, hsum]
  rw [extended, if_neg (by omega)]
  unfold grown
  rcases em (n.size.toNat < offset.toNat + length.toNat) with hlt | hge
  · rw [if_pos (hgrows.mpr hlt)]
    exact hsum.trans (by omega)
  · rw [if_neg fun htrue => hge (hgrows.mp htrue)]
    omega

theorem writeRecur_data {m : Machine Bytes Globals} {depth : Nat}
    {reference : Option (Block × Nat)} {p : UInt32} {data : Data} {offset length : Nat} :
    Runs (inodeModifyDataRecur true depth reference p data offset length) m (fun _ _ => True)
      fun r _ => r.2.1 = data := by
  cases depth with
  | zero =>
      refine (runs_any _ m).bind fun r m _ => ?_
      have htransfer : Runs (transfer true r.2.2 data offset length) m (fun _ _ => True)
          fun d _ => d = data := by
        refine (runs_any _ m).bind fun _ m _ => (runs_any _ m).bind fun _ m _ => ?_
        exact (runs_any _ m).bind fun _ m _ => (runs_any _ m).bind fun _ m _ => runs_pure rfl
      exact htransfer.bind fun _ _ hd => runs_pure hd
  | succ depth =>
      refine (runs_any _ m).bind fun _ m _ => (runs_any _ m).bind fun _ m _ => ?_
      refine (runs_any _ m).bind fun _ m _ => (runs_any _ m).bind fun _ m _ => ?_
      exact (runs_any _ m).bind fun _ m _ => runs_pure rfl

theorem inodeModifyData_buffer {m : Machine Bytes Globals} {n : Inode} :
    Runs (inodeModifyData true n buffer offset length) m (fun _ _ => True)
      fun r _ => r.2.1 = buffer := by
  rw [inodeModifyData_eq]
  refine (runs_any _ m).bind fun _ m _ => writeRecur_data.bind ?_
  rintro r m hdata
  exact runs_pure (by rw [hdata]; rfl)

theorem transfer_copies (h : Transferring k n₀ s m₁ m₂)
    (hfit : offset.toNat % 4096 + length.toNat ≤ 4096) :
    Together (inodeModifyData true (s.inode k) buffer offset length) m₁ m₂ fun r m₁' m₂' =>
      ∃ s', Transferring k n₀ s' m₁' m₂' ∧ r.1 = s'.inode k ∧ (r.2.2 = false → r.1 = s.inode k) ∧
        Grows k s s' ∧ ∀ o < l0Bound, contentsOf s' (s'.inode k) o =
          copy (contentsOf s (s.inode k)) offset.toNat buffer 0 length.toNat o := by
  rcases lt_or_ge offset.toNat l0Bound with hlt | hge
  · refine (transfer_write_paired h hfit hlt).mono ?_
    rintro r m₁' m₂' ⟨s', h', hinode, hsame, htransferred⟩
    exact ⟨s', h', hinode, hsame, htransferred.grows, fun o _ => by
      rw [htransferred.contents]
      rfl⟩
  · refine (transfer_index_paired h hfit hge).mono ?_
    rintro r m₁' m₂' ⟨s', h', hinode, hsame, hgrows, hcontents⟩
    exact ⟨s', h', hinode, hsame, hgrows, fun o ho => by
      rw [hcontents, copy_outside (by omega)]⟩

theorem transfer_overwrites (h : Transferring k n₀ s m₁ m₂) (htype : (s.inode k).type = 2)
    (hpos : 0 < length.toNat) (hfit : offset.toNat % 4096 + length.toNat ≤ 4096)
    (hwrap : offset.toNat + length.toNat < 2 ^ 32) :
    Together (inodeModifyData true (s.inode k) buffer offset length) m₁ m₂ fun r m₁' m₂' =>
      r.2.1 = buffer ∧ ∃ s', Transferring k n₀ s' m₁' m₂' ∧ r.1 = s'.inode k ∧
        (r.2.2 = false → r.1 = s.inode k) ∧
        Overwritten k offset.toNat buffer 0 length.toNat s s' := by
  have hnow : Writing k n₀ m₁ s := ⟨h.paired.realizes, h.owned, h.live⟩
  have hwriting : Runs (inodeModifyData true (s.inode k) buffer offset length) m₁ Full _ :=
    inodeModifyData_writing hnow hfit fun hfalse => (by cases hfalse)
  refine (((transfer_copies h hfit).and hwriting).and inodeModifyData_buffer).mono ?_
  rintro r m₁' m₂' ⟨hbuffer, ⟨-, hsize, -⟩, s', h', hinode, hsame, hgrows, hcontents⟩
  refine ⟨hbuffer, s', h', hinode, hsame, hgrows, hcontents, ?_⟩
  rw [← hinode, hsize, size_grown htype hwrap hpos]

theorem copy_shifted (buff : Bytes) (done size : Nat) :
    copy buff done (fun i => buff (done + i)) 0 size = buff := by
  funext i
  unfold copy
  split
  next => exact congrArg buff (by omega)
  next => rfl

theorem copy_shift (d buff : Bytes) (position done size : Nat) :
    copy d position (fun i => buff (done + i)) 0 size = copy d position buff done size := by
  funext i
  unfold copy
  split
  next => exact congrArg buff (by omega)
  next => rfl

theorem fileRound_overwrites {done length : Nat} (h : Transferring k n₀ s m₁ m₂)
    (hfile : file.inode = s.inode k) (htype : (s.inode k).type = 2) (hpos : 0 < length)
    (hfit : file.filePtr.toNat + length < 2 ^ 32) :
    Together (fileRound true file buff done length) m₁ m₂ fun r m₁' m₂' =>
      0 < r.2.2.2 ∧ r.2.2.2 ≤ length ∧ Moved file r.1 r.2.2.2 ∧ r.2.1 = buff ∧
        ∃ s', Transferring k n₀ s' m₁' m₂' ∧ r.1.inode = s'.inode k ∧
          (r.2.2.1 = false → r.1.inode = file.inode) ∧
          Overwritten k file.filePtr.toNat buff done r.2.2.2 s s' := by
  have hblock : blockSize = 4096 := rfl
  unfold fileRound
  extract_lets size
  have hsize : size = min (4096 - file.filePtr.toNat % 4096) length := rfl
  have hsmall : (UInt32.ofNat size).toNat = size := by
    rw [UInt32.toNat_ofNat']
    omega
  rw [hfile]
  refine (transfer_overwrites h htype (by omega) (by omega) (by omega)).bind ?_
  rintro ⟨n, bytes, modified⟩ m₁ m₂ ⟨rfl, s', h', hn, hsame, hgrows, hcontents, hbound⟩
  rw [hsmall] at hbound
  simp only [hsmall, copy_shift] at hcontents
  refine together_pure ⟨show 0 < size by omega, show size ≤ length by omega, ⟨rfl, rfl, ?_⟩,
    copy_shifted buff done size, s', h', hn, hsame, hgrows, hcontents, hbound⟩
  exact toNat_add_ofNat (show file.filePtr.toNat + size < 2 ^ 32 by omega)

/-- What the loop leaves. -/
structure Looped (k : Nat) (n₀ : Inode) (s : FsState) (file file' : File) (buff : Bytes)
    (done length : Nat) (m₁ m₂ : Machine Bytes Globals) (s' : FsState) : Prop where
  transferring : Transferring k n₀ s' m₁ m₂
  inode_eq : file'.inode = s'.inode k
  moved : Moved file file' length
  overwritten : Overwritten k file.filePtr.toNat buff done length s s'

theorem fileLoop_overwrites {left done length : Nat} {modified : Bool}
    (h : Transferring k n₀ s m₁ m₂) (hfile : file.inode = s.inode k)
    (htype : (s.inode k).type = 2) (hleft : length ≤ left)
    (hfit : file.filePtr.toNat + length < 2 ^ 32) :
    Together (fileLoop true left file buff done length modified) m₁ m₂ fun r m₁' m₂' =>
      (r.2.2 = false → modified = false ∧ r.1.inode = file.inode) ∧
        ∃ s', Looped k n₀ s file r.1 buff done length m₁' m₂' s' := by
  induction left generalizing s file buff done length modified m₁ m₂ with
  | zero =>
      obtain rfl : length = 0 := by omega
      exact together_pure ⟨fun hfalse => ⟨hfalse, rfl⟩, s, h, hfile, ⟨rfl, rfl, rfl⟩,
        overwritten_refl ..⟩
  | succ left ih =>
      rw [fileLoop]
      split
      next hzero =>
        subst hzero
        exact together_pure ⟨fun hfalse => ⟨hfalse, rfl⟩, s, h, hfile, ⟨rfl, rfl, rfl⟩,
          overwritten_refl ..⟩
      next hlength =>
        refine (fileRound_overwrites h hfile htype (by omega) hfit).bind ?_
        rintro ⟨file₁, buff₁, modified₁, size⟩ m₁ m₂
          ⟨hsize, hle, hmoved, hbuff, s₁, h₁, hfile₁, hsame₁, hround⟩
        simp only at hsize hle hmoved hbuff hfile₁ hsame₁ hround ⊢
        subst hbuff
        have hptr := hmoved.filePtr
        refine (ih h₁ hfile₁ (hround.grows.type.trans htype) (by omega) (by omega)).mono ?_
        rintro r m₁ m₂ ⟨hsame₂, s₂, h₂⟩
        have hall := hmoved.trans h₂.moved
        have hrest := h₂.overwritten
        rw [hptr] at hrest
        have hrest := hround.trans hrest
        rw [show size + (length - size) = length by omega] at hall hrest
        refine ⟨fun hfalse => ?_, s₂, h₂.transferring, h₂.inode_eq, hall, hrest⟩
        obtain ⟨hboth, hinode⟩ := hsame₂ hfalse
        rw [Bool.or_eq_false_iff] at hboth
        exact ⟨hboth.1, hinode.trans (hsame₁ hboth.2)⟩

/-- What writing to an open file leaves of the tables and of the object of the
file. -/
structure Stored (s s' : FsState) (file file' : File) (buff : Bytes) (length : Nat) : Prop where
  owned : Owned s'
  leaves : Leaves file.inodeIdx.toNat s s'
  hasBlocks : HasBlocks s' (s'.inode file.inodeIdx.toNat)
  moved : Moved file file' length
  pointer : ∀ r, pointer file'.inode r = pointer (s'.inode file.inodeIdx.toNat) r
  object : file'.inode.type = 2
  inode : (s'.inode file.inodeIdx.toNat).type = 2
  contents : ∀ o < l0Bound, contentsOf s' (s'.inode file.inodeIdx.toNat) o =
    copy (contentsOf s (s.inode file.inodeIdx.toNat)) file.filePtr.toNat buff 0 length o
  size : file'.inode.size.toNat = extended file.inode.size.toNat file.filePtr.toNat length
  diskSize : file.inode.size = (s.inode file.inodeIdx.toNat).size →
    file'.inode.size = (s'.inode file.inodeIdx.toNat).size

theorem fileWrite_paired {length : Nat} (h : Paired s m₁ m₂) (howned : Owned s)
    (hfile : UpToDate s file) (hblocks : HasBlocks s (s.inode file.inodeIdx.toNat))
    (hmode : file.mode &&& oWronly ≠ 0) (hfit : file.filePtr.toNat + length < 2 ^ 32) :
    Together (fileTransfer true file buff length) m₁ m₂ fun r m₁' m₂' =>
      r.2.2 = (length : Int) ∧ ∃ s', Paired s' m₁' m₂' ∧ Stored s s' file r.1 buff length := by
  obtain ⟨k, hk⟩ : ∃ k, k = file.inodeIdx.toNat := ⟨_, rfl⟩
  obtain ⟨hlive, hpointer, hobject, htype⟩ := hfile
  rw [← hk] at hlive hpointer htype hblocks
  unfold fileTransfer
  rw [if_pos rfl, if_neg hmode]
  have hself : (s.setInode k file.inode).inode k = file.inode := Function.update_self ..
  obtain ⟨htransferring, hcontents₀⟩ := transferring_object h howned hlive hpointer hblocks
  refine (fileLoop_overwrites htransferring hself.symm (by rw [hself, hobject]) (le_refl _)
    hfit).bind ?_
  rintro ⟨file', buff', modified⟩ m₁ m₂ ⟨hsame, s₁, h₁⟩
  simp only at hsame h₁
  obtain ⟨hgrows, hcontents, hsize⟩ := h₁.overwritten
  rw [hcontents₀] at hcontents
  rw [hself] at hsize
  have hobject₁ : file'.inode.type = 2 := by rw [h₁.inode_eq, hgrows.type, hself, hobject]
  refine (writeBack_paired h₁.transferring (by rw [h₁.moved.inodeIdx, hk]) h₁.inode_eq.symm
    hpointer hgrows fun hfalse => (hsame hfalse).2).bind ?_
  rintro _ m₁ m₂ ⟨s', h', hback⟩
  refine together_pure ⟨rfl, s', h', ⟨hback.owned, hk ▸ hback.leaves, hk ▸ hback.hasBlocks,
    h₁.moved, hk ▸ hback.pointer, hobject₁, ?_, ?_, ?_, ?_⟩⟩
  · rw [← hk]
    rcases hback.inode with heq | ⟨heq, -⟩
    · rw [heq, hobject₁]
    · rw [heq, htype]
  · rw [← hk, hback.contents]
    exact hcontents
  · rw [h₁.inode_eq, hsize]
  · rw [← hk]
    rcases hback.inode with heq | ⟨heq, hn⟩
    · exact fun _ => by rw [heq]
    · rw [heq, hn]
      exact id

/-- The positions of `length` bytes from `p` on; the position behind the last
one is 0. -/
def span (p : UInt32) (length : Nat) : Set Nat := {o | ∃ j < length, o = (p.toNat + j) % 2 ^ 32}

theorem mem_span_of_mem {p : UInt32} {size length o : Nat} (h : o ∈ span p size)
    (hle : size ≤ length) : o ∈ span p length := by
  obtain ⟨j, hj, ho⟩ := h
  exact ⟨j, by omega, ho⟩

theorem mem_span_of_mem_rest {p : UInt32} {size length o : Nat}
    (h : o ∈ span (p + UInt32.ofNat size) (length - size)) : o ∈ span p length := by
  obtain ⟨j, hj, ho⟩ := h
  refine ⟨size + j, by omega, ?_⟩
  rw [ho, UInt32.toNat_add, UInt32.toNat_ofNat']
  omega

/-- A write of file `k` changes no byte outside its span. -/
structure Spared (k : Nat) (p : UInt32) (length : Nat) (s s' : FsState) : Prop where
  grows : Grows k s s'
  contents : ∀ o < l0Bound, o ∉ span p length →
    contentsOf s' (s'.inode k) o = contentsOf s (s.inode k) o

theorem spared_refl (k : Nat) (p : UInt32) (s : FsState) : Spared k p 0 s s :=
  ⟨Grows.refl k s, fun _ _ _ => rfl⟩

theorem Spared.trans {p : UInt32} {size length : Nat} {s'' : FsState}
    (h : Spared k p size s s')
    (h' : Spared k (p + UInt32.ofNat size) (length - size) s' s'') (hle : size ≤ length) :
    Spared k p length s s'' := by
  refine ⟨h.grows.trans h'.grows, fun o ho hout => ?_⟩
  rw [h'.contents o ho fun hmem => hout (mem_span_of_mem_rest hmem)]
  exact h.contents o ho fun hmem => hout (mem_span_of_mem hmem hle)

/-- A round, also one that ends at position `2 ^ 32`. -/
theorem fileRound_spares {done length : Nat} (h : Transferring k n₀ s m₁ m₂)
    (hfile : file.inode = s.inode k) (hpos : 0 < length) :
    Together (fileRound true file buff done length) m₁ m₂ fun r m₁' m₂' =>
      (0 < r.2.2.2 ∧ r.2.2.2 ≤ length) ∧ r.1.inodeIdx = file.inodeIdx ∧
        r.1.filePtr = file.filePtr + UInt32.ofNat r.2.2.2 ∧
        ∃ s', Transferring k n₀ s' m₁' m₂' ∧ r.1.inode = s'.inode k ∧
          (r.2.2.1 = false → r.1.inode = file.inode) ∧
          Spared k file.filePtr r.2.2.2 s s' := by
  have hblock : blockSize = 4096 := rfl
  unfold fileRound
  extract_lets size
  have hsize : size = min (4096 - file.filePtr.toNat % 4096) length := rfl
  have hlt := file.filePtr.toNat_lt
  have hsmall : (UInt32.ofNat size).toNat = size := by
    rw [UInt32.toNat_ofNat']
    omega
  rw [hfile]
  refine (transfer_copies h (by omega)).bind ?_
  rintro ⟨n, bytes, modified⟩ m₁ m₂ ⟨s', h', hn, hsame, hgrows, hcontents⟩
  refine together_pure ⟨⟨show 0 < size by omega, show size ≤ length by omega⟩, rfl, rfl, s', h',
    hn, hsame, hgrows, fun o ho hout => ?_⟩
  rw [hcontents o ho, hsmall, copy_outside]
  by_contra hin
  refine hout ⟨o - file.filePtr.toNat, show _ < size by omega, ?_⟩
  rw [Nat.mod_eq_of_lt (by omega)]
  omega

theorem fileLoop_spares {left done length : Nat} {modified : Bool}
    (h : Transferring k n₀ s m₁ m₂) (hfile : file.inode = s.inode k) (hleft : length ≤ left) :
    Together (fileLoop true left file buff done length modified) m₁ m₂ fun r m₁' m₂' =>
      (r.2.2 = false → modified = false ∧ r.1.inode = file.inode) ∧
        r.1.inodeIdx = file.inodeIdx ∧ ∃ s', Transferring k n₀ s' m₁' m₂' ∧
          r.1.inode = s'.inode k ∧ Spared k file.filePtr length s s' := by
  induction left generalizing s file buff done length modified m₁ m₂ with
  | zero =>
      obtain rfl : length = 0 := by omega
      exact together_pure ⟨fun hfalse => ⟨hfalse, rfl⟩, rfl, s, h, hfile, spared_refl ..⟩
  | succ left ih =>
      rw [fileLoop]
      split
      next hzero =>
        subst hzero
        exact together_pure ⟨fun hfalse => ⟨hfalse, rfl⟩, rfl, s, h, hfile, spared_refl ..⟩
      next hlength =>
        refine (fileRound_spares h hfile (by omega)).bind ?_
        rintro ⟨file₁, buff₁, modified₁, size⟩ m₁ m₂
          ⟨⟨hsize, hle⟩, hidx₁, hptr₁, s₁, h₁, hfile₁, hsame₁, hround⟩
        simp only at hsize hle hidx₁ hptr₁ hfile₁ hsame₁ hround ⊢
        refine (ih h₁ hfile₁ (by omega)).mono ?_
        rintro r m₁ m₂ ⟨hsame₂, hidx₂, s₂, h₂, hinode₂, hrest⟩
        rw [hptr₁] at hrest
        refine ⟨fun hfalse => ?_, hidx₂.trans hidx₁, s₂, h₂, hinode₂, hround.trans hrest hle⟩
        obtain ⟨hboth, hinode⟩ := hsame₂ hfalse
        rw [Bool.or_eq_false_iff] at hboth
        exact ⟨hboth.1, hinode.trans (hsame₁ hboth.2)⟩

/-- What writing to an open file at any position leaves. -/
structure Rewritten (s s' : FsState) (file file' : File) (length : Nat) : Prop where
  owned : Owned s'
  leaves : Leaves file.inodeIdx.toNat s s'
  hasBlocks : HasBlocks s' (s'.inode file.inodeIdx.toNat)
  inodeIdx : file'.inodeIdx = file.inodeIdx
  pointer : ∀ r, pointer file'.inode r = pointer (s'.inode file.inodeIdx.toNat) r
  object : file'.inode.type = 2
  inode : (s'.inode file.inodeIdx.toNat).type = 2
  contents : ∀ o < l0Bound, o ∉ span file.filePtr length →
    contentsOf s' (s'.inode file.inodeIdx.toNat) o =
      contentsOf s (s.inode file.inodeIdx.toNat) o

theorem fileWrite_spares {length : Nat} (h : Paired s m₁ m₂) (howned : Owned s)
    (hfile : UpToDate s file) (hblocks : HasBlocks s (s.inode file.inodeIdx.toNat))
    (hmode : file.mode &&& oWronly ≠ 0) :
    Together (fileTransfer true file buff length) m₁ m₂ fun r m₁' m₂' =>
      ∃ s', Paired s' m₁' m₂' ∧ Rewritten s s' file r.1 length := by
  obtain ⟨k, hk⟩ : ∃ k, k = file.inodeIdx.toNat := ⟨_, rfl⟩
  obtain ⟨hlive, hpointer, hobject, htype⟩ := hfile
  rw [← hk] at hlive hpointer htype hblocks
  unfold fileTransfer
  rw [if_pos rfl, if_neg hmode]
  have hself : (s.setInode k file.inode).inode k = file.inode := Function.update_self ..
  obtain ⟨htransferring, hcontents₀⟩ := transferring_object h howned hlive hpointer hblocks
  refine (fileLoop_spares htransferring hself.symm (le_refl _)).bind ?_
  rintro ⟨file', buff', modified⟩ m₁ m₂ ⟨hsame, hidx, s₁, h₁, hinode, hgrows, hcontents⟩
  simp only at hsame hidx hinode
  have hobject₁ : file'.inode.type = 2 := by rw [hinode, hgrows.type, hself, hobject]
  refine (writeBack_paired h₁ (by rw [hidx, hk]) hinode.symm hpointer hgrows
    fun hfalse => (hsame hfalse).2).bind ?_
  rintro _ m₁ m₂ ⟨s', h', hback⟩
  refine together_pure ⟨s', h', ⟨hback.owned, hk ▸ hback.leaves, hk ▸ hback.hasBlocks, hidx,
    hk ▸ hback.pointer, hobject₁, ?_, fun o ho hout => ?_⟩⟩
  · rw [← hk]
    rcases hback.inode with heq | ⟨heq, -⟩
    · rw [heq, hobject₁]
    · rw [heq, htype]
  · rw [← hk, hback.contents, hcontents o ho hout, hcontents₀]

end LabKernel.PairedWrites
