import LabKernel.FsTables

/-!
Transfers to and from the blocks behind the direct pointers of an inode, in
terms of the tables of the file system.
-/

namespace LabKernel.DirectData

open LabKernel.BlockCache
open LabKernel.BlockObject
open LabKernel.ByteMemory
open LabKernel.FsCode
open LabKernel.FsLayout
open LabKernel.FsPrimitives
open LabKernel.FsTables
open LabKernel.ProgramLogic

variable {m m' : Machine Bytes Globals} {s s' : FsState} {T : Finset Nat}

/-- The blocks with tables are allocated. -/
def TablesUsed (s : FsState) : Prop := ∀ x < 517, s.blockUsed x = true

/-- A block outside the tables. -/
def IsData (p : UInt32) : Prop := 517 ≤ p.toNat ∧ p.toNat < maxBlockNum

/-- The block with a given pointer is `p`: the pointer itself, or a new block
if the pointer is 0.  The contents of a new block are not settled yet. -/
inductive Pointed (s : FsState) (pointer : UInt32) : UInt32 → FsState → Prop where
  | old : pointer ≠ 0 → Pointed s pointer pointer s
  | new {p : UInt32} : pointer = 0 → s.blockUsed p.toNat = false →
      Pointed s pointer p ((s.setBlockUsed p.toNat true).setData p.toNat none)

theorem store_update_realizes {α : Type} {block : Block} {d : Bytes} {k : Fs α}
    {E : Failure → Machine Bytes Globals → Prop} {Q : α → Machine Bytes Globals → Prop}
    (h : Realizes m s) (hb : Fresh T m block) (hblock : 517 ≤ block.blockid ∧ block.blockid < maxBlockNum)
    (hk : ∀ m', Realizes m' (s.setData block.blockid (some d)) → m'.globals = m.globals →
      Runs k m' E Q) :
    Runs (do block.store d; block.update; k) m E Q := by
  refine runs_store_update h.ready.sound hb hblock.2 fun m' hev hv hs hg => hk m' ?_ hg
  refine h.write hblock.1 hev hg ?_
  rintro d' ⟨⟩
  exact ⟨hv, hs⟩

/-- The variables after the block with a given pointer was opened: what
`block_alloc` leaves if the pointer is 0, otherwise what was there. -/
def Opens (A : UInt32 → Globals → Prop) (pointer p : UInt32) (g g' : Globals) : Prop :=
  if pointer = 0 then A p g' else g' = g

theorem blockAlloc_full (h : Realizes m s) : Runs blockAlloc m Full fun _ _ => True :=
  (blockAlloc_realizes h (T := blockMapArea) (by decide) (Finset.Subset.refl _)).mono
    (fun _ _ he => he) fun _ _ _ => trivial

section Allocating

-- `E` and `A` are what is known of `block_alloc` on this machine.
variable {E : Failure → Machine Bytes Globals → Prop} {A : UInt32 → Globals → Prop}

theorem openPointer_realizes {pointer : UInt32} (h : Realizes m s) (htables : TablesUsed s)
    (hpointer : pointer ≠ 0 → IsData pointer)
    (halloc : pointer = 0 → Runs blockAlloc m E fun n m' => A n m'.globals) :
    Runs (openPointer none pointer) m E fun r m' =>
      ∃ s', Pointed s pointer r.1 s' ∧ IsData r.1 ∧ Realizes m' s' ∧
        r.2.1 = decide (pointer = 0) ∧ r.2.2.blockid = r.1.toNat ∧
        Fresh {r.1.toNat} m' r.2.2 ∧ (pointer = 0 → visible m' r.1.toNat = zeros) ∧
        Opens A pointer r.1 m.globals m'.globals := by
  rw [openPointer]
  split
  next hzero =>
    refine ((halloc hzero).and (blockAlloc_realizes h (T := blockMapArea) (by decide)
      (Finset.Subset.refl _))).mono (fun _ _ he => he.1) (fun _ _ hq => hq) |>.bind ?_
    rintro p m₁ ⟨hA, hp, hfree, h₁, -⟩
    have hdata : IsData p := by
      refine ⟨?_, hp⟩
      by_contra hlt
      rw [htables _ (not_le.mp hlt)] at hfree
      cases hfree
    refine Runs.bind (runs_pure (Q := fun _ m' => m' = m₁) rfl) ?_
    rintro _ _ rfl
    refine (runs_openBlock h₁.ready.sound (T := {p.toNat}) (by simp [cacheSize])
      (Finset.mem_singleton_self _) fun hle => absurd hle (not_le.mpr hp)).bind ?_
    rintro block m₂ ⟨hid, hfresh, hev₂, hg₂⟩
    refine (runs_store hev₂.sound hfresh zeros).bind ?_
    rintro _ m₃ ⟨hev₃, hv₃, hg₃⟩
    rw [hid] at hev₃ hv₃
    have h₃ := (h₁.idle hev₂ hg₂).write (d := none) hdata.1 hev₃ hg₃ (by rintro d' ⟨⟩)
    refine runs_pure ⟨_, .new hzero hfree, hdata, h₃, by simp [hzero], hid, hev₃.fresh _ hfresh,
      fun _ => hv₃, ?_⟩
    rw [Opens, if_pos hzero, hg₃, hg₂]
    exact hA
  next hne =>
    have hdata := hpointer hne
    refine (runs_openBlock h.ready.sound (T := {pointer.toNat}) (by simp [cacheSize])
      (Finset.mem_singleton_self _) fun hle => absurd hle (not_le.mpr hdata.2)).bind ?_
    rintro block m₁ ⟨hid, hfresh, hev₁, hg₁⟩
    refine runs_pure ⟨s, .old hne, hdata, h.idle hev₁ hg₁, by simp [hne], hid, hfresh,
      fun hzero => absurd hzero hne, ?_⟩
    rw [Opens, if_neg hne, hg₁]

/-- What a block holds before a transfer: zeros if it is new. -/
def Held (s : FsState) (pointer : UInt32) (d : Bytes) : Prop :=
  (pointer = 0 → d = zeros) ∧ (pointer ≠ 0 → ∀ d', s.data pointer.toNat = some d' → d = d')

theorem writeDirect_realizes {pointer : UInt32} {src : Bytes} {offset length : Nat}
    (h : Realizes m s) (htables : TablesUsed s) (hpointer : pointer ≠ 0 → IsData pointer)
    (halloc : pointer = 0 → Runs blockAlloc m E fun n m' => A n m'.globals) :
    Runs (inodeModifyDataRecur true 0 none pointer (.buffer src) offset length) m E
      fun r m' => ∃ s' d, Pointed s pointer r.1 s' ∧ IsData r.1 ∧ Held s pointer d ∧
        r.2.1 = .buffer src ∧ r.2.2 = decide (pointer = 0) ∧
        Realizes m' (s'.setData r.1.toNat (some (copy d offset src 0 length))) ∧
        Opens A pointer r.1 m.globals m'.globals := by
  refine (openPointer_realizes h htables hpointer halloc).bind ?_
  rintro ⟨p, new, block⟩ m₁ ⟨s₁, hpointed, hdata, h₁, hnew, hid, hfresh, hzeros, hopens⟩
  refine Runs.bind (Q := fun data m' => data = .buffer src ∧
    Realizes m' (s₁.setData p.toNat (some (copy (visible m₁ p.toNat) offset src 0 length))) ∧
    m'.globals = m₁.globals) ?_ ?_
  · refine Runs.bind (runs_pure (Q := fun d m' => d = src ∧ m' = m₁) ⟨rfl, rfl⟩) ?_
    rintro src m₁ ⟨rfl, rfl⟩
    refine (runs_load h₁.ready.sound hfresh).bind ?_
    rintro _ m₁ ⟨rfl, rfl⟩
    simp only at hid
    refine store_update_realizes h₁ hfresh (hid ▸ hdata) fun m₂ h₂ hg₂ => ?_
    rw [hid] at h₂
    exact runs_pure ⟨rfl, h₂, hg₂⟩
  · rintro _ m₂ ⟨rfl, h₂, hg₂⟩
    refine runs_pure ⟨s₁, visible m₁ p.toNat, hpointed, hdata, ⟨hzeros, ?_⟩, rfl, hnew, h₂, ?_⟩
    · rintro hne d' hd'
      cases hpointed with
      | old _ => exact (h₁.data _ hdata.1 hdata.2 d' hd').1
      | new hzero _ => exact absurd hzero hne
    · rw [hg₂]
      exact hopens

/-- An inode after a transfer that ends at `bound`. -/
def grown (n : Inode) (bound : UInt32) : Inode :=
  if n.size < bound && n.type = 2 then { n with size := bound } else n

theorem grown_dataDirect (n : Inode) (bound : UInt32) :
    (grown n bound).dataDirect = n.dataDirect := by
  unfold grown
  split <;> rfl

theorem grown_of_type_ne {n : Inode} (h : n.type ≠ 2) (bound : UInt32) : grown n bound = n := by
  simp [grown, h]

/-- The pointer that covers an offset of the direct part. -/
def directIndex (offset : UInt32) (h : offset.toNat < l0Bound) : Fin 8 :=
  ⟨offset.toNat / l0Size, directIndex_lt h⟩

theorem inodeModifyData_write_realizes {n : Inode} {buffer : Bytes} {offset length : UInt32}
    (h : Realizes m s) (htables : TablesUsed s)
    (hfit : offset.toNat % blockSize + length.toNat ≤ blockSize) (hlt : offset.toNat < l0Bound)
    (hpointer : n.dataDirect (directIndex offset hlt) ≠ 0 →
      IsData (n.dataDirect (directIndex offset hlt)))
    (halloc : n.dataDirect (directIndex offset hlt) = 0 →
      Runs blockAlloc m E fun n m' => A n m'.globals) :
    Runs (inodeModifyData true n buffer offset length) m E fun r m' =>
      ∃ s' d p, Pointed s (n.dataDirect (directIndex offset hlt)) p s' ∧ IsData p ∧
        Held s (n.dataDirect (directIndex offset hlt)) d ∧
        r.1 = { grown n (offset + length) with
          dataDirect := Function.update n.dataDirect (directIndex offset hlt) p } ∧
        Realizes m' (s'.setData p.toNat
          (some (copy d (offset.toNat % blockSize) buffer 0 length.toNat))) ∧
        Opens A (n.dataDirect (directIndex offset hlt)) p m.globals m'.globals := by
  unfold inodeModifyData
  refine runs_bind (runs_assert (fun hfalse => absurd hfalse (by simpa using hfit)) fun _ => ?_)
  extract_lets grows inode' o
  rw [dif_pos (show o < l0Bound from hlt)]
  extract_lets i
  have hgrown : inode' = grown n (offset + length) := rfl
  have hdirect : inode'.dataDirect i = n.dataDirect (directIndex offset hlt) := by
    rw [hgrown, grown_dataDirect]
    rfl
  rw [hdirect]
  refine (writeDirect_realizes h htables hpointer halloc).bind ?_
  rintro ⟨p, data, new⟩ m₁ ⟨s', d, hpointed, hp, hheld, hbuffer, -, h₁, hopens⟩
  refine runs_pure ⟨s', d, p, hpointed, hp, hheld, ?_, h₁, hopens⟩
  rw [hgrown, grown_dataDirect]
  rfl

end Allocating

end LabKernel.DirectData
