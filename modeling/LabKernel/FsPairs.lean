import LabKernel.BlockFreeing
import LabKernel.BlockPairs
import LabKernel.DirectoryCalls
import LabKernel.SuperBlockCopy

/-!
The file system on two disks that differ in the contents of free blocks.

Each function takes the same course on both, because what it reads is either a
table or a block in use.  A block that is allocated is the same on both disks
as soon as it is filled with zeros and `update` is called.
-/

namespace LabKernel.FsPairs

open LabKernel.BlockCache
open LabKernel.BlockFreeing
open LabKernel.BlockObject
open LabKernel.BlockOwnership
open LabKernel.BlockPairs
open LabKernel.ByteMemory
open LabKernel.DirectData
open LabKernel.Directories
open LabKernel.DirectoryCalls
open LabKernel.FsCode
open LabKernel.FsLayout
open LabKernel.FsPrimitives
open LabKernel.FsTables
open LabKernel.HandleRecycling
open LabKernel.PairedRuns
open LabKernel.ProgramLogic
open LabKernel.SuperBlockCopy

variable {m₁ m₂ : Machine Bytes Globals} {s s' : FsState} {T : Finset Nat} {V U X : Set Nat}
  {n : Inode} {ino : UInt32}

theorem tables_lt {x : Nat} (hx : x < 517) : x < maxBlockNum := hx.trans (by decide)

/-- The machines agree on the tables. -/
def Tabled (X : Set Nat) : Prop := ∀ x ∈ X, 517 ≤ x

theorem Tabled.notMem (h : Tabled X) {x : Nat} (hx : x < 517) : x ∉ X := fun hmem =>
  absurd (h x hmem) (by omega)

theorem Tabled.diff (h : Tabled X) {x : Nat} (hx : x < 517) : X \ {x} = X :=
  Set.sdiff_singleton_eq_self (h.notMem hx)

theorem together_getSuperblock (h : Alike V U m₁ m₂) :
    Together getSuperblock m₁ m₂ fun sb m₁' m₂' =>
      sb = m₁.globals.superblock ∧ m₁' = m₁ ∧ m₂' = m₂ := by
  refine (together_getGlobals h).bind ?_
  rintro _ m₁ m₂ ⟨rfl, rfl, rfl⟩
  exact together_pure ⟨rfl, rfl, rfl⟩

theorem together_cwdNode (h : Alike X X m₁ m₂) :
    Together cwdNode m₁ m₂ fun ino m₁' m₂' =>
      ino = m₁.globals.cwdNode ∧ m₁' = m₁ ∧ m₂' = m₂ := by
  refine (together_getGlobals h).bind ?_
  rintro _ m₁ m₂ ⟨rfl, rfl, rfl⟩
  exact together_pure ⟨rfl, rfl, rfl⟩

theorem together_assert {condition : Bool} {failure : Failure}
    {Q : Unit → Machine Bytes Globals → Machine Bytes Globals → Prop}
    (hQ : condition = true → Q () m₁ m₂) : Together (assert condition failure) m₁ m₂ Q := by
  cases condition with
  | false => exact together_fail
  | true => exact together_pure (hQ rfl)

theorem together_save {α : Type} {block : Block} {d : Bytes} {k : Fs α}
    {Q : α → Machine Bytes Globals → Machine Bytes Globals → Prop} (h : Alike V U m₁ m₂)
    (hV : Tabled V) (hU : Tabled U) (hfresh : Fresh T m₁ block) (hx : block.blockid < 517)
    (hk : ∀ m₁' m₂', (∀ c, Fresh T m₁ c → Fresh T m₁' c) → Alike V U m₁' m₂' →
      Together k m₁' m₂' Q) :
    Together (do block.store d; block.update; k) m₁ m₂ Q := by
  refine together_store_update h hfresh (tables_lt hx) fun m₁' m₂' hkeep h' => hk m₁' m₂' hkeep ?_
  rwa [hV.diff hx, hU.diff hx] at h'

theorem together_saved {block : Block} {d : Bytes} (h : Alike V U m₁ m₂) (hV : Tabled V)
    (hU : Tabled U) (hfresh : Fresh T m₁ block) (hx : block.blockid < 517) :
    Together (do block.store d; block.update : Fs Unit) m₁ m₂ fun _ m₁' m₂' =>
      (∀ c, Fresh T m₁ c → Fresh T m₁' c) ∧ Alike V U m₁' m₂' := by
  refine (together_store h hfresh (tables_lt hx) d).bind ?_
  rintro _ m₁ m₂ ⟨hkeep, h⟩
  rw [hV.diff hx] at h
  refine (together_update h (hkeep _ hfresh) (tables_lt hx) (hV.notMem hx)).mono ?_
  rintro _ m₁ m₂ ⟨hkeep', h⟩
  rw [hU.diff hx] at h
  exact ⟨fun c hc => hkeep' c (hkeep c hc), h⟩

theorem together_flushSuperblock (h : Alike V U m₁ m₂) (hheld : Held T V U m₁) (hV : Tabled V)
    (hU : Tabled U) (hT : T.card ≤ cacheSize) (h0 : 0 ∈ T) :
    Together flushSuperblock m₁ m₂ fun _ m₁' m₂' =>
      (∀ c, Fresh T m₁ c → Fresh T m₁' c) ∧ Alike V U m₁' m₂' := by
  refine (together_openHeld h hheld hT h0).bind ?_
  rintro block m₁ m₂ ⟨hid, hfresh, hev, -, h⟩
  refine (together_getSuperblock h).bind ?_
  rintro sb m₁ m₂ ⟨rfl, rfl, rfl⟩
  have hx : block.blockid < 517 := by rw [hid]; omega
  refine (together_load h hfresh (tables_lt hx) (hV.notMem hx)).bind ?_
  rintro data m₁ m₂ ⟨rfl, rfl, rfl⟩
  refine (together_saved h hV hU hfresh hx).mono ?_
  exact fun _ m₁ m₂ hq => ⟨fun c hc => hq.1 c (hev.fresh c hc), hq.2⟩

theorem together_modifySuperblock (h : Alike V U m₁ m₂) (f : SuperBlock → SuperBlock) :
    Together (modifySuperblock f) m₁ m₂ fun _ m₁' m₂' =>
      (∀ c, Fresh T m₁ c → Fresh T m₁' c) ∧ Alike V U m₁' m₂' :=
  (together_modifyGlobals h _).mono fun _ _ _ hq => ⟨hq.1, hq.2.2⟩

theorem together_allocLoop {mapStart : UInt32} {noSpace : Failure}
    {account : UInt32 → SuperBlock → SuperBlock} {left i : Nat} (h : Alike V U m₁ m₂)
    (hheld : Held T V U m₁) (hV : Tabled V) (hU : Tabled U) (hT : T.card ≤ cacheSize) (h0 : 0 ∈ T)
    (hmap : ∀ i', i ≤ i' → i' < i + left →
      (mapStart + UInt32.ofNat i').toNat < 517 ∧ (mapStart + UInt32.ofNat i').toNat ∈ T) :
    Together (allocLoop mapStart noSpace account left i) m₁ m₂ fun _ m₁' m₂' =>
      (∀ c, Fresh T m₁ c → Fresh T m₁' c) ∧ Alike V U m₁' m₂' := by
  induction left generalizing i m₁ m₂ with
  | zero => exact together_fail
  | succ left ih =>
      obtain ⟨hx, hmem⟩ := hmap i (le_refl _) (by omega)
      rw [allocLoop]
      refine (together_openHeld h hheld hT hmem).bind ?_
      rintro block m₁ m₂ ⟨hid, hfresh, hev, -, h⟩
      have hblock : block.blockid < 517 := hid ▸ hx
      have hheld := hheld.keep hev.fresh
      refine (together_load h hfresh (tables_lt hblock) (hV.notMem hblock)).bind ?_
      rintro data m₁ m₂ ⟨rfl, rfl, rfl⟩
      split
      next j k _ =>
        refine together_save h hV hU hfresh hblock fun m₁ m₂ hkeep h => ?_
        have hheld := hheld.keep hkeep
        refine (together_modifySuperblock (T := T) h _).bind ?_
        rintro _ m₁ m₂ ⟨hkeep₁, h⟩
        refine (together_flushSuperblock h (hheld.keep hkeep₁) hV hU hT h0).bind ?_
        rintro _ m₁ m₂ ⟨hkeep₂, h⟩
        exact together_pure
          ⟨fun c hc => hkeep₂ c (hkeep₁ c (hkeep c (hev.fresh c hc))), h⟩
      next =>
        refine (ih h hheld fun i' hle hlt => hmap i' (by omega) (by omega)).mono ?_
        exact fun _ m₁ m₂ hq => ⟨fun c hc => hq.1 c (hev.fresh c hc), hq.2⟩

theorem together_inodeAlloc (h : Alike X X m₁ m₂) (hX : Tabled X)
    (hlayout : Layout m₁.globals.superblock) :
    Together inodeAlloc m₁ m₂ fun _ => Alike X X := by
  refine (together_getSuperblock h).bind ?_
  rintro sb m₁ m₂ ⟨rfl, rfl, rfl⟩
  refine (together_allocLoop h (held_of_subset (Set.Subset.refl X)) hX hX (T := inodeMapArea)
    (by decide) (by decide) fun i' hle hlt => ?_).mono fun _ _ _ hq => hq.2
  rw [hlayout.inodeMapSize, show (32768 : UInt32).toNat / bitsPerBlock = 1 by decide] at hlt
  rw [hlayout.inodeMapStartBlock, toNat_add_ofNat, show (1 : UInt32).toNat = 1 from rfl,
    show i' = 0 by omega]
  · exact ⟨by decide, by decide⟩
  · rw [show (1 : UInt32).toNat = 1 from rfl]
    omega

theorem together_blockAlloc (h : Alike V U m₁ m₂) (hheld : Held T V U m₁) (hV : Tabled V)
    (hU : Tabled U) (hT : T.card ≤ cacheSize) (hmap : blockMapArea ⊆ T)
    (hlayout : Layout m₁.globals.superblock) :
    Together blockAlloc m₁ m₂ fun _ => Alike V U := by
  refine (together_getSuperblock h).bind ?_
  rintro sb m₁ m₂ ⟨rfl, rfl, rfl⟩
  refine (together_allocLoop h hheld hV hU hT (hmap (by decide)) fun i' _ hlt => ?_).mono
    fun _ _ _ hq => hq.2
  rw [hlayout.blockMapSize, show (98304 : UInt32).toNat / bitsPerBlock = 3 by decide] at hlt
  rw [hlayout.blockMapStartBlock, toNat_add_ofNat, show (2 : UInt32).toNat = 2 from rfl]
  · have : i' = 0 ∨ i' = 1 ∨ i' = 2 := by omega
    rcases this with rfl | rfl | rfl <;> exact ⟨by decide, hmap (by decide)⟩
  · rw [show (2 : UInt32).toNat = 2 from rfl]
    omega

theorem together_freeNumber {mapStart number : UInt32} {limit : Nat}
    {account : UInt32 → SuperBlock → SuperBlock} (h : Alike X X m₁ m₂) (hX : Tabled X)
    (hmap : number.toNat < limit →
      (mapStart + UInt32.ofNat (number.toNat / bitsPerBlock)).toNat < 517) :
    Together (freeNumber mapStart limit account number) m₁ m₂ fun _ => Alike X X := by
  unfold freeNumber
  refine (together_assert (Q := fun _ m₁' m₂' => number.toNat < limit ∧ Alike X X m₁' m₂')
    fun htrue => ⟨by simpa using htrue, h⟩).bind ?_
  rintro _ m₁ m₂ ⟨hlt, h⟩
  have hx := hmap hlt
  refine together_open_load h (Set.Subset.refl X) (tables_lt hx) (hX.notMem hx)
    fun block m₁ m₂ hid hfresh h => ?_
  refine (together_assert (Q := fun _ m₁' m₂' => m₁' = m₁ ∧ m₂' = m₂)
    fun _ => ⟨rfl, rfl⟩).bind ?_
  rintro _ m₁ m₂ ⟨rfl, rfl⟩
  refine together_save h hX hX hfresh (by rw [hid]; exact hx) fun m₁ m₂ _ h => ?_
  refine (together_modifySuperblock (T := ∅) h _).bind ?_
  rintro _ m₁ m₂ ⟨-, h⟩
  exact (together_flushSuperblock h (held_of_subset (Set.Subset.refl X)) hX hX (T := {0})
    (by decide) (by decide)).mono fun _ _ _ hq => hq.2

theorem together_inodeFree (h : Alike X X m₁ m₂) (hX : Tabled X)
    (hlayout : Layout m₁.globals.superblock) :
    Together (inodeFree ino) m₁ m₂ fun _ => Alike X X := by
  refine (together_getSuperblock h).bind ?_
  rintro sb m₁ m₂ ⟨rfl, rfl, rfl⟩
  refine together_freeNumber h hX fun hlt => ?_
  rw [maxInodeNum_eq] at hlt
  rw [hlayout.inodeMapStartBlock, show bitsPerBlock = 32768 by decide, toNat_add_ofNat]
  · rw [show (1 : UInt32).toNat = 1 from rfl]
    omega
  · rw [show (1 : UInt32).toNat = 1 from rfl]
    omega

theorem together_blockFree {p : UInt32} (h : Alike X X m₁ m₂) (hX : Tabled X)
    (hlayout : Layout m₁.globals.superblock) :
    Together (blockFree p) m₁ m₂ fun _ => Alike X X := by
  refine (together_getSuperblock h).bind ?_
  rintro sb m₁ m₂ ⟨rfl, rfl, rfl⟩
  refine together_freeNumber h hX fun hlt => ?_
  rw [maxBlockNum_eq] at hlt
  rw [hlayout.blockMapStartBlock, show bitsPerBlock = 32768 by decide, toNat_add_ofNat]
  · rw [show (2 : UInt32).toNat = 2 from rfl]
    omega
  · rw [show (2 : UInt32).toNat = 2 from rfl]
    omega

theorem together_readInode (h : Alike X X m₁ m₂) (hX : Tabled X)
    (hlayout : Layout m₁.globals.superblock) (hino : ino.toNat < maxInodeNum) :
    Together (readInode ino) m₁ m₂ fun _ => Alike X X := by
  refine (together_getSuperblock h).bind ?_
  rintro sb m₁ m₂ ⟨rfl, rfl, rfl⟩
  have hx : inodeBlock m₁.globals.superblock ino < 517 := by
    rw [inodeBlock_eq hlayout]
    exact inodeBlock_lt hino
  exact together_open_load h (Set.Subset.refl X) (tables_lt hx) (hX.notMem hx)
    fun block m₁ m₂ _ _ h => together_pure h

theorem together_writeInode (h : Alike X X m₁ m₂) (hX : Tabled X)
    (hlayout : Layout m₁.globals.superblock) (hino : ino.toNat < maxInodeNum) :
    Together (writeInode ino n) m₁ m₂ fun _ => Alike X X := by
  refine (together_getSuperblock h).bind ?_
  rintro sb m₁ m₂ ⟨rfl, rfl, rfl⟩
  have hx : inodeBlock m₁.globals.superblock ino < 517 := by
    rw [inodeBlock_eq hlayout]
    exact inodeBlock_lt hino
  refine together_open_load h (Set.Subset.refl X) (tables_lt hx) (hX.notMem hx)
    fun block m₁ m₂ hid hfresh h => ?_
  exact (together_saved h hX hX hfresh (by rw [hid]; exact hx)).mono fun _ _ _ hq => hq.2

variable {p : UInt32} {src : Bytes} {offset length : Nat}

theorem together_writeDirect (h : Alike X X m₁ m₂) (hX : Tabled X)
    (hlayout : Layout m₁.globals.superblock)
    (hp : p ≠ 0 → p.toNat < maxBlockNum ∧ p.toNat ∉ X) :
    Together (inodeModifyDataRecur true 0 none p (.buffer src) offset length) m₁ m₂
      fun r => Alike (X \ {r.1.toNat}) (X \ {r.1.toNat}) := by
  have hopen : Together (openPointer none p) m₁ m₂ fun r m₁' m₂' =>
      r.1.toNat < maxBlockNum ∧ r.2.2.blockid = r.1.toNat ∧ Fresh {r.1.toNat} m₁' r.2.2 ∧
        Alike (X \ {r.1.toNat}) X m₁' m₂' := by
    rw [openPointer]
    split
    next =>
      refine ((together_blockAlloc h (held_of_subset (Set.Subset.refl X)) hX hX
        (T := blockMapArea) (by decide) (Finset.Subset.refl _) hlayout).and
        (runs_blockAlloc ⟨h.sound₁, hlayout⟩ (T := blockMapArea) (by decide)
          (Finset.Subset.refl _))).bind ?_
      rintro b m₁ m₂ ⟨⟨hlt, -⟩, h⟩
      refine Together.bind (together_pure (Q := fun _ => Alike X X) h) fun _ m₁ m₂ h => ?_
      refine (together_openOne h (Set.Subset.refl X) b.toNat).bind ?_
      rintro block m₁ m₂ ⟨hid, hfresh, h⟩
      refine (together_store h hfresh (hid ▸ hlt) zeros).bind ?_
      rintro _ m₁ m₂ ⟨hkeep, h⟩
      rw [hid] at h
      exact together_pure ⟨hlt, hid, hkeep _ hfresh, h⟩
    next hne =>
      refine (together_openOne h (Set.Subset.refl X) p.toNat).bind ?_
      rintro block m₁ m₂ ⟨hid, hfresh, h⟩
      refine together_pure ⟨(hp hne).1, hid, hfresh, ?_⟩
      rwa [Set.sdiff_singleton_eq_self (hp hne).2]
  refine hopen.bind ?_
  rintro ⟨b, new, block⟩ m₁ m₂ ⟨hlt, hid, hfresh, h⟩
  simp only at hlt hid hfresh h
  have hblock : block.blockid < maxBlockNum := hid ▸ hlt
  have htransfer : Together (transfer true block (.buffer src) offset length) m₁ m₂
      fun _ => Alike (X \ {b.toNat}) (X \ {b.toNat}) := by
    refine Together.bind (together_pure (Q := fun _ m₁' m₂' => m₁' = m₁ ∧ m₂' = m₂)
      ⟨rfl, rfl⟩) ?_
    rintro _ m₁ m₂ ⟨rfl, rfl⟩
    refine (together_load h hfresh hblock (by rw [hid]; exact fun hmem => hmem.2 rfl)).bind ?_
    rintro _ m₁ m₂ ⟨rfl, rfl, rfl⟩
    refine together_store_update h hfresh hblock fun m₁ m₂ _ h => together_pure ?_
    rw [hid] at h
    exact h.mono Set.sdiff_subset (Set.Subset.refl _)
  exact htransfer.bind fun _ m₁ m₂ h => together_pure h

variable {m₁' m₂' : Machine Bytes Globals} {path : List UInt8} {k i q : Nat} {e : DirEntry}

/-- The data blocks whose bit is clear. -/
def unused (s : FsState) : Set Nat :=
  {x | 517 ≤ x ∧ x < maxBlockNum ∧ s.blockUsed x = false}

theorem tabled_unused (s : FsState) : Tabled (unused s) := fun _ hx => hx.1

theorem notMem_unused {x : Nat} (h : s.blockUsed x = true) : x ∉ unused s := by
  rintro ⟨-, -, hfree⟩
  rw [h] at hfree
  cases hfree

/-- The first machine shows the tables `s` and can be recognized, and the second
one differs from it in the contents of free blocks at most. -/
structure Paired (s : FsState) (m₁ m₂ : Machine Bytes Globals) : Prop where
  realizes : Realizes m₁ s
  headed : Headed m₁
  alike : Alike (unused s) (unused s) m₁ m₂

theorem Paired.layout (h : Paired s m₁ m₂) : Layout m₁.globals.superblock :=
  h.realizes.ready.layout

theorem Paired.of_alike (h : Realizes m₁ s) (hh : Headed m₁) (ha : Alike X X m₁ m₂)
    (hX : X ⊆ unused s) : Paired s m₁ m₂ :=
  ⟨h, hh, ha.mono hX hX⟩

theorem unused_congr (h : s'.blockUsed = s.blockUsed) : unused s' = unused s := by
  unfold unused
  rw [h]

theorem unused_eq (h : Realizes m₁ s) (h' : Realizes m₁ s') : unused s' = unused s := by
  ext x
  refine and_congr_right fun _ => and_congr_right fun hx => ?_
  rw [← h.blockUsed x hx, ← h'.blockUsed x hx]

theorem Paired.of_realizes (h : Paired s m₁ m₂) (h' : Realizes m₁ s') : Paired s' m₁ m₂ :=
  Paired.of_alike h' h.headed h.alike (unused_eq h.realizes h').symm.subset

theorem readInode_paired (h : Paired s m₁ m₂) (hino : ino.toNat < maxInodeNum) :
    Together (readInode ino) m₁ m₂ fun n m₁' m₂' =>
      n = s.inode ino.toNat ∧ Paired s m₁' m₂' := by
  refine (((together_readInode h.alike (tabled_unused s) h.layout hino).and
    (readInode_realizes h.realizes hino (E := fun _ _ => True))).and
    (readInode_headed h.realizes h.headed)).mono ?_
  rintro n m₁' m₂' ⟨hh, ⟨hn, h'⟩, ha⟩
  exact ⟨hn, h', hh, ha⟩

theorem writeInode_paired (h : Paired s m₁ m₂) (hino : ino.toNat < maxInodeNum) :
    Together (writeInode ino n) m₁ m₂ fun _ m₁' m₂' =>
      Paired (s.setInode ino.toNat n) m₁' m₂' := by
  refine (((together_writeInode h.alike (tabled_unused s) h.layout hino).and
    (writeInode_realizes h.realizes hino (E := fun _ _ => True))).and
    (writeInode_headed h.realizes h.headed)).mono ?_
  rintro _ m₁' m₂' ⟨hh, h', ha⟩
  exact ⟨h', hh, ha⟩

theorem inodeAlloc_paired (h : Paired s m₁ m₂) :
    Together inodeAlloc m₁ m₂ fun k m₁' m₂' =>
      k.toNat < maxInodeNum ∧ s.inodeUsed k.toNat = false ∧
        Paired (s.setInodeUsed k.toNat true) m₁' m₂' := by
  refine (((together_inodeAlloc h.alike (tabled_unused s) h.layout).and
    (inodeAlloc_realizes h.realizes)).and
    (inodeAlloc_headed h.realizes.ready.sound h.headed)).mono ?_
  rintro k m₁' m₂' ⟨hh, ⟨hk, hfree, h'⟩, ha⟩
  exact ⟨hk, hfree, h', hh, ha⟩

theorem inodeFree_paired (h : Paired s m₁ m₂) (hlive : Live s ino.toNat) :
    Together (inodeFree ino) m₁ m₂ fun _ m₁' m₂' =>
      Paired (s.setInodeUsed ino.toNat false) m₁' m₂' := by
  refine (((together_inodeFree h.alike (tabled_unused s) h.layout).and
    (inodeFree_realizes h.realizes hlive.1 hlive.2 (E := fun _ _ => True))).and
    (inodeFree_headed h.realizes.ready.sound h.headed)).mono ?_
  rintro _ m₁' m₂' ⟨hh, h', ha⟩
  exact ⟨h', hh, ha⟩

theorem unused_of_pointed {pointer : UInt32} {s₁ : FsState} (h : Pointed s pointer p s₁) :
    unused s \ {p.toNat} ⊆ unused s₁ := by
  cases h with
  | old _ => exact Set.sdiff_subset
  | new _ _ =>
      rintro x ⟨⟨hle, hlt, hfree⟩, hne⟩
      exact ⟨hle, hlt, (Function.update_of_ne hne ..).trans hfree⟩

theorem writeDirect_paired {pointer : UInt32} (h : Paired s m₁ m₂) (htables : TablesUsed s)
    (hpointer : pointer ≠ 0 → IsData pointer ∧ s.blockUsed pointer.toNat = true) :
    Together (inodeModifyDataRecur true 0 none pointer (.buffer src) offset length) m₁ m₂
      fun r m₁' m₂' => ∃ s' d, Pointed s pointer r.1 s' ∧ IsData r.1 ∧ Held s pointer d ∧
        r.2.1 = .buffer src ∧ r.2.2 = decide (pointer = 0) ∧
        Paired (s'.setData r.1.toNat (some (copy d offset src 0 length))) m₁' m₂' := by
  refine (((together_writeDirect h.alike (tabled_unused s) h.layout
    fun hne => ⟨(hpointer hne).1.2, notMem_unused (hpointer hne).2⟩).and (writeDirect_realizes
      (A := fun _ _ => True) h.realizes htables (fun hne => (hpointer hne).1)
      fun _ => blockAlloc_full h.realizes)).and
    (writeDirect_headed h.realizes h.headed htables fun hne => (hpointer hne).1)).mono ?_
  rintro ⟨b, data, new⟩ m₁' m₂' ⟨hh, ⟨s', d, hpointed, hb, hheld, hdata, hnew, h', -⟩, ha⟩
  have hX := unused_of_pointed hpointed
  exact ⟨s', d, hpointed, hb, hheld, hdata, hnew, Paired.of_alike h' hh ha hX⟩

theorem inodeModifyData_write_paired {buffer : Bytes} {offset length : UInt32}
    (h : Paired s m₁ m₂) (htables : TablesUsed s)
    (hlt : offset.toNat < l0Bound) (hpointer : n.dataDirect (directIndex offset hlt) ≠ 0 →
      IsData (n.dataDirect (directIndex offset hlt)) ∧
        s.blockUsed (n.dataDirect (directIndex offset hlt)).toNat = true) :
    Together (inodeModifyData true n buffer offset length) m₁ m₂ fun r m₁' m₂' =>
      ∃ s' d p, Pointed s (n.dataDirect (directIndex offset hlt)) p s' ∧ IsData p ∧
        Held s (n.dataDirect (directIndex offset hlt)) d ∧
        r.1 = { grown n (offset + length) with
          dataDirect := Function.update n.dataDirect (directIndex offset hlt) p } ∧
        r.2.1 = buffer ∧ r.2.2 = ((n.size < offset + length && n.type = 2) ||
          n.dataDirect (directIndex offset hlt) = 0) ∧
        Paired (s'.setData p.toNat
          (some (copy d (offset.toNat % blockSize) buffer 0 length.toNat))) m₁' m₂' := by
  unfold inodeModifyData
  refine (together_assert (Q := fun _ => Paired s) fun _ => h).bind fun _ m₁ m₂ h => ?_
  extract_lets grows inode' o
  rw [dif_pos (show o < l0Bound from hlt)]
  extract_lets i
  have hgrown : inode' = grown n (offset + length) := rfl
  have hdirect : inode'.dataDirect i = n.dataDirect (directIndex offset hlt) := by
    rw [hgrown, grown_dataDirect]
    rfl
  rw [hdirect]
  refine (writeDirect_paired h htables hpointer).bind ?_
  rintro ⟨p, data, new⟩ m₁ m₂ ⟨s', d, hpointed, hp, hheld, hdata, hnew, h⟩
  simp only at hdata hnew
  refine together_pure ⟨s', d, p, hpointed, hp, hheld, ?_, by rw [hdata]; rfl, ?_, h⟩
  · rw [hgrown, grown_dataDirect]
    rfl
  · rw [hnew]

theorem readDirect_paired {d buffer : Bytes} (h : Paired s m₁ m₂) (hp : IsData p)
    (hused : s.blockUsed p.toNat = true) (hd : s.data p.toNat = some d) :
    Together (inodeModifyDataRecur false 0 none p (.buffer buffer) offset length) m₁ m₂
      fun r m₁' m₂' => r = (p, .buffer (copy buffer 0 d offset length), false) ∧
        Paired s m₁' m₂' := by
  have hopen : Together (openPointer none p) m₁ m₂ fun r m₁' m₂' =>
      r.1 = p ∧ r.2.1 = false ∧ r.2.2.blockid = p.toNat ∧ Fresh {p.toNat} m₁' r.2.2 ∧
        Paired s m₁' m₂' := by
    rw [openPointer, if_neg (ne_zero_of_isData hp)]
    refine (together_openBlock h.alike (Set.Subset.refl _) (T := {p.toNat}) (by simp [cacheSize])
      (Finset.mem_singleton_self _)).bind ?_
    rintro block m₁ m₂ ⟨hid, hfresh, hev, hg, ha⟩
    exact together_pure ⟨rfl, rfl, hid, hfresh, h.realizes.idle hev hg,
      h.headed.idle h.realizes hev hg, ha⟩
  refine hopen.bind ?_
  rintro ⟨p', new, block⟩ m₁ m₂ ⟨rfl, rfl, hid, hfresh, h⟩
  refine Together.bind (Q := fun data m₁' m₂' =>
    data = .buffer (copy buffer 0 d offset length) ∧ Paired s m₁' m₂') ?_ ?_
  · refine (together_load h.alike hfresh (hid ▸ hp.2) (by rw [hid]; exact notMem_unused hused)).bind ?_
    rintro _ m₁ m₂ ⟨rfl, rfl, rfl⟩
    rw [hid, (h.realizes.data _ hp.1 hp.2 d hd).1]
    exact together_pure ⟨rfl, h⟩
  · rintro _ m₁ m₂ ⟨rfl, h⟩
    exact together_pure ⟨rfl, h⟩

theorem open_load_paired {α : Type} {d : Bytes} {k : Block → Bytes → Fs α}
    {Q : α → Machine Bytes Globals → Machine Bytes Globals → Prop} (h : Paired s m₁ m₂)
    (hp : IsData p) (hused : s.blockUsed p.toNat = true) (hd : s.data p.toNat = some d)
    (hk : ∀ b m₁' m₂', b.blockid = p.toNat → Fresh {p.toNat} m₁' b → Paired s m₁' m₂' →
      Together (k b d) m₁' m₂' Q) :
    Together (do let b ← openBlock p.toNat; let d ← b.load; k b d) m₁ m₂ Q := by
  refine (together_openBlock h.alike (Set.Subset.refl _) (T := {p.toNat}) (by simp [cacheSize])
    (Finset.mem_singleton_self _)).bind ?_
  rintro block m₁ m₂ ⟨hid, hfresh, hev, hg, ha⟩
  have h' := h.realizes.idle hev hg
  refine (together_load ha hfresh (hid ▸ hp.2) (by rw [hid]; exact notMem_unused hused)).bind ?_
  rintro _ m₁ m₂ ⟨rfl, rfl, rfl⟩
  rw [hid, (h'.data _ hp.1 hp.2 d hd).1]
  exact hk block m₁ m₂ hid hfresh ⟨h', h.headed.idle h.realizes hev hg, ha⟩

theorem store_update_paired {α : Type} {block : Block} {d : Bytes} {k : Fs α} {T : Finset Nat}
    {Q : α → Machine Bytes Globals → Machine Bytes Globals → Prop} (h : Paired s m₁ m₂)
    (hfresh : Fresh T m₁ block) (hblock : 517 ≤ block.blockid) (hlt : block.blockid < maxBlockNum)
    (hk : ∀ m₁' m₂', Paired (s.setData block.blockid (some d)) m₁' m₂' → Together k m₁' m₂' Q) :
    Together (do block.store d; block.update; k) m₁ m₂ Q := by
  refine ((together_store h.alike hfresh hlt d).and (runs_store h.realizes.ready.sound hfresh d
    (E := fun _ _ => True))).bind ?_
  rintro _ m₁' m₂' ⟨⟨hev, hv, hg⟩, hkeep, ha⟩
  refine ((together_update ha (hkeep _ hfresh) hlt fun hmem => hmem.2 rfl).and
    (runs_update hev.sound (hkeep _ hfresh) hlt (E := fun _ _ => True))).bind ?_
  rintro _ m₁'' m₂'' ⟨⟨hev', hv', hs', hg'⟩, -, ha'⟩
  have hh := h.headed.written h.realizes hblock (hev.trans hev') (hg'.trans hg)
  refine hk m₁'' m₂'' ⟨?_, hh, ha'.mono Set.sdiff_subset Set.sdiff_subset⟩
  refine h.realizes.write hblock (hev.trans hev') (hg'.trans hg) ?_
  rintro d' ⟨⟩
  exact ⟨hv'.trans hv, hs'⟩

theorem standing_used (hs : Standing s) (hi : direct s.here i ≠ 0) :
    s.blockUsed (direct s.here i).toNat = true := by
  obtain ⟨r, hr, -⟩ := direct_eq_blockAt hi
  rw [hr] at hi ⊢
  exact (hs.owned.isData _ hs.live ⟨r, []⟩ (fits_root r) hi).2

theorem scanBlocks_paired {left freeOffset : Nat} (h : Paired s m₁ m₂) (hs : Standing s) :
    Together (scanBlocks s.here path left i freeOffset) m₁ m₂ fun _ => Paired s := by
  induction left generalizing i freeOffset m₁ m₂ with
  | zero => exact together_pure h
  | succ left ih =>
      rw [scanBlocks]
      split
      next hi =>
        obtain ⟨hp, d, hd⟩ := hs.hasBlocks i hi
        refine open_load_paired h hp (standing_used hs hi) hd fun _ m₁ m₂ _ _ h => ?_
        split
        next => exact together_pure h
        next => exact ih h
      next => exact ih h

theorem entryInode_paired {newInodeIdx : UInt32} (h : Paired s m₁ m₂) :
    Together (entryInode newInodeIdx) m₁ m₂ fun ino m₁' m₂' =>
      ∃ s', Provided s newInodeIdx ino s' ∧ Paired s' m₁' m₂' := by
  unfold entryInode
  split
  next hzero =>
    refine (inodeAlloc_paired h).bind ?_
    rintro ino m₁ m₂ ⟨hlt, hfree, h⟩
    refine (writeInode_paired h hlt).bind fun _ m₁ m₂ h => ?_
    exact together_pure ⟨_, .new hzero hlt hfree, h⟩
  next hne => exact together_pure ⟨s, .given hne, h⟩

theorem insertEntry_paired (h : Paired s m₁ m₂) (hs : Standing s) (hq : q < 1024) :
    Together (insertEntry s.here path q ino) m₁ m₂ fun _ m₁' m₂' =>
      ∃ s', Paired s' m₁' m₂' := by
  have hoffset : (UInt32.ofNat (q * dirEntrySize)).toNat = 32 * q := by
    rw [UInt32.toNat_ofNat', dirEntrySize]
    omega
  have hlt : (UInt32.ofNat (q * dirEntrySize)).toNat < l0Bound := by
    rw [hoffset, show l0Bound = 32768 by decide]
    omega
  have hpointer : s.here.dataDirect (directIndex _ hlt) ≠ 0 →
      IsData (s.here.dataDirect (directIndex _ hlt)) ∧
        s.blockUsed (s.here.dataDirect (directIndex _ hlt)).toNat = true := fun hne =>
    hs.owned.isData _ hs.live ⟨.direct (directIndex _ hlt), []⟩ (fits_root _) hne
  unfold insertEntry
  refine (inodeModifyData_write_paired h hs.owned.tables hlt hpointer).bind ?_
  rintro ⟨n, _, _⟩ m₁ m₂ ⟨s₁, d, p, hpointed, -, -, -, -, -, h₁⟩
  refine (together_cwdNode h₁.alike).bind ?_
  rintro _ m₁ m₂ ⟨rfl, rfl, rfl⟩
  have hcwd : m₁.globals.cwdNode = s.cwd := by
    rw [h₁.realizes.cwd]
    cases hpointed <;> rfl
  rw [hcwd]
  exact (writeInode_paired h₁ hs.live.1).bind fun _ m₁ m₂ h => together_pure ⟨_, h⟩

theorem getInode_paired {newInodeIdx : UInt32} (h : Paired s m₁ m₂) (hs : Standing s)
    (hname : NameOk path) :
    Together (getInodeByFilename path true newInodeIdx) m₁ m₂ fun ino m₁' m₂' =>
      ∃ s', Paired s' m₁' m₂' ∧
        ((s' = s ∧ ∃ q e, Finds s s.here path 0 1024 q e ∧ ino = e.inode) ∨
          ∃ q s₀, Created s path newInodeIdx ino q s₀ s') := by
  have hpaired : Together (getInodeByFilename path true newInodeIdx) m₁ m₂ fun _ m₁' m₂' =>
      ∃ s', Paired s' m₁' m₂' := by
    refine (together_cwdNode h.alike).bind ?_
    rintro _ m₁ m₂ ⟨rfl, rfl, rfl⟩
    rw [h.realizes.cwd]
    refine (readInode_paired h hs.live.1).bind ?_
    rintro _ m₁ m₂ ⟨rfl, h⟩
    refine ((scanBlocks_paired h hs).and (scanBlocks_realizes h.realizes hs.hasBlocks
      (E := fun _ _ => True))).bind ?_
    rintro ⟨found, f⟩ m₁ m₂ ⟨⟨-, hscan⟩, h⟩
    rcases hscan with ⟨q, e, -, hr⟩ | ⟨hr, -, hchoose⟩
    · simp only at hr
      subst hr
      exact together_pure ⟨s, h⟩
    · simp only at hr
      subst hr
      obtain ⟨hlt, -⟩ := chosen_of_chooses hchoose
      refine (entryInode_paired h).bind ?_
      rintro ino m₁ m₂ ⟨s₀, hprovided, h₀⟩
      have hhere : s.inode s.cwd.toNat = s₀.here := (hprovided.here_eq hs).2.1.symm
      rw [hhere]
      exact insertEntry_paired h₀ (hprovided.standing hs) (hhere ▸ hlt)
  refine (hpaired.and (getInode_realizes h.realizes hs hname)).mono ?_
  rintro ino m₁ m₂ ⟨⟨s', h', hcases⟩, s'', h''⟩
  exact ⟨s', h''.of_realizes h', hcases⟩

theorem lookup_paired {newInodeIdx : UInt32} (h : Paired s m₁ m₂) (hs : Standing s) :
    Together (getInodeByFilename path false newInodeIdx) m₁ m₂ fun r m₁' m₂' =>
      Paired s m₁' m₂' ∧ ((∃ q e, Finds s s.here path 0 1024 q e ∧ r = e.inode) ∨
        (r = minusOne ∧ Misses s s.here path 0 1024)) := by
  have hpaired : Together (getInodeByFilename path false newInodeIdx) m₁ m₂ fun _ => Paired s := by
    refine (together_cwdNode h.alike).bind ?_
    rintro _ m₁ m₂ ⟨rfl, rfl, rfl⟩
    rw [h.realizes.cwd]
    refine (readInode_paired h hs.live.1).bind ?_
    rintro _ m₁ m₂ ⟨rfl, h⟩
    refine (scanBlocks_paired h hs).bind ?_
    rintro ⟨found, f⟩ m₁ m₂ h
    cases found with
    | some ino => exact together_pure h
    | none => exact together_pure h
  refine (hpaired.and (lookup_realizes h.realizes hs.live.1 hs.hasBlocks
    (E := fun _ _ => True))).mono ?_
  rintro r m₁ m₂ ⟨⟨-, hcases⟩, h'⟩
  exact ⟨h', hcases⟩

theorem removeEntry_paired {left : Nat} (h : Paired s m₁ m₂) (hs : Standing s) :
    Together (removeEntry s.here path left i) m₁ m₂ fun _ m₁' m₂' =>
      ∃ s', Paired s' m₁' m₂' := by
  induction left generalizing i m₁ m₂ with
  | zero => exact together_fail
  | succ left ih =>
      rw [removeEntry]
      split
      next hi =>
        obtain ⟨hp, d, hd⟩ := hs.hasBlocks i hi
        refine open_load_paired h hp (standing_used hs hi) hd fun block m₁ m₂ hid hfresh h => ?_
        split
        next j _ =>
          refine store_update_paired h hfresh (by rw [hid]; exact hp.1) (hid ▸ hp.2) fun m₁ m₂ h => ?_
          refine (together_cwdNode h.alike).bind ?_
          rintro _ m₁ m₂ ⟨rfl, rfl, rfl⟩
          rw [h.realizes.cwd]
          exact (writeInode_paired h hs.live.1).mono fun _ m₁ m₂ h => ⟨_, h⟩
        next => exact ih h
      next => exact ih h

theorem removeInode_paired (h : Paired s m₁ m₂) (hs : Standing s)
    (hfinds : Finds s s.here path 0 1024 q e) :
    Together (removeInodeByFilename path) m₁ m₂ fun _ m₁' m₂' => ∃ s', Paired s' m₁' m₂' ∧
      SlotSet s s' q none ∧ s'.here.size = s.here.size - 1 ∧ s'.blockUsed = s.blockUsed := by
  have hpaired : Together (removeInodeByFilename path) m₁ m₂ fun _ m₁' m₂' =>
      ∃ s', Paired s' m₁' m₂' := by
    refine (together_cwdNode h.alike).bind ?_
    rintro _ m₁ m₂ ⟨rfl, rfl, rfl⟩
    rw [h.realizes.cwd]
    refine (readInode_paired h hs.live.1).bind ?_
    rintro _ m₁ m₂ ⟨rfl, h⟩
    exact removeEntry_paired h hs
  refine (hpaired.and (removeInode_realizes h.realizes hs hfinds (E := fun _ _ => True))).mono ?_
  rintro _ m₁ m₂ ⟨⟨s', h', hset⟩, s'', h''⟩
  exact ⟨s', h''.of_realizes h', hset⟩

variable {T : Finset Nat} {D : Set Nat} {depth : Nat}

/-- Some blocks were given back since `m₀`. -/
structure Freeing (s : FsState) (T : Finset Nat) (X : Set Nat) (m₀ m₁ m₂ : Machine Bytes Globals) :
    Prop where
  realizes : ∃ D, Realizes m₁ (release s D)
  headed : Headed m₁
  evolves : Evolves T T blockMapArea m₀ m₁
  alike : Alike X X m₁ m₂

theorem Freeing.trans {m₀ : Machine Bytes Globals} (h : Evolves T T blockMapArea m₀ m₁)
    (h' : Freeing s T X m₁ m₁' m₂') : Freeing s T X m₀ m₁' m₂' :=
  ⟨h'.realizes, h'.headed, h.trans h'.evolves, h'.alike⟩

theorem together_freeEntries {block : Block} {freeEntry : UInt32 → Fs Unit} {Q : UInt32 → Prop}
    {index : Bytes} {left i : Nat}
    (hfree : ∀ p m₁ m₂ D, p ≠ 0 → Q p → Realizes m₁ (release s D) → Headed m₁ →
      Alike X X m₁ m₂ → Together (freeEntry p) m₁ m₂ fun _ => Freeing s T X m₁)
    (h : Realizes m₁ (release s D)) (hh : Headed m₁) (ha : Alike X X m₁ m₂)
    (hfresh : Fresh T m₁ block)
    (hle : 517 ≤ block.blockid) (hlt : block.blockid < maxBlockNum) (hX : block.blockid ∉ X)
    (hindex : s.data block.blockid = some index) (hi : i + left ≤ pointersPerBlock)
    (hQ : ∀ e < pointersPerBlock, Q (get32 index (4 * e))) :
    Together (freeEntries block freeEntry left i) m₁ m₂ fun _ => Freeing s T X m₁ := by
  induction left generalizing m₁ m₂ D i with
  | zero =>
      exact together_pure ⟨⟨D, h⟩, hh, Evolves.refl h.ready.sound (Finset.Subset.refl _), ha⟩
  | succ left ih =>
      have hshown : visible m₁ block.blockid = index := (h.data _ hle hlt index hindex).1
      refine (together_load ha hfresh hlt hX).bind ?_
      rintro _ m₁ m₂ ⟨rfl, rfl, rfl⟩
      rw [hshown]
      dsimp only
      split
      next => exact ih h hh ha hfresh (by omega)
      next hne =>
        refine (hfree _ m₁ m₂ D hne (hQ i (by omega)) h hh ha).bind ?_
        rintro _ m₁' m₂' ⟨⟨D', h'⟩, hh', hev, ha'⟩
        exact (ih h' hh' ha' (hev.fresh _ hfresh) (by omega)).mono fun _ _ _ hf => hf.trans hev

theorem together_freeRecur_zero (h : Realizes m₁ (release s D)) (hh : Headed m₁)
    (ha : Alike X X m₁ m₂) (hX : Tabled X) (hT : T.card ≤ cacheSize) (hmem : blockMapArea ⊆ T)
    (hp : p ≠ 0) :
    Together (freeInodeBlocksRecur 0 p) m₁ m₂ fun _ => Freeing s T X m₁ := by
  have hfree : Together (freeInodeBlocksRecur 0 p) m₁ m₂ fun _ => Alike X X := by
    rw [freeInodeBlocksRecur, if_neg hp]
    exact together_blockFree ha hX h.ready.layout
  have hheaded : Runs (freeInodeBlocksRecur 0 p) m₁ Any fun _ m' => Headed m' := by
    rw [freeInodeBlocksRecur, if_neg hp]
    exact blockFree_headed h.ready.sound hh
  refine ((hfree.and (freeRecur_zero_realizes h hT hmem hp)).and hheaded).mono ?_
  rintro _ m₁' m₂' ⟨hh', ⟨h', hev⟩, ha'⟩
  exact ⟨⟨_, h'⟩, hh', hev, ha'⟩

theorem together_freeRecur_one (h : Realizes m₁ (release s D)) (hh : Headed m₁)
    (ha : Alike X X m₁ m₂) (hX : Tabled X) (hT : T.card ≤ cacheSize) (hmem : blockMapArea ⊆ T)
    (hp : p ≠ 0)
    (hpT : p.toNat ∈ T) (hpX : p.toNat ∉ X) (hindexed : Indexed s 1 p) :
    Together (freeInodeBlocksRecur 1 p) m₁ m₂ fun _ => Freeing s T X m₁ := by
  obtain ⟨hdata, ⟨index, hindex⟩, -⟩ := hindexed hp
  rw [freeInodeBlocksRecur_succ]
  refine (together_openBlock ha (Set.Subset.refl X) hT hpT).bind ?_
  rintro block m₁' m₂' ⟨hid, hfresh, hev, hg, ha'⟩
  refine (together_freeEntries (Q := fun _ => True)
    (fun q m₁ m₂ D hq _ hm hh ha => together_freeRecur_zero hm hh ha hX hT hmem hq)
    (h.idle hev hg) (hh.idle h hev hg) ha' hfresh (hid ▸ hdata.1) (hid ▸ hdata.2)
    (hid ▸ hpX) (hid ▸ hindex)
    (by simp) fun _ _ => trivial).mono ?_
  exact fun _ _ _ hf => hf.trans (hev.mono (Set.empty_subset _))

theorem together_freeRecur_two (h : Realizes m₁ (release s D)) (hh : Headed m₁)
    (ha : Alike X X m₁ m₂) (hX : Tabled X) (hp : p ≠ 0) (hpX : p.toNat ∉ X)
    (hindexed : Indexed s 2 p)
    (hentries : ∀ e < pointersPerBlock, entryAt s p e ≠ 0 → (entryAt s p e).toNat ∉ X)
    (hfits : OuterFits s p) :
    Together (freeInodeBlocksRecur 2 p) m₁ m₂ fun _ m₁' m₂' =>
      (∃ D, Realizes m₁' (release s D)) ∧ Headed m₁' ∧ Alike X X m₁' m₂' := by
  obtain ⟨hdata, ⟨index, hindex⟩, hinner⟩ := hindexed hp
  rw [freeInodeBlocksRecur_succ]
  set T := insert p.toNat (blockMapArea ∪ indexEntries index) with hTdef
  have hT : T.card ≤ cacheSize := hfits index hindex
  have hmem : blockMapArea ⊆ T := Finset.subset_union_left.trans (Finset.subset_insert _ _)
  refine (together_openBlock ha (Set.Subset.refl X) hT (Finset.mem_insert_self _ _)).bind ?_
  rintro block m₁' m₂' ⟨hid, hfresh, hev, hg, ha'⟩
  refine (together_freeEntries
    (Q := fun q => q ≠ 0 → q.toNat ∈ T ∧ q.toNat ∉ X ∧ Indexed s 1 q)
    (fun q m₁ m₂ D hq hQ hm hh ha => together_freeRecur_one hm hh ha hX hT hmem hq (hQ hq).1
      (hQ hq).2.1 (hQ hq).2.2) (h.idle hev hg) (hh.idle h hev hg) ha' hfresh (hid ▸ hdata.1)
    (hid ▸ hdata.2) (hid ▸ hpX) (hid ▸ hindex) (by simp) ?_).mono fun _ _ _ hf => ⟨hf.realizes, hf.headed, hf.alike⟩
  intro e he hne
  have hentry := entryAt_of_data hp hindex e
  refine ⟨?_, ?_, ?_⟩
  · exact Finset.mem_insert_of_mem (Finset.mem_union_right _ (Finset.mem_image.mpr
      ⟨e, Finset.mem_filter.mpr ⟨Finset.mem_range.mpr he, hne⟩, rfl⟩))
  · rw [← hentry] at hne ⊢
    exact hentries e he hne
  · rw [← hentry]
    exact hinner e he

theorem together_freePointers {pointers : List UInt32} {Q : UInt32 → Prop}
    (hfree : ∀ p m₁ m₂ D, p ≠ 0 → Q p → Realizes m₁ (release s D) → Headed m₁ →
      Alike X X m₁ m₂ → Together (freeInodeBlocksRecur depth p) m₁ m₂ fun _ m₁' m₂' =>
        (∃ D, Realizes m₁' (release s D)) ∧ Headed m₁' ∧ Alike X X m₁' m₂')
    (h : ∃ D, Realizes m₁ (release s D)) (hh : Headed m₁) (ha : Alike X X m₁ m₂)
    (hQ : ∀ p ∈ pointers, Q p) :
    Together (freePointers depth pointers) m₁ m₂ fun _ m₁' m₂' =>
      (∃ D, Realizes m₁' (release s D)) ∧ Headed m₁' ∧ Alike X X m₁' m₂' := by
  induction pointers generalizing m₁ m₂ with
  | nil => exact together_pure ⟨h, hh, ha⟩
  | cons p rest ih =>
      have hrest : ∀ q ∈ rest, Q q := fun q hq => hQ q (List.mem_cons_of_mem _ hq)
      rw [freePointers]
      split
      next => exact ih h hh ha hrest
      next hne =>
        obtain ⟨D, h⟩ := h
        refine (hfree p m₁ m₂ D hne (hQ p List.mem_cons_self) h hh ha).bind ?_
        rintro _ m₁' m₂' ⟨h', hh', ha'⟩
        exact ih h' hh' ha' hrest

theorem unused_subset_release (s : FsState) (D : Set Nat) : unused s ⊆ unused (release s D) := by
  rintro x ⟨hle, hlt, hfree⟩
  refine ⟨hle, hlt, ?_⟩
  rw [release_blockUsed, hfree, ite_self]

theorem freeInodeBlocks_paired (h : Paired s m₁ m₂) (howned : Owned s) (hk : Live s k)
    (hn : ∀ r, pointer n r = pointer (s.inode k) r) (hl3 : n.dataL3 = 0)
    (hfits : ∀ i, n.dataL2 i ≠ 0 → OuterFits s (n.dataL2 i)) :
    Together (freeInodeBlocks n) m₁ m₂ fun _ m₁' m₂' => ∃ D, Paired (release s D) m₁' m₂' := by
  have hcard : blockMapArea.card = 4 := by decide
  have hX := tabled_unused s
  have hnone : release s ∅ = s := by
    simp only [release, Set.mem_empty_iff_false, if_false]
  have hindexed : ∀ r : Root, Indexed s r.depth (pointer n r) := fun r => by
    rw [hn]
    exact indexed_of_owned howned hk (fits_root r) (Nat.zero_add _)
  have hused : ∀ r : Root, pointer n r ≠ 0 → (pointer n r).toNat ∉ unused s := fun r hne => by
    rw [hn] at hne ⊢
    exact notMem_unused (howned.isData k hk ⟨r, []⟩ (fits_root r) hne).2
  refine (together_freePointers (Q := fun _ => True) ?_ ⟨∅, hnone.symm ▸ h.realizes⟩
    h.headed h.alike fun _ _ => trivial).bind ?_
  · intro p m₁ m₂ D hp _ hm hh ha
    exact (together_freeRecur_zero hm hh ha hX (T := blockMapArea) (by rw [hcard]; decide)
      (Finset.Subset.refl _) hp).mono fun _ _ _ hf => ⟨hf.realizes, hf.headed, hf.alike⟩
  rintro _ m₁ m₂ ⟨h₁, hh₁, ha₁⟩
  refine (together_freePointers (Q := fun p => Indexed s 1 p ∧ (p ≠ 0 → p.toNat ∉ unused s)) ?_ h₁
    hh₁ ha₁ ?_).bind ?_
  · intro p m₁ m₂ D hp hQ hm hh ha
    have hinsert := Finset.card_insert_le p.toNat blockMapArea
    exact (together_freeRecur_one hm hh ha hX (T := insert p.toNat blockMapArea)
      (by rw [hcard] at hinsert; rw [cacheSize]; omega) (Finset.subset_insert _ _) hp
      (Finset.mem_insert_self _ _) (hQ.2 hp) hQ.1).mono fun _ _ _ hf =>
        ⟨hf.realizes, hf.headed, hf.alike⟩
  · intro p hp
    obtain ⟨i, rfl⟩ := (List.mem_ofFn' ..).mp hp
    exact ⟨hindexed (.l1 i), hused (.l1 i)⟩
  rintro _ m₁ m₂ ⟨h₂, hh₂, ha₂⟩
  refine (together_freePointers (Q := fun p => ∃ i, p = n.dataL2 i) ?_ h₂ hh₂ ha₂ ?_).bind ?_
  · rintro _ m₁ m₂ D hp ⟨i, rfl⟩ hm hh ha
    refine together_freeRecur_two hm hh ha hX hp (hused (.l2 i) hp) (hindexed (.l2 i)) ?_
      (hfits i hp)
    -- The entries of the outer index block are ways of the inode, too.
    intro e he hne
    have hfits : Place.Fits (Place.snoc ⟨.l2 i, []⟩ e) :=
      (fits_root _).snoc (show 0 < 2 by omega) he
    have hway : blockAt s (s.inode k) (Place.snoc ⟨.l2 i, []⟩ e) = entryAt s (n.dataL2 i) e := by
      rw [blockAt_snoc, blockAt_root, ← hn]
      rfl
    rw [← hway] at hne ⊢
    exact notMem_unused (howned.isData k hk _ hfits hne).2
  · intro p hp
    obtain ⟨i, rfl⟩ := (List.mem_ofFn' ..).mp hp
    exact ⟨i, rfl⟩
  rintro _ m₁ m₂ ⟨⟨D, h₃⟩, hh₃, ha₃⟩
  unfold freePointers
  rw [if_pos hl3]
  exact together_pure ⟨D, Paired.of_alike h₃ hh₃ ha₃ (unused_subset_release s D)⟩

theorem dropLink_paired (h : Paired s m₁ m₂) (howned : Owned s) (hlive : Live s ino.toNat)
    (hn : ∀ r, pointer n r = pointer (s.inode ino.toNat) r)
    (hfits : n.linkCnt = 1 → n.dataL3 = 0 ∧ ∀ i, n.dataL2 i ≠ 0 → OuterFits s (n.dataL2 i)) :
    Together (dropLink ino n) m₁ m₂ fun _ m₁' m₂' =>
      (n.linkCnt ≠ 1 ∧ Paired (s.setInode ino.toNat { n with linkCnt := n.linkCnt - 1 }) m₁' m₂') ∨
      (n.linkCnt = 1 ∧
        Paired ((release s (leaves s n)).setInodeUsed ino.toNat false) m₁' m₂') := by
  have hpaired : Together (dropLink ino n) m₁ m₂ fun _ m₁' m₂' => ∃ s', Paired s' m₁' m₂' := by
    unfold dropLink
    dsimp only
    split
    next =>
      exact (writeInode_paired h hlive.1).bind fun _ m₁ m₂ h => together_pure ⟨_, h⟩
    next hlink =>
      have hone : n.linkCnt = 1 := by
        have hzero : n.linkCnt - 1 = 0 := not_not.mp hlink
        rw [← UInt16.sub_add_cancel n.linkCnt 1, hzero]
        rfl
      obtain ⟨hl3, hl2⟩ := hfits hone
      refine (freeInodeBlocks_paired h howned hlive (fun r => ?_) hl3 hl2).bind ?_
      · rw [← hn]
      rintro _ m₁ m₂ ⟨D, h⟩
      exact (inodeFree_paired h hlive).bind fun _ m₁ m₂ h => together_pure ⟨_, h⟩
  have hindexed : n.linkCnt = 1 → ∀ r : Root, Indexed s r.depth (pointer n r) := fun _ r => by
    rw [hn]
    exact indexed_of_owned howned hlive (fits_root r) (Nat.zero_add _)
  refine (hpaired.and (dropLink_realizes h.realizes hlive hindexed hfits)).mono ?_
  rintro _ m₁ m₂ ⟨hcases, s', h'⟩
  exact hcases.imp (fun hq => ⟨hq.1, h'.of_realizes hq.2⟩) fun hq => ⟨hq.1, h'.of_realizes hq.2⟩

end LabKernel.FsPairs
