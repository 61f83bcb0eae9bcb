import LabKernel.DirectTransfers
import LabKernel.InertReads

/-!
Writes through index blocks, on two disks that differ in free blocks.

A new index block shows the same on both disks as soon as it is filled with
zeros, but settles only after the recursion came back.  In between it keeps its
slot.
-/

namespace LabKernel.IndexPairs

open LabKernel.BlockCache
open LabKernel.BlockObject
open LabKernel.BlockOwnership
open LabKernel.BlockPairs
open LabKernel.ByteMemory
open LabKernel.DirectData
open LabKernel.DirectTransfers
open LabKernel.Directories
open LabKernel.DirectoryCalls
open LabKernel.FileWrites
open LabKernel.FsCode
open LabKernel.FsLayout
open LabKernel.FsPairs
open LabKernel.FsPrimitives
open LabKernel.FsTables
open LabKernel.IndexWrites
open LabKernel.InertReads
open LabKernel.PairedRuns
open LabKernel.ProgramLogic
open LabKernel.SuperBlockCopy

variable {m m' m₁ m₂ m₁' m₂' : Machine Bytes Globals} {s s' : FsState} {T T' P P' : Finset Nat}
  {X X' Y Z : Set Nat} {block : Block} {p : UInt32} {d : Bytes} {k : Nat}

/-- The tables alone. -/
@[simps]
def bare (s : FsState) : FsState := { s with data := fun _ => none }

theorem realizes_bare (h : Realizes m s) : Realizes m (bare s) :=
  ⟨h.ready, h.settled, h.blockUsed, h.inodeUsed, h.inode, fun _ _ _ _ hd => (by cases hd), h.cwd,
    h.files, h.counted.blocks, h.counted.inodes⟩

theorem unused_setBlockUsed {b : Nat} (s : FsState) :
    unused (s.setBlockUsed b true) = unused s \ {b} := by
  ext x
  unfold unused
  rcases eq_or_ne x b with rfl | hne
  · simp
  · simp [hne]

/-- The first machine shows the tables `s`, and the second one differs from it
in the blocks of `X` at most.  The blocks of `P` show the same on both, but
settle later, and keep their slots as long as only blocks of `T` are opened. -/
structure Sharing (T P : Finset Nat) (X : Set Nat) (s : FsState) (m₁ m₂ : Machine Bytes Globals) :
    Prop where
  realizes : Realizes m₁ (bare s)
  headed : Headed m₁
  alike : Alike X (X ∪ P) m₁ m₂
  data : ∀ y ∈ P, 517 ≤ y
  held : ∀ y ∈ P, ∃ b : Block, b.blockid = y ∧ Fresh T m₁ b

namespace Sharing

theorem of_paired (h : Paired s m₁ m₂) : Sharing T ∅ (unused s) s m₁ m₂ := by
  refine ⟨realizes_bare h.realizes, h.headed, ?_, fun y hy => absurd hy (Finset.notMem_empty y),
    fun y hy => absurd hy (Finset.notMem_empty y)⟩
  simpa using h.alike

theorem heldSlots (h : Sharing T P X s m₁ m₂) : Held T X (X ∪ P) m₁ := fun y hy hX =>
  h.held y (hy.resolve_left hX)

theorem evolves (h : Sharing T P X s m₁ m₂) {W : Set Nat} (hev : Evolves T T' W m₁ m₁')
    (hr : Realizes m₁' (bare s')) (hh : Headed m₁') (ha : Alike X' (X' ∪ P) m₁' m₂') :
    Sharing T' P X' s' m₁' m₂' := by
  refine ⟨hr, hh, ha, h.data, fun y hy => ?_⟩
  obtain ⟨b, hid, hfresh⟩ := h.held y hy
  exact ⟨b, hid, hev.fresh b hfresh⟩

end Sharing

theorem open_shared (h : Sharing T P X s m₁ m₂) {x : Nat} (hT : (insert x T).card ≤ cacheSize) :
    Together (openBlock x) m₁ m₂ fun b m₁' m₂' =>
      b.blockid = x ∧ Fresh (insert x T) m₁' b ∧ Evolves T (insert x T) ∅ m₁ m₁' ∧
        Sharing (insert x T) P X s m₁' m₂' := by
  have hgrow : Evolves T (insert x T) ∅ m₁ m₁ :=
    Evolves.refl h.realizes.ready.sound (Finset.subset_insert _ _)
  have hheld : Held (insert x T) X (X ∪ P) m₁ := h.heldSlots.keep hgrow.fresh
  refine (together_openHeld h.alike hheld hT (Finset.mem_insert_self x T)).mono ?_
  rintro b m₁' m₂' ⟨hid, hfresh, hev, hg, ha⟩
  exact ⟨hid, hfresh, hgrow.trans hev, h.evolves (hgrow.trans hev) (h.realizes.idle hev hg)
    (h.headed.idle h.realizes hev hg) ha⟩

theorem store_alike (h : Sharing T P X s m₁ m₂) (hfresh : Fresh T m₁ block)
    (hblock : 517 ≤ block.blockid ∧ block.blockid < maxBlockNum) (d : Bytes) :
    Together (block.store d) m₁ m₂ fun _ m₁' m₂' =>
      visible m₁' block.blockid = d ∧ Evolves T T {block.blockid} m₁ m₁' ∧
        Realizes m₁' (bare s) ∧ Headed m₁' ∧ Alike (X \ {block.blockid}) (X ∪ P) m₁' m₂' := by
  refine ((together_store h.alike hfresh hblock.2 d).and
    (runs_store h.realizes.ready.sound hfresh d (E := fun _ _ => True))).mono ?_
  rintro _ m₁' m₂' ⟨⟨hev, hv, hg⟩, -, ha⟩
  have hwrite := h.realizes.write (d := none) hblock.1 hev hg (by rintro d' ⟨⟩)
  have hsame : (bare s).setData block.blockid none = bare s := by
    simp only [FsState.setData, bare, Function.update_eq_self]
  exact ⟨hv, hev, hsame ▸ hwrite, h.headed.written h.realizes hblock.1 hev hg, ha⟩

theorem store_shared (h : Sharing T P X s m₁ m₂) (hfresh : Fresh T m₁ block)
    (hblock : 517 ≤ block.blockid ∧ block.blockid < maxBlockNum)
    (hX : block.blockid ∉ X) (d : Bytes) :
    Together (block.store d) m₁ m₂ fun _ m₁' m₂' =>
      Evolves T T {block.blockid} m₁ m₁' ∧ Sharing T P X s m₁' m₂' := by
  refine (store_alike h hfresh hblock d).mono ?_
  rintro _ m₁' m₂' ⟨-, hev, hr, hh, ha⟩
  rw [Set.sdiff_singleton_eq_self hX] at ha
  exact ⟨hev, h.evolves hev hr hh ha⟩

theorem fill_shared (h : Sharing T P X s m₁ m₂) (hfresh : Fresh T m₁ block)
    (hblock : 517 ≤ block.blockid ∧ block.blockid < maxBlockNum) (d : Bytes) :
    Together (block.store d) m₁ m₂ fun _ m₁' m₂' =>
      visible m₁' block.blockid = d ∧ Evolves T T {block.blockid} m₁ m₁' ∧
        Sharing T (insert block.blockid P) (X \ {block.blockid}) s m₁' m₂' := by
  refine (store_alike h hfresh hblock d).mono ?_
  rintro _ m₁' m₂' ⟨hv, hev, hr, hh, ha⟩
  refine ⟨hv, hev, hr, hh, ha.mono (Set.Subset.refl _) ?_, fun y hy => ?_, fun y hy => ?_⟩
  · rintro y (hy | hy)
    · rcases eq_or_ne y block.blockid with rfl | hne
      · exact Or.inr (Finset.mem_coe.mpr (Finset.mem_insert_self _ _))
      · exact Or.inl ⟨hy, hne⟩
    · exact Or.inr (Finset.mem_coe.mpr (Finset.mem_insert_of_mem (Finset.mem_coe.mp hy)))
  · rcases Finset.mem_insert.mp hy with rfl | hmem
    · exact hblock.1
    · exact h.data y hmem
  · rcases Finset.mem_insert.mp hy with rfl | hmem
    · exact ⟨block, rfl, hev.fresh _ hfresh⟩
    · obtain ⟨b, hid, hb⟩ := h.held y hmem
      exact ⟨b, hid, hev.fresh b hb⟩

theorem update_shared (h : Sharing T P X s m₁ m₂) (hfresh : Fresh T m₁ block)
    (hblock : 517 ≤ block.blockid ∧ block.blockid < maxBlockNum)
    (hX : block.blockid ∉ X) :
    Together block.update m₁ m₂ fun _ m₁' m₂' =>
      Evolves T T {block.blockid} m₁ m₁' ∧ Sharing T (P.erase block.blockid) X s m₁' m₂' := by
  refine ((together_update h.alike hfresh hblock.2 hX).and
    (runs_update h.realizes.ready.sound hfresh hblock.2 (E := fun _ _ => True))).mono ?_
  rintro _ m₁' m₂' ⟨⟨hev, -, -, hg⟩, -, ha⟩
  have hwrite := h.realizes.write (d := none) hblock.1 hev hg (by rintro d' ⟨⟩)
  have hsame : (bare s).setData block.blockid none = bare s := by
    simp only [FsState.setData, bare, Function.update_eq_self]
  refine ⟨hev, hsame ▸ hwrite, h.headed.written h.realizes hblock.1 hev hg,
    ha.mono (Set.Subset.refl _) ?_,
    fun y hy => h.data y (Finset.mem_of_mem_erase hy), fun y hy => ?_⟩
  · rintro y ⟨hy | hy, hne⟩
    · exact Or.inl hy
    · exact Or.inr (Finset.mem_coe.mpr (Finset.mem_erase.mpr ⟨hne, Finset.mem_coe.mp hy⟩))
  · obtain ⟨b, hid, hb⟩ := h.held y (Finset.mem_of_mem_erase hy)
    exact ⟨b, hid, hev.fresh b hb⟩

theorem blockAlloc_shared (h : Sharing T P (unused s) s m₁ m₂) (htables : TablesUsed s)
    (hT : T.card ≤ cacheSize) (hmap : blockMapArea ⊆ T) :
    Together blockAlloc m₁ m₂ fun b m₁' m₂' => IsData b ∧ b.toNat ∈ unused s ∧
      Evolves T T (Set.Iio 517) m₁ m₁' ∧
        Sharing T P (unused s) (s.setBlockUsed b.toNat true) m₁' m₂' := by
  have hU : Tabled (unused s ∪ P) := by
    rintro y (hy | hy)
    · exact hy.1
    · exact h.data y hy
  refine (((together_blockAlloc h.alike h.heldSlots (tabled_unused s) hU hT hmap
    h.realizes.ready.layout).and (blockAlloc_realizes h.realizes hT hmap)).and
    (blockAlloc_headed h.realizes.ready.sound h.headed)).mono ?_
  rintro b m₁' m₂' ⟨hh, ⟨hlt, hfree, hr, hev⟩, ha⟩
  have hle : 517 ≤ b.toNat := by
    by_contra hsmall
    rw [bare_blockUsed, htables _ (not_le.mp hsmall)] at hfree
    cases hfree
  have hev : Evolves T T (Set.Iio 517) m₁ m₁' := by
    refine hev.mono ?_
    rw [maxBlockNum_eq] at hlt
    rintro x (rfl | rfl)
    · exact Set.mem_Iio.mpr (by omega)
    · exact Set.mem_Iio.mpr (by omega)
  exact ⟨⟨hle, hlt⟩, ⟨hle, hlt, hfree⟩, hev, h.evolves hev hr hh ha⟩

/-- A block object that is safe to use, on a block outside `Z`. -/
structure Usable (T : Finset Nat) (Z : Set Nat) (m : Machine Bytes Globals) (b : Block) : Prop where
  fresh : Fresh T m b
  data : 517 ≤ b.blockid ∧ b.blockid < maxBlockNum
  notMem : b.blockid ∉ Z

theorem Usable.evolves {W : Set Nat} (h : Usable T Z m block) (hev : Evolves T T' W m m')
    (hZ : X ⊆ Z) : Usable T' X m' block :=
  ⟨hev.fresh _ h.fresh, h.data, fun hmem => h.notMem (hZ hmem)⟩

/-- The blocks of `Y` are in use and no tables. -/
def InUse (s : FsState) (Y : Set Nat) : Prop := ∀ y ∈ Y, 517 ≤ y ∧ y ∉ unused s

/-- What the beginning of `inode_modify_data_recur` leads to when it leaves the
blocks of `Y` alone. -/
structure Begun (T P : Finset Nat) (Y : Set Nat) (s : FsState) (p b : UInt32) (block : Block)
    (m₁ m₁' m₂' : Machine Bytes Globals) (s' : FsState) (P' : Finset Nat) : Prop where
  sharing : Sharing (insert b.toNat T) P' (unused s') s' m₁' m₂'
  tables : TablesUsed s'
  evolves : Evolves T (insert b.toNat T) Yᶜ m₁ m₁'
  subset : unused s' ⊆ unused s
  blockid : block.blockid = b.toNat
  usable : Usable (insert b.toNat T) (unused s' ∪ Y) m₁' block
  erase_subset : P'.erase b.toNat ⊆ P
  old : p ≠ 0 → b = p ∧ P' = P ∧ s' = s ∧ Evolves T (insert b.toNat T) ∅ m₁ m₁'
  zeros : p = 0 → visible m₁' b.toNat = zeros

theorem assignPointer_shared {reference : Option (Block × Nat)} {s₀ : FsState}
    (h : Sharing T P (unused s) s₀ m₁ m₂)
    (href : ∀ parent e, reference = some (parent, e) → Usable T (unused s ∪ Y) m₁ parent) :
    Together (assignPointer reference p) m₁ m₂ fun _ m₁' m₂' =>
      Evolves T T Yᶜ m₁ m₁' ∧ Sharing T P (unused s) s₀ m₁' m₂' := by
  cases reference with
  | none => exact together_pure ⟨Evolves.refl h.realizes.ready.sound (Finset.Subset.refl _), h⟩
  | some entry =>
      obtain ⟨parent, e⟩ := entry
      obtain ⟨hfresh, hblock, hnot⟩ := href parent e rfl
      have hunused : parent.blockid ∉ unused s := fun hmem => hnot (Or.inl hmem)
      refine (together_load h.alike hfresh hblock.2 hunused).bind ?_
      rintro index m₁ m₂ ⟨rfl, rfl, rfl⟩
      refine (store_shared h hfresh hblock hunused _).mono ?_
      rintro _ m₁' m₂' ⟨hev, h'⟩
      refine ⟨hev.mono ?_, h'⟩
      rintro y rfl
      exact fun hmem => hnot (Or.inr hmem)

theorem openPointer_shared {reference : Option (Block × Nat)}
    (h : Sharing T P (unused s) s m₁ m₂) (htables : TablesUsed s) (hY : InUse s Y)
    (hT : T.card < cacheSize) (hmap : blockMapArea ⊆ T)
    (href : ∀ parent e, reference = some (parent, e) → Usable T (unused s ∪ Y) m₁ parent)
    (hp : p ≠ 0 → IsData p ∧ p.toNat ∉ unused s ∪ Y) :
    Together (openPointer reference p) m₁ m₂ fun r m₁' m₂' => r.2.1 = decide (p = 0) ∧
      ∃ s' P', Begun T P Y s p r.1 r.2.2 m₁ m₁' m₂' s' P' := by
  have hcard : ∀ x, (insert x T).card ≤ cacheSize := fun x =>
    (Finset.card_insert_le x T).trans hT
  unfold openPointer
  split
  next hzero =>
    refine (blockAlloc_shared h htables hT.le hmap).bind ?_
    rintro b m₁ m₂ ⟨hb, hfree, hev₁, h₁⟩
    have hbY : b.toNat ∉ Y := fun hmem => (hY _ hmem).2 hfree
    have hsmall : Set.Iio 517 ⊆ Yᶜ := fun y hy hmem =>
      absurd (hY y hmem).1 (not_le.mpr (Set.mem_Iio.mp hy))
    refine (assignPointer_shared h₁ fun parent e heq =>
      (href parent e heq).evolves hev₁ (Set.Subset.refl _)).bind ?_
    rintro _ m₁ m₂ ⟨hev₂, h₂⟩
    refine (open_shared h₂ (hcard b.toNat)).bind ?_
    rintro block m₁ m₂ ⟨hid, hfresh, hev₃, h₃⟩
    have hblock : 517 ≤ block.blockid ∧ block.blockid < maxBlockNum := hid ▸ hb
    refine (fill_shared h₃ hfresh hblock zeros).bind ?_
    rintro _ m₁ m₂ ⟨hv, hev₄, h₄⟩
    rw [hid, ← unused_setBlockUsed] at h₄
    rw [hid] at hv hev₄
    have hself : (s.setBlockUsed b.toNat true).blockUsed b.toNat = true :=
      Function.update_self ..
    have hwrites : ({b.toNat} : Set Nat) ⊆ Yᶜ := by
      rintro y rfl
      exact hbY
    refine together_pure ⟨(decide_eq_true hzero).symm, _, _, h₄, fun x hx => ?_, ?_, ?_, hid,
      ⟨hev₄.fresh _ hfresh, hblock, ?_⟩, Finset.erase_insert_subset _ _,
      fun hne => absurd hzero hne, fun _ => hv⟩
    · rw [FsState.setBlockUsed_blockUsed, Function.update_apply, htables x hx, ite_self]
    · exact (hev₁.mono hsmall).trans (hev₂.trans ((hev₃.mono (Set.empty_subset _)).trans
        (hev₄.mono hwrites)))
    · rw [unused_setBlockUsed]
      exact Set.sdiff_subset
    · rw [hid]
      rintro (hmem | hmem)
      · exact notMem_unused hself hmem
      · exact hbY hmem
  next hne =>
    obtain ⟨hdata, hnot⟩ := hp hne
    refine (open_shared h (hcard p.toNat)).bind ?_
    rintro block m₁ m₂ ⟨hid, hfresh, hev, h₁⟩
    exact together_pure ⟨(decide_eq_false hne).symm, s, P, h₁, htables,
      hev.mono (Set.empty_subset _), Set.Subset.refl _, hid,
      ⟨hfresh, hid ▸ hdata, hid ▸ hnot⟩, Finset.erase_subset _ _, fun _ => ⟨rfl, rfl, rfl, hev⟩,
      fun hzero => absurd hzero hne⟩

/-- The blocks behind a pointer are outside `Z`, and the index blocks among
them are settled. -/
def Behind (Z : Set Nat) (m : Machine Bytes Globals) : Nat → UInt32 → Prop
  | 0, p => p ≠ 0 → IsData p ∧ p.toNat ∉ Z
  | depth + 1, p => p ≠ 0 → (IsData p ∧ p.toNat ∉ Z) ∧ Settled m p.toNat ∧
      ∀ e < pointersPerBlock, Behind Z m depth (get32 (visible m p.toNat) (4 * e))

theorem behind_zero (Z : Set Nat) (m : Machine Bytes Globals) (depth : Nat) :
    Behind Z m depth 0 := by
  cases depth with
  | zero => exact fun hne => absurd rfl hne
  | succ depth => exact fun hne => absurd rfl hne

theorem Behind.outside {depth : Nat} (h : Behind Z m depth p) (hne : p ≠ 0) :
    IsData p ∧ p.toNat ∉ Z := by
  cases depth with
  | zero => exact h hne
  | succ depth => exact (h hne).1

theorem Behind.evolves {depth : Nat} (h : Behind Z m depth p) (hev : Evolves T T' ∅ m m') :
    Behind Z m' depth p := by
  induction depth generalizing p with
  | zero => exact h
  | succ depth ih =>
      intro hne
      obtain ⟨hout, hs, hentries⟩ := h hne
      have hlt := hout.1.2
      refine ⟨hout, hev.settled_of_settled hlt (Set.notMem_empty _) hs, fun e he => ?_⟩
      rw [hev.visible_of_settled hlt (Set.notMem_empty _) hs]
      exact ih (hentries e he)

/-- What a write leads to. -/
structure Shared (T P : Finset Nat) (Y : Set Nat) (s : FsState) (m₁ m₁' m₂' : Machine Bytes Globals)
    (s' : FsState) (T' P' : Finset Nat) : Prop where
  sharing : Sharing T' P' (unused s') s' m₁' m₂'
  tables : TablesUsed s'
  evolves : Evolves T T' Yᶜ m₁ m₁'
  subset : unused s' ⊆ unused s
  pending : P' ⊆ P

theorem writeLeaf_shared {reference : Option (Block × Nat)} {data : Data} {offset length : Nat}
    (h : Sharing T P (unused s) s m₁ m₂) (htables : TablesUsed s) (hY : InUse s Y)
    (hT : T.card < cacheSize) (hmap : blockMapArea ⊆ T)
    (href : ∀ parent e, reference = some (parent, e) → Usable T (unused s ∪ Y) m₁ parent)
    (hdata : ∀ c, data = .block c → Usable T (unused s ∪ Y) m₁ c)
    (hp : p ≠ 0 → IsData p ∧ p.toNat ∉ unused s ∪ Y) :
    Together (inodeModifyDataRecur true 0 reference p data offset length) m₁ m₂ fun r m₁' m₂' =>
      r.2.2 = decide (p = 0) ∧ ∃ s' T' P', Shared T P Y s m₁ m₁' m₂' s' T' P' := by
  refine (openPointer_shared h htables hY hT hmap href hp).bind ?_
  rintro ⟨b, new, block⟩ n₁ n₂ ⟨hnew, s₁, P₁, hbegun⟩
  have hbegun : Begun T P Y s p b block m₁ n₁ n₂ s₁ P₁ := hbegun
  have hid : block.blockid = b.toNat := hbegun.blockid
  obtain ⟨hfresh, hblock, hnot⟩ := hbegun.usable
  have hunused : block.blockid ∉ unused s₁ := fun hmem => hnot (Or.inl hmem)
  have hload : Together data.load n₁ n₂ fun _ n₁' n₂' => n₁' = n₁ ∧ n₂' = n₂ := by
    cases data with
    | buffer bytes => exact together_pure ⟨rfl, rfl⟩
    | block c =>
        have hc := (hdata c rfl).evolves hbegun.evolves
          (Set.union_subset_union_left Y hbegun.subset)
        exact (together_load hbegun.sharing.alike hc.fresh hc.data.2
          fun hmem => hc.notMem (Or.inl hmem)).mono fun _ _ _ hq => hq.2
  have htransfer : Together (transfer true block data offset length) n₁ n₂ fun _ n₁' n₂' =>
      Evolves (insert b.toNat T) (insert b.toNat T) {b.toNat} n₁ n₁' ∧
        Sharing (insert b.toNat T) (P₁.erase b.toNat) (unused s₁) s₁ n₁' n₂' := by
    refine hload.bind ?_
    rintro src n₁ n₂ ⟨rfl, rfl⟩
    refine (together_load hbegun.sharing.alike hfresh hblock.2 hunused).bind ?_
    rintro bytes n₁ n₂ ⟨rfl, rfl, rfl⟩
    refine (store_shared hbegun.sharing hfresh hblock hunused _).bind ?_
    rintro _ n₁' n₂' ⟨hev, h'⟩
    refine (update_shared h' (hev.fresh _ hfresh) hblock hunused).bind ?_
    rintro _ n₁'' n₂'' ⟨hev', h''⟩
    rw [hid] at hev hev' h''
    exact together_pure ⟨hev.trans hev', h''⟩
  refine htransfer.bind ?_
  rintro _ n₁' n₂' ⟨hev, h'⟩
  refine together_pure ⟨hnew, s₁, _, _, h', hbegun.tables, hbegun.evolves.trans (hev.mono ?_),
    hbegun.subset, hbegun.erase_subset⟩
  rintro y rfl
  exact fun hmem => hnot (Or.inr (hid ▸ hmem))

theorem writeRecur_shared {depth : Nat} {reference : Option (Block × Nat)} {data : Data}
    {offset length : Nat} (h : Sharing T P (unused s) s m₁ m₂) (htables : TablesUsed s)
    (hY : InUse s Y) (hoffset : OffsetFits depth offset) (hT : T.card + depth < cacheSize)
    (hmap : blockMapArea ⊆ T)
    (href : ∀ parent e, reference = some (parent, e) → Usable T (unused s ∪ Y) m₁ parent)
    (hdata : ∀ c, data = .block c → Usable T (unused s ∪ Y) m₁ c)
    (hp : Behind (unused s ∪ Y) m₁ depth p) :
    Together (inodeModifyDataRecur true depth reference p data offset length) m₁ m₂
      fun r m₁' m₂' =>
        r.2.2 = decide (p = 0) ∧ ∃ s' T' P', Shared T P Y s m₁ m₁' m₂' s' T' P' := by
  induction depth generalizing m₁ m₂ s T P reference p data offset with
  | zero => exact writeLeaf_shared h htables hY hT hmap href hdata hp.outside
  | succ depth ih =>
      refine (openPointer_shared h htables hY (by omega) hmap href hp.outside).bind ?_
      rintro ⟨b, new, block⟩ n₁ n₂ ⟨hnew, s₁, P₁, hbegun⟩
      have hbegun : Begun T P Y s p b block m₁ n₁ n₂ s₁ P₁ := hbegun
      refine (together_assert (Q := fun _ n₁' n₂' => depth < 3 ∧ n₁' = n₁ ∧ n₂' = n₂)
        fun htrue => ⟨by simpa using htrue, rfl, rfl⟩).bind ?_
      rintro _ n₁ n₂ ⟨hsmall, rfl, rfl⟩
      obtain ⟨he, hoffset'⟩ := hoffset.step hsmall
      have hid : block.blockid = b.toNat := hbegun.blockid
      obtain ⟨hfresh, hblock, hnot⟩ := hbegun.usable
      have hunused : block.blockid ∉ unused s₁ := fun hmem => hnot (Or.inl hmem)
      refine (together_load hbegun.sharing.alike hfresh hblock.2 hunused).bind ?_
      rintro index n₁ n₂ ⟨rfl, rfl, rfl⟩
      rw [hid]
      set entry := get32 (visible n₁ b.toNat) (4 * (offset / entrySize (depth + 1))) with hentry
      -- A new index block has no entries yet.
      have hnone : p = 0 → entry = 0 := by
        intro hzero
        rw [hentry, hbegun.zeros hzero, get32_zeros]
      have hbelow : Behind (unused s₁ ∪ Y) n₁ depth entry := by
        rcases eq_or_ne p 0 with hzero | hne
        · rw [hnone hzero]
          exact behind_zero _ _ _
        · obtain ⟨rfl, -, rfl, hev⟩ := hbegun.old hne
          exact ((hp.evolves hev) hne).2.2 _ he
      have hcard := Finset.card_insert_le b.toNat T
      have hparent : ∀ parent e, some (block, offset / entrySize (depth + 1)) = some (parent, e) →
          Usable (insert b.toNat T) (unused s₁ ∪ Y) n₁ parent := by
        rintro _ _ ⟨⟩
        exact hbegun.usable
      have hsource : ∀ c, Data.block block = .block c →
          Usable (insert b.toNat T) (unused s₁ ∪ Y) n₁ c := by
        rintro _ ⟨⟩
        exact hbegun.usable
      refine (ih hbegun.sharing hbegun.tables (fun y hy => ?_) hoffset' (by omega)
        (hmap.trans (Finset.subset_insert _ _)) hparent hsource hbelow).bind ?_
      · exact ⟨(hY y hy).1, fun hmem => (hY y hy).2 (hbegun.subset hmem)⟩
      rintro ⟨_, _, modified⟩ n₁' n₂' ⟨hmodified, s₂, T₂, P₂, hshared⟩
      have hshared : Shared (insert b.toNat T) P₁ Y s₁ n₁ n₁' n₂' s₂ T₂ P₂ := hshared
      have hev := hbegun.evolves.trans hshared.evolves
      have hsub := hshared.subset.trans hbegun.subset
      simp only at hmodified
      subst hmodified
      rcases eq_or_ne entry 0 with hzero | hold
      · have hfresh₂ := hshared.evolves.fresh _ hfresh
        have hunused₂ : block.blockid ∉ unused s₂ := fun hmem => hunused (hshared.subset hmem)
        rw [hzero, decide_eq_true rfl]
        refine (update_shared hshared.sharing hfresh₂ hblock hunused₂).bind ?_
        rintro _ n₁'' n₂'' ⟨hev', h'⟩
        rw [hid] at h' hev'
        refine together_pure ⟨hnew, s₂, _, _, h', hshared.tables, hev.trans (hev'.mono ?_), hsub,
          (Finset.erase_subset_erase _ hshared.pending).trans hbegun.erase_subset⟩
        rintro y rfl
        exact fun hmem => hnot (Or.inr (hid ▸ hmem))
      · rw [decide_eq_false hold]
        have hne : p ≠ 0 := fun hzero => hold (hnone hzero)
        obtain ⟨-, rfl, -, -⟩ := hbegun.old hne
        exact together_pure ⟨hnew, s₂, _, _, hshared.sharing, hshared.tables, hev, hsub,
          hshared.pending⟩

theorem behind_of_owned {a : Place} {depth : Nat} {n₀ : Inode} (h : Realizes m (s.setInode k n₀))
    (howned : Owned s) (hk : Live s k) (ha : a.Fits) (hdepth : a.path.length + depth = a.root.depth)
    (hZ : ∀ a' : Place, a'.Fits → a'.root = a.root → blockAt s (s.inode k) a' ≠ 0 →
      (blockAt s (s.inode k) a').toNat ∉ Z) :
    Behind Z m depth (blockAt s (s.inode k) a) := by
  induction depth generalizing a with
  | zero => exact fun hne => ⟨(howned.isData k hk a ha hne).1, hZ a ha rfl hne⟩
  | succ depth ih =>
      intro hne
      have hinner : a.Inner := by
        unfold Place.Inner
        omega
      have hdata := (howned.isData k hk a ha hne).1
      obtain ⟨d, hd⟩ := howned.settled k hk a ha hinner hne
      obtain ⟨hv, hs⟩ := h.data _ hdata.1 hdata.2 d hd
      refine ⟨⟨hdata, hZ a ha rfl hne⟩, hs, fun e he => ?_⟩
      rw [hv, ← entryAt_of_data hne hd, ← blockAt_snoc]
      refine ih (ha.snoc hinner he) ?_ hZ
      simp only [Place.snoc, List.length_append, List.length_singleton]
      omega

/-- The blocks behind the direct pointers of an inode. -/
def directBlocks (n : Inode) : Set Nat := {x | ∃ i, direct n i ≠ 0 ∧ x = (direct n i).toNat}

theorem directBlocks_inUse (h : Owned s) (hk : Live s k) :
    InUse s (directBlocks (s.inode k)) := by
  rintro _ ⟨i, hne, rfl⟩
  obtain ⟨r, hr, -⟩ := direct_eq_blockAt hne
  rw [hr] at hne ⊢
  obtain ⟨hdata, hused⟩ := h.isData k hk _ (fits_root r) hne
  exact ⟨hdata.1, notMem_unused hused⟩

theorem depth_of_mem_directBlocks {a : Place} {k' : Nat} (h : Owned s) (hk : Live s k)
    (hk' : Live s k') (ha : a.Fits) (hne : blockAt s (s.inode k') a ≠ 0)
    (hmem : (blockAt s (s.inode k') a).toNat ∈ directBlocks (s.inode k)) :
    k' = k ∧ a.root.depth = 0 := by
  obtain ⟨i, hi, heq⟩ := hmem
  obtain ⟨r, hr, hdepth⟩ := direct_eq_blockAt hi
  rw [hr] at heq
  obtain ⟨hkk, rfl⟩ := h.unique k' k hk' hk a ⟨r, []⟩ ha (fits_root r) hne (UInt32.toNat_inj.mp heq)
  exact ⟨hkk, hdepth⟩

/-- The tables `s'` with what `s` has in the blocks of `Y`. -/
noncomputable def restored (s s' : FsState) (Y : Set Nat) : FsState :=
  open Classical in { s' with data := fun x => if x ∈ Y then s.data x else s'.data x }

theorem restored_data_of_mem {x : Nat} (h : x ∈ Y) : (restored s s' Y).data x = s.data x :=
  if_pos h

theorem restored_data_of_notMem {x : Nat} (h : x ∉ Y) : (restored s s' Y).data x = s'.data x :=
  if_neg h

section Restored

variable {a : Place} {k' : Nat}

theorem restored_data_inner (h : Owned s') (hk : Live s' k) (hY : Y ⊆ directBlocks (s'.inode k))
    (hk' : Live s' k') (ha : a.Fits) (hinner : a.Inner) (hne : blockAt s' (s'.inode k') a ≠ 0) :
    (restored s s' Y).data (blockAt s' (s'.inode k') a).toNat =
      s'.data (blockAt s' (s'.inode k') a).toNat := by
  refine restored_data_of_notMem fun hmem => ?_
  have hdepth := (depth_of_mem_directBlocks h hk hk' ha hne (hY hmem)).2
  unfold Place.Inner at hinner
  omega

theorem blockAt_restored (h : Owned s') (hk : Live s' k) (hY : Y ⊆ directBlocks (s'.inode k))
    (hk' : Live s' k') (ha : a.Fits) :
    blockAt (restored s s' Y) (s'.inode k') a = blockAt s' (s'.inode k') a :=
  blockAt_congr (fun _ => rfl)
    (fun _ ha hinner hne => restored_data_inner h hk hY hk' ha hinner hne) ha

theorem owned_restored (h : Owned s') (hk : Live s' k) (hY : Y ⊆ directBlocks (s'.inode k)) :
    Owned (restored s s' Y) := by
  refine h.of_blockAt_eq h.tables (fun _ hk' => hk') (fun k' hk' a ha =>
    blockAt_restored h hk hY hk' ha) (fun k' hk' a ha hne => (h.isData k' hk' a ha hne).2) ?_
  intro k' hk' a ha hinner hne
  rw [restored_data_inner h hk hY hk' ha hinner hne]
  exact h.settled k' hk' a ha hinner hne

theorem grows_restored (h : Grows k s s') (howned : Owned s) (howned' : Owned s') (hk : Live s k)
    (hY : directBlocks (s.inode k) ⊆ directBlocks (s'.inode k)) :
    Grows k s (restored s s' (directBlocks (s.inode k))) := by
  have hblock : ∀ k', Live s' k' → ∀ a : Place, a.Fits →
      blockAt (restored s s' (directBlocks (s.inode k))) (s'.inode k') a =
        blockAt s' (s'.inode k') a :=
    fun k' hk' a ha => blockAt_restored howned' (h.live hk) hY hk' ha
  refine ⟨h.inodeUsed, h.cwd, h.files, h.inode, h.type, h.linkCnt, fun k' hk' a ha hne => ?_,
    fun k' hkk hk' a ha hne => ?_, fun hk => (h.takes hk).trans
      (takes_of_same rfl rfl rfl (hblock k (h.live hk)))⟩
  · exact (hblock k' (h.live hk') a ha).trans (h.block k' hk' a ha hne)
  · refine (restored_data_of_notMem fun hmem => hkk ?_).trans (h.data k' hkk hk' a ha hne)
    exact (depth_of_mem_directBlocks howned hk hk' ha hne hmem).1

theorem realizes_restored {n₀ : Inode} (h : Realizes m' (s'.setInode k n₀))
    (hY : ∀ y ∈ Y, ∀ d, s.data y = some d → visible m' y = d ∧ Settled m' y) :
    Realizes m' ((restored s s' Y).setInode k n₀) := by
  refine ⟨h.ready, h.settled, h.blockUsed, h.inodeUsed, h.inode, fun x hx hlt d hd => ?_, h.cwd,
    h.files, h.counted.blocks, h.counted.inodes⟩
  have hd : (restored s s' Y).data x = some d := hd
  rcases em (x ∈ Y) with hmem | hmem
  · rw [restored_data_of_mem hmem] at hd
    exact hY x hmem d hd
  · rw [restored_data_of_notMem hmem] at hd
    exact h.data x hx hlt d hd

end Restored

section Index

variable {n₀ : Inode} {buffer : Bytes} {offset length : UInt32}

theorem transfer_index_shared (h : Transferring k n₀ s m₁ m₂) (hge : l0Bound ≤ offset.toNat) :
    Together (inodeModifyData true (s.inode k) buffer offset length) m₁ m₂ fun r m₁' m₂' =>
      (∀ i, direct r.1 i = direct (s.inode k) i) ∧ ∃ s₁ T', Realizes m₁' s₁ ∧ Headed m₁' ∧
        Alike (unused s₁) (unused s₁) m₁' m₂' ∧
        Evolves blockMapArea T' (directBlocks (s.inode k))ᶜ m₁ m₁' := by
  have htables : TablesUsed (s.setInode k n₀) := h.owned.tables
  obtain ⟨depth, hdepth⟩ := depth_rootOf_pos hge
  have hsmall : (rootOf offset.toNat).depth ≤ 2 := by
    have hne := rootOf_ne_l3 offset
    generalize rootOf offset.toNat = r at hne ⊢
    cases r with
    | l3 => exact absurd rfl hne
    | _ => simp [Root.depth]
  set r := rootOf offset.toNat with hr
  have hbehind : Behind (unused (s.setInode k n₀) ∪ directBlocks (s.inode k)) m₁ r.depth
      (pointer (s.inode k) r) := by
    refine behind_of_owned (a := ⟨r, []⟩) h.paired.realizes h.owned h.live (fits_root r)
      (Nat.zero_add _) fun a ha hroot hne => ?_
    rintro (hmem | hmem)
    · exact notMem_unused (h.owned.isData k h.live a ha hne).2 hmem
    · have hzero := (depth_of_mem_directBlocks h.owned h.live h.live ha hne hmem).2
      rw [hroot] at hzero
      exact Nat.succ_ne_zero depth (hdepth.symm.trans hzero)
  rw [inodeModifyData_eq, ← hr]
  refine (together_assert (Q := fun _ m₁' m₂' => m₁' = m₁ ∧ m₂' = m₂)
    fun _ => ⟨rfl, rfl⟩).bind ?_
  rintro _ m₁ m₂ ⟨rfl, rfl⟩
  refine (writeRecur_shared (T := blockMapArea) (Sharing.of_paired h.paired) htables
    (directBlocks_inUse (s := s) h.owned h.live) (offsetFits_below offset) ?_
    (Finset.Subset.refl _) ?_ ?_ hbehind).bind ?_
  · have hcard : blockMapArea.card = 4 := by decide
    rw [hcard, cacheSize, ← hr]
    omega
  · rintro _ _ ⟨⟩
  · rintro _ ⟨⟩
  · rintro ⟨b, data, modified⟩ m₁' m₂' ⟨-, s₁, T', P', hshared⟩
    have hshared : Shared blockMapArea ∅ (directBlocks (s.inode k)) (s.setInode k n₀) m₁ m₁' m₂' s₁
      T' P' := hshared
    refine together_pure ⟨fun i => ?_, bare s₁, T', hshared.sharing.realizes,
      hshared.sharing.headed, hshared.sharing.alike.mono (Set.Subset.refl _) ?_, hshared.evolves⟩
    · have hpointer : ∀ i (hi : i < 8),
          pointer (setPointer (grown (s.inode k) (offset + length)) r b) (.direct ⟨i, hi⟩)
            = pointer (s.inode k) (.direct ⟨i, hi⟩) := by
        intro i hi
        rw [pointer_setPointer, if_neg, pointer_grown]
        rintro heq
        rw [← heq] at hdepth
        cases hdepth
      rcases lt_or_ge i 8 with hi | hi
      · exact (direct_eq_pointer hi).trans ((hpointer i hi).trans (direct_eq_pointer hi).symm)
      · unfold direct
        rw [dif_neg (not_lt.mpr hi), dif_neg (not_lt.mpr hi)]
    · rintro y (hy | hy)
      · exact hy
      · exact absurd (hshared.pending (Finset.mem_coe.mp hy)) (Finset.notMem_empty y)

theorem transfer_index_paired (h : Transferring k n₀ s m₁ m₂)
    (hfit : offset.toNat % 4096 + length.toNat ≤ 4096) (hge : l0Bound ≤ offset.toNat) :
    Together (inodeModifyData true (s.inode k) buffer offset length) m₁ m₂ fun r m₁' m₂' =>
      ∃ s', Transferring k n₀ s' m₁' m₂' ∧ r.1 = s'.inode k ∧ (r.2.2 = false → r.1 = s.inode k) ∧
        Grows k s s' ∧ contentsOf s' (s'.inode k) = contentsOf s (s.inode k) := by
  refine ((transfer_index_shared h hge).and (inodeModifyData_writing
    ⟨h.paired.realizes, h.owned, h.live⟩ hfit fun hfalse => (by cases hfalse))).mono ?_
  rintro ⟨n, bytes, modified⟩ m₁' m₂'
    ⟨⟨-, -, s', hwriting, hgrows, hinode, hsame, -⟩, hdirect, s₁, T', h₁, hh, ha, hev⟩
  have hdirect : ∀ i, direct (s'.inode k) i = direct (s.inode k) i := by
    rw [hinode]
    exact hdirect
  have hY : directBlocks (s.inode k) ⊆ directBlocks (s'.inode k) := by
    rintro _ ⟨i, hne, rfl⟩
    exact ⟨i, by rw [hdirect]; exact hne, by rw [hdirect]⟩
  set s'' := restored s s' (directBlocks (s.inode k)) with hs''
  have hdata : ∀ i, direct (s.inode k) i ≠ 0 →
      s''.data (direct (s.inode k) i).toNat = s.data (direct (s.inode k) i).toNat := fun i hne =>
    restored_data_of_mem ⟨i, hne, rfl⟩
  have h'' : Realizes m₁' (s''.setInode k n₀) := by
    refine realizes_restored hwriting.realizes fun y hy d hd => ?_
    obtain ⟨i, hne, rfl⟩ := id hy
    have hp := (h.hasBlocks i hne).1
    obtain ⟨hv, hs⟩ := h.paired.realizes.data _ hp.1 hp.2 d hd
    have hnot : (direct (s.inode k) i).toNat ∉ (directBlocks (s.inode k))ᶜ := not_not.mpr hy
    rw [hev.visible_of_settled hp.2 hnot hs]
    exact ⟨hv, hev.settled_of_settled hp.2 hnot hs⟩
  refine ⟨s'', ⟨Paired.of_alike h'' hh ha (unused_eq h₁ h'').symm.subset,
    owned_restored hwriting.owned hwriting.live hY, hwriting.live, fun i hi => ?_⟩, hinode.symm,
    hsame, grows_restored hgrows h.owned hwriting.owned h.live hY, contentsOf_congr hdirect hdata⟩
  have hi : direct (s'.inode k) i ≠ 0 := hi
  have hsame : s''.inode = s'.inode := rfl
  rw [hdirect] at hi
  rw [hsame, hdirect, hdata i hi]
  exact h.hasBlocks i hi

end Index

end LabKernel.IndexPairs
