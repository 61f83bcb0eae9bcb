import LabKernel.BlockOwnership
import LabKernel.HandleSafety

/-!
Writing to a file, through the index blocks of its inode.

Below an index block a write leaves the blocks above in an unsettled state:
the new pointer of an entry is stored in the cache, and `update` is called
only after the recursive call returned.  `Pends` describes the machine in
such a situation, and each step of the code is one step of the tables.
-/

namespace LabKernel.IndexWrites

open LabKernel.BlockCache
open LabKernel.BlockObject
open LabKernel.BlockOwnership
open LabKernel.ByteMemory
open LabKernel.DirectData
open LabKernel.FsCode
open LabKernel.FsLayout
open LabKernel.FsPrimitives
open LabKernel.FsTables
open LabKernel.HandleSafety
open LabKernel.ProgramLogic

variable {m m' : Machine Bytes Globals} {s s' s'' : FsState} {T T' P P' : Finset Nat} {k : Nat}
  {n₀ n : Inode} {block : Block} {d : Bytes} {E : Failure → Machine Bytes Globals → Prop}

/-- The contents of the blocks of `P` are not known. -/
@[simps]
def hide (s : FsState) (P : Finset Nat) : FsState :=
  { s with data := fun x => if x ∈ P then none else s.data x }

/-- The machine shows the tables `s`, where the blocks of `P` are unsettled
but hold their slots as long as only blocks of `T` are opened, and inode `k`
is still `n₀` on disk. -/
structure Pends (T P : Finset Nat) (k : Nat) (n₀ : Inode) (m : Machine Bytes Globals)
    (s : FsState) : Prop where
  realizes : Realizes m ((hide s P).setInode k n₀)
  held : ∀ x ∈ P, 517 ≤ x ∧ s.data x = some (visible m x) ∧
    ∃ block : Block, block.blockid = x ∧ Fresh T m block

theorem setInode_hide (s : FsState) (P : Finset Nat) (n : Inode) :
    (hide (s.setInode k n) P).setInode k n₀ = (hide s P).setInode k n₀ := by
  simp only [FsState.setInode, hide, Function.update_idem]

/-- The inode in memory does not matter to the machine. -/
theorem Pends.setInode (h : Pends T P k n₀ m s) (n : Inode) :
    Pends T P k n₀ m (s.setInode k n) := by
  refine ⟨?_, h.held⟩
  rw [setInode_hide]
  exact h.realizes

theorem pends_of_realizes (h : Realizes m (s.setInode k n₀)) : Pends T ∅ k n₀ m s := by
  have hsame : (hide s ∅).setInode k n₀ = s.setInode k n₀ := by
    simp only [hide, Finset.notMem_empty, if_false]
  exact ⟨hsame ▸ h, fun x hx => absurd hx (Finset.notMem_empty x)⟩

theorem Pends.realizes_of_empty (h : Pends T P k n₀ m s) (hP : P ⊆ ∅) :
    Realizes m (s.setInode k n₀) := by
  obtain rfl := Finset.subset_empty.mp hP
  simpa only [hide, Finset.notMem_empty, if_false] using h.realizes

theorem Pends.ready (h : Pends T P k n₀ m s) : Ready m := h.realizes.ready

theorem Pends.held_of_evolves (h : Pends T P k n₀ m s) {W : Set Nat} (hev : Evolves T T' W m m')
    {x : Nat} (hx : x ∈ P) (hW : x ∉ W) : 517 ≤ x ∧ s.data x = some (visible m' x) ∧
      ∃ block : Block, block.blockid = x ∧ Fresh T' m' block := by
  obtain ⟨hle, hdata, block, hid, hfresh⟩ := h.held x hx
  have hsame := hev.visible_eq block hfresh (by rw [hid]; exact hW)
  rw [hid] at hsame
  exact ⟨hle, by rw [hsame, hdata], block, hid, hev.fresh block hfresh⟩

theorem Pends.idle (h : Pends T P k n₀ m s) (hev : Evolves T T' ∅ m m')
    (hg : m'.globals = m.globals) : Pends T' P k n₀ m' s :=
  ⟨h.realizes.idle hev hg, fun _ hx => h.held_of_evolves hev hx (Set.notMem_empty _)⟩

/-- The contents of a block that is in its slot. -/
theorem Pends.visible_eq (h : Pends T P k n₀ m s) (hle : 517 ≤ block.blockid)
    (hlt : block.blockid < maxBlockNum) (hd : s.data block.blockid = some d) :
    visible m block.blockid = d := by
  rcases em (block.blockid ∈ P) with hmem | hmem
  · have hdata := (h.held _ hmem).2.1
    rw [hd] at hdata
    exact (Option.some.inj hdata).symm
  · refine (h.realizes.data _ hle hlt d ?_).1
    rw [FsState.setInode_data, hide_data, if_neg hmem]
    exact hd

theorem Pends.forget (h : Pends T P k n₀ m s) (x : Nat) :
    Pends T (P.erase x) k n₀ m (s.setData x none) := by
  have hdata : ∀ y d, ((hide (s.setData x none) (P.erase x)).setInode k n₀).data y = some d →
      ((hide s P).setInode k n₀).data y = some d := by
    intro y d hd
    rw [FsState.setInode_data, hide_data] at hd ⊢
    rw [FsState.setData_data] at hd
    rcases eq_or_ne y x with rfl | hne
    · rw [if_neg (Finset.notMem_erase y P), Function.update_self] at hd
      cases hd
    · simpa only [Finset.mem_erase, and_iff_right hne, Function.update_of_ne hne] using hd
  refine ⟨⟨h.realizes.ready, h.realizes.settled, h.realizes.blockUsed, h.realizes.inodeUsed,
    h.realizes.inode, fun y hle hlt d hd => h.realizes.data y hle hlt d (hdata y d hd),
    h.realizes.cwd, h.realizes.files, h.realizes.counted.blocks, h.realizes.counted.inodes⟩,
    fun y hy => ?_⟩
  obtain ⟨hne, hmem⟩ := Finset.mem_erase.mp hy
  obtain ⟨hle, hy, hheld⟩ := h.held y hmem
  exact ⟨hle, by rw [FsState.setData_data, Function.update_of_ne hne, hy], hheld⟩

theorem load_pends (h : Pends T P k n₀ m s) (hfresh : Fresh T m block)
    (hle : 517 ≤ block.blockid) (hlt : block.blockid < maxBlockNum)
    (hd : s.data block.blockid = some d) :
    Runs block.load m E fun d' m' => d' = d ∧ m' = m := by
  refine (runs_load h.ready.sound hfresh).mono (fun _ _ he => he) ?_
  rintro d' m' ⟨rfl, rfl⟩
  exact ⟨h.visible_eq hle hlt hd, rfl⟩

theorem store_pends (h : Pends T P k n₀ m s) (hfresh : Fresh T m block)
    (hle : 517 ≤ block.blockid) (d : Bytes) :
    Runs (block.store d) m E fun _ m' =>
      Pends T (insert block.blockid P) k n₀ m' (s.setData block.blockid (some d)) ∧
        ∀ b, Fresh T m b → Fresh T m' b := by
  refine (runs_store h.ready.sound hfresh d).mono (fun _ _ he => he) ?_
  rintro _ m' ⟨hev, hv, hg⟩
  have hwrite := h.realizes.write (d := none) hle hev hg (by rintro d' ⟨⟩)
  have hsame : ((hide s P).setInode k n₀).setData block.blockid none =
      (hide (s.setData block.blockid (some d)) (insert block.blockid P)).setInode k n₀ := by
    simp only [FsState.setData, FsState.setInode, hide, FsState.mk.injEq, true_and, and_true]
    funext x
    rcases eq_or_ne x block.blockid with rfl | hne
    · rw [Function.update_self, if_pos (Finset.mem_insert_self _ _)]
    · rw [Function.update_of_ne hne, Function.update_of_ne hne]
      simp only [Finset.mem_insert, hne, false_or]
  refine ⟨⟨hsame ▸ hwrite, fun x hx => ?_⟩, fun b hb => hev.fresh b hb⟩
  rcases eq_or_ne x block.blockid with rfl | hne
  · exact ⟨hle, by rw [FsState.setData_data, Function.update_self, hv], block, rfl,
      hev.fresh _ hfresh⟩
  · rw [FsState.setData_data, Function.update_of_ne hne]
    exact h.held_of_evolves hev ((Finset.mem_insert.mp hx).resolve_left hne) hne

theorem update_pends (h : Pends T P k n₀ m s) (hfresh : Fresh T m block)
    (hle : 517 ≤ block.blockid) (hlt : block.blockid < maxBlockNum)
    (hd : s.data block.blockid = some d) :
    Runs block.update m E fun _ m' =>
      Pends T (P.erase block.blockid) k n₀ m' s ∧ ∀ b, Fresh T m b → Fresh T m' b := by
  refine (runs_update h.ready.sound hfresh hlt).mono (fun _ _ he => he) ?_
  rintro _ m' ⟨hev, hv, hs, hg⟩
  rw [h.visible_eq hle hlt hd] at hv
  have hwrite := h.realizes.write (d := some d) hle hev hg (by
    rintro d' ⟨⟩
    exact ⟨hv, hs⟩)
  have hsame : ((hide s P).setInode k n₀).setData block.blockid (some d) =
      (hide s (P.erase block.blockid)).setInode k n₀ := by
    simp only [FsState.setData, FsState.setInode, hide, FsState.mk.injEq, true_and, and_true]
    funext x
    rcases eq_or_ne x block.blockid with rfl | hne
    · rw [Function.update_self, if_neg (Finset.notMem_erase _ _), hd]
    · rw [Function.update_of_ne hne]
      simp only [Finset.mem_erase, ne_eq, hne, not_false_eq_true, true_and]
  refine ⟨⟨hsame ▸ hwrite, fun x hx => ?_⟩, fun b hb => hev.fresh b hb⟩
  obtain ⟨hne, hmem⟩ := Finset.mem_erase.mp hx
  exact h.held_of_evolves hev hmem hne

theorem openBlock_pends {x : Nat} (h : Pends T P k n₀ m s) (hT : (insert x T).card ≤ cacheSize)
    (hx : x < maxBlockNum) :
    Runs (openBlock x) m E fun block m' =>
      block.blockid = x ∧ Fresh (insert x T) m' block ∧ Pends (insert x T) P k n₀ m' s ∧
        ∀ b, Fresh T m b → Fresh (insert x T) m' b := by
  refine (runs_openBlock h.ready.sound hT (Finset.mem_insert_self x T)
    fun hle => absurd hle (not_le.mpr hx)).mono (fun _ _ he => he) ?_
  rintro block m' ⟨hid, hfresh, hev, hg⟩
  have hgrow : Evolves T (insert x T) ∅ m m := Evolves.refl h.ready.sound (Finset.subset_insert _ _)
  exact ⟨hid, hfresh, h.idle (hgrow.trans hev) hg, fun b hb => (hgrow.trans hev).fresh b hb⟩

theorem blockAlloc_pends (h : Pends T P k n₀ m s) (hT : T.card ≤ cacheSize)
    (hmap : blockMapArea ⊆ T) (htables : TablesUsed s) :
    Runs blockAlloc m Full fun b m' => IsData b ∧ s.blockUsed b.toNat = false ∧
      Pends T P k n₀ m' (s.setBlockUsed b.toNat true) ∧ ∀ c, Fresh T m c → Fresh T m' c := by
  refine (blockAlloc_realizes h.realizes hT hmap).mono (fun _ _ he => he) ?_
  rintro b m' ⟨hb, hfree, h', hev⟩
  refine ⟨⟨?_, hb⟩, hfree, ⟨h', fun x hx => ?_⟩, fun c hc => hev.fresh c hc⟩
  · by_contra hlt
    rw [FsState.setInode_blockUsed, hide_blockUsed, htables _ (not_le.mp hlt)] at hfree
    cases hfree
  · have hle := (h.held x hx).1
    rw [maxBlockNum_eq] at hb
    exact h.held_of_evolves hev hx (by simp only [Set.mem_insert_iff, Set.mem_singleton_iff]; omega)

/-- What inode `k` takes from the map of the blocks: each new block is at the end
of a way from it, and the blocks that it had are where they were. -/
structure Takes (k : Nat) (s s' : FsState) : Prop where
  blockDrift : s'.blockDrift = s.blockDrift
  inodeDrift : s'.inodeDrift = s.inodeDrift
  used : ∀ x, s.blockUsed x = true → s'.blockUsed x = true
  reached : ∀ x, s'.blockUsed x = true → s.blockUsed x = true ∨
    ∃ a : Place, a.Fits ∧ blockAt s' (s'.inode k) a ≠ 0 ∧ x = (blockAt s' (s'.inode k) a).toNat
  fresh : ∀ a : Place, a.Fits → blockAt s (s.inode k) a = 0 → blockAt s' (s'.inode k) a ≠ 0 →
    s.blockUsed (blockAt s' (s'.inode k) a).toNat = false
  kept : ∀ a : Place, a.Fits → blockAt s (s.inode k) a ≠ 0 →
    blockAt s' (s'.inode k) a = blockAt s (s.inode k) a

theorem takes_of_same (hblockDrift : s'.blockDrift = s.blockDrift)
    (hinodeDrift : s'.inodeDrift = s.inodeDrift) (hused : s'.blockUsed = s.blockUsed)
    (hblock : ∀ a : Place, a.Fits → blockAt s' (s'.inode k) a = blockAt s (s.inode k) a) :
    Takes k s s' := by
  refine ⟨hblockDrift, hinodeDrift, fun x hx => ?_, fun x hx => Or.inl ?_, fun a ha hzero hne => ?_,
    fun a ha _ => hblock a ha⟩
  · rw [hused, hx]
  · rw [← hused, hx]
  · rw [hblock a ha] at hne
    exact absurd hzero hne

theorem takes_refl (k : Nat) (s : FsState) : Takes k s s :=
  takes_of_same rfl rfl rfl fun _ _ => rfl

theorem Takes.trans (h : Takes k s s') (h' : Takes k s' s'') : Takes k s s'' where
  blockDrift := h'.blockDrift.trans h.blockDrift
  inodeDrift := h'.inodeDrift.trans h.inodeDrift
  used x hx := h'.used x (h.used x hx)
  reached x hx := by
    rcases h'.reached x hx with hx' | hreached
    · rcases h.reached x hx' with hold | ⟨a, ha, hne, heq⟩
      · exact Or.inl hold
      · have hsame := h'.kept a ha hne
        exact Or.inr ⟨a, ha, hsame ▸ hne, hsame ▸ heq⟩
    · exact Or.inr hreached
  fresh a ha hzero hne := by
    rcases eq_or_ne (blockAt s' (s'.inode k) a) 0 with hzero' | hne'
    · have hfree := h'.fresh a ha hzero' hne
      by_contra hused
      rw [h.used _ (Bool.of_not_eq_false hused)] at hfree
      cases hfree
    · rw [h'.kept a ha hne']
      exact h.fresh a ha hzero hne'
  kept a ha hne := by
    have hfirst := h.kept a ha hne
    rw [← hfirst] at hne ⊢
    exact h'.kept a ha hne

theorem takes_of_attach {a : Place} {b : UInt32} (ha : a.Fits) (hb : IsData b)
    (hzero : blockAt s (s.inode k) a = 0) (hfree : s.blockUsed b.toNat = false) (hblockDrift : s'.blockDrift = s.blockDrift)
    (hinodeDrift : s'.inodeDrift = s.inodeDrift)
    (hused : s'.blockUsed = Function.update s.blockUsed b.toNat true)
    (hblock : ∀ a' : Place, a'.Fits →
      blockAt s' (s'.inode k) a' = if a' = a then b else blockAt s (s.inode k) a') :
    Takes k s s' := by
  refine ⟨hblockDrift, hinodeDrift, fun x hx => ?_, fun x hx => ?_, fun a' ha' hzero' hne => ?_,
    fun a' ha' hne => ?_⟩
  · rw [hused, Function.update_apply, hx, ite_self]
  · rcases eq_or_ne x b.toNat with rfl | hne
    · refine Or.inr ⟨a, ha, ?_⟩
      rw [hblock a ha, if_pos rfl]
      exact ⟨ne_zero_of_isData hb, rfl⟩
    · rw [hused, Function.update_of_ne hne] at hx
      exact Or.inl hx
  · rw [hblock a' ha'] at hne ⊢
    split at hne
    next heq => rw [if_pos heq, hfree]
    next => exact absurd hzero' hne
  · rw [hblock a' ha', if_neg]
    rintro rfl
    exact hne hzero

/-- What a write to inode `k` keeps: the other inodes with their blocks, and
the blocks that `k` had. -/
structure Grows (k : Nat) (s s' : FsState) : Prop where
  inodeUsed : s'.inodeUsed = s.inodeUsed
  cwd : s'.cwd = s.cwd
  files : s'.files = s.files
  inode : ∀ k' ≠ k, s'.inode k' = s.inode k'
  type : (s'.inode k).type = (s.inode k).type
  linkCnt : (s'.inode k).linkCnt = (s.inode k).linkCnt
  block : ∀ k', Live s k' → ∀ a : Place, a.Fits → blockAt s (s.inode k') a ≠ 0 →
    blockAt s' (s'.inode k') a = blockAt s (s.inode k') a
  data : ∀ k' ≠ k, Live s k' → ∀ a : Place, a.Fits → blockAt s (s.inode k') a ≠ 0 →
    s'.data (blockAt s (s.inode k') a).toNat = s.data (blockAt s (s.inode k') a).toNat
  takes : Live s k → Takes k s s'

theorem Grows.refl (k : Nat) (s : FsState) : Grows k s s :=
  ⟨rfl, rfl, rfl, fun _ _ => rfl, rfl, rfl, fun _ _ _ _ _ => rfl, fun _ _ _ _ _ _ => rfl,
    fun _ => takes_refl k s⟩

theorem Grows.live (h : Grows k s s') {k' : Nat} (hk' : Live s k') : Live s' k' :=
  ⟨hk'.1, by rw [h.inodeUsed]; exact hk'.2⟩

theorem Grows.trans (h : Grows k s s') (h' : Grows k s' s'') : Grows k s s'' where
  inodeUsed := h'.inodeUsed.trans h.inodeUsed
  cwd := h'.cwd.trans h.cwd
  files := h'.files.trans h.files
  inode k' hk' := (h'.inode k' hk').trans (h.inode k' hk')
  type := h'.type.trans h.type
  linkCnt := h'.linkCnt.trans h.linkCnt
  block k' hk' a ha hne := by
    have hfirst := h.block k' hk' a ha hne
    rw [← hfirst] at hne ⊢
    exact h'.block k' (h.live hk') a ha hne
  data k' hkk hk' a ha hne := by
    have hfirst := h.block k' hk' a ha hne
    have hdata := h.data k' hkk hk' a ha hne
    rw [← hfirst] at hne hdata ⊢
    rw [h'.data k' hkk (h.live hk') a ha hne, hdata]
  takes hk := (h.takes hk).trans (h'.takes (h.live hk))

theorem grows_of_blockAt {a : Place} {b : UInt32} (howned : Owned s) (hk : Live s k)
    (ha : a.Fits) (hb : IsData b) (hfree : s.blockUsed b.toNat = false)
    (hblockDrift : s'.blockDrift = s.blockDrift) (hinodeDrift : s'.inodeDrift = s.inodeDrift)
    (hused : s'.blockUsed = Function.update s.blockUsed b.toNat true)
    (hinodeUsed : s'.inodeUsed = s.inodeUsed) (hcwd : s'.cwd = s.cwd) (hfiles : s'.files = s.files)
    (hinode : ∀ k' ≠ k, s'.inode k' = s.inode k')
    (htype : (s'.inode k).type = (s.inode k).type)
    (hlinkCnt : (s'.inode k).linkCnt = (s.inode k).linkCnt)
    (hzero : blockAt s (s.inode k) a = 0)
    (hblock : ∀ k', Live s k' → ∀ a' : Place, a'.Fits → blockAt s' (s'.inode k') a' =
      if k' = k ∧ a' = a then b else blockAt s (s.inode k') a')
    (hdata : ∀ x, s.blockUsed x = true → (∀ a' : Place, a'.Fits →
      x ≠ (blockAt s (s.inode k) a').toNat) → s'.data x = s.data x) : Grows k s s' := by
  refine ⟨hinodeUsed, hcwd, hfiles, hinode, htype, hlinkCnt, ?_, ?_, fun _ =>
    takes_of_attach ha hb hzero hfree hblockDrift hinodeDrift hused fun a' ha' => ?_⟩
  · intro k' hk' a' ha' hne
    rw [hblock k' hk' a' ha', if_neg]
    rintro ⟨rfl, rfl⟩
    exact hne hzero
  · intro k' hkk hk' a' ha' hne
    refine hdata _ (howned.isData k' hk' a' ha' hne).2 fun a'' ha'' heq => hkk ?_
    exact (howned.unique k' k hk' hk a' a'' ha' ha'' hne (UInt32.toNat_inj.mp heq)).1
  · rw [hblock k hk a' ha']
    simp only [true_and]

theorem grows_attachRoot {r : Root} {b : UInt32} (h : Owned s) (hk : Live s k) (hb : IsData b)
    (hfree : s.blockUsed b.toNat = false) (hzero : pointer (s.inode k) r = 0) :
    Grows k s (attachRoot s k r b) := by
  have hself : (attachRoot s k r b).inode k = setPointer (s.inode k) r b :=
    Function.update_self ..
  refine grows_of_blockAt (a := ⟨r, []⟩) h hk (fits_root r) hb hfree rfl rfl rfl rfl rfl rfl
    (fun k' hk' => Function.update_of_ne hk' ..) ?_ ?_ hzero
    (fun k' hk' a' ha' => blockAt_attachRoot h hb hfree hzero hk' ha') ?_
  · rw [hself]
    cases r <;> rfl
  · rw [hself]
    cases r <;> rfl
  · intro x hx _
    refine Function.update_of_ne ?_ ..
    rintro rfl
    rw [hx] at hfree
    cases hfree

theorem grows_attachEntry {a : Place} {e : Nat} {index : Bytes} {b : UInt32} (h : Owned s)
    (hk : Live s k) (hb : IsData b) (hfree : s.blockUsed b.toNat = false) (ha : (a.snoc e).Fits)
    (hne : blockAt s (s.inode k) a ≠ 0)
    (hindex : s.data (blockAt s (s.inode k) a).toNat = some index)
    (hzero : get32 index (4 * e) = 0) :
    Grows k s (attachEntry s (blockAt s (s.inode k) a) index e b) := by
  refine grows_of_blockAt (a := a.snoc e) h hk ha hb hfree rfl rfl rfl rfl rfl rfl
    (fun _ _ => rfl) rfl rfl ?_
    (fun k' hk' a' ha' => blockAt_attachEntry h hb hfree hk ha hne hindex hzero hk' ha') ?_
  · rw [blockAt_snoc, entryAt_of_data hne hindex, hzero]
  · intro x hx hother
    have hxb : x ≠ b.toNat := by
      rintro rfl
      rw [hx] at hfree
      cases hfree
    simp only [attachEntry, FsState.setData_data, Function.update_of_ne hxb,
      Function.update_of_ne (hother a ha.of_snoc.1), FsState.setBlockUsed_data]

theorem grows_setData_leaf {a : Place} (h : Owned s) (hk : Live s k) (ha : a.Fits)
    (hleaf : ¬a.Inner) (hne : blockAt s (s.inode k) a ≠ 0) (d : Option Bytes) :
    Grows k s (s.setData (blockAt s (s.inode k) a).toNat d) := by
  have hblock := (h.setData_leaf hk ha hleaf hne d).2
  refine ⟨rfl, rfl, rfl, fun _ _ => rfl, rfl, rfl, fun k' hk' a' ha' _ => hblock k' hk' a' ha', ?_,
    fun _ => takes_of_same rfl rfl rfl (hblock k hk)⟩
  intro k' hkk hk' a' ha' hne'
  refine Function.update_of_ne (fun heq => hkk ?_) ..
  exact (h.unique k' k hk' hk a' a ha' ha hne' (UInt32.toNat_inj.mp heq)).1

/-- The reference to a pointer is where the pointer is. -/
def RefersTo (T : Finset Nat) (m : Machine Bytes Globals) (s : FsState) (k : Nat) (a : Place) :
    Option (Block × Nat) → Prop
  | none => a.path = []
  | some (parent, e) => ∃ a', a = a'.snoc e ∧ blockAt s (s.inode k) a' ≠ 0 ∧
      parent.blockid = (blockAt s (s.inode k) a').toNat ∧ Fresh T m parent

/-- The blocks that are unsettled after an assignment to the reference. -/
def withParent (reference : Option (Block × Nat)) (P : Finset Nat) : Finset Nat :=
  match reference with
  | none => P
  | some (parent, _) => insert parent.blockid P

/-- The inode in memory after an assignment to the reference. -/
def referred (reference : Option (Block × Nat)) (n : Inode) (r : Root) (p : UInt32) : Inode :=
  match reference with
  | none => setPointer n r p
  | some _ => n

theorem attach_pends {reference : Option (Block × Nat)} {a : Place} (h : Pends T P k n₀ m s)
    (howned : Owned s) (hk : Live s k) (ha : a.Fits) (hT : T.card < cacheSize)
    (hmap : blockMapArea ⊆ T) (href : RefersTo T m s k a reference)
    (hzero : blockAt s (s.inode k) a = 0) :
    Runs (openPointer reference 0) m Full fun r m' => ∃ s',
      Pends (insert r.1.toNat T) (insert r.1.toNat (withParent reference P)) k n₀ m' s' ∧
        Owned s' ∧ Grows k s s' ∧ blockAt s' (s'.inode k) a = r.1 ∧
        s'.inode k = referred reference (s.inode k) a.root r.1 ∧ IsData r.1 ∧
        s'.data r.1.toNat = some zeros ∧ r.2.1 = true ∧ r.2.2.blockid = r.1.toNat ∧
        Fresh (insert r.1.toNat T) m' r.2.2 ∧
        ∀ c, Fresh T m c → Fresh (insert r.1.toNat T) m' c := by
  rw [openPointer, if_pos rfl]
  refine (blockAlloc_pends h hT.le hmap howned.tables).bind ?_
  rintro b m₁ ⟨hb, hfree, h₁, hkeep₁⟩
  have hcard : (insert b.toNat T).card ≤ cacheSize := (Finset.card_insert_le _ T).trans hT
  -- The assignment, up to the zeros of the new block.
  have hassign : Runs (assignPointer reference b) m₁ Full fun _ m₂ => ∃ s₂,
      Pends T (withParent reference P) k n₀ m₂ s₂ ∧ (∀ c, Fresh T m₁ c → Fresh T m₂ c) ∧
        ∃ s', Owned s' ∧ Grows k s s' ∧ blockAt s' (s'.inode k) a = b ∧
          s'.inode k = referred reference (s.inode k) a.root b ∧
          s' = (s₂.setData b.toNat (some zeros)).setInode k
            (referred reference (s.inode k) a.root b) := by
    cases reference with
    | none =>
        obtain ⟨r, path⟩ := a
        obtain rfl : path = [] := href
        refine runs_pure ⟨_, h₁, fun _ hc => hc, attachRoot s k r b,
          howned.attachRoot hb hfree hzero, grows_attachRoot howned hk hb hfree hzero, ?_,
          Function.update_self .., rfl⟩
        rw [blockAt_attachRoot howned hb hfree hzero hk ha, if_pos ⟨rfl, rfl⟩]
    | some parent =>
        obtain ⟨parent, e⟩ := parent
        obtain ⟨a', rfl, hne, hid, hfresh⟩ := href
        obtain ⟨ha', hinner, -⟩ := ha.of_snoc
        obtain ⟨index, hindex⟩ := howned.settled k hk a' ha' hinner hne
        have hdata := (howned.isData k hk a' ha' hne).1
        have hle : 517 ≤ parent.blockid := hid ▸ hdata.1
        rw [blockAt_snoc, entryAt_of_data hne hindex] at hzero
        refine (load_pends h₁ (hkeep₁ _ hfresh) hle (hid ▸ hdata.2) (by rw [hid]; exact hindex)).bind ?_
        rintro index m₁ ⟨rfl, rfl⟩
        refine (store_pends h₁ (hkeep₁ _ hfresh) hle _).mono (fun _ _ he => he) ?_
        rintro _ m₂ ⟨h₂, hkeep₂⟩
        refine ⟨_, h₂, hkeep₂, attachEntry s (blockAt s (s.inode k) a') index e b,
          howned.attachEntry hb hfree hk ha hne hindex hzero,
          grows_attachEntry howned hk hb hfree ha hne hindex hzero, ?_, rfl, ?_⟩
        · have hsame : (attachEntry s (blockAt s (s.inode k) a') index e b).inode k = s.inode k :=
            rfl
          rw [hsame, blockAt_attachEntry howned hb hfree hk ha hne hindex hzero hk ha,
            if_pos ⟨rfl, rfl⟩]
        · rw [hid]
          simp only [attachEntry, referred, FsState.setInode, FsState.setData, FsState.setBlockUsed,
            Function.update_eq_self]
  refine hassign.bind ?_
  rintro _ m₂ ⟨s₂, h₂, hkeep₂, s', howned', hgrows, hblock, hinode, rfl⟩
  refine (openBlock_pends h₂ hcard hb.2).bind ?_
  rintro block m₃ ⟨hid, hfresh, h₃, hkeep₃⟩
  refine (store_pends h₃ hfresh (hid ▸ hb.1) zeros).bind ?_
  rintro _ m₄ ⟨h₄, hkeep₄⟩
  rw [hid] at h₄
  refine runs_pure ⟨_, h₄.setInode _, howned', hgrows, hblock, hinode, hb, ?_, rfl, hid,
    hkeep₄ _ hfresh, fun c hc => hkeep₄ c (hkeep₃ c (hkeep₂ c (hkeep₁ c hc)))⟩
  exact Function.update_self ..

/-- What the beginning of `inode_modify_data_recur` leads to. -/
structure Opened (T P : Finset Nat) (reference : Option (Block × Nat)) (k : Nat) (n₀ : Inode)
    (s : FsState) (a : Place) (p b : UInt32) (block : Block) (m m' : Machine Bytes Globals)
    (s' : FsState) (P' : Finset Nat) : Prop where
  pends : Pends (insert b.toNat T) P' k n₀ m' s'
  owned : Owned s'
  grows : Grows k s s'
  blockAt_eq : blockAt s' (s'.inode k) a = b
  inode_eq : s'.inode k = referred reference (s.inode k) a.root b
  isData : IsData b
  blockid : block.blockid = b.toNat
  fresh : Fresh (insert b.toNat T) m' block
  keep : ∀ c, Fresh T m c → Fresh (insert b.toNat T) m' c
  erase_subset : P'.erase b.toNat ⊆ if p = 0 then withParent reference P else P
  subset : p ≠ 0 → P' ⊆ P
  zeros : p = 0 → s'.data b.toNat = some zeros

theorem openPointer_pends {reference : Option (Block × Nat)} {a : Place} {p : UInt32}
    (h : Pends T P k n₀ m s) (howned : Owned s) (hk : Live s k) (ha : a.Fits)
    (hT : T.card < cacheSize) (hmap : blockMapArea ⊆ T) (href : RefersTo T m s k a reference)
    (hp : blockAt s (s.inode k) a = p) :
    Runs (openPointer reference p) m Full fun r m' => r.2.1 = decide (p = 0) ∧ ∃ s' P',
      Opened T P reference k n₀ s a p r.1 r.2.2 m m' s' P' := by
  rcases eq_or_ne p 0 with rfl | hne
  · refine (attach_pends h howned hk ha hT hmap href hp).mono (fun _ _ he => he) ?_
    rintro ⟨b, new, block⟩ m' ⟨s', h', howned', hgrows, hblock, hinode, hb, hzeros, hnew, hid,
      hfresh, hkeep⟩
    refine ⟨hnew.trans (by simp), s', _, h', howned', hgrows, hblock, hinode, hb, hid, hfresh,
      hkeep, ?_, fun hne => absurd rfl hne, fun _ => hzeros⟩
    rw [if_pos rfl]
    exact Finset.erase_insert_subset _ _
  · have hdata := (howned.isData k hk a ha (hp ▸ hne)).1
    rw [hp] at hdata
    rw [openPointer, if_neg hne]
    refine (openBlock_pends h ((Finset.card_insert_le _ T).trans hT) hdata.2).bind ?_
    rintro block m' ⟨hid, hfresh, h', hkeep⟩
    refine runs_pure ⟨by simp [hne], s, P, h', howned, Grows.refl k s, hp, ?_, hdata, hid, hfresh,
      hkeep, ?_, fun _ => Finset.Subset.refl _, fun hzero => absurd hzero hne⟩
    · cases reference with
      | none =>
          obtain ⟨r, path⟩ := a
          obtain rfl : path = [] := href
          rw [← hp]
          exact (setPointer_self _ r).symm
      | some parent => rfl
    · rw [if_neg hne]
      exact Finset.erase_subset _ _

/-- What a write leads to. -/
structure Wrote (T P : Finset Nat) (reference : Option (Block × Nat)) (k : Nat) (n₀ : Inode)
    (s : FsState) (a : Place) (p b : UInt32) (m m' : Machine Bytes Globals)
    (s' : FsState) : Prop where
  owned : Owned s'
  grows : Grows k s s'
  inode_eq : s'.inode k = referred reference (s.inode k) a.root b
  present : b ≠ 0
  pends : ∃ T' P', Pends T' P' k n₀ m' s' ∧ (∀ c, Fresh T m c → Fresh T' m' c) ∧
    P' ⊆ if p = 0 then withParent reference P else P

theorem writeLeaf_pends {reference : Option (Block × Nat)} {a : Place} {p : UInt32} {data : Data}
    {offset length : Nat} (h : Pends T P k n₀ m s) (howned : Owned s) (hk : Live s k) (ha : a.Fits)
    (hleaf : ¬a.Inner) (hT : T.card < cacheSize) (hmap : blockMapArea ⊆ T)
    (href : RefersTo T m s k a reference) (hdata : FreshData T m data)
    (hp : blockAt s (s.inode k) a = p) :
    Runs (inodeModifyDataRecur true 0 reference p data offset length) m Full fun r m' =>
      r.2.2 = decide (p = 0) ∧ ∃ s', Wrote T P reference k n₀ s a p r.1 m m' s' := by
  refine (openPointer_pends h howned hk ha hT hmap href hp).bind ?_
  rintro ⟨b, new, block⟩ m₁ ⟨hnew, s₁, P₁, hopen⟩
  have hopen : Opened T P reference k n₀ s a p b block m m₁ s₁ P₁ := hopen
  have hfresh := hopen.fresh
  have hid : block.blockid = b.toNat := hopen.blockid
  have hle : 517 ≤ block.blockid := hid ▸ hopen.isData.1
  have hlt : block.blockid < maxBlockNum := hid ▸ hopen.isData.2
  have hk₁ := hopen.grows.live hk
  have hne : blockAt s₁ (s₁.inode k) a ≠ 0 := by
    rw [hopen.blockAt_eq]
    exact ne_zero_of_isData hopen.isData
  have hdata₁ : FreshData (insert b.toNat T) m₁ data := by
    cases data with
    | buffer bytes => trivial
    | block c => exact hopen.keep c hdata
  -- The transfer reads the source and replaces a part of the block.
  have htransfer : Runs (transfer true block data offset length) m₁ Full fun _ m₂ =>
      ∃ d, Pends (insert b.toNat T) (P₁.erase b.toNat) k n₀ m₂ (s₁.setData b.toNat (some d)) ∧
        ∀ c, Fresh (insert b.toNat T) m₁ c → Fresh (insert b.toNat T) m₂ c := by
    have hload : Runs data.load m₁ Full fun _ m₂ => m₂ = m₁ := by
      cases data with
      | buffer bytes => exact runs_pure rfl
      | block c =>
          exact (runs_load hopen.pends.ready.sound hdata₁).mono (fun _ _ he => he)
            fun _ _ hm => hm.2
    refine hload.bind ?_
    rintro src m₁ rfl
    refine (runs_load hopen.pends.ready.sound hfresh).bind ?_
    rintro bytes m₁ ⟨rfl, rfl⟩
    refine (store_pends hopen.pends hfresh hle _).bind ?_
    rintro _ m₂ ⟨h₂, hkeep₂⟩
    refine (update_pends h₂ (hkeep₂ _ hfresh) hle hlt (Function.update_self ..)).bind ?_
    rintro _ m₃ ⟨h₃, hkeep₃⟩
    rw [hid, Finset.erase_insert_eq_erase] at h₃
    exact runs_pure ⟨_, h₃, fun c hc => hkeep₃ c (hkeep₂ c hc)⟩
  refine htransfer.bind ?_
  rintro _ m₂ ⟨d, h₂, hkeep₂⟩
  have hgrows := grows_setData_leaf hopen.owned hk₁ ha hleaf hne (some d)
  have howned₂ := (hopen.owned.setData_leaf hk₁ ha hleaf hne (some d)).1
  rw [hopen.blockAt_eq] at hgrows howned₂
  refine runs_pure ⟨hnew, _, howned₂, hopen.grows.trans hgrows, hopen.inode_eq,
    ne_zero_of_isData hopen.isData, _, _, h₂, fun c hc => hkeep₂ c (hopen.keep c hc),
    hopen.erase_subset⟩

/-- A read allocates like a write.  It does not mark the new block, so its
contents are not known afterwards. -/
theorem readLeaf_pends {reference : Option (Block × Nat)} {a : Place} {p : UInt32} {bytes : Bytes}
    {offset length : Nat} (h : Pends T P k n₀ m s) (howned : Owned s) (hk : Live s k) (ha : a.Fits)
    (hleaf : ¬a.Inner) (hT : T.card < cacheSize) (hmap : blockMapArea ⊆ T)
    (href : RefersTo T m s k a reference) (hp : blockAt s (s.inode k) a = p) :
    Runs (inodeModifyDataRecur false 0 reference p (.buffer bytes) offset length) m Full fun r m' =>
      r.2.2 = decide (p = 0) ∧ ∃ s', Wrote T P reference k n₀ s a p r.1 m m' s' := by
  refine (openPointer_pends h howned hk ha hT hmap href hp).bind ?_
  rintro ⟨b, new, block⟩ m₁ ⟨hnew, s₁, P₁, hopen⟩
  have hopen : Opened T P reference k n₀ s a p b block m m₁ s₁ P₁ := hopen
  have hk₁ := hopen.grows.live hk
  have hne : blockAt s₁ (s₁.inode k) a ≠ 0 := by
    rw [hopen.blockAt_eq]
    exact ne_zero_of_isData hopen.isData
  have htransfer : Runs (transfer false block (.buffer bytes) offset length) m₁ Full fun _ m₂ =>
      m₂ = m₁ := by
    refine (runs_load hopen.pends.ready.sound hopen.fresh).bind ?_
    rintro _ m₂ ⟨rfl, rfl⟩
    exact runs_pure rfl
  refine htransfer.bind ?_
  rintro _ m₂ rfl
  have hgrows := grows_setData_leaf hopen.owned hk₁ ha hleaf hne none
  have howned₂ := (hopen.owned.setData_leaf hk₁ ha hleaf hne none).1
  rw [hopen.blockAt_eq] at hgrows howned₂
  exact runs_pure ⟨hnew, _, howned₂, hopen.grows.trans hgrows, hopen.inode_eq,
    ne_zero_of_isData hopen.isData, _, _, hopen.pends.forget b.toNat, hopen.keep,
    hopen.erase_subset⟩

/-- The offsets below the pointers of a level. -/
def OffsetFits (depth offset : Nat) : Prop :=
  depth ≠ 0 → offset < pointersPerBlock * entrySize depth

theorem OffsetFits.step {depth offset : Nat} (h : OffsetFits (depth + 1) offset)
    (hdepth : depth < 3) : offset / entrySize (depth + 1) < pointersPerBlock ∧
      OffsetFits depth (offset % entrySize (depth + 1)) := by
  have hlt := h (Nat.succ_ne_zero depth)
  have hpos : 0 < entrySize (depth + 1) := by
    have : depth = 0 ∨ depth = 1 ∨ depth = 2 := by omega
    rcases this with rfl | rfl | rfl <;> decide
  refine ⟨Nat.div_lt_of_lt_mul (by rwa [mul_comm] at hlt), fun hne => ?_⟩
  obtain ⟨below, rfl⟩ := Nat.exists_eq_succ_of_ne_zero hne
  have hbelow : pointersPerBlock * entrySize (below + 1) = entrySize (below + 1 + 1) := by
    have : below = 0 ∨ below = 1 := by omega
    rcases this with rfl | rfl <;> decide
  rw [hbelow]
  exact Nat.mod_lt _ hpos

theorem writeRecur_pends {depth : Nat} {reference : Option (Block × Nat)} {a : Place} {p : UInt32}
    {data : Data} {offset length : Nat} (h : Pends T P k n₀ m s) (howned : Owned s)
    (hk : Live s k) (ha : a.Fits) (hdepth : a.path.length + depth = a.root.depth)
    (hoffset : OffsetFits depth offset) (hT : T.card + depth < cacheSize)
    (hmap : blockMapArea ⊆ T) (href : RefersTo T m s k a reference) (hdata : FreshData T m data)
    (hp : blockAt s (s.inode k) a = p) :
    Runs (inodeModifyDataRecur true depth reference p data offset length) m Full fun r m' =>
      r.2.2 = decide (p = 0) ∧ ∃ s', Wrote T P reference k n₀ s a p r.1 m m' s' := by
  induction depth generalizing m s T P reference a p data offset with
  | zero =>
      refine writeLeaf_pends h howned hk ha ?_ hT hmap href hdata hp
      unfold Place.Inner
      omega
  | succ depth ih =>
      have hinner : a.Inner := by
        unfold Place.Inner
        omega
      have hsmall : depth < 3 := by
        have : a.root.depth ≤ 3 := by
          cases a.root <;> simp [Root.depth]
        omega
      obtain ⟨he, hoffset'⟩ := hoffset.step hsmall
      refine (openPointer_pends h howned hk ha (by omega) hmap href hp).bind ?_
      rintro ⟨b, new, block⟩ m₁ ⟨hnew, s₁, P₁, hopen⟩
      have hopen : Opened T P reference k n₀ s a p b block m m₁ s₁ P₁ := hopen
      refine runs_bind (runs_assert (fun hfalse => absurd hsmall (by simpa using hfalse))
        fun _ => ?_)
      have hid : block.blockid = b.toNat := hopen.blockid
      have hle : 517 ≤ block.blockid := hid ▸ hopen.isData.1
      have hlt : block.blockid < maxBlockNum := hid ▸ hopen.isData.2
      have hk₁ := hopen.grows.live hk
      have hne₁ : blockAt s₁ (s₁.inode k) a ≠ 0 := by
        rw [hopen.blockAt_eq]
        exact ne_zero_of_isData hopen.isData
      obtain ⟨index, hindex⟩ := hopen.owned.settled k hk₁ a ha hinner hne₁
      rw [hopen.blockAt_eq] at hindex
      refine (load_pends hopen.pends hopen.fresh hle hlt (by rw [hid]; exact hindex)).bind ?_
      rintro index m₁ ⟨rfl, rfl⟩
      have ha' := ha.snoc hinner he
      have hentry : blockAt s₁ (s₁.inode k) (a.snoc (offset / entrySize (depth + 1))) =
          get32 index (4 * (offset / entrySize (depth + 1))) := by
        rw [blockAt_snoc, hopen.blockAt_eq,
          entryAt_of_data (ne_zero_of_isData hopen.isData) hindex]
      have hcard := Finset.card_insert_le b.toNat T
      have hsource : FreshData (insert b.toNat T) m₁ (.block block) := hopen.fresh
      refine (ih hopen.pends hopen.owned hk₁ ha' ?_ hoffset' (by omega)
        (hmap.trans (Finset.subset_insert _ _)) ?_ hsource hentry).bind ?_
      · simp only [Place.snoc, List.length_append, List.length_singleton]
        omega
      · exact ⟨a, rfl, hne₁, by rw [hid, hopen.blockAt_eq], hopen.fresh⟩
      rintro ⟨_, _, modified⟩ m₂ ⟨hmodified, s₂, hwrote⟩
      obtain ⟨T₂, P₂, h₂, hkeep₂, hsub₂⟩ := hwrote.pends
      have hgrows := hopen.grows.trans hwrote.grows
      have hinode : s₂.inode k = referred reference (s.inode k) a.root b :=
        hwrote.inode_eq.trans hopen.inode_eq
      simp only at hmodified
      rcases eq_or_ne (get32 index (4 * (offset / entrySize (depth + 1)))) 0 with hzero | hold
      · rw [hzero, decide_eq_true rfl] at hmodified
        subst hmodified
        -- The index block is still there, and its entry is the new pointer.
        have hblock₂ : blockAt s₂ (s₂.inode k) a = b :=
          (hwrote.grows.block k hk₁ a ha hne₁).trans hopen.blockAt_eq
        obtain ⟨d, hd⟩ := hwrote.owned.settled k (hwrote.grows.live hk₁) a ha hinner (by
          rw [hblock₂]
          exact ne_zero_of_isData hopen.isData)
        rw [hblock₂] at hd
        refine (update_pends h₂ (hkeep₂ _ hopen.fresh) hle hlt (by rw [hid]; exact hd)).bind ?_
        rintro _ m₃ ⟨h₃, hkeep₃⟩
        refine runs_pure ⟨hnew, s₂, hwrote.owned, hgrows, hinode, ne_zero_of_isData hopen.isData,
          _, _, h₃, fun c hc => hkeep₃ c (hkeep₂ c (hopen.keep c hc)), ?_⟩
        rw [if_pos hzero] at hsub₂
        simp only [withParent, hid] at hsub₂
        rw [hid]
        refine (Finset.erase_subset_erase _ hsub₂).trans ?_
        rw [Finset.erase_insert_eq_erase]
        exact hopen.erase_subset
      · rw [decide_eq_false hold] at hmodified
        subst hmodified
        have hpne : p ≠ 0 := by
          intro hzero
          have hzeros := hopen.zeros hzero
          rw [hindex] at hzeros
          rw [Option.some.inj hzeros, get32_zeros] at hold
          exact hold rfl
        rw [if_neg hold] at hsub₂
        refine runs_pure ⟨hnew, s₂, hwrote.owned, hgrows, hinode, ne_zero_of_isData hopen.isData,
          T₂, P₂, h₂, fun c hc => hkeep₂ c (hopen.keep c hc), ?_⟩
        rw [if_neg hpne]
        exact hsub₂.trans (hopen.subset hpne)

end LabKernel.IndexWrites
