import LabKernel.BlockOwnership
import LabKernel.HandleRecycling

/-!
Giving back the blocks of a file, in terms of the tables.

`free_inode_blocks` gives back the blocks at the end of the ways from an
inode and leaves the index blocks on the way allocated.
-/

namespace LabKernel.BlockFreeing

open LabKernel.BlockCache
open LabKernel.BlockObject
open LabKernel.BlockOwnership
open LabKernel.ByteMemory
open LabKernel.DirectData
open LabKernel.FsCode
open LabKernel.FsLayout
open LabKernel.FsPrimitives
open LabKernel.FsTables
open LabKernel.HandleRecycling
open LabKernel.HandleSafety
open LabKernel.ProgramLogic

variable {m m' : Machine Bytes Globals} {s s' : FsState} {T : Finset Nat} {D : Set Nat}
  {n : Inode} {p : UInt32} {depth : Nat} {a : Place}

/-- No statement about runs that stop. -/
def Any : Failure → Machine Bytes Globals → Prop := fun _ _ => True

/-- The blocks at the end of the ways below a pointer. -/
def leavesBelow (s : FsState) : Nat → UInt32 → Set Nat
  | 0, p => {x | p ≠ 0 ∧ x = p.toNat}
  | depth + 1, p => {x | ∃ e < pointersPerBlock, x ∈ leavesBelow s depth (entryAt s p e)}

/-- The blocks at the end of the ways from an inode. -/
def leaves (s : FsState) (n : Inode) : Set Nat :=
  {x | ∃ r : Root, x ∈ leavesBelow s r.depth (pointer n r)}

/-- The index blocks below a pointer are settled. -/
def Indexed (s : FsState) : Nat → UInt32 → Prop
  | 0, _ => True
  | depth + 1, p => p ≠ 0 → IsData p ∧ (∃ index, s.data p.toNat = some index) ∧
      ∀ e < pointersPerBlock, Indexed s depth (entryAt s p e)

theorem leavesBelow_zero (s : FsState) (depth : Nat) : leavesBelow s depth 0 = ∅ := by
  induction depth with
  | zero =>
      ext x
      simp [leavesBelow]
  | succ depth ih =>
      ext x
      simp only [leavesBelow, entryAt_zero, ih, Set.mem_ofPred_eq, Set.mem_empty_iff_false,
        and_false, exists_false]

theorem mem_leavesBelow (ha : a.Fits) (hdepth : a.path.length + depth = a.root.depth) {x : Nat} :
    x ∈ leavesBelow s depth (blockAt s n a) ↔
      ∃ path, (∀ e ∈ path, e < pointersPerBlock) ∧ path.length = depth ∧
        blockAt s n ⟨a.root, a.path ++ path⟩ ≠ 0 ∧
        x = (blockAt s n ⟨a.root, a.path ++ path⟩).toNat := by
  induction depth generalizing a with
  | zero =>
      constructor
      · rintro ⟨hne, rfl⟩
        exact ⟨[], nofun, rfl, by simpa using hne, by simp⟩
      · rintro ⟨path, -, hlength, hne, rfl⟩
        obtain rfl := List.length_eq_zero_iff.mp hlength
        simp only [List.append_nil] at hne ⊢
        exact ⟨hne, rfl⟩
  | succ depth ih =>
      have hinner : a.Inner := by
        unfold Place.Inner
        omega
      have hstep : ∀ e < pointersPerBlock, x ∈ leavesBelow s depth (entryAt s (blockAt s n a) e) ↔
          ∃ path, (∀ e ∈ path, e < pointersPerBlock) ∧ path.length = depth ∧
            blockAt s n ⟨a.root, a.path ++ e :: path⟩ ≠ 0 ∧
            x = (blockAt s n ⟨a.root, a.path ++ e :: path⟩).toNat := by
        intro e he
        have := @ih (a.snoc e) (ha.snoc hinner he) (by
          simp only [Place.snoc, List.length_append, List.length_singleton]
          omega)
        rw [blockAt_snoc] at this
        simpa only [Place.snoc, List.append_assoc, List.singleton_append] using this
      constructor
      · rintro ⟨e, he, hx⟩
        obtain ⟨path, hpath, hlength, hne, heq⟩ := (hstep e he).mp hx
        exact ⟨e :: path, List.forall_mem_cons.mpr ⟨he, hpath⟩, by simp [hlength], hne, heq⟩
      · rintro ⟨path, hpath, hlength, hne, heq⟩
        obtain ⟨e, path, rfl⟩ := List.exists_cons_of_length_eq_add_one hlength
        obtain ⟨he, hpath⟩ := List.forall_mem_cons.mp hpath
        exact ⟨e, he, (hstep e he).mpr ⟨path, hpath, by simpa using hlength, hne, heq⟩⟩

theorem mem_leaves {x : Nat} : x ∈ leaves s n ↔
    ∃ a : Place, a.Fits ∧ ¬a.Inner ∧ blockAt s n a ≠ 0 ∧ x = (blockAt s n a).toNat := by
  have hroot : ∀ r : Root, Place.Fits ⟨r, []⟩ := fun r =>
    ⟨Nat.zero_le _, fun e he => absurd he List.not_mem_nil⟩
  constructor
  · rintro ⟨r, hx⟩
    obtain ⟨path, hpath, hlength, hne, heq⟩ :=
      (mem_leavesBelow (hroot r) (Nat.zero_add r.depth)).mp hx
    exact ⟨⟨r, path⟩, ⟨hlength.le, hpath⟩, by simp [Place.Inner, hlength], hne, heq⟩
  · rintro ⟨⟨r, path⟩, ha, hleaf, hne, heq⟩
    refine ⟨r, (mem_leavesBelow (n := n) (hroot r) (Nat.zero_add r.depth)).mpr
      ⟨path, ha.entry_lt, ?_, hne, heq⟩⟩
    have := ha.length_le
    simp only [Place.Inner] at hleaf this
    omega

theorem indexed_of_owned {k : Nat} (h : Owned s) (hk : Live s k) (ha : a.Fits)
    (hdepth : a.path.length + depth = a.root.depth) :
    Indexed s depth (blockAt s (s.inode k) a) := by
  induction depth generalizing a with
  | zero => trivial
  | succ depth ih =>
      have hinner : a.Inner := by
        unfold Place.Inner
        omega
      refine fun hne => ⟨(h.isData k hk a ha hne).1, h.settled k hk a ha hinner hne,
        fun e he => ?_⟩
      rw [← blockAt_snoc]
      refine ih (ha.snoc hinner he) ?_
      simp only [Place.snoc, List.length_append, List.length_singleton]
      omega

theorem release_insert (s : FsState) (D : Set Nat) (x : Nat) :
    (release s D).setBlockUsed x false = release s (D ∪ {x}) := by
  simp only [FsState.setBlockUsed, release, FsState.mk.injEq, and_true]
  funext y
  rcases eq_or_ne y x with rfl | hne
  · have hmem : y ∈ D ∪ {y} := Or.inr (Set.mem_singleton y)
    rw [Function.update_self, if_pos hmem]
  · have hiff : y ∈ D ∪ {x} ↔ y ∈ D := by simp [hne]
    rw [Function.update_of_ne hne]
    rcases em (y ∈ D) with hD | hD
    · rw [if_pos hD, if_pos (hiff.mpr hD)]
    · rw [if_neg hD, if_neg fun hmem => hD (hiff.mp hmem)]

theorem changed_subset_blockMapArea {n : Nat} (hn : n < maxBlockNum) :
    ({0, 2 + n / 32768} : Set Nat) ⊆ blockMapArea := by
  rw [maxBlockNum_eq] at hn
  have : n / 32768 = 0 ∨ n / 32768 = 1 ∨ n / 32768 = 2 := by omega
  rcases this with hi | hi | hi <;> rw [hi] <;> simp [blockMapArea, Set.insert_subset_iff]

theorem blockFree_any (h : Realizes m s) (hT : T.card ≤ cacheSize) (hmem : blockMapArea ⊆ T) :
    Runs (blockFree p) m Any fun _ m' =>
      Realizes m' (s.setBlockUsed p.toNat false) ∧ Evolves T T blockMapArea m m' := by
  have hused : Runs (blockFree p) m Any fun _ _ =>
      p.toNat < maxBlockNum ∧ s.blockUsed p.toNat = true := by
    refine (runs_blockFree h.ready hT hmem).mono (fun _ _ _ => trivial) ?_
    rintro _ m' ⟨hlt, -, hgave, -⟩
    obtain ⟨d, hd, hbit, -⟩ := hgave.visible_eq (by omega)
    have hsmall : 2 + p.toNat / 32768 < 517 := by
      rw [maxBlockNum_eq] at hlt
      omega
    rw [← h.settled _ hsmall, or_self] at hd
    rw [hd, show 8 * (p.toNat % 32768 / 8) + p.toNat % 8 = p.toNat % 32768 by omega] at hbit
    exact ⟨hlt, (h.blockUsed _ hlt).symm.trans hbit⟩
  refine hused.withRun.mono (fun _ _ he => he) ?_
  rintro _ m' ⟨⟨hlt, hmarked⟩, hrun⟩
  obtain ⟨h', hev⟩ := (blockFree_realizes h hT hmem hlt hmarked (E := Any)).ok hrun
  exact ⟨h', hev.mono (changed_subset_blockMapArea hlt)⟩

theorem freeEntries_realizes {block : Block} {freeEntry : UInt32 → Fs Unit} {F : UInt32 → Set Nat}
    {Q : UInt32 → Prop} {index : Bytes} {left i : Nat}
    (hfree : ∀ p m D, p ≠ 0 → Q p → Realizes m (release s D) →
      Runs (freeEntry p) m Any fun _ m' =>
        Realizes m' (release s (D ∪ F p)) ∧ Evolves T T blockMapArea m m')
    (h : Realizes m (release s D)) (hfresh : Fresh T m block)
    (hrange : 517 ≤ block.blockid ∧ block.blockid < maxBlockNum)
    (hindex : s.data block.blockid = some index) (hi : i + left ≤ pointersPerBlock)
    (hQ : ∀ e < pointersPerBlock, Q (get32 index (4 * e))) (hF : F 0 = ∅) :
    Runs (freeEntries block freeEntry left i) m Any fun _ m' =>
      Realizes m' (release s (D ∪ {x | ∃ e, i ≤ e ∧ e < i + left ∧
        x ∈ F (get32 index (4 * e))})) ∧ Evolves T T blockMapArea m m' := by
  induction left generalizing m D i with
  | zero =>
      have hnone : {x | ∃ e, i ≤ e ∧ e < i + 0 ∧ x ∈ F (get32 index (4 * e))} = ∅ := by
        ext x
        simp only [Set.mem_ofPred_eq, Set.mem_empty_iff_false, iff_false]
        rintro ⟨e, hle, hlt, -⟩
        omega
      rw [hnone, Set.union_empty]
      exact runs_pure ⟨h, Evolves.refl h.ready.sound (Finset.Subset.refl _)⟩
  | succ left ih =>
      -- Entry `i`, then the rest of the loop.
      have hsplit : ∀ D : Set Nat, D ∪ {x | ∃ e, i ≤ e ∧ e < i + (left + 1) ∧
          x ∈ F (get32 index (4 * e))} = (D ∪ F (get32 index (4 * i))) ∪
            {x | ∃ e, i + 1 ≤ e ∧ e < i + 1 + left ∧ x ∈ F (get32 index (4 * e))} := by
        intro D
        rw [Set.union_assoc]
        congr 1
        ext x
        constructor
        · rintro ⟨e, hle, hlt, hx⟩
          rcases Nat.eq_or_lt_of_le hle with rfl | hlt'
          · exact Or.inl hx
          · exact Or.inr ⟨e, hlt', by omega, hx⟩
        · rintro (hx | ⟨e, hle, hlt, hx⟩)
          · exact ⟨i, le_refl _, by omega, hx⟩
          · exact ⟨e, by omega, by omega, hx⟩
      rw [hsplit]
      have hshown : visible m block.blockid = index :=
        (h.data _ hrange.1 hrange.2 index hindex).1
      refine (runs_load h.ready.sound hfresh).bind ?_
      rintro _ m ⟨rfl, rfl⟩
      rw [hshown]
      dsimp only
      split
      next hzero =>
        rw [hzero, hF, Set.union_empty]
        exact ih h hfresh (by omega)
      next hne =>
        refine (hfree _ m D hne (hQ i (by omega)) h).bind ?_
        rintro _ m₁ ⟨h₁, hev₁⟩
        refine (ih h₁ (hev₁.fresh _ hfresh) (by omega)).mono (fun _ _ he => he) ?_
        rintro _ m₂ ⟨h₂, hev₂⟩
        exact ⟨h₂, hev₁.trans hev₂⟩

theorem leavesBelow_succ {index : Bytes} (hp : p ≠ 0) (hindex : s.data p.toNat = some index) :
    leavesBelow s (depth + 1) p = {x | ∃ e, 0 ≤ e ∧ e < 0 + pointersPerBlock ∧
      x ∈ leavesBelow s depth (get32 index (4 * e))} := by
  ext x
  simp only [leavesBelow, Set.mem_ofPred_eq, Nat.zero_le, true_and, Nat.zero_add]
  refine exists_congr fun e => ?_
  rw [entryAt_of_data hp hindex]

theorem freeRecur_zero_realizes (h : Realizes m (release s D)) (hT : T.card ≤ cacheSize)
    (hmem : blockMapArea ⊆ T) (hp : p ≠ 0) :
    Runs (freeInodeBlocksRecur 0 p) m Any fun _ m' =>
      Realizes m' (release s (D ∪ leavesBelow s 0 p)) ∧ Evolves T T blockMapArea m m' := by
  have hleaf : leavesBelow s 0 p = {p.toNat} := by
    ext x
    simp [leavesBelow, hp]
  rw [freeInodeBlocksRecur, if_neg hp, hleaf, ← release_insert]
  exact blockFree_any h hT hmem

theorem freeRecur_one_realizes (h : Realizes m (release s D)) (hT : T.card ≤ cacheSize)
    (hmem : blockMapArea ⊆ T) (hp : p ≠ 0) (hpT : p.toNat ∈ T) (hindexed : Indexed s 1 p) :
    Runs (freeInodeBlocksRecur 1 p) m Any fun _ m' =>
      Realizes m' (release s (D ∪ leavesBelow s 1 p)) ∧ Evolves T T blockMapArea m m' := by
  obtain ⟨hdata, ⟨index, hindex⟩, -⟩ := hindexed hp
  rw [freeInodeBlocksRecur_succ, leavesBelow_succ hp hindex]
  refine (runs_openBlock h.ready.sound hT hpT fun hle => absurd hle (not_le.mpr hdata.2)).bind ?_
  rintro block m₁ ⟨hid, hfresh, hev₁, hg₁⟩
  refine (freeEntries_realizes (Q := fun _ => True)
    (fun q m D hq _ hm => freeRecur_zero_realizes hm hT hmem hq) (h.idle hev₁ hg₁) hfresh
    (hid ▸ hdata) (hid ▸ hindex) (by simp) (fun _ _ => trivial)
    (leavesBelow_zero s 0)).mono (fun _ _ he => he) ?_
  rintro _ m₂ ⟨h₂, hev₂⟩
  exact ⟨h₂, (hev₁.mono (Set.empty_subset _)).trans hev₂⟩

/-- The cache holds an outer index block together with the inner ones and
the bit map. -/
def OuterFits (s : FsState) (p : UInt32) : Prop := ∀ index, s.data p.toNat = some index →
  (insert p.toNat (blockMapArea ∪ indexEntries index)).card ≤ cacheSize

theorem freeRecur_two_realizes (h : Realizes m (release s D)) (hp : p ≠ 0)
    (hindexed : Indexed s 2 p) (hfits : OuterFits s p) :
    Runs (freeInodeBlocksRecur 2 p) m Any fun _ m' =>
      Realizes m' (release s (D ∪ leavesBelow s 2 p)) := by
  obtain ⟨hdata, ⟨index, hindex⟩, hinner⟩ := hindexed hp
  rw [freeInodeBlocksRecur_succ, leavesBelow_succ hp hindex]
  set T := insert p.toNat (blockMapArea ∪ indexEntries index) with hTdef
  have hT : T.card ≤ cacheSize := hfits index hindex
  have hmem : blockMapArea ⊆ T := Finset.subset_union_left.trans (Finset.subset_insert _ _)
  refine (runs_openBlock h.ready.sound hT (Finset.mem_insert_self _ _)
    fun hle => absurd hle (not_le.mpr hdata.2)).bind ?_
  rintro block m₁ ⟨hid, hfresh, hev₁, hg₁⟩
  refine (freeEntries_realizes (Q := fun q => q ≠ 0 → q.toNat ∈ T ∧ Indexed s 1 q)
    (fun q m D hq hQ hm => freeRecur_one_realizes hm hT hmem hq (hQ hq).1 (hQ hq).2)
    (h.idle hev₁ hg₁) hfresh (hid ▸ hdata) (hid ▸ hindex) (by simp) ?_
    (leavesBelow_zero s 1)).mono (fun _ _ he => he) fun _ _ hm => hm.1
  intro e he hne
  refine ⟨?_, ?_⟩
  · exact Finset.mem_insert_of_mem (Finset.mem_union_right _ (Finset.mem_image.mpr
      ⟨e, Finset.mem_filter.mpr ⟨Finset.mem_range.mpr he, hne⟩, rfl⟩))
  · have := hinner e he
    rwa [entryAt_of_data hp hindex] at this

theorem freePointers_realizes {pointers : List UInt32} {Q : UInt32 → Prop}
    (hfree : ∀ p m D, p ≠ 0 → Q p → Realizes m (release s D) →
      Runs (freeInodeBlocksRecur depth p) m Any fun _ m' =>
        Realizes m' (release s (D ∪ leavesBelow s depth p)))
    (h : Realizes m (release s D)) (hQ : ∀ p ∈ pointers, Q p) :
    Runs (freePointers depth pointers) m Any fun _ m' =>
      Realizes m' (release s (D ∪ {x | ∃ p ∈ pointers, x ∈ leavesBelow s depth p})) := by
  induction pointers generalizing m D with
  | nil =>
      refine runs_pure ?_
      simpa using h
  | cons p rest ih =>
      have hsplit : ∀ D : Set Nat, D ∪ {x | ∃ q ∈ p :: rest, x ∈ leavesBelow s depth q} =
          (D ∪ leavesBelow s depth p) ∪ {x | ∃ q ∈ rest, x ∈ leavesBelow s depth q} := by
        intro D
        rw [Set.union_assoc]
        congr 1
        ext x
        simp
      have hrest : ∀ q ∈ rest, Q q := fun q hq => hQ q (List.mem_cons_of_mem _ hq)
      rw [hsplit, freePointers]
      split
      next hzero =>
        rw [hzero, leavesBelow_zero, Set.union_empty]
        exact ih h hrest
      next hne =>
        refine (hfree p m D hne (hQ p List.mem_cons_self) h).bind ?_
        intro _ m₁ h₁
        exact ih h₁ hrest

theorem mem_leaves_iff (hl3 : n.dataL3 = 0) (x : Nat) : x ∈ leaves s n ↔
    ((∃ p ∈ List.ofFn n.dataDirect, x ∈ leavesBelow s 0 p) ∨
      ∃ p ∈ List.ofFn n.dataL1, x ∈ leavesBelow s 1 p) ∨
      ∃ p ∈ List.ofFn n.dataL2, x ∈ leavesBelow s 2 p := by
  simp only [List.mem_ofFn', Set.mem_range, exists_exists_eq_and]
  constructor
  · rintro ⟨r, hx⟩
    cases r with
    | direct i => exact Or.inl (Or.inl ⟨i, hx⟩)
    | l1 i => exact Or.inl (Or.inr ⟨i, hx⟩)
    | l2 i => exact Or.inr ⟨i, hx⟩
    | l3 =>
        rw [pointer, hl3, leavesBelow_zero] at hx
        exact absurd hx (Set.notMem_empty x)
  · rintro ((⟨i, hx⟩ | ⟨i, hx⟩) | ⟨i, hx⟩)
    · exact ⟨.direct i, hx⟩
    · exact ⟨.l1 i, hx⟩
    · exact ⟨.l2 i, hx⟩

theorem freeInodeBlocks_realizes (h : Realizes m s)
    (hindexed : ∀ r : Root, Indexed s r.depth (pointer n r)) (hl3 : n.dataL3 = 0)
    (hfits : ∀ i, n.dataL2 i ≠ 0 → OuterFits s (n.dataL2 i)) :
    Runs (freeInodeBlocks n) m Any fun _ m' => Realizes m' (release s (leaves s n)) := by
  have hcard : blockMapArea.card = 4 := by decide
  have hnone : release s ∅ = s := by
    simp only [release, Set.mem_empty_iff_false, if_false]
  rw [← hnone] at h
  refine (freePointers_realizes (Q := fun _ => True) ?_ h fun _ _ => trivial).bind ?_
  · intro p m D hp _ hm
    exact (freeRecur_zero_realizes hm (T := blockMapArea) (by rw [hcard]; decide)
      (Finset.Subset.refl _) hp).mono (fun _ _ he => he) fun _ _ hm => hm.1
  intro _ m₁ h₁
  refine (freePointers_realizes (Q := Indexed s 1) ?_ h₁ ?_).bind ?_
  · intro p m D hp hQ hm
    have hinsert := Finset.card_insert_le p.toNat blockMapArea
    exact (freeRecur_one_realizes hm (T := insert p.toNat blockMapArea)
      (by rw [hcard] at hinsert; rw [cacheSize]; omega) (Finset.subset_insert _ _) hp
      (Finset.mem_insert_self _ _) hQ).mono (fun _ _ he => he) fun _ _ hm => hm.1
  · intro p hp
    obtain ⟨i, rfl⟩ := (List.mem_ofFn' ..).mp hp
    exact hindexed (.l1 i)
  intro _ m₂ h₂
  refine (freePointers_realizes (Q := fun p => Indexed s 2 p ∧ (p ≠ 0 → OuterFits s p)) ?_ h₂
    ?_).bind ?_
  · intro p m D hp hQ hm
    exact freeRecur_two_realizes hm hp hQ.1 (hQ.2 hp)
  · intro p hp
    obtain ⟨i, rfl⟩ := (List.mem_ofFn' ..).mp hp
    exact ⟨hindexed (.l2 i), hfits i⟩
  intro _ m₃ h₃
  unfold freePointers
  rw [if_pos hl3]
  refine runs_pure ?_
  have hall : leaves s n = ((∅ ∪ {x | ∃ p ∈ List.ofFn n.dataDirect, x ∈ leavesBelow s 0 p}) ∪
      {x | ∃ p ∈ List.ofFn n.dataL1, x ∈ leavesBelow s 1 p}) ∪
        {x | ∃ p ∈ List.ofFn n.dataL2, x ∈ leavesBelow s 2 p} := by
    ext x
    rw [mem_leaves_iff hl3, Set.empty_union]
    rfl
  rw [hall]
  exact h₃

/-- What is left of the ownership when an inode with its blocks is given
back. -/
theorem Owned.discard {k : Nat} (h : Owned s) (hk : Live s k) :
    Owned ((release s (leaves s (s.inode k))).setInodeUsed k false) := by
  have hsame : (release s (leaves s (s.inode k))).setInodeUsed k false =
      release (s.setInodeUsed k false) (leaves s (s.inode k)) := rfl
  rw [hsame]
  refine (h.freeInode k).release ?_ ?_
  · intro x hx
    obtain ⟨a, ha, -, hne, rfl⟩ := mem_leaves.mp hx
    exact (h.isData k hk a ha hne).1.1
  · intro k' hk' a' ha' hne' hx
    have hkk : k' ≠ k := by
      rintro rfl
      have := hk'.2
      rw [FsState.setInodeUsed_inodeUsed, Function.update_self] at this
      cases this
    have hk'' : Live s k' := by
      refine ⟨hk'.1, ?_⟩
      rw [← hk'.2]
      exact (Function.update_of_ne hkk ..).symm
    obtain ⟨a, ha, -, hne, heq⟩ := mem_leaves.mp hx
    exact hkk (h.unique k' k hk'' hk a' a ha' ha hne' (UInt32.toNat_inj.mp heq)).1

theorem dropLink_realizes {ino : UInt32} (h : Realizes m s) (hlive : Live s ino.toNat)
    (hindexed : n.linkCnt = 1 → ∀ r : Root, Indexed s r.depth (pointer n r))
    (hfits : n.linkCnt = 1 → n.dataL3 = 0 ∧ ∀ i, n.dataL2 i ≠ 0 → OuterFits s (n.dataL2 i)) :
    Runs (dropLink ino n) m Any fun _ m' =>
      (n.linkCnt ≠ 1 ∧ Realizes m' (s.setInode ino.toNat { n with linkCnt := n.linkCnt - 1 })) ∨
      (n.linkCnt = 1 ∧
        Realizes m' ((release s (leaves s n)).setInodeUsed ino.toNat false)) := by
  unfold dropLink
  dsimp only
  split
  next hlink =>
    refine (writeInode_realizes h hlive.1).bind ?_
    intro _ m₁ h₁
    refine runs_pure (Or.inl ⟨?_, h₁⟩)
    intro hone
    rw [hone] at hlink
    exact hlink rfl
  next hlink =>
    have hone : n.linkCnt = 1 := by
      have hzero : n.linkCnt - 1 = 0 := not_not.mp hlink
      rw [← UInt16.sub_add_cancel n.linkCnt 1, hzero]
      rfl
    obtain ⟨hl3, hl2⟩ := hfits hone
    refine (freeInodeBlocks_realizes h (hindexed hone) hl3 hl2).bind ?_
    intro _ m₁ h₁
    refine (inodeFree_realizes h₁ hlive.1 hlive.2).bind ?_
    intro _ m₂ h₂
    exact runs_pure (Or.inr ⟨hone, h₂⟩)

end LabKernel.BlockFreeing
