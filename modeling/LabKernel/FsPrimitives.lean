import LabKernel.FsCode

/-!
What the functions on the super block, the bit maps and the inode table do to
the blocks, in any state of the file system.
-/

namespace LabKernel.FsPrimitives

open LabKernel.BlockCache
open LabKernel.BlockObject
open LabKernel.ByteMemory
open LabKernel.FsCode
open LabKernel.FsLayout
open LabKernel.ProgramLogic

/-- The fields of the super block that only `fs_mkfs` sets. -/
structure Layout (sb : SuperBlock) : Prop where
  inodeMapStartBlock : sb.inodeMapStartBlock = 1
  inodeMapSize : sb.inodeMapSize = 32768
  blockMapStartBlock : sb.blockMapStartBlock = 2
  blockMapSize : sb.blockMapSize = 98304
  inodeStartBlock : sb.inodeStartBlock = 5
  blockStartBlock : sb.blockStartBlock = 517

/-- A machine with a file system that has used no recycled slot. -/
structure Mounted (m : Machine Bytes Globals) : Prop where
  tracked : Tracked m
  layout : Layout m.globals.superblock

/-- A sound machine with a file system. -/
structure Ready (m : Machine Bytes Globals) : Prop where
  sound : Sound m
  layout : Layout m.globals.superblock

variable {m m' : Machine Bytes Globals} {T T' : Finset Nat} {W : Set Nat} {x : Nat}
  {E : Failure → Machine Bytes Globals → Prop}

theorem Ready.mounted (h : Ready m) : Mounted m := ⟨h.sound.toTracked, h.layout⟩

theorem maxBlockNum_eq : maxBlockNum = 98304 := by decide

theorem runs_getSuperblock :
    Runs getSuperblock m E fun sb m' => sb = m.globals.superblock ∧ m' = m :=
  runs_of_ok rfl ⟨rfl, rfl⟩

theorem runs_cwdNode : Runs cwdNode m E fun ino m' => ino = m.globals.cwdNode ∧ m' = m :=
  runs_of_ok rfl ⟨rfl, rfl⟩

theorem runs_assert {condition : Bool} {failure : Failure}
    {Q : Unit → Machine Bytes Globals → Prop} (hE : condition = false → E failure m)
    (hQ : condition = true → Q () m) : Runs (assert condition failure) m E Q := by
  cases condition with
  | false => exact runs_fail (hE rfl)
  | true => exact runs_pure (hQ rfl)

theorem runs_flushSuperblock (h : Sound m) (hT : T.card ≤ cacheSize) (h0 : 0 ∈ T) :
    Runs flushSuperblock m E fun _ m' =>
      Evolves T T {0} m m' ∧ m'.globals = m.globals ∧ Settled m' 0 ∧
        ∃ d, visible m' 0 = copy d 0 m.globals.superblock.toBytes 0 superBlockSize := by
  refine (runs_openBlock h hT h0 fun hle => absurd hle (by decide)).bind ?_
  rintro block m₁ ⟨hid, hfresh, hev₁, hg₁⟩
  refine runs_getSuperblock.bind ?_
  rintro sb m ⟨rfl, rfl⟩
  refine (runs_load hev₁.sound hfresh).bind ?_
  rintro data m₁ ⟨rfl, rfl⟩
  have hlt : block.blockid < maxBlockNum := hid ▸ by decide
  refine (runs_store hev₁.sound hfresh _).bind ?_
  rintro _ m₂ ⟨hev₂, hv₂, hg₂⟩
  refine (runs_update hev₂.sound (hev₂.fresh _ hfresh) hlt).mono (fun _ _ he => he) ?_
  rintro _ m₃ ⟨hev₃, hv₃, hs₃, hg₃⟩
  rw [hid] at hev₂ hv₂ hev₃ hv₃ hs₃
  refine ⟨(hev₁.mono (Set.empty_subset _)).trans (hev₂.trans hev₃), ?_, hs₃, visible m₁ 0, ?_⟩
  · rw [hg₃, hg₂, hg₁]
  · rw [hv₃, hv₂, hg₁]

theorem toNat_add_ofNat {a : UInt32} {i : Nat} (h : a.toNat + i < 2 ^ 32) :
    (a + UInt32.ofNat i).toNat = a.toNat + i := by
  rw [UInt32.toNat_add, UInt32.toNat_ofNat', Nat.add_mod_mod, Nat.mod_eq_of_lt h]

theorem findClearBit_eq_some {byte : UInt8} {left start k : Nat}
    (h : findClearBit byte left start = some k) :
    start ≤ k ∧ k < start + left ∧ byte &&& 1 <<< UInt8.ofNat k = 0 := by
  induction left generalizing start with
  | zero => simp [findClearBit] at h
  | succ left ih =>
      simp only [findClearBit] at h
      split at h
      next hzero =>
        obtain rfl := Option.some.inj h
        exact ⟨le_refl _, by omega, hzero⟩
      next =>
        have := ih h
        exact ⟨by omega, by omega, this.2.2⟩

theorem findClear_eq_some {data : Bytes} {left start j k : Nat}
    (h : findClear data left start = some (j, k)) :
    start ≤ j ∧ j < start + left ∧ k < 8 ∧ bit data (8 * j + k) = false := by
  induction left generalizing start with
  | zero => simp [findClear] at h
  | succ left ih =>
      have hnext : findClear data left (start + 1) = some (j, k) →
          start ≤ j ∧ j < start + (left + 1) ∧ k < 8 ∧ bit data (8 * j + k) = false := by
        intro hrest
        have := ih hrest
        exact ⟨by omega, by omega, this.2.2⟩
      simp only [findClear] at h
      split at h
      next =>
        split at h
        next k' hfind =>
          obtain ⟨rfl, rfl⟩ := Prod.mk.inj (Option.some.inj h)
          obtain ⟨-, hk, hzero⟩ := findClearBit_eq_some hfind
          have hk8 : k' < 8 := by omega
          refine ⟨le_refl _, by omega, hk8, ?_⟩
          rw [bit, show (8 * start + k') / 8 = start by omega,
            show (8 * start + k') % 8 = k' by omega]
          exact (and_one_shiftLeft_eq_zero _ hk8).mp hzero
        next => exact hnext h
      next => exact hnext h

/-- What taking a number from block `y` of a bit map does: `d` is what the
block showed, and the bit of the number was clear. -/
structure Took (m m' : Machine Bytes Globals) (y j k : Nat) : Prop where
  settled_zero : Settled m' 0
  settled : Settled m' y
  visible_eq : y ≠ 0 → ∃ d, (d = visible m y ∨ d = BlockObject.settled m y) ∧
    bit d (8 * j + k) = false ∧ visible m' y = setBit d j k

theorem runs_allocLoop {mapStart : UInt32} {noSpace : Failure}
    {account : UInt32 → SuperBlock → SuperBlock} {left i : Nat} (h : Sound m)
    (hT : T.card ≤ cacheSize) (h0 : 0 ∈ T)
    (hmem : ∀ i', i ≤ i' → i' < i + left →
      mapStart.toNat + i' < maxBlockNum ∧ mapStart.toNat + i' ∈ T) :
    Runs (allocLoop mapStart noSpace account left i) m
      (fun e m' => e = noSpace ∧ m'.recycled = false) fun n m' =>
      ∃ i' j k, i ≤ i' ∧ i' < i + left ∧ j < blockSize ∧ k < 8 ∧
        n = UInt32.ofNat (i' * bitsPerBlock + j * 8 + k) ∧
        Evolves T T {0, mapStart.toNat + i'} m m' ∧ Took m m' (mapStart.toNat + i') j k ∧
        m'.globals = { m.globals with superblock := account n m.globals.superblock } := by
  induction left generalizing i m with
  | zero => exact runs_fail ⟨rfl, h.recycled⟩
  | succ left ih =>
      have hfirst := hmem i (le_refl _) (by omega)
      have hsmall : (mapStart + UInt32.ofNat i).toNat = mapStart.toNat + i := by
        rw [maxBlockNum_eq] at hfirst
        exact toNat_add_ofNat (by omega)
      simp only [allocLoop, hsmall]
      refine runs_open_load h hT hfirst.2 (fun hle => absurd hle (not_le.mpr hfirst.1))
        fun block m₁ hid hfresh hev₁ hg₁ => ?_
      set y := mapStart.toNat + i with hy
      have hlt : y < maxBlockNum := hfirst.1
      split
      next j k hfind =>
        obtain ⟨-, hj, hk, hclear⟩ := findClear_eq_some hfind
        refine runs_store_update hev₁.sound hfresh (hid ▸ hlt) fun m₂ hev₂ hv₂ hs₂ hg₂ => ?_
        rw [hid] at hev₂ hv₂ hs₂
        refine (runs_modifyGlobals hev₂.sound _ (T := T)).bind ?_
        rintro _ m₃ ⟨hev₃, hv₃, hs₃, hg₃⟩
        refine (runs_flushSuperblock hev₃.sound hT h0).bind ?_
        rintro _ m₄ ⟨hev₄, hg₄, hs₄, -⟩
        have hy₄ : y ≠ 0 → visible m₄ y = visible m₃ y ∧ Settled m₄ y := by
          intro hy0
          have hs₃' : Settled m₃ y := by
            unfold Settled
            rw [hv₃, hs₃]
            exact hs₂
          exact ⟨hev₄.visible_of_settled hlt hy0 hs₃', hev₄.settled_of_settled hlt hy0 hs₃'⟩
        refine runs_pure ⟨i, j, k, le_refl _, by omega, by omega, hk, rfl, ?_, ⟨hs₄, ?_, ?_⟩, ?_⟩
        · exact (hev₁.mono (Set.empty_subset _)).trans ((hev₂.mono
            (Set.singleton_subset_iff.mpr (Or.inr rfl))).trans ((hev₃.mono
            (Set.empty_subset _)).trans (hev₄.mono (Set.singleton_subset_iff.mpr (Or.inl rfl)))))
        · by_cases hy0 : y = 0
          · rw [← hy, hy0]
            exact hs₄
          · exact (hy₄ hy0).2
        · intro hy0
          refine ⟨visible m₁ y, hev₁.visible_or y hlt (Set.notMem_empty _), hclear, ?_⟩
          rw [(hy₄ hy0).1, hv₃, hv₂]
        · rw [hg₄, hg₃, hg₂, hg₁]
      next =>
        refine (ih hev₁.sound fun i' hi hi' => hmem i' (by omega) (by omega)).mono
          (fun _ _ he => he) ?_
        rintro n m' ⟨i', j, k, hi, hi', hj, hk, hn, hev, htook, hg⟩
        refine ⟨i', j, k, by omega, by omega, hj, hk, hn,
          (hev₁.mono (Set.empty_subset _)).trans hev,
          ⟨htook.settled_zero, htook.settled, fun hy0 => ?_⟩, by rw [hg, hg₁]⟩
        obtain ⟨d, hd, hclear, hv⟩ := htook.visible_eq hy0
        have hlt' := (hmem i' (by omega) (by omega)).1
        refine ⟨d, ?_, hclear, hv⟩
        rw [hev₁.settled_eq _ hlt' (Set.notMem_empty _)] at hd
        rcases hd with rfl | rfl
        · exact hev₁.visible_or _ hlt' (Set.notMem_empty _)
        · exact Or.inr rfl

/-- The blocks that `block_alloc` and `block_free` open. -/
def blockMapArea : Finset Nat := {0, 2, 3, 4}

/-- The blocks that `inode_alloc` and `inode_free` open. -/
def inodeMapArea : Finset Nat := {0, 1}

def countBlock (number : UInt32) (sb : SuperBlock) : SuperBlock :=
  { sb with blockAllocated := sb.blockAllocated + 1, blockFreeMin := number + 1 }

def countInode (number : UInt32) (sb : SuperBlock) : SuperBlock :=
  { sb with inodeAllocated := sb.inodeAllocated + 1, inodeFreeMin := number + 1 }

theorem runs_blockAlloc (h : Ready m) (hT : T.card ≤ cacheSize) (hmem : blockMapArea ⊆ T) :
    Runs blockAlloc m (fun e m' => e = .noBlock ∧ m'.recycled = false) fun n m' =>
      n.toNat < maxBlockNum ∧ Evolves T T {0, 2 + n.toNat / 32768} m m' ∧
        Took m m' (2 + n.toNat / 32768) (n.toNat % 32768 / 8) (n.toNat % 8) ∧
        m'.globals = { m.globals with superblock := countBlock n m.globals.superblock } := by
  refine runs_getSuperblock.bind ?_
  rintro sb m ⟨rfl, rfl⟩
  have hbits : bitsPerBlock = 32768 := by decide
  have hstart : (2 : UInt32).toNat = 2 := rfl
  simp only [h.layout.blockMapStartBlock, h.layout.blockMapSize, hbits,
    show (98304 : UInt32).toNat / 32768 = 3 by decide]
  set first := m.globals.superblock.blockFreeMin.toNat / 32768
  refine (runs_allocLoop h.sound hT (hmem (by decide)) ?_).mono (fun _ _ he => he) ?_
  · intro i' hi hi'
    rw [hstart]
    have : i' = 0 ∨ i' = 1 ∨ i' = 2 := by omega
    rcases this with rfl | rfl | rfl <;> exact ⟨by decide, hmem (by decide)⟩
  · rintro n m' ⟨i', j, k, hi, hi', hj, hk, rfl, hev, htook, hg⟩
    rw [hstart] at hev htook
    have hj' : j < 4096 := hj
    have hn : (UInt32.ofNat (i' * bitsPerBlock + j * 8 + k)).toNat = i' * 32768 + j * 8 + k := by
      rw [hbits, UInt32.toNat_ofNat']
      omega
    rw [hn, show (i' * 32768 + j * 8 + k) / 32768 = i' by omega,
      show (i' * 32768 + j * 8 + k) % 32768 / 8 = j by omega,
      show (i' * 32768 + j * 8 + k) % 8 = k by omega]
    exact ⟨by rw [maxBlockNum_eq]; omega, hev, htook, hg⟩

theorem runs_inodeAlloc (h : Ready m) (hT : T.card ≤ cacheSize) (hmem : inodeMapArea ⊆ T) :
    Runs inodeAlloc m (fun e m' => e = .noInode ∧ m'.recycled = false) fun n m' =>
      n.toNat < maxInodeNum ∧ Evolves T T {0, 1} m m' ∧
        Took m m' 1 (n.toNat / 8) (n.toNat % 8) ∧
        m'.globals = { m.globals with superblock := countInode n m.globals.superblock } := by
  refine runs_getSuperblock.bind ?_
  rintro sb m ⟨rfl, rfl⟩
  have hbits : bitsPerBlock = 32768 := by decide
  have hstart : (1 : UInt32).toNat = 1 := rfl
  simp only [h.layout.inodeMapStartBlock, h.layout.inodeMapSize, hbits,
    show (32768 : UInt32).toNat / 32768 = 1 by decide]
  set first := m.globals.superblock.inodeFreeMin.toNat / 32768
  refine (runs_allocLoop h.sound hT (hmem (by decide)) ?_).mono (fun _ _ he => he) ?_
  · intro i' hi hi'
    rw [hstart, show i' = 0 by omega]
    exact ⟨by decide, hmem (by decide)⟩
  · rintro n m' ⟨i', j, k, hi, hi', hj, hk, rfl, hev, htook, hg⟩
    obtain rfl : i' = 0 := by omega
    rw [hstart] at hev htook
    have hj' : j < 4096 := hj
    have hn : (UInt32.ofNat (0 * bitsPerBlock + j * 8 + k)).toNat = j * 8 + k := by
      rw [hbits, UInt32.toNat_ofNat']
      omega
    rw [hn, show (j * 8 + k) / 8 = j by omega, show (j * 8 + k) % 8 = k by omega]
    exact ⟨by rw [show maxInodeNum = 32768 by decide]; omega, hev, htook, hg⟩

/-- Block `n` is marked in the bit map, both as it shows and as it settles. -/
def Marked (m : Machine Bytes Globals) (n : Nat) : Prop :=
  ∀ d, d = visible m (2 + n / 32768) ∨ d = settled m (2 + n / 32768) → bit d (n % 32768) = true

theorem Marked.evolves {n : Nat} (h : Marked m n) (hev : Evolves T T' W m m')
    (hn : n < maxBlockNum) (hW : 2 + n / 32768 ∉ W) : Marked m' n := by
  rw [maxBlockNum_eq] at hn
  have hlt : 2 + n / 32768 < maxBlockNum := by
    rw [maxBlockNum_eq]
    omega
  intro d hd
  refine h d ?_
  rcases hd with rfl | rfl
  · exact hev.visible_or _ hlt hW
  · exact Or.inr (hev.settled_eq _ hlt hW)

theorem marked_of_took {n x : Nat} (hx : x < maxBlockNum)
    (hev : Evolves T T' {0, 2 + n / 32768} m m')
    (htook : Took m m' (2 + n / 32768) (n % 32768 / 8) (n % 8)) (h : Marked m x ∨ x = n) :
    Marked m' x := by
  by_cases hy : x / 32768 = n / 32768
  · obtain ⟨d, hd, -, hv⟩ := htook.visible_eq (by omega)
    intro d' hd'
    have hd'' : d' = setBit d (n % 32768 / 8) (n % 8) := by
      rw [hy, ← htook.settled, or_self] at hd'
      rw [hd', hv]
    rw [hd'', bit_setBit (by omega)]
    rcases h with h | rfl
    · rw [h d (by rw [hy]; exact hd), Bool.or_true]
    · rw [decide_eq_true (by omega), Bool.true_or]
  · rcases h with h | rfl
    · exact h.evolves hev hx (by simp; omega)
    · exact absurd rfl hy

theorem Took.not_marked {n : Nat} (h : Took m m' (2 + n / 32768) (n % 32768 / 8) (n % 8)) :
    ¬Marked m n := by
  intro hmarked
  obtain ⟨d, hd, hclear, -⟩ := h.visible_eq (by omega)
  rw [show 8 * (n % 32768 / 8) + n % 8 = n % 32768 by omega, hmarked d hd] at hclear
  cases hclear

/-- What giving back a number of block `y` of a bit map does. -/
structure Gave (m m' : Machine Bytes Globals) (y j k : Nat) : Prop where
  settled_zero : Settled m' 0
  settled : Settled m' y
  visible_eq : y ≠ 0 → ∃ d, (d = visible m y ∨ d = BlockObject.settled m y) ∧
    bit d (8 * j + k) = true ∧ visible m' y = clearBit d j k

theorem bit_of_and_ne_zero {d : Bytes} {j k : Nat} (hk : k < 8) :
    bit d (8 * j + k) = decide (d j &&& 1 <<< UInt8.ofNat k ≠ 0) := by
  rw [bit, show (8 * j + k) / 8 = j by omega, show (8 * j + k) % 8 = k by omega]
  cases hbit : (d j).toNat.testBit k with
  | false => simp [(and_one_shiftLeft_eq_zero _ hk).mpr hbit]
  | true => simp [and_one_shiftLeft_eq_zero _ hk, hbit]

theorem runs_freeNumber {mapStart number : UInt32} {limit : Nat}
    {account : UInt32 → SuperBlock → SuperBlock} {y j k : Nat} (h : Sound m)
    (hT : T.card ≤ cacheSize) (h0 : 0 ∈ T)
    (hy : y = mapStart.toNat + number.toNat / bitsPerBlock)
    (hj : j = number.toNat % bitsPerBlock / 8) (hk : k = number.toNat % 8)
    (hlimit : number.toNat < limit → y < maxBlockNum ∧ y ∈ T) :
    Runs (freeNumber mapStart limit account number) m
      (fun e m' => e = .notAllocated ∧ m'.recycled = false ∧ (number.toNat < limit →
        ∃ d, (d = visible m y ∨ d = settled m y) ∧ bit d (8 * j + k) = false)) fun _ m' =>
      number.toNat < limit ∧ Evolves T T {0, y} m m' ∧ Gave m m' y j k ∧
        m'.globals = { m.globals with superblock := account number m.globals.superblock } := by
  have hk8 : k < 8 := by omega
  unfold freeNumber
  refine runs_bind (runs_assert (fun hfalse => ⟨rfl, h.recycled, fun hlt =>
    absurd hlt (by simpa using hfalse)⟩) fun htrue => ?_)
  have hnumber : number.toNat < limit := by simpa using htrue
  obtain ⟨hlt, hmem⟩ := hlimit hnumber
  have hsmall : (mapStart + UInt32.ofNat (number.toNat / bitsPerBlock)).toNat = y := by
    rw [maxBlockNum_eq] at hlt
    rw [toNat_add_ofNat (by omega), hy]
  simp only [hsmall, ← hj, ← hk]
  refine runs_open_load h hT hmem (fun hle => absurd hle (by omega))
    fun block m₁ hid hfresh hev₁ hg₁ => ?_
  have hshown := hev₁.visible_or y hlt (Set.notMem_empty _)
  have hbit := bit_of_and_ne_zero (d := visible m₁ y) (j := j) hk8
  refine runs_bind (runs_assert (fun hfalse => ⟨rfl, hev₁.sound.recycled, fun _ =>
    ⟨visible m₁ y, hshown, hbit.trans hfalse⟩⟩) fun htrue => ?_)
  refine runs_store_update hev₁.sound hfresh (hid ▸ hlt) fun m₂ hev₂ hv₂ hs₂ hg₂ => ?_
  rw [hid] at hev₂ hv₂ hs₂
  refine (runs_modifyGlobals hev₂.sound _ (T := T)).bind ?_
  rintro _ m₃ ⟨hev₃, hv₃, hs₃, hg₃⟩
  refine (runs_flushSuperblock hev₃.sound hT h0).mono (fun _ _ he => he) ?_
  rintro _ m₄ ⟨hev₄, hg₄, hs₄, -⟩
  have hs₃' : Settled m₃ y := by
    unfold Settled
    rw [hv₃, hs₃]
    exact hs₂
  refine ⟨hnumber, (hev₁.mono (Set.empty_subset _)).trans ((hev₂.mono
    (Set.singleton_subset_iff.mpr (Or.inr rfl))).trans ((hev₃.mono
    (Set.empty_subset _)).trans (hev₄.mono (Set.singleton_subset_iff.mpr (Or.inl rfl))))),
    ⟨hs₄, ?_, ?_⟩, by rw [hg₄, hg₃, hg₂, hg₁]⟩
  · by_cases hy0 : y = 0
    · rw [hy0]
      exact hs₄
    · exact hev₄.settled_of_settled hlt hy0 hs₃'
  · intro hy0
    refine ⟨visible m₁ y, hshown, hbit.trans htrue, ?_⟩
    rw [hev₄.visible_of_settled hlt hy0 hs₃', hv₃, hv₂]

def discountBlock (number : UInt32) (sb : SuperBlock) : SuperBlock :=
  { sb with
    blockAllocated := sb.blockAllocated - 1
    blockFreeMin := if number < sb.blockFreeMin then number else sb.blockFreeMin }

def discountInode (number : UInt32) (sb : SuperBlock) : SuperBlock :=
  { sb with
    inodeAllocated := sb.inodeAllocated - 1
    inodeFreeMin := if number < sb.inodeFreeMin then number else sb.inodeFreeMin }

/-! The layout stays as numbers are counted. -/

theorem Layout.countBlock {sb : SuperBlock} (h : Layout sb) (n : UInt32) :
    Layout (countBlock n sb) := ⟨h.1, h.2, h.3, h.4, h.5, h.6⟩

theorem Layout.countInode {sb : SuperBlock} (h : Layout sb) (n : UInt32) :
    Layout (countInode n sb) := ⟨h.1, h.2, h.3, h.4, h.5, h.6⟩

theorem Layout.discountBlock {sb : SuperBlock} (h : Layout sb) (n : UInt32) :
    Layout (discountBlock n sb) := ⟨h.1, h.2, h.3, h.4, h.5, h.6⟩

theorem Layout.discountInode {sb : SuperBlock} (h : Layout sb) (n : UInt32) :
    Layout (discountInode n sb) := ⟨h.1, h.2, h.3, h.4, h.5, h.6⟩

theorem runs_blockFree {n : UInt32} (h : Ready m) (hT : T.card ≤ cacheSize)
    (hmem : blockMapArea ⊆ T) :
    Runs (blockFree n) m
      (fun e m' => e = .notAllocated ∧ m'.recycled = false ∧ (n.toNat < maxBlockNum →
        ∃ d, (d = visible m (2 + n.toNat / 32768) ∨ d = settled m (2 + n.toNat / 32768)) ∧
          bit d (n.toNat % 32768) = false)) fun _ m' =>
      n.toNat < maxBlockNum ∧ Evolves T T {0, 2 + n.toNat / 32768} m m' ∧
        Gave m m' (2 + n.toNat / 32768) (n.toNat % 32768 / 8) (n.toNat % 8) ∧
        m'.globals = { m.globals with superblock := discountBlock n m.globals.superblock } := by
  refine runs_getSuperblock.bind ?_
  rintro sb m ⟨rfl, rfl⟩
  rw [h.layout.blockMapStartBlock]
  refine (runs_freeNumber h.sound hT (hmem (by decide)) rfl rfl rfl ?_).mono ?_ ?_
  · intro hlt
    have hbits : bitsPerBlock = 32768 := by decide
    rw [maxBlockNum_eq] at hlt ⊢
    rw [hbits, show (2 : UInt32).toNat = 2 from rfl]
    have : n.toNat / 32768 = 0 ∨ n.toNat / 32768 = 1 ∨ n.toNat / 32768 = 2 := by omega
    rcases this with hi | hi | hi <;> rw [hi] <;> exact ⟨by omega, hmem (by decide)⟩
  · rintro e m' ⟨he, hr, hbit⟩
    refine ⟨he, hr, fun hlt => ?_⟩
    obtain ⟨d, hd, hclear⟩ := hbit hlt
    have hbits : bitsPerBlock = 32768 := by decide
    rw [hbits, show 8 * (n.toNat % 32768 / 8) + n.toNat % 8 = n.toNat % 32768 by omega] at hclear
    exact ⟨d, hd, hclear⟩
  · rintro _ m' ⟨hlt, hev, hgave, hg⟩
    exact ⟨hlt, hev, hgave, hg⟩

theorem runs_inodeFree {n : UInt32} (h : Ready m) (hT : T.card ≤ cacheSize)
    (hmem : inodeMapArea ⊆ T) :
    Runs (inodeFree n) m
      (fun e m' => e = .notAllocated ∧ m'.recycled = false ∧ (n.toNat < maxInodeNum →
        ∃ d, (d = visible m 1 ∨ d = settled m 1) ∧ bit d n.toNat = false)) fun _ m' =>
      n.toNat < maxInodeNum ∧ Evolves T T {0, 1} m m' ∧ Gave m m' 1 (n.toNat / 8) (n.toNat % 8) ∧
        m'.globals = { m.globals with superblock := discountInode n m.globals.superblock } := by
  refine runs_getSuperblock.bind ?_
  rintro sb m ⟨rfl, rfl⟩
  rw [h.layout.inodeMapStartBlock]
  have hbits : bitsPerBlock = 32768 := by decide
  have hmax : maxInodeNum = 32768 := by decide
  have hy : n.toNat < maxInodeNum → (1 : UInt32).toNat + n.toNat / bitsPerBlock = 1 ∧
      n.toNat % bitsPerBlock / 8 = n.toNat / 8 := by
    intro hlt
    rw [hbits, show (1 : UInt32).toNat = 1 from rfl]
    omega
  refine (runs_freeNumber h.sound hT (hmem (by decide)) rfl rfl rfl ?_).mono ?_ ?_
  · intro hlt
    rw [(hy hlt).1]
    exact ⟨by decide, hmem (by decide)⟩
  · rintro e m' ⟨he, hr, hbit⟩
    refine ⟨he, hr, fun hlt => ?_⟩
    obtain ⟨d, hd, hclear⟩ := hbit hlt
    rw [(hy hlt).1] at hd
    rw [(hy hlt).2, show 8 * (n.toNat / 8) + n.toNat % 8 = n.toNat by omega] at hclear
    exact ⟨d, hd, hclear⟩
  · rintro _ m' ⟨hlt, hev, hgave, hg⟩
    rw [(hy hlt).1] at hev hgave
    rw [(hy hlt).2] at hgave
    exact ⟨hlt, hev, hgave, hg⟩

theorem inodeBlock_eq {sb : SuperBlock} (h : Layout sb) (ino : UInt32) :
    inodeBlock sb ino = 5 + ino.toNat / 64 := by
  have := ino.toNat_lt
  have h64 : inodePerBlock = 64 := by decide
  rw [inodeBlock, h.inodeStartBlock, h64, toNat_add_ofNat]
  · rfl
  · rw [show (5 : UInt32).toNat = 5 from rfl]
    omega

theorem inodeBlock_small (ino : UInt32) : 5 + ino.toNat / 64 < 2 ^ 28 := by
  have := ino.toNat_lt
  omega

theorem inodePosition_eq (ino : UInt32) : inodePosition ino = 64 * (ino.toNat % 64) := by
  rw [inodePosition, show inodePerBlock = 64 by decide, inodeSize]

theorem runs_readInode {ino : UInt32} (h : Ready m) (hT : T.card ≤ cacheSize)
    (hmem : 5 + ino.toNat / 64 ∈ T) (hE : maxBlockNum ≤ 5 + ino.toNat / 64 → E .sector m) :
    Runs (readInode ino) m E fun n m' =>
      Evolves T T ∅ m m' ∧ m'.globals = m.globals ∧ 5 + ino.toNat / 64 < maxBlockNum ∧
        n = Inode.ofBytes (visible m' (5 + ino.toNat / 64)) (64 * (ino.toNat % 64)) := by
  refine runs_getSuperblock.bind ?_
  rintro sb m ⟨rfl, rfl⟩
  simp only [inodeBlock_eq h.layout, inodePosition_eq]
  refine runs_open_load h.sound hT hmem hE fun block m₁ hid hfresh hev₁ hg₁ => ?_
  have hlt := hev₁.tracked.fresh_lt hfresh (hid ▸ inodeBlock_small ino)
  exact runs_pure ⟨hev₁, hg₁, hid ▸ hlt, rfl⟩

theorem runs_writeInode {ino : UInt32} {n : Inode} (h : Ready m) (hT : T.card ≤ cacheSize)
    (hmem : 5 + ino.toNat / 64 ∈ T) (hE : maxBlockNum ≤ 5 + ino.toNat / 64 → E .sector m) :
    Runs (writeInode ino n) m E fun _ m' =>
      Evolves T T {5 + ino.toNat / 64} m m' ∧ m'.globals = m.globals ∧
        5 + ino.toNat / 64 < maxBlockNum ∧ Settled m' (5 + ino.toNat / 64) ∧
        ∃ d, (d = visible m (5 + ino.toNat / 64) ∨ d = settled m (5 + ino.toNat / 64)) ∧
          visible m' (5 + ino.toNat / 64) = copy d (64 * (ino.toNat % 64)) n.toBytes 0 64 := by
  refine runs_getSuperblock.bind ?_
  rintro sb m ⟨rfl, rfl⟩
  simp only [inodeBlock_eq h.layout, inodePosition_eq]
  refine runs_open_load h.sound hT hmem hE fun block m₁ hid hfresh hev₁ hg₁ => ?_
  have hlt := hev₁.tracked.fresh_lt hfresh (hid ▸ inodeBlock_small ino)
  refine (runs_store hev₁.sound hfresh _).bind ?_
  rintro _ m₂ ⟨hev₂, hv₂, hg₂⟩
  refine (runs_update hev₂.sound (hev₂.fresh _ hfresh) hlt).mono (fun _ _ he => he) ?_
  rintro _ m₃ ⟨hev₃, hv₃, hs₃, hg₃⟩
  rw [hid] at hlt hev₂ hv₂ hev₃ hv₃ hs₃
  exact ⟨(hev₁.mono (Set.empty_subset _)).trans (hev₂.trans hev₃), by rw [hg₃, hg₂, hg₁], hlt,
    hs₃, _, hev₁.visible_or _ hlt (Set.notMem_empty _), by rw [hv₃, hv₂]; rfl⟩

end LabKernel.FsPrimitives
