import LabKernel.DirectoryCalls
import LabKernel.BlockFreeing

/-!
The tables right after `fs_mkfs`, on whatever disk.
-/

namespace LabKernel.Formatting

open LabKernel.BlockCache
open LabKernel.BlockFreeing
open LabKernel.BlockObject
open LabKernel.BlockOwnership
open LabKernel.ByteMemory
open LabKernel.CacheCoherence
open LabKernel.CallSafety
open LabKernel.DirectData
open LabKernel.Directories
open LabKernel.DirectoryCalls
open LabKernel.FsCode
open LabKernel.FsLayout
open LabKernel.FsPrimitives
open LabKernel.FsRuns
open LabKernel.FsTables
open LabKernel.ProgramLogic

variable {m m' : Machine Bytes Globals} {s s' : FsState}
  {E : Failure → Machine Bytes Globals → Prop}

/-- A sound machine whose tables are settled, whatever they hold. -/
structure TablesSettled (m : Machine Bytes Globals) : Prop where
  sound : Sound m
  settled : ∀ x < 517, Settled m x

theorem lt_maxBlockNum {x : Nat} (hx : x < 517) : x < maxBlockNum :=
  hx.trans (by rw [maxBlockNum_eq]; decide)

theorem tablesSettled_boot {c : Cache Bytes} (g : Globals) (hc : 0 ≤ c.age) :
    TablesSettled (boot c g) := by
  refine ⟨sound_boot g hc, fun x hx => ?_⟩
  unfold Settled visible settled
  split
  next i hlookup =>
    have hid : ((boot c g).cache.slots i).blockid = x := (lookupFrom_eq_some hlookup).2.2.1
    exact absurd hid.symm (ne_freeId (lt_maxBlockNum hx))
  next => rfl

theorem writeBlock_settled {α : Type} {x : Nat} {d : Bytes} {p : Fs α}
    {Q : α → Machine Bytes Globals → Prop} (h : TablesSettled m) (hx : x < 517)
    (hp : ∀ m', TablesSettled m' → visible m' x = d →
      (∀ y < 517, y ≠ x → visible m' y = visible m y) → m'.globals = m.globals →
        Runs p m' E Q) :
    Runs (do let b ← openBlock x; b.store d; b.update; p) m E Q := by
  refine (runs_openBlock h.sound (T := {x}) (by simp [cacheSize]) (Finset.mem_singleton_self x)
    fun hle => absurd hle (not_le.mpr (lt_maxBlockNum hx))).bind ?_
  rintro b m₁ ⟨hid, hfresh, hev₁, hg₁⟩
  refine runs_store_update hev₁.sound hfresh (hid ▸ lt_maxBlockNum hx) fun m₂ hev₂ hv₂ hs₂ hg₂ => ?_
  rw [hid] at hev₂ hv₂ hs₂
  have hkeep : ∀ y < 517, y ≠ x → visible m₂ y = visible m y ∧ Settled m₂ y := by
    intro y hy hne
    have hlt := lt_maxBlockNum hy
    have hs₁ := hev₁.settled_of_settled hlt (Set.notMem_empty _) (h.settled y hy)
    have hv₁ := hev₁.visible_of_settled hlt (Set.notMem_empty _) (h.settled y hy)
    exact ⟨(hev₂.visible_of_settled hlt hne hs₁).trans hv₁, hev₂.settled_of_settled hlt hne hs₁⟩
  refine hp m₂ ⟨hev₂.sound, fun y hy => ?_⟩ hv₂ (fun y hy hne => (hkeep y hy hne).1)
    (hg₂.trans hg₁)
  rcases eq_or_ne y x with rfl | hne
  · exact hs₂
  · exact (hkeep y hy hne).2

theorem clearBlocks_settled {start : UInt32} {left i : Nat} (h : TablesSettled m)
    (hlt : start.toNat + i + left ≤ 517) :
    Runs (clearBlocks start left i) m E fun _ m' => TablesSettled m' ∧ m'.globals = m.globals ∧
      ∀ y < 517, visible m' y =
        if start.toNat + i ≤ y ∧ y < start.toNat + i + left then zeros else visible m y := by
  induction left generalizing m i with
  | zero =>
      refine runs_pure ⟨h, rfl, fun y _ => ?_⟩
      rw [if_neg (by omega)]
  | succ left ih =>
      have hsmall : (start + UInt32.ofNat i).toNat = start.toNat + i :=
        toNat_add_ofNat (by omega)
      have hx : start.toNat + i < 517 := by omega
      simp only [clearBlocks, hsmall]
      refine writeBlock_settled h hx fun m₁ h₁ hv₁ hkeep₁ hg₁ => ?_
      refine (ih (i := i + 1) h₁ (by omega)).mono (fun _ _ he => he) ?_
      rintro _ m₂ ⟨h₂, hg₂, hv₂⟩
      refine ⟨h₂, hg₂.trans hg₁, fun y hy => ?_⟩
      rw [hv₂ y hy]
      rcases eq_or_ne y (start.toNat + i) with rfl | hne
      · rw [if_neg (by omega), if_pos (by omega), hv₁]
      · rw [hkeep₁ y hy hne]
        split
        next => rw [if_pos (by omega)]
        next => rw [if_neg (by omega)]

theorem bit_zeros (b : Nat) : bit zeros b = false := by
  simp [bit, zeros]

theorem bit_markFirst (d : Bytes) (n b : Nat) :
    bit (markFirst d n) b = (decide (b < n) || bit d b) := by
  induction n with
  | zero => simp [markFirst]
  | succ n ih =>
      rw [markFirst, bit_setBit (by omega), ih, ← Bool.or_assoc,
        show 8 * (n / 8) + n % 8 = n by omega]
      congr 1
      rw [← Bool.decide_or, decide_eq_decide]
      omega

/-- The tables with empty bit maps, apart from the blocks of the tables. -/
def cleared (m : Machine Bytes Globals) : FsState where
  blockUsed n := decide (n < 517)
  inodeUsed _ := false
  inode := inodeAt m
  data _ := none
  cwd := m.globals.cwdNode
  files := m.globals.files
  blockDrift := m.globals.superblock.blockAllocated -
    marked (fun n => decide (n < 517)) maxBlockNum
  inodeDrift := m.globals.superblock.inodeAllocated - marked (fun _ => false) maxInodeNum

theorem counted_cleared (m : Machine Bytes Globals) : Counted m.globals.superblock (cleared m) :=
  ⟨(UInt32.sub_add_cancel _ _).symm, (UInt32.sub_add_cancel _ _).symm⟩

theorem clearMaps_realizes (h : TablesSettled m) (hlayout : Layout m.globals.superblock) :
    Runs clearMaps m E fun _ m' => Realizes m' (cleared m') ∧ m'.globals = m.globals ∧
      visible m' 1 = zeros := by
  have hbits : bitsPerBlock = 32768 := by decide
  have hmax := maxBlockNum_eq
  unfold clearMaps
  refine runs_getSuperblock.bind ?_
  rintro sb m ⟨rfl, rfl⟩
  simp only [hlayout.inodeMapStartBlock, hlayout.inodeMapSize, hlayout.blockMapStartBlock,
    hlayout.blockMapSize, hlayout.blockStartBlock, hbits]
  refine (clearBlocks_settled h (by decide)).bind ?_
  rintro _ m₁ ⟨h₁, hg₁, hv₁⟩
  refine writeBlock_settled h₁ (by decide) fun m₂ h₂ hv₂ hkeep₂ hg₂ => ?_
  refine (clearBlocks_settled h₂ (by decide)).mono (fun _ _ he => he) ?_
  rintro _ m₃ ⟨h₃, hg₃, hv₃⟩
  have hg : m₃.globals = m.globals := hg₃.trans (hg₂.trans hg₁)
  -- What the four blocks of the bit maps show.
  have hshown1 : visible m₃ 1 = zeros := by
    rw [hv₃ 1 (by decide), if_neg (by decide), hkeep₂ 1 (by decide) (by decide),
      hv₁ 1 (by decide), if_pos (by decide)]
  have hshown2 : visible m₃ 2 = markFirst zeros 517 := by
    rw [hv₃ 2 (by decide), if_neg (by decide)]
    exact hv₂
  have hshown : ∀ x, x = 3 ∨ x = 4 → visible m₃ x = zeros := by
    rintro x (rfl | rfl) <;> rw [hv₃ _ (by decide), if_pos (by decide)]
  refine ⟨⟨⟨h₃.sound, hg.symm ▸ hlayout⟩, h₃.settled, ?_, ?_,
    fun _ _ => rfl, fun _ _ _ _ hd => (Option.some_ne_none _ hd.symm).elim, rfl, rfl,
    counted_cleared m₃⟩, hg, hshown1⟩
  · intro n hn
    rw [hmax] at hn
    simp only [blockBit, cleared]
    have hcases : n / 32768 = 0 ∨ n / 32768 = 1 ∨ n / 32768 = 2 := by omega
    rcases hcases with heq | heq | heq
    · rw [heq, hshown2, bit_markFirst, bit_zeros, Bool.or_false, decide_eq_decide]
      omega
    · rw [heq, hshown 3 (Or.inl rfl), bit_zeros, decide_eq_false (by omega)]
    · rw [heq, hshown 4 (Or.inr rfl), bit_zeros, decide_eq_false (by omega)]
  · intro k _
    rw [inodeBit, hshown1, bit_zeros]
    rfl

theorem runs_any_bind {α γ : Type} {p : Fs α} {f : α → Fs γ} {Q : γ → Machine Bytes Globals → Prop}
    (h : ∀ a m', Runs (f a) m' Any Q) : Runs (p >>= f) m Any Q := by
  refine runs_bind ((runs_self p m).mono (fun _ _ _ => trivial) fun a m' _ => h a m')

theorem inodeAlloc_first (h : Realizes m s) (hfirst : m.globals.superblock.inodeFreeMin = 0)
    (hempty : visible m 1 = zeros) : Runs inodeAlloc m Any fun ino _ => ino = 0 := by
  have hbits : bitsPerBlock = 32768 := by decide
  have hfind : findClear zeros blockSize 0 = some (0, 0) := by decide
  refine runs_getSuperblock.bind ?_
  rintro sb m ⟨rfl, rfl⟩
  simp only [h.ready.layout.inodeMapStartBlock, h.ready.layout.inodeMapSize, hfirst, hbits]
  rw [show (32768 : UInt32).toNat / 32768 - (0 : UInt32).toNat / 32768 = 1 by decide,
    show (0 : UInt32).toNat / 32768 = 0 by decide, allocLoop]
  refine runs_open_load h.ready.sound (T := {1}) (by decide) (by decide) (fun _ => trivial)
    fun block m₁ hid hfresh hev hg => ?_
  have hshown : visible m₁ ((1 : UInt32) + UInt32.ofNat 0).toNat = zeros := by
    rw [show ((1 : UInt32) + UInt32.ofNat 0).toNat = 1 by decide]
    rw [hev.visible_of_settled (by decide) (Set.notMem_empty _) (h.settled 1 (by omega)), hempty]
  rw [hshown, hfind]
  exact runs_any_bind fun _ _ => runs_any_bind fun _ _ => runs_any_bind fun _ _ =>
    runs_any_bind fun _ _ => runs_pure rfl

theorem flushSuperblock_realizes (h : Realizes m s) :
    Runs flushSuperblock m E fun _ m' => Realizes m' s := by
  refine (runs_flushSuperblock h.ready.sound (T := {0}) (by decide) (by decide)).mono
    (fun _ _ he => he) ?_
  rintro _ m' ⟨hev, hg, hs, -⟩
  refine realizes_of_evolves h hev ⟨hev.sound, hg.symm ▸ h.ready.layout⟩ ?_ ?_ (fun _ _ _ => rfl)
    ?_ (fun _ _ _ => rfl) ?_ (fun _ _ _ => rfl) ?_ (fun _ _ _ _ hd => hd) (hg.symm ▸ h.cwd)
    (hg.symm ▸ h.files) (hg.symm ▸ h.counted)
  · rintro x rfl _
    exact hs
  · intro n _ hmem
    simp only [Set.mem_singleton_iff] at hmem
    omega
  · intro k _ hmem
    simp only [Set.mem_singleton_iff] at hmem
    omega
  · intro k _ hmem
    simp only [Set.mem_singleton_iff] at hmem
    omega
  · rintro x rfl hle
    omega

/-- The root directory of a new file system, before and after it gets its
block. -/
def emptyRoot : Inode := { Inode.empty with type := 1, linkCnt := 65535 }
def rootInode (p : UInt32) : Inode := setDirect emptyRoot 0 p

/-- The tables of a new file system whose root directory has block `p`. -/
structure Initial (s : FsState) (p : UInt32) : Prop where
  standing : Standing s
  cwd : s.cwd = 0
  files : s.files = []
  inodeUsed : ∀ k, s.inodeUsed k = decide (k = 0)
  here : s.here = rootInode p
  slot_eq : ∀ q, slot s s.here q =
    if q = 0 then some ⟨0, 1, dot⟩ else if q = 1 then some ⟨0, 1, dotDot⟩ else none

theorem entryOf_dotEntries (self parent : UInt32) (j : Nat) :
    entryOf (copy zeros 0 (dotEntries self parent) 0 64) j =
      if j = 0 then some ⟨self, 1, dot⟩ else if j = 1 then some ⟨parent, 1, dotDot⟩ else none := by
  have hread : ∀ (e : DirEntry) (j₀ : Nat), NameOk e.name → e.valid ≠ 0 →
      (∀ i < 32, copy zeros 0 (dotEntries self parent) 0 64 (32 * j₀ + i) = e.toBytes i) →
      entryOf (copy zeros 0 (dotEntries self parent) 0 64) j₀ = some e := by
    intro e j₀ hname hvalid hbytes
    have hself : DirEntry.ofBytes (copy zeros 0 (dotEntries self parent) 0 64) j₀ = e := by
      refine Eq.trans (DirEntry.ofBytes_congr fun i hi => ?_) (DirEntry.ofBytes_toBytes e hname)
      rw [hbytes i hi, Nat.mul_zero, Nat.zero_add]
    rw [entryOf, hself, if_pos hvalid]
  have hok : NameOk dot ∧ NameOk dotDot := by
    simp [NameOk, dot, dotDot, nameSize]
  split
  next heq =>
    refine hread _ j hok.1 (by simp) fun i hi => ?_
    rw [copy_inside (by omega) (by omega), dotEntries, copy_outside (Or.inl ?_)]
    · congr 1
      omega
    · rw [dirEntrySize]
      omega
  next hne =>
    split
    next heq =>
      refine hread _ j hok.2 (by simp) fun i hi => ?_
      rw [copy_inside (by omega) (by omega), dotEntries, dirEntrySize,
        copy_inside (by omega) (by omega)]
      congr 1
      omega
    next hne' =>
      have hzeros : DirEntry.ofBytes (copy zeros 0 (dotEntries self parent) 0 64) j =
          DirEntry.ofBytes zeros j :=
        DirEntry.ofBytes_congr fun i hi => copy_outside (by omega)
      rw [← entryOf_zeros j, entryOf, entryOf, hzeros]

/-- The tables before the block of the root directory is written. -/
def rooted (s : FsState) : FsState := (s.setInodeUsed 0 true).setInode 0 emptyRoot

theorem rooted_inode (s : FsState) : (rooted s).inode 0 = emptyRoot := by
  rw [rooted, FsState.setInode_inode, Function.update_self]

theorem live_rooted (s : FsState) : Live (rooted s) 0 := by
  refine ⟨by decide, ?_⟩
  rw [rooted, FsState.setInode_inodeUsed, FsState.setInodeUsed_inodeUsed, Function.update_self]

theorem direct_emptyRoot (i : Nat) : direct emptyRoot i = 0 := by
  unfold direct
  split <;> rfl

theorem here_of_cwd (hcwd : s.cwd = 0) : s.here = s.inode 0 := by
  rw [FsState.here, hcwd]
  rfl

theorem standing_rooted (hcwd : s.cwd = 0) (htables : TablesUsed s)
    (hnone : ∀ k, s.inodeUsed k = false) : Standing (rooted s) := by
  have howned : Owned s := by
    have hdead : ∀ k, ¬Live s k := fun k hk => by
      have hused := hk.2
      rw [hnone k] at hused
      cases hused
    exact ⟨htables, fun k hk => absurd hk (hdead k), fun k hk => absurd hk (hdead k),
      fun k _ hk => absurd hk (hdead k)⟩
  have hcwd' : (rooted s).cwd = 0 := hcwd
  have hhere : (rooted s).here = emptyRoot := (here_of_cwd hcwd').trans (rooted_inode s)
  refine ⟨?_, ?_, ?_, by rw [hhere]; rfl⟩
  · refine howned.newInode (k := 0) fun r => ?_
    cases r <;> rfl
  · rw [hcwd']
    exact live_rooted s
  · intro i hi
    rw [hhere, direct_emptyRoot] at hi
    exact absurd rfl hi

theorem initial_of_pointed {p : UInt32} (hcwd : s.cwd = 0) (htables : TablesUsed s)
    (hnone : ∀ k, s.inodeUsed k = false) (hfiles : s.files = []) (hp : IsData p)
    (hfree : s.blockUsed p.toNat = false) :
    Initial (((((rooted s).setBlockUsed p.toNat true).setData p.toNat none).setData p.toNat
      (some (copy zeros 0 (dotEntries 0 0) 0 64))).setInode 0 (rootInode p)) p := by
  have hstanding := standing_rooted hcwd htables hnone
  set s' := ((((rooted s).setBlockUsed p.toNat true).setData p.toNat none).setData p.toNat
    (some (copy zeros 0 (dotEntries 0 0) 0 64))).setInode 0 (rootInode p) with hs'
  have hcwd' : s'.cwd = 0 := hcwd
  have hroot : s'.here = rootInode p := by
    rw [here_of_cwd hcwd', hs', FsState.setInode_inode, Function.update_self]
  have hdata : s'.data p.toNat = some (copy zeros 0 (dotEntries 0 0) 0 64) :=
    Function.update_self ..
  have hdirect : ∀ i, direct s'.here i = if i = 0 then p else 0 := by
    intro i
    rw [hroot, rootInode, direct_setDirect (by omega), direct_emptyRoot]
  have hpne : p ≠ 0 := ne_zero_of_isData hp
  have hslot : ∀ q, slot s' s'.here q =
      if q = 0 then some ⟨0, 1, dot⟩ else if q = 1 then some ⟨0, 1, dotDot⟩ else none := by
    intro q
    rcases eq_or_ne (q / 128) 0 with hblock | hblock
    · have hpointer : direct s'.here (q / 128) = p := by rw [hdirect, if_pos hblock]
      rw [slot_of_data (by rw [hpointer]; exact hpne) (by rw [hpointer]; exact hdata),
        entryOf_dotEntries, show q % 128 = q by omega]
    · rw [slot_of_zero (by rw [hdirect, if_neg hblock]), if_neg (by omega), if_neg (by omega)]
  refine ⟨⟨?_, ?_, ?_, ?_⟩, hcwd', hfiles, ?_, hroot, hslot⟩
  · refine owned_of_pointed (i := 0) hstanding.owned (live_rooted s) (by omega) (.new ?_ hfree) hp
      fun r => ?_
    · rw [rooted_inode, direct_emptyRoot]
    · rw [rooted_inode]
      rfl
  · rw [hcwd']
    exact live_rooted s
  · intro i hi
    rw [hdirect] at hi ⊢
    split at hi
    next heq =>
      rw [if_pos heq]
      exact ⟨hp, _, hdata⟩
    next => exact absurd rfl hi
  · rw [hroot]
    rfl
  · intro k
    have hused : s'.inodeUsed k = Function.update s.inodeUsed 0 true k := rfl
    rw [hused, Function.update_apply]
    split
    next heq => rw [decide_eq_true heq]
    next hne => rw [decide_eq_false hne, hnone]

theorem makeRoot_realizes (h : Realizes m s) (htables : TablesUsed s)
    (hnone : ∀ k, s.inodeUsed k = false) (hfiles : s.files = [])
    (hfirst : m.globals.superblock.inodeFreeMin = 0) (hempty : visible m 1 = zeros) :
    Runs makeRoot m Any fun _ m' => ∃ s' p, Realizes m' s' ∧ Initial s' p := by
  have halloc : Runs inodeAlloc m Any fun ino m' =>
      ino = 0 ∧ Realizes m' (s.setInodeUsed 0 true) := by
    refine ((inodeAlloc_realizes h).and (inodeAlloc_first h hfirst hempty)).mono
      (fun _ _ _ => trivial) ?_
    rintro ino m' ⟨⟨-, -, h'⟩, rfl⟩
    exact ⟨rfl, h'⟩
  refine halloc.bind ?_
  rintro root m₁ ⟨rfl, h₁⟩
  refine (runs_modifyGlobals h₁.ready.sound _ (T := ∅)).bind ?_
  rintro _ m₂ ⟨hev₂, -, -, hg₂⟩
  refine (runs_modifyGlobals hev₂.sound _ (T := ∅)).bind ?_
  rintro _ m₃ ⟨hev₃, -, -, hg₃⟩
  set s₀ : FsState := { s with cwd := 0 } with hs₀
  have h₃ : Realizes m₃ (s₀.setInodeUsed 0 true) := by
    have hlayout := h₁.ready.layout
    refine h₁.evolves (hev₂.trans hev₃) ⟨hev₃.sound, ?_⟩ ?_ ?_ ?_ rfl
    · rw [hg₃, hg₂]
      exact ⟨hlayout.1, hlayout.2, hlayout.3, hlayout.4, hlayout.5, hlayout.6⟩
    · rw [hg₃]
      rfl
    · rw [hg₃, hg₂]
      exact h₁.files
    · rw [hg₃, hg₂]
      exact ⟨h₁.counted.blocks, h₁.counted.inodes⟩
  refine (flushSuperblock_realizes h₃).bind ?_
  intro _ m₄ h₄
  have hzero : (0 : UInt32).toNat < l0Bound := by decide
  have hindex : directIndex 0 hzero = 0 := rfl
  have halloc : Runs blockAlloc m₄ Any fun _ _ => True := runs_any _ m₄
  refine (inodeModifyData_write_realizes (A := fun _ _ => True) h₄ htables (by decide) hzero
    (fun hne => absurd rfl hne) fun _ => halloc).bind ?_
  rintro ⟨n, _, _⟩ m₅ ⟨s₅, d, p, hpointed, hp, hheld, hn, h₅, -⟩
  have hd : d = zeros := hheld.1 rfl
  rw [hd, show (0 : UInt32).toNat % blockSize = 0 by decide,
    show (UInt32.ofNat (2 * dirEntrySize)).toNat = 64 by decide] at h₅
  refine (writeInode_realizes h₅ (by decide)).bind ?_
  intro _ m₆ h₆
  have hroot : n = rootInode p := by
    simp only at hn
    rw [hn, grown_of_type_ne (by decide), hindex]
    simp only [rootInode, setDirect, emptyRoot, Inode.mk.injEq, and_self, and_true, true_and]
    funext i
    rw [Function.update_apply]
    exact if_congr Fin.ext_iff rfl rfl
  cases hpointed with
  | old hne => exact absurd rfl hne
  | new _ hfree =>
      refine runs_pure ⟨_, p, h₆, ?_⟩
      have hinitial := @initial_of_pointed s₀ p rfl htables hnone hfiles hp hfree
      have hsame : ((((rooted s₀).setBlockUsed p.toNat true).setData p.toNat none).setData p.toNat
          (some (copy zeros 0 (dotEntries 0 0) 0 64))).setInode 0 (rootInode p) =
          ((((s₀.setInodeUsed 0 true).setBlockUsed p.toNat true).setData p.toNat none).setData
            p.toNat (some (copy zeros 0 (dotEntries 0 0) 0 64))).setInode 0 (rootInode p) := by
        simp only [rooted, FsState.setInode, FsState.setData, FsState.setBlockUsed,
          FsState.setInodeUsed, Function.update_idem]
      rw [hsame, ← hroot] at hinitial
      exact hinitial

/-- `fs_mkfs` on a disk whose tables are settled: the bit maps are cleared, and
the root directory is made. -/
theorem runs_fsMkfs {Q : Int → Machine Bytes Globals → Prop} (h : TablesSettled m)
    (hroot : ∀ m', Realizes m' (cleared m') → visible m' 1 = zeros → m'.globals =
      { m.globals with superblock := mkfsSuperblock m.globals.superblock } →
        Runs makeRoot m' E Q) : Runs fsMkfs m E Q := by
  refine (runs_modifyGlobals h.sound _ (T := ∅)).bind ?_
  rintro _ m₁ ⟨hev₁, hv₁, hs₁, hg₁⟩
  have h₁ : TablesSettled m₁ := by
    refine ⟨hev₁.sound, fun x hx => ?_⟩
    unfold Settled
    rw [hv₁, hs₁]
    exact h.settled x hx
  have hlayout : Layout m₁.globals.superblock := by
    rw [hg₁]
    exact layout_mkfsSuperblock _
  refine (clearMaps_realizes h₁ hlayout).bind ?_
  rintro _ m₂ ⟨h₂, hg₂, hempty⟩
  exact hroot m₂ h₂ hempty (hg₂.trans hg₁)

theorem fsMkfs_realizes (h : TablesSettled m) (hfiles : m.globals.files = []) :
    Runs fsMkfs m Any fun _ m' => ∃ s p, Realizes m' s ∧ Initial s p := by
  refine runs_fsMkfs h fun m' h' hempty hg => ?_
  refine makeRoot_realizes h' (fun x hx => decide_eq_true hx) (fun _ => rfl) ?_ ?_ hempty
  · show m'.globals.files = []
    rw [hg]
    exact hfiles
  · rw [hg]
    rfl

theorem formatted_realizes (h : Formatted m) : ∃ s p, Realizes m s ∧ Initial s p := by
  obtain ⟨c, g, hage, hrun⟩ := h
  exact (fsMkfs_realizes (tablesSettled_boot g hage) rfl).ok hrun

end LabKernel.Formatting
