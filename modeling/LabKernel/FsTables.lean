import LabKernel.FsPrimitives
import Mathlib.Data.Nat.Count
import Mathlib.Tactic.Simps.Basic

/-!
The file system as a record of its tables, and what the functions on the
tables do to that record.

A machine realizes such a record when all blocks with tables are settled and
show it.  The contents of a data block may be unknown: a block that was read
before it was written is settled only later.
-/

namespace LabKernel.FsTables

open LabKernel.BlockCache
open LabKernel.BlockObject
open LabKernel.ByteMemory
open LabKernel.FsCode
open LabKernel.FsLayout
open LabKernel.FsPrimitives
open LabKernel.ProgramLogic

/-- The drift of a counter of the super block is what it counts beyond the bits
that are set in the map. -/
structure FsState where
  blockUsed : Nat → Bool
  inodeUsed : Nat → Bool
  inode : Nat → Inode
  data : Nat → Option Bytes
  cwd : UInt32
  files : List (Option File)
  blockDrift : UInt32
  inodeDrift : UInt32

namespace FsState

@[simps]
def setBlockUsed (s : FsState) (n : Nat) (used : Bool) : FsState :=
  { s with blockUsed := Function.update s.blockUsed n used }

@[simps]
def setInodeUsed (s : FsState) (k : Nat) (used : Bool) : FsState :=
  { s with inodeUsed := Function.update s.inodeUsed k used }

@[simps]
def setInode (s : FsState) (k : Nat) (n : Inode) : FsState :=
  { s with inode := Function.update s.inode k n }

@[simps]
def setData (s : FsState) (x : Nat) (d : Option Bytes) : FsState :=
  { s with data := Function.update s.data x d }

/-- The current directory. -/
def here (s : FsState) : Inode := s.inode s.cwd.toNat

end FsState

/-- The bit of a block in the bit map, as it shows. -/
def blockBit (m : Machine Bytes Globals) (n : Nat) : Bool :=
  bit (visible m (2 + n / 32768)) (n % 32768)

def inodeBit (m : Machine Bytes Globals) (k : Nat) : Bool := bit (visible m 1) k

def inodeAt (m : Machine Bytes Globals) (k : Nat) : Inode :=
  Inode.ofBytes (visible m (5 + k / 64)) (64 * (k % 64))

/-- The number of bits that are set in a map. -/
def marked (used : Nat → Bool) (size : Nat) : UInt32 := UInt32.ofNat (Nat.count (used · = true) size)

/-- The super block counts the bits that are set, up to the drift. -/
structure Counted (sb : SuperBlock) (s : FsState) : Prop where
  blocks : sb.blockAllocated = s.blockDrift + marked s.blockUsed maxBlockNum
  inodes : sb.inodeAllocated = s.inodeDrift + marked s.inodeUsed maxInodeNum

structure Realizes (m : Machine Bytes Globals) (s : FsState) : Prop where
  ready : Ready m
  settled : ∀ x < 517, Settled m x
  blockUsed : ∀ n < maxBlockNum, blockBit m n = s.blockUsed n
  inodeUsed : ∀ k < maxInodeNum, inodeBit m k = s.inodeUsed k
  inode : ∀ k < maxInodeNum, inodeAt m k = s.inode k
  data : ∀ x, 517 ≤ x → x < maxBlockNum → ∀ d, s.data x = some d → visible m x = d ∧ Settled m x
  cwd : m.globals.cwdNode = s.cwd
  files : m.globals.files = s.files
  counted : Counted m.globals.superblock s

/-- The errors that a full disk leads to. -/
def Full : Failure → Machine Bytes Globals → Prop := fun e _ => e = .noBlock ∨ e = .noInode

variable {m m' : Machine Bytes Globals} {s s' : FsState} {T T' : Finset Nat} {W : Set Nat}

theorem maxInodeNum_eq : maxInodeNum = 32768 := by decide

section Marked

variable {used : Nat → Bool} {k size : Nat}

theorem count_update (hk : k < size) (hfree : used k = false) :
    Nat.count (Function.update used k true · = true) size = Nat.count (used · = true) size + 1 := by
  have hsame : ∀ size ≤ k, Nat.count (Function.update used k true · = true) size =
      Nat.count (used · = true) size := by
    intro size hsize
    rw [Nat.count_eq_card_filter_range, Nat.count_eq_card_filter_range]
    refine congrArg Finset.card (Finset.filter_congr fun j hj => ?_)
    have hlt := Finset.mem_range.mp hj
    rw [Function.update_of_ne (by omega)]
  induction size with
  | zero => omega
  | succ size ih =>
      rw [Nat.count_succ, Nat.count_succ]
      rcases eq_or_ne k size with rfl | hne
      · rw [hsame k (le_refl k), Function.update_self, hfree, if_pos rfl, if_neg Bool.false_ne_true]
      · rw [ih (by omega), Function.update_of_ne hne.symm]
        omega

theorem marked_take (hk : k < size) (hfree : used k = false) :
    marked (Function.update used k true) size = marked used size + 1 := by
  rw [marked, count_update hk hfree, UInt32.ofNat_add]
  rfl

theorem marked_give (hk : k < size) (hused : used k = true) :
    marked (Function.update used k false) size = marked used size - 1 := by
  have hback : Function.update (Function.update used k false) k true = used := by
    rw [Function.update_idem, ← hused, Function.update_eq_self]
  have htake := marked_take hk (Function.update_self k false used)
  rw [hback] at htake
  rw [htake, UInt32.add_sub_cancel]

end Marked

theorem Counted.takeBlock {sb : SuperBlock} {n : UInt32} (h : Counted sb s)
    (hn : n.toNat < maxBlockNum) (hfree : s.blockUsed n.toNat = false) :
    Counted (countBlock n sb) (s.setBlockUsed n.toNat true) := by
  refine ⟨?_, h.inodes⟩
  refine (congrArg (· + 1) h.blocks).trans ?_
  rw [UInt32.add_assoc, ← marked_take hn hfree]
  rfl

theorem Counted.giveBlock {sb : SuperBlock} {n : UInt32} (h : Counted sb s)
    (hn : n.toNat < maxBlockNum) (hused : s.blockUsed n.toNat = true) :
    Counted (discountBlock n sb) (s.setBlockUsed n.toNat false) := by
  refine ⟨?_, h.inodes⟩
  refine (congrArg (· - 1) h.blocks).trans ?_
  rw [UInt32.sub_eq_add_neg, UInt32.add_assoc, ← UInt32.sub_eq_add_neg, ← marked_give hn hused]
  rfl

theorem Counted.takeInode {sb : SuperBlock} {k : UInt32} (h : Counted sb s)
    (hk : k.toNat < maxInodeNum) (hfree : s.inodeUsed k.toNat = false) :
    Counted (countInode k sb) (s.setInodeUsed k.toNat true) := by
  refine ⟨h.blocks, ?_⟩
  refine (congrArg (· + 1) h.inodes).trans ?_
  rw [UInt32.add_assoc, ← marked_take hk hfree]
  rfl

theorem Counted.giveInode {sb : SuperBlock} {k : UInt32} (h : Counted sb s)
    (hk : k.toNat < maxInodeNum) (hused : s.inodeUsed k.toNat = true) :
    Counted (discountInode k sb) (s.setInodeUsed k.toNat false) := by
  refine ⟨h.blocks, ?_⟩
  refine (congrArg (· - 1) h.inodes).trans ?_
  rw [UInt32.sub_eq_add_neg, UInt32.add_assoc, ← UInt32.sub_eq_add_neg, ← marked_give hk hused]
  rfl

theorem inodeBlock_lt {k : Nat} (hk : k < maxInodeNum) : 5 + k / 64 < 517 := by
  rw [maxInodeNum_eq] at hk
  omega

/-- What a block that is not written keeps. -/
def Keeps (m m' : Machine Bytes Globals) (x : Nat) : Prop :=
  visible m' x = visible m x ∧ Settled m' x

theorem evolves_keeps (h : Evolves T T' W m m') {x : Nat} (hx : x < maxBlockNum) (hW : x ∉ W)
    (hs : Settled m x) : Keeps m m' x :=
  ⟨h.visible_of_settled hx hW hs, h.settled_of_settled hx hW hs⟩

/-- The rule for a step that changes only some blocks: what it does to these
is given by the remaining hypotheses. -/
theorem realizes_of_evolves (h : Realizes m s) (hev : Evolves T T' W m m') (hready : Ready m')
    (hsettled : ∀ x ∈ W, x < 517 → Settled m' x)
    (hblockUsed : ∀ n < maxBlockNum, 2 + n / 32768 ∈ W → blockBit m' n = s'.blockUsed n)
    (hblockUsed' : ∀ n < maxBlockNum, 2 + n / 32768 ∉ W → s'.blockUsed n = s.blockUsed n)
    (hinodeUsed : ∀ k < maxInodeNum, 1 ∈ W → inodeBit m' k = s'.inodeUsed k)
    (hinodeUsed' : ∀ k < maxInodeNum, 1 ∉ W → s'.inodeUsed k = s.inodeUsed k)
    (hinode : ∀ k < maxInodeNum, 5 + k / 64 ∈ W → inodeAt m' k = s'.inode k)
    (hinode' : ∀ k < maxInodeNum, 5 + k / 64 ∉ W → s'.inode k = s.inode k)
    (hdata : ∀ x ∈ W, 517 ≤ x → x < maxBlockNum → ∀ d, s'.data x = some d →
      visible m' x = d ∧ Settled m' x)
    (hdata' : ∀ x, 517 ≤ x → x ∉ W → ∀ d, s'.data x = some d → s.data x = some d)
    (hcwd : m'.globals.cwdNode = s'.cwd) (hfiles : m'.globals.files = s'.files)
    (hcounted : Counted m'.globals.superblock s') : Realizes m' s' := by
  have hmax : 517 < maxBlockNum := by decide
  have hkeeps : ∀ x < 517, x ∉ W → Keeps m m' x := fun x hx hW =>
    evolves_keeps hev (hx.trans hmax) hW (h.settled x hx)
  refine ⟨hready, ?_, ?_, ?_, ?_, ?_, hcwd, hfiles, hcounted⟩
  · intro x hx
    rcases em (x ∈ W) with hW | hW
    · exact hsettled x hW hx
    · exact (hkeeps x hx hW).2
  · intro n hn
    rcases em (2 + n / 32768 ∈ W) with hW | hW
    · exact hblockUsed n hn hW
    · have hlt : 2 + n / 32768 < 517 := by
        rw [maxBlockNum_eq] at hn
        omega
      rw [blockBit, (hkeeps _ hlt hW).1, hblockUsed' n hn hW]
      exact h.blockUsed n hn
  · intro k hk
    rcases em (1 ∈ W) with hW | hW
    · exact hinodeUsed k hk hW
    · rw [inodeBit, (hkeeps 1 (by omega) hW).1, hinodeUsed' k hk hW]
      exact h.inodeUsed k hk
  · intro k hk
    rcases em (5 + k / 64 ∈ W) with hW | hW
    · exact hinode k hk hW
    · rw [inodeAt, (hkeeps _ (inodeBlock_lt hk) hW).1, hinode' k hk hW]
      exact h.inode k hk
  · intro x hx hlt d hd
    rcases em (x ∈ W) with hW | hW
    · exact hdata x hW hx hlt d hd
    · obtain ⟨hv, hs⟩ := h.data x hx hlt d (hdata' x hx hW d hd)
      rw [hev.visible_of_settled hlt hW hs]
      exact ⟨hv, hev.settled_of_settled hlt hW hs⟩

/-- A step that writes no block. -/
theorem Realizes.evolves (h : Realizes m s) (hev : Evolves T T' ∅ m m') (hready : Ready m')
    (hcwd : m'.globals.cwdNode = s'.cwd) (hfiles : m'.globals.files = s'.files)
    (hcounted : Counted m'.globals.superblock s)
    (hsame : s' = { s with cwd := s'.cwd, files := s'.files }) : Realizes m' s' := by
  have hnot : ∀ x, x ∉ (∅ : Set Nat) := Set.notMem_empty
  have hcounted' : Counted m'.globals.superblock s' := by
    rw [hsame]
    exact ⟨hcounted.blocks, hcounted.inodes⟩
  refine realizes_of_evolves h hev hready (fun x hx => absurd hx (hnot x))
    (fun _ _ hx => absurd hx (hnot _)) ?_ (fun _ _ hx => absurd hx (hnot _)) ?_
    (fun _ _ hx => absurd hx (hnot _)) ?_ (fun _ hx => absurd hx (hnot _)) ?_ hcwd hfiles
    hcounted'
  · intro n _ _
    rw [hsame]
  · intro k _ _
    rw [hsame]
  · intro k _ _
    rw [hsame]
  · intro x _ _ d hd
    rw [hsame] at hd
    exact hd

theorem Realizes.idle (h : Realizes m s) (hev : Evolves T T' ∅ m m')
    (hg : m'.globals = m.globals) : Realizes m' s :=
  h.evolves hev ⟨hev.sound, hg.symm ▸ h.ready.layout⟩ (hg.symm ▸ h.cwd) (hg.symm ▸ h.files)
    (hg.symm ▸ h.counted) rfl

theorem Realizes.write (h : Realizes m s) {x : Nat} {d : Option Bytes} (hx : 517 ≤ x)
    (hev : Evolves T T' {x} m m') (hg : m'.globals = m.globals)
    (hd : ∀ d', d = some d' → visible m' x = d' ∧ Settled m' x) :
    Realizes m' (s.setData x d) := by
  have hnot : ∀ y < 517, y ∉ ({x} : Set Nat) := by
    rintro y hy rfl
    omega
  refine realizes_of_evolves h hev ⟨hev.sound, hg.symm ▸ h.ready.layout⟩
    (fun y hy hlt => absurd hy (hnot y hlt)) ?_ (fun _ _ _ => rfl)
    (fun _ _ hy => absurd hy (hnot 1 (by omega))) (fun _ _ _ => rfl)
    (fun k hk hy => absurd hy (hnot _ (inodeBlock_lt hk))) (fun _ _ _ => rfl) ?_ ?_
    (hg.symm ▸ h.cwd) (hg.symm ▸ h.files) (by rw [hg]; exact ⟨h.counted.blocks, h.counted.inodes⟩)
  · intro n hn hy
    rw [maxBlockNum_eq] at hn
    exact absurd hy (hnot _ (by omega))
  · rintro y rfl _ _ d' hd'
    refine hd d' ?_
    rw [FsState.setData_data, Function.update_self] at hd'
    exact hd'
  · intro y _ hy d' hd'
    rw [FsState.setData_data, Function.update_of_ne hy] at hd'
    exact hd'

theorem readInode_realizes {ino : UInt32} (h : Realizes m s) (hino : ino.toNat < maxInodeNum)
    {E : Failure → Machine Bytes Globals → Prop} :
    Runs (readInode ino) m E fun n m' => n = s.inode ino.toNat ∧ Realizes m' s := by
  have hmax : 517 < maxBlockNum := by decide
  have hlt := inodeBlock_lt hino
  refine (runs_readInode h.ready (T := {5 + ino.toNat / 64}) (by simp [cacheSize])
    (Finset.mem_singleton_self _) fun hle => absurd hle (by omega)).mono (fun _ _ he => he) ?_
  rintro n m' ⟨hev, hg, -, rfl⟩
  have h' := h.idle hev hg
  exact ⟨h'.inode _ hino, h'⟩

theorem inodeAt_copy {k k' : Nat} {d : Bytes} {n : Inode} (hblock : k / 64 = k' / 64) :
    Inode.ofBytes (copy d (64 * (k % 64)) n.toBytes 0 64) (64 * (k' % 64)) =
      if k' = k then n else Inode.ofBytes d (64 * (k' % 64)) := by
  split
  next heq =>
    subst heq
    refine Eq.trans (Inode.ofBytes_congr fun i hi => ?_) (Inode.ofBytes_toBytes n)
    rw [copy_inside (by omega) (by omega)]
    congr 1
    omega
  next hne =>
    refine Inode.ofBytes_congr fun i hi => copy_outside ?_
    omega

theorem writeInode_realizes {ino : UInt32} {n : Inode} (h : Realizes m s)
    (hino : ino.toNat < maxInodeNum) {E : Failure → Machine Bytes Globals → Prop} :
    Runs (writeInode ino n) m E fun _ m' => Realizes m' (s.setInode ino.toNat n) := by
  have hmax : 517 < maxBlockNum := by decide
  have hlt := inodeBlock_lt hino
  refine (runs_writeInode h.ready (T := {5 + ino.toNat / 64}) (by simp [cacheSize])
    (Finset.mem_singleton_self _) fun hle => absurd hle (by omega)).mono (fun _ _ he => he) ?_
  rintro _ m' ⟨hev, hg, -, hs, d, hd, hv⟩
  rw [h.settled _ hlt, or_self] at hd
  rw [hd, ← h.settled _ hlt] at hv
  refine realizes_of_evolves h hev ⟨hev.sound, hg.symm ▸ h.ready.layout⟩ ?_ ?_ (fun _ _ _ => rfl)
    ?_ (fun _ _ _ => rfl) ?_ ?_ ?_ (fun _ _ _ _ hd => hd) (hg.symm ▸ h.cwd) (hg.symm ▸ h.files)
    (by rw [hg]; exact ⟨h.counted.blocks, h.counted.inodes⟩)
  · rintro x rfl _
    exact hs
  · intro n hn hmem
    rw [maxBlockNum_eq] at hn
    simp only [Set.mem_singleton_iff] at hmem
    omega
  · intro k _ hmem
    simp only [Set.mem_singleton_iff] at hmem
    omega
  · intro k hk hmem
    simp only [Set.mem_singleton_iff] at hmem
    have hblock : ino.toNat / 64 = k / 64 := by omega
    rw [inodeAt, hmem, hv, inodeAt_copy hblock, FsState.setInode_inode]
    split
    next heq => rw [heq, Function.update_self]
    next hne =>
      rw [Function.update_of_ne hne, ← h.inode k hk, inodeAt, hmem]
  · intro k hk hmem
    refine Function.update_of_ne ?_ ..
    rintro rfl
    exact hmem rfl
  · rintro x rfl hle
    omega

theorem writeInode_globals {ino : UInt32} {n : Inode} (h : Realizes m s)
    (hino : ino.toNat < maxInodeNum) {E : Failure → Machine Bytes Globals → Prop} :
    Runs (writeInode ino n) m E fun _ m' =>
      Realizes m' (s.setInode ino.toNat n) ∧ m'.globals = m.globals := by
  have hmax : 517 < maxBlockNum := by decide
  have hlt := inodeBlock_lt hino
  refine ((writeInode_realizes h hino).and (runs_writeInode (E := E) h.ready
    (T := {5 + ino.toNat / 64}) (by simp [cacheSize]) (Finset.mem_singleton_self _)
    fun hle => absurd hle (by omega))).mono (fun _ _ he => he.1) ?_
  exact fun _ m' hq => ⟨hq.1, hq.2.2.1⟩

theorem Realizes.markBlock (h : Realizes m s) {n : Nat} {used : Bool} {sb : SuperBlock}
    (hn : n < maxBlockNum) (hev : Evolves T T' {0, 2 + n / 32768} m m') (hs0 : Settled m' 0)
    (hs : Settled m' (2 + n / 32768))
    (hbit : ∀ b, bit (visible m' (2 + n / 32768)) b =
      if b = n % 32768 then used else bit (visible m (2 + n / 32768)) b)
    (hg : m'.globals = { m.globals with superblock := sb }) (hsb : Layout sb)
    (hcounted : Counted sb (s.setBlockUsed n used)) : Realizes m' (s.setBlockUsed n used) := by
  have hmem : ∀ x, x ∈ ({0, 2 + n / 32768} : Set Nat) ↔ x = 0 ∨ x = 2 + n / 32768 := by simp
  rw [maxBlockNum_eq] at hn
  refine realizes_of_evolves h hev ⟨hev.sound, hg.symm ▸ hsb⟩ ?_ ?_ ?_ ?_ (fun _ _ _ => rfl) ?_
    (fun _ _ _ => rfl) ?_ (fun _ _ _ _ hd => hd) (by rw [hg]; exact h.cwd)
    (by rw [hg]; exact h.files) (by rw [hg]; exact hcounted)
  · intro x hx _
    rcases (hmem x).mp hx with rfl | rfl
    · exact hs0
    · exact hs
  · intro n' hn' hx
    have hsame : n' / 32768 = n / 32768 := by
      rcases (hmem _).mp hx with heq | heq <;> omega
    rw [blockBit, hsame, hbit, FsState.setBlockUsed_blockUsed]
    split
    next heq =>
      rw [show n' = n by omega, Function.update_self]
    next hne =>
      rw [Function.update_of_ne (by rintro rfl; exact hne rfl), ← h.blockUsed n' hn', blockBit,
        hsame]
  · intro n' _ hx
    refine Function.update_of_ne ?_ ..
    rintro rfl
    exact hx ((hmem _).mpr (Or.inr rfl))
  · intro k _ hx
    rcases (hmem _).mp hx with heq | heq <;> omega
  · intro k _ hx
    rcases (hmem _).mp hx with heq | heq <;> omega
  · intro x hx hle
    rcases (hmem _).mp hx with heq | heq <;> omega

theorem Realizes.markInode (h : Realizes m s) {k : Nat} {used : Bool} {sb : SuperBlock}
    (hev : Evolves T T' {0, 1} m m') (hs0 : Settled m' 0) (hs : Settled m' 1)
    (hbit : ∀ b, bit (visible m' 1) b = if b = k then used else bit (visible m 1) b)
    (hg : m'.globals = { m.globals with superblock := sb }) (hsb : Layout sb)
    (hcounted : Counted sb (s.setInodeUsed k used)) : Realizes m' (s.setInodeUsed k used) := by
  have hmem : ∀ x, x ∈ ({0, 1} : Set Nat) ↔ x = 0 ∨ x = 1 := by simp
  refine realizes_of_evolves h hev ⟨hev.sound, hg.symm ▸ hsb⟩ ?_ ?_ (fun _ _ _ => rfl) ?_ ?_ ?_
    (fun _ _ _ => rfl) ?_ (fun _ _ _ _ hd => hd) (by rw [hg]; exact h.cwd)
    (by rw [hg]; exact h.files) (by rw [hg]; exact hcounted)
  · intro x hx _
    rcases (hmem x).mp hx with rfl | rfl
    · exact hs0
    · exact hs
  · intro n _ hx
    rcases (hmem _).mp hx with heq | heq <;> omega
  · intro k' hk' _
    rw [inodeBit, hbit, FsState.setInodeUsed_inodeUsed]
    split
    next heq => rw [heq, Function.update_self]
    next hne => rw [Function.update_of_ne hne, ← h.inodeUsed k' hk', inodeBit]
  · exact fun _ _ hx => absurd ((hmem 1).mpr (Or.inr rfl)) hx
  · intro k _ hx
    rcases (hmem _).mp hx with heq | heq <;> omega
  · intro x hx hle
    rcases (hmem _).mp hx with heq | heq <;> omega

theorem blockAlloc_realizes (h : Realizes m s) (hT : T.card ≤ cacheSize)
    (hmem : blockMapArea ⊆ T) :
    Runs blockAlloc m Full fun n m' =>
      n.toNat < maxBlockNum ∧ s.blockUsed n.toNat = false ∧
        Realizes m' (s.setBlockUsed n.toNat true) ∧ Evolves T T {0, 2 + n.toNat / 32768} m m' := by
  refine (runs_blockAlloc h.ready hT hmem).mono (fun _ _ he => Or.inl he.1) ?_
  rintro n m' ⟨hn, hev, htook, hg⟩
  obtain ⟨d, hd, hclear, hv⟩ := htook.visible_eq (by omega)
  have hlt : 2 + n.toNat / 32768 < 517 := by
    rw [maxBlockNum_eq] at hn
    omega
  rw [← h.settled _ hlt, or_self] at hd
  rw [show 8 * (n.toNat % 32768 / 8) + n.toNat % 8 = n.toNat % 32768 by omega, hd] at hclear
  refine ⟨hn, (h.blockUsed _ hn).symm.trans hclear, ?_, hev⟩
  refine h.markBlock hn hev htook.settled_zero htook.settled (fun b => ?_) hg
    (h.ready.layout.countBlock n)
    (h.counted.takeBlock hn ((h.blockUsed _ hn).symm.trans hclear))
  rw [hv, hd, bit_setBit (by omega),
    show 8 * (n.toNat % 32768 / 8) + n.toNat % 8 = n.toNat % 32768 by omega]
  split
  next heq => rw [decide_eq_true heq, Bool.true_or]
  next hne => rw [decide_eq_false hne, Bool.false_or]

theorem blockFree_realizes {n : UInt32} (h : Realizes m s) (hT : T.card ≤ cacheSize)
    (hmem : blockMapArea ⊆ T) (hn : n.toNat < maxBlockNum) (hused : s.blockUsed n.toNat = true)
    {E : Failure → Machine Bytes Globals → Prop} :
    Runs (blockFree n) m E fun _ m' =>
      Realizes m' (s.setBlockUsed n.toNat false) ∧ Evolves T T {0, 2 + n.toNat / 32768} m m' := by
  have hlt : 2 + n.toNat / 32768 < 517 := by
    rw [maxBlockNum_eq] at hn
    omega
  have hbit : bit (visible m (2 + n.toNat / 32768)) (n.toNat % 32768) = true :=
    (h.blockUsed _ hn).trans hused
  refine (runs_blockFree h.ready hT hmem).mono ?_ ?_
  · rintro e m' ⟨-, -, hclear⟩
    obtain ⟨d, hd, hzero⟩ := hclear hn
    rw [← h.settled _ hlt, or_self] at hd
    rw [hd, hbit] at hzero
    cases hzero
  · rintro _ m' ⟨-, hev, hgave, hg⟩
    obtain ⟨d, hd, -, hv⟩ := hgave.visible_eq (by omega)
    rw [← h.settled _ hlt, or_self] at hd
    refine ⟨?_, hev⟩
    refine h.markBlock hn hev hgave.settled_zero hgave.settled (fun b => ?_) hg
      (h.ready.layout.discountBlock n) (h.counted.giveBlock hn hused)
    rw [hv, hd, bit_clearBit (by omega),
      show 8 * (n.toNat % 32768 / 8) + n.toNat % 8 = n.toNat % 32768 by omega]
    split
    next heq => rw [heq, decide_eq_false (by simp), Bool.false_and]
    next hne => rw [decide_eq_true hne, Bool.true_and]

theorem inodeAlloc_realizes (h : Realizes m s) :
    Runs inodeAlloc m Full fun k m' =>
      k.toNat < maxInodeNum ∧ s.inodeUsed k.toNat = false ∧
        Realizes m' (s.setInodeUsed k.toNat true) := by
  refine (runs_inodeAlloc h.ready (T := inodeMapArea) (by decide) (Finset.Subset.refl _)).mono
    (fun _ _ he => Or.inr he.1) ?_
  rintro k m' ⟨hk, hev, htook, hg⟩
  obtain ⟨d, hd, hclear, hv⟩ := htook.visible_eq (by omega)
  rw [← h.settled 1 (by omega), or_self] at hd
  rw [show 8 * (k.toNat / 8) + k.toNat % 8 = k.toNat by omega, hd] at hclear
  refine ⟨hk, (h.inodeUsed _ hk).symm.trans hclear, ?_⟩
  refine h.markInode hev htook.settled_zero htook.settled (fun b => ?_) hg
    (h.ready.layout.countInode k)
    (h.counted.takeInode hk ((h.inodeUsed _ hk).symm.trans hclear))
  rw [hv, hd, bit_setBit (by omega), show 8 * (k.toNat / 8) + k.toNat % 8 = k.toNat by omega]
  split
  next heq => rw [decide_eq_true heq, Bool.true_or]
  next hne => rw [decide_eq_false hne, Bool.false_or]

theorem inodeFree_realizes {k : UInt32} (h : Realizes m s) (hk : k.toNat < maxInodeNum)
    (hused : s.inodeUsed k.toNat = true) {E : Failure → Machine Bytes Globals → Prop} :
    Runs (inodeFree k) m E fun _ m' => Realizes m' (s.setInodeUsed k.toNat false) := by
  have hbit : bit (visible m 1) k.toNat = true := (h.inodeUsed _ hk).trans hused
  refine (runs_inodeFree h.ready (T := inodeMapArea) (by decide) (Finset.Subset.refl _)).mono ?_ ?_
  · rintro e m' ⟨-, -, hclear⟩
    obtain ⟨d, hd, hzero⟩ := hclear hk
    rw [← h.settled 1 (by omega), or_self] at hd
    rw [hd, hbit] at hzero
    cases hzero
  · rintro _ m' ⟨-, hev, hgave, hg⟩
    obtain ⟨d, hd, -, hv⟩ := hgave.visible_eq (by omega)
    rw [← h.settled 1 (by omega), or_self] at hd
    refine h.markInode hev hgave.settled_zero hgave.settled (fun b => ?_) hg
      (h.ready.layout.discountInode k) (h.counted.giveInode hk hused)
    rw [hv, hd, bit_clearBit (by omega), show 8 * (k.toNat / 8) + k.toNat % 8 = k.toNat by omega]
    split
    next heq => rw [heq, decide_eq_false (by simp), Bool.false_and]
    next hne => rw [decide_eq_true hne, Bool.true_and]

end LabKernel.FsTables
