import LabKernel.Directories

/-!
Who owns the blocks of a disk: every block behind a pointer of an allocated
inode is marked in the bit map, and only one way leads to it.

A way is a pointer of an inode and the entries taken in the index blocks
below it.  What an operation does to the ownership is derived from what it
does to the block at the end of each way.
-/

namespace LabKernel.BlockOwnership

open LabKernel.BlockCache
open LabKernel.ByteMemory
open LabKernel.DirectData
open LabKernel.Directories
open LabKernel.FsCode
open LabKernel.FsLayout
open LabKernel.FsTables

/-- The pointers of an inode. -/
inductive Root where
  | direct (i : Fin 8)
  | l1 (i : Fin 3)
  | l2 (i : Fin 2)
  | l3
  deriving DecidableEq

/-- The number of index blocks between a pointer and the data. -/
def Root.depth : Root → Nat
  | .direct _ => 0
  | .l1 _ => 1
  | .l2 _ => 2
  | .l3 => 3

def pointer (n : Inode) : Root → UInt32
  | .direct i => n.dataDirect i
  | .l1 i => n.dataL1 i
  | .l2 i => n.dataL2 i
  | .l3 => n.dataL3

def setPointer (n : Inode) (r : Root) (p : UInt32) : Inode :=
  match r with
  | .direct i => { n with dataDirect := Function.update n.dataDirect i p }
  | .l1 i => { n with dataL1 := Function.update n.dataL1 i p }
  | .l2 i => { n with dataL2 := Function.update n.dataL2 i p }
  | .l3 => { n with dataL3 := p }

theorem pointer_setPointer (n : Inode) (r r' : Root) (p : UInt32) :
    pointer (setPointer n r p) r' = if r' = r then p else pointer n r' := by
  cases r <;> cases r' <;> simp [pointer, setPointer, Function.update_apply]

theorem setPointer_self (n : Inode) (r : Root) : setPointer n r (pointer n r) = n := by
  cases r <;> simp [setPointer, pointer]

/-- A way from an inode to one of its blocks. -/
structure Place where
  root : Root
  path : List Nat
  deriving DecidableEq

/-- A way that the code can take. -/
structure Place.Fits (a : Place) : Prop where
  length_le : a.path.length ≤ a.root.depth
  entry_lt : ∀ e ∈ a.path, e < pointersPerBlock

/-- A way that ends at an index block. -/
def Place.Inner (a : Place) : Prop := a.path.length < a.root.depth

def Place.snoc (a : Place) (e : Nat) : Place := ⟨a.root, a.path ++ [e]⟩

variable {s s' : FsState} {k k' : Nat} {a a' : Place} {n : Inode} {p b : UInt32} {e i : Nat}

theorem Place.Fits.of_snoc (h : (a.snoc e).Fits) : a.Fits ∧ a.Inner ∧ e < pointersPerBlock := by
  have hlength := h.length_le
  simp only [Place.snoc, List.length_append, List.length_singleton] at hlength
  refine ⟨⟨by omega, fun e' he' => h.entry_lt e' (List.mem_append_left _ he')⟩, hlength,
    h.entry_lt e ?_⟩
  exact List.mem_append_right _ (List.mem_singleton_self e)

theorem Place.Fits.snoc (h : a.Fits) (ha : a.Inner) (he : e < pointersPerBlock) :
    (a.snoc e).Fits := by
  refine ⟨?_, fun e' he' => ?_⟩
  · simp only [Place.snoc, List.length_append, List.length_singleton]
    exact ha
  · rcases List.mem_append.mp he' with hmem | hmem
    · exact h.entry_lt e' hmem
    · rw [List.mem_singleton.mp hmem]
      exact he

theorem Place.snoc_inj {e' : Nat} : a.snoc e = a'.snoc e' ↔ a = a' ∧ e = e' := by
  cases a
  cases a'
  simp only [Place.snoc, Place.mk.injEq, List.append_singleton_inj, and_assoc]

theorem Place.snoc_ne (a : Place) (e : Nat) : a.snoc e ≠ a := by
  intro heq
  have := congrArg (fun a => a.path.length) heq
  simp [Place.snoc] at this

/-- Entry `e` of the index block `p`. -/
def entryAt (s : FsState) (p : UInt32) (e : Nat) : UInt32 :=
  if p = 0 then 0 else get32 ((s.data p.toNat).getD zeros) (4 * e)

/-- The block at the end of a way. -/
def blockAt (s : FsState) (n : Inode) (a : Place) : UInt32 :=
  a.path.foldl (entryAt s) (pointer n a.root)

theorem blockAt_root (r : Root) : blockAt s n ⟨r, []⟩ = pointer n r := rfl

theorem blockAt_snoc (a : Place) (e : Nat) :
    blockAt s n (a.snoc e) = entryAt s (blockAt s n a) e := by
  simp only [blockAt, Place.snoc, List.foldl_append, List.foldl_cons, List.foldl_nil]

theorem entryAt_zero (e : Nat) : entryAt s 0 e = 0 := if_pos rfl

/-- The rule by which facts about all ways of an inode are proved. -/
theorem Place.induction {P : Place → Prop} (hroot : ∀ r, P ⟨r, []⟩)
    (hsnoc : ∀ a e, a.Fits → a.Inner → e < pointersPerBlock → P a → P (a.snoc e)) (a : Place)
    (ha : a.Fits) : P a := by
  obtain ⟨r, path⟩ := a
  induction path using List.reverseRecOn with
  | nil => exact hroot r
  | append_singleton path e ih =>
      obtain ⟨hfits, hinner, he⟩ := Place.Fits.of_snoc (a := ⟨r, path⟩) ha
      exact hsnoc ⟨r, path⟩ e hfits hinner he (ih hfits)

/-- An inode with its bit set. -/
def Live (s : FsState) (k : Nat) : Prop := k < maxInodeNum ∧ s.inodeUsed k = true

structure Owned (s : FsState) : Prop where
  tables : TablesUsed s
  isData : ∀ k, Live s k → ∀ a : Place, a.Fits → blockAt s (s.inode k) a ≠ 0 →
    IsData (blockAt s (s.inode k) a) ∧ s.blockUsed (blockAt s (s.inode k) a).toNat = true
  settled : ∀ k, Live s k → ∀ a : Place, a.Fits → a.Inner → blockAt s (s.inode k) a ≠ 0 →
    ∃ d, s.data (blockAt s (s.inode k) a).toNat = some d
  unique : ∀ k k', Live s k → Live s k' → ∀ a a' : Place, a.Fits → a'.Fits →
    blockAt s (s.inode k) a ≠ 0 → blockAt s (s.inode k) a = blockAt s (s.inode k') a' →
      k = k' ∧ a = a'

/-- The blocks of an inode depend on its pointers and on the contents of the
index blocks. -/
theorem blockAt_congr {n' : Inode} (hpointer : ∀ r, pointer n' r = pointer n r)
    (hdata : ∀ a : Place, a.Fits → a.Inner → blockAt s n a ≠ 0 →
      s'.data (blockAt s n a).toNat = s.data (blockAt s n a).toNat) (ha : a.Fits) :
    blockAt s' n' a = blockAt s n a := by
  refine Place.induction (P := fun a => blockAt s' n' a = blockAt s n a) hpointer ?_ a ha
  intro a e hfits hinner he ih
  rw [blockAt_snoc, blockAt_snoc, ih]
  rcases eq_or_ne (blockAt s n a) 0 with hzero | hne
  · rw [hzero, entryAt_zero, entryAt_zero]
  · rw [entryAt, entryAt, hdata a hfits hinner hne]

theorem Owned.of_blockAt_eq (h : Owned s) (htables : TablesUsed s')
    (hlive : ∀ k, Live s' k → Live s k)
    (hblock : ∀ k, Live s' k → ∀ a : Place, a.Fits →
      blockAt s' (s'.inode k) a = blockAt s (s.inode k) a)
    (hused : ∀ k, Live s' k → ∀ a : Place, a.Fits → blockAt s (s.inode k) a ≠ 0 →
      s'.blockUsed (blockAt s (s.inode k) a).toNat = true)
    (hsettled : ∀ k, Live s' k → ∀ a : Place, a.Fits → a.Inner → blockAt s (s.inode k) a ≠ 0 →
      ∃ d, s'.data (blockAt s (s.inode k) a).toNat = some d) : Owned s' where
  tables := htables
  isData k hk a ha := by
    rw [hblock k hk a ha]
    exact fun hne => ⟨(h.isData k (hlive k hk) a ha hne).1, hused k hk a ha hne⟩
  settled k hk a ha hinner := by
    rw [hblock k hk a ha]
    exact hsettled k hk a ha hinner
  unique k k' hk hk' a a' ha ha' := by
    rw [hblock k hk a ha, hblock k' hk' a' ha']
    exact h.unique k k' (hlive k hk) (hlive k' hk') a a' ha ha'

theorem Owned.setData_leaf (h : Owned s) (hk : Live s k) (ha : a.Fits) (hleaf : ¬a.Inner)
    (hne : blockAt s (s.inode k) a ≠ 0) (d : Option Bytes) :
    Owned (s.setData (blockAt s (s.inode k) a).toNat d) ∧ ∀ k', Live s k' → ∀ a' : Place, a'.Fits →
      blockAt (s.setData (blockAt s (s.inode k) a).toNat d) (s.inode k') a' =
        blockAt s (s.inode k') a' := by
  -- The block is no index block, as only one way leads to it.
  have hdata : ∀ k', Live s k' → ∀ a' : Place, a'.Fits → a'.Inner →
      blockAt s (s.inode k') a' ≠ 0 →
      (s.setData (blockAt s (s.inode k) a).toNat d).data (blockAt s (s.inode k') a').toNat =
        s.data (blockAt s (s.inode k') a').toNat := by
    intro k' hk' a' ha' hinner hne'
    refine Function.update_of_ne (fun heq => hleaf ?_) ..
    obtain ⟨-, rfl⟩ := h.unique k' k hk' hk a' a ha' ha hne' (UInt32.toNat_inj.mp heq)
    exact hinner
  have hblock : ∀ k', Live s k' → ∀ a' : Place, a'.Fits →
      blockAt (s.setData (blockAt s (s.inode k) a).toNat d) (s.inode k') a' =
        blockAt s (s.inode k') a' :=
    fun k' hk' a' ha' => blockAt_congr (fun _ => rfl) (hdata k' hk') ha'
  refine ⟨h.of_blockAt_eq h.tables (fun _ hk' => hk') hblock
    (fun k' hk' a' ha' hne' => (h.isData k' hk' a' ha' hne').2) ?_, hblock⟩
  intro k' hk' a' ha' hinner hne'
  rw [hdata k' hk' a' ha' hinner hne']
  exact h.settled k' hk' a' ha' hinner hne'

/-- A change of an inode that keeps its pointers. -/
theorem Owned.setInode (h : Owned s) (hpointer : ∀ r, pointer n r = pointer (s.inode k) r) :
    Owned (s.setInode k n) := by
  have hpointer' : ∀ k' r, pointer ((s.setInode k n).inode k') r = pointer (s.inode k') r := by
    intro k' r
    rw [FsState.setInode_inode, Function.update_apply]
    split
    next heq => rw [heq, hpointer]
    next => rfl
  exact h.of_blockAt_eq h.tables (fun _ hk' => hk')
    (fun k' _ a' ha' => blockAt_congr (hpointer' k') (fun _ _ _ _ => rfl) ha')
    (fun k' hk' a' ha' hne' => (h.isData k' hk' a' ha' hne').2) h.settled

theorem blockAt_of_pointer_zero {a : Place} (h : pointer n a.root = 0) : blockAt s n a = 0 := by
  have hzero : ∀ path : List Nat, path.foldl (entryAt s) 0 = 0 := by
    intro path
    induction path with
    | nil => rfl
    | cons e rest ih =>
        rw [List.foldl_cons, entryAt_zero]
        exact ih
  unfold blockAt
  rw [h, hzero]

theorem Owned.setInode_fewer (h : Owned s)
    (hpointer : ∀ r, pointer n r ≠ 0 → pointer n r = pointer (s.inode k) r) :
    Owned (s.setInode k n) := by
  have hself : (s.setInode k n).inode k = n := Function.update_self ..
  have hblock : ∀ k' (a : Place), blockAt (s.setInode k n) ((s.setInode k n).inode k') a ≠ 0 →
      blockAt (s.setInode k n) ((s.setInode k n).inode k') a = blockAt s (s.inode k') a := by
    intro k' a hne
    rcases eq_or_ne k' k with rfl | hk
    · rw [hself] at hne ⊢
      have hroot : pointer n a.root ≠ 0 := fun hzero => hne (blockAt_of_pointer_zero hzero)
      unfold blockAt
      rw [hpointer _ hroot]
      rfl
    · rw [FsState.setInode_inode, Function.update_of_ne hk]
      rfl
  refine ⟨h.tables, fun k' hk' a ha hne => ?_, fun k' hk' a ha hinner hne => ?_,
    fun k₁ k₂ hk₁ hk₂ a a' ha ha' hne heq => ?_⟩
  · have hsame := hblock k' a hne
    rw [hsame] at hne ⊢
    exact h.isData k' hk' a ha hne
  · have hsame := hblock k' a hne
    rw [hsame] at hne ⊢
    exact h.settled k' hk' a ha hinner hne
  · have hne' := hne
    rw [heq] at hne'
    rw [hblock k₁ a hne, hblock k₂ a' hne'] at heq
    rw [hblock k₁ a hne] at hne
    exact h.unique k₁ k₂ hk₁ hk₂ a a' ha ha' hne heq

theorem Owned.attach (h : Owned s) (hb : IsData b) (hfree : s.blockUsed b.toNat = false)
    (hlive : ∀ k', Live s' k' → Live s k')
    (hused : s'.blockUsed = Function.update s.blockUsed b.toNat true)
    (hblock : ∀ k', Live s k' → ∀ a' : Place, a'.Fits →
      blockAt s' (s'.inode k') a' = if k' = k ∧ a' = a then b else blockAt s (s.inode k') a')
    (hdata : ∀ x, (∃ d, s.data x = some d) → ∃ d, s'.data x = some d)
    (hnew : a.Inner → ∃ d, s'.data b.toNat = some d) : Owned s' where
  tables x hx := by
    rw [hused, Function.update_apply]
    split
    next => rfl
    next => exact h.tables x hx
  isData k' hk' a' ha' := by
    rw [hblock k' (hlive k' hk') a' ha', hused]
    split
    next => exact fun _ => ⟨hb, Function.update_self ..⟩
    next =>
      intro hne
      obtain ⟨hdata, hmarked⟩ := h.isData k' (hlive k' hk') a' ha' hne
      rw [Function.update_apply, hmarked, ite_self]
      exact ⟨hdata, rfl⟩
  settled k' hk' a' ha' hinner := by
    rw [hblock k' (hlive k' hk') a' ha']
    split
    next heq =>
      rw [heq.2] at hinner
      exact fun _ => hnew hinner
    next => exact fun hne => hdata _ (h.settled k' (hlive k' hk') a' ha' hinner hne)
  unique k₁ k₂ hk₁ hk₂ a₁ a₂ ha₁ ha₂ := by
    have hold : ∀ k', Live s k' → ∀ a' : Place, a'.Fits → blockAt s (s.inode k') a' ≠ 0 →
        blockAt s (s.inode k') a' ≠ b := by
      rintro k' hk' a' ha' hne rfl
      rw [(h.isData k' hk' a' ha' hne).2] at hfree
      cases hfree
    rw [hblock k₁ (hlive k₁ hk₁) a₁ ha₁, hblock k₂ (hlive k₂ hk₂) a₂ ha₂]
    split
    next heq₁ =>
      split
      next heq₂ => exact fun _ _ => ⟨heq₁.1.trans heq₂.1.symm, heq₁.2.trans heq₂.2.symm⟩
      next =>
        intro hne heq
        exact absurd heq.symm (hold k₂ (hlive k₂ hk₂) a₂ ha₂ (heq ▸ hne))
    next =>
      split
      next =>
        intro hne heq
        exact absurd heq (hold k₁ (hlive k₁ hk₁) a₁ ha₁ hne)
      next => exact h.unique k₁ k₂ (hlive k₁ hk₁) (hlive k₂ hk₂) a₁ a₂ ha₁ ha₂

theorem blockAt_attach (hzero : blockAt s (s.inode k) a = 0)
    (hroot : ∀ k' r, pointer (s'.inode k') r =
      if k' = k ∧ ⟨r, []⟩ = a then b else pointer (s.inode k') r)
    (hentry : ∀ k', Live s k' → ∀ a' e, (a'.snoc e).Fits →
      entryAt s' (blockAt s (s.inode k') a') e =
        if k' = k ∧ a'.snoc e = a then b else entryAt s (blockAt s (s.inode k') a') e)
    (hnew : ∀ e, entryAt s' b e = 0) (hk' : Live s k') (ha' : a'.Fits) :
    blockAt s' (s'.inode k') a' = if k' = k ∧ a' = a then b else blockAt s (s.inode k') a' := by
  refine Place.induction (P := fun a' => blockAt s' (s'.inode k') a' =
    if k' = k ∧ a' = a then b else blockAt s (s.inode k') a') (fun r => hroot k' r) ?_ a' ha'
  intro a' e hfits hinner he ih
  rw [blockAt_snoc, blockAt_snoc, ih]
  split
  next heq =>
    obtain ⟨rfl, rfl⟩ := heq
    rw [hnew, hzero, entryAt_zero, if_neg fun hboth => Place.snoc_ne _ _ hboth.2]
  next => exact hentry k' hk' a' e (hfits.snoc hinner he)

theorem ne_zero_of_isData (h : IsData b) : b ≠ 0 := by
  rintro rfl
  exact absurd h.1 (by decide)

theorem entryAt_of_data {d : Bytes} (hp : p ≠ 0) (hd : s.data p.toNat = some d) (e : Nat) :
    entryAt s p e = get32 d (4 * e) := by
  rw [entryAt, if_neg hp, hd, Option.getD_some]

theorem entryAt_congr (h : p ≠ 0 → s'.data p.toNat = s.data p.toNat) (e : Nat) :
    entryAt s' p e = entryAt s p e := by
  rcases eq_or_ne p 0 with rfl | hne
  · rw [entryAt_zero, entryAt_zero]
  · rw [entryAt, entryAt, h hne]

/-- A new block of zeros behind a pointer of an inode. -/
def attachRoot (s : FsState) (k : Nat) (r : Root) (b : UInt32) : FsState :=
  ((s.setBlockUsed b.toNat true).setData b.toNat (some zeros)).setInode k
    (setPointer (s.inode k) r b)

theorem blockAt_attachRoot {r : Root} (h : Owned s) (hb : IsData b)
    (hfree : s.blockUsed b.toNat = false) (hzero : pointer (s.inode k) r = 0) (hk' : Live s k')
    (ha' : a'.Fits) :
    blockAt (attachRoot s k r b) ((attachRoot s k r b).inode k') a' =
      if k' = k ∧ a' = ⟨r, []⟩ then b else blockAt s (s.inode k') a' := by
  refine blockAt_attach hzero ?_ ?_ ?_ hk' ha'
  · intro k' r'
    simp only [attachRoot, FsState.setInode_inode, Function.update_apply, Place.mk.injEq, and_true]
    rcases eq_or_ne k' k with rfl | hne
    · rw [if_pos rfl, pointer_setPointer]
      simp only [true_and]
    · rw [if_neg hne, if_neg fun hboth => hne hboth.1]
      rfl
  · intro k' hk' a' e hfits
    have hne : ¬(k' = k ∧ a'.snoc e = ⟨r, []⟩) := by
      rintro ⟨-, heq⟩
      have := congrArg (fun a => a.path.length) heq
      simp [Place.snoc] at this
    rw [if_neg hne]
    refine entryAt_congr (fun hne => Function.update_of_ne (fun heq => ?_) ..) e
    rw [← heq, (h.isData k' hk' a' hfits.of_snoc.1 hne).2] at hfree
    cases hfree
  · intro e
    rw [entryAt_of_data (ne_zero_of_isData hb) (Function.update_self ..), get32_zeros]

theorem Owned.attachRoot {r : Root} (h : Owned s) (hb : IsData b)
    (hfree : s.blockUsed b.toNat = false) (hzero : pointer (s.inode k) r = 0) :
    Owned (attachRoot s k r b) := by
  refine h.attach (a := ⟨r, []⟩) hb hfree (fun _ hk' => hk') rfl
    (fun k' hk' a' ha' => blockAt_attachRoot h hb hfree hzero hk' ha') ?_
    (fun _ => ⟨zeros, Function.update_self ..⟩)
  rintro x ⟨d, hd⟩
  rcases eq_or_ne x b.toNat with rfl | hne
  · exact ⟨zeros, Function.update_self ..⟩
  · exact ⟨d, (Function.update_of_ne hne ..).trans hd⟩

/-- A new block of zeros behind entry `e` of the index block `p`. -/
def attachEntry (s : FsState) (p : UInt32) (index : Bytes) (e : Nat) (b : UInt32) : FsState :=
  ((s.setBlockUsed b.toNat true).setData p.toNat (some (put32 index (4 * e) b))).setData b.toNat
    (some zeros)

theorem attachEntry_data {index : Bytes} (hne : p.toNat ≠ b.toNat) :
    (attachEntry s p index e b).data p.toNat = some (put32 index (4 * e) b) := by
  simp only [attachEntry, FsState.setData_data, Function.update_of_ne hne, Function.update_self]

theorem get32_put32_entry (index : Bytes) (e e' : Nat) (b : UInt32) :
    get32 (put32 index (4 * e) b) (4 * e') = if e' = e then b else get32 index (4 * e') := by
  split
  next heq => rw [heq, get32_put32_self]
  next hne => exact get32_put32_of_ne _ _ (by omega)

theorem blockAt_attachEntry {index : Bytes} (h : Owned s) (hb : IsData b)
    (hfree : s.blockUsed b.toNat = false) (hk : Live s k) (ha : (a.snoc e).Fits)
    (hne : blockAt s (s.inode k) a ≠ 0)
    (hindex : s.data (blockAt s (s.inode k) a).toNat = some index)
    (hzero : get32 index (4 * e) = 0) (hk' : Live s k') (ha' : a'.Fits) :
    blockAt (attachEntry s (blockAt s (s.inode k) a) index e b) (s.inode k') a' =
      if k' = k ∧ a' = a.snoc e then b else blockAt s (s.inode k') a' := by
  have hold : ∀ k' a', Live s k' → a'.Fits → blockAt s (s.inode k') a' ≠ 0 →
      (blockAt s (s.inode k') a').toNat ≠ b.toNat := by
    intro k' a' hk' ha' hne heq
    rw [← heq, (h.isData k' hk' a' ha' hne).2] at hfree
    cases hfree
  refine blockAt_attach ?_ ?_ ?_ ?_ hk' ha'
  · rw [blockAt_snoc, entryAt_of_data hne hindex, hzero]
  · intro k' r
    rw [if_neg]
    · rfl
    rintro ⟨-, heq⟩
    have := congrArg (fun a => a.path.length) heq
    simp [Place.snoc] at this
  · intro k' hk' a' e' hfits
    simp only [Place.snoc_inj]
    rcases eq_or_ne (blockAt s (s.inode k') a') 0 with hzero' | hne'
    · rw [hzero', entryAt_zero, entryAt_zero, if_neg]
      rintro ⟨rfl, rfl, -⟩
      exact hne hzero'
    · have hdiff := hold k' a' hk' hfits.of_snoc.1 hne'
      rcases eq_or_ne (blockAt s (s.inode k') a') (blockAt s (s.inode k) a) with heq | hdiff'
      · obtain ⟨rfl, rfl⟩ := h.unique k' k hk' hk a' a hfits.of_snoc.1 ha.of_snoc.1 hne' heq
        rw [entryAt_of_data hne (attachEntry_data hdiff), entryAt_of_data hne hindex,
          get32_put32_entry]
        simp only [true_and]
      · rw [if_neg fun hsame => hdiff' (by rw [hsame.1, hsame.2.1])]
        refine entryAt_congr (fun _ => ?_) e'
        have hdiff'' : (blockAt s (s.inode k') a').toNat ≠ (blockAt s (s.inode k) a).toNat :=
          fun heq => hdiff' (UInt32.toNat_inj.mp heq)
        simp only [attachEntry, FsState.setData_data, Function.update_of_ne hdiff,
          Function.update_of_ne hdiff'', FsState.setBlockUsed_data]
  · intro e'
    rw [entryAt_of_data (ne_zero_of_isData hb) (Function.update_self ..), get32_zeros]

theorem Owned.attachEntry {index : Bytes} (h : Owned s) (hb : IsData b)
    (hfree : s.blockUsed b.toNat = false) (hk : Live s k) (ha : (a.snoc e).Fits)
    (hne : blockAt s (s.inode k) a ≠ 0)
    (hindex : s.data (blockAt s (s.inode k) a).toNat = some index)
    (hzero : get32 index (4 * e) = 0) :
    Owned (attachEntry s (blockAt s (s.inode k) a) index e b) := by
  refine h.attach (k := k) (a := a.snoc e) hb hfree (fun _ hk' => hk') rfl
    (fun k' hk' a' ha' => blockAt_attachEntry h hb hfree hk ha hne hindex hzero hk' ha') ?_
    (fun _ => ⟨zeros, Function.update_self ..⟩)
  rintro x ⟨d, hd⟩
  simp only [BlockOwnership.attachEntry, FsState.setData_data, Function.update_apply]
  split
  next => exact ⟨zeros, rfl⟩
  next =>
    split
    next => exact ⟨_, rfl⟩
    next => exact ⟨d, hd⟩

/-- A new inode without blocks. -/
theorem Owned.newInode (h : Owned s) (hpointer : ∀ r, pointer n r = 0) :
    Owned ((s.setInodeUsed k true).setInode k n) := by
  have hzero : ∀ a : Place, a.Fits → blockAt ((s.setInodeUsed k true).setInode k n) n a = 0 := by
    refine fun a ha => Place.induction (P := fun a => blockAt _ n a = 0) hpointer ?_ a ha
    intro a e _ _ _ ih
    rw [blockAt_snoc, ih, entryAt_zero]
  have hnew : ((s.setInodeUsed k true).setInode k n).inode k = n := Function.update_self ..
  have hold : ∀ k' ≠ k, Live ((s.setInodeUsed k true).setInode k n) k' →
      Live s k' ∧ ((s.setInodeUsed k true).setInode k n).inode k' = s.inode k' := by
    intro k' hne hk'
    refine ⟨⟨hk'.1, ?_⟩, Function.update_of_ne hne ..⟩
    rw [← hk'.2]
    exact (Function.update_of_ne hne ..).symm
  have hsame : ∀ n' a, blockAt ((s.setInodeUsed k true).setInode k n) n' a = blockAt s n' a :=
    fun _ _ => rfl
  refine ⟨h.tables, ?_, ?_, ?_⟩
  · intro k' hk' a ha hne
    rcases eq_or_ne k' k with rfl | hkk
    · rw [hnew, hzero a ha] at hne
      exact absurd rfl hne
    · rw [(hold k' hkk hk').2] at hne ⊢
      exact h.isData k' (hold k' hkk hk').1 a ha hne
  · intro k' hk' a ha hinner hne
    rcases eq_or_ne k' k with rfl | hkk
    · rw [hnew, hzero a ha] at hne
      exact absurd rfl hne
    · rw [(hold k' hkk hk').2] at hne ⊢
      exact h.settled k' (hold k' hkk hk').1 a ha hinner hne
  · intro k₁ k₂ hk₁ hk₂ a₁ a₂ ha₁ ha₂ hne heq
    rcases eq_or_ne k₁ k with rfl | hkk₁
    · rw [hnew, hzero a₁ ha₁] at hne
      exact absurd rfl hne
    rcases eq_or_ne k₂ k with rfl | hkk₂
    · rw [heq, hnew, hzero a₂ ha₂] at hne
      exact absurd rfl hne
    rw [(hold k₁ hkk₁ hk₁).2] at hne heq
    rw [(hold k₂ hkk₂ hk₂).2] at heq
    exact h.unique k₁ k₂ (hold k₁ hkk₁ hk₁).1 (hold k₂ hkk₂ hk₂).1 a₁ a₂ ha₁ ha₂ hne heq

/-- What a change of inode `k` and its blocks leaves of the other inodes. -/
structure Leaves (k : Nat) (s s' : FsState) : Prop where
  inodeUsed : s'.inodeUsed = s.inodeUsed
  cwd : s'.cwd = s.cwd
  files : s'.files = s.files
  inode : ∀ k' ≠ k, s'.inode k' = s.inode k'
  data : ∀ k' ≠ k, Live s k' → ∀ a : Place, a.Fits → blockAt s (s.inode k') a ≠ 0 →
    s'.data (blockAt s (s.inode k') a).toNat = s.data (blockAt s (s.inode k') a).toNat

theorem fits_root (r : Root) : Place.Fits ⟨r, []⟩ :=
  ⟨Nat.zero_le _, fun _ he => absurd he List.not_mem_nil⟩

/-- No block, no entry. -/
theorem slot_of_zero {q : Nat} (h : direct n (q / 128) = 0) : slot s n q = none := by
  unfold slot
  rw [h]
  split <;> simp

/-- The direct pointers are the ways to the blocks of a directory. -/
theorem direct_eq_blockAt (hi : direct n i ≠ 0) :
    ∃ r : Root, direct n i = pointer n r ∧ r.depth = 0 := by
  unfold direct at hi ⊢
  split at hi
  next hlt => exact ⟨.direct ⟨i, hlt⟩, dif_pos hlt, rfl⟩
  next => exact absurd rfl hi

namespace Leaves

theorem live (h : Leaves k s s') (hk' : Live s k') : Live s' k' :=
  ⟨hk'.1, by rw [h.inodeUsed]; exact hk'.2⟩

theorem of_live (h : Leaves k s s') (hk' : Live s' k') : Live s k' :=
  ⟨hk'.1, by rw [← h.inodeUsed]; exact hk'.2⟩

theorem data_direct (h : Leaves k s s') (hne : k' ≠ k) (hk' : Live s k')
    (hi : direct (s.inode k') i ≠ 0) :
    s'.data (direct (s.inode k') i).toNat = s.data (direct (s.inode k') i).toNat := by
  obtain ⟨r, hr, -⟩ := direct_eq_blockAt hi
  rw [hr] at hi ⊢
  exact h.data k' hne hk' ⟨r, []⟩ (fits_root r) hi

theorem slot_eq (h : Leaves k s s') (hne : k' ≠ k) (hk' : Live s k') (q : Nat) :
    slot s' (s'.inode k') q = slot s (s.inode k') q := by
  rw [h.inode k' hne]
  rcases eq_or_ne (direct (s.inode k') (q / 128)) 0 with hzero | hne'
  · rw [slot_of_zero hzero, slot_of_zero hzero]
  · unfold slot
    rw [h.data_direct hne hk' hne']

theorem hasBlocks (h : Leaves k s s') (hne : k' ≠ k) (hk' : Live s k')
    (hblocks : HasBlocks s (s.inode k')) : HasBlocks s' (s'.inode k') := by
  rw [h.inode k' hne]
  intro i hi
  rw [h.data_direct hne hk' hi]
  exact hblocks i hi

end Leaves

/-- The blocks of `D` are free. -/
@[simps]
noncomputable def release (s : FsState) (D : Set Nat) : FsState :=
  open Classical in { s with blockUsed := fun x => if x ∈ D then false else s.blockUsed x }

theorem Owned.release {D : Set Nat} (h : Owned s) (hD : ∀ x ∈ D, 517 ≤ x)
    (hfree : ∀ k, Live s k → ∀ a : Place, a.Fits → blockAt s (s.inode k) a ≠ 0 →
      (blockAt s (s.inode k) a).toNat ∉ D) : Owned (release s D) := by
  refine h.of_blockAt_eq ?_ (fun _ hk => hk) (fun _ _ _ _ => rfl) ?_ h.settled
  · intro x hx
    rw [release_blockUsed, if_neg fun hmem => absurd (hD x hmem) (by omega)]
    exact h.tables x hx
  · intro k hk a ha hne
    rw [release_blockUsed, if_neg (hfree k hk a ha hne)]
    exact (h.isData k hk a ha hne).2

theorem Owned.freeInode (h : Owned s) (k : Nat) : Owned (s.setInodeUsed k false) := by
  have hlive : ∀ k', Live (s.setInodeUsed k false) k' → Live s k' := by
    rintro k' ⟨hlt, hused⟩
    rw [FsState.setInodeUsed_inodeUsed, Function.update_apply] at hused
    split at hused
    next => cases hused
    next => exact ⟨hlt, hused⟩
  exact h.of_blockAt_eq h.tables hlive (fun _ _ _ _ => rfl)
    (fun k' hk' a ha hne => (h.isData k' (hlive k' hk') a ha hne).2)
    fun k' hk' => h.settled k' (hlive k' hk')

end LabKernel.BlockOwnership
