import LabKernel.BlockOwnership

/-!
What creating and removing a name does to the slots of the current directory
and to the rest of the disk.
-/

namespace LabKernel.DirectoryCalls

open LabKernel.BlockCache
open LabKernel.BlockObject
open LabKernel.BlockOwnership
open LabKernel.ByteMemory
open LabKernel.DirectData
open LabKernel.Directories
open LabKernel.FsCode
open LabKernel.FsLayout
open LabKernel.FsPrimitives
open LabKernel.FsTables
open LabKernel.ProgramLogic

variable {m m' : Machine Bytes Globals} {s s' s₁ : FsState} {n : Inode} {path : List UInt8}
  {i j lo mid hi q q' : Nat} {e e' : DirEntry} {d : Bytes} {p : UInt32}

/-- The current directory is allocated, and its blocks are settled. -/
structure Standing (s : FsState) : Prop where
  owned : Owned s
  live : Live s s.cwd.toNat
  hasBlocks : HasBlocks s s.here
  type : s.here.type = 1

/-- The valid entry at index `j` of a block. -/
def entryOf (d : Bytes) (j : Nat) : Option DirEntry :=
  if (DirEntry.ofBytes d j).valid ≠ 0 then some (DirEntry.ofBytes d j) else none

theorem slot_of_data (hne : direct n (q / 128) ≠ 0)
    (hd : s.data (direct n (q / 128)).toNat = some d) : slot s n q = entryOf d (q % 128) := by
  unfold slot entryOf
  rw [hd]
  simp only [hne, ne_eq, not_false_eq_true, true_and]

theorem entryOf_zeros (j : Nat) : entryOf zeros j = none := by
  rw [entryOf, if_neg]
  simp [DirEntry.ofBytes, get32_zeros]

/-- Slot `q` of the current directory has become `new`, and nothing else on
the disk is different for the other inodes.  What is new in the map is a block
of the directory. -/
structure SlotSet (s s' : FsState) (q : Nat) (new : Option DirEntry) : Prop where
  leaves : Leaves s.cwd.toNat s s'
  owned : Owned s'
  hasBlocks : HasBlocks s' s'.here
  type : s'.here.type = s.here.type
  linkCnt : s'.here.linkCnt = s.here.linkCnt
  slot_self : slot s' s'.here q = new
  slot_of_ne : ∀ q' ≠ q, slot s' s'.here q' = slot s s.here q'
  kept : ∀ i, direct s.here i ≠ 0 → direct s'.here i = direct s.here i
  blockDrift : s'.blockDrift = s.blockDrift
  inodeDrift : s'.inodeDrift = s.inodeDrift
  used : ∀ x, s.blockUsed x = true → s'.blockUsed x = true
  gained : ∀ x, s'.blockUsed x = true → s.blockUsed x = true ∨
    ∃ i, direct s'.here i ≠ 0 ∧ x = (direct s'.here i).toNat

theorem SlotSet.standing {new : Option DirEntry} (h : SlotSet s s' q new) (hs : Standing s) :
    Standing s' := by
  refine ⟨h.owned, ?_, h.hasBlocks, h.type.trans hs.type⟩
  rw [h.leaves.cwd]
  exact h.leaves.live hs.live

theorem pointer_setDirect (hi : i < 8) (r : Root) :
    pointer (setDirect n i p) r = pointer (setPointer n (.direct ⟨i, hi⟩) p) r := by
  cases r with
  | direct j =>
      simp only [pointer, setDirect, setPointer, Function.update_apply, Fin.ext_iff]
  | _ => rfl

theorem direct_eq_pointer (hi : i < 8) : direct n i = pointer n (.direct ⟨i, hi⟩) := dif_pos hi

theorem direct_congr {n n' : Inode} (h : ∀ r, pointer n' r = pointer n r) (i : Nat) :
    direct n' i = direct n i := by
  rcases lt_or_ge i 8 with hi | hi
  · rw [direct_eq_pointer hi, direct_eq_pointer hi, h]
  · rw [direct, direct, dif_neg (by omega), dif_neg (by omega)]

/-- The ownership after a block behind a direct pointer was written. -/
theorem owned_of_pointed {k : Nat} {n' : Inode} {d' : Bytes} (h : Owned s) (hk : Live s k)
    (hi : i < 8) (hpointed : Pointed s (direct (s.inode k) i) p s₁) (hp : IsData p)
    (hn' : ∀ r, pointer n' r = pointer (setDirect (s.inode k) i p) r) :
    Owned ((s₁.setData p.toNat (some d')).setInode k n') := by
  set r : Root := .direct ⟨i, hi⟩ with hr
  have hleaf : ¬Place.Inner ⟨r, []⟩ := Nat.lt_irrefl 0
  have hdirect : direct (s.inode k) i = pointer (s.inode k) r := direct_eq_pointer hi
  cases hpointed with
  | old hne =>
      rw [hdirect] at hne hn' ⊢
      refine ((h.setData_leaf hk (fits_root r) hleaf hne (some d')).1).setInode ?_
      intro r'
      rw [hn', pointer_setDirect hi, ← hr]
      exact congrArg (fun n => pointer n r') (setPointer_self _ r)
  | new hzero hfree =>
      rw [hdirect] at hzero
      have hattach := h.attachRoot hp hfree hzero
      have hself : (attachRoot s k r p).inode k = setPointer (s.inode k) r p :=
        Function.update_self ..
      have hblock : blockAt (attachRoot s k r p) ((attachRoot s k r p).inode k) ⟨r, []⟩ = p := by
        rw [hself, blockAt_root, pointer_setPointer, if_pos rfl]
      have hwrite := (hattach.setData_leaf (k := k) hk (fits_root r) hleaf (by
        rw [hblock]
        exact ne_zero_of_isData hp) (some d')).1
      rw [hblock] at hwrite
      have hsame : ((((s.setBlockUsed p.toNat true).setData p.toNat none).setData p.toNat
          (some d')).setInode k n') = (((attachRoot s k r p).setData p.toNat
            (some d')).setInode k n') := by
        simp only [attachRoot, FsState.setInode, FsState.setData, FsState.setBlockUsed,
          Function.update_idem]
      rw [hsame]
      refine hwrite.setInode fun r' => ?_
      rw [hn', pointer_setDirect hi]
      exact congrArg (fun n => pointer n r') hself.symm

theorem ne_of_pointed {a : Place} {j k : Nat} (h : Owned s) (hj : Live s j) (hi : i < 8)
    (hpointed : Pointed s (direct (s.inode j) i) p s₁) (hk : Live s k) (ha : a.Fits)
    (hne : blockAt s (s.inode k) a ≠ 0) (hother : k ≠ j ∨ a ≠ ⟨.direct ⟨i, hi⟩, []⟩) :
    (blockAt s (s.inode k) a).toNat ≠ p.toNat := by
  intro heq
  cases hpointed with
  | old hne' =>
      obtain ⟨hkk, haa⟩ := h.unique k j hk hj a ⟨.direct ⟨i, hi⟩, []⟩ ha (fits_root _) hne
        ((UInt32.toNat_inj.mp heq).trans (direct_eq_pointer hi))
      exact hother.elim (fun h => h hkk) fun h => h haa
  | new _ hfree =>
      rw [← heq, (h.isData k hk a ha hne).2] at hfree
      cases hfree

theorem data_of_pointed {pointer : UInt32} {x : Nat} (hpointed : Pointed s pointer p s₁)
    (hx : x ≠ p.toNat) : s₁.data x = s.data x := by
  cases hpointed with
  | old _ => rfl
  | new _ _ => exact Function.update_of_ne hx ..

theorem slotSet_of_write {n' : Inode} {d' : Bytes} {new : Option DirEntry} (hs : Standing s)
    (hq : q < 1024) (hpointed : Pointed s (direct s.here (q / 128)) p s₁) (hp : IsData p)
    (hheld : Held s (direct s.here (q / 128)) d)
    (hn' : n' = { setDirect s.here (q / 128) p with size := n'.size })
    (hentry : ∀ j < 128, entryOf d' j = if j = q % 128 then new else entryOf d j) :
    SlotSet s ((s₁.setData p.toNat (some d')).setInode s.cwd.toNat n') q new := by
  have hi : q / 128 < 8 := by omega
  set s' := (s₁.setData p.toNat (some d')).setInode s.cwd.toNat n' with hs'
  have hcwd : s'.cwd = s.cwd := by
    cases hpointed <;> rfl
  have hhere : s'.here = n' := by
    rw [FsState.here, hcwd]
    exact Function.update_self ..
  have hdirect : ∀ i', direct s'.here i' = if i' = q / 128 then p else direct s.here i' := by
    intro i'
    rw [hhere, hn']
    exact direct_setDirect hi
  have hdata_p : s'.data p.toNat = some d' := Function.update_self ..
  have hdata : ∀ x ≠ p.toNat, s'.data x = s.data x := fun x hx =>
    (Function.update_of_ne hx ..).trans (data_of_pointed hpointed hx)
  have hpne : p ≠ 0 := ne_zero_of_isData hp
  -- The other blocks of the directory are left alone.
  have hothers : ∀ i', i' ≠ q / 128 → direct s.here i' ≠ 0 →
      s'.data (direct s.here i').toNat = s.data (direct s.here i').toNat := by
    intro i' hne hne'
    have hi' : i' < 8 := by
      by_contra hle
      exact hne' (dif_neg hle)
    refine hdata _ ?_
    rw [direct_eq_pointer hi'] at hne' ⊢
    refine ne_of_pointed hs.owned hs.live hi hpointed hs.live (fits_root (.direct ⟨i', hi'⟩)) hne'
      (Or.inr ?_)
    intro heq
    simp only [Place.mk.injEq, Root.direct.injEq, Fin.mk.injEq, and_true] at heq
    exact hne heq
  refine ⟨⟨?_, hcwd, ?_, ?_, ?_⟩,
    owned_of_pointed hs.owned hs.live hi hpointed hp fun r => ?_, ?_, ?_, ?_, ?_, ?_,
    fun i' hne => ?_, ?_, ?_, fun x hx => ?_, fun x hx => ?_⟩
  · cases hpointed <;> rfl
  · cases hpointed <;> rfl
  · intro k' hk'
    rw [hs', FsState.setInode_inode, Function.update_of_ne hk']
    cases hpointed <;> rfl
  · intro k' hkk hk' a ha hne
    exact hdata _ (ne_of_pointed hs.owned hs.live hi hpointed hk' ha hne (Or.inl hkk))
  · rw [hn']
    cases r <;> rfl
  · intro i' hne
    rw [hdirect] at hne ⊢
    split at hne
    next heq =>
      rw [if_pos heq]
      exact ⟨hp, d', hdata_p⟩
    next hne' =>
      rw [if_neg hne', hothers i' hne' hne]
      exact hs.hasBlocks i' hne
  · rw [hhere, hn']
    rfl
  · rw [hhere, hn']
    rfl
  · have hblock : direct s'.here (q / 128) = p := by rw [hdirect, if_pos rfl]
    rw [slot_of_data (by rw [hblock]; exact hpne) (by rw [hblock]; exact hdata_p),
      hentry _ (Nat.mod_lt _ (by omega)), if_pos rfl]
  · intro q' hne
    rcases eq_or_ne (q' / 128) (q / 128) with heq | hne'
    · have hblock : direct s'.here (q' / 128) = p := by rw [hdirect, if_pos heq]
      rw [slot_of_data (by rw [hblock]; exact hpne) (by rw [hblock]; exact hdata_p),
        hentry _ (Nat.mod_lt _ (by omega)), if_neg (by omega)]
      rcases eq_or_ne (direct s.here (q / 128)) 0 with hzero | hold
      · rw [hheld.1 hzero, entryOf_zeros, slot_of_zero (by rw [heq]; exact hzero)]
      · obtain ⟨-, d₀, hd₀⟩ := hs.hasBlocks _ hold
        rw [hheld.2 hold d₀ hd₀, slot_of_data (by rw [heq]; exact hold) (by rw [heq]; exact hd₀)]
    · have hblock : direct s'.here (q' / 128) = direct s.here (q' / 128) := by
        rw [hdirect, if_neg hne']
      rcases eq_or_ne (direct s.here (q' / 128)) 0 with hzero | hne''
      · rw [slot_of_zero hzero, slot_of_zero (hblock.trans hzero)]
      · unfold slot
        rw [hblock, hothers _ hne' hne'']
  · rw [hdirect]
    split
    next heq =>
      rw [heq] at hne ⊢
      cases hpointed with
      | old _ => rfl
      | new hzero _ => exact absurd hzero hne
    next => rfl
  · cases hpointed <;> rfl
  · cases hpointed <;> rfl
  · cases hpointed with
    | old _ => exact hx
    | new _ _ => exact (Function.update_apply ..).trans (by rw [hx, ite_self])
  · rcases eq_or_ne x p.toNat with rfl | hne
    · refine Or.inr ⟨q / 128, ?_⟩
      rw [hdirect, if_pos rfl]
      exact ⟨hpne, rfl⟩
    · cases hpointed with
      | old _ => exact Or.inl hx
      | new _ _ => exact Or.inl ((Function.update_of_ne hne ..).symm.trans hx)

theorem entryOf_copy {j₀ : Nat} (hname : NameOk e.name) (hvalid : e.valid ≠ 0) (j : Nat) :
    entryOf (copy d (32 * j₀) e.toBytes 0 32) j = if j = j₀ then some e else entryOf d j := by
  split
  next heq =>
    have hself : DirEntry.ofBytes (copy d (32 * j₀) e.toBytes 0 32) j = e := by
      rw [heq]
      refine Eq.trans (DirEntry.ofBytes_congr fun i hi => ?_) (DirEntry.ofBytes_toBytes e hname)
      rw [copy_inside (by omega) (by omega)]
      congr 1
      omega
    rw [entryOf, hself, if_pos hvalid]
  next hne =>
    have hother : DirEntry.ofBytes (copy d (32 * j₀) e.toBytes 0 32) j = DirEntry.ofBytes d j :=
      DirEntry.ofBytes_congr fun i hi => copy_outside (by omega)
    rw [entryOf, entryOf, hother]

theorem Inserted.slotSet {d : Bytes} (h : Inserted s s' q e s₁ d p) (hs : Standing s)
    (hq : q < 1024) (hname : NameOk e.name) (hvalid : e.valid ≠ 0) :
    SlotSet s s' q (some e) ∧ s'.here.size = s.here.size + 1 := by
  have hcwd : s'.cwd = s.cwd := by
    rw [h.eq]
    cases h.pointed <;> rfl
  refine ⟨?_, ?_⟩
  · rw [h.eq]
    exact slotSet_of_write hs hq h.pointed h.isData h.held rfl fun j _ =>
      entryOf_copy hname hvalid j
  · rw [FsState.here, hcwd, h.eq, FsState.setInode_inode, Function.update_self]

/-- The state after the entry in slot `q` of the current directory was
cleared and counted. -/
def removed (s : FsState) (q : Nat) (d : Bytes) : FsState :=
  (s.setData (direct s.here (q / 128)).toNat (some (put32 d (32 * (q % 128) + 4) 0))).setInode
    s.cwd.toNat { s.here with size := s.here.size - 1 }

theorem entryOf_clear (j₀ j : Nat) :
    entryOf (put32 d (32 * j₀ + 4) 0) j = if j = j₀ then none else entryOf d j := by
  split
  next heq =>
    rw [entryOf, if_neg]
    simp only [DirEntry.ofBytes, heq, dirEntrySize, get32_put32_self, ne_eq, not_true_eq_false,
      not_false_eq_true]
  next hne =>
    have hother : DirEntry.ofBytes (put32 d (32 * j₀ + 4) 0) j = DirEntry.ofBytes d j :=
      DirEntry.ofBytes_congr fun i hi => put32_outside (by omega)
    rw [entryOf, entryOf, hother]

theorem removed_slotSet (hs : Standing s) (hq : q < 1024) (hne : direct s.here (q / 128) ≠ 0)
    (hd : s.data (direct s.here (q / 128)).toNat = some d) :
    SlotSet s (removed s q d) q none ∧ (removed s q d).here.size = s.here.size - 1 := by
  have hsame : setDirect s.here (q / 128) (direct s.here (q / 128)) = s.here := by
    unfold setDirect
    have : (fun j : Fin 8 => if (j : Nat) = q / 128 then direct s.here (q / 128)
        else s.here.dataDirect j) = s.here.dataDirect := by
      funext j
      split
      next heq => rw [← heq, direct, dif_pos j.isLt]
      next => rfl
    rw [this]
  refine ⟨slotSet_of_write hs hq (.old hne) (hs.hasBlocks _ hne).1 ⟨fun hzero => absurd hzero hne,
    fun _ d' hd' => Option.some.inj (hd.symm.trans hd')⟩ ?_ fun j _ => entryOf_clear _ j, ?_⟩
  · rw [hsame]
  · have hhere : (removed s q d).here = { s.here with size := s.here.size - 1 } :=
      Function.update_self ..
    rw [hhere]

/-- The inode of a new entry: the one that is given, or a new empty one. -/
inductive Provided (s : FsState) (newInodeIdx : UInt32) : UInt32 → FsState → Prop where
  | given : newInodeIdx ≠ 0 → Provided s newInodeIdx newInodeIdx s
  | new {ino : UInt32} : newInodeIdx = 0 → ino.toNat < maxInodeNum →
      s.inodeUsed ino.toNat = false →
      Provided s newInodeIdx ino ((s.setInodeUsed ino.toNat true).setInode ino.toNat Inode.empty)

theorem entryInode_realizes {newInodeIdx : UInt32} (h : Realizes m s) :
    Runs (entryInode newInodeIdx) m Full fun ino m' =>
      ∃ s', Provided s newInodeIdx ino s' ∧ Realizes m' s' := by
  unfold entryInode
  split
  next hzero =>
    refine (inodeAlloc_realizes h).bind ?_
    rintro ino m₁ ⟨hlt, hfree, h₁⟩
    refine (writeInode_realizes h₁ hlt).bind ?_
    intro _ m₂ h₂
    exact runs_pure ⟨_, .new hzero hlt hfree, h₂⟩
  next hne => exact runs_pure ⟨s, .given hne, h⟩

/-- The current directory does not change with the inode of the entry. -/
theorem Provided.here_eq {newInodeIdx ino : UInt32} (h : Provided s newInodeIdx ino s')
    (hs : Standing s) : s'.cwd = s.cwd ∧ s'.here = s.here ∧ s'.data = s.data := by
  cases h with
  | given _ => exact ⟨rfl, rfl, rfl⟩
  | new _ _ hfree =>
      refine ⟨rfl, Function.update_of_ne (fun heq => ?_) .., rfl⟩
      have hcwd : s.cwd.toNat = _ := heq
      rw [← hcwd, hs.live.2] at hfree
      cases hfree

theorem slot_congr (hdata : s'.data = s.data) (n : Inode) (q : Nat) : slot s' n q = slot s n q := by
  unfold slot
  rw [hdata]

theorem Provided.standing {newInodeIdx ino : UInt32} (h : Provided s newInodeIdx ino s')
    (hs : Standing s) : Standing s' := by
  obtain ⟨hcwd, hhere, hdata⟩ := h.here_eq hs
  refine ⟨?_, ?_, ?_, hhere ▸ hs.type⟩
  · cases h with
    | given _ => exact hs.owned
    | new _ _ _ =>
        refine hs.owned.newInode fun r => ?_
        cases r <;> rfl
  · rw [hcwd]
    refine ⟨hs.live.1, ?_⟩
    cases h with
    | given _ => exact hs.live.2
    | new _ _ _ =>
        rw [FsState.setInode_inodeUsed, FsState.setInodeUsed_inodeUsed, Function.update_apply,
          hs.live.2, ite_self]
  · rw [hhere]
    intro i hi
    rw [hdata]
    exact hs.hasBlocks i hi

theorem missingBlock_cases (n : Inode) (left i : Nat) :
    (∃ i', i ≤ i' ∧ i' < i + left ∧ direct n i' = 0 ∧ missingBlock n left i = 128 * i') ∨
      ((∀ i', i ≤ i' → i' < i + left → direct n i' ≠ 0) ∧ missingBlock n left i = 0) := by
  induction left generalizing i with
  | zero => exact Or.inr ⟨fun i' hle hlt => absurd hlt (by omega), rfl⟩
  | succ left ih =>
      rw [missingBlock]
      split
      next hzero =>
        refine Or.inl ⟨i, le_refl _, by omega, hzero, ?_⟩
        rw [show dirEntryPerBlock = 128 by decide, mul_comm]
      next hne =>
        rcases ih (i + 1) with ⟨i', hle, hlt, hzero, heq⟩ | ⟨hall, heq⟩
        · exact Or.inl ⟨i', by omega, by omega, hzero, heq⟩
        · refine Or.inr ⟨fun i' hle hlt => ?_, heq⟩
          rcases Nat.eq_or_lt_of_le hle with rfl | hlt'
          · exact hne
          · exact hall i' hlt' (by omega)

/-- The slot for a new entry: a free one, or slot 0 if the directory is full. -/
def Chosen (s : FsState) (n : Inode) (q : Nat) : Prop :=
  slot s n q = none ∨ q = 0 ∧ ∀ q', 0 < q' → q' < 1024 → slot s n q' ≠ none

theorem chosen_of_chooses {f : Nat} (h : Chooses (FreeSlot s n) 0 1024 0 f) :
    (if f = 0 then missingBlock n inodeDataDirect 0 else f) < 1024 ∧
      Chosen s n (if f = 0 then missingBlock n inodeDataDirect 0 else f) := by
  rcases h with ⟨hne, -⟩ | ⟨-, hne, -, hlt, hfree⟩ | ⟨-, rfl, hnone⟩
  · exact absurd rfl hne
  · rw [if_neg hne]
    exact ⟨hlt, Or.inl hfree.2⟩
  · rw [if_pos rfl]
    rcases missingBlock_cases n inodeDataDirect 0 with ⟨i, -, hi, hzero, heq⟩ | ⟨hall, heq⟩
    · rw [inodeDataDirect] at hi
      rw [heq]
      refine ⟨by omega, Or.inl (slot_of_zero ?_)⟩
      rw [show 128 * i / 128 = i by omega]
      exact hzero
    · rw [heq]
      refine ⟨by omega, Or.inr ⟨rfl, fun q' hpos hlt hfree => ?_⟩⟩
      refine hnone q' (Nat.zero_le _) hlt (by omega) ⟨hall _ (Nat.zero_le _) ?_, hfree⟩
      rw [inodeDataDirect]
      omega

/-- `get_inode_by_filename(path, true, new_inode_idx)` for a name that is not
there. -/
structure Created (s : FsState) (path : List UInt8) (newInodeIdx ino : UInt32) (q : Nat)
    (s₀ s' : FsState) : Prop where
  misses : Misses s s.here path 0 1024
  provided : Provided s newInodeIdx ino s₀
  lt : q < 1024
  chosen : Chosen s s.here q
  slotSet : SlotSet s₀ s' q (some ⟨ino, 1, path⟩)
  size : s'.here.size = s.here.size + 1

theorem getInode_realizes {newInodeIdx : UInt32} (h : Realizes m s) (hs : Standing s)
    (hname : NameOk path) :
    Runs (getInodeByFilename path true newInodeIdx) m Full fun ino m' => ∃ s', Realizes m' s' ∧
      ((s' = s ∧ ∃ q e, Finds s s.here path 0 1024 q e ∧ ino = e.inode) ∨
        ∃ q s₀, Created s path newInodeIdx ino q s₀ s') := by
  refine runs_cwdNode.bind ?_
  rintro _ m ⟨rfl, rfl⟩
  rw [h.cwd]
  refine (readInode_realizes h hs.live.1).bind ?_
  rintro _ m₁ ⟨rfl, h₁⟩
  refine (scanBlocks_realizes h₁ hs.hasBlocks).bind ?_
  rintro ⟨found, f⟩ m₂ ⟨h₂, hscan⟩
  rcases hscan with ⟨q, e, hfinds, hr⟩ | ⟨hr, hmiss, hchoose⟩
  · simp only at hr
    subst hr
    exact runs_pure ⟨s, h₂, Or.inl ⟨rfl, q, e, hfinds, rfl⟩⟩
  · simp only at hr
    subst hr
    obtain ⟨hlt, hchosen⟩ := chosen_of_chooses hchoose
    simp only at hlt hchosen
    refine (entryInode_realizes h₂).bind ?_
    rintro ino m₃ ⟨s₀, hprovided, h₃⟩
    obtain ⟨hcwd, hhere, hdata⟩ := hprovided.here_eq hs
    have hs₀ := hprovided.standing hs
    have htype : s₀.here.type ≠ 2 := by
      rw [hs₀.type]
      decide
    have hinsert := @insertEntry_realizes m₃ s₀ path _ ino Full (fun _ _ => True) h₃
      hs₀.owned.tables hs₀.live.1 hs₀.hasBlocks htype hlt fun _ => blockAlloc_full h₃
    rw [hhere] at hinsert
    refine hinsert.mono (fun _ _ he => he) ?_
    rintro r m₄ ⟨rfl, s', s₁, d, p, h', hinserted, -⟩
    obtain ⟨hset, hsize⟩ := Inserted.slotSet hinserted hs₀ hlt hname (by simp)
    exact ⟨s', h', Or.inr ⟨_, s₀, hmiss, hprovided, hlt, hchosen, hset, by rw [hsize, hhere]⟩⟩

theorem findEntry_cases {left : Nat} (hd : s.data (direct n i).toNat = some d)
    (hi : direct n i ≠ 0) (hle : j + left ≤ 128) :
    (∃ j' e, j' < 128 ∧ Finds s n path (128 * i + j) (128 * i + j + left) (128 * i + j') e ∧
      findEntry d path left j = some j') ∨
    (findEntry d path left j = none ∧ Misses s n path (128 * i + j) (128 * i + j + left)) := by
  induction left generalizing j with
  | zero => exact Or.inr ⟨rfl, fun q hle hlt => absurd hlt (by omega)⟩
  | succ left ih =>
      have hslot := slot_block hd hi (j := j) (by omega)
      rw [findEntry]
      split
      next hmatch =>
        rw [if_pos hmatch.1] at hslot
        exact Or.inl ⟨j, _, by omega, ⟨le_refl _, by omega, hslot, hmatch.2,
          fun q' hle hlt => absurd hlt (by omega)⟩, rfl⟩
      next hno =>
        have hmiss : Misses s n path (128 * i + j) (128 * i + (j + 1)) := by
          intro q hle hlt e he hname
          rw [show q = 128 * i + j by omega, hslot] at he
          split at he
          next hvalid =>
            rw [← Option.some.inj he] at hname
            exact hno ⟨hvalid, hname⟩
          next => cases he
        have hend : 128 * i + (j + 1) + left = 128 * i + j + (left + 1) := by omega
        have := @ih (j + 1) (by omega)
        rw [hend] at this
        rcases this with ⟨j', e, hj', hfinds, hresult⟩ | ⟨hresult, hmiss'⟩
        · exact Or.inl ⟨j', e, hj', hmiss.finds hfinds (by omega), hresult⟩
        · exact Or.inr ⟨hresult, hmiss.append hmiss'⟩

theorem finds_of_misses (h : Finds s n path lo hi q e) (hmiss : Misses s n path lo mid)
    (hle : lo ≤ mid) : Finds s n path mid hi q e := by
  refine ⟨?_, h.lt, h.slot_eq, h.name_eq, fun q' hle' => h.first q' (hle.trans hle')⟩
  by_contra hlt
  exact hmiss q h.le (not_le.mp hlt) e h.slot_eq h.name_eq

theorem misses_of_direct_zero (h : direct n i = 0) :
    Misses s n path (128 * i) (128 * (i + 1)) := by
  intro q hle hlt e he
  rw [slot_of_zero (by rw [show q / 128 = i by omega]; exact h)] at he
  cases he

theorem removeEntry_realizes {left : Nat} (h : Realizes m s) (hs : Standing s)
    (hfinds : Finds s s.here path (128 * i) (128 * (i + left)) q e)
    {E : Failure → Machine Bytes Globals → Prop} :
    Runs (removeEntry s.here path left i) m E fun _ m' =>
      ∃ d, s.data (direct s.here (q / 128)).toNat = some d ∧ Realizes m' (removed s q d) := by
  induction left generalizing i m with
  | zero => exact absurd hfinds.lt (by have := hfinds.le; omega)
  | succ left ih =>
      have hend : i + 1 + left = i + (left + 1) := by omega
      rw [removeEntry]
      split
      next hi =>
        obtain ⟨hp, d, hd⟩ := hs.hasBlocks i hi
        refine open_load_realizes h hp hd fun block m₁ hid hfresh h₁ => ?_
        have hfind := @findEntry_cases s s.here path i 0 d 128 hd hi (by omega)
        rw [show 128 * i + 0 + 128 = 128 * (i + 1) by omega, Nat.add_zero] at hfind
        rw [show dirEntryPerBlock = 128 by decide]
        rcases hfind with ⟨j, e', hj, hfinds', hresult⟩ | ⟨hresult, hmiss⟩
        · rw [hresult]
          obtain ⟨rfl, rfl⟩ := hfinds.unique (hfinds'.mono (by omega))
          refine store_update_realizes h₁ hfresh (hid ▸ hp) fun m₂ h₂ _ => ?_
          refine runs_cwdNode.bind ?_
          rintro _ m₂ ⟨rfl, rfl⟩
          rw [h₂.cwd]
          refine (writeInode_realizes h₂ hs.live.1).mono (fun _ _ he => he) ?_
          intro _ m₃ h₃
          refine ⟨d, ?_, ?_⟩
          · rw [show (128 * i + j) / 128 = i by omega]
            exact hd
          · rw [removed, show (128 * i + j) / 128 = i by omega,
              show (128 * i + j) % 128 = j by omega]
            rw [hid] at h₃
            exact h₃
        · rw [hresult]
          refine ih h₁ ?_
          rw [hend]
          exact finds_of_misses hfinds hmiss (by omega)
      next hi =>
        refine ih h ?_
        rw [hend]
        exact finds_of_misses hfinds (misses_of_direct_zero (not_not.mp hi)) (by omega)

theorem removeInode_realizes (h : Realizes m s) (hs : Standing s)
    (hfinds : Finds s s.here path 0 1024 q e) {E : Failure → Machine Bytes Globals → Prop} :
    Runs (removeInodeByFilename path) m E fun _ m' => ∃ s', Realizes m' s' ∧
      SlotSet s s' q none ∧ s'.here.size = s.here.size - 1 ∧ s'.blockUsed = s.blockUsed := by
  refine runs_cwdNode.bind ?_
  rintro _ m ⟨rfl, rfl⟩
  rw [h.cwd]
  refine (readInode_realizes h hs.live.1).bind ?_
  rintro _ m₁ ⟨rfl, h₁⟩
  refine (removeEntry_realizes h₁ hs hfinds).mono (fun _ _ he => he) ?_
  rintro _ m' ⟨d, hd, h'⟩
  have hne : direct s.here (q / 128) ≠ 0 := by
    intro hzero
    have hslot := hfinds.slot_eq
    rw [slot_of_zero hzero] at hslot
    cases hslot
  obtain ⟨hset, hsize⟩ := removed_slotSet hs hfinds.lt hne hd
  exact ⟨_, h', hset, hsize, rfl⟩

end LabKernel.DirectoryCalls
