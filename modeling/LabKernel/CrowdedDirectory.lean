import LabKernel.BitMaps
import LabKernel.NameInsertion

/-!
A directory without a free slot: `fs_touch` creates 1022 files in the root
directory of a new file system.
-/

namespace LabKernel.CrowdedDirectory

open LabKernel.BitMaps
open LabKernel.BlockCache
open LabKernel.BlockFreeing
open LabKernel.BlockObject
open LabKernel.BlockOwnership
open LabKernel.ByteMemory
open LabKernel.ComposedPrograms
open LabKernel.Directories
open LabKernel.DirectoryCalls
open LabKernel.Formatting
open LabKernel.FsCode
open LabKernel.FsLayout
open LabKernel.FsPrimitives
open LabKernel.FsRuns
open LabKernel.FsTables
open LabKernel.FsView
open LabKernel.NameInsertion
open LabKernel.PathWalks
open LabKernel.ProgramLogic
open LabKernel.TidyCalls
open LabKernel.TidyDisk
open LabKernel.TidyRuns
open LabKernel.TransitionSystem

variable {m m' : Machine Bytes Globals} {s s' s₀ s₁ : FsState} {path : List UInt8} {k q : Nat}
  {e : DirEntry} {ino : UInt32} {used used' : Nat → Bool} {size : Nat}
  {freeMin allocated : UInt32}

theorem exists_free (h : (taken used size).card < size) : ∃ b < size, used b = false := by
  by_contra hnone
  have hall : taken used size = Finset.range size := by
    ext b
    rw [mem_taken, Finset.mem_range]
    refine and_iff_left_of_imp fun hb => ?_
    by_contra hfree
    exact hnone ⟨b, hb, Bool.eq_false_of_not_eq_true hfree⟩
  rw [hall, Finset.card_range] at h
  exact lt_irrefl _ h

theorem all_taken (h : size ≤ (taken used size).card) {b : Nat} (hb : b < size) :
    used b = true := by
  have hall : taken used size = Finset.range size := by
    refine Finset.eq_of_subset_of_card_le (Finset.filter_subset _ _) ?_
    rwa [Finset.card_range]
  exact (mem_taken.mp (hall ▸ Finset.mem_range.mpr hb)).2

theorem OneMore.card_le (h : OneMore used used') (size : Nat) :
    (taken used' size).card ≤ (taken used size).card + 1 := by
  obtain ⟨n, hn⟩ := h
  refine (Finset.card_le_card (t := insert n (taken used size)) fun b hb => ?_).trans
    (Finset.card_insert_le _ _)
  obtain ⟨hlt, hused⟩ := mem_taken.mp hb
  rcases hn b hused with hold | heq
  · exact Finset.mem_insert_of_mem (mem_taken.mpr ⟨hlt, hold⟩)
  · exact Finset.mem_insert.mpr (Or.inl heq)

theorem Tally.congr (h : Tally used size freeMin allocated) (hsame : ∀ b < size, used' b = used b) :
    Tally used' size freeMin allocated := by
  refine ⟨fun b hb hlt => (hsame b hlt).trans (h.freeMin b hb hlt), ?_⟩
  rw [taken_congr hsame]
  exact h.allocated

theorem fsTouch_creates (h : Realizes m s) (ht : Tallied m.globals.superblock s) (ho : InOrder s)
    (hname : NameOk path) (hmiss : lookup s s.here path = none)
    (hblock : ∃ b < maxBlockNum, s.blockUsed b = false)
    (hinode : ∃ k < maxInodeNum, s.inodeUsed k = false) :
    Runs (fsTouch path) m (fun _ _ => False) fun _ m' => ∃ ino q s₀ s₁,
      Created s path 0 ino q s₀ s₁ ∧ OneMore s.blockUsed s₁.blockUsed ∧
        OneMore s.inodeUsed s₁.inodeUsed ∧ Tallied m'.globals.superblock s₁ ∧
          Realizes m' (s₁.setInode ino.toNat
            { s₁.inode ino.toNat with type := 2, linkCnt := 1 }) := by
  refine (getInode_inserts (B := fun s g => Tallied g.superblock s) h ho.tidy.standing hname ht
    ?_ ?_ ?_).bind ?_
  · intro s s' g hblocks hinodes hs
    refine ⟨?_, ?_⟩
    · rw [hblocks]
      exact hs.blocks
    · rw [hinodes]
      exact hs.inodes
  · intro _ m₁ h₁ ht₁
    refine (inodeAlloc_accounted h₁ ht₁).mono ?_ fun _ _ hq => hq.2.2.2.tallied
    rintro _ _ ⟨-, hall⟩
    obtain ⟨k, hk, hfree⟩ := hinode
    rw [hall k hk] at hfree
    cases hfree
  · intro q _ _ ino s₀ m₁ hprovided h₁ ht₁
    refine (blockAlloc_accounted h₁ ht₁).mono ?_ fun _ _ hq => hq.2.2.2.2.tallied
    rintro _ _ ⟨-, hall⟩
    obtain ⟨b, hb, hfree⟩ := hblock
    rw [← (Provided.oneMore hprovided).1, hall b hb] at hfree
    cases hfree
  · rintro ino m₁ ⟨s₁, h₁, ht₁, ⟨rfl, q, e, hfinds, -⟩ | ⟨q, s₀, hcreated, hblocks, hinodes⟩⟩
    · rw [lookup_of_finds hfinds] at hmiss
      cases hmiss
    · have hnew := newName_of_created ho hcreated
      rw [not_isNegative hnew.live.1, if_neg Bool.false_ne_true]
      refine (runs_silent (silent_composed (composed_readInode _)) (readInode_realizes h₁ hnew.live.1)).bind ?_
      rintro _ m₂ ⟨⟨rfl, h₂⟩, hg₂⟩
      have htype : (s₁.inode ino.toNat).type = 0 := by
        rw [hnew.inode]
        rfl
      rw [if_neg (not_not.mpr htype)]
      refine (writeInode_globals h₂ hnew.live.1).bind ?_
      rintro _ m₃ ⟨h₃, hg₃⟩
      refine runs_pure ⟨ino, q, s₀, s₁, hcreated, hblocks, hinodes, ?_, h₃⟩
      rwa [hg₃, hg₂]

theorem slot_touched (ho : InOrder s) (hcreated : Created s path 0 ino q s₀ s₁) (n : Inode)
    (q' : Nat) :
    slot (s₁.setInode ino.toNat n) (s₁.setInode ino.toNat n).here q' =
      if q' = q then some ⟨ino, 1, path⟩ else slot s s.here q' := by
  have hnew := newName_of_created ho hcreated
  have hset := hcreated.slotSet
  obtain ⟨hcwd₀, hhere₀, hdata₀⟩ := hcreated.provided.here_eq ho.tidy.standing
  have hcwd : s₁.cwd = s.cwd := hset.leaves.cwd.trans hcwd₀
  have hne : s₁.cwd.toNat ≠ ino.toNat := by
    intro heq
    apply hnew.dead
    rw [← heq, hcwd]
    exact ho.tidy.cwd.1
  have hhere : (s₁.setInode ino.toNat n).here = s₁.here := Function.update_of_ne hne ..
  rw [hhere]
  show slot s₁ s₁.here q' = _
  split
  next heq =>
    rw [heq]
    exact hset.slot_self
  next hq => rw [hset.slot_of_ne q' hq, hhere₀, slot_congr hdata₀]

/-- The name of file `i`. -/
def fileName (i : Nat) : List UInt8 := [UInt8.ofNat (97 + i / 32), UInt8.ofNat (97 + i % 32)]

theorem toNat_letter {n : Nat} (hn : n < 32) : (UInt8.ofNat (97 + n)).toNat = 97 + n := by
  rw [UInt8.toNat_ofNat']
  omega

theorem fileName_injective {i j : Nat} (hi : i < 1024) (hj : j < 1024)
    (h : fileName i = fileName j) : i = j := by
  obtain ⟨hhigh, hrest⟩ := List.cons.inj h
  have hlow := (List.cons.inj hrest).1
  have hdiv := congrArg UInt8.toNat hhigh
  have hmod := congrArg UInt8.toNat hlow
  rw [toNat_letter (by omega), toNat_letter (by omega)] at hdiv hmod
  omega

theorem nameOk_fileName {i : Nat} (hi : i < 1024) : NameOk (fileName i) := by
  have hletter : ∀ n < 32, UInt8.ofNat (97 + n) ≠ 0 := by
    intro n hn heq
    have hzero := congrArg UInt8.toNat heq
    rw [toNat_letter hn, show (0 : UInt8).toNat = 0 from rfl] at hzero
    omega
  refine ⟨show 2 < nameSize by decide, fun c hc => ?_⟩
  rcases List.mem_pair.mp hc with rfl | rfl
  · exact hletter _ (by omega)
  · exact hletter _ (by omega)

/-- The slots in use. -/
def inUse (s : FsState) (q : Nat) : Bool := (slot s s.here q).isSome

/-- The root directory with `k` files. -/
structure Filled (k : Nat) (m : Machine Bytes Globals) (s : FsState) : Prop where
  realizes : Realizes m s
  tallied : Tallied m.globals.superblock s
  inOrder : InOrder s
  blocks : (taken s.blockUsed maxBlockNum).card ≤ 518 + k
  inodes : (taken s.inodeUsed maxInodeNum).card ≤ 1 + k
  slots : (taken (inUse s) 1024).card = 2 + k
  names : ∀ q e, slot s s.here q = some e →
    e.name = dot ∨ e.name = dotDot ∨ ∃ i < k, e.name = fileName i

theorem filled_formatted (h : Formatted m) : ∃ s, Filled 0 m s := by
  obtain ⟨s, p, hs, hinitial⟩ := formatted_realizes h
  obtain ⟨s', haccounted, hnew⟩ := formatted_accounted h
  have hs' := haccounted.realizes
  have hblocks : ∀ b < maxBlockNum, s.blockUsed b = s'.blockUsed b := fun b hb =>
    (hs.blockUsed b hb).symm.trans (hs'.blockUsed b hb)
  have hinodes : ∀ k < maxInodeNum, s.inodeUsed k = s'.inodeUsed k := fun k hk =>
    (hs.inodeUsed k hk).symm.trans (hs'.inodeUsed k hk)
  refine ⟨s, hs, ⟨Tally.congr haccounted.tallied.blocks hblocks,
    Tally.congr haccounted.tallied.inodes hinodes⟩, inOrder_initial hinitial, ?_, ?_, ?_, ?_⟩
  · rw [taken_congr hblocks]
    refine (Finset.card_le_card (t := Finset.range 518) fun b hb => ?_).trans_eq
      (Finset.card_range 518)
    have hused := (mem_taken.mp hb).2
    rw [hnew.blockUsed, decide_eq_true_eq] at hused
    exact Finset.mem_range.mpr (Nat.lt_succ_of_le hused)
  · rw [taken_congr hinodes]
    refine (Finset.card_le_card (t := Finset.range 1) fun k hk => ?_).trans_eq
      (Finset.card_range 1)
    have hused := (mem_taken.mp hk).2
    rw [hnew.inodeUsed, decide_eq_true_eq] at hused
    exact Finset.mem_range.mpr (Nat.lt_one_iff.mpr hused)
  · have hpair : taken (inUse s) 1024 = {0, 1} := by
      ext q
      rw [mem_taken, inUse, hinitial.slot_eq, Finset.mem_insert, Finset.mem_singleton]
      constructor
      · rintro ⟨-, hsome⟩
        by_contra hnot
        obtain ⟨hzero, hone⟩ := not_or.mp hnot
        rw [if_neg hzero, if_neg hone] at hsome
        cases hsome
      · rintro (rfl | rfl)
        · exact ⟨by omega, rfl⟩
        · exact ⟨by omega, rfl⟩
    rw [hpair]
    rfl
  · intro q e he
    rw [hinitial.slot_eq] at he
    split at he
    next =>
      cases he
      exact Or.inl rfl
    next =>
      split at he
      next =>
        cases he
        exact Or.inr (Or.inl rfl)
      next => cases he

theorem Filled.misses (h : Filled k m s) (hdot : path ≠ dot) (hdots : path ≠ dotDot)
    (hnew : ∀ i < k, path ≠ fileName i) : lookup s s.here path = none := by
  refine lookup_of_misses fun q _ _ e he hname => ?_
  rcases h.names q e he with heq | heq | ⟨i, hi, heq⟩
  · exact hdot (hname.symm.trans heq)
  · exact hdots (hname.symm.trans heq)
  · exact hnew i hi (hname.symm.trans heq)

theorem Filled.touch (h : Filled k m s) (hk : k < 1022) :
    Runs (fsTouch (fileName k)) m (fun _ _ => False) fun _ m' => ∃ s', Filled (k + 1) m' s' := by
  have hmiss : lookup s s.here (fileName k) = none := by
    refine h.misses (fun heq => ?_) (fun heq => ?_) fun i hi heq => ?_
    · exact absurd (congrArg List.length heq) (show ¬ 2 = 1 by omega)
    · have hfirst := congrArg UInt8.toNat (List.cons.inj heq).1
      rw [toNat_letter (by omega), show (46 : UInt8).toNat = 46 from rfl] at hfirst
      omega
    · exact absurd (fileName_injective (by omega) (by omega) heq) hi.ne'
  have hblock := exists_free (h.blocks.trans_lt (show 518 + k < maxBlockNum by
    rw [maxBlockNum_eq]
    omega))
  have hinode := exists_free (h.inodes.trans_lt (show 1 + k < maxInodeNum by
    rw [maxInodeNum_eq]
    omega))
  refine (fsTouch_creates h.realizes h.tallied h.inOrder (nameOk_fileName (by omega)) hmiss hblock
    hinode).mono (fun _ _ he => he) ?_
  rintro _ m' ⟨ino, q, s₀, s₁, hcreated, hblocks, hinodes, htallied, h'⟩
  have hslot := slot_touched h.inOrder hcreated
    { s₁.inode ino.toNat with type := 2, linkCnt := 1 }
  have hfree : inUse s q = false := by
    have hnone : slot s s.here q = none := by
      rcases hcreated.chosen with hnone | ⟨rfl, hfull⟩
      · exact hnone
      · obtain ⟨q', hq', hunused⟩ := exists_free (h.slots.trans_lt (show 2 + k < 1024 by omega))
        have hnone : slot s s.here q' = none :=
          Option.isNone_iff_eq_none.mp (Option.isSome_eq_false_iff.mp hunused)
        rcases Nat.eq_zero_or_pos q' with rfl | hpos
        · exact hnone
        · exact absurd hnone (hfull q' hpos hq')
    rw [inUse, hnone]
    rfl
  refine ⟨_, h', ⟨htallied.blocks, htallied.inodes⟩, (Touched.created hcreated).inOrder h.inOrder,
    ?_, ?_, ?_, ?_⟩
  · have hcard := OneMore.card_le hblocks maxBlockNum
    have hbound := h.blocks
    exact hcard.trans (by omega)
  · have hcard := OneMore.card_le hinodes maxInodeNum
    have hbound := h.inodes
    exact hcard.trans (by omega)
  · have hused : inUse (s₁.setInode ino.toNat
        { s₁.inode ino.toNat with type := 2, linkCnt := 1 }) =
        Function.update (inUse s) q true := by
      funext q'
      rw [inUse, hslot, Function.update_apply]
      split
      next => rfl
      next => rfl
    have hnot : q ∉ taken (inUse s) 1024 := fun hmem => by
      rw [(mem_taken.mp hmem).2] at hfree
      cases hfree
    rw [hused, taken_update_true hcreated.lt, Finset.card_insert_of_notMem hnot, h.slots,
      Nat.add_assoc]
  · intro q' e he
    rw [hslot] at he
    split at he
    next =>
      cases he
      exact Or.inr (Or.inr ⟨k, Nat.lt_succ_self k, rfl⟩)
    next =>
      rcases h.names q' e he with heq | heq | ⟨i, hi, heq⟩
      · exact Or.inl heq
      · exact Or.inr (Or.inl heq)
      · exact Or.inr (Or.inr ⟨i, Nat.lt_succ_of_lt hi, heq⟩)

/-- The machine after the first `k` files were created on a blank disk. -/
def crowded : Nat → Machine Bytes Globals
  | 0 => blankFormatted
  | k + 1 => ((fsTouch (fileName k)).run (crowded k)).2

theorem crowded_filled (hk : k ≤ 1022) :
    ReachableUnder fileSystem Tended (crowded k) ∧ ∃ s, Filled k (crowded k) s := by
  induction k with
  | zero =>
      exact ⟨ReachableUnder.start formatted_blankFormatted,
        filled_formatted formatted_blankFormatted⟩
  | succ k ih =>
      obtain ⟨hreachable, s, hs⟩ := ih (Nat.le_of_succ_le hk)
      obtain ⟨r, m', hrun, hfilled⟩ := (hs.touch hk).returns fun _ _ he => he
      have hnext : FsRuns.next (crowded k) (.touch (fileName k)) = some m' := by
        have hprogram : (FsOp.touch (fileName k)).program.run (crowded k) = (.ok (), m') := by
          rw [FsOp.program, run_bind_ok hrun]
          rfl
        rw [FsRuns.next, hprogram]
      have hok : Tended (crowded k) (.touch (fileName k)) :=
        ⟨trivial, nameOk_fileName (by omega)⟩
      have hsame : crowded (k + 1) = m' := by
        rw [crowded, hrun]
      rw [hsame]
      exact ⟨.step hreachable hok hnext, hfilled⟩

/-- The directory with 1022 files has no free slot, and the next name replaces
the entry `.`. -/
theorem crowdedDirectory_not_pure : Reachable fileSystem (crowded 1022) ∧
    found (crowded 1022) [120] = some minusOne ∧ ¬ PureInsertion [120] 1 (crowded 1022) := by
  obtain ⟨hreachable, s, hs⟩ := crowded_filled (le_refl 1022)
  have ht := hs.inOrder.tidy
  have hnone : lookup s s.here [120] = none := by
    refine hs.misses (by decide) (by decide) fun i _ heq => ?_
    exact absurd (congrArg List.length heq) (show ¬ 1 = 2 by omega)
  have hmiss : found (crowded 1022) [120] = some minusOne := by
    rw [found_eq hs.realizes ht.standing.live.1 ht.standing.hasBlocks, hnone]
    rfl
  refine ⟨hreachable.mono fun _ _ _ => trivial, hmiss,
    not_pure_of_full hs.realizes ht (nameOk_singleton (by decide)) (by decide) hmiss fun q hq => ?_⟩
  have hused : inUse s q = true := all_taken hs.slots.ge hq
  exact Option.isSome_iff_ne_none.mp hused

end LabKernel.CrowdedDirectory
