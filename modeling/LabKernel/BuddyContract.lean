import LabKernel.BuddySafety
import LabKernel.ProgramLogic

/-!
What the blocks in use say about a `BuddyPool`: they determine the array, they
decide which requests succeed, and every unit of a block leads `free` to it.
-/

namespace LabKernel.BuddyContract

open LabKernel.BuddyPool
open LabKernel.BuddyRefinement
open LabKernel.BuddySafety
open LabKernel.BuddyTree
open LabKernel.ProgramLogic
open LabKernel.TransitionSystem

variable {n k i j o o' : Nat} {f g memory : Nat → Nat} {t t' : Buddy k} {p q : Pool}
  {b : Nat × Nat}

/-- The node `j` lies in the subtree of height `k` at the node `i`. -/
def Within (i k j : Nat) : Prop := ∃ d ≤ k, parent^[d] j = i

theorem within_succ (h : Within i (k + 1) j) :
    j = i ∨ Within (i * 2 + 1) k j ∨ Within (i * 2 + 2) k j := by
  obtain ⟨d, hd, hj⟩ := h
  induction d with
  | zero => exact Or.inl hj
  | succ d ih =>
      rw [Function.iterate_succ_apply'] at hj
      rcases Nat.eq_zero_or_pos (parent^[d] j) with hzero | hpos
      · -- The root is its own parent.
        rw [hzero] at hj
        exact ih (by omega) (hzero.trans hj)
      · have hchild : parent^[d] j = i * 2 + 1 ∨ parent^[d] j = i * 2 + 2 := by
          rw [parent] at hj
          omega
        rcases hchild with hleft | hright
        · exact Or.inr (Or.inl ⟨d, by omega, hleft⟩)
        · exact Or.inr (Or.inr ⟨d, by omega, hright⟩)

theorem within_zero (h : Within i 0 j) : j = i := by
  obtain ⟨d, hd, hj⟩ := h
  obtain rfl : d = 0 := by omega
  exact hj

theorem within_root (h : j + 1 < 2 ^ (n + 1)) : Within 0 n j := by
  induction n generalizing j with
  | zero =>
      refine ⟨0, le_refl _, ?_⟩
      rw [Nat.zero_add, pow_one] at h
      show j = 0
      omega
  | succ n ih =>
      rcases Nat.eq_zero_or_pos j with rfl | hpos
      · exact ⟨0, Nat.zero_le _, rfl⟩
      · rw [pow_succ] at h
        obtain ⟨d, hd, hj⟩ := @ih (parent j) (by rw [parent]; omega)
        exact ⟨d + 1, by omega, hj⟩

theorem full_unique (hf : Full f k i) (hg : Full g k i) (hj : Within i k j) : f j = g j := by
  induction k generalizing i with
  | zero =>
      rw [within_zero hj]
      exact hf.trans hg.symm
  | succ k ih =>
      rcases within_succ hj with rfl | hleft | hright
      · exact hf.1.trans hg.1.symm
      · exact ih hf.2.1 hg.2.1 hleft
      · exact ih hf.2.2 hg.2.2 hright

theorem repr_unique (hf : Repr f i t) (hg : Repr g i t) (hj : Within i k j) : f j = g j := by
  induction t generalizing i with
  | free => exact full_unique (repr_free.mp hf) (repr_free.mp hg) hj
  | used =>
      rename_i k
      obtain ⟨hf0, hfbelow⟩ := repr_used.mp hf
      obtain ⟨hg0, hgbelow⟩ := repr_used.mp hg
      cases k with
      | zero =>
          rw [within_zero hj]
          exact hf0.trans hg0.symm
      | succ k =>
          rcases within_succ hj with rfl | hleft | hright
          · exact hf0.trans hg0.symm
          · exact full_unique hfbelow.1 hgbelow.1 hleft
          · exact full_unique hfbelow.2 hgbelow.2 hright
  | node left right ihLeft ihRight =>
      rcases within_succ hj with rfl | hleft | hright
      · exact hf.1.trans hg.1.symm
      · exact ihLeft hf.2.1 hg.2.1 hleft
      · exact ihRight hf.2.2 hg.2.2 hright

/-- Two arrays agree on the nodes of a pool of `2 ^ n` units. -/
def SameArray (n : Nat) (f g : Nat → Nat) : Prop := ∀ j < 2 * 2 ^ n - 1, f j = g j

section Determined

variable (hlow : 1 ≤ n) (hhigh : n ≤ 62)
include hlow hhigh

theorem sameArray_of_live (hp : Reachable (system (2 ^ n)) p) (hq : Reachable (system (2 ^ n)) q)
    (h : ∀ b, b ∈ p.live ↔ b ∈ q.live) : SameArray n p.longest q.longest := by
  obtain ⟨t, ⟨hrepr, hperm⟩, hcanonical⟩ := inv_of_reachable hlow hhigh hp
  obtain ⟨t', ⟨hrepr', hperm'⟩, hcanonical'⟩ := inv_of_reachable hlow hhigh hq
  have hblocks : ∀ b, b ∈ t.blocks 0 ↔ b ∈ t'.blocks 0 := fun b => by
    rw [← hperm.mem_iff, h, hperm'.mem_iff]
  obtain rfl := canonical_unique hcanonical hcanonical' hblocks
  intro j hj
  refine repr_unique hrepr hrepr' (within_root ?_)
  rw [pow_succ]
  omega

theorem reachable_free (hp : Reachable (system (2 ^ n)) p) (hb : b ∈ p.live) :
    ∃ g, BuddyPool.free (2 ^ n) p.longest b.1 = some g ∧
      Reachable (system (2 ^ n)) ⟨g, p.live.erase b⟩ := by
  obtain ⟨t, hinv, -⟩ := inv_of_reachable hlow hhigh hp
  obtain ⟨-, g, -, hfree, -⟩ := free_live hinv hb (inBlock_start (hinv.2.mem_iff.mp hb))
  exact ⟨g, hfree, hp.step (a := .free b.1) trivial ⟨b.2, hb, g, hfree, rfl⟩⟩

/-- The blocks that start at the given offsets are released one after the
other. -/
def freeAll (capacity : Nat) : (Nat → Nat) → List Nat → Option (Nat → Nat)
  | longest, [] => some longest
  | longest, o :: offsets =>
      (BuddyPool.free capacity longest o).bind fun longest => freeAll capacity longest offsets

theorem freeAll_restores {offsets : List Nat} (hp : Reachable (system (2 ^ n)) p)
    (horder : offsets.Perm (p.live.map Prod.fst)) (memory : Nat → Nat) :
    ∃ g, freeAll (2 ^ n) p.longest offsets = some g ∧
      SameArray n g (BuddyPool.init (2 ^ n) memory) := by
  induction offsets generalizing p with
  | nil =>
      have hempty : p.live = [] := List.map_eq_nil_iff.mp horder.nil_eq.symm
      refine ⟨p.longest, rfl, ?_⟩
      have hstart : Reachable (system (2 ^ n)) ⟨BuddyPool.init (2 ^ n) memory, []⟩ :=
        ReachableUnder.start ⟨memory, rfl⟩
      refine sameArray_of_live hlow hhigh hp hstart fun b => ?_
      rw [hempty]
  | cons o offsets ih =>
      obtain ⟨b, hb, rfl⟩ := List.mem_map.mp (horder.mem_iff.mp List.mem_cons_self)
      obtain ⟨g, hfree, hnext⟩ := reachable_free hlow hhigh hp hb
      have hrest : offsets.Perm ((p.live.erase b).map Prod.fst) :=
        (horder.trans ((List.perm_cons_erase hb).map Prod.fst)).cons_inv
      obtain ⟨g', hall, hsame⟩ := ih hnext hrest
      refine ⟨g', ?_, hsame⟩
      rw [freeAll, hfree]
      exact hall

theorem alloc_then_free {s : Nat} (hp : Reachable (system (2 ^ n)) p) (hs : IsRequest s)
    (halloc : BuddyPool.alloc (2 ^ n) p.longest s = some (o, f)) :
    ∃ g, BuddyPool.free (2 ^ n) f o = some g ∧ SameArray n g p.longest := by
  have hnext : Reachable (system (2 ^ n)) ⟨f, (o, max s 1) :: p.live⟩ :=
    hp.step (a := .alloc s) trivial ⟨hs, o, f, halloc, rfl⟩
  obtain ⟨g, hfree, hback⟩ := reachable_free hlow hhigh hnext List.mem_cons_self
  rw [List.erase_cons_head] at hback
  exact ⟨g, hfree, sameArray_of_live hlow hhigh hback hp fun _ => Iff.rfl⟩

/-- The array is a function of the blocks in use; releasing a new block, or
all blocks in any order, restores the array. -/
theorem array_determined :
    (∀ p q, Reachable (system (2 ^ n)) p → Reachable (system (2 ^ n)) q →
      (∀ b, b ∈ p.live ↔ b ∈ q.live) → SameArray n p.longest q.longest) ∧
    (∀ p, Reachable (system (2 ^ n)) p → ∀ s, IsRequest s → ∀ o f,
      BuddyPool.alloc (2 ^ n) p.longest s = some (o, f) →
        ∃ g, BuddyPool.free (2 ^ n) f o = some g ∧ SameArray n g p.longest) ∧
    ∀ p, Reachable (system (2 ^ n)) p → ∀ offsets : List Nat,
      offsets.Perm (p.live.map Prod.fst) → ∀ memory,
        ∃ g, freeAll (2 ^ n) p.longest offsets = some g ∧
          SameArray n g (BuddyPool.init (2 ^ n) memory) :=
  ⟨fun _ _ hp hq h => sameArray_of_live hlow hhigh hp hq h,
    fun _ hp _ hs _ _ halloc => alloc_then_free hlow hhigh hp hs halloc,
    fun _ hp _ horder memory => freeAll_restores hlow hhigh hp horder memory⟩

end Determined

theorem array_determined_oneUsed :
    ∃ g, freeAll 4 oneUsed.longest [0] = some g ∧
      SameArray 2 g (BuddyPool.init 4 fun _ => 7) := by
  obtain ⟨-, -, hall⟩ := array_determined (n := 2) (by norm_num) (by norm_num)
  exact hall oneUsed oneUsed_reachable [0] (List.Perm.refl _) fun _ => 7

theorem vacant_congr {blocks blocks' : List (Nat × Nat)} (h : blocks.Perm blocks') {e : Nat} :
    Vacant blocks n e o ↔ Vacant blocks' n e o :=
  ⟨fun hv => ⟨hv.dvd, hv.le, fun u hu b hb => hv.outside u hu b (h.mem_iff.mpr hb)⟩,
    fun hv => ⟨hv.dvd, hv.le, fun u hu b hb => hv.outside u hu b (h.mem_iff.mp hb)⟩⟩

theorem alloc_isSome_iff {s e : Nat} (hlow : 1 ≤ n) (hhigh : n ≤ 62)
    (hp : Reachable (system (2 ^ n)) p) (hs : IsUnits s e) :
    (BuddyPool.alloc (2 ^ n) p.longest s).isSome ↔ ∃ o, Vacant p.live n e o := by
  obtain ⟨t, ⟨hrepr, hperm⟩, hcanonical⟩ := inv_of_reachable hlow hhigh hp
  have hrefines := alloc_refines (by omega) hs hrepr
  simp only [vacant_congr hperm]
  rw [← room_iff_vacant hcanonical]
  split at hrefines
  next hroom =>
    obtain ⟨g, halloc, -⟩ := hrefines
    simp [halloc, hroom]
  next hfull => simp [hrefines, hfull]

theorem alloc_vacant {s e : Nat} (hlow : 1 ≤ n) (hhigh : n ≤ 62)
    (hp : Reachable (system (2 ^ n)) p) (hs : IsUnits s e)
    (halloc : BuddyPool.alloc (2 ^ n) p.longest s = some (o, f)) : Vacant p.live n e o := by
  obtain ⟨t, ⟨hrepr, hperm⟩, -⟩ := inv_of_reachable hlow hhigh hp
  obtain ⟨hroom, rfl, -⟩ := alloc_inv (by omega) hs hrepr halloc
  exact (vacant_congr hperm).mpr (vacant_alloc t hroom)

/-- A request succeeds exactly when the blocks in use leave an aligned range
of its size, and the root knows the size of the largest such range. -/
theorem alloc_complete (hlow : 1 ≤ n) (hhigh : n ≤ 62) (hp : Reachable (system (2 ^ n)) p) :
    (∀ s, IsRequest s → ((BuddyPool.alloc (2 ^ n) p.longest s).isSome ↔
      ∃ o, max s 1 ∣ o ∧ o + max s 1 ≤ 2 ^ n ∧
        ∀ u, InBlock u (o, max s 1) → ∀ b ∈ p.live, ¬InBlock u b)) ∧
    (∀ e, p.longest 0 = e + 1 → IsGreatest {e | ∃ o, Vacant p.live n e o} e) ∧
    (p.longest 0 = 0 ↔ ∀ u < 2 ^ n, ∃ b ∈ p.live, InBlock u b) := by
  obtain ⟨t, ⟨hrepr, hperm⟩, hcanonical⟩ := inv_of_reachable hlow hhigh hp
  have hroot := repr_entry hrepr
  refine ⟨fun s hs => ?_, fun e he => ?_, ?_⟩
  · obtain ⟨e, hunits⟩ := isUnits_of_isRequest hs
    rw [alloc_isSome_iff hlow hhigh hp hunits, hunits.1]
    refine exists_congr fun o => ?_
    exact ⟨fun hv => ⟨hv.dvd, hv.le, hv.outside⟩, fun hv => ⟨hv.1, hv.2.1, hv.2.2⟩⟩
  · have hgreatest := largest_isGreatest hcanonical (hroot.symm.trans he)
    simpa only [vacant_congr hperm] using hgreatest
  · rw [hroot, largest_eq_zero_iff hcanonical]
    simp only [hperm.mem_iff]

theorem alloc_complete_oneUsed :
    (BuddyPool.alloc 4 oneUsed.longest 2).isSome ∧ ¬(BuddyPool.alloc 4 oneUsed.longest 4).isSome := by
  obtain ⟨hrequest, -, -⟩ :=
    alloc_complete (n := 2) (by norm_num) (by norm_num) oneUsed_reachable
  refine ⟨(hrequest 2 (Or.inr ⟨1, by norm_num, rfl⟩)).mpr ⟨2, by norm_num, by norm_num, ?_⟩,
    fun hsome => ?_⟩
  · intro u hu b hb
    obtain rfl := List.mem_singleton.mp hb
    simp only [InBlock] at *
    omega
  · obtain ⟨o, -, hle, houtside⟩ := (hrequest 4 (Or.inr ⟨2, by norm_num, rfl⟩)).mp hsome
    have ho : o ≤ 0 := by omega
    refine houtside 0 ⟨ho, by simp⟩ (0, 1) (List.mem_singleton_self _) ?_
    simp [InBlock]

/-- The assertions of `free`. -/
inductive Stop where
  /-- `offset < capacity` -/
  | offset
  /-- `index != 0` -/
  | root
  | fuel

/-- The first loop of `free`, on the array in memory. -/
def search : Nat → Nat → Nat → Program (Nat → Nat) Stop (Nat × Nat)
  | 0, _, _ => fail .fuel
  | fuel + 1, index, nodesize => do
      let longest ← getState
      if longest index = 0 then return (index, nodesize)
      else if index = 0 then fail .root
      else search fuel ((index - 1) / 2) (nodesize + 1)

/-- `BuddyPool::free` on the array in memory, with the array as a failed
assertion leaves it. -/
def freeInPlace (capacity offset : Nat) : Program (Nat → Nat) Stop Unit := do
  if offset < capacity then
    let leaf := offset + capacity - 1
    let (index, nodesize) ← search (leaf + 1) leaf 1
    modifyState fun longest => Function.update longest index nodesize
    modifyState fun longest => freeClimb index longest index nodesize
  else fail .offset

theorem search_run {fuel index nodesize : Nat} (h : index < fuel) :
    (search fuel index nodesize).run f = match findUsed fuel f index nodesize with
      | some found => (.ok found, f)
      | none => (.error .root, f) := by
  induction fuel generalizing index nodesize with
  | zero => omega
  | succ fuel ih =>
      rw [search, findUsed, run_bind]
      dsimp only [getState]
      split
      next => rfl
      next =>
        split
        next => rfl
        next hne => exact ih (by omega)

theorem freeInPlace_run (ho : o < k) :
    (freeInPlace k o).run f = match BuddyPool.free k f o with
      | some g => (.ok (), g)
      | none => (.error .root, f) := by
  have hsearch := @search_run f _ _ 1 (Nat.lt_succ_self (o + k - 1))
  unfold freeInPlace BuddyPool.free
  rw [if_pos ho, if_pos ho]
  dsimp only
  rw [run_bind, hsearch]
  cases findUsed (o + k - 1).succ f (o + k - 1) 1 with
  | none => rfl
  | some found => rfl

theorem findUsed_sameBlock {base : Nat} (hrepr : Repr f i t) (hb : b ∈ t.blocks base)
    (ho : InBlock (base + o) b) (ho' : InBlock (base + o') b) :
    findUsed (leafIndex i k o + 1) f (leafIndex i k o) 1 =
      findUsed (leafIndex i k o' + 1) f (leafIndex i k o') 1 := by
  induction t generalizing i base o o' with
  | free => exact absurd hb List.not_mem_nil
  | used =>
      obtain rfl := List.mem_singleton.mp hb
      obtain ⟨hzero, hbelow⟩ := repr_used.mp hrepr
      simp only [InBlock] at ho ho'
      rw [findUsed_used (by omega) hzero hbelow, findUsed_used (by omega) hzero hbelow]
  | node left right ihLeft ihRight =>
      rcases List.mem_append.mp hb with hleft | hright
      · have hrange := mem_blocks hleft
        rw [leafIndex_left, leafIndex_left]
        exact ihLeft hrepr.2.1 hleft ho ho'
      · have hrange := mem_blocks hright
        simp only [InBlock] at ho ho'
        rw [leafIndex_right _ _ _ (by omega), leafIndex_right _ _ _ (by omega)]
        refine ihRight hrepr.2.2 hright ⟨by omega, by omega⟩ ⟨by omega, by omega⟩

theorem free_sameBlock {t : Buddy n} (hrepr : Repr f 0 t) (hb : b ∈ t.blocks 0)
    (ho : InBlock o b) (ho' : InBlock o' b) :
    BuddyPool.free (2 ^ n) f o = BuddyPool.free (2 ^ n) f o' := by
  have hrange := mem_blocks hb
  have hleaf : ∀ o, o + 2 ^ n - 1 = leafIndex 0 n o := by
    intro o
    simp only [leafIndex]
    omega
  have hstart : InBlock (0 + o) b ∧ InBlock (0 + o') b := ⟨by simpa using ho, by simpa using ho'⟩
  have hfound := findUsed_sameBlock hrepr hb hstart.1 hstart.2
  simp only [InBlock] at ho ho'
  simp only [BuddyPool.free, if_pos (show o < 2 ^ n by omega), if_pos (show o' < 2 ^ n by omega),
    hleaf, hfound]

/-- `free` on any unit of a block releases that block, and on a unit outside
the blocks it stops at its assertion with the array unchanged. -/
theorem free_anyOffset (hlow : 1 ≤ n) (hhigh : n ≤ 62) (hp : Reachable (system (2 ^ n)) p)
    (ho : o < 2 ^ n) :
    (∀ b ∈ p.live, InBlock o b → ∃ g, (freeInPlace (2 ^ n) o).run p.longest = (.ok (), g) ∧
      BuddyPool.free (2 ^ n) p.longest b.1 = some g ∧
      Reachable (system (2 ^ n)) ⟨g, p.live.erase b⟩) ∧
    ((∀ b ∈ p.live, ¬InBlock o b) →
      (freeInPlace (2 ^ n) o).run p.longest = (.error .root, p.longest)) := by
  obtain ⟨t, ⟨hrepr, hperm⟩, -⟩ := inv_of_reachable hlow hhigh hp
  refine ⟨fun b hb hob => ?_, fun hnone => ?_⟩
  · obtain ⟨g, hfree, hnext⟩ := reachable_free hlow hhigh hp hb
    have hmem := hperm.mem_iff.mp hb
    refine ⟨g, ?_, hfree, hnext⟩
    rw [freeInPlace_run ho, free_sameBlock hrepr hmem hob (inBlock_start hmem), hfree]
  · have hrelease := release_eq_none t 0 o ho fun b hb => by
      rw [Nat.zero_add]
      exact hnone b (hperm.mem_iff.mpr hb)
    have hfree := free_refines ho hrepr
    rw [hrelease] at hfree
    rw [freeInPlace_run ho, hfree]

theorem free_anyOffset_oneUsed :
    (∃ g, (freeInPlace 4 0).run oneUsed.longest = (.ok (), g)) ∧
      (freeInPlace 4 3).run oneUsed.longest = (.error .root, oneUsed.longest) := by
  have hroot := free_anyOffset (n := 2) (o := 0) (by norm_num) (by norm_num) oneUsed_reachable
    (by norm_num)
  have hlast := free_anyOffset (n := 2) (o := 3) (by norm_num) (by norm_num) oneUsed_reachable
    (by norm_num)
  refine ⟨?_, hlast.2 fun b hb => ?_⟩
  · obtain ⟨g, hrun, -⟩ := hroot.1 (0, 1) (List.mem_singleton_self _) (by simp [InBlock])
    exact ⟨g, hrun⟩
  · obtain rfl := List.mem_singleton.mp hb
    simp [InBlock]

end LabKernel.BuddyContract
