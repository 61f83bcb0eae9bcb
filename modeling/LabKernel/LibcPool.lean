import LabKernel.BuddySafety

/-!
The buddy allocator of the user library (`pool_init`, `pool_alloc` and
`pool_free` of `tiny_libc/memory.c`) against `BuddyPool` of the kernel.

The library keeps sizes in its array where the kernel keeps their logarithms,
halves sizes where the kernel decrements levels, and tests the sum of two
children where the kernel tests each.  An entry `l` of the kernel stands for
the entry `unitsOf l` of the library.
-/

namespace LabKernel.LibcPool

open LabKernel.BuddyPool
open LabKernel.BuddyRefinement
open LabKernel.BuddySafety
open LabKernel.Rounding
open LabKernel.TransitionSystem

/-- Second loop of `pool_init`, counting down to `1`. -/
def poolInitParents (longest : Nat → Nat) : Nat → Nat → Nat
  | 0 => longest
  | i + 1 => poolInitParents (Function.update longest ((i + 1 - 1) / 2) (longest (i + 1) * 2)) i

/-- `pool_init`; its first loop is that of `BuddyPool::init`. -/
def poolInit (capacity : Nat) (longest : Nat → Nat) : Nat → Nat :=
  poolInitParents (initLeaves capacity longest (2 * capacity - 2)) (2 * capacity - 2)

/-- The descent of `pool_alloc`; a 64-bit `nodesize` is halved at most 64 times. -/
def poolDescend (longest : Nat → Nat) (size : Nat) : Nat → Nat → Nat → Nat × Nat
  | 0, nodesize, index => (nodesize, index)
  | fuel + 1, nodesize, index =>
      if nodesize > size then
        if choosesLeft longest size index then
          poolDescend longest size fuel (nodesize / 2) (index * 2 + 1)
        else
          poolDescend longest size fuel (nodesize / 2) (index * 2 + 2)
      else (nodesize, index)

/-- `pool_alloc`; the climb is that of `BuddyPool::alloc`. -/
def poolAlloc (capacity : Nat) (longest : Nat → Nat) (size : Nat) : Nat × (Nat → Nat) :=
  let size := if size = 0 then 1 else size
  let found := poolDescend longest size 64 capacity 0
  let nodesize := found.1
  let index := found.2
  let offset := (index + 1) * nodesize - capacity
  (offset, allocClimb index (Function.update longest index 0) index)

/-- The first loop of `pool_free`; `none` when the root is passed. -/
def poolFindUsed : Nat → (Nat → Nat) → Nat → Nat → Option (Nat × Nat)
  | 0, _, _, _ => none
  | fuel + 1, longest, index, nodesize =>
      if longest index = 0 then
        some (index, nodesize)
      else if index = 0 then
        none
      else poolFindUsed fuel longest ((index - 1) / 2) (nodesize * 2)

/-- The second loop of `pool_free`. -/
def poolFreeClimb : Nat → (Nat → Nat) → Nat → Nat → Nat → Nat
  | 0, longest, _, _ => longest
  | fuel + 1, longest, index, nodesize =>
      if index = 0 then
        longest
      else
        let parent := (index - 1) / 2
        let nodesize := nodesize * 2
        let ll := longest (parent * 2 + 1)
        let rl := longest (parent * 2 + 2)
        let merged := if ll + rl = nodesize then nodesize else max ll rl
        poolFreeClimb fuel (Function.update longest parent merged) parent nodesize

/-- `pool_free`: the number of units freed and the array. -/
def poolFree (capacity : Nat) (longest : Nat → Nat) (offset : Nat) :
    Option (Nat × (Nat → Nat)) :=
  let leaf := offset + capacity - 1
  (poolFindUsed (leaf + 1) longest leaf 1).map fun found =>
    let index := found.1
    let nodesize := found.2
    (nodesize, poolFreeClimb index (Function.update longest index nodesize) index nodesize)

/-- The library's entry for an entry of the kernel. -/
def unitsOf : Nat → Nat
  | 0 => 0
  | l + 1 => 2 ^ l

theorem unitsOf_strictMono : StrictMono unitsOf := by
  refine strictMono_nat_of_lt_succ fun l => ?_
  cases l with
  | zero => exact Nat.one_pos
  | succ l =>
      simp only [unitsOf]
      exact Nat.pow_lt_pow_right (by norm_num) (by omega)

theorem unitsOf_max (a b : Nat) : unitsOf (max a b) = max (unitsOf a) (unitsOf b) :=
  unitsOf_strictMono.monotone.map_max

theorem unitsOf_eq_zero {l : Nat} : unitsOf l = 0 ↔ l = 0 :=
  ⟨fun h => unitsOf_strictMono.injective h, fun h => by rw [h]; rfl⟩

/-- Two children of level at most `m` fill their parent exactly when each is
completely free. -/
theorem unitsOf_add_eq {a b m : Nat} (ha : a ≤ m) (hb : b ≤ m) (hm : m ≠ 0) :
    unitsOf a + unitsOf b = unitsOf m * 2 ↔ a = m ∧ b = m := by
  have hale := unitsOf_strictMono.monotone ha
  have hble := unitsOf_strictMono.monotone hb
  constructor
  · intro hsum
    have hpos : 0 < unitsOf m := Nat.pos_of_ne_zero (mt unitsOf_eq_zero.mp hm)
    exact ⟨unitsOf_strictMono.injective (by omega), unitsOf_strictMono.injective (by omega)⟩
  · rintro ⟨rfl, rfl⟩
    omega

theorem unitsOf_succ {l : Nat} (h : l ≠ 0) : unitsOf (l + 1) = unitsOf l * 2 := by
  obtain ⟨k, rfl⟩ := Nat.exists_eq_succ_of_ne_zero h
  exact Nat.pow_succ ..

/-- The nodes of a pool of `2 ^ n` units. -/
def InPool (n j : Nat) : Prop := j ≤ 2 * 2 ^ n - 2

/-- The two arrays hold the same, and no entry exceeds the level of its node. -/
structure Encodes (n : Nat) (f g : Nat → Nat) : Prop where
  entry : ∀ j, InPool n j → g j = unitsOf (f j)
  bound : ∀ j, InPool n j → f j ≤ freshEntry n j

theorem Encodes.update {n : Nat} {f g : Nat → Nat} (h : Encodes n f g) {i v : Nat}
    (hv : v ≤ freshEntry n i) :
    Encodes n (Function.update f i v) (Function.update g i (unitsOf v)) := by
  constructor
  · intro j hj
    rcases eq_or_ne j i with rfl | hne
    · rw [Function.update_self, Function.update_self]
    · rw [Function.update_of_ne hne, Function.update_of_ne hne]
      exact h.entry j hj
  · intro j hj
    rcases eq_or_ne j i with rfl | hne
    · rwa [Function.update_self]
    · rw [Function.update_of_ne hne]
      exact h.bound j hj

theorem inPool_children {n i : Nat} (h : InPool n i) (hi : i ≠ 0) :
    InPool n ((i - 1) / 2) ∧ InPool n ((i - 1) / 2 * 2 + 1) ∧ InPool n ((i - 1) / 2 * 2 + 2) := by
  unfold InPool at *
  omega

theorem level_pos {n j : Nat} (h : InPool n j) : freshEntry n j ≠ 0 := by
  unfold InPool at h
  have hpos := Nat.two_pow_pos n
  have hlog : Nat.log 2 (j + 1) < n + 1 :=
    Nat.log_lt_of_lt_pow (by omega) (by rw [pow_succ]; omega)
  unfold freshEntry
  omega

theorem level_parent {n i c : Nat} (hc : parent c = i) (hpos : c ≠ 0) (h : InPool n c) :
    freshEntry n i = freshEntry n c + 1 := by
  have hlevel := level_pos h
  unfold freshEntry at *
  rw [log_succ_child hc hpos] at *
  omega

section Operations

variable {n : Nat} {f g : Nat → Nat}

theorem allocClimb_encodes (fuel : Nat) {index : Nat} (h : Encodes n f g) (hin : InPool n index) :
    Encodes n (allocClimb fuel f index) (allocClimb fuel g index) := by
  induction fuel generalizing f g index with
  | zero => exact h
  | succ fuel ih =>
      simp only [allocClimb]
      split
      · exact h
      · next hne =>
          obtain ⟨hparent, hleft, hright⟩ := inPool_children hin hne
          rw [h.entry _ hleft, h.entry _ hright, ← unitsOf_max]
          refine ih (h.update ?_) hparent
          have hl := h.bound _ hleft
          have hr := h.bound _ hright
          have hlevel := level_parent (parent_left ((index - 1) / 2)) (by omega) hleft
          have hlevel' := level_parent (parent_right ((index - 1) / 2)) (by omega) hright
          omega

theorem choosesLeft_encodes (h : Encodes n f g) {index size : Nat}
    (hleft : InPool n (index * 2 + 1)) (hright : InPool n (index * 2 + 2)) :
    choosesLeft g (unitsOf size) index ↔ choosesLeft f size index := by
  unfold choosesLeft
  rw [h.entry _ hleft, h.entry _ hright, unitsOf_strictMono.lt_iff_lt,
    unitsOf_strictMono.le_iff_le, unitsOf_strictMono.le_iff_le]

theorem children_inPool {index : Nat} (h : 1 < freshEntry n index) :
    InPool n (index * 2 + 1) ∧ InPool n (index * 2 + 2) := by
  have hlt : index + 1 < 2 ^ n := by
    refine Nat.lt_pow_of_log_lt (by norm_num) ?_
    unfold freshEntry at h
    omega
  unfold InPool
  omega

theorem descend_encodes (h : Encodes n f g) {size : Nat} (hsize : size ≠ 0) (fuel level : Nat)
    {index : Nat} (hfuel : level ≤ fuel) (hroom : size ≤ level)
    (hlevel : freshEntry n index = level) (hin : InPool n index) :
    poolDescend g (unitsOf size) fuel (unitsOf level) index =
        (unitsOf (descend f size level index).1, (descend f size level index).2) ∧
      (descend f size level index).1 ≠ 0 ∧ InPool n (descend f size level index).2 := by
  induction level generalizing fuel index with
  | zero => omega
  | succ level ih =>
      obtain ⟨fuel, rfl⟩ : ∃ m, fuel = m + 1 := ⟨fuel - 1, by omega⟩
      simp only [poolDescend, descend, gt_iff_lt, unitsOf_strictMono.lt_iff_lt]
      rcases em (size < level + 1) with hmore | hend
      · rw [if_pos hmore, if_pos hmore]
        have hhalf : unitsOf (level + 1) / 2 = unitsOf level := by
          rw [unitsOf_succ (by omega), Nat.mul_div_cancel _ (by norm_num)]
        have hentry : 1 < freshEntry n index := by omega
        obtain ⟨hleft, hright⟩ := children_inPool hentry
        have hl := level_parent (parent_left index) (by omega) hleft
        have hr := level_parent (parent_right index) (by omega) hright
        simp only [choosesLeft_encodes h hleft hright, hhalf]
        split
        · exact ih fuel (by omega) (by omega) (by omega) hleft
        · exact ih fuel (by omega) (by omega) (by omega) hright
      · rw [if_neg hend, if_neg hend]
        exact ⟨rfl, Nat.succ_ne_zero _, hin⟩

theorem unitsOf_eq_pow {l : Nat} (h : l ≠ 0) : unitsOf l = 2 ^ (l - 1) := by
  obtain ⟨k, rfl⟩ := Nat.exists_eq_succ_of_ne_zero h
  rfl

theorem level_root : freshEntry n 0 = n + 1 := by simp [freshEntry]

theorem root_inPool : InPool n 0 := Nat.zero_le _

theorem alloc_encodes (hn : n < 64) (h : Encodes n f g) {s e o : Nat} {f' : Nat → Nat}
    (hs : IsUnits s e) (halloc : alloc (2 ^ n) f s = some (o, f')) :
    (poolAlloc (2 ^ n) g s).1 = o ∧ Encodes n f' (poolAlloc (2 ^ n) g s).2 := by
  have hunits : (if s = 0 then 1 else s) = unitsOf (e + 1) := by
    have hmax := hs.1
    simp only [unitsOf, ← hmax]
    split <;> omega
  have hcap : 2 ^ n = unitsOf (n + 1) := rfl
  simp only [alloc, log2_units hs, caplog, log2_pow n hn, Option.ite_none_right_eq_some,
    Option.some.injEq, Prod.mk.injEq] at halloc
  obtain ⟨hroom, rfl, rfl⟩ := halloc
  have hroot := h.bound 0 root_inPool
  rw [level_root] at hroot
  obtain ⟨hfound, hlevel, hin⟩ := descend_encodes h (Nat.succ_ne_zero e) 64 (n + 1) (by omega)
    (by omega) level_root root_inPool
  simp only [poolAlloc, hunits]
  rw [← hcap] at hfound
  rw [hfound]
  refine ⟨by rw [unitsOf_eq_pow hlevel], ?_⟩
  have hzero : Encodes n (Function.update f (descend f (e + 1) (n + 1) 0).2 0)
      (Function.update g (descend f (e + 1) (n + 1) 0).2 0) := h.update (Nat.zero_le _)
  exact allocClimb_encodes _ hzero hin

theorem findUsed_encodes (h : Encodes n f g) (fuel : Nat) {index level : Nat}
    (hlevel : freshEntry n index = level) (hin : InPool n index) :
    poolFindUsed fuel g index (unitsOf level) =
        (findUsed fuel f index level).map (fun found => (found.1, unitsOf found.2)) ∧
      ∀ found, findUsed fuel f index level = some found →
        freshEntry n found.1 = found.2 ∧ InPool n found.1 := by
  induction fuel generalizing index level with
  | zero =>
      refine ⟨rfl, fun found hfound => ?_⟩
      cases hfound
  | succ fuel ih =>
      simp only [poolFindUsed, findUsed, h.entry _ hin, unitsOf_eq_zero]
      split
      · refine ⟨rfl, ?_⟩
        rintro _ ⟨⟩
        exact ⟨hlevel, hin⟩
      · split
        · refine ⟨rfl, fun found hfound => ?_⟩
          cases hfound
        · next hne =>
            obtain ⟨hparent, -, -⟩ := inPool_children hin hne
            have hpos := level_pos hin
            have hup : freshEntry n ((index - 1) / 2) = freshEntry n index + 1 :=
              level_parent rfl hne hin
            rw [← unitsOf_succ (by omega)]
            exact ih (by omega) hparent

theorem freeClimb_encodes (fuel : Nat) {index level : Nat} (h : Encodes n f g)
    (hlevel : freshEntry n index = level) (hin : InPool n index) :
    Encodes n (freeClimb fuel f index level) (poolFreeClimb fuel g index (unitsOf level)) := by
  induction fuel generalizing f g index level with
  | zero => exact h
  | succ fuel ih =>
      simp only [freeClimb, poolFreeClimb]
      split
      · exact h
      · next hne =>
          obtain ⟨hparent, hleft, hright⟩ := inPool_children hin hne
          have hup : freshEntry n ((index - 1) / 2) = freshEntry n index + 1 :=
            level_parent rfl hne hin
          have hl := level_parent (parent_left ((index - 1) / 2)) (by omega) hleft
          have hr := level_parent (parent_right ((index - 1) / 2)) (by omega) hright
          have hlbound := h.bound _ hleft
          have hrbound := h.bound _ hright
          have hpos := level_pos hin
          have hmerge := unitsOf_add_eq (a := f ((index - 1) / 2 * 2 + 1))
            (b := f ((index - 1) / 2 * 2 + 2)) (m := level) (by omega) (by omega) (by omega)
          have hvalue : (if g ((index - 1) / 2 * 2 + 1) + g ((index - 1) / 2 * 2 + 2) =
                unitsOf level * 2 then unitsOf level * 2
              else max (g ((index - 1) / 2 * 2 + 1)) (g ((index - 1) / 2 * 2 + 2))) =
              unitsOf (if f ((index - 1) / 2 * 2 + 1) + 1 = level + 1 ∧
                  f ((index - 1) / 2 * 2 + 2) + 1 = level + 1 then level + 1
                else max (f ((index - 1) / 2 * 2 + 1)) (f ((index - 1) / 2 * 2 + 2))) := by
            rw [h.entry _ hleft, h.entry _ hright]
            simp only [hmerge, Nat.add_right_cancel_iff]
            split
            · exact (unitsOf_succ (by omega)).symm
            · exact (unitsOf_max _ _).symm
          rw [hvalue, ← unitsOf_succ (by omega)]
          refine ih (h.update ?_) (by omega) hparent
          split <;> omega

theorem free_encodes (h : Encodes n f g) {o : Nat} {f' : Nat → Nat}
    (hfree : free (2 ^ n) f o = some f') :
    ∃ units g', poolFree (2 ^ n) g o = some (units, g') ∧ Encodes n f' g' := by
  simp only [free, Option.ite_none_right_eq_some, Option.map_eq_some_iff] at hfree
  obtain ⟨ho, found, hfound, rfl⟩ := hfree
  have hlog : Nat.log 2 (o + 2 ^ n - 1 + 1) = n :=
    Nat.log_eq_of_pow_le_of_lt_pow (by omega) (by rw [pow_succ]; omega)
  have hleaf : freshEntry n (o + 2 ^ n - 1) = 1 := by
    unfold freshEntry
    omega
  have hin : InPool n (o + 2 ^ n - 1) := by
    unfold InPool
    omega
  obtain ⟨hsame, hlevel⟩ := findUsed_encodes h (o + 2 ^ n - 1 + 1) hleaf hin
  obtain ⟨hindex, hin'⟩ := hlevel found hfound
  rw [hfound] at hsame
  have hfound' : poolFindUsed (o + 2 ^ n - 1 + 1) g (o + 2 ^ n - 1) 1 =
      some (found.1, unitsOf found.2) := hsame
  refine ⟨unitsOf found.2, _, ?_, freeClimb_encodes _ (h.update hindex.ge) hindex hin'⟩
  simp only [poolFree, hfound', Option.map_some]

/-- Counting down, an entry whose node is a leaf or has visited children is
final in both arrays. -/
theorem initParents_encodes (m : Nat) (hm : m ≤ 2 * 2 ^ n - 2)
    (h : ∀ j ≤ 2 * 2 ^ n - 2, 2 ^ n - 1 ≤ j ∨ m < j * 2 + 2 → f j ≠ 0 ∧ g j = unitsOf (f j)) :
    ∀ j ≤ 2 * 2 ^ n - 2, initParents f m j ≠ 0 ∧
      poolInitParents g m j = unitsOf (initParents f m j) := by
  induction m generalizing f g with
  | zero =>
      intro j hj
      exact h j hj (Or.inr (by omega))
  | succ m ih =>
      rw [initParents, poolInitParents]
      refine ih (by omega) fun j hj hfinal => ?_
      rcases eq_or_ne j ((m + 1 - 1) / 2) with rfl | hne
      · obtain ⟨hpos, hentry⟩ := h (m + 1) hm (Or.inr (by omega))
        rw [Function.update_self, Function.update_self, hentry]
        exact ⟨Nat.succ_ne_zero _, (unitsOf_succ hpos).symm⟩
      · rw [Function.update_of_ne hne, Function.update_of_ne hne]
        refine h j hj ?_
        rcases hfinal with hleaf | hvisited
        · exact Or.inl hleaf
        · exact Or.inr (by omega)

theorem init_encodes (hn : 1 ≤ n) (memory memory' : Nat → Nat) :
    Encodes n (init (2 ^ n) memory) (poolInit (2 ^ n) memory') := by
  have hcap : 2 ^ 1 ≤ 2 ^ n := Nat.pow_le_pow_right (by norm_num) hn
  constructor
  · intro j hj
    refine (initParents_encodes _ le_rfl (fun j hj hfinal => ?_) j hj).2
    rw [initLeaves_entry _ _ _ _ (by omega) hj, initLeaves_entry _ _ _ _ (by omega) hj]
    exact ⟨Nat.one_ne_zero, rfl⟩
  · exact fun j hj => (init_entry n hn memory j hj).le

end Operations

/-- The kernel's pool with its live blocks, the library's array (`none` once
`pool_free` does not return), and the pairs of offsets returned so far. -/
structure Both where
  kernel : Pool
  libc : Option (Nat → Nat)
  offsets : List (Nat × Nat)

/-- The same request to both: an allocation that the kernel accepts, or the
release of a live offset. -/
def Step (capacity : Nat) (b : Both) : Action → Both → Prop
  | .alloc s, b' => IsRequest s ∧ ∃ o longest,
      BuddyPool.alloc capacity b.kernel.longest s = some (o, longest) ∧
        b' = {
          kernel := ⟨longest, (o, max s 1) :: b.kernel.live⟩
          libc := b.libc.map fun g => (poolAlloc capacity g s).2
          offsets := b.offsets ++
            (b.libc.map fun g => (o, (poolAlloc capacity g s).1)).toList }
  | .free o, b' => ∃ u, (o, u) ∈ b.kernel.live ∧ ∃ longest,
      BuddyPool.free capacity b.kernel.longest o = some longest ∧
        b' = {
          kernel := ⟨longest, b.kernel.live.erase (o, u)⟩
          libc := b.libc.bind fun g => (poolFree capacity g o).map Prod.snd
          offsets := b.offsets }

/-- All runs of the two allocators, started by their init functions on
arbitrary memory. -/
def runs (capacity : Nat) : System Both Action where
  start b := ∃ memory memory', b =
    ⟨⟨BuddyPool.init capacity memory, []⟩, some (poolInit capacity memory'), []⟩
  step := Step capacity

/-- Same offsets, and entries that stand for each other; the kernel can release
every live offset, so that the run can go on with it. -/
structure Agree (n : Nat) (b : Both) : Prop where
  offsets : ∀ p ∈ b.offsets, p.1 = p.2
  entries : ∃ g, b.libc = some g ∧ ∀ j < 2 * 2 ^ n - 1, g j = unitsOf (b.kernel.longest j)
  releases : ∀ block ∈ b.kernel.live,
    BuddyPool.free (2 ^ n) b.kernel.longest block.1 ≠ none

/-- The kernel's side of a run is a run of the pool, and the arrays encode
each other. -/
structure Related (n : Nat) (b : Both) : Prop where
  kernel : Reachable (BuddySafety.system (2 ^ n)) b.kernel
  libc : ∃ g, b.libc = some g ∧ Encodes n b.kernel.longest g
  offsets : ∀ p ∈ b.offsets, p.1 = p.2

theorem related_step {n : Nat} (hn : n < 64) {b b' : Both} {a : Action} (h : Related n b)
    (hstep : Step (2 ^ n) b a b') : Related n b' := by
  obtain ⟨g, hlibc, hencodes⟩ := h.libc
  cases a with
  | alloc s =>
      obtain ⟨hrequest, o, longest, halloc, rfl⟩ := hstep
      obtain ⟨e, hs⟩ := isUnits_of_isRequest hrequest
      obtain ⟨hoffset, hencodes'⟩ := alloc_encodes hn hencodes hs halloc
      refine ⟨?_, ⟨(poolAlloc (2 ^ n) g s).2, by rw [hlibc]; rfl, hencodes'⟩, ?_⟩
      · exact ReachableUnder.step (a := .alloc s) h.kernel trivial
          ⟨hrequest, o, longest, halloc, rfl⟩
      · intro p hp
        rw [hlibc] at hp
        rcases List.mem_append.mp hp with hp | hp
        · exact h.offsets p hp
        · rw [List.mem_singleton.mp hp]
          exact hoffset.symm
  | free o =>
      obtain ⟨u, hlive, longest, hfree, rfl⟩ := hstep
      obtain ⟨units, g', hfree', hencodes'⟩ := free_encodes hencodes hfree
      refine ⟨?_, ⟨g', by rw [hlibc, Option.bind_some, hfree']; rfl, hencodes'⟩, h.offsets⟩
      exact ReachableUnder.step (a := .free o) h.kernel trivial ⟨u, hlive, longest, hfree, rfl⟩

/-- Kernel and library hand out the same offsets. -/
theorem allocators_agree (n : Nat) (hlow : 1 ≤ n) (hhigh : n ≤ 62) (b : Both)
    (hb : Reachable (runs (2 ^ n)) b) : Agree n b := by
  have hrelated : Related n b := by
    refine ReachableUnder.invariant (P := Related n) ?_ ?_ hb
    · rintro _ ⟨memory, memory', rfl⟩
      exact ⟨ReachableUnder.start ⟨memory, rfl⟩, ⟨_, rfl, init_encodes hlow memory memory'⟩, nofun⟩
    · exact fun _ _ _ h _ hstep => related_step (by omega) h hstep
  obtain ⟨g, hlibc, hencodes⟩ := hrelated.libc
  obtain ⟨t, hinv, -⟩ := inv_of_reachable hlow hhigh hrelated.kernel
  refine ⟨hrelated.offsets, ⟨g, hlibc, fun j hj => ?_⟩, fun block hblock => ?_⟩
  · exact hencodes.entry j (by unfold InPool; omega)
  · obtain ⟨_, longest, -, hfree, -⟩ :=
      free_live hinv hblock (inBlock_start (hinv.2.mem_iff.mp hblock))
    rw [hfree]
    exact Option.some_ne_none _

/-- The request `alloc s` to both allocators with `capacity` units. -/
def Both.alloc (capacity : Nat) (b : Both) (s : Nat) : Both :=
  let kernel := (BuddyPool.alloc capacity b.kernel.longest s).getD (0, fun _ => 0)
  { kernel := ⟨kernel.2, (kernel.1, max s 1) :: b.kernel.live⟩
    libc := b.libc.map fun g => (poolAlloc capacity g s).2
    offsets := b.offsets ++
      (b.libc.map fun g => (kernel.1, (poolAlloc capacity g s).1)).toList }

/-- Pools of four units on zeroed memory. -/
def fourUnits : Both :=
  ⟨⟨BuddyPool.init (2 ^ 2) fun _ => 0, []⟩, some (poolInit (2 ^ 2) fun _ => 0), []⟩

theorem fourUnits_agree :
    ((fourUnits.alloc (2 ^ 2) 1).alloc (2 ^ 2) 2).offsets = [(0, 0), (2, 2)] ∧
      Agree 2 ((fourUnits.alloc (2 ^ 2) 1).alloc (2 ^ 2) 2) := by
  have hstart : Reachable (runs (2 ^ 2)) fourUnits := ReachableUnder.start ⟨_, _, rfl⟩
  have hfirst : Reachable (runs (2 ^ 2)) (fourUnits.alloc (2 ^ 2) 1) :=
    ReachableUnder.step (a := .alloc 1) hstart trivial
      ⟨Or.inr ⟨0, by norm_num, rfl⟩, 0, _, rfl, rfl⟩
  have hsecond : Reachable (runs (2 ^ 2)) ((fourUnits.alloc (2 ^ 2) 1).alloc (2 ^ 2) 2) :=
    ReachableUnder.step (a := .alloc 2) hfirst trivial
      ⟨Or.inr ⟨1, by norm_num, rfl⟩, 2, _, rfl, rfl⟩
  exact ⟨rfl, allocators_agree 2 (by norm_num) (by norm_num) _ hsecond⟩

end LabKernel.LibcPool
