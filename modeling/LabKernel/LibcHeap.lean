import LabKernel.BuddyContract
import LabKernel.LibcPool

/-!
`malloc` and `free` of the user library (`tiny_libc/memory.c`).

The kernel's `BuddyPool::alloc` asserts that its root has room.  `pool_alloc`
descends without such a test, and `malloc` never reports a failure.
-/

namespace LabKernel.LibcHeap

open LabKernel.BuddyContract
open LabKernel.BuddyRefinement
open LabKernel.BuddySafety
open LabKernel.BuddyTree
open LabKernel.LibcPool
open LabKernel.Rounding
open LabKernel.TransitionSystem

def memBegin : Nat := 2 ^ 30
def memEnd : Nat := 2 * 2 ^ 30
def batchSize : Nat := 4096
def capacity : Nat := (memEnd - memBegin) / batchSize

/-- `malloc`: the pointer and the array. -/
def malloc (longest : Nat → Nat) (size : Nat) : Nat × (Nat → Nat) :=
  let size := ceilPower2 size
  let found := poolAlloc capacity longest (size / batchSize)
  (memBegin + found.1 * batchSize, found.2)

/-- `free`; `none` when `pool_free` runs past the root. -/
def free (longest : Nat → Nat) (ptr : Nat) : Option (Nat → Nat) :=
  let offset := (ptr + 2 ^ 64 - memBegin) % 2 ^ 64
  (poolFree capacity longest (offset / batchSize)).map Prod.snd

/-- The units that `malloc` sets aside for a request. -/
def units (size : Nat) : Nat := max (ceilPower2 size / batchSize) 1

/-- The length of the region that `malloc` returns. -/
def reserved (size : Nat) : Nat := units size * batchSize

/-- The array and the regions returned and not yet freed, as pointers and
lengths. -/
structure Heap where
  longest : Nat → Nat
  live : List (Nat × Nat)

inductive Call where
  | malloc (size : Nat)
  | free (ptr : Nat)

def Step (h : Heap) : Call → Heap → Prop
  | .malloc size, h' => size < 2 ^ 64 ∧
      h' = ⟨(malloc h.longest size).2, ((malloc h.longest size).1, reserved size) :: h.live⟩
  | .free ptr, h' => ∃ length, (ptr, length) ∈ h.live ∧ ∃ longest,
      free h.longest ptr = some longest ∧ h' = ⟨longest, h.live.erase (ptr, length)⟩

/-- All runs after `__crt_init` on arbitrary memory. -/
def system : System Heap Call where
  start h := ∃ memory, h = ⟨poolInit capacity memory, []⟩
  step := Step

/-- `malloc` reports a failure or returns a region that is large enough, lies
in the pool and meets no other. -/
def Serves (h : Heap) (size : Nat) : Prop :=
  let ptr := (malloc h.longest size).1
  ptr = 0 ∨ size ≤ reserved size ∧ memBegin ≤ ptr ∧ ptr + reserved size ≤ memEnd ∧
    ∀ r ∈ h.live, Apart r (ptr, reserved size)

/-- The aligned range at unit `o` is in the pool and meets no region in use. -/
def Available (h : Heap) (size o : Nat) : Prop :=
  units size ∣ o ∧ o + units size ≤ capacity ∧
    ∀ r ∈ h.live, Apart r (memBegin + o * batchSize, reserved size)

/-- The size can be rounded and there is a range for it. -/
def HasRoom (h : Heap) (size : Nat) : Prop :=
  size ≤ 2 ^ 63 ∧ ∃ o, Available h size o

def Fits (h : Heap) : Call → Prop
  | .malloc size => HasRoom h size
  | .free _ => True

variable {h h' : Heap} {p : Pool} {size o e : Nat} {b : Nat × Nat}

theorem capacity_eq : capacity = 2 ^ 18 := by decide

theorem malloc_fst (longest : Nat → Nat) (size : Nat) : (malloc longest size).1 =
    memBegin + (poolAlloc (2 ^ 18) longest (ceilPower2 size / batchSize)).1 * batchSize := by
  simp only [malloc, capacity_eq]

theorem malloc_snd (longest : Nat → Nat) (size : Nat) : (malloc longest size).2 =
    (poolAlloc (2 ^ 18) longest (ceilPower2 size / batchSize)).2 := by
  simp only [malloc, capacity_eq]

theorem free_offset (longest : Nat → Nat) (hle : o ≤ capacity) :
    free longest (memBegin + o * batchSize) =
      (poolFree (2 ^ 18) longest o).map Prod.snd := by
  have hoffset : (memBegin + o * batchSize + 2 ^ 64 - memBegin) % 2 ^ 64 / batchSize = o := by
    rw [capacity_eq] at hle
    simp only [memBegin, batchSize]
    omega
  simp only [free, hoffset, capacity_eq]

/-- The region of a block of units. -/
def region (b : Nat × Nat) : Nat × Nat := (memBegin + b.1 * batchSize, b.2 * batchSize)

theorem region_injective : Function.Injective region := by
  rintro ⟨o, u⟩ ⟨o', u'⟩ heq
  simp only [region, batchSize, Prod.mk.injEq] at heq ⊢
  omega

theorem apart_region (a b : Nat × Nat) : Apart (region a) (region b) ↔ Apart a b := by
  simp only [Apart, region, memBegin, batchSize]
  omega

theorem units_pos (size : Nat) : 0 < units size := Nat.lt_of_lt_of_le Nat.one_pos (le_max_right _ _)

theorem isRequest (hsize : size < 2 ^ 64) : IsRequest (ceilPower2 size / batchSize) := by
  rcases ceilPower2_cases size hsize with hzero | ⟨e, he, hpow⟩
  · exact Or.inl (by rw [hzero, Nat.zero_div])
  · rw [hpow, show batchSize = 2 ^ 12 by decide]
    rcases Nat.lt_or_ge e 12 with hsmall | hbig
    · exact Or.inl (Nat.div_eq_of_lt (Nat.pow_lt_pow_right (by norm_num) hsmall))
    · exact Or.inr ⟨e - 12, by omega, Nat.pow_div hbig (by norm_num)⟩

theorem isUnits_units (hsize : size < 2 ^ 64) :
    ∃ e, IsUnits (ceilPower2 size / batchSize) e ∧ units size = 2 ^ e := by
  obtain ⟨e, he⟩ := isUnits_of_isRequest (isRequest hsize)
  exact ⟨e, he, he.1⟩

theorem le_reserved (hsize : size ≤ 2 ^ 63) : size ≤ reserved size := by
  rcases Nat.eq_zero_or_pos size with rfl | hpos
  · exact Nat.zero_le _
  · obtain ⟨e, -, hpow, hle, -⟩ := ceilPower2_spec size hpos hsize
    unfold reserved units
    rw [hpow]
    rcases Nat.lt_or_ge e 12 with hsmall | hbig
    · have hlt : 2 ^ e < batchSize := Nat.pow_lt_pow_right (by norm_num) hsmall
      rw [Nat.div_eq_of_lt hlt, Nat.max_eq_right (Nat.zero_le 1), Nat.one_mul]
      omega
    · have hdvd : batchSize ∣ 2 ^ e := pow_dvd_pow 2 hbig
      calc size ≤ 2 ^ e := hle
        _ = 2 ^ e / batchSize * batchSize := (Nat.div_mul_cancel hdvd).symm
        _ ≤ _ := Nat.mul_le_mul_right _ (le_max_left _ _)

theorem reserved_of_gt (hlow : 2 ^ 63 < size) (hhigh : size < 2 ^ 64) : reserved size = 4096 := by
  rw [reserved, units, ceilPower2_of_gt hlow hhigh]
  rfl

/-- A pool of the kernel with the same blocks. -/
structure Mirrors (p : Pool) (h : Heap) : Prop where
  kernel : Reachable (BuddySafety.system (2 ^ 18)) p
  encodes : Encodes 18 p.longest h.longest
  live : h.live = p.live.map region

theorem vacant_iff (hm : Mirrors p h) (he : units size = 2 ^ e) :
    Vacant p.live 18 e o ↔ Available h size o := by
  have hapart : (∀ u, InBlock u (o, 2 ^ e) → ∀ b ∈ p.live, ¬InBlock u b) ↔
      ∀ r ∈ h.live, Apart r (memBegin + o * batchSize, reserved size) := by
    have hregion : (memBegin + o * batchSize, reserved size) = region (o, 2 ^ e) := by
      rw [region, reserved, he]
    have hpos := Nat.two_pow_pos e
    obtain ⟨t, ⟨-, hperm⟩, -⟩ := inv_of_reachable (n := 18) (by norm_num) (by norm_num) hm.kernel
    rw [hm.live, hregion]
    simp only [List.mem_map, forall_exists_index, and_imp, forall_apply_eq_imp_iff₂, apart_region]
    constructor
    · intro houtside b hb
      refine Apart.symm ((apart_iff hpos (blocks_pos (hperm.mem_iff.mp hb))).mpr fun u hu => ?_)
      exact houtside u hu b hb
    · intro hall u hu b hb
      exact (apart_iff hpos (blocks_pos (hperm.mem_iff.mp hb))).mp (hall b hb).symm u hu
  rw [Available, he, capacity_eq]
  constructor
  · exact fun hv => ⟨hv.dvd, hv.le, hapart.mp hv.outside⟩
  · exact fun ⟨hdvd, hle, hall⟩ => ⟨hdvd, hle, hapart.mpr hall⟩

theorem malloc_mirrors (hm : Mirrors p h) (hsize : size < 2 ^ 64)
    (hroom : ∃ o, Available h size o) :
    ∃ o p', (malloc h.longest size).1 = memBegin + o * batchSize ∧ Available h size o ∧
      Mirrors p' ⟨(malloc h.longest size).2,
        ((malloc h.longest size).1, reserved size) :: h.live⟩ := by
  obtain ⟨e, hunits, he⟩ := isUnits_units hsize
  have hsome := (alloc_isSome_iff (by norm_num) (by norm_num) hm.kernel hunits).mpr
    (hroom.imp fun o ho => (vacant_iff hm he).mpr ho)
  obtain ⟨⟨o, f⟩, halloc⟩ := Option.isSome_iff_exists.mp hsome
  obtain ⟨hoffset, hencodes⟩ := alloc_encodes (by norm_num) hm.encodes hunits halloc
  have hvacant := alloc_vacant (by norm_num) (by norm_num) hm.kernel hunits halloc
  have hptr : (malloc h.longest size).1 = memBegin + o * batchSize := by
    rw [malloc_fst, hoffset]
  refine ⟨o, ⟨f, (o, 2 ^ e) :: p.live⟩, hptr, (vacant_iff hm he).mp hvacant, ?_, ?_, ?_⟩
  · have hrequest := isRequest hsize
    exact hm.kernel.step (a := .alloc (ceilPower2 size / batchSize)) trivial
      ⟨hrequest, o, f, halloc, by rw [hunits.1]⟩
  · rw [malloc_snd]
    exact hencodes
  · rw [List.map_cons, hm.live, hptr, region, reserved, he]

theorem free_mirrors {r : Nat × Nat} (hm : Mirrors p h) (hmem : r ∈ h.live) :
    ∃ longest p', free h.longest r.1 = some longest ∧
      Mirrors p' ⟨longest, h.live.erase r⟩ := by
  rw [hm.live] at hmem
  obtain ⟨b, hb, rfl⟩ := List.mem_map.mp hmem
  obtain ⟨f, hkernel, hnext⟩ := reachable_free (by norm_num) (by norm_num) hm.kernel hb
  obtain ⟨u, g, hlibc, hencodes⟩ := free_encodes hm.encodes hkernel
  obtain ⟨t, ⟨-, hperm⟩, -⟩ := inv_of_reachable (n := 18) (by norm_num) (by norm_num) hm.kernel
  have hrange := mem_blocks (hperm.mem_iff.mp hb)
  refine ⟨g, ⟨f, p.live.erase b⟩, ?_, hnext, hencodes, ?_⟩
  · rw [region, free_offset h.longest (by rw [capacity_eq]; omega), hlibc]
    rfl
  · rw [hm.live, List.map_erase region_injective]

theorem mirrors_init (memory : Nat → Nat) : ∃ p, Mirrors p ⟨poolInit capacity memory, []⟩ := by
  have hencodes := init_encodes (n := 18) (by norm_num) memory memory
  refine ⟨⟨BuddyPool.init (2 ^ 18) memory, []⟩, reachable_init _ memory, ?_, rfl⟩
  dsimp only
  rw [capacity_eq]
  exact hencodes

theorem mirrored (hh : ReachableUnder system Fits h) : ∃ p, Mirrors p h := by
  apply hh.invariant (P := fun h => ∃ p, Mirrors p h)
  · rintro _ ⟨memory, rfl⟩
    exact mirrors_init memory
  · rintro h a h' ⟨p, hm⟩ hfits hstep
    cases a with
    | malloc size =>
        obtain ⟨hsize, rfl⟩ := hstep
        obtain ⟨-, p', -, -, hm'⟩ := malloc_mirrors hm hsize hfits.2
        exact ⟨p', hm'⟩
    | free ptr =>
        obtain ⟨length, hmem, longest, hfree, rfl⟩ := hstep
        obtain ⟨longest', p', hfree', hm'⟩ := free_mirrors hm hmem
        obtain rfl := Option.some.inj (hfree.symm.trans hfree')
        exact ⟨p', hm'⟩

theorem Mirrors.separate (hm : Mirrors p h) :
    (∀ r ∈ h.live, memBegin ≤ r.1 ∧ r.1 + r.2 ≤ memEnd) ∧ h.live.Pairwise Apart := by
  obtain ⟨t, ⟨-, hperm⟩, -⟩ := inv_of_reachable (n := 18) (by norm_num) (by norm_num) hm.kernel
  rw [hm.live]
  constructor
  · intro r hr
    obtain ⟨b, hb, rfl⟩ := List.mem_map.mp hr
    have hrange := (mem_blocks (hperm.mem_iff.mp hb)).2.1
    simp only [region, memBegin, memEnd, batchSize]
    omega
  · refine List.pairwise_map.mpr ?_
    simp only [apart_region]
    exact (hperm.pairwise_iff Apart.symm).mpr (blocks_pairwise t 0)

theorem poolDescend_size (longest : Nat → Nat) (e d fuel index : Nat) (hfuel : d ≤ fuel) :
    (poolDescend longest (2 ^ e) fuel (2 ^ (e + d)) index).1 = 2 ^ e := by
  induction d generalizing fuel index with
  | zero =>
      cases fuel with
      | zero => rfl
      | succ fuel => simp [poolDescend]
  | succ d ih =>
      obtain ⟨fuel, rfl⟩ : ∃ m, fuel = m + 1 := ⟨fuel - 1, by omega⟩
      have hlt : 2 ^ e < 2 ^ (e + (d + 1)) := Nat.pow_lt_pow_right (by norm_num) (by omega)
      have hhalf : 2 ^ (e + (d + 1)) / 2 = 2 ^ (e + d) := by
        rw [← Nat.add_assoc, pow_succ, Nat.mul_div_cancel _ (by norm_num)]
      rw [poolDescend, if_pos hlt, hhalf]
      split
      · exact ih fuel _ (by omega)
      · exact ih fuel _ (by omega)

theorem malloc_aligned (longest : Nat → Nat) (hsize : size < 2 ^ 64)
    (hunits : units size ≤ capacity) :
    ∃ o, (malloc longest size).1 = memBegin + o * batchSize ∧ units size ∣ o := by
  obtain ⟨e, -, he⟩ := isUnits_units hsize
  have hone : (if ceilPower2 size / batchSize = 0 then 1 else ceilPower2 size / batchSize) =
      2 ^ e := by
    rw [← he, units]
    generalize ceilPower2 size / batchSize = request
    split <;> omega
  have hle : e ≤ 18 := by
    rw [he, capacity_eq] at hunits
    exact (Nat.pow_le_pow_iff_right (by norm_num)).mp hunits
  have hnode := poolDescend_size longest e (18 - e) 64 0 (by omega)
  rw [Nat.add_sub_cancel' hle] at hnode
  refine ⟨_, malloc_fst longest size, ?_⟩
  simp only [poolAlloc, hone, hnode, he]
  exact Nat.dvd_sub (Nat.dvd_mul_left _ _) (pow_dvd_pow 2 hle)

theorem hasRoom_of_serves (hsize : size < 2 ^ 64) (hserves : Serves h size) :
    HasRoom h size := by
  obtain hnull | ⟨hlarge, -, hend, hapart⟩ := hserves
  · rw [malloc_fst, memBegin] at hnull
    omega
  · have hround : size ≤ 2 ^ 63 := by
      by_contra hgt
      have hfour := reserved_of_gt (by omega) hsize
      omega
    have hunits : units size ≤ capacity := by
      rw [malloc_fst, reserved] at hend
      simp only [memBegin, memEnd, batchSize, capacity_eq] at hend ⊢
      omega
    obtain ⟨o, hptr, hdvd⟩ := malloc_aligned h.longest hsize hunits
    rw [hptr] at hend hapart
    refine ⟨hround, o, hdvd, ?_, hapart⟩
    rw [reserved] at hend
    simp only [memBegin, memEnd, batchSize, capacity_eq] at hend ⊢
    omega

theorem Mirrors.serves (hm : Mirrors p h) (hsize : size < 2 ^ 64) (hroom : HasRoom h size) :
    Serves h size := by
  obtain ⟨o, -, hptr, ⟨-, hle, hapart⟩, -⟩ := malloc_mirrors hm hsize hroom.2
  unfold Serves
  rw [hptr]
  refine Or.inr ⟨le_reserved hroom.1, Nat.le_add_right _ _, ?_, hapart⟩
  rw [reserved]
  simp only [memBegin, memEnd, batchSize, capacity_eq] at hle ⊢
  omega

/-- In a run without a request that lacks room, the regions in use stay
disjoint and can be released, and a request is served as documented exactly
when there is room for it. -/
theorem heap_separate (hh : ReachableUnder system Fits h) :
    ((∀ r ∈ h.live, memBegin ≤ r.1 ∧ r.1 + r.2 ≤ memEnd) ∧ h.live.Pairwise Apart) ∧
    (∀ r ∈ h.live, (free h.longest r.1).isSome) ∧
    ∀ size < 2 ^ 64, Serves h size ↔ HasRoom h size := by
  obtain ⟨p, hm⟩ := mirrored hh
  refine ⟨hm.separate, fun r hr => ?_, fun size hsize => ⟨hasRoom_of_serves hsize, hm.serves hsize⟩⟩
  obtain ⟨longest, -, hfree, -⟩ := free_mirrors hm hr
  rw [hfree]
  rfl

/-- The heap after `__crt_init` on zeroed memory. -/
def newHeap : Heap := ⟨poolInit capacity fun _ => 0, []⟩

theorem units_whole : units (2 ^ 30) = 2 ^ 18 := by decide +kernel

theorem units_double : units (2 ^ 31) = 2 ^ 19 := by decide +kernel

theorem newHeap_room : HasRoom newHeap (2 ^ 30) := by
  refine ⟨by norm_num, 0, Nat.dvd_zero _, ?_, nofun⟩
  rw [units_whole, capacity_eq]
  norm_num

theorem heap_separate_newHeap : Serves newHeap (2 ^ 30) ∧ ¬Serves newHeap (2 ^ 31) := by
  obtain ⟨-, -, hserves⟩ := heap_separate (h := newHeap) (ReachableUnder.start ⟨_, rfl⟩)
  refine ⟨(hserves _ (by norm_num)).mpr newHeap_room, fun h => ?_⟩
  obtain ⟨-, o, -, hle, -⟩ := (hserves _ (by norm_num)).mp h
  rw [units_double, capacity_eq] at hle
  omega

/-- The heap after `malloc(1 << 30)`, which takes the whole pool. -/
def fullHeap : Heap :=
  ⟨(malloc newHeap.longest (2 ^ 30)).2,
    [((malloc newHeap.longest (2 ^ 30)).1, reserved (2 ^ 30))]⟩

/-- With the pool exhausted `malloc(1)` returns memory that is in use. -/
theorem malloc_full_overlaps : Reachable system fullHeap ∧ ¬Serves fullHeap 1 := by
  have hstart : Reachable system newHeap := ReachableUnder.start ⟨_, rfl⟩
  refine ⟨hstart.step (a := .malloc (2 ^ 30)) trivial ⟨by norm_num, rfl⟩, fun hserves => ?_⟩
  obtain ⟨p, hm⟩ := mirrors_init fun _ => 0
  obtain ⟨o, -, hptr, ⟨-, hle, -⟩, -⟩ := malloc_mirrors hm (by norm_num) newHeap_room.2
  obtain ⟨-, o', -, hle', hapart⟩ := hasRoom_of_serves (by norm_num) hserves
  have hout := hapart _ List.mem_cons_self
  have hone : 0 < units 1 := units_pos 1
  rw [units_whole, capacity_eq] at hle
  rw [capacity_eq] at hle'
  simp only [newHeap] at hptr hout
  simp only [hptr, Apart, reserved, units_whole, memBegin, batchSize] at hout
  omega

end LabKernel.LibcHeap
