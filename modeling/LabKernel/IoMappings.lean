import Mathlib.Data.BitVec
import LabKernel.PageUpdates

/-!
`ioremap` of `page.cpp`: what the addresses it returns are translated to after
any sequence of calls.
-/

namespace LabKernel.IoMappings

open LabKernel.PageRuns
open LabKernel.PageTable
open LabKernel.PageUpdates
open LabKernel.TransitionSystem

/-- The memory and `io_base_va` after calls with the given `phys_addr` and
`size`. -/
def after (calls : List (Ptr × Ptr)) : Memory × Ptr := calls.foldl ioremap (setupVm, ioBaseVa)

/-- The address that `ioremap` returns. -/
def ioremapVa (base : Ptr) (call : Ptr × Ptr) : Ptr := base + call.1 % 0x200000

/-- What call number `i` of a sequence returns. -/
def returned (calls : List (Ptr × Ptr)) (i : Nat) (call : Ptr × Ptr) : Ptr :=
  ioremapVa (after (calls.take i)).2 call

/-- How many pages of 2 MiB the range of a call touches. -/
@[irreducible]
def pages (call : Ptr × Ptr) : Nat :=
  (call.1.toNat % 2 ^ 21 + call.2.toNat + (2 ^ 21 - 1)) / 2 ^ 21

def pagesOf (calls : List (Ptr × Ptr)) : Nat := (calls.map pages).sum

theorem pagesOf_append (calls calls' : List (Ptr × Ptr)) :
    pagesOf (calls ++ calls') = pagesOf calls + pagesOf calls' := by
  unfold pagesOf
  rw [List.map_append, List.sum_append]

/-- Calls whose pages fit into the window. -/
structure FitsWindow (calls : List (Ptr × Ptr)) : Prop where
  size : ∀ call ∈ calls, 0 < call.2.toNat
  total : pagesOf calls ≤ 512

/-- Every returned range is translated to its physical range, modulo the given
size of the physical address space, and shares no address with another one. -/
structure Translated (calls : List (Ptr × Ptr)) (physical : Nat) : Prop where
  walk : ∀ i call, calls[i]? = some call → ∀ k < call.2.toNat,
    PageUpdates.walk (after calls).1 pgdirPage (returned calls i call + BitVec.ofNat 64 k) =
      some (BitVec.ofNat 64 ((call.1.toNat + k) % physical))
  disjoint : ∀ i j call call', calls[i]? = some call → calls[j]? = some call' → i ≠ j →
    ∀ k < call.2.toNat, ∀ k' < call'.2.toNat,
      returned calls i call + BitVec.ofNat 64 k ≠ returned calls j call' + BitVec.ofNat 64 k'

variable {calls : List (Ptr × Ptr)} {call call' : Ptr × Ptr} {i j k n : Nat} {m : Memory}

/-- The entry for 2 MiB from the given physical address on. -/
def leaf (phys : Ptr) : PageEntry := .kernelLeaf ((phys >>> 12).setWidth 44)

theorem ioEntry_of_lt (h : n < 512) : ioEntry n = (ioPage, ⟨n, h⟩) := by
  unfold ioEntry
  rw [Nat.div_eq_of_lt h]
  exact Prod.ext (BitVec.add_zero _) (Fin.ext (Nat.mod_eq_of_lt h))

theorem ioremapLoop_window {first count : Nat} (hbound : first + count ≤ 512) (phys : Ptr)
    (hn : n < 512) :
    ioremapLoop first phys count m ioPage ⟨n, hn⟩ =
      if first ≤ n ∧ n < first + count then leaf (phys + BitVec.ofNat 64 ((n - first) * 2 ^ 21))
      else m ioPage ⟨n, hn⟩ := by
  induction count with
  | zero => rw [ioremapLoop, if_neg (by omega)]
  | succ count ih =>
      have hlast : first + count < 512 := by omega
      rw [ioremapLoop, writeEntry, ioEntry_of_lt hlast]
      rcases eq_or_ne n (first + count) with rfl | hne
      · rw [if_pos rfl, if_pos ⟨Nat.le_add_right .., Nat.lt_succ_self _⟩, Nat.add_sub_cancel_left]
        rfl
      · rw [if_neg fun heq => hne (congrArg Fin.val (Prod.mk.inj heq).2), ih (by omega)]
        exact if_congr (by omega) rfl rfl

theorem pages_pos (h : 0 < call.2.toNat) : 0 < pages call := by
  unfold pages
  omega

theorem toNat_mod_page (phys : Ptr) : (phys % 0x200000).toNat = phys.toNat % 2 ^ 21 :=
  BitVec.toNat_umod

theorem count_eq (h : pages call ≤ 512) :
    let size := call.2 + call.1 % 0x200000
    (size / 0x200000 + if size % 0x200000 ≠ 0 then 1 else 0).toNat = pages call := by
  intro size
  have hpage : (0x200000 : Ptr).toNat = 2 ^ 21 := by decide
  have hsize : size.toNat = call.2.toNat + call.1.toNat % 2 ^ 21 := by
    rw [BitVec.toNat_add, toNat_mod_page]
    apply Nat.mod_eq_of_lt
    unfold pages at h
    omega
  have hdiv : (size / 0x200000).toNat = size.toNat / 2 ^ 21 := by rw [BitVec.toNat_udiv, hpage]
  have hmod : size % 0x200000 ≠ 0 ↔ size.toNat % 2 ^ 21 ≠ 0 := by
    rw [← toNat_mod_page, ne_eq, ← BitVec.toNat_inj]
    rfl
  have hlt := size.isLt
  unfold pages at h ⊢
  split
  next hrest =>
    rw [hmod] at hrest
    rw [BitVec.toNat_add, hdiv, hsize] at *
    have hone : (1 : Ptr).toNat = 1 := rfl
    rw [hone]
    omega
  next hrest =>
    rw [hmod] at hrest
    rw [BitVec.toNat_add, hdiv, hsize] at *
    have hzero : (0 : Ptr).toNat = 0 := rfl
    rw [hzero]
    omega

/-- The address of an offset in the window. -/
def windowVa (offset : Nat) : Ptr := ioBaseVa + BitVec.ofNat 64 offset

theorem toNat_windowVa (h : n < 2 ^ 30) : (windowVa n).toNat = ioBaseVa.toNat + n := by
  have hbase : ioBaseVa.toNat = 0xffffffe000000000 := by decide
  rw [windowVa, BitVec.toNat_add, BitVec.toNat_ofNat, hbase]
  omega

theorem getVpn_windowVa (h : n < 2 ^ 30) :
    (getVpn (windowVa n) 2).val = 384 ∧ (getVpn (windowVa n) 1).val = n / 2 ^ 21 ∧
      (getVpn (windowVa n) 0).val = n % 2 ^ 21 / 4096 := by
  have hbase : ioBaseVa.toNat = 0xffffffe000000000 := by decide
  rw [getVpn_val, getVpn_val, getVpn_val, toNat_windowVa h, hbase]
  refine ⟨?_, ?_, ?_⟩ <;> omega

theorem pagesOf_concat (calls : List (Ptr × Ptr)) (call : Ptr × Ptr) :
    pagesOf (calls ++ [call]) = pagesOf calls + pages call := by
  unfold pagesOf
  rw [List.map_append, List.sum_append, List.map_cons, List.map_nil, List.sum_cons, List.sum_nil,
    Nat.add_zero]

theorem FitsWindow.of_append {calls' : List (Ptr × Ptr)} (h : FitsWindow (calls ++ calls')) :
    FitsWindow calls := by
  refine ⟨fun c hc => h.size c (List.mem_append_left _ hc), ?_⟩
  have htotal := h.total
  rw [pagesOf_append] at htotal
  omega

theorem FitsWindow.take (h : FitsWindow calls) (i : Nat) : FitsWindow (calls.take i) :=
  of_append ((List.take_append_drop i calls).symm ▸ h)

theorem after_concat (calls : List (Ptr × Ptr)) (call : Ptr × Ptr) :
    after (calls ++ [call]) = ioremap (after calls) call := by
  simp only [after, List.foldl_append, List.foldl_cons, List.foldl_nil]

/-- The entries of the window behind page number `first` for a call. -/
def MappedAt (m : Memory) (first : Nat) (call : Ptr × Ptr) : Prop :=
  ∀ c < pages call, ∀ hn : first + c < 512,
    m ioPage ⟨first + c, hn⟩ =
      leaf (call.1 / 0x200000 * 0x200000 + BitVec.ofNat 64 (c * 2 ^ 21))

/-- What a sequence of calls leaves: the base has moved by their pages, and the
entries of each of them are in the window. -/
structure Window (calls : List (Ptr × Ptr)) : Prop where
  base : (after calls).2 = windowVa (pagesOf calls * 2 ^ 21)
  mapped : ∀ i call, calls[i]? = some call → MappedAt (after calls).1 (pagesOf (calls.take i)) call

theorem pagesOf_take_add (hi : calls[i]? = some call) (hij : i < j) :
    pagesOf (calls.take i) + pages call ≤ pagesOf (calls.take j) := by
  have hupTo : calls.take j = calls.take (i + 1) ++ (calls.take j).drop (i + 1) := by
    have hsplit := List.take_append_drop (i + 1) (calls.take j)
    rwa [List.take_take, Nat.min_eq_left hij, eq_comm] at hsplit
  have hnext : calls.take (i + 1) = calls.take i ++ [call] := by
    rw [List.take_add_one, hi]
    rfl
  rw [hupTo, pagesOf_append, ← pagesOf_concat, ← hnext]
  exact Nat.le_add_right ..

theorem toNat_pages (h : n + pages call ≤ 512) :
    (BitVec.ofNat 64 (pages call)).toNat = pages call := by
  rw [BitVec.toNat_ofNat]
  exact Nat.mod_eq_of_lt (by omega)

theorem pagesOf_take_le (calls : List (Ptr × Ptr)) (i : Nat) :
    pagesOf (calls.take i) ≤ pagesOf calls := by
  have hsplit := List.take_append_drop i calls
  have hsum := pagesOf_append (calls.take i) (calls.drop i)
  rw [hsplit] at hsum
  omega

theorem FitsWindow.range_le (h : FitsWindow calls) (hi : calls[i]? = some call) :
    pagesOf (calls.take i) + pages call ≤ 512 := by
  have hlt : i < calls.length := (List.getElem?_eq_some_iff.mp hi).1
  have hle := pagesOf_take_add hi hlt
  have htotal := h.total
  have htake := pagesOf_take_le calls calls.length
  omega

theorem FitsWindow.window (h : FitsWindow calls) : Window calls := by
  induction calls using List.reverseRecOn with
  | nil =>
      refine ⟨?_, fun i call hi => absurd hi (by simp)⟩
      exact (BitVec.add_zero _).symm
  | append_singleton calls call ih =>
      have hpage : (0x200000 : Ptr) = BitVec.ofNat 64 (2 ^ 21) := by decide
      obtain ⟨hbase, hmapped⟩ := ih h.of_append
      have htotal := h.total
      rw [pagesOf_concat] at htotal
      have hpos := pages_pos (h.size call (List.mem_append_right _ (List.mem_singleton_self _)))
      have hcount := count_eq (show pages call ≤ 512 by omega)
      have hfirst : (getVpn (after calls).2 1).val = pagesOf calls := by
        rw [hbase, (getVpn_windowVa (by omega)).2.1]
        omega
      have hentry : ∀ n (hn : n < 512), (after (calls ++ [call])).1 ioPage ⟨n, hn⟩ =
          if pagesOf calls ≤ n ∧ n < pagesOf calls + pages call then
            leaf (call.1 / 0x200000 * 0x200000 + BitVec.ofNat 64 ((n - pagesOf calls) * 2 ^ 21))
          else (after calls).1 ioPage ⟨n, hn⟩ := by
        intro n hn
        rw [after_concat, ioremap]
        dsimp only
        rw [hcount, hfirst]
        exact ioremapLoop_window htotal _ hn
      constructor
      · rw [after_concat, ioremap, pagesOf_concat]
        dsimp only
        rw [BitVec.eq_of_toNat_eq (hcount.trans (toNat_pages htotal).symm), hbase]
        unfold windowVa
        rw [BitVec.add_assoc, Nat.add_mul, BitVec.ofNat_add, BitVec.ofNat_mul (pages call), hpage]
      · intro i call' hi c hc hn
        rw [hentry]
        rcases getElem?_snoc.mp hi with hold | ⟨rfl, rfl⟩
        · have hlt : i < calls.length := (List.getElem?_eq_some_iff.mp hold).1
          have htake : (calls ++ [call]).take i = calls.take i :=
          List.take_append_of_le_length hlt.le
          have hbefore := pagesOf_take_add hold hlt
          rw [List.take_length] at hbefore
          simp only [htake] at hn ⊢
          rw [if_neg (by omega)]
          exact hmapped i call' hold c hc hn
        · simp only [List.take_left'] at hn ⊢
          rw [if_pos (by omega), Nat.add_sub_cancel_left]

theorem toNat_ppn_leaf (phys : Ptr) (c : Nat) :
    (leaf (phys / 0x200000 * 0x200000 + BitVec.ofNat 64 (c * 2 ^ 21))).ppn.toNat =
      512 * (phys.toNat / 2 ^ 21 + c) % 2 ^ 44 := by
  have hpage : (0x200000 : Ptr).toNat = 2 ^ 21 := by decide
  change
    (((phys / 0x200000 * 0x200000 + BitVec.ofNat 64 (c * 2 ^ 21)) >>> 12).setWidth 44).toNat = _
  rw [BitVec.toNat_setWidth, BitVec.toNat_ushiftRight, BitVec.toNat_add, BitVec.toNat_mul,
    BitVec.toNat_udiv, hpage, BitVec.toNat_ofNat, Nat.shiftRight_eq_div_pow]
  omega

theorem walk_windowVa (phys : Ptr) (c : Nat) (hroot : ∀ i, m pgdirPage i = setupVm pgdirPage i)
    (hn : n < 2 ^ 30) (hlt : n / 2 ^ 21 < 512) (hleaf : m ioPage ⟨n / 2 ^ 21, hlt⟩ =
      leaf (phys / 0x200000 * 0x200000 + BitVec.ofNat 64 (c * 2 ^ 21))) :
    walk m pgdirPage (windowVa n) =
      some (BitVec.ofNat 64
        ((phys.toNat / 2 ^ 21 * 2 ^ 21 + c * 2 ^ 21 + n % 2 ^ 21) % 2 ^ 56)) := by
  obtain ⟨h2, h1, h0⟩ := getVpn_windowVa hn
  have htop : m pgdirPage (getVpn (windowVa n) 2) =
      ⟨true, .noleaf, false, true, false, false, .normal, ioPage⟩ := by
    rw [hroot, show getVpn (windowVa n) 2 = 384 from Fin.ext h2]
    decide +kernel
  have hmiddle : m ioPage (getVpn (windowVa n) 1) =
      leaf (phys / 0x200000 * 0x200000 + BitVec.ofNat 64 (c * 2 ^ 21)) := by
    rw [← hleaf]
    exact congrArg (m ioPage) (Fin.ext h1)
  have htranslation : translation m pgdirPage (pageOf (windowVa n)) = some
      (leaf (phys / 0x200000 * 0x200000 + BitVec.ofNat 64 (c * 2 ^ 21)),
        (leaf (phys / 0x200000 * 0x200000 + BitVec.ofNat 64 (c * 2 ^ 21))).ppn +
          BitVec.ofNat 44 (n % 2 ^ 21 / 4096)) := by
    unfold translation pageOf
    simp only [htop, hmiddle, h0]
    rfl
  rw [walk, htranslation, Option.map_some]
  apply congrArg some
  apply BitVec.eq_of_toNat_eq
  rw [BitVec.toNat_add, BitVec.toNat_shiftLeft, BitVec.toNat_setWidth, BitVec.toNat_add,
    toNat_ppn_leaf, BitVec.toNat_ofNat, BitVec.toNat_umod, toNat_windowVa hn,
    BitVec.toNat_ofNat, Nat.shiftLeft_eq, show (4096 : Ptr).toNat = 4096 by decide,
    show ioBaseVa.toNat = 0xffffffe000000000 by decide]
  omega

theorem FitsWindow.returned_add (h : FitsWindow calls) (i : Nat) (call : Ptr × Ptr) (k : Nat) :
    returned calls i call + BitVec.ofNat 64 k =
      windowVa (pagesOf (calls.take i) * 2 ^ 21 + (call.1.toNat % 2 ^ 21 + k)) := by
  have hrest : call.1 % 0x200000 = BitVec.ofNat 64 (call.1.toNat % 2 ^ 21) := by
    apply BitVec.eq_of_toNat_eq
    rw [toNat_mod_page, BitVec.toNat_ofNat]
    omega
  rw [returned, ioremapVa, (h.take i).window.base, hrest]
  unfold windowVa
  rw [BitVec.ofNat_add, BitVec.ofNat_add, BitVec.add_assoc, BitVec.add_assoc]

theorem remapped_after (calls : List (Ptr × Ptr)) : Remapped (after calls).1 :=
  remapped_bootMemory calls

theorem lt_pages (hk : k < call.2.toNat) : (call.1.toNat % 2 ^ 21 + k) / 2 ^ 21 < pages call := by
  unfold pages
  omega

/-- After every sequence of calls whose pages fit into the window, each
returned range is translated to its physical range, and the ranges are
disjoint. -/
theorem translated_of_fits (h : FitsWindow calls) : Translated calls (2 ^ 56) := by
  constructor
  · intro i call hi k hk
    have hrange := h.range_le hi
    have hpages := lt_pages hk
    have hdiv : (pagesOf (calls.take i) * 2 ^ 21 + (call.1.toNat % 2 ^ 21 + k)) / 2 ^ 21 =
        pagesOf (calls.take i) + (call.1.toNat % 2 ^ 21 + k) / 2 ^ 21 := by omega
    have hlt : (pagesOf (calls.take i) * 2 ^ 21 + (call.1.toNat % 2 ^ 21 + k)) / 2 ^ 21 < 512 := by
      omega
    have hleaf := h.window.mapped i call hi _ hpages (hdiv ▸ hlt)
    have hentry : (after calls).1 ioPage ⟨_, hlt⟩ = _ :=
      (congrArg ((after calls).1 ioPage) (Fin.ext hdiv)).trans hleaf
    rw [h.returned_add, walk_windowVa call.1 _ (remapped_after calls).root (by omega) hlt
      hentry]
    exact congrArg (fun n => some (BitVec.ofNat 64 (n % 2 ^ 56))) (by omega)
  · intro i j call call' hi hj hij k hk k' hk' heq
    rw [h.returned_add, h.returned_add] at heq
    have hpages := lt_pages hk
    have hpages' := lt_pages hk'
    have hrange := h.range_le hi
    have hrange' := h.range_le hj
    have heq := congrArg BitVec.toNat heq
    rw [toNat_windowVa (by omega), toNat_windowVa (by omega)] at heq
    rcases Nat.lt_or_gt_of_ne hij with hlt | hlt
    · have hle := pagesOf_take_add hi hlt
      omega
    · have hle := pagesOf_take_add hj hlt
      omega

/-- Two unaligned ranges. -/
def twoRanges : List (Ptr × Ptr) := [(0x10000fff, 0x200000), (0x38000010, 1)]

theorem twoRanges_translated : FitsWindow twoRanges ∧ Translated twoRanges (2 ^ 56) := by
  have hsize : ∀ call ∈ twoRanges, 0 < call.2.toNat := by
    intro call hcall
    rcases List.mem_pair.mp hcall with rfl | rfl
    · decide
    · decide
  have hfits : FitsWindow twoRanges := ⟨hsize, by decide +kernel⟩
  exact ⟨hfits, translated_of_fits hfits⟩

/-- The second byte of this range lies behind the physical addresses, and its
address is translated to 0. -/
theorem wrappedRange_not_translated : (2 ^ 56 - 1 : Ptr).toNat < 2 ^ 56 ∧
    FitsWindow [(2 ^ 56 - 1, 2)] ∧ ¬Translated [(2 ^ 56 - 1, 2)] (2 ^ 64) := by
  have hsize : ∀ call ∈ [((2 ^ 56 - 1 : Ptr), (2 : Ptr))], 0 < call.2.toNat := by
    intro call hcall
    obtain rfl := List.mem_singleton.mp hcall
    decide
  refine ⟨by decide, ⟨hsize, by decide +kernel⟩, fun h => ?_⟩
  have hwalk := h.walk 0 (2 ^ 56 - 1, 2) rfl 1 (by decide)
  have hzero : walk (after [(2 ^ 56 - 1, 2)]).1 pgdirPage
      (returned [(2 ^ 56 - 1, 2)] 0 (2 ^ 56 - 1, 2) + BitVec.ofNat 64 1) = some 0 := by
    decide +kernel
  rw [hzero] at hwalk
  exact absurd hwalk (by decide)

end LabKernel.IoMappings
