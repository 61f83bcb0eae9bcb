import LabKernel.PageRuns

/-!
The kernel half of the address spaces: the direct mapping and the `ioremap`
window, at the root indices from 256 on.

Nothing keeps a user from asking for pages there.  `sys_brk` takes any bound,
so that a page fault at a kernel address is served like any other, and
`sys_shmpagedt` removes any mapping.
-/

namespace LabKernel.KernelHalf

open LabKernel.AddressSpace
open LabKernel.PageCalls
open LabKernel.PageRuns
open LabKernel.PageTable
open LabKernel.TransitionSystem

variable {Process : Type} {ioremaps : List (Ptr × Ptr)} {s : State Process} {a : VirtualPage}

/-- Every process translates the pages of the kernel half as the tables made
at boot do, and none of them is open to the user. -/
def KernelHalfIntact (ioremaps : List (Ptr × Ptr)) (s : State Process) : Prop :=
  ∀ p, ∀ d ∈ s.pagedir p, ∀ a : VirtualPage, 256 ≤ a.vpn2.val →
    translation s.memory d.root a = translation (bootMemory ioremaps) pgdirPage a ∧
      ∀ e x, translation s.memory d.root a = some (e, x) → e.U = false

/-- Page faults that are served, and the calls for shared pages, are about
addresses of the user half.  A page fault may also be about a page that is
mapped. -/
def UserHalf (s : State Process) (a : Action Process) : Prop :=
  match a.call with
  | .pageFault p stval => ∀ d ∈ s.pagedir p, stval < d.userMemBound →
      (getVpn stval 2).val < 256 ∨ (translation s.memory d.root (pageOf stval)).isSome
  | .shmpageget p _ => ∀ d ∈ s.pagedir p, (getVpn d.sharedPageStart 2).val < 256
  | .shmpagedt _ va => (getVpn va 2).val < 256
  | _ => True

theorem KernelTables.translate_not_user {boot : Memory} (hboot : KernelTables boot)
    (ha : 256 ≤ a.vpn2.val) {e : PageEntry} {x : Ppn}
    (htranslate : translation boot pgdirPage a = some (e, x)) : e.U = false := by
  unfold translation at htranslate
  dsimp only at htranslate
  obtain ⟨hv, htranslate⟩ := Option.ite_none_left_eq_some.mp htranslate
  have hv := Bool.eq_true_of_not_eq_false hv
  obtain ⟨hu, hio⟩ := hboot.high _ ha
  split at htranslate
  · cases htranslate
    exact hu
  · next hdir =>
      rw [hio hv (not_not.mp hdir)] at htranslate
      obtain ⟨hv', htranslate⟩ := Option.ite_none_left_eq_some.mp htranslate
      obtain ⟨hu', hleaf⟩ := hboot.window a.vpn1
      rw [if_pos (hleaf (Bool.eq_true_of_not_eq_false hv'))] at htranslate
      cases htranslate
      exact hu'

theorem Laidout.intact (hs : Laidout (bootMemory ioremaps) 256 s) :
    KernelHalfIntact ioremaps s := by
  obtain ⟨role, hs⟩ := hs
  intro p d hd a ha
  have htop := hs.laid.kernelHalf p d hd a.vpn2 ha
  have hsame : translation s.memory d.root a = translation (bootMemory ioremaps) pgdirPage a := by
    unfold translation
    dsimp only
    rw [htop]
    cases hv : (bootMemory ioremaps pgdirPage a.vpn2).V with
    | false => rfl
    | true =>
        rcases ne_or_eq (bootMemory ioremaps pgdirPage a.vpn2).XWR .noleaf with hleaf | hdir
        · simp only [if_pos hleaf]
        · rw [(hs.laid.kernel.high _ ha).2 hv hdir, (hs.laid.bootTables _).2]
          cases hv' : (bootMemory ioremaps ioPage a.vpn1).V with
          | false => rfl
          | true => simp only [if_pos ((hs.laid.kernel.window a.vpn1).2 hv')]
  refine ⟨hsame, fun e x htranslate => ?_⟩
  rw [hsame] at htranslate
  exact KernelTables.translate_not_user hs.laid.kernel ha htranslate

theorem below_of_userHalf {a : Action Process} (h : UserHalf s a) : Below 256 s a.call := by
  unfold UserHalf at h
  cases hcall : a.call with
  | pageFault p stval =>
      rw [hcall] at h
      exact h
  | shmpageget p key =>
      rw [hcall] at h
      exact fun d hd => Or.inl (h d hd)
  | shmpagedt p va =>
      rw [hcall] at h
      exact h
  | createProcess p => trivial
  | exec p pages => trivial
  | deleteProcess p => trivial
  | brk p addr => trivial
  | sbrk p increment => trivial
  | allocOther => trivial
  | freeOther page => trivial

variable [DecidableEq Process]

/-- As long as the calls keep to the user half, so do their effects. -/
theorem kernelHalfIntact_of_userHalf (hs : ReachableUnder (system ioremaps) UserHalf s) :
    KernelHalfIntact ioremaps s := by
  apply Laidout.intact
  apply hs.invariant (P := Laidout (bootMemory ioremaps) 256)
  · rintro s rfl
    exact ⟨_, sound_initial ioremaps (by decide)⟩
  · exact fun s a s' hs hallowed hstep => laidout_next hs (below_of_userHalf hallowed) hstep

instance : ∀ (s : State Process) (a : Action Process), Decidable (UserHalf s a)
  | s, ⟨.pageFault p stval, _⟩ => inferInstanceAs (Decidable (∀ d ∈ s.pagedir p,
      stval < d.userMemBound →
        (getVpn stval 2).val < 256 ∨ (translation s.memory d.root (pageOf stval)).isSome))
  | s, ⟨.shmpageget p _, _⟩ => inferInstanceAs (Decidable (∀ d ∈ s.pagedir p,
      (getVpn d.sharedPageStart 2).val < 256))
  | _, ⟨.shmpagedt _ va, _⟩ => inferInstanceAs (Decidable ((getVpn va 2).val < 256))
  | _, ⟨.createProcess _, _⟩ => isTrue trivial
  | _, ⟨.exec _ _, _⟩ => isTrue trivial
  | _, ⟨.deleteProcess _, _⟩ => isTrue trivial
  | _, ⟨.brk _ _, _⟩ => isTrue trivial
  | _, ⟨.sbrk _ _, _⟩ => isTrue trivial
  | _, ⟨.allocOther, _⟩ => isTrue trivial
  | _, ⟨.freeOther _, _⟩ => isTrue trivial

/-- The calls of `ioremap` for the interrupt controller and the network card. -/
def devices : List (Ptr × Ptr) := [(0x0c000000, 0x4000000), (0x40000000, 0x8000)]

/-- Process 1 moves its bound to the end of the address space. -/
def unbounded : List (Action Nat) :=
  [⟨.createProcess 1, [0x60000]⟩, ⟨.brk 1 0xffffffffffffffff, []⟩]

/-- It then uses its heap, shares a page, and touches the kernel's memory. -/
theorem userHalf_calls_intact :
    let s := permittedState UserHalf next (initial devices) (unbounded ++
      [⟨.pageFault 1 0x200000, [0x60001, 0x60002, 0x60003]⟩,
        ⟨.shmpageget 1 5, [0x60004, 0x60005, 0x60006]⟩,
        ⟨.pageFault 1 0xffffffc050200000, []⟩,
        ⟨.shmpagedt 1 0x2000000000, []⟩])
    (translation s.memory 0x60000 (pageOf 0x200000)).isSome ∧ KernelHalfIntact devices s :=
  ⟨by decide +kernel,
    kernelHalfIntact_of_userHalf (permittedState_reachableUnder (start_initial _) _)⟩

/-- It then faults at a kernel address without a mapping. -/
theorem kernel_fault_not_intact :
    ¬ ∀ s : State Nat, Reachable (system devices) s → KernelHalfIntact devices s := by
  intro hall
  let actions : List (Action Nat) :=
    unbounded ++ [⟨.pageFault 1 0xffffffd000000000, [0x60001, 0x60002, 0x60003]⟩]
  let s := permittedState (fun _ _ => True) next (initial devices) actions
  have hintact := hall s (permittedState_reachableUnder (start_initial _) actions) 1
    ⟨0x60000, 0x2000000000, 0xffffffffffffffff⟩ (by decide +kernel)
    (pageOf 0xffffffd000000000) (by decide +kernel)
  have hopen : translation s.memory 0x60000 (pageOf 0xffffffd000000000) =
      some (.setAsLeaf 0x60003, 0x60003) := by decide +kernel
  cases hintact.2 _ _ hopen

end LabKernel.KernelHalf
