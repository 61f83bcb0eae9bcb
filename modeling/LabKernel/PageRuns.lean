import LabKernel.PageCalls

/-!
The layout of the address spaces in whole runs, from the tables made at boot.
-/

namespace LabKernel.PageRuns

open LabKernel.AddressSpace
open LabKernel.PageCalls
open LabKernel.PageTable
open LabKernel.ProgramLogic
open LabKernel.TransitionSystem

theorem ioEntry_ne_pgdirPage {n : Nat} (hn : n < 2 ^ 44) : (ioEntry n).1 ≠ pgdirPage := by
  intro heq
  have heq : (ioPage + BitVec.ofNat 44 (n / 512)).toNat = pgdirPage.toNat :=
    congrArg BitVec.toNat heq
  have hio : ioPage.toNat = 0x50511 := rfl
  have hpgdir : pgdirPage.toNat = 0x50510 := rfl
  rw [BitVec.toNat_add, BitVec.toNat_ofNat, hio, hpgdir] at heq
  omega

/-- What `ioremap` keeps: the root table, and that the window has only entries
for the kernel. -/
structure Remapped (m : Memory) : Prop where
  root : ∀ i, m pgdirPage i = setupVm pgdirPage i
  window : ∀ j, (m ioPage j).U = false ∧ ((m ioPage j).V = true → (m ioPage j).XWR ≠ .noleaf)

theorem Remapped.write {m : Memory} (hm : Remapped m) {n : Nat} (hn : n < 2 ^ 44) (pa : Ppn) :
    Remapped (writeEntry m (ioEntry n) (.kernelLeaf pa)) := by
  constructor
  · intro i
    rw [writeEntry, if_neg]
    · exact hm.root i
    · intro heq
      exact ioEntry_ne_pgdirPage hn (congrArg Prod.fst heq).symm
  · intro j
    unfold writeEntry
    split
    · exact ⟨rfl, nofun⟩
    · exact hm.window j

theorem Remapped.loop {m : Memory} (hm : Remapped m) {first count : Nat}
    (hbound : first + count ≤ 2 ^ 44) (phys : Ptr) : Remapped (ioremapLoop first phys count m) := by
  induction count with
  | zero => exact hm
  | succ count ih =>
      unfold ioremapLoop
      exact (ih (by omega)).write (by omega) _

theorem remapped_setupVm : Remapped setupVm := ⟨fun _ => rfl, by decide +kernel⟩

theorem Remapped.ioremap {m : Memory × Ptr} (hm : Remapped m.1) (call : Ptr × Ptr) :
    Remapped (ioremap m call).1 := by
  apply hm.loop
  have hfirst := (getVpn m.2 1).isLt
  generalize call.2 + call.1 % 0x200000 = size
  have hdiv : (size / 0x200000).toNat ≤ 2 ^ 43 - 1 := by
    rw [BitVec.toNat_udiv]
    have := size.isLt
    have hpage : (0x200000 : Ptr).toNat = 2 ^ 21 := rfl
    rw [hpage]
    omega
  have hcount : (size / 0x200000 + if size % 0x200000 ≠ 0 then 1 else 0).toNat ≤ 2 ^ 43 := by
    split
    · rw [BitVec.toNat_add]
      have hone : (1 : Ptr).toNat = 1 := rfl
      rw [hone]
      omega
    · rw [BitVec.toNat_add]
      have hzero : (0 : Ptr).toNat = 0 := rfl
      rw [hzero]
      omega
  omega

theorem remapped_bootMemory (ioremaps : List (Ptr × Ptr)) : Remapped (bootMemory ioremaps) := by
  have hfold : ∀ (calls : List (Ptr × Ptr)) (m : Memory × Ptr), Remapped m.1 →
      Remapped (calls.foldl ioremap m).1 := by
    intro calls
    induction calls with
    | nil => exact fun m hm => hm
    | cons call rest ih => exact fun m hm => ih _ (hm.ioremap call)
  exact hfold ioremaps _ remapped_setupVm

theorem kernelTables_bootMemory (ioremaps : List (Ptr × Ptr)) :
    KernelTables (bootMemory ioremaps) := by
  have hm := remapped_bootMemory ioremaps
  refine ⟨?_, ?_, hm.window, ?_⟩
  · intro i hi
    have hsetup : ∀ i : Fin 512, i.val < 257 → kernelVm setupVm i = .cleared := by decide +kernel
    unfold kernelVm at hsetup ⊢
    rw [hm.root]
    exact hsetup i hi
  · intro i hi
    rw [hm.root]
    revert i
    decide +kernel
  · intro i hi
    rw [hm.root]
    revert i
    decide +kernel

variable {Process : Type} {boot : Memory} {bound : Nat} {s s' : State Process} {p : Process}
  {d : PageDir} {va : Ptr} {e : PageEntry} {x : Ppn}

theorem sound_initial (ioremaps : List (Ptr × Ptr)) (hbound : 256 ≤ bound ∧ bound ≤ 257) :
    Sound (bootMemory ioremaps) bound (fun _ => .unused) none
      (initial ioremaps : State Process) := by
  refine ⟨⟨kernelTables_bootMemory ioremaps, hbound, ?_, ⟨rfl, rfl⟩, fun _ => ⟨rfl, rfl⟩, nofun,
    nofun, nofun, nofun, nofun, List.nodup_nil, ?_, nofun⟩, nofun, nofun⟩
  · exact fun x hx => absurd rfl hx
  · intro x key
    simp [initial]

theorem runs_lookup_mapped {E : Stop → State Process → Prop}
    (h : translation s.memory d.root (pageOf va) = some (e, x)) :
    Runs (lookup d va) s E fun pte s' =>
      s' = s ∧ s.memory pte.1 pte.2 = e ∧ e.V = true := by
  unfold translation at h
  dsimp only [pageOf] at h
  obtain ⟨hv, h⟩ := Option.ite_none_left_eq_some.mp h
  have hvalid := Bool.eq_true_of_not_eq_false hv
  unfold lookup
  apply runs_bind
  apply runs_load
  split at h
  · next hleaf =>
      cases h
      rw [if_pos hleaf]
      exact ⟨rfl, rfl, hvalid⟩
  · next hdir =>
      rw [if_neg hdir]
      obtain ⟨hv', h⟩ := Option.ite_none_left_eq_some.mp h
      have hvalid' := Bool.eq_true_of_not_eq_false hv'
      apply runs_bind
      unfold nextTable
      apply runs_bind
      apply runs_load
      rw [if_neg hv]
      apply runs_pure
      apply runs_bind
      apply runs_load
      split at h
      · next hleaf =>
          cases h
          rw [if_pos hleaf]
          exact ⟨rfl, rfl, hvalid'⟩
      · next hdir' =>
          rw [if_neg hdir']
          obtain ⟨hv'', h⟩ := Option.ite_none_left_eq_some.mp h
          cases h
          apply runs_bind
          apply runs_bind
          apply runs_load
          rw [if_neg hv']
          apply runs_pure
          exact ⟨rfl, rfl, Bool.eq_true_of_not_eq_false fun hfalse => hv'' (Or.inl hfalse)⟩

theorem runs_pageFault_mapped
    (h : ∀ d, s.pagedir p = some d → (translation s.memory d.root (pageOf va)).isSome) :
    Runs (pageFault p va) s Any fun _ s' => s' = s := by
  unfold pageFault
  apply runs_bind
  apply runs_pagedirOf
  intro d hd
  obtain ⟨⟨e, x⟩, htranslate⟩ := Option.isSome_iff_exists.mp (h d hd)
  unfold allocPageForVa
  apply runs_bind
  split
  · exact runs_fail trivial
  · apply (runs_lookup_mapped htranslate).bind
    rintro pte s₁ ⟨rfl, he, hv⟩
    apply runs_bind
    apply runs_load
    rw [he, if_pos hv]
    exact runs_pure rfl

/-- The call acts below the root entries with an index less than `bound`, or
changes nothing. -/
def Below (bound : Nat) (s : State Process) : Call Process → Prop
  | .pageFault p stval => ∀ d, s.pagedir p = some d → stval < d.userMemBound →
      (getVpn stval 2).val < bound ∨ (translation s.memory d.root (pageOf stval)).isSome
  | .shmpageget p _ => ∀ d, s.pagedir p = some d →
      (getVpn d.sharedPageStart 2).val < bound ∨ (getVpn d.sharedPageStart 2).val = 257
  | .shmpagedt _ va => (getVpn va 2).val < bound
  | _ => True

def Laidout (boot : Memory) (bound : Nat) (s : State Process) : Prop :=
  ∃ role, Sound boot bound role none s

variable [DecidableEq Process]

theorem runs_perform {call : Call Process} (hs : Laidout boot bound s)
    (hbelow : Below bound s call) :
    Runs (perform call) s Any fun _ s' => Laidout boot bound s' := by
  obtain ⟨role, hs⟩ := hs
  cases call with
  | createProcess p =>
      apply (runs_createProcess hs).mono (fun _ _ h => h)
      rintro - s' ⟨role', hs', -⟩
      exact ⟨role', hs'⟩
  | exec p pages => exact runs_sysExec hs
  | deleteProcess p => exact runs_deleteProcess hs
  | pageFault p stval =>
      rcases Classical.em (∃ d, s.pagedir p = some d ∧ stval < d.userMemBound ∧
          (translation s.memory d.root (pageOf stval)).isSome) with hmapped | hnot
      · obtain ⟨d, hd, -, hsome⟩ := hmapped
        have hall : ∀ d', s.pagedir p = some d' →
            (translation s.memory d'.root (pageOf stval)).isSome := by
          intro d' hd'
          rw [hd] at hd'
          cases hd'
          exact hsome
        apply (runs_pageFault_mapped hall).mono (fun _ _ h => h)
        rintro - s' rfl
        exact ⟨role, hs⟩
      · apply runs_pageFault hs
        intro d hd hlt
        rcases hbelow d hd hlt with hlow | hsome
        · exact hlow
        · exact absurd ⟨d, hd, hlt, hsome⟩ hnot
  | brk p addr => exact (runs_sysBrk hs).mono (fun _ _ h => h) fun _ _ h => ⟨role, h⟩
  | sbrk p increment => exact (runs_sysSbrk hs).mono (fun _ _ h => h) fun _ _ h => ⟨role, h⟩
  | shmpageget p key =>
      apply runs_bind
      exact runs_sysShmpageget hs hbelow
  | shmpagedt p va =>
      apply runs_bind
      exact runs_sysShmpagedt hs hbelow
  | allocOther => exact (runs_allocOther hs).mono (fun _ _ h => h) fun _ _ h => ⟨role, h⟩
  | freeOther page => exact (runs_freeOther hs).mono (fun _ _ h => h) fun _ _ h => ⟨role, h⟩

theorem laidout_next {a : Action Process} (hs : Laidout boot bound s)
    (hbelow : Below bound s a.call) (hstep : next s a = some s') : Laidout boot bound s' := by
  obtain ⟨role, hs⟩ := hs
  have hsupplied : Laidout boot bound { s with supply := a.supply } :=
    ⟨role, hs.setBlock fun _ _ => rfl⟩
  have hbelow : Below bound { s with supply := a.supply } a.call := by
    cases h : a.call <;> rw [h] at hbelow <;> exact hbelow
  have hruns := runs_perform hsupplied hbelow
  unfold next at hstep
  split at hstep
  · next hrun =>
      cases hstep
      exact hruns.ok hrun
  · cases hstep

end LabKernel.PageRuns
