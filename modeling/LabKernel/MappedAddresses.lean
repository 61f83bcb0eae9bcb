import LabKernel.SharedPages

/-!
`map_va_kva` requires that its address is not mapped (`page.hpp`).  The page
faults of a process and its shared pages get their addresses independently:
the first where the process asks for memory below its bound, which `sys_brk`
sets to any value, the second one after another from 128 GiB on.

The pages for which a process has had page faults are kept beside the state of
the kernel.
-/

namespace LabKernel.MappedAddresses

open LabKernel.AddressSpace
open LabKernel.PageCalls
open LabKernel.PageRuns
open LabKernel.PageTable
open LabKernel.ProgramLogic
open LabKernel.SharedPages
open LabKernel.TransitionSystem
open LabKernel.UserIsolation

variable {Process : Type}

structure History (Process : Type) where
  kernel : State Process
  /-- The pages of the page faults so far. -/
  faults : List (Process × VirtualPage)

/-- The pages of the page faults after a call. -/
def faultsAfter (faults : List (Process × VirtualPage)) :
    Call Process → List (Process × VirtualPage)
  | .pageFault p stval => (p, pageOf stval) :: faults
  | _ => faults

def next [DecidableEq Process] (h : History Process) (a : Action Process) :
    Option (History Process) :=
  (PageTable.next h.kernel a).map fun s => ⟨s, faultsAfter h.faults a.call⟩

def system [DecidableEq Process] (ioremaps : List (Ptr × Ptr)) :
    System (History Process) (Action Process) :=
  ofFunction (fun h => h = ⟨initial ioremaps, []⟩) next

/-- Page faults are below the end of the user half and below the bound, and
`sys_shmpagedt` is called for attached pages. -/
def Allowed (h : History Process) (a : Action Process) : Prop :=
  match a.call with
  | .pageFault p stval => stval.toNat < 2 ^ 38 ∧
      ∀ d ∈ h.kernel.pagedir p, stval < d.userMemBound
  | .shmpagedt p va => MapsShared h.kernel p (pageOf va)
  | _ => True

/-- The calls of a process that change its address space. -/
def OfProcess : Call Process → Prop
  | .brk _ _ | .sbrk _ _ | .pageFault _ _ | .shmpageget _ _ | .shmpagedt _ _ => True
  | _ => False

/-- No assertion fails, whatever pages `kalloc` returns. -/
def MapsUnmapped [DecidableEq Process] (s : State Process) (call : Call Process) : Prop :=
  ∀ supply s', (perform call).run { s with supply := supply } ≠ (.error .assertion, s')

/-- There is a shared page for the key, or a page to make one of. -/
def Obtainable (s : State Process) (key : BitVec 32) : Prop :=
  (∃ page ∈ s.sharedPages, page.key = key.signExtend 64) ∨ ∃ x, s.block x = .free

/-- The next address for a shared page is not in the direct mapping of the
kernel, and there has been no page fault for it. -/
def StartUnused (h : History Process) (p : Process) (d : PageDir) : Prop :=
  d.sharedPageStart.toNat < 2 ^ 38 + 2 ^ 30 ∧ (p, pageOf d.sharedPageStart) ∉ h.faults

def Clear (h : History Process) : Call Process → Prop
  | .shmpageget p key => Obtainable h.kernel key →
      ∀ d, h.kernel.pagedir p = some d → StartUnused h p d
  | _ => True

/-- The number of a page. -/
def number (a : VirtualPage) : Nat := (a.vpn2 * 512 + a.vpn1) * 512 + a.vpn0

/-- The number of the first page that has not been used for a shared page. -/
def startNumber (d : PageDir) : Nat := d.sharedPageStart.toNat / 4096

theorem number_pageOf (va : Ptr) : number (pageOf va) = va.toNat / 4096 % 2 ^ 27 := by
  unfold number pageOf
  rw [getVpn_val, getVpn_val, getVpn_val]
  omega

/-- What is known of the mappings of the processes. -/
structure Tracked (faults : List (Process × VirtualPage)) (s : State Process) : Prop where
  created : ∀ p, s.created p = false → s.pagedir p = none ∧ ∀ a, (p, a) ∉ faults
  start : ∀ p d, s.pagedir p = some d → 2 ^ 25 ≤ startNumber d
  mapped : ∀ p d, s.pagedir p = some d → ∀ a e x, UserMaps s p a e x →
    (number a < startNumber d ∨ (p, a) ∈ faults) ∧
      (e.OSflag = .shared → number a < startNumber d)
  faulted : ∀ p d, s.pagedir p = some d → ∀ a, (p, a) ∈ faults →
    startNumber d ≤ number a → ∃ e x, UserMaps s p a e x

/-- Between `s` and `s'` the process has got the page `a`, unless it had it. -/
structure Allocated (p : Process) (a : VirtualPage) (s s' : State Process) : Prop where
  pagedir : s'.pagedir = s.pagedir
  created : s'.created = s.created
  others : ∀ q a' e x, ¬(q = p ∧ a' = a) → (UserMaps s' q a' e x ↔ UserMaps s q a' e x)
  here : ∃ e x, UserMaps s' p a e x ∧
    ∀ e' x', UserMaps s' p a e' x' → e'.OSflag = .normal ∨ UserMaps s p a e' x'

variable {boot : Memory} {bound : Nat} {role role₁ : Ppn → Role Process}
  {faults faults' : List (Process × VirtualPage)} {s s₁ s' : State Process} {p : Process}
  {d : PageDir} {a : VirtualPage} {va : Ptr} {x y : Ppn} {e : PageEntry}

theorem Tracked.allocated (h : Tracked faults s) (ha : Allocated p a s s')
    (hd : s.pagedir p = some d) (hold : ∀ pa ∈ faults, pa ∈ faults')
    (hnew : ∀ pa ∈ faults', pa ∈ faults ∨ pa = (p, a))
    (hwhere : number a < startNumber d ∨ (p, a) ∈ faults') : Tracked faults' s' := by
  obtain ⟨hpagedir, hcreated, hothers, e, x, hmaps, hhere⟩ := ha
  refine ⟨?_, ?_, ?_, ?_⟩
  · intro q hq
    rw [hcreated] at hq
    obtain ⟨hnone, hfaults⟩ := h.created q hq
    refine ⟨hpagedir ▸ hnone, fun a' ha' => ?_⟩
    rcases hnew _ ha' with hmem | heq
    · exact hfaults a' hmem
    · obtain ⟨rfl, -⟩ := Prod.mk.inj heq
      rw [hd] at hnone
      cases hnone
  · intro q c hc
    exact h.start q c (hpagedir ▸ hc)
  · intro q c hc a' e' x' hmaps'
    rw [hpagedir] at hc
    rcases Classical.em (q = p ∧ a' = a) with ⟨rfl, rfl⟩ | hne
    · obtain rfl := Option.some.inj (hd.symm.trans hc)
      refine ⟨hwhere, fun hshared => ?_⟩
      rcases hhere e' x' hmaps' with hnormal | hbefore
      · rw [hshared] at hnormal
        cases hnormal
      · exact (h.mapped q d hd a' e' x' hbefore).2 hshared
    · obtain ⟨hplace, hshared⟩ := h.mapped q c hc a' e' x' ((hothers q a' e' x' hne).mp hmaps')
      exact ⟨hplace.imp_right (hold _), hshared⟩
  · intro q c hc a' ha' hstart
    rw [hpagedir] at hc
    rcases Classical.em (q = p ∧ a' = a) with ⟨rfl, rfl⟩ | hne
    · exact ⟨e, x, hmaps⟩
    · rcases hnew _ ha' with hmem | heq
      · obtain ⟨e', x', hbefore⟩ := h.faulted q c hc a' hmem hstart
        exact ⟨e', x', (hothers q a' e' x' hne).mpr hbefore⟩
      · exact absurd (Prod.mk.inj heq) hne

variable {q : Process} {a' : VirtualPage} {e' : PageEntry} {x' : Ppn}

theorem userMaps_congr (hpagedir : s'.pagedir = s.pagedir) (hmemory : s'.memory = s.memory) :
    UserMaps s' q a e x ↔ UserMaps s q a e x := by
  unfold UserMaps
  rw [hpagedir, hmemory]

theorem userMaps_other (hs : Laid boot bound role s) (hy : role y = .leaves p a.vpn2 a.vpn1)
    (hne : ¬(q = p ∧ a' = a)) :
    UserMaps { s with memory := writeEntry s.memory (y, a.vpn0) e } q a' e' x' ↔
      UserMaps s q a' e' x' := by
  have hsame : ∀ c, s.pagedir q = some c →
      translation (writeEntry s.memory (y, a.vpn0) e) c.root a' = translation s.memory c.root a' :=
    fun c hc => hs.translate_writeEntry hy hc hne
  constructor
  · rintro ⟨c, hc, htranslate, hu⟩
    exact ⟨c, hc, (hsame c hc).symm.trans htranslate, hu⟩
  · rintro ⟨c, hc, htranslate, hu⟩
    exact ⟨c, hc, (hsame c hc).trans htranslate, hu⟩

theorem userMaps_self (hs : Laid boot bound role s) (hd : s.pagedir p = some d)
    (hy : role y = .leaves p a.vpn2 a.vpn1) (hreach : Reaches s.memory d.root a y) :
    UserMaps { s with memory := writeEntry s.memory (y, a.vpn0) e } p a e' x' ↔
      e.V = true ∧ e.XWR ≠ .noleaf ∧ e.U = true ∧ e' = e ∧ x' = e.ppn := by
  have hself : writeEntry s.memory (y, a.vpn0) e y a.vpn0 = e := if_pos rfl
  have htranslation : translation (writeEntry s.memory (y, a.vpn0) e) d.root a =
      if e.V = false ∨ e.XWR = .noleaf then none else some (e, e.ppn) := by
    rw [(hs.reaches_writeEntry hd hy hreach _).translate, hself]
  constructor
  · rintro ⟨c, hc, htranslate, hu⟩
    obtain rfl := Option.some.inj (hd.symm.trans hc)
    have htranslate := htranslation.symm.trans htranslate
    obtain ⟨hleaf, htranslate⟩ := Option.ite_none_left_eq_some.mp htranslate
    obtain ⟨hv, hxwr⟩ := not_or.mp hleaf
    obtain ⟨rfl, rfl⟩ := Prod.mk.inj (Option.some.inj htranslate)
    exact ⟨Bool.eq_true_of_not_eq_false hv, hxwr, hu, rfl, rfl⟩
  · rintro ⟨hv, hxwr, hu, rfl, rfl⟩
    refine ⟨d, hd, htranslation.trans (if_neg ?_), hu⟩
    rintro (hfalse | hdir)
    · exact absurd (hv.symm.trans hfalse) nofun
    · exact hxwr hdir

theorem userMaps_of_valid (hs : Laid boot bound role s) (hd : s.pagedir p = some d)
    (hy : role y = .leaves p a.vpn2 a.vpn1) (hreach : Reaches s.memory d.root a y)
    (hv : (s.memory y a.vpn0).V = true) :
    UserMaps s p a (s.memory y a.vpn0) (s.memory y a.vpn0).ppn := by
  obtain ⟨hxwr, hu, -⟩ := hs.leaves y p _ _ hy _ hv
  refine ⟨d, hd, hreach.translate.trans (if_neg ?_), hu⟩
  rintro (hfalse | hdir)
  · exact absurd (hv.symm.trans hfalse) nofun
  · exact hxwr hdir

theorem runs_allocPageForVa_allocated (hs : Sound boot bound role none s)
    (hd : s.pagedir p = some d) (hva : va < d.userMemBound → (getVpn va 2).val < bound) :
    Runs (allocPageForVa d va) s Any fun _ s' =>
      (∃ role', Sound boot bound role' none s') ∧ Allocated p (pageOf va) s s' := by
  unfold allocPageForVa
  split
  · exact runs_fail trivial
  next hbelow =>
    have hva := hva (BitVec.not_le.mp hbelow)
    apply (runs_and (runs_lookup hs.laid hd hva) (lookup_created d va s)).bind
    rintro ⟨y, k⟩ s₁ ⟨⟨role₁, hlaid₁, hgrown₁, hk, hy, hreach⟩, hcreated₁⟩
    obtain rfl : k = getVpn va 0 := hk
    dsimp only at hy hreach
    have hs₁ := hs.grown hlaid₁ hgrown₁
    have hd₁ : s₁.pagedir p = some d := hgrown₁.pagedir ▸ hd
    apply runs_bind
    apply runs_load
    dsimp only
    split
    next hv =>
      refine ⟨⟨role₁, hs₁⟩, hgrown₁.pagedir, hcreated₁, ?_, ?_⟩
      · exact fun q a' e x _ => userMaps_grown hgrown₁ a' e x
      · refine ⟨_, _, userMaps_of_valid hlaid₁ hd₁ (a := pageOf va) hy hreach hv, ?_⟩
        exact fun e' x' hmaps => Or.inr ((userMaps_grown hgrown₁ _ _ _).mp hmaps)
    next =>
      apply runs_bind
      apply runs_kalloc
      intro x rest hx
      obtain ⟨hlaid₂, hgrown₂⟩ := hlaid₁.take hx (Or.inr ⟨p, pageOf va, rfl⟩) rest
      have hs₂ := hs₁.grown hlaid₂ hgrown₂
      apply (runs_and (runs_mapVaKva hlaid₂ hd₁ hva) (mapVaKva_created d va x _ _)).bind
      rintro - s' ⟨⟨role₃, s₃, y', hlaid₃, hgrown₃, hy', hreach', hinvalid, rfl⟩, hcreated₃⟩
      have hs₃ := hs₂.grown hlaid₃ hgrown₃
      have hd₃ : s₃.pagedir p = some d := hgrown₃.pagedir ▸ hd₁
      have hx₃ : role₃ x = .frame p (pageOf va) :=
        hgrown₃.role_eq hlaid₂ (Function.update_self ..) nofun
      refine ⟨⟨role₃, hs₃.writeNormal hd₃ hy' hreach' hinvalid hx₃⟩, ?_, ?_, ?_, ?_⟩
      · exact hgrown₃.pagedir.trans hgrown₁.pagedir
      · exact hcreated₃.trans hcreated₁
      · intro q a' e z hne
        refine (userMaps_other hlaid₃ hy' hne).trans ?_
        rw [userMaps_grown hgrown₃, userMaps_grown hgrown₂, userMaps_grown hgrown₁]
      · refine ⟨_, _, (userMaps_self hlaid₃ hd₃ hy' hreach').mpr ⟨rfl, nofun, rfl, rfl, rfl⟩, ?_⟩
        intro e' x' hmaps
        obtain ⟨-, -, -, rfl, -⟩ := (userMaps_self hlaid₃ hd₃ hy' hreach').mp hmaps
        exact Or.inl rfl

theorem Tracked.allocate (h : Tracked faults s) (hs : Sound boot 257 role none s)
    (hd : s.pagedir p = some d) (hbound : d.userMemBound = 0x300000) :
    Runs (allocPageForVa d va) s Any fun _ s' => Tracked faults s' ∧
      (∃ role', Sound boot 257 role' none s') ∧ s'.pagedir = s.pagedir := by
  rcases Classical.em (d.userMemBound ≤ va) with hbeyond | hbelow
  · unfold allocPageForVa
    rw [if_pos hbeyond]
    exact runs_fail trivial
  · rw [hbound] at hbelow
    have hlow : va.toNat < 0x300000 := BitVec.lt_def.mp (BitVec.not_le.mp hbelow)
    have hva : (getVpn va 2).val < 257 := by
      rw [getVpn_val]
      omega
    have hstart := h.start p d hd
    have hnumber : number (pageOf va) < startNumber d := by
      rw [number_pageOf]
      omega
    apply (runs_allocPageForVa_allocated hs hd fun _ => hva).mono (fun _ _ he => he)
    rintro x s' ⟨hs', hallocated⟩
    refine ⟨?_, hs', hallocated.pagedir⟩
    exact h.allocated hallocated hd (fun _ hpa => hpa) (fun _ hpa => Or.inl hpa) (Or.inl hnumber)

/-- Nothing has changed that decides what is mapped. -/
structure Same (s s' : State Process) : Prop where
  pagedir : s'.pagedir = s.pagedir
  created : s'.created = s.created
  memory : s'.memory = s.memory

theorem Tracked.same (h : Tracked faults s) (hsame : Same s s') : Tracked faults s' := by
  obtain ⟨hpagedir, hcreated, hmemory⟩ := hsame
  refine ⟨?_, ?_, ?_, ?_⟩
  · rw [hcreated, hpagedir]
    exact h.created
  · rw [hpagedir]
    exact h.start
  · intro q c hc a e x hmaps
    rw [hpagedir] at hc
    exact h.mapped q c hc a e x ((userMaps_congr hpagedir hmemory).mp hmaps)
  · intro q c hc a ha hstart
    rw [hpagedir] at hc
    obtain ⟨e, x, hmaps⟩ := h.faulted q c hc a ha hstart
    exact ⟨e, x, (userMaps_congr hpagedir hmemory).mpr hmaps⟩

theorem Tracked.grown (h : Tracked faults s) (hgrown : Grown role s role₁ s₁)
    (hcreated : s₁.created = s.created) : Tracked faults s₁ := by
  refine ⟨?_, ?_, ?_, ?_⟩
  · rw [hcreated, hgrown.pagedir]
    exact h.created
  · rw [hgrown.pagedir]
    exact h.start
  · intro q c hc a e x hmaps
    exact h.mapped q c (hgrown.pagedir ▸ hc) a e x ((userMaps_grown hgrown a e x).mp hmaps)
  · intro q c hc a ha hstart
    obtain ⟨e, x, hmaps⟩ := h.faulted q c (hgrown.pagedir ▸ hc) a ha hstart
    exact ⟨e, x, (userMaps_grown hgrown a e x).mpr hmaps⟩

theorem getSharedPage_same (key : Ptr) (s : State Process) :
    Runs (getSharedPage key) s Any fun _ s' => Same s s' := by
  unfold getSharedPage
  apply runs_bind
  apply runs_getState
  split
  · exact runs_pure ⟨rfl, rfl, rfl⟩
  · apply runs_bind
    exact runs_kalloc fun _ _ _ => ⟨rfl, rfl, rfl⟩

theorem dropSharedPage_same (kva : Ppn) (s : State Process) :
    Runs (dropSharedPage kva) s Any fun _ s' => Same s s' := by
  unfold dropSharedPage
  apply runs_bind
  apply runs_getState
  split
  · exact runs_pure ⟨rfl, rfl, rfl⟩
  · apply runs_bind
    apply runs_modifyState
    split
    · exact runs_modifyState ⟨rfl, rfl, rfl⟩
    · exact runs_pure ⟨rfl, rfl, rfl⟩

theorem allocOther_same (s : State Process) : Runs allocOther s Any fun _ s' => Same s s' := by
  unfold allocOther
  apply runs_bind
  exact runs_kalloc fun _ _ _ => ⟨rfl, rfl, rfl⟩

theorem freeOther_same (page : Ppn) (s : State Process) :
    Runs (freeOther page) s Any fun _ s' => Same s s' := by
  unfold freeOther
  apply runs_bind
  apply runs_getState
  split
  · exact runs_modifyState ⟨rfl, rfl, rfl⟩
  · exact runs_fail trivial

section Calls

variable [DecidableEq Process]

theorem userMaps_create (hs : Sound boot bound role none s) (hx : s.block x = .free) (p : Process)
    (supply : List Ppn) (created : Process → Bool) (q : Process) (a : VirtualPage) (e : PageEntry)
    (z : Ppn) :
    UserMaps { s with
        memory := withKernelVm s.memory x
        block := Function.update s.block x .paging
        supply := supply
        created := created
        pagedir := Function.update s.pagedir p (some ⟨x, 0x2000000000, 0x300000⟩) } q a e z ↔
      q ≠ p ∧ UserMaps s q a e z := by
  have hself := Laid.withKernelVm_self hs.laid hx
  have hsound : Sound boot bound (Function.update role x (.root p)) none { s with
      memory := withKernelVm s.memory x
      block := Function.update s.block x .paging
      supply := supply
      created := created
      pagedir := Function.update s.pagedir p (some ⟨x, 0x2000000000, 0x300000⟩) } := hs.create hx
  rcases eq_or_ne q p with rfl | hne
  · refine iff_of_false ?_ fun h => h.1 rfl
    rintro ⟨c, hc, htranslate, hu⟩
    obtain ⟨y, hlow, ⟨⟨hv, -⟩, -⟩, -⟩ := hsound.laid.userLeaf hc htranslate hu
    change Function.update s.pagedir q _ q = some c at hc
    rw [Function.update_self] at hc
    cases hc
    dsimp only at hv
    rw [hself, hs.laid.kernel.low _ (hlow.trans_le hs.laid.range.2)] at hv
    cases hv
  · have hpagedir : Function.update s.pagedir p (some ⟨x, 0x2000000000, 0x300000⟩) q =
        s.pagedir q := Function.update_of_ne hne ..
    have hsame : ∀ c, s.pagedir q = some c →
        translation (withKernelVm s.memory x) c.root a = translation s.memory c.root a :=
      fun c hc => translate_congr fun pte hvisit =>
        withKernelVm_other (hs.laid.visits_ne hx hc hvisit)
    constructor
    · rintro ⟨c, hc, htranslate, hu⟩
      have hc : s.pagedir q = some c := hpagedir.symm.trans hc
      exact ⟨hne, c, hc, (hsame c hc).symm.trans htranslate, hu⟩
    · rintro ⟨-, c, hc, htranslate, hu⟩
      exact ⟨c, hpagedir.trans hc, (hsame c hc).trans htranslate, hu⟩

theorem Tracked.createProcess (h : Tracked faults s) (hs : Sound boot bound role none s) :
    Runs (PageTable.createProcess p) s Any fun _ s' => Tracked faults s' := by
  unfold PageTable.createProcess
  apply runs_bind
  apply runs_getState
  split
  · exact runs_fail trivial
  next hnew =>
    have hfalse : s.created p = false := Bool.eq_false_of_not_eq_true hnew
    apply runs_bind
    apply runs_kalloc
    intro x rest hx
    have hmaps := userMaps_create hs hx p rest (Function.update s.created p true)
    have hpagedir : ∀ q c,
        Function.update s.pagedir p (some ⟨x, 0x2000000000, 0x300000⟩) q = some c →
          (q = p ∧ c.sharedPageStart = 0x2000000000) ∨ (q ≠ p ∧ s.pagedir q = some c) := by
      intro q c hc
      rcases eq_or_ne q p with rfl | hne
      · rw [Function.update_self] at hc
        cases hc
        exact Or.inl ⟨rfl, rfl⟩
      · rw [Function.update_of_ne hne] at hc
        exact Or.inr ⟨hne, hc⟩
    refine ⟨?_, ?_, ?_, ?_⟩
    · intro q hq
      change Function.update s.created p true q = false at hq
      have hne : q ≠ p := by
        rintro rfl
        rw [Function.update_self] at hq
        cases hq
      rw [Function.update_of_ne hne] at hq
      obtain ⟨hnone, hfaults⟩ := h.created q hq
      exact ⟨(Function.update_of_ne hne ..).trans hnone, hfaults⟩
    · intro q c hc
      rcases hpagedir q c hc with ⟨-, hstart⟩ | ⟨-, hold⟩
      · unfold startNumber
        rw [hstart]
        decide
      · exact h.start q c hold
    · intro q c hc a e z hq
      obtain ⟨hne, hbefore⟩ := (hmaps q a e z).mp hq
      rcases hpagedir q c hc with ⟨rfl, -⟩ | ⟨-, hold⟩
      · exact absurd rfl hne
      · exact h.mapped q c hold a e z hbefore
    · intro q c hc a ha hstart
      rcases hpagedir q c hc with ⟨rfl, -⟩ | ⟨hne, hold⟩
      · exact absurd ha ((h.created q hfalse).2 a)
      · obtain ⟨e, z, hbefore⟩ := h.faulted q c hold a ha hstart
        exact ⟨e, z, (hmaps q a e z).mpr ⟨hne, hbefore⟩⟩

omit [DecidableEq Process] in
theorem Tracked.loadTaskImg (h : Tracked faults s) (hs : Sound boot 257 role none s)
    (hd : s.pagedir p = some d) (hbound : d.userMemBound = 0x300000) {pages : Nat} :
    Runs (PageTable.loadTaskImg d pages va) s Any fun _ s' => Tracked faults s' ∧
      (∃ role', Sound boot 257 role' none s') ∧ s'.pagedir = s.pagedir := by
  induction pages generalizing s role va with
  | zero => exact ⟨h, ⟨role, hs⟩, rfl⟩
  | succ pages ih =>
      unfold PageTable.loadTaskImg
      apply (h.allocate hs hd hbound).bind
      rintro - s₁ ⟨h₁, ⟨role₁, hs₁⟩, hpagedir₁⟩
      apply (ih h₁ hs₁ (hpagedir₁ ▸ hd)).mono (fun _ _ he => he)
      rintro - s₂ ⟨h₂, hs₂, hpagedir₂⟩
      exact ⟨h₂, hs₂, hpagedir₂.trans hpagedir₁⟩

theorem Tracked.exec (h : Tracked faults s) (hs : Sound boot 257 role none s) {pages : Nat} :
    Runs (sysExec p pages) s Any fun _ s' => Tracked faults s' := by
  unfold sysExec
  apply (runs_and (runs_createProcess hs) (h.createProcess hs)).bind
  rintro - s₁ ⟨⟨role₁, hs₁, hbound⟩, h₁⟩
  apply runs_bind
  apply runs_pagedirOf
  intro d hd
  apply (h₁.loadTaskImg hs₁ hd (hbound d hd)).bind
  rintro - s₂ ⟨h₂, ⟨role₂, hs₂⟩, hpagedir₂⟩
  apply (h₂.allocate hs₂ (hpagedir₂ ▸ hd) (hbound d hd)).bind
  rintro - s₃ ⟨h₃, -⟩
  exact h₃

theorem Tracked.deleteProcess (h : Tracked faults s) (hs : Sound boot bound role none s) :
    Runs (PageTable.deleteProcess p) s Any fun _ s' => Tracked faults s' := by
  unfold PageTable.deleteProcess
  apply runs_bind
  apply runs_pagedirOf
  intro d hd
  apply (runs_freeUserRecur hs.laid hd (by decide)).bind
  rintro - s' rfl
  apply runs_modifyState
  have hother : ∀ q c, Function.update s.pagedir p none q = some c →
      q ≠ p ∧ s.pagedir q = some c := by
    intro q c hc
    have hne : q ≠ p := by
      rintro rfl
      rw [Function.update_self] at hc
      cases hc
    exact ⟨hne, (Function.update_of_ne hne ..).symm.trans hc⟩
  refine ⟨?_, ?_, ?_, ?_⟩
  · intro q hq
    obtain ⟨hnone, hfaults⟩ := h.created q hq
    refine ⟨?_, hfaults⟩
    by_contra hsome
    obtain ⟨c, hc⟩ := Option.ne_none_iff_exists'.mp hsome
    rw [(hother q c hc).2] at hnone
    cases hnone
  · exact fun q c hc => h.start q c (hother q c hc).2
  · rintro q c hc a e x ⟨c', hc', hmaps⟩
    exact h.mapped q c (hother q c hc).2 a e x ⟨c', (hother q c' hc').2, hmaps⟩
  · intro q c hc a ha hstart
    obtain ⟨e, x, c', hc', hmaps⟩ := h.faulted q c (hother q c hc).2 a ha hstart
    exact ⟨e, x, c', (Function.update_of_ne (hother q c hc).1 ..).trans hc', hmaps⟩

theorem Tracked.setBound (h : Tracked faults s) (hd : s.pagedir p = some d) (addr : Ptr) :
    Tracked faults
      { s with pagedir := Function.update s.pagedir p (some { d with userMemBound := addr }) } := by
  have hother : ∀ q c,
      Function.update s.pagedir p (some { d with userMemBound := addr }) q = some c →
        ∃ c', s.pagedir q = some c' ∧ c'.root = c.root ∧
          c'.sharedPageStart = c.sharedPageStart := by
    intro q c hc
    rcases eq_or_ne q p with rfl | hne
    · rw [Function.update_self] at hc
      cases hc
      exact ⟨d, hd, rfl, rfl⟩
    · exact ⟨c, (Function.update_of_ne hne ..).symm.trans hc, rfl, rfl⟩
  refine ⟨?_, ?_, ?_, ?_⟩
  · intro q hq
    obtain ⟨hnone, hfaults⟩ := h.created q hq
    have hne : q ≠ p := by
      rintro rfl
      rw [hd] at hnone
      cases hnone
    exact ⟨(Function.update_of_ne hne ..).trans hnone, hfaults⟩
  · intro q c hc
    obtain ⟨c', hc', -, hstart⟩ := hother q c hc
    unfold startNumber
    rw [← hstart]
    exact h.start q c' hc'
  · rintro q c hc a e x ⟨b, hb, htranslate, hu⟩
    obtain ⟨c', hc', -, hstart⟩ := hother q c hc
    obtain ⟨b', hb', hroot, -⟩ := hother q b hb
    unfold startNumber
    rw [← hstart]
    exact h.mapped q c' hc' a e x ⟨b', hb', hroot ▸ htranslate, hu⟩
  · intro q c hc a ha hstart
    obtain ⟨c', hc', hroot, heq⟩ := hother q c hc
    unfold startNumber at hstart
    rw [← heq] at hstart
    obtain ⟨e, x, b, hb, htranslate, hu⟩ := h.faulted q c' hc' a ha hstart
    obtain rfl := Option.some.inj (hc'.symm.trans hb)
    exact ⟨e, x, c, hc, hroot ▸ htranslate, hu⟩

omit [DecidableEq Process] in
theorem number_start (hs : Laid boot bound role s) (hd : s.pagedir p = some d) :
    number (pageOf d.sharedPageStart) = startNumber d := by
  have hstart := hs.starts p d hd
  rw [number_pageOf]
  unfold startNumber
  omega

omit [DecidableEq Process] in
theorem startNumber_next (hs : Laid boot bound role s) (hd : s.pagedir p = some d) :
    startNumber { d with sharedPageStart := d.sharedPageStart + 4096 } = startNumber d + 1 := by
  have hstart := hs.starts p d hd
  unfold startNumber
  have hadd : (d.sharedPageStart + 4096).toNat = d.sharedPageStart.toNat + 4096 := by
    rw [BitVec.toNat_add]
    exact Nat.mod_eq_of_lt (by simp; omega)
  dsimp only
  rw [hadd]
  omega

theorem Tracked.attach (h : Tracked faults s) (hs : Laid boot bound role s)
    (hd : s.pagedir p = some d)
    (hy : role y = .leaves p (pageOf d.sharedPageStart).vpn2 (pageOf d.sharedPageStart).vpn1)
    (x : Ppn) :
    Tracked faults { s with
      memory := writeEntry s.memory (y, (pageOf d.sharedPageStart).vpn0) (sharedLeaf x)
      pagedir := Function.update s.pagedir p
        (some { d with sharedPageStart := d.sharedPageStart + 4096 }) } := by
  have hnumber := number_start hs hd
  have hnext := startNumber_next hs hd
  have hother : ∀ q c, Function.update s.pagedir p
      (some { d with sharedPageStart := d.sharedPageStart + 4096 }) q = some c →
        ∃ c', s.pagedir q = some c' ∧ c'.root = c.root ∧ startNumber c' ≤ startNumber c ∧
          (q = p → startNumber c = startNumber d + 1) := by
    intro q c hc
    rcases eq_or_ne q p with rfl | hne
    · rw [Function.update_self] at hc
      cases hc
      refine ⟨d, hd, rfl, ?_, fun _ => hnext⟩
      rw [hnext]
      exact Nat.le_succ _
    · exact ⟨c, (Function.update_of_ne hne ..).symm.trans hc, rfl, le_rfl, fun h => absurd h hne⟩
  have hmaps : ∀ q a e z, ¬(q = p ∧ a = pageOf d.sharedPageStart) →
      (UserMaps { s with
          memory := writeEntry s.memory (y, (pageOf d.sharedPageStart).vpn0) (sharedLeaf x)
          pagedir := Function.update s.pagedir p
            (some { d with sharedPageStart := d.sharedPageStart + 4096 }) } q a e z ↔
        UserMaps s q a e z) := by
    intro q a e z hne
    refine Iff.trans ?_ (userMaps_other (e := sharedLeaf x) hs hy hne)
    constructor
    · rintro ⟨c, hc, htranslate, hu⟩
      obtain ⟨c', hc', hroot, -⟩ := hother q c hc
      exact ⟨c', hc', hroot ▸ htranslate, hu⟩
    · rintro ⟨c', hc', htranslate, hu⟩
      rcases eq_or_ne q p with rfl | hqp
      · obtain rfl := Option.some.inj (hd.symm.trans hc')
        exact ⟨_, Function.update_self .., htranslate, hu⟩
      · exact ⟨c', (Function.update_of_ne hqp ..).trans hc', htranslate, hu⟩
  refine ⟨?_, ?_, ?_, ?_⟩
  · intro q hq
    obtain ⟨hnone, hfaults⟩ := h.created q hq
    have hne : q ≠ p := by
      rintro rfl
      rw [hd] at hnone
      cases hnone
    exact ⟨(Function.update_of_ne hne ..).trans hnone, hfaults⟩
  · intro q c hc
    obtain ⟨c', hc', -, hle, -⟩ := hother q c hc
    exact (h.start q c' hc').trans hle
  · intro q c hc a e z hq
    obtain ⟨c', hc', -, hle, hself⟩ := hother q c hc
    rcases Classical.em (q = p ∧ a = pageOf d.sharedPageStart) with ⟨rfl, rfl⟩ | hne
    · have hlt : number (pageOf d.sharedPageStart) < startNumber c := by
        rw [hnumber, hself rfl]
        exact Nat.lt_succ_self _
      exact ⟨Or.inl hlt, fun _ => hlt⟩
    · obtain ⟨hplace, hshared⟩ := h.mapped q c' hc' a e z ((hmaps q a e z hne).mp hq)
      exact ⟨hplace.imp_left fun hlt => hlt.trans_le hle, fun hflag => (hshared hflag).trans_le hle⟩
  · intro q c hc a ha hstart
    obtain ⟨c', hc', -, hle, hself⟩ := hother q c hc
    have hne : ¬(q = p ∧ a = pageOf d.sharedPageStart) := by
      rintro ⟨rfl, rfl⟩
      rw [hself rfl, hnumber] at hstart
      omega
    obtain ⟨e, z, hbefore⟩ := h.faulted q c' hc' a ha (hle.trans hstart)
    exact ⟨e, z, (hmaps q a e z hne).mpr hbefore⟩

theorem Tracked.shmpageget (h : Tracked faults s) (hs : Sound boot 257 role none s)
    {key : BitVec 32} : Runs (sysShmpageget p key) s Any fun _ s' => Tracked faults s' := by
  unfold sysShmpageget
  apply (runs_and (runs_getSharedPage hs) (getSharedPage_same _ s)).bind
  rintro x s₁ ⟨⟨role₁, hs₁, -⟩, hsame₁⟩
  have h₁ := h.same hsame₁
  apply runs_bind
  apply runs_modifyState
  have hs₂ := hs₁.countUp (key.signExtend 64)
  unfold attachSharedPage
  apply runs_bind
  apply runs_bind
  apply runs_pagedirOf
  intro d hd
  have hd₁ : s₁.pagedir p = some d := hd
  have hstart := hs₁.laid.starts p d hd₁
  rcases Nat.lt_or_ge (getVpn d.sharedPageStart 2).val 257 with hlow | hhigh
  · apply runs_bind
    apply (runs_and (runs_mapVaKva hs₂.laid hd hlow) (mapVaKva_created _ _ _ _ _)).mono
      (fun _ _ he => he)
    rintro - s' ⟨⟨role₃, s₃, y, hlaid₃, hgrown₃, hy, -, -, rfl⟩, hcreated₃⟩
    have hd₃ : s₃.pagedir p = some d := by
      rw [hgrown₃.pagedir]
      exact hd
    have h₃ : Tracked faults s₃ := by
      have hsame : Same s₁ { s₁ with
          sharedPages := countedUp (key.signExtend 64) s₁.sharedPages } := ⟨rfl, rfl, rfl⟩
      have h₂ := h₁.same hsame
      exact h₂.grown hgrown₃ hcreated₃
    have h₄ := h₃.attach hlaid₃ hd₃ hy x
    exact h₄.same ⟨rfl, rfl, rfl⟩
  · have hdirect : (getVpn d.sharedPageStart 2).val = 257 := by
      rw [getVpn_val] at hhigh ⊢
      omega
    have hkernel := hs₂.laid.kernelHalf p d hd _ hhigh
    obtain ⟨hv, hleaf⟩ := hs₂.laid.kernel.direct _ hdirect
    apply runs_bind
    apply (runs_mapVaKva_leaf (hkernel ▸ hleaf) (hkernel ▸ hv)).mono (fun _ _ he => he)
    exact fun _ _ he => he.elim

omit [DecidableEq Process] in
theorem Tracked.detach (h : Tracked faults s) (hs : Laid boot bound role s)
    (hd : s.pagedir p = some d) (hy : role y = .leaves p a.vpn2 a.vpn1)
    (hreach : Reaches s.memory d.root a y) (hinvalid : e.V = false)
    (hbehind : number a < startNumber d) :
    Tracked faults { s with memory := writeEntry s.memory (y, a.vpn0) e } := by
  refine ⟨h.created, h.start, ?_, ?_⟩
  · intro q c hc a' e' z hq
    rcases Classical.em (q = p ∧ a' = a) with ⟨rfl, rfl⟩ | hne
    · obtain ⟨hv, -⟩ := (userMaps_self hs hd hy hreach).mp hq
      exact absurd (hv.symm.trans hinvalid) nofun
    · exact h.mapped q c hc a' e' z ((userMaps_other hs hy hne).mp hq)
  · intro q c hc a' ha' hstart
    have hne : ¬(q = p ∧ a' = a) := by
      rintro ⟨rfl, rfl⟩
      obtain rfl := Option.some.inj (hd.symm.trans hc)
      omega
    obtain ⟨e', z, hbefore⟩ := h.faulted q c hc a' ha' hstart
    exact ⟨e', z, (userMaps_other hs hy hne).mpr hbefore⟩

omit [DecidableEq Process] in
theorem Tracked.shmpagedt (h : Tracked faults s) (hs : Sound boot bound role none s)
    (hshared : MapsShared s p (pageOf va)) :
    Runs (sysShmpagedt p va) s Any fun _ s' => Tracked faults s' := by
  obtain ⟨e, x, hmaps, hflag⟩ := mapsShared_iff.mp hshared
  unfold sysShmpagedt
  apply runs_bind
  apply runs_pagedirOf
  intro d hd
  have hbehind := (h.mapped p d hd _ e x hmaps).2 hflag
  have hva : (getVpn va 2).val < bound := by
    obtain ⟨c, hc, htranslate, hu⟩ := hmaps
    obtain ⟨-, hlow, -⟩ := hs.laid.userLeaf hc htranslate hu
    exact hlow
  unfold freeSharedPage
  apply runs_bind
  apply (runs_and (runs_lookup hs.laid hd hva) (lookup_created d va s)).bind
  rintro ⟨y, k⟩ s₁ ⟨⟨role₁, hlaid₁, hgrown₁, hk, hy, hreach⟩, hcreated₁⟩
  obtain rfl : k = getVpn va 0 := hk
  dsimp only at hy hreach
  have hd₁ : s₁.pagedir p = some d := hgrown₁.pagedir ▸ hd
  apply runs_bind
  apply runs_load
  apply runs_bind
  apply runs_kassert
  intro hvalid
  apply runs_bind
  apply runs_modifyState
  apply runs_pure
  have h₁ := h.grown hgrown₁ hcreated₁
  have h₂ := h₁.detach (a := pageOf va) (e := { (s₁.memory y (getVpn va 0)) with V := false })
    hlaid₁ hd₁ hy hreach rfl hbehind
  apply (dropSharedPage_same _ _).mono (fun _ _ he => he)
  exact fun _ s' hsame => h₂.same ⟨hsame.pagedir, hsame.created, hsame.memory⟩

omit [DecidableEq Process] in
theorem Tracked.pageFault (h : Tracked faults s) (hs : Sound boot 257 role none s)
    (hva : va.toNat < 2 ^ 38) :
    Runs (PageTable.pageFault p va) s Any fun _ s' => Tracked ((p, pageOf va) :: faults) s' := by
  unfold PageTable.pageFault
  apply runs_bind
  apply runs_pagedirOf
  intro d hd
  apply (runs_allocPageForVa_allocated hs hd fun _ => getVpn_lt_of_lt hva).bind
  rintro - s₁ ⟨-, hallocated⟩
  exact h.allocated hallocated hd (fun _ hpa => List.mem_cons_of_mem _ hpa)
    (fun _ hpa => (List.mem_cons.mp hpa).symm) (Or.inr List.mem_cons_self)

theorem Tracked.perform {call : Call Process} {supply : List Ppn} (h : Tracked faults s)
    (hs : Sound boot 257 role none s) (hallowed : Allowed ⟨s, faults⟩ ⟨call, supply⟩) :
    Runs (PageTable.perform call) s Any fun _ s' => Tracked (faultsAfter faults call) s' := by
  cases call with
  | createProcess p => exact h.createProcess hs
  | exec p pages => exact h.exec hs
  | deleteProcess p => exact h.deleteProcess hs
  | pageFault p stval => exact h.pageFault hs hallowed.1
  | brk p addr =>
      apply runs_bind
      apply runs_pagedirOf
      exact fun d hd => runs_modifyState (h.setBound hd addr)
  | sbrk p increment =>
      apply runs_bind
      apply runs_pagedirOf
      exact fun d hd => runs_modifyState (h.setBound hd _)
  | shmpageget p key =>
      apply runs_bind
      apply (h.shmpageget hs).mono (fun _ _ he => he)
      exact fun _ _ htracked => htracked.same ⟨rfl, rfl, rfl⟩
  | shmpagedt p va =>
      apply runs_bind
      apply (h.shmpagedt hs hallowed).mono (fun _ _ he => he)
      exact fun _ _ htracked => htracked.same ⟨rfl, rfl, rfl⟩
  | allocOther => exact (allocOther_same s).mono (fun _ _ he => he) fun _ _ hsame => h.same hsame
  | freeOther page =>
      exact (freeOther_same page s).mono (fun _ _ he => he) fun _ _ hsame => h.same hsame

omit [DecidableEq Process] in
theorem below_of_allowed {a : Action Process} (hs : Sound boot 257 role none s)
    (hallowed : Allowed ⟨s, faults⟩ a) : Below 257 s a.call := by
  unfold Allowed at hallowed
  cases hcall : a.call with
  | pageFault p stval =>
      rw [hcall] at hallowed
      exact fun _ _ _ => Or.inl (getVpn_lt_of_lt hallowed.1)
  | shmpageget p key =>
      intro d hd
      have hstart := hs.laid.starts p d hd
      rw [getVpn_val]
      omega
  | shmpagedt p va =>
      rw [hcall] at hallowed
      obtain ⟨d, hd, ⟨e, x⟩, htranslate, hu, -⟩ := hallowed
      obtain ⟨-, hlow, -⟩ := hs.laid.userLeaf hd htranslate hu
      exact hlow
  | createProcess p => trivial
  | exec p pages => trivial
  | deleteProcess p => trivial
  | brk p addr => trivial
  | sbrk p increment => trivial
  | allocOther => trivial
  | freeOther page => trivial

variable {h h' : History Process} {ioremaps : List (Ptr × Ptr)}

omit [DecidableEq Process] in
theorem Allowed.supplied {a : Action Process} (hallowed : Allowed h a) (supply : List Ppn) :
    Allowed ⟨{ h.kernel with supply := supply }, h.faults⟩ a := by
  unfold Allowed at *
  exact hallowed

theorem tracked_next {a : Action Process} (hs : Laidout boot 257 h.kernel)
    (htracked : Tracked h.faults h.kernel) (hallowed : Allowed h a) (hstep : next h a = some h') :
    Laidout boot 257 h'.kernel ∧ Tracked h'.faults h'.kernel := by
  obtain ⟨role, hsound⟩ := hs
  obtain ⟨s', hnext, rfl⟩ := Option.map_eq_some_iff.mp hstep
  refine ⟨laidout_next ⟨role, hsound⟩ (below_of_allowed hsound hallowed) hnext, ?_⟩
  have hsupplied : Sound boot 257 role none { h.kernel with supply := a.supply } :=
    hsound.setBlock fun _ _ => rfl
  have htracked' : Tracked h.faults { h.kernel with supply := a.supply } :=
    htracked.same ⟨rfl, rfl, rfl⟩
  have hruns := htracked'.perform hsupplied (hallowed.supplied a.supply)
  unfold PageTable.next at hnext
  split at hnext
  next hrun =>
    cases hnext
    exact hruns.ok hrun
  next => cases hnext

theorem tracked_of_reachable (h : ReachableUnder (system ioremaps) Allowed h') :
    Laidout (bootMemory ioremaps) 257 h'.kernel ∧ Tracked h'.faults h'.kernel := by
  apply h.invariant (P := fun h => Laidout (bootMemory ioremaps) 257 h.kernel ∧
    Tracked h.faults h.kernel)
  · rintro h rfl
    refine ⟨⟨_, sound_initial ioremaps (by decide)⟩, ?_, nofun, nofun, nofun⟩
    exact fun p _ => ⟨rfl, fun a => List.not_mem_nil⟩
  · rintro h a h' ⟨hs, htracked⟩ hallowed hstep
    exact tracked_next hs htracked hallowed hstep

omit [DecidableEq Process] in
theorem user_of_low (hs : Laid boot bound role s) (hd : s.pagedir p = some d)
    (hlow : a.vpn2.val < bound) (h : translation s.memory d.root a = some (e, x)) :
    e.U = true := by
  unfold translation at h
  dsimp only at h
  obtain ⟨hv, h⟩ := Option.ite_none_left_eq_some.mp h
  have hv := Bool.eq_true_of_not_eq_false hv
  rcases hs.userHalf p d hd a.vpn2 hlow with hblank | ⟨-, hdir, -, hmiddle⟩
  · exact absurd (hv.symm.trans hblank.1) nofun
  · rw [if_neg (not_not.mpr hdir)] at h
    obtain ⟨hv', h⟩ := Option.ite_none_left_eq_some.mp h
    have hv' := Bool.eq_true_of_not_eq_false hv'
    rcases hs.middle _ p _ hmiddle a.vpn1 with hblank | ⟨-, hdir', -, hleaves⟩
    · exact absurd (hv'.symm.trans hblank.1) nofun
    · rw [if_neg (not_not.mpr hdir')] at h
      obtain ⟨hleaf, h⟩ := Option.ite_none_left_eq_some.mp h
      obtain ⟨rfl, -⟩ := Prod.mk.inj (Option.some.inj h)
      have hvalid := Bool.eq_true_of_not_eq_false fun hfalse => hleaf (Or.inl hfalse)
      exact (hs.leaves _ p _ _ hleaves _ hvalid).2.1

omit [DecidableEq Process] in
theorem unmapped_iff_startUnused (hs : Sound boot 257 role none h.kernel)
    (htracked : Tracked h.faults h.kernel) (hd : h.kernel.pagedir p = some d) :
    translation h.kernel.memory d.root (pageOf d.sharedPageStart) = none ↔ StartUnused h p d := by
  have hstart := hs.laid.starts p d hd
  have hnumber := number_start hs.laid hd
  have hvpn := getVpn_val d.sharedPageStart 2
  constructor
  · intro hnone
    refine ⟨?_, fun hfault => ?_⟩
    · by_contra hbeyond
      have hdirect : (getVpn d.sharedPageStart 2).val = 257 := by omega
      obtain ⟨hv, hleaf⟩ := hs.laid.kernel.direct _ hdirect
      rw [← hs.laid.kernelHalf p d hd _ hdirect.ge] at hv hleaf
      unfold translation at hnone
      dsimp only [pageOf] at hnone
      rw [if_neg (by rw [hv]; decide), if_pos hleaf] at hnone
      cases hnone
    · obtain ⟨e, x, c, hc, htranslate, -⟩ := htracked.faulted p d hd _ hfault hnumber.ge
      obtain rfl := Option.some.inj (hd.symm.trans hc)
      rw [hnone] at htranslate
      cases htranslate
  · rintro ⟨hbelow, hnofault⟩
    by_contra hsome
    obtain ⟨⟨e, x⟩, htranslate⟩ := Option.ne_none_iff_exists'.mp hsome
    have hlow : (pageOf d.sharedPageStart).vpn2.val < 257 := by
      change (getVpn d.sharedPageStart 2).val < 257
      omega
    have hu := user_of_low hs.laid hd hlow htranslate
    rcases (htracked.mapped p d hd _ e x ⟨d, hd, htranslate, hu⟩).1 with hlt | hfault
    · omega
    · exact hnofault hfault

/-- The program did not stop at an assertion. -/
def Quiet (stop : Stop) (_ : State Process) : Prop := stop ≠ .assertion

omit [DecidableEq Process] in
theorem quiet_of_any {α : Type} {program : Kernel Process α} {Q : α → State Process → Prop}
    (h : Runs program s Any Q) (hquiet : Runs program s Quiet fun _ _ => True) :
    Runs program s Quiet Q :=
  (h.and hquiet).mono (fun _ _ he => he.2) fun _ _ hq => hq.1

omit [DecidableEq Process] in
theorem kalloc_quiet (s : State Process) : Runs kalloc s Quiet fun _ _ => True := by
  unfold kalloc
  apply runs_bind
  apply runs_getState
  split
  · exact runs_fail nofun
  · split
    · apply runs_bind
      exact runs_modifyState trivial
    · exact runs_fail nofun

omit [DecidableEq Process] in
theorem lookup_quiet (d : PageDir) (va : Ptr) (s : State Process) :
    Runs (lookup d va) s Quiet fun _ _ => True := by
  have hnext : ∀ pte s, Runs (nextTable pte : Kernel Process Ppn) s Quiet fun _ _ => True := by
    intro pte s
    unfold nextTable
    apply runs_bind
    apply runs_load
    split
    · exact (kalloc_quiet s).bind fun _ _ _ => trivial
    · exact runs_pure trivial
  unfold lookup
  apply runs_bind
  apply runs_load
  split
  · exact runs_pure trivial
  · apply (hnext _ _).bind
    intro table s₁ _
    apply runs_bind
    apply runs_load
    split
    · exact runs_pure trivial
    · exact (hnext _ _).bind fun _ _ _ => trivial

omit [DecidableEq Process] in
theorem pagedirOf_quiet {Q : PageDir → State Process → Prop}
    (h : ∀ d, s.pagedir p = some d → Q d s) : Runs (pagedirOf p) s Quiet Q := by
  unfold pagedirOf
  apply runs_bind
  apply runs_getState
  split
  · exact runs_fail nofun
  next d hd => exact h d hd

omit [DecidableEq Process] in
theorem kassert_quiet {b : Bool} {Q : Unit → State Process → Prop} (hb : b = true) (h : Q () s) :
    Runs (kassert b) s Quiet Q := by
  unfold kassert
  rw [if_pos hb]
  exact h

omit [DecidableEq Process] in
theorem mapVaKva_quiet (hs : Laid boot bound role s) (hd : s.pagedir p = some d)
    (hva : (getVpn va 2).val < bound) (hnone : ∀ e x, ¬UserMaps s p (pageOf va) e x)
    {osflag : PageOSFlag} : Runs (mapVaKva d va x osflag) s Quiet fun _ _ => True := by
  unfold mapVaKva
  apply (quiet_of_any (runs_lookup hs hd hva) (lookup_quiet d va s)).bind
  rintro ⟨y, k⟩ s₁ ⟨role₁, hlaid₁, hgrown₁, hk, hy, hreach⟩
  obtain rfl : k = getVpn va 0 := hk
  dsimp only at hy hreach
  apply runs_bind
  apply runs_load
  have hinvalid : (s₁.memory y (getVpn va 0)).V = false := by
    by_contra hv
    have hmaps := userMaps_of_valid (a := pageOf va) hlaid₁ (hgrown₁.pagedir ▸ hd) hy hreach
      (Bool.eq_true_of_not_eq_false hv)
    exact hnone _ _ ((userMaps_grown hgrown₁ _ _ _).mp hmaps)
  apply runs_bind
  apply kassert_quiet
  · rw [hinvalid]
    rfl
  · trivial

omit [DecidableEq Process] in
theorem allocPageForVa_quiet (hs : Laid boot bound role s) (hd : s.pagedir p = some d)
    (hva : (getVpn va 2).val < bound) (hbelow : va < d.userMemBound) :
    Runs (allocPageForVa d va) s Quiet fun _ _ => True := by
  unfold allocPageForVa
  rw [if_neg (BitVec.not_le.mpr hbelow)]
  apply (quiet_of_any (runs_lookup hs hd hva) (lookup_quiet d va s)).bind
  rintro ⟨y, k⟩ s₁ ⟨role₁, hlaid₁, hgrown₁, hk, hy, hreach⟩
  obtain rfl : k = getVpn va 0 := hk
  dsimp only at hy hreach
  have hd₁ : s₁.pagedir p = some d := hgrown₁.pagedir ▸ hd
  apply runs_bind
  apply runs_load
  split
  · exact runs_pure trivial
  next hinvalid =>
    have hkalloc : Runs kalloc s₁ Any fun _ s₂ =>
        ∃ role₂, Laid boot bound role₂ s₂ ∧ Grown role₁ s₁ role₂ s₂ := by
      apply runs_kalloc
      intro page rest hfree
      exact ⟨_, hlaid₁.take hfree (Or.inr ⟨p, pageOf va, rfl⟩) rest⟩
    apply (quiet_of_any hkalloc (kalloc_quiet s₁)).bind
    rintro page s₂ ⟨role₂, hlaid₂, hgrown₂⟩
    have hnone : ∀ e x, ¬UserMaps s₂ p (pageOf va) e x := by
      intro e x hmaps
      obtain ⟨c, hc, htranslate, hu⟩ := (userMaps_grown hgrown₂ _ _ _).mp hmaps
      obtain rfl := Option.some.inj (hd₁.symm.trans hc)
      rw [hreach.translate] at htranslate
      obtain ⟨hleaf, -⟩ := Option.ite_none_left_eq_some.mp htranslate
      exact hinvalid (Bool.eq_true_of_not_eq_false fun hfalse => hleaf (Or.inl hfalse))
    apply (mapVaKva_quiet hlaid₂ (hgrown₂.pagedir ▸ hd₁) hva hnone).bind
    exact fun _ _ _ => trivial

omit [DecidableEq Process] in
theorem getSharedPage_quiet (key : Ptr) (s : State Process) :
    Runs (getSharedPage key) s Quiet fun _ _ => True := by
  unfold getSharedPage
  apply runs_bind
  apply runs_getState
  split
  · exact runs_pure trivial
  · exact (kalloc_quiet s).bind fun _ _ _ => trivial

omit [DecidableEq Process] in
theorem dropSharedPage_quiet (kva : Ppn) (s : State Process) :
    Runs (dropSharedPage kva) s Quiet fun _ _ => True := by
  unfold dropSharedPage
  apply runs_bind
  apply runs_getState
  split
  · exact runs_pure trivial
  · apply runs_bind
    apply runs_modifyState
    split
    · exact runs_modifyState trivial
    · exact runs_pure trivial

theorem sysShmpageget_quiet {key : BitVec 32} (hs : Sound boot 257 role none s)
    (hunused : ∀ d, s.pagedir p = some d → d.sharedPageStart.toNat < 2 ^ 38 + 2 ^ 30 ∧
      translation s.memory d.root (pageOf d.sharedPageStart) = none) :
    Runs (sysShmpageget p key) s Quiet fun _ _ => True := by
  unfold sysShmpageget
  apply (quiet_of_any (runs_and (runs_getSharedPage hs) (getSharedPage_same _ s))
    (getSharedPage_quiet _ s)).bind
  rintro x s₁ ⟨⟨role₁, hs₁, hpagedir₁, -⟩, hsame₁⟩
  apply runs_bind
  apply runs_modifyState
  have hs₂ := hs₁.countUp (key.signExtend 64)
  unfold attachSharedPage
  apply runs_bind
  apply runs_bind
  apply pagedirOf_quiet
  intro d hd
  have hd₀ : s.pagedir p = some d := hpagedir₁ ▸ hd
  obtain ⟨hbelow, hnone⟩ := hunused d hd₀
  have hstart := hs.laid.starts p d hd₀
  have hva : (getVpn d.sharedPageStart 2).val < 257 := by
    rw [getVpn_val]
    omega
  apply runs_bind
  apply (mapVaKva_quiet hs₂.laid hd hva ?_).mono (fun _ _ he => he)
  · exact fun _ _ _ => trivial
  · rintro e z ⟨c, hc, htranslate, -⟩
    obtain rfl := Option.some.inj (hd.symm.trans hc)
    dsimp only at htranslate
    rw [hsame₁.memory, hnone] at htranslate
    cases htranslate

omit [DecidableEq Process] in
theorem sysShmpagedt_quiet (hshared : MapsShared s p (pageOf va)) :
    Runs (sysShmpagedt p va) s Quiet fun _ _ => True := by
  obtain ⟨c, hc, ⟨e, x⟩, htranslate, -⟩ := hshared
  unfold sysShmpagedt
  apply runs_bind
  apply pagedirOf_quiet
  intro d hd
  obtain rfl := Option.some.inj (hd.symm.trans hc)
  unfold freeSharedPage
  apply runs_bind
  apply (runs_lookup_mapped htranslate).bind
  rintro pte s₁ ⟨rfl, he, hv⟩
  apply runs_bind
  apply runs_load
  rw [he]
  apply runs_bind
  apply kassert_quiet hv
  apply runs_bind
  apply runs_modifyState
  apply runs_pure
  exact dropSharedPage_quiet _ _

omit [DecidableEq Process] in
theorem runs_pagedirOf_some {E : Stop → State Process → Prop}
    {Q : PageDir → State Process → Prop} (hd : s.pagedir p = some d) (h : Q d s) :
    Runs (pagedirOf p) s E Q := by
  unfold pagedirOf
  apply runs_bind
  apply runs_getState
  rw [hd]
  exact runs_pure h

omit [DecidableEq Process] in
theorem mapVaKva_stops {osflag : PageOSFlag} {z : Ppn}
    (htranslate : translation s.memory d.root (pageOf va) = some (e, z)) :
    Runs (mapVaKva d va x osflag) s (fun stop _ => stop = .assertion) fun _ _ => False := by
  unfold mapVaKva
  apply (runs_lookup_mapped htranslate).bind
  rintro pte s₁ ⟨rfl, he, hv⟩
  apply runs_bind
  apply runs_load
  apply runs_bind
  unfold kassert
  rw [he, hv]
  exact runs_fail rfl

theorem sysShmpageget_stops {key : BitVec 32} (hobtain : Obtainable s key)
    (hd : s.pagedir p = some d)
    (htranslate : translation s.memory d.root (pageOf d.sharedPageStart) = some (e, x)) :
    ∃ supply, Runs (sysShmpageget p key) { s with supply := supply }
      (fun stop _ => stop = .assertion) fun _ _ => False := by
  have hpage : ∃ supply, Runs (getSharedPage (key.signExtend 64)) { s with supply := supply }
      (fun stop _ => stop = .assertion) fun _ s' => Same s s' := by
    unfold getSharedPage
    rcases hobtain with ⟨page, hpage, hkey⟩ | ⟨x, hfree⟩
    · refine ⟨[], ?_⟩
      apply runs_bind
      apply runs_getState
      split
      · exact runs_pure ⟨rfl, rfl, rfl⟩
      next hfind =>
        exact absurd (beq_iff_eq.mpr hkey) (List.find?_eq_none.mp hfind page hpage)
    · refine ⟨[x], ?_⟩
      apply runs_bind
      apply runs_getState
      split
      · exact runs_pure ⟨rfl, rfl, rfl⟩
      · apply runs_bind
        unfold kalloc
        apply runs_bind
        apply runs_getState
        dsimp only
        rw [if_pos hfree]
        exact ⟨rfl, rfl, rfl⟩
  obtain ⟨supply, hruns⟩ := hpage
  refine ⟨supply, ?_⟩
  unfold sysShmpageget
  apply hruns.bind
  intro kva s₁ hsame
  apply runs_bind
  apply runs_modifyState
  unfold attachSharedPage
  apply runs_bind
  apply runs_bind
  apply runs_pagedirOf_some (hsame.pagedir ▸ hd)
  apply runs_bind
  rw [← hsame.memory] at htranslate
  refine (mapVaKva_stops (e := e) (z := x) ?_).mono (fun _ _ he => he) fun _ _ he => he.elim
  exact htranslate

theorem not_mapsUnmapped {key : BitVec 32} (hobtain : Obtainable s key)
    (hd : s.pagedir p = some d)
    (htranslate : translation s.memory d.root (pageOf d.sharedPageStart) = some (e, x)) :
    ¬MapsUnmapped s (.shmpageget p key) := by
  intro hmaps
  obtain ⟨supply, hruns⟩ := sysShmpageget_stops hobtain hd htranslate
  have hperform : Runs (perform (.shmpageget p key)) { s with supply := supply }
      (fun stop _ => stop = .assertion) fun _ _ => False := by
    apply runs_bind
    exact hruns.mono (fun _ _ he => he) fun _ _ he => he.elim
  unfold Runs at hperform
  split at hperform
  next => exact hperform
  next hrun => exact hmaps supply _ (hperform ▸ hrun)

omit [DecidableEq Process] in
theorem getSharedPage_unobtainable {key : BitVec 32} (hobtain : ¬Obtainable s key)
    (supply : List Ppn) :
    Runs (getSharedPage (key.signExtend 64)) { s with supply := supply } Quiet
      fun _ _ => False := by
  obtain ⟨hpages, hfree⟩ := not_or.mp hobtain
  unfold getSharedPage
  apply runs_bind
  apply runs_getState
  split
  next page hfind =>
    refine absurd ⟨page, List.mem_of_find?_eq_some hfind, ?_⟩ hpages
    simpa using List.find?_some hfind
  next =>
    apply runs_bind
    unfold kalloc
    apply runs_bind
    apply runs_getState
    split
    · exact runs_fail nofun
    next page rest hsupply =>
      rw [if_neg fun h => hfree ⟨page, h⟩]
      exact runs_fail nofun

/-- In every run the next address for a shared page is not mapped if and only
if it is not in the direct mapping and there has been no page fault for it, and
`map_va_kva` is called on addresses without a mapping if and only if that is so. -/
theorem mapsUnmapped_iff_clear (hr : ReachableUnder (system ioremaps) Allowed h) :
    (∀ p d, h.kernel.pagedir p = some d →
      (translation h.kernel.memory d.root (pageOf d.sharedPageStart) = none ↔
        StartUnused h p d)) ∧
    ∀ a, Allowed h a → OfProcess a.call →
      (MapsUnmapped h.kernel a.call ↔ Clear h a.call) := by
  obtain ⟨⟨role, hs⟩, htracked⟩ := tracked_of_reachable hr
  have hunmapped := fun p d => unmapped_iff_startUnused hs htracked (p := p) (d := d)
  refine ⟨hunmapped, fun a hallowed hcall => ?_⟩
  have hsupplied : ∀ supply, Sound (bootMemory ioremaps) 257 role none
      { h.kernel with supply := supply } := fun supply => hs.setBlock fun _ _ => rfl
  have hquiet : (∀ supply, Runs (perform a.call) { h.kernel with supply := supply } Quiet
      fun _ _ => True) → MapsUnmapped h.kernel a.call := by
    intro hruns supply s' hrun
    have hstop := hruns supply
    unfold Runs at hstop
    rw [hrun] at hstop
    exact hstop rfl
  have hprocess : ∀ {program : PageDir → PageDir} {p supply},
      Runs (do let d ← pagedirOf p; setPagedir p (program d)) { h.kernel with supply := supply }
        Quiet fun _ _ => True := by
    intro program p supply
    apply runs_bind
    exact pagedirOf_quiet fun _ _ => trivial
  unfold Allowed at hallowed
  cases hkind : a.call with
  | brk p addr =>
      rw [hkind] at hquiet
      exact iff_of_true (hquiet fun _ => hprocess) trivial
  | sbrk p increment =>
      rw [hkind] at hquiet
      exact iff_of_true (hquiet fun _ => hprocess) trivial
  | pageFault p stval =>
      rw [hkind] at hquiet hallowed
      refine iff_of_true (hquiet fun supply => ?_) trivial
      change Runs (pageFault p stval) _ _ _
      unfold pageFault
      apply runs_bind
      apply pagedirOf_quiet
      intro d hd
      apply (allocPageForVa_quiet (hsupplied supply).laid hd (getVpn_lt_of_lt hallowed.1)
        (hallowed.2 d hd)).bind
      exact fun _ _ _ => trivial
  | shmpagedt p va =>
      rw [hkind] at hquiet hallowed
      refine iff_of_true (hquiet fun supply => ?_) trivial
      apply runs_bind
      apply (sysShmpagedt_quiet (s := { h.kernel with supply := supply }) hallowed).mono
        (fun _ _ he => he)
      exact fun _ _ _ => trivial
  | shmpageget p key =>
      rw [hkind] at hquiet
      constructor
      · intro hmaps hobtain d hd
        rw [← hunmapped p d hd]
        by_contra hsome
        obtain ⟨⟨e, x⟩, htranslate⟩ := Option.ne_none_iff_exists'.mp hsome
        exact not_mapsUnmapped hobtain hd htranslate hmaps
      · intro hclear
        apply hquiet
        intro supply
        apply runs_bind
        change Runs (sysShmpageget p key) _ _ fun _ _ => True
        rcases Classical.em (Obtainable h.kernel key) with hobtain | hnot
        · apply sysShmpageget_quiet (hsupplied supply)
          intro d hd
          have hunused := hclear hobtain d hd
          exact ⟨hunused.1, (hunmapped p d hd).mpr hunused⟩
        · unfold sysShmpageget
          apply (getSharedPage_unobtainable hnot supply).bind
          exact fun _ _ he => he.elim
  | createProcess p =>
      rw [hkind] at hcall
      exact hcall.elim
  | exec p pages =>
      rw [hkind] at hcall
      exact hcall.elim
  | deleteProcess p =>
      rw [hkind] at hcall
      exact hcall.elim
  | allocOther =>
      rw [hkind] at hcall
      exact hcall.elim
  | freeOther page =>
      rw [hkind] at hcall
      exact hcall.elim

end Calls

instance (h : History Process) : ∀ a, Decidable (Allowed h a)
  | ⟨.pageFault p stval, _⟩ => inferInstanceAs (Decidable (stval.toNat < 2 ^ 38 ∧
      ∀ d ∈ h.kernel.pagedir p, stval < d.userMemBound))
  | ⟨.shmpagedt p va, _⟩ => inferInstanceAs (Decidable (MapsShared h.kernel p (pageOf va)))
  | ⟨.shmpageget _ _, _⟩ => isTrue trivial
  | ⟨.createProcess _, _⟩ => isTrue trivial
  | ⟨.exec _ _, _⟩ => isTrue trivial
  | ⟨.deleteProcess _, _⟩ => isTrue trivial
  | ⟨.brk _ _, _⟩ => isTrue trivial
  | ⟨.sbrk _ _, _⟩ => isTrue trivial
  | ⟨.allocOther, _⟩ => isTrue trivial
  | ⟨.freeOther _, _⟩ => isTrue trivial

/-- The history after the given calls. -/
def historyAfter (actions : List (Action Unit)) : History Unit :=
  permittedState Allowed next ⟨initial [], []⟩ actions

theorem reachable_historyAfter (actions : List (Action Unit)) :
    ReachableUnder (system []) Allowed (historyAfter actions) := by
  have hstart : (system []).start (⟨initial [], []⟩ : History Unit) := rfl
  exact permittedState_reachableUnder hstart actions

/-- A process with a private page and a shared one. -/
def onePageEach : List (Action Unit) :=
  [⟨.createProcess (), [0x60000]⟩,
    ⟨.pageFault () 0x200000, [0x60001, 0x60002, 0x60003]⟩,
    ⟨.shmpageget () 5, [0x60004, 0x60005, 0x60006]⟩]

theorem onePageEach_clear :
    (historyAfter onePageEach).kernel.pagedir () = some ⟨0x60000, 0x2000001000, 0x300000⟩ ∧
      MapsUnmapped (historyAfter onePageEach).kernel (.shmpageget () 6) := by
  have hd : (historyAfter onePageEach).kernel.pagedir () =
      some ⟨0x60000, 0x2000001000, 0x300000⟩ := by
    decide +kernel
  have hunused : StartUnused (historyAfter onePageEach) () ⟨0x60000, 0x2000001000, 0x300000⟩ := by
    unfold StartUnused
    decide +kernel
  have hiff := (mapsUnmapped_iff_clear (reachable_historyAfter onePageEach)).2
    ⟨.shmpageget () 6, []⟩ trivial trivial
  refine ⟨hd, hiff.mpr fun _ d hd' => ?_⟩
  cases hd.symm.trans hd'
  exact hunused

/-- A process sets its bound behind 128 GiB and has a page fault there. -/
def faultAtStart : List (Action Unit) :=
  [⟨.createProcess (), [0x60000]⟩, ⟨.brk () 0x2000001000, []⟩,
    ⟨.pageFault () 0x2000000000, [0x60001, 0x60002, 0x60003]⟩]

theorem faultAtStart_not_unmapped :
    ¬∀ h : History Unit, ReachableUnder (system []) Allowed h →
      ∀ a, Allowed h a → OfProcess a.call → MapsUnmapped h.kernel a.call := by
  intro hall
  have hmaps := hall _ (reachable_historyAfter faultAtStart) ⟨.shmpageget () 5, []⟩ trivial trivial
  have hd : (historyAfter faultAtStart).kernel.pagedir () =
      some ⟨0x60000, 0x2000000000, 0x2000001000⟩ := by
    decide +kernel
  have hfree : (historyAfter faultAtStart).kernel.block 0x60004 = .free := by decide +kernel
  have htranslate : translation (historyAfter faultAtStart).kernel.memory 0x60000
      (pageOf 0x2000000000) = some (.setAsLeaf 0x60003, 0x60003) := by
    decide +kernel
  exact not_mapsUnmapped (Or.inr ⟨_, hfree⟩) hd htranslate hmaps

end LabKernel.MappedAddresses
