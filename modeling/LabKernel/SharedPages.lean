import LabKernel.UserIsolation

/-!
The counters of the shared pages: a shared page counts the mappings of it by
living processes, and is given back with the last of them, as long as no
process ends with a shared page mapped.

`freeUserRecur` neither reaches nor counts the shared pages of a process that
ends, so that its mappings would stay in the counters.
-/

namespace LabKernel.SharedPages

open LabKernel.AddressSpace
open LabKernel.PageCalls
open LabKernel.PageRuns
open LabKernel.PageTable
open LabKernel.ProgramLogic
open LabKernel.TransitionSystem
open LabKernel.UserIsolation

variable {Process : Type} {boot : Memory} {bound : Nat} {role role₁ : Ppn → Role Process}
  {s s₁ s' : State Process} {p q : Process} {d : PageDir} {m : Memory} {x y : Ppn}
  {a : VirtualPage} {e : PageEntry} {va key : Ptr} {pending : Option Ptr}

/-- The pages at which living processes map the shared page `x`. -/
def sharedLeaves (s : State Process) (x : Ppn) : Set (Process × VirtualPage) :=
  {pa | ∃ e, UserMaps s pa.1 pa.2 e x ∧ e.OSflag = .shared}

/-- Every entry that attaches a shared page is in the tables of a living
process. -/
def Linked (role : Ppn → Role Process) (s : State Process) : Prop :=
  ∀ y p i j, role y = .leaves p i j → ∀ k, (s.memory y k).V = true →
    (s.memory y k).OSflag = .shared →
      ∃ d, s.pagedir p = some d ∧ Reaches s.memory d.root ⟨i, j, k⟩ y

theorem reaches_congr {memory memory' : Memory}
    (hroot : memory' d.root a.vpn2 = memory d.root a.vpn2)
    (hmiddle : memory' (memory d.root a.vpn2).ppn a.vpn1 = memory (memory d.root a.vpn2).ppn a.vpn1)
    (h : Reaches memory d.root a y) : Reaches memory' d.root a y := by
  obtain ⟨hfirst, hsecond⟩ := h
  constructor
  · unfold LeadsTo at hfirst ⊢
    dsimp only at hfirst ⊢
    rw [hroot]
    exact hfirst
  · unfold LeadsTo at hsecond ⊢
    dsimp only at hsecond ⊢
    rw [hroot, hmiddle]
    exact hsecond

theorem middle_ne_free (hs : Laid boot bound role s) (hd : s.pagedir p = some d)
    (h : Reaches s.memory d.root a y) :
    s.block d.root ≠ .free ∧ s.block (s.memory d.root a.vpn2).ppn ≠ .free := by
  constructor
  · rw [hs.owned]
    · decide
    · rw [hs.root p d hd]
      exact nofun
  · rcases hs.belowRoot hd h.middle.1 h.middle.2.1 with hio | hrole
    · rw [hio, hs.bootBlocks.2]
      decide
    · rw [hs.owned]
      · decide
      · rw [hrole]
        exact nofun

theorem Linked.grown (h : Linked role s) (hs : Laid boot bound role s)
    (hgrown : Grown role s role₁ s₁) : Linked role₁ s₁ := by
  intro y p i j hy k hv hflag
  have hmem : (y, k) ∈ attachments role₁ s₁.memory (s₁.memory y k).ppn :=
    ⟨⟨p, i, j, hy⟩, hv, hflag, rfl⟩
  rw [hgrown.attachments] at hmem
  obtain ⟨⟨p', i', j', hy'⟩, hv', hflag', -⟩ := hmem
  have hsame := hgrown.role_eq hs hy' nofun
  rw [hy] at hsame
  injection hsame with hp hi hj
  subst hp hi hj
  obtain ⟨d, hd, hreach⟩ := h y p i j hy' k hv' hflag'
  refine ⟨d, by rw [hgrown.pagedir]; exact hd, ?_⟩
  obtain ⟨hroot, hmiddle⟩ := middle_ne_free hs hd hreach
  exact reaches_congr (hgrown.entries _ _ hroot hreach.middle.1)
    (hgrown.entries _ _ hmiddle hreach.bottom.1) hreach

theorem Linked.write (h : Linked role s) (hs : Laid boot bound role s)
    (hy : role y = .leaves p a.vpn2 a.vpn1) (hd : s.pagedir p = some d)
    (hreach : Reaches s.memory d.root a y) :
    Linked role { s with memory := writeEntry s.memory (y, a.vpn0) e } := by
  intro z q i j hz k hv hflag
  dsimp only at hv hflag ⊢
  rcases eq_or_ne (z, k) (y, a.vpn0) with heq | hne
  · obtain ⟨rfl, rfl⟩ := Prod.mk.inj heq
    rw [hy] at hz
    cases hz
    exact ⟨d, hd, hs.reaches_writeEntry hd hy hreach _⟩
  · have hkeep : writeEntry s.memory (y, a.vpn0) e z k = s.memory z k := if_neg hne
    rw [hkeep] at hv hflag
    obtain ⟨c, hc, hreach'⟩ := h z q i j hz k hv hflag
    exact ⟨c, hc, hs.reaches_writeEntry hc hy hreach' _⟩

theorem Linked.updateRole (h : Linked role s) {new : Role Process}
    (hnew : ∀ p i j, new ≠ .leaves p i j) : Linked (Function.update role x new) s := by
  intro y p i j hy
  rcases eq_or_ne y x with rfl | hne
  · rw [Function.update_self] at hy
    exact absurd hy (hnew p i j)
  · rw [Function.update_of_ne hne] at hy
    exact h y p i j hy

theorem Linked.create [DecidableEq Process] (h : Linked role s) (hs : Laid boot bound role s)
    (hx : s.block x = .free) (hp : s.pagedir p = none) {supply : List Ppn}
    {created : Process → Bool} {c : PageDir} :
    Linked (Function.update role x (.root p))
      { s with
        memory := withKernelVm s.memory x
        block := Function.update s.block x .paging
        supply := supply
        created := created
        pagedir := Function.update s.pagedir p (some c) } := by
  intro y q i j hy k hv hflag
  dsimp only at hv hflag ⊢
  have hne : y ≠ x := by
    rintro rfl
    rw [Function.update_self] at hy
    cases hy
  rw [Function.update_of_ne hne] at hy
  rw [withKernelVm_other hne] at hv hflag
  obtain ⟨d, hd, hreach⟩ := h y q i j hy k hv hflag
  have hqp : q ≠ p := by
    rintro rfl
    rw [hp] at hd
    cases hd
  refine ⟨d, (Function.update_of_ne hqp ..).trans hd, ?_⟩
  obtain ⟨hroot, hmiddle⟩ := middle_ne_free hs hd hreach
  refine reaches_congr ?_ ?_ hreach
  · refine withKernelVm_other fun heq => hroot ?_
    rw [heq, hx]
  · refine withKernelVm_other fun heq => hmiddle ?_
    rw [heq, hx]

theorem userMaps_of_reaches (hs : Laid boot bound role s) (hd : s.pagedir p = some d)
    (hy : role y = .leaves p a.vpn2 a.vpn1) (hreach : Reaches s.memory d.root a y)
    (hv : (s.memory y a.vpn0).V = true) :
    UserMaps s p a (s.memory y a.vpn0) (s.memory y a.vpn0).ppn := by
  obtain ⟨hxwr, hu, -⟩ := hs.leaves y p _ _ hy a.vpn0 hv
  refine ⟨d, hd, ?_, hu⟩
  rw [hreach.translate, if_neg]
  rintro (hfalse | hdir)
  · rw [hv] at hfalse
    cases hfalse
  · exact hxwr hdir

theorem Linked.delete [DecidableEq Process] (h : Linked role s) (hs : Laid boot bound role s)
    (hnone : ∀ a e x, UserMaps s p a e x → e.OSflag ≠ .shared) {block : Ppn → Block} :
    Linked (Function.update role d.root .unused)
      { s with block := block, pagedir := Function.update s.pagedir p none } := by
  refine Linked.updateRole (s := { s with
    block := block, pagedir := Function.update s.pagedir p none }) ?_ nofun
  intro y q i j hy k hv hflag
  obtain ⟨c, hc, hreach⟩ := h y q i j hy k hv hflag
  have hqp : q ≠ p := by
    rintro rfl
    exact hnone _ _ _ (userMaps_of_reaches (a := ⟨i, j, k⟩) hs hc hy hreach hv) hflag
  exact ⟨c, (Function.update_of_ne hqp ..).trans hc, hreach⟩

theorem neZero_entries : @NeZero Nat Zero.ofOfNat0 512 := ⟨by decide⟩

attribute [local instance] neZero_entries in
/-- The entry of the last level for a page of a process. -/
def leafEntryOf (s : State Process) (pa : Process × VirtualPage) : Ppn × Fin 512 :=
  match s.pagedir pa.1 with
  | none => (0, 0)
  | some d => ((s.memory (s.memory d.root pa.2.vpn2).ppn pa.2.vpn1).ppn, pa.2.vpn0)

theorem leafEntryOf_eq (hd : s.pagedir p = some d) (h : Reaches s.memory d.root a y) :
    leafEntryOf s (p, a) = (y, a.vpn0) := by
  unfold leafEntryOf
  rw [hd]
  exact congrArg (·, a.vpn0) h.bottom.2.2

theorem ncard_sharedLeaves (hs : Laid boot bound role s) (h : Linked role s) (x : Ppn) :
    (sharedLeaves s x).ncard = (attachments role s.memory x).ncard := by
  have hleaf : ∀ p a, (p, a) ∈ sharedLeaves s x → ∃ y, leafEntryOf s (p, a) = (y, a.vpn0) ∧
      role y = .leaves p a.vpn2 a.vpn1 ∧ (y, a.vpn0) ∈ attachments role s.memory x := by
    rintro p a ⟨e, ⟨d, hd, htranslate, hu⟩, hflag⟩
    obtain ⟨y, -, hreach, hy, rfl, hv, hx⟩ := hs.userLeaf hd htranslate hu
    exact ⟨y, leafEntryOf_eq hd hreach, hy, ⟨_, _, _, hy⟩, hv, hflag, hx⟩
  have himage : attachments role s.memory x = leafEntryOf s '' sharedLeaves s x := by
    ext ⟨y, k⟩
    constructor
    · rintro ⟨⟨p, i, j, hy⟩, hv, hflag, hx⟩
      obtain ⟨d, hd, hreach⟩ := h y p i j hy k hv hflag
      refine ⟨(p, ⟨i, j, k⟩), ⟨s.memory y k, ?_, hflag⟩, leafEntryOf_eq hd hreach⟩
      rw [← hx]
      exact userMaps_of_reaches (a := ⟨i, j, k⟩) hs hd hy hreach hv
    · rintro ⟨⟨p, a⟩, hmem, heq⟩
      obtain ⟨z, hz, -, hattached⟩ := hleaf p a hmem
      rw [← heq, hz]
      exact hattached
  have hinj : Set.InjOn (leafEntryOf s) (sharedLeaves s x) := by
    rintro ⟨p, a⟩ hmem ⟨p', a'⟩ hmem' heq
    obtain ⟨y, hy, hrole, -⟩ := hleaf p a hmem
    obtain ⟨y', hy', hrole', -⟩ := hleaf p' a' hmem'
    rw [hy, hy'] at heq
    obtain ⟨rfl, hvpn0⟩ := Prod.mk.inj heq
    rw [hrole] at hrole'
    injection hrole' with hp hvpn2 hvpn1
    cases a
    cases a'
    dsimp only at hvpn0 hvpn1 hvpn2
    rw [hp, hvpn0, hvpn1, hvpn2]
  rw [himage, hinj.ncard_image]

theorem nextTable_created (pte : Ppn × Fin 512) (s : State Process) :
    Runs (nextTable pte) s Any fun _ s' => s'.created = s.created := by
  unfold nextTable
  apply runs_bind
  apply runs_load
  split
  · apply runs_bind
    apply runs_kalloc
    intro page rest _
    rfl
  · rfl

theorem lookup_created (d : PageDir) (va : Ptr) (s : State Process) :
    Runs (lookup d va) s Any fun _ s' => s'.created = s.created := by
  unfold lookup
  apply runs_bind
  apply runs_load
  split
  · rfl
  · apply (nextTable_created _ s).bind
    rintro table s₁ hcreated
    apply runs_bind
    apply runs_load
    split
    · exact hcreated
    · apply (nextTable_created _ s₁).bind
      rintro bottom s₂ hcreated₂
      exact hcreated₂.trans hcreated

theorem mapVaKva_created (d : PageDir) (va : Ptr) (x : Ppn) (osflag : PageOSFlag)
    (s : State Process) :
    Runs (mapVaKva d va x osflag) s Any fun _ s' => s'.created = s.created := by
  unfold mapVaKva
  apply (lookup_created d va s).bind
  rintro pte s₁ hcreated
  apply runs_bind
  apply runs_load
  apply runs_bind
  apply runs_kassert
  exact fun _ => hcreated

theorem runs_and {α : Type} {prog : Kernel Process α} {Q Q' : α → State Process → Prop}
    (h : Runs prog s Any Q) (h' : Runs prog s Any Q') :
    Runs prog s Any fun r s' => Q r s' ∧ Q' r s' :=
  (h.and h').mono (fun _ _ _ => trivial) fun _ _ hq => hq

/-- What holds between the calls. -/
structure Tied (boot : Memory) (bound : Nat) (role : Ppn → Role Process) (s : State Process) :
    Prop where
  sound : Sound boot bound role none s
  linked : Linked role s
  positive : ∀ page ∈ s.sharedPages, page.cnt ≠ 0
  created : ∀ p d, s.pagedir p = some d → s.created p = true

theorem Tied.grown (h : Tied boot bound role s) (hlaid : Laid boot bound role₁ s₁)
    (hgrown : Grown role s role₁ s₁) (hcreated : s₁.created = s.created) :
    Tied boot bound role₁ s₁ := by
  refine ⟨h.sound.grown hlaid hgrown, h.linked.grown h.sound.laid hgrown, ?_, ?_⟩
  · rw [hgrown.sharedPages]
    exact h.positive
  · rw [hgrown.pagedir, hcreated]
    exact h.created

theorem allocPageForVa_tied (h : Tied boot bound role s) (hd : s.pagedir p = some d)
    (hva : va < d.userMemBound → (getVpn va 2).val < bound) :
    Runs (allocPageForVa d va) s Any fun _ s' => ∃ role', Tied boot bound role' s' ∧
      s'.pagedir = s.pagedir ∧ s'.sharedPages = s.sharedPages := by
  unfold allocPageForVa
  split
  · exact runs_fail trivial
  · next hbelow =>
    have hva := hva (BitVec.not_le.mp hbelow)
    apply (runs_and (runs_lookup h.sound.laid hd hva) (lookup_created d va s)).bind
    rintro pte s₁ ⟨⟨role₁, hlaid₁, hgrown₁, -⟩, hcreated₁⟩
    have h₁ := h.grown hlaid₁ hgrown₁ hcreated₁
    apply runs_bind
    apply runs_load
    split
    · exact ⟨role₁, h₁, hgrown₁.pagedir, hgrown₁.sharedPages⟩
    · apply runs_bind
      apply runs_kalloc
      intro x rest hx
      obtain ⟨hlaid₂, hgrown₂⟩ := hlaid₁.take hx (Or.inr ⟨p, pageOf va, rfl⟩) rest
      have h₂ := h₁.grown hlaid₂ hgrown₂ rfl
      have hd₂ : s₁.pagedir p = some d := hgrown₁.pagedir ▸ hd
      apply (runs_and (runs_mapVaKva hlaid₂ hd₂ hva) (mapVaKva_created d va x _ _)).bind
      rintro - s' ⟨⟨role₃, s₃, y, hlaid₃, hgrown₃, hy, hreach, hinvalid, rfl⟩, hcreated₃⟩
      have h₃ := h₂.grown hlaid₃ hgrown₃ hcreated₃
      have hd₃ : s₃.pagedir p = some d := hgrown₃.pagedir ▸ hd₂
      have hx₃ : role₃ x = .frame p (pageOf va) :=
        hgrown₃.role_eq hlaid₂ (Function.update_self ..) nofun
      refine ⟨role₃, ⟨h₃.sound.writeNormal hd₃ hy hreach hinvalid hx₃,
        h₃.linked.write hlaid₃ hy hd₃ hreach, h₃.positive, h₃.created⟩, ?_, ?_⟩
      · exact hgrown₃.pagedir.trans hgrown₁.pagedir
      · exact hgrown₃.sharedPages.trans hgrown₁.sharedPages

/-- The shared pages that are no longer in the list have been given back. -/
def Releases (s s' : State Process) : Prop :=
  ∀ page ∈ s.sharedPages, (∃ page' ∈ s'.sharedPages, page'.kva = page.kva) ∨
    s'.block page.kva = .free

theorem releases_of_eq (h : s'.sharedPages = s.sharedPages) : Releases s s' :=
  fun page hpage => Or.inl ⟨page, h ▸ hpage, rfl⟩

/-- The outcome of a call. -/
def After (boot : Memory) (bound : Nat) (s s' : State Process) : Prop :=
  (∃ role', Tied boot bound role' s') ∧ Releases s s'

theorem after_of_eq (h : Tied boot bound role s') (hpages : s'.sharedPages = s.sharedPages) :
    After boot bound s s' :=
  ⟨⟨role, h⟩, releases_of_eq hpages⟩

variable [DecidableEq Process]

theorem createProcess_tied (h : Tied boot bound role s) :
    Runs (createProcess p) s Any fun _ s' => ∃ role', Tied boot bound role' s' ∧
      s'.sharedPages = s.sharedPages ∧
        ∀ d, s'.pagedir p = some d → d.userMemBound = 0x300000 := by
  unfold createProcess
  apply runs_bind
  apply runs_getState
  split
  · exact runs_fail trivial
  · next hnew =>
      have hnone : s.pagedir p = none := by
        by_contra hsome
        obtain ⟨d, hd⟩ := Option.ne_none_iff_exists'.mp hsome
        exact hnew (h.created p d hd)
      apply runs_bind
      apply runs_kalloc
      intro x rest hx
      refine ⟨_, ⟨h.sound.create hx, h.linked.create h.sound.laid hx hnone, h.positive, ?_⟩,
        rfl, ?_⟩
      · intro q c hc
        change Function.update s.pagedir p _ q = some c at hc
        change Function.update s.created p true q = true
        rcases eq_or_ne q p with rfl | hne
        · exact Function.update_self ..
        · rw [Function.update_of_ne hne] at hc ⊢
          exact h.created q c hc
      · intro d hd
        change Function.update s.pagedir p _ p = some d at hd
        rw [Function.update_self] at hd
        cases hd
        rfl

omit [DecidableEq Process] in
theorem loadTaskImg_tied (h : Tied boot bound role s) (hd : s.pagedir p = some d)
    (hva : ∀ va, va < d.userMemBound → (getVpn va 2).val < bound) {pages : Nat} :
    Runs (loadTaskImg d pages va) s Any fun _ s' => ∃ role', Tied boot bound role' s' ∧
      s'.pagedir = s.pagedir ∧ s'.sharedPages = s.sharedPages := by
  induction pages generalizing s role va with
  | zero => exact ⟨role, h, rfl, rfl⟩
  | succ pages ih =>
      unfold loadTaskImg
      apply (allocPageForVa_tied h hd (hva va)).bind
      rintro - s₁ ⟨role₁, h₁, hpagedir₁, hpages₁⟩
      apply (ih h₁ (hpagedir₁ ▸ hd)).mono (fun _ _ he => he)
      rintro - s₂ ⟨role₂, h₂, hpagedir₂, hpages₂⟩
      exact ⟨role₂, h₂, hpagedir₂.trans hpagedir₁, hpages₂.trans hpages₁⟩

theorem sysExec_tied (h : Tied boot bound role s) {pages : Nat} :
    Runs (sysExec p pages) s Any fun _ s' => After boot bound s s' := by
  unfold sysExec
  apply (createProcess_tied h).bind
  rintro - s₁ ⟨role₁, h₁, hpages₁, huserMemBound⟩
  apply runs_bind
  apply runs_pagedirOf
  intro d hd
  have hva : ∀ va, va < d.userMemBound → (getVpn va 2).val < bound := by
    intro va hlt
    rw [huserMemBound d hd, BitVec.lt_def] at hlt
    have hlt : va.toNat < 0x300000 := hlt
    have hrange := h.sound.laid.range.1
    rw [getVpn_val]
    omega
  apply (loadTaskImg_tied h₁ hd hva).bind
  rintro - s₂ ⟨role₂, h₂, hpagedir₂, hpages₂⟩
  apply (allocPageForVa_tied h₂ (hpagedir₂ ▸ hd) (hva _)).bind
  rintro - s₃ ⟨role₃, h₃, -, hpages₃⟩
  exact after_of_eq h₃ (hpages₃.trans (hpages₂.trans hpages₁))

omit [DecidableEq Process] in
theorem pageFault_tied (h : Tied boot bound role s)
    (hva : ∀ d, s.pagedir p = some d → va < d.userMemBound → (getVpn va 2).val < bound) :
    Runs (pageFault p va) s Any fun _ s' => After boot bound s s' := by
  unfold pageFault
  apply runs_bind
  apply runs_pagedirOf
  intro d hd
  apply (allocPageForVa_tied h hd (hva d hd)).bind
  rintro - s₁ ⟨role₁, h₁, -, hpages₁⟩
  exact after_of_eq h₁ hpages₁

theorem deleteProcess_tied (h : Tied boot bound role s)
    (hnone : ∀ a e x, UserMaps s p a e x → e.OSflag ≠ .shared) :
    Runs (deleteProcess p) s Any fun _ s' => After boot bound s s' := by
  unfold deleteProcess
  apply runs_bind
  apply runs_pagedirOf
  intro d hd
  apply (runs_freeUserRecur h.sound.laid hd (by decide)).bind
  rintro - s' rfl
  apply runs_modifyState
  refine after_of_eq ⟨h.sound.delete hd,
    h.linked.delete h.sound.laid hnone, h.positive, ?_⟩ rfl
  intro q c hc
  change Function.update s.pagedir p none q = some c at hc
  rcases eq_or_ne q p with rfl | hne
  · rw [Function.update_self] at hc
    cases hc
  · rw [Function.update_of_ne hne] at hc
    exact h.created q c hc

theorem Tied.setPagedir (h : Tied boot bound role s) (hd : s.pagedir p = some d) (d' : PageDir)
    (hroot : d'.root = d.root)
    (hstart : d'.sharedPageStart.toNat ≤ 2 ^ 38 + 2 ^ 30 ∧ d'.sharedPageStart.toNat % 4096 = 0) :
    Tied boot bound role { s with pagedir := Function.update s.pagedir p (some d') } := by
  refine ⟨h.sound.setPagedir hd d' hroot hstart, ?_, h.positive, ?_⟩
  · intro y q i j hy k hv hflag
    obtain ⟨c, hc, hreach⟩ := h.linked y q i j hy k hv hflag
    dsimp only
    rcases eq_or_ne q p with rfl | hne
    · rw [hd] at hc
      cases hc
      rw [← hroot] at hreach
      exact ⟨d', Function.update_self .., hreach⟩
    · exact ⟨c, (Function.update_of_ne hne ..).trans hc, hreach⟩
  · intro q c hc
    change Function.update s.pagedir p (some d') q = some c at hc
    rcases eq_or_ne q p with rfl | hne
    · exact h.created q d hd
    · rw [Function.update_of_ne hne] at hc
      exact h.created q c hc

theorem sysBrk_tied (h : Tied boot bound role s) {addr : Ptr} :
    Runs (sysBrk p addr) s Any fun _ s' => After boot bound s s' := by
  unfold sysBrk
  apply runs_bind
  apply runs_pagedirOf
  intro d hd
  exact after_of_eq (h.setPagedir hd { d with userMemBound := addr } rfl
    (h.sound.laid.starts p d hd)) rfl

theorem sysSbrk_tied (h : Tied boot bound role s) {increment : Ptr} :
    Runs (sysSbrk p increment) s Any fun _ s' => After boot bound s s' := by
  unfold sysSbrk
  apply runs_bind
  apply runs_pagedirOf
  intro d hd
  exact after_of_eq (h.setPagedir hd { d with userMemBound := d.userMemBound + increment } rfl
    (h.sound.laid.starts p d hd)) rfl

omit [DecidableEq Process] in
theorem Tied.setBlock (h : Tied boot bound role s) {block : Ppn → Block}
    (hblock : ∀ x, s.block x = .paging ∨ s.block x = .boot → block x = s.block x)
    {supply : List Ppn} : Tied boot bound role { s with block := block, supply := supply } :=
  ⟨h.sound.setBlock hblock, h.linked, h.positive, h.created⟩

omit [DecidableEq Process] in
theorem allocOther_tied (h : Tied boot bound role s) :
    Runs allocOther s Any fun _ s' => After boot bound s s' := by
  unfold allocOther
  apply runs_bind
  apply runs_kalloc
  intro page rest hfree
  apply runs_modifyState
  refine after_of_eq (h.setBlock ?_) rfl
  dsimp only
  rw [Function.update_idem]
  exact update_block (Or.inl hfree)

omit [DecidableEq Process] in
theorem freeOther_tied (h : Tied boot bound role s) {page : Ppn} :
    Runs (freeOther page) s Any fun _ s' => After boot bound s s' := by
  unfold freeOther
  apply runs_bind
  apply runs_getState
  split
  · next hkernel =>
      apply runs_modifyState
      exact after_of_eq (h.setBlock (update_block (Or.inr hkernel))) rfl
  · exact runs_fail trivial

omit [DecidableEq Process] in
theorem getSharedPage_tied (h : Tied boot bound role s) :
    Runs (getSharedPage key) s Any fun kva s' => ∃ role', Sound boot bound role' none s' ∧
      Linked role' s' ∧ role' kva = .shared key ∧ s'.pagedir = s.pagedir ∧
      s'.created = s.created ∧ (∀ page ∈ s'.sharedPages, page.key ≠ key → page.cnt ≠ 0) ∧
      ∀ page ∈ s.sharedPages, page ∈ s'.sharedPages := by
  unfold getSharedPage
  apply runs_bind
  apply runs_getState
  split
  · next page hfind =>
      have hkey : page.key = key := by simpa using List.find?_some hfind
      refine ⟨role, h.sound, h.linked, ?_, rfl, rfl, fun page hpage _ => h.positive page hpage,
        fun _ hpage => hpage⟩
      rw [h.sound.laid.role_kva (List.mem_of_find?_eq_some hfind), hkey]
  · next hfind =>
      apply runs_bind
      apply runs_kalloc
      intro x rest hx
      obtain ⟨hlaid, hgrown⟩ := h.sound.laid.take hx (Or.inl rfl) rest
      have h₁ := h.grown hlaid hgrown rfl
      have hnew : ∀ page ∈ s.sharedPages, page.key ≠ key := by
        intro page hpage
        simpa using List.find?_eq_none.mp hfind page hpage
      refine ⟨_, h₁.sound.push (Function.update_self ..) (Function.update_self ..) hnew,
        h₁.linked.updateRole nofun, Function.update_self .., rfl, rfl, ?_, ?_⟩
      · intro page hpage hne
        rcases List.mem_append.mp hpage with hold | hlast
        · exact h.positive page hold
        · rw [List.mem_singleton.mp hlast] at hne
          exact absurd rfl hne
      · exact fun page hpage => List.mem_append_left _ hpage

/-- The list of shared pages after one of them has been counted up. -/
def countedUp (key : Ptr) (pages : List SharedPage) : List SharedPage :=
  updateFirst (·.key == key) (fun page => some { page with cnt := page.cnt + 1 }) pages

omit [DecidableEq Process] in
theorem mem_countedUp (hs : Laid boot bound role s) {page : SharedPage} :
    page ∈ countedUp key s.sharedPages ↔ (page ∈ s.sharedPages ∧ page.key ≠ key) ∨
      ∃ old ∈ s.sharedPages, old.key = key ∧ page = { old with cnt := old.cnt + 1 } := by
  unfold countedUp
  rw [mem_updateFirst (hs.unique_key key)]
  simp only [beq_eq_false_iff_ne, beq_iff_eq, Option.some.injEq, eq_comm (b := page)]

omit [DecidableEq Process] in
theorem positive_countedUp (hs : Sound boot bound role none s)
    (hold : ∀ page ∈ s.sharedPages, page.key ≠ key → page.cnt ≠ 0) :
    ∀ page ∈ countedUp key s.sharedPages, page.cnt ≠ 0 := by
  intro page hpage hzero
  have hcounted := (hs.countUp key).counted page hpage
  rw [hzero] at hcounted
  rcases (mem_countedUp hs.laid).mp hpage with ⟨hmem, hne⟩ | ⟨old, -, rfl, rfl⟩
  · exact hold page hmem hne hzero
  · rw [if_pos rfl] at hcounted
    cases hcounted

omit [DecidableEq Process] in
theorem kva_countedUp (hs : Laid boot bound role s) {page : SharedPage}
    (hpage : page ∈ s.sharedPages) :
    ∃ page' ∈ countedUp key s.sharedPages, page'.kva = page.kva := by
  rcases eq_or_ne page.key key with heq | hne
  · exact ⟨_, (mem_countedUp hs).mpr (Or.inr ⟨page, hpage, heq, rfl⟩), rfl⟩
  · exact ⟨page, (mem_countedUp hs).mpr (Or.inl ⟨hpage, hne⟩), rfl⟩

theorem sysShmpageget_tied {key : BitVec 32} (h : Tied boot bound role s)
    (hva : ∀ d, s.pagedir p = some d →
      (getVpn d.sharedPageStart 2).val < bound ∨ (getVpn d.sharedPageStart 2).val = 257) :
    Runs (sysShmpageget p key) s Any fun va s' =>
      After boot bound s (s'.recordAttached p va (some key)) := by
  unfold sysShmpageget
  apply (getSharedPage_tied h).bind
  rintro x s₁ ⟨role₁, hs₁, hlinked₁, hx₁, hpagedir₁, hcreated₁, hpositive₁, hkept₁⟩
  apply runs_bind
  apply runs_modifyState
  have hs₂ := hs₁.countUp (key.signExtend 64)
  unfold attachSharedPage
  apply runs_bind
  apply runs_bind
  apply runs_pagedirOf
  intro d hd
  have hd₁ : s₁.pagedir p = some d := hd
  have hstart := hs₁.laid.starts p d hd₁
  rcases Nat.lt_or_ge (getVpn d.sharedPageStart 2).val bound with hlow | hhigh
  · apply runs_bind
    apply (runs_and (runs_mapVaKva hs₂.laid hd hlow) (mapVaKva_created _ _ _ _ _)).mono
      (fun _ _ he => he)
    rintro - s' ⟨⟨role₃, s₃, y, hlaid₃, hgrown₃, hy, hreach, hinvalid, rfl⟩, hcreated₃⟩
    have hs₃ := hs₂.grown hlaid₃ hgrown₃
    have hlinked₃ : Linked role₃ s₃ := Linked.grown (s := { s₁ with
      sharedPages := countedUp (key.signExtend 64) s₁.sharedPages }) hlinked₁ hs₂.laid hgrown₃
    have hd₃ : s₃.pagedir p = some d := by
      rw [hgrown₃.pagedir]
      exact hd
    have hs₄ := hs₃.attach hd₃ hy hreach hinvalid (hgrown₃.role_eq hs₂.laid hx₁ nofun)
    have hpages₃ : s₃.sharedPages = countedUp (key.signExtend 64) s₁.sharedPages :=
      hgrown₃.sharedPages
    have h₄ : Tied boot bound role₃
        { s₃ with
          memory := writeEntry s₃.memory (y, (pageOf d.sharedPageStart).vpn0) (sharedLeaf x)
          attached := Function.update s₃.attached p
            (Function.update (s₃.attached p) (pageOf d.sharedPageStart) (some key)) } := by
      refine ⟨hs₄, hlinked₃.write hlaid₃ hy hd₃ hreach, ?_, ?_⟩
      · rw [hpages₃]
        exact positive_countedUp hs₁ hpositive₁
      · intro q c hc
        change s₃.pagedir q = some c at hc
        change s₃.created q = true
        rw [hgrown₃.pagedir] at hc
        change s₁.pagedir q = some c at hc
        change s₃.created = s₁.created at hcreated₃
        rw [hcreated₃, hcreated₁]
        exact h.created q c (hpagedir₁ ▸ hc)
    refine ⟨⟨role₃, h₄.setPagedir hd₃ { d with sharedPageStart := d.sharedPageStart + 4096 } rfl
      (start_next h.sound.laid.range.2 hlow hstart)⟩, fun page hpage => Or.inl ?_⟩
    obtain ⟨page', hpage', hkva⟩ : ∃ page' ∈ countedUp (key.signExtend 64) s₁.sharedPages,
        page'.kva = page.kva := kva_countedUp hs₁.laid (hkept₁ page hpage)
    exact ⟨page', hpages₃ ▸ hpage', hkva⟩
  · have hdirect : (getVpn d.sharedPageStart 2).val = 257 := by
      rcases hva d (hpagedir₁ ▸ hd₁) with hlow | heq
      · exact absurd hlow (Nat.not_lt.mpr hhigh)
      · exact heq
    have hkernel := hs₂.laid.kernelHalf p d hd _ hhigh
    obtain ⟨hv, hleaf⟩ := hs₂.laid.kernel.direct _ hdirect
    apply runs_bind
    apply (runs_mapVaKva_leaf (hkernel ▸ hleaf) (hkernel ▸ hv)).mono (fun _ _ he => he)
    exact fun _ _ he => he.elim

omit [DecidableEq Process] in
theorem dropSharedPage_tied (hs : Sound boot bound role pending s) (hlinked : Linked role s)
    (hpositive : ∀ page ∈ s.sharedPages, page.cnt ≠ 0)
    (hcreated : ∀ p d, s.pagedir p = some d → s.created p = true)
    (hx : (pending = none ∧ ∀ key, role x ≠ .shared key) ∨
      ∃ key, pending = some key ∧ role x = .shared key) :
    Runs (dropSharedPage x) s Any fun _ s' => After boot bound s s' := by
  unfold dropSharedPage
  apply runs_bind
  apply runs_getState
  split
  · next hfind =>
      rcases hx with ⟨rfl, -⟩ | ⟨key, rfl, hrole⟩
      · exact after_of_eq ⟨hs, hlinked, hpositive, hcreated⟩ rfl
      · obtain ⟨page, hpage, hkva, -⟩ := (hs.laid.shared x key).mp hrole
        exact absurd (beq_iff_eq.mpr hkva) (List.find?_eq_none.mp hfind page hpage)
  · next page hfind =>
      have hpage := List.mem_of_find?_eq_some hfind
      have hkva : page.kva = x := by simpa using List.find?_some hfind
      have hrole := hs.laid.role_kva hpage
      rw [hkva] at hrole
      obtain rfl : pending = some page.key := by
        rcases hx with ⟨-, hnot⟩ | ⟨key, rfl, hkey⟩
        · exact absurd hrole (hnot _)
        · rw [hrole] at hkey
          injection hkey with hkey
          rw [hkey]
      subst hkva
      have hpositive' : ∀ b ∈ countedDown page.kva s.sharedPages, b.cnt ≠ 0 := by
        intro b hb
        rcases (hs.mem_countedDown hpage).mp hb with ⟨hold, -⟩ | ⟨hcnt, rfl⟩
        · exact hpositive b hold
        · exact hcnt
      have hothers : ∀ b ∈ s.sharedPages, b.kva ≠ page.kva →
          ∃ b' ∈ countedDown page.kva s.sharedPages, b'.kva = b.kva :=
        fun b hb hne => ⟨b, (hs.mem_countedDown hpage).mpr (Or.inl ⟨hb, hne⟩), rfl⟩
      apply runs_bind
      apply runs_modifyState
      split
      · next hcnt =>
          refine ⟨⟨_, hs.remove hpage hcnt, hlinked.updateRole nofun, hpositive', hcreated⟩, ?_⟩
          intro b hb
          rcases eq_or_ne b.kva page.kva with heq | hne
          · rw [heq]
            exact Or.inr (Function.update_self ..)
          · exact Or.inl (hothers b hb hne)
      · next hcnt =>
          refine ⟨⟨_, hs.countDown hpage hcnt, hlinked, hpositive', hcreated⟩, ?_⟩
          intro b hb
          rcases eq_or_ne b.kva page.kva with heq | hne
          · rw [heq]
            exact Or.inl ⟨_, (hs.mem_countedDown hpage).mpr (Or.inr ⟨hcnt, rfl⟩), rfl⟩
          · exact Or.inl (hothers b hb hne)

theorem sysShmpagedt_tied (h : Tied boot bound role s) (hva : (getVpn va 2).val < bound) :
    Runs (sysShmpagedt p va) s Any fun _ s' =>
      After boot bound s (s'.recordAttached p va none) := by
  unfold sysShmpagedt
  apply runs_bind
  apply runs_pagedirOf
  intro d hd
  unfold freeSharedPage
  apply runs_bind
  apply (runs_and (runs_lookup h.sound.laid hd hva) (lookup_created d va s)).bind
  rintro ⟨y, k⟩ s₁ ⟨⟨role₁, hlaid₁, hgrown₁, hk, hy, hreach⟩, hcreated₁⟩
  dsimp only at hk hy hreach
  subst hk
  have h₁ := h.grown hlaid₁ hgrown₁ hcreated₁
  have hd₁ : s₁.pagedir p = some d := hgrown₁.pagedir ▸ hd
  apply runs_bind
  apply runs_load
  apply runs_bind
  apply runs_kassert
  intro hvalid
  apply runs_bind
  apply runs_modifyState
  apply runs_pure
  obtain ⟨pending, hs₂, hpending⟩ := h₁.sound.detach hd₁ hy hreach hvalid
  apply runs_dropSharedPage_recorded
  refine (dropSharedPage_tied hs₂ (h₁.linked.write hlaid₁ hy hd₁ hreach) h₁.positive h₁.created
    hpending).mono (fun _ _ he => he) ?_
  rintro - s' ⟨htied, hreleases⟩
  exact ⟨htied, fun page hpage => hreleases page (hgrown₁.sharedPages ▸ hpage)⟩

/-- The process maps a shared page at the page `a`. -/
def MapsShared (s : State Process) (p : Process) (a : VirtualPage) : Prop :=
  ∃ d ∈ s.pagedir p, ∃ r ∈ translation s.memory d.root a, r.1.U = true ∧ r.1.OSflag = .shared

/-- `sys_shmpagedt` is called for shared pages only, and page faults are below
the end of the user half. -/
def Proper (s : State Process) (a : Action Process) : Prop :=
  match a.call with
  | .pageFault _ stval => stval.toNat < 2 ^ 38
  | .shmpagedt p va => MapsShared s p (pageOf va)
  | _ => True

/-- A process that ends has detached its shared pages. -/
def Detached (s : State Process) (a : Action Process) : Prop :=
  match a.call with
  | .deleteProcess p => ∀ page, ¬MapsShared s p page
  | _ => True

def Orderly (s : State Process) (a : Action Process) : Prop := Proper s a ∧ Detached s a

omit [DecidableEq Process] in
theorem mapsShared_iff : MapsShared s p a ↔ ∃ e x, UserMaps s p a e x ∧ e.OSflag = .shared := by
  constructor
  · rintro ⟨d, hd, ⟨e, x⟩, htranslate, hu, hflag⟩
    exact ⟨e, x, ⟨d, hd, htranslate, hu⟩, hflag⟩
  · rintro ⟨e, x, ⟨d, hd, htranslate, hu⟩, hflag⟩
    exact ⟨d, hd, (e, x), htranslate, hu, hflag⟩

theorem perform_tied {call : Call Process} {supply : List Ppn} (h : Tied boot 257 role s)
    (hproper : Proper s ⟨call, supply⟩) (hdetached : Detached s ⟨call, supply⟩) :
    Runs (perform call) s Any fun _ s' => After boot 257 s s' := by
  cases call with
  | createProcess p =>
      apply (createProcess_tied h).mono (fun _ _ he => he)
      rintro - s' ⟨role', h', hpages, -⟩
      exact after_of_eq h' hpages
  | exec p pages => exact sysExec_tied h
  | deleteProcess p =>
      refine deleteProcess_tied h fun a e x hmaps hflag => ?_
      exact hdetached a (mapsShared_iff.mpr ⟨e, x, hmaps, hflag⟩)
  | pageFault p stval => exact pageFault_tied h fun _ _ _ => getVpn_lt_of_lt hproper
  | brk p addr => exact sysBrk_tied h
  | sbrk p increment => exact sysSbrk_tied h
  | shmpageget p key =>
      apply runs_bind
      refine sysShmpageget_tied h fun d hd => ?_
      have hstart := h.sound.laid.starts p d hd
      rw [getVpn_val]
      omega
  | shmpagedt p va =>
      obtain ⟨d, hd, ⟨e, x⟩, htranslate, hu, -⟩ := hproper
      obtain ⟨-, hlow, -⟩ := h.sound.laid.userLeaf hd htranslate hu
      apply runs_bind
      exact sysShmpagedt_tied h hlow
  | allocOther => exact allocOther_tied h
  | freeOther page => exact freeOther_tied h

theorem next_tied {a : Action Process} (h : Tied boot 257 role s) (hallowed : Orderly s a)
    (hstep : next s a = some s') : After boot 257 s s' := by
  have h₁ : Tied boot 257 role { s with supply := a.supply } := h.setBlock fun _ _ => rfl
  have hruns : Runs (perform a.call) { s with supply := a.supply } Any fun _ s' =>
      After boot 257 { s with supply := a.supply } s' := by
    have hproper : Proper { s with supply := a.supply } ⟨a.call, a.supply⟩ := hallowed.1
    have hdetached : Detached { s with supply := a.supply } ⟨a.call, a.supply⟩ := hallowed.2
    exact perform_tied h₁ hproper hdetached
  unfold next at hstep
  split at hstep
  · next hrun =>
      cases hstep
      exact hruns.ok hrun
  · cases hstep

/-- Every shared page counts its mappings, no key has two pages, and the pages
in the list are the ones that are mapped. -/
structure Accounted (s : State Process) : Prop where
  cnt : ∀ page ∈ s.sharedPages, page.cnt.toNat = (sharedLeaves s page.kva).ncard
  keys : (s.sharedPages.map SharedPage.key).Nodup
  used : ∀ page ∈ s.sharedPages, (sharedLeaves s page.kva).Nonempty ∧ s.block page.kva = .paging
  listed : ∀ x, (sharedLeaves s x).Nonempty → ∃ page ∈ s.sharedPages, page.kva = x

omit [DecidableEq Process] in
theorem Tied.accounted (h : Tied boot bound role s) : Accounted s := by
  have hcnt : ∀ page ∈ s.sharedPages, page.cnt.toNat = (sharedLeaves s page.kva).ncard := by
    intro page hpage
    rw [ncard_sharedLeaves h.sound.laid h.linked, h.sound.counted page hpage, if_neg nofun]
    rfl
  refine ⟨hcnt, h.sound.laid.keys, fun page hpage => ⟨?_, ?_⟩, ?_⟩
  · rw [Set.nonempty_iff_ne_empty]
    intro hempty
    have hzero := hcnt page hpage
    rw [hempty, Set.ncard_empty] at hzero
    exact h.positive page hpage (BitVec.eq_of_toNat_eq hzero)
  · apply h.sound.laid.owned
    rw [h.sound.laid.role_kva hpage]
    exact nofun
  · rintro x ⟨⟨p, a⟩, e, hmaps, hflag⟩
    rcases Sound.userMaps h.sound hmaps with ⟨hnormal, -⟩ | ⟨-, key, -, hrole⟩
    · rw [hflag] at hnormal
      cases hnormal
    · obtain ⟨page, hpage, hkva, -⟩ := (h.sound.laid.shared x _).mp hrole
      exact ⟨page, hpage, hkva⟩

variable {ioremaps : List (Ptr × Ptr)}

theorem tied_of_orderly (h : ReachableUnder (system ioremaps) Orderly s) :
    ∃ role, Tied (bootMemory ioremaps) 257 role s := by
  apply h.invariant (P := fun s => ∃ role, Tied (bootMemory ioremaps) 257 role s)
  · rintro s rfl
    exact ⟨_, sound_initial ioremaps (by decide), nofun, nofun, nofun⟩
  · rintro s a s' ⟨role, h⟩ hallowed hstep
    exact (next_tied h hallowed hstep).1

/-- In every run in which processes detach their shared pages before they
end, the counters are right, and a shared page is given back with its last
mapping. -/
theorem accounted_of_orderly (h : ReachableUnder (system ioremaps) Orderly s) :
    Accounted s ∧ ∀ a s', Orderly s a → next s a = some s' → ∀ page ∈ s.sharedPages,
      s'.block page.kva = .free ↔ sharedLeaves s' page.kva = ∅ := by
  obtain ⟨role, htied⟩ := tied_of_orderly h
  refine ⟨htied.accounted, fun a s' hallowed hstep page hpage => ?_⟩
  obtain ⟨⟨role', htied'⟩, hreleases⟩ := next_tied htied hallowed hstep
  have haccounted := htied'.accounted
  constructor
  · intro hfree
    by_contra hne
    obtain ⟨page', hpage', hkva⟩ := haccounted.listed _ (Set.nonempty_iff_ne_empty.mpr hne)
    have hblock := (haccounted.used page' hpage').2
    rw [hkva, hfree] at hblock
    cases hblock
  · intro hempty
    rcases hreleases page hpage with ⟨page', hpage', hkva⟩ | hfree
    · have hsome := (haccounted.used page' hpage').1
      rw [hkva, hempty] at hsome
      exact absurd hsome Set.not_nonempty_empty
    · exact hfree

theorem forall_translation {P : PageEntry → Prop} {root : Ppn} :
    (∀ a, ∀ r ∈ translation m root a, P r.1) ↔
      ∀ i, (m root i).V = true → if (m root i).XWR ≠ .noleaf then P (m root i) else
        ∀ j, (m (m root i).ppn j).V = true →
          if (m (m root i).ppn j).XWR ≠ .noleaf then P (m (m root i).ppn j) else
            ∀ k, ¬((m (m (m root i).ppn j).ppn k).V = false ∨
              (m (m (m root i).ppn j).ppn k).XWR = .noleaf) →
                P (m (m (m root i).ppn j).ppn k) := by
  constructor
  · intro h i hv
    split
    · next hleaf =>
        refine h ⟨i, 0, 0⟩ (m root i, (m root i).ppn +
          BitVec.ofNat 44 ((0 : Fin 512).val * 512 + (0 : Fin 512).val)) ?_
        simp only [Option.mem_def, translation, hv, Bool.true_eq_false, if_false, if_pos hleaf]
    · next hdir =>
        intro j hv'
        split
        · next hleaf =>
            refine h ⟨i, j, 0⟩ (m (m root i).ppn j, (m (m root i).ppn j).ppn +
              BitVec.ofNat 44 (0 : Fin 512).val) ?_
            simp only [Option.mem_def, translation, hv, hv', Bool.true_eq_false, if_false,
              if_neg hdir, if_pos hleaf]
        · next hdir' =>
            intro k hvalid
            refine h ⟨i, j, k⟩ (m (m (m root i).ppn j).ppn k, (m (m (m root i).ppn j).ppn k).ppn) ?_
            simp only [Option.mem_def, translation, hv, hv', Bool.true_eq_false, if_false,
              if_neg hdir, if_neg hdir', if_neg hvalid]
  · rintro h a ⟨e, x⟩ htranslate
    unfold translation at htranslate
    dsimp only at htranslate ⊢
    obtain ⟨hv, htranslate⟩ := Option.ite_none_left_eq_some.mp htranslate
    have htop := h a.vpn2 (Bool.eq_true_of_not_eq_false hv)
    split at htranslate
    · next hleaf =>
        cases htranslate
        rwa [if_pos hleaf] at htop
    · next hdir =>
        rw [if_neg hdir] at htop
        obtain ⟨hv', htranslate⟩ := Option.ite_none_left_eq_some.mp htranslate
        have hmiddle := htop a.vpn1 (Bool.eq_true_of_not_eq_false hv')
        split at htranslate
        · next hleaf =>
            cases htranslate
            rwa [if_pos hleaf] at hmiddle
        · next hdir' =>
            rw [if_neg hdir'] at hmiddle
            obtain ⟨hvalid, htranslate⟩ := Option.ite_none_left_eq_some.mp htranslate
            cases htranslate
            exact hmiddle a.vpn0 hvalid

def Unshared (e : PageEntry) : Prop := ¬(e.U = true ∧ e.OSflag = .shared)

instance : DecidablePred Unshared := fun e =>
  inferInstanceAs (Decidable (¬(e.U = true ∧ e.OSflag = .shared)))

omit [DecidableEq Process] in
theorem not_mapsShared_iff : (∀ a, ¬MapsShared s p a) ↔
    ∀ d ∈ s.pagedir p, ∀ a, ∀ r ∈ translation s.memory d.root a, Unshared r.1 := by
  constructor
  · exact fun h d hd a r hr hboth => h a ⟨d, hd, r, hr, hboth⟩
  · rintro h a ⟨d, hd, r, hr, hboth⟩
    exact h d hd a r hr hboth

instance (m : Memory) (root : Ppn) : Decidable (∀ a, ∀ r ∈ translation m root a, Unshared r.1) :=
  decidable_of_iff' _ forall_translation

instance (s : State Process) (p : Process) : Decidable (∀ a, ¬MapsShared s p a) :=
  decidable_of_iff' _ not_mapsShared_iff

instance (s : State Process) (p : Process) (a : VirtualPage) : Decidable (MapsShared s p a) :=
  inferInstanceAs (Decidable (∃ d ∈ s.pagedir p, ∃ r ∈ translation s.memory d.root a,
    r.1.U = true ∧ r.1.OSflag = .shared))

instance : ∀ (s : State Process) (a : Action Process), Decidable (Proper s a)
  | _, ⟨.pageFault _ stval, _⟩ => inferInstanceAs (Decidable (stval.toNat < 2 ^ 38))
  | s, ⟨.shmpagedt p va, _⟩ => inferInstanceAs (Decidable (MapsShared s p (pageOf va)))
  | _, ⟨.shmpageget _ _, _⟩ => isTrue trivial
  | _, ⟨.createProcess _, _⟩ => isTrue trivial
  | _, ⟨.exec _ _, _⟩ => isTrue trivial
  | _, ⟨.deleteProcess _, _⟩ => isTrue trivial
  | _, ⟨.brk _ _, _⟩ => isTrue trivial
  | _, ⟨.sbrk _ _, _⟩ => isTrue trivial
  | _, ⟨.allocOther, _⟩ => isTrue trivial
  | _, ⟨.freeOther _, _⟩ => isTrue trivial

instance : ∀ (s : State Process) (a : Action Process), Decidable (Detached s a)
  | s, ⟨.deleteProcess p, _⟩ => inferInstanceAs (Decidable (∀ a, ¬MapsShared s p a))
  | _, ⟨.pageFault _ _, _⟩ => isTrue trivial
  | _, ⟨.shmpagedt _ _, _⟩ => isTrue trivial
  | _, ⟨.shmpageget _ _, _⟩ => isTrue trivial
  | _, ⟨.createProcess _, _⟩ => isTrue trivial
  | _, ⟨.exec _ _, _⟩ => isTrue trivial
  | _, ⟨.brk _ _, _⟩ => isTrue trivial
  | _, ⟨.sbrk _ _, _⟩ => isTrue trivial
  | _, ⟨.allocOther, _⟩ => isTrue trivial
  | _, ⟨.freeOther _, _⟩ => isTrue trivial

instance (s : State Process) (a : Action Process) : Decidable (Orderly s a) :=
  inferInstanceAs (Decidable (Proper s a ∧ Detached s a))

theorem neZero_two : @NeZero Nat Zero.ofOfNat0 2 := ⟨by decide⟩

attribute [local instance] neZero_two in
/-- Both processes attach the page of key 5. -/
def attaching : List (Action (Fin 2)) :=
  [⟨.createProcess 0, [0x60000]⟩, ⟨.createProcess 1, [0x60010]⟩,
    ⟨.shmpageget 0 5, [0x60030, 0x60001, 0x60002]⟩, ⟨.shmpageget 1 5, [0x60011, 0x60012]⟩]

/-- The first process detaches the page and ends. -/
theorem detached_end_accounted :
    let s := permittedState Orderly next (initial []) (attaching ++
      [⟨.shmpagedt 0 0x2000000000, []⟩, ⟨.deleteProcess 0, []⟩])
    s.sharedPages = [⟨5, 0x60030, 1⟩] ∧ s.pagedir 0 = none ∧ Accounted s :=
  ⟨by decide +kernel, by decide +kernel,
    (accounted_of_orderly (permittedState_reachableUnder (start_initial _) _)).1⟩

/-- Both processes end with the page attached. -/
theorem attached_end_not_accounted :
    ¬ ∀ s : State (Fin 2), ReachableUnder (system []) Proper s → Accounted s := by
  intro hall
  let s := permittedState Proper next (initial [])
    (attaching ++ [⟨.deleteProcess 0, []⟩, ⟨.deleteProcess 1, []⟩])
  have haccounted := hall s (permittedState_reachableUnder (start_initial _) _)
  have hpages : s.sharedPages = [⟨5, 0x60030, 2⟩] := by decide +kernel
  have hdead : ∀ p, s.pagedir p = none := by decide +kernel
  obtain ⟨⟨⟨p, a⟩, e, ⟨d, hd, -⟩, -⟩, -⟩ :=
    haccounted.used ⟨5, 0x60030, 2⟩ (hpages ▸ List.mem_singleton_self _)
  rw [Option.mem_def, hdead p] at hd
  cases hd

end LabKernel.SharedPages
