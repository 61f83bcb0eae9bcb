import LabKernel.AddressSpace

/-!
The calls that change address spaces keep their layout, count the attachments
of shared pages, and attach shared pages only for their callers.
-/

namespace LabKernel.PageCalls

open LabKernel.AddressSpace
open LabKernel.PageTable
open LabKernel.ProgramLogic

variable {Process : Type} {boot : Memory} {bound : Nat} {role role₁ : Ppn → Role Process}
  {s s₁ : State Process} {p p' : Process} {d d' : PageDir} {m : Memory} {r x y : Ppn}
  {a a' : VirtualPage} {e : PageEntry} {va key : Ptr} {pending : Option Ptr}

/-- The layout is right, every shared page counts its attachments, and every
process has obtained the shared pages that it maps.  A page with the key
`pending` is counted once more than it is attached. -/
structure Sound (boot : Memory) (bound : Nat) (role : Ppn → Role Process) (pending : Option Ptr)
    (s : State Process) : Prop where
  laid : Laid boot bound role s
  counted : ∀ page ∈ s.sharedPages, page.cnt.toNat =
    (attachments role s.memory page.kva).ncard + if pending = some page.key then 1 else 0
  attached : ∀ p d, s.pagedir p = some d → ∀ a e x, translation s.memory d.root a = some (e, x) →
    e.U = true → e.OSflag = .shared →
      ∃ key, s.attached p a = some key ∧ role x = .shared (key.signExtend 64)

theorem Sound.grown (hs : Sound boot bound role pending s) (hlaid : Laid boot bound role₁ s₁)
    (hgrown : Grown role s role₁ s₁) : Sound boot bound role₁ pending s₁ := by
  refine ⟨hlaid, ?_, ?_⟩
  · intro page hpage
    rw [hgrown.attachments]
    exact hs.counted page (hgrown.sharedPages ▸ hpage)
  · intro p d hd a e x htranslate hu hflag
    rw [hgrown.pagedir] at hd
    rw [hgrown.translate p d hd] at htranslate
    obtain ⟨key, hkey, hrole⟩ := hs.attached p d hd a e x htranslate hu hflag
    exact ⟨key, hgrown.attached ▸ hkey, hgrown.role_eq hs.laid hrole nofun⟩

/-- A private page is mapped at an address without a mapping. -/
theorem Sound.writeNormal (hs : Sound boot bound role pending s) (hd : s.pagedir p = some d)
    (hy : role y = .leaves p a.vpn2 a.vpn1) (hreach : Reaches s.memory d.root a y)
    (hinvalid : (s.memory y a.vpn0).V = false) (hx : role x = .frame p a) :
    Sound boot bound role pending
      { s with memory := writeEntry s.memory (y, a.vpn0) (.setAsLeaf x) } := by
  have hself : writeEntry s.memory (y, a.vpn0) (.setAsLeaf x) y a.vpn0 = .setAsLeaf x := if_pos rfl
  refine ⟨hs.laid.writeLeaf hy fun _ => ⟨nofun, rfl, Or.inl ⟨rfl, hx⟩⟩, ?_, ?_⟩
  · intro page hpage
    have hnot : (y, a.vpn0) ∉ attachments role s.memory page.kva := by
      rintro ⟨-, hv, -⟩
      rw [hinvalid] at hv
      cases hv
    have hflag : ¬((PageEntry.setAsLeaf x).V = true ∧ (PageEntry.setAsLeaf x).OSflag = .shared ∧
        (PageEntry.setAsLeaf x).ppn = page.kva) := by
      rintro ⟨-, hflag, -⟩
      cases hflag
    rw [attachments_write_other hflag, Set.sdiff_singleton_eq_self hnot]
    exact hs.counted page hpage
  · intro p' d' hd' a' e' x' htranslate hu hflag
    dsimp only at htranslate hd'
    rcases Classical.em (p' = p ∧ a' = a) with ⟨rfl, rfl⟩ | hne
    · rw [hd] at hd'
      cases hd'
      rw [Reaches.translate (hs.laid.reaches_writeEntry hd hy hreach _), hself] at htranslate
      simp only [PageEntry.setAsLeaf] at htranslate
      cases htranslate
      cases hflag
    · rw [hs.laid.translate_writeEntry hy hd' hne] at htranslate
      exact hs.attached p' d' hd' a' e' x' htranslate hu hflag

/-- The page is mapped in a table of the last level. -/
theorem runs_mapVaKva (hs : Laid boot bound role s) (hd : s.pagedir p = some d)
    (hva : (getVpn va 2).val < bound) {osflag : PageOSFlag} :
    Runs (mapVaKva d va x osflag) s Any fun _ s' =>
      ∃ role₁ s₁ y, Laid boot bound role₁ s₁ ∧ Grown role s role₁ s₁ ∧
        role₁ y = .leaves p (getVpn va 2) (getVpn va 1) ∧
        Reaches s₁.memory d.root (pageOf va) y ∧ (s₁.memory y (getVpn va 0)).V = false ∧
        s' = { s₁ with
          memory := writeEntry s₁.memory (y, getVpn va 0)
            { PageEntry.setAsLeaf x with OSflag := osflag } } := by
  unfold mapVaKva
  apply (runs_lookup hs hd hva).bind
  rintro ⟨y, k⟩ s₁ ⟨role₁, hs₁, hgrown, hk, hy, hreach⟩
  dsimp only at hk hy hreach
  subst hk
  apply runs_bind
  apply runs_load
  apply runs_bind
  apply runs_kassert
  intro hinvalid
  exact ⟨role₁, s₁, y, hs₁, hgrown, hy, hreach, by simpa using hinvalid, rfl⟩

theorem runs_allocPageForVa (hs : Sound boot bound role pending s) (hd : s.pagedir p = some d)
    (hva : va < d.userMemBound → (getVpn va 2).val < bound) :
    Runs (allocPageForVa d va) s Any fun _ s' =>
      ∃ role', Sound boot bound role' pending s' ∧ s'.pagedir = s.pagedir := by
  unfold allocPageForVa
  split
  · exact runs_fail trivial
  · next hbelow =>
    have hva := hva (BitVec.not_le.mp hbelow)
    apply (runs_lookup hs.laid hd hva).bind
    rintro pte s₁ ⟨role₁, hlaid₁, hgrown₁, -⟩
    have hs₁ := hs.grown hlaid₁ hgrown₁
    apply runs_bind
    apply runs_load
    split
    · exact ⟨role₁, hs₁, hgrown₁.pagedir⟩
    · apply runs_bind
      apply runs_kalloc
      intro x rest hx
      obtain ⟨hlaid₂, hgrown₂⟩ := hlaid₁.take hx (Or.inr ⟨p, pageOf va, rfl⟩) rest
      have hs₂ := hs₁.grown hlaid₂ hgrown₂
      have hd₂ : s₁.pagedir p = some d := hgrown₁.pagedir ▸ hd
      apply (runs_mapVaKva hlaid₂ hd₂ hva).bind
      rintro - s' ⟨role₃, s₃, y, hlaid₃, hgrown₃, hy, hreach, hinvalid, rfl⟩
      have hs₃ := hs₂.grown hlaid₃ hgrown₃
      have hx₃ : role₃ x = .frame p (pageOf va) :=
        hgrown₃.role_eq hlaid₂ (Function.update_self ..) nofun
      refine ⟨role₃, hs₃.writeNormal (hgrown₃.pagedir ▸ hd₂) hy hreach hinvalid hx₃, ?_⟩
      exact hgrown₃.pagedir.trans hgrown₁.pagedir

theorem update_update_of_ne {α β γ : Type} [DecidableEq α] [DecidableEq β] {f : α → β → γ}
    {a a' : α} {b b' : β} {c : γ} (hne : ¬(a' = a ∧ b' = b)) :
    Function.update f a (Function.update (f a) b c) a' b' = f a' b' := by
  rcases eq_or_ne a' a with rfl | ha
  · rw [Function.update_self, Function.update_of_ne fun hb => hne ⟨rfl, hb⟩]
  · rw [Function.update_of_ne ha]

def ppnEquiv : Ppn ≃ Fin (2 ^ 44) where
  toFun := BitVec.toFin
  invFun := BitVec.ofFin
  left_inv _ := rfl
  right_inv _ := rfl

instance : Finite Ppn := Finite.of_equiv _ ppnEquiv.symm

theorem card_attachments_le (role : Ppn → Role Process) (m : Memory) (x : Ppn) :
    (attachments role m x).ncard ≤ 2 ^ 53 := by
  have hcard : Nat.card (Ppn × Fin 512) = 2 ^ 53 := by
    rw [Nat.card_prod, Nat.card_congr ppnEquiv, Nat.card_fin, Nat.card_fin]
    rfl
  exact hcard ▸ Set.ncard_le_card _

theorem attachments_update (hx : ∀ p i j, role x ≠ .leaves p i j) {new : Role Process}
    (hnew : ∀ p i j, new ≠ .leaves p i j) (z : Ppn) :
    attachments (Function.update role x new) m z = attachments role m z := by
  ext ⟨w, k⟩
  unfold attachments
  rcases eq_or_ne w x with rfl | hne
  · simp [hx, hnew]
  · simp only [Set.mem_ofPred_eq, Function.update_of_ne hne]

theorem Sound.push (hs : Sound boot bound role none s) (hx : role x = .unused)
    (hblock : s.block x = .paging) (hkey : ∀ page ∈ s.sharedPages, page.key ≠ key) :
    Sound boot bound (Function.update role x (.shared key)) none
      { s with sharedPages := s.sharedPages ++ [⟨key, x, 0⟩] } := by
  refine ⟨hs.laid.push hx hblock hkey 0, ?_, ?_⟩
  · intro page hpage
    dsimp only
    rw [attachments_update (hx ▸ nofun) nofun]
    rcases List.mem_append.mp hpage with hold | hnew
    · exact hs.counted page hold
    · rw [List.mem_singleton.mp hnew]
      have hnone : attachments role s.memory x = ∅ := by
        rw [Set.eq_empty_iff_forall_notMem]
        rintro ⟨z, k⟩ ⟨⟨p, i, j, hz⟩, hv, hflag, hppn⟩
        obtain ⟨-, -, ⟨hnormal, -⟩ | ⟨-, key', hrole⟩⟩ := hs.laid.leaves z p i j hz k hv
        · rw [hflag] at hnormal
          cases hnormal
        · rw [hppn, hx] at hrole
          cases hrole
      dsimp only
      rw [hnone, Set.ncard_empty]
      rfl
  · intro p d hd a e z htranslate hu hflag
    obtain ⟨key', hkey', hrole⟩ := hs.attached p d hd a e z htranslate hu hflag
    refine ⟨key', hkey', ?_⟩
    rw [Function.update_of_ne, hrole]
    rintro rfl
    rw [hx] at hrole
    cases hrole

theorem runs_getSharedPage (hs : Sound boot bound role none s) :
    Runs (getSharedPage key) s Any fun kva s' =>
      ∃ role', Sound boot bound role' none s' ∧ s'.pagedir = s.pagedir ∧
        role' kva = .shared key := by
  unfold getSharedPage
  apply runs_bind
  apply runs_getState
  split
  · next page hfind =>
      have hkey : page.key = key := by simpa using List.find?_some hfind
      refine ⟨role, hs, rfl, ?_⟩
      rw [hs.laid.role_kva (List.mem_of_find?_eq_some hfind), hkey]
  · next hfind =>
      apply runs_bind
      apply runs_kalloc
      intro x rest hx
      obtain ⟨hlaid, hgrown⟩ := hs.laid.take hx (Or.inl rfl) rest
      have hnew : ∀ page ∈ s.sharedPages, page.key ≠ key := by
        intro page hpage
        simpa using List.find?_eq_none.mp hfind page hpage
      refine ⟨_, (hs.grown hlaid hgrown).push ?_ ?_ hnew, rfl, ?_⟩
      · exact Function.update_self ..
      · exact Function.update_self ..
      · exact Function.update_self ..

/-- The attachment to come is counted. -/
theorem Sound.countUp (hs : Sound boot bound role none s) (key : Ptr) :
    Sound boot bound role (some key)
      { s with
        sharedPages := updateFirst (·.key == key)
          (fun page => some { page with cnt := page.cnt + 1 }) s.sharedPages } := by
  have hmem := fun b => mem_updateFirst (f := fun page => some { page with cnt := page.cnt + 1 })
    (b := b) (hs.laid.unique_key key)
  refine ⟨hs.laid.recount ?_ ?_, ?_, hs.attached⟩
  · apply List.Nodup.sublist _ hs.laid.keys
    apply updateFirst_map_sublist
    rintro page page' ⟨⟩
    rfl
  · intro x key'
    constructor
    · rintro ⟨page, hpage, rfl, rfl⟩
      rcases (hmem page).mp hpage with ⟨hold, -⟩ | ⟨old, hold, -, ⟨⟩⟩
      · exact ⟨page, hold, rfl, rfl⟩
      · exact ⟨old, hold, rfl, rfl⟩
    · rintro ⟨page, hpage, rfl, rfl⟩
      rcases eq_or_ne page.key key with heq | hne
      · exact ⟨_, (hmem _).mpr (Or.inr ⟨page, hpage, beq_iff_eq.mpr heq, rfl⟩), rfl, rfl⟩
      · exact ⟨page, (hmem page).mpr (Or.inl ⟨hpage, beq_eq_false_iff_ne.mpr hne⟩), rfl, rfl⟩
  · intro page hpage
    rcases (hmem page).mp hpage with ⟨hold, hne⟩ | ⟨old, hold, heq, ⟨⟩⟩
    · rw [beq_eq_false_iff_ne] at hne
      rw [hs.counted page hold, if_neg nofun, if_neg fun h => hne (Option.some.inj h).symm]
    · have hcounted := hs.counted old hold
      have hle := card_attachments_le role s.memory old.kva
      rw [if_neg nofun] at hcounted
      rw [beq_iff_eq] at heq
      dsimp only
      rw [if_pos (heq ▸ rfl), BitVec.toNat_add, hcounted]
      exact Nat.mod_eq_of_lt (by simp; omega)

def sharedLeaf (x : Ppn) : PageEntry := { PageEntry.setAsLeaf x with OSflag := .shared }

theorem Sound.attach [DecidableEq Process] {key : BitVec 32}
    (hs : Sound boot bound role (some (key.signExtend 64)) s) (hd : s.pagedir p = some d)
    (hy : role y = .leaves p a.vpn2 a.vpn1) (hreach : Reaches s.memory d.root a y)
    (hinvalid : (s.memory y a.vpn0).V = false) (hx : role x = .shared (key.signExtend 64)) :
    Sound boot bound role none
      { s with
        memory := writeEntry s.memory (y, a.vpn0) (sharedLeaf x)
        attached :=
          Function.update s.attached p (Function.update (s.attached p) a (some key)) } := by
  have hself : writeEntry s.memory (y, a.vpn0) (sharedLeaf x) y a.vpn0 = sharedLeaf x := if_pos rfl
  have hnot : ∀ z, (y, a.vpn0) ∉ attachments role s.memory z := by
    rintro z ⟨-, hv, -⟩
    rw [hinvalid] at hv
    cases hv
  have hlaid := hs.laid.writeLeaf (e := sharedLeaf x) hy fun _ => ⟨nofun, rfl, Or.inr ⟨rfl, _, hx⟩⟩
  refine ⟨hlaid.setAttached, ?_, ?_⟩
  · intro page hpage
    have hcounted := hs.counted page hpage
    dsimp only
    rcases eq_or_ne page.kva x with rfl | hne
    · have hrole := hs.laid.role_kva hpage
      rw [hx] at hrole
      injection hrole with hkey
      rw [if_pos (congrArg some hkey)] at hcounted
      have hinsert : attachments role (writeEntry s.memory (y, a.vpn0) (sharedLeaf page.kva))
          page.kva = insert (y, a.vpn0) (attachments role s.memory page.kva) :=
        attachments_write_shared hy rfl rfl
      rw [hinsert, Set.ncard_insert_of_notMem (hnot _), if_neg nofun, hcounted]
    · have hkey : ¬some (key.signExtend 64) = some page.key := by
        intro heq
        exact hne (hs.laid.kva_eq hpage (Option.some.inj heq).symm hx)
      rw [if_neg hkey] at hcounted
      rw [attachments_write_other fun h => hne h.2.2.symm, Set.sdiff_singleton_eq_self (hnot _),
        if_neg nofun, hcounted]
  · intro p' d' hd' a' e' x' htranslate hu hflag
    dsimp only at htranslate hd' ⊢
    rcases Classical.em (p' = p ∧ a' = a) with ⟨rfl, rfl⟩ | hne
    · rw [hd] at hd'
      cases hd'
      rw [Reaches.translate (hs.laid.reaches_writeEntry hd hy hreach _), hself] at htranslate
      cases htranslate
      rw [Function.update_self, Function.update_self]
      exact ⟨key, rfl, hx⟩
    · rw [hs.laid.translate_writeEntry hy hd' hne] at htranslate
      obtain ⟨key', hkey', hrole⟩ := hs.attached p' d' hd' a' e' x' htranslate hu hflag
      refine ⟨key', ?_, hrole⟩
      rw [← hkey']
      exact update_update_of_ne hne

theorem Sound.setPagedir [DecidableEq Process] (hs : Sound boot bound role pending s)
    (hd : s.pagedir p = some d) (d' : PageDir) (hroot : d'.root = d.root)
    (hstart : d'.sharedPageStart.toNat ≤ 2 ^ 38 + 2 ^ 30 ∧ d'.sharedPageStart.toNat % 4096 = 0) :
    Sound boot bound role pending
      { s with pagedir := Function.update s.pagedir p (some d') } := by
  have hrole : role d'.root = .root p := by
    rw [hroot]
    exact hs.laid.root p d hd
  refine ⟨hs.laid.setPagedir hrole ?_ ?_ hstart, hs.counted, ?_⟩
  · rw [hroot]
    exact hs.laid.kernelHalf p d hd
  · rw [hroot]
    exact hs.laid.userHalf p d hd
  · intro q c hc a e x htranslate
    dsimp only at hc
    rcases eq_or_ne q p with rfl | hne
    · rw [Function.update_self] at hc
      cases hc
      rw [hroot] at htranslate
      exact hs.attached q d hd a e x htranslate
    · rw [Function.update_of_ne hne] at hc
      exact hs.attached q c hc a e x htranslate

theorem runs_mapVaKva_leaf (hleaf : (s.memory d.root (getVpn va 2)).XWR ≠ .noleaf)
    (hv : (s.memory d.root (getVpn va 2)).V = true) {osflag : PageOSFlag} :
    Runs (mapVaKva d va x osflag) s Any fun _ _ => False := by
  unfold mapVaKva lookup
  apply runs_bind
  apply runs_bind
  apply runs_load
  rw [if_pos hleaf]
  apply runs_pure
  apply runs_bind
  apply runs_load
  apply runs_bind
  apply runs_kassert
  intro hinvalid
  rw [hv] at hinvalid
  cases hinvalid

theorem start_next {start : Ptr} (hbound : bound ≤ 257) (hva : (getVpn start 2).val < bound)
    (hstart : start.toNat ≤ 2 ^ 38 + 2 ^ 30 ∧ start.toNat % 4096 = 0) :
    (start + 4096).toNat ≤ 2 ^ 38 + 2 ^ 30 ∧ (start + 4096).toNat % 4096 = 0 := by
  rw [getVpn_val] at hva
  have hadd : (start + 4096).toNat = start.toNat + 4096 := by
    rw [BitVec.toNat_add]
    exact Nat.mod_eq_of_lt (by simp; omega)
  rw [hadd]
  omega

theorem runs_sysShmpageget [DecidableEq Process] {key : BitVec 32}
    (hs : Sound boot bound role none s)
    (hva : ∀ d, s.pagedir p = some d →
      (getVpn d.sharedPageStart 2).val < bound ∨ (getVpn d.sharedPageStart 2).val = 257) :
    Runs (sysShmpageget p key) s Any fun va s' =>
      ∃ role', Sound boot bound role' none (s'.recordAttached p va (some key)) := by
  unfold sysShmpageget
  apply (runs_getSharedPage hs).bind
  rintro x s₁ ⟨role₁, hs₁, hpagedir₁, hx₁⟩
  apply runs_bind
  apply runs_modifyState
  have hs₂ := hs₁.countUp (key.signExtend 64)
  unfold attachSharedPage
  apply runs_bind
  apply runs_bind
  apply runs_pagedirOf
  intro d hd
  have hd₁ : s₁.pagedir p = some d := hd
  have hstart := hs₁.laid.starts p d hd₁
  rcases Nat.lt_or_ge (getVpn d.sharedPageStart 2).val bound with hlow | hhigh
  · apply runs_bind
    apply (runs_mapVaKva hs₂.laid hd hlow).mono (fun _ _ h => h)
    rintro - s' ⟨role₃, s₃, y, hlaid₃, hgrown₃, hy, hreach, hinvalid, rfl⟩
    have hs₃ := hs₂.grown hlaid₃ hgrown₃
    have hd₃ : s₃.pagedir p = some d := by
      rw [hgrown₃.pagedir]
      exact hd
    have hs₄ := hs₃.attach hd₃ hy hreach hinvalid (hgrown₃.role_eq hs₂.laid hx₁ nofun)
    have hs₅ := hs₄.setPagedir hd₃ { d with sharedPageStart := d.sharedPageStart + 4096 } rfl
      (start_next hs.laid.range.2 hlow hstart)
    exact ⟨role₃, hs₅⟩
  · have hdirect : (getVpn d.sharedPageStart 2).val = 257 := by
      rcases hva d (hpagedir₁ ▸ hd₁) with hlow | heq
      · exact absurd hlow (Nat.not_lt.mpr hhigh)
      · exact heq
    have hkernel := hs₂.laid.kernelHalf p d hd _ hhigh
    obtain ⟨hv, hleaf⟩ := hs₂.laid.kernel.direct _ hdirect
    apply runs_bind
    apply (runs_mapVaKva_leaf (hkernel ▸ hleaf) (hkernel ▸ hv)).mono (fun _ _ h => h)
    exact fun _ _ h => h.elim

theorem Sound.detach [DecidableEq Process] (hs : Sound boot bound role none s)
    (hd : s.pagedir p = some d) (hy : role y = .leaves p a.vpn2 a.vpn1)
    (hreach : Reaches s.memory d.root a y) (hvalid : (s.memory y a.vpn0).V = true) :
    ∃ pending, Sound boot bound role pending
        { s with
          memory := writeEntry s.memory (y, a.vpn0) { s.memory y a.vpn0 with V := false }
          attached := Function.update s.attached p (Function.update (s.attached p) a none) } ∧
      ((pending = none ∧ ∀ key, role (s.memory y a.vpn0).ppn ≠ .shared key) ∨
        ∃ key, pending = some key ∧ role (s.memory y a.vpn0).ppn = .shared key) := by
  have hlaid := hs.laid.writeLeaf (e := { s.memory y a.vpn0 with V := false }) hy nofun
  have hother : ∀ z, attachments role
      (writeEntry s.memory (y, a.vpn0) { s.memory y a.vpn0 with V := false }) z =
        attachments role s.memory z \ {(y, a.vpn0)} := fun z => attachments_write_other nofun
  have hattached : ∀ p' d', s.pagedir p' = some d' → ∀ a' e' x',
      translation (writeEntry s.memory (y, a.vpn0) { s.memory y a.vpn0 with V := false })
        d'.root a' = some (e', x') → e'.U = true → e'.OSflag = .shared →
      ∃ key, Function.update s.attached p (Function.update (s.attached p) a none) p' a' = some key ∧
        role x' = .shared (key.signExtend 64) := by
    intro p' d' hd' a' e' x' htranslate hu hflag
    rcases Classical.em (p' = p ∧ a' = a) with ⟨rfl, rfl⟩ | hne
    · rw [hd] at hd'
      cases hd'
      have hself : writeEntry s.memory (y, a'.vpn0) { s.memory y a'.vpn0 with V := false } y
          a'.vpn0 = { s.memory y a'.vpn0 with V := false } := if_pos rfl
      rw [Reaches.translate (hs.laid.reaches_writeEntry hd hy hreach _), hself] at htranslate
      cases htranslate
    · rw [hs.laid.translate_writeEntry hy hd' hne] at htranslate
      rw [update_update_of_ne hne]
      exact hs.attached p' d' hd' a' e' x' htranslate hu hflag
  obtain ⟨-, -, ⟨hflag, hrole⟩ | ⟨hflag, key, hrole⟩⟩ := hs.laid.leaves y p _ _ hy a.vpn0 hvalid
  · refine ⟨none, ⟨hlaid.setAttached, ?_, hattached⟩, Or.inl ⟨rfl, hrole ▸ nofun⟩⟩
    intro page hpage
    dsimp only
    rw [hother, Set.sdiff_singleton_eq_self]
    · exact hs.counted page hpage
    · rintro ⟨-, -, hshared, -⟩
      rw [hflag] at hshared
      cases hshared
  · refine ⟨some key, ⟨hlaid.setAttached, ?_, hattached⟩, Or.inr ⟨key, rfl, hrole⟩⟩
    intro page hpage
    have hcounted := hs.counted page hpage
    rw [if_neg nofun] at hcounted
    dsimp only
    rw [hother]
    rcases eq_or_ne page.key key with heq | hne
    · have hmem : (y, a.vpn0) ∈ attachments role s.memory page.kva :=
        ⟨⟨p, _, _, hy⟩, hvalid, hflag, (hs.laid.kva_eq hpage heq hrole).symm⟩
      rw [hcounted, if_pos (congrArg some heq.symm), Set.ncard_sdiff_singleton_add_one hmem]
      rfl
    · rw [if_neg fun h => hne (Option.some.inj h).symm, Set.sdiff_singleton_eq_self, hcounted]
      rintro ⟨-, -, -, hppn⟩
      dsimp only at hppn
      rw [hppn, hs.laid.role_kva hpage] at hrole
      injection hrole with hkey
      exact hne hkey

/-- The list of shared pages after one of them has been counted down. -/
def countedDown (x : Ppn) (pages : List SharedPage) : List SharedPage :=
  updateFirst (·.kva == x)
    (fun page => if page.cnt - 1 = 0 then none else some { page with cnt := page.cnt - 1 }) pages

theorem Sound.mem_countedDown (hs : Sound boot bound role pending s) {page : SharedPage}
    (hpage : page ∈ s.sharedPages) {b : SharedPage} :
    b ∈ countedDown page.kva s.sharedPages ↔ (b ∈ s.sharedPages ∧ b.kva ≠ page.kva) ∨
      (page.cnt - 1 ≠ 0 ∧ b = { page with cnt := page.cnt - 1 }) := by
  unfold countedDown
  rw [mem_updateFirst]
  · apply or_congr
    · rw [beq_eq_false_iff_ne]
    · constructor
      · rintro ⟨page', hpage', heq, hf⟩
        obtain rfl := hs.laid.eq_of_kva hpage' hpage (beq_iff_eq.mp heq)
        obtain ⟨hcnt, ⟨⟩⟩ := Option.ite_none_left_eq_some.mp hf
        exact ⟨hcnt, rfl⟩
      · rintro ⟨hcnt, rfl⟩
        exact ⟨page, hpage, beq_self_eq_true _, if_neg hcnt⟩
  · apply hs.laid.pairwise.imp
    intro page' page'' hne heq
    rw [beq_iff_eq] at heq
    rw [beq_eq_false_iff_ne, ← heq]
    exact hne.2.symm

theorem Sound.nodup_countedDown (hs : Sound boot bound role pending s) (x : Ppn) :
    ((countedDown x s.sharedPages).map SharedPage.key).Nodup := by
  apply List.Nodup.sublist _ hs.laid.keys
  apply updateFirst_map_sublist
  intro page page' hf
  obtain ⟨-, ⟨⟩⟩ := Option.ite_none_left_eq_some.mp hf
  rfl

theorem Sound.counted_other {page page' : SharedPage}
    (hs : Sound boot bound role (some page.key) s) (hpage : page ∈ s.sharedPages)
    (hpage' : page' ∈ s.sharedPages) (hne : page'.kva ≠ page.kva) :
    page'.cnt.toNat = (attachments role s.memory page'.kva).ncard := by
  have hcounted := hs.counted page' hpage'
  rwa [if_neg] at hcounted
  intro heq
  exact hne (hs.laid.kva_eq hpage' (Option.some.inj heq).symm (hs.laid.role_kva hpage))

theorem Sound.toNat_cnt_sub_one {page : SharedPage}
    (hs : Sound boot bound role (some page.key) s) (hpage : page ∈ s.sharedPages) :
    (page.cnt - 1).toNat = (attachments role s.memory page.kva).ncard := by
  have hcounted := hs.counted page hpage
  rw [if_pos rfl] at hcounted
  have hone : (1 : BitVec 64).toNat ≤ page.cnt.toNat := by
    rw [hcounted]
    exact Nat.le_add_left ..
  rw [BitVec.toNat_sub_of_le (BitVec.le_def.mpr hone), hcounted]
  rfl

theorem Sound.countDown {page : SharedPage} (hs : Sound boot bound role (some page.key) s)
    (hpage : page ∈ s.sharedPages) (hcnt : page.cnt - 1 ≠ 0) :
    Sound boot bound role none
      { s with sharedPages := countedDown page.kva s.sharedPages } := by
  refine ⟨hs.laid.recount (hs.nodup_countedDown _) ?_, ?_, hs.attached⟩
  · intro x key
    constructor
    · rintro ⟨page', hpage', rfl, rfl⟩
      rcases (hs.mem_countedDown hpage).mp hpage' with ⟨hold, -⟩ | ⟨-, rfl⟩
      · exact ⟨page', hold, rfl, rfl⟩
      · exact ⟨page, hpage, rfl, rfl⟩
    · rintro ⟨page', hpage', rfl, rfl⟩
      rcases eq_or_ne page'.kva page.kva with heq | hne
      · obtain rfl := hs.laid.eq_of_kva hpage' hpage heq
        exact ⟨_, (hs.mem_countedDown hpage).mpr (Or.inr ⟨hcnt, rfl⟩), rfl, rfl⟩
      · exact ⟨page', (hs.mem_countedDown hpage).mpr (Or.inl ⟨hpage', hne⟩), rfl, rfl⟩
  · intro page' hpage'
    rw [if_neg nofun]
    rcases (hs.mem_countedDown hpage).mp hpage' with ⟨hold, hne⟩ | ⟨-, rfl⟩
    · exact hs.counted_other hpage hold hne
    · exact hs.toNat_cnt_sub_one hpage

theorem Sound.remove {page : SharedPage} (hs : Sound boot bound role (some page.key) s)
    (hpage : page ∈ s.sharedPages) (hcnt : page.cnt - 1 = 0) :
    Sound boot bound (Function.update role page.kva .unused) none
      { s with
        block := Function.update s.block page.kva .free
        sharedPages := countedDown page.kva s.sharedPages } := by
  have hrole := hs.laid.role_kva hpage
  have hnone : attachments role s.memory page.kva = ∅ := by
    rw [← Set.ncard_eq_zero, ← hs.toNat_cnt_sub_one hpage, hcnt]
    rfl
  have hleaf : ∀ y p i j, role y = .leaves p i j → ∀ k, (s.memory y k).V = true →
      (s.memory y k).ppn ≠ page.kva := by
    intro y p i j hy k hv heq
    obtain ⟨-, -, ⟨-, hframe⟩ | ⟨hflag, -⟩⟩ := hs.laid.leaves y p i j hy k hv
    · rw [heq, hrole] at hframe
      cases hframe
    · have hmem : (y, k) ∈ attachments role s.memory page.kva := ⟨⟨p, i, j, hy⟩, hv, hflag, heq⟩
      rw [hnone] at hmem
      cases hmem
  refine ⟨hs.laid.release ?_ ?_ ?_ hleaf ?_ (hs.nodup_countedDown _) ?_, ?_, ?_⟩
  · rw [hrole]
    exact nofun
  · rw [hrole]
    exact nofun
  · rw [hrole]
    exact nofun
  · intro p d hd
    refine ⟨hd, fun heq => ?_⟩
    have hroot := hs.laid.root p d hd
    rw [heq, hrole] at hroot
    cases hroot
  · intro y key
    rcases eq_or_ne y page.kva with rfl | hne
    · rw [Function.update_self]
      apply iff_of_false nofun
      rintro ⟨page', hpage', heq, -⟩
      rcases (hs.mem_countedDown hpage).mp hpage' with ⟨-, hne⟩ | ⟨hcnt', -⟩
      · exact hne heq
      · exact hcnt' hcnt
    · rw [Function.update_of_ne hne, hs.laid.shared]
      constructor
      · rintro ⟨page', hpage', rfl, rfl⟩
        exact ⟨page', (hs.mem_countedDown hpage).mpr (Or.inl ⟨hpage', hne⟩), rfl, rfl⟩
      · rintro ⟨page', hpage', rfl, rfl⟩
        rcases (hs.mem_countedDown hpage).mp hpage' with ⟨hold, -⟩ | ⟨hcnt', -⟩
        · exact ⟨page', hold, rfl, rfl⟩
        · exact absurd hcnt hcnt'
  · intro page' hpage'
    rw [if_neg nofun, attachments_update (hrole ▸ nofun) nofun]
    rcases (hs.mem_countedDown hpage).mp hpage' with ⟨hold, hne⟩ | ⟨hcnt', -⟩
    · exact hs.counted_other hpage hold hne
    · exact absurd hcnt hcnt'
  · intro p d hd a e x htranslate hu hflag
    obtain ⟨key, hkey, hx⟩ := hs.attached p d hd a e x htranslate hu hflag
    refine ⟨key, hkey, ?_⟩
    obtain ⟨y, -, -, hy, rfl, hv, rfl⟩ := hs.laid.userLeaf hd htranslate hu
    rw [Function.update_of_ne (hleaf y p _ _ hy _ hv), hx]

/-- The excess in the count of a shared page is removed, and with the last
attachment the page. -/
theorem runs_dropSharedPage (hs : Sound boot bound role pending s)
    (hx : (pending = none ∧ ∀ key, role x ≠ .shared key) ∨
      ∃ key, pending = some key ∧ role x = .shared key) :
    Runs (dropSharedPage x) s Any fun _ s' => ∃ role', Sound boot bound role' none s' := by
  unfold dropSharedPage
  apply runs_bind
  apply runs_getState
  split
  · next hfind =>
      rcases hx with ⟨rfl, -⟩ | ⟨key, rfl, hrole⟩
      · exact ⟨role, hs⟩
      · obtain ⟨page, hpage, hkva, -⟩ := (hs.laid.shared x key).mp hrole
        exact absurd (beq_iff_eq.mpr hkva) (List.find?_eq_none.mp hfind page hpage)
  · next page hfind =>
      have hpage := List.mem_of_find?_eq_some hfind
      have hkva : page.kva = x := by simpa using List.find?_some hfind
      have hrole := hs.laid.role_kva hpage
      rw [hkva] at hrole
      obtain rfl : pending = some page.key := by
        rcases hx with ⟨-, hnot⟩ | ⟨key, rfl, hkey⟩
        · exact absurd hrole (hnot _)
        · rw [hrole] at hkey
          injection hkey with hkey
          rw [hkey]
      subst hkva
      apply runs_bind
      apply runs_modifyState
      split
      · next hcnt => exact ⟨_, hs.remove hpage hcnt⟩
      · next hcnt => exact ⟨_, hs.countDown hpage hcnt⟩

theorem runs_dropSharedPage_recorded [DecidableEq Process] {E : Stop → State Process → Prop}
    {Q : State Process → Prop} {key : Option (BitVec 32)}
    (h : Runs (dropSharedPage x) (s.recordAttached p va key) E fun _ s' => Q s') :
    Runs (dropSharedPage x) s E fun _ s' => Q (s'.recordAttached p va key) := by
  unfold dropSharedPage at h ⊢
  have h := (Runs.of_bind h).ok rfl
  apply runs_bind
  apply runs_getState
  have hpages : (s.recordAttached p va key).sharedPages = s.sharedPages := rfl
  rw [hpages] at h
  split
  next hfind =>
    rw [hfind] at h
    exact h
  next page hfind =>
    rw [hfind] at h
    apply runs_bind
    apply runs_modifyState
    replace h := (Runs.of_bind h).ok rfl
    split
    next hcnt =>
      rw [if_pos hcnt] at h
      exact h
    next hcnt =>
      rw [if_neg hcnt] at h
      exact h

theorem runs_sysShmpagedt [DecidableEq Process] (hs : Sound boot bound role none s)
    (hva : (getVpn va 2).val < bound) :
    Runs (sysShmpagedt p va) s Any fun _ s' =>
      ∃ role', Sound boot bound role' none (s'.recordAttached p va none) := by
  unfold sysShmpagedt
  apply runs_bind
  apply runs_pagedirOf
  intro d hd
  unfold freeSharedPage
  apply runs_bind
  apply (runs_lookup hs.laid hd hva).bind
  rintro ⟨y, k⟩ s₁ ⟨role₁, hlaid₁, hgrown₁, hk, hy, hreach⟩
  dsimp only at hk hy hreach
  subst hk
  have hs₁ := hs.grown hlaid₁ hgrown₁
  apply runs_bind
  apply runs_load
  apply runs_bind
  apply runs_kassert
  intro hvalid
  apply runs_bind
  apply runs_modifyState
  apply runs_pure
  obtain ⟨pending, hs₂, hpending⟩ := hs₁.detach (hgrown₁.pagedir ▸ hd) hy hreach hvalid
  exact runs_dropSharedPage_recorded (runs_dropSharedPage hs₂ hpending)

theorem runs_sysBrk [DecidableEq Process] (hs : Sound boot bound role none s) {addr : Ptr} :
    Runs (sysBrk p addr) s Any fun _ s' => Sound boot bound role none s' := by
  unfold sysBrk
  apply runs_bind
  apply runs_pagedirOf
  intro d hd
  exact hs.setPagedir hd { d with userMemBound := addr } rfl (hs.laid.starts p d hd)

theorem runs_sysSbrk [DecidableEq Process] (hs : Sound boot bound role none s) {increment : Ptr} :
    Runs (sysSbrk p increment) s Any fun _ s' => Sound boot bound role none s' := by
  unfold sysSbrk
  apply runs_bind
  apply runs_pagedirOf
  intro d hd
  exact hs.setPagedir hd { d with userMemBound := d.userMemBound + increment } rfl
    (hs.laid.starts p d hd)

/-- The memory after `set_kernel_vm`. -/
def withKernelVm (m : Memory) (x : Ppn) : Memory :=
  writePage (writePage m x fun _ => .cleared) x (kernelVm (writePage m x fun _ => .cleared))

theorem withKernelVm_other {i : Fin 512} (hne : y ≠ x) : withKernelVm m x y i = m y i := by
  unfold withKernelVm writePage
  rw [if_neg hne, if_neg hne]

theorem Laid.withKernelVm_self (hs : Laid boot bound role s) (hx : s.block x = .free)
    (i : Fin 512) : withKernelVm s.memory x x i = kernelVm boot i := by
  have hne : pgdirPage ≠ x := by
    rintro rfl
    rw [hs.bootBlocks.1] at hx
    cases hx
  have hpgdir : (writePage s.memory x fun _ => .cleared) pgdirPage i = boot pgdirPage i := by
    unfold writePage
    rw [if_neg hne, (hs.bootTables i).1]
  unfold withKernelVm
  rw [writePage, if_pos rfl]
  unfold kernelVm
  rw [hpgdir]

theorem Sound.create [DecidableEq Process] (hs : Sound boot bound role none s)
    (hx : s.block x = .free) {supply : List Ppn} {created : Process → Bool} :
    Sound boot bound (Function.update role x (.root p)) none
      { s with
        memory := withKernelVm s.memory x
        block := Function.update s.block x .paging
        supply := supply
        created := created
        pagedir := Function.update s.pagedir p (some ⟨x, 0x2000000000, 0x300000⟩) } := by
  have hself := Laid.withKernelVm_self hs.laid hx
  have hallocated : Laid boot bound (Function.update role x (.root p))
      { s with
        memory := withKernelVm s.memory x
        block := Function.update s.block x .paging
        supply := supply } := by
    apply hs.laid.allocate hx
    · exact nofun
    · exact fun y hy => funext fun i => withKernelVm_other hy
    · exact nofun
    · exact nofun
  have hlaid : Laid boot bound (Function.update role x (.root p))
      { s with
        memory := withKernelVm s.memory x
        block := Function.update s.block x .paging
        supply := supply
        created := created
        pagedir := Function.update s.pagedir p (some ⟨x, 0x2000000000, 0x300000⟩) } := by
    apply hallocated.setPagedir
    · exact Function.update_self ..
    · intro i hi
      dsimp only
      rw [hself]
      apply if_neg
      rintro rfl
      exact absurd (hs.laid.range.1.trans hi) (by decide)
    · intro i hi
      dsimp only
      rw [hself, hs.laid.kernel.low i (Nat.lt_of_lt_of_le hi hs.laid.range.2)]
      exact Or.inl cleared_blank
    · dsimp only
      decide
  have hrole : role x = .unused := by
    apply hs.laid.unused_of_ne
    rw [hx]
    decide
  refine ⟨hlaid, ?_, ?_⟩
  · intro page hpage
    have hkeep : attachments (Function.update role x (.root p)) (withKernelVm s.memory x)
        page.kva = attachments role s.memory page.kva := by
      ext ⟨w, k⟩
      unfold attachments
      rcases eq_or_ne w x with rfl | hne
      · simp [hrole]
      · simp only [Set.mem_ofPred_eq, Function.update_of_ne hne, withKernelVm_other hne]
    dsimp only
    rw [hkeep]
    exact hs.counted page hpage
  · intro q c hc a e z htranslate hu hflag
    rcases eq_or_ne q p with rfl | hne
    · obtain ⟨y, hlow, hreach, -⟩ := hlaid.userLeaf hc htranslate hu
      dsimp only at hc hreach
      rw [Function.update_self] at hc
      cases hc
      have hv := hreach.middle.1
      dsimp only at hv
      rw [hself, hs.laid.kernel.low _ (Nat.lt_of_lt_of_le hlow hs.laid.range.2)] at hv
      cases hv
    · dsimp only at hc htranslate
      rw [Function.update_of_ne hne] at hc
      rw [translate_congr fun pte hvisit => withKernelVm_other (hs.laid.visits_ne hx hc hvisit)]
        at htranslate
      obtain ⟨key, hkey, hz⟩ := hs.attached q c hc a e z htranslate hu hflag
      refine ⟨key, hkey, ?_⟩
      rw [Function.update_of_ne, hz]
      rintro rfl
      rw [hrole] at hz
      cases hz

theorem runs_createProcess [DecidableEq Process] (hs : Sound boot bound role none s) :
    Runs (createProcess p) s Any fun _ s' => ∃ role', Sound boot bound role' none s' ∧
      ∀ d, s'.pagedir p = some d → d.userMemBound = 0x300000 := by
  unfold createProcess
  apply runs_bind
  apply runs_getState
  split
  · exact runs_fail trivial
  · apply runs_bind
    apply runs_kalloc
    intro x rest hx
    refine ⟨_, hs.create hx, fun d hd => ?_⟩
    change Function.update s.pagedir p _ p = some d at hd
    rw [Function.update_self] at hd
    cases hd
    rfl

theorem runs_loadTaskImg (hs : Sound boot bound role none s) (hd : s.pagedir p = some d)
    (hva : ∀ va, va < d.userMemBound → (getVpn va 2).val < bound) {pages : Nat} :
    Runs (loadTaskImg d pages va) s Any fun _ s' =>
      ∃ role', Sound boot bound role' none s' ∧ s'.pagedir = s.pagedir := by
  induction pages generalizing s role va with
  | zero => exact ⟨role, hs, rfl⟩
  | succ pages ih =>
      unfold loadTaskImg
      apply (runs_allocPageForVa hs hd (hva va)).bind
      rintro - s₁ ⟨role₁, hs₁, hpagedir₁⟩
      apply (ih hs₁ (hpagedir₁ ▸ hd)).mono (fun _ _ h => h)
      rintro - s₂ ⟨role₂, hs₂, hpagedir₂⟩
      exact ⟨role₂, hs₂, hpagedir₂.trans hpagedir₁⟩

theorem runs_sysExec [DecidableEq Process] (hs : Sound boot bound role none s) {pages : Nat} :
    Runs (sysExec p pages) s Any fun _ s' => ∃ role', Sound boot bound role' none s' := by
  unfold sysExec
  apply (runs_createProcess hs).bind
  rintro - s₁ ⟨role₁, hs₁, huserMemBound⟩
  apply runs_bind
  apply runs_pagedirOf
  intro d hd
  have hva : ∀ va, va < d.userMemBound → (getVpn va 2).val < bound := by
    intro va hlt
    rw [huserMemBound d hd, BitVec.lt_def] at hlt
    have hlt : va.toNat < 0x300000 := hlt
    have hrange := hs.laid.range.1
    rw [getVpn_val]
    omega
  apply (runs_loadTaskImg hs₁ hd hva).bind
  rintro - s₂ ⟨role₂, hs₂, hpagedir₂⟩
  apply (runs_allocPageForVa hs₂ (hpagedir₂ ▸ hd) (hva _)).bind
  rintro - s₃ ⟨role₃, hs₃, -⟩
  exact ⟨role₃, hs₃⟩

theorem runs_pageFault (hs : Sound boot bound role none s)
    (hva : ∀ d, s.pagedir p = some d → va < d.userMemBound → (getVpn va 2).val < bound) :
    Runs (pageFault p va) s Any fun _ s' => ∃ role', Sound boot bound role' none s' := by
  unfold pageFault
  apply runs_bind
  apply runs_pagedirOf
  intro d hd
  apply (runs_allocPageForVa hs hd (hva d hd)).bind
  rintro - s₁ ⟨role₁, hs₁, -⟩
  exact ⟨role₁, hs₁⟩

theorem runs_freeUserRecur (hs : Laid boot bound role s) (hd : s.pagedir p = some d) {depth : Nat}
    (hdepth : depth ≠ 0) :
    Runs (freeUserRecur depth d.root) s Any fun _ s' =>
      s' = { s with block := Function.update s.block d.root .free } := by
  obtain ⟨depth, rfl⟩ := Nat.exists_eq_succ_of_ne_zero hdepth
  have hentry : ∀ i, (s.memory d.root i).V = false ∨ (s.memory d.root i).U = false := by
    intro i
    rcases Nat.lt_or_ge i.val bound with hlow | hhigh
    · rcases hs.userHalf p d hd i hlow with hblank | ⟨-, -, hu, -⟩
      · exact Or.inl hblank.1
      · exact Or.inr hu
    · rw [hs.kernelHalf p d hd i hhigh]
      exact Or.inr (hs.kernel.high i (hs.range.1.trans hhigh)).1
  have hround : ∀ i, Runs (freeEntry (freeUserRecur depth) d.root i) s Any fun _ s' => s' = s := by
    intro i
    unfold freeEntry
    apply runs_bind
    apply runs_load
    have hnot : ∀ P : Prop, ¬((s.memory d.root i).V = true ∧ (s.memory d.root i).U = true ∧ P) := by
      rintro P ⟨hv, hu, -⟩
      rcases hentry i with h | h
      · rw [h] at hv
        cases hv
      · rw [h] at hu
        cases hu
    rw [if_neg (hnot _), if_neg (hnot _)]
    exact runs_kassert fun _ => rfl
  have hloop : ∀ l, Runs (forEach (freeEntry (freeUserRecur depth) d.root) l) s Any
      fun _ s' => s' = s := by
    intro l
    induction l with
    | nil => exact runs_pure rfl
    | cons i rest ih =>
        apply (hround i).bind
        rintro - s' rfl
        exact ih
  rw [freeUserRecur]
  apply (hloop _).bind
  rintro - s' rfl
  exact runs_modifyState rfl

theorem Sound.delete [DecidableEq Process] (hs : Sound boot bound role none s)
    (hd : s.pagedir p = some d) :
    Sound boot bound (Function.update role d.root .unused) none
      { s with
        block := Function.update s.block d.root .free
        pagedir := Function.update s.pagedir p none } := by
  have hrole := hs.laid.root p d hd
  have hother : ∀ q c, Function.update s.pagedir p none q = some c →
      s.pagedir q = some c ∧ c.root ≠ d.root := by
    intro q c hc
    rcases eq_or_ne q p with rfl | hne
    · rw [Function.update_self] at hc
      cases hc
    · rw [Function.update_of_ne hne] at hc
      refine ⟨hc, fun heq => ?_⟩
      have hroot := hs.laid.root q c hc
      rw [heq, hrole] at hroot
      cases hroot
      exact hne rfl
  have hshared : ∀ y key, role y = .shared key → y ≠ d.root := by
    rintro y key hy rfl
    rw [hrole] at hy
    cases hy
  refine ⟨hs.laid.release ?_ ?_ ?_ ?_ hother hs.laid.keys ?_, ?_, ?_⟩
  · rw [hrole]
    exact nofun
  · rw [hrole]
    exact nofun
  · rw [hrole]
    exact nofun
  · intro y q i j hy k hv heq
    obtain ⟨-, -, ⟨-, hframe⟩ | ⟨-, key, hkey⟩⟩ := hs.laid.leaves y q i j hy k hv
    · rw [heq, hrole] at hframe
      cases hframe
    · exact hshared _ key hkey heq
  · intro y key
    rw [← hs.laid.shared]
    rcases eq_or_ne y d.root with rfl | hne
    · rw [Function.update_self, hrole]
      exact iff_of_false nofun nofun
    · rw [Function.update_of_ne hne]
  · intro page hpage
    dsimp only
    rw [attachments_update (hrole ▸ nofun) nofun]
    exact hs.counted page hpage
  · intro q c hc a e x htranslate hu hflag
    obtain ⟨key, hkey, hx⟩ := hs.attached q c (hother q c hc).1 a e x htranslate hu hflag
    refine ⟨key, hkey, ?_⟩
    rw [Function.update_of_ne (hshared x _ hx)]
    exact hx

theorem runs_deleteProcess [DecidableEq Process] (hs : Sound boot bound role none s) :
    Runs (deleteProcess p) s Any fun _ s' => ∃ role', Sound boot bound role' none s' := by
  unfold deleteProcess
  apply runs_bind
  apply runs_pagedirOf
  intro d hd
  apply (runs_freeUserRecur hs.laid hd (by decide)).bind
  rintro - s' rfl
  apply runs_modifyState
  exact ⟨_, hs.delete hd⟩

/-- Pages of other parts of the kernel do not matter. -/
theorem Sound.setBlock (hs : Sound boot bound role none s) {block : Ppn → Block}
    (hblock : ∀ x, s.block x = .paging ∨ s.block x = .boot → block x = s.block x)
    {supply : List Ppn} :
    Sound boot bound role none { s with block := block, supply := supply } := by
  refine ⟨⟨hs.laid.kernel, hs.laid.range, ?_, ?_, hs.laid.bootTables, hs.laid.root,
    hs.laid.kernelHalf, hs.laid.userHalf, hs.laid.middle, hs.laid.leaves, hs.laid.keys,
    hs.laid.shared, hs.laid.starts⟩, hs.counted, hs.attached⟩
  · intro x hx
    have hpaging := hs.laid.owned x hx
    dsimp only
    rw [hblock x (Or.inl hpaging), hpaging]
  · obtain ⟨hpgdir, hio⟩ := hs.laid.bootBlocks
    dsimp only
    rw [hblock _ (Or.inr hpgdir), hblock _ (Or.inr hio)]
    exact hs.laid.bootBlocks

theorem update_block {page : Ppn} (hpage : s.block page = .free ∨ s.block page = .kernel)
    {new : Block} (x : Ppn) (hx : s.block x = .paging ∨ s.block x = .boot) :
    Function.update s.block page new x = s.block x := by
  apply Function.update_of_ne
  rintro rfl
  rcases hpage with hpage | hpage
  · rw [hpage] at hx
    rcases hx with h | h
    · cases h
    · cases h
  · rw [hpage] at hx
    rcases hx with h | h
    · cases h
    · cases h

theorem runs_allocOther (hs : Sound boot bound role none s) :
    Runs allocOther s Any fun _ s' => Sound boot bound role none s' := by
  unfold allocOther
  apply runs_bind
  apply runs_kalloc
  intro page rest hfree
  apply runs_modifyState
  apply hs.setBlock
  dsimp only
  rw [Function.update_idem]
  exact update_block (Or.inl hfree)

theorem runs_freeOther (hs : Sound boot bound role none s) {page : Ppn} :
    Runs (freeOther page) s Any fun _ s' => Sound boot bound role none s' := by
  unfold freeOther
  apply runs_bind
  apply runs_getState
  split
  · next hkernel =>
      apply runs_modifyState
      exact hs.setBlock (update_block (Or.inr hkernel))
  · exact runs_fail trivial

end LabKernel.PageCalls
