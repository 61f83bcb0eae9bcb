import LabKernel.PageRuns

/-!
The address spaces of the processes are kept apart: a private page is mapped
once, a shared page only by the processes that have asked for it, and a page
table never.
-/

namespace LabKernel.UserIsolation

open LabKernel.AddressSpace
open LabKernel.PageCalls
open LabKernel.PageRuns
open LabKernel.PageTable
open LabKernel.TransitionSystem

variable {Process : Type} {ioremaps : List (Ptr × Ptr)} {s : State Process} {p p' : Process}
  {a a' : VirtualPage} {e e' : PageEntry} {x : Ppn}

/-- The process reaches the physical page `x` at the page `a`. -/
def UserMaps (s : State Process) (p : Process) (a : VirtualPage) (e : PageEntry) (x : Ppn) : Prop :=
  ∃ d ∈ s.pagedir p, translation s.memory d.root a = some (e, x) ∧ e.U = true

/-- The page is a table of the kernel or of a process. -/
inductive IsTable (s : State Process) : Ppn → Prop
  | pgdir : IsTable s pgdirPage
  | window : IsTable s ioPage
  | root {p : Process} {d : PageDir} (hd : d ∈ s.pagedir p) : IsTable s d.root
  | below {x : Ppn} {p : Process} {d : PageDir} {i : Fin 512} (hd : d ∈ s.pagedir p)
      (h : LeadsTo s.memory (d.root, i) x) : IsTable s x
  | bottom {x y : Ppn} {p : Process} {d : PageDir} {i j : Fin 512} (hd : d ∈ s.pagedir p)
      (h : LeadsTo s.memory (d.root, i) x) (h' : LeadsTo s.memory (x, j) y) : IsTable s y

structure Isolated (s : State Process) : Prop where
  normal : ∀ p a e x, UserMaps s p a e x → e.OSflag = .normal →
    ∀ p' a' e', UserMaps s p' a' e' x → p' = p ∧ a' = a
  shared : ∀ p a e x, UserMaps s p a e x → e.OSflag = .shared →
    ∃ page ∈ s.sharedPages, page.kva = x ∧
      ∀ p' a' e', UserMaps s p' a' e' x →
        ∃ key : BitVec 32, key.signExtend 64 = page.key ∧ s.attached p' a' = some key
  table : ∀ x, IsTable s x → ∀ p a e, ¬UserMaps s p a e x

/-- Page faults and detached pages are below the end of the user half. -/
def UserAddresses (_ : State Process) (a : Action Process) : Prop :=
  match a.call with
  | .pageFault _ stval => stval.toNat < 2 ^ 38
  | .shmpagedt _ va => va.toNat < 2 ^ 38
  | _ => True

section Layout

variable {boot : Memory} {bound : Nat} {role : Ppn → Role Process}

theorem Sound.userMaps (hs : Sound boot bound role none s) (h : UserMaps s p a e x) :
    (e.OSflag = .normal ∧ role x = .frame p a) ∨
      (e.OSflag = .shared ∧ ∃ key : BitVec 32, s.attached p a = some key ∧
        role x = .shared (key.signExtend 64)) := by
  obtain ⟨d, hd, htranslate, hu⟩ := h
  obtain ⟨y, -, -, hy, rfl, hv, rfl⟩ := hs.laid.userLeaf hd htranslate hu
  obtain ⟨-, -, hnormal | ⟨hflag, -⟩⟩ := hs.laid.leaves y p _ _ hy _ hv
  · exact Or.inl hnormal
  · exact Or.inr ⟨hflag, hs.attached p d hd a _ _ htranslate hu hflag⟩

theorem userMaps_grown {role₁ : Ppn → Role Process} {s₁ : State Process}
    (h : Grown role s role₁ s₁) (a : VirtualPage) (e : PageEntry) (z : Ppn) :
    UserMaps s₁ p a e z ↔ UserMaps s p a e z := by
  unfold UserMaps
  rw [h.pagedir]
  constructor
  · rintro ⟨d, hd, htranslate, hu⟩
    exact ⟨d, hd, h.translate p d hd a ▸ htranslate, hu⟩
  · rintro ⟨d, hd, htranslate, hu⟩
    exact ⟨d, hd, (h.translate p d hd a).symm ▸ htranslate, hu⟩

theorem Sound.isTable (hs : Sound boot bound role none s) (h : IsTable s x) :
    (∀ p a, role x ≠ .frame p a) ∧ ∀ key, role x ≠ .shared key := by
  cases h with
  | pgdir =>
      rw [hs.laid.role_pgdirPage]
      exact ⟨nofun, nofun⟩
  | window =>
      rw [hs.laid.role_ioPage]
      exact ⟨nofun, nofun⟩
  | root hd =>
      rw [hs.laid.root _ _ hd]
      exact ⟨nofun, nofun⟩
  | below hd h =>
      obtain ⟨hv, hdir, rfl⟩ := h
      rcases hs.laid.belowRoot hd hv hdir with hio | hrole
      · dsimp only at hio ⊢
        rw [hio, hs.laid.role_ioPage]
        exact ⟨nofun, nofun⟩
      · dsimp only at hrole ⊢
        rw [hrole]
        exact ⟨nofun, nofun⟩
  | bottom hd h h' =>
      obtain ⟨hv, hdir, rfl⟩ := h
      obtain ⟨hv', hdir', rfl⟩ := h'
      have hrole := hs.laid.belowMiddle (a := ⟨_, _, 0⟩) hd hv hdir hv' hdir'
      dsimp only at hrole ⊢
      rw [hrole]
      exact ⟨nofun, nofun⟩

theorem Sound.isolated (hs : Sound boot bound role none s) : Isolated s := by
  constructor
  · intro p a e x hmaps hflag p' a' e' hmaps'
    rcases Sound.userMaps hs hmaps with ⟨-, hrole⟩ | ⟨hshared, -⟩
    · rcases Sound.userMaps hs hmaps' with ⟨-, hrole'⟩ | ⟨-, key, -, hrole'⟩
      · rw [hrole] at hrole'
        injection hrole' with hp ha
        exact ⟨hp.symm, ha.symm⟩
      · rw [hrole] at hrole'
        cases hrole'
    · rw [hflag] at hshared
      cases hshared
  · intro p a e x hmaps hflag
    rcases Sound.userMaps hs hmaps with ⟨hnormal, -⟩ | ⟨-, key, -, hrole⟩
    · rw [hflag] at hnormal
      cases hnormal
    · obtain ⟨page, hpage, hkva, hkey⟩ := (hs.laid.shared x _).mp hrole
      refine ⟨page, hpage, hkva, fun p' a' e' hmaps' => ?_⟩
      rcases Sound.userMaps hs hmaps' with ⟨-, hrole'⟩ | ⟨-, key', hattached, hrole'⟩
      · rw [hrole] at hrole'
        cases hrole'
      · rw [hrole] at hrole'
        injection hrole' with heq
        exact ⟨key', heq.symm.trans hkey.symm, hattached⟩
  · intro x htable p a e hmaps
    obtain ⟨hframe, hshared⟩ := Sound.isTable hs htable
    rcases Sound.userMaps hs hmaps with ⟨-, hrole⟩ | ⟨-, key, -, hrole⟩
    · exact hframe p a hrole
    · exact hshared _ hrole

end Layout

theorem getVpn_lt_of_lt {va : Ptr} (hva : va.toNat < 2 ^ 38) : (getVpn va 2).val < 257 := by
  rw [getVpn_val]
  omega

theorem below_of_userAddresses {bound : Nat} {boot : Memory} {a : Action Process}
    (hs : Laidout boot bound s) (h : UserAddresses s a) : Below 257 s a.call := by
  unfold UserAddresses at h
  cases hcall : a.call with
  | pageFault p stval =>
      rw [hcall] at h
      exact fun d hd hlt => Or.inl (getVpn_lt_of_lt h)
  | shmpageget p key =>
      intro d hd
      obtain ⟨role, hs⟩ := hs
      have hstart := hs.laid.starts p d hd
      rw [getVpn_val]
      omega
  | shmpagedt p va =>
      rw [hcall] at h
      exact getVpn_lt_of_lt h
  | createProcess p => trivial
  | exec p pages => trivial
  | deleteProcess p => trivial
  | brk p addr => trivial
  | sbrk p increment => trivial
  | allocOther => trivial
  | freeOther page => trivial

variable [DecidableEq Process]

theorem laidout_of_userAddresses (hs : ReachableUnder (system ioremaps) UserAddresses s) :
    Laidout (bootMemory ioremaps) 257 s := by
  apply hs.invariant (P := Laidout (bootMemory ioremaps) 257)
  · rintro s rfl
    exact ⟨_, sound_initial ioremaps (by decide)⟩
  · exact fun s a s' hs hallowed hstep =>
      laidout_next hs (below_of_userAddresses hs hallowed) hstep

/-- In every run with page faults and detached pages at user addresses, the
address spaces are kept apart. -/
theorem isolated_of_userAddresses (hs : ReachableUnder (system ioremaps) UserAddresses s) :
    Isolated s := by
  obtain ⟨role, hs⟩ := laidout_of_userAddresses hs
  exact Sound.isolated hs

instance : ∀ (s : State Process) (a : Action Process), Decidable (UserAddresses s a)
  | _, ⟨.pageFault _ stval, _⟩ => inferInstanceAs (Decidable (stval.toNat < 2 ^ 38))
  | _, ⟨.shmpagedt _ va, _⟩ => inferInstanceAs (Decidable (va.toNat < 2 ^ 38))
  | _, ⟨.shmpageget _ _, _⟩ => isTrue trivial
  | _, ⟨.createProcess _, _⟩ => isTrue trivial
  | _, ⟨.exec _ _, _⟩ => isTrue trivial
  | _, ⟨.deleteProcess _, _⟩ => isTrue trivial
  | _, ⟨.brk _ _, _⟩ => isTrue trivial
  | _, ⟨.sbrk _ _, _⟩ => isTrue trivial
  | _, ⟨.allocOther, _⟩ => isTrue trivial
  | _, ⟨.freeOther _, _⟩ => isTrue trivial

/-- Processes 1 and 2 are loaded and share the page of key 5, which process 2
obtains twice and detaches once; process 3 ends. -/
def sharing : List (Action Nat) :=
  [⟨.exec 1 1, [0x60000, 0x60001, 0x60002, 0x60003, 0x60004, 0x60005]⟩,
    ⟨.exec 2 1, [0x60010, 0x60011, 0x60012, 0x60013, 0x60014, 0x60015]⟩,
    ⟨.createProcess 3, [0x60020]⟩,
    ⟨.pageFault 1 0x201000, [0x60006]⟩,
    ⟨.shmpageget 1 5, [0x60030, 0x60007, 0x60008]⟩,
    ⟨.shmpageget 2 5, [0x60017, 0x60018]⟩,
    ⟨.shmpageget 2 5, []⟩,
    ⟨.shmpagedt 2 0x2000001000, []⟩,
    ⟨.deleteProcess 3, []⟩]

theorem sharing_isolated :
    let s := permittedState UserAddresses next (initial []) sharing
    translation s.memory 0x60000 (pageOf 0x2000000000) =
        translation s.memory 0x60010 (pageOf 0x2000000000) ∧
      s.attached 2 (pageOf 0x2000000000) = some 5 ∧
      translation s.memory 0x60010 (pageOf 0x2000001000) = none ∧
      s.attached 2 (pageOf 0x2000001000) = none ∧
      (translation s.memory 0x60000 (pageOf 0x201000)).isSome ∧ Isolated s :=
  ⟨by decide +kernel, by decide +kernel, by decide +kernel, by decide +kernel, by decide +kernel,
    isolated_of_userAddresses (permittedState_reachableUnder (start_initial _) _)⟩

end LabKernel.UserIsolation
