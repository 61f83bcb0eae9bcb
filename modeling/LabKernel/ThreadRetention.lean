import LabKernel.Scheduler

/-!
No thread that could run is ever forgotten by the scheduler.

`do_scheduler` erases every entry of the ready queue whose thread looks blocked
or running.  A thread erased although its counter is zero must look running,
and a thread that looks running is the current thread of a hart that has not
yet entered `do_scheduler`; this hart will put it back.
-/

set_option linter.unusedSectionVars false

namespace LabKernel.ThreadRetention

open LabKernel.ReadyQueue
open LabKernel.Scheduler
open LabKernel.TransitionSystem
open LabKernel.WaitQueue

variable {Thread Hart Process : Type*} [DecidableEq Thread] [DecidableEq Hart]
  [DecidableEq Process] {M : Machine Thread Hart Process} {s s' : State Thread Hart Process}
  {h : Hart} {t : Thread}

/-- The thread was made ready once, is no idle thread, and neither has exited
nor waits for anything. -/
structure Runnable (M : Machine Thread Hart Process) (s : State Thread Hart Process)
    (t : Thread) : Prop where
  created : s.created t = true
  not_idle : ∀ h, t ≠ M.idle h
  not_exited : s.exited t = false
  not_blocked : s.blockCnt t = 0

/-- The hart has chosen its next thread but not installed it. -/
def Selects (pc : Pc Thread) : Prop := ∃ n, pc = .selected n

/-- Where the scheduler keeps a runnable thread.  A hart that has selected its
next thread no longer counts for the one it is about to leave. -/
def Kept (s : State Thread Hart Process) (t : Thread) : Prop :=
  t ∈ s.readyQueue ∨ t ∈ s.waking ∨ t ∈ s.appending ∨ (∃ h, s.pc h = .selected t) ∨
    ∃ h, s.currentThread h = t ∧ ¬Selects (s.pc h)

structure Retained (M : Machine Thread Hart Process) (s : State Thread Hart Process) : Prop where
  installed : ∀ h f n stage, s.pc h = .switching f n stage → s.currentThread h = n
  running : ∀ t, s.running t = true → ∃ h, s.currentThread h = t ∧ Runs (s.pc h)
  kept : ∀ t, Runnable M s t → Kept s t

theorem not_selects_of_runs {pc : Pc Thread} (h : Runs pc) : ¬Selects pc := by
  rintro ⟨n, rfl⟩
  exact h

theorem Kept.of_lists {q w a : List Thread} (hkept : Kept s t) (hq : s.readyQueue ⊆ q)
    (hw : s.waking ⊆ w ∪ a ∪ q) (ha : s.appending ⊆ a ∪ q) :
    Kept { s with readyQueue := q, waking := w, appending := a } t := by
  rcases hkept with hmem | hmem | hmem | hmem | hmem
  · exact Or.inl (hq hmem)
  · rcases List.mem_union_iff.mp (hw hmem) with hmem | hmem
    · rcases List.mem_union_iff.mp hmem with hmem | hmem
      · exact Or.inr (Or.inl hmem)
      · exact Or.inr (Or.inr (Or.inl hmem))
    · exact Or.inl hmem
  · rcases List.mem_union_iff.mp (ha hmem) with hmem | hmem
    · exact Or.inr (Or.inr (Or.inl hmem))
    · exact Or.inl hmem
  · exact Or.inr (Or.inr (Or.inr (Or.inl hmem)))
  · exact Or.inr (Or.inr (Or.inr (Or.inr hmem)))

theorem Kept.goto {pc : Pc Thread} (hkept : Kept s t) (hold : ¬Selects (s.pc h))
    (hnew : ¬Selects pc) : Kept (s.goto h pc) t := by
  rcases hkept with hmem | hmem | hmem | ⟨h', hselected⟩ | ⟨h', hcurrent, hselects⟩
  · exact Or.inl hmem
  · exact Or.inr (Or.inl hmem)
  · exact Or.inr (Or.inr (Or.inl hmem))
  · apply Or.inr ∘ Or.inr ∘ Or.inr ∘ Or.inl
    refine ⟨h', ?_⟩
    have hne : h' ≠ h := by
      rintro rfl
      exact hold ⟨t, hselected⟩
    exact (Function.update_of_ne hne ..).trans hselected
  · apply Or.inr ∘ Or.inr ∘ Or.inr ∘ Or.inr
    refine ⟨h', hcurrent, ?_⟩
    rcases eq_or_ne h' h with rfl | hne
    · change ¬Selects (Function.update s.pc h' pc h')
      rwa [Function.update_self]
    · change ¬Selects (Function.update s.pc h pc h')
      rwa [Function.update_of_ne hne]

/-- The hart changes its position without selecting or installing a thread,
and no thread starts to look running. -/
theorem Retained.goto {pc : Pc Thread} {s₁ : State Thread Hart Process} (hs : Retained M s)
    (hold : ¬Selects (s.pc h)) (hnew : ¬Selects pc)
    (hinstalled : ∀ f n stage, pc = .switching f n stage → s.currentThread h = n)
    (hpc : s₁.pc = s.pc) (hcurrent : s₁.currentThread = s.currentThread)
    (hrunning : ∀ t, s₁.running t = true → s.running t = true ∧
      (s.currentThread h = t → Runs (s.pc h) → Runs pc))
    (hkept : ∀ t, Runnable M s₁ t → Kept s₁ t) :
    Retained M (s₁.goto h pc) := by
  constructor
  · intro h' f n stage hswitching
    change s₁.currentThread h' = n
    rw [hcurrent]
    rcases eq_or_ne h' h with rfl | hne
    · apply hinstalled f n stage
      simpa [State.goto] using hswitching
    · apply hs.installed h' f n stage
      simpa [State.goto, hne, hpc] using hswitching
  · intro t ht
    obtain ⟨hold, hruns⟩ := hrunning t ht
    obtain ⟨h', hh', hrunsold⟩ := hs.running t hold
    refine ⟨h', (congrFun hcurrent h').trans hh', ?_⟩
    rcases eq_or_ne h' h with rfl | hne
    · simpa [State.goto] using hruns hh' hrunsold
    · simpa [State.goto, hne, hpc] using hrunsold
  · intro t ht
    exact (hkept t ⟨ht.1, ht.2, ht.3, ht.4⟩).goto (by rwa [hpc]) hnew

theorem retained_push (hs : Retained M s) (hpc : s.pc h = .outside) (w : Thread → Nat) :
    Retained M ({ s with waiting := w }.goto h .pushed) := by
  apply hs.goto
  · simp [Selects, hpc]
  · simp [Selects]
  · intro f n stage hn
    cases hn
  · rfl
  · rfl
  · exact fun t ht => ⟨ht, fun _ _ => trivial⟩
  · exact fun t ht => hs.kept t ⟨ht.1, ht.2, ht.3, ht.4⟩

theorem retained_block (hs : Retained M s) (hpc : s.pc h = .pushed) :
    Retained M ({ s with blockCnt := block s.blockCnt (s.currentThread h) }.goto h .blocked) := by
  have hold : ¬Selects (s.pc h) := by
    simp [Selects, hpc]
  apply hs.goto hold
  · simp [Selects]
  · intro f n stage hn
    cases hn
  · rfl
  · rfl
  · exact fun t ht => ⟨ht, fun _ _ => trivial⟩
  · intro t ht
    rcases eq_or_ne t (s.currentThread h) with rfl | hne
    · exact Or.inr (Or.inr (Or.inr (Or.inr ⟨h, rfl, hold⟩)))
    · have hcnt : s.blockCnt t = 0 := (block_of_ne hne).symm.trans ht.4
      exact hs.kept t ⟨ht.1, ht.2, ht.3, hcnt⟩

theorem retained_enter (hs : Retained M s) (hpc : s.pc h = .outside ∨ s.pc h = .blocked) :
    Retained M ({ s with running := Function.update s.running (s.currentThread h) false }.goto h
      .cleared) := by
  apply hs.goto
  · rcases hpc with hpc | hpc <;> simp [Selects, hpc]
  · simp [Selects]
  · intro f n stage hn
    cases hn
  · rfl
  · rfl
  · intro t ht
    rcases eq_or_ne t (s.currentThread h) with rfl | hne
    · simp at ht
    · refine ⟨by simpa [hne] using ht, fun hcurrent => ?_⟩
      exact absurd hcurrent.symm hne
  · exact fun t ht => hs.kept t ⟨ht.1, ht.2, ht.3, ht.4⟩

/-- The scan may erase the entry of a runnable thread only if the thread looks
running, and then another hart runs it. -/
theorem retained_select (hs : Retained M s) (hpc : s.pc h = .cleared) :
    Retained M (select M s h) := by
  have hother : ∀ h', h' ≠ h → (select M s h).pc h' = s.pc h' := fun h' hne =>
    Function.update_of_ne hne ..
  have hself : ∃ n, (select M s h).pc h = .selected n := ⟨_, Function.update_self ..⟩
  have hrunning : ∀ t, s.running t = true →
      ∃ h', h' ≠ h ∧ s.currentThread h' = t ∧ Runs (s.pc h') := by
    intro t ht
    obtain ⟨h', hcurrent, hruns⟩ := hs.running t ht
    refine ⟨h', ?_, hcurrent, hruns⟩
    rintro rfl
    rw [hpc] at hruns
    exact hruns
  constructor
  · intro h' f n stage hswitching
    rcases eq_or_ne h' h with rfl | hne
    · obtain ⟨m, hm⟩ := hself
      rw [hm] at hswitching
      cases hswitching
    · exact hs.installed h' f n stage ((hother h' hne).symm.trans hswitching)
  · intro t ht
    obtain ⟨h', hne, hcurrent, hruns⟩ := hrunning t ht
    exact ⟨h', hcurrent, hother h' hne ▸ hruns⟩
  · intro t ht
    have hrunnable : Runnable M s t := ⟨ht.1, ht.2, ht.3, ht.4⟩
    rcases Bool.eq_false_or_eq_true (s.running t) with hlooks | hlooks
    · obtain ⟨h', hne, hcurrent, hruns⟩ := hrunning t hlooks
      apply Or.inr ∘ Or.inr ∘ Or.inr ∘ Or.inr
      exact ⟨h', hcurrent, hother h' hne ▸ not_selects_of_runs hruns⟩
    · have hready : s.ready t = true := ready_iff.mpr ⟨ht.3, ht.4, hlooks⟩
      have hqueued : t ∈ requeued M s h → Kept (select M s h) t := by
        intro hmem
        rcases mem_select hmem hready with hqueue | hselected
        · exact Or.inl hqueue
        · exact Or.inr (Or.inr (Or.inr (Or.inl ⟨h, hselected⟩)))
      rcases hs.kept t hrunnable with
        hmem | hmem | hmem | ⟨h', hselected⟩ | ⟨h', hcurrent, hselects⟩
      · exact hqueued (mem_requeued_of_mem hmem)
      · exact Or.inr (Or.inl hmem)
      · exact Or.inr (Or.inr (Or.inl hmem))
      · apply Or.inr ∘ Or.inr ∘ Or.inr ∘ Or.inl
        have hne : h' ≠ h := by
          rintro rfl
          rw [hpc] at hselected
          cases hselected
        exact ⟨h', (hother h' hne).trans hselected⟩
      · rcases eq_or_ne h' h with rfl | hne
        · apply hqueued
          unfold requeued
          rw [hcurrent, if_pos ⟨hready, ht.2 h'⟩]
          exact List.mem_append_right _ (List.mem_singleton_self t)
        · apply Or.inr ∘ Or.inr ∘ Or.inr ∘ Or.inr
          exact ⟨h', hcurrent, hother h' hne ▸ hselects⟩

theorem retained_install {n : Thread} (hs : Retained M s) (hpc : s.pc h = .selected n) :
    Retained M ({ s with currentThread := Function.update s.currentThread h n }.goto h
      (.switching (s.currentThread h) n .installed)) := by
  constructor
  · intro h' f m stage hswitching
    rcases eq_or_ne h' h with rfl | hne
    · simp only [State.goto, Function.update_self, Pc.switching.injEq] at hswitching ⊢
      exact hswitching.2.1
    · simp only [State.goto, ne_eq, hne, not_false_eq_true, Function.update_of_ne] at hswitching ⊢
      exact hs.installed h' f m stage hswitching
  · intro t ht
    obtain ⟨h', hcurrent, hruns⟩ := hs.running t ht
    have hne : h' ≠ h := by
      rintro rfl
      rw [hpc] at hruns
      exact hruns
    refine ⟨h', ?_, ?_⟩
    · simpa [State.goto, hne] using hcurrent
    · simpa [State.goto, hne] using hruns
  · intro t ht
    rcases hs.kept t ⟨ht.1, ht.2, ht.3, ht.4⟩ with
      hmem | hmem | hmem | ⟨h', hselected⟩ | ⟨h', hcurrent, hselects⟩
    · exact Or.inl hmem
    · exact Or.inr (Or.inl hmem)
    · exact Or.inr (Or.inr (Or.inl hmem))
    · rcases eq_or_ne h' h with rfl | hne
      · apply Or.inr ∘ Or.inr ∘ Or.inr ∘ Or.inr
        rw [hpc, Pc.selected.injEq] at hselected
        refine ⟨h', ?_, ?_⟩
        · simpa [State.goto] using hselected
        · rintro ⟨m, hm⟩
          simp [State.goto] at hm
      · apply Or.inr ∘ Or.inr ∘ Or.inr ∘ Or.inl
        exact ⟨h', by simpa [State.goto, hne] using hselected⟩
    · have hne : h' ≠ h := by
        rintro rfl
        exact hselects ⟨n, hpc⟩
      apply Or.inr ∘ Or.inr ∘ Or.inr ∘ Or.inr
      refine ⟨h', ?_, ?_⟩
      · simpa [State.goto, hne] using hcurrent
      · simpa [State.goto, hne] using hselects

theorem retained_switch {f n : Thread} {stage next : Stage} {s₁ : State Thread Hart Process}
    (hs : Retained M s) (hpc : s.pc h = .switching f n stage) (hpc₁ : s₁.pc = s.pc)
    (hcurrent : s₁.currentThread = s.currentThread)
    (hrunning : ∀ t, s₁.running t = true → s.running t = true)
    (hruns : Runs (.switching f n stage) → Runs (.switching f n next))
    (hkept : ∀ t, Runnable M s₁ t → Kept s₁ t) :
    Retained M (s₁.goto h (.switching f n next)) := by
  apply hs.goto ?_ ?_ ?_ hpc₁ hcurrent ?_ hkept
  · simp [Selects, hpc]
  · simp [Selects]
  · rintro f' m stage' hm
    cases hm
    exact hs.installed h f n stage hpc
  · intro t ht
    refine ⟨hrunning t ht, fun _ hold => hruns ?_⟩
    rwa [hpc] at hold

theorem retained_mark {f n : Thread} (hs : Retained M s)
    (hpc : s.pc h = .switching f n .stopped) :
    Retained M ({ s with running := Function.update s.running n true }.goto h
      (.switching f n .marked)) := by
  constructor
  · intro h' f' m stage hswitching
    rcases eq_or_ne h' h with rfl | hne
    · simp only [State.goto, Function.update_self, Pc.switching.injEq] at hswitching ⊢
      exact (hs.installed h' f n .stopped hpc).trans hswitching.2.1
    · apply hs.installed h' f' m stage
      simpa [State.goto, hne] using hswitching
  · intro t ht
    rcases eq_or_ne t n with rfl | hne
    · refine ⟨h, hs.installed h f t .stopped hpc, ?_⟩
      change Runs (Function.update s.pc h _ h)
      rw [Function.update_self]
      trivial
    · have hold : s.running t = true := by simpa [State.goto, hne] using ht
      obtain ⟨h', hcurrent, hruns⟩ := hs.running t hold
      refine ⟨h', hcurrent, ?_⟩
      have hh : h' ≠ h := by
        rintro rfl
        rw [hpc] at hruns
        exact hruns
      simpa [State.goto, hh] using hruns
  · intro t ht
    apply Kept.goto
    · exact hs.kept t ⟨ht.1, ht.2, ht.3, ht.4⟩
    · rintro ⟨m, hm⟩
      change s.pc h = _ at hm
      rw [hpc] at hm
      cases hm
    · simp [Selects]

theorem retained_proceed (hs : Retained M s) (hstep : proceed s h = some s') :
    Retained M s' := by
  have hkept : ∀ t, Runnable M s t → Kept s t := hs.kept
  unfold proceed at hstep
  split at hstep
  · next n hpc =>
      cases hstep
      exact retained_install hs hpc
  · next f n hpc =>
      cases hstep
      apply retained_switch hs hpc
      · rfl
      · rfl
      · exact fun _ ht => ht
      · exact False.elim
      · exact fun t ht => hkept t ⟨ht.1, ht.2, ht.3, ht.4⟩
  · next f n hpc =>
      cases hstep
      apply retained_switch hs hpc
      · rfl
      · rfl
      · exact fun _ ht => ht
      · exact False.elim
      · exact fun t ht => hkept t ⟨ht.1, ht.2, ht.3, ht.4⟩
  · next f n hpc =>
      cases hstep
      apply retained_switch hs hpc
      · rfl
      · rfl
      · intro t ht
        rcases eq_or_ne t f with rfl | hne
        · simp at ht
        · simpa [hne] using ht
      · exact False.elim
      · exact fun t ht => hkept t ⟨ht.1, ht.2, ht.3, ht.4⟩
  · next f n hpc =>
      cases hstep
      exact retained_mark hs hpc
  · next f n hpc =>
      cases hstep
      apply retained_switch hs hpc
      · rfl
      · rfl
      · exact fun _ ht => ht
      · exact fun _ => trivial
      · exact fun t ht => hkept t ⟨ht.1, ht.2, ht.3, ht.4⟩
  · next f n hpc =>
      cases hstep
      apply hs.goto
      · simp [Selects, hpc]
      · simp [Selects]
      · intro f' m stage hm
        cases hm
      · rfl
      · rfl
      · exact fun t ht => ⟨ht, fun _ _ => trivial⟩
      · exact fun t ht => hkept t ⟨ht.1, ht.2, ht.3, ht.4⟩
  · cases hstep

theorem Retained.of_kept (hs : Retained M s) (hpc : s'.pc = s.pc)
    (hcurrent : s'.currentThread = s.currentThread) (hrunning : s'.running = s.running)
    (hkept : ∀ t, Runnable M s' t → Kept s' t) : Retained M s' := by
  constructor
  · intro h f n stage hswitching
    rw [hpc] at hswitching
    rw [hcurrent]
    exact hs.installed h f n stage hswitching
  · intro t ht
    rw [hrunning] at ht
    rw [hpc, hcurrent]
    exact hs.running t ht
  · exact hkept

theorem retained_wake (hs : Retained M s) (t : Thread) : Retained M (wake s t) := by
  apply hs.of_kept
  · rfl
  · rfl
  · rfl
  · intro u hu
    rcases eq_or_ne u t with rfl | hne
    · have hzero : s.blockCnt u - 1 = 0 := (wakeup_same s.blockCnt u).symm.trans hu.4
      apply Or.inr ∘ Or.inl
      simp [wake, hzero]
    · have hcnt : s.blockCnt u = 0 := (wakeup_of_ne hne).symm.trans hu.4
      apply (hs.kept u ⟨hu.1, hu.2, hu.3, hcnt⟩).of_lists
      · exact List.Subset.refl _
      · intro v hv
        unfold wake
        dsimp only
        split <;> simp [hv]
      · intro v hv
        simp [wake, hv]

theorem retained_testExited (hs : Retained M s) (t : Thread) :
    Retained M (testExited s t) := by
  apply hs.of_kept
  · rfl
  · rfl
  · rfl
  · intro u hu
    have hkept := hs.kept u ⟨hu.1, hu.2, hu.3, hu.4⟩
    rcases eq_or_ne u t with rfl | hne
    · have hexited : s.exited u = false := hu.3
      apply Or.inr ∘ Or.inr ∘ Or.inl
      simp [testExited, hexited]
    · rcases hkept with hmem | hmem | hmem | hmem | hmem
      · exact Or.inl hmem
      · exact Or.inr (Or.inl ((List.mem_erase_of_ne hne).mpr hmem))
      · apply Or.inr ∘ Or.inr ∘ Or.inl
        unfold testExited
        dsimp only
        split
        · exact hmem
        · exact List.mem_cons_of_mem t hmem
      · exact Or.inr (Or.inr (Or.inr (Or.inl hmem)))
      · exact Or.inr (Or.inr (Or.inr (Or.inr hmem)))

theorem retained_append (hs : Retained M s) (t : Thread) :
    Retained M { s with
      appending := s.appending.erase t
      readyQueue := s.readyQueue ++ [t] } := by
  apply hs.of_kept
  · rfl
  · rfl
  · rfl
  · intro u hu
    apply (hs.kept u ⟨hu.1, hu.2, hu.3, hu.4⟩).of_lists
    · exact List.subset_append_left _ _
    · intro v hv
      simp [hv]
    · intro v hv
      rcases eq_or_ne v t with rfl | hne
      · simp
      · simp [(List.mem_erase_of_ne hne).mpr hv]

theorem retained_create (hs : Retained M s) (t : Thread) :
    Retained M { s with
      created := Function.update s.created t true
      readyQueue := s.readyQueue ++ [t] } := by
  apply hs.of_kept
  · rfl
  · rfl
  · rfl
  · intro u hu
    rcases eq_or_ne u t with rfl | hne
    · exact Or.inl (List.mem_append_right _ (List.mem_singleton_self u))
    · have hcreated : s.created u = true := by
        simpa [hne] using hu.1
      apply (hs.kept u ⟨hcreated, hu.2, hu.3, hu.4⟩).of_lists
      · exact List.subset_append_left _ _
      · intro v hv
        simp [hv]
      · intro v hv
        simp [hv]

theorem retained_exit (hs : Retained M s) (t : Thread) :
    Retained M { s with exited := Function.update s.exited t true } := by
  apply hs.of_kept
  · rfl
  · rfl
  · rfl
  · intro u hu
    rcases eq_or_ne u t with rfl | hne
    · have hexited : true = false := by simpa using hu.3
      cases hexited
    · have hexited : s.exited u = false := by simpa [hne] using hu.3
      exact hs.kept u ⟨hu.1, hu.2, hexited, hu.4⟩

theorem retained_step {a : Action Thread Hart Process} (hs : Retained M s)
    (hstep : step M s a = some s') : Retained M s' := by
  cases a with
  | push h =>
      obtain ⟨⟨hpc, -⟩, ⟨⟩⟩ := Option.ite_none_right_eq_some.mp hstep
      exact retained_push hs hpc _
  | block h =>
      obtain ⟨hpc, ⟨⟩⟩ := Option.ite_none_right_eq_some.mp hstep
      exact retained_block hs hpc
  | enter h =>
      obtain ⟨hpc, ⟨⟩⟩ := Option.ite_none_right_eq_some.mp hstep
      exact retained_enter hs hpc
  | select h =>
      obtain ⟨hpc, ⟨⟩⟩ := Option.ite_none_right_eq_some.mp hstep
      exact retained_select hs hpc
  | proceed h => exact retained_proceed hs hstep
  | wake t =>
      obtain ⟨-, ⟨⟩⟩ := Option.ite_none_right_eq_some.mp hstep
      exact retained_wake hs t
  | testExited t =>
      obtain ⟨-, ⟨⟩⟩ := Option.ite_none_right_eq_some.mp hstep
      exact retained_testExited hs t
  | append t =>
      obtain ⟨-, ⟨⟩⟩ := Option.ite_none_right_eq_some.mp hstep
      exact retained_append hs t
  | create t =>
      obtain ⟨-, ⟨⟩⟩ := Option.ite_none_right_eq_some.mp hstep
      exact retained_create hs t
  | exit t =>
      cases hstep
      exact retained_exit hs t
  | taskSet p mask =>
      cases hstep
      apply hs.of_kept
      · rfl
      · rfl
      · rfl
      · exact fun t ht => hs.kept t ⟨ht.1, ht.2, ht.3, ht.4⟩

theorem retained_start (hs : Start M s) : Retained M s := by
  constructor
  · intro h f n stage hswitching
    rw [hs.pc h] at hswitching
    cases hswitching
  · intro t ht
    rw [hs.running t] at ht
    cases ht
  · intro t ht
    obtain ⟨h, hidle⟩ := (hs.created t).mp ht.1
    exact absurd hidle.symm (ht.2 h)

/-- In every run, a runnable thread is the current thread of a hart, or was
selected by one, or a wake-up is about to append it, or it is in the ready
queue. -/
theorem runnable_retained (hs : Reachable (system M) s) (t : Thread) (ht : Runnable M s t) :
    (∃ h, s.currentThread h = t) ∨ (∃ h, s.pc h = .selected t) ∨
      (t ∈ s.waking ∨ t ∈ s.appending) ∨ t ∈ s.readyQueue := by
  have hretained : Retained M s := by
    apply hs.invariant (P := Retained M)
    · exact fun s hstart => retained_start hstart
    · exact fun s a s' hs _ hstep => retained_step hs hstep
  rcases hretained.kept t ht with hmem | hmem | hmem | hmem | ⟨h, hcurrent, -⟩
  · exact Or.inr (Or.inr (Or.inr hmem))
  · exact Or.inr (Or.inr (Or.inl (Or.inl hmem)))
  · exact Or.inr (Or.inr (Or.inl (Or.inr hmem)))
  · exact Or.inr (Or.inl hmem)
  · exact Or.inl ⟨h, hcurrent⟩

theorem neZero_two : @NeZero Nat Zero.ofOfNat0 2 := ⟨by decide⟩

attribute [local instance] neZero_two in
/-- Hart 0 runs thread 2, which is woken between `push` and `block` and then
enters the scheduler with its counter at zero. -/
def wokenEarly : List (Action Nat (Fin 2) Unit) :=
  [.create 2, .enter 0, .select 0] ++ List.replicate 7 (.proceed 0) ++
    [.push 0, .wake 2, .block 0, .enter 0, .select 0]

theorem wokenEarly_retained :
    Runnable twoHarts (after wokenEarly) 2 ∧
      ((∃ h, (after wokenEarly).currentThread h = 2) ∨
        (∃ h, (after wokenEarly).pc h = .selected 2) ∨
        (2 ∈ (after wokenEarly).waking ∨ 2 ∈ (after wokenEarly).appending) ∨
        2 ∈ (after wokenEarly).readyQueue) := by
  have hrunnable : Runnable twoHarts (after wokenEarly) 2 :=
    ⟨by decide, by decide, by decide, by decide⟩
  exact ⟨hrunnable, runnable_retained (after_reachable wokenEarly) 2 hrunnable⟩

end LabKernel.ThreadRetention
