import Mathlib.Data.Fintype.Basic
import LabKernel.Scheduler

/-!
When a thread runs on one hart only and from a saved context.

Between the assignment that clears `status_running` and the end of
`switch_context_entry` a hart still uses the stack of its outgoing thread,
while that thread looks ready and may stand in the ready queue.  The scheduler
is right in every run in which no hart selects such a thread of another hart.
-/

set_option linter.unusedSectionVars false

namespace LabKernel.ContextSwitch

open LabKernel.ReadyQueue
open LabKernel.Scheduler
open LabKernel.TransitionSystem
open LabKernel.WaitQueue

variable {Thread Hart Process : Type*} [DecidableEq Thread] [DecidableEq Hart]
  [DecidableEq Process] {M : Machine Thread Hart Process} {s s' : State Thread Hart Process}
  {h : Hart} {t : Thread}

/-- The hart is between clearing `status_running` and restoring a context. -/
def InSwitch : Pc Thread → Prop
  | .outside | .pushed | .blocked => False
  | _ => True

/-- The threads whose stack a hart uses or is about to use: its current
thread, the thread it selected, and the outgoing one until it is saved. -/
def Uses (current : Thread) : Pc Thread → Thread → Prop
  | .selected n, t => t = current ∨ t = n
  | .switching _ _ .saved, t => t = current
  | .switching f _ _, t => t = current ∨ t = f
  | _, t => t = current

def Held (s : State Thread Hart Process) (h : Hart) (t : Thread) : Prop :=
  Uses (s.currentThread h) (s.pc h) t

/-- When a hart takes `ready_lock`, the thread that the scan of the queue finds
is not one that another hart is switching from or to. -/
def Undisturbed (M : Machine Thread Hart Process) (s : State Thread Hart Process) :
    Action Thread Hart Process → Prop
  | .select h => ∀ t ∈ (selection M s h).next, ∀ h', h' ≠ h → InSwitch (s.pc h') → ¬Held s h' t
  | _ => True

instance : DecidablePred (InSwitch : Pc Thread → Prop)
  | .outside | .pushed | .blocked => .isFalse id
  | .cleared | .selected _ | .switching _ _ _ => .isTrue trivial

instance (current : Thread) (pc : Pc Thread) (t : Thread) : Decidable (Uses current pc t) :=
  match pc with
  | .outside | .pushed | .blocked | .cleared => inferInstanceAs (Decidable (t = current))
  | .selected n => inferInstanceAs (Decidable (t = current ∨ t = n))
  | .switching _ _ .saved => inferInstanceAs (Decidable (t = current))
  | .switching f _ .installed | .switching f _ .unplaced | .switching f _ .placed
  | .switching f _ .stopped | .switching f _ .marked =>
      inferInstanceAs (Decidable (t = current ∨ t = f))

instance (s : State Thread Hart Process) (h : Hart) (t : Thread) : Decidable (Held s h t) :=
  inferInstanceAs (Decidable (Uses _ _ _))

instance [Fintype Hart] (s : State Thread Hart Process) (a : Action Thread Hart Process) :
    Decidable (Undisturbed M s a) :=
  match a with
  | .select h => inferInstanceAs (Decidable (∀ t ∈ (selection M s h).next,
      ∀ h', h' ≠ h → InSwitch (s.pc h') → ¬Held s h' t))
  | .push _ | .block _ | .enter _ | .proceed _ | .wake _ | .testExited _ | .append _
  | .create _ | .exit _ | .taskSet _ _ => .isTrue trivial

/-- No thread is current on two harts, and a hart that restores a context finds
it saved. -/
def SafelySwitched (s : State Thread Hart Process) : Prop :=
  (∀ h h', s.currentThread h = s.currentThread h' → h = h') ∧
    ∀ h f n, s.pc h = .switching f n .saved → s.saved n = true

/-- The thread a hart is going to restore has been saved, except that a thread
that was switched to itself is saved in the same switch. -/
def Fresh (saved : Thread → Bool) (current : Thread) : Pc Thread → Prop
  | .selected n => n ≠ current → saved n = true
  | .switching _ n .saved => current = n ∧ saved n = true
  | .switching f n _ => current = n ∧ (n ≠ f → saved n = true)
  | _ => True

/-- The thread has left no trace outside the harts. -/
structure Absent (s : State Thread Hart Process) (t : Thread) : Prop where
  readyQueue : t ∉ s.readyQueue
  waking : t ∉ s.waking
  appending : t ∉ s.appending
  waiting : s.waiting t = 0
  created : s.created t = true

structure Exclusive (M : Machine Thread Hart Process) (s : State Thread Hart Process) : Prop where
  unique : ∀ h h' t, Held s h t → Held s h' t → h = h'
  running : ∀ h, Runs (s.pc h) → s.currentThread h ≠ M.idle h →
    s.running (s.currentThread h) = true
  fresh : ∀ h, Fresh s.saved (s.currentThread h) (s.pc h)
  parked : ∀ t, (∀ h, ¬Held s h t) → s.saved t = true
  idle_held : ∀ h h', Held s h (M.idle h') → h = h'
  idle_absent : ∀ h, Absent s (M.idle h)

theorem uses_current (current : Thread) (pc : Pc Thread) : Uses current pc current := by
  unfold Uses
  split <;> first | rfl | exact Or.inl rfl

theorem held_current (s : State Thread Hart Process) (h : Hart) :
    Held s h (s.currentThread h) :=
  uses_current _ _

theorem Fresh.congr {saved saved' : Thread → Bool} {current : Thread} {pc : Pc Thread}
    (hfresh : Fresh saved current pc) (hsame : ∀ n, Uses current pc n → saved' n = saved n) :
    Fresh saved' current pc := by
  cases pc with
  | selected n =>
      intro hne
      rw [hsame n (Or.inr rfl)]
      exact hfresh hne
  | switching f n stage =>
      have hcurrent : current = n := by
        cases stage <;> exact hfresh.1
      have hn : saved' n = saved n := hsame n (hcurrent ▸ uses_current _ _)
      cases stage <;> exact ⟨hcurrent, hn ▸ hfresh.2⟩
  | _ => trivial

theorem Exclusive.safelySwitched (hs : Exclusive M s) : SafelySwitched s := by
  constructor
  · intro h h' hsame
    apply hs.unique h h' _ (held_current s h)
    rw [hsame]
    exact held_current s h'
  · intro h f n hpc
    have hfresh := hs.fresh h
    rw [hpc] at hfresh
    exact hfresh.2

/-- One hart moves.  It may take a thread that no hart holds, and a thread it
lets go of is saved. -/
theorem Exclusive.move (hs : Exclusive M s) (h : Hart)
    (hpc : ∀ h', h' ≠ h → s'.pc h' = s.pc h')
    (hcurrent : ∀ h', h' ≠ h → s'.currentThread h' = s.currentThread h')
    (hheld : ∀ t, Held s' h t → ∀ h', Held s h' t → h' = h)
    (hrunning : ∀ t, ¬Held s h t → s'.running t = s.running t)
    (hsaved : ∀ t, ¬Held s h t → ¬Held s' h t → s'.saved t = s.saved t)
    (hreleased : ∀ t, Held s h t → ¬Held s' h t → s'.saved t = true)
    (hruns : Runs (s'.pc h) → s'.currentThread h ≠ M.idle h →
      s'.running (s'.currentThread h) = true)
    (hfresh : Fresh s'.saved (s'.currentThread h) (s'.pc h))
    (hidle : ∀ h', Held s' h (M.idle h') → h = h')
    (habsent : ∀ h', Absent s' (M.idle h')) : Exclusive M s' := by
  have hother : ∀ h' t, h' ≠ h → (Held s' h' t ↔ Held s h' t) := by
    intro h' t hne
    unfold Held
    rw [hpc h' hne, hcurrent h' hne]
  have hfree : ∀ h' t, h' ≠ h → Held s h' t → ¬Held s h t ∧ ¬Held s' h t := by
    intro h' t hne hheld'
    exact ⟨fun hself => hne (hs.unique h' h t hheld' hself),
      fun hself => hne (hheld t hself h' hheld')⟩
  constructor
  · intro h₁ h₂ t hh₁ hh₂
    rcases eq_or_ne h₁ h with rfl | hne₁ <;> rcases eq_or_ne h₂ h₁ with heq | hne₂
    · exact heq.symm
    · exact (hheld t hh₁ h₂ ((hother h₂ t hne₂).mp hh₂)).symm
    · exact heq.symm
    · rw [hother h₁ t hne₁] at hh₁
      rcases eq_or_ne h₂ h with rfl | hne
      · exact hheld t hh₂ h₁ hh₁
      · rw [hother h₂ t hne] at hh₂
        exact hs.unique h₁ h₂ t hh₁ hh₂
  · intro h' hruns' hidle'
    rcases eq_or_ne h' h with rfl | hne
    · exact hruns hruns' hidle'
    · rw [hpc h' hne] at hruns'
      rw [hcurrent h' hne] at hidle' ⊢
      rw [hrunning _ (hfree h' _ hne (held_current s h')).1]
      exact hs.running h' hruns' hidle'
  · intro h'
    rcases eq_or_ne h' h with rfl | hne
    · exact hfresh
    · rw [hpc h' hne, hcurrent h' hne]
      apply (hs.fresh h').congr
      intro n hn
      exact hsaved n (hfree h' n hne hn).1 (hfree h' n hne hn).2
  · intro t ht
    rcases Classical.em (Held s h t) with hself | hself
    · exact hreleased t hself (ht h)
    · rw [hsaved t hself (ht h)]
      apply hs.parked
      intro h'
      rcases eq_or_ne h' h with rfl | hne
      · exact hself
      · rw [← hother h' t hne]
        exact ht h'
  · intro h₁ h₂ hheld₁
    rcases eq_or_ne h₁ h with rfl | hne
    · exact hidle h₂ hheld₁
    · exact hs.idle_held h₁ h₂ ((hother h₁ _ hne).mp hheld₁)
  · exact habsent

theorem Exclusive.goto {pc : Pc Thread} {s₁ : State Thread Hart Process} (hs : Exclusive M s)
    (hpc : s₁.pc = s.pc) (hcurrent : s₁.currentThread = s.currentThread)
    (huses : ∀ t, Uses (s.currentThread h) pc t ↔ Held s h t)
    (hrunning : ∀ t, ¬Held s h t → s₁.running t = s.running t)
    (hsaved : ∀ t, ¬Held s h t → s₁.saved t = s.saved t)
    (hruns : Runs pc → s.currentThread h ≠ M.idle h → s₁.running (s.currentThread h) = true)
    (hfresh : Fresh s₁.saved (s.currentThread h) pc)
    (habsent : ∀ h', Absent s₁ (M.idle h')) : Exclusive M (s₁.goto h pc) := by
  have hself : (s₁.goto h pc).pc h = pc := Function.update_self ..
  have hsame : ∀ t, Held (s₁.goto h pc) h t ↔ Held s h t := by
    intro t
    rw [← huses t]
    unfold Held
    rw [hself]
    change Uses (s₁.currentThread h) pc t ↔ _
    rw [hcurrent]
  apply hs.move h
  · intro h' hne
    exact (Function.update_of_ne hne ..).trans (congrFun hpc h')
  · exact fun h' _ => congrFun hcurrent h'
  · intro t ht h' hh'
    exact hs.unique h' h t hh' ((hsame t).mp ht)
  · exact hrunning
  · exact fun t ht _ => hsaved t ht
  · intro t ht hnot
    exact absurd ((hsame t).mpr ht) hnot
  · rw [hself]
    change _ → s₁.currentThread h ≠ _ → s₁.running (s₁.currentThread h) = true
    rw [hcurrent]
    exact hruns
  · rw [hself]
    change Fresh s₁.saved (s₁.currentThread h) pc
    rw [hcurrent]
    exact hfresh
  · intro h' ht
    exact hs.idle_held h h' ((hsame _).mp ht)
  · exact fun h' => ⟨(habsent h').1, (habsent h').2, (habsent h').3, (habsent h').4,
      (habsent h').5⟩

theorem exclusive_push (hs : Exclusive M s) (hpc : s.pc h = .outside)
    (hidle : s.currentThread h ≠ M.idle h) :
    Exclusive M ({ s with
      waiting := Function.update s.waiting (s.currentThread h)
        (s.waiting (s.currentThread h) + 1) }.goto h .pushed) := by
  apply hs.goto
  · rfl
  · rfl
  · intro t
    rw [Held, hpc]
    rfl
  · exact fun t _ => rfl
  · exact fun t _ => rfl
  · intro _ hne
    exact hs.running h (hpc ▸ trivial) hne
  · trivial
  · intro h'
    obtain ⟨hready, hwaking, happending, hwaiting, hcreated⟩ := hs.idle_absent h'
    refine ⟨hready, hwaking, happending, ?_, hcreated⟩
    have hne : M.idle h' ≠ s.currentThread h := by
      intro heq
      have hh : h = h' := hs.idle_held h h' (heq ▸ held_current s h)
      exact hidle (hh ▸ heq.symm)
    simpa [hne] using hwaiting

theorem exclusive_block (hs : Exclusive M s) (hpc : s.pc h = .pushed) (cnt : Thread → Int) :
    Exclusive M ({ s with blockCnt := cnt }.goto h .blocked) := by
  apply hs.goto
  · rfl
  · rfl
  · intro t
    rw [Held, hpc]
    rfl
  · exact fun t _ => rfl
  · exact fun t _ => rfl
  · intro _ hne
    exact hs.running h (hpc ▸ trivial) hne
  · trivial
  · exact fun h' => ⟨(hs.idle_absent h').1, (hs.idle_absent h').2, (hs.idle_absent h').3,
      (hs.idle_absent h').4, (hs.idle_absent h').5⟩

theorem exclusive_enter (hs : Exclusive M s) (hpc : s.pc h = .outside ∨ s.pc h = .blocked) :
    Exclusive M ({ s with running := Function.update s.running (s.currentThread h) false }.goto h
      .cleared) := by
  apply hs.goto
  · rfl
  · rfl
  · intro t
    unfold Held
    rcases hpc with hpc | hpc <;> rw [hpc] <;> rfl
  · intro t ht
    have hne : t ≠ s.currentThread h := by
      rintro rfl
      exact ht (held_current s h)
    exact Function.update_of_ne hne ..
  · exact fun t _ => rfl
  · exact fun hruns => hruns.elim
  · trivial
  · exact fun h' => ⟨(hs.idle_absent h').1, (hs.idle_absent h').2, (hs.idle_absent h').3,
      (hs.idle_absent h').4, (hs.idle_absent h').5⟩

/-- The thread found is not used by a hart outside the scheduler either, since
it would look running. -/
theorem not_held_of_ready (hs : Exclusive M s) (hallowed : Undisturbed M s (.select h))
    (hnext : (selection M s h).next = some t) (ht : t ∈ s.readyQueue) (hready : s.ready t = true)
    {h' : Hart} (hne : h' ≠ h) : ¬Held s h' t := by
  intro hheld
  rcases Classical.em (InSwitch (s.pc h')) with hin | hin
  · exact hallowed t hnext h' hne hin hheld
  · have hout : Runs (s.pc h') ∧ t = s.currentThread h' := by
      unfold Held at hheld
      cases hpc : s.pc h' with
      | outside | pushed | blocked =>
          rw [hpc] at hheld
          exact ⟨trivial, hheld⟩
      | cleared | selected n | switching f n stage =>
          rw [hpc] at hin
          exact absurd trivial hin
    obtain ⟨hruns, rfl⟩ := hout
    have hidle : s.currentThread h' ≠ M.idle h' := by
      intro heq
      exact (hs.idle_absent h').readyQueue (heq ▸ ht)
    have hlooks := hs.running h' hruns hidle
    rw [(ready_iff.mp hready).2.2] at hlooks
    cases hlooks

theorem exclusive_select (hs : Exclusive M s) (hpc : s.pc h = .cleared)
    (hallowed : Undisturbed M s (.select h)) : Exclusive M (select M s h) := by
  obtain ⟨n, hselected⟩ : ∃ n, (select M s h).pc h = .selected n := ⟨_, Function.update_self ..⟩
  have hheld : ∀ t, Held s h t ↔ t = s.currentThread h := by
    intro t
    rw [Held, hpc]
    rfl
  have hheld' : ∀ t, Held (select M s h) h t ↔ t = s.currentThread h ∨ t = n := by
    intro t
    rw [Held, hselected]
    rfl
  have hnext : ∀ h', Held s h' n → h' = h := by
    intro h' hh'
    by_contra hne
    rcases selected_cases hselected with ⟨hfound, hmem, hready, -⟩ | hidle
    · rcases mem_requeued hmem with hqueue | ⟨hself, -⟩
      · exact not_held_of_ready hs hallowed hfound hqueue hready hne hh'
      · exact hne (hs.unique h' h n hh' ((hheld n).mpr hself))
    · exact hne (hs.idle_held h' h (hidle ▸ hh'))
  apply hs.move h
  · exact fun h' hne => Function.update_of_ne hne ..
  · exact fun h' _ => rfl
  · intro t ht h' hh'
    rcases (hheld' t).mp ht with hself | rfl
    · exact hs.unique h' h t hh' ((hheld t).mpr hself)
    · exact hnext h' hh'
  · exact fun t _ => rfl
  · exact fun t _ _ => rfl
  · intro t ht hnot
    exact absurd ((hheld' t).mpr (Or.inl ((hheld t).mp ht))) hnot
  · rw [hselected]
    exact fun hruns => hruns.elim
  · rw [hselected]
    intro hne
    apply hs.parked
    intro h' hh'
    obtain rfl := hnext h' hh'
    exact hne ((hheld n).mp hh')
  · intro h' ht
    rcases (hheld' _).mp ht with hself | hself
    · exact hs.idle_held h h' ((hheld _).mpr hself)
    · rcases selected_cases hselected with ⟨-, hmem, -, -⟩ | hidle
      · rcases mem_requeued hmem with hqueue | ⟨hcurrent, -⟩
        · exact absurd (hself ▸ hqueue) (hs.idle_absent h').readyQueue
        · exact hs.idle_held h h' ((hheld _).mpr (hself.trans hcurrent))
      · exact (M.idle_injective (hself.trans hidle)).symm
  · intro h'
    obtain ⟨hqueue, hwaking, happending, hwaiting, hcreated⟩ := hs.idle_absent h'
    refine ⟨?_, hwaking, happending, hwaiting, hcreated⟩
    intro hmem
    rcases mem_requeued ((selection_scanned M s h).queue_subset hmem) with hold | ⟨hself, hidle⟩
    · exact hqueue hold
    · have hh : h = h' := hs.idle_held h h' ((hheld _).mpr hself)
      exact hidle (hh ▸ hself.symm)

theorem exclusive_install {n : Thread} (hs : Exclusive M s) (hpc : s.pc h = .selected n) :
    Exclusive M ({ s with currentThread := Function.update s.currentThread h n }.goto h
      (.switching (s.currentThread h) n .installed)) := by
  have hheld : ∀ t, Held s h t ↔ t = s.currentThread h ∨ t = n := by
    intro t
    rw [Held, hpc]
    rfl
  have hheld' : ∀ t, Held ({ s with currentThread := Function.update s.currentThread h n }.goto h
      (.switching (s.currentThread h) n .installed)) h t ↔ t = n ∨ t = s.currentThread h := by
    intro t
    simp [Held, State.goto, Uses]
  apply hs.move h
  · exact fun h' hne => Function.update_of_ne hne ..
  · exact fun h' hne => Function.update_of_ne hne ..
  · intro t ht h' hh'
    exact hs.unique h' h t hh' ((hheld t).mpr ((hheld' t).mp ht).symm)
  · exact fun t _ => rfl
  · exact fun t _ _ => rfl
  · intro t ht hnot
    exact absurd ((hheld' t).mpr ((hheld t).mp ht).symm) hnot
  · simp [State.goto, Runs]
  · have hfresh := hs.fresh h
    rw [hpc] at hfresh
    simp only [State.goto, Function.update_self]
    exact ⟨rfl, hfresh⟩
  · intro h' ht
    exact hs.idle_held h h' ((hheld _).mpr ((hheld' _).mp ht).symm)
  · exact fun h' => ⟨(hs.idle_absent h').1, (hs.idle_absent h').2, (hs.idle_absent h').3,
      (hs.idle_absent h').4, (hs.idle_absent h').5⟩

theorem exclusive_assign {f n : Thread} {stage next : Stage} {s₁ : State Thread Hart Process}
    (hs : Exclusive M s) (hpc : s.pc h = .switching f n stage) (hstage : stage ≠ .saved)
    (hnext : next ≠ .saved) (hpc₁ : s₁.pc = s.pc) (hcurrent : s₁.currentThread = s.currentThread)
    (hrunning : ∀ t, ¬Held s h t → s₁.running t = s.running t)
    (hsaved : s₁.saved = s.saved)
    (hruns : Runs (.switching f n next) → s₁.running n = true)
    (habsent : ∀ h', Absent s₁ (M.idle h')) :
    Exclusive M (s₁.goto h (.switching f n next)) := by
  have hfresh := hs.fresh h
  rw [hpc] at hfresh
  have hinstalled : s.currentThread h = n := by
    cases stage <;> exact hfresh.1
  apply hs.goto hpc₁ hcurrent
  · intro t
    rw [Held, hpc]
    cases stage <;> cases next <;>
      first | exact Iff.rfl | exact absurd rfl hstage | exact absurd rfl hnext
  · exact hrunning
  · exact fun t _ => congrFun hsaved t
  · intro hr _
    rw [hinstalled]
    exact hruns hr
  · rw [hsaved]
    cases stage <;> cases next <;>
      first | exact hfresh | exact absurd rfl hstage | exact absurd rfl hnext
  · exact habsent

theorem exclusive_save {f n : Thread} (hs : Exclusive M s)
    (hpc : s.pc h = .switching f n .marked) :
    Exclusive M ({ s with saved := Function.update s.saved f true }.goto h
      (.switching f n .saved)) := by
  have hfresh := hs.fresh h
  rw [hpc] at hfresh
  have hheld : ∀ t, Held s h t ↔ t = s.currentThread h ∨ t = f := by
    intro t
    rw [Held, hpc]
    rfl
  have hheld' : ∀ t, Held ({ s with saved := Function.update s.saved f true }.goto h
      (.switching f n .saved)) h t ↔ t = s.currentThread h := by
    intro t
    simp [Held, State.goto, Uses]
  apply hs.move h
  · exact fun h' hne => Function.update_of_ne hne ..
  · exact fun h' _ => rfl
  · intro t ht h' hh'
    exact hs.unique h' h t hh' ((hheld t).mpr (Or.inl ((hheld' t).mp ht)))
  · exact fun t _ => rfl
  · intro t ht _
    have hne : t ≠ f := fun heq => ht ((hheld t).mpr (Or.inr heq))
    exact Function.update_of_ne hne ..
  · intro t ht hnot
    rcases (hheld t).mp ht with hcurrent | rfl
    · exact absurd ((hheld' t).mpr hcurrent) hnot
    · exact Function.update_self ..
  · intro _ hidle
    exact hs.running h (hpc ▸ trivial) hidle
  · simp only [State.goto, Function.update_self]
    refine ⟨hfresh.1, ?_⟩
    rcases eq_or_ne n f with rfl | hne
    · exact Function.update_self ..
    · rw [Function.update_of_ne hne]
      exact hfresh.2 hne
  · intro h' ht
    exact hs.idle_held h h' ((hheld _).mpr (Or.inl ((hheld' _).mp ht)))
  · exact fun h' => ⟨(hs.idle_absent h').1, (hs.idle_absent h').2, (hs.idle_absent h').3,
      (hs.idle_absent h').4, (hs.idle_absent h').5⟩

theorem exclusive_restore {f n : Thread} (hs : Exclusive M s)
    (hpc : s.pc h = .switching f n .saved) :
    Exclusive M ({ s with saved := Function.update s.saved n false }.goto h .outside) := by
  have hfresh := hs.fresh h
  rw [hpc] at hfresh
  apply hs.goto
  · rfl
  · rfl
  · intro t
    rw [Held, hpc]
    rfl
  · exact fun t _ => rfl
  · intro t ht
    have hne : t ≠ n := by
      rintro rfl
      exact ht (hfresh.1 ▸ held_current s h)
    exact Function.update_of_ne hne ..
  · intro _ hidle
    exact hs.running h (hpc ▸ trivial) hidle
  · trivial
  · exact fun h' => ⟨(hs.idle_absent h').1, (hs.idle_absent h').2, (hs.idle_absent h').3,
      (hs.idle_absent h').4, (hs.idle_absent h').5⟩

theorem exclusive_proceed (hs : Exclusive M s) (hstep : proceed s h = some s') :
    Exclusive M s' := by
  have habsent : ∀ h', Absent s (M.idle h') := hs.idle_absent
  unfold proceed at hstep
  split at hstep
  · next n hpc =>
      cases hstep
      exact exclusive_install hs hpc
  · next f n hpc =>
      cases hstep
      apply exclusive_assign hs hpc
      · simp
      · simp
      · rfl
      · rfl
      · exact fun t _ => rfl
      · rfl
      · exact False.elim
      · exact fun h' => ⟨(habsent h').1, (habsent h').2, (habsent h').3, (habsent h').4,
          (habsent h').5⟩
  · next f n hpc =>
      cases hstep
      apply exclusive_assign hs hpc
      · simp
      · simp
      · rfl
      · rfl
      · exact fun t _ => rfl
      · rfl
      · exact False.elim
      · exact fun h' => ⟨(habsent h').1, (habsent h').2, (habsent h').3, (habsent h').4,
          (habsent h').5⟩
  · next f n hpc =>
      cases hstep
      apply exclusive_assign hs hpc
      · simp
      · simp
      · rfl
      · rfl
      · intro t ht
        have hne : t ≠ f := by
          rintro rfl
          rw [Held, hpc] at ht
          exact ht (Or.inr rfl)
        exact Function.update_of_ne hne ..
      · rfl
      · exact False.elim
      · exact fun h' => ⟨(habsent h').1, (habsent h').2, (habsent h').3, (habsent h').4,
          (habsent h').5⟩
  · next f n hpc =>
      cases hstep
      have hfresh := hs.fresh h
      rw [hpc] at hfresh
      apply exclusive_assign hs hpc
      · simp
      · simp
      · rfl
      · rfl
      · intro t ht
        have hne : t ≠ n := by
          rintro rfl
          exact ht (hfresh.1 ▸ held_current s h)
        exact Function.update_of_ne hne ..
      · rfl
      · exact fun _ => Function.update_self ..
      · exact fun h' => ⟨(habsent h').1, (habsent h').2, (habsent h').3, (habsent h').4,
          (habsent h').5⟩
  · next f n hpc =>
      cases hstep
      exact exclusive_save hs hpc
  · next f n hpc =>
      cases hstep
      exact exclusive_restore hs hpc
  · cases hstep

theorem Exclusive.of_absent (hs : Exclusive M s) (hpc : s'.pc = s.pc)
    (hcurrent : s'.currentThread = s.currentThread) (hrunning : s'.running = s.running)
    (hsaved : s'.saved = s.saved) (habsent : ∀ h, Absent s' (M.idle h)) : Exclusive M s' := by
  have hheld : ∀ h t, Held s' h t ↔ Held s h t := by
    intro h t
    unfold Held
    rw [hpc, hcurrent]
  constructor
  · intro h h' t hh hh'
    exact hs.unique h h' t ((hheld h t).mp hh) ((hheld h' t).mp hh')
  · intro h
    rw [hpc, hcurrent, hrunning]
    exact hs.running h
  · intro h
    rw [hpc, hcurrent, hsaved]
    exact hs.fresh h
  · intro t ht
    rw [hsaved]
    exact hs.parked t fun h hh => ht h ((hheld h t).mpr hh)
  · intro h h' hh
    exact hs.idle_held h h' ((hheld h _).mp hh)
  · exact habsent

theorem absent_step {a : Action Thread Hart Process} (hs : Absent s t)
    (hstep : step M s a = some s')
    (ha : ∀ h, a ≠ .push h ∧ a ≠ .block h ∧ a ≠ .enter h ∧ a ≠ .select h ∧ a ≠ .proceed h) :
    Absent s' t := by
  obtain ⟨hready, hwaking, happending, hwaiting, hcreated⟩ := hs
  cases a with
  | push h => exact absurd rfl (ha h).1
  | block h => exact absurd rfl (ha h).2.1
  | enter h => exact absurd rfl (ha h).2.2.1
  | select h => exact absurd rfl (ha h).2.2.2.1
  | proceed h => exact absurd rfl (ha h).2.2.2.2
  | wake u =>
      obtain ⟨hu, ⟨⟩⟩ := Option.ite_none_right_eq_some.mp hstep
      have hne : t ≠ u := by
        rintro rfl
        omega
      refine ⟨hready, ?_, happending, ?_, hcreated⟩
      · unfold wake
        dsimp only
        split
        · exact List.not_mem_cons_of_ne_of_not_mem hne hwaking
        · exact hwaking
      · exact (Function.update_of_ne hne ..).trans hwaiting
  | testExited u =>
      obtain ⟨hu, ⟨⟩⟩ := Option.ite_none_right_eq_some.mp hstep
      have hne : t ≠ u := by
        rintro rfl
        exact hwaking hu
      refine ⟨hready, fun hmem => hwaking (List.mem_of_mem_erase hmem), ?_, hwaiting, hcreated⟩
      unfold testExited
      dsimp only
      split
      · exact happending
      · exact List.not_mem_cons_of_ne_of_not_mem hne happending
  | append u =>
      obtain ⟨hu, ⟨⟩⟩ := Option.ite_none_right_eq_some.mp hstep
      have hne : t ≠ u := by
        rintro rfl
        exact happending hu
      refine ⟨?_, hwaking, fun hmem => happending (List.mem_of_mem_erase hmem), hwaiting, hcreated⟩
      simp [hready, hne]
  | create u =>
      obtain ⟨hu, ⟨⟩⟩ := Option.ite_none_right_eq_some.mp hstep
      have hne : t ≠ u := by
        rintro rfl
        rw [hcreated] at hu
        cases hu
      refine ⟨?_, hwaking, happending, hwaiting, ?_⟩
      · simp [hready, hne]
      · exact (Function.update_of_ne hne ..).trans hcreated
  | exit u =>
      cases hstep
      exact ⟨hready, hwaking, happending, hwaiting, hcreated⟩
  | taskSet p mask =>
      cases hstep
      exact ⟨hready, hwaking, happending, hwaiting, hcreated⟩

theorem exclusive_step {a : Action Thread Hart Process} (hs : Exclusive M s)
    (hallowed : Undisturbed M s a) (hstep : step M s a = some s') : Exclusive M s' := by
  have hquiet : (∀ h, a ≠ .push h ∧ a ≠ .block h ∧ a ≠ .enter h ∧ a ≠ .select h ∧
      a ≠ .proceed h) → ∀ h, Absent s' (M.idle h) := fun ha h =>
    absent_step (hs.idle_absent h) hstep ha
  cases a with
  | push h =>
      obtain ⟨⟨hpc, hidle⟩, ⟨⟩⟩ := Option.ite_none_right_eq_some.mp hstep
      exact exclusive_push hs hpc hidle
  | block h =>
      obtain ⟨hpc, ⟨⟩⟩ := Option.ite_none_right_eq_some.mp hstep
      exact exclusive_block hs hpc _
  | enter h =>
      obtain ⟨hpc, ⟨⟩⟩ := Option.ite_none_right_eq_some.mp hstep
      exact exclusive_enter hs hpc
  | select h =>
      obtain ⟨hpc, ⟨⟩⟩ := Option.ite_none_right_eq_some.mp hstep
      exact exclusive_select hs hpc hallowed
  | proceed h => exact exclusive_proceed hs hstep
  | wake t | testExited t | append t | create t =>
      have habsent := hquiet (by simp)
      obtain ⟨-, ⟨⟩⟩ := Option.ite_none_right_eq_some.mp hstep
      exact hs.of_absent rfl rfl rfl rfl habsent
  | exit t | taskSet p mask =>
      have habsent := hquiet (by simp)
      cases hstep
      exact hs.of_absent rfl rfl rfl rfl habsent

theorem exclusive_start (hs : Start M s) : Exclusive M s := by
  have hheld : ∀ h t, Held s h t ↔ t = M.idle h := by
    intro h t
    rw [Held, hs.pc h, hs.current h]
    rfl
  constructor
  · intro h h' t hh hh'
    rw [hheld] at hh hh'
    exact M.idle_injective (hh.symm.trans hh')
  · intro h _ hne
    exact absurd (hs.current h) hne
  · intro h
    rw [hs.pc h]
    trivial
  · intro t ht
    apply (hs.saved t).mpr
    intro h heq
    exact ht h ((hheld h t).mpr heq.symm)
  · intro h h' hh
    exact M.idle_injective ((hheld h _).mp hh).symm
  · intro h
    constructor
    · simp [hs.readyQueue]
    · simp [hs.waking]
    · simp [hs.appending]
    · exact hs.waiting _
    · exact (hs.created _).mpr ⟨h, rfl⟩

/-- In every undisturbed run no thread is current on two harts and every
context is restored only after it was saved. -/
theorem safelySwitched_of_undisturbed (hs : ReachableUnder (system M) (Undisturbed M) s) :
    SafelySwitched s := by
  apply Exclusive.safelySwitched (M := M)
  apply hs.invariant (P := Exclusive M)
  · exact fun s hstart => exclusive_start hstart
  · exact fun s a s' hs hallowed hstep => exclusive_step hs hallowed hstep

theorem neZero_two : @NeZero Nat Zero.ofOfNat0 2 := ⟨by decide⟩

attribute [local instance] neZero_two in
/-- Thread 2 runs on hart 0 and is preempted by thread 3, while hart 1 stays
idle. -/
def preempted : List (Action Nat (Fin 2) Unit) :=
  [.create 2, .enter 0, .select 0] ++ List.replicate 7 (.proceed 0) ++
    [.create 3, .enter 0, .select 0]

theorem preempted_safelySwitched :
    (permittedState (Undisturbed twoHarts) (step twoHarts) booted preempted).pc 0 = .selected 3 ∧
      SafelySwitched (permittedState (Undisturbed twoHarts) (step twoHarts) booted preempted) :=
  ⟨by decide, safelySwitched_of_undisturbed (M := twoHarts)
    (permittedState_reachableUnder booted_start preempted)⟩

attribute [local instance] neZero_two in
/-- Hart 0 puts thread 2 back into the queue and selects thread 3; before hart
0 has switched, hart 1 takes thread 2 and restores its context. -/
def stolen : List (Action Nat (Fin 2) Unit) :=
  preempted ++ [.enter 1, .select 1] ++ List.replicate 6 (.proceed 1)

theorem stolen_not_safelySwitched :
    ¬ ∀ s : State Nat (Fin 2) Unit, Reachable (system twoHarts) s → SafelySwitched s := by
  intro hall
  have hsafe := hall (after stolen) (after_reachable stolen)
  have hrestores : (after stolen).pc 1 = .switching 1 2 .saved := by decide
  have hsaved := hsafe.2 1 1 2 hrestores
  have hunsaved : (after stolen).saved 2 = false := by decide
  rw [hunsaved] at hsaved
  cases hsaved

end LabKernel.ContextSwitch
