import Mathlib.Data.List.Count
import LabKernel.ProcessLife

/-!
When the termination of a process is complete.

A thread that kills its own process is reached by the loop of `Process::kill`
while `process_own_lock` is held.  It enters the scheduler there and never
comes back, so the rest of `Process::kill` is never executed.  In every other
case the whole of it is executed before control goes to another thread.
-/

set_option linter.unusedSectionVars false

namespace LabKernel.ProcessTermination

open LabKernel.ProcessLife
open LabKernel.TransitionSystem

variable {Thread Process Obj : Type*} [DecidableEq Thread] [DecidableEq Process]
  [DecidableEq Obj] {idle t : Thread} {p : Process} {depth : Nat}
  {s s' s₁ : State Thread Process Obj}

/-- Wake-ups and exits of threads leave the rest of the state as it is. -/
structure Fixed (s s' : State Thread Process Obj) : Prop where
  process : s'.process = s.process
  current : s'.currentThread = s.currentThread
  threads : s'.threads = s.threads
  isKilled : s'.isKilled = s.isKilled
  lock : s'.processOwnLock = s.processOwnLock
  parent : s'.parent = s.parent
  children : s'.children = s.children
  objects : s'.kernelObjects = s.kernelObjects
  unregistered : s'.unregistered = s.unregistered
  threadCreated : s'.threadCreated = s.threadCreated
  processCreated : s'.processCreated = s.processCreated

theorem Fixed.refl (s : State Thread Process Obj) : Fixed s s := by
  constructor <;> rfl

theorem Fixed.trans {s'' : State Thread Process Obj} (h : Fixed s s') (h' : Fixed s' s'') :
    Fixed s s'' where
  process := h'.process.trans h.process
  current := h'.current.trans h.current
  threads := h'.threads.trans h.threads
  isKilled := h'.isKilled.trans h.isKilled
  lock := h'.lock.trans h.lock
  parent := h'.parent.trans h.parent
  children := h'.children.trans h.children
  objects := h'.objects.trans h.objects
  unregistered := h'.unregistered.trans h.unregistered
  threadCreated := h'.threadCreated.trans h.threadCreated
  processCreated := h'.processCreated.trans h.processCreated

theorem wakeupAll_fixed (s : State Thread Process Obj) (que : List Thread) :
    Fixed s (wakeupAll s que) ∧ (wakeupAll s que).exited = s.exited ∧
      (wakeupAll s que).activeThreadCnt = s.activeThreadCnt := by
  unfold wakeupAll
  induction que generalizing s with
  | nil => exact ⟨Fixed.refl s, rfl, rfl⟩
  | cons t rest ih =>
      obtain ⟨hfixed, hexited, hactive⟩ := ih (wakeup s t)
      have hwakeup : Fixed s (wakeup s t) := by
        constructor <;> rfl
      exact ⟨hwakeup.trans hfixed, hexited, hactive⟩

theorem markExited_fixed (s : State Thread Process Obj) (t : Thread) :
    Fixed s (markExited s t) ∧ (markExited s t).exited = Function.update s.exited t true := by
  obtain ⟨hfixed, hexited, -⟩ := wakeupAll_fixed { s with
    exited := Function.update s.exited t true
    waitExitedQueue := Function.update s.waitExitedQueue t [] } (s.waitExitedQueue t)
  refine ⟨?_, hexited⟩
  exact ⟨hfixed.process, hfixed.current, hfixed.threads, hfixed.isKilled, hfixed.lock,
    hfixed.parent, hfixed.children, hfixed.objects, hfixed.unregistered, hfixed.threadCreated,
    hfixed.processCreated⟩

/-- The tables of threads are right, and each counter counts the threads that
have not exited. -/
structure Accounts (s : State Thread Process Obj) : Prop where
  nodup : ∀ p, (s.threads p).Nodup
  mem_threads : ∀ p t, t ∈ s.threads p ↔ s.threadCreated t = true ∧ s.process t = p
  active : ∀ p, s.activeThreadCnt p = (s.threads p).countP fun t => !s.exited t

structure Inv (s : State Thread Process Obj) : Prop extends Accounts s where
  lock_killed : ∀ p, s.processOwnLock p = true → s.isKilled p = true
  objects_nodup : ∀ p, (s.kernelObjects p).Nodup
  children : ∀ c p, s.parent c = some p → c ∈ s.children p
  children_created : ∀ c p, c ∈ s.children p → s.processCreated c = true
  children_parent : ∀ c p, s.isKilled p = false → c ∈ s.children p → s.parent c = some p
  ranked : ∃ rank : Process → Nat, ∀ c p, s.parent c = some p → rank p < rank c
  parent_created : ∀ c p, s.parent c = some p → s.processCreated p = true
  thread_process : ∀ t, s.threadCreated t = true → s.processCreated (s.process t) = true
  current_created : s.threadCreated s.currentThread = true

theorem countP_exit {l : List Thread} {exited : Thread → Bool} (hnodup : l.Nodup) (ht : t ∈ l)
    (hexited : exited t = false) :
    l.countP (fun u => !Function.update exited t true u) + 1 = l.countP fun u => !exited u := by
  induction l with
  | nil => cases ht
  | cons u rest ih =>
      obtain ⟨hu, hrest⟩ := List.nodup_cons.mp hnodup
      rcases List.mem_cons.mp ht with rfl | ht
      · have hsame : rest.countP (fun u => !Function.update exited t true u) =
            rest.countP fun u => !exited u := by
          apply List.countP_congr
          intro v hv
          have hne : v ≠ t := fun heq => hu (heq ▸ hv)
          rw [Function.update_of_ne hne]
        simp [hsame, hexited]
      · have hne : u ≠ t := fun heq => hu (heq ▸ ht)
        have hstep := ih hrest ht
        simp only [List.countP_cons, Function.update_of_ne hne]
        omega

theorem accounts_markExited (hs : Accounts s) (hcreated : s.threadCreated t = true)
    (hexited : s.exited t = false) : Accounts (markExited s t) := by
  obtain ⟨hfixed, hexited'⟩ := markExited_fixed s t
  have hmem : t ∈ s.threads (s.process t) := (hs.mem_threads _ t).mpr ⟨hcreated, rfl⟩
  have hcount := countP_exit (hs.nodup _) hmem hexited
  constructor
  · rw [hfixed.threads]
    exact hs.nodup
  · rw [hfixed.threads, hfixed.threadCreated, hfixed.process]
    exact hs.mem_threads
  · intro p
    rw [hfixed.threads, hexited']
    change Function.update s.activeThreadCnt (s.process t) _ p = _
    rcases eq_or_ne p (s.process t) with rfl | hne
    · have hactive := hs.active (s.process t)
      rw [Function.update_self, if_neg (by omega)]
      omega
    · rw [Function.update_of_ne hne, hs.active p]
      apply List.countP_congr
      intro u hu
      have hut : u ≠ t := by
        rintro rfl
        exact hne ((hs.mem_threads p u).mp hu).2.symm
      rw [Function.update_of_ne hut]

theorem Inv.of_fixed (hs : Inv s) (hfixed : Fixed s s') (haccounts : Accounts s') : Inv s' := by
  refine ⟨haccounts, ?_, ?_, ?_, ?_, ?_, ?_, ?_, ?_, ?_⟩
  · rw [hfixed.lock, hfixed.isKilled]
    exact hs.lock_killed
  · rw [hfixed.objects]
    exact hs.objects_nodup
  · rw [hfixed.parent, hfixed.children]
    exact hs.children
  · rw [hfixed.children, hfixed.processCreated]
    exact hs.children_created
  · rw [hfixed.isKilled, hfixed.children, hfixed.parent]
    exact hs.children_parent
  · rw [hfixed.parent]
    exact hs.ranked
  · rw [hfixed.parent, hfixed.processCreated]
    exact hs.parent_created
  · rw [hfixed.threadCreated, hfixed.process, hfixed.processCreated]
    exact hs.thread_process
  · rw [hfixed.threadCreated, hfixed.current]
    exact hs.current_created

theorem exit_of_killed (hkilled : s.isKilled (s.process t) = true) :
    exit (depth + 2) s t =
      if s.exited t then .returned s
      else if t = s.currentThread then .left (markExited s t)
      else .returned (markExited s t) := by
  obtain ⟨hfixed, -⟩ := markExited_fixed s t
  have hreturns : kill (depth + 1) (markExited s t) (s.process t) =
      .returned (markExited s t) := by
    rw [kill, hfixed.isKilled, if_pos hkilled]
  rw [exit, hreturns, ite_self, Outcome.andThen, hfixed.current]

theorem forEach_exit_returns {ts : List Thread} (depth : Nat) (hs : Accounts s)
    (hts : ∀ t ∈ ts, s.threadCreated t = true ∧ s.isKilled (s.process t) = true)
    (hcurrent : s.currentThread ∈ ts → s.exited s.currentThread = true) :
    ∃ s', Outcome.forEach (fun s t => exit (depth + 2) s t) ts s = .returned s' ∧ Fixed s s' ∧
      Accounts s' ∧ ∀ t, s'.exited t = true ↔ s.exited t = true ∨ t ∈ ts := by
  induction ts generalizing s with
  | nil => exact ⟨s, rfl, Fixed.refl s, hs, fun t => by simp⟩
  | cons t rest ih =>
      obtain ⟨hcreated, hkilled⟩ := hts t List.mem_cons_self
      have hrest : ∀ u ∈ rest, s.threadCreated u = true ∧ s.isKilled (s.process u) = true :=
        fun u hu => hts u (List.mem_cons_of_mem t hu)
      rw [Outcome.forEach, exit_of_killed hkilled]
      cases hexited : s.exited t with
      | true =>
          obtain ⟨s', hloop, hfixed, haccounts, hiff⟩ :=
            ih hs hrest fun hmem => hcurrent (List.mem_cons_of_mem t hmem)
          refine ⟨s', by simpa [Outcome.andThen] using hloop, hfixed, haccounts, fun u => ?_⟩
          rw [hiff, List.mem_cons]
          constructor
          · rintro (hu | hu)
            · exact Or.inl hu
            · exact Or.inr (Or.inr hu)
          · rintro (hu | rfl | hu)
            · exact Or.inl hu
            · exact Or.inl hexited
            · exact Or.inr hu
      | false =>
          have hne : t ≠ s.currentThread := by
            rintro rfl
            rw [hcurrent List.mem_cons_self] at hexited
            cases hexited
          obtain ⟨hfixed₁, hexited₁⟩ := markExited_fixed s t
          have hhyp : ∀ u ∈ rest, (markExited s t).threadCreated u = true ∧
              (markExited s t).isKilled ((markExited s t).process u) = true := by
            rw [hfixed₁.threadCreated, hfixed₁.isKilled, hfixed₁.process]
            exact hrest
          have hcurrent₁ : (markExited s t).currentThread ∈ rest →
              (markExited s t).exited (markExited s t).currentThread = true := by
            rw [hfixed₁.current, hexited₁, Function.update_of_ne hne.symm]
            exact fun hmem => hcurrent (List.mem_cons_of_mem t hmem)
          obtain ⟨s', hloop, hfixed, haccounts, hiff⟩ :=
            ih (accounts_markExited hs hcreated hexited) hhyp hcurrent₁
          refine ⟨s', by simpa [Outcome.andThen, hne] using hloop, hfixed₁.trans hfixed,
            haccounts, fun u => ?_⟩
          rw [hiff, hexited₁, List.mem_cons]
          rcases eq_or_ne u t with rfl | hut
          · simp
          · simp [hut]

theorem forEach_exit_leaves {ts : List Thread} (depth : Nat) (hs : Accounts s)
    (hts : ∀ t ∈ ts, s.threadCreated t = true ∧ s.isKilled (s.process t) = true)
    (hcurrent : s.currentThread ∈ ts) (hrunning : s.exited s.currentThread = false) :
    ∃ s', Outcome.forEach (fun s t => exit (depth + 2) s t) ts s = .left s' ∧ Fixed s s' ∧
      Accounts s' := by
  induction ts generalizing s with
  | nil => cases hcurrent
  | cons t rest ih =>
      obtain ⟨hcreated, hkilled⟩ := hts t List.mem_cons_self
      have hrest : ∀ u ∈ rest, s.threadCreated u = true ∧ s.isKilled (s.process u) = true :=
        fun u hu => hts u (List.mem_cons_of_mem t hu)
      rw [Outcome.forEach, exit_of_killed hkilled]
      rcases eq_or_ne t s.currentThread with rfl | hne
      · obtain ⟨hfixed₁, -⟩ := markExited_fixed s s.currentThread
        refine ⟨markExited s s.currentThread, ?_, hfixed₁,
          accounts_markExited hs hcreated hrunning⟩
        simp [hrunning, Outcome.andThen]
      · have hmem : s.currentThread ∈ rest := (List.mem_cons.mp hcurrent).resolve_left hne.symm
        cases hexited : s.exited t with
        | true =>
            obtain ⟨s', hloop, hfixed, haccounts⟩ := ih hs hrest hmem hrunning
            exact ⟨s', by simpa [Outcome.andThen] using hloop, hfixed, haccounts⟩
        | false =>
            obtain ⟨hfixed₁, hexited₁⟩ := markExited_fixed s t
            have hhyp : ∀ u ∈ rest, (markExited s t).threadCreated u = true ∧
                (markExited s t).isKilled ((markExited s t).process u) = true := by
              rw [hfixed₁.threadCreated, hfixed₁.isKilled, hfixed₁.process]
              exact hrest
            obtain ⟨s', hloop, hfixed, haccounts⟩ :=
              ih (accounts_markExited hs hcreated hexited) hhyp
                (by rw [hfixed₁.current]; exact hmem)
                (by rw [hfixed₁.current, hexited₁, Function.update_of_ne hne.symm]; exact hrunning)
            exact ⟨s', by simpa [Outcome.andThen, hne] using hloop, hfixed₁.trans hfixed, haccounts⟩

theorem markKilled_inv (hs : Inv s) (p : Process) : Inv (markKilled s p) := by
  have hmarked : Inv { s with
      processOwnLock := Function.update s.processOwnLock p true
      isKilled := Function.update s.isKilled p true
      waitKillQueue := Function.update s.waitKillQueue p [] } := by
    refine ⟨⟨hs.nodup, hs.mem_threads, hs.active⟩, ?_, hs.objects_nodup, hs.children,
      hs.children_created, ?_, hs.ranked, hs.parent_created, hs.thread_process,
      hs.current_created⟩
    · intro q hq
      dsimp only at hq ⊢
      rcases eq_or_ne q p with rfl | hne
      · exact Function.update_self ..
      · rw [Function.update_of_ne hne] at hq ⊢
        exact hs.lock_killed q hq
    · intro c q hq
      dsimp only at hq
      rcases eq_or_ne q p with rfl | hne
      · rw [Function.update_self] at hq
        cases hq
      · rw [Function.update_of_ne hne] at hq
        exact hs.children_parent c q hq
  obtain ⟨hfixed, hexited, hactive⟩ := wakeupAll_fixed { s with
    processOwnLock := Function.update s.processOwnLock p true
    isKilled := Function.update s.isKilled p true
    waitKillQueue := Function.update s.waitKillQueue p [] } (s.waitKillQueue p)
  apply hmarked.of_fixed hfixed
  constructor
  · rw [hfixed.threads]
    exact hs.nodup
  · rw [hfixed.threads, hfixed.threadCreated, hfixed.process]
    exact hs.mem_threads
  · rw [hfixed.threads, hexited, hactive]
    exact hs.active

theorem markKilled_same (s : State Thread Process Obj) (p : Process) :
    (markKilled s p).isKilled = Function.update s.isKilled p true ∧
      (markKilled s p).processOwnLock p = true ∧ (markKilled s p).exited = s.exited ∧
      (markKilled s p).threads = s.threads ∧ (markKilled s p).currentThread = s.currentThread ∧
      (markKilled s p).process = s.process ∧ (markKilled s p).parent = s.parent ∧
      (markKilled s p).children = s.children ∧
      (markKilled s p).kernelObjects = s.kernelObjects ∧
      (markKilled s p).unregistered = s.unregistered := by
  obtain ⟨hfixed, hexited, -⟩ := wakeupAll_fixed { s with
    processOwnLock := Function.update s.processOwnLock p true
    isKilled := Function.update s.isKilled p true
    waitKillQueue := Function.update s.waitKillQueue p [] } (s.waitKillQueue p)
  refine ⟨hfixed.isKilled, ?_, hexited, hfixed.threads, hfixed.current, hfixed.process,
    hfixed.parent, hfixed.children, hfixed.objects, hfixed.unregistered⟩
  exact (congrFun hfixed.lock p).trans (Function.update_self ..)

/-- The loop over the children gives them a new parent and changes nothing
else. -/
structure Adopted (q : Process) (l : List Process) (s s' : State Thread Process Obj) : Prop where
  parent : ∀ c, s'.parent c = if c ∈ l ∧ s.isKilled c = false then some q else s.parent c
  children : ∀ c r, c ∈ s'.children r ↔
    c ∈ s.children r ∨ (r = q ∧ c ∈ l ∧ s.isKilled c = false)
  rest : ∃ parent children, s' = { s with parent := parent, children := children }

theorem foldl_reparent (q : Process) (l : List Process) (s : State Thread Process Obj) :
    Adopted q l s (l.foldl (reparent q) s) := by
  induction l generalizing s with
  | nil => exact ⟨fun c => by simp, fun c r => by simp, s.parent, s.children, rfl⟩
  | cons c rest ih =>
      rw [List.foldl_cons]
      have hstep := ih (reparent q s c)
      unfold reparent at hstep ⊢
      cases hkilled : s.isKilled c with
      | true =>
          simp only [hkilled, if_true] at hstep ⊢
          refine ⟨fun d => ?_, fun d r => ?_, hstep.rest⟩
          · rw [hstep.parent]
            rcases eq_or_ne d c with rfl | hne
            · simp [hkilled]
            · simp [hne]
          · rw [hstep.children]
            rcases eq_or_ne d c with rfl | hne
            · simp [hkilled]
            · simp [hne]
      | false =>
          simp only [hkilled, Bool.false_eq_true, if_false] at hstep ⊢
          refine ⟨fun d => ?_, fun d r => ?_, ?_⟩
          · rw [hstep.parent]
            dsimp only
            rcases eq_or_ne d c with rfl | hne
            · simp [hkilled]
            · simp [hne]
          · rw [hstep.children]
            dsimp only
            rcases eq_or_ne r q with rfl | hr <;> rcases eq_or_ne d c with rfl | hne
            · simp [hkilled]
            · simp [hne]
            · simp [hr]
            · simp [hr]
          · obtain ⟨parent, children, heq⟩ := hstep.rest
            exact ⟨parent, children, heq⟩

theorem reparentAll_spec (hs : Inv s) (hkilled : s.isKilled p = true)
    (hchildren : ∀ c ∈ s.children p, s.parent c = some p) :
    (∀ c, (reparentAll s p).parent c =
        if s.parent p ≠ none ∧ c ∈ s.children p ∧ s.isKilled c = false then s.parent p
        else s.parent c) ∧
      Inv (reparentAll s p) ∧
      ∃ parent children, reparentAll s p = { s with parent := parent, children := children } := by
  unfold reparentAll
  cases hparent : s.parent p with
  | none => exact ⟨fun c => by simp, hs, s.parent, s.children, rfl⟩
  | some q =>
      dsimp only
      have hadopted := foldl_reparent q (s.children p) s
      refine ⟨fun c => ?_, ?_, hadopted.rest⟩
      · rw [hadopted.parent]
        simp
      · obtain ⟨parent, children, heq⟩ := hadopted.rest
        rw [heq] at hadopted ⊢
        have hcases : ∀ c r, parent c = some r →
            (r = q ∧ c ∈ s.children p ∧ s.isKilled c = false) ∨ s.parent c = some r := by
          intro c r hc
          have hc' : parent c = _ := hadopted.parent c
          rw [hc] at hc'
          split at hc'
          · next hadopt => exact Or.inl ⟨Option.some.inj hc', hadopt⟩
          · exact Or.inr hc'.symm
        refine ⟨⟨hs.nodup, hs.mem_threads, hs.active⟩, hs.lock_killed, hs.objects_nodup, ?_, ?_, ?_,
          ?_, ?_, hs.thread_process, hs.current_created⟩
        · intro c r hc
          apply (hadopted.children c r).mpr
          rcases hcases c r hc with hadopt | hold
          · exact Or.inr hadopt
          · exact Or.inl (hs.children c r hold)
        · intro c r hc
          rcases (hadopted.children c r).mp hc with hold | ⟨-, hchild, -⟩
          · exact hs.children_created c r hold
          · exact hs.children_created c p hchild
        · intro c r hr hc
          change parent c = some r
          have hc' : parent c = _ := hadopted.parent c
          rw [hc']
          rcases (hadopted.children c r).mp hc with hold | ⟨rfl, hadopt⟩
          · have hcr := hs.children_parent c r hr hold
            have hnot : ¬(c ∈ s.children p ∧ s.isKilled c = false) := by
              rintro ⟨hchild, -⟩
              rw [hchildren c hchild] at hcr
              cases hcr
              change s.isKilled p = false at hr
              rw [hkilled] at hr
              cases hr
            rw [if_neg hnot, hcr]
          · rw [if_pos hadopt]
        · obtain ⟨rank, hrank⟩ := hs.ranked
          refine ⟨rank, fun c r hc => ?_⟩
          rcases hcases c r hc with ⟨rfl, hchild, -⟩ | hold
          · exact Nat.lt_trans (hrank p r hparent) (hrank c p (hchildren c hchild))
          · exact hrank c r hold
        · intro c r hc
          rcases hcases c r hc with ⟨rfl, -⟩ | hold
          · exact hs.parent_created p r hparent
          · exact hs.parent_created c r hold

/-- The process has a parent or no live child. -/
def Adoptable (s : State Thread Process Obj) (p : Process) : Prop :=
  s.parent p ≠ none ∨ ∀ c, s.parent c = some p → s.isKilled c = true

theorem Inv.child_ne {c : Process} (hs : Inv s) (hc : s.parent c = some p) : c ≠ p := by
  rintro rfl
  obtain ⟨rank, hrank⟩ := hs.ranked
  exact Nat.lt_irrefl _ (hrank c c hc)

theorem complete_congr (hobjects : s₁.kernelObjects = s.kernelObjects)
    (hunregistered : s₁.unregistered = s.unregistered) (hparent : s₁.parent = s.parent)
    (hkilled : ∀ c, s.parent c = some p → s₁.isKilled c = s.isKilled c) :
    (Complete s₁ s' p ↔ Complete s s' p) ∧ (Adoptable s₁ p ↔ Adoptable s p) := by
  have hiff : ∀ P : Bool → Prop, (∀ c, s₁.parent c = some p → P (s₁.isKilled c)) ↔
      ∀ c, s.parent c = some p → P (s.isKilled c) := by
    intro P
    rw [hparent]
    exact forall_congr' fun c => ⟨fun h hc => hkilled c hc ▸ h hc, fun h hc => hkilled c hc ▸ h hc⟩
  constructor
  · constructor
    · intro h
      refine ⟨h.killed, h.exited, h.active, hobjects ▸ hunregistered ▸ h.unregistered, ?_,
        h.queued, h.lock⟩
      intro c hc halive
      rw [← hparent]
      exact h.reparented c (hparent ▸ hc) ((hkilled c hc).trans halive)
    · intro h
      refine ⟨h.killed, h.exited, h.active, hobjects ▸ hunregistered ▸ h.unregistered, ?_,
        h.queued, h.lock⟩
      intro c hc halive
      rw [hparent] at hc ⊢
      exact h.reparented c hc ((hkilled c hc).symm.trans halive)
  · unfold Adoptable
    rw [hiff fun b => b = true, hparent]

/-- After its threads have exited, the rest of `Process::kill` takes the
process down completely if its children can be given to its parent. -/
theorem finishKill_spec (hs : Inv s) (hkilled : s.isKilled p = true)
    (hchildren : ∀ c ∈ s.children p, s.parent c = some p)
    (hexited : ∀ t ∈ s.threads p, s.exited t = true) :
    Inv (finishKill s p) ∧ (finishKill s p).currentThread = s.currentThread ∧
      (finishKill s p).exited = s.exited ∧ (finishKill s p).process = s.process ∧
      (Complete s (finishKill s p) p ↔ Adoptable s p) := by
  have hunlocked : Inv { s with
      processOwnLock := Function.update s.processOwnLock p false
      unregistered := s.unregistered ++ (s.kernelObjects p).map (p, ·) } := by
    refine ⟨⟨hs.nodup, hs.mem_threads, hs.active⟩, ?_, hs.objects_nodup, hs.children,
      hs.children_created, hs.children_parent, hs.ranked, hs.parent_created, hs.thread_process,
      hs.current_created⟩
    intro q hq
    dsimp only at hq
    rcases eq_or_ne q p with rfl | hne
    · rw [Function.update_self] at hq
      cases hq
    · rw [Function.update_of_ne hne] at hq
      exact hs.lock_killed q hq
  obtain ⟨hparent, hinv, parent, children, heq⟩ := reparentAll_spec hunlocked hkilled hchildren
  unfold finishKill
  dsimp only at hparent ⊢
  rw [heq] at hparent hinv ⊢
  dsimp only at hparent ⊢
  refine ⟨⟨⟨hinv.nodup, hinv.mem_threads, hinv.active⟩, hinv.lock_killed, hinv.objects_nodup,
    hinv.children, hinv.children_created, hinv.children_parent, hinv.ranked, hinv.parent_created,
    hinv.thread_process, hinv.current_created⟩, rfl, rfl, rfl, ?_, ?_⟩
  · intro hcomplete
    by_contra hnot
    unfold Adoptable at hnot
    push Not at hnot
    obtain ⟨horphan, c, hchild, halive⟩ := hnot
    have hreparented := hcomplete.reparented c hchild (Bool.eq_false_iff.mpr halive)
    dsimp only at hreparented
    rw [hparent, horphan] at hreparented
    simp [hchild] at hreparented
  · intro hadoptable
    constructor
    · exact hkilled
    · exact hexited
    · have hactive := hs.active p
      dsimp only
      rw [hactive, List.countP_eq_zero]
      intro t ht
      simp [hexited t ht]
    · intro o ho
      dsimp only
      rw [List.count_append, List.count_map_of_injective _ _ fun _ _ h => (Prod.mk.inj h).2,
        List.count_eq_one_of_mem (hs.objects_nodup p) ho]
    · intro c hc halive
      dsimp only
      rw [hparent]
      have hmem := hs.children c p hc
      rcases hadoptable with hsome | hnone
      · rw [if_pos ⟨hsome, hmem, halive⟩]
      · rw [hnone c hc] at halive
        cases halive
    · simp
    · exact Function.update_self ..

theorem kill_returns (depth : Nat) (hs : Inv s) (halive : s.isKilled p = false)
    (hcaller : s.process s.currentThread = p → s.exited s.currentThread = true) :
    ∃ s', kill (depth + 3) s p = .returned s' ∧ Inv s' ∧ s'.currentThread = s.currentThread ∧
      s'.process = s.process ∧ (s'.exited s.currentThread = s.exited s.currentThread) ∧
      (Complete s s' p ↔ Adoptable s p) := by
  have hlock : s.processOwnLock p = false := by
    by_contra hheld
    rw [hs.lock_killed p (by simpa using hheld)] at halive
    cases halive
  obtain ⟨hkilled, -, hexited, hthreads, hcurrent, hprocess, hparent, hchildren, hobjects,
    hunregistered⟩ := markKilled_same s p
  have hinv := markKilled_inv hs p
  have hmem : ∀ t ∈ s.threads p, (markKilled s p).threadCreated t = true ∧
      (markKilled s p).isKilled ((markKilled s p).process t) = true := by
    intro t ht
    rw [← hthreads] at ht
    obtain ⟨hcreated, hp⟩ := (hinv.mem_threads p t).mp ht
    rw [hp, hkilled, Function.update_self]
    exact ⟨hcreated, rfl⟩
  have hcaller' : (markKilled s p).currentThread ∈ s.threads p →
      (markKilled s p).exited (markKilled s p).currentThread = true := by
    rw [hcurrent, hexited]
    exact fun h => hcaller ((hs.mem_threads p _).mp h).2
  obtain ⟨s₁, hloop, hfixed, haccounts, hiff⟩ :=
    forEach_exit_returns depth hinv.toAccounts hmem hcaller'
  have hinv₁ := hinv.of_fixed hfixed haccounts
  have hkilled₁ : s₁.isKilled = Function.update s.isKilled p true :=
    hfixed.isKilled.trans hkilled
  have hchildren₁ : ∀ c ∈ s₁.children p, s₁.parent c = some p := by
    intro c hc
    rw [hfixed.children, hchildren] at hc
    rw [hfixed.parent, hparent]
    exact hs.children_parent c p halive hc
  have hexited₁ : ∀ t ∈ s₁.threads p, s₁.exited t = true := by
    intro t ht
    rw [hfixed.threads, hthreads] at ht
    exact (hiff t).mpr (Or.inr ht)
  obtain ⟨hinv₂, hcurrent₂, hexited₂, hprocess₂, hcomplete⟩ :=
    finishKill_spec hinv₁ (by rw [hkilled₁, Function.update_self]) hchildren₁ hexited₁
  refine ⟨finishKill s₁ p, ?_, hinv₂, ?_, ?_, ?_, ?_⟩
  · rw [kill, if_neg (by simp [halive]), if_neg (by simp [hlock]), hloop]
    rfl
  · rw [hcurrent₂, hfixed.current, hcurrent]
  · rw [hprocess₂, hfixed.process, hprocess]
  · rw [hexited₂]
    have hiff' := hiff s.currentThread
    rw [hexited] at hiff'
    rcases Classical.em (s.currentThread ∈ s.threads p) with hmem' | hmem'
    · have hown := hcaller ((hs.mem_threads p _).mp hmem').2
      rw [hown]
      exact hiff'.mpr (Or.inl hown)
    · rw [Bool.eq_iff_iff, hiff']
      simp [hmem']
  · have hcongr : (Complete s₁ (finishKill s₁ p) p ↔ Complete s (finishKill s₁ p) p) ∧
        (Adoptable s₁ p ↔ Adoptable s p) := by
      apply complete_congr (hfixed.objects.trans hobjects)
        (hfixed.unregistered.trans hunregistered) (hfixed.parent.trans hparent)
      intro c hc
      rw [hkilled₁, Function.update_of_ne (hs.child_ne hc)]
    rw [← hcongr.1, ← hcongr.2]
    exact hcomplete

theorem kill_leaves (depth : Nat) (hs : Inv s) (halive : s.isKilled p = false)
    (hcaller : s.process s.currentThread = p) (hrunning : s.exited s.currentThread = false) :
    ∃ s', kill (depth + 3) s p = .left s' ∧ Inv s' ∧ s'.processOwnLock p = true := by
  have hlock : s.processOwnLock p = false := by
    by_contra hheld
    rw [hs.lock_killed p (by simpa using hheld)] at halive
    cases halive
  obtain ⟨hkilled, hlocked, hexited, hthreads, hcurrent, -⟩ := markKilled_same s p
  have hinv := markKilled_inv hs p
  have hmem : ∀ t ∈ s.threads p, (markKilled s p).threadCreated t = true ∧
      (markKilled s p).isKilled ((markKilled s p).process t) = true := by
    intro t ht
    rw [← hthreads] at ht
    obtain ⟨hcreated, hp⟩ := (hinv.mem_threads p t).mp ht
    rw [hp, hkilled, Function.update_self]
    exact ⟨hcreated, rfl⟩
  obtain ⟨s₁, hloop, hfixed, haccounts⟩ := forEach_exit_leaves depth hinv.toAccounts hmem
    (by rw [hcurrent]; exact (hs.mem_threads p _).mpr ⟨hs.current_created, hcaller⟩)
    (by rw [hcurrent, hexited]; exact hrunning)
  refine ⟨s₁, ?_, hinv.of_fixed hfixed haccounts, ?_⟩
  · rw [kill, if_neg (by simp [halive]), if_neg (by simp [hlock]), hloop]
    rfl
  · rw [hfixed.lock]
    exact hlocked

theorem exit_of_others (hs : Inv s) (hcreated : s.threadCreated t = true)
    (hexited : s.exited t = false)
    (hothers : s.isKilled (s.process t) = true ∨ s.activeThreadCnt (s.process t) ≠ 1) :
    exit callDepth s t =
        (if t = s.currentThread then .left (markExited s t) else .returned (markExited s t)) ∧
      Inv (markExited s t) := by
  obtain ⟨hfixed, -⟩ := markExited_fixed s t
  have hinv : Inv (markExited s t) :=
    hs.of_fixed hfixed (accounts_markExited hs.toAccounts hcreated hexited)
  refine ⟨?_, hinv⟩
  rcases hothers with hkilled | hactive
  · rw [callDepth, exit_of_killed hkilled, if_neg (by simp [hexited])]
  · have hpos : s.activeThreadCnt (s.process t) ≠ 0 := by
      have hcount := countP_exit (hs.nodup _) ((hs.mem_threads _ t).mpr ⟨hcreated, rfl⟩) hexited
      rw [hs.active]
      omega
    have hmore : (markExited s t).activeThreadCnt (s.process t) ≠ 0 := by
      change Function.update s.activeThreadCnt (s.process t) _ (s.process t) ≠ 0
      rw [Function.update_self, if_neg hpos]
      omega
    rw [callDepth, exit, if_neg (by simp [hexited]), if_neg hmore, Outcome.andThen, hfixed.current]

theorem exit_of_last (hs : Inv s) (hcreated : s.threadCreated t = true)
    (hexited : s.exited t = false) (hprocess : s.process t = p) (halive : s.isKilled p = false)
    (hactive : s.activeThreadCnt p = 1) :
    ∃ s', exit callDepth s t = (if t = s.currentThread then .left s' else .returned s') ∧ Inv s' ∧
      (Complete s s' p ↔ Adoptable s p) := by
  subst hprocess
  obtain ⟨hfixed, -⟩ := markExited_fixed s t
  have hinv : Inv (markExited s t) :=
    hs.of_fixed hfixed (accounts_markExited hs.toAccounts hcreated hexited)
  have hlast : (markExited s t).activeThreadCnt (s.process t) = 0 := by
    change Function.update s.activeThreadCnt (s.process t) _ (s.process t) = 0
    rw [Function.update_self, if_neg (by omega), hactive]
  -- no thread of the process is left, not even the caller
  have hcaller : (markExited s t).process (markExited s t).currentThread = s.process t →
      (markExited s t).exited (markExited s t).currentThread = true := by
    intro hown
    have hmem := (hinv.mem_threads (s.process t) _).mpr ⟨hinv.current_created, hown⟩
    have hcount := hinv.active (s.process t)
    rw [hlast] at hcount
    have hnone := List.countP_eq_zero.mp hcount.symm _ hmem
    simpa using hnone
  obtain ⟨s', hkill, hinv', hcurrent', -, -, hcomplete⟩ :=
    kill_returns 0 hinv (hfixed.isKilled ▸ halive) hcaller
  refine ⟨s', ?_, hinv', ?_⟩
  · rw [callDepth, exit, if_neg (by simp [hexited]), if_pos hlast, hkill, Outcome.andThen,
      hcurrent', hfixed.current]
  · have hcongr : (Complete (markExited s t) s' (s.process t) ↔ Complete s s' (s.process t)) ∧
        (Adoptable (markExited s t) (s.process t) ↔ Adoptable s (s.process t)) := by
      apply complete_congr hfixed.objects hfixed.unregistered hfixed.parent
      intro c _
      rw [hfixed.isKilled]
    rw [← hcongr.1, ← hcongr.2]
    exact hcomplete

theorem exit_inv (hs : Inv s) (hcreated : s.threadCreated t = true) (hexited : s.exited t = false)
    (hend : (exit callDepth s t).state = some s') : Inv s' := by
  rcases Classical.em (s.isKilled (s.process t) = true ∨ s.activeThreadCnt (s.process t) ≠ 1) with
    hothers | hlast
  · obtain ⟨hexit, hinv⟩ := exit_of_others hs hcreated hexited hothers
    rw [hexit] at hend
    split at hend <;> cases hend <;> exact hinv
  · push Not at hlast
    obtain ⟨s₁, hexit, hinv, -⟩ :=
      exit_of_last hs hcreated hexited rfl (by simpa using hlast.1) hlast.2
    rw [hexit] at hend
    split at hend <;> cases hend <;> exact hinv

theorem perform_inv {c : Call Thread Process} (hs : Inv s)
    (hrunning : s.exited s.currentThread = false)
    (hvictim : ∀ t, c = .sysKillThread t → s.threadCreated t = true)
    (hend : (perform s c).state = some s') : Inv s' := by
  have hkill : ∀ p, (kill callDepth s p).state = some s' → Inv s' := by
    intro p hp
    rcases Bool.eq_false_or_eq_true (s.isKilled p) with hkilled | halive
    · rw [callDepth, kill, if_pos hkilled] at hp
      cases hp
      exact hs
    · rcases eq_or_ne (s.process s.currentThread) p with hcaller | hother
      · obtain ⟨s₁, hkill, hinv, -⟩ := kill_leaves 1 hs halive hcaller hrunning
        rw [callDepth, hkill] at hp
        cases hp
        exact hinv
      · obtain ⟨s₁, hkill, hinv, -⟩ :=
          kill_returns 1 hs halive fun hcaller => absurd hcaller hother
        rw [callDepth, hkill] at hp
        cases hp
        exact hinv
  have hscheduler : ∀ (o : Outcome (State Thread Process Obj)) (f : State Thread Process Obj →
      Outcome (State Thread Process Obj)), (∀ s, (f s).state = some s) →
      (o.andThen f).state = o.state := by
    intro o f hf
    cases o with
    | returned s => exact hf s
    | left s => rfl
    | stuck => rfl
  have hdo : ∀ s : State Thread Process Obj, (doScheduler s).state = some s := by
    intro s
    unfold doScheduler
    split <;> rfl
  cases c with
  | sysExit =>
      rw [perform, hscheduler _ _ hdo] at hend
      exact hkill _ hend
  | sysKill p =>
      rw [perform] at hend
      split at hend
      · cases hend
        exact hs
      · rw [hscheduler] at hend
        · exact hkill p hend
        · intro s
          split
          · exact hdo s
          · rfl
  | sysExitThread => exact exit_inv hs hs.current_created hrunning hend
  | sysKillThread t =>
      rw [perform] at hend
      split at hend
      · cases hend
        exact hs
      · next hexited =>
          exact exit_inv hs (hvictim t rfl) (Bool.eq_false_iff.mpr hexited) hend

theorem createThread_inv (hs : Inv s) (hp : s.processCreated p = true)
    (ht : s.threadCreated t = false) : Inv (createThread s p t) := by
  have hnew : ∀ q, t ∉ s.threads q := by
    intro q hmem
    rw [((hs.mem_threads q t).mp hmem).1] at ht
    cases ht
  have hcount : ∀ q, (s.threads q).countP (fun u => !Function.update s.exited t false u) =
      (s.threads q).countP fun u => !s.exited u := by
    intro q
    apply List.countP_congr
    intro u hu
    have hne : u ≠ t := fun heq => hnew q (heq ▸ hu)
    rw [Function.update_of_ne hne]
  refine ⟨⟨?_, ?_, ?_⟩, hs.lock_killed, hs.objects_nodup, hs.children, hs.children_created,
    hs.children_parent, hs.ranked, hs.parent_created, ?_, ?_⟩
  · intro q
    dsimp only [createThread]
    rcases eq_or_ne q p with rfl | hne
    · rw [Function.update_self]
      simpa using (hs.nodup q).concat (hnew q)
    · rw [Function.update_of_ne hne]
      exact hs.nodup q
  · intro q u
    dsimp only [createThread]
    rcases eq_or_ne u t with rfl | hu
    · rw [Function.update_self, Function.update_self]
      rcases eq_or_ne q p with rfl | hne
      · simp
      · simp [hne, hnew q, Ne.symm hne]
    · rw [Function.update_of_ne hu, Function.update_of_ne hu, ← hs.mem_threads]
      rcases eq_or_ne q p with rfl | hne
      · simp [hu]
      · simp [hne]
  · intro q
    dsimp only [createThread]
    rcases eq_or_ne q p with rfl | hne
    · rw [Function.update_self, Function.update_self, List.countP_append, hcount, hs.active]
      simp
    · rw [Function.update_of_ne hne, Function.update_of_ne hne, hcount, hs.active]
  · intro u
    dsimp only [createThread]
    rcases eq_or_ne u t with rfl | hu
    · rw [Function.update_self, Function.update_self]
      exact fun _ => hp
    · rw [Function.update_of_ne hu, Function.update_of_ne hu]
      exact hs.thread_process u
  · dsimp only [createThread]
    have hne : s.currentThread ≠ t := by
      rintro rfl
      rw [hs.current_created] at ht
      cases ht
    rw [Function.update_of_ne hne]
    exact hs.current_created

theorem createProcess_inv {parent : Process} (hs : Inv s) (hparent : s.processCreated parent = true)
    (hp : s.processCreated p = false) : Inv (createProcess s parent p) := by
  have hold : ∀ q, s.processCreated q = true → q ≠ p := by
    rintro q hq rfl
    rw [hq] at hp
    cases hp
  have hne := hold parent hparent
  have hchildren : ∀ c r, c ∈ (createProcess s parent p).children r ↔
      (r ≠ p ∧ c ∈ s.children r) ∨ (r = parent ∧ c = p) := by
    intro c r
    dsimp only [createProcess]
    rcases eq_or_ne r parent with rfl | hr
    · simp [hne]
    · rcases eq_or_ne r p with rfl | hrp
      · simp [hr]
      · simp [hr, hrp]
  refine ⟨⟨?_, ?_, ?_⟩, ?_, ?_, ?_, ?_, ?_, ?_, ?_, ?_, hs.current_created⟩
  · intro q
    dsimp only [createProcess]
    rcases eq_or_ne q p with rfl | hq
    · rw [Function.update_self]
      exact List.nodup_nil
    · rw [Function.update_of_ne hq]
      exact hs.nodup q
  · intro q u
    dsimp only [createProcess]
    rcases eq_or_ne q p with rfl | hq
    · rw [Function.update_self]
      constructor
      · intro hu
        cases hu
      · rintro ⟨hu, rfl⟩
        exact absurd rfl (hold _ (hs.thread_process u hu))
    · rw [Function.update_of_ne hq]
      exact hs.mem_threads q u
  · intro q
    dsimp only [createProcess]
    rcases eq_or_ne q p with rfl | hq
    · rw [Function.update_self, Function.update_self]
      rfl
    · rw [Function.update_of_ne hq, Function.update_of_ne hq]
      exact hs.active q
  · intro q
    dsimp only [createProcess]
    rcases eq_or_ne q p with rfl | hq
    · rw [Function.update_self]
      exact fun h => Bool.noConfusion h
    · rw [Function.update_of_ne hq, Function.update_of_ne hq]
      exact hs.lock_killed q
  · intro q
    dsimp only [createProcess]
    rcases eq_or_ne q p with rfl | hq
    · rw [Function.update_self]
      exact List.nodup_nil
    · rw [Function.update_of_ne hq]
      exact hs.objects_nodup q
  · intro c r hc
    rw [hchildren]
    dsimp only [createProcess] at hc
    rcases eq_or_ne c p with rfl | hcp
    · rw [Function.update_self] at hc
      exact Or.inr ⟨(Option.some.inj hc).symm, rfl⟩
    · rw [Function.update_of_ne hcp] at hc
      exact Or.inl ⟨hold r (hs.parent_created c r hc), hs.children c r hc⟩
  · intro c r hc
    dsimp only [createProcess]
    rcases (hchildren c r).mp hc with ⟨-, hchild⟩ | ⟨-, rfl⟩
    · have hcreated := hs.children_created c r hchild
      rw [Function.update_of_ne (hold c hcreated)]
      exact hcreated
    · rw [Function.update_self]
  · intro c r hr hc
    dsimp only [createProcess] at hr ⊢
    rcases (hchildren c r).mp hc with ⟨hrp, hchild⟩ | ⟨rfl, rfl⟩
    · rw [Function.update_of_ne hrp] at hr
      rw [Function.update_of_ne (hold c (hs.children_created c r hchild))]
      exact hs.children_parent c r hr hchild
    · rw [Function.update_self]
  · obtain ⟨rank, hrank⟩ := hs.ranked
    refine ⟨Function.update rank p (rank parent + 1), fun c r hc => ?_⟩
    dsimp only [createProcess] at hc
    rcases eq_or_ne c p with rfl | hcp
    · rw [Function.update_self] at hc
      cases hc
      rw [Function.update_self, Function.update_of_ne hne]
      exact Nat.lt_succ_self _
    · rw [Function.update_of_ne hcp] at hc
      rw [Function.update_of_ne hcp, Function.update_of_ne (hold r (hs.parent_created c r hc))]
      exact hrank c r hc
  · intro c r hc
    dsimp only [createProcess] at hc ⊢
    have hcreated : s.processCreated r = true := by
      rcases eq_or_ne c p with rfl | hcp
      · rw [Function.update_self] at hc
        exact Option.some.inj hc ▸ hparent
      · rw [Function.update_of_ne hcp] at hc
        exact hs.parent_created c r hc
    rw [Function.update_of_ne (hold r hcreated)]
    exact hcreated
  · intro u hu
    dsimp only [createProcess]
    rw [Function.update_of_ne (hold _ (hs.thread_process u hu))]
    exact hs.thread_process u hu

theorem addReady_inv (hs : Inv s) (t : Thread) : Inv (addReady s t) :=
  ⟨⟨hs.nodup, hs.mem_threads, hs.active⟩, hs.lock_killed, hs.objects_nodup, hs.children,
    hs.children_created, hs.children_parent, hs.ranked, hs.parent_created, hs.thread_process,
    hs.current_created⟩

theorem setObjects_inv {objects : List Obj} (hs : Inv s) (p : Process) (hnodup : objects.Nodup) :
    Inv { s with kernelObjects := Function.update s.kernelObjects p objects } := by
  refine ⟨⟨hs.nodup, hs.mem_threads, hs.active⟩, hs.lock_killed, ?_, hs.children,
    hs.children_created, hs.children_parent, hs.ranked, hs.parent_created, hs.thread_process,
    hs.current_created⟩
  intro q
  dsimp only
  rcases eq_or_ne q p with rfl | hq
  · rw [Function.update_self]
    exact hnodup
  · rw [Function.update_of_ne hq]
    exact hs.objects_nodup q

theorem inv_step {a : Action Thread Process Obj} (hs : Inv s) (hstep : Step idle s a s') :
    Inv s' := by
  cases hstep with
  | call running target victim ends => exact perform_inv hs running victim ends
  | exec running free newProcess newThread =>
      have hcreated := hs.thread_process _ hs.current_created
      apply addReady_inv
      apply createThread_inv (createProcess_inv hs hcreated newProcess)
      · exact Function.update_self ..
      · exact newThread
  | createThread running free newThread =>
      exact addReady_inv (createThread_inv hs (hs.thread_process _ hs.current_created) newThread) _
  | register new =>
      apply setObjects_inv hs
      simpa using (hs.objects_nodup _).concat new
  | unregister => exact setObjects_inv hs _ ((hs.objects_nodup _).erase _)
  | schedule created ready =>
      exact ⟨⟨hs.nodup, hs.mem_threads, hs.active⟩, hs.lock_killed, hs.objects_nodup, hs.children,
        hs.children_created, hs.children_parent, hs.ranked, hs.parent_created, hs.thread_process,
        created⟩

theorem inv_start (hs : Start idle s) : Inv s := by
  refine ⟨⟨?_, ?_, ?_⟩, ?_, ?_, ?_, ?_, ?_, ?_, ?_, ?_, ?_⟩
  · intro p
    rw [hs.threads]
    split
    · exact List.nodup_singleton idle
    · exact List.nodup_nil
  · intro p t
    rw [hs.threads, hs.thread]
    split
    · next heq =>
        rw [List.mem_singleton]
        constructor
        · rintro rfl
          exact ⟨rfl, heq.symm⟩
        · exact fun h => h.1
    · next hne =>
        constructor
        · intro h
          cases h
        · rintro ⟨rfl, rfl⟩
          exact absurd rfl hne
  · intro p
    rw [hs.active, hs.threads]
    split
    · simp [hs.exited]
    · rfl
  · intro p hp
    rw [hs.lock] at hp
    cases hp
  · intro p
    rw [hs.objects]
    exact List.nodup_nil
  · intro c p hc
    rw [hs.parent] at hc
    cases hc
  · intro c p hc
    rw [hs.children] at hc
    cases hc
  · intro c p _ hc
    rw [hs.children] at hc
    cases hc
  · refine ⟨fun _ => 0, fun c p hc => ?_⟩
    rw [hs.parent] at hc
    cases hc
  · intro c p hc
    rw [hs.parent] at hc
    cases hc
  · intro t ht
    rw [(hs.thread t).mp ht]
    exact (hs.process _).mpr rfl
  · rw [hs.current]
    exact (hs.thread _).mpr rfl

/-- In every reachable state, a call that terminates a process takes it down
completely exactly if the process is not killed by its own running thread and
its live children, if any, can be given to a parent. -/
theorem terminates_completely_iff {c : Call Thread Process} (hs : Reachable (system idle) s)
    (hc : Terminates s c p) :
    (∃ s', (perform s c).state = some s' ∧ Complete s s' p) ↔
      ¬KillsCaller s c ∧ Adoptable s p := by
  have hinv : Inv s := by
    apply hs.invariant (P := Inv)
    · exact fun s hstart => inv_start hstart
    · exact fun s a s' hs _ hstep => inv_step hs hstep
  obtain ⟨hrunning, halive, htarget⟩ := hc
  have hself : ∀ f : State Thread Process Obj → Outcome (State Thread Process Obj),
      s.process s.currentThread = p →
      ¬∃ s', ((kill callDepth s p).andThen f).state = some s' ∧ Complete s s' p := by
    rintro f hcaller ⟨s', hend, hcomplete⟩
    obtain ⟨s₁, hkill, -, hlock⟩ := kill_leaves 1 hinv halive hcaller hrunning
    rw [callDepth, hkill] at hend
    cases hend
    rw [hcomplete.lock] at hlock
    cases hlock
  cases c with
  | sysExit =>
      obtain rfl := htarget
      constructor
      · exact fun h => absurd h (hself _ rfl)
      · exact fun h => absurd trivial h.1
  | sysKill q =>
      obtain ⟨rfl, -⟩ := htarget
      rw [perform, if_neg (by simp [halive])]
      rcases eq_or_ne q (s.process s.currentThread) with hcaller | hother
      · constructor
        · exact fun h => absurd h (hself _ hcaller.symm)
        · exact fun h => absurd hcaller h.1
      · obtain ⟨s₁, hkill, -, hcurrent, hprocess, -, hcomplete⟩ :=
          kill_returns 1 hinv halive fun hcaller => absurd hcaller.symm hother
        rw [callDepth, hkill, Outcome.andThen, hcurrent, hprocess, if_neg hother]
        constructor
        · rintro ⟨s', hend, h⟩
          cases hend
          exact ⟨hother, hcomplete.mp h⟩
        · exact fun h => ⟨s₁, rfl, hcomplete.mpr h.2⟩
  | sysExitThread =>
      obtain ⟨hp, hactive⟩ := htarget
      obtain ⟨s₁, hexit, -, hcomplete⟩ :=
        exit_of_last hinv hinv.current_created hrunning hp.symm halive hactive
      rw [perform, hexit, if_pos rfl]
      constructor
      · rintro ⟨s', hend, h⟩
        cases hend
        exact ⟨id, hcomplete.mp h⟩
      · exact fun h => ⟨s₁, rfl, hcomplete.mpr h.2⟩
  | sysKillThread t =>
      obtain ⟨hcreated, hp, hexited, hactive⟩ := htarget
      obtain ⟨s₁, hexit, -, hcomplete⟩ := exit_of_last hinv hcreated hexited hp halive hactive
      rw [perform, if_neg (by simp [hexited]), hexit]
      have hstate : (if t = s.currentThread then Outcome.left s₁ else .returned s₁).state =
          some s₁ := by
        split <;> rfl
      rw [hstate]
      constructor
      · rintro ⟨s', hend, h⟩
        cases hend
        exact ⟨id, hcomplete.mp h⟩
      · exact fun h => ⟨s₁, rfl, hcomplete.mpr h.2⟩

/-- Only process 0 with its idle thread 0 exists. -/
def booted : State Nat Nat Nat where
  process _ := 0
  exited _ := false
  blockCnt _ := 0
  readyQueue := []
  waitExitedQueue _ := []
  currentThread := 0
  threads p := if p = 0 then [0] else []
  isKilled _ := false
  activeThreadCnt p := if p = 0 then 1 else 0
  processOwnLock _ := false
  parent _ := none
  children _ := []
  waitKillQueue _ := []
  kernelObjects _ := []
  processToRelease := []
  unregistered := []
  threadCreated t := t = 0
  processCreated p := p = 0

theorem booted_start : Start 0 booted := by
  constructor
  case thread => exact fun t => decide_eq_true_iff
  case process => exact fun p => decide_eq_true_iff
  all_goals first | rfl | exact fun _ => rfl

/-- The idle thread starts process `p` with the thread of the same number. -/
def started (s : State Nat Nat Nat) (p : Nat) : State Nat Nat Nat :=
  addReady (createThread (createProcess s (s.process s.currentThread) p) p p) p

/-- Processes 1 and 2 exist, and the thread of process 1 runs and has opened
an object. -/
def twoProcesses : State Nat Nat Nat :=
  { started (started booted 1) 2 with
    currentThread := 1
    kernelObjects := Function.update (started (started booted 1) 2).kernelObjects 1 [7] }

theorem twoProcesses_reachable : Reachable (system 0) twoProcesses := by
  have hfirst : Reachable (system 0) (started booted 1) :=
    ReachableUnder.step (ReachableUnder.start booted_start) trivial
      (Step.exec (by decide) (by decide) (by decide) (by decide))
  have hsecond : Reachable (system 0) (started (started booted 1) 2) :=
    ReachableUnder.step hfirst trivial
      (Step.exec (by decide) (by decide) (by decide) (by decide))
  have hruns : Reachable (system 0) { started (started booted 1) 2 with currentThread := 1 } :=
    ReachableUnder.step hsecond trivial (Step.schedule (by decide) (Or.inr (by decide)))
  have hopens : Step 0 { started (started booted 1) 2 with currentThread := 1 } (.register 7)
      twoProcesses :=
    Step.register (by decide)
  exact ReachableUnder.step hruns trivial hopens

/-- Process 1 kills process 2. -/
theorem kill_of_other_completes :
    ((∃ s', (perform twoProcesses (.sysKill 2)).state = some s' ∧ Complete twoProcesses s' 2) ↔
        ¬KillsCaller twoProcesses (.sysKill 2) ∧ Adoptable twoProcesses 2) ∧
      ¬KillsCaller twoProcesses (.sysKill 2) ∧ Adoptable twoProcesses 2 :=
  ⟨terminates_completely_iff twoProcesses_reachable
      ⟨by decide, by decide, by decide, by decide⟩,
    by unfold KillsCaller; decide, Or.inl (by decide)⟩

/-- Process 1 calls `sys_exit`: control goes to another thread while the lock
of the process is held. -/
theorem sysExit_not_complete :
    ¬ ∀ (s : State Nat Nat Nat) (c : Call Nat Nat) (p : Nat), Reachable (system 0) s →
      Terminates s c p → ∃ s', (perform s c).state = some s' ∧ Complete s s' p := by
  intro hall
  obtain ⟨s', hend, hcomplete⟩ := hall twoProcesses .sysExit 1 twoProcesses_reachable
    ⟨by decide, by decide, by decide⟩
  have hheld : (perform twoProcesses .sysExit).state.map (fun s => s.processOwnLock 1) =
      some true := by decide
  rw [hend, Option.map_some, hcomplete.lock] at hheld
  cases hheld

end LabKernel.ProcessTermination
