import LabKernel.SingleHart

/-!
The ready queue of a single hart holds no thread twice as long as no thread
goes to sleep with a wake-up time that has already passed when the thread
itself calls `check_sleeping`.

At every moment each thread is in at most one place: it waits in one queue with
its counter at one, or it is in the ready queue or current with its counter at
zero.
-/

set_option linter.unusedSectionVars false

namespace LabKernel.QueueUniqueness

open LabKernel.ReadyQueue
open LabKernel.SingleHart
open LabKernel.TransitionSystem

variable {Thread Queue Process : Type*} [LinearOrder Thread] [DecidableEq Queue]
  [DecidableEq Process] {M : Machine Thread Process} {s s' : State Thread Queue Process}
  {t : Thread} {q : Queue} {now : Nat}

def sleepers (s : State Thread Queue Process) : List Thread := s.sleepingQueue.map Prod.snd

/-- The thread is in a wait queue or in `sleeping_queue`. -/
def Waits (s : State Thread Queue Process) (t : Thread) : Prop :=
  t ∈ sleepers s ∨ ∃ q, t ∈ s.waitQueue q

/-- What holds also while the current thread is on its way into the scheduler. -/
structure Sound (M : Machine Thread Process) (s : State Thread Queue Process) : Prop where
  nodup : s.readyQueue.Nodup
  queued : ∀ t ∈ s.readyQueue, t ≠ M.idle ∧ s.created t = true ∧ s.blockCnt t = 0
  sleepers_nodup : (sleepers s).Nodup
  waiting_nodup : ∀ q, (s.waitQueue q).Nodup
  waiting_once : ∀ q q' t, t ∈ s.waitQueue q → t ∈ s.waitQueue q' → q = q'
  sleeping_once : ∀ q, ∀ t ∈ sleepers s, t ∉ s.waitQueue q
  waits : ∀ t, Waits s t → s.blockCnt t = 1 ∧ t ≠ M.idle ∧ s.created t = true
  awake : ∀ t, ¬Waits s t → s.blockCnt t = 0
  current_created : s.created s.currentThread = true
  idle_created : s.created M.idle = true
  current_not_queued : s.currentThread ∉ s.readyQueue

/-- What holds between two system calls. -/
structure Settled (M : Machine Thread Process) (s : State Thread Queue Process) : Prop
    extends Sound M s where
  current_awake : ¬Waits s s.currentThread

theorem Sound.not_waits_of_cnt (hs : Sound M s) (hcnt : s.blockCnt t = 0) : ¬Waits s t := by
  intro hwaits
  rw [(hs.waits t hwaits).1] at hcnt
  cases hcnt

theorem Sound.wakeup {sl : List (Nat × Thread)} {wq : Queue → List Thread} (hs : Sound M s)
    (ht : Waits s t) (hcurrent : t ≠ s.currentThread) (hsl : sl.Sublist s.sleepingQueue)
    (hwq : ∀ q, (wq q).Sublist (s.waitQueue q)) (hgone : t ∉ sl.map Prod.snd)
    (hgone' : ∀ q, t ∉ wq q)
    (hrest : ∀ u, u ≠ t → Waits s u → u ∈ sl.map Prod.snd ∨ ∃ q, u ∈ wq q) :
    Sound M (SingleHart.wakeup { s with sleepingQueue := sl, waitQueue := wq } t) := by
  obtain ⟨hcnt, hidle, hcreated⟩ := hs.waits t ht
  have hqueue : t ∉ s.readyQueue := by
    intro hmem
    rw [(hs.queued t hmem).2.2] at hcnt
    cases hcnt
  have hsleepers : (sl.map Prod.snd).Sublist (sleepers s) := hsl.map Prod.snd
  have hsub : ∀ u, u ∈ sl.map Prod.snd ∨ (∃ q, u ∈ wq q) → Waits s u := by
    rintro u (hu | ⟨q, hu⟩)
    · exact Or.inl (hsleepers.subset hu)
    · exact Or.inr ⟨q, (hwq q).subset hu⟩
  have hother : ∀ u, u ≠ t → WaitQueue.wakeup s.blockCnt t u = s.blockCnt u := fun u hu =>
    WaitQueue.wakeup_of_ne hu
  have hself : WaitQueue.wakeup s.blockCnt t t = 0 := by
    rw [WaitQueue.wakeup_same, hcnt]
    rfl
  constructor
  · simp only [SingleHart.wakeup]
    split
    · simpa using hs.nodup.concat hqueue
    · exact hs.nodup
  · intro u hu
    have hcases : u ∈ s.readyQueue ∨ u = t := by
      simp only [SingleHart.wakeup] at hu
      split at hu
      · simpa using hu
      · exact Or.inl hu
    rcases hcases with hold | rfl
    · have hne : u ≠ t := fun heq => hqueue (heq ▸ hold)
      exact ⟨(hs.queued u hold).1, (hs.queued u hold).2.1,
        (hother u hne).trans (hs.queued u hold).2.2⟩
    · exact ⟨hidle, hcreated, hself⟩
  · exact hsleepers.nodup hs.sleepers_nodup
  · exact fun q => (hwq q).nodup (hs.waiting_nodup q)
  · exact fun q q' u hu hu' => hs.waiting_once q q' u ((hwq q).subset hu) ((hwq q').subset hu')
  · exact fun q u hu hu' => hs.sleeping_once q u (hsleepers.subset hu) ((hwq q).subset hu')
  · intro u hu
    have hne : u ≠ t := by
      rintro rfl
      rcases hu with hu | ⟨q, hu⟩
      · exact hgone hu
      · exact hgone' q hu
    obtain ⟨hcnt', hrest'⟩ := hs.waits u (hsub u hu)
    exact ⟨(hother u hne).trans hcnt', hrest'⟩
  · intro u hu
    rcases eq_or_ne u t with rfl | hne
    · exact hself
    · exact (hother u hne).trans (hs.awake u fun hwaits => hu (hrest u hne hwaits))
  · exact hs.current_created
  · exact hs.idle_created
  · simp only [SingleHart.wakeup]
    split
    · simp [hs.current_not_queued, hcurrent.symm]
    · exact hs.current_not_queued

theorem Settled.wakeupOne (hs : Settled M s) (q : Queue) : Settled M (wakeupOne s q) := by
  unfold SingleHart.wakeupOne
  cases hq : s.waitQueue q with
  | nil => exact hs
  | cons t rest =>
      have hmem : t ∈ s.waitQueue q := by
        rw [hq]
        exact List.mem_cons_self
      have hwaits : Waits s t := Or.inr ⟨q, hmem⟩
      have hnodup := hs.waiting_nodup q
      rw [hq, List.nodup_cons] at hnodup
      have hsub : ∀ q', (Function.update s.waitQueue q rest q').Sublist (s.waitQueue q') := by
        intro q'
        rcases eq_or_ne q' q with rfl | hne
        · rw [Function.update_self, hq]
          exact List.sublist_cons_self t rest
        · rw [Function.update_of_ne hne]
      constructor
      · apply hs.wakeup hwaits
        · rintro rfl
          exact hs.current_awake hwaits
        · exact List.Sublist.refl _
        · exact hsub
        · exact fun hsleeps => hs.sleeping_once q t hsleeps hmem
        · intro q' hmem'
          rcases eq_or_ne q' q with rfl | hne
          · rw [Function.update_self] at hmem'
            exact hnodup.1 hmem'
          · rw [Function.update_of_ne hne] at hmem'
            exact hne (hs.waiting_once q' q t hmem' hmem)
        · rintro u hne (hu | ⟨q', hu⟩)
          · exact Or.inl hu
          · apply Or.inr
            refine ⟨q', ?_⟩
            rcases eq_or_ne q' q with rfl | hq'
            · rw [hq] at hu
              rw [Function.update_self]
              exact (List.mem_cons.mp hu).resolve_left hne
            · rwa [Function.update_of_ne hq']
      · rintro (hu | ⟨q', hu⟩)
        · exact hs.current_awake (Or.inl hu)
        · exact hs.current_awake (Or.inr ⟨q', (hsub q').subset hu⟩)

theorem Settled.wakeupAll (hs : Settled M s) (q : Queue) : Settled M (wakeupAll s q) := by
  unfold SingleHart.wakeupAll
  generalize (s.waitQueue q).length = rounds
  induction rounds generalizing s with
  | zero => exact hs
  | succ rounds ih =>
      rw [Function.iterate_succ_apply]
      exact ih (hs.wakeupOne q)

theorem Settled.wakeupQueues (hs : Settled M s) (queues : List Queue) :
    Settled M (queues.foldl SingleHart.wakeupAll s) := by
  induction queues generalizing s with
  | nil => exact hs
  | cons q rest ih => exact ih (hs.wakeupAll q)

/-- The sleepers whose time has passed are woken; the current thread is not
among them. -/
theorem Sound.wakeSleepers (hs : Sound M s)
    (hcurrent : ∀ time, (time, s.currentThread) ∈ s.sleepingQueue → now ≤ time) :
    Sound M (wakeSleepers now s.sleepingQueue s) ∧
      (SingleHart.wakeSleepers now s.sleepingQueue s).currentThread = s.currentThread := by
  generalize hqueue : s.sleepingQueue = queue
  induction queue generalizing s with
  | nil => exact ⟨hs, rfl⟩
  | cons item rest ih =>
      obtain ⟨time, t⟩ := item
      unfold SingleHart.wakeSleepers
      split
      · next hpassed =>
          have hsleeps : t ∈ sleepers s := by
            rw [sleepers, hqueue]
            exact List.mem_cons_self
          have hnodup := hs.sleepers_nodup
          rw [sleepers, hqueue, List.map_cons, List.nodup_cons] at hnodup
          have hne : t ≠ s.currentThread := by
            rintro rfl
            have hle := hcurrent time (hqueue ▸ List.mem_cons_self)
            omega
          have hwoken : Sound M (SingleHart.wakeup { s with sleepingQueue := rest } t) := by
            apply hs.wakeup (Or.inl hsleeps) hne
            · rw [hqueue]
              exact List.sublist_cons_self _ rest
            · exact fun q => List.Sublist.refl _
            · exact hnodup.1
            · exact fun q => hs.sleeping_once q t hsleeps
            · rintro u hu (hsleeps' | hwaits)
              · rw [sleepers, hqueue, List.map_cons] at hsleeps'
                exact Or.inl ((List.mem_cons.mp hsleeps').resolve_left hu)
              · exact Or.inr hwaits
          apply ih hwoken
          · intro time' hmem
            exact hcurrent time' (hqueue ▸ List.mem_cons_of_mem _ hmem)
          · rfl
      · exact ⟨hs, rfl⟩

theorem Sound.switchThread (hs : Sound M s) : Settled M (switchThread M s) := by
  have hrequeued : (requeued M s).Nodup ∧ ∀ t ∈ requeued M s,
      t ≠ M.idle ∧ s.created t = true ∧ s.blockCnt t = 0 := by
    unfold requeued
    split
    · next hback =>
        obtain ⟨hready, hidle⟩ := hback
        have hcnt : s.blockCnt s.currentThread = 0 :=
          (status_eq_ready.mp (of_decide_eq_true hready)).2.1
        constructor
        · simpa using hs.nodup.concat hs.current_not_queued
        · intro t ht
          rcases List.mem_append.mp ht with hmem | hself
          · exact hs.queued t hmem
          · rw [List.mem_singleton.mp hself]
            exact ⟨hidle, hs.current_created, hcnt⟩
    · exact ⟨hs.nodup, hs.queued⟩
  obtain ⟨hnodup, hqueued⟩ := hrequeued
  have hscanned := scan_scanned s.ready (fun t => s.cpuMask (M.process t)) (requeued M s)
  have hparts := List.nodup_append.mp (hscanned.nodup hnodup)
  -- the next thread is an entry of the queue or the idle thread
  have hnext : s.created (SingleHart.switchThread M s).currentThread = true ∧
      s.blockCnt (SingleHart.switchThread M s).currentThread = 0 ∧
      (SingleHart.switchThread M s).currentThread ∉ (SingleHart.switchThread M s).readyQueue := by
    unfold SingleHart.switchThread
    dsimp only
    cases hfound : (scan s.ready (fun t => s.cpuMask (M.process t)) (requeued M s)).next with
    | none =>
        refine ⟨hs.idle_created, hs.awake _ ?_, ?_⟩
        · intro hwaits
          exact (hs.waits _ hwaits).2.1 rfl
        · intro hmem
          exact (hqueued _ (hscanned.queue_subset hmem)).1 rfl
    | some n =>
        obtain ⟨-, hcreated, hcnt⟩ := hqueued n (hscanned.next_mem hfound)
        refine ⟨hcreated, hcnt, fun hmem => ?_⟩
        rw [hfound] at hparts
        exact hparts.2.2 n (List.mem_singleton_self n) n hmem rfl
  refine ⟨⟨hparts.2.1, ?_, hs.sleepers_nodup, hs.waiting_nodup, hs.waiting_once,
    hs.sleeping_once, hs.waits, hs.awake, hnext.1, hs.idle_created, hnext.2.2⟩, ?_⟩
  · exact fun t ht => hqueued t (hscanned.queue_subset ht)
  · exact hs.not_waits_of_cnt hnext.2.1

theorem Sound.doScheduler (hs : Sound M s)
    (hcurrent : ∀ time, (time, s.currentThread) ∈ s.sleepingQueue → now ≤ time) :
    Settled M (doScheduler M s now) := by
  have hcleared : Sound M { s with
      running := Function.update s.running s.currentThread false
      clock := now } :=
    ⟨hs.nodup, hs.queued, hs.sleepers_nodup, hs.waiting_nodup, hs.waiting_once,
      hs.sleeping_once, hs.waits, hs.awake, hs.current_created, hs.idle_created,
      hs.current_not_queued⟩
  exact (hcleared.wakeSleepers hcurrent).1.switchThread

theorem Settled.doScheduler (hs : Settled M s) : Settled M (doScheduler M s now) := by
  apply hs.toSound.doScheduler
  intro time hmem
  exact absurd (Or.inl (List.mem_map_of_mem hmem)) hs.current_awake

theorem Settled.block {sl : List (Nat × Thread)} {wq : Queue → List Thread} (hs : Settled M s)
    (hidle : s.currentThread ≠ M.idle) (hsl : (sl.map Prod.snd).Nodup)
    (hwq : ∀ q, (wq q).Nodup)
    (honce : ∀ q q' t, t ∈ wq q → t ∈ wq q' → q = q')
    (hdisjoint : ∀ q, ∀ t ∈ sl.map Prod.snd, t ∉ wq q)
    (hwaits : ∀ t, t ∈ sl.map Prod.snd ∨ (∃ q, t ∈ wq q) ↔ t = s.currentThread ∨ Waits s t) :
    Sound M (block { s with sleepingQueue := sl, waitQueue := wq }) := by
  have hzero := hs.awake _ hs.current_awake
  have hself : WaitQueue.block s.blockCnt s.currentThread s.currentThread = 1 := by
    rw [WaitQueue.block_same, hzero]
    rfl
  have hother : ∀ u, u ≠ s.currentThread →
      WaitQueue.block s.blockCnt s.currentThread u = s.blockCnt u := fun u hu =>
    WaitQueue.block_of_ne hu
  refine ⟨hs.nodup, ?_, hsl, hwq, honce, hdisjoint, ?_, ?_, hs.current_created,
    hs.idle_created, hs.current_not_queued⟩
  · intro t ht
    have hne : t ≠ s.currentThread := fun heq => hs.current_not_queued (heq ▸ ht)
    exact ⟨(hs.queued t ht).1, (hs.queued t ht).2.1, (hother t hne).trans (hs.queued t ht).2.2⟩
  · intro t ht
    rcases (hwaits t).mp ht with rfl | hold
    · exact ⟨hself, hidle, hs.current_created⟩
    · have hne : t ≠ s.currentThread := fun heq => hs.current_awake (heq ▸ hold)
      obtain ⟨hcnt, hrest⟩ := hs.waits t hold
      exact ⟨(hother t hne).trans hcnt, hrest⟩
  · intro t ht
    have hne : t ≠ s.currentThread := fun heq => ht ((hwaits t).mpr (Or.inl heq))
    exact (hother t hne).trans (hs.awake t fun hold => ht ((hwaits t).mpr (Or.inr hold)))

theorem Settled.doBlock (hs : Settled M s) (hidle : s.currentThread ≠ M.idle) (q : Queue) :
    Settled M (doBlock M s q now) := by
  have hnew : ∀ q' t, t ∈ Function.update s.waitQueue q (s.waitQueue q ++ [s.currentThread]) q' ↔
      t ∈ s.waitQueue q' ∨ (q' = q ∧ t = s.currentThread) := by
    intro q' t
    rcases eq_or_ne q' q with rfl | hne
    · simp
    · simp [hne]
  have hblocked : Sound M (SingleHart.block (push s q)) := by
    apply hs.block hidle hs.sleepers_nodup
    · intro q'
      rcases eq_or_ne q' q with rfl | hne
      · rw [Function.update_self]
        have hnot : s.currentThread ∉ s.waitQueue q' := fun hmem =>
          hs.current_awake (Or.inr ⟨q', hmem⟩)
        simpa using (hs.waiting_nodup q').concat hnot
      · rw [Function.update_of_ne hne]
        exact hs.waiting_nodup q'
    · intro q₁ q₂ t h₁ h₂
      rw [hnew] at h₁ h₂
      rcases h₁ with h₁ | ⟨hq₁, hself₁⟩ <;> rcases h₂ with h₂ | ⟨hq₂, hself₂⟩
      · exact hs.waiting_once q₁ q₂ t h₁ h₂
      · exact absurd (Or.inr ⟨q₁, hself₂ ▸ h₁⟩) hs.current_awake
      · exact absurd (Or.inr ⟨q₂, hself₁ ▸ h₂⟩) hs.current_awake
      · exact hq₁.trans hq₂.symm
    · intro q' t hsleeps hmem
      rcases (hnew q' t).mp hmem with hold | ⟨-, rfl⟩
      · exact hs.sleeping_once q' t hsleeps hold
      · exact hs.current_awake (Or.inl hsleeps)
    · intro t
      simp only [hnew]
      constructor
      · rintro (hsleeps | ⟨q', hold | ⟨-, hself⟩⟩)
        · exact Or.inr (Or.inl hsleeps)
        · exact Or.inr (Or.inr ⟨q', hold⟩)
        · exact Or.inl hself
      · rintro (hself | hsleeps | ⟨q', hold⟩)
        · exact Or.inr ⟨q, Or.inr ⟨rfl, hself⟩⟩
        · exact Or.inl hsleeps
        · exact Or.inr ⟨q', Or.inl hold⟩
  apply hblocked.doScheduler
  intro time hmem
  exact absurd (Or.inl (List.mem_map_of_mem hmem)) hs.current_awake

theorem Settled.sleep {time now₁ now₂ : Nat} (hs : Settled M s)
    (hidle : s.currentThread ≠ M.idle) (hdue : now₂ ≤ wakeupTime now₁ time) :
    Settled M (sleep M s time now₁ now₂) := by
  have hperm : ((pushSleeper s (wakeupTime now₁ time)).sleepingQueue.map Prod.snd).Perm
      (s.currentThread :: sleepers s) :=
    (List.perm_orderedInsert Before _ _).map Prod.snd
  have hnot : s.currentThread ∉ sleepers s := fun hmem => hs.current_awake (Or.inl hmem)
  have hblocked : Sound M (SingleHart.block (pushSleeper s (wakeupTime now₁ time))) := by
    apply hs.block hidle
    · exact hperm.nodup_iff.mpr (List.nodup_cons.mpr ⟨hnot, hs.sleepers_nodup⟩)
    · exact hs.waiting_nodup
    · exact hs.waiting_once
    · intro q t ht
      rcases List.mem_cons.mp (hperm.mem_iff.mp ht) with rfl | hold
      · exact fun hmem => hs.current_awake (Or.inr ⟨q, hmem⟩)
      · exact hs.sleeping_once q t hold
    · intro t
      change t ∈ (pushSleeper s _).sleepingQueue.map Prod.snd ∨ _ ↔ _
      rw [hperm.mem_iff, List.mem_cons, or_assoc]
      rfl
  apply hblocked.doScheduler
  intro time' hmem
  rcases (List.mem_orderedInsert Before).mp hmem with heq | hold
  · rw [(Prod.mk.inj heq).1]
    exact hdue
  · exact absurd (List.mem_map_of_mem hold) hnot

/-- `condition::wait` has the effect of releasing the mutex first and blocking
on the condition afterwards. -/
theorem conditionWait_eq_doBlock {q' : Queue} (hne : q' ≠ q) :
    conditionWait M s q (some q') now = doBlock M (wakeupOne s q') q now := by
  have hkeep : (push s q).waitQueue q' = s.waitQueue q' := Function.update_of_ne hne ..
  suffices hsame : SingleHart.block (wakeupOne (push s q) q') =
      SingleHart.block (push (wakeupOne s q') q) by
    unfold conditionWait SingleHart.doBlock
    dsimp only
    rw [hsame]
  unfold wakeupOne
  rw [hkeep]
  cases hq : s.waitQueue q' with
  | nil => rfl
  | cons t rest =>
      have hother : Function.update s.waitQueue q' rest q = s.waitQueue q :=
        Function.update_of_ne hne.symm ..
      simp only [push, SingleHart.wakeup, hother]
      rw [Function.update_comm hne]
      rfl

theorem Settled.conditionWait (hs : Settled M s) (hidle : s.currentThread ≠ M.idle)
    (mutexQueue : Option Queue) (hne : mutexQueue ≠ some q) :
    Settled M (conditionWait M s q mutexQueue now) := by
  cases mutexQueue with
  | none => exact hs.doBlock hidle q
  | some q' =>
      have hq : q' ≠ q := fun heq => hne (congrArg some heq)
      rw [conditionWait_eq_doBlock hq]
      have hcurrent : (SingleHart.wakeupOne s q').currentThread = s.currentThread := by
        unfold SingleHart.wakeupOne
        split <;> rfl
      apply (hs.wakeupOne q').doBlock
      rwa [hcurrent]

theorem Settled.create (hs : Settled M s) (ht : s.created t = false) :
    Settled M { s with
      created := Function.update s.created t true
      readyQueue := s.readyQueue ++ [t] } := by
  have hold : ∀ u, s.created u = true → u ≠ t ∧ Function.update s.created t true u = true := by
    intro u hu
    have hne : u ≠ t := by
      rintro rfl
      rw [hu] at ht
      cases ht
    exact ⟨hne, (Function.update_of_ne hne ..).trans hu⟩
  have hwaits : ¬Waits s t := by
    intro hwaits
    exact (hold t (hs.waits t hwaits).2.2).1 rfl
  refine ⟨⟨?_, ?_, hs.sleepers_nodup, hs.waiting_nodup, hs.waiting_once, hs.sleeping_once, ?_,
    hs.awake, (hold _ hs.current_created).2, (hold _ hs.idle_created).2, ?_⟩, hs.current_awake⟩
  · have hnot : t ∉ s.readyQueue := fun hmem => (hold t (hs.queued t hmem).2.1).1 rfl
    simpa using hs.nodup.concat hnot
  · intro u hu
    rcases List.mem_append.mp hu with hmem | hself
    · obtain ⟨hidle, hcreated, hcnt⟩ := hs.queued u hmem
      exact ⟨hidle, (hold u hcreated).2, hcnt⟩
    · rw [List.mem_singleton.mp hself]
      refine ⟨?_, Function.update_self .., hs.awake t hwaits⟩
      exact (hold _ hs.idle_created).1.symm
  · intro u hu
    obtain ⟨hcnt, hidle, hcreated⟩ := hs.waits u hu
    exact ⟨hcnt, hidle, (hold u hcreated).2⟩
  · simp [hs.current_not_queued, (hold _ hs.current_created).1]

theorem Settled.exit (hs : Settled M s) (t : Thread) (queues : List Queue) :
    Settled M (exit M s t queues now) := by
  have hexited : Settled M { s with exited := Function.update s.exited t true } :=
    ⟨⟨hs.nodup, hs.queued, hs.sleepers_nodup, hs.waiting_nodup, hs.waiting_once,
      hs.sleeping_once, hs.waits, hs.awake, hs.current_created, hs.idle_created,
      hs.current_not_queued⟩, hs.current_awake⟩
  have hwoken := hexited.wakeupQueues queues
  unfold SingleHart.exit
  dsimp only
  split
  · exact hwoken.doScheduler
  · exact hwoken

theorem settled_step {a : Action Thread Queue Process} (hs : Settled M s)
    (hallowed : NotOverdue a) (hstep : step M s a = some s') : Settled M s' := by
  cases a with
  | yield now | timer now =>
      obtain ⟨-, ⟨⟩⟩ := Option.ite_none_right_eq_some.mp hstep
      exact hs.doScheduler
  | sleep time now₁ now₂ =>
      obtain ⟨⟨-, -, hidle⟩, ⟨⟩⟩ := Option.ite_none_right_eq_some.mp hstep
      exact hs.sleep hidle hallowed
  | doBlock q now =>
      obtain ⟨⟨-, hidle⟩, ⟨⟩⟩ := Option.ite_none_right_eq_some.mp hstep
      exact hs.doBlock hidle q
  | conditionWait q mutexQueue now =>
      obtain ⟨⟨-, hidle, hne⟩, ⟨⟩⟩ := Option.ite_none_right_eq_some.mp hstep
      exact hs.conditionWait hidle mutexQueue hne
  | wakeupOne q =>
      cases hstep
      exact hs.wakeupOne q
  | create t =>
      obtain ⟨ht, ⟨⟩⟩ := Option.ite_none_right_eq_some.mp hstep
      exact hs.create ht
  | exit t queues now =>
      obtain ⟨-, ⟨⟩⟩ := Option.ite_none_right_eq_some.mp hstep
      exact hs.exit t queues
  | taskSet p mask =>
      cases hstep
      exact ⟨⟨hs.nodup, hs.queued, hs.sleepers_nodup, hs.waiting_nodup, hs.waiting_once,
        hs.sleeping_once, hs.waits, hs.awake, hs.current_created, hs.idle_created,
        hs.current_not_queued⟩, hs.current_awake⟩

theorem settled_start (hs : Start M s) : Settled M s := by
  have hsleepers : sleepers s = [] := by
    rw [sleepers, hs.sleepingQueue, List.map_nil]
  have hwaits : ∀ t, ¬Waits s t := by
    rintro t (hsleeps | ⟨q, hmem⟩)
    · rw [hsleepers] at hsleeps
      cases hsleeps
    · rw [hs.waitQueue q] at hmem
      cases hmem
  refine ⟨⟨?_, ?_, ?_, ?_, ?_, ?_, ?_, ?_, ?_, ?_, ?_⟩, hwaits _⟩
  · rw [hs.readyQueue]
    exact List.nodup_nil
  · intro t ht
    rw [hs.readyQueue] at ht
    cases ht
  · rw [hsleepers]
    exact List.nodup_nil
  · intro q
    rw [hs.waitQueue q]
    exact List.nodup_nil
  · intro q q' t ht
    exact absurd (Or.inr ⟨q, ht⟩) (hwaits t)
  · intro q t ht
    exact absurd (Or.inl ht) (hwaits t)
  · exact fun t ht => absurd ht (hwaits t)
  · exact fun t _ => hs.blockCnt t
  · rw [hs.current]
    exact (hs.created _).mpr rfl
  · exact (hs.created _).mpr rfl
  · rw [hs.readyQueue]
    exact List.not_mem_nil

/-- In every run in which no sleeper is overdue, no thread is twice in the
ready queue and the idle thread is never in it. -/
theorem duplicatefree_of_notOverdue
    (hs : ReachableUnder (system M) (fun (_ : State Thread Queue Process) a => NotOverdue a) s) :
    Duplicatefree M s := by
  have hsettled : Settled M s := by
    apply hs.invariant (P := Settled M)
    · exact fun s hstart => settled_start hstart
    · exact fun s a s' hs hallowed hstep => settled_step hs hallowed hstep
  exact ⟨hsettled.nodup, fun hmem => (hsettled.queued _ hmem).1 rfl⟩

instance (a : Action Thread Queue Process) : Decidable (NotOverdue a) :=
  match a with
  | .sleep time now₁ now₂ => inferInstanceAs (Decidable (now₂ ≤ wakeupTime now₁ time))
  | .yield _ | .timer _ | .doBlock _ _ | .conditionWait _ _ _ | .wakeupOne _ | .create _
  | .exit _ _ _ | .taskSet _ _ => .isTrue trivial

/-- The idle thread is 0. -/
def oneHart : Machine Nat Unit where
  idle := 0
  process _ := ()

def booted : State Nat Unit Unit where
  readyQueue := []
  sleepingQueue := []
  waitQueue _ := []
  blockCnt _ := 0
  exited _ := false
  running _ := false
  created t := t = 0
  currentThread := 0
  cpuMask _ := true
  clock := 0

theorem booted_start : Start oneHart booted := by
  constructor
  case created => exact fun t => decide_eq_true_iff
  all_goals first | rfl | exact fun _ => rfl

/-- Threads 1 and 2 are created, thread 1 runs and sleeps for the given time;
the clock goes from 1 to 2 during the call. -/
def sleepAcrossTick (time : Nat) : List (Action Nat Unit Unit) :=
  [.create 1, .create 2, .yield 1, .sleep time 1 2]

theorem sleepAcrossTick_duplicatefree :
    (permittedState (fun _ => NotOverdue) (step oneHart) booted
        (sleepAcrossTick 3)).currentThread = 2 ∧
      Duplicatefree oneHart (permittedState (fun _ => NotOverdue) (step oneHart) booted
        (sleepAcrossTick 3)) :=
  ⟨by decide, duplicatefree_of_notOverdue (permittedState_reachableUnder booted_start _)⟩

/-- `sleep(0)` while the clock advances: the thread is in the queue twice. -/
theorem overdue_sleeper_queued_twice :
    ¬ ∀ s : State Nat Unit Unit, Reachable (system oneHart) s → Duplicatefree oneHart s := by
  intro hall
  have hreachable : Reachable (system oneHart) (permittedState (fun _ _ => True) (step oneHart)
      booted (sleepAcrossTick 0)) :=
    permittedState_reachableUnder booted_start _
  have htwice : (permittedState (fun _ _ => True) (step oneHart) booted
      (sleepAcrossTick 0)).readyQueue = [1, 1] := by decide
  have hnodup := (hall _ hreachable).1
  rw [htwice] at hnodup
  exact absurd hnodup (by decide)

end LabKernel.QueueUniqueness
