import LabKernel.TransitionSystem
import LabKernel.WaitQueue

/-!
The kernel mutex (`mutex_lock` in `locks.cpp`) as a step relation.

A stretch of code that runs while the mutex's `SpinLock` is held is one step.
Every statement outside such a stretch is a step of its own: the return of
`do_block` through the scheduler and, on both paths of `acquire`, the
assignment of `owner`.
-/

namespace LabKernel.MutexLock

open LabKernel.TransitionSystem
open LabKernel.WaitQueue

variable {Thread Process : Type*} [DecidableEq Thread] [DecidableEq Process]

/-- Where a thread is with respect to the mutex. -/
inductive Pc where
  /-- Not inside `acquire` or `release`. -/
  | outside
  /-- In `acquire`, the mutex was free: after `lock.unlock()`, before the
  assignment of `owner`. -/
  | afterUnlock
  /-- In `acquire`: inside the `do_scheduler` call made by `do_block`. -/
  | inScheduler
  /-- In `acquire`: `do_block` has returned, before the assignment of
  `owner`. -/
  | afterBlock
  deriving DecidableEq, Repr

/-- The mutex, the block counters of the threads, and their positions.
`returned t` records that `t` has returned from `acquire` and has not
released since. -/
structure State (Thread : Type*) where
  locked : Bool
  owner : Option Thread
  waitQueue : List Thread
  blockCnt : Thread → Int
  pc : Thread → Pc
  returned : Thread → Bool

/-- The state of a newly constructed mutex. -/
def State.initial : State Thread where
  locked := false
  owner := none
  waitQueue := []
  blockCnt := fun _ => 0
  pc := fun _ => .outside
  returned := fun _ => false

inductive Action (Thread : Type*) where
  | acquire (t : Thread)
  | resume (t : Thread)
  | assignOwner (t : Thread)
  | release (t : Thread)
  deriving DecidableEq

/-- The part of `acquire` executed from `lock.lock()` on, up to and including
the release of the SpinLock.  A recursive acquisition returns at once and
leaves the SpinLock held. -/
def acquireSection (s : State Thread) (t : Thread) : State Thread :=
  if s.owner = some t then
    { s with locked := true, returned := Function.update s.returned t true }
  else if s.owner ≠ none then
    { s with
      waitQueue := s.waitQueue ++ [t]
      blockCnt := block s.blockCnt t
      pc := Function.update s.pc t .inScheduler }
  else
    { s with pc := Function.update s.pc t .afterUnlock }

/-- `release(p)` under its lock guard; `none` is the null dereference of an
absent owner. -/
def releaseSection (process : Thread → Process) (s : State Thread)
    (p : Process) : Option (State Thread) :=
  match s.owner with
  | none => none
  | some o =>
      if process o ≠ p then
        some s
      else
        let woken := wakeupOne s.waitQueue s.blockCnt
        some { s with
          owner := woken.thread
          waitQueue := woken.que
          blockCnt := woken.blockCnt }

/-- The assignment of `owner` that ends `acquire`. -/
def assignOwner (s : State Thread) (t : Thread) : State Thread :=
  { s with
    owner := some t
    pc := Function.update s.pc t .outside
    returned := Function.update s.returned t true }

/-- One step of thread `t`; a thread releases only after its own `acquire`
returned. -/
def next (process : Thread → Process) (s : State Thread) :
    Action Thread → Option (State Thread)
  | .acquire t =>
      if s.pc t = .outside ∧ s.locked = false then some (acquireSection s t) else none
  | .resume t =>
      if s.pc t = .inScheduler ∧ s.blockCnt t = 0 then
        some { s with pc := Function.update s.pc t .afterBlock }
      else none
  | .assignOwner t =>
      if s.pc t = .afterUnlock ∨ s.pc t = .afterBlock then some (assignOwner s t) else none
  | .release t =>
      if s.pc t = .outside ∧ s.returned t = true ∧ s.locked = false then
        (releaseSection process s (process t)).map fun s' =>
          { s' with returned := Function.update s'.returned t false }
      else none

/-- All runs of any set of threads on one mutex. -/
def system (process : Thread → Process) : System (State Thread) (Action Thread) :=
  ofFunction (fun s => s = State.initial) (next process)

/-- No two threads have both returned from `acquire` without a release. -/
def MutualExclusion (s : State Thread) : Prop :=
  ∀ t u, s.returned t = true → s.returned u = true → t = u

/-- No thread is between `lock.unlock()` and the assignment of `owner` when
another one enters the locked part of `acquire`. -/
def NoOpenWindow (s : State Thread) : Action Thread → Prop
  | .acquire _ => ∀ u, s.pc u ≠ .afterUnlock
  | _ => True

/-- The invariant of the runs without an open window.  `owner` is the thread
that holds the mutex, or the one it was handed to and that has not yet
returned, and the wait queue holds exactly the threads asleep in it. -/
structure Inv (s : State Thread) : Prop where
  returned_owner : ∀ t, s.returned t = true → s.owner = some t ∧ s.pc t = .outside
  window_free : ∀ t, s.pc t = .afterUnlock → s.owner = none
  window_unique : ∀ t u, s.pc t = .afterUnlock → s.pc u = .afterUnlock → t = u
  woken_owner : ∀ t, s.pc t = .afterBlock → s.owner = some t
  asleep : ∀ t, s.pc t = .inScheduler →
    (t ∈ s.waitQueue ∧ s.blockCnt t = 1) ∨ (s.blockCnt t = 0 ∧ s.owner = some t)
  awake : ∀ t, s.pc t ≠ .inScheduler → s.blockCnt t = 0
  queued : ∀ t ∈ s.waitQueue, s.pc t = .inScheduler ∧ s.blockCnt t = 1
  queue_nodup : s.waitQueue.Nodup
  free_queue : s.owner = none → s.waitQueue = []

omit [DecidableEq Thread] in
theorem Inv.mutualExclusion {s : State Thread} (h : Inv s) : MutualExclusion s := by
  intro t u ht hu
  have howner := (h.returned_owner t ht).1
  rw [(h.returned_owner u hu).1] at howner
  exact (Option.some.inj howner).symm

omit [DecidableEq Thread] in
theorem inv_initial : Inv (State.initial : State Thread) := by
  constructor <;> simp [State.initial]

omit [DecidableEq Thread] in
/-- The wait queue has no thread outside of it that still counts as asleep:
a thread the mutex is handed to has left the queue. -/
theorem Inv.owner_not_queued {s : State Thread} (h : Inv s) {t : Thread}
    (ht : s.pc t ≠ .inScheduler) : t ∉ s.waitQueue :=
  fun hmem => ht (h.queued t hmem).1

theorem inv_acquire_recursive {s : State Thread} (h : Inv s) {t : Thread}
    (hpc : s.pc t = .outside) (howner : s.owner = some t) :
    Inv (acquireSection s t) := by
  rw [acquireSection, if_pos howner]
  refine ⟨?_, h.window_free, h.window_unique, h.woken_owner, h.asleep, h.awake,
    h.queued, h.queue_nodup, h.free_queue⟩
  intro u hu
  rcases eq_or_ne u t with rfl | hne
  · exact ⟨howner, hpc⟩
  · exact h.returned_owner u (by simpa [hne] using hu)

theorem inv_acquire_block {s : State Thread} (h : Inv s) {t : Thread}
    (hpc : s.pc t = .outside) (hself : s.owner ≠ some t) (howned : s.owner ≠ none) :
    Inv (acquireSection s t) := by
  have hcnt : s.blockCnt t = 0 := h.awake t (by simp [hpc])
  have hnotin : t ∉ s.waitQueue := h.owner_not_queued (by simp [hpc])
  rw [acquireSection, if_neg hself, if_pos howned]
  constructor
  · intro u hu
    have hne : u ≠ t := by
      rintro rfl
      exact hself (h.returned_owner u hu).1
    simpa [hne] using h.returned_owner u hu
  · intro u hu
    rcases eq_or_ne u t with rfl | hne
    · simp at hu
    · exact h.window_free u (by simpa [hne] using hu)
  · intro u v hu hv
    have hut : u ≠ t := by rintro rfl; simp at hu
    have hvt : v ≠ t := by rintro rfl; simp at hv
    exact h.window_unique u v (by simpa [hut] using hu) (by simpa [hvt] using hv)
  · intro u hu
    have hut : u ≠ t := by rintro rfl; simp at hu
    exact h.woken_owner u (by simpa [hut] using hu)
  · intro u hu
    rcases eq_or_ne u t with rfl | hne
    · exact Or.inl (by simp [hcnt])
    · simpa [block_of_ne hne, hne] using h.asleep u (by simpa [hne] using hu)
  · intro u hu
    rcases eq_or_ne u t with rfl | hne
    · simp at hu
    · simpa [block_of_ne hne] using h.awake u (by simpa [hne] using hu)
  · intro u hu
    rcases eq_or_ne u t with rfl | hne
    · simp [hcnt]
    · simpa [block_of_ne hne, hne] using h.queued u (by simpa [hne] using hu)
  · simpa [List.nodup_append] using
      ⟨h.queue_nodup, fun u hu => ne_of_mem_of_not_mem hu hnotin⟩
  · intro hnone
    exact absurd hnone howned

theorem inv_acquire_free {s : State Thread} (h : Inv s) {t : Thread}
    (hpc : s.pc t = .outside) (hfree : s.owner = none)
    (hwindow : ∀ u, s.pc u ≠ .afterUnlock) : Inv (acquireSection s t) := by
  have hcnt : s.blockCnt t = 0 := h.awake t (by simp [hpc])
  rw [acquireSection, if_neg (by simp [hfree]), if_neg (by simp [hfree])]
  constructor
  · intro u hu
    have howner := (h.returned_owner u hu).1
    rw [hfree] at howner
    exact absurd howner (by simp)
  · intro u _
    exact hfree
  · intro u v hu hv
    have htarget : ∀ w, Function.update s.pc t .afterUnlock w = .afterUnlock → w = t := by
      intro w hw
      by_contra hne
      exact hwindow w (by simpa [hne] using hw)
    rw [htarget u hu, htarget v hv]
  · intro u hu
    have hut : u ≠ t := by rintro rfl; simp at hu
    exact h.woken_owner u (by simpa [hut] using hu)
  · intro u hu
    have hut : u ≠ t := by rintro rfl; simp at hu
    exact h.asleep u (by simpa [hut] using hu)
  · intro u hu
    rcases eq_or_ne u t with rfl | hne
    · exact hcnt
    · exact h.awake u (by simpa [hne] using hu)
  · intro u hu
    simp [h.free_queue hfree] at hu
  · exact h.queue_nodup
  · exact h.free_queue

theorem inv_resume {s : State Thread} (h : Inv s) {t : Thread}
    (hpc : s.pc t = .inScheduler) (hcnt : s.blockCnt t = 0) :
    Inv { s with pc := Function.update s.pc t .afterBlock } := by
  have howner : s.owner = some t := by
    rcases h.asleep t hpc with ⟨_, hone⟩ | ⟨_, howner⟩
    · omega
    · exact howner
  have hnotin : t ∉ s.waitQueue := by
    intro hmem
    have := (h.queued t hmem).2
    omega
  constructor
  · intro u hu
    have hut : u ≠ t := by
      rintro rfl
      have := (h.returned_owner u hu).2
      simp [hpc] at this
    simpa [hut] using h.returned_owner u hu
  · intro u hu
    have hut : u ≠ t := by rintro rfl; simp at hu
    exact h.window_free u (by simpa [hut] using hu)
  · intro u v hu hv
    have hut : u ≠ t := by rintro rfl; simp at hu
    have hvt : v ≠ t := by rintro rfl; simp at hv
    exact h.window_unique u v (by simpa [hut] using hu) (by simpa [hvt] using hv)
  · intro u hu
    rcases eq_or_ne u t with rfl | hne
    · exact howner
    · exact h.woken_owner u (by simpa [hne] using hu)
  · intro u hu
    have hut : u ≠ t := by rintro rfl; simp at hu
    exact h.asleep u (by simpa [hut] using hu)
  · intro u hu
    rcases eq_or_ne u t with rfl | hne
    · exact hcnt
    · exact h.awake u (by simpa [hne] using hu)
  · intro u hu
    have hut : u ≠ t := ne_of_mem_of_not_mem hu hnotin
    simpa [hut] using h.queued u hu
  · exact h.queue_nodup
  · exact h.free_queue

omit [DecidableEq Thread] in
/-- A thread about to assign `owner` is the only one the mutex can be given
to: every other thread is outside or asleep in the queue. -/
theorem Inv.assigning_unique {s : State Thread} (h : Inv s) {t : Thread}
    (hpc : s.pc t = .afterUnlock ∨ s.pc t = .afterBlock) (u : Thread) (hne : u ≠ t) :
    s.returned u = false ∧ s.pc u ≠ .afterUnlock ∧ s.pc u ≠ .afterBlock ∧
      s.owner ≠ some u := by
  have howner : s.owner ≠ some u := by
    intro hu
    rcases hpc with hpc | hpc
    · simp [h.window_free t hpc] at hu
    · rw [h.woken_owner t hpc] at hu
      exact hne (Option.some.inj hu).symm
  refine ⟨?_, ?_, ?_, howner⟩
  · by_contra hreturned
    exact howner (h.returned_owner u (by simpa using hreturned)).1
  · intro hwindow
    rcases hpc with hpc | hpc
    · exact hne (h.window_unique u t hwindow hpc)
    · have := h.woken_owner t hpc
      simp [h.window_free u hwindow] at this
  · intro hwoken
    exact howner (h.woken_owner u hwoken)

theorem inv_assignOwner {s : State Thread} (h : Inv s) {t : Thread}
    (hpc : s.pc t = .afterUnlock ∨ s.pc t = .afterBlock) : Inv (assignOwner s t) := by
  have hothers := h.assigning_unique hpc
  have hnotin : t ∉ s.waitQueue := h.owner_not_queued (by rcases hpc with h | h <;> simp [h])
  constructor
  · intro u hu
    rcases eq_or_ne u t with rfl | hne
    · simp [assignOwner]
    · simp [assignOwner, hne, (hothers u hne).1] at hu
  · intro u hu
    rcases eq_or_ne u t with rfl | hne
    · simp [assignOwner] at hu
    · exact absurd (by simpa [assignOwner, hne] using hu) (hothers u hne).2.1
  · intro u v hu _
    rcases eq_or_ne u t with rfl | hne
    · simp [assignOwner] at hu
    · exact absurd (by simpa [assignOwner, hne] using hu) (hothers u hne).2.1
  · intro u hu
    rcases eq_or_ne u t with rfl | hne
    · simp [assignOwner] at hu
    · exact absurd (by simpa [assignOwner, hne] using hu) (hothers u hne).2.2.1
  · intro u hu
    have hut : u ≠ t := by rintro rfl; simp [assignOwner] at hu
    rcases h.asleep u (by simpa [assignOwner, hut] using hu) with hin | ⟨_, howner⟩
    · exact Or.inl hin
    · exact absurd howner (hothers u hut).2.2.2
  · intro u hu
    rcases eq_or_ne u t with rfl | hne
    · exact h.awake u (by rcases hpc with h | h <;> simp [h])
    · exact h.awake u (by simpa [assignOwner, hne] using hu)
  · intro u hu
    have hut : u ≠ t := ne_of_mem_of_not_mem hu hnotin
    simpa [assignOwner, hut] using h.queued u hu
  · exact h.queue_nodup
  · simp [assignOwner]

/-- Handing the mutex over in `release`. -/
def handOver (s : State Thread) (t : Thread) : State Thread :=
  let woken := wakeupOne s.waitQueue s.blockCnt
  { s with
    owner := woken.thread
    waitQueue := woken.que
    blockCnt := woken.blockCnt
    returned := Function.update s.returned t false }

theorem inv_handOver {s : State Thread} (h : Inv s) {t : Thread}
    (howner : s.owner = some t) (hpc : s.pc t = .outside) : Inv (handOver s t) := by
  have hreturned : ∀ u, u ≠ t → s.returned u ≠ true := by
    intro u hne hu
    have := (h.returned_owner u hu).1
    rw [howner] at this
    exact hne (Option.some.inj this).symm
  have hnowindow : ∀ u, s.pc u ≠ .afterUnlock := by
    intro u hu
    simp [h.window_free u hu] at howner
  have hnowoken : ∀ u, s.pc u ≠ .afterBlock := by
    intro u hu
    have := h.woken_owner u hu
    rw [howner] at this
    rw [Option.some.inj this] at hpc
    simp [hpc] at hu
  have hasleep : ∀ u, s.pc u = .inScheduler → u ∈ s.waitQueue ∧ s.blockCnt u = 1 := by
    intro u hu
    rcases h.asleep u hu with hin | ⟨_, howned⟩
    · exact hin
    · rw [howner] at howned
      rw [Option.some.inj howned] at hpc
      simp [hpc] at hu
  have hnone : ∀ u, Function.update s.returned t false u ≠ true := by
    intro u
    rcases eq_or_ne u t with rfl | hne
    · simp
    · simpa [hne] using hreturned u hne
  rcases hque : s.waitQueue with _ | ⟨w, rest⟩
  · rw [hque] at hasleep
    refine ⟨fun u hu => absurd hu (hnone u), fun u hu => absurd hu (hnowindow u),
      fun u _ hu => absurd hu (hnowindow u), fun u hu => absurd hu (hnowoken u),
      fun u hu => absurd (hasleep u hu).1 (by simp), ?_, ?_, ?_, ?_⟩
    · simpa [handOver, hque, wakeupOne] using h.awake
    all_goals simp [handOver, hque, wakeupOne]
  · have hw : s.pc w = .inScheduler ∧ s.blockCnt w = 1 := h.queued w (by simp [hque])
    have hnodup : w ∉ rest ∧ rest.Nodup := by
      simpa [hque] using h.queue_nodup
    refine ⟨fun u hu => absurd hu (hnone u), fun u hu => absurd hu (hnowindow u),
      fun u _ hu => absurd hu (hnowindow u), fun u hu => absurd hu (hnowoken u),
      ?_, ?_, ?_, ?_, ?_⟩
    · intro u hu
      rcases eq_or_ne u w with rfl | hne
      · exact Or.inr (by simp [handOver, hque, wakeupOne, hw.2])
      · have := hasleep u hu
        rw [hque] at this
        exact Or.inl (by simpa [handOver, hque, wakeupOne, wakeup_of_ne hne, hne] using this)
    · intro u hu
      have hne : u ≠ w := by
        rintro rfl
        exact hu hw.1
      simpa [handOver, hque, wakeupOne, wakeup_of_ne hne] using h.awake u hu
    · intro u hu
      have hmem : u ∈ rest := by simpa [handOver, hque, wakeupOne] using hu
      have hne : u ≠ w := ne_of_mem_of_not_mem hmem hnodup.1
      simpa [handOver, hque, wakeupOne, wakeup_of_ne hne] using
        h.queued u (by simp [hque, hmem])
    · simpa [handOver, hque, wakeupOne] using hnodup.2
    · simp [handOver, hque, wakeupOne]

theorem inv_next (process : Thread → Process) {s s' : State Thread} (h : Inv s)
    {a : Action Thread} (hallowed : NoOpenWindow s a) (hnext : next process s a = some s') :
    Inv s' := by
  cases a with
  | acquire t =>
      simp only [next, Option.ite_none_right_eq_some, Option.some.injEq] at hnext
      obtain ⟨⟨hpc, -⟩, rfl⟩ := hnext
      by_cases hself : s.owner = some t
      · exact inv_acquire_recursive h hpc hself
      · by_cases hfree : s.owner = none
        · exact inv_acquire_free h hpc hfree hallowed
        · exact inv_acquire_block h hpc hself hfree
  | resume t =>
      simp only [next, Option.ite_none_right_eq_some, Option.some.injEq] at hnext
      obtain ⟨⟨hpc, hcnt⟩, rfl⟩ := hnext
      exact inv_resume h hpc hcnt
  | assignOwner t =>
      simp only [next, Option.ite_none_right_eq_some, Option.some.injEq] at hnext
      obtain ⟨hpc, rfl⟩ := hnext
      exact inv_assignOwner h hpc
  | release t =>
      simp only [next, Option.ite_none_right_eq_some, Option.map_eq_some_iff] at hnext
      obtain ⟨⟨hpc, hreturned, -⟩, middle, hsection, rfl⟩ := hnext
      have howner := (h.returned_owner t hreturned).1
      simp only [releaseSection, howner, ne_eq, not_true_eq_false, if_false,
        Option.some.injEq] at hsection
      subst hsection
      exact inv_handOver h howner hpc

/-- Mutual exclusion holds throughout every run in which no thread enters the
locked part of `acquire` while another one has unlocked but not yet recorded
itself as the owner. -/
theorem mutualExclusion_of_noOpenWindow (process : Thread → Process) {s : State Thread}
    (h : ReachableUnder (system process) NoOpenWindow s) : MutualExclusion s := by
  have hinv : Inv s := h.invariant (fun _ hs => hs ▸ inv_initial)
    fun _ _ _ hs hallowed hnext => inv_next process hs hallowed hnext
  exact hinv.mutualExclusion

/-- Two threads that both find the mutex free before either records itself. -/
def racingActions : List (Action Nat) :=
  [.acquire 0, .acquire 1, .assignOwner 0, .assignOwner 1]

theorem racing_threads_both_return :
    ¬ ∀ s : State Nat, Reachable (system fun t : Nat => t) s → MutualExclusion s := by
  intro hall
  have hstart : Reachable (system fun t : Nat => t) State.initial := ReachableUnder.start rfl
  have hreach := reachable_of_replay hstart racingActions rfl
  have hsame := hall _ hreach 0 1 (by decide) (by decide)
  exact absurd hsame (by decide)

/-- An uncontended acquisition followed by a second thread going to sleep. -/
def contended : State Nat :=
  acquireSection (assignOwner (acquireSection State.initial 0) 0) 1

theorem contended_mutualExclusion :
    contended.returned 0 = true ∧ contended.waitQueue = [1] ∧ MutualExclusion contended := by
  refine ⟨by decide, by decide, mutualExclusion_of_noOpenWindow (fun t : Nat => t) ?_⟩
  have hfirst : ReachableUnder (system fun t : Nat => t) NoOpenWindow
      (acquireSection State.initial 0) :=
    ReachableUnder.step (a := .acquire 0) (ReachableUnder.start rfl)
      (by intro u; simp [State.initial]) rfl
  have hsecond : ReachableUnder (system fun t : Nat => t) NoOpenWindow
      (assignOwner (acquireSection State.initial 0) 0) :=
    ReachableUnder.step (a := .assignOwner 0) hfirst trivial rfl
  refine ReachableUnder.step (a := .acquire 1) hsecond ?_ rfl
  intro u
  simp [assignOwner, acquireSection, State.initial]

end LabKernel.MutexLock
