import Mathlib.Algebra.Group.Nat.Defs
import Mathlib.Data.Fintype.Basic
import LabKernel.TransitionSystem
import LabKernel.WaitQueue

/-!
Waiting for the end of a process or a thread (`sys_waitpid`, `sys_wait_thread`)
while other harts end it (`Process::kill`, `Thread::exit`).

The test whether the target has ended and the push onto its queue are two
steps, and no lock is held from the one to the other.  Every hart works through
the steps of the kernel code that it has before it.  `idle_cleanup`, which
deletes killed processes and thereby wakes whoever waits for them, is left out.
-/

namespace LabKernel.ExitRace

open LabKernel.TransitionSystem
open LabKernel.WaitQueue

/-- What can be waited for. -/
inductive Target (Process Thread : Type*) where
  | process (p : Process)
  | thread (t : Thread)
  deriving DecidableEq

/-- A step of the kernel code. -/
inductive Work (Process Thread : Type*) where
  /-- `Process::kill`, up to the test of `is_killed`. -/
  | kill (p : Process)
  /-- `Thread::exit`, up to the test of `status_exited`. -/
  | exit (t : Thread)
  | lock (x : Target Process Thread)
  /-- `is_killed = true` and `status_exited = true`. -/
  | mark (x : Target Process Thread)
  /-- `wakeup_all` of `wait_kill_queue` and `wait_exited_queue`. -/
  | wakeupAll (x : Target Process Thread)
  /-- The loop of `Process::kill` over its threads. -/
  | exitThreads (p : Process)
  | unlock (x : Target Process Thread)
  /-- `--process->active_thread_cnt` in `Thread::exit`. -/
  | countDown (t : Thread)
  /-- The rest of `Process::kill`, or the end of `Thread::exit`. -/
  | finish (x : Target Process Thread)
  /-- The scheduler is entered if the thread is the current one. -/
  | leave (t : Thread)
  | doScheduler
  /-- `do_block` on the queue of the target. -/
  | doBlock (x : Target Process Thread)
  deriving DecidableEq

structure State (Hart Process Thread : Type*) where
  /-- `is_killed` and `status_exited`. -/
  ended : Target Process Thread → Bool
  /-- `wait_kill_queue` and `wait_exited_queue`. -/
  queue : Target Process Thread → List Thread
  /-- `process_own_lock` and `thread_own_lock`. -/
  ownLock : Target Process Thread → Bool
  blockCnt : Thread → Int
  threads : Process → List Thread
  activeThreadCnt : Process → Nat
  /-- In `process_table` and `thread_table`. -/
  created : Target Process Thread → Bool
  /-- The current thread of a hart; `none` stands for its idle thread. -/
  currentThread : Hart → Option Thread
  work : Hart → List (Work Process Thread)
  /-- The targets whose end has come to `wakeup_all`, and those whose `kill` or
  `exit` has come to its end. -/
  woken : Target Process Thread → Bool
  finished : Target Process Thread → Bool

inductive Action (Hart Process Thread : Type*) where
  | sysExec (h : Hart) (t : Thread)
  | sysCreateThread (h : Hart) (t : Thread)
  /-- The scheduler hands the hart to a thread. -/
  | dispatch (h : Hart) (t : Thread)
  | yield (h : Hart)
  /-- `sys_waitpid` and `sys_wait_thread` up to the result of the look-up. -/
  | wait (h : Hart) (x : Target Process Thread)
  | sysExit (h : Hart)
  | sysKill (h : Hart) (p : Process)
  | sysExitThread (h : Hart)
  | sysKillThread (h : Hart) (t : Thread)
  /-- The next step of the call that the hart is in. -/
  | go (h : Hart)
  deriving DecidableEq

variable {Hart Process Thread : Type*} [DecidableEq Hart] [DecidableEq Process]
  [DecidableEq Thread] (process : Thread → Process)

def State.setWork (s : State Hart Process Thread) (h : Hart) (w : List (Work Process Thread)) :
    State Hart Process Thread :=
  { s with work := Function.update s.work h w }

/-- The body of `Process::kill` after the test. -/
def killSteps (p : Process) : List (Work Process Thread) :=
  [.lock (.process p), .mark (.process p), .wakeupAll (.process p), .exitThreads p,
    .unlock (.process p), .finish (.process p)]

/-- The body of `Thread::exit` after the test. -/
def exitSteps (t : Thread) : List (Work Process Thread) :=
  [.lock (.thread t), .mark (.thread t), .wakeupAll (.thread t), .unlock (.thread t),
    .countDown t, .finish (.thread t), .leave t]

/-- `--active_thread_cnt` on a 64-bit counter. -/
def decrement (n : Nat) : Nat := if n = 0 then 2 ^ 64 - 1 else n - 1

/-- One step of a hart that has `rest` before it afterwards; `none` while it
waits for a lock. -/
def perform (s : State Hart Process Thread) (h : Hart) (rest : List (Work Process Thread)) :
    Work Process Thread → Option (State Hart Process Thread)
  | .kill p => some (s.setWork h (if s.ended (.process p) then rest else killSteps p ++ rest))
  | .exit t => some (s.setWork h (if s.ended (.thread t) then rest else exitSteps t ++ rest))
  | .lock x =>
      if s.ownLock x then none
      else some { s.setWork h rest with ownLock := Function.update s.ownLock x true }
  | .mark x => some { s.setWork h rest with ended := Function.update s.ended x true }
  | .wakeupAll x =>
      some { s.setWork h rest with
        queue := Function.update s.queue x []
        blockCnt := (s.queue x).foldl wakeup s.blockCnt
        woken := Function.update s.woken x true }
  | .exitThreads p => some (s.setWork h ((s.threads p).map .exit ++ rest))
  | .unlock x => some { s.setWork h rest with ownLock := Function.update s.ownLock x false }
  | .countDown t =>
      let left := decrement (s.activeThreadCnt (process t))
      some { s.setWork h (if left = 0 then .kill (process t) :: rest else rest) with
        activeThreadCnt := Function.update s.activeThreadCnt (process t) left }
  | .finish x => some { s.setWork h rest with finished := Function.update s.finished x true }
  | .leave t =>
      -- The scheduler never comes back to a thread that has exited.
      if s.currentThread h = some t then
        some { s.setWork h [] with currentThread := Function.update s.currentThread h none }
      else some (s.setWork h rest)
  | .doScheduler =>
      some { s.setWork h rest with currentThread := Function.update s.currentThread h none }
  | .doBlock x =>
      (s.currentThread h).map fun t =>
        { s.setWork h rest with
          queue := Function.update s.queue x (s.queue x ++ [t])
          blockCnt := block s.blockCnt t
          currentThread := Function.update s.currentThread h none }

/-- The tests of `get_process` and `get_thread`. -/
def Found (s : State Hart Process Thread) (x : Target Process Thread) : Prop :=
  s.created x = true ∧ s.ended x = false

instance (s : State Hart Process Thread) (x : Target Process Thread) : Decidable (Found s x) :=
  inferInstanceAs (Decidable (_ ∧ _))

/-- A system call of the current thread. -/
def call (s : State Hart Process Thread) (h : Hart)
    (steps : Thread → List (Work Process Thread)) : Option (State Hart Process Thread) :=
  if s.work h = [] then (s.currentThread h).map fun t => s.setWork h (steps t) else none

/-- `Process::create_thread`. -/
def createThread (s : State Hart Process Thread) (t : Thread) : State Hart Process Thread :=
  { s with
    created := Function.update s.created (.thread t) true
    threads := Function.update s.threads (process t) (s.threads (process t) ++ [t])
    activeThreadCnt := Function.update s.activeThreadCnt (process t)
      (s.activeThreadCnt (process t) + 1) }

def next [Fintype Hart] (s : State Hart Process Thread) :
    Action Hart Process Thread → Option (State Hart Process Thread)
  | .sysExec h t =>
      if s.work h = [] ∧ s.created (.process (process t)) = false ∧
          s.created (.thread t) = false then
        some (createThread process
          { s with created := Function.update s.created (.process (process t)) true } t)
      else none
  | .sysCreateThread h t =>
      if s.work h = [] ∧ (s.currentThread h).map process = some (process t) ∧
          s.ownLock (.process (process t)) = false ∧ s.created (.thread t) = false then
        some (createThread process s t)
      else none
  | .dispatch h t =>
      if s.work h = [] ∧ s.currentThread h = none ∧ Found s (.thread t) ∧ s.blockCnt t = 0 ∧
          ∀ h', s.currentThread h' ≠ some t then
        some { s with currentThread := Function.update s.currentThread h (some t) }
      else none
  | .yield h => call s h fun _ => [.doScheduler]
  | .wait h x => call s h fun _ => if Found s x then [.doBlock x] else []
  | .sysExit h => call s h fun t => [.kill (process t), .doScheduler]
  | .sysKill h p => call s h fun t =>
      if Found s (.process p) then .kill p :: if process t = p then [.doScheduler] else [] else []
  | .sysExitThread h => call s h fun t => [.exit t]
  | .sysKillThread h t => call s h fun _ => if Found s (.thread t) then [.exit t] else []
  | .go h =>
      match s.work h with
      | [] => none
      | step :: rest => perform process s h rest step

/-- No process but the idle one, whose threads are the harts' idle threads. -/
def booted : State Hart Process Thread where
  ended := fun _ => false
  queue := fun _ => []
  ownLock := fun _ => false
  blockCnt := fun _ => 0
  threads := fun _ => []
  activeThreadCnt := fun _ => 0
  created := fun _ => false
  currentThread := fun _ => none
  work := fun _ => []
  woken := fun _ => false
  finished := fun _ => false

def Start (s : State Hart Process Thread) : Prop := s = booted

omit [DecidableEq Hart] [DecidableEq Process] [DecidableEq Thread] in
theorem start_booted : Start (booted : State Hart Process Thread) := rfl

/-- All runs of the calls on the given harts. -/
def system [Fintype Hart] : System (State Hart Process Thread) (Action Hart Process Thread) :=
  ofFunction Start (next process)

/-- Nobody is in the queue of a target whose end has woken that queue, let
alone of one whose end is finished. -/
def NoneLate (s : State Hart Process Thread) : Prop :=
  ∀ x, s.woken x = true ∨ s.finished x = true → s.queue x = []

/-- The target whose queue a step wakes. -/
def Work.wakes : Work Process Thread → Option (Target Process Thread)
  | .wakeupAll x => some x
  | _ => none

/-- A queue is woken only while no hart is between its look-up of the target
and `do_block`. -/
def Settled (s : State Hart Process Thread) : Action Hart Process Thread → Prop
  | .go h => ∀ x ∈ (s.work h).head?.bind Work.wakes, ∀ h', .doBlock x ∉ s.work h'
  | _ => True

/-- Every wake-up comes after the mark and every end after the wake-up, where
the targets with `e` are marked and those with `w` woken. -/
def Sound (e w : Target Process Thread → Prop) : List (Work Process Thread) → Prop
  | [] => True
  | .mark x :: rest => Sound (fun y => e y ∨ y = x) w rest
  | .wakeupAll x :: rest => e x ∧ Sound e (fun y => w y ∨ y = x) rest
  | .finish x :: rest => w x ∧ Sound e w rest
  | _ :: rest => Sound e w rest

section Steps

variable {e e' w w' : Target Process Thread → Prop} {l : List (Work Process Thread)}

omit [DecidableEq Process] [DecidableEq Thread]

theorem Sound.mono (h : Sound e w l) (he : ∀ x, e x → e' x) (hw : ∀ x, w x → w' x) :
    Sound e' w' l := by
  induction l generalizing e e' w w' with
  | nil => trivial
  | cons step rest ih =>
      cases step with
      | mark x => exact ih h (fun y hy => hy.imp (he y) id) hw
      | wakeupAll x => exact ⟨he x h.1, ih h.2 he fun y hy => hy.imp (hw y) id⟩
      | finish x => exact ⟨hw x h.1, ih h.2 he hw⟩
      | _ => exact ih h he hw

theorem sound_killSteps (p : Process) (h : Sound e w l) : Sound e w (killSteps p ++ l) := by
  refine ⟨Or.inr rfl, Or.inr rfl, ?_⟩
  exact h.mono (fun _ => Or.inl) fun _ => Or.inl

theorem sound_exitSteps (t : Thread) (h : Sound e w l) : Sound e w (exitSteps t ++ l) := by
  refine ⟨Or.inr rfl, Or.inr rfl, ?_⟩
  exact h.mono (fun _ => Or.inl) fun _ => Or.inl

theorem sound_exits (ts : List Thread) (h : Sound e w l) : Sound e w (ts.map .exit ++ l) := by
  induction ts with
  | nil => exact h
  | cons t rest ih => exact ih

end Steps

variable {process} {s s' : State Hart Process Thread} {h : Hart} {x : Target Process Thread}
  {rest l : List (Work Process Thread)}

/-- No hart is on its way to the queue of a target that was woken, and none is
left there. -/
structure Inv (s : State Hart Process Thread) : Prop where
  sound : ∀ h, Sound (s.ended · = true) (s.woken · = true) (s.work h)
  ended : ∀ x, s.woken x = true → s.ended x = true
  queue : ∀ x, s.woken x = true → s.queue x = []
  doBlock : ∀ x, s.woken x = true → ∀ h, .doBlock x ∉ s.work h
  finished : ∀ x, s.finished x = true → s.woken x = true

omit [DecidableEq Process] [DecidableEq Thread] in
theorem Inv.setWork (hs : Inv s) (hended : s'.ended = s.ended) (hwoken : s'.woken = s.woken)
    (hfinished : s'.finished = s.finished) (hqueue : s'.queue = s.queue)
    (hwork : s'.work = Function.update s.work h l)
    (hsound : Sound (s.ended · = true) (s.woken · = true) l)
    (hblock : ∀ x, .doBlock x ∈ l → .doBlock x ∈ s.work h ∨ s.ended x = false) : Inv s' := by
  refine ⟨fun h' => ?_, ?_, ?_, fun x hx h' hmem => ?_, ?_⟩
  · rw [hended, hwoken, hwork]
    rcases eq_or_ne h' h with rfl | hne
    · rw [Function.update_self]
      exact hsound
    · rw [Function.update_of_ne hne]
      exact hs.sound h'
  · rw [hended, hwoken]
    exact hs.ended
  · rw [hwoken, hqueue]
    exact hs.queue
  · rw [hwoken] at hx
    rw [hwork] at hmem
    rcases eq_or_ne h' h with rfl | hne
    · rw [Function.update_self] at hmem
      rcases hblock x hmem with hold | hlive
      · exact hs.doBlock x hx h' hold
      · rw [hs.ended x hx] at hlive
        cases hlive
    · rw [Function.update_of_ne hne] at hmem
      exact hs.doBlock x hx h' hmem
  · rw [hfinished, hwoken]
    exact hs.finished

omit [DecidableEq Process] [DecidableEq Thread] in
theorem mem_update_work {step : Work Process Thread} {h' : Hart}
    (hmem : step ∈ Function.update s.work h rest h') (hrest : step ∈ rest → step ∈ s.work h) :
    step ∈ s.work h' := by
  rcases eq_or_ne h' h with rfl | hne
  · rw [Function.update_self] at hmem
    exact hrest hmem
  · rwa [Function.update_of_ne hne] at hmem

omit [DecidableEq Process] [DecidableEq Thread] in
theorem Inv.sound_update {e w : Target Process Thread → Prop} (hs : Inv s)
    (he : ∀ x, s.ended x = true → e x) (hw : ∀ x, s.woken x = true → w x)
    (hrest : Sound e w rest) (h' : Hart) : Sound e w (Function.update s.work h rest h') := by
  rcases eq_or_ne h' h with rfl | hne
  · rw [Function.update_self]
    exact hrest
  · rw [Function.update_of_ne hne]
    exact (hs.sound h').mono he hw

theorem update_true {f : Target Process Thread → Bool} {y : Target Process Thread} :
    Function.update f x true y = true ↔ f y = true ∨ y = x := by
  rw [Function.update_apply]
  split
  next heq => simp [heq]
  next hne => simp [hne]

theorem inv_mark (hs : Inv s) (hwork : s.work h = .mark x :: rest) :
    Inv { s.setWork h rest with ended := Function.update s.ended x true } := by
  have hsound := hs.sound h
  rw [hwork] at hsound
  constructor
  · simp only [update_true]
    exact hs.sound_update (fun _ => Or.inl) (fun _ hy => hy) hsound
  · exact fun y hy => update_true.mpr (Or.inl (hs.ended y hy))
  · exact hs.queue
  · intro y hy h' hmem
    refine hs.doBlock y hy h' (mem_update_work hmem fun hrest => ?_)
    rw [hwork]
    exact List.mem_cons_of_mem _ hrest
  · exact hs.finished

theorem inv_wakeupAll (hs : Inv s) (hwork : s.work h = .wakeupAll x :: rest)
    (hsettled : ∀ h', .doBlock x ∉ s.work h') (blockCnt : Thread → Int) :
    Inv { s.setWork h rest with
      queue := Function.update s.queue x []
      blockCnt := blockCnt
      woken := Function.update s.woken x true } := by
  have hsound := hs.sound h
  rw [hwork] at hsound
  constructor
  · simp only [update_true]
    exact hs.sound_update (fun _ hy => hy) (fun _ => Or.inl) hsound.2
  · intro y hy
    rcases update_true.mp hy with hold | rfl
    · exact hs.ended y hold
    · exact hsound.1
  · intro y hy
    rcases eq_or_ne y x with rfl | hne
    · exact Function.update_self ..
    · have hwoken := (update_true.mp hy).resolve_right hne
      exact (Function.update_of_ne hne ..).trans (hs.queue y hwoken)
  · intro y hy h' hmem
    have hold : .doBlock y ∈ s.work h' := mem_update_work hmem fun hrest => by
      rw [hwork]
      exact List.mem_cons_of_mem _ hrest
    rcases update_true.mp hy with hwoken | rfl
    · exact hs.doBlock y hwoken h' hold
    · exact hsettled h' hold
  · exact fun y hy => update_true.mpr (Or.inl (hs.finished y hy))

theorem inv_finish (hs : Inv s) (hwork : s.work h = .finish x :: rest) :
    Inv { s.setWork h rest with finished := Function.update s.finished x true } := by
  have hsound := hs.sound h
  rw [hwork] at hsound
  constructor
  · exact hs.sound_update (fun _ hy => hy) (fun _ hy => hy) hsound.2
  · exact hs.ended
  · exact hs.queue
  · intro y hy h' hmem
    refine hs.doBlock y hy h' (mem_update_work hmem fun hrest => ?_)
    rw [hwork]
    exact List.mem_cons_of_mem _ hrest
  · intro y hy
    rcases update_true.mp hy with hold | rfl
    · exact hs.finished y hold
    · exact hsound.1

theorem inv_doBlock (hs : Inv s) (hwork : s.work h = .doBlock x :: rest) (que : List Thread)
    (blockCnt : Thread → Int) (currentThread : Hart → Option Thread) :
    Inv { s.setWork h rest with
      queue := Function.update s.queue x que
      blockCnt := blockCnt
      currentThread := currentThread } := by
  have hsound := hs.sound h
  rw [hwork] at hsound
  have hmem : .doBlock x ∈ s.work h := by
    rw [hwork]
    exact List.mem_cons_self
  constructor
  · exact hs.sound_update (fun _ hy => hy) (fun _ hy => hy) hsound
  · exact hs.ended
  · intro y hy
    have hne : y ≠ x := by
      rintro rfl
      exact hs.doBlock y hy h hmem
    exact (Function.update_of_ne hne ..).trans (hs.queue y hy)
  · intro y hy h' hmem
    refine hs.doBlock y hy h' (mem_update_work hmem fun hrest => ?_)
    rw [hwork]
    exact List.mem_cons_of_mem _ hrest
  · exact hs.finished

theorem inv_perform {step : Work Process Thread} (hs : Inv s) (hwork : s.work h = step :: rest)
    (hsettled : ∀ x, step = .wakeupAll x → ∀ h', .doBlock x ∉ s.work h')
    (hperform : perform process s h rest step = some s') : Inv s' := by
  have hsound := hs.sound h
  rw [hwork] at hsound
  have hrest : ∀ x, .doBlock x ∈ rest → .doBlock x ∈ s.work h ∨ s.ended x = false := by
    intro x hx
    rw [hwork]
    exact Or.inl (List.mem_cons_of_mem _ hx)
  cases step with
  | kill p =>
      cases hperform
      split
      · exact hs.setWork rfl rfl rfl rfl rfl hsound hrest
      · refine hs.setWork rfl rfl rfl rfl rfl (sound_killSteps p hsound) fun x hx => hrest x ?_
        simpa [killSteps] using hx
  | exit t =>
      cases hperform
      split
      · exact hs.setWork rfl rfl rfl rfl rfl hsound hrest
      · refine hs.setWork rfl rfl rfl rfl rfl (sound_exitSteps t hsound) fun x hx => hrest x ?_
        simpa [exitSteps] using hx
  | lock x =>
      simp only [perform] at hperform
      split at hperform
      · cases hperform
      · cases hperform
        exact hs.setWork rfl rfl rfl rfl rfl hsound hrest
  | mark x =>
      cases hperform
      exact inv_mark hs hwork
  | wakeupAll x =>
      cases hperform
      exact inv_wakeupAll hs hwork (hsettled x rfl) _
  | exitThreads p =>
      cases hperform
      refine hs.setWork rfl rfl rfl rfl rfl (sound_exits _ hsound) fun x hx => hrest x ?_
      simpa using hx
  | unlock x =>
      cases hperform
      exact hs.setWork rfl rfl rfl rfl rfl hsound hrest
  | countDown t =>
      cases hperform
      split
      · refine hs.setWork rfl rfl rfl rfl rfl hsound fun x hx => hrest x ?_
        simpa using hx
      · exact hs.setWork rfl rfl rfl rfl rfl hsound hrest
  | finish x =>
      cases hperform
      exact inv_finish hs hwork
  | leave t =>
      simp only [perform] at hperform
      split at hperform
      · cases hperform
        exact hs.setWork rfl rfl rfl rfl rfl trivial nofun
      · cases hperform
        exact hs.setWork rfl rfl rfl rfl rfl hsound hrest
  | doScheduler =>
      cases hperform
      exact hs.setWork rfl rfl rfl rfl rfl hsound hrest
  | doBlock x =>
      obtain ⟨t, -, rfl⟩ := Option.map_eq_some_iff.mp hperform
      exact inv_doBlock hs hwork _ _ _

omit [DecidableEq Process] [DecidableEq Thread] in
theorem inv_call {steps : Thread → List (Work Process Thread)}
    (hcall : call s h steps = some s') (hs : Inv s)
    (hsound : ∀ t, Sound (s.ended · = true) (s.woken · = true) (steps t))
    (hblock : ∀ t x, .doBlock x ∈ steps t → s.ended x = false) : Inv s' := by
  unfold call at hcall
  split at hcall
  · obtain ⟨t, -, rfl⟩ := Option.map_eq_some_iff.mp hcall
    exact hs.setWork rfl rfl rfl rfl rfl (hsound t) fun x hx => Or.inr (hblock t x hx)
  · cases hcall

omit [DecidableEq Hart] [DecidableEq Process] [DecidableEq Thread] in
theorem Inv.congr (hs : Inv s) (hended : s'.ended = s.ended) (hwoken : s'.woken = s.woken)
    (hfinished : s'.finished = s.finished) (hqueue : s'.queue = s.queue)
    (hwork : s'.work = s.work) : Inv s' := by
  constructor
  · rw [hended, hwoken, hwork]
    exact hs.sound
  · rw [hended, hwoken]
    exact hs.ended
  · rw [hwoken, hqueue]
    exact hs.queue
  · rw [hwoken, hwork]
    exact hs.doBlock
  · rw [hfinished, hwoken]
    exact hs.finished

theorem inv_next [Fintype Hart] {a : Action Hart Process Thread} (hs : Inv s)
    (hsettled : Settled s a) (hnext : next process s a = some s') : Inv s' := by
  cases a with
  | sysExec h t =>
      simp only [next, Option.ite_none_right_eq_some, Option.some.injEq] at hnext
      obtain ⟨-, rfl⟩ := hnext
      exact hs.congr rfl rfl rfl rfl rfl
  | sysCreateThread h t =>
      simp only [next, Option.ite_none_right_eq_some, Option.some.injEq] at hnext
      obtain ⟨-, rfl⟩ := hnext
      exact hs.congr rfl rfl rfl rfl rfl
  | dispatch h t =>
      simp only [next, Option.ite_none_right_eq_some, Option.some.injEq] at hnext
      obtain ⟨-, rfl⟩ := hnext
      exact hs.congr rfl rfl rfl rfl rfl
  | yield h => exact inv_call hnext hs (fun _ => trivial) fun _ x hx => by simp at hx
  | wait h x =>
      refine inv_call hnext hs (fun _ => ?_) fun _ y hy => ?_
      · split <;> trivial
      · split at hy
        · next hfound =>
            obtain rfl : y = x := by simpa using hy
            exact hfound.2
        · cases hy
  | sysExit h => exact inv_call hnext hs (fun _ => trivial) fun _ x hx => by simp at hx
  | sysKill h p =>
      refine inv_call hnext hs (fun _ => ?_) fun _ x hx => ?_
      · split
        · split <;> trivial
        · trivial
      · split at hx
        · split at hx <;> simp at hx
        · cases hx
  | sysExitThread h => exact inv_call hnext hs (fun _ => trivial) fun _ x hx => by simp at hx
  | sysKillThread h t =>
      refine inv_call hnext hs (fun _ => ?_) fun _ x hx => ?_
      · split <;> trivial
      · split at hx <;> simp at hx
  | go h =>
      simp only [next] at hnext
      split at hnext
      · cases hnext
      · next step rest hwork =>
          refine inv_perform hs hwork (fun x hx => hsettled x ?_) hnext
          simp [hwork, hx, Work.wakes]

/-- In a run in which no queue is woken between a look-up and the `do_block`
that follows it, no waiting thread is late. -/
theorem noneLate_of_settled [Fintype Hart]
    (h : ReachableUnder (system process) Settled s) : NoneLate s := by
  have hinv : Inv s := by
    refine h.invariant (P := Inv) ?_ ?_
    · rintro s rfl
      exact ⟨fun _ => trivial, nofun, nofun, nofun, nofun⟩
    · exact fun _ _ _ hs hsettled hnext => inv_next hs hsettled hnext
  rintro x (hwoken | hfinished)
  · exact hinv.queue x hwoken
  · exact hinv.queue x (hinv.finished x hfinished)

instance [Fintype Hart] (s : State Hart Process Thread) : ∀ a, Decidable (Settled s a)
  | .go h => inferInstanceAs
      (Decidable (∀ x ∈ (s.work h).head?.bind Work.wakes, ∀ h', .doBlock x ∉ s.work h'))
  | .sysExec _ _ => isTrue trivial
  | .sysCreateThread _ _ => isTrue trivial
  | .dispatch _ _ => isTrue trivial
  | .yield _ => isTrue trivial
  | .wait _ _ => isTrue trivial
  | .sysExit _ => isTrue trivial
  | .sysKill _ _ => isTrue trivial
  | .sysExitThread _ => isTrue trivial
  | .sysKillThread _ _ => isTrue trivial

theorem neZero_two : @NeZero Nat Zero.ofOfNat0 2 := ⟨by decide⟩

attribute [local instance] neZero_two in
/-- Process 1 starts process 2, and process 3 is there to kill it; thread `t`
belongs to process `t`. -/
def started : List (Action (Fin 2) Nat Nat) :=
  [.sysExec 0 1, .dispatch 0 1, .sysExec 0 2, .sysExec 0 3, .dispatch 1 3]

attribute [local instance] neZero_two in
/-- Process 1 waits, and then process 2 is killed. -/
def awaited : State (Fin 2) Nat Nat :=
  permittedState Settled (next id) booted (started ++
    [.wait 0 (.process 2), .go 0, .sysKill 1 2] ++ List.replicate 16 (.go 1))

theorem awaited_noneLate : awaited.finished (.process 2) = true ∧ awaited.blockCnt 1 = 0 ∧
    NoneLate awaited := by
  have hreachable : ReachableUnder (system id) Settled awaited :=
    permittedState_reachableUnder start_booted _
  exact ⟨by decide +kernel, by decide +kernel, noneLate_of_settled hreachable⟩

attribute [local instance] neZero_two in
/-- The whole `kill` runs between the look-up of process 1 and its
`do_block`. -/
def overtaken : State (Fin 2) Nat Nat :=
  permittedState (fun _ _ => True) (next id) booted (started ++
    [.wait 0 (.process 2), .sysKill 1 2] ++ List.replicate 16 (.go 1) ++ [.go 0])

theorem overtaken_blocked : ¬∀ s : State (Fin 2) Nat Nat, Reachable (system id) s → NoneLate s := by
  intro hall
  have hreach : Reachable (system id) overtaken := permittedState_reachableUnder start_booted _
  have hfinished : overtaken.finished (.process 2) = true := by decide +kernel
  have hqueue : overtaken.queue (.process 2) = [1] := by decide +kernel
  have hempty := hall overtaken hreach (.process 2) (Or.inr hfinished)
  rw [hqueue] at hempty
  cases hempty

end LabKernel.ExitRace
