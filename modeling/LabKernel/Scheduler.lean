import Mathlib.Data.Fin.Basic
import LabKernel.ReadyQueue
import LabKernel.TransitionSystem
import LabKernel.WaitQueue

/-!
The scheduler of `schedule.cpp` on any number of harts, one shared-memory
access at a time.

A hart runs its current thread until that thread blocks, yields or is
interrupted; it then goes through `do_scheduler`, whose assignments are
separate steps of the model, up to the two halves of `switch_context_entry`.
Only the section under `ready_lock` is a single step.

Wake-ups come from other threads, from `check_sleeping` and from interrupts.
The model does not tie them to a hart: a thread that has been pushed on a wait
queue may be woken at any time, also before its own `block`.
-/

namespace LabKernel.Scheduler

open LabKernel.ReadyQueue
open LabKernel.TransitionSystem
open LabKernel.WaitQueue

/-- The idle thread of each hart and the process of each thread. -/
structure Machine (Thread Hart Process : Type*) where
  idle : Hart → Thread
  idle_injective : Function.Injective idle
  process : Thread → Process

/-- How far `do_scheduler` has come after `current_thread` was assigned. -/
inductive Stage
  | installed
  | unplaced
  | placed
  | stopped
  | marked
  | saved
  deriving DecidableEq, Repr

/-- Where a hart is in `do_block`, `condition::wait` or `sleep` and in
`do_scheduler`. -/
inductive Pc (Thread : Type*)
  | outside
  | pushed
  | blocked
  | cleared
  | selected (nextThread : Thread)
  | switching (fromThread nextThread : Thread) (stage : Stage)
  deriving DecidableEq

/-- The hart executes its current thread, or is about to after the switch. -/
def Runs {Thread : Type*} : Pc Thread → Prop
  | .outside | .pushed | .blocked => True
  | .switching _ _ .marked | .switching _ _ .saved => True
  | _ => False

structure State (Thread Hart Process : Type*) where
  readyQueue : List Thread
  blockCnt : Thread → Int
  exited : Thread → Bool
  running : Thread → Bool
  runningCpu : Thread → Option Hart
  currentThread : Hart → Thread
  pc : Hart → Pc Thread
  cpuMask : Process → Hart → Bool
  /-- Entries for the thread in wait queues and in `sleeping_queue`. -/
  waiting : Thread → Nat
  /-- Threads whose counter a `wakeup` has brought to zero. -/
  waking : List Thread
  /-- Those of them that `wakeup` found not to have exited. -/
  appending : List Thread
  created : Thread → Bool
  /-- The registers of the thread are on its kernel stack. -/
  saved : Thread → Bool

inductive Action (Thread Hart Process : Type*)
  | push (h : Hart)
  | block (h : Hart)
  | enter (h : Hart)
  | select (h : Hart)
  | proceed (h : Hart)
  | wake (t : Thread)
  | testExited (t : Thread)
  | append (t : Thread)
  | create (t : Thread)
  | exit (t : Thread)
  | taskSet (p : Process) (mask : Hart → Bool)

variable {Thread Hart Process : Type*} {M : Machine Thread Hart Process}
  {s : State Thread Hart Process} {h : Hart} {t : Thread}

def State.status (s : State Thread Hart Process) (t : Thread) : Status :=
  ReadyQueue.status (s.exited t) (s.blockCnt t) (s.running t)

def State.ready (s : State Thread Hart Process) (t : Thread) : Bool :=
  s.status t = .ready

theorem ready_iff : s.ready t = true ↔
    s.exited t = false ∧ s.blockCnt t = 0 ∧ s.running t = false := by
  unfold State.ready State.status
  rw [decide_eq_true_eq, status_eq_ready]

variable [DecidableEq Thread]

/-- The queue after the outgoing thread of the hart was put back. -/
def requeued (M : Machine Thread Hart Process) (s : State Thread Hart Process) (h : Hart) :
    List Thread :=
  if s.ready (s.currentThread h) ∧ s.currentThread h ≠ M.idle h then
    s.readyQueue ++ [s.currentThread h]
  else
    s.readyQueue

/-- The scan of the hart under `ready_lock`. -/
def selection (M : Machine Thread Hart Process) (s : State Thread Hart Process) (h : Hart) :
    Scan Thread :=
  scan s.ready (fun t => s.cpuMask (M.process t) h) (requeued M s h)

theorem selection_scanned (M : Machine Thread Hart Process) (s : State Thread Hart Process)
    (h : Hart) :
    Scanned s.ready (fun t => s.cpuMask (M.process t) h) (requeued M s h) (selection M s h) :=
  scan_scanned _ _ _

theorem mem_requeued_of_mem (ht : t ∈ s.readyQueue) : t ∈ requeued M s h := by
  unfold requeued
  split
  · exact List.mem_append_left _ ht
  · exact ht

theorem mem_requeued (ht : t ∈ requeued M s h) :
    t ∈ s.readyQueue ∨ (t = s.currentThread h ∧ s.currentThread h ≠ M.idle h) := by
  unfold requeued at ht
  split at ht
  · next hback =>
      rcases List.mem_append.mp ht with hqueue | hself
      · exact Or.inl hqueue
      · exact Or.inr ⟨List.mem_singleton.mp hself, hback.2⟩
  · exact Or.inl ht

variable [DecidableEq Hart]

def State.goto (s : State Thread Hart Process) (h : Hart) (pc : Pc Thread) :
    State Thread Hart Process :=
  { s with pc := Function.update s.pc h pc }

/-- The section of `do_scheduler` under `ready_lock`. -/
def select (M : Machine Thread Hart Process) (s : State Thread Hart Process) (h : Hart) :
    State Thread Hart Process :=
  { s with readyQueue := (selection M s h).queue }.goto h
    (.selected ((selection M s h).next.getD (M.idle h)))

theorem mem_select (ht : t ∈ requeued M s h) (hready : s.ready t = true) :
    t ∈ (select M s h).readyQueue ∨ (select M s h).pc h = .selected t := by
  rcases (selection_scanned M s h).kept t ht hready with hqueue | hnext
  · exact Or.inl hqueue
  · apply Or.inr
    simp [select, State.goto, hnext]

theorem selected_cases {n : Thread} (hpc : (select M s h).pc h = .selected n) :
    ((selection M s h).next = some n ∧ n ∈ requeued M s h ∧ s.ready n = true ∧
      s.cpuMask (M.process n) h = true) ∨ n = M.idle h := by
  have hvalue : (selection M s h).next.getD (M.idle h) = n := by
    simpa [select, State.goto] using hpc
  cases hnext : (selection M s h).next with
  | none =>
      rw [hnext] at hvalue
      exact Or.inr hvalue.symm
  | some u =>
      rw [hnext, Option.getD_some] at hvalue
      subst hvalue
      have hscanned := selection_scanned M s h
      exact Or.inl ⟨rfl, hscanned.next_mem hnext, hscanned.taken _ hnext⟩

/-- The rest of `do_scheduler`, one assignment at a time. -/
def proceed (s : State Thread Hart Process) (h : Hart) : Option (State Thread Hart Process) :=
  match s.pc h with
  | .selected n =>
      some ({ s with currentThread := Function.update s.currentThread h n }.goto h
        (.switching (s.currentThread h) n .installed))
  | .switching f n .installed =>
      some ({ s with runningCpu := Function.update s.runningCpu f none }.goto h
        (.switching f n .unplaced))
  | .switching f n .unplaced =>
      some ({ s with runningCpu := Function.update s.runningCpu n (some h) }.goto h
        (.switching f n .placed))
  | .switching f n .placed =>
      some ({ s with running := Function.update s.running f false }.goto h
        (.switching f n .stopped))
  | .switching f n .stopped =>
      some ({ s with running := Function.update s.running n true }.goto h
        (.switching f n .marked))
  | .switching f n .marked =>
      some ({ s with saved := Function.update s.saved f true }.goto h (.switching f n .saved))
  | .switching _ n .saved =>
      some ({ s with saved := Function.update s.saved n false }.goto h .outside)
  | _ => none

/-- `Thread::wakeup` up to the test of the counter. -/
def wake (s : State Thread Hart Process) (t : Thread) : State Thread Hart Process :=
  { s with
    waiting := Function.update s.waiting t (s.waiting t - 1)
    blockCnt := wakeup s.blockCnt t
    waking := if s.blockCnt t - 1 = 0 then t :: s.waking else s.waking }

/-- The test of `status_exited` in `Thread::wakeup`. -/
def testExited (s : State Thread Hart Process) (t : Thread) : State Thread Hart Process :=
  { s with
    waking := s.waking.erase t
    appending := if s.exited t then s.appending else t :: s.appending }

variable [DecidableEq Process]

/-- One step of the machine.  The idle loop makes no system call, so its
thread is never pushed on a wait queue. -/
def step (M : Machine Thread Hart Process) (s : State Thread Hart Process) :
    Action Thread Hart Process → Option (State Thread Hart Process)
  | .push h =>
      if s.pc h = .outside ∧ s.currentThread h ≠ M.idle h then
        some ({ s with
          waiting := Function.update s.waiting (s.currentThread h)
            (s.waiting (s.currentThread h) + 1) }.goto h .pushed)
      else none
  | .block h =>
      if s.pc h = .pushed then
        some ({ s with blockCnt := block s.blockCnt (s.currentThread h) }.goto h .blocked)
      else none
  | .enter h =>
      if s.pc h = .outside ∨ s.pc h = .blocked then
        some ({ s with running := Function.update s.running (s.currentThread h) false }.goto h
          .cleared)
      else none
  | .select h => if s.pc h = .cleared then some (select M s h) else none
  | .proceed h => proceed s h
  | .wake t => if 0 < s.waiting t then some (wake s t) else none
  | .testExited t => if t ∈ s.waking then some (testExited s t) else none
  | .append t =>
      if t ∈ s.appending then
        some { s with
          appending := s.appending.erase t
          readyQueue := s.readyQueue ++ [t] }
      else none
  | .create t =>
      if s.created t = false then
        some { s with
          created := Function.update s.created t true
          readyQueue := s.readyQueue ++ [t] }
      else none
  | .exit t => some { s with exited := Function.update s.exited t true }
  | .taskSet p mask => some { s with cpuMask := Function.update s.cpuMask p mask }

/-- Every hart runs its idle thread and no other thread exists. -/
structure Start (M : Machine Thread Hart Process) (s : State Thread Hart Process) : Prop where
  readyQueue : s.readyQueue = []
  blockCnt : ∀ t, s.blockCnt t = 0
  running : ∀ t, s.running t = false
  current : ∀ h, s.currentThread h = M.idle h
  pc : ∀ h, s.pc h = .outside
  waiting : ∀ t, s.waiting t = 0
  waking : s.waking = []
  appending : s.appending = []
  created : ∀ t, s.created t = true ↔ ∃ h, M.idle h = t
  saved : ∀ t, s.saved t = true ↔ ∀ h, M.idle h ≠ t

def system (M : Machine Thread Hart Process) :
    System (State Thread Hart Process) (Action Thread Hart Process) :=
  ofFunction (Start M) (step M)

/-- Two harts, whose idle threads are 0 and 1. -/
def twoHarts : Machine Nat (Fin 2) Unit where
  idle h := h.val
  idle_injective := Fin.val_injective
  process _ := ()

def booted : State Nat (Fin 2) Unit where
  readyQueue := []
  blockCnt _ := 0
  exited _ := false
  running _ := false
  runningCpu _ := none
  currentThread h := h.val
  pc _ := .outside
  cpuMask _ _ := true
  waiting _ := 0
  waking := []
  appending := []
  created t := t < 2
  saved t := 2 ≤ t

theorem booted_start : Start twoHarts booted := by
  constructor
  case created =>
    intro t
    constructor
    · intro ht
      exact ⟨⟨t, of_decide_eq_true ht⟩, rfl⟩
    · rintro ⟨h, rfl⟩
      exact decide_eq_true h.isLt
  case saved =>
    intro t
    constructor
    · rintro ht h rfl
      exact absurd (of_decide_eq_true ht) (Nat.not_le.mpr h.isLt)
    · intro ht
      apply decide_eq_true
      by_contra hlt
      exact ht ⟨t, Nat.not_le.mp hlt⟩ rfl
  all_goals first | rfl | exact fun _ => rfl

/-- The state after the given actions. -/
def after (actions : List (Action Nat (Fin 2) Unit)) : State Nat (Fin 2) Unit :=
  (replay (step twoHarts) booted actions).getD booted

theorem after_reachable (actions : List (Action Nat (Fin 2) Unit)) :
    Reachable (system twoHarts) (after actions) := by
  have hstart : Reachable (system twoHarts) booted := ReachableUnder.start booted_start
  unfold after
  cases hreplay : replay (step twoHarts) booted actions with
  | none => exact hstart
  | some s => exact reachable_of_replay hstart actions hreplay

end LabKernel.Scheduler
