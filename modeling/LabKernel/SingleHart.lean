import Mathlib.Algebra.Group.Nat.Defs
import Mathlib.Data.List.Sort
import LabKernel.ReadyQueue
import LabKernel.TransitionSystem
import LabKernel.WaitQueue

/-!
Scheduling on a single hart, where every system call and every trap runs up to
its context switch without being interrupted (`schedule.cpp`, `thread.cpp`).

Three places append to the ready queue: `Thread::wakeup`, the scheduler for the
thread it leaves, and the creation of a thread.  A thread that sleeps calls
`check_sleeping` itself on its way into the scheduler.  If its time has passed
by then, it is first appended as a sleeper whose time is over and then put back
as a thread that is still ready.
-/

set_option linter.unusedSectionVars false

namespace LabKernel.SingleHart

open LabKernel.ReadyQueue
open LabKernel.TransitionSystem
open LabKernel.WaitQueue

/-- The idle thread and the process of each thread. -/
structure Machine (Thread Process : Type*) where
  idle : Thread
  process : Thread → Process

structure State (Thread Queue Process : Type*) where
  readyQueue : List Thread
  /-- Ordered by wake-up time and address, the top of the priority queue first. -/
  sleepingQueue : List (Nat × Thread)
  waitQueue : Queue → List Thread
  blockCnt : Thread → Int
  exited : Thread → Bool
  running : Thread → Bool
  created : Thread → Bool
  currentThread : Thread
  cpuMask : Process → Bool
  /-- The last value that `get_timer` returned. -/
  clock : Nat

inductive Action (Thread Queue Process : Type*)
  | yield (now : Nat)
  | timer (now : Nat)
  | sleep (time now₁ now₂ : Nat)
  | doBlock (q : Queue) (now : Nat)
  | conditionWait (q : Queue) (mutexQueue : Option Queue) (now : Nat)
  | wakeupOne (q : Queue)
  | create (t : Thread)
  | exit (t : Thread) (queues : List Queue) (now : Nat)
  | taskSet (p : Process) (mask : Bool)

variable {Thread Queue Process : Type*} [LinearOrder Thread] [DecidableEq Queue]
  [DecidableEq Process]

def State.ready (s : State Thread Queue Process) (t : Thread) : Bool :=
  status (s.exited t) (s.blockCnt t) (s.running t) = .ready

/-- `Thread::wakeup`. -/
def wakeup (s : State Thread Queue Process) (t : Thread) : State Thread Queue Process :=
  { s with
    blockCnt := WaitQueue.wakeup s.blockCnt t
    readyQueue :=
      if s.blockCnt t - 1 = 0 ∧ s.exited t = false then s.readyQueue ++ [t] else s.readyQueue }

/-- `Thread::block` of the current thread. -/
def block (s : State Thread Queue Process) : State Thread Queue Process :=
  { s with blockCnt := WaitQueue.block s.blockCnt s.currentThread }

/-- `WaitQueue::push` of the current thread. -/
def push (s : State Thread Queue Process) (q : Queue) : State Thread Queue Process :=
  { s with waitQueue := Function.update s.waitQueue q (s.waitQueue q ++ [s.currentThread]) }

/-- `WaitQueue::wakeup_one`. -/
def wakeupOne (s : State Thread Queue Process) (q : Queue) : State Thread Queue Process :=
  match s.waitQueue q with
  | [] => s
  | t :: rest => wakeup { s with waitQueue := Function.update s.waitQueue q rest } t

/-- `WaitQueue::wakeup_all`, with as many rounds as the queue has entries. -/
def wakeupAll (s : State Thread Queue Process) (q : Queue) : State Thread Queue Process :=
  (fun s => wakeupOne s q)^[(s.waitQueue q).length] s

/-- The loop of `check_sleeping` over the sleepers. -/
def wakeSleepers (now : Nat) :
    List (Nat × Thread) → State Thread Queue Process → State Thread Queue Process
  | [], s => s
  | (time, t) :: rest, s =>
      if time < now then wakeSleepers now rest (wakeup { s with sleepingQueue := rest } t) else s

/-- `check_sleeping`, where `get_timer` returns `now`. -/
def checkSleeping (s : State Thread Queue Process) (now : Nat) : State Thread Queue Process :=
  wakeSleepers now s.sleepingQueue { s with clock := now }

/-- The queue after the outgoing thread was put back. -/
def requeued (M : Machine Thread Process) (s : State Thread Queue Process) : List Thread :=
  if s.ready s.currentThread ∧ s.currentThread ≠ M.idle then
    s.readyQueue ++ [s.currentThread]
  else
    s.readyQueue

/-- The part of `do_scheduler` from `ready_lock` on. -/
def switchThread (M : Machine Thread Process) (s : State Thread Queue Process) :
    State Thread Queue Process :=
  let result := scan s.ready (fun t => s.cpuMask (M.process t)) (requeued M s)
  let next := result.next.getD M.idle
  { s with
    readyQueue := result.queue
    currentThread := next
    running := Function.update (Function.update s.running s.currentThread false) next true }

/-- `do_scheduler`. -/
def doScheduler (M : Machine Thread Process) (s : State Thread Queue Process) (now : Nat) :
    State Thread Queue Process :=
  switchThread M
    (checkSleeping { s with running := Function.update s.running s.currentThread false } now)

/-- `do_block`. -/
def doBlock (M : Machine Thread Process) (s : State Thread Queue Process) (q : Queue)
    (now : Nat) : State Thread Queue Process :=
  doScheduler M (block (push s q)) now

/-- The part of `condition::wait` before the mutex is acquired again.  Releasing
the mutex wakes a thread of its queue unless another process owns it. -/
def conditionWait (M : Machine Thread Process) (s : State Thread Queue Process) (q : Queue)
    (mutexQueue : Option Queue) (now : Nat) : State Thread Queue Process :=
  let pushed := push s q
  let released := match mutexQueue with
    | none => pushed
    | some q' => wakeupOne pushed q'
  doScheduler M (block released) now

/-- Wake-up times are 64-bit values. -/
def wakeupTime (now time : Nat) : Nat := (now + time) % 2 ^ 64

/-- The order of `std::greater<SleepItem>`, smallest item on top. -/
def Before (a b : Nat × Thread) : Prop := a.1 < b.1 ∨ a.1 = b.1 ∧ a.2 ≤ b.2

instance : DecidableRel (Before : Nat × Thread → Nat × Thread → Prop) := fun a b =>
  inferInstanceAs (Decidable (a.1 < b.1 ∨ a.1 = b.1 ∧ a.2 ≤ b.2))

/-- Push of the current thread on `sleeping_queue`. -/
def pushSleeper (s : State Thread Queue Process) (time : Nat) : State Thread Queue Process :=
  { s with sleepingQueue := s.sleepingQueue.orderedInsert Before (time, s.currentThread) }

/-- `Syscall::sleep`; `get_timer` returns `now₁` here and `now₂` in
`check_sleeping`. -/
def sleep (M : Machine Thread Process) (s : State Thread Queue Process) (time now₁ now₂ : Nat) :
    State Thread Queue Process :=
  doScheduler M (block (pushSleeper s (wakeupTime now₁ time))) now₂

/-- `Thread::exit`, with the queues whose threads are waiting for it. -/
def exit (M : Machine Thread Process) (s : State Thread Queue Process) (t : Thread)
    (queues : List Queue) (now : Nat) : State Thread Queue Process :=
  let woken := queues.foldl wakeupAll { s with exited := Function.update s.exited t true }
  if t = s.currentThread then doScheduler M woken now else woken

/-- One system call or trap.  The clock never goes back, and the idle loop
makes no system call. -/
def step (M : Machine Thread Process) (s : State Thread Queue Process) :
    Action Thread Queue Process → Option (State Thread Queue Process)
  | .yield now | .timer now => if s.clock ≤ now then some (doScheduler M s now) else none
  | .sleep time now₁ now₂ =>
      if s.clock ≤ now₁ ∧ now₁ ≤ now₂ ∧ s.currentThread ≠ M.idle then
        some (sleep M s time now₁ now₂)
      else none
  | .doBlock q now =>
      if s.clock ≤ now ∧ s.currentThread ≠ M.idle then some (doBlock M s q now) else none
  | .conditionWait q mutexQueue now =>
      if s.clock ≤ now ∧ s.currentThread ≠ M.idle ∧ mutexQueue ≠ some q then
        some (conditionWait M s q mutexQueue now)
      else none
  | .wakeupOne q => some (wakeupOne s q)
  | .create t =>
      if s.created t = false then
        some { s with
          created := Function.update s.created t true
          readyQueue := s.readyQueue ++ [t] }
      else none
  | .exit t queues now => if s.clock ≤ now then some (exit M s t queues now) else none
  | .taskSet p mask => some { s with cpuMask := Function.update s.cpuMask p mask }

/-- Only the idle thread exists, and it runs. -/
structure Start (M : Machine Thread Process) (s : State Thread Queue Process) : Prop where
  readyQueue : s.readyQueue = []
  sleepingQueue : s.sleepingQueue = []
  waitQueue : ∀ q, s.waitQueue q = []
  blockCnt : ∀ t, s.blockCnt t = 0
  created : ∀ t, s.created t = true ↔ t = M.idle
  current : s.currentThread = M.idle

def system (M : Machine Thread Process) :
    System (State Thread Queue Process) (Action Thread Queue Process) :=
  ofFunction (Start M) (step M)

/-- A sleeping thread does not find its wake-up time passed when it calls
`check_sleeping` itself. -/
def NotOverdue : Action Thread Queue Process → Prop
  | .sleep time now₁ now₂ => now₂ ≤ wakeupTime now₁ time
  | _ => True

/-- No thread is twice in the ready queue, and the idle thread is not in it. -/
def Duplicatefree (M : Machine Thread Process) (s : State Thread Queue Process) : Prop :=
  s.readyQueue.Nodup ∧ M.idle ∉ s.readyQueue

end LabKernel.SingleHart
