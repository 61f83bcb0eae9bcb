import Mathlib.Algebra.Group.Nat.Defs
import Mathlib.Data.List.Nodup
import Mathlib.Logic.Function.Basic
import Mathlib.Data.Int.Notation
import LabKernel.TransitionSystem

/-!
Creation and termination of processes and threads on one hart (`process.cpp`,
`thread.cpp`).

`Process::kill` and `Thread::exit` call each other, and `Thread::exit` of the
current thread enters the scheduler, which never comes back to an exited
thread.  A call therefore either returns, or leaves its caller for good, or
spins on a lock that is never released.
-/

namespace LabKernel.ProcessLife

open LabKernel.TransitionSystem

structure State (Thread Process Obj : Type*) where
  process : Thread → Process
  exited : Thread → Bool
  blockCnt : Thread → Int
  readyQueue : List Thread
  waitExitedQueue : Thread → List Thread
  currentThread : Thread
  threads : Process → List Thread
  isKilled : Process → Bool
  activeThreadCnt : Process → Nat
  processOwnLock : Process → Bool
  parent : Process → Option Process
  children : Process → List Process
  waitKillQueue : Process → List Thread
  kernelObjects : Process → List Obj
  processToRelease : List Process
  /-- The calls of `on_process_unregister` made by `Process::kill`. -/
  unregistered : List (Process × Obj)
  threadCreated : Thread → Bool
  processCreated : Process → Bool

/-- How a piece of kernel code ends. -/
inductive Outcome (σ : Type*)
  | returned (s : σ)
  /-- The scheduler was entered by an exited thread. -/
  | left (s : σ)
  /-- The code waits for a lock that is not released. -/
  | stuck

def Outcome.andThen {σ : Type*} : Outcome σ → (σ → Outcome σ) → Outcome σ
  | .returned s, f => f s
  | .left s, _ => .left s
  | .stuck, _ => .stuck

/-- A loop whose body may not come back. -/
def Outcome.forEach {σ α : Type*} (f : σ → α → Outcome σ) : List α → σ → Outcome σ
  | [], s => .returned s
  | a :: rest, s => (f s a).andThen (Outcome.forEach f rest)

/-- The state when control returns or leaves. -/
def Outcome.state {σ : Type*} : Outcome σ → Option σ
  | .returned s | .left s => some s
  | .stuck => none

variable {Thread Process Obj : Type*} [DecidableEq Thread] [DecidableEq Process]
  [DecidableEq Obj]

/-- `Thread::wakeup`. -/
def wakeup (s : State Thread Process Obj) (t : Thread) : State Thread Process Obj :=
  { s with
    blockCnt := Function.update s.blockCnt t (s.blockCnt t - 1)
    readyQueue :=
      if s.blockCnt t - 1 = 0 ∧ s.exited t = false then s.readyQueue ++ [t] else s.readyQueue }

/-- `WaitQueue::wakeup_all` on the threads of a queue. -/
def wakeupAll (s : State Thread Process Obj) (que : List Thread) : State Thread Process Obj :=
  que.foldl wakeup s

/-- The part of `Thread::exit` before the process is told: the flag, the
waiting threads, and `--active_thread_cnt` on a 64-bit counter. -/
def markExited (s : State Thread Process Obj) (t : Thread) : State Thread Process Obj :=
  let woken := wakeupAll { s with
    exited := Function.update s.exited t true
    waitExitedQueue := Function.update s.waitExitedQueue t [] } (s.waitExitedQueue t)
  { woken with
    activeThreadCnt := Function.update s.activeThreadCnt (s.process t)
      (if s.activeThreadCnt (s.process t) = 0 then 2 ^ 64 - 1
        else s.activeThreadCnt (s.process t) - 1) }

/-- The part of `Process::kill` before the threads exit. -/
def markKilled (s : State Thread Process Obj) (p : Process) : State Thread Process Obj :=
  wakeupAll { s with
    processOwnLock := Function.update s.processOwnLock p true
    isKilled := Function.update s.isKilled p true
    waitKillQueue := Function.update s.waitKillQueue p [] } (s.waitKillQueue p)

/-- One round of the loop of `Process::kill` over its children. -/
def reparent (q : Process) (s : State Thread Process Obj) (child : Process) :
    State Thread Process Obj :=
  if s.isKilled child then s
  else { s with
    parent := Function.update s.parent child (some q)
    children := Function.update s.children q (s.children q ++ [child]) }

def reparentAll (s : State Thread Process Obj) (p : Process) : State Thread Process Obj :=
  match s.parent p with
  | none => s
  | some q => (s.children p).foldl (reparent q) s

/-- The part of `Process::kill` after the threads have exited.  No thread of
the process is running then, so no interrupt is sent. -/
def finishKill (s : State Thread Process Obj) (p : Process) : State Thread Process Obj :=
  let orphaned := reparentAll { s with
    processOwnLock := Function.update s.processOwnLock p false
    unregistered := s.unregistered ++ (s.kernelObjects p).map (p, ·) } p
  { orphaned with processToRelease := orphaned.processToRelease ++ [p] }

mutual

/-- `Process::kill`; the first argument bounds the depth of the calls. -/
def kill : Nat → State Thread Process Obj → Process → Outcome (State Thread Process Obj)
  | 0, _, _ => .stuck
  | depth + 1, s, p =>
      if s.isKilled p then .returned s
      else if s.processOwnLock p then .stuck
      else
        (Outcome.forEach (fun s t => exit depth s t) (s.threads p) (markKilled s p)).andThen
          fun s => .returned (finishKill s p)

/-- `Thread::exit`. -/
def exit : Nat → State Thread Process Obj → Thread → Outcome (State Thread Process Obj)
  | 0, _, _ => .stuck
  | depth + 1, s, t =>
      if s.exited t then .returned s
      else
        (if (markExited s t).activeThreadCnt (s.process t) = 0 then
          kill depth (markExited s t) (s.process t)
        else .returned (markExited s t)).andThen fun s =>
          if t = s.currentThread then .left s else .returned s

end

/-- `exit` calls `kill` at most once and `kill` calls `exit`, whose own call of
`kill` returns at once. -/
def callDepth : Nat := 4

inductive Call (Thread Process : Type*)
  | sysExit
  | sysKill (p : Process)
  | sysExitThread
  | sysKillThread (t : Thread)

/-- `do_scheduler` as seen by its caller; what other threads do before it
returns are steps of their own. -/
def doScheduler (s : State Thread Process Obj) : Outcome (State Thread Process Obj) :=
  if s.exited s.currentThread then .left s else .returned s

/-- `Syscall::sys_exit`, `sys_kill`, `sys_exit_thread` and `sys_kill_thread`. -/
def perform (s : State Thread Process Obj) :
    Call Thread Process → Outcome (State Thread Process Obj)
  | .sysExit => (kill callDepth s (s.process s.currentThread)).andThen doScheduler
  | .sysKill p =>
      if s.isKilled p then .returned s
      else (kill callDepth s p).andThen fun s =>
        if p = s.process s.currentThread then doScheduler s else .returned s
  | .sysExitThread => exit callDepth s s.currentThread
  | .sysKillThread t => if s.exited t then .returned s else exit callDepth s t

inductive Action (Thread Process Obj : Type*)
  | call (c : Call Thread Process)
  | exec (p : Process) (t : Thread)
  | createThread (t : Thread)
  | register (o : Obj)
  | unregister (o : Obj)
  | schedule (t : Thread)

/-- `Process::create_thread`. -/
def createThread (s : State Thread Process Obj) (p : Process) (t : Thread) :
    State Thread Process Obj :=
  { s with
    process := Function.update s.process t p
    exited := Function.update s.exited t false
    blockCnt := Function.update s.blockCnt t 0
    waitExitedQueue := Function.update s.waitExitedQueue t []
    threadCreated := Function.update s.threadCreated t true
    activeThreadCnt := Function.update s.activeThreadCnt p (s.activeThreadCnt p + 1)
    threads := Function.update s.threads p (s.threads p ++ [t]) }

/-- `Process::Process` with the given parent. -/
def createProcess (s : State Thread Process Obj) (parent p : Process) :
    State Thread Process Obj :=
  { s with
    processCreated := Function.update s.processCreated p true
    parent := Function.update s.parent p (some parent)
    children := Function.update (Function.update s.children p []) parent
      (s.children parent ++ [p])
    threads := Function.update s.threads p []
    activeThreadCnt := Function.update s.activeThreadCnt p 0
    isKilled := Function.update s.isKilled p false
    processOwnLock := Function.update s.processOwnLock p false
    waitKillQueue := Function.update s.waitKillQueue p []
    kernelObjects := Function.update s.kernelObjects p [] }

/-- `add_ready_thread`. -/
def addReady (s : State Thread Process Obj) (t : Thread) : State Thread Process Obj :=
  { s with readyQueue := s.readyQueue ++ [t] }

/-- The calls a running thread makes, and the scheduler.  A thread that has
exited makes no call, and the scheduler runs an exited thread only as idle
thread of the hart. -/
inductive Step (idle : Thread) :
    State Thread Process Obj → Action Thread Process Obj → State Thread Process Obj → Prop
  | call {s s' : State Thread Process Obj} {c : Call Thread Process}
      (running : s.exited s.currentThread = false)
      (target : ∀ p, c = .sysKill p → s.processCreated p = true)
      (victim : ∀ t, c = .sysKillThread t → s.threadCreated t = true)
      (ends : (perform s c).state = some s') : Step idle s (.call c) s'
  | exec {s : State Thread Process Obj} {p : Process} {t : Thread}
      (running : s.exited s.currentThread = false)
      (free : s.processOwnLock (s.process s.currentThread) = false)
      (newProcess : s.processCreated p = false) (newThread : s.threadCreated t = false) :
      Step idle s (.exec p t)
        (addReady (createThread (createProcess s (s.process s.currentThread) p) p t) t)
  | createThread {s : State Thread Process Obj} {t : Thread}
      (running : s.exited s.currentThread = false)
      (free : s.processOwnLock (s.process s.currentThread) = false)
      (newThread : s.threadCreated t = false) :
      Step idle s (.createThread t) (addReady (createThread s (s.process s.currentThread) t) t)
  | register {s : State Thread Process Obj} {o : Obj}
      (new : o ∉ s.kernelObjects (s.process s.currentThread)) :
      Step idle s (.register o) { s with
        kernelObjects := Function.update s.kernelObjects (s.process s.currentThread)
          (s.kernelObjects (s.process s.currentThread) ++ [o]) }
  | unregister {s : State Thread Process Obj} {o : Obj} :
      Step idle s (.unregister o) { s with
        kernelObjects := Function.update s.kernelObjects (s.process s.currentThread)
          ((s.kernelObjects (s.process s.currentThread)).erase o) }
  | schedule {s : State Thread Process Obj} {t : Thread} (created : s.threadCreated t = true)
      (ready : t = idle ∨ s.exited t = false) :
      Step idle s (.schedule t) { s with currentThread := t }

/-- Only the idle process with the idle thread exists. -/
structure Start (idle : Thread) (s : State Thread Process Obj) : Prop where
  thread : ∀ t, s.threadCreated t = true ↔ t = idle
  process : ∀ p, s.processCreated p = true ↔ p = s.process idle
  threads : ∀ p, s.threads p = if p = s.process idle then [idle] else []
  exited : s.exited idle = false
  active : ∀ p, s.activeThreadCnt p = if p = s.process idle then 1 else 0
  lock : ∀ p, s.processOwnLock p = false
  killed : ∀ p, s.isKilled p = false
  parent : ∀ p, s.parent p = none
  children : ∀ p, s.children p = []
  objects : ∀ p, s.kernelObjects p = []
  unregistered : s.unregistered = []
  current : s.currentThread = idle

def system (idle : Thread) : System (State Thread Process Obj) (Action Thread Process Obj) where
  start := Start idle
  step := Step idle

/-- The call terminates the process, which has not been killed before, by its
running thread, by another process, or by the exit of its last thread. -/
structure Terminates (s : State Thread Process Obj) (c : Call Thread Process) (p : Process) :
    Prop where
  running : s.exited s.currentThread = false
  alive : s.isKilled p = false
  target : match c with
    | .sysExit => p = s.process s.currentThread
    | .sysKill q => q = p ∧ s.processCreated p = true
    | .sysExitThread => p = s.process s.currentThread ∧ s.activeThreadCnt p = 1
    | .sysKillThread t => s.threadCreated t = true ∧ s.process t = p ∧ s.exited t = false ∧
        s.activeThreadCnt p = 1

/-- The process has been taken down completely. -/
structure Complete (s s' : State Thread Process Obj) (p : Process) : Prop where
  killed : s'.isKilled p = true
  exited : ∀ t ∈ s'.threads p, s'.exited t = true
  active : s'.activeThreadCnt p = 0
  unregistered : ∀ o ∈ s.kernelObjects p,
    s'.unregistered.count (p, o) = s.unregistered.count (p, o) + 1
  reparented : ∀ c, s.parent c = some p → s.isKilled c = false → s'.parent c = s.parent p
  queued : p ∈ s'.processToRelease
  lock : s'.processOwnLock p = false

/-- The call kills the process of its own caller, before the caller exits. -/
def KillsCaller (s : State Thread Process Obj) : Call Thread Process → Prop
  | .sysExit => True
  | .sysKill p => p = s.process s.currentThread
  | .sysExitThread | .sysKillThread _ => False

end LabKernel.ProcessLife
