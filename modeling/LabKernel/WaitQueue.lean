import Mathlib.Logic.Function.Basic
import Mathlib.Data.List.Nodup
import Mathlib.Data.Int.Notation

/-!
Wait queues (`container.hpp`, `container.cpp`) together with the counter
`status_block_cnt` by which `Thread::block` and `Thread::wakeup` take a thread
off the processor and give it back.  A thread that has called `do_scheduler`
after `do_block` is eligible to run again exactly when its counter is zero.
-/

namespace LabKernel.WaitQueue

variable {Thread : Type*} [DecidableEq Thread]

/-- `Thread::block`. -/
def block (blockCnt : Thread → Int) (t : Thread) : Thread → Int :=
  Function.update blockCnt t (blockCnt t + 1)

/-- The counter part of `Thread::wakeup`. -/
def wakeup (blockCnt : Thread → Int) (t : Thread) : Thread → Int :=
  Function.update blockCnt t (blockCnt t - 1)

/-- What `WaitQueue::wakeup_one` returns and leaves behind. -/
structure Woken (Thread : Type*) where
  thread : Option Thread
  que : List Thread
  blockCnt : Thread → Int

/-- `WaitQueue::wakeup_one`. -/
def wakeupOne (que : List Thread) (blockCnt : Thread → Int) : Woken Thread :=
  match que with
  | [] => ⟨none, [], blockCnt⟩
  | t :: rest => ⟨some t, rest, wakeup blockCnt t⟩

/-- `WaitQueue::wakeup_all`: the threads woken, each with the counter it is
left with, and all counters afterwards. -/
def wakeupAll : List Thread → (Thread → Int) → List (Thread × Int) × (Thread → Int)
  | [], blockCnt => ([], blockCnt)
  | t :: rest, blockCnt =>
      let r := wakeupAll rest (wakeup blockCnt t)
      ((t, wakeup blockCnt t t) :: r.1, r.2)

@[simp]
theorem block_same (blockCnt : Thread → Int) (t : Thread) :
    block blockCnt t t = blockCnt t + 1 := by
  simp [block]

@[simp]
theorem wakeup_same (blockCnt : Thread → Int) (t : Thread) :
    wakeup blockCnt t t = blockCnt t - 1 := by
  simp [wakeup]

theorem block_of_ne {blockCnt : Thread → Int} {t u : Thread} (h : u ≠ t) :
    block blockCnt t u = blockCnt u := by
  simp [block, h]

theorem wakeup_of_ne {blockCnt : Thread → Int} {t u : Thread} (h : u ≠ t) :
    wakeup blockCnt t u = blockCnt u := by
  simp [wakeup, h]

theorem wakeupAll_of_nodup {que : List Thread} (hnodup : que.Nodup) (blockCnt : Thread → Int) :
    (wakeupAll que blockCnt).1 = que.map (fun t => (t, blockCnt t - 1)) ∧
      (∀ t ∈ que, (wakeupAll que blockCnt).2 t = blockCnt t - 1) ∧
      ∀ t, t ∉ que → (wakeupAll que blockCnt).2 t = blockCnt t := by
  induction que generalizing blockCnt with
  | nil => simp [wakeupAll]
  | cons t rest ih =>
      obtain ⟨hfresh, hnodup⟩ := List.nodup_cons.mp hnodup
      obtain ⟨hlog, hin, hout⟩ := ih hnodup (wakeup blockCnt t)
      have hother : ∀ u ∈ rest, wakeup blockCnt t u = blockCnt u := by
        intro u hu
        refine wakeup_of_ne ?_
        rintro rfl
        exact hfresh hu
      refine ⟨?_, ?_, ?_⟩
      · simp only [wakeupAll, hlog, wakeup_same, List.map_cons, List.cons.injEq, true_and]
        exact List.map_congr_left fun u hu => by rw [hother u hu]
      · intro u hu
        rcases List.mem_cons.mp hu with rfl | hu
        · simp only [wakeupAll]
          rw [hout u hfresh, wakeup_same]
        · simp only [wakeupAll]
          rw [hin u hu, hother u hu]
      · intro u hu
        rw [List.mem_cons, not_or] at hu
        simp only [wakeupAll]
        rw [hout u hu.2, wakeup_of_ne hu.1]

end LabKernel.WaitQueue
