import Mathlib.Tactic.Ring
import LabKernel.TransitionSystem
import LabKernel.WaitQueue

/-!
The kernel barrier (`barrier` in `locks.cpp`) as a step relation.

The part of `wait` that runs with the barrier's lock held is one step; the
thread returns from the call in a later step, at any time once its block
counter is zero.  The calls are numbered in the order in which they take the
lock.
-/

namespace LabKernel.Barrier

open LabKernel.TransitionSystem
open LabKernel.WaitQueue

variable {Thread : Type*} [DecidableEq Thread]

/-- Where a thread is with respect to the barrier; a call is known by its
number. -/
inductive Pc where
  | outside
  /-- In `wait`: inside the `do_scheduler` call made by `do_block`. -/
  | inScheduler (call : Nat)
  /-- In `wait` as the last of its generation: after `lock.unlock()`. -/
  | afterUnlock (call : Nat)
  deriving DecidableEq, Repr

/-- The barrier, the block counters of the threads, and their positions.
`arrived` lists the caller of each call, `woken` the threads each call woke
with the counters this left them, and `returned` the calls that are over. -/
structure State (Thread : Type*) where
  goal : UInt64
  count : UInt64
  waitQueue : List Thread
  blockCnt : Thread → Int
  pc : Thread → Pc
  arrived : List Thread
  woken : List (List (Thread × Int))
  returned : List Nat

/-- A newly constructed barrier, before which the threads may be anywhere. -/
def State.initial (goal : UInt64) (blockCnt : Thread → Int) : State Thread where
  goal := goal
  count := 0
  waitQueue := []
  blockCnt := blockCnt
  pc := fun _ => .outside
  arrived := []
  woken := []
  returned := []

inductive Action (Thread : Type*) where
  | wait (t : Thread)
  | ret (t : Thread)
  /-- A thread outside the barrier sleeps or is woken for another reason. -/
  | elsewhere (t : Thread) (cnt : Int)
  deriving DecidableEq

/-- `barrier::wait` from `lock.lock()` to the release of the lock. -/
def waitSection (s : State Thread) (t : Thread) : State Thread :=
  let call := s.arrived.length
  let s := { s with count := s.count + 1, arrived := s.arrived ++ [t] }
  if s.count < s.goal then
    { s with
      waitQueue := s.waitQueue ++ [t]
      blockCnt := block s.blockCnt t
      pc := Function.update s.pc t (.inScheduler call)
      woken := s.woken ++ [[]] }
  else
    let woken := wakeupAll s.waitQueue s.blockCnt
    { s with
      count := 0
      waitQueue := []
      blockCnt := woken.2
      pc := Function.update s.pc t (.afterUnlock call)
      woken := s.woken ++ [woken.1] }

def leave (s : State Thread) (t : Thread) (call : Nat) : State Thread :=
  { s with
    pc := Function.update s.pc t .outside
    returned := s.returned ++ [call] }

/-- One step; a thread calls `wait` while it runs and after its previous call
returned. -/
def next (s : State Thread) : Action Thread → Option (State Thread)
  | .wait t =>
      if s.pc t = .outside ∧ s.blockCnt t = 0 then some (waitSection s t) else none
  | .ret t =>
      match s.pc t with
      | .outside => none
      | .inScheduler call => if s.blockCnt t = 0 then some (leave s t call) else none
      | .afterUnlock call => some (leave s t call)
  | .elsewhere t cnt =>
      if s.pc t = .outside then
        some { s with blockCnt := Function.update s.blockCnt t cnt }
      else none

/-- All runs of any set of threads on a barrier with the given goal. -/
def system (goal : UInt64) : System (State Thread) (Action Thread) :=
  ofFunction (fun s => ∃ blockCnt, s = State.initial goal blockCnt) next

/-- The threads that made the calls of a generation before its last call. -/
def earlier (goal : Nat) (arrived : List Thread) (generation : Nat) : List Thread :=
  (arrived.drop (generation * goal)).take (goal - 1)

/-- Call `i` belongs to generation `i / goal`.  A generation is complete once
`goal` calls of it have arrived; its last call wakes all the earlier ones, whose
threads are distinct and were blocked by their call alone, and no other call
wakes anybody. -/
structure Generations (goal : Nat) (s : State Thread) : Prop where
  count_eq : s.count.toNat = s.waitQueue.length
  count_lt : s.count.toNat < goal
  returned : ∀ i ∈ s.returned, (i / goal + 1) * goal ≤ s.arrived.length
  returned_once : s.returned.Nodup
  woken_length : s.woken.length = s.arrived.length
  woken_last : ∀ g, (g + 1) * goal ≤ s.arrived.length →
    s.woken[g * goal + (goal - 1)]? = some ((earlier goal s.arrived g).map fun t => (t, 0))
  earlier_length : ∀ g, (g + 1) * goal ≤ s.arrived.length →
    (earlier goal s.arrived g).length = goal - 1
  earlier_nodup : ∀ g, (g + 1) * goal ≤ s.arrived.length → (earlier goal s.arrived g).Nodup
  woken_other : ∀ i < s.arrived.length, (i + 1) % goal ≠ 0 → s.woken[i]? = some []
  blocked : ∀ t call, s.pc t = .inScheduler call →
    s.arrived[call]? = some t ∧
      (if (call / goal + 1) * goal ≤ s.arrived.length then s.blockCnt t = 0
        else s.blockCnt t = 1 ∧ t ∈ s.waitQueue)

omit [DecidableEq Thread] in
theorem earlier_append {goal g : Nat} {arrived : List Thread} (rest : List Thread)
    (h : g * goal + (goal - 1) ≤ arrived.length) :
    earlier goal (arrived ++ rest) g = earlier goal arrived g := by
  unfold earlier
  rw [List.drop_append_of_le_length (by omega), List.take_append_of_le_length]
  rw [List.length_drop]
  omega

/-- What the calls so far have woken, when `done` generations are complete. -/
structure Log (goal done : Nat) (arrived : List Thread) (woken : List (List (Thread × Int))) :
    Prop where
  length_eq : woken.length = arrived.length
  last : ∀ g < done, woken[g * goal + (goal - 1)]? =
    some ((earlier goal arrived g).map fun t => (t, 0))
  earlier_nodup : ∀ g < done, (earlier goal arrived g).Nodup
  other : ∀ i < arrived.length, (i + 1) % goal ≠ 0 → woken[i]? = some []

theorem mul_succ_le {g done : Nat} (goal : Nat) (h : g < done) : g * goal + goal ≤ done * goal := by
  have := Nat.mul_le_mul_right goal (Nat.succ_le_of_lt h)
  rwa [Nat.succ_mul] at this

section Log

variable {goal done count : Nat} {arrived : List Thread} {woken : List (List (Thread × Int))}
  {t : Thread}

omit [DecidableEq Thread] in
theorem Log.snoc_early (h : Log goal done arrived woken) (hcount : count + 1 < goal)
    (hlength : arrived.length = done * goal + count) :
    Log goal done (arrived ++ [t]) (woken ++ [[]]) := by
  constructor
  · simp [h.length_eq]
  · intro g hg
    have hle := mul_succ_le goal hg
    rw [getElem?_snoc_of_ne (by rw [h.length_eq]; omega), earlier_append _ (by omega)]
    exact h.last g hg
  · intro g hg
    have hle := mul_succ_le goal hg
    rw [earlier_append _ (by omega)]
    exact h.earlier_nodup g hg
  · intro i hi hmod
    rcases eq_or_ne i arrived.length with rfl | hne
    · rw [← h.length_eq, List.getElem?_concat_length]
    · rw [getElem?_snoc_of_ne (h.length_eq ▸ hne)]
      rw [List.length_append, List.length_singleton] at hi
      exact h.other i (by omega) hmod

omit [DecidableEq Thread] in
theorem Log.snoc_last (h : Log goal done arrived woken) (hcount : count + 1 = goal)
    (hlength : arrived.length = done * goal + count)
    (hnodup : (arrived.drop (done * goal)).Nodup) :
    Log goal (done + 1) (arrived ++ [t])
      (woken ++ [(arrived.drop (done * goal)).map fun u => (u, 0)]) := by
  have hnew : earlier goal (arrived ++ [t]) done = arrived.drop (done * goal) := by
    rw [earlier_append _ (by omega), earlier, List.take_of_length_le]
    rw [List.length_drop]
    omega
  constructor
  · simp [h.length_eq]
  · intro g hg
    rcases Nat.lt_succ_iff_lt_or_eq.mp hg with hg | rfl
    · have hle := mul_succ_le goal hg
      rw [getElem?_snoc_of_ne (by rw [h.length_eq]; omega), earlier_append _ (by omega)]
      exact h.last g hg
    · have hindex : g * goal + (goal - 1) = woken.length := by
        rw [h.length_eq]
        omega
      rw [hnew, hindex, List.getElem?_concat_length]
  · intro g hg
    rcases Nat.lt_succ_iff_lt_or_eq.mp hg with hg | rfl
    · have hle := mul_succ_le goal hg
      rw [earlier_append _ (by omega)]
      exact h.earlier_nodup g hg
    · rw [hnew]
      exact hnodup
  · intro i hi hmod
    rcases eq_or_ne i arrived.length with rfl | hne
    · have hmul : arrived.length + 1 = (done + 1) * goal := by
        rw [Nat.succ_mul]
        omega
      rw [hmul, Nat.mul_mod_left] at hmod
      exact absurd rfl hmod
    · rw [getElem?_snoc_of_ne (h.length_eq ▸ hne)]
      rw [List.length_append, List.length_singleton] at hi
      exact h.other i (by omega) hmod

end Log

/-- The generations up to `done` are complete; the calls of the next one are
those in the wait queue. -/
structure Inv (s : State Thread) (done : Nat) : Prop where
  length_eq : s.arrived.length = done * s.goal.toNat + s.count.toNat
  count_lt : s.count.toNat < s.goal.toNat
  queue : s.waitQueue = s.arrived.drop (done * s.goal.toNat)
  waiting : ∀ i t, done * s.goal.toNat ≤ i → s.arrived[i]? = some t → s.pc t = .inScheduler i
  caller : ∀ t i, s.pc t = .inScheduler i → s.arrived[i]? = some t
  awake : ∀ t i, s.pc t = .inScheduler i → i < done * s.goal.toNat → s.blockCnt t = 0
  asleep : ∀ t i, s.pc t = .inScheduler i → done * s.goal.toNat ≤ i → s.blockCnt t = 1
  last : ∀ t i, s.pc t = .afterUnlock i → s.arrived[i]? = some t ∧ i < done * s.goal.toNat
  returned : ∀ i ∈ s.returned, i < done * s.goal.toNat
  passed : ∀ i ∈ s.returned, ∀ t, s.pc t ≠ .inScheduler i ∧ s.pc t ≠ .afterUnlock i
  returned_nodup : s.returned.Nodup
  log : Log s.goal.toNat done s.arrived s.woken

omit [DecidableEq Thread] in
theorem inv_initial {goal : UInt64} (hgoal : 1 ≤ goal) (blockCnt : Thread → Int) :
    Inv (State.initial goal blockCnt) 0 := by
  have hpos : 0 < goal.toNat := UInt64.le_iff_toNat_le.mp hgoal
  have hlog : Log goal.toNat 0 ([] : List Thread) [] := by
    constructor <;> simp
  constructor <;> simp [State.initial, hpos, hlog]

omit [DecidableEq Thread] in
theorem Inv.queue_nodup {s : State Thread} {done : Nat} (h : Inv s done) :
    s.waitQueue.Nodup := by
  rw [h.queue, List.nodup_iff_injective_getElem]
  rintro ⟨i, hi⟩ ⟨j, hj⟩ heq
  rw [List.length_drop] at hi hj
  simp only [List.getElem_drop] at heq
  have hi' := h.waiting _ _ (Nat.le_add_right _ i) (List.getElem?_eq_getElem (by omega))
  have hj' := h.waiting _ _ (Nat.le_add_right _ j) (List.getElem?_eq_getElem (by omega))
  rw [heq, hj', Pc.inScheduler.injEq, Nat.add_left_cancel_iff] at hi'
  exact Fin.ext hi'.symm

omit [DecidableEq Thread] in
theorem Inv.mem_queue {s : State Thread} {done : Nat} (h : Inv s done) {t : Thread} :
    t ∈ s.waitQueue ↔ ∃ i, done * s.goal.toNat ≤ i ∧ s.pc t = .inScheduler i := by
  rw [h.queue, List.mem_drop_iff_getElem]
  constructor
  · rintro ⟨i, hi, rfl⟩
    refine ⟨_, Nat.le_add_right _ i, h.waiting _ _ (Nat.le_add_right _ i) ?_⟩
    exact List.getElem?_eq_getElem _
  · rintro ⟨i, hi, hpc⟩
    obtain ⟨hlt, hget⟩ := List.getElem?_eq_some_iff.mp (h.caller t i hpc)
    refine ⟨i - done * s.goal.toNat, by omega, ?_⟩
    simp only [Nat.add_sub_cancel' hi]
    exact hget

omit [DecidableEq Thread] in
theorem Inv.count_succ {s : State Thread} {done : Nat} (h : Inv s done) :
    (s.count + 1).toNat = s.count.toNat + 1 := by
  have hlt := s.goal.toNat_lt
  have hold := h.count_lt
  rw [UInt64.toNat_add]
  exact Nat.mod_eq_of_lt (by change s.count.toNat + 1 < _; omega)

theorem inv_wait_early {s : State Thread} {done : Nat} (h : Inv s done) {t : Thread}
    (hpc : s.pc t = .outside) (hawake : s.blockCnt t = 0) (hcount : s.count + 1 < s.goal) :
    Inv (waitSection s t) done := by
  have hadd := h.count_succ
  have hlt : s.count.toNat + 1 < s.goal.toNat := hadd ▸ UInt64.lt_iff_toNat_lt.mp hcount
  have hlength := h.length_eq
  have hle : done * s.goal.toNat ≤ s.arrived.length := by omega
  have heq : waitSection s t = { s with
      count := s.count + 1
      arrived := s.arrived ++ [t]
      waitQueue := s.waitQueue ++ [t]
      blockCnt := block s.blockCnt t
      pc := Function.update s.pc t (.inScheduler s.arrived.length)
      woken := s.woken ++ [[]] } := by
    simp [waitSection, hcount]
  -- the thread had no call under way, so the other fields do not see it
  have hcases : ∀ u i, (waitSection s t).pc u = .inScheduler i →
      (u = t ∧ i = s.arrived.length) ∨ (u ≠ t ∧ s.pc u = .inScheduler i) := by
    intro u i hu
    rcases eq_or_ne u t with rfl | hne
    · simp only [heq, Function.update_self, Pc.inScheduler.injEq] at hu
      exact Or.inl ⟨rfl, hu.symm⟩
    · simp only [heq, Function.update_of_ne hne] at hu
      exact Or.inr ⟨hne, hu⟩
  have hlast : ∀ u i, (waitSection s t).pc u = .afterUnlock i → s.pc u = .afterUnlock i := by
    intro u i hu
    rcases eq_or_ne u t with rfl | hne
    · simp [heq] at hu
    · simpa [heq, hne] using hu
  constructor
  · simp only [heq, List.length_append, List.length_singleton, hadd, hlength, Nat.add_assoc]
  · simpa only [heq, hadd] using hlt
  · simp only [heq, h.queue, List.drop_append_of_le_length hle]
  · intro i u hi hget
    simp only [heq] at hi hget ⊢
    rcases getElem?_snoc.mp hget with hget | ⟨rfl, rfl⟩
    · have hu := h.waiting i u hi hget
      have hne : u ≠ t := by
        rintro rfl
        rw [hpc] at hu
        cases hu
      rw [Function.update_of_ne hne, hu]
    · rw [Function.update_self]
  · intro u i hu
    simp only [heq]
    rcases hcases u i hu with ⟨rfl, rfl⟩ | ⟨-, hu⟩
    · exact getElem?_snoc.mpr (Or.inr ⟨rfl, rfl⟩)
    · exact getElem?_snoc.mpr (Or.inl (h.caller u i hu))
  · intro u i hu hi
    rcases hcases u i hu with ⟨rfl, rfl⟩ | ⟨hne, hu⟩
    · simp only [heq] at hi
      omega
    · simp only [heq, block_of_ne hne]
      exact h.awake u i hu (by simpa only [heq] using hi)
  · intro u i hu hi
    rcases hcases u i hu with ⟨rfl, rfl⟩ | ⟨hne, hu⟩
    · simp only [heq, block_same, hawake, zero_add]
    · simp only [heq, block_of_ne hne]
      exact h.asleep u i hu (by simpa only [heq] using hi)
  · intro u i hu
    obtain ⟨hget, hi⟩ := h.last u i (hlast u i hu)
    simp only [heq]
    exact ⟨getElem?_snoc.mpr (Or.inl hget), hi⟩
  · simpa only [heq] using h.returned
  · intro i hi u
    simp only [heq] at hi
    have hlt := h.returned i hi
    constructor
    · intro hu
      rcases hcases u i hu with ⟨-, rfl⟩ | ⟨-, hu⟩
      · omega
      · exact (h.passed i hi u).1 hu
    · intro hu
      exact (h.passed i hi u).2 (hlast u i hu)
  · simpa only [heq] using h.returned_nodup
  · simp only [heq]
    exact h.log.snoc_early hlt hlength

theorem inv_wait_last {s : State Thread} {done : Nat} (h : Inv s done) (t : Thread)
    (hcount : ¬s.count + 1 < s.goal) : Inv (waitSection s t) (done + 1) := by
  have hadd := h.count_succ
  have hlt : s.count.toNat + 1 = s.goal.toNat := by
    have hold := h.count_lt
    rw [UInt64.lt_iff_toNat_lt, hadd] at hcount
    omega
  have hlength := h.length_eq
  have hmul : (done + 1) * s.goal.toNat = s.arrived.length + 1 := by
    rw [Nat.succ_mul]
    omega
  obtain ⟨hlog, hin, hout⟩ := wakeupAll_of_nodup h.queue_nodup s.blockCnt
  have hone : ∀ u ∈ s.waitQueue, s.blockCnt u = 1 := by
    intro u hu
    obtain ⟨i, hi, hpcu⟩ := h.mem_queue.mp hu
    exact h.asleep u i hpcu hi
  have heq : waitSection s t = { s with
      count := 0
      arrived := s.arrived ++ [t]
      waitQueue := []
      blockCnt := (wakeupAll s.waitQueue s.blockCnt).2
      pc := Function.update s.pc t (.afterUnlock s.arrived.length)
      woken := s.woken ++ [(wakeupAll s.waitQueue s.blockCnt).1] } := by
    simp [waitSection, hcount]
  have hsleeping : ∀ u i, (waitSection s t).pc u = .inScheduler i → s.pc u = .inScheduler i := by
    intro u i hu
    rcases eq_or_ne u t with rfl | hne
    · simp [heq] at hu
    · simpa [heq, hne] using hu
  have hcases : ∀ u i, (waitSection s t).pc u = .afterUnlock i →
      (u = t ∧ i = s.arrived.length) ∨ s.pc u = .afterUnlock i := by
    intro u i hu
    rcases eq_or_ne u t with rfl | hne
    · simp only [heq, Function.update_self, Pc.afterUnlock.injEq] at hu
      exact Or.inl ⟨rfl, hu.symm⟩
    · simp only [heq, Function.update_of_ne hne] at hu
      exact Or.inr hu
  constructor
  · simp only [heq, List.length_append, List.length_singleton, hmul, UInt64.toNat_zero, add_zero]
  · simp only [heq, UInt64.toNat_zero]
    omega
  · simp only [heq, hmul]
    rw [List.drop_eq_nil_of_le (by simp)]
  · intro i u hi hget
    simp only [heq, hmul] at hi hget
    rw [List.getElem?_eq_none (by simp; omega)] at hget
    cases hget
  · intro u i hu
    simp only [heq]
    exact getElem?_snoc.mpr (Or.inl (h.caller u i (hsleeping u i hu)))
  · intro u i hu hi
    replace hu := hsleeping u i hu
    simp only [heq]
    -- asleep until this call, or woken by an earlier one
    rcases Nat.lt_or_ge i (done * s.goal.toNat) with hlo | hhi
    · have hnot : u ∉ s.waitQueue := by
        intro hmem
        obtain ⟨j, hj, hpcu⟩ := h.mem_queue.mp hmem
        rw [hu, Pc.inScheduler.injEq] at hpcu
        omega
      rw [hout u hnot]
      exact h.awake u i hu hlo
    · have hmem := h.mem_queue.mpr ⟨i, hhi, hu⟩
      rw [hin u hmem, hone u hmem, sub_self]
  · intro u i hu hi
    simp only [heq, hmul] at hi
    obtain ⟨hlt, -⟩ := List.getElem?_eq_some_iff.mp (h.caller u i (hsleeping u i hu))
    omega
  · intro u i hu
    simp only [heq, hmul]
    rcases hcases u i hu with ⟨rfl, rfl⟩ | hu
    · exact ⟨getElem?_snoc.mpr (Or.inr ⟨rfl, rfl⟩), by omega⟩
    · obtain ⟨hget, hi⟩ := h.last u i hu
      exact ⟨getElem?_snoc.mpr (Or.inl hget), by omega⟩
  · intro i hi
    simp only [heq, hmul] at hi ⊢
    have := h.returned i hi
    omega
  · intro i hi u
    simp only [heq] at hi
    have hlt := h.returned i hi
    constructor
    · intro hu
      exact (h.passed i hi u).1 (hsleeping u i hu)
    · intro hu
      rcases hcases u i hu with ⟨-, rfl⟩ | hu
      · omega
      · exact (h.passed i hi u).2 hu
  · simpa only [heq] using h.returned_nodup
  · simp only [heq, hlog]
    have hzero : s.waitQueue.map (fun u => (u, s.blockCnt u - 1)) =
        (s.arrived.drop (done * s.goal.toNat)).map fun u => (u, 0) := by
      rw [← h.queue]
      exact List.map_congr_left fun u hu => by rw [hone u hu, sub_self]
    rw [hzero]
    exact h.log.snoc_last hlt hlength (h.queue ▸ h.queue_nodup)

theorem inv_leave {s : State Thread} {done : Nat} (h : Inv s done) {t : Thread} {call : Nat}
    (hcall : s.pc t = .inScheduler call ∨ s.pc t = .afterUnlock call)
    (hover : call < done * s.goal.toNat) : Inv (leave s t call) done := by
  have hne : ∀ {u}, (leave s t call).pc u ≠ .outside →
      u ≠ t ∧ (leave s t call).pc u = s.pc u := by
    intro u hu
    rcases eq_or_ne u t with rfl | hne
    · exact absurd (Function.update_self ..) hu
    · exact ⟨hne, Function.update_of_ne hne ..⟩
  have hsleeping : ∀ u i, (leave s t call).pc u = .inScheduler i →
      u ≠ t ∧ s.pc u = .inScheduler i := by
    intro u i hu
    obtain ⟨hut, heq⟩ := hne (by rw [hu]; exact Pc.noConfusion)
    exact ⟨hut, heq ▸ hu⟩
  have hlast : ∀ u i, (leave s t call).pc u = .afterUnlock i → u ≠ t ∧ s.pc u = .afterUnlock i := by
    intro u i hu
    obtain ⟨hut, heq⟩ := hne (by rw [hu]; exact Pc.noConfusion)
    exact ⟨hut, heq ▸ hu⟩
  have hcaller : s.arrived[call]? = some t :=
    hcall.elim (h.caller t call) fun hpc => (h.last t call hpc).1
  have hfresh : call ∉ s.returned := by
    intro hmem
    exact hcall.elim (h.passed call hmem t).1 (h.passed call hmem t).2
  constructor
  · exact h.length_eq
  · exact h.count_lt
  · exact h.queue
  · intro i u hi hget
    have hu := h.waiting i u hi hget
    have hut : u ≠ t := by
      rintro rfl
      rcases hcall with hpc | hpc <;> rw [hpc] at hu
      · rw [Pc.inScheduler.injEq] at hu
        exact absurd hover (by rw [hu]; exact Nat.not_lt.mpr hi)
      · cases hu
    exact (Function.update_of_ne hut ..).trans hu
  · exact fun u i hu => h.caller u i (hsleeping u i hu).2
  · exact fun u i hu => h.awake u i (hsleeping u i hu).2
  · exact fun u i hu => h.asleep u i (hsleeping u i hu).2
  · exact fun u i hu => h.last u i (hlast u i hu).2
  · intro i hi
    rcases List.mem_append.mp hi with hi | hi
    · exact h.returned i hi
    · rw [List.mem_singleton.mp hi]
      exact hover
  · intro i hi u
    rcases List.mem_append.mp hi with hi | hi
    · exact ⟨fun hu => (h.passed i hi u).1 (hsleeping u i hu).2,
        fun hu => (h.passed i hi u).2 (hlast u i hu).2⟩
    · -- another thread under way in this call would have been its caller
      rw [List.mem_singleton.mp hi]
      constructor
      · intro hu
        obtain ⟨hut, hu⟩ := hsleeping u call hu
        have hother := h.caller u call hu
        rw [hcaller, Option.some.injEq] at hother
        exact hut hother.symm
      · intro hu
        obtain ⟨hut, hu⟩ := hlast u call hu
        have hother := (h.last u call hu).1
        rw [hcaller, Option.some.injEq] at hother
        exact hut hother.symm
  · exact h.returned_nodup.append (List.nodup_singleton call) (by simpa using hfresh)
  · exact h.log

theorem inv_elsewhere {s : State Thread} {done : Nat} (h : Inv s done) {t : Thread}
    (hpc : s.pc t = .outside) (cnt : Int) :
    Inv { s with blockCnt := Function.update s.blockCnt t cnt } done := by
  have hsame : ∀ u i, s.pc u = .inScheduler i →
      Function.update s.blockCnt t cnt u = s.blockCnt u := by
    intro u i hu
    refine Function.update_of_ne ?_ ..
    rintro rfl
    rw [hpc] at hu
    cases hu
  exact {
    h with
    awake := fun u i hu hi => (hsame u i hu).trans (h.awake u i hu hi)
    asleep := fun u i hu hi => (hsame u i hu).trans (h.asleep u i hu hi) }

theorem inv_next {s s' : State Thread} {done : Nat} (h : Inv s done) {a : Action Thread}
    (hnext : next s a = some s') : s'.goal = s.goal ∧ ∃ done', Inv s' done' := by
  cases a with
  | wait t =>
      simp only [next, Option.ite_none_right_eq_some, Option.some.injEq] at hnext
      obtain ⟨⟨hpc, hawake⟩, rfl⟩ := hnext
      rcases em (s.count + 1 < s.goal) with hcount | hcount
      · exact ⟨by simp [waitSection, hcount], done, inv_wait_early h hpc hawake hcount⟩
      · exact ⟨by simp [waitSection, hcount], done + 1, inv_wait_last h t hcount⟩
  | ret t =>
      rcases hpc : s.pc t with _ | call | call
      · simp [next, hpc] at hnext
      · simp only [next, hpc, Option.ite_none_right_eq_some, Option.some.injEq] at hnext
        obtain ⟨hawake, rfl⟩ := hnext
        refine ⟨rfl, done, inv_leave h (Or.inl hpc) ?_⟩
        by_contra hlate
        have hone := h.asleep t call hpc (Nat.not_lt.mp hlate)
        rw [hawake] at hone
        exact absurd hone (by decide)
      · simp only [next, hpc, Option.some.injEq] at hnext
        exact hnext ▸ ⟨rfl, done, inv_leave h (Or.inr hpc) (h.last t call hpc).2⟩
  | elsewhere t cnt =>
      simp only [next, Option.ite_none_right_eq_some, Option.some.injEq] at hnext
      exact hnext.2 ▸ ⟨rfl, done, inv_elsewhere h hnext.1 cnt⟩

omit [DecidableEq Thread] in
theorem Inv.generations {s : State Thread} {done : Nat} (h : Inv s done) :
    Generations s.goal.toNat s := by
  have hlength := h.length_eq
  have hlt := h.count_lt
  have hpos : 0 < s.goal.toNat := by omega
  have hcomplete : ∀ g, (g + 1) * s.goal.toNat ≤ s.arrived.length ↔ g < done := by
    intro g
    constructor
    · intro hle
      by_contra hge
      have := Nat.mul_le_mul_right s.goal.toNat (Nat.not_lt.mp hge)
      rw [Nat.succ_mul] at hle
      omega
    · intro hg
      have := mul_succ_le s.goal.toNat hg
      rw [Nat.succ_mul]
      omega
  have hcall : ∀ i, (i / s.goal.toNat + 1) * s.goal.toNat ≤ s.arrived.length ↔
      i < done * s.goal.toNat := by
    intro i
    rw [hcomplete, Nat.div_lt_iff_lt_mul hpos]
  constructor
  · rw [h.queue, List.length_drop]
    omega
  · exact hlt
  · exact fun i hi => (hcall i).mpr (h.returned i hi)
  · exact h.returned_nodup
  · exact h.log.length_eq
  · exact fun g hg => h.log.last g ((hcomplete g).mp hg)
  · intro g hg
    rw [Nat.succ_mul] at hg
    rw [earlier, List.length_take, List.length_drop]
    omega
  · exact fun g hg => h.log.earlier_nodup g ((hcomplete g).mp hg)
  · exact h.log.other
  · intro t call hpc
    refine ⟨h.caller t call hpc, ?_⟩
    split
    · next hdone => exact h.awake t call hpc ((hcall call).mp hdone)
    · next hdone =>
        rw [hcall, Nat.not_lt] at hdone
        exact ⟨h.asleep t call hpc hdone, h.mem_queue.mpr ⟨call, hdone, hpc⟩⟩

/-- The calls of every run form generations of `goal` calls each. -/
theorem barrier_generations {goal : UInt64} (hgoal : 1 ≤ goal) {s : State Thread}
    (h : Reachable (system goal) s) : Generations goal.toNat s := by
  have hinv : s.goal = goal ∧ ∃ done, Inv s done := by
    refine h.invariant (P := fun s => s.goal = goal ∧ ∃ done, Inv s done) ?_ ?_
    · rintro s ⟨blockCnt, rfl⟩
      exact ⟨rfl, 0, inv_initial hgoal blockCnt⟩
    · rintro s a s' ⟨hs, done, hinv⟩ - hnext
      obtain ⟨hgoal', hinv'⟩ := inv_next hinv hnext
      exact ⟨hgoal'.trans hs, hinv'⟩
  obtain ⟨rfl, done, hinv⟩ := hinv
  exact hinv.generations

/-- Two threads meet twice; in the second round the one that was woken first
is early again before the other has returned. -/
def twoRounds : State Nat :=
  permittedState (fun _ _ => True) next (State.initial 2 fun _ => 0)
    [.wait 0, .wait 1, .ret 1, .wait 1, .ret 0, .wait 0, .ret 0]

theorem twoRounds_generations :
    twoRounds.arrived = [0, 1, 1, 0] ∧ twoRounds.woken = [[], [(0, 0)], [], [(1, 0)]] ∧
      twoRounds.returned = [1, 0, 3] ∧ Generations 2 twoRounds := by
  refine ⟨by decide +kernel, by decide +kernel, by decide +kernel, ?_⟩
  have hreach : Reachable (system 2) twoRounds :=
    permittedState_reachableUnder ⟨fun _ => 0, rfl⟩ _
  have hgoal : (1 : UInt64) ≤ 2 := by decide
  exact barrier_generations hgoal hreach

end LabKernel.Barrier
