import Mathlib.NumberTheory.Padics.PadicVal.Basic
import LabKernel.Scheduler

/-!
Which thread `do_scheduler` takes from the ready queue (`schedule.cpp`).

The loop passes over the entry behind one that it erases, so an entry with an
odd number of stale ones directly before it is not looked at.  If the last
entry of the queue is erased, the loop starts over, and half of the stale
entries are left.  An entry is thus looked at after as many further rounds as 2
divides the number of the stale entries before it, plus one.
-/

namespace LabKernel.ReadyQueue

variable {Thread : Type*} {ready mask : Thread → Bool}

/-- How the loop goes on, walk after walk, until it ends with a result. -/
inductive Loop (ready mask : Thread → Bool) : List Thread → Scan Thread → Prop
  | stop {queue : List Thread} {result : Scan Thread} :
      walk ready mask [] queue = .stop result → Loop ready mask queue result
  | again {queue shorter : List Thread} {result : Scan Thread} :
      walk ready mask [] queue = .restart shorter → Loop ready mask shorter result →
        Loop ready mask queue result

theorem scan_loop (ready mask : Thread → Bool) (queue : List Thread) :
    Loop ready mask queue (scan ready mask queue) := by
  suffices hloop : ∀ n (queue : List Thread), queue.length < n →
      Loop ready mask queue (scanRounds ready mask n queue) from
    hloop _ queue (Nat.lt_succ_self _)
  intro n
  induction n with
  | zero =>
      intro queue hn
      cases hn
  | succ n ih =>
      intro queue hn
      have hwalked := walk_walked ready mask [] queue
      rw [List.nil_append] at hwalked
      unfold scanRounds
      split
      · next result hwalk => exact Loop.stop hwalk
      · next shorter hwalk =>
          rw [hwalk] at hwalked
          have hshort := hwalked.1
          exact Loop.again hwalk (ih shorter (by omega))

/-- The list without some entries that are not ready. -/
def Pruned (ready : Thread → Bool) (kept queue : List Thread) : Prop :=
  kept.Sublist queue ∧ kept.filter ready = queue.filter ready

theorem Pruned.refl (queue : List Thread) : Pruned ready queue queue :=
  ⟨List.Sublist.refl queue, rfl⟩

theorem Pruned.trans {a b c : List Thread} (hab : Pruned ready a b) (hbc : Pruned ready b c) :
    Pruned ready a c :=
  ⟨hab.1.trans hbc.1, hab.2.trans hbc.2⟩

theorem pruned_stale {t : Thread} (ht : ready t = false) (before after : List Thread) :
    Pruned ready (before ++ after) (before ++ t :: after) := by
  refine ⟨(List.sublist_cons_self t after).append_left before, ?_⟩
  rw [List.filter_append, List.filter_append, List.filter_cons, if_neg (by simp [ht])]

/-- Only the selected entry and stale ones were removed, and the others are in
their old order. -/
def Removes (ready : Thread → Bool) (queue : List Thread) (result : Scan Thread) : Prop :=
  ∃ before after, result.queue = before ++ after ∧
    Pruned ready (before ++ result.next.toList ++ after) queue

/-- The same of a walk, whichever way it ends. -/
def WalkRemoves (ready : Thread → Bool) (queue : List Thread) : Walk Thread → Prop
  | .stop result => Removes ready queue result
  | .restart shorter => Pruned ready shorter queue

theorem WalkRemoves.pruned {kept queue : List Thread} {w : Walk Thread}
    (h : WalkRemoves ready kept w) (hpruned : Pruned ready kept queue) :
    WalkRemoves ready queue w := by
  cases w with
  | stop result =>
      obtain ⟨before, after, hqueue, hkept⟩ := h
      exact ⟨before, after, hqueue, hkept.trans hpruned⟩
  | restart shorter => exact Pruned.trans h hpruned

theorem walk_removes (ready mask : Thread → Bool) (passed rest : List Thread) :
    WalkRemoves ready (passed ++ rest) (walk ready mask passed rest) := by
  fun_induction walk ready mask passed rest with
  | case1 passed => exact ⟨passed, [], by simp, by simpa using Pruned.refl passed⟩
  | case2 passed t ht =>
      simp only [Bool.not_eq_true'] at ht
      have hpruned := pruned_stale ht passed []
      rwa [List.append_nil] at hpruned
  | case3 passed t ht hmask => exact ⟨passed ++ [t], [], by simp, by simpa using Pruned.refl _⟩
  | case4 passed t ht hmask => exact ⟨passed, [], by simp, by simpa using Pruned.refl _⟩
  | case5 passed t u rest ht ih =>
      simp only [Bool.not_eq_true'] at ht
      refine WalkRemoves.pruned ih ?_
      rw [List.append_assoc, List.singleton_append]
      exact pruned_stale ht passed (u :: rest)
  | case6 passed t u rest ht hmask ih =>
      rwa [List.append_assoc, List.singleton_append] at ih
  | case7 passed t u rest ht hmask =>
      exact ⟨passed, u :: rest, rfl, by simpa using Pruned.refl _⟩

theorem Loop.removes {queue : List Thread} {result : Scan Thread}
    (h : Loop ready mask queue result) : Removes ready queue result := by
  induction h with
  | @stop queue result hwalk =>
      have hremoves := walk_removes ready mask [] queue
      rwa [hwalk] at hremoves
  | @again queue shorter result hwalk _ ih =>
      have hremoves := walk_removes ready mask [] queue
      rw [hwalk] at hremoves
      obtain ⟨before, after, hqueue, hkept⟩ := ih
      exact ⟨before, after, hqueue, hkept.trans hremoves⟩

/-- The eligible entries and the end of the queue, each with the number of the
stale entries directly before it; `stale` of them precede the list. -/
def stops (ready mask : Thread → Bool) (stale : Nat) : List Thread → List (Nat × Option Thread)
  | [] => [(stale, none)]
  | t :: rest =>
      if !ready t then stops ready mask (stale + 1) rest
      else if !mask t then stops ready mask 0 rest
      else (stale, some t) :: stops ready mask 0 rest

/-- What a walk that erases the last entry leaves of the list. -/
def kept (ready : Thread → Bool) : List Thread → List Thread
  | [] => []
  | [t] => if !ready t then [] else [t]
  | t :: u :: rest => if !ready t then u :: kept ready rest else t :: kept ready (u :: rest)

/-- Half of the stale entries. -/
def half (place : Nat × Option Thread) : Nat × Option Thread := (place.1 / 2, place.2)

theorem stops_stale {t : Thread} (ht : ready t = false) (stale : Nat) (rest : List Thread) :
    stops ready mask stale (t :: rest) = stops ready mask (stale + 1) rest := by
  rw [stops, if_pos (by simp [ht])]

theorem stops_ready {t : Thread} (ht : ready t = true) (stale : Nat) (rest : List Thread) :
    stops ready mask stale (t :: rest) =
      (if mask t then [(stale, some t)] else []) ++ stops ready mask 0 rest := by
  rw [stops, if_neg (by simp [ht])]
  by_cases hmask : mask t = true
  · rw [if_neg (by simp [hmask]), if_pos hmask]
    rfl
  · rw [if_pos (by simp [hmask]), if_neg hmask]
    rfl

theorem half_ready (t : Thread) (stale stale' : Nat) (h : stale' / 2 = stale) :
    (if mask t then [(stale', some t)] else []).map half =
      if mask t then [(stale, some t)] else [] := by
  split
  · simp [half, h]
  · rfl

theorem stops_kept (rest : List Thread) (stale : Nat) :
    stops ready mask stale (kept ready rest) = (stops ready mask (2 * stale) rest).map half := by
  fun_induction kept ready rest generalizing stale with
  | case1 => simp [stops, half]
  | case2 t ht =>
      rw [stops_stale (by simpa using ht)]
      simp only [stops, half, List.map_cons, List.map_nil]
      congr 2
      omega
  | case3 t ht =>
      rw [stops_ready (by simpa using ht), stops_ready (by simpa using ht), List.map_append,
        half_ready t stale _ (by omega)]
      simp [stops, half]
  | case4 t u rest ht ih =>
      have ht' : ready t = false := by simpa using ht
      rw [stops_stale ht']
      rcases Bool.eq_false_or_eq_true (ready u) with hu | hu
      · rw [stops_ready hu, stops_ready hu, List.map_append,
          half_ready u stale _ (by omega), ih 0]
      · rw [stops_stale hu, stops_stale hu, ih (stale + 1)]
        congr 2
  | case5 t u rest ht ih =>
      rw [stops_ready (by simpa using ht), stops_ready (by simpa using ht), List.map_append,
        half_ready t stale _ (by omega), ih 0]

/-- The place can be reached without starting over. -/
def even (place : Nat × Option Thread) : Bool := place.1 % 2 = 0

theorem walk_stops (ready mask : Thread → Bool) (passed rest : List Thread) (stale : Nat) :
    (∀ place, (stops ready mask (2 * stale) rest).find? even = some place →
      ∃ queue, walk ready mask passed rest = .stop ⟨place.2, queue⟩) ∧
      ((stops ready mask (2 * stale) rest).find? even = none →
        walk ready mask passed rest = .restart (passed ++ kept ready rest)) := by
  fun_induction walk ready mask passed rest generalizing stale with
  | case1 passed => simp [stops, even]
  | case2 passed t ht =>
      rw [stops_stale (by simpa using ht)]
      simp [stops, even, kept, ht]
  | case3 passed t ht hmask =>
      rw [stops_ready (by simpa using ht), if_neg (by simpa using hmask)]
      simp [stops, even]
  | case4 passed t ht hmask =>
      rw [stops_ready (by simpa using ht), if_pos (by simpa using hmask)]
      simp [even]
  | case5 passed t u rest ht ih =>
      have ht' : ready t = false := by simpa using ht
      have hkept : passed ++ kept ready (t :: u :: rest) = passed ++ [u] ++ kept ready rest := by
        simp [kept, ht']
      rw [stops_stale ht', hkept]
      rcases Bool.eq_false_or_eq_true (ready u) with hu | hu
      · have hodd : even (2 * stale + 1, some u) = false := by
          rw [even, decide_eq_false_iff_not]
          omega
        have hskip : (stops ready mask (2 * stale + 1) (u :: rest)).find? even =
            (stops ready mask 0 rest).find? even := by
          rw [stops_ready hu]
          split
          · rw [List.singleton_append, List.find?_cons_of_neg (by simp [hodd])]
          · rfl
        rw [hskip]
        exact ih 0
      · rw [stops_stale hu]
        exact ih (stale + 1)
  | case6 passed t u rest ht hmask ih =>
      have hkept : passed ++ kept ready (t :: u :: rest) =
          passed ++ [t] ++ kept ready (u :: rest) := by
        simp [kept, ht]
      rw [stops_ready (by simpa using ht), if_neg (by simpa using hmask), hkept]
      exact ih 0
  | case7 passed t u rest ht hmask =>
      rw [stops_ready (by simpa using ht), if_pos (by simpa using hmask)]
      simp [even]

/-- After how many further walks the place is looked at. -/
def round (place : Nat × Option Thread) : Nat := padicValNat 2 (place.1 + 1)

/-- The earliest of the places that are looked at in the fewest rounds. -/
def Reached (places : List (Nat × Option Thread)) (next : Option Thread) : Prop :=
  ∃ before after stale, places = before ++ (stale, next) :: after ∧
    (∀ place ∈ before, round (stale, next) < round place) ∧
      ∀ place ∈ after, round (stale, next) ≤ round place

theorem round_even {place : Nat × Option Thread} (h : even place = true) : round place = 0 := by
  have heven := of_decide_eq_true h
  exact padicValNat.eq_zero_of_not_dvd (by omega)

theorem round_odd {place : Nat × Option Thread} (h : even place = false) :
    round place = round (half place) + 1 := by
  have hodd := of_decide_eq_false h
  have hdouble : place.1 + 1 = 2 * (place.1 / 2 + 1) := by omega
  unfold round half
  rw [hdouble, padicValNat.mul (by decide) (Nat.succ_ne_zero _), padicValNat.self (by decide),
    Nat.add_comm]

theorem reached_even {places : List (Nat × Option Thread)} {place : Nat × Option Thread}
    (h : places.find? even = some place) : Reached places place.2 := by
  obtain ⟨heven, before, after, rfl, hbefore⟩ := List.find?_eq_some_iff_append.mp h
  refine ⟨before, after, place.1, rfl, fun other hother => ?_, fun other _ => ?_⟩
  · rw [round_even heven, round_odd (by simpa using hbefore other hother)]
    exact Nat.succ_pos _
  · rw [round_even heven]
    exact Nat.zero_le _

theorem Reached.of_half {places : List (Nat × Option Thread)} {next : Option Thread}
    (hodd : places.find? even = none) (h : Reached (places.map half) next) :
    Reached places next := by
  obtain ⟨before, after, stale, hsplit, hbefore, hafter⟩ := h
  obtain ⟨before', rest', rfl, rfl, hrest⟩ := List.map_eq_append_iff.mp hsplit
  obtain ⟨place, after', rfl, hplace, rfl⟩ := List.map_eq_cons_iff.mp hrest
  have hround : ∀ other ∈ before' ++ place :: after', round other = round (half other) + 1 :=
    fun other hother => round_odd (by simpa using List.find?_eq_none.mp hodd other hother)
  obtain ⟨n, o⟩ := place
  obtain rfl : o = next := congrArg Prod.snd hplace
  refine ⟨before', after', n, rfl, fun other hother => ?_, fun other hother => ?_⟩
  · have hlt := hbefore (half other) (List.mem_map_of_mem hother)
    rw [hround other (by simp [hother]), hround (n, o) (by simp), hplace]
    omega
  · have hle := hafter (half other) (List.mem_map_of_mem hother)
    rw [hround other (by simp [hother]), hround (n, o) (by simp), hplace]
    omega

theorem Reached.unique {places : List (Nat × Option Thread)} {next next' : Option Thread}
    (h : Reached places next) (h' : Reached places next') : next = next' := by
  obtain ⟨before, after, n, rfl, hbefore, hafter⟩ := h
  obtain ⟨before', after', n', hsplit, hbefore', hafter'⟩ := h'
  rcases List.append_eq_append_iff.mp hsplit with ⟨mid, rfl, hmid⟩ | ⟨mid, rfl, hmid⟩
  · cases mid with
    | nil =>
        rw [List.nil_append, List.cons.injEq] at hmid
        exact congrArg Prod.snd hmid.1
    | cons place mid =>
        rw [List.cons_append, List.cons.injEq] at hmid
        obtain ⟨rfl, rfl⟩ := hmid
        have hlt := hbefore' (n, next) (by simp)
        have hle := hafter (n', next') (by simp)
        omega
  · cases mid with
    | nil =>
        rw [List.nil_append, List.cons.injEq] at hmid
        exact (congrArg Prod.snd hmid.1).symm
    | cons place mid =>
        rw [List.cons_append, List.cons.injEq] at hmid
        obtain ⟨rfl, rfl⟩ := hmid
        have hlt := hbefore (n', next') (by simp)
        have hle := hafter' (n, next) (by simp)
        omega

theorem Loop.reached {queue : List Thread} {result : Scan Thread}
    (h : Loop ready mask queue result) : Reached (stops ready mask 0 queue) result.next := by
  induction h with
  | @stop queue result hwalk =>
      obtain ⟨hstop, hrestart⟩ := walk_stops ready mask [] queue 0
      cases hfind : (stops ready mask (2 * 0) queue).find? even with
      | none =>
          rw [hrestart hfind] at hwalk
          cases hwalk
      | some place =>
          obtain ⟨left, hleft⟩ := hstop place hfind
          rw [hleft, Walk.stop.injEq] at hwalk
          subst hwalk
          exact reached_even hfind
  | @again queue shorter result hwalk _ ih =>
      obtain ⟨hstop, hrestart⟩ := walk_stops ready mask [] queue 0
      cases hfind : (stops ready mask (2 * 0) queue).find? even with
      | some place =>
          obtain ⟨left, hleft⟩ := hstop place hfind
          rw [hleft] at hwalk
          cases hwalk
      | none =>
          rw [hrestart hfind, Walk.restart.injEq, List.nil_append] at hwalk
          subst hwalk
          rw [stops_kept] at ih
          exact ih.of_half hfind

end LabKernel.ReadyQueue

namespace LabKernel.Scheduler

open LabKernel.ReadyQueue
open LabKernel.TransitionSystem

variable {Thread Hart Process : Type*} [DecidableEq Thread] [DecidableEq Hart]

/-- The thread is READY and may run on the hart. -/
def eligible (M : Machine Thread Hart Process) (s : State Thread Hart Process) (h : Hart)
    (t : Thread) : Bool :=
  s.ready t && s.cpuMask (M.process t) h

/-- What the section of `do_scheduler` under `ready_lock` is meant to do. -/
structure SelectsFirst (M : Machine Thread Hart Process) (s : State Thread Hart Process)
    (h : Hart) : Prop where
  ends : Loop s.ready (fun t => s.cpuMask (M.process t) h) (requeued M s h) (selection M s h)
  first : (selection M s h).next = (requeued M s h).find? (eligible M s h)
  installed : (select M s h).pc h =
    .selected (((requeued M s h).find? (eligible M s h)).getD (M.idle h))
  removes : ∃ before after, (select M s h).readyQueue = before ++ after ∧
    Pruned s.ready (before ++ (selection M s h).next.toList ++ after) (requeued M s h)

/-- Of the eligible entries and the end of the queue, the first one behind a
number of stale entries whose successor is divisible by the least power of 2 is
an entry of the first eligible thread, or the end if there is none. -/
def FirstReached (M : Machine Thread Hart Process) (s : State Thread Hart Process)
    (h : Hart) : Prop :=
  Reached (stops s.ready (fun t => s.cpuMask (M.process t) h) 0 (requeued M s h))
    ((requeued M s h).find? (eligible M s h))

theorem selectsFirst_iff_firstReached (M : Machine Thread Hart Process)
    (s : State Thread Hart Process) (h : Hart) :
    SelectsFirst M s h ↔ FirstReached M s h := by
  have hends : Loop s.ready (fun t => s.cpuMask (M.process t) h) (requeued M s h)
      (selection M s h) := scan_loop _ _ _
  constructor
  · intro hselects
    unfold FirstReached
    rw [← hselects.first]
    exact hends.reached
  · intro hreached
    have hfirst := hends.reached.unique hreached
    refine ⟨hends, hfirst, ?_, hends.removes⟩
    rw [← hfirst]
    simp [select, State.goto]

/-- Thread 2 exits while it is in the queue before thread 3. -/
theorem entry_behind_stale_passed_over :
    ¬ ∀ (s : State Nat (Fin 2) Unit) (h : Fin 2), Reachable (system twoHarts) s →
      SelectsFirst twoHarts s h := by
  intro hall
  have hreach := after_reachable [.create 2, .create 3, .exit 2, .enter 0]
  have hfirst := (hall _ 0 hreach).first
  exact absurd hfirst (by decide)

end LabKernel.Scheduler
