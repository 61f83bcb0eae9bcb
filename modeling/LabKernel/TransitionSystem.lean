import Mathlib.Data.List.Basic

/-!
Labelled transition systems and their runs.

A run may be restricted by a condition on each step, read in the state before
the step.  Properties of all runs that keep to the condition follow from one
step lemma through `ReachableUnder.invariant`; a concrete run is exhibited by
replaying its actions through `replay`.
-/

namespace LabKernel.TransitionSystem

universe u v

/-- A labelled transition system with a set of starting states. -/
structure System (State : Type u) (Action : Type v) where
  start : State → Prop
  step : State → Action → State → Prop

variable {State : Type u} {Action : Type v}

/-- States reached by a run all of whose steps meet the condition `allowed`. -/
inductive ReachableUnder (system : System State Action)
    (allowed : State → Action → Prop) : State → Prop
  | start {s : State} : system.start s → ReachableUnder system allowed s
  | step {s s' : State} {a : Action} : ReachableUnder system allowed s →
      allowed s a → system.step s a s' → ReachableUnder system allowed s'

/-- States reached by an arbitrary run. -/
def Reachable (system : System State Action) : State → Prop :=
  ReachableUnder system fun _ _ => True

/-- A property of the starting states that every permitted step preserves
holds in every state of every permitted run. -/
theorem ReachableUnder.invariant {system : System State Action}
    {allowed : State → Action → Prop} {P : State → Prop}
    (hstart : ∀ s, system.start s → P s)
    (hstep : ∀ s a s', P s → allowed s a → system.step s a s' → P s')
    {s : State} (h : ReachableUnder system allowed s) : P s := by
  induction h with
  | start hs => exact hstart _ hs
  | step _ hallowed hs ih => exact hstep _ _ _ ih hallowed hs

theorem ReachableUnder.mono {system : System State Action}
    {allowed allowed' : State → Action → Prop} (hallowed : ∀ s a, allowed s a → allowed' s a) {s : State}
    (h : ReachableUnder system allowed s) : ReachableUnder system allowed' s := by
  induction h with
  | start hs => exact .start hs
  | step _ ha hs ih => exact .step ih (hallowed _ _ ha) hs

/-- The system of a deterministic partial step function. -/
def ofFunction (start : State → Prop) (next : State → Action → Option State) :
    System State Action where
  start := start
  step s a s' := next s a = some s'

/-- Replay a list of actions from a state. -/
def replay (next : State → Action → Option State) (s : State) :
    List Action → Option State
  | [] => some s
  | a :: rest => (next s a).bind fun s' => replay next s' rest

theorem reachable_of_replay {start : State → Prop}
    {next : State → Action → Option State} {s s' : State}
    (hs : Reachable (ofFunction start next) s) (actions : List Action)
    (hreplay : replay next s actions = some s') :
    Reachable (ofFunction start next) s' := by
  induction actions generalizing s with
  | nil =>
      simp only [replay, Option.some.injEq] at hreplay
      exact hreplay ▸ hs
  | cons a rest ih =>
      simp only [replay, Option.bind_eq_some_iff] at hreplay
      obtain ⟨middle, hnext, hrest⟩ := hreplay
      exact ih (ReachableUnder.step hs trivial hnext) hrest

/-- The part of a step function that meets a condition. -/
def restrict (allowed : State → Action → Prop) [∀ s a, Decidable (allowed s a)]
    (next : State → Action → Option State) (s : State) (a : Action) : Option State :=
  if allowed s a then next s a else none

theorem reachableUnder_of_replay {start : State → Prop} {allowed : State → Action → Prop}
    [∀ s a, Decidable (allowed s a)] {next : State → Action → Option State} {s s' : State}
    (hs : ReachableUnder (ofFunction start next) allowed s) (actions : List Action)
    (hreplay : replay (restrict allowed next) s actions = some s') :
    ReachableUnder (ofFunction start next) allowed s' := by
  induction actions generalizing s with
  | nil =>
      simp only [replay, Option.some.injEq] at hreplay
      exact hreplay ▸ hs
  | cons a rest ih =>
      simp only [replay, Option.bind_eq_some_iff] at hreplay
      obtain ⟨middle, hnext, hrest⟩ := hreplay
      obtain ⟨hallowed, hnext⟩ := Option.ite_none_right_eq_some.mp hnext
      exact ih (ReachableUnder.step hs hallowed hnext) hrest

/-- The actions of the replay are permitted in every state. -/
theorem reachableUnder_of_always {start : State → Prop} {allowed : State → Action → Prop}
    {next : State → Action → Option State} {s s' : State}
    (hs : ReachableUnder (ofFunction start next) allowed s) (actions : List Action)
    (hallowed : ∀ a ∈ actions, ∀ s, allowed s a) (hreplay : replay next s actions = some s') :
    ReachableUnder (ofFunction start next) allowed s' := by
  induction actions generalizing s with
  | nil =>
      simp only [replay, Option.some.injEq] at hreplay
      exact hreplay ▸ hs
  | cons a rest ih =>
      simp only [replay, Option.bind_eq_some_iff] at hreplay
      obtain ⟨middle, hnext, hrest⟩ := hreplay
      exact ih (ReachableUnder.step hs (hallowed a (by simp) s) hnext)
        (fun b hb => hallowed b (by simp [hb])) hrest

/-- The state that the given actions lead to from a starting state; the
starting state itself if one of them is not possible or not permitted. -/
def permittedState (allowed : State → Action → Prop) [∀ s a, Decidable (allowed s a)]
    (next : State → Action → Option State) (s : State) (actions : List Action) : State :=
  (replay (restrict allowed next) s actions).getD s

theorem permittedState_reachableUnder {start : State → Prop} {allowed : State → Action → Prop}
    [∀ s a, Decidable (allowed s a)] {next : State → Action → Option State} {s : State}
    (hs : start s) (actions : List Action) :
    ReachableUnder (ofFunction start next) allowed (permittedState allowed next s actions) := by
  have hstart : ReachableUnder (ofFunction start next) allowed s := ReachableUnder.start hs
  unfold permittedState
  cases hreplay : replay (restrict allowed next) s actions with
  | none => exact hstart
  | some s' => exact reachableUnder_of_replay hstart actions hreplay

theorem getElem?_snoc {α : Type*} {l : List α} {a b : α} {i : Nat} :
    (l ++ [a])[i]? = some b ↔ l[i]? = some b ∨ i = l.length ∧ a = b := by
  rcases Nat.lt_trichotomy i l.length with hi | rfl | hi
  · simp [List.getElem?_append_left hi, Nat.ne_of_lt hi]
  · simp
  · rw [List.getElem?_eq_none (by simp; omega), List.getElem?_eq_none (by omega)]
    simp [Nat.ne_of_gt hi]

theorem getElem?_snoc_of_ne {α : Type*} {l : List α} {a : α} {i : Nat} (hi : i ≠ l.length) :
    (l ++ [a])[i]? = l[i]? := by
  rcases Nat.lt_or_gt_of_ne hi with hi | hi
  · exact List.getElem?_append_left hi
  · rw [List.getElem?_eq_none (by simp; omega), List.getElem?_eq_none (by omega)]

end LabKernel.TransitionSystem
