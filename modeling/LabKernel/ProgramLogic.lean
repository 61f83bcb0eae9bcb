import Mathlib.Logic.Basic

/-!
Programs over a state that may stop with an error, and a calculus of
postconditions for them.

The state is kept when a program stops, so that a property of all the states
a program goes through can be read off its last state as well.
-/

namespace LabKernel.ProgramLogic

variable {σ ε α γ : Type}

/-- A program with states `σ`, errors `ε` and results `α`. -/
structure Program (σ ε α : Type) where
  run : σ → Except ε α × σ

instance : Monad (Program σ ε) where
  pure a := ⟨fun s => (.ok a, s)⟩
  bind p f := ⟨fun s =>
    match p.run s with
    | (.ok a, s') => (f a).run s'
    | (.error e, s') => (.error e, s')⟩

/-- The current state. -/
def getState : Program σ ε σ := ⟨fun s => (.ok s, s)⟩

def modifyState (f : σ → σ) : Program σ ε Unit := ⟨fun s => (.ok (), f s)⟩

/-- Stop with an error. -/
def fail (e : ε) : Program σ ε α := ⟨fun s => (.error e, s)⟩

/-- The run of `p` from `s` ends with a result and a state that satisfy `Q`,
or stops with an error and a state that satisfy `E`. -/
def Runs (p : Program σ ε α) (s : σ) (E : ε → σ → Prop) (Q : α → σ → Prop) : Prop :=
  match p.run s with
  | (.ok a, s') => Q a s'
  | (.error e, s') => E e s'

variable {p : Program σ ε α} {f : α → Program σ ε γ} {s : σ}
  {E E' : ε → σ → Prop} {Q Q' : α → σ → Prop} {R : γ → σ → Prop}

theorem runs_of_ok {a : α} {s' : σ} (hrun : p.run s = (.ok a, s')) (h : Q a s') :
    Runs p s E Q := by
  simpa only [Runs, hrun] using h

theorem runs_of_error {e : ε} {s' : σ} (hrun : p.run s = (.error e, s')) (h : E e s') :
    Runs p s E Q := by
  simpa only [Runs, hrun] using h

theorem runs_pure {a : α} (h : Q a s) : Runs (pure a : Program σ ε α) s E Q := h

theorem run_bind (p : Program σ ε α) (f : α → Program σ ε γ) (s : σ) :
    (p >>= f).run s = match p.run s with
      | (.ok a, s') => (f a).run s'
      | (.error e, s') => (.error e, s') := rfl

theorem runs_bind (h : Runs p s E fun a s' => Runs (f a) s' E R) : Runs (p >>= f) s E R := by
  unfold Runs at *
  rw [run_bind]
  split at h
  next hp => simpa only [hp] using h
  next hp => simpa only [hp] using h

theorem Runs.of_bind (h : Runs (p >>= f) s E R) :
    Runs p s E fun a s' => Runs (f a) s' E R := by
  unfold Runs at *
  rw [run_bind] at h
  split
  next hp => simpa only [hp] using h
  next hp => simpa only [hp] using h

theorem runs_getState {Q : σ → σ → Prop} (h : Q s s) :
    Runs (getState : Program σ ε σ) s E Q := h

theorem runs_modifyState {g : σ → σ} {Q : Unit → σ → Prop} (h : Q () (g s)) :
    Runs (modifyState g : Program σ ε Unit) s E Q := h

theorem runs_fail {e : ε} (h : E e s) : Runs (fail e : Program σ ε α) s E Q := h

theorem Runs.mono (h : Runs p s E Q) (hE : ∀ e s', E e s' → E' e s')
    (hQ : ∀ a s', Q a s' → Q' a s') : Runs p s E' Q' := by
  unfold Runs at *
  split at h
  next hp => simpa only [hp] using hQ _ _ h
  next hp => simpa only [hp] using hE _ _ h

theorem runs_self (p : Program σ ε α) (s : σ) :
    Runs p s (fun e s' => p.run s = (.error e, s')) fun a s' => p.run s = (.ok a, s') := by
  unfold Runs
  split
  next hp => exact hp
  next hp => exact hp

/-- Nothing is known of a run. -/
theorem runs_any (p : Program σ ε α) (s : σ) : Runs p s (fun _ _ => True) fun _ _ => True :=
  (runs_self p s).mono (fun _ _ _ => trivial) fun _ _ _ => trivial

theorem Runs.and (h : Runs p s E Q) (h' : Runs p s E' Q') :
    Runs p s (fun e s' => E e s' ∧ E' e s') fun a s' => Q a s' ∧ Q' a s' := by
  unfold Runs at *
  split at h
  next hp =>
    simp only [hp] at h' ⊢
    exact ⟨h, h'⟩
  next hp =>
    simp only [hp] at h' ⊢
    exact ⟨h, h'⟩

/-- A fact about a run, with the run itself. -/
theorem Runs.withRun (h : Runs p s E Q) :
    Runs p s E fun a s' => Q a s' ∧ p.run s = (.ok a, s') :=
  (h.and (runs_self p s)).mono (fun _ _ he => he.1) fun _ _ hq => hq

theorem run_bind_ok {a : α} {s' : σ} (hrun : p.run s = (.ok a, s')) :
    (p >>= f).run s = (f a).run s' := by
  rw [run_bind, hrun]

theorem ok_of_bind {c : γ} {s' : σ} (h : (p >>= f).run s = (.ok c, s')) :
    ∃ a s₁, p.run s = (.ok a, s₁) ∧ (f a).run s₁ = (.ok c, s') := by
  rw [run_bind] at h
  generalize p.run s = outcome at h
  obtain ⟨result, s₁⟩ := outcome
  cases result with
  | ok a => exact ⟨a, s₁, rfl, h⟩
  | error e => cases h

theorem Runs.ok {a : α} {s' : σ} (h : Runs p s E Q) (hrun : p.run s = (.ok a, s')) : Q a s' := by
  unfold Runs at h
  rwa [hrun] at h

theorem Runs.error {e : ε} {s' : σ} (h : Runs p s E Q) (hrun : p.run s = (.error e, s')) :
    E e s' := by
  unfold Runs at h
  rwa [hrun] at h

/-- A program that cannot stop returns. -/
theorem Runs.returns (h : Runs p s E Q) (hE : ∀ e s', ¬E e s') :
    ∃ a s', p.run s = (.ok a, s') ∧ Q a s' := by
  unfold Runs at h
  split at h
  next hp => exact ⟨_, _, hp, h⟩
  next => exact absurd h (hE _ _)

theorem Runs.bind (h : Runs p s E Q) (hf : ∀ a s', Q a s' → Runs (f a) s' E R) :
    Runs (p >>= f) s E R :=
  runs_bind (h.mono (fun _ _ he => he) hf)

section Commutes

variable {u : σ → σ}

/-- The program neither looks at what `u` changes of a state nor changes it. -/
def Commutes (u : σ → σ) (p : Program σ ε α) : Prop :=
  ∀ s, p.run (u s) = ((p.run s).1, u (p.run s).2)

theorem commutes_bind (hp : Commutes u p) (hf : ∀ a, Commutes u (f a)) : Commutes u (p >>= f) := by
  intro s
  rw [run_bind, run_bind, hp s]
  generalize p.run s = outcome
  obtain ⟨result, s'⟩ := outcome
  cases result with
  | ok a => exact hf a s'
  | error e => rfl

theorem Commutes.run_ok {a : α} {s' : σ} (h : Commutes u p) (hrun : p.run s = (.ok a, s')) :
    p.run (u s) = (.ok a, u s') := by
  rw [h s, hrun]

theorem Commutes.of_run {result : Except ε α} {s₁ : σ} (h : Commutes u p)
    (hrun : p.run (u s) = (result, s₁)) : ∃ s', p.run s = (result, s') ∧ s₁ = u s' := by
  rw [h s] at hrun
  obtain ⟨hresult, hstate⟩ := Prod.mk.inj hrun
  exact ⟨(p.run s).2, Prod.ext hresult rfl, hstate.symm⟩

end Commutes

end LabKernel.ProgramLogic
