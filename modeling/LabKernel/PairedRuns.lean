import LabKernel.ProgramLogic

/-!
Two runs of the same program from different states, and a calculus of
relations between the states they end in.

The rules follow those for single runs.  What is known about the first run
alone can be used at any step, so a proof about a pair of runs only has to say
why the two take the same branches.
-/

namespace LabKernel.PairedRuns

open LabKernel.ProgramLogic

variable {σ ε α γ : Type}

/-- The runs of `p` from `s₁` and `s₂` end with the same result and with states
that satisfy `Q`, or stop with the same error. -/
def Together (p : Program σ ε α) (s₁ s₂ : σ) (Q : α → σ → σ → Prop) : Prop :=
  match p.run s₁, p.run s₂ with
  | (.ok a, s₁'), (.ok b, s₂') => a = b ∧ Q a s₁' s₂'
  | (.error e, _), (.error e', _) => e = e'
  | (.ok _, _), (.error _, _) => False
  | (.error _, _), (.ok _, _) => False

variable {p : Program σ ε α} {f : α → Program σ ε γ} {s₁ s₂ s₁' s₂' : σ} {a : α}
  {E : ε → σ → Prop} {Q Q' : α → σ → σ → Prop} {P : α → σ → Prop} {R : γ → σ → σ → Prop}

theorem together_of_ok (h₁ : p.run s₁ = (.ok a, s₁')) (h₂ : p.run s₂ = (.ok a, s₂'))
    (hQ : Q a s₁' s₂') : Together p s₁ s₂ Q := by
  unfold Together
  rw [h₁, h₂]
  exact ⟨rfl, hQ⟩

theorem together_of_error {e : ε} (h₁ : p.run s₁ = (.error e, s₁'))
    (h₂ : p.run s₂ = (.error e, s₂')) : Together p s₁ s₂ Q := by
  unfold Together
  rw [h₁, h₂]

theorem together_pure (hQ : Q a s₁ s₂) : Together (pure a : Program σ ε α) s₁ s₂ Q :=
  ⟨rfl, hQ⟩

theorem together_fail {e : ε} : Together (fail e : Program σ ε α) s₁ s₂ Q := rfl

theorem Together.cases (h : Together p s₁ s₂ Q) :
    (∃ a s₁' s₂', p.run s₁ = (.ok a, s₁') ∧ p.run s₂ = (.ok a, s₂') ∧ Q a s₁' s₂') ∨
      ∃ e s₁' s₂', p.run s₁ = (.error e, s₁') ∧ p.run s₂ = (.error e, s₂') := by
  unfold Together at h
  split at h
  next a s₁' b s₂' h₁ h₂ =>
    obtain ⟨rfl, hQ⟩ := h
    exact Or.inl ⟨a, s₁', s₂', h₁, h₂, hQ⟩
  next e s₁' e' s₂' h₁ h₂ =>
    subst h
    exact Or.inr ⟨e, s₁', s₂', h₁, h₂⟩
  next => exact h.elim
  next => exact h.elim

theorem Together.mono (h : Together p s₁ s₂ Q) (hQ : ∀ a s₁' s₂', Q a s₁' s₂' → Q' a s₁' s₂') :
    Together p s₁ s₂ Q' := by
  rcases h.cases with ⟨a, s₁', s₂', h₁, h₂, h⟩ | ⟨e, s₁', s₂', h₁, h₂⟩
  · exact together_of_ok h₁ h₂ (hQ a s₁' s₂' h)
  · exact together_of_error h₁ h₂

theorem Together.bind (h : Together p s₁ s₂ Q)
    (hf : ∀ a s₁' s₂', Q a s₁' s₂' → Together (f a) s₁' s₂' R) :
    Together (p >>= f) s₁ s₂ R := by
  rcases h.cases with ⟨a, s₁', s₂', h₁, h₂, h⟩ | ⟨e, s₁', s₂', h₁, h₂⟩
  · unfold Together
    rw [run_bind_ok h₁, run_bind_ok h₂]
    exact hf a s₁' s₂' h
  · have hrun₁ : (p >>= f).run s₁ = (.error e, s₁') := by rw [run_bind, h₁]
    have hrun₂ : (p >>= f).run s₂ = (.error e, s₂') := by rw [run_bind, h₂]
    exact together_of_error hrun₁ hrun₂

theorem Together.and (h : Together p s₁ s₂ Q) (hP : Runs p s₁ E P) :
    Together p s₁ s₂ fun a s₁' s₂' => P a s₁' ∧ Q a s₁' s₂' := by
  rcases h.cases with ⟨a, s₁', s₂', h₁, h₂, h⟩ | ⟨e, s₁', s₂', h₁, h₂⟩
  · exact together_of_ok h₁ h₂ ⟨hP.ok h₁, h⟩
  · exact together_of_error h₁ h₂

theorem Together.ok (h : Together p s₁ s₂ Q) (hrun : p.run s₁ = (.ok a, s₁')) :
    ∃ s₂', p.run s₂ = (.ok a, s₂') ∧ Q a s₁' s₂' := by
  rcases h.cases with ⟨b, t₁, s₂', h₁, h₂, h⟩ | ⟨e, t₁, s₂', h₁, -⟩
  · obtain ⟨⟨⟩, rfl⟩ := Prod.mk.inj (h₁.symm.trans hrun)
    exact ⟨s₂', h₂, h⟩
  · rw [h₁] at hrun
    cases hrun

end LabKernel.PairedRuns
