/-!
Paths of labelled transition systems, and simulations between them.

Some labels of the first system may be hidden from the second one, which does
nothing then.
-/

namespace LabKernel.Simulation

universe u v

variable {State State' : Type u} {Event Label : Type v}

/-- The labels of a path from one state to another. -/
inductive Path (step : State → Label → State → Prop) : State → List Label → State → Prop
  | nil {s : State} : Path step s [] s
  | cons {s s₁ s' : State} {l : Label} {ls : List Label} : step s l s₁ → Path step s₁ ls s' →
      Path step s (l :: ls) s'

variable {step : State → Event → State → Prop} {step' : State' → Label → State' → Prop}
  {shown : Event → Option Label} {R : State → State' → Prop} {s s₁ s₂ : State} {a : State'}
  {es es' : List Event}

theorem Path.single {e : Event} (h : step s e s₁) : Path step s [e] s₁ := .cons h .nil

theorem Path.append (h : Path step s es s₁) (h' : Path step s₁ es' s₂) :
    Path step s (es ++ es') s₂ := by
  induction h with
  | nil => exact h'
  | cons hstep _ ih => exact .cons hstep (ih h')

theorem Path.split (h : Path step s (es ++ es') s₂) :
    ∃ s₁, Path step s es s₁ ∧ Path step s₁ es' s₂ := by
  induction es generalizing s with
  | nil => exact ⟨s, .nil, h⟩
  | cons e es ih =>
      cases h with
      | cons hstep hrest =>
          obtain ⟨s₁, hfirst, hsecond⟩ := ih hrest
          exact ⟨s₁, .cons hstep hfirst, hsecond⟩

/-- A property that each step keeps holds at the end of a path. -/
theorem Path.invariant {P : State → Prop} (hstep : ∀ s e s', P s → step s e s' → P s')
    (h : Path step s es s₁) (hs : P s) : P s₁ := by
  induction h with
  | nil => exact hs
  | cons hone _ ih => exact ih (hstep _ _ _ hs hone)

/-- Each step of the first system is a step of the second one with the label
shown, or none if there is no such label. -/
structure Simulates (step : State → Event → State → Prop) (step' : State' → Label → State' → Prop)
    (shown : Event → Option Label) (R : State → State' → Prop) : Prop where
  visible : ∀ {s a e l s₁}, R s a → step s e s₁ → shown e = some l → ∃ a₁, step' a l a₁ ∧ R s₁ a₁
  hidden : ∀ {s a e s₁}, R s a → step s e s₁ → shown e = none → R s₁ a

theorem Path.simulates (h : Path step s es s₁) (hsim : Simulates step step' shown R) (hR : R s a) :
    ∃ a₁, Path step' a (es.filterMap shown) a₁ ∧ R s₁ a₁ := by
  induction h generalizing a with
  | nil => exact ⟨a, .nil, hR⟩
  | @cons s s₁ s₂ e es hone _ ih =>
      cases he : shown e with
      | none =>
          rw [List.filterMap_cons_none he]
          exact ih (hsim.hidden hR hone he)
      | some l =>
          obtain ⟨a₁, hone', hR₁⟩ := hsim.visible hR hone he
          obtain ⟨a₂, hpath, hR₂⟩ := ih hR₁
          rw [List.filterMap_cons_some he]
          exact ⟨a₂, .cons hone' hpath, hR₂⟩

theorem Path.same {step' : State' → Event → State' → Prop} (h : Path step s es s₁)
    (hstep : ∀ {s a e s₁}, R s a → step s e s₁ → ∃ a₁, step' a e a₁ ∧ R s₁ a₁) (hR : R s a) :
    ∃ a₁, Path step' a es a₁ ∧ R s₁ a₁ := by
  have hsim : Simulates step step' some R :=
    ⟨fun hR hone he => by
      cases he
      exact hstep hR hone, fun _ _ he => by cases he⟩
  obtain ⟨a₁, hpath, hR₁⟩ := h.simulates hsim hR
  rw [List.filterMap_some] at hpath
  exact ⟨a₁, hpath, hR₁⟩

end LabKernel.Simulation
