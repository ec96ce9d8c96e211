import Mathlib.Logic.Relation

/-!
# Machines on a growing input

A deterministic machine reads an input that grows. More input never takes a step back: what the machine did on the
shorter input is the start of what it does on the longer one. So where it comes to rest on the whole input does not
depend on the pieces in which the input came (`Settles.resume`, `Settles.unique`).
-/

namespace LibtorrentSN

namespace Growing

variable {β σ : Type*}

/-- A longer input has every step of a shorter one. -/
def Monotone (le : β → β → Prop) (step : β → σ → Option σ) : Prop :=
  ∀ ⦃b b' s t⦄, le b b' → step b s = some t → step b' s = some t

/-- The machine goes from one state to another on an input. -/
def Run (step : β → σ → Option σ) (b : β) : σ → σ → Prop :=
  Relation.ReflTransGen fun s t => step b s = some t

/-- The machine goes to a state from where the input has no step for it. -/
structure Settles (step : β → σ → Option σ) (b : β) (s t : σ) : Prop where
  run : Run step b s t
  rest : step b t = none

variable {le : β → β → Prop} {step : β → σ → Option σ} {b b' : β} {s t u : σ}

theorem Run.mono (hm : Monotone le step) (hb : le b b') (h : Run step b s t) : Run step b' s t :=
  Relation.ReflTransGen.mono (fun _ _ hst => hm hb hst) _ _ h

/-- A run to a state at rest passes every state of another run from the same start. -/
theorem Run.passes (hu : Run step b s u) (h : Settles step b s t) : Run step b u t := by
  have hright : Relator.RightUnique fun s t => step b s = some t :=
    fun _ _ _ h₁ h₂ => Option.some.inj (h₁.symm.trans h₂)
  obtain hut | htu := Relation.ReflTransGen.total_of_right_unique hright hu h.run
  · exact hut
  · obtain rfl | ⟨v, htv, _⟩ := Relation.ReflTransGen.cases_head htu
    · exact .refl
    · rw [h.rest] at htv
      cases htv

namespace Settles

theorem refl (h : step b s = none) : Settles step b s s := ⟨.refl, h⟩

theorem head (hst : step b s = some t) (h : Settles step b t u) : Settles step b s u :=
  ⟨.head hst h.run, h.rest⟩

theorem after (hst : Run step b s t) (h : Settles step b t u) : Settles step b s u :=
  ⟨hst.trans h.run, h.rest⟩

theorem unique (h : Settles step b s t) (h' : Settles step b s u) : t = u := by
  obtain rfl | ⟨v, hv, _⟩ := Relation.ReflTransGen.cases_head (h.run.passes h')
  · rfl
  · rw [h.rest] at hv
    cases hv

/-- To settle on a part of the input first makes no difference. -/
theorem resume (hm : Monotone le step) (hb : le b b') (h : Settles step b s t) (h' : Settles step b' t u) :
    Settles step b' s u :=
  .after (h.run.mono hm hb) h'

end Settles

end Growing

end LibtorrentSN
