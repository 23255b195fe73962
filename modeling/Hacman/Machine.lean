import Mathlib.Order.Basic

/-!
# Machines with labelled steps

A machine is a partial function from a state and an event to a state. A state is reached
along a list of events; a guard on the steps restricts the runs, and what every guarded
step preserves holds in every state that guarded runs reach.
-/

namespace Machine

variable {S E : Type} (step : S → E → Option S)

inductive Reach (s₀ : S) : S → Prop
  | refl : Reach s₀ s₀
  | tail {s s' : S} {e : E} : Reach s₀ s → step s e = some s' → Reach s₀ s'

def guarded (ok : S → E → Bool) (s : S) (e : E) : Option S :=
  if ok s e then step s e else none

def run : S → List E → Option S
  | s, [] => some s
  | s, e :: es => (step s e).bind fun s' => run s' es

variable {step} {s₀ s s' : S} {e : E} {ok : S → E → Bool}

theorem guarded_eq_some : guarded step ok s e = some s' ↔ ok s e = true ∧ step s e = some s' := by
  unfold guarded
  split_ifs with h
  · simp [h]
  · simp [h]

theorem Reach.invariant {I : S → Prop} (h : Reach step s₀ s) (h₀ : I s₀)
    (hstep : ∀ s e s', I s → step s e = some s' → I s') : I s := by
  induction h with
  | refl => exact h₀
  | tail _ hs ih => exact hstep _ _ _ ih hs

theorem Reach.run (h : Reach step s₀ s) {es : List E} (hes : run step s es = some s') :
    Reach step s₀ s' := by
  induction es generalizing s with
  | nil =>
    obtain rfl := Option.some.inj hes
    exact h
  | cons e es ih =>
    obtain ⟨s₁, hs₁, hrest⟩ := Option.bind_eq_some_iff.mp hes
    exact ih (h.tail hs₁) hrest

theorem Reach.trans (h : Reach step s₀ s) (h' : Reach step s s') : Reach step s₀ s' := by
  induction h' with
  | refl => exact h
  | tail _ hs ih => exact ih.tail hs

/-- What follows each step follows the whole run. -/
theorem Reach.simulated {T F : Type} {step' : T → F → Option T} {t₀ : T} {R : S → T → Prop}
    (h : Reach step s₀ s) (h₀ : R s₀ t₀)
    (hstep : ∀ s t e s', R s t → step s e = some s' → ∃ t', Reach step' t t' ∧ R s' t') :
    ∃ t, Reach step' t₀ t ∧ R s t := by
  induction h with
  | refl => exact ⟨t₀, .refl, h₀⟩
  | tail _ hs ih =>
    obtain ⟨t, ht, hR⟩ := ih
    obtain ⟨t', ht', hR'⟩ := hstep _ _ _ _ hR hs
    exact ⟨t', ht.trans ht', hR'⟩

end Machine
