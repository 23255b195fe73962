import Mathlib.Data.List.Infix
import Mathlib.Data.Set.Basic

/-!
# Layers of access rules

A layer names the rights that it handles and grants some of them below certain objects. A domain
is a stack of layers and permits what all of them permit; what it does not handle stays as it was.
A process inherits its domain and can only put further layers on top, so what a domain keeps from
one process it keeps from everything that this process starts.
-/

namespace Layers
variable {O R : Type}

structure Layer (O R : Type) where
  handled : Set R
  rules : List (O × Set R)

abbrev Domain (O R : Type) := List (Layer O R)

section Permits
variable (below : O → O → Prop)

def Layer.Grants (l : Layer O R) (x : O) (r : R) : Prop :=
  ∃ rule ∈ l.rules, below x rule.1 ∧ r ∈ rule.2

def Layer.Permits (l : Layer O R) (x : O) (r : R) : Prop := r ∈ l.handled → l.Grants below x r

def Permits (d : Domain O R) (x : O) (r : R) : Prop := ∀ l ∈ d, l.Permits below x r

variable {below} {l : Layer O R} {d d' : Domain O R} {x y : O} {r : R}

@[simp] theorem permits_nil : Permits below [] x r := nofun

@[simp] theorem permits_cons :
    Permits below (l :: d) x r ↔ l.Permits below x r ∧ Permits below d x r :=
  List.forall_mem_cons

theorem Permits.of_suffix (h : Permits below d' x r) (hd : d <:+ d') : Permits below d x r :=
  fun l hl => h l (hd.subset hl)

theorem Layer.Grants.descend [IsTrans O below] (h : l.Grants below x r) (hy : below y x) :
    l.Grants below y r := by
  obtain ⟨rule, hrule, hx, hr⟩ := h
  exact ⟨rule, hrule, IsTrans.trans _ _ _ hy hx, hr⟩

theorem Permits.descend [IsTrans O below] (h : Permits below d x r) (hy : below y x) :
    Permits below d y r :=
  fun l hl hr => (h l hl hr).descend hy

end Permits

section Runs
variable {S : Type} {step : Domain O R → S → S → Prop} {d : Domain O R} {s s' : S}

/-- Steps of a process and of what it starts: each is made under a domain that extends the first. -/
inductive Run (step : Domain O R → S → S → Prop) (d : Domain O R) : S → S → Prop
  | refl (s : S) : Run step d s s
  | tail {s s' s'' : S} {d' : Domain O R} (h : Run step d s s') (hd : d <:+ d')
    (hs : step d' s' s'') : Run step d s s''

theorem Run.invariant {I : S → Prop} (h : Run step d s s') (h₀ : I s)
    (hstep : ∀ d' s s', d <:+ d' → step d' s s' → I s → I s') : I s' := by
  induction h with
  | refl => exact h₀
  | tail _ hd hs ih => exact hstep _ _ _ hd hs ih

end Runs

end Layers
