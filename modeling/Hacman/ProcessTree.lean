import Mathlib.Logic.Function.Basic
import Mathlib.Tactic.SplitIfs

/-!
# Process trees

A table of parents, with the three things that happen to it: a process is born under a
live parent, the children of an ending process go to process 1, and an ended process is
buried. Parents only ever change to process 1, so a chain of ancestors that avoids it was
the same chain for as long as its first process has been there.
-/

namespace ProcessTree

/-- The parent of each process that has not been buried. -/
abbrev Tree := Nat → Option Nat

def Tree.birth (t : Tree) (x y : Nat) : Tree := Function.update t x (some y)

def Tree.orphan (t : Tree) (x : Nat) : Tree := fun z => if t z = some x then some 1 else t z

def Tree.bury (t : Tree) (x : Nat) : Tree := Function.update t x none

def Tree.ancestor (t : Tree) (x : Nat) : Nat → Option Nat
  | 0 => some x
  | n + 1 => (t.ancestor x n).bind t

theorem ancestor_succ (t : Tree) (x n : Nat) : t.ancestor x (n + 1) = (t x).bind fun y =>
  t.ancestor y n := by
  induction n with
  | zero => cases h : t x <;> simp [Tree.ancestor, h]
  | succ n ih =>
    rw [Tree.ancestor, ih]
    cases t x <;> rfl

section Updates
variable (t : Tree) {x y z : Nat}

@[simp] theorem birth_self : t.birth x y x = some y := Function.update_self ..

theorem birth_of_ne (h : z ≠ x) : t.birth x y z = t z := Function.update_of_ne h ..

@[simp] theorem bury_self : t.bury x x = none := by simp [Tree.bury]

theorem bury_of_ne (h : z ≠ x) : t.bury x z = t z := Function.update_of_ne h ..

end Updates

/-- Everything hangs below process 1. -/
structure Rooted (t : Tree) : Prop where
  zero : t 0 = none
  init : t 1 = some 0
  parent : ∀ x y, x ≠ 1 → t x = some y → t y ≠ none

section Rooted
variable {t : Tree} {x y : Nat}

theorem Rooted.ne_zero (h : Rooted t) (hx : t x ≠ none) : x ≠ 0 := by
  rintro rfl
  exact hx h.zero

theorem Rooted.ne_init (h : Rooted t) (hx : t x = none) : x ≠ 1 := by
  rintro rfl
  rw [h.init] at hx
  cases hx

theorem Rooted.birth (h : Rooted t) (hx : t x = none) (h₀ : x ≠ 0) (hy : t y ≠ none) :
    Rooted (t.birth x y) := by
  have hold : ∀ z, z ≠ x → t.birth x y z = t z := fun z hz => birth_of_ne t hz
  have halive : ∀ z, t z ≠ none → t.birth x y z ≠ none := by
    intro z hz
    rw [hold z (fun he => hz (he ▸ hx))]
    exact hz
  refine ⟨(hold 0 h₀.symm).trans h.zero, (hold 1 (h.ne_init hx).symm).trans h.init, ?_⟩
  intro z w hz hw
  by_cases hzx : z = x
  · rw [hzx] at hw
    exact halive w (Option.some.inj ((birth_self t).symm.trans hw) ▸ hy)
  · rw [hold z hzx] at hw
    exact halive w (h.parent z w hz hw)

theorem orphan_ne_none {z : Nat} (hz : t z ≠ none) : t.orphan x z ≠ none := by
  unfold Tree.orphan
  split_ifs
  · exact Option.some_ne_none 1
  · exact hz

theorem Rooted.orphan (h : Rooted t) (hx : x ≠ 0) : Rooted (t.orphan x) := by
  have hinit : t 1 ≠ none := by
    rw [h.init]
    exact Option.some_ne_none 0
  refine ⟨?_, ?_, ?_⟩
  · rw [Tree.orphan, h.zero]
    rfl
  · rw [Tree.orphan, h.init, if_neg (fun he => hx (Option.some.inj he).symm)]
  · intro z w hz hw
    unfold Tree.orphan at hw
    split_ifs at hw with hc
    · exact Option.some.inj hw ▸ orphan_ne_none hinit
    · exact orphan_ne_none (h.parent z w hz hw)

theorem Rooted.bury (h : Rooted t) (hx : x ≠ 1) (hleaf : ∀ z, t z ≠ some x) :
    Rooted (t.bury x) := by
  have hold : ∀ z, z ≠ x → t.bury x z = t z := fun z hz => bury_of_ne t hz
  refine ⟨?_, (hold 1 hx.symm).trans h.init, ?_⟩
  · by_cases h₀ : 0 = x
    · rw [← h₀]
      exact bury_self t
    · exact (hold 0 h₀).trans h.zero
  · intro z w hz hw
    have hzx : z ≠ x := by
      rintro rfl
      rw [bury_self] at hw
      cases hw
    rw [hold z hzx] at hw
    rw [hold w (fun he => hleaf z (he ▸ hw))]
    exact h.parent z w hz hw

end Rooted

section Chain
variable {t : Tree} {up : Nat → Nat} {n x y : Nat}

def Chain (t : Tree) (up : Nat → Nat) (n : Nat) : Prop := ∀ j ≤ n, t (up j) = some (up (j + 1))

theorem Chain.ne_init (h : Chain t up n) (hr : Rooted t) (hlast : t (up (n + 1)) ≠ none) :
    ∀ j ≤ n, up j ≠ 1 := by
  intro j hj hup
  have hnext : up (j + 1) = 0 := by
    have hj' := h j hj
    rw [hup, hr.init] at hj'
    exact (Option.some.inj hj').symm
  rcases Nat.lt_or_ge j n with hlt | hge
  · have habove := h (j + 1) hlt
    rw [hnext, hr.zero] at habove
    cases habove
  · rw [Nat.le_antisymm hj hge] at hnext
    exact hlast (hnext ▸ hr.zero)

theorem Chain.of_birth (h : Chain (t.birth x y) up n) (hr : Rooted t) (hx : t x = none)
    (h₀ : t (up 0) ≠ none) (hinit : ∀ j ≤ n, up j ≠ 1) : Chain t up n := by
  have hold : ∀ j ≤ n, t (up j) ≠ none → t (up j) = some (up (j + 1)) := by
    intro j hj halive
    have hne : up j ≠ x := by
      intro he
      rw [he] at halive
      exact halive hx
    rw [← h j hj, birth_of_ne t hne]
  have halive : ∀ j ≤ n, t (up j) ≠ none := by
    intro j
    induction j with
    | zero => exact fun _ => h₀
    | succ j ih =>
      intro hj
      have hle : j ≤ n := Nat.le_of_succ_le hj
      exact hr.parent _ _ (hinit j hle) (hold j hle (ih hle))
  exact fun j hj => hold j hj (halive j hj)

theorem Chain.of_orphan (h : Chain (t.orphan x) up n) (hinit : ∀ j ≤ n, up (j + 1) ≠ 1) :
    Chain t up n := by
  intro j hj
  have hj' := h j hj
  unfold Tree.orphan at hj'
  split_ifs at hj'
  · exact absurd (Option.some.inj hj').symm (hinit j hj)
  · exact hj'

theorem Chain.of_bury (h : Chain (t.bury x) up n) : Chain t up n := by
  intro j hj
  have hj' := h j hj
  by_cases hx : up j = x
  · rw [hx, bury_self] at hj'
    cases hj'
  · rwa [bury_of_ne t hx] at hj'

theorem exists_chain {q : Nat} (h : t.ancestor x (n + 1) = some q) :
    ∃ up, up 0 = x ∧ up (n + 1) = q ∧ t.ancestor x n = some (up n) ∧ Chain t up n := by
  have hbelow : ∀ m, t.ancestor x (m + 1) ≠ none → t.ancestor x m ≠ none := by
    intro m hm he
    rw [Tree.ancestor, he] at hm
    exact hm rfl
  have hall : ∀ k j, t.ancestor x (j + k) ≠ none → t.ancestor x j ≠ none := by
    intro k
    induction k with
    | zero => exact fun j hj => hj
    | succ k ih => exact fun j hj => ih j (hbelow _ hj)
  have hsome : ∀ j ≤ n + 1, t.ancestor x j = some ((t.ancestor x j).getD 0) := by
    intro j hj
    have hne : t.ancestor x j ≠ none := by
      apply hall (n + 1 - j)
      rw [Nat.add_sub_cancel' hj, h]
      exact Option.some_ne_none q
    obtain ⟨y, hy⟩ := Option.ne_none_iff_exists'.mp hne
    rw [hy]
    rfl
  have hlast : (t.ancestor x (n + 1)).getD 0 = q := by rw [h, Option.getD_some]
  refine ⟨fun j => (t.ancestor x j).getD 0, rfl, hlast, hsome n n.le_succ, ?_⟩
  intro j hj
  have hstep := hsome (j + 1) (Nat.succ_le_succ hj)
  rw [← hstep, Tree.ancestor, hsome j (Nat.le_succ_of_le hj)]
  rfl

/-- What every process inherits from its parent it inherits from all its ancestors. -/
theorem ancestor_inherits {α : Type} {f : Nat → List α} (hf : ∀ x y, t x = some y → f y <:+ f x)
    (h : t.ancestor x n = some y) : f y <:+ f x := by
  induction n generalizing y with
  | zero =>
    cases h
    exact List.suffix_refl _
  | succ n ih =>
    obtain ⟨z, hz, hy⟩ := Option.bind_eq_some_iff.mp h
    exact (hf z y hy).trans (ih hz)

end Chain

end ProcessTree
