import Mathlib.Logic.Relation
import Mathlib.Logic.Function.Basic

/-!
# Directories and what is below them

Objects that directories hold by name. An object can stand in several directories, and one that
has been moved is below its new place only. `Sealed` is the invariant of changes that stay outside
a set of objects: the set keeps what it was, and no way from outside leads into it.
-/

namespace Directories
variable {O N A : Type}

inductive Object (O N A : Type)
  | dir (entries : N → Option O)
  | leaf (content : A)

abbrev Files (O N A : Type) := O → Option (Object O N A)

section Ways

def Object.entry : Object O N A → N → Option O
  | .dir entries, n => entries n
  | .leaf _, _ => none

def entry (s : Files O N A) (d : O) (n : N) : Option O := (s d).bind (·.entry n)

def walk (s : Files O N A) (d : O) (ns : List N) : Option O := ns.foldlM (entry s) d

def Below (s : Files O N A) (x o : O) : Prop :=
  Relation.ReflTransGen (fun d y => ∃ n, entry s d n = some y) o x

variable {s : Files O N A} {d x y o : O} {n : N}

theorem walk_cons {ns : List N} : walk s d (n :: ns) = (entry s d n).bind (walk s · ns) := rfl

theorem entry_dir {entries : N → Option O} (hd : s d = some (.dir entries)) :
    entry s d n = entries n := by
  rw [entry, hd]
  rfl

theorem Below.head (hn : entry s d n = some y) (hx : Below s x y) : Below s x d :=
  Relation.ReflTransGen.head ⟨n, hn⟩ hx

end Ways

section Sealed
variable {s₀ s : Files O N A} {P : Set O} {d x o : O}

/-- `P` is as it was, and what is outside holds nothing of it. -/
structure Sealed (s₀ : Files O N A) (P : Set O) (s : Files O N A) : Prop where
  kept : ∀ x ∈ P, s x = s₀ x
  closed : ∀ d ∉ P, ∀ n y, entry s d n = some y → y ∉ P

theorem Sealed.below (h : Sealed s₀ P s) (ho : o ∉ P) (hx : Below s x o) : x ∉ P := by
  induction hx with
  | refl => exact ho
  | tail _ hstep ih =>
    obtain ⟨n, hn⟩ := hstep
    exact h.closed _ ih n _ hn

/-- A way into `P` through objects of `P` leads where it led. -/
theorem Sealed.walk (h : Sealed s₀ P s) (hP : ∀ d n y, entry s₀ d n = some y → y ∈ P → d ∈ P)
    {ns : List N} (hwalk : walk s₀ d ns = some x) (hx : x ∈ P) : walk s d ns = some x ∧ d ∈ P := by
  induction ns generalizing d with
  | nil =>
    obtain rfl := Option.some.inj hwalk
    exact ⟨rfl, hx⟩
  | cons n ns ih =>
    obtain ⟨y, hn, hrest⟩ := Option.bind_eq_some_iff.mp (walk_cons.symm.trans hwalk)
    obtain ⟨hsame, hy⟩ := ih hrest
    have hd := hP d n y hn hy
    have hentry : entry s d n = some y := by
      rw [entry, h.kept d hd]
      exact hn
    exact ⟨by rw [walk_cons, hentry]; exact hsame, hd⟩

end Sealed

section Changes
variable [DecidableEq O] {s₀ s : Files O N A} {P : Set O} {d x : O} {n : N}

def setEntry [DecidableEq N] (s : Files O N A) (d : O) (n : N) (y : Option O) : Files O N A :=
  match s d with
  | some (.dir entries) => Function.update s d (some (.dir (Function.update entries n y)))
  | _ => s

theorem Sealed.update (h : Sealed s₀ P s) (hx : x ∉ P) (obj : Object O N A)
    (hobj : ∀ n y, obj.entry n = some y → y ∉ P) :
    Sealed s₀ P (Function.update s x (some obj)) where
  kept y hy := by
    have hyx : y ≠ x := fun hyx => hx (hyx ▸ hy)
    rw [Function.update_of_ne hyx]
    exact h.kept y hy
  closed d hd n y hn := by
    by_cases hdx : d = x
    · subst hdx
      rw [entry, Function.update_self] at hn
      exact hobj n y hn
    · rw [entry, Function.update_of_ne hdx] at hn
      exact h.closed d hd n y hn

theorem Sealed.setEntry [DecidableEq N] (h : Sealed s₀ P s) (hd : d ∉ P) {v : Option O}
    (hv : ∀ y, v = some y → y ∉ P) :
    Sealed s₀ P (setEntry s d n v) := by
  unfold Directories.setEntry
  split
  · rename_i entries hdir
    refine h.update hd _ fun m y hm => ?_
    by_cases hmn : m = n
    · subst hmn
      rw [Object.entry, Function.update_self] at hm
      exact hv y hm
    · rw [Object.entry, Function.update_of_ne hmn] at hm
      exact h.closed d hd m y ((entry_dir hdir).trans hm)
  · exact h

theorem Sealed.clearEntry [DecidableEq N] (h : Sealed s₀ P s) (hd : d ∉ P) :
    Sealed s₀ P (Directories.setEntry s d n none) :=
  h.setEntry hd fun _ hv => nomatch hv

end Changes

end Directories
