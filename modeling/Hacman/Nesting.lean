import Hacman.ProcessTree
import Hacman.Requests
import Mathlib.Logic.Relation

/-!
# Nested setups

Setup scripts that run hacman again: a process tree below process 1, in which every
hacman runs `main` on its own slot, waits for its setup child, and shares the lock of the
slot with the others. A process waits for another one if the holder of the lock it blocks
on waits for a setup that the other one, itself blocked, is part of.
-/

namespace Hacman.Nesting
open Octets Interaction Main Requests ProcessTree

section Model

/-- A hacman has the rest of its run, and the setup child it waits for. Everything else
that runs is a script. -/
inductive Role
  | script
  | hacman (path : Bytes) (prog : P Outcome) (child : Option Nat)
  | ended

/-- `inside` is the slots whose setups a process runs in, from the innermost one. -/
structure World where
  tree : Tree
  role : Nat → Role
  inside : Nat → List Bytes
  locks : Bytes → Option Nat

def start : World where
  tree := fun x => if x = 1 then some 0 else none
  role := fun _ => .script
  inside := fun _ => []
  locks := fun _ => none

def runsSetup : Call → Bool
  | .command _ _ _ _ | .install _ _ _ _ _ _ => true
  | _ => false

variable (w : World)

def World.Free (path : Bytes) (y : Nat) : Prop := ∀ q, w.locks path = some q → q = y

def World.take (path : Bytes) (y : Nat) : Bytes → Option Nat :=
  Function.update w.locks path (some y)

def World.release (y : Nat) : Bytes → Option Nat :=
  fun path => if w.locks path = some y then none else w.locks path

def World.other (path : Bytes) (y : Nat) : Option Int :=
  match w.locks path with
  | none => none
  | some q => if q = y then none else some q

def World.ppid (m : Int) : Int :=
  match w.tree m.toNat with
  | none => -1
  | some q => q

/-- The kernel answers about locks and processes truthfully; everything else may answer
anything. -/
def Answers (y : Nat) (path : Bytes) (r : Call) (x : r.Answer)
    (locks : Bytes → Option Nat) : Prop :=
  match r, x with
  | .setlk, .ok => w.Free path y ∧ locks = w.take path y
  | .setlk, .busy => ¬ w.Free path y ∧ locks = w.locks
  | .setlk, .failed => False
  | .setlkw, none => w.Free path y ∧ locks = w.take path y
  | .getlk, x => x = w.other path y ∧ locks = w.locks
  | .getppid, x => x = w.ppid y ∧ locks = w.locks
  | .parentPid m, x => x = w.ppid m ∧ locks = w.locks
  | .closeLock, _ => locks = w.release y
  | _, _ => locks = w.locks

def World.spawn (x y : Nat) (inside : List Bytes) : World :=
  { w with
    tree := w.tree.birth x y
    role := Function.update w.role x .script
    inside := Function.update w.inside x inside }

def World.run (y : Nat) (path : Bytes) (prog : P Outcome) (child : Option Nat)
    (locks : Bytes → Option Nat) : World :=
  { w with role := Function.update w.role y (.hacman path prog child), locks := locks }

/-- Closing the lock file gives up the lock, at `exec` as well. -/
def World.handOff (y : Nat) : World :=
  { w with role := Function.update w.role y .script, locks := w.release y }

def World.finish (y : Nat) : World :=
  { w with tree := w.tree.orphan y, role := Function.update w.role y .ended }

/-- Whatever a process was, its lock goes first. -/
def World.exit (y : Nat) : World := (w.handOff y).finish y

def World.bury (x : Nat) : World := { w with tree := w.tree.bury x }

/-- `nests a b`: the setup of the project in slot `a` may run the one in slot `b`. -/
inductive Step (nests : Bytes → Bytes → Prop) : World → World → Prop
  | fork {w : World} {x y : Nat} : w.tree y ≠ none → w.role y = .script → x ≠ 0 →
      w.tree x = none → Step nests w (w.spawn x y (w.inside y))
  | exec {w : World} {y : Nat} {path : Bytes} (v : Invocation path) : w.tree y ≠ none → y ≠ 1 →
      w.role y = .script → (∀ a ∈ (w.inside y).head?, nests a path) →
      Step nests w (w.run y path v.prog none w.locks)
  | ask {w : World} {y : Nat} {path : Bytes} {r : Call} {k : r.Answer → P Outcome} {x : r.Answer}
      {locks : Bytes → Option Nat} : w.role y = .hacman path (.ask (S := calls) r k) none →
      Answers w y path r x locks → Step nests w (w.run y path (k x) none locks)
  | setUp {w : World} {y s : Nat} {path : Bytes} {r : Call} {k : r.Answer → P Outcome} :
      w.role y = .hacman path (.ask (S := calls) r k) none → runsSetup r = true → s ≠ 0 →
      w.tree s = none →
      Step nests w ((w.spawn s y (path :: w.inside y)).run y path (.ask (S := calls) r k)
        (some s) w.locks)
  | reap {w : World} {y s : Nat} {path : Bytes} {r : Call} {k : r.Answer → P Outcome}
      (x : r.Answer) : w.role y = .hacman path (.ask (S := calls) r k) (some s) →
        runsSetup r = true →
      w.role s = .ended → Step nests w ((w.run y path (k x) none w.locks).bury s)
  | wait {w : World} {x y : Nat} : w.role y = .script → w.tree x = some y → w.role x = .ended →
      Step nests w (w.bury x)
  | handOff {w : World} {y : Nat} {path : Bytes} :
      w.role y = .hacman path (.done .replaced) none → Step nests w (w.handOff y)
  | exit {w : World} {y : Nat} : w.tree y ≠ none → y ≠ 1 → w.role y ≠ .ended →
      Step nests w (w.exit y)

inductive Reach (nests : Bytes → Bytes → Prop) : World → Prop
  | start : Reach nests start
  | tail {w w' : World} : Reach nests w → Step nests w w' → Reach nests w'

def Blocked (p : Nat) (path : Bytes) : Prop :=
  ∃ prog q, w.role p = .hacman path prog none ∧ prog.pending = some .setlkw ∧
    w.locks path = some q ∧ q ≠ p

/-- `p` blocks on a lock whose holder waits for a setup that the blocked `p'` is part of. -/
def Waits (p p' : Nat) : Prop :=
  ∃ path q path' prog s n, Blocked w p path ∧ w.locks path = some q ∧
    w.role q = .hacman path' prog (some s) ∧ w.tree.ancestor p' n = some s ∧ ∃ at', Blocked w p' at'

end Model

section Refusal

/-- The holder of this slot's lock is the `n + 1`-st process above `p`, and waits for a
setup child on the way. -/
structure Above (w : World) (p : Nat) (path : Bytes) (n : Nat) (up : Nat → Nat) : Prop where
  bottom : up 0 = p
  chain : Chain w.tree up n
  waiting : ∃ path' prog, w.role (up (n + 1)) = .hacman path' prog (some (up n))
  holds : w.locks path = some (up (n + 1))
  near : n < 256

def below (up : Nat → Nat) (n : Nat) : Monitor calls where
  State := Unit
  assume _ r x :=
    match r, x with
    | .setlk, x => x = .busy
    | .getlk, x => x = some (up (n + 1) : Int)
    | .getppid, x => x = (up 1 : Int)
    | .parentPid m, x => ∀ j ≤ n, m = up j → x = (up (j + 1) : Int)
    | _, _ => True
  next _ _ _ := ()

abbrev Refuses {α : Type} (up : Nat → Nat) (n : Nat) (prog : P α) (R : α → Unit → Prop) : Prop :=
  prog.Safe (below up n).env (fun _ r => r ≠ .setlkw) R ()

variable {up : Nat → Nat} {n : Nat}

theorem only_refuses {α : Type} {prog : P α} (h : prog.Only fun r : Call => r ≠ .setlkw) :
    Refuses up n prog fun _ _ => True :=
  (h.safe (fun _ hr => hr) fun _ _ _ _ _ => rfl).mono fun _ _ _ => trivial

theorem isAncestorFrom_refuses (hpos : ∀ j ≤ n + 1, up j ≠ 0) (hinit : ∀ j ≤ n, up j ≠ 1)
    (fuel j : Nat) (hj : j ≤ n + 1) (hf : n + 1 - j < fuel) :
    Refuses up n (isAncestorFrom (up (n + 1)) fuel (up j)) fun found _ => found = true := by
  induction fuel generalizing j with
  | zero => exact absurd hf (Nat.not_lt_zero _)
  | succ fuel ih =>
    unfold isAncestorFrom
    have hj₀ := hpos j hj
    rw [if_neg (by omega)]
    by_cases hhere : (up j : Int) = up (n + 1)
    · rw [if_pos hhere]
      rfl
    · rw [if_neg hhere]
      have hlt : j ≤ n := by
        rcases Nat.lt_or_ge n j with hn | hn
        · exact absurd (congrArg (fun i => (up i : Int)) (Nat.le_antisymm hj hn)) hhere
        · exact hn
      have hj₁ := hinit j hlt
      rw [if_neg (by omega)]
      refine ⟨fun h => Call.noConfusion h, fun (parent : Int) q' hq => ?_⟩
      obtain rfl : parent = up (j + 1) := hq.1 j hlt rfl
      exact ih (j + 1) (by omega) (by omega)

variable (hpos : ∀ j ≤ n + 1, up j ≠ 0) (hinit : ∀ j ≤ n, up j ≠ 1) (hn : n < 256)
include hpos hinit hn

theorem heldByAncestor_refuses : Refuses up n heldByAncestor fun holder _ =>
  holder.isSome = true := by
  have hwalk : Refuses up n (isAncestor (up (n + 1))) fun found _ => found = true := by
    refine ⟨nofun, fun (parent : Int) _ hparent => ?_⟩
    obtain rfl : parent = (up 1 : Int) := hparent.1
    exact isAncestorFrom_refuses hpos hinit 256 1 (by omega) (by omega)
  refine ⟨nofun, fun (holder : Option Int) _ hholder => ?_⟩
  obtain rfl : holder = some (up (n + 1) : Int) := hholder.1
  refine hwalk.seq fun found _ hfound => ?_
  subst hfound
  exact rfl

theorem hmCacheLock_refuses (c : Slot) : Refuses up n (hmCacheLock c) fun locked _ =>
  locked = false := by
  refine ⟨nofun, fun (failed : Option Bytes) _ _ => ?_⟩
  cases failed with
  | some reason => exact ⟨nofun, fun _ _ _ => rfl⟩
  | none =>
    refine ⟨nofun, fun (got : SetLock) _ hgot => ?_⟩
    obtain rfl : got = .busy := hgot.1
    refine (heldByAncestor_refuses hpos hinit hn).seq fun holder _ hsome => ?_
    cases holder with
    | none => cases hsome
    | some holder => exact ⟨nofun, fun _ _ _ => ⟨nofun, fun _ _ _ => rfl⟩⟩

theorem slowPath_refuses (p : Project) (o : Opts) (c : Slot) (dir : Bytes) (r : Record)
    (now : Int) : Refuses up n (slowPath p o c dir r now) fun _ _ => True := by
  unfold slowPath
  split_ifs
  · apply only_refuses
    exact (@work_footprint False p o c dir false r now).mono fun r' hr he => by
      rw [he] at hr
      exact hr
  · refine (hmCacheLock_refuses hpos hinit hn c).seq fun locked _ hlocked => ?_
    subst hlocked
    trivial

/-- A run below the holder of its lock ends without waiting for it. -/
theorem act_refuses (p : Project) (o : Opts) (c : Slot) (dir : Bytes) :
    Refuses up n (act p o c dir) fun _ _ => True := by
  refine (only_refuses (loadRecord_only c nofun fun _ => nofun)).seq fun record _ _ => ?_
  cases record with
  | none => trivial
  | some r =>
    refine ⟨nofun, fun now _ _ => ?_⟩
    refine (only_refuses (isDue_only p o nofun r now (!execCheck p o))).seq fun decision _ _ => ?_
    cases decision with
    | due => exact slowPath_refuses hpos hinit hn p o c dir r now
    | wait wait =>
      change Refuses up n (if execCheck p o then _ else _ : P Outcome) _
      split_ifs
      · refine ⟨nofun, fun (failed : Option Bytes) _ _ => ?_⟩
        cases failed with
        | none => trivial
        | some reason =>
          refine ⟨nofun, fun (there : Bool) _ _ => ?_⟩
          cases there with
          | false => exact slowPath_refuses hpos hinit hn p o c dir r now
          | true => exact ⟨nofun, fun _ _ _ => trivial⟩
      · exact (only_refuses (reportSkip_only p o (fun _ => nofun) wait)).seq fun _ _ _ =>
          only_refuses (finish_only p o (fun _ => nofun) (fun _ => nofun) HM_EXIT_OK)

end Refusal

section Invariant
variable (nests : Bytes → Bytes → Prop)

def World.stack (w : World) (x : Nat) : List Bytes :=
  match w.role x with
  | .hacman path _ _ => path :: w.inside x
  | _ => w.inside x

def Within (a b : Bytes) : Prop := Relation.TransGen nests b a

structure Sound (w : World) : Prop where
  rooted : Rooted w.tree
  init : w.role 1 = .script
  top : w.inside 0 = [] ∧ w.inside 1 = []
  alive : ∀ x path prog child, w.role x = .hacman path prog child → w.tree x ≠ none
  parent : ∀ x y, x ≠ 1 → w.tree x = some y → w.role y ≠ .ended
  child : ∀ q path prog s, w.role q = .hacman path prog (some s) →
    w.tree s = some q ∧ w.inside s = path :: w.inside q
  holder : ∀ path q, w.locks path = some q → ∃ prog child, w.role q = .hacman path prog child
  inherits : ∀ x y, w.tree x = some y → w.inside y <:+ w.inside x
  nested : ∀ x, (w.stack x).Pairwise (Within nests)
  refuses : ∀ p path prog child, w.role p = .hacman path prog child →
    ∀ n up, Above w p path n up → Refuses up n prog fun _ _ => True

variable {nests} {w : World}

theorem Sound.below (h : Sound nests w) {p : Nat} {path : Bytes} {n : Nat} {up : Nat → Nat}
    (ha : Above w p path n up) :
    (∀ j ≤ n + 1, w.tree (up j) ≠ none) ∧ (∀ j ≤ n, up j ≠ 1) := by
  obtain ⟨path', prog, hlast⟩ := ha.waiting
  have halive := h.alive _ _ _ _ hlast
  refine ⟨fun j hj => ?_, ha.chain.ne_init h.rooted halive⟩
  rcases Nat.lt_or_ge n j with hn | hn
  · rwa [Nat.le_antisymm hj hn]
  · rw [ha.chain j hn]
    exact Option.some_ne_none _

theorem start_sound : Sound nests start where
  rooted := by
    refine ⟨rfl, rfl, fun x y hx hy => ?_⟩
    simp [start, hx] at hy
  init := rfl
  top := ⟨rfl, rfl⟩
  alive := fun _ _ _ _ h => nomatch h
  parent := fun _ _ _ _ => nofun
  child := fun _ _ _ _ h => nomatch h
  holder := fun _ _ h => nomatch h
  inherits := fun _ _ _ => List.suffix_refl _
  nested := fun _ => List.Pairwise.nil
  refuses := fun _ _ _ _ h => nomatch h

theorem stack_of_script {x : Nat} (h : w.role x = .script) : w.stack x = w.inside x := by
  rw [World.stack, h]

theorem stack_of_hacman {x : Nat} {path : Bytes} {prog : P Outcome} {child : Option Nat}
    (h : w.role x = .hacman path prog child) : w.stack x = path :: w.inside x := by
  rw [World.stack, h]

theorem inside_suffix (w : World) (x : Nat) : w.inside x <:+ w.stack x := by
  unfold World.stack
  split
  · exact List.suffix_cons _ _
  · exact List.suffix_refl _

theorem Sound.spawn {x y : Nat} {inside : List Bytes} (h : Sound nests w) (hx : w.tree x = none)
    (hx₀ : x ≠ 0) (hy : w.tree y ≠ none) (hrole : w.role y ≠ .ended)
    (hsuffix : w.inside y <:+ inside) (hpair : inside.Pairwise (Within nests)) :
    Sound nests (w.spawn x y inside) := by
  have hx₁ : x ≠ 1 := h.rooted.ne_init hx
  have hyx : y ≠ x := fun he => hy (he ▸ hx)
  have htree : ∀ z, z ≠ x → (w.spawn x y inside).tree z = w.tree z := fun z hz => birth_of_ne _ hz
  have hroles : ∀ z, z ≠ x → (w.spawn x y inside).role z = w.role z :=
    fun z hz => Function.update_of_ne hz ..
  have hinside : ∀ z, z ≠ x → (w.spawn x y inside).inside z = w.inside z :=
    fun z hz => Function.update_of_ne hz ..
  have hnew : (w.spawn x y inside).role x = .script := Function.update_self ..
  have hold : ∀ z path prog child, (w.spawn x y inside).role z = .hacman path prog child →
      z ≠ x ∧ w.role z = .hacman path prog child := by
    intro z path prog child hz
    have hne : z ≠ x := by
      rintro rfl
      rw [hnew] at hz
      cases hz
    exact ⟨hne, (hroles z hne).symm.trans hz⟩
  refine ⟨h.rooted.birth hx hx₀ hy, (hroles 1 hx₁.symm).trans h.init,
    ⟨(hinside 0 hx₀.symm).trans h.top.1, (hinside 1 hx₁.symm).trans h.top.2⟩, ?_, ?_, ?_,
    ?_, ?_, ?_, ?_⟩
  · intro z path prog child hz
    obtain ⟨hne, hz⟩ := hold z path prog child hz
    rw [htree z hne]
    exact h.alive z path prog child hz
  · intro z z' hz hp
    have hz' : z' ≠ x := by
      rintro rfl
      by_cases hzx : z = z'
      · rw [hzx] at hp
        exact hyx (Option.some.inj ((birth_self w.tree).symm.trans hp))
      · rw [htree z hzx] at hp
        exact h.rooted.parent z z' hz hp hx
    rw [hroles z' hz']
    by_cases hzx : z = x
    · rw [hzx] at hp
      rwa [← Option.some.inj ((birth_self w.tree).symm.trans hp)]
    · rw [htree z hzx] at hp
      exact h.parent z z' hz hp
  · intro q path prog s hq
    obtain ⟨hne, hq⟩ := hold q path prog (some s) hq
    obtain ⟨hs, hin⟩ := h.child q path prog s hq
    have hsx : s ≠ x := by
      rintro rfl
      rw [hx] at hs
      cases hs
    rw [htree s hsx, hinside s hsx, hinside q hne]
    exact ⟨hs, hin⟩
  · intro path q hq
    obtain ⟨prog, child, hr⟩ := h.holder path q hq
    have hne : q ≠ x := fun he => h.alive q path prog child hr (he ▸ hx)
    exact ⟨prog, child, (hroles q hne).trans hr⟩
  · intro z z' hp
    by_cases hzx : z = x
    · rw [hzx] at hp ⊢
      rw [← Option.some.inj ((birth_self w.tree).symm.trans hp), hinside y hyx]
      rwa [show (w.spawn x y inside).inside x = inside from Function.update_self ..]
    · rw [htree z hzx] at hp
      have hz' : z' ≠ x := by
        rintro rfl
        by_cases hz₁ : z = 1
        · rw [hz₁, h.rooted.init] at hp
          exact hx₀ (Option.some.inj hp).symm
        · exact h.rooted.parent z z' hz₁ hp hx
      rw [hinside z hzx, hinside z' hz']
      exact h.inherits z z' hp
  · intro z
    by_cases hzx : z = x
    · rw [hzx, stack_of_script hnew, show (w.spawn x y inside).inside x =
        inside from Function.update_self ..]
      exact hpair
    · have hstack : (w.spawn x y inside).stack z = w.stack z := by
        rw [World.stack, hroles z hzx, hinside z hzx]
        rfl
      rw [hstack]
      exact h.nested z
  · intro p path prog child hp n up ha
    obtain ⟨hne, hp⟩ := hold p path prog child hp
    obtain ⟨path', prog', hlast⟩ := ha.waiting
    obtain ⟨hlastne, hlast⟩ := hold _ _ _ _ hlast
    have hlive : (w.spawn x y inside).tree (up (n + 1)) ≠ none := by
      rw [htree _ hlastne]
      exact h.alive _ _ _ _ hlast
    have hchain := ha.chain.of_birth h.rooted hx (ha.bottom ▸ h.alive p path prog child hp)
      (ha.chain.ne_init (h.rooted.birth hx hx₀ hy) hlive)
    exact h.refuses p path prog child hp n up ⟨ha.bottom, hchain, ⟨path', prog', hlast⟩,
      ha.holds, ha.near⟩

theorem Sound.bury {x : Nat} (h : Sound nests w) (hx : w.tree x ≠ none) (hended : w.role x = .ended)
    (hno : ∀ q path prog, w.role q ≠ .hacman path prog (some x)) : Sound nests (w.bury x) := by
  have hx₁ : x ≠ 1 := by
    rintro rfl
    rw [h.init] at hended
    cases hended
  have hx₀ := h.rooted.ne_zero hx
  have hleaf : ∀ z, w.tree z ≠ some x := by
    intro z hz
    by_cases hz₁ : z = 1
    · rw [hz₁, h.rooted.init] at hz
      exact hx₀ (Option.some.inj hz).symm
    · exact h.parent z x hz₁ hz hended
  have htree : ∀ z, z ≠ x → (w.bury x).tree z = w.tree z := fun z hz => bury_of_ne _ hz
  have hback : ∀ z z', (w.bury x).tree z = some z' → w.tree z = some z' := by
    intro z z' hz
    have hne : z ≠ x := by
      rintro rfl
      rw [show (w.bury z).tree z = none from bury_self _] at hz
      cases hz
    exact (htree z hne).symm.trans hz
  refine ⟨h.rooted.bury hx₁ hleaf, h.init, h.top, ?_, ?_, ?_, h.holder, ?_, h.nested, ?_⟩
  · intro z path prog child hz
    have hne : z ≠ x := by
      rintro rfl
      exact absurd (hz.symm.trans hended) nofun
    rw [htree z hne]
    exact h.alive z path prog child hz
  · exact fun z z' hz hp => h.parent z z' hz (hback z z' hp)
  · intro q path prog s hq
    have hne : s ≠ x := by
      rintro rfl
      exact hno q path prog hq
    rw [htree s hne]
    exact h.child q path prog s hq
  · exact fun z z' hp => h.inherits z z' (hback z z' hp)
  · intro p path prog child hp n up ha
    exact h.refuses p path prog child hp n up
      ⟨ha.bottom, ha.chain.of_bury, ha.waiting, ha.holds, ha.near⟩

theorem release_eq {w : World} {y q : Nat} {path : Bytes} (h : w.release y path = some q) :
    w.locks path = some q ∧ q ≠ y := by
  unfold World.release at h
  split_ifs at h with hy
  refine ⟨h, ?_⟩
  rintro rfl
  exact hy h

def OwnLock (w : World) (y : Nat) (path : Bytes) (locks : Bytes → Option Nat) : Prop :=
  ∀ path' q, locks path' = some q → q = y ∧ path' = path ∨ q ≠ y ∧ w.locks path' = some q

theorem Sound.ownLock {y : Nat} {path : Bytes} {prog : P Outcome} {child : Option Nat}
    (h : Sound nests w) (hy : w.role y = .hacman path prog child) : OwnLock w y path w.locks := by
  intro path' q hq
  by_cases hqy : q = y
  · obtain ⟨prog', child', hr⟩ := h.holder path' q hq
    rw [hqy, hy] at hr
    cases hr
    exact .inl ⟨hqy, rfl⟩
  · exact .inr ⟨hqy, hq⟩

theorem Answers.ownLock {y : Nat} {path : Bytes} {prog : P Outcome} {child : Option Nat}
    {r : Call} {x : r.Answer} {locks : Bytes → Option Nat} (h : Sound nests w)
    (hy : w.role y = .hacman path prog child) (ha : Answers w y path r x locks) :
    OwnLock w y path locks := by
  have hsame := h.ownLock hy
  have htake : OwnLock w y path (w.take path y) := by
    intro path' q hq
    by_cases hp : path' = path
    · rw [hp, World.take, Function.update_self] at hq
      exact .inl ⟨(Option.some.inj hq).symm, hp⟩
    · rw [World.take, Function.update_of_ne hp] at hq
      exact hsame path' q hq
  have hrelease : OwnLock w y path (w.release y) := by
    intro path' q hq
    exact .inr ⟨(release_eq hq).2, (release_eq hq).1⟩
  cases r with
  | setlk =>
    cases x with
    | ok => exact ha.2 ▸ htake
    | busy => exact ha.2 ▸ hsame
    | failed => exact ha.elim
  | setlkw =>
    cases x with
    | none => exact ha.2 ▸ htake
    | some reason =>
      obtain rfl : locks = w.locks := ha
      exact hsame
  | getlk => exact ha.2 ▸ hsame
  | getppid => exact ha.2 ▸ hsame
  | parentPid m => exact ha.2 ▸ hsame
  | closeLock =>
    obtain rfl : locks = w.release y := ha
    exact hrelease
  | _ =>
    obtain rfl : locks = w.locks := ha
    exact hsame

theorem Sound.run {y : Nat} {path : Bytes} {prog : P Outcome} {child : Option Nat}
    {locks : Bytes → Option Nat} (h : Sound nests w) (hy : w.tree y ≠ none) (hy₁ : y ≠ 1)
    (hpair : (path :: w.inside y).Pairwise (Within nests)) (hlocks : OwnLock w y path locks)
    (hchild : ∀ s, child = some s → w.tree s = some y ∧ w.inside s = path :: w.inside y ∧
      w.role s = .script ∧ ∀ z, w.tree z ≠ some s)
    (hrefuses : ∀ n up, Above w y path n up → Refuses up n prog fun _ _ => True) :
    Sound nests (w.run y path prog child locks) := by
  have hroles : ∀ z, z ≠ y → (w.run y path prog child locks).role z = w.role z :=
    fun z hz => Function.update_of_ne hz ..
  have hself : (w.run y path prog child locks).role y = .hacman path prog child :=
    Function.update_self ..
  have hold : ∀ z path' prog' child', (w.run y path prog child locks).role z =
      .hacman path' prog' child' → z = y ∧ path' = path ∧ prog' = prog ∧ child' = child ∨
        z ≠ y ∧ w.role z = .hacman path' prog' child' := by
    intro z path' prog' child' hz
    by_cases hzy : z = y
    · rw [hzy, hself] at hz
      cases hz
      exact .inl ⟨hzy, rfl, rfl, rfl⟩
    · exact .inr ⟨hzy, (hroles z hzy).symm.trans hz⟩
  refine ⟨h.rooted, (hroles 1 hy₁.symm).trans h.init, h.top, ?_, ?_, ?_, ?_, h.inherits, ?_, ?_⟩
  · intro z path' prog' child' hz
    rcases hold z path' prog' child' hz with ⟨rfl, -⟩ | ⟨-, hz⟩
    · exact hy
    · exact h.alive z path' prog' child' hz
  · intro z z' hz hp he
    by_cases hzy : z' = y
    · rw [hzy, hself] at he
      cases he
    · rw [hroles z' hzy] at he
      exact h.parent z z' hz hp he
  · intro q path' prog' s hq
    rcases hold q path' prog' (some s) hq with ⟨rfl, rfl, -, hs⟩ | ⟨-, hq⟩
    · obtain ⟨htree, hinside, -⟩ := hchild s hs.symm
      exact ⟨htree, hinside⟩
    · exact h.child q path' prog' s hq
  · intro path' q hq
    rcases hlocks path' q hq with ⟨rfl, rfl⟩ | ⟨hqy, hq⟩
    · exact ⟨prog, child, hself⟩
    · obtain ⟨prog', child', hr⟩ := h.holder path' q hq
      exact ⟨prog', child', (hroles q hqy).trans hr⟩
  · intro z
    by_cases hzy : z = y
    · rw [hzy, stack_of_hacman hself]
      exact hpair
    · have hstack : (w.run y path prog child locks).stack z = w.stack z := by
        rw [World.stack, hroles z hzy]
        rfl
      rw [hstack]
      exact h.nested z
  · intro p path' prog' child' hp n up ha
    obtain ⟨path'', prog'', hlast⟩ := ha.waiting
    -- the setup child was born in this very step, so nothing is below it
    have hne : up (n + 1) ≠ y := by
      intro hup
      rw [hup, hself] at hlast
      obtain ⟨-, -, hs⟩ := Role.hacman.inj hlast
      obtain ⟨htree, -, hscript, hleaf⟩ := hchild (up n) hs
      cases n with
      | zero =>
        rw [ha.bottom] at hscript
        rcases hold p path' prog' child' hp with ⟨rfl, -⟩ | ⟨-, hp⟩
        · have hloop := ha.chain 0 (Nat.le_refl 0)
          exact hleaf (up 0) (hloop.trans (congrArg some (hup.trans ha.bottom.symm)))
        · exact absurd (hp.symm.trans hscript) nofun
      | succ m => exact hleaf (up m) (ha.chain m (Nat.le_succ m))
    have hlast' : w.role (up (n + 1)) = .hacman path'' prog'' (some (up n)) :=
      (hroles _ hne).symm.trans hlast
    have hholds' : w.locks path' = some (up (n + 1)) := by
      rcases hlocks path' _ ha.holds with ⟨he, -⟩ | ⟨-, hq⟩
      · exact absurd he hne
      · exact hq
    have hbefore : Above w p path' n up :=
      ⟨ha.bottom, ha.chain, ⟨path'', prog'', hlast'⟩, hholds', ha.near⟩
    rcases hold p path' prog' child' hp with ⟨rfl, rfl, rfl, -⟩ | ⟨-, hp⟩
    · exact hrefuses n up hbefore
    · exact h.refuses p path' prog' child' hp n up hbefore

/-- A process that stops being a hacman gives up its lock. -/
theorem Sound.handOff {y : Nat} (h : Sound nests w) (hy : w.tree y ≠ none) :
    Sound nests (w.handOff y) := by
  have hself : (w.handOff y).role y = .script := Function.update_self ..
  have hroles : ∀ z, z ≠ y → (w.handOff y).role z = w.role z :=
    fun z hz => Function.update_of_ne hz ..
  have hold : ∀ z path prog child, (w.handOff y).role z = .hacman path prog child →
      w.role z = .hacman path prog child := by
    intro z path prog child hz
    have hne : z ≠ y := by
      rintro rfl
      rw [hself] at hz
      cases hz
    exact (hroles z hne).symm.trans hz
  refine ⟨h.rooted, ?_, h.top, ?_, ?_, ?_, ?_, h.inherits, ?_, ?_⟩
  · by_cases hy₁ : 1 = y
    · rw [hy₁]
      exact hself
    · exact (hroles 1 hy₁).trans h.init
  · exact fun z path prog child hz => h.alive z path prog child (hold z path prog child hz)
  · intro z z' hz hp he
    by_cases hzy : z' = y
    · rw [hzy, hself] at he
      cases he
    · rw [hroles z' hzy] at he
      exact h.parent z z' hz hp he
  · exact fun q path prog s hq => h.child q path prog s (hold q path prog (some s) hq)
  · intro path q hq
    obtain ⟨hq, hqy⟩ := release_eq hq
    obtain ⟨prog, child, hr⟩ := h.holder path q hq
    exact ⟨prog, child, (hroles q hqy).trans hr⟩
  · intro z
    by_cases hzy : z = y
    · rw [hzy, stack_of_script hself]
      exact (h.nested y).sublist (inside_suffix w y).sublist
    · have hstack : (w.handOff y).stack z = w.stack z := by
        rw [World.stack, hroles z hzy]
        rfl
      rw [hstack]
      exact h.nested z
  · intro p path prog child hp n up ha
    obtain ⟨path', prog', hlast⟩ := ha.waiting
    exact h.refuses p path prog child (hold p path prog child hp) n up
      ⟨ha.bottom, ha.chain, ⟨path', prog', hold _ _ _ _ hlast⟩, (release_eq ha.holds).1, ha.near⟩

theorem Sound.finish {y : Nat} (h : Sound nests w) (hy : w.tree y ≠ none) (hy₁ : y ≠ 1)
    (hscript : w.role y = .script) : Sound nests (w.finish y) := by
  have hy₀ := h.rooted.ne_zero hy
  have hself : (w.finish y).role y = .ended := Function.update_self ..
  have hroles : ∀ z, z ≠ y → (w.finish y).role z = w.role z :=
    fun z hz => Function.update_of_ne hz ..
  have hold : ∀ z path prog child, (w.finish y).role z = .hacman path prog child →
      z ≠ y ∧ w.role z = .hacman path prog child := by
    intro z path prog child hz
    have hne : z ≠ y := by
      rintro rfl
      rw [hself] at hz
      cases hz
    exact ⟨hne, (hroles z hne).symm.trans hz⟩
  have hlink : ∀ z z', (w.finish y).tree z = some z' → z' = 1 ∨ z' ≠ y ∧ w.tree z = some z' := by
    intro z z' hz
    change (if w.tree z = some y then some 1 else w.tree z) = some z' at hz
    split_ifs at hz with hc
    · exact .inl (Option.some.inj hz).symm
    · refine .inr ⟨?_, hz⟩
      rintro rfl
      exact hc hz
  refine ⟨h.rooted.orphan hy₀, (hroles 1 hy₁.symm).trans h.init, h.top, ?_, ?_, ?_, ?_, ?_, ?_, ?_⟩
  · intro z path prog child hz
    exact orphan_ne_none (h.alive z path prog child (hold z path prog child hz).2)
  · intro z z' hz hp
    rcases hlink z z' hp with rfl | ⟨hne, hp⟩
    · rw [hroles 1 hy₁.symm, h.init]
      exact nofun
    · rw [hroles z' hne]
      exact h.parent z z' hz hp
  · intro q path prog s hq
    obtain ⟨hne, hq⟩ := hold q path prog (some s) hq
    obtain ⟨htree, hinside⟩ := h.child q path prog s hq
    refine ⟨?_, hinside⟩
    change (if w.tree s = some y then some 1 else w.tree s) = some q
    rw [htree, if_neg (fun he => hne (Option.some.inj he))]
  · intro path q hq
    obtain ⟨prog, child, hr⟩ := h.holder path q hq
    have hne : q ≠ y := by
      rintro rfl
      exact absurd (hr.symm.trans hscript) nofun
    exact ⟨prog, child, (hroles q hne).trans hr⟩
  · intro z z' hp
    rcases hlink z z' hp with rfl | ⟨-, hp⟩
    · rw [show (w.finish y).inside 1 = [] from h.top.2]
      exact List.nil_suffix
    · exact h.inherits z z' hp
  · intro z
    by_cases hzy : z = y
    · rw [hzy, World.stack, hself]
      exact (h.nested y).sublist (inside_suffix w y).sublist
    · have hstack : (w.finish y).stack z = w.stack z := by
        rw [World.stack, hroles z hzy]
        rfl
      rw [hstack]
      exact h.nested z
  · intro p path prog child hp n up ha
    obtain ⟨path', prog', hlast⟩ := ha.waiting
    obtain ⟨-, hlast⟩ := hold _ _ _ _ hlast
    have hlive := orphan_ne_none (x := y) (h.alive _ _ _ _ hlast)
    have hlow := ha.chain.ne_init (h.rooted.orphan hy₀) hlive
    have hinit : ∀ j ≤ n, up (j + 1) ≠ 1 := by
      intro j hj
      rcases Nat.lt_or_ge j n with hn | hn
      · exact hlow (j + 1) hn
      · intro he
        rw [Nat.le_antisymm hj hn] at he
        rw [he, h.init] at hlast
        cases hlast
    exact h.refuses p path prog child (hold p path prog child hp).2 n up
      ⟨ha.bottom, ha.chain.of_orphan hinit, ⟨path', prog', hlast⟩, ha.holds, ha.near⟩

theorem Sound.exit {y : Nat} (h : Sound nests w) (hy : w.tree y ≠ none) (hy₁ : y ≠ 1) :
    Sound nests (w.exit y) :=
  (h.handOff hy).finish hy hy₁ (Function.update_self ..)

theorem Answers.below {p : Nat} {path : Bytes} {prog : P Outcome} {n : Nat} {up : Nat → Nat}
    {r : Call} {x : r.Answer} {locks : Bytes → Option Nat} (hp : w.role p = .hacman path prog none)
    (ha : Above w p path n up) (hx : Answers w p path r x locks) : (below up n).assume () r x := by
  have hne : up (n + 1) ≠ p := by
    obtain ⟨path', prog', hlast⟩ := ha.waiting
    intro he
    rw [he, hp] at hlast
    cases hlast
  have hbusy : ¬ w.Free path p := fun hfree => hne (hfree _ ha.holds)
  have hppid : ∀ j ≤ n, w.ppid (up j : Int) = (up (j + 1) : Int) := by
    intro j hj
    rw [World.ppid, Int.toNat_natCast, ha.chain j hj]
  cases r with
  | setlk =>
    cases x with
    | ok => exact absurd hx.1 hbusy
    | busy => rfl
    | failed => exact hx.elim
  | getlk =>
    refine hx.1.trans ?_
    rw [World.other, ha.holds]
    exact if_neg hne
  | getppid =>
    refine hx.1.trans ?_
    rw [← ha.bottom]
    exact hppid 0 n.zero_le
  | parentPid m =>
    rintro j hj rfl
    exact hx.1.trans (hppid j hj)
  | _ => trivial

theorem Sound.step {w' : World} (h : Sound nests w) (hs : Step nests w w') : Sound nests w' := by
  cases hs with
  | @fork x y hy hscript hx₀ hx =>
    have hpair := h.nested y
    rw [stack_of_script hscript] at hpair
    exact h.spawn hx hx₀ hy (by simp [hscript]) (List.suffix_refl _) hpair
  | @exec y path v hy hy₁ hscript hhead =>
    have hpair := h.nested y
    rw [stack_of_script hscript] at hpair
    have hlocks : OwnLock w y path w.locks := by
      intro path' q hq
      refine .inr ⟨?_, hq⟩
      rintro rfl
      obtain ⟨prog, child, hr⟩ := h.holder path' q hq
      exact absurd (hr.symm.trans hscript) nofun
    refine h.run hy hy₁ (List.pairwise_cons.mpr ⟨?_, hpair⟩) hlocks nofun ?_
    · intro b hb
      cases hin : w.inside y with
      | nil =>
        rw [hin] at hb
        exact absurd hb List.not_mem_nil
      | cons a rest =>
        rw [hin] at hb hpair hhead
        have hstep : nests a path := hhead a rfl
        rcases List.mem_cons.mp hb with rfl | hb
        · exact .single hstep
        · exact ((List.pairwise_cons.mp hpair).1 b hb).tail hstep
    · intro n up ha
      obtain ⟨halive, hinit⟩ := h.below ha
      rw [v.prog_eq]
      exact act_refuses (fun j hj => h.rooted.ne_zero (halive j hj)) hinit ha.near _ _ _ _
  | @ask y path r k x locks hy hx =>
    have hy₁ : y ≠ 1 := by
      rintro rfl
      exact absurd (hy.symm.trans h.init) nofun
    have hpair := h.nested y
    rw [stack_of_hacman hy] at hpair
    refine h.run (h.alive y _ _ _ hy) hy₁ hpair (hx.ownLock h hy) nofun ?_
    intro n up ha
    exact (h.refuses y path _ none hy n up ha).2 x () ⟨hx.below hy ha, rfl⟩
  | @setUp y s path r k hy hr hs₀ hs =>
    have hy₁ : y ≠ 1 := by
      rintro rfl
      exact absurd (hy.symm.trans h.init) nofun
    have halive := h.alive y _ _ _ hy
    have hpair := h.nested y
    rw [stack_of_hacman hy] at hpair
    have hspawn := h.spawn hs hs₀ halive (by simp [hy]) (List.suffix_cons path _) hpair
    have hys : y ≠ s := fun he => halive (he ▸ hs)
    have hy' : (w.spawn s y (path :: w.inside y)).role y =
        .hacman path (.ask (S := calls) r k) none :=
      (Function.update_of_ne hys ..).trans hy
    have hin : (w.spawn s y (path :: w.inside y)).inside y = w.inside y :=
      Function.update_of_ne hys ..
    refine hspawn.run (hspawn.alive y _ _ _ hy') hy₁ ?_ (hspawn.ownLock hy') ?_ ?_
    · rw [hin]
      exact hpair
    · rintro s' hs'
      obtain rfl := Option.some.inj hs'
      refine ⟨birth_self _, ?_, Function.update_self .., ?_⟩
      · rw [hin]
        exact Function.update_self ..
      · intro z hz
        by_cases hzs : z = s
        · rw [hzs] at hz
          exact hys (Option.some.inj ((birth_self w.tree).symm.trans hz))
        · rw [show (w.spawn s y (path :: w.inside y)).tree z = w.tree z from birth_of_ne _ hzs]
            at hz
          by_cases hz₁ : z = 1
          · rw [hz₁, h.rooted.init] at hz
            exact hs₀ (Option.some.inj hz).symm
          · exact h.rooted.parent z s hz₁ hz hs
    · exact fun n up ha => hspawn.refuses y path _ none hy' n up ha
  | @reap y s path r k x hy hr hs =>
    have hy₁ : y ≠ 1 := by
      rintro rfl
      exact absurd (hy.symm.trans h.init) nofun
    have hpair := h.nested y
    rw [stack_of_hacman hy] at hpair
    obtain ⟨htree, -⟩ := h.child y path _ s hy
    have hrun : Sound nests (w.run y path (k x) none w.locks) := by
      refine h.run (h.alive y _ _ _ hy) hy₁ hpair (h.ownLock hy) nofun ?_
      intro n up ha
      refine (h.refuses y path _ _ hy n up ha).2 x () ⟨?_, rfl⟩
      cases r <;> trivial
    have hsy : s ≠ y := by
      rintro rfl
      exact absurd (hy.symm.trans hs) nofun
    refine hrun.bury ?_ ((Function.update_of_ne hsy ..).trans hs) ?_
    · rw [show (w.run y path (k x) none w.locks).tree s = w.tree s from rfl, htree]
      exact Option.some_ne_none _
    · intro q path' prog hq
      by_cases hqy : q = y
      · rw [hqy, show (w.run y path (k x) none w.locks).role y = .hacman path (k x) none from
          Function.update_self ..] at hq
        cases hq
      · have hq' : w.role q = .hacman path' prog (some s) :=
          (Function.update_of_ne hqy ..).symm.trans hq
        obtain ⟨htree', -⟩ := h.child q path' prog s hq'
        exact hqy (Option.some.inj (htree'.symm.trans htree))
  | @wait x y hy hx hended =>
    refine h.bury (by rw [hx]; exact Option.some_ne_none _) hended ?_
    intro q path prog hq
    obtain ⟨htree, -⟩ := h.child q path prog x hq
    rw [Option.some.inj (htree.symm.trans hx), hy] at hq
    cases hq
  | @handOff y path hy => exact h.handOff (h.alive y _ _ _ hy)
  | @exit y hy hy₁ hended => exact h.exit hy hy₁

theorem Reach.sound (h : Reach nests w) : Sound nests w := by
  induction h with
  | start => exact start_sound
  | tail _ hs ih => exact ih.step hs

end Invariant

section Result
variable {nests : Bytes → Bytes → Prop} {w : World}

/-- The slots along the waits-for relation are joined by the call graph. -/
theorem Waits.calls (h : Sound nests w) {p p' : Nat} {path path' : Bytes} (hw : Waits w p p')
    (hp : Blocked w p path) (hp' : Blocked w p' path') : Relation.TransGen nests path path' := by
  obtain ⟨path₀, q, path₁, prog, s, n, hblocked, hlock, hq, hanc, -⟩ := hw
  obtain ⟨prog₂, -, hrole₂, -⟩ := hblocked
  obtain ⟨prog₃, -, hrole₃, -⟩ := hp
  obtain ⟨prog', -, hrole', -⟩ := hp'
  rw [hrole₃] at hrole₂
  cases hrole₂
  obtain ⟨prog₄, child, hholder⟩ := h.holder path q hlock
  rw [hq] at hholder
  cases hholder
  obtain ⟨-, hinside⟩ := h.child q path prog s hq
  have hsuffix := ancestor_inherits h.inherits hanc
  have hmem : path ∈ w.inside p' := by
    apply hsuffix.subset
    rw [hinside]
    exact List.mem_cons_self
  have hpair := h.nested p'
  rw [stack_of_hacman hrole'] at hpair
  exact (List.pairwise_cons.mp hpair).1 path hmem

/-- No process waits for a lock whose holder waits for it, up to 256 levels above; and the
slots on a cycle of waiting processes are on a cycle of the call graph. -/
theorem waits_follow_calls (h : Reach nests w) :
    (∀ p path q path' prog s n, Blocked w p path → w.locks path = some q →
      w.role q = .hacman path' prog (some s) → w.tree.ancestor p n = some s → 256 ≤ n) ∧
      ∀ p path, Blocked w p path → Relation.TransGen (Waits w) p p →
        Relation.TransGen nests path path := by
  have hsound := h.sound
  constructor
  · rintro p path q path' prog s n ⟨prog', -, hp, hpending, -, -⟩ hlock hq hanc
    by_contra hn
    obtain ⟨htree, -⟩ := hsound.child q path' prog s hq
    have hanc' : w.tree.ancestor p (n + 1) = some q := by
      rw [Tree.ancestor, hanc]
      exact htree
    obtain ⟨up, hbottom, hlast, hs, hchain⟩ := exists_chain hanc'
    have hsn : s = up n := Option.some.inj (hanc.symm.trans hs)
    have habove : Above w p path n up :=
      ⟨hbottom, hchain, ⟨path', prog, by rw [hlast, hq, hsn]⟩, by rw [hlock, hlast], by omega⟩
    have hrefuses := hsound.refuses p path prog' none hp n up habove
    obtain ⟨k, rfl⟩ := pending_eq hpending
    exact hrefuses.1 rfl
  · intro p path hp hcycle
    let slot : Nat → Bytes := fun x => (w.stack x).headD []
    have hslot : ∀ x at', Blocked w x at' → slot x = at' := by
      rintro x at' ⟨prog, -, hx, -⟩
      simp only [slot, stack_of_hacman hx, List.headD_cons]
    have hstep : ∀ a b, Waits w a b → Relation.TransGen nests (slot a) (slot b) := by
      intro a b hw
      obtain ⟨path₀, -, -, -, -, -, ha, -, -, -, at', hb⟩ := id hw
      rw [hslot a path₀ ha, hslot b at' hb]
      exact hw.calls hsound ha hb
    have hloop : Relation.TransGen nests (slot p) (slot p) := hcycle.lift' slot hstep
    rwa [hslot p path hp] at hloop

end Result

section Runs

inductive Move
  | fork (y x : Nat)
  | exec (y : Nat) (path : Bytes) (v : Invocation path)
  | ask (y : Nat)
  | setUp (y s : Nat)

def World.reply (w : World) (y : Nat) (path : Bytes) (r : Call) : r.Answer × (Bytes → Option Nat) :=
  match r with
  | .setlk => if w.other path y = none then (.ok, w.take path y) else (.busy, w.locks)
  | .setlkw => if w.other path y = none then (none, w.take path y) else (some [], w.locks)
  | .getlk => (w.other path y, w.locks)
  | .getppid => (w.ppid y, w.locks)
  | .parentPid m => (w.ppid m, w.locks)
  | .closeLock => ((), w.release y)
  | r => (obliging r, w.locks)

theorem other_eq_none {w : World} {y : Nat} {path : Bytes} :
    w.other path y = none ↔ w.Free path y := by
  unfold World.other World.Free
  cases h : w.locks path with
  | none => simp
  | some q => simp

theorem reply_answers (w : World) (y : Nat) (path : Bytes) (r : Call) :
    Answers w y path r (w.reply y path r).1 (w.reply y path r).2 := by
  cases r with
  | setlk =>
    simp only [World.reply]
    split_ifs with h
    · exact ⟨other_eq_none.mp h, rfl⟩
    · exact ⟨fun hfree => h (other_eq_none.mpr hfree), rfl⟩
  | setlkw =>
    simp only [World.reply]
    split_ifs with h
    · exact ⟨other_eq_none.mp h, rfl⟩
    · rfl
  | getlk => exact ⟨rfl, rfl⟩
  | getppid => exact ⟨rfl, rfl⟩
  | parentPid m => exact ⟨rfl, rfl⟩
  | _ => rfl

def World.move (w : World) : Move → World
  | .fork y x =>
    match w.role y with
    | .script => if w.tree y ≠ none ∧ x ≠ 0 ∧ w.tree x = none then w.spawn x y (w.inside y) else w
    | _ => w
  | .exec y path v =>
    match w.role y with
    | .script =>
      if w.tree y ≠ none ∧ y ≠ 1 ∧ (w.inside y).head? ≠ some path then
        w.run y path v.prog none w.locks
      else w
    | _ => w
  | .ask y =>
    match w.role y with
    | .hacman path (.ask r k) none => w.run y path (k (w.reply y path r).1) none
      (w.reply y path r).2
    | _ => w
  | .setUp y s =>
    match w.role y with
    | .hacman path (.ask r k) none =>
      if runsSetup r = true ∧ s ≠ 0 ∧ w.tree s = none then
        (w.spawn s y (path :: w.inside y)).run y path (.ask r k) (some s) w.locks
      else w
    | _ => w

theorem Reach.move {w : World} (h : Reach (· ≠ ·) w) (m : Move) :
    Reach (· ≠ ·) (w.move m) := by
  cases m with
  | fork y x =>
    simp only [World.move]
    split
    · rename_i hrole
      split_ifs with hc
      · exact h.tail (.fork hc.1 hrole hc.2.1 hc.2.2)
      · exact h
    · exact h
  | exec y path v =>
    simp only [World.move]
    split
    · rename_i hrole
      split_ifs with hc
      · refine h.tail (.exec v hc.1 hc.2.1 hrole fun a ha he => hc.2.2 ?_)
        rw [← he]
        exact ha
      · exact h
    · exact h
  | ask y =>
    simp only [World.move]
    split
    · rename_i r k hrole
      exact h.tail (.ask hrole (reply_answers w y _ r))
    · exact h
  | setUp y s =>
    simp only [World.move]
    split
    · rename_i r k hrole
      split_ifs with hc
      · exact h.tail (.setUp hrole hc.1 hc.2.1 hc.2.2)
      · exact h
    · exact h

def World.moves (w : World) (ms : List Move) : World := ms.foldl World.move w

theorem Reach.moves {w : World} (h : Reach (· ≠ ·) w) (ms : List Move) :
    Reach (· ≠ ·) (w.moves ms) := by
  induction ms generalizing w with
  | nil => exact h
  | cons m ms ih => exact ih (h.move m)

/-- The command of either project runs the other one. -/
def shimLaunch (first : Bool) : Launch where
  opts := {
    file := some (ascii (if first then "a.siml" else "b.siml"))
    cacheDir := some (ascii "/c") }
  siml := fun _ => [.streamStart, .documentStart 1, .mappingStart 1,
    .scalar (ascii "command") (ascii (if first then "hacman b.siml" else "hacman a.siml")) 1,
    .mappingEnd 2, .documentEnd, .streamEnd]
  xxh3 := Cache.polynomial
  version := ascii "1.0"
  content := some (ascii (if first then "command: hacman b.siml\n" else "command: hacman a.siml\n"))

def shimProject (first : Bool) : Project where
  kind := .command
  name := ascii (if first then "hacman b.siml" else "hacman a.siml")
  command := ascii (if first then "hacman b.siml" else "hacman a.siml")
  schedKind := .every
  schedInterval := 86400
  sandboxed := true
  line := 1

def shimKey (first : Bool) : Bytes := ascii (if first then "cmd-ce7427852f6d8104"
    else "cmd-3fda6c2db0c15241")

def shimPath (first : Bool) : Bytes := ascii "/c/" ++ shimKey first

def shimSlot (first : Bool) : Slot where
  key := shimKey first
  identity := ascii (if first then "siml:53375d0896a09c0a hacman:1.0"
    else "siml:53375d0861ba60c9 hacman:1.0")
  path := shimPath first
  workdir := shimPath first ++ ascii ".work"

def shim (first : Bool) : Invocation (shimPath first) where
  l := shimLaunch first
  p := shimProject first
  c := shimSlot first
  cacheDir := ascii "/c"
  run := by cases first <;> decide +kernel
  at_path := rfl
  version := by cases first <;> decide

/-- Two shells start one project each, and each gets to its setup: `2` runs `a` with the
child `4`, `3` runs `b` with the child `5`. -/
def bothSettingUp : World :=
  start.moves ([.fork 1 2, .fork 1 3, .exec 2 _ (shim true), .exec 3 _ (shim false)] ++
    List.replicate 7 (.ask 2) ++ List.replicate 7 (.ask 3) ++ [.setUp 2 4, .setUp 3 5])

/-- Either setup runs the other project, which finds its lock taken by a stranger. -/
def crossed : World :=
  bothSettingUp.moves ([.exec 4 _ (shim false), .exec 5 _ (shim true)] ++
    List.replicate 7 (.ask 4) ++ List.replicate 7 (.ask 5))

theorem crossed_reach : Reach (· ≠ ·) crossed := (Reach.start.moves _).moves _

def World.waitingAt (w : World) (p : Nat) : Option Bytes :=
  match w.role p with
  | .hacman path prog none => if prog.pending = some .setlkw then some path else none
  | _ => none

def World.childOf (w : World) (q : Nat) : Option Nat :=
  match w.role q with
  | .hacman _ _ child => child
  | _ => none

theorem blocked_of {w : World} {p q : Nat} {path : Bytes} (h : w.waitingAt p = some path)
    (hlock : w.locks path = some q) (hne : q ≠ p) : Blocked w p path := by
  unfold World.waitingAt at h
  split at h
  · rename_i path' prog hrole
    split_ifs at h with hpending
    cases h
    exact ⟨prog, q, hrole, hpending, hlock, hne⟩
  · cases h

theorem childOf_eq {w : World} {q s : Nat} (h : w.childOf q = some s) :
    ∃ path prog, w.role q = .hacman path prog (some s) := by
  unfold World.childOf at h
  split at h
  · rename_i path prog child hrole
    cases h
    exact ⟨path, prog, hrole⟩
  · cases h

theorem crossed_blocked : Blocked crossed 4 (shimPath false) ∧ Blocked crossed 5 (shimPath true) :=
  ⟨@blocked_of crossed 4 3 _ (by decide +kernel) (by decide +kernel) (by decide),
    @blocked_of crossed 5 2 _ (by decide +kernel) (by decide +kernel) (by decide)⟩

theorem crossed_cycle : Relation.TransGen (Waits crossed) 4 4 := by
  obtain ⟨h₄, h₅⟩ := crossed_blocked
  obtain ⟨path₂, prog₂, hchild₂⟩ := @childOf_eq crossed 2 4 (by decide +kernel)
  obtain ⟨path₃, prog₃, hchild₃⟩ := @childOf_eq crossed 3 5 (by decide +kernel)
  have hfirst : Waits crossed 4 5 :=
    ⟨_, 3, path₃, prog₃, 5, 0, h₄, by decide +kernel, hchild₃, rfl, _, h₅⟩
  have hsecond : Waits crossed 5 4 :=
    ⟨_, 2, path₂, prog₂, 4, 0, h₅, by decide +kernel, hchild₂, rfl, _, h₄⟩
  exact .tail (.single hfirst) hsecond

theorem waits_follow_calls_crossed :
    Relation.TransGen (fun a b : Bytes => a ≠ b) (shimPath false) (shimPath false) :=
  (waits_follow_calls crossed_reach).2 4 _ crossed_blocked.1 crossed_cycle

/-- Two projects that run each other, started at the same time, wait for each other's
setups. -/
theorem crossed_setups_wait : ∃ w p, Reach (· ≠ ·) w ∧ Relation.TransGen (Waits w) p p :=
  ⟨crossed, 4, crossed_reach, crossed_cycle⟩

end Runs

end Hacman.Nesting
