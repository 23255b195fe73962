import Mathlib.Logic.Function.Basic

/-!
# Programs that ask, environments that answer

A program is a tree of requests. Each request has its own type of answers and
the program continues with whatever the environment answers, so every outcome of
every fallible step is a branch of the tree. An environment is a relation over
some world; a monitor is the environment whose world is a finite record of what
one program has asked and heard so far.

`Prog.Safe` is the weakest precondition over all answers, with a guard that must
hold at every request. `Steps` are partial runs of one program, `Config.Reach`
the interleavings of a family of them.
-/

namespace Interaction

structure Signature where
  Req : Type
  Ans : Req → Type

inductive Prog (S : Signature) (α : Type)
  | done (value : α)
  | ask (r : S.Req) (k : S.Ans r → Prog S α)

variable {S : Signature} {α β W : Type}

namespace Prog

def bind : Prog S α → (α → Prog S β) → Prog S β
  | .done a, f => f a
  | .ask r k, f => .ask r fun x => (k x).bind f

instance : Monad (Prog S) where
  pure := .done
  bind := bind

def call (r : S.Req) : Prog S (S.Ans r) := .ask r .done

@[simp] theorem pure_eq (a : α) : (pure a : Prog S α) = .done a := rfl

@[simp] theorem done_bind (a : α) (f : α → Prog S β) : (Prog.done a >>= f) = f a := rfl

@[simp] theorem ask_bind (r : S.Req) (k : S.Ans r → Prog S α) (f : α → Prog S β) :
    (Prog.ask r k >>= f) = .ask r fun x => k x >>= f := rfl

@[simp] theorem call_bind (r : S.Req) (f : S.Ans r → Prog S β) :
    (call r >>= f) = .ask r f := rfl

end Prog

def Prog.pending : Prog S α → Option S.Req
  | .done _ => none
  | .ask r _ => some r

theorem pending_eq {p : Prog S α} {r : S.Req} (h : p.pending = some r) : ∃ k, p = .ask r k := by
  cases p with
  | done a => cases h
  | ask r' k =>
    cases h
    exact ⟨k, rfl⟩

structure Event (S : Signature) where
  req : S.Req
  ans : S.Ans req

structure Env (S : Signature) (W : Type) where
  answers : W → (r : S.Req) → S.Ans r → W → Prop

def Prog.Safe (E : Env S W) (G : W → S.Req → Prop) (Q : α → W → Prop) : Prog S α → W → Prop
  | .done a, w => Q a w
  | .ask r k, w => G w r ∧ ∀ x w', E.answers w r x w' → (k x).Safe E G Q w'

section Safe
variable {E : Env S W} {G : W → S.Req → Prop} {Q Q' : α → W → Prop}

@[simp] theorem safe_done (a : α) (w : W) : (Prog.done a).Safe E G Q w ↔ Q a w := Iff.rfl

@[simp] theorem safe_ask (r : S.Req) (k : S.Ans r → Prog S α) (w : W) :
    (Prog.ask r k).Safe E G Q w ↔
      G w r ∧ ∀ x w', E.answers w r x w' → (k x).Safe E G Q w' := Iff.rfl

theorem safe_bind (p : Prog S α) (f : α → Prog S β) (R : β → W → Prop) (w : W) :
    (p >>= f).Safe E G R w ↔ p.Safe E G (fun a w' => (f a).Safe E G R w') w := by
  induction p generalizing w with
  | done a => rfl
  | ask r k ih =>
    simp only [Prog.ask_bind, safe_ask]
    exact and_congr_right fun _ => forall₃_congr fun x w' _ => ih x w'

theorem Prog.Safe.weaken {G' : W → S.Req → Prop} {p : Prog S α} {w : W} (h : p.Safe E G Q w)
    (hG : ∀ w r, G w r → G' w r) (hQ : ∀ a w', Q a w' → Q' a w') : p.Safe E G' Q' w := by
  induction p generalizing w with
  | done a => exact hQ a w h
  | ask r k ih => exact ⟨hG w r h.1, fun x w' hx => ih x (h.2 x w' hx)⟩

theorem Prog.Safe.mono {p : Prog S α} {w : W} (h : p.Safe E G Q w)
    (hQ : ∀ a w', Q a w' → Q' a w') : p.Safe E G Q' w :=
  h.weaken (fun _ _ hG => hG) hQ

/-- The rule of sequencing: a subprogram with its own postcondition. -/
theorem Prog.Safe.seq {p : Prog S α} {f : α → Prog S β} {R : β → W → Prop} {w : W}
    (h : p.Safe E G Q w) (hf : ∀ a w', Q a w' → (f a).Safe E G R w') :
    (p >>= f).Safe E G R w :=
  (safe_bind p f R w).mpr (h.mono hf)

end Safe

/-- Every request a program can issue, whatever it is answered. -/
def Prog.Only (G : S.Req → Prop) : Prog S α → Prop
  | .done _ => True
  | .ask r k => G r ∧ ∀ x, (k x).Only G

section Only
variable {G : S.Req → Prop}

@[simp] theorem only_done (a : α) : (Prog.done a : Prog S α).Only G := trivial

@[simp] theorem only_ask (r : S.Req) (k : S.Ans r → Prog S α) :
    (Prog.ask r k).Only G ↔ G r ∧ ∀ x, (k x).Only G := Iff.rfl

theorem Prog.Only.bind {p : Prog S α} {f : α → Prog S β} (h : p.Only G)
    (hf : ∀ a, (f a).Only G) : (p >>= f).Only G := by
  induction p with
  | done a => exact hf a
  | ask r k ih => exact ⟨h.1, fun x => ih x (h.2 x)⟩

theorem Prog.Only.mono {G' : S.Req → Prop} {p : Prog S α} (h : p.Only G)
    (hG : ∀ r, G r → G' r) : p.Only G' := by
  induction p with
  | done a => trivial
  | ask r k ih => exact ⟨hG r h.1, fun x => ih x (h.2 x)⟩

theorem Prog.Only.keeps {E : Env S W} {H : W → S.Req → Prop} {I : W → Prop} {p : Prog S α} {w : W}
    (h : p.Only G) (hI : ∀ w r, I w → G r → H w r ∧ ∀ x w', E.answers w r x w' → I w')
    (hw : I w) : p.Safe E H (fun _ => I) w := by
  induction p generalizing w with
  | done a => exact hw
  | ask r k ih =>
    obtain ⟨hguard, hkeep⟩ := hI w r hw h.1
    exact ⟨hguard, fun x w' hx => ih x (h.2 x) (hkeep x w' hx)⟩

/-- A program that only asks what the guard allows and the world ignores. -/
theorem Prog.Only.safe {E : Env S W} {H : W → S.Req → Prop} {p : Prog S α} {w : W}
    (h : p.Only G) (hG : ∀ r, G r → H w r)
    (hE : ∀ r x w', G r → E.answers w r x w' → w' = w) : p.Safe E H (fun _ w' => w' = w) w := by
  refine h.keeps (fun w' r hw hr => ?_) rfl
  subst hw
  exact ⟨hG r hr, fun x w' hx => hE r x w' hr hx⟩

end Only

/-- A partial run: the requests issued so far and what is left of the program. -/
inductive Steps (E : Env S W) : Prog S α → W → List (Event S) → Prog S α → W → Prop
  | refl (p : Prog S α) (w : W) : Steps E p w [] p w
  | cons {r : S.Req} {k : S.Ans r → Prog S α} {x : S.Ans r} {w w' w'' : W}
      {t : List (Event S)} {p : Prog S α} :
      E.answers w r x w' → Steps E (k x) w' t p w'' → Steps E (.ask r k) w (⟨r, x⟩ :: t) p w''

section Steps
variable {E : Env S W} {G : W → S.Req → Prop} {Q : α → W → Prop}

theorem Prog.Safe.steps {p p' : Prog S α} {w w' : W} {t : List (Event S)}
    (h : p.Safe E G Q w) (hs : Steps E p w t p' w') : p'.Safe E G Q w' := by
  induction hs with
  | refl => exact h
  | cons hx _ ih => exact ih (h.2 _ _ hx)

theorem Steps.append {p p' p'' : Prog S α} {w w' w'' : W} {t t' : List (Event S)}
    (h : Steps E p w t p' w') (h' : Steps E p' w' t' p'' w'') :
    Steps E p w (t ++ t') p'' w'' := by
  induction h with
  | refl => exact h'
  | cons hx _ ih => exact .cons hx (ih h')

theorem Steps.bind {p : Prog S α} {f : α → Prog S β} {q : Prog S β} {a : α} {w w' w'' : W}
    {t t' : List (Event S)}
    (h : Steps E p w t (.done a) w') (h' : Steps E (f a) w' t' q w'') :
    Steps E (p >>= f) w (t ++ t') q w'' := by
  generalize hend : Prog.done a = p' at h
  induction h with
  | refl =>
    subst hend
    exact h'
  | cons hx _ ih => exact .cons hx (ih h' hend)

theorem Prog.Only.steps {H : S.Req → Prop} {p p' : Prog S α} {w w' : W} {t : List (Event S)}
    (h : p.Only H) (hs : Steps E p w t p' w') : p'.Only H ∧ ∀ e ∈ t, H e.req := by
  induction hs with
  | refl => exact ⟨h, by simp⟩
  | cons _ _ ih =>
    obtain ⟨hrest, ht⟩ := ih (h.2 _)
    exact ⟨hrest, List.forall_mem_cons.mpr ⟨h.1, ht⟩⟩

/-- Every request of a run is issued in a world where the guard held. -/
theorem Prog.Safe.guard {p p' : Prog S α} {w w' : W} {t : List (Event S)}
    (h : p.Safe E G Q w) (hs : Steps E p w t p' w') {r : S.Req} {k : S.Ans r → Prog S α}
    (hp : p' = .ask r k) : G w' r := by
  have hsafe := h.steps hs
  rw [hp] at hsafe
  exact hsafe.1

theorem Prog.Safe.requests {p p' : Prog S α} {w w' : W} {t : List (Event S)}
    (h : p.Safe E G Q w) (hs : Steps E p w t p' w') : ∀ e ∈ t, ∃ v, G v e.req := by
  induction hs with
  | refl => exact fun e he => absurd he List.not_mem_nil
  | cons hx _ ih => exact List.forall_mem_cons.mpr ⟨⟨_, h.1⟩, ih (h.2 _ _ hx)⟩

theorem exists_steps (hE : ∀ w r, ∃ x w', E.answers w r x w') (p : Prog S α) (w : W) :
    ∃ t a w', Steps E p w t (.done a) w' := by
  induction p generalizing w with
  | done a => exact ⟨[], a, w, .refl _ _⟩
  | ask r k ih =>
    obtain ⟨x, w₁, hx⟩ := hE w r
    obtain ⟨t, a, w₂, hsteps⟩ := ih x w₁
    exact ⟨⟨r, x⟩ :: t, a, w₂, .cons hx hsteps⟩

theorem Steps.mono {E' : Env S W} {p p' : Prog S α} {w w' : W} {t : List (Event S)}
    (h : Steps E p w t p' w')
    (hE : ∀ w r x w', E.answers w r x w' → E'.answers w r x w') : Steps E' p w t p' w' := by
  induction h with
  | refl p w => exact .refl p w
  | cons hx _ ih => exact .cons (hE _ _ _ _ hx) ih

theorem Prog.Safe.reached {p p' : Prog S α} {w w' : W} {t : List (Event S)} {I : W → Prop}
    (h : p.Safe E G Q w) (hs : Steps E p w t p' w') (hG : ∀ v r, G v r → I v)
    (hQ : ∀ a v, Q a v → I v) : I w' := by
  have hsafe := h.steps hs
  cases p' with
  | done a => exact hQ a _ hsafe
  | ask r k => exact hG _ _ hsafe.1

end Steps

def Prog.eval (h : W → (r : S.Req) → S.Ans r × W) : Prog S α → W → α × W
  | .done a, w => (a, w)
  | .ask r k, w => (k (h w r).1).eval h (h w r).2

section Eval
variable (h : W → (r : S.Req) → S.Ans r × W)

@[simp] theorem eval_done (a : α) (w : W) : (Prog.done a).eval h w = (a, w) := rfl

@[simp] theorem eval_ask (r : S.Req) (k : S.Ans r → Prog S α) (w : W) :
    (Prog.ask r k).eval h w = (k (h w r).1).eval h (h w r).2 := rfl

theorem eval_bind (p : Prog S α) (f : α → Prog S β) (w : W) :
    (p >>= f).eval h w = (f (p.eval h w).1).eval h (p.eval h w).2 := by
  induction p generalizing w with
  | done a => rfl
  | ask r k ih => exact ih _ _

theorem Prog.Only.eval_world {G : S.Req → Prop} {p : Prog S α} {w : W} (hp : p.Only G)
    (hG : ∀ w r, G r → (h w r).2 = w) : (p.eval h w).2 = w := by
  induction p generalizing w with
  | done a => rfl
  | ask r k ih => rw [eval_ask, ih _ (hp.2 _), hG w r hp.1]

theorem eval_invariant {I : W → Prop} (hI : ∀ w r, I w → I (h w r).2) (p : Prog S α) {w : W}
    (hw : I w) : I (p.eval h w).2 := by
  induction p generalizing w with
  | done a => exact hw
  | ask r k ih => exact ih _ (hI w r hw)

/-- A handler that only gives permitted answers runs the program to its end. -/
theorem eval_steps {E : Env S W} (hE : ∀ w r, E.answers w r (h w r).1 (h w r).2)
    (p : Prog S α) (w : W) :
    ∃ t, Steps E p w t (.done (p.eval h w).1) (p.eval h w).2 := by
  induction p generalizing w with
  | done a => exact ⟨[], .refl _ _⟩
  | ask r k ih =>
    obtain ⟨t, ht⟩ := ih (h w r).1 (h w r).2
    exact ⟨_, .cons (hE w r) ht⟩

end Eval

/-- What one program knows: `next` records each answer, `assume` restricts which
answers the environment may give there. -/
structure Monitor (S : Signature) where
  State : Type
  assume : State → (r : S.Req) → S.Ans r → Prop
  next : State → (r : S.Req) → S.Ans r → State

def Monitor.env (M : Monitor S) : Env S M.State where
  answers q r x q' := M.assume q r x ∧ q' = M.next q r x

@[simp] theorem Monitor.env_answers (M : Monitor S) (q : M.State) (r : S.Req) (x : S.Ans r)
    (q' : M.State) : M.env.answers q r x q' ↔ M.assume q r x ∧ q' = M.next q r x := Iff.rfl

theorem Prog.Only.mute {M : Monitor S} {K : S.Req → Prop} {H : M.State → S.Req → Prop} {q : M.State}
    {p : Prog S α} (h : p.Only K) (hK : ∀ r, K r → H q r ∧ ∀ x, M.next q r x = q) :
    p.Safe M.env H (fun _ q' => q' = q) q :=
  h.safe (fun r hr => (hK r hr).1) fun r x _ hr hx => hx.2.trans ((hK r hr).2 x)

section Simulation
variable {M : Monitor S} {E : Env S W} {G : M.State → S.Req → Prop} {Q : α → M.State → Prop}

/-- Safety against a monitor holds along the runs of any world that keeps to what the
monitor assumes, with a relation between the two carried along. -/
theorem Prog.Safe.simulate {I : M.State → W → Prop}
    (hstep : ∀ q w r x w', I q w → G q r → E.answers w r x w' →
      M.assume q r x ∧ I (M.next q r x) w')
    {p p' : Prog S α} {w w' : W} {t : List (Event S)} (hs : Steps E p w t p' w')
    {q : M.State} (h : p.Safe M.env G Q q) (hI : I q w) :
    ∃ q', I q' w' ∧ p'.Safe M.env G Q q' := by
  induction hs generalizing q with
  | refl => exact ⟨q, hI, h⟩
  | cons hx _ ih =>
    obtain ⟨ha, hI'⟩ := hstep q _ _ _ _ hI h.1 hx
    exact ih (h.2 _ _ ⟨ha, rfl⟩) hI'

/-- With nothing assumed, the monitor follows the trace of a run, and every request meets the guard
there. -/
theorem Prog.Safe.trace (hM : ∀ q r x, M.assume q r x) {p p' : Prog S α} {w w' : W}
    {t : List (Event S)} {q : M.State} (h : p.Safe M.env G Q q) (hs : Steps E p w t p' w') :
    p'.Safe M.env G Q (t.foldl (fun q e => M.next q e.req e.ans) q) ∧ ∀ before e rest,
      t = before ++ e :: rest → G (before.foldl (fun q e => M.next q e.req e.ans) q) e.req := by
  induction hs generalizing q with
  | refl => exact ⟨h, fun before e rest ht => by simp at ht⟩
  | @cons r k x w w' w'' t p hx _ ih =>
    obtain ⟨hend, hguard⟩ := ih (h.2 x _ ⟨hM q r x, rfl⟩)
    refine ⟨hend, fun before e rest ht => ?_⟩
    cases before with
    | nil =>
      obtain ⟨rfl, -⟩ := List.cons.inj ht
      exact h.1
    | cons e' before =>
      obtain ⟨rfl, ht'⟩ := List.cons.inj ht
      exact hguard before e rest ht'

end Simulation

section Interleaving
variable {ι : Type} [DecidableEq ι]

structure Shared (S : Signature) (ι W : Type) where
  answers : W → ι → (r : S.Req) → S.Ans r → W → Prop

structure Config (M : ι → Monitor S) (W α : Type) where
  procs : ι → Prog S α
  knows : ∀ i, (M i).State
  world : W

variable {M : ι → Monitor S} {H : Shared S ι W}

/-- One process gets the answer to the request it is waiting for. -/
inductive Config.Step (H : Shared S ι W) : Config M W α → ι → Event S → Config M W α → Prop
  | mk {c : Config M W α} {i : ι} {r : S.Req} {k : S.Ans r → Prog S α} {x : S.Ans r} {w : W} :
      c.procs i = .ask r k → H.answers c.world i r x w →
      Step H c i ⟨r, x⟩ ⟨Function.update c.procs i (k x),
        Function.update c.knows i ((M i).next (c.knows i) r x), w⟩

inductive Config.Reach (H : Shared S ι W) (P : Config M W α → ι → Event S → Prop)
    (c₀ : Config M W α) : Config M W α → Prop
  | refl : Reach H P c₀ c₀
  | tail {c c' : Config M W α} {i : ι} {e : Event S} :
      Reach H P c₀ c → c.Step H i e c' → P c i e → Reach H P c₀ c'

theorem Config.Reach.invariant {P : Config M W α → ι → Event S → Prop}
    {c₀ c : Config M W α} {I : Config M W α → Prop} (h : Reach H P c₀ c) (h₀ : I c₀)
    (hstep : ∀ c i e c', I c → c.Step H i e c' → P c i e → I c') : I c := by
  induction h with
  | refl => exact h₀
  | tail _ hs hP ih => exact hstep _ _ _ _ ih hs hP

def Config.AllSafe (G : ∀ i, (M i).State → S.Req → Prop) (Q : ∀ i, α → (M i).State → Prop)
    (c : Config M W α) : Prop :=
  ∀ i, (c.procs i).Safe (M i).env (G i) (Q i) (c.knows i)

/-- Safety of each process against its monitor survives every interleaving, as long
as the shared world keeps to what the monitor assumes. -/
theorem Config.AllSafe.step {G : ∀ i, (M i).State → S.Req → Prop}
    {Q : ∀ i, α → (M i).State → Prop} {c c' : Config M W α} {i : ι} {e : Event S}
    (h : c.AllSafe G Q) (hs : c.Step H i e c')
    (ha : (M i).assume (c.knows i) e.req e.ans) : c'.AllSafe G Q := by
  cases hs with
  | @mk r k x w hp hx =>
    intro j
    by_cases hj : j = i
    · subst hj
      have hsafe := h j
      rw [hp] at hsafe
      simpa using hsafe.2 x _ ⟨ha, rfl⟩
    · simpa [Function.update_of_ne hj] using h j

def Config.drive (h : ι → W → (r : S.Req) → S.Ans r × W) (i : ι) :
    Nat → Config M W α → Config M W α
  | 0, c => c
  | n + 1, c =>
    match c.procs i with
    | .done _ => c
    | .ask r k => drive h i n ⟨Function.update c.procs i (k (h i c.world r).1),
        Function.update c.knows i ((M i).next (c.knows i) r (h i c.world r).1), (h i c.world r).2⟩

theorem Config.Reach.drive {P : Config M W α → ι → Event S → Prop} {c₀ c : Config M W α}
    {h : ι → W → (r : S.Req) → S.Ans r × W} (hc : Reach H P c₀ c)
    (hH : ∀ i w r, H.answers w i r (h i w r).1 (h i w r).2) (i : ι)
    (hP : ∀ c r, P c i ⟨r, (h i c.world r).1⟩) (n : Nat) :
    Reach H P c₀ (c.drive h i n) := by
  induction n generalizing c with
  | zero => exact hc
  | succ n ih =>
    unfold Config.drive
    split
    · exact hc
    · rename_i r k hp
      exact ih (hc.tail (.mk hp (hH i c.world r)) (hP c r))

end Interleaving

end Interaction
