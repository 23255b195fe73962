import Mathlib.Data.List.Basic

/-!
# Machines that are asked for one output after another

A pull machine answers each request with an output and its next state. A stream ends
with its first final output; it is accepted if that output is a good one. The machine is
a function, so a stream from a state is unique, and what is accepted after a stretch of
outputs is decided by the state behind it.
-/

namespace Pull

variable {σ ε : Type} (next : σ → ε × σ) (final : ε → Bool) (good : ε → Prop)

inductive Yields : σ → List ε → σ → Prop
  | nil (s : σ) : Yields s [] s
  | cons {s s' s'' : σ} {e : ε} {es : List ε} (h : next s = (e, s')) (hf : final e = false)
      (rest : Yields s' es s'') : Yields s (e :: es) s''

/-- The outputs from a state up to the first final one. -/
inductive Ends : σ → List ε → Prop
  | last {s s' : σ} {e : ε} (h : next s = (e, s')) (hf : final e = true) : Ends s [e]
  | cons {s s' : σ} {e : ε} {es : List ε} (h : next s = (e, s')) (hf : final e = false)
      (rest : Ends s' es) : Ends s (e :: es)

def Accepts (s : σ) (out : List ε) : Prop :=
  Ends next final s out ∧ ∃ e ∈ out, final e = true ∧ good e

variable {next final good} {s s' s'' : σ} {e : ε} {es es' out : List ε}

theorem Yields.single (h : next s = (e, s')) (hf : final e = false) :
    Yields next final s [e] s' :=
  .cons h hf (.nil s')

theorem Yields.append (h : Yields next final s es s') (h' : Yields next final s' es' s'') :
    Yields next final s (es ++ es') s'' := by
  induction h with
  | nil => exact h'
  | cons hn hf _ ih => exact .cons hn hf (ih h')

theorem ends_of_next (h : next s = (e, s')) (hf : final e = false) :
    Ends next final s out ↔ ∃ rest, out = e :: rest ∧ Ends next final s' rest := by
  constructor
  · intro ho
    cases ho with
    | last hn hl =>
      obtain ⟨rfl, rfl⟩ := Prod.mk.inj (h.symm.trans hn)
      rw [hf] at hl
      cases hl
    | cons hn _ rest =>
      obtain ⟨rfl, rfl⟩ := Prod.mk.inj (h.symm.trans hn)
      exact ⟨_, rfl, rest⟩
  · intro ho
    obtain ⟨rest, rfl, hrest⟩ := ho
    exact .cons h hf hrest

theorem ends_of_final (h : next s = (e, s')) (hf : final e = true) :
    Ends next final s out ↔ out = [e] := by
  constructor
  · intro ho
    cases ho with
    | last hn _ =>
      obtain ⟨rfl, rfl⟩ := Prod.mk.inj (h.symm.trans hn)
      rfl
    | cons hn hl _ =>
      obtain ⟨rfl, rfl⟩ := Prod.mk.inj (h.symm.trans hn)
      rw [hf] at hl
      cases hl
  · intro ho
    rw [ho]
    exact .last h hf

theorem Ends.unique (h : Ends next final s es) (h' : Ends next final s es') : es = es' := by
  induction h generalizing es' with
  | last hn hf => exact ((ends_of_final hn hf).mp h').symm
  | cons hn hf _ ih =>
    obtain ⟨rest, rfl, hrest⟩ := (ends_of_next hn hf).mp h'
    rw [ih hrest]

theorem Ends.forall {I : σ → Prop} {P : ε → Prop}
    (hstep : ∀ s e s', I s → next s = (e, s') → P e ∧ I s') (h : Ends next final s es) (hs : I s) :
    ∀ e ∈ es, P e := by
  induction h with
  | last hn _ =>
    intro e he
    rw [List.mem_singleton.mp he]
    exact (hstep _ _ _ hs hn).1
  | cons hn _ _ ih =>
    obtain ⟨hp, hi⟩ := hstep _ _ _ hs hn
    exact List.forall_mem_cons.mpr ⟨hp, ih hi⟩

/-- Only the last output is final. -/
theorem Ends.split (h : Ends next final s out) :
    ∃ front e, out = front ++ [e] ∧ final e = true ∧ ∀ e ∈ front, final e = false := by
  induction h with
  | last _ hf => exact ⟨[], _, rfl, hf, nofun⟩
  | cons _ hf _ ih =>
    obtain ⟨front, e, rfl, hlast, hfront⟩ := ih
    exact ⟨_ :: front, e, rfl, hlast, List.forall_mem_cons.mpr ⟨hf, hfront⟩⟩

/-- A machine ends if each output that is not final leaves less of some measure. -/
theorem exists_ends {I : σ → Prop} {m : σ → Nat}
    (hstep : ∀ s, I s → final (next s).1 = true ∨ I (next s).2 ∧ m (next s).2 < m s) (hs : I s) :
    ∃ out, Ends next final s out ∧ out.length ≤ m s + 1 := by
  induction hn : m s using Nat.strongRecOn generalizing s with
  | _ n ih =>
    subst hn
    cases hf : final (next s).1 with
    | true => exact ⟨[(next s).1], .last rfl hf, Nat.succ_le_succ (Nat.zero_le _)⟩
    | false =>
      obtain hlast | ⟨hi, hlt⟩ := hstep s hs
      · rw [hf] at hlast
        cases hlast
      · obtain ⟨out, hout, hlen⟩ := ih _ hlt hi rfl
        refine ⟨(next s).1 :: out, .cons rfl hf hout, ?_⟩
        rw [List.length_cons]
        omega

def outputs (next : σ → ε × σ) (final : ε → Bool) : Nat → σ → List ε
  | 0, _ => []
  | n + 1, s => if final (next s).1 then [(next s).1]
    else (next s).1 :: outputs next final n (next s).2

theorem ends_outputs {n : Nat} (h : (outputs next final n s).any final = true) :
    Ends next final s (outputs next final n s) := by
  induction n generalizing s with
  | zero => cases h
  | succ n ih =>
    unfold outputs at h ⊢
    by_cases hf : final (next s).1 = true
    · rw [if_pos hf]
      exact .last rfl hf
    · rw [if_neg hf] at h ⊢
      rw [List.any_cons, Bool.or_eq_true] at h
      exact .cons rfl (by simpa using hf) (ih (h.resolve_left hf))

theorem accepts_congr (h : next s = next s') :
    Accepts next final good s out ↔ Accepts next final good s' out := by
  have hends : ∀ {s s' : σ}, next s = next s' → Ends next final s out → Ends next final s' out := by
    intro s s' h ho
    cases ho with
    | last hn hf => exact .last (h ▸ hn) hf
    | cons hn hf rest => exact .cons (h ▸ hn) hf rest
  exact and_congr_left fun _ => ⟨hends h, hends h.symm⟩

theorem accepts_of_next (h : next s = (e, s')) (hf : final e = false) :
    Accepts next final good s out ↔
      ∃ rest, out = e :: rest ∧ Accepts next final good s' rest := by
  constructor
  · intro ho
    obtain ⟨hends, g, hg, hgood⟩ := ho
    obtain ⟨rest, rfl, hrest⟩ := (ends_of_next h hf).mp hends
    refine ⟨rest, rfl, hrest, g, (List.mem_cons.mp hg).resolve_left ?_, hgood⟩
    intro hge
    rw [hge, hf] at hgood
    exact Bool.false_ne_true hgood.1
  · intro ho
    obtain ⟨rest, rfl, hrest, g, hg, hgood⟩ := ho
    exact ⟨(ends_of_next h hf).mpr ⟨rest, rfl, hrest⟩, g, List.mem_cons_of_mem _ hg, hgood⟩

theorem accepts_of_good (h : next s = (e, s')) (hf : final e = true) (hg : good e) :
    Accepts next final good s out ↔ out = [e] := by
  constructor
  · intro ho
    exact (ends_of_final h hf).mp ho.1
  · intro ho
    rw [ho]
    exact ⟨.last h hf, e, List.mem_singleton_self e, hf, hg⟩

theorem not_accepts_of_bad (h : next s = (e, s')) (hf : final e = true) (hb : ¬ good e) :
    ¬ Accepts next final good s out := by
  intro ho
  obtain ⟨hends, g, hg, -, hgood⟩ := ho
  rw [(ends_of_final h hf).mp hends, List.mem_singleton] at hg
  exact hb (hg ▸ hgood)

theorem Yields.accepts_iff (h : Yields next final s es s') :
    Accepts next final good s out ↔
      ∃ rest, out = es ++ rest ∧ Accepts next final good s' rest := by
  induction h generalizing out with
  | nil s => simp
  | cons hn hf _ ih =>
    rw [accepts_of_next hn hf]
    simp only [ih, List.cons_append]
    constructor
    · intro ho
      obtain ⟨_, rfl, rest, rfl, hrest⟩ := ho
      exact ⟨rest, rfl, hrest⟩
    · intro ho
      obtain ⟨rest, rfl, hrest⟩ := ho
      exact ⟨_, rfl, rest, rfl, hrest⟩

section Passes
variable {t : σ} {C D : Prop} {P Q R : List ε → Prop}

/-- A stretch of the stream: what is accepted from `s` needs `C`, and under `C` it is some
outputs with the property `P` and then what is accepted from `t`. -/
structure Passes (next : σ → ε × σ) (final : ε → Bool) (good : ε → Prop) (s t : σ) (C : Prop)
    (P : List ε → Prop) : Prop where
  needs : ∀ out, Accepts next final good s out → C
  goes : C → ∃ es, P es ∧ ∀ out, Accepts next final good s out ↔
    ∃ rest, out = es ++ rest ∧ Accepts next final good t rest

theorem Passes.of_yields (hneeds : ∀ out, Accepts next final good s out → C)
    (hgoes : C → ∃ es, P es ∧ Yields next final s es t) : Passes next final good s t C P := by
  refine ⟨hneeds, fun hc => ?_⟩
  obtain ⟨es, hp, hes⟩ := hgoes hc
  exact ⟨es, hp, fun out => hes.accepts_iff⟩

theorem Passes.refl (h : P []) (s : σ) : Passes next final good s s True P :=
  ⟨fun _ _ => trivial, fun _ => ⟨[], h, fun out => by simp⟩⟩

theorem Passes.trans (h : Passes next final good s s' C P) (h' : Passes next final good s' t D Q)
    (happend : ∀ es es', P es → Q es' → R (es ++ es')) :
    Passes next final good s t (C ∧ D) R := by
  constructor
  · intro out ho
    have hc := h.needs out ho
    obtain ⟨es, -, hes⟩ := h.goes hc
    obtain ⟨rest, -, hrest⟩ := (hes out).mp ho
    exact ⟨hc, h'.needs rest hrest⟩
  · intro hcd
    obtain ⟨es, hp, hes⟩ := h.goes hcd.1
    obtain ⟨es', hq, hes'⟩ := h'.goes hcd.2
    refine ⟨es ++ es', happend es es' hp hq, fun out => (hes out).trans ?_⟩
    constructor
    · intro ho
      obtain ⟨rest, rfl, hrest⟩ := ho
      obtain ⟨tail, rfl, htail⟩ := (hes' rest).mp hrest
      exact ⟨tail, (List.append_assoc ..).symm, htail⟩
    · intro ho
      obtain ⟨tail, rfl, htail⟩ := ho
      exact ⟨es' ++ tail, List.append_assoc .., (hes' _).mpr ⟨tail, rfl, htail⟩⟩

theorem Passes.congr (h : Passes next final good s t C P) (hc : C ↔ D)
    (hp : ∀ es, P es → Q es) : Passes next final good s t D Q := by
  refine ⟨fun out ho => hc.mp (h.needs out ho), fun hd => ?_⟩
  obtain ⟨es, hes, hgo⟩ := h.goes (hc.mpr hd)
  exact ⟨es, hp es hes, hgo⟩

theorem Passes.of_next (h : next s = next s') (hp : Passes next final good s' t C P) :
    Passes next final good s t C P := by
  refine ⟨fun out ho => hp.needs out ((accepts_congr h).mp ho), fun hc => ?_⟩
  obtain ⟨es, hes, hgo⟩ := hp.goes hc
  exact ⟨es, hes, fun out => (accepts_congr h).trans (hgo out)⟩

theorem Passes.of_not (hs : ∀ out, ¬ Accepts next final good s out) (hc : ¬ C) :
    Passes next final good s t C P :=
  ⟨fun out ho => absurd ho (hs out), fun h => absurd h hc⟩

end Passes

end Pull
