import Hacman.CommandFiles
import Hacman.Interrupted
import Hacman.Main
import Hacman.SetupChild
import Hacman.SetupOutput

/-!
# One setup, in several models

The driver only asks for its setup and takes the answer; the work directory, the temporary files,
the signals, the output and the child each have a model of their own. They agree on what they
share: which calls are made in which order, and how `hm_install` ends.
-/

namespace Hacman.Setups
open Octets Util Config Interaction

section Work
open Main FileTree WorkTree CommandFiles
variable {k : Kernel} {fuel pid : Nat} {p : Project} {o : Opts} {c : Slot}
  {cacheDir : Bytes} {w : World} {g : World → (r : Main.calls.Req) → Main.calls.Ans r × World}

def succeeded (run : WorkTree.Outcome × World) : Bool × World := (run.1.isOk, run.2)

/-- The driver's requests for the work directory change the file tree as their functions do. -/
structure Serves (k : Kernel) (fuel pid : Nat)
    (g : World → (r : Main.calls.Req) → Main.calls.Ans r × World) : Prop where
  reset : ∀ w workdir, g w (.reset workdir) =
    succeeded ((hmWorkdirReset fuel workdir).eval k.answer w)
  materialize : ∀ w (p : Project) workdir, g w (.materialize p.files workdir) =
    succeeded ((hmMaterializeFiles pid p workdir).eval k.answer w)

/-- The command is asked for behind `prepareWork`, and only if that goes well. -/
theorem commandSetup_prepares (hg : Serves k fuel pid g) (r : Record) :
    (commandSetup p o c r cacheDir).eval g w =
      let (prepared, w') := succeeded ((prepareWork fuel pid r.known p c.workdir).eval k.answer w)
      if prepared then g w' (.command p c.workdir cacheDir o.trace) else (false, w') := by
  rw [commandSetup, eval_bind, prepareWork, eval_bind]
  have hreset : (resetUnlessKnown c r).eval g w = succeeded
      ((if r.known then pure (.ok ()) else hmWorkdirReset fuel c.workdir : F WorkTree.Outcome).eval
        k.answer w) := by
    unfold resetUnlessKnown
    cases r.known with
    | true => rfl
    | false => exact hg.reset w c.workdir
  have hwritten (w' : World) : (materializeFiles p c).eval g w' = succeeded
      ((if p.files = [] then pure (.ok ()) else hmMaterializeFiles pid p c.workdir :
        F WorkTree.Outcome).eval k.answer w') := by
    unfold materializeFiles
    by_cases hfiles : p.files = []
    · rw [if_pos hfiles, if_neg (not_not.mpr hfiles)]
      rfl
    · rw [if_neg hfiles, if_pos hfiles]
      exact hg.materialize w' p c.workdir
  rw [hreset]
  cases hrun : (if r.known then pure (.ok ()) else hmWorkdirReset fuel c.workdir :
      F WorkTree.Outcome).eval k.answer w with
  | mk clean w₁ =>
    cases clean with
    | error complaint => rfl
    | ok _ =>
      change ((materializeFiles p c) >>= _ : P Bool).eval g w₁ = _
      rw [eval_bind, hwritten]
      dsimp only
      cases succeeded ((if p.files = [] then pure (.ok ()) else hmMaterializeFiles pid p c.workdir :
          F WorkTree.Outcome).eval k.answer w₁) with
      | mk written w₂ => cases written <;> rfl

end Work

section Install
open Install

theorem hmInstall_answers {W : Type} {g : W → (r : Main.calls.Req) → Main.calls.Ans r × W} {w : W}
    {o : Outcomes} (c : Call) {oldMark workdir cacheDir : Bytes} {res : Main.CheckResult}
    (hask : (g w (.install c.project oldMark res workdir cacheDir c.trace)).1 =
      decide ((hmInstall c o).ending = .returned 0)) :
    ((Main.hmInstall c.project oldMark res workdir cacheDir c.trace).eval g w).1 =
      decide ((hmInstall c o).ending = .returned 0) := by
  unfold Main.hmInstall
  by_cases hnone : c.project.install = []
  · rw [if_pos hnone, Install.hmInstall, if_pos hnone]
    rfl
  · rw [if_neg hnone]
    exact hask

variable {c : Call} {o : Outcomes} {s : State} {script : Bytes} {response : Option Bytes}

def verdict (o : Outcomes) : Int :=
  if o.fork && o.wait && o.child.status = .exited 0 then 0 else -1

theorem cleanup_ending (s : State) (signal : Option Reaping.Sig) (rc : Int) :
    (cleanup c s response signal rc).ending = signal.elim (.returned rc) .died := by
  cases signal <;> rfl

theorem supervise_ending :
    (supervise c o s script response).ending = o.signal.elim (.returned (verdict o)) .died := by
  unfold supervise verdict
  cases hfork : o.fork with
  | false => exact cleanup_ending _ _ _
  | true =>
    cases hwait : o.wait with
    | false => exact cleanup_ending _ _ _
    | true =>
      cases hsignal : o.signal with
      | some sig => rfl
      | none => by_cases hstatus : o.child.status = .exited 0 <;> simp [hstatus, cleanup_ending]

/-- The machine of the signals ends as the machine of the files does, once it has come to
`forward_signals_end`. -/
theorem supervise_interrupted {i : Reaping.State} {e : Interrupted.Ending}
    (hending : Interrupted.ending i = some e) (hdone : i.here = .done)
    (hsignal : o.signal = i.vars.setupSignal) :
    (∀ sig, e = .raised sig ↔ (supervise c o s script response).ending = .died sig) ∧
      (e = .returned ↔ (supervise c o s script response).ending = .returned (verdict o)) := by
  rw [supervise_ending, hsignal]
  simp only [Interrupted.ending, hdone, Interrupted.forwardSignalsReraise] at hending
  cases hrecorded : i.vars.setupSignal with
  | none =>
    rw [hrecorded] at hending
    obtain rfl := Option.some.inj hending
    simp
  | some sig =>
    rw [hrecorded] at hending
    obtain rfl := Option.some.inj hending
    simp

/-- The machine of the output comes to the result of the machine of the files. -/
theorem supervise_shown {call : SetupOutput.Call} {capacity : Nat}
    {x : SetupOutput.State} {rc : Int}
    (h : Machine.Reach (Machine.guarded (SetupOutput.step call capacity) SetupOutput.quiet)
      (SetupOutput.start call) x) (hover : x.phase = .over rc)
    (hcalls : (o.fork && o.wait) = true) (hstatus : x.shell = some o.child.status)
    (hsignal : x.signal.isSome = o.signal.isSome) :
    rc = 0 ↔ (supervise c o s script response).ending = .returned 0 := by
  have hrc := SetupOutput.over_rc h hover
  rw [supervise_ending, verdict, hcalls]
  cases hnone : o.signal with
  | some sig =>
    rw [hnone] at hsignal
    simp [hrc, SetupOutput.failing, hsignal]
  | none =>
    rw [hnone] at hsignal
    by_cases hexit : o.child.status = .exited 0 <;>
      simp [hrc, SetupOutput.failing, hsignal, hstatus, hexit]

def childOf (e : SetupChild.Ending) (he : SetupChild.Ended e) (shell : Status) : Child where
  shell := e = .shell
  status := match e with
    | .shell => shell
    | .exited code => .exited code
  early := by
    rcases he with rfl | rfl | rfl <;> simp

/-- An install that succeeds has come to its shell. -/
theorem supervise_became {e : SetupChild.Ending} (he : SetupChild.Ended e) (shell : Status)
    (hchild : o.child = childOf e he shell)
    (h : (supervise c o s script response).ending = .returned 0) : e = .shell ∧
    shell = .exited 0 := by
  have hran := supervise_returns h
  rw [Bool.and_eq_true, hchild] at hran
  have hshell : e = .shell := of_decide_eq_true hran.2
  subst hshell
  refine ⟨rfl, ?_⟩
  rw [supervise_ending] at h
  cases hsignal : o.signal with
  | some sig =>
    rw [hsignal] at h
    cases h
  | none =>
    rw [hsignal, verdict, hchild] at h
    by_contra hexit
    simp [childOf, hexit] at h

end Install

end Hacman.Setups
