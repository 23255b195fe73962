import Hacman.Install
import Hacman.Sandbox

/-!
# From the fork to the shell

The child of `hm_command_run` and of `hm_install` prepares itself call by call and then becomes the
shell. Whatever fails on the way ends it with an exit code of its own, so that project code runs
only in the right directory, with its variables, and inside its sandbox.
-/

namespace Hacman.SetupChild
open Octets Util Config Interaction Layers Sandbox Delivery

section Model

inductive Setup
  | command
  | script (path newMark : Bytes) (oldMark response : Option Bytes)

inductive Ending
  | exited (code : Nat)
  | shell
  deriving DecidableEq, Repr

variable (strerror : Errno → Bytes) (p : Project) (workdir cacheDir : Bytes) (trace : Bool)

/-- The results of `setenv` and `unsetenv` are not looked at. -/
def setVars : List (Bytes × Option Bytes) → C Unit
  | [] => pure ()
  | (name, value) :: vars => do
    let _ ← setenv name value
    setVars vars

/-- There is a capture file unless the output is traced. -/
def redirect : C Bool := do
  if trace then traceTo
  else
    match ← capture with
    | .error e =>
      complain strerror (ascii "cannot capture setup output") e
      pure false
    | .ok () => pure true

def confine : C Bool := do
  if p.sandboxed then
    setVars (sandboxEnv p workdir cacheDir)
    hmSandboxEnter strerror p workdir cacheDir
  else pure true

def become (argv : List Bytes) : C Ending := do
  match ← exec argv with
  | none => pure .shell
  | some e =>
    complain strerror (ascii "cannot execute " ++ Plan.HM_SHELL) e
    pure (.exited 127)

def commandVars : List (Bytes × Option Bytes) :=
  [(ascii "HACMAN_NAME", some (nameArg p)), (ascii "HACMAN_WORKDIR", some workdir),
    (ascii "HACMAN_URL", none),
    (ascii "HACMAN_CHECK", none), (ascii "HACMAN_VERSION", none), (ascii "HACMAN_PREVIOUS", none),
    (ascii "HACMAN_RESPONSE", none)]

def scriptVars (newMark : Bytes) (oldMark response : Option Bytes) : List (Bytes × Option Bytes) :=
  [(ascii "HACMAN_NAME", some (nameArg p)), (ascii "HACMAN_URL", some (urlArg p)),
    (ascii "HACMAN_CHECK", some (hmCheckName p.check)), (ascii "HACMAN_VERSION", some newMark),
    (ascii "HACMAN_PREVIOUS", some (oldMark.getD [])), (ascii "HACMAN_RESPONSE", response),
    (ascii "HACMAN_WORKDIR", none)]

def scriptArgv (script : Bytes) : List Bytes :=
  [Plan.HM_SHELL, ascii "-e"] ++ (if trace then [ascii "-x"] else []) ++ [script]

/-- A command enters its directory before it sets its variables. -/
def commandChild : C Ending := do
  if !(← initSignals) then pure (.exited 126)
  else if !(← redirect strerror trace) then pure (.exited 126)
  else
    match ← chdir workdir with
    | .error e =>
      complain strerror (nameArg p ++ ascii ": cannot enter " ++ workdir) e
      pure (.exited 127)
    | .ok () =>
      setVars (commandVars p workdir)
      if !(← confine strerror p workdir cacheDir) then pure (.exited 126)
      else become strerror (commandArgv p Plan.HM_SHELL trace)

def scriptChild (script newMark : Bytes) (oldMark response : Option Bytes) : C Ending := do
  if !(← initSignals) then pure (.exited 126)
  else if !(← redirect strerror trace) then pure (.exited 126)
  else
    setVars (scriptVars p newMark oldMark response)
    match ← chdir workdir with
    | .error e =>
      complain strerror (nameArg p ++ ascii ": cannot enter work directory " ++ workdir) e
      pure (.exited 126)
    | .ok () =>
      if !(← confine strerror p workdir cacheDir) then pure (.exited 126)
      else become strerror (scriptArgv trace script)

def Setup.child : Setup → C Ending
  | .command => commandChild strerror p workdir cacheDir trace
  | .script path newMark oldMark response =>
    scriptChild strerror p workdir cacheDir trace path newMark oldMark response

def Setup.env : Setup → List (Bytes × Option Bytes)
  | .command => commandEnv p workdir cacheDir
  | .script _ newMark oldMark response => installEnv p workdir cacheDir newMark oldMark response

def Setup.argv : Setup → List Bytes
  | .command => commandArgv p Plan.HM_SHELL trace
  | .script path _ _ _ => scriptArgv trace path

theorem commandEnv_eq :
    commandEnv p workdir cacheDir = commandVars p workdir ++ sandboxEnv p workdir cacheDir := rfl

theorem installEnv_eq (newMark : Bytes) (oldMark response : Option Bytes) :
    installEnv p workdir cacheDir newMark oldMark response =
      scriptVars p newMark oldMark response ++ sandboxEnv p workdir cacheDir := rfl

end Model

section Steps
variable {O : Type} {h : Host O} {strerror : Errno → Bytes} {p : Project} {workdir cacheDir : Bytes}
  {trace : Bool} {w w₀ : World O} {G : World O → Call → Prop}

def applied (env : Bytes → Option Bytes) (vars : List (Bytes × Option Bytes)) : Bytes →
    Option Bytes :=
  vars.foldl (fun env var => Function.update env var.1 var.2) env

theorem applied_append (env : Bytes → Option Bytes) (vars vars' : List (Bytes × Option Bytes)) :
    applied env (vars ++ vars') = applied (applied env vars) vars' := List.foldl_append

theorem applied_eq {vars : List (Bytes × Option Bytes)} (hnodup : (vars.map Prod.fst).Nodup)
    (env : Bytes → Option Bytes) (name : Bytes) : applied env vars name =
    (vars.lookup name).getD (env name) := by
  induction vars generalizing env with
  | nil => rfl
  | cons var vars ih =>
    obtain ⟨key, value⟩ := var
    obtain ⟨hkey, hrest⟩ := List.nodup_cons.mp hnodup
    rw [show applied env ((key, value) :: vars) =
      applied (Function.update env key value) vars from rfl, ih hrest]
    by_cases hname : name = key
    · subst hname
      have hnone : vars.lookup name = none := by
        rw [List.lookup_eq_none_iff]
        intro pair hpair
        rw [bne_iff_ne]
        intro hsame
        exact hkey (List.mem_map.mpr ⟨pair, hpair, hsame.symm⟩)
      rw [hnone, List.lookup_cons_self, Option.getD_none, Function.update_self, Option.getD_some]
    · rw [Function.update_of_ne hname, List.lookup_cons, beq_eq_false_iff_ne.mpr hname]

def Has (w w₀ : World O) (vars : List (Bytes × Option Bytes)) : Prop :=
  w.unset = false → w₀.unset = false ∧ w.env = applied w₀.env vars

def rest (w : World O) : (Fd → Option (Handle O)) × Domain O Right × O × Bool × Bool :=
  (w.fds, w.domain, w.cwd, w.traced, w.captured)

theorem setVars_safe {before : List (Bytes × Option Bytes)} (vars : List (Bytes × Option Bytes))
    (hG : ∀ w name value, G w (.setenv name value)) (hw : Has w w₀ before) :
    (setVars vars).Safe h.child G (fun _ w' => rest w' = rest w ∧
      Has w' w₀ (before ++ vars)) w := by
  induction vars generalizing w before with
  | nil => exact ⟨rfl, by rwa [List.append_nil]⟩
  | cons var vars ih =>
    obtain ⟨name, value⟩ := var
    refine ⟨hG _ _ _, fun x w₁ hx => ?_⟩
    have hhas : rest w₁ = rest w ∧ Has w₁ w₀ (before ++ [(name, value)]) := by
      cases hx with
      | setenv =>
        refine ⟨rfl, fun hunset => ?_⟩
        obtain ⟨hstart, henv⟩ := hw hunset
        refine ⟨hstart, ?_⟩
        rw [applied_append, ← henv]
        rfl
      | noSetenv => exact ⟨rfl, nofun⟩
    refine (ih hhas.2).mono fun _ w' hw' => ?_
    rw [List.append_assoc] at hw'
    exact ⟨hw'.1.trans hhas.1, hw'.2⟩

theorem redirect_safe (hG : ∀ w text, G w (.say text)) (htrace : ∀ w, G w .traceTo)
    (hcapture : ∀ w, G w .capture) :
    (redirect strerror trace).Safe h.child G (fun ok w' => ok = true →
      w' = if trace then { w with traced := true } else { w with captured := true }) w := by
  cases trace with
  | true =>
    refine ⟨htrace _, fun x w' hx => ?_⟩
    cases hx with
    | traceTo => exact fun _ => rfl
    | noTrace => exact nofun
  | false =>
    refine ⟨hcapture _, fun x w' hx => ?_⟩
    cases hx with
    | capture => exact fun _ => rfl
    | noCapture e => exact complain_safe _ _ (hG _) nofun

def Inside (h : Host O) (p : Project) (workdir cacheDir : Bytes) (w₀ w : World O) : Prop :=
  if p.sandboxed then ∃ l, Policy h w.cwd p workdir cacheDir l ∧ w.domain = l :: w₀.domain
  else w.domain = w₀.domain

/-- What holds of a child when its shell starts. -/
structure Prepared (h : Host O) (p : Project) (workdir cacheDir : Bytes) (trace : Bool)
    (vars : List (Bytes × Option Bytes)) (w₀ w : World O) : Prop where
  cwd : h.leads w₀.cwd workdir w.cwd ∧ h.isDir w.cwd
  output : if trace then w.traced = true else w.captured = true
  env : w.unset = false → w.env = applied w₀.env vars
  inside : Inside h p workdir cacheDir w₀ w
  fds : w.fds = w₀.fds

/-- The shell starts prepared; everything else on the way is free. -/
def AtShell (h : Host O) (p : Project) (workdir cacheDir : Bytes) (trace : Bool)
    (vars : List (Bytes × Option Bytes)) (argv : List Bytes) (w₀ w : World O) : Call → Prop
  | .exec argv' => argv' = argv ∧ Prepared h p workdir cacheDir trace vars w₀ w
  | _ => True

def Ended (e : Ending) : Prop := e = .shell ∨ e = .exited 126 ∨ e = .exited 127

variable {vars : List (Bytes × Option Bytes)} {argv : List Bytes}

theorem become_safe (hprepared : Prepared h p workdir cacheDir trace vars w₀ w) :
    (become strerror argv).Safe h.child (AtShell h p workdir cacheDir trace vars argv w₀)
    (fun e _ => Ended e) w := by
  refine ⟨⟨rfl, hprepared⟩, fun x w' hx => ?_⟩
  cases hx
  cases x with
  | none => exact .inl rfl
  | some e => exact complain_safe _ _ (fun _ => trivial) (.inr (.inr rfl))

theorem confine_become_safe {before : List (Bytes × Option Bytes)}
    (hcwd : h.leads w₀.cwd workdir w.cwd ∧ h.isDir w.cwd)
    (houtput : if trace then w.traced = true else w.captured = true)
    (hdomain : w.domain = w₀.domain)
    (hfds : w.fds = w₀.fds) (hhas : Has w w₀ before) :
    (do if !(← confine strerror p workdir cacheDir) then
      pure (.exited 126) else become strerror argv : C Ending).Safe
      h.child (AtShell h p workdir cacheDir trace (before ++ sandboxEnv p workdir cacheDir) argv w₀)
      (fun e _ => Ended e) w := by
  unfold confine Delivery.sandboxEnv
  cases hsandboxed : p.sandboxed with
  | false =>
    rw [if_neg Bool.false_ne_true, if_neg Bool.false_ne_true, List.append_nil]
    refine become_safe ⟨hcwd, houtput, fun hunset => (hhas hunset).2, ?_, hfds⟩
    rw [Inside, hsandboxed, if_neg Bool.false_ne_true]
    exact hdomain
  | true =>
    rw [if_pos rfl, if_pos rfl]
    refine Prog.Safe.seq ((setVars_safe _ (fun _ _ _ => trivial) hhas).seq fun _ w₁ hw₁ => ?_) ?_
      (Q := fun ok w' => ok = true → Prepared h p workdir cacheDir trace
        (before ++ [(ascii "TMPDIR", some workdir), (ascii "HACMAN_CACHE", some cacheDir)]) w₀ w')
    · obtain ⟨hrest, hhas₁⟩ := hw₁
      simp only [rest, Prod.mk.injEq] at hrest
      obtain ⟨hfds₁, hdomain₁, hcwd₁, htraced₁, hcaptured₁⟩ := hrest
      refine (hmSandboxEnter_safe w₁).weaken (fun _ c hc => ?_) fun ok w₂ hentered hok => ?_
      · cases c with
        | exec => exact hc.elim
        | _ => trivial
      · obtain ⟨l, hpolicy, hdomain₂⟩ := hentered.entered hok
        have hkept := hentered.kept
        simp only [World.kept, Prod.mk.injEq] at hkept
        obtain ⟨hcwd₂, henv₂, htraced₂, hcaptured₂, hunset₂⟩ := hkept
        refine ⟨?_, ?_, fun hunset => ?_, ?_, ?_⟩
        · rw [hcwd₂, hcwd₁]
          exact hcwd
        · rw [htraced₂, hcaptured₂, htraced₁, hcaptured₁]
          exact houtput
        · rw [henv₂]
          exact (hhas₁ (hunset₂ ▸ hunset)).2
        · rw [Inside, if_pos hsandboxed, hcwd₂, hdomain₂, hdomain₁, hdomain]
          exact ⟨l, hpolicy, rfl⟩
        · rw [hentered.fds, hfds₁, hfds]
    · intro ok w₁ hw₁
      cases ok with
      | false => exact .inr (.inl rfl)
      | true => exact become_safe (hw₁ rfl)

theorem child_safe {k : C Ending} (hk : ∀ w : World O, w.cwd = w₀.cwd → w.domain = w₀.domain →
    w.fds = w₀.fds → (if trace then w.traced = true else w.captured = true) → Has w w₀ [] →
      k.Safe h.child (AtShell h p workdir cacheDir trace vars argv w₀) (fun e _ => Ended e) w) :
    (do
      if !(← initSignals) then pure (.exited 126)
      else if !(← redirect strerror trace) then pure (.exited 126)
      else k : C Ending).Safe h.child (AtShell h p workdir cacheDir trace vars argv w₀)
        (fun e _ => Ended e) w₀ := by
  refine ⟨trivial, fun x w' hx => ?_⟩
  cases hx
  cases x with
  | false => exact .inr (.inl rfl)
  | true =>
    refine (redirect_safe (fun _ _ => trivial) (fun _ => trivial) fun _ => trivial).seq
      fun ok w₁ hw₁ => ?_
    cases ok with
    | false => exact .inr (.inl rfl)
    | true =>
      obtain rfl := hw₁ rfl
      cases trace with
      | true => exact hk _ rfl rfl rfl rfl fun hunset => ⟨hunset, rfl⟩
      | false => exact hk _ rfl rfl rfl rfl fun hunset => ⟨hunset, rfl⟩

theorem commandChild_safe : (commandChild strerror p workdir cacheDir trace).Safe h.child
    (AtShell h p workdir cacheDir trace (commandEnv p workdir cacheDir)
      (commandArgv p Plan.HM_SHELL trace) w₀)
    (fun e _ => Ended e) w₀ := by
  refine child_safe fun w₁ hcwd hdomain hfds houtput hhas => ?_
  refine ⟨trivial, fun x w₂ hx => ?_⟩
  cases hx with
  | noChdir e => exact complain_safe _ _ (fun _ => trivial) (.inr (.inr rfl))
  | @chdir _ o hleads hdir =>
    rw [hcwd] at hleads
    refine (setVars_safe (w := { w₁ with cwd := o }) _
      (fun _ _ _ => trivial) hhas).seq fun _ w₃ hw₃ => ?_
    obtain ⟨hrest, hhas₃⟩ := hw₃
    simp only [rest, Prod.mk.injEq] at hrest
    obtain ⟨hfds₃, hdomain₃, hcwd₃, htraced₃, hcaptured₃⟩ := hrest
    refine confine_become_safe ?_ ?_ (hdomain₃.trans hdomain) (hfds₃.trans hfds) hhas₃
    · rw [hcwd₃]
      exact ⟨hleads, hdir⟩
    · rwa [htraced₃, hcaptured₃]

theorem scriptChild_safe {script newMark : Bytes} {oldMark response : Option Bytes} :
    (scriptChild strerror p workdir cacheDir trace script newMark oldMark response).Safe h.child
      (AtShell h p workdir cacheDir trace (installEnv p workdir cacheDir newMark oldMark response)
        (scriptArgv trace script) w₀) (fun e _ => Ended e) w₀ := by
  refine child_safe fun w₁ hcwd hdomain hfds houtput hhas => ?_
  refine (setVars_safe _ (fun _ _ _ => trivial) hhas).seq fun _ w₂ hw₂ => ?_
  obtain ⟨hrest, hhas₂⟩ := hw₂
  simp only [rest, Prod.mk.injEq] at hrest
  obtain ⟨hfds₂, hdomain₂, hcwd₂, htraced₂, hcaptured₂⟩ := hrest
  refine ⟨trivial, fun x w₃ hx => ?_⟩
  cases hx with
  | noChdir e => exact complain_safe _ _ (fun _ => trivial) (.inr (.inl rfl))
  | @chdir _ o hleads hdir =>
    rw [hcwd₂, hcwd] at hleads
    refine confine_become_safe ⟨hleads, hdir⟩ ?_ (hdomain₂.trans hdomain) (hfds₂.trans hfds) hhas₂
    rwa [htraced₂, hcaptured₂]

theorem env_nodup (setup : Setup) : ((setup.env p workdir cacheDir).map Prod.fst).Nodup := by
  unfold Setup.env commandEnv installEnv Delivery.sandboxEnv
  cases setup <;> cases p.sandboxed <;>
    simp only [if_true, Bool.false_eq_true, if_false, List.append_nil, List.map_append,
      List.map_cons, List.map_nil] <;> decide

theorem child_prepares (setup : Setup) :
    (setup.child strerror p workdir cacheDir trace).Safe h.child
    (AtShell h p workdir cacheDir trace (setup.env p workdir cacheDir) (setup.argv p trace) w₀)
    (fun e _ => Ended e) w₀ := by
  cases setup with
  | command => exact commandChild_safe
  | script => exact scriptChild_safe

end Steps

section Plain

theorem setVars_run {O : Type} {h : Host O} (vars : List (Bytes × Option Bytes)) (w : World O) :
    ∃ t, Steps h.child (setVars vars) w t (.done ()) { w with env := applied w.env vars } := by
  induction vars generalizing w with
  | nil => exact ⟨[], .refl _ _⟩
  | cons var vars ih =>
    obtain ⟨t, hsteps⟩ := ih { w with env := Function.update w.env var.1 var.2 }
    exact ⟨_, .cons .setenv hsteps⟩

theorem plain_confine {workdir : Bytes} {w : World FileTree.Path}
    (hwork : FileTree.comps workdir ≠ FileTree.comps DEV_NULL) (hw : ∀ fd, w.fds fd = none)
    (hlayers : w.domain.length < 16) : ∃ t w', Steps plainHost.child
      (confine (fun _ => []) { sandboxed := true } workdir (ascii "/c")) w t (.done true) w' ∧
      w'.unset = w.unset := by
  obtain ⟨ts, hvars⟩ := setVars_run (h := plainHost)
    (Delivery.sandboxEnv { sandboxed := true } workdir (ascii "/c")) w
  obtain ⟨te, w', henter⟩ := @willing_run _ _ (fun _ => []) { w with env := applied w.env _ }
    { sandboxed := true } _ _ (plain_ready rfl hwork hw hlayers)
  have hchild : Steps plainHost.child _ _ te (.done true) w' := henter.mono fun _ _ _ _ hx => hx.1
  have hkept := ((hmSandboxEnter_safe _).steps hchild).kept
  refine ⟨_, w', hvars.bind (f := fun _ => hmSandboxEnter _ _ _ _) hchild, ?_⟩
  simp only [World.kept, Prod.mk.injEq] at hkept
  exact hkept.2.2.2.2

theorem plain_run {workdir : Bytes} {w₀ : World FileTree.Path}
    (hwork : FileTree.comps workdir ≠ FileTree.comps DEV_NULL) (hw : ∀ fd, w₀.fds fd = none)
    (hlayers : w₀.domain.length < 16) : ∃ t k w', Steps plainHost.child
      (Setup.command.child (fun _ => []) { sandboxed := true } workdir (ascii "/c") true) w₀ t
      (.ask (.exec (Setup.command.argv { sandboxed := true } true)) k) w' ∧
        w'.unset = w₀.unset := by
  obtain ⟨tc, hcommand⟩ := setVars_run (h := plainHost) (commandVars { sandboxed := true } workdir)
    { w₀ with traced := true, cwd := FileTree.comps workdir }
  obtain ⟨ts, w', hconfined, hunset⟩ := plain_confine
    (w := { w₀ with
      traced := true, cwd := FileTree.comps workdir,
      env := applied w₀.env (commandVars { sandboxed := true } workdir) }) hwork hw hlayers
  exact ⟨_, _, w', .cons (.initSignals true) (.cons .traceTo (.cons (.chdir rfl hwork)
    (hcommand.bind (hconfined.bind (.refl _ _))))), hunset⟩

end Plain

end Hacman.SetupChild
