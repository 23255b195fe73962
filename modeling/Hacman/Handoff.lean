import Hacman.Modes

/-!
# Exec first, probe first

The quiet run executes a cached program before it looks whether it is there, and looks only
after a failure. `probingAct` is `act` with the look before the decision, as the verbose and
the inspecting modes have it. Both end in the same way for every state of the program file.
-/

namespace Hacman.Handoff
open Octets Util Cache Config Interaction Main Requests Modes

section Probing
variable (p : Project) (o : Opts) (c : Slot) (cacheDir : Bytes)

/-- The fast path with the probe before the decision. -/
def probingPath (r : Record) (now : Int) : P Outcome := do
  let decision ← isDue p r now o true
  match decision with
  | .due => slowPath p o c cacheDir r now
  | .wait wait => do
    reportSkip p o wait
    finish p o HM_EXIT_OK

def probingAct : P Outcome := do
  let record ← loadRecord c
  match record with
  | none => pure (.exit HM_EXIT_USAGE)
  | some r => do
    let now ← askTime
    probingPath p o c cacheDir r now

end Probing

section Still
variable {W : Type} (h : W → (r : calls.Req) → calls.Ans r × W) (there : W → Bytes → Bool)

/-- A program file that nothing else changes: a look and a failed start leave the world as
it is, and only what a look accepts can start. -/
structure Still : Prop where
  probe : ∀ w path, h w (.access path) = (there w path, w)
  failed : ∀ w path argv reason, (h w (.exec path argv)).1 = some reason →
    (h w (.exec path argv)).2 = w
  starts : ∀ w path argv, (h w (.exec path argv)).1 = none → there w path = true

variable (p : Project) (o : Opts) (c : Slot) (cacheDir : Bytes) (r : Record) (now : Int) (w : W)

/-- How the handoff ends: setup goes on to the lock, the program runs, or its start is
reported as failed. -/
inductive Course
  | setup
  | program
  | refused (reason : Bytes)
  deriving DecidableEq, Repr

def course : Course :=
  match decides p o (there w p.binPath) r now true with
  | .due => .setup
  | .wait _ => match (h w (.exec p.binPath (p.binPath :: o.progArgs))).1 with
    | none => .program
    | some reason => .refused reason

def lockedSetup : P Outcome := do
  let locked ← hmCacheLock c
  if !locked then pure (.exit HM_EXIT_FAILED) else underLock p o c cacheDir

def Course.ends : Course → Outcome × W
  | .setup => (lockedSetup p o c cacheDir).eval h w
  | .program => (.replaced, (h w (.exec p.binPath (p.binPath :: o.progArgs))).2)
  | .refused reason => (cannotExecute p reason).eval h w

variable {h there}

theorem eval_execProgram :
    (execProgram p o).eval h w = h w (.exec p.binPath (p.binPath :: o.progArgs)) := rfl

theorem eval_askAccess (path : Bytes) : (askAccess path).eval h w = h w (.access path) := rfl

theorem finish_quiet (hbin : p.binPath ≠ []) (hquiet : execCheck p o = true)
    (hplan : o.plan = false) :
    finish p o HM_EXIT_OK = execProgram p o >>= fun failed : Option Bytes => match failed with
      | none => pure .replaced
      | some reason => cannotExecute p reason := by
  simp only [execCheck, Bool.and_eq_true, Bool.not_eq_true'] at hquiet
  unfold finish
  exact (if_neg (by simp [hbin])).trans (if_neg (by simp [hplan, hquiet]))

theorem slowPath_quiet (hquiet : execCheck p o = true) :
    slowPath p o c cacheDir r now = lockedSetup p o c cacheDir := by
  simp only [execCheck, Bool.and_eq_true, Bool.not_eq_true'] at hquiet
  unfold slowPath
  rw [if_neg (by simp [hquiet])]
  rfl

theorem eval_probingPath (hstill : Still h there) (hbin : p.binPath ≠ [])
    (hquiet : execCheck p o = true) (hplan : o.plan = false) :
    (probingPath p o c cacheDir r now).eval h w =
      (course h there p o r now w).ends h p o c cacheDir w := by
  unfold probingPath course
  rw [eval_bind, eval_isDue h p o _ (hstill.probe w p.binPath)]
  cases decides p o (there w p.binPath) r now true with
  | due => exact congrArg (·.eval h w) (slowPath_quiet p o c cacheDir r now hquiet)
  | wait wait =>
    have hskip : reportSkip p o wait = pure () := by
      simp only [execCheck, Bool.and_eq_true, Bool.not_eq_true'] at hquiet
      unfold reportSkip
      rw [hquiet.1.1.1.2]
      rfl
    dsimp only
    rw [hskip, finish_quiet p o hbin hquiet hplan]
    dsimp only [Prog.pure_eq, Prog.done_bind]
    rw [eval_bind, eval_execProgram]
    cases hx : (h w (.exec p.binPath (p.binPath :: o.progArgs))).1 with
    | none => rfl
    | some reason =>
      dsimp only
      rw [hstill.failed _ _ _ _ hx]
      rfl

/-- Starting before looking ends where looking before starting does. -/
theorem eval_fastPath (hstill : Still h there) (hquiet : execCheck p o = true) :
    (fastPath p o c cacheDir r now).eval h w =
      (course h there p o r now w).ends h p o c cacheDir w := by
  have hcached : p.binCached = true := by
    simp only [execCheck, Bool.and_eq_true] at hquiet
    exact hquiet.1.1.1.1
  have hblind : ∀ b, decides p o b r now false = decides p o true r now false := fun b => by
    simp [decides]
  have hlook : decides p o (there w p.binPath) r now true =
      if there w p.binPath = true then decides p o true r now false else .due := by
    cases there w p.binPath <;> simp [decides, hcached]
  unfold fastPath course
  rw [eval_bind, eval_isDue h p o _ (hstill.probe w p.binPath), hquiet, hlook]
  dsimp only
  rw [Bool.not_true, hblind]
  cases hd : decides p o true r now false with
  | due =>
    rw [ite_self]
    exact congrArg (·.eval h w) (slowPath_quiet p o c cacheDir r now hquiet)
  | wait wait =>
    dsimp only
    rw [if_pos rfl]
    unfold speculate
    rw [eval_bind, eval_execProgram]
    cases hx : (h w (.exec p.binPath (p.binPath :: o.progArgs))).1 with
    | none =>
      rw [hstill.starts _ _ _ hx]
      rfl
    | some reason =>
      dsimp only
      rw [hstill.failed _ _ _ _ hx, eval_bind, eval_askAccess, hstill.probe]
      cases there w p.binPath with
      | true => rfl
      | false => exact congrArg (·.eval h w) (slowPath_quiet p o c cacheDir r now hquiet)

/-- A run that executes first and one that probes first end with the same outcome in the
same world; a quiet one takes the course that the file and the record decide. -/
theorem exec_first_eq_probe_first {l : Launch} {dir : Bytes} (hrun : prepare l = .run p c dir)
    (hbin : p.binPath ≠ []) (hstill : Still h there) (w : W) :
    (main l).eval h w = (probingAct p l.opts c dir).eval h w ∧
      (execCheck p l.opts = true → ∀ r now w',
        (fastPath p l.opts c dir r now).eval h w' =
            (course h there p l.opts r now w').ends h p l.opts c dir w' ∧
          (probingPath p l.opts c dir r now).eval h w' =
            (course h there p l.opts r now w').ends h p l.opts c dir w') := by
  have hplan := (prepare_run_modes hrun).1
  have hends : execCheck p l.opts = true → ∀ r now w',
      (fastPath p l.opts c dir r now).eval h w' =
          (course h there p l.opts r now w').ends h p l.opts c dir w' ∧
        (probingPath p l.opts c dir r now).eval h w' =
          (course h there p l.opts r now w').ends h p l.opts c dir w' := fun hquiet r now w' =>
    ⟨eval_fastPath p l.opts c dir r now w' hstill hquiet,
      eval_probingPath p l.opts c dir r now w' hstill hbin hquiet hplan⟩
  have hsame : ∀ r now w', (fastPath p l.opts c dir r now).eval h w' =
      (probingPath p l.opts c dir r now).eval h w' := by
    intro r now w'
    cases hquiet : execCheck p l.opts with
    | true => rw [(hends hquiet r now w').1, (hends hquiet r now w').2]
    | false =>
      unfold fastPath probingPath
      rw [hquiet]
      rfl
  refine ⟨?_, hends⟩
  have hmain : main l = act p l.opts c dir := by simp only [main, hrun]
  rw [hmain]
  unfold act probingAct
  rw [eval_bind, eval_bind]
  cases ((loadRecord c).eval h w).1 with
  | none => rfl
  | some r => exact hsame r _ _

end Still

section Refused

def cachedLaunch : Launch where
  opts := { file := some (ascii "p.siml"), cacheDir := some (ascii "/c") }
  siml := fun _ => [.streamStart, .documentStart 1, .mappingStart 1,
    .scalar (ascii "url") (ascii "u") 1, .scalar (ascii "bin-path") (ascii "tool") 2,
    .mappingEnd 3, .documentEnd, .streamEnd]
  xxh3 := fun _ => 0
  version := ascii "1.0"
  content := some (ascii "url: u\nbin-path: tool\n")

def cachedProject : Project where
  name := ascii "u"
  url := ascii "u"
  bin := ascii "tool"
  binPath := ascii "/c/url-0000000000000000.work/tool"
  binCached := true
  schedKind := .every
  schedInterval := 86400
  sandboxed := true
  line := 1

def badFormat (w : Unit) (r : calls.Req) : calls.Ans r × Unit :=
  (match r with
    | .read _ => .ok (some (recordBytes urlSlot.identity { mark := ascii "m", lastCheck := 900 }))
    | .time => (1000 : Int)
    | .exec _ _ => some (ascii "Exec format error")
    | r => obliging r, w)

theorem badFormat_still : Still badFormat fun _ _ => true :=
  ⟨fun _ _ => rfl, fun _ _ _ _ _ => rfl, fun _ _ _ _ => rfl⟩

theorem exec_first_eq_probe_first_refused :
    (main cachedLaunch).eval badFormat () = (.exit 127, ()) ∧
      (probingAct cachedProject cachedLaunch.opts urlSlot (ascii "/c")).eval badFormat () =
        (.exit 127, ()) := by
  have hrun : prepare cachedLaunch = .run cachedProject urlSlot (ascii "/c") := by decide +kernel
  have hmain : (main cachedLaunch).eval badFormat () = (.exit 127, ()) := by decide +kernel
  exact ⟨hmain, ((exec_first_eq_probe_first cachedProject urlSlot hrun (by decide) badFormat_still
    ()).1.symm.trans hmain)⟩

end Refused

end Hacman.Handoff
