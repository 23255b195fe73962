import Hacman.Interaction
import Hacman.Layers
import Hacman.Delivery
import Hacman.FileTree
import Mathlib.Data.Set.Finite.Basic

/-!
# The sandbox of a setup

`hm_sandbox_enter` builds a ruleset rule by rule and then puts it on top of the layers that the
process already has. A call can fail at any moment for reasons of its own; what the kernel
promises is what a call has done when it succeeds, and which arguments it takes.
-/

namespace Hacman.Sandbox
open Octets Util Interaction Layers

section Access

inductive Right
  | execute | writeFile | readFile | readDir | removeDir | removeFile | makeChar | makeDir | makeReg
  | makeSock
  | makeFifo | makeBlock | makeSym | refer | truncate | ioctlDev | resolveUnix
  deriving DecidableEq, Repr

def LANDLOCK_ACCESS_FS_EXECUTE : UInt64 := (1 : UInt64) <<< 0
def LANDLOCK_ACCESS_FS_WRITE_FILE : UInt64 := (1 : UInt64) <<< 1
def LANDLOCK_ACCESS_FS_READ_FILE : UInt64 := (1 : UInt64) <<< 2
def LANDLOCK_ACCESS_FS_READ_DIR : UInt64 := (1 : UInt64) <<< 3
def LANDLOCK_ACCESS_FS_REMOVE_DIR : UInt64 := (1 : UInt64) <<< 4
def LANDLOCK_ACCESS_FS_REMOVE_FILE : UInt64 := (1 : UInt64) <<< 5
def LANDLOCK_ACCESS_FS_MAKE_CHAR : UInt64 := (1 : UInt64) <<< 6
def LANDLOCK_ACCESS_FS_MAKE_DIR : UInt64 := (1 : UInt64) <<< 7
def LANDLOCK_ACCESS_FS_MAKE_REG : UInt64 := (1 : UInt64) <<< 8
def LANDLOCK_ACCESS_FS_MAKE_SOCK : UInt64 := (1 : UInt64) <<< 9
def LANDLOCK_ACCESS_FS_MAKE_FIFO : UInt64 := (1 : UInt64) <<< 10
def LANDLOCK_ACCESS_FS_MAKE_BLOCK : UInt64 := (1 : UInt64) <<< 11
def LANDLOCK_ACCESS_FS_MAKE_SYM : UInt64 := (1 : UInt64) <<< 12
def LANDLOCK_ACCESS_FS_REFER : UInt64 := (1 : UInt64) <<< 13
def LANDLOCK_ACCESS_FS_TRUNCATE : UInt64 := (1 : UInt64) <<< 14
def LANDLOCK_ACCESS_FS_IOCTL_DEV : UInt64 := (1 : UInt64) <<< 15
def LANDLOCK_ACCESS_FS_RESOLVE_UNIX : UInt64 := (1 : UInt64) <<< 16

def HM_LANDLOCK_MIN_ABI : Nat := 3

def Right.bit : Right → UInt64
  | .execute => LANDLOCK_ACCESS_FS_EXECUTE
  | .writeFile => LANDLOCK_ACCESS_FS_WRITE_FILE
  | .readFile => LANDLOCK_ACCESS_FS_READ_FILE
  | .readDir => LANDLOCK_ACCESS_FS_READ_DIR
  | .removeDir => LANDLOCK_ACCESS_FS_REMOVE_DIR
  | .removeFile => LANDLOCK_ACCESS_FS_REMOVE_FILE
  | .makeChar => LANDLOCK_ACCESS_FS_MAKE_CHAR
  | .makeDir => LANDLOCK_ACCESS_FS_MAKE_DIR
  | .makeReg => LANDLOCK_ACCESS_FS_MAKE_REG
  | .makeSock => LANDLOCK_ACCESS_FS_MAKE_SOCK
  | .makeFifo => LANDLOCK_ACCESS_FS_MAKE_FIFO
  | .makeBlock => LANDLOCK_ACCESS_FS_MAKE_BLOCK
  | .makeSym => LANDLOCK_ACCESS_FS_MAKE_SYM
  | .refer => LANDLOCK_ACCESS_FS_REFER
  | .truncate => LANDLOCK_ACCESS_FS_TRUNCATE
  | .ioctlDev => LANDLOCK_ACCESS_FS_IOCTL_DEV
  | .resolveUnix => LANDLOCK_ACCESS_FS_RESOLVE_UNIX

def rightsOf (access : UInt64) : Set Right := { r | access &&& r.bit ≠ 0 }

/-- The version of the interface that introduced a right. -/
def Right.since : Right → Nat
  | .refer => 2
  | .truncate => 3
  | .ioctlDev => 5
  | .resolveUnix => 9
  | _ => 1

def handledAccess (abi : Nat) : UInt64 :=
  let access :=
    LANDLOCK_ACCESS_FS_EXECUTE ||| LANDLOCK_ACCESS_FS_WRITE_FILE |||
      LANDLOCK_ACCESS_FS_READ_FILE |||
    LANDLOCK_ACCESS_FS_READ_DIR ||| LANDLOCK_ACCESS_FS_REMOVE_DIR |||
    LANDLOCK_ACCESS_FS_REMOVE_FILE ||| LANDLOCK_ACCESS_FS_MAKE_CHAR |||
    LANDLOCK_ACCESS_FS_MAKE_DIR ||| LANDLOCK_ACCESS_FS_MAKE_REG ||| LANDLOCK_ACCESS_FS_MAKE_SOCK |||
    LANDLOCK_ACCESS_FS_MAKE_FIFO ||| LANDLOCK_ACCESS_FS_MAKE_BLOCK ||| LANDLOCK_ACCESS_FS_MAKE_SYM
  let access := if 2 ≤ abi then access ||| LANDLOCK_ACCESS_FS_REFER else access
  let access := if 3 ≤ abi then access ||| LANDLOCK_ACCESS_FS_TRUNCATE else access
  let access := if 5 ≤ abi then access ||| LANDLOCK_ACCESS_FS_IOCTL_DEV else access
  if 9 ≤ abi then access ||| LANDLOCK_ACCESS_FS_RESOLVE_UNIX else access

def readonlyAccess (abi : Nat) : UInt64 :=
  let access := LANDLOCK_ACCESS_FS_EXECUTE ||| LANDLOCK_ACCESS_FS_READ_FILE |||
    LANDLOCK_ACCESS_FS_READ_DIR
  if 9 ≤ abi then access ||| LANDLOCK_ACCESS_FS_RESOLVE_UNIX else access

def Right.reads : Right → Bool
  | .execute | .readFile | .readDir | .resolveUnix => true
  | _ => false

def Right.ofFile : Right → Bool
  | .execute | .writeFile | .readFile | .truncate | .ioctlDev | .resolveUnix => true
  | _ => false

variable {abi : Nat} {r s : Right} {a b : UInt64}

def Right.all : List Right :=
  [.execute, .writeFile, .readFile, .readDir, .removeDir, .removeFile, .makeChar, .makeDir,
    .makeReg, .makeSock,
    .makeFifo, .makeBlock, .makeSym, .refer, .truncate, .ioctlDev, .resolveUnix]

theorem Right.mem_all (r : Right) : r ∈ Right.all := by
  cases r <;> decide

instance (access : UInt64) (r : Right) : Decidable (r ∈ rightsOf access) :=
  inferInstanceAs (Decidable (access &&& r.bit ≠ 0))

theorem handledAccess_min (abi : Nat) : handledAccess abi = handledAccess (min abi 9) := by
  simp [handledAccess]

theorem readonlyAccess_min (abi : Nat) : readonlyAccess abi = readonlyAccess (min abi 9) := by
  simp [readonlyAccess]

theorem mem_handledAccess (h : 1 ≤ abi) : r ∈ rightsOf (handledAccess abi) ↔ r.since ≤ abi := by
  have hall : ∀ n < 10, 1 ≤ n → ∀ r ∈ Right.all, r ∈ rightsOf (handledAccess n) ↔ r.since ≤ n := by
    decide +kernel
  have hsince : r.since ≤ 9 := by cases r <;> decide
  rw [handledAccess_min, hall _ (by omega) (by omega) r r.mem_all, le_min_iff]
  exact and_iff_left hsince

theorem mem_readonlyAccess :
    r ∈ rightsOf (readonlyAccess abi) ↔ r.reads = true ∧ r.since ≤ max abi 1 := by
  have hall : ∀ n < 10, ∀ r ∈ Right.all, r ∈ rightsOf (readonlyAccess n) ↔ r.reads = true ∧
      r.since ≤ max n 1 := by
    decide +kernel
  have hsince : r.since ≤ 9 := by cases r <;> decide
  rw [readonlyAccess_min, hall _ (by omega) r r.mem_all]
  refine and_congr_right fun _ => ?_
  omega

theorem mem_writeFile : r ∈ rightsOf LANDLOCK_ACCESS_FS_WRITE_FILE ↔ r = .writeFile := by
  have hall : ∀ r ∈ Right.all, r ∈ rightsOf LANDLOCK_ACCESS_FS_WRITE_FILE ↔ r = .writeFile := by
    decide +kernel
  exact hall r r.mem_all

end Access

section Calls

abbrev Fd := Nat
abbrev Errno := Nat

/-- The calls of a setup child, from its fork to the shell. `traceTo` puts the pipe in the place
of stderr, `capture` the file in the place of both outputs. -/
inductive Call
  | initSignals
  | traceTo
  | capture
  | chdir (path : Bytes)
  | setenv (name : Bytes) (value : Option Bytes)
  | abi
  | createRuleset (handled : UInt64)
  | openPath (path : Bytes) (directory : Bool)
  | addRule (ruleset : Fd) (allowed : UInt64) (parent : Fd)
  | close (fd : Fd)
  | noNewPrivs
  | restrictSelf (ruleset : Fd)
  | say (text : Bytes)
  | exec (argv : List Bytes)
  deriving DecidableEq, Repr

/-- An `exec` that answers has failed; `none` is the process image being replaced. -/
abbrev Call.Answer : Call → Type
  | .initSignals => Bool
  | .traceTo => Bool
  | .capture => Except Errno Unit
  | .chdir _ => Except Errno Unit
  | .setenv _ _ => Bool
  | .abi => Except Errno Nat
  | .createRuleset _ => Except Errno Fd
  | .openPath _ _ => Except Errno Fd
  | .addRule _ _ _ => Except Errno Unit
  | .close _ => Unit
  | .noNewPrivs => Except Errno Unit
  | .restrictSelf _ => Except Errno Unit
  | .say _ => Unit
  | .exec _ => Option Errno

abbrev calls : Signature := ⟨Call, Call.Answer⟩

abbrev C := Prog calls

def initSignals : C Bool := .ask (S := calls) .initSignals .done
def traceTo : C Bool := .ask (S := calls) .traceTo .done
def capture : C (Except Errno Unit) := .ask (S := calls) .capture .done
def chdir (path : Bytes) : C (Except Errno Unit) := .ask (S := calls) (.chdir path) .done
def setenv (name : Bytes) (value : Option Bytes) : C Bool :=
  .ask (S := calls) (.setenv name value) .done
def abiVersion : C (Except Errno Nat) := .ask (S := calls) .abi .done
def createRuleset (handled : UInt64) : C (Except Errno Fd) :=
  .ask (S := calls) (.createRuleset handled) .done
def openPath (path : Bytes) (directory : Bool) : C (Except Errno Fd) :=
  .ask (S := calls) (.openPath path directory) .done
def addRule (ruleset : Fd) (allowed : UInt64) (parent : Fd) : C (Except Errno Unit) :=
  .ask (S := calls) (.addRule ruleset allowed parent) .done
def close (fd : Fd) : C Unit := .ask (S := calls) (.close fd) .done
def noNewPrivs : C (Except Errno Unit) := .ask (S := calls) .noNewPrivs .done
def restrictSelf (ruleset : Fd) : C (Except Errno Unit) :=
  .ask (S := calls) (.restrictSelf ruleset) .done
def say (text : Bytes) : C Unit := .ask (S := calls) (.say text) .done
def exec (argv : List Bytes) : C (Option Errno) := .ask (S := calls) (.exec argv) .done

end Calls

section Enter
variable (strerror : Errno → Bytes)

def complain (what : Bytes) (e : Errno) : C Unit :=
  say (ascii "hacman: " ++ what ++ ascii ": " ++ strerror e ++ [LF])

def addPathRule (ruleset : Fd) (path : Bytes) (access : UInt64) (directory : Bool) : C Bool := do
  match ← openPath path directory with
  | .error e =>
    complain strerror (ascii "sandbox: cannot open " ++ path) e
    pure false
  | .ok pathFd =>
    match ← addRule ruleset access pathFd with
    | .error e =>
      complain strerror (ascii "sandbox: cannot allow " ++ path) e
      close pathFd
      pure false
    | .ok () =>
      close pathFd
      pure true

abbrev Rule := Bytes × UInt64 × Bool

/-- One call of `add_path_rule` after another, each of which may go to the cleanup. -/
def addRules (ruleset : Fd) : List Rule → C Bool
  | [] => pure true
  | (path, access, directory) :: rules => do
    if ← addPathRule strerror ruleset path access directory then addRules ruleset rules
    else pure false

def DEV_NULL : Bytes := ascii "/dev/null"

def sandboxRules (p : Project) (workdir cacheDir : Bytes) (abi : Nat) : List Rule :=
  [(ascii "/", readonlyAccess abi, true), (workdir, handledAccess abi, true),
    (cacheDir, handledAccess abi, true)] ++
    p.sandboxWriteDirs.map (fun dir => (dir.path, handledAccess abi, true)) ++
    [(DEV_NULL, LANDLOCK_ACCESS_FS_WRITE_FILE, false)]

def restrict (ruleset : Fd) : C Bool := do
  match ← noNewPrivs with
  | .error e =>
    complain strerror (ascii "sandbox: cannot set no_new_privs") e
    pure false
  | .ok () =>
    match ← restrictSelf ruleset with
    | .error e =>
      complain strerror (ascii "sandbox: cannot enforce Landlock ruleset") e
      pure false
    | .ok () => pure true

def hmSandboxEnter (p : Project) (workdir cacheDir : Bytes) : C Bool := do
  match ← abiVersion with
  | .error e =>
    complain strerror (ascii "sandbox: Landlock is unavailable") e
    pure false
  | .ok abi =>
    if abi < HM_LANDLOCK_MIN_ABI then
      say (ascii "hacman: sandbox: Landlock ABI " ++ Cache.decimal abi ++
        ascii " is too old (need " ++ Cache.decimal HM_LANDLOCK_MIN_ABI ++ ascii ")\n")
      pure false
    else
      match ← createRuleset (handledAccess abi) with
      | .error e =>
        complain strerror (ascii "sandbox: cannot create Landlock ruleset") e
        pure false
      | .ok ruleset =>
        let built ← addRules strerror ruleset (sandboxRules p workdir cacheDir abi)
        let entered ← if built then restrict strerror ruleset else pure false
        close ruleset
        pure entered

theorem sandboxRules_paths (p : Project) (workdir cacheDir : Bytes) (abi : Nat) :
    (sandboxRules p workdir cacheDir abi).map Prod.fst =
    Delivery.sandboxPaths p workdir cacheDir := by
  simp [sandboxRules, Delivery.sandboxPaths, DEV_NULL, Function.comp_def]

end Enter

section Kernel
variable {O : Type}

/-- What the kernel knows: what a path names, without following a link at its end, what it leads to,
which objects are directories, how many layers a domain can have, and the calls for which the system
may be short of memory or of open files. -/
structure Host (O : Type) where
  abi : Nat
  names : O → Bytes → O → Prop
  leads : O → Bytes → O → Prop
  isDir : O → Prop
  layers : Nat
  short : Call → Prop

/-- What a descriptor stands for. -/
inductive Handle (O : Type)
  | ruleset (handled : UInt64) (rules : List (O × UInt64))
  | path (object : O)
  | other

/-- The child: its descriptors, the layers that it is under, its directory and environment. `unset`
tells that a variable could not be set. -/
structure World (O : Type) where
  fds : Fd → Option (Handle O)
  domain : Domain O Right
  cwd : O
  env : Bytes → Option Bytes
  privs : Bool := false
  traced : Bool := false
  captured : Bool := false
  unset : Bool := false

def World.kept (w : World O) : O × (Bytes → Option Bytes) × Bool × Bool × Bool :=
  (w.cwd, w.env, w.traced, w.captured, w.unset)

def layerOf (handled : UInt64) (rules : List (O × UInt64)) : Layer O Right :=
  ⟨rightsOf handled, rules.map fun rule => (rule.1, rightsOf rule.2)⟩

def World.setFd (w : World O) (fd : Fd) (h : Option (Handle O)) : World O :=
  { w with fds := Function.update w.fds fd h }

/-- What the kernel takes as a set of handled rights, and as a rule of a ruleset. -/
def Host.TakesRuleset (h : Host O) (handled : UInt64) : Prop :=
  handled ≠ 0 ∧ ∀ r ∈ rightsOf handled, r.since ≤ h.abi

def Host.TakesRule (h : Host O) (handled allowed : UInt64) (o : O) : Prop :=
  allowed ≠ 0 ∧ rightsOf allowed ⊆ rightsOf handled ∧
    (¬ h.isDir o → ∀ r ∈ rightsOf allowed, r.ofFile = true)

/-- Every call can fail and then leaves everything as it was. -/
inductive Host.Answers (h : Host O) (w : World O) : (c : Call) → c.Answer → World O → Prop
  | initSignals (ok : Bool) : Answers h w .initSignals ok w
  | traceTo : Answers h w .traceTo true { w with traced := true }
  | noTrace : Answers h w .traceTo false w
  | capture : Answers h w .capture (.ok ()) { w with captured := true }
  | noCapture (e : Errno) : Answers h w .capture (.error e) w
  | chdir {path : Bytes} {o : O} (hleads : h.leads w.cwd path o) (hdir : h.isDir o) :
    Answers h w (.chdir path) (.ok ()) { w with cwd := o }
  | noChdir {path : Bytes} (e : Errno) : Answers h w (.chdir path) (.error e) w
  | setenv {name : Bytes} {value : Option Bytes} :
    Answers h w (.setenv name value) true { w with env := Function.update w.env name value }
  | noSetenv {name : Bytes} {value : Option Bytes} :
    Answers h w (.setenv name value) false { w with unset := true }
  | abi : Answers h w .abi (.ok h.abi) w
  | noAbi (e : Errno) : Answers h w .abi (.error e) w
  | createRuleset {handled : UInt64} {fd : Fd} (hfresh : w.fds fd = none)
    (htakes : h.TakesRuleset handled) :
    Answers h w (.createRuleset handled) (.ok fd) (w.setFd fd (some (.ruleset handled [])))
  | noRuleset {handled : UInt64} (e : Errno) : Answers h w (.createRuleset handled) (.error e) w
  | openPath {path : Bytes} {directory : Bool} {fd : Fd} {o : O} (hfresh : w.fds fd = none)
      (hnames : h.names w.cwd path o) (hdir : directory = true → h.isDir o) :
    Answers h w (.openPath path directory) (.ok fd) (w.setFd fd (some (.path o)))
  | noOpen {path : Bytes} {directory : Bool} (e : Errno) :
    Answers h w (.openPath path directory) (.error e) w
  | addRule {ruleset parent : Fd} {handled allowed : UInt64} {rules : List (O × UInt64)} {o : O}
      (hruleset : w.fds ruleset = some (.ruleset handled rules))
        (hparent : w.fds parent = some (.path o))
      (htakes : h.TakesRule handled allowed o) :
    Answers h w (.addRule ruleset allowed parent) (.ok ())
      (w.setFd ruleset (some (.ruleset handled (rules ++ [(o, allowed)]))))
  | noRule {ruleset parent : Fd} {allowed : UInt64} (e : Errno) :
    Answers h w (.addRule ruleset allowed parent) (.error e) w
  | close (fd : Fd) : Answers h w (.close fd) () (w.setFd fd none)
  | noNewPrivs : Answers h w .noNewPrivs (.ok ()) { w with privs := true }
  | privs (e : Errno) : Answers h w .noNewPrivs (.error e) w
  | restrictSelf {ruleset : Fd} {handled : UInt64} {rules : List (O × UInt64)}
      (hruleset : w.fds ruleset = some (.ruleset handled rules)) (hprivs : w.privs = true) :
    Answers h w (.restrictSelf ruleset) (.ok ())
      { w with domain := layerOf handled rules :: w.domain }
  | noRestrict {ruleset : Fd} (e : Errno) : Answers h w (.restrictSelf ruleset) (.error e) w
  | say (text : Bytes) : Answers h w (.say text) () w
  | exec (argv : List Bytes) (e : Option Errno) : Answers h w (.exec argv) e w

def Host.child (h : Host O) : Env calls (World O) := ⟨h.Answers⟩

/-- The requests of the sandbox that the kernel has no reason to refuse, and descriptors that are
open. -/
def Host.Proper (h : Host O) (w : World O) : Call → Prop
  | .abi | .openPath _ _ | .noNewPrivs | .say _ => True
  | .createRuleset handled => h.TakesRuleset handled
  | .addRule ruleset allowed parent => ∃ handled rules o,
    w.fds ruleset = some (.ruleset handled rules) ∧
      w.fds parent = some (.path o) ∧ h.TakesRule handled allowed o
  | .restrictSelf ruleset => w.privs = true ∧ ∃ handled rules,
    w.fds ruleset = some (.ruleset handled rules)
  | .close fd => w.fds fd ≠ none
  | _ => False

end Kernel

section Rules
variable {O : Type} {h : Host O} {strerror : Errno → Bytes} {w w' : World O} {handled : UInt64}
  {rules : List (O × UInt64)} {ruleset : Fd}

def Named (h : Host O) (cwd : O) (rule : Rule) (added : O × UInt64) : Prop :=
  h.names cwd rule.1 added.1 ∧ (rule.2.2 = true → h.isDir added.1) ∧ added.2 = rule.2.1

def Allowed (handled : UInt64) (rule : Rule) : Prop :=
  rule.2.1 ≠ 0 ∧ rightsOf rule.2.1 ⊆ rightsOf handled ∧
    (rule.2.2 = false → ∀ r ∈ rightsOf rule.2.1, r.ofFile = true)

def World.built (w : World O) (ruleset : Fd) (handled : UInt64)
    (rules : List (O × UInt64)) : World O :=
  w.setFd ruleset (some (.ruleset handled rules))

@[simp] theorem setFd_setFd (fd : Fd) (a b : Option (Handle O)) :
    (w.setFd fd a).setFd fd b = w.setFd fd b := by
  simp [World.setFd]

@[simp] theorem setFd_fds (fd : Fd) (a : Option (Handle O)) : (w.setFd fd a).fds fd = a := by
  simp [World.setFd]

theorem setFd_fds_of_ne {fd fd' : Fd} (hne : fd' ≠ fd) (a : Option (Handle O)) :
    (w.setFd fd a).fds fd' = w.fds fd' := by
  simp [World.setFd, hne]

theorem setFd_comm {fd fd' : Fd} (hne : fd ≠ fd') (a b : Option (Handle O)) :
    (w.setFd fd a).setFd fd' b = (w.setFd fd' b).setFd fd a := by
  simp [World.setFd, Function.update_comm hne]

theorem setFd_self {fd : Fd} {a : Option (Handle O)} (hfd : w.fds fd = a) : w.setFd fd a = w := by
  simp [World.setFd, ← hfd]

theorem complain_safe {α : Type} {k : C α} {G : World O → Call → Prop} {Q : α → World O → Prop}
    (what : Bytes) (e : Errno) (hG : ∀ text, G w (.say text)) (hk : k.Safe h.child G Q w) :
    (complain strerror what e >>= fun _ => k).Safe h.child G Q w := by
  refine ⟨hG _, fun x w' hx => ?_⟩
  cases hx
  exact hk

theorem addPathRule_safe {path : Bytes} {access : UInt64} {directory : Bool}
    (hrules : w.fds ruleset = some (.ruleset handled rules))
    (hallowed : Allowed handled (path, access, directory)) :
    (addPathRule strerror ruleset path access directory).Safe h.child h.Proper
      (fun ok w' => ok = true ∧ (∃ added, Named h w.cwd (path, access, directory) added ∧
          w' = w.built ruleset handled (rules ++ [added])) ∨ ok = false ∧ w' = w) w := by
  refine ⟨trivial, fun x w' hx => ?_⟩
  cases hx with
  | noOpen e => exact complain_safe _ _ (fun _ => trivial) (.inr ⟨rfl, rfl⟩)
  | @openPath _ _ fd o hfresh hnames hdir =>
    obtain ⟨hne, hsub, hfile⟩ := hallowed
    have hdistinct : ruleset ≠ fd := by
      rintro rfl
      rw [hrules] at hfresh
      cases hfresh
    have hkept : (w.setFd fd (some (.path o))).fds ruleset = some (.ruleset handled rules) :=
      (setFd_fds_of_ne hdistinct _).trans hrules
    have htakes : h.TakesRule handled access o := by
      refine ⟨hne, hsub, fun hno => hfile ?_⟩
      cases directory with
      | false => rfl
      | true => exact absurd (hdir rfl) hno
    have hclosed : (w.setFd fd (some (.path o))).setFd fd none = w := by
      rw [setFd_setFd, setFd_self hfresh]
    refine ⟨⟨handled, rules, o, hkept, setFd_fds _ _, htakes⟩, fun x w' hx => ?_⟩
    cases hx with
    | noRule e =>
      refine complain_safe _ _ (fun _ => trivial) ⟨by simp [Host.Proper], fun x w' hx => ?_⟩
      cases hx
      exact .inr ⟨rfl, hclosed⟩
    | @addRule _ _ handled' _ rules' o' hruleset hparent _ =>
      rw [hkept] at hruleset
      cases hruleset
      rw [setFd_fds] at hparent
      cases hparent
      refine ⟨by simp [Host.Proper, setFd_fds_of_ne hdistinct.symm], fun x w' hx => ?_⟩
      cases hx
      refine .inl ⟨rfl, (o, access), ⟨hnames, hdir, rfl⟩, ?_⟩
      rw [World.built, setFd_comm hdistinct, hclosed]

theorem addRules_safe {todo : List Rule} (hrules : w.fds ruleset = some (.ruleset handled rules))
    (hallowed : ∀ rule ∈ todo, Allowed handled rule) :
    (addRules strerror ruleset todo).Safe h.child h.Proper
      (fun ok w' => ∃ added, w' = w.built ruleset handled (rules ++ added) ∧
        (ok = true → List.Forall₂ (Named h w.cwd) todo added)) w := by
  induction todo generalizing w rules with
  | nil =>
    refine ⟨[], ?_, fun _ => .nil⟩
    rw [List.append_nil, World.built, setFd_self hrules]
  | cons rule todo ih =>
    obtain ⟨path, access, directory⟩ := rule
    obtain ⟨hfirst, hrest⟩ := List.forall_mem_cons.mp hallowed
    refine (addPathRule_safe hrules hfirst).seq fun ok w' hw' => ?_
    rcases hw' with ⟨rfl, one, hone, rfl⟩ | ⟨rfl, rfl⟩
    · refine (ih (setFd_fds _ _) hrest).mono fun ok w'' hw'' => ?_
      obtain ⟨added, rfl, hadded⟩ := hw''
      refine ⟨one :: added, ?_, fun hok => .cons hone (hadded hok)⟩
      rw [World.built, World.built, setFd_setFd, List.append_assoc]
      rfl
    · refine ⟨[], ?_, nofun⟩
      rw [List.append_nil, World.built, setFd_self hrules]

end Rules

section Entered
variable {O : Type} {h : Host O} {strerror : Errno → Bytes} {w w' : World O} {p : Project}
  {workdir cacheDir : Bytes} {abi : Nat}

theorem reads_ofFile {r : Right} (hr : r = .writeFile) : r.ofFile = true := by
  rw [hr]
  rfl

theorem rightsOf_nonempty {access : UInt64} {r : Right} (hr : r ∈ rightsOf access) :
    access ≠ 0 := by
  rintro rfl
  exact hr (UInt64.zero_and)

theorem handledAccess_takes (habi : HM_LANDLOCK_MIN_ABI ≤ h.abi) :
    h.TakesRuleset (handledAccess h.abi) := by
  have hone : 1 ≤ h.abi := Nat.le_trans (by decide) habi
  exact ⟨rightsOf_nonempty ((mem_handledAccess hone).mpr
    (show Right.execute.since ≤ h.abi from hone)), fun r hr => (mem_handledAccess hone).mp hr⟩

/-- Every rule is one of the ruleset, whatever the version of the interface. -/
theorem sandboxRules_allowed (habi : HM_LANDLOCK_MIN_ABI ≤ abi) :
    ∀ rule ∈ sandboxRules p workdir cacheDir abi, Allowed (handledAccess abi) rule := by
  have hone : 1 ≤ abi := Nat.le_trans (by decide) habi
  have hexecute : Right.execute.since ≤ abi := hone
  have hfull : ∀ path, Allowed (handledAccess abi) (path, handledAccess abi, true) := fun path =>
    ⟨rightsOf_nonempty ((mem_handledAccess hone).mpr hexecute), subset_rfl, nofun⟩
  have hread : Allowed (handledAccess abi) (ascii "/", readonlyAccess abi, true) := by
    refine ⟨rightsOf_nonempty (mem_readonlyAccess.mpr ⟨rfl, le_max_of_le_left hexecute⟩),
      fun r hr => ?_, nofun⟩
    obtain ⟨-, hsince⟩ := mem_readonlyAccess.mp hr
    exact (mem_handledAccess hone).mpr (by omega)
  have hnull : Allowed (handledAccess abi) (DEV_NULL, LANDLOCK_ACCESS_FS_WRITE_FILE, false) := by
    refine ⟨rightsOf_nonempty (mem_writeFile.mpr rfl), fun r hr => ?_,
      fun _ r hr => reads_ofFile (mem_writeFile.mp hr)⟩
    rw [mem_writeFile.mp hr]
    exact (mem_handledAccess hone).mpr hone
  intro rule hrule
  simp only [sandboxRules, List.mem_append, List.mem_cons, List.mem_map, List.not_mem_nil,
    or_false] at hrule
  obtain ((rfl | rfl | rfl) | ⟨dir, -, rfl⟩) | rfl := hrule
  · exact hread
  · exact hfull _
  · exact hfull _
  · exact hfull _
  · exact hnull

theorem restrict_safe {ruleset : Fd} {handled : UInt64} {rules : List (O × UInt64)}
    (hrules : w.fds ruleset = some (.ruleset handled rules)) :
    (restrict strerror ruleset).Safe h.child h.Proper
      (fun ok w' => w'.fds = w.fds ∧ w'.kept = w.kept ∧
        w'.domain = if ok then layerOf handled rules :: w.domain else w.domain) w := by
  refine ⟨trivial, fun x w' hx => ?_⟩
  cases hx with
  | privs e => exact complain_safe _ _ (fun _ => trivial) ⟨rfl, rfl, rfl⟩
  | noNewPrivs =>
    refine ⟨⟨rfl, handled, rules, hrules⟩, fun x w' hx => ?_⟩
    cases hx with
    | noRestrict e => exact complain_safe _ _ (fun _ => trivial) ⟨rfl, rfl, rfl⟩
    | @restrictSelf _ handled' rules' hruleset _ =>
      obtain ⟨rfl, rfl⟩ : handled = handled' ∧ rules = rules' := by
        have hsame := hrules.symm.trans hruleset
        simpa using hsame
      exact ⟨rfl, rfl, rfl⟩

/-- The layer of a project: read-only below the root, everything below its directories, and only
written to the null device. -/
def Policy (h : Host O) (cwd : O) (p : Project) (workdir cacheDir : Bytes)
    (l : Layer O Right) : Prop :=
  HM_LANDLOCK_MIN_ABI ≤ h.abi ∧ ∃ added,
    List.Forall₂ (Named h cwd) (sandboxRules p workdir cacheDir h.abi) added ∧
      l = layerOf (handledAccess h.abi) added

/-- Everything but the domain is as before, and the domain has its layer if nothing failed. -/
structure Entered (h : Host O) (p : Project) (workdir cacheDir : Bytes) (w : World O) (ok : Bool)
    (w' : World O) : Prop where
  fds : w'.fds = w.fds
  kept : w'.kept = w.kept
  failed : ok = false → w'.domain = w.domain
  entered : ok = true → ∃ l, Policy h w.cwd p workdir cacheDir l ∧ w'.domain = l :: w.domain

theorem Entered.refl (w : World O) : Entered h p workdir cacheDir w false w :=
  ⟨rfl, rfl, fun _ => rfl, nofun⟩

theorem hmSandboxEnter_safe (w : World O) :
    (hmSandboxEnter strerror p workdir cacheDir).Safe h.child h.Proper
    (Entered h p workdir cacheDir w) w := by
  refine ⟨trivial, fun x w' hx => ?_⟩
  cases hx with
  | noAbi e => exact complain_safe _ _ (fun _ => trivial) (.refl w)
  | abi =>
    change Prog.Safe _ _ _ (if h.abi < HM_LANDLOCK_MIN_ABI then _ else _) w
    split
    · refine ⟨trivial, fun x w' hx => ?_⟩
      cases hx
      exact .refl w
    · rename_i habi
      have habi := Nat.le_of_not_lt habi
      refine ⟨handledAccess_takes habi, fun x w' hx => ?_⟩
      cases hx with
      | noRuleset e => exact complain_safe _ _ (fun _ => trivial) (.refl w)
      | @createRuleset _ fd hfresh _ =>
        refine (addRules_safe (setFd_fds _ _) (sandboxRules_allowed habi)).seq fun built w₁ hw₁ =>
          ?_
        obtain ⟨added, rfl, hadded⟩ := hw₁
        rw [List.nil_append, World.built, setFd_setFd]
        have hclosed : ∀ v : World O, v.fds =
            (w.setFd fd (some (.ruleset (handledAccess h.abi) added))).fds →
            (v.setFd fd none).fds = w.fds := by
          intro v hv
          rw [World.setFd, hv, World.setFd, Function.update_idem, ← hfresh, Function.update_eq_self]
        cases built with
        | false =>
          refine ⟨by simp [Host.Proper], fun x w' hx => ?_⟩
          cases hx
          exact ⟨hclosed _ rfl, rfl, fun _ => rfl, nofun⟩
        | true =>
          refine (restrict_safe (setFd_fds fd _)).seq fun ok w₂ hw₂ => ?_
          obtain ⟨hfds, hkept, hdomain⟩ := hw₂
          refine ⟨by simp [Host.Proper, hfds], fun x w' hx => ?_⟩
          cases hx
          refine ⟨hclosed _ hfds, hkept, fun hok => ?_, fun hok => ?_⟩
          · subst hok
            exact hdomain
          · subst hok
            exact ⟨_, ⟨habi, added, hadded rfl, rfl⟩, hdomain⟩

end Entered

section Exact
variable {O : Type} {h : Host O} {strerror : Errno → Bytes} {w w' : World O} {p : Project}
  {workdir cacheDir : Bytes} {cwd : O} {l : Layer O Right}

def writable (p : Project) (workdir cacheDir : Bytes) : List Bytes :=
  workdir :: cacheDir :: p.sandboxWriteDirs.map (·.path)

structure Places (h : Host O) (cwd : O) (p : Project) (workdir cacheDir : Bytes) (root null : O)
    (dirs : List O) : Prop where
  root : h.names cwd (ascii "/") root
  null : h.names cwd DEV_NULL null
  dirs : List.Forall₂ (fun path o => h.names cwd path o ∧ h.isDir o)
    (writable p workdir cacheDir) dirs

/-- A right that the layer leaves: one it does not know, reading, anything below a directory of the
setup, and writing to the null device. -/
def Leaves (abi : Nat) (below : O → O → Prop) (root null : O) (dirs : List O) (x : O)
    (r : Right) : Prop :=
  r.since ≤ abi → r.reads = true ∧ below x root ∨ (∃ o ∈ dirs, below x o) ∨
    r = .writeFile ∧ below x null

theorem layerOf_grants {handled : UInt64} {rules : List (O × UInt64)} {below : O → O → Prop} {x : O}
    {r : Right} :
    (layerOf handled rules).Grants below x r ↔ ∃ rule ∈ rules, below x rule.1 ∧
    r ∈ rightsOf rule.2 := by
  simp [layerOf, Layer.Grants]

theorem forall₂_dirs {paths : List Bytes} {access : UInt64} {rules : List Rule}
    {added : List (O × UInt64)}
    (hadded : List.Forall₂ (Named h cwd)
      ((paths.map fun path => (path, access, true)) ++ rules) added) :
    ∃ dirs rest, List.Forall₂ (fun path o => h.names cwd path o ∧ h.isDir o) paths dirs ∧
      List.Forall₂ (Named h cwd) rules rest ∧ added = dirs.map (fun o => (o, access)) ++ rest := by
  induction paths generalizing added with
  | nil => exact ⟨[], added, .nil, hadded, rfl⟩
  | cons path paths ih =>
    obtain ⟨⟨o, a⟩, tail, ⟨hname, hdir, ha⟩, htail, rfl⟩ := List.forall₂_cons_left_iff.mp hadded
    obtain ⟨dirs, rest, hdirs, hrest, rfl⟩ := ih htail
    have ha : a = access := ha
    exact ⟨o :: dirs, rest, .cons ⟨hname, hdir rfl⟩ hdirs,
      hrest, by rw [List.map_cons, ha, List.cons_append]⟩

theorem sandboxRules_eq (p : Project) (workdir cacheDir : Bytes) (abi : Nat) :
    sandboxRules p workdir cacheDir abi = (ascii "/", readonlyAccess abi, true) ::
      ((writable p workdir cacheDir).map (fun path => (path, handledAccess abi, true)) ++
        [(DEV_NULL, LANDLOCK_ACCESS_FS_WRITE_FILE, false)]) := by
  simp [sandboxRules, writable, Function.comp_def]

/-- What the layer of a project permits. -/
theorem Policy.permits (hpolicy : Policy h cwd p workdir cacheDir l) : ∃ root null dirs,
    Places h cwd p workdir cacheDir root null dirs ∧
      ∀ below x r, l.Permits below x r ↔ Leaves h.abi below root null dirs x r := by
  obtain ⟨habi, added, hadded, rfl⟩ := hpolicy
  have hone : 1 ≤ h.abi := Nat.le_trans (by decide) habi
  rw [sandboxRules_eq] at hadded
  obtain ⟨⟨root, readonly⟩, rest, ⟨hroot, -, hread⟩, hrest, rfl⟩ :=
    List.forall₂_cons_left_iff.mp hadded
  obtain ⟨dirs, last, hdirs, hlast, rfl⟩ := forall₂_dirs hrest
  obtain ⟨⟨null, write⟩, tail, ⟨hnull, -, hwrite⟩, hnil, rfl⟩ := List.forall₂_cons_left_iff.mp hlast
  obtain rfl := List.forall₂_nil_left_iff.mp hnil
  have hread : readonly = readonlyAccess h.abi := hread
  have hwrite : write = LANDLOCK_ACCESS_FS_WRITE_FILE := hwrite
  subst hread
  subst hwrite
  refine ⟨root, null, dirs, ⟨hroot, hnull, hdirs⟩, fun below x r => ?_⟩
  have hhandled : r ∈ (layerOf (handledAccess h.abi) ((root, readonlyAccess h.abi) ::
      (dirs.map (fun o => (o, handledAccess h.abi)) ++
        [(null, LANDLOCK_ACCESS_FS_WRITE_FILE)]))).handled ↔
        r.since ≤ h.abi := mem_handledAccess hone
  rw [Layer.Permits, hhandled, Leaves]
  refine forall_congr' fun hsince => ?_
  have hmax : r.since ≤ max h.abi 1 := le_max_of_le_left hsince
  simp only [layerOf_grants, List.mem_cons, List.mem_append, List.mem_map,
    List.not_mem_nil, or_false,
    or_and_right, exists_or, exists_eq_left, exists_exists_and_eq_and, mem_readonlyAccess,
    mem_handledAccess hone, mem_writeFile, hsince, hmax, and_true]
  rw [and_comm (a := below x root), and_comm (a := below x null)]

/-- The sandbox is entered or nothing has happened. Entered, it permits what was permitted before
and what its layer leaves. -/
theorem sandbox_entered {t : List (Event calls)} {ok : Bool}
    (hsteps : Steps h.child (hmSandboxEnter strerror p workdir cacheDir) w t (.done ok) w') :
    w'.fds = w.fds ∧ w'.kept = w.kept ∧ (ok = false → w'.domain = w.domain) ∧
      (ok = true → HM_LANDLOCK_MIN_ABI ≤ h.abi ∧ ∃ root null dirs,
        Places h w.cwd p workdir cacheDir root null dirs ∧
        ∀ below x r, Layers.Permits below w'.domain x r ↔
          Leaves h.abi below root null dirs x r ∧ Layers.Permits below w.domain x r) := by
  have hentered : Entered h p workdir cacheDir w ok w' := (hmSandboxEnter_safe w).steps hsteps
  refine ⟨hentered.fds, hentered.kept, hentered.failed, fun hok => ?_⟩
  obtain ⟨l, hpolicy, hdomain⟩ := hentered.entered hok
  obtain ⟨root, null, dirs, hplaces, hpermits⟩ := hpolicy.permits
  refine ⟨hpolicy.1, root, null, dirs, hplaces, fun below x r => ?_⟩
  rw [hdomain, permits_cons, hpermits]

/-- The kernel is asked for nothing that it would have to refuse, and only open descriptors are
closed. -/
theorem sandbox_requests {t : List (Event calls)} {q : C Bool} {c : Call}
    (hsteps : Steps h.child (hmSandboxEnter strerror p workdir cacheDir) w t q w')
    (hpending : q.pending = some c) :
    h.Proper w' c := by
  obtain ⟨k, hq⟩ := pending_eq hpending
  exact (hmSandboxEnter_safe w).guard hsteps hq

end Exact

section Willing
variable {O : Type} {h : Host O} {strerror : Errno → Bytes} {w w' : World O} {p : Project}
  {workdir cacheDir : Bytes} {handled : UInt64} {rules : List (O × UInt64)} {ruleset : Fd}

/-- Failures for which the kernel has a reason: the arguments, the descriptors, the layers that
there are already, or a shortage. -/
def Host.Reason (h : Host O) (w : World O) : (c : Call) → c.Answer → Prop
  | .abi, .error _ => h.abi = 0
  | .createRuleset handled, .error _ =>
    ¬ h.TakesRuleset handled ∨ (∀ fd, w.fds fd ≠ none) ∨ h.short (.createRuleset handled)
  | .openPath path directory, .error _ =>
    (∀ o, h.names w.cwd path o → ¬ (directory = true → h.isDir o)) ∨ (∀ fd, w.fds fd ≠ none) ∨
      h.short (.openPath path directory)
  | .addRule ruleset allowed parent, .error _ =>
    ¬ h.Proper w (.addRule ruleset allowed parent) ∨ h.short (.addRule ruleset allowed parent)
  | .noNewPrivs, .error _ => False
  | .restrictSelf ruleset, .error _ =>
    ¬ h.Proper w (.restrictSelf ruleset) ∨ h.layers ≤ w.domain.length ∨
      h.short (.restrictSelf ruleset)
  | _, _ => True

def Host.willing (h : Host O) : Env calls (World O) where
  answers w c x w' := h.Answers w c x w' ∧ h.Reason w c x

/-- Such a kernel has an answer to everything. -/
theorem Host.willing_total (w : World O) (c : Call) : ∃ x w', h.willing.answers w c x w' := by
  cases c with
  | initSignals => exact ⟨true, w, .initSignals true, trivial⟩
  | traceTo => exact ⟨false, w, .noTrace, trivial⟩
  | capture => exact ⟨.error 0, w, .noCapture 0, trivial⟩
  | chdir path => exact ⟨.error 0, w, .noChdir 0, trivial⟩
  | setenv name value => exact ⟨false, _, .noSetenv, trivial⟩
  | abi => exact ⟨.ok h.abi, w, .abi, trivial⟩
  | createRuleset handled =>
    by_cases htakes : h.TakesRuleset handled
    · by_cases hfd : ∃ fd, w.fds fd = none
      · obtain ⟨fd, hfd⟩ := hfd
        exact ⟨.ok fd, _, .createRuleset hfd htakes, trivial⟩
      · exact ⟨.error 0, w, .noRuleset 0, .inr (.inl (not_exists.mp hfd))⟩
    · exact ⟨.error 0, w, .noRuleset 0, .inl htakes⟩
  | openPath path directory =>
    by_cases hnames : ∃ o, h.names w.cwd path o ∧ (directory = true → h.isDir o)
    · obtain ⟨o, hname, hdir⟩ := hnames
      by_cases hfd : ∃ fd, w.fds fd = none
      · obtain ⟨fd, hfd⟩ := hfd
        exact ⟨.ok fd, _, .openPath hfd hname hdir, trivial⟩
      · exact ⟨.error 0, w, .noOpen 0, .inr (.inl (not_exists.mp hfd))⟩
    · exact ⟨.error 0, w, .noOpen 0, .inl fun o hname hdir => hnames ⟨o, hname, hdir⟩⟩
  | addRule ruleset allowed parent =>
    by_cases hproper : h.Proper w (.addRule ruleset allowed parent)
    · obtain ⟨handled, rules, o, hruleset, hparent, htakes⟩ := hproper
      exact ⟨.ok (), _, .addRule hruleset hparent htakes, trivial⟩
    · exact ⟨.error 0, w, .noRule 0, .inl hproper⟩
  | close fd => exact ⟨(), _, .close fd, trivial⟩
  | noNewPrivs => exact ⟨.ok (), _, .noNewPrivs, trivial⟩
  | restrictSelf ruleset =>
    by_cases hproper : h.Proper w (.restrictSelf ruleset)
    · obtain ⟨hprivs, handled, rules, hruleset⟩ := hproper
      exact ⟨.ok (), _, .restrictSelf hruleset hprivs, trivial⟩
    · exact ⟨.error 0, w, .noRestrict 0, .inl hproper⟩
  | say text => exact ⟨(), w, .say text, trivial⟩
  | exec argv => exact ⟨none, w, .exec argv none, trivial⟩

def Roomy (w : World O) : Prop := { fd | w.fds fd = none }.Infinite

theorem Roomy.free (hw : Roomy w) : ¬ ∀ fd, w.fds fd ≠ none := fun hall => by
  obtain ⟨fd, hfd⟩ := hw.nonempty
  exact hall fd hfd

theorem Roomy.setFd (hw : Roomy w) (fd : Fd) (a : Option (Handle O)) : Roomy (w.setFd fd a) := by
  refine Set.Infinite.mono (fun fd' hfd' => ?_) (hw.sdiff (Set.finite_singleton fd))
  exact (setFd_fds_of_ne hfd'.2 a).trans hfd'.1

theorem addPathRule_willing {rule : Rule} (hrich : ∀ c, ¬ h.short c) (hw : Roomy w)
    (hrules : w.fds ruleset = some (.ruleset handled rules))
    (hallowed : Allowed handled rule) (hnames : ∃ o, h.names w.cwd rule.1 o ∧
      (rule.2.2 = true → h.isDir o)) :
    (addPathRule strerror ruleset rule.1 rule.2.1 rule.2.2).Safe h.willing (fun _ _ => True)
      (fun ok w' => ok = true ∧ Roomy w' ∧ w'.cwd = w.cwd ∧ w'.domain = w.domain ∧
        ∃ rules, w'.fds ruleset = some (.ruleset handled rules)) w := by
  refine ⟨trivial, fun x w₁ ⟨hx, hreason⟩ => ?_⟩
  cases hx with
  | noOpen e =>
    obtain ⟨o, hname, hdir⟩ := hnames
    rcases hreason with hno | hfull | hshort
    · exact absurd hdir (hno o hname)
    · exact absurd hfull hw.free
    · exact absurd hshort (hrich _)
  | @openPath _ _ fd o hfresh hname hdir =>
    have hdistinct : ruleset ≠ fd := by
      rintro rfl
      rw [hrules] at hfresh
      cases hfresh
    have hkept : (w.setFd fd (some (.path o))).fds ruleset = some (.ruleset handled rules) :=
      (setFd_fds_of_ne hdistinct _).trans hrules
    have htakes : h.TakesRule handled rule.2.1 o := by
      refine ⟨hallowed.1, hallowed.2.1, fun hno => hallowed.2.2 ?_⟩
      cases hdirectory : rule.2.2 with
      | false => rfl
      | true => exact absurd (hdir hdirectory) hno
    refine ⟨trivial, fun x w₂ ⟨hx, hreason⟩ => ?_⟩
    cases hx with
    | noRule e =>
      rcases hreason with hproper | hshort
      · exact absurd ⟨handled, rules, o, hkept, setFd_fds _ _, htakes⟩ hproper
      · exact absurd hshort (hrich _)
    | @addRule _ _ handled' _ rules' o' hruleset hparent _ =>
      rw [hkept] at hruleset
      cases hruleset
      refine ⟨trivial, fun x w₃ ⟨hx, _⟩ => ?_⟩
      cases hx
      exact ⟨rfl, ((hw.setFd _ _).setFd _ _).setFd _ _, rfl, rfl, _,
        (setFd_fds_of_ne hdistinct _).trans (setFd_fds _ _)⟩

theorem addRules_willing {todo : List Rule} (hrich : ∀ c, ¬ h.short c) (hw : Roomy w)
    (hrules : w.fds ruleset = some (.ruleset handled rules))
    (hallowed : ∀ rule ∈ todo, Allowed handled rule)
    (hnames : ∀ rule ∈ todo, ∃ o, h.names w.cwd rule.1 o ∧ (rule.2.2 = true → h.isDir o)) :
    (addRules strerror ruleset todo).Safe h.willing (fun _ _ => True)
      (fun ok w' => ok = true ∧ w'.domain = w.domain ∧
        ∃ rules, w'.fds ruleset = some (.ruleset handled rules)) w := by
  induction todo generalizing w rules with
  | nil => exact ⟨rfl, rfl, rules, hrules⟩
  | cons rule todo ih =>
    obtain ⟨hfirst, hrest⟩ := List.forall_mem_cons.mp hallowed
    obtain ⟨hname, hothers⟩ := List.forall_mem_cons.mp hnames
    refine (addPathRule_willing hrich hw hrules hfirst hname).seq
      fun ok w₁ ⟨hok, hroomy, hcwd, hdomain, rules', hrules'⟩ => ?_
    subst hok
    rw [← hdomain]
    exact ih hroomy hrules' hrest fun r hr => hcwd ▸ hothers r hr

/-- The kernel is new enough and short of nothing, there is room for a descriptor and for one layer
more, and the paths of a setup name what they have to. -/
structure Ready (h : Host O) (p : Project) (workdir cacheDir : Bytes) (w : World O) : Prop where
  abi : HM_LANDLOCK_MIN_ABI ≤ h.abi
  rich : ∀ c, ¬ h.short c
  room : Roomy w
  layers : w.domain.length < h.layers
  root : ∃ o, h.names w.cwd (ascii "/") o ∧ h.isDir o
  null : ∃ o, h.names w.cwd DEV_NULL o
  dirs : ∀ path ∈ writable p workdir cacheDir, ∃ o, h.names w.cwd path o ∧ h.isDir o

theorem hmSandboxEnter_willing (hready : Ready h p workdir cacheDir w) :
    (hmSandboxEnter strerror p workdir cacheDir).Safe h.willing (fun _ _ => True)
    (fun ok _ => ok = true) w := by
  have hnames : ∀ rule ∈ sandboxRules p workdir cacheDir h.abi,
      ∃ o, h.names w.cwd rule.1 o ∧ (rule.2.2 = true → h.isDir o) := by
    rw [sandboxRules_eq]
    intro rule hrule
    simp only [List.mem_cons, List.mem_append, List.mem_map, List.not_mem_nil, or_false] at hrule
    obtain rfl | ⟨path, hpath, rfl⟩ | rfl := hrule
    · exact hready.root.imp fun o ho => ⟨ho.1, fun _ => ho.2⟩
    · exact (hready.dirs path hpath).imp fun o ho => ⟨ho.1, fun _ => ho.2⟩
    · exact hready.null.imp fun o ho => ⟨ho, nofun⟩
  refine ⟨trivial, fun x w₁ ⟨hx, hreason⟩ => ?_⟩
  cases hx with
  | noAbi e => exact absurd (hreason ▸ hready.abi) (by decide)
  | abi =>
    change Prog.Safe _ _ _ (if h.abi < HM_LANDLOCK_MIN_ABI then _ else _) w
    rw [if_neg (Nat.not_lt.mpr hready.abi)]
    refine ⟨trivial, fun x w₂ ⟨hx, hreason⟩ => ?_⟩
    cases hx with
    | noRuleset e =>
      rcases hreason with hno | hfull | hshort
      · exact absurd (handledAccess_takes hready.abi) hno
      · exact absurd hfull hready.room.free
      · exact absurd hshort (hready.rich _)
    | @createRuleset _ fd hfresh _ =>
      refine (addRules_willing hready.rich (hready.room.setFd fd _) (setFd_fds fd _)
        (sandboxRules_allowed hready.abi) hnames).seq fun built w₃
          ⟨hbuilt, hdomain, rules, hrules⟩ => ?_
      subst hbuilt
      refine ⟨trivial, fun x w₄ ⟨hx, hreason⟩ => ?_⟩
      cases hx with
      | privs e => exact hreason.elim
      | noNewPrivs =>
        refine ⟨trivial, fun x w₅ ⟨hx, hreason⟩ => ?_⟩
        cases hx with
        | noRestrict e =>
          rcases hreason with hproper | hfull | hshort
          · exact absurd ⟨rfl, handledAccess h.abi, rules, hrules⟩ hproper
          · have hdeep : h.layers ≤ w.domain.length := hdomain ▸ hfull
            exact absurd hready.layers (Nat.not_lt.mpr hdeep)
          · exact absurd hshort (hready.rich _)
        | restrictSelf _ _ => exact ⟨trivial, fun _ _ _ => rfl⟩

theorem willing_run (hready : Ready h p workdir cacheDir w) :
    ∃ t w', Steps h.willing (hmSandboxEnter strerror p workdir cacheDir) w t (.done true) w' := by
  obtain ⟨t, ok, w', hsteps⟩ := exists_steps h.willing_total
    (hmSandboxEnter strerror p workdir cacheDir) w
  have hok : ok = true := (hmSandboxEnter_willing hready).steps hsteps
  exact ⟨t, w', hok ▸ hsteps⟩

end Willing

section Plain

def plainHost : Host FileTree.Path where
  abi := 3
  names _ s o := o = FileTree.comps s
  leads _ s o := o = FileTree.comps s
  isDir o := o ≠ FileTree.comps DEV_NULL
  layers := 16
  short _ := False

def plainWorld : World FileTree.Path where
  fds _ := none
  domain := []
  cwd := []
  env _ := none

theorem plain_ready {p : Project} {workdir : Bytes} {w : World FileTree.Path}
    (hp : p.sandboxWriteDirs = [])
    (hwork : FileTree.comps workdir ≠ FileTree.comps DEV_NULL) (hw : ∀ fd, w.fds fd = none)
    (hlayers : w.domain.length < 16) : Ready plainHost p workdir (ascii "/c") w where
  abi := le_rfl
  rich _ := id
  layers := hlayers
  room := by
    have hall : { fd | w.fds fd = none } = Set.univ := Set.eq_univ_of_forall hw
    rw [Roomy, hall]
    exact Set.infinite_univ
  root := ⟨_, rfl, show FileTree.comps (ascii "/") ≠ FileTree.comps DEV_NULL by decide⟩
  null := ⟨_, rfl⟩
  dirs := by
    have hcache : FileTree.comps (ascii "/c") ≠ FileTree.comps DEV_NULL := by decide
    intro path hpath
    rw [writable, hp] at hpath
    rcases List.mem_cons.mp hpath with rfl | hpath
    · exact ⟨_, rfl, hwork⟩
    · obtain rfl := List.mem_singleton.mp hpath
      exact ⟨_, rfl, hcache⟩

theorem sandbox_requests_plain : plainHost.Proper plainWorld (.createRuleset (handledAccess 3)) :=
  @sandbox_requests _ plainHost (fun _ => []) plainWorld plainWorld {} []
    [] _ _ _ (.cons .abi (.refl _ _)) rfl

theorem sandbox_entered_plain : ∃ (w' : World FileTree.Path) (root null : FileTree.Path)
    (dirs : List FileTree.Path),
    Places plainHost [] {} (ascii "/c/k.work") (ascii "/c") root null dirs ∧
    ∀ below x r, Layers.Permits below w'.domain x r ↔
      Leaves 3 below root null dirs x r ∧ Layers.Permits below [] x r := by
  obtain ⟨t, w', hsteps⟩ := @willing_run _ _ (fun _ => []) plainWorld {} (ascii "/c/k.work") _
    (plain_ready rfl (by decide) (fun _ => rfl) (by decide))
  have hchild : Steps plainHost.child _ _ t (.done true) w' := hsteps.mono fun _ _ _ _ hx => hx.1
  obtain ⟨-, root, null, dirs, hplaces, hpermits⟩ := (sandbox_entered hchild).2.2.2 rfl
  exact ⟨w', root, null, dirs, hplaces, hpermits⟩

end Plain

end Hacman.Sandbox
