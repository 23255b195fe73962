import Hacman.Interaction
import Hacman.Plan

/-!
# The driver

`prepare` is everything before the cache is touched: the checks of the command line,
the parse, the choice of the slot. From the first read of the record on, `act` is a
program over the requests below, one for each thing that can fail or that another
process can see. A failed request reports itself; its text is not repeated here.
-/

namespace Hacman.Main
open Octets Util Cache Config Interaction

def HM_EXIT_OK : Nat := 0
def HM_EXIT_USAGE : Nat := 1
def HM_EXIT_FAILED : Nat := 2
def HM_EXIT_CHANGED : Nat := 10

section Requests

inductive ReadFault
  | cannotOpen (reason : Bytes)
  | readFailed (reason : Bytes)
  deriving DecidableEq, Repr

inductive SetLock
  | ok
  | busy
  | failed
  deriving DecidableEq, Repr

structure CheckResult where
  mark : Bytes
  body : Bytes := []
  deriving DecidableEq, Repr

inductive Call
  | read (path : Bytes)
  | time
  | access (path : Bytes)
  | exec (path : Bytes) (argv : List Bytes)
  | openLock (path : Bytes)
  | setlk
  | getlk
  | getppid
  | parentPid (pid : Int)
  | setlkw
  | closeLock
  | reset (workdir : Bytes)
  | materialize (files : List EmbeddedFile) (workdir : Bytes)
  | command (p : Project) (workdir cacheDir : Bytes) (trace : Bool)
  | check (p : Project) (timeout : Int)
  | install (p : Project) (oldMark : Bytes) (res : CheckResult) (workdir cacheDir : Bytes)
      (trace : Bool)
  | save (path content : Bytes)
  | unpack (p : Project) (target : Bytes)
  | out (text : Bytes)
  | err (text : Bytes)
  deriving DecidableEq, Repr

/-- An `exec` that answers has failed; `none` is the process image being replaced. -/
abbrev Call.Answer : Call → Type
  | .read _ => Except ReadFault (Option Bytes)
  | .time => Int
  | .access _ => Bool
  | .exec _ _ => Option Bytes
  | .openLock _ => Option Bytes
  | .setlk => SetLock
  | .getlk => Option Int
  | .getppid => Int
  | .parentPid _ => Int
  | .setlkw => Option Bytes
  | .closeLock => Unit
  | .reset _ => Bool
  | .materialize _ _ => Bool
  | .command _ _ _ _ => Bool
  | .check _ _ => Option CheckResult
  | .install _ _ _ _ _ _ => Bool
  | .save _ _ => Bool
  | .unpack _ _ => Bool
  | .out _ => Unit
  | .err _ => Unit

abbrev calls : Signature := ⟨Call, Call.Answer⟩

abbrev P := Prog calls

/-- What becomes of the process: an exit code, or the program it turned into. -/
inductive Outcome
  | exit (code : Nat)
  | replaced
  deriving DecidableEq, Repr

def askRead (path : Bytes) : P (Except ReadFault (Option Bytes)) :=
  .ask (S := calls) (.read path) .done
def askTime : P Int := .ask (S := calls) .time .done
def askAccess (path : Bytes) : P Bool := .ask (S := calls) (.access path) .done
def askExec (path : Bytes) (argv : List Bytes) : P (Option Bytes) :=
  .ask (S := calls) (.exec path argv) .done
def askOpenLock (path : Bytes) : P (Option Bytes) := .ask (S := calls) (.openLock path) .done
def askSetlk : P SetLock := .ask (S := calls) .setlk .done
def askGetlk : P (Option Int) := .ask (S := calls) .getlk .done
def askGetppid : P Int := .ask (S := calls) .getppid .done
def askParentPid (pid : Int) : P Int := .ask (S := calls) (.parentPid pid) .done
def askSetlkw : P (Option Bytes) := .ask (S := calls) .setlkw .done
def askCloseLock : P Unit := .ask (S := calls) .closeLock .done
def askReset (workdir : Bytes) : P Bool := .ask (S := calls) (.reset workdir) .done
def askMaterialize (files : List EmbeddedFile) (workdir : Bytes) : P Bool :=
  .ask (S := calls) (.materialize files workdir) .done
def askCommand (p : Project) (workdir cacheDir : Bytes) (trace : Bool) : P Bool :=
  .ask (S := calls) (.command p workdir cacheDir trace) .done
def askCheck (p : Project) (timeout : Int) : P (Option CheckResult) :=
  .ask (S := calls) (.check p timeout) .done
def askInstall (p : Project) (oldMark : Bytes) (res : CheckResult) (workdir cacheDir : Bytes)
    (trace : Bool) : P Bool :=
  .ask (S := calls) (.install p oldMark res workdir cacheDir trace) .done
def askSave (path content : Bytes) : P Bool := .ask (S := calls) (.save path content) .done
def askUnpack (p : Project) (target : Bytes) : P Bool :=
  .ask (S := calls) (.unpack p target) .done
def hmOutText (text : Bytes) : P Unit := .ask (S := calls) (.out text) .done
def hmErrText (text : Bytes) : P Unit := .ask (S := calls) (.err text) .done

end Requests

section Startup

/-- What `main` starts from: options, environment, and the input it can read. -/
structure Launch where
  opts : Opts
  startup : Startup := {}
  getenv : Bytes → Option Bytes := fun _ => none
  siml : Bytes → List Event
  xxh3 : Bytes → UInt64
  version : Bytes
  usage : Bytes := []
  content : Option Bytes
  canonical : Bool := false
  resolved : Option Bytes := none

inductive Prepared
  | exit (code : Nat) (text : Bytes)
  | unpack (p : Project) (target : Bytes)
  | plan (p : Project) (c : Slot)
  | run (p : Project) (c : Slot) (cacheDir : Bytes)
  deriving DecidableEq, Repr

variable (l : Launch)

def isStdin (file : Bytes) : Bool := file = ascii "-"

def Launch.input (file content : Bytes) : Input where
  buf := content
  origin := if isStdin file then ascii "<stdin>" else file
  invoked := if isStdin file then none else some file
  resolvePaths := !l.opts.unpack
  home := l.startup.home
  getenv := l.getenv

def sourcePath (p : Project) (file : Bytes) : Except Bytes (Option Bytes) :=
  if p.files ≠ [] ∧ !isStdin file then
    match if l.canonical then some file else l.resolved with
    | none => .error (message "hacman: %s: cannot resolve input path\n" [.str file])
    | some path =>
      if HM_PATH_MAX < path.length then
        .error (message "hacman: %s: canonical input path is too long\n" [.str file])
      else .ok (some path)
  else .ok none

/-- A symlink under another name has to be listed in the mapping to be allowed. -/
def confirmDefaultBin (p : Project) (file : Bytes) (known : Option Bytes) : Except Bytes Unit :=
  if l.canonical then .ok ()
  else match known.orElse fun _ => l.resolved with
    | none => .error (message "hacman: %s: cannot resolve input path\n" [.str file])
    | some own =>
      if hmBinNameOf file = hmBinNameOf own then .ok ()
      else .error (message "hacman: %s: '%S' is not one of the names in bin-path: %s\n"
        [.str file, .slice (hmBinNameOf file),
         .str ((ascii ", ").intercalate p.binNames)])

def resolveCachedBin (p : Project) (c : Slot) (file : Bytes) : Except Bytes Project :=
  if p.binPath = [] ∨ p.binPath.head? = some SLASH then .ok p
  else if HM_PATH_MAX < c.workdir.length + 1 + p.binPath.length then
    .error (message "hacman: %s: resolved bin-path is too long\n" [.str file])
  else .ok { p with binPath := c.workdir ++ [SLASH] ++ p.binPath }

def prepareSlot (p : Project) (file content : Bytes) (source : Option Bytes) : Prepared :=
  match hmCacheDir l.opts.cacheDir l.startup with
  | none => .exit HM_EXIT_USAGE
      (message "hacman: HOME is not set; use --cache or HACMAN_CACHE\n" [])
  | some dir =>
    let identity := hmIdentityBuild l.xxh3 l.version content (HM_IDENTITY_MAX + 1)
    let c := hmCacheInit l.xxh3 p dir source identity
    match resolveCachedBin p c file with
    | .error text => .exit HM_EXIT_USAGE text
    | .ok p => if l.opts.plan then .plan p c else .run p c dir

def prepareProject (p : Project) (file : Bytes) : Except Bytes (Option Bytes) :=
  if p.binPath = [] ∧ l.opts.progArgs ≠ [] then
    .error (message "hacman: %s: arguments after FILE need a 'bin-path' to forward them to\n"
      [.str file])
  else match sourcePath l p file with
    | .error text => .error text
    | .ok source =>
      if p.binChoice = .default ∧ !isStdin file then
        match confirmDefaultBin l p file source with
        | .error text => .error text
        | .ok () => .ok source
      else .ok source

/-- `--unpack` takes one destination and no other action mode. -/
def unpackTarget : Except Bytes (Option Bytes) :=
  if !l.opts.unpack then .ok none
  else match l.opts.progArgs with
    | [target] =>
      if target = [] then .error
        (message "hacman: --unpack needs FILE and exactly one target directory\n" [])
      else if l.opts.plan || l.opts.checkOnly || l.opts.dryRun || l.opts.adopt || l.opts.force then
        .error (message "hacman: --unpack cannot be combined with other action modes\n" [])
      else .ok (some target)
    | _ => .error (message "hacman: --unpack needs FILE and exactly one target directory\n" [])

def prepare : Prepared :=
  match l.opts.file with
  | none => .exit HM_EXIT_USAGE
      (message "hacman: no project file given (use '-' to read standard input)\n%s" [.str l.usage])
  | some file =>
    match unpackTarget l with
    | .error text => .exit HM_EXIT_USAGE text
    | .ok target =>
      match l.content with
      | none => .exit HM_EXIT_USAGE []
      | some content =>
        match hmConfigParse (l.input file content) (l.siml content) with
        | .error text => .exit HM_EXIT_USAGE text
        | .ok p =>
          match target with
          | some target => .unpack p target
          | none =>
            match prepareProject l p file with
            | .error text => .exit HM_EXIT_USAGE text
            | .ok source => prepareSlot l p file content source

/-- The command line, the input and the project pass every check that comes before
the cache directory. -/
structure Checked (file content : Bytes) (p : Project) (source : Option Bytes) : Prop where
  file_eq : l.opts.file = some file
  target_eq : unpackTarget l = .ok none
  content_eq : l.content = some content
  parse_eq : hmConfigParse (l.input file content) (l.siml content) = .ok p
  source_eq : prepareProject l p file = .ok source

theorem prepare_checked {file content : Bytes} {p : Project} {source : Option Bytes}
    (h : Checked l file content p source) :
    prepare l = prepareSlot l p file content source := by
  simp only [prepare, h.file_eq, h.target_eq, h.content_eq, h.parse_eq, h.source_eq]

theorem prepare_cases :
    (∃ code text, prepare l = .exit code text) ∨
      (∃ p target, unpackTarget l = .ok (some target) ∧ prepare l = .unpack p target) ∨
        ∃ file content p source, Checked l file content p source := by
  unfold prepare
  split
  · exact .inl ⟨_, _, rfl⟩
  · rename_i file hfile
    split
    · exact .inl ⟨_, _, rfl⟩
    · rename_i target htarget
      split
      · exact .inl ⟨_, _, rfl⟩
      · rename_i content hcontent
        split
        · exact .inl ⟨_, _, rfl⟩
        · rename_i p hp
          cases target with
          | some target => exact .inr (.inl ⟨p, target, htarget, rfl⟩)
          | none =>
            simp only
            split
            · exact .inl ⟨_, _, rfl⟩
            · rename_i source hsource
              exact .inr (.inr ⟨file, content, p, source, hfile, htarget, hcontent, hp, hsource⟩)

theorem prepareSlot_mode (p : Project) (file content : Bytes) (source : Option Bytes) :
    (∃ code text, prepareSlot l p file content source = .exit code text) ∨
      ∃ p' c dir, prepareSlot l p file content source =
        if l.opts.plan then .plan p' c else .run p' c dir := by
  unfold prepareSlot
  split
  · exact .inl ⟨_, _, rfl⟩
  · simp only
    split
    · exact .inl ⟨_, _, rfl⟩
    · exact .inr ⟨_, _, _, rfl⟩

theorem resolveCachedBin_ok {p p' : Project} {c : Slot} {file : Bytes}
    (h : resolveCachedBin p c file = .ok p') : p' = { p with binPath := p'.binPath } := by
  unfold resolveCachedBin at h
  split_ifs at h <;> cases h <;> rfl

theorem prepareSlot_run {p p' : Project} {file content : Bytes} {source : Option Bytes} {c : Slot}
    {dir : Bytes} (h : prepareSlot l p file content source = .run p' c dir) :
    p' = { p with binPath := p'.binPath } ∧ c = hmCacheInit l.xxh3 p dir source
      (hmIdentityBuild l.xxh3 l.version content (HM_IDENTITY_MAX + 1)) := by
  unfold prepareSlot at h
  split at h
  · cases h
  · dsimp only at h
    split at h
    · cases h
    · rename_i hbin
      split at h
      · cases h
      · cases h
        exact ⟨resolveCachedBin_ok hbin, rfl⟩

theorem prepare_run {p : Project} {c : Slot} {dir : Bytes} (h : prepare l = .run p c dir) :
    ∃ file content p₀ source, Checked l file content p₀ source ∧
      p = { p₀ with binPath := p.binPath } ∧ c = hmCacheInit l.xxh3 p₀ dir source
        (hmIdentityBuild l.xxh3 l.version content (HM_IDENTITY_MAX + 1)) := by
  rcases prepare_cases l with ⟨code, text, he⟩ | ⟨p', target, -, he⟩ |
    ⟨file, content, p₀, source, hc⟩
  · rw [he] at h
    cases h
  · rw [he] at h
    cases h
  · rw [prepare_checked l hc] at h
    exact ⟨file, content, p₀, source, hc, prepareSlot_run l h⟩

theorem unpackTarget_some {target : Bytes} (h : unpackTarget l = .ok (some target)) :
    l.opts.plan = false ∧ l.opts.checkOnly = false ∧ l.opts.dryRun = false := by
  unfold unpackTarget at h
  split at h
  · cases h
  · split at h
    · split_ifs at h with h₁ h₂
      simp only [Bool.or_eq_true, not_or, Bool.not_eq_true] at h₂
      exact ⟨h₂.1.1.1.1, h₂.1.1.1.2, h₂.1.1.2⟩
    · cases h

end Startup

section Decide

inductive Decision
  | due
  | wait (secs : Int)
  deriving DecidableEq, Repr

/-- The part of the decision that reads neither `--force` nor the program. -/
def scheduled (p : Project) (r : Record) (now : Int) : Decision :=
  if p.files ≠ [] ∧ !r.known then .due
  else if p.files ≠ [] ∧ (!p.scheduleExplicit ∨ p.schedKind = .never) then .wait 0
  else match p.schedKind with
    | .always => .due
    | .never => .wait (-1)
    | .every =>
      if r.lastCheck = 0 then .due
      else
        let elapsed := now - r.lastCheck
        if elapsed < 0 then .due
        else if p.schedInterval ≤ elapsed then .due
        else .wait (p.schedInterval - elapsed)

def missingBin (p : Project) (probe : Bool) : P Bool :=
  if probe && p.binCached then do
    let there ← askAccess p.binPath
    pure !there
  else pure false

def isDue (p : Project) (r : Record) (now : Int) (o : Opts) (checkBin : Bool) : P Decision :=
  if o.force then pure .due
  else do
    let missing ← missingBin p checkBin
    pure (if missing then .due else scheduled p r now)

/-- "45s", "12m", "3h", "5d". -/
def fmtDuration (secs : Int) (cap : Nat) : Bytes :=
  let (v, unit) :=
    if secs < 60 then (secs, 115)
    else if secs < 3600 then (secs.tdiv 60, 109)
    else if secs < 86400 then (secs.tdiv 3600, 104)
    else (secs.tdiv 86400, 100)
  hmStrCopy cap ((revDigits 24 v.toNat).reverse ++ [unit])

def reportSkip (p : Project) (o : Opts) (wait : Int) : P Unit :=
  if !o.verbose then pure ()
  else if p.files ≠ [] ∧ (!p.scheduleExplicit ∨ p.schedKind = .never) then
    hmOutText (message "skip     %S (embedded inputs unchanged)\n" [.slice p.name])
  else if wait < 0 then hmOutText (message "skip     %S (schedule: never)\n" [.slice p.name])
  else hmOutText (message "skip     %S (next run in %s)\n"
    [.slice p.name, .str (fmtDuration wait 32)])

end Decide

section Handoff

/-- FILE's slot in the argument vector becomes the program's own name. -/
def execProgram (p : Project) (o : Opts) : P (Option Bytes) :=
  askExec p.binPath (p.binPath :: o.progArgs)

def cannotExecute (p : Project) (reason : Bytes) : P Outcome := do
  hmErrText (message "hacman: cannot execute %s: %s\n" [.str p.binPath, .str reason])
  pure (.exit 127)

def finish (p : Project) (o : Opts) (rc : Nat) : P Outcome :=
  if rc ≠ HM_EXIT_OK ∨ p.binPath = [] then pure (.exit rc)
  else if o.plan || o.checkOnly || o.dryRun || o.adopt then pure (.exit rc)
  else do
    let failed ← execProgram p o
    match failed with
    | none => pure .replaced
    | some reason => cannotExecute p reason

def hmCacheUnlock (locked : Bool) : P Unit := if locked then askCloseLock else pure ()

def finishLocked (p : Project) (o : Opts) (locked : Bool) (rc : Nat) : P Outcome := do
  hmCacheUnlock locked
  finish p o rc

end Handoff

section Lock

/-- The walk over the parents, at most 256 of them. -/
def isAncestorFrom (pid : Int) : Nat → Int → P Bool
  | 0, _ => pure false
  | depth + 1, cur =>
    if cur ≤ 0 then pure false
    else if cur = pid then pure true
    else if cur = 1 then pure false
    else do
      let parent ← askParentPid cur
      isAncestorFrom pid depth parent

def isAncestor (pid : Int) : P Bool := do
  let parent ← askGetppid
  isAncestorFrom pid 256 parent

def heldByAncestor : P (Option Int) := do
  let holder ← askGetlk
  match holder with
  | none => pure none
  | some holder => do
    let above ← isAncestor holder
    pure (if above then some holder else none)

def lockPath (c : Slot) : Bytes :=
  appendStr (HM_PATH_MAX + 6) (appendStr (HM_PATH_MAX + 6) [] c.path) (ascii ".lock")

def waitForLock (c : Slot) : P Bool := do
  let failed ← askSetlkw
  match failed with
  | none => pure true
  | some reason => do
    hmErrText (message "hacman: %s: cannot acquire update lock: %s\n"
      [.str (lockPath c), .str reason])
    askCloseLock
    pure false

def refuseToWait (c : Slot) (holder : Int) : P Bool := do
  hmErrText (message "hacman: %s: update lock is held by parent process %d, whose setup re-entered this project; refusing to wait for it\n"
    [.str (lockPath c), .long holder])
  askCloseLock
  pure false

def hmCacheLock (c : Slot) : P Bool := do
  let failed ← askOpenLock (lockPath c)
  match failed with
  | some reason => do
    hmErrText (message "hacman: %s: cannot open update lock: %s\n"
      [.str (lockPath c), .str reason])
    pure false
  | none => do
    let got ← askSetlk
    match got with
    | .ok => pure true
    | .failed => waitForLock c
    | .busy => do
      let holder ← heldByAncestor
      match holder with
      | some holder => refuseToWait c holder
      | none => waitForLock c

end Lock

section Work

def loadRecord (c : Slot) : P (Option Record) := do
  let file ← askRead c.path
  match file with
  | .ok content => pure (some (hmCacheLoad c.identity content))
  | .error (.cannotOpen reason) => do
    hmErrText (message "hacman: %s: cannot read cache record: %s\n" [.str c.path, .str reason])
    pure none
  | .error (.readFailed reason) => do
    hmErrText (message "hacman: %s: read failed: %s\n" [.str c.path, .str reason])
    pure none

def saveRecord (c : Slot) (r : Record) : P Nat := do
  let saved ← askSave c.path (recordBytes c.identity r)
  pure (if saved then HM_EXIT_OK else HM_EXIT_FAILED)

def resetUnlessKnown (c : Slot) (r : Record) : P Bool :=
  if !r.known then askReset c.workdir else pure true

def materializeFiles (p : Project) (c : Slot) : P Bool :=
  if p.files ≠ [] then askMaterialize p.files c.workdir else pure true

def commandSetup (p : Project) (o : Opts) (c : Slot) (r : Record) (cacheDir : Bytes) : P Bool := do
  let clean ← resetUnlessKnown c r
  if !clean then pure false
  else do
    let written ← materializeFiles p c
    if !written then pure false
    else askCommand p c.workdir cacheDir o.trace

def report (verbose : Bool) (text : Bytes) : P Unit :=
  if verbose then hmOutText text else pure ()

def runCommandProject (p : Project) (o : Opts) (c : Slot) (r : Record) (now : Int)
    (cacheDir : Bytes) : P Nat :=
  if o.checkOnly || o.dryRun then do
    hmOutText (message "due      %S\n" [.slice p.name])
    pure HM_EXIT_CHANGED
  else if o.adopt then saveRecord c { r with lastCheck := now, lastChange := now }
  else do
    report o.verbose (message "run      %S\n" [.slice p.name])
    let done ← commandSetup p o c r cacheDir
    if done then saveRecord c { r with lastCheck := now, lastChange := now }
    else pure HM_EXIT_FAILED

/-- Without an install script a change is only reported. -/
def hmInstall (p : Project) (oldMark : Bytes) (res : CheckResult) (workdir cacheDir : Bytes)
    (trace : Bool) : P Bool :=
  if p.install = [] then do
    hmErrText (message "hacman: %S: changed, but no 'install' script is configured\n"
      [.slice (hmStrCopy (HM_NAME_MAX + 1) p.name)])
    pure true
  else askInstall p oldMark res workdir cacheDir trace

def installSetup (p : Project) (o : Opts) (c : Slot) (oldMark : Bytes) (res : CheckResult)
    (cacheDir : Bytes) : P Bool := do
  let clean ← askReset c.workdir
  if !clean then pure false
  else hmInstall p oldMark res c.workdir cacheDir o.trace

def installUnlessAdopt (p : Project) (o : Opts) (c : Slot) (oldMark : Bytes) (res : CheckResult)
    (cacheDir : Bytes) : P Bool :=
  if o.adopt then pure true else installSetup p o c oldMark res cacheDir

def reportChange (p : Project) (r : Record) (mark : Bytes) (missing : Bool) : P Unit :=
  if missing && r.known && r.mark = mark then
    hmOutText (message "missing  %S %s\n" [.slice p.name, .str p.binPath])
  else if !r.known then hmOutText (message "new      %S %s\n" [.slice p.name, .str mark])
  else hmOutText (message "changed  %S %s -> %s\n" [.slice p.name, .str r.mark, .str mark])

def changed (r : Record) (mark : Bytes) (missing : Bool) : Bool :=
  missing || !r.known || r.mark ≠ mark

def applyCheck (p : Project) (o : Opts) (c : Slot) (r : Record) (now : Int) (cacheDir : Bytes)
    (res : CheckResult) (missing : Bool) : P Nat :=
  if !changed r res.mark missing then do
    report o.verbose (message "ok       %S (%s)\n" [.slice p.name, .str res.mark])
    saveRecord c { r with lastCheck := now }
  else do
    reportChange p r res.mark missing
    if o.checkOnly || o.dryRun then pure HM_EXIT_CHANGED
    else do
      let done ← installUnlessAdopt p o c r.mark res cacheDir
      if done then
        saveRecord c { r with
          mark := hmStrCopy (HM_MARK_MAX + 1) res.mark, lastCheck := now, lastChange := now }
      else pure HM_EXIT_FAILED

def runUrlProject (p : Project) (o : Opts) (c : Slot) (r : Record) (now : Int)
    (cacheDir : Bytes) : P Nat := do
  let res ← askCheck p o.timeout
  match res with
  | none => pure HM_EXIT_FAILED
  | some res => do
    let missing ← missingBin p true
    applyCheck p o c r now cacheDir res missing

def runProject (p : Project) (o : Opts) (c : Slot) (r : Record) (now : Int) (cacheDir : Bytes) :
    P Nat :=
  match p.kind with
  | .command => runCommandProject p o c r now cacheDir
  | .url => runUrlProject p o c r now cacheDir

def work (p : Project) (o : Opts) (c : Slot) (cacheDir : Bytes) (locked : Bool) (r : Record)
    (now : Int) : P Outcome := do
  let rc ← runProject p o c r now cacheDir
  finishLocked p o locked rc

/-- Under the lock: reload, look again, and only then work. -/
def underLock (p : Project) (o : Opts) (c : Slot) (cacheDir : Bytes) : P Outcome := do
  let record ← loadRecord c
  match record with
  | none => do
    askCloseLock
    pure (.exit HM_EXIT_USAGE)
  | some r => do
    let now ← askTime
    let decision ← isDue p r now o true
    match decision with
    | .wait wait => do
      reportSkip p o wait
      finishLocked p o true HM_EXIT_OK
    | .due => work p o c cacheDir true r now

/-- The slow path: inspection goes on with the first record, everything else locks. -/
def slowPath (p : Project) (o : Opts) (c : Slot) (cacheDir : Bytes) (r : Record) (now : Int) :
    P Outcome :=
  if o.checkOnly || o.dryRun then work p o c cacheDir false r now
  else do
    let locked ← hmCacheLock c
    if !locked then pure (.exit HM_EXIT_FAILED) else underLock p o c cacheDir

/-- The quiet handoff; only a program that is missing falls through to the repair. -/
def speculate (p : Project) (o : Opts) (c : Slot) (cacheDir : Bytes) (r : Record) (now : Int) :
    P Outcome := do
  let failed ← execProgram p o
  match failed with
  | none => pure .replaced
  | some reason => do
    let there ← askAccess p.binPath
    if there then cannotExecute p reason else slowPath p o c cacheDir r now

def execCheck (p : Project) (o : Opts) : Bool :=
  p.binCached && !o.verbose && !o.checkOnly && !o.dryRun && !o.adopt

def fastPath (p : Project) (o : Opts) (c : Slot) (cacheDir : Bytes) (r : Record) (now : Int) :
    P Outcome := do
  let decision ← isDue p r now o (!execCheck p o)
  match decision with
  | .due => slowPath p o c cacheDir r now
  | .wait wait =>
    if execCheck p o then speculate p o c cacheDir r now
    else do
      reportSkip p o wait
      finish p o HM_EXIT_OK

def act (p : Project) (o : Opts) (c : Slot) (cacheDir : Bytes) : P Outcome := do
  let record ← loadRecord c
  match record with
  | none => pure (.exit HM_EXIT_USAGE)
  | some r => do
    let now ← askTime
    fastPath p o c cacheDir r now

def printPlan : List Bytes → P Outcome
  | [] => pure (.exit HM_EXIT_OK)
  | text :: rest => do
    hmOutText text
    printPlan rest

def main (l : Launch) : P Outcome :=
  match prepare l with
  | .exit code text => do
    hmErrText text
    pure (.exit code)
  | .unpack p target => do
    let done ← askUnpack p target
    pure (.exit (if done then HM_EXIT_OK else HM_EXIT_FAILED))
  | .plan p c => printPlan (Plan.hmPlanPrint p c)
  | .run p c dir => act p l.opts c dir

end Work

section Invocations

/-- An invocation that is accepted as a run and works in the slot at `path`. The
version is fixed when the program is built; it is one line. -/
structure Invocation (path : Bytes) where
  l : Launch
  p : Project
  c : Slot
  cacheDir : Bytes
  run : prepare l = .run p c cacheDir
  at_path : c.path = path
  version : LF ∉ l.version

variable {path : Bytes} (v : Invocation path)

def Invocation.o : Opts := v.l.opts

def Invocation.id : Bytes := v.c.identity

def Invocation.prog : P Outcome := main v.l

theorem Invocation.prog_eq : v.prog = act v.p v.o v.c v.cacheDir := by
  simp only [Invocation.prog, main, v.run]
  rfl

theorem Invocation.id_eq : ∃ content, v.id =
    (hmIdentityBuild v.l.xxh3 v.l.version content (HM_IDENTITY_MAX + 1)).take HM_IDENTITY_MAX := by
  obtain ⟨file, content, p₀, source, -, -, hc⟩ := prepare_run v.l v.run
  exact ⟨content, by rw [Invocation.id, hc, hmCacheInit_identity]⟩

theorem Invocation.one_line : LF ∉ v.id := by
  obtain ⟨content, hid⟩ := v.id_eq
  rw [hid]
  exact fun h => hmIdentityBuild_notMem _ _ _ v.version (List.mem_of_mem_take h)

theorem Invocation.short : v.id.length ≤ HM_IDENTITY_MAX := by
  obtain ⟨content, hid⟩ := v.id_eq
  rw [hid]
  exact List.length_take_le _ _

end Invocations

end Hacman.Main
