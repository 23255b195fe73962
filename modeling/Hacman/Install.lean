import Hacman.Materialize
import Hacman.Plan
import Hacman.Reaping
import Hacman.Stdio

/-!
# The temporary files of an install

`hm_install` puts the script and the downloaded body into temporary files, and takes them
away again on some of its ways out. The outcome of each step is given, so that a run is a
function of the outcomes.
-/

namespace Hacman.Install
open Octets Util Config Stdio

section Model

inductive Temp | install | response | capture
  deriving DecidableEq, Repr

def Temp.what : Temp → Bytes
  | .install => ascii "install"
  | .response => ascii "response"
  | .capture => ascii "capture"

def HM_TEMP_PATH_MAX : Nat := HM_PATH_MAX * 2 + 64

inductive Status
  | exited (code : Nat)
  | signaled (sig : Nat)
  deriving DecidableEq, Repr

/-- How the child ends. Without the shell it leaves through one of `_exit(126)` and
`_exit(127)`, or is killed. -/
structure Child where
  shell : Bool
  status : Status
  early : shell = false → status ≠ .exited 0

/-- The outcome of every step; `mkstemp` finds the last characters of a name in a directory,
and `signal` is the one that the handler has seen last. -/
structure Outcomes where
  ensure : Bool := true
  mkstemp : Temp → Bytes → Option Bytes
  fdopen : Temp → Bool := fun _ => true
  put : Temp → Nat → Fate := fun _ _ => .done 0
  close : Temp → Closing := fun _ => .done
  pipe : Bool := true
  fork : Bool := true
  child : Child
  wait : Bool := true
  signal : Option Reaping.Sig := none

structure Call where
  project : Project
  body : Option Bytes := none
  trace : Bool := false
  TMPDIR : Option Bytes := none
  HACMAN_KEEP_TEMP : Bool := false

structure File where
  path : Bytes
  content : Bytes := []
  deriving DecidableEq, Repr

structure Shell where
  argv : List Bytes
  HACMAN_RESPONSE : Option Bytes
  files : Temp → Option File

structure State where
  files : Temp → Option File := fun _ => none
  made : List Temp := []
  shell : Option Shell := none

inductive Ending
  | returned (rc : Int)
  | died (sig : Reaping.Sig)
  deriving DecidableEq, Repr

structure Run where
  ending : Ending
  state : State

def State.create (s : State) (t : Temp) (path : Bytes) : State :=
  { s with files := Function.update s.files t (some ⟨path, []⟩), made := t :: s.made }

def State.write (s : State) (t : Temp) (content : Bytes) : State :=
  { s with files := Function.update s.files t ((s.files t).map fun file => ⟨file.path, content⟩) }

def State.unlink (s : State) (t : Temp) : State :=
  { s with files := Function.update s.files t none }

variable (c : Call) (o : Outcomes)

def tmpdir : Bytes :=
  match c.TMPDIR with
  | none | some [] => ascii "/tmp"
  | some dir => dir

def makeTempIn (t : Temp) (dir : Bytes) : Option Bytes :=
  let name := dir ++ ascii "/hacman-" ++ t.what ++ ascii "-"
  if HM_TEMP_PATH_MAX ≤ name.length + 6 then none else (o.mkstemp t dir).map (name ++ ·)

/-- `/tmp` comes second, and only if it was not the first. -/
def makeTemp (t : Temp) : Option Bytes :=
  (if tmpdir c = ascii "/tmp" then [ascii "/tmp"] else [tmpdir c, ascii "/tmp"]).findSome?
    (makeTempIn o t)

def tempFile (s : State) (t : Temp) : State × Option Bytes :=
  match makeTemp c o t with
  | none => (s, none)
  | some path =>
    if o.fdopen t then (s.create t path, some path) else ((s.create t path).unlink t, none)

def scriptTexts : List Bytes :=
  (ascii "#!" ++ Plan.HM_SHELL ++ [LF]) :: (installLines c.project).flatMap fun line => [line, [LF]]

/-- Only the close is looked at. -/
def writeScript (s : State) : State × Bool :=
  let (content, closed) := (Stream.putAll (o.put .install) 0 {} (scriptTexts c)).close
    (o.close .install)
  (s.write .install content, closed)

/-- Only the write is looked at; a file that was not written well is left behind. -/
def writeResponse (s : State) : State × Option Bytes :=
  match c.body with
  | none | some [] => (s, none)
  | some body =>
    match tempFile c o s .response with
    | (s, none) => (s, none)
    | (s, some path) =>
      let (stream, written) := Stream.put {} body (o.put .response 0)
      let (content, _) := stream.close (o.close .response)
      (s.write .response content, if written then some path else none)

/-- The file is unlinked right away. -/
def captureFile (s : State) : State × Bool :=
  if c.trace then (s, false)
  else
    match makeTemp c o .capture with
    | none => (s, false)
    | some path => ((s.create .capture path).unlink .capture, o.fdopen .capture)

/-- The label `cleanup`, up to the return or the signal that is raised again. -/
def cleanup (s : State) (response : Option Bytes) (signal : Option Reaping.Sig) (rc : Int) : Run :=
  let s :=
    if c.HACMAN_KEEP_TEMP then s
    else
      let s := s.unlink .install
      if response.isSome then s.unlink .response else s
  ⟨match signal with
    | some sig => .died sig
    | none => .returned rc, s⟩

def argv (script : Bytes) : List Bytes :=
  [Plan.HM_SHELL, ascii "-e"] ++ (if c.trace then [ascii "-x"] else []) ++ [script]

def State.exec (s : State) (script : Bytes) (response : Option Bytes) : State :=
  if o.child.shell then { s with shell := some ⟨argv c script, response, s.files⟩ } else s

/-- From the fork on. A setup that failed is left without `cleanup`. -/
def supervise (s : State) (script : Bytes) (response : Option Bytes) : Run :=
  if !o.fork then cleanup c s response o.signal (-1)
  else
    let s := s.exec c o script response
    if !o.wait then cleanup c s response o.signal (-1)
    else
      match o.signal with
      | some sig => cleanup c s response (some sig) (-1)
      | none =>
        if o.child.status ≠ .exited 0 then
          ⟨.returned (-1), if response.isSome then s.unlink .response else s⟩
        else cleanup c s response none 0

def runScript (s : State) (script : Bytes) (response : Option Bytes) : Run :=
  let (s, capture) := captureFile c o s
  if !c.trace && !capture then cleanup c s response none (-1)
  else if c.trace && !o.pipe then cleanup c s response none (-1)
  else supervise c o s script response

def hmInstall : Run :=
  if c.project.install = [] then ⟨.returned 0, {}⟩
  else if !o.ensure then ⟨.returned (-1), {}⟩
  else
    match tempFile c o {} .install with
    | (s, none) => ⟨.returned (-1), s⟩
    | (s, some script) =>
      match writeScript c o s with
      | (s, false) => ⟨.returned (-1), s.unlink .install⟩
      | (s, true) =>
        let (s, response) := writeResponse c o s
        runScript c o s script response

end Model

section Steps
variable (c : Call) (o : Outcomes)

def scriptMade : Bool := c.project.install ≠ [] && o.ensure && (makeTemp c o .install).isSome

def scriptReady : Bool := scriptMade c o && o.fdopen .install && (o.close .install).ok

def responseMade : Bool := c.body.getD [] ≠ [] && (makeTemp c o .response).isSome

def responseOpen : Bool := responseMade c o && o.fdopen .response

def haveResponse : Bool := responseOpen c o && (o.put .response 0).ok

def outputOpen : Bool :=
  if c.trace then o.pipe else (makeTemp c o .capture).isSome && o.fdopen .capture

/-- The setup has ended, not well, and no signal was seen. -/
def setupFails : Bool :=
  outputOpen c o && o.fork && o.wait && o.signal.isNone && o.child.status ≠ .exited 0

def cleaned (files : Temp → Option File) (response : Option Bytes) : Temp → Option File :=
  let files := Function.update files .install none
  if response.isSome then Function.update files .response none else files

variable {c o} {s : State} {script : Bytes} {response : Option Bytes}

theorem captureFile_files (h : s.files .capture = none) :
    (captureFile c o s).1.files = s.files := by
  have hupdate : ∀ x, Function.update (Function.update s.files .capture x) .capture none =
      s.files := by
    intro x
    rw [Function.update_idem, ← h, Function.update_eq_self]
  unfold captureFile
  split_ifs
  · rfl
  · cases makeTemp c o .capture with
    | none => rfl
    | some path => exact hupdate _

theorem captureFile_made {t : Temp} (ht : t ≠ .capture) :
    t ∈ (captureFile c o s).1.made ↔ t ∈ s.made := by
  unfold captureFile
  split_ifs
  · rfl
  · cases makeTemp c o .capture with
    | none => rfl
    | some path => simp [State.unlink, State.create, ht]

theorem captureFile_shell : (captureFile c o s).1.shell = s.shell := by
  unfold captureFile
  split_ifs
  · rfl
  · cases makeTemp c o .capture with
    | none => rfl
    | some path => rfl

theorem runScript_open (h : outputOpen c o = true) :
    runScript c o s script response = supervise c o (captureFile c o s).1 script response := by
  unfold outputOpen at h
  unfold runScript captureFile
  cases htrace : c.trace with
  | true =>
    rw [htrace] at h
    simp only [if_true] at h
    simp [h]
  | false =>
    rw [htrace] at h
    cases hmake : makeTemp c o .capture <;> simp_all

theorem runScript_closed (h : outputOpen c o = false) :
    runScript c o s script response = cleanup c (captureFile c o s).1 response none (-1) := by
  unfold outputOpen at h
  unfold runScript captureFile
  cases htrace : c.trace with
  | true =>
    rw [htrace] at h
    simp only [if_true] at h
    simp [h]
  | false =>
    rw [htrace] at h
    cases hmake : makeTemp c o .capture <;> simp_all

theorem cleanup_files (signal : Option Reaping.Sig) (rc : Int) :
    (cleanup c s response signal rc).state.files =
      if c.HACMAN_KEEP_TEMP then s.files else cleaned s.files response := by
  unfold cleanup cleaned
  split_ifs <;> rfl

theorem cleanup_frame (signal : Option Reaping.Sig) (rc : Int) :
    (cleanup c s response signal rc).state.made = s.made ∧
      (cleanup c s response signal rc).state.shell = s.shell := by
  unfold cleanup
  split_ifs <;> exact ⟨rfl, rfl⟩

theorem exec_frame : (s.exec c o script response).files = s.files ∧
    (s.exec c o script response).made = s.made := by
  unfold State.exec
  split_ifs <;> exact ⟨rfl, rfl⟩

theorem supervise_files (h : outputOpen c o = true) :
    (supervise c o s script response).state.files =
      if setupFails c o then
        (if response.isSome then Function.update s.files .response none else s.files)
      else if c.HACMAN_KEEP_TEMP then s.files else cleaned s.files response := by
  have hexec : (s.exec c o script response).files = s.files := exec_frame.1
  unfold supervise setupFails
  rw [h]
  cases o.fork with
  | false => exact cleanup_files _ _
  | true =>
    cases o.wait with
    | false => simp [cleanup_files, hexec]
    | true =>
      cases o.signal with
      | some sig => simp [cleanup_files, hexec]
      | none =>
        by_cases hstatus : o.child.status = .exited 0
        · simp [hstatus, cleanup_files, hexec]
        · cases response <;> simp [hstatus, hexec, State.unlink]

theorem supervise_frame : (supervise c o s script response).state.made = s.made ∧
    (supervise c o s script response).state.shell =
      if o.fork && o.child.shell then some ⟨argv c script, response, s.files⟩ else s.shell := by
  have hmade : (s.exec c o script response).made = s.made := exec_frame.2
  have hshell : (s.exec c o script response).shell =
      if o.child.shell then some ⟨argv c script, response, s.files⟩ else s.shell := by
    unfold State.exec
    split_ifs <;> rfl
  unfold supervise
  cases o.fork with
  | false => exact cleanup_frame _ _
  | true =>
    rw [Bool.not_true, if_neg Bool.false_ne_true, Bool.true_and, ← hshell, ← hmade]
    cases o.wait with
    | false => exact cleanup_frame _ _
    | true =>
      cases o.signal with
      | some sig => exact cleanup_frame (some sig) (-1)
      | none =>
        dsimp only
        by_cases hstatus : o.child.status = .exited 0
        · rw [if_neg (not_not.mpr hstatus)]
          exact cleanup_frame none 0
        · rw [if_pos hstatus]
          cases response <;> exact ⟨rfl, rfl⟩

/-- Only a shell that ran and left with 0 makes for success. -/
theorem supervise_returns (h : (supervise c o s script response).ending = .returned 0) :
    (o.fork && o.child.shell) = true := by
  have hneg : ∀ s signal, (cleanup c s response signal (-1)).ending ≠ .returned 0 := by
    intro s signal
    unfold cleanup
    cases signal <;> simp
  unfold supervise at h
  cases hfork : o.fork with
  | false =>
    rw [hfork] at h
    exact absurd h (hneg _ _)
  | true =>
    rw [hfork, Bool.not_true, if_neg Bool.false_ne_true] at h
    cases hwait : o.wait with
    | false =>
      rw [hwait] at h
      exact absurd h (hneg _ _)
    | true =>
      rw [hwait, Bool.not_true, if_neg Bool.false_ne_true] at h
      cases hsignal : o.signal with
      | some sig =>
        rw [hsignal] at h
        exact absurd h (hneg _ _)
      | none =>
        rw [hsignal] at h
        by_contra hshell
        rw [Bool.true_and, Bool.not_eq_true] at hshell
        dsimp only at h
        rw [if_pos (o.child.early hshell)] at h
        cases h

variable (hcapture : s.files .capture = none)
include hcapture

theorem runScript_files : (runScript c o s script response).state.files =
    if setupFails c o then
      (if response.isSome then Function.update s.files .response none else s.files)
    else if c.HACMAN_KEEP_TEMP then s.files else cleaned s.files response := by
  cases hopen : outputOpen c o with
  | true => rw [runScript_open hopen, supervise_files hopen, captureFile_files hcapture]
  | false =>
    have hfails : setupFails c o = false := by simp [setupFails, hopen]
    rw [runScript_closed hopen, cleanup_files, captureFile_files hcapture, hfails]
    rfl

theorem runScript_shell (hshell : s.shell = none) : (runScript c o s script response).state.shell =
    if outputOpen c o && o.fork && o.child.shell then some ⟨argv c script, response, s.files⟩
    else none := by
  cases hopen : outputOpen c o with
  | true =>
    rw [runScript_open hopen, supervise_frame.2, captureFile_files hcapture,
      captureFile_shell, hshell, Bool.true_and]
  | false => rw [runScript_closed hopen, (cleanup_frame _ _).2, captureFile_shell, hshell]; rfl

omit hcapture

theorem runScript_made {t : Temp} (ht : t ≠ .capture) :
    t ∈ (runScript c o s script response).state.made ↔ t ∈ s.made := by
  cases hopen : outputOpen c o with
  | true => rw [runScript_open hopen, supervise_frame.1, captureFile_made ht]
  | false => rw [runScript_closed hopen, (cleanup_frame _ _).1, captureFile_made ht]

theorem runScript_returns (h : (runScript c o s script response).ending = .returned 0) :
    (outputOpen c o && o.fork && o.child.shell) = true := by
  cases hopen : outputOpen c o with
  | true =>
    rw [runScript_open hopen] at h
    rw [Bool.true_and]
    exact supervise_returns h
  | false =>
    rw [runScript_closed hopen] at h
    cases h

def scriptState (path content : Bytes) : State where
  files := Function.update (fun _ => none) .install (some ⟨path, content⟩)
  made := [.install]

def scriptContent (c : Call) (o : Outcomes) : Bytes :=
  ((Stream.putAll (o.put .install) 0 {} (scriptTexts c)).close (o.close .install)).1

theorem writeScript_eq :
    writeScript c o s = (s.write .install (scriptContent c o), (o.close .install).ok) :=
  Prod.ext rfl Stream.close_snd

theorem tempFile_eq {t : Temp} {path : Bytes} (h : makeTemp c o t = some path) : tempFile c o s t =
    if o.fdopen t then (s.create t path, some path) else ((s.create t path).unlink t, none) := by
  rw [tempFile, h]

theorem tempFile_none {t : Temp} (h : makeTemp c o t = none) : tempFile c o s t = (s, none) := by
  rw [tempFile, h]

theorem unlink_create {t : Temp} {path : Bytes} (h : s.files t = none) :
    (s.create t path).unlink t = { s with made := t :: s.made } := by
  have hfiles : Function.update (Function.update s.files t (some ⟨path, []⟩)) t none = s.files := by
    rw [Function.update_idem, ← h, Function.update_eq_self]
  simp only [State.unlink, State.create, hfiles]

theorem hmInstall_ready (h : scriptReady c o = true) : ∃ path, hmInstall c o =
    runScript c o (writeResponse c o (scriptState path (scriptContent c o))).1 path
      (writeResponse c o (scriptState path (scriptContent c o))).2 := by
  simp only [scriptReady, scriptMade, Bool.and_eq_true, decide_eq_true_eq] at h
  obtain ⟨⟨⟨⟨hinstall, hensure⟩, hmake⟩, hopen⟩, hclose⟩ := h
  obtain ⟨path, hpath⟩ := Option.isSome_iff_exists.mp hmake
  have hwrite : writeScript c o (State.create {} .install path) =
      (scriptState path (scriptContent c o), true) := by
    rw [writeScript_eq, hclose]
    simp [State.create, State.write, scriptState]
  refine ⟨path, ?_⟩
  rw [hmInstall, if_neg hinstall, hensure, Bool.not_true, if_neg Bool.false_ne_true,
    tempFile_eq hpath, if_pos hopen]
  dsimp only
  rw [hwrite]

theorem hmInstall_unready (h : scriptReady c o = false) :
    (hmInstall c o).state = { made := if scriptMade c o then [.install] else [] } ∧
      (c.project.install ≠ [] → (hmInstall c o).ending = .returned (-1)) := by
  unfold hmInstall scriptMade
  by_cases hinstall : c.project.install = []
  · rw [if_pos hinstall]
    simp [hinstall]
  · rw [if_neg hinstall]
    cases hensure : o.ensure with
    | false => simp
    | true =>
      cases hmake : makeTemp c o .install with
      | none =>
        rw [tempFile_none hmake]
        simp
      | some path =>
        rw [tempFile_eq hmake]
        cases hopen : o.fdopen .install with
        | false => simp [unlink_create, hinstall]
        | true =>
          have hclose : (o.close .install).ok = false := by
            simpa [scriptReady, scriptMade, hinstall, hensure, hmake, hopen] using h
          have hstate : ((State.create {} .install path).write .install (scriptContent c o)).unlink
              .install = { made := [.install] } := by
            simp [State.create, State.write, State.unlink]
          simp [writeScript_eq, hclose, hstate, hinstall]

theorem writeResponse_open (h : responseOpen c o = true) : ∃ path, ∃ body ≠ [],
    c.body = some body ∧ writeResponse c o s =
      ((s.create .response path).write .response
        ((Stream.put {} body (o.put .response 0)).1.close (o.close .response)).1,
        if (o.put .response 0).ok then some path else none) := by
  simp only [responseOpen, responseMade, Bool.and_eq_true, decide_eq_true_eq] at h
  obtain ⟨⟨hbody, hmake⟩, hopen⟩ := h
  obtain ⟨path, hpath⟩ := Option.isSome_iff_exists.mp hmake
  unfold writeResponse
  rw [tempFile_eq hpath, if_pos hopen]
  cases hsome : c.body with
  | none => exact absurd (by rw [hsome]; rfl) hbody
  | some body =>
    rw [hsome, Option.getD_some] at hbody
    refine ⟨path, body, hbody, rfl, ?_⟩
    cases body with
    | nil => exact absurd rfl hbody
    | cons b body => rw [← Stream.put_snd hbody]

theorem writeResponse_closed (hopen : responseOpen c o = false) (h : s.files .response = none) :
    writeResponse c o s =
      ({ s with made := if responseMade c o then .response :: s.made else s.made }, none) := by
  unfold writeResponse responseMade
  cases hsome : c.body with
  | none => simp
  | some body =>
    cases body with
    | nil => simp
    | cons b body =>
      cases hmake : makeTemp c o .response with
      | none =>
        rw [tempFile_none hmake]
        simp
      | some path =>
        have hclosed : o.fdopen .response = false := by
          simpa [responseOpen, responseMade, hsome, hmake] using hopen
        rw [tempFile_eq hmake, hclosed]
        simp [unlink_create h]

end Steps

section Leaks
variable (c : Call) (o : Outcomes)

/-- Nothing is left without `HACMAN_KEEP_TEMP`, but a script that ran and failed; with it, the
script and the response are there if they were made. -/
def Tidy (r : Run) : Prop :=
  if c.HACMAN_KEEP_TEMP then ∀ t, t ≠ .capture → t ∈ r.state.made → r.state.files t ≠ none
  else ∀ t, r.state.files t ≠ none →
    t = .install ∧ r.state.shell ≠ none ∧ o.child.status ≠ .exited 0

def NoLeak : Prop :=
  if c.HACMAN_KEEP_TEMP then
    (scriptMade c o = true → scriptReady c o = true) ∧ (scriptReady c o = true →
      (responseMade c o = true → responseOpen c o = true) ∧
        ¬ (haveResponse c o = true ∧ setupFails c o = true))
  else scriptReady c o = true →
    (responseOpen c o = true → haveResponse c o = true) ∧
      (setupFails c o = true → o.child.shell = true)

variable {c o} {s : State} {script : Bytes} {response : Option Bytes}

theorem forall_temp {P : Temp → Prop} : (∀ t, P t) ↔ P .install ∧ P .response ∧ P .capture := by
  refine ⟨fun h => ⟨h _, h _, h _⟩, fun ⟨hinstall, hresponse, hcapture⟩ t => ?_⟩
  cases t with
  | install => exact hinstall
  | response => exact hresponse
  | capture => exact hcapture

theorem runScript_tidy_keep (hcapture : s.files .capture = none)
    (hkeep : c.HACMAN_KEEP_TEMP = true) : Tidy c o (runScript c o s script response) ↔
      (.install ∈ s.made → s.files .install ≠ none) ∧ (.response ∈ s.made →
        s.files .response ≠ none ∧ ¬ (response.isSome = true ∧ setupFails c o = true)) := by
  have hinstall : .install ∈ (runScript c o s script response).state.made ↔ _ :=
    runScript_made (by decide)
  have hresponse : .response ∈ (runScript c o s script response).state.made ↔ _ :=
    runScript_made (by decide)
  rw [Tidy, if_pos hkeep, runScript_files hcapture, if_pos hkeep, forall_temp, hinstall, hresponse]
  cases hfails : setupFails c o <;> cases response <;> simp

theorem runScript_tidy (hcapture : s.files .capture = none) (hkeep : c.HACMAN_KEEP_TEMP = false)
    (hshell : s.shell = none) (hinstall : s.files .install ≠ none) :
    Tidy c o (runScript c o s script response) ↔
      (s.files .response ≠ none → response.isSome = true) ∧
        (setupFails c o = true → o.child.shell = true) := by
  rw [Tidy, if_neg (Bool.eq_false_iff.mp hkeep), runScript_files hcapture, hkeep,
    runScript_shell hcapture hshell]
  rw [forall_temp]
  cases hfails : setupFails c o with
  | false =>
    cases response <;> simp [cleaned, hcapture]
  | true =>
    simp only [setupFails, Bool.and_eq_true, decide_eq_true_eq] at hfails
    obtain ⟨⟨⟨⟨hopen, hfork⟩, -⟩, -⟩, hstatus⟩ := hfails
    cases response <;> simp [hcapture, hinstall, hopen, hfork, hstatus, and_comm]

theorem scriptState_files (path content : Bytes) : (scriptState path content).files .install =
    some ⟨path, content⟩ ∧ (scriptState path content).files .response = none ∧
      (scriptState path content).files .capture = none := by
  simp [scriptState]

theorem temporary_files_open (hready : scriptReady c o = true) (hopen : responseOpen c o = true) :
    Tidy c o (hmInstall c o) ↔ NoLeak c o := by
  obtain ⟨path, hrun⟩ := hmInstall_ready hready
  obtain ⟨rpath, body, hbody, hsome, hwrite⟩ :=
    writeResponse_open (s := scriptState path (scriptContent c o)) hopen
  generalize ((Stream.put {} body (o.put .response 0)).1.close (o.close .response)).1 =
    content at hwrite
  have hfiles : (((scriptState path (scriptContent c o)).create .response rpath).write .response
      content).files = Function.update (scriptState path (scriptContent c o)).files .response
        (some ⟨rpath, content⟩) := by
    simp [State.write, State.create]
  obtain ⟨hinstall, -, hcapture⟩ := scriptState_files path (scriptContent c o)
  rw [hrun, hwrite, NoLeak]
  cases hkeep : c.HACMAN_KEEP_TEMP with
  | true =>
    rw [runScript_tidy_keep (by simp [hfiles, hcapture]) hkeep, hfiles]
    cases hput : (o.put .response 0).ok <;>
      simp_all [State.write, State.create, haveResponse, scriptState]
  | false =>
    rw [runScript_tidy (by simp [hfiles, hcapture]) hkeep rfl (by simp [hfiles, hinstall]), hfiles]
    cases hput : (o.put .response 0).ok <;> simp_all [haveResponse]

theorem temporary_files_closed (hready : scriptReady c o = true)
    (hopen : responseOpen c o = false) : Tidy c o (hmInstall c o) ↔ NoLeak c o := by
  obtain ⟨path, hrun⟩ := hmInstall_ready hready
  obtain ⟨hinstall, hresponse, hcapture⟩ := scriptState_files path (scriptContent c o)
  rw [hrun, writeResponse_closed hopen hresponse, NoLeak]
  cases hkeep : c.HACMAN_KEEP_TEMP with
  | true =>
    refine (runScript_tidy_keep (by exact hcapture) hkeep).trans ?_
    cases hmade : responseMade c o <;> simp_all [haveResponse, scriptState]
  | false =>
    refine (runScript_tidy (by exact hcapture) hkeep rfl (by simp [hinstall])).trans ?_
    simp [hready, hopen, hresponse]

/-- A run of `hm_install` is tidy exactly on these ways. -/
theorem temporary_files (c : Call) (o : Outcomes) : Tidy c o (hmInstall c o) ↔ NoLeak c o := by
  cases hready : scriptReady c o with
  | false =>
    rw [Tidy, NoLeak, (hmInstall_unready hready).1, hready]
    cases c.HACMAN_KEEP_TEMP <;> cases scriptMade c o <;> simp
  | true =>
    cases hopen : responseOpen c o with
    | false => exact temporary_files_closed hready hopen
    | true => exact temporary_files_open hready hopen

def makeProject : Project where
  name := ascii "t"
  url := ascii "https://example.com/t"
  check := .hash
  install := ascii "  make\n"
  installIndent := 2

def makeCall (keep : Bool) : Call where
  project := makeProject
  body := some (ascii "body")
  HACMAN_KEEP_TEMP := keep

def ran (status : Status) : Child := ⟨true, status, fun h => Bool.noConfusion h⟩

def refused : Child := ⟨false, .exited 126, fun _ h => Nat.noConfusion (Status.exited.inj h)⟩

def smooth (child : Child) : Outcomes where
  mkstemp _ _ := some (ascii "000000")
  child := child

def longCall : Call := { makeCall false with body := some (List.replicate 8192 98) }

def fullDisk : Outcomes where
  mkstemp _ _ := some (ascii "000000")
  put t _ := if t = .response then .failed 0 0 8191 else .done 0
  child := ran (.exited 0)

def fullDiskAtClose : Outcomes where
  mkstemp _ _ := some (ascii "000000")
  close _ := .failed 0
  child := ran (.exited 0)

theorem not_tidy {t : Temp} {r : Run} (hkeep : c.HACMAN_KEEP_TEMP = false)
    (ht : t ≠ .install ∨ r.state.shell = none) (h : r.state.files t ≠ none) : ¬ Tidy c o r := by
  rw [Tidy, hkeep]
  intro htidy
  obtain ⟨hinstall, hshell, -⟩ := htidy t h
  exact ht.elim (fun hne => hne hinstall) hshell

theorem not_tidy_keep {t : Temp} {r : Run} (hkeep : c.HACMAN_KEEP_TEMP = true) (ht : t ≠ .capture)
    (hmade : t ∈ r.state.made) (h : r.state.files t = none) : ¬ Tidy c o r := by
  rw [Tidy, hkeep]
  exact fun htidy => htidy t ht hmade h

/-- A response that could not be written stays, and so does a script that no shell has run. With
`HACMAN_KEEP_TEMP` the response of a script that fails is removed, and so is a script that could
not be closed. -/
theorem temporary_files_leak :
    ¬ Tidy longCall fullDisk (hmInstall longCall fullDisk) ∧
    ¬ Tidy (makeCall false) (smooth refused) (hmInstall (makeCall false) (smooth refused)) ∧
    ¬ Tidy (makeCall true) (smooth (ran (.exited 1)))
      (hmInstall (makeCall true) (smooth (ran (.exited 1)))) ∧
    ¬ Tidy (makeCall true) fullDiskAtClose (hmInstall (makeCall true) fullDiskAtClose) :=
  ⟨not_tidy (t := .response) rfl (.inl (by decide)) (by decide),
    not_tidy (t := .install) rfl (.inr rfl) (by decide),
    not_tidy_keep (t := .response) rfl (by decide) (by decide) (by decide),
    not_tidy_keep (t := .install) rfl (by decide) (by decide) (by decide)⟩

end Leaks

end Hacman.Install
