import Hacman.Requests

/-!
# Inspection and the disk

One invocation runs against a host: a clock, a network answer, permissions, and all
files by path. Every request that could change a file goes through `Host.answer`.
In an inspection only one of them can be issued at all, the save that refreshes the
time of an unchanged url project.
-/

namespace Hacman.Inspection
open Octets Util Cache Config Interaction Main Requests

abbrev Files := Bytes → Option Bytes

/-- What stays fixed during one invocation. `touch` is what locks, setup steps and
unpacking do to the files, `works` whether they succeed. -/
structure Host where
  now : Int
  response : Option CheckResult
  executable : Bytes → Bool
  unreadable : Bytes → Option ReadFault
  writable : Bool
  works : Call → Bool
  touch : Call → Files → Files

def Host.readFile (g : Host) (files : Files) (path : Bytes) : Except ReadFault (Option Bytes) :=
  match g.unreadable path with
  | some fault => .error fault
  | none => .ok (files path)

def Host.answer (g : Host) (files : Files) (r : calls.Req) : calls.Ans r × Files :=
  match r with
  | .read path => (g.readFile files path, files)
  | .time => (g.now, files)
  | .access path => (g.executable path, files)
  | .exec _ _ => (some [], files)
  | .openLock path => (none, g.touch (.openLock path) files)
  | .reset workdir => (g.works (.reset workdir), g.touch (.reset workdir) files)
  | .materialize fs workdir =>
    (g.works (.materialize fs workdir), g.touch (.materialize fs workdir) files)
  | .command p workdir dir trace =>
    (g.works (.command p workdir dir trace), g.touch (.command p workdir dir trace) files)
  | .check _ _ => (g.response, files)
  | .install p mark res workdir dir trace =>
    (g.works (.install p mark res workdir dir trace),
      g.touch (.install p mark res workdir dir trace) files)
  | .save path content =>
    (g.writable, if g.writable then Function.update files path (some content) else files)
  | .unpack p target => (g.works (.unpack p target), g.touch (.unpack p target) files)
  | r => (obliging r, files)

def Quiet : Call → Prop
  | .openLock _ | .reset _ | .materialize _ _ | .command _ _ _ _ | .install _ _ _ _ _ _
  | .save _ _ | .unpack _ _ => False
  | _ => True

section Eval
variable (g : Host) (p : Project) (o : Opts) (c : Slot)

def Host.run (g : Host) {α : Type} (prog : P α) (files : Files) : α × Files :=
  prog.eval g.answer files

theorem quiet_answer (files : Files) (r : Call) (h : Quiet r) : (g.answer files r).2 = files := by
  cases r <;> first | rfl | exact h.elim

theorem run_quiet {α : Type} {prog : P α} (h : prog.Only Quiet) (files : Files) :
    (prog.eval g.answer files).2 = files :=
  h.eval_world g.answer (quiet_answer g)

def decision (r : Record) (checkBin : Bool) : Decision :=
  decides p o (g.executable p.binPath) r g.now checkBin

theorem run_loadRecord_fault (files : Files) {fault : ReadFault}
    (h : g.unreadable c.path = some fault) : (loadRecord c).eval g.answer files =
    (none, files) := by
  have hread : (askRead c.path).eval g.answer files = (.error fault, files) :=
    Prod.ext (by simp [askRead, Host.answer, Host.readFile, h]) rfl
  unfold loadRecord
  rw [eval_bind, hread]
  cases fault <;> rfl

def Host.saved (g : Host) (files : Files) (path content : Bytes) : Files :=
  if g.writable then Function.update files path (some content) else files

theorem run_saveRecord (r : Record) (files : Files) :
    ((saveRecord c r).eval g.answer files).2 = g.saved files c.path (recordBytes c.identity r) :=
  rfl

theorem run_applyCheck (dir : Bytes) (r : Record) (res : CheckResult) (missing : Bool)
    (files : Files) (hi : (o.checkOnly || o.dryRun) = true) :
    ((applyCheck p o c r g.now dir res missing).eval g.answer files).2 =
      if changed r res.mark missing then files
      else g.saved files c.path (recordBytes c.identity { r with lastCheck := g.now }) := by
  unfold applyCheck
  cases hch : changed r res.mark missing
  · simp only [Bool.not_false, ↓reduceIte, Bool.false_eq_true]
    rw [eval_bind, run_saveRecord, run_quiet g (report_only (fun _ => trivial) _ _)]
  · simp only [Bool.not_true, Bool.false_eq_true, ↓reduceIte, hi]
    have hreport := reportChange_only (G := Quiet) p (fun _ => trivial) r res.mark missing
    exact run_quiet g (hreport.bind fun _ => only_done HM_EXIT_CHANGED) files

end Eval

section Inspect
variable (g : Host) (p : Project) (o : Opts) (c : Slot)

structure Refreshes (r : Record) (files : Files) : Prop where
  url : p.kind = .url
  due : decision g p o r true = .due
  known : r.known = true
  unchanged : ∃ res, g.response = some res ∧ res.mark = r.mark
  present : p.binCached = true → g.executable p.binPath = true
  writable : g.writable = true
  differs : files c.path ≠ some (recordBytes c.identity { r with lastCheck := g.now })

theorem saved_eq_iff (files : Files) (path content : Bytes) :
    g.saved files path content = files ↔ ¬ (g.writable = true ∧ files path ≠ some content) := by
  unfold Host.saved
  cases g.writable
  · simp
  · simp only [↓reduceIte, true_and, ne_eq, not_not, Function.update_eq_self_iff]
    exact eq_comm

theorem run_runProject (dir : Bytes) (r : Record) (files : Files)
    (hi : (o.checkOnly || o.dryRun) = true) (hdue : decision g p o r true = .due) :
    ((runProject p o c r g.now dir).eval g.answer files).2 = files ↔
    ¬ Refreshes g p o c r files := by
  unfold runProject
  cases hk : p.kind with
  | command =>
    refine iff_of_true ?_ fun h => by simp [h.url] at hk
    rw [runCommandProject, if_pos hi]
    rfl
  | url =>
    dsimp only
    cases hres : g.response with
    | none =>
      rw [eval_runUrlProject_none g.answer p o c files (Prod.ext hres rfl)]
      refine iff_of_true rfl fun h => ?_
      obtain ⟨res, h', -⟩ := h.unchanged
      simp [hres] at h'
    | some res =>
      rw [eval_runUrlProject g.answer p o c files (g.executable p.binPath) (Prod.ext hres rfl) rfl,
        run_applyCheck g p o c dir r res _ files hi]
      cases hch : changed r res.mark (p.binCached && !g.executable p.binPath)
      · obtain ⟨hbin, hknown, hmark⟩ := changed_eq_false.mp hch
        simp only [Bool.false_eq_true, ↓reduceIte, saved_eq_iff]
        refine not_congr ⟨fun ⟨hw, hd⟩ => ⟨hk, hdue, hknown, ⟨res, hres, hmark.symm⟩, ?_, hw, hd⟩,
          fun h => ⟨h.writable, h.differs⟩⟩
        intro hb
        simpa [hb] using hbin
      · refine iff_of_true (if_pos rfl) fun h => ?_
        obtain ⟨res', hres', hmark⟩ := h.unchanged
        obtain rfl : res = res' := Option.some.inj (hres.symm.trans hres')
        have hsame : changed r res.mark (p.binCached && !g.executable p.binPath) = false := by
          refine changed_eq_false.mpr ⟨?_, h.known, hmark.symm⟩
          cases hb : p.binCached
          · rfl
          · simp [h.present hb]
        exact Bool.false_ne_true (hsame.symm.trans hch)

theorem execCheck_inspect (hi : (o.checkOnly || o.dryRun) = true) : execCheck p o = false := by
  unfold execCheck
  cases hc : o.checkOnly <;> simp_all

theorem run_fastPath (dir : Bytes) (r : Record) (files : Files)
    (hi : (o.checkOnly || o.dryRun) = true) :
    ((fastPath p o c dir r g.now).eval g.answer files).2 = files ↔ ¬ Refreshes g p o c r files := by
  have hquiet : ∀ rc, (finish p o rc).Only Quiet := fun rc =>
    finish_only p o (fun _ => trivial) (fun _ => trivial) rc
  unfold fastPath
  have hdecides : (isDue p r g.now o true).eval g.answer files = (decision g p o r true, files) :=
    eval_isDue g.answer p o (g.executable p.binPath) rfl r g.now true
  rw [execCheck_inspect p o hi, Bool.not_false, eval_bind, hdecides]
  cases hdue : decision g p o r true with
  | wait wait =>
    refine iff_of_true ?_ fun h => by simp [h.due] at hdue
    exact run_quiet g ((reportSkip_only p o (fun _ => trivial) wait).bind fun _ => hquiet _) files
  | due =>
    simp only [slowPath, if_pos hi, work]
    have hdone : ∀ rc files, ((finishLocked p o false rc).eval g.answer files).2 = files :=
      fun rc => run_quiet g (hquiet rc)
    rw [eval_bind, hdone]
    exact run_runProject g p o c dir r files hi hdue

end Inspect

section Launches
variable (g : Host) (l : Launch)

def Inspects (o : Opts) : Prop := (o.checkOnly || o.dryRun || o.plan) = true

/-- The startup is accepted, the record is readable, and the run refreshes it. -/
def RefreshesRecord (files : Files) : Prop :=
  ∃ p c dir, prepare l = .run p c dir ∧ g.unreadable c.path = none ∧
    Refreshes g p l.opts c (hmCacheLoad c.identity (files c.path)) files

theorem prepare_inspects (hi : Inspects l.opts) :
    (∃ code text, prepare l = .exit code text) ∨ (∃ p c, prepare l = .plan p c) ∨
      (l.opts.checkOnly || l.opts.dryRun) = true ∧ ∃ p c dir, prepare l = .run p c dir := by
  rcases prepare_cases l with h | ⟨p, target, ht, -⟩ | ⟨file, content, p, source, hc⟩
  · exact .inl h
  · obtain ⟨hp, hk, hd⟩ := unpackTarget_some l ht
    simp [Inspects, hp, hk, hd] at hi
  · rw [prepare_checked l hc]
    rcases prepareSlot_mode l p file content source with h | ⟨p', c, dir, h⟩
    · exact .inl h
    · right
      cases hp : l.opts.plan
      · right
        exact ⟨by simpa [Inspects, hp] using hi, p', c, dir, by rw [h, hp]; rfl⟩
      · left
        exact ⟨p', c, by rw [h, hp]; rfl⟩

theorem printPlan_quiet (texts : List Bytes) : (printPlan texts).Only Quiet := by
  induction texts with
  | nil => trivial
  | cons text texts ih => exact ⟨trivial, fun _ => ih⟩

/-- An inspection leaves every file as it was if and only if it does not reach the
refresh of an unchanged url project. -/
theorem inspection_changes_nothing (files : Files) (hi : Inspects l.opts) :
    (g.run (main l) files).2 = files ↔ ¬ RefreshesRecord g l files := by
  have hnot : ∀ {x : Prepared}, prepare l = x → (∀ p c dir, x ≠ .run p c dir) →
      ¬ RefreshesRecord g l files := by
    rintro x hx hne ⟨p, c, dir, hrun, -⟩
    exact hne p c dir (hx.symm.trans hrun)
  unfold main
  rcases prepare_inspects l hi with ⟨code, text, he⟩ | ⟨p, c, he⟩ | ⟨hio, p, c, dir, he⟩
  · rw [he]
    exact iff_of_true rfl (hnot he fun _ _ _ => nofun)
  · rw [he]
    exact iff_of_true (run_quiet g (printPlan_quiet _) files) (hnot he fun _ _ _ => nofun)
  · have hrun : RefreshesRecord g l files ↔ g.unreadable c.path = none ∧
        Refreshes g p l.opts c (hmCacheLoad c.identity (files c.path)) files := by
      constructor
      · rintro ⟨p', c', dir', hp, hread, href⟩
        rw [he] at hp
        cases hp
        exact ⟨hread, href⟩
      · rintro ⟨hread, href⟩
        exact ⟨p, c, dir, he, hread, href⟩
    rw [hrun, he]
    simp only [act]
    rw [Host.run, eval_bind]
    cases hread : g.unreadable c.path with
    | some fault =>
      rw [run_loadRecord_fault g c files hread]
      exact iff_of_true rfl fun h => by simp at h
    | none =>
      rw [eval_loadRecord g.answer c (files c.path)
        (Prod.ext (by simp [Host.answer, Host.readFile, hread]) rfl)]
      simp only [true_and]
      exact run_fastPath g p l.opts c dir _ files hio

def quietHost : Host where
  now := 200000
  response := some { mark := ascii "m" }
  executable := fun _ => false
  unreadable := fun _ => none
  writable := true
  works := fun _ => false
  touch := fun _ files => files

def dryLaunch : Launch where
  opts := { file := some (ascii "p.siml"), cacheDir := some (ascii "/c"), dryRun := true }
  siml := fun _ => [.streamStart, .documentStart 1, .mappingStart 1,
    .scalar (ascii "url") (ascii "u") 1, .mappingEnd 2, .documentEnd, .streamEnd]
  xxh3 := fun _ => 0
  version := ascii "1.0"
  content := some (ascii "url: u\n")

def seenRecord : Bytes :=
  ascii "#hacman-cache 1 siml:0000000000000000 hacman:1.0\n100000\t100000\tm\n"

def seenFiles : Files := fun path =>
  if path = ascii "/c/url-0000000000000000" then some seenRecord else none

def downHost : Host := { quietHost with response := none }

theorem failed_check_dry_run : Inspects dryLaunch.opts ∧
    (downHost.run (main dryLaunch) seenFiles).2 = seenFiles := by
  refine ⟨rfl, (inspection_changes_nothing downHost dryLaunch seenFiles rfl).mpr ?_⟩
  rintro ⟨p, c, dir, -, -, h⟩
  obtain ⟨res, hres, -⟩ := h.unchanged
  cases hres

/-- A dry run stamps the record of an unchanged url project. -/
theorem dry_run_saves : Inspects dryLaunch.opts ∧
    (quietHost.run (main dryLaunch) seenFiles).2 ≠ seenFiles := by
  refine ⟨rfl, fun h => ?_⟩
  have hpath := congrFun h (ascii "/c/url-0000000000000000")
  exact absurd hpath (by decide +kernel)

end Launches

end Hacman.Inspection
