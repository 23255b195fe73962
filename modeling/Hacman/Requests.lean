import Hacman.Main

/-!
# What each part of the driver can ask

`Only` bounds over all answers, one for each function of the driver and for any
guard, and the footprint of a whole run that follows from them.
-/

namespace Hacman.Requests
open Octets Util Cache Config Interaction Main

section Requests
variable {G : Call → Prop} (p : Project) (o : Opts) (c : Slot)

theorem missingBin_only (h : G (.access p.binPath)) (probe : Bool) :
    (missingBin p probe).Only G := by
  unfold missingBin
  split_ifs
  · exact ⟨h, fun _ => trivial⟩
  · trivial

theorem isDue_only (h : G (.access p.binPath)) (r : Record) (now : Int) (checkBin : Bool) :
    (isDue p r now o checkBin).Only G := by
  unfold isDue
  split_ifs
  · trivial
  · exact (missingBin_only p h checkBin).bind fun _ => trivial

theorem reportSkip_only (h : ∀ text, G (.out text)) (wait : Int) :
    (reportSkip p o wait).Only G := by
  unfold reportSkip
  split_ifs
  · trivial
  all_goals exact ⟨h _, fun _ => trivial⟩

theorem report_only (h : ∀ text, G (.out text)) (verbose : Bool) (text : Bytes) :
    (report verbose text).Only G := by
  cases verbose
  · trivial
  · exact ⟨h text, fun _ => trivial⟩

theorem reportChange_only (h : ∀ text, G (.out text)) (r : Record) (mark : Bytes)
    (missing : Bool) : (reportChange p r mark missing).Only G := by
  unfold reportChange
  split_ifs <;> exact ⟨h _, fun _ => trivial⟩

theorem finish_only (hexec : ∀ argv, G (.exec p.binPath argv)) (herr : ∀ text, G (.err text))
    (rc : Nat) : (finish p o rc).Only G := by
  unfold finish
  split_ifs
  · trivial
  · trivial
  · refine ⟨hexec _, fun (failed : Option Bytes) => ?_⟩
    cases failed
    · trivial
    · exact ⟨herr _, fun _ => trivial⟩

theorem loadRecord_only (hread : G (.read c.path)) (herr : ∀ text, G (.err text)) :
    (loadRecord c).Only G := by
  refine ⟨hread, fun file => ?_⟩
  rcases file with (reason | reason) | content
  · exact ⟨herr _, fun _ => trivial⟩
  · exact ⟨herr _, fun _ => trivial⟩
  · trivial

def Looks : Call → Prop
  | .getlk | .getppid | .parentPid _ => True
  | _ => False

def LockCall : Call → Prop
  | .setlk | .getlk | .getppid | .parentPid _ | .setlkw | .closeLock | .err _ => True
  | _ => False

theorem Looks.lockCall {r : Call} (h : Looks r) : LockCall r := by
  cases r <;> trivial

theorem isAncestorFrom_only (h : ∀ r, Looks r → G r) (pid : Int) (depth : Nat) (cur : Int) :
    (isAncestorFrom pid depth cur).Only G := by
  induction depth generalizing cur with
  | zero => trivial
  | succ depth ih =>
    unfold isAncestorFrom
    split_ifs
    · trivial
    · trivial
    · trivial
    · exact ⟨h _ trivial, fun parent => ih parent⟩

theorem heldByAncestor_only (h : ∀ r, Looks r → G r) : heldByAncestor.Only G := by
  refine ⟨h _ trivial, fun holder => ?_⟩
  cases holder with
  | none => trivial
  | some holder =>
    have habove : (isAncestor holder).Only G :=
      ⟨h _ trivial, fun parent => isAncestorFrom_only h holder 256 parent⟩
    exact habove.bind fun _ => trivial

theorem waitForLock_only (h : ∀ r, LockCall r → G r) : (waitForLock c).Only G := by
  refine ⟨h _ trivial, fun failed => ?_⟩
  cases failed
  · trivial
  · exact ⟨h _ trivial, fun _ => ⟨h _ trivial, fun _ => trivial⟩⟩

theorem hmCacheLock_only (hopen : G (.openLock (lockPath c))) (h : ∀ r, LockCall r → G r) :
    (hmCacheLock c).Only G := by
  refine ⟨hopen, fun failed => ?_⟩
  cases failed with
  | some reason => exact ⟨h _ trivial, fun _ => trivial⟩
  | none =>
    refine ⟨h _ trivial, fun got => ?_⟩
    cases got with
    | ok => trivial
    | failed => exact waitForLock_only c h
    | busy =>
      refine (heldByAncestor_only fun r hr => h r hr.lockCall).bind fun holder => ?_
      cases holder with
      | none => exact waitForLock_only c h
      | some holder => exact ⟨h _ trivial, fun _ => ⟨h _ trivial, fun _ => trivial⟩⟩

end Requests

section Footprint
variable {waits : Prop} (p : Project) (o : Opts) (c : Slot) (cacheDir : Bytes)

/-- The files, directories and programs a run names; what happens under the lock never
waits for it. -/
def Footprint (waits : Prop) : Call → Prop
  | .read path => path = c.path
  | .access path => path = p.binPath
  | .exec path _ => path = p.binPath
  | .openLock path => path = lockPath c
  | .reset workdir => workdir = c.workdir
  | .materialize files workdir => files = p.files ∧ workdir = c.workdir
  | .command p' workdir dir _ => p' = p ∧ workdir = c.workdir ∧ dir = cacheDir
  | .install p' _ _ workdir dir _ => p' = p ∧ workdir = c.workdir ∧ dir = cacheDir
  | .save path content => path = c.path ∧ ∃ r, content = recordBytes c.identity r
  | .unpack _ _ => False
  | .setlkw => waits
  | _ => True

theorem finishLocked_footprint (locked : Bool) (rc : Nat) :
    (finishLocked p o locked rc).Only (Footprint p c cacheDir waits) := by
  refine Prog.Only.bind ?_ fun _ =>
    finish_only p o (fun _ => rfl) (fun _ => trivial) rc
  cases locked
  · trivial
  · exact ⟨trivial, fun _ => trivial⟩

theorem hmCacheLock_footprint : (hmCacheLock c).Only (Footprint p c cacheDir True) :=
  hmCacheLock_only (G := Footprint p c cacheDir True) c rfl fun r h => by cases r <;> trivial

theorem saveRecord_footprint (r : Record) : (saveRecord c r).Only (Footprint p c cacheDir waits) :=
  ⟨⟨rfl, r, rfl⟩, fun _ => trivial⟩

theorem commandSetup_footprint (r : Record) :
    (commandSetup p o c r cacheDir).Only (Footprint p c cacheDir waits) := by
  have hreset : (resetUnlessKnown c r).Only (Footprint p c cacheDir waits) := by
    unfold resetUnlessKnown
    split_ifs
    · exact ⟨rfl, fun _ => trivial⟩
    · trivial
  have hwrite : (materializeFiles p c).Only (Footprint p c cacheDir waits) := by
    unfold materializeFiles
    split_ifs
    · exact ⟨⟨rfl, rfl⟩, fun _ => trivial⟩
    · trivial
  refine hreset.bind fun clean => ?_
  split_ifs
  · trivial
  · refine hwrite.bind fun written => ?_
    split_ifs
    · trivial
    · exact ⟨⟨rfl, rfl, rfl⟩, fun _ => trivial⟩

theorem runCommandProject_footprint (r : Record) (now : Int) :
    (runCommandProject p o c r now cacheDir).Only (Footprint p c cacheDir waits) := by
  unfold runCommandProject
  split_ifs
  · exact ⟨trivial, fun _ => trivial⟩
  · exact saveRecord_footprint p c cacheDir _
  · refine (report_only (fun _ => trivial) _ _).bind fun _ =>
      (commandSetup_footprint p o c cacheDir r).bind fun done => ?_
    split_ifs
    · exact saveRecord_footprint p c cacheDir _
    · trivial

theorem installSetup_footprint (oldMark : Bytes) (res : CheckResult) :
    (installSetup p o c oldMark res cacheDir).Only (Footprint p c cacheDir waits) := by
  have hinstall : (hmInstall p oldMark res c.workdir cacheDir o.trace).Only
      (Footprint p c cacheDir waits) := by
    unfold hmInstall
    split_ifs
    · exact ⟨trivial, fun _ => trivial⟩
    · exact ⟨⟨rfl, rfl, rfl⟩, fun _ => trivial⟩
  refine ⟨rfl, fun (clean : Bool) => ?_⟩
  cases clean
  · trivial
  · exact hinstall

theorem applyCheck_footprint (r : Record) (now : Int) (res : CheckResult) (missing : Bool) :
    (applyCheck p o c r now cacheDir res missing).Only (Footprint p c cacheDir waits) := by
  unfold applyCheck
  split
  · exact (report_only (fun _ => trivial) _ _).bind fun _ => saveRecord_footprint p c cacheDir _
  · refine (reportChange_only p (fun _ => trivial) r _ missing).bind fun _ => ?_
    split_ifs
    · trivial
    · refine Prog.Only.bind ?_ fun done => ?_
      · unfold installUnlessAdopt
        split_ifs
        · trivial
        · exact installSetup_footprint p o c cacheDir r.mark res
      · split_ifs
        · exact saveRecord_footprint p c cacheDir _
        · trivial

theorem runProject_footprint (r : Record) (now : Int) :
    (runProject p o c r now cacheDir).Only (Footprint p c cacheDir waits) := by
  unfold runProject
  split
  · exact runCommandProject_footprint p o c cacheDir r now
  · refine ⟨trivial, fun (res : Option CheckResult) => ?_⟩
    cases res with
    | none => trivial
    | some res =>
      exact (missingBin_only (G := Footprint p c cacheDir waits) p rfl true).bind fun missing =>
        applyCheck_footprint p o c cacheDir r now res missing

theorem work_footprint (locked : Bool) (r : Record) (now : Int) :
    (work p o c cacheDir locked r now).Only (Footprint p c cacheDir waits) :=
  (runProject_footprint p o c cacheDir r now).bind fun rc =>
    finishLocked_footprint p o c cacheDir locked rc

theorem underLock_footprint : (underLock p o c cacheDir).Only (Footprint p c cacheDir waits) := by
  refine (loadRecord_only (G := Footprint p c cacheDir waits) c rfl fun _ => trivial).bind
    fun record => ?_
  cases record with
  | none => exact ⟨trivial, fun _ => trivial⟩
  | some r =>
    refine ⟨trivial, fun now =>
      (isDue_only (G := Footprint p c cacheDir waits) p o rfl r now true).bind fun decision => ?_⟩
    cases decision with
    | wait wait =>
      exact (reportSkip_only p o (fun _ => trivial) wait).bind fun _ =>
        finishLocked_footprint p o c cacheDir true HM_EXIT_OK
    | due => exact work_footprint p o c cacheDir true r now

theorem slowPath_footprint (r : Record) (now : Int) :
    (slowPath p o c cacheDir r now).Only (Footprint p c cacheDir True) := by
  unfold slowPath
  split_ifs
  · exact work_footprint p o c cacheDir false r now
  · refine (hmCacheLock_footprint p c cacheDir).bind fun locked => ?_
    split_ifs
    · trivial
    · exact underLock_footprint p o c cacheDir

theorem speculate_footprint (r : Record) (now : Int) :
    (speculate p o c cacheDir r now).Only (Footprint p c cacheDir True) := by
  refine ⟨rfl, fun (failed : Option Bytes) => ?_⟩
  cases failed with
  | none => trivial
  | some reason =>
    refine ⟨rfl, fun (there : Bool) => ?_⟩
    cases there
    · exact slowPath_footprint p o c cacheDir r now
    · exact ⟨trivial, fun _ => trivial⟩

theorem act_footprint : (act p o c cacheDir).Only (Footprint p c cacheDir True) := by
  refine (loadRecord_only (G := Footprint p c cacheDir True) c rfl fun _ => trivial).bind
    fun record => ?_
  cases record with
  | none => trivial
  | some r =>
    refine ⟨trivial, fun now =>
      (isDue_only (G := Footprint p c cacheDir True) p o rfl r now (!execCheck p o)).bind
        fun decision => ?_⟩
    cases decision with
    | due => exact slowPath_footprint p o c cacheDir r now
    | wait wait =>
      change (if execCheck p o then _ else _ : P Outcome).Only _
      split_ifs
      · exact speculate_footprint p o c cacheDir r now
      · exact (reportSkip_only p o (fun _ => trivial) wait).bind fun _ =>
          finish_only p o (fun _ => rfl) (fun _ => trivial) HM_EXIT_OK

end Footprint

def Handed (out : Outcome) : Prop := out = .exit HM_EXIT_OK ∨ out = .replaced

section Rules
variable {W : Type} {E : Env calls W} {G : W → Call → Prop} {w : W}
variable (p : Project) (o : Opts) (c : Slot)

def Silent : Call → Prop
  | .exec _ _ | .reset _ | .materialize _ _ | .command _ _ _ _ | .install _ _ _ _ _ _
  | .save _ _ | .unpack _ _ => False
  | _ => True

/-- A world in which silent requests are allowed and change nothing. -/
structure Still (E : Env calls W) (G : W → Call → Prop) (w : W) : Prop where
  guard : ∀ r, Silent r → G w r
  same : ∀ r x w', Silent r → E.answers w r x w' → w' = w

theorem Still.only {α : Type} {prog : P α} (hw : Still E G w) (h : prog.Only Silent) :
    prog.Safe E G (fun _ w' => w' = w) w :=
  h.safe hw.guard hw.same

theorem isDue_safe (hw : Still E G w) (r : Record) (now : Int) (checkBin : Bool) :
    (isDue p r now o checkBin).Safe E G
      (fun d w' => w' = w ∧ ∀ wait, d = .wait wait →
        o.force = false ∧ scheduled p r now = .wait wait) w := by
  unfold isDue
  split_ifs with hf
  · exact ⟨rfl, nofun⟩
  · refine (hw.only (missingBin_only p trivial checkBin)).seq fun missing w' hw' => ?_
    subst hw'
    refine ⟨rfl, fun wait hd => ⟨by simpa using hf, ?_⟩⟩
    cases missing
    · exact hd
    · cases hd

def Reads (E : Env calls W) (w : W) (file : Option Bytes) : Prop :=
  ∀ path x w', E.answers w (.read path) x w' → ∀ content, x = .ok content → content = file

theorem loadRecord_safe {file : Option Bytes} (hw : Still E G w) (hfile : Reads E w file) :
    (loadRecord c).Safe E G
      (fun record w' => w' = w ∧ ∀ r, record = some r → r = hmCacheLoad c.identity file) w := by
  refine ⟨hw.guard (.read c.path) trivial, fun x w' hx => ?_⟩
  obtain rfl : w' = w := hw.same (.read c.path) x w' trivial hx
  rcases x with (reason | reason) | content
  · refine ⟨hw.guard (.err _) trivial, fun _ w₂ h₂ => ⟨hw.same (.err _) _ w₂ trivial h₂, nofun⟩⟩
  · refine ⟨hw.guard (.err _) trivial, fun _ w₂ h₂ => ⟨hw.same (.err _) _ w₂ trivial h₂, nofun⟩⟩
  · refine ⟨rfl, fun r hr => ?_⟩
    rw [← Option.some.inj hr, hfile _ _ _ hx content rfl]

theorem finish_safe {Q : Outcome → W → Prop} {rc : Nat} (hw : Still E G w)
    (hsame : ∀ path argv x w', E.answers w (.exec path argv) x w' → w' = w)
    (hok : rc = HM_EXIT_OK → (∀ path argv, G w (.exec path argv)) ∧ ∀ out, Q out w)
    (hfail : rc ≠ HM_EXIT_OK → Q (.exit rc) w) : (finish p o rc).Safe E G Q w := by
  have hdone : Q (.exit rc) w := by
    by_cases h : rc = HM_EXIT_OK
    · exact (hok h).2 _
    · exact hfail h
  unfold finish
  split_ifs with h₁ h₂
  · exact hdone
  · exact hdone
  · obtain ⟨hexec, hout⟩ := hok (not_not.mp (not_or.mp h₁).1)
    refine ⟨hexec _ _, fun (failed : Option Bytes) w' hx => ?_⟩
    have hw' := hsame _ _ _ _ hx
    subst hw'
    cases failed with
    | none => exact hout _
    | some reason =>
      refine ⟨hw.guard (.err _) trivial, fun _ w₂ h₂ => ?_⟩
      rw [hw.same (.err _) _ w₂ trivial h₂]
      exact hout _

theorem finishLocked_safe {Q : Outcome → W → Prop} {rc : Nat} (locked : Bool) (hw : Still E G w)
    (hsame : ∀ path argv x w', E.answers w (.exec path argv) x w' → w' = w)
    (hok : rc = HM_EXIT_OK → (∀ path argv, G w (.exec path argv)) ∧ ∀ out, Q out w)
    (hfail : rc ≠ HM_EXIT_OK → Q (.exit rc) w) : (finishLocked p o locked rc).Safe E G Q w := by
  have hunlock : (hmCacheUnlock locked).Only Silent := by
    cases locked
    · trivial
    · exact ⟨trivial, fun _ => trivial⟩
  refine (hw.only hunlock).seq fun _ w' hw' => ?_
  subst hw'
  exact finish_safe p o hw hsame hok hfail

theorem hmCacheLock_silent : (hmCacheLock c).Only Silent :=
  hmCacheLock_only (G := Silent) c trivial fun r h => by cases r <;> trivial

theorem reportSkip_silent (wait : Int) : (reportSkip p o wait).Only Silent :=
  reportSkip_only (G := Silent) p o (fun _ => trivial) wait

theorem changed_eq_false {r : Record} {mark : Bytes} {missing : Bool} :
    changed r mark missing = false ↔ missing = false ∧ r.known = true ∧ r.mark = mark := by
  simp [changed, and_assoc]

/-- Without `--force` an embedded project that is not due has a matching record. -/
theorem known_of_wait {r : Record} {now wait : Int} (hf : p.files ≠ [])
    (h : scheduled p r now = .wait wait) : r.known = true := by
  cases hk : r.known
  · simp [scheduled, hf, hk] at h
  · rfl

end Rules

def obliging (r : calls.Req) : calls.Ans r :=
  match r with
  | .read _ => .ok none
  | .time => (0 : Int)
  | .access _ => true
  | .exec _ _ => none
  | .openLock _ => none
  | .setlk => .ok
  | .getlk => none
  | .getppid => (1 : Int)
  | .parentPid _ => (1 : Int)
  | .setlkw => none
  | .closeLock => ()
  | .reset _ => true
  | .materialize _ _ => true
  | .command _ _ _ _ => true
  | .check _ _ => none
  | .install _ _ _ _ _ _ => true
  | .save _ _ => true
  | .unpack _ _ => true
  | .out _ => ()
  | .err _ => ()

section Eval
variable {W : Type} (h : W → (r : calls.Req) → calls.Ans r × W) {w : W}
variable (p : Project) (o : Opts)

def decides (there : Bool) (r : Record) (now : Int) (checkBin : Bool) : Decision :=
  if o.force || (checkBin && p.binCached && !there) then .due else scheduled p r now

theorem eval_missingBin (there : Bool) (hp : h w (.access p.binPath) = (there, w)) (probe : Bool) :
    (missingBin p probe).eval h w = (probe && p.binCached && !there, w) := by
  unfold missingBin
  by_cases hb : (probe && p.binCached) = true
  · rw [if_pos hb, hb]
    change (!(h w (.access p.binPath)).1, (h w (.access p.binPath)).2) = _
    rw [hp]
    rfl
  · rw [if_neg hb]
    rw [Bool.not_eq_true] at hb
    rw [hb]
    rfl

theorem eval_isDue (there : Bool) (hp : h w (.access p.binPath) = (there, w)) (r : Record)
    (now : Int) (checkBin : Bool) :
    (isDue p r now o checkBin).eval h w = (decides p o there r now checkBin, w) := by
  unfold isDue decides
  cases hf : o.force
  · simp only [Bool.false_eq_true, ↓reduceIte, Bool.false_or]
    rw [eval_bind, eval_missingBin h p there hp]
    rfl
  · rfl

variable (c : Slot)

theorem eval_loadRecord (content : Option Bytes) (hr : h w (.read c.path) = (.ok content, w)) :
    (loadRecord c).eval h w = (some (hmCacheLoad c.identity content), w) := by
  have hread : (askRead c.path).eval h w = (.ok content, w) := hr
  unfold loadRecord
  rw [eval_bind, hread]
  rfl

theorem eval_runUrlProject_none {dir : Bytes} {r : Record} {now : Int} (w' : W)
    (hc : h w (.check p o.timeout) = (none, w')) :
    (runUrlProject p o c r now dir).eval h w = (HM_EXIT_FAILED, w') := by
  have hcheck : (askCheck p o.timeout).eval h w = (none, w') := hc
  unfold runUrlProject
  rw [eval_bind, hcheck]
  rfl

theorem eval_runUrlProject {dir : Bytes} {r : Record} {now : Int} {res : CheckResult} (w' : W)
    (there : Bool) (hc : h w (.check p o.timeout) = (some res, w'))
    (hp : h w' (.access p.binPath) = (there, w')) :
    (runUrlProject p o c r now dir).eval h w =
      (applyCheck p o c r now dir res (p.binCached && !there)).eval h w' := by
  have hcheck : (askCheck p o.timeout).eval h w = (some res, w') := hc
  unfold runUrlProject
  rw [eval_bind, hcheck]
  change (missingBin p true >>= fun missing => applyCheck p o c r now dir res missing).eval h w' = _
  rw [eval_bind, eval_missingBin h p there hp]
  rfl

end Eval

section Schedule
variable (p : Project) (r : Record) (now : Int)

def Fresh : Prop :=
  (p.files ≠ [] ∧ r.known = true ∧ (p.scheduleExplicit = false ∨ p.schedKind = .never)) ∨
    (p.files = [] ∨ r.known = true) ∧ (p.schedKind = .never ∨ p.schedKind = .every ∧
      r.lastCheck ≠ 0 ∧ r.lastCheck ≤ now ∧ now < r.lastCheck + p.schedInterval)

theorem every_due_iff :
    ((if r.lastCheck = 0 then Decision.due
      else
        let elapsed := now - r.lastCheck
        if elapsed < 0 then .due
        else if p.schedInterval ≤ elapsed then .due
        else .wait (p.schedInterval - elapsed)) = .due) ↔
      ¬ (r.lastCheck ≠ 0 ∧ r.lastCheck ≤ now ∧ now < r.lastCheck + p.schedInterval) := by
  dsimp only
  split_ifs with h₁ h₂ h₃
  · simp [h₁]
  · simp only [true_iff]
    omega
  · simp only [true_iff]
    omega
  · simp only [false_iff]
    omega

theorem due_iff : scheduled p r now = .due ↔ ¬ Fresh p r now := by
  have hevery := every_due_iff p r now
  unfold scheduled Fresh
  by_cases hf : p.files = []
  · cases hk : p.schedKind with
    | always => simp [hf]
    | never => simp [hf]
    | every => simpa [hf] using hevery
  · cases hr : r.known with
    | false => simp [hf]
    | true =>
      by_cases he : p.scheduleExplicit = false ∨ p.schedKind = .never
      · simp [hf, he]
      · obtain ⟨he, hn⟩ := not_or.mp he
        rw [Bool.not_eq_false] at he
        cases hk : p.schedKind with
        | always => simp [hf, he]
        | never => exact absurd hk hn
        | every => simpa [hf, he] using hevery

end Schedule

end Hacman.Requests
