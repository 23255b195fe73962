import Hacman.Requests

/-!
# The outline of a run

The assertions that hold between the requests of a run, over any world, and what each request
has to do with them. A result about every run names its assertions and checks the requests one
by one; the way through the driver is the same for all of them.
-/

namespace Hacman.Outline
open Octets Util Cache Config Interaction Main Requests

section Lock
variable {W : Type} {E : Env calls W} {G : W → Call → Prop} {c : Slot}
variable {idle opened unopened : W → Prop} {R : Bool → W → Prop} {w : W}

def Talk : Call → Prop
  | .getlk | .getppid | .parentPid _ | .err _ => True
  | _ => False

theorem Talk.of_looks {r : Call} (h : Looks r) : Talk r := by
  cases r <;> trivial

variable (E G c idle opened unopened R) in
structure Locking : Prop where
  openLock : ∀ w, idle w → (askOpenLock (lockPath c)).Safe E G
    (fun failed w' => (failed = none → opened w') ∧ (failed ≠ none → unopened w')) w
  report : ∀ w text, unopened w → (hmErrText text).Safe E G (fun _ => R false) w
  talk : ∀ w r, opened w → Talk r → G w r ∧ ∀ x w', E.answers w r x w' → opened w'
  setlk : ∀ w, opened w → askSetlk.Safe E G
    (fun got w' => (got = .ok → R true w') ∧ (got ≠ .ok → opened w')) w
  setlkw : ∀ w, opened w → askSetlkw.Safe E G
    (fun failed w' => (failed = none → R true w') ∧ (failed ≠ none → opened w')) w
  closeLock : ∀ w, opened w → askCloseLock.Safe E G (fun _ => R false) w

theorem Locking.refuse (h : Locking E G c idle opened unopened R) (hw : opened w) (text : Bytes) :
    (do hmErrText text; askCloseLock; pure false : P Bool).Safe E G R w := by
  have hsaid : (hmErrText text).Only Talk := ⟨trivial, fun _ => trivial⟩
  apply (hsaid.keeps h.talk hw).seq
  intro _ w₁ h₁
  exact (h.closeLock w₁ h₁).seq fun _ _ h₂ => h₂

theorem Locking.waitForLock (h : Locking E G c idle opened unopened R) (hw : opened w) :
    (waitForLock c).Safe E G R w := by
  apply (h.setlkw w hw).seq
  intro failed w₁ h₁
  cases failed with
  | none => exact h₁.1 rfl
  | some reason => exact h.refuse (h₁.2 nofun) _

theorem Locking.hmCacheLock (h : Locking E G c idle opened unopened R) (hw : idle w) :
    (hmCacheLock c).Safe E G R w := by
  apply (h.openLock w hw).seq
  intro failed w₁ h₁
  cases failed with
  | some reason => exact (h.report w₁ _ (h₁.2 nofun)).seq fun _ _ h₂ => h₂
  | none =>
    apply (h.setlk w₁ (h₁.1 rfl)).seq
    intro got w₂ h₂
    cases got with
    | ok => exact h₂.1 rfl
    | failed => exact h.waitForLock (h₂.2 nofun)
    | busy =>
      have hlooks : heldByAncestor.Only Talk := heldByAncestor_only fun _ => Talk.of_looks
      apply (hlooks.keeps h.talk (h₂.2 nofun)).seq
      intro holder w₃ h₃
      cases holder with
      | none => exact h.waitForLock h₃
      | some holder => exact h.refuse h₃ _

end Lock

section Setup
variable {W : Type} {E : Env calls W} {G : W → Call → Prop} {w : W}
variable {p : Project} {o : Opts} {c : Slot} {dir : Bytes} {r : Record}
variable (cleared : W → Prop) {R : Bool → W → Prop}

theorem commandSetup_safe (hreset : (askReset c.workdir).Safe E G (fun clean w' =>
      (clean = true → cleared w') ∧ (clean = false → R false w')) w)
    (hknown : r.known = true → cleared w)
    (hwrite : ∀ w', cleared w' → (askMaterialize p.files c.workdir).Safe E G (fun done w₂ =>
      (done = true → cleared w₂) ∧ (done = false → R false w₂)) w')
    (hcommand : ∀ w', cleared w' → (askCommand p c.workdir dir o.trace).Safe E G R w') :
    (commandSetup p o c r dir).Safe E G R w := by
  have hclean : (resetUnlessKnown c r).Safe E G (fun clean w' =>
      (clean = true → cleared w') ∧ (clean = false → R false w')) w := by
    unfold resetUnlessKnown
    cases hk : r.known with
    | false => exact hreset
    | true => exact ⟨fun _ => hknown hk, nofun⟩
  apply hclean.seq
  intro clean w₁ h₁
  cases clean with
  | false => exact h₁.2 rfl
  | true =>
    have hwritten : (materializeFiles p c).Safe E G (fun done w₂ =>
        (done = true → cleared w₂) ∧ (done = false → R false w₂)) w₁ := by
      unfold materializeFiles
      split_ifs
      · exact hwrite w₁ (h₁.1 rfl)
      · exact ⟨fun _ => h₁.1 rfl, nofun⟩
    apply hwritten.seq
    intro written w₂ h₂
    cases written with
    | false => exact h₂.2 rfl
    | true => exact hcommand w₂ (h₂.1 rfl)

theorem installSetup_safe {mark : Bytes} {res : CheckResult}
    (hreset : (askReset c.workdir).Safe E G (fun clean w' =>
      (clean = true → cleared w') ∧ (clean = false → R false w')) w)
    (hbare : ∀ w' text, cleared w' → (hmErrText text).Safe E G (fun _ => R true) w')
    (hinstall : ∀ w', p.install ≠ [] → cleared w' →
      (askInstall p mark res c.workdir dir o.trace).Safe E G R w') :
    (installSetup p o c mark res dir).Safe E G R w := by
  apply hreset.seq
  intro clean w₁ h₁
  cases clean with
  | false => exact h₁.2 rfl
  | true =>
    change (hmInstall p mark res c.workdir dir o.trace).Safe E G R w₁
    unfold hmInstall
    split_ifs with hscript
    · exact (hbare w₁ _ (h₁.1 rfl)).seq fun _ _ h₂ => h₂
    · exact hinstall w₁ hscript (h₁.1 rfl)

end Setup

section Work
variable {W : Type} {E : Env calls W} {G : W → Call → Prop} {w : W}
variable {p : Project} {o : Opts} {c : Slot} {dir : Bytes} {r : Record} {now : Int}
variable {start : W → Prop} {heard : CheckResult → W → Prop}
  {probed told : CheckResult → Bool → W → Prop} {ready : Record → W → Prop} {Q : Nat → W → Prop}

def installed (r : Record) (now : Int) (res : CheckResult) : Record :=
  { r with mark := hmStrCopy (HM_MARK_MAX + 1) res.mark, lastCheck := now, lastChange := now }

variable (E G p o c dir r now start ready Q) in
structure CommandCourse : Prop where
  due : ∀ w, o.inspects = true → start w →
    (hmOutText (message "due      %S\n" [.slice p.name])).Safe E G (fun _ => Q HM_EXIT_CHANGED) w
  adopt : ∀ w, o.inspects = false → o.adopt = true → start w →
    ready { r with lastCheck := now, lastChange := now } w
  run : ∀ w, o.inspects = false → o.adopt = false → start w →
    (report o.verbose (message "run      %S\n" [.slice p.name])).Safe E G (fun _ => start) w
  setup : ∀ w, o.inspects = false → o.adopt = false → start w →
    (commandSetup p o c r dir).Safe E G (fun done w' =>
      (done = true → ready { r with lastCheck := now, lastChange := now } w') ∧
        (done = false → Q HM_EXIT_FAILED w')) w
  save : ∀ w r', ready r' w → (saveRecord c r').Safe E G Q w

theorem CommandCourse.runCommandProject
    (h : CommandCourse E G p o c dir r now start ready Q) (hw : start w) :
    (runCommandProject p o c r now dir).Safe E G Q w := by
  unfold Main.runCommandProject
  cases hi : o.inspects with
  | true =>
    have hflags : (o.checkOnly || o.dryRun) = true := hi
    rw [if_pos hflags]
    exact (h.due w hi hw).seq fun _ _ h₁ => h₁
  | false =>
    have hflags : (o.checkOnly || o.dryRun) = false := hi
    rw [hflags, if_neg Bool.false_ne_true]
    cases ha : o.adopt with
    | true => exact h.save w _ (h.adopt w hi ha hw)
    | false =>
      rw [if_neg Bool.false_ne_true]
      apply (h.run w hi ha hw).seq
      intro _ w₁ h₁
      apply (h.setup w₁ hi ha h₁).seq
      intro done w₂ h₂
      cases done with
      | true => exact h.save w₂ _ (h₂.1 rfl)
      | false => exact h₂.2 rfl

variable (E G p o c dir r now start heard probed told ready Q) in
structure UrlCourse : Prop where
  check : ∀ w, start w → (askCheck p o.timeout).Safe E G
    (fun res w' => (res = none → Q HM_EXIT_FAILED w') ∧ ∀ x, res = some x → heard x w') w
  probe : ∀ w res, heard res w → (missingBin p true).Safe E G (probed res) w
  unchanged : ∀ w res missing, changed r res.mark missing = false → probed res missing w →
    (report o.verbose (message "ok       %S (%s)\n" [.slice p.name, .str res.mark])).Safe E G
      (fun _ => ready { r with lastCheck := now }) w
  tell : ∀ w res missing, changed r res.mark missing = true → probed res missing w →
    (reportChange p r res.mark missing).Safe E G (fun _ => told res missing) w
  inspect : ∀ w res missing, o.inspects = true → told res missing w → Q HM_EXIT_CHANGED w
  adopt : ∀ w res missing, o.inspects = false → o.adopt = true → told res missing w →
    ready (installed r now res) w
  setup : ∀ w res missing, o.inspects = false → o.adopt = false → told res missing w →
    (installSetup p o c r.mark res dir).Safe E G (fun done w' =>
      (done = true → ready (installed r now res) w') ∧ (done = false → Q HM_EXIT_FAILED w')) w
  save : ∀ w r', ready r' w → (saveRecord c r').Safe E G Q w

theorem UrlCourse.installUnlessAdopt
    (h : UrlCourse E G p o c dir r now start heard probed told ready Q) {res : CheckResult}
    {missing : Bool} (hi : o.inspects = false) (hw : told res missing w) :
    (installUnlessAdopt p o c r.mark res dir).Safe E G (fun done w' =>
      (done = true → ready (installed r now res) w') ∧ (done = false → Q HM_EXIT_FAILED w')) w := by
  unfold Main.installUnlessAdopt
  cases ha : o.adopt with
  | true => exact ⟨fun _ => h.adopt w res missing hi ha hw, nofun⟩
  | false => exact h.setup w res missing hi ha hw

theorem UrlCourse.applyCheck
    (h : UrlCourse E G p o c dir r now start heard probed told ready Q) {res : CheckResult}
    {missing : Bool} (hw : probed res missing w) :
    (applyCheck p o c r now dir res missing).Safe E G Q w := by
  unfold Main.applyCheck
  cases hc : changed r res.mark missing with
  | false =>
    rw [Bool.not_false, if_pos rfl]
    exact (h.unchanged w res missing hc hw).seq fun _ w₁ h₁ => h.save w₁ _ h₁
  | true =>
    rw [Bool.not_true, if_neg Bool.false_ne_true]
    apply (h.tell w res missing hc hw).seq
    intro _ w₁ h₁
    cases hi : o.inspects with
    | true =>
      have hflags : (o.checkOnly || o.dryRun) = true := hi
      rw [if_pos hflags]
      exact h.inspect w₁ res missing hi h₁
    | false =>
      have hflags : (o.checkOnly || o.dryRun) = false := hi
      rw [hflags, if_neg Bool.false_ne_true]
      apply (h.installUnlessAdopt hi h₁).seq
      intro done w₂ h₂
      cases done with
      | true => exact h.save w₂ _ (h₂.1 rfl)
      | false => exact h₂.2 rfl

theorem UrlCourse.runUrlProject
    (h : UrlCourse E G p o c dir r now start heard probed told ready Q) (hw : start w) :
    (runUrlProject p o c r now dir).Safe E G Q w := by
  apply (h.check w hw).seq
  intro res w₁ h₁
  cases res with
  | none => exact h₁.1 rfl
  | some res => exact (h.probe w₁ res (h₁.2 res rfl)).seq fun missing w₂ h₂ => h.applyCheck h₂

end Work

section Course
variable {W : Type} {E : Env calls W} {G : W → Call → Prop} {w : W}
variable {p : Project} {o : Opts} {c : Slot} {dir : Bytes} {Q : Outcome → W → Prop}

/-- The assertions of a run. `locked` tells the look under the lock from the one before it, and
`left` has the code that the work has come to. -/
structure Assertions (W : Type) where
  entered : Bool → W → Prop
  unread : Bool → W → Prop
  loaded : Bool → Record → W → Prop
  timed : Bool → Record → Int → W → Prop
  resting : Bool → Record → Int → W → Prop
  called : Bool → Record → Int → W → Prop
  left : Bool → Nat → W → Prop
  declined : Record → Int → W → Prop
  unable : W → Prop

variable {A : Assertions W}

variable (E G p o c dir Q A) in
structure Course : Prop where
  load : ∀ locked w, A.entered locked w → (loadRecord c).Safe E G
    (fun record w' => (record = none → A.unread locked w') ∧
      ∀ r, record = some r → A.loaded locked r w') w
  giveUp : ∀ locked w, A.unread locked w →
    (hmCacheUnlock locked).Safe E G (fun _ => Q (.exit HM_EXIT_USAGE)) w
  time : ∀ locked r w, A.loaded locked r w → askTime.Safe E G (A.timed locked r) w
  decide : ∀ locked r now w, A.timed locked r now w →
    (isDue p r now o (locked || !execCheck p o)).Safe E G (fun decision w' =>
      (decision = .due → A.called locked r now w') ∧
        ∀ wait, decision = .wait wait → A.resting locked r now w') w
  skip : ∀ locked r now wait w, A.resting locked r now w →
    (reportSkip p o wait).Safe E G (fun _ => A.resting locked r now) w
  rest : ∀ locked r now w, (locked = true ∨ execCheck p o = false) → A.resting locked r now w →
    (finishLocked p o locked HM_EXIT_OK).Safe E G Q w
  exec : ∀ r now w, execCheck p o = true → A.resting false r now w → (execProgram p o).Safe E G
    (fun failed w' => (failed = none → Q .replaced w') ∧ (failed ≠ none → A.declined r now w')) w
  access : ∀ r now w, execCheck p o = true → A.declined r now w → (askAccess p.binPath).Safe E G
    (fun there w' => (there = true → A.unable w') ∧ (there = false → A.called false r now w')) w
  cannot : ∀ text w, A.unable w → (hmErrText text).Safe E G (fun _ => Q (.exit 127)) w
  lock : ∀ r now w, o.inspects = false → A.called false r now w → (hmCacheLock c).Safe E G
    (fun locked w' => (locked = true → A.entered true w') ∧
      (locked = false → Q (.exit HM_EXIT_FAILED) w')) w
  work : ∀ locked r now w, o.inspects = !locked → A.called locked r now w →
    (runProject p o c r now dir).Safe E G (A.left locked) w
  finish : ∀ locked rc w, A.left locked rc w → (finishLocked p o locked rc).Safe E G Q w

theorem Course.work_safe (h : Course E G p o c dir Q A) {locked : Bool} {r : Record} {now : Int}
    (hi : o.inspects = !locked) (hw : A.called locked r now w) :
    (Main.work p o c dir locked r now).Safe E G Q w :=
  (h.work locked r now w hi hw).seq fun rc w₁ h₁ => h.finish locked rc w₁ h₁

theorem Course.underLock (h : Course E G p o c dir Q A) (hi : o.inspects = false)
    (hw : A.entered true w) : (underLock p o c dir).Safe E G Q w := by
  apply (h.load true w hw).seq
  intro record w₁ h₁
  cases record with
  | none => exact (h.giveUp true w₁ (h₁.1 rfl)).seq fun _ _ h₂ => h₂
  | some r =>
    apply (h.time true r w₁ (h₁.2 r rfl)).seq
    intro now w₂ h₂
    apply (h.decide true r now w₂ h₂).seq
    intro decision w₃ h₃
    cases decision with
    | wait wait =>
      apply (h.skip true r now wait w₃ (h₃.2 wait rfl)).seq
      intro _ w₄ h₄
      exact h.rest true r now w₄ (.inl rfl) h₄
    | due => exact h.work_safe hi (h₃.1 rfl)

theorem Course.slowPath (h : Course E G p o c dir Q A) {r : Record} {now : Int}
    (hw : A.called false r now w) : (slowPath p o c dir r now).Safe E G Q w := by
  unfold Main.slowPath
  cases hi : o.inspects with
  | true =>
    have hflags : (o.checkOnly || o.dryRun) = true := hi
    rw [if_pos hflags]
    exact h.work_safe hi hw
  | false =>
    have hflags : (o.checkOnly || o.dryRun) = false := hi
    rw [hflags, if_neg Bool.false_ne_true]
    apply (h.lock r now w hi hw).seq
    intro locked w₁ h₁
    cases locked with
    | false => exact h₁.2 rfl
    | true => exact h.underLock hi (h₁.1 rfl)

theorem Course.speculate (h : Course E G p o c dir Q A) {r : Record} {now : Int}
    (hb : execCheck p o = true) (hw : A.resting false r now w) :
    (speculate p o c dir r now).Safe E G Q w := by
  apply (h.exec r now w hb hw).seq
  intro failed w₁ h₁
  cases failed with
  | none => exact h₁.1 rfl
  | some reason =>
    apply (h.access r now w₁ hb (h₁.2 nofun)).seq
    intro there w₂ h₂
    cases there with
    | true => exact (h.cannot _ w₂ (h₂.1 rfl)).seq fun _ _ h₃ => h₃
    | false => exact h.slowPath (h₂.2 rfl)

/-- Steps that keep to the assertions make a run that ends as promised. -/
theorem Course.act (h : Course E G p o c dir Q A) (hw : A.entered false w) :
    (act p o c dir).Safe E G Q w := by
  apply (h.load false w hw).seq
  intro record w₁ h₁
  cases record with
  | none => exact h.giveUp false w₁ (h₁.1 rfl)
  | some r =>
    apply (h.time false r w₁ (h₁.2 r rfl)).seq
    intro now w₂ h₂
    apply (h.decide false r now w₂ h₂).seq
    intro decision w₃ h₃
    cases decision with
    | due => exact h.slowPath (h₃.1 rfl)
    | wait wait =>
      change (if execCheck p o then _ else _ : P Outcome).Safe E G Q w₃
      cases hb : execCheck p o with
      | true => exact h.speculate hb (h₃.2 wait rfl)
      | false =>
        rw [if_neg Bool.false_ne_true]
        apply (h.skip false r now wait w₃ (h₃.2 wait rfl)).seq
        intro _ w₄ h₄
        exact h.rest false r now w₄ (.inr hb) h₄

end Course

end Hacman.Outline
