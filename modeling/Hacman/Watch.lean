import Hacman.Outline

/-!
# What a process has seen

A monitor for one run of the driver, whatever the world around it does. It keeps the
last load and the last clock reading, whether the load happened under the lock, what
the probes and the check answered, and what became of the setup. The guard says what
a setup step or a save presupposes; it is the single fact about the driver that the
results on retries and on concurrent runs are drawn from.
-/

namespace Hacman.Watch
open Octets Util Cache Config Interaction Main Requests Outline

section Monitor

/-- `sure` is about the last load: it happened under the lock. `absent` says that a
probe since then found no program, `there` what the last probe after the check found. -/
structure Knows where
  file : Option Bytes := none
  now : Int := 0
  held : Bool := false
  sure : Bool := false
  absent : Bool := false
  there : Bool := false
  mark : Option Bytes := none
  failed : Bool := false
  saved : Bool := false
  refused : Bool := false
  deriving DecidableEq, Repr

def Knows.record (q : Knows) (identity : Bytes) : Record := hmCacheLoad identity q.file

def Knows.load (q : Knows) (content : Option Bytes) : Knows :=
  { q with file := content, sure := q.held, absent := false, there := false, mark := none }

def Knows.probe (q : Knows) (there : Bool) : Knows :=
  { q with there := there, absent := q.absent || !there }

def Knows.ended (q : Knows) (done : Bool) : Knows := { q with failed := q.failed || !done }

theorem ended_true (q : Knows) : q.ended true = q := by simp [Knows.ended]

def Knows.next (q : Knows) (r : calls.Req) (x : calls.Ans r) : Knows :=
  match r, x with
  | .read _, .ok content => q.load content
  | .time, now => { q with now := now }
  | .access _, there => q.probe there
  | .exec _ _, some _ => { q with refused := true }
  | .setlk, .ok => { q with held := true, sure := false }
  | .setlkw, none => { q with held := true, sure := false }
  | .closeLock, _ => { q with held := false }
  | .command _ _ _ _, done => q.ended done
  | .install _ _ _ _ _ _, done => q.ended done
  | .check _ _, some res => { q with mark := some res.mark, there := false }
  | .save _ _, saved => { q with saved := q.saved || saved }
  | _, _ => q

variable (p : Project) (o : Opts) (c : Slot)

def Refreshing (q : Knows) : Prop :=
  (q.record c.identity).known = true ∧ q.mark = some (q.record c.identity).mark ∧
    (p.binCached = true → q.there = true)

abbrev watch : Monitor calls where
  State := Knows
  assume q r x := o.inspects = true → ¬ Refreshing p c (q.next r x)
  next := Knows.next

inductive Update (r : Record) (now : Int) : Record → Prop
  | checked : Update r now { r with lastCheck := now }
  | ran : Update r now { r with lastCheck := now, lastChange := now }
  | installed (mark : Bytes) : Update r now
      { r with mark := hmStrCopy (HM_MARK_MAX + 1) mark, lastCheck := now, lastChange := now }

theorem Update.mark_length {r r' : Record} {now : Int} (h : Update r now r')
    (hr : r.mark.length ≤ HM_MARK_MAX) : r'.mark.length ≤ HM_MARK_MAX := by
  cases h with
  | checked => exact hr
  | ran => exact hr
  | installed mark =>
    simp only [hmStrCopy, Nat.add_sub_cancel]
    exact List.length_take_le _ _

def Due (q : Knows) : Prop :=
  o.force = true ∨ q.absent = true ∨ scheduled p (q.record c.identity) q.now = .due

/-- The lock is held, and what was loaded under it calls for work. -/
structure Working (q : Knows) : Prop where
  held : q.held = true
  sure : q.sure = true
  failed : q.failed = false
  saved : q.saved = false
  due : Due p o c q

def Guard (q : Knows) : Call → Prop
  | .reset _ => Working p o c q
  | .materialize _ _ => Working p o c q
  | .command _ _ _ _ => Working p o c q ∧ p.kind = .command
  | .install _ _ _ _ _ _ => Working p o c q ∧ p.kind = .url ∧ p.install ≠ []
  | .save path content => Working p o c q ∧ path = c.path ∧
      ∃ r, Update (q.record c.identity) q.now r ∧ content = recordBytes c.identity r
  | .access _ => q.sure = true → q.held = true
  | .exec path _ => path = p.binPath
  | _ => True

def Post (out : Outcome) (q : Knows) : Prop :=
  q.sure = true → ¬ Due p o c q → o.normal = true → Handed out ∨ q.refused = true

end Monitor

section Walk
variable (p : Project) (o : Opts) (c : Slot) (dir : Bytes)

abbrev Walks {α : Type} (prog : P α) (R : α → Knows → Prop) (q : Knows) : Prop :=
  prog.Safe (watch p o c).env (Guard p o c) R q

variable {p o c} {q : Knows}

def Mute : Call → Prop
  | .out _ | .err _ | .openLock _ | .getlk | .getppid | .parentPid _ => True
  | _ => False

theorem mute_walks {α : Type} {prog : P α} (h : prog.Only Mute) :
    Walks p o c prog (fun _ q' => q' = q) q :=
  h.mute fun r hr => by cases r <;> first | exact ⟨trivial, fun _ => rfl⟩ | exact hr.elim

structure Unstarted (locked : Bool) (q : Knows) : Prop where
  held : q.held = locked
  sure : q.sure = locked
  failed : q.failed = false
  saved : q.saved = false

theorem Unstarted.asks {locked : Bool} (h : Unstarted locked q) (hs : q.sure = true) :
    q.held = true :=
  h.held.trans (h.sure.symm.trans hs)

theorem Unstarted.probe {locked : Bool} (h : Unstarted locked q) (there : Bool) :
    Unstarted locked (q.probe there) := ⟨h.held, h.sure, h.failed, h.saved⟩

theorem unsure_post (h : q.sure = false) (out : Outcome) : Post p o c out q := by
  intro hs
  rw [h] at hs
  cases hs

theorem Due.post (h : Due p o c q) (out : Outcome) : Post p o c out q := by
  intro _ hn
  exact absurd h hn

theorem Due.probe (h : Due p o c q) (there : Bool) : Due p o c (q.probe there) := by
  rcases h with h | h | h
  · exact .inl h
  · exact .inr (.inl (by simp [Knows.probe, h]))
  · exact .inr (.inr h)

inductive Probed (wanted : Bool) (q : Knows) : Bool → Knows → Prop
  | skipped : wanted = false → Probed wanted q false q
  | found : wanted = true → Probed wanted q false (q.probe true)
  | absent : wanted = true → Probed wanted q true (q.probe false)

theorem missingBin_walks (hq : q.sure = true → q.held = true) (probe : Bool) :
    Walks p o c (missingBin p probe) (fun missing q' =>
      Probed (probe && p.binCached) q missing q' ∧
        ((probe && p.binCached) = true → o.inspects = true → ¬ Refreshing p c q')) q := by
  unfold missingBin
  by_cases h : (probe && p.binCached) = true
  · rw [if_pos h]
    refine ⟨hq, fun (there : Bool) q' hq' => ?_⟩
    obtain ⟨hassume, rfl⟩ := hq'
    cases there with
    | true => exact ⟨.found h, fun _ => hassume⟩
    | false => exact ⟨.absent h, fun _ => hassume⟩
  · rw [if_neg h]
    exact ⟨.skipped (by simpa using h), fun hp => absurd hp h⟩

theorem isDue_walks (hq : q.sure = true → q.held = true) (h : q.absent = false)
    (checkBin : Bool) :
    Walks p o c (isDue p (q.record c.identity) q.now o checkBin) (fun d q' =>
      (q' = q ∨ ∃ there, q' = q.probe there) ∧ (d = .due ↔ Due p o c q')) q := by
  unfold isDue
  by_cases hf : o.force = true
  · rw [if_pos hf]
    exact ⟨.inl rfl, iff_of_true rfl (.inl hf)⟩
  · rw [if_neg hf]
    apply (missingBin_walks hq checkBin).seq
    intro missing q' hprobed
    cases hprobed.1 with
    | skipped => exact ⟨.inl rfl, by simp [Due, hf, h]⟩
    | found => exact ⟨.inr ⟨true, rfl⟩, by simp [Due, hf, h, Knows.probe, Knows.record]⟩
    | absent => exact ⟨.inr ⟨false, rfl⟩, iff_of_true rfl (.inr (.inl (by simp [Knows.probe])))⟩

theorem loadRecord_walks : Walks p o c (loadRecord c) (fun record q' => (record = none ∧ q' = q) ∨
    ∃ content, q' = q.load content ∧ record = some (q'.record c.identity)) q := by
  refine ⟨trivial, fun file q' hq => ?_⟩
  rcases file with (reason | reason) | content
  · obtain rfl : q' = q := hq.2
    exact ⟨trivial, fun _ q₂ h₂ => .inl ⟨rfl, h₂.2⟩⟩
  · obtain rfl : q' = q := hq.2
    exact ⟨trivial, fun _ q₂ h₂ => .inl ⟨rfl, h₂.2⟩⟩
  · obtain rfl : q' = q.load content := hq.2
    exact .inr ⟨content, rfl, rfl⟩

def Entered (q : Knows) : Prop :=
  q.held = true ∧ q.sure = false ∧ q.failed = false ∧ q.saved = false

theorem locking : Locking (watch p o c).env (Guard p o c) c (Unstarted false) (Unstarted false)
    (Unstarted false) (fun locked q =>
      (locked = true → Entered q) ∧ (locked = false → q.sure = false)) where
  openLock q hq := by
    refine ⟨trivial, fun failed q' h => ?_⟩
    obtain rfl : q' = q := h.2
    exact ⟨fun _ => hq, fun _ => hq⟩
  report q text hq := by
    refine ⟨trivial, fun _ q' h => ?_⟩
    obtain rfl : q' = q := h.2
    exact ⟨nofun, fun _ => hq.sure⟩
  talk q r hq hr := by
    have hsame : ∀ x, q.next r x = q := by
      intro x
      cases r <;> first | rfl | exact hr.elim
    exact ⟨by cases r <;> trivial, fun x q' h => h.2.trans (hsame x) ▸ hq⟩
  setlk q hq := by
    refine ⟨trivial, fun got q' h => ?_⟩
    cases got with
    | ok =>
      obtain rfl : q' = { q with held := true, sure := false } := h.2
      exact ⟨fun _ => ⟨fun _ => ⟨rfl, rfl, hq.failed, hq.saved⟩, nofun⟩, fun hne => absurd rfl hne⟩
    | busy | failed =>
      obtain rfl : q' = q := h.2
      exact ⟨nofun, fun _ => hq⟩
  setlkw q hq := by
    refine ⟨trivial, fun failed q' h => ?_⟩
    cases failed with
    | none =>
      obtain rfl : q' = { q with held := true, sure := false } := h.2
      exact ⟨fun _ => ⟨fun _ => ⟨rfl, rfl, hq.failed, hq.saved⟩, nofun⟩, fun hne => absurd rfl hne⟩
    | some reason =>
      obtain rfl : q' = q := h.2
      exact ⟨nofun, fun _ => hq⟩
  closeLock q hq := by
    refine ⟨trivial, fun _ q' h => ?_⟩
    obtain rfl : q' = { q with held := false } := h.2
    exact ⟨nofun, fun _ => hq.sure⟩

theorem finish_walks {rc : Nat} (h : rc = HM_EXIT_OK ∨ Due p o c q ∨ q.sure = false) :
    Walks p o c (finish p o rc) (Post p o c) q := by
  have hdone : Post p o c (.exit rc) q := by
    rcases h with rfl | h | h
    · exact fun _ _ _ => .inl (.inl rfl)
    · exact h.post _
    · exact unsure_post h _
  unfold finish
  split_ifs with h₁ h₂
  · exact hdone
  · exact hdone
  · refine ⟨rfl, fun (failed : Option Bytes) q' hq => ?_⟩
    cases failed with
    | none => exact fun _ _ _ => .inl (.inr rfl)
    | some reason =>
      obtain rfl : q' = { q with refused := true } := hq.2
      refine ⟨trivial, fun _ q₂ h₂ => ?_⟩
      obtain rfl : q₂ = { q with refused := true } := h₂.2
      exact fun _ _ _ => .inr rfl

theorem finishLocked_walks {rc : Nat} (locked : Bool)
    (h : rc = HM_EXIT_OK ∨ Due p o c q ∨ q.sure = false) :
    Walks p o c (finishLocked p o locked rc) (Post p o c) q := by
  cases locked with
  | false => exact finish_walks h
  | true =>
    refine ⟨trivial, fun _ q' hq => ?_⟩
    obtain rfl : q' = { q with held := false } := hq.2
    exact finish_walks h

end Walk

section Work
variable {p : Project} {o : Opts} {c : Slot} {dir : Bytes} {locked : Bool} {r : Record} {now : Int}
variable {q : Knows}

variable (p o c) in
structure Called (locked : Bool) (r : Record) (now : Int) (q : Knows) : Prop where
  unstarted : Unstarted locked q
  due : locked = true → Due p o c q
  record : r = q.record c.identity
  now : now = q.now

theorem Called.working (h : Called p o c true r now q) : Working p o c q :=
  ⟨h.unstarted.held, h.unstarted.sure, h.unstarted.failed, h.unstarted.saved, h.due rfl⟩

theorem Called.probe (h : Called p o c locked r now q) (there : Bool) :
    Called p o c locked r now (q.probe there) :=
  ⟨h.unstarted.probe there, fun hl => (h.due hl).probe there, h.record, h.now⟩

def Left (p : Project) (o : Opts) (c : Slot) (q : Knows) : Prop := Due p o c q ∨ q.sure = false

variable (p o c) in
def Ready (r : Record) (now : Int) (r' : Record) (q : Knows) : Prop :=
  Called p o c true r now q ∧ Update r now r'

theorem Ready.save {r' : Record} (h : Ready p o c r now r' q) :
    Walks p o c (saveRecord c r') (fun _ => Left p o c) q := by
  obtain ⟨hq, hr⟩ := h
  refine ⟨⟨hq.working, rfl, r', hq.record ▸ hq.now ▸ hr, rfl⟩, fun saved q' h => ?_⟩
  obtain rfl : q' = { q with saved := q.saved || saved } := h.2
  exact .inl (hq.due rfl)

theorem report_walks (verbose : Bool) (text : Bytes) :
    Walks p o c (report verbose text) (fun _ q' => q' = q) q :=
  mute_walks (report_only (G := Mute) (fun _ => trivial) verbose text)

def Tried (p : Project) (o : Opts) (c : Slot) (r : Record) (now : Int) (done : Bool)
    (q : Knows) : Prop :=
  (done = true → Called p o c true r now q) ∧ (done = false → Left p o c q)

theorem Called.ended (h : Called p o c true r now q) (done : Bool) :
    Tried p o c r now done (q.ended done) := by
  refine ⟨fun hd => ?_, fun _ => .inl (h.due rfl)⟩
  rw [hd, ended_true]
  exact h

theorem Called.tried (h : Called p o c true r now q) : Tried p o c r now false q :=
  ⟨nofun, fun _ => .inl (h.due rfl)⟩

theorem reset_walks (h : Called p o c true r now q) : Walks p o c (askReset c.workdir)
    (fun clean q' =>
      (clean = true → Called p o c true r now q') ∧
        (clean = false → Tried p o c r now false q')) q := by
  refine ⟨h.working, fun clean q' hq => ?_⟩
  obtain rfl : q' = q := hq.2
  exact ⟨fun _ => h, fun _ => h.tried⟩

theorem commandCourse (hk : p.kind = .command) (hi : o.inspects = !locked) :
    CommandCourse (watch p o c).env (Guard p o c) p o c dir r now (Called p o c locked r now)
      (Ready p o c r now) (fun _ => Left p o c) where
  due q hinspects hq := by
    refine ⟨trivial, fun _ q' h => ?_⟩
    obtain rfl : q' = q := h.2
    cases locked with
    | true => exact absurd (hinspects.symm.trans hi) (by decide)
    | false => exact .inr hq.unstarted.sure
  adopt q hacts _ hq := by
    cases locked with
    | true => exact ⟨hq, .ran⟩
    | false => exact absurd (hacts.symm.trans hi) (by decide)
  run q _ _ hq := (report_walks _ _).mono fun _ q' h => h ▸ hq
  setup q hacts _ hq := by
    cases locked with
    | false => exact absurd (hacts.symm.trans hi) (by decide)
    | true =>
      refine (commandSetup_safe _ (R := Tried p o c r now) (reset_walks hq)
        (fun _ => hq) ?_ ?_).mono fun done q' h => ⟨fun hd => ⟨h.1 hd, .ran⟩, h.2⟩
      · intro q₁ h₁
        refine ⟨h₁.working, fun written q₂ h₂ => ?_⟩
        obtain rfl : q₂ = q₁ := h₂.2
        exact ⟨fun _ => h₁, fun _ => h₁.tried⟩
      · intro q₁ h₁
        refine ⟨⟨h₁.working, hk⟩, fun done q₂ h₂ => ?_⟩
        obtain rfl : q₂ = q₁.ended done := h₂.2
        exact h₁.ended done
  save _ _ h := h.save

variable (p o c) in
def Heard (locked : Bool) (r : Record) (now : Int) (res : CheckResult) (q : Knows) : Prop :=
  Called p o c locked r now q ∧ q.mark = some res.mark ∧ (o.inspects = true → ¬ Refreshing p c q)

variable (p o c) in
def Compared (locked : Bool) (r : Record) (now : Int) (res : CheckResult) (missing : Bool)
    (q : Knows) : Prop :=
  Called p o c locked r now q ∧ (o.inspects = true → changed r res.mark missing = true)

theorem Heard.compared {res : CheckResult} {missing : Bool} {q' : Knows}
    (h : Heard p o c locked r now res q) (hprobed : Probed (true && p.binCached) q missing q')
    (hassume : (true && p.binCached) = true → o.inspects = true → ¬ Refreshing p c q') :
    Compared p o c locked r now res missing q' := by
  obtain ⟨hq, hmark, hchecked⟩ := h
  have hrefresh : ∀ there, changed r res.mark false = false →
      (p.binCached = true → (q.probe there).there = true) → Refreshing p c (q.probe there) := by
    intro there hc hthere
    obtain ⟨-, hknown, hsame⟩ := changed_eq_false.mp hc
    rw [hq.record] at hknown hsame
    exact ⟨hknown, hmark.trans (congrArg some hsame.symm), hthere⟩
  cases hprobed with
  | skipped hs =>
    refine ⟨hq, fun hi => ?_⟩
    by_contra hc
    obtain ⟨-, hknown, hsame⟩ := changed_eq_false.mp (Bool.not_eq_true _ ▸ hc)
    rw [hq.record] at hknown hsame
    refine hchecked hi ⟨hknown, hmark.trans (congrArg some hsame.symm), fun hb => ?_⟩
    simp [hb] at hs
  | found hw =>
    refine ⟨hq.probe true, fun hi => ?_⟩
    by_contra hc
    exact hassume hw hi (hrefresh true (Bool.not_eq_true _ ▸ hc) fun _ => rfl)
  | absent hw => exact ⟨hq.probe false, fun _ => by simp [changed]⟩

theorem urlCourse (hk : p.kind = .url) (hi : o.inspects = !locked) :
    UrlCourse (watch p o c).env (Guard p o c) p o c dir r now (Called p o c locked r now)
      (Heard p o c locked r now) (Compared p o c locked r now)
      (fun _ _ => Called p o c locked r now) (Ready p o c r now) (fun _ => Left p o c) where
  check q hq := by
    refine ⟨trivial, fun res q' h => ?_⟩
    cases res with
    | none =>
      obtain rfl : q' = q := h.2
      refine ⟨fun _ => ?_, nofun⟩
      cases locked with
      | true => exact .inl (hq.due rfl)
      | false => exact .inr hq.unstarted.sure
    | some res =>
      obtain ⟨hassume, rfl⟩ := h
      refine ⟨nofun, fun x hx => ?_⟩
      obtain rfl := Option.some.inj hx
      have hu := hq.unstarted
      exact ⟨⟨⟨hu.held, hu.sure, hu.failed, hu.saved⟩, hq.due, hq.record, hq.now⟩, rfl, hassume⟩
  probe q res hq :=
    (missingBin_walks hq.1.unstarted.asks true).mono fun missing q' h => hq.compared h.1 h.2
  unchanged q res missing hc hq := by
    cases locked with
    | true => exact (report_walks _ _).mono fun _ q' h => h ▸ ⟨hq.1, .checked⟩
    | false => exact absurd ((hq.2 hi).symm.trans hc) (by decide)
  tell q res missing _ hq :=
    (mute_walks (reportChange_only (G := Mute) p (fun _ => trivial) _ _ _)).mono
      fun _ q' h => h ▸ hq.1
  inspect q res missing hinspects hq := by
    cases locked with
    | true => exact absurd (hinspects.symm.trans hi) (by decide)
    | false => exact .inr hq.unstarted.sure
  adopt q res missing hacts _ hq := by
    cases locked with
    | true => exact ⟨hq, .installed res.mark⟩
    | false => exact absurd (hacts.symm.trans hi) (by decide)
  setup q res missing hacts _ hq := by
    cases locked with
    | false => exact absurd (hacts.symm.trans hi) (by decide)
    | true =>
      refine (installSetup_safe _ (R := Tried p o c r now) (reset_walks hq) ?_ ?_).mono
        fun done q' h => ⟨fun hd => ⟨h.1 hd, .installed res.mark⟩, h.2⟩
      · intro q₁ text h₁
        refine ⟨trivial, fun _ q₂ h₂ => ?_⟩
        obtain rfl : q₂ = q₁ := h₂.2
        exact ⟨fun _ => h₁, nofun⟩
      · intro q₁ hscript h₁
        refine ⟨⟨h₁.working, hk, hscript⟩, fun done q₂ h₂ => ?_⟩
        obtain rfl : q₂ = q₁.ended done := h₂.2
        exact h₁.ended done
  save _ _ h := h.save

theorem runProject_walks (hi : o.inspects = !locked) (hq : Called p o c locked r now q) :
    Walks p o c (runProject p o c r now dir) (fun _ => Left p o c) q := by
  unfold runProject
  cases hk : p.kind with
  | command => exact (commandCourse hk hi).runCommandProject hq
  | url => exact (urlCourse hk hi).runUrlProject hq

variable (p o c) in
/-- A run before its work: a look is under the lock or without it. -/
def assertions : Assertions Knows where
  entered locked q := if locked then Entered q else Unstarted false q
  unread _ q := q.sure = false
  loaded locked r q := Unstarted locked q ∧ q.absent = false ∧ r = q.record c.identity
  timed locked r now q :=
    Unstarted locked q ∧ q.absent = false ∧ r = q.record c.identity ∧ now = q.now
  resting locked r now q := Unstarted locked q ∧ r = q.record c.identity ∧ now = q.now
  called := Called p o c
  left _ _ := Left p o c
  declined r now q := Unstarted false q ∧ r = q.record c.identity ∧ now = q.now
  unable q := q.sure = false

theorem course : Course (watch p o c).env (Guard p o c) p o c dir (Post p o c)
    (assertions p o c) where
  load locked q hq := by
    apply loadRecord_walks.mono
    intro record q' h
    rcases h with ⟨rfl, rfl⟩ | ⟨content, rfl, rfl⟩
    · refine ⟨fun _ => ?_, nofun⟩
      cases locked with
      | true => exact hq.2.1
      | false => exact hq.sure
    · refine ⟨nofun, fun r hr => ?_⟩
      obtain rfl := Option.some.inj hr
      cases locked with
      | true =>
        obtain ⟨hheld, hsure, hfailed, hsaved⟩ := hq
        exact ⟨⟨hheld, hheld, hfailed, hsaved⟩, rfl, rfl⟩
      | false => exact ⟨⟨hq.held, hq.held, hq.failed, hq.saved⟩, rfl, rfl⟩
  giveUp locked q hq := by
    cases locked with
    | false => exact unsure_post hq _
    | true =>
      refine ⟨trivial, fun _ q' h => ?_⟩
      obtain rfl : q' = { q with held := false } := h.2
      exact unsure_post hq _
  time locked r q hq := by
    refine ⟨trivial, fun now q' h => ?_⟩
    obtain rfl : q' = { q with now := now } := h.2
    obtain ⟨hu, habsent, hr⟩ := hq
    exact ⟨⟨hu.held, hu.sure, hu.failed, hu.saved⟩, habsent, hr, rfl⟩
  decide locked r now q hq := by
    obtain ⟨hu, habsent, rfl, rfl⟩ := hq
    apply (isDue_walks hu.asks habsent _).mono
    intro decision q' h
    obtain ⟨hsame, hdue⟩ := h
    have hstate : Unstarted locked q' ∧ q.record c.identity = q'.record c.identity ∧
        q.now = q'.now := by
      rcases hsame with rfl | ⟨there, rfl⟩
      · exact ⟨hu, rfl, rfl⟩
      · exact ⟨hu.probe there, rfl, rfl⟩
    exact ⟨fun hd => ⟨hstate.1, fun _ => hdue.mp hd, hstate.2.1, hstate.2.2⟩, fun _ _ => hstate⟩
  skip locked r now wait q hq :=
    (mute_walks (reportSkip_only (G := Mute) p o (fun _ => trivial) wait)).mono fun _ q' h => h ▸ hq
  rest locked r now q _ _ := finishLocked_walks locked (.inl rfl)
  exec r now q _ hq := by
    refine ⟨rfl, fun failed q' h => ?_⟩
    obtain ⟨hu, hr, hn⟩ := hq
    cases failed with
    | none =>
      obtain rfl : q' = q := h.2
      exact ⟨fun _ => unsure_post hu.sure _, fun hne => absurd rfl hne⟩
    | some reason =>
      obtain rfl : q' = { q with refused := true } := h.2
      exact ⟨nofun, fun _ => ⟨⟨hu.held, hu.sure, hu.failed, hu.saved⟩, hr, hn⟩⟩
  access r now q _ hq := by
    obtain ⟨hu, hr, hn⟩ := hq
    refine ⟨hu.asks, fun there q' h => ?_⟩
    obtain rfl : q' = q.probe there := h.2
    exact ⟨fun _ => hu.sure, fun _ => ⟨hu.probe there, nofun, hr, hn⟩⟩
  cannot text q hq := by
    refine ⟨trivial, fun _ q' h => ?_⟩
    obtain rfl : q' = q := h.2
    exact unsure_post hq _
  lock r now q _ hq := by
    apply (locking.hmCacheLock hq.unstarted).mono
    exact fun locked q' h => ⟨h.1, fun hl => unsure_post (h.2 hl) _⟩
  work locked r now q hi hq := runProject_walks hi hq
  finish locked rc q hq := finishLocked_walks locked (.inr hq)

theorem act_walks (dir : Bytes) : Walks p o c (act p o c dir) (Post p o c) {} :=
  course.act ⟨rfl, rfl, rfl, rfl⟩

end Work

end Hacman.Watch
