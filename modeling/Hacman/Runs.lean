import Hacman.Outline

/-!
# The account of one run

A monitor that keeps what a run was told and what it has done: the files it loaded with
the clock readings behind them, which steps failed, the answer of the check, whether a
change was announced, a setup started and the record saved. `Ended` lists every way a
run can end, with the account it leaves.
-/

namespace Hacman.Runs
open Octets Util Cache Config Interaction Main Requests Outline

section World

inductive Fault | load | lock | check | reset | materialize | setup | save
  deriving DecidableEq, Repr

/-- `looks` pairs each clock reading with the file loaded before it. -/
structure Account where
  record : Option Bytes
  file : Option Bytes := none
  looks : List (Option Bytes × Int) := []
  held : Bool := false
  faults : List Fault := []
  observed : Option CheckResult := none
  announced : Bool := false
  emptied : Bool := false
  ran : Bool := false
  saved : Bool := false

def Account.fault (a : Account) (f : Fault) : Account := { a with faults := a.faults ++ [f] }

def Account.end (a : Account) (f : Fault) (done : Bool) : Account := if done then a else a.fault f

def announces (text : Bytes) : Bool :=
  (ascii "missing ").isPrefixOf text || (ascii "new ").isPrefixOf text ||
    (ascii "changed ").isPrefixOf text

/-- A lock file that is closed while the lock is not held was not acquired. -/
def Account.next (a : Account) (r : calls.Req) (x : calls.Ans r) : Account :=
  match r, x with
  | .read _, .ok content => { a with file := content }
  | .read _, .error _ => a.fault .load
  | .time, now => { a with looks := a.looks ++ [(a.file, now)] }
  | .openLock _, some _ => a.fault .lock
  | .setlk, .ok => { a with held := true }
  | .setlkw, none => { a with held := true }
  | .closeLock, _ => if a.held then { a with held := false } else a.fault .lock
  | .check _ _, none => a.fault .check
  | .check _ _, some res => { a with observed := some res }
  | .reset _, done => if done then { a with emptied := true } else a.fault .reset
  | .materialize _ _, done => a.end .materialize done
  | .command _ _ _ _, done => Account.end { a with ran := true } .setup done
  | .install _ _ _ _ _ _, done => Account.end { a with ran := true } .setup done
  | .save _ content, saved =>
    if saved then { a with record := some content, saved := true } else a.fault .save
  | .out text, _ => { a with announced := a.announced || announces text }
  | _, _ => a

structure Terms where
  reads : Option Bytes → Except ReadFault (Option Bytes) → Prop := fun _ _ => True
  clock : Int → Prop := fun _ => True
  probe : Bool → Prop := fun _ => True
  check : Option CheckResult → Prop := fun _ => True
  exec : Account → Option Bytes → Prop := fun _ _ => True

def Terms.permits (T : Terms) (a : Account) (r : calls.Req) (x : calls.Ans r) : Prop :=
  match r, x with
  | .read _, x => T.reads a.record x
  | .time, now => T.clock now
  | .access _, there => T.probe there
  | .check _ _, x => T.check x
  | .exec _ _, x => T.exec a x
  | _, _ => True

abbrev keeper (T : Terms) : Monitor calls where
  State := Account
  assume := T.permits
  next := Account.next

variable (T : Terms) (p : Project) (o : Opts) (c : Slot)

def Calls (look : Option Bytes × Int) : Prop :=
  o.force = true ∨ (p.binCached = true ∧ T.probe false) ∨
    scheduled p (hmCacheLoad c.identity look.1) look.2 = .due

def Rests (look : Option Bytes × Int) : Prop :=
  o.force = false ∧ ∃ wait, scheduled p (hmCacheLoad c.identity look.1) look.2 = .wait wait

/-- The program replaces a run that has rested, or has saved after work without fault. -/
def Guard (a : Account) : Call → Prop
  | .exec path _ => path = p.binPath ∧ o.checkOnly = false ∧ o.dryRun = false ∧ o.adopt = false ∧
      a.faults = [] ∧ (a.saved = true ∨ ∃ look, a.looks.getLast? = some look ∧ Rests p o c look)
  | _ => True

abbrev Walks {α : Type} (prog : P α) (R : α → Account → Prop) (a : Account) : Prop :=
  prog.Safe (keeper T).env (Guard p o c) R a

end World

section Mute
variable {T : Terms} {p : Project} {o : Opts} {c : Slot} {a : Account}

def Mute : Call → Prop
  | .access _ | .err _ | .getlk | .getppid | .parentPid _ => True
  | .out text => announces text = false
  | _ => False

theorem mute_walks {α : Type} {prog : P α} (h : prog.Only Mute) :
    Walks T p o c prog (fun _ a' => a' = a) a := by
  refine h.mute fun r hr => ?_
  cases r <;> first | exact ⟨trivial, fun _ => rfl⟩ | exact hr.elim | skip
  have htext : announces _ = false := hr
  exact ⟨trivial, fun _ => by simp [Account.next, htext]⟩

theorem announces_eq_false {text : Bytes} {b : UInt8} (h : [b] <+: text)
    (hb : b ≠ 109 ∧ b ≠ 110 ∧ b ≠ 99) : announces text = false := by
  obtain ⟨rest, rfl⟩ := h
  have hm : ascii "missing " = 109 :: ascii "issing " := by decide
  have hn : ascii "new " = 110 :: ascii "ew " := by decide
  have hc : ascii "changed " = 99 :: ascii "hanged " := by decide
  simp [announces, hm, hn, hc, List.isPrefixOf_cons_cons, Ne.symm hb.1, Ne.symm hb.2.1,
    Ne.symm hb.2.2]

theorem quiet_message {fmt : String} (b : UInt8) {rest : Bytes} (hfmt : ascii fmt = b :: rest)
    (hb : b ≠ 37 ∧ b ≠ 109 ∧ b ≠ 110 ∧ b ≠ 99) (ap : List Arg) :
    announces (message fmt ap) = false := by
  refine announces_eq_false (prefix_message hfmt (Nat.succ_le_of_lt (by decide)) ?_ ap) hb.2
  simpa using Ne.symm hb.1

theorem reportSkip_mute (wait : Int) : (reportSkip p o wait).Only Mute := by
  unfold reportSkip
  split_ifs
  · trivial
  all_goals exact ⟨quiet_message 115 rfl (by decide) _, fun _ => trivial⟩

theorem reportChange_announces (r : Record) (mark : Bytes) (missing : Bool) :
    Walks T p o c (reportChange p r mark missing)
      (fun _ a' => a' = { a with announced := true }) a := by
  have hsaid : ∀ {fmt : String} {text rest : Bytes} (ap : List Arg), ascii fmt = text ++ rest →
      text.length ≤ HM_LINE_CAP → (37 : UInt8) ∉ text →
      (text = ascii "missing " ∨ text = ascii "new " ∨ text = ascii "changed ") →
      Walks T p o c (hmOutText (message fmt ap))
        (fun _ a' => a' = { a with announced := true }) a := by
    intro fmt text rest ap hfmt hlen hc htext
    refine ⟨trivial, fun _ a' ha => ?_⟩
    obtain rfl : a' = a.next (.out (message fmt ap)) () := ha.2
    have hstart := List.isPrefixOf_iff_prefix.mpr (prefix_message hfmt hlen hc ap)
    have hsays : announces (message fmt ap) = true := by
      rcases htext with rfl | rfl | rfl <;> simp [announces, hstart]
    simp [Account.next, hsays]
  unfold reportChange
  split_ifs
  · exact @hsaid _ (ascii "missing ") _ _ rfl (by decide) (by decide) (.inl rfl)
  · exact @hsaid _ (ascii "new ") _ _ rfl (by decide) (by decide) (.inr (.inl rfl))
  · exact @hsaid _ (ascii "changed ") _ _ rfl (by decide) (by decide) (.inr (.inr rfl))

theorem report_walks (verbose : Bool) {text : Bytes} (h : announces text = false) :
    Walks T p o c (report verbose text) (fun _ a' => a' = a) a := by
  apply mute_walks
  cases verbose
  · trivial
  · exact ⟨h, fun _ => trivial⟩

end Mute

section Steps
variable {T : Terms} {p : Project} {o : Opts} {c : Slot} {a : Account}

theorem loadRecord_walks : Walks T p o c (loadRecord c) (fun record a' =>
    record = none ∧ (∃ fault, T.reads a.record (.error fault)) ∧ a' = a.fault .load ∨
      ∃ content, T.reads a.record (.ok content) ∧ record = some (hmCacheLoad c.identity content) ∧
        a' = { a with file := content }) a := by
  refine ⟨trivial, fun x a' ha => ?_⟩
  rcases x with (reason | reason) | content
  · obtain rfl : a' = a.fault .load := ha.2
    refine ⟨trivial, fun _ a'' h'' => .inl ⟨rfl, ⟨_, ha.1⟩, h''.2⟩⟩
  · obtain rfl : a' = a.fault .load := ha.2
    refine ⟨trivial, fun _ a'' h'' => .inl ⟨rfl, ⟨_, ha.1⟩, h''.2⟩⟩
  · exact .inr ⟨content, ha.1, rfl, ha.2⟩

theorem missingBin_walks (probe : Bool) : Walks T p o c (missingBin p probe) (fun missing a' =>
    a' = a ∧ (missing = true → p.binCached = true ∧ T.probe false) ∧
      (missing = false → probe = true → p.binCached = true → T.probe true)) a := by
  unfold missingBin
  split_ifs with h
  · rw [Bool.and_eq_true] at h
    refine ⟨trivial, fun (there : Bool) a' ha => ?_⟩
    obtain rfl : a' = a := ha.2
    have hprobe : T.probe there := ha.1
    cases there with
    | false => exact ⟨rfl, fun _ => ⟨h.2, hprobe⟩, nofun⟩
    | true => exact ⟨rfl, nofun, fun _ _ _ => hprobe⟩
  · rw [Bool.and_eq_true, not_and] at h
    exact ⟨rfl, nofun, fun _ hp hb => absurd hb (h hp)⟩

theorem isDue_walks (file : Option Bytes) (now : Int) (checkBin : Bool) :
    Walks T p o c (isDue p (hmCacheLoad c.identity file) now o checkBin) (fun decision a' =>
      a' = a ∧ (decision = .due → Calls T p o c (file, now)) ∧
        ∀ wait, decision = .wait wait → Rests p o c (file, now) ∧
          (checkBin = true → p.binCached = true → T.probe true)) a := by
  unfold isDue
  split_ifs with hf
  · exact ⟨rfl, fun _ => .inl hf, nofun⟩
  · apply (missingBin_walks checkBin).seq
    intro missing a' ha
    obtain ⟨rfl, hmissing, hfound⟩ := ha
    cases missing with
    | true => exact ⟨rfl, fun _ => .inr (.inl (hmissing rfl)), nofun⟩
    | false =>
      refine ⟨rfl, fun hd => .inr (.inr hd), fun wait hd => ⟨⟨?_, wait, hd⟩, hfound rfl⟩⟩
      simpa using hf

theorem locking (h : a.held = false) : Locking (keeper T).env (Guard p o c) c (· = a) (· = a)
    (· = a.fault .lock) (fun locked a' =>
      (locked = true → a' = { a with held := true }) ∧ (locked = false → a' = a.fault .lock)) where
  openLock := by
    rintro _ rfl
    refine ⟨trivial, fun failed a' ha => ?_⟩
    cases failed with
    | none => exact ⟨fun _ => ha.2, fun hne => absurd rfl hne⟩
    | some reason => exact ⟨nofun, fun _ => ha.2⟩
  report := by
    rintro _ text rfl
    exact ⟨trivial, fun _ a' ha => ⟨nofun, fun _ => ha.2⟩⟩
  talk := by
    rintro _ r rfl hr
    cases r <;> first | exact hr.elim | exact ⟨trivial, fun _ _ ha => ha.2⟩
  setlk := by
    rintro _ rfl
    refine ⟨trivial, fun got a' ha => ?_⟩
    cases got with
    | ok => exact ⟨fun _ => ⟨fun _ => ha.2, nofun⟩, fun hne => absurd rfl hne⟩
    | busy | failed => exact ⟨nofun, fun _ => ha.2⟩
  setlkw := by
    rintro _ rfl
    refine ⟨trivial, fun failed a' ha => ?_⟩
    cases failed with
    | none => exact ⟨fun _ => ⟨fun _ => ha.2, nofun⟩, fun hne => absurd rfl hne⟩
    | some reason => exact ⟨nofun, fun _ => ha.2⟩
  closeLock := by
    rintro a rfl
    refine ⟨trivial, fun _ a' ha => ⟨nofun, fun _ => ?_⟩⟩
    have hclose : a' = a.next .closeLock () := ha.2
    simp only [Account.next, h, Bool.false_eq_true, ↓reduceIte] at hclose
    exact hclose

inductive Stored (c : Slot) (r : Record) (a : Account) : Nat → Account → Prop
  | saved : Stored c r a HM_EXIT_OK
      { a with record := some (recordBytes c.identity r), saved := true }
  | lost : Stored c r a HM_EXIT_FAILED (a.fault .save)

theorem saveRecord_walks (r : Record) : Walks T p o c (saveRecord c r) (Stored c r a) a := by
  refine ⟨trivial, fun (saved : Bool) a' ha => ?_⟩
  have hnext : a' = a.next (.save c.path (recordBytes c.identity r)) saved := ha.2
  subst hnext
  cases saved with
  | true => exact .saved
  | false => exact .lost

inductive CommandSetup (a : Account) : Bool → Account → Prop
  | done {emptied : Bool} : CommandSetup a true { a with emptied := emptied, ran := true }
  | unprepared {emptied : Bool} {f : Fault} (hf : f = .reset ∨ f = .materialize) :
      CommandSetup a false ({ a with emptied := emptied }.fault f)
  | failed {emptied : Bool} :
      CommandSetup a false ({ a with emptied := emptied, ran := true }.fault .setup)

theorem commandSetup_walks (dir : Bytes) (r : Record) :
    Walks T p o c (commandSetup p o c r dir) (CommandSetup a) a := by
  apply commandSetup_safe (fun a' => ∃ emptied, a' = { a with emptied := emptied })
  · refine ⟨trivial, fun clean a' ha => ?_⟩
    cases clean with
    | true => exact ⟨fun _ => ⟨true, ha.2⟩, nofun⟩
    | false => exact ⟨nofun, fun _ => ha.2 ▸ .unprepared (.inl rfl)⟩
  · exact fun _ => ⟨a.emptied, rfl⟩
  · rintro _ ⟨emptied, rfl⟩
    refine ⟨trivial, fun written a' ha => ?_⟩
    cases written with
    | true => exact ⟨fun _ => ⟨emptied, ha.2⟩, nofun⟩
    | false => exact ⟨nofun, fun _ => ha.2 ▸ .unprepared (.inr rfl)⟩
  · rintro _ ⟨emptied, rfl⟩
    refine ⟨trivial, fun done a' ha => ?_⟩
    cases done with
    | true => exact ha.2 ▸ .done
    | false => exact ha.2 ▸ .failed

inductive InstallSetup (a : Account) : Bool → Account → Prop
  | done {ran : Bool} : InstallSetup a true { a with emptied := true, ran := ran }
  | unprepared : InstallSetup a false (a.fault .reset)
  | failed : InstallSetup a false ({ a with emptied := true, ran := true }.fault .setup)

theorem installSetup_walks (dir mark : Bytes) (res : CheckResult) :
    Walks T p o c (installSetup p o c mark res dir) (InstallSetup a) a := by
  apply installSetup_safe (fun a' => a' = { a with emptied := true })
  · refine ⟨trivial, fun clean a' ha => ?_⟩
    cases clean with
    | true => exact ⟨fun _ => ha.2, nofun⟩
    | false => exact ⟨nofun, fun _ => ha.2 ▸ .unprepared⟩
  · rintro _ text rfl
    exact ⟨trivial, fun _ a' ha => ha.2 ▸ .done⟩
  · rintro _ - rfl
    refine ⟨trivial, fun done a' ha => ?_⟩
    cases done with
    | true => exact ha.2 ▸ .done
    | false => exact ha.2 ▸ .failed

end Steps

section Work
variable (T : Terms) (p : Project) (o : Opts) (c : Slot)

def Probed (missing : Bool) : Prop :=
  (missing = true → p.binCached = true ∧ T.probe false) ∧
    (missing = false → p.binCached = true → T.probe true)

def Account.announce (a : Account) (res : CheckResult) : Account :=
  { a with observed := some res, announced := true }

/-- Every way the work of a command project can end. -/
inductive CommandWork (a : Account) (r : Record) (now : Int) : Nat → Account → Prop
  | inspected (hi : o.inspects = true) : CommandWork a r now HM_EXIT_CHANGED a
  | adopted {rc : Nat} {a' : Account} (hi : o.inspects = false) (ha : o.adopt = true)
      (hs : Stored c { r with lastCheck := now, lastChange := now } a rc a') :
      CommandWork a r now rc a'
  | ran {rc : Nat} {a₁ a' : Account} (hi : o.inspects = false) (ha : o.adopt = false)
      (hc : CommandSetup a true a₁)
      (hs : Stored c { r with lastCheck := now, lastChange := now } a₁ rc a') :
      CommandWork a r now rc a'
  | failed {a' : Account} (hi : o.inspects = false) (ha : o.adopt = false)
      (hc : CommandSetup a false a') : CommandWork a r now HM_EXIT_FAILED a'

inductive UrlWork (a : Account) (r : Record) (now : Int) : Nat → Account → Prop
  | unheard (hcheck : T.check none) : UrlWork a r now HM_EXIT_FAILED (a.fault .check)
  | unchanged {res : CheckResult} {rc : Nat} {a' : Account} (hcheck : T.check (some res))
      (hprobe : Probed T p false) (hsame : changed r res.mark false = false)
      (hs : Stored c { r with lastCheck := now } { a with observed := some res } rc a') :
      UrlWork a r now rc a'
  | inspected {res : CheckResult} {missing : Bool} (hcheck : T.check (some res))
      (hprobe : Probed T p missing) (hdiff : changed r res.mark missing = true)
      (hi : o.inspects = true) : UrlWork a r now HM_EXIT_CHANGED (a.announce res)
  | adopted {res : CheckResult} {missing : Bool} {rc : Nat} {a' : Account}
      (hcheck : T.check (some res)) (hprobe : Probed T p missing)
      (hdiff : changed r res.mark missing = true) (hi : o.inspects = false) (ha : o.adopt = true)
      (hs : Stored c (installed r now res) (a.announce res) rc a') : UrlWork a r now rc a'
  | installed {res : CheckResult} {missing : Bool} {rc : Nat} {a₁ a' : Account}
      (hcheck : T.check (some res)) (hprobe : Probed T p missing)
      (hdiff : changed r res.mark missing = true) (hi : o.inspects = false) (ha : o.adopt = false)
      (hc : InstallSetup (a.announce res) true a₁) (hs : Stored c (installed r now res) a₁ rc a') :
      UrlWork a r now rc a'
  | failed {res : CheckResult} {missing : Bool} {a' : Account} (hcheck : T.check (some res))
      (hprobe : Probed T p missing) (hdiff : changed r res.mark missing = true)
      (hi : o.inspects = false) (ha : o.adopt = false)
      (hc : InstallSetup (a.announce res) false a') : UrlWork a r now HM_EXIT_FAILED a'

def Worked (a : Account) (r : Record) (now : Int) (rc : Nat) (a' : Account) : Prop :=
  match p.kind with
  | .command => CommandWork o c a r now rc a'
  | .url => UrlWork T p o c a r now rc a'

variable {T p o c} {a : Account}

theorem commandCourse (dir : Bytes) (r : Record) (now : Int) :
    CommandCourse (keeper T).env (Guard p o c) p o c dir r now (· = a)
      (fun r' a₁ => ∀ rc a', Stored c r' a₁ rc a' → CommandWork o c a r now rc a')
      (CommandWork o c a r now) where
  due := by
    rintro _ hi rfl
    have hmute : (hmOutText (message "due      %S\n" [.slice p.name])).Only Mute :=
      ⟨quiet_message 100 rfl (by decide) _, fun _ => trivial⟩
    exact (mute_walks hmute).mono fun _ a' ha => ha ▸ .inspected hi
  adopt := by
    rintro _ hi ha rfl rc a' hs
    exact .adopted hi ha hs
  run := by
    rintro _ - - rfl
    exact report_walks o.verbose (quiet_message 114 rfl (by decide) _)
  setup := by
    rintro _ hi ha rfl
    apply (commandSetup_walks dir r).mono
    intro done a₁ hc
    cases done with
    | true => exact ⟨fun _ rc a' hs => .ran hi ha hc hs, nofun⟩
    | false => exact ⟨nofun, fun _ => .failed hi ha hc⟩
  save _ r' h := (saveRecord_walks r').mono h

theorem urlCourse (dir : Bytes) (r : Record) (now : Int) :
    UrlCourse (keeper T).env (Guard p o c) p o c dir r now (· = a)
      (fun res a₁ => T.check (some res) ∧ a₁ = { a with observed := some res })
      (fun res missing a₁ => T.check (some res) ∧ Probed T p missing ∧
        a₁ = { a with observed := some res })
      (fun res missing a₁ => (T.check (some res) ∧ Probed T p missing ∧
        changed r res.mark missing = true) ∧ a₁ = a.announce res)
      (fun r' a₁ => ∀ rc a', Stored c r' a₁ rc a' → UrlWork T p o c a r now rc a')
      (UrlWork T p o c a r now) where
  check := by
    rintro _ rfl
    refine ⟨trivial, fun res a' ha => ?_⟩
    cases res with
    | none => exact ⟨fun _ => ha.2 ▸ .unheard ha.1, nofun⟩
    | some res =>
      refine ⟨nofun, fun x hx => ?_⟩
      obtain rfl := Option.some.inj hx
      exact ha
  probe := by
    rintro _ res ⟨hcheck, rfl⟩
    apply (missingBin_walks true).mono
    rintro missing a' ⟨rfl, hmissing, hfound⟩
    exact ⟨hcheck, ⟨hmissing, fun hm hb => hfound hm rfl hb⟩, rfl⟩
  unchanged := by
    rintro _ res missing hc ⟨hcheck, hprobe, rfl⟩
    obtain ⟨rfl, -⟩ := changed_eq_false.mp hc
    apply (report_walks o.verbose (quiet_message 111 rfl (by decide) _)).mono
    rintro _ _ rfl rc a' hs
    exact .unchanged hcheck hprobe hc hs
  tell := by
    rintro _ res missing hc ⟨hcheck, hprobe, rfl⟩
    exact (reportChange_announces r res.mark missing).mono fun _ a' ha =>
      ⟨⟨hcheck, hprobe, hc⟩, ha⟩
  inspect := by
    rintro _ res missing hi ⟨⟨hcheck, hprobe, hc⟩, rfl⟩
    exact .inspected hcheck hprobe hc hi
  adopt := by
    rintro _ res missing hi ha ⟨⟨hcheck, hprobe, hc⟩, rfl⟩ rc a' hs
    exact .adopted hcheck hprobe hc hi ha hs
  setup := by
    rintro _ res missing hi ha ⟨⟨hcheck, hprobe, hc⟩, rfl⟩
    apply (installSetup_walks dir r.mark res).mono
    intro done a₁ hsetup
    cases done with
    | true => exact ⟨fun _ rc a' hs => .installed hcheck hprobe hc hi ha hsetup hs, nofun⟩
    | false => exact ⟨nofun, fun _ => .failed hcheck hprobe hc hi ha hsetup⟩
  save _ r' h := (saveRecord_walks r').mono h

theorem runProject_walks (dir : Bytes) (r : Record) (now : Int) :
    Walks T p o c (runProject p o c r now dir) (Worked T p o c a r now) a := by
  unfold runProject Worked
  cases p.kind with
  | command => exact (commandCourse dir r now).runCommandProject rfl
  | url => exact (urlCourse dir r now).runUrlProject rfl

end Work

section Runs
variable (T : Terms) (p : Project) (o : Opts) (c : Slot) (record : Option Bytes)

abbrev looking (file : Option Bytes) (looks : List (Option Bytes × Int)) (held : Bool) : Account :=
  { record := record, file := file, looks := looks, held := held }

def Seen (looks : List (Option Bytes × Int)) : Prop :=
  ∀ look ∈ looks, T.reads record (.ok look.1) ∧ T.clock look.2

def Left (rc : Nat) (out : Outcome) : Prop :=
  out = .exit rc ∨ rc = HM_EXIT_OK ∧
    (o.checkOnly = false ∧ o.dryRun = false ∧ o.adopt = false) ∧ (out = .replaced ∨ out = .exit 127)

/-- Every way a run can end: stopped before the work, rested on a look that found
nothing to do, or past the work of the project. -/
inductive Ended : Outcome → Account → Prop
  | stopped {file : Option Bytes} {looks : List (Option Bytes × Int)} {f : Fault} {code : Nat}
      (hf : f = .lock ∧ o.inspects = false ∨ f = .load ∧ ∃ fault, T.reads record (.error fault))
      (hcode : code = HM_EXIT_USAGE ∨ code = HM_EXIT_FAILED) :
      Ended (.exit code) ((looking record file looks false).fault f)
  | rested {file : Option Bytes} {looks : List (Option Bytes × Int)} {now : Int} {out : Outcome}
      (hlast : looks.getLast? = some (file, now)) (hlooks : Seen T record looks)
      (hrest : Rests p o c (file, now)) (hout : Left o HM_EXIT_OK out)
      (hfound : p.binCached = true → T.probe true ∨ out = .replaced ∧
        T.exec (looking record file looks false) none) :
      Ended out (looking record file looks false)
  | worked {file : Option Bytes} {looks : List (Option Bytes × Int)} {now : Int} {out : Outcome}
      {rc : Nat} {held held' : Bool} {a : Account}
      (hlast : looks.getLast? = some (file, now)) (hlooks : Seen T record looks)
      (hcalls : ∀ look ∈ looks, Calls T p o c look)
      (hwork : Worked T p o c (looking record file looks held)
        (hmCacheLoad c.identity file) now rc a)
      (hout : Left o rc out) : Ended out { a with held := held' }

variable {T p o c record} {a : Account}

inductive Closed (o : Opts) (record : Option Bytes) : Nat → Account → Prop
  | recorded {a : Account} (hfaults : a.faults = []) (hsaved : a.saved = true) :
      Closed o record HM_EXIT_OK a
  | reported {a : Account} (hi : o.inspects = true) (hfaults : a.faults = [])
      (hrecord : a.record = record) : Closed o record HM_EXIT_CHANGED a
  | failed {a : Account} (hfaults : a.faults ≠ []) (hrecord : a.record = record) :
      Closed o record HM_EXIT_FAILED a

theorem Closed.fault {a : Account} (f : Fault) : Closed o a.record HM_EXIT_FAILED (a.fault f) :=
  .failed (by simp [Account.fault]) rfl

theorem Stored.closed {r : Record} {rc : Nat} {a' : Account} (h : Stored c r a rc a')
    (ha : a.faults = []) : Closed o a.record rc a' := by
  cases h with
  | saved => exact .recorded ha rfl
  | lost => exact .fault .save

theorem Worked.closed {r : Record} {now : Int} {rc : Nat} {a' : Account}
    (h : Worked T p o c a r now rc a') (ha : a.faults = []) : Closed o a.record rc a' := by
  unfold Worked at h
  cases hk : p.kind with
  | command =>
    rw [hk] at h
    cases h with
    | inspected hi => exact .reported hi ha rfl
    | adopted _ _ hs => exact hs.closed ha
    | ran _ _ hc hs =>
      cases hc
      exact hs.closed ha
    | failed _ _ hc =>
      cases hc with
      | unprepared => exact .failed (by simp [Account.fault]) rfl
      | failed => exact .failed (by simp [Account.fault]) rfl
  | url =>
    rw [hk] at h
    cases h with
    | unheard => exact .fault .check
    | unchanged _ _ _ hs => exact hs.closed ha
    | inspected _ _ _ hi => exact .reported hi ha rfl
    | adopted _ _ _ _ _ hs => exact hs.closed ha
    | installed _ _ _ _ _ hc hs =>
      cases hc
      exact hs.closed ha
    | failed _ _ _ _ _ hc =>
      cases hc with
      | unprepared => exact .failed (by simp [Account.fault]) rfl
      | failed => exact .failed (by simp [Account.fault]) rfl

theorem Stored.kept {r : Record} {rc : Nat} {a' : Account} (h : Stored c r a rc a')
    (hsaved : a.saved = false) :
    a'.saved = true ∧ a'.record = some (recordBytes c.identity r) ∨
      a'.saved = false ∧ a'.record = a.record := by
  cases h with
  | saved => exact .inl ⟨rfl, rfl⟩
  | lost => exact .inr ⟨hsaved, rfl⟩

theorem Stored.frame {r : Record} {rc : Nat} {a' : Account} (h : Stored c r a rc a') :
    a'.held = a.held ∧ a'.looks = a.looks := by
  cases h <;> exact ⟨rfl, rfl⟩

theorem CommandSetup.frame {done : Bool} {a' : Account} (h : CommandSetup a done a') :
    a'.held = a.held ∧ a'.looks = a.looks := by
  cases h <;> exact ⟨rfl, rfl⟩

theorem InstallSetup.frame {done : Bool} {a' : Account} (h : InstallSetup a done a') :
    a'.held = a.held ∧ a'.looks = a.looks := by
  cases h <;> exact ⟨rfl, rfl⟩

theorem Worked.frame {r : Record} {now : Int} {rc : Nat} {a' : Account}
    (h : Worked T p o c a r now rc a') : a'.held = a.held ∧ a'.looks = a.looks := by
  unfold Worked at h
  cases hk : p.kind with
  | command =>
    rw [hk] at h
    cases h with
    | inspected => exact ⟨rfl, rfl⟩
    | adopted _ _ hs => exact hs.frame
    | ran _ _ hc hs => exact ⟨hs.frame.1.trans hc.frame.1, hs.frame.2.trans hc.frame.2⟩
    | failed _ _ hc => exact hc.frame
  | url =>
    rw [hk] at h
    cases h with
    | unheard => exact ⟨rfl, rfl⟩
    | unchanged _ _ _ hs => exact hs.frame
    | inspected => exact ⟨rfl, rfl⟩
    | adopted _ _ _ _ _ hs => exact hs.frame
    | installed _ _ _ _ _ hc hs => exact ⟨hs.frame.1.trans hc.frame.1, hs.frame.2.trans hc.frame.2⟩
    | failed _ _ _ _ _ hc => exact hc.frame

theorem finish_walks {rc : Nat} (h : rc = HM_EXIT_OK → a.faults = [] ∧
      (a.saved = true ∨ ∃ look, a.looks.getLast? = some look ∧ Rests p o c look)) :
    Walks T p o c (finish p o rc) (fun out a' => a' = a ∧ Left o rc out) a := by
  unfold finish
  split_ifs with h₁ h₂
  · exact ⟨rfl, .inl rfl⟩
  · exact ⟨rfl, .inl rfl⟩
  · obtain rfl : rc = HM_EXIT_OK := not_not.mp (not_or.mp h₁).1
    simp only [Bool.or_eq_true, not_or, Bool.not_eq_true] at h₂
    have hacts : o.checkOnly = false ∧ o.dryRun = false ∧ o.adopt = false :=
      ⟨h₂.1.1.2, h₂.1.2, h₂.2⟩
    obtain ⟨hfaults, hwhy⟩ := h rfl
    refine ⟨⟨rfl, hacts.1, hacts.2.1, hacts.2.2, hfaults, hwhy⟩,
      fun (failed : Option Bytes) a' ha => ?_⟩
    obtain rfl : a' = a := by
      have hnext : a' = a.next (.exec p.binPath (p.binPath :: o.progArgs)) failed := ha.2
      cases failed <;> exact hnext
    cases failed with
    | none => exact ⟨rfl, .inr ⟨rfl, hacts, .inl rfl⟩⟩
    | some reason =>
      refine ⟨trivial, fun _ a₂ h₂ => ?_⟩
      obtain rfl : a₂ = a' := h₂.2
      exact ⟨rfl, .inr ⟨rfl, hacts, .inr rfl⟩⟩

theorem finishLocked_walks {rc : Nat} {locked : Bool} (hlocked : a.held = locked)
    (h : rc = HM_EXIT_OK → a.faults = [] ∧
      (a.saved = true ∨ ∃ look, a.looks.getLast? = some look ∧ Rests p o c look)) :
    Walks T p o c (finishLocked p o locked rc)
      (fun out a' => a' = { a with held := false } ∧ Left o rc out) a := by
  cases locked with
  | false =>
    have hsame : { a with held := false } = a := by rw [← hlocked]
    rw [hsame]
    exact finish_walks h
  | true =>
    refine ⟨trivial, fun _ a' ha => ?_⟩
    have hnext : a' = if a.held then { a with held := false } else a.fault .lock := ha.2
    rw [hlocked, if_pos rfl] at hnext
    subst hnext
    exact finish_walks h

theorem Seen.look {looks : List (Option Bytes × Int)} {file : Option Bytes} {now : Int}
    (h : Seen T record looks) (hread : T.reads record (.ok file)) (hnow : T.clock now) :
    Seen T record (looks ++ [(file, now)]) := by
  intro look hl
  rcases List.mem_append.mp hl with hl | hl
  · exact h look hl
  · obtain rfl := List.mem_singleton.mp hl
    exact ⟨hread, hnow⟩

variable (T p o c record) in
def Looked (locked : Bool) (file : Option Bytes) (now : Int) (a : Account) : Prop :=
  ∃ looks, a = looking record file looks locked ∧ looks.getLast? = some (file, now) ∧
    Seen T record looks ∧ ∀ look ∈ looks.dropLast, Calls T p o c look

theorem calls_all {file : Option Bytes} {now : Int}
    {looks : List (Option Bytes × Int)} (hlast : looks.getLast? = some (file, now))
    (h : ∀ look ∈ looks.dropLast, Calls T p o c look) (hcalls : Calls T p o c (file, now)) :
    ∀ look ∈ looks, Calls T p o c look := by
  obtain ⟨before, rfl⟩ := List.getLast?_eq_some_iff.mp hlast
  intro look hl
  rcases List.mem_append.mp hl with hl | hl
  · exact h look (by simpa using hl)
  · obtain rfl := List.mem_singleton.mp hl
    exact hcalls

variable (T p o c record) in
def assertions : Assertions Account where
  entered locked a := ∃ file looks, a = looking record file looks locked ∧
    Seen T record looks ∧ ∀ look ∈ looks, Calls T p o c look
  unread locked a := ∃ file looks, a = (looking record file looks locked).fault .load ∧
    ∃ fault, T.reads record (.error fault)
  loaded locked r a := ∃ file looks, a = looking record file looks locked ∧
    Seen T record looks ∧ (∀ look ∈ looks, Calls T p o c look) ∧ T.reads record (.ok file) ∧
      r = hmCacheLoad c.identity file
  timed locked r now a := ∃ file, Looked T p o c record locked file now a ∧
    r = hmCacheLoad c.identity file
  resting locked r now a := ∃ file, Looked T p o c record locked file now a ∧
    r = hmCacheLoad c.identity file ∧ Rests p o c (file, now) ∧
      (locked = true ∨ execCheck p o = false → p.binCached = true → T.probe true)
  called locked r now a := ∃ file, Looked T p o c record locked file now a ∧
    r = hmCacheLoad c.identity file ∧ Calls T p o c (file, now)
  left locked rc a' := ∃ file now a, Looked T p o c record locked file now a ∧
    Calls T p o c (file, now) ∧ Worked T p o c a (hmCacheLoad c.identity file) now rc a'
  declined r now a := ∃ file, Looked T p o c record false file now a ∧
    r = hmCacheLoad c.identity file ∧ Rests p o c (file, now)
  unable a := ∃ file now, Looked T p o c record false file now a ∧ Rests p o c (file, now) ∧
    T.probe true ∧ o.checkOnly = false ∧ o.dryRun = false ∧ o.adopt = false

theorem execCheck_acts (h : execCheck p o = true) : p.binCached = true ∧ o.checkOnly = false ∧
    o.dryRun = false ∧ o.adopt = false := by
  simp only [execCheck, Bool.and_eq_true, Bool.not_eq_true'] at h
  exact ⟨h.1.1.1.1, h.1.1.2, h.1.2, h.2⟩

theorem course (dir : Bytes) : Course (keeper T).env (Guard p o c) p o c dir
    (Ended T p o c record) (assertions T p o c record) where
  load := by
    rintro locked _ ⟨file, looks, rfl, hseen, hcalls⟩
    apply loadRecord_walks.mono
    rintro loaded a₁ (⟨rfl, hfault, rfl⟩ | ⟨content, hread, rfl, rfl⟩)
    · exact ⟨fun _ => ⟨file, looks, rfl, hfault⟩, nofun⟩
    · refine ⟨nofun, fun r hr => ?_⟩
      exact ⟨content, looks, rfl, hseen, hcalls, hread, (Option.some.inj hr).symm⟩
  giveUp := by
    rintro locked _ ⟨file, looks, rfl, hfault⟩
    cases locked with
    | false => exact .stopped (.inr ⟨rfl, hfault⟩) (.inl rfl)
    | true =>
      refine ⟨trivial, fun _ a' ha => ?_⟩
      obtain rfl : a' = (looking record file looks false).fault .load := ha.2
      exact .stopped (.inr ⟨rfl, hfault⟩) (.inl rfl)
  time := by
    rintro locked r _ ⟨file, looks, rfl, hseen, hcalls, hread, hr⟩
    refine ⟨trivial, fun now a' ha => ?_⟩
    have hclock : T.clock now := ha.1
    obtain rfl : a' = looking record file (looks ++ [(file, now)]) locked := ha.2
    exact ⟨file, ⟨_, rfl, by simp, hseen.look hread hclock, by simpa using hcalls⟩, hr⟩
  decide := by
    rintro locked r now a ⟨file, hlooked, rfl⟩
    apply (isDue_walks file now _).mono
    rintro decision a' ⟨rfl, hdue, hwait⟩
    refine ⟨fun hd => ⟨file, hlooked, rfl, hdue hd⟩, fun wait hd => ?_⟩
    obtain ⟨hrest, hfound⟩ := hwait wait hd
    refine ⟨file, hlooked, rfl, hrest, fun hwhy hb => hfound ?_ hb⟩
    rcases hwhy with rfl | hwhy
    · rfl
    · rw [hwhy, Bool.not_false, Bool.or_true]
  skip _ _ _ wait _ h := (mute_walks (reportSkip_mute wait)).mono fun _ _ ha => ha ▸ h
  rest := by
    rintro locked r now _ hwhy ⟨file, ⟨looks, rfl, hlast, hseen, -⟩, rfl, hrest, hfound⟩
    have hend : Walks T p o c (finishLocked p o locked HM_EXIT_OK) _
        (looking record file looks locked) :=
      finishLocked_walks rfl fun _ => ⟨rfl, .inr ⟨_, hlast, hrest⟩⟩
    apply hend.mono
    rintro out a' ⟨rfl, hout⟩
    exact .rested hlast hseen hrest hout fun hb => .inl (hfound hwhy hb)
  exec := by
    rintro r now _ hb ⟨file, ⟨looks, rfl, hlast, hseen, hbefore⟩, rfl, hrest, -⟩
    obtain ⟨-, hacts⟩ := execCheck_acts hb
    refine ⟨⟨rfl, hacts.1, hacts.2.1, hacts.2.2, rfl, .inr ⟨_, hlast, hrest⟩⟩,
      fun failed a' ha => ?_⟩
    have hexec : T.exec (looking record file looks false) failed := ha.1
    obtain rfl : a' = looking record file looks false := by
      cases failed <;> exact ha.2
    refine ⟨?_, fun _ => ⟨file, ⟨looks, rfl, hlast, hseen, hbefore⟩, rfl, hrest⟩⟩
    rintro rfl
    exact .rested hlast hseen hrest (.inr ⟨rfl, hacts, .inl rfl⟩) fun _ => .inr ⟨rfl, hexec⟩
  access := by
    rintro r now a hb ⟨file, hlooked, rfl, hrest⟩
    obtain ⟨hcached, hacts⟩ := execCheck_acts hb
    refine ⟨trivial, fun there a' ha => ?_⟩
    have hprobe : T.probe there := ha.1
    obtain rfl : a' = a := ha.2
    refine ⟨fun ht => ⟨file, now, hlooked, hrest, ht ▸ hprobe, hacts⟩, fun ht => ?_⟩
    exact ⟨file, hlooked, rfl, .inr (.inl ⟨hcached, ht ▸ hprobe⟩)⟩
  cannot := by
    rintro text _ ⟨file, now, ⟨looks, rfl, hlast, hseen, -⟩, hrest, hprobe, hacts⟩
    refine ⟨trivial, fun _ a' ha => ?_⟩
    obtain rfl : a' = looking record file looks false := ha.2
    exact .rested hlast hseen hrest (.inr ⟨rfl, hacts, .inr rfl⟩) fun _ => .inl hprobe
  lock := by
    rintro r now _ hi ⟨file, ⟨looks, rfl, hlast, hseen, hbefore⟩, rfl, hcalls⟩
    apply ((locking rfl).hmCacheLock rfl).mono
    intro locked a' ha
    refine ⟨fun hl => ⟨file, looks, ha.1 hl, hseen, calls_all hlast hbefore hcalls⟩, fun hl => ?_⟩
    rw [ha.2 hl]
    exact .stopped (.inl ⟨rfl, hi⟩) (.inr rfl)
  work := by
    rintro locked r now a - ⟨file, hlooked, rfl, hcalls⟩
    exact (runProject_walks dir _ now).mono fun rc a' hw => ⟨file, now, a, hlooked, hcalls, hw⟩
  finish := by
    rintro locked rc a' ⟨file, now, _, ⟨looks, rfl, hlast, hseen, hbefore⟩, hcalls, hw⟩
    apply (finishLocked_walks hw.frame.1 fun hrc => ?_).mono
    · rintro out a₂ ⟨rfl, hout⟩
      exact .worked hlast hseen (calls_all hlast hbefore hcalls) hw hout
    · subst hrc
      cases hw.closed rfl with
      | recorded hfaults hsaved => exact ⟨hfaults, .inl hsaved⟩

/-- Whatever a run is told, it execs only after a rest or a save without fault, and it
ends in one of the listed ways. -/
theorem act_walks (dir : Bytes) :
    Walks T p o c (act p o c dir) (Ended T p o c record) { record := record } :=
  (course dir).act ⟨none, [], rfl, nofun, nofun⟩

end Runs

end Hacman.Runs
