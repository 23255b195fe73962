import Hacman.Signals

/-!
# Whom hacman signals

The statements of `hm_install` and `hm_command_run` from `forward_signals_begin` to the last
`forward_signals_end`, with any number of termination signals arriving between any two of
them. The handler trusts `setup_child`, which is cleared by another statement than the one
that reaps the child.
-/

namespace Hacman.Reaping
open Machine Signals

section Model

abbrev Pid := Nat

inductive Sig | hup | int | quit | term
  deriving DecidableEq, Repr

def forwardedSignals : List Sig := [.hup, .int, .quit, .term]

/-- What becomes of the child; the pid of one that is gone may be given away. -/
inductive Child
  | unborn
  | running (pid : Pid)
  | zombie (pid : Pid)
  | gone (pid : Pid)
  deriving DecidableEq, Repr

def Child.pid : Child → Option Pid
  | .unborn => none
  | .running pid | .zombie pid | .gone pid => some pid

def Child.unreaped : Child → Option Pid
  | .running pid | .zombie pid => some pid
  | .unborn | .gone _ => none

structure Vars where
  setupChild : Option Pid := none
  setupSignal : Option Sig := none
  deriving DecidableEq, Repr

/-- The handler, and whom it sends the signal to. -/
def forwardSignal (m : Vars) (sig : Sig) (code : SiCode) : Vars × Option Pid :=
  ({ m with setupSignal := some sig }, if code = .user || code = .queue then m.setupChild else none)

/-- What hacman does next. `install` and `restore` go through the signals; `waitpid` covers
the relaying of setup's output, and `waited` what happens behind it. -/
inductive At
  | clearChild
  | clearSignal
  | install (rest : List Sig)
  | fork
  | recordChild (pid : Pid)
  | passOn (pid : Pid)
  | waitpid (pid : Pid)
  | waited
  | restore (rest : List Sig)
  | done
  | killed
  deriving DecidableEq, Repr

structure Kill where
  pid : Pid
  sig : Sig
  child : Child
  deriving DecidableEq, Repr

/-- What hacman has inherited: the signals that are ignored, and whether the kernel
discards children because `SIGCHLD` is. -/
structure Inherited where
  ignored : List Sig := []
  discards : Bool := false
  deriving DecidableEq, Repr

/-- `forwarding` holds the signals with the handler, `copy` the variables of the child until
its `exec`. -/
structure State where
  here : At
  vars : Vars := {}
  forwarding : List Sig := []
  child : Child := .unborn
  copy : Option Vars := none
  kills : List Kill := []
  deriving DecidableEq, Repr

def start : State := { here := .clearChild }

/-- The next statement, with its calls successful or not; the fork; a signal to hacman or to
the child; the child's `exec` and end. -/
inductive Event
  | next
  | fails
  | forked (pid : Pid)
  | signal (sig : Sig) (code : SiCode)
  | childSignal (sig : Sig) (code : SiCode)
  | exec
  | exit
  deriving DecidableEq, Repr

def State.goto (s : State) (here : At) : State := { s with here := here }

def State.kill (s : State) (pid : Pid) (sig : Sig) (child : Child) : State :=
  { s with kills := s.kills ++ [⟨pid, sig, child⟩] }

variable (i : Inherited)

def State.next (s : State) : Option State :=
  match s.here with
  | .clearChild => some { s with here := .clearSignal, vars := { s.vars with setupChild := none } }
  | .clearSignal =>
    some { s with here := .install forwardedSignals, vars := { s.vars with setupSignal := none } }
  | .install [] => some (s.goto .fork)
  | .install (sig :: rest) =>
    some { s with
      here := .install rest
      forwarding := if sig ∈ i.ignored then s.forwarding else sig :: s.forwarding }
  | .fork => none
  | .recordChild pid =>
    some { s with here := .passOn pid, vars := { s.vars with setupChild := some pid } }
  | .passOn pid =>
    some (match s.vars.setupSignal with
      | some sig => (s.kill pid sig s.child).goto (.waitpid pid)
      | none => s.goto (.waitpid pid))
  | .waitpid pid =>
    if s.child = .zombie pid then some { s with here := .waited, child := .gone pid } else none
  | .waited =>
    some { s with here := .restore forwardedSignals, vars := { s.vars with setupChild := none } }
  | .restore [] => some (s.goto .done)
  | .restore (sig :: rest) =>
    some { s with here := .restore rest, forwarding := s.forwarding.filter (· ≠ sig) }
  | .done | .killed => none

/-- A handler that cannot be installed, a `fork` or a `waitpid` that fails. -/
def State.fails (s : State) : Option State :=
  match s.here with
  | .install (_ :: rest) => some (s.goto (.install rest))
  | .fork => some (s.goto .waited)
  | .waitpid _ => some (s.goto .waited)
  | _ => none

def State.signal (s : State) (sig : Sig) (code : SiCode) : State :=
  if sig ∈ s.forwarding then
    let (vars, target) := forwardSignal s.vars sig code
    let s' := { s with vars := vars }
    match target with
    | some pid => s'.kill pid sig s.child
    | none => s'
  else if sig ∈ i.ignored then s
  else s.goto .killed

/-- The child's copy of the handler; the child itself has forked nothing. -/
def State.childSignal (s : State) (sig : Sig) (code : SiCode) : Option State :=
  s.copy.map fun m =>
    let (vars, target) := forwardSignal m sig code
    let s' := { s with copy := some vars }
    match target with
    | some pid => s'.kill pid sig .unborn
    | none => s'

def step : State → Event → Option State
  | s, .next => s.next i
  | s, .fails => s.fails
  | s, .forked pid =>
    if s.here = .fork then
      some { s with here := .recordChild pid, child := .running pid, copy := some s.vars }
    else none
  | s, .signal sig code =>
    if s.here = .done || s.here = .killed then none else some (s.signal i sig code)
  | s, .childSignal sig code => s.childSignal sig code
  | s, .exec => some { s with copy := none }
  | s, .exit =>
    match s.child with
    | .running pid =>
      some { s with copy := none, child := if i.discards then .gone pid else .zombie pid }
    | _ => none

end Model

section Live

def AllLive (s : State) : Prop := ∀ kill ∈ s.kills, kill.child.unreaped = some kill.pid

instance (s : State) : Decidable (AllLive s) :=
  inferInstanceAs (Decidable (∀ kill ∈ s.kills, kill.child.unreaped = some kill.pid))

/-- The handler does not relay, and `forward_signals_to` does not catch up, while
`setup_child` or its argument stands for a child that is gone. -/
def stillThere (s : State) : Event → Bool
  | .signal sig code =>
    !(sig ∈ s.forwarding && (code = .user || code = .queue) && s.vars.setupChild.isSome &&
      s.child.unreaped.isNone)
  | .next =>
    match s.here with
    | .passOn _ => !(s.vars.setupSignal.isSome && s.child.unreaped.isNone)
    | _ => true
  | _ => true

/-- `setup_child` and the local `pid` name the child, and nothing is named before the fork. -/
structure Inv (s : State) : Prop where
  named : ∀ pid, s.vars.setupChild = some pid → s.child.pid = some pid
  argument : ∀ pid, s.here = .recordChild pid ∨ s.here = .passOn pid ∨ s.here = .waitpid pid →
    s.child.pid = some pid
  unnamed : s.here = .clearChild ∨ s.here = .clearSignal ∨ (∃ rest, s.here = .install rest) ∨
    s.here = .fork → s.vars.setupChild = none
  copied : ∀ m, s.copy = some m → m.setupChild = none

theorem start_inv : Inv start := by
  constructor <;> simp [start]

variable {i : Inherited} {s s' : State}

@[simp] theorem goto_kills (here : At) : (s.goto here).kills = s.kills := rfl

@[simp] theorem kill_kills (pid : Pid) (sig : Sig) (child : Child) :
    (s.kill pid sig child).kills = s.kills ++ [⟨pid, sig, child⟩] := rfl

theorem next_inv (h : Inv s) (hs : s.next i = some s') : Inv s' := by
  obtain ⟨hnamed, hargument, hunnamed, hcopied⟩ := h
  unfold State.next at hs
  constructor <;> grind [State.goto, State.kill, Child.pid]

theorem fails_inv (h : Inv s) (hs : s.fails = some s') : Inv s' := by
  obtain ⟨hnamed, hargument, hunnamed, hcopied⟩ := h
  unfold State.fails at hs
  constructor <;> grind [State.goto]

theorem signal_inv (h : Inv s) (sig : Sig) (code : SiCode) : Inv (s.signal i sig code) := by
  obtain ⟨hnamed, hargument, hunnamed, hcopied⟩ := h
  unfold State.signal
  constructor <;> grind [State.goto, State.kill, forwardSignal]

theorem childSignal_inv {sig : Sig} {code : SiCode} (h : Inv s)
    (hs : s.childSignal sig code = some s') : Inv s' := by
  obtain ⟨hnamed, hargument, hunnamed, hcopied⟩ := h
  obtain ⟨m, hm, rfl⟩ := Option.map_eq_some_iff.mp hs
  have hnone := hcopied m hm
  constructor <;> grind [State.kill, forwardSignal]

theorem step_inv {e : Event} (h : Inv s) (hs : step i s e = some s') : Inv s' := by
  cases e with
  | next => exact next_inv h hs
  | fails => exact fails_inv h hs
  | signal sig code =>
    simp only [step, Option.ite_none_left_eq_some, Option.some.injEq] at hs
    exact hs.2 ▸ signal_inv h sig code
  | childSignal sig code => exact childSignal_inv h hs
  | forked pid =>
    simp only [step, Option.ite_none_right_eq_some, Option.some.injEq] at hs
    obtain ⟨hfork, rfl⟩ := hs
    have hnone := h.unnamed (.inr (.inr (.inr hfork)))
    constructor <;> simp [hnone, Child.pid]
  | exec =>
    simp only [step, Option.some.injEq] at hs
    subst hs
    exact ⟨h.named, h.argument, h.unnamed, nofun⟩
  | exit =>
    simp only [step] at hs
    cases hchild : s.child with
    | running pid =>
      rw [hchild] at hs
      obtain rfl := Option.some.inj hs
      have hpid : (if i.discards then Child.gone pid else .zombie pid).pid = s.child.pid := by
        rw [hchild]
        split_ifs <;> rfl
      exact ⟨fun p hp => hpid.trans (h.named p hp), fun p hp => hpid.trans (h.argument p hp),
        h.unnamed, nofun⟩
    | unborn | zombie pid | gone pid =>
      rw [hchild] at hs
      cases hs

theorem allLive_kill (s : State) (pid : Pid) (sig : Sig) (child : Child) :
    AllLive (s.kill pid sig child) ↔ AllLive s ∧ child.unreaped = some pid := by
  simp [AllLive, or_imp, forall_and]

theorem unreaped_iff {child : Child} {pid : Pid} (h : child.pid = some pid) :
    child.unreaped = some pid ↔ child.unreaped.isNone = false := by
  cases child <;> simp_all [Child.pid, Child.unreaped]

theorem signal_live (h : Inv s) (sig : Sig) (code : SiCode) :
    AllLive (s.signal i sig code) ↔ AllLive s ∧ stillThere s (.signal sig code) = true := by
  unfold State.signal stillThere
  by_cases hsig : sig ∈ s.forwarding
  · rw [if_pos hsig]
    cases hcode : decide (code = .user) || decide (code = .queue) with
    | false =>
      have hquiet : (forwardSignal s.vars sig code).2 = none := by
        rw [forwardSignal, hcode, if_neg Bool.false_ne_true]
      simp only [hquiet, hcode]
      simp [AllLive]
    | true =>
      have hrelay : (forwardSignal s.vars sig code).2 = s.vars.setupChild := by
        rw [forwardSignal, hcode, if_pos rfl]
      cases htarget : s.vars.setupChild with
      | none => simp [hrelay, htarget, AllLive]
      | some pid =>
        have hpid : s.child.pid = some pid := h.named pid htarget
        have hkill := allLive_kill { s with vars := (forwardSignal s.vars sig code).1 }
          pid sig s.child
        simp only [hrelay, htarget, hkill, unreaped_iff hpid, hsig, hcode]
        simp [AllLive]
  · rw [if_neg hsig]
    split_ifs <;> simp [hsig, AllLive]

theorem next_live (h : Inv s) (hs : s.next i = some s') :
    AllLive s' ↔ AllLive s ∧ stillThere s .next = true := by
  cases hhere : s.here with
  | passOn pid =>
    have hpid := h.argument pid (.inr (.inl hhere))
    simp only [State.next, hhere, Option.some.injEq] at hs
    subst hs
    cases hsignal : s.vars.setupSignal with
    | none => simp [stillThere, hhere, hsignal, AllLive]
    | some sig =>
      have hkill := allLive_kill s pid sig s.child
      have hgoto : AllLive ((s.kill pid sig s.child).goto (.waitpid pid)) ↔
          AllLive (s.kill pid sig s.child) := Iff.rfl
      simp only [stillThere, hhere, hsignal, hgoto, hkill, unreaped_iff hpid]
      simp
  | _ =>
    have hkills : s'.kills = s.kills := by
      simp only [State.next, hhere] at hs
      grind [State.goto]
    simp [AllLive, hkills, stillThere, hhere]

/-- A step makes a stray `kill` exactly if it meets the condition's exception. -/
theorem step_live {e : Event} (h : Inv s) (hs : step i s e = some s') :
    AllLive s' ↔ AllLive s ∧ stillThere s e = true := by
  cases e with
  | next => exact next_live h hs
  | signal sig code =>
    simp only [step, Option.ite_none_left_eq_some, Option.some.injEq] at hs
    exact hs.2 ▸ signal_live h sig code
  | childSignal sig code =>
    obtain ⟨m, hm, rfl⟩ := Option.map_eq_some_iff.mp hs
    have hnone : (forwardSignal m sig code).2 = none := by
      simp [forwardSignal, h.copied m hm]
    simp [hnone, AllLive, stillThere]
  | fails =>
    have hkills : s'.kills = s.kills := by
      simp only [step, State.fails] at hs
      grind [State.goto]
    simp [AllLive, hkills, stillThere]
  | forked pid | exec | exit =>
    have hkills : s'.kills = s.kills := by
      simp only [step] at hs
      grind
    simp [AllLive, hkills, stillThere]

/-- In every run in which nothing is sent on while the child is gone and `setup_child` still
names it, each `kill` names a child that is still there. The condition is exact: the next
step keeps that if and only if it meets it. -/
theorem kills_live {i : Inherited} {s : State} (h : Reach (guarded (step i) stillThere) start s) :
    AllLive s ∧ ∀ e s', step i s e = some s' → (AllLive s' ↔ stillThere s e = true) := by
  have hboth : Inv s ∧ AllLive s := by
    refine h.invariant (I := fun s => Inv s ∧ AllLive s) ⟨start_inv, nofun⟩ ?_
    intro s e s' hs hstep
    obtain ⟨hok, hstep⟩ := guarded_eq_some.mp hstep
    exact ⟨step_inv hs.1 hstep, (step_live hs.1 hstep).mpr ⟨hs.2, hok⟩⟩
  refine ⟨hboth.2, fun e s' hstep => ?_⟩
  rw [step_live hboth.1 hstep]
  exact and_iff_right hboth.2

def untilExit : List Event :=
  List.replicate 7 .next ++ [.forked 7, .exec, .next, .next, .exit]

def reaped (kills : List Kill) (setupSignal : Option Sig) : State where
  here := .waited
  vars := { setupChild := some 7, setupSignal := setupSignal }
  forwarding := [.term, .quit, .int, .hup]
  child := .gone 7
  kills := kills

theorem kills_live_reaped : Reach (guarded (step {}) stillThere) start (reaped [] none) ∧
    AllLive (reaped [] none) := by
  have hrun : run (guarded (step {}) stillThere) start (untilExit ++ [.next]) =
      some (reaped [] none) := by
    decide
  have hreach := Reach.refl.run hrun
  exact ⟨hreach, (kills_live hreach).1⟩

/-- `kill PID` of hacman behind `waitpid`: the handler sends the signal to a pid that is free
again. Where `SIGCHLD` is ignored, the child is gone as soon as it ends. -/
theorem reaped_child_signalled :
    (∃ s, Reach (step {}) start s ∧ run (step {}) start
      (untilExit ++ [.next, .signal .term .user]) = some s ∧ ¬ AllLive s) ∧
    ∃ s, Reach (step { discards := true }) start s ∧
      run (step { discards := true }) start (untilExit ++ [.signal .term .user]) = some s ∧
        ¬ AllLive s := by
  constructor
  · have hrun : run (step {}) start (untilExit ++ [.next, .signal .term .user]) =
        some (reaped [⟨7, .term, .gone 7⟩] (some .term)) := by decide
    exact ⟨_, Reach.refl.run hrun, hrun, by decide⟩
  · have hrun : run (step { discards := true }) start (untilExit ++ [.signal .term .user]) =
        some { reaped [⟨7, .term, .gone 7⟩] (some .term) with here := .waitpid 7 } := by decide
    exact ⟨_, Reach.refl.run hrun, hrun, by decide⟩

end Live

section OneSignal
variable {i : Inherited} {s s' : State} {t : Signals.State}

/-- Where the machine of one signal has hacman, up to `forward_signals_end`. -/
def At.place : At → Option HacmanAt
  | .clearChild | .clearSignal => some .forwardSignalsBegin
  | .install _ | .fork => some .fork
  | .recordChild _ => some .recordChild
  | .passOn _ => some .passOn
  | .waitpid _ | .waited => some .waiting
  | .restore _ | .done | .killed => none

def Vars.marks (m : Vars) : Signals.Vars := ⟨m.setupChild.isSome, m.setupSignal.isSome⟩

/-- Every call succeeds, and the handler has one signal to take. -/
def alone (s : State) : Event → Bool
  | .fails => false
  | .signal _ _ => s.vars.setupSignal.isNone
  | _ => true

/-- hacman is at the same statement with the same variables in both machines, and has sent the
child a signal in both or in neither. -/
structure Viewed (s : State) (t : Signals.State) : Prop where
  place : s.here.place = some t.hacman.here
  marks : t.hacman.vars = s.vars.marks
  idle : t.hacman.pending = none
  sent : t.sent = s.vars.setupSignal.isSome
  fresh : s.here = .clearChild ∨ s.here = .clearSignal → s.forwarding = [] ∧
    s.vars.setupSignal = none
  unborn : t.hacman.here = .forwardSignalsBegin ∨ t.hacman.here = .fork →
    t.setup = { here := .unborn } ∧ s.vars.setupChild = none
  born : t.hacman.here ≠ .forwardSignalsBegin → t.hacman.here ≠ .fork →
    t.setup.here = .forwardSignalsEnd
  relayed : t.setup.pending.isSome = !s.kills.isEmpty

theorem Viewed.late (hplace : s.here.place = some t.hacman.here)
    (hmarks : t.hacman.vars = s.vars.marks)
    (hidle : t.hacman.pending = none) (hsent : t.sent = s.vars.setupSignal.isSome)
    (hbegun : t.hacman.here ≠ .forwardSignalsBegin) (hforked : t.hacman.here ≠ .fork)
    (hborn : t.setup.here = .forwardSignalsEnd)
    (hrelayed : t.setup.pending.isSome = !s.kills.isEmpty) : Viewed s t where
  place := hplace
  marks := hmarks
  idle := hidle
  sent := hsent
  fresh hearly := by
    refine absurd (Option.some.inj ?_).symm hbegun
    rw [← hplace]
    rcases hearly with hearly | hearly <;> rw [hearly] <;> rfl
  unborn hearly := absurd hearly (not_or.mpr ⟨hbegun, hforked⟩)
  born _ _ := hborn
  relayed := hrelayed

theorem start_viewed : Viewed start Signals.start := by
  constructor <;> simp [start, Signals.start, At.place, Vars.marks]

@[simp] theorem killChild_hacman (code : SiCode) : (t.killChild code).hacman = t.hacman := by
  unfold Signals.State.killChild
  split_ifs <;> rfl

@[simp] theorem killChild_sent (code : SiCode) : (t.killChild code).sent = t.sent := by
  unfold Signals.State.killChild
  split_ifs <;> rfl

theorem killChild_setup {code : SiCode} (h : t.setup.here = .forwardSignalsEnd) :
    (t.killChild code).setup = t.setup.post code := by
  rw [Signals.State.killChild, h]
  rfl

theorem forwardSignal_marks (m : Vars) (sig : Sig) (code : SiCode) :
    Signals.forwardSignal m.marks code =
      ((forwardSignal m sig code).1.marks, (forwardSignal m sig code).2.isSome) := by
  cases hchild : m.setupChild <;> cases code <;>
    simp [Signals.forwardSignal, forwardSignal, Vars.marks, hchild]

def recorded (t : Signals.State) (code : SiCode) : Signals.State :=
  { t with
    sent := true
    hacman := { t.hacman with
      vars := (Signals.forwardSignal t.hacman.vars code).1
      pending := none } }

theorem taken (code : SiCode) (hidle : t.hacman.pending = none) (hsent : t.sent = false)
    (hhandles : t.hacman.here.handles = true) :
    ∃ t', Reach Signals.step t t' ∧
      t'.hacman = (recorded t code).hacman ∧
        t'.sent = true ∧
          t'.setup = if (Signals.forwardSignal t.hacman.vars code).2 && t.setup.here.alive then
            t.setup.post .user else t.setup := by
  have halive : t.hacman.here.alive = true := by
    cases hhere : t.hacman.here <;> rw [hhere] at hhandles <;> simp_all
      [HacmanAt.handles, HacmanAt.alive]
  have hsend : Signals.step t (.send .hacman code) = some (t.send .hacman code) := by
    simp [Signals.step, hsent, halive]
  have htake : Signals.step (t.send .hacman code) .hacmanTakes =
      some ((t.send .hacman code).hacmanTakes code) := by
    simp [Signals.step, Signals.State.send, Process.post, hidle]
  refine ⟨_, (Reach.refl.tail hsend).tail htake, ?_⟩
  have htaken : (t.send .hacman code).hacmanTakes code =
      if (Signals.forwardSignal t.hacman.vars code).2 then (recorded t code).killChild .user
      else recorded t code := if_pos hhandles
  rw [htaken]
  cases (Signals.forwardSignal t.hacman.vars code).2 with
  | false => exact ⟨rfl, rfl, rfl⟩
  | true =>
    refine ⟨killChild_hacman _, killChild_sent _, ?_⟩
    have hsetup : (recorded t code).setup = t.setup := rfl
    simp only [↓reduceIte, Signals.State.killChild, Bool.true_and, hsetup]
    split_ifs <;> rfl

theorem signal_viewed {sig : Sig} {code : SiCode} (h : Viewed s t)
    (hone : s.vars.setupSignal = none) : (s.signal i sig code).here.place = none ∨
      ∃ t', Reach Signals.step t t' ∧ Viewed (s.signal i sig code) t' := by
  unfold State.signal
  by_cases hsig : sig ∈ s.forwarding
  · right
    rw [if_pos hsig]
    have hlate : ¬ (s.here = .clearChild ∨ s.here = .clearSignal) := by
      intro hearly
      rw [(h.fresh hearly).1] at hsig
      cases hsig
    have hhandles : t.hacman.here.handles = true := by
      have hplace := h.place
      cases hhere : s.here <;> rw [hhere] at hplace hlate <;>
        simp_all [At.place] <;> rw [← hplace] <;> rfl
    obtain ⟨t', hreach, hhacman, hsent, hsetup⟩ :=
      taken code h.idle (by rw [h.sent, hone]; rfl) hhandles
    rw [recorded, h.marks, forwardSignal_marks s.vars sig code] at hhacman
    rw [h.marks, forwardSignal_marks s.vars sig code] at hsetup
    refine ⟨t', hreach, ?_⟩
    cases htarget : (forwardSignal s.vars sig code).2 with
    | none =>
      rw [htarget] at hsetup
      dsimp only
      rw [htarget]
      refine ⟨by rw [hhacman]; exact h.place, by rw [hhacman], by rw [hhacman], hsent,
        ?_, ?_, ?_, ?_⟩
      · exact fun hearly => absurd hearly hlate
      · rw [hhacman, hsetup]
        exact h.unborn
      · rw [hhacman, hsetup]
        exact h.born
      · rw [hsetup]
        exact h.relayed
    | some pid =>
      have hchild : s.vars.setupChild ≠ none := by
        intro hnone
        simp [forwardSignal, hnone] at htarget
      have hborn := h.born (fun hhere => hchild (h.unborn (.inl hhere)).2)
        (fun hhere => hchild (h.unborn (.inr hhere)).2)
      rw [htarget, hborn] at hsetup
      dsimp only
      rw [htarget]
      refine ⟨by rw [hhacman]; exact h.place, by rw [hhacman]; rfl, by rw [hhacman], hsent,
        ?_, ?_, ?_, ?_⟩
      · exact fun hearly => absurd hearly hlate
      · rw [hhacman]
        exact fun hearly => absurd (h.unborn hearly).2 hchild
      · intro _ _
        rw [hsetup]
        exact hborn
      · rw [hsetup]
        cases hpending : t.setup.pending <;> simp [Process.post, SetupAt.alive,
          hpending, State.kill]
  · rw [if_neg hsig]
    split_ifs
    · exact .inr ⟨t, .refl, h⟩
    · exact .inl rfl

theorem Viewed.same (h : Viewed s t) (hhere : s'.here = s.here) (hvars : s'.vars = s.vars)
    (hforwarding : s'.forwarding = s.forwarding) (hkills : s'.kills = s.kills) : Viewed s' t where
  place := by rw [hhere]; exact h.place
  marks := by rw [hvars]; exact h.marks
  idle := h.idle
  sent := by rw [hvars]; exact h.sent
  fresh := by rw [hhere, hvars, hforwarding]; exact h.fresh
  unborn := by rw [hvars]; exact h.unborn
  born := h.born
  relayed := by rw [hkills]; exact h.relayed

/-- A statement of hacman is the same one of the other machine, or a part of one. -/
theorem next_viewed (hs : s.next i = some s') (h : Viewed s t) :
    s'.here.place = none ∨ ∃ t', Reach Signals.step t t' ∧ Viewed s' t' := by
  have hplace := h.place
  cases hhere : s.here with
  | clearChild =>
    rw [hhere] at hplace
    obtain ⟨hnone, hsignal⟩ := h.fresh (.inl hhere)
    simp only [State.next, hhere, Option.some.injEq] at hs
    subst hs
    have hmarks := h.marks
    have hunborn := h.unborn (.inl (Option.some.inj hplace).symm)
    refine .inr ⟨t, .refl, hplace, ?_, h.idle, h.sent, fun _ => ⟨hnone, hsignal⟩, ?_,
      h.born, h.relayed⟩
    · rw [hmarks, Vars.marks, hunborn.2]
      rfl
    · exact fun _ => ⟨hunborn.1, rfl⟩
  | clearSignal =>
    rw [hhere] at hplace
    have hat : t.hacman.here = .forwardSignalsBegin := (Option.some.inj hplace).symm
    obtain ⟨-, hsignal⟩ := h.fresh (.inr hhere)
    obtain ⟨hsetup, hchild⟩ := h.unborn (.inl hat)
    simp only [State.next, hhere, Option.some.injEq] at hs
    subst hs
    have hstep : Signals.step t .hacman = some { t with
        hacman := { t.hacman with here := .fork, vars := {} } } := by
      simp only [Signals.step, Signals.State.hacmanStep, hat]
    refine .inr ⟨_, Reach.refl.tail hstep, rfl, ?_, h.idle, ?_, ?_, ?_, ?_, h.relayed⟩
    · simp [Vars.marks, hchild]
    · rw [h.sent, hsignal]
    · simp
    · exact fun _ => ⟨hsetup, hchild⟩
    · exact fun _ hfork => absurd rfl hfork
  | install rest =>
    rw [hhere] at hplace
    have hat : t.hacman.here = .fork := (Option.some.inj hplace).symm
    have hs' : s'.here.place = some .fork ∧ ¬ (s'.here = .clearChild ∨ s'.here = .clearSignal) ∧
        s'.vars = s.vars ∧ s'.kills = s.kills := by
      cases rest <;> simp only [State.next, hhere, Option.some.injEq] at hs <;> subst hs <;>
        simp [At.place, State.goto]
    obtain ⟨hfork, hlate, hvars, hkills⟩ := hs'
    refine .inr ⟨t, .refl, by rw [hfork, hat], by rw [hvars]; exact h.marks, h.idle,
      by rw [hvars]; exact h.sent, fun hearly => absurd hearly hlate, ?_, h.born, ?_⟩
    · rw [hvars]
      exact h.unborn
    · rw [hkills]
      exact h.relayed
  | recordChild pid =>
    rw [hhere] at hplace
    have hat : t.hacman.here = .recordChild := (Option.some.inj hplace).symm
    simp only [State.next, hhere, Option.some.injEq] at hs
    subst hs
    have hborn := h.born (by simp [hat]) (by simp [hat])
    have hstep : Signals.step t .hacman = some { t with hacman :=
        { t.hacman with here := .passOn, vars := { t.hacman.vars with setupChild := true } } } := by
      simp only [Signals.step, Signals.State.hacmanStep, hat]
    have hmarks : { t.hacman.vars with setupChild := true } =
        Vars.marks { s.vars with setupChild := some pid } := by simp [h.marks, Vars.marks]
    exact .inr ⟨_, Reach.refl.tail hstep,
      .late rfl hmarks h.idle h.sent (by simp) (by simp) hborn h.relayed⟩
  | passOn pid =>
    rw [hhere] at hplace
    have hat : t.hacman.here = .passOn := (Option.some.inj hplace).symm
    have hborn := h.born (by simp [hat]) (by simp [hat])
    simp only [State.next, hhere, Option.some.injEq] at hs
    have hstep : Signals.step t .hacman = some
        (if t.hacman.vars.setupSignal then
          { t with hacman := t.hacman.goto .waiting }.killChild .user
        else { t with hacman := t.hacman.goto .waiting }) := by
      simp only [Signals.step, Signals.State.hacmanStep, hat]
    have hsignal : t.hacman.vars.setupSignal = s.vars.setupSignal.isSome := by
      rw [h.marks]
      rfl
    right
    refine ⟨_, Reach.refl.tail hstep, ?_⟩
    rw [hsignal]
    cases hrecorded : s.vars.setupSignal with
    | none =>
      rw [hrecorded] at hs
      subst hs
      exact .late rfl h.marks h.idle h.sent (by simp [Process.goto]) (by simp [Process.goto]) hborn
        h.relayed
    | some sig =>
      rw [hrecorded] at hs
      subst hs
      have hkill : ({ t with hacman := t.hacman.goto .waiting }.killChild .user).setup =
        t.setup.post .user :=
        killChild_setup hborn
      simp only [Option.isSome_some, ↓reduceIte]
      refine .late ?_ ?_ ?_ ?_ ?_ ?_ ?_ ?_
      · rw [killChild_hacman]
        rfl
      · rw [killChild_hacman]
        exact h.marks
      · rw [killChild_hacman]
        exact h.idle
      · rw [killChild_sent]
        exact h.sent
      · simp [Process.goto]
      · simp [Process.goto]
      · rw [hkill]
        exact hborn
      · rw [hkill]
        cases hpending : t.setup.pending <;> simp [Process.post, hpending, State.kill, State.goto]
  | waitpid pid =>
    rw [hhere] at hplace
    simp only [State.next, hhere, Option.ite_none_right_eq_some, Option.some.injEq] at hs
    obtain ⟨-, rfl⟩ := hs
    exact .inr ⟨t, .refl, hplace, h.marks, h.idle, h.sent, by simp, h.unborn, h.born, h.relayed⟩
  | waited =>
    simp only [State.next, hhere, Option.some.injEq] at hs
    subst hs
    exact .inl rfl
  | fork => simp [State.next, hhere] at hs
  | restore rest | done | killed =>
    rw [hhere] at hplace
    cases hplace

theorem forked_viewed {pid : Pid} (hs : step i s (.forked pid) = some s') (h : Viewed s t) :
    ∃ t', Reach Signals.step t t' ∧ Viewed s' t' := by
  simp only [step, Option.ite_none_right_eq_some, Option.some.injEq] at hs
  obtain ⟨hfork, rfl⟩ := hs
  have hat : t.hacman.here = .fork := by
    have hplace := h.place
    rw [hfork] at hplace
    exact (Option.some.inj hplace).symm
  have hnone := h.idle
  have hstep : Signals.step t .hacman = some { t with
      hacman := t.hacman.goto .recordChild
      setup := { here := .forwardSignalsEnd, vars := t.hacman.vars } } := by
    simp [Signals.step, Signals.State.hacmanStep, hat, hnone]
  refine ⟨_, Reach.refl.tail hstep, .late rfl h.marks hnone h.sent (by simp [Process.goto])
    (by simp [Process.goto]) rfl ?_⟩
  rw [← h.relayed, (h.unborn (.inr hat)).1]

theorem place_none {e : Event} (hs : step i s e = some s') (h : s.here.place = none) :
    s'.here.place = none := by
  cases e with
  | next =>
    simp only [step, State.next] at hs
    grind [At.place, State.goto]
  | fails =>
    simp only [step, State.fails] at hs
    grind [At.place]
  | signal sig code =>
    simp only [step, State.signal] at hs
    grind [At.place, State.goto, State.kill]
  | childSignal sig code =>
    obtain ⟨m, -, rfl⟩ := Option.map_eq_some_iff.mp hs
    dsimp only
    split <;> exact h
  | forked pid | exec | exit =>
    simp only [step] at hs
    grind [At.place]

theorem step_viewed {e : Event} (hinv : Inv s) (halone : alone s e = true)
    (hs : step i s e = some s')
    (h : Viewed s t) : s'.here.place = none ∨ ∃ t', Reach Signals.step t t' ∧ Viewed s' t' := by
  cases e with
  | next => exact next_viewed hs h
  | fails => cases halone
  | forked pid => exact .inr (forked_viewed hs h)
  | signal sig code =>
    simp only [step, Option.ite_none_left_eq_some, Option.some.injEq] at hs
    exact hs.2 ▸ signal_viewed h (Option.isNone_iff_eq_none.mp halone)
  | childSignal sig code =>
    obtain ⟨m, hm, rfl⟩ := Option.map_eq_some_iff.mp hs
    have hnone : (forwardSignal m sig code).2 = none := by
      simp [forwardSignal, hinv.copied m hm]
    dsimp only
    rw [hnone]
    exact .inr ⟨t, .refl, h.same rfl rfl rfl rfl⟩
  | exec =>
    obtain rfl := Option.some.inj hs
    exact .inr ⟨t, .refl, h.same rfl rfl rfl rfl⟩
  | exit =>
    have hs' : s'.here = s.here ∧ s'.vars = s.vars ∧ s'.forwarding = s.forwarding ∧
        s'.kills = s.kills := by
      simp only [step] at hs
      grind
    obtain ⟨hhere, hvars, hforwarding, hkills⟩ := hs'
    exact .inr ⟨t, .refl, h.same hhere hvars hforwarding hkills⟩

/-- Until `forward_signals_end`, hacman goes through the same statements here and in the
machine of one signal, with the same variables, and sends the child a signal here exactly if
it does there. -/
theorem one_signal {s : State} (h : Reach (guarded (step i) alone) start s) :
    s.here.place = none ∨ ∃ t, Reach Signals.step Signals.start t ∧ Viewed s t := by
  have hsim : ∃ t, Reach Signals.step Signals.start t ∧
      (Inv s ∧ (s.here.place = none ∨ Viewed s t)) := by
    refine h.simulated (R := fun s t => Inv s ∧ (s.here.place = none ∨ Viewed s t))
      ⟨start_inv, .inr start_viewed⟩ ?_
    rintro s t e s' ⟨hinv, hview⟩ hstep
    obtain ⟨halone, hstep⟩ := guarded_eq_some.mp hstep
    have hinv' := step_inv hinv hstep
    rcases hview with hplace | hviewed
    · exact ⟨t, .refl, hinv', .inl (place_none hstep hplace)⟩
    · rcases step_viewed hinv halone hstep hviewed with hplace | ⟨t', ht', hviewed'⟩
      · exact ⟨t, .refl, hinv', .inl hplace⟩
      · exact ⟨t', ht', hinv', .inr hviewed'⟩
  obtain ⟨t, ht, -, hplace | hviewed⟩ := hsim
  · exact .inl hplace
  · exact .inr ⟨t, ht, hviewed⟩

end OneSignal

end Hacman.Reaping
