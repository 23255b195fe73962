import Hacman.Machine

/-!
# Signals that arrive while setup runs

hacman and its setup child around `fork`, with one termination signal, not ignored at
startup, that is sent at any moment to hacman alone or to the process group. A signal is
pending for a process until the process takes it, at any later moment, and a second one
of its kind merges with it. hacman passes a signal on by its handler, by the catch-up
behind the fork, or by the copy of its variables in the child; a group signal reaches the
child by itself.
-/

namespace Hacman.Signals
open Machine

section Model

inductive SiCode | user | queue | other
  deriving DecidableEq, Repr

structure Vars where
  setupChild : Bool := false
  setupSignal : Bool := false
  deriving DecidableEq, Repr

def forwardSignal (m : Vars) (code : SiCode) : Vars × Bool :=
  ({ m with setupSignal := true }, m.setupChild && (code = .user || code = .queue))

/-- What hacman does next; in `waiting` it is blocked in `waitpid`. -/
inductive HacmanAt
  | forwardSignalsBegin | fork | recordChild | passOn | waiting | ended | killed
  deriving DecidableEq, Repr

/-- What the child does next; `shell` and `trapping` are the setup itself. -/
inductive SetupAt
  | unborn | forwardSignalsEnd | reraise | exec | shell | trapping | exited | killed
  deriving DecidableEq, Repr

structure Process (At : Type) where
  here : At
  vars : Vars := {}
  pending : Option SiCode := none
  deriving DecidableEq, Repr

inductive Target | hacman | group
  deriving DecidableEq, Repr

/-- `copied`: the child was in the group when the signal was sent. `received` counts the
signals that the setup has taken for real, `seen` those that its trap has. -/
structure State where
  hacman : Process HacmanAt
  setup : Process SetupAt
  sent : Bool := false
  copied : Bool := false
  received : Nat := 0
  seen : Nat := 0
  deriving DecidableEq, Repr

def start : State where
  hacman := { here := .forwardSignalsBegin }
  setup := { here := .unborn }

def HacmanAt.alive (x : HacmanAt) : Bool := x ≠ .killed

def SetupAt.alive (x : SetupAt) : Bool := x ≠ .unborn && x ≠ .exited && x ≠ .killed

def HacmanAt.handles (x : HacmanAt) : Bool :=
  x = .fork || x = .recordChild || x = .passOn || x = .waiting

def Process.post {At : Type} (q : Process At) (code : SiCode) : Process At :=
  { q with pending := q.pending <|> some code }

def Process.goto {At : Type} (q : Process At) (here : At) : Process At := { q with here := here }

variable (s : State)

def State.killChild (code : SiCode) : State :=
  if s.setup.here.alive then { s with setup := s.setup.post code } else s

def State.send (target : Target) (code : SiCode) : State :=
  let s := { s with sent := true, hacman := s.hacman.post code }
  if target = .group && s.setup.here.alive then
    { s with setup := s.setup.post code, copied := true }
  else s

def State.die : State :=
  { s with setup := { s.setup with here := .killed, pending := none }, received := s.received + 1 }

inductive Event
  | send (target : Target) (code : SiCode)
  | hacman
  | hacmanTakes
  | setup
  | setupTakes
  | trap
  | exit
  deriving DecidableEq, Repr

/-- The next statement of hacman. A signal that is pending at `fork` is taken before it,
and `waitpid` returns when the child has ended. -/
def State.hacmanStep : Option State :=
  match s.hacman.here with
  | .forwardSignalsBegin => some { s with
      hacman :=
        { s.hacman with here := .fork, vars := { setupChild := false, setupSignal := false } } }
  | .fork =>
    if s.hacman.pending.isSome then none
    else some { s with
      hacman := s.hacman.goto .recordChild
      setup := { here := .forwardSignalsEnd, vars := s.hacman.vars } }
  | .recordChild => some { s with
      hacman := { s.hacman with
        here := .passOn
        vars := { s.hacman.vars with setupChild := true } } }
  | .passOn =>
    let s' := { s with hacman := s.hacman.goto .waiting }
    some (if s.hacman.vars.setupSignal then s'.killChild .user else s')
  | .waiting =>
    if s.setup.here.alive then none
    else some { s with
      hacman := { s.hacman with
        here := .ended
        vars := { s.hacman.vars with setupChild := false } } }
  | .ended => none
  | .killed => none

/-- hacman takes its signal: by the handler, or as what was there before. -/
def State.hacmanTakes (code : SiCode) : State :=
  if s.hacman.here.handles then
    let (vars, kills) := forwardSignal s.hacman.vars code
    let s' := { s with hacman := { s.hacman with vars := vars, pending := none } }
    if kills then s'.killChild .user else s'
  else { s with hacman := { s.hacman with here := .killed, pending := none } }

def State.setupStep : Option State :=
  match s.setup.here with
  | .forwardSignalsEnd => some { s with
      setup := { s.setup with
        here := .reraise
        vars := { s.setup.vars with setupChild := false } } }
  | .reraise => some (if s.setup.vars.setupSignal then s.die
    else { s with setup := s.setup.goto .exec })
  | .exec => some { s with setup := s.setup.goto .shell }
  | _ => none

/-- The child takes its signal: with the inherited handler, by default, or in its trap. -/
def State.setupTakes (code : SiCode) : Option State :=
  match s.setup.here with
  | .forwardSignalsEnd =>
    let (vars, kills) := forwardSignal s.setup.vars code
    let s' := { s with setup := { s.setup with vars := vars, pending := none } }
    some (if kills then s'.killChild .user else s')
  | .reraise | .exec | .shell => some s.die
  | .trapping => some { s with
      setup := { s.setup with pending := none }, received := s.received + 1, seen := s.seen + 1 }
  | _ => none

def step : State → Event → Option State
  | s, .send target code => if s.sent || !s.hacman.here.alive then none
    else some (s.send target code)
  | s, .hacman => s.hacmanStep
  | s, .hacmanTakes => s.hacman.pending.map s.hacmanTakes
  | s, .setup => s.setupStep
  | s, .setupTakes => s.setup.pending.bind s.setupTakes
  | s, .trap => if s.setup.here = .shell then some { s with setup := s.setup.goto .trapping }
    else none
  | s, .exit =>
    if s.setup.here = .exec || s.setup.here = .shell || s.setup.here = .trapping then
      some { s with setup := { s.setup with here := .exited, pending := none } }
    else none

end Model

section Routes

def HacmanAt.early (x : HacmanAt) : Bool := x = .fork || x = .recordChild || x = .passOn

/-- The ways to the setup that are open when hacman's handler runs: the child's own copy
of a group signal, the catch-up, and the handler's `kill`. -/
def State.routes (s : State) (code : SiCode) : Nat :=
  s.copied.toNat + s.hacman.here.early.toNat +
    (s.hacman.vars.setupChild && (code = .user || code = .queue)).toNat

/-- The handler does not run unless exactly one way is open. -/
def oneRoute (s : State) : Event → Bool
  | .hacmanTakes =>
    match s.hacman.pending with
    | some code => !s.hacman.here.handles || s.routes code = 1
    | none => true
  | _ => true

/-- Nothing is under way any more, and the child has come to its exec. -/
def Settled (s : State) : Prop :=
  s.sent = true ∧ s.hacman.pending = none ∧ s.setup.pending = none ∧
    (s.hacman.here = .waiting ∨ s.hacman.here = .ended) ∧
      s.setup.here ≠ .unborn ∧ s.setup.here ≠ .forwardSignalsEnd ∧ s.setup.here ≠ .reraise

/-- The setup takes the signal at least once, unless it has ended by itself, and a trap
that is installed runs exactly once. -/
structure ExactlyOnce (s : State) : Prop where
  atMost : s.seen ≤ 1
  atLeast : Settled s → s.setup.here = .exited ∨ 1 ≤ s.received
  trapped : Settled s → s.setup.here = .trapping → s.seen = 1

end Routes

section Invariant

/-- What a living child that has nothing recorded has taken, is about to take, and will be
sent by the catch-up. -/
def State.charge (s : State) : Nat :=
  s.received + s.setup.pending.isSome.toNat +
    (s.hacman.vars.setupSignal && s.hacman.here.early).toNat

structure Inv (s : State) : Prop where
  unsent : s.sent = false → s.hacman.pending = none ∧ s.hacman.vars.setupSignal = false ∧
    s.copied = false
  carried : s.sent = true → s.hacman.here = .killed ∨ s.hacman.pending.isSome = true ∨
    s.hacman.vars.setupSignal = true ∧ s.hacman.here ≠ .forwardSignalsBegin
  untaken : s.hacman.pending.isSome = true → s.hacman.vars.setupSignal = false
  childless : s.hacman.here ≠ .recordChild → s.hacman.here ≠ .passOn → s.hacman.here ≠ .waiting →
    s.setup.here.alive = false
  fresh : s.hacman.here = .forwardSignalsBegin ∨ s.hacman.here = .fork →
    s.copied = false ∧ s.received = 0 ∧ s.seen = 0
  charged : s.setup.here.alive = true → s.setup.vars.setupSignal = false →
    s.charge = if s.hacman.vars.setupSignal then 1 else s.copied.toNat
  recorded : s.setup.here.alive = true → s.setup.vars.setupSignal = true →
    s.setup.here = .forwardSignalsEnd ∨ s.setup.here = .reraise
  untouched : s.setup.here.alive = true → s.setup.here ≠ .trapping → s.received = 0
  unseen : s.setup.here ≠ .trapping → s.setup.here ≠ .exited → s.seen = 0
  seen : s.setup.here = .trapping → s.seen = s.received
  left : s.setup.here = .exited → s.seen ≤ 1
  dead : s.setup.here = .killed → 1 ≤ s.received

theorem start_inv : Inv start := by
  constructor <;> simp [start, SetupAt.alive]

theorem Inv.trap_charged {s : State} (h : Inv s) (ht : s.setup.here = .trapping) :
    s.charge = if s.hacman.vars.setupSignal then 1 else s.copied.toNat := by
  have halive : s.setup.here.alive = true := by rw [ht]; rfl
  apply h.charged halive
  by_contra hrec
  rw [Bool.not_eq_false] at hrec
  rcases h.recorded halive hrec with hr | hr <;> rw [ht] at hr <;> cases hr

theorem Inv.seen_le {s : State} (h : Inv s) : s.seen ≤ 1 := by
  by_cases ht : s.setup.here = .trapping
  · have hcharge := h.trap_charged ht
    have hcopied := Bool.toNat_le s.copied
    have hseen := h.seen ht
    unfold State.charge at hcharge
    split_ifs at hcharge <;> omega
  · by_cases he : s.setup.here = .exited
    · exact h.left he
    · rw [h.unseen ht he]
      exact Nat.zero_le 1

/-- When all has been taken, a trap has been charged exactly once. -/
theorem Inv.exactlyOnce {s : State} (h : Inv s) : ExactlyOnce s := by
  have htaken : Settled s → s.setup.here.alive = true →
      s.setup.here = .trapping ∧ s.received = 1 := by
    rintro ⟨hsent, hpending, harrived, hhere, hborn, hrestored, hraised⟩ halive
    have hwaiting : s.hacman.here = .waiting := by
      refine hhere.resolve_right fun hend => ?_
      have hnone := h.childless (by simp [hend]) (by simp [hend]) (by simp [hend])
      rw [halive] at hnone
      cases hnone
    have hhandled : s.hacman.vars.setupSignal = true := by
      have hcarried := h.carried hsent
      simpa [hpending, hwaiting] using hcarried
    have hforwarded : s.setup.vars.setupSignal = false := by
      by_contra hrec
      rw [Bool.not_eq_false] at hrec
      exact (h.recorded halive hrec).elim hrestored hraised
    have hcharge : s.received = 1 := by
      simpa [State.charge, HacmanAt.early, hhandled, hwaiting, harrived] using
        h.charged halive hforwarded
    refine ⟨?_, hcharge⟩
    by_contra htrap
    rw [h.untouched halive htrap] at hcharge
    cases hcharge
  refine ⟨h.seen_le, fun hs => ?_, fun hs htrap => ?_⟩
  · by_cases halive : s.setup.here.alive = true
    · right
      have hone := (htaken hs halive).2
      omega
    · have hended : s.setup.here = .exited ∨ s.setup.here = .killed := by
        have hborn := hs.2.2.2.2.1
        cases hhere : s.setup.here <;> simp_all [SetupAt.alive]
      exact hended.imp_right h.dead
  · rw [h.seen htrap]
    exact (htaken hs (by rw [htrap]; rfl)).2

variable {s s' : State} {code : SiCode}

theorem send_inv {target : Target} (h : Inv s) (hs : s.sent = false) :
    Inv (s.send target code) := by
  obtain ⟨hpending, hsignal, hcopied⟩ := h.unsent hs
  have hzero : s.setup.here.alive = true → s.setup.vars.setupSignal = false → s.charge = 0 := by
    intro ha hrec
    rw [h.charged ha hrec, hsignal, hcopied]
    rfl
  obtain ⟨-, -, -, hchildless, hfresh, -, hrecorded, huntouched, hunseen, hseen, hleft, hdead⟩ := h
  unfold State.send
  constructor <;> grind [Process.post, State.charge]

/-- The catch-up is part of the charge until it has been sent. -/
theorem hacmanStep_inv (h : Inv s) (hstep : s.hacmanStep = some s') : Inv s' := by
  have hempty : s.setup.here.alive = true → s.setup.vars.setupSignal = false →
      s.hacman.here = .passOn → s.hacman.vars.setupSignal = true → s.setup.pending = none := by
    intro ha hrec hhere hsignal
    have hcharge := h.charged ha hrec
    simp only [State.charge, hsignal, hhere, HacmanAt.early, ↓reduceIte] at hcharge
    cases hp : s.setup.pending with
    | none => rfl
    | some code =>
      rw [hp] at hcharge
      simp at hcharge
  obtain ⟨hunsent, hcarried, huntaken, hchildless, hfresh, hcharged, hrecorded, huntouched, hunseen,
    hseen, hleft, hdead⟩ := h
  unfold State.hacmanStep at hstep
  constructor <;>
    grind [Process.post, Process.goto, State.charge, State.killChild, HacmanAt.early, SetupAt.alive]

/-- The one open way brings the charge to one. -/
theorem hacmanTakes_inv (h : Inv s) (hp : s.hacman.pending = some code)
    (hone : s.hacman.here.handles = true → s.routes code = 1) : Inv (s.hacmanTakes code) := by
  have hsignal : s.hacman.vars.setupSignal = false := h.untaken (by simp [hp])
  have hown : s.setup.here.alive = true → s.setup.vars.setupSignal = false →
      s.received + s.setup.pending.isSome.toNat = s.copied.toNat := by
    intro ha hrec
    simpa [State.charge, hsignal] using h.charged ha hrec
  obtain ⟨hunsent, hcarried, huntaken, hchildless, hfresh, -, hrecorded, huntouched, hunseen, hseen,
    hleft, hdead⟩ := h
  unfold State.hacmanTakes
  constructor <;>
    grind [Process.post, State.charge, State.killChild, State.routes, HacmanAt.handles,
      HacmanAt.early, forwardSignal]

theorem setupStep_inv (h : Inv s) (hstep : s.setupStep = some s') : Inv s' := by
  obtain ⟨hunsent, hcarried, huntaken, hchildless, hfresh, hcharged, hrecorded, huntouched, hunseen,
    hseen, hleft, hdead⟩ := h
  unfold State.setupStep at hstep
  constructor <;> grind [Process.goto, State.charge, State.die, SetupAt.alive]

/-- Taking a signal moves it from the pending ones to the taken ones, or records it. -/
theorem setupTakes_inv (h : Inv s) (hp : s.setup.pending = some code)
    (hstep : s.setupTakes code = some s') : Inv s' := by
  obtain ⟨hunsent, hcarried, huntaken, hchildless, hfresh, hcharged, hrecorded, huntouched, hunseen,
    hseen, hleft, hdead⟩ := h
  unfold State.setupTakes at hstep
  constructor <;>
    grind [Process.post, State.charge, State.die, SetupAt.alive, State.killChild, forwardSignal]

theorem trap_inv (h : Inv s) (hhere : s.setup.here = .shell) :
    Inv { s with setup := s.setup.goto .trapping } := by
  have huntaken : s.received = 0 := h.untouched (by rw [hhere]; rfl) (by rw [hhere]; nofun)
  have hunseen : s.seen = 0 := h.unseen (by rw [hhere]; nofun) (by rw [hhere]; nofun)
  obtain ⟨hunsent, hcarried, huncaught, hchildless, hfresh, hcharged, hrecorded, -, -, -, -, -⟩ := h
  constructor <;> grind [Process.goto, State.charge, SetupAt.alive]

theorem exit_inv (h : Inv s) (hhere : s.setup.here.alive = true) :
    Inv { s with setup := { s.setup with here := .exited, pending := none } } := by
  have hseen := h.seen_le
  obtain ⟨hunsent, hcarried, huntaken, hchildless, hfresh, -, -, -, -, -, -, -⟩ := h
  constructor <;> grind [SetupAt.alive]

theorem step_inv {e : Event} (h : Inv s) (hstep : guarded step oneRoute s e = some s') :
    Inv s' := by
  obtain ⟨hone, hstep⟩ := guarded_eq_some.mp hstep
  cases e with
  | send target code =>
    simp only [step, Option.ite_none_left_eq_some, Option.some.injEq] at hstep
    obtain ⟨hsent, rfl⟩ := hstep
    rw [Bool.or_eq_true, not_or, Bool.not_eq_true] at hsent
    exact send_inv h hsent.1
  | hacman => exact hacmanStep_inv h hstep
  | hacmanTakes =>
    obtain ⟨code, hp, rfl⟩ := Option.map_eq_some_iff.mp hstep
    apply hacmanTakes_inv h hp
    intro hhandles
    simpa [oneRoute, hp, hhandles] using hone
  | setup => exact setupStep_inv h hstep
  | setupTakes =>
    obtain ⟨code, hp, htakes⟩ := Option.bind_eq_some_iff.mp hstep
    exact setupTakes_inv h hp htakes
  | trap =>
    simp only [step, Option.ite_none_right_eq_some, Option.some.injEq] at hstep
    obtain ⟨hhere, rfl⟩ := hstep
    exact trap_inv h hhere
  | exit =>
    simp only [step, Option.ite_none_right_eq_some, Option.some.injEq] at hstep
    obtain ⟨hhere, rfl⟩ := hstep
    apply exit_inv h
    cases hx : s.setup.here <;> simp_all [SetupAt.alive]

end Invariant

section Once

/-- In every interleaving in which the handler runs only while exactly one way to the
setup is open, the signal reaches the setup exactly once. -/
theorem forwarded_once {s : State} (h : Reach (guarded step oneRoute) start s) : ExactlyOnce s :=
  (h.invariant start_inv fun _ _ _ => step_inv).exactlyOnce

def waitingForTrap : List Event :=
  [.hacman, .hacman, .hacman, .hacman, .setup, .setup, .setup, .trap]

def trapped (target : Target) (received : Nat) : State where
  hacman := { here := .waiting, vars := { setupChild := true, setupSignal := true } }
  setup := { here := .trapping }
  sent := true
  copied := target = .group
  received := received
  seen := received

theorem trapped_settled (target : Target) (received : Nat) : Settled (trapped target received) :=
  ⟨rfl, rfl, rfl, .inl rfl, nofun, nofun, nofun⟩

theorem forwarded_once_interrupt : Reach (guarded step oneRoute) start (trapped .group 1) ∧
    Settled (trapped .group 1) ∧ (trapped .group 1).seen = 1 := by
  have hrun : run (guarded step oneRoute) start
      (waitingForTrap ++ [.send .group .other, .setupTakes, .hacmanTakes]) =
        some (trapped .group 1) := by
    decide
  have hreach := Reach.refl.run hrun
  have hsettled := trapped_settled .group 1
  exact ⟨hreach, hsettled, (forwarded_once hreach).trapped hsettled rfl⟩

/-- Ctrl-C between the fork and `setup_child = child`: the setup has its own copy and gets
the catch-up. -/
def beforeRecording : List Event :=
  [.hacman, .hacman, .setup, .setup, .setup, .trap, .send .group .other, .setupTakes, .hacmanTakes,
    .hacman, .hacman, .setupTakes]

/-- A `kill` of hacman behind `setup_child = child`: the handler sends it on, and so does
the catch-up. -/
def beforePassingOn : List Event :=
  [.hacman, .hacman, .hacman, .setup, .setup, .setup, .trap, .send .hacman .user, .hacmanTakes,
    .setupTakes, .hacman, .setupTakes]

/-- A `kill` of the process group looks like one of hacman alone. -/
def groupKill : List Event :=
  waitingForTrap ++ [.send .group .user, .setupTakes, .hacmanTakes, .setupTakes]

/-- A hangup that the kernel sends to the session leader alone. -/
def hangup : List Event := waitingForTrap ++ [.send .hacman .other, .hacmanTakes]

theorem twice_not_once (target : Target) : ¬ ExactlyOnce (trapped target 2) := fun h =>
  absurd h.atMost (by cases target <;> decide)

/-- Without the condition a trap runs twice, or never. -/
theorem forwarding_not_once :
    (∀ es ∈ [beforeRecording, beforePassingOn, groupKill],
      ∃ s, Reach step start s ∧ run step start es = some s ∧ ¬ ExactlyOnce s) ∧
    ∃ s, Reach step start s ∧ run step start hangup = some s ∧ ¬ ExactlyOnce s := by
  have htwice : ∀ {es : List Event} (target : Target), run step start es = some (trapped target 2) →
      ∃ s, Reach step start s ∧ run step start es = some s ∧ ¬ ExactlyOnce s :=
    fun target hrun => ⟨_, Reach.refl.run hrun, hrun, twice_not_once target⟩
  constructor
  · simp only [List.mem_cons, List.not_mem_nil, or_false, forall_eq_or_imp, forall_eq]
    exact ⟨htwice .group (by decide), htwice .hacman (by decide), htwice .group (by decide)⟩
  · have hrun : run step start hangup = some (trapped .hacman 0) := by decide
    refine ⟨_, Reach.refl.run hrun, hrun, fun h => ?_⟩
    exact absurd (h.atLeast (trapped_settled .hacman 0)) (by decide)

end Once

end Hacman.Signals
