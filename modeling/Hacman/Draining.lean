import Hacman.Check

/-!
# Curl and its two pipes

Curl writes its output and its messages to two pipes of bounded size and stops where a pipe is
full. The loop of `run_curl` waits for either pipe and reads what is ready, while curl goes on
between any two of its calls. Neither side ever waits for the other one forever, and what arrives
does not depend on their order.
-/

namespace Hacman.Draining
open Octets Util Reading Check

section Model

inductive Stream
  | out | err
  deriving DecidableEq, Repr

/-- What has not been read yet, and whether more can come. -/
structure Pipe where
  buffer : Bytes := []
  writer : Bool := true

def Pipe.Ready (p : Pipe) : Prop := p.buffer ≠ [] ∨ p.writer = false

/-- Where the loop is: `readOut err` is about to read the output, and then the messages if they were
ready, too; `readErr out` is about to read the messages, after `out` was read. -/
inductive Phase
  | poll
  | readOut (err : Bool)
  | readErr (out : Option (Answer UInt8 Bytes))
  | ended

/-- What curl has still to write, byte by byte, and the state of the loop. -/
structure World where
  script : List (Stream × UInt8)
  pipes : Stream → Pipe := fun _ => {}
  loop : Pump := {}
  phase : Phase := .poll

def reads (loop : Pump) : Stream → Bool
  | .out => loop.out.isOpen
  | .err => loop.errOpen

inductive Pipe.Gives (p : Pipe) (room : Nat) : Answer UInt8 Bytes → Pipe → Prop
  | data {chunk rest : Bytes} (hne : chunk ≠ []) (hfits : chunk.length ≤ room)
    (hbuffer : p.buffer = chunk ++ rest) : Gives p room (.data chunk) { p with buffer := rest }
  | ended (hbuffer : p.buffer = []) (hwriter : p.writer = false) : Gives p room (.data []) p
  | interrupted : Gives p room .interrupted p
  | failed (e : Bytes) : Gives p room (.failed e) p

inductive Label
  | work | pause | fault
  deriving DecidableEq, Repr

def label : Answer UInt8 Bytes → Label
  | .data _ => .work
  | .interrupted => .pause
  | .failed _ => .fault

/-- One byte of curl, the end of curl, or one call of the loop. Curl goes on in some way if its
reader is gone. -/
inductive Step (cap : Stream → Nat) (w : World) : Label → World → Prop
  | write {s : Stream} {b : UInt8} {rest : List (Stream × UInt8)}
    (hscript : w.script = (s, b) :: rest)
      (hreads : reads w.loop s = true) (hroom : (w.pipes s).buffer.length < cap s) :
    Step cap w .work
      { w with
        script := rest
        pipes := Function.update w.pipes s { w.pipes s with buffer := (w.pipes s).buffer ++ [b] } }
  | refused {s : Stream} {b : UInt8} {rest rest' : List (Stream × UInt8)}
    (hscript : w.script = (s, b) :: rest)
      (hreads : reads w.loop s = false) : Step cap w .work { w with script := rest' }
  | exit {s : Stream} (hscript : w.script = []) (hwriter : (w.pipes s).writer = true) :
    Step cap w .work
      { w with pipes := Function.update w.pipes s { w.pipes s with writer := false } }
  | finish (hphase : w.phase = .poll) (hover : w.loop.running = false) :
    Step cap w .work { w with phase := .ended }
  | poll {out err : Bool} (hphase : w.phase = .poll) (hrunning : w.loop.running = true)
      (hout : out = true ↔ reads w.loop .out = true ∧ (w.pipes .out).Ready)
      (herr : err = true ↔ reads w.loop .err = true ∧ (w.pipes .err).Ready)
        (hsome : out = true ∨ err = true) :
    Step cap w .work { w with phase := if out then .readOut err else .readErr none }
  | pollInterrupted (hphase : w.phase = .poll) (hrunning : w.loop.running = true) :
    Step cap w .pause { w with loop := w.loop.round .interrupted }
  | pollFailed (hphase : w.phase = .poll) (hrunning : w.loop.running = true) :
    Step cap w .fault { w with loop := w.loop.round .failed }
  | readOut {err : Bool} {room : Nat} {a : Answer UInt8 Bytes} {p : Pipe}
    (hphase : w.phase = .readOut err)
      (hroom : capture.room w.loop.out = some room) (hgives : (w.pipes .out).Gives room a p) :
    Step cap w (label a)
      { w with
        pipes := Function.update w.pipes .out p, loop := w.loop.round (.ready (some a) none),
        phase := if err then .readErr (some a) else .poll }
  | readErr {out : Option (Answer UInt8 Bytes)} {a : Answer UInt8 Bytes} {p : Pipe}
    (hphase : w.phase = .readErr out) (hgives : (w.pipes .err).Gives 8192 a p) :
    Step cap w (label a)
      { w with
        pipes := Function.update w.pipes .err p, loop :=
          w.loop.round (.ready none (some a)), phase := .poll }

inductive Run (cap : Stream → Nat) (w₀ : World) : List Label → World → Prop
  | nil : Run cap w₀ [] w₀
  | cons {l : Label} {ls : List Label} {w w' : World} (h : Run cap w₀ ls w) (hs : Step cap w l w') :
    Run cap w₀ (l :: ls) w'

def outputs (script : List (Stream × UInt8)) (s : Stream) : Bytes :=
  (script.filter (·.1 = s)).map Prod.snd

end Model

section Progress
variable {cap : Stream → Nat} {w w' w₀ : World} {l : Label} {ls : List Label}

structure Placed (w : World) : Prop where
  readOut : ∀ err, w.phase = .readOut err → reads w.loop .out = true ∧ (w.pipes .out).Ready ∧
    (err = true → reads w.loop .err = true ∧ (w.pipes .err).Ready)
  readErr : ∀ out, w.phase = .readErr out → reads w.loop .err = true ∧ (w.pipes .err).Ready

theorem Placed.mono (h : Placed w) (hphase : w'.phase = w.phase) (hloop : w'.loop = w.loop)
    (hready : ∀ s, (w.pipes s).Ready → (w'.pipes s).Ready) : Placed w' := by
  refine ⟨fun err herr => ?_, fun out hout => ?_⟩
  · obtain ⟨hopen, hout, hrest⟩ := h.readOut err (hphase.symm.trans herr)
    rw [hloop]
    exact ⟨hopen, hready _ hout, fun he => ⟨(hrest he).1, hready _ (hrest he).2⟩⟩
  · obtain ⟨hopen, hmessages⟩ := h.readErr out (hphase.symm.trans hout)
    rw [hloop]
    exact ⟨hopen, hready _ hmessages⟩

theorem Placed.atPoll (hphase : w.phase = .poll ∨ w.phase = .ended) : Placed w := by
  refine ⟨fun err herr => ?_, fun out hout => ?_⟩
  · rcases hphase with h | h <;> cases h.symm.trans herr
  · rcases hphase with h | h <;> cases h.symm.trans hout

theorem ready_update {s : Stream} {p : Pipe} (hp : (w.pipes s).Ready → p.Ready) (s' : Stream)
    (hready : (w.pipes s').Ready) : (Function.update w.pipes s p s').Ready := by
  by_cases hs : s' = s
  · subst hs
    rw [Function.update_self]
    exact hp hready
  · rwa [Function.update_of_ne hs]

theorem round_out (loop : Pump) (a : Answer UInt8 Bytes) :
    loop.round (.ready (some a) none) = { loop with out := capture.step loop.out a } := rfl

theorem Step.placed (h : Step cap w l w') (hw : Placed w) : Placed w' := by
  cases h with
  | write _ _ _ => exact hw.mono rfl rfl (ready_update fun _ => .inl (by simp))
  | refused _ _ => exact hw.mono rfl rfl fun _ hs => hs
  | exit _ _ => exact hw.mono rfl rfl (ready_update fun _ => .inr rfl)
  | finish _ _ => exact .atPoll (.inr rfl)
  | @poll out err _ _ hout herr hsome =>
    refine ⟨fun e he => ?_, fun o ho => ?_⟩
    · cases out with
      | false => cases he
      | true =>
        obtain rfl : err = e := Phase.readOut.inj he
        obtain ⟨hopen, hready⟩ := hout.mp rfl
        exact ⟨hopen, hready, herr.mp⟩
    · cases out with
      | false => exact herr.mp (hsome.resolve_left Bool.false_ne_true)
      | true => cases ho
  | pollInterrupted _ _ => exact hw
  | pollFailed hphase _ => exact .atPoll (.inl hphase)
  | @readOut err room a p hphase _ _ =>
    obtain ⟨-, -, hrest⟩ := hw.readOut err hphase
    cases err with
    | false => exact .atPoll (.inl rfl)
    | true =>
      obtain ⟨hopen, hready⟩ := hrest rfl
      have hsame : Function.update w.pipes .out p .err = w.pipes .err :=
        Function.update_of_ne (by decide) _ _
      refine ⟨fun e he => ?_, fun o _ => ⟨hopen, hsame.symm ▸ hready⟩⟩
      cases he
  | readErr _ _ => exact .atPoll (.inl rfl)

theorem Run.placed (h : Run cap w₀ ls w) (hw₀ : Placed w₀) : Placed w := by
  induction h with
  | nil => exact hw₀
  | cons _ hs ih => exact hs.placed ih

theorem Pipe.Ready.gives {p : Pipe} (h : p.Ready) {room : Nat} (hroom : 0 < room) :
    ∃ chunk p', p.Gives room (.data chunk) p' := by
  by_cases hbuffer : p.buffer = []
  · exact ⟨[], p, .ended hbuffer (h.resolve_left fun hne => hne hbuffer)⟩
  · obtain ⟨b, rest, hcons⟩ := List.exists_cons_of_ne_nil hbuffer
    exact ⟨[b], _, .data (List.cons_ne_nil b []) hroom hcons⟩

theorem capture_room {s : Captured} (hopen : s.isOpen = true) :
    ∃ room, capture.room s = some room ∧ 0 < room := by
  simp only [capture, hopen, Bool.not_true, Bool.false_eq_true, if_false]
  split
  · rename_i hkeeps
    simp only [Captured.keeps, decide_eq_true_eq] at hkeeps
    exact ⟨_, rfl, by omega⟩
  · exact ⟨8192, rfl, by decide⟩

/-- The loop can poll as soon as one of its pipes is ready. -/
theorem poll_ready (hphase : w.phase = .poll) (hrunning : w.loop.running = true) {s : Stream}
    (hreads : reads w.loop s = true) (hready : (w.pipes s).Ready) : ∃ w', Step cap w .work w' := by
  classical
  have hflag : ∀ t, decide (reads w.loop t = true ∧ (w.pipes t).Ready) = true ↔
      reads w.loop t = true ∧ (w.pipes t).Ready :=
    fun _ => decide_eq_true_iff
  refine ⟨_, .poll hphase hrunning (hflag .out) (hflag .err) ?_⟩
  cases s with
  | out => exact .inl ((hflag .out).mpr ⟨hreads, hready⟩)
  | err => exact .inr ((hflag .err).mpr ⟨hreads, hready⟩)

theorem step_or_ready (hcap : ∀ s, 0 < cap s) {s : Stream} {b : UInt8}
    {rest : List (Stream × UInt8)} (hscript : w.script = (s, b) :: rest) :
    (∃ w', Step cap w .work w') ∨ reads w.loop s = true ∧ (w.pipes s).Ready := by
  cases hreads : reads w.loop s with
  | false => exact .inl ⟨_, @Step.refused _ _ s b rest [] hscript hreads⟩
  | true =>
    by_cases hroom : (w.pipes s).buffer.length < cap s
    · exact .inl ⟨_, .write hscript hreads hroom⟩
    · refine .inr ⟨rfl, .inl fun hempty => hroom ?_⟩
      rw [hempty]
      exact hcap s

theorem reads_of_running (h : w.loop.running = true) : ∃ s, reads w.loop s = true := by
  simp only [Pump.running, Bool.and_eq_true, Bool.or_eq_true] at h
  rcases h.2 with hout | herr
  · exact ⟨.out, hout⟩
  · exact ⟨.err, herr⟩

theorem Placed.progress (hw : Placed w) (hcap : ∀ s, 0 < cap s) (hover : w.phase ≠ .ended) :
    ∃ w', Step cap w .work w' := by
  cases hphase : w.phase with
  | ended => exact absurd hphase hover
  | readOut err =>
    obtain ⟨hopen, hready, -⟩ := hw.readOut err hphase
    obtain ⟨room, hroom, hpos⟩ := capture_room hopen
    obtain ⟨chunk, p', hgives⟩ := hready.gives hpos
    exact ⟨_, .readOut hphase hroom hgives⟩
  | readErr out =>
    obtain ⟨-, hready⟩ := hw.readErr out hphase
    obtain ⟨chunk, p', hgives⟩ := hready.gives (show 0 < 8192 by decide)
    exact ⟨_, .readErr hphase hgives⟩
  | poll =>
    cases hrunning : w.loop.running with
    | false => exact ⟨_, .finish hphase hrunning⟩
    | true =>
      cases hscript : w.script with
      | cons next rest =>
        rcases step_or_ready hcap hscript with hstep | ⟨hreads, hready⟩
        · exact hstep
        · exact poll_ready hphase hrunning hreads hready
      | nil =>
        obtain ⟨s, hreads⟩ := reads_of_running hrunning
        cases hwriter : (w.pipes s).writer with
        | true => exact ⟨_, .exit hscript hwriter⟩
        | false => exact poll_ready hphase hrunning hreads (.inr hwriter)

end Progress

section Content
variable {cap : Stream → Nat} {w w' : World} {l : Label} {ls : List Label}
  {content : Stream → Bytes}

def remains (w : World) (s : Stream) : Bytes := (w.pipes s).buffer ++ outputs w.script s

theorem outputs_cons (s s' : Stream) (b : UInt8) (rest : List (Stream × UInt8)) :
    outputs ((s, b) :: rest) s' = if s = s' then b :: outputs rest s' else outputs rest s' := by
  unfold outputs
  by_cases hs : s = s' <;> simp [hs]

theorem update_same {β : Type} (f : Pipe → β) {pipes : Stream → Pipe} {s : Stream} {p : Pipe}
    (hf : f p = f (pipes s)) (s' : Stream) : f (Function.update pipes s p s') = f (pipes s') := by
  by_cases hs : s' = s
  · subst hs
    rw [Function.update_self, hf]
  · rw [Function.update_of_ne hs]

/-- Without a fault nothing is lost between curl and the loop. -/
structure Filled (content : Stream → Bytes) (w : World) : Prop where
  out : Holds (content .out) w.loop.out (remains w .out)
  err : w.loop.errors.flatten ++ remains w .err = content .err
  closed : w.loop.errOpen = false → remains w .err = []
  ended : ∀ s, (w.pipes s).writer = false → w.script = []
  broken : w.loop.broken = false
  stopped : w.phase = .ended → w.loop.running = false

theorem Filled.of_remains (h : Filled content w) (hloop : w'.loop = w.loop)
    (hremains : ∀ s, remains w' s = remains w s)
    (hended : ∀ s, (w'.pipes s).writer = false → w'.script = [])
    (hover : w'.phase = .ended → w.loop.running = false) :
    Filled content w' where
  out := by
    rw [hloop, hremains]
    exact h.out
  err := by
    rw [hloop, hremains]
    exact h.err
  closed := by
    rw [hloop, hremains]
    exact h.closed
  ended := hended
  broken := by
    rw [hloop]
    exact h.broken
  stopped := by
    rw [hloop]
    exact hover

theorem remains_write {s : Stream} {b : UInt8} {rest : List (Stream × UInt8)}
    (hscript : w.script = (s, b) :: rest) (s' : Stream) :
    remains
      { w with
        script := rest
        pipes := Function.update w.pipes s { w.pipes s with buffer := (w.pipes s).buffer ++ [b] } }
      s' = remains w s' := by
  rw [remains, remains, hscript, outputs_cons]
  by_cases hs : s' = s
  · subst hs
    simp
  · rw [if_neg fun h => hs h.symm]
    simp [Function.update_of_ne hs]

theorem Pipe.Gives.remains {s : Stream} {room : Nat} {a : Answer UInt8 Bytes} {p : Pipe}
    (h : (w.pipes s).Gives room a p)
    (hended : (w.pipes s).writer = false → w.script = []) (hfault : label a ≠ .fault) :
    Reading.Gives (Draining.remains w s) room a (p.buffer ++ outputs w.script s) ∧
      p.writer = (w.pipes s).writer := by
  rw [Draining.remains]
  cases h with
  | @data chunk rest hne hfits hbuffer =>
    rw [hbuffer, List.append_assoc]
    exact ⟨.data hfits fun hnil => absurd hnil hne, rfl⟩
  | ended hbuffer hwriter =>
    rw [hbuffer, hended hwriter]
    exact ⟨@Reading.Gives.data _ _ [] [] _ (Nat.zero_le room) fun _ => rfl, rfl⟩
  | interrupted => exact ⟨.interrupted, rfl⟩
  | failed e => exact absurd rfl hfault

theorem Filled.read (h : Filled content w) (w' : World) {s : Stream} {p : Pipe}
    (hpipes : w'.pipes = Function.update w.pipes s p) (hscript : w'.script = w.script)
      (hwriter : p.writer = (w.pipes s).writer) :
    (∀ s', (w'.pipes s').writer = false → w'.script = []) ∧
    remains w' s = p.buffer ++ outputs w.script s ∧
      ∀ s', s' ≠ s → remains w' s' = remains w s' := by
  refine ⟨fun s' hs' => ?_, ?_, fun s' hne => ?_⟩
  · rw [hpipes, update_same Pipe.writer hwriter] at hs'
    exact hscript.trans (h.ended s' hs')
  · rw [remains, hpipes, hscript, Function.update_self]
  · rw [remains, hpipes, hscript, Function.update_of_ne hne]
    rfl

theorem readErr_passes {loop : Pump} {rest left : Bytes} {room : Nat} {a : Answer UInt8 Bytes}
    {text : Bytes}
    (hopen : loop.errOpen = true) (htext : loop.errors.flatten ++ rest = text)
    (hgives : Gives rest room a left) :
    (loop.readErr a).errors.flatten ++ left = text ∧
    ((loop.readErr a).errOpen = false → left = []) := by
  cases hgives with
  | interrupted => exact ⟨htext, fun h => nomatch hopen.symm.trans h⟩
  | @data chunk rest _ hfits hends =>
    cases chunk with
    | nil => exact ⟨htext, fun _ => hends rfl⟩
    | cons b chunk =>
      refine ⟨?_, fun h => ?_⟩
      · rw [← htext]
        simp [Pump.readErr]
      · exact nomatch hopen.symm.trans h

theorem Filled.unread (h : Filled content w) {s : Stream} (hreads : reads w.loop s = false) :
    outputs w.script s = [] := by
  cases s with
  | out =>
    obtain ⟨taken, -, -, hclosed⟩ := h.out
    exact (List.append_eq_nil_iff.mp (hclosed hreads)).2
  | err => exact (List.append_eq_nil_iff.mp (h.closed hreads)).2

theorem Step.filled (h : Step cap w l w') (hplaced : Placed w) (hw : Filled content w)
    (hfault : l ≠ .fault) : Filled content w' := by
  cases h with
  | @write s b rest hscript _ _ =>
    refine hw.of_remains rfl (remains_write hscript) (fun s' hs' => ?_) hw.stopped
    have hwriter : (w.pipes s').writer = false :=
      (update_same Pipe.writer (by rfl) s').symm.trans hs'
    cases hscript.symm.trans (hw.ended s' hwriter)
  | @refused s b rest rest' hscript hreads =>
    have hnone := hw.unread hreads
    rw [hscript, outputs_cons, if_pos rfl] at hnone
    cases hnone
  | @exit s hscript _ =>
    refine hw.of_remains rfl (fun s' => ?_) (fun _ _ => hscript) hw.stopped
    exact congrArg (· ++ outputs w.script s') (update_same Pipe.buffer (by rfl) s')
  | finish _ hover => exact hw.of_remains rfl (fun _ => rfl) hw.ended fun _ => hover
  | @poll out err _ _ _ _ _ =>
    refine hw.of_remains rfl (fun _ => rfl) hw.ended fun hover => ?_
    cases out <;> cases hover
  | pollInterrupted _ _ => exact hw
  | pollFailed _ _ => exact absurd rfl hfault
  | @readOut err room a p _ hroom hgives =>
    obtain ⟨hread, hwriter⟩ := hgives.remains (hw.ended .out) hfault
    obtain ⟨hended, hout, hother⟩ := hw.read { w with
      pipes := Function.update w.pipes .out p, loop := w.loop.round (.ready (some a) none),
      phase := if err then .readErr (some a) else .poll } rfl rfl hwriter
    refine ⟨?_, ?_, ?_, hended, hw.broken, fun hover => ?_⟩
    · rw [hout]
      exact hw.out.step hroom hread
    · rw [hother .err (by decide)]
      exact hw.err
    · rw [hother .err (by decide)]
      exact hw.closed
    · cases err <;> cases hover
  | @readErr out a p hphase hgives =>
    obtain ⟨hread, hwriter⟩ := hgives.remains (hw.ended .err) hfault
    obtain ⟨hended, herr, hother⟩ := hw.read { w with
      pipes := Function.update w.pipes .err p
      loop := w.loop.round (.ready none (some a))
      phase := .poll } rfl rfl hwriter
    have hopen : w.loop.errOpen = true := (hplaced.readErr out hphase).1
    have hloop : w.loop.round (.ready none (some a)) = w.loop.readErr a := if_pos hopen
    obtain ⟨hpassed, hclosed⟩ := readErr_passes hopen hw.err hread
    obtain ⟨hsame, hbroken⟩ := readErr_frame w.loop a
    refine ⟨?_, ?_, ?_, hended, ?_, nofun⟩
    · rw [hother .out (by decide)]
      rw [hloop, hsame]
      exact hw.out
    · rw [herr, hloop]
      exact hpassed
    · rw [herr, hloop]
      exact hclosed
    · rw [hloop, hbroken]
      exact hw.broken

end Content

section Cost
variable {cap : Stream → Nat} {w w' : World} {l : Label} {ls : List Label}
  {content : Stream → Bytes}

def phaseCost : Phase → Nat
  | .poll => 2
  | .readOut _ => 1
  | .readErr _ | .ended => 0

def pipeCost (p : Pipe) (isOpen : Bool) : Nat :=
  3 * p.buffer.length + 3 * isOpen.toNat + p.writer.toNat

def cost (w : World) : Nat :=
  4 * w.script.length + pipeCost (w.pipes .out) w.loop.out.isOpen +
    pipeCost (w.pipes .err) w.loop.errOpen + phaseCost w.phase

/-- Work that is done and the pauses in between. -/
def Label.cost : Label → Nat × Nat
  | .work => (1, 0)
  | .pause | .fault => (0, 2)

theorem Label.paid (l : Label) : 2 ≤ l.cost.2 + 2 * l.cost.1 := by
  cases l <;> decide

theorem Pipe.Gives.cost {p p' : Pipe} {room : Nat} {a : Answer UInt8 Bytes} (h : p.Gives room a p')
    (hfault : label a ≠ .fault)
    (isOpen : Bool) (hclosed : a = .data [] → isOpen = false) :
    pipeCost p' isOpen + 3 * (label a).cost.1 ≤ pipeCost p true := by
  unfold pipeCost
  have hone : isOpen.toNat ≤ 1 := Bool.toNat_le isOpen
  cases h with
  | @data chunk rest hne _ hbuffer =>
    have hpos := List.length_pos_of_ne_nil hne
    rw [hbuffer, List.length_append]
    simp only [label, Label.cost, Bool.toNat_true]
    omega
  | ended _ _ =>
    rw [hclosed rfl]
    simp only [label, Label.cost, Bool.toNat_true, Bool.toNat_false]
    omega
  | interrupted =>
    simp only [label, Label.cost, Bool.toNat_true]
    omega
  | failed e => exact absurd rfl hfault

theorem Step.cost (h : Step cap w l w') (hplaced : Placed w) (hw : Filled content w)
    (hfault : l ≠ .fault) : cost w' + l.cost.1 ≤ cost w + l.cost.2 := by
  cases h with
  | @write s b rest hscript hreads _ =>
    cases s <;> simp [Draining.cost, pipeCost, Label.cost, hscript] <;> omega
  | @refused s b rest rest' hscript hreads =>
    have hnone := hw.unread hreads
    rw [hscript, outputs_cons, if_pos rfl] at hnone
    cases hnone
  | @exit s _ hwriter =>
    cases s with
    | out | err =>
      simp only [Draining.cost, pipeCost, ne_eq, reduceCtorEq, not_false_eq_true,
        Function.update_of_ne,
        Function.update_self, Bool.toNat_false, Label.cost, hwriter, Bool.toNat_true]
      omega
  | finish hphase _ => simp [Draining.cost, phaseCost, Label.cost, hphase]
  | @poll out err hphase _ _ _ _ => cases out <;> simp [Draining.cost, phaseCost,
    Label.cost, hphase]
  | pollInterrupted _ _ => exact Nat.le_add_right _ _
  | pollFailed _ _ => exact absurd rfl hfault
  | @readOut err room a p hphase _ hgives =>
    have hopen : w.loop.out.isOpen = true := (hplaced.readOut err hphase).1
    have hcost := hgives.cost hfault (capture.step w.loop.out a).isOpen (by
      rintro rfl
      simp [capture, hopen, Captured.read])
    simp only [Draining.cost, round_out, Function.update_self,
      Function.update_of_ne (show Stream.err ≠ .out by decide), hphase,
      hopen, phaseCost]
    have hpaid := (label a).paid
    cases err <;> simp only [if_true, Bool.false_eq_true, if_false] <;> omega
  | @readErr out a p hphase hgives =>
    have hopen : w.loop.errOpen = true := (hplaced.readErr out hphase).1
    have hloop : w.loop.round (.ready none (some a)) = w.loop.readErr a := if_pos hopen
    have hcost := hgives.cost hfault (w.loop.readErr a).errOpen (by
      rintro rfl
      rfl)
    simp only [Draining.cost, hloop, (readErr_frame w.loop a).1, Function.update_self,
      Function.update_of_ne (show Stream.out ≠ .err by decide), hphase, hopen, phaseCost]
    have hpaid := (label a).paid
    omega

end Cost

section Account
variable {cap : Stream → Nat} {w w' w₀ : World} {l : Label} {ls : List Label}
  {content : Stream → Bytes}

/-- The rounds of the loop so far, without the one that has just read the output. -/
def Accounted (w : World) : Prop := ∃ rounds,
  match w.phase with
  | .readErr (some a) => (pump rounds).running = true ∧
    (pump rounds).round (.ready (some a) none) = w.loop
  | _ => pump rounds = w.loop

theorem pump_snoc {rounds : List Round} (hrunning : (pump rounds).running = true) (r : Round) :
    pump (rounds ++ [r]) = (pump rounds).round r := by
  simp only [pump, List.foldl_append, List.foldl_cons, List.foldl_nil]
  exact if_pos hrunning

theorem running_of_reads {loop : Pump} (hbroken : loop.broken = false) {s : Stream}
    (hreads : reads loop s = true) : loop.running = true := by
  cases s <;> simp only [reads] at hreads <;> simp [Pump.running, hbroken, hreads]

theorem Accounted.congr (h : Accounted w) (hphase : w'.phase = w.phase) (hloop : w'.loop = w.loop) :
    Accounted w' := by
  unfold Accounted
  rw [hphase, hloop]
  exact h

theorem Accounted.settled (h : Accounted w) (hphase : ∀ a, w.phase ≠ .readErr (some a)) :
    ∃ rounds, pump rounds = w.loop := by
  obtain ⟨rounds, hrounds⟩ := h
  cases hp : w.phase with
  | readErr out =>
    cases out with
    | none => exact ⟨rounds, by simpa [hp] using hrounds⟩
    | some a => exact absurd hp (hphase a)
  | _ => exact ⟨rounds, by simpa [hp] using hrounds⟩

theorem Step.accounted (h : Step cap w l w') (hplaced : Placed w) (hw : Filled content w)
    (hfault : l ≠ .fault) (haccounted : Accounted w) : Accounted w' := by
  cases h with
  | write _ _ _ => exact haccounted.congr rfl rfl
  | refused _ _ => exact haccounted.congr rfl rfl
  | exit _ _ => exact haccounted.congr rfl rfl
  | finish hphase _ => exact haccounted.settled fun a ha => by cases hphase.symm.trans ha
  | @poll out err hphase _ _ _ _ =>
    obtain ⟨rounds, hrounds⟩ := haccounted.settled fun a ha => by cases hphase.symm.trans ha
    cases out <;> exact ⟨rounds, hrounds⟩
  | pollInterrupted _ _ => exact haccounted
  | pollFailed _ _ => exact absurd rfl hfault
  | @readOut err room a p hphase _ _ =>
    obtain ⟨rounds, hrounds⟩ := haccounted.settled fun a ha => by cases hphase.symm.trans ha
    have hrunning : (pump rounds).running = true := by
      rw [hrounds]
      exact running_of_reads hw.broken (hplaced.readOut err hphase).1
    cases err with
    | true => exact ⟨rounds, hrunning, congrArg (Pump.round · (.ready (some a) none)) hrounds⟩
    | false => exact ⟨rounds ++ [.ready (some a) none],
        (pump_snoc hrunning _).trans (congrArg (Pump.round · (.ready (some a) none)) hrounds)⟩
  | @readErr out a p hphase _ =>
    cases out with
    | none =>
      obtain ⟨rounds, hrounds⟩ := haccounted.settled fun a ha => by cases hphase.symm.trans ha
      have hrunning : (pump rounds).running = true := by
        rw [hrounds]
        exact running_of_reads hw.broken (hplaced.readErr none hphase).1
      exact ⟨rounds ++ [.ready none (some a)],
        (pump_snoc hrunning _).trans (congrArg (Pump.round · (.ready none (some a))) hrounds)⟩
    | some b =>
      obtain ⟨rounds, hrounds⟩ := haccounted
      rw [hphase] at hrounds
      obtain ⟨hrunning, hloop⟩ := hrounds
      have hround : (pump rounds).round (.ready (some b) (some a)) =
          w.loop.round (.ready none (some a)) :=
        congrArg (Pump.round · (.ready none (some a))) hloop
      exact ⟨rounds ++ [.ready (some b) (some a)], (pump_snoc hrunning _).trans hround⟩

/-- All that holds in the course of a run without a fault. -/
structure Sound (content : Stream → Bytes) (w : World) : Prop where
  placed : Placed w
  filled : Filled content w
  accounted : Accounted w

theorem Step.sound (h : Step cap w l w') (hw : Sound content w) (hfault : l ≠ .fault) :
    Sound content w' :=
  ⟨h.placed hw.placed, h.filled hw.placed hw.filled hfault,
    h.accounted hw.placed hw.filled hfault hw.accounted⟩

theorem start_sound (script : List (Stream × UInt8)) : Sound (outputs script) { script } where
  placed := .atPoll (.inl rfl)
  filled := ⟨⟨[], rfl, rfl, nofun⟩, rfl, nofun, nofun, rfl, nofun⟩
  accounted := ⟨[], rfl⟩

theorem count_work (l : Label) (ls : List Label) :
    (l :: ls).count .work = ls.count .work + l.cost.1 := by
  cases l <;> simp [Label.cost]

theorem count_pause (hfault : l ≠ .fault) (ls : List Label) :
    2 * (l :: ls).count .pause = 2 * ls.count .pause + l.cost.2 := by
  cases l with
  | work => simp [Label.cost]
  | pause => simp [Label.cost, Nat.mul_succ]
  | fault => exact absurd rfl hfault

theorem Run.sound (h : Run cap w₀ ls w) (hw₀ : Sound content w₀) (hfault : .fault ∉ ls) :
    Sound content w ∧ cost w + ls.count .work ≤ cost w₀ + 2 * ls.count .pause := by
  induction h with
  | nil => exact ⟨hw₀, by simp⟩
  | @cons l ls w w' _ hs ih =>
    obtain ⟨hl, hls⟩ := not_or.mp (List.mem_cons.not.mp hfault)
    obtain ⟨hw, hcost⟩ := ih hls
    have hstep := hs.cost hw.placed hw.filled (Ne.symm hl)
    refine ⟨hs.sound hw (Ne.symm hl), ?_⟩
    rw [count_work, count_pause (Ne.symm hl)]
    omega

theorem Run.trans {ls' : List Label} (h : Run cap w₀ ls w) (h' : Run cap w ls' w') :
    Run cap w₀ (ls' ++ ls) w' := by
  induction h' with
  | nil => exact h
  | cons _ hs ih => exact ih.cons hs

/-- Work alone brings a run to its end. -/
theorem Sound.completes (hw : Sound content w) (hcap : ∀ s, 0 < cap s) : ∃ ls w', Run cap w ls w' ∧
    (∀ l ∈ ls, l = .work) ∧ w'.phase = .ended := by
  induction hcost : cost w using Nat.strong_induction_on generalizing w with
  | _ n ih =>
    by_cases hover : w.phase = .ended
    · exact ⟨[], w, .nil, nofun, hover⟩
    · obtain ⟨w₁, hs⟩ := hw.placed.progress hcap hover
      have hless := hs.cost hw.placed hw.filled nofun
      simp only [Label.cost] at hless
      obtain ⟨ls, w', hrun, hls, hend⟩ := ih (cost w₁) (by omega) (hs.sound hw nofun) rfl
      refine ⟨ls ++ [.work], w', (Run.nil.cons hs).trans hrun, fun l hl => ?_, hend⟩
      rcases List.mem_append.mp hl with hl | hl
      · exact hls l hl
      · exact List.mem_singleton.mp hl

theorem Sound.arrived (hw : Sound content w) (hover : w.phase = .ended) :
    w.loop.out.body = (content .out).take (HM_BODY_MAX - 1) ∧ w.loop.errors.flatten = content .err ∧
      ∃ rounds, pump rounds = w.loop := by
  have hstopped := hw.filled.stopped hover
  simp only [Pump.running, hw.filled.broken, Bool.not_false, Bool.true_and,
    Bool.or_eq_false_iff] at hstopped
  obtain ⟨taken, htaken, hbody, hclosed⟩ := hw.filled.out
  refine ⟨?_, ?_, hw.accounted.settled fun a ha => by cases hover.symm.trans ha⟩
  · rw [hclosed hstopped.1, List.append_nil] at htaken
    rw [hbody, htaken]
  · have herr := hw.filled.err
    rwa [hw.filled.closed hstopped.2, List.append_nil] at herr

end Account

section Runs
variable {cap : Stream → Nat} {script : List (Stream × UInt8)} {ls : List Label} {w : World}

/-- The two sides never wait for each other: until the loop is over one of them can go on, faults or
not. -/
theorem never_stuck (hcap : ∀ s, 0 < cap s) (hrun : Run cap { script } ls w)
    (hover : w.phase ≠ .ended) : ∃ w', Step cap w .work w' :=
  (hrun.placed (.atPoll (.inl rfl))).progress hcap hover

def brief : List (Stream × UInt8) := [(.out, 104), (.err, 119), (.out, 105)]

theorem never_stuck_brief : ∃ w', Step (fun _ => 1) { script := brief } .work w' :=
  never_stuck (fun _ => Nat.one_pos) .nil nofun

/-- Without a fault of the kernel the loop ends after so many steps, whatever the order of the two
sides, the sizes of the pipes and of the reads; and it ends with what curl has written, the output
as far as it fits and the messages whole. -/
theorem curl_drained (hcap : ∀ s, 0 < cap s) (hrun : Run cap { script } ls w)
    (hfault : .fault ∉ ls) : ls.count .work ≤ 4 * script.length + 10 + 2 * ls.count .pause ∧
    (∃ ls' w', Run cap w ls' w' ∧ (∀ l ∈ ls', l = .work) ∧ w'.phase = .ended) ∧
    (w.phase = .ended → w.loop.errors.flatten = outputs script .err ∧ ∃ rounds,
      pump rounds = w.loop ∧ ∀ curl, runCurl curl (.forked rounds (.exited 0)) = some
          (.ok ((outputs script .out).take (HM_BODY_MAX - 1)))) := by
  obtain ⟨hw, hcost⟩ := hrun.sound (start_sound script) hfault
  refine ⟨?_, hw.completes hcap, fun hover => ?_⟩
  · have hstart : cost { script } = 4 * script.length + 10 := rfl
    omega
  · obtain ⟨hbody, herrors, rounds, hrounds⟩ := hw.arrived hover
    refine ⟨herrors, rounds, hrounds, fun curl => ?_⟩
    simp only [runCurl, hrounds, hw.filled.stopped hover, Bool.false_eq_true, if_false, hbody]

theorem curl_drained_brief : ∃ ls w, Run (fun _ => 1) { script := brief } ls w ∧ w.phase = .ended ∧
    w.loop.errors.flatten = [119] ∧ ∀ curl, ∃ rounds,
      runCurl curl (.forked rounds (.exited 0)) = some (.ok [104, 105]) := by
  have hone : ∀ s : Stream, 0 < (fun _ : Stream => 1) s := fun _ => Nat.one_pos
  obtain ⟨-, ⟨ls, w, hrun, hls, hover⟩, -⟩ :=
    curl_drained hone (@Run.nil _ { script := brief }) List.not_mem_nil
  have hfault : .fault ∉ ls := fun hmem => nomatch hls _ hmem
  obtain ⟨-, -, hend⟩ := curl_drained hone hrun hfault
  obtain ⟨herrors, rounds, -, hbody⟩ := hend hover
  exact ⟨ls, w, hrun, hover, herrors, fun curl => ⟨rounds, hbody curl⟩⟩

end Runs

end Hacman.Draining
