import Hacman.Install

/-!
# What a setup prints

`hm_install` and `hm_command_run` from the fork on. Without `--trace` the output of setup and of all
it starts goes to a file that is replayed if setup fails; hacman reads it through the very file
description that setup writes with, so that both share the offset. With `--trace` standard error
comes through a pipe that hacman empties before it waits for the child.
-/

namespace Hacman.SetupOutput
open Octets Util Machine
open Cache (decimal)
open Install (Status)

section Model

inductive Setup
  | install (script : Bytes)
  | command
  deriving DecidableEq, Repr

structure Call where
  setup : Setup
  name : Bytes
  trace : Bool := false

inductive Stream | out | err
  deriving DecidableEq, Repr

inductive Phase
  | relay
  | wait
  | seek
  | replay
  | report
  | over (rc : Int)
  deriving DecidableEq, Repr

/-- What hacman says on standard error: bytes of setup through `hm_err_bytes`, the end of these, and
texts of its own. -/
inductive Say
  | bytes (chunk : Bytes)
  | streamEnd
  | text (line : Bytes)
  deriving DecidableEq, Repr

/-- `shell` is how the child has ended; `writers` says whether anything still has the capture or the
pipe open. `written` is all that was to be shown so far. -/
structure State where
  phase : Phase
  shell : Option Status := none
  writers : Bool := true
  signal : Option Nat := none
  file : Bytes := []
  offset : Nat := 0
  pipe : Bytes := []
  said : List Say := []
  written : Bytes := []
  deriving DecidableEq, Repr

inductive Event
  | write (stream : Stream) (chunk : Bytes)
  | exit (status : Status)
  | hangup
  | signal (sig : Nat)
  | interrupted
  | read (n : Nat)
  | next
  | fails (reason : Bytes)
  deriving DecidableEq, Repr

def RELAY_MAX : Nat := 8192

variable (c : Call) (capacity : Nat)

def start : State := { phase := if c.trace then .relay else .wait }

def words : Setup → Bytes × Bytes
  | .install _ => (ascii "install", ascii "install script")
  | .command => (ascii "command", ascii "command")

def line (rest : List Bytes) : Bytes := ascii "hacman: " ++ c.name ++ ascii ": " ++
    rest.flatten ++ [LF]

def report (status : Option Status) : Option Nat → List Bytes
  | some sig => [line c [(words c.setup).1, ascii " interrupted by signal ", decimal sig]]
  | none =>
    match status with
    | some (.signaled sig) =>
      [line c [(words c.setup).2, ascii " killed by signal ", decimal sig]] ++ kept
    | some (.exited code) =>
      [line c [(words c.setup).2, ascii " failed with exit code ", decimal code]] ++ kept
    | none => []
where
  kept : List Bytes :=
    match c.setup with
    | .install script => [line c [ascii "script kept at ", script]]
    | .command => []

def State.say (s : State) (say : List Say) (phase : Phase) : State :=
  { s with said := s.said ++ say, phase := phase }

def State.append (s : State) (chunk : Bytes) : State :=
  { s with
    file := s.file.take s.offset ++ chunk ++ s.file.drop (s.offset + chunk.length)
    offset := s.offset + chunk.length
    written := s.written ++ chunk }

/-- With `--trace`, standard output is hacman's own. -/
def State.write (s : State) (stream : Stream) (chunk : Bytes) : Option State :=
  if !s.writers || chunk = [] then none
  else if !c.trace then some (s.append chunk)
  else match stream with
    | .out => some s
    | .err =>
      if s.phase = .relay ∧ s.pipe.length + chunk.length ≤ capacity then
        some { s with pipe := s.pipe ++ chunk, written := s.written ++ chunk }
      else none

def State.read (s : State) (n : Nat) : Option State :=
  if n = 0 ∨ RELAY_MAX < n then none
  else match s.phase with
    | .relay =>
      if n ≤ s.pipe.length
        then some { s.say [.bytes (s.pipe.take n)] .relay with pipe := s.pipe.drop n } else none
    | .replay =>
      if s.offset + n ≤ s.file.length then
        some { s.say [.bytes ((s.file.drop s.offset).take n)] .replay with offset := s.offset + n }
      else none
    | _ => none

def failing (s : State) : Bool := s.signal.isSome || s.shell ≠ some (.exited 0)

def State.next (s : State) : Option State :=
  match s.phase with
  | .relay => if s.pipe = [] ∧ !s.writers then some (s.say [.streamEnd] .wait) else none
  | .wait =>
    if s.shell.isNone then none
    else if !failing s then some (s.say [] (.over 0))
    else some (s.say [] (if c.trace then .report else .seek))
  | .seek => some { s with offset := 0, phase := .replay }
  | .replay => if s.file.length ≤ s.offset then some (s.say [.streamEnd] .report) else none
  | .report => some (s.say ((report c s.shell s.signal).map .text) (.over (-1)))
  | .over _ => none

def State.fails (s : State) (reason : Bytes) : Option State :=
  match s.phase with
  | .relay => some (s.say [.streamEnd] .wait)
  | .wait => some (s.say [.text (ascii "hacman: waitpid() failed: " ++ reason ++ [LF])]
    (.over (-1)))
  | .seek => some (s.say [] .report)
  | .replay => some (s.say [.streamEnd] .report)
  | .report | .over _ => none

def State.supervises (s : State) : Bool := s.phase = .relay || s.phase = .wait

def step (s : State) : Event → Option State
  | .write stream chunk => s.write c capacity stream chunk
  | .exit status => if s.shell.isNone then some { s with shell := some status } else none
  | .hangup => if s.writers then some { s with writers := false } else none
  | .signal sig => if s.supervises then some { s with signal := some sig } else none
  | .interrupted => if s.supervises then some s else none
  | .read n => s.read n
  | .next => s.next c
  | .fails reason => s.fails reason

/-- No call fails, and nothing that setup has left behind writes from the replay on. -/
def quiet (s : State) : Event → Bool
  | .fails _ => false
  | .write _ _ => s.phase = .relay || s.phase = .wait || s.phase = .seek
  | _ => true

end Model

section Shown
variable {c : Call} {capacity : Nat} {s s' : State} {e : Event}

def Sized (chunks : List Bytes) : Prop := ∀ chunk ∈ chunks, chunk ≠ [] ∧ chunk.length ≤ RELAY_MAX

/-- What of setup's output has been shown, and where the rest is. -/
inductive Shows (c : Call) (s : State) (chunks : List Bytes) : Prop
  | relay : s.phase = .relay → c.trace = true → s.said = chunks.map .bytes →
    chunks.flatten ++ s.pipe = s.written → Shows c s chunks
  | relayed : s.phase = .wait → c.trace = true → s.said = chunks.map .bytes ++ [.streamEnd] →
      chunks.flatten = s.written → s.writers = false → Shows c s chunks
  | captured : s.phase = .wait ∨ s.phase = .seek ∧ failing s = true → c.trace = false →
    s.said = [] → chunks = [] → s.file = s.written → s.offset = s.file.length → Shows c s chunks
  | replay : s.phase = .replay → failing s = true → c.trace = false → s.said = chunks.map .bytes →
      s.file = s.written → chunks.flatten = s.file.take s.offset → Shows c s chunks
  | report : s.phase = .report → failing s = true → s.said = chunks.map .bytes ++ [.streamEnd] →
      chunks.flatten = s.written → Shows c s chunks
  | failed : s.phase = .over (-1) → failing s = true → chunks.flatten = s.written →
      s.said = chunks.map .bytes ++ [.streamEnd] ++ (report c s.shell s.signal).map .text →
        Shows c s chunks
  | silent : s.phase = .over 0 → failing s = false → c.trace = false → s.said = [] → chunks = [] →
    Shows c s chunks
  | traced : s.phase = .over 0 → failing s = false → c.trace = true → chunks.flatten = s.written →
      s.said = chunks.map .bytes ++ [.streamEnd] → Shows c s chunks

def Inv (c : Call) (s : State) : Prop := ∃ chunks, Sized chunks ∧ Shows c s chunks

theorem sized_nil : Sized [] := nofun

theorem Sized.snoc {chunks : List Bytes} {chunk : Bytes} (h : Sized chunks) (hne : chunk ≠ [])
    (hlen : chunk.length ≤ RELAY_MAX) : Sized (chunks ++ [chunk]) := by
  intro chunk' hchunk
  rcases List.mem_append.mp hchunk with hin | hlast
  · exact h chunk' hin
  · obtain rfl := List.mem_singleton.mp hlast
    exact ⟨hne, hlen⟩

theorem start_inv : Inv c (start c) := by
  refine ⟨[], sized_nil, ?_⟩
  cases htrace : c.trace with
  | true => exact .relay (by simp [start, htrace]) htrace rfl rfl
  | false => exact .captured (.inl (by simp [start, htrace])) htrace rfl rfl rfl rfl

theorem write_inv {stream : Stream} {chunk : Bytes} (h : Inv c s)
    (hs : s.write c capacity stream chunk = some s')
    (hquiet : quiet s (.write stream chunk) = true) : Inv c s' := by
  obtain ⟨chunks, hsized, hshows⟩ := h
  refine ⟨chunks, hsized, ?_⟩
  unfold State.write at hs
  split at hs
  · cases hs
  split at hs
  · rename_i htrace
    obtain rfl := Option.some.inj hs
    have hfile : s.file = s.written → s.offset = s.file.length →
        (s.append chunk).file = (s.append chunk).written ∧
        (s.append chunk).offset = (s.append chunk).file.length := by
      intro hfile hoffset
      simp [State.append, hfile, hoffset]
    cases hshows with
    | relay hphase ht => simp [ht] at htrace
    | relayed hphase ht => simp [ht] at htrace
    | captured hphase ht hsaid hchunks hsame hoffset =>
      exact .captured hphase ht hsaid hchunks (hfile hsame hoffset).1 (hfile hsame hoffset).2
    | replay hphase | report hphase | failed hphase | silent hphase | traced hphase =>
      simp [quiet, hphase] at hquiet
  · cases stream with
    | out =>
      obtain rfl := Option.some.inj hs
      exact hshows
    | err =>
      simp only [Option.ite_none_right_eq_some, Option.some.injEq] at hs
      obtain ⟨⟨hrelay, -⟩, rfl⟩ := hs
      cases hshows with
      | relay hphase ht hsaid
        hall => exact .relay hphase ht hsaid (by rw [← List.append_assoc, hall])
      | relayed hphase => simp [hrelay] at hphase
      | captured hphase => simp [hrelay] at hphase
      | replay hphase | report hphase | failed hphase | silent hphase | traced hphase =>
      simp [hrelay] at hphase

theorem read_inv {n : Nat} (h : Inv c s) (hs : s.read n = some s') : Inv c s' := by
  obtain ⟨chunks, hsized, hshows⟩ := h
  unfold State.read at hs
  split at hs
  · cases hs
  rename_i hn
  rw [not_or, not_lt] at hn
  split at hs
  · rename_i hrelay
    split_ifs at hs with hlen
    obtain rfl := Option.some.inj hs
    have hne : s.pipe.take n ≠ [] := by
      intro hnil
      have hzero := congrArg List.length hnil
      rw [List.length_take, Nat.min_eq_left hlen] at hzero
      exact hn.1 hzero
    refine ⟨_, hsized.snoc hne ((List.length_take_le _ _).trans hn.2), ?_⟩
    cases hshows with
    | relay hphase ht hsaid hall =>
      refine .relay rfl ht (by simp [State.say, hsaid]) ?_
      simp only [List.flatten_append,
        List.flatten_singleton, List.append_assoc, List.take_append_drop]
      exact hall
    | relayed hphase => simp [hrelay] at hphase
    | captured hphase => simp [hrelay] at hphase
    | replay hphase | report hphase | failed hphase | silent hphase | traced hphase =>
      simp [hrelay] at hphase
  · rename_i hreplay
    split_ifs at hs with hlen
    obtain rfl := Option.some.inj hs
    have htaken : ((s.file.drop s.offset).take n).length = n := by
      rw [List.length_take, List.length_drop]
      omega
    have hne : (s.file.drop s.offset).take n ≠ [] := by
      intro hnil
      rw [hnil] at htaken
      exact hn.1 htaken.symm
    refine ⟨_, hsized.snoc hne (htaken.le.trans hn.2), ?_⟩
    cases hshows with
    | replay hphase hfailing ht hsaid hfile hall =>
      refine .replay rfl hfailing ht (by simp [State.say, hsaid]) hfile ?_
      simp only [List.flatten_append, List.flatten_singleton, hall]
      exact List.take_add.symm
    | captured hphase => simp [hreplay] at hphase
    | relay hphase | relayed hphase | report hphase | failed hphase | silent hphase
    | traced hphase =>
      simp [hreplay] at hphase
  · cases hs

theorem next_inv (h : Inv c s) (hs : s.next c = some s') : Inv c s' := by
  obtain ⟨chunks, hsized, hshows⟩ := h
  refine ⟨chunks, hsized, ?_⟩
  unfold State.next at hs
  cases hshows with
  | relay hphase ht hsaid hall =>
    simp only [hphase, Option.ite_none_right_eq_some, Option.some.injEq] at hs
    obtain ⟨⟨hempty, hclosed⟩, rfl⟩ := hs
    rw [hempty, List.append_nil] at hall
    rw [Bool.not_eq_true'] at hclosed
    exact .relayed rfl ht (by simp [State.say, hsaid]) hall hclosed
  | relayed hphase ht hsaid hall hclosed =>
    simp only [hphase, ht, if_true] at hs
    split at hs
    · cases hs
    cases hfailing : failing s with
    | false =>
      simp only [hfailing, Bool.not_false, if_true, Option.some.injEq] at hs
      subst hs
      exact .traced rfl hfailing ht hall (by simp [State.say, hsaid])
    | true =>
      simp only [hfailing, Bool.not_true, if_neg Bool.false_ne_true, Option.some.injEq] at hs
      subst hs
      exact .report rfl hfailing (by simp [State.say, hsaid]) hall
  | captured hphase ht hsaid hchunks hfile hoffset =>
    rcases hphase with hphase | ⟨hphase, hfailing⟩
    · simp only [hphase, ht, if_neg Bool.false_ne_true] at hs
      split at hs
      · cases hs
      cases hfailing : failing s with
      | false =>
        simp only [hfailing, Bool.not_false, if_true, Option.some.injEq] at hs
        subst hs
        exact .silent rfl hfailing ht (by simp [State.say, hsaid]) hchunks
      | true =>
        simp only [hfailing, Bool.not_true, if_neg Bool.false_ne_true, Option.some.injEq] at hs
        subst hs
        exact .captured (.inr ⟨rfl, hfailing⟩) ht (by simp [State.say, hsaid]) hchunks hfile hoffset
    · simp only [hphase, Option.some.injEq] at hs
      obtain rfl := hs
      subst hchunks
      exact .replay rfl hfailing ht hsaid hfile rfl
  | replay hphase hfailing ht hsaid hfile hall =>
    simp only [hphase, Option.ite_none_right_eq_some, Option.some.injEq] at hs
    obtain ⟨hend, rfl⟩ := hs
    rw [List.take_of_length_le hend, hfile] at hall
    exact .report rfl hfailing (by simp [State.say, hsaid]) hall
  | report hphase hfailing hsaid hall =>
    simp only [hphase, Option.some.injEq] at hs
    obtain rfl := hs
    exact .failed rfl hfailing hall (by simp [State.say, hsaid])
  | failed hphase | silent hphase | traced hphase => simp [hphase] at hs

theorem failing_iff (s : State) :
    failing s = false ↔ s.signal = none ∧ s.shell = some (.exited 0) := by
  simp [failing]

theorem Shows.wait {shell : Option Status} {signal : Option Nat} {chunks : List Bytes}
    (h : Shows c s chunks)
    (hwait : s.phase = .relay ∨ s.phase = .wait) :
    Shows c { s with shell := shell, signal := signal } chunks := by
  cases h with
  | relay hphase ht hsaid hall => exact .relay hphase ht hsaid hall
  | relayed hphase ht hsaid hall hclosed => exact .relayed hphase ht hsaid hall hclosed
  | captured hphase ht hsaid hchunks hfile hoffset =>
    refine .captured (.inl (hphase.resolve_right fun hseek => ?_)) ht hsaid hchunks hfile hoffset
    simp [hseek.1] at hwait
  | replay hphase | report hphase | failed hphase | silent hphase | traced hphase =>
    simp [hphase] at hwait

theorem hangup_inv (h : Inv c s) : Inv c { s with writers := false } := by
  obtain ⟨chunks, hsized, hshows⟩ := h
  refine ⟨chunks, hsized, ?_⟩
  cases hshows with
  | relay hphase ht hsaid hall => exact .relay hphase ht hsaid hall
  | relayed hphase ht hsaid hall hclosed => exact .relayed hphase ht hsaid hall rfl
  | captured hphase ht hsaid hchunks hfile hoffset =>
    exact .captured hphase ht hsaid hchunks hfile hoffset
  | replay hphase hfailing ht hsaid hfile hall => exact .replay hphase hfailing ht hsaid hfile hall
  | report hphase hfailing hsaid hall => exact .report hphase hfailing hsaid hall
  | failed hphase hfailing hall hsaid => exact .failed hphase hfailing hall hsaid
  | silent hphase hfine ht hsaid hchunks => exact .silent hphase hfine ht hsaid hchunks
  | traced hphase hfine ht hall hsaid => exact .traced hphase hfine ht hall hsaid

def Waited (s : State) : Prop := s.phase = .relay ∨ s.phase = .wait ∨ s.shell.isSome = true

theorem next_waited (h : Waited s) (hs : s.next c = some s') : Waited s' := by
  unfold State.next at hs
  split at hs
  · split at hs <;> cases hs
    exact .inr (.inl rfl)
  · split at hs
    · cases hs
    · rename_i hshell
      have hsome : s.shell.isSome = true := by simpa [Option.isSome_iff_ne_none] using hshell
      split at hs <;> obtain rfl := Option.some.inj hs <;> exact .inr (.inr hsome)
  all_goals rename_i hphase
  · have hsome : s.shell.isSome = true := by simpa [Waited, hphase] using h
    cases hs
    exact .inr (.inr hsome)
  · have hsome : s.shell.isSome = true := by simpa [Waited, hphase] using h
    split at hs <;> cases hs
    exact .inr (.inr hsome)
  · have hsome : s.shell.isSome = true := by simpa [Waited, hphase] using h
    cases hs
    exact .inr (.inr hsome)
  · cases hs

theorem step_inv (h : Inv c s) (hw : Waited s) (hquiet : quiet s e = true)
    (hs : step c capacity s e = some s') : Inv c s' ∧ Waited s' := by
  cases e with
  | write stream chunk =>
    refine ⟨write_inv h hs hquiet, ?_⟩
    simp only [step, State.write] at hs
    grind [Waited, State.append]
  | read n =>
    refine ⟨read_inv h hs, ?_⟩
    simp only [step, State.read] at hs
    grind [Waited, State.say]
  | next => exact ⟨next_inv h hs, next_waited hw hs⟩
  | fails reason => cases hquiet
  | exit status =>
    simp only [step, Option.ite_none_right_eq_some, Option.some.injEq] at hs
    obtain ⟨hnone, rfl⟩ := hs
    rw [Option.isNone_iff_eq_none] at hnone
    have hwait : s.phase = .relay ∨ s.phase = .wait := by simpa [Waited, hnone] using hw
    obtain ⟨chunks, hsized, hshows⟩ := h
    exact ⟨⟨chunks, hsized, hshows.wait hwait⟩, .inr (.inr rfl)⟩
  | hangup =>
    simp only [step, Option.ite_none_right_eq_some, Option.some.injEq] at hs
    obtain ⟨-, rfl⟩ := hs
    exact ⟨hangup_inv h, hw⟩
  | signal sig =>
    simp only [step, Option.ite_none_right_eq_some, Option.some.injEq] at hs
    obtain ⟨hwait, rfl⟩ := hs
    obtain ⟨chunks, hsized, hshows⟩ := h
    exact ⟨⟨chunks, hsized, hshows.wait (by simpa [State.supervises] using hwait)⟩, hw⟩
  | interrupted =>
    simp only [step, Option.ite_none_right_eq_some, Option.some.injEq] at hs
    obtain ⟨-, rfl⟩ := hs
    exact ⟨h, hw⟩

theorem reach_inv (h : Reach (guarded (step c capacity) quiet) (start c) s) :
    Inv c s ∧ Waited s := by
  have hstart : Waited (start c) := by
    unfold start
    cases c.trace
    · exact .inr (.inl rfl)
    · exact .inl rfl
  refine h.invariant (I := fun s => Inv c s ∧ Waited s) ⟨start_inv, hstart⟩ ?_
  intro s e s' hs hstep
  obtain ⟨hquiet, hstep⟩ := guarded_eq_some.mp hstep
  exact step_inv hs.1 hs.2 hquiet hstep

theorem over_rc {rc : Int} (h : Reach (guarded (step c capacity) quiet) (start c) s)
    (hover : s.phase = .over rc) : rc = if failing s then -1 else 0 := by
  obtain ⟨⟨chunks, -, hshows⟩, -⟩ := reach_inv h
  cases hshows with
  | failed hphase hfailing =>
    rw [hfailing]
    exact Phase.over.inj (hover.symm.trans hphase)
  | silent hphase hfine | traced hphase hfine =>
    rw [hfine]
    exact Phase.over.inj (hover.symm.trans hphase)
  | captured hphase => simp [hover] at hphase
  | relay hphase | relayed hphase | replay hphase | report hphase => simp [hover] at hphase

/-- A setup that succeeds is silent without `--trace`; all that a setup prints is shown, once and in
order, if it fails, is interrupted, or is traced, with what became of it said behind. -/
theorem output_shown {rc : Int} (h : Reach (guarded (step c capacity) quiet) (start c) s)
    (hover : s.phase = .over rc) :
    (rc = 0 ↔ s.signal = none ∧ s.shell = some (.exited 0)) ∧
    ∃ chunks, Sized chunks ∧ chunks.flatten = (if c.trace = true ∨ rc ≠ 0 then s.written else []) ∧
      s.said = chunks.map .bytes ++ (if c.trace = true ∨ rc ≠ 0 then [.streamEnd] else []) ++
        if rc = 0 then [] else (report c s.shell s.signal).map .text := by
  have hrc := over_rc h hover
  obtain ⟨⟨chunks, hsized, hshows⟩, -⟩ := reach_inv h
  rw [← failing_iff]
  cases hshows with
  | failed hphase hfailing hall hsaid =>
    rw [hfailing, if_pos rfl] at hrc
    subst hrc
    exact ⟨by simp [hfailing], chunks, hsized, by simpa using hall, by simpa using hsaid⟩
  | silent hphase hfine ht hsaid hchunks =>
    rw [hfine, if_neg Bool.false_ne_true] at hrc
    subst hrc
    exact ⟨by simp [hfine], chunks, hsized, by simp [hchunks, ht], by simp [hsaid, hchunks, ht]⟩
  | traced hphase hfine ht hall hsaid =>
    rw [hfine, if_neg Bool.false_ne_true] at hrc
    subst hrc
    exact ⟨by simp [hfine], chunks, hsized, by simpa [ht] using hall, by simpa [ht] using hsaid⟩
  | captured hphase => simp [hover] at hphase
  | relay hphase | relayed hphase | replay hphase | report hphase => simp [hover] at hphase

def failedCall : Call := { setup := .command, name := [110] }

def failedRun : List Event :=
  [.write .out [97], .write .err [98], .exit (.exited 3), .hangup, .next, .next, .read 1, .read 1,
    .next, .next]

def failedEnd : State where
  phase := .over (-1)
  shell := some (.exited 3)
  writers := false
  file := [97, 98]
  offset := 2
  said := [.bytes [97], .bytes [98], .streamEnd] ++
    (report failedCall (some (.exited 3)) none).map .text
  written := [97, 98]

theorem output_shown_failed : ∃ chunks, Sized chunks ∧ chunks.flatten = [97, 98] ∧
    failedEnd.said = chunks.map .bytes ++ [.streamEnd] ++
      (report failedCall (some (.exited 3)) none).map .text := by
  have hrun : run (guarded (step failedCall 4) quiet) (start failedCall) failedRun =
      some failedEnd := by decide
  exact (output_shown (Reach.refl.run hrun) rfl).2

end Shown

end Hacman.SetupOutput
