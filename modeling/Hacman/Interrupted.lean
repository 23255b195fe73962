import Hacman.Reaping

/-!
# No signal is lost

From `forward_signals_begin` to `forward_signals_end` a termination signal is recorded; before and
behind them it kills hacman. Every way out of `hm_install` behind them calls
`forward_signals_reraise` or has found `setup_signal` clear.
-/

namespace Hacman.Interrupted
open Machine Reaping

section Model
variable (i : Inherited)

def arrived (es : List Event) : List Sig :=
  es.filterMap fun
    | .signal sig _ => if sig ∈ i.ignored then none else some sig
    | _ => none

/-- The signal that hacman dies of; with none it returns. -/
def forwardSignalsReraise (m : Vars) : Option Sig := m.setupSignal

/-- How `hm_install` ends: a signal has killed hacman, or everything is cleaned up and the signal
that was recorded is raised again. -/
inductive Ending
  | killed
  | raised (sig : Sig)
  | returned
  deriving DecidableEq, Repr

def ending (s : State) : Option Ending :=
  match s.here with
  | .killed => some .killed
  | .done =>
    match forwardSignalsReraise s.vars with
    | some sig => some (.raised sig)
    | none => some .returned
  | _ => none

end Model

section Runs
variable {i : Inherited} {s s' : State} {sigs : List Sig} {es : List Event} {e : Event}

def Early (here : At) : Prop := here = .clearChild ∨ here = .clearSignal

structure Kept (i : Inherited) (sigs : List Sig) (s : State) : Prop where
  killed : s.here = .killed → sigs ≠ []
  recorded : s.here ≠ .killed → ¬ Early s.here → s.vars.setupSignal = sigs.getLast?
  early : Early s.here → s.forwarding = [] ∧ sigs = []
  handled : ∀ sig ∈ s.forwarding, sig ∉ i.ignored

def interrupted : List Event :=
  untilExit ++ [.signal .int .user, .signal .term .user] ++ List.replicate 7 .next

end Runs

end Hacman.Interrupted
