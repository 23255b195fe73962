import Hacman.Inspection
import Hacman.Modes
import Hacman.Watch

/-!
# Concurrent invocations of one project

Any number of processes work in one slot. The world holds the record, the holder of
the update lock and the saves so far; a load or a save is one step, as a record is
read by one `read` and replaced by one `rename`. What each process has seen is kept by
its watch, and the two are related by one invariant.
-/

namespace Hacman.Updates
open Octets Util Cache Config Interaction Main Requests Watch

section World
variable {ι : Type} [DecidableEq ι]

structure Save (ι : Type) where
  author : ι
  setUp : Bool
  content : Bytes
  deriving DecidableEq, Repr

/-- `seen` counts the saves before each process's last load, `ready` marks the
processes whose setup has completed. -/
structure World (ι : Type) where
  record : Option Bytes := none
  holder : Option ι := none
  saves : List (Save ι) := []
  seen : ι → Nat := fun _ => 0
  ready : ι → Bool := fun _ => false

def World.load (w : World ι) (i : ι) : World ι :=
  { w with seen := Function.update w.seen i w.saves.length }

def World.take (w : World ι) (i : ι) : World ι := { w with holder := some i }

def World.leave (w : World ι) (i : ι) : World ι :=
  { w with holder := if w.holder = some i then none else w.holder }

def World.ended (w : World ι) (i : ι) (done : Bool) : World ι :=
  if done then { w with ready := Function.update w.ready i true } else w

def World.save (w : World ι) (i : ι) (content : Bytes) : World ι :=
  { w with record := some content, saves := w.saves ++ [⟨i, w.ready i, content⟩] }

/-- The lock excludes; everything else a process can be told is left open. -/
def slot : Shared calls ι (World ι) where
  answers w i r x w' :=
    match r, x with
    | .read _, .ok content => content = w.record ∧ w' = w.load i
    | .setlk, .ok => w.holder = none ∧ w' = w.take i
    | .setlkw, none => w.holder = none ∧ w' = w.take i
    | .closeLock, _ => w' = w.leave i
    | .command _ _ _ _, done => w' = w.ended i done
    | .install _ _ _ _ _ _, done => w' = w.ended i done
    | .save _ content, true => w' = w.save i content
    | _, _ => w' = w

end World

section System
variable {ι : Type} [DecidableEq ι] {path : Bytes} (v : ι → Invocation path)

abbrev watches (i : ι) : Monitor calls := watch (v i).p (v i).o (v i).c

abbrev System := Config (watches v) (World ι) Outcome

def start (record : Option Bytes) : System v where
  procs i := (v i).prog
  knows _ := {}
  world := { record := record }

structure Agrees (w : World ι) (i : ι) (q : Knows) : Prop where
  held : q.held = true ↔ w.holder = some i
  loaded : q.held = true → q.sure = true → q.saved = false →
    w.record = q.file ∧ w.seen i = w.saves.length
  past : w.seen i ≤ w.saves.length

structure Consistent (c : System v) : Prop where
  safe : c.AllSafe (fun i => Guard (v i).p (v i).o (v i).c) (fun i => Post (v i).p (v i).o (v i).c)
  agrees : ∀ i, Agrees c.world i (c.knows i)

omit [DecidableEq ι] in
theorem start_consistent (record : Option Bytes) : Consistent v (start v record) := by
  refine ⟨fun i => ?_, fun i => ⟨by simp [start], nofun, le_rfl⟩⟩
  change (v i).prog.Safe _ _ _ ({} : Knows)
  rw [(v i).prog_eq]
  exact act_walks (v i).cacheDir

variable {v}

inductive Effect (Content : Bytes → Prop) (w : World ι) (i : ι) : World ι → Prop
  | none : Effect Content w i w
  | load : Effect Content w i (w.load i)
  | take : w.holder = .none → Effect Content w i (w.take i)
  | leave : Effect Content w i (w.leave i)
  | ended (done : Bool) : Effect Content w i (w.ended i done)
  | save (content : Bytes) : w.holder = some i → Content content →
      Effect Content w i (w.save i content)

theorem slot_effect {w w' : World ι} {i : ι} {q : Knows} {r : Call} {x : r.Answer}
    {p : Project} {o : Opts} {c : Slot} (h : Agrees w i q) (hg : Guard p o c q r)
    (hx : slot.answers w i r x w') : Effect (fun content => ∃ r,
      Update (q.record c.identity) q.now r ∧ content = recordBytes c.identity r) w i w' := by
  cases r with
  | read file =>
    rcases x with fault | content
    · obtain rfl : w' = w := hx
      exact .none
    · rw [hx.2]
      exact .load
  | setlk =>
    cases x with
    | ok =>
      rw [hx.2]
      exact .take hx.1
    | busy =>
      obtain rfl : w' = w := hx
      exact .none
    | failed =>
      obtain rfl : w' = w := hx
      exact .none
  | setlkw =>
    cases x with
    | none =>
      rw [hx.2]
      exact .take hx.1
    | some reason =>
      obtain rfl : w' = w := hx
      exact .none
  | closeLock =>
    obtain rfl : w' = w.leave i := hx
    exact .leave
  | command p' workdir dir trace =>
    obtain rfl : w' = w.ended i x := hx
    exact .ended x
  | install p' mark res workdir dir trace =>
    obtain rfl : w' = w.ended i x := hx
    exact .ended x
  | save file content =>
    cases x with
    | false =>
      obtain rfl : w' = w := hx
      exact .none
    | true =>
      obtain rfl : w' = w.save i content := hx
      exact .save content (h.held.mp hg.1.held) hg.2.2
  | _ =>
    obtain rfl : w' = w := hx
    exact .none

theorem Effect.record {w w' : World ι} {i : ι} {Content : Bytes → Prop}
    (h : Effect Content w i w') (hs : w'.saves ≠ []) :
    (w.saves ≠ [] ∧ w'.record = w.record) ∨ ∃ content, Content content ∧
    w'.record = some content := by
  cases h with
  | ended done => cases done <;> exact .inl ⟨hs, rfl⟩
  | save content _ hc => exact .inr ⟨content, hc, rfl⟩
  | _ => exact .inl ⟨hs, rfl⟩

/-- The step of one process leaves another one's agreement alone. -/
theorem Agrees.other {w w' : World ι} {i j : ι} {q : Knows} {Content : Bytes → Prop}
    (h : Agrees w j q) (hj : j ≠ i) (he : Effect Content w i w') : Agrees w' j q := by
  cases he with
  | none => exact h
  | load =>
    have hseen : (w.load i).seen j = w.seen j := Function.update_of_ne hj ..
    exact ⟨h.held, fun h₁ h₂ h₃ => by rw [hseen]; exact h.loaded h₁ h₂ h₃,
      by rw [hseen]; exact h.past⟩
  | take hfree =>
    have hheld : ¬ q.held = true := by rw [h.held, hfree]; exact nofun
    refine ⟨iff_of_false hheld ?_, fun h₁ => absurd h₁ hheld, h.past⟩
    simpa [World.take] using hj.symm
  | leave =>
    refine ⟨h.held.trans ?_, h.loaded, h.past⟩
    simp only [World.leave]
    split_ifs with hi
    · simp [hi, hj.symm]
    · rfl
  | ended done => cases done <;> exact ⟨h.held, h.loaded, h.past⟩
  | save content hi _ =>
    have hheld : ¬ q.held = true := by
      rw [h.held, hi]
      simpa using hj.symm
    refine ⟨h.held, fun h₁ => absurd h₁ hheld, ?_⟩
    simpa [World.save] using Nat.le_succ_of_le h.past

/-- Nor does a process's own step part it from the world. -/
theorem Agrees.own {w w' : World ι} {i : ι} {q : Knows} {r : Call} {x : r.Answer}
    (h : Agrees w i q) (hx : slot.answers w i r x w') : Agrees w' i (q.next r x) := by
  have htake : Agrees (w.take i) i { q with held := true, sure := false } :=
    ⟨by simp [World.take], fun _ hs => absurd hs (by simp), h.past⟩
  cases r with
  | read file =>
    rcases x with fault | content
    · obtain rfl : w' = w := hx
      exact h
    · obtain ⟨rfl, rfl⟩ := hx
      have hseen : (w.load i).seen i = w.saves.length := Function.update_self ..
      exact ⟨h.held, fun _ _ _ => ⟨rfl, hseen⟩, hseen.le⟩
  | setlk =>
    cases x with
    | ok =>
      obtain ⟨-, rfl⟩ := hx
      exact htake
    | busy =>
      obtain rfl : w' = w := hx
      exact h
    | failed =>
      obtain rfl : w' = w := hx
      exact h
  | setlkw =>
    cases x with
    | none =>
      obtain ⟨-, rfl⟩ := hx
      exact htake
    | some reason =>
      obtain rfl : w' = w := hx
      exact h
  | closeLock =>
    obtain rfl : w' = w.leave i := hx
    refine ⟨iff_of_false (by simp [Knows.next]) ?_, fun hh => absurd hh (by simp [Knows.next]),
      h.past⟩
    simp only [World.leave]
    split_ifs with hi
    · exact nofun
    · exact hi
  | command p' workdir dir trace =>
    obtain rfl : w' = w.ended i x := hx
    cases x <;> exact ⟨h.held, h.loaded, h.past⟩
  | install p' mark res workdir dir trace =>
    obtain rfl : w' = w.ended i x := hx
    cases x <;> exact ⟨h.held, h.loaded, h.past⟩
  | save file content =>
    cases x with
    | false =>
      obtain rfl : w' = w := hx
      exact ⟨h.held, fun h₁ h₂ h₃ => h.loaded h₁ h₂ (by simpa [Knows.next] using h₃), h.past⟩
    | true =>
      obtain rfl : w' = w.save i content := hx
      refine ⟨h.held, fun _ _ hs => absurd hs (by simp [Knows.next]), ?_⟩
      simpa [World.save] using Nat.le_succ_of_le h.past
  | exec file argv =>
    obtain rfl : w' = w := hx
    cases x <;> exact ⟨h.held, h.loaded, h.past⟩
  | check p' timeout =>
    obtain rfl : w' = w := hx
    cases x <;> exact ⟨h.held, h.loaded, h.past⟩
  | _ =>
    obtain rfl : w' = w := hx
    exact ⟨h.held, h.loaded, h.past⟩

theorem Consistent.step {c c' : System v} {i : ι} {e : Interaction.Event calls}
    (h : Consistent v c) (hs : c.Step slot i e c')
    (ha : (watches v i).assume (c.knows i) e.req e.ans) : Consistent v c' := by
  refine ⟨h.safe.step hs ha, fun j => ?_⟩
  cases hs with
  | @mk r k x w hp hx =>
    have hsafe := h.safe i
    rw [hp] at hsafe
    by_cases hj : j = i
    · subst hj
      simp only [Function.update_self]
      exact (h.agrees j).own hx
    · simp only [Function.update_of_ne hj]
      exact (h.agrees j).other hj (slot_effect (h.agrees i) hsafe.1 hx)

def Unrefreshed (c : System v) (i : ι) (e : Interaction.Event calls) : Prop :=
  (v i).o.inspects = true → ¬ Refreshing (v i).p (v i).c ((c.knows i).next e.req e.ans)

/-- What is about to be saved comes from a load under the lock that is still held, and
nothing has been saved since. -/
structure SavesOwnLoad (c : System v) (i : ι) (content : Bytes) : Prop where
  holds : c.world.holder = some i
  locked : (c.knows i).held = true ∧ (c.knows i).sure = true
  current : c.world.seen i = c.world.saves.length
  loaded : c.world.record = (c.knows i).file
  computed : ∃ r, Update ((c.knows i).record (v i).id) (c.knows i).now r ∧
    content = recordBytes (v i).id r

omit [DecidableEq ι] in
theorem Consistent.savesOwnLoad {c : System v} (h : Consistent v c) {i : ι} {file content : Bytes}
    (hp : (c.procs i).pending = some (.save file content)) : SavesOwnLoad c i content := by
  obtain ⟨k, hk⟩ := pending_eq hp
  have hsafe := h.safe i
  rw [hk] at hsafe
  obtain ⟨hworking, -, hcontent⟩ := hsafe.1
  obtain ⟨hloaded, hcurrent⟩ :=
    (h.agrees i).loaded hworking.held hworking.sure hworking.saved
  exact ⟨(h.agrees i).held.mp hworking.held, ⟨hworking.held, hworking.sure⟩, hcurrent, hloaded,
    hcontent⟩

/-- As long as no inspection comes to a refresh, every save in every interleaving is
computed from the record it replaces, loaded under the lock. -/
theorem no_lost_update {record : Option Bytes} {c : System v}
    (h : Config.Reach slot Unrefreshed (start v record) c) {i : ι} {file content : Bytes}
    (hp : (c.procs i).pending = some (.save file content)) : SavesOwnLoad c i content := by
  have hconsistent : Consistent v c := by
    apply h.invariant (start_consistent v record)
    intro c i e c' hc hs hstep
    exact hc.step hs hstep
  exact hconsistent.savesOwnLoad hp

end System

section Overwritten

def urlPath : Bytes := ascii "/c/url-0000000000000000"

theorem urlSlot_path : Modes.urlSlot.path = urlPath := rfl

def inspected (forced : Bool) : Invocation urlPath where
  l := { Inspection.dryLaunch with
    opts := {
      file := some (ascii "p.siml")
      cacheDir := some (ascii "/c")
      dryRun := !forced
      force := forced } }
  p := Modes.urlProject false
  c := Modes.urlSlot
  cacheDir := ascii "/c"
  run := by cases forced <;> decide +kernel
  at_path := urlSlot_path
  version := by cases forced <;> decide

def grant (marks : Bool → Bytes) (now : Int) (i : Bool) (w : World Bool) (r : calls.Req) :
    calls.Ans r × World Bool :=
  match r with
  | .read _ => (.ok w.record, w.load i)
  | .time => (now, w)
  | .setlk => if w.holder = none then (.ok, w.take i) else (.busy, w)
  | .setlkw => if w.holder = none then (none, w.take i) else (some (ascii "Interrupted"), w)
  | .closeLock => ((), w.leave i)
  | .command _ _ _ _ => (true, w.ended i true)
  | .check _ _ => (some { mark := marks i }, w)
  | .install _ _ _ _ _ _ => (true, w.ended i true)
  | .save _ content => (true, w.save i content)
  | r => (obliging r, w)

theorem grant_answers (marks : Bool → Bytes) (now : Int) (i : Bool) (w : World Bool) (r : Call) :
    slot.answers w i r (grant marks now i w r).1 (grant marks now i w r).2 := by
  cases r with
  | read file => exact ⟨rfl, rfl⟩
  | setlk =>
    simp only [grant]
    split_ifs with h
    · exact ⟨h, rfl⟩
    · rfl
  | setlkw =>
    simp only [grant]
    split_ifs with h
    · exact ⟨h, rfl⟩
    · rfl
  | _ => rfl

def marks (i : Bool) : Bytes := if i then ascii "n" else ascii "m"

def forcedRecord : Bytes :=
  ascii "#hacman-cache 1 siml:0000000000000000 hacman:1.0\n200000\t200000\tn\n"

theorem no_lost_update_forced : ∃ (c : System inspected) (file content : Bytes),
    (c.procs true).pending = some (.save file content) ∧ SavesOwnLoad c true content := by
  have hreach : Config.Reach slot Unrefreshed (start inspected (some Inspection.seenRecord)) _ :=
    .refl
  have hreach := hreach.drive (grant_answers marks 200000) true (fun _ _ hi => by cases hi) 10
  have hp : ((start inspected (some Inspection.seenRecord)).drive (grant marks 200000) true 10
      |>.procs true).pending = some (.save urlPath forcedRecord) := by decide +kernel
  exact ⟨_, _, _, hp, no_lost_update hreach hp⟩

/-- The dry run loads, the forced run comes and goes, the dry run puts the old marker
back. -/
theorem inspection_overwrites : ∃ (c : System inspected) (file content : Bytes),
    Config.Reach slot (fun _ _ _ => True) (start inspected (some Inspection.seenRecord)) c ∧
      (c.procs false).pending = some (.save file content) ∧ ¬ SavesOwnLoad c false content := by
  have hreach : Config.Reach slot (fun _ _ _ => True)
      (start inspected (some Inspection.seenRecord)) _ := .refl
  have hreach := hreach.drive (grant_answers marks 200000) false (fun _ _ => trivial) 2
  have hreach := hreach.drive (grant_answers marks 200000) true (fun _ _ => trivial) 12
  have hreach := hreach.drive (grant_answers marks 200000) false (fun _ _ => trivial) 1
  refine ⟨_, urlPath, ascii "#hacman-cache 1 siml:0000000000000000 hacman:1.0\n200000\t100000\tm\n",
    hreach, by decide +kernel, fun h => ?_⟩
  exact absurd h.current (by decide +kernel)

end Overwritten

end Hacman.Updates
