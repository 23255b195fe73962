import Hacman.Requests

/-!
# Cache paths and the buffer limit

The directory is selected, anchored at the current directory, extended by the key
and by a suffix. Every stage stops at 1023 bytes. `keptDir` is what the stages make
of the selected directory; both paths are the first 1023 bytes of the full spelling
behind it.
-/

namespace Hacman.CachePaths
open Octets Util Cache Config Interaction Main Requests

section Spelling
variable (l : Launch)

def selectedDir : Option Bytes :=
  (given l.opts.cacheDir).orElse fun _ => (given l.startup.cache).orElse fun _ =>
    (given l.startup.home).map (· ++ defaultSuffix)

def absDir (dir : Bytes) : Option Bytes :=
  if dir.head? = some SLASH then some dir else l.startup.cwd.map (· ++ [SLASH] ++ dir)

def workSuffix : Bytes := ascii ".work"

end Spelling

section Slot
variable (l : Launch)

/-- The record path and the work directory carry the full spelling. -/
def SlotExact (c : Slot) : Prop :=
  ∃ dir abs, selectedDir l = some dir ∧ absDir l dir = some abs ∧
    c.path = abs ++ [SLASH] ++ c.key ∧ c.workdir = abs ++ [SLASH] ++ c.key ++ workSuffix

def Fits : Prop :=
  ∃ dir abs, selectedDir l = some dir ∧ absDir l dir = some abs ∧
    abs.length + 26 ≤ HM_PATH_MAX

end Slot

section Run
variable (l : Launch)

/-- Either nothing is touched, or the slot carries the full spelling. -/
def PathsExact : Prop :=
  match prepare l with
  | .exit _ _ => True
  | .unpack _ _ => True
  | .plan _ c => SlotExact l c
  | .run _ c _ => SlotExact l c

def BelowCache (workdir : Bytes) : Prop :=
  ∃ dir abs key, selectedDir l = some dir ∧ absDir l dir = some abs ∧
    workdir = abs ++ [SLASH] ++ key ++ workSuffix

def ResetsBelow : Call → Prop
  | .reset workdir => BelowCache l workdir
  | _ => True

def Touches : Call → Prop
  | .openLock _ | .reset _ | .materialize _ _ | .command _ _ _ _ | .install _ _ _ _ _ _
  | .save _ _ | .unpack _ _ => True
  | _ => False

def Rejected (t : List (Interaction.Event calls)) (out : Outcome) : Prop :=
  (∃ code, out = .exit code ∧ code ≠ HM_EXIT_OK ∧ code ≠ HM_EXIT_CHANGED) ∧
    ∀ e ∈ t, ¬ Touches e.req

/-- Any world in which a record is found at first as it is on `disk`; the flag says that one
was looked at. -/
def startingFrom (disk : Bytes → Except ReadFault (Option Bytes)) : Env calls Bool where
  answers looked r x looked' :=
    match r, x with
    | .read path, x => (looked = false → x = disk path) ∧ looked' = true
    | _, _ => looked' = looked

def NeverShortened (disk : Bytes → Except ReadFault (Option Bytes)) : Prop :=
  ∀ t out looked, Steps (startingFrom disk) (main l) false t (.done out) looked →
    (Rejected t out ∨ PathsExact l) ∧ ∀ e ∈ t, ResetsBelow l e.req

variable {l} {disk : Bytes → Except ReadFault (Option Bytes)}

theorem printPlan_only (texts : List Bytes) : (printPlan texts).Only (ResetsBelow l) := by
  induction texts with
  | nil => trivial
  | cons text texts ih => exact ⟨trivial, fun _ => ih⟩

theorem SlotExact.belowCache {c : Slot} (h : SlotExact l c) : BelowCache l c.workdir := by
  obtain ⟨dir, abs, hdir, habs, -, hw⟩ := h
  exact ⟨dir, abs, c.key, hdir, habs, hw⟩

/-- With exact paths every reset stays below the cache. -/
theorem PathsExact.resets (h : PathsExact l) : (main l).Only (ResetsBelow l) := by
  unfold main
  cases he : prepare l with
  | exit code text => exact ⟨trivial, fun _ => trivial⟩
  | unpack p target => exact ⟨trivial, fun _ => trivial⟩
  | plan p c => exact printPlan_only _
  | run p c dir =>
    have hexact : SlotExact l c := by simpa only [PathsExact, he] using h
    refine (act_footprint p l.opts c dir).mono fun r hr => ?_
    cases r with
    | reset workdir =>
      obtain rfl : workdir = c.workdir := hr
      exact hexact.belowCache
    | _ => exact trivial

theorem PathsExact.never (h : PathsExact l) : NeverShortened l disk :=
  fun _ _ _ hs => ⟨.inr h, (h.resets.steps hs).2⟩

end Run

section Willing
variable (disk : Bytes → Except ReadFault (Option Bytes))

def willing (looked : Bool) (r : calls.Req) : calls.Ans r × Bool :=
  match r with
  | .read path => (if looked then .ok none else disk path, true)
  | .check _ _ => (some ⟨[], []⟩, looked)
  | r => (obliging r, looked)

theorem willing_answers (looked : Bool) (r : calls.Req) :
    (startingFrom disk).answers looked r (willing disk looked r).1 (willing disk looked r).2 := by
  cases r with
  | read path =>
    refine ⟨?_, rfl⟩
    rintro rfl
    rfl
  | _ => rfl

def Gives {α : Type} (prog : P α) (Q : α → Prop) : Prop :=
  ∀ looked, Q (prog.eval (willing disk) looked).1

variable {disk} {p : Project} {o : Opts} {c : Slot} {dir : Bytes}

theorem Gives.any {α : Type} (prog : P α) : Gives disk prog fun _ => True := fun _ => trivial

theorem Gives.bind {α β : Type} {prog : P α} {f : α → P β} {Q : α → Prop} {R : β → Prop}
    (h : Gives disk prog Q) (hf : ∀ a, Q a → Gives disk (f a) R) : Gives disk (prog >>= f) R := by
  intro looked
  rw [eval_bind]
  exact hf _ (h looked) _

def Fine (rc : Nat) : Prop := rc = HM_EXIT_OK ∨ rc = HM_EXIT_CHANGED

def FineEnd (out : Outcome) : Prop := out = .replaced ∨ ∃ rc, Fine rc ∧ out = .exit rc

theorem FineEnd.not_rejected {t : List (Interaction.Event calls)} {out : Outcome}
    (h : FineEnd out) : ¬ Rejected t out := by
  rintro ⟨⟨code, rfl, hok, hchanged⟩, -⟩
  rcases h with h | ⟨rc, hrc, h⟩
  · cases h
  · cases h
    exact hrc.elim hok hchanged

/-- A run that comes past the record can end well, and then the paths have to be exact. -/
theorem NeverShortened.exact {l : Launch} (h : NeverShortened l disk)
    (hends : Gives disk (main l) FineEnd) : PathsExact l := by
  obtain ⟨t, hs⟩ := eval_steps (willing disk) (willing_answers disk) (main l) false
  exact (h _ _ _ hs).1.resolve_left (hends false).not_rejected

end Willing

section Condition
variable {l : Launch} {disk : Bytes → Except ReadFault (Option Bytes)}

end Condition

section Shortened

end Shortened

end Hacman.CachePaths
