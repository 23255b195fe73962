import Hacman.Modes
import Hacman.Watch
import Mathlib.Data.List.Chain

/-!
# Runs an interval apart

A project with an interval rests after each success until the interval is over, and never
longer: the wait that a rest reports is the whole of what is left, and a clock that has gone
backwards calls for work. Along a sequence of runs with a forward clock, two successes in a
row under one identity are recorded at least an interval apart.
-/

namespace Hacman.Spacing
open Octets Util Cache Config Interaction Main Requests Runs Modes

section Decision
variable {W : Type} {h : W → (r : calls.Req) → calls.Ans r × W} {p : Project} {o : Opts}

/-- Scheduled by an interval, plainly or with embedded files and a schedule of their own. -/
structure Periodic (p : Project) : Prop where
  every : p.schedKind = .every
  positive : 0 < p.schedInterval
  explicit : p.files ≠ [] → p.scheduleExplicit = true

theorem Periodic.wait_iff (hp : Periodic p) {r : Record} {now wait : Int} :
    scheduled p r now = .wait wait ↔ (p.files ≠ [] → r.known = true) ∧ r.lastCheck ≠ 0 ∧
      r.lastCheck ≤ now ∧ wait = r.lastCheck + p.schedInterval - now ∧ 0 < wait := by
  have hwait : ¬ (p.files ≠ [] ∧ ((!p.scheduleExplicit) = true ∨ p.schedKind = .never)) := by
    rintro ⟨hf, hn | hn⟩
    · rw [hp.explicit hf] at hn
      cases hn
    · rw [hp.every] at hn
      cases hn
  unfold scheduled
  rw [if_neg hwait, hp.every]
  by_cases hunknown : p.files ≠ [] ∧ (!r.known) = true
  · rw [if_pos hunknown]
    have hno : ¬ (p.files ≠ [] → r.known = true) := fun hk => by
      rw [hk hunknown.1] at hunknown
      exact Bool.false_ne_true hunknown.2
    simp [hno]
  · have hknown : p.files ≠ [] → r.known = true := fun hf => by
      by_contra hk
      exact hunknown ⟨hf, by simpa using hk⟩
    rw [if_neg hunknown]
    dsimp only
    split_ifs with hzero hback hover
    · simp [hzero]
    · exact iff_of_false nofun fun hall => absurd hall.2.2.1 (by omega)
    · exact iff_of_false nofun fun hall => by omega
    · rw [Decision.wait.injEq]
      constructor
      · rintro rfl
        exact ⟨hknown, hzero, by omega, by omega, by omega⟩
      · rintro ⟨-, -, -, rfl, -⟩
        omega

theorem Periodic.due (hp : Periodic p) {r : Record} {now : Int}
    (hnow : now < r.lastCheck ∨ r.lastCheck + p.schedInterval ≤ now) :
    scheduled p r now = .due := by
  cases hd : scheduled p r now with
  | due => rfl
  | wait wait =>
    obtain ⟨-, -, hle, hwait, hpos⟩ := hp.wait_iff.mp hd
    omega

theorem isDue_present (hthere : ∀ w, h w (.access p.binPath) = (true, w)) (hf : o.force = false)
    (r : Record) (now : Int) (checkBin : Bool) (w : W) :
    (isDue p r now o checkBin).eval h w = (scheduled p r now, w) := by
  rw [eval_isDue h p o true (hthere w)]
  simp [decides, hf]

end Decision

section Histories
variable {path : Bytes}

def regular (since : Int) : Terms where
  reads file x := ∀ content, x = .ok content → content = file
  clock now := since ≤ now ∧ 0 < now ∧ now ≤ LONG_MAX
  probe there := there = true

/-- A run that has saved its record: the time in it is when the run is taken to have started. -/
structure Success where
  id : Bytes
  interval : Int
  time : Int

def successes (v : Invocation path) (a : Account) : List Success :=
  if a.saved then
    [⟨v.id, v.p.schedInterval, (hmCacheLoad v.id a.record).lastCheck⟩]
  else []

/-- Runs one after the other in one slot, from any record: the record and the clock they
leave, and the successes among them. -/
inductive Sequence (path : Bytes) : Option Bytes → Int → List Success → Prop
  | start (record : Option Bytes) (now : Int) : Sequence path record now []
  | next {v : Invocation path} {record : Option Bytes} {now now' : Int} {runs : List Success}
      {t : List (Interaction.Event calls)} {out : Outcome} {a : Account}
      (hbefore : Sequence path record now runs) (hp : Periodic v.p) (hf : v.o.force = false)
      (hrun : Steps (keeper (regular now)).env v.prog { record := record } t (.done out) a)
      (hclock : now ≤ now' ∧ ∀ look ∈ a.looks, look.2 ≤ now') :
      Sequence path a.record now' (runs ++ successes v a)

/-- The later of two successes is an interval after the earlier. -/
def Spaced (s s' : Success) : Prop := s.id = s'.id → s'.interval ≤ s'.time - s.time

def SavedAt (record : Option Bytes) (id : Bytes) (time : Int) : Prop :=
  ∃ r, record = some (recordBytes id r) ∧ r.lastCheck = time ∧ r.mark.length ≤ HM_MARK_MAX ∧
    0 < time ∧ time ≤ LONG_MAX

theorem SavedAt.load {record : Option Bytes} {v : Invocation path} {time : Int}
    (h : SavedAt record v.id time) : (hmCacheLoad v.id record).known = true ∧
      (hmCacheLoad v.id record).lastCheck = time := by
  obtain ⟨r, rfl, rfl, hmark, hpos, hmax⟩ := h
  rw [load_recordBytes v.one_line v.short hmark, if_pos rfl]
  exact ⟨rfl, (parseEpoch_decimal hmax).trans (max_eq_left hpos.le)⟩

theorem ended_update {T : Terms} {p : Project} {o : Opts} {c : Slot} {record : Option Bytes}
    {out : Outcome} {a : Account} (h : Ended T p o c record out a) :
    (a.saved = true ∧ ∃ look, look ∈ a.looks ∧ T.reads record (.ok look.1) ∧ T.clock look.2 ∧
        Calls T p o c look ∧ ∃ r, Watch.Update (hmCacheLoad c.identity look.1) look.2 r ∧
          a.record = some (recordBytes c.identity r)) ∨
      a.saved = false ∧ a.record = record := by
  cases h with
  | stopped => exact .inr ⟨rfl, rfl⟩
  | rested => exact .inr ⟨rfl, rfl⟩
  | @worked file looks now _ rc held held' a' hlast hlooks hcalls hwork hout =>
    have hmem := List.mem_of_getLast? hlast
    have hlook := hlooks _ hmem
    have hframe : a'.looks = looks := hwork.frame.2
    have hsave : ∀ r, Watch.Update (hmCacheLoad c.identity file) now r →
        (a'.saved = true ∧ a'.record = some (recordBytes c.identity r) ∨
          a'.saved = false ∧ a'.record = record) → (a'.saved = true ∧ ∃ look, look ∈ a'.looks ∧
            T.reads record (.ok look.1) ∧ T.clock look.2 ∧ Calls T p o c look ∧
            ∃ r, Watch.Update (hmCacheLoad c.identity look.1) look.2 r ∧
              a'.record = some (recordBytes c.identity r)) ∨ a'.saved = false ∧
                a'.record = record := by
      rintro r hr (⟨hsaved, hrecord⟩ | hkept)
      · exact .inl ⟨hsaved, (file, now), hframe ▸ hmem, hlook.1, hlook.2, hcalls _ hmem,
          r, hr, hrecord⟩
      · exact .inr hkept
    unfold Worked at hwork
    cases hk : p.kind with
    | command =>
      rw [hk] at hwork
      cases hwork with
      | inspected => exact .inr ⟨rfl, rfl⟩
      | adopted _ _ hs => exact hsave _ .ran (hs.kept rfl)
      | ran _ _ hc hs =>
        cases hc
        exact hsave _ .ran (hs.kept rfl)
      | failed _ _ hc => cases hc <;> exact .inr ⟨rfl, rfl⟩
    | url =>
      rw [hk] at hwork
      cases hwork with
      | unheard => exact .inr ⟨rfl, rfl⟩
      | unchanged _ _ _ hs => exact hsave _ .checked (hs.kept rfl)
      | inspected => exact .inr ⟨rfl, rfl⟩
      | adopted _ _ _ _ _ hs => exact hsave _ (.installed _) (hs.kept rfl)
      | installed _ _ _ _ _ hc hs =>
        cases hc
        exact hsave _ (.installed _) (hs.kept rfl)
      | failed _ _ _ _ _ hc => cases hc <;> exact .inr ⟨rfl, rfl⟩

theorem update_lastCheck {r r' : Record} {now : Int} (h : Watch.Update r now r') :
    r'.lastCheck = now := by
  cases h <;> rfl

/-- A run that rests or fails leaves the record; one that succeeds leaves its own, and its
time is an interval after a record of the same identity. -/
theorem run_spaced {v : Invocation path} {record : Option Bytes} {now : Int}
    {t : List (Interaction.Event calls)} {out : Outcome} {a : Account} (hp : Periodic v.p)
    (hf : v.o.force = false)
    (hrun : Steps (keeper (regular now)).env v.prog { record := record } t (.done out) a) :
    (successes v a = [] ∧ a.record = record) ∨ ∃ time look, look ∈ a.looks ∧ time = look.2 ∧
      successes v a = [⟨v.id, v.p.schedInterval, time⟩] ∧ SavedAt a.record v.id time ∧ now ≤ time ∧
        ∀ earlier ≤ now, SavedAt record v.id earlier → v.p.schedInterval ≤ time - earlier := by
  rcases ended_update (act_ended v.run hrun) with
    ⟨hsaved, ⟨file, time⟩, hmem, hread, ⟨hsince, hpos, hmax⟩, hcalls, r, hr, hrecord⟩ | ⟨hno, hkept⟩
  · have hsavedAt : SavedAt a.record v.id time := ⟨r, hrecord, update_lastCheck hr,
      hr.mark_length (hmCacheLoad_mark_length _ _), hpos, hmax⟩
    refine .inr ⟨time, (file, time), hmem, rfl, ?_, hsavedAt, hsince,
      fun earlier hle hearlier => ?_⟩
    · rw [successes, if_pos hsaved, hsavedAt.load.2]
    · have hdue : scheduled v.p (hmCacheLoad v.id record) time = .due := by
        rw [← hread file rfl]
        rcases hcalls with hforce | ⟨-, hgone⟩ | hdue
        · cases hforce.symm.trans hf
        · cases hgone
        · exact hdue
      by_contra hclose
      have hload := hearlier.load
      have hearly : 0 < earlier := by
        obtain ⟨-, -, -, -, hearly, -⟩ := hearlier
        exact hearly
      have hwait : scheduled v.p (hmCacheLoad v.id record) time =
          .wait (earlier + v.p.schedInterval - time) := by
        rw [hp.wait_iff, hload.1, hload.2]
        exact ⟨fun _ => rfl, by omega, by omega, rfl, by omega⟩
      rw [hdue] at hwait
      cases hwait
  · exact .inl ⟨by rw [successes, hno]; rfl, hkept⟩

/-- The record is the last success, at a time the clock has passed. -/
theorem sequence_spaced {record : Option Bytes} {now : Int} {runs : List Success}
    (h : Sequence path record now runs) : runs.IsChain Spaced ∧
      ∀ s, runs.getLast? = some s → SavedAt record s.id s.time ∧ s.time ≤ now := by
  induction h with
  | start => exact ⟨.nil, nofun⟩
  | @next v record now now' runs t out a _ hp hf hrun hclock ih =>
    rcases run_spaced hp hf hrun with ⟨hnone, hkept⟩ | ⟨time, look, hmem, htime, hone,
      hsaved, -, hgap⟩
    · rw [hnone, List.append_nil, hkept]
      exact ⟨ih.1, fun s hs => ⟨(ih.2 s hs).1, (ih.2 s hs).2.trans hclock.1⟩⟩
    · rw [hone]
      constructor
      · refine List.isChain_append.mpr ⟨ih.1, .singleton _, fun s hs s' hs' hid => ?_⟩
        obtain rfl := Option.some.inj hs'
        obtain ⟨hrecord, hle⟩ := ih.2 s hs
        have hsame : s.id = v.id := hid
        exact hgap s.time hle (hsame ▸ hrecord)
      · intro s hs
        rw [List.getLast?_concat, Option.some.injEq] at hs
        subst hs
        exact ⟨hsaved, htime ▸ hclock.2 look hmem⟩

/-- A rest reports a wait within the interval, after which the project is due; a clock that
is behind the record is due; successes in a row are an interval apart. -/
theorem no_stalling {W : Type} {h : W → (r : calls.Req) → calls.Ans r × W} {p : Project} {o : Opts}
    (hp : Periodic p) (hf : o.force = false) (hthere : ∀ w, h w (.access p.binPath) = (true, w)) :
    (∀ r now checkBin w wait, ((isDue p r now o checkBin).eval h w).1 = .wait wait →
      0 < wait ∧ wait ≤ p.schedInterval ∧ ∀ now' checkBin' w', now + wait ≤ now' →
        ((isDue p r now' o checkBin').eval h w').1 = .due) ∧
    (∀ r now checkBin w, now < r.lastCheck → ((isDue p r now o checkBin).eval h w).1 = .due) ∧
    ∀ path record now runs, Sequence path record now runs → runs.IsChain Spaced := by
  refine ⟨fun r now checkBin w wait hwait => ?_, fun r now checkBin w hback => ?_,
    fun path record now runs hseq => (sequence_spaced hseq).1⟩
  · rw [isDue_present hthere hf] at hwait
    obtain ⟨-, -, hle, rfl, hpos⟩ := hp.wait_iff.mp hwait
    refine ⟨hpos, by omega, fun now' checkBin' w' hlater => ?_⟩
    rw [isDue_present hthere hf]
    exact hp.due (.inr (by omega))
  · rw [isDue_present hthere hf]
    exact hp.due (.inl hback)

def hourly : Project :=
  { command := ascii "c", kind := .command, schedKind := .every, schedInterval := 3600 }

def present (w : Unit) (r : calls.Req) : calls.Ans r × Unit := (obliging r, w)

theorem no_stalling_hourly :
    ((isDue hourly { lastCheck := 1000, known := true } 2000 {} true).eval present ()).1 =
    .wait 2600 ∧
      ((isDue hourly { lastCheck := 1000, known := true } 4600 {} true).eval present ()).1 =
        .due := by
  have hwait : ((isDue hourly { lastCheck := 1000, known := true } 2000 {} true).eval present
    ()).1 = .wait 2600 := by decide +kernel
  have hlaw := no_stalling (h := present) (o := {}) (⟨rfl, by decide, fun hf => absurd rfl hf⟩ :
    Periodic hourly) rfl fun _ => rfl
  exact ⟨hwait, (hlaw.1 _ _ _ _ _ hwait).2.2 4600 true () (by decide)⟩

end Histories

end Hacman.Spacing
