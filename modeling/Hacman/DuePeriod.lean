import Hacman.Retry
import Hacman.Updates

/-!
# One updater per due period

Normal, unforced invocations of one project. Setups exclude each other because they
happen under the lock; a process that loads a saved record there and reads the clock
within the period it opens has nothing to do.
-/

namespace Hacman.DuePeriod
open Octets Util Cache Config Interaction Main Requests Watch Updates

section Records
variable {ι : Type} {path : Bytes}

def setsUp : Call → Bool
  | .reset _ | .materialize _ _ | .command _ _ _ _ | .install _ _ _ _ _ _ => true
  | _ => false

def SettingUp (prog : P Outcome) : Prop := prog.pending.any setsUp = true

def Updated (saves : List (Save ι)) : Prop := ∃ s ∈ saves, s.setUp = true

/-- The readings for which a loaded record leaves nothing to do. -/
def Window (p : Project) (r : Record) (now : Int) : Prop :=
  p.schedKind = .never ∨ (p.files ≠ [] ∧ p.scheduleExplicit = false) ∨
    p.schedKind = .every ∧ 0 < r.lastCheck ∧ r.lastCheck ≤ now ∧
      now < r.lastCheck + p.schedInterval

def SavedAs (id : Bytes) (file : Option Bytes) : Prop :=
  ∃ r, file = some (recordBytes id r) ∧ r.mark.length ≤ HM_MARK_MAX

theorem SavedAs.known {v : Invocation path} {file : Option Bytes} (h : SavedAs v.id file) :
    (hmCacheLoad v.id file).known = true := by
  obtain ⟨r, rfl, hr⟩ := h
  rw [load_recordBytes v.one_line v.short hr, if_pos rfl]

theorem window_fresh {p : Project} {r : Record} {now : Int} (hr : r.known = true)
    (h : Window p r now) : Fresh p r now := by
  rcases h with hnever | ⟨hf, hs⟩ | ⟨hevery, hpos, hlo, hhi⟩
  · exact .inr ⟨.inr hr, .inl hnever⟩
  · exact .inl ⟨hf, hr, .inl hs⟩
  · exact .inr ⟨.inr hr, .inr ⟨hevery, hpos.ne', hlo, hhi⟩⟩

end Records

section Crew
variable {ι : Type} [DecidableEq ι] {path : Bytes} {v : ι → Invocation path}

/-- Normal, unforced invocations of one project in one slot. -/
structure OneProject (v : ι → Invocation path) : Prop where
  normal : ∀ i, (v i).o.normal = true
  unforced : ∀ i, (v i).o.force = false
  project : ∀ i j, (v i).p = (v j).p
  slot : ∀ i j, (v i).c = (v j).c

/-- Once a setup has been completed and saved, the holder of the lock finds the
program. -/
def Provided (c : System v) (i : ι) (e : Interaction.Event calls) : Prop :=
  match e with
  | ⟨.access _, there⟩ => c.world.holder = some i → Updated c.world.saves → there = true
  | _ => True

/-- What a load under the lock found, and what the probes after it did. -/
structure Informed (w : World ι) (i : ι) (id : Bytes) (q : Knows) : Prop where
  file : q.sure = true → w.seen i ≠ 0 → SavedAs id q.file
  absent : q.sure = true → Updated (w.saves.take (w.seen i)) → q.absent = false

structure Regular (c : System v) : Prop where
  consistent : Consistent v c
  record : c.world.saves ≠ [] → ∀ i, SavedAs (v i).id c.world.record
  informed : ∀ i, Informed c.world i (v i).id (c.knows i)

omit [DecidableEq ι] in
theorem start_regular (record : Option Bytes) : Regular (start v record) :=
  ⟨start_consistent v record, nofun, fun _ => ⟨nofun, nofun⟩⟩

theorem Informed.other {w w' : World ι} {i j : ι} {id : Bytes} {q : Knows}
    {Content : Bytes → Prop} (h : Informed w j id q) (hp : w.seen j ≤ w.saves.length) (hj : j ≠ i)
    (he : Effect Content w i w') : Informed w' j id q := by
  cases he with
  | none => exact h
  | load =>
    have hseen : (w.load i).seen j = w.seen j := Function.update_of_ne hj ..
    exact ⟨fun hs hn => h.file hs (by rwa [hseen] at hn),
      fun hs hu => h.absent hs (by rwa [hseen] at hu)⟩
  | take => exact ⟨h.file, h.absent⟩
  | leave => exact ⟨h.file, h.absent⟩
  | ended done => cases done <;> exact ⟨h.file, h.absent⟩
  | save content =>
    refine ⟨h.file, fun hs hu => h.absent hs ?_⟩
    simp only [World.save] at hu
    rwa [List.take_append_of_le_length hp] at hu

/-- A load under the lock finds what was saved, a probe there finds the program. -/
theorem Informed.own {w w' : World ι} {i : ι} {id : Bytes} {q : Knows} {r : Call} {x : r.Answer}
    (h : Informed w i id q) (ha : Agrees w i q) (hrecord : w.saves ≠ [] → SavedAs id w.record)
    (hprobe : ∀ file, r = .access file → q.sure = true → q.held = true)
    (hprovided : ∀ file there, (⟨r, x⟩ : Interaction.Event calls) = ⟨.access file, there⟩ →
      w.holder = some i → Updated w.saves → there = true)
    (hx : slot.answers w i r x w') : Informed w' i id (q.next r x) := by
  have htake : ∀ w' : World ι, Informed w' i id { q with held := true, sure := false } :=
    fun _ => ⟨nofun, nofun⟩
  cases r with
  | read file =>
    rcases x with fault | content
    · obtain rfl : w' = w := hx
      exact h
    · obtain ⟨rfl, rfl⟩ := hx
      have hseen : (w.load i).seen i = w.saves.length := Function.update_self ..
      refine ⟨fun _ hn => hrecord ?_, fun _ _ => rfl⟩
      intro hnil
      rw [hseen, hnil] at hn
      exact hn rfl
  | access file =>
    obtain rfl : w' = w := hx
    refine ⟨h.file, fun hs hu => ?_⟩
    have hall : Updated w'.saves := by
      obtain ⟨s, hmem, hset⟩ := hu
      exact ⟨s, List.mem_of_mem_take hmem, hset⟩
    have hthere : x = true := hprovided file x rfl (ha.held.mp (hprobe file rfl hs)) hall
    simp [Knows.next, Knows.probe, h.absent hs hu, hthere]
  | setlk =>
    cases x with
    | ok => exact htake w'
    | busy =>
      obtain rfl : w' = w := hx
      exact h
    | failed =>
      obtain rfl : w' = w := hx
      exact h
  | setlkw =>
    cases x with
    | none => exact htake w'
    | some reason =>
      obtain rfl : w' = w := hx
      exact h
  | closeLock =>
    obtain rfl : w' = w.leave i := hx
    exact ⟨h.file, h.absent⟩
  | command p' workdir dir trace =>
    obtain rfl : w' = w.ended i x := hx
    cases x <;> exact ⟨h.file, h.absent⟩
  | install p' mark res workdir dir trace =>
    obtain rfl : w' = w.ended i x := hx
    cases x <;> exact ⟨h.file, h.absent⟩
  | save file content =>
    cases x with
    | false =>
      obtain rfl : w' = w := hx
      exact ⟨h.file, h.absent⟩
    | true =>
      obtain rfl : w' = w.save i content := hx
      refine ⟨h.file, fun hs hu => h.absent hs ?_⟩
      simp only [World.save] at hu
      rwa [List.take_append_of_le_length ha.past] at hu
  | exec file argv =>
    obtain rfl : w' = w := hx
    cases x <;> exact ⟨h.file, h.absent⟩
  | check p' timeout =>
    obtain rfl : w' = w := hx
    cases x <;> exact ⟨h.file, h.absent⟩
  | _ =>
    obtain rfl : w' = w := hx
    exact ⟨h.file, h.absent⟩

theorem Regular.step {c c' : System v} {i : ι} {e : Interaction.Event calls} (hv : OneProject v)
    (h : Regular c) (hs : c.Step slot i e c') (hp : Provided c i e) : Regular c' := by
  have hinspect := (v i).o.inspects_eq_false (hv.normal i)
  have hassume : (watches v i).assume (c.knows i) e.req e.ans :=
    fun hi => absurd (hi.symm.trans hinspect) (by decide)
  have hnext := h.consistent.step hs hassume
  cases hs with
  | @mk r k x w hk hx =>
    have hsafe := h.consistent.safe i
    rw [hk] at hsafe
    have heffect := slot_effect (h.consistent.agrees i) hsafe.1 hx
    refine ⟨hnext, fun hs j => ?_, fun j => ?_⟩
    · rcases heffect.record hs with ⟨hbefore, hsame⟩ | ⟨content, ⟨r', hupdate, rfl⟩, hsaved⟩
      · rw [hsame]
        exact h.record hbefore j
      · refine ⟨r', ?_, hupdate.mark_length (hmCacheLoad_mark_length _ _)⟩
        rw [hsaved, Invocation.id, hv.slot j i]
    · by_cases hj : j = i
      · subst hj
        simp only [Function.update_self]
        refine (h.informed j).own (h.consistent.agrees j) (fun hs => h.record hs j) ?_ ?_ hx
        · rintro file rfl
          exact hsafe.1
        · intro file there he
          rw [he] at hp
          exact hp
      · simp only [Function.update_of_ne hj]
        exact (h.informed j).other (h.consistent.agrees j).past hj heffect

theorem regular {record : Option Bytes} {c : System v} (hv : OneProject v)
    (h : Config.Reach slot Provided (start v record) c) : Regular c := by
  apply h.invariant (start_regular record)
  intro c i e c' hc hs hp
  exact hc.step hv hs hp

omit [DecidableEq ι] in
theorem SettingUp.working {c : System v} (h : Consistent v c) {i : ι}
    (hs : SettingUp (c.procs i)) : Working (v i).p (v i).o (v i).c (c.knows i) := by
  have hsafe := h.safe i
  revert hs hsafe
  cases c.procs i with
  | done out => exact fun hs => by cases hs
  | ask r k =>
    intro hs hsafe
    have hguard := hsafe.1
    cases r with
    | reset workdir => exact hguard
    | materialize files workdir => exact hguard
    | command p workdir dir trace => exact hguard.1
    | install p mark res workdir dir trace => exact hguard.1
    | _ => cases hs

/-- At most one setup runs at a time; and a process that loads the record of a completed
setup under the lock, and reads the clock within its window, sets nothing up and hands
over. -/
theorem one_updater_per_period {record : Option Bytes} {c : System v} (hv : OneProject v)
    (h : Config.Reach slot Provided (start v record) c) :
    (∀ i j, SettingUp (c.procs i) → SettingUp (c.procs j) → i = j) ∧
      ∀ i, (c.knows i).sure = true → Updated (c.world.saves.take (c.world.seen i)) →
        Window (v i).p ((c.knows i).record (v i).id) (c.knows i).now →
          ¬ SettingUp (c.procs i) ∧
            ∀ out, c.procs i = .done out → Handed out ∨ (c.knows i).refused = true := by
  have hregular := regular hv h
  have hconsistent := hregular.consistent
  constructor
  · intro i j hi hj
    have hholder := (hconsistent.agrees i).held.mp (hi.working hconsistent).held
    have hholder' := (hconsistent.agrees j).held.mp (hj.working hconsistent).held
    exact Option.some.inj (hholder.symm.trans hholder')
  · intro i hsure hupdated hwindow
    have hseen : c.world.seen i ≠ 0 := by
      intro h₀
      rw [h₀, List.take_zero] at hupdated
      obtain ⟨s, hmem, -⟩ := hupdated
      exact List.not_mem_nil hmem
    have hknown := ((hregular.informed i).file hsure hseen).known
    have hidle : ¬ Due (v i).p (v i).o (v i).c (c.knows i) := by
      rintro (hforce | habsent | hdue)
      · exact absurd (hforce.symm.trans (hv.unforced i)) (by decide)
      · exact absurd (habsent.symm.trans ((hregular.informed i).absent hsure hupdated)) (by decide)
      · exact (due_iff _ _ _).mp hdue (window_fresh hknown hwindow)
    refine ⟨fun hs => hidle (hs.working hconsistent).due, fun out hout => ?_⟩
    have hsafe := hconsistent.safe i
    rw [hout] at hsafe
    exact hsafe hsure hidle (hv.normal i)

end Crew

section Runs

def daily (_ : Bool) : Invocation (ascii "/c/cmd-0000000000000000") :=
  ⟨Retry.dailyLaunch false, Retry.dailyProject, Retry.dailySlot, ascii "/c",
    Retry.daily_run false, rfl, by decide⟩

theorem daily_oneProject : OneProject daily :=
  ⟨fun _ => rfl, fun _ => rfl, fun _ _ => rfl, fun _ _ => rfl⟩

theorem grant_provided {path : Bytes} {v : Bool → Invocation path} (i : Bool)
    (c : System v) (r : Call) : Provided c i ⟨r, (grant marks 1000 i c.world r).1⟩ := by
  cases r with
  | access file => exact fun _ _ => rfl
  | _ => trivial

/-- Both find no record; one sets up and saves, the other takes the lock next. -/
def handedOver : System daily :=
  (((start daily none).drive (grant marks 1000) true 2).drive (grant marks 1000) false 10).drive
    (grant marks 1000) true 5

def dailyContent : Bytes :=
  ascii "#hacman-cache 1 siml:0000000000000000 hacman:1.0\n1000\t1000\t\n"

theorem one_updater_per_period_daily : ¬ SettingUp (handedOver.procs true) ∧
    ∀ out, handedOver.procs true = .done out → Handed out ∨
      (handedOver.knows true).refused = true := by
  have hreach : Config.Reach slot Provided (start daily none) handedOver :=
    ((Config.Reach.refl.drive (grant_answers marks 1000) true (grant_provided true) 2).drive
      (grant_answers marks 1000) false (grant_provided false) 10).drive
        (grant_answers marks 1000) true (grant_provided true) 5
  have hupdated : Updated (handedOver.world.saves.take (handedOver.world.seen true)) :=
    ⟨⟨false, true, dailyContent⟩, by decide +kernel, rfl⟩
  exact (one_updater_per_period daily_oneProject hreach).2 true (by decide +kernel) hupdated
    (.inr (.inr ⟨rfl, by decide +kernel⟩))

def alwaysLaunch : Launch :=
  { Retry.dailyLaunch false with
    siml := fun _ => [.streamStart, .documentStart 1, .mappingStart 1,
      .scalar (ascii "command") (ascii "t") 1, .scalar (ascii "schedule") (ascii "always") 2,
      .mappingEnd 3, .documentEnd, .streamEnd]
    content := some (ascii "command: t\nschedule: always\n") }

def always (_ : Bool) : Invocation (ascii "/c/cmd-0000000000000000") :=
  ⟨alwaysLaunch, { Retry.dailyProject with schedKind := .always, scheduleExplicit := true },
    Retry.dailySlot, ascii "/c", by decide +kernel, rfl, by decide⟩

/-- One sets up and saves; the other takes the lock and reads the clock. -/
def updatedTwice : System always :=
  ((start always none).drive (grant marks 1000) false 10).drive (grant marks 1000) true 6

/-- With `schedule: always` the second process sets up as well, within the interval. -/
theorem always_sets_up_again : ∃ c : System always,
    OneProject always ∧ Config.Reach slot Provided (start always none) c ∧
      (c.knows true).sure = true ∧ Updated (c.world.saves.take (c.world.seen true)) ∧
        ((c.knows true).record (always true).id).lastCheck ≤ (c.knows true).now ∧
          (c.knows true).now < ((c.knows true).record (always true).id).lastCheck +
            (always true).p.schedInterval ∧ SettingUp (c.procs true) := by
  have hreach : Config.Reach slot Provided (start always none) updatedTwice :=
    (Config.Reach.refl.drive (grant_answers marks 1000) false (grant_provided false) 10).drive
      (grant_answers marks 1000) true (grant_provided true) 6
  have hupdated : Updated (updatedTwice.world.saves.take (updatedTwice.world.seen true)) :=
    ⟨⟨false, true, dailyContent⟩, by decide +kernel, rfl⟩
  exact ⟨updatedTwice, ⟨fun _ => rfl, fun _ => rfl, fun _ _ => rfl, fun _ _ => rfl⟩, hreach,
    by decide +kernel, hupdated, by decide +kernel, by decide +kernel,
    by unfold SettingUp; decide +kernel⟩

end Runs

end Hacman.DuePeriod
