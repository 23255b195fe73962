import Hacman.Runs

/-!
# What the modes promise

Handing over, inspecting and adopting, read off the account of a run: when the program
replaces the run, how `--check-only` foretells a normal run, and when `--adopt` has
recorded what it saw.
-/

namespace Hacman.Modes
open Octets Util Cache Config Interaction Main Requests Runs

section Launch

theorem unpackTarget_none {l : Launch} (h : unpackTarget l = .ok none) : l.opts.unpack = false := by
  cases hu : l.opts.unpack with
  | false => rfl
  | true =>
    simp only [unpackTarget, hu, Bool.not_true, Bool.false_eq_true, ↓reduceIte] at h
    split at h
    · split_ifs at h
      cases h
    · cases h

theorem prepare_run_modes {l : Launch} {p : Project} {c : Slot} {dir : Bytes}
    (h : prepare l = .run p c dir) : l.opts.plan = false ∧ l.opts.unpack = false := by
  obtain ⟨file, content, p₀, source, hc, -, -⟩ := prepare_run l h
  refine ⟨?_, unpackTarget_none hc.target_eq⟩
  rw [prepare_checked l hc] at h
  by_contra hplan
  rw [Bool.not_eq_false] at hplan
  rcases prepareSlot_mode l p₀ file content source with ⟨code, text, he⟩ | ⟨p', c', dir', he⟩
  · rw [he] at h
    cases h
  · rw [he, hplan] at h
    cases h

end Launch

section Handoff
variable {T : Terms} {l : Launch} {record : Option Bytes}

theorem faulted {p : Project} {o : Opts} {c : Slot} {out : Outcome} {a : Account}
    (h : Ended T p o c record out a) (hf : a.faults ≠ []) :
    (∃ code, code ≠ HM_EXIT_OK ∧ out = .exit code) ∧ a.record = record := by
  cases h with
  | stopped _ hcode =>
    refine ⟨⟨_, ?_, rfl⟩, rfl⟩
    rcases hcode with rfl | rfl <;> decide
  | rested => exact absurd rfl hf
  | worked _ _ _ hwork hout =>
    cases hwork.closed rfl with
    | recorded hfaults => exact absurd hfaults hf
    | reported _ hfaults => exact absurd hfaults hf
    | failed _ hrecord =>
      rcases hout with rfl | ⟨hrc, -⟩
      · exact ⟨⟨_, by decide, rfl⟩, hrecord⟩
      · cases hrc

def MainGuard (l : Launch) (a : Account) (r : Call) : Prop :=
  ∀ path argv, r = .exec path argv →
    ∃ p c dir, prepare l = .run p c dir ∧ Runs.Guard p l.opts c a r

def MainEnded (T : Terms) (l : Launch) (record : Option Bytes) (out : Outcome)
    (a : Account) : Prop :=
  a.faults = [] ∨ ∃ p c dir, prepare l = .run p c dir ∧ Ended T p l.opts c record out a

theorem printPlan_walks (texts : List Bytes) {a : Account} (ha : a.faults = []) :
    (printPlan texts).Safe (keeper T).env (MainGuard l) (MainEnded T l record) a := by
  induction texts generalizing a with
  | nil => exact .inl ha
  | cons text texts ih =>
    refine ⟨nofun, fun _ a' h => ih ?_⟩
    obtain rfl : a' = a.next (.out text) () := h.2
    exact ha

theorem main_walks : (main l).Safe (keeper T).env (MainGuard l) (MainEnded T l record)
    { record := record } := by
  unfold main
  cases hp : prepare l with
  | exit code text =>
    refine ⟨nofun, fun _ a' h => .inl ?_⟩
    obtain rfl : a' = { record := record } := h.2
    rfl
  | unpack p target =>
    refine ⟨nofun, fun _ a' h => .inl ?_⟩
    obtain rfl : a' = { record := record } := h.2
    rfl
  | plan p c => exact printPlan_walks _ rfl
  | run p c dir =>
    apply (@act_walks T p l.opts c record dir).weaken
    · intro a r hr path argv hexec
      exact ⟨p, c, dir, hp, hr⟩
    · intro out a h
      exact .inr ⟨p, c, dir, hp, h⟩

/-- In every run, whatever it is told, the program is handed over to only in the plain
mode, after a look that found nothing to do or after work without a fault that was
saved; and a run with a fault ends with a nonzero code over the record it found. -/
theorem handoff_safe {t : List (Interaction.Event calls)} {prog : P Outcome} {a : Account}
    (h : Steps (keeper T).env (main l) { record := record } t prog a) :
    (∀ path argv, prog.pending = some (.exec path argv) →
      ∃ p c dir, prepare l = .run p c dir ∧ path = p.binPath ∧ l.opts.normal = true ∧
        a.faults = [] ∧ (a.saved = true ∨
          ∃ look, a.looks.getLast? = some look ∧ Rests p l.opts c look)) ∧
    (∀ out, prog = .done out → a.faults ≠ [] →
      (∃ code, code ≠ HM_EXIT_OK ∧ out = .exit code) ∧ a.record = record) := by
  have hsafe := @main_walks T l record
  constructor
  · intro path argv hpending
    obtain ⟨k, hk⟩ := pending_eq hpending
    obtain ⟨p, c, dir, hp, hpath, hcheck, hdry, hadopt, hfaults, hwhy⟩ :=
      hsafe.guard h hk path argv rfl
    obtain ⟨hplan, hunpack⟩ := prepare_run_modes hp
    have hnormal : l.opts.normal = true := by
      simp [Opts.normal, hcheck, hdry, hadopt, hplan, hunpack]
    exact ⟨p, c, dir, hp, hpath, hnormal, hfaults, hwhy⟩
  · rintro out rfl hf
    rcases hsafe.steps h with hnone | ⟨p, c, dir, -, hended⟩
    · exact absurd hnone hf
    · exact faulted hended hf

end Handoff

section Prediction
variable (p : Project) (o : Opts) (c : Slot)

/-- One state of everything a run asks for: what the record file reads as, the clock,
whether the cached program is there, and what the check answers. -/
structure Scene where
  loaded : Except ReadFault (Option Bytes)
  now : Int
  there : Bool
  response : Option CheckResult

/-- Every answer is the scene's; a program that is not there does not start unless a
setup has been at work. -/
def Scene.terms (g : Scene) : Terms where
  reads _ x := x = g.loaded
  clock now := now = g.now
  probe there := there = g.there
  check x := x = g.response
  exec a x := x = none → p.binCached = true → a.ran = false → a.emptied = false → g.there = true

def Reached (a : Account) : Prop := a.ran = true ∨ p.kind = .url ∧ a.emptied = true

inductive Verdict | idle | unheard | unchanged | work
  deriving DecidableEq, Repr

def Scene.verdict (g : Scene) : Verdict :=
  match g.loaded with
  | .error _ => .idle
  | .ok file =>
    let r := hmCacheLoad c.identity file
    if decides p o g.there r g.now true ≠ .due then .idle
    else match p.kind with
      | .command => .work
      | .url =>
        match g.response with
        | none => .unheard
        | some res => if changed r res.mark (p.binCached && !g.there) then .work else .unchanged

variable {p o c} {g : Scene} {record : Option Bytes} {a : Account} {out : Outcome}

theorem calls_iff {file : Option Bytes} : Calls (g.terms p) p o c (file, g.now) ↔
    decides p o g.there (hmCacheLoad c.identity file) g.now true = .due := by
  unfold Calls decides
  cases o.force <;> cases p.binCached <;> cases hg : g.there <;> simp [Scene.terms, hg]

theorem rests_idle {file : Option Bytes} (hrest : Rests p o c (file, g.now))
    (hfound : p.binCached = true → g.there = true) :
    decides p o g.there (hmCacheLoad c.identity file) g.now true ≠ .due := by
  obtain ⟨hforce, wait, hwait⟩ := hrest
  unfold decides
  rw [hforce, hwait]
  cases hb : p.binCached with
  | false => simp
  | true => simp [hfound hb]

theorem probed_iff {missing : Bool} : Probed (g.terms p) p missing ↔
    missing = (p.binCached && !g.there) := by
  unfold Probed
  cases missing <;> cases p.binCached <;> cases hg : g.there <;> simp [Scene.terms, hg]

theorem rested_idle {file : Option Bytes} {looks : List (Option Bytes × Int)} {now : Int}
    (hlast : looks.getLast? = some (file, now)) (hlooks : Seen (g.terms p) record looks)
    (hrest : Rests p o c (file, now))
    (hfound : p.binCached = true → (g.terms p).probe true ∨ out = .replaced ∧
      (g.terms p).exec (looking record file looks false) none) : g.verdict p o c = .idle := by
  obtain ⟨hread, hnow⟩ := hlooks _ (List.mem_of_getLast? hlast)
  have hloaded : .ok file = g.loaded := hread
  obtain rfl : now = g.now := hnow
  have hthere : p.binCached = true → g.there = true := by
    intro hb
    rcases hfound hb with ht | ⟨-, hexec⟩
    · exact Eq.symm ht
    · exact hexec rfl hb rfl rfl
  simp only [Scene.verdict, ← hloaded, if_pos (rests_idle hrest hthere)]

theorem worked_verdict {file : Option Bytes} {looks : List (Option Bytes × Int)} {now : Int}
    (hlast : looks.getLast? = some (file, now)) (hlooks : Seen (g.terms p) record looks)
    (hcalls : ∀ look ∈ looks, Calls (g.terms p) p o c look) : g.verdict p o c =
      match p.kind with
      | .command => .work
      | .url =>
        match g.response with
        | none => .unheard
        | some res => if changed (hmCacheLoad c.identity file) res.mark (p.binCached && !g.there)
            then .work else .unchanged := by
  have hmem := List.mem_of_getLast? hlast
  obtain ⟨hread, hnow⟩ := hlooks _ hmem
  have hloaded : .ok file = g.loaded := hread
  obtain rfl : now = g.now := hnow
  have hdue := calls_iff.mp (hcalls _ hmem)
  simp only [Scene.verdict, ← hloaded, hdue, ne_eq, not_true_eq_false, ↓reduceIte]

theorem stopped_idle {fault : ReadFault} (h : (g.terms p).reads record (.error fault)) :
    g.verdict p o c = .idle := by
  have hloaded : .error fault = g.loaded := h
  simp only [Scene.verdict, ← hloaded]

theorem inspected_shows (hi : o.inspects = true) (h : Ended (g.terms p) p o c record out a) :
    (out = .exit HM_EXIT_CHANGED ↔ g.verdict p o c = .work) ∧
      (out = .exit HM_EXIT_FAILED ∧ Fault.check ∈ a.faults ↔ g.verdict p o c = .unheard) := by
  cases h with
  | @stopped _ _ f code hf hcode =>
    rcases hf with ⟨-, hno⟩ | ⟨rfl, fault, hfault⟩
    · rw [hi] at hno
      cases hno
    · rw [stopped_idle hfault]
      rcases hcode with rfl | rfl <;> simp [Account.fault, HM_EXIT_CHANGED, HM_EXIT_USAGE,
        HM_EXIT_FAILED]
  | rested hlast hlooks hrest hout hfound =>
    rw [rested_idle hlast hlooks hrest hfound]
    rcases hout with rfl | ⟨-, -, rfl | rfl⟩ <;> simp [HM_EXIT_CHANGED, HM_EXIT_OK]
  | @worked file _ _ _ rc _ _ a' hlast hlooks hcalls hwork hout =>
    rw [worked_verdict hlast hlooks hcalls]
    obtain rfl : out = .exit rc := by
      rcases hout with rfl | ⟨-, hacts, -⟩
      · rfl
      · simp [Opts.inspects, hacts.1, hacts.2.1] at hi
    unfold Worked at hwork
    cases hk : p.kind with
    | command =>
      rw [hk] at hwork
      cases hwork with
      | inspected => simp
      | adopted hno => simp [hi] at hno
      | ran hno => simp [hi] at hno
      | failed hno => simp [hi] at hno
    | url =>
      rw [hk] at hwork
      cases hwork with
      | unheard hcheck =>
        have hresponse : none = g.response := hcheck
        simp [← hresponse, Account.fault, HM_EXIT_CHANGED, HM_EXIT_FAILED]
      | unchanged hcheck hprobe hsame hs =>
        have hresponse : some _ = g.response := hcheck
        rw [← probed_iff.mp hprobe, ← hresponse]
        simp only [hsame]
        cases hs <;> simp [Account.fault, HM_EXIT_CHANGED, HM_EXIT_FAILED, HM_EXIT_OK]
      | inspected hcheck hprobe hdiff =>
        have hresponse : some _ = g.response := hcheck
        rw [← probed_iff.mp hprobe, ← hresponse]
        simp [hdiff, Account.announce, HM_EXIT_CHANGED, HM_EXIT_FAILED]
      | adopted _ _ _ hno => simp [hi] at hno
      | installed _ _ _ hno => simp [hi] at hno
      | failed _ _ _ hno => simp [hi] at hno

/-- A normal run that gets the lock and prepares its work directory follows it. -/
theorem normal_follows (hi : o.inspects = false) (ha : o.adopt = false)
    (h : Ended (g.terms p) p o c record out a)
    (hclear : ∀ f ∈ a.faults, f ≠ .lock ∧ f ≠ .reset ∧ f ≠ .materialize) :
    (Reached p a ↔ g.verdict p o c = .work) ∧
      (Fault.check ∈ a.faults ↔ g.verdict p o c = .unheard) := by
  cases h with
  | @stopped _ _ f code hf hcode =>
    rcases hf with ⟨rfl, -⟩ | ⟨rfl, fault, hfault⟩
    · exact absurd rfl (hclear .lock (by simp [Account.fault])).1
    · rw [stopped_idle hfault]
      simp [Reached, Account.fault]
  | rested hlast hlooks hrest hout hfound =>
    rw [rested_idle hlast hlooks hrest hfound]
    simp [Reached]
  | @worked file _ _ _ rc _ _ a' hlast hlooks hcalls hwork hout =>
    rw [worked_verdict hlast hlooks hcalls]
    unfold Worked at hwork
    cases hk : p.kind with
    | command =>
      rw [hk] at hwork
      cases hwork with
      | inspected hno => simp [hi] at hno
      | adopted _ hno => simp [ha] at hno
      | ran _ _ hc hs =>
        cases hc
        cases hs <;> simp [Reached, Account.fault]
      | failed _ _ hc =>
        cases hc with
        | @unprepared _ f hf =>
          obtain ⟨-, hreset, hwrite⟩ := hclear f (by simp [Account.fault])
          rcases hf with rfl | rfl
          · exact absurd rfl hreset
          · exact absurd rfl hwrite
        | failed => simp [Reached, Account.fault]
    | url =>
      rw [hk] at hwork
      cases hwork with
      | unheard hcheck =>
        have hresponse : none = g.response := hcheck
        simp [← hresponse, Reached, Account.fault]
      | unchanged hcheck hprobe hsame hs =>
        have hresponse : some _ = g.response := hcheck
        rw [← probed_iff.mp hprobe, ← hresponse]
        simp only [hsame]
        cases hs <;> simp [Reached, Account.fault]
      | inspected _ _ _ hno => simp [hi] at hno
      | adopted _ _ _ _ hno => simp [ha] at hno
      | installed hcheck hprobe hdiff _ _ hc hs =>
        have hresponse : some _ = g.response := hcheck
        rw [← probed_iff.mp hprobe, ← hresponse]
        cases hc
        cases hs <;> simp [Reached, Account.fault, hdiff, hk, Account.announce]
      | failed hcheck hprobe hdiff _ _ hc =>
        have hresponse : some _ = g.response := hcheck
        rw [← probed_iff.mp hprobe, ← hresponse]
        cases hc with
        | unprepared =>
          exact absurd rfl (hclear .reset (by simp [Account.fault])).2.1
        | failed => simp [Reached, Account.fault, hdiff, hk, Account.announce]

def inspecting (l : Launch) : Launch := { l with opts := { l.opts with checkOnly := true } }

theorem prepare_inspecting {l : Launch} (h : l.opts.unpack = false) :
    prepare (inspecting l) = prepare l := by
  have htarget : unpackTarget (inspecting l) = unpackTarget l := by
    simp [unpackTarget, inspecting, h]
  unfold prepare
  rw [htarget]
  rfl

theorem act_ended {l : Launch} {dir : Bytes} {T : Terms} (hprep : prepare l = .run p c dir)
    {t : List (Interaction.Event calls)}
    (h : Steps (keeper T).env (main l) { record := record } t (.done out) a) :
    Ended T p l.opts c record out a := by
  have hmain : main l = act p l.opts c dir := by simp only [main, hprep]
  rw [hmain] at h
  exact (act_walks dir).steps h

/-- `--check-only` exits with 10 if and only if a normal run in the same scene starts the
due work, and with 2 on a failed check exactly when the normal run fails in its check,
as long as the normal run gets its lock and can prepare its work directory. -/
theorem inspection_predicts {l : Launch} {dir : Bytes} {t t' : List (Interaction.Event calls)}
    {out' : Outcome} {a' : Account} (hprep : prepare l = .run p c dir)
    (hnormal : l.opts.normal = true)
    (h : Steps (keeper (g.terms p)).env (main (inspecting l)) { record := record } t (.done out) a)
    (h' : Steps (keeper (g.terms p)).env (main l) { record := record } t' (.done out') a')
    (hclear : ∀ f ∈ a'.faults, f ≠ .lock ∧ f ≠ .reset ∧ f ≠ .materialize) :
    (out = .exit HM_EXIT_CHANGED ↔ Reached p a') ∧
      (out = .exit HM_EXIT_FAILED ∧ Fault.check ∈ a.faults ↔ Fault.check ∈ a'.faults) := by
  have hprep' : prepare (inspecting l) = .run p c dir :=
    (prepare_inspecting (prepare_run_modes hprep).2).trans hprep
  have hshows := @inspected_shows p (inspecting l).opts c g record a out rfl (act_ended hprep' h)
  have hfollows := normal_follows (l.opts.inspects_eq_false hnormal) (l.opts.modes hnormal).2.2
    (act_ended hprep h') hclear
  have hverdict : g.verdict p (inspecting l).opts c = g.verdict p l.opts c := rfl
  rw [hverdict] at hshows
  exact ⟨hshows.1.trans hfollows.1.symm, hshows.2.trans hfollows.2.symm⟩

def urlLaunch (never : Bool) (o : Opts) : Launch where
  opts := { o with file := some (ascii "p.siml"), cacheDir := some (ascii "/c") }
  siml := fun _ => [.streamStart, .documentStart 1, .mappingStart 1,
    .scalar (ascii "url") (ascii "u") 1] ++
    (if never then [.scalar (ascii "schedule") (ascii "never") 2] else []) ++
      [.mappingEnd 3, .documentEnd, .streamEnd]
  xxh3 := fun _ => 0
  version := ascii "1.0"
  content := some (if never then ascii "url: u\nschedule: never\n" else ascii "url: u\n")

def urlProject (never : Bool) : Project where
  name := ascii "u"
  url := ascii "u"
  schedKind := if never then .never else .every
  schedInterval := 86400
  scheduleExplicit := never
  sandboxed := true
  line := 1

def urlSlot : Slot :=
  ⟨ascii "url-0000000000000000", ascii "siml:0000000000000000 hacman:1.0",
    ascii "/c/url-0000000000000000", ascii "/c/url-0000000000000000.work"⟩

def firstScene : Scene := ⟨.ok none, 1000, false, some { mark := ascii "m" }⟩

def Scene.serve (g : Scene) (unlocked : Bool) (a : Account) (r : calls.Req) :
    calls.Ans r × Account :=
  let x : calls.Ans r := match r with
    | .read _ => g.loaded
    | .time => g.now
    | .access _ => g.there
    | .exec _ _ => some []
    | .openLock _ => if unlocked then none else some (ascii "Permission denied")
    | .check _ _ => g.response
    | r => obliging r
  (x, a.next r x)

theorem serve_answers (unlocked : Bool) (a : Account) (r : Call) :
    (keeper (g.terms p)).env.answers a r (g.serve unlocked a r).1 (g.serve unlocked a r).2 := by
  cases r with
  | exec path argv => exact ⟨nofun, rfl⟩
  | _ => exact ⟨by trivial, rfl⟩

theorem serve_steps (unlocked : Bool) (l : Launch) (a : Account) :
    ∃ t, Steps (keeper (g.terms p)).env (main l) a t
      (.done ((main l).eval (g.serve unlocked) a).1) ((main l).eval (g.serve unlocked) a).2 :=
  eval_steps (g.serve unlocked) (serve_answers unlocked) (main l) a

def downScene : Scene := ⟨.ok none, 1000, false, none⟩

/-- The url is down: the run ends with 2 and leaves no record. -/
theorem handoff_safe_down : ∃ t a, Steps (keeper (downScene.terms (urlProject false))).env
    (main (urlLaunch false {})) { record := none } t (.done (.exit HM_EXIT_FAILED)) a ∧
      a.record = none := by
  obtain ⟨t, ht⟩ := @serve_steps (urlProject false) downScene true (urlLaunch false {})
    { record := none }
  generalize hend : (main (urlLaunch false {})).eval (downScene.serve true) { record := none } = e
    at ht
  have hfacts : e.1 = .exit HM_EXIT_FAILED ∧ e.2.faults = [.check] := by
    rw [← hend]
    decide +kernel
  rw [hfacts.1] at ht
  exact ⟨t, e.2, ht, ((handoff_safe ht).2 _ rfl (by rw [hfacts.2]; nofun)).2⟩

theorem inspection_predicts_first : ∃ t t' a a',
    Steps (keeper (firstScene.terms (urlProject false))).env
      (main (inspecting (urlLaunch false {})))
        { record := none } t (.done (.exit HM_EXIT_CHANGED)) a ∧
      Steps (keeper (firstScene.terms (urlProject false))).env (main (urlLaunch false {}))
          { record := none } t' (.done (.exit HM_EXIT_OK)) a' ∧ Reached (urlProject false) a' := by
  obtain ⟨t, ht⟩ := @serve_steps (urlProject false) firstScene true
    (inspecting (urlLaunch false {})) { record := none }
  obtain ⟨t', ht'⟩ := @serve_steps (urlProject false) firstScene true (urlLaunch false {})
    { record := none }
  have hout : ((main (inspecting (urlLaunch false {}))).eval (firstScene.serve true)
      { record := none }).1 = .exit HM_EXIT_CHANGED := by decide +kernel
  have hend : ((main (urlLaunch false {})).eval (firstScene.serve true) { record := none }).1 =
      .exit HM_EXIT_OK ∧ ((main (urlLaunch false {})).eval (firstScene.serve true)
        { record := none }).2.faults = [] := by decide +kernel
  rw [hout] at ht
  rw [hend.1] at ht'
  have hprep : prepare (urlLaunch false {}) = .run (urlProject false) urlSlot (ascii "/c") := by
    decide +kernel
  have hpredicts := inspection_predicts hprep rfl ht ht' (by rw [hend.2]; nofun)
  exact ⟨t, t', _, _, ht, ht', hpredicts.1.mp rfl⟩

/-- Where the lock file cannot be opened, the normal run stops before the work that
`--check-only` announces. -/
theorem locked_out_predicts_wrong : ∃ t t' a a' out',
    Steps (keeper (firstScene.terms (urlProject false))).env
      (main (inspecting (urlLaunch false {})))
        { record := none } t (.done (.exit HM_EXIT_CHANGED)) a ∧
      Steps (keeper (firstScene.terms (urlProject false))).env (main (urlLaunch false {}))
          { record := none } t' (.done out') a' ∧ ¬ Reached (urlProject false) a' := by
  obtain ⟨t, ht⟩ := @serve_steps (urlProject false) firstScene false
    (inspecting (urlLaunch false {})) { record := none }
  obtain ⟨t', ht'⟩ := @serve_steps (urlProject false) firstScene false (urlLaunch false {})
    { record := none }
  have hout : ((main (inspecting (urlLaunch false {}))).eval (firstScene.serve false)
      { record := none }).1 = .exit HM_EXIT_CHANGED := by decide +kernel
  rw [hout] at ht
  refine ⟨t, t', _, _, _, ht, ht', ?_⟩
  have hidle : ((main (urlLaunch false {})).eval (firstScene.serve false)
      { record := none }).2.ran = false ∧ ((main (urlLaunch false {})).eval (firstScene.serve false)
        { record := none }).2.emptied = false := by decide +kernel
  simp [Reached, hidle.1, hidle.2]

end Prediction

section Adopt
variable {path : Bytes} (v : Invocation path) {T : Terms} {record : Option Bytes} {a : Account}

def Adopted (p : Project) (c : Slot) (a : Account) : Prop :=
  (hmCacheLoad c.identity a.record).known = true ∧ a.ran = false ∧ a.emptied = false ∧
    (p.kind = .url → ∃ res, a.observed = some res ∧
      (hmCacheLoad c.identity a.record).mark = res.mark)

/-- What `hm_check` can hand over as a marker. -/
def Shaped (T : Terms) : Prop :=
  ∀ res, T.check (some res) → (0 : UInt8) ∉ res.mark ∧ res.mark.length ≤ HM_MARK_MAX

theorem load_saved {r : Record} (hmark : (0 : UInt8) ∉ r.mark ∧ r.mark.length ≤ HM_MARK_MAX) :
    (hmCacheLoad v.c.identity (some (recordBytes v.c.identity r))).known = true ∧
      (hmCacheLoad v.c.identity (some (recordBytes v.c.identity r))).mark = r.mark.map cleanByte :=
  load_mark v.one_line v.short hmark

theorem copied_mark {mark : Bytes} (h : mark.length ≤ HM_MARK_MAX) :
    hmStrCopy (HM_MARK_MAX + 1) mark = mark :=
  List.take_of_length_le h

theorem adopted_url (hk : v.p.kind = .url) {res : CheckResult} (r : Record)
    (hres : (0 : UInt8) ∉ res.mark ∧ res.mark.length ≤ HM_MARK_MAX) (hr : r.mark = res.mark)
    (hrecord : a.record = some (recordBytes v.c.identity r)) (hobserved : a.observed = some res)
    (hran : a.ran = false ∧ a.emptied = false) :
    Adopted v.p v.c a ↔ ∀ res, a.observed = some res → OneField res.mark := by
  have hsaved := load_saved v (hr ▸ hres)
  rw [← hrecord, hr] at hsaved
  have hmark : OneField res.mark ↔ (hmCacheLoad v.c.identity a.record).mark = res.mark := by
    rw [hsaved.2]
    exact map_cleanByte_eq_self.symm
  constructor
  · rintro ⟨-, -, -, hurl⟩ res' hres'
    obtain ⟨res'', hres'', hkept⟩ := hurl hk
    obtain rfl := Option.some.inj (hobserved.symm.trans hres')
    obtain rfl := Option.some.inj (hobserved.symm.trans hres'')
    exact hmark.mpr hkept
  · intro hfield
    exact ⟨hsaved.1, hran.1, hran.2, fun _ => ⟨res, hobserved, hmark.mp (hfield res hobserved)⟩⟩

/-- A run with `--adopt` that exits with 0 has recorded what it saw if and only if every
look called for work and the marker is one field of a record; a command project has also
if the record was its own already. -/
theorem adopt_records {there : Bool} (hadopt : v.o.adopt = true)
    (hprobe : ∀ b, T.probe b ↔ b = there) (hshaped : Shaped T)
    {t : List (Interaction.Event calls)}
    (h : Steps (keeper T).env v.prog { record := record } t (.done (.exit HM_EXIT_OK)) a) :
    Adopted v.p v.c a ↔
      match v.p.kind with
      | .command => (hmCacheLoad v.c.identity record).known = true ∨
          ∀ look ∈ a.looks, Calls T v.p v.o v.c look
      | .url => (∀ look ∈ a.looks, Calls T v.p v.o v.c look) ∧
          ∀ res, a.observed = some res → OneField res.mark := by
  have hended : Ended T v.p v.o v.c record (.exit HM_EXIT_OK) a := act_ended v.run h
  generalize hout : Outcome.exit HM_EXIT_OK = out at hended
  cases hended with
  | stopped _ hcode =>
    rcases hcode with rfl | rfl <;> cases hout
  | @rested file looks now _ hlast _ hrest _ hfound =>
    have hidle : ¬ ∀ look ∈ looks, Calls T v.p v.o v.c look := by
      intro hall
      obtain ⟨hforce, wait, hwait⟩ := hrest
      rcases hall _ (List.mem_of_getLast? hlast) with hc | ⟨hb, hc⟩ | hc
      · rw [hforce] at hc
        cases hc
      · rcases hfound hb with hf | ⟨he, -⟩
        · exact absurd (((hprobe _).mp hc).trans ((hprobe _).mp hf).symm) (by decide)
        · rw [he] at hout
          cases hout
      · rw [hwait] at hc
        cases hc
    cases hk : v.p.kind with
    | command =>
      constructor
      · intro hrec
        exact .inl hrec.1
      · rintro (hknown | hall)
        · exact ⟨hknown, rfl, rfl, fun hu => by rw [hk] at hu; cases hu⟩
        · exact absurd hall hidle
    | url =>
      refine iff_of_false (fun hrec => ?_) fun hall => hidle hall.1
      obtain ⟨res, hres, -⟩ := hrec.2.2.2 hk
      cases hres
  | @worked file looks now _ rc _ _ a' hlast hlooks hcalls hwork hleft =>
    obtain rfl : rc = HM_EXIT_OK := by
      rcases hleft with hleft | ⟨hrc, -⟩
      · rw [← hout] at hleft
        exact (Outcome.exit.inj hleft).symm
      · exact hrc
    have hframe : a'.looks = looks := hwork.frame.2
    unfold Worked at hwork
    cases hk : v.p.kind with
    | command =>
      rw [hk] at hwork
      cases hwork with
      | adopted _ _ hs =>
        cases hs
        have hsaved := @load_saved _ v { hmCacheLoad v.c.identity file with
          lastCheck := now, lastChange := now }
          ⟨hmCacheLoad_mark_notMem _ _, hmCacheLoad_mark_length _ _⟩
        exact iff_of_true ⟨hsaved.1, rfl, rfl, fun hu => by rw [hk] at hu; cases hu⟩ (.inr hcalls)
      | ran _ hno => rw [hadopt] at hno; cases hno
    | url =>
      rw [hk] at hwork
      cases hwork with
      | @unchanged res _ _ hcheck hprobe hsame hs =>
        cases hs
        obtain ⟨-, -, hmark⟩ := changed_eq_false.mp hsame
        refine (adopted_url v hk { hmCacheLoad v.c.identity file with lastCheck := now }
          (hshaped res hcheck) hmark ?_ ?_ ⟨?_, ?_⟩).trans (and_iff_right hcalls).symm <;> rfl
      | @adopted res _ _ _ hcheck hprobe hdiff _ _ hs =>
        cases hs
        refine (adopted_url v hk (Outline.installed (hmCacheLoad v.c.identity file) now res)
          (hshaped res hcheck) (copied_mark (hshaped res hcheck).2) ?_ ?_ ⟨?_, ?_⟩).trans
            (and_iff_right hcalls).symm <;> rfl
      | installed _ _ _ _ hno => rw [hadopt] at hno; cases hno

def adopting (never : Bool) : Invocation (ascii "/c/url-0000000000000000") :=
  ⟨urlLaunch never { adopt := true }, urlProject never, urlSlot, ascii "/c",
    by cases never <;> decide +kernel, rfl, by cases never <;> decide⟩

theorem firstScene_shaped (p : Project) : Shaped (firstScene.terms p) := by
  intro res hres
  obtain rfl : res = { mark := ascii "m" } := Option.some.inj hres
  decide

theorem adopt_records_first : ∃ t a, Steps (keeper (firstScene.terms (urlProject false))).env
    (adopting false).prog { record := none } t (.done (.exit HM_EXIT_OK)) a ∧
      Adopted (urlProject false) urlSlot a := by
  obtain ⟨t, ht⟩ := @serve_steps (urlProject false) firstScene true (adopting false).l
    { record := none }
  generalize hend : (main (adopting false).l).eval (firstScene.serve true) { record := none } =
    e at ht
  have hfacts : e.1 = .exit HM_EXIT_OK ∧ e.2.looks = [(none, 1000), (none, 1000)] ∧
      e.2.observed = some { mark := ascii "m" } := by
    rw [← hend]
    decide +kernel
  rw [hfacts.1] at ht
  refine ⟨t, e.2, ht, (adopt_records (adopting false) rfl (fun b => Iff.rfl)
    (firstScene_shaped _) ht).mpr ⟨fun look hl => ?_, fun res hres => ?_⟩⟩
  · rw [hfacts.2.1] at hl
    obtain rfl : look = (none, 1000) := by simpa using hl
    exact .inr (.inr (by decide))
  · rw [hfacts.2.2] at hres
    obtain rfl := Option.some.inj hres
    exact map_cleanByte_eq_self.mp (by decide)

/-- With `schedule: never` nothing is recorded, and the run exits with 0. -/
theorem never_adopts_nothing : ∃ t a, Steps (keeper (firstScene.terms (urlProject true))).env
    (adopting true).prog { record := none } t (.done (.exit HM_EXIT_OK)) a ∧
      ¬ Adopted (urlProject true) urlSlot a := by
  obtain ⟨t, ht⟩ := @serve_steps (urlProject true) firstScene true (adopting true).l
    { record := none }
  generalize hend : (main (adopting true).l).eval (firstScene.serve true) { record := none } =
    e at ht
  have hfacts : e.1 = .exit HM_EXIT_OK ∧ e.2.record = none := by
    rw [← hend]
    decide +kernel
  rw [hfacts.1] at ht
  refine ⟨t, e.2, ht, fun hrec => ?_⟩
  have hknown := hrec.1
  rw [hfacts.2] at hknown
  cases hknown

end Adopt

end Hacman.Modes
