import Hacman.Watch

/-!
# After a failed setup

A run that starts a command or an install script and fails writes nothing. Whether the
next run tries again is then decided by the record that was there before.
-/

namespace Hacman.Retry
open Octets Util Cache Config Interaction Main Requests Watch

section Attempt

/-- The record on disk, and whether a command or an install script has failed. -/
structure Attempt where
  record : Option Bytes
  failed : Bool := false
  deriving DecidableEq, Repr

def Attempt.ended (w : Attempt) (done : Bool) : Attempt := { w with failed := w.failed || !done }

def attempt : Env calls Attempt where
  answers w r x w' :=
    match r, x with
    | .read _, x => (∀ content, x = .ok content → content = w.record) ∧ w' = w
    | .command _ _ _ _, done => w' = w.ended done
    | .install _ _ _ _ _ _, done => w' = w.ended done
    | .save _ content, saved => w' = if saved then { w with record := some content } else w
    | _, _ => w' = w

variable {p : Project} {o : Opts} {c : Slot} {record : Option Bytes}

structure Attempted (p : Project) (record : Option Bytes) (q : Knows) (w : Attempt) : Prop where
  failed : w.failed = q.failed
  kept : q.saved = false → w.record = record
  well : q.saved = true → w.failed = false
  script : w.failed = true → p.kind = .url → p.install ≠ []

theorem Attempted.ended {q : Knows} {w : Attempt} (h : Attempted p record q w)
    (hs : q.saved = false) (hp : p.kind = .url → p.install ≠ []) (done : Bool) :
    Attempted p record (q.ended done) (w.ended done) := by
  refine ⟨?_, h.kept, ?_, fun _ => hp⟩
  · simp [Knows.ended, Attempt.ended, h.failed]
  · intro hsaved
    exact absurd (hsaved.symm.trans hs) (by decide)

theorem attempted_step {q : Knows} {w w' : Attempt} {r : Call} {x : r.Answer}
    (h : Attempted p record q w) (hg : Guard p o c q r) (hx : attempt.answers w r x w') :
    Attempted p record (q.next r x) w' := by
  have hquiet : ∀ q' : Knows, q'.failed = q.failed → q'.saved = q.saved → w' = w →
      Attempted p record q' w' := by
    rintro q' hf hs rfl
    exact ⟨by rw [hf, h.failed], by rw [hs]; exact h.kept, by rw [hs]; exact h.well, h.script⟩
  cases r with
  | read path =>
    rcases x with fault | content
    · exact hquiet _ rfl rfl hx.2
    · exact hquiet _ rfl rfl hx.2
  | command p' workdir dir trace =>
    obtain rfl : w' = w.ended x := hx
    exact h.ended hg.1.saved (fun hk => by rw [hg.2] at hk; cases hk) x
  | install p' mark res workdir dir trace =>
    obtain rfl : w' = w.ended x := hx
    exact h.ended hg.1.saved (fun _ => hg.2.2) x
  | save path content =>
    have hwell : w.failed = false := h.failed.trans hg.1.failed
    cases x with
    | false =>
      obtain rfl : w' = w := hx
      exact ⟨h.failed, fun hs => h.kept (by simpa [Knows.next] using hs), fun _ => hwell, h.script⟩
    | true =>
      obtain rfl : w' = { w with record := some content } := hx
      exact ⟨h.failed, fun hs => absurd hs (by simp [Knows.next]), fun _ => hwell, h.script⟩
  | exec path argv => cases x <;> exact hquiet _ rfl rfl hx
  | setlk => cases x <;> exact hquiet _ rfl rfl hx
  | setlkw => cases x <;> exact hquiet _ rfl rfl hx
  | check p' timeout => cases x <;> exact hquiet _ rfl rfl hx
  | _ => exact hquiet _ rfl rfl hx

theorem failed_keeps_record {l : Launch} {dir : Bytes} (hrun : prepare l = .run p c dir)
    (hn : l.opts.normal = true) {t : List (Interaction.Event calls)} {prog : P Outcome}
    {w : Attempt} (hs : Steps attempt (main l) ⟨record, false⟩ t prog w) (hf : w.failed = true) :
    w.record = record ∧ (p.kind = .url → p.install ≠ []) := by
  have hmain : main l = act p l.opts c dir := by simp only [main, hrun]
  rw [hmain] at hs
  have hinspect := l.opts.inspects_eq_false hn
  obtain ⟨q, hq, -⟩ := Prog.Safe.simulate (I := Attempted p record) (M := watch p l.opts c)
    (fun q w r x w' hI hg hx => ⟨fun hi => absurd (hi.symm.trans hinspect) (by decide),
      attempted_step hI hg hx⟩) hs (act_walks dir)
    ⟨rfl, fun _ => rfl, fun h => (Bool.false_ne_true h).elim, fun h => (Bool.false_ne_true h).elim⟩
  refine ⟨hq.kept ?_, hq.script hf⟩
  by_contra hsaved
  rw [Bool.not_eq_false] at hsaved
  exact absurd (hf.symm.trans (hq.well hsaved)) (by decide)

end Attempt

section Next

inductive Work
  | command
  | check
  | install
  deriving DecidableEq, Repr

/-- What the next run meets: two clock readings, before and under the lock, whether the
program is there, what the check answers, and whether its own setup succeeds. -/
structure Rerun where
  first : Int
  second : Int
  there : Bool
  refusal : Option Bytes := none
  response : Option CheckResult := none
  works : Bool := true

structure Seen where
  record : Option Bytes
  locked : Bool := false
  did : List Work := []

def Seen.log (w : Seen) (work : Work) : Seen := { w with did := w.did ++ [work] }

def Rerun.answer (g : Rerun) (w : Seen) (r : calls.Req) : calls.Ans r × Seen :=
  match r with
  | .read _ => (.ok w.record, w)
  | .time => (if w.locked then g.second else g.first, w)
  | .access _ => (g.there, w)
  | .exec _ _ => (if g.there then g.refusal else some (ascii "No such file or directory"), w)
  | .setlk => (.ok, { w with locked := true })
  | .setlkw => (none, { w with locked := true })
  | .closeLock => ((), { w with locked := false })
  | .command _ _ _ _ => (g.works, w.log .command)
  | .check _ _ => (g.response, w.log .check)
  | .install _ _ _ _ _ _ => (g.works, w.log .install)
  | .save _ content => (true, { w with record := some content })
  | r => (obliging r, w)

def Rerun.run (g : Rerun) {α : Type} (prog : P α) (w : Seen) : α × Seen := prog.eval g.answer w

variable (g : Rerun) (p : Project) (o : Opts) (c : Slot) (dir : Bytes)

/-- The command is reached, or the check is; and an answer that differs from the
recorded marker leads to the install script. -/
def SetsUp (r : Record) (did : List Work) : Prop :=
  match p.kind with
  | .command => .command ∈ did
  | .url => .check ∈ did ∧ ∀ res, g.response = some res → res.mark ≠ r.mark → .install ∈ did

theorem run_did {α : Type} {work : Work} (prog : P α) {w : Seen} (h : work ∈ w.did) :
    work ∈ (prog.eval g.answer w).2.did := by
  refine eval_invariant g.answer (I := fun w => work ∈ w.did) ?_ prog h
  intro w r hw
  cases r <;> simp only [Rerun.answer, Seen.log, List.mem_append] <;>
    first | exact hw | exact .inl hw

def Idle : Call → Prop
  | .out _ | .err _ | .access _ | .exec _ _ => True
  | _ => False

theorem run_idle {α : Type} {prog : P α} (h : prog.Only Idle) (w : Seen) :
    (prog.eval g.answer w).2 = w :=
  h.eval_world g.answer fun w r hr => by cases r <;> first | rfl | exact hr.elim

theorem run_execProgram (w : Seen) :
    (execProgram p o).eval g.answer w =
      (if g.there then g.refusal else some (ascii "No such file or directory"), w) := rfl

theorem run_hmCacheLock (w : Seen) :
    (hmCacheLock c).eval g.answer w = (true, { w with locked := true }) := rfl

theorem finish_idle (rc : Nat) : (finish p o rc).Only Idle :=
  finish_only p o (fun _ => trivial) (fun _ => trivial) rc

theorem run_finishLocked (locked : Bool) (rc : Nat) (w : Seen) :
    ((finishLocked p o locked rc).eval g.answer w).2.did = w.did := by
  unfold finishLocked
  rw [eval_bind, run_idle g (finish_idle p o rc)]
  cases locked <;> rfl

theorem run_commandSetup (r : Record) (w : Seen) :
    (commandSetup p o c r dir).eval g.answer w = (g.works, w.log .command) := by
  have hreset : (resetUnlessKnown c r).eval g.answer w = (true, w) := by
    unfold resetUnlessKnown
    split_ifs <;> rfl
  have hwrite : (materializeFiles p c).eval g.answer w = (true, w) := by
    unfold materializeFiles
    split_ifs <;> rfl
  unfold commandSetup
  rw [eval_bind, hreset]
  simp only [Bool.not_true, Bool.false_eq_true, ↓reduceIte]
  rw [eval_bind, hwrite]
  rfl

theorem run_installSetup (hs : p.install ≠ []) (mark : Bytes) (res : CheckResult) (w : Seen) :
    (installSetup p o c mark res dir).eval g.answer w = (g.works, w.log .install) := by
  unfold installSetup hmInstall
  simp only [if_neg hs]
  rfl

theorem run_runProject (hn : o.normal = true) (hscript : p.kind = .url → p.install ≠ [])
    (r : Record) (now : Int) (w : Seen) :
    SetsUp g p r ((runProject p o c r now dir).eval g.answer w).2.did := by
  obtain ⟨hck, hdr, had⟩ := o.modes hn
  unfold SetsUp runProject
  cases hk : p.kind with
  | command =>
    simp only [runCommandProject, hck, hdr, had, Bool.or_self, Bool.false_eq_true, ↓reduceIte]
    rw [eval_bind, eval_bind, run_commandSetup]
    apply run_did
    simp [Seen.log]
  | url =>
    dsimp only
    have hchecked : Work.check ∈ (w.log .check).did := by simp [Seen.log]
    cases hres : g.response with
    | none =>
      rw [eval_runUrlProject_none g.answer p o c (w.log .check) (Prod.ext hres rfl)]
      exact ⟨hchecked, nofun⟩
    | some res =>
      rw [eval_runUrlProject g.answer p o c (w.log .check) g.there (Prod.ext hres rfl) rfl]
      refine ⟨run_did g _ hchecked, fun res' hres' hmark => ?_⟩
      obtain rfl : res = res' := Option.some.inj hres'
      have hchanged : changed r res.mark (p.binCached && !g.there) = true := by
        simp [changed, Ne.symm hmark]
      simp only [applyCheck, hchanged, hck, hdr, Bool.not_true, Bool.or_self, Bool.false_eq_true,
        ↓reduceIte, installUnlessAdopt, had]
      rw [eval_bind, eval_bind, run_installSetup g p o c dir (hscript hk)]
      apply run_did
      simp [Seen.log]

theorem not_setsUp_nil (r : Record) : ¬ SetsUp g p r [] := by
  unfold SetsUp
  cases p.kind with
  | command => exact List.not_mem_nil
  | url => exact fun h => List.not_mem_nil h.1

theorem decides_due (hf : o.force = false) (there : Bool) (r : Record) (now : Int)
    (checkBin : Bool) : decides p o there r now checkBin = .due ↔
      (checkBin = true ∧ p.binCached = true ∧ there = false) ∨ ¬ Fresh p r now := by
  unfold decides
  rw [hf, ← due_iff]
  cases checkBin <;> cases p.binCached <;> cases there <;> simp

variable {record : Option Bytes} (hn : o.normal = true) (hf : o.force = false)
  (hscript : p.kind = .url → p.install ≠ [])

include hn hf hscript in
theorem run_slowPath (r : Record) (now : Int) :
    SetsUp g p (hmCacheLoad c.identity record)
        ((slowPath p o c dir r now).eval g.answer ⟨record, false, []⟩).2.did ↔
      (p.binCached = true ∧ g.there = false) ∨
        ¬ Fresh p (hmCacheLoad c.identity record) g.second := by
  have hinspect : ¬ (o.checkOnly || o.dryRun) = true :=
    Bool.eq_false_iff.mp (o.inspects_eq_false hn)
  have hdue := decides_due p o hf g.there (hmCacheLoad c.identity record) g.second true
  rw [eq_self, true_and] at hdue
  rw [← hdue]
  unfold slowPath
  rw [if_neg hinspect, eval_bind, run_hmCacheLock]
  simp only [Bool.not_true, Bool.false_eq_true, ↓reduceIte, underLock]
  rw [eval_bind, eval_loadRecord g.answer c record rfl]
  change SetsUp g p (hmCacheLoad c.identity record)
    ((isDue p (hmCacheLoad c.identity record) g.second o true >>= fun decision => _).eval g.answer
      ⟨record, true, []⟩).2.did ↔ _
  rw [eval_bind, eval_isDue g.answer p o g.there rfl]
  cases hd : decides p o g.there (hmCacheLoad c.identity record) g.second true with
  | wait wait =>
    refine iff_of_false ?_ nofun
    change ¬ SetsUp g p _ ((reportSkip p o wait >>= fun _ => finishLocked p o true HM_EXIT_OK).eval
      g.answer ⟨record, true, []⟩).2.did
    rw [eval_bind, run_finishLocked, run_idle g (reportSkip_only p o (fun _ => trivial) wait)]
    exact not_setsUp_nil g p _
  | due =>
    refine iff_of_true ?_ rfl
    change SetsUp g p _ ((work p o c dir true (hmCacheLoad c.identity record) g.second).eval
      g.answer ⟨record, true, []⟩).2.did
    unfold work
    rw [eval_bind, run_finishLocked]
    exact run_runProject g p o c dir hn hscript _ _ _

include hn hf hscript in
theorem run_act :
    SetsUp g p (hmCacheLoad c.identity record)
      ((act p o c dir).eval g.answer ⟨record, false, []⟩).2.did ↔
      (p.binCached = true ∧ g.there = false) ∨
        ¬ Fresh p (hmCacheLoad c.identity record) g.first ∧
          ¬ Fresh p (hmCacheLoad c.identity record) g.second := by
  have hslow := @run_slowPath g p o c dir record hn hf hscript
  have hbin : execCheck p o = true → p.binCached = true := by
    intro h
    simp only [execCheck, Bool.and_eq_true] at h
    exact h.1.1.1.1
  generalize hr : hmCacheLoad c.identity record = r at hslow ⊢
  have hfirst := decides_due p o hf g.there r g.first (!execCheck p o)
  unfold act
  rw [eval_bind, eval_loadRecord g.answer c record rfl, hr]
  change SetsUp g p r ((isDue p r g.first o (!execCheck p o) >>= fun decision => _).eval g.answer
    ⟨record, false, []⟩).2.did ↔ _
  rw [eval_bind, eval_isDue g.answer p o g.there rfl]
  cases hd : decides p o g.there r g.first (!execCheck p o) with
  | due =>
    have hreason := hfirst.mp hd
    refine (hslow r g.first).trans ?_
    rcases hreason with ⟨-, hmissing⟩ | hstale
    · exact iff_of_true (.inl hmissing) (.inl hmissing)
    · exact or_congr Iff.rfl (and_iff_right hstale).symm
  | wait wait =>
    rw [hd] at hfirst
    obtain ⟨hpresent, hfresh⟩ := not_or.mp fun h => by cases hfirst.mpr h
    rw [not_not] at hfresh
    change SetsUp g p r ((if execCheck p o then _ else _ : P Outcome).eval g.answer
      ⟨record, false, []⟩).2.did ↔ _
    cases hb : execCheck p o with
    | true =>
      rw [if_pos rfl]
      unfold speculate
      rw [eval_bind, run_execProgram]
      cases ht : g.there with
      | true =>
        refine iff_of_false ?_ (by simp [hfresh])
        rw [if_pos rfl]
        cases g.refusal with
        | none => exact not_setsUp_nil g p r
        | some reason =>
          change ¬ SetsUp g p r ((if g.there then _ else _ : P Outcome).eval g.answer
            ⟨record, false, []⟩).2.did
          rw [ht]
          exact not_setsUp_nil g p r
      | false =>
        rw [if_neg (by decide)]
        change SetsUp g p r ((if g.there then _ else _ : P Outcome).eval g.answer
          ⟨record, false, []⟩).2.did ↔ _
        rw [ht]
        refine (hslow r g.first).trans ?_
        simp [ht, hbin hb]
    | false =>
      rw [hb, Bool.not_false, eq_self, true_and] at hpresent
      refine iff_of_false ?_ (by simp [hfresh, hpresent])
      change ¬ SetsUp g p r ((reportSkip p o wait >>= fun _ => finish p o HM_EXIT_OK).eval g.answer
        ⟨record, false, []⟩).2.did
      rw [eval_bind, run_idle g (finish_idle p o _),
        run_idle g (reportSkip_only p o (fun _ => trivial) wait)]
      exact not_setsUp_nil g p r

/-- After a run whose command or install script failed, the next run sets up again if
and only if the program is missing or neither of its clock readings is covered by the
record that the failing run had found. -/
theorem failed_setup_retried {l l' : Launch} {t : List (Interaction.Event calls)} {prog : P Outcome}
    {w : Attempt} (hrun : prepare l = .run p c dir) (hn : l.opts.normal = true)
    (hs : Steps attempt (main l) ⟨record, false⟩ t prog w) (hfail : w.failed = true)
    (hrun' : prepare l' = .run p c dir) (hn' : l'.opts.normal = true)
    (hf' : l'.opts.force = false) :
    SetsUp g p (hmCacheLoad c.identity record) (g.run (main l') ⟨w.record, false, []⟩).2.did ↔
      (p.binCached = true ∧ g.there = false) ∨
        ¬ Fresh p (hmCacheLoad c.identity record) g.first ∧
          ¬ Fresh p (hmCacheLoad c.identity record) g.second := by
  obtain ⟨hkept, hscript⟩ := failed_keeps_record hrun hn hs hfail
  have hmain : main l' = act p l'.opts c dir := by simp only [main, hrun']
  rw [hmain, hkept]
  exact run_act g p l'.opts c dir hn' hf' hscript

end Next

section Forced

def dailyLaunch (force : Bool) : Launch where
  opts := { file := some (ascii "p.siml"), cacheDir := some (ascii "/c"), force := force }
  siml := fun _ => [.streamStart, .documentStart 1, .mappingStart 1,
    .scalar (ascii "command") (ascii "t") 1, .mappingEnd 2, .documentEnd, .streamEnd]
  xxh3 := fun _ => 0
  version := ascii "1.0"
  content := some (ascii "command: t\n")

def dailyProject : Project where
  kind := .command
  name := ascii "t"
  command := ascii "t"
  schedKind := .every
  schedInterval := 86400
  sandboxed := true
  line := 1

def dailySlot : Slot :=
  ⟨ascii "cmd-0000000000000000", ascii "siml:0000000000000000 hacman:1.0",
    ascii "/c/cmd-0000000000000000", ascii "/c/cmd-0000000000000000.work"⟩

theorem daily_run (force : Bool) : prepare (dailyLaunch force) =
    .run dailyProject dailySlot (ascii "/c") := by
  cases force <;> decide +kernel

def failing (w : Attempt) (r : calls.Req) : calls.Ans r × Attempt :=
  match r with
  | .read _ => (.ok w.record, w)
  | .time => ((100010 : Int), w)
  | .command _ _ _ _ => (false, w.ended false)
  | .install _ _ _ _ _ _ => (false, w.ended false)
  | .save _ content => (true, { w with record := some content })
  | r => (obliging r, w)

theorem failing_answers (w : Attempt) (r : Call) :
    attempt.answers w r (failing w r).1 (failing w r).2 := by
  cases r with
  | read path => exact ⟨fun content h => (Except.ok.inj h).symm, rfl⟩
  | _ => rfl

theorem first_failure_retried :
    SetsUp { first := 20, second := 20, there := true } dailyProject
      (hmCacheLoad dailySlot.identity none)
      (Rerun.run { first := 20, second := 20, there := true } (main (dailyLaunch false))
        ⟨none, false, []⟩).2.did := by
  obtain ⟨t, ht⟩ := eval_steps failing failing_answers (main (dailyLaunch false)) ⟨none, false⟩
  have hend : ((main (dailyLaunch false)).eval failing ⟨none, false⟩).2 = ⟨none, true⟩ := by
    decide +kernel
  rw [hend] at ht
  refine (failed_setup_retried { first := 20, second := 20, there := true } _ _ _ (daily_run false)
    rfl ht rfl (daily_run false) rfl rfl).mpr ?_
  have hstale : ∀ now, ¬ Fresh dailyProject (hmCacheLoad dailySlot.identity none) now := by
    intro now
    simp [Fresh, dailyProject, hmCacheLoad]
  exact .inr ⟨hstale _, hstale _⟩

def dailyRecord : Bytes :=
  ascii "#hacman-cache 1 siml:0000000000000000 hacman:1.0\n100000\t100000\t\n"

/-- Ten seconds after a success the setup is forced and fails; ten seconds later the
project is not due. -/
theorem forced_failure_waits : ∃ t prog w, (dailyLaunch true).opts.normal = true ∧
    Steps attempt (main (dailyLaunch true)) ⟨some dailyRecord, false⟩ t prog w ∧
      w.failed = true ∧ ¬ SetsUp { first := 100020, second := 100020, there := true } dailyProject
        (hmCacheLoad dailySlot.identity (some dailyRecord))
        (Rerun.run { first := 100020, second := 100020, there := true } (main (dailyLaunch false))
          ⟨w.record, false, []⟩).2.did := by
  obtain ⟨t, ht⟩ := eval_steps failing failing_answers (main (dailyLaunch true))
    ⟨some dailyRecord, false⟩
  have hend : ((main (dailyLaunch true)).eval failing ⟨some dailyRecord, false⟩).2 =
      ⟨some dailyRecord, true⟩ := by
    decide +kernel
  rw [hend] at ht
  refine ⟨t, _, _, rfl, ht, rfl, ?_⟩
  change ¬ Work.command ∈ _
  decide +kernel

end Forced

end Hacman.Retry
