import Hacman.Requests

/-!
# Histories of one project file

The contents of a file change between invocations, the record path and the work
directory do not. A history is a sequence of invocations, each of which may be killed
after any request. The disk carries, besides the record, a log of which identity
touched the work directory and which setups succeeded.
-/

namespace Hacman.History
open Octets Util Cache Config Interaction Main Requests

section Disk

inductive Note
  | touched (id : Bytes)
  | succeeded (id : Bytes)
  deriving DecidableEq, Repr

/-- `began` and `saved` are about the current invocation only. -/
structure Disk where
  record : Option Bytes := none
  log : List Note := []
  began : Bool := false
  saved : Bool := false
  deriving DecidableEq, Repr

def Disk.touch (id : Bytes) (d : Disk) : Disk :=
  { d with log := d.log ++ [.touched id], began := true }

def Disk.succeed (id : Bytes) (d : Disk) : Disk :=
  { d with log := d.log ++ [.touched id, .succeeded id], began := true }

def Disk.save (content : Bytes) (d : Disk) : Disk :=
  { d with record := some content, saved := true }

def Disk.next (d : Disk) : Disk := { d with began := false, saved := false }

def Trusted (id : Bytes) (d : Disk) : Prop := (hmCacheLoad id d.record).known = true

/-- A setup of `id` succeeded, and no setup of another identity has touched the work
directory since. -/
def CleanSince (id : Bytes) (log : List Note) : Prop :=
  ∃ before after, log = before ++ .succeeded id :: after ∧ ∀ x, .touched x ∈ after → x = id

theorem CleanSince.append {id : Bytes} {log notes : List Note} (h : CleanSince id log)
    (hn : ∀ x, .touched x ∈ notes → x = id) : CleanSince id (log ++ notes) := by
  obtain ⟨before, after, hlog, hafter⟩ := h
  refine ⟨before, after ++ notes, by simp [hlog], fun x hx => ?_⟩
  rcases List.mem_append.mp hx with hx | hx
  · exact hafter x hx
  · exact hn x hx

theorem cleanSince_succeed (id : Bytes) (log : List Note) :
    CleanSince id (log ++ [.touched id, .succeeded id]) :=
  ⟨log ++ [.touched id], [], by simp, by simp⟩

theorem not_cleanSince_touched {id x : Bytes} (log : List Note) (h : x ≠ id) :
    ¬ CleanSince id (log ++ [.touched x]) := by
  rintro ⟨before, after, hlog, hafter⟩
  rcases List.eq_nil_or_concat after with rfl | ⟨init, last, rfl⟩
  · have hlast := (List.append_inj' hlog rfl).2
    cases hlast
  · have hlog' : log ++ [.touched x] = (before ++ .succeeded id :: init) ++ [last] := by
      simpa using hlog
    obtain ⟨-, hlast⟩ := List.append_inj' hlog' rfl
    obtain rfl := List.singleton_inj.mp hlast
    exact h (hafter x (by simp))

/-- What one invocation under identity `id` can be answered, and what is left on disk.
Setup steps touch the work directory whatever they answer. -/
def disk (id : Bytes) : Env calls Disk where
  answers d r x d' :=
    match r, x with
    | .read _, x => (∀ content, x = .ok content → content = d.record) ∧ d' = d
    | .reset _, _ => d' = d.touch id
    | .materialize _ _, _ => d' = d.touch id
    | .install _ _ _ _ _ _, _ => d' = d.touch id
    | .command _ _ _ _, done => d' = if done = true then d.succeed id else d.touch id
    | .save _ content, saved => d' = if saved = true then d.save content else d
    | _, _ => d' = d

end Disk

section Visit

/-- One normal invocation of the file, whose contents then embed files. -/
structure Visit (path : Bytes) extends Invocation path where
  embedded : p.files ≠ []
  normal : l.opts.normal = true

variable {path : Bytes} (v : Visit path)

theorem Visit.command : v.p.kind = .command := by
  obtain ⟨file, content, p₀, source, hc, hp, -⟩ := prepare_run v.l v.run
  have hfiles : p₀.files ≠ [] := fun h => v.embedded (by rw [hp]; exact h)
  have hcmd := hmConfigParse_embedded hc.parse_eq hfiles
  rw [hp]
  exact hcmd

/-- Records are only trusted over a clean work directory. -/
def Sound (d : Disk) : Prop := ∀ id, Trusted id d → CleanSince id d.log

/-- Nothing saved yet: the record is the old one, the log grew by own notes. -/
structure Unsaved (id : Bytes) (d₀ d : Disk) : Prop where
  record_eq : d.record = d₀.record
  not_saved : d.saved = false
  log_eq : ∃ notes, d.log = d₀.log ++ notes ∧ ∀ x, .touched x ∈ notes → x = id
  idle : d.began = false → d.log = d₀.log

/-- Saved: only this identity is trusted, over a clean work directory. -/
structure Saved (id : Bytes) (d : Disk) : Prop where
  saved : d.saved = true
  trusted : ∀ x, Trusted x d → x = id
  clean : CleanSince id d.log

/-- What holds at every point of an invocation that started on `d₀`. -/
def Kept (id : Bytes) (d₀ d : Disk) : Prop := Unsaved id d₀ d ∨ Saved id d

theorem Unsaved.start {id : Bytes} {d : Disk} (h : d.saved = false) : Unsaved id d d :=
  ⟨rfl, h, ⟨[], by simp, by simp⟩, fun _ => rfl⟩

theorem Unsaved.touch {id : Bytes} {d₀ d : Disk} (h : Unsaved id d₀ d) :
    Unsaved id d₀ (d.touch id) := by
  obtain ⟨notes, hlog, hnotes⟩ := h.log_eq
  refine ⟨h.record_eq, h.not_saved, ⟨notes ++ [.touched id], ?_, ?_⟩, nofun⟩
  · simp [Disk.touch, hlog]
  · intro x hx
    simp only [List.mem_append, List.mem_singleton, Note.touched.injEq] at hx
    exact hx.elim (hnotes x) fun h => h

theorem Unsaved.succeed {id : Bytes} {d₀ d : Disk} (h : Unsaved id d₀ d) :
    Unsaved id d₀ (d.succeed id) ∧ CleanSince id (d.succeed id).log := by
  obtain ⟨notes, hlog, hnotes⟩ := h.log_eq
  refine ⟨⟨h.record_eq, h.not_saved, ⟨notes ++ [.touched id, .succeeded id], ?_, ?_⟩, nofun⟩,
    cleanSince_succeed id d.log⟩
  · simp [Disk.succeed, hlog]
  · intro x hx
    simp only [List.mem_append, List.mem_cons, Note.touched.injEq, List.not_mem_nil, or_false,
      reduceCtorEq] at hx
    exact hx.elim (hnotes x) fun h => h

theorem saved_record {id : Bytes} {d : Disk} {r : Record} (hid : LF ∉ id)
    (hlen : id.length ≤ HM_IDENTITY_MAX) (hmark : r.mark.length ≤ HM_MARK_MAX)
    (hclean : CleanSince id d.log) : Saved id (d.save (recordBytes id r)) := by
  refine ⟨rfl, fun x hx => ?_, hclean⟩
  rw [Trusted, Disk.save, load_recordBytes hid hlen hmark] at hx
  split_ifs at hx with h
  exact h.symm

/-- The invariant between invocations survives, provided that an invocation that began
a setup either saved or met no record of another identity. -/
theorem Kept.sound {id : Bytes} {d₀ d : Disk} (h : Kept id d₀ d) (hs : Sound d₀)
    (hmet : d.began = false ∨ d.saved = true ∨ ∀ x, Trusted x d₀ → x = id) : Sound d := by
  rcases h with h | h
  · intro x hx
    have hx₀ : Trusted x d₀ := by rw [Trusted, ← h.record_eq]; exact hx
    rcases hmet with hb | hb | hb
    · rw [h.idle hb]
      exact hs x hx₀
    · rw [h.not_saved] at hb
      cases hb
    · obtain rfl := hb x hx₀
      obtain ⟨notes, hlog, hnotes⟩ := h.log_eq
      rw [hlog]
      exact (hs x hx₀).append hnotes
  · intro x hx
    rw [h.trusted x hx]
    exact h.clean

end Visit

section Walk
variable {path : Bytes} {d₀ d : Disk}

def Guard (id : Bytes) (d₀ d : Disk) (r : Call) : Prop :=
  Kept id d₀ d ∧ ∀ path argv, r = .exec path argv → CleanSince id d.log

def Post (id : Bytes) (d₀ : Disk) (out : Outcome) (d : Disk) : Prop :=
  Kept id d₀ d ∧ (Handed out → CleanSince id d.log)

theorem Kept.still {id : Bytes} (h : Kept id d₀ d) : Still (disk id) (Guard id d₀) d where
  guard r hr := ⟨h, fun path argv he => by rw [he] at hr; exact hr.elim⟩
  same r x d' hr hx := by
    cases r <;> first | exact hr.elim | exact hx | exact hx.2

theorem disk_reads (id : Bytes) (d : Disk) : Reads (disk id) d d.record :=
  fun _ _ _ hx => hx.1

theorem finishLocked_kept {id : Bytes} (p : Project) (o : Opts) (locked : Bool) {rc : Nat}
    (h : Kept id d₀ d) (hclean : rc = HM_EXIT_OK → CleanSince id d.log) :
    (finishLocked p o locked rc).Safe (disk id) (Guard id d₀) (Post id d₀) d :=
  finishLocked_safe p o locked h.still (fun _ _ _ _ hx => hx)
    (fun hrc => ⟨fun _ _ => ⟨h, fun _ _ _ => hclean hrc⟩, fun _ => ⟨h, fun _ => hclean hrc⟩⟩)
    fun hrc => ⟨h, fun ho => ho.elim (fun ho => absurd (Outcome.exit.inj ho) hrc) nofun⟩

variable (v : Visit path)

theorem commandSetup_safe (r : Record) (h : Unsaved v.id d₀ d) :
    (commandSetup v.p v.o v.c r v.cacheDir).Safe (disk v.id) (Guard v.id d₀)
      (fun done d' => Unsaved v.id d₀ d' ∧ (done = true → CleanSince v.id d'.log)) d := by
  have hreset : (resetUnlessKnown v.c r).Safe (disk v.id) (Guard v.id d₀)
      (fun _ d' => Unsaved v.id d₀ d') d := by
    unfold resetUnlessKnown
    split_ifs
    · refine ⟨⟨.inl h, nofun⟩, fun _ d' hd' => ?_⟩
      obtain rfl : d' = d.touch v.id := hd'
      exact h.touch
    · exact h
  refine hreset.seq fun clean d₁ h₁ => ?_
  split_ifs
  · exact ⟨h₁, by simp⟩
  have hwrite : (materializeFiles v.p v.c).Safe (disk v.id) (Guard v.id d₀)
      (fun _ d' => Unsaved v.id d₀ d') d₁ := by
    unfold materializeFiles
    split_ifs
    · refine ⟨⟨.inl h₁, nofun⟩, fun _ d' hd' => ?_⟩
      obtain rfl : d' = d₁.touch v.id := hd'
      exact h₁.touch
    · exact h₁
  refine hwrite.seq fun written d₂ h₂ => ?_
  split_ifs
  · exact ⟨h₂, by simp⟩
  refine ⟨⟨.inl h₂, nofun⟩, fun done d' hd' => ?_⟩
  cases done with
  | false =>
    obtain rfl : d' = d₂.touch v.id := hd'
    exact ⟨h₂.touch, nofun⟩
  | true =>
    obtain rfl : d' = d₂.succeed v.id := hd'
    exact ⟨h₂.succeed.1, fun _ => h₂.succeed.2⟩

theorem runProject_safe {r : Record} (hr : r.mark.length ≤ HM_MARK_MAX) (now : Int)
    (h : Unsaved v.id d₀ d) :
    (runProject v.p v.o v.c r now v.cacheDir).Safe (disk v.id) (Guard v.id d₀)
      (fun rc d' => Kept v.id d₀ d' ∧ (rc = HM_EXIT_OK → CleanSince v.id d'.log)) d := by
  obtain ⟨hck, hdr, had⟩ := v.o.modes v.normal
  have hkept : Kept v.id d₀ d := .inl h
  simp only [runProject, v.command, runCommandProject, hck, hdr, had, Bool.or_self,
    Bool.false_eq_true, ↓reduceIte]
  refine (hkept.still.only (report_only (fun _ => trivial) _ _)).seq fun _ d₁ h₁ => ?_
  subst h₁
  refine (commandSetup_safe v r h).seq fun done d₁ h₁ => ?_
  cases done with
  | false => exact ⟨.inl h₁.1, nofun⟩
  | true =>
    refine ⟨⟨.inl h₁.1, nofun⟩, fun saved d₂ h₂ => ?_⟩
    cases saved with
    | false =>
      obtain rfl : d₂ = d₁ := h₂
      exact ⟨.inl h₁.1, nofun⟩
    | true =>
      obtain rfl : d₂ = d₁.save _ := h₂
      have hsaved := saved_record (d := d₁) (r := { r with lastCheck := now, lastChange := now })
        v.one_line v.short hr (h₁.2 rfl)
      exact ⟨.inr hsaved, fun _ => hsaved.clean⟩

theorem underLock_safe (hs : Sound d) (h : d.saved = false ∧ d.began = false) :
    (underLock v.p v.o v.c v.cacheDir).Safe (disk v.id) (Guard v.id d) (Post v.id d) d := by
  have hkept : Kept v.id d d := .inl (.start h.1)
  refine (loadRecord_safe v.c hkept.still (disk_reads v.id d)).seq fun record d₁ h₁ => ?_
  obtain ⟨rfl, hr⟩ := h₁
  cases record with
  | none => exact ⟨hkept.still.guard _ trivial, fun _ d₂ h₂ => by
      obtain rfl : d₂ = d₁ := h₂
      exact ⟨hkept, fun ho => by rcases ho with ho | ho <;> cases ho⟩⟩
  | some r =>
    obtain rfl := hr r rfl
    refine ⟨hkept.still.guard _ trivial, fun now d₂ h₂ => ?_⟩
    obtain rfl : d₂ = d₁ := h₂
    refine (isDue_safe v.p v.o hkept.still _ now true).seq fun decision d₃ h₃ => ?_
    obtain ⟨rfl, hwait⟩ := h₃
    cases decision with
    | wait wait =>
      have hknown : Trusted v.id d₃ := known_of_wait v.p v.embedded (hwait wait rfl).2
      refine (hkept.still.only (reportSkip_silent v.p v.o wait)).seq fun _ d₄ h₄ => ?_
      subst h₄
      exact finishLocked_kept v.p v.o true hkept fun _ => hs v.id hknown
    | due =>
      refine (runProject_safe v (hmCacheLoad_mark_length _ _) now (.start h.1)).seq
        fun rc d₄ h₄ => ?_
      exact finishLocked_kept v.p v.o true h₄.1 h₄.2

theorem slowPath_safe (hs : Sound d) (h : d.saved = false ∧ d.began = false) (r : Record)
    (now : Int) : (slowPath v.p v.o v.c v.cacheDir r now).Safe (disk v.id) (Guard v.id d)
      (Post v.id d) d := by
  obtain ⟨hck, hdr, -⟩ := v.o.modes v.normal
  have hkept : Kept v.id d d := .inl (.start h.1)
  simp only [slowPath, hck, hdr, Bool.or_self, Bool.false_eq_true, ↓reduceIte]
  refine (hkept.still.only (hmCacheLock_silent v.c)).seq fun locked d₁ h₁ => ?_
  subst h₁
  cases locked with
  | false => exact ⟨hkept, fun ho => by rcases ho with ho | ho <;> cases ho⟩
  | true => exact underLock_safe v hs h

theorem visit_safe (hs : Sound d) (h : d.saved = false ∧ d.began = false) :
    v.prog.Safe (disk v.id) (Guard v.id d) (Post v.id d) d := by
  have hkept : Kept v.id d d := .inl (.start h.1)
  rw [v.prog_eq]
  refine (loadRecord_safe v.c hkept.still (disk_reads v.id d)).seq fun record d₁ h₁ => ?_
  obtain ⟨rfl, hr⟩ := h₁
  cases record with
  | none => exact ⟨hkept, fun ho => by rcases ho with ho | ho <;> cases ho⟩
  | some r =>
    obtain rfl := hr r rfl
    refine ⟨hkept.still.guard _ trivial, fun now d₂ h₂ => ?_⟩
    obtain rfl : d₂ = d₁ := h₂
    refine (isDue_safe v.p v.o hkept.still _ now _).seq fun decision d₃ h₃ => ?_
    obtain ⟨rfl, hwait⟩ := h₃
    cases decision with
    | due => exact slowPath_safe v hs h _ now
    | wait wait =>
      have hclean : CleanSince v.id d₃.log :=
        hs v.id (known_of_wait v.p v.embedded (hwait wait rfl).2)
      change (if execCheck v.p v.o then _ else _ : P Outcome).Safe _ _ _ _
      split_ifs
      · refine ⟨⟨hkept, fun _ _ _ => hclean⟩, fun (failed : Option Bytes) d₄ h₄ => ?_⟩
        obtain rfl : d₄ = d₃ := h₄
        cases failed with
        | none => exact ⟨hkept, fun _ => hclean⟩
        | some reason =>
          refine ⟨hkept.still.guard _ trivial, fun (there : Bool) d₅ h₅ => ?_⟩
          obtain rfl : d₅ = d₄ := h₅
          cases there with
          | false => exact slowPath_safe v hs h _ now
          | true =>
            refine ⟨hkept.still.guard _ trivial, fun _ d₆ h₆ => ?_⟩
            obtain rfl : d₆ = d₅ := h₆
            exact ⟨hkept, fun ho => by rcases ho with ho | ho <;> cases ho⟩
      · refine (hkept.still.only (reportSkip_silent v.p v.o wait)).seq fun _ d₄ h₄ => ?_
        subst h₄
        exact finish_safe v.p v.o hkept.still (fun _ _ _ _ hx => hx)
          (fun _ => ⟨fun _ _ => ⟨hkept, fun _ _ _ => hclean⟩, fun _ => ⟨hkept, fun _ => hclean⟩⟩)
          fun hrc => absurd rfl hrc

end Walk

section Histories
variable {path : Bytes}

/-- The disk after invocations of the file, each cut off anywhere; `C` restricts what
one of them may do to it. -/
inductive Visited (path : Bytes) (C : Visit path → Disk → Disk → Prop) : Disk → Prop
  | fresh {d : Disk} : d.record = none → Visited path C d
  | visit {d d' : Disk} {t : List (Interaction.Event calls)} {q : P Outcome} (v : Visit path) :
      Visited path C d → Steps (disk v.id) v.prog d.next t q d' → C v d d' → Visited path C d'

/-- A setup that began over a trusted record of another identity was saved. -/
def Completes (v : Visit path) (d d' : Disk) : Prop :=
  d'.began = false ∨ d'.saved = true ∨ ∀ x, Trusted x d → x = v.id

theorem steps_kept {v : Visit path} {d d' : Disk} {t : List (Interaction.Event calls)}
    {q : P Outcome} (hs : Sound d) (h : Steps (disk v.id) v.prog d.next t q d') :
    Kept v.id d.next d' := by
  have hsafe := (visit_safe v (d := d.next) hs ⟨rfl, rfl⟩).steps h
  cases q with
  | done out => exact hsafe.1
  | ask r k => exact hsafe.1.1

theorem Visited.sound {d : Disk} (h : Visited path Completes d) : Sound d := by
  induction h with
  | fresh hr =>
    intro x hx
    rw [Trusted, hr] at hx
    exact absurd hx (by simp [hmCacheLoad])
  | visit v _ hsteps hdone ih => exact (steps_kept ih hsteps).sound ih hdone

def HandsOver : P Outcome → Prop
  | .done out => Handed out
  | .ask r _ => ∃ path argv, r = .exec path argv

/-- As long as no setup is cut short over a record of another identity, a handover
finds the work directory as the last successful setup of its own identity left it,
touched by no other identity since. -/
theorem handover_clean {v : Visit path} {d d' : Disk} {t : List (Interaction.Event calls)}
    {q : P Outcome} (h : Visited path Completes d)
    (hsteps : Steps (disk v.id) v.prog d.next t q d') (hq : HandsOver q) :
    CleanSince v.id d'.log := by
  have hsafe := (visit_safe v (d := d.next) h.sound ⟨rfl, rfl⟩).steps hsteps
  cases q with
  | done out => exact hsafe.2 hq
  | ask r k =>
    obtain ⟨file, argv, rfl⟩ := hq
    exact hsafe.1.2 file argv rfl

end Histories

section Reverted

def editedText (line : Bytes) : Bytes := ascii "command: t\nfiles:\n  f: |\n    " ++ line ++ [LF]

def editedEvents (text : Bytes) : List Config.Event :=
  [.streamStart, .documentStart 1, .mappingStart 1, .scalar (ascii "command") (ascii "t") 1,
   .entryHeader (ascii "files") 2, .mappingStart 2, .blockStart (ascii "f") 3,
   .blockLine ⟨29, text.length - 30⟩, .blockEnd, .mappingEnd 5, .mappingEnd 5, .documentEnd,
   .streamEnd]

def editedLaunch (line : Bytes) : Launch where
  opts := { file := some (ascii "p.siml"), cacheDir := some (ascii "/c") }
  siml := editedEvents
  xxh3 := fun text => if text = editedText (ascii "a") then 1 else 2
  version := ascii "1.0"
  content := some (editedText line)
  canonical := true

def editedProject (line : Bytes) : Project where
  kind := .command
  name := ascii "t"
  command := ascii "t"
  schedKind := .every
  schedInterval := 86400
  sandboxed := true
  files := [{ path := ascii "f", content := ascii "    " ++ line, contentIndent := 4, line := 3 }]
  line := 1

def editedPath : Bytes := ascii "/c/cmd-0000000000000002"

def editedSlot (identity : Bytes) : Slot :=
  ⟨ascii "cmd-0000000000000002", identity, editedPath, editedPath ++ ascii ".work"⟩

def before : Visit editedPath where
  l := editedLaunch (ascii "a")
  p := editedProject (ascii "a")
  c := editedSlot (ascii "siml:0000000000000001 hacman:1.0")
  cacheDir := ascii "/c"
  run := by decide +kernel
  embedded := nofun
  normal := rfl
  at_path := rfl
  version := by decide

def edited : Visit editedPath where
  l := editedLaunch (ascii "b")
  p := editedProject (ascii "b")
  c := editedSlot (ascii "siml:0000000000000002 hacman:1.0")
  cacheDir := ascii "/c"
  run := by decide +kernel
  embedded := nofun
  normal := rfl
  at_path := rfl
  version := by decide

def serve (id : Bytes) (works : Bool) (d : Disk) (r : calls.Req) : calls.Ans r × Disk :=
  match r with
  | .read _ => (.ok d.record, d)
  | .reset _ => (true, d.touch id)
  | .materialize _ _ => (true, d.touch id)
  | .command _ _ _ _ => (works, if works = true then d.succeed id else d.touch id)
  | .install _ _ _ _ _ _ => (true, d.touch id)
  | .save _ content => (true, d.save content)
  | r => (obliging r, d)

theorem serve_answers (id : Bytes) (works : Bool) (d : Disk) (r : Call) :
    (disk id).answers d r (serve id works d r).1 (serve id works d r).2 := by
  cases r with
  | read file => exact ⟨fun content h => (Except.ok.inj h).symm, rfl⟩
  | _ => rfl

def Visit.ran {path : Bytes} (v : Visit path) (works : Bool) (d : Disk) : Outcome × Disk :=
  v.prog.eval (serve v.id works) d.next

theorem Visit.ran_steps {path : Bytes} (v : Visit path) (works : Bool) (d : Disk) :
    ∃ t, Steps (disk v.id) v.prog d.next t (.done (v.ran works d).1) (v.ran works d).2 :=
  eval_steps _ (serve_answers v.id works) v.prog d.next

theorem handover_clean_rerun :
    ∃ d d' t, Visited editedPath Completes d ∧
      Steps (disk before.id) before.prog d.next t (.done (.exit HM_EXIT_OK)) d' ∧
        CleanSince before.id d'.log := by
  obtain ⟨t, ht⟩ := before.ran_steps true {}
  have hd : Visited editedPath Completes (before.ran true {}).2 :=
    .visit before (.fresh rfl) ht (.inr (.inl (by decide +kernel)))
  obtain ⟨t', ht'⟩ := before.ran_steps true (before.ran true {}).2
  have hok : (before.ran true (before.ran true {}).2).1 = .exit HM_EXIT_OK := by decide +kernel
  rw [hok] at ht'
  exact ⟨_, _, t', hd, ht', handover_clean hd ht' (.inl rfl)⟩

/-- Set up, edited with a failing setup, reverted: the old record is a hit over the
leftovers of the edit. -/
theorem reverted_hands_over :
    ∃ d d' t, Visited editedPath (fun _ _ _ => True) d ∧
      Steps (disk before.id) before.prog d.next t (.done (.exit HM_EXIT_OK)) d' ∧
        ¬ CleanSince before.id d'.log := by
  obtain ⟨t₁, h₁⟩ := before.ran_steps true {}
  obtain ⟨t₂, h₂⟩ := edited.ran_steps false (before.ran true {}).2
  obtain ⟨t₃, h₃⟩ := before.ran_steps true (edited.ran false (before.ran true {}).2).2
  have hd := (Visited.fresh (C := fun _ _ _ => True) rfl).visit before h₁ trivial
  have hd := hd.visit edited h₂ trivial
  generalize hend : before.ran true (edited.ran false (before.ran true {}).2).2 = out at h₃
  have hout : out.1 = .exit HM_EXIT_OK ∧
      out.2.log = out.2.log.dropLast ++ [.touched edited.id] := by
    rw [← hend]
    decide +kernel
  rw [hout.1] at h₃
  refine ⟨_, _, t₃, hd, h₃, ?_⟩
  rw [hout.2]
  exact not_cleanSince_touched _ (by decide +kernel)

end Reverted

end Hacman.History
