import Hacman.Check
import Hacman.Modes

/-!
# What the next check compares

A text found in a response is cut to the marker buffer, saved as a field of the record,
loaded again and compared with the text of the next response. The two laws of that way
are settled over runs: when an unchanged response stays quiet, and when a different one
is noticed.
-/

namespace Hacman.Markers
open Octets Util Cache Interaction Main Requests Runs Check Modes

section Buffers

/-- Somewhere in the marker buffer, and not behind a NUL of the old text, the new text has
another byte than the one that the record keeps of the old text. -/
def Tells (old new : Bytes) : Prop :=
  ∃ i < HM_MARK_MAX, (∀ j < i, old.getD j 0 ≠ 0) ∧ cleanByte (old.getD i 0) ≠ new.getD i 0

theorem cleanByte_ne_zero {b : UInt8} (hb : b ≠ 0) : cleanByte b ≠ 0 := by
  unfold cleanByte
  split_ifs
  · decide
  · exact hb

theorem cstr_take_succ (cap : Nat) (s : Bytes) : cstr (s.take (cap + 1)) =
    if s.getD 0 0 = 0 then [] else s.getD 0 0 :: cstr (s.tail.take cap) := by
  cases s with
  | nil => rfl
  | cons b s =>
    have hget : (b :: s).getD 0 0 = b := rfl
    rw [hget, List.take_succ_cons, List.tail_cons]
    split_ifs with hb
    · simp [cstr, hb]
    · simp [cstr, hb]

theorem getD_succ (s : Bytes) (i : Nat) : s.getD (i + 1) 0 = s.tail.getD i 0 := by
  cases s <;> rfl

theorem clean_ne_iff (cap : Nat) (old new : Bytes) :
    (cstr (old.take cap)).map cleanByte ≠ cstr (new.take cap) ↔
      ∃ i < cap, (∀ j < i, old.getD j 0 ≠ 0) ∧ cleanByte (old.getD i 0) ≠ new.getD i 0 := by
  induction cap generalizing old new with
  | zero => simp [cstr]
  | succ cap ih =>
    have hsplit : (∃ i < cap + 1, (∀ j < i, old.getD j 0 ≠ 0) ∧
          cleanByte (old.getD i 0) ≠ new.getD i 0) ↔
        cleanByte (old.getD 0 0) ≠ new.getD 0 0 ∨ old.getD 0 0 ≠ 0 ∧
          ∃ i < cap, (∀ j < i, old.tail.getD j 0 ≠ 0) ∧
            cleanByte (old.tail.getD i 0) ≠ new.tail.getD i 0 := by
      rw [Nat.exists_lt_succ_left]
      simp only [Nat.forall_lt_succ_left, getD_succ, Nat.not_lt_zero, false_imp_iff, implies_true,
        true_and, and_assoc, and_left_comm (a := _ < cap), exists_and_left]
    rw [hsplit, ← ih, cstr_take_succ, cstr_take_succ]
    generalize old.getD 0 0 = b
    generalize new.getD 0 0 = b'
    have hzero : cleanByte 0 = 0 := by decide
    by_cases hb : b = 0 <;> by_cases hb' : b' = 0
    · simp [hb, hb', hzero]
    · simp [hb, hb', hzero, Ne.symm hb']
    · simp [hb, hb', cleanByte_ne_zero hb]
    · by_cases hsame : cleanByte b = b'
      · simp [hb, hb', hsame]
      · simp [hb, hb', hsame]

theorem tells_iff (old new : Bytes) : Tells old new ↔ (stored old).map cleanByte ≠ stored new :=
  (clean_ne_iff HM_MARK_MAX old new).symm

theorem stored_shaped (text : Bytes) :
    (0 : UInt8) ∉ stored text ∧ (stored text).length ≤ HM_MARK_MAX := by
  refine ⟨notMem_cstr _, (List.takeWhile_sublist _).length_le.trans ?_⟩
  exact List.length_take_le _ _

end Buffers

section Work
variable {T : Terms} {p : Project} {o : Opts} {c : Slot} {record : Option Bytes} {out : Outcome}
  {a : Account}

theorem ended_mark (hk : p.kind = .url) (h : Ended T p o c record out a) :
    (a.saved = true ∧ ∃ res r, T.check (some res) ∧ a.record = some (recordBytes c.identity r) ∧
        (r.mark = res.mark ∨ r.mark = hmStrCopy (HM_MARK_MAX + 1) res.mark)) ∨
      a.saved = false ∧ a.record = record := by
  cases h with
  | stopped => exact .inr ⟨rfl, rfl⟩
  | rested => exact .inr ⟨rfl, rfl⟩
  | worked hlast hlooks hcalls hwork hout =>
    unfold Worked at hwork
    rw [hk] at hwork
    cases hwork with
    | unheard => exact .inr ⟨rfl, rfl⟩
    | unchanged hcheck hprobe hsame hs =>
      refine (hs.kept rfl).imp_left fun ⟨hsaved, hrecord⟩ => ?_
      exact ⟨hsaved, _, _, hcheck, hrecord, .inl (changed_eq_false.mp hsame).2.2⟩
    | inspected => exact .inr ⟨rfl, rfl⟩
    | adopted hcheck _ _ _ _ hs =>
      refine (hs.kept rfl).imp_left fun ⟨hsaved, hrecord⟩ => ?_
      exact ⟨hsaved, _, _, hcheck, hrecord, .inr rfl⟩
    | installed hcheck _ _ _ _ hc hs =>
      cases hc with
      | done =>
        refine (hs.kept rfl).imp_left fun ⟨hsaved, hrecord⟩ => ?_
        exact ⟨hsaved, _, _, hcheck, hrecord, .inr rfl⟩
    | failed _ _ _ _ _ hc =>
      cases hc with
      | unprepared => exact .inr ⟨rfl, rfl⟩
      | failed => exact .inr ⟨rfl, rfl⟩

/-- Past an answer, a change is announced by the comparison with the loaded record, and
nothing is installed unless one was. -/
theorem ended_announced (hk : p.kind = .url) (h : Ended T p o c record out a) {res : CheckResult}
    (hres : a.observed = some res) : ∃ file missing, T.reads record (.ok file) ∧
      T.check (some res) ∧ Probed T p missing ∧
        a.announced = changed (hmCacheLoad c.identity file) res.mark missing ∧
          (a.announced = false → a.ran = false ∧ a.emptied = false) := by
  cases h with
  | stopped => cases hres
  | rested => cases hres
  | @worked file looks now _ rc held held' a' hlast hlooks hcalls hwork hout =>
    have hread := (hlooks _ (List.mem_of_getLast? hlast)).1
    have hheard : a'.observed = some res := hres
    unfold Worked at hwork
    rw [hk] at hwork
    cases hwork with
    | unheard => cases hheard
    | unchanged hcheck hprobe hsame hs =>
      cases hs <;> cases hheard <;>
        exact ⟨file, false, hread, hcheck, hprobe, hsame.symm, fun _ => ⟨rfl, rfl⟩⟩
    | inspected hcheck hprobe hdiff =>
      cases hheard
      exact ⟨file, _, hread, hcheck, hprobe, hdiff.symm, nofun⟩
    | adopted hcheck hprobe hdiff _ _ hs =>
      cases hs <;> cases hheard <;> exact ⟨file, _, hread, hcheck, hprobe, hdiff.symm, nofun⟩
    | installed hcheck hprobe hdiff _ _ hc hs =>
      cases hc
      cases hs <;> cases hheard <;> exact ⟨file, _, hread, hcheck, hprobe, hdiff.symm, nofun⟩
    | failed hcheck hprobe hdiff _ _ hc =>
      cases hc <;> cases hheard <;> exact ⟨file, _, hread, hcheck, hprobe, hdiff.symm, nofun⟩

end Work

section Responses
variable {path : Bytes} (v : Invocation path)

/-- A run reads the record as it is, and hears of its url what `hm_check` makes of this
output, or that the request failed. -/
structure Hears (T : Terms) (record : Option Bytes) (output : Bytes) : Prop where
  reads : ∀ file, T.reads record (.ok file) → file = record
  check : ∀ x, T.check x → x = none ∨ ∃ curl response,
    Delivers curl v.p v.o.timeout response output ∧
      (hmCheck curl v.l.xxh3 v.p v.o.timeout response).map Except.toOption = some x

def marks (output : Bytes) : Except Bytes Bytes :=
  extract v.l.xxh3 v.p (output.take (HM_BODY_MAX - 1))

/-- Another command line for the same project in the same slot. -/
structure Same (w : Invocation path) : Prop where
  project : w.p = v.p
  slot : w.c = v.c
  xxh3 : w.l.xxh3 = v.l.xxh3

/-- What the record is after a run that heard the output and saved, and after further
runs that heard it or failed in their request. -/
inductive Recorded (output : Bytes) : Option Bytes → Prop
  | first {w : Invocation path} {T : Terms} {record : Option Bytes}
    {t : List (Interaction.Event calls)}
      {out : Outcome} {a : Account} (hw : Same v w) (hears : Hears w T record output)
      (hrun : Steps (keeper T).env w.prog { record := record } t (.done out) a)
      (hsaved : a.saved = true) : Recorded output a.record
  | later {w : Invocation path} {T : Terms} {record : Option Bytes}
    {t : List (Interaction.Event calls)}
      {out : Outcome} {a : Account} (hw : Same v w) (hears : Hears w T record output)
      (hrecord : Recorded output record)
      (hrun : Steps (keeper T).env w.prog { record := record } t (.done out) a) :
      Recorded output a.record

variable {v} {T : Terms} {output text : Bytes} {record : Option Bytes} {out : Outcome} {a : Account}
  {t : List (Interaction.Event calls)}

theorem Hears.mark (h : Hears v T record output) (htext : marks v output = .ok text)
    {res : CheckResult} (hres : T.check (some res)) : res.mark = stored text := by
  rcases h.check _ hres with hnone | ⟨curl, response, hdelivers, hanswer⟩
  · cases hnone
  · rw [hmCheck_output hdelivers, Option.map_some, Option.some.injEq] at hanswer
    have htext' : extract v.l.xxh3 v.p (output.take (HM_BODY_MAX - 1)) = .ok text := htext
    simp only [judge, htext', Except.toOption, Option.some.injEq] at hanswer
    rw [← hanswer]

theorem Same.marks {w : Invocation path} (h : Same v w) : marks w = marks v := by
  funext output
  unfold Markers.marks
  rw [h.project, h.xxh3]

theorem Recorded.mark (h : Recorded v output record) (hk : v.p.kind = .url)
    (htext : marks v output = .ok text) :
    ∃ r, record = some (recordBytes v.c.identity r) ∧ r.mark = stored text := by
  have hsaves : ∀ {w : Invocation path} {T : Terms} {record : Option Bytes}
      {t : List (Interaction.Event calls)} {out : Outcome} {a : Account}, Same v w →
        Hears w T record output →
      Steps (keeper T).env w.prog { record := record } t (.done out) a →
      (a.saved = true ∧ ∃ r, a.record = some (recordBytes v.c.identity r) ∧ r.mark = stored text) ∨
        a.saved = false ∧ a.record = record := by
    intro w T record t out a hw hears hrun
    refine (ended_mark (hw.project ▸ hk) (act_ended w.run hrun)).imp_left ?_
    rintro ⟨hsaved, res, r, hres, hrecord, hmark⟩
    have hstored := hears.mark (hw.marks ▸ htext) hres
    rw [hw.slot] at hrecord
    refine ⟨hsaved, r, hrecord, ?_⟩
    rcases hmark with hmark | hmark
    · exact hmark.trans hstored
    · rw [hmark, hstored, copied_mark (stored_shaped text).2]
  induction h with
  | first hw hears hrun hsaved =>
    rcases hsaves hw hears hrun with ⟨-, hrecord⟩ | ⟨hnot, -⟩
    · exact hrecord
    · rw [hsaved] at hnot
      cases hnot
  | later hw hears _ hrun ih =>
    rcases hsaves hw hears hrun with ⟨-, hrecord⟩ | ⟨-, hkept⟩
    · exact hrecord
    · rw [hkept]
      exact ih

/-- What a run that hears an answer announces: a marker that differs from the text of the
record with its separators replaced, or a missing program. -/
theorem announced_iff {output' new : Bytes} (hk : v.p.kind = .url)
    (hold : marks v output = .ok text)
    (hnew : marks v output' = .ok new) (hrecord : Recorded v output record)
    (hears : Hears v T record output')
    (hrun : Steps (keeper T).env v.prog { record := record } t (.done out) a)
    (hheard : a.observed.isSome = true) : ∃ missing, Probed T v.p missing ∧
      (a.announced = true ↔ missing = true ∨ (stored text).map cleanByte ≠ stored new) ∧
        (a.announced = false → a.ran = false ∧ a.emptied = false) := by
  obtain ⟨res, hres⟩ := Option.isSome_iff_exists.mp hheard
  obtain ⟨file, missing, hread, hcheck, hprobe, hannounced, hquiet⟩ :=
    ended_announced hk (act_ended v.run hrun) hres
  obtain rfl : file = record := hears.reads _ hread
  obtain ⟨r, rfl, hmark⟩ := hrecord.mark hk hold
  have hloaded := load_saved v (hmark ▸ stored_shaped text)
  refine ⟨missing, hprobe, ?_, hquiet⟩
  rw [hannounced, hears.mark hnew hcheck, changed, hloaded.1, hloaded.2, hmark]
  simp

end Responses

section Visits

theorem urlLaunch_run :
    prepare (urlLaunch false {}) = .run (urlProject false) urlSlot (ascii "/c") := by
  decide +kernel

theorem urlLaunch_version : LF ∉ (urlLaunch false {}).version := by
  decide

theorem urlSlot_path : urlSlot.path = ascii "/c/url-0000000000000000" := rfl

def asked : Invocation (ascii "/c/url-0000000000000000") :=
  ⟨urlLaunch false {}, urlProject false, urlSlot, ascii "/c", urlLaunch_run, urlSlot_path,
    urlLaunch_version⟩

def etag (value : Bytes) : Bytes := (ascii "ETag: " ++ value) ++ [LF]

def visit (record : Option Bytes) (now : Int) (value : Bytes) : Scene :=
  ⟨.ok record, now, true, (judge (fun _ => 0) (urlProject false) (etag value)).toOption⟩

theorem visit_hears (record : Option Bytes) (now : Int) {value : Bytes} (h : value.length ≤ 1000) :
    Hears asked ((visit record now value).terms (urlProject false)) record (etag value) := by
  have hfits : (etag value).length ≤ HM_BODY_MAX - 1 := by
    have h₀ : (ascii "ETag: ").length = 6 := rfl
    have h₁ : HM_BODY_MAX = 4194304 := rfl
    simp only [etag, List.length_append, List.length_singleton]
    omega
  have hall : (etag value).take (HM_BODY_MAX - 1) = etag value := List.take_of_length_le hfits
  have hlen : (ascii "ETag: " ++ value).length ≤ HM_BODY_MAX - 1 := by
    rw [etag, List.length_append] at hfits
    omega
  refine ⟨fun file hfile => Except.ok.inj hfile, fun x hx => .inr ?_⟩
  have hdelivers : Delivers (ascii "curl") asked.p asked.o.timeout
      (fun _ => .forked (twoReads (ascii "ETag: " ++ value) [LF]) (.exited 0)) (etag value) :=
    twoReads_delivers (by decide) (List.cons_ne_nil _ _) hlen rfl
  refine ⟨_, _, hdelivers, ?_⟩
  rw [hmCheck_output hdelivers, hall]
  exact congrArg some (Eq.symm hx)

def firstVisit (value : Bytes) : Outcome × Account :=
  (main asked.l).eval ((visit none 1000 value).serve true) { record := none }

def secondVisit (value value' : Bytes) : Outcome × Account :=
  (main asked.l).eval ((visit (firstVisit value).2.record 200000 value').serve true)
    { record := (firstVisit value).2.record }

theorem firstVisit_recorded {value : Bytes} (h : value.length ≤ 1000)
    (hsaved : (firstVisit value).2.saved = true) :
    Recorded asked (etag value) (firstVisit value).2.record := by
  obtain ⟨t, ht⟩ := @serve_steps (urlProject false) (visit none 1000 value) true asked.l
    { record := none }
  exact .first ⟨rfl, rfl, rfl⟩ (visit_hears none 1000 h) ht hsaved

theorem secondVisit_runs (value value' : Bytes) : ∃ t,
    Steps (keeper ((visit (firstVisit value).2.record 200000 value').terms (urlProject false))).env
      asked.prog { record := (firstVisit value).2.record } t (.done (secondVisit value value').1)
        (secondVisit value value').2 :=
  serve_steps true asked.l _

end Visits

section Laws
variable {path : Bytes} {v : Invocation path} {T : Terms} {output text : Bytes}
  {record : Option Bytes} {out : Outcome} {a : Account} {t : List (Interaction.Event calls)}

/-- A later run that hears the same response stays quiet if and only if the text, cut to
the marker buffer, is one field of a record. -/
theorem unchanged_response (hk : v.p.kind = .url) (htext : marks v output = .ok text)
    (hrecord : Recorded v output record) (hears : Hears v T record output)
    (hthere : v.p.binCached = true → ¬ T.probe false)
    (hrun : Steps (keeper T).env v.prog { record := record } t (.done out) a)
    (hheard : a.observed.isSome = true) :
    (a.announced = false ∧ a.ran = false ∧ a.emptied = false) ↔ OneField (stored text) := by
  obtain ⟨missing, hprobe, hannounced, hquiet⟩ :=
    announced_iff hk htext htext hrecord hears hrun hheard
  have hpresent : missing = false := by
    by_contra hm
    rw [Bool.not_eq_false] at hm
    obtain ⟨hb, hgone⟩ := hprobe.1 hm
    exact hthere hb hgone
  rw [← map_cleanByte_eq_self]
  constructor
  · rintro ⟨hno, -, -⟩
    by_contra hdiff
    rw [hannounced.mpr (.inr hdiff)] at hno
    cases hno
  · intro hsame
    have hno : a.announced = false := by
      by_contra hyes
      rw [Bool.not_eq_false, hannounced, hpresent, hsame] at hyes
      simp at hyes
    exact ⟨hno, hquiet hno⟩

theorem unchanged_response_plain : ∃ t,
    Steps (keeper ((visit (firstVisit (ascii "v1")).2.record 200000 (ascii "v1")).terms
      (urlProject false))).env asked.prog { record := (firstVisit (ascii "v1")).2.record } t
        (.done (secondVisit (ascii "v1") (ascii "v1")).1)
          (secondVisit (ascii "v1") (ascii "v1")).2 ∧
      (secondVisit (ascii "v1") (ascii "v1")).2.announced = false := by
  obtain ⟨t, ht⟩ := secondVisit_runs (ascii "v1") (ascii "v1")
  have htext : marks asked (etag (ascii "v1")) = .ok (ascii "v1") := by decide +kernel
  have hquiet := unchanged_response rfl htext (firstVisit_recorded (by decide) (by decide +kernel))
    (visit_hears _ _ (by decide)) nofun ht (by decide +kernel)
  exact ⟨t, ht, (hquiet.mpr (map_cleanByte_eq_self.mp (by decide))).1⟩

/-- A marker with a tab is a change on every check. -/
theorem tab_never_unchanged : ∃ (T : Terms) (output : Bytes) (record : Option Bytes)
    (t : List (Interaction.Event calls)) (out : Outcome) (a : Account),
    marks asked output = .ok (ascii "a\tb") ∧ Recorded asked output record ∧
      Hears asked T record output ∧
        Steps (keeper T).env asked.prog { record := record } t (.done out) a ∧
          a.observed.isSome = true ∧ a.announced = true ∧ a.emptied = true := by
  obtain ⟨t, ht⟩ := secondVisit_runs (ascii "a\tb") (ascii "a\tb")
  exact ⟨_, etag (ascii "a\tb"), _, t, _, _, by decide +kernel,
    firstVisit_recorded (by decide) (by decide +kernel), visit_hears _ _ (by decide), ht,
      by decide +kernel, by decide +kernel, by decide +kernel⟩

/-- A run that hears another response announces a change if and only if the buffers tell
the texts apart, or the cached program is missing. -/
theorem changed_marker {output' new : Bytes} {there : Bool} (hk : v.p.kind = .url)
    (hold : marks v output = .ok text) (hnew : marks v output' = .ok new)
    (hrecord : Recorded v output record) (hears : Hears v T record output')
    (hprobe : ∀ b, T.probe b ↔ b = there)
    (hrun : Steps (keeper T).env v.prog { record := record } t (.done out) a)
    (hheard : a.observed.isSome = true) :
    a.announced = true ↔ Tells text new ∨ v.p.binCached = true ∧ there = false := by
  obtain ⟨missing, hprobed, hannounced, -⟩ :=
    announced_iff hk hold hnew hrecord hears hrun hheard
  have hmissing : missing = true ↔ v.p.binCached = true ∧ there = false := by
    constructor
    · intro hm
      obtain ⟨hb, hgone⟩ := hprobed.1 hm
      exact ⟨hb, ((hprobe _).mp hgone).symm⟩
    · rintro ⟨hb, rfl⟩
      by_contra hm
      rw [Bool.not_eq_true] at hm
      exact absurd ((hprobe _).mp (hprobed.2 hm hb)) (by decide)
  rw [hannounced, hmissing, tells_iff]
  exact or_comm

theorem changed_marker_plain : ∃ t,
    Steps (keeper ((visit (firstVisit (ascii "v1")).2.record 200000 (ascii "v2")).terms
      (urlProject false))).env asked.prog { record := (firstVisit (ascii "v1")).2.record } t
        (.done (secondVisit (ascii "v1") (ascii "v2")).1)
          (secondVisit (ascii "v1") (ascii "v2")).2 ∧
      (secondVisit (ascii "v1") (ascii "v2")).2.announced = true := by
  obtain ⟨t, ht⟩ := secondVisit_runs (ascii "v1") (ascii "v2")
  have hold : marks asked (etag (ascii "v1")) = .ok (ascii "v1") := by decide +kernel
  have hnew : marks asked (etag (ascii "v2")) = .ok (ascii "v2") := by decide +kernel
  have htold := changed_marker rfl hold hnew
    (firstVisit_recorded (by decide) (by decide +kernel)) (visit_hears _ _ (by decide))
      (fun b => Iff.rfl) ht (by decide +kernel)
  exact ⟨t, ht, htold.mpr (.inl ⟨1, by decide, by decide, by decide⟩)⟩

/-- A tab that becomes a space is not noticed. -/
theorem tab_to_space_missed : ∃ (T : Terms) (output output' : Bytes) (record : Option Bytes)
    (t : List (Interaction.Event calls)) (out : Outcome) (a : Account),
    marks asked output = .ok (ascii "a\tb") ∧ marks asked output' = .ok (ascii "a b") ∧
      Recorded asked output record ∧ Hears asked T record output' ∧
        Steps (keeper T).env asked.prog { record := record } t (.done out) a ∧
          a.observed.isSome = true ∧ a.announced = false := by
  obtain ⟨t, ht⟩ := secondVisit_runs (ascii "a\tb") (ascii "a b")
  exact ⟨_, etag (ascii "a\tb"), etag (ascii "a b"), _, t, _,
    _, by decide +kernel, by decide +kernel,
    firstVisit_recorded (by decide) (by decide +kernel), visit_hears _ _ (by decide), ht,
      by decide +kernel, by decide +kernel⟩

end Laws

end Hacman.Markers
