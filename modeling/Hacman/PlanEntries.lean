import Hacman.PlanLines

/-!
# What the entries of a plan say

Most entries of a plan are texts of the printer around a number, a key or an accepted value, and the
grammar takes them as they stand. That leaves the name, which may have been cut out of a longer
value, and the paths, which come from the environment.
-/

namespace Hacman.PlanSiml
open Octets Util Config Plan PlanBlocks Siml

section Values
variable {u v : Bytes} {p : Project} {c : Slot}

def inert (b : UInt8) : Bool := b ≠ LF && b ≠ CR && b ≠ TAB && b ≠ HASH

theorem inert_bytes (h : v.all inert = true) : HASH ∉ v ∧ ∀ b ∈ v, b ≠ LF ∧ b ≠ CR ∧ b ≠ TAB := by
  have hall : ∀ b ∈ v, (b ≠ LF ∧ b ≠ CR ∧ b ≠ TAB) ∧ b ≠ HASH := by
    simpa [inert, and_assoc] using h
  exact ⟨fun hm => (hall HASH hm).2 rfl, fun b hb => (hall b hb).1⟩

theorem plain_behind (h : Plain v) (hu : u.all inert = true ∧ u.getLast?.getD SPACE = SPACE ∧
      (u.head? ≠ some SPACE ∧ u.head? ≠ some PIPE ∧ u.head? ≠ some BRACKET_OPEN))
    (hlen : u.length + v.length ≤ SIML_MAX_INLINE_VALUE_LEN) : Plain (u ++ v) := by
  obtain ⟨hinert, hspace, hhead⟩ := hu
  obtain ⟨hhash, hbytes⟩ := inert_bytes hinert
  refine ⟨List.append_ne_nil_of_right_ne_nil u h.ne_nil, by rwa [List.length_append],
    ?_, ?_, ?_, ?_⟩
  · intro b hb
    exact (List.mem_append.mp hb).elim (hbytes b) (h.bytes b)
  · cases u with
    | nil => exact h.head
    | cons b u => exact hhead
  · rw [List.getLast?_append_of_ne_nil u h.ne_nil]
    exact h.last
  · exact hashAt_append_eq_none.mpr ⟨hashAt_of_notMem _ hhash, by rw [hspace, h.hash]⟩

theorem plain_before (h : Plain u) (hv : v.all inert = true ∧ v ≠ [] ∧ v.getLast? ≠ some SPACE)
    (hlen : u.length + v.length ≤ SIML_MAX_INLINE_VALUE_LEN) : Plain (u ++ v) := by
  obtain ⟨hinert, hne, hlast⟩ := hv
  obtain ⟨hhash, hbytes⟩ := inert_bytes hinert
  refine ⟨List.append_ne_nil_of_right_ne_nil u hne, by rwa [List.length_append], ?_, ?_, ?_, ?_⟩
  · intro b hb
    exact (List.mem_append.mp hb).elim (h.bytes b) (hbytes b)
  · rw [List.head?_append_of_ne_nil u h.ne_nil]
    exact h.head
  · rwa [List.getLast?_append_of_ne_nil u hne]
  · exact hashAt_append_eq_none.mpr ⟨h.hash, hashAt_of_notMem _ hhash⟩

def wordByte (b : UInt8) : Bool := inert b && b ≠ SPACE && b ≠ PIPE && b ≠ BRACKET_OPEN

theorem plain_word (hne : v ≠ []) (hlen : v.length ≤ SIML_MAX_INLINE_VALUE_LEN)
    (hv : ∀ b ∈ v, wordByte b = true) : Plain v := by
  have hall : ∀ b ∈ v, inert b = true ∧ b ≠ SPACE ∧ b ≠ PIPE ∧ b ≠ BRACKET_OPEN := by
    simpa [wordByte, and_assoc] using hv
  obtain ⟨hhash, hbytes⟩ := inert_bytes (List.all_eq_true.mpr fun b hb => (hall b hb).1)
  have hfirst (b : UInt8) (hb : ¬ (b ≠ SPACE ∧ b ≠ PIPE ∧ b ≠ BRACKET_OPEN)) : v.head? ≠ some b :=
    fun hh =>
    hb (hall b (List.mem_of_head? hh)).2
  refine ⟨hne, hlen, hbytes, ⟨hfirst _ (by decide), hfirst _ (by decide), hfirst _ (by decide)⟩,
    fun hl => ?_, hashAt_of_notMem _ hhash⟩
  exact (hall SPACE (List.mem_of_getLast? hl)).2.1 rfl

theorem wordByte_digit {b : UInt8} (h : isDigit b = true) : wordByte b = true := by
  simp only [wordByte, inert, Bool.and_eq_true, decide_eq_true_eq, and_assoc]
  refine ⟨?_, ?_, ?_, ?_, ?_, ?_, ?_⟩ <;> rintro rfl <;> revert h <;> decide

theorem digits_word (n x : Nat) : ∀ b ∈ (revDigits n x).reverse, wordByte b = true := fun b hb =>
  wordByte_digit (revDigits_isDigit n x b (List.mem_reverse.mp hb))

theorem digits_plain (x : Nat) : Plain (revDigits 24 x).reverse := by
  refine plain_word ?_ ?_ (digits_word 24 x)
  · simp [revDigits]
  · rw [List.length_reverse]
    exact (revDigits_length_le 24 x).trans (by decide)

theorem scheduleDigits_word (x : Int) : ∀ b ∈ scheduleDigits x, wordByte b = true := by
  unfold scheduleDigits
  split_ifs
  · have hcheck : ∀ k : Fin 10, wordByte (48 - (k : Int)).toNat.toUInt8 = true := by decide
    intro b hb
    rw [List.mem_singleton] at hb
    subst hb
    have hlow : -10 < x.tmod 10 := Int.lt_tmod_of_pos x (by decide)
    have hneg := Int.tmod_nonneg 10 (show 0 ≤ -x by omega)
    rw [Int.neg_tmod] at hneg
    have hk := hcheck ⟨(-x.tmod 10).toNat, by omega⟩
    have hsame : 48 + x.tmod 10 = 48 - ((-x.tmod 10).toNat : Int) := by omega
    rw [hsame]
    exact hk
  · exact digits_word 24 x.toNat

theorem schedule_plain (p : Project) : Plain (hmSchedDescribe p 32) := by
  unfold hmSchedDescribe
  split
  · decide
  · decide
  · have hunit : ∀ b ∈ (inUnits p.schedInterval).1, wordByte b = true := by
      have hunits : ∀ u ∈ scheduleUnits, ∀ b ∈ u.1, wordByte b = true := by
        simpa only [List.all_eq_true] using (by decide :
          scheduleUnits.all (fun u => u.1.all wordByte) = true)
      unfold inUnits
      cases hfind : scheduleUnits.find? fun u => p.schedInterval.tmod u.2 = 0 with
      | none =>
        have hsecond : ∀ b ∈ ascii "s", wordByte b = true := List.all_eq_true.mp (by decide)
        exact hsecond
      | some u => exact hunits u (List.mem_of_find?_eq_some hfind)
    dsimp only
    refine plain_word ?_ ((List.length_take_le _ _).trans (by decide)) fun b hb => ?_
    · have hdigits : scheduleDigits (inUnits p.schedInterval).2 ≠ [] := by
        unfold scheduleDigits
        split_ifs
        · exact List.cons_ne_nil _ _
        · simp [revDigits]
      simp [List.take_eq_nil_iff, hdigits]
    · exact (List.mem_append.mp (List.mem_of_mem_take hb)).elim (scheduleDigits_word _ b) (hunit b)

end Values

section Lines
variable {ks vs : List Char} {v : Bytes} {es es' : List (Bytes × Bytes)} {C C' D : Prop}
  {R R' : List (Bytes × Value)}

def keys : List Bytes := [ascii "name", ascii "command", ascii "url", ascii "install"]

/-- Entries that the grammar takes under `C`, and that say `R`. -/
structure Lines (es : List (Bytes × Bytes)) (C : Prop) (R : List (Bytes × Value)) : Prop where
  entry : ∀ e ∈ es, Entry keys e
  inline : (∀ e ∈ es, InlineValue e.2) ↔ C
  told : es.flatMap (said keys) = R

theorem Lines.nil : Lines [] True [] := ⟨nofun, by simp, rfl⟩

theorem Lines.cons {e : Bytes × Bytes} (he : Entry keys e) (hc : InlineValue e.2 ↔ D)
    (h : Lines es C R) : Lines (e :: es) (D ∧ C) (said keys e ++ R) := by
  refine ⟨List.forall_mem_cons.mpr ⟨he, h.entry⟩, ?_, ?_⟩
  · rw [List.forall_mem_cons, hc, h.inline]
  · rw [List.flatMap_cons, h.told]

theorem Lines.congr (h : Lines es C R) (hc : C ↔ C') : Lines es C' R :=
  ⟨h.entry, h.inline.trans hc, h.told⟩

theorem Lines.append (h : Lines es C R) (h' : Lines es' C' R') :
    Lines (es ++ es') (C ∧ C') (R ++ R') := by
  refine ⟨List.forall_mem_append.mpr ⟨h.entry, h'.entry⟩, ?_, ?_⟩
  · rw [List.forall_mem_append, h.inline, h'.inline]
  · rw [List.flatMap_append, h.told, h'.told]

theorem Lines.plain (hkey : Key (octets ks) ∧ octets ks ∉ keys) (hv : Plain v) (h : Lines es C R) :
    Lines ((ascii (String.ofList ks), v) :: es) C R := by
  rw [ascii_ofList]
  have hline := h.cons (entry_plain hkey.1 hv) (iff_of_true hv.inlineValue trivial)
  rw [said_of_notMem hkey.2, List.nil_append] at hline
  exact hline.congr (iff_of_eq (true_and C))

theorem Lines.word (hline : (Key (octets ks) ∧ octets ks ∉ keys) ∧ Plain (octets vs))
    (h : Lines es C R) :
    Lines ((ascii (String.ofList ks), ascii (String.ofList vs)) :: es) C R := by
  rw [ascii_ofList vs]
  exact h.plain hline.1 hline.2

theorem Lines.shown (hkey : Key (octets ks) ∧ octets ks ∈ keys) (hv : Plain v) (h : Lines es C R) :
    Lines ((ascii (String.ofList ks), v) :: es) C ((ascii (String.ofList ks), .scalar v) :: R) := by
  rw [ascii_ofList]
  have hline := h.cons (entry_plain hkey.1 hv) (iff_of_true hv.inlineValue trivial)
  rw [said_of_mem hkey.2, List.singleton_append] at hline
  exact hline.congr (iff_of_eq (true_and C))

theorem Lines.path (hkey : Key (octets ks) ∧ octets ks ∉ keys) (hv : Path v) (h : Lines es C R) :
    Lines ((ascii (String.ofList ks), v) :: es) (InlineValue v ∧ C) R := by
  have hlen := hv.length_le
  simp only [HM_PATH_MAX] at hlen
  have hentry : Entry keys (octets ks, v) :=
    ⟨⟨hkey.1, rfl, by dsimp only; omega, hv.ne_nil, hv.head⟩, hv.lf, hv.fits,
      fun hmem => absurd hmem hkey.2⟩
  have hline := h.cons hentry Iff.rfl
  rw [said_of_notMem hkey.2, List.nil_append] at hline
  rwa [ascii_ofList]

end Lines

section Head
variable {p : Project} {c : Slot} {u : Bytes} {n : Nat}

theorem cut_plain (h : Plain u) (hne : u.take n ≠ []) (hlast : (u.take n).getLast? ≠ some SPACE) :
    Plain (u.take n) := by
  refine ⟨hne, (List.length_take_le' n u).trans h.length_le,
    fun b hb => h.bytes b (List.mem_of_mem_take hb), ?_,
    hlast, hashAt_prefix (List.take_prefix n u) h.hash⟩
  rw [List.head?_take, if_neg fun hn => hne (by rw [hn, List.take_zero])]
  exact h.head

theorem name_entry (h : Printable p c) : Entry keys (ascii "name", p.name) ∧
    (InlineValue p.name ↔ p.name.getLast? ≠ some SPACE) := by
  obtain ⟨u, hu, hname⟩ := h.values.name.resolve_left h.settled.name
  have hne := h.settled.name
  rw [hname] at hne ⊢
  have hhead : (u.take HM_NAME_MAX).head? = u.head? := by
    rw [List.head?_take, if_neg (by decide)]
  have hlen : (u.take HM_NAME_MAX).length ≤ HM_NAME_MAX := List.length_take_le _ _
  have hkey : Key (ascii "name") := by decide
  refine ⟨⟨⟨hkey, rfl, ?_, hne, by rw [hhead]; exact hu.head.1⟩,
    fun hm => hu.lf (List.mem_of_mem_take hm),
    hlen.trans (by decide), fun _ hv => cut_plain hu hne hv.last⟩, fun hv => hv.last,
    fun hlast => ?_⟩
  · simp only [HM_NAME_MAX] at hlen ⊢
    omega
  · exact (cut_plain hu hne hlast).inlineValue

theorem headEntries_lines (h : Printable p c) : Lines (headEntries p c)
    (p.name.getLast? ≠ some SPACE ∧ (p.sandboxed = true → InlineValue c.workdir))
    [(ascii "name", .scalar p.name)] := by
  obtain ⟨hname, hlast⟩ := name_entry h
  have hsaid : said keys (ascii "name", p.name) = [(ascii "name", .scalar p.name)] :=
    said_of_mem (show ascii "name" ∈ keys by decide)
  cases hs : p.sandboxed with
  | false =>
    have hentries : headEntries p c = [(ascii "name", p.name),
        (ascii "sandboxed", ascii "false")] := by
      simp [headEntries, hs]
    have hrest : Lines [(ascii "sandboxed", ascii "false")] True [] := Lines.nil.word (by decide)
    have hlines := Lines.cons hname hlast hrest
    rw [hsaid] at hlines
    rw [hentries]
    exact hlines.congr (by simp)
  | true =>
    have hentries : headEntries p c = [(ascii "name", p.name), (ascii "sandboxed", ascii "true"),
        (ascii "sandbox-write-dir", c.workdir)] := by
      simp [headEntries, hs]
    have hrest : Lines [(ascii "sandboxed", ascii "true"), (ascii "sandbox-write-dir", c.workdir)]
        (InlineValue c.workdir ∧ True) [] :=
      (Lines.nil.path (by decide) h.workdir).word (by decide)
    have hlines := Lines.cons hname hlast hrest
    rw [hsaid] at hlines
    rw [hentries]
    exact hlines.congr (by simp)

end Head

section Kind
variable {p : Project} {c : Slot}

theorem request_plain {method : Bytes} (hmethod : method = ascii "HEAD " ∨ method = ascii "GET ")
    (hurl : Plain p.url) (hlen : p.url.length ≤ HM_URL_MAX) : Plain (method ++ p.url) := by
  simp only [HM_URL_MAX] at hlen
  have hroom : method.length ≤ 5 := by rcases hmethod with rfl | rfl <;> decide
  refine plain_behind hurl ?_ (by simp only [SIML_MAX_INLINE_VALUE_LEN]; omega)
  rcases hmethod with rfl | rfl <;> decide

theorem checkEntries_lines (h : Printable p c) (hk : p.kind = .url) :
    Lines (checkEntries p) True [] := by
  have hurl : Plain p.url := h.values.url.resolve_left (h.settled.url hk)
  have hhead := request_plain (.inl rfl) hurl h.url
  have hget := request_plain (.inr rfl) hurl h.url
  have hname : Plain (hmCheckName p.check) := by cases p.check <;> decide
  unfold checkEntries
  refine Lines.plain (by decide) hname ?_
  cases hcheck : p.check with
  | etag => exact (Lines.nil.word (by decide)).plain (by decide) hhead
  | hash => exact (Lines.nil.word (by decide)).plain (by decide) hget
  | version =>
    have hprefix : Plain p.versionPrefix :=
      h.values.versionPrefix.resolve_left (h.settled.versionPrefix hk hcheck)
    by_cases hsuffix : p.versionSuffix = []
    · simp only [hsuffix, ne_eq, not_true_eq_false, if_false, List.append_nil,
        List.singleton_append]
      exact ((Lines.nil.word (by decide)).plain (by decide) hget).plain (by decide) hprefix
    · have hplain := h.values.versionSuffix.resolve_left hsuffix
      simp only [hsuffix, ne_eq, not_false_eq_true, if_true, List.cons_append]
      exact (((Lines.nil.word (by decide)).plain (by decide) hget).plain (by decide) hplain).plain
        (by decide) hprefix

def shownTask (p : Project) : List (Bytes × Value) :=
  match p.kind with
  | .command => [(ascii "command", .scalar p.command)]
  | .url => [(ascii "url", .scalar p.url)]

theorem kindEntries_lines (h : Printable p c) :
    Lines (kindEntries p c) (p.kind = .command → InlineValue c.workdir) (shownTask p) := by
  unfold kindEntries shownTask
  cases hk : p.kind with
  | url =>
    have hurl : Plain p.url := h.values.url.resolve_left (h.settled.url hk)
    exact ((checkEntries_lines h hk).shown (by decide) hurl).congr (by simp)
  | command =>
    have hcommand : Plain p.command := h.values.command.resolve_left (h.settled.command hk)
    have htask : Lines [(ascii "command", p.command), (ascii "workdir", c.workdir),
        text "run" "/bin/sh -c <command>, in workdir", text "record-when" "the command exits 0"]
        (InlineValue c.workdir ∧ True) [(ascii "command", .scalar p.command)] :=
      (((Lines.nil.word (by decide)).word (by decide)).path (by decide) h.workdir).shown
        (by decide) hcommand
    by_cases hfiles : p.files = []
    · simp only [hfiles, if_true, List.append_nil]
      exact htask.congr (by simp)
    · have hwritten : Lines [(ascii "files-dir", c.workdir),
          text "files-written" "before command execution"] (InlineValue c.workdir ∧ True) [] :=
        (Lines.nil.word (by decide)).path (by decide) h.workdir
      simp only [hfiles, if_false]
      exact (htask.append hwritten).congr (by simp)

end Kind

section Tail
variable {p : Project} {c : Slot}

theorem after_plain {front : String} (hfront : front = "" ∨
    front = "inputs change, cached executable is missing, or ") : Plain (after p front).2 := by
  have hdigits : (revDigits 24 (intervalWord p)).reverse.length ≤ 24 := by
    rw [List.length_reverse]
    exact revDigits_length_le 24 _
  have hroom : (ascii front).length ≤ 64 := by rcases hfront with rfl | rfl <;> decide
  have hback : (ascii " seconds after the last run").length ≤ 64 := by decide
  refine plain_before (plain_behind (digits_plain _) ?_ ?_) (by decide) ?_
  · rcases hfront with rfl | rfl <;> decide
  · simp only [SIML_MAX_INLINE_VALUE_LEN]
    omega
  · simp only [SIML_MAX_INLINE_VALUE_LEN, List.length_append]
    omega

theorem scheduleEntries_lines (p : Project) : Lines (scheduleEntries p) True [] := by
  have hsched := schedule_plain p
  have hlater : Plain (after p "").2 := after_plain (.inl rfl)
  have hpassed : Plain (after p "inputs change, cached executable is missing, or ").2 :=
    after_plain (.inr rfl)
  unfold scheduleEntries
  by_cases hfiles : p.files = []
  · rw [if_neg (by simpa using hfiles)]
    cases p.schedKind with
    | always => exact (Lines.nil.word (by decide)).plain (by decide) hsched
    | never => exact (Lines.nil.word (by decide)).plain (by decide) hsched
    | every => exact (Lines.nil.plain (by decide) hlater).plain (by decide) hsched
  · rw [if_pos hfiles]
    have hpolicy : Lines [text "cache-policy" "input path, command, and embedded-file contents",
        text "workdir-policy" "stable per input path, cleared when inputs change"] True [] :=
      (Lines.nil.word (by decide)).word (by decide)
    have hwhen : Lines (if !p.scheduleExplicit || p.schedKind = .never then
          [text "check-when" "inputs change, cached executable is missing, or with --force"]
        else [(ascii "schedule", hmSchedDescribe p 32), if p.schedKind = .always then
            text "check-when" "inputs change, cached executable is missing, or on every invocation"
          else after p "inputs change, cached executable is missing, or "]) True [] := by
      split_ifs
      · exact Lines.nil.word (by decide)
      · exact (Lines.nil.word (by decide)).plain (by decide) hsched
      · exact (Lines.nil.plain (by decide) hpassed).plain (by decide) hsched
    exact (hpolicy.append hwhen).congr (by simp)

theorem binEntries_lines (h : Printable p c) :
    Lines (binEntries p) (p.binPath ≠ [] → InlineValue p.binPath) [] := by
  unfold binEntries
  by_cases hbin : p.binPath = []
  · rw [if_pos hbin]
    exact Lines.nil.congr (by simp [hbin])
  · rw [if_neg hbin]
    have hpath : Lines [(ascii "bin-path", p.binPath),
        text "exec" "bin-path, with every argument that followed FILE"]
        (InlineValue p.binPath ∧ True) [] :=
          (Lines.nil.word (by decide)).path (by decide) (h.bin hbin)
    have happend {es : List (Bytes × Bytes)} (hname : Lines es True []) :=
      (hname.append hpath).congr (show _ ↔ (p.binPath ≠ [] → InlineValue p.binPath) by simp [hbin])
    refine happend ?_
    cases hchoice : p.binChoice with
    | single => exact Lines.nil
    | named => exact Lines.nil.plain (by decide) (h.values.binName (by simp [hchoice])).plain
    | default =>
      have hkey := h.values.binName (by simp [hchoice])
      have hlen := hkey.length_le
      have hback : (ascii " (default)").length = 10 := by decide
      refine Lines.nil.plain (by decide) (plain_before hkey.plain (by decide) ?_)
      simp only [SIML_MAX_KEY_LEN, SIML_MAX_INLINE_VALUE_LEN] at hlen ⊢
      omega

def flowEnds (text : Bytes) : Nat → List FlowFrame → Bool
  | 0, _ => false
  | n + 1, frames =>
    match flowStep text frames with
    | .error _ => false
    | .ok (_, []) => true
    | .ok (_, frame :: frames) => flowEnds text n (frame :: frames)

theorem flowRuns_of_ends {text : Bytes} {n : Nat} {frames : List FlowFrame}
    (h : flowEnds text n frames = true) : FlowRuns text frames := by
  induction n generalizing frames with
  | zero => cases h
  | succ n ih =>
    unfold flowEnds at h
    split at h
    · cases h
    · rename_i hstep
      exact .last hstep
    · rename_i hstep
      exact .next hstep (List.cons_ne_nil _ _) (ih h)

theorem envNames_flow (p : Project) :
    (flowEnds (envNames p) 8 [⟨(envNames p).length - 1, 1, false⟩] = true ∧
      parseInlineComment (envNames p) = .ok (envNames p)) ∧
      (envNames p).all inert = true ∧ (envNames p).getLast? ≠ some SPACE ∧
      (envNames p).length ≤ 128 ∧ (envNames p).head? = some BRACKET_OPEN := by
  unfold envNames
  rw [ascii_ofList, ascii_ofList, ascii_ofList]
  split_ifs <;> decide +kernel

theorem envNames_inline (p : Project) : InlineValue (envNames p) := by
  obtain ⟨⟨hflow, hcomment⟩, hinert, hlast, -, hhead⟩ := envNames_flow p
  obtain ⟨-, hbytes⟩ := inert_bytes hinert
  refine ⟨fun hm => (hbytes CR hm).2.1 rfl, fun hm => (hbytes TAB hm).2.2 rfl, hlast, envNames p,
    hcomment, ?_, ?_, fun _ => flowRuns_of_ends hflow⟩
  · intro hnil
    rw [hnil] at hhead
    cases hhead
  · rw [hhead]
    decide

theorem envNames_entry (p : Project) : Entry keys (ascii "install-env", envNames p) := by
  have hkey : Key (ascii "install-env") ∧ ascii "install-env" ∉ keys := by decide
  obtain ⟨-, hinert, -, hlen, hhead⟩ := envNames_flow p
  obtain ⟨-, hbytes⟩ := inert_bytes hinert
  refine ⟨⟨hkey.1, rfl, by dsimp only; omega, fun hnil => ?_, ?_⟩, fun hm => (hbytes LF hm).1 rfl,
    hlen.trans (by decide), fun hmem => absurd hmem hkey.2⟩
  · dsimp only at hnil
    rw [hnil] at hhead
    cases hhead
  · dsimp only
    rw [hhead]
    decide

def shownNone (p : Project) : List (Bytes × Value) :=
  if p.kind = .url ∧ p.install = [] then [(ascii "install", .scalar noInstall)] else []

theorem installEntries_lines (p : Project) : Lines (installEntries p) True (shownNone p) := by
  unfold installEntries shownNone
  by_cases hk : p.kind = .url
  · by_cases hinstall : p.install = []
    · rw [if_pos hk, if_pos hinstall, if_pos ⟨hk, hinstall⟩]
      exact Lines.nil.shown (by decide) (by decide)
    · have hnone : said keys (ascii "install-env", envNames p) = [] :=
        said_of_notMem (show ascii "install-env" ∉ keys by decide)
      have hlines := Lines.nil.cons (envNames_entry p) (iff_of_true (envNames_inline p) trivial)
      rw [hnone] at hlines
      rw [if_pos hk, if_neg hinstall, if_neg fun h => hinstall h.2]
      exact (hlines.word (by decide)).congr (by simp)
  · rw [if_neg hk, if_neg fun h => hk h.1]
    exact Lines.nil

theorem tailEntries_lines (h : Printable p c) : Lines (tailEntries p c)
    (InlineValue c.path ∧ (p.binPath ≠ [] → InlineValue p.binPath)) (shownNone p) := by
  have hslot : Lines [(ascii "cache-identity", c.identity), (ascii "cache-file", c.path)]
      (InlineValue c.path ∧ True) [] :=
    (Lines.nil.path (by decide) h.path).plain (by decide) h.identity
  exact ((((scheduleEntries_lines p).append hslot).append (binEntries_lines h)).append
    (installEntries_lines p)).congr (by simp)

end Tail

end Hacman.PlanSiml
