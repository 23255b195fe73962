import Hacman.BinPath
import Hacman.Delivery
import Hacman.Modes
import Hacman.PlanEntries

/-!
# The plan as a document

`--plan` prints keys of its own around what a project holds, and its comment calls the output SIML.
The printer checks nothing: a name that was cut in front of a space, a path with a byte that the
grammar does not take and a block line that the formatter cuts off all end up in the text.
-/

namespace Hacman.PlanSiml
open Octets Util Config Cache Main Templates BinPath Plan PlanBlocks Siml

section Pieces
variable {p : Project} {c : Slot} {rest : Bytes}

def shown (p : Project) : List (Bytes × Value) :=
  (ascii "name", .scalar p.name) ::
  match p.kind with
  | .command => [(ascii "command", .scalar p.command)]
  | .url => [(ascii "url", .scalar p.url),
      (ascii "install", if p.install = [] then .scalar noInstall else .block (installLines p))]

def shownBlock (p : Project) : List (Bytes × Value) :=
  if p.kind = .url ∧ p.install ≠ [] then [(ascii "install", .block (installLines p))] else []

theorem shown_eq (p : Project) :
    shown p = [(ascii "name", .scalar p.name)] ++ (shownTask p ++ shownNone p) ++ shownBlock p := by
  unfold shown shownTask shownNone shownBlock
  cases hk : p.kind with
  | command => simp
  | url => by_cases hinstall : p.install = [] <;> simp [hinstall]

theorem margin_header {key : Bytes} (hkey : Key key) (body : Bytes) :
    Margin (headerText 0 key ++ [LF] ++ body) := by
  cases key with
  | nil => exact absurd rfl hkey.ne_nil
  | cons b s =>
    refine .inr ⟨b, s ++ [COLON], body, by simp [headerText], hkey.1, ?_⟩
    have hlf : LF ∉ b :: s := fun hm => (keyChar_ne (hkey.chars _ hm)).2.2.2.1 rfl
    simp only [List.mem_cons, List.mem_append, not_or, List.not_mem_nil, not_false_eq_true,
      and_true] at hlf ⊢
    exact ⟨hlf.1, hlf.2, by decide⟩

theorem says_dirs (h : Printable p c) (hrest : NodeAt 0 rest) :
    Says keys (dirsText p) rest (p.sandboxed = true → ∀ dir ∈ p.sandboxWriteDirs,
      InlineValue dir.path) [] := by
  by_cases hdirs : p.sandboxed = true ∧ p.sandboxWriteDirs ≠ []
  · obtain ⟨hsand, hne⟩ := hdirs
    have htext : dirsText p = headerText 0 (ascii "sandbox-write-dirs") ++ [LF] ++
        itemLines 2 (p.sandboxWriteDirs.map (·.path)) := by
      simp [dirsText, hsand, hne]
    have hvs : ∀ v ∈ p.sandboxWriteDirs.map (·.path), ItemFits v ∧ LF ∉ v := by
      intro v hv
      obtain ⟨dir, hdir, rfl⟩ := List.mem_map.mp hv
      exact h.dirs dir hdir
    rw [htext]
    exact (says_items (by decide) (by simpa using hne) hvs hrest).congr (by simp [hsand]) rfl
  · have htext : dirsText p = [] := by
      simp only [dirsText]
      rw [if_neg (by simpa using hdirs)]
    rw [htext]
    refine (says_nil rest).congr (iff_of_true trivial fun hsand dir hdir => ?_) rfl
    exact absurd ⟨hsand, List.ne_nil_of_mem hdir⟩ hdirs

theorem says_files (h : Printable p c) (hrest : p.files ≠ [] → NodeAt 0 rest) :
    Says keys (filesText p) rest (p.kind = .command → ∀ file ∈ p.files, Passable 4 (fileLines file))
      [] := by
  by_cases hfiles : p.kind = .command ∧ p.files ≠ []
  · obtain ⟨hk, hne⟩ := hfiles
    have htext : filesText p = headerText 0 (ascii "files") ++ [LF] ++
        blocks (p.files.map fun file => (file.path, fileLines file)) := by
      simp [filesText, hk, hne]
    have hblocks : ∀ f ∈ p.files.map fun file => (file.path, fileLines file), Key f.1 ∧
        BlockLines f.2 := by
      intro f hf
      obtain ⟨file, hfile, rfl⟩ := List.mem_map.mp hf
      exact h.values.files file hfile
    rw [htext]
    exact (says_blocks (by decide) (by simpa using hne) hblocks (hrest hne)).congr
      (by simp [hk]) rfl
  · have htext : filesText p = [] := by
      simp only [filesText]
      rw [if_neg (by simpa using hfiles)]
    rw [htext]
    refine (says_nil rest).congr (iff_of_true trivial fun hk file hfile => ?_) rfl
    exact absurd ⟨hk, List.ne_nil_of_mem hfile⟩ hfiles

/-- The block at the end: it may be taken although a line of it was cut off, but then it has lost a
line. -/
theorem takes_install (h : Printable p c) : Takes (installText p) []
    (p.kind = .url → Passable 2 (installLines p))
    fun text evs => ∃ back, Reads text keys 1 1 back evs ∧
      (back = shownBlock p ↔ (p.kind = .url → ∀ line ∈ installLines p, LineFits 2 line)) := by
  by_cases hinstall : p.kind = .url ∧ p.install ≠ []
  · obtain ⟨hk, hne⟩ := hinstall
    have htext : installText p = blockEntry 0 (ascii "install") (printed 2 (installLines p)) := by
      simp [installText, hk, hne]
    have hlines : BlockLines (installLines p) := h.values.install.resolve_left hne
    have hblock := @takes_block keys (ascii "install") [] (installLines p) (by decide)
      (by decide) hlines (.inl rfl) (.inl rfl)
    rw [htext]
    intro text off n hdrop
    refine (hblock text off n hdrop).congr (by simp [hk]) fun evs hevs => ?_
    obtain ⟨back, hreads, hback⟩ := hevs
    refine ⟨_, hreads, ?_⟩
    rw [shownBlock, if_pos ⟨hk, hne⟩, ← hback]
    simp [hk]
  · have htext : installText p = [] := by
      simp only [installText]
      rw [if_neg (by simpa using hinstall)]
    have hnone : p.kind = .url → installLines p = [] := by
      intro hk
      have hempty : p.install = [] := by_contra fun hne => hinstall ⟨hk, hne⟩
      simp [installLines, hempty, linesFrom]
    rw [htext]
    intro text off n hdrop
    refine (says_nil [] text off n hdrop).congr ?_ fun evs hevs => ⟨[], hevs, ?_⟩
    · exact iff_of_true trivial fun hk => by rw [hnone hk]; trivial
    · rw [shownBlock, if_neg hinstall]
      exact iff_of_true rfl fun hk => by simp [hnone hk]

end Pieces

section Whole
variable {p : Project} {c : Slot}

/-- What a project and its slot have to be like for their plan to be a document. -/
structure Fits (p : Project) (c : Slot) : Prop where
  name : p.name.getLast? ≠ some SPACE
  cacheFile : InlineValue c.path
  workdir : p.sandboxed = true ∨ p.kind = .command → InlineValue c.workdir
  dirs : p.sandboxed = true → ∀ dir ∈ p.sandboxWriteDirs, InlineValue dir.path
  program : p.binPath ≠ [] → InlineValue p.binPath
  files : p.kind = .command → ∀ file ∈ p.files, Passable 4 (fileLines file)
  install : p.kind = .url → ∀ line ∈ installLines p, LineFits 2 line

def ReadsBack (p : Project) (c : Slot) : Prop :=
  ∃ evs, Accepts (start (planOutput p c)) evs ∧
    asked keys (entries (planOutput p c) 0 evs) = shown p

def frontText (p : Project) (c : Slot) : Bytes :=
  entryLines (headEntries p c) ++ (dirsText p ++ (entryLines (kindEntries p c) ++
    (filesText p ++ entryLines (tailEntries p c))))

theorem planOutput_front (h : Printable p c) : planOutput p c = frontText p c ++ installText p := by
  rw [planOutput_pieces h, frontText]
  simp only [List.append_assoc]

theorem nodeAt_kind (h : Printable p c) (rest : Bytes) :
    NodeAt 0 (entryLines (kindEntries p c) ++ rest) := by
  have hcommand : Key (ascii "command") ∧ 2 ≤ (ascii "command").length := by decide
  have hurl : Key (ascii "url") ∧ 2 ≤ (ascii "url").length := by decide
  unfold kindEntries
  cases hk : p.kind with
  | url =>
    dsimp only
    rw [entryLines_cons, List.append_assoc]
    exact nodeAt_line hurl.1 hurl.2 (h.values.url.resolve_left (h.settled.url hk)) _
  | command =>
    dsimp only
    rw [List.cons_append, entryLines_cons, List.append_assoc]
    exact nodeAt_line hcommand.1 hcommand.2 (h.values.command.resolve_left (h.settled.command hk)) _

theorem nodeAt_tail (hfiles : p.files ≠ []) (rest : Bytes) :
    NodeAt 0 (entryLines (tailEntries p c) ++ rest) := by
  rw [tailEntries, scheduleEntries, if_pos hfiles]
  simp only [List.cons_append]
  rw [entryLines_cons, List.append_assoc]
  exact nodeAt_line (by decide) (by decide) (by decide) _

theorem says_front (h : Printable p c) : Says keys (frontText p c) (installText p)
    (p.name.getLast? ≠ some SPACE ∧ InlineValue c.path ∧
      (p.sandboxed = true ∨ p.kind = .command → InlineValue c.workdir) ∧
      (p.sandboxed = true → ∀ dir ∈ p.sandboxWriteDirs, InlineValue dir.path) ∧
      (p.binPath ≠ [] → InlineValue p.binPath) ∧
      (p.kind = .command → ∀ file ∈ p.files, Passable 4 (fileLines file)))
    ([(ascii "name", .scalar p.name)] ++ (shownTask p ++ shownNone p)) := by
  have hhead := headEntries_lines h
  have hkind := kindEntries_lines h
  have htail := tailEntries_lines h
  have hend : Margin (installText p) := by
    unfold installText
    split_ifs
    · have hmargin := @margin_line (ascii "install") [PIPE] (by decide) (by decide)
        (printed 2 (installLines p))
      rwa [entryLine, ← blockEntry] at hmargin
    · exact .inl rfl
  have hfiles : Margin (filesText p ++ entryLines (tailEntries p c) ++ installText p) := by
    unfold filesText
    split_ifs
    · rw [List.append_assoc _ (blocks _), List.append_assoc _ (blocks _ ++ _)]
      exact margin_header (by decide) _
    · exact margin_lines htail.entry hend
  have hdirs : Margin (dirsText p ++ (entryLines (kindEntries p c) ++
      (filesText p ++ entryLines (tailEntries p c))) ++ installText p) := by
    rw [List.append_assoc, List.append_assoc (entryLines _)]
    unfold dirsText
    split_ifs
    · rw [List.append_assoc _ (itemLines _ _)]
      exact margin_header (by decide) _
    · exact margin_lines hkind.entry hfiles
  have hlast := (says_lines htail.entry hend).congr htail.inline htail.told
  have hinner := (says_files h fun hne => nodeAt_tail hne (installText p)).append hlast
  have htask := ((says_lines hkind.entry hfiles).congr hkind.inline hkind.told).append hinner
  have hnode : NodeAt 0 (entryLines (kindEntries p c) ++
      (filesText p ++ entryLines (tailEntries p c)) ++ installText p) := by
    rw [List.append_assoc]
    exact nodeAt_kind h _
  have hsandbox := (says_dirs h hnode).append htask
  have hall := ((says_lines hhead.entry hdirs).congr hhead.inline hhead.told).append hsandbox
  exact hall.congr (by tauto) (by simp)

theorem passable_of_fits {n : Nat} {lines : List Bytes} (h : ∀ line ∈ lines, LineFits n line) :
    Passable n lines := by
  induction lines with
  | nil => trivial
  | cons line lines ih =>
    obtain ⟨hline, hlines⟩ := List.forall_mem_cons.mp h
    exact ⟨.inl hline, ih hlines⟩

theorem accepts_plan (h : Printable p c) (out : List Event) : Accepts (start (planOutput p c)) out ↔
    ∃ evs, out = [.streamStart, .documentStart 1, .mappingStart 1] ++ evs ∧
      Accepts (topLevel (planOutput p c) 0 0) evs := by
  obtain ⟨hname, -⟩ := name_entry h
  obtain ⟨u, hu, hcut⟩ := h.values.name.resolve_left h.settled.name
  have hbytes : ∀ b ∈ p.name, b ≠ CR ∧ b ≠ TAB := by
    intro b hb
    rw [hcut] at hb
    exact (hu.bytes b (List.mem_of_mem_take hb)).2
  obtain ⟨b, s, htext, hb, hnode⟩ := entryText_node hname.fits.key hname.length_le hbytes 0
  obtain ⟨tail, htail⟩ : ∃ tail, planOutput p c = b :: s ++ LF :: tail := by
    refine ⟨entryLines (headEntries p c).tail ++
      (dirsText p ++ (entryLines (kindEntries p c) ++ (filesText p ++
        (entryLines (tailEntries p c) ++ installText p)))), ?_⟩
    have hfirst : entryLine (ascii "name") p.name = b :: s ++ [LF] := by
      rw [entryLine, htext, List.replicate_zero, List.nil_append]
    have hcons : headEntries p c = (ascii "name", p.name) :: (headEntries p c).tail := by
      unfold headEntries
      rfl
    rw [planOutput_pieces h, hcons, entryLines_cons, hfirst]
    simp
  have hlf : LF ∉ b :: s := by
    have hnotMem := notMem_entryText 0 hname.fits.key hname.lf
    rwa [htext, List.replicate_zero, List.nil_append] at hnotMem
  rw [htail]
  exact accepts_start hnode hb hlf tail

theorem filter_entries {text : Bytes} {wanted : List Bytes} {R : List (Bytes × Value)}
    {evs : List Event} (h : Reads text wanted 1 1 R evs) (m : Nat) :
    asked wanted (entries text 0 ([.streamStart, .documentStart 1, .mappingStart 1] ++
      (evs ++ [.mappingEnd m, .documentEnd, .streamEnd]))) = R := by
  obtain ⟨new, hnew, hr⟩ := h [.mappingEnd m, .documentEnd, .streamEnd]
  have hentries : entries text 0 ([.streamStart, .documentStart 1, .mappingStart 1] ++
      (evs ++ [.mappingEnd m, .documentEnd, .streamEnd])) = new ++ [] := hnew
  rw [hentries, List.append_nil, asked, hr]

/-- A plan that can be printed reads back if and only if its project and its slot fit. -/
theorem readsBack_iff (h : Printable p c) : ReadsBack p c ↔ Fits p c := by
  have hfront := says_front h
  rw [← List.append_nil (installText p)] at hfront
  have hall := Takes.append hfront (takes_install h) (planOutput p c) 0 0
    (by rw [List.drop_zero, planOutput_front h, List.append_nil])
  rw [List.append_nil, ← planOutput_front h] at hall
  constructor
  · intro hreads
    obtain ⟨out, hout, hread⟩ := hreads
    obtain ⟨evs, rfl, hevs⟩ := (accepts_plan h out).mp hout
    have hneeds := hall.needs evs hevs
    obtain ⟨es, ⟨front, tail, rfl, hfr, back, hback, hiff⟩, hgo⟩ := hall.goes hneeds
    obtain ⟨rest, rfl, hrest⟩ := (hgo evs).mp hevs
    obtain rfl := accepts_endOfInput.mp hrest
    rw [filter_entries (hfr.append hback), shown_eq, List.append_cancel_left_eq] at hread
    obtain ⟨⟨hname, hpath, hwork, hdirs, hbin, hfiles⟩, -⟩ := hneeds
    exact ⟨hname, hpath, hwork, hdirs, hbin, hfiles, hiff.mp hread⟩
  · intro hfits
    obtain ⟨es, ⟨front, tail, rfl, hfr, back, hback, hiff⟩, hgo⟩ := hall.goes
      ⟨⟨hfits.name, hfits.cacheFile, hfits.workdir, hfits.dirs, hfits.program, hfits.files⟩,
        fun hk => passable_of_fits (hfits.install hk)⟩
    refine ⟨_, (accepts_plan h _).mpr ⟨_, rfl, (hgo _).mpr ⟨_, rfl, accepts_endOfInput.mpr rfl⟩⟩,
      ?_⟩
    rw [filter_entries (hfr.append hback), shown_eq, hiff.mpr hfits.install]

end Whole

section Launched
variable {l : Launch} {file content tpl v dir : Bytes} {p p₀ : Project} {c : Slot} {x : Input}

theorem prepare_plan (h : prepare l = .plan p c) : ∃ file content p₀ source dir,
    Checked l file content p₀ source ∧ hmCacheDir l.opts.cacheDir l.startup = some dir ∧
    c = hmCacheInit l.xxh3 p₀ dir source
      (hmIdentityBuild l.xxh3 l.version content (HM_IDENTITY_MAX + 1)) ∧
    resolveCachedBin p₀ c file = .ok p := by
  rcases prepare_cases l with ⟨code, text, he⟩ | ⟨p', target, -, he⟩ |
    ⟨file, content, p₀, source, hc⟩
  · rw [he] at h
    cases h
  · rw [he] at h
    cases h
  · rw [prepare_checked l hc, prepareSlot] at h
    split at h
    · cases h
    · rename_i dir hdir
      dsimp only at h
      split at h
      · cases h
      · rename_i p' hbin
        split at h
        · cases h
          exact ⟨file, content, p₀, source, dir, hc, hdir, rfl, hbin⟩
        · cases h

theorem slot_path {s : Bytes} (hdir : LF ∉ dir ∧ dir.head? ≠ some SPACE) (hs : LF ∉ s) :
    Path ((dir ++ [SLASH] ++ s).take HM_PATH_MAX) := by
  have hne : dir ++ [SLASH] ++ s ≠ [] := by simp
  refine ⟨?_, fun hm => ?_, ?_, List.length_take_le _ _⟩
  · rw [ne_eq, List.take_eq_nil_iff, not_or]
    exact ⟨by decide, hne⟩
  · have hall := List.mem_of_mem_take hm
    simp only [List.mem_append, List.mem_singleton] at hall
    rcases hall with (hm | hm) | hm
    · exact hdir.1 hm
    · exact absurd hm (by decide)
    · exact hs hm
  · rw [List.head?_take, if_neg (by decide)]
    cases dir with
    | nil => simp [SLASH, SPACE]
    | cons b dir => simpa using hdir.2

theorem slotKey_lf (xxh3 : Bytes → UInt64) (p : Project) (source : Option Bytes)
    (identity : Bytes) : LF ∉ slotKey xxh3 p source identity := by
  have hhash (data : Bytes) : LF ∉ hmHashHex xxh3 data := hmHashHex_notMem xxh3 data (by decide)
  have hfront : LF ∉ (if p.kind = .command then ascii "cmd-" else ascii "url-") := by
    split_ifs <;> decide
  unfold slotKey
  rw [appendStr_eq, appendStr_eq]
  simp only [List.mem_append, not_or, List.not_mem_nil, not_false_eq_true, true_and]
  refine ⟨fun hm => hfront (List.mem_of_mem_take hm), fun hm => ?_⟩
  have hmem := List.mem_of_mem_take hm
  split at hmem <;> exact hhash _ hmem

def Used (x : Input) (p : Project) (v : Bytes) : Prop :=
  ∃ tpl ∈ p.bin :: p.sandboxWriteDirs.map (·.source), ∃ parts name, Scans tpl parts ∧
    .var name ∈ parts ∧ lookupVar x name = some v

theorem expanded_path {what : String} {line : Nat} {requireAbsolute : Bool} {path : Bytes}
    (henv : ∀ v, Used x p v → LF ∉ v) (htpl : tpl ∈ p.bin :: p.sandboxWriteDirs.map (·.source))
    (hlf : LF ∉ tpl)
    (h : expandTemplate x tpl what (HM_PATH_MAX + 1) line requireAbsolute = .ok path) :
    LF ∉ path ∧ path.length ≤ HM_PATH_MAX := by
  obtain ⟨parts, text, hexpands, -, rfl⟩ := expandTemplate_expands h
  have hstart : cstr text <+: text := List.takeWhile_prefix _
  have htext : LF ∉ text := substitute_notMem hexpands.scans hexpands.values hlf
    fun name v hname hv =>
    henv v ⟨tpl, htpl, parts, name, hexpands.scans, hname, hv⟩
  exact ⟨fun hm => htext (hstart.subset hm), hstart.length_le.trans hexpands.fits⟩

theorem dir_fits {path : Bytes} {what : String} {line : Nat} (henv : ∀ v, Used x p v → LF ∉ v)
    (htpl : tpl ∈ p.bin :: p.sandboxWriteDirs.map (·.source)) (hlf : LF ∉ tpl)
    (h : expandTemplate x tpl what (HM_PATH_MAX + 1) line true = .ok path) : ItemFits path ∧
    LF ∉ path := by
  obtain ⟨hpath, hlen⟩ := expanded_path henv htpl hlf h
  exact ⟨⟨expandTemplate_absolute h, hlen.trans (by decide)⟩, hpath⟩

theorem bin_path (hwork : Path c.workdir) (hresolved : resolveCachedBin p₀ c file = .ok p)
    (hbin : LF ∉ p₀.binPath ∧ p₀.binPath.length ≤ HM_PATH_MAX) (hne : p.binPath ≠ []) :
    Path p.binPath := by
  obtain ⟨hlf, hlen⟩ := hbin
  unfold resolveCachedBin at hresolved
  split_ifs at hresolved with hkept hlong
  · cases hresolved
    have hslash := hkept.resolve_left hne
    exact ⟨hne, hlf, by rw [hslash]; decide, hlen⟩
  · cases hresolved
    refine ⟨hne, ?_, ?_, ?_⟩
    · simp only [List.mem_append, List.mem_singleton, not_or]
      exact ⟨⟨hwork.lf, by decide⟩, hlf⟩
    · rw [List.append_assoc, List.head?_append_of_ne_nil _ hwork.ne_nil]
      exact hwork.head
    · simp only [List.length_append, List.length_singleton]
      exact Nat.le_of_not_lt hlong

theorem hash_inert (xxh3 : Bytes → UInt64) (data : Bytes) : (hmHashHex xxh3 data).all inert = true ∧
    hmHashHex xxh3 data ≠ [] ∧ (hmHashHex xxh3 data).getLast? ≠ some SPACE := by
  have hlow : ∀ b ∈ hmHashHex xxh3 data, 48 ≤ b.toNat := fun b hb =>
    Nat.le_of_not_lt fun hlt => hmHashHex_notMem xxh3 data hlt hb
  refine ⟨List.all_eq_true.mpr fun b hb => ?_, fun hnil => ?_, fun hlast => ?_⟩
  · have hb := hlow b hb
    simp only [inert, Bool.and_eq_true, decide_eq_true_eq, and_assoc]
    refine ⟨?_, ?_, ?_, ?_⟩ <;> rintro rfl <;> revert hb <;> decide
  · have hlen := hmHashHex_length xxh3 data
    rw [hnil] at hlen
    cases hlen
  · exact absurd (hlow SPACE (List.mem_of_getLast? hlast)) (by decide)

theorem identity_plain (hversion : ∀ b ∈ l.version, wordByte b = true)
    (hlen : l.version.length + 29 ≤ HM_IDENTITY_MAX) :
    Plain ((hmIdentityBuild l.xxh3 l.version content (HM_IDENTITY_MAX + 1)).take
      HM_IDENTITY_MAX) := by
  have hsiml : (ascii "siml:").length = 5 := by decide
  have hhacman : (ascii " hacman:").length = 8 := by decide
  have hhash := hmHashHex_length l.xxh3 content
  have hbuilt : hmIdentityBuild l.xxh3 l.version content (HM_IDENTITY_MAX + 1) =
      ascii "siml:" ++ hmHashHex l.xxh3 content ++ (ascii " hacman:" ++ l.version) := by
    rw [hmIdentityBuild, if_neg (by omega), List.append_assoc _ (ascii " hacman:")]
  have hfront : Plain (ascii "siml:" ++ hmHashHex l.xxh3 content) := by
    refine plain_before (by decide) (hash_inert l.xxh3 content) ?_
    rw [hsiml, hhash]
    decide
  simp only [HM_IDENTITY_MAX] at hlen
  rw [hbuilt, List.take_of_length_le (by simp only [List.length_append, HM_IDENTITY_MAX]; omega)]
  refine plain_before hfront ⟨?_, by simp [ascii], ?_⟩ ?_
  · rw [List.all_append, Bool.and_eq_true]
    refine ⟨by decide, List.all_eq_true.mpr fun b hb => ?_⟩
    have hword := hversion b hb
    simp only [wordByte, Bool.and_eq_true] at hword
    exact hword.1.1.1
  · by_cases hnil : l.version = []
    · rw [hnil, List.append_nil]
      decide
    · rw [List.getLast?_append_of_ne_nil _ hnil]
      intro hlast
      exact absurd (hversion SPACE (List.mem_of_getLast? hlast)) (by decide)
  · simp only [List.length_append, SIML_MAX_INLINE_VALUE_LEN]
    omega

/-- A plan of a file: its events are those of the parser, and the version of the build is a word
that fits the buffer of the identity. -/
structure Planned (l : Launch) (file content : Bytes) (p : Project) (c : Slot) : Prop where
  file_eq : l.opts.file = some file
  content_eq : l.content = some content
  emits : Emits (start content) (l.siml content)
  plan_eq : prepare l = .plan p c
  version : ∀ b ∈ l.version, wordByte b = true
  version_le : l.version.length + 29 ≤ HM_IDENTITY_MAX

theorem Planned.printable (h : Planned l file content p c)
    (hdir : ∀ dir, hmCacheDir l.opts.cacheDir l.startup = some dir → LF ∉ dir ∧
      dir.head? ≠ some SPACE)
    (henv : ∀ v, Used (l.input file content) p v → LF ∉ v) : Printable p c := by
  obtain ⟨file', content', p₀, source, dir, hchecked, hd, rfl, hbin⟩ := prepare_plan h.plan_eq
  obtain rfl := Option.some.inj (hchecked.file_eq.symm.trans h.file_eq)
  obtain rfl := Option.some.inj (hchecked.content_eq.symm.trans h.content_eq)
  obtain ⟨hvalues, hsettled⟩ := hmConfigParse_values h.emits hchecked.parse_eq
  have hlimited := Delivery.hmConfigParse_limited hchecked.parse_eq
  have hresolved := hmConfigParse_resolved hchecked.parse_eq
  have hunpack := Modes.unpackTarget_none hchecked.target_eq
  have hpaths : (l.input file' content').resolvePaths = true := by simp [Launch.input, hunpack]
  obtain ⟨hpath, hwork⟩ := hmCacheInit_paths l.xxh3 p₀ dir source
    (hmIdentityBuild l.xxh3 l.version content' (HM_IDENTITY_MAX + 1))
  have hkey := slotKey_lf l.xxh3 p₀ source (appendStr (HM_IDENTITY_MAX + 1) []
    (hmIdentityBuild l.xxh3 l.version content' (HM_IDENTITY_MAX + 1)))
  have hworkdir : Path (hmCacheInit l.xxh3 p₀ dir source
      (hmIdentityBuild l.xxh3 l.version content' (HM_IDENTITY_MAX + 1))).workdir := by
    rw [hwork, List.append_assoc _ _ (ascii ".work")]
    refine slot_path (hdir dir hd) fun hm => ?_
    exact (List.mem_append.mp hm).elim hkey (by decide)
  obtain ⟨b, rfl⟩ : ∃ b, p = { p₀ with binPath := b } := ⟨_, resolveCachedBin_ok hbin⟩
  refine ⟨{ hvalues with }, ⟨hsettled.name, hsettled.command, hsettled.url, hsettled.versionPrefix⟩,
    hlimited.url, hworkdir, ?_, ?_, fun d hd => ?_, bin_path hworkdir hbin ?_⟩
  · rw [hpath]
    exact slot_path (hdir dir hd) hkey
  · rw [hmCacheInit_identity]
    exact identity_plain h.version h.version_le
  · exact dir_fits henv (List.mem_cons_of_mem _ (List.mem_map_of_mem hd)) (hvalues.dirs d hd)
      (hlimited.dirs hpaths d hd)
  · have hexpanded := hresolved.expanded
    unfold expandBin at hexpanded
    split_ifs at hexpanded with hused
    · exact expanded_path henv List.mem_cons_self hvalues.bin hexpanded
    · rw [← Except.ok.inj hexpanded]
      exact ⟨List.not_mem_nil, Nat.zero_le _⟩

/-- Where no line feed and no space in front comes from the environment, the plan of an accepted
project reads back if and only if the project and its slot fit. -/
theorem plan_readsBack (h : Planned l file content p c)
    (hdir : ∀ dir, hmCacheDir l.opts.cacheDir l.startup = some dir → LF ∉ dir ∧
      dir.head? ≠ some SPACE)
    (henv : ∀ v, Used (l.input file content) p v → LF ∉ v) : ReadsBack p c ↔ Fits p c :=
  readsBack_iff (h.printable hdir henv)

def commandFile (command : Bytes) : Bytes := ascii "command: " ++ command ++ [LF]

def commandLaunch (command : Bytes) : Launch where
  opts := { file := some (ascii "t.siml"), cacheDir := some (ascii "/c"), plan := true }
  siml := fun content => Pull.outputs simlNext isFinal 8 (start content)
  xxh3 := fun _ => 0
  version := ascii "1"
  content := some (commandFile command)

def commandProject (command : Bytes) : Project where
  kind := .command
  name := command.take HM_NAME_MAX
  command := command
  schedKind := .every
  schedInterval := 86400
  sandboxed := true
  line := 1

def commandSlot (command : Bytes) : Slot :=
  hmCacheInit (fun _ => 0) (commandProject command) (ascii "/c") none
    (hmIdentityBuild (fun _ => 0) (ascii "1") (commandFile command) (HM_IDENTITY_MAX + 1))

def spacedCommand : Bytes := List.replicate 126 97 ++ [SPACE, 98]

theorem command_planned {command : Bytes} (h : command = ascii "make" ∨ command = spacedCommand) :
    Planned (commandLaunch command) (ascii "t.siml") (commandFile command) (commandProject command)
      (commandSlot command) where
  file_eq := rfl
  content_eq := rfl
  emits := Pull.ends_outputs (by rcases h with rfl | rfl <;> decide +kernel)
  plan_eq := by rcases h with rfl | rfl <;> decide +kernel
  version := by
    have hword : ∀ b ∈ ascii "1", wordByte b = true := List.all_eq_true.mp (by decide)
    exact hword
  version_le := by
    have hlen : (ascii "1").length + 29 ≤ HM_IDENTITY_MAX := by decide
    exact hlen

theorem command_dir (command dir : Bytes)
    (h : hmCacheDir (commandLaunch command).opts.cacheDir (commandLaunch command).startup =
      some dir) :
    dir = ascii "/c" := (Option.some.inj h).symm

theorem not_used (command v : Bytes) : ¬ Used x (commandProject command) v := by
  rintro ⟨tpl, htpl, parts, name, hscans, hname, -⟩
  obtain rfl : tpl = [] := by simpa [commandProject] using htpl
  cases hscans
  cases hname

theorem plan_readsBack_make :
    ReadsBack (commandProject (ascii "make")) (commandSlot (ascii "make")) := by
  have hpath : Plain (commandSlot (ascii "make")).path := by decide
  have hwork : Plain (commandSlot (ascii "make")).workdir := by decide
  refine (plan_readsBack (command_planned (.inl rfl)) (fun dir hdir => ?_) fun v hv => ?_).mpr
    ⟨by decide, hpath.inlineValue, fun _ => hwork.inlineValue, fun _ => nofun,
      fun hne => absurd rfl hne, fun _ => nofun, nofun⟩
  · rw [command_dir _ dir hdir]
    decide
  · exact absurd hv (not_used _ v)

/-- Neither the cache directory nor a variable has anything to do with it. -/
theorem cut_name_refused : ∃ l file content p c, Planned l file content p c ∧
    (∀ dir, hmCacheDir l.opts.cacheDir l.startup = some dir →
      LF ∉ dir ∧ hashAt SPACE dir = none ∧ dir.head? ≠ some SPACE ∧ dir.getLast? ≠ some SPACE) ∧
    (∀ v, ¬ Used (l.input file content) p v) ∧ ¬ ReadsBack p c := by
  have hplanned := command_planned (.inr rfl)
  refine ⟨_, _, _, _, _, hplanned, fun dir hdir => ?_, not_used spacedCommand, fun hreads => ?_⟩
  · rw [command_dir _ dir hdir]
    decide
  · have hprintable := hplanned.printable (fun dir hdir => by rw [command_dir _ dir hdir]; decide)
      fun v hv => absurd hv (not_used _ v)
    exact ((readsBack_iff hprintable).mp hreads).name (by decide)

end Launched

end Hacman.PlanSiml
