import Hacman.PlanPieces
import Hacman.Stored

/-!
# A plan line by line

Every message of the plan is a whole entry, an item of a sequence or a line of a block, as
long as the formatter does not cut it off.
-/

namespace Hacman.PlanSiml
open Octets Util Config Plan PlanBlocks Siml

section Messages
variable {fs ks bs as vs : List Char} {before after v : Bytes} {arg : Arg}
  {conv : UInt8} {cap : Nat}

/-- The bytes of a text that is given by its characters; on those, the kernel compares texts fast.
-/
abbrev octets (cs : List Char) : Bytes := cs.map fun ch => ch.toNat.toUInt8

theorem ascii_ofList (cs : List Char) : ascii (String.ofList cs) = octets cs := by
  rw [ascii, String.toList_ofList]

theorem ascii_empty : ascii "" = [] := rfl

/-- A conversion that writes `v` if there is room for it. -/
inductive Writes : UInt8 → Arg → Bytes → Prop
  | str (v : Bytes) : Writes 115 (.str v) v
  | slice (v : Bytes) : Writes 83 (.slice v) v
  | ulong (n : Nat) : Writes 117 (.ulong n) (revDigits 24 n).reverse

theorem Writes.conversion (h : Writes conv arg v) {room : Nat} (hroom : v.length ≤ room) :
    takesArg conv = true ∧ Util.conversion conv room [arg] = (v, []) := by
  cases h with
  | str v => exact ⟨rfl, congrArg (·, []) (List.take_of_length_le hroom)⟩
  | slice v => exact ⟨rfl, congrArg (·, []) (List.take_of_length_le hroom)⟩
  | ulong n => exact ⟨rfl, congrArg (·, []) (List.take_of_length_le hroom)⟩

theorem hmVformat_value (h : Writes conv arg v) (hbefore : (37 : UInt8) ∉ before)
    (hafter : (37 : UInt8) ∉ after)
    (hlen : before.length + v.length + after.length ≤ cap) (hroom : before.length < cap) :
    hmVformat cap (before ++ 37 :: conv :: after) [arg] [] = before ++ v ++ after := by
  have hvalue : v.length ≤ cap - before.length := by omega
  obtain ⟨htakes, hconv⟩ := h.conversion hvalue
  rw [hmVformat_text _ _ (by simpa using hroom.le) hbefore, List.nil_append, hmVformat,
    if_neg (Nat.not_le.mpr hroom), if_neg (by simp)]
  simp only [htakes, if_true, hconv]
  rw [hmVformat_literal (by simp only [List.length_append]; omega) hafter]

theorem message_written (hfmt : octets fs = before ++ 37 :: conv :: after ∧ (37 : UInt8) ∉ before ∧
      (37 : UInt8) ∉ after ∧ fs.length ≤ 128) (h : Writes conv arg v)
      (hlen : v.length ≤ SIML_MAX_INLINE_VALUE_LEN) :
    message (String.ofList fs) [arg] = before ++ v ++ after := by
  obtain ⟨hfmt, hbefore, hafter, hshort⟩ := hfmt
  have hlength := congrArg List.length hfmt
  simp only [List.length_map, List.length_append, List.length_cons, SIML_MAX_INLINE_VALUE_LEN]
    at hlength hlen
  rw [message, ascii_ofList, hfmt]
  exact hmVformat_value h hbefore hafter (by simp only [HM_LINE_CAP]; omega)
    (by simp only [HM_LINE_CAP]; omega)

theorem message_entry (hfmt : octets fs = (octets ks ++ COLON :: SPACE :: octets bs) ++
    37 :: conv :: (octets as ++ [LF]) ∧
      (37 : UInt8) ∉ octets ks ++ COLON :: SPACE :: octets bs ∧ (37 : UInt8) ∉ octets as ++ [LF] ∧
      fs.length ≤ 128)
    (h : Writes conv arg v) (hlen : v.length ≤ SIML_MAX_INLINE_VALUE_LEN) :
    message (String.ofList fs) [arg] =
      entryLine (ascii (String.ofList ks))
        (ascii (String.ofList bs) ++ v ++ ascii (String.ofList as)) := by
  rw [message_written hfmt h hlen, ascii_ofList, ascii_ofList, ascii_ofList]
  simp only [entryLine, entryText, List.replicate_zero, List.nil_append, List.append_assoc,
    List.cons_append]

theorem message_value (hfmt : octets fs = (octets ks ++ [COLON, SPACE]) ++ 37 :: conv :: [LF] ∧
      (37 : UInt8) ∉ octets ks ++ [COLON, SPACE] ∧ (37 : UInt8) ∉ [LF] ∧ fs.length ≤ 128)
    (h : Writes conv arg v) (hlen : v.length ≤ SIML_MAX_INLINE_VALUE_LEN) :
    message (String.ofList fs) [arg] = entryLine (ascii (String.ofList ks)) v := by
  rw [message_written hfmt h hlen, ascii_ofList]
  simp only [entryLine, entryText, List.replicate_zero, List.nil_append, List.append_assoc,
    List.cons_append]

theorem message_literal (hpct : (37 : UInt8) ∉ octets fs ∧ fs.length ≤ 128) :
    message (String.ofList fs) [] = octets fs := by
  obtain ⟨hpct, hshort⟩ := hpct
  rw [message, ascii_ofList, hmVformat_literal ?_ hpct, List.nil_append]
  simp only [List.length_nil, List.length_map, HM_LINE_CAP]
  omega

theorem message_text (hfmt : octets fs = entryLine (octets ks) (octets vs) ∧
    (37 : UInt8) ∉ octets fs ∧ fs.length ≤ 128) :
    message (String.ofList fs) [] = entryLine (ascii (String.ofList ks))
      (ascii (String.ofList vs)) := by
  rw [message_literal hfmt.2, hfmt.1, ascii_ofList, ascii_ofList]

theorem message_header (hfmt : octets fs = headerText 0 (octets ks) ++ [LF] ∧
    (37 : UInt8) ∉ octets fs ∧
      fs.length ≤ 128) : message (String.ofList fs) [] =
        headerText 0 (ascii (String.ofList ks)) ++ [LF] := by
  rw [message_literal hfmt.2, hfmt.1, ascii_ofList]

end Messages

section Entries
variable (p : Project) (c : Slot)

abbrev text (key value : String) : Bytes × Bytes := (ascii key, ascii value)

def headEntries : List (Bytes × Bytes) :=
  [(ascii "name", p.name), (ascii "sandboxed", ascii (if p.sandboxed then "true" else "false"))] ++
    if p.sandboxed then [(ascii "sandbox-write-dir", c.workdir)] else []

def checkEntries : List (Bytes × Bytes) :=
  (ascii "check", hmCheckName p.check) ::
  match p.check with
  | .etag =>
    [(ascii "request", ascii "HEAD " ++ p.url),
      text "compare" "the ETag header, or Last-Modified when absent"]
  | .hash =>
    [(ascii "request", ascii "GET " ++ p.url),
      text "compare" "an XXH3 hash of the whole response body"]
  | .version =>
    [(ascii "version-prefix", p.versionPrefix)] ++
    (if p.versionSuffix ≠ [] then [(ascii "version-suffix", p.versionSuffix)] else []) ++
    [(ascii "request", ascii "GET " ++ p.url),
      if p.versionSuffix ≠ [] then text "compare"
        "the text between version-prefix and version-suffix"
      else text "compare" "the text from version-prefix to the end of that line"]

def kindEntries : List (Bytes × Bytes) :=
  match p.kind with
  | .command =>
    [(ascii "command", p.command), (ascii "workdir", c.workdir),
      text "run" "/bin/sh -c <command>, in workdir", text "record-when" "the command exits 0"] ++
    if p.files = [] then [] else [(ascii "files-dir", c.workdir),
      text "files-written" "before command execution"]
  | .url => (ascii "url", p.url) :: checkEntries p

def after (front : String) : Bytes × Bytes :=
  (ascii "check-when", ascii front ++ (revDigits 24 (intervalWord p)).reverse ++
    ascii " seconds after the last run")

def scheduleEntries : List (Bytes × Bytes) :=
  let sched := (ascii "schedule", hmSchedDescribe p 32)
  if p.files ≠ [] then
    [text "cache-policy" "input path, command, and embedded-file contents",
      text "workdir-policy" "stable per input path, cleared when inputs change"] ++
    if !p.scheduleExplicit || p.schedKind = .never then
      [text "check-when" "inputs change, cached executable is missing, or with --force"]
    else [sched,
      if p.schedKind = .always then
        text "check-when" "inputs change, cached executable is missing, or on every invocation"
      else after p "inputs change, cached executable is missing, or "]
  else [sched,
    match p.schedKind with
    | .always => text "check-when" "on every invocation"
    | .never => text "check-when" "only with --force"
    | .every => after p ""]

def binEntries : List (Bytes × Bytes) :=
  if p.binPath = [] then []
  else
    (match p.binChoice with
      | .named => [(ascii "bin-name", p.binName)]
      | .default => [(ascii "bin-name", p.binName ++ ascii " (default)")]
      | .single => []) ++
    [(ascii "bin-path", p.binPath), text "exec" "bin-path, with every argument that followed FILE"]

def noInstall : Bytes := ascii "(none - a change would only be reported)"

def envNames : Bytes :=
  ascii "[HACMAN_NAME,HACMAN_URL,HACMAN_CHECK,HACMAN_VERSION,HACMAN_PREVIOUS" ++
    (if p.check ≠ .etag then ascii ",HACMAN_RESPONSE" else []) ++ ascii "]"

def installEntries : List (Bytes × Bytes) :=
  if p.kind = .url then
    if p.install = [] then [(ascii "install", noInstall)]
    else [text "install-shell" "/bin/sh -e <script>", (ascii "install-env", envNames p)]
  else []

def tailEntries : List (Bytes × Bytes) :=
  scheduleEntries p ++ [(ascii "cache-identity", c.identity), (ascii "cache-file", c.path)] ++
    binEntries p ++ installEntries p

def dirsText : Bytes :=
  if p.sandboxed && p.sandboxWriteDirs ≠ [] then
    headerText 0 (ascii "sandbox-write-dirs") ++ [LF] ++ itemLines 2
      (p.sandboxWriteDirs.map (·.path))
  else []

def filesText : Bytes :=
  if p.kind = .command && p.files ≠ [] then
    headerText 0 (ascii "files") ++ [LF] ++ blocks
      (p.files.map fun file => (file.path, fileLines file))
  else []

def installText : Bytes :=
  if p.kind = .url && p.install ≠ [] then blockEntry 0 (ascii "install")
    (printed 2 (installLines p)) else []

end Entries

section Printed
variable {p : Project} {c : Slot} {key v : Bytes} {arg : Arg} {fmt : String} {conv : UInt8}

structure Path (v : Bytes) : Prop where
  ne_nil : v ≠ []
  lf : LF ∉ v
  head : v.head? ≠ some SPACE
  length_le : v.length ≤ HM_PATH_MAX

structure Printable (p : Project) (c : Slot) : Prop where
  values : Values p
  settled : Settled p
  url : p.url.length ≤ HM_URL_MAX
  workdir : Path c.workdir
  path : Path c.path
  identity : Plain c.identity
  dirs : ∀ dir ∈ p.sandboxWriteDirs, ItemFits dir.path ∧ LF ∉ dir.path
  bin : p.binPath ≠ [] → Path p.binPath

theorem message_item (hlen : v.length ≤ SIML_MAX_INLINE_VALUE_LEN) :
    message "  - %s\n" [.str v] = itemText 2 v ++ [LF] := by
  have hfmt : ascii "  - %s\n" = ascii "  - " ++ 37 :: 115 :: [LF] := by decide
  have hroom : (ascii "  - ").length + v.length + [LF].length ≤ HM_LINE_CAP := by
    simp only [SIML_MAX_INLINE_VALUE_LEN] at hlen
    simp only [HM_LINE_CAP, List.length_singleton, show (ascii "  - ").length = 4 from rfl]
    omega
  rw [message, hfmt, hmVformat_value (.str v) (by decide) (by decide) hroom (by decide)]
  rfl

theorem message_file (hlen : v.length ≤ SIML_MAX_KEY_LEN) :
    message "  %S: |\n" [.slice v] = entryText 2 v [PIPE] ++ [LF] := by
  have hfmt : ascii "  %S: |\n" = ascii "  " ++ 37 :: 83 :: ascii ": |\n" := by decide
  have hroom : (ascii "  ").length + v.length + (ascii ": |\n").length ≤ HM_LINE_CAP := by
    simp only [SIML_MAX_KEY_LEN] at hlen
    simp only [HM_LINE_CAP, show (ascii "  ").length = 2 from rfl,
      show (ascii ": |\n").length = 4 from rfl]
    omega
  rw [message, hfmt, hmVformat_value (.slice v) (by decide) (by decide) hroom (by decide),
    List.append_assoc]
  simp [entryText, ascii, COLON, SPACE, PIPE, LF]

theorem Plain.fits {n : Nat} (h : v = [] ∨ ∃ u, Plain u ∧ v = u.take n) :
    v.length ≤ SIML_MAX_INLINE_VALUE_LEN := by
  rcases h with rfl | ⟨u, hu, rfl⟩
  · exact Nat.zero_le _
  · exact (List.length_take_le' n u).trans hu.length_le

theorem plain_fits (h : v = [] ∨ Plain v) : v.length ≤ SIML_MAX_INLINE_VALUE_LEN := by
  rcases h with rfl | hv
  · exact Nat.zero_le _
  · exact hv.length_le

theorem Path.fits (h : Path v) : v.length ≤ SIML_MAX_INLINE_VALUE_LEN :=
  h.length_le.trans (by decide)

theorem entryLines_cons (e : Bytes × Bytes) (es : List (Bytes × Bytes)) :
    entryLines (e :: es) = entryLine e.1 e.2 ++ entryLines es := rfl

theorem entryLines_append (es es' : List (Bytes × Bytes)) :
    entryLines (es ++ es') = entryLines es ++ entryLines es' := List.flatMap_append

theorem printSandbox_eq (h : Printable p c) :
    message "name: %S\n" [.slice p.name] ++ (printSandbox p c).flatten =
      entryLines (headEntries p c) ++ dirsText p := by
  have hname : message "name: %S\n" [.slice p.name] = entryLine (ascii "name") p.name :=
    message_value ⟨rfl, by decide, by decide, by decide⟩ (.slice _) (Plain.fits h.values.name)
  have hdir : message "sandbox-write-dir: %s\n" [.str c.workdir] =
      entryLine (ascii "sandbox-write-dir") c.workdir :=
    message_value ⟨rfl, by decide, by decide, by decide⟩ (.str _) h.workdir.fits
  have hheader : message "sandbox-write-dirs:\n" [] =
      headerText 0 (ascii "sandbox-write-dirs") ++ [LF] :=
    message_header ⟨rfl, by decide, by decide⟩
  have hitems : (p.sandboxWriteDirs.map fun dir => message "  - %s\n" [.str dir.path]) =
      p.sandboxWriteDirs.map fun dir => itemText 2 dir.path ++ [LF] :=
    List.map_congr_left fun dir hmem => message_item (h.dirs dir hmem).1.length_le
  have hflag (value : Bytes) (hlen : value.length ≤ 5) :
      message "sandboxed: %s\n" [.str value] = entryLine (ascii "sandboxed") value :=
    message_value ⟨rfl, by decide, by decide, by decide⟩ (.str _) (hlen.trans (by decide))
  cases hsand : p.sandboxed with
  | false =>
    have hprint : printSandbox p c = [message "sandboxed: %s\n" [.str (ascii "false")]] := by
      simp [printSandbox, hsand]
    have hentries : headEntries p c = [(ascii "name", p.name),
        (ascii "sandboxed", ascii "false")] := by
      simp [headEntries, hsand]
    have hnone : dirsText p = [] := by simp [dirsText, hsand]
    rw [hprint, hentries, hnone, hname, hflag _ (by decide)]
    simp [entryLines]
  | true =>
    have hentries : headEntries p c = [(ascii "name", p.name), (ascii "sandboxed", ascii "true"),
        (ascii "sandbox-write-dir", c.workdir)] := by
      simp [headEntries, hsand]
    by_cases hdirs : p.sandboxWriteDirs = []
    · have hprint : printSandbox p c = [message "sandboxed: %s\n" [.str (ascii "true")],
          message "sandbox-write-dir: %s\n" [.str c.workdir]] := by
        simp [printSandbox, hsand, hdirs]
      have hnone : dirsText p = [] := by simp [dirsText, hdirs]
      rw [hprint, hentries, hnone, hname, hflag _ (by decide)]
      simp [entryLines, hdir]
    · have hprint : printSandbox p c = [message "sandboxed: %s\n" [.str (ascii "true")],
          message "sandbox-write-dir: %s\n" [.str c.workdir], message "sandbox-write-dirs:\n" []] ++
            p.sandboxWriteDirs.map fun dir => message "  - %s\n" [.str dir.path] := by
        simp [printSandbox, hsand, hdirs]
      have hsome : dirsText p = headerText 0 (ascii "sandbox-write-dirs") ++ [LF] ++
          itemLines 2 (p.sandboxWriteDirs.map (·.path)) := by
        simp [dirsText, hsand, hdirs]
      rw [hprint, hentries, hsome, hname, hitems, hflag _ (by decide), hheader, hdir]
      simp [entryLines, itemLines, List.flatMap_def, Function.comp_def]

theorem printCheck_eq (h : Printable p c) :
    (printCheck p).flatten = entryLines (checkEntries p) := by
  have hcheck : message "check: %s\n" [.str (hmCheckName p.check)] =
      entryLine (ascii "check") (hmCheckName p.check) := by
    refine message_value ⟨rfl, by decide, by decide, by decide⟩ (.str _) ?_
    cases p.check <;> decide
  have hhead : message "request: HEAD %S\n" [.slice p.url] =
      entryLine (ascii "request") (ascii "HEAD " ++ p.url ++ ascii "") :=
    message_entry ⟨rfl, by decide, by decide, by decide⟩ (.slice _) (plain_fits h.values.url)
  have hget : message "request: GET %S\n" [.slice p.url] =
      entryLine (ascii "request") (ascii "GET " ++ p.url ++ ascii "") :=
    message_entry ⟨rfl, by decide, by decide, by decide⟩ (.slice _) (plain_fits h.values.url)
  have hprefix : message "version-prefix: %S\n" [.slice p.versionPrefix] =
      entryLine (ascii "version-prefix") p.versionPrefix :=
    message_value ⟨rfl, by decide, by decide, by decide⟩ (.slice _)
      (plain_fits h.values.versionPrefix)
  have hsuffix : message "version-suffix: %S\n" [.slice p.versionSuffix] =
      entryLine (ascii "version-suffix") p.versionSuffix :=
    message_value ⟨rfl, by decide, by decide, by decide⟩ (.slice _)
      (plain_fits h.values.versionSuffix)
  have hetag : message "compare: the ETag header, or Last-Modified when absent\n" [] =
      entryLine (ascii "compare") (ascii "the ETag header, or Last-Modified when absent") :=
    message_text ⟨rfl, by decide, by decide⟩
  have hbody : message "compare: an XXH3 hash of the whole response body\n" [] =
      entryLine (ascii "compare") (ascii "an XXH3 hash of the whole response body") :=
    message_text ⟨rfl, by decide, by decide⟩
  have hbetween : message "compare: the text between version-prefix and version-suffix\n" [] =
      entryLine (ascii "compare") (ascii "the text between version-prefix and version-suffix") :=
    message_text ⟨rfl, by decide, by decide⟩
  have hline : message "compare: the text from version-prefix to the end of that line\n" [] =
      entryLine (ascii "compare") (ascii "the text from version-prefix to the end of that line") :=
    message_text ⟨rfl, by decide, by decide⟩
  rw [ascii_empty, List.append_nil] at hhead hget
  unfold printCheck checkEntries
  rw [hcheck]
  cases p.check with
  | etag => simp [entryLines, hhead, hetag]
  | hash => simp [entryLines, hget, hbody]
  | version =>
    by_cases hsuf : p.versionSuffix = []
    · simp [entryLines, hsuf, hget, hprefix, hline]
    · simp [entryLines, hsuf, hget, hprefix, hsuffix, hbetween]

theorem printFiles_eq (h : Printable p c) (hne : p.files ≠ []) : (printFiles p c).flatten =
    entryLines [(ascii "files-dir", c.workdir), text "files-written" "before command execution"] ++
      (headerText 0 (ascii "files") ++ [LF] ++ blocks
        (p.files.map fun file => (file.path, fileLines file))) := by
  have hdir : message "files-dir: %s\n" [.str c.workdir] =
      entryLine (ascii "files-dir") c.workdir :=
    message_value ⟨rfl, by decide, by decide, by decide⟩ (.str _) h.workdir.fits
  have hwritten : message "files-written: before command execution\n" [] =
      entryLine (ascii "files-written") (ascii "before command execution") :=
    message_text ⟨rfl, by decide, by decide⟩
  have hheader : message "files:\n" [] = headerText 0 (ascii "files") ++ [LF] :=
    message_header ⟨rfl, by decide, by decide⟩
  have hblocks : (p.files.flatMap fun file => message "  %S: |\n"
      [.slice file.path] :: fileBlock file).flatten =
      blocks (p.files.map fun file => (file.path, fileLines file)) := by
    have hfiles := h.values.files
    revert hfiles
    induction p.files with
    | nil => exact fun _ => rfl
    | cons file files ih =>
      intro hfiles
      obtain ⟨⟨hkey, -⟩, hothers⟩ := List.forall_mem_cons.mp hfiles
      rw [List.flatMap_cons, List.flatten_append, ih hothers, List.flatten_cons,
        message_file hkey.length_le, fileBlock_eq]
      simp [blocks, blockEntry, printed]
  rw [printFiles, if_neg hne, List.flatten_append, hblocks, hdir, hwritten, hheader]
  simp [entryLines]

theorem printKind_eq (h : Printable p c) :
    (printKind p c).flatten = entryLines (kindEntries p c) ++ filesText p := by
  have hcommand : message "command: %S\n" [.slice p.command] =
      entryLine (ascii "command") p.command :=
    message_value ⟨rfl, by decide, by decide, by decide⟩ (.slice _) (plain_fits h.values.command)
  have hworkdir : message "workdir: %s\n" [.str c.workdir] =
      entryLine (ascii "workdir") c.workdir :=
    message_value ⟨rfl, by decide, by decide, by decide⟩ (.str _) h.workdir.fits
  have hrun : message "run: %s -c <command>, in workdir\n" [.str HM_SHELL] =
      entryLine (ascii "run") (ascii "" ++ HM_SHELL ++ ascii " -c <command>, in workdir") :=
    message_entry ⟨rfl, by decide, by decide, by decide⟩ (.str _) (by decide)
  have hwhen : message "record-when: the command exits 0\n" [] =
      entryLine (ascii "record-when") (ascii "the command exits 0") :=
    message_text ⟨rfl, by decide, by decide⟩
  have hurl : message "url: %S\n" [.slice p.url] = entryLine (ascii "url") p.url :=
    message_value ⟨rfl, by decide, by decide, by decide⟩ (.slice _) (plain_fits h.values.url)
  have hshell : ascii "" ++ HM_SHELL ++ ascii " -c <command>, in workdir" =
      ascii "/bin/sh -c <command>, in workdir" := by
    decide
  rw [hshell] at hrun
  cases hk : p.kind with
  | url =>
    have hprint : (printKind p c).flatten = message "url: %S\n" [.slice p.url] ++
        (printCheck p).flatten := by
      simp [printKind, hk]
    have hnone : filesText p = [] := by simp [filesText, hk]
    rw [hprint, hurl, printCheck_eq h, hnone, List.append_nil, kindEntries, hk]
    rfl
  | command =>
    have hprint : (printKind p c).flatten = entryLines [(ascii "command", p.command),
        (ascii "workdir", c.workdir),
        text "run" "/bin/sh -c <command>, in workdir", text "record-when" "the command exits 0"] ++
          (printFiles p c).flatten := by
      simp [printKind, hk, hcommand, hworkdir, hrun, hwhen, entryLines]
    by_cases hfiles : p.files = []
    · have hnone : filesText p = [] := by simp [filesText, hfiles]
      rw [hprint, hnone, kindEntries, hk]
      simp [printFiles, hfiles]
    · have hsome : filesText p = headerText 0 (ascii "files") ++ [LF] ++
          blocks (p.files.map fun file => (file.path, fileLines file)) := by
        simp [filesText, hk, hfiles]
      rw [hprint, printFiles_eq h hfiles, hsome, kindEntries, hk]
      simp only [if_neg hfiles, entryLines_append, List.append_assoc]

theorem length_hmSchedDescribe (p : Project) (cap : Nat) :
    (hmSchedDescribe p cap).length ≤ cap - 1 := by
  unfold hmSchedDescribe
  split
  · exact List.length_take_le _ _
  · exact List.length_take_le _ _
  · exact List.length_take_le _ _

theorem printSchedule_eq (p : Project) :
    (printSchedule p).flatten = entryLines (scheduleEntries p) := by
  have hsched : message "schedule: %s\n" [.str (hmSchedDescribe p 32)] =
      entryLine (ascii "schedule") (hmSchedDescribe p 32) := by
    exact message_value ⟨rfl, by decide, by decide, by decide⟩ (.str _)
      ((length_hmSchedDescribe p 32).trans (by decide))
  have hdigits : (revDigits 24 (intervalWord p)).reverse.length ≤ SIML_MAX_INLINE_VALUE_LEN := by
    rw [List.length_reverse]
    exact (revDigits_length_le 24 _).trans (by decide)
  have hcache : message "cache-policy: input path, command, and embedded-file contents\n" [] =
      entryLine (ascii "cache-policy") (ascii "input path, command, and embedded-file contents") :=
    message_text ⟨rfl, by decide, by decide⟩
  have hworkdir : message "workdir-policy: stable per input path, cleared when inputs change\n" [] =
      entryLine (ascii "workdir-policy")
        (ascii "stable per input path, cleared when inputs change") :=
    message_text ⟨rfl, by decide, by decide⟩
  have hforced :
      message "check-when: inputs change, cached executable is missing, or with --force\n" [] =
      entryLine (ascii "check-when") (ascii
        "inputs change, cached executable is missing, or with --force") :=
    message_text ⟨rfl, by decide, by decide⟩
  have hevery : message
      "check-when: inputs change, cached executable is missing, or on every invocation\n" [] =
      entryLine (ascii "check-when") (ascii
        "inputs change, cached executable is missing, or on every invocation") :=
    message_text ⟨rfl, by decide, by decide⟩
  have hpassed : message
      "check-when: inputs change, cached executable is missing, or %u seconds after the last run\n"
      [.ulong (intervalWord p)] =
        entryLine (ascii "check-when") (ascii "inputs change, cached executable is missing, or " ++
          (revDigits 24 (intervalWord p)).reverse ++ ascii " seconds after the last run") :=
    message_entry ⟨rfl, by decide, by decide, by decide⟩ (.ulong _) hdigits
  have halways : message "check-when: on every invocation\n" [] =
      entryLine (ascii "check-when") (ascii "on every invocation") :=
    message_text ⟨rfl, by decide, by decide⟩
  have hnever : message "check-when: only with --force\n" [] =
      entryLine (ascii "check-when") (ascii "only with --force") :=
    message_text ⟨rfl, by decide, by decide⟩
  have hlater : message "check-when: %u seconds after the last run\n" [.ulong (intervalWord p)] =
      entryLine (ascii "check-when") (ascii "" ++ (revDigits 24 (intervalWord p)).reverse ++
        ascii " seconds after the last run") :=
    message_entry ⟨rfl, by decide, by decide, by decide⟩ (.ulong _) hdigits
  unfold printSchedule scheduleEntries
  by_cases hfiles : p.files = []
  · rw [if_neg (by simpa using hfiles), if_neg (by simpa using hfiles)]
    cases p.schedKind <;> simp [entryLines, after, hsched, halways, hnever, hlater]
  · rw [if_pos hfiles, if_pos hfiles]
    by_cases hmode : (!p.scheduleExplicit || decide (p.schedKind = .never)) = true
    · rw [if_pos hmode, if_pos hmode]
      simp [entryLines, hcache, hworkdir, hforced]
    · rw [if_neg hmode, if_neg hmode]
      by_cases hkind : p.schedKind = .always
      · simp [entryLines, hsched, hcache, hworkdir, hkind, hevery]
      · simp [entryLines, after, hsched, hcache, hworkdir, hkind, hpassed]

theorem printBin_eq (h : Printable p c) : (printBin p).flatten = entryLines (binEntries p) := by
  by_cases hbin : p.binPath = []
  · simp [printBin, binEntries, hbin, entryLines]
  · have hpath : message "bin-path: %s\n" [.str p.binPath] =
        entryLine (ascii "bin-path") p.binPath :=
      message_value ⟨rfl, by decide, by decide, by decide⟩ (.str _) (h.bin hbin).fits
    have hexec : message "exec: bin-path, with every argument that followed FILE\n" [] =
        entryLine (ascii "exec") (ascii "bin-path, with every argument that followed FILE") :=
      message_text ⟨rfl, by decide, by decide⟩
    have hname (hchoice : p.binChoice ≠ .single) : message "bin-name: %S\n" [.slice p.binName] =
        entryLine (ascii "bin-name") p.binName :=
      message_value ⟨rfl, by decide, by decide, by decide⟩ (.slice _)
        ((h.values.binName hchoice).length_le.trans (by decide))
    have hdefault (hchoice : p.binChoice ≠ .single) :
        message "bin-name: %S (default)\n" [.slice p.binName] =
        entryLine (ascii "bin-name") (ascii "" ++ p.binName ++ ascii " (default)") :=
      message_entry ⟨rfl, by decide, by decide, by decide⟩ (.slice _)
        ((h.values.binName hchoice).length_le.trans (by decide))
    rw [printBin, binEntries, if_neg hbin, if_neg hbin]
    cases hchoice : p.binChoice with
    | single => simp [entryLines, hpath, hexec]
    | named => simp [entryLines, hpath, hexec, hname (by simp [hchoice])]
    | default => simp [entryLines, ascii_empty, hpath, hexec, hdefault (by simp [hchoice])]

theorem printEnv_eq (p : Project) :
    (printEnv p).flatten = entryLine (ascii "install-env") (envNames p) := by
  have hfirst : message
      "install-env: [HACMAN_NAME,HACMAN_URL,HACMAN_CHECK,HACMAN_VERSION,HACMAN_PREVIOUS" [] =
      ascii "install-env" ++ COLON :: SPACE ::
        ascii "[HACMAN_NAME,HACMAN_URL,HACMAN_CHECK,HACMAN_VERSION,HACMAN_PREVIOUS" := by
    rw [ascii_ofList, ascii_ofList]
    exact (message_literal ⟨by decide, by decide⟩).trans rfl
  have hresponse : message ",HACMAN_RESPONSE" [] = ascii ",HACMAN_RESPONSE" := by
    rw [ascii_ofList]
    exact message_literal ⟨by decide, by decide⟩
  have hlast : message "]\n" [] = ascii "]" ++ [LF] := by
    rw [ascii_ofList]
    exact (message_literal ⟨by decide, by decide⟩).trans rfl
  rw [printEnv, hfirst, hresponse, hlast, envNames, entryLine, entryText]
  cases p.check <;> simp

theorem printInstall_eq (h : p.kind = .url) :
    (printInstall p).flatten = entryLines (installEntries p) ++ installText p := by
  have hnone : message "install: (none - a change would only be reported)\n" [] =
      entryLine (ascii "install") noInstall := message_text ⟨rfl, by decide, by decide⟩
  have hshell : message "install-shell: %s -e <script>\n" [.str HM_SHELL] =
      entryLine (ascii "install-shell") (ascii "" ++ HM_SHELL ++ ascii " -e <script>") :=
    message_entry ⟨rfl, by decide, by decide, by decide⟩ (.str _) (by decide)
  have hblock : message "install: |\n" [] = entryLine (ascii "install") (ascii "|") :=
    message_text ⟨rfl, by decide, by decide⟩
  have hpipe : ascii "|" = [PIPE] := by decide
  have hscript : ascii "" ++ HM_SHELL ++ ascii " -e <script>" = ascii "/bin/sh -e <script>" := by
    decide
  by_cases hinstall : p.install = []
  · simp [printInstall, installEntries, installText, h, hinstall, hnone, entryLines]
  · rw [printInstall, if_neg hinstall, installEntries, if_pos h, if_neg hinstall, installText,
      if_pos (by simp [h, hinstall]), installBlock_eq]
    simp only [List.flatten_append, printEnv_eq, hshell, hblock, hscript, hpipe]
    simp [entryLines, entryLine, blockEntry, printed]

theorem planOutput_pieces (h : Printable p c) : planOutput p c =
    entryLines (headEntries p c) ++ (dirsText p ++ (entryLines (kindEntries p c) ++ (filesText p ++
      (entryLines (tailEntries p c) ++ installText p)))) := by
  have hidentity : message "cache-identity: %s\n" [.str c.identity] =
      entryLine (ascii "cache-identity") c.identity :=
    message_value ⟨rfl, by decide, by decide, by decide⟩ (.str _) h.identity.length_le
  have hfile : message "cache-file: %s\n" [.str c.path] = entryLine (ascii "cache-file") c.path :=
    message_value ⟨rfl, by decide, by decide, by decide⟩ (.str _) h.path.fits
  have hinstall : (if p.kind = .url then printInstall p else []).flatten =
      entryLines (installEntries p) ++ installText p := by
    by_cases hk : p.kind = .url
    · rw [if_pos hk, printInstall_eq hk]
    · rw [if_neg hk, installEntries, if_neg hk, installText, if_neg (by simp [hk])]
      rfl
  rw [planOutput_eq, hmPlanPrint]
  simp only [List.flatten_append, List.flatten_cons, List.flatten_nil, List.append_nil, hinstall,
    hidentity, hfile,
    printKind_eq h, printSchedule_eq, printBin_eq h, tailEntries, entryLines_append]
  rw [printSandbox_eq h]
  simp [entryLines, List.append_assoc]

end Printed

end Hacman.PlanSiml
