import Hacman.Cache
import Hacman.Config

/-!
# What a project resolves to

`--plan` prints through the formatter of the fast path, the installer writes
through stdio. Both walk a block with the same line walker. A printed plan is the
list of its messages; a written script or file is its bytes.
-/

namespace Hacman.Plan
open Octets Util Config

def HM_SHELL : Bytes := ascii "/bin/sh"

section Schedule

def scheduleDigits (x : Int) : Bytes :=
  if x < 0 then [(48 + x.tmod 10).toNat.toUInt8] else (revDigits 24 x.toNat).reverse

def scheduleUnits : List (Bytes × Int) :=
  [(ascii "w", 604800), (ascii "d", 86400), (ascii "h", 3600), (ascii "m", 60)]

/-- The largest unit that divides the interval, and the count of it. -/
def inUnits (v : Int) : Bytes × Int :=
  match scheduleUnits.find? fun u => v.tmod u.2 = 0 with
  | some (unit, secs) => (unit, v.tdiv secs)
  | none => (ascii "s", v)

def hmSchedDescribe (p : Project) (cap : Nat) : Bytes :=
  match p.schedKind with
  | .always => hmStrCopy cap (ascii "always")
  | .never => hmStrCopy cap (ascii "never")
  | .every =>
    let (unit, v) := inUnits p.schedInterval
    (scheduleDigits v ++ unit).take (cap - 1)

end Schedule

section Print
variable (p : Project) (c : Slot)

def printEnv : List Bytes :=
  [message "install-env: [HACMAN_NAME,HACMAN_URL,HACMAN_CHECK,HACMAN_VERSION,HACMAN_PREVIOUS" []] ++
  (if p.check ≠ .etag then [message ",HACMAN_RESPONSE" []] else []) ++
  [message "]\n" []]

def printCheck : List Bytes :=
  message "check: %s\n" [.str (hmCheckName p.check)] ::
  match p.check with
  | .etag =>
    [message "request: HEAD %S\n" [.slice p.url],
     message "compare: the ETag header, or Last-Modified when absent\n" []]
  | .hash =>
    [message "request: GET %S\n" [.slice p.url],
     message "compare: an XXH3 hash of the whole response body\n" []]
  | .version =>
    [message "version-prefix: %S\n" [.slice p.versionPrefix]] ++
    (if p.versionSuffix ≠ [] then [message "version-suffix: %S\n" [.slice p.versionSuffix]]
     else []) ++
    [message "request: GET %S\n" [.slice p.url],
     if p.versionSuffix ≠ [] then
       message "compare: the text between version-prefix and version-suffix\n" []
     else message "compare: the text from version-prefix to the end of that line\n" []]

/-- One line of a printed block; blank lines carry no indentation. -/
def blockMessage (fmt : String) (line : Bytes) : Bytes :=
  if line = [] then message "\n" [] else message fmt [.slice line]

def installBlock : List Bytes := (installLines p).map (blockMessage "  %S\n")

def printInstall : List Bytes :=
  if p.install = [] then [message "install: (none - a change would only be reported)\n" []]
  else [message "install-shell: %s -e <script>\n" [.str HM_SHELL]] ++ printEnv p ++
    [message "install: |\n" []] ++ installBlock p

def fileBlock (file : EmbeddedFile) : List Bytes :=
  (fileLines file).map (blockMessage "    %S\n")

def printFiles : List Bytes :=
  if p.files = [] then []
  else
    [message "files-dir: %s\n" [.str c.workdir],
     message "files-written: before command execution\n" [],
     message "files:\n" []] ++
    p.files.flatMap fun file => message "  %S: |\n" [.slice file.path] :: fileBlock file

def printSandbox : List Bytes :=
  message "sandboxed: %s\n" [.str (ascii (if p.sandboxed then "true" else "false"))] ::
  if p.sandboxed then
    message "sandbox-write-dir: %s\n" [.str c.workdir] ::
    if p.sandboxWriteDirs ≠ [] then
      message "sandbox-write-dirs:\n" [] ::
        p.sandboxWriteDirs.map fun dir => message "  - %s\n" [.str dir.path]
    else []
  else []

def printKind : List Bytes :=
  match p.kind with
  | .command =>
    [message "command: %S\n" [.slice p.command],
     message "workdir: %s\n" [.str c.workdir],
     message "run: %s -c <command>, in workdir\n" [.str HM_SHELL],
     message "record-when: the command exits 0\n" []] ++ printFiles p c
  | .url => message "url: %S\n" [.slice p.url] :: printCheck p

def intervalWord : Nat := (p.schedInterval % 2 ^ 64).toNat

def printSchedule : List Bytes :=
  let sched := message "schedule: %s\n" [.str (hmSchedDescribe p 32)]
  if p.files ≠ [] then
    [message "cache-policy: input path, command, and embedded-file contents\n" [],
     message "workdir-policy: stable per input path, cleared when inputs change\n" []] ++
    if !p.scheduleExplicit || p.schedKind = .never then
      [message "check-when: inputs change, cached executable is missing, or with --force\n" []]
    else [sched,
      if p.schedKind = .always then message
        "check-when: inputs change, cached executable is missing, or on every invocation\n" []
      else message
        "check-when: inputs change, cached executable is missing, or %u seconds after the last run\n"
        [.ulong (intervalWord p)]]
  else [sched,
    match p.schedKind with
    | .always => message "check-when: on every invocation\n" []
    | .never => message "check-when: only with --force\n" []
    | .every => message "check-when: %u seconds after the last run\n" [.ulong (intervalWord p)]]

def printBin : List Bytes :=
  if p.binPath = [] then []
  else
    (match p.binChoice with
      | .named => [message "bin-name: %S\n" [.slice p.binName]]
      | .default => [message "bin-name: %S (default)\n" [.slice p.binName]]
      | .single => []) ++
    [message "bin-path: %s\n" [.str p.binPath],
     message "exec: bin-path, with every argument that followed FILE\n" []]

def hmPlanPrint : List Bytes :=
  [message "name: %S\n" [.slice p.name]] ++ printSandbox p c ++ printKind p c ++ printSchedule p ++
  [message "cache-identity: %s\n" [.str c.identity], message "cache-file: %s\n" [.str c.path]] ++
  printBin p ++
  if p.kind = .url then printInstall p else []

def planOutput : Bytes :=
  (hmOutFlush (hmOuts (hmPlanPrint p c) (hmOutTarget 1 {}))).delivered 1

theorem planOutput_eq : planOutput p c = (hmPlanPrint p c).flatten := by
  obtain ⟨hs, hp, hf⟩ := hmOuts_stream (hmPlanPrint p c) (hmOutTarget 1 {}) rfl
  obtain ⟨hd, -⟩ := hmOutFlush_stream _ hp
  rw [hf] at hd
  exact hd.trans (hs.trans (List.nil_append _))

end Print

section Written

def written (lines : List Bytes) : Bytes := (lines.map (· ++ [LF])).flatten

/-- The file `write_script` hands to the shell. -/
def writeScript (p : Project) : Bytes :=
  ascii "#!" ++ HM_SHELL ++ [LF] ++ written (installLines p)

def writeEmbeddedFile (file : EmbeddedFile) : Bytes := written (fileLines file)

end Written

end Hacman.Plan
