import Hacman.Util

/-!
# The project file

The SIML parser hands over one event at a time; `hmConfigParse` is the switch over
them. Its bookkeeping record keeps the source's flags one by one. Keys and scalar
values arrive as bytes, block lines as places in the input buffer, because a block
is remembered as the raw region between its first and its last line.
-/

namespace Hacman.Config
open Octets Util

structure Slice where
  off : Nat
  len : Nat
  deriving DecidableEq, Repr

inductive Event
  | streamStart
  | shebang
  | comment
  | documentStart (line : Nat)
  | documentEnd
  | mappingStart (line : Nat)
  | mappingEnd (line : Nat)
  | sequenceStart (key : Bytes) (line : Nat)
  | sequenceEnd
  | scalar (key value : Bytes) (line : Nat)
  | blockStart (key : Bytes) (line : Nat)
  | blockLine (value : Slice)
  | blockEnd
  | entryHeader (key : Bytes) (line : Nat)
  | streamEnd
  | error (line : Nat) (msg : Option Bytes)
  deriving DecidableEq, Repr

/-- What stays fixed during one parse. -/
structure Input where
  buf : Bytes
  origin : Bytes
  invoked : Option Bytes := none
  resolvePaths : Bool := true
  home : Option Bytes := none
  getenv : Bytes → Option Bytes := fun _ => none

/-- What the open block scalar fills: the install text or one embedded file. -/
inductive Block
  | install
  | file (index : Nat)
  deriving DecidableEq, Repr

structure Cfg where
  out : Project := {}
  started : Bool := false
  finished : Bool := false
  cur : Bool := false
  seenCheck : Bool := false
  seenVersion : Bool := false
  seenInstall : Bool := false
  seenFiles : Bool := false
  seenSandboxWriteDirs : Bool := false
  pendingFiles : Bool := false
  pendingSandboxWriteDirs : Bool := false
  inFiles : Bool := false
  inSandboxWriteDirs : Bool := false
  seenBin : Bool := false
  pendingBinMap : Bool := false
  inBinMap : Bool := false
  binDefault : Bytes := []
  invokedName : Bytes := []
  block : Option Block := none
  blockStart : Option Nat := none
  blockEnd : Nat := 0
  deriving DecidableEq, Repr

abbrev Result := Except Bytes

section Text
variable (x : Input)

def cfgErr (line : Nat) (msg : String) : Bytes :=
  message "hacman: %s:%d: %s\n" [.str x.origin, .long line, .str (ascii msg)]

end Text

section Fields

def hmCheckName : CheckKind → Bytes
  | .hash => ascii "hash"
  | .version => ascii "version"
  | .etag => ascii "etag"

def parseCheck (v : Bytes) : Option CheckKind :=
  if v = ascii "etag" then some .etag
  else if v = ascii "hash" then some .hash
  else if v = ascii "version" then some .version
  else none

def scheduleUnit (unit : UInt8) : Option Nat :=
  if unit = 115 then some 1
  else if unit = 109 then some 60
  else if unit = 104 then some 3600
  else if unit = 100 then some 86400
  else if unit = 119 then some 604800
  else none

/-- The product is the source's `long` multiplication, taken to wrap. -/
def parseInterval (v : Bytes) : Option Int :=
  if v.length < 2 then none
  else match scheduleUnit (v.getLast?.getD 0) with
    | none => none
    | some mul =>
      match hmParseUlong v.dropLast with
      | none => none
      | some n => if n = 0 then none else some (toLong (n * mul % 2 ^ 64))

/-- Kind and interval; `always` and `never` leave the interval alone. -/
def parseSchedule (interval : Int) (v : Bytes) : Option (SchedKind × Int) :=
  if v = ascii "always" then some (.always, interval)
  else if v = ascii "never" then some (.never, interval)
  else if v = ascii "hourly" then some (.every, 3600)
  else if v = ascii "daily" then some (.every, 86400)
  else if v = ascii "weekly" then some (.every, 604800)
  else if v = ascii "monthly" then some (.every, 2592000)
  else (parseInterval v).map fun i => (.every, i)

variable (x : Input) (c : Cfg)

inductive Field
  | name | url | command | binPath | check | schedule | sandboxed | versionPrefix
  | versionSuffix | install
  deriving DecidableEq, Repr

def fieldOf (key : Bytes) : Option Field :=
  if key = ascii "name" then some .name
  else if key = ascii "url" then some .url
  else if key = ascii "command" then some .command
  else if key = ascii "bin-path" then some .binPath
  else if key = ascii "check" then some .check
  else if key = ascii "schedule" then some .schedule
  else if key = ascii "sandboxed" then some .sandboxed
  else if key = ascii "version-prefix" then some .versionPrefix
  else if key = ascii "version-suffix" then some .versionSuffix
  else if key = ascii "install" then some .install
  else none

def applyField (key value : Bytes) (line : Nat) : Result Cfg :=
  let p := c.out
  match fieldOf key with
  | some .name =>
    if HM_NAME_MAX < value.length then .error (cfgErr x line "name is too long")
    else .ok { c with out := { p with name := value } }
  | some .url =>
    if HM_URL_MAX < value.length then .error (cfgErr x line "url is too long")
    else .ok { c with out := { p with url := value } }
  | some .command =>
    if HM_COMMAND_MAX < value.length then .error (cfgErr x line "command is too long")
    else .ok { c with out := { p with command := value } }
  | some .binPath =>
    if c.seenBin then .error (cfgErr x line "duplicate 'bin-path'")
    else if HM_PATH_MAX < value.length then .error (cfgErr x line "bin-path is too long")
    else .ok { c with seenBin := true, out := { p with bin := value } }
  | some .check =>
    match parseCheck value with
    | none => .error (cfgErr x line "check must be one of: etag, hash, version")
    | some check => .ok { c with seenCheck := true, out := { p with check := check } }
  | some .schedule =>
    match parseSchedule p.schedInterval value with
    | none => .error (cfgErr x line
        "schedule must be always, never, hourly, daily, weekly, monthly or <n>[smhdw]")
    | some (kind, interval) =>
      .ok { c with out :=
        { p with schedKind := kind, schedInterval := interval, scheduleExplicit := true } }
  | some .sandboxed =>
    if value = ascii "true" then .ok { c with out := { p with sandboxed := true } }
    else if value = ascii "false" then .ok { c with out := { p with sandboxed := false } }
    else .error (cfgErr x line "sandboxed must be true or false")
  | some .versionPrefix =>
    .ok { c with seenVersion := true, out := { p with versionPrefix := value } }
  | some .versionSuffix =>
    .ok { c with seenVersion := true, out := { p with versionSuffix := value } }
  | some .install =>
    .ok { c with seenInstall := true, out := { p with install := value, installIndent := 0 } }
  | none => .error (message "hacman: %s:%d: unknown key '%S'\n"
    [.str x.origin, .long line, .slice key])

end Fields

section Entries

def validRelativePath (path : Bytes) (max : Nat) : Bool :=
  path ≠ [] && path.length ≤ max && path.head? ≠ some SLASH && path.getLast? ≠ some SLASH &&
    (fields SLASH path).all fun name => name ≠ [] && name ≠ ascii "." && name ≠ ascii ".."

def validFilePath (path : Bytes) : Bool := validRelativePath path HM_FILE_PATH_MAX

variable (x : Input) (c : Cfg)

def addFile (path : Bytes) (line : Nat) : Result Cfg :=
  let p := c.out
  if !validFilePath path then
    .error (cfgErr x line "embedded file path must be a safe relative path")
  else if p.files.any (·.path = path) then
    .error (cfgErr x line "duplicate embedded file path")
  else if p.files.length = HM_FILES_MAX then .error (cfgErr x line "too many embedded files")
  else .ok { c with
    block := some (.file p.files.length)
    out := { p with files := p.files ++ [{ path := path, line := line }] } }

def addSandboxWriteDir (source : Bytes) (line : Nat) : Result Cfg :=
  let p := c.out
  if source = [] ∨ HM_PATH_MAX < source.length then
    .error (cfgErr x line "sandbox write directory is empty or too long")
  else if p.sandboxWriteDirs.length = HM_SANDBOX_WRITE_DIRS_MAX then
    .error (cfgErr x line "too many sandbox write directories")
  else .ok { c with out :=
    { p with sandboxWriteDirs := p.sandboxWriteDirs ++ [{ source := source, line := line }] } }

def simlSuffix : Bytes := ascii ".siml"

def lastComponent (path : Bytes) : Bytes := (path.reverse.takeWhile (· ≠ SLASH)).reverse

/-- A file called just `.siml` keeps its name rather than becoming empty. -/
def hmBinNameOf (path : Bytes) : Bytes :=
  let name := lastComponent path
  if simlSuffix.length < name.length ∧ simlSuffix <:+ name then
    name.take (name.length - simlSuffix.length)
  else name

def addBinEntry (name path : Bytes) (line : Nat) : Result Cfg :=
  let p := c.out
  if SLASH ∈ name ∨ (simlSuffix.length < name.length ∧ simlSuffix <:+ name) ∨
      HM_BIN_NAME_MAX < name.length then
    .error (cfgErr x line "a bin-path name must be a file name without '/' or a '.siml' suffix")
  else if path = [] ∨ HM_PATH_MAX < path.length then
    .error (cfgErr x line "a bin-path entry is empty or too long")
  else if p.binNames.any (· = name) then .error (cfgErr x line "duplicate bin-path name")
  else if p.binNames.length = HM_BIN_NAMES_MAX then
    .error (cfgErr x line "too many bin-path names")
  else
    let named := c.invokedName ≠ [] ∧ name = c.invokedName
    .ok { c with
      binDefault := if p.binNames = [] then path else c.binDefault
      out := { p with
        binNames := p.binNames ++ [name]
        bin := if named then path else p.bin
        binName := if named then c.invokedName else p.binName
        binChoice := if named then .named else p.binChoice } }

def finishBinMap (line : Nat) : Result Cfg :=
  let p := c.out
  match p.binNames with
  | [] => .error (cfgErr x line "a bin-path mapping needs at least one entry")
  | first :: _ =>
    .ok { c with
      inBinMap := false
      out := if p.binChoice = .named then p
        else { p with bin := c.binDefault, binName := first, binChoice := .default } }

/-- The defaults: a day between checks, setup confined to the work directory. -/
def beginProject (line : Nat) : Result Cfg :=
  if c.started then .error (cfgErr x line "input must describe exactly one project")
  else .ok { c with
    started := true
    cur := true
    out := { check := .etag, schedKind := .every, schedInterval := 86400, sandboxed := true,
             line := line } }

end Entries

section Finish
variable (x : Input)

def BRACE_OPEN : UInt8 := 123
def BRACE_CLOSE : UInt8 := 125

/-- The loop of `expand_template`: bytes of the template still to read, bytes
written, and whether some did not fit. -/
def expandFrom (what : String) (cap line : Nat) : Nat → Bytes → Bytes → Bool →
    Result (Bytes × Bool)
  | 0, _, out, tooLong => .ok (out, tooLong)
  | _ + 1, [], out, tooLong => .ok (out, tooLong)
  | fuel + 1, ch :: tpl, out, tooLong =>
    if ch = BRACE_OPEN ∧ tpl.head? = some BRACE_OPEN then
      let name := ((tpl.drop 1).takeWhile (· ≠ BRACE_CLOSE)).take 63
      let rest := tpl.drop (1 + name.length)
      if rest.head? ≠ some BRACE_CLOSE ∨ (rest.drop 1).head? ≠ some BRACE_CLOSE then
        .error (message "hacman: %s:%d: unterminated '\x7b\x7b' in %s\n"
          [.str x.origin, .long line, .str (ascii what)])
      else
        let value := if cstr name = ascii "HOME" then x.home else x.getenv (cstr name)
        match value with
        | none => .error (message
            "hacman: %s:%d: %s refers to \x7b\x7b%s\x7d\x7d, which is not set in the environment\n"
            [.str x.origin, .long line, .str (ascii what), .str (cstr name)])
        | some value =>
          if value = [] then .error (message
            "hacman: %s:%d: %s refers to \x7b\x7b%s\x7d\x7d, which is not set in the environment\n"
            [.str x.origin, .long line, .str (ascii what), .str (cstr name)])
          else
            let room := cap - 1 - out.length
            expandFrom what cap line fuel (rest.drop 2) (out ++ value.take room)
              (tooLong || room < value.length)
    else if out.length + 1 < cap then expandFrom what cap line fuel tpl (out ++ [ch]) tooLong
    else expandFrom what cap line fuel tpl out true

def expandTemplate (tpl : Bytes) (what : String) (cap line : Nat) (requireAbsolute : Bool) :
    Result Bytes :=
  match expandFrom x what cap line tpl.length tpl [] false with
  | .error msg => .error msg
  | .ok (out, tooLong) =>
    if tooLong then .error (message "hacman: %s:%d: %s is too long after environment expansion\n"
      [.str x.origin, .long line, .str (ascii what)])
    else if requireAbsolute && out.head? ≠ some SLASH then
      .error (message "hacman: %s:%d: %s must expand to an absolute path\n"
        [.str x.origin, .long line, .str (ascii what)])
    else .ok (cstr out)

def defaultName (text : Bytes) : Bytes := text.take HM_NAME_MAX

def settleKind (c : Cfg) : Result Project :=
  let p := c.out
  if p.url = [] ∧ p.command = [] then
    .error (cfgErr x p.line "project needs either 'url' or 'command'")
  else if p.url ≠ [] ∧ p.command ≠ [] then
    .error (cfgErr x p.line "'url' and 'command' are mutually exclusive")
  else if p.command ≠ [] then
    if c.seenCheck || c.seenVersion then
      .error (cfgErr x p.line "'check' and 'version-*' only apply to a 'url'")
    else if c.seenInstall then
      .error (cfgErr x p.line "a 'command' project has no 'install': the command is the work")
    else .ok { p with
      kind := .command
      name := if p.name = [] then defaultName p.command else p.name }
  else if c.seenFiles then .error (cfgErr x p.line "'files' only applies to a 'command'")
  else if p.check = .version ∧ p.versionPrefix = [] then
    .error (cfgErr x p.line "check: version requires 'version-prefix'")
  else .ok { p with kind := .url, name := if p.name = [] then defaultName p.url else p.name }

def expandDirs : List SandboxWriteDir → Result (List SandboxWriteDir)
  | [] => .ok []
  | dir :: dirs =>
    match expandTemplate x dir.source "sandbox-write-dirs entry"
      (HM_PATH_MAX + 1) dir.line true with
    | .error msg => .error msg
    | .ok path =>
      match expandDirs dirs with
      | .error msg => .error msg
      | .ok dirs => .ok ({ dir with path := path } :: dirs)

def expandBin (p : Project) : Result Bytes :=
  if x.resolvePaths && p.bin ≠ [] then
    expandTemplate x p.bin "bin-path" (HM_PATH_MAX + 1) p.line (p.files = [] && !p.sandboxed)
  else .ok []

def settleBin (p : Project) : Result Project :=
  match expandBin x p with
  | .error msg => .error msg
  | .ok binPath =>
    let p := { p with binPath := binPath }
    if binPath ≠ [] ∧ binPath.head? ≠ some SLASH then
      if validRelativePath binPath HM_PATH_MAX then .ok { p with binCached := true }
      else .error (cfgErr x p.line "cache-relative bin-path must be a safe relative path")
    else .ok p

def finishProject (c : Cfg) : Result Cfg :=
  match settleKind x c with
  | .error msg => .error msg
  | .ok p =>
    if c.pendingBinMap then
      .error (cfgErr x p.line "'bin-path' needs a path or a mapping of names to paths")
    else if p.sandboxWriteDirs ≠ [] && !p.sandboxed then
      .error (cfgErr x p.line "'sandbox-write-dirs' requires 'sandboxed: true'")
    else
      match if x.resolvePaths then expandDirs x p.sandboxWriteDirs
          else .ok p.sandboxWriteDirs with
      | .error msg => .error msg
      | .ok dirs =>
        match settleBin x { p with sandboxWriteDirs := dirs } with
        | .error msg => .error msg
        | .ok p => .ok { c with out := p, finished := true, cur := false }

end Finish

section Events
variable (x : Input)

def lineStart (buf : Bytes) (off : Nat) : Nat :=
  off - ((buf.take off).reverse.takeWhile (· ≠ LF)).length

def setIndent (indent : Nat) (file : EmbeddedFile) : EmbeddedFile :=
  { file with contentIndent := indent }

def setContent (content : Bytes) (file : EmbeddedFile) : EmbeddedFile :=
  { file with content := content }

/-- The first content line fixes the region's start and the columns to strip. -/
def blockLine (c : Cfg) (b : Block) (value : Slice) : Cfg :=
  if value.len = 0 then c
  else match c.blockStart with
    | some _ => { c with blockEnd := value.off + value.len }
    | none =>
      let start := lineStart x.buf value.off
      let indent := value.off - start
      let p := c.out
      { c with
        blockStart := some start
        blockEnd := value.off + value.len
        out := match b with
          | .install => { p with installIndent := indent }
          | .file i => { p with files := p.files.modify i (setIndent indent) } }

def region (buf : Bytes) (start stop : Nat) : Bytes := (buf.drop start).take (stop - start)

def blockEnd (c : Cfg) : Cfg :=
  let p := c.out
  let out := match c.block, c.blockStart with
    | some .install, some start => { p with install := region x.buf start c.blockEnd }
    | some (.file i), some start =>
      { p with files := p.files.modify i (setContent (region x.buf start c.blockEnd)) }
    | _, _ => p
  { c with out := out, block := none }

def entryHeader (c : Cfg) (key : Bytes) (line : Nat) : Result Cfg :=
  if c.inBinMap then .error (cfgErr x line "a bin-path entry must map a name to a path")
  else if c.inFiles || c.inSandboxWriteDirs then
    .error (cfgErr x line "an embedded file must be a literal block scalar")
  else if c.cur && key = ascii "bin-path" then
    if c.seenBin then .error (cfgErr x line "duplicate 'bin-path'")
    else .ok { c with seenBin := true, pendingBinMap := true }
  else if c.cur && key = ascii "files" then
    .ok { c with seenFiles := true, pendingFiles := true }
  else if c.cur && key = ascii "sandbox-write-dirs" then
    if c.seenSandboxWriteDirs then .error (cfgErr x line "duplicate 'sandbox-write-dirs'")
    else .ok { c with seenSandboxWriteDirs := true, pendingSandboxWriteDirs := true }
  else .ok c

def sequenceStart (c : Cfg) (key : Bytes) (line : Nat) : Result Cfg :=
  if c.cur && (c.pendingSandboxWriteDirs || key = ascii "sandbox-write-dirs") then
    if !c.pendingSandboxWriteDirs && c.seenSandboxWriteDirs then
      .error (cfgErr x line "duplicate 'sandbox-write-dirs'")
    else .ok { c with
      seenSandboxWriteDirs := true
      pendingSandboxWriteDirs := false
      inSandboxWriteDirs := true }
  else if c.cur then
    .error (cfgErr x line "only 'sandbox-write-dirs' may be a sequence inside a project")
  else .error (cfgErr x line
    "input must describe exactly one project, written as a plain mapping (no leading '- ')")

def mappingStart (c : Cfg) (line : Nat) : Result Cfg :=
  if c.cur && c.pendingFiles then .ok { c with pendingFiles := false, inFiles := true }
  else if c.cur && c.pendingBinMap then
    .ok { c with
      pendingBinMap := false
      inBinMap := true
      invokedName := match x.invoked with
        | some path => hmBinNameOf path
        | none => c.invokedName }
  else if c.cur && c.pendingSandboxWriteDirs then
    .error (cfgErr x line "'sandbox-write-dirs' must be a sequence")
  else if c.cur then .error (cfgErr x line "nested mappings are not supported")
  else beginProject x c line

def mappingEnd (c : Cfg) (line : Nat) : Result Cfg :=
  if c.inFiles then .ok { c with inFiles := false }
  else if c.inBinMap then finishBinMap x c line
  else finishProject x c

def scalar (c : Cfg) (key value : Bytes) (line : Nat) : Result Cfg :=
  if !c.cur then .error (cfgErr x line "expected a mapping of project fields")
  else if key = [] then
    if c.inSandboxWriteDirs then addSandboxWriteDir x c value line
    else .error (cfgErr x line "bare sequence items are not supported")
  else if c.inBinMap then addBinEntry x c key value line
  else if c.inFiles then
    .error (cfgErr x line "an embedded file must be a literal block scalar")
  else applyField x c key value line

def blockScalarStart (c : Cfg) (key : Bytes) (line : Nat) : Result Cfg :=
  if c.cur && c.inFiles then
    (addFile x c key line).map fun c => { c with blockStart := none, blockEnd := 0 }
  else if c.cur && key = ascii "install" then
    .ok { c with seenInstall := true, block := some .install, blockStart := none, blockEnd := 0 }
  else .error (cfgErr x line "only 'install' and embedded files may be block scalars")

/-- One round of the switch; the end of the stream is the caller's. -/
def onEvent (c : Cfg) : Event → Result Cfg
  | .streamStart | .documentEnd | .shebang | .comment => .ok c
  | .entryHeader key line => entryHeader x c key line
  | .documentStart line =>
    if c.started then .error (cfgErr x line "input must describe exactly one project") else .ok c
  | .sequenceStart key line => sequenceStart x c key line
  | .sequenceEnd => .ok { c with inSandboxWriteDirs := false }
  | .mappingStart line => mappingStart x c line
  | .mappingEnd line => mappingEnd x c line
  | .scalar key value line => scalar x c key value line
  | .blockStart key line => blockScalarStart x c key line
  | .blockLine value => .ok (match c.block with
    | some b => blockLine x c b value
    | none => c)
  | .blockEnd => .ok (blockEnd x c)
  | .streamEnd => .ok c
  | .error line msg => .error (message "hacman: %s:%d: %s\n"
      [.str x.origin, .long line, .str (msg.getD (ascii "parse error"))])

def parseFrom (c : Cfg) : List Event → Result Project
  | [] => .error (message "hacman: %s: input describes no project\n" [.str x.origin])
  | .streamEnd :: _ =>
    if c.finished then .ok c.out
    else .error (message "hacman: %s: input describes no project\n" [.str x.origin])
  | ev :: evs =>
    match onEvent x c ev with
    | .error msg => .error msg
    | .ok c => parseFrom c evs

def hmConfigParse (evs : List Event) : Result Project := parseFrom x {} evs

end Events

section Runs
variable {x : Input} {c c' : Cfg} {p : Project}

theorem parseFrom_cons {ev : Event} {evs : List Event} (hev : ev ≠ .streamEnd) :
    parseFrom x c (ev :: evs) = match onEvent x c ev with
      | .error msg => .error msg
      | .ok c => parseFrom x c evs := by
  cases ev <;> first | rfl | exact absurd rfl hev

/-- What every event keeps holds of the state that an accepted file ends in. -/
theorem parseFrom_keeps {I : Cfg → Prop} {evs : List Event}
    (hstep : ∀ ev ∈ evs, ∀ c c', I c → onEvent x c ev = .ok c' → I c') (h : I c)
    (hp : parseFrom x c evs = .ok p) : ∃ c', I c' ∧ c'.finished = true ∧ c'.out = p := by
  induction evs generalizing c with
  | nil => cases hp
  | cons ev evs ih =>
    obtain ⟨hfirst, hrest⟩ := List.forall_mem_cons.mp hstep
    by_cases hev : ev = .streamEnd
    · subst hev
      simp only [parseFrom] at hp
      split_ifs at hp with hfin
      exact ⟨c, h, hfin, Except.ok.inj hp⟩
    · rw [parseFrom_cons hev] at hp
      cases hc : onEvent x c ev with
      | error text =>
        rw [hc] at hp
        cases hp
      | ok c₁ =>
        rw [hc] at hp
        exact ih hrest (hfirst c c₁ h hc) hp

end Runs

section Frames
variable {x : Input} {c c' : Cfg}

theorem field_or {key name : Bytes} {f f' : Field} {rest : Option Field}
    (h : (if key = name then some f' else rest) = some f) : (f' = f ∧ key = name) ∨
    rest = some f := by
  by_cases hkey : key = name
  · rw [if_pos hkey] at h
    exact .inl ⟨Option.some.inj h, hkey⟩
  · rw [if_neg hkey] at h
    exact .inr h

theorem fieldOf_install {key : Bytes} : fieldOf key = some .install ↔ key = ascii "install" := by
  constructor
  · intro h
    unfold fieldOf at h
    iterate 9
      rcases field_or h with ⟨hf, -⟩ | h
      · cases hf
    rcases field_or h with ⟨-, hkey⟩ | h
    · exact hkey
    · cases h
  · rintro rfl
    rfl

/-- The parts of a project that nested entries fill. -/
structure SameParts (p p' : Project) : Prop where
  files : p'.files = p.files
  dirs : p'.sandboxWriteDirs = p.sandboxWriteDirs
  names : p'.binNames = p.binNames

structure FieldFrame (key value : Bytes) (c c' : Cfg) : Prop where
  flags : c' = { c with out := c'.out, seenCheck := c'.seenCheck, seenVersion := c'.seenVersion,
                        seenInstall := c'.seenInstall, seenBin := c'.seenBin }
  parts : SameParts c.out c'.out
  install : (c'.out.install, c'.out.installIndent) =
    if key = ascii "install" then (value, 0) else (c.out.install, c.out.installIndent)

theorem applyField_frame {key value : Bytes} {line : Nat}
    (h : applyField x c key value line = .ok c') : FieldFrame key value c c' := by
  unfold applyField at h
  dsimp only at h
  cases hf : fieldOf key with
  | none =>
    rw [hf] at h
    cases h
  | some f =>
    rw [hf] at h
    have hkeep : f ≠ .install → (c.out.install, c.out.installIndent) =
        if key = ascii "install" then (value, 0) else (c.out.install, c.out.installIndent) := by
      refine fun hne => (if_neg fun hkey => hne ?_).symm
      exact Option.some.inj (hf.symm.trans (fieldOf_install.mpr hkey))
    cases f with
    | install =>
      cases h
      exact ⟨rfl, ⟨rfl, rfl, rfl⟩, (if_pos (fieldOf_install.mp hf)).symm⟩
    | versionPrefix | versionSuffix =>
      cases h
      exact ⟨rfl, ⟨rfl, rfl, rfl⟩, hkeep fun hf => by cases hf⟩
    | check | schedule =>
      dsimp only at h
      split at h
      · cases h
      · cases h
        exact ⟨rfl, ⟨rfl, rfl, rfl⟩, hkeep fun hf => by cases hf⟩
    | name | url | command | binPath | sandboxed =>
      dsimp only at h
      split_ifs at h <;> cases h <;> exact ⟨rfl, ⟨rfl, rfl, rfl⟩, hkeep fun hf => by cases hf⟩

theorem settleKind_ok {p : Project} (h : settleKind x c = .ok p) :
    ¬ (c.out.url = [] ∧ c.out.command = []) ∧
      p = { c.out with kind := p.kind, name := p.name } ∧
      (c.seenFiles = true → p.kind = .command) := by
  unfold settleKind at h
  dsimp only at h
  split at h
  · cases h
  · rename_i hnamed
    refine ⟨hnamed, ?_⟩
    split at h
    · cases h
    · split at h
      · split at h
        · cases h
        · split at h
          · cases h
          · cases h
            exact ⟨rfl, fun _ => rfl⟩
      · split at h
        · cases h
        · rename_i hseen
          split at h
          · cases h
          · cases h
            exact ⟨rfl, fun hs => absurd hs hseen⟩

theorem expandDirs_source {dirs dirs' : List SandboxWriteDir} (h : expandDirs x dirs = .ok dirs') :
    dirs'.map (·.source) = dirs.map (·.source) := by
  induction dirs generalizing dirs' with
  | nil =>
    cases h
    rfl
  | cons dir dirs ih =>
    unfold expandDirs at h
    split at h
    · cases h
    · split at h
      · cases h
      · rename_i hrec
        cases h
        simp only [List.map_cons, ih hrec]

theorem settleBin_ok {p p' : Project} (h : settleBin x p = .ok p') :
    p' = { p with binPath := p'.binPath, binCached := p'.binCached } := by
  unfold settleBin at h
  dsimp only at h
  split at h
  · cases h
  · split_ifs at h <;> cases h <;> rfl

structure FinishFrame (c c' : Cfg) : Prop where
  flags : c' = { c with out := c'.out, finished := true, cur := false }
  files : c'.out.files = c.out.files
  names : c'.out.binNames = c.out.binNames
  dirs : c'.out.sandboxWriteDirs.map (·.source) = c.out.sandboxWriteDirs.map (·.source)
  install : c'.out.install = c.out.install ∧ c'.out.installIndent = c.out.installIndent
  kind : c.seenFiles = true → c'.out.kind = .command
  named : ¬ (c.out.url = [] ∧ c.out.command = [])

theorem finishProject_frame (h : finishProject x c = .ok c') : FinishFrame c c' := by
  unfold finishProject at h
  split at h
  · cases h
  · rename_i p hp
    obtain ⟨hnamed, hsame, hkind⟩ := settleKind_ok hp
    split at h
    · cases h
    · split at h
      · cases h
      · split at h
        · cases h
        · rename_i dirs hdirs
          have hsource : dirs.map (·.source) = p.sandboxWriteDirs.map (·.source) := by
            split at hdirs
            · exact expandDirs_source hdirs
            · cases hdirs
              rfl
          split at h
          · cases h
          · rename_i p' hbin
            have hp' := settleBin_ok hbin
            cases h
            refine ⟨rfl, ?_, ?_, ?_, ⟨?_, ?_⟩, fun hs => ?_, hnamed⟩ <;> dsimp only <;> rw [hp']
            · rw [hsame]
            · rw [hsame]
            · exact hsource.trans (by rw [hsame])
            · rw [hsame]
            · rw [hsame]
            · exact hkind hs

theorem addFile_ok {path : Bytes} {line : Nat} (h : addFile x c path line = .ok c') :
    c' = { c with
      block := some (.file c.out.files.length)
      out := { c.out with files := c.out.files ++ [{ path := path, line := line }] } } := by
  unfold addFile at h
  dsimp only at h
  split_ifs at h
  cases h
  rfl

theorem addSandboxWriteDir_ok {source : Bytes} {line : Nat}
    (h : addSandboxWriteDir x c source line = .ok c') :
    c' = { c with out := { c.out with
      sandboxWriteDirs := c.out.sandboxWriteDirs ++ [{ source := source, line := line }] } } := by
  unfold addSandboxWriteDir at h
  dsimp only at h
  split_ifs at h
  cases h
  rfl

theorem addBinEntry_ok {name path : Bytes} {line : Nat}
    (h : addBinEntry x c name path line = .ok c') :
    c' = { c with binDefault := c'.binDefault, out := { c.out with
      binNames := c.out.binNames ++ [name], bin := c'.out.bin, binName := c'.out.binName,
      binChoice := c'.out.binChoice } } := by
  unfold addBinEntry at h
  dsimp only at h
  split_ifs at h <;> cases h <;> rfl

theorem finishBinMap_ok {line : Nat} (h : finishBinMap x c line = .ok c') :
    c' = { c with inBinMap := false, out := { c.out with
      bin := c'.out.bin, binName := c'.out.binName, binChoice := c'.out.binChoice } } := by
  unfold finishBinMap at h
  dsimp only at h
  split at h
  · cases h
  · cases h
    dsimp only
    split_ifs <;> rfl

theorem beginProject_ok {line : Nat} (h : beginProject x c line = .ok c') :
    c.started = false ∧ c' = { c with started := true, cur := true, out := c'.out } ∧
      c'.out = { check := .etag, schedKind := .every, schedInterval := 86400, sandboxed := true,
                 line := line } := by
  unfold beginProject at h
  split_ifs at h with hs
  cases h
  exact ⟨by simpa using hs, rfl, rfl⟩

end Frames

section Embedded
variable {x : Input} {c c' : Cfg}

/-- Embedded files come only with the `files` key, and that key only with a command. -/
structure Embedded (c : Cfg) : Prop where
  pending : c.pendingFiles = true → c.seenFiles = true
  inside : c.inFiles = true → c.seenFiles = true
  files : c.out.files ≠ [] → c.seenFiles = true
  fresh : c.started = false → c.out.url = [] ∧ c.out.command = []
  opened : c.cur = true → c.started = true ∧ c.finished = false
  closed : c.finished = true → c.started = true ∧ (c.out.files ≠ [] → c.out.kind = .command)

theorem modify_ne_nil {α : Type} {xs : List α} {i : Nat} {f : α → α} (h : xs.modify i f ≠ []) :
    xs ≠ [] := by
  rintro rfl
  exact h (by cases i <;> rfl)

theorem Embedded.files_modify (h : Embedded c) (i : Nat) (f : EmbeddedFile → EmbeddedFile) :
    Embedded { c with out := { c.out with files := c.out.files.modify i f } } :=
  ⟨h.pending, h.inside, fun hf => h.files (modify_ne_nil hf), h.fresh, h.opened,
    fun hf => ⟨(h.closed hf).1, fun hne => (h.closed hf).2 (modify_ne_nil hne)⟩⟩

theorem scalar_embedded {key value : Bytes} {line : Nat} (h : Embedded c)
    (he : scalar x c key value line = .ok c') : Embedded c' := by
  unfold scalar at he
  split at he
  · cases he
  · rename_i hcur
    obtain ⟨hstarted, hopen⟩ := h.opened (by simpa using hcur)
    have hfresh : ∀ q : Prop, c.started = false → q := fun q hs => by
      rw [hstarted] at hs
      cases hs
    have hclosed : ∀ q : Prop, c.finished = true → q := fun q hf => by
      rw [hopen] at hf
      cases hf
    split at he
    · split at he
      · rw [addSandboxWriteDir_ok he]
        exact ⟨h.pending, h.inside, h.files, h.fresh, h.opened, h.closed⟩
      · cases he
    · split at he
      · rw [addBinEntry_ok he]
        exact ⟨h.pending, h.inside, h.files, h.fresh, h.opened, h.closed⟩
      · split at he
        · cases he
        · have hf := applyField_frame he
          rw [hf.flags]
          exact ⟨h.pending, h.inside, fun hne => h.files (hf.parts.files ▸ hne), hfresh _, h.opened,
            hclosed _⟩

theorem blockLine_embedded (h : Embedded c) (b : Block) (value : Slice) :
    Embedded (blockLine x c b value) := by
  unfold blockLine
  split
  · exact h
  · split
    · exact ⟨h.pending, h.inside, h.files, h.fresh, h.opened, h.closed⟩
    · cases b with
      | install => exact ⟨h.pending, h.inside, h.files, h.fresh, h.opened, h.closed⟩
      | file i =>
        have hm := h.files_modify i (setIndent (value.off - lineStart x.buf value.off))
        exact ⟨hm.pending, hm.inside, hm.files, hm.fresh, hm.opened, hm.closed⟩

theorem blockEnd_embedded (h : Embedded c) : Embedded (blockEnd x c) := by
  unfold blockEnd
  dsimp only
  split
  · exact ⟨h.pending, h.inside, h.files, h.fresh, h.opened, h.closed⟩
  · rename_i i start _ _
    have hm := h.files_modify i (setContent (region x.buf start c.blockEnd))
    exact ⟨hm.pending, hm.inside, hm.files, hm.fresh, hm.opened, hm.closed⟩
  · exact ⟨h.pending, h.inside, h.files, h.fresh, h.opened, h.closed⟩

theorem onEvent_embedded {ev : Event} (h : Embedded c) (he : onEvent x c ev = .ok c') :
    Embedded c' := by
  cases ev with
  | streamStart => cases he; exact h
  | shebang => cases he; exact h
  | comment => cases he; exact h
  | documentEnd => cases he; exact h
  | streamEnd => cases he; exact h
  | error line msg => cases he
  | documentStart line =>
    simp only [onEvent] at he
    split_ifs at he
    cases he
    exact h
  | sequenceEnd =>
    cases he
    exact ⟨h.pending, h.inside, h.files, h.fresh, h.opened, h.closed⟩
  | sequenceStart key line =>
    simp only [onEvent, sequenceStart] at he
    split_ifs at he
    cases he
    exact ⟨h.pending, h.inside, h.files, h.fresh, h.opened, h.closed⟩
  | entryHeader key line =>
    simp only [onEvent, entryHeader] at he
    split_ifs at he <;> cases he
    · exact ⟨h.pending, h.inside, h.files, h.fresh, h.opened, h.closed⟩
    · exact ⟨fun _ => rfl, fun _ => rfl, fun _ => rfl, h.fresh, h.opened, h.closed⟩
    · exact ⟨h.pending, h.inside, h.files, h.fresh, h.opened, h.closed⟩
    · exact h
  | mappingStart line =>
    simp only [onEvent, mappingStart] at he
    split_ifs at he with h₁ h₂
    · cases he
      simp only [Bool.and_eq_true] at h₁
      exact ⟨nofun, fun _ => h.pending h₁.2, h.files, h.fresh, h.opened, h.closed⟩
    · cases he
      exact ⟨h.pending, h.inside, h.files, h.fresh, h.opened, h.closed⟩
    · obtain ⟨hs, hc, hout⟩ := beginProject_ok he
      have hfin : c.finished = false := by
        cases hf : c.finished
        · rfl
        · rw [(h.closed hf).1] at hs
          cases hs
      rw [hc]
      refine ⟨h.pending, h.inside, fun hf => ?_, nofun, fun _ => ⟨rfl, hfin⟩, fun hf => ?_⟩
      · rw [hout] at hf
        exact absurd rfl hf
      · rw [hfin] at hf
        cases hf
  | mappingEnd line =>
    simp only [onEvent, mappingEnd] at he
    split_ifs at he with h₁ h₂
    · cases he
      exact ⟨h.pending, nofun, h.files, h.fresh, h.opened, h.closed⟩
    · rw [finishBinMap_ok he]
      exact ⟨h.pending, h.inside, h.files, h.fresh, h.opened, h.closed⟩
    · have hfin := finishProject_frame he
      have hstarted : c.started = true := by
        cases hs : c.started
        · exact absurd (h.fresh hs) hfin.named
        · rfl
      have hfiles : c'.out.files ≠ [] → c.seenFiles = true := by
        rw [hfin.files]
        exact h.files
      rw [hfin.flags]
      refine ⟨h.pending, h.inside, hfiles, fun hs => ?_, nofun,
        fun _ => ⟨hstarted, fun hne => hfin.kind (hfiles hne)⟩⟩
      rw [hstarted] at hs
      cases hs
  | scalar key value line => exact scalar_embedded h he
  | blockStart key line =>
    simp only [onEvent, blockScalarStart] at he
    split_ifs at he with h₁ h₂
    · cases hadd : addFile x c key line with
      | error msg => rw [hadd] at he; cases he
      | ok c₁ =>
        rw [hadd] at he
        cases he
        rw [addFile_ok hadd]
        simp only [Bool.and_eq_true] at h₁
        obtain ⟨-, hopen⟩ := h.opened h₁.1
        exact ⟨h.pending, h.inside, fun _ => h.inside h₁.2, h.fresh, h.opened,
          fun hf => by rw [hopen] at hf; cases hf⟩
    · cases he
      exact ⟨h.pending, h.inside, h.files, h.fresh, h.opened, h.closed⟩
  | blockLine value =>
    cases he
    split
    · rename_i b _
      exact blockLine_embedded h b value
    · exact h
  | blockEnd =>
    cases he
    exact blockEnd_embedded h

theorem embedded_start : Embedded {} := ⟨nofun, nofun, nofun, fun _ => ⟨rfl, rfl⟩, nofun, nofun⟩

theorem hmConfigParse_embedded {evs : List Event} {p : Project}
    (h : hmConfigParse x evs = .ok p) (hf : p.files ≠ []) : p.kind = .command := by
  obtain ⟨c, hc, hfin, rfl⟩ := parseFrom_keeps (fun _ _ _ _ => onEvent_embedded) embedded_start h
  exact (hc.closed hfin).2 hf

end Embedded

section Asides
variable {x : Input} {c c' : Cfg}

def Event.aside : Event → Bool
  | .scalar _ _ _ | .mappingStart _ | .mappingEnd _ => false
  | _ => true

def Event.ofBlock : Event → Bool
  | .blockStart _ _ | .blockLine _ | .blockEnd => true
  | _ => false

/-- What such an event leaves alone; a block changes a file or the install text. -/
structure Aside (c c' : Cfg) : Prop where
  started : c'.started = c.started
  finished : c'.finished = c.finished
  cur : c'.cur = c.cur
  inBinMap : c'.inBinMap = c.inBinMap
  binDefault : c'.binDefault = c.binDefault
  invokedName : c'.invokedName = c.invokedName
  seenBin : c.seenBin = true → c'.seenBin = true
  pendingBinMap : c'.pendingBinMap = true → c.pendingBinMap = true ∨ c'.seenBin = true
  out : c'.out = { c.out with
    files := c'.out.files, install := c'.out.install, installIndent := c'.out.installIndent }
  files : c.finished = true → (c'.out.files = [] ↔ c.out.files = [])

theorem Aside.refl (c : Cfg) : Aside c c :=
  ⟨rfl, rfl, rfl, rfl, rfl, rfl, id, .inl, rfl, fun _ => Iff.rfl⟩

theorem modify_eq_nil {α : Type} {xs : List α} {i : Nat} {f : α → α} :
    xs.modify i f = [] ↔ xs = [] := by
  simp [← List.length_eq_zero_iff]

theorem blockLine_aside (b : Block) (value : Slice) : Aside c (blockLine x c b value) := by
  unfold blockLine
  split
  · exact .refl c
  · cases c.blockStart with
    | some start => exact ⟨rfl, rfl, rfl, rfl, rfl, rfl, id, .inl, rfl, fun _ => Iff.rfl⟩
    | none =>
      cases b with
      | install => exact ⟨rfl, rfl, rfl, rfl, rfl, rfl, id, .inl, rfl, fun _ => Iff.rfl⟩
      | file i => exact ⟨rfl, rfl, rfl, rfl, rfl, rfl, id, .inl, rfl, fun _ => modify_eq_nil⟩

theorem blockEnd_aside : Aside c (blockEnd x c) := by
  unfold blockEnd
  rcases c.block with _ | _ | i
  · exact ⟨rfl, rfl, rfl, rfl, rfl, rfl, id, .inl, rfl, fun _ => Iff.rfl⟩
  · cases c.blockStart <;> exact ⟨rfl, rfl, rfl, rfl, rfl, rfl, id, .inl, rfl, fun _ => Iff.rfl⟩
  · cases c.blockStart with
    | none => exact ⟨rfl, rfl, rfl, rfl, rfl, rfl, id, .inl, rfl, fun _ => Iff.rfl⟩
    | some start => exact ⟨rfl, rfl, rfl, rfl, rfl, rfl, id, .inl, rfl, fun _ => modify_eq_nil⟩

theorem onEvent_aside {ev : Event} (h : Embedded c) (hev : ev.aside = true)
    (hs : onEvent x c ev = .ok c') : Aside c c' := by
  cases ev with
  | mappingStart | mappingEnd | scalar => cases hev
  | error line msg => cases hs
  | streamStart | shebang | comment | documentEnd | streamEnd =>
    cases hs
    exact .refl c
  | documentStart line =>
    simp only [onEvent] at hs
    split_ifs at hs
    cases hs
    exact .refl c
  | sequenceEnd =>
    cases hs
    exact ⟨rfl, rfl, rfl, rfl, rfl, rfl, id, .inl, rfl, fun _ => Iff.rfl⟩
  | sequenceStart key line =>
    simp only [onEvent, sequenceStart] at hs
    split_ifs at hs
    cases hs
    exact ⟨rfl, rfl, rfl, rfl, rfl, rfl, id, .inl, rfl, fun _ => Iff.rfl⟩
  | entryHeader key line =>
    simp only [onEvent, entryHeader] at hs
    split_ifs at hs <;> cases hs
    · exact ⟨rfl, rfl, rfl, rfl, rfl, rfl, fun _ => rfl, fun _ => .inr rfl, rfl, fun _ => Iff.rfl⟩
    · exact ⟨rfl, rfl, rfl, rfl, rfl, rfl, id, .inl, rfl, fun _ => Iff.rfl⟩
    · exact ⟨rfl, rfl, rfl, rfl, rfl, rfl, id, .inl, rfl, fun _ => Iff.rfl⟩
    · exact .refl c
  | blockStart key line =>
    simp only [onEvent, blockScalarStart] at hs
    split_ifs at hs with hin
    · cases hadd : addFile x c key line with
      | error msg =>
        rw [hadd] at hs
        cases hs
      | ok c₁ =>
        rw [hadd] at hs
        cases hs
        rw [addFile_ok hadd]
        have hopen := (h.opened (Bool.and_eq_true_iff.mp hin).1).2
        exact ⟨rfl, rfl, rfl, rfl, rfl, rfl, id, .inl, rfl,
          fun hfin => absurd (hopen.symm.trans hfin) Bool.false_ne_true⟩
    · cases hs
      exact ⟨rfl, rfl, rfl, rfl, rfl, rfl, id, .inl, rfl, fun _ => Iff.rfl⟩
  | blockLine value =>
    cases hs
    split
    · exact blockLine_aside _ value
    · exact .refl c
  | blockEnd =>
    cases hs
    exact blockEnd_aside

theorem onEvent_out {ev : Event} (hev : ev.aside = true) (hblock : ev.ofBlock = false)
    (hs : onEvent x c ev = .ok c') : c'.out = c.out := by
  cases ev with
  | mappingStart | mappingEnd | scalar => cases hev
  | blockStart | blockLine | blockEnd => cases hblock
  | error line msg => cases hs
  | streamStart | shebang | comment | documentEnd | streamEnd | sequenceEnd =>
    cases hs
    rfl
  | documentStart line =>
    simp only [onEvent] at hs
    split_ifs at hs
    cases hs
    rfl
  | sequenceStart key line =>
    simp only [onEvent, sequenceStart] at hs
    split_ifs at hs
    cases hs
    rfl
  | entryHeader key line =>
    simp only [onEvent, entryHeader] at hs
    split_ifs at hs <;> cases hs <;> rfl

end Asides

section Lines

/-- One step of the line walker: the de-indented line and what follows. -/
def hmFileNextLine (indent : Nat) (cursor : Bytes) : Option (Bytes × Bytes) :=
  if cursor = [] then none
  else
    let line := before LF cursor
    let strip := min indent (line.takeWhile (· = SPACE)).length
    some (line.drop strip, after LF cursor)

def linesFrom (indent : Nat) : Nat → Bytes → List Bytes
  | 0, _ => []
  | fuel + 1, cursor =>
    match hmFileNextLine indent cursor with
    | none => []
    | some (line, rest) => line :: linesFrom indent fuel rest

def fileLines (file : EmbeddedFile) : List Bytes :=
  linesFrom file.contentIndent file.content.length file.content

def installLines (p : Project) : List Bytes :=
  linesFrom p.installIndent p.install.length p.install

theorem hmFileNextLine_notMem {indent : Nat} {cursor line rest : Bytes}
    (h : hmFileNextLine indent cursor = some (line, rest)) : LF ∉ line := by
  unfold hmFileNextLine at h
  split_ifs at h
  obtain ⟨rfl, -⟩ := Prod.mk.inj (Option.some.inj h)
  exact fun hm => notMem_before LF cursor (List.mem_of_mem_drop hm)

theorem linesFrom_notMem (indent fuel : Nat) (cursor : Bytes) :
    ∀ line ∈ linesFrom indent fuel cursor, LF ∉ line := by
  induction fuel generalizing cursor with
  | zero => simp [linesFrom]
  | succ fuel ih =>
    unfold linesFrom
    split
    · simp
    · rename_i line rest h
      intro l hl
      rcases List.mem_cons.mp hl with rfl | hl
      · exact hmFileNextLine_notMem h
      · exact ih rest l hl

end Lines

end Hacman.Config
