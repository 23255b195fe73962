import Hacman.Octets

/-!
# The data model: limits, one project, one invocation

Borrowed slices are the bytes they point at; arrays with a count are lists. The
install block and the embedded files stay raw regions, still indented, together
with the number of columns to strip.
-/

namespace Hacman
open Octets

def HM_CONFIG_MAX : Nat := 1024 * 1024
def HM_RECORD_MAX : Nat := 4096
def HM_MARK_MAX : Nat := 255
def HM_NAME_MAX : Nat := 127
def HM_URL_MAX : Nat := 1023
def HM_COMMAND_MAX : Nat := 2047
def HM_PATH_MAX : Nat := 1023
def HM_KEY_MAX : Nat := 31
def HM_IDENTITY_MAX : Nat := 127
def HM_FILES_MAX : Nat := 64
def HM_FILE_PATH_MAX : Nat := 128
def HM_SANDBOX_WRITE_DIRS_MAX : Nat := 16
def HM_BIN_NAME_MAX : Nat := 128
def HM_BIN_NAMES_MAX : Nat := 32

def LONG_MAX : Int := 2 ^ 63 - 1

def toLong (n : Nat) : Int := if n < 2 ^ 63 then n else n - 2 ^ 64

inductive SchedKind | always | every | never
  deriving DecidableEq, Repr

inductive Kind | url | command
  deriving DecidableEq, Repr

inductive CheckKind | etag | hash | version
  deriving DecidableEq, Repr

/-- How the program to exec was chosen. -/
inductive BinChoice | single | named | default
  deriving DecidableEq, Repr

structure EmbeddedFile where
  path : Bytes
  content : Bytes := []
  contentIndent : Nat := 0
  line : Nat
  deriving DecidableEq, Repr

structure SandboxWriteDir where
  source : Bytes
  path : Bytes := []
  line : Nat
  deriving DecidableEq, Repr

structure Project where
  kind : Kind := .url
  name : Bytes := []
  url : Bytes := []
  command : Bytes := []
  check : CheckKind := .etag
  schedKind : SchedKind := .always
  schedInterval : Int := 0
  scheduleExplicit : Bool := false
  sandboxed : Bool := false
  versionPrefix : Bytes := []
  versionSuffix : Bytes := []
  bin : Bytes := []
  binChoice : BinChoice := .single
  binName : Bytes := []
  binNames : List Bytes := []
  binPath : Bytes := []
  binCached : Bool := false
  install : Bytes := []
  installIndent : Nat := 0
  files : List EmbeddedFile := []
  sandboxWriteDirs : List SandboxWriteDir := []
  line : Nat := 0
  deriving DecidableEq, Repr

/-- The parsed options; `progArgs` are the words after FILE. -/
structure Opts where
  file : Option Bytes := none
  progArgs : List Bytes := []
  cacheDir : Option Bytes := none
  checkOnly : Bool := false
  dryRun : Bool := false
  force : Bool := false
  adopt : Bool := false
  plan : Bool := false
  unpack : Bool := false
  verbose : Bool := false
  trace : Bool := false
  timeout : Int := 15
  deriving DecidableEq, Repr

def Opts.inspects (o : Opts) : Bool := o.checkOnly || o.dryRun

def Opts.normal (o : Opts) : Bool :=
  !o.checkOnly && !o.dryRun && !o.adopt && !o.plan && !o.unpack

theorem Opts.modes {o : Opts} (h : o.normal = true) :
    o.checkOnly = false ∧ o.dryRun = false ∧ o.adopt = false := by
  simp only [Opts.normal, Bool.and_eq_true, Bool.not_eq_true'] at h
  exact ⟨h.1.1.1.1, h.1.1.1.2, h.1.1.2⟩

theorem Opts.inspects_eq_false {o : Opts} (h : o.normal = true) : o.inspects = false := by
  obtain ⟨hck, hdr, -⟩ := o.modes h
  simp [Opts.inspects, hck, hdr]

structure Slot where
  key : Bytes
  identity : Bytes
  path : Bytes
  workdir : Bytes
  deriving DecidableEq, Repr

structure Record where
  mark : Bytes := []
  lastCheck : Int := 0
  lastChange : Int := 0
  known : Bool := false
  deriving DecidableEq, Repr

end Hacman
