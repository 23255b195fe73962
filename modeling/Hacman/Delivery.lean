import Hacman.BinPath
import Hacman.Check
import Hacman.Pull
import Hacman.Siml
import Hacman.Templates

/-!
# What the accepted values are used for

The shell, curl, the program and the sandbox take C strings, which are copied out of the
values into buffers of a fixed size. The buffers are as large as the parser's limits, and a
string ends early at a NUL only.
-/

namespace Hacman.Delivery
open Octets Util Config Check Templates BinPath

section Consumers
variable (p : Project) (workdir cacheDir : Bytes)

def commandArg : Bytes := cstr (hmStrCopy (HM_COMMAND_MAX + 1) p.command)
def nameArg : Bytes := cstr (hmStrCopy (HM_NAME_MAX + 1) p.name)
def urlArg : Bytes := cstr (hmStrCopy (HM_URL_MAX + 1) p.url)

def commandArgv (shell : Bytes) (trace : Bool) : List Bytes :=
  [shell] ++ (if trace then [ascii "-x"] else []) ++ [ascii "-c", commandArg p]

def sandboxEnv : List (Bytes × Option Bytes) :=
  if p.sandboxed then [(ascii "TMPDIR", some workdir), (ascii "HACMAN_CACHE", some cacheDir)]
  else []

/-- What is set in the environment of a command, and what is removed from it. -/
def commandEnv : List (Bytes × Option Bytes) :=
  [(ascii "HACMAN_NAME", some (nameArg p)), (ascii "HACMAN_WORKDIR", some workdir),
    (ascii "HACMAN_URL", none),
    (ascii "HACMAN_CHECK", none), (ascii "HACMAN_VERSION", none), (ascii "HACMAN_PREVIOUS", none),
    (ascii "HACMAN_RESPONSE", none)] ++ sandboxEnv p workdir cacheDir

def installEnv (newMark : Bytes) (oldMark response : Option Bytes) : List (Bytes × Option Bytes) :=
  [(ascii "HACMAN_NAME", some (nameArg p)), (ascii "HACMAN_URL", some (urlArg p)),
    (ascii "HACMAN_CHECK", some (hmCheckName p.check)), (ascii "HACMAN_VERSION", some newMark),
    (ascii "HACMAN_PREVIOUS", some (oldMark.getD [])), (ascii "HACMAN_RESPONSE", response),
    (ascii "HACMAN_WORKDIR", none)] ++ sandboxEnv p workdir cacheDir

def sandboxPaths : List Bytes :=
  [ascii "/", workdir, cacheDir] ++ p.sandboxWriteDirs.map (·.path) ++ [ascii "/dev/null"]

def requestArgv (curl : Bytes) (timeoutSecs : Int) : List Bytes :=
  curlArgv curl (urlArg p) (p.check = .etag) timeoutSecs

theorem hmCheck_request {curl : Bytes} {xxh3 : Bytes → UInt64} {timeoutSecs : Int}
    {response : List Bytes → CurlRun}
    (h : p.url.length ≤ HM_URL_MAX) : hmCheck curl xxh3 p timeoutSecs response =
      match runCurl curl (response (requestArgv p curl timeoutSecs)) with
      | none => none
      | some (.error text) => some (.error
          (text ++ message "hacman: %S: request failed: %s\n" [.slice p.name, .str (urlArg p)]))
      | some (.ok output) => some (judge xxh3 p output) := by
  rw [hmCheck, if_neg (not_lt.mpr h)]
  rfl

end Consumers

section Limits
variable {x : Input} {c c' : Cfg} {p : Project}

/-- The values of an open project fit into the buffers, and the directories of a complete one are
their expansions. -/
structure Limits (x : Input) (c : Cfg) : Prop where
  name : c.out.name.length ≤ HM_NAME_MAX
  url : c.out.url.length ≤ HM_URL_MAX
  command : c.out.command.length ≤ HM_COMMAND_MAX
  dirs : c.finished = true → x.resolvePaths = true → ∀ dir ∈ c.out.sandboxWriteDirs,
    expandTemplate x dir.source "sandbox-write-dirs entry" (HM_PATH_MAX + 1) dir.line true =
      .ok dir.path

structure SameValues (p p' : Project) : Prop where
  name : p'.name = p.name
  url : p'.url = p.url
  command : p'.command = p.command
  dirs : p'.sandboxWriteDirs = p.sandboxWriteDirs

theorem SameValues.rfl : SameValues p p := ⟨.refl _, .refl _, .refl _, .refl _⟩

theorem Limits.keep (h : Limits x c) (hfin : c'.finished = c.finished)
    (hout : SameValues c.out c'.out) : Limits x c' where
  name := hout.name ▸ h.name
  url := hout.url ▸ h.url
  command := hout.command ▸ h.command
  dirs hf hr := hout.dirs ▸ h.dirs (hfin ▸ hf) hr

theorem Limits.keep_open (h : Limits x c) (hopen : c.finished = false)
    (hfin : c'.finished = c.finished)
    (hname : c'.out.name = c.out.name) (hurl : c'.out.url = c.out.url)
    (hcommand : c'.out.command = c.out.command) :
    Limits x c' where
  name := hname ▸ h.name
  url := hurl ▸ h.url
  command := hcommand ▸ h.command
  dirs hf := by
    rw [hfin, hopen] at hf
    cases hf

theorem applyField_limits {key value : Bytes} {line : Nat} (h : Limits x c)
    (hopen : c.finished = false) (hs : applyField x c key value line = .ok c') : Limits x c' := by
  have hflags := (applyField_frame hs).flags
  have hclosed : ∀ P : Prop, c'.finished = true → P := fun P hf => by
    rw [hflags] at hf
    exact absurd (hopen.symm.trans hf) Bool.false_ne_true
  cases hf : fieldOf key with
  | none =>
    rw [applyField, hf] at hs
    cases hs
  | some f =>
    obtain ⟨hadmits, -, rfl⟩ := (Facts.applyField_iff hf).mp hs
    cases f with
    | name => exact ⟨of_decide_eq_true hadmits, h.url, h.command, hclosed _⟩
    | url => exact ⟨h.name, of_decide_eq_true hadmits, h.command, hclosed _⟩
    | command => exact ⟨h.name, h.url, of_decide_eq_true hadmits, hclosed _⟩
    | binPath | check | schedule | sandboxed | versionPrefix | versionSuffix | install =>
      exact ⟨h.name, h.url, h.command, hclosed _⟩

theorem expandDirs_paths {dirs dirs' : List SandboxWriteDir} (h : expandDirs x dirs = .ok dirs') :
    ∀ dir ∈ dirs', expandTemplate x dir.source "sandbox-write-dirs entry"
      (HM_PATH_MAX + 1) dir.line true = .ok dir.path := by
  induction dirs generalizing dirs' with
  | nil =>
    cases h
    intro dir hdir
    cases hdir
  | cons dir dirs ih =>
    unfold expandDirs at h
    split at h
    · cases h
    · rename_i path hpath
      split at h
      · cases h
      · rename_i rest hrest
        cases h
        exact List.forall_mem_cons.mpr ⟨hpath, ih hrest⟩

theorem settleKind_values (h : settleKind x c = .ok p) :
    p.url = c.out.url ∧ p.command = c.out.command ∧ p.sandboxWriteDirs = c.out.sandboxWriteDirs ∧
    (p.name = c.out.name ∨ p.name = defaultName c.out.command ∨
      p.name = defaultName c.out.url) := by
  have hsame := (settleKind_ok h).2.1
  refine ⟨by rw [hsame], by rw [hsame], by rw [hsame], ?_⟩
  unfold settleKind at h
  dsimp only at h
  split_ifs at h <;> cases h <;> simp

theorem finishProject_limits (h : Limits x c) (hs : finishProject x c = .ok c') : Limits x c' := by
  unfold finishProject at hs
  split at hs
  · cases hs
  · rename_i p hp
    obtain ⟨hurl, hcommand, -, hname⟩ := settleKind_values hp
    have htake (text : Bytes) : (defaultName text).length ≤ HM_NAME_MAX := List.length_take_le _ _
    have hlength : p.name.length ≤ HM_NAME_MAX := by
      rcases hname with hname | hname | hname
      · rw [hname]
        exact h.name
      · rw [hname]
        exact htake _
      · rw [hname]
        exact htake _
    split at hs
    · cases hs
    · split at hs
      · cases hs
      · split at hs
        · cases hs
        · rename_i dirs hdirs
          split at hs
          · cases hs
          · rename_i p' hbin
            have hp' := settleBin_ok hbin
            cases hs
            rw [hp']
            refine ⟨hlength, ?_, ?_, fun _ hr => ?_⟩
            · exact hurl ▸ h.url
            · exact hcommand ▸ h.command
            · rw [if_pos hr] at hdirs
              exact expandDirs_paths hdirs

theorem scalar_limits {key value : Bytes} {line : Nat} (h : Limits x c) (he : Embedded c)
    (hs : scalar x c key value line = .ok c') : Limits x c' := by
  unfold scalar at hs
  split_ifs at hs with hcur hkey hdirs hbin hfiles
  all_goals
    obtain ⟨-, hopen⟩ := he.opened (by simpa using hcur)
  · have hok := addSandboxWriteDir_ok hs
    exact h.keep_open hopen (by rw [hok]) (by rw [hok]) (by rw [hok]) (by rw [hok])
  · have hok := addBinEntry_ok hs
    exact h.keep_open hopen (by rw [hok]) (by rw [hok]) (by rw [hok]) (by rw [hok])
  · exact applyField_limits h hopen hs

theorem mappingStart_limits {line : Nat} (h : Limits x c) (he : Embedded c)
    (hs : mappingStart x c line = .ok c') : Limits x c' := by
  unfold mappingStart at hs
  split_ifs at hs with hfiles hbin
  · cases hs
    exact h.keep rfl .rfl
  · cases hs
    exact h.keep rfl .rfl
  · obtain ⟨hstarted, hflags, hout⟩ := beginProject_ok hs
    refine ⟨?_, ?_, ?_, fun hf => ?_⟩
    · rw [hout]
      exact Nat.zero_le _
    · rw [hout]
      exact Nat.zero_le _
    · rw [hout]
      exact Nat.zero_le _
    · rw [hflags] at hf
      rw [(he.closed hf).1] at hstarted
      cases hstarted

theorem mappingEnd_limits {line : Nat} (h : Limits x c) (hs : mappingEnd x c line = .ok c') :
    Limits x c' := by
  unfold mappingEnd at hs
  split_ifs at hs with hfiles hbin
  · cases hs
    exact h.keep rfl .rfl
  · have hok := finishBinMap_ok hs
    rw [hok]
    exact h.keep rfl ⟨.refl _, .refl _, .refl _, .refl _⟩
  · exact finishProject_limits h hs

theorem Limits.aside (h : Limits x c) (ha : Aside c c') : Limits x c' :=
  h.keep ha.finished ⟨congrArg (·.name) ha.out, congrArg (·.url) ha.out,
    congrArg (·.command) ha.out, congrArg (·.sandboxWriteDirs) ha.out⟩

theorem onEvent_limits {ev : Event} (h : Limits x c) (he : Embedded c)
    (hs : onEvent x c ev = .ok c') : Limits x c' := by
  cases ev with
  | mappingStart line => exact mappingStart_limits h he hs
  | mappingEnd line => exact mappingEnd_limits h hs
  | scalar key value line => exact scalar_limits h he hs
  | _ => exact h.aside (onEvent_aside he rfl hs)

structure Limited (x : Input) (p : Project) : Prop where
  name : p.name.length ≤ HM_NAME_MAX
  url : p.url.length ≤ HM_URL_MAX
  command : p.command.length ≤ HM_COMMAND_MAX
  dirs : x.resolvePaths = true → ∀ dir ∈ p.sandboxWriteDirs,
    expandTemplate x dir.source "sandbox-write-dirs entry" (HM_PATH_MAX + 1) dir.line true =
      .ok dir.path

theorem hmConfigParse_limited {evs : List Event} (h : hmConfigParse x evs = .ok p) :
    Limited x p := by
  obtain ⟨c, ⟨hc, -⟩, hfin, rfl⟩ := parseFrom_keeps (I := fun c => Limits x c ∧ Embedded c)
    (fun _ _ _ _ hc hev => ⟨onEvent_limits hc.1 hc.2 hev, onEvent_embedded hc.2 hev⟩)
    ⟨⟨Nat.zero_le _, Nat.zero_le _, Nat.zero_le _, fun hf => by cases hf⟩, embedded_start⟩ h
  exact ⟨hc.name, hc.url, hc.command, hc.dirs hfin⟩

end Limits

section Strings
variable {x : Input} {tpl text path : Bytes} {parts parts' : List Part}
  {requireAbsolute : Bool} {n : Nat}

theorem cstr_eq_iff : cstr text = text ↔ 0 ∉ text := by
  constructor
  · intro h
    rw [← h]
    exact cstr_notMem text
  · intro h
    exact List.takeWhile_eq_self_iff.mpr fun b hb => by simpa using fun he : b = 0 => h (he ▸ hb)

theorem delivered_iff (h : text.length ≤ n) : cstr (hmStrCopy (n + 1) text) = text ↔ 0 ∉ text := by
  rw [hmStrCopy, Nat.add_sub_cancel, List.take_of_length_le h, cstr_eq_iff]

/-- A template is read in one way. -/
theorem scans_unique (h : Scans tpl parts) (h' : Scans tpl parts') : parts = parts' := by
  induction h generalizing parts' with
  | nil =>
    cases h'
    rfl
  | @text ch tpl parts hch _ ih =>
    generalize hw : ch :: tpl = whole at h'
    cases h' with
    | nil => cases hw
    | text _ h' =>
      obtain ⟨rfl, rfl⟩ := List.cons.inj hw
      rw [ih h']
    | var _ h' =>
      obtain ⟨rfl, rfl⟩ := List.cons.inj hw
      exact absurd ⟨rfl, rfl⟩ hch
  | @var name tpl parts hname _ ih =>
    generalize hw : BRACE_OPEN :: BRACE_OPEN :: (name ++ BRACE_CLOSE :: BRACE_CLOSE :: tpl) =
      whole at h'
    cases h' with
    | nil => cases hw
    | text hch h' =>
      obtain ⟨rfl, rfl⟩ := List.cons.inj hw
      exact absurd ⟨rfl, rfl⟩ hch
    | @var name' tpl' parts' hname' h' =>
      have hbody := (List.cons.inj (List.cons.inj hw).2).2
      have hbefore := congrArg (before BRACE_CLOSE) hbody
      rw [before_append _ hname, before_append _ hname'] at hbefore
      subst hbefore
      have hrest := (List.cons.inj (List.cons.inj (List.append_cancel_left hbody)).2).2
      subst hrest
      rw [ih h']

theorem expands_unique {text' : Bytes} (h : Expands x tpl requireAbsolute parts text)
    (h' : Expands x tpl requireAbsolute parts' text') : text = text' := by
  obtain rfl := scans_unique h.scans h'.scans
  exact Option.some.inj (h.values.symm.trans h'.values)

theorem expanded_iff {what : String} {line : Nat}
    (h : expandTemplate x tpl what (HM_PATH_MAX + 1) line requireAbsolute = .ok path) :
    (∃ parts, Expands x tpl requireAbsolute parts path) ↔
      ∀ parts text, Expands x tpl requireAbsolute parts text → 0 ∉ text := by
  obtain ⟨parts, text, hexpands, -, rfl⟩ := expandTemplate_expands h
  constructor
  · rintro ⟨parts', hpath⟩ parts'' text'' htext
    rw [expands_unique htext hpath]
    exact cstr_notMem text
  · intro hclean
    exact ⟨parts, (cstr_eq_iff.mpr (hclean parts text hexpands)).symm ▸ hexpands⟩

end Strings

section Delivered
variable {x : Input} {p : Project} {evs : List Event} {workdir text : Bytes}

/-- Every value reaches what uses it as it was accepted: the shell's command, the name and the url
in the environment, curl's url, the path of the program and the directories of the sandbox. -/
structure Delivered (x : Input) (p : Project) : Prop where
  command : p.kind = .command → ∀ shell trace, (commandArgv p shell trace).getLast? = some p.command
  commandName : p.kind = .command → ∀ workdir cacheDir,
    (commandEnv p workdir cacheDir).lookup (ascii "HACMAN_NAME") = some (some p.name)
  installName : p.kind = .url → ∀ workdir cacheDir newMark oldMark response,
    (installEnv p workdir cacheDir newMark oldMark response).lookup (ascii "HACMAN_NAME") =
      some (some p.name)
  installUrl : p.kind = .url → ∀ workdir cacheDir newMark oldMark response,
    (installEnv p workdir cacheDir newMark oldMark response).lookup (ascii "HACMAN_URL") =
      some (some p.url)
  url : p.kind = .url → ∀ curl timeoutSecs, (requestArgv p curl timeoutSecs).getLast? = some p.url
  program : x.resolvePaths = true → p.bin ≠ [] → ∀ workdir, ∃ parts text,
    Expands x p.bin (p.files = [] && !p.sandboxed) parts text ∧
      binBelow workdir p.binPath = binBelow workdir text
  dirs : x.resolvePaths = true → ∀ workdir cacheDir, ∃ texts,
    List.Forall₂ (fun dir text => ∃ parts, Expands x dir.source true parts text)
      p.sandboxWriteDirs texts ∧
    sandboxPaths p workdir cacheDir = [ascii "/", workdir, cacheDir] ++ texts ++ [ascii "/dev/null"]

structure NulFree (x : Input) (p : Project) : Prop where
  name : 0 ∉ p.name
  url : p.kind = .url → 0 ∉ p.url
  command : p.kind = .command → 0 ∉ p.command
  program : x.resolvePaths = true → p.bin ≠ [] → ∀ parts text,
    Expands x p.bin (p.files = [] && !p.sandboxed) parts text → 0 ∉ text
  dirs : x.resolvePaths = true → ∀ dir ∈ p.sandboxWriteDirs, ∀ parts text,
    Expands x dir.source true parts text → 0 ∉ text

theorem sandboxPaths_iff : (∀ workdir cacheDir, ∃ texts,
    List.Forall₂ (fun dir text => ∃ parts, Expands x dir.source true parts text)
      p.sandboxWriteDirs texts ∧
    sandboxPaths p workdir cacheDir = [ascii "/", workdir, cacheDir] ++ texts ++
      [ascii "/dev/null"]) ↔
      ∀ dir ∈ p.sandboxWriteDirs, ∃ parts, Expands x dir.source true parts dir.path := by
  have hforall : List.Forall₂ (fun dir text => ∃ parts, Expands x dir.source true parts text)
      p.sandboxWriteDirs (p.sandboxWriteDirs.map (·.path)) ↔
        ∀ dir ∈ p.sandboxWriteDirs, ∃ parts, Expands x dir.source true parts dir.path := by
    rw [List.forall₂_map_right_iff, List.forall₂_same]
  rw [← hforall]
  constructor
  · intro h
    obtain ⟨texts, htexts, hpaths⟩ := h [] []
    rw [List.append_cancel_left (List.append_cancel_right hpaths)]
    exact htexts
  · intro h workdir cacheDir
    exact ⟨_, h, rfl⟩

theorem binBelow_cstr : binBelow workdir (cstr text) = binBelow workdir text ↔ 0 ∉ text := by
  refine ⟨fun h => ?_, fun h => by rw [cstr_eq_iff.mpr h]⟩
  rw [← cstr_eq_iff]
  cases text with
  | nil => rfl
  | cons b rest =>
    have hjoin (tail : Bytes) (hb : b ≠ SLASH) : binBelow workdir (b :: tail) =
        workdir ++ SLASH :: b :: tail := by
      rw [binBelow, if_neg (by simp [hb]), WorkTree.spelled, WorkTree.flatMap_fields]
    by_cases hzero : b = 0
    · subst hzero
      have hempty : cstr (0 :: rest) = [] := rfl
      rw [hempty, hjoin rest (by decide), binBelow, if_pos (.inl rfl)] at h
      exact absurd h.symm (by simp)
    · have hcons : cstr (b :: rest) = b :: cstr rest := by simp [cstr, hzero]
      rw [hcons] at h ⊢
      by_cases hslash : b = SLASH
      · rw [binBelow, binBelow, if_pos (.inr (by simp [hslash])),
          if_pos (.inr (by simp [hslash]))] at h
        exact h
      · rw [hjoin _ hslash, hjoin _ hslash] at h
        exact (List.cons.inj (List.append_cancel_left h)).2

theorem program_iff {line : Nat} {requireAbsolute : Bool} {tpl path : Bytes}
    (h : expandTemplate x tpl "bin-path" (HM_PATH_MAX + 1) line requireAbsolute = .ok path) :
    (∀ workdir, ∃ parts text, Expands x tpl requireAbsolute parts text ∧
      binBelow workdir path = binBelow workdir text) ↔
      ∀ parts text, Expands x tpl requireAbsolute parts text → 0 ∉ text := by
  obtain ⟨parts, text, hexpands, -, rfl⟩ := expandTemplate_expands h
  constructor
  · intro hsame parts' text' htext
    obtain ⟨parts'', text'', hexpands'', hbelow⟩ := hsame []
    rw [expands_unique hexpands'' hexpands, binBelow_cstr] at hbelow
    rwa [expands_unique htext hexpands]
  · intro hclean workdir
    exact ⟨parts, text, hexpands, binBelow_cstr.mpr (hclean parts text hexpands)⟩

theorem commandArgv_last (shell : Bytes) (trace : Bool) :
    (commandArgv p shell trace).getLast? = some (commandArg p) := by
  cases trace <;> rfl

theorem requestArgv_last (curl : Bytes) (timeoutSecs : Int) :
    (requestArgv p curl timeoutSecs).getLast? = some (urlArg p) := by
  simp only [requestArgv, curlArgv]
  split <;> rfl

/-- An accepted project is delivered as it is if and only if there is no NUL to end a string. -/
theorem accepted_delivered (h : hmConfigParse x evs = .ok p) : Delivered x p ↔ NulFree x p := by
  have hlimits := hmConfigParse_limited h
  have hbin := (hmConfigParse_resolved h).expanded
  have hname : nameArg p = p.name ↔ 0 ∉ p.name := delivered_iff hlimits.name
  have hurl : urlArg p = p.url ↔ 0 ∉ p.url := delivered_iff hlimits.url
  have hcommand : commandArg p = p.command ↔ 0 ∉ p.command := delivered_iff hlimits.command
  have hprogram (hr : x.resolvePaths = true) (hne : p.bin ≠ []) :
      expandTemplate x p.bin "bin-path" (HM_PATH_MAX + 1) p.line (p.files = [] && !p.sandboxed) =
        .ok p.binPath := by
    rw [expandBin, if_pos (by simp [hr, hne])] at hbin
    exact hbin
  constructor
  · intro hd
    refine ⟨?_, fun hk => ?_, fun hk => ?_, fun hr hne => ?_, fun hr dir hdir => ?_⟩
    · rw [← hname]
      cases hk : p.kind with
      | command => exact Option.some.inj (Option.some.inj (hd.commandName hk [] []))
      | url => exact Option.some.inj (Option.some.inj (hd.installName hk [] [] [] none none))
    · rw [← hurl]
      exact Option.some.inj ((requestArgv_last [] 0).symm.trans (hd.url hk [] 0))
    · rw [← hcommand]
      exact Option.some.inj ((commandArgv_last [] false).symm.trans (hd.command hk [] false))
    · exact (program_iff (hprogram hr hne)).mp (hd.program hr hne)
    · exact (expanded_iff (hlimits.dirs hr dir hdir)).mp (sandboxPaths_iff.mp (hd.dirs hr) dir hdir)
  · intro hn
    have hname' := hname.mpr hn.name
    refine ⟨fun hk shell trace => ?_, fun _ _ _ => congrArg (some ∘ some) hname',
      fun _ _ _ _ _ _ => congrArg (some ∘ some) hname',
      fun hk _ _ _ _ _ => congrArg (some ∘ some) (hurl.mpr (hn.url hk)), fun hk curl secs => ?_,
      fun hr hne => ?_, fun hr => ?_⟩
    · rw [commandArgv_last, hcommand.mpr (hn.command hk)]
    · rw [requestArgv_last, hurl.mpr (hn.url hk)]
    · exact (program_iff (hprogram hr hne)).mpr (hn.program hr hne)
    · exact sandboxPaths_iff.mpr fun dir hdir => (expanded_iff (hlimits.dirs hr dir hdir)).mpr
        (hn.dirs hr dir hdir)

def makeInput : Input where
  buf := ascii "command: make\nbin-path: /t\n"
  origin := ascii "t.siml"

def nulInput : Input where
  buf := ascii "command: a" ++ [0] ++ ascii "b\n"
  origin := ascii "t.siml"

def eventsOf (x : Input) : List Event :=
  Pull.outputs Siml.simlNext Siml.isFinal 20 (Siml.start x.buf)

theorem accepted_delivered_make : ∃ p, hmConfigParse makeInput (eventsOf makeInput) = .ok p ∧
    p.command = ascii "make" ∧ Delivered makeInput p := by
  have hrun : (hmConfigParse makeInput (eventsOf makeInput)).map
      (fun p => (p.name, p.kind, p.command, p.bin, p.sandboxWriteDirs)) =
      .ok (ascii "make", .command, ascii "make", ascii "/t", []) := by decide +kernel
  cases hp : hmConfigParse makeInput (eventsOf makeInput) with
  | error text =>
    rw [hp] at hrun
    cases hrun
  | ok p =>
    rw [hp] at hrun
    simp only [Except.map, Except.ok.injEq, Prod.mk.injEq] at hrun
    obtain ⟨hname, hkind, hcommand, hbin, hdirs⟩ := hrun
    have hscans : Scans (ascii "/t") [.text 47, .text 116] :=
      .text (by decide) (.text (by decide) .nil)
    refine ⟨p, rfl, hcommand, (accepted_delivered hp).mpr ⟨?_, fun hk => ?_, fun _ => ?_,
      fun _ _ parts text htext => ?_, fun _ dir hdir => ?_⟩⟩
    · rw [hname]
      decide
    · rw [hkind] at hk
      cases hk
    · rw [hcommand]
      decide
    · rw [hbin] at htext
      obtain rfl := scans_unique hscans htext.scans
      obtain rfl : ascii "/t" = text := Option.some.inj htext.values
      decide
    · rw [hdirs] at hdir
      cases hdir

theorem nul_ends_command : ∃ p, hmConfigParse nulInput (eventsOf nulInput) = .ok p ∧
    p.kind = .command ∧ p.command = ascii "a" ++ [0] ++ ascii "b" ∧
    commandArgv p (ascii "/bin/sh") false = [ascii "/bin/sh", ascii "-c", ascii "a"] ∧
      ¬ Delivered nulInput p := by
  have hrun : (hmConfigParse nulInput (eventsOf nulInput)).map (fun p => (p.kind, p.command)) =
      .ok (.command, ascii "a" ++ [0] ++ ascii "b") := by decide +kernel
  cases hp : hmConfigParse nulInput (eventsOf nulInput) with
  | error text =>
    rw [hp] at hrun
    cases hrun
  | ok p =>
    rw [hp] at hrun
    simp only [Except.map, Except.ok.injEq, Prod.mk.injEq] at hrun
    obtain ⟨hkind, hcommand⟩ := hrun
    have hargv : commandArgv p (ascii "/bin/sh") false =
        [ascii "/bin/sh", ascii "-c", ascii "a"] := by
      rw [commandArgv, commandArg, hcommand]
      decide +kernel
    refine ⟨p, rfl, hkind, hcommand, hargv, fun h => ?_⟩
    have hlast := h.command hkind (ascii "/bin/sh") false
    rw [hargv, hcommand] at hlast
    exact absurd hlast (by decide)

end Delivered

end Hacman.Delivery
