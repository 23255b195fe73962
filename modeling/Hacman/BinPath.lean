import Hacman.BlockText
import Hacman.Facts
import Hacman.Materialize
import Hacman.Sharing

/-!
# The program that runs

A project names one program, or a program for each name it may be invoked under. The path
is expanded once the project is complete. A relative one is moved below the work directory
in the buffer that holds it.
-/

namespace Hacman.BinPath
open Octets Util Cache Config Interaction Main

section Join

/-- A write of `bytes` at `pos`; nothing may be written outside the buffer. -/
def store (buf : Bytes) (pos : Nat) (bytes : Bytes) : Option Bytes :=
  if pos + bytes.length ≤ buf.length then
    some (buf.take pos ++ bytes ++ buf.drop (pos + bytes.length))
  else none

/-- The two moves of `resolve_cached_bin`, which overlap, and its slash. -/
def joinInPlace (workdir buf : Bytes) : Option Bytes := do
  let moved ← store buf (workdir.length + 1) (buf.take ((cstr buf).length + 1))
  let named ← store moved 0 workdir
  store named workdir.length [SLASH]

/-- `bin_path` is an array of `HM_PATH_MAX + 1` bytes, and a string ends inside it. -/
structure Holds (buf text : Bytes) : Prop where
  length : buf.length = HM_PATH_MAX + 1
  terminated : 0 ∈ buf
  string : cstr buf = text

theorem take_of_terminated {buf : Bytes} (h : 0 ∈ buf) :
    buf.take ((cstr buf).length + 1) = cstr buf ++ [0] := by
  induction buf with
  | nil => cases h
  | cons b buf ih =>
    by_cases hb : b = 0
    · subst hb
      rfl
    · have hrest := ih ((List.mem_cons.mp h).resolve_left fun h => hb h.symm)
      have hcstr : cstr (b :: buf) = b :: cstr buf := List.takeWhile_cons_of_pos (by simpa using hb)
      rw [hcstr, List.length_cons, List.take_succ_cons, hrest]
      rfl

theorem cstr_append_zero {text : Bytes} (h : (0 : UInt8) ∉ text) (rest : Bytes) :
    cstr (text ++ 0 :: rest) = text := by
  have htext : text.takeWhile (· ≠ 0) = text := cstr_of_notMem h
  rw [cstr, List.takeWhile_append, htext, if_pos rfl]
  simp

theorem cstr_notMem (xs : Bytes) : (0 : UInt8) ∉ cstr xs := by
  intro h
  simpa using List.mem_takeWhile_imp h

/-- A write over a part of the buffer of its own length replaces that part. -/
theorem store_append (front : Bytes) {old bytes : Bytes} (h : bytes.length = old.length)
    (rest : Bytes) :
    store (front ++ (old ++ rest)) front.length bytes = some (front ++ (bytes ++ rest)) := by
  have hfits : front.length + bytes.length ≤ (front ++ (old ++ rest)).length := by
    simp only [List.length_append]
    omega
  rw [store, if_pos hfits, List.take_left, ← List.drop_drop, List.drop_left, h, List.drop_left,
    List.append_assoc]

theorem joinInPlace_holds {workdir buf text : Bytes} (h : Holds buf text)
    (hw : (0 : UInt8) ∉ workdir) (hfits : workdir.length + 1 + text.length ≤ HM_PATH_MAX) :
    ∃ buf', joinInPlace workdir buf = some buf' ∧ Holds buf' (workdir ++ SLASH :: text) := by
  obtain ⟨hlen, hzero, rfl⟩ := h
  have hmove := take_of_terminated hzero
  -- The buffer in the pieces that the three writes replace.
  obtain ⟨first, b, old, rest, rfl, hfirst, hold⟩ : ∃ (first : Bytes) (b : UInt8)
      (old rest : Bytes), buf = first ++ ([b] ++ (old ++ rest)) ∧ first.length = workdir.length ∧
        old.length = (cstr buf).length + 1 := by
    have hb : workdir.length < buf.length := by omega
    refine ⟨buf.take workdir.length, buf[workdir.length],
      (buf.drop (workdir.length + 1)).take ((cstr buf).length + 1),
      (buf.drop (workdir.length + 1)).drop ((cstr buf).length + 1), ?_, ?_, ?_⟩
    · rw [List.take_append_drop, List.singleton_append, List.getElem_cons_drop,
        List.take_append_drop]
    · exact List.length_take_of_le (by omega)
    · rw [List.length_take, List.length_drop]
      omega
  generalize htext : cstr (first ++ ([b] ++ (old ++ rest))) = text at *
  have h₁ : store (first ++ ([b] ++ (old ++ rest))) (workdir.length + 1) (text ++ [0]) =
      some (first ++ ([b] ++ ((text ++ [0]) ++ rest))) := by
    have hlen : (text ++ [0]).length = old.length := by simp [hold]
    simpa [hfirst] using store_append (first ++ [b]) hlen rest
  have h₂ := store_append [] hfirst.symm ([b] ++ ((text ++ [0]) ++ rest))
  have hslash : [SLASH].length = [b].length := rfl
  have h₃ := store_append workdir hslash ((text ++ [0]) ++ rest)
  have hstring : workdir ++ ([SLASH] ++ ((text ++ [0]) ++ rest)) =
      (workdir ++ SLASH :: text) ++ 0 :: rest := by simp
  refine ⟨workdir ++ ([SLASH] ++ ((text ++ [0]) ++ rest)), ?_, ?_, ?_, ?_⟩
  · rw [joinInPlace, htext, hmove, h₁]
    simp only [List.nil_append, List.length_nil] at h₂
    simp only [Option.bind_eq_bind, Option.bind_some, h₂, h₃]
  · simp only [List.length_append, List.length_singleton] at hlen hold ⊢
    omega
  · simp
  · have htextz : (0 : UInt8) ∉ text := htext ▸ cstr_notMem _
    rw [hstring]
    refine cstr_append_zero ?_ rest
    rw [List.mem_append, List.mem_cons, not_or, not_or]
    exact ⟨hw, by decide, htextz⟩

end Join

section Settled
variable {x : Input} {c c' : Cfg} {p p' : Project}

/-- The expansion of the chosen program, safe where it is relative. -/
structure Resolved (x : Input) (p : Project) : Prop where
  expanded : expandBin x p = .ok p.binPath
  relative : p.binPath ≠ [] → p.binPath.head? ≠ some SLASH →
    validRelativePath p.binPath HM_PATH_MAX = true

structure SameBin (p p' : Project) : Prop where
  bin : p'.bin = p.bin
  line : p'.line = p.line
  sandboxed : p'.sandboxed = p.sandboxed
  files : p'.files = [] ↔ p.files = []
  binPath : p'.binPath = p.binPath

theorem SameBin.rfl : SameBin p p := ⟨.refl _, .refl _, .refl _, .rfl, .refl _⟩

theorem SameBin.expandBin (h : SameBin p p') : expandBin x p' = expandBin x p := by
  simp only [Config.expandBin, h.bin, h.line, h.sandboxed, h.files]

theorem Resolved.same (h : Resolved x p) (hs : SameBin p p') : Resolved x p' where
  expanded := by rw [hs.expandBin, hs.binPath, h.expanded]
  relative := by
    rw [hs.binPath]
    exact h.relative

theorem settleBin_resolved (h : settleBin x p = .ok p') : Resolved x p' := by
  have hp' := settleBin_ok h
  have hexpand : expandBin x p' = expandBin x p := by
    rw [hp']
    rfl
  unfold settleBin at h
  dsimp only at h
  split at h
  · cases h
  · rename_i binPath hbin
    split_ifs at h with hrel hvalid
    · cases h
      exact ⟨hexpand.trans hbin, fun _ _ => hvalid⟩
    · cases h
      exact ⟨hexpand.trans hbin, fun hne hhead => absurd ⟨hne, hhead⟩ hrel⟩

theorem finishProject_resolved (h : finishProject x c = .ok c') : Resolved x c'.out := by
  unfold finishProject at h
  split at h
  · cases h
  · split at h
    · cases h
    · split at h
      · cases h
      · split at h
        · cases h
        · split at h
          · cases h
          · rename_i hbin
            cases h
            exact settleBin_resolved hbin

/-- A field of the project states one fact about it. -/
theorem applyField_tells {key value : Bytes} {line : Nat}
    (h : applyField x c key value line = .ok c') :
    ∃ f, (f = .binPath → c.seenBin = false) ∧ c' = Facts.tellField f value c := by
  cases hf : fieldOf key with
  | none =>
    rw [applyField, hf] at h
    cases h
  | some f => exact ⟨f, ((Facts.applyField_iff hf).mp h).2⟩

theorem applyField_binPath {key value : Bytes} {line : Nat}
    (h : applyField x c key value line = .ok c') : c'.out.binPath = c.out.binPath := by
  obtain ⟨f, -, rfl⟩ := applyField_tells h
  cases f <;> rfl

/-- The path is settled when the project is complete, and nothing changes the program
afterwards. -/
structure Once (x : Input) (c : Cfg) : Prop where
  open_ : c.finished = false → c.out.binPath = []
  closed : c.finished = true → c.cur = false ∧ c.inBinMap = false ∧ Resolved x c.out

theorem Once.keep (h : Once x c) (hfin : c'.finished = c.finished) (hcur : c'.cur = c.cur)
    (hmap : c'.inBinMap = c.inBinMap) (hout : SameBin c.out c'.out) : Once x c' where
  open_ hf := hout.binPath.trans (h.open_ (hfin ▸ hf))
  closed hf := by
    obtain ⟨h₁, h₂, h₃⟩ := h.closed (hfin ▸ hf)
    exact ⟨hcur.trans h₁, hmap.trans h₂, h₃.same hout⟩

theorem Once.keep_open (h : Once x c) (hopen : c.finished = false) (hfin : c'.finished = c.finished)
    (hout : c'.out.binPath = c.out.binPath) : Once x c' where
  open_ _ := hout.trans (h.open_ hopen)
  closed hf := by
    rw [hfin, hopen] at hf
    cases hf

theorem Once.aside (h : Once x c) (ha : Aside c c') : Once x c' where
  open_ hf := (congrArg (·.binPath) ha.out).trans (h.open_ (ha.finished ▸ hf))
  closed hf := by
    have hfin := ha.finished ▸ hf
    obtain ⟨hcur, hmap, hresolved⟩ := h.closed hfin
    exact ⟨ha.cur.trans hcur, ha.inBinMap.trans hmap, hresolved.same ⟨congrArg (·.bin) ha.out,
      congrArg (·.line) ha.out, congrArg (·.sandboxed) ha.out, ha.files hfin,
      congrArg (·.binPath) ha.out⟩⟩

theorem scalar_once {key value : Bytes} {line : Nat} (h : Once x c) (he : Embedded c)
    (hs : scalar x c key value line = .ok c') : Once x c' := by
  unfold scalar at hs
  split_ifs at hs with hcur hkey hdirs hbin hfiles
  all_goals
    obtain ⟨-, hopen⟩ := he.opened (by simpa using hcur)
  · have hok := addSandboxWriteDir_ok hs
    exact h.keep_open hopen (by rw [hok]) (by rw [hok])
  · have hok := addBinEntry_ok hs
    exact h.keep_open hopen (by rw [hok]) (by rw [hok])
  · have hok := (applyField_frame hs).flags
    exact h.keep_open hopen (by rw [hok]) (applyField_binPath hs)

theorem mappingEnd_once {line : Nat} (h : Once x c) (hs : mappingEnd x c line = .ok c') :
    Once x c' := by
  unfold mappingEnd at hs
  split_ifs at hs with hfiles hbin
  · cases hs
    exact h.keep rfl rfl rfl .rfl
  · have hopen : c.finished = false := by
      by_contra hf
      have := (h.closed (by simpa using hf)).2.1
      rw [hbin] at this
      cases this
    have hok := finishBinMap_ok hs
    exact h.keep_open hopen (by rw [hok]) (by rw [hok])
  · have hflags := (finishProject_frame hs).flags
    have hmap : c'.inBinMap = false := by
      rw [hflags]
      simpa using hbin
    refine ⟨fun hf => ?_, fun _ => ⟨by rw [hflags], hmap, finishProject_resolved hs⟩⟩
    rw [hflags] at hf
    cases hf

theorem mappingStart_once {line : Nat} (h : Once x c) (he : Embedded c)
    (hs : mappingStart x c line = .ok c') : Once x c' := by
  unfold mappingStart at hs
  split_ifs at hs with hfiles hbin
  · cases hs
    exact h.keep rfl rfl rfl .rfl
  · cases hs
    exact h.keep_open (he.opened (Bool.and_eq_true_iff.mp hbin).1).2 rfl rfl
  · obtain ⟨hstarted, hflags, hout⟩ := beginProject_ok hs
    have hopen : c.finished = false := by
      by_contra hf
      have := (he.closed (by simpa using hf)).1
      rw [hstarted] at this
      cases this
    refine h.keep_open hopen (by rw [hflags]) ?_
    rw [hout, h.open_ hopen]

theorem onEvent_once {ev : Event} (h : Once x c) (he : Embedded c) (hs : onEvent x c ev = .ok c') :
    Once x c' := by
  cases ev with
  | mappingStart line => exact mappingStart_once h he hs
  | mappingEnd line => exact mappingEnd_once h hs
  | scalar key value line => exact scalar_once h he hs
  | _ => exact h.aside (onEvent_aside he rfl hs)

theorem hmConfigParse_resolved {evs : List Event} (h : hmConfigParse x evs = .ok p) :
    Resolved x p := by
  obtain ⟨c, ⟨hc, -⟩, hfin, rfl⟩ := parseFrom_keeps (I := fun c => Once x c ∧ Embedded c)
    (fun _ _ _ _ hc hev => ⟨onEvent_once hc.1 hc.2 hev, onEvent_embedded hc.2 hev⟩)
    ⟨⟨fun _ => rfl, fun hf => by cases hf⟩, embedded_start⟩ h
  exact (hc.closed hfin).2.2

end Settled

section Cached

theorem expandTemplate_absolute {x : Input} {tpl path : Bytes} {what : String} {cap line : Nat}
    (h : expandTemplate x tpl what cap line true = .ok path) : path.head? = some SLASH := by
  unfold expandTemplate at h
  split at h
  · cases h
  · rename_i out tooLong _
    split_ifs at h with hlong habs
    cases h
    have hhead : out.head? = some SLASH := by simpa using habs
    obtain ⟨rest, rfl⟩ : ∃ rest, out = SLASH :: rest := by
      cases out with
      | nil => cases hhead
      | cons b rest => exact ⟨rest, by rw [Option.some.inj hhead]⟩
    rfl

theorem Resolved.absolute {x : Input} {p : Project} (h : Resolved x p) (hfiles : p.files = [])
    (hsandboxed : p.sandboxed = false) (hne : p.binPath ≠ []) : p.binPath.head? = some SLASH := by
  have hexpand := h.expanded
  unfold expandBin at hexpand
  split_ifs at hexpand
  · rw [hfiles, hsandboxed] at hexpand
    exact expandTemplate_absolute hexpand
  · exact absurd (Except.ok.inj hexpand).symm hne

/-- The path of a program after it has been resolved below `workdir`. -/
def binBelow (workdir binPath : Bytes) : Bytes :=
  if binPath = [] ∨ binPath.head? = some SLASH then binPath
  else WorkTree.spelled workdir (fields SLASH binPath)

theorem resolveCachedBin_below {p p' : Project} {c : Slot} {file : Bytes}
    (h : resolveCachedBin p c file = .ok p') : p' =
    { p with binPath := binBelow c.workdir p.binPath } := by
  unfold resolveCachedBin at h
  unfold binBelow
  split_ifs at h ⊢ <;> cases h
  · rfl
  · rw [WorkTree.spelled, WorkTree.flatMap_fields, List.append_assoc, List.singleton_append]

theorem resolveCachedBin_fits {p p' : Project} {c : Slot} {file : Bytes}
    (h : resolveCachedBin p c file = .ok p') (hne : p.binPath ≠ [])
    (hhead : p.binPath.head? ≠ some SLASH) :
    c.workdir.length + 1 + p.binPath.length ≤ HM_PATH_MAX := by
  unfold resolveCachedBin at h
  rw [if_neg (not_or.mpr ⟨hne, hhead⟩)] at h
  split_ifs at h with hlong
  exact Nat.le_of_not_lt hlong

/-- What is left of a relative path below the work directory. -/
structure Confined (workdir binPath : Bytes) : Prop where
  names : fields SLASH binPath ≠ []
  proper : ∀ n ∈ fields SLASH binPath, FileTree.proper n = true
  length : (binBelow workdir binPath).length ≤ HM_PATH_MAX
  inPlace : (0 : UInt8) ∉ workdir → ∀ buf, Holds buf binPath →
    ∃ buf', joinInPlace workdir buf = some buf' ∧ Holds buf' (binBelow workdir binPath)

theorem Resolved.confined {x : Input} {p p' : Project} {c : Slot} {file : Bytes} (h : Resolved x p)
    (hok : resolveCachedBin p c file = .ok p') (hne : p.binPath ≠ [])
    (hhead : p.binPath.head? ≠ some SLASH) : Confined c.workdir p.binPath := by
  have hfits := resolveCachedBin_fits hok hne hhead
  have hbelow : binBelow c.workdir p.binPath = c.workdir ++ SLASH :: p.binPath := by
    rw [binBelow, if_neg (not_or.mpr ⟨hne, hhead⟩), WorkTree.spelled, WorkTree.flatMap_fields]
  refine ⟨fields_ne_nil _ _, WorkTree.relative_proper (h.relative hne hhead), ?_,
    fun hw buf hbuf => ?_⟩
  · rw [hbelow, List.length_append, List.length_cons]
    omega
  · rw [hbelow]
    exact joinInPlace_holds hbuf hw hfits

/-- Whatever the environment puts into a path, the program runs below the work directory or
was given by an absolute path, or the invocation is rejected. -/
theorem cached_bin {l : Launch} {file content : Bytes} {p : Project} {source : Option Bytes}
    (h : Checked l file content p source) :
    expandBin (l.input file content) p = .ok p.binPath ∧
      (p.files = [] → p.sandboxed = false → p.binPath ≠ [] → p.binPath.head? = some SLASH) ∧
        ((∃ text, prepare l = .exit HM_EXIT_USAGE text) ∨
          ∃ c dir, (let p' := { p with binPath := binBelow c.workdir p.binPath }
            prepare l = if l.opts.plan then .plan p' c else .run p' c dir) ∧
              (p.binPath ≠ [] → p.binPath.head? ≠ some SLASH → Confined c.workdir p.binPath)) := by
  have hresolved := hmConfigParse_resolved h.parse_eq
  refine ⟨hresolved.expanded, hresolved.absolute, ?_⟩
  rw [prepare_checked l h, prepareSlot]
  cases hmCacheDir l.opts.cacheDir l.startup with
  | none => exact .inl ⟨_, rfl⟩
  | some dir =>
    dsimp only
    split
    · exact .inl ⟨_, rfl⟩
    · rename_i p' hok
      refine .inr ⟨_, dir, ?_, hresolved.confined hok⟩
      rw [resolveCachedBin_below hok]

def toolLaunch : Launch where
  opts := { file := some (ascii "t.siml"), cacheDir := some (ascii "/c") }
  getenv := fun _ => some (ascii "run")
  siml := fun _ => [.mappingStart 1, .scalar (ascii "command") (ascii "make") 1,
    .scalar (ascii "bin-path") (ascii "bin/\x7b\x7bT\x7d\x7d") 2, .mappingEnd 3, .streamEnd]
  xxh3 := fun _ => 0
  version := ascii "1"
  content := some []

def toolProject : Project where
  kind := .command
  name := ascii "make"
  command := ascii "make"
  schedKind := .every
  schedInterval := 86400
  sandboxed := true
  bin := ascii "bin/\x7b\x7bT\x7d\x7d"
  binPath := ascii "bin/run"
  binCached := true
  line := 1

theorem toolChecked : Checked toolLaunch (ascii "t.siml") [] toolProject none :=
  ⟨rfl, rfl, rfl, by decide +kernel, by decide +kernel⟩

theorem cached_bin_tool : ∃ c dir, prepare toolLaunch =
    .run { toolProject with binPath := binBelow c.workdir (ascii "bin/run") } c dir ∧
      Confined c.workdir (ascii "bin/run") := by
  obtain ⟨-, -, hout | ⟨c, dir, hrun, hconfined⟩⟩ := cached_bin toolChecked
  · obtain ⟨text, htext⟩ := hout
    rw [prepare_checked _ toolChecked] at htext
    cases htext
  · exact ⟨c, dir, hrun, hconfined (by decide) (by decide)⟩

end Cached

section Mapping
variable {x : Input} {c c' : Cfg} {es : List (Bytes × Bytes)}

def entry (k : Sharing.Outline) : Event → Option (Bytes × Bytes)
  | .scalar key value _ => if k.inBinMap && key ≠ [] then some (key, value) else none
  | _ => none

def entriesFrom (k : Sharing.Outline) : List Event → List (Bytes × Bytes)
  | [] => []
  | .streamEnd :: _ => []
  | ev :: evs => (entry k ev).toList ++ entriesFrom (k.next ev) evs

/-- The entries of the mapping in the order of the file; a project without one has none. -/
def mapping (evs : List Event) : List (Bytes × Bytes) := entriesFrom (Sharing.outline {}) evs

theorem entriesFrom_cons {k : Sharing.Outline} {ev : Event} {evs : List Event}
    (h : ev ≠ .streamEnd) :
    entriesFrom k (ev :: evs) = (entry k ev).toList ++ entriesFrom (k.next ev) evs := by
  cases ev <;> first | rfl | exact absurd rfl h

/-- The name that the keys are compared with; standard input has none. -/
def invokedName (x : Input) : Bytes := (x.invoked.map hmBinNameOf).getD []

/-- The choice follows the entries read so far. -/
structure Selecting (x : Input) (c : Cfg) (es : List (Bytes × Bytes)) : Prop where
  names : c.out.binNames = es.map Prod.fst
  keys : [] ∉ c.out.binNames
  first : ∀ e, es.head? = some e → c.binDefault = e.2
  unnamed : x.invoked = none → c.invokedName = []
  invoked : c.inBinMap = true ∨ es ≠ [] → c.invokedName = invokedName x
  found : ∀ path, es.lookup (invokedName x) = some path →
    c.out.binChoice = .named ∧ c.out.bin = path
  missing : es.lookup (invokedName x) = none → c.out.binChoice ≠ .named ∧
    (es ≠ [] → c.inBinMap = false → c.out.binChoice = .default ∧ c.out.bin = c.binDefault)
  seen : c.pendingBinMap = true ∨ c.inBinMap = true ∨ es ≠ [] → c.seenBin = true
  opened : c.inBinMap = true → c.cur = true ∧ c.started = true
  fresh : c.started = false → es = []

/-- An event that adds no entry leaves the choice alone. -/
structure Keeps (c c' : Cfg) : Prop where
  names : c'.out.binNames = c.out.binNames
  choice : c'.out.binChoice = c.out.binChoice
  bin : c.seenBin = true → c'.out.bin = c.out.bin
  binDefault : c'.binDefault = c.binDefault
  invokedName : c'.invokedName = c.invokedName
  inBinMap : c'.inBinMap = c.inBinMap
  pending : c'.pendingBinMap = true → c.pendingBinMap = true ∨ c'.seenBin = true
  seen : c.seenBin = true → c'.seenBin = true
  cur : c.inBinMap = true → c.cur = true → c'.cur = true
  started : c'.started = c.started

theorem Selecting.keep (h : Selecting x c es) (hk : Keeps c c') : Selecting x c' es where
  names := hk.names.trans h.names
  keys := by
    rw [hk.names]
    exact h.keys
  first e he := hk.binDefault.trans (h.first e he)
  unnamed hn := hk.invokedName.trans (h.unnamed hn)
  invoked hin := by
    rw [hk.inBinMap] at hin
    exact hk.invokedName.trans (h.invoked hin)
  found path hp := by
    have hseen := h.seen (.inr (.inr (by rintro rfl; cases hp)))
    rw [hk.choice, hk.bin hseen]
    exact h.found path hp
  missing hn := by
    refine ⟨?_, fun hne hin => ?_⟩
    · rw [hk.choice]
      exact (h.missing hn).1
    · rw [hk.choice, hk.bin (h.seen (.inr (.inr hne))), hk.binDefault]
      exact (h.missing hn).2 hne (hk.inBinMap ▸ hin)
  seen hin := by
    rw [hk.inBinMap] at hin
    rcases hin with hp | hin
    · exact (hk.pending hp).elim (fun hp => hk.seen (h.seen (.inl hp))) id
    · exact hk.seen (h.seen (.inr hin))
  opened hin := by
    rw [hk.inBinMap] at hin
    exact ⟨hk.cur hin (h.opened hin).1, hk.started.trans (h.opened hin).2⟩
  fresh hs := h.fresh (hk.started ▸ hs)

theorem Keeps.refl (c : Cfg) : Keeps c c :=
  ⟨rfl, rfl, fun _ => rfl, rfl, rfl, rfl, .inl, id, fun _ => id, rfl⟩

theorem Keeps.of_aside (h : Aside c c') : Keeps c c' where
  names := congrArg (·.binNames) h.out
  choice := congrArg (·.binChoice) h.out
  bin _ := congrArg (·.bin) h.out
  binDefault := h.binDefault
  invokedName := h.invokedName
  inBinMap := h.inBinMap
  pending := h.pendingBinMap
  seen := h.seenBin
  cur _ hc := h.cur.trans hc
  started := h.started

theorem applyField_keeps {key value : Bytes} {line : Nat}
    (h : applyField x c key value line = .ok c') : Keeps c c' := by
  obtain ⟨f, hseen, rfl⟩ := applyField_tells h
  cases f with
  | binPath =>
    refine ⟨rfl, rfl, fun hs => ?_, rfl, rfl, rfl, .inl, fun _ => rfl, fun _ => id, rfl⟩
    rw [hseen rfl] at hs
    cases hs
  | name | url | command | check | schedule | sandboxed | versionPrefix | versionSuffix | install =>
    exact ⟨rfl, rfl, fun _ => rfl, rfl, rfl, rfl, .inl, id, fun _ => id, rfl⟩

theorem finishProject_keeps (hmap : c.inBinMap = false) (h : finishProject x c = .ok c') :
    Keeps c c' := by
  have hflags := (finishProject_frame h).flags
  have hnames := (finishProject_frame h).names
  have hout : c'.out.binChoice = c.out.binChoice ∧ c'.out.bin = c.out.bin := by
    unfold finishProject at h
    split at h
    · cases h
    · rename_i p hp
      obtain ⟨-, hsame, -⟩ := settleKind_ok hp
      split at h
      · cases h
      · split at h
        · cases h
        · split at h
          · cases h
          · split at h
            · cases h
            · rename_i p' hbin
              cases h
              dsimp only
              rw [settleBin_ok hbin, hsame]
              exact ⟨rfl, rfl⟩
  have hcur : c.inBinMap = true → c.cur = true → c'.cur = true := fun hin => by simp [hmap] at hin
  rw [hflags] at hnames hout hcur ⊢
  exact ⟨hnames, hout.1, fun _ => hout.2, rfl, rfl, rfl, .inl, id, hcur, rfl⟩

theorem Selecting.entry {name path : Bytes} {line : Nat} (h : Selecting x c es)
    (hin : c.inBinMap = true) (hname : name ≠ []) (hok : addBinEntry x c name path line = .ok c') :
    Selecting x c' (es ++ [(name, path)]) := by
  have hinvoked := h.invoked (.inl hin)
  have hseen := h.seen (.inr (.inl hin))
  have hlookup : (es ++ [(name, path)]).lookup (invokedName x) =
      (es.lookup (invokedName x)).or (if name = invokedName x then some path else none) := by
    rw [List.lookup_append, List.lookup_singleton]
    simp only [beq_iff_eq, eq_comm (a := invokedName x)]
  obtain ⟨-, hdup, -, rfl⟩ := Facts.addBinEntry_iff.mp hok
  have hfresh : es.lookup name = none := by
    rw [List.lookup_eq_none_iff]
    intro e he
    have hmem : e.1 ∈ c.out.binNames := h.names ▸ List.mem_map_of_mem he
    have := List.any_eq_false.mp hdup e.1 hmem
    simpa using Ne.symm (of_decide_eq_false (Bool.eq_false_of_not_eq_true this))
  have hnamed : (c.invokedName ≠ [] ∧ name = c.invokedName) ↔ name = invokedName x := by
    rw [hinvoked]
    exact ⟨fun hn => hn.2, fun hn => ⟨hn ▸ hname, hn⟩⟩
  have hstarted := (h.opened hin).2
  refine ⟨?_, ?_, ?_, h.unnamed, fun _ => hinvoked, ?_, ?_, fun _ => hseen, h.opened, ?_⟩
  · simp [Facts.addBin, h.names]
  · simp [Facts.addBin, h.keys, hname.symm]
  · intro e he
    cases hes : es with
    | nil =>
      rw [hes] at he
      cases he
      simp [Facts.addBin, h.names, hes]
    | cons _ rest =>
      rw [hes] at he
      cases he
      have hfirst := h.first e (by rw [hes]; rfl)
      simpa [Facts.addBin, h.names, hes] using hfirst
  · intro path' hfound
    rw [hlookup] at hfound
    by_cases hn : name = invokedName x
    · rw [if_pos hn, ← hn, hfresh, Option.none_or] at hfound
      simp [Facts.addBin, hnamed.mpr hn, Option.some.inj hfound]
    · rw [if_neg hn, Option.or_none] at hfound
      simpa [Facts.addBin, mt hnamed.mp hn] using h.found path' hfound
  · intro hmissing
    rw [hlookup] at hmissing
    by_cases hn : name = invokedName x
    · rw [if_pos hn] at hmissing
      simp at hmissing
    · rw [if_neg hn, Option.or_none] at hmissing
      refine ⟨?_, fun _ hout => ?_⟩
      · simpa [Facts.addBin, mt hnamed.mp hn] using (h.missing hmissing).1
      · rw [show (Facts.addBin c (name, path)).inBinMap = c.inBinMap from rfl, hin] at hout
        cases hout
  · intro hs
    rw [show (Facts.addBin c (name, path)).started = c.started from rfl, hstarted] at hs
    cases hs

theorem mappingStart_selecting {line : Nat} (h : Selecting x c es) (he : Embedded c)
    (hok : mappingStart x c line = .ok c') : Selecting x c' es := by
  unfold mappingStart at hok
  split_ifs at hok with hfiles hbin
  · cases hok
    exact h.keep ⟨rfl, rfl, fun _ => rfl, rfl, rfl, rfl, .inl, id, fun _ => id, rfl⟩
  · cases hok
    obtain ⟨hcur, hpending⟩ := Bool.and_eq_true_iff.mp hbin
    have hname : (Facts.beginBins x c).invokedName = invokedName x := by
      unfold Facts.beginBins invokedName
      cases hx : x.invoked with
      | none => exact h.unnamed hx
      | some path => rfl
    refine ⟨h.names, h.keys, h.first, fun hx => ?_, fun _ => hname, h.found, fun hm => ?_,
      fun _ => h.seen (.inl hpending), fun _ => ⟨hcur, (he.opened hcur).1⟩, h.fresh⟩
    · refine hname.trans ?_
      rw [invokedName, hx]
      rfl
    · exact ⟨(h.missing hm).1, fun _ hin => by cases hin⟩
  · obtain ⟨hstarted, hflags, hout⟩ := beginProject_ok hok
    have hes := h.fresh hstarted
    have hin : c.inBinMap = false := by
      by_contra hin
      have := (h.opened (by simpa using hin)).2
      rw [hstarted] at this
      cases this
    rw [hflags, hout]
    subst hes
    refine ⟨rfl, List.not_mem_nil, h.first, h.unnamed, ?_, fun _ hf => (by cases hf),
      fun _ => ⟨fun hf => (by cases hf), fun hne => absurd rfl hne⟩, h.seen, ?_,
      fun hs => (by cases hs)⟩
    · rw [hin]
      exact fun hor => absurd rfl (hor.resolve_left Bool.false_ne_true)
    · exact fun _ => ⟨rfl, rfl⟩

theorem mappingEnd_selecting {line : Nat} (h : Selecting x c es)
    (hok : mappingEnd x c line = .ok c') : Selecting x c' es := by
  unfold mappingEnd at hok
  split_ifs at hok with hfiles hbin
  · cases hok
    exact h.keep ⟨rfl, rfl, fun _ => rfl, rfl, rfl, rfl, .inl, id, fun _ => id, rfl⟩
  · have hseen := h.seen (.inr (.inl hbin))
    have hstarted := (h.opened hbin).2
    have hname := h.invoked (.inl hbin)
    unfold finishBinMap at hok
    dsimp only at hok
    split at hok
    · cases hok
    · cases hok
      refine ⟨?_, ?_, h.first, h.unnamed, fun _ => hname, fun path hp => ?_, fun hm => ?_,
        fun _ => hseen, nofun, h.fresh⟩
      · dsimp only
        rw [← h.names]
        split_ifs <;> rfl
      · have hkeys := h.keys
        dsimp only
        split_ifs <;> exact hkeys
      · obtain ⟨hchoice, hbin⟩ := h.found path hp
        dsimp only
        rw [if_pos hchoice]
        exact ⟨hchoice, hbin⟩
      · dsimp only
        rw [if_neg (h.missing hm).1]
        exact ⟨nofun, fun _ _ => ⟨rfl, rfl⟩⟩
  · exact h.keep (finishProject_keeps (by simpa using hbin) hok)

theorem scalar_selecting {key value : Bytes} {line : Nat} (h : Selecting x c es)
    (hok : scalar x c key value line = .ok c') :
    Selecting x c' (es ++ (entry (Sharing.outline c) (.scalar key value line)).toList) := by
  unfold scalar at hok
  unfold entry
  split_ifs at hok with hcur hkey hdirs hbin hfiles
  · rw [addSandboxWriteDir_ok hok]
    have hk : Keeps c { c with out := { c.out with
        sandboxWriteDirs := c.out.sandboxWriteDirs ++ [{ source := value, line := line }] } } :=
      ⟨rfl, rfl, fun _ => rfl, rfl, rfl, rfl, .inl, id, fun _ => id, rfl⟩
    simpa [hkey] using h.keep hk
  · simpa [hkey, hbin, Sharing.outline] using h.entry hbin hkey hok
  · simpa [hbin, Sharing.outline] using h.keep (applyField_keeps hok)

theorem onEvent_selecting {ev : Event} (h : Selecting x c es) (he : Embedded c)
    (hok : onEvent x c ev = .ok c') :
    Selecting x c' (es ++ (entry (Sharing.outline c) ev).toList) := by
  cases ev with
  | scalar key value line => exact scalar_selecting h hok
  | mappingStart line => exact (List.append_nil es).symm ▸ mappingStart_selecting h he hok
  | mappingEnd line => exact (List.append_nil es).symm ▸ mappingEnd_selecting h hok
  | _ => exact (List.append_nil es).symm ▸ h.keep (.of_aside (onEvent_aside he rfl hok))

theorem parseFrom_selecting {evs : List Event} {p : Project} (h : Selecting x c es)
    (he : Embedded c) (ho : Once x c) (hp : parseFrom x c evs = .ok p) :
    ∃ d, Selecting x d (es ++ entriesFrom (Sharing.outline c) evs) ∧ d.inBinMap = false ∧
      d.out = p := by
  induction evs generalizing c es with
  | nil => cases hp
  | cons ev evs ih =>
    by_cases hev : ev = .streamEnd
    · subst hev
      simp only [parseFrom] at hp
      split_ifs at hp with hfin
      cases hp
      exact ⟨c, (List.append_nil es).symm ▸ h, (ho.closed hfin).2.1, rfl⟩
    · rw [parseFrom_cons hev] at hp
      cases hc : onEvent x c ev with
      | error text =>
        rw [hc] at hp
        cases hp
      | ok c₁ =>
        rw [hc] at hp
        have := ih (onEvent_selecting h he hc) (onEvent_embedded he hc) (onEvent_once ho he hc) hp
        rwa [Sharing.onEvent_outline hc, List.append_assoc, ← entriesFrom_cons hev] at this

theorem hmConfigParse_selects {evs : List Event} {p : Project} (h : hmConfigParse x evs = .ok p)
    (hne : mapping evs ≠ []) : p.binNames = (mapping evs).map Prod.fst ∧ [] ∉ p.binNames ∧
      (∀ path, (mapping evs).lookup (invokedName x) = some path → p.binChoice = .named ∧
        p.bin = path) ∧ ((mapping evs).lookup (invokedName x) = none → p.binChoice = .default ∧
          (mapping evs).head?.map Prod.snd = some p.bin) := by
  have hstart : Selecting x {} [] :=
    ⟨rfl, List.not_mem_nil, nofun, fun _ => rfl, by simp, nofun, fun _ => ⟨nofun, nofun⟩, by simp,
      nofun, fun _ => rfl⟩
  obtain ⟨d, hd, hin, rfl⟩ := parseFrom_selecting hstart embedded_start
    ⟨fun _ => rfl, fun hf => by cases hf⟩ h
  rw [List.nil_append] at hd
  change Selecting x d (mapping evs) at hd
  refine ⟨hd.names, hd.keys, hd.found, fun hmissing => ?_⟩
  obtain ⟨hchoice, hbin⟩ := (hd.missing hmissing).2 hne hin
  refine ⟨hchoice, ?_⟩
  obtain ⟨e, rest, hes⟩ := List.exists_cons_of_ne_nil hne
  rw [hes, hbin, hd.first e (by rw [hes]; rfl)]
  rfl

end Mapping

end Hacman.BinPath
