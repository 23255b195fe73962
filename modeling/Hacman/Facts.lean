import Hacman.Levels

/-!
# What the entries of a file tell

Every entry in the project's mapping states facts about the project. An entry is taken
if its facts can be read off it and the marks of what was seen admit them, and it leaves
the bookkeeping record with these facts told, whatever has been told before.
-/

namespace Hacman.Facts
open Octets Util Config Levels

section Telling

inductive Fact
  | field (f : Field) (value : Bytes)
  | install (text : Bytes) (indent : Nat)
  | dirs (sources : List Bytes)
  | files (files : List EmbeddedFile)
  | bins (entries : List (Bytes × Bytes))

def admits (f : Field) (value : Bytes) : Bool :=
  match f with
  | .name => value.length ≤ HM_NAME_MAX
  | .url => value.length ≤ HM_URL_MAX
  | .command => value.length ≤ HM_COMMAND_MAX
  | .binPath => value.length ≤ HM_PATH_MAX
  | .check => (parseCheck value).isSome
  | .schedule => (parseSchedule 0 value).isSome
  | .sandboxed => value = ascii "true" || value = ascii "false"
  | .versionPrefix | .versionSuffix | .install => true

def tellField (f : Field) (value : Bytes) (c : Cfg) : Cfg :=
  match f with
  | .name => { c with out := { c.out with name := value } }
  | .url => { c with out := { c.out with url := value } }
  | .command => { c with out := { c.out with command := value } }
  | .binPath => { c with seenBin := true, out := { c.out with bin := value } }
  | .check => { c with
      seenCheck := true
      out := { c.out with check := (parseCheck value).getD c.out.check } }
  | .schedule => { c with out := { c.out with
      schedKind :=
        ((parseSchedule c.out.schedInterval value).getD (c.out.schedKind, c.out.schedInterval)).1
      schedInterval :=
        ((parseSchedule c.out.schedInterval value).getD (c.out.schedKind, c.out.schedInterval)).2
      scheduleExplicit := true } }
  | .sandboxed => { c with out := { c.out with sandboxed := value = ascii "true" } }
  | .versionPrefix => { c with seenVersion := true, out := { c.out with versionPrefix := value } }
  | .versionSuffix => { c with seenVersion := true, out := { c.out with versionSuffix := value } }
  | .install => { c with
      seenInstall := true, out := { c.out with install := value, installIndent := 0 } }

def addDirs (sources : List Bytes) (c : Cfg) : Cfg :=
  { c with out := { c.out with sandboxWriteDirs :=
      c.out.sandboxWriteDirs ++ sources.map fun source => { source := source, line := 0 } } }

def addFiles (files : List EmbeddedFile) (c : Cfg) : Cfg :=
  { c with out := { c.out with files := c.out.files ++ files } }

def addBin (c : Cfg) (entry : Bytes × Bytes) : Cfg :=
  let named := c.invokedName ≠ [] ∧ entry.1 = c.invokedName
  { c with
    binDefault := if c.out.binNames = [] then entry.2 else c.binDefault
    out := { c.out with
      binNames := c.out.binNames ++ [entry.1]
      bin := if named then entry.2 else c.out.bin
      binName := if named then c.invokedName else c.out.binName
      binChoice := if named then .named else c.out.binChoice } }

/-- Without an entry for the invoked name the first one is the default. -/
def chooseBin (c : Cfg) : Cfg :=
  { c with out :=
    if c.out.binChoice = .named then c.out
    else { c.out with
      bin := c.binDefault, binName := c.out.binNames.head?.getD [], binChoice := .default } }

variable (x : Input)

def beginBins (c : Cfg) : Cfg :=
  { c with
    seenBin := true
    invokedName := match x.invoked with
      | some path => hmBinNameOf path
      | none => c.invokedName }

def tell (c : Cfg) : Fact → Cfg
  | .field f value => tellField f value c
  | .install text indent => { c with
      seenInstall := true, out := { c.out with install := text, installIndent := indent } }
  | .dirs sources => addDirs sources { c with seenSandboxWriteDirs := true }
  | .files files => addFiles files { c with seenFiles := true }
  | .bins entries => chooseBin (entries.foldl addBin (beginBins x c))

end Telling

section Reading
variable (x : Input)

def itemSources : List Node → Option (List Bytes)
  | [] => some []
  | .scalar value _ :: items =>
    if value = [] ∨ HM_PATH_MAX < value.length then none
    else (itemSources items).map (value :: ·)
  | _ :: _ => none

def dirsFact (items : List Node) : Option Fact :=
  (itemSources items).bind fun sources =>
    if sources.length ≤ HM_SANDBOX_WRITE_DIRS_MAX then some (.dirs sources) else none

def blockFile (key : Bytes) (first : Slice) (rest : List Slice) : EmbeddedFile :=
  ⟨key, (blockText x first rest).1, (blockText x first rest).2, 0⟩

def fileEntries : List (Bytes × Node) → Option (List EmbeddedFile × List Fact)
  | [] => some ([], [])
  | (key, .block _ first rest _) :: entries =>
    (fileEntries entries).map fun r => (blockFile x key first rest :: r.1, r.2)
  | (key, .flow _ items) :: entries =>
    if key = dirsKey then
      (dirsFact items).bind fun f => (fileEntries entries).map fun r => (r.1, f :: r.2)
    else none
  | _ :: _ => none

def soundFiles (files : List EmbeddedFile) : Prop :=
  files.all (fun f => validFilePath f.path) = true ∧ (files.map (·.path)).Nodup ∧
    files.length ≤ HM_FILES_MAX

instance (files : List EmbeddedFile) : Decidable (soundFiles files) :=
  inferInstanceAs (Decidable (_ ∧ _ ∧ _))

def binEntries : List (Bytes × Node) → Option (List (Bytes × Bytes) × List Fact)
  | [] => some ([], [])
  | (key, .scalar value _) :: entries =>
    (binEntries entries).map fun r => ((key, value) :: r.1, r.2)
  | (key, .block _ first rest _) :: entries =>
    if key = installKey then
      (binEntries entries).map fun r =>
        (r.1, .install (blockText x first rest).1 (blockText x first rest).2 :: r.2)
    else none
  | (key, .flow _ items) :: entries =>
    if key = dirsKey then
      (dirsFact items).bind fun f => (binEntries entries).map fun r => (r.1, f :: r.2)
    else none
  | _ :: _ => none

def soundBin (entry : Bytes × Bytes) : Bool :=
  !decide (SLASH ∈ entry.1 ∨ (simlSuffix.length < entry.1.length ∧ simlSuffix <:+ entry.1) ∨
    HM_BIN_NAME_MAX < entry.1.length) && !decide (entry.2 = [] ∨ HM_PATH_MAX < entry.2.length)

def soundBins (entries : List (Bytes × Bytes)) : Prop :=
  entries ≠ [] ∧ entries.all (fun e => e.1 ≠ [] && soundBin e) = true ∧
    (entries.map (·.1)).Nodup ∧ entries.length ≤ HM_BIN_NAMES_MAX

instance (entries : List (Bytes × Bytes)) : Decidable (soundBins entries) :=
  inferInstanceAs (Decidable (_ ∧ _ ∧ _ ∧ _))

def facts : Bytes × Node → Option (List Fact)
  | (key, .scalar value _) => (fieldOf key).bind fun f =>
    if admits f value then some [.field f value] else none
  | (key, .block _ first rest _) =>
    if key = installKey then
      some [.install (blockText x first rest).1 (blockText x first rest).2]
    else none
  | (key, .flow _ items) => if key = dirsKey then (dirsFact items).map ([·]) else none
  | (key, .seq _ _ items) => if key = dirsKey then (dirsFact items).map ([·]) else none
  | (key, .map _ _ _ entries) =>
    if key = filesKey then (fileEntries x entries).bind fun r =>
      if soundFiles r.1 then some (r.2 ++ [Fact.files r.1]) else none
    else if key = binKey then (binEntries x entries).bind fun r =>
      if soundBins r.1 then some (r.2 ++ [.bins r.1]) else none
    else none

end Reading

section Runs
variable {x : Input} {c c' d : Cfg} {evs evs' : List Event}

def unlined (p : Project) : Project :=
  { p with
    line := 0
    files := p.files.map fun f => { f with line := 0 }
    sandboxWriteDirs := p.sandboxWriteDirs.map fun dir => { dir with line := 0 } }

/-- The record without line numbers and without what the last block left. -/
def norm (c : Cfg) : Cfg := { c with out := unlined c.out, blockStart := none, blockEnd := 0 }

def Runs (x : Input) (c : Cfg) (evs : List Event) (d : Cfg) : Prop :=
  ∃ c', feed x c evs = .ok c' ∧ norm c' = d

theorem runs_nil : Runs x c [] d ↔ d = norm c := by
  simp [Runs, feed, eq_comm]

theorem runs_cons {ev : Event} :
    Runs x c (ev :: evs) d ↔ ∃ c₁, onEvent x c ev = .ok c₁ ∧ Runs x c₁ evs d := by
  simp only [Runs, feed_cons]
  constructor
  · rintro ⟨c', ⟨c₁, hev, h⟩, hd⟩
    exact ⟨c₁, hev, c', h, hd⟩
  · rintro ⟨c₁, hev, c', h, hd⟩
    exact ⟨c', ⟨c₁, hev, h⟩, hd⟩

theorem runs_ok {ev : Event} (h : onEvent x c ev = .ok c') :
    Runs x c (ev :: evs) d ↔ Runs x c' evs d := by
  rw [runs_cons]
  constructor
  · rintro ⟨c₁, hev, hrest⟩
    rw [h] at hev
    rwa [Except.ok.inj hev]
  · exact fun hrest => ⟨c', h, hrest⟩

theorem runs_append :
    Runs x c (evs ++ evs') d ↔ ∃ c₁, feed x c evs = .ok c₁ ∧ Runs x c₁ evs' d := by
  simp only [Runs, feed_append]
  constructor
  · rintro ⟨c', ⟨c₁, h, h'⟩, hd⟩
    exact ⟨c₁, h, c', h', hd⟩
  · rintro ⟨c₁, h, c', h', hd⟩
    exact ⟨c', ⟨c₁, h, h'⟩, hd⟩

theorem within_norm {files bins dirs : Bool} :
    Within files bins dirs (norm c) ↔ Within files bins dirs c :=
  ⟨fun h => ⟨h.1, h.2, h.3, h.4, h.5, h.6, h.7, h.8⟩,
    fun h => ⟨h.1, h.2, h.3, h.4, h.5, h.6, h.7, h.8⟩⟩

theorem not_runs {ev : Event} (h : ∀ c₁, onEvent x c ev ≠ .ok c₁) : ¬ Runs x c (ev :: evs) d := by
  rw [runs_cons]
  rintro ⟨c₁, hev, -⟩
  exact h c₁ hev

def pushDir (source : Bytes) (line : Nat) (c : Cfg) : Cfg :=
  { c with out := { c.out with
    sandboxWriteDirs := c.out.sandboxWriteDirs ++ [{ source := source, line := line }] } }

theorem addSandboxWriteDir_iff {source : Bytes} {line : Nat} :
    addSandboxWriteDir x c source line = .ok c' ↔
      ¬ (source = [] ∨ HM_PATH_MAX < source.length) ∧
      c.out.sandboxWriteDirs.length ≠ HM_SANDBOX_WRITE_DIRS_MAX ∧ c' = pushDir source line c := by
  unfold addSandboxWriteDir
  dsimp only
  split_ifs with h h'
  · simp [h]
  · simp [h']
  · simp [h, h', eq_comm, pushDir]

theorem norm_pushDir (source : Bytes) (line : Nat) (c : Cfg) :
    norm (pushDir source line c) = addDirs [source] (norm c) := by
  simp [norm, pushDir, addDirs, unlined]

theorem addDirs_append (sources sources' : List Bytes) (c : Cfg) :
    addDirs sources' (addDirs sources c) = addDirs (sources ++ sources') c := by
  simp [addDirs]

theorem runs_items {files bins : Bool} {items : List Node} (hc : Within files bins true c)
    (hle : c.out.sandboxWriteDirs.length ≤ HM_SANDBOX_WRITE_DIRS_MAX) :
    Runs x c (itemEvents items) d ↔ ∃ sources, itemSources items = some sources ∧
      c.out.sandboxWriteDirs.length + sources.length ≤ HM_SANDBOX_WRITE_DIRS_MAX ∧
      d = addDirs sources (norm c) := by
  induction items generalizing c with
  | nil =>
    rw [itemEvents, runs_nil]
    simp [itemSources, addDirs, hle]
  | cons item items ih =>
    rw [itemEvents]
    cases item with
    | scalar value line =>
      have hitem : onEvent x c (.scalar [] value line) = addSandboxWriteDir x c value line := by
        simp [onEvent, Config.scalar, hc.cur, hc.inDirs]
      rw [Node.events, List.singleton_append, runs_cons, hitem, itemSources]
      have hpush : Within files bins true (pushDir value line c) := hc.keep rfl
      have hlen : (pushDir value line c).out.sandboxWriteDirs.length =
          c.out.sandboxWriteDirs.length + 1 := by
        simp [pushDir]
      simp only [addSandboxWriteDir_iff]
      by_cases hbad : value = [] ∨ HM_PATH_MAX < value.length
      · simp [hbad]
      · rw [if_neg hbad]
        constructor
        · rintro ⟨_, ⟨-, hne, rfl⟩, hrest⟩
          obtain ⟨sources, hs, hle', rfl⟩ := (ih hpush (by omega)).mp hrest
          refine ⟨value :: sources, by rw [hs]; rfl, ?_, ?_⟩
          · rw [List.length_cons]
            omega
          · rw [norm_pushDir, addDirs_append]
            rfl
        · rintro ⟨_, hs, hle', rfl⟩
          obtain ⟨sources, hs', rfl⟩ := Option.map_eq_some_iff.mp hs
          rw [List.length_cons] at hle'
          refine ⟨_, ⟨hbad, by omega, rfl⟩, (ih hpush (by omega)).mpr ⟨sources, hs', by omega, ?_⟩⟩
          rw [norm_pushDir, addDirs_append]
          rfl
    | block line first rest content =>
      have hblock : ∀ c₁, onEvent x c (.blockStart [] line) ≠ .ok c₁ := by
        intro c₁ h
        cases hf : c.inFiles <;>
          simp [onEvent, blockScalarStart, addFile, validFilePath, validRelativePath, ascii, hf,
            hc.cur, Except.map] at h
      exact iff_of_false (not_runs hblock) (by simp [itemSources])
    | flow line items =>
      exact iff_of_false (not_runs fun c₁ h => by
        simp [onEvent, Config.sequenceStart, hc.cur, hc.pendingDirs, ascii] at h)
          (by simp [itemSources])
    | seq header line items =>
      exact iff_of_false (not_runs fun c₁ h => by
        simp [onEvent, Config.sequenceStart, hc.cur, hc.pendingDirs, ascii] at h)
          (by simp [itemSources])
    | map header line last entries =>
      exact iff_of_false (not_runs fun c₁ h => by
        simp [onEvent, Config.mappingStart, hc.cur, hc.pendingFiles, hc.pendingDirs,
          hc.pendingBin] at h) (by simp [itemSources])

theorem runs_snoc {ev : Event} {step : Cfg → Cfg} (hev : ∀ c₁, onEvent x c₁ ev = .ok (step c₁))
    (hnorm : ∀ c₁, norm (step c₁) = step (norm c₁)) :
    Runs x c (evs ++ [ev]) d ↔ ∃ e, Runs x c evs e ∧ d = step e := by
  rw [runs_append]
  constructor
  · rintro ⟨c₁, hfeed, c₂, hlast, rfl⟩
    rw [feed_single, hev] at hlast
    obtain rfl := Except.ok.inj hlast
    exact ⟨norm c₁, ⟨c₁, hfeed, rfl⟩, hnorm c₁⟩
  · rintro ⟨e, ⟨c₁, hfeed, rfl⟩, rfl⟩
    exact ⟨c₁, hfeed, step c₁, feed_single.mpr (hev c₁), hnorm c₁⟩

theorem runs_then {P Q : Prop} {e : Cfg} (hone : ∀ d, Runs x c evs d ↔ P ∧ d = e)
    (hnext : P → ∀ c₁, norm c₁ = e → (Runs x c₁ evs' d ↔ Q)) :
    Runs x c (evs ++ evs') d ↔ P ∧ Q := by
  rw [runs_append]
  constructor
  · rintro ⟨c₁, h, h'⟩
    obtain ⟨hp, he⟩ := (hone _).mp ⟨c₁, h, rfl⟩
    exact ⟨hp, (hnext hp c₁ he).mp h'⟩
  · rintro ⟨hp, hq⟩
    obtain ⟨c₁, h, he⟩ := (hone _).mpr ⟨hp, rfl⟩
    exact ⟨c₁, h, (hnext hp c₁ he).mpr hq⟩

theorem runs_end {α : Type} {P Q : α → Prop} {e : α → Cfg} {ev : Event} {step : Cfg → Cfg}
    (hbody : ∀ d, Runs x c evs d ↔ ∃ a, P a ∧ d = e a)
    (hend : ∀ a c₁, P a → norm c₁ = e a → ∀ c₂, onEvent x c₁ ev = .ok c₂ ↔ Q a ∧ c₂ = step c₁)
    (hnorm : ∀ c₁, norm (step c₁) = step (norm c₁)) :
    Runs x c (evs ++ [ev]) d ↔ ∃ a, P a ∧ Q a ∧ d = step (e a) := by
  rw [runs_append]
  constructor
  · rintro ⟨c₁, h, c₂, hlast, rfl⟩
    obtain ⟨a, hp, he⟩ := (hbody _).mp ⟨c₁, h, rfl⟩
    obtain ⟨hq, rfl⟩ := (hend a c₁ hp he c₂).mp (feed_single.mp hlast)
    exact ⟨a, hp, hq, by rw [hnorm, he]⟩
  · rintro ⟨a, hp, hq, rfl⟩
    obtain ⟨c₁, h, he⟩ := (hbody _).mpr ⟨a, hp, rfl⟩
    refine ⟨c₁, h, step c₁, feed_single.mpr ((hend a c₁ hp he _).mpr ⟨hq, rfl⟩), ?_⟩
    rw [hnorm, he]

def leaveDirs (c : Cfg) : Cfg := { c with inSandboxWriteDirs := false }

theorem runs_dirs {files bins : Bool} {items : List Node} (hc : Within files bins true c)
    (hempty : c.out.sandboxWriteDirs = []) :
    Runs x c (itemEvents items ++ [.sequenceEnd]) d ↔ ∃ sources,
      itemSources items = some sources ∧ sources.length ≤ HM_SANDBOX_WRITE_DIRS_MAX ∧
      d = leaveDirs (addDirs sources (norm c)) := by
  have hend : ∀ c₁, onEvent x c₁ .sequenceEnd = .ok (leaveDirs c₁) := fun _ => rfl
  rw [runs_snoc hend (fun _ => rfl)]
  simp only [runs_items hc (by simp [hempty]), hempty, List.length_nil, Nat.zero_add]
  constructor
  · rintro ⟨_, ⟨sources, hs, hle, rfl⟩, rfl⟩
    exact ⟨sources, hs, hle, rfl⟩
  · rintro ⟨sources, hs, hle, rfl⟩
    exact ⟨_, ⟨sources, hs, hle, rfl⟩, rfl⟩

theorem dirsFact_iff {items : List Node} {f : Fact} : dirsFact items = some f ↔
    ∃ sources, itemSources items = some sources ∧ sources.length ≤ HM_SANDBOX_WRITE_DIRS_MAX ∧
      f = .dirs sources := by
  unfold dirsFact
  rw [Option.bind_eq_some_iff]
  constructor
  · rintro ⟨sources, hs, h⟩
    split_ifs at h with hle
    exact ⟨sources, hs, hle, (Option.some.inj h).symm⟩
  · rintro ⟨sources, hs, hle, rfl⟩
    exact ⟨sources, hs, if_pos hle⟩

def FreshDirs (c : Cfg) : Prop := c.seenSandboxWriteDirs = false → c.out.sandboxWriteDirs = []

theorem freshDirs_norm : FreshDirs (norm c) ↔ FreshDirs c := by
  simp [FreshDirs, norm, unlined]

theorem runs_flow {files bins : Bool} {key : Bytes} {line : Nat} {items : List Node}
    (hc : Within files bins false c) (hf : FreshDirs c) :
    Runs x c ((Node.flow line items).events key) d ↔ key = dirsKey ∧
      c.seenSandboxWriteDirs = false ∧ ∃ f, dirsFact items = some f ∧ d = tell x (norm c) f := by
  have hstart : ∀ c₁, onEvent x c (.sequenceStart key line) = .ok c₁ ↔ key = dirsKey ∧
      c.seenSandboxWriteDirs = false ∧
      c₁ = { c with seenSandboxWriteDirs := true, inSandboxWriteDirs := true } := by
    intro c₁
    have hno := hc.pendingDirs
    simp only [onEvent, Config.sequenceStart, hc.cur, hno, Bool.true_and, Bool.false_or,
      Bool.not_false]
    by_cases hkey : key = dirsKey
    · cases hseen : c.seenSandboxWriteDirs with
      | true => simp [hkey, dirsKey]
      | false =>
        rw [if_pos (by simpa [dirsKey] using hkey), if_neg (by simp)]
        simp [hkey, eq_comm]
    · rw [if_neg (by simpa [dirsKey] using hkey)]
      simp [hkey]
  rw [Node.events, runs_cons]
  simp only [hstart, dirsFact_iff]
  constructor
  · rintro ⟨_, ⟨hkey, hseen, rfl⟩, hrest⟩
    have hin : Within files bins true
        { c with seenSandboxWriteDirs := true, inSandboxWriteDirs := true } :=
      ⟨hc.1, hc.2, hc.3, hc.4, hc.5, hc.6, rfl, hc.8⟩
    obtain ⟨sources, hs, hle, rfl⟩ := (runs_dirs hin (hf hseen)).mp hrest
    refine ⟨hkey, hseen, _, ⟨sources, hs, hle, rfl⟩, ?_⟩
    simp [leaveDirs, addDirs, norm, tell, hc.inDirs]
  · rintro ⟨hkey, hseen, _, ⟨sources, hs, hle, rfl⟩, rfl⟩
    have hin : Within files bins true
        { c with seenSandboxWriteDirs := true, inSandboxWriteDirs := true } :=
      ⟨hc.1, hc.2, hc.3, hc.4, hc.5, hc.6, rfl, hc.8⟩
    refine ⟨_, ⟨hkey, hseen, rfl⟩, (runs_dirs hin (hf hseen)).mpr ⟨sources, hs, hle, ?_⟩⟩
    simp [leaveDirs, addDirs, norm, tell, hc.inDirs]

theorem runs_flow_then {files bins : Bool} {key : Bytes} {line : Nat} {items : List Node}
    {Q : Fact → Prop} (hc : Within files bins false c) (hf : FreshDirs c)
    (hnext : ∀ f, dirsFact items = some f → c.seenSandboxWriteDirs = false →
      ∀ c₁, norm c₁ = tell x (norm c) f → (Runs x c₁ evs' d ↔ Q f)) :
    Runs x c ((Node.flow line items).events key ++ evs') d ↔ key = dirsKey ∧
      c.seenSandboxWriteDirs = false ∧ ∃ f, dirsFact items = some f ∧ Q f := by
  rw [runs_append]
  constructor
  · rintro ⟨c₁, h, h'⟩
    obtain ⟨hkey, hseen, f, hdirs, he⟩ := (runs_flow hc hf).mp ⟨c₁, h, rfl⟩
    exact ⟨hkey, hseen, f, hdirs, (hnext f hdirs hseen c₁ he).mp h'⟩
  · rintro ⟨hkey, hseen, f, hdirs, hq⟩
    obtain ⟨c₁, h, he⟩ := (runs_flow hc hf).mpr ⟨hkey, hseen, f, hdirs, rfl⟩
    exact ⟨c₁, h, (hnext f hdirs hseen c₁ he).mpr hq⟩

theorem runs_seq {key : Bytes} {header line : Nat} {items : List Node}
    (hc : Within false false false c) (hf : FreshDirs c) :
    Runs x c ((Node.seq header line items).header key ++
      (Node.seq header line items).events key) d ↔ key = dirsKey ∧ c.seenSandboxWriteDirs = false ∧
      ∃ f, dirsFact items = some f ∧ d = tell x (norm c) f := by
  have hempty : ∀ c₁ : Cfg, c₁.cur = true → c₁.pendingSandboxWriteDirs = false →
      ∀ c₂, onEvent x c₁ (.sequenceStart [] line) ≠ .ok c₂ := by
    intro c₁ hcur hno c₂ h
    simp [onEvent, Config.sequenceStart, hcur, hno, ascii] at h
  have hheader : ∀ c₁, onEvent x c (.entryHeader dirsKey header) = .ok c₁ ↔
      c.seenSandboxWriteDirs = false ∧
      c₁ = { c with seenSandboxWriteDirs := true, pendingSandboxWriteDirs := true } := by
    intro c₁
    cases hseen : c.seenSandboxWriteDirs with
    | true => simp [onEvent, entryHeader, hc.cur, hc.inBin, hc.inFiles, hc.inDirs, hseen,
      dirsKey, ascii]
    | false =>
      have hrun : onEvent x c (.entryHeader dirsKey header) =
          .ok { c with seenSandboxWriteDirs := true, pendingSandboxWriteDirs := true } := by
        simp [onEvent, entryHeader, hc.cur, hc.inBin, hc.inFiles, hc.inDirs, hseen, dirsKey, ascii]
      rw [hrun]
      exact ⟨fun h => ⟨rfl, (Except.ok.inj h).symm⟩, fun h => by rw [h.2]⟩
  have hstart : onEvent x { c with seenSandboxWriteDirs := true, pendingSandboxWriteDirs := true }
      (.sequenceStart [] line) =
      .ok { c with seenSandboxWriteDirs := true, inSandboxWriteDirs := true } := by
    simp [onEvent, Config.sequenceStart, hc.cur, hc.pendingDirs]
  have hin : Within false false true
      { c with seenSandboxWriteDirs := true, inSandboxWriteDirs := true } :=
    ⟨hc.1, hc.2, hc.3, hc.4, hc.5, hc.6, rfl, hc.8⟩
  rw [Node.header, Node.events, List.singleton_append, runs_cons]
  constructor
  · rintro ⟨c₁, hev, hrest⟩
    by_cases hkey : key = dirsKey
    · subst hkey
      obtain ⟨hseen, rfl⟩ := (hheader c₁).mp hev
      obtain ⟨c₂, hev', hrest⟩ := runs_cons.mp hrest
      rw [hstart] at hev'
      obtain rfl := Except.ok.inj hev'
      obtain ⟨sources, hs, hle, rfl⟩ := (runs_dirs hin (hf hseen)).mp hrest
      refine ⟨rfl, hseen, _, dirsFact_iff.mpr ⟨sources, hs, hle, rfl⟩, ?_⟩
      simp [leaveDirs, addDirs, norm, tell, hc.inDirs]
    · rcases entryHeader_ok hev with ⟨-, rfl⟩ | ⟨-, rfl⟩ | ⟨hdirs, -⟩ | rfl
      · exact absurd hrest (not_runs (hempty _ hc.cur hc.pendingDirs))
      · exact absurd hrest (not_runs (hempty _ hc.cur hc.pendingDirs))
      · exact absurd hdirs hkey
      · exact absurd hrest (not_runs (hempty _ hc.cur hc.pendingDirs))
  · rintro ⟨rfl, hseen, f, hdirs, rfl⟩
    obtain ⟨sources, hs, hle, rfl⟩ := dirsFact_iff.mp hdirs
    refine ⟨_, (hheader _).mpr ⟨hseen, rfl⟩, runs_cons.mpr ⟨_, hstart, ?_⟩⟩
    refine (runs_dirs hin (hf hseen)).mpr ⟨sources, hs, hle, ?_⟩
    simp [leaveDirs, addDirs, norm, tell, hc.inDirs]

end Runs

section Files
variable {x : Input} {c c' d : Cfg} {evs : List Event}

def isDirs : Fact → Bool
  | .dirs _ => true
  | _ => false

def takesBin : Fact → Bool
  | .field f _ => f = .binPath
  | .bins _ => true
  | _ => false

def Fits (c : Cfg) (fs : List Fact) : Prop :=
  c.seenSandboxWriteDirs.toNat + fs.countP isDirs ≤ 1 ∧ c.seenBin.toNat + fs.countP takesBin ≤ 1

theorem foldl_addBin_seen (entries : List (Bytes × Bytes)) (c : Cfg) :
    (entries.foldl addBin c).seenSandboxWriteDirs = c.seenSandboxWriteDirs ∧
      (entries.foldl addBin c).seenBin = c.seenBin := by
  induction entries generalizing c with
  | nil => exact ⟨rfl, rfl⟩
  | cons e entries ih => exact ih (addBin c e)

theorem tell_seenDirs (f : Fact) (c : Cfg) :
    (tell x c f).seenSandboxWriteDirs = (c.seenSandboxWriteDirs || isDirs f) := by
  cases f with
  | field f value => cases f <;> exact (Bool.or_false _).symm
  | dirs sources => exact (Bool.or_true _).symm
  | bins entries =>
    exact ((foldl_addBin_seen entries (beginBins x c)).1).trans (Bool.or_false _).symm
  | _ => exact (Bool.or_false _).symm

theorem tell_seenBin (f : Fact) (c : Cfg) : (tell x c f).seenBin = (c.seenBin || takesBin f) := by
  cases f with
  | field f value => cases f <;> first | exact (Bool.or_false _).symm | exact (Bool.or_true _).symm
  | bins entries =>
    exact ((foldl_addBin_seen entries (beginBins x c)).2).trans (Bool.or_true _).symm
  | _ => exact (Bool.or_false _).symm

theorem fits_cons (f : Fact) (fs : List Fact) :
    Fits c (f :: fs) ↔ Fits c [f] ∧ Fits (tell x c f) fs := by
  unfold Fits
  rw [tell_seenDirs, tell_seenBin]
  simp only [List.countP_cons, List.countP_nil]
  cases c.seenSandboxWriteDirs <;> cases c.seenBin <;> cases isDirs f <;> cases takesBin f <;> simp

theorem fits_nil (c : Cfg) : Fits c [] := ⟨c.seenSandboxWriteDirs.toNat_le, c.seenBin.toNat_le⟩

theorem fits_dirs {sources : List Bytes} :
    Fits c [.dirs sources] ↔ c.seenSandboxWriteDirs = false := by
  cases h : c.seenSandboxWriteDirs <;> cases h' : c.seenBin <;> simp [Fits, isDirs, takesBin, h, h']

theorem fits_append (fs gs : List Fact) :
    Fits c (fs ++ gs) ↔ Fits c fs ∧ Fits (fs.foldl (tell x) c) gs := by
  induction fs generalizing c with
  | nil => exact (and_iff_right (fits_nil c)).symm
  | cons f fs ih => rw [List.cons_append, fits_cons, ih, fits_cons f fs, List.foldl_cons, and_assoc]

theorem addFile_iff {path : Bytes} {line : Nat} : addFile x c path line = .ok c' ↔
    validFilePath path = true ∧ c.out.files.any (·.path = path) = false ∧
    c.out.files.length ≠ HM_FILES_MAX ∧
    c' = { c with
      block := some (.file c.out.files.length)
      out := { c.out with files := c.out.files ++ [{ path := path, line := line }] } } := by
  unfold addFile
  dsimp only
  cases hv : validFilePath path with
  | false => simp
  | true =>
    cases ha : c.out.files.any (·.path = path) with
    | true => simp
    | false =>
      by_cases hl : c.out.files.length = HM_FILES_MAX
      · simp [hl]
      · simp [hl, eq_comm]

theorem soundFiles_snoc {files : List EmbeddedFile} {f : EmbeddedFile} :
    soundFiles (files ++ [f]) ↔ soundFiles files ∧ validFilePath f.path = true ∧
      files.any (·.path = f.path) = false ∧ files.length < HM_FILES_MAX := by
  have hany : files.any (·.path = f.path) = false ↔ f.path ∉ files.map (·.path) := by
    simp
  rw [hany]
  simp only [soundFiles, List.all_append, Bool.and_eq_true, List.map_append, List.length_append,
    List.map_singleton, List.length_singleton, List.nodup_append, List.all_cons, List.all_nil,
    Bool.and_true, List.mem_singleton]
  constructor
  · rintro ⟨⟨hall, hf⟩, ⟨hnodup, -, hne⟩, hlen⟩
    exact ⟨⟨hall, hnodup, by omega⟩, hf, fun hmem => hne _ hmem _ rfl rfl, by omega⟩
  · rintro ⟨⟨hall, hnodup, -⟩, hf, hmem, hlen⟩
    refine ⟨⟨hall, hf⟩, ⟨hnodup, by simp, ?_⟩, by omega⟩
    rintro a ha _ rfl rfl
    exact hmem ha

theorem soundFiles_left {files files' : List EmbeddedFile} (h : soundFiles (files ++ files')) :
    soundFiles files := by
  obtain ⟨hall, hnodup, hlen⟩ := h
  rw [List.all_append, Bool.and_eq_true] at hall
  rw [List.map_append, List.nodup_append] at hnodup
  rw [List.length_append] at hlen
  exact ⟨hall.1, hnodup.1, by omega⟩

theorem runs_file {key : Bytes} {line : Nat} {first : Slice} {rest : List Slice}
    (content : first.len ≠ 0) (hc : Within true false false c)
    (hs : soundFiles (norm c).out.files) :
    Runs x c ((Node.block line first rest content).events key) d ↔
      soundFiles ((norm c).out.files ++ [blockFile x key first rest]) ∧
      d = addFiles [blockFile x key first rest] (norm c) := by
  have hopen : onEvent x c (.blockStart key line) =
      (addFile x c key line).map fun c => { c with blockStart := none, blockEnd := 0 } := by
    simp [onEvent, blockScalarStart, hc.cur, hc.inFiles]
  have hpath : (norm c).out.files.any (·.path = key) = c.out.files.any (·.path = key) := by
    simp [norm, unlined, List.any_map, Function.comp_def]
  have hlen : (norm c).out.files.length = c.out.files.length := by
    simp [norm, unlined]
  rw [soundFiles_snoc, and_iff_right hs, Node.events, runs_cons, hopen]
  change _ ↔ (validFilePath key = true ∧ (norm c).out.files.any (·.path = key) = false ∧ _) ∧ _
  rw [hpath, hlen]
  constructor
  · rintro ⟨c₁, hev, c', hlines, rfl⟩
    cases hadd : addFile x c key line with
    | error msg =>
      rw [hadd] at hev
      cases hev
    | ok c₂ =>
      rw [hadd] at hev
      obtain rfl := Except.ok.inj hev
      obtain ⟨hv, ha, hl, rfl⟩ := addFile_iff.mp hadd
      obtain rfl := Except.ok.inj ((feed_lines rfl rfl content).symm.trans hlines)
      have hle := hs.2.2
      rw [hlen] at hle
      refine ⟨⟨hv, ha, by omega⟩, ?_⟩
      simp [norm, unlined, addFiles, blockFile, filled, indented, modify_snoc, setIndent,
        setContent, hc.block]
  · rintro ⟨⟨hv, ha, hl⟩, rfl⟩
    refine ⟨_, by rw [addFile_iff.mpr ⟨hv, ha, hl.ne, rfl⟩]; rfl, _, feed_lines rfl rfl content, ?_⟩
    simp [norm, unlined, addFiles, blockFile, filled, indented, modify_snoc, setIndent,
      setContent, hc.block]

theorem fits_fact {items : List Node} {f : Fact} {fs : List Fact} (hf : dirsFact items = some f)
    (h : Fits c (f :: fs)) : c.seenSandboxWriteDirs = false := by
  obtain ⟨sources, -, -, rfl⟩ := dirsFact_iff.mp hf
  have hdirs := h.1
  cases hseen : c.seenSandboxWriteDirs with
  | false => rfl
  | true =>
    rw [hseen, List.countP_cons_of_pos rfl, Bool.toNat_true] at hdirs
    omega

theorem fileEntries_flow {key : Bytes} {line : Nat} {items : List Node}
    {entries : List (Bytes × Node)} {r : List EmbeddedFile × List Fact} :
    fileEntries x ((key, .flow line items) :: entries) = some r ↔ key = dirsKey ∧ ∃ f r',
      dirsFact items = some f ∧ fileEntries x entries = some r' ∧ r = (r'.1, f :: r'.2) := by
  rw [fileEntries]
  by_cases hkey : key = dirsKey
  · rw [if_pos hkey, Option.bind_eq_some_iff]
    simp only [Option.map_eq_some_iff, hkey, true_and]
    grind
  · rw [if_neg hkey]
    simp [hkey]

theorem fileEntries_dirs {entries : List (Bytes × Node)} {r : List EmbeddedFile × List Fact}
    (h : fileEntries x entries = some r) : ∀ g ∈ r.2, isDirs g = true := by
  induction entries generalizing r with
  | nil =>
    cases h
    exact nofun
  | cons entry entries ih =>
    obtain ⟨key, node⟩ := entry
    cases node with
    | block line first rest content =>
      obtain ⟨r', hr, rfl⟩ := Option.map_eq_some_iff.mp h
      exact ih (r := r') hr
    | flow line items =>
      obtain ⟨-, f, r', hf, hr, rfl⟩ := fileEntries_flow.mp h
      obtain ⟨sources, -, -, rfl⟩ := dirsFact_iff.mp hf
      exact List.forall_mem_cons.mpr ⟨rfl, ih hr⟩
    | scalar value line => cases h
    | seq header line items => cases h
    | map header line last entries => cases h

theorem foldl_tell_addFiles {gs : List Fact} (hgs : ∀ g ∈ gs, isDirs g = true)
    (files : List EmbeddedFile) (c : Cfg) :
    gs.foldl (tell x) (addFiles files c) = addFiles files (gs.foldl (tell x) c) := by
  induction gs generalizing c with
  | nil => rfl
  | cons g gs ih =>
    obtain ⟨hg, hrest⟩ := List.forall_mem_cons.mp hgs
    cases g with
    | dirs sources => exact ih hrest (tell x c (.dirs sources))
    | _ => cases hg

theorem addFiles_append (files files' : List EmbeddedFile) (c : Cfg) :
    addFiles files' (addFiles files c) = addFiles (files ++ files') c := by
  simp [addFiles]

theorem runs_files {entries : List (Bytes × Node)} (hc : Within true false false c)
    (hf : FreshDirs c) (hs : soundFiles (norm c).out.files) :
    Runs x c (entryEvents entries) d ↔ ∃ r, fileEntries x entries = some r ∧
      soundFiles ((norm c).out.files ++ r.1) ∧ Fits (norm c) r.2 ∧
      d = addFiles r.1 (r.2.foldl (tell x) (norm c)) := by
  induction entries generalizing c with
  | nil =>
    rw [entryEvents, runs_nil]
    simp [fileEntries, addFiles, hs, fits_nil]
  | cons entry entries ih =>
    obtain ⟨key, node⟩ := entry
    cases node with
    | block line first rest content =>
      have hnext : ∀ c₁, norm c₁ = addFiles [blockFile x key first rest] (norm c) →
          soundFiles ((norm c).out.files ++ [blockFile x key first rest]) →
          (Runs x c₁ (entryEvents entries) d ↔ ∃ r, fileEntries x entries = some r ∧
            soundFiles ((norm c).out.files ++ (blockFile x key first rest :: r.1)) ∧
            Fits (norm c) r.2 ∧
            d = addFiles (blockFile x key first rest :: r.1) (r.2.foldl (tell x) (norm c))) := by
        intro c₁ hc₁ hsound
        have hin : Within true false false c₁ := by
          rw [← within_norm, hc₁]
          exact (within_norm.mpr hc).keep rfl
        have hfresh : FreshDirs c₁ := by
          rw [← freshDirs_norm, hc₁]
          exact freshDirs_norm.mpr hf
        rw [ih hin hfresh (by rw [hc₁]; exact hsound), hc₁]
        refine exists_congr fun r => and_congr_right fun hr => ?_
        rw [foldl_tell_addFiles (fileEntries_dirs hr), addFiles_append]
        simp only [addFiles, List.append_assoc, List.singleton_append]
        exact Iff.rfl
      change Runs x c ((Node.block line first rest content).events key ++ entryEvents entries) d ↔ _
      rw [runs_then (fun _ => runs_file content hc hs) (fun hp c₁ he => hnext c₁ he hp),
        fileEntries]
      constructor
      · rintro ⟨-, r, hr, hall⟩
        exact ⟨_, by rw [hr]; rfl, hall⟩
      · rintro ⟨_, hmap, hall⟩
        obtain ⟨r, hr, rfl⟩ := Option.map_eq_some_iff.mp hmap
        have hsound : soundFiles ((norm c).out.files ++ [blockFile x key first rest] ++ r.1) := by
          simpa using hall.1
        exact ⟨soundFiles_left hsound, r, hr, hall⟩
    | flow line items =>
      have hnext : ∀ f, dirsFact items = some f → c.seenSandboxWriteDirs = false →
          ∀ c₁, norm c₁ = tell x (norm c) f →
          (Runs x c₁ (entryEvents entries) d ↔ ∃ r, fileEntries x entries = some r ∧
            soundFiles ((norm c).out.files ++ r.1) ∧ Fits (norm c) (f :: r.2) ∧
            d = addFiles r.1 ((f :: r.2).foldl (tell x) (norm c))) := by
        intro f hdirs hseen c₁ hc₁
        obtain ⟨sources, -, -, rfl⟩ := dirsFact_iff.mp hdirs
        have hin : Within true false false c₁ := by
          rw [← within_norm, hc₁]
          exact (within_norm.mpr hc).keep rfl
        have hfresh : FreshDirs c₁ := by
          rw [← freshDirs_norm, hc₁]
          exact nofun
        rw [ih hin hfresh (by rw [hc₁]; exact hs), hc₁]
        refine exists_congr fun r => and_congr_right fun _ => ?_
        rw [fits_cons (x := x), and_iff_right (fits_dirs (c := norm c) |>.mpr hseen)]
        exact Iff.rfl
      change Runs x c ((Node.flow line items).events key ++ entryEvents entries) d ↔ _
      rw [runs_flow_then hc hf hnext]
      simp only [fileEntries_flow]
      constructor
      · rintro ⟨hkey, -, f, hdirs, r, hr, hall⟩
        exact ⟨_, ⟨hkey, f, r, hdirs, hr, rfl⟩, hall⟩
      · rintro ⟨_, ⟨hkey, f, r, hdirs, hr, rfl⟩, hall⟩
        exact ⟨hkey, fits_fact hdirs hall.2.1, f, hdirs, r, hr, hall⟩
    | scalar value line =>
      refine iff_of_false (not_runs fun c₁ h => ?_) (by simp [fileEntries])
      simp [onEvent, Config.scalar, hc.cur, hc.inDirs, hc.inBin, hc.inFiles] at h
      split_ifs at h
    | seq header line items =>
      refine iff_of_false (not_runs fun c₁ h => ?_) (by simp [fileEntries])
      simp [onEvent, entryHeader, hc.inBin, hc.inFiles] at h
    | map header line last entries =>
      refine iff_of_false (not_runs fun c₁ h => ?_) (by simp [fileEntries])
      simp [onEvent, entryHeader, hc.inBin, hc.inFiles] at h

end Files

section Bins
variable {x : Input} {c c' d : Cfg}

theorem addBinEntry_iff {name path : Bytes} {line : Nat} : addBinEntry x c name path line = .ok c' ↔
    soundBin (name, path) = true ∧ c.out.binNames.any (· = name) = false ∧
    c.out.binNames.length ≠ HM_BIN_NAMES_MAX ∧ c' = addBin c (name, path) := by
  unfold addBinEntry soundBin
  dsimp only
  by_cases hname : SLASH ∈ name ∨ (simlSuffix.length < name.length ∧ simlSuffix <:+ name) ∨
      HM_BIN_NAME_MAX < name.length
  · rw [if_pos hname]
    simp [hname]
  · rw [if_neg hname]
    by_cases hpath : path = [] ∨ HM_PATH_MAX < path.length
    · rw [if_pos hpath]
      simp [hpath]
    · rw [if_neg hpath, decide_eq_false hname, decide_eq_false hpath]
      by_cases hdup : c.out.binNames.any (· = name) = true
      · rw [if_pos hdup]
        simp [hdup]
      · rw [if_neg hdup, Bool.eq_false_of_not_eq_true hdup]
        by_cases hlen : c.out.binNames.length = HM_BIN_NAMES_MAX
        · rw [if_pos hlen]
          simp [hlen]
        · rw [if_neg hlen]
          exact ⟨fun h => ⟨rfl, rfl, hlen, (Except.ok.inj h).symm⟩,
            fun h => congrArg _ h.2.2.2.symm⟩

def soundNames (names : List Bytes) : Prop := names.Nodup ∧ names.length ≤ HM_BIN_NAMES_MAX

theorem soundNames_snoc {names : List Bytes} {name : Bytes} : soundNames (names ++ [name]) ↔
    soundNames names ∧ names.any (· = name) = false ∧ names.length < HM_BIN_NAMES_MAX := by
  have hany : names.any (· = name) = false ↔ name ∉ names := by
    rw [List.any_eq_false]
    exact ⟨fun h hmem => h name hmem (decide_eq_true rfl),
      fun h a ha hname => h (of_decide_eq_true hname ▸ ha)⟩
  rw [hany]
  simp only [soundNames, List.nodup_append, List.length_append, List.length_singleton,
    List.mem_singleton]
  constructor
  · rintro ⟨⟨hnodup, -, hne⟩, hlen⟩
    exact ⟨⟨hnodup, by omega⟩, fun hmem => hne _ hmem _ rfl rfl, by omega⟩
  · rintro ⟨⟨hnodup, -⟩, hmem, hlen⟩
    refine ⟨⟨hnodup, by simp, ?_⟩, by omega⟩
    rintro a ha _ rfl rfl
    exact hmem ha

theorem soundNames_left {names names' : List Bytes} (h : soundNames (names ++ names')) :
    soundNames names := by
  obtain ⟨hnodup, hlen⟩ := h
  rw [List.nodup_append] at hnodup
  rw [List.length_append] at hlen
  exact ⟨hnodup.1, by omega⟩

theorem runs_block {bins : Bool} {key : Bytes} {line : Nat} {first : Slice} {rest : List Slice}
    (content : first.len ≠ 0) (hc : Within false bins false c) :
    Runs x c ((Node.block line first rest content).events key) d ↔ key = installKey ∧
      d = tell x (norm c) (.install (blockText x first rest).1 (blockText x first rest).2) := by
  rw [Node.events, runs_cons]
  by_cases hkey : key = installKey
  · have hopen : onEvent x c (.blockStart key line) = .ok { c with
        seenInstall := true, block := some .install, blockStart := none, blockEnd := 0 } := by
      simp [onEvent, blockScalarStart, hc.cur, hc.inFiles, hkey, installKey]
    rw [and_iff_right hkey]
    constructor
    · rintro ⟨c₁, hev, c', hlines, rfl⟩
      rw [hopen] at hev
      obtain rfl := Except.ok.inj hev
      obtain rfl := Except.ok.inj ((feed_lines rfl rfl content).symm.trans hlines)
      simp [norm, unlined, tell, filled, indented, hc.block]
    · rintro rfl
      refine ⟨_, hopen, _, feed_lines rfl rfl content, ?_⟩
      simp [norm, unlined, tell, filled, indented, hc.block]
  · refine iff_of_false ?_ (fun h => hkey h.1)
    rintro ⟨c₁, hev, -⟩
    have hkey' : key ≠ ascii "install" := hkey
    simp [onEvent, blockScalarStart, hc.inFiles, hkey'] at hev

theorem runs_bin {key value : Bytes} {line : Nat} (hc : Within false true false c)
    (hs : soundNames c.out.binNames) :
    Runs x c ((Node.scalar value line).events key) d ↔ (key ≠ [] && soundBin (key, value)) = true ∧
      soundNames (c.out.binNames ++ [key]) ∧ d = addBin (norm c) (key, value) := by
  rw [soundNames_snoc, and_iff_right hs, Node.events, runs_cons]
  by_cases hkey : key = []
  · refine iff_of_false ?_ (by simp [hkey])
    rintro ⟨c₁, hev, -⟩
    simp [onEvent, Config.scalar, hc.cur, hc.inDirs, hkey] at hev
  · have hadd : onEvent x c (.scalar key value line) = addBinEntry x c key value line := by
      simp [onEvent, Config.scalar, hc.cur, hc.inBin, hkey]
    rw [hadd]
    simp only [addBinEntry_iff, runs_nil, hkey, ne_eq, not_false_eq_true, decide_true,
      Bool.true_and]
    constructor
    · rintro ⟨_, ⟨hsound, hdup, hlen, rfl⟩, rfl⟩
      have hle := hs.2
      exact ⟨hsound, ⟨hdup, by omega⟩, rfl⟩
    · rintro ⟨hsound, ⟨hdup, hlen⟩, rfl⟩
      exact ⟨_, ⟨hsound, hdup, hlen.ne, rfl⟩, rfl⟩

def tellsNested (f : Fact) : Bool :=
  match f with
  | .dirs _ | .install _ _ => true
  | _ => false

theorem binEntries_flow {key : Bytes} {line : Nat} {items : List Node}
    {entries : List (Bytes × Node)} {r : List (Bytes × Bytes) × List Fact} :
    binEntries x ((key, .flow line items) :: entries) = some r ↔ key = dirsKey ∧ ∃ f r',
      dirsFact items = some f ∧ binEntries x entries = some r' ∧ r = (r'.1, f :: r'.2) := by
  rw [binEntries]
  by_cases hkey : key = dirsKey
  · rw [if_pos hkey, Option.bind_eq_some_iff]
    simp only [Option.map_eq_some_iff, hkey, true_and]
    grind
  · rw [if_neg hkey]
    simp [hkey]

theorem binEntries_nested {entries : List (Bytes × Node)} {r : List (Bytes × Bytes) × List Fact}
    (h : binEntries x entries = some r) : ∀ g ∈ r.2, tellsNested g = true := by
  induction entries generalizing r with
  | nil =>
    cases h
    exact nofun
  | cons entry entries ih =>
    obtain ⟨key, node⟩ := entry
    cases node with
    | scalar value line =>
      obtain ⟨r', hr, rfl⟩ := Option.map_eq_some_iff.mp h
      exact ih (r := r') hr
    | block line first rest content =>
      rw [binEntries] at h
      split_ifs at h
      obtain ⟨r', hr, rfl⟩ := Option.map_eq_some_iff.mp h
      exact List.forall_mem_cons.mpr ⟨rfl, ih hr⟩
    | flow line items =>
      obtain ⟨-, f, r', hf, hr, rfl⟩ := binEntries_flow.mp h
      obtain ⟨sources, -, -, rfl⟩ := dirsFact_iff.mp hf
      exact List.forall_mem_cons.mpr ⟨rfl, ih hr⟩
    | seq header line items => cases h
    | map header line last entries => cases h

theorem foldl_tell_addBin {gs : List Fact} (hgs : ∀ g ∈ gs, tellsNested g = true) (c : Cfg)
    (entry : Bytes × Bytes) :
    gs.foldl (tell x) (addBin c entry) = addBin (gs.foldl (tell x) c) entry := by
  induction gs generalizing c with
  | nil => rfl
  | cons g gs ih =>
    obtain ⟨hg, hrest⟩ := List.forall_mem_cons.mp hgs
    cases g with
    | dirs sources => exact ih hrest (tell x c (.dirs sources))
    | install text indent => exact ih hrest (tell x c (.install text indent))
    | _ => cases hg

def BinsSound (c : Cfg) (r : List (Bytes × Bytes) × List Fact) : Prop :=
  r.1.all (fun e => e.1 ≠ [] && soundBin e) = true ∧
    soundNames (c.out.binNames ++ r.1.map (·.1)) ∧ Fits c r.2

theorem runs_bins {entries : List (Bytes × Node)} (hc : Within false true false c)
    (hf : FreshDirs c) (hs : soundNames c.out.binNames) :
    Runs x c (entryEvents entries) d ↔ ∃ r, binEntries x entries = some r ∧ BinsSound (norm c) r ∧
      d = r.1.foldl addBin (r.2.foldl (tell x) (norm c)) := by
  induction entries generalizing c with
  | nil =>
    rw [entryEvents, runs_nil]
    have hnil : BinsSound (norm c) ([], []) := by
      refine ⟨rfl, ?_, fits_nil _⟩
      rw [List.map_nil, List.append_nil]
      exact hs
    simp [binEntries, hnil]
  | cons entry entries ih =>
    obtain ⟨key, node⟩ := entry
    -- every entry leaves the record within the mapping
    have hstep : ∀ c₁ e, norm c₁ = e → Within false true false e → FreshDirs e →
        soundNames e.out.binNames → (Runs x c₁ (entryEvents entries) d ↔ ∃ r,
          binEntries x entries = some r ∧ BinsSound e r ∧
          d = r.1.foldl addBin (r.2.foldl (tell x) e)) := by
      rintro c₁ _ rfl hin hfresh hnames
      exact ih (within_norm.mp hin) (freshDirs_norm.mp hfresh) hnames
    have hin := within_norm.mpr hc
    have hfresh := freshDirs_norm.mpr hf
    cases node with
    | scalar value line =>
      change Runs x c ((Node.scalar value line).events key ++ entryEvents entries) d ↔ _
      have hone : ∀ e, Runs x c ((Node.scalar value line).events key) e ↔
          ((key ≠ [] && soundBin (key, value)) = true ∧ soundNames (c.out.binNames ++ [key])) ∧
            e = addBin (norm c) (key, value) := fun e => by
        rw [runs_bin hc hs, and_assoc]
      rw [runs_then hone fun hp c₁ he => hstep c₁ _ he (hin.keep rfl) hfresh hp.2]
      constructor
      · rintro ⟨⟨hone, -⟩, r, hr, ⟨hall, hnames, hfits⟩, rfl⟩
        refine ⟨((key, value) :: r.1, r.2), by rw [binEntries, hr]; rfl, ⟨?_, ?_, hfits⟩, ?_⟩
        · rw [List.all_cons, hone, hall]
          rfl
        · simpa [addBin] using hnames
        · rw [foldl_tell_addBin (binEntries_nested hr)]
          rfl
      · rintro ⟨_, hmap, ⟨hall, hnames, hfits⟩, rfl⟩
        obtain ⟨r, hr, rfl⟩ := Option.map_eq_some_iff.mp hmap
        rw [List.all_cons, Bool.and_eq_true] at hall
        have hnames' : soundNames (c.out.binNames ++ [key] ++ r.1.map (·.1)) := by
          simpa [norm, unlined] using hnames
        refine ⟨⟨hall.1, soundNames_left hnames'⟩, r, hr, ⟨hall.2, hnames', hfits⟩, ?_⟩
        rw [foldl_tell_addBin (binEntries_nested hr)]
        rfl
    | block line first rest content =>
      change Runs x c ((Node.block line first rest content).events key ++ entryEvents entries) d ↔ _
      rw [runs_then (fun _ => runs_block content hc) fun _ c₁ he =>
        hstep c₁ _ he (hin.keep rfl) hfresh hs]
      constructor
      · rintro ⟨hkey, r, hr, hsound, rfl⟩
        refine ⟨_, by rw [binEntries, if_pos hkey, hr]; rfl, ?_, rfl⟩
        exact ⟨hsound.1, hsound.2.1, (fits_cons (x := x) _ _).mpr ⟨fits_nil (norm c), hsound.2.2⟩⟩
      · rintro ⟨_, hmap, hsound, rfl⟩
        rw [binEntries] at hmap
        split_ifs at hmap with hkey
        obtain ⟨r, hr, rfl⟩ := Option.map_eq_some_iff.mp hmap
        have hfits := (fits_cons (x := x) _ _).mp hsound.2.2
        exact ⟨hkey, r, hr, ⟨hsound.1, hsound.2.1, hfits.2⟩, rfl⟩
    | flow line items =>
      change Runs x c ((Node.flow line items).events key ++ entryEvents entries) d ↔ _
      have hnext : ∀ f, dirsFact items = some f → c.seenSandboxWriteDirs = false →
          ∀ c₁, norm c₁ = tell x (norm c) f →
          (Runs x c₁ (entryEvents entries) d ↔ ∃ r, binEntries x entries = some r ∧
            BinsSound (norm c) (r.1, f :: r.2) ∧
            d = r.1.foldl addBin ((f :: r.2).foldl (tell x) (norm c))) := by
        intro f hdirs hseen c₁ hc₁
        obtain ⟨sources, -, -, rfl⟩ := dirsFact_iff.mp hdirs
        rw [hstep c₁ _ hc₁ (hin.keep rfl) nofun hs]
        refine exists_congr fun r => and_congr_right fun _ => ?_
        unfold BinsSound
        rw [fits_cons (x := x), and_iff_right (fits_dirs (c := norm c) |>.mpr hseen)]
        exact Iff.rfl
      rw [runs_flow_then hc hf hnext]
      simp only [binEntries_flow]
      constructor
      · rintro ⟨hkey, -, f, hdirs, r, hr, hall⟩
        exact ⟨_, ⟨hkey, f, r, hdirs, hr, rfl⟩, hall⟩
      · rintro ⟨_, ⟨hkey, f, r, hdirs, hr, rfl⟩, hall⟩
        exact ⟨hkey, fits_fact hdirs hall.1.2.2, f, hdirs, r, hr, hall⟩
    | seq header line items =>
      refine iff_of_false (not_runs fun c₁ h => ?_) (by simp [binEntries])
      simp [onEvent, entryHeader, hc.inBin] at h
    | map header line last entries =>
      refine iff_of_false (not_runs fun c₁ h => ?_) (by simp [binEntries])
      simp [onEvent, entryHeader, hc.inBin] at h

end Bins

section Entries
variable {x : Input} {c c' d : Cfg}

theorem parseSchedule_isSome (interval : Int) (value : Bytes) :
    (parseSchedule interval value).isSome = (parseSchedule 0 value).isSome := by
  unfold parseSchedule
  split_ifs <;> rfl

theorem taken {P Q : Prop} (hp : P) (hq : Q) :
    (Except.ok d : Result Cfg) = .ok c' ↔ P ∧ Q ∧ c' = d :=
  ⟨fun h => ⟨hp, hq, (Except.ok.inj h).symm⟩, fun h => congrArg _ h.2.2.symm⟩

theorem refused {P Q : Prop} {msg : Bytes} (h : P → ¬ Q) :
    (Except.error msg : Result Cfg) = .ok c' ↔ P ∧ Q ∧ c' = d :=
  ⟨nofun, fun hpq => absurd hpq.2.1 (h hpq.1)⟩

theorem applyField_iff {key value : Bytes} {line : Nat} {f : Field} (hf : fieldOf key = some f) :
    applyField x c key value line = .ok c' ↔ admits f value = true ∧
      (f = .binPath → c.seenBin = false) ∧ c' = tellField f value c := by
  unfold applyField
  dsimp only
  rw [hf]
  cases f with
  | name | url | command =>
    dsimp only
    split
    · rename_i h
      exact refused fun hle => absurd (of_decide_eq_true hle) (Nat.not_le_of_lt h)
    · rename_i h
      exact taken (decide_eq_true (Nat.le_of_not_lt h)) nofun
  | binPath =>
    dsimp only
    split
    · rename_i h
      exact refused fun _ hseen => by simp [h] at hseen
    · rename_i h
      split
      · rename_i h'
        exact refused fun hle => absurd (of_decide_eq_true hle) (Nat.not_le_of_lt h')
      · rename_i h'
        exact taken (decide_eq_true (Nat.le_of_not_lt h')) fun _ => by simpa using h
  | check =>
    unfold admits tellField
    cases parseCheck value with
    | none => exact refused nofun
    | some check => exact taken rfl nofun
  | schedule =>
    unfold admits tellField
    rw [← parseSchedule_isSome c.out.schedInterval]
    cases parseSchedule c.out.schedInterval value with
    | none => exact refused nofun
    | some schedule => exact taken rfl nofun
  | sandboxed =>
    dsimp only
    unfold tellField
    by_cases h : value = ascii "true"
    · rw [if_pos h, decide_eq_true h]
      exact taken (by simp [admits, h]) nofun
    · rw [if_neg h, decide_eq_false h]
      by_cases h' : value = ascii "false"
      · rw [if_pos h']
        exact taken (by simp [admits, h']) nofun
      · rw [if_neg h']
        exact refused fun hv => by simp [admits, h, h'] at hv
  | versionPrefix | versionSuffix | install => exact taken rfl nofun

theorem norm_tellField (f : Field) (value : Bytes) (c : Cfg) :
    norm (tellField f value c) = tellField f value (norm c) := by
  cases f <;> rfl

theorem foldl_tell_comm {gs : List Fact} {step : Cfg → Cfg}
    (h : ∀ g ∈ gs, ∀ c, tell x (step c) g = step (tell x c g)) (c : Cfg) :
    gs.foldl (tell x) (step c) = step (gs.foldl (tell x) c) := by
  induction gs generalizing c with
  | nil => rfl
  | cons g gs ih =>
    obtain ⟨hg, hrest⟩ := List.forall_mem_cons.mp h
    rw [List.foldl_cons, hg, ih hrest]
    rfl

theorem foldl_addBin_comm {step : Cfg → Cfg} (h : ∀ c e, addBin (step c) e = step (addBin c e))
    (entries : List (Bytes × Bytes)) (c : Cfg) :
    entries.foldl addBin (step c) = step (entries.foldl addBin c) := by
  induction entries generalizing c with
  | nil => rfl
  | cons e entries ih =>
    rw [List.foldl_cons, h, ih]
    rfl

theorem within_foldl_addBin {files bins dirs : Bool} (entries : List (Bytes × Bytes))
    (h : Within files bins dirs c) : Within files bins dirs (entries.foldl addBin c) := by
  induction entries generalizing c with
  | nil => exact h
  | cons e entries ih => exact ih (h.keep rfl)

theorem within_tell {files bins dirs : Bool} (h : Within files bins dirs c) (f : Fact) :
    Within files bins dirs (tell x c f) := by
  cases f with
  | field f value => cases f <;> exact h.keep rfl
  | bins entries =>
    have hbegin : Within files bins dirs (beginBins x c) := h.keep rfl
    exact (within_foldl_addBin entries hbegin).keep rfl
  | _ => exact h.keep rfl

theorem within_foldl_tell {files bins dirs : Bool} (gs : List Fact) (h : Within files bins dirs c) :
    Within files bins dirs (gs.foldl (tell x) c) := by
  induction gs generalizing c with
  | nil => exact h
  | cons g gs ih => exact ih (within_tell h g)

/-- The parts that can be told once are empty before. -/
structure Fresh (c : Cfg) : Prop where
  dirs : FreshDirs c
  files : c.seenFiles = false → c.out.files = []
  bins : c.seenBin = false → c.out.binNames = []

theorem fresh_norm : Fresh (norm c) ↔ Fresh c := by
  have hfiles : (norm c).out.files = [] ↔ c.out.files = [] := List.map_eq_nil_iff
  constructor
  · intro h
    exact ⟨freshDirs_norm.mp h.dirs, fun hs => hfiles.mp (h.files hs), h.bins⟩
  · intro h
    exact ⟨freshDirs_norm.mpr h.dirs, fun hs => hfiles.mpr (h.files hs), h.bins⟩

def enterFiles (c : Cfg) : Cfg := { c with seenFiles := true, inFiles := true }
def leaveFiles (c : Cfg) : Cfg := { c with inFiles := false }

theorem runs_filesMap {header line last : Nat} {entries : List (Bytes × Node)}
    (hc : Within false false false c) (hf : Fresh c) (hfiles : c.seenFiles = false) :
    Runs x c ((Node.map header line last entries).header filesKey ++
        (Node.map header line last entries).events filesKey) d ↔
      ∃ r, fileEntries x entries = some r ∧ soundFiles r.1 ∧ Fits (norm c) r.2 ∧
        d = (r.2 ++ [Fact.files r.1]).foldl (tell x) (norm c) := by
  have hheader : onEvent x c (.entryHeader filesKey header) =
      .ok { c with seenFiles := true, pendingFiles := true } := by
    simp [onEvent, entryHeader, hc.cur, hc.inBin, hc.inFiles, hc.inDirs, filesKey, ascii]
  have hstart : onEvent x { c with seenFiles := true, pendingFiles := true } (.mappingStart line) =
      .ok (enterFiles c) := by
    simp [onEvent, Config.mappingStart, enterFiles, hc.cur, hc.pendingFiles]
  have hin : Within true false false (enterFiles c) :=
    ⟨hc.cur, hc.pendingFiles, hc.pendingDirs, hc.pendingBin, rfl, hc.inBin, hc.inDirs, hc.block⟩
  have hempty : (norm (enterFiles c)).out.files = [] := List.map_eq_nil_iff.mpr (hf.files hfiles)
  have hnil : soundFiles (norm (enterFiles c)).out.files := by
    rw [hempty]
    exact ⟨rfl, List.nodup_nil, Nat.zero_le _⟩
  have hmap : ∀ r, fileEntries x entries = some r →
      leaveFiles (addFiles r.1 (r.2.foldl (tell x) (norm (enterFiles c)))) =
        (r.2 ++ [Fact.files r.1]).foldl (tell x) (norm c) := by
    intro r hr
    have hstep : ∀ g ∈ r.2, ∀ e, tell x (enterFiles e) g = enterFiles (tell x e g) := by
      intro g hg e
      have hdirs := fileEntries_dirs hr g hg
      cases g with
      | dirs sources => rfl
      | _ => cases hdirs
    have hcomm : r.2.foldl (tell x) (norm (enterFiles c)) =
        enterFiles (r.2.foldl (tell x) (norm c)) := foldl_tell_comm hstep (norm c)
    have hflags := within_foldl_tell (x := x) r.2 (within_norm.mpr hc)
    rw [hcomm, List.foldl_append, List.foldl_cons, List.foldl_nil]
    simp [leaveFiles, addFiles, enterFiles, tell, hflags.inFiles]
  have hbody : ∀ e, Runs x (enterFiles c) (entryEvents entries) e ↔ ∃ r,
      (fileEntries x entries = some r ∧ soundFiles r.1 ∧ Fits (norm c) r.2) ∧
        e = addFiles r.1 (r.2.foldl (tell x) (norm (enterFiles c))) := by
    intro e
    rw [runs_files hin hf.dirs hnil, hempty]
    simp only [List.nil_append, and_assoc]
    exact Iff.rfl
  have hend : ∀ (r : List EmbeddedFile × List Fact) (c₁ : Cfg),
      fileEntries x entries = some r ∧ soundFiles r.1 ∧ Fits (norm c) r.2 →
      norm c₁ = addFiles r.1 (r.2.foldl (tell x) (norm (enterFiles c))) →
      ∀ c₂, onEvent x c₁ (.mappingEnd last) = .ok c₂ ↔ True ∧ c₂ = leaveFiles c₁ := by
    intro r c₁ _ he c₂
    have hflags : Within true false false c₁ := by
      rw [← within_norm, he]
      exact (within_foldl_tell r.2 (within_norm.mpr hin)).keep rfl
    simp only [onEvent, Config.mappingEnd, hflags.inFiles, if_true, true_and]
    exact ⟨fun h => (Except.ok.inj h).symm, fun h => congrArg _ h.symm⟩
  rw [Node.header, Node.events, List.singleton_append, runs_ok hheader, runs_ok hstart,
    runs_end hbody hend (fun _ => rfl)]
  simp only [true_and, and_assoc]
  exact exists_congr fun r => and_congr_right fun hr => by rw [hmap r hr]

def enterBins (c : Cfg) : Cfg := { c with inBinMap := true }
def leaveBins (c : Cfg) : Cfg := { c with inBinMap := false }

theorem leave_enterBins (h : c.inBinMap = false) :
    leaveBins (chooseBin (enterBins c)) = chooseBin c :=
  calc leaveBins (chooseBin (enterBins c))
    _ = { chooseBin c with inBinMap := c.inBinMap } := by
      rw [h]
      rfl
    _ = chooseBin c := rfl

theorem foldl_addBin_names (entries : List (Bytes × Bytes)) (c : Cfg) :
    (entries.foldl addBin c).out.binNames = c.out.binNames ++ entries.map (·.1) := by
  induction entries generalizing c with
  | nil => exact (List.append_nil _).symm
  | cons e entries ih =>
    rw [List.foldl_cons, ih, List.map_cons]
    simp [addBin]

theorem foldl_tell_names {gs : List Fact} (hgs : ∀ g ∈ gs, tellsNested g = true) (c : Cfg) :
    (gs.foldl (tell x) c).out.binNames = c.out.binNames := by
  induction gs generalizing c with
  | nil => rfl
  | cons g gs ih =>
    obtain ⟨hg, hrest⟩ := List.forall_mem_cons.mp hgs
    rw [List.foldl_cons, ih hrest]
    cases g with
    | dirs sources => rfl
    | install text indent => rfl
    | _ => cases hg

theorem soundBins_iff (entries : List (Bytes × Bytes)) : soundBins entries ↔ entries ≠ [] ∧
    entries.all (fun e => e.1 ≠ [] && soundBin e) = true ∧ soundNames (entries.map (·.1)) := by
  unfold soundBins soundNames
  rw [List.length_map]

theorem finishBinMap_iff {line : Nat} : finishBinMap x c line = .ok c' ↔
    c.out.binNames ≠ [] ∧ c' = leaveBins (chooseBin c) := by
  unfold finishBinMap
  dsimp only
  split
  · rename_i h
    exact ⟨nofun, fun hne => absurd h hne.1⟩
  · rename_i first names h
    have hchoose : leaveBins (chooseBin c) = { c with
        inBinMap := false
        out := if c.out.binChoice = .named then c.out
          else { c.out with bin := c.binDefault, binName := first, binChoice := .default } } := by
      simp [leaveBins, chooseBin, h]
    have hne : c.out.binNames ≠ [] := by
      rw [h]
      exact List.cons_ne_nil _ _
    rw [hchoose]
    exact ⟨fun hok => ⟨hne, (Except.ok.inj hok).symm⟩, fun hok => congrArg _ hok.2.symm⟩

theorem norm_chooseBin (c : Cfg) : norm (chooseBin c) = chooseBin (norm c) := by
  by_cases h : c.out.binChoice = .named
  · simp [chooseBin, norm, unlined, h]
  · simp [chooseBin, norm, unlined, h]

theorem runs_binMap {header line last : Nat} {entries : List (Bytes × Node)}
    (hc : Within false false false c) (hf : Fresh c) :
    Runs x c ((Node.map header line last entries).header binKey ++
        (Node.map header line last entries).events binKey) d ↔ c.seenBin = false ∧
      ∃ r, binEntries x entries = some r ∧ soundBins r.1 ∧ Fits (beginBins x (norm c)) r.2 ∧
        d = (r.2 ++ [Fact.bins r.1]).foldl (tell x) (norm c) := by
  have hheader : ∀ c₁, onEvent x c (.entryHeader binKey header) = .ok c₁ ↔
      c.seenBin = false ∧ c₁ = { c with seenBin := true, pendingBinMap := true } := by
    intro c₁
    cases hseen : c.seenBin with
    | true => simp [onEvent, entryHeader, hc.cur, hc.inBin, hc.inFiles, hc.inDirs, hseen, binKey]
    | false =>
      have hrun : onEvent x c (.entryHeader binKey header) =
          .ok { c with seenBin := true, pendingBinMap := true } := by
        simp [onEvent, entryHeader, hc.cur, hc.inBin, hc.inFiles, hc.inDirs, hseen, binKey]
      rw [hrun]
      exact ⟨fun h => ⟨rfl, (Except.ok.inj h).symm⟩, fun h => by rw [h.2]⟩
  have hstart : onEvent x { c with seenBin := true, pendingBinMap := true } (.mappingStart line) =
      .ok (enterBins (beginBins x c)) := by
    cases hx : x.invoked <;>
      simp [onEvent, Config.mappingStart, enterBins, beginBins, hc.cur, hc.pendingFiles,
        hc.pendingBin, hx]
  have hin : Within false true false (enterBins (beginBins x c)) :=
    ⟨hc.cur, hc.pendingFiles, hc.pendingDirs, hc.pendingBin, hc.inFiles, rfl, hc.inDirs, hc.block⟩
  have hbegin : norm (enterBins (beginBins x c)) = enterBins (beginBins x (norm c)) := rfl
  have hbody : c.seenBin = false → ∀ e, Runs x (enterBins (beginBins x c)) (entryEvents entries) e ↔
      ∃ r, (binEntries x entries = some r ∧ r.1.all (fun e => e.1 ≠ [] && soundBin e) = true ∧
        soundNames (r.1.map (·.1)) ∧ Fits (beginBins x (norm c)) r.2) ∧
        e = r.1.foldl addBin (r.2.foldl (tell x) (enterBins (beginBins x (norm c)))) := by
    intro hseen e
    have hempty : (enterBins (beginBins x c)).out.binNames = [] := hf.bins hseen
    rw [runs_bins hin hf.dirs (by rw [hempty]; exact ⟨List.nodup_nil, Nat.zero_le _⟩), hbegin]
    unfold BinsSound
    rw [show (enterBins (beginBins x (norm c))).out.binNames = [] from hempty]
    simp only [List.nil_append, and_assoc]
    exact Iff.rfl
  have hend : c.seenBin = false → ∀ (r : List (Bytes × Bytes) × List Fact) (c₁ : Cfg),
      binEntries x entries = some r ∧ r.1.all (fun e => e.1 ≠ [] && soundBin e) = true ∧
        soundNames (r.1.map (·.1)) ∧ Fits (beginBins x (norm c)) r.2 →
      norm c₁ = r.1.foldl addBin (r.2.foldl (tell x) (enterBins (beginBins x (norm c)))) →
      ∀ c₂, onEvent x c₁ (.mappingEnd last) = .ok c₂ ↔ r.1 ≠ [] ∧
        c₂ = leaveBins (chooseBin c₁) := by
    intro hseen r c₁ hr he c₂
    have hflags : Within false true false c₁ := by
      rw [← within_norm, he]
      exact within_foldl_addBin _ (within_foldl_tell r.2 (within_norm.mpr hin))
    have hrun : onEvent x c₁ (.mappingEnd last) = finishBinMap x c₁ last := by
      simp [onEvent, Config.mappingEnd, hflags.inFiles, hflags.inBin]
    have hnames : c₁.out.binNames = r.1.map (·.1) := by
      change (norm c₁).out.binNames = _
      rw [he, foldl_addBin_names, foldl_tell_names (binEntries_nested hr.1)]
      exact congrArg (· ++ _) (hf.bins hseen)
    rw [hrun, finishBinMap_iff, hnames]
    simp
  have hmap : ∀ r, binEntries x entries = some r →
      leaveBins (chooseBin (r.1.foldl addBin
        (r.2.foldl (tell x) (enterBins (beginBins x (norm c)))))) =
      (r.2 ++ [Fact.bins r.1]).foldl (tell x) (norm c) := by
    intro r hr
    have hstep : ∀ g ∈ r.2, ∀ e, tell x (enterBins (beginBins x e)) g =
        enterBins (beginBins x (tell x e g)) := by
      intro g hg e
      have hnested := binEntries_nested hr g hg
      cases g with
      | dirs sources => rfl
      | install text indent => rfl
      | _ => cases hnested
    have hcomm : r.2.foldl (tell x) (enterBins (beginBins x (norm c))) =
        enterBins (beginBins x (r.2.foldl (tell x) (norm c))) := foldl_tell_comm hstep (norm c)
    have hadd : ∀ c e, addBin (enterBins c) e = enterBins (addBin c e) := fun _ _ => rfl
    have hflags : Within false false false (beginBins x (r.2.foldl (tell x) (norm c))) :=
      (within_foldl_tell (x := x) r.2 (within_norm.mpr hc)).keep rfl
    have hbin := (within_foldl_addBin r.1 hflags).inBin
    rw [hcomm, foldl_addBin_comm hadd, List.foldl_append]
    exact leave_enterBins hbin
  rw [Node.header, Node.events, List.singleton_append, runs_cons]
  simp only [hheader]
  have hnorm : ∀ c₁, norm (leaveBins (chooseBin c₁)) = leaveBins (chooseBin (norm c₁)) :=
    fun c₁ => congrArg leaveBins (norm_chooseBin c₁)
  have hrun : c.seenBin = false → (Runs x { c with seenBin := true, pendingBinMap := true }
      (.mappingStart line :: (entryEvents entries ++ [.mappingEnd last])) d ↔
      ∃ r, binEntries x entries = some r ∧ soundBins r.1 ∧ Fits (beginBins x (norm c)) r.2 ∧
        d = (r.2 ++ [Fact.bins r.1]).foldl (tell x) (norm c)) := by
    intro hseen
    rw [runs_ok hstart, runs_end (hbody hseen) (hend hseen) hnorm]
    refine exists_congr fun r => ?_
    rw [soundBins_iff]
    constructor
    · rintro ⟨⟨hr, hall, hnames, hfits⟩, hne, rfl⟩
      exact ⟨hr, ⟨hne, hall, hnames⟩, hfits, hmap r hr⟩
    · rintro ⟨hr, ⟨hne, hall, hnames⟩, hfits, rfl⟩
      exact ⟨⟨hr, hall, hnames, hfits⟩, hne, (hmap r hr).symm⟩
  constructor
  · rintro ⟨_, ⟨hseen, rfl⟩, h⟩
    exact ⟨hseen, (hrun hseen).mp h⟩
  · rintro ⟨hseen, h⟩
    exact ⟨_, ⟨hseen, rfl⟩, (hrun hseen).mpr h⟩

theorem fits_files {gs : List Fact} {files : List EmbeddedFile} :
    Fits c (gs ++ [Fact.files files]) ↔ Fits c gs := by
  simp [Fits, isDirs, takesBin]

theorem fits_bins {gs : List Fact} {entries : List (Bytes × Bytes)}
    (hgs : ∀ g ∈ gs, tellsNested g = true) :
    Fits c (gs ++ [Fact.bins entries]) ↔ c.seenBin = false ∧ Fits (beginBins x c) gs := by
  have hbin : gs.countP takesBin = 0 := by
    rw [List.countP_eq_zero]
    intro g hg htakes
    have hnested := hgs g hg
    cases g with
    | dirs sources => cases htakes
    | install text indent => cases htakes
    | _ => cases hnested
  cases hseen : c.seenBin <;> simp [Fits, hbin, isDirs, takesBin, beginBins, hseen]

theorem fits_field {f : Field} {value : Bytes} :
    Fits c [.field f value] ↔ (f = .binPath → c.seenBin = false) := by
  by_cases hf : f = .binPath
  · cases h : c.seenBin <;> cases h' : c.seenSandboxWriteDirs <;> simp [Fits, isDirs,
      takesBin, hf, h, h']
  · simp [Fits, isDirs, takesBin, hf, Bool.toNat_le]

theorem runs_entry {key : Bytes} {node : Node} (hc : Within false false false c) (hf : Fresh c)
    (hfiles : key = filesKey → c.seenFiles = false) :
    Runs x c (node.header key ++ node.events key) d ↔ ∃ gs, facts x (key, node) = some gs ∧
      Fits (norm c) gs ∧ d = gs.foldl (tell x) (norm c) := by
  have hone : ∀ items, (key = dirsKey ∧ c.seenSandboxWriteDirs = false ∧
      ∃ f, dirsFact items = some f ∧ d = tell x (norm c) f) ↔
      ∃ gs, (if key = dirsKey then (dirsFact items).map ([·]) else none) = some gs ∧
        Fits (norm c) gs ∧ d = gs.foldl (tell x) (norm c) := by
    intro items
    by_cases hkey : key = dirsKey
    · rw [and_iff_right hkey, if_pos hkey]
      constructor
      · rintro ⟨hseen, f, hdirs, rfl⟩
        obtain ⟨sources, -, -, rfl⟩ := dirsFact_iff.mp hdirs
        exact ⟨_, by rw [hdirs]; rfl, fits_dirs.mpr hseen, rfl⟩
      · rintro ⟨_, hmap, hfits, rfl⟩
        obtain ⟨f, hdirs, rfl⟩ := Option.map_eq_some_iff.mp hmap
        exact ⟨fits_fact (c := norm c) hdirs hfits, f, hdirs, rfl⟩
    · rw [if_neg hkey]
      exact iff_of_false (fun h => hkey h.1) nofun
  cases node with
  | scalar value line =>
    change Runs x c [.scalar key value line] d ↔ _
    rw [runs_cons, facts]
    simp only [runs_nil]
    cases hfield : fieldOf key with
    | none =>
      refine iff_of_false ?_ nofun
      rintro ⟨c₁, hev, -⟩
      by_cases hkey : key = []
      · simp [onEvent, Config.scalar, hc.cur, hc.inDirs, hkey] at hev
      · simp [onEvent, Config.scalar, hc.cur, hc.inBin, hc.inFiles, hkey, applyField, hfield] at hev
    | some f =>
      have hkey : key ≠ [] := by
        rintro rfl
        cases hfield
      have hrun : onEvent x c (.scalar key value line) = applyField x c key value line := by
        simp [onEvent, Config.scalar, hc.cur, hc.inBin, hc.inFiles, hkey]
      simp only [hrun, applyField_iff hfield, Option.bind_some]
      have hfits : Fits (norm c) [.field f value] ↔ (f = .binPath → c.seenBin = false) := fits_field
      constructor
      · rintro ⟨_, ⟨hv, hbin, rfl⟩, rfl⟩
        exact ⟨_, if_pos hv, hfits.mpr hbin, norm_tellField ..⟩
      · rintro ⟨gs, hgs, hbin, rfl⟩
        split_ifs at hgs with hv
        obtain rfl := Option.some.inj hgs
        exact ⟨_, ⟨hv, hfits.mp hbin, rfl⟩, (norm_tellField ..).symm⟩
  | block line first rest content =>
    change Runs x c ((Node.block line first rest content).events key) d ↔ _
    rw [runs_block content hc, facts]
    by_cases hkey : key = installKey
    · rw [if_pos hkey, and_iff_right hkey]
      constructor
      · rintro rfl
        exact ⟨_, rfl, (fits_cons (x := x) _ _).mpr ⟨fits_nil (norm c), fits_nil _⟩, rfl⟩
      · rintro ⟨_, hgs, -, rfl⟩
        obtain rfl := Option.some.inj hgs
        rfl
    · rw [if_neg hkey]
      exact iff_of_false (fun h => hkey h.1) nofun
  | flow line items =>
    change Runs x c ((Node.flow line items).events key) d ↔ _
    rw [runs_flow hc hf.dirs, hone items, facts]
  | seq header line items => rw [runs_seq hc hf.dirs, hone items, facts]
  | map header line last entries =>
    rw [facts]
    by_cases hkey : key = filesKey
    · subst hkey
      rw [runs_filesMap hc hf (hfiles rfl), if_pos rfl]
      constructor
      · rintro ⟨r, hr, hsound, hfits, rfl⟩
        exact ⟨_, by rw [hr]; exact if_pos hsound, fits_files.mpr hfits, rfl⟩
      · rintro ⟨gs, hgs, hfits, rfl⟩
        obtain ⟨r, hr, hif⟩ := Option.bind_eq_some_iff.mp hgs
        split_ifs at hif with hsound
        obtain rfl := Option.some.inj hif
        exact ⟨r, hr, hsound, fits_files.mp hfits, rfl⟩
    · rw [if_neg hkey]
      by_cases hbin : key = binKey
      · subst hbin
        rw [runs_binMap hc hf, if_pos rfl]
        constructor
        · rintro ⟨hseen, r, hr, hsound, hfits, rfl⟩
          refine ⟨_, by rw [hr]; exact if_pos hsound, ?_, rfl⟩
          exact (fits_bins (binEntries_nested hr)).mpr ⟨hseen, hfits⟩
        · rintro ⟨gs, hgs, hfits, rfl⟩
          obtain ⟨r, hr, hif⟩ := Option.bind_eq_some_iff.mp hgs
          split_ifs at hif with hsound
          obtain rfl := Option.some.inj hif
          obtain ⟨hseen, hfits⟩ := (fits_bins (binEntries_nested hr)).mp hfits
          exact ⟨hseen, r, hr, hsound, hfits, rfl⟩
      · rw [if_neg hbin]
        refine iff_of_false ?_ nofun
        rw [Node.header, Node.events, List.singleton_append, runs_cons]
        rintro ⟨c₁, hev, hrest⟩
        rcases entryHeader_ok hev with ⟨hkey', -⟩ | ⟨hkey', -⟩ | ⟨-, rfl⟩ | rfl
        · exact hbin hkey'
        · exact hkey hkey'
        · refine not_runs (fun c₂ h => ?_) hrest
          simp [onEvent, Config.mappingStart, hc.cur, hc.pendingFiles, hc.pendingBin] at h
        · refine not_runs (fun c₂ h => ?_) hrest
          simp [onEvent, Config.mappingStart, hc.cur, hc.pendingFiles, hc.pendingDirs,
            hc.pendingBin] at h

end Entries

end Hacman.Facts
