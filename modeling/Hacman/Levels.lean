import Hacman.Config

/-!
# Nesting levels

The documents behind a stream of events: trees of scalars, block scalars, sequences and
mappings, written out in the parser's documented order. What an entry means is read off
its key and its level; the flags of `hmConfigParse` are related to that level by one
predicate on the bookkeeping record.
-/

namespace Hacman.Levels
open Octets Util Config

section Documents

/-- A block scalar starts with a line that is not empty. Block containers have a header
line of their own as values of a mapping. -/
inductive Node
  | scalar (value : Bytes) (line : Nat)
  | block (line : Nat) (first : Slice) (rest : List Slice) (content : first.len ≠ 0)
  | flow (line : Nat) (items : List Node)
  | seq (header line : Nat) (items : List Node)
  | map (header line last : Nat) (entries : List (Bytes × Node))

def Node.header (key : Bytes) : Node → List Event
  | .seq header _ _ => [.entryHeader key header]
  | .map header _ _ _ => [.entryHeader key header]
  | _ => []

mutual

def Node.events (key : Bytes) : Node → List Event
  | .scalar value line => [.scalar key value line]
  | .block line first rest _ =>
    .blockStart key line :: .blockLine first :: (rest.map .blockLine ++ [.blockEnd])
  | .flow line items => .sequenceStart key line :: (itemEvents items ++ [.sequenceEnd])
  | .seq _ line items => .sequenceStart [] line :: (itemEvents items ++ [.sequenceEnd])
  | .map _ line last entries => .mappingStart line :: (entryEvents entries ++ [.mappingEnd last])

def itemEvents : List Node → List Event
  | [] => []
  | item :: items => item.events [] ++ itemEvents items

def entryEvents : List (Bytes × Node) → List Event
  | [] => []
  | (key, node) :: entries => node.header key ++ node.events key ++ entryEvents entries

end

structure Document where
  line : Nat
  root : Node

def Document.events (d : Document) : List Event :=
  .documentStart d.line :: (d.root.events [] ++ [.documentEnd])

/-- Comments and a shebang may stand anywhere. -/
def isTrivia : Event → Bool
  | .shebang | .comment => true
  | _ => false

/-- The documented order of the events of a stream, which ends the input. -/
def Documented (evs : List Event) (docs : List Document) : Prop :=
  evs.filter (fun ev => !isTrivia ev) =
    .streamStart :: (docs.flatMap Document.events ++ [.streamEnd])

end Documents

section Meaning
variable (x : Input)

/-- The parts of a project that come from more than one place in the file. -/
structure Parts where
  install : Bytes × Nat := ([], 0)
  dirs : List Bytes := []
  files : List EmbeddedFile := []
  names : List Bytes := []

def partsOf (p : Project) : Parts where
  install := (p.install, p.installIndent)
  dirs := p.sandboxWriteDirs.map (·.source)
  files := p.files
  names := p.binNames

def lastEnd (stop : Nat) (line : Slice) : Nat := if line.len = 0 then stop else line.off + line.len

/-- A block's region, from the line of its first bytes to its last ones, and the columns
before them. -/
def blockText (first : Slice) (rest : List Slice) : Bytes × Nat :=
  let start := lineStart x.buf first.off
  (region x.buf start (rest.foldl lastEnd (first.off + first.len)), first.off - start)

def scalarValues : List Node → List Bytes
  | [] => []
  | .scalar value _ :: items => value :: scalarValues items
  | _ :: items => scalarValues items

def blockFiles : List (Bytes × Node) → List EmbeddedFile
  | [] => []
  | (key, .block line first rest _) :: entries =>
    ⟨key, (blockText x first rest).1, (blockText x first rest).2, line⟩ :: blockFiles entries
  | _ :: entries => blockFiles entries

def scalarKeys : List (Bytes × Node) → List Bytes
  | [] => []
  | (key, .scalar _ _) :: entries => key :: scalarKeys entries
  | _ :: entries => scalarKeys entries

def installKey : Bytes := ascii "install"
def dirsKey : Bytes := ascii "sandbox-write-dirs"
def filesKey : Bytes := ascii "files"
def binKey : Bytes := ascii "bin-path"

def Parts.add (t : Parts) : Bytes × Node → Parts
  | (key, .scalar value _) => if key = installKey then { t with install := (value, 0) } else t
  | (key, .block _ first rest _) =>
    if key = installKey then { t with install := blockText x first rest } else t
  | (key, .flow _ items) => if key = dirsKey then { t with dirs := t.dirs ++ scalarValues items }
    else t
  | (key, .seq _ _ items) => if key = dirsKey then { t with dirs := t.dirs ++ scalarValues items }
    else t
  | (key, .map _ _ _ entries) =>
    if key = filesKey then { t with files := t.files ++ blockFiles x entries }
    else if key = binKey then { t with names := t.names ++ scalarKeys entries }
    else t

def Node.isScalar : Node → Bool
  | .scalar _ _ => true
  | _ => false

def Node.isBlock : Node → Bool
  | .block _ _ _ _ => true
  | _ => false

def Node.isFlow : Node → Bool
  | .flow _ _ => true
  | _ => false

def Proper : Bytes × Node → Prop
  | (key, .map _ _ _ entries) =>
    (key = filesKey → ∀ e ∈ entries, e.2.isBlock = true) ∧
      (key = binKey → ∀ e ∈ entries, e.2.isScalar = true)
  | _ => True

/-- Entries of a nested mapping that spell a key of the project. -/
def Misplaced : Bytes × Node → Prop
  | (key, .map _ _ _ entries) =>
    (key = filesKey ∨ key = binKey) ∧ (∃ e ∈ entries, e.1 = dirsKey ∧ e.2.isFlow = true) ∨
      key = binKey ∧ ∃ e ∈ entries, e.1 = installKey ∧ e.2.isBlock = true
  | _ => False

/-- One document with one mapping, whose direct entries alone decide. -/
def LevelsDecide (docs : List Document) (p : Project) : Prop :=
  ∃ line header start last root, docs = [⟨line, .map header start last root⟩] ∧
    partsOf p = root.foldl (Parts.add x) {} ∧ ∀ e ∈ root, Proper e

def HasMisplaced (docs : List Document) : Prop :=
  ∃ d ∈ docs, ∃ header start last root, d.root = .map header start last root ∧
    ∃ e ∈ root, Misplaced e

end Meaning

section Feed
variable (x : Input)

def feed (c : Cfg) : List Event → Result Cfg
  | [] => .ok c
  | ev :: evs =>
    match onEvent x c ev with
    | .error msg => .error msg
    | .ok c => feed c evs

variable {x : Input} {c c' : Cfg}

theorem feed_cons {ev : Event} {evs : List Event} :
    feed x c (ev :: evs) = .ok c' ↔ ∃ c₁, onEvent x c ev = .ok c₁ ∧ feed x c₁ evs = .ok c' := by
  rw [feed]
  cases onEvent x c ev with
  | error msg => simp
  | ok c₁ => simp

theorem feed_append {evs evs' : List Event} :
    feed x c (evs ++ evs') = .ok c' ↔ ∃ c₁, feed x c evs = .ok c₁ ∧ feed x c₁ evs' = .ok c' := by
  induction evs generalizing c with
  | nil => simp [feed]
  | cons ev evs ih =>
    rw [List.cons_append, feed_cons]
    constructor
    · rintro ⟨c₁, h₁, h⟩
      obtain ⟨c₂, h₂, h₃⟩ := ih.mp h
      exact ⟨c₂, feed_cons.mpr ⟨c₁, h₁, h₂⟩, h₃⟩
    · rintro ⟨c₂, h₂, h₃⟩
      obtain ⟨c₁, h₁, h⟩ := feed_cons.mp h₂
      exact ⟨c₁, h₁, ih.mpr ⟨c₂, h, h₃⟩⟩

theorem feed_single {ev : Event} : feed x c [ev] = .ok c' ↔ onEvent x c ev = .ok c' := by
  rw [feed_cons]
  simp [feed]

theorem parseFrom_trivia (evs : List Event) :
    parseFrom x c evs = parseFrom x c (evs.filter fun ev => !isTrivia ev) := by
  induction evs generalizing c with
  | nil => rfl
  | cons ev evs ih =>
    cases ht : isTrivia ev with
    | true =>
      rw [List.filter_cons_of_neg (by simp [ht]), ← ih]
      cases ev <;> first | rfl | cases ht
    | false =>
      rw [List.filter_cons_of_pos (by simp [ht])]
      cases ev with
      | streamEnd => rfl
      | _ => simp only [parseFrom, ih]

theorem parseFrom_feed {evs evs' : List Event} (hend : .streamEnd ∉ evs) :
    parseFrom x c (evs ++ evs') = match feed x c evs with
      | .error msg => .error msg
      | .ok c' => parseFrom x c' evs' := by
  induction evs generalizing c with
  | nil => rfl
  | cons ev evs ih =>
    obtain ⟨hne, hrest⟩ := not_or.mp (fun hmem => hend (List.mem_cons.mpr hmem))
    have hstep : parseFrom x c ((ev :: evs) ++ evs') =
        match onEvent x c ev with
        | .error msg => .error msg
        | .ok c => parseFrom x c (evs ++ evs') := by
      cases ev <;> first | rfl | exact absurd rfl hne
    rw [hstep, feed]
    cases onEvent x c ev with
    | error msg => rfl
    | ok c₁ => exact ih hrest

theorem parseFrom_append {evs evs' : List Event} {p : Project} (hend : .streamEnd ∉ evs) :
    parseFrom x c (evs ++ evs') = .ok p ↔ ∃ c', feed x c evs = .ok c' ∧
      parseFrom x c' evs' = .ok p := by
  rw [parseFrom_feed hend]
  cases feed x c evs with
  | error msg => simp
  | ok c' => simp

theorem feed_of_parse {evs : List Event} {p : Project} (hend : .streamEnd ∉ evs)
    (h : parseFrom x c (evs ++ [.streamEnd]) = .ok p) :
    ∃ c', feed x c evs = .ok c' ∧ c'.finished = true ∧ p = c'.out := by
  obtain ⟨c', hfeed, hlast⟩ := (parseFrom_append hend).mp h
  unfold parseFrom at hlast
  split_ifs at hlast with hf
  cases hlast
  exact ⟨c', hfeed, hf, rfl⟩

end Feed

section Blocks
variable {x : Input} {c c' : Cfg}

theorem blockLine_rest {b : Block} {start : Nat} (line : Slice) (hs : c.blockStart = some start) :
    blockLine x c b line = { c with blockEnd := lastEnd c.blockEnd line } := by
  unfold blockLine lastEnd
  split
  · rfl
  · split
    · rfl
    · rename_i hnone
      rw [hs] at hnone
      cases hnone

theorem onEvent_blockLine {b : Block} (line : Slice) (hb : c.block = some b) :
    onEvent x c (.blockLine line) = .ok (blockLine x c b line) := by
  unfold onEvent
  rw [hb]

theorem feed_rest {b : Block} {start : Nat} (rest : List Slice) (hb : c.block = some b)
    (hs : c.blockStart = some start) :
    feed x c (rest.map .blockLine) = .ok { c with blockEnd := rest.foldl lastEnd c.blockEnd } := by
  induction rest generalizing c with
  | nil => rfl
  | cons line rest ih =>
    have hline : onEvent x c (.blockLine line) =
        .ok { c with blockEnd := lastEnd c.blockEnd line } := by
      rw [onEvent_blockLine line hb, blockLine_rest line hs]
    rw [List.map_cons, feed, hline]
    exact ih hb hs

def indented (b : Block) (indent : Nat) (p : Project) : Project :=
  match b with
  | .install => { p with installIndent := indent }
  | .file i => { p with files := p.files.modify i (setIndent indent) }

def filled (b : Block) (content : Bytes) (p : Project) : Project :=
  match b with
  | .install => { p with install := content }
  | .file i => { p with files := p.files.modify i (setContent content) }

theorem feed_lines {b : Block} {first : Slice} {rest : List Slice} (hb : c.block = some b)
    (hs : c.blockStart = none) (hf : first.len ≠ 0) :
    feed x c (.blockLine first :: (rest.map .blockLine ++ [.blockEnd])) = .ok { c with
      block := none
      blockStart := some (lineStart x.buf first.off)
      blockEnd := rest.foldl lastEnd (first.off + first.len)
      out := filled b (blockText x first rest).1
        (indented b (blockText x first rest).2 c.out) } := by
  have hfirst : onEvent x c (.blockLine first) = .ok { c with
      blockStart := some (lineStart x.buf first.off)
      blockEnd := first.off + first.len
      out := indented b (blockText x first rest).2 c.out } := by
    rw [onEvent_blockLine first hb, blockLine, if_neg hf, hs]
    cases b <;> rfl
  rw [feed, hfirst]
  refine feed_append.mpr ⟨_, feed_rest rest hb rfl, ?_⟩
  rw [feed_single]
  change Except.ok (blockEnd x _) = _
  unfold blockEnd
  dsimp only
  rw [hb]
  cases b <;> rfl

end Blocks

section Places
variable {x : Input} {c c' : Cfg}

inductive Place
  | root
  | files
  | bins
  | dirs
  deriving DecidableEq

/-- Between two entries, inside the mappings and sequences that the arguments say. -/
structure Within (files bins dirs : Bool) (c : Cfg) : Prop where
  cur : c.cur = true
  pendingFiles : c.pendingFiles = false
  pendingDirs : c.pendingSandboxWriteDirs = false
  pendingBin : c.pendingBinMap = false
  inFiles : c.inFiles = files
  inBin : c.inBinMap = bins
  inDirs : c.inSandboxWriteDirs = dirs
  block : c.block = none

theorem Within.keep {files bins dirs : Bool} (h : Within files bins dirs c) (hc : c' = { c with
    out := c'.out, started := c'.started, finished := c'.finished, seenCheck := c'.seenCheck
    seenVersion := c'.seenVersion, seenInstall := c'.seenInstall, seenFiles := c'.seenFiles
    seenSandboxWriteDirs := c'.seenSandboxWriteDirs, seenBin := c'.seenBin
    binDefault := c'.binDefault, invokedName := c'.invokedName
    blockStart := c'.blockStart, blockEnd := c'.blockEnd }) : Within files bins dirs c' := by
  rw [hc]
  exact ⟨h.cur, h.pendingFiles, h.pendingDirs, h.pendingBin, h.inFiles, h.inBin, h.inDirs, h.block⟩

structure At (place : Place) (c : Cfg) : Prop where
  cur : c.cur = true
  started : c.started = true
  pendingFiles : c.pendingFiles = false
  pendingDirs : c.pendingSandboxWriteDirs = false
  pendingBin : c.pendingBinMap = false
  inFiles : c.inFiles = decide (place = .files)
  inBin : c.inBinMap = decide (place = .bins)
  inDirs : c.inSandboxWriteDirs = decide (place = .dirs)
  block : c.block = none

theorem at_iff {place : Place} : At place c ↔ c.started = true ∧
    Within (decide (place = .files)) (decide (place = .bins)) (decide (place = .dirs)) c :=
  ⟨fun h => ⟨h.started, h.cur, h.pendingFiles, h.pendingDirs, h.pendingBin, h.inFiles, h.inBin,
    h.inDirs, h.block⟩, fun ⟨hs, h⟩ => ⟨h.cur, hs, h.pendingFiles, h.pendingDirs, h.pendingBin,
    h.inFiles, h.inBin, h.inDirs, h.block⟩⟩

theorem At.keep {place : Place} (h : At place c) (hs : c'.started = c.started) (hc : c' = { c with
    out := c'.out, started := c'.started, finished := c'.finished, seenCheck := c'.seenCheck
    seenVersion := c'.seenVersion, seenInstall := c'.seenInstall, seenFiles := c'.seenFiles
    seenSandboxWriteDirs := c'.seenSandboxWriteDirs, seenBin := c'.seenBin
    binDefault := c'.binDefault, invokedName := c'.invokedName
    blockStart := c'.blockStart, blockEnd := c'.blockEnd }) : At place c' :=
  at_iff.mpr ⟨hs.trans h.started, (at_iff.mp h).2.keep hc⟩

theorem feed_items {items : List Node} (hc : At .dirs c)
    (h : feed x c (itemEvents items) = .ok c') : At .dirs c' ∧
      partsOf c'.out =
        { partsOf c.out with dirs := (partsOf c.out).dirs ++ scalarValues items } := by
  induction items generalizing c with
  | nil =>
    cases h
    exact ⟨hc, by simp [scalarValues]⟩
  | cons item items ih =>
    obtain ⟨c₁, h₁, hrest⟩ := feed_append.mp h
    cases item with
    | scalar value line =>
      rw [Node.events, feed_single] at h₁
      have hadd : addSandboxWriteDir x c value line = .ok c₁ := by
        simpa [onEvent, Config.scalar, hc.cur, hc.inDirs] using h₁
      have hc₁ := addSandboxWriteDir_ok hadd
      have hat : At .dirs c₁ := by
        rw [hc₁]
        exact hc.keep rfl rfl
      obtain ⟨hat', hparts⟩ := ih hat hrest
      refine ⟨hat', hparts.trans ?_⟩
      rw [hc₁]
      simp [partsOf, scalarValues]
    | block line first rest content =>
      obtain ⟨c₂, h₂, -⟩ := feed_cons.mp h₁
      simp [onEvent, blockScalarStart, hc.cur, hc.inFiles, ascii] at h₂
    | flow line items =>
      obtain ⟨c₂, h₂, -⟩ := feed_cons.mp h₁
      simp [onEvent, Config.sequenceStart, hc.cur, hc.pendingDirs, ascii] at h₂
    | seq header line items =>
      obtain ⟨c₂, h₂, -⟩ := feed_cons.mp h₁
      simp [onEvent, Config.sequenceStart, hc.cur, hc.pendingDirs, ascii] at h₂
    | map header line last entries =>
      obtain ⟨c₂, h₂, -⟩ := feed_cons.mp h₁
      simp [onEvent, Config.mappingStart, hc.cur, hc.pendingFiles, hc.pendingDirs,
        hc.pendingBin] at h₂

theorem modify_snoc {α : Type} (xs : List α) (a : α) (f : α → α) :
    (xs ++ [a]).modify xs.length f = xs ++ [f a] := by
  induction xs with
  | nil => rfl
  | cons y ys ih => simp [ih]

theorem feed_file {key : Bytes} {line : Nat} {first : Slice} {rest : List Slice}
    (hf : first.len ≠ 0) (hc : At .files c)
    (h : feed x c ((Node.block line first rest hf).events key) = .ok c') : At .files c' ∧
      partsOf c'.out = { partsOf c.out with files := (partsOf c.out).files ++
        [⟨key, (blockText x first rest).1, (blockText x first rest).2, line⟩] } := by
  obtain ⟨c₁, h₁, hlines⟩ := feed_cons.mp h
  have hadd : (addFile x c key line).map
      (fun c => { c with blockStart := none, blockEnd := 0 }) = .ok c₁ := by
    simpa [onEvent, blockScalarStart, hc.cur, hc.inFiles] using h₁
  cases hfile : addFile x c key line with
  | error msg =>
    rw [hfile] at hadd
    cases hadd
  | ok c₂ =>
    rw [hfile] at hadd
    have hc₂ := addFile_ok hfile
    subst hc₂
    have hc₁ := Except.ok.inj hadd
    subst hc₁
    have hc' := Except.ok.inj ((feed_lines rfl rfl hf).symm.trans hlines)
    subst hc'
    refine ⟨⟨hc.cur, hc.started, hc.pendingFiles, hc.pendingDirs, hc.pendingBin, hc.inFiles,
      hc.inBin, hc.inDirs, rfl⟩, ?_⟩
    simp [partsOf, filled, indented, modify_snoc, setIndent, setContent]

theorem feed_files {entries : List (Bytes × Node)} (hc : At .files c)
    (hno : ¬ ∃ e ∈ entries, e.1 = dirsKey ∧ e.2.isFlow = true)
    (h : feed x c (entryEvents entries) = .ok c') : At .files c' ∧
      partsOf c'.out = { partsOf c.out with
        files := (partsOf c.out).files ++ blockFiles x entries } ∧
      ∀ e ∈ entries, e.2.isBlock = true := by
  induction entries generalizing c with
  | nil =>
    cases h
    exact ⟨hc, by simp [blockFiles], by simp⟩
  | cons entry entries ih =>
    obtain ⟨key, node⟩ := entry
    obtain ⟨c₁, h₁, hrest⟩ := feed_append.mp h
    have hno' : ¬ ∃ e ∈ entries, e.1 = dirsKey ∧ e.2.isFlow = true := by
      rintro ⟨e, hmem, he⟩
      exact hno ⟨e, List.mem_cons_of_mem _ hmem, he⟩
    cases node with
    | block line first rest content =>
      obtain ⟨hat, hparts⟩ := feed_file content hc h₁
      obtain ⟨hat', hparts', hall⟩ := ih hat hno' hrest
      refine ⟨hat', hparts'.trans ?_, List.forall_mem_cons.mpr ⟨rfl, hall⟩⟩
      rw [hparts]
      simp [blockFiles]
    | scalar value line =>
      have hscalar := feed_single.mp (show feed x c [.scalar key value line] = .ok c₁ from h₁)
      simp [onEvent, Config.scalar, hc.cur, hc.inDirs, hc.inBin, hc.inFiles] at hscalar
      split_ifs at hscalar
    | flow line items =>
      obtain ⟨c₂, h₂, -⟩ := feed_cons.mp h₁
      have hkey : key ≠ ascii "sandbox-write-dirs" := fun hk => hno ⟨_, List.mem_cons_self, hk, rfl⟩
      simp [onEvent, Config.sequenceStart, hc.cur, hc.pendingDirs, hkey] at h₂
    | seq header line items =>
      obtain ⟨c₂, h₂, -⟩ := feed_cons.mp h₁
      simp [onEvent, Config.entryHeader, hc.inBin, hc.inFiles] at h₂
    | map header line last entries =>
      obtain ⟨c₂, h₂, -⟩ := feed_cons.mp h₁
      simp [onEvent, Config.entryHeader, hc.inBin, hc.inFiles] at h₂

theorem feed_bins {entries : List (Bytes × Node)} (hc : At .bins c)
    (hflow : ¬ ∃ e ∈ entries, e.1 = dirsKey ∧ e.2.isFlow = true)
    (hblock : ¬ ∃ e ∈ entries, e.1 = installKey ∧ e.2.isBlock = true)
    (h : feed x c (entryEvents entries) = .ok c') : At .bins c' ∧
      partsOf c'.out = { partsOf c.out with names := (partsOf c.out).names ++ scalarKeys entries } ∧
      ∀ e ∈ entries, e.2.isScalar = true := by
  induction entries generalizing c with
  | nil =>
    cases h
    exact ⟨hc, by simp [scalarKeys], by simp⟩
  | cons entry entries ih =>
    obtain ⟨key, node⟩ := entry
    obtain ⟨c₁, h₁, hrest⟩ := feed_append.mp h
    have hflow' : ¬ ∃ e ∈ entries, e.1 = dirsKey ∧ e.2.isFlow = true := by
      rintro ⟨e, hmem, he⟩
      exact hflow ⟨e, List.mem_cons_of_mem _ hmem, he⟩
    have hblock' : ¬ ∃ e ∈ entries, e.1 = installKey ∧ e.2.isBlock = true := by
      rintro ⟨e, hmem, he⟩
      exact hblock ⟨e, List.mem_cons_of_mem _ hmem, he⟩
    cases node with
    | scalar value line =>
      have hscalar := feed_single.mp (show feed x c [.scalar key value line] = .ok c₁ from h₁)
      have hadd : addBinEntry x c key value line = .ok c₁ := by
        by_cases hk : key = []
        · simp [onEvent, Config.scalar, hc.cur, hc.inDirs, hk] at hscalar
        · simpa [onEvent, Config.scalar, hc.cur, hc.inBin, hk] using hscalar
      have hc₁ := addBinEntry_ok hadd
      have hat : At .bins c₁ := by
        rw [hc₁]
        exact hc.keep rfl rfl
      obtain ⟨hat', hparts, hall⟩ := ih hat hflow' hblock' hrest
      refine ⟨hat', hparts.trans ?_, List.forall_mem_cons.mpr ⟨rfl, hall⟩⟩
      rw [hc₁]
      simp [partsOf, scalarKeys]
    | block line first rest content =>
      obtain ⟨c₂, h₂, -⟩ := feed_cons.mp h₁
      have hkey : key ≠ ascii "install" := fun hk => hblock ⟨_, List.mem_cons_self, hk, rfl⟩
      simp [onEvent, blockScalarStart, hc.inFiles, hkey] at h₂
    | flow line items =>
      obtain ⟨c₂, h₂, -⟩ := feed_cons.mp h₁
      have hkey : key ≠ ascii "sandbox-write-dirs" :=
        fun hk => hflow ⟨_, List.mem_cons_self, hk, rfl⟩
      simp [onEvent, Config.sequenceStart, hc.cur, hc.pendingDirs, hkey] at h₂
    | seq header line items =>
      obtain ⟨c₂, h₂, -⟩ := feed_cons.mp h₁
      simp [onEvent, Config.entryHeader, hc.inBin] at h₂
    | map header line last entries =>
      obtain ⟨c₂, h₂, -⟩ := feed_cons.mp h₁
      simp [onEvent, Config.entryHeader, hc.inBin] at h₂

end Places

section Root
variable {x : Input} {c c' : Cfg}

theorem entryHeader_ok {key : Bytes} {line : Nat} (h : entryHeader x c key line = .ok c') :
    (key = binKey ∧ c' = { c with seenBin := true, pendingBinMap := true }) ∨
      (key = filesKey ∧ c' = { c with seenFiles := true, pendingFiles := true }) ∨
      (key = dirsKey ∧
        c' = { c with seenSandboxWriteDirs := true, pendingSandboxWriteDirs := true }) ∨
      c' = c := by
  have hkey : ∀ name : Bytes, (c.cur && decide (key = name)) = true → key = name := by
    intro name hname
    exact of_decide_eq_true (Bool.and_eq_true_iff.mp hname).2
  unfold entryHeader at h
  split_ifs at h with _ _ hbin _ hfiles hdirs
  · exact .inl ⟨hkey _ hbin, (Except.ok.inj h).symm⟩
  · exact .inr (.inl ⟨hkey _ hfiles, (Except.ok.inj h).symm⟩)
  · exact .inr (.inr (.inl ⟨hkey _ hdirs, (Except.ok.inj h).symm⟩))
  · exact .inr (.inr (.inr (Except.ok.inj h).symm))

theorem sequenceStart_ok {key : Bytes} {line : Nat}
    (h : Config.sequenceStart x c key line = .ok c') :
    (c.pendingSandboxWriteDirs = true ∨ key = dirsKey) ∧ c' = { c with
      seenSandboxWriteDirs := true
      pendingSandboxWriteDirs := false
      inSandboxWriteDirs := true } := by
  unfold Config.sequenceStart at h
  split_ifs at h with hopen
  refine ⟨?_, (Except.ok.inj h).symm⟩
  rcases (Bool.or_eq_true _ _).mp (Bool.and_eq_true_iff.mp hopen).2 with hpending | hkey
  · exact .inl hpending
  · exact .inr (of_decide_eq_true hkey)

theorem mappingStart_ok {line : Nat} (h : Config.mappingStart x c line = .ok c')
    (hcur : c.cur = true) :
    (c.pendingFiles = true ∧ c' = { c with pendingFiles := false, inFiles := true }) ∨
      (c.pendingFiles = false ∧ c.pendingBinMap = true ∧ c' = { c with
        pendingBinMap := false
        inBinMap := true
        invokedName := c'.invokedName }) := by
  unfold Config.mappingStart at h
  split_ifs at h with hfiles hbin
  · exact .inl ⟨(Bool.and_eq_true_iff.mp hfiles).2, (Except.ok.inj h).symm⟩
  · refine .inr ⟨by simpa [hcur] using hfiles, (Bool.and_eq_true_iff.mp hbin).2, ?_⟩
    rw [← Except.ok.inj h]

theorem feed_dirs {items : List Node} (hc : At .dirs c)
    (h : feed x c (itemEvents items ++ [.sequenceEnd]) = .ok c') : At .root c' ∧
      partsOf c'.out =
        { partsOf c.out with dirs := (partsOf c.out).dirs ++ scalarValues items } := by
  obtain ⟨c₁, hitems, hend⟩ := feed_append.mp h
  obtain ⟨hat, hparts⟩ := feed_items hc hitems
  have hc' := Except.ok.inj (feed_single.mp hend)
  subst hc'
  exact ⟨⟨hat.cur, hat.started, hat.pendingFiles, hat.pendingDirs, hat.pendingBin, hat.inFiles,
    hat.inBin, rfl, hat.block⟩, hparts⟩

theorem root_scalar {key value : Bytes} {line : Nat} (hc : At .root c)
    (h : feed x c [.scalar key value line] = .ok c') : At .root c' ∧
      partsOf c'.out = (partsOf c.out).add x (key, .scalar value line) := by
  have hscalar := feed_single.mp h
  have hfield : applyField x c key value line = .ok c' := by
    by_cases hk : key = []
    · simp [onEvent, Config.scalar, hc.cur, hc.inDirs, hk] at hscalar
    · simpa [onEvent, Config.scalar, hc.cur, hc.inBin, hc.inFiles, hk] using hscalar
  have hf := applyField_frame hfield
  have hat : At .root c' := by
    rw [hf.flags]
    exact hc.keep rfl rfl
  refine ⟨hat, ?_⟩
  have hinstall := hf.install
  by_cases hk : key = installKey
  · replace hinstall := hinstall.trans (if_pos hk)
    rw [Parts.add, if_pos hk, partsOf, hinstall, hf.parts.files, hf.parts.dirs, hf.parts.names]
    rfl
  · replace hinstall := hinstall.trans (if_neg hk)
    rw [Parts.add, if_neg hk, partsOf, hinstall, hf.parts.files, hf.parts.dirs, hf.parts.names]
    rfl

theorem root_block {key : Bytes} {line : Nat} {first : Slice} {rest : List Slice}
    (hf : first.len ≠ 0) (hc : At .root c)
    (h : feed x c ((Node.block line first rest hf).events key) = .ok c') : At .root c' ∧
      partsOf c'.out = (partsOf c.out).add x (key, .block line first rest hf) := by
  obtain ⟨c₁, h₁, hlines⟩ := feed_cons.mp h
  by_cases hk : key = ascii "install"
  · have hopen : (Except.ok { c with
        seenInstall := true, block := some .install, blockStart := none
        blockEnd := 0 } : Result Cfg) = .ok c₁ := by
      simpa [onEvent, blockScalarStart, hc.cur, hc.inFiles, hk] using h₁
    have hc₁ := Except.ok.inj hopen
    subst hc₁
    have hc' := Except.ok.inj ((feed_lines rfl rfl hf).symm.trans hlines)
    subst hc'
    refine ⟨⟨hc.cur, hc.started, hc.pendingFiles, hc.pendingDirs, hc.pendingBin, hc.inFiles,
      hc.inBin, hc.inDirs, rfl⟩, ?_⟩
    simp [partsOf, filled, indented, Parts.add, installKey, hk]
  · simp [onEvent, blockScalarStart, hc.cur, hc.inFiles, hk] at h₁

theorem root_flow {key : Bytes} {line : Nat} {items : List Node} (hc : At .root c)
    (h : feed x c ((Node.flow line items).events key) = .ok c') : At .root c' ∧
      partsOf c'.out = (partsOf c.out).add x (key, .flow line items) := by
  obtain ⟨c₁, h₁, hitems⟩ := feed_cons.mp h
  obtain ⟨hwhich, hc₁⟩ := sequenceStart_ok h₁
  have hk : key = dirsKey := by
    rcases hwhich with hpending | hk
    · rw [hc.pendingDirs] at hpending
      cases hpending
    · exact hk
  have hdirs : At .dirs c₁ := by
    rw [hc₁]
    exact ⟨hc.cur, hc.started, hc.pendingFiles, rfl, hc.pendingBin, hc.inFiles, hc.inBin, rfl,
      hc.block⟩
  obtain ⟨hat, hparts⟩ := feed_dirs hdirs hitems
  refine ⟨hat, hparts.trans ?_⟩
  rw [Parts.add, if_pos hk, hc₁]

theorem root_seq {key : Bytes} {header line : Nat} {items : List Node} (hc : At .root c)
    (h : feed x c (.entryHeader key header :: (Node.seq header line items).events key) = .ok c') :
    At .root c' ∧ partsOf c'.out = (partsOf c.out).add x (key, .seq header line items) := by
  obtain ⟨c₁, h₁, hseq⟩ := feed_cons.mp h
  obtain ⟨c₂, h₂, hitems⟩ := feed_cons.mp hseq
  obtain ⟨hwhich, hc₂⟩ := sequenceStart_ok h₂
  have hpending : c₁.pendingSandboxWriteDirs = true := by
    rcases hwhich with hpending | hk
    · exact hpending
    · exact absurd hk (by decide)
  obtain ⟨-, rfl⟩ | ⟨-, rfl⟩ | ⟨hk, rfl⟩ | rfl := entryHeader_ok h₁
  · exact absurd hpending (by simp [hc.pendingDirs])
  · exact absurd hpending (by simp [hc.pendingDirs])
  · have hdirs : At .dirs c₂ := by
      rw [hc₂]
      exact ⟨hc.cur, hc.started, hc.pendingFiles, rfl, hc.pendingBin, hc.inFiles, hc.inBin, rfl,
        hc.block⟩
    obtain ⟨hat, hparts⟩ := feed_dirs hdirs hitems
    refine ⟨hat, hparts.trans ?_⟩
    rw [Parts.add, if_pos hk, hc₂]
  · exact absurd hpending (by simp [hc.pendingDirs])

theorem root_files {line last : Nat} {entries : List (Bytes × Node)} (hc : At .root c)
    (hno : ¬ ∃ e ∈ entries, e.1 = dirsKey ∧ e.2.isFlow = true)
    (h : feed x { c with seenFiles := true, pendingFiles := true }
      (.mappingStart line :: (entryEvents entries ++ [.mappingEnd last])) = .ok c') : At .root c' ∧
      partsOf c'.out = { partsOf c.out with
        files := (partsOf c.out).files ++ blockFiles x entries } ∧
      ∀ e ∈ entries, e.2.isBlock = true := by
  obtain ⟨c₁, h₁, hentries⟩ := feed_cons.mp h
  obtain ⟨c₂, h₂, hend⟩ := feed_append.mp hentries
  obtain ⟨-, hc₁⟩ | ⟨hno, -⟩ := mappingStart_ok h₁ hc.cur
  · have hat : At .files c₁ := by
      rw [hc₁]
      exact ⟨hc.cur, hc.started, rfl, hc.pendingDirs, hc.pendingBin, rfl, hc.inBin, hc.inDirs,
        hc.block⟩
    obtain ⟨hat₂, hparts, hall⟩ := feed_files hat hno h₂
    have hclose : (Except.ok { c₂ with inFiles := false } : Result Cfg) = .ok c' := by
      simpa [onEvent, Config.mappingEnd, hat₂.inFiles] using feed_single.mp hend
    have hc' := Except.ok.inj hclose
    subst hc'
    refine ⟨⟨hat₂.cur, hat₂.started, hat₂.pendingFiles, hat₂.pendingDirs, hat₂.pendingBin, rfl,
      hat₂.inBin, hat₂.inDirs, hat₂.block⟩, hparts.trans ?_, hall⟩
    rw [hc₁]
  · cases hno

theorem root_bins {line last : Nat} {entries : List (Bytes × Node)} (hc : At .root c)
    (hflow : ¬ ∃ e ∈ entries, e.1 = dirsKey ∧ e.2.isFlow = true)
    (hblock : ¬ ∃ e ∈ entries, e.1 = installKey ∧ e.2.isBlock = true)
    (h : feed x { c with seenBin := true, pendingBinMap := true }
      (.mappingStart line :: (entryEvents entries ++ [.mappingEnd last])) = .ok c') : At .root c' ∧
      partsOf c'.out = { partsOf c.out with names := (partsOf c.out).names ++ scalarKeys entries } ∧
      ∀ e ∈ entries, e.2.isScalar = true := by
  obtain ⟨c₁, h₁, hentries⟩ := feed_cons.mp h
  obtain ⟨c₂, h₂, hend⟩ := feed_append.mp hentries
  obtain ⟨hfiles, -⟩ | ⟨-, -, hc₁⟩ := mappingStart_ok h₁ hc.cur
  · exact absurd hfiles (by simp [hc.pendingFiles])
  · have hat : At .bins c₁ := by
      rw [hc₁]
      exact ⟨hc.cur, hc.started, hc.pendingFiles, hc.pendingDirs, rfl, hc.inFiles, rfl, hc.inDirs,
        hc.block⟩
    obtain ⟨hat₂, hparts, hall⟩ := feed_bins hat hflow hblock h₂
    have hclose : finishBinMap x c₂ last = .ok c' := by
      simpa [onEvent, Config.mappingEnd, hat₂.inFiles, hat₂.inBin] using feed_single.mp hend
    have hc' := finishBinMap_ok hclose
    have hsame : partsOf c'.out = partsOf c₂.out := by
      rw [hc']
      rfl
    refine ⟨?_, hsame.trans (hparts.trans ?_), hall⟩
    · rw [hc']
      exact ⟨hat₂.cur, hat₂.started, hat₂.pendingFiles, hat₂.pendingDirs, hat₂.pendingBin,
        hat₂.inFiles, rfl, hat₂.inDirs, hat₂.block⟩
    · rw [hc₁]

theorem root_map {key : Bytes} {header line last : Nat} {entries : List (Bytes × Node)}
    (hc : At .root c) (hm : ¬ Misplaced (key, .map header line last entries))
    (h : feed x c (.entryHeader key header :: (Node.map header line last entries).events key) =
      .ok c') :
    At .root c' ∧ partsOf c'.out = (partsOf c.out).add x (key, .map header line last entries) ∧
      Proper (key, .map header line last entries) := by
  obtain ⟨hflow, hblock⟩ := not_or.mp hm
  obtain ⟨c₁, h₁, hmap⟩ := feed_cons.mp h
  obtain ⟨rfl, rfl⟩ | ⟨rfl, rfl⟩ | ⟨-, rfl⟩ | rfl := entryHeader_ok h₁
  · obtain ⟨hat, hparts, hall⟩ := root_bins hc (fun he => hflow ⟨.inr rfl, he⟩)
      (fun he => hblock ⟨rfl, he⟩) hmap
    refine ⟨hat, hparts.trans ?_, fun hk => absurd hk (by decide), fun _ => hall⟩
    rw [Parts.add, if_neg (by decide), if_pos rfl]
  · obtain ⟨hat, hparts, hall⟩ := root_files hc (fun he => hflow ⟨.inl rfl, he⟩) hmap
    refine ⟨hat, hparts.trans ?_, fun _ => hall, fun hk => absurd hk (by decide)⟩
    rw [Parts.add, if_pos rfl]
  · obtain ⟨c₂, h₂, -⟩ := feed_cons.mp hmap
    obtain ⟨hfiles, -⟩ | ⟨-, hbin, -⟩ := mappingStart_ok h₂ hc.cur
    · exact absurd hfiles (by simp [hc.pendingFiles])
    · exact absurd hbin (by simp [hc.pendingBin])
  · obtain ⟨c₂, h₂, -⟩ := feed_cons.mp hmap
    obtain ⟨hfiles, -⟩ | ⟨-, hbin, -⟩ := mappingStart_ok h₂ hc.cur
    · exact absurd hfiles (by simp [hc.pendingFiles])
    · exact absurd hbin (by simp [hc.pendingBin])

theorem root_entry {entry : Bytes × Node} (hc : At .root c) (hm : ¬ Misplaced entry)
    (h : feed x c (entry.2.header entry.1 ++ entry.2.events entry.1) = .ok c') : At .root c' ∧
      partsOf c'.out = (partsOf c.out).add x entry ∧ Proper entry := by
  obtain ⟨key, node⟩ := entry
  cases node with
  | scalar value line =>
    obtain ⟨hat, hparts⟩ := root_scalar hc h
    exact ⟨hat, hparts, trivial⟩
  | block line first rest content =>
    obtain ⟨hat, hparts⟩ := root_block content hc h
    exact ⟨hat, hparts, trivial⟩
  | flow line items =>
    obtain ⟨hat, hparts⟩ := root_flow hc h
    exact ⟨hat, hparts, trivial⟩
  | seq header line items =>
    obtain ⟨hat, hparts⟩ := root_seq hc h
    exact ⟨hat, hparts, trivial⟩
  | map header line last entries => exact root_map hc hm h

theorem root_entries {root : List (Bytes × Node)} (hc : At .root c)
    (hm : ∀ e ∈ root, ¬ Misplaced e) (h : feed x c (entryEvents root) = .ok c') : At .root c' ∧
      partsOf c'.out = root.foldl (Parts.add x) (partsOf c.out) ∧ ∀ e ∈ root, Proper e := by
  induction root generalizing c with
  | nil =>
    cases h
    exact ⟨hc, rfl, by simp⟩
  | cons entry root ih =>
    obtain ⟨hentry, hroot⟩ := List.forall_mem_cons.mp hm
    obtain ⟨c₁, h₁, hrest⟩ := feed_append.mp h
    obtain ⟨hat, hparts, hproper⟩ := root_entry hc hentry h₁
    obtain ⟨hat', hparts', hall⟩ := ih hat hroot hrest
    refine ⟨hat', hparts'.trans ?_, List.forall_mem_cons.mpr ⟨hproper, hall⟩⟩
    rw [List.foldl_cons, hparts]

end Root

section Streams
variable {x : Input} {c' : Cfg}

mutual

theorem streamEnd_notMem_events (key : Bytes) : ∀ node : Node, .streamEnd ∉ node.events key
  | .scalar _ _ => by simp [Node.events]
  | .block _ _ _ _ => by simp [Node.events]
  | .flow _ items => by simp [Node.events, streamEnd_notMem_items items]
  | .seq _ _ items => by simp [Node.events, streamEnd_notMem_items items]
  | .map _ _ _ entries => by simp [Node.events, streamEnd_notMem_entries entries]

theorem streamEnd_notMem_items : ∀ items : List Node, .streamEnd ∉ itemEvents items
  | [] => by simp [itemEvents]
  | item :: items => by
    simp [itemEvents, streamEnd_notMem_events [] item, streamEnd_notMem_items items]

theorem streamEnd_notMem_entries : ∀ entries : List (Bytes × Node), .streamEnd ∉ entryEvents entries
  | [] => by simp [entryEvents]
  | (key, node) :: entries => by
    have hheader : .streamEnd ∉ node.header key := by cases node <;> simp [Node.header]
    simp [entryEvents, hheader, streamEnd_notMem_events key node, streamEnd_notMem_entries entries]

end

theorem streamEnd_notMem_documents (docs : List Document) :
    .streamEnd ∉ docs.flatMap Document.events := by
  simp [Document.events, streamEnd_notMem_events]

theorem feed_documents {evs : List Event} {docs : List Document} {p : Project}
    (hdoc : Documented evs docs) (h : hmConfigParse x evs = .ok p) :
    ∃ c', feed x {} (docs.flatMap Document.events) = .ok c' ∧ c'.finished = true ∧ p = c'.out := by
  unfold hmConfigParse at h
  rw [parseFrom_trivia, hdoc] at h
  exact feed_of_parse (streamEnd_notMem_documents docs) h

theorem first_document {d : Document} (h : feed x {} d.events = .ok c') :
    ∃ header start last root, d.root = .map header start last root := by
  obtain ⟨line, node⟩ := d
  obtain ⟨c₁, h₁, hroot⟩ := feed_cons.mp h
  have hc₁ : {} = c₁ := Except.ok.inj h₁
  subst hc₁
  cases node with
  | scalar value line => 
    obtain ⟨c₂, h₂, -⟩ := feed_cons.mp (feed_append.mp hroot).choose_spec.1
    simp [onEvent, Config.scalar] at h₂
  | block line first rest content =>
    obtain ⟨c₂, h₂, -⟩ := feed_cons.mp hroot
    simp [onEvent, blockScalarStart] at h₂
  | flow line items =>
    obtain ⟨c₂, h₂, -⟩ := feed_cons.mp hroot
    simp [onEvent, Config.sequenceStart] at h₂
  | seq header line items =>
    obtain ⟨c₂, h₂, -⟩ := feed_cons.mp hroot
    simp [onEvent, Config.sequenceStart] at h₂
  | map header start last root => exact ⟨header, start, last, root, rfl⟩

theorem feed_document {line header start last : Nat} {root : List (Bytes × Node)}
    (hm : ∀ e ∈ root, ¬ Misplaced e)
    (h : feed x {} (Document.events ⟨line, .map header start last root⟩) = .ok c') :
    c'.started = true ∧ partsOf c'.out = root.foldl (Parts.add x) {} ∧ ∀ e ∈ root, Proper e := by
  obtain ⟨c₁, h₁, hbody⟩ := feed_cons.mp h
  have hc₁ : {} = c₁ := Except.ok.inj h₁
  subst hc₁
  obtain ⟨c₂, hmap, hdone⟩ := feed_append.mp hbody
  have hc' : c₂ = c' := Except.ok.inj (feed_single.mp hdone)
  subst hc'
  obtain ⟨c₃, hopen, hentries⟩ := feed_cons.mp hmap
  obtain ⟨c₄, hroot, hclose⟩ := feed_append.mp hentries
  obtain ⟨-, hc₃, hout⟩ := beginProject_ok (show beginProject x {} start = .ok c₃ from hopen)
  have hat : At .root c₃ := by
    rw [hc₃]
    exact ⟨rfl, rfl, rfl, rfl, rfl, rfl, rfl, rfl, rfl⟩
  obtain ⟨hat₄, hparts, hproper⟩ := root_entries hat hm hroot
  have hfinish : finishProject x c₄ = .ok c₂ := by
    simpa [onEvent, Config.mappingEnd, hat₄.inFiles, hat₄.inBin] using feed_single.mp hclose
  have hfin := finishProject_frame hfinish
  have hstarted : c₂.started = true := by
    rw [hfin.flags]
    exact hat₄.started
  have hsame : partsOf c₂.out = partsOf c₄.out := by
    unfold partsOf
    rw [hfin.files, hfin.names, hfin.dirs, hfin.install.1, hfin.install.2]
  refine ⟨hstarted, hsame.trans (hparts.trans ?_), hproper⟩
  rw [hout]
  rfl

theorem no_second_document {c : Cfg} {d : Document} {evs : List Event} (hs : c.started = true) :
    feed x c (d.events ++ evs) ≠ .ok c' := by
  intro h
  obtain ⟨c₁, h₁, -⟩ := feed_cons.mp h
  simp [onEvent, hs] at h₁

end Streams

section Meanings
variable {x : Input} {p : Project}

theorem proper_not_misplaced {entry : Bytes × Node} (hp : Proper entry) : ¬ Misplaced entry := by
  obtain ⟨key, node⟩ := entry
  cases node with
  | map header line last entries =>
    rintro (⟨hkey, e, he, -, hflow⟩ | ⟨hkey, e, he, -, hblock⟩)
    · rcases hkey with hkey | hkey
      · have hb := hp.1 hkey e he
        cases hn : e.2 <;> simp [hn, Node.isFlow, Node.isBlock] at hflow hb
      · have hs := hp.2 hkey e he
        cases hn : e.2 <;> simp [hn, Node.isFlow, Node.isScalar] at hflow hs
    · have hs := hp.2 hkey e he
      cases hn : e.2 <;> simp [hn, Node.isBlock, Node.isScalar] at hblock hs
  | _ => exact id

/-- In an accepted stream the levels decide what an entry means, up to entries of a nested
mapping that spell a key of the project. -/
theorem levels_decide (x : Input) (evs : List Event) (docs : List Document) (p : Project)
    (hdoc : Documented evs docs) (h : hmConfigParse x evs = .ok p) :
    LevelsDecide x docs p ↔ ¬ HasMisplaced docs := by
  obtain ⟨c', hfeed, hfinished, rfl⟩ := feed_documents hdoc h
  constructor
  · rintro ⟨line, header, start, last, root, rfl, -, hproper⟩
      ⟨d, hd, header', start', last', root', hr, e, he, hmis⟩
    obtain rfl := List.mem_singleton.mp hd
    cases hr
    exact proper_not_misplaced (hproper e he) hmis
  · intro hno
    cases docs with
    | nil =>
      cases hfeed
      cases hfinished
    | cons d ds =>
      obtain ⟨c₁, hd, hds⟩ := feed_append.mp hfeed
      obtain ⟨header, start, last, root, hroot⟩ := first_document hd
      obtain ⟨line, node⟩ := d
      cases hroot
      have hm : ∀ e ∈ root, ¬ Misplaced e := by
        intro e he hmis
        exact hno ⟨_, List.mem_cons_self, header, start, last, root, rfl, e, he, hmis⟩
      obtain ⟨hstarted, hparts, hproper⟩ := feed_document hm hd
      cases ds with
      | nil =>
        cases hds
        exact ⟨line, header, start, last, root, rfl, hparts, hproper⟩
      | cons d' ds => exact absurd hds (no_second_document hstarted)

def flowInput (inside : Bool) : Input where
  buf := ascii "command: t\nfiles:\n  f: |\n    x\n" ++
    (if inside then ascii "  " else []) ++ ascii "sandbox-write-dirs: [/x]\n"
  origin := ascii "t.siml"

def flowRoot (inside : Bool) : List (Bytes × Node) :=
  let dirs : Bytes × Node := (dirsKey, .flow 5 [.scalar (ascii "/x") 5])
  let file : Bytes × Node := (ascii "f", .block 3 ⟨29, 1⟩ [] (by decide))
  let command : Bytes × Node := (ascii "command", .scalar (ascii "t") 1)
  if inside then [command, (filesKey, .map 2 3 5 [file, dirs])]
  else [command, (filesKey, .map 2 3 4 [file]), dirs]

def flowDocs (inside : Bool) : List Document := [⟨1, .map 1 1 5 (flowRoot inside)⟩]

def flowEvents (inside : Bool) : List Event :=
  .streamStart :: ((flowDocs inside).flatMap Document.events ++ [.streamEnd])

theorem flow_documented (inside : Bool) : Documented (flowEvents inside) (flowDocs inside) := by
  cases inside <;> rfl

theorem flow_accepted (inside : Bool) :
    ∃ p, hmConfigParse (flowInput inside) (flowEvents inside) = .ok p ∧
      p.sandboxWriteDirs.map (·.path) = [ascii "/x"] := by
  have hrun : (hmConfigParse (flowInput inside) (flowEvents inside)).map
      (fun p => p.sandboxWriteDirs.map (·.path)) = .ok [ascii "/x"] := by
    cases inside <;> decide +kernel
  cases hp : hmConfigParse (flowInput inside) (flowEvents inside) with
  | error msg =>
    rw [hp] at hrun
    cases hrun
  | ok p =>
    rw [hp] at hrun
    exact ⟨p, rfl, Except.ok.inj hrun⟩

theorem levels_decide_beside : ∃ p,
    hmConfigParse (flowInput false) (flowEvents false) = .ok p ∧
      LevelsDecide (flowInput false) (flowDocs false) p := by
  obtain ⟨p, hp, -⟩ := flow_accepted false
  refine ⟨p, hp, (levels_decide _ _ _ p (flow_documented false) hp).mpr ?_⟩
  rintro ⟨d, hd, header, start, last, root, hroot, e, he, hmis⟩
  obtain rfl := List.mem_singleton.mp hd
  cases hroot
  refine proper_not_misplaced ?_ hmis
  rcases List.mem_cons.mp he with rfl | he
  · trivial
  · rcases List.mem_cons.mp he with rfl | he
    · exact ⟨fun _ => by simp [Node.isBlock], fun hk => absurd hk (by decide)⟩
    · obtain rfl := List.mem_singleton.mp he
      trivial

/-- Inside it the parser accepts them as well. -/
theorem stray_dirs_accepted : Documented (flowEvents true) (flowDocs true) ∧ ∃ p,
    hmConfigParse (flowInput true) (flowEvents true) = .ok p ∧
      p.sandboxWriteDirs.map (·.path) = [ascii "/x"] ∧
      ¬ LevelsDecide (flowInput true) (flowDocs true) p := by
  refine ⟨flow_documented true, ?_⟩
  obtain ⟨p, hp, hdirs⟩ := flow_accepted true
  refine ⟨p, hp, hdirs, ?_⟩
  rintro ⟨line, header, start, last, root, hdocs, -, hproper⟩
  cases hdocs
  have hfiles := hproper _ (List.mem_cons_of_mem _ List.mem_cons_self)
  have hflow := hfiles.1 rfl _ (List.mem_cons_of_mem _ List.mem_cons_self)
  cases hflow

end Meanings

end Hacman.Levels
