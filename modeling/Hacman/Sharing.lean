import Hacman.CachePaths

/-!
# What shares a slot

A slot is named after the digest of the canonical path of an embedded project, and after
the digest of the identity of every other one. Two invocations in one cache directory use
one slot if their projects are addressed by one path, or if neither is addressed by a path
and their bytes and versions agree; the paths of different slots are apart.
-/

namespace Hacman.Sharing
open Octets Util Cache Config Main

section Outline

/-- What decides the kind of a project, and the flags that steer the switch. -/
structure Outline where
  url : Bytes
  command : Bytes
  kind : Kind
  cur : Bool
  pendingFiles : Bool
  inFiles : Bool
  pendingBinMap : Bool
  inBinMap : Bool

def outline (c : Cfg) : Outline :=
  ⟨c.out.url, c.out.command, c.out.kind, c.cur, c.pendingFiles, c.inFiles, c.pendingBinMap,
    c.inBinMap⟩

/-- An event that is accepted changes the outline by itself, whatever the environment. -/
def Outline.next (k : Outline) : Event → Outline
  | .entryHeader key _ =>
    if k.cur && key = ascii "bin-path" then { k with pendingBinMap := true }
    else if k.cur && key = ascii "files" then { k with pendingFiles := true }
    else k
  | .mappingStart _ =>
    if k.cur && k.pendingFiles then { k with pendingFiles := false, inFiles := true }
    else if k.cur && k.pendingBinMap then { k with pendingBinMap := false, inBinMap := true }
    else { k with url := [], command := [], kind := .url, cur := true }
  | .mappingEnd _ =>
    if k.inFiles then { k with inFiles := false }
    else if k.inBinMap then { k with inBinMap := false }
    else { k with kind := if k.command ≠ [] then .command else .url, cur := false }
  | .scalar key value _ =>
    if key = [] || k.inBinMap then k
    else match fieldOf key with
      | some .url => { k with url := value }
      | some .command => { k with command := value }
      | _ => k
  | _ => k

variable {x : Input} {c c' : Cfg}

theorem applyField_outline {key value : Bytes} {line : Nat}
    (h : applyField x c key value line = .ok c') :
    outline c' = match fieldOf key with
      | some .url => { outline c with url := value }
      | some .command => { outline c with command := value }
      | _ => outline c := by
  unfold applyField at h
  dsimp only at h
  cases hf : fieldOf key with
  | none =>
    rw [hf] at h
    cases h
  | some f =>
    rw [hf] at h
    cases f with
    | check =>
      dsimp only at h
      split at h <;> cases h
      rfl
    | schedule =>
      dsimp only at h
      split at h <;> cases h
      rfl
    | versionPrefix | versionSuffix | install =>
      cases h
      rfl
    | name | url | command | binPath | sandboxed =>
      dsimp only at h
      split_ifs at h <;> cases h <;> rfl

theorem scalar_outline {key value : Bytes} {line : Nat} (h : scalar x c key value line = .ok c') :
    outline c' = (outline c).next (.scalar key value line) := by
  unfold scalar at h
  split_ifs at h with hcur hkey hdirs hbin hfiles
  · rw [addSandboxWriteDir_ok h]
    simp [Outline.next, hkey, outline]
  · rw [addBinEntry_ok h]
    simp [Outline.next, hbin, outline]
  · rw [applyField_outline h]
    simp [Outline.next, hkey, hbin, outline]

theorem settleKind_kind {p : Project} (h : settleKind x c = .ok p) :
    p.kind = if c.out.command ≠ [] then .command else .url := by
  unfold settleKind at h
  dsimp only at h
  split_ifs at h <;> cases h <;> simp_all

theorem finishProject_outline (h : finishProject x c = .ok c') :
    outline c' = { outline c with
      kind := if c.out.command ≠ [] then .command else .url, cur := false } := by
  unfold finishProject at h
  split at h
  · cases h
  · rename_i p hp
    have hkind := settleKind_kind hp
    obtain ⟨-, hsame, -⟩ := settleKind_ok hp
    split at h
    · cases h
    · split at h
      · cases h
      · split at h
        · cases h
        · split at h
          · cases h
          · rename_i p' hbin
            cases h
            rw [settleBin_ok hbin, ← hkind]
            simp only [outline]
            rw [hsame]

theorem blockLine_outline (b : Block) (value : Slice) :
    outline (blockLine x c b value) = outline c := by
  unfold blockLine
  split_ifs
  · rfl
  · cases c.blockStart with
    | some start => rfl
    | none => cases b <;> rfl

theorem blockEnd_outline : outline (blockEnd x c) = outline c := by
  unfold blockEnd outline
  rcases c.block with _ | _ | i <;> cases c.blockStart <;> rfl

theorem mapping_outline {line : Nat} :
    (mappingStart x c line = .ok c' → outline c' = (outline c).next (.mappingStart line)) ∧
      (mappingEnd x c line = .ok c' → outline c' = (outline c).next (.mappingEnd line)) := by
  constructor
  · intro h
    unfold mappingStart at h
    split_ifs at h with hfiles hbin _ hcur
    · cases h
      simp [Outline.next, outline, Bool.and_eq_true_iff.mp hfiles]
    · cases h
      simp_all [Outline.next, outline]
    · obtain ⟨-, hflags, hout⟩ := beginProject_ok h
      rw [hflags]
      simp [Outline.next, outline, hcur, hout]
  · intro h
    unfold mappingEnd at h
    split_ifs at h with hfiles hbin
    · cases h
      simp [Outline.next, outline, hfiles]
    · rw [finishBinMap_ok h]
      simp [Outline.next, outline, hfiles, hbin]
    · rw [finishProject_outline h]
      simp [Outline.next, outline, hfiles, hbin]

theorem onEvent_outline {ev : Event} (h : onEvent x c ev = .ok c') :
    outline c' = (outline c).next ev := by
  cases ev with
  | streamStart | documentEnd | shebang | comment | sequenceEnd | streamEnd =>
    cases h
    rfl
  | documentStart line =>
    simp only [onEvent] at h
    split_ifs at h
    cases h
    rfl
  | entryHeader key line =>
    simp only [onEvent, entryHeader] at h
    split_ifs at h <;> cases h <;> grind [Outline.next, outline]
  | sequenceStart key line =>
    simp only [onEvent, sequenceStart] at h
    split_ifs at h
    cases h
    rfl
  | mappingStart line => exact mapping_outline.1 h
  | mappingEnd line => exact mapping_outline.2 h
  | scalar key value line => exact scalar_outline h
  | blockStart key line =>
    simp only [onEvent, blockScalarStart] at h
    split_ifs at h
    · cases hfile : addFile x c key line with
      | error text =>
        rw [hfile] at h
        cases h
      | ok c₁ =>
        rw [hfile] at h
        cases h
        rw [addFile_ok hfile]
        rfl
    · cases h
      rfl
  | blockLine value =>
    simp only [onEvent, Except.ok.injEq] at h
    subst h
    split
    · exact blockLine_outline _ _
    · rfl
  | blockEnd =>
    cases h
    exact blockEnd_outline
  | error line msg => cases h

/-- The kind of a project does not depend on what is around the file. -/
theorem parseFrom_kind {x' : Input} {d : Cfg} {evs : List Event} {p p' : Project}
    (h : parseFrom x c evs = .ok p) (h' : parseFrom x' d evs = .ok p')
    (hsame : outline c = outline d) :
    p.kind = p'.kind := by
  induction evs generalizing c d with
  | nil => cases h
  | cons ev evs ih =>
    by_cases hev : ev = .streamEnd
    · subst hev
      simp only [parseFrom] at h h'
      split_ifs at h h'
      cases h
      cases h'
      exact congrArg Outline.kind hsame
    · rw [parseFrom_cons hev] at h h'
      cases hc : onEvent x c ev with
      | error text =>
        rw [hc] at h
        cases h
      | ok c₁ =>
        cases hd : onEvent x' d ev with
        | error text =>
          rw [hd] at h'
          cases h'
        | ok d₁ =>
          rw [hc] at h
          rw [hd] at h'
          apply ih h h'
          rw [onEvent_outline hc, onEvent_outline hd, hsame]

end Outline

section Use

/-- The loop of `open_source`: an absolute path within the limit, without empty and dot
components. -/
def canonicalSpelling (path : Bytes) : Bool :=
  path.head? = some SLASH && path.length ≤ HM_PATH_MAX &&
    (fields SLASH path.tail).all fun name => name ≠ [] && name ≠ ascii "." && name ≠ ascii ".."

/-- An invocation that passes its checks and comes to a slot below `dir`. A version is
bounded by the build, and whatever resolves a path gives an absolute one. -/
structure Use (siml : Bytes → List Event) (xxh3 : Bytes → UInt64) (dir : Bytes) where
  l : Launch
  file : Bytes
  content : Bytes
  p : Project
  source : Option Bytes
  checked : Checked l file content p source
  cache : hmCacheDir l.opts.cacheDir l.startup = some dir
  siml_eq : l.siml = siml
  xxh3_eq : l.xxh3 = xxh3
  version : l.version.length + 29 ≤ HM_IDENTITY_MAX
  opened : l.canonical = true → canonicalSpelling file = true
  resolved : ∀ path, l.resolved = some path → path.head? = some SLASH

variable {siml : Bytes → List Event} {xxh3 : Bytes → UInt64} {dir : Bytes} (u w : Use siml xxh3 dir)

def Use.identity : Bytes := ascii "siml:" ++ hmHashHex xxh3 u.content ++
    ascii " hacman:" ++ u.l.version

def Use.named : Bytes := u.source.getD u.identity

def Use.slot : Slot :=
  hmCacheInit xxh3 u.p dir u.source (hmIdentityBuild xxh3 u.l.version u.content
    (HM_IDENTITY_MAX + 1))

theorem Use.prepare_eq : (∃ text, prepare u.l = .exit HM_EXIT_USAGE text) ∨
    ∃ p, prepare u.l = if u.l.opts.plan then .plan p u.slot else .run p u.slot dir := by
  have hslot : u.slot = hmCacheInit u.l.xxh3 u.p dir u.source
      (hmIdentityBuild u.l.xxh3 u.l.version u.content (HM_IDENTITY_MAX + 1)) := by
    rw [u.xxh3_eq]
    rfl
  rw [prepare_checked u.l u.checked, hslot]
  simp only [prepareSlot, u.cache]
  cases resolveCachedBin u.p _ u.file with
  | error text => exact .inl ⟨text, rfl⟩
  | ok p => exact .inr ⟨p, rfl⟩

theorem prepareProject_source {l : Launch} {p : Project} {file : Bytes} {source : Option Bytes}
    (h : prepareProject l p file = .ok source) : sourcePath l p file = .ok source := by
  unfold prepareProject at h
  cases hs : sourcePath l p file with
  | error text =>
    rw [hs] at h
    dsimp only at h
    split_ifs at h
  | ok source =>
    rw [hs] at h
    dsimp only at h
    split_ifs at h
    · cases hc : confirmDefaultBin l p file source with
      | error text =>
        rw [hc] at h
        cases h
      | ok _ =>
        rw [hc] at h
        exact h
    · exact h

theorem Use.sourcePath_eq : sourcePath u.l u.p u.file = .ok u.source :=
  prepareProject_source u.checked.source_eq

theorem Use.source_some {path : Bytes} (h : u.source = some path) :
    u.p.files ≠ [] ∧ path.head? = some SLASH := by
  have hs := u.sourcePath_eq
  rw [h] at hs
  unfold sourcePath at hs
  split_ifs at hs with hfiles hcanonical
  · refine ⟨hfiles.1, ?_⟩
    have hspelled := u.opened hcanonical
    simp only [canonicalSpelling, Bool.and_eq_true, decide_eq_true_eq] at hspelled
    dsimp only at hs
    split_ifs at hs
    cases hs
    exact hspelled.1.1
  · refine ⟨hfiles.1, ?_⟩
    cases hr : u.l.resolved with
    | none =>
      rw [hr] at hs
      cases hs
    | some resolved =>
      rw [hr] at hs
      dsimp only at hs
      split_ifs at hs
      cases hs
      exact u.resolved _ hr
  · cases hs

theorem Use.identity_eq :
    (hmIdentityBuild xxh3 u.l.version u.content (HM_IDENTITY_MAX + 1)).take HM_IDENTITY_MAX =
    u.identity := by
  have hv := u.version
  have hs : (ascii "siml:").length = 5 := rfl
  have hh : (ascii " hacman:").length = 8 := rfl
  rw [hmIdentityBuild, if_neg (by rw [hs, hh]; omega), List.take_of_length_le]
  · rfl
  · simp only [List.length_append, hmHashHex_length, hs, hh]
    omega

def kindPrefix (kind : Kind) : Bytes := if kind = .command then ascii "cmd-" else ascii "url-"

theorem kindPrefix_length (kind : Kind) : (kindPrefix kind).length = 4 := by
  cases kind <;> rfl

theorem Use.key_eq : u.slot.key = kindPrefix u.p.kind ++ hmHashHex xxh3 u.named := by
  have hname : ∀ name : Bytes, appendStr (HM_KEY_MAX + 1)
      (appendStr (HM_KEY_MAX + 1) [] (kindPrefix u.p.kind)) (hmHashHex xxh3 name) =
        kindPrefix u.p.kind ++ hmHashHex xxh3 name := by
    intro name
    have hp := kindPrefix_length u.p.kind
    have hn := hmHashHex_length xxh3 name
    have hcap : HM_KEY_MAX = 31 := rfl
    have hfirst : appendStr (HM_KEY_MAX + 1) [] (kindPrefix u.p.kind) = kindPrefix u.p.kind := by
      rw [appendStr_nil, List.take_of_length_le (by omega)]
    rw [hfirst, appendStr_fits _ (by omega)]
  have hid : appendStr (HM_IDENTITY_MAX + 1) []
      (hmIdentityBuild xxh3 u.l.version u.content (HM_IDENTITY_MAX + 1)) = u.identity :=
    (appendStr_nil _ _).trans u.identity_eq
  change slotKey xxh3 u.p u.source _ = _
  rw [hid]
  unfold Use.named slotKey
  cases hs : u.source with
  | none =>
    cases u.p.files <;> exact hname _
  | some path =>
    cases hf : u.p.files with
    | nil => exact absurd hf (u.source_some hs).1
    | cons file files => exact hname path

/-- Both projects are addressed by one path, or neither is by any and the bytes and the
versions agree. -/
def Shares : Prop :=
  match u.source, w.source with
  | some path, some path' => path = path'
  | none, none => u.content = w.content ∧ u.l.version = w.l.version
  | _, _ => False

theorem identity_ne_path {path : Bytes} (h : path.head? = some SLASH) : u.identity ≠ path := by
  rintro rfl
  have hs : ascii "siml:" = 115 :: ascii "iml:" := rfl
  rw [Use.identity, hs] at h
  cases h

theorem identity_eq_iff (h : xxh3 u.content = xxh3 w.content → u.content = w.content) :
    u.identity = w.identity ↔ u.content = w.content ∧ u.l.version = w.l.version := by
  have hlen : ∀ v : Use siml xxh3 dir, (ascii "siml:" ++ hmHashHex xxh3 v.content).length = 21 := by
    intro v
    rw [List.length_append, hmHashHex_length]
    rfl
  constructor
  · intro heq
    rw [Use.identity, Use.identity, List.append_assoc _ _ u.l.version,
      List.append_assoc _ _ w.l.version] at heq
    obtain ⟨hhead, htail⟩ := List.append_inj heq ((hlen u).trans (hlen w).symm)
    exact ⟨h (hmHashHex_eq_iff.mp (List.append_cancel_left hhead)), List.append_cancel_left htail⟩
  · rintro ⟨hcontent, hversion⟩
    rw [Use.identity, Use.identity, hcontent, hversion]

theorem named_eq_iff (h : xxh3 u.content = xxh3 w.content → u.content = w.content) :
    u.named = w.named ↔ Shares u w := by
  unfold Use.named Shares
  cases hu : u.source with
  | none =>
    cases hw : w.source with
    | none => exact identity_eq_iff u w h
    | some path => exact iff_of_false (identity_ne_path u (w.source_some hw).2) id
  | some path =>
    cases hw : w.source with
    | none => exact iff_of_false (Ne.symm (identity_ne_path w (u.source_some hu).2)) id
    | some path' => exact Iff.rfl

theorem Shares.kind_eq (h : Shares u w) : u.p.kind = w.p.kind := by
  have hu := u.checked.parse_eq
  have hw := w.checked.parse_eq
  unfold Shares at h
  cases hs : u.source with
  | none =>
    cases hs' : w.source with
    | none =>
      rw [hs, hs'] at h
      rw [u.siml_eq, h.1] at hu
      rw [w.siml_eq] at hw
      exact parseFrom_kind hu hw rfl
    | some path => rw [hs, hs'] at h; exact h.elim
  | some path =>
    cases hs' : w.source with
    | none => rw [hs, hs'] at h; exact h.elim
    | some path' =>
      rw [hmConfigParse_embedded hu (u.source_some hs).1,
        hmConfigParse_embedded hw (w.source_some hs').1]

def digested : Set Bytes := {u.content, w.content, u.named, w.named}

theorem key_eq_iff (hinj : Set.InjOn xxh3 (digested u w)) :
    u.slot.key = w.slot.key ↔ Shares u w := by
  have hcontent : xxh3 u.content = xxh3 w.content → u.content = w.content :=
    fun h => hinj (by simp [digested]) (by simp [digested]) h
  have hnamed : xxh3 u.named = xxh3 w.named → u.named = w.named :=
    fun h => hinj (by simp [digested]) (by simp [digested]) h
  rw [u.key_eq, w.key_eq]
  constructor
  · intro h
    obtain ⟨-, hhash⟩ := List.append_inj h
      ((kindPrefix_length _).trans (kindPrefix_length _).symm)
    exact (named_eq_iff u w hcontent).mp (hnamed (hmHashHex_eq_iff.mp hhash))
  · intro h
    rw [h.kind_eq, (named_eq_iff u w hcontent).mpr h]

end Use

section Paths
variable {siml : Bytes → List Event} {xxh3 : Bytes → UInt64} {dir : Bytes} (u w : Use siml xxh3 dir)

def suffixes : List Bytes := [[], ascii ".lock", ascii ".work"]

def paths (c : Slot) : List Bytes := [c.path, lockPath c, c.workdir]

def Inside (path dir : Bytes) : Prop := dir ++ [SLASH] <+: path

theorem key_length : u.slot.key.length = 20 := hmCacheInit_key_length _ _ _ _ _

theorem key_notMem : SLASH ∉ u.slot.key := by
  have hp : SLASH ∉ kindPrefix u.p.kind := by cases u.p.kind <;> decide
  have hh := hmHashHex_notMem xxh3 u.named (b := SLASH) (by decide)
  rw [u.key_eq]
  exact fun h => (List.mem_append.mp h).elim hp hh

theorem slot_paths (h : dir.length + 26 ≤ HM_PATH_MAX) :
    paths u.slot = suffixes.map fun suffix => dir ++ [SLASH] ++ u.slot.key ++ suffix := by
  have hkey := key_length u
  have hs : (ascii ".work").length = 5 := rfl
  have hl : (ascii ".lock").length = 5 := rfl
  obtain ⟨hpath, hwork⟩ := hmCacheInit_paths xxh3 u.p dir u.source
    (hmIdentityBuild xxh3 u.l.version u.content (HM_IDENTITY_MAX + 1))
  have hrecord : u.slot.path = dir ++ [SLASH] ++ u.slot.key := by
    refine hpath.trans (List.take_of_length_le ?_)
    change (dir ++ [SLASH] ++ u.slot.key).length ≤ HM_PATH_MAX
    simp only [List.length_append, List.length_singleton]
    omega
  have hdir : u.slot.workdir = dir ++ [SLASH] ++ u.slot.key ++ ascii ".work" := by
    refine hwork.trans (List.take_of_length_le ?_)
    change (dir ++ [SLASH] ++ u.slot.key ++ ascii ".work").length ≤ HM_PATH_MAX
    simp only [List.length_append, List.length_singleton]
    omega
  have hlen : u.slot.path.length = dir.length + 21 := by
    rw [hrecord]
    simp only [List.length_append, List.length_singleton]
    omega
  have hfirst : appendStr (HM_PATH_MAX + 6) [] u.slot.path = u.slot.path := by
    rw [appendStr_nil, List.take_of_length_le (by omega)]
  have hlock : lockPath u.slot = dir ++ [SLASH] ++ u.slot.key ++ ascii ".lock" := by
    rw [lockPath, hfirst, appendStr_fits _ (by omega), hrecord]
  simp [paths, suffixes, hlock, hdir, hrecord]

theorem key_of_path {suffix suffix' : Bytes}
    (h : dir ++ [SLASH] ++ u.slot.key ++ suffix = dir ++ [SLASH] ++ w.slot.key ++ suffix') :
    u.slot.key = w.slot.key ∧ suffix = suffix' := by
  rw [List.append_assoc, List.append_assoc _ w.slot.key] at h
  exact List.append_inj (List.append_cancel_left h) ((key_length u).trans (key_length w).symm)

theorem suffix_notMem {suffix : Bytes} (h : suffix ∈ suffixes) : SLASH ∉ suffix := by
  have hall : ∀ suffix ∈ suffixes, SLASH ∉ suffix := by decide
  exact hall suffix h

theorem not_inside {suffix suffix' : Bytes} (hs : suffix ∈ suffixes) :
    ¬ Inside (dir ++ [SLASH] ++ u.slot.key ++ suffix)
      (dir ++ [SLASH] ++ w.slot.key ++ suffix') := by
  intro h
  unfold Inside at h
  rw [List.append_assoc _ u.slot.key, List.append_assoc _ w.slot.key,
    List.append_assoc (dir ++ [SLASH]), List.prefix_append_right_inj] at h
  have hslash : SLASH ∈ u.slot.key ++ suffix := h.subset (by simp)
  exact (List.mem_append.mp hslash).elim (key_notMem u) (suffix_notMem hs)

/-- Two invocations in one cache directory use one record exactly if they use one work
directory, and exactly if they share their slot; other slots have other paths, and no
path of a slot is inside a work directory. -/
theorem slots_shared (hinj : Set.InjOn xxh3 (digested u w))
    (hfits : dir.length + 26 ≤ HM_PATH_MAX) :
    (u.slot.path = w.slot.path ↔ u.slot.workdir = w.slot.workdir) ∧
      (u.slot.path = w.slot.path ↔ Shares u w) ∧
        (¬ Shares u w → ∀ a ∈ paths u.slot, ∀ b ∈ paths w.slot, a ≠ b) ∧
          ∀ a ∈ paths u.slot, ¬ Inside a w.slot.workdir := by
  have hkey := key_eq_iff u w hinj
  have hspelled : ∀ v : Use siml xxh3 dir, ∀ a ∈ paths v.slot, ∃ suffix ∈ suffixes,
      dir ++ [SLASH] ++ v.slot.key ++ suffix = a := by
    intro v a ha
    rw [slot_paths v hfits] at ha
    exact List.mem_map.mp ha
  have hsame : u.slot.key = w.slot.key → paths u.slot = paths w.slot := by
    intro h
    rw [slot_paths u hfits, slot_paths w hfits, h]
  have hdiffer : ¬ Shares u w → ∀ a ∈ paths u.slot, ∀ b ∈ paths w.slot, a ≠ b := by
    intro hno a ha b hb hab
    obtain ⟨suffix, -, rfl⟩ := hspelled u a ha
    obtain ⟨suffix', -, rfl⟩ := hspelled w b hb
    exact hno (hkey.mp (key_of_path u w hab).1)
  have hrecord : u.slot.path = w.slot.path ↔ Shares u w := by
    constructor
    · intro h
      by_contra hno
      exact hdiffer hno _ (by simp [paths]) _ (by simp [paths]) h
    · intro h
      exact (List.cons.inj (hsame (hkey.mpr h))).1
  have hwork : u.slot.workdir = w.slot.workdir ↔ Shares u w := by
    constructor
    · intro h
      by_contra hno
      exact hdiffer hno _ (by simp [paths]) _ (by simp [paths]) h
    · intro h
      have hall := hsame (hkey.mpr h)
      simp only [paths, List.cons.injEq] at hall
      exact hall.2.2.1
  refine ⟨hrecord.trans hwork.symm, hrecord, hdiffer, fun a ha => ?_⟩
  obtain ⟨suffix, hsuffix, rfl⟩ := hspelled u a ha
  obtain ⟨suffix', -, hwd⟩ := hspelled w w.slot.workdir (by simp [paths])
  rw [← hwd]
  exact not_inside u w hsuffix

def urlLine (content : Bytes) : List Event :=
  [.streamStart, .documentStart 1, .mappingStart 1,
    .scalar (ascii "url") ((content.drop 5).takeWhile (· ≠ LF)) 1, .mappingEnd 2,
    .documentEnd, .streamEnd]

def lineUse (copy other : Bool) : Use urlLine polynomial (ascii "/c") where
  l := {
    opts := {
      file := some (if copy then ascii "b.siml" else ascii "a.siml")
      cacheDir := some (ascii "/c") }
    siml := urlLine
    xxh3 := polynomial
    version := ascii "1.0"
    content := some (if other then ascii "url: v\n" else ascii "url: u\n") }
  file := if copy then ascii "b.siml" else ascii "a.siml"
  content := if other then ascii "url: v\n" else ascii "url: u\n"
  p := {
    name := if other then ascii "v" else ascii "u"
    url := if other then ascii "v" else ascii "u"
    schedKind := .every
    schedInterval := 86400
    sandboxed := true
    line := 1 }
  source := none
  checked := by constructor <;> cases copy <;> cases other <;> decide +kernel
  cache := rfl
  siml_eq := rfl
  xxh3_eq := rfl
  version := Nat.le_of_ble_eq_true rfl
  opened := nofun
  resolved := nofun

theorem lineUse_digested (copy other copy' other' : Bool) :
    Set.InjOn polynomial (digested (lineUse copy other) (lineUse copy' other')) := by
  have hlist : ∀ a ∈ [(lineUse copy other).content, (lineUse copy' other').content,
      (lineUse copy other).named, (lineUse copy' other').named],
      ∀ b ∈ [(lineUse copy other).content, (lineUse copy' other').content,
        (lineUse copy other).named, (lineUse copy' other').named],
        polynomial a = polynomial b → a = b := by
    cases copy <;> cases other <;> cases copy' <;> cases other' <;> decide +kernel
  intro a ha b hb h
  exact hlist a (by simpa [digested] using ha) b (by simpa [digested] using hb) h

theorem slots_shared_copy : (lineUse false false).slot.path = (lineUse true false).slot.path ∧
    (lineUse false false).slot.path ≠ (lineUse true true).slot.path :=
  ⟨(slots_shared _ _ (lineUse_digested ..) (by decide)).2.1.mpr ⟨rfl, rfl⟩, fun h =>
    absurd ((slots_shared _ _ (lineUse_digested ..) (by decide)).2.1.mp h).1 (by decide)⟩

end Paths

end Hacman.Sharing
