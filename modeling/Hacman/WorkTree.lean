import Hacman.FileTree
import Hacman.Cache
import Hacman.Config

/-!
# The work directory

What the parent process does to a project's work directory before the command runs in it:
it takes the directory away with all that is in it, creates it, and writes the embedded
files into it. Each is a program over the calls of the file system.
-/

namespace Hacman.WorkTree
open Octets Util Cache Config FileTree Interaction

def linux : Kernel where
  cwd := []
  pathMax := 4096
  openMax := 1024
  linkMax := 40
  names := listing
  mem_names := mem_listing

/-- What is printed about a call that failed: the path, the text and the reason. -/
structure Complaint where
  path : Bytes
  text : Bytes
  reason : Option Errno := none
  deriving DecidableEq, Repr

abbrev Outcome := Except Complaint Unit

def complain {α : Type} (path : Bytes) (text : String) (reason : Option Errno) :
    Except Complaint α :=
  .error ⟨path, ascii text, reason⟩

/-- The strings that the loop of `mkdir_p` cuts out of a path: up to each slash but a
leading one, and the path itself. -/
def cuts (path : Bytes) : List Bytes :=
  ((List.range' 1 path.length).filter fun i => i = path.length ∨
    path[i]? = some SLASH).map path.take

def mkdirEach : List Bytes → F Outcome
  | [] => pure (.ok ())
  | dir :: dirs => do
    match ← mkdir .cwd dir 0o700 with
    | .ok () => mkdirEach dirs
    | .error e =>
      if e = .exist then mkdirEach dirs else pure (complain dir "cannot create directory" e)

def mkdirP (path : Bytes) : F Outcome :=
  if path = [] ∨ HM_PATH_MAX * 2 + 2 ≤ path.length then
    pure (complain [] "work directory path is too long" none)
  else mkdirEach (cuts path)

section Reset

def S_IRWXU : Nat := 0o700

/-- Some tools leave directories that their owner may not change. -/
def restoreMode (path : Bytes) (mode : Nat) : F (Except Errno Unit) :=
  if mode &&& S_IRWXU ≠ S_IRWXU then chmod path (mode ||| S_IRWXU) else pure (.ok ())

/-- The loop over one directory; it closes the directory on every way out. -/
def removeEntries (remove : Bytes → F Outcome) (path : Bytes) : List Name → F Outcome
  | [] => do
    match ← readdir none with
    | .error e =>
      let _ ← closedir
      pure (complain path "cannot read stale work directory" e)
    | .ok () =>
      match ← closedir with
      | .error e => pure (complain path "cannot close stale work directory" e)
      | .ok () => pure (.ok ())
  | name :: names => do
    match ← readdir (some name) with
    | .error e =>
      let _ ← closedir
      pure (complain path "cannot read stale work directory" e)
    | .ok () =>
      if name = DOT ∨ name = DOTDOT then removeEntries remove path names
      else
        match ← remove (path ++ SLASH :: name) with
        | .error c =>
          let _ ← closedir
          pure (.error c)
        | .ok () => removeEntries remove path names

/-- Each level of directories takes one unit of `fuel`. -/
def removeTree : Nat → Bytes → F Outcome
  | 0, path => pure (complain path "too deep" none)
  | fuel + 1, path => do
    match ← lstat path with
    | .error e =>
      if e = .noent then pure (.ok ())
      else pure (complain path "cannot inspect stale work path" e)
    | .ok st =>
      if st.isDir then
        match ← restoreMode path st.mode with
        | .error e => pure (complain path "cannot make stale work directory writable" e)
        | .ok () =>
          match ← opendir path with
          | .error e => pure (complain path "cannot open stale work directory" e)
          | .ok names =>
            match ← removeEntries (removeTree fuel) path names with
            | .error c => pure (.error c)
            | .ok () =>
              match ← rmdir path with
              | .error e => pure (complain path "cannot remove stale work directory" e)
              | .ok () => pure (.ok ())
      else
        match ← unlink .cwd path with
        | .error e => pure (complain path "cannot remove stale work file" e)
        | .ok () => pure (.ok ())

def hmWorkdirReset (fuel : Nat) (workdir : Bytes) : F Outcome := removeTree fuel workdir

end Reset

section Files

def hmWorkdirEnsure (workdir : Bytes) : F Outcome := do
  match ← mkdirP workdir with
  | .error c => pure (.error c)
  | .ok () =>
    match ← lstat workdir with
    | .error _ => pure (complain workdir "sandbox work path is not a directory" none)
    | .ok st =>
      if st.isDir then pure (.ok ())
      else pure (complain workdir "sandbox work path is not a directory" none)

/-- Each line is followed by a line feed; the first write that fails ends the loop. -/
def writeLines (file : Path) : List Bytes → F Bool
  | [] => pure true
  | line :: lines => do
    if ← fwrite file line then
      if ← fwrite file [LF] then writeLines file lines else pure false
    else pure false

/-- Keys of the parser hold no NUL, so that the whole path is printed into `target`. -/
def targetOf (workdir path : Bytes) : Bytes := workdir ++ SLASH :: path

/-- Everything before the last slash of `target`, but a leading one. -/
def parentOf (target : Bytes) : Bytes :=
  match (List.range' 1 target.length).reverse.find? fun i => target[i]? = some SLASH with
  | some i => target.take i
  | none => target

def tempOf (target : Bytes) (pid : Nat) : Bytes := target ++ ascii ".tmp." ++ decimal pid

def writeEmbeddedFile (pid : Nat) (file : EmbeddedFile) (workdir : Bytes) : F Outcome :=
  let target := targetOf workdir file.path
  let temp := tempOf target pid
  if HM_PATH_MAX * 2 + 2 ≤ target.length then
    pure (complain [] "embedded-file path is too long" none)
  else do
    match ← mkdirP (parentOf target) with
    | .error c => pure (.error c)
    | .ok () =>
      if HM_PATH_MAX * 2 + 32 ≤ temp.length then
        pure (complain [] "embedded-file temporary path is too long" none)
      else
        match ← create .cwd temp 0o600 with
        | .error e => pure (complain temp "cannot create embedded file" e)
        | .ok fp =>
          match ← fdopen fp with
          | .error _ =>
            let _ ← unlink .cwd temp
            pure (complain temp "fdopen failed" none)
          | .ok () =>
            if ← writeLines fp (fileLines file) then
              if ← fclose fp then
                match ← rename temp target with
                | .error e =>
                  let _ ← unlink .cwd temp
                  pure (complain target "cannot install embedded file" e)
                | .ok () => pure (.ok ())
              else
                let _ ← unlink .cwd temp
                pure (complain temp "cannot write embedded file" none)
            else
              let _ ← fclose fp
              let _ ← unlink .cwd temp
              pure (complain temp "cannot write embedded file" none)

def writeFiles (pid : Nat) (workdir : Bytes) : List EmbeddedFile → F Outcome
  | [] => pure (.ok ())
  | file :: files => do
    match ← writeEmbeddedFile pid file workdir with
    | .error c => pure (.error c)
    | .ok () => writeFiles pid workdir files

def hmMaterializeFiles (pid : Nat) (p : Project) (workdir : Bytes) : F Outcome := do
  match ← hmWorkdirEnsure workdir with
  | .error c => pure (.error c)
  | .ok () => writeFiles pid workdir p.files

end Files

section Cuts

theorem cut_spec {path cut : Bytes} (h : cut ∈ cuts path) : cut ≠ [] ∧ cut.length ≤ path.length ∧
    ∃ rest, comps path = comps cut ++ rest ∧ ∀ base, origin base cut = origin base path := by
  obtain ⟨i, hi, rfl⟩ := List.mem_map.mp h
  obtain ⟨hi, hend⟩ := List.mem_filter.mp hi
  rw [List.mem_range'_1] at hi
  have hne : path.take i ≠ [] := by
    intro hnil
    have hlen := congrArg List.length hnil
    rw [List.length_take, List.length_nil] at hlen
    omega
  refine ⟨hne, List.length_take_le' _ _, ?_⟩
  rcases of_decide_eq_true hend with rfl | hslash
  · refine ⟨[], ?_, fun base => ?_⟩
    · rw [List.take_length, List.append_nil]
    · rw [List.take_length]
  · obtain ⟨hlt, hget⟩ := List.getElem?_eq_some_iff.mp hslash
    have hsplit : path.take i ++ SLASH :: path.drop (i + 1) = path := by
      rw [← hget, ← List.drop_eq_getElem_cons hlt, List.take_append_drop]
    refine ⟨comps (path.drop (i + 1)), ?_, fun base => ?_⟩
    · rw [← comps_append, hsplit]
    · rw [← origin_append hne (SLASH :: path.drop (i + 1)), hsplit]

theorem last_slash (path : Bytes) : SLASH ∉ path ∨ ∃ s m, path = s ++ SLASH :: m ∧ SLASH ∉ m := by
  by_cases h : SLASH ∈ path.reverse
  · obtain ⟨m, s, hsplit, hm⟩ := List.eq_append_cons_of_mem h
    refine .inr ⟨s.reverse, m.reverse, ?_, by simpa using hm⟩
    rw [← List.reverse_reverse path, hsplit, List.reverse_append, List.reverse_cons,
      List.append_assoc]
    rfl
  · exact .inl (by simpa using h)

theorem cuts_snoc {s m : Bytes} (hm : SLASH ∉ m) :
    cuts (s ++ SLASH :: m) = cuts s ++ [s ++ SLASH :: m] := by
  have hlen : (s ++ SLASH :: m).length = s.length + (m.length + 1) := by simp
  have hget : ∀ i, s.length < i → (s ++ SLASH :: m)[i]? ≠ some SLASH := by
    intro i hi hslash
    rw [List.getElem?_append_right (Nat.le_of_lt hi),
      ← Nat.succ_pred_eq_of_pos (Nat.sub_pos_of_lt hi), List.getElem?_cons_succ] at hslash
    exact hm (List.mem_of_getElem? hslash)
  have hsplit : List.range' 1 (s.length + (m.length + 1)) =
      List.range' 1 s.length ++ (List.range' (1 + s.length) m.length ++
        [1 + s.length + m.length]) := by
    rw [← List.range'_append_1, ← List.range'_1_concat]
  rw [cuts, hlen, hsplit, List.filter_append, List.map_append, List.filter_append]
  congr 1
  · rw [cuts]
    have hfilter : (List.range' 1 s.length).filter (fun i => i = s.length + (m.length + 1) ∨
          (s ++ SLASH :: m)[i]? = some SLASH) =
        (List.range' 1 s.length).filter fun i => i = s.length ∨ s[i]? = some SLASH := by
      refine List.filter_congr fun i hi => ?_
      rw [List.mem_range'_1] at hi
      rcases Nat.lt_or_ge i s.length with hlt | hge
      · rw [List.getElem?_append_left hlt]
        simp only [show i ≠ s.length + (m.length + 1) by omega, show i ≠ s.length by omega]
      · obtain rfl : i = s.length := by omega
        simp
    rw [hfilter]
    refine List.map_congr_left fun i hi => List.take_append_of_le_length ?_
    have hmem := List.mem_range'_1.mp (List.mem_filter.mp hi).1
    omega
  · have hnone : (List.range' (1 + s.length) m.length).filter (fun i =>
        i = s.length + (m.length + 1) ∨ (s ++ SLASH :: m)[i]? = some SLASH) = [] := by
      refine List.filter_eq_nil_iff.mpr fun i hi => ?_
      rw [List.mem_range'_1] at hi
      have hne := hget i (by omega)
      simp only [decide_eq_true_eq, not_or]
      exact ⟨by omega, hne⟩
    rw [hnone, List.nil_append, List.filter_cons_of_pos (by simp; omega)]
    rw [List.filter_nil, List.map_singleton, List.take_of_length_le (by omega)]

theorem parentOf_snoc {s m : Bytes} (hs : s ≠ []) (hm : SLASH ∉ m) :
    parentOf (s ++ SLASH :: m) = s := by
  have hlen : (s ++ SLASH :: m).length = s.length + (m.length + 1) := by simp
  have hpos := List.length_pos_iff.mpr hs
  obtain ⟨l, hl⟩ : ∃ l, s.length = l + 1 := ⟨s.length - 1, by omega⟩
  have hafter : (List.range' (1 + s.length) (m.length + 1)).reverse.find?
      (fun i => (s ++ SLASH :: m)[i]? = some SLASH) = none := by
    refine List.find?_eq_none.mpr fun i hi => ?_
    rw [List.mem_reverse, List.mem_range'_1] at hi
    rw [decide_eq_true_eq, List.getElem?_append_right (by omega),
      ← Nat.succ_pred_eq_of_pos (show 0 < i - s.length by omega), List.getElem?_cons_succ]
    exact fun hslash => hm (List.mem_of_getElem? hslash)
  have hfind : (List.range' 1 (s ++ SLASH :: m).length).reverse.find?
      (fun i => (s ++ SLASH :: m)[i]? = some SLASH) = some s.length := by
    rw [hlen, ← List.range'_append_1, List.reverse_append, List.find?_append, hafter,
      Option.none_or,
      hl, List.range'_1_concat, List.reverse_append, List.reverse_singleton, List.singleton_append,
      Nat.add_comm 1 l, List.find?_cons_of_pos, ← hl]
    simp [← hl]
  rw [parentOf, hfind]
  simp

end Cuts

section Accepted
variable {x : Input} {c c' : Cfg}

/-- Paths that spell places below a directory, each another one. -/
structure SoundPaths (files : List EmbeddedFile) : Prop where
  valid : ∀ f ∈ files, validFilePath f.path = true
  distinct : (files.map (·.path)).Nodup

theorem SoundPaths.of_same {files files' : List EmbeddedFile} (h : SoundPaths files)
    (hsame : files'.map (·.path) = files.map (·.path)) : SoundPaths files' := by
  refine ⟨fun f hf => ?_, hsame ▸ h.distinct⟩
  obtain ⟨g, hg, hpath⟩ := List.mem_map.mp (hsame ▸ List.mem_map_of_mem (f := EmbeddedFile.path) hf)
  rw [← hpath]
  exact h.valid g hg

theorem map_path_modify (files : List EmbeddedFile) (i : Nat) {f : EmbeddedFile → EmbeddedFile}
    (hf : ∀ file, (f file).path = file.path) : (files.modify i f).map (·.path) =
    files.map (·.path) := by
  refine List.ext_getElem? fun j => ?_
  rw [List.getElem?_map, List.getElem?_map, List.getElem?_modify]
  cases files[j]? with
  | none => rfl
  | some file =>
    split_ifs
    · exact congrArg some (hf file)
    · rfl

theorem addFile_sound {path : Bytes} {line : Nat} (h : SoundPaths c.out.files)
    (hadd : addFile x c path line = .ok c') : SoundPaths c'.out.files := by
  rw [addFile_ok hadd]
  unfold addFile at hadd
  dsimp only at hadd
  split_ifs at hadd with hvalid hdup
  refine ⟨?_, ?_⟩
  · intro f hf
    rcases List.mem_append.mp hf with hf | hf
    · exact h.valid f hf
    · rw [List.mem_singleton.mp hf]
      simpa using hvalid
  · rw [List.map_append, List.nodup_append]
    refine ⟨h.distinct, List.nodup_singleton _, fun a ha b hb hab => hdup ?_⟩
    obtain ⟨f, hf, hpath⟩ := List.mem_map.mp ha
    rw [List.any_eq_true]
    refine ⟨f, hf, decide_eq_true ?_⟩
    rw [hpath, hab]
    exact List.mem_singleton.mp hb

theorem onEvent_sound {ev : Event} (h : SoundPaths c.out.files) (he : onEvent x c ev = .ok c') :
    SoundPaths c'.out.files := by
  cases ev with
  | blockStart key line =>
    simp only [onEvent, blockScalarStart] at he
    split_ifs at he
    · cases hadd : addFile x c key line with
      | error msg =>
        rw [hadd] at he
        cases he
      | ok c₁ =>
        rw [hadd] at he
        cases he
        have hsound : SoundPaths c₁.out.files := addFile_sound h hadd
        exact hsound
    · cases he
      exact h
  | blockLine value =>
    cases he
    split
    · rename_i b _
      unfold blockLine
      split
      · exact h
      · split
        · exact h
        · cases b with
          | install => exact h
          | file i => exact h.of_same (map_path_modify _ i fun _ => rfl)
    · exact h
  | blockEnd =>
    cases he
    unfold blockEnd
    dsimp only
    split
    · exact h
    · exact h.of_same (map_path_modify _ _ fun _ => rfl)
    · exact h
  | scalar key value line =>
    simp only [onEvent, scalar] at he
    split_ifs at he
    · rw [addSandboxWriteDir_ok he]
      exact h
    · rw [addBinEntry_ok he]
      exact h
    · rw [(applyField_frame he).parts.files]
      exact h
  | mappingStart line =>
    simp only [onEvent, mappingStart] at he
    split_ifs at he
    · cases he
      exact h
    · cases he
      exact h
    · rw [(beginProject_ok he).2.2]
      exact ⟨fun f hf => absurd hf List.not_mem_nil, List.nodup_nil⟩
  | mappingEnd line =>
    simp only [onEvent, mappingEnd] at he
    split_ifs at he
    · cases he
      exact h
    · rw [finishBinMap_ok he]
      exact h
    · rw [(finishProject_frame he).files]
      exact h
  | error line msg => cases he
  | _ =>
    simp only [onEvent, entryHeader, sequenceStart] at he
    try split_ifs at he
    all_goals
      cases he
      exact h

theorem hmConfigParse_sound {evs : List Event} {p : Project} (h : hmConfigParse x evs = .ok p) :
    SoundPaths p.files := by
  obtain ⟨c, hc, -, rfl⟩ := parseFrom_keeps (c := {}) (I := fun c => SoundPaths c.out.files)
    (fun _ _ _ _ => onEvent_sound) ⟨fun _ hf => absurd hf List.not_mem_nil, List.nodup_nil⟩ h
  exact hc

theorem relative_proper {path : Bytes} {max : Nat} (h : validRelativePath path max = true) :
    ∀ n ∈ fields SLASH path, proper n = true := by
  simp only [validRelativePath, Bool.and_eq_true, List.all_eq_true] at h
  intro n hn
  have hname := h.2 n hn
  simp only [decide_eq_true_eq] at hname
  refine proper_iff.mpr ⟨hname.1.1, hname.1.2, hname.2, fun hslash => ?_⟩
  exact fields_notMem SLASH path n hn hslash

/-- The names in the path of an accepted file. -/
theorem fields_proper {path : Bytes} (h : validFilePath path = true) :
    ∀ n ∈ fields SLASH path, proper n = true := relative_proper h

end Accepted

end Hacman.WorkTree
