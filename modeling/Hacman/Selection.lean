import Hacman.BinPath
import Hacman.SourcePath

/-!
# The program of an invoked name

With a `bin-path` mapping the last component of FILE selects the program. The parser keeps
a candidate while the entries stream in; a name that is not listed runs the first entry only
if it is the file's own.
-/

namespace Hacman.Selection
open Octets Util Cache Config FileTree Interaction Main Requests BinPath SourcePath

section Keys

theorem entriesFrom_mem {k : Sharing.Outline} {evs : List Event} {e : Bytes × Bytes}
    (h : e ∈ entriesFrom k evs) : e.1 ≠ [] ∧ ∃ line, .scalar e.1 e.2 line ∈ evs := by
  induction evs generalizing k with
  | nil => cases h
  | cons ev evs ih =>
    by_cases hev : ev = .streamEnd
    · subst hev
      cases h
    · rw [entriesFrom_cons hev, List.mem_append] at h
      rcases h with h | h
      · cases ev with
        | scalar key value line =>
          rw [entry] at h
          split_ifs at h with hin
          · simp only [Option.toList_some, List.mem_singleton] at h
            subst h
            exact ⟨by simpa using (Bool.and_eq_true_iff.mp hin).2, line, List.mem_cons_self⟩
          · cases h
        | _ => cases h
      · obtain ⟨hne, line, hmem⟩ := ih h
        exact ⟨hne, line, List.mem_cons_of_mem _ hmem⟩

theorem key_of_traced {content : Bytes} {g : Option Siml.OpenBlock} {evs : List Event}
    (h : Siml.Traced content g evs) {key value : Bytes} {line : Nat} (hne : key ≠ [])
    (hmem : .scalar key value line ∈ evs) : Siml.Key key := by
  induction h with
  | error => simp at hmem
  | done => cases hmem
  | step hev hrest ih =>
    rcases List.mem_cons.mp hmem with rfl | hmem
    · cases hev with
      | plain hplain => exact (hplain.resolve_left fun h => hne h.1).1
    · exact ih hmem

theorem mapping_keys {content : Bytes} {evs : List Event}
    (h : Siml.Emits (Siml.start content) evs) : ∀ e ∈ mapping evs, Siml.Key e.1 := by
  intro e he
  obtain ⟨hne, line, hmem⟩ := entriesFrom_mem he
  exact key_of_traced (Siml.traced_start h) hne hmem

theorem lookup_of_not_key {content name : Bytes} {evs : List Event}
    (h : Siml.Emits (Siml.start content) evs) (hname : ¬ Siml.Key name) :
    (mapping evs).lookup name = none := by
  rw [List.lookup_eq_none_iff]
  intro e he
  have hkey := mapping_keys h e he
  have hne : name ≠ e.1 := fun heq => hname (heq ▸ hkey)
  simpa using hne

end Keys

section Choice
variable {k : Kernel} {t : Tree} (sys : System k t) (l : Launch) (file content : Bytes)
  (p : Project)

/-- The program of the entry with the invoked name; the first one if there is none and the
name is the file's own, or the file has none. -/
def select (entries : List (Bytes × Bytes)) (stdin : Bool) (name : Bytes) (own : Option Bytes) :
    Option Bytes :=
  (entries.lookup name).orElse fun _ =>
    if stdin ∨ own = some name then entries.head?.map Prod.snd else none

/-- An invocation of a file whose mapping is accepted. -/
structure Invoked : Prop where
  file_eq : l.opts.file = some file
  content_eq : l.content = some content
  emits : Siml.Emits (Siml.start content) (l.siml content)
  parse_eq : hmConfigParse (l.input file content) (l.siml content) = .ok p
  listed : mapping (l.siml content) ≠ []
  opened : isStdin file = false → ∃ fd, Opening sys l file fd

/-- What is selected, from the name in FILE and the file's resolved own name. -/
def selected : Option Bytes :=
  select (mapping (l.siml content)) (isStdin file) (hmBinNameOf file) (l.resolved.map hmBinNameOf)

variable {sys l file content p}

theorem Invoked.shortcut (h : Invoked sys l file content p) (hstdin : isStdin file = false)
    (hmark : l.canonical = true) : l.resolved = some file := by
  obtain ⟨fd, hfd⟩ := h.opened hstdin
  exact hfd.shortcut hmark

/-- What the parser compares the keys with gives the same entry as the last component. -/
theorem Invoked.lookup_eq (h : Invoked sys l file content p) :
    (mapping (l.siml content)).lookup (invokedName (l.input file content)) =
      (mapping (l.siml content)).lookup (hmBinNameOf file) := by
  cases hstdin : isStdin file with
  | true =>
    have hfile : file = ascii "-" := by simpa [isStdin] using hstdin
    rw [lookup_of_not_key h.emits, lookup_of_not_key h.emits]
    · rw [hfile]
      decide
    · simp [invokedName, Launch.input, hstdin, Siml.Key]
  | false => simp [invokedName, Launch.input, hstdin]

theorem Invoked.choice (h : Invoked sys l file content p) :
    (∀ path, (mapping (l.siml content)).lookup (hmBinNameOf file) = some path →
      p.binChoice = .named ∧ p.bin = path) ∧
    ((mapping (l.siml content)).lookup (hmBinNameOf file) = none →
      p.binChoice = .default ∧ (mapping (l.siml content)).head?.map Prod.snd = some p.bin) := by
  obtain ⟨-, -, hfound, hmissing⟩ := hmConfigParse_selects h.parse_eq h.listed
  rw [h.lookup_eq] at hfound hmissing
  exact ⟨hfound, hmissing⟩

theorem Invoked.bin_eq (h : Invoked sys l file content p) {path : Bytes}
    (hs : selected l file content = some path) : p.bin = path := by
  obtain ⟨hfound, hmissing⟩ := h.choice
  unfold selected select at hs
  cases hlookup : (mapping (l.siml content)).lookup (hmBinNameOf file) with
  | some path' =>
    rw [hlookup] at hs
    rw [← Option.some.inj hs]
    exact (hfound path' hlookup).2
  | none =>
    rw [hlookup] at hs
    change (if _ then _ else none) = some path at hs
    split_ifs at hs
    rw [(hmissing hlookup).2] at hs
    exact Option.some.inj hs

theorem prepare_parsed (hfile : l.opts.file = some file) (hcontent : l.content = some content)
    (hparse : hmConfigParse (l.input file content) (l.siml content) = .ok p) :
    prepare l = match unpackTarget l with
      | .error text => .exit HM_EXIT_USAGE text
      | .ok (some target) => .unpack p target
      | .ok none =>
        match prepareProject l p file with
        | .error text => .exit HM_EXIT_USAGE text
        | .ok source => prepareSlot l p file content source := by
  simp only [prepare, hfile, hcontent, hparse]
  cases unpackTarget l with
  | error text => rfl
  | ok target => cases target <;> rfl

def Executes (path : Bytes) : Call → Prop
  | .exec program _ => program = path
  | _ => True

theorem executes_of_footprint {p : Project} {c : Slot} {dir : Bytes} {waits : Prop} {r : Call}
    (h : Footprint p c dir waits r) : Executes p.binPath r := by
  cases r <;> first | exact h | trivial

theorem printPlan_executes (path : Bytes) (texts : List Bytes) :
    (printPlan texts).Only (Executes path) := by
  induction texts with
  | nil => trivial
  | cons text texts ih => exact ⟨trivial, fun _ => ih⟩

/-- The slot that an invocation comes to, if nothing rejects it, and the one program that it
may run, made from the value of the entry. -/
structure Runs (l : Launch) (x : Input) (p : Project) (path : Bytes) (c : Slot)
    (dir : Bytes) : Prop where
  bin : p.bin = path
  expanded : expandBin x p = .ok p.binPath
  prepared : let p' := { p with binPath := binBelow c.workdir p.binPath }
    prepare l = if l.opts.plan then .plan p' c else .run p' c dir
  executes : (main l).Only (Executes (binBelow c.workdir p.binPath))

theorem target_none (hunpack : l.opts.unpack = false) : unpackTarget l = .ok none := by
  simp [unpackTarget, hunpack]

theorem Invoked.runs (h : Invoked sys l file content p) (hunpack : l.opts.unpack = false)
    {path : Bytes} (hs : selected l file content = some path) :
    (∃ text, prepare l = .exit HM_EXIT_USAGE text) ∨
      ∃ c dir, Runs l (l.input file content) p path c dir := by
  cases hsource : prepareProject l p file with
  | error text =>
    refine .inl ⟨text, ?_⟩
    rw [prepare_parsed h.file_eq h.content_eq h.parse_eq, target_none hunpack, hsource]
  | ok source =>
    have hchecked : Checked l file content p source :=
      ⟨h.file_eq, target_none hunpack, h.content_eq, h.parse_eq, hsource⟩
    have hexpanded := (hmConfigParse_resolved h.parse_eq).expanded
    have hprepare := prepare_checked l hchecked
    unfold prepareSlot at hprepare
    cases hdir : hmCacheDir l.opts.cacheDir l.startup with
    | none =>
      rw [hdir] at hprepare
      exact .inl ⟨_, hprepare⟩
    | some dir =>
      rw [hdir] at hprepare
      dsimp only at hprepare
      split at hprepare
      · exact .inl ⟨_, hprepare⟩
      · rename_i p' hok
        have hp' := resolveCachedBin_below hok
        subst hp'
        refine .inr ⟨_, dir, h.bin_eq hs, hexpanded, hprepare, ?_⟩
        unfold main
        rw [hprepare]
        by_cases hplan : l.opts.plan = true
        · rw [if_pos hplan]
          exact printPlan_executes _ _
        · rw [if_neg hplan]
          exact (act_footprint _ l.opts _ dir).mono fun r hr => executes_of_footprint hr

end Choice

end Hacman.Selection
