import Hacman.Facts
import Mathlib.Data.List.Induction
import Mathlib.Data.List.Pairwise
import Mathlib.Data.List.Permutation

/-!
# The order of the entries

Facts about different things can be told in either order. Only two entries tell the same
thing: an `install` block inside the `bin-path` mapping is taken for the project's own,
and the later of the two texts stays.
-/

namespace Hacman.Facts
open Octets Util Config Levels

section Told
variable {x : Input} {c c' d : Cfg}

def told (x : Input) : List (Bytes × Node) → Option (List Fact)
  | [] => some []
  | entry :: root => (facts x entry).bind fun gs => (told x root).map (gs ++ ·)

theorem told_cons {entry : Bytes × Node} {root : List (Bytes × Node)} {fs : List Fact} :
    told x (entry :: root) = some fs ↔
      ∃ gs hs, facts x entry = some gs ∧ told x root = some hs ∧ fs = gs ++ hs := by
  rw [told, Option.bind_eq_some_iff]
  constructor
  · rintro ⟨gs, hgs, h⟩
    obtain ⟨hs, hhs, rfl⟩ := Option.map_eq_some_iff.mp h
    exact ⟨gs, hs, hgs, hhs, rfl⟩
  · rintro ⟨gs, hs, hgs, hhs, rfl⟩
    exact ⟨gs, hgs, by rw [hhs]; rfl⟩

/-- What a fact is about. -/
inductive Slot
  | field (f : Field)
  | dirs
  | files
  deriving DecidableEq

def slot : Fact → Slot
  | .field f _ => .field f
  | .install _ _ => .field .install
  | .dirs _ => .dirs
  | .files _ => .files
  | .bins _ => .field .binPath

def fieldKey : Field → Bytes
  | .name => ascii "name"
  | .url => ascii "url"
  | .command => ascii "command"
  | .binPath => ascii "bin-path"
  | .check => ascii "check"
  | .schedule => ascii "schedule"
  | .sandboxed => ascii "sandboxed"
  | .versionPrefix => ascii "version-prefix"
  | .versionSuffix => ascii "version-suffix"
  | .install => ascii "install"

def slotKey : Slot → Bytes
  | .field f => fieldKey f
  | .dirs => dirsKey
  | .files => filesKey

theorem fieldOf_key {key : Bytes} {f : Field} (h : fieldOf key = some f) : fieldKey f = key := by
  unfold fieldOf at h
  iterate 10
    rcases field_or h with ⟨rfl, hkey⟩ | h
    · exact hkey.symm
  cases h

def shared (s : Slot) : Bool := s = .dirs || s = .field .install

theorem countP_single {f : Fact} {s : Slot} {key : Bytes} (h : slotKey (slot f) = key) :
    [f].countP (slot · = s) ≤ if key = slotKey s then 1 else 0 := by
  by_cases hs : slot f = s
  · subst hs
    simp [h]
  · simp [hs]

theorem countP_nested {gs : List Fact} (hgs : ∀ g ∈ gs, tellsNested g = true) {s : Slot}
    (hs : shared s = false) : gs.countP (slot · = s) = 0 := by
  rw [List.countP_eq_zero]
  intro g hg hslot
  have hnested := hgs g hg
  obtain rfl := of_decide_eq_true hslot
  cases g with
  | dirs sources => cases hs
  | install text indent => cases hs
  | _ => cases hnested

/-- Facts are told by the entry with their key, apart from those that nested entries tell. -/
theorem facts_slot {entry : Bytes × Node} {gs : List Fact} (h : facts x entry = some gs) {s : Slot}
    (hs : shared s = false) : gs.countP (slot · = s) ≤ if entry.1 = slotKey s then 1 else 0 := by
  obtain ⟨key, node⟩ := entry
  have hdirs : ∀ items, (if key = dirsKey then (dirsFact items).map ([·]) else none) = some gs →
      gs.countP (slot · = s) ≤ if key = slotKey s then 1 else 0 := by
    intro items hgs
    split_ifs at hgs with hkey
    obtain ⟨f, hf, rfl⟩ := Option.map_eq_some_iff.mp hgs
    obtain ⟨sources, -, -, rfl⟩ := dirsFact_iff.mp hf
    exact countP_single hkey.symm
  cases node with
  | scalar value line =>
    obtain ⟨f, hf, hgs⟩ := Option.bind_eq_some_iff.mp h
    split_ifs at hgs
    obtain rfl := Option.some.inj hgs
    exact countP_single (fieldOf_key hf)
  | block line first rest content =>
    rw [facts] at h
    split_ifs at h with hkey
    obtain rfl := Option.some.inj h
    exact countP_single hkey.symm
  | flow line items => exact hdirs items h
  | seq header line items => exact hdirs items h
  | map header line last entries =>
    rw [facts] at h
    split_ifs at h with hfiles hbins
    · obtain ⟨r, hr, hgs⟩ := Option.bind_eq_some_iff.mp h
      split_ifs at hgs
      obtain rfl := Option.some.inj hgs
      have hnested : ∀ g ∈ r.2, tellsNested g = true := by
        intro g hg
        have hdir := fileEntries_dirs hr g hg
        cases g with
        | dirs sources => rfl
        | _ => cases hdir
      rw [List.countP_append, countP_nested hnested hs, Nat.zero_add]
      exact countP_single hfiles.symm
    · obtain ⟨r, hr, hgs⟩ := Option.bind_eq_some_iff.mp h
      split_ifs at hgs
      obtain rfl := Option.some.inj hgs
      rw [List.countP_append, countP_nested (binEntries_nested hr) hs, Nat.zero_add]
      exact countP_single hbins.symm

theorem told_slot {root : List (Bytes × Node)} {fs : List Fact} (h : told x root = some fs)
    (hkeys : (root.map (·.1)).Nodup) {s : Slot} (hs : shared s = false) :
    fs.countP (slot · = s) ≤ if slotKey s ∈ root.map (·.1) then 1 else 0 := by
  induction root generalizing fs with
  | nil =>
    cases h
    exact Nat.zero_le _
  | cons entry root ih =>
    obtain ⟨gs, hs', hgs, hrest, rfl⟩ := told_cons.mp h
    rw [List.map_cons, List.nodup_cons] at hkeys
    have hone := facts_slot hgs hs
    have hmore := ih hrest hkeys.2
    rw [List.countP_append, List.map_cons]
    by_cases hkey : entry.1 = slotKey s
    · rw [if_pos hkey] at hone
      rw [if_neg (hkey ▸ hkeys.1)] at hmore
      rw [if_pos (List.mem_cons.mpr (.inl hkey.symm))]
      omega
    · rw [if_neg hkey] at hone
      have hmem : slotKey s ∈ entry.1 :: root.map (·.1) ↔ slotKey s ∈ root.map (·.1) := by
        rw [List.mem_cons, or_iff_right (Ne.symm hkey)]
      simp only [hmem]
      omega

/-- The entries of the `bin-path` mapping change what is said about the program only. -/
structure BinFrame (c d : Cfg) : Prop where
  flags : d = { c with
    seenBin := d.seenBin, invokedName := d.invokedName, binDefault := d.binDefault, out := d.out }
  out : d.out = { c.out with
    bin := d.out.bin, binName := d.out.binName, binChoice := d.out.binChoice
    binNames := d.out.binNames }

theorem foldl_addBin_frame (entries : List (Bytes × Bytes)) (c : Cfg) :
    BinFrame c (entries.foldl addBin c) := by
  induction entries generalizing c with
  | nil => exact ⟨rfl, rfl⟩
  | cons e entries ih =>
    have h := ih (addBin c e)
    exact ⟨h.flags, h.out⟩

theorem tell_bins_frame (entries : List (Bytes × Bytes)) (c : Cfg) :
    BinFrame c (tell x c (.bins entries)) := by
  have h := foldl_addBin_frame entries (beginBins x c)
  unfold tell chooseBin
  dsimp only
  refine ⟨?_, ?_⟩
  · dsimp only
    rw [h.flags]
    rfl
  · split_ifs
    · exact h.out
    · dsimp only
      rw [h.out]
      rfl

theorem seenFiles_tell (f : Fact) (c : Cfg) :
    (tell x c f).seenFiles = (c.seenFiles || slot f = .files) := by
  cases f with
  | field f value => cases f <;> exact (Bool.or_false _).symm
  | files files => exact (Bool.or_true _).symm
  | bins entries =>
    rw [(tell_bins_frame entries c).flags]
    exact (Bool.or_false _).symm
  | _ => exact (Bool.or_false _).symm

theorem fresh_tell (h : Fresh c) (f : Fact) : Fresh (tell x c f) := by
  cases f with
  | field f value => cases f <;> first | exact ⟨h.dirs, h.files, h.bins⟩ | exact ⟨h.dirs,
    h.files, nofun⟩
  | install text indent => exact ⟨h.dirs, h.files, h.bins⟩
  | dirs sources => exact ⟨nofun, h.files, h.bins⟩
  | files files => exact ⟨h.dirs, nofun, h.bins⟩
  | bins entries =>
    have hframe := tell_bins_frame (x := x) entries c
    have hseen := tell_seenBin (x := x) (.bins entries) c
    refine ⟨fun hs => ?_, fun hs => ?_, fun hs => ?_⟩
    · rw [hframe.flags] at hs
      rw [hframe.out]
      exact h.dirs hs
    · rw [hframe.flags] at hs
      rw [hframe.out]
      exact h.files hs
    · rw [hseen, takesBin, Bool.or_true] at hs
      cases hs

theorem fresh_foldl_tell (gs : List Fact) (h : Fresh c) : Fresh (gs.foldl (tell x) c) := by
  induction gs generalizing c with
  | nil => exact h
  | cons g gs ih => exact ih (fresh_tell h g)

theorem seenFiles_foldl_tell {gs : List Fact} (hgs : gs.countP (slot · = .files) = 0) (c : Cfg) :
    (gs.foldl (tell x) c).seenFiles = c.seenFiles := by
  induction gs generalizing c with
  | nil => rfl
  | cons g gs ih =>
    rw [List.countP_eq_zero] at hgs
    obtain ⟨hg, hrest⟩ := List.forall_mem_cons.mp hgs
    rw [List.foldl_cons, ih (List.countP_eq_zero.mpr hrest), seenFiles_tell,
      Bool.eq_false_of_not_eq_true hg, Bool.or_false]

theorem runs_entries {root : List (Bytes × Node)} (hc : Within false false false c) (hf : Fresh c)
    (hkeys : (root.map (·.1)).Nodup) (hfiles : filesKey ∈ root.map (·.1) → c.seenFiles = false) :
    Runs x c (entryEvents root) d ↔ ∃ fs, told x root = some fs ∧ Fits (norm c) fs ∧
      d = fs.foldl (tell x) (norm c) := by
  induction root generalizing c with
  | nil =>
    rw [entryEvents, runs_nil]
    simp [told, fits_nil]
  | cons entry root ih =>
    obtain ⟨key, node⟩ := entry
    rw [List.map_cons, List.nodup_cons] at hkeys
    have hkey : key = filesKey → c.seenFiles = false := fun h =>
      hfiles (List.mem_cons.mpr (.inl h.symm))
    have hnext : ∀ c₁ gs, facts x (key, node) = some gs → norm c₁ = gs.foldl (tell x) (norm c) →
        (Runs x c₁ (entryEvents root) d ↔ ∃ fs, told x root = some fs ∧
          Fits (gs.foldl (tell x) (norm c)) fs ∧
          d = fs.foldl (tell x) (gs.foldl (tell x) (norm c))) := by
      intro c₁ gs hgs hc₁
      rw [← hc₁]
      refine ih ?_ ?_ hkeys.2 (fun hmem => ?_)
      · rw [← within_norm, hc₁]
        exact within_foldl_tell gs (within_norm.mpr hc)
      · rw [← fresh_norm, hc₁]
        exact fresh_foldl_tell gs (fresh_norm.mpr hf)
      · have hnone : gs.countP (slot · = .files) = 0 := by
          have hle := facts_slot hgs (show shared .files = false from rfl)
          rwa [if_neg (fun h => hkeys.1 (by rw [show key = filesKey from h]; exact hmem)),
            Nat.le_zero] at hle
        change (norm c₁).seenFiles = false
        rw [hc₁, seenFiles_foldl_tell hnone]
        exact hfiles (List.mem_cons_of_mem _ hmem)
    rw [entryEvents, runs_append]
    constructor
    · rintro ⟨c₁, h, hrest⟩
      obtain ⟨gs, hgs, hfits, hc₁⟩ := (runs_entry hc hf hkey).mp ⟨c₁, h, rfl⟩
      obtain ⟨fs, hfs, hfits', rfl⟩ := (hnext c₁ gs hgs hc₁).mp hrest
      exact ⟨gs ++ fs, told_cons.mpr ⟨gs, fs, hgs, hfs, rfl⟩,
        (fits_append gs fs).mpr ⟨hfits, hfits'⟩, List.foldl_append.symm⟩
    · rintro ⟨_, htold, hfits, rfl⟩
      obtain ⟨gs, fs, hgs, hfs, rfl⟩ := told_cons.mp htold
      obtain ⟨hfits, hfits'⟩ := (fits_append (x := x) gs fs).mp hfits
      obtain ⟨c₁, h, hc₁⟩ := (runs_entry hc hf hkey).mpr ⟨gs, hgs, hfits, rfl⟩
      exact ⟨c₁, h, (hnext c₁ gs hgs hc₁).mpr ⟨fs, hfs, hfits', List.foldl_append⟩⟩

end Told

section Order
variable {x : Input} {c c' d : Cfg} {fs fs' : List Fact}

def bare (c : Cfg) : Cfg := { c with out := { c.out with install := [], installIndent := 0 } }

def installOf (c : Cfg) : Bytes × Nat := (c.out.install, c.out.installIndent)

def textOf : Fact → Option (Bytes × Nat)
  | .field .install value => some (value, 0)
  | .install text indent => some (text, indent)
  | _ => none

/-- A step that does not touch what the `bin-path` mapping says. -/
structure Beside (x : Input) (step : Cfg → Cfg) : Prop where
  begins : ∀ c, beginBins x (step c) = step (beginBins x c)
  adds : ∀ c e, addBin (step c) e = step (addBin c e)
  choice : ∀ c, (step c).out.binChoice = c.out.binChoice
  chooses : ∀ c, { step c with out := { (step c).out with
      bin := (step c).binDefault, binName := (step c).out.binNames.head?.getD []
      binChoice := .default } } = step { c with out := { c.out with
        bin := c.binDefault, binName := c.out.binNames.head?.getD [], binChoice := .default } }

theorem tell_bins_comm {step : Cfg → Cfg} (h : Beside x step) (entries : List (Bytes × Bytes))
    (c : Cfg) : tell x (step c) (.bins entries) = step (tell x c (.bins entries)) := by
  unfold tell
  dsimp only
  rw [h.begins, foldl_addBin_comm h.adds]
  unfold chooseBin
  rw [h.choice]
  split_ifs
  · rfl
  · exact h.chooses _

theorem beside_field {f : Field} (hf : f ≠ .binPath) (value : Bytes) :
    Beside x (tellField f value) := by
  cases f with
  | binPath => exact absurd rfl hf
  | _ => exact ⟨fun _ => rfl, fun _ _ => rfl, fun _ => rfl, fun _ => rfl⟩

theorem beside_bare : Beside x bare := ⟨fun _ => rfl, fun _ _ => rfl, fun _ => rfl, fun _ => rfl⟩

theorem beside_tell {f : Fact} (hf : slot f ≠ .field .binPath) :
    Beside x (fun c => tell x c f) := by
  cases f with
  | field f value => exact beside_field (fun h => hf (congrArg Slot.field h)) value
  | bins entries => exact absurd rfl hf
  | _ => exact ⟨fun _ => rfl, fun _ _ => rfl, fun _ => rfl, fun _ => rfl⟩

/-- What is told apart from the install text does not depend on that text. -/
theorem bare_tell (f : Fact) (c : Cfg) : bare (tell x c f) = bare (tell x (bare c) f) := by
  cases f with
  | field f value => cases f <;> rfl
  | bins entries => exact (congrArg bare (tell_bins_comm beside_bare entries c)).symm
  | _ => rfl

/-- Facts about different things, or two install texts. -/
def Apart (f g : Fact) : Prop := slot f = slot g → slot f = .field .install

instance : Std.Symm Apart := ⟨fun _ _ h hslot => hslot.trans (h hslot.symm)⟩

theorem tellField_comm {f g : Field} (h : f = g → f = .install) (v w : Bytes) (c : Cfg) :
    bare (tellField g w (tellField f v c)) = bare (tellField f v (tellField g w c)) := by
  cases f <;> cases g <;> first | rfl | exact absurd (h rfl) (by decide)

theorem tell_comm {f g : Fact} (h : Apart f g) (c : Cfg) :
    bare (tell x (tell x c f) g) = bare (tell x (tell x c g) f) := by
  have hbin : slot f = .field .binPath → slot g ≠ .field .binPath := by
    intro hf hg
    have hinstall := h (hf.trans hg.symm)
    rw [hf] at hinstall
    cases hinstall
  cases f with
  | bins entries =>
    exact congrArg bare (tell_bins_comm (beside_tell (hbin rfl)) entries c).symm
  | field f v =>
    cases g with
    | bins entries =>
      exact congrArg bare (tell_bins_comm (beside_tell fun hf => hbin hf rfl) entries c)
    | field g w => exact tellField_comm (fun hfg => Slot.field.inj
      (h (congrArg Slot.field hfg))) v w c
    | _ => cases f <;> rfl
  | install text indent =>
    cases g with
    | bins entries =>
      exact congrArg bare (tell_bins_comm (beside_tell fun hf => hbin hf rfl) entries c)
    | field g w => cases g <;> rfl
    | _ => rfl
  | dirs sources =>
    cases g with
    | bins entries =>
      exact congrArg bare (tell_bins_comm (beside_tell fun hf => hbin hf rfl) entries c)
    | field g w => cases g <;> rfl
    | dirs sources' => cases h rfl
    | _ => rfl
  | files files =>
    cases g with
    | bins entries =>
      exact congrArg bare (tell_bins_comm (beside_tell fun hf => hbin hf rfl) entries c)
    | field g w => cases g <;> rfl
    | files files' => cases h rfl
    | _ => rfl

def Lone (fs : List Fact) : Prop := ∀ s, s ≠ .field .install → fs.countP (slot · = s) ≤ 1

theorem isDirs_eq (f : Fact) : isDirs f = decide (slot f = .dirs) := by
  cases f <;> rfl

theorem told_lone {root : List (Bytes × Node)} (h : told x root = some fs)
    (hkeys : (root.map (·.1)).Nodup) (hfits : Fits c fs) : Lone fs := by
  intro s hs
  cases hshared : shared s with
  | false =>
    have hle := told_slot h hkeys hshared
    split_ifs at hle <;> omega
  | true =>
    have hdirs : s = .dirs := by
      simpa [shared, hs] using hshared
    subst hdirs
    have hle := hfits.1
    simp only [funext isDirs_eq] at hle
    omega

theorem Lone.pairwise (h : Lone fs) : fs.Pairwise Apart := by
  induction fs with
  | nil => exact .nil
  | cons f fs ih =>
    refine List.pairwise_cons.mpr ⟨fun g hg hslot => ?_, ih fun s hs => ?_⟩
    · by_contra hf
      have hle := h (slot f) hf
      rw [List.countP_cons_of_pos (by simp)] at hle
      have hpos : 0 < fs.countP (slot · = slot f) :=
        List.countP_pos_iff.mpr ⟨g, hg, decide_eq_true hslot.symm⟩
      omega
    · have hle := h s hs
      rw [List.countP_cons] at hle
      omega

theorem bare_foldl_tell (fs : List Fact) (c : Cfg) :
    bare (fs.foldl (tell x) c) = fs.foldl (fun c f => bare (tell x c f)) (bare c) := by
  induction fs generalizing c with
  | nil => rfl
  | cons f fs ih => rw [List.foldl_cons, List.foldl_cons, ih, bare_tell f c]

theorem bare_perm (hperm : fs.Perm fs') (hlone : Lone fs) (c : Cfg) :
    bare (fs.foldl (tell x) c) = bare (fs'.foldl (tell x) c) := by
  rw [bare_foldl_tell, bare_foldl_tell]
  refine hperm.foldl_eq' (fun f hf g hg c => ?_) (bare c)
  rw [← bare_tell, ← bare_tell]
  by_cases hfg : f = g
  · rw [hfg]
  · exact tell_comm (hlone.pairwise.forall hf hg hfg) c

theorem installOf_tell (f : Fact) (c : Cfg) :
    installOf (tell x c f) = (textOf f).getD (installOf c) := by
  cases f with
  | field f value => cases f <;> rfl
  | bins entries =>
    unfold installOf
    rw [(tell_bins_frame entries c).out]
    rfl
  | _ => rfl

theorem installOf_foldl_tell (fs : List Fact) (c : Cfg) :
    installOf (fs.foldl (tell x) c) = (fs.filterMap textOf).getLast?.getD (installOf c) := by
  induction fs using List.reverseRecOn with
  | nil => rfl
  | append_singleton fs f ih =>
    rw [List.foldl_append, List.foldl_cons, List.foldl_nil, installOf_tell, ih,
      List.filterMap_append]
    cases hf : textOf f with
    | none => simp [hf]
    | some t => simp [hf]

def blockInstall (x : Input) : Bytes × Node → Option (Bytes × Nat)
  | (key, .block _ first rest _) => if key = installKey then some (blockText x first rest) else none
  | _ => none

def installText (x : Input) : Bytes × Node → Option (Bytes × Nat)
  | (key, .scalar value _) => if key = installKey then some (value, 0) else none
  | (key, .block line first rest content) => blockInstall x (key, .block line first rest content)
  | (key, .map _ _ _ entries) =>
    if key = binKey then (entries.filterMap (blockInstall x)).getLast? else none
  | _ => none

theorem binEntries_text {entries : List (Bytes × Node)} {r : List (Bytes × Bytes) × List Fact}
    (h : binEntries x entries = some r) :
    r.2.filterMap textOf = entries.filterMap (blockInstall x) := by
  induction entries generalizing r with
  | nil =>
    cases h
    rfl
  | cons entry entries ih =>
    obtain ⟨key, node⟩ := entry
    cases node with
    | scalar value line =>
      obtain ⟨r', hr, rfl⟩ := Option.map_eq_some_iff.mp h
      exact ih (r := r') hr
    | block line first rest content =>
      rw [binEntries] at h
      split_ifs at h with hkey
      obtain ⟨r', hr, rfl⟩ := Option.map_eq_some_iff.mp h
      simp [textOf, blockInstall, hkey, ih hr]
    | flow line items =>
      obtain ⟨-, f, r', hf, hr, rfl⟩ := binEntries_flow.mp h
      obtain ⟨sources, -, -, rfl⟩ := dirsFact_iff.mp hf
      exact ih (r := r') hr
    | seq header line items => cases h
    | map header line last entries => cases h

theorem facts_text {entry : Bytes × Node} {gs : List Fact} (h : facts x entry = some gs) :
    (gs.filterMap textOf).getLast? = installText x entry := by
  obtain ⟨key, node⟩ := entry
  have hdirs : ∀ items, (if key = dirsKey then (dirsFact items).map ([·]) else none) = some gs →
      (gs.filterMap textOf).getLast? = none := by
    intro items hgs
    split_ifs at hgs
    obtain ⟨f, hf, rfl⟩ := Option.map_eq_some_iff.mp hgs
    obtain ⟨sources, -, -, rfl⟩ := dirsFact_iff.mp hf
    rfl
  cases node with
  | scalar value line =>
    obtain ⟨f, hf, hgs⟩ := Option.bind_eq_some_iff.mp h
    split_ifs at hgs
    obtain rfl := Option.some.inj hgs
    have hkey : f = .install ↔ key = installKey := by
      rw [installKey, ← fieldOf_install, hf, Option.some.injEq]
    rw [installText]
    by_cases hf' : f = .install
    · rw [if_pos (hkey.mp hf'), hf']
      rfl
    · rw [if_neg (hkey.not.mp hf')]
      cases f <;> first | rfl | exact absurd rfl hf'
  | block line first rest content =>
    rw [facts] at h
    split_ifs at h with hkey
    obtain rfl := Option.some.inj h
    rw [installText, blockInstall, if_pos hkey]
    rfl
  | flow line items => exact hdirs items h
  | seq header line items => exact hdirs items h
  | map header line last entries =>
    rw [facts] at h
    rw [installText]
    split_ifs at h with hfiles hbins
    · obtain ⟨r, hr, hgs⟩ := Option.bind_eq_some_iff.mp h
      split_ifs at hgs
      obtain rfl := Option.some.inj hgs
      have hnone : r.2.filterMap textOf = [] := by
        rw [List.filterMap_eq_nil_iff]
        intro g hg
        have hdir := fileEntries_dirs hr g hg
        cases g with
        | dirs sources => rfl
        | _ => cases hdir
      rw [if_neg (by rw [hfiles]; decide), List.filterMap_append, hnone]
      rfl
    · obtain ⟨r, hr, hgs⟩ := Option.bind_eq_some_iff.mp h
      split_ifs at hgs
      obtain rfl := Option.some.inj hgs
      rw [if_pos hbins, List.filterMap_append, binEntries_text hr]
      exact congrArg _ (List.append_nil _)

theorem told_text {root : List (Bytes × Node)} (h : told x root = some fs) :
    (fs.filterMap textOf).getLast? = (root.filterMap (installText x)).getLast? := by
  induction root generalizing fs with
  | nil =>
    cases h
    rfl
  | cons entry root ih =>
    obtain ⟨gs, hs, hgs, hrest, rfl⟩ := told_cons.mp h
    rw [List.filterMap_append, List.getLast?_append, ih hrest, facts_text hgs, List.filterMap_cons]
    cases installText x entry with
    | none => simp
    | some t => simp [List.getLast?_cons]

end Order

section Finish
variable {x : Input} {c d : Cfg} (buf : Bytes)

/-- The project without line numbers and install text. -/
def core (p : Project) : Project := { unlined p with install := [], installIndent := 0 }

theorem toOption_error {α : Type} (msg msg' : Bytes) :
    (Except.error msg : Result α).toOption = (Except.error msg' : Result α).toOption := rfl

theorem expandFrom_core (what : String) (cap line line' fuel : Nat) (tpl out : Bytes)
    (long : Bool) : (expandFrom { x with buf := buf } what cap line' fuel tpl out long).toOption =
      (expandFrom x what cap line fuel tpl out long).toOption := by
  induction fuel generalizing tpl out long with
  | zero => rfl
  | succ fuel ih =>
    cases tpl with
    | nil => rfl
    | cons ch tpl =>
      rw [expandFrom, expandFrom]
      dsimp only
      by_cases hopen : ch = BRACE_OPEN ∧ tpl.head? = some BRACE_OPEN
      · rw [if_pos hopen, if_pos hopen]
        split
        · exact toOption_error _ _
        · split
          · exact toOption_error _ _
          · split
            · exact toOption_error _ _
            · exact ih _ _ _
      · rw [if_neg hopen, if_neg hopen]
        split
        · exact ih _ _ _
        · exact ih _ _ _

theorem expandTemplate_core (tpl : Bytes) (what : String) (cap line line' : Nat) (absolute : Bool) :
    (expandTemplate { x with buf := buf } tpl what cap line' absolute).toOption =
      (expandTemplate x tpl what cap line absolute).toOption := by
  have h := expandFrom_core (x := x) buf what cap line line' tpl.length tpl [] false
  unfold expandTemplate
  cases hrun : expandFrom x what cap line tpl.length tpl [] false with
  | error msg =>
    cases hrun' : expandFrom { x with buf := buf } what cap line' tpl.length tpl [] false with
    | error msg' => exact toOption_error _ _
    | ok r =>
      rw [hrun, hrun'] at h
      cases h
  | ok r =>
    cases hrun' : expandFrom { x with buf := buf } what cap line' tpl.length tpl [] false with
    | error msg' =>
      rw [hrun, hrun'] at h
      cases h
    | ok r' =>
      rw [hrun, hrun'] at h
      obtain rfl := Option.some.inj h
      dsimp only
      split
      · exact toOption_error _ _
      · split
        · exact toOption_error _ _
        · rfl

def unlinedDir (dir : SandboxWriteDir) : SandboxWriteDir := { dir with line := 0 }

theorem expandDirs_opt (dir : SandboxWriteDir) (dirs : List SandboxWriteDir) :
    (expandDirs x (dir :: dirs)).toOption =
      (expandTemplate x dir.source "sandbox-write-dirs entry"
        (HM_PATH_MAX + 1) dir.line true).toOption.bind
        fun path => (expandDirs x dirs).toOption.map ({ dir with path := path } :: ·) := by
  rw [expandDirs]
  cases expandTemplate x dir.source "sandbox-write-dirs entry" (HM_PATH_MAX + 1) dir.line true with
  | error msg => rfl
  | ok path =>
    cases expandDirs x dirs with
    | error msg => rfl
    | ok dirs => rfl

theorem expandDirs_core (dirs : List SandboxWriteDir) :
    (expandDirs { x with buf := buf } (dirs.map unlinedDir)).toOption =
      (expandDirs x dirs).toOption.map (·.map unlinedDir) := by
  induction dirs with
  | nil => rfl
  | cons dir dirs ih =>
    rw [List.map_cons, expandDirs_opt, expandDirs_opt, ih]
    dsimp only [unlinedDir]
    rw [expandTemplate_core buf _ _ _ dir.line]
    cases (expandTemplate x dir.source "sandbox-write-dirs entry" (HM_PATH_MAX + 1) dir.line
      true).toOption with
    | none => rfl
    | some path => cases (expandDirs x dirs).toOption <;> rfl

theorem expandBin_core (p : Project) :
    (expandBin { x with buf := buf } (core p)).toOption = (expandBin x p).toOption := by
  have hfiles : (decide ((core p).files = []) && !(core p).sandboxed) =
      (decide (p.files = []) && !p.sandboxed) :=
    congrArg (· && !p.sandboxed) (decide_eq_decide.mpr List.map_eq_nil_iff)
  unfold expandBin
  by_cases h : (x.resolvePaths && decide (p.bin ≠ [])) = true
  · have h' : (x.resolvePaths && decide ((core p).bin ≠ [])) = true := h
    rw [if_pos h, hfiles]
    exact (congrArg _ (if_pos h')).trans (expandTemplate_core buf _ _ _ _ _ _)
  · have h' : ¬ (x.resolvePaths && decide ((core p).bin ≠ [])) = true := h
    rw [if_neg h]
    exact congrArg _ (if_neg h')

theorem settleBin_opt (p : Project) : (settleBin x p).toOption =
    (expandBin x p).toOption.bind fun binPath =>
      if binPath ≠ [] ∧ binPath.head? ≠ some SLASH then
        if validRelativePath binPath HM_PATH_MAX then
          some { p with binPath := binPath, binCached := true }
        else none
      else some { p with binPath := binPath } := by
  unfold settleBin
  cases expandBin x p with
  | error msg => rfl
  | ok binPath =>
    rw [show (Except.ok binPath : Result Bytes).toOption = some binPath from rfl, Option.bind_some]
    dsimp only
    by_cases hrel : binPath ≠ [] ∧ binPath.head? ≠ some SLASH
    · rw [if_pos hrel, if_pos hrel]
      by_cases hvalid : validRelativePath binPath HM_PATH_MAX = true
      · rw [if_pos hvalid, if_pos hvalid]
        rfl
      · rw [if_neg hvalid, if_neg hvalid]
        rfl
    · rw [if_neg hrel, if_neg hrel]
      rfl

theorem settleBin_core (p : Project) : (settleBin { x with buf := buf } (core p)).toOption =
    (settleBin x p).toOption.map core := by
  rw [settleBin_opt, settleBin_opt, expandBin_core]
  cases (expandBin x p).toOption with
  | none => rfl
  | some binPath =>
    rw [Option.bind_some, Option.bind_some]
    by_cases hrel : binPath ≠ [] ∧ binPath.head? ≠ some SLASH
    · rw [if_pos hrel, if_pos hrel]
      by_cases hvalid : validRelativePath binPath HM_PATH_MAX = true
      · rw [if_pos hvalid, if_pos hvalid]
        rfl
      · rw [if_neg hvalid, if_neg hvalid]
        rfl
    · rw [if_neg hrel, if_neg hrel]
      rfl

theorem settleKind_opt (c : Cfg) : (settleKind x c).toOption =
    if c.out.url = [] ∧ c.out.command = [] then none
    else if c.out.url ≠ [] ∧ c.out.command ≠ [] then none
    else if c.out.command ≠ [] then
      if c.seenCheck || c.seenVersion then none
      else if c.seenInstall then none
      else some { c.out with
        kind := .command
        name := if c.out.name = [] then defaultName c.out.command else c.out.name }
    else if c.seenFiles then none
    else if c.out.check = .version ∧ c.out.versionPrefix = [] then none
    else some { c.out with
      kind := .url, name := if c.out.name = [] then defaultName c.out.url else c.out.name } := by
  unfold settleKind
  dsimp only
  simp only [apply_ite Except.toOption]
  rfl

theorem settleKind_core (c : Cfg) : (settleKind { x with buf := buf } (bare (norm c))).toOption =
    (settleKind x c).toOption.map core := by
  rw [settleKind_opt, settleKind_opt]
  simp only [apply_ite (Option.map core), Option.map_none, Option.map_some]
  rfl

theorem finishProject_opt (c : Cfg) : (finishProject x c).toOption =
    (settleKind x c).toOption.bind fun p =>
      if c.pendingBinMap then none
      else if p.sandboxWriteDirs ≠ [] && !p.sandboxed then none
      else ((if x.resolvePaths then expandDirs x p.sandboxWriteDirs
          else .ok p.sandboxWriteDirs).toOption).bind fun dirs =>
        (settleBin x { p with sandboxWriteDirs := dirs }).toOption.map fun p =>
          { c with out := p, finished := true, cur := false } := by
  unfold finishProject
  cases settleKind x c with
  | error msg => rfl
  | ok p =>
    rw [show (Except.ok p : Result Project).toOption = some p from rfl, Option.bind_some]
    dsimp only
    by_cases hpend : c.pendingBinMap = true
    · rw [if_pos hpend, if_pos hpend]
      rfl
    · rw [if_neg hpend, if_neg hpend]
      by_cases hdirs : (decide (p.sandboxWriteDirs ≠ []) && !p.sandboxed) = true
      · rw [if_pos hdirs, if_pos hdirs]
        rfl
      · rw [if_neg hdirs, if_neg hdirs]
        cases (if x.resolvePaths = true then expandDirs x p.sandboxWriteDirs
            else Except.ok p.sandboxWriteDirs) with
        | error msg => rfl
        | ok dirs =>
          dsimp only
          rw [show (Except.ok dirs : Result (List SandboxWriteDir)).toOption = some dirs from rfl,
            Option.bind_some]
          cases settleBin x { p with sandboxWriteDirs := dirs } with
          | error msg => rfl
          | ok p => rfl

theorem finishProject_core (c : Cfg) :
    (finishProject { x with buf := buf } (bare (norm c))).toOption =
      (finishProject x c).toOption.map fun c' => bare (norm c') := by
  rw [finishProject_opt, finishProject_opt, settleKind_core]
  cases (settleKind x c).toOption with
  | none => rfl
  | some p =>
    have hdirs : (decide ((core p).sandboxWriteDirs ≠ []) && !(core p).sandboxed) =
        (decide (p.sandboxWriteDirs ≠ []) && !p.sandboxed) :=
      congrArg (· && !p.sandboxed) (decide_eq_decide.mpr (not_congr List.map_eq_nil_iff))
    have hexpand : (if x.resolvePaths then expandDirs { x with buf := buf }
      (core p).sandboxWriteDirs else .ok (core p).sandboxWriteDirs).toOption =
        (if x.resolvePaths then expandDirs x p.sandboxWriteDirs
          else .ok p.sandboxWriteDirs).toOption.map (·.map unlinedDir) := by
      by_cases hres : x.resolvePaths = true
      · rw [if_pos hres, if_pos hres]
        exact expandDirs_core buf p.sandboxWriteDirs
      · rw [if_neg hres, if_neg hres]
        rfl
    rw [Option.map_some, Option.bind_some, Option.bind_some, hdirs]
    by_cases hpend : c.pendingBinMap = true
    · have hpend' : (bare (norm c)).pendingBinMap = true := hpend
      rw [if_pos hpend, if_pos hpend']
      rfl
    · have hpend' : ¬ (bare (norm c)).pendingBinMap = true := hpend
      rw [if_neg hpend, if_neg hpend']
      by_cases hwrite : (decide (p.sandboxWriteDirs ≠ []) && !p.sandboxed) = true
      · rw [if_pos hwrite, if_pos hwrite]
        rfl
      · rw [if_neg hwrite, if_neg hwrite, hexpand]
        cases (if x.resolvePaths then expandDirs x p.sandboxWriteDirs
          else .ok p.sandboxWriteDirs).toOption with
        | none => rfl
        | some dirs =>
          rw [Option.map_some, Option.bind_some, Option.bind_some]
          have hbin := settleBin_core (x := x) buf { p with sandboxWriteDirs := dirs }
          change (settleBin { x with buf := buf }
            (core { p with sandboxWriteDirs := dirs })).toOption.map _ = _
          rw [hbin]
          cases (settleBin x { p with sandboxWriteDirs := dirs }).toOption <;> rfl

end Finish

section Moved
variable {x x' : Input}

/-- The same entry at another place of another buffer. -/
inductive Alike (x x' : Input) : Node → Node → Prop
  | scalar (value : Bytes) (line line' : Nat) :
    Alike x x' (.scalar value line) (.scalar value line')
  | block {line line' : Nat} {first first' : Slice} {rest rest' : List Slice}
      (content : first.len ≠ 0) (content' : first'.len ≠ 0)
      (h : blockText x first rest = blockText x' first' rest') :
    Alike x x' (.block line first rest content) (.block line' first' rest' content')
  | flow {line line' : Nat} {items items' : List Node}
    (h : List.Forall₂ (Alike x x') items items') :
    Alike x x' (.flow line items) (.flow line' items')
  | seq {header header' line line' : Nat} {items items' : List Node}
      (h : List.Forall₂ (Alike x x') items items') :
    Alike x x' (.seq header line items) (.seq header' line' items')
  | map {header header' line line' last last' : Nat} {entries entries' : List (Bytes × Node)}
      (hkeys : entries.map (·.1) = entries'.map (·.1))
      (h : List.Forall₂ (Alike x x') (entries.map (·.2)) (entries'.map (·.2))) :
    Alike x x' (.map header line last entries) (.map header' line' last' entries')

theorem itemSources_alike {items items' : List Node} (h : List.Forall₂ (Alike x x') items items') :
    itemSources items = itemSources items' := by
  induction h with
  | nil => rfl
  | cons hitem _ ih =>
    cases hitem with
    | scalar value line line' => rw [itemSources, itemSources, ih]
    | _ => rfl

theorem dirsFact_alike {items items' : List Node} (h : List.Forall₂ (Alike x x') items items') :
    dirsFact items = dirsFact items' := by
  rw [dirsFact, dirsFact, itemSources_alike h]

inductive SameEntries (x x' : Input) : List (Bytes × Node) → List (Bytes × Node) → Prop
  | nil : SameEntries x x' [] []
  | cons {node node' : Node} {entries entries' : List (Bytes × Node)} (key : Bytes)
      (hnode : Alike x x' node node') (h : SameEntries x x' entries entries') :
    SameEntries x x' ((key, node) :: entries) ((key, node') :: entries')

theorem SameEntries.of_forall {entries entries' : List (Bytes × Node)}
    (hkeys : entries.map (·.1) = entries'.map (·.1))
    (h : List.Forall₂ (Alike x x') (entries.map (·.2)) (entries'.map (·.2))) :
    SameEntries x x' entries entries' := by
  induction entries generalizing entries' with
  | nil =>
    cases entries' with
    | nil => exact .nil
    | cons e entries' => cases hkeys
  | cons e entries ih =>
    cases entries' with
    | nil => cases hkeys
    | cons e' entries' =>
      obtain ⟨key, node⟩ := e
      obtain ⟨key', node'⟩ := e'
      obtain ⟨hkey, hrest⟩ := List.cons.inj hkeys
      obtain rfl : key = key' := hkey
      obtain ⟨hnode, hnodes⟩ := List.forall₂_cons.mp h
      exact .cons key hnode (ih hrest hnodes)

theorem SameEntries.keys {entries entries' : List (Bytes × Node)}
    (h : SameEntries x x' entries entries') : entries.map (·.1) = entries'.map (·.1) := by
  induction h with
  | nil => rfl
  | cons key _ _ ih => rw [List.map_cons, List.map_cons, ih]

theorem fileEntries_alike {entries entries' : List (Bytes × Node)}
    (h : SameEntries x x' entries entries') : fileEntries x entries = fileEntries x' entries' := by
  induction h with
  | nil => rfl
  | cons key hnode _ ih =>
    cases hnode with
    | block content content' h => rw [fileEntries, fileEntries, ih, blockFile, blockFile, h]
    | flow h => rw [fileEntries, fileEntries, ih, dirsFact_alike h]
    | _ => rfl

theorem binEntries_alike {entries entries' : List (Bytes × Node)}
    (h : SameEntries x x' entries entries') : binEntries x entries = binEntries x' entries' := by
  induction h with
  | nil => rfl
  | cons key hnode _ ih =>
    cases hnode with
    | scalar value line line' => rw [binEntries, binEntries, ih]
    | block content content' h => rw [binEntries, binEntries, ih, h]
    | flow h => rw [binEntries, binEntries, ih, dirsFact_alike h]
    | _ => rfl

theorem blockInstall_alike {entries entries' : List (Bytes × Node)}
    (h : SameEntries x x' entries entries') :
    entries.filterMap (blockInstall x) = entries'.filterMap (blockInstall x') := by
  induction h with
  | nil => rfl
  | cons key hnode _ ih =>
    rw [List.filterMap_cons, List.filterMap_cons, ih]
    cases hnode with
    | block content content' h => rw [blockInstall, blockInstall, h]
    | _ => rfl

theorem facts_alike {key : Bytes} {node node' : Node} (h : Alike x x' node node') :
    facts x (key, node) = facts x' (key, node') := by
  cases h with
  | scalar value line line' => rfl
  | block content content' h => rw [facts, facts, h]
  | flow h => rw [facts, facts, dirsFact_alike h]
  | seq h => rw [facts, facts, dirsFact_alike h]
  | map hkeys h =>
    have hsame := SameEntries.of_forall hkeys h
    rw [facts, facts, fileEntries_alike hsame, binEntries_alike hsame]

theorem told_alike {root root' : List (Bytes × Node)} (h : SameEntries x x' root root') :
    told x root = told x' root' := by
  induction h with
  | nil => rfl
  | cons key hnode _ ih => rw [told, told, ih, facts_alike hnode]

theorem installText_alike {key : Bytes} {node node' : Node} (h : Alike x x' node node') :
    installText x (key, node) = installText x' (key, node') := by
  cases h with
  | block content content' h => rw [installText, installText, blockInstall, blockInstall, h]
  | map hkeys h =>
    rw [installText, installText, blockInstall_alike (SameEntries.of_forall hkeys h)]
  | _ => rfl

def texts (x : Input) (root : List (Bytes × Node)) : List (Bytes × Bytes × Nat) :=
  root.filterMap fun entry => (installText x entry).map (entry.1, ·)

theorem texts_alike {root root' : List (Bytes × Node)} (h : SameEntries x x' root root') :
    texts x root = texts x' root' := by
  induction h with
  | nil => rfl
  | cons key hnode _ ih =>
    unfold texts at ih ⊢
    rw [List.filterMap_cons, List.filterMap_cons, ih, installText_alike hnode]

theorem texts_last (root : List (Bytes × Node)) :
    (root.filterMap (installText x)).getLast? = (texts x root).getLast?.map (·.2) := by
  rw [← List.getLast?_map, texts, List.map_filterMap]
  simp [Function.comp_def]

theorem texts_keys (root : List (Bytes × Node)) :
    ((texts x root).map (·.1)).Sublist (root.map (·.1)) := by
  induction root with
  | nil => exact .slnil
  | cons entry root ih =>
    rw [texts, List.filterMap_cons]
    cases installText x entry with
    | none => exact ih.cons _
    | some t => exact ih.cons_cons _

theorem texts_key {root : List (Bytes × Node)} {e : Bytes × Bytes × Nat} (h : e ∈ texts x root) :
    e.1 = installKey ∨ e.1 = binKey := by
  obtain ⟨⟨key, node⟩, -, h⟩ := List.mem_filterMap.mp h
  obtain ⟨t, ht, rfl⟩ := Option.map_eq_some_iff.mp h
  cases node with
  | scalar value line =>
    rw [installText] at ht
    split_ifs at ht with hkey
    exact .inl hkey
  | block line first rest content =>
    rw [installText, blockInstall] at ht
    split_ifs at ht with hkey
    exact .inl hkey
  | map header line last entries =>
    rw [installText] at ht
    split_ifs at ht with hkey
    exact .inr hkey
  | flow line items => cases ht
  | seq header line items => cases ht

theorem texts_length {root : List (Bytes × Node)} (hkeys : (root.map (·.1)).Nodup) :
    (texts x root).length ≤ 2 := by
  have hnodup := (texts_keys (x := x) root).nodup hkeys
  have hsub : (texts x root).map (·.1) ⊆ [installKey, binKey] := by
    intro key hkey
    obtain ⟨e, he, rfl⟩ := List.mem_map.mp hkey
    simpa using texts_key he
  have hle := (List.subperm_of_subset hnodup hsub).length_le
  rwa [List.length_map] at hle

def Exchanged {α β : Type} (xs ys : List (α × β)) : Prop :=
  ∃ a b, [a, b].Sublist xs ∧ [b, a].Sublist ys ∧ a.2 ≠ b.2

theorem pair_sublist {α : Type} {a b c d : α} (h : [a, b].Sublist [c, d]) : a = c ∧ b = d := by
  obtain ⟨ha, hb⟩ := List.cons.inj (h.eq_of_length rfl)
  exact ⟨ha, (List.cons.inj hb).1⟩

theorem last_perm {α β : Type} {xs ys : List (α × β)} (h : xs.Perm ys) (hlen : xs.length ≤ 2) :
    xs.getLast?.map (·.2) = ys.getLast?.map (·.2) ↔ ¬ Exchanged xs ys := by
  match xs, hlen with
  | [], _ =>
    rw [List.nil_perm.mp h]
    refine iff_of_true rfl ?_
    rintro ⟨a, b, hsub, -⟩
    simpa using hsub.length_le
  | [e], _ =>
    rw [← List.singleton_perm.mp h]
    refine iff_of_true rfl ?_
    rintro ⟨a, b, hsub, -⟩
    simpa using hsub.length_le
  | [a, b], _ =>
    rcases List.pair_perm.mp h with rfl | rfl
    · refine iff_of_true rfl ?_
      rintro ⟨a', b', hsub, hsub', hne⟩
      obtain ⟨rfl, rfl⟩ := pair_sublist hsub
      obtain ⟨rfl, -⟩ := pair_sublist hsub'
      exact hne rfl
    · constructor
      · rintro heq ⟨a', b', hsub, -, hne⟩
        obtain ⟨rfl, rfl⟩ := pair_sublist hsub
        exact hne (Option.some.inj heq).symm
      · intro hnot
        by_contra hne
        exact hnot ⟨a, b, .refl _, .refl _, fun h => hne (congrArg some h.symm)⟩

end Moved

section Parse
variable {x : Input} {evs : List Event} {root : List (Bytes × Node)} {line header start last : Nat}

def begun (start : Nat) : Cfg where
  started := true
  cur := true
  out :=
    { check := .etag, schedKind := .every, schedInterval := 86400, sandboxed := true, line := start }

theorem within_begun (start : Nat) : Within false false false (begun start) :=
  ⟨rfl, rfl, rfl, rfl, rfl, rfl, rfl, rfl⟩

theorem fresh_begun (start : Nat) : Fresh (begun start) :=
  ⟨fun _ => rfl, fun _ => rfl, fun _ => rfl⟩

theorem parse_mapping (hdoc : Documented evs [⟨line, .map header start last root⟩])
    (hkeys : (root.map (·.1)).Nodup) :
    hmConfigParse x evs = match feed x (begun start) (entryEvents root) with
      | .error msg => .error msg
      | .ok c => (finishProject x c).map (·.out) := by
  have hend : .streamEnd ∉ entryEvents root := streamEnd_notMem_entries root
  rw [hmConfigParse, parseFrom_trivia, hdoc]
  have hevs : .streamStart ::
      ([(⟨line, .map header start last root⟩ : Document)].flatMap Document.events ++ [.streamEnd]) =
      [.streamStart, .documentStart line, .mappingStart start] ++
        (entryEvents root ++ [.mappingEnd last, .documentEnd, .streamEnd]) := by
    simp [Document.events, Node.events]
  have hbegin : ∀ es, parseFrom x {}
      ([.streamStart, .documentStart line, .mappingStart start] ++ es) =
        parseFrom x (begun start) es :=
    fun es => rfl
  rw [hevs, hbegin, parseFrom_feed hend]
  cases hfeed : feed x (begun start) (entryEvents root) with
  | error msg => rfl
  | ok c =>
    obtain ⟨fs, -, -, hc⟩ := (runs_entries (within_begun start) (fresh_begun start) hkeys
      (fun _ => rfl)).mp ⟨c, hfeed, rfl⟩
    have hin : Within false false false c := by
      rw [← within_norm, hc]
      exact within_foldl_tell fs (within_norm.mpr (within_begun start))
    have hclose : onEvent x c (.mappingEnd last) = finishProject x c := by
      simp [onEvent, Config.mappingEnd, hin.inFiles, hin.inBin]
    have hstep : parseFrom x c [.mappingEnd last, .documentEnd, .streamEnd] =
        match onEvent x c (.mappingEnd last) with
        | .error msg => .error msg
        | .ok c => parseFrom x c [.documentEnd, .streamEnd] := rfl
    dsimp only
    rw [hstep, hclose]
    cases hfin : finishProject x c with
    | error msg => rfl
    | ok c' =>
      have hflags := (finishProject_frame hfin).flags
      have hdone : c'.finished = true := by
        rw [hflags]
      exact if_pos hdone

/-- All entries are taken, and the checks behind them refuse the project. -/
def RefusedAtEnd (x : Input) (evs : List Event) (start : Nat) (root : List (Bytes × Node)) : Prop :=
  ∃ c msg, feed x (begun start) (entryEvents root) = .ok c ∧ finishProject x c = .error msg ∧
    hmConfigParse x evs = .error msg

def Permuted (x x' : Input) (root root' : List (Bytes × Node)) : Prop :=
  ∃ mid, root.Perm mid ∧ SameEntries x x' mid root'

theorem told_perm {mid : List (Bytes × Node)} {fs : List Fact} (hperm : root.Perm mid)
    (h : told x root = some fs) : ∃ fs', told x mid = some fs' ∧ fs.Perm fs' := by
  induction hperm generalizing fs with
  | nil => exact ⟨fs, h, .refl _⟩
  | cons entry _ ih =>
    obtain ⟨gs, hs, hgs, hrest, rfl⟩ := told_cons.mp h
    obtain ⟨hs', hrest', hp⟩ := ih hrest
    exact ⟨gs ++ hs', told_cons.mpr ⟨gs, hs', hgs, hrest', rfl⟩, hp.append_left gs⟩
  | swap e e' root =>
    obtain ⟨gs, _, hgs, htail, rfl⟩ := told_cons.mp h
    obtain ⟨gs', hs, hgs', hrest, rfl⟩ := told_cons.mp htail
    refine ⟨gs' ++ (gs ++ hs), told_cons.mpr ⟨gs', gs ++ hs, hgs', ?_, rfl⟩, ?_⟩
    · exact told_cons.mpr ⟨gs, hs, hgs, hrest, rfl⟩
    · rw [← List.append_assoc, ← List.append_assoc]
      exact List.perm_append_comm.append_right hs
  | trans _ _ ih ih' =>
    obtain ⟨fs', h', hp⟩ := ih h
    obtain ⟨fs'', h'', hp'⟩ := ih' h'
    exact ⟨fs'', h'', hp.trans hp'⟩

theorem Fits.perm {c : Cfg} {fs fs' : List Fact} (h : Fits c fs) (hp : fs.Perm fs') : Fits c fs' :=
  ⟨hp.countP_eq isDirs ▸ h.1, hp.countP_eq takesBin ▸ h.2⟩

theorem tell_buf (buf : Bytes) : tell { x with buf := buf } = tell x := rfl

/-- Of the install texts the last one is the project's. -/
theorem installOf_feed {c : Cfg} {fs : List Fact} (h : told x root = some fs)
    (hc : norm c = fs.foldl (tell x) (norm (begun start))) :
    installOf c = ((texts x root).getLast?.map (·.2)).getD ([], 0) := by
  rw [← texts_last, ← told_text h]
  change installOf (norm c) = _
  rw [hc, installOf_foldl_tell]
  rfl

theorem feed_permuted {buf : Bytes} {root' : List (Bytes × Node)} {c : Cfg} (start start' : Nat)
    (hkeys : (root.map (·.1)).Nodup) (hperm : Permuted x { x with buf := buf } root root')
    (h : feed x (begun start) (entryEvents root) = .ok c) :
    ∃ d, feed { x with buf := buf } (begun start') (entryEvents root') = .ok d ∧
      bare (norm c) = bare (norm d) ∧
      installOf c = ((texts x root).getLast?.map (·.2)).getD ([], 0) ∧
      installOf d = ((texts { x with buf := buf } root').getLast?.map (·.2)).getD ([], 0) := by
  obtain ⟨mid, hp, hsame⟩ := hperm
  obtain ⟨fs, htold, hfits, hc⟩ := (runs_entries (within_begun start) (fresh_begun start) hkeys
    (fun _ => rfl)).mp ⟨c, h, rfl⟩
  obtain ⟨fs', htold', hfs⟩ := told_perm hp htold
  rw [told_alike hsame] at htold'
  have hkeys' : (root'.map (·.1)).Nodup := by
    rw [← hsame.keys]
    exact (hp.map _).nodup_iff.mp hkeys
  obtain ⟨d, hd, hnorm⟩ := (runs_entries (x := { x with buf := buf }) (within_begun start')
    (fresh_begun start') hkeys' (fun _ => rfl)).mpr ⟨fs', htold', hfits.perm hfs, rfl⟩
  refine ⟨d, hd, ?_, ?_, ?_⟩
  · rw [hc, hnorm, tell_buf]
    exact bare_perm hfs (told_lone htold hkeys hfits) _
  · exact installOf_feed htold hc
  · exact installOf_feed htold' hnorm

theorem unlined_eq_iff {c d : Cfg} (h : bare (norm c) = bare (norm d)) :
    unlined d.out = unlined c.out ↔ installOf c = installOf d := by
  have hcore : core c.out = core d.out := congrArg Cfg.out h
  have hsplit : ∀ p, unlined p =
      { core p with install := p.install, installIndent := p.installIndent } := fun _ => rfl
  constructor
  · intro heq
    exact congrArg₂ Prod.mk (congrArg Project.install heq).symm
      (congrArg Project.installIndent heq).symm
  · intro heq
    obtain ⟨hi, hn⟩ := Prod.mk.inj heq
    rw [hsplit d.out, hsplit c.out, hcore, hi, hn]

theorem getD_last_iff {α β : Type} {xs ys : List (α × β)} (h : xs.Perm ys) (z : β) :
    (xs.getLast?.map (·.2)).getD z = (ys.getLast?.map (·.2)).getD z ↔
      xs.getLast?.map (·.2) = ys.getLast?.map (·.2) := by
  rcases List.eq_nil_or_concat xs with rfl | ⟨xs, a, rfl⟩
  · rw [List.nil_perm.mp h]
    exact iff_of_true rfl rfl
  · rcases List.eq_nil_or_concat ys with rfl | ⟨ys, b, rfl⟩
    · exact absurd (List.perm_nil.mp h) (by simp)
    · simp

/-- Entries in another order make the same project, unless two of them that say different
install texts are exchanged; a project that is refused as a whole is refused in any order. -/
theorem order_of_entries (buf : Bytes) {evs' : List Event} {root' : List (Bytes × Node)}
    {line' header' start' last' : Nat}
    (hdoc : Documented evs [⟨line, .map header start last root⟩])
    (hdoc' : Documented evs' [⟨line', .map header' start' last' root'⟩])
    (hkeys : (root.map (·.1)).Nodup) (hperm : Permuted x { x with buf := buf } root root') :
    (∀ p, hmConfigParse x evs = .ok p → ∃ p', hmConfigParse { x with buf := buf } evs' = .ok p' ∧
      (unlined p' = unlined p ↔ ¬ Exchanged (texts x root) (texts { x with buf := buf } root'))) ∧
    (RefusedAtEnd x evs start root → RefusedAtEnd { x with buf := buf } evs' start' root') := by
  have hkeys' : (root'.map (·.1)).Nodup := by
    obtain ⟨mid, hp, hsame⟩ := hperm
    rw [← hsame.keys]
    exact (hp.map _).nodup_iff.mp hkeys
  have htexts : (texts x root).Perm (texts { x with buf := buf } root') := by
    obtain ⟨mid, hp, hsame⟩ := hperm
    rw [← texts_alike hsame]
    exact hp.filterMap _
  have hparse := parse_mapping (x := x) hdoc hkeys
  have hparse' := parse_mapping (x := { x with buf := buf }) hdoc' hkeys'
  -- both orders are checked on the same record
  have hfinish : ∀ c d, bare (norm c) = bare (norm d) →
      (finishProject x c).toOption.map (fun c => bare (norm c)) =
        (finishProject { x with buf := buf } d).toOption.map fun c => bare (norm c) := by
    intro c d h
    have hd := finishProject_core (x := { x with buf := buf }) [] d
    rw [← finishProject_core [] c, h]
    exact hd
  constructor
  · intro p hp
    rw [hparse] at hp
    cases hfeed : feed x (begun start) (entryEvents root) with
    | error msg =>
      rw [hfeed] at hp
      cases hp
    | ok c =>
      obtain ⟨d, hd, hbare, htext, htext'⟩ := feed_permuted start start' hkeys hperm hfeed
      rw [hfeed] at hp
      dsimp only at hp
      obtain ⟨c', hfin, rfl⟩ : ∃ c', finishProject x c = .ok c' ∧ c'.out = p := by
        cases hfin : finishProject x c with
        | error msg =>
          rw [hfin] at hp
          cases hp
        | ok c' =>
          rw [hfin] at hp
          exact ⟨c', rfl, Except.ok.inj hp⟩
      have h := hfinish c d hbare
      rw [hfin] at h
      cases hfin' : finishProject { x with buf := buf } d with
      | error msg =>
        rw [hfin'] at h
        cases h
      | ok d' =>
        rw [hfin'] at h
        have hbare' : bare (norm c') = bare (norm d') := Option.some.inj h
        refine ⟨d'.out, ?_, ?_⟩
        · rw [hparse', hd]
          exact congrArg (Except.map _) hfin'
        · obtain ⟨hi, hn⟩ := (finishProject_frame hfin).install
          obtain ⟨hi', hn'⟩ := (finishProject_frame hfin').install
          have hc' : installOf c' = installOf c := congrArg₂ Prod.mk hi hn
          have hd' : installOf d' = installOf d := congrArg₂ Prod.mk hi' hn'
          rw [unlined_eq_iff hbare', hc', hd', htext, htext', getD_last_iff htexts,
            last_perm htexts (texts_length hkeys)]
  · rintro ⟨c, msg, hfeed, hfin, -⟩
    obtain ⟨d, hd, hbare, -, -⟩ := feed_permuted start start' hkeys hperm hfeed
    have h := hfinish c d hbare
    rw [hfin] at h
    cases hfin' : finishProject { x with buf := buf } d with
    | ok c' =>
      rw [hfin'] at h
      cases h
    | error msg' =>
      refine ⟨d, msg', hd, hfin', ?_⟩
      rw [hparse', hd]
      exact congrArg (Except.map _) hfin'

end Parse

section Exchange

def movedInput (inside after : Bool) : Input where
  buf :=
    let bins := ascii "bin-path:\n  a: /b\n" ++
      if inside then ascii "  install: |\n    x\n" else []
    let install := ascii "install: |\n  y\n"
    ascii "url: u\n" ++ if after then bins ++ install else install ++ bins
  origin := ascii "t.siml"

def blockEntry (line off : Nat) : Bytes × Node :=
  (installKey, .block line ⟨off, 1⟩ [] Nat.one_ne_zero)

def binsEntry (inside : Bool) (line last off : Nat) : Bytes × Node :=
  (binKey, .map line (line + 1) last ((ascii "a", .scalar (ascii "/b") (line + 1)) ::
    if inside then [blockEntry (line + 2) off] else []))

def movedRoot (inside after : Bool) : List (Bytes × Node) :=
  (ascii "url", .scalar (ascii "u") 1) ::
    match inside, after with
    | true, true => [binsEntry true 2 6 42, blockEntry 6 57]
    | true, false => [blockEntry 2 20, binsEntry true 4 7 57]
    | false, true => [binsEntry false 2 4 0, blockEntry 4 38]
    | false, false => [blockEntry 2 20, binsEntry false 4 5 0]

def movedDocs (inside after : Bool) : List Document :=
  [⟨1, .map 1 1 (if inside then 7 else 5) (movedRoot inside after)⟩]

def movedEvents (inside after : Bool) : List Event :=
  .streamStart :: ((movedDocs inside after).flatMap Document.events ++ [.streamEnd])

theorem moved_documented (inside after : Bool) :
    Documented (movedEvents inside after) (movedDocs inside after) := by
  cases inside <;> cases after <;> rfl

theorem moved_keys (inside : Bool) : ((movedRoot inside true).map (·.1)).Nodup := by
  cases inside <;> decide +kernel

theorem moved_permuted (inside : Bool) :
    Permuted (movedInput inside true) (movedInput inside false) (movedRoot inside true)
      (movedRoot inside false) := by
  have hblock : ∀ off off' line line',
      blockText (movedInput inside true) ⟨off, 1⟩ [] =
        blockText (movedInput inside false) ⟨off', 1⟩ [] →
      Alike (movedInput inside true) (movedInput inside false) (blockEntry line off).2
        (blockEntry line' off').2 :=
    fun off off' line line' h => .block Nat.one_ne_zero Nat.one_ne_zero h
  cases inside with
  | false =>
    refine ⟨_, .cons _ (.swap (blockEntry 4 38) (binsEntry false 2 4 0) []), ?_⟩
    refine .cons _ (.scalar _ _ _) (.cons _ (hblock _ _ _ _ (by decide +kernel)) (.cons _ ?_ .nil))
    exact .map rfl (.cons (.scalar _ _ _) .nil)
  | true =>
    refine ⟨_, .cons _ (.swap (blockEntry 6 57) (binsEntry true 2 6 42) []), ?_⟩
    refine .cons _ (.scalar _ _ _) (.cons _ (hblock _ _ _ _ (by decide +kernel)) (.cons _ ?_ .nil))
    exact .map rfl (.cons (.scalar _ _ _) (.cons (hblock _ _ _ _ (by decide +kernel)) .nil))

theorem moved_accepted (inside after : Bool) : ∃ p,
    hmConfigParse (movedInput inside after) (movedEvents inside after) = .ok p ∧
      p.install = if inside && !after then ascii "    x" else ascii "  y" := by
  have hrun : (hmConfigParse (movedInput inside after) (movedEvents inside after)).map (·.install) =
      .ok (if inside && !after then ascii "    x" else ascii "  y") := by
    cases inside <;> cases after <;> decide +kernel
  cases hp : hmConfigParse (movedInput inside after) (movedEvents inside after) with
  | error msg =>
    rw [hp] at hrun
    cases hrun
  | ok p =>
    rw [hp] at hrun
    exact ⟨p, rfl, Except.ok.inj hrun⟩

theorem order_of_one_install : ∃ p p',
    hmConfigParse (movedInput false true) (movedEvents false true) = .ok p ∧
      hmConfigParse (movedInput false false) (movedEvents false false) = .ok p' ∧
      unlined p' = unlined p := by
  obtain ⟨p, hp, -⟩ := moved_accepted false true
  obtain ⟨p', hp', hsame⟩ := (order_of_entries (movedInput false false).buf
    (moved_documented false true) (moved_documented false false) (moved_keys false)
    (moved_permuted false)).1 p hp
  refine ⟨p, p', hp, hp', hsame.mpr ?_⟩
  rintro ⟨a, b, hsub, -⟩
  have hle : 2 ≤ (texts (movedInput false true) (movedRoot false true)).length := hsub.length_le
  exact absurd hle (by decide +kernel)

/-- With another block inside the mapping the later of the two is run. -/
theorem exchanged_installs : ((movedRoot true true).map (·.1)).Nodup ∧
    Documented (movedEvents true true) (movedDocs true true) ∧
    Documented (movedEvents true false) (movedDocs true false) ∧
    Permuted (movedInput true true) (movedInput true false) (movedRoot true true)
      (movedRoot true false) ∧
    ∃ p p', hmConfigParse (movedInput true true) (movedEvents true true) = .ok p ∧
      hmConfigParse (movedInput true false) (movedEvents true false) = .ok p' ∧
      unlined p' ≠ unlined p := by
  refine ⟨moved_keys true, moved_documented true true, moved_documented true false,
    moved_permuted true, ?_⟩
  obtain ⟨p, hp, htext⟩ := moved_accepted true true
  obtain ⟨p', hp', htext'⟩ := moved_accepted true false
  refine ⟨p, p', hp, hp', fun heq => ?_⟩
  have hinstall := congrArg Project.install heq
  change p'.install = p.install at hinstall
  rw [htext, htext'] at hinstall
  exact absurd hinstall (by decide +kernel)

end Exchange

end Hacman.Facts
