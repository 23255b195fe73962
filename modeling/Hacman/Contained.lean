import Hacman.Directories
import Hacman.SetupChild

/-!
# What a sandboxed setup can change

The shell of a setup and everything that it starts run under the layer that its child put on, or
under further ones. They open and write files, make, remove, link and rename entries as far as all
layers permit it at that moment. Whatever they do, every path to something outside the directories
of the setup leads to the same thing afterwards, with the same content.
-/

namespace Hacman.Contained
open Octets Config Interaction Layers Sandbox Directories SetupChild

section Model
variable {O : Type}

inductive Kind
  | reg | sym | char | block | fifo | sock
  deriving DecidableEq, Repr

def Kind.make : Kind → Right
  | reg => .makeReg
  | sym => .makeSym
  | char => .makeChar
  | block => .makeBlock
  | fifo => .makeFifo
  | sock => .makeSock

abbrev Node (O : Type) := Object O Bytes (Kind × Bytes)

def makes : Node O → Right
  | .dir _ => .makeDir
  | .leaf content => content.1.make

def removes : Node O → Right
  | .dir _ => .removeDir
  | .leaf _ => .removeFile

structure Scene (O : Type) where
  files : Files O Bytes (Kind × Bytes)
  held : Set O

/-- Rights to change something that every version of the interface handles. -/
def Right.Changes (r : Right) : Prop := r.reads = false ∧ r.since ≤ HM_LANDLOCK_MIN_ABI
  deriving Decidable

variable [DecidableEq O]

/-- A call that changes something. An open file is written whatever is permitted by then, and what
moves between directories needs a right in both of them. -/
inductive Change (permits : O → Right → Prop) (s : Scene O) : Scene O → Prop
  | opened {x : O} (hopen : permits x .writeFile) :
    Change permits s { s with held := insert x s.held }
  | write {x : O} {kind : Kind} {old new : Bytes} (hheld : x ∈ s.held)
    (hx : s.files x = some (.leaf (kind, old))) :
    Change permits s { s with files := Function.update s.files x (some (.leaf (kind, new))) }
  | truncate {x : O} {kind : Kind} {old new : Bytes} (htruncate : permits x .truncate)
      (hx : s.files x = some (.leaf (kind, old))) :
    Change permits s { s with files := Function.update s.files x (some (.leaf (kind, new))) }
  | make {d y : O} {n : Bytes} {node : Node O} (hmake : permits d (makes node))
    (hfree : entry s.files d n = none)
      (hnew : s.files y = none) (hempty : ∀ m, node.entry m = none) :
    Change permits s
      { s with files := setEntry (Function.update s.files y (some node)) d n (some y) }
  | remove {d y : O} {n : Bytes} {node : Node O} (hn : entry s.files d n = some y)
    (hy : s.files y = some node)
      (hremove : permits d (removes node)) : Change permits s
        { s with files := setEntry s.files d n none }
  | link {d d' y : O} {n n' : Bytes} {content : Kind × Bytes} (hn : entry s.files d n = some y)
      (hy : s.files y = some (.leaf content)) (hfree : entry s.files d' n' = none)
      (hmake : permits d' (makes (.leaf content : Node O)))
        (hrefer : d = d' ∨ permits d .refer ∧ permits d' .refer) :
    Change permits s { s with files := setEntry s.files d' n' (some y) }
  | rename {d d' y : O} {n n' : Bytes} {node : Node O} (hn : entry s.files d n = some y)
    (hy : s.files y = some node)
      (hremove : permits d (removes node)) (hmake : permits d' (makes node))
      (hreplace : ∀ z old, entry s.files d' n' = some z → s.files z = some old →
        permits d' (removes old))
      (hrefer : d = d' ∨ permits d .refer ∧ permits d' .refer) :
    Change permits s { s with files := setEntry (setEntry s.files d n none) d' n' (some y) }
  | exchange {d d' y y' : O} {n n' : Bytes} {node node' : Node O} (hn : entry s.files d n = some y)
      (hy : s.files y = some node) (hn' : entry s.files d' n' = some y')
        (hy' : s.files y' = some node')
      (hremove : permits d (removes node) ∧ permits d' (removes node'))
      (hmake : permits d' (makes node) ∧ permits d (makes node'))
      (hrefer : d = d' ∨ permits d .refer ∧ permits d' .refer) :
    Change permits s { s with files := setEntry (setEntry s.files d n (some y')) d' n' (some y) }

/-- A call under a domain, which is asked where the objects are at that moment. -/
def Scene.step (d : Domain O Right) (s s' : Scene O) : Prop :=
  Change (Layers.Permits (Below s.files) d) s s'

end Model

section Beyond
variable {O : Type} {s₀ s s' : Scene O} {roots : List O} {d x y : O} {n : Bytes}

def Scene.beyond (s : Scene O) (roots : List O) : Set O :=
  { x | s.files x ≠ none ∧ x ∉ s.held ∧ ∀ o ∈ roots, ¬ Below s.files x o }

/-- No directory is open for writing. -/
def Scene.Usual (s : Scene O) : Prop := ∀ x ∈ s.held, ∀ n, entry s.files x n = none

theorem entry_exists {files : Files O Bytes (Kind × Bytes)} (hn : entry files d n = some y) :
    files d ≠ none := by
  intro hnone
  rw [entry, hnone] at hn
  cases hn

theorem Kind.make_changes (kind : Kind) : Right.Changes kind.make := by
  cases kind <;> decide

theorem makes_changes (node : Node O) : Right.Changes (makes node) := by
  cases node with
  | dir => exact (by decide : Right.Changes .makeDir)
  | leaf content => exact content.1.make_changes

theorem removes_changes (node : Node O) : Right.Changes (removes node) := by
  cases node with
  | dir => exact (by decide : Right.Changes .removeDir)
  | leaf => exact (by decide : Right.Changes .removeFile)

/-- What is beyond the roots is reached through what is beyond them. -/
theorem beyond_parent (husual : s.Usual) (hn : entry s.files d n = some y)
    (hy : y ∈ s.beyond roots) : d ∈ s.beyond roots := by
  refine ⟨entry_exists hn, fun hheld => ?_, fun o ho hd => hy.2.2 o ho (hd.tail ⟨n, hn⟩)⟩
  rw [husual d hheld n] at hn
  cases hn

theorem sealed_beyond (husual : s.Usual) : Sealed s.files (s.beyond roots) s.files :=
  ⟨fun _ _ => rfl, fun _ hd _ _ hn hy => hd (beyond_parent husual hn hy)⟩

structure Confined (s₀ : Scene O) (roots : List O) (s : Scene O) : Prop where
  files : Sealed s₀.files (s₀.beyond roots) s.files
  held : ∀ x ∈ s.held, x ∉ s₀.beyond roots

theorem root_not_beyond (ho : x ∈ roots) : x ∉ s₀.beyond roots := fun hx => hx.2.2 x ho .refl

theorem Confined.paths (hs : Confined s roots s') (husual : s.Usual) {ns : List Bytes}
    (hwalk : walk s.files d ns = some x) (hx : x ∈ s.beyond roots) :
    walk s'.files d ns = some x ∧ s'.files x = s.files x :=
  ⟨(hs.files.walk (fun _ _ _ hn hy => beyond_parent husual hn hy) hwalk hx).1, hs.files.kept x hx⟩

theorem leaves_changes {abi : Nat} {root null x : O} {dirs : List O}
    {below : O → O → Prop} {r : Right}
    (h : Leaves abi below root null dirs x r) (habi : HM_LANDLOCK_MIN_ABI ≤ abi)
    (hr : Right.Changes r) :
    ∃ o ∈ null :: dirs, below x o := by
  obtain ⟨hreads, -⟩ | ⟨o, ho, hbelow⟩ | ⟨-, hbelow⟩ := h (Nat.le_trans hr.2 habi)
  · exact absurd (hr.1.symm.trans hreads) Bool.false_ne_true
  · exact ⟨o, List.mem_cons_of_mem _ ho, hbelow⟩
  · exact ⟨null, List.mem_cons_self, hbelow⟩

variable [DecidableEq O]

theorem Change.confined {permits : O → Right → Prop} (h : Change permits s s')
    (hs : Confined s₀ roots s)
    (hpermits : ∀ x r, Right.Changes r → permits x r → ∃ o ∈ roots, Below s.files x o) :
    Confined s₀ roots s' := by
  have houtside : ∀ x r, Right.Changes r → permits x r → x ∉ s₀.beyond roots := by
    intro x r hr hx
    obtain ⟨o, ho, hbelow⟩ := hpermits x r hr hx
    exact hs.files.below (root_not_beyond ho) hbelow
  have hmakes : ∀ (d : O) (node : Node O), permits d (makes node) → d ∉ s₀.beyond roots :=
    fun d node => houtside d _ (makes_changes node)
  have hremoves : ∀ (d : O) (node : Node O), permits d (removes node) → d ∉ s₀.beyond roots :=
    fun d node => houtside d _ (removes_changes node)
  cases h with
  | opened hopen =>
    refine ⟨hs.files, fun x hx => ?_⟩
    rcases Set.mem_insert_iff.mp hx with rfl | hx
    · exact houtside _ .writeFile (by decide) hopen
    · exact hs.held x hx
  | write hheld _ => exact ⟨hs.files.update (hs.held _ hheld) _ nofun, hs.held⟩
  | truncate htruncate _ =>
    exact ⟨hs.files.update (houtside _ .truncate (by decide) htruncate) _ nofun, hs.held⟩
  | @make d y n node hmake _ hnew hempty =>
    have hy : y ∉ s₀.beyond roots := fun hy => hy.1 ((hs.files.kept y hy).symm.trans hnew)
    have hnode : ∀ m z, node.entry m = some z → z ∉ s₀.beyond roots := by
      intro m z hm
      rw [hempty m] at hm
      cases hm
    refine ⟨(hs.files.update hy node hnode).setEntry (hmakes d node hmake) ?_, hs.held⟩
    rintro z ⟨⟩
    exact hy
  | @remove d y n node hn _ hremove => exact ⟨hs.files.clearEntry (hremoves d node hremove),
    hs.held⟩
  | @link d d' y n n' content hn _ _ hmake hrefer =>
    have hd' := hmakes d' _ hmake
    have hd : d ∉ s₀.beyond roots := by
      rcases hrefer with rfl | ⟨hrefer, -⟩
      · exact hd'
      · exact houtside d .refer (by decide) hrefer
    refine ⟨hs.files.setEntry hd' ?_, hs.held⟩
    rintro z ⟨⟩
    exact hs.files.closed d hd n y hn
  | @rename d d' y n n' node hn _ hremove hmake _ _ =>
    have hd := hremoves d node hremove
    refine ⟨(hs.files.clearEntry hd).setEntry (hmakes d' node hmake) ?_, hs.held⟩
    rintro z ⟨⟩
    exact hs.files.closed d hd n y hn
  | @exchange d d' y y' n n' node node' hn _ hn' _ hremove _ _ =>
    have hd := hremoves d node hremove.1
    have hd' := hremoves d' node' hremove.2
    refine ⟨(hs.files.setEntry hd ?_).setEntry hd' ?_, hs.held⟩
    · rintro z ⟨⟩
      exact hs.files.closed d' hd' n' y' hn'
    · rintro z ⟨⟩
      exact hs.files.closed d hd n y hn

end Beyond

section Runs
variable {O : Type} [DecidableEq O] {s s' : Scene O} {roots : List O}
  {domain : Domain O Right} {h : Host O}
  {strerror : Errno → Bytes} {p : Project} {workdir cacheDir : Bytes} {trace : Bool}
    {w w₀ : World O}

/-- All calls of processes under a domain. -/
theorem confined_run (hrun : Run Scene.step domain s s') (husual : s.Usual)
    (hdomain : ∀ below x r, Right.Changes r → Layers.Permits below domain x r →
      ∃ o ∈ roots, below x o) :
    Confined s roots s' := by
  refine hrun.invariant ⟨sealed_beyond husual, fun x hx hbeyond => hbeyond.2.1 hx⟩ fun d' s₁ s₂ hd
    hstep hs₁ => ?_
  exact hstep.confined hs₁ fun x r hr hx => hdomain _ x r hr (hx.of_suffix hd)

/-- Whatever a sandboxed setup and all that it starts do, a path to something that is not below its
directories and not the null device leads there afterwards, too, and finds it unchanged. -/
theorem setup_contained {setup : Setup} {argv : List Bytes} {t : List (Event calls)}
    {k : Option Errno → C Ending} (hsandboxed : p.sandboxed = true)
    (hsteps : Steps h.child (setup.child strerror p workdir cacheDir trace) w₀ t
      (.ask (.exec argv) k) w)
    (husual : s.Usual) (hrun : Run Scene.step w.domain s s') :
    ∃ root null dirs, Places h w.cwd p workdir cacheDir root null dirs ∧
      ∀ d ns x, walk s.files d ns = some x → x ∈ s.beyond (null :: dirs) →
        walk s'.files d ns = some x ∧ s'.files x = s.files x := by
  have hinside := ((child_prepares setup).guard hsteps rfl).2.inside
  rw [Inside, if_pos hsandboxed] at hinside
  obtain ⟨l, hpolicy, hdomain⟩ := hinside
  obtain ⟨root, null, dirs, hplaces, hpermits⟩ := hpolicy.permits
  refine ⟨root, null, dirs, hplaces, fun d ns x hwalk hx => ?_⟩
  refine (confined_run hrun husual fun below x r hr hx => ?_).paths husual hwalk hx
  rw [hdomain, permits_cons, hpermits] at hx
  exact leaves_changes hx.1 hpolicy.1 hr

end Runs

section Plain

def ETC : FileTree.Path := [ascii "etc"]
def CACHE : FileTree.Path := FileTree.comps (ascii "/c")

def plainFiles : Files FileTree.Path Bytes (Kind × Bytes) := fun o =>
  if o = [] then some (.dir fun n => if n = ascii "etc" then some ETC
    else if n = ascii "c" then some CACHE else none)
  else if o = ETC then some (.leaf (.reg, ascii "kept"))
  else if o = CACHE then some (.dir fun _ => none)
  else none

def plainScene : Scene FileTree.Path := ⟨plainFiles, ∅⟩

def plainMade : Scene FileTree.Path :=
  ⟨setEntry (Function.update plainFiles [ascii "new"] (some (.leaf (.reg, [])))) CACHE (ascii "new")
    (some [ascii "new"]), ∅⟩

theorem plain_made {domain : Domain FileTree.Path Right} {root null : FileTree.Path}
    {dirs : List FileTree.Path} (hcache : CACHE ∈ dirs)
    (hdomain : ∀ below x r, Layers.Permits below domain x r ↔ Leaves 3 below root null dirs x r) :
    Run Scene.step domain plainScene plainMade := by
  have hmake : Layers.Permits (Below plainFiles) domain CACHE .makeReg :=
    (hdomain _ _ _).mpr fun _ => .inr (.inl ⟨CACHE, hcache, .refl⟩)
  exact .tail (.refl _) List.suffix_rfl
    (@Change.make _ _ (Layers.Permits (Below plainFiles) domain) plainScene CACHE [ascii "new"]
      (ascii "new") (.leaf (.reg, [])) hmake (by decide) (by decide) fun _ => rfl)

theorem plain_beyond {null : FileTree.Path} {dirs : List FileTree.Path}
    (hnull : null = FileTree.comps DEV_NULL)
    (hdirs : dirs = [FileTree.comps (ascii "/c/k.work"), CACHE]) :
    ETC ∈ plainScene.beyond (null :: dirs) := by
  have hempty : ∀ o ∈ null :: dirs, o ≠ ETC ∧ ∀ n, entry plainFiles o n = none := by
    subst hnull
    subst hdirs
    intro o ho
    simp only [List.mem_cons, List.not_mem_nil, or_false] at ho
    obtain rfl | rfl | rfl := ho <;> exact ⟨by decide, fun _ => rfl⟩
  refine ⟨by decide, Set.notMem_empty _, fun o ho hbelow => ?_⟩
  obtain ⟨hne, hnone⟩ := hempty o ho
  rcases Relation.ReflTransGen.cases_head hbelow with rfl | ⟨y, ⟨n, hn⟩, -⟩
  · exact hne rfl
  · rw [show plainScene.files = plainFiles from rfl, hnone n] at hn
    cases hn

theorem plain_dirs {cwd root null : FileTree.Path} {dirs : List FileTree.Path}
    (hplaces : Places plainHost cwd { sandboxed := true } (ascii "/c/k.work")
      (ascii "/c") root null dirs) :
    dirs = [FileTree.comps (ascii "/c/k.work"), CACHE] := by
  obtain ⟨work, rest, ⟨hwork, -⟩, hrest, rfl⟩ := List.forall₂_cons_left_iff.mp hplaces.dirs
  obtain ⟨cache, none, ⟨hcache, -⟩, hnone, rfl⟩ := List.forall₂_cons_left_iff.mp hrest
  obtain rfl := List.forall₂_nil_left_iff.mp hnone
  rw [show work = FileTree.comps (ascii "/c/k.work") from hwork, show cache = CACHE from hcache]

theorem setup_contained_plain : ∃ domain, Run Scene.step domain plainScene plainMade ∧
    walk plainMade.files [] [ascii "etc"] = some ETC ∧
      plainMade.files ETC = some (.leaf (.reg, ascii "kept")) := by
  obtain ⟨t, k, w, hsteps, -⟩ := @plain_run (ascii "/c/k.work") plainWorld (by decide)
    (fun _ => rfl) (by decide)
  have hinside := ((child_prepares .command).guard hsteps rfl).2.inside
  rw [Inside, if_pos rfl] at hinside
  obtain ⟨l, hpolicy, hdomain⟩ := hinside
  obtain ⟨root, null, dirs, hplaces, hpermits⟩ := hpolicy.permits
  have hrun : Run Scene.step w.domain plainScene plainMade := by
    refine @plain_made _ root null dirs ?_ fun below x r => ?_
    · rw [plain_dirs hplaces]
      exact List.mem_cons_of_mem _ (List.mem_singleton_self CACHE)
    · rw [hdomain, permits_cons, hpermits]
      exact and_iff_left permits_nil
  obtain ⟨root', null', dirs', hplaces', hkept⟩ := setup_contained rfl hsteps
    (fun x hx => absurd hx (Set.notMem_empty x)) hrun
  refine ⟨w.domain, hrun, hkept [] [ascii "etc"] ETC rfl
    (plain_beyond hplaces'.null (plain_dirs hplaces'))⟩

end Plain

end Hacman.Contained
