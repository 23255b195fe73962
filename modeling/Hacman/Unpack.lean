import Hacman.WorkTree
import Hacman.Plan

/-!
# Unpacking

`hm_unpack` writes the embedded files and the project's script below a directory that the
user names. Whatever stands there already, and whichever call fails, it adds entries at the
places that the files' paths spell below that directory, and changes no other entry.
-/

namespace Hacman.Unpack
open Octets Util Config FileTree WorkTree Interaction

section Program

/-- An entry that stands there already is no reason to stop. -/
def refusal : Except Errno Unit → Option Errno
  | .ok () => none
  | .error e => if e = .exist then none else some e

def openParents : Path → List Name → F (Except Errno Path)
  | fd, [] => pure (.ok fd)
  | fd, name :: names => do
    match refusal (← mkdir (.dir fd) name 0o700) with
    | some e => pure (.error e)
    | none =>
      match ← openDir (.dir fd) name true with
      | .error e => pure (.error e)
      | .ok next => openParents next names

/-- A script that does not name its interpreter gets the one of a setup. -/
def writeInterpreter (file : Path) (script : Bool) (lines : List Bytes) : F Bool :=
  if script && !(ascii "#!").isPrefixOf (lines.head?.getD []) then
    fwrite file (ascii "#!" ++ Plan.HM_SHELL ++ [LF])
  else pure true

def unpackFile (file : EmbeddedFile) (root : Path) (script : Bool) : F Outcome := do
  match ← dup root with
  | .error e => pure (complain [] "cannot open unpack directory" e)
  | .ok fd =>
    match ← openParents fd (fields SLASH file.path).dropLast with
    | .error e => pure (complain file.path "cannot extract file" e)
    | .ok parent =>
      let name := (fields SLASH file.path).getLast (fields_ne_nil _ _)
      match ← create (.dir parent) name (if script then 0o700 else 0o600) with
      | .error e => pure (complain file.path "cannot extract file" e)
      | .ok fp =>
        match ← fdopen fp with
        | .error e =>
          let _ ← unlink (.dir parent) name
          pure (complain file.path "cannot open extracted file stream" e)
        | .ok () =>
          let started ← writeInterpreter fp script (fileLines file)
          let written ← writeLines fp (fileLines file)
          let closed ← fclose fp
          if started && written && closed then pure (.ok ())
          else
            let _ ← unlink (.dir parent) name
            pure (complain file.path "cannot write extracted file" none)

def unpackFiles (root : Path) : List EmbeddedFile → F Outcome
  | [] => pure (.ok ())
  | file :: files => do
    match ← unpackFile file root false with
    | .error c => pure (.error c)
    | .ok () => unpackFiles root files

def scriptOf (p : Project) : Option EmbeddedFile :=
  if p.command ≠ [] then some ⟨ascii "command.sh", p.command, 0, 0⟩
  else if p.install ≠ [] then some ⟨ascii "install.sh", p.install, p.installIndent, 0⟩
  else none

def conflicts (script : EmbeddedFile) (file : EmbeddedFile) : Bool :=
  script.path.isPrefixOf file.path &&
    (file.path.length = script.path.length || file.path[script.path.length]? = some SLASH)

def hmUnpack (p : Project) (target : Bytes) : F Outcome :=
  match (scriptOf p).bind fun script => (p.files.find? (conflicts script)).map (·, script) with
  | some (file, script) =>
    pure (.error ⟨file.path, ascii "conflicts with extracted " ++ script.path, none⟩)
  | none => do
    match ← hmWorkdirEnsure target with
    | .error c => pure (.error c)
    | .ok () =>
      match ← openDir .cwd target false with
      | .error e => pure (complain target "cannot open unpack target" e)
      | .ok root =>
        match ← unpackFiles root p.files with
        | .error c => pure (.error c)
        | .ok () =>
          match scriptOf p with
          | none => pure (.ok ())
          | some script => unpackFile script root true

end Program

section Confinement
variable {k : Kernel} {p : Project} {target : Bytes} {w₀ w w' : World} {T x : Path}

def outputs (p : Project) : List Bytes := (p.files ++ (scriptOf p).toList).map (·.path)

def Target (k : Kernel) (target : Bytes) (w : World) (T : Path) : Prop :=
  walk (look w.tree) k.linkMax (origin k.cwd target) (comps target) = .ok T

def OnTheWay (k : Kernel) (target : Bytes) (w : World) (x : Path) : Prop :=
  ∃ cut ∈ cuts target, ∃ d n, k.locate w.tree .cwd cut = .ok (.entry d n) ∧ x = d ++ [n]

/-- The place that a file's path, or the path of one of its directories, spells below the
target itself. -/
def Inside (k : Kernel) (p : Project) (target : Bytes) (w : World) (x : Path) : Prop :=
  ∃ T, Target k target w T ∧ ∃ path ∈ outputs p, ∃ cs, cs ≠ [] ∧ cs <+: fields SLASH path ∧
    x = T ++ cs

structure Held (k : Kernel) (p : Project) (target : Bytes) (w₀ w : World) : Prop where
  kept : ∀ x e, look w₀.tree x = some e → look w.tree x = some e
  added : ∀ x, x ∈ w.tree → x ∉ w₀.tree → OnTheWay k target w x ∨ Inside k p target w x

/-- What a call may do. Nothing but a new file is removed, and below a descriptor every call
names an entry of that directory itself. -/
def Harmless (target : Bytes) (w₀ : World) : Req → Prop
  | .lstat path => path = target
  | .mkdir .cwd path _ => path ∈ cuts target
  | .mkdir (.dir _) name _ => proper name = true
  | .create fd name _ => fd ≠ .cwd ∧ proper name = true
  | .unlink fd name => proper name = true ∧ ∃ d, fd = .dir d ∧ d ++ [name] ∉ w₀.tree
  | .openDir .cwd path _ => path = target
  | .openDir (.dir _) name nofollow => proper name = true ∧ nofollow = true
  | .dup _ => True
  | .fdopen file => file ∉ w₀.tree
  | .fwrite file _ => file ∉ w₀.tree
  | .fclose file => file ∉ w₀.tree
  | _ => False

def Guard (k : Kernel) (p : Project) (target : Bytes) (w₀ w : World) (r : Req) : Prop :=
  Held k p target w₀ w ∧ Harmless target w₀ r

theorem Held.refl : Held k p target w₀ w₀ := ⟨fun _ _ h => h, fun _ h h' => absurd h h'⟩

theorem Target.mono (h : Target k target w T) (hu : Under (look w.tree) (look w'.tree)) :
    Target k target w' T := walk_mono hu h

/-- The places of the new entries do not depend on what is added or written later. -/
theorem Held.step (h : Held k p target w₀ w) (hu : Under (look w.tree) (look w'.tree))
    (hkept : ∀ x e, look w₀.tree x = some e → look w.tree x = some e → look w'.tree x = some e)
    (hnew : ∀ x, x ∈ w'.tree → x ∉ w.tree → OnTheWay k target w' x ∨ Inside k p target w' x) :
    Held k p target w₀ w' := by
  refine ⟨fun x e he => hkept x e he (h.kept x e he), fun x hx hx₀ => ?_⟩
  by_cases hw : x ∈ w.tree
  · rcases h.added x hw hx₀ with ⟨cut, hcut, d, n, hloc, hxd⟩ | ⟨T, hT, hpath⟩
    · exact .inl ⟨cut, hcut, d, n, locate_mono hu hloc, hxd⟩
    · exact .inr ⟨T, hT.mono hu, hpath⟩
  · exact hnew x hx hw

theorem Held.add (h : Held k p target w₀ w) {e : Entry} (hfree : look w.tree x = none)
    (hnew : OnTheWay k target { w with tree := w.tree.insert x e } x ∨
      Inside k p target { w with tree := w.tree.insert x e } x) :
    Held k p target w₀ { w with tree := w.tree.insert x e } := by
  refine h.step (under_insert hfree) (fun y e' _ he' => ?_) fun y hy hyw => ?_
  · rw [look_insert, if_neg]
    · exact he'
    · rintro rfl
      rw [hfree] at he'
      cases he'
  · rcases (AList.mem_insert w.tree).mp hy with rfl | hy
    · exact hnew
    · exact absurd hy hyw

def OwnFile (w₀ w : World) (x : Path) : Prop :=
  x ∉ w₀.tree ∧ ∃ a content, look w.tree x = some (.file a content)

theorem Held.setContent (h : Held k p target w₀ w) (hx : OwnFile w₀ w x) (f : Bytes → Bytes) :
    Held k p target w₀ { w with tree := setContent w.tree x f } ∧
      OwnFile w₀ { w with tree := setContent w.tree x f } x := by
  obtain ⟨hx₀, a, content, hfile⟩ := hx
  refine ⟨h.step (under_setContent hfile f) (fun y e he he' => ?_) fun y hy hyw => ?_,
    hx₀, a, f content, ?_⟩
  · rw [look_setContent hfile, if_neg]
    · exact he'
    · rintro rfl
      exact hx₀ (mem_of_look he)
  · refine absurd ?_ hyw
    rw [mem_iff_look] at hy ⊢
    rw [look_setContent hfile] at hy
    split_ifs at hy with heq
    · rw [heq, hfile]
      exact Option.some_ne_none _
    · exact hy
  · rw [look_setContent hfile, if_pos rfl]

theorem Held.erase (h : Held k p target w₀ w) (hx : OwnFile w₀ w x) :
    Held k p target w₀ { w with tree := w.tree.erase x } := by
  obtain ⟨hx₀, a, content, hfile⟩ := hx
  refine h.step (under_erase hfile) (fun y e he he' => ?_) fun y hy hyw => ?_
  · rw [look_erase, if_neg]
    · exact he'
    · rintro rfl
      exact hx₀ (mem_of_look he)
  · exact absurd (AList.mem_erase.mp hy).2 hyw

theorem mkdirEach_safe {dirs : List Bytes} (hdirs : ∀ dir ∈ dirs, dir ∈ cuts target)
    (h : Held k p target w₀ w) : (mkdirEach dirs).Safe k.faulty (Guard k p target w₀)
      (fun _ w => Held k p target w₀ w) w := by
  induction dirs generalizing w with
  | nil => exact h
  | cons dir dirs ih =>
    obtain ⟨hdir, hrest⟩ := List.forall_mem_cons.mp hdirs
    refine ⟨⟨h, hdir⟩, fun x w' hx => ?_⟩
    rcases faulty_mkdir hx with ⟨e, rfl, rfl⟩ | ⟨x', t, hadd, rfl, rfl⟩
    · change Prog.Safe _ _ _ (if e = .exist then mkdirEach dirs else pure _) _
      split_ifs
      · exact ih hrest h
      · exact h
    · obtain ⟨d, n, hloc, rfl, hfree, rfl⟩ := add_ok hadd
      refine ih hrest (h.add hfree (.inl ⟨dir, hdir, d, n, ?_, rfl⟩))
      exact locate_mono (under_insert hfree) hloc

theorem mkdirP_safe (h : Held k p target w₀ w) : (mkdirP target).Safe k.faulty
    (Guard k p target w₀) (fun _ w => Held k p target w₀ w) w := by
  unfold mkdirP
  split_ifs
  · exact h
  · exact mkdirEach_safe (fun _ hdir => hdir) h

theorem ensure_safe (h : Held k p target w₀ w) : (hmWorkdirEnsure target).Safe k.faulty
    (Guard k p target w₀) (fun _ w => Held k p target w₀ w) w := by
  refine Prog.Safe.seq (mkdirP_safe h) fun made w' h' => ?_
  cases made with
  | error c => exact h'
  | ok _ =>
    refine ⟨⟨h', rfl⟩, fun (st : Except Errno Stat) w'' hst => ?_⟩
    rw [faulty_lstat hst]
    cases st with
    | error e => exact h'
    | ok st =>
      change Prog.Safe _ _ _ (if st.isDir then pure _ else pure _) _
      split_ifs
      · exact h'
      · exact h'

theorem openParents_safe {path : Bytes} {cs names rest : List Name} (hpath : path ∈ outputs p)
    (hproper : ∀ n ∈ names, proper n = true) (hcs : cs ++ names ++ rest = fields SLASH path)
    (h : Held k p target w₀ w) (hT : Target k target w T) :
    (openParents (T ++ cs) names).Safe k.faulty (Guard k p target w₀)
      (fun r w => Held k p target w₀ w ∧ Target k target w T ∧
        ∀ q, r = .ok q → q = T ++ cs ++ names) w := by
  induction names generalizing w cs with
  | nil =>
    refine ⟨h, hT, fun q hq => ?_⟩
    rw [List.append_nil]
    exact (Except.ok.inj hq).symm
  | cons name names ih =>
    obtain ⟨hname, hrest⟩ := List.forall_mem_cons.mp hproper
    have hcs' : cs ++ [name] ++ names ++ rest = fields SLASH path := by
      rw [← hcs]
      simp
    -- the rest of the loop, in a world where the directory may stand
    have hnext : ∀ v, Held k p target w₀ v → Target k target v T →
        Prog.Safe k.faulty (Guard k p target w₀)
          (fun r w => Held k p target w₀ w ∧ Target k target w T ∧
            ∀ q, r = .ok q → q = T ++ cs ++ name :: names)
          (openDir (.dir (T ++ cs)) name true >>= fun x =>
            match x with
            | .error e => pure (.error e)
            | .ok next => openParents next names) v := by
      intro v hv hTv
      refine ⟨⟨hv, hname, rfl⟩, fun (x : Except Errno Path) v' hx => ?_⟩
      obtain ⟨rfl, hopen⟩ := faulty_openDir hx
      cases x with
      | error e => exact ⟨hv, hTv, nofun⟩
      | ok next =>
        obtain ⟨rfl, -⟩ := openDir_name hname (hopen next rfl)
        have hloop := ih hrest hcs' hv hTv
        rw [← List.append_assoc] at hloop
        refine hloop.mono fun r w hr => ⟨hr.1, hr.2.1, fun q hq => ?_⟩
        rw [hr.2.2 q hq]
        simp
    refine ⟨⟨h, hname⟩, fun x w' hx => ?_⟩
    rcases faulty_mkdir hx with ⟨e, rfl, rfl⟩ | ⟨x', t, hadd, rfl, rfl⟩
    · by_cases he : e = .exist
      · subst he
        exact hnext _ h hT
      · have hrefusal : refusal (.error e) = some e := if_neg he
        dsimp only [Prog.bind]
        rw [hrefusal]
        exact ⟨h, hT, nofun⟩
    · obtain ⟨d, n, hloc, rfl, hfree, rfl⟩ := add_ok hadd
      cases locate_name hname hloc
      have hu := under_insert (e := .dir ⟨true, 0o700⟩) hfree
      refine hnext _ (h.add hfree (.inr ⟨T, hT.mono hu, path, hpath, cs ++ [name], by simp, ?_,
        List.append_assoc T cs [name]⟩)) (hT.mono hu)
      exact ⟨names ++ rest, by rw [← List.append_assoc, hcs']⟩

/-- A world where the call goes on with a file of its own below the target. -/
structure Writing (k : Kernel) (p : Project) (target : Bytes) (w₀ : World) (T x : Path)
    (w : World) : Prop where
  held : Held k p target w₀ w
  target : Target k target w T
  file : OwnFile w₀ w x

theorem Writing.setContent (h : Writing k p target w₀ T x w) (f : Bytes → Bytes) :
    Writing k p target w₀ T x { w with tree := setContent w.tree x f } := by
  obtain ⟨hheld, hfile⟩ := h.held.setContent h.file f
  obtain ⟨-, a, content, hx⟩ := h.file
  exact ⟨hheld, h.target.mono (under_setContent hx f), hfile⟩

theorem Writing.create {a : Attr} {path : Bytes} (h : Held k p target w₀ w)
    (hT : Target k target w T)
    (hfree : look w.tree x = none) (hpath : path ∈ outputs p) (hx : x = T ++ fields SLASH path) :
    Writing k p target w₀ T x { w with tree := w.tree.insert x (.file a []) } := by
  have hT' : Target k target { w with tree := w.tree.insert x (.file a []) } T :=
    hT.mono (under_insert hfree)
  refine ⟨h.add hfree (.inr ⟨T, hT', path, hpath, _, fields_ne_nil _ _, List.prefix_rfl, hx⟩), hT',
    fun hmem => ?_, a, [], by rw [look_insert, if_pos rfl]⟩
  obtain ⟨e, he⟩ := Option.ne_none_iff_exists'.mp (mem_iff_look.mp hmem)
  have hkept := h.kept x e he
  rw [hfree] at hkept
  cases hkept

theorem Writing.fwrite (h : Writing k p target w₀ T x w) {text : Bytes} {r : Bool}
    (hx : k.faulty.answers w (.fwrite x text) r w') : Writing k p target w₀ T x w' := by
  obtain ⟨f, rfl⟩ := faulty_fwrite hx
  exact h.setContent f

theorem Writing.fclose (h : Writing k p target w₀ T x w) {r : Bool}
    (hx : k.faulty.answers w (.fclose x) r w') : Writing k p target w₀ T x w' := by
  rcases faulty_fclose hx with rfl | ⟨f, rfl⟩
  · exact h
  · exact h.setContent f

theorem writeLines_safe {lines : List Bytes} (h : Writing k p target w₀ T x w) :
    (writeLines x lines).Safe k.faulty (Guard k p target w₀)
      (fun _ w => Writing k p target w₀ T x w) w := by
  induction lines generalizing w with
  | nil => exact h
  | cons line lines ih =>
    refine ⟨⟨h.held, h.file.1⟩, fun (r : Bool) w' hx => ?_⟩
    have h' := h.fwrite hx
    cases r with
    | false => exact h'
    | true =>
      refine ⟨⟨h'.held, h'.file.1⟩, fun (r : Bool) w'' hx' => ?_⟩
      cases r with
      | false => exact h'.fwrite hx'
      | true => exact ih (h'.fwrite hx')

theorem writeInterpreter_safe {script : Bool} {lines : List Bytes}
    (h : Writing k p target w₀ T x w) : (writeInterpreter x script lines).Safe k.faulty
      (Guard k p target w₀) (fun _ w => Writing k p target w₀ T x w) w := by
  unfold writeInterpreter
  split_ifs
  · exact ⟨⟨h.held, h.file.1⟩, fun _ _ hx => h.fwrite hx⟩
  · exact h

theorem unlink_safe {d : Path} {name : Name} {c : Outcome} (hname : proper name = true)
    (h : Writing k p target w₀ T (d ++ [name]) w) :
    (unlink (.dir d) name >>= fun _ => pure c).Safe k.faulty (Guard k p target w₀)
      (fun _ w => Held k p target w₀ w ∧ Target k target w T) w := by
  refine ⟨⟨h.held, hname, d, rfl, h.file.1⟩, fun x w' hx => ?_⟩
  rcases faulty_unlink hx with rfl | ⟨t, hunlink, rfl⟩
  · exact ⟨h.held, h.target⟩
  · obtain ⟨d', n, hloc, -, rfl⟩ := unlink_ok hunlink
    cases locate_name hname hloc
    obtain ⟨-, a, content, hfile⟩ := h.file
    exact ⟨h.held.erase h.file, h.target.mono (under_erase hfile)⟩

theorem unpackFile_safe {file : EmbeddedFile} {script : Bool} (hpath : file.path ∈ outputs p)
    (hproper : ∀ n ∈ fields SLASH file.path, proper n = true) (h : Held k p target w₀ w)
    (hT : Target k target w T) : (unpackFile file T script).Safe k.faulty (Guard k p target w₀)
      (fun _ w => Held k p target w₀ w ∧ Target k target w T) w := by
  have hsplit := List.dropLast_append_getLast (fields_ne_nil SLASH file.path)
  refine ⟨⟨h, trivial⟩, fun (x : Except Errno Path) w' hx => ?_⟩
  obtain ⟨rfl, hdup⟩ := faulty_dup hx
  cases x with
  | error e => exact ⟨h, hT⟩
  | ok fd =>
    obtain rfl : T = fd := (hdup fd rfl).symm
    have hall : [] ++ (fields SLASH file.path).dropLast ++ [(fields SLASH file.path).getLast _] =
        _ :=
      hsplit
    have hparents := openParents_safe hpath
      (fun n hn => hproper n (List.dropLast_subset _ hn)) hall h hT
    rw [List.append_nil] at hparents
    change Prog.Safe _ _ _ (openParents T _ >>= _) _
    refine Prog.Safe.seq hparents fun r w hr => ?_
    obtain ⟨h, hT, hr⟩ := hr
    cases r with
    | error e => exact ⟨h, hT⟩
    | ok parent =>
      obtain rfl := hr parent rfl
      have hname := hproper _ (List.getLast_mem (fields_ne_nil SLASH file.path))
      refine ⟨⟨h, nofun, hname⟩, fun (x : Except Errno Path) w' hx => ?_⟩
      rcases faulty_create hx with ⟨e, rfl, rfl⟩ | ⟨x', t, hadd, rfl, rfl⟩
      · exact ⟨h, hT⟩
      · obtain ⟨d, n, hloc, rfl, hfree, rfl⟩ := add_ok hadd
        cases locate_name hname hloc
        have hwrite := Writing.create (a := ⟨true, if script then 0o700 else 0o600⟩) h
          hT hfree hpath (by rw [List.append_assoc, hsplit])
        refine ⟨⟨hwrite.held, hwrite.file.1⟩, fun (x : Except Errno Unit) w' hx => ?_⟩
        rw [faulty_fdopen hx]
        cases x with
        | error e => exact unlink_safe hname hwrite
        | ok _ =>
          change Prog.Safe _ _ _ (writeInterpreter _ script _ >>= _) _
          refine Prog.Safe.seq (writeInterpreter_safe hwrite) fun started w hwrite => ?_
          refine Prog.Safe.seq (writeLines_safe hwrite) fun written w hwrite => ?_
          refine ⟨⟨hwrite.held, hwrite.file.1⟩, fun (closed : Bool) w' hx => ?_⟩
          have hclosed := hwrite.fclose hx
          change Prog.Safe _ _ _ (if _ then pure _ else _) _
          split_ifs
          · exact ⟨hclosed.held, hclosed.target⟩
          · exact unlink_safe hname hclosed

theorem unpackFiles_safe {files : List EmbeddedFile} (hfiles : ∀ f ∈ files, f.path ∈ outputs p ∧
      ∀ n ∈ fields SLASH f.path, proper n = true) (h : Held k p target w₀ w)
    (hT : Target k target w T) : (unpackFiles T files).Safe k.faulty (Guard k p target w₀)
      (fun _ w => Held k p target w₀ w ∧ Target k target w T) w := by
  induction files generalizing w with
  | nil => exact ⟨h, hT⟩
  | cons file files ih =>
    obtain ⟨⟨hpath, hproper⟩, hrest⟩ := List.forall_mem_cons.mp hfiles
    refine Prog.Safe.seq (unpackFile_safe hpath hproper h hT) fun r w hr => ?_
    cases r with
    | error c => exact hr
    | ok _ => exact ih hrest hr.1 hr.2

theorem script_proper {script : EmbeddedFile} (h : scriptOf p = some script) :
    ∀ n ∈ fields SLASH script.path, proper n = true := by
  have hnames : ∀ path ∈ [ascii "command.sh", ascii "install.sh"],
      ∀ n ∈ fields SLASH path, proper n = true := by decide +kernel
  unfold scriptOf at h
  split_ifs at h <;> obtain rfl := Option.some.inj h
  · exact hnames _ List.mem_cons_self
  · exact hnames _ (List.mem_cons_of_mem _ List.mem_cons_self)

theorem hmUnpack_safe (hfiles : ∀ f ∈ p.files, ∀ n ∈ fields SLASH f.path, proper n = true) :
    (hmUnpack p target).Safe k.faulty (Guard k p target w₀)
      (fun _ w => Held k p target w₀ w) w₀ := by
  have hmem : ∀ f ∈ p.files, f.path ∈ outputs p := fun f hf =>
    List.mem_map_of_mem (List.mem_append_left _ hf)
  unfold hmUnpack
  split
  · exact Held.refl
  · refine Prog.Safe.seq (ensure_safe Held.refl) fun made w h => ?_
    cases made with
    | error c => exact h
    | ok _ =>
      refine ⟨⟨h, rfl⟩, fun (x : Except Errno Path) w' hx => ?_⟩
      obtain ⟨rfl, hopen⟩ := faulty_openDir hx
      cases x with
      | error e => exact h
      | ok root =>
        have hT : Target k target w' root := openDir_walk (f := .cwd) (hopen root rfl)
        change Prog.Safe _ _ _ (unpackFiles root p.files >>= _) _
        refine Prog.Safe.seq (unpackFiles_safe (fun f hf => ⟨hmem f hf, hfiles f hf⟩) h hT)
          fun r w hr => ?_
        cases r with
        | error c => exact hr.1
        | ok _ =>
          change Prog.Safe _ _ _ (match scriptOf p with
            | none => pure (.ok ())
            | some script => unpackFile script root true) _
          cases hscript : scriptOf p with
          | none => exact hr.1
          | some script =>
            have hpath : script.path ∈ outputs p :=
              List.mem_map_of_mem (List.mem_append_right _
                (by rw [hscript]; exact List.mem_singleton_self _))
            exact (unpackFile_safe hpath (script_proper hscript) hr.1 hr.2).mono fun _ _ h => h.1

theorem onTheWay_exists (hT : Target k target w₀ T) (h : Held k p target w₀ w)
    (hx : OnTheWay k target w x) : x ∈ w₀.tree := by
  obtain ⟨cut, hcut, d, n, hloc, rfl⟩ := hx
  obtain ⟨-, -, rest, hcomps, horigin⟩ := cut_spec hcut
  unfold Kernel.locate at hloc
  split_ifs at hloc
  change placeOf (look w.tree) k.linkMax (origin k.cwd cut) _ = _ at hloc
  rw [horigin] at hloc
  unfold Target at hT
  rw [hcomps] at hT
  obtain ⟨cs, hcs, hdot, hdotdot, hw, -⟩ := placeOf_iff.mp hloc
  rw [hcs, List.append_assoc, walk_append] at hT
  obtain ⟨d', hd', hrest⟩ := bind_ok.mp hT
  have hkept : Under (look w₀.tree) (look w.tree) := .of_some h.kept
  obtain rfl : d = d' := Except.ok.inj (hw.symm.trans (walk_mono hkept hd'))
  rw [walk_append] at hrest
  obtain ⟨d', hd', -⟩ := bind_ok.mp hrest
  rw [walk_single] at hd'
  exact mem_iff_look.mpr (enter_some hdot hdotdot hd')

/-- Whatever fails, unpacking adds entries at the places that the paths of the files spell
below the target, and the directories that the target itself needs; every other entry stays
as it was. Only a file of its own is ever removed. -/
theorem unpack_confined {x : Input} {evs : List Config.Event} {q : F Outcome}
    {t : List (Interaction.Event calls)} (hparse : hmConfigParse x evs = .ok p)
    (hsteps : Steps k.faulty (hmUnpack p target) w₀ t q w) :
    (∀ x e, look w₀.tree x = some e → look w.tree x = some e) ∧
    (∀ x, x ∈ w.tree → x ∉ w₀.tree → OnTheWay k target w x ∨ Inside k p target w x) ∧
    (∀ T, Target k target w₀ T → ∀ x, x ∈ w.tree → x ∉ w₀.tree → ∃ path ∈ outputs p, ∃ cs,
      cs ≠ [] ∧ cs <+: fields SLASH path ∧ x = T ++ cs) ∧
    ∀ e ∈ t, Harmless target w₀ e.req := by
  have hsafe : (hmUnpack p target).Safe k.faulty (Guard k p target w₀)
      (fun _ w => Held k p target w₀ w) w₀ :=
    hmUnpack_safe fun f hf => fields_proper ((hmConfigParse_sound hparse).valid f hf)
  have hheld : Held k p target w₀ w := hsafe.reached hsteps (fun _ _ h => h.1) fun _ _ h => h
  refine ⟨hheld.kept, hheld.added, fun T hT x hx hx₀ => ?_, fun e he => ?_⟩
  · rcases hheld.added x hx hx₀ with hway | ⟨T', hT', hinside⟩
    · exact absurd (onTheWay_exists hT hheld hway) hx₀
    · obtain rfl : T' = T := Except.ok.inj (hT'.symm.trans (walk_mono (.of_some hheld.kept) hT))
      exact hinside
  · obtain ⟨v, hv⟩ := hsafe.requests hsteps e he
    exact hv.2

def linkedInput : Input where
  buf := ascii "command: t\nfiles:\n  d/f: |\n    x\n"
  origin := ascii "t.siml"

def linkedEvents : List Config.Event :=
  [.streamStart, .documentStart 1, .mappingStart 1, .scalar (ascii "command") (ascii "t") 1,
    .entryHeader (ascii "files") 2, .mappingStart 3, .blockStart (ascii "d/f") 3,
    .blockLine ⟨31, 1⟩,
    .blockEnd, .mappingEnd 5, .mappingEnd 5, .documentEnd, .streamEnd]

def linkedWorld : World where
  tree := List.toAList [
    ⟨[], .dir ⟨true, 0o755⟩⟩,
    ⟨[ascii "etc"], .dir ⟨true, 0o755⟩⟩,
    ⟨[ascii "t"], .dir ⟨true, 0o755⟩⟩,
    ⟨[ascii "t", ascii "d"], .link (ascii "/etc")⟩]
  opened := 3

theorem unpack_confined_link : ∃ p t q w, hmConfigParse linkedInput linkedEvents = .ok p ∧
    Steps linux.faulty (hmUnpack p (ascii "/t")) linkedWorld t q w ∧
    ∀ x e, look linkedWorld.tree x = some e → look w.tree x = some e := by
  have hrun : (hmConfigParse linkedInput linkedEvents).map (fun _ => ()) = .ok () := by
    decide +kernel
  cases hp : hmConfigParse linkedInput linkedEvents with
  | error msg =>
    rw [hp] at hrun
    cases hrun
  | ok p =>
    have hnormal : ∀ w r, linux.faulty.answers w r (linux.answer w r).1 (linux.answer w r).2 :=
      fun _ _ => .inl rfl
    obtain ⟨t, ht⟩ := eval_steps linux.answer hnormal (hmUnpack p (ascii "/t")) linkedWorld
    exact ⟨p, t, _, _, rfl, ht, (unpack_confined hp ht).1⟩

end Confinement

end Hacman.Unpack
