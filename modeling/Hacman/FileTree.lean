import Hacman.Interaction
import Hacman.Octets
import Mathlib.Data.List.AList
import Mathlib.Data.List.Induction

/-!
# A file system behind its calls

Entries are named by the path of names that leads to them from the root. Calls name them
by strings, which a kernel looks up component by component and through symbolic links. A
call that does not follow the last component acts on the entry with that name in the
directory which the components before it lead to.
-/

namespace FileTree
open Octets Interaction

abbrev Name := Bytes
abbrev Path := List Name

def DOT : Name := [46]
def DOTDOT : Name := [46, 46]

/-- The caller is judged by the owner's bits of what it owns, else by everybody's. -/
structure Attr where
  owned : Bool
  mode : Nat
  deriving DecidableEq, Repr

def Attr.allows (a : Attr) (bit : Nat) : Bool := a.mode.testBit (if a.owned then bit + 6 else bit)

def READ : Nat := 2
def WRITE : Nat := 1
def SEARCH : Nat := 0

inductive Entry
  | file (attr : Attr) (content : Bytes)
  | link (target : Bytes)
  | dir (attr : Attr)
  deriving DecidableEq, Repr

abbrev Tree := AList fun _ : Path => Entry

def look (t : Tree) (p : Path) : Option Entry := t.lookup p

inductive Errno
  | exist | noent | notdir | isdir | notempty | acces | perm | loop | nametoolong | mfile | inval
  | io
  deriving DecidableEq, Repr

section Lookup

def comps (s : Bytes) : List Name := (fields SLASH s).filter (· ≠ [])

def absolute (s : Bytes) : Bool := s.head? = some SLASH

def origin (base : Path) (s : Bytes) : Path := if absolute s then [] else base

variable (see : Path → Option Entry)

def grants (d : Path) (bit : Nat) : Bool :=
  match see d with
  | some (.dir a) => a.allows bit
  | _ => false

/-- One component: a directory is entered, a link is replaced by where it leads, at most
`links` deep. -/
def enter : Nat → Path → Name → Except Errno Path
  | links, d, n =>
    if !grants see d SEARCH then .error .acces
    else if n = DOT then .ok d
    else if n = DOTDOT then .ok d.dropLast
    else match see (d ++ [n]) with
      | none => .error .noent
      | some (.file _ _) => .error .notdir
      | some (.dir _) => .ok (d ++ [n])
      | some (.link target) =>
        match links with
        | 0 => .error .loop
        | links + 1 => (comps target).foldlM (enter links) (origin d target)

def walk (links : Nat) (d : Path) (cs : List Name) : Except Errno Path :=
  cs.foldlM (enter see links) d

/-- What a string names: a name in a directory, or a directory itself. -/
inductive Place
  | entry (dir : Path) (name : Name)
  | here (dir : Path)
  deriving DecidableEq, Repr

def placeOf (links : Nat) (d : Path) (cs : List Name) : Except Errno Place :=
  match cs.getLast? with
  | none => .ok (.here d)
  | some n =>
    if n = DOT ∨ n = DOTDOT then (walk see links d cs).map .here
    else (walk see links d cs.dropLast).bind fun d =>
      if grants see d SEARCH then .ok (.entry d n) else .error .acces

def follow : Nat → Place → Except Errno Path
  | _, .here d => .ok d
  | links, .entry d n =>
    match see (d ++ [n]) with
    | none => .error .noent
    | some (.link target) =>
      match links with
      | 0 => .error .loop
      | links + 1 => (placeOf see links (origin d target) (comps target)).bind (follow links)
    | some _ => .ok (d ++ [n])

end Lookup

section Kernel

/-- The limits of a system, and the order in which it lists directories. -/
structure Kernel where
  cwd : Path
  pathMax : Nat
  openMax : Nat
  linkMax : Nat
  names : Tree → Path → List Name
  mem_names : ∀ t p n, n ∈ names t p ↔ n = DOT ∨ n = DOTDOT ∨ p ++ [n] ∈ t

/-- The entries, and how many descriptors are in use. -/
structure World where
  tree : Tree
  opened : Nat

/-- A directory that a call starts from: a descriptor refers to the directory itself. -/
inductive Fd
  | cwd
  | dir (path : Path)
  deriving DecidableEq, Repr

variable (k : Kernel)

def Kernel.base : Fd → Path
  | .cwd => k.cwd
  | .dir path => path

def Kernel.locate (t : Tree) (fd : Fd) (s : Bytes) : Except Errno Place :=
  if s = [] then .error .noent
  else if k.pathMax ≤ s.length then .error .nametoolong
  else placeOf (look t) k.linkMax (origin (k.base fd) s) (comps s)

def trailing (s : Bytes) : Bool := s.getLast? = some SLASH

/-- A slash at the end asks for a directory, also behind a link. -/
def Kernel.lstat (t : Tree) (s : Bytes) : Except Errno Entry :=
  (k.locate t .cwd s).bind fun place =>
    match place with
    | .here d => (look t d).elim (.error .noent) .ok
    | .entry d n =>
      if trailing s then
        (walk (look t) k.linkMax d [n]).bind fun d => (look t d).elim (.error .noent) .ok
      else (look t (d ++ [n])).elim (.error .noent) .ok

/-- A name can be added to a directory or taken away from it. -/
def changeable (t : Tree) (d : Path) : Bool := grants (look t) d WRITE && grants (look t) d SEARCH

/-- A new entry under a name that is free. -/
def Kernel.add (t : Tree) (fd : Fd) (s : Bytes) (e : Entry) : Except Errno (Path × Tree) :=
  (k.locate t fd s).bind fun place =>
    match place with
    | .here _ => .error .exist
    | .entry d n =>
      if (look t (d ++ [n])).isSome then .error .exist
      else if !changeable t d then .error .acces
      else .ok (d ++ [n], t.insert (d ++ [n]) e)

def Kernel.unlink (t : Tree) (fd : Fd) (s : Bytes) : Except Errno Tree :=
  (k.locate t fd s).bind fun place =>
    match place with
    | .here _ => .error .isdir
    | .entry d n =>
      match look t (d ++ [n]) with
      | none => .error .noent
      | some (.dir _) => .error .isdir
      | some _ => if changeable t d then .ok (t.erase (d ++ [n])) else .error .acces

def Kernel.empty (t : Tree) (d : Path) : Bool :=
  (k.names t d).all fun n => n = DOT || n = DOTDOT

def Kernel.rmdir (t : Tree) (s : Bytes) : Except Errno Tree :=
  (k.locate t .cwd s).bind fun place =>
    match place with
    | .here _ => .error .inval
    | .entry d n =>
      match look t (d ++ [n]) with
      | none => .error .noent
      | some (.dir _) =>
        if !changeable t d then .error .acces
        else if k.empty t (d ++ [n]) then .ok (t.erase (d ++ [n])) else .error .notempty
      | some _ => .error .notdir

/-- Only what is not a directory is moved here, over another such entry or to a free name. -/
def Kernel.rename (t : Tree) (old new : Bytes) : Except Errno Tree :=
  (k.locate t .cwd old).bind fun source => (k.locate t .cwd new).bind fun target =>
    match source, target with
    | .entry d n, .entry d' n' =>
      match look t (d ++ [n]), look t (d' ++ [n']) with
      | none, _ => .error .noent
      | some (.dir _), _ => .error .inval
      | some _, some (.dir _) => .error .isdir
      | some e, _ =>
        if !changeable t d || !changeable t d' then .error .acces
        else if d ++ [n] = d' ++ [n'] then .ok t
        else .ok ((t.erase (d ++ [n])).insert (d' ++ [n']) e)
    | _, _ => .error .isdir

def Kernel.chmod (t : Tree) (s : Bytes) (mode : Nat) : Except Errno Tree :=
  (k.locate t .cwd s).bind fun place => (follow (look t) k.linkMax place).bind fun p =>
    match look t p with
    | some (.dir a) =>
      if a.owned then .ok (t.insert p (.dir { a with mode := mode })) else .error .perm
    | some (.file a content) =>
      if a.owned then .ok (t.insert p (.file { a with mode := mode } content)) else .error .perm
    | _ => .error .noent

def Kernel.openDir (t : Tree) (fd : Fd) (s : Bytes) (nofollow : Bool) : Except Errno Path :=
  (k.locate t fd s).bind fun place =>
    match place, nofollow with
    | .here d, _ => if grants (look t) d READ then .ok d else .error .acces
    | .entry d n, true =>
      match look t (d ++ [n]) with
      | none => .error .noent
      | some (.dir a) => if a.allows READ then .ok (d ++ [n]) else .error .acces
      | some (.file _ _) => .error .notdir
      | some (.link _) => .error .loop
    | .entry d n, false => (walk (look t) k.linkMax d [n]).bind fun d =>
      if grants (look t) d READ then .ok d else .error .acces

def Kernel.opendir (w : World) (s : Bytes) : Except Errno (List Name) :=
  (k.openDir w.tree .cwd s false).bind fun d =>
    if k.openMax ≤ w.opened then .error .mfile else .ok (k.names w.tree d)

def setContent (t : Tree) (p : Path) (f : Bytes → Bytes) : Tree :=
  match look t p with
  | some (.file a content) => t.insert p (.file a (f content))
  | _ => t

end Kernel

section Calls

structure Stat where
  isDir : Bool
  mode : Nat
  deriving DecidableEq, Repr

def statOf : Entry → Stat
  | .dir a => ⟨true, a.mode⟩
  | .file a _ => ⟨false, a.mode⟩
  | .link _ => ⟨false, 0o777⟩

inductive Req
  | lstat (path : Bytes)
  | mkdir (fd : Fd) (path : Bytes) (mode : Nat)
  | create (fd : Fd) (path : Bytes) (mode : Nat)
  | unlink (fd : Fd) (path : Bytes)
  | rmdir (path : Bytes)
  | rename (old new : Bytes)
  | chmod (path : Bytes) (mode : Nat)
  | opendir (path : Bytes)
  | readdir (next : Option Name)
  | closedir
  | openDir (fd : Fd) (path : Bytes) (nofollow : Bool)
  | dup (fd : Path)
  | fdopen (file : Path)
  | fwrite (file : Path) (text : Bytes)
  | fclose (file : Path)

/-- A new file is known by its path. The stream of `opendir` is what `readdir` will find. -/
abbrev Ans : Req → Type
  | .lstat _ => Except Errno Stat
  | .mkdir _ _ _ => Except Errno Unit
  | .create _ _ _ => Except Errno Path
  | .unlink _ _ => Except Errno Unit
  | .rmdir _ => Except Errno Unit
  | .rename _ _ => Except Errno Unit
  | .chmod _ _ => Except Errno Unit
  | .opendir _ => Except Errno (List Name)
  | .readdir _ => Except Errno Unit
  | .closedir => Except Errno Unit
  | .openDir _ _ _ => Except Errno Path
  | .dup _ => Except Errno Path
  | .fdopen _ => Except Errno Unit
  | .fwrite _ _ => Bool
  | .fclose _ => Bool

abbrev calls : Signature := ⟨Req, Ans⟩

abbrev F := Prog calls

def lstat (path : Bytes) : F (Except Errno Stat) := .ask (S := calls) (.lstat path) .done
def mkdir (fd : Fd) (path : Bytes) (mode : Nat) : F (Except Errno Unit) :=
  .ask (S := calls) (.mkdir fd path mode) .done
def create (fd : Fd) (path : Bytes) (mode : Nat) : F (Except Errno Path) :=
  .ask (S := calls) (.create fd path mode) .done
def unlink (fd : Fd) (path : Bytes) : F (Except Errno Unit) :=
  .ask (S := calls) (.unlink fd path) .done
def rmdir (path : Bytes) : F (Except Errno Unit) := .ask (S := calls) (.rmdir path) .done
def rename (old new : Bytes) : F (Except Errno Unit) := .ask (S := calls) (.rename old new) .done
def chmod (path : Bytes) (mode : Nat) : F (Except Errno Unit) :=
  .ask (S := calls) (.chmod path mode) .done
def opendir (path : Bytes) : F (Except Errno (List Name)) := .ask (S := calls) (.opendir path) .done
def readdir (next : Option Name) : F (Except Errno Unit) := .ask (S := calls) (.readdir next) .done
def closedir : F (Except Errno Unit) := .ask (S := calls) .closedir .done
def openDir (fd : Fd) (path : Bytes) (nofollow : Bool) : F (Except Errno Path) :=
  .ask (S := calls) (.openDir fd path nofollow) .done
def dup (fd : Path) : F (Except Errno Path) := .ask (S := calls) (.dup fd) .done
def fdopen (file : Path) : F (Except Errno Unit) := .ask (S := calls) (.fdopen file) .done
def fwrite (file : Path) (text : Bytes) : F Bool := .ask (S := calls) (.fwrite file text) .done
def fclose (file : Path) : F Bool := .ask (S := calls) (.fclose file) .done

def World.settle {α : Type} (w : World) : Except Errno (α × Tree) → Except Errno α × World
  | .error e => (.error e, w)
  | .ok (a, t) => (.ok a, { w with tree := t })

def Kernel.answer (k : Kernel) (w : World) : (r : Req) → Ans r × World
  | .lstat s => ((k.lstat w.tree s).map statOf, w)
  | .mkdir fd s mode =>
    w.settle ((k.add w.tree fd s (.dir ⟨true, mode⟩)).map fun r => ((), r.2))
  | .create fd s mode => w.settle (k.add w.tree fd s (.file ⟨true, mode⟩ []))
  | .unlink fd s => w.settle ((k.unlink w.tree fd s).map fun t => ((), t))
  | .rmdir s => w.settle ((k.rmdir w.tree s).map fun t => ((), t))
  | .rename old new => w.settle ((k.rename w.tree old new).map fun t => ((), t))
  | .chmod s mode => w.settle ((k.chmod w.tree s mode).map fun t => ((), t))
  | .opendir s =>
    match k.opendir w s with
    | .error e => (.error e, w)
    | .ok names => (.ok names, { w with opened := w.opened + 1 })
  | .readdir _ => (.ok (), w)
  | .closedir => (.ok (), { w with opened := w.opened - 1 })
  | .openDir fd s nofollow => (k.openDir w.tree fd s nofollow, w)
  | .dup fd => (.ok fd, w)
  | .fdopen _ => (.ok (), w)
  | .fwrite file text => (true, { w with tree := setContent w.tree file (· ++ text) })
  | .fclose _ => (true, w)

/-- A call that fails changes nothing, but a file may be left with anything in it. -/
def Fails (w : World) : (r : Req) → Ans r → World → Prop
  | .lstat _, x, w' => (∃ e, x = .error e) ∧ w' = w
  | .mkdir _ _ _, x, w' => (∃ e, x = .error e) ∧ w' = w
  | .create _ _ _, x, w' => (∃ e, x = .error e) ∧ w' = w
  | .unlink _ _, x, w' => (∃ e, x = .error e) ∧ w' = w
  | .rmdir _, x, w' => (∃ e, x = .error e) ∧ w' = w
  | .rename _ _, x, w' => (∃ e, x = .error e) ∧ w' = w
  | .chmod _ _, x, w' => (∃ e, x = .error e) ∧ w' = w
  | .opendir _, x, w' => (∃ e, x = .error e) ∧ w' = w
  | .readdir _, x, w' => (∃ e, x = .error e) ∧ w' = w
  | .closedir, x, w' => (∃ e, x = .error e) ∧ w' = { w with opened := w.opened - 1 }
  | .openDir _ _ _, x, w' => (∃ e, x = .error e) ∧ w' = w
  | .dup _, x, w' => (∃ e, x = .error e) ∧ w' = w
  | .fdopen _, x, w' => (∃ e, x = .error e) ∧ w' = w
  | .fwrite file _, x, w' =>
    x = false ∧ ∃ content, w' = { w with tree := setContent w.tree file fun _ => content }
  | .fclose file, x, w' =>
    x = false ∧ ∃ content, w' = { w with tree := setContent w.tree file fun _ => content }

def Kernel.faulty (k : Kernel) : Env calls World where
  answers w r x w' := (x, w') = k.answer w r ∨ Fails w r x w'

end Calls

section Strings

theorem fields_append (sep : UInt8) (xs ys : Bytes) :
    fields sep (xs ++ sep :: ys) = fields sep xs ++ fields sep ys := by
  induction xs with
  | nil => simp [fields]
  | cons x xs ih =>
    rw [List.cons_append, fields, fields, ih]
    split_ifs
    · rfl
    · obtain ⟨f, fs, hfs⟩ := List.exists_cons_of_ne_nil (fields_ne_nil sep xs)
      rw [hfs]
      rfl

theorem fields_of_notMem {sep : UInt8} {xs : Bytes} (h : sep ∉ xs) : fields sep xs = [xs] := by
  induction xs with
  | nil => rfl
  | cons x xs ih =>
    rw [List.mem_cons, not_or] at h
    rw [fields, if_neg (Ne.symm h.1), ih h.2]

theorem fields_notMem (sep : UInt8) (xs : Bytes) : ∀ f ∈ fields sep xs, sep ∉ f := by
  induction xs with
  | nil => simp [fields]
  | cons x xs ih =>
    rw [fields]
    split_ifs with hx
    · exact List.forall_mem_cons.mpr ⟨List.not_mem_nil, ih⟩
    · obtain ⟨f, fs, hfs⟩ := List.exists_cons_of_ne_nil (fields_ne_nil sep xs)
      rw [hfs] at ih ⊢
      obtain ⟨hf, hrest⟩ := List.forall_mem_cons.mp ih
      refine List.forall_mem_cons.mpr ⟨?_, hrest⟩
      rw [List.mem_cons, not_or]
      exact ⟨Ne.symm hx, hf⟩

theorem comps_append (s t : Bytes) : comps (s ++ SLASH :: t) = comps s ++ comps t := by
  rw [comps, fields_append, List.filter_append]
  rfl

def proper (n : Name) : Bool := n ≠ [] && n ≠ DOT && n ≠ DOTDOT && SLASH ∉ n

theorem proper_iff {n : Name} :
    proper n = true ↔ n ≠ [] ∧ n ≠ DOT ∧ n ≠ DOTDOT ∧ SLASH ∉ n := by
  simp [proper, and_assoc]

theorem comps_name {n : Name} (h : proper n = true) : comps n = [n] := by
  obtain ⟨hne, -, -, hslash⟩ := proper_iff.mp h
  rw [comps, fields_of_notMem hslash, List.filter_cons_of_pos (by simpa using hne)]
  rfl

theorem origin_append {base : Path} {s : Bytes} (h : s ≠ []) (t : Bytes) :
    origin base (s ++ t) = origin base s := by
  cases s with
  | nil => exact absurd rfl h
  | cons b s => rfl

theorem origin_name {base : Path} {n : Name} (h : proper n = true) : origin base n = base := by
  obtain ⟨-, -, -, hslash⟩ := proper_iff.mp h
  refine if_neg fun habs => ?_
  exact hslash (List.mem_of_mem_head? (of_decide_eq_true habs))

theorem trailing_append (s : Bytes) {n : Name} (h : proper n = true) :
    trailing (s ++ SLASH :: n) = false := by
  obtain ⟨hne, -, -, hslash⟩ := proper_iff.mp h
  refine decide_eq_false fun hlast => hslash ?_
  rw [← List.singleton_append, ← List.append_assoc, List.getLast?_append_of_ne_nil _ hne] at hlast
  exact List.mem_of_getLast? hlast

end Strings

theorem bind_ok {α β : Type} {x : Except Errno α} {f : α → Except Errno β} {b : β} :
    x.bind f = .ok b ↔ ∃ a, x = .ok a ∧ f a = .ok b := by
  cases x with
  | error e => exact ⟨fun h => (by cases h), fun ⟨_, h, _⟩ => by cases h⟩
  | ok a => exact ⟨fun h => ⟨a, rfl, h⟩, fun ⟨_, ha, h⟩ => Except.ok.inj ha ▸ h⟩

section Seeing
variable {see see' : Path → Option Entry}

/-- No directory and no link is lost from the one view to the other. -/
structure Under (see see' : Path → Option Entry) : Prop where
  dir : ∀ p a, see p = some (.dir a) → see' p = some (.dir a)
  link : ∀ p target, see p = some (.link target) → see' p = some (.link target)

theorem Under.of_some (h : ∀ p e, see p = some e → see' p = some e) : Under see see' :=
  ⟨fun p _ => h p _, fun p _ => h p _⟩

theorem grants_mono (h : Under see see') {d : Path} {bit : Nat} (hg : grants see d bit = true) :
    grants see' d bit = true := by
  unfold grants at hg ⊢
  cases hd : see d with
  | none =>
    rw [hd] at hg
    cases hg
  | some e =>
    rw [hd] at hg
    cases e with
    | dir a =>
      rw [h.dir d a hd]
      exact hg
    | _ => cases hg

/-- Where a link leads, if it may be followed. -/
def through (see : Path → Option Entry) : Nat → Path → Bytes → Except Errno Path
  | 0, _, _ => .error .loop
  | links + 1, d, target => walk see links (origin d target) (comps target)

theorem enter_eq (links : Nat) (d : Path) (n : Name) : enter see links d n =
    if !grants see d SEARCH then .error .acces
    else if n = DOT then .ok d
    else if n = DOTDOT then .ok d.dropLast
    else match see (d ++ [n]) with
      | none => .error .noent
      | some (.file _ _) => .error .notdir
      | some (.dir _) => .ok (d ++ [n])
      | some (.link target) => through see links d target := by
  cases h : see (d ++ [n]) with
  | none => cases links <;> simp only [enter, h]
  | some e => cases e <;> cases links <;> simp only [enter, through, walk, h]

theorem walk_mono_of {links : Nat}
    (h : ∀ d n p, enter see links d n = .ok p → enter see' links d n = .ok p) {d p : Path}
    {cs : List Name} (hw : walk see links d cs = .ok p) : walk see' links d cs = .ok p := by
  induction cs generalizing d with
  | nil => exact hw
  | cons n cs ih =>
    unfold walk at hw ih ⊢
    rw [List.foldlM_cons] at hw ⊢
    cases he : enter see links d n with
    | error e =>
      rw [he] at hw
      cases hw
    | ok d' =>
      rw [he] at hw
      rw [h d n d' he]
      exact ih hw

theorem enter_mono_of (h : Under see see') {links : Nat} {d p : Path} {n : Name}
    (hthrough : ∀ target, through see links d target = .ok p → through see' links d target = .ok p)
    (he : enter see links d n = .ok p) : enter see' links d n = .ok p := by
  rw [enter_eq] at he ⊢
  by_cases hg : grants see d SEARCH = true
  · rw [grants_mono h hg]
    rw [hg] at he
    simp only [Bool.not_true, Bool.false_eq_true, if_false] at he ⊢
    by_cases hdot : n = DOT
    · rwa [if_pos hdot] at he ⊢
    · rw [if_neg hdot] at he ⊢
      by_cases hdotdot : n = DOTDOT
      · rwa [if_pos hdotdot] at he ⊢
      · rw [if_neg hdotdot] at he ⊢
        cases hp : see (d ++ [n]) with
        | none =>
          rw [hp] at he
          cases he
        | some e =>
          rw [hp] at he
          cases e with
          | file a content => cases he
          | dir a =>
            rw [h.dir _ a hp]
            exact he
          | link target =>
            rw [h.link _ target hp]
            exact hthrough target he
  · rw [Bool.eq_false_of_not_eq_true hg] at he
    cases he

theorem enter_mono (h : Under see see') {links : Nat} {d p : Path} {n : Name}
    (he : enter see links d n = .ok p) : enter see' links d n = .ok p := by
  induction links generalizing d p n with
  | zero => exact enter_mono_of h (fun _ hp => by cases hp) he
  | succ links ih => exact enter_mono_of h (fun _ => walk_mono_of fun _ _ _ => ih) he

theorem walk_mono (h : Under see see') {links : Nat} {d p : Path} {cs : List Name}
    (hw : walk see links d cs = .ok p) : walk see' links d cs = .ok p :=
  walk_mono_of (fun _ _ _ => enter_mono h) hw

theorem walk_append (links : Nat) (d : Path) (cs cs' : List Name) :
    walk see links d (cs ++ cs') = (walk see links d cs).bind fun d => walk see links d cs' :=
  List.foldlM_append

theorem walk_single (links : Nat) (d : Path) (n : Name) :
    walk see links d [n] = enter see links d n := by
  rw [walk, List.foldlM_cons]
  cases enter see links d n <;> rfl

theorem enter_dir {links : Nat} {d : Path} {n : Name} {a : Attr} (hg : grants see d SEARCH = true)
    (hn : proper n = true) (hd : see (d ++ [n]) = some (.dir a)) :
    enter see links d n = .ok (d ++ [n]) := by
  obtain ⟨-, hdot, hdotdot, -⟩ := proper_iff.mp hn
  rw [enter_eq, hg, if_neg (by simp), if_neg hdot, if_neg hdotdot, hd]

theorem enter_some {links : Nat} {d p : Path} {n : Name} (hdot : n ≠ DOT) (hdotdot : n ≠ DOTDOT)
    (h : enter see links d n = .ok p) : see (d ++ [n]) ≠ none := by
  rw [enter_eq, if_neg hdot, if_neg hdotdot] at h
  intro hnone
  rw [hnone] at h
  split_ifs at h

theorem enter_grants {links : Nat} {d p : Path} {n : Name} (h : enter see links d n = .ok p) :
    grants see d SEARCH = true := by
  rw [enter_eq] at h
  cases hg : grants see d SEARCH with
  | true => rfl
  | false =>
    rw [hg] at h
    cases h

theorem placeOf_iff {links : Nat} {d d' : Path} {cs : List Name} {n : Name} :
    placeOf see links d cs = .ok (.entry d' n) ↔ ∃ cs', cs = cs' ++ [n] ∧ n ≠ DOT ∧ n ≠ DOTDOT ∧
      walk see links d cs' = .ok d' ∧ grants see d' SEARCH = true := by
  rcases List.eq_nil_or_concat cs with rfl | ⟨cs, m, rfl⟩
  · refine ⟨fun h => (by cases h), ?_⟩
    rintro ⟨cs', h, -⟩
    exact absurd h (by simp)
  · rw [List.concat_eq_append, placeOf, List.getLast?_concat, List.dropLast_concat]
    dsimp only
    constructor
    · intro h
      split_ifs at h with hdots
      · cases hw : walk see links d (cs ++ [m]) with
        | error e =>
          rw [hw] at h
          cases h
        | ok q =>
          rw [hw] at h
          cases h
      · cases hw : walk see links d cs with
        | error e =>
          rw [hw] at h
          cases h
        | ok q =>
          rw [hw] at h
          dsimp only [Except.bind] at h
          split_ifs at h with hg
          obtain ⟨rfl, rfl⟩ := Place.entry.inj (Except.ok.inj h)
          exact ⟨cs, rfl, fun hm => hdots (.inl hm), fun hm => hdots (.inr hm), hw, hg⟩
    · rintro ⟨cs', hcs, hdot, hdotdot, hw, hg⟩
      obtain ⟨rfl, hm⟩ := List.append_inj' hcs rfl
      obtain rfl := List.singleton_inj.mp hm
      rw [if_neg (not_or.mpr ⟨hdot, hdotdot⟩), hw]
      exact if_pos hg

theorem placeOf_name {links : Nat} {d d' : Path} {cs : List Name} {n : Name} (hn : proper n = true)
    (hw : walk see links d cs = .ok d') (hg : grants see d' SEARCH = true) :
    placeOf see links d (cs ++ [n]) = .ok (.entry d' n) := by
  obtain ⟨-, hdot, hdotdot, -⟩ := proper_iff.mp hn
  exact placeOf_iff.mpr ⟨cs, rfl, hdot, hdotdot, hw, hg⟩

theorem placeOf_mono (h : Under see see') {links : Nat} {d d' : Path} {cs : List Name} {n : Name}
    (hp : placeOf see links d cs = .ok (.entry d' n)) :
    placeOf see' links d cs = .ok (.entry d' n) := by
  obtain ⟨cs', hcs, hdot, hdotdot, hw, hg⟩ := placeOf_iff.mp hp
  exact placeOf_iff.mpr ⟨cs', hcs, hdot, hdotdot, walk_mono h hw, grants_mono h hg⟩

def without (see : Path → Option Entry) (q : Path) : Path → Option Entry :=
  fun p => if q.isPrefixOf p then none else see p

theorem without_of {q p : Path} (h : ¬ q <+: p) : without see q p = see p :=
  if_neg fun hp => h (List.isPrefixOf_iff_prefix.mp hp)

theorem without_eq_some {q p : Path} {e : Entry} :
    without see q p = some e ↔ ¬ q <+: p ∧ see p = some e := by
  rw [without, ← List.isPrefixOf_iff_prefix]
  split_ifs with h <;> simp [h]

theorem under_without {q : Path} (h : ∀ p, ¬ q <+: p → see' p = see p) :
    Under (without see q) see' := by
  refine .of_some fun p e hp => ?_
  obtain ⟨hq, he⟩ := without_eq_some.mp hp
  rw [h p hq, he]

theorem without_below (q : Path) (n : Name) : Under (without see q) (without see (q ++ [n])) := by
  refine .of_some fun p e hp => ?_
  obtain ⟨hq, he⟩ := without_eq_some.mp hp
  exact without_eq_some.mpr ⟨fun h => hq ((List.prefix_append q [n]).trans h), he⟩

/-- A string names `n` in the directory `d`, seen so. -/
structure Names (see : Path → Option Entry) (links : Nat) (base : Path) (s : Bytes) (d : Path)
    (n : Name) : Prop where
  proper : proper n = true
  spelled : ∃ cs, comps s = cs ++ [n] ∧ walk see links (origin base s) cs = .ok d
  nonempty : s ≠ []
  plain : trailing s = false
  search : grants see d SEARCH = true

theorem Names.mono {links : Nat} {base : Path} {s : Bytes} {d : Path} {n : Name}
    (h : Names see links base s d n) (hu : Under see see') : Names see' links base s d n := by
  obtain ⟨cs, hcs, hw⟩ := h.spelled
  exact ⟨h.proper, ⟨cs, hcs, walk_mono hu hw⟩, h.nonempty, h.plain, grants_mono hu h.search⟩

theorem Names.child {links : Nat} {base : Path} {s : Bytes} {d : Path} {n m : Name} {a : Attr}
    (h : Names see links base s d n) (hd : see (d ++ [n]) = some (.dir a))
    (ha : a.allows SEARCH = true) (hm : FileTree.proper m = true) :
    Names see links base (s ++ SLASH :: m) (d ++ [n]) m := by
  obtain ⟨cs, hcs, hw⟩ := h.spelled
  refine ⟨hm, ⟨cs ++ [n], ?_, ?_⟩, by simp, trailing_append s hm, ?_⟩
  · rw [comps_append, comps_name hm, hcs]
  · rw [origin_append h.nonempty, walk_append, hw]
    exact (walk_single _ _ _).trans (enter_dir h.search h.proper hd)
  · rw [grants, hd]
    exact ha

end Seeing

section Locating
variable {k : Kernel} {t : Tree} {s : Bytes} {d : Path} {n : Name}

theorem locate_names {f : Fd} (h : Names (look t) k.linkMax (k.base f) s d n)
    (hlen : s.length < k.pathMax) : k.locate t f s = .ok (.entry d n) := by
  obtain ⟨cs, hcs, hw⟩ := h.spelled
  rw [Kernel.locate, if_neg h.nonempty, if_neg (Nat.not_le.mpr hlen), hcs]
  exact placeOf_name h.proper hw h.search

theorem locate_long {fd : Fd} (hs : s ≠ []) (hlen : k.pathMax ≤ s.length) :
    k.locate t fd s = .error .nametoolong := by
  rw [Kernel.locate, if_neg hs, if_pos hlen]

theorem look_insert (p q : Path) (e : Entry) :
    look (t.insert p e) q = if q = p then some e else look t q := by
  unfold look
  split_ifs with h
  · rw [h, AList.lookup_insert]
  · exact AList.lookup_insert_ne h

theorem look_erase (p q : Path) : look (t.erase p) q = if q = p then none else look t q := by
  unfold look
  split_ifs with h
  · rw [h, AList.lookup_erase]
  · exact AList.lookup_erase_ne h

theorem mem_iff_look {p : Path} : p ∈ t ↔ look t p ≠ none := by
  rw [look, Ne, AList.lookup_eq_none, not_not]

theorem locate_mono {t' : Tree} {fd : Fd} (h : Under (look t) (look t'))
    (hp : k.locate t fd s = .ok (.entry d n)) : k.locate t' fd s = .ok (.entry d n) := by
  unfold Kernel.locate at hp ⊢
  split_ifs at hp with hs hlen
  rw [if_neg hs, if_neg hlen]
  exact placeOf_mono h hp

theorem under_insert {x : Path} {e : Entry} (h : look t x = none) :
    Under (look t) (look (t.insert x e)) := by
  refine .of_some fun p e' hp => ?_
  rw [look_insert, if_neg]
  · exact hp
  · rintro rfl
    rw [h] at hp
    cases hp

theorem under_erase {x : Path} {a : Attr} {content : Bytes}
    (h : look t x = some (.file a content)) : Under (look t) (look (t.erase x)) := by
  refine ⟨fun p b hp => ?_, fun p target hp => ?_⟩ <;>
  · rw [look_erase, if_neg]
    · exact hp
    · rintro rfl
      rw [h] at hp
      cases hp

theorem look_setContent {x : Path} {a : Attr} {content : Bytes}
    (h : look t x = some (.file a content))
    (f : Bytes → Bytes) (p : Path) : look (setContent t x f) p =
      if p = x then some (.file a (f content)) else look t p := by
  rw [setContent, h]
  exact look_insert x p _

theorem under_setContent {x : Path} {a : Attr} {content : Bytes}
    (h : look t x = some (.file a content)) (f : Bytes → Bytes) :
    Under (look t) (look (setContent t x f)) := by
  refine ⟨fun p b hp => ?_, fun p target hp => ?_⟩ <;>
  · rw [look_setContent h, if_neg]
    · exact hp
    · rintro rfl
      rw [h] at hp
      cases hp

theorem mem_of_look {x : Path} {e : Entry} (h : look t x = some e) : x ∈ t := by
  rw [mem_iff_look, h]
  exact Option.some_ne_none e

theorem lstat_names (h : Names (look t) k.linkMax k.cwd s d n) (hlen : s.length < k.pathMax) :
    k.lstat t s = (look t (d ++ [n])).elim (.error .noent) .ok := by
  rw [Kernel.lstat, locate_names (k := k) (f := .cwd) h hlen]
  exact if_neg (by rw [h.plain]; exact Bool.false_ne_true)

theorem unlink_names {f : Fd} {e : Entry} (h : Names (look t) k.linkMax (k.base f) s d n)
    (hlen : s.length < k.pathMax) (he : look t (d ++ [n]) = some e)
    (hfile : (statOf e).isDir = false) :
    k.unlink t f s = if changeable t d then .ok (t.erase (d ++ [n])) else .error .acces := by
  rw [Kernel.unlink, locate_names h hlen]
  dsimp only [Except.bind]
  rw [he]
  cases e with
  | dir a => cases hfile
  | _ => rfl

theorem rmdir_names {a : Attr} (h : Names (look t) k.linkMax k.cwd s d n)
    (hlen : s.length < k.pathMax) (hd : look t (d ++ [n]) = some (.dir a))
    (hempty : k.empty t (d ++ [n]) = true) :
    k.rmdir t s = if changeable t d then .ok (t.erase (d ++ [n])) else .error .acces := by
  rw [Kernel.rmdir, locate_names (k := k) (f := .cwd) h hlen]
  dsimp only [Except.bind]
  rw [hd, hempty]
  cases changeable t d <;> rfl

theorem follow_dir {links : Nat} {a : Attr} (hd : look t (d ++ [n]) = some (.dir a)) :
    follow (look t) links (.entry d n) = .ok (d ++ [n]) := by
  cases links <;> simp only [follow, hd]

theorem chmod_names {a : Attr} (h : Names (look t) k.linkMax k.cwd s d n)
    (hlen : s.length < k.pathMax) (hd : look t (d ++ [n]) = some (.dir a)) (howned : a.owned = true)
    (mode : Nat) : k.chmod t s mode = .ok (t.insert (d ++ [n]) (.dir { a with mode := mode })) := by
  rw [Kernel.chmod, locate_names (k := k) (f := .cwd) h hlen]
  dsimp only [Except.bind]
  rw [follow_dir hd]
  dsimp only
  rw [hd]
  exact if_pos howned

theorem openDir_names {f : Fd} {a : Attr} (h : Names (look t) k.linkMax (k.base f) s d n)
    (hlen : s.length < k.pathMax) (hd : look t (d ++ [n]) = some (.dir a))
    (hread : a.allows READ = true) (nofollow : Bool) : k.openDir t f s nofollow =
    .ok (d ++ [n]) := by
  rw [Kernel.openDir, locate_names h hlen]
  cases nofollow with
  | true =>
    dsimp only [Except.bind]
    rw [hd]
    exact if_pos hread
  | false =>
    dsimp only [Except.bind]
    rw [walk_single, enter_dir h.search h.proper hd]
    dsimp only
    rw [grants, hd]
    exact if_pos hread

theorem add_names {f : Fd} (h : Names (look t) k.linkMax (k.base f) s d n)
    (hlen : s.length < k.pathMax) (e : Entry) : k.add t f s e =
      if (look t (d ++ [n])).isSome then .error .exist
      else if !changeable t d then .error .acces
      else .ok (d ++ [n], t.insert (d ++ [n]) e) := by
  rw [Kernel.add, locate_names h hlen]
  rfl

theorem add_walked {f : Fd} {p : Path} (hs : s ≠ []) (hlen : s.length < k.pathMax)
    (h : walk (look t) k.linkMax (origin (k.base f) s) (comps s) = .ok p) (e : Entry) :
    k.add t f s e = .error .exist := by
  rw [Kernel.add, Kernel.locate, if_neg hs, if_neg (Nat.not_le.mpr hlen)]
  rcases List.eq_nil_or_concat (comps s) with hnil | ⟨cs, m, hcs⟩
  · rw [hnil]
    rfl
  · rw [List.concat_eq_append] at hcs
    rw [hcs] at h ⊢
    by_cases hdots : m = DOT ∨ m = DOTDOT
    · rw [placeOf, List.getLast?_concat]
      dsimp only
      rw [if_pos hdots, h]
      rfl
    · rw [walk_append] at h
      obtain ⟨q, hq, hm⟩ := bind_ok.mp h
      rw [walk_single] at hm
      obtain ⟨hdot, hdotdot⟩ := not_or.mp hdots
      have hsome := enter_some hdot hdotdot hm
      rw [placeOf_iff.mpr ⟨cs, rfl, hdot, hdotdot, hq, enter_grants hm⟩]
      exact if_pos (Option.isSome_iff_ne_none.mpr hsome)

theorem rename_names {s' : Bytes} {d' : Path} {n' : Name} {a : Attr} {content : Bytes}
    (h : Names (look t) k.linkMax k.cwd s d n) (hlen : s.length < k.pathMax)
    (h' : Names (look t) k.linkMax k.cwd s' d' n') (hlen' : s'.length < k.pathMax)
    (hfile : look t (d ++ [n]) = some (.file a content)) (hother : d ++ [n] ≠ d' ++ [n'])
    (hd : changeable t d = true) (hd' : changeable t d' = true) : k.rename t s s' =
      if (look t (d' ++ [n'])).any fun e => (statOf e).isDir then .error .isdir
      else .ok ((t.erase (d ++ [n])).insert (d' ++ [n']) (.file a content)) := by
  rw [Kernel.rename, locate_names (k := k) (f := .cwd) h hlen]
  dsimp only [Except.bind]
  rw [locate_names (k := k) (f := .cwd) h' hlen']
  dsimp only
  rw [hfile, hd, hd']
  cases look t (d' ++ [n']) with
  | none => exact if_neg hother
  | some e =>
    cases e with
    | dir b => rfl
    | _ => exact if_neg hother

/-- A path that leads through a file leads nowhere. -/
theorem locate_through_file {f : Fd} {s' : Bytes} {ms : List Name} {a : Attr} {content : Bytes}
    (h : Names (look t) k.linkMax (k.base f) s d n)
    (hfile : look t (d ++ [n]) = some (.file a content))
    (hcomps : comps s' = comps s ++ ms) (hms : ms ≠ [])
    (horigin : origin (k.base f) s' = origin (k.base f) s) (place : Place) :
    k.locate t f s' ≠ .ok place := by
  obtain ⟨cs, hcs, hw⟩ := h.spelled
  obtain ⟨-, hdot, hdotdot, -⟩ := proper_iff.mp h.proper
  have hstop : ∀ cs', walk (look t) k.linkMax (origin (k.base f) s) (cs ++ [n] ++ cs') =
      .error .notdir := by
    intro cs'
    rw [List.append_assoc, walk_append, hw]
    dsimp only [Except.bind]
    rw [walk_append, walk_single, enter_eq, h.search, if_neg (by simp), if_neg hdot, if_neg hdotdot,
      hfile]
    rfl
  intro hok
  unfold Kernel.locate at hok
  split_ifs at hok
  obtain ⟨ms, l, rfl⟩ := (List.eq_nil_or_concat' ms).resolve_left hms
  rw [horigin, hcomps, hcs, ← List.append_assoc, placeOf, List.getLast?_concat,
    List.dropLast_concat] at hok
  dsimp only at hok
  split_ifs at hok
  · rw [List.append_assoc, hstop] at hok
    cases hok
  · rw [hstop] at hok
    cases hok

end Locating

section Tidiness
variable {t : Tree} {q : Path}

/-- Entries stand in directories, under names that can be spelled. -/
structure Tidy (t : Tree) : Prop where
  parent : ∀ d n, d ++ [n] ∈ t → ∃ a, look t d = some (.dir a)
  names : ∀ d n, d ++ [n] ∈ t → proper n = true

theorem Tidy.mem_prefix (h : Tidy t) {r : Path} (hx : q ++ r ∈ t) : q ∈ t := by
  induction r using List.reverseRecOn with
  | nil => rwa [List.append_nil] at hx
  | append_singleton r n ih =>
    rw [← List.append_assoc] at hx
    obtain ⟨a, ha⟩ := h.parent _ _ hx
    exact ih (mem_of_look ha)

theorem Tidy.below_dir (h : Tidy t) {m : Name} {r : Path} (hx : q ++ m :: r ∈ t) :
    ∃ a, look t q = some (.dir a) := by
  rw [← List.singleton_append, ← List.append_assoc] at hx
  exact h.parent _ _ (h.mem_prefix hx)

theorem Tidy.erase (h : Tidy t) (hleaf : ∀ m, q ++ [m] ∉ t) : Tidy (t.erase q) := by
  refine ⟨fun d n hx => ?_, fun d n hx => h.names d n (AList.mem_erase.mp hx).2⟩
  obtain ⟨a, ha⟩ := h.parent d n (AList.mem_erase.mp hx).2
  refine ⟨a, ?_⟩
  rw [look_erase, if_neg]
  · exact ha
  · rintro rfl
    exact hleaf n (AList.mem_erase.mp hx).2

theorem Tidy.set_dir (h : Tidy t) {a b : Attr} (hq : look t q = some (.dir a)) :
    Tidy (t.insert q (.dir b)) := by
  have hmem : ∀ x, x ∈ t.insert q (.dir b) → x ∈ t := by
    intro x hx
    rcases (AList.mem_insert t).mp hx with rfl | hx
    · exact mem_of_look hq
    · exact hx
  refine ⟨fun d n hx => ?_, fun d n hx => h.names d n (hmem _ hx)⟩
  obtain ⟨c, hc⟩ := h.parent d n (hmem _ hx)
  rw [look_insert]
  split_ifs
  · exact ⟨b, rfl⟩
  · exact ⟨c, hc⟩

theorem not_prefix_self (q : Path) (m : Name) : ¬ q ++ [m] <+: q := by
  intro h
  simpa using h.length_le

def tidy (t : Tree) : Bool :=
  t.keys.all fun x => match x.getLast? with
    | none => true
    | some n => proper n && (look t x.dropLast).any fun e => (statOf e).isDir

theorem Tidy.of_keys (h : tidy t = true) : Tidy t := by
  have hkey : ∀ d n, d ++ [n] ∈ t →
      proper n = true ∧ (look t d).any (fun e => (statOf e).isDir) = true := by
    intro d n hx
    have hx := List.all_eq_true.mp h _ (AList.mem_keys.mp hx)
    rw [List.getLast?_concat, List.dropLast_concat] at hx
    exact Bool.and_eq_true_iff.mp hx
  refine ⟨fun d n hx => ?_, fun d n hx => (hkey d n hx).1⟩
  have hdir := (hkey d n hx).2
  cases he : look t d with
  | none =>
    rw [he] at hdir
    cases hdir
  | some e =>
    rw [he] at hdir
    cases e with
    | dir a => exact ⟨a, rfl⟩
    | _ => cases hdir

end Tidiness

section Listing

def listing (t : Tree) (p : Path) : List Name :=
  DOT :: DOTDOT :: t.keys.filterMap fun x => if x.dropLast = p then x.getLast? else none

theorem mem_listing (t : Tree) (p : Path) (n : Name) :
    n ∈ listing t p ↔ n = DOT ∨ n = DOTDOT ∨ p ++ [n] ∈ t := by
  rw [listing, List.mem_cons, List.mem_cons, List.mem_filterMap]
  refine or_congr_right (or_congr_right ⟨?_, fun h => ⟨_, AList.mem_keys.mp h, ?_⟩⟩)
  · rintro ⟨x, hx, hlast⟩
    split_ifs at hlast with hp
    rw [← hp, List.dropLast_append_getLast? n hlast]
    exact AList.mem_keys.mpr hx
  · rw [List.dropLast_concat, if_pos rfl, List.getLast?_concat]

end Listing

section Runs
variable {k : Kernel} {w : World} {α : Type}

theorem eval_lstat (s : Bytes) (f : Except Errno Stat → F α) : (lstat s >>= f).eval k.answer w =
    (f ((k.lstat w.tree s).map statOf)).eval k.answer w := rfl

theorem eval_readdir (next : Option Name) (f : Except Errno Unit → F α) :
    (readdir next >>= f).eval k.answer w = (f (.ok ())).eval k.answer w := rfl

theorem eval_opendir_ok {s : Bytes} {names : List Name} (h : k.opendir w s = .ok names)
    (f : Except Errno (List Name) → F α) : (opendir s >>= f).eval k.answer w =
      (f (.ok names)).eval k.answer { w with opened := w.opened + 1 } := by
  simp [opendir, Kernel.answer, h]

theorem eval_opendir_error {s : Bytes} {e : Errno} (h : k.opendir w s = .error e)
    (f : Except Errno (List Name) → F α) :
    (opendir s >>= f).eval k.answer w = (f (.error e)).eval k.answer w := by
  simp [opendir, Kernel.answer, h]

theorem eval_chmod_ok {s : Bytes} {mode : Nat} {t : Tree} (h : k.chmod w.tree s mode = .ok t)
    (f : Except Errno Unit → F α) : (chmod s mode >>= f).eval k.answer w =
      (f (.ok ())).eval k.answer { w with tree := t } := by
  simp [chmod, Kernel.answer, h, Except.map, World.settle]

theorem eval_unlink_ok {fd : Fd} {s : Bytes} {t : Tree} (h : k.unlink w.tree fd s = .ok t)
    (f : Except Errno Unit → F α) : (unlink fd s >>= f).eval k.answer w =
      (f (.ok ())).eval k.answer { w with tree := t } := by
  simp [unlink, Kernel.answer, h, Except.map, World.settle]

theorem eval_unlink_error {fd : Fd} {s : Bytes} {e : Errno} (h : k.unlink w.tree fd s = .error e)
    (f : Except Errno Unit → F α) :
    (unlink fd s >>= f).eval k.answer w = (f (.error e)).eval k.answer w := by
  simp [unlink, Kernel.answer, h, Except.map, World.settle]

theorem eval_rmdir_ok {s : Bytes} {t : Tree} (h : k.rmdir w.tree s = .ok t)
    (f : Except Errno Unit → F α) : (rmdir s >>= f).eval k.answer w =
      (f (.ok ())).eval k.answer { w with tree := t } := by
  simp [rmdir, Kernel.answer, h, Except.map, World.settle]

theorem eval_rmdir_error {s : Bytes} {e : Errno} (h : k.rmdir w.tree s = .error e)
    (f : Except Errno Unit → F α) :
    (rmdir s >>= f).eval k.answer w = (f (.error e)).eval k.answer w := by
  simp [rmdir, Kernel.answer, h, Except.map, World.settle]

theorem settle_ok (a : α) (t : Tree) : w.settle (.ok (a, t)) = (.ok a, { w with tree := t }) := rfl

theorem settle_error (e : Errno) : w.settle (.error e : Except Errno (α × Tree)) = (.error e, w) :=
  rfl

theorem eval_mkdir (fd : Fd) (s : Bytes) (mode : Nat) (f : Except Errno Unit → F α) :
    (mkdir fd s mode >>= f).eval k.answer w =
      let r := w.settle ((k.add w.tree fd s (.dir ⟨true, mode⟩)).map fun r => ((), r.2))
      (f r.1).eval k.answer r.2 := rfl

theorem eval_create (fd : Fd) (s : Bytes) (mode : Nat) (f : Except Errno Path → F α) :
    (create fd s mode >>= f).eval k.answer w =
      let r := w.settle (k.add w.tree fd s (.file ⟨true, mode⟩ []))
      (f r.1).eval k.answer r.2 := rfl

theorem eval_rename (old new : Bytes) (f : Except Errno Unit → F α) :
    (rename old new >>= f).eval k.answer w =
      let r := w.settle ((k.rename w.tree old new).map fun t => ((), t))
      (f r.1).eval k.answer r.2 := rfl

theorem eval_fdopen (file : Path) (f : Except Errno Unit → F α) :
    (fdopen file >>= f).eval k.answer w = (f (.ok ())).eval k.answer w := rfl

theorem eval_fclose (file : Path) (f : Bool → F α) :
    (fclose file >>= f).eval k.answer w = (f true).eval k.answer w := rfl

end Runs

section Faults
variable {k : Kernel} {w w' : World}

theorem add_ok {t t' : Tree} {fd : Fd} {s : Bytes} {e : Entry} {p : Path}
    (h : k.add t fd s e = .ok (p, t')) : ∃ d n, k.locate t fd s = .ok (.entry d n) ∧
      p = d ++ [n] ∧ look t p = none ∧ t' = t.insert p e := by
  obtain ⟨place, hplace, hadd⟩ := bind_ok.mp h
  cases place with
  | here d => cases hadd
  | entry d n =>
    dsimp only at hadd
    split_ifs at hadd with hfree hchange
    obtain ⟨rfl, rfl⟩ := Prod.mk.inj (Except.ok.inj hadd)
    exact ⟨d, n, hplace, rfl, Option.not_isSome_iff_eq_none.mp hfree, rfl⟩

theorem unlink_ok {t t' : Tree} {fd : Fd} {s : Bytes} (h : k.unlink t fd s = .ok t') :
    ∃ d n, k.locate t fd s = .ok (.entry d n) ∧ (∀ a, look t (d ++ [n]) ≠ some (.dir a)) ∧
      t' = t.erase (d ++ [n]) := by
  obtain ⟨place, hplace, hunlink⟩ := bind_ok.mp h
  cases place with
  | here d => cases hunlink
  | entry d n =>
    refine ⟨d, n, hplace, ?_⟩
    dsimp only at hunlink
    cases he : look t (d ++ [n]) with
    | none =>
      rw [he] at hunlink
      cases hunlink
    | some e =>
      rw [he] at hunlink
      cases e with
      | dir a => cases hunlink
      | _ =>
        dsimp only at hunlink
        split_ifs at hunlink
        exact ⟨nofun, (Except.ok.inj hunlink).symm⟩

/-- An entry that is no directory is taken to its new place, whatever else was there. -/
theorem rename_ok {t t' : Tree} {s s' : Bytes} (h : k.rename t s s' = .ok t') :
    ∃ d n d' n' e, k.locate t .cwd s = .ok (.entry d n) ∧ k.locate t .cwd s' = .ok (.entry d' n') ∧
      look t (d ++ [n]) = some e ∧ (∀ a, e ≠ .dir a) ∧ (∀ a, look t (d' ++ [n']) ≠ some (.dir a)) ∧
      (t' = t ∨ t' = (t.erase (d ++ [n])).insert (d' ++ [n']) e) := by
  obtain ⟨source, hsource, h⟩ := bind_ok.mp h
  obtain ⟨target, htarget, h⟩ := bind_ok.mp h
  cases source with
  | here d => cases h
  | entry d n =>
    cases target with
    | here d' => cases h
    | entry d' n' =>
      refine ⟨d, n, d', n', ?_⟩
      dsimp only at h
      cases he : look t (d ++ [n]) with
      | none =>
        rw [he] at h
        cases h
      | some e =>
        refine ⟨e, hsource, htarget, rfl, ?_⟩
        rw [he] at h
        cases e with
        | dir a => cases h
        | _ =>
          refine ⟨fun a ha => (by cases ha), ?_⟩
          cases he' : look t (d' ++ [n']) with
          | none =>
            rw [he'] at h
            dsimp only at h
            split_ifs at h
            · exact ⟨fun a ha => (by cases ha), .inl (Except.ok.inj h).symm⟩
            · exact ⟨fun a ha => (by cases ha), .inr (Except.ok.inj h).symm⟩
          | some e' =>
            rw [he'] at h
            cases e' with
            | dir a => cases h
            | _ =>
              dsimp only at h
              split_ifs at h
              · exact ⟨fun a ha => (by cases ha), .inl (Except.ok.inj h).symm⟩
              · exact ⟨fun a ha => (by cases ha), .inr (Except.ok.inj h).symm⟩

theorem locate_name {t : Tree} {d : Path} {n : Name} {place : Place} (hn : proper n = true)
    (h : k.locate t (.dir d) n = .ok place) : place = .entry d n := by
  obtain ⟨hne, hdot, hdotdot, -⟩ := proper_iff.mp hn
  unfold Kernel.locate at h
  rw [if_neg hne] at h
  split_ifs at h
  rw [comps_name hn, origin_name hn, placeOf] at h
  dsimp only [List.getLast?_singleton] at h
  rw [if_neg (not_or.mpr ⟨hdot, hdotdot⟩)] at h
  obtain ⟨d', hd, hplace⟩ := bind_ok.mp h
  obtain rfl : d = d' := Except.ok.inj hd
  split_ifs at hplace
  exact (Except.ok.inj hplace).symm

theorem openDir_name {t : Tree} {d p : Path} {n : Name} (hn : proper n = true)
    (h : k.openDir t (.dir d) n true = .ok p) : p = d ++ [n] ∧ ∃ a, look t p = some (.dir a) := by
  obtain ⟨place, hplace, hopen⟩ := bind_ok.mp h
  rw [locate_name hn hplace] at hopen
  dsimp only at hopen
  cases he : look t (d ++ [n]) with
  | none =>
    rw [he] at hopen
    cases hopen
  | some e =>
    rw [he] at hopen
    cases e with
    | dir a =>
      dsimp only at hopen
      split_ifs at hopen
      obtain rfl := Except.ok.inj hopen
      exact ⟨rfl, a, he⟩
    | _ => cases hopen

theorem openDir_walk {t : Tree} {s : Bytes} {p : Path} {f : Fd}
    (h : k.openDir t f s false = .ok p) :
    walk (look t) k.linkMax (origin (k.base f) s) (comps s) = .ok p := by
  obtain ⟨place, hplace, hopen⟩ := bind_ok.mp h
  unfold Kernel.locate at hplace
  split_ifs at hplace
  rcases List.eq_nil_or_concat (comps s) with hnil | ⟨cs, n, hcs⟩
  · rw [hnil, placeOf] at hplace
    obtain rfl := Except.ok.inj hplace
    dsimp only at hopen
    split_ifs at hopen
    rw [hnil]
    exact hopen
  · rw [hcs, List.concat_eq_append, placeOf, List.getLast?_concat] at hplace
    dsimp only at hplace
    rw [hcs, List.concat_eq_append]
    split_ifs at hplace
    · cases hw : walk (look t) k.linkMax (origin (k.base f) s) (cs ++ [n]) with
      | error e =>
        rw [hw] at hplace
        cases hplace
      | ok d =>
        rw [hw] at hplace
        obtain rfl := Except.ok.inj hplace
        dsimp only at hopen
        split_ifs at hopen
        exact hopen
    · rw [List.dropLast_concat] at hplace
      obtain ⟨d, hd, hentry⟩ := bind_ok.mp hplace
      split_ifs at hentry
      obtain rfl := Except.ok.inj hentry
      obtain ⟨d', hd', hopen⟩ := bind_ok.mp hopen
      split_ifs at hopen
      obtain rfl := Except.ok.inj hopen
      rw [walk_append, hd]
      exact hd'

theorem settle_cases {α : Type} {x : Except Errno α} {y : Except Errno (α × Tree)}
    (h : (x, w') = w.settle y) : (∃ e, x = .error e ∧ w' = w) ∨
      ∃ a t, y = .ok (a, t) ∧ x = .ok a ∧ w' = { w with tree := t } := by
  obtain ⟨hx, hw⟩ := Prod.mk.inj h
  cases y with
  | error e => exact .inl ⟨e, hx, hw⟩
  | ok r => exact .inr ⟨r.1, r.2, rfl, hx, hw⟩

theorem faulty_mkdir {fd : Fd} {s : Bytes} {mode : Nat} {x : Except Errno Unit}
    (h : k.faulty.answers w (.mkdir fd s mode) x w') : (∃ e, x = .error e ∧ w' = w) ∨
      ∃ p t, k.add w.tree fd s (.dir ⟨true, mode⟩) = .ok (p, t) ∧ x = .ok () ∧
        w' = { w with tree := t } := by
  rcases h with h | ⟨⟨e, he⟩, hw⟩
  · rcases settle_cases h with h | ⟨_, t, hy, hx, hw⟩
    · exact .inl h
    · cases ha : k.add w.tree fd s (.dir ⟨true, mode⟩) with
      | error e =>
        rw [ha] at hy
        cases hy
      | ok r =>
        rw [ha] at hy
        obtain ⟨-, rfl⟩ := Prod.mk.inj (Except.ok.inj hy)
        exact .inr ⟨r.1, r.2, rfl, hx, hw⟩
  · exact .inl ⟨e, he, hw⟩

theorem faulty_create {fd : Fd} {s : Bytes} {mode : Nat} {x : Except Errno Path}
    (h : k.faulty.answers w (.create fd s mode) x w') : (∃ e, x = .error e ∧ w' = w) ∨
      ∃ p t, k.add w.tree fd s (.file ⟨true, mode⟩ []) = .ok (p, t) ∧ x = .ok p ∧
        w' = { w with tree := t } := by
  rcases h with h | ⟨⟨e, he⟩, hw⟩
  · exact settle_cases h
  · exact .inl ⟨e, he, hw⟩

theorem settle_tree {x : Except Errno Unit} {y : Except Errno Tree}
    (h : (x, w') = w.settle (y.map fun t => ((), t))) :
    w' = w ∨ ∃ t, y = .ok t ∧ w' = { w with tree := t } := by
  rcases settle_cases h with ⟨-, -, hw⟩ | ⟨_, t, hy, -, hw⟩
  · exact .inl hw
  · cases y with
    | error e => cases hy
    | ok t' =>
      obtain ⟨-, rfl⟩ := Prod.mk.inj (Except.ok.inj hy)
      exact .inr ⟨t', rfl, hw⟩

theorem faulty_unlink {fd : Fd} {s : Bytes} {x : Except Errno Unit}
    (h : k.faulty.answers w (.unlink fd s) x w') :
    w' = w ∨ ∃ t, k.unlink w.tree fd s = .ok t ∧ w' = { w with tree := t } :=
  h.elim settle_tree fun h => .inl h.2

theorem faulty_rename {s s' : Bytes} {x : Except Errno Unit}
    (h : k.faulty.answers w (.rename s s') x w') :
    w' = w ∨ ∃ t, k.rename w.tree s s' = .ok t ∧ w' = { w with tree := t } :=
  h.elim settle_tree fun h => .inl h.2

theorem faulty_openDir {fd : Fd} {s : Bytes} {nofollow : Bool} {x : Except Errno Path}
    (h : k.faulty.answers w (.openDir fd s nofollow) x w') :
    w' = w ∧ ∀ p, x = .ok p → k.openDir w.tree fd s nofollow = .ok p := by
  rcases h with h | ⟨⟨e, he⟩, hw⟩
  · obtain ⟨hx, hw⟩ := Prod.mk.inj h
    exact ⟨hw, fun p hp => hx ▸ hp⟩
  · refine ⟨hw, fun p hp => ?_⟩
    rw [he] at hp
    cases hp

theorem faulty_lstat {s : Bytes} {x : Except Errno Stat} (h : k.faulty.answers w (.lstat s) x w') :
    w' = w := by
  rcases h with h | ⟨-, hw⟩
  · exact (Prod.mk.inj h).2
  · exact hw

theorem faulty_dup {fd : Path} {x : Except Errno Path} (h : k.faulty.answers w (.dup fd) x w') :
    w' = w ∧ ∀ p, x = .ok p → p = fd := by
  rcases h with h | ⟨⟨e, he⟩, hw⟩
  · obtain ⟨hx, hw⟩ := Prod.mk.inj h
    exact ⟨hw, fun p hp => Except.ok.inj (hp.symm.trans hx)⟩
  · refine ⟨hw, fun p hp => ?_⟩
    rw [he] at hp
    cases hp

theorem faulty_fdopen {file : Path} {x : Except Errno Unit}
    (h : k.faulty.answers w (.fdopen file) x w') : w' = w := by
  rcases h with h | ⟨-, hw⟩
  · exact (Prod.mk.inj h).2
  · exact hw

theorem faulty_fwrite {file : Path} {text : Bytes} {x : Bool}
    (h : k.faulty.answers w (.fwrite file text) x w') :
    ∃ f, w' = { w with tree := setContent w.tree file f } := by
  rcases h with h | ⟨-, content, hw⟩
  · exact ⟨_, (Prod.mk.inj h).2⟩
  · exact ⟨_, hw⟩

theorem faulty_fclose {file : Path} {x : Bool} (h : k.faulty.answers w (.fclose file) x w') :
    w' = w ∨ ∃ f, w' = { w with tree := setContent w.tree file f } := by
  rcases h with h | ⟨-, content, hw⟩
  · exact .inl (Prod.mk.inj h).2
  · exact .inr ⟨_, hw⟩

end Faults

end FileTree
