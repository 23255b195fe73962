import Hacman.Directories
import Hacman.Main
import Hacman.WorkTree

/-!
# The first use of a cache

Any number of processes in `hm_cache_lock`, one system call at a time. The directories down to the
lock file may not exist yet, so several processes can be creating them at once. The lock belongs to
the inode that a process has opened, not to the path.
-/

namespace Hacman.FirstUse
open Octets Util Cache Main
open FileTree (comps absolute DOT DOTDOT comps_append fields_of_notMem)
open WorkTree (cuts cuts_snoc last_slash)
open Directories

section Kernel

abbrev Ino := Nat

abbrev Disk := Files Ino Bytes Unit

inductive Errno | noent | notdir | isdir
  deriving DecidableEq, Repr

def isDir (s : Disk) (x : Ino) : Bool :=
  match s x with
  | some (.dir _) => true
  | _ => false

def resolve (s : Disk) : Ino → List Bytes → Except Errno Ino
  | d, [] => if isDir s d then .ok d else .error .notdir
  | d, n :: ns =>
    if isDir s d then
      match entry s d n with
      | some y => resolve s y ns
      | none => .error .noent
    else .error .notdir

def add (s : Disk) (d : Ino) (n : Bytes) (new : Ino) (object : Object Ino Bytes Unit) : Disk :=
  setEntry (Function.update s new (some object)) d n (some new)

def emptyDir (new d : Ino) : Object Ino Bytes Unit :=
  .dir fun n => if n = DOT then some new else if n = DOTDOT then some d else none

/-- `hacman` does not look at what `mkdir` returns. -/
def mkdir (s : Disk) (base new : Ino) (path : Bytes) : Disk :=
  match (comps path).getLast? with
  | none => s
  | some n =>
    match resolve s base (comps path).dropLast with
    | .error _ => s
    | .ok d => if entry s d n = none then add s d n new (emptyDir new d) else s

/-- `O_RDWR | O_CREAT`. -/
def openCreate (s : Disk) (base new : Ino) (path : Bytes) : Except Errno Ino × Disk :=
  match (comps path).getLast? with
  | none => (.error .noent, s)
  | some n =>
    match resolve s base (comps path).dropLast with
    | .error e => (.error e, s)
    | .ok d =>
      match entry s d n with
      | some x => (if isDir s x then .error .isdir else .ok x, s)
      | none => (.ok new, add s d n new (.leaf ()))

end Kernel

section Model

def cacheParent (path : Bytes) : Bytes :=
  let n := path.length - (path.reverse.takeWhile (· ≠ SLASH)).length
  path.take (min (n - 1) HM_PATH_MAX)

/-- The directories that `mkdir_p` asks for, in this order. -/
def mkdirP (path : Bytes) : List Bytes := cuts (path.take HM_PATH_MAX)

/-- A process that locks a slot; the path of the record fits its array. -/
structure Client where
  c : Slot
  fits : c.path.length ≤ HM_PATH_MAX
  cwd : Ino

abbrev Pid := Nat

/-- The next call. `making` has gone through the directories `done`. -/
inductive Proc
  | opening
  | making (done left : List Bytes)
  | locking (fd : Ino)
  | holding (fd : Ino)
  | failed (e : Errno)
  | ended
  deriving DecidableEq, Repr

structure State where
  disk : Disk
  procs : Pid → Proc := fun _ => .opening
  locks : Ino → Option Pid := fun _ => none

def State.goto (s : State) (pid : Pid) (p : Proc) : State :=
  { s with procs := Function.update s.procs pid p }

def State.close (s : State) (pid : Pid) : State :=
  match s.procs pid with
  | .holding fd => { s.goto pid .ended with locks := Function.update s.locks fd none }
  | _ => s.goto pid .ended

variable (root : Ino) (clients : Pid → Client)

def base (pid : Pid) : Ino := if absolute (clients pid).c.path then root else (clients pid).cwd

def way (pid : Pid) : List Bytes := comps (lockPath (clients pid).c)

def State.reopen (s : State) (pid : Pid) (new : Ino) : State :=
  match openCreate s.disk (base root clients pid) new (lockPath (clients pid).c) with
  | (.ok fd, disk) => { s.goto pid (.locking fd) with disk := disk }
  | (.error e, disk) => { s.goto pid (.failed e) with disk := disk }

/-- The next call of a process; what it creates becomes `new`. A lock that is taken makes the
process wait. -/
def State.next (s : State) (pid : Pid) (new : Ino) : State :=
  match s.procs pid with
  | .opening =>
    match openCreate s.disk (base root clients pid) new (lockPath (clients pid).c) with
    | (.ok fd, disk) => { s.goto pid (.locking fd) with disk := disk }
    | (.error .noent, disk) =>
      { s.goto pid (.making [] (mkdirP (cacheParent (clients pid).c.path))) with disk := disk }
    | (.error e, disk) => { s.goto pid (.failed e) with disk := disk }
  | .making done (dir :: left) =>
    { s.goto pid (.making (done ++ [dir]) left) with
      disk := mkdir s.disk (base root clients pid) new dir }
  | .making _ [] => s.reopen root clients pid new
  | .locking fd =>
    match s.locks fd with
    | some _ => s
    | none => { s.goto pid (.holding fd) with locks := Function.update s.locks fd (some pid) }
  | .holding _ => s.close pid
  | .failed _ | .ended => s

/-- No entry and no start of a path refers to the number. -/
structure Unused (s : Disk) (b new : Ino) : Prop where
  none : s new = none
  entry : ∀ d n, entry s d n ≠ some new
  base : b ≠ new

/-- Lock files and the directories above them are never removed or renamed. -/
def Stays (disk disk' : Disk) : Prop :=
  ∀ pid pre x, pre <+: way clients pid → walk disk (base root clients pid) pre = some x →
    walk disk' (base root clients pid) pre = some x ∧ isDir disk' x = isDir disk x

/-- A call, anything else that happens on the disk, the end of a process. -/
inductive Step (s : State) : State → Prop
  | call (pid : Pid) (new : Ino) : (∀ pid, Unused s.disk (base root clients pid) new) →
    Step s (s.next root clients pid new)
  | other (disk' : Disk) : Stays root clients s.disk disk' → Step s { s with disk := disk' }
  | killed (pid : Pid) : Step s (s.close pid)

abbrev Reach (disk : Disk) (s : State) : Prop :=
  Relation.ReflTransGen (Step root clients) { disk := disk } s

/-- Something that is not a directory is in the way, or a directory is in the place of the lock
file. -/
def Blocked (disk : Disk) (pid : Pid) : Prop :=
  ∃ pre x, pre <+: way clients pid ∧ walk disk (base root clients pid) pre = some x ∧
    (isDir disk x = true ↔ pre = way clients pid)

end Model

section Ways
variable {s : Disk} {d new x y : Ino} {n : Bytes} {ns : List Bytes}

def Settled (s : Disk) (d : Ino) (ns : List Bytes) : Prop :=
  ∃ pre x, pre <+: ns ∧ walk s d pre = some x ∧ (isDir s x = false ∨ pre = ns)

theorem isDir_of_entry (h : entry s d n = some y) : isDir s d = true := by
  obtain ⟨object, hd, hn⟩ := Option.bind_eq_some_iff.mp h
  cases object with
  | leaf a => cases hn
  | dir entries => rw [isDir, hd]

theorem walk_snoc : walk s d (ns ++ [n]) = (walk s d ns).bind (entry s · n) := by
  rw [walk, List.foldlM_append]
  exact Option.bind_congr fun x _ => by simp

theorem resolve_ok (h : resolve s d ns = .ok x) : walk s d ns = some x ∧ isDir s x = true := by
  induction ns generalizing d with
  | nil =>
    rw [resolve] at h
    split_ifs at h with hd
    obtain rfl := Except.ok.inj h
    exact ⟨rfl, hd⟩
  | cons n ns ih =>
    rw [resolve] at h
    split_ifs at h with hd
    cases hn : entry s d n with
    | none => rw [hn] at h; cases h
    | some y =>
      rw [hn] at h
      rw [walk_cons, hn]
      exact ih h

theorem resolve_of_walk (h : walk s d ns = some x) (hx : isDir s x = true) :
    resolve s d ns = .ok x := by
  induction ns generalizing d with
  | nil =>
    obtain rfl := Option.some.inj h
    rw [resolve, if_pos hx]
  | cons n ns ih =>
    obtain ⟨y, hn, hrest⟩ := Option.bind_eq_some_iff.mp (walk_cons.symm.trans h)
    rw [resolve, if_pos (isDir_of_entry hn), hn]
    exact ih hrest

theorem settled_cons (hn : entry s d n = some y) : Settled s d (n :: ns) ↔ Settled s y ns := by
  constructor
  · rintro ⟨pre, x, hpre, hwalk, hx⟩
    cases pre with
    | nil =>
      obtain rfl := Option.some.inj hwalk
      rcases hx with hx | hx
      · exact absurd (isDir_of_entry hn) (by simp [hx])
      · cases hx
    | cons m pre =>
      obtain ⟨rfl, hrest⟩ := List.cons_prefix_cons.mp hpre
      rw [walk_cons, hn] at hwalk
      exact ⟨pre, x, hrest, hwalk, hx.imp_right fun h => (List.cons.inj h).2⟩
  · rintro ⟨pre, x, hpre, hwalk, hx⟩
    refine ⟨n :: pre, x, List.cons_prefix_cons.mpr ⟨rfl, hpre⟩, ?_,
      hx.imp_right (congrArg (n :: ·))⟩
    rw [walk_cons, hn]
    exact hwalk

theorem resolve_error {e : Errno} (h : resolve s d ns = .error e) :
    (e = .noent ∧ ¬ Settled s d ns) ∨
      e = .notdir ∧ ∃ pre x, pre <+: ns ∧ walk s d pre = some x ∧ isDir s x = false := by
  induction ns generalizing d with
  | nil =>
    rw [resolve] at h
    split_ifs at h with hd
    obtain rfl := Except.error.inj h
    exact .inr ⟨rfl, [], d, List.prefix_rfl, rfl, by simpa using hd⟩
  | cons n ns ih =>
    rw [resolve] at h
    split_ifs at h with hd
    · cases hn : entry s d n with
      | none =>
        rw [hn] at h
        obtain rfl := Except.error.inj h
        refine .inl ⟨rfl, ?_⟩
        rintro ⟨pre, x, hpre, hwalk, hx⟩
        cases pre with
        | nil =>
          obtain rfl := Option.some.inj hwalk
          rcases hx with hx | hx
          · exact absurd hd (by simp [hx])
          · cases hx
        | cons m pre =>
          obtain ⟨rfl, -⟩ := List.cons_prefix_cons.mp hpre
          rw [walk_cons, hn] at hwalk
          cases hwalk
      | some y =>
        rw [hn] at h
        rw [settled_cons hn]
        refine (ih h).imp_right fun ⟨he, pre, x, hpre, hwalk, hx⟩ => ⟨he, n :: pre, x, ?_, ?_, hx⟩
        · exact List.cons_prefix_cons.mpr ⟨rfl, hpre⟩
        · rw [walk_cons, hn]
          exact hwalk
    · obtain rfl := Except.error.inj h
      exact .inr ⟨rfl, [], d, List.nil_prefix, rfl, by simpa using hd⟩

end Ways

section Growth
variable {s : Disk} {b d new x : Ino} {n : Bytes} {object : Object Ino Bytes Unit}
  {pre : List Bytes}

theorem Unused.walk (h : Unused s b new) (hw : walk s b pre = some x) : x ≠ new := by
  rcases List.eq_nil_or_concat pre with rfl | ⟨pre, n, rfl⟩
  · obtain rfl := Option.some.inj hw
    exact h.base
  · rw [List.concat_eq_append, walk_snoc] at hw
    obtain ⟨y, -, hn⟩ := Option.bind_eq_some_iff.mp hw
    rintro rfl
    exact h.entry y n hn

theorem exists_entries (hd : isDir s d = true) : ∃ entries, s d = some (.dir entries) := by
  unfold isDir at hd
  split at hd
  · exact ⟨_, by assumption⟩
  · cases hd

theorem add_eq {entries : Bytes → Option Ino} (hd : s d = some (.dir entries))
    (hnew : s new = none) :
    add s d n new object = Function.update (Function.update s new (some object)) d
      (some (.dir (Function.update entries n (some new)))) := by
  have hne : d ≠ new := fun heq => by simp [heq, hnew] at hd
  have hsame : Function.update s new (some object) d = some (.dir entries) := by
    rw [Function.update_of_ne hne, hd]
  rw [add, setEntry, hsame]

theorem add_isDir (hd : isDir s d = true) (hnew : s new = none) (hx : x ≠ new) :
    isDir (add s d n new object) x = isDir s x := by
  obtain ⟨entries, hs⟩ := exists_entries hd
  rw [add_eq hs hnew]
  by_cases hxd : x = d
  · subst hxd
    rw [isDir, isDir, Function.update_self, hs]
  · rw [isDir, isDir, Function.update_of_ne hxd, Function.update_of_ne hx]

theorem add_entry {y : Ino} {m : Bytes} (hd : isDir s d = true) (hnew : s new = none)
    (hn : entry s d n = none)
    (h : entry s x m = some y) : entry (add s d n new object) x m = some y := by
  obtain ⟨entries, hs⟩ := exists_entries hd
  have hx : x ≠ new := fun heq => by simp [entry, heq, hnew] at h
  rw [add_eq hs hnew]
  by_cases hxd : x = d
  · subst hxd
    have hne : m ≠ n := by
      rintro rfl
      rw [h] at hn
      cases hn
    rw [entry_dir (Function.update_self ..), Function.update_of_ne hne]
    exact (entry_dir hs).symm.trans h
  · rw [entry, Function.update_of_ne hxd, Function.update_of_ne hx]
    exact h

theorem add_walk (h : Unused s b new) (hd : isDir s d = true) (hn : entry s d n = none)
    (hw : walk s b pre = some x) : walk (add s d n new object) b pre = some x := by
  induction pre using List.reverseRecOn generalizing x with
  | nil => exact hw
  | append_singleton pre m ih =>
    rw [walk_snoc] at hw ⊢
    obtain ⟨y, hy, hm⟩ := Option.bind_eq_some_iff.mp hw
    rw [ih hy]
    exact add_entry hd h.none hn hm

theorem add_found (h : Unused s b new) (hw : walk s b pre = some d) (hd : isDir s d = true)
    (hn : entry s d n = none) : walk (add s d n new object) b (pre ++ [n]) = some new := by
  obtain ⟨entries, hs⟩ := exists_entries hd
  have hentry : entry (add s d n new object) d n = some new := by
    rw [add_eq hs h.none, entry_dir (Function.update_self ..), Function.update_self]
  rw [walk_snoc, add_walk h hd hn hw]
  exact hentry

theorem add_isDir_new (hd : isDir s d = true) (hnew : s new = none) :
    isDir (add s d n new object) new = match object with
      | .dir _ => true
      | .leaf _ => false := by
  obtain ⟨entries, hs⟩ := exists_entries hd
  have hne : new ≠ d := fun heq => by simp [← heq, hnew] at hs
  rw [add_eq hs hnew, isDir, Function.update_of_ne hne, Function.update_self]
  cases object <;> rfl

end Growth

section Calls
variable {s s' : Disk} {b b' new fd : Ino} {path : Bytes}

def Grown (s s' : Disk) (b : Ino) : Prop :=
  ∀ pre x, walk s b pre = some x → walk s' b pre = some x ∧ isDir s' x = isDir s x

theorem Grown.refl : Grown s s b := fun _ _ hw => ⟨hw, rfl⟩

theorem add_grown {d : Ino} {n : Bytes} {object : Object Ino Bytes Unit} (h : Unused s b new)
    (hd : isDir s d = true) (hn : entry s d n = none) : Grown s (add s d n new object) b :=
  fun _ _ hw => ⟨add_walk h hd hn hw, add_isDir hd h.none (h.walk hw)⟩

theorem Settled.grown {ns : List Bytes} (h : Settled s b ns) (hs : Grown s s' b) :
    Settled s' b ns := by
  obtain ⟨pre, x, hpre, hw, hx⟩ := h
  obtain ⟨hw', hsame⟩ := hs pre x hw
  exact ⟨pre, x, hpre, hw', hx.imp_left hsame.trans⟩

theorem mkdir_grown (h : Unused s b new) : Grown s (mkdir s b' new path) b := by
  unfold mkdir
  split
  · exact .refl
  · split
    · exact .refl
    · rename_i d hd
      split_ifs with hn
      · exact add_grown h (resolve_ok hd).2 hn
      · exact .refl

theorem openCreate_grown (h : Unused s b new) : Grown s (openCreate s b' new path).2 b := by
  unfold openCreate
  split
  · exact .refl
  · split
    · exact .refl
    · rename_i d hd
      split
      · exact .refl
      · rename_i hn
        exact add_grown h (resolve_ok hd).2 hn

theorem mkdir_settled (h : Unused s b new) (hs : Settled s b (comps path).dropLast) :
    Settled (mkdir s b new path) b (comps path) := by
  rcases List.eq_nil_or_concat (comps path) with hnil | ⟨ns, n, hcomps⟩
  · rw [hnil]
    exact ⟨[], b, List.prefix_rfl, rfl, .inr rfl⟩
  rw [List.concat_eq_append] at hcomps
  rw [hcomps, List.dropLast_concat] at hs
  rw [hcomps]
  have hgrown : Grown s (mkdir s b new path) b := mkdir_grown h
  obtain ⟨pre, x, hpre, hw, hx⟩ := hs
  have hup : pre <+: ns ++ [n] := hpre.trans (List.prefix_append ns [n])
  cases hdir : isDir s x with
  | false => exact ⟨pre, x, hup, (hgrown pre x hw).1, .inl ((hgrown pre x hw).2.trans hdir)⟩
  | true =>
    obtain rfl : pre = ns := hx.resolve_left (by simp [hdir])
    have hmkdir : mkdir s b new path = if entry s x n = none then add s x n new (emptyDir new x)
        else s := by
      rw [mkdir, hcomps, List.getLast?_concat, List.dropLast_concat, resolve_of_walk hw hdir]
    rw [hmkdir]
    split_ifs with hn
    · exact ⟨pre ++ [n], new, List.prefix_rfl, add_found h hw hdir hn, .inr rfl⟩
    · obtain ⟨y, hy⟩ := Option.ne_none_iff_exists'.mp hn
      refine ⟨pre ++ [n], y, List.prefix_rfl, ?_, .inr rfl⟩
      rw [walk_snoc, hw]
      exact hy

theorem openCreate_ok (h : Unused s b new) (ho : openCreate s b new path = (.ok fd, s')) :
    walk s' b (comps path) = some fd ∧ isDir s' fd = false := by
  rcases List.eq_nil_or_concat (comps path) with hnil | ⟨ns, n, hcomps⟩
  · simp [openCreate, hnil] at ho
  rw [List.concat_eq_append] at hcomps
  rw [openCreate, hcomps, List.getLast?_concat, List.dropLast_concat] at ho
  dsimp only at ho
  rw [hcomps]
  cases hd : resolve s b ns with
  | error e => simp [hd] at ho
  | ok d =>
    obtain ⟨hw, hdir⟩ := resolve_ok hd
    rw [hd] at ho
    dsimp only at ho
    cases hn : entry s d n with
    | none =>
      simp only [hn, Prod.mk.injEq, Except.ok.injEq] at ho
      obtain ⟨rfl, rfl⟩ := ho
      exact ⟨add_found h hw hdir hn, add_isDir_new hdir h.none⟩
    | some x =>
      simp only [hn, Prod.mk.injEq] at ho
      obtain ⟨hx, rfl⟩ := ho
      split_ifs at hx with hxdir
      obtain rfl := Except.ok.inj hx
      refine ⟨?_, by simpa using hxdir⟩
      rw [walk_snoc, hw]
      exact hn

theorem openCreate_error {e : Errno} (hcomps : comps path ≠ [])
    (ho : openCreate s b new path = (.error e, s')) :
    s' = s ∧ ((e = .noent ∧ ¬ Settled s b (comps path).dropLast) ∨ e ≠ .noent ∧
      ∃ pre x, pre <+: comps path ∧ walk s b pre = some x ∧
        (isDir s x = true ↔ pre = comps path)) := by
  obtain ⟨ns, n, hsnoc⟩ := (List.eq_nil_or_concat (comps path)).resolve_left hcomps
  rw [List.concat_eq_append] at hsnoc
  rw [openCreate, hsnoc, List.getLast?_concat, List.dropLast_concat] at ho
  dsimp only at ho
  rw [hsnoc, List.dropLast_concat]
  cases hd : resolve s b ns with
  | error e' =>
    simp only [hd, Prod.mk.injEq, Except.error.injEq] at ho
    obtain ⟨rfl, rfl⟩ := ho
    refine ⟨rfl, (resolve_error hd).imp_right fun ⟨he, pre, x, hpre, hw, hx⟩ => ⟨by simp [he], pre,
      x, ?_, hw, ?_⟩⟩
    · exact hpre.trans (List.prefix_append ns [n])
    · refine iff_of_false (by simp [hx]) fun heq => ?_
      have hlen := hpre.length_le
      rw [heq, List.length_append, List.length_singleton] at hlen
      omega
  | ok d =>
    obtain ⟨hw, hdir⟩ := resolve_ok hd
    rw [hd] at ho
    dsimp only at ho
    cases hn : entry s d n with
    | none => simp [hn] at ho
    | some x =>
      simp only [hn, Prod.mk.injEq] at ho
      obtain ⟨hx, rfl⟩ := ho
      split_ifs at hx with hxdir
      obtain rfl := Except.error.inj hx
      refine ⟨rfl, .inr ⟨nofun, ns ++ [n], x, List.prefix_rfl, ?_, iff_of_true hxdir rfl⟩⟩
      rw [walk_snoc, hw]
      exact hn

end Calls

section Paths
variable {path dir : Bytes} {done left : List Bytes}

theorem comps_short (h : SLASH ∉ path) : (comps path).length ≤ 1 := by
  rw [comps, fields_of_notMem h]
  exact List.length_filter_le _ _

theorem self_mem_cuts (h : path ≠ []) : path ∈ cuts path := by
  have hpos := List.length_pos_iff.mpr h
  refine List.mem_map.mpr ⟨path.length, List.mem_filter.mpr ⟨?_, by simp⟩, List.take_length⟩
  rw [List.mem_range'_1]
  omega

/-- Whatever is above a directory has been asked for before it. -/
theorem cuts_chain (h : cuts path = done ++ dir :: left) : (comps dir).dropLast = [] ∨
    ∃ cut ∈ done, comps cut = comps dir ∨ comps cut = (comps dir).dropLast := by
  induction hlen : path.length using Nat.strong_induction_on generalizing path done left with
  | _ k ih =>
  rcases last_slash path with hplain | ⟨s, m, rfl, hm⟩
  · obtain ⟨-, -, rest, hrest, -⟩ := WorkTree.cut_spec
      (h ▸ List.mem_append_right done List.mem_cons_self)
    have hshort := comps_short hplain
    rw [hrest, List.length_append] at hshort
    refine .inl (List.eq_nil_of_length_eq_zero ?_)
    rw [List.length_dropLast]
    omega
  · rw [cuts_snoc hm] at h
    rcases List.eq_nil_or_concat left with rfl | ⟨left, last, rfl⟩
    · obtain ⟨rfl, hdir⟩ := List.append_inj' h rfl
      obtain rfl := (List.cons.inj hdir).1
      have hcomps := comps_append s m
      have hshort := comps_short hm
      by_cases hs : s = []
      · subst hs
        rw [List.nil_append] at hcomps
        refine .inl (List.eq_nil_of_length_eq_zero ?_)
        rw [List.length_dropLast, List.nil_append, hcomps, List.length_append]
        have hzero : (comps ([] : Bytes)).length = 0 := rfl
        omega
      · refine .inr ⟨s, self_mem_cuts hs, ?_⟩
        rw [hcomps]
        cases hm' : comps m with
        | nil => exact .inl (List.append_nil _).symm
        | cons n ns =>
          obtain rfl : ns = [] := by
            rw [hm', List.length_cons] at hshort
            exact List.eq_nil_of_length_eq_zero (by omega)
          exact .inr List.dropLast_concat.symm
    · rw [List.concat_eq_append, ← List.cons_append, ← List.append_assoc] at h
      have hinit := (List.append_inj' h rfl).1
      exact ih s.length (by simp [← hlen]) hinit rfl

theorem cacheParent_slash {s m : Bytes} (hm : SLASH ∉ m)
    (hfits : (s ++ SLASH :: m).length ≤ HM_PATH_MAX) : cacheParent (s ++ SLASH :: m) = s := by
  have hplain : ∀ b ∈ m.reverse, (decide (b ≠ SLASH)) = true := fun b hb =>
    decide_eq_true fun heq => hm (heq ▸ List.mem_reverse.mp hb)
  have htail : ((s ++ SLASH :: m).reverse.takeWhile (· ≠ SLASH)).length = m.length := by
    rw [List.reverse_append, List.reverse_cons, List.append_assoc,
      List.takeWhile_append_of_pos hplain]
    simp
  have hlen : (s ++ SLASH :: m).length = s.length + (m.length + 1) := by simp
  rw [cacheParent, htail, hlen]
  rw [hlen] at hfits
  rw [Nat.min_eq_left (by omega), List.take_left' (by omega)]

theorem cacheParent_plain (h : SLASH ∉ path) : cacheParent path = [] := by
  have hall : path.reverse.takeWhile (· ≠ SLASH) = path.reverse :=
    List.takeWhile_eq_self_iff.mpr fun b hb => decide_eq_true fun heq =>
      h (heq ▸ List.mem_reverse.mp hb)
  rw [cacheParent, hall]
  simp

theorem lock_comps {m : Bytes} (hm : SLASH ∉ m) :
    comps (m ++ ascii ".lock") = [m ++ ascii ".lock"] := by
  have hslash : SLASH ∉ m ++ ascii ".lock" := by
    rw [List.mem_append, not_or]
    exact ⟨hm, by decide⟩
  have hne : ascii ".lock" ≠ [] := by decide
  rw [comps, fields_of_notMem hslash, List.filter_cons_of_pos (by simp [hne])]
  rfl

theorem lockPath_comps {c : Slot} (hfits : c.path.length ≤ HM_PATH_MAX) :
    ∃ n, comps (lockPath c) = comps (cacheParent c.path) ++ [n] := by
  have hlock : lockPath c = c.path ++ ascii ".lock" := by
    have hfive : (ascii ".lock").length = 5 := by decide
    rw [lockPath, appendStr_nil, List.take_of_length_le (by omega), appendStr_fits _ (by omega)]
  rw [hlock]
  rcases last_slash c.path with hplain | ⟨s, m, hpath, hm⟩
  · exact ⟨_, by rw [cacheParent_plain hplain, lock_comps hplain]; rfl⟩
  · rw [hpath] at hfits ⊢
    rw [cacheParent_slash hm hfits, List.append_assoc, List.cons_append, comps_append,
      lock_comps hm]
    exact ⟨_, rfl⟩

theorem cacheParent_length (path : Bytes) : (cacheParent path).length ≤ HM_PATH_MAX :=
  (List.length_take_le _ _).trans (Nat.min_le_right _ _)

theorem mkdirP_cacheParent (path : Bytes) :
    mkdirP (cacheParent path) = cuts (cacheParent path) := by
  rw [mkdirP, List.take_of_length_le (cacheParent_length path)]

end Paths

section Runs
variable (root : Ino) (clients : Pid → Client)

/-- What a process relies on at its next call. -/
def Relies (disk : Disk) (pid : Pid) : Proc → Prop
  | .opening | .ended => True
  | .making done left => cuts (cacheParent (clients pid).c.path) = done ++ left ∧
      ∀ dir ∈ done, Settled disk (base root clients pid) (comps dir)
  | .locking fd | .holding fd =>
    walk disk (base root clients pid) (way clients pid) = some fd ∧ isDir disk fd = false
  | .failed e => e ≠ .noent ∧ Blocked root clients disk pid

structure Inv (s : State) : Prop where
  relies : ∀ pid, Relies root clients s.disk pid (s.procs pid)
  locked : ∀ pid fd, s.procs pid = .holding fd → s.locks fd = some pid

variable {root clients} {disk disk' : Disk} {s s' : State} {pid pid' : Pid} {new : Ino}

theorem way_eq (pid : Pid) :
    ∃ n, way clients pid = comps (cacheParent (clients pid).c.path) ++ [n] :=
  lockPath_comps (clients pid).fits

theorem way_dropLast (pid : Pid) :
    (way clients pid).dropLast = comps (cacheParent (clients pid).c.path) := by
  obtain ⟨n, hway⟩ := @way_eq clients pid
  rw [hway, List.dropLast_concat]

theorem Relies.stays {p : Proc} (h : Relies root clients disk pid p)
    (hs : Stays root clients disk disk') : Relies root clients disk' pid p := by
  cases p with
  | opening | ended => trivial
  | making done left =>
    refine ⟨h.1, fun dir hdir => ?_⟩
    obtain ⟨pre, x, hpre, hw, hx⟩ := h.2 dir hdir
    obtain ⟨-, -, rest, hrest, -⟩ := WorkTree.cut_spec (h.1 ▸ List.mem_append_left left hdir)
    obtain ⟨n, hway⟩ := @way_eq clients pid
    have hup : pre <+: way clients pid := by
      rw [hway, hrest, List.append_assoc]
      exact hpre.trans (List.prefix_append _ _)
    obtain ⟨hw', hsame⟩ := hs pid pre x hup hw
    exact ⟨pre, x, hpre, hw', hx.imp_left hsame.trans⟩
  | locking fd | holding fd =>
    obtain ⟨hw', hsame⟩ := hs pid _ _ List.prefix_rfl h.1
    exact ⟨hw', hsame.trans h.2⟩
  | failed e =>
    obtain ⟨he, pre, x, hpre, hw, hx⟩ := h
    obtain ⟨hw', hsame⟩ := hs pid pre x hpre hw
    exact ⟨he, pre, x, hpre, hw', hsame ▸ hx⟩

theorem stays_of_grown (h : ∀ pid, Grown disk disk' (base root clients pid)) :
    Stays root clients disk disk' :=
  fun pid pre x _ hw => h pid pre x hw

theorem made_settled {done : List Bytes} (h : Relies root clients disk pid (.making done [])) :
    Settled disk (base root clients pid) (way clients pid).dropLast := by
  rw [way_dropLast]
  obtain ⟨hcuts, hdone⟩ := h
  rw [List.append_nil] at hcuts
  by_cases hpath : cacheParent (clients pid).c.path = []
  · rw [hpath]
    exact ⟨[], _, List.nil_prefix, rfl, .inr rfl⟩
  · exact hdone _ (hcuts ▸ self_mem_cuts hpath)

theorem reopen_spec (hfresh : ∀ pid, Unused s.disk (base root clients pid) new)
    (h : Settled s.disk (base root clients pid) (way clients pid).dropLast) :
    ∃ p disk', s.reopen root clients pid new = { s.goto pid p with disk := disk' } ∧
      (∀ pid, Grown s.disk disk' (base root clients pid)) ∧ Relies root clients disk' pid p ∧
        ∀ fd, p ≠ .holding fd := by
  have hgrown : ∀ pid', Grown s.disk
      (openCreate s.disk (base root clients pid) new (lockPath (clients pid).c)).2
        (base root clients pid') :=
    fun pid' => openCreate_grown (hfresh pid')
  unfold State.reopen
  split
  · rename_i fd disk' ho
    rw [ho] at hgrown
    exact ⟨_, disk', rfl, hgrown, openCreate_ok (hfresh pid) ho, nofun⟩
  · rename_i e disk' ho
    rw [ho] at hgrown
    obtain ⟨n, hway⟩ := @way_eq clients pid
    have hne : way clients pid ≠ [] := by simp [hway]
    obtain ⟨rfl, ⟨-, hmissing⟩ | hblocked⟩ := openCreate_error hne ho
    · exact absurd h hmissing
    · exact ⟨_, s.disk, rfl, hgrown, hblocked, nofun⟩

/-- What one call does: the disk grows, the process relies on what is there, and a lock is taken
only if it is free. -/
theorem next_spec (hfresh : ∀ pid, Unused s.disk (base root clients pid) new)
    (h : Inv root clients s) :
    ∃ p disk' locks, s.next root clients pid new =
      { s.goto pid p with disk := disk', locks := locks } ∧
      (∀ pid, Grown s.disk disk' (base root clients pid)) ∧ Relies root clients disk' pid p ∧
        (locks = s.locks ∧ (∀ fd, p = .holding fd → s.procs pid = p) ∨
          (∃ fd, s.locks fd = none ∧ p = .holding fd ∧
            locks = Function.update s.locks fd (some pid)) ∨
            ∃ fd, s.procs pid = .holding fd ∧ p = .ended ∧
              locks = Function.update s.locks fd none) := by
  have hrelies := h.relies pid
  have hstay : s = { s.goto pid (s.procs pid) with disk := s.disk, locks := s.locks } := by
    rw [State.goto, Function.update_eq_self]
  unfold State.next
  cases hp : s.procs pid with
  | opening =>
    dsimp only
    have hgrown : ∀ pid', Grown s.disk
        (openCreate s.disk (base root clients pid) new (lockPath (clients pid).c)).2
          (base root clients pid') :=
      fun pid' => openCreate_grown (hfresh pid')
    obtain ⟨n, hway⟩ := @way_eq clients pid
    have hne : way clients pid ≠ [] := by simp [hway]
    split
    · rename_i fd disk' ho
      rw [ho] at hgrown
      exact ⟨_, disk', s.locks, rfl, hgrown, openCreate_ok (hfresh pid) ho, .inl ⟨rfl, nofun⟩⟩
    · rename_i disk' ho
      rw [ho] at hgrown
      exact ⟨_, disk', s.locks, rfl, hgrown, ⟨(mkdirP_cacheParent _).symm, nofun⟩,
        .inl ⟨rfl, nofun⟩⟩
    · rename_i e disk' hmissing ho
      rw [ho] at hgrown
      obtain ⟨rfl, ⟨rfl, -⟩ | hblocked⟩ := openCreate_error hne ho
      · exact absurd rfl hmissing
      · exact ⟨_, s.disk, s.locks, rfl, hgrown, hblocked, .inl ⟨rfl, nofun⟩⟩
  | making done left =>
    rw [hp] at hrelies
    cases left with
    | nil =>
      obtain ⟨p, disk', heq, hgrown, hnow, hnot⟩ := reopen_spec hfresh (made_settled hrelies)
      exact ⟨p, disk', s.locks, heq, hgrown, hnow, .inl ⟨rfl, fun fd hfd => absurd hfd (hnot fd)⟩⟩
    | cons dir left =>
      have hgrown : ∀ pid', Grown s.disk (mkdir s.disk (base root clients pid) new dir)
          (base root clients pid') :=
        fun pid' => mkdir_grown (hfresh pid')
      refine ⟨_, _, s.locks, rfl, hgrown, ⟨by rw [hrelies.1, List.append_assoc]; rfl, ?_⟩,
        .inl ⟨rfl, nofun⟩⟩
      intro made hmade
      rcases List.mem_append.mp hmade with hbefore | hlast
      · exact (hrelies.2 made hbefore).grown (hgrown pid)
      obtain rfl := List.mem_singleton.mp hlast
      rcases cuts_chain hrelies.1 with hnil | ⟨cut, hcut, hsame | hup⟩
      · refine mkdir_settled (hfresh pid) ?_
        rw [hnil]
        exact ⟨[], _, List.nil_prefix, rfl, .inr rfl⟩
      · exact hsame ▸ (hrelies.2 cut hcut).grown (hgrown pid)
      · exact mkdir_settled (hfresh pid) (hup ▸ hrelies.2 cut hcut)
  | locking fd =>
    rw [hp] at hrelies hstay
    dsimp only
    split
    · exact ⟨_, s.disk, s.locks, hstay, fun _ => .refl, hrelies, .inl ⟨rfl, nofun⟩⟩
    · rename_i hfree
      exact ⟨.holding fd, s.disk, _, rfl, fun _ => .refl, hrelies,
        .inr (.inl ⟨fd, hfree, rfl, rfl⟩)⟩
  | holding fd =>
    refine ⟨.ended, s.disk, _, ?_, fun _ => .refl, trivial, .inr (.inr ⟨fd, rfl, rfl, rfl⟩)⟩
    rw [State.close, hp]
    rfl
  | failed e | ended =>
    rw [hp] at hrelies hstay
    exact ⟨_, s.disk, s.locks, hstay, fun _ => .refl, hrelies, .inl ⟨rfl, nofun⟩⟩

theorem start_inv (disk : Disk) : Inv root clients { disk := disk } := ⟨fun _ => trivial, nofun⟩

theorem Inv.goto {p : Proc} {locks : Ino → Option Pid} (h : Inv root clients s)
    (hs : Stays root clients s.disk disk') (hp : Relies root clients disk' pid p)
    (hlocked : ∀ pid' fd, Function.update s.procs pid p pid' = .holding fd → locks fd = some pid') :
    Inv root clients { s.goto pid p with disk := disk', locks := locks } where
  relies pid' := by
    by_cases hpid : pid' = pid
    · subst hpid
      simpa [State.goto] using hp
    · simpa [State.goto, Function.update_of_ne hpid] using (h.relies pid').stays hs
  locked := hlocked

theorem Inv.released {fd : Ino} (h : Inv root clients s)
    (hfd : s.procs pid = .holding fd) {fd' : Ino}
    (hp : Function.update s.procs pid .ended pid' = .holding fd') :
    Function.update s.locks fd none fd' = some pid' := by
  by_cases hpid : pid' = pid
  · subst hpid
    rw [Function.update_self] at hp
    cases hp
  · rw [Function.update_of_ne hpid] at hp
    have hlocks := h.locked pid' fd' hp
    have hne : fd' ≠ fd := by
      rintro rfl
      exact hpid (Option.some.inj (hlocks.symm.trans (h.locked pid fd' hfd)))
    rw [Function.update_of_ne hne, hlocks]

theorem next_inv (hfresh : ∀ pid, Unused s.disk (base root clients pid) new)
    (h : Inv root clients s) : Inv root clients (s.next root clients pid new) := by
  obtain ⟨p, disk', locks, heq, hgrown, hrelies, hlocks⟩ :=
    @next_spec root clients s pid new hfresh h
  rw [heq]
  refine h.goto (stays_of_grown hgrown) hrelies fun pid' fd' hp => ?_
  rcases hlocks with ⟨rfl, hsame⟩ | ⟨fd, hfree, rfl, rfl⟩ | ⟨fd, hfd, rfl, rfl⟩
  · by_cases hpid : pid' = pid
    · subst hpid
      rw [Function.update_self] at hp
      exact h.locked pid' fd' ((hsame fd' hp).trans hp)
    · rw [Function.update_of_ne hpid] at hp
      exact h.locked pid' fd' hp
  · by_cases hpid : pid' = pid
    · subst hpid
      rw [Function.update_self] at hp
      obtain rfl := Proc.holding.inj hp
      exact Function.update_self ..
    · rw [Function.update_of_ne hpid] at hp
      have hlocks := h.locked pid' fd' hp
      have hne : fd' ≠ fd := by
        rintro rfl
        exact absurd (hfree.symm.trans hlocks) nofun
      rw [Function.update_of_ne hne, hlocks]
  · exact h.released hfd hp

theorem close_inv (h : Inv root clients s) : Inv root clients (s.close pid) := by
  have hstays : Stays root clients s.disk s.disk := stays_of_grown fun _ => .refl
  unfold State.close
  split
  · rename_i fd hfd
    exact h.goto hstays trivial fun pid' fd' hp => h.released hfd hp
  · refine h.goto hstays trivial fun pid' fd' hp => ?_
    by_cases hpid : pid' = pid
    · subst hpid
      rw [Function.update_self] at hp
      cases hp
    · rw [Function.update_of_ne hpid] at hp
      exact h.locked pid' fd' hp

theorem step_inv (h : Inv root clients s) (hs : Step root clients s s') : Inv root clients s' := by
  cases hs with
  | call pid new hfresh => exact next_inv hfresh h
  | other disk' hstays => exact ⟨fun pid => (h.relies pid).stays hstays, h.locked⟩
  | killed pid => exact close_inv h

theorem reach_inv (h : Reach root clients disk s) : Inv root clients s := by
  induction h with
  | refl => exact start_inv disk
  | tail _ hs ih => exact step_inv ih hs

/-- From the first use of a cache on: a process is turned away only if something else than a
directory is in the way of its lock file, processes with the same lock file have opened the same
inode, and at most one of them holds the lock. -/
theorem one_lock_a_slot (h : Reach root clients disk s) :
    (∀ pid e, s.procs pid = .failed e → e ≠ .noent ∧ Blocked root clients s.disk pid) ∧
    ∀ pid pid' fd fd', base root clients pid = base root clients pid' →
      way clients pid = way clients pid' →
      s.procs pid ∈ [.locking fd, .holding fd] → s.procs pid' ∈ [.locking fd', .holding fd'] →
        fd = fd' ∧ (s.procs pid = .holding fd → s.procs pid' = .holding fd' → pid = pid') := by
  have hinv := reach_inv h
  have hopened : ∀ pid fd, s.procs pid ∈ [.locking fd, .holding fd] →
      walk s.disk (base root clients pid) (way clients pid) = some fd := by
    intro pid fd hp
    have hrelies := hinv.relies pid
    rcases List.mem_pair.mp hp with hp | hp <;>
    · rw [hp] at hrelies
      exact hrelies.1
  refine ⟨fun pid e hp => ?_, fun pid pid' fd fd' hbase hway hp hp' => ?_⟩
  · have hrelies := hinv.relies pid
    rw [hp] at hrelies
    exact hrelies
  · have hfd := hopened pid fd hp
    rw [hbase, hway, hopened pid' fd' hp'] at hfd
    obtain rfl := Option.some.inj hfd
    refine ⟨rfl, fun hholds hholds' => ?_⟩
    exact Option.some.inj ((hinv.locked pid _ hholds).symm.trans (hinv.locked pid' _ hholds'))

end Runs

section Contention
variable {disk : Disk} {k d : Ino} {n path : Bytes}

structure Bounded (disk : Disk) (k : Ino) : Prop where
  none : ∀ x, k ≤ x → disk x = none
  entry : ∀ d n y, entry disk d n = some y → y < k

theorem Bounded.unused {b : Ino} (h : Bounded disk k) (hb : b < k) : Unused disk b k :=
  ⟨h.none k le_rfl, fun d n hn => Nat.lt_irrefl k (h.entry d n k hn), Nat.ne_of_lt hb⟩

theorem Bounded.succ (h : Bounded disk k) : Bounded disk (k + 1) :=
  ⟨fun x hx => h.none x (Nat.le_of_succ_le hx),
    fun d n y hn => Nat.lt_succ_of_lt (h.entry d n y hn)⟩

theorem Bounded.add (h : Bounded disk k) {object : Object Ino Bytes Unit} (hd : isDir disk d = true)
    (hobject : ∀ m y, object.entry m = some y → y ≤ k) : Bounded (add disk d n k object)
    (k + 1) := by
  obtain ⟨entries, hs⟩ := exists_entries hd
  have hdk : d < k := Nat.lt_of_not_le fun hle => by simp [h.none d hle] at hs
  rw [add_eq hs (h.none k le_rfl)]
  refine ⟨fun x hx => ?_, fun x m y hm => Nat.lt_succ_of_le ?_⟩
  · rw [Function.update_of_ne (Nat.ne_of_gt (Nat.lt_trans hdk hx)),
      Function.update_of_ne (Nat.ne_of_gt hx)]
    exact h.none x (Nat.le_of_succ_le hx)
  · by_cases hxd : x = d
    · subst hxd
      rw [entry_dir (Function.update_self ..)] at hm
      by_cases hmn : m = n
      · subst hmn
        rw [Function.update_self] at hm
        exact (Option.some.inj hm).ge
      · rw [Function.update_of_ne hmn] at hm
        exact (h.entry x m y ((entry_dir hs).trans hm)).le
    · rw [Directories.entry, Function.update_of_ne hxd] at hm
      by_cases hxk : x = k
      · rw [hxk, Function.update_self] at hm
        exact hobject m y hm
      · rw [Function.update_of_ne hxk] at hm
        exact (h.entry x m y hm).le

theorem Bounded.mkdir {b : Ino} (h : Bounded disk k) : Bounded (mkdir disk b k path) (k + 1) := by
  unfold FirstUse.mkdir
  split
  · exact h.succ
  · split
    · exact h.succ
    · rename_i d hd
      split_ifs
      · obtain ⟨entries, hs⟩ := exists_entries (resolve_ok hd).2
        have hdk : d < k := Nat.lt_of_not_le fun hle => by simp [h.none d hle] at hs
        refine h.add (resolve_ok hd).2 fun m y hm => ?_
        simp only [emptyDir, Object.entry] at hm
        split_ifs at hm <;> obtain rfl := Option.some.inj hm
        · exact le_rfl
        · exact hdk.le
      · exact h.succ

theorem Bounded.openCreate {b : Ino} (h : Bounded disk k) :
    Bounded (openCreate disk b k path).2 (k + 1) := by
  unfold FirstUse.openCreate
  split
  · exact h.succ
  · split
    · exact h.succ
    · rename_i d hd
      split
      · exact h.succ
      · exact h.add (resolve_ok hd).2 nofun

variable {root : Ino} {clients : Pid → Client} {s : State} {pid : Pid}

theorem next_bounded (h : Bounded s.disk k) : Bounded (s.next root clients pid k).disk (k + 1) := by
  have hopen : Bounded (openCreate s.disk (base root clients pid) k (lockPath (clients pid).c)).2
      (k + 1) :=
    h.openCreate
  unfold State.next State.reopen
  split
  · split <;> rename_i ho <;> rw [ho] at hopen <;> exact hopen
  · exact h.mkdir
  · split <;> rename_i ho <;> rw [ho] at hopen <;> exact hopen
  · split <;> exact h.succ
  · unfold State.close
    split <;> exact h.succ
  · exact h.succ
  · exact h.succ

def calls (root : Ino) (clients : Pid → Client) : State → Ino → List Pid → State
  | s, _, [] => s
  | s, k, pid :: pids => calls root clients (s.next root clients pid k) (k + 1) pids

theorem calls_reach (hbase : ∀ pid, base root clients pid < k) (h : Bounded s.disk k)
    (pids : List Pid) :
    Relation.ReflTransGen (Step root clients) s (calls root clients s k pids) := by
  induction pids generalizing s k with
  | nil => exact .refl
  | cons pid pids ih =>
    have hcall : Step root clients s (s.next root clients pid k) :=
      .call pid k fun pid => h.unused (hbase pid)
    exact .head hcall (ih (fun pid => Nat.lt_succ_of_lt (hbase pid)) (next_bounded h))

def bare : Disk := fun x => if x = 0 then some (emptyDir 0 0) else none

theorem bare_bounded : Bounded bare 1 := by
  refine ⟨fun x hx => if_neg (Nat.ne_of_gt hx), fun d n y hn => ?_⟩
  obtain ⟨object, hd, hn⟩ := Option.bind_eq_some_iff.mp hn
  rw [bare] at hd
  split_ifs at hd
  obtain rfl := Option.some.inj hd
  simp only [emptyDir, Object.entry] at hn
  split_ifs at hn <;> obtain rfl := Option.some.inj hn <;> exact Nat.one_pos

def newcomer : Client :=
  ⟨{ path := [SLASH, 99, SLASH, 107], workdir := [], key := [107], identity := [] }, by decide, 0⟩

def contended : State := calls 0 (fun _ => newcomer) { disk := bare } 1 [0, 1, 0, 1, 0, 1, 0]

theorem one_lock_a_slot_contended : contended.procs 0 = .holding 5 ∧
    contended.procs 1 = .locking 5 ∧ ∀ pid fd, contended.procs pid = .holding fd → pid = 0 := by
  have hbase : ∀ pid, base 0 (fun _ => newcomer) pid < 1 := fun _ => Nat.one_pos
  have hreach : Reach 0 (fun _ => newcomer) bare contended := calls_reach hbase bare_bounded _
  have hfirst : contended.procs 0 = .holding 5 := by decide
  refine ⟨hfirst, by decide, fun pid fd hp => ?_⟩
  obtain ⟨rfl, hone⟩ := (one_lock_a_slot hreach).2 pid 0 fd 5 rfl rfl (by simp [hp])
    (by simp [hfirst])
  exact hone hp hfirst

end Contention

end Hacman.FirstUse
