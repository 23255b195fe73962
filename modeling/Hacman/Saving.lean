import Hacman.Machine
import Hacman.RecordFile

/-!
# Saving while others save and load

Any number of processes inside `hm_cache_save` and `hm_cache_load`, one system call at a
time. A name stands for a file, and a file keeps its bytes under whatever name it has; a
process that has opened a file keeps it whatever becomes of the name.
-/

namespace Hacman.Saving
open Octets Util Cache Reading RecordFile Machine

section Model

abbrev Pid := Fin (2 ^ 31)

abbrev Ino := Nat

/-- `hm_cache_save` appends the process to the path in an array of `HM_PATH_MAX + 32` bytes. -/
def tempPath (path : Bytes) (pid : Pid) : Bytes :=
  let o := appendStr (HM_PATH_MAX + 32) [] path
  let o := appendStr (HM_PATH_MAX + 32) o (ascii ".tmp.")
  appendLong (HM_PATH_MAX + 32) o pid

/-- The call that a process makes next. `writing` has written `written` bytes, and `failing`
closes the file after a write that failed; `seen` is what the file of a load held when it was
opened. -/
inductive Proc
  | idle
  | opening (c : Slot) (r : Record)
  | writing (c : Slot) (r : Record) (fd : Ino) (written : Nat)
  | failing (c : Slot) (r : Record) (fd : Ino)
  | closing (c : Slot) (r : Record) (fd : Ino)
  | replacing (c : Slot) (r : Record) (fd : Ino)
  | removing (c : Slot) (r : Record)
  | looking (c : Slot)
  | reading (c : Slot) (fd : Ino) (f : Fill) (seen : Bytes)

structure Return where
  slot : Slot
  record : Record
  rc : Int

structure Load where
  slot : Slot
  record : Record

structure State where
  names : Bytes → Option Ino
  data : Ino → Bytes
  fresh : Ino
  procs : Pid → Proc := fun _ => .idle
  calls : List (Slot × Record) := []
  returned : List Return := []
  loaded : List Load := []

/-- A call of a process; a system call of it that goes well, or not; a write or a read of so
much; a signal in the middle of one; the process is killed. -/
inductive Event
  | save (c : Slot) (r : Record)
  | load (c : Slot)
  | next
  | fails
  | write (n : Nat)
  | read (n : Nat)
  | interrupted
  | killed

namespace State
variable (s : State) (pid : Pid)

def content (path : Bytes) : Option Bytes := (s.names path).map s.data

def goto (p : Proc) : State := { s with procs := Function.update s.procs pid p }

def returns (c : Slot) (r : Record) (rc : Int) : State :=
  { s.goto pid .idle with returned := s.returned ++ [⟨c, r, rc⟩] }

def loads (c : Slot) (r : Record) : State :=
  { s.goto pid .idle with loaded := s.loaded ++ [⟨c, r⟩] }

def openTemp (c : Slot) (r : Record) : State :=
  match s.names (tempPath c.path pid) with
  | some ino =>
    { s.goto pid (.writing c r ino 0) with data := Function.update s.data ino [] }
  | none =>
    { s.goto pid (.writing c r s.fresh 0) with
      names := Function.update s.names (tempPath c.path pid) (some s.fresh)
      data := Function.update s.data s.fresh []
      fresh := s.fresh + 1 }

def rename (c : Slot) (r : Record) : Option State :=
  (s.names (tempPath c.path pid)).map fun ino =>
    { s.returns pid c r 0 with
      names := Function.update (Function.update s.names (tempPath c.path pid) none) c.path
        (some ino) }

def unlink (c : Slot) (r : Record) : State :=
  { s.returns pid c r (-1) with names := Function.update s.names (tempPath c.path pid) none }

/-- At the file's offset, with zeros before it if the file has become shorter. -/
def writeAt (fd : Ino) (offset : Nat) (chunk : Bytes) : State :=
  let old := s.data fd
  let bytes := old.take offset ++ List.replicate (offset - old.length) 0 ++ chunk ++
    old.drop (offset + chunk.length)
  { s with data := Function.update s.data fd bytes }

def next : Option State :=
  match s.procs pid with
  | .idle => none
  | .opening c r => some (s.openTemp pid c r)
  | .writing c r fd written =>
    if written < (recordBytes c.identity r).length then none
    else some (s.goto pid (.closing c r fd))
  | .failing c r _ => some (s.goto pid (.removing c r))
  | .closing c r fd => some (s.goto pid (.replacing c r fd))
  | .replacing c r _ => s.rename pid c r
  | .removing c r => some (s.unlink pid c r)
  | .looking c =>
    match s.names c.path with
    | none => some (s.loads pid c (hmCacheLoad c.identity none))
    | some ino => some (s.goto pid (.reading c ino {} (s.data ino)))
  | .reading c _ f _ =>
    if f.status = .done then some (s.loads pid c (parseRecord c.identity f.buf)) else none

/-- The result of `close` and `unlink` is not looked at. -/
def fails : Option State :=
  match s.procs pid with
  | .idle => none
  | .opening c r => some (s.returns pid c r (-1))
  | .writing c r fd written =>
    if written < (recordBytes c.identity r).length then some (s.goto pid (.failing c r fd))
    else none
  | .failing c r _ => some (s.goto pid (.removing c r))
  | .closing c r fd => some (s.goto pid (.replacing c r fd))
  | .replacing c r _ => some (s.goto pid (.removing c r))
  | .removing c r => some (s.returns pid c r (-1))
  | .looking _ => some (s.goto pid .idle)
  | .reading _ _ _ _ => some (s.goto pid .idle)

def write (n : Nat) : Option State :=
  match s.procs pid with
  | .writing c r fd written =>
    let record := recordBytes c.identity r
    let chunk := (record.drop written).take n
    if written < record.length then
      some ((s.writeAt fd written chunk).goto pid (.writing c r fd (written + chunk.length)))
    else none
  | _ => none

/-- At least one byte comes, unless the file has ended. -/
def read (n : Nat) : Option State :=
  match s.procs pid with
  | .reading c fd f seen =>
    (fill.room f).map fun room =>
      let chunk := ((s.data fd).drop f.buf.length).take (min (n + 1) room)
      s.goto pid (.reading c fd (fill.step f (.data chunk)) seen)
  | _ => none

end State

/-- The record paths of one cache have one length, that of the directory, a slash and a key, and
`path` is an array of `HM_PATH_MAX + 1` bytes. -/
def ofCache (length : Nat) (c : Slot) : Bool := c.path.length = length && length ≤ HM_PATH_MAX

def step (length : Nat) (s : State) : Pid × Event → Option State
  | (pid, .save c r) =>
    if s.procs pid matches .idle && ofCache length c then
      some { s.goto pid (.opening c r) with calls := s.calls ++ [(c, r)] }
    else none
  | (pid, .load c) =>
    if s.procs pid matches .idle && ofCache length c then some (s.goto pid (.looking c)) else none
  | (pid, .next) => s.next pid
  | (pid, .fails) => s.fails pid
  | (pid, .write n) => s.write pid n
  | (pid, .read n) => s.read pid n
  | (pid, .interrupted) =>
    match s.procs pid with
    | .writing _ _ _ _ | .reading _ _ _ _ => some s
    | _ => none
  | (pid, .killed) => some (s.goto pid .idle)

end Model

section Names

theorem tempPath_eq {path : Bytes} (h : path.length ≤ HM_PATH_MAX) (pid : Pid) :
    tempPath path pid = path ++ ascii ".tmp." ++ decimal pid := by
  have hdigits := decimal_length_le pid
  have htmp : (ascii ".tmp.").length = 5 := rfl
  have h₁ : appendStr (HM_PATH_MAX + 32) [] path = path :=
    appendStr_fits (HM_PATH_MAX + 32) (by rw [List.length_nil]; omega)
  have h₂ : appendStr (HM_PATH_MAX + 32) path (ascii ".tmp.") = path ++ ascii ".tmp." :=
    appendStr_fits (HM_PATH_MAX + 32) (by omega)
  rw [tempPath, h₁, h₂, appendLong, appendStr_fits]
  rw [List.length_append]
  omega

theorem decimal_inj {a b : Nat} (ha : a < 2 ^ 31) (hb : b < 2 ^ 31) (h : decimal a = decimal b) :
    a = b := by
  have hmax : LONG_MAX = 2 ^ 63 - 1 := rfl
  have h₁ := parseEpoch_decimal (v := a) (by omega)
  have h₂ := parseEpoch_decimal (v := b) (by omega)
  rw [h] at h₁
  omega

variable {length : Nat} {c c' : Slot} {pid pid' : Pid}

theorem ofCache_iff : ofCache length c = true ↔ c.path.length = length ∧ length ≤ HM_PATH_MAX := by
  simp [ofCache]

theorem tempPath_length (pid : Pid) (h : ofCache length c = true) :
    length < (tempPath c.path pid).length := by
  obtain ⟨rfl, hmax⟩ := ofCache_iff.mp h
  have htmp : (ascii ".tmp.").length = 5 := rfl
  rw [tempPath_eq hmax, List.length_append, List.length_append]
  omega

theorem tempPath_inj (h : ofCache length c = true) (h' : ofCache length c' = true)
    (heq : tempPath c.path pid = tempPath c'.path pid') : c.path = c'.path ∧ pid = pid' := by
  obtain ⟨rfl, hmax⟩ := ofCache_iff.mp h
  obtain ⟨hlen, -⟩ := ofCache_iff.mp h'
  rw [tempPath_eq hmax, tempPath_eq (hlen ▸ hmax), List.append_assoc, List.append_assoc] at heq
  obtain ⟨hpath, hrest⟩ := List.append_inj heq hlen.symm
  exact ⟨hpath, Fin.ext (decimal_inj pid.isLt pid'.isLt (List.append_cancel_left hrest))⟩

end Names

section Safety
variable (length : Nat) (s₀ : State)

structure Start (s : State) : Prop where
  fresh : ∀ name ino, s.names name = some ino → ino < s.fresh
  single : ∀ a b ino, s.names a = some ino → s.names b = some ino → a = b
  idle : ∀ pid, s.procs pid = .idle
  calls : s.calls = []
  returned : s.returned = []
  loaded : s.loaded = []

def Written (s : State) (path : Bytes) (x : Option Bytes) : Prop :=
  x = s₀.content path ∨ ∃ c r, (c, r) ∈ s.calls ∧ c.path = path ∧
    x = some (recordBytes c.identity r)

/-- Nobody will write to the file any more. -/
def Frozen (s : State) (ino : Ino) : Prop :=
  ino < s.fresh ∧ ∀ name, s.names name = some ino → name.length = length

def Good (s : State) (pid : Pid) : Proc → Prop
  | .idle => True
  | .opening c r => ofCache length c = true ∧ (c, r) ∈ s.calls
  | .writing c r fd written => ofCache length c = true ∧ (c, r) ∈ s.calls ∧
    s.names (tempPath c.path pid) = some fd ∧ written ≤ (recordBytes c.identity r).length ∧
      s.data fd = (recordBytes c.identity r).take written
  | .failing c r _ => ofCache length c = true ∧ (c, r) ∈ s.calls
  | .closing c r fd => ofCache length c = true ∧ (c, r) ∈ s.calls ∧
    s.names (tempPath c.path pid) = some fd ∧ s.data fd = recordBytes c.identity r
  | .replacing c r fd => ofCache length c = true ∧ (c, r) ∈ s.calls ∧
    s.names (tempPath c.path pid) = some fd ∧ s.data fd = recordBytes c.identity r
  | .removing c r => ofCache length c = true ∧ (c, r) ∈ s.calls
  | .looking c => ofCache length c = true
  | .reading c fd f seen => ofCache length c = true ∧ Frozen length s fd ∧ s.data fd = seen ∧
    Written s₀ s c.path (some seen) ∧ Filled seen f (seen.drop f.buf.length) ∧
      (f.status = .reading → f.buf.length + 1 < HM_RECORD_MAX)

structure Inv (s : State) : Prop where
  fresh : ∀ name ino, s.names name = some ino → ino < s.fresh
  single : ∀ a b ino, s.names a = some ino → s.names b = some ino → a = b
  record : ∀ path, path.length = length → Written s₀ s path (s.content path)
  procs : ∀ pid, Good length s₀ s pid (s.procs pid)
  loaded : ∀ l ∈ s.loaded, ∃ x, Written s₀ s l.slot.path x ∧
    l.record = hmCacheLoad l.slot.identity x

variable {length s₀} {s s' : State} {pid : Pid}

theorem Start.inv (h : Start s₀) : Inv length s₀ s₀ where
  fresh := h.fresh
  single := h.single
  record _ _ := .inl rfl
  procs pid := h.idle pid ▸ trivial
  loaded l hl := by
    rw [h.loaded] at hl
    cases hl

theorem Written.mono {path : Bytes} {x : Option Bytes} (h : Written s₀ s path x)
    (hcalls : ∀ call ∈ s.calls, call ∈ s'.calls) : Written s₀ s' path x := by
  rcases h with h | ⟨c, r, hmem, hpath, hx⟩
  · exact .inl h
  · exact .inr ⟨c, r, hcalls _ hmem, hpath, hx⟩

/-- A change that touches neither a process's temporary names nor the bytes behind them, and
unfreezes nothing, leaves the process what it relies on. -/
theorem Good.frame {p : Proc} (h : Good length s₀ s pid p)
    (hcalls : ∀ call ∈ s.calls, call ∈ s'.calls)
    (hnames : ∀ c, ofCache length c = true →
      s'.names (tempPath c.path pid) = s.names (tempPath c.path pid))
    (hdata : ∀ c ino, ofCache length c = true → s.names (tempPath c.path pid) = some ino →
      s'.data ino = s.data ino)
    (hfrozen : ∀ ino, Frozen length s ino → Frozen length s' ino ∧ s'.data ino = s.data ino) :
    Good length s₀ s' pid p := by
  cases p with
  | idle => trivial
  | opening c r => exact ⟨h.1, hcalls _ h.2⟩
  | writing c r fd written =>
    obtain ⟨hc, hmem, hname, hle, htake⟩ := h
    exact ⟨hc, hcalls _ hmem, (hnames c hc).trans hname, hle, (hdata c fd hc hname).trans htake⟩
  | failing c r fd => exact ⟨h.1, hcalls _ h.2⟩
  | closing c r fd | replacing c r fd =>
    obtain ⟨hc, hmem, hname, hbytes⟩ := h
    exact ⟨hc, hcalls _ hmem, (hnames c hc).trans hname, (hdata c fd hc hname).trans hbytes⟩
  | removing c r => exact ⟨h.1, hcalls _ h.2⟩
  | looking c => exact h
  | reading c fd f seen =>
    obtain ⟨hc, hfd, hseen, hwritten, hfilled⟩ := h
    obtain ⟨hfd', hsame⟩ := hfrozen fd hfd
    exact ⟨hc, hfd', hsame.trans hseen, hwritten.mono hcalls, hfilled⟩

theorem Inv.same {p : Proc} (h : Inv length s₀ s) (hnames : s'.names = s.names)
    (hdata : s'.data = s.data)
    (hfresh : s'.fresh = s.fresh) (hprocs : s'.procs = Function.update s.procs pid p)
    (hcalls : ∀ call ∈ s.calls, call ∈ s'.calls) (hp : Good length s₀ s' pid p)
    (hloaded : ∀ l ∈ s'.loaded, l ∈ s.loaded ∨ ∃ x, Written s₀ s l.slot.path x ∧
      l.record = hmCacheLoad l.slot.identity x) : Inv length s₀ s' where
  fresh name ino := by
    rw [hnames, hfresh]
    exact h.fresh name ino
  single a b ino := by
    rw [hnames]
    exact h.single a b ino
  record path hpath := by
    rw [State.content, hnames, hdata]
    exact (h.record path hpath).mono hcalls
  procs pid' := by
    rw [hprocs]
    by_cases hpid : pid' = pid
    · subst hpid
      rwa [Function.update_self]
    · rw [Function.update_of_ne hpid]
      refine (h.procs pid').frame hcalls (fun c _ => by rw [hnames]) (fun _ _ _ _ => by rw [hdata])
        fun ino hino => ⟨?_, by rw [hdata]⟩
      rwa [Frozen, hnames, hfresh]
  loaded l hl := by
    rcases hloaded l hl with hl | ⟨x, hx, hrecord⟩
    · obtain ⟨x, hx, hrecord⟩ := h.loaded l hl
      exact ⟨x, hx.mono hcalls, hrecord⟩
    · exact ⟨x, hx.mono hcalls, hrecord⟩

/-- A step that touches no name but a temporary one of the process, and no bytes but those
behind it or of a new file. -/
theorem Inv.own {p : Proc} {c : Slot} (h : Inv length s₀ s) (hc : ofCache length c = true)
    (s' : State) (hnames : ∀ name, name ≠ tempPath c.path pid → s'.names name = s.names name)
    (htemp : ∀ ino, s'.names (tempPath c.path pid) = some ino →
      s.names (tempPath c.path pid) = some ino ∨ ino = s.fresh ∧ s.fresh < s'.fresh)
    (hdata : ∀ ino, ino < s.fresh → s.names (tempPath c.path pid) ≠ some ino →
      s'.data ino = s.data ino)
    (hfresh : s.fresh ≤ s'.fresh) (hprocs : s'.procs = Function.update s.procs pid p)
    (hcalls : s'.calls = s.calls) (hloaded : s'.loaded = s.loaded) (hp : Good length s₀ s' pid p) :
    Inv length s₀ s' ∧ ∀ path, path.length = length → s'.content path = s.content path := by
  have hlong := tempPath_length pid hc
  have hrecord : ∀ path, path.length = length → s'.content path = s.content path := by
    intro path hpath
    have hne : path ≠ tempPath c.path pid := by
      rintro rfl
      omega
    rw [State.content, State.content, hnames path hne]
    cases hino : s.names path with
    | none => rfl
    | some ino =>
      rw [Option.map_some, Option.map_some, hdata ino (h.fresh path ino hino)]
      exact fun heq => hne (h.single _ _ ino hino heq)
  have horigin : ∀ name ino, s'.names name = some ino → s.names name = some ino ∨
      name = tempPath c.path pid ∧ ino = s.fresh ∧ s.fresh < s'.fresh := by
    intro name ino hname
    by_cases hne : name = tempPath c.path pid
    · subst hne
      exact (htemp ino hname).imp_right fun hnew => ⟨rfl, hnew⟩
    · exact .inl (hnames name hne ▸ hname)
  refine ⟨⟨fun name ino hname => ?_, fun a b ino ha hb => ?_, fun path hpath => ?_, fun pid' => ?_,
    fun l hl => ?_⟩, hrecord⟩
  · rcases horigin name ino hname with hold | ⟨-, rfl, hlt⟩
    · exact Nat.lt_of_lt_of_le (h.fresh _ ino hold) hfresh
    · exact hlt
  · rcases horigin a ino ha with holda | ⟨rfl, hnew, -⟩
    · rcases horigin b ino hb with holdb | ⟨-, hnew, -⟩
      · exact h.single a b ino holda holdb
      · exact absurd hnew (Nat.ne_of_lt (h.fresh a ino holda))
    · rcases horigin b ino hb with holdb | ⟨hb, -, -⟩
      · exact absurd hnew (Nat.ne_of_lt (h.fresh b ino holdb))
      · exact hb.symm
  · rw [hrecord path hpath]
    exact (h.record path hpath).mono fun call hcall => hcalls ▸ hcall
  · rw [hprocs]
    by_cases hpid : pid' = pid
    · subst hpid
      rwa [Function.update_self]
    · rw [Function.update_of_ne hpid]
      have hother : ∀ c', ofCache length c' = true → tempPath c'.path pid' ≠ tempPath c.path pid :=
        fun c' hc' heq => hpid (tempPath_inj hc' hc heq).2
      refine (h.procs pid').frame (fun call hcall => hcalls ▸ hcall)
        (fun c' hc' => hnames _ (hother c' hc')) (fun c' ino hc' hino => ?_) fun ino hino =>
          ⟨⟨?_, ?_⟩, ?_⟩
      · exact hdata ino (h.fresh _ ino hino) fun heq => hother c' hc' (h.single _ _ ino hino heq)
      · exact Nat.lt_of_lt_of_le hino.1 hfresh
      · intro name hname
        rcases horigin name ino hname with hold | ⟨-, hnew, -⟩
        · exact hino.2 name hold
        · exact absurd hnew (Nat.ne_of_lt hino.1)
      · refine hdata ino hino.1 fun heq => ?_
        have hlen := hino.2 _ heq
        omega
  · obtain ⟨x, hx, hr⟩ := h.loaded l (hloaded ▸ hl)
    exact ⟨x, hx.mono fun call hcall => hcalls ▸ hcall, hr⟩

def Quiet (length : Nat) (s s' : State) : Prop :=
  ∀ path, path.length = length → s'.content path = s.content path

def Installs (length : Nat) (s s' : State) : Prop :=
  ∃ c r, s'.returned = s.returned ++ [⟨c, r, 0⟩] ∧ s'.content c.path =
    some (recordBytes c.identity r) ∧
    ∀ path, path.length = length → path ≠ c.path → s'.content path = s.content path

def Settled (length : Nat) (s s' : State) : Prop :=
  Quiet length s s' ∧ (s'.returned = s.returned ∨ ∃ c r, s'.returned = s.returned ++ [⟨c, r, -1⟩]) ∨
    Installs length s s'

theorem Inv.goto {p : Proc} (h : Inv length s₀ s) (hp : Good length s₀ s pid p) :
    Inv length s₀ (s.goto pid p) ∧ Settled length s (s.goto pid p) := by
  have hgood : Good length s₀ (s.goto pid p) pid p :=
    hp.frame (fun _ => id) (fun _ _ => rfl) (fun _ _ _ _ => rfl) fun _ hino => ⟨hino, rfl⟩
  exact ⟨h.same rfl rfl rfl rfl (fun _ => id) hgood fun _ => .inl,
    .inl ⟨fun _ _ => rfl, .inl rfl⟩⟩

theorem Inv.returns (h : Inv length s₀ s) (c : Slot) (r : Record) :
    Inv length s₀ (s.returns pid c r (-1)) ∧ Settled length s (s.returns pid c r (-1)) :=
  ⟨h.same rfl rfl rfl rfl (fun _ => id) trivial fun _ => .inl,
    .inl ⟨fun _ _ => rfl, .inr ⟨c, r, rfl⟩⟩⟩

theorem Inv.loads {c : Slot} {r : Record} {x : Option Bytes} (h : Inv length s₀ s)
    (hx : Written s₀ s c.path x) (hr : r = hmCacheLoad c.identity x) :
    Inv length s₀ (s.loads pid c r) ∧ Settled length s (s.loads pid c r) := by
  refine ⟨h.same rfl rfl rfl rfl (fun _ => id) trivial fun l hl => ?_,
    .inl ⟨fun _ _ => rfl, .inl rfl⟩⟩
  rcases List.mem_append.mp hl with hl | hl
  · exact .inl hl
  · rw [List.mem_singleton.mp hl]
    exact .inr ⟨x, hx, hr⟩

theorem Inv.openTemp {c : Slot} {r : Record} (h : Inv length s₀ s) (hc : ofCache length c = true)
    (hmem : (c, r) ∈ s.calls) :
    Inv length s₀ (s.openTemp pid c r) ∧ Settled length s (s.openTemp pid c r) := by
  unfold State.openTemp
  cases hino : s.names (tempPath c.path pid) with
  | some ino =>
    have hdata : ∀ ino', ino' < s.fresh → s.names (tempPath c.path pid) ≠ some ino' →
        Function.update s.data ino [] ino' = s.data ino' := by
      intro ino' _ hne
      refine Function.update_of_ne ?_ _ _
      rintro rfl
      exact hne hino
    obtain ⟨hinv, hquiet⟩ := h.own hc
      { s.goto pid (.writing c r ino 0) with data := Function.update s.data ino [] }
      (fun _ _ => rfl) (fun _ => .inl) hdata (Nat.le_refl _) rfl rfl rfl
      ⟨hc, hmem, hino, Nat.zero_le _, Function.update_self _ _ _⟩
    exact ⟨hinv, .inl ⟨hquiet, .inl rfl⟩⟩
  | none =>
    have htemp : ∀ ino, Function.update s.names (tempPath c.path pid) (some s.fresh)
        (tempPath c.path pid) = some ino → ino = s.fresh ∧ s.fresh < s.fresh + 1 := by
      intro ino hino
      rw [Function.update_self] at hino
      exact ⟨(Option.some.inj hino).symm, Nat.lt_succ_self _⟩
    obtain ⟨hinv, hquiet⟩ := h.own hc
      { s.goto pid (.writing c r s.fresh 0) with
        names := Function.update s.names (tempPath c.path pid) (some s.fresh)
        data := Function.update s.data s.fresh []
        fresh := s.fresh + 1 }
      (fun _ hne => Function.update_of_ne hne _ _) (fun ino hino' => .inr (htemp ino hino'))
      (fun _ hlt _ => Function.update_of_ne (Nat.ne_of_lt hlt) _ _) (Nat.le_succ _) rfl rfl rfl
      ⟨hc, hmem, Function.update_self _ _ _, Nat.zero_le _, Function.update_self _ _ _⟩
    exact ⟨hinv, .inl ⟨hquiet, .inl rfl⟩⟩

theorem writeAt_take {fd : Ino} {record : Bytes} {written : Nat} (hle : written ≤ record.length)
    (h : s.data fd = record.take written) (n : Nat) :
    (s.writeAt fd written ((record.drop written).take n)).data fd =
      record.take (written + ((record.drop written).take n).length) := by
  have hlen : (record.take written).length = written := List.length_take_of_le hle
  have hbehind : (record.take written).drop (written + ((record.drop written).take n).length) =
      [] :=
    List.drop_eq_nil_of_le (by omega)
  have hchunk : (record.drop written).take ((record.drop written).take n).length =
      (record.drop written).take n := by
    rw [List.length_take, ← List.take_eq_take_min]
  rw [State.writeAt]
  dsimp only
  rw [Function.update_self, h, hlen, hbehind, Nat.sub_self, List.replicate_zero, List.append_nil,
    List.append_nil, List.take_take, Nat.min_self, List.take_add, hchunk]

theorem Inv.write {c : Slot} {r : Record} {fd : Ino} {written : Nat} (h : Inv length s₀ s)
    (hgood : Good length s₀ s pid (.writing c r fd written)) (n : Nat) :
    let chunk := ((recordBytes c.identity r).drop written).take n
    let s' := (s.writeAt fd written chunk).goto pid (.writing c r fd (written + chunk.length))
    Inv length s₀ s' ∧ Settled length s s' := by
  obtain ⟨hc, hmem, hname, hle, htake⟩ := hgood
  dsimp only
  generalize hchunk : ((recordBytes c.identity r).drop written).take n = chunk
  have hdata : ∀ ino, ino < s.fresh → s.names (tempPath c.path pid) ≠ some ino →
      (s.writeAt fd written chunk).data ino = s.data ino := by
    intro ino _ hne
    refine Function.update_of_ne ?_ _ _
    rintro rfl
    exact hne hname
  have hlen : written + chunk.length ≤ (recordBytes c.identity r).length := by
    rw [← hchunk, List.length_take, List.length_drop]
    omega
  obtain ⟨hinv, hquiet⟩ := h.own hc
    ((s.writeAt fd written chunk).goto pid (.writing c r fd (written + chunk.length)))
    (fun _ _ => rfl) (fun _ => .inl) hdata (Nat.le_refl _) rfl rfl rfl
    ⟨hc, hmem, hname, hlen, hchunk ▸ writeAt_take hle htake n⟩
  exact ⟨hinv, .inl ⟨hquiet, .inl rfl⟩⟩

theorem Inv.unlink {c : Slot} {r : Record} (h : Inv length s₀ s) (hc : ofCache length c = true) :
    Inv length s₀ (s.unlink pid c r) ∧ Settled length s (s.unlink pid c r) := by
  have htemp : ∀ ino, Function.update s.names (tempPath c.path pid) none (tempPath c.path pid) ≠
      some ino := by
    intro ino hino
    rw [Function.update_self] at hino
    cases hino
  obtain ⟨hinv, hquiet⟩ := h.own hc (s.unlink pid c r)
    (fun _ hne => Function.update_of_ne hne _ _) (fun ino hino => absurd hino (htemp ino))
    (fun _ _ _ => rfl) (Nat.le_refl _) rfl rfl rfl trivial
  exact ⟨hinv, .inl ⟨hquiet, .inr ⟨c, r, rfl⟩⟩⟩

theorem Inv.rename {c : Slot} {r : Record} {fd : Ino} (h : Inv length s₀ s)
    (hgood : Good length s₀ s pid (.replacing c r fd)) {s' : State}
    (hs : s.rename pid c r = some s') :
    Inv length s₀ s' ∧ Settled length s s' := by
  obtain ⟨hc, hmem, hname, hbytes⟩ := hgood
  rw [State.rename, hname, Option.map_some, Option.some.injEq] at hs
  subst hs
  have hlong := tempPath_length pid hc
  have hpath := (ofCache_iff.mp hc).1
  have hne : ∀ path, path.length = length → path ≠ tempPath c.path pid := by
    rintro path hp rfl
    omega
  have hself : Function.update (Function.update s.names (tempPath c.path pid) none) c.path (some fd)
      c.path = some fd := Function.update_self _ _ _
  have hgone : Function.update (Function.update s.names (tempPath c.path pid) none) c.path (some fd)
      (tempPath c.path pid) = none := by
    rw [Function.update_of_ne (hne c.path hpath).symm, Function.update_self]
  have hother : ∀ name, name ≠ c.path → name ≠ tempPath c.path pid →
      Function.update (Function.update s.names (tempPath c.path pid) none) c.path (some fd) name =
        s.names name := by
    intro name hne hne'
    rw [Function.update_of_ne hne, Function.update_of_ne hne']
  generalize Function.update (Function.update s.names (tempPath c.path pid) none) c.path (some fd) =
    names at hself hgone hother ⊢
  -- The file has the record's name now, and no other.
  have horigin : ∀ name ino, names name = some ino →
      name = c.path ∧ ino = fd ∨ s.names name = some ino ∧ ino ≠ fd := by
    intro name ino hino
    by_cases hpath : name = c.path
    · subst hpath
      exact .inl ⟨rfl, Option.some.inj (hino.symm.trans hself)⟩
    · have htemp : name ≠ tempPath c.path pid := by
        rintro rfl
        rw [hgone] at hino
        cases hino
      rw [hother name hpath htemp] at hino
      refine .inr ⟨hino, ?_⟩
      rintro rfl
      exact htemp (h.single _ _ _ hino hname)
  have hrest : ∀ path, path.length = length → path ≠ c.path →
      ({ s.returns pid c r 0 with names := names } : State).content path = s.content path := by
    intro path hp hpc
    rw [State.content, State.content]
    dsimp only
    rw [hother path hpc (hne path hp)]
    rfl
  have hrecord : ({ s.returns pid c r 0 with names := names } : State).content c.path =
      some (recordBytes c.identity r) := by
    rw [State.content]
    dsimp only
    rw [hself, Option.map_some]
    exact congrArg some hbytes
  refine ⟨⟨fun name ino hino => ?_, fun a b ino ha hb => ?_, fun path hp => ?_, fun pid' => ?_,
    h.loaded⟩, .inr ⟨c, r, rfl, hrecord, hrest⟩⟩
  · rcases horigin name ino hino with ⟨-, rfl⟩ | ⟨hold, -⟩
    · exact h.fresh _ _ hname
    · exact h.fresh name ino hold
  · rcases horigin a ino ha with ⟨rfl, rfl⟩ | ⟨holda, hfd⟩
    · rcases horigin b ino hb with ⟨rfl, -⟩ | ⟨-, hfd⟩
      · rfl
      · exact absurd rfl hfd
    · rcases horigin b ino hb with ⟨-, rfl⟩ | ⟨holdb, -⟩
      · exact absurd rfl hfd
      · exact h.single a b ino holda holdb
  · by_cases hpc : path = c.path
    · subst hpc
      exact .inr ⟨c, r, hmem, rfl, hrecord⟩
    · rw [hrest path hp hpc]
      exact h.record path hp
  · change Good length s₀ _ pid' (Function.update s.procs pid .idle pid')
    by_cases hpid : pid' = pid
    · rw [hpid, Function.update_self]
      trivial
    · rw [Function.update_of_ne hpid]
      refine (h.procs pid').frame (fun _ => id) (fun c' hc' => ?_) (fun _ _ _ _ => rfl)
        fun ino hino => ⟨⟨hino.1, fun name hname => ?_⟩, rfl⟩
      · refine hother _ (fun heq => ?_) fun heq => hpid (tempPath_inj hc' hc heq).2
        have hlong' := tempPath_length pid' hc'
        rw [heq] at hlong'
        omega
      · rcases horigin name ino hname with ⟨rfl, -⟩ | ⟨hold, -⟩
        · exact hpath
        · exact hino.2 name hold

/-- A file that is opened by a record's name is not written to again. -/
theorem Inv.opened {c : Slot} {ino : Ino} (h : Inv length s₀ s) (hc : ofCache length c = true)
    (hino : s.names c.path = some ino) :
    Good length s₀ s pid (.reading c ino {} (s.data ino)) := by
  have hpath := (ofCache_iff.mp hc).1
  have hcontent : s.content c.path = some (s.data ino) := by
    rw [State.content, hino, Option.map_some]
  refine ⟨hc, ⟨h.fresh _ _ hino, fun name hname => ?_⟩, rfl, hcontent ▸ h.record _ hpath,
    Filled.start _, fun _ => by decide⟩
  rw [h.single _ _ _ hname hino]
  exact hpath

theorem Good.read {c : Slot} {fd : Ino} {f : Fill} {seen : Bytes} {room : Nat}
    (h : Good length s₀ s pid (.reading c fd f seen)) (hroom : fill.room f = some room) (n : Nat) :
    Good length s₀ s pid (.reading c fd
      (fill.step f (.data (((s.data fd).drop f.buf.length).take (min (n + 1) room)))) seen) := by
  obtain ⟨hc, hfd, hseen, hwritten, hfilled, hmore⟩ := h
  have hstatus : f.status = .reading := by
    by_contra hs
    simp [fill, hs] at hroom
  have hlt := hmore hstatus
  have hroom' : room = HM_RECORD_MAX - f.buf.length - 1 := by
    simp only [fill, hstatus, if_true, Option.some.injEq] at hroom
    exact hroom.symm
  rw [hseen]
  have hnext := hfilled.step hroom
    (Gives.take _ (Nat.lt_min.mpr ⟨Nat.succ_pos n, by omega⟩) (Nat.min_le_right (n + 1) room))
  generalize (seen.drop f.buf.length).take (min (n + 1) room) = chunk at hnext ⊢
  refine ⟨hc, hfd, hseen, hwritten, ?_, fun hreading => ?_⟩
  · have hwhole := hnext.whole
    generalize (seen.drop f.buf.length).drop (min (n + 1) room) = rest at hnext hwhole
    generalize fill.step f (.data chunk) = f' at hnext hwhole ⊢
    rw [← hwhole, List.drop_left, hwhole]
    exact hnext
  · cases chunk with
    | nil => simp [fill, hstatus, Fill.read] at hreading
    | cons b chunk =>
      simp only [fill, hstatus, if_true, Fill.read] at hreading ⊢
      split_ifs at hreading with hstop
      rw [Bool.or_eq_true, decide_eq_true_eq, not_or, Nat.not_le] at hstop
      exact hstop.1

theorem step_inv {e : Pid × Event} (h : Inv length s₀ s) (hs : step length s e = some s') :
    Inv length s₀ s' ∧ Settled length s s' := by
  obtain ⟨pid, e⟩ := e
  have hgood := h.procs pid
  cases e with
  | save c r =>
    simp only [step, Option.ite_none_right_eq_some, Bool.and_eq_true, Option.some.injEq] at hs
    obtain ⟨⟨-, hc⟩, rfl⟩ := hs
    have hcalls : ∀ call ∈ s.calls, call ∈ s.calls ++ [(c, r)] :=
      fun call hcall => List.mem_append_left _ hcall
    have hmem : (c, r) ∈ s.calls ++ [(c, r)] := List.mem_append_right _ (List.mem_singleton_self _)
    exact ⟨h.same rfl rfl rfl rfl hcalls ⟨hc, hmem⟩ fun _ => .inl, .inl ⟨fun _ _ => rfl, .inl rfl⟩⟩
  | load c =>
    simp only [step, Option.ite_none_right_eq_some, Bool.and_eq_true, Option.some.injEq] at hs
    obtain ⟨⟨-, hc⟩, rfl⟩ := hs
    exact h.goto hc
  | next =>
    simp only [step, State.next] at hs
    cases hproc : s.procs pid with
    | idle => simp [hproc] at hs
    | opening c r =>
      rw [hproc] at hs hgood
      obtain rfl := Option.some.inj hs
      exact h.openTemp hgood.1 hgood.2
    | writing c r fd written =>
      rw [hproc] at hs hgood
      dsimp only at hs
      split_ifs at hs with hmore
      obtain rfl := Option.some.inj hs
      obtain ⟨hc, hmem, hname, -, htake⟩ := hgood
      rw [List.take_of_length_le (Nat.not_lt.mp hmore)] at htake
      exact h.goto ⟨hc, hmem, hname, htake⟩
    | failing c r fd =>
      rw [hproc] at hs hgood
      obtain rfl := Option.some.inj hs
      exact h.goto hgood
    | closing c r fd =>
      rw [hproc] at hs hgood
      obtain rfl := Option.some.inj hs
      exact h.goto hgood
    | replacing c r fd =>
      rw [hproc] at hs hgood
      exact h.rename hgood hs
    | removing c r =>
      rw [hproc] at hs hgood
      obtain rfl := Option.some.inj hs
      exact h.unlink hgood.1
    | looking c =>
      rw [hproc] at hs hgood
      dsimp only at hs
      cases hino : s.names c.path with
      | none =>
        rw [hino] at hs
        obtain rfl := Option.some.inj hs
        have hnone := h.record c.path (ofCache_iff.mp hgood).1
        rw [State.content, hino, Option.map_none] at hnone
        exact h.loads hnone rfl
      | some ino =>
        rw [hino] at hs
        obtain rfl := Option.some.inj hs
        exact h.goto (h.opened hgood hino)
    | reading c fd f seen =>
      rw [hproc] at hs hgood
      dsimp only at hs
      split_ifs at hs with hdone
      obtain rfl := Option.some.inj hs
      obtain ⟨hc, -, -, hwritten, hfilled, -⟩ := hgood
      exact h.loads hwritten (hfilled.parse c.identity hdone)
  | fails =>
    simp only [step, State.fails] at hs
    cases hproc : s.procs pid with
    | idle => simp [hproc] at hs
    | opening c r | removing c r =>
      rw [hproc] at hs
      obtain rfl := Option.some.inj hs
      exact h.returns c r
    | writing c r fd written =>
      rw [hproc] at hs hgood
      dsimp only at hs
      split_ifs at hs
      obtain rfl := Option.some.inj hs
      exact h.goto ⟨hgood.1, hgood.2.1⟩
    | failing c r fd | closing c r fd =>
      rw [hproc] at hs hgood
      obtain rfl := Option.some.inj hs
      exact h.goto hgood
    | replacing c r fd =>
      rw [hproc] at hs hgood
      obtain rfl := Option.some.inj hs
      exact h.goto ⟨hgood.1, hgood.2.1⟩
    | looking c | reading c fd f seen =>
      rw [hproc] at hs
      obtain rfl := Option.some.inj hs
      exact h.goto trivial
  | write n =>
    simp only [step, State.write] at hs
    cases hproc : s.procs pid with
    | writing c r fd written =>
      rw [hproc] at hs hgood
      dsimp only at hs
      split_ifs at hs
      obtain rfl := Option.some.inj hs
      exact h.write hgood n
    | _ => simp [hproc] at hs
  | read n =>
    simp only [step, State.read] at hs
    cases hproc : s.procs pid with
    | reading c fd f seen =>
      rw [hproc] at hs hgood
      obtain ⟨room, hroom, rfl⟩ := Option.map_eq_some_iff.mp hs
      exact h.goto (hgood.read hroom n)
    | _ => simp [hproc] at hs
  | interrupted =>
    have hsame : s' = s := by
      simp only [step] at hs
      cases hproc : s.procs pid <;> simp_all
    rw [hsame]
    exact ⟨h, .inl ⟨fun _ _ => rfl, .inl rfl⟩⟩
  | killed =>
    obtain rfl := Option.some.inj hs
    exact h.goto trivial

/-- A record path holds what it held before or the record of one save, and so does a file that is
being read or has been loaded; a step changes a record only by returning 0 from the save whose
record is then in place. -/
structure Atomic (length : Nat) (s₀ s : State) : Prop where
  record : ∀ path, path.length = length → Written s₀ s path (s.content path)
  reading : ∀ pid c fd f seen, s.procs pid = .reading c fd f seen →
    s.data fd = seen ∧ Written s₀ s c.path (some seen) ∧ f.buf <+: seen
  loaded : ∀ l ∈ s.loaded, ∃ x, Written s₀ s l.slot.path x ∧
    l.record = hmCacheLoad l.slot.identity x
  steps : ∀ e s', step length s e = some s' → Settled length s s'

/-- Saves are all or nothing in every state of every run. -/
theorem save_atomic (h₀ : Start s₀) (h : Reach (step length) s₀ s) : Atomic length s₀ s := by
  have hinv : Inv length s₀ s := h.invariant (I := Inv length s₀) h₀.inv
    fun _ _ _ hs hstep => (step_inv hs hstep).1
  refine ⟨hinv.record, fun pid c fd f seen hproc => ?_, hinv.loaded,
    fun e s' hstep => (step_inv hinv hstep).2⟩
  have hgood := hinv.procs pid
  rw [hproc] at hgood
  obtain ⟨-, -, hseen, hwritten, hfilled, -⟩ := hgood
  exact ⟨hseen, hwritten, _, hfilled.whole⟩

def oldRecord : State where
  names path := if path = ascii "/c/url-00" then some 0
    else if path = ascii "/c/url-00.tmp.7" then some 1 else none
  data ino := if ino = 0 then recordBytes (ascii "siml:0 hacman:1") sampleRecord
    else ascii "#hacman"
  fresh := 2

/-- A save in two writes, while another process reads the old record. -/
def saveWhileRead : List (Pid × Event) :=
  [(7, .save (sampleSlot (ascii "siml:0 hacman:1")) {}), (7, .next), (7, .write 10),
    (9, .load (sampleSlot (ascii "siml:0 hacman:1"))), (9, .next), (9, .read 5), (7, .interrupted),
    (7, .write 100), (7, .next), (7, .next), (7, .next), (9, .read 100), (9, .next)]

theorem start_oldRecord : Start oldRecord := by
  have hnames : ∀ name ino, oldRecord.names name = some ino →
      name = ascii "/c/url-00" ∧ ino = 0 ∨ name = ascii "/c/url-00.tmp.7" ∧ ino = 1 := by
    intro name ino h
    simp only [oldRecord] at h
    split_ifs at h with hrecord htemp
    · exact .inl ⟨hrecord, (Option.some.inj h).symm⟩
    · exact .inr ⟨htemp, (Option.some.inj h).symm⟩
  refine ⟨fun name ino h => ?_, fun a b ino ha hb => ?_, fun _ => rfl, rfl, rfl, rfl⟩
  · rcases hnames name ino h with ⟨-, rfl⟩ | ⟨-, rfl⟩ <;> decide
  · rcases hnames a ino ha with ⟨rfl, rfl⟩ | ⟨rfl, rfl⟩ <;>
      rcases hnames b _ hb with ⟨rfl, h⟩ | ⟨rfl, h⟩ <;> first | rfl | cases h

theorem save_atomic_run : ∃ s, run (step 9) oldRecord saveWhileRead = some s ∧
    s.content (ascii "/c/url-00") = some (recordBytes (ascii "siml:0 hacman:1") {}) ∧
      s.loaded.map (·.record) = [{ sampleRecord with known := true }] ∧ Atomic 9 oldRecord s := by
  have hresult : (run (step 9) oldRecord saveWhileRead).map
      (fun s => (s.content (ascii "/c/url-00"), s.loaded.map (·.record))) =
        some (some (recordBytes (ascii "siml:0 hacman:1") {}),
          [{ sampleRecord with known := true }]) := by
    decide +kernel
  obtain ⟨s, hs, heq⟩ := Option.map_eq_some_iff.mp hresult
  obtain ⟨hcontent, hloaded⟩ := Prod.mk.inj heq
  exact ⟨s, hs, hcontent, hloaded, save_atomic start_oldRecord (Reach.refl.run hs)⟩

end Safety

end Hacman.Saving
