import Hacman.Format
import Hacman.ProcessTree

/-!
# The processes above this one

`/proc/<pid>/stat` names the parent of a process behind a command name that may contain
anything. The parser goes by the last `)`, and the walk from parent to parent stops at
process 1, at a process that is gone, or after 256 rounds.
-/

namespace Hacman.Ancestry
open Octets Interaction Util Cache Main ProcessTree

section Parser

def PAREN : UInt8 := 41
def STAT_BUF : Nat := 512

/-- What stands behind the pointer that `strrchr` returns. -/
def strrchr (ch : UInt8) (s : Bytes) : Option Bytes :=
  if ch ∈ s then some (before ch s.reverse).reverse else none

/-- The loop over the digits; nothing if the number overflows. -/
def readPid : Nat → Bytes → Option Nat
  | ppid, [] => some ppid
  | ppid, b :: s =>
    if isDigit b then
      if (ppid * 10 + digitVal b : Int) ≤ LONG_MAX then readPid (ppid * 10 + digitVal b) s else none
    else some ppid

def parseStat (buf : Bytes) : Option Int :=
  match strrchr PAREN (cstr buf) with
  | some (b :: _ :: b' :: s) => if b = SPACE ∧ b' = SPACE then (readPid 0 s).map Int.ofNat
    else some (-1)
  | _ => some (-1)

def statPath (pid : Int) : Bytes :=
  appendStr 48 (appendLong 48 (appendStr 48 [] (ascii "/proc/")) pid) (ascii "/stat")

/-- `files` is what can be opened and read; nothing comes out if a number overflows. -/
def parentPid (files : Bytes → Option Bytes) (pid : Int) : Option Int :=
  match files (statPath pid) with
  | none => some (-1)
  | some text => if text.take (STAT_BUF - 1) = [] then some (-1)
    else parseStat (text.take (STAT_BUF - 1))

end Parser

section Table

/-- What `/proc/<pid>/stat` shows of a process. -/
structure Process where
  comm : Bytes
  comm_le : comm.length ≤ 64
  comm_zero : (0 : UInt8) ∉ comm
  state : UInt8
  letter : 65 ≤ state ∧ state ≤ 90 ∨ 97 ≤ state ∧ state ≤ 122
  ppid : Nat
  ppid_lt : ppid < 2 ^ 31
  fields : List Int

structure Processes where
  process : Nat → Option Process
  zero : process 0 = none
  init : ∀ p, process 1 = some p → p.ppid = 0
  pid_lt : ∀ pid, process pid ≠ none → pid < 2 ^ 31

def statTail (p : Process) : Bytes :=
  SPACE :: p.state :: SPACE :: (ascii (toString p.ppid) ++
    (p.fields.flatMap fun n => SPACE :: ascii (toString n)) ++ [LF])

def statText (pid : Nat) (p : Process) : Bytes :=
  ascii (toString pid) ++ ascii " (" ++ p.comm ++ PAREN :: statTail p

variable (f : Processes)

def Processes.files (path : Bytes) : Option Bytes :=
  (hmParseUlong ((path.drop 6).take (path.length - 11))).bind fun pid =>
    if path = statPath pid then (f.process pid).map (statText pid) else none

def Processes.tree : Tree := fun pid => (f.process pid).map Process.ppid

end Table

section Digits

theorem toString_revDigits (n : Nat) : ∃ fuel, n < 10 ^ fuel ∧ 0 < fuel ∧
    (revDigits fuel n).reverse = ascii (toString n) := by
  have hlt : n < 10 ^ (n + 1) := n.lt_succ_self.trans (Nat.lt_pow_self (by decide))
  exact ⟨n + 1, hlt, n.succ_pos, Format.revDigits_toString (n + 1) n hlt n.succ_pos⟩

theorem isDigit_toString (n : Nat) : ∀ b ∈ ascii (toString n), isDigit b = true := by
  obtain ⟨fuel, -, -, hrev⟩ := toString_revDigits n
  rw [← hrev]
  exact fun b hb => revDigits_isDigit fuel n b (List.mem_reverse.mp hb)

theorem digitsVal_toString (n : Nat) : digitsVal (ascii (toString n)) = n := by
  obtain ⟨fuel, hlt, hpos, hrev⟩ := toString_revDigits n
  rw [← hrev]
  exact digitsVal_revDigits fuel n hlt hpos

theorem length_toString {n fuel : Nat} (hn : n < 10 ^ fuel) (hf : 0 < fuel) :
    (ascii (toString n)).length ≤ fuel := by
  rw [← Format.revDigits_toString fuel n hn hf, List.length_reverse]
  exact revDigits_length_le fuel n

theorem mem_toString {v : Int} {b : UInt8} (hb : b ∈ ascii (toString v)) :
    isDigit b = true ∨ b = 45 := by
  by_cases hv : v < 0
  · rw [Format.toString_neg hv] at hb
    rcases List.mem_cons.mp hb with rfl | hb
    · exact .inr rfl
    · exact .inl (isDigit_toString _ b hb)
  · rw [Format.toString_nonneg (Int.not_lt.mp hv)] at hb
    exact .inl (isDigit_toString _ b hb)

theorem isDigit_ne {b : UInt8} (hb : isDigit b = true) : b ≠ 0 ∧ b ≠ PAREN := by
  refine ⟨?_, ?_⟩ <;> rintro rfl <;> revert hb <;> decide

end Digits

section Reading
variable {s d a : Bytes} {p : Process} {pid v : Nat} {f : Processes}

theorem strrchr_last {ch : UInt8} (hs : ch ∉ s) (a : Bytes) :
    strrchr ch (a ++ ch :: s) = some s := by
  have hmem : ch ∈ a ++ ch :: s := List.mem_append_right a List.mem_cons_self
  have hrev : (a ++ ch :: s).reverse = s.reverse ++ ch :: a.reverse := by simp
  rw [strrchr, if_pos hmem, hrev, before_append _ (mt List.mem_reverse.mp hs), List.reverse_reverse]

theorem le_foldl_digits (d : Bytes) (v : Nat) : v ≤ d.foldl (fun v b => v * 10 + digitVal b) v := by
  induction d generalizing v with
  | nil => exact le_rfl
  | cons b d ih =>
    have hstep := ih (v * 10 + digitVal b)
    rw [List.foldl_cons]
    omega

theorem readPid_digits (hd : ∀ b ∈ d, isDigit b = true) (v : Nat)
    (hv : ((d.foldl (fun v b => v * 10 + digitVal b) v : Nat) : Int) ≤ LONG_MAX) (s : Bytes) :
    readPid v (d ++ s) = readPid (d.foldl (fun v b => v * 10 + digitVal b) v) s := by
  induction d generalizing v with
  | nil => rfl
  | cons b d ih =>
    obtain ⟨hb, hd⟩ := List.forall_mem_cons.mp hd
    rw [List.foldl_cons] at hv ⊢
    have hstep := le_foldl_digits d (v * 10 + digitVal b)
    rw [List.cons_append, readPid, if_pos hb, if_pos (by omega)]
    exact ih hd _ hv

theorem readPid_toString {n : Nat} (hn : n < 2 ^ 31) (hs : ∀ b ∈ s.head?, isDigit b = false) :
    readPid 0 (ascii (toString n) ++ s) = some n := by
  have hval : (ascii (toString n)).foldl (fun v b => v * 10 + digitVal b) 0 = n :=
    digitsVal_toString n
  rw [readPid_digits (isDigit_toString n) 0 (by rw [hval, LONG_MAX]; omega), hval]
  cases s with
  | nil => rfl
  | cons b s =>
    rw [readPid, hs b rfl]
    rfl

theorem letter_ne (p : Process) : p.state ≠ 0 ∧ p.state ≠ PAREN := by
  have hletter := p.letter
  refine ⟨?_, ?_⟩ <;> intro h <;> rw [h] at hletter <;> revert hletter <;> decide

theorem statTail_bytes (p : Process) : ∀ b ∈ statTail p, b ≠ 0 ∧ b ≠ PAREN := by
  have hfields : ∀ b ∈ p.fields.flatMap fun n => SPACE :: ascii (toString n), b ≠ 0 ∧
      b ≠ PAREN := by
    intro b hb
    obtain ⟨n, -, hb⟩ := List.mem_flatMap.mp hb
    rcases List.mem_cons.mp hb with rfl | hb
    · decide
    · rcases mem_toString hb with hb | rfl
      · exact isDigit_ne hb
      · decide
  intro b hb
  simp only [statTail, List.mem_cons, List.mem_append, List.not_mem_nil, or_false] at hb
  rcases hb with rfl | rfl | rfl | (hb | hb) | rfl
  · decide
  · exact letter_ne p
  · decide
  · exact isDigit_ne (isDigit_toString _ b hb)
  · exact hfields b hb
  · decide

theorem statText_zero (pid : Nat) (p : Process) : (0 : UInt8) ∉ statText pid p := by
  intro hb
  simp only [statText, List.mem_append, List.mem_cons] at hb
  rcases hb with ((hb | hb) | hb) | hb | hb
  · exact (isDigit_ne (isDigit_toString pid 0 hb)).1 rfl
  · revert hb
    decide
  · exact p.comm_zero hb
  · revert hb
    decide
  · exact (statTail_bytes p 0 hb).1 rfl

theorem parseStat_text (hpid : pid < 2 ^ 31) (p : Process) :
    parseStat ((statText pid p).take (STAT_BUF - 1)) = some (p.ppid : Int) := by
  have hten : 2 ^ 31 < 10 ^ 10 := by decide
  have hpidlen := length_toString (hpid.trans hten) (by decide)
  have hppidlen := length_toString (p.ppid_lt.trans hten) (by decide)
  have hcomm := p.comm_le
  obtain ⟨front, hfront⟩ : ∃ front, front = ascii (toString pid) ++ ascii " (" ++ p.comm := ⟨_, rfl⟩
  obtain ⟨tail, htail⟩ : ∃ tail, tail = (p.fields.flatMap fun n => SPACE :: ascii (toString n)) ++
      [LF] := ⟨_, rfl⟩
  have hfrontlen : front.length ≤ 76 := by
    have htwo : (ascii " (").length = 2 := by decide
    rw [hfront, List.length_append, List.length_append, htwo]
    omega
  -- The cut at the size of the buffer goes through the fields behind the parent.
  have hcut : (statText pid p).take (STAT_BUF - 1) = front ++ PAREN :: (statTail p).take
      (510 - front.length) := by
    rw [statText, ← hfront, List.take_append, List.take_of_length_le (by rw [STAT_BUF]; omega),
      STAT_BUF, List.take_cons (by omega)]
    congr 3
    omega
  have hparts : (statTail p).take (510 - front.length) =
      SPACE :: p.state :: SPACE :: (ascii (toString p.ppid) ++
        tail.take (507 - front.length - (ascii (toString p.ppid)).length)) := by
    rw [statTail, List.append_assoc, ← htail, List.take_cons (by omega), List.take_cons (by omega),
      List.take_cons (by omega), List.take_append, List.take_of_length_le (by omega)]
    congr 5
    omega
  have hzero : (0 : UInt8) ∉ (statText pid p).take (STAT_BUF - 1) := fun h =>
    statText_zero pid p (List.mem_of_mem_take h)
  have hparen : PAREN ∉ (statTail p).take (510 - front.length) := fun h =>
    (statTail_bytes p PAREN (List.mem_of_mem_take h)).2 rfl
  have hhead : ∀ b ∈ tail.head?, isDigit b = false := by
    intro b hb
    cases hfields : p.fields with
    | nil =>
      rw [htail, hfields] at hb
      cases hb
      decide
    | cons n fields =>
      rw [htail, hfields] at hb
      cases hb
      decide
  rw [parseStat, cstr_of_notMem hzero, hcut, strrchr_last hparen, hparts]
  have hread := @readPid_toString (tail.take
    (507 - front.length - (ascii (toString p.ppid)).length)) p.ppid p.ppid_lt fun b hb => by
      rw [List.head?_take] at hb
      split_ifs at hb
      · cases hb
      · exact hhead b hb
  simp only [and_self, if_true, hread]
  rfl

theorem decimal_toString (hpid : pid < 2 ^ 31) : decimal pid = ascii (toString pid) :=
  Format.revDigits_toString 24 pid (hpid.trans (by decide)) (by decide)

theorem statPath_eq (hpid : pid < 2 ^ 31) :
    statPath pid = ascii "/proc/" ++ ascii (toString pid) ++ ascii "/stat" := by
  have hlen := length_toString (hpid.trans (by decide : 2 ^ 31 < 10 ^ 10)) (by decide)
  have hsix : (ascii "/proc/").length = 6 := by decide
  have hfive : (ascii "/stat").length = 5 := by decide
  have hstart : appendStr 48 [] (ascii "/proc/") = ascii "/proc/" := appendStr_fits 48 (by decide)
  have hnumber : appendStr 48 (ascii "/proc/") (ascii (toString pid)) =
      ascii "/proc/" ++ ascii (toString pid) :=
    appendStr_fits 48 (by rw [hsix]; omega)
  rw [statPath, appendLong, decimal_toString hpid, hstart, hnumber]
  exact appendStr_fits 48 (by rw [List.length_append, hsix, hfive]; omega)

theorem files_statPath (f : Processes) (hpid : pid < 2 ^ 31) :
    f.files (statPath pid) = (f.process pid).map (statText pid) := by
  have hnumber : ((statPath pid).drop 6).take ((statPath pid).length - 11) =
      ascii (toString pid) := by
    have hsix : (ascii "/proc/").length = 6 := by decide
    have hfive : (ascii "/stat").length = 5 := by decide
    rw [statPath_eq hpid, List.append_assoc, ← hsix, List.drop_left, List.length_append,
      List.length_append, hfive, hsix]
    have hsame : 6 + ((ascii (toString pid)).length + 5) - 11 = (ascii (toString pid)).length := by
      omega
    rw [hsame, List.take_left]
  have hparse : hmParseUlong (ascii (toString pid)) = some pid := by
    rw [← Format.revDigits_toString 24 pid (hpid.trans (by decide)) (by decide)]
    exact hmParseUlong_revDigits 24 pid (hpid.trans (by decide)) (by decide)
      (hpid.trans (by decide))
  rw [Processes.files, hnumber, hparse, Option.bind_some, if_pos rfl]

theorem parentPid_files (f : Processes) (hpid : pid < 2 ^ 31) :
    parentPid f.files pid = some (match f.process pid with | some p => p.ppid | none => -1) := by
  rw [parentPid, files_statPath f hpid]
  cases f.process pid with
  | none => rfl
  | some p =>
    have hne : (statText pid p).take (STAT_BUF - 1) ≠ [] := by
      rw [STAT_BUF, Ne, List.take_eq_nil_iff]
      simp [statText]
    dsimp only [Option.map_some]
    rw [if_neg hne, parseStat_text hpid p]

end Reading

section Walk
variable {f : Processes} {self cur : Nat} {pid : Int} {other : (r : Call) → r.Answer}

def Processes.getppid (f : Processes) (self : Nat) : Nat :=
  ((f.process self).map Process.ppid).getD 0

def kernel (f : Processes) (self : Nat) (other : (r : Call) → r.Answer) : Unit → (r : Call) →
    r.Answer × Unit
  | _, .getppid => ((f.getppid self : Int), ())
  | _, .parentPid m => ((parentPid f.files m).getD 0, ())
  | _, r => (other r, ())

def AtMost {α : Type} : Nat → P α → Prop
  | _, .done _ => True
  | 0, .ask _ _ => False
  | n + 1, .ask _ k => ∀ x, AtMost n (k x)

theorem isAncestorFrom_atMost (pid : Int) (depth : Nat) (cur : Int) :
    AtMost depth (isAncestorFrom pid depth cur) := by
  induction depth generalizing cur with
  | zero => trivial
  | succ depth ih =>
    rw [isAncestorFrom]
    split_ifs
    · trivial
    · trivial
    · trivial
    · exact fun (parent : Int) => ih parent

theorem isAncestor_atMost (pid : Int) : AtMost 257 (isAncestor pid) :=
  fun (parent : Int) => isAncestorFrom_atMost pid 256 parent

/-- `pid` is one of the first `depth` processes from `cur` upwards. -/
def Within (f : Processes) (depth cur : Nat) (pid : Int) : Prop :=
  ∃ n < depth, ∃ q, 0 < q ∧ f.tree.ancestor cur n = some q ∧ pid = q

theorem within_zero (f : Processes) (depth : Nat) (pid : Int) : ¬ Within f depth 0 pid := by
  rintro ⟨n, -, q, hpos, hq, -⟩
  cases n with
  | zero =>
    obtain rfl : 0 = q := Option.some.inj hq
    exact absurd hpos (Nat.lt_irrefl 0)
  | succ n =>
    rw [ancestor_succ, Processes.tree, f.zero] at hq
    cases hq

theorem within_succ {depth : Nat} : Within f (depth + 1) cur pid ↔
    (0 < cur ∧ pid = cur) ∨ ∃ p, f.process cur = some p ∧ Within f depth p.ppid pid := by
  constructor
  · rintro ⟨n, hn, q, hpos, hq, rfl⟩
    cases n with
    | zero =>
      obtain rfl : cur = q := Option.some.inj hq
      exact .inl ⟨hpos, rfl⟩
    | succ n =>
      rw [ancestor_succ] at hq
      obtain ⟨y, hy, hq⟩ := Option.bind_eq_some_iff.mp hq
      obtain ⟨p, hp, rfl⟩ := Option.map_eq_some_iff.mp hy
      exact .inr ⟨p, hp, n, Nat.lt_of_succ_lt_succ hn, q, hpos, hq, rfl⟩
  · rintro (⟨hpos, rfl⟩ | ⟨p, hp, n, hn, q, hpos, hq, rfl⟩)
    · exact ⟨0, depth.succ_pos, cur, hpos, rfl, rfl⟩
    · refine ⟨n + 1, Nat.succ_lt_succ hn, q, hpos, ?_, rfl⟩
      rw [ancestor_succ, Processes.tree, hp]
      exact hq

theorem isAncestorFrom_low {depth : Nat} {cur : Int} (h : cur ≤ 0) (w : Unit) :
    ((isAncestorFrom pid depth cur).eval (kernel f self other) w).1 = false := by
  cases depth with
  | zero => rfl
  | succ depth =>
    rw [isAncestorFrom, if_pos h]
    rfl

/-- The walk finds what is within its rounds. -/
theorem isAncestorFrom_eval (depth : Nat) (hcur : cur < 2 ^ 31) (w : Unit) :
    ((isAncestorFrom pid depth cur).eval (kernel f self other) w).1 = true ↔
    Within f depth cur pid := by
  induction depth generalizing cur w with
  | zero => exact iff_of_false Bool.false_ne_true fun ⟨n, hn, _⟩ => absurd hn (Nat.not_lt_zero n)
  | succ depth ih =>
    rw [within_succ, isAncestorFrom]
    by_cases hzero : cur = 0
    · subst hzero
      rw [if_pos (by decide)]
      refine iff_of_false Bool.false_ne_true ?_
      rintro (⟨hpos, -⟩ | ⟨p, hp, -⟩)
      · exact absurd hpos (Nat.lt_irrefl 0)
      · rw [f.zero] at hp
        cases hp
    · rw [if_neg (by omega)]
      by_cases hfound : (cur : Int) = pid
      · rw [if_pos hfound]
        exact iff_of_true rfl (.inl ⟨Nat.pos_of_ne_zero hzero, hfound.symm⟩)
      · rw [if_neg hfound]
        by_cases hinit : cur = 1
        · subst hinit
          rw [if_pos (by decide)]
          refine iff_of_false Bool.false_ne_true ?_
          rintro (⟨-, rfl⟩ | ⟨p, hp, hwithin⟩)
          · exact hfound rfl
          · rw [f.init p hp] at hwithin
            exact within_zero f depth pid hwithin
        · rw [if_neg (by omega)]
          have hnext : ((askParentPid cur >>= isAncestorFrom pid depth).eval
              (kernel f self other) w).1 =
              ((isAncestorFrom pid depth ((parentPid f.files cur).getD 0)).eval
                (kernel f self other) ()).1 := rfl
          rw [hnext, parentPid_files f hcur, Option.getD_some]
          cases hp : f.process cur with
          | none =>
            dsimp only
            rw [isAncestorFrom_low (by decide)]
            refine iff_of_false Bool.false_ne_true ?_
            rintro (⟨-, rfl⟩ | ⟨p, hp', -⟩)
            · exact hfound rfl
            · cases hp'
          | some p =>
            dsimp only
            rw [ih p.ppid_lt]
            constructor
            · exact fun hwithin => .inr ⟨p, rfl, hwithin⟩
            · rintro (⟨-, rfl⟩ | ⟨p', hp', hwithin⟩)
              · exact absurd rfl hfound
              · cases hp'
                exact hwithin

theorem getppid_lt (f : Processes) (self : Nat) : f.getppid self < 2 ^ 31 := by
  rw [Processes.getppid]
  cases f.process self with
  | none => decide
  | some p => exact p.ppid_lt

theorem within_getppid {depth : Nat} : Within f depth (f.getppid self) pid ↔
    ∃ n < depth, ∃ q, 0 < q ∧ f.tree.ancestor self (n + 1) = some q ∧ pid = q := by
  cases hself : f.process self with
  | none =>
    rw [Processes.getppid, hself]
    refine iff_of_false (within_zero f depth pid) ?_
    rintro ⟨n, -, q, -, hq, -⟩
    rw [ancestor_succ, Processes.tree, hself] at hq
    cases hq
  | some p =>
    have hparent : f.tree self = some p.ppid := by rw [Processes.tree, hself, Option.map_some]
    simp only [Within, Processes.getppid, hself, ancestor_succ f.tree self, hparent,
      Option.bind_some, Option.map_some, Option.getD_some]

theorem isAncestor_eval (pid : Int) (w : Unit) :
    ((isAncestor pid).eval (kernel f self other) w).1 = true ↔
      ∃ n < 256, ∃ q, 0 < q ∧ f.tree.ancestor self (n + 1) = some q ∧ pid = q := by
  rw [← within_getppid]
  exact isAncestorFrom_eval 256 (getppid_lt f self) ()

theorem heldByAncestor_run (w : Unit) : (heldByAncestor.eval (kernel f self other) w).1 =
    (other .getlk).bind fun holder =>
      if ((isAncestor holder).eval (kernel f self other) ()).1 then some holder else none := by
  have hprobe : askGetlk.eval (kernel f self other) w = (other .getlk, ()) := rfl
  rw [heldByAncestor, eval_bind, hprobe]
  cases other .getlk with
  | none => rfl
  | some holder =>
    dsimp only [Option.bind_some]
    rw [eval_bind]
    rfl

theorem heldByAncestor_eval (holder : Int) (w : Unit) :
    (heldByAncestor.eval (kernel f self other) w).1 = some holder ↔ other .getlk = some holder ∧
      ∃ n < 256, ∃ q, 0 < q ∧ f.tree.ancestor self (n + 1) = some q ∧ holder = q := by
  rw [heldByAncestor_run, Option.bind_eq_some_iff, ← @isAncestor_eval f self other holder ()]
  constructor
  · rintro ⟨pid, hpid, hfound⟩
    split_ifs at hfound with habove
    cases hfound
    exact ⟨hpid, habove⟩
  · rintro ⟨hpid, habove⟩
    exact ⟨holder, hpid, if_pos habove⟩

structure Read (f : Processes) (self : Nat) (other : (r : Call) → r.Answer) (pid : Int) : Prop where
  parent : ∀ q p, f.process q = some p → parentPid f.files q = some (p.ppid : Int)
  found : ((isAncestor pid).eval (kernel f self other) ()).1 = true ↔
    ∃ n < 256, ∃ q, 0 < q ∧ f.tree.ancestor self (n + 1) = some q ∧ pid = q
  ends : AtMost 257 (isAncestor pid)

/-- A command name cannot stand in for a parent, and a parent within 256 rounds is found. -/
theorem ancestry_read (f : Processes) (self : Nat) (other : (r : Call) → r.Answer) (pid : Int) :
    Read f self other pid where
  parent q p hp := by
    have hq : q < 2 ^ 31 := f.pid_lt q (by rw [hp]; exact Option.some_ne_none p)
    rw [parentPid_files f hq, hp]
  found := isAncestor_eval pid ()
  ends := isAncestor_atMost pid

end Walk

section Chains

def shell (ppid : Nat) (h : ppid < 2 ^ 31) : Process :=
  ⟨ascii ") S 99 (", by decide, by decide, 83, by decide, ppid, h, [-1, 34816]⟩

def deep : Processes where
  process pid := if h : 0 < pid ∧ pid ≤ 300 then some (shell (pid - 1) (by omega)) else none
  zero := rfl
  init p hp := by
    cases hp
    rfl
  pid_lt pid h := by
    by_contra hlt
    exact h (dif_neg (by omega))

example : parentPid deep.files 300 = some 299 := by decide +kernel

theorem deep_ancestor (n : Nat) (h : n < 300) : deep.tree.ancestor 300 n = some (300 - n) := by
  induction n with
  | zero => rfl
  | succ n ih =>
    have hparent : deep.tree (300 - n) = some (300 - n - 1) := by
      rw [Processes.tree, deep]
      dsimp only
      rw [dif_pos (by omega)]
      rfl
    rw [Tree.ancestor, ih (Nat.lt_of_succ_lt h), Option.bind_some, hparent]
    rfl

/-- Process 1 is above process 300, but too far up. -/
theorem deep_not_found : deep.tree.ancestor 300 299 = some 1 ∧
    ((isAncestor 1).eval (kernel deep 300 Requests.obliging) ()).1 = false := by
  refine ⟨deep_ancestor 299 (by decide), ?_⟩
  rw [Bool.eq_false_iff, Ne, isAncestor_eval]
  rintro ⟨n, hn, q, -, hq, hpid⟩
  rw [deep_ancestor (n + 1) (by omega), Option.some.injEq] at hq
  omega

end Chains

end Hacman.Ancestry
