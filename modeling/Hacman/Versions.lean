import Hacman.Check

/-!
# The version between two anchors

The search of `extract_version` reads the body by position. Here every read is checked: one
that leaves the body stops the search with nothing. It never does, and what it finds is the
first text between the anchors, trimmed and cut to the size of a marker.
-/

namespace Hacman.Versions
open Octets Util Check

section First

structure FirstAt (needle hay head rest : Bytes) : Prop where
  split : hay = head ++ needle ++ rest
  first : ∀ head' rest', hay = head' ++ needle ++ rest' → head.length ≤ head'.length

theorem FirstAt.unique {needle hay head head' rest rest' : Bytes} (h : FirstAt needle hay head rest)
    (h' : FirstAt needle hay head' rest') : head = head' ∧ rest = rest' := by
  have hlen := Nat.le_antisymm (h.first _ _ h'.split) (h'.first _ _ h.split)
  have heq := h.split.symm.trans h'.split
  rw [List.append_assoc, List.append_assoc] at heq
  obtain ⟨hhead, htail⟩ := List.append_inj heq hlen
  exact ⟨hhead, List.append_cancel_left htail⟩

theorem firstAt_nil {needle hay : Bytes} (h : needle <+: hay) :
    ∃ rest, FirstAt needle hay [] rest := by
  obtain ⟨rest, hrest⟩ := h
  exact ⟨rest, hrest.symm, fun _ _ _ => Nat.zero_le _⟩

theorem FirstAt.cons {needle hay head rest : Bytes} {ch : UInt8} (h : FirstAt needle hay head rest)
    (hno : ¬ needle <+: ch :: hay) : FirstAt needle (ch :: hay) (ch :: head) rest := by
  refine ⟨by rw [h.split]; rfl, fun head' rest' hsplit => ?_⟩
  cases head' with
  | nil => exact absurd ⟨rest', hsplit.symm⟩ hno
  | cons ch' head' =>
    have htail := (List.cons.inj hsplit).2
    exact Nat.succ_le_succ (h.first head' rest' htail)

theorem FirstAt.tail {needle hay head rest : Bytes} {ch : UInt8}
    (h : FirstAt needle (ch :: hay) head rest) (hno : ¬ needle <+: ch :: hay) :
    ∃ head', head = ch :: head' ∧ FirstAt needle hay head' rest := by
  cases head with
  | nil => exact absurd ⟨rest, h.split.symm⟩ hno
  | cons ch' head =>
    obtain ⟨rfl, hsplit⟩ := List.cons.inj h.split
    refine ⟨head, rfl, hsplit, fun head' rest' hsplit' => ?_⟩
    exact Nat.le_of_succ_le_succ (h.first (ch :: head') rest' (by rw [hsplit']; rfl))

theorem findSub_eq_some {needle hay : Bytes} {i : Nat} (hne : needle ≠ []) :
    findSub needle hay = some i ↔ ∃ head rest, FirstAt needle hay head rest ∧ head.length = i := by
  induction hay generalizing i with
  | nil =>
    refine ⟨fun h => (by cases h), ?_⟩
    rintro ⟨head, rest, h, -⟩
    have hlen := congrArg List.length h.split
    rw [List.length_append, List.length_append, List.length_nil] at hlen
    exact absurd (List.eq_nil_of_length_eq_zero (by omega)) hne
  | cons ch hay ih =>
    rw [findSub, if_neg hne]
    by_cases hpre : needle <+: ch :: hay
    · rw [if_pos (List.isPrefixOf_iff_prefix.mpr hpre)]
      obtain ⟨rest, hfirst⟩ := firstAt_nil hpre
      constructor
      · intro h
        exact ⟨[], rest, hfirst, Option.some.inj h⟩
      · rintro ⟨head, rest', h, rfl⟩
        rw [(h.unique hfirst).1]
        rfl
    · rw [if_neg (mt List.isPrefixOf_iff_prefix.mp hpre), Option.map_eq_some_iff]
      constructor
      · rintro ⟨j, hj, rfl⟩
        obtain ⟨head, rest, h, rfl⟩ := ih.mp hj
        exact ⟨ch :: head, rest, h.cons hpre, rfl⟩
      · rintro ⟨head, rest, h, rfl⟩
        obtain ⟨head', rfl, h'⟩ := h.tail hpre
        exact ⟨head'.length, ih.mpr ⟨head', rest, h', rfl⟩, rfl⟩

theorem findSub_eq_none {needle hay : Bytes} (hne : needle ≠ []) :
    findSub needle hay = none ↔ ∀ head rest, hay ≠ head ++ needle ++ rest := by
  induction hay with
  | nil =>
    refine ⟨fun _ head rest h => hne ?_, fun _ => rfl⟩
    have hlen := congrArg List.length h
    rw [List.length_append, List.length_append, List.length_nil] at hlen
    exact List.eq_nil_of_length_eq_zero (by omega)
  | cons ch hay ih =>
    rw [findSub, if_neg hne]
    by_cases hpre : needle <+: ch :: hay
    · obtain ⟨rest, hrest⟩ := hpre
      rw [if_pos (List.isPrefixOf_iff_prefix.mpr ⟨rest, hrest⟩)]
      exact iff_of_false (by simp) fun h => h [] rest hrest.symm
    · rw [if_neg (mt List.isPrefixOf_iff_prefix.mp hpre), Option.map_eq_none_iff, ih]
      constructor
      · intro h head rest hsplit
        cases head with
        | nil => exact hpre ⟨rest, hsplit.symm⟩
        | cons ch' head => exact h head rest (List.cons.inj hsplit).2
      · intro h head rest hsplit
        exact h (ch :: head) rest (by rw [hsplit]; rfl)

end First

section Trimming

/-- A text without blanks before it, and without blanks and carriage returns behind it. -/
structure Trimmed (text v : Bytes) : Prop where
  split : ∃ lead tail, text = lead ++ v ++ tail ∧ (∀ ch ∈ lead, isBlank ch = true) ∧
    ∀ ch ∈ tail, ch = CR ∨ isBlank ch = true
  start : ∀ ch, v.head? = some ch → isBlank ch = false
  stop : ∀ ch, v.getLast? = some ch → ch ≠ CR ∧ isBlank ch = false

theorem dropWhile_lead {p : UInt8 → Bool} {lead rest : Bytes} (hlead : ∀ ch ∈ lead, p ch = true)
    (hrest : ∀ ch, rest.head? = some ch → p ch = false) : (lead ++ rest).dropWhile p = rest := by
  rw [List.dropWhile_append_of_pos hlead]
  cases rest with
  | nil => rfl
  | cons ch rest => rw [List.dropWhile_cons_of_neg (by simp [hrest ch rfl])]

theorem trim_eq_iff {text v : Bytes} (hne : v ≠ []) :
    trim (fun ch => ch = CR || isBlank ch) text = v ↔ Trimmed text v := by
  constructor
  · rintro rfl
    have hinner : trim (fun ch => ch = CR || isBlank ch) text ++
        (text.dropWhile isBlank).rtakeWhile (fun ch => ch = CR || isBlank ch) =
          text.dropWhile isBlank := List.rdropWhile_append_rtakeWhile
    refine ⟨⟨text.takeWhile isBlank,
      (text.dropWhile isBlank).rtakeWhile (fun ch => ch = CR || isBlank ch), ?_,
      fun ch hch => List.mem_takeWhile_imp hch, fun ch hch => ?_⟩, fun ch hch => ?_,
      fun ch hch => ?_⟩
    · rw [List.append_assoc, hinner, List.takeWhile_append_dropWhile]
    · simpa using List.mem_rtakeWhile_imp hch
    · have hhead : (text.dropWhile isBlank).head? = some ch := by
        rw [← hinner, List.head?_append_of_ne_nil _ hne]
        exact hch
      have hnot := List.head?_dropWhile_not isBlank text
      rw [hhead] at hnot
      simpa using hnot
    · have hlast : ¬ (decide (List.getLast _ hne = CR) || isBlank (List.getLast _ hne)) = true :=
        List.rdropWhile_last_not (fun ch => ch = CR || isBlank ch) _ hne
      rw [List.getLast?_eq_some_getLast hne] at hch
      rw [Option.some.inj hch] at hlast
      simpa using hlast
  · intro h
    obtain ⟨lead, tail, rfl, hlead, htail⟩ := h.split
    have hfront : (lead ++ v ++ tail).dropWhile isBlank = v ++ tail := by
      rw [List.append_assoc]
      refine dropWhile_lead hlead fun ch hch => h.start ch ?_
      rwa [List.head?_append_of_ne_nil _ hne] at hch
    rw [trim, hfront, List.rdropWhile, List.reverse_append, dropWhile_lead, List.reverse_reverse]
    · intro ch hch
      simpa using htail ch (List.mem_reverse.mp hch)
    · intro ch hch
      rw [List.head?_reverse] at hch
      simpa using h.stop ch hch

end Trimming

section Reads

def byteIn (body : Bytes) (i : Nat) : Option UInt8 := body[i]?

/-- Bytes that are read together: all of them are in the body, or nothing is read. -/
def bytesIn (body : Bytes) (i n : Nat) : Option Bytes :=
  if i + n ≤ body.length then some (bytesAt body i n) else none

variable (body : Bytes)

/-- The loop of `find_sub` over `hayLen` bytes from `start` on. -/
def findSubFrom (needle : Bytes) (start hayLen : Nat) : Nat → Nat → Option (Option Nat)
  | 0, _ => some none
  | fuel + 1, i =>
    if i + needle.length ≤ hayLen then
      (byteIn body (start + i)).bind fun ch =>
        if needle.head? = some ch then
          (bytesIn body (start + i) needle.length).bind fun bytes =>
            if bytes = needle then some (some (start + i))
            else findSubFrom needle start hayLen fuel (i + 1)
        else findSubFrom needle start hayLen fuel (i + 1)
    else some none

def findSubAt (needle : Bytes) (start hayLen : Nat) : Option (Option Nat) :=
  if needle = [] ∨ hayLen < needle.length then some none
  else findSubFrom body needle start hayLen (hayLen + 1) 0

def memchrAt (ch : UInt8) : Nat → Nat → Option (Option Nat)
  | 0, _ => some none
  | n + 1, i => (byteIn body i).bind fun b => if b = ch then some (some i)
    else memchrAt ch n (i + 1)

def skipLeading : Nat → Nat → Option (Nat × Nat)
  | 0, ptr => some (ptr, 0)
  | len + 1, ptr => (byteIn body ptr).bind fun ch =>
    if isBlank ch then skipLeading len (ptr + 1) else some (ptr, len + 1)

def skipTrailing (ptr : Nat) : Nat → Option Nat
  | 0 => some 0
  | len + 1 => (byteIn body (ptr + len)).bind fun ch =>
    if ch = CR || isBlank ch then skipTrailing ptr len else some (len + 1)

def versionEnd (p : Project) (start : Nat) : Option (Except Bytes Nat) :=
  if p.versionSuffix ≠ [] then
    (findSubAt body p.versionSuffix start (body.length - start)).map fun
      | none => .error (message "hacman: %S: version-suffix not found after version-prefix\n"
          [.slice p.name])
      | some stop => .ok stop
  else
    (memchrAt body LF (body.length - start) start).map fun stop => .ok (stop.getD body.length)

/-- `extract_version` by positions, up to the marker buffer of `cap` bytes. -/
def extractVersionAt (p : Project) (cap : Nat) : Option (Except Bytes Bytes) :=
  (findSubAt body p.versionPrefix 0 body.length).bind fun
    | none => some (.error (message "hacman: %S: version-prefix not found in response\n"
        [.slice p.name]))
    | some at_ =>
      let start := at_ + p.versionPrefix.length
      (versionEnd body p start).bind fun
        | .error text => some (.error text)
        | .ok stop =>
          if stop ≤ start then some (.error (emptyVersion p))
          else
            (skipLeading body (stop - start) start).bind fun (ptr, len) =>
              (skipTrailing body ptr len).bind fun len =>
                if len = 0 then some (.error (emptyVersion p))
                else (bytesIn body ptr (min len (cap - 1))).map .ok

end Reads

section Checked
variable {body : Bytes}

theorem drop_eq_cons {i : Nat} {ch : UInt8} (h : byteIn body i = some ch) :
    body.drop i = ch :: body.drop (i + 1) := by
  obtain ⟨hlt, rfl⟩ := List.getElem?_eq_some_iff.mp h
  exact List.drop_eq_getElem_cons hlt

theorem byteIn_of_lt {i : Nat} (h : i < body.length) : ∃ ch, byteIn body i = some ch :=
  ⟨_, List.getElem?_eq_getElem h⟩

theorem bytesIn_fits {i n : Nat} (h : i + n ≤ body.length) :
    bytesIn body i n = some ((body.drop i).take n) := if_pos h

theorem findSub_short {needle hay : Bytes} (h : hay.length < needle.length) :
    findSub needle hay = none := by
  have hne : needle ≠ [] := by
    rintro rfl
    exact Nat.not_lt_zero _ h
  refine (findSub_eq_none hne).mpr fun head rest hsplit => ?_
  rw [hsplit, List.length_append, List.length_append] at h
  omega

theorem findSubFrom_eq {needle : Bytes} (hne : needle ≠ []) {start hayLen : Nat}
    (hlen : start + hayLen = body.length) {fuel i : Nat} (hi : i ≤ hayLen)
    (hfuel : hayLen < i + fuel) :
    findSubFrom body needle start hayLen fuel i =
      some ((findSub needle (body.drop (start + i))).map (start + i + ·)) := by
  induction fuel generalizing i with
  | zero => omega
  | succ fuel ih =>
    rw [findSubFrom]
    by_cases hroom : i + needle.length ≤ hayLen
    · have hpos := List.length_pos_iff.mpr hne
      have hlt : start + i < body.length := by omega
      obtain ⟨ch, hch⟩ := byteIn_of_lt hlt
      have hdrop := drop_eq_cons hch
      have hnext : findSubFrom body needle start hayLen fuel (i + 1) =
          some (((findSub needle (body.drop (start + i + 1))).map (· + 1)).map
            (start + i + ·)) := by
        rw [ih (by omega) (by omega), Option.map_map]
        refine congrArg some (Option.map_congr fun j _ => ?_)
        simp only [Function.comp]
        omega
      have hfits : start + i + needle.length ≤ body.length := by omega
      have hread := bytesIn_fits hfits
      rw [if_pos hroom, hch, Option.bind_some, hread, Option.bind_some, hdrop, findSub, if_neg hne,
        hnext, ← hdrop]
      by_cases hpre : needle <+: body.drop (start + i)
      · have htake := List.prefix_iff_eq_take.mp hpre
        have hhead : needle.head? = some ch := by
          cases needle with
          | nil => exact absurd rfl hne
          | cons b needle =>
            obtain ⟨rest, hrest⟩ := hpre
            rw [hdrop] at hrest
            exact congrArg some (List.cons.inj hrest).1
        rw [if_pos hhead, if_pos htake.symm, if_pos (List.isPrefixOf_iff_prefix.mpr hpre)]
        rfl
      · have hno : (body.drop (start + i)).take needle.length ≠ needle :=
          fun h => hpre (List.prefix_iff_eq_take.mpr h.symm)
        rw [if_neg hno, if_neg (mt List.isPrefixOf_iff_prefix.mp hpre)]
        split_ifs <;> rfl
    · have hshort : (body.drop (start + i)).length < needle.length := by
        rw [List.length_drop]
        omega
      rw [if_neg hroom, findSub_short hshort]
      rfl

theorem findSubAt_eq {needle : Bytes} (hne : needle ≠ []) {start : Nat}
    (hstart : start ≤ body.length) : findSubAt body needle start (body.length - start) =
      some ((findSub needle (body.drop start)).map (start + ·)) := by
  rw [findSubAt]
  by_cases hshort : body.length - start < needle.length
  · rw [if_pos (.inr hshort), findSub_short (by rwa [List.length_drop])]
    rfl
  · rw [if_neg (not_or.mpr ⟨hne, hshort⟩), findSubFrom_eq hne (by omega) (Nat.zero_le _) (by omega)]
    rfl

theorem memchrAt_eq {n i : Nat} (h : i + n = body.length) : memchrAt body LF n i =
    some (if LF ∈ body.drop i then some (i + (before LF (body.drop i)).length) else none) := by
  induction n generalizing i with
  | zero =>
    rw [List.drop_of_length_le (by omega), if_neg List.not_mem_nil]
    rfl
  | succ n ih =>
    have hlt : i < body.length := by omega
    obtain ⟨ch, hch⟩ := byteIn_of_lt hlt
    rw [memchrAt, hch, Option.bind_some, ih (by omega), drop_eq_cons hch]
    by_cases hlf : ch = LF
    · subst hlf
      simp [before]
    · have hmem : LF ∈ ch :: body.drop (i + 1) ↔ LF ∈ body.drop (i + 1) := by
        simp [Ne.symm hlf]
      have hbefore : before LF (ch :: body.drop (i + 1)) = ch :: before LF (body.drop (i + 1)) :=
        List.takeWhile_cons_of_pos (by simpa using hlf)
      rw [if_neg hlf, hbefore, List.length_cons]
      by_cases hm : LF ∈ body.drop (i + 1)
      · rw [if_pos hm, if_pos (hmem.mpr hm)]
        congr 2
        omega
      · rw [if_neg hm, if_neg (mt hmem.mp hm)]

theorem skipLeading_eq {len ptr : Nat} (h : ptr + len ≤ body.length) : ∃ ptr' len',
    skipLeading body len ptr = some (ptr', len') ∧ ptr' + len' = ptr + len ∧ ptr ≤ ptr' ∧
      (body.drop ptr').take len' = ((body.drop ptr).take len).dropWhile isBlank := by
  induction len generalizing ptr with
  | zero => exact ⟨ptr, 0, rfl, rfl, Nat.le_refl _, by simp⟩
  | succ len ih =>
    have hlt : ptr < body.length := by omega
    obtain ⟨ch, hch⟩ := byteIn_of_lt hlt
    rw [skipLeading, hch, Option.bind_some, drop_eq_cons hch, List.take_succ_cons]
    by_cases hblank : isBlank ch = true
    · have hrest : ptr + 1 + len ≤ body.length := by omega
      obtain ⟨ptr', len', hrun, hsum, hle, htext⟩ := ih hrest
      refine ⟨ptr', len', ?_, by omega, by omega, ?_⟩
      · rw [if_pos hblank, hrun]
      · rw [htext, List.dropWhile_cons_of_pos hblank]
    · refine ⟨ptr, len + 1, by rw [if_neg hblank], rfl, Nat.le_refl _, ?_⟩
      rw [drop_eq_cons hch, List.take_succ_cons, List.dropWhile_cons_of_neg hblank]

theorem skipTrailing_eq {len ptr : Nat} (h : ptr + len ≤ body.length) : ∃ len' ≤ len,
    skipTrailing body ptr len = some len' ∧ (body.drop ptr).take len' =
      ((body.drop ptr).take len).rdropWhile fun ch => ch = CR || isBlank ch := by
  induction len with
  | zero => exact ⟨0, Nat.le_refl _, rfl, by simp⟩
  | succ len ih =>
    have hlt : ptr + len < body.length := by omega
    obtain ⟨ch, hch⟩ := byteIn_of_lt hlt
    have htake : (body.drop ptr).take (len + 1) = (body.drop ptr).take len ++ [ch] := by
      rw [List.take_add_one, List.getElem?_drop, show body[ptr + len]? = some ch from hch]
      rfl
    rw [skipTrailing, hch, Option.bind_some, htake]
    by_cases hend : (decide (ch = CR) || isBlank ch) = true
    · obtain ⟨len', hle, hrun, htext⟩ := ih (by omega)
      refine ⟨len', by omega, ?_, ?_⟩
      · rw [if_pos hend, hrun]
      · rw [htext, List.rdropWhile_concat_pos (fun ch => ch = CR || isBlank ch) _ ch hend]
    · refine ⟨len + 1, Nat.le_refl _, by rw [if_neg hend], ?_⟩
      rw [htake, List.rdropWhile_concat_neg (fun ch => ch = CR || isBlank ch) _ ch hend]

end Checked

section Between
variable {p : Project} {body : Bytes}

theorem versionEnd_eq {start : Nat} (hstart : start ≤ body.length) : versionEnd body p start =
    some ((anchored p (body.drop start)).map fun text => start + text.length) := by
  rw [versionEnd, anchored]
  by_cases hsuffix : p.versionSuffix ≠ []
  · rw [if_pos hsuffix, if_pos hsuffix, findSubAt_eq hsuffix hstart]
    cases hfound : findSub p.versionSuffix (body.drop start) with
    | none => rfl
    | some i =>
      obtain ⟨head, rest, hfirst, rfl⟩ := (findSub_eq_some hsuffix).mp hfound
      have hle : head.length ≤ (body.drop start).length := by
        rw [hfirst.split, List.length_append, List.length_append]
        omega
      simp only [Option.map_some, Except.map, List.length_take, Nat.min_eq_left hle]
  · rw [if_neg hsuffix, if_neg hsuffix, memchrAt_eq (by omega)]
    by_cases hlf : LF ∈ body.drop start
    · rw [if_pos hlf]
      rfl
    · rw [if_neg hlf, before_of_notMem hlf]
      simp only [Option.map_some, Option.getD_none, Except.map, List.length_drop]
      congr 2
      omega

theorem anchored_prefix {start text : Bytes} (h : anchored p start = .ok text) :
    text <+: start := by
  rw [anchored] at h
  split_ifs at h
  · split at h
    · cases h
    · cases h
      exact List.take_prefix _ _
  · cases h
    exact List.takeWhile_prefix _

theorem extractVersionAt_eq (hp : p.versionPrefix ≠ []) (cap : Nat) :
    extractVersionAt body p cap = some ((extractVersion p body).map (hmStrCopy cap)) := by
  have hsearch := findSubAt_eq hp (Nat.zero_le body.length)
  rw [Nat.sub_zero, List.drop_zero] at hsearch
  rw [extractVersionAt, hsearch, extractVersion]
  cases hfound : findSub p.versionPrefix body with
  | none => rfl
  | some i =>
    obtain ⟨head, rest, hfirst, rfl⟩ := (findSub_eq_some hp).mp hfound
    have hstart : head.length + p.versionPrefix.length ≤ body.length := by
      rw [hfirst.split, List.length_append, List.length_append]
      omega
    simp only [Option.map_some, Option.bind_some, Nat.zero_add]
    generalize head.length + p.versionPrefix.length = start at hstart
    rw [versionEnd_eq hstart]
    cases hend : anchored p (body.drop start) with
    | error msg => rfl
    | ok text =>
      obtain ⟨behind, hbehind⟩ := anchored_prefix hend
      have hlen : start + text.length ≤ body.length := by
        have hle := congrArg List.length hbehind
        rw [List.length_append, List.length_drop] at hle
        omega
      have htext : (body.drop start).take text.length = text := by
        rw [← hbehind, List.take_left]
      simp only [Except.map, Option.bind_some]
      by_cases hempty : text = []
      · rw [if_pos (by rw [hempty]; simp), if_pos hempty]
      · have hpos := List.length_pos_iff.mpr hempty
        rw [if_neg (by omega), if_neg hempty, Nat.add_sub_cancel_left]
        obtain ⟨ptr, len, hlead, hsum, hle, hleft⟩ := skipLeading_eq hlen
        have hend : ptr + len ≤ body.length := by omega
        obtain ⟨len', hle', htrail, htrimmed⟩ := skipTrailing_eq hend
        rw [htext] at hleft
        rw [hleft] at htrimmed
        have hv : (body.drop ptr).take len' = trim (fun ch => ch = CR || isBlank ch) text :=
          htrimmed
        have hvlen : (trim (fun ch => ch = CR || isBlank ch) text).length = len' := by
          rw [← hv, List.length_take, List.length_drop]
          omega
        rw [hlead, Option.bind_some, htrail, Option.bind_some]
        by_cases hnil : trim (fun ch => ch = CR || isBlank ch) text = []
        · rw [if_pos hnil, if_pos (by rw [← hvlen, hnil]; rfl)]
        · have hlen' : len' ≠ 0 := by
            rw [← hvlen]
            exact fun h => hnil (List.eq_nil_of_length_eq_zero h)
          rw [if_neg hnil, if_neg hlen', bytesIn_fits (by omega), ← hv]
          simp only [hmStrCopy, List.take_take, Nat.min_comm, Option.map_some]

/-- Where the version ends: at the first suffix behind the prefix, else at the end of the line. -/
def EndsAt (suffix v rest : Bytes) : Prop :=
  if suffix ≠ [] then ∃ behind, FirstAt suffix (v ++ rest) v behind
  else LF ∉ v ∧ (rest = [] ∨ rest.head? = some LF)

/-- The version text `v` of a body that holds the anchors. -/
structure Between (p : Project) (body v : Bytes) : Prop where
  between : ∃ head rest, FirstAt p.versionPrefix body head (v ++ rest) ∧
    EndsAt p.versionSuffix v rest

theorem anchored_iff {start v : Bytes} : anchored p start = .ok v ↔
    ∃ rest, start = v ++ rest ∧ EndsAt p.versionSuffix v rest := by
  rw [anchored]
  unfold EndsAt
  by_cases hsuffix : p.versionSuffix ≠ []
  · rw [if_pos hsuffix]
    simp only [if_pos hsuffix]
    constructor
    · intro h
      cases hfound : findSub p.versionSuffix start with
      | none =>
        rw [hfound] at h
        cases h
      | some i =>
        rw [hfound] at h
        obtain ⟨head, behind, hfirst, rfl⟩ := (findSub_eq_some hsuffix).mp hfound
        have hhead : start.take head.length = head := by
          rw [hfirst.split, List.append_assoc, List.take_left]
        obtain rfl : head = v := by
          rw [← hhead]
          exact Except.ok.inj h
        refine ⟨start.drop head.length, ?_, behind, ?_⟩
        · conv_lhs => rw [← List.take_append_drop head.length start, hhead]
        · rwa [← hhead, hhead, ← (show start.take head.length ++ start.drop head.length = _ from
            List.take_append_drop _ _), hhead] at hfirst
    · rintro ⟨rest, rfl, behind, hfirst⟩
      rw [(findSub_eq_some hsuffix).mpr ⟨v, behind, hfirst, rfl⟩]
      dsimp only
      rw [List.take_left]
  · rw [if_neg hsuffix]
    simp only [if_neg hsuffix]
    constructor
    · intro h
      obtain rfl := Except.ok.inj h
      by_cases hlf : LF ∈ start
      · exact ⟨LF :: after LF start, (before_after hlf).symm, notMem_before LF start, .inr rfl⟩
      · refine ⟨[], ?_, notMem_before LF start, .inl rfl⟩
        rw [before_of_notMem hlf, List.append_nil]
    · rintro ⟨rest, rfl, hv, rfl | hrest⟩
      · rw [List.append_nil, before_of_notMem hv]
      · cases rest with
        | nil => cases hrest
        | cons ch rest =>
          obtain rfl := Option.some.inj hrest
          rw [before_append rest hv]

theorem extractVersion_ok (hp : p.versionPrefix ≠ []) {t : Bytes} : extractVersion p body = .ok t ↔
    ∃ v, Between p body v ∧ Trimmed v t ∧ t ≠ [] := by
  have hempty : trim (fun ch => ch = CR || isBlank ch) [] = [] := rfl
  rw [extractVersion]
  cases hfound : findSub p.versionPrefix body with
  | none =>
    refine ⟨fun h => (by cases h), ?_⟩
    rintro ⟨v, ⟨head, rest, hfirst, -⟩, -⟩
    exact absurd hfirst.split ((findSub_eq_none hp).mp hfound head (v ++ rest))
  | some i =>
    obtain ⟨head, behind, hfirst, rfl⟩ := (findSub_eq_some hp).mp hfound
    have hbehind : body.drop (head.length + p.versionPrefix.length) = behind := by
      rw [hfirst.split, ← List.length_append, List.drop_left]
    have hbetween : ∀ v, Between p body v ↔ anchored p behind = .ok v := by
      intro v
      rw [anchored_iff]
      constructor
      · rintro ⟨head', rest, hfirst', hend⟩
        exact ⟨rest, (hfirst.unique hfirst').2, hend⟩
      · rintro ⟨rest, rfl, hend⟩
        exact ⟨head, rest, hfirst, hend⟩
    simp only [hbehind, hbetween]
    cases hend : anchored p behind with
    | error msg => exact ⟨fun h => (by cases h), fun ⟨v, h, _⟩ => by cases h⟩
    | ok text =>
      dsimp only
      by_cases hnil : text = []
      · rw [if_pos hnil]
        refine ⟨fun h => (by cases h), ?_⟩
        rintro ⟨v, hv, htrimmed, hne⟩
        rw [← Except.ok.inj hv, hnil, ← trim_eq_iff hne, hempty] at htrimmed
        exact absurd htrimmed.symm hne
      · rw [if_neg hnil]
        constructor
        · intro h
          split_ifs at h with hblank
          obtain rfl := Except.ok.inj h
          exact ⟨text, rfl, (trim_eq_iff hblank).mp rfl, hblank⟩
        · rintro ⟨v, hv, htrimmed, hne⟩
          rw [← Except.ok.inj hv, ← trim_eq_iff hne] at htrimmed
          rw [htrimmed, if_neg hne]

/-- `extract_version` finds a version exactly if the anchors hold one that is not blank; the
marker is its trimmed text, up to 255 bytes. No byte outside the body is read. -/
theorem extracted_version (hp : p.versionPrefix ≠ []) :
    extractVersionAt body p (HM_MARK_MAX + 1) ≠ none ∧
    ∀ mark, extractVersionAt body p (HM_MARK_MAX + 1) = some (.ok mark) ↔
      ∃ v t, Between p body v ∧ Trimmed v t ∧ t ≠ [] ∧ mark = t.take 255 := by
  rw [extractVersionAt_eq hp]
  refine ⟨Option.some_ne_none _, fun mark => ?_⟩
  rw [Option.some_inj]
  constructor
  · intro h
    cases hrun : extractVersion p body with
    | error msg =>
      rw [hrun] at h
      cases h
    | ok t =>
      rw [hrun] at h
      obtain ⟨v, hv, htrimmed, hne⟩ := (extractVersion_ok hp).mp hrun
      exact ⟨v, t, hv, htrimmed, hne, (Except.ok.inj h).symm⟩
  · rintro ⟨v, t, hv, htrimmed, hne, rfl⟩
    rw [(extractVersion_ok hp).mpr ⟨v, hv, htrimmed, hne⟩]
    rfl

def paddedProject : Project where
  kind := .url
  check := .version
  versionPrefix := ascii "aba"
  versionSuffix := ascii "ab"

theorem extracted_version_padded : ∃ v t, Between paddedProject (ascii "xaba \t1.2 \rababa") v ∧
    Trimmed v t ∧ t ≠ [] ∧ ascii "1.2" = t.take 255 :=
  ((extracted_version (by decide)).2 (ascii "1.2")).mp (by decide +kernel)

end Between

end Hacman.Versions
