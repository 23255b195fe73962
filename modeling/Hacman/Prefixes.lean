import Hacman.Util

/-!
# Prefixed lines of a stream

Foreign output reaches stderr line by line behind a marker, and a line that has one already
keeps it. The writer sees a chunk at a time and recognises a marker that lies in one chunk.
-/

namespace Hacman.Prefixes
open Octets Util

def hmErrBytes (data : Bytes) (out : Out) : Out := hmWritePrefixedStderr data true (hmOutFlush out)

section Bytewise
variable {start keep : Bool} {b : UInt8} {s a : Bytes}

def mark : Bool → Bytes → Bytes
  | _, [] => []
  | start, b :: s =>
    (if start ∧ ¬ stderrPrefix <+: b :: s then stderrPrefix else []) ++ b :: mark (b = LF) s

def lineAfter : Bool → Bytes → Bool
  | start, [] => start
  | _, b :: s => lineAfter (b = LF) s

theorem lineAfter_append (start : Bool) (a s : Bytes) :
    lineAfter start (a ++ s) = lineAfter (lineAfter start a) s := by
  induction a generalizing start with
  | nil => rfl
  | cons b a ih => exact ih _

theorem lineAfter_lf (start : Bool) (a : Bytes) : lineAfter start (a ++ [LF]) = true := by
  rw [lineAfter_append]
  rfl

/-- The same, with or without regard to a marker that stands there. -/
def marked (keep : Bool) : Bool → Bytes → Bytes
  | _, [] => []
  | start, b :: s =>
    (if start ∧ ¬ (keep ∧ stderrPrefix <+: b :: s) then stderrPrefix else []) ++
      b :: marked keep (b = LF) s

theorem marked_true (start : Bool) (s : Bytes) : marked true start s = mark start s := by
  induction s generalizing start with
  | nil => rfl
  | cons b s ih => simp only [marked, mark, ih, true_and]

theorem marked_append (start : Bool) (a s : Bytes) :
    marked false start (a ++ s) = marked false start a ++ marked false (lineAfter start a) s := by
  induction a generalizing start with
  | nil => rfl
  | cons b a ih => simp [marked, lineAfter, ih]

theorem marked_inside (ha : LF ∉ a) (s : Bytes) :
    marked keep false (a ++ LF :: s) = a ++ LF :: marked keep true s := by
  induction a with
  | nil => simp [marked]
  | cons b a ih =>
    obtain ⟨hb, ha⟩ := not_or.mp (mt List.mem_cons.mpr ha)
    simp [marked, Ne.symm hb, ih ha]

theorem marked_inside_open (ha : LF ∉ a) : marked keep false a = a := by
  induction a with
  | nil => rfl
  | cons b a ih =>
    obtain ⟨hb, ha⟩ := not_or.mp (mt List.mem_cons.mpr ha)
    simp [marked, Ne.symm hb, ih ha]

theorem lineAfter_open (ha : LF ∉ a) (hne : a ≠ []) : lineAfter start a = false := by
  induction a generalizing start with
  | nil => exact absurd rfl hne
  | cons b a ih =>
    obtain ⟨hb, ha⟩ := not_or.mp (mt List.mem_cons.mpr ha)
    rw [lineAfter, decide_eq_false (Ne.symm hb)]
    by_cases hnil : a = []
    · rw [hnil, lineAfter]
    · exact ih ha hnil

theorem marked_start (hs : s ≠ []) : marked keep start s =
    (if start ∧ ¬ (keep ∧ stderrPrefix <+: s) then stderrPrefix else []) ++
    marked keep false s := by
  obtain ⟨b, s, rfl⟩ := List.exists_cons_of_ne_nil hs
  simp [marked]

end Bytewise

section Log

def bytesOf (log : List (Nat × Bytes)) : List (Nat × UInt8) :=
  log.flatMap fun w => w.2.map (Prod.mk w.1)

def toTarget (fd : Nat) (log : List (Nat × Bytes)) : Bytes :=
  (log.filter fun w => w.1 = fd).flatMap Prod.snd

theorem bytesOf_append (log log' : List (Nat × Bytes)) :
    bytesOf (log ++ log') = bytesOf log ++ bytesOf log' :=
  List.flatMap_append

theorem bytesOf_singleton (fd : Nat) (s : Bytes) : bytesOf [(fd, s)] = s.map (Prod.mk fd) := by
  simp [bytesOf]

theorem toTarget_bytesOf (fd : Nat) (log : List (Nat × Bytes)) :
    toTarget fd log = ((bytesOf log).filter fun b => b.1 = fd).map Prod.snd := by
  induction log with
  | nil => rfl
  | cons w log ih =>
    have hcons : bytesOf (w :: log) = w.2.map (Prod.mk w.1) ++ bytesOf log := rfl
    rw [hcons, List.filter_append, List.map_append, ← ih, toTarget, toTarget]
    by_cases h : w.1 = fd
    · have hall : w.2.filter (fun _ => true) = w.2 := List.filter_eq_self.mpr fun _ _ => rfl
      simp [h, List.filter_map, Function.comp_def, hall]
    · simp [h, List.filter_map, Function.comp_def]

theorem delivered_eq (out : Out) (fd : Nat) : out.delivered fd = toTarget fd out.written := by
  rw [Out.delivered, toTarget, List.flatMap_def]

theorem delivered_append {out out' : Out} {fd : Nat} {s : Bytes}
    (h : bytesOf out'.written = bytesOf out.written ++ bytesOf [(fd, s)]) :
    out'.delivered fd = out.delivered fd ++ s := by
  rw [delivered_eq, delivered_eq, toTarget_bytesOf, h, List.filter_append, List.map_append,
    ← toTarget_bytesOf, ← toTarget_bytesOf]
  simp [toTarget]

theorem hmWriteAll_bytes (fd : Nat) (s : Bytes) (out : Out) :
    bytesOf (hmWriteAll fd s out).written = bytesOf out.written ++ bytesOf [(fd, s)] := by
  by_cases hs : s = []
  · simp [hmWriteAll, hs, bytesOf]
  · simp only [hmWriteAll, if_neg hs, bytesOf_append]

def untouched (out : Out) : Bytes × Nat × Bool × Bool :=
  (out.buf, out.fd, out.prefixStderr, out.errPrefixLines)

theorem hmWriteAll_rest (fd : Nat) (s : Bytes) (out : Out) :
    untouched (hmWriteAll fd s out) = untouched out ∧
      (hmWriteAll fd s out).stderrLineStart = out.stderrLineStart := by
  unfold hmWriteAll
  split_ifs
  · exact ⟨rfl, rfl⟩
  · exact ⟨rfl, rfl⟩

end Log

section Writer
variable {keep : Bool} {out : Out} {s : Bytes}

/-- What writing `s` leaves: the bytes and the state of the line. -/
structure Logged (keep : Bool) (s : Bytes) (out out' : Out) : Prop where
  bytes : bytesOf out'.written = bytesOf out.written ++ bytesOf
    [(STDERR_FILENO, marked keep out.stderrLineStart s)]
  start : out'.stderrLineStart = lineAfter out.stderrLineStart s
  same : untouched out' = untouched out

def writeLine (keep : Bool) (s part : Bytes) (out : Out) : Out :=
  let out := hmWriteAll STDERR_FILENO part (startLine s keep out)
  if part.getLast? = some LF then { out with stderrLineStart := true } else out

theorem startLine_bytes (keep : Bool) (s : Bytes) (out : Out) :
    bytesOf (startLine s keep out).written = bytesOf out.written ++ bytesOf [(STDERR_FILENO,
      if out.stderrLineStart ∧ ¬ (keep ∧ stderrPrefix <+: s) then stderrPrefix else [])] ∧
    (startLine s keep out).stderrLineStart = false ∧ untouched (startLine s keep out) =
    untouched out := by
  cases hstart : out.stderrLineStart with
  | false => simp [startLine, hstart, bytesOf]
  | true =>
    by_cases hkeep : keep ∧ stderrPrefix <+: s
    · simp [startLine, hstart, hkeep.1, List.isPrefixOf_iff_prefix.mpr hkeep.2, hkeep.2,
        bytesOf, untouched]
    · have htest : (!keep || !stderrPrefix.isPrefixOf s) = true := by
        rw [← Bool.not_and, Bool.not_eq_true', Bool.and_eq_false_iff, ← Bool.not_eq_true,
          ← Bool.not_eq_true, List.isPrefixOf_iff_prefix]
        exact not_and_or.mp hkeep
      have hbytes := hmWriteAll_bytes STDERR_FILENO stderrPrefix out
      have hsame := (hmWriteAll_rest STDERR_FILENO stderrPrefix out).1
      simp only [startLine, hstart, htest, if_true, hkeep, not_false_eq_true, and_self]
      exact ⟨hbytes, trivial, hsame⟩

theorem writeLine_bytes (keep : Bool) (s part : Bytes) (out : Out) :
    bytesOf (writeLine keep s part out).written = bytesOf out.written ++ bytesOf [(STDERR_FILENO,
      (if out.stderrLineStart ∧ ¬ (keep ∧ stderrPrefix <+: s) then stderrPrefix else []) ++ part)] ∧
    (writeLine keep s part out).stderrLineStart = decide (part.getLast? = some LF) ∧
    untouched (writeLine keep s part out) = untouched out := by
  obtain ⟨hbytes, hstart, hsame⟩ := startLine_bytes keep s out
  have hwrite := hmWriteAll_bytes STDERR_FILENO part (startLine s keep out)
  obtain ⟨hframe, hline⟩ := hmWriteAll_rest STDERR_FILENO part (startLine s keep out)
  have hall : bytesOf (hmWriteAll STDERR_FILENO part (startLine s keep out)).written =
      bytesOf out.written ++ bytesOf [(STDERR_FILENO,
        (if out.stderrLineStart ∧ ¬ (keep ∧ stderrPrefix <+: s) then stderrPrefix
          else []) ++ part)] := by
    rw [hwrite, hbytes, List.append_assoc, bytesOf_singleton, bytesOf_singleton, bytesOf_singleton,
      List.map_append]
  by_cases hlast : part.getLast? = some LF
  · simp only [writeLine, hlast, if_true, decide_true]
    exact ⟨hall, trivial, hframe.trans hsame⟩
  · simp only [writeLine, hlast, if_false, decide_false]
    exact ⟨hall, hline.trans hstart, hframe.trans hsame⟩

theorem writePrefixedFrom_logged (fuel : Nat) (hfuel : s.length ≤ fuel) :
    Logged keep s out (writePrefixedFrom keep fuel s out) := by
  induction fuel generalizing s out with
  | zero =>
    obtain rfl := List.length_eq_zero_iff.mp (Nat.le_zero.mp hfuel)
    exact ⟨by simp [writePrefixedFrom, marked, bytesOf], rfl, rfl⟩
  | succ fuel ih =>
    by_cases hs : s = []
    · rw [hs, writePrefixedFrom, if_pos rfl]
      exact ⟨by simp [marked, bytesOf], rfl, rfl⟩
    · rw [writePrefixedFrom, if_neg hs]
      change Logged keep s out (writePrefixedFrom keep fuel (s.drop (linePart s).length)
        (writeLine keep s (linePart s) out))
      obtain ⟨hbytes, hstart, hsame⟩ := writeLine_bytes keep s (linePart s) out
      by_cases hlf : LF ∈ s
      · have hcut := before_after hlf
        have hline := notMem_before LF s
        have hpart : linePart s = before LF s ++ [LF] := if_pos hlf
        have hdrop : s.drop (linePart s).length = after LF s := by
          have h : s = linePart s ++ after LF s := by
            rw [hpart, List.append_assoc, List.singleton_append, hcut]
          exact (congrArg (List.drop _) h).trans List.drop_left
        have hlength : (after LF s).length ≤ fuel := by
          have h := congrArg List.length hcut
          simp only [List.length_append, List.length_cons] at h
          omega
        have hlast : (linePart s).getLast? = some LF := by rw [hpart, List.getLast?_concat]
        rw [hlast, decide_eq_true rfl] at hstart
        have hrest := @ih (writeLine keep s (linePart s) out) (after LF s) hlength
        rw [hdrop]
        have hmark : marked keep out.stderrLineStart s =
            (if out.stderrLineStart ∧ ¬ (keep ∧ stderrPrefix <+: s) then stderrPrefix else []) ++
              linePart s ++ marked keep true (after LF s) := by
          rw [marked_start hs]
          conv_lhs => rw [← hcut, marked_inside hline, hcut]
          rw [hpart, List.append_assoc, List.append_assoc, List.singleton_append]
        refine ⟨?_, ?_, hrest.same.trans hsame⟩
        · rw [hrest.bytes, hbytes, hstart, hmark]
          simp only [bytesOf_singleton, List.map_append, List.append_assoc]
        · rw [hrest.start, hstart]
          conv_rhs => rw [← hcut, ← List.singleton_append, ← List.append_assoc, lineAfter_append,
            lineAfter_lf]
      · have hpart : linePart s = s := if_neg hlf
        have hlast : s.getLast? ≠ some LF := fun h => hlf (List.mem_of_getLast? h)
        rw [hpart] at hbytes hstart hsame ⊢
        rw [List.drop_length]
        rw [decide_eq_false hlast] at hstart
        have hrest := @ih (writeLine keep s s out) [] (Nat.zero_le _)
        refine ⟨?_, ?_, hrest.same.trans hsame⟩
        · rw [hrest.bytes, hbytes, marked_start hs, marked_inside_open hlf]
          simp [marked, bytesOf]
        · rw [hrest.start, hstart, lineAfter, lineAfter_open hlf hs]

structure Wrote (s : Bytes) (out out' : Out) : Prop where
  delivered : out'.delivered STDERR_FILENO = out.delivered STDERR_FILENO ++
    mark out.stderrLineStart s
  start : out'.stderrLineStart = lineAfter out.stderrLineStart s
  buf : out'.buf = out.buf

theorem Logged.wrote {out' : Out} (h : Logged true s out out') : Wrote s out out' where
  delivered := by
    rw [delivered_append h.bytes, marked_true]
  start := h.start
  buf := congrArg Prod.fst h.same

end Writer

section Chunks
variable {start : Bool} {a s front m : Bytes} {out : Out} {c : Bytes} {cs chunks : List Bytes}

/-- The cut between `a` and `s` goes through a marker that begins a line. -/
def Torn (start : Bool) (a s : Bytes) : Prop :=
  ∃ front m, a = front ++ m ∧ m ≠ [] ∧ m.length < stderrPrefix.length ∧
    lineAfter start front = true ∧ stderrPrefix <+: m ++ s

/-- Every marker that is torn is written once more. -/
def extra : Bool → Bytes → Bytes → Nat
  | _, [], _ => 0
  | start, b :: a, s =>
    (if start ∧ (b :: a).length < stderrPrefix.length ∧
      stderrPrefix <+: b :: a ++ s then stderrPrefix.length else 0) + extra (b = LF) a s

theorem extra_eq_zero (start : Bool) (a s : Bytes) : extra start a s = 0 ↔ ¬ Torn start a s := by
  induction a generalizing start with
  | nil =>
    refine iff_of_true rfl ?_
    rintro ⟨front, m, ha, hm, -⟩
    exact hm (List.append_eq_nil_iff.mp ha.symm).2
  | cons b a ih =>
    rw [extra, Nat.add_eq_zero_iff, ih]
    constructor
    · rintro ⟨hhere, hrest⟩ ⟨front, m, ha, hm, hlen, hstart, hpre⟩
      cases front with
      | nil =>
        rw [List.nil_append] at ha
        subst ha
        rw [if_pos ⟨hstart, hlen, hpre⟩] at hhere
        exact absurd hhere (by decide)
      | cons x front =>
        obtain ⟨rfl, rfl⟩ := List.cons.inj ha
        exact hrest ⟨front, m, rfl, hm, hlen, hstart, hpre⟩
    · intro htorn
      constructor
      · by_cases h : start ∧ (b :: a).length < stderrPrefix.length ∧ stderrPrefix <+: b :: a ++ s
        · exact absurd ⟨[], b :: a, rfl, List.cons_ne_nil b a, h.2.1, h.1, h.2.2⟩ htorn
        · exact if_neg h
      · rintro ⟨front, m, rfl, hm, hlen, hstart, hpre⟩
        exact htorn ⟨b :: front, m, rfl, hm, hlen, hstart, hpre⟩

/-- A marker is recognised unless the cut goes through it. -/
theorem prefix_cut (h : ¬ (a.length < stderrPrefix.length ∧ stderrPrefix <+: a ++ s)) :
    stderrPrefix <+: a ↔ stderrPrefix <+: a ++ s := by
  refine ⟨fun hpre => hpre.trans (List.prefix_append a s), fun hpre => ?_⟩
  have hlen : stderrPrefix.length ≤ a.length := by
    by_contra hlen
    exact h ⟨not_le.mp hlen, hpre⟩
  exact List.prefix_of_prefix_length_le hpre (List.prefix_append a s) hlen

theorem mark_append_length (start : Bool) (a s : Bytes) :
    (mark start a ++ mark (lineAfter start a) s).length =
    (mark start (a ++ s)).length + extra start a s := by
  induction a generalizing start with
  | nil => simp [mark, lineAfter, extra]
  | cons b a ih =>
    have hrest := ih (decide (b = LF))
    simp only [List.cons_append, mark, extra, List.length_append, List.length_cons,
      lineAfter] at hrest ⊢
    by_cases hcut : (b :: a).length < stderrPrefix.length ∧ stderrPrefix <+: b :: a ++ s
    · have hshort : ¬ stderrPrefix <+: b :: a := fun h => absurd h.length_le (not_le.mpr hcut.1)
      have hlong : stderrPrefix <+: b :: (a ++ s) := hcut.2
      have hlen : a.length + 1 < stderrPrefix.length := hcut.1
      by_cases hstart : start
      · simp only [hstart, hshort, hlong, hlen, not_true, not_false_eq_true, and_true, and_false,
          if_true, if_false, List.length_nil]
        omega
      · rw [Bool.not_eq_true] at hstart
        simp only [hstart, Bool.false_eq_true, false_and, if_false, List.length_nil]
        omega
    · have hsame := prefix_cut hcut
      have hno : ¬ (start ∧ a.length + 1 < stderrPrefix.length ∧ stderrPrefix <+: b :: (a ++ s)) :=
        fun h => hcut h.2
      rw [if_neg hno]
      simp only [List.cons_append] at hsame
      simp only [hsame]
      omega

theorem mark_append (h : ¬ Torn start a s) :
    mark start a ++ mark (lineAfter start a) s = mark start (a ++ s) := by
  induction a generalizing start with
  | nil => rfl
  | cons b a ih =>
    have hrest : ¬ Torn (b = LF) a s := by
      rintro ⟨front, m, rfl, hm, hlen, hstart, hpre⟩
      exact h ⟨b :: front, m, rfl, hm, hlen, hstart, hpre⟩
    have hpieces : (if start ∧ ¬ stderrPrefix <+: b :: a then stderrPrefix else []) =
        (if start ∧ ¬ stderrPrefix <+: b :: (a ++ s) then stderrPrefix else []) := by
      by_cases hstart : start
      · have hsame : stderrPrefix <+: b :: a ↔ stderrPrefix <+: b :: (a ++ s) :=
          prefix_cut fun hcut => h ⟨[], b :: a, rfl, List.cons_ne_nil b a, hcut.1, hstart, hcut.2⟩
        simp only [hsame]
      · rw [Bool.not_eq_true] at hstart
        simp only [hstart, Bool.false_eq_true, false_and]
    rw [List.cons_append, mark, mark, ← ih hrest, hpieces, lineAfter, List.append_assoc,
      List.cons_append]

def markChunks : Bool → List Bytes → Bytes
  | _, [] => []
  | start, c :: cs => mark start c ++ markChunks (lineAfter start c) cs

def Untorn (start : Bool) (chunks : List Bytes) : Prop :=
  ∀ before after, chunks = before ++ after → ¬ Torn start before.flatten after.flatten

/-- A marker torn behind the first chunk is torn there or behind a later one. -/
theorem torn_append {p q : Bytes} : Torn start (c ++ p) q →
    Torn start c (p ++ q) ∨ Torn (lineAfter start c) p q := by
  rintro ⟨front, m, heq, hm, hlen, hstart, hpre⟩
  rcases List.append_eq_append_iff.mp heq with ⟨tail, hfront, hp⟩ | ⟨tail, hc, hm'⟩
  · refine .inr ⟨tail, m, hp, hm, hlen, ?_, hpre⟩
    rw [← lineAfter_append, ← hfront, hstart]
  · by_cases htail : tail = []
    · rw [htail, List.append_nil] at hc
      rw [htail, List.nil_append] at hm'
      refine .inr ⟨[], m, by rw [List.nil_append, hm'], hm, hlen, ?_, hpre⟩
      rw [hc]
      exact hstart
    · refine .inl ⟨front, tail, hc, htail, ?_, hstart, ?_⟩
      · rw [hm', List.length_append] at hlen
        omega
      · rwa [hm', List.append_assoc] at hpre

theorem torn_behind {p q : Bytes} : Torn (lineAfter start c) p q → Torn start (c ++ p) q := by
  rintro ⟨front, m, rfl, hm, hlen, hstart, hpre⟩
  exact ⟨c ++ front, m, (List.append_assoc c front m).symm, hm,
    hlen, by rw [lineAfter_append, hstart], hpre⟩

theorem untorn_cons :
    Untorn start (c :: cs) ↔ ¬ Torn start c cs.flatten ∧ Untorn (lineAfter start c) cs := by
  constructor
  · intro h
    refine ⟨?_, ?_⟩
    · have hfirst := h [c] cs rfl
      rwa [List.flatten_singleton] at hfirst
    · rintro before after rfl htorn
      exact h (c :: before) after rfl (torn_behind htorn)
  · rintro ⟨hfirst, hrest⟩ before after heq htorn
    cases before with
    | nil =>
      obtain ⟨front, m, hnil, hm, -⟩ := htorn
      exact hm (List.append_eq_nil_iff.mp hnil.symm).2
    | cons b before =>
      obtain ⟨rfl, rfl⟩ := List.cons.inj heq
      rw [List.flatten_cons] at htorn
      rcases torn_append htorn with htorn | htorn
      · rw [← List.flatten_append] at htorn
        exact hfirst htorn
      · exact hrest before after rfl htorn

theorem mark_flatten_length_le (start : Bool) (chunks : List Bytes) :
    (mark start chunks.flatten).length ≤ (markChunks start chunks).length := by
  induction chunks generalizing start with
  | nil => exact Nat.zero_le _
  | cons c cs ih =>
    have hcut := mark_append_length start c cs.flatten
    have hrest := ih (lineAfter start c)
    simp only [List.length_append] at hcut
    rw [markChunks, List.flatten_cons, List.length_append]
    omega

/-- The chunks are written like the whole if and only if no marker is torn: each of them makes
the text longer. -/
theorem markChunks_eq_iff (start : Bool) (chunks : List Bytes) :
    markChunks start chunks = mark start chunks.flatten ↔ Untorn start chunks := by
  induction chunks generalizing start with
  | nil =>
    refine iff_of_true rfl fun before after heq => ?_
    obtain ⟨rfl, rfl⟩ := List.append_eq_nil_iff.mp heq.symm
    rintro ⟨front, m, hnil, hm, -⟩
    exact hm (List.append_eq_nil_iff.mp hnil.symm).2
  | cons c cs ih =>
    rw [untorn_cons, ← ih]
    constructor
    · intro h
      have hlength := congrArg List.length h
      have hcut := mark_append_length start c cs.flatten
      have hrest := mark_flatten_length_le (lineAfter start c) cs
      rw [markChunks, List.flatten_cons] at hlength
      simp only [List.length_append] at hlength hcut
      have hwhole : ¬ Torn start c cs.flatten := (extra_eq_zero start c cs.flatten).mp (by omega)
      refine ⟨hwhole, ?_⟩
      rw [markChunks, List.flatten_cons, ← mark_append hwhole] at h
      exact List.append_cancel_left h
    · rintro ⟨hwhole, hrest⟩
      rw [markChunks, hrest, mark_append hwhole, List.flatten_cons]

end Chunks

section Lines
variable {b : UInt8} {s p l : Bytes}

/-- The lines of a text without their LF; the last one may lack it. -/
def textLines : Bytes → List Bytes
  | [] => []
  | b :: s =>
    if b = LF then [] :: textLines s
    else match textLines s with
      | [] => [[b]]
      | l :: ls => (b :: l) :: ls

def relayedLine (l : Bytes) : Bytes :=
  stderrPrefix ++ (if stderrPrefix <+: l then l.drop stderrPrefix.length else l) ++ [LF]

def relayed (s : Bytes) : Bytes := (textLines s).flatMap relayedLine

theorem relayedLine_eq (l : Bytes) :
    relayedLine l = (if stderrPrefix <+: l then [] else stderrPrefix) ++ (l ++ [LF]) := by
  by_cases h : stderrPrefix <+: l
  · obtain ⟨tail, rfl⟩ := h
    simp [relayedLine]
  · simp [relayedLine, h]

theorem textLines_lf (s : Bytes) : textLines (LF :: s) = [] :: textLines s := by
  simp [textLines]

theorem textLines_byte (hb : b ≠ LF) (s : Bytes) :
    textLines (b :: s) = (b :: (textLines s).headD []) :: (textLines s).tail := by
  rw [textLines, if_neg hb]
  cases textLines s <;> rfl

theorem prefix_line (hp : LF ∉ p) (s : Bytes) : p <+: s ↔ p <+: (textLines s).headD [] := by
  induction p generalizing s with
  | nil => exact iff_of_true (List.nil_prefix) (List.nil_prefix)
  | cons x p ih =>
    obtain ⟨hx, hp⟩ := not_or.mp (mt List.mem_cons.mpr hp)
    cases s with
    | nil => exact Iff.rfl
    | cons b s =>
      by_cases hb : b = LF
      · subst hb
        rw [textLines_lf, List.headD_cons, List.cons_prefix_cons]
        refine iff_of_false (fun h => hx h.1.symm) fun h => ?_
        exact absurd h.length_le (by simp)
      · rw [textLines_byte hb, List.headD_cons, List.cons_prefix_cons, List.cons_prefix_cons, ih hp]

def finished (start : Bool) (s : Bytes) : Bytes :=
  mark start s ++ if lineAfter start s then [] else [LF]

theorem finished_cons (start : Bool) (b : UInt8) (s : Bytes) : finished start (b :: s) =
    (if start ∧ ¬ stderrPrefix <+: b :: s then stderrPrefix else []) ++ b :: finished
    (b = LF) s := by
  rw [finished, mark, lineAfter, finished, List.append_assoc, List.cons_append]

theorem finished_eq (s : Bytes) : finished true s = relayed s ∧
    finished false s = (textLines s).headD [] ++ LF :: (textLines s).tail.flatMap relayedLine := by
  induction s with
  | nil => exact ⟨rfl, rfl⟩
  | cons b s ih =>
    have hinside : finished false (b :: s) =
        (textLines (b :: s)).headD [] ++ LF :: (textLines (b :: s)).tail.flatMap relayedLine := by
      rw [finished_cons, if_neg (by simp)]
      by_cases hb : b = LF
      · subst hb
        rw [textLines_lf, decide_eq_true rfl, ih.1]
        rfl
      · rw [textLines_byte hb, decide_eq_false hb, ih.2]
        rfl
    refine ⟨?_, hinside⟩
    have hstart : finished true (b :: s) = (if stderrPrefix <+: b :: s then [] else stderrPrefix) ++
        finished false (b :: s) := by
      rw [finished_cons, finished_cons]
      by_cases h : stderrPrefix <+: b :: s <;> simp [h]
    obtain ⟨l, ls, hlines⟩ : ∃ l ls, textLines (b :: s) = l :: ls := by
      by_cases hb : b = LF
      · exact ⟨_, _, hb ▸ textLines_lf s⟩
      · exact ⟨_, _, textLines_byte hb s⟩
    have hhead : stderrPrefix <+: b :: s ↔ stderrPrefix <+: l := by
      rw [prefix_line (by decide) (b :: s), hlines, List.headD_cons]
    rw [hstart, hinside, relayed, hlines, List.flatMap_cons, relayedLine_eq]
    simp only [hhead, List.headD_cons, List.tail_cons, List.append_assoc, List.singleton_append]

end Lines

section Streams
variable {out : Out} {c : Bytes} {cs chunks : List Bytes}

theorem hmOutFlush_flushed (h : out.buf = []) : hmOutFlush out = out := by
  rw [hmOutFlush, if_pos h]

theorem hmOutFlush_buf (out : Out) : (hmOutFlush out).buf = [] := by
  unfold hmOutFlush
  split
  · assumption
  · rfl

theorem hmErrBytes_wrote (data : Bytes) (out : Out) :
    Wrote data (hmOutFlush out) (hmErrBytes data out) :=
  (writePrefixedFrom_logged data.length (le_refl _)).wrote

def relay (chunks : List Bytes) (out : Out) : Out :=
  chunks.foldl (fun out c => hmErrBytes c out) out

theorem relay_wrote (h : out.buf = []) (chunks : List Bytes) :
    (relay chunks out).delivered STDERR_FILENO =
      out.delivered STDERR_FILENO ++ markChunks out.stderrLineStart chunks ∧
    (relay chunks out).stderrLineStart = lineAfter out.stderrLineStart chunks.flatten := by
  induction chunks generalizing out with
  | nil => exact ⟨by simp [relay, markChunks], rfl⟩
  | cons c cs ih =>
    have hwrote := hmErrBytes_wrote c out
    rw [hmOutFlush_flushed h] at hwrote
    obtain ⟨hdelivered, hstart⟩ := ih (hwrote.buf.trans h)
    rw [hwrote.delivered, hwrote.start, List.append_assoc] at hdelivered
    rw [hwrote.start, ← lineAfter_append] at hstart
    exact ⟨hdelivered, hstart⟩

theorem relay_flush (hne : chunks ≠ []) (out : Out) :
    relay chunks out = relay chunks (hmOutFlush out) := by
  obtain ⟨c, cs, rfl⟩ := List.exists_cons_of_ne_nil hne
  simp only [relay, List.foldl_cons, hmErrBytes, hmOutFlush_flushed (hmOutFlush_buf out)]

theorem streamEnd_bytes (out : Out) : bytesOf (hmErrStreamEnd out).written =
      bytesOf out.written ++ bytesOf [(STDERR_FILENO, if out.stderrLineStart then [] else [LF])] ∧
    (hmErrStreamEnd out).stderrLineStart = true ∧ untouched (hmErrStreamEnd out) =
    untouched out := by
  cases h : out.stderrLineStart with
  | true => simp [hmErrStreamEnd, h, bytesOf]
  | false =>
    have hwrite := hmWriteAll_bytes STDERR_FILENO [LF] out
    have hsame := (hmWriteAll_rest STDERR_FILENO [LF] out).1
    simp only [hmErrStreamEnd, h, Bool.not_false, Bool.false_eq_true, if_true, if_false]
    exact ⟨hwrite, trivial, hsame⟩

theorem streamEnd_delivered (out : Out) : (hmErrStreamEnd out).delivered STDERR_FILENO =
    out.delivered STDERR_FILENO ++ if out.stderrLineStart then [] else [LF] :=
  delivered_append (streamEnd_bytes out).1

/-- The chunks come out like one call with the stream, and at the start of a line the stream comes
out line by line, each behind one marker. -/
def AsOneCall (chunks : List Bytes) (out : Out) : Prop :=
  (hmErrStreamEnd (relay chunks out)).delivered STDERR_FILENO =
    (hmErrStreamEnd (hmErrBytes chunks.flatten out)).delivered STDERR_FILENO ∧
  ((hmOutFlush out).stderrLineStart = true →
    (hmErrStreamEnd (relay chunks out)).delivered STDERR_FILENO =
      (hmOutFlush out).delivered STDERR_FILENO ++ relayed chunks.flatten)

/-- A stream can be cut everywhere but through a marker that begins a line. -/
theorem prefixing_chunks (out : Out) (c : Bytes) (cs : List Bytes) :
    AsOneCall (c :: cs) out ↔ Untorn (hmOutFlush out).stderrLineStart (c :: cs) := by
  obtain ⟨hdelivered, hstart⟩ := relay_wrote (hmOutFlush_buf out) (c :: cs)
  rw [← relay_flush (List.cons_ne_nil c cs) out] at hdelivered hstart
  have hone := hmErrBytes_wrote (c :: cs).flatten out
  rw [AsOneCall, streamEnd_delivered, streamEnd_delivered, hdelivered, hone.delivered,
    hstart, hone.start, ← markChunks_eq_iff]
  constructor
  · rintro ⟨hsame, -⟩
    exact List.append_cancel_left (List.append_cancel_right hsame)
  · intro h
    rw [h]
    refine ⟨rfl, fun hline => ?_⟩
    have hfinished := (finished_eq (c :: cs).flatten).1
    rw [finished] at hfinished
    rw [hline, List.append_assoc, hfinished]

theorem torn_marker_doubled :
    (hmErrStreamEnd (relay [ascii "hac", ascii "man: x\n"] {})).delivered STDERR_FILENO =
      ascii "hacman: hacman: x\n" ∧
    (hmErrStreamEnd (hmErrBytes (ascii "hacman: x\n") {})).delivered STDERR_FILENO =
    ascii "hacman: x\n" ∧
    ¬ AsOneCall [ascii "hac", ascii "man: x\n"] {} := by
  have hparts : (hmErrStreamEnd (relay [ascii "hac", ascii "man: x\n"] {})).delivered
      STDERR_FILENO = ascii "hacman: hacman: x\n" := by decide +kernel
  have hwhole : (hmErrStreamEnd (hmErrBytes [ascii "hac", ascii "man: x\n"].flatten {})).delivered
      STDERR_FILENO = ascii "hacman: x\n" := by decide +kernel
  refine ⟨hparts, hwhole, fun h => ?_⟩
  have hsame := h.1
  rw [hparts, hwhole] at hsame
  exact absurd hsame (by decide)

end Streams

end Hacman.Prefixes
