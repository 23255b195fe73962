import Hacman.SimlBlocks

/-!
# What the events of the parser say about the buffer

Keys and values obey the grammar, and a block line is a whole line of the buffer without
its indentation. The invariant ties the parser to the place that it has reached; `OpenBlock`
is what the events of an unfinished block have told so far.
-/

namespace Hacman.Siml
open Octets Util Config

section Texts

structure BlockLine (line : Bytes) : Prop where
  lf : LF ∉ line
  cr : CR ∉ line
  visible : ∃ c ∈ line, c ≠ SPACE ∧ c ≠ TAB
  last : line.getLast? ≠ some SPACE
  length_le : line.length ≤ SIML_MAX_BLOCK_LINE_LEN

theorem BlockLine.ne_nil {line : Bytes} (h : BlockLine line) : line ≠ [] := by
  rintro rfl
  obtain ⟨c, hc, -⟩ := h.visible
  cases hc

structure BlockLines (lines : List Bytes) : Prop where
  ne_nil : lines ≠ []
  line : ∀ line ∈ lines, line = [] ∨ BlockLine line
  head : lines.head? ≠ some []
  last : lines.getLast? ≠ some []

theorem BlockLines.lf {lines : List Bytes} (h : BlockLines lines) : ∀ line ∈ lines, LF ∉ line := by
  intro line hline
  rcases h.line line hline with rfl | hb
  · exact List.not_mem_nil
  · exact hb.lf

def indentedLine (m : Nat) (line : Bytes) : Bytes :=
  if line = [] then [] else List.replicate m SPACE ++ line

def indentedLines (m : Nat) (lines : List Bytes) : Bytes :=
  (lines.map fun line => indentedLine m line ++ [LF]).flatten

theorem indentedLines_append (m : Nat) (lines lines' : List Bytes) :
    indentedLines m (lines ++ lines') = indentedLines m lines ++ indentedLines m lines' := by
  simp [indentedLines]

theorem indentedLines_singleton (m : Nat) {line : Bytes} (h : line ≠ []) :
    indentedLines m [line] = List.replicate m SPACE ++ line ++ [LF] := by
  simp [indentedLines, indentedLine, h]

/-- `rest` stands at the beginning of a line of the buffer. -/
def LineAt (content : Bytes) (off : Nat) (rest : Bytes) : Prop :=
  ∃ front, content = front ++ rest ∧ front.length = off ∧ (front = [] ∨ front.getLast? = some LF)

theorem LineAt.next {content line rest : Bytes} {off : Nat}
    (h : LineAt content off (line ++ LF :: rest)) :
    LineAt content (off + line.length + 1) rest := by
  obtain ⟨front, hc, hl, -⟩ := h
  refine ⟨front ++ line ++ [LF], ?_, ?_, .inr (by simp)⟩
  · rw [hc]
    simp
  · simp only [List.length_append, List.length_singleton, hl]

theorem LineAt.drop {content rest : Bytes} {off : Nat} (h : LineAt content off rest) :
    content.drop off = rest := by
  obtain ⟨front, rfl, rfl, -⟩ := h
  rw [List.drop_left]

/-- The line that holds a place is found by going back to the line feed before it. -/
theorem LineAt.lineStart {content line rest : Bytes} {off k : Nat}
    (h : LineAt content off (line ++ rest)) (hlf : LF ∉ line) (hk : k ≤ line.length) :
    lineStart content (off + k) = off := by
  obtain ⟨front, rfl, rfl, hfront⟩ := h
  have htake : (front ++ (line ++ rest)).take (front.length + k) = front ++ line.take k := by
    rw [List.take_length_add_append, List.take_append_of_le_length hk]
  have hnot : ∀ b ∈ (line.take k).reverse, (decide (b ≠ LF)) = true := by
    intro b hb
    simp only [ne_eq, decide_eq_true_eq]
    rintro rfl
    exact hlf (List.mem_of_mem_take (List.mem_reverse.mp hb))
  have hback : ((front ++ line.take k).reverse.takeWhile (· ≠ LF)).length = k := by
    rw [List.reverse_append, List.takeWhile_append_of_pos hnot, List.length_append,
      List.length_reverse, List.length_take, Nat.min_eq_left hk]
    rcases hfront with rfl | hfront
    · rfl
    · rw [List.getLast?_eq_head?_reverse] at hfront
      obtain ⟨t, ht⟩ := List.head?_eq_some_iff.mp hfront
      rw [ht, List.takeWhile_cons_of_neg (by simp)]
      rfl
  rw [Config.lineStart, htake, hback]
  omega

end Texts

section Events

/-- What the events of the open block have told: its indentation, the values of its lines
and, from the first of them on, where it begins. -/
structure OpenBlock where
  indent : Nat
  start : Nat := 0
  lines : List Bytes := []

def ScalarSound (key value : Bytes) : Prop :=
  key = [] ∧ LF ∉ value ∨ Key key ∧ Plain value

def PlainEvent : Event → Prop
  | .scalar key value _ => ScalarSound key value
  | .blockStart _ _ => False
  | .blockLine _ => False
  | .blockEnd => False
  | _ => True

inductive EventSound (content : Bytes) : Option OpenBlock → Event → Option OpenBlock → Prop
  | plain {ev : Event} (h : PlainEvent ev) : EventSound content none ev none
  | blockStart {key : Bytes} (line indent : Nat) (h : key = [] ∨ Key key) :
    EventSound content none (.blockStart key line) (some { indent := indent })
  | blank {g : OpenBlock} (h : g.lines ≠ []) :
    EventSound content (some g) (.blockLine ⟨0, 0⟩) (some { g with lines := g.lines ++ [[]] })
  | line {g : OpenBlock} {start : Nat} {line rest : Bytes} (hline : BlockLine line)
      (hat : LineAt content start (indentedLines g.indent (g.lines ++ [line]) ++ rest))
      (hstart : g.lines ≠ [] → start = g.start) :
    EventSound content (some g)
      (.blockLine ⟨start + (indentedLines g.indent g.lines).length + g.indent, line.length⟩)
      (some { g with start := start, lines := g.lines ++ [line] })
  | blockEnd {g : OpenBlock} (h : g.lines ≠ []) (hlast : g.lines.getLast? ≠ some []) :
    EventSound content (some g) .blockEnd none

end Events

section Invariant

/-- The parser has read up to `rest`, apart from the line that it may hold. -/
structure Source (content : Bytes) (p : Parser) (rest : Bytes) : Prop where
  awake : p.docState ≠ .idle
  at_off : LineAt content p.off rest
  input : p.input = rawLines rest
  line : ∀ line, p.line = some line → LF ∉ line.text ∧
    (line.crCode = none → CR ∉ line.text ∧ LineAt content line.off (line.text ++ LF :: rest))

def unread (p : Parser) (rest : Bytes) : Bytes :=
  match p.line with
  | some line => line.text ++ LF :: rest
  | none => rest

structure Inside (b : BlockScalar) (line : PhysLine) : Prop where
  visible : ∃ c ∈ line.text, c ≠ SPACE ∧ c ≠ TAB
  last : line.text.getLast? ≠ some SPACE
  indent : b.indent + 2 ≤ indentOf line.text
  length : line.text.length - (b.indent + 2) ≤ SIML_MAX_BLOCK_LINE_LEN

/-- What a block carries: blank lines are counted until the content line behind them is
known, and that line is held while they are told. -/
structure BlockSound (content : Bytes) (blk : OpenBlock) (p : Parser) (b : BlockScalar)
    (rest : Bytes) : Prop where
  indent : blk.indent = b.indent + 2
  seen : b.seenContent = true ↔ blk.lines ≠ []
  counted : 0 < b.blankCount → blk.lines ≠ []
  emits : b.emitBlanks = true → 0 < b.blankCount
  held : b.emitBlanks = true ∨ blk.lines.getLast? = some [] →
    ∃ line, p.line = some line ∧ Inside b line
  place : blk.lines ≠ [] → LineAt content blk.start
    (indentedLines blk.indent blk.lines ++ (List.replicate b.blankCount LF ++ unread p rest))

/-- What the mode carries agrees with the events so far. -/
def ModeSound (content : Bytes) (g : Option OpenBlock) (p : Parser) (rest : Bytes) : Prop :=
  match p.mode with
  | .normal => g = none
  | .flow text _ _ => g = none ∧ LF ∉ text
  | .block b => ∃ blk, g = some blk ∧ BlockSound content blk p b rest

def Sound (content : Bytes) (g : Option OpenBlock) (p : Parser) : Prop :=
  ∃ rest, Source content p rest ∧ ModeSound content g p rest

def Normal (content : Bytes) (p : Parser) : Prop :=
  p.mode = .normal ∧ ∃ rest, Source content p rest

def Fine (content : Bytes) (g : Option OpenBlock) (s : Step) : Prop :=
  (∃ line msg, s.1 = .error line msg) ∨
    ∃ g', EventSound content g s.1 g' ∧ Sound content g' s.2

variable {content rest : Bytes} {g : Option OpenBlock} {p q : Parser}

theorem fine_error (p : Parser) (code : ErrorCode) : Fine content g (simlSetError p code) :=
  .inl ⟨_, _, rfl⟩

theorem Normal.sound (h : Normal content p) : Sound content none p := by
  obtain ⟨hmode, rest, hs⟩ := h
  refine ⟨rest, hs, ?_⟩
  unfold ModeSound
  rw [hmode]

theorem Normal.fine {ev : Event} (h : Normal content p) (he : PlainEvent ev) :
    Fine content none (ev, p) :=
  .inr ⟨none, .plain he, h.sound⟩

structure SamePlace (p q : Parser) : Prop where
  awake : p.docState ≠ .idle → q.docState ≠ .idle
  input : q.input = p.input
  off : q.off = p.off
  line : q.line = p.line
  mode : q.mode = p.mode

theorem Normal.of_same (h : Normal content p) (hs : SamePlace p q) : Normal content q := by
  obtain ⟨hmode, rest, hawake, hat, hinput, hline⟩ := h
  exact ⟨hs.mode.trans hmode, rest, hs.awake hawake, hs.off ▸ hat, hs.input.trans hinput,
    hs.line ▸ hline⟩

theorem Source.dropLine (h : Source content p rest) : Source content { p with line := none } rest :=
  ⟨h.awake, h.at_off, h.input, nofun⟩

theorem Source.mode (h : Source content p rest) (mode : Mode) :
    Source content { p with mode := mode } rest :=
  ⟨h.awake, h.at_off, h.input, h.line⟩

theorem Normal.dropLine (h : Normal content p) : Normal content { p with line := none } := by
  obtain ⟨hmode, rest, hs⟩ := h
  exact ⟨hmode, rest, hs.dropLine⟩

theorem emitDocEnd_spec (p : Parser) :
    (∀ ev, (emitPendingEnd.emitDocEnd p).1 = some ev → PlainEvent ev) ∧
      SamePlace p (emitPendingEnd.emitDocEnd p).2 := by
  unfold emitPendingEnd.emitDocEnd
  split
  · refine ⟨fun ev h => by cases h; trivial, fun _ => ?_, rfl, rfl, rfl, rfl⟩
    dsimp only
    split_ifs <;> exact DocState.noConfusion
  · split
    · exact ⟨fun ev h => by cases h; trivial, id, rfl, rfl, rfl, rfl⟩
    · exact ⟨nofun, id, rfl, rfl, rfl, rfl⟩

theorem emitPendingEnd_spec (p : Parser) :
    (∀ ev, (emitPendingEnd p).1 = some ev → PlainEvent ev) ∧ SamePlace p (emitPendingEnd p).2 := by
  unfold emitPendingEnd
  split
  · split_ifs
    · exact ⟨fun ev h => by cases h; trivial, id, rfl, rfl, rfl, rfl⟩
    · exact ⟨fun ev h => by cases h; trivial, id, rfl, rfl, rfl, rfl⟩
    · obtain ⟨hev, h⟩ := emitDocEnd_spec { p with pendingClose := none }
      exact ⟨hev, h.awake, h.input, h.off, h.line, h.mode⟩
  · obtain ⟨hev, h⟩ := emitDocEnd_spec { p with pendingClose := none }
    exact ⟨hev, h.awake, h.input, h.off, h.line, h.mode⟩

theorem emitPendingStart_spec (p : Parser) :
    (∀ ev, (emitPendingStart p).1 = some ev → PlainEvent ev) ∧
    SamePlace p (emitPendingStart p).2 := by
  unfold emitPendingStart
  split_ifs
  · exact ⟨fun ev h => by cases h; trivial, id, rfl, rfl, rfl, rfl⟩
  · split
    · exact ⟨fun ev h => by cases h; trivial, id, rfl, rfl, rfl, rfl⟩
    · exact ⟨fun ev h => by cases h; trivial, id, rfl, rfl, rfl, rfl⟩
    · exact ⟨nofun, id, rfl, rfl, rfl, rfl⟩

theorem Normal.returned {r : Option Event × Parser} (h : Normal content p)
    (hev : ∀ ev, r.1 = some ev → PlainEvent ev) (hs : SamePlace p r.2) :
    Fine content none (Siml.returned r) := by
  obtain ⟨ev, q⟩ := r
  cases ev with
  | none => exact .inl ⟨_, _, rfl⟩
  | some ev => exact (h.of_same hs).fine (hev ev rfl)

theorem Normal.returned_end (h : Normal content p) :
    Fine content none (Siml.returned (emitPendingEnd p)) :=
  h.returned (emitPendingEnd_spec p).1 (emitPendingEnd_spec p).2

theorem Normal.returned_start (h : Normal content p) :
    Fine content none (Siml.returned (emitPendingStart p)) :=
  h.returned (emitPendingStart_spec p).1 (emitPendingStart_spec p).2

theorem requestContainerStart_same {type : ContainerType} {indent : Nat}
    (h : requestContainerStart p type indent = .ok q) : SamePlace p q := by
  unfold requestContainerStart at h
  split_ifs at h
  cases h
  exact ⟨id, rfl, rfl, rfl, rfl⟩

theorem Normal.openContainer (h : Normal content p) (type : ContainerType) (indent : Nat) :
    Fine content none (Siml.openContainer p type indent) := by
  unfold Siml.openContainer
  split
  · exact fine_error p _
  · rename_i hq
    exact (h.of_same (requestContainerStart_same hq)).returned_start

end Invariant

section Blocks
variable {content rest : Bytes} {g : Option OpenBlock} {blk : OpenBlock} {p : Parser}
  {b : BlockScalar} {line : PhysLine}

theorem BlockSound.fine {ev : Event} (he : EventSound content g ev (some blk))
    (hs : Source content p rest) (hmode : p.mode = .block b) (h : BlockSound content blk p b rest) :
    Fine content g (ev, p) := by
  refine .inr ⟨some blk, he, rest, hs, ?_⟩
  unfold ModeSound
  rw [hmode]
  exact ⟨blk, rfl, h⟩

theorem emitBlank_fine (hs : Source content p rest) (h : BlockSound content blk p b rest)
    (hblank : 0 < b.blankCount) (hheld : ∃ line, p.line = some line ∧ Inside b line) :
    Fine content (some blk) (emitBlank p b) := by
  have hne := h.counted hblank
  refine BlockSound.fine (.blank hne) (hs.mode _) rfl ?_
  refine ⟨h.indent, ?_, fun _ => by simp, fun he => ?_, fun _ => ?_, fun _ => ?_⟩
  · simp [h.seen, hne]
  · have hcount : b.blankCount - 1 ≠ 0 := by simpa using he
    exact Nat.pos_of_ne_zero hcount
  · obtain ⟨line, hline, hin⟩ := hheld
    exact ⟨line, hline, hin.visible, hin.last, hin.indent, hin.length⟩
  · have hplace := h.place hne
    obtain ⟨n, hn⟩ := Nat.exists_eq_succ_of_ne_zero hblank.ne'
    rw [hn, List.replicate_succ, List.cons_append, ← List.singleton_append] at hplace
    simp only [hn, Nat.succ_sub_one]
    rw [indentedLines_append, List.append_assoc]
    exact hplace

theorem leaveBlock_fine (hs : Source content p rest) (h : BlockSound content blk p b rest)
    (hlast : blk.lines.getLast? ≠ some []) : Fine content (some blk) (leaveBlock p b) := by
  unfold leaveBlock
  split_ifs with hseen hblank
  · exact fine_error p _
  · exact fine_error p _
  · have hne := h.seen.mp (by simpa using hseen)
    exact .inr ⟨none, .blockEnd hne hlast, rest, hs.mode _, rfl⟩

theorem Inside.blockLine (h : Inside b line) (hlf : LF ∉ line.text) (hcr : CR ∉ line.text) :
    ∃ body, line.text = List.replicate (b.indent + 2) SPACE ++ body ∧ BlockLine body := by
  have hsplit := indentOf_spaces line.text
  obtain ⟨k, hk⟩ := Nat.exists_eq_add_of_le h.indent
  obtain ⟨body, htext⟩ : ∃ body, line.text = List.replicate (b.indent + 2) SPACE ++ body :=
    ⟨_, by rw [← List.append_assoc, ← List.replicate_add, ← hk]; exact hsplit⟩
  have hlast := h.last
  have hlength := h.length
  obtain ⟨c, hc, hspace, htab⟩ := h.visible
  rw [htext] at hlf hcr hlast hlength hc
  have hbody : c ∈ body := (List.mem_append.mp hc).resolve_left fun hm =>
    hspace (List.eq_of_mem_replicate hm)
  refine ⟨body, htext, ⟨fun hm => hlf (List.mem_append_right _ hm),
    fun hm => hcr (List.mem_append_right _ hm), ⟨c, hbody, hspace, htab⟩, ?_, ?_⟩⟩
  · rwa [List.getLast?_append_of_ne_nil _ (List.ne_nil_of_mem hbody)] at hlast
  · simpa using hlength

theorem LineAt.unique {off off' : Nat} (h : LineAt content off rest)
    (h' : LineAt content off' rest) : off = off' := by
  obtain ⟨front, hc, rfl, -⟩ := h
  obtain ⟨front', hc', rfl, -⟩ := h'
  have hlen := congrArg List.length (hc.symm.trans hc')
  simp only [List.length_append] at hlen
  omega

theorem LineAt.lines {off m : Nat} {lines : List Bytes}
    (h : LineAt content off (indentedLines m lines ++ rest)) :
    LineAt content (off + (indentedLines m lines).length) rest := by
  rcases List.eq_nil_or_concat lines with rfl | ⟨front, last, rfl⟩
  · exact h
  · rw [List.concat_eq_append, indentedLines_append] at h ⊢
    obtain ⟨before, hc, hl, -⟩ := h
    refine ⟨before ++ (indentedLines m front ++ indentedLines m [last]), ?_, ?_, .inr ?_⟩
    · rw [hc]
      simp
    · rw [List.length_append, hl]
    · simp [indentedLines]

theorem contentLine_fine (hs : Source content p rest) (h : BlockSound content blk p b rest)
    (hline : p.line = some line) (hcode : line.crCode = none) (hin : Inside b line)
    (hcount : b.blankCount = 0) :
    Fine content (some blk) (.blockLine ⟨line.off + (b.indent + 2),
      line.text.length - (b.indent + 2)⟩,
      { p with line := none, mode := .block { b with seenContent := true } }) := by
  obtain ⟨hlf, hat⟩ := hs.line line hline
  obtain ⟨hcr, hat⟩ := hat hcode
  obtain ⟨body, htext, hbody⟩ := hin.blockLine hlf hcr
  have hone : indentedLines blk.indent [body] = line.text ++ [LF] := by
    rw [indentedLines_singleton _ hbody.ne_nil, h.indent, htext]
  have hunread : unread p rest = line.text ++ LF :: rest := by
    rw [unread, hline]
  obtain ⟨start, hplace, hstart⟩ : ∃ start, LineAt content start
      (indentedLines blk.indent blk.lines ++ (line.text ++ LF :: rest)) ∧
        (blk.lines ≠ [] → start = blk.start) := by
    by_cases hne : blk.lines = []
    · exact ⟨line.off, by rw [hne]; exact hat, fun h => absurd hne h⟩
    · have hplace := h.place hne
      rw [hcount, hunread] at hplace
      exact ⟨blk.start, hplace, fun _ => rfl⟩
  have hoff : line.off = start + (indentedLines blk.indent blk.lines).length :=
    hat.unique hplace.lines
  have hall : LineAt content start (indentedLines blk.indent (blk.lines ++ [body]) ++ rest) := by
    rw [indentedLines_append, hone]
    simpa using hplace
  have hlen : line.text.length - (b.indent + 2) = body.length := by
    rw [htext]
    simp
  have hev := EventSound.line hbody hall hstart
  rw [← hoff, h.indent, ← hlen] at hev
  refine BlockSound.fine hev (hs.dropLine.mode _) rfl ⟨rfl, ?_, ?_, ?_, ?_, ?_⟩
  · simp
  · exact fun _ => by simp
  · intro he
    have := h.emits he
    omega
  · rintro (he | he)
    · have := h.emits he
      omega
    · rw [List.getLast?_concat, Option.some.injEq] at he
      exact absurd he hbody.ne_nil
  · intro _
    dsimp only
    rw [hcount]
    exact h.indent ▸ hall

theorem checkLineCommon_ok {n : Nat} (h : checkLineCommon n line = .ok ()) :
    line.crCode = none := by
  cases hcode : line.crCode with
  | none => rfl
  | some code =>
    obtain ⟨code', herror⟩ := checkLineCommon_cr hcode n
    rw [h] at herror
    cases herror

theorem blockContent_fine (hs : Source content p rest) (h : BlockSound content blk p b rest)
    (hline : p.line = some line) (hcode : line.crCode = none) :
    Fine content (some blk) (blockContent p b line) := by
  unfold blockContent
  split_ifs with hall htrail hindent hlong hblank
  · exact fine_error p _
  · exact fine_error p _
  · refine leaveBlock_fine hs h fun hlast => ?_
    obtain ⟨line', hline', hin⟩ := h.held (.inr hlast)
    obtain rfl := Option.some.inj (hline.symm.trans hline')
    have := hin.indent
    omega
  · exact fine_error p _
  all_goals
    have hvisible : ∃ c ∈ line.text, c ≠ SPACE ∧ c ≠ TAB := by simpa using hall
    have hin : Inside b line := ⟨hvisible, htrail, Nat.not_lt.mp hindent, Nat.not_lt.mp hlong⟩
  · exact emitBlank_fine (b := { b with emitBlanks := true }) hs
      ⟨h.indent, h.seen, h.counted, fun _ => hblank, fun _ => ⟨line, hline, hvisible, htrail,
        hin.indent, hin.length⟩, h.place⟩ hblank ⟨line, hline, hvisible, htrail,
          hin.indent, hin.length⟩
  · exact contentLine_fine hs h hline hcode hin (by omega)

theorem Source.taken {raw : Bytes} {raws : List Bytes} (hs : Source content p rest)
    (hinput : p.input = raw :: raws) (hphys : physLine raw p.off = .ok line) :
    ∃ rest', Source content { p.taken raw raws with line := some line } rest' ∧
      (line.crCode = none → rest = line.text ++ LF :: rest') := by
  have hraws : rawLines rest = raw :: raws := hs.input.symm.trans hinput
  have hlast : raw.getLast? = some LF := by
    by_contra hno
    rw [physLine, if_pos hno] at hphys
    cases hphys
  obtain ⟨text, rest', hlf, hrest⟩ : ∃ text rest', LF ∉ text ∧ rest = text ++ LF :: rest' := by
    by_cases hm : LF ∈ rest
    · exact ⟨before LF rest, after LF rest, notMem_before LF rest, (before_after hm).symm⟩
    · cases rest with
      | nil => cases hraws
      | cons c s =>
        rw [rawLines_of_notMem (List.cons_ne_nil c s) hm] at hraws
        obtain ⟨rfl, -⟩ := List.cons.inj hraws
        exact absurd (List.mem_of_getLast? hlast) hm
  rw [hrest, rawLines_line hlf] at hraws
  obtain ⟨rfl, rfl⟩ := List.cons.inj hraws
  have hat := hs.at_off
  rw [hrest] at hat
  have hnext : LineAt content (p.off + (text ++ [LF]).length) rest' := by
    have := hat.next
    rwa [List.length_append, List.length_singleton, ← Nat.add_assoc]
  have htext : LF ∉ line.text ∧ line.off = p.off ∧
      (line.crCode = none → line.text = text ∧ CR ∉ text) := by
    unfold physLine at hphys
    rw [if_neg (not_not.mpr hlast), List.dropLast_concat] at hphys
    dsimp only at hphys
    split_ifs at hphys with hcrlf hcr
    · cases hphys
      exact ⟨fun hm => hlf (List.dropLast_subset _ hm), rfl, fun hnone => by cases hnone⟩
    · cases hphys
      exact ⟨hlf, rfl, fun hnone => by cases hnone⟩
    · cases hphys
      exact ⟨hlf, rfl, fun _ => ⟨rfl, hcr⟩⟩
  refine ⟨rest', ⟨hs.awake, hnext, rfl, fun line' hline' => ?_⟩, fun hcode => ?_⟩
  · obtain rfl := Option.some.inj hline'
    refine ⟨htext.1, fun hcode => ?_⟩
    obtain ⟨he, hcr⟩ := htext.2.2 hcode
    rw [he, htext.2.1]
    exact ⟨hcr, hat⟩
  · rw [(htext.2.2 hcode).1]
    exact hrest

theorem BlockSound.oneBlank (h : BlockSound content blk p b rest) {q : Parser} {rest' : Bytes}
    (hseen : b.seenContent = true) (hquiet : b.emitBlanks = false)
    (hlast : blk.lines.getLast? ≠ some []) (hunread : unread p rest = LF :: unread q rest') :
    BlockSound content blk q b.oneBlank rest' := by
  have hne := h.seen.mp hseen
  refine ⟨h.indent, h.seen, fun _ => hne, fun he => ?_, ?_, fun _ => ?_⟩
  · exact absurd (hquiet.symm.trans he) Bool.false_ne_true
  · rintro (he | he)
    · exact absurd (hquiet.symm.trans he) Bool.false_ne_true
    · exact absurd he hlast
  · have hplace := h.place hne
    rw [hunread, ← List.singleton_append (x := LF), ← List.append_assoc (List.replicate _ LF)]
      at hplace
    rw [BlockScalar.oneBlank, List.replicate_succ']
    exact hplace

theorem readBlock_fine {input : List Bytes} (hs : Source content p rest)
    (hinput : p.input = input) (hline : p.line = none) (hquiet : b.emitBlanks = false)
    (hlast : blk.lines.getLast? ≠ some []) (h : BlockSound content blk p b rest) :
    Fine content (some blk) (readBlock p b input) := by
  induction input generalizing p b rest with
  | nil =>
    have hp : { p with input := [], line := none } = p := by rw [← hinput, ← hline]
    unfold readBlock
    rw [hp]
    exact leaveBlock_fine hs h hlast
  | cons raw raws ih =>
    unfold readBlock
    dsimp only
    split
    · exact fine_error _ _
    · rename_i line hphys
      obtain ⟨rest', hs', hrest⟩ := hs.taken hinput hphys
      split
      · exact fine_error _ _
      · rename_i hcheck
        have hcode := checkLineCommon_ok hcheck
        have hunread : unread p rest = line.text ++ LF :: rest' := by
          rw [unread, hline]
          exact hrest hcode
        split_ifs with htext hseen
        · refine blockContent_fine hs' ⟨h.indent, h.seen, h.counted, h.emits, ?_, fun hne => ?_⟩
            rfl hcode
          · rintro (he | he)
            · exact absurd (hquiet.symm.trans he) Bool.false_ne_true
            · exact absurd he hlast
          · have hplace := h.place hne
            rwa [hunread] at hplace
        · exact fine_error _ _
        · rw [not_not.mp htext] at hunread
          exact ih (hs'.dropLine.mode _) rfl rfl hquiet
            (h.oneBlank (by simpa using hseen) hquiet hlast hunread)

theorem nextBlock_fine (hs : Source content p rest) (h : BlockSound content blk p b rest) :
    Fine content (some blk) (nextBlock p b) := by
  unfold nextBlock
  by_cases hemit : (b.emitBlanks && 0 < b.blankCount) = true
  · rw [if_pos hemit]
    rw [Bool.and_eq_true, decide_eq_true_eq] at hemit
    exact emitBlank_fine hs h hemit.2 (h.held (.inl hemit.1))
  · rw [if_neg hemit]
    have hquiet : b.emitBlanks = false := by
      by_contra he
      rw [Bool.not_eq_false] at he
      simp [he, h.emits he] at hemit
    split
    · rename_i hline
      refine readBlock_fine hs rfl hline hquiet (fun hlast => ?_) h
      obtain ⟨line, hheld, -⟩ := h.held (.inr hlast)
      rw [hline] at hheld
      cases hheld
    · rename_i line hline
      split
      · exact fine_error _ _
      · rename_i hcheck
        have hcode := checkLineCommon_ok hcheck
        split_ifs with htext hseen
        · exact blockContent_fine hs h hline hcode
        · exact fine_error _ _
        · have hunread : unread p rest = LF :: rest := by
            rw [unread, hline]
            dsimp only
            rw [not_not.mp htext]
            rfl
          have hlast : blk.lines.getLast? ≠ some [] := fun hlast => by
            obtain ⟨line', hheld, hin⟩ := h.held (.inr hlast)
            obtain rfl := Option.some.inj (hline.symm.trans hheld)
            obtain ⟨c, hc, -⟩ := hin.visible
            rw [not_not.mp htext] at hc
            cases hc
          exact readBlock_fine (hs.dropLine.mode _) rfl rfl hquiet hlast
            (h.oneBlank (by simpa using hseen) hquiet hlast hunread)

end Blocks

section Flows
variable {content rest text value key : Bytes} {p : Parser} {frames frames' : List FlowFrame}

theorem flowStep_item (h : flowStep text frames = .ok (.item value, frames')) : value ⊆ text := by
  unfold flowStep at h
  split at h
  · cases h
  · rename_i f outer
    split_ifs at h
    · cases h
    · cases h
    · split at h
      · cases h
      · split_ifs at h
        · unfold flowNested at h
          split at h
          · cases h
          · split at h
            · cases h
            · split_ifs at h
              cases h
        · unfold flowItem at h
          dsimp only at h
          split_ifs at h
          split at h
          · cases h
          · cases h
            exact fun b hb => List.mem_of_mem_take (List.mem_of_mem_drop
              ((List.takeWhile_sublist _).subset hb))

theorem nextFlow_fine (hs : Source content p rest) (hlf : LF ∉ text) (frames : List FlowFrame)
    (key : Bytes) : Fine content none (nextFlow p text frames key) := by
  unfold nextFlow
  split
  · exact fine_error p _
  · rename_i ev frames' hstep
    have hsound : Sound content none (if frames' = [] then { p with mode := .normal, line := none }
        else { p with mode := .flow text frames' key }) := by
      split_ifs
      · exact ⟨rest, hs.dropLine.mode _, rfl⟩
      · exact ⟨rest, hs.mode _, rfl, hlf⟩
    cases ev with
    | «open» => exact .inr ⟨none, .plain trivial, hsound⟩
    | close => exact .inr ⟨none, .plain trivial, hsound⟩
    | item value =>
      have hvalue : ScalarSound [] value := .inl ⟨rfl, fun hm => hlf (flowStep_item hstep hm)⟩
      exact .inr ⟨none, .plain hvalue, hsound⟩

end Flows

section Normals
variable {content rest text body key value : Bytes} {p q : Parser} {line : PhysLine}

structure Clean (text : Bytes) : Prop where
  bytes : ∀ b ∈ text, b ≠ LF ∧ b ≠ CR ∧ b ≠ TAB
  last : text.getLast? ≠ some SPACE

theorem Clean.drop (h : Clean text) (n : Nat) : Clean (text.drop n) := by
  refine ⟨fun b hb => h.bytes b (List.mem_of_mem_drop hb), ?_⟩
  rw [List.getLast?_drop]
  split_ifs
  · nofun
  · exact h.last

theorem spacedValue_clean {code : ErrorCode} (h : Clean body)
    (hv : spacedValue body code = .ok value) :
    (∀ b ∈ value, b ≠ LF ∧ b ≠ CR ∧ b ≠ TAB) ∧ (value ≠ [] → value.head? ≠ some SPACE ∧
      (value.head? ≠ some BRACKET_OPEN → value.getLast? ≠ some SPACE ∧
        hashAt SPACE value = none)) := by
  obtain ⟨v, rfl, hspace, hne, hcomment⟩ := spacedValue_ok hv
  have hclean : Clean v := h.drop 1
  have hstart := parseInlineComment_start hcomment
  refine ⟨fun b hb => hclean.bytes b (hstart.subset hb), fun hvalue => ⟨?_, fun hopen => ?_⟩⟩
  · obtain ⟨r, rfl⟩ := hstart
    rwa [List.head?_append_of_ne_nil _ hvalue] at hspace
  · obtain ⟨-, hhash, hlast⟩ := parseInlineComment_ok hcomment hopen hvalue hclean.last
    exact ⟨hlast, hhash⟩

theorem handleInlineValue_fine (h : Normal content p) (hkey : key = [] ∨ Key key) (indent : Nat)
    (hlf : LF ∉ value) (hscalar : value ≠ [] → value.length ≤ SIML_MAX_INLINE_VALUE_LEN →
      value.head? ≠ some PIPE → value.head? ≠ some BRACKET_OPEN → ScalarSound key value) :
    Fine content none (handleInlineValue p key indent value) := by
  obtain ⟨hmode, rest, hs⟩ := h
  unfold handleInlineValue
  split
  · exact fine_error p _
  · rename_i hlen
    split
    · exact fine_error p _
    · rename_i b s
      split_ifs with hpipe hs' hopen hhash
      · exact fine_error p _
      · refine .inr ⟨_, .blockStart p.lineNo (indent + 2) hkey, rest,
          hs.dropLine.mode _, _, rfl, ?_⟩
        exact ⟨rfl, by simp, nofun, nofun, by simp, fun hne => absurd rfl hne⟩
      · exact nextFlow_fine hs hlf _ _
      · exact fine_error p _
      · refine Normal.fine (Normal.dropLine ⟨hmode, rest, hs⟩) ?_
        exact hscalar (List.cons_ne_nil b s) (Nat.not_lt.mp hlen) (by simpa using hpipe)
          (by simpa using hopen)

theorem mappingLine_fine (h : Normal content p) (hbody : Clean body) (indent : Nat)
    (trailing : Bool) : Fine content none (mappingLine p body indent trailing) := by
  unfold mappingLine
  split
  · exact fine_error p _
  · rename_i key value hentry
    obtain ⟨hkey, rest, rfl, hvalue⟩ := parseMappingEntry_ok hentry
    split_ifs
    · exact fine_error p _
    · rcases hvalue with ⟨rfl, -⟩ | ⟨v, rfl, hv⟩
      · exact Normal.fine (h.dropLine.of_same ⟨id, rfl, rfl, rfl, rfl⟩) trivial
      · have hrest : Clean rest := by
          have := hbody.drop (key.length + 1)
          rwa [← List.drop_drop, List.drop_left] at this
        obtain ⟨hbytes, hfacts⟩ := spacedValue_clean hrest hv
        refine handleInlineValue_fine h (.inr hkey) indent (fun hm => (hbytes LF hm).1 rfl) ?_
        intro hne hlen hpipe hopen
        obtain ⟨hspace, hplain⟩ := hfacts hne
        obtain ⟨hlast, hhash⟩ := hplain hopen
        exact .inr ⟨hkey, hne, hlen, hbytes, ⟨hspace, hpipe, hopen⟩, hlast, hhash⟩

theorem sequenceLine_fine (h : Normal content p) (hbody : Clean body) (indent : Nat)
    (trailing : Bool) : Fine content none (sequenceLine p body indent trailing) := by
  have hnested : ∀ type, Fine content none (sequenceLine.nested p indent type) := by
    intro type
    unfold sequenceLine.nested
    split
    · exact fine_error p _
    · rename_i q hq
      have hsame := requestContainerStart_same hq
      exact Normal.returned_start (h.of_same ⟨hsame.awake, hsame.input, hsame.off,
        hsame.line, hsame.mode⟩)
  unfold sequenceLine
  split
  · exact fine_error p _
  · rename_i value hitem
    split_ifs
    · exact fine_error p _
    · exact hnested _
    · exact hnested _
    · have hlf : LF ∉ value := by
        unfold parseSequenceItem at hitem
        split at hitem
        · cases hitem
        · split_ifs at hitem
          exact fun hm => ((spacedValue_clean (hbody.drop 1) hitem).1 LF hm).1 rfl
      exact handleInlineValue_fine h (.inl rfl) indent hlf fun _ _ _ _ => .inl ⟨rfl, hlf⟩

theorem closeTo_fine (h : Normal content p) (target : Nat) : Fine content none (closeTo p target) :=
  Normal.returned_end (h.of_same ⟨id, rfl, rfl, rfl, rfl⟩)

theorem itemLine_fine (h : Normal content p) (hbody : Clean body) (cur : Container) (indent : Nat)
    (trailing : Bool) : Fine content none (itemLine p cur body indent trailing) := by
  unfold itemLine
  split
  · exact fine_error p _
  split
  · split
    · exact fine_error p _
    · exact closeTo_fine h _
  · split
    · split_ifs
      · exact fine_error p _
      · exact mappingLine_fine h hbody indent trailing
    · split_ifs
      · exact sequenceLine_fine h hbody indent trailing
      · exact fine_error p _

theorem separatorLine_fine (h : Normal content p) (trailing : Bool) :
    Fine content none (separatorLine p text trailing) := by
  unfold separatorLine
  split_ifs
  · exact fine_error p _
  · exact fine_error p _
  · exact fine_error p _
  · exact Normal.returned_end (h.dropLine.of_same ⟨id, rfl, rfl, rfl, rfl⟩)
  · split
    · exact fine_error p _
    · dsimp only
      split_ifs <;> exact fine_error p _

theorem nodeLine_fine (h : Normal content p) (htext : Clean text) (indent : Nat) (trailing : Bool) :
    Fine content none (nodeLine p text indent trailing) := by
  have hquiet : Normal content { p with inlineSequenceItem := none } :=
    h.of_same ⟨id, rfl, rfl, rfl, rfl⟩
  have hinside : Normal content { p with
      inlineSequenceItem := none, docState := .inside, pendingDocStart := true } :=
    h.of_same ⟨fun _ hidle => DocState.noConfusion hidle, rfl, rfl, rfl, rfl⟩
  unfold nodeLine
  dsimp only
  generalize (if (text.drop (p.inlineSequenceItem.getD indent)).head? = some DASH then
    ContainerType.seq else .map) = type
  split
  · exact separatorLine_fine hquiet trailing
  split
  · exact fine_error _ _
  split
  · exact fine_error _ _
  · split
    · split_ifs
      · exact fine_error _ _
      · exact fine_error _ _
      · split
        · exact fine_error _ _
        · rename_i q hq
          have hsame := requestContainerStart_same hq
          exact Normal.returned_start
            (hquiet.of_same ⟨hsame.awake, hsame.input, hsame.off, hsame.line, hsame.mode⟩)
    · split_ifs
      · exact fine_error _ _
      · exact hinside.openContainer _ _
      · split
        · exact fine_error _ _
        · exact itemLine_fine hquiet (htext.drop _) _ _ trailing

theorem commentLine_fine (h : Normal content p) (indent : Nat) (trailing : Bool) :
    Fine content none (commentLine p indent trailing) := by
  unfold commentLine
  split_ifs
  · exact fine_error p _
  · split
    · exact fine_error p _
    · split_ifs
      · exact closeTo_fine h _
      · exact Normal.fine h.dropLine trivial

theorem shebangLine_fine (h : Normal content p) (trailing : Bool) :
    Fine content none (shebangLine p text trailing) := by
  unfold shebangLine
  split_ifs
  · exact fine_error p _
  · exact fine_error p _
  · exact fine_error p _
  · exact fine_error p _
  · exact Normal.fine h.dropLine trivial

theorem checkLineNonblock_ok {n : Nat} (h : checkLineNonblock n line = .ok ()) :
    line.crCode = none ∧ TAB ∉ line.text := by
  unfold checkLineNonblock at h
  split at h
  · cases h
  · rename_i hcommon
    split_ifs at h with hempty htab
    exact ⟨checkLineCommon_ok hcommon, htab⟩

theorem normalLine_fine (hmode : p.mode = .normal) (hs : Source content p rest)
    (hline : p.line = some line) : Fine content none (normalLine p line) := by
  unfold normalLine
  split
  · exact fine_error p _
  · rename_i hcheck
    obtain ⟨hcode, htab⟩ := checkLineNonblock_ok hcheck
    obtain ⟨hlf, hcr⟩ := hs.line line hline
    have hclean : Clean (trimmed line.text) := by
      refine ⟨fun b hb => ?_, getLast?_trimmed _⟩
      have hm := (trimmed_start line.text).subset hb
      exact ⟨fun he => hlf (he ▸ hm), fun he => (hcr hcode).1 (he ▸ hm), fun he => htab (he ▸ hm)⟩
    have h : Normal content p := ⟨hmode, rest, hs⟩
    dsimp only
    split_ifs
    · exact shebangLine_fine h _
    · split
      · exact fine_error p _
      · split_ifs
        · exact commentLine_fine h _ _
        · exact nodeLine_fine h hclean _ _

theorem endOfInput_fine (h : Normal content p) : Fine content none (endOfInput p) := by
  unfold endOfInput
  split_ifs
  · exact fine_error p _
  · split
    · exact fine_error p _
    · exact Normal.returned_end (h.of_same ⟨id, rfl, rfl, rfl, rfl⟩)
    · exact Normal.returned_end (h.of_same ⟨id, rfl, rfl, rfl, rfl⟩)

theorem nextNormal_fine (h : Normal content p) : Fine content none (nextNormal p) := by
  obtain ⟨hmode, rest, hs⟩ := h
  unfold nextNormal
  split
  · rename_i line hline
    exact normalLine_fine hmode hs hline
  · split
    · exact endOfInput_fine ⟨hmode, rest, hs⟩
    · rename_i raw raws hinput
      split
      · exact fine_error _ _
      · rename_i line hphys
        obtain ⟨rest', hs', -⟩ := hs.taken hinput hphys
        exact normalLine_fine hmode hs' rfl

/-- Every request of a parser that is sound so far is answered by an error or soundly. -/
theorem simlNext_fine {g : Option OpenBlock} (h : Sound content g p) :
    Fine content g (simlNext p) := by
  obtain ⟨rest, hs, hm⟩ := h
  unfold ModeSound at hm
  unfold simlNext
  split
  · exact .inl ⟨_, _, rfl⟩
  · split
    · rename_i hidle
      exact absurd hidle hs.awake
    · split
      · rename_i text frames key hmode
        rw [hmode] at hm
        obtain ⟨rfl, hlf⟩ := hm
        exact nextFlow_fine hs hlf frames key
      · rename_i b hmode
        rw [hmode] at hm
        obtain ⟨blk, rfl, hb⟩ := hm
        exact nextBlock_fine hs hb
      · rename_i hmode
        rw [hmode] at hm
        subst hm
        have h : Normal content p := ⟨hmode, rest, hs⟩
        obtain ⟨hev, hsame⟩ := emitPendingEnd_spec p
        split
        · rename_i ev q he
          rw [he] at hev hsame
          exact (h.of_same hsame).fine (hev ev rfl)
        · rename_i q he
          rw [he] at hsame
          have hq := h.of_same hsame
          obtain ⟨hev', hsame'⟩ := emitPendingStart_spec q
          split
          · rename_i ev r he'
            rw [he'] at hev' hsame'
            exact (hq.of_same hsame').fine (hev' ev rfl)
          · rename_i r he'
            rw [he'] at hsame'
            exact nextNormal_fine (hq.of_same hsame')

end Normals

end Hacman.Siml
