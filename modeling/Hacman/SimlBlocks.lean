import Hacman.SimlRuns

/-!
# Runs of the parser over block scalars

Inside a block a line is blank, content, or the first line behind the block; blank lines
are counted and come out before the next content line, so that a block never ends with
one. The lines of a block are known from the lines of the input, in both directions.
-/

namespace Hacman.Siml
open Octets Util Config

section States

/-- Inside a block, between two lines. -/
def inBlock (stack : List Container) (input : List Bytes) (off n : Nat) (b : BlockScalar) :
    Parser :=
  { within stack input off n with mode := .block b }

/-- Inside a block, at a content line that waits for blank lines to come out. -/
def atContent (stack : List Container) (input : List Bytes) (off n : Nat) (line : PhysLine)
    (b : BlockScalar) : Parser :=
  { holding stack input off n line with mode := .block b }

variable {stack : List Container} {raw text : Bytes} {rest : List Bytes} {off n : Nat}
  {line : PhysLine} {b : BlockScalar} {out : List Event}

theorem next_inBlock (input : List Bytes) (hb : b.emitBlanks = false) :
    simlNext (inBlock stack input off n b) = readBlock (inBlock stack input off n b) b input := by
  simp [simlNext, inBlock, within, nextBlock, hb]

structure LineText (text : Bytes) : Prop where
  ne_nil : text ≠ []
  cr : CR ∉ text
  length_le : text.length ≤ SIML_MAX_LINE_LEN

theorem LineText.physLine (h : LineText text) (off : Nat) :
    physLine (text ++ [LF]) off = .ok ⟨text, off, none⟩ :=
  physLine_line off h.cr

theorem LineText.check (h : LineText text) (hn : n ≠ 1) (off : Nat) :
    checkLineCommon n ⟨text, off, none⟩ = .ok () := by
  unfold checkLineCommon
  rw [if_neg (Nat.not_lt.mpr h.length_le), if_neg fun h => hn h.1]

theorem next_line (h : LineText text) (hb : b.emitBlanks = false) (hn : 0 < n) :
    simlNext (inBlock stack ((text ++ [LF]) :: rest) off n b) =
      blockContent (atContent stack rest (off + (text ++ [LF]).length) (n + 1) ⟨text, off, none⟩ b)
        b ⟨text, off, none⟩ := by
  have hcheck := h.check (n := n + 1) (by omega) off
  rw [next_inBlock _ hb]
  simp only [readBlock, inBlock, within, Parser.taken, h.physLine off, hcheck]
  rw [if_pos h.ne_nil]
  rfl

theorem next_blank (hb : b.emitBlanks = false) (hs : b.seenContent = true) (hn : 0 < n) :
    simlNext (inBlock stack ([LF] :: rest) off n b) =
      simlNext (inBlock stack rest (off + [LF].length) (n + 1) b.oneBlank) := by
  have hcheck : checkLineCommon (n + 1) ⟨[], off, none⟩ = .ok () := by
    unfold checkLineCommon
    rw [if_neg (by simp), if_neg fun h => by omega]
  have hphys : physLine [LF] off = .ok ⟨[], off, none⟩ := by
    simp [physLine]
  have hb' : b.oneBlank.emitBlanks = false := hb
  rw [next_inBlock _ hb, next_inBlock _ hb']
  simp only [readBlock, inBlock, within, Parser.taken, hphys, hcheck, hs]
  rfl

end States

section Content
variable {stack : List Container} {raw text : Bytes} {rest : List Bytes} {off n : Nat}
  {b : BlockScalar} {out : List Event}

structure ContentText (k : Nat) (text : Bytes) : Prop where
  cr : CR ∉ text
  visible : ∃ c ∈ text, c ≠ SPACE ∧ c ≠ TAB
  last : text.getLast? ≠ some SPACE
  indent : k + 2 ≤ indentOf text
  length_le : text.length ≤ k + 2 + SIML_MAX_BLOCK_LINE_LEN
  line_le : text.length ≤ SIML_MAX_LINE_LEN

theorem ContentText.lineText {k : Nat} (h : ContentText k text) : LineText text := by
  refine ⟨?_, h.cr, h.line_le⟩
  rintro rfl
  obtain ⟨c, hc, -⟩ := h.visible
  cases hc

def contentEvent (k off : Nat) (text : Bytes) : Event :=
  .blockLine ⟨off + (k + 2), text.length - (k + 2)⟩

def blankEvent : Event := .blockLine ⟨0, 0⟩

theorem not_all_blank (h : ∃ c ∈ text, c ≠ SPACE ∧ c ≠ TAB) :
    ¬ (text.all fun c => c = SPACE || c = TAB) = true := by
  obtain ⟨c, hc, hne⟩ := h
  intro hall
  have := List.all_eq_true.mp hall c hc
  simp [hne] at this

theorem blockContent_eq (h : ContentText b.indent text) (p : Parser) :
    blockContent p b ⟨text, off, none⟩ =
      if 0 < b.blankCount then emitBlank p { b with emitBlanks := true }
      else (contentEvent b.indent off text,
        { p with line := none, mode := .block { b with seenContent := true } }) := by
  have hlen : ¬ SIML_MAX_BLOCK_LINE_LEN < text.length - (b.indent + 2) := by
    have := h.length_le
    omega
  unfold blockContent
  rw [if_neg (not_all_blank h.visible), if_neg h.last,
    if_neg (Nat.not_lt.mpr h.indent), if_neg hlen]
  rfl

theorem next_atContent_blank {line : PhysLine} (hb : b.emitBlanks = true) (hc : 0 < b.blankCount) :
    simlNext (atContent stack rest off n line b) =
      emitBlank (atContent stack rest off n line b) b := by
  simp [simlNext, atContent, holding, within, nextBlock, hb, hc]

theorem yields_blanks (h : ContentText b.indent text) (hn : n ≠ 1) (k : Nat)
    (hk : b.blankCount = k) (hb : b.emitBlanks = decide (k ≠ 0)) :
    Pull.Yields simlNext isFinal (atContent stack rest off n ⟨text, raw.length, none⟩ b)
      (List.replicate k blankEvent ++ [contentEvent b.indent raw.length text])
      (inBlock stack rest off n
        { b with seenContent := true, blankCount := 0, emitBlanks := false }) := by
  induction k generalizing b with
  | zero =>
    have hb' : b.emitBlanks = false := by simpa using hb
    have hcheck := h.lineText.check hn raw.length
    refine .single ?_ rfl
    have hnext : simlNext (atContent stack rest off n ⟨text, raw.length, none⟩ b) =
        blockContent (atContent stack rest off n ⟨text, raw.length, none⟩ b) b
          ⟨text, raw.length, none⟩ := by
      simp only [simlNext, atContent, holding, within, nextBlock, hb', Bool.false_and,
        Bool.false_eq_true, ↓reduceIte, hcheck, reduceCtorEq]
      rw [if_pos h.lineText.ne_nil]
    rw [hnext, blockContent_eq h, if_neg (by omega)]
    obtain ⟨key, indent, seen, blanks, emit⟩ := b
    obtain rfl : blanks = 0 := hk
    obtain rfl : emit = false := hb'
    rfl
  | succ k ih =>
    have hb' : b.emitBlanks = true := by simpa using hb
    rw [List.replicate_succ, List.cons_append]
    refine .cons (next_atContent_blank hb' (by omega)) rfl ?_
    have hrec := @ih { b with blankCount := b.blankCount - 1, emitBlanks := b.blankCount - 1 ≠ 0 } h
      (by simp [hk]) (by simp [hk])
    exact hrec

theorem content_yields (h : ContentText b.indent text) (hb : b.emitBlanks = false) (hn : 0 < n) :
    Pull.Yields simlNext isFinal (inBlock stack ((text ++ [LF]) :: rest) off n b)
      (List.replicate b.blankCount blankEvent ++ [contentEvent b.indent off text])
      (inBlock stack rest (off + (text ++ [LF]).length) (n + 1)
        { b with seenContent := true, blankCount := 0 }) := by
  have hnext := @next_line stack text rest off n b h.lineText hb hn
  rw [blockContent_eq h] at hnext
  by_cases hc : 0 < b.blankCount
  · rw [if_pos hc] at hnext
    obtain ⟨k, hk⟩ := Nat.exists_eq_succ_of_ne_zero hc.ne'
    rw [hk, List.replicate_succ, List.cons_append]
    refine .cons hnext rfl ?_
    have hrest := @yields_blanks stack (List.replicate off 0) text rest
      (off + (text ++ [LF]).length) (n + 1)
      { b with blankCount := b.blankCount - 1, emitBlanks := b.blankCount - 1 ≠ 0 } h (by omega) k
      (by simp [hk]) (by simp [hk])
    rw [List.length_replicate] at hrest
    obtain ⟨key, indent, seen, blanks, emit⟩ := b
    obtain rfl : emit = false := hb
    exact hrest
  · rw [if_neg hc] at hnext
    have hzero : b.blankCount = 0 := by omega
    rw [hzero]
    refine .single ?_ rfl
    rw [hnext]
    obtain ⟨key, indent, seen, blanks, emit⟩ := b
    obtain rfl : blanks = 0 := hzero
    rfl

end Content

section Refused
variable {stack : List Container} {text u w : Bytes} {rest : List Bytes} {off n : Nat}
  {b : BlockScalar} {out : List Event}

theorem le_indentOf {m : Nat} (h : List.replicate m SPACE <+: text) : m ≤ indentOf text := by
  obtain ⟨t, rfl⟩ := h
  rw [indentOf, List.takeWhile_append_of_pos (by simp), List.length_append, List.length_replicate]
  exact Nat.le_add_right _ _

theorem not_accepts_refused (hne : text ≠ []) (hb : b.emitBlanks = false) (hn : 0 < n)
    (h : CR ∉ text → text.length ≤ SIML_MAX_LINE_LEN → ∀ p, ∃ code,
      blockContent p b ⟨text, off, none⟩ = simlSetError p code) :
    ¬ Accepts (inBlock stack ((text ++ [LF]) :: rest) off n b) out := by
  by_cases hcr : CR ∈ text
  · obtain ⟨line, code, hline, hcode⟩ := physLine_cr off hcr
    obtain ⟨code', hcommon⟩ := checkLineCommon_cr hcode (n + 1)
    refine @not_accepts_error out _ ((inBlock stack ((text ++ [LF]) :: rest) off n b).taken
      (text ++ [LF]) rest) code' ?_
    rw [next_inBlock _ hb]
    simp only [readBlock, inBlock, within, Parser.taken, hline, hcommon]
  · by_cases hlen : text.length ≤ SIML_MAX_LINE_LEN
    · have hnext := @next_line stack text rest off n b ⟨hne, hcr, hlen⟩ hb hn
      obtain ⟨code, hcode⟩ := h hcr hlen
        (atContent stack rest (off + (text ++ [LF]).length) (n + 1) ⟨text, off, none⟩ b)
      exact not_accepts_error (hnext.trans hcode)
    · refine @not_accepts_error out _ ((inBlock stack ((text ++ [LF]) :: rest) off n b).taken
        (text ++ [LF]) rest) .lineTooLong ?_
      rw [next_inBlock _ hb]
      simp only [readBlock, inBlock, within, Parser.taken, physLine_line off hcr, checkLineCommon,
        Nat.not_le.mp hlen, ↓reduceIte]

theorem not_accepts_content (hne : text ≠ []) (hb : b.emitBlanks = false) (hn : 0 < n)
    (hin : b.indent + 2 ≤ indentOf text) (h : ¬ ContentText b.indent text) :
    ¬ Accepts (inBlock stack ((text ++ [LF]) :: rest) off n b) out := by
  refine not_accepts_refused hne hb hn fun hcr hlen p => ?_
  unfold blockContent
  dsimp only
  by_cases hvis : (text.all fun c => c = SPACE || c = TAB) = true
  · exact ⟨_, if_pos hvis⟩
  · rw [if_neg hvis]
    by_cases hlast : text.getLast? = some SPACE
    · exact ⟨_, if_pos hlast⟩
    · rw [if_neg hlast, if_neg (Nat.not_lt.mpr hin)]
      by_cases hlong : SIML_MAX_BLOCK_LINE_LEN < text.length - (b.indent + 2)
      · exact ⟨_, if_pos hlong⟩
      · refine absurd ⟨hcr, ?_, hlast, hin, by omega, hlen⟩ h
        simpa using hvis

theorem not_accepts_empty {c : UInt8} {s : Bytes} (hc : c ≠ SPACE ∧ c ≠ TAB)
    (hseen : b.seenContent = false) (hb : b.emitBlanks = false) (hn : 0 < n) :
    ¬ Accepts (inBlock stack ((c :: s ++ [LF]) :: rest) off n b) out := by
  refine not_accepts_refused (List.cons_ne_nil c s) hb hn fun _ _ p => ?_
  have hindent : indentOf (c :: s) = 0 := indentOf_append hc.1 0 s
  unfold blockContent leaveBlock
  dsimp only
  rw [if_neg (not_all_blank ⟨c, List.mem_cons_self, hc⟩), hindent, if_pos (Nat.succ_pos _), hseen]
  by_cases hlast : (c :: s).getLast? = some SPACE
  · exact ⟨_, if_pos hlast⟩
  · exact ⟨_, if_neg hlast⟩

theorem not_accepts_end (hseen : b.seenContent = false) (hb : b.emitBlanks = false) :
    ¬ Accepts (inBlock stack [] off n b) out := by
  refine @not_accepts_error out _ (inBlock stack [] off n b) .blockEmpty ?_
  rw [next_inBlock _ hb]
  simp only [readBlock, leaveBlock, hseen]
  rfl

theorem rawLines_of_notMem (hne : text ≠ []) (h : LF ∉ text) : rawLines text = [text] := by
  induction text with
  | nil => exact absurd rfl hne
  | cons c s ih =>
    simp only [List.mem_cons, not_or] at h
    cases s with
    | nil => simp [rawLines, Ne.symm h.1]
    | cons c' s =>
      rw [rawLines, if_neg (Ne.symm h.1), ih (List.cons_ne_nil c' s) h.2]

theorem not_accepts_unterminated (hne : text ≠ []) (h : LF ∉ text) (hb : b.emitBlanks = false) :
    ¬ Accepts (inBlock stack (rawLines text) off n b) out := by
  have hphys : physLine text off = .error .finalLineNoLf :=
    if_pos fun hl => h (List.mem_of_getLast? hl)
  refine @not_accepts_error out _ ((inBlock stack [text] off n b).taken text []) .finalLineNoLf ?_
  rw [rawLines_of_notMem hne h, next_inBlock _ hb]
  simp only [readBlock, inBlock, within, Parser.taken, hphys]

theorem not_accepts_long (hu : LF ∉ u) (hin : List.replicate (b.indent + 2) SPACE <+: u)
    (hlen : b.indent + 2 + SIML_MAX_BLOCK_LINE_LEN < u.length) (hb : b.emitBlanks = false)
    (hn : 0 < n) : ¬ Accepts (inBlock stack (rawLines (u ++ w)) off n b) out := by
  have hne : ∀ t : Bytes, u ++ t ≠ [] := fun t h => by
    rw [(List.append_eq_nil_iff.mp h).1] at hlen
    exact absurd hlen (Nat.not_lt_zero _)
  by_cases hw : LF ∈ w
  · obtain ⟨t, s, hts, hnot⟩ := List.eq_append_cons_of_mem hw
    rw [hts, ← List.append_assoc, rawLines_line (by simp [hu, hnot])]
    refine not_accepts_content (hne t) hb hn (le_indentOf (hin.trans (List.prefix_append ..)))
      fun h => ?_
    have := h.length_le
    rw [List.length_append] at this
    omega
  · exact not_accepts_unterminated (hne w) (by simp [hu, hw]) hb

end Refused

section Ends
variable {stack : List Container} {rest : List Bytes} {off n : Nat} {b : BlockScalar}
  {out : List Event}

theorem accepts_leave {k : Nat} {c : UInt8} {s : Bytes} (h : NodeText c s) (hk : k < b.indent + 2)
    (hk' : k ≤ 512) (hlast : (c :: s).getLast? ≠ some SPACE) (hseen : b.seenContent = true)
    (hblank : b.blankCount = 0) (hb : b.emitBlanks = false) (hn : 0 < n) :
    Accepts (inBlock stack ((List.replicate k SPACE ++ c :: s ++ [LF]) :: rest) off n b) out ↔
      ∃ tail, out = .blockEnd :: tail ∧
        Accepts (within stack ((List.replicate k SPACE ++ c :: s ++ [LF]) :: rest) off n) tail := by
  have hphys := h.physLine k off
  have hlen := h.length_le
  have hcr : CR ∉ List.replicate k SPACE ++ c :: s := by
    rw [List.mem_append, not_or]
    exact ⟨fun hm => absurd (List.eq_of_mem_replicate hm) (by decide), h.cr⟩
  have htext : LineText (List.replicate k SPACE ++ c :: s) := by
    refine ⟨by simp, hcr, ?_⟩
    simp only [SIML_MAX_LINE_LEN, List.length_append, List.length_replicate, List.length_cons]
    omega
  have hnext := @next_line stack _ rest off n b htext hb hn
  have hvis : ¬ ((List.replicate k SPACE ++ c :: s).all fun c => c = SPACE || c = TAB) = true :=
    not_all_blank ⟨c, by simp, h.first.1, h.first.2.2.2⟩
  have hlast' : (List.replicate k SPACE ++ c :: s).getLast? ≠ some SPACE := by
    rwa [List.getLast?_append_of_ne_nil _ (List.cons_ne_nil c s)]
  have hleave : ∀ p, blockContent p b ⟨List.replicate k SPACE ++ c :: s, off, none⟩ =
      (.blockEnd, { p with mode := .normal }) := by
    intro p
    unfold blockContent leaveBlock
    rw [if_neg hvis, if_neg hlast', indentOf_append h.first.1, if_pos hk, hseen, hblank]
    rfl
  refine (Pull.accepts_of_next (hnext.trans (hleave _)) rfl).trans ?_
  exact exists_congr fun tail => and_congr_right fun _ => accepts_holding hphys

theorem next_end (hseen : b.seenContent = true) (hblank : b.blankCount = 0)
    (hb : b.emitBlanks = false) :
    simlNext (inBlock stack [] off n b) = (.blockEnd, within stack [] off n) := by
  rw [next_inBlock _ hb]
  simp [readBlock, leaveBlock, hseen, hblank, inBlock, within]

theorem accepts_endOfInput {k : Nat} :
    Accepts (within [⟨.map, k⟩] [] off n) out ↔
      out = [.mappingEnd n, .documentEnd, .streamEnd] := by
  have hmap : simlNext (within [⟨.map, k⟩] [] off n) = (.mappingEnd n,
      { within [] [] off n with
        pendingClose := some 0, pendingDocEnd := true, pendingStreamEnd := true }) := by
    simp [simlNext, within, nextNormal, emitPendingStart, emitPendingEnd, emitPendingEnd.emitDocEnd,
      endOfInput, returned]
  have hdoc : simlNext { within [] [] off n with
      pendingClose := some 0, pendingDocEnd := true, pendingStreamEnd := true } = (.documentEnd,
      { within [] [] off n with docState := .before, pendingStreamEnd := true }) := by
    simp [simlNext, within, emitPendingEnd, emitPendingEnd.emitDocEnd]
  have hstream :
      simlNext { within [] [] off n with docState := .before, pendingStreamEnd := true } =
      (.streamEnd, { within [] [] off n with docState := .before }) := by
    simp [simlNext, within, emitPendingEnd, emitPendingEnd.emitDocEnd]
  have hgo : Pull.Yields simlNext isFinal (within [⟨.map, k⟩] [] off n)
      [.mappingEnd n, .documentEnd]
      { within [] [] off n with docState := .before, pendingStreamEnd := true } :=
    .cons hmap rfl (.single hdoc rfl)
  refine hgo.accepts_iff.trans ?_
  simp only [(Pull.accepts_of_good hstream rfl rfl : Accepts _ _ ↔ _)]
  constructor
  · intro h
    obtain ⟨tail, rfl, rfl⟩ := h
    rfl
  · intro h
    exact ⟨_, h, rfl⟩

theorem nodeLine_first {c : UInt8} {s : Bytes} {p : Parser} (hs : NotDashes (c :: s))
    (hc : c ≠ DASH)
    (hp : p.docState = .before ∧ p.pendingMap = none ∧ p.inlineSequenceItem = none ∧ p.stack = [])
    (trailing : Bool) :
    nodeLine p (c :: s) 0 trailing = (.documentStart p.lineNo,
      { p with docState := .inside, stack := [⟨.map, 0⟩], pendingContainerStart := some .map
               pendingDocStart := false, inlineSequenceItem := none }) := by
  obtain ⟨hdoc, hmap, hitem, hstack⟩ := hp
  have hzero : ¬ (True ∧ dashes <+: c :: s) := fun h => hs h.2
  unfold nodeLine
  simp only [hitem, Option.getD_none, List.drop_zero]
  rw [if_neg hzero, if_neg (by simp), if_neg (List.cons_ne_nil c s)]
  simp [hmap, hdoc, hstack, hc, openContainer, requestContainerStart, SIML_MAX_NESTING,
    emitPendingStart, returned]

theorem next_before {raw : Bytes} {line : PhysLine} (h : physLine raw 0 = .ok line) :
    simlNext { input := raw :: rest, docState := .before } =
      normalLine { Parser.taken { input := raw :: rest, docState := .before } raw rest with
        line := some line } line := by
  simp [simlNext, emitPendingEnd, emitPendingEnd.emitDocEnd, emitPendingStart, nextNormal,
    Parser.taken, h]

theorem accepts_start {c : UInt8} {s : Bytes} (h : NodeText c s) (hc : c ≠ DASH) (hlf : LF ∉ c :: s)
    (tail : Bytes) :
    Accepts (start (c :: s ++ LF :: tail)) out ↔
      ∃ evs, out = [.streamStart, .documentStart 1, .mappingStart 1] ++ evs ∧
        Accepts (within [⟨.map, 0⟩] (rawLines (c :: s ++ LF :: tail)) 0 0) evs := by
  have hphys : physLine (c :: s ++ [LF]) 0 = .ok ⟨c :: s, 0, none⟩ := h.physLine 0 0
  have hlines := rawLines_line hlf tail
  have hlen := h.length_le
  let p : Parser := { input := (c :: s ++ [LF]) :: rawLines tail, docState := .before }
  let held : Parser :=
    { p.taken (c :: s ++ [LF]) (rawLines tail) with line := some ⟨c :: s, 0, none⟩ }
  let opened : Parser := { held with docState := .inside, stack := [⟨.map, 0⟩]
                                     pendingContainerStart := some .map }
  have hnormal := @normalLine_node c s 0 0 h.first rfl
    (by simp only [SIML_MAX_LINE_LEN]; omega) h.tab held
  have hdoc : simlNext p = (.documentStart 1, opened) :=
    (next_before hphys).trans (hnormal.trans (nodeLine_first h.trimmed hc ⟨rfl, rfl, rfl, rfl⟩ _))
  have hbegin : simlNext (start (c :: s ++ LF :: tail)) = (.streamStart, p) := by
    rw [start, hlines]
    rfl
  have hopen : simlNext opened = (.mappingStart 1,
      holding [⟨.map, 0⟩] (rawLines tail) (0 + (c :: s ++ [LF]).length) (0 + 1)
        ⟨c :: s, 0, none⟩) := rfl
  have hgo : Pull.Yields simlNext isFinal (start (c :: s ++ LF :: tail))
      [.streamStart, .documentStart 1, .mappingStart 1]
      (holding [⟨.map, 0⟩] (rawLines tail) (0 + (c :: s ++ [LF]).length) (0 + 1)
        ⟨c :: s, 0, none⟩) :=
    .cons hbegin rfl (.cons hdoc rfl (.single hopen rfl))
  refine hgo.accepts_iff.trans (exists_congr fun evs => and_congr_right fun _ => ?_)
  rw [hlines]
  exact accepts_holding hphys

end Ends

end Hacman.Siml
