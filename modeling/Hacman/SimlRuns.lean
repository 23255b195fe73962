import Hacman.SimlText

/-!
# Runs of the parser over whole lines

A document is parsed line by line. Between two lines the parser is determined by the
open containers, the input that is left and the counters, so each form of a line has
one lemma: what is emitted for it and which state follows, or that nothing is accepted
from there on.
-/

namespace Hacman.Siml
open Octets Util Config

def isFinal : Event → Bool
  | .streamEnd => true
  | .error _ _ => true
  | _ => false

/-- All events of a parse, up to the end of the stream or an error. -/
abbrev Emits (p : Parser) (out : List Event) : Prop := Pull.Ends simlNext isFinal p out

/-- The grammar accepts: the events end with the end of the stream. -/
abbrev Accepts (p : Parser) (out : List Event) : Prop :=
  Pull.Accepts simlNext isFinal (· = .streamEnd) p out

/-- A stretch of a document: whether it can be taken, and what its events are. -/
abbrev Passes (p q : Parser) (C : Prop) (P : List Event → Prop) : Prop :=
  Pull.Passes simlNext isFinal (· = .streamEnd) p q C P

section Reading

inductive Value
  | scalar (v : Bytes)
  | block (lines : List Bytes)
  deriving DecidableEq, Repr

def blockTexts (text : Bytes) : List Event → List Bytes
  | .blockLine value :: evs => (text.drop value.off).take value.len :: blockTexts text evs
  | _ => []

def entries (text : Bytes) (d : Nat) : List Event → List (Bytes × Value)
  | [] => []
  | .mappingStart _ :: evs => entries text (d + 1) evs
  | .sequenceStart _ _ :: evs => entries text (d + 1) evs
  | .mappingEnd _ :: evs => entries text (d - 1) evs
  | .sequenceEnd :: evs => entries text (d - 1) evs
  | .scalar key v _ :: evs =>
    if d = 1 then (key, .scalar v) :: entries text d evs else entries text d evs
  | .blockStart key _ :: evs =>
    if d = 1 then (key, .block (blockTexts text evs)) :: entries text d evs
    else entries text d evs
  | _ :: evs => entries text d evs

def Adds (key : Bytes) (evs : List Event) : Prop :=
  ∀ text tail, ∃ new, entries text 1 (evs ++ tail) = new ++ entries text 1 tail ∧
    ∀ e ∈ new, e.1 = key

theorem adds_scalar (key v : Bytes) (n : Nat) : Adds key [.scalar key v n] := by
  intro text tail
  refine ⟨[(key, .scalar v)], rfl, ?_⟩
  simp

/-- Events that lead from `d` to `d'` open containers; of the keys that are asked for they
add `R` to the outermost mapping. -/
def Reads (text : Bytes) (wanted : List Bytes) (d d' : Nat) (R : List (Bytes × Value))
    (evs : List Event) : Prop :=
  ∀ tail, ∃ new, entries text d (evs ++ tail) = new ++ entries text d' tail ∧
    new.filter (fun e => e.1 ∈ wanted) = R

def asked (wanted : List Bytes) (es : List (Bytes × Value)) : List (Bytes × Value) :=
  es.filter fun e => e.1 ∈ wanted

variable {text : Bytes} {wanted : List Bytes} {d d' d'' : Nat} {R R' : List (Bytes × Value)}
  {evs evs' : List Event}

theorem Reads.append (h : Reads text wanted d d' R evs) (h' : Reads text wanted d' d'' R' evs') :
    Reads text wanted d d'' (R ++ R') (evs ++ evs') := by
  intro tail
  obtain ⟨new, hnew, hr⟩ := h (evs' ++ tail)
  obtain ⟨new', hnew', hr'⟩ := h' tail
  refine ⟨new ++ new', ?_, by rw [List.filter_append, hr, hr']⟩
  rw [List.append_assoc, hnew, hnew', List.append_assoc]

theorem reads_silent (h : ∀ tail, entries text d (evs ++ tail) = entries text d' tail) :
    Reads text wanted d d' [] evs :=
  fun tail => ⟨[], h tail, rfl⟩

theorem Adds.reads {key : Bytes} (h : Adds key evs) (hkey : key ∉ wanted) :
    Reads text wanted 1 1 [] evs := by
  intro tail
  obtain ⟨new, hnew, hall⟩ := h text tail
  refine ⟨new, hnew, List.filter_eq_nil_iff.mpr fun e he => ?_⟩
  rw [hall e he]
  simpa using hkey

theorem reads_scalar {key : Bytes} (hkey : key ∈ wanted) (v : Bytes) (n : Nat) :
    Reads text wanted 1 1 [(key, .scalar v)] [.scalar key v n] :=
  fun _ => ⟨[(key, .scalar v)], rfl, by simp [hkey]⟩

theorem reads_inner (hd : d ≠ 1) (key v : Bytes) (n : Nat) :
    Reads text wanted d d [] [.scalar key v n] :=
  reads_silent fun tail => by rw [List.singleton_append, entries, if_neg hd]

end Reading

section States

def within (stack : List Container) (input : List Bytes) (off n : Nat) : Parser :=
  { input := input, off := off, lineNo := n, docState := .inside, stack := stack }

def holding (stack : List Container) (input : List Bytes) (off n : Nat) (line : PhysLine) :
    Parser :=
  { within stack input off n with line := some line }

variable {stack : List Container} {raw : Bytes} {rest : List Bytes} {off n : Nat} {line : PhysLine}
  {out : List Event}

theorem next_within (h : physLine raw off = .ok line) :
    simlNext (within stack (raw :: rest) off n) =
      normalLine (holding stack rest (off + raw.length) (n + 1) line) line := by
  simp [simlNext, within, holding, emitPendingEnd, emitPendingEnd.emitDocEnd, emitPendingStart,
    nextNormal, Parser.taken, h]

theorem next_holding :
    simlNext (holding stack rest off n line) =
      normalLine (holding stack rest off n line) line := by
  simp [simlNext, within, holding, emitPendingEnd, emitPendingEnd.emitDocEnd, emitPendingStart,
    nextNormal]

theorem accepts_holding (h : physLine raw off = .ok line) :
    Accepts (holding stack rest (off + raw.length) (n + 1) line) out ↔
      Accepts (within stack (raw :: rest) off n) out :=
  Pull.accepts_congr (next_holding.trans (next_within h).symm)

theorem not_accepts_error {p q : Parser} {code : ErrorCode} (h : simlNext p = simlSetError q code) :
    ¬ Accepts p out :=
  Pull.not_accepts_of_bad h rfl nofun

end States

section Lines

theorem rawLines_line {text : Bytes} (h : LF ∉ text) (s : Bytes) :
    rawLines (text ++ LF :: s) = (text ++ [LF]) :: rawLines s := by
  induction text with
  | nil => simp [rawLines]
  | cons b text ih =>
    simp only [List.mem_cons, not_or] at h
    simp [rawLines, Ne.symm h.1, ih h.2]

theorem physLine_line {text : Bytes} (off : Nat) (h : CR ∉ text) :
    physLine (text ++ [LF]) off = .ok ⟨text, off, none⟩ := by
  have hlast : text.getLast? ≠ some CR := fun hl => h (List.mem_of_getLast? hl)
  simp [physLine, hlast, h]

theorem physLine_cr {text : Bytes} (off : Nat) (h : CR ∈ text) :
    ∃ line code, physLine (text ++ [LF]) off = .ok line ∧ line.crCode = some code := by
  by_cases hlast : text.getLast? = some CR
  · exact ⟨⟨text.dropLast, off, some .crlf⟩, .crlf, by simp [physLine, hlast], rfl⟩
  · exact ⟨⟨text, off, some .cr⟩, .cr, by simp [physLine, hlast, h], rfl⟩

theorem checkLineCommon_cr {line : PhysLine} {code : ErrorCode} (h : line.crCode = some code)
    (n : Nat) : ∃ code', checkLineCommon n line = .error code' := by
  unfold checkLineCommon
  split_ifs
  · exact ⟨_, rfl⟩
  · exact ⟨_, rfl⟩
  · rw [h]
    exact ⟨_, rfl⟩

variable {b : UInt8} {s : Bytes} {k : Nat} {off : Nat}

def NodeByte (b : UInt8) : Prop := b ≠ SPACE ∧ b ≠ HASH ∧ b ≠ 239 ∧ b ≠ TAB

theorem Key.nodeByte (h : isKeyStart b = true) : NodeByte b := by
  refine ⟨?_, ?_, ?_, ?_⟩ <;> rintro rfl <;> revert h <;> decide

theorem normalLine_node (hb : NodeByte b) (hk : k % 2 = 0)
    (hlen : k + (s.length + 1) ≤ SIML_MAX_LINE_LEN) (htab : TAB ∉ s) (p : Parser) :
    normalLine p ⟨List.replicate k SPACE ++ b :: s, off, none⟩ =
      nodeLine p (List.replicate k SPACE ++ b :: trimmed s) k (trimmed s ≠ s) := by
  have hcommon : checkLineCommon p.lineNo ⟨List.replicate k SPACE ++ b :: s, off, none⟩ =
      .ok () := by
    have hbom : ¬ utf8Bom <+: List.replicate k SPACE ++ b :: s := by
      rintro ⟨t, ht⟩
      cases k with
      | zero => exact hb.2.2.1 (List.cons.inj ht).1.symm
      | succ k =>
        have := (List.cons.inj ht).1
        revert this
        decide
    unfold checkLineCommon
    rw [if_neg (by simpa using hlen), if_neg fun h => hbom h.2]
  have hcheck : checkLineNonblock p.lineNo ⟨List.replicate k SPACE ++ b :: s, off, none⟩ =
      .ok () := by
    have htabs : TAB ∉ List.replicate k SPACE ++ b :: s := by
      simp only [List.mem_append, List.mem_replicate, List.mem_cons, not_or]
      exact ⟨fun h => absurd h.2 (by decide), Ne.symm hb.2.2.2, htab⟩
    unfold checkLineNonblock
    rw [hcommon]
    dsimp only
    rw [if_neg (by simp), if_neg htabs, if_neg (by simp [hb.1])]
  have htrim : trimmed (List.replicate k SPACE ++ b :: s) =
      List.replicate k SPACE ++ b :: trimmed s := trimmed_cons hb.1 _ _
  have hdrop : (List.replicate k SPACE ++ b :: trimmed s).dropWhile (· = SPACE) =
      b :: trimmed s := by
    rw [List.dropWhile_append_of_pos (by simp), List.dropWhile_cons_of_neg (by simpa using hb.1)]
  have hcomment : parseCommentLine (List.replicate k SPACE ++ b :: trimmed s) = .ok (k, false) := by
    have hindent := indentOf_append hb.1 k (trimmed s)
    unfold parseCommentLine countIndent
    rw [hindent, if_neg (by simpa using hk)]
    dsimp only
    rw [List.drop_left' (List.length_replicate ..)]
    exact if_pos hb.2.1
  have hshebang : ¬ shebangMark <+: b :: trimmed s := by
    rintro ⟨t, ht⟩
    exact hb.2.1 (List.cons.inj ht).1.symm
  unfold normalLine
  rw [hcheck]
  dsimp only
  rw [htrim, hdrop, if_neg hshebang, hcomment]
  simp

theorem normalLine_error {p : Parser} {line : PhysLine} {code : ErrorCode}
    (h : checkLineNonblock p.lineNo line = .error code) : normalLine p line =
    simlSetError p code := by
  unfold normalLine
  rw [h]

variable {stack : List Container} {rest : List Bytes} {n : Nat} {out : List Event} {text : Bytes}

theorem normalLine_cr_tab (off : Nat) (h : CR ∈ text ∨ TAB ∈ text) :
    ∃ line, physLine (text ++ [LF]) off = .ok line ∧
      ∀ p, ∃ code, normalLine p line = simlSetError p code := by
  by_cases hcr : CR ∈ text
  · obtain ⟨line, code, hline, hcode⟩ := physLine_cr off hcr
    refine ⟨line, hline, fun p => ?_⟩
    obtain ⟨code', hcommon⟩ := checkLineCommon_cr hcode p.lineNo
    exact ⟨code', normalLine_error (by simp only [checkLineNonblock, hcommon])⟩
  · have htab : TAB ∈ text := h.resolve_left hcr
    refine ⟨_, physLine_line off hcr, fun p => ?_⟩
    have hcheck : ∃ code, checkLineNonblock p.lineNo ⟨text, off, none⟩ = .error code := by
      unfold checkLineNonblock
      split
      · exact ⟨_, rfl⟩
      · dsimp only
        split_ifs
        · exact ⟨_, rfl⟩
        · exact ⟨_, rfl⟩
    obtain ⟨code, hcode⟩ := hcheck
    exact ⟨code, normalLine_error hcode⟩

theorem not_accepts_cr_tab (h : CR ∈ text ∨ TAB ∈ text) :
    ¬ Accepts (within stack ((text ++ [LF]) :: rest) off n) out := by
  obtain ⟨line, hline, hbad⟩ := normalLine_cr_tab off h
  obtain ⟨code, hcode⟩ := hbad (holding stack rest (off + (text ++ [LF]).length) (n + 1) line)
  exact not_accepts_error ((next_within hline).trans hcode)

end Lines

section Nodes
variable {b : UInt8} {s : Bytes} {k : Nat} {off n : Nat} {stack : List Container}
  {rest : List Bytes} {line : PhysLine} {out : List Event}

def NotDashes (s : Bytes) : Prop := ¬ dashes <+: s

theorem nodeLine_item (hs : NotDashes (b :: s)) (cur : Container) (trailing : Bool) :
    nodeLine (holding (cur :: stack) rest off n line)
      (List.replicate k SPACE ++ b :: s) k trailing =
      itemLine (holding (cur :: stack) rest off n line) cur (b :: s) k trailing := by
  have hdrop : (List.replicate k SPACE ++ b :: s).drop k = b :: s :=
    List.drop_left' (List.length_replicate ..)
  have hzero : ¬ (k = 0 ∧ dashes <+: List.replicate k SPACE ++ b :: s) := by
    rintro ⟨rfl, h⟩
    exact hs h
  have hbody : ¬ (0 < k ∧ b :: s = dashes) := fun h => hs (h.2 ▸ List.prefix_rfl)
  simp only [nodeLine, holding, within, Option.getD_none, hdrop]
  rw [if_neg hzero, if_neg hbody, if_neg (List.cons_ne_nil b s)]
  simp

theorem nodeLine_nested (hs : NotDashes (b :: s)) (hdepth : stack.length < SIML_MAX_NESTING)
    (trailing : Bool) :
    nodeLine { holding stack rest off n line with pendingMap := some k }
        (List.replicate k SPACE ++ b :: s) k trailing =
      (if b = DASH then .sequenceStart [] n else .mappingStart n,
        holding (⟨if b = DASH then .seq else .map, k⟩ :: stack) rest off n line) := by
  have hdrop : (List.replicate k SPACE ++ b :: s).drop k = b :: s :=
    List.drop_left' (List.length_replicate ..)
  have hzero : ¬ (k = 0 ∧ dashes <+: List.replicate k SPACE ++ b :: s) := by
    rintro ⟨rfl, h⟩
    exact hs h
  have hbody : ¬ (0 < k ∧ b :: s = dashes) := fun h => hs (h.2 ▸ List.prefix_rfl)
  simp only [nodeLine, holding, within, Option.getD_none, hdrop]
  rw [if_neg hzero, if_neg hbody, if_neg (List.cons_ne_nil b s)]
  by_cases hb : b = DASH
  · simp [hb, requestContainerStart, Nat.not_le.mpr hdepth, emitPendingStart, returned]
  · simp [hb, requestContainerStart, Nat.not_le.mpr hdepth, emitPendingStart, returned]

theorem itemLine_close {cur : Container} (body : Bytes) (hin : k < cur.indent)
    (type : ContainerType) (trailing : Bool) :
    itemLine (holding (cur :: ⟨type, k⟩ :: stack) rest off n line) cur body k trailing =
      (if cur.type = .map then .mappingEnd n else .sequenceEnd,
        { holding (⟨type, k⟩ :: stack) rest off n line with
          pendingClose := some (stack.length + 1) }) := by
  have hdepth : depthAt k (cur :: ⟨type, k⟩ :: stack) = some (stack.length + 1) := by
    simp [depthAt, hin.ne']
  unfold itemLine
  rw [if_neg (by omega), if_pos hin]
  simp only [holding, within, hdepth]
  simp [closeTo, emitPendingEnd, returned]

theorem accepts_closed (line : PhysLine) (h : physLine (s ++ [LF]) off = .ok line) :
    Accepts { holding stack rest (off + (s ++ [LF]).length) (n + 1) line with
        pendingClose := some stack.length } out ↔
      Accepts (within stack ((s ++ [LF]) :: rest) off n) out := by
  rw [← accepts_holding h]
  refine Pull.accepts_congr ?_
  rw [next_holding]
  cases stack with
  | nil => simp [simlNext, within, holding, emitPendingEnd, emitPendingEnd.emitDocEnd,
      emitPendingStart, nextNormal]
  | cons c stack => simp [simlNext, within, holding, emitPendingEnd, emitPendingEnd.emitDocEnd,
      emitPendingStart, nextNormal]

end Nodes

section Entries
variable {key v : Bytes} {k off n : Nat} {stack : List Container} {rest : List Bytes}
  {out : List Event}

def entryText (k : Nat) (key v : Bytes) : Bytes :=
  List.replicate k SPACE ++ (key ++ COLON :: SPACE :: v)

structure EntryFits (k : Nat) (key v : Bytes) : Prop where
  key : Key key
  even : k % 2 = 0
  length_le : k + v.length ≤ 4096
  ne_nil : v ≠ []
  head : v.head? ≠ some SPACE

theorem Key.notDashes (h : Key key) (s : Bytes) : NotDashes (key ++ s) := by
  cases key with
  | nil => exact h.elim
  | cons b t =>
    rintro ⟨r, hr⟩
    obtain rfl : DASH = b := (List.cons.inj hr).1
    exact absurd h.1 (by decide)

theorem itemLine_map (h : Key key) (s : Bytes) (p : Parser) (trailing : Bool) :
    itemLine p ⟨.map, k⟩ (key ++ s) k trailing = mappingLine p (key ++ s) k trailing := by
  cases key with
  | nil => exact h.elim
  | cons b t =>
    have hb : b ≠ DASH := by
      rintro rfl
      exact absurd h.1 (by decide)
    simp [itemLine, hb]

theorem next_entry (h : EntryFits k key v) (hcr : CR ∉ v) (htab : TAB ∉ v) :
    simlNext (within (⟨.map, k⟩ :: stack) ((entryText k key v ++ [LF]) :: rest) off n) =
      mappingLine (holding (⟨.map, k⟩ :: stack) rest (off + (entryText k key v ++ [LF]).length)
        (n + 1) ⟨entryText k key v, off, none⟩) (key ++ COLON :: trimmed (SPACE :: v)) k
        (trimmed (SPACE :: v) ≠ SPACE :: v) := by
  obtain ⟨hkey, heven, hlen, -, -⟩ := h
  have hchars := hkey.chars
  have hkeylen := hkey.length_le
  have hdashes := hkey.notDashes (COLON :: trimmed (SPACE :: v))
  have hcrs : CR ∉ entryText k key v := by
    simp only [entryText, List.mem_append, List.mem_replicate, List.mem_cons, not_or]
    exact ⟨fun hm => absurd hm.2 (by decide), fun hm => (keyChar_ne (hchars _ hm)).2.2.1 rfl,
      by decide, by decide, hcr⟩
  rw [next_within (physLine_line off hcrs)]
  have hitem := fun p trailing =>
    itemLine_map (k := k) hkey (COLON :: trimmed (SPACE :: v)) p trailing
  cases key with
  | nil => exact hkey.elim
  | cons b t =>
    simp only [SIML_MAX_KEY_LEN, List.length_cons] at hkeylen
    have htabs : TAB ∉ t ++ COLON :: SPACE :: v := by
      simp only [List.mem_append, List.mem_cons, not_or]
      exact ⟨fun hm => (keyChar_ne (hchars _ (List.mem_cons_of_mem b hm))).2.1 rfl, by decide,
        by decide, htab⟩
    have htrim : trimmed (t ++ COLON :: SPACE :: v) = t ++ COLON :: trimmed (SPACE :: v) :=
      trimmed_cons (by decide) _ _
    have hne : (t ++ COLON :: trimmed (SPACE :: v) ≠ t ++ COLON :: SPACE :: v) =
        (trimmed (SPACE :: v) ≠ SPACE :: v) := by simp
    simp only [entryText, List.cons_append]
    rw [normalLine_node (Key.nodeByte hkey.1) heven
      (by simp only [SIML_MAX_LINE_LEN, List.length_append, List.length_cons]; omega) htabs, htrim,
      nodeLine_item (s := t ++ COLON :: trimmed (SPACE :: v)) hdashes]
    simp only [hne]
    exact hitem _ _

theorem mappingLine_trailing (p : Parser) (body : Bytes) (k : Nat) :
    ∃ code, mappingLine p body k true = simlSetError p code := by
  unfold mappingLine
  split
  · exact ⟨_, rfl⟩
  · exact ⟨_, rfl⟩

theorem trimmed_space (hne : v ≠ []) (hlast : v.getLast? ≠ some SPACE) :
    trimmed (SPACE :: v) = SPACE :: v := by
  refine trimmed_eq_self ?_
  rw [List.getLast?_cons_of_ne_nil hne]
  exact hlast

theorem next_entry_value (h : EntryFits k key v) (hcr : CR ∉ v) (htab : TAB ∉ v)
    (hlast : v.getLast? ≠ some SPACE) :
    simlNext (within (⟨.map, k⟩ :: stack) ((entryText k key v ++ [LF]) :: rest) off n) =
      let p := holding (⟨.map, k⟩ :: stack) rest (off + (entryText k key v ++ [LF]).length)
        (n + 1) ⟨entryText k key v, off, none⟩
      match parseInlineComment v with
      | .error code => simlSetError p code
      | .ok value => handleInlineValue p key k value := by
  rw [next_entry h hcr htab, trimmed_space h.ne_nil hlast]
  simp only [mappingLine, parseMappingEntry_key h.key, List.cons_ne_nil, ↓reduceIte,
    spacedValue_space h.head h.ne_nil, ne_eq, not_true_eq_false, decide_false, Bool.false_eq_true]
  cases parseInlineComment v <;> rfl

theorem handleInlineValue_plain (hv : Plain v) (p : Parser) :
    handleInlineValue p key k v = (.scalar key v p.lineNo, { p with line := none }) := by
  unfold handleInlineValue
  rw [if_neg (Nat.not_lt.mpr hv.length_le)]
  have hhead := hv.head
  have hhash := hv.head_ne_hash
  cases v with
  | nil => exact absurd rfl hv.ne_nil
  | cons b s =>
    simp only [List.head?_cons, ne_eq, Option.some.injEq] at hhead hhash
    simp [hhead, hhash]

theorem next_plain (hkey : Key key) (hk : k % 2 = 0) (hk' : k ≤ 2048) (hv : Plain v) :
    simlNext (within (⟨.map, k⟩ :: stack) ((entryText k key v ++ [LF]) :: rest) off n) =
      (.scalar key v (n + 1), within (⟨.map, k⟩ :: stack) rest
        (off + (entryText k key v ++ [LF]).length) (n + 1)) := by
  have hlen := hv.length_le
  simp only [SIML_MAX_INLINE_VALUE_LEN] at hlen
  have hfits : EntryFits k key v := ⟨hkey, hk, by omega, hv.ne_nil, hv.head.1⟩
  rw [next_entry_value hfits (fun hm => (hv.bytes _ hm).2.1 rfl) (fun hm => (hv.bytes _ hm).2.2 rfl)
    hv.last, parseInlineComment_plain hv]
  exact handleInlineValue_plain hv _

end Entries

section Flow
variable {text key : Bytes} {frames : List FlowFrame} {off n : Nat} {stack : List Container}
  {rest : List Bytes} {line : PhysLine} {out : List Event}

/-- The scan of a flow sequence reaches its end. -/
inductive FlowRuns (text : Bytes) : List FlowFrame → Prop
  | last {frames : List FlowFrame} {ev : FlowEvent} (h : flowStep text frames = .ok (ev, [])) :
    FlowRuns text frames
  | next {frames frames' : List FlowFrame} {ev : FlowEvent}
      (h : flowStep text frames = .ok (ev, frames')) (hne : frames' ≠ [])
      (rest : FlowRuns text frames') : FlowRuns text frames

def Flows (value : Bytes) : Prop := FlowRuns value [⟨value.length - 1, 1, false⟩]

def Announced (frames : List FlowFrame) : Prop := ∀ f ∈ frames, f.started = true

def FlowEvent.Moves (d d' : Nat) : FlowEvent → Prop
  | .open => d' = d + 1
  | .item _ => d' = d
  | .close => d' + 1 = d

def FlowEvent.toEvent (key : Bytes) (depth n : Nat) : FlowEvent → Event
  | .open => .sequenceStart (if depth = 1 then key else []) n
  | .item value => .scalar [] value n
  | .close => .sequenceEnd

theorem flowStep_announced {ev : FlowEvent} {frames' : List FlowFrame} (ha : Announced frames)
    (h : flowStep text frames = .ok (ev, frames')) :
    Announced frames' ∧ ev.Moves frames.length frames'.length := by
  cases frames with
  | nil => cases h
  | cons f outer =>
    obtain ⟨hf, houter⟩ := List.forall_mem_cons.mp ha
    simp only [flowStep, hf, Bool.not_true, Bool.false_eq_true, ↓reduceIte] at h
    split at h
    · cases h
      exact ⟨houter, rfl⟩
    · split at h
      · cases h
      · split at h
        · cases h
        · split at h
          · cases h
          · split at h
            · unfold flowNested at h
              split at h
              · cases h
              · split at h
                · cases h
                · split at h
                  · cases h
                  · cases h
                    exact ⟨List.forall_mem_cons.mpr ⟨rfl, List.forall_mem_cons.mpr ⟨hf, houter⟩⟩,
                      rfl⟩
            · split at h
              · cases h
              · unfold flowItem at h
                dsimp only at h
                split_ifs at h
                split at h
                · cases h
                · cases h
                  exact ⟨List.forall_mem_cons.mpr ⟨hf, houter⟩, rfl⟩

def flowing (stack : List Container) (rest : List Bytes) (off n : Nat) (line : PhysLine)
    (text : Bytes) (frames : List FlowFrame) (key : Bytes) : Parser :=
  { holding stack rest off n line with mode := .flow text frames key }

theorem next_flowing : simlNext (flowing stack rest off n line text frames key) =
    nextFlow (flowing stack rest off n line text frames key) text frames key := by
  simp [simlNext, flowing, holding, within]

def flowed (stack : List Container) (rest : List Bytes) (off n : Nat) (line : PhysLine)
    (text : Bytes) (frames : List FlowFrame) (key : Bytes) : Parser :=
  if frames = [] then within stack rest off n else flowing stack rest off n line text frames key

theorem nextFlow_ok {p : Parser} {ev : FlowEvent} {frames' : List FlowFrame}
    (hp : p = flowing stack rest off n line text frames key ∨ p = holding stack rest off n line)
    (h : flowStep text frames = .ok (ev, frames')) :
    nextFlow p text frames key =
      (ev.toEvent key frames'.length n, flowed stack rest off n line text frames' key) := by
  have hframes : (if frames' = [] then { p with mode := .normal, line := none }
      else { p with mode := .flow text frames' key }) =
      flowed stack rest off n line text frames' key := by
    rcases hp with rfl | rfl <;> rfl
  have hline : (flowed stack rest off n line text frames' key).lineNo = n := by
    unfold flowed
    split_ifs <;> rfl
  unfold nextFlow
  simp only [h, hframes, hline]
  cases ev <;> rfl

theorem isFinal_toEvent (ev : FlowEvent) (key : Bytes) (depth n : Nat) :
    isFinal (ev.toEvent key depth n) = false := by
  cases ev <;> rfl

theorem entries_toEvent {ev : FlowEvent} {d d' : Nat} (h : ev.Moves d d') (hd : 0 < d)
    (text : Bytes) (key : Bytes) (depth n : Nat) (tail : List Event) :
    entries text (d + 1) (ev.toEvent key depth n :: tail) = entries text (d' + 1) tail := by
  cases ev with
  | «open» =>
    obtain rfl : d' = d + 1 := h
    rfl
  | item value =>
    obtain rfl : d' = d := h
    simp only [FlowEvent.toEvent, entries]
    rw [if_neg (by omega)]
  | close =>
    obtain rfl : d' + 1 = d := h
    rfl

/-- What is accepted from inside a flow sequence has run to its end. -/
theorem flowing_accepted (ha : Announced frames) (hne : frames ≠ [])
    (h : Accepts (flowing stack rest off n line text frames key) out) : FlowRuns text frames := by
  obtain ⟨hends, hgood⟩ := h
  generalize hp : flowing stack rest off n line text frames key = p at hends
  induction hends generalizing frames with
  | last hn hf =>
    rw [← hp, next_flowing] at hn
    cases hs : flowStep text frames with
    | error code =>
      obtain ⟨e, he, -, hstream⟩ := hgood
      simp only [nextFlow, hs, simlSetError] at hn
      rw [List.mem_singleton.mp he, ← (Prod.mk.inj hn).1] at hstream
      cases hstream
    | ok r =>
      rw [nextFlow_ok (.inl rfl) hs] at hn
      rw [← (Prod.mk.inj hn).1, isFinal_toEvent] at hf
      cases hf
  | @cons _ _ _ tail hn hf hrest ih =>
    rw [← hp, next_flowing] at hn
    cases hs : flowStep text frames with
    | error code =>
      simp only [nextFlow, hs, simlSetError] at hn
      rw [← (Prod.mk.inj hn).1] at hf
      cases hf
    | ok r =>
      obtain ⟨ev, frames'⟩ := r
      rw [nextFlow_ok (.inl rfl) hs] at hn
      obtain ⟨rfl, rfl⟩ := Prod.mk.inj hn
      by_cases hend : frames' = []
      · subst hend
        exact .last hs
      · obtain ⟨e, he, hfin, hstream⟩ := hgood
        have htail : e ∈ tail := by
          refine (List.mem_cons.mp he).resolve_left ?_
          rintro rfl
          rw [isFinal_toEvent] at hfin
          cases hfin
        exact .next hs hend (ih (flowStep_announced ha hs).1 hend ⟨e, htail, hfin, hstream⟩
          (by rw [flowed, if_neg hend]))

theorem flowing_yields (ha : Announced frames) (hne : frames ≠ []) (h : FlowRuns text frames) :
    ∃ evs, Pull.Yields simlNext isFinal (flowing stack rest off n line text frames key) evs
        (within stack rest off n) ∧
      ∀ content tail, entries content (frames.length + 1) (evs ++ tail) =
        entries content 1 tail := by
  have hmoves : ∀ {frames frames' : List FlowFrame} {ev : FlowEvent}, Announced frames →
      frames ≠ [] → flowStep text frames = .ok (ev, frames') → ∀ content depth tail,
        entries content (frames.length + 1) (ev.toEvent key depth n :: tail) =
          entries content (frames'.length + 1) tail := fun ha hne hs content depth tail =>
    entries_toEvent (flowStep_announced ha hs).2
      (List.length_pos_iff.mpr hne) content key depth n tail
  induction h with
  | last hs =>
    exact ⟨_, .single (next_flowing.trans (nextFlow_ok (.inl rfl) hs)) (isFinal_toEvent _ _ _ _),
      fun content tail => hmoves ha hne hs content _ tail⟩
  | next hs hne' _ ih =>
    obtain ⟨evs, hevs, hentries⟩ := ih (flowStep_announced ha hs).1 hne'
    have hnext := next_flowing.trans (nextFlow_ok
      (@Or.inl (_ = flowing stack rest off n line text _ key) _ rfl) hs)
    rw [flowed, if_neg hne'] at hnext
    refine ⟨_, .cons hnext (isFinal_toEvent _ _ _ _) hevs, fun content tail => ?_⟩
    rw [List.cons_append, hmoves ha hne hs, hentries]

end Flow

section InlineValues
variable {key v value : Bytes} {k off n : Nat} {stack : List Container} {rest : List Bytes}
  {line : PhysLine} {out : List Event}

/-- What may follow the key of an entry on its line: a scalar or a flow sequence, with or
without a comment behind it. -/
structure InlineValue (v : Bytes) : Prop where
  cr : CR ∉ v
  tab : TAB ∉ v
  last : v.getLast? ≠ some SPACE
  value : ∃ value, parseInlineComment v = .ok value ∧ value ≠ [] ∧ value.head? ≠ some PIPE ∧
    (value.head? = some BRACKET_OPEN → Flows value)

theorem flowStep_unstarted (value : Bytes) :
    flowStep value [⟨value.length - 1, 1, false⟩] = .ok (.open, [⟨value.length - 1, 1, true⟩]) :=
  rfl

theorem flows_started (h : Flows value) : FlowRuns value [⟨value.length - 1, 1, true⟩] := by
  cases h with
  | last hs => cases (flowStep_unstarted value).symm.trans hs
  | next hs _ hruns =>
    cases (flowStep_unstarted value).symm.trans hs
    exact hruns

theorem startFlow_eq (key value : Bytes) :
    startFlow (holding stack rest off n line) key value =
      (.sequenceStart key n, flowing stack rest off n line value
        [⟨value.length - 1, 1, true⟩] key) :=
  nextFlow_ok (.inr rfl) (flowStep_unstarted value)

theorem announced_single (value : Bytes) : Announced [⟨value.length - 1, 1, true⟩] := by
  simp [Announced]

theorem handleInlineValue_cases (hlen : value.length ≤ SIML_MAX_INLINE_VALUE_LEN)
    (hpipe : value ≠ [PIPE]) (key : Bytes) (k : Nat) :
    let p := holding stack rest off n line
    (value.head? = some BRACKET_OPEN ∧
        handleInlineValue p key k value = startFlow p key value) ∨
      (value ≠ [] ∧ value.head? ≠ some PIPE ∧ value.head? ≠ some BRACKET_OPEN ∧
        handleInlineValue p key k value = (.scalar key value n, within stack rest off n)) ∨
      ((value = [] ∨ value.head? = some PIPE ∨ value.head? = some HASH) ∧
        ∃ code, handleInlineValue p key k value = simlSetError p code) := by
  intro p
  unfold handleInlineValue
  rw [if_neg (Nat.not_lt.mpr hlen)]
  cases value with
  | nil => exact .inr (.inr ⟨.inl rfl, _, rfl⟩)
  | cons b s =>
    dsimp only
    by_cases hb : b = PIPE
    · have hs : s ≠ [] := by
        rintro rfl
        exact hpipe (by rw [hb])
      rw [if_pos hb, if_pos hs]
      exact .inr (.inr ⟨.inr (.inl (by simp [hb])), _, rfl⟩)
    · rw [if_neg hb]
      by_cases ho : b = BRACKET_OPEN
      · rw [if_pos ho]
        exact .inl ⟨by simp [ho], rfl⟩
      · rw [if_neg ho]
        by_cases hh : b = HASH
        · rw [if_pos hh]
          exact .inr (.inr ⟨.inr (.inr (by simp [hh])), _, rfl⟩)
        · rw [if_neg hh]
          exact .inr (.inl ⟨List.cons_ne_nil b s, by simpa using hb, by simpa using ho, rfl⟩)

theorem parseInlineComment_start (h : parseInlineComment v = .ok value) : value <+: v := by
  unfold parseInlineComment at h
  split at h
  · cases h
  · split at h
    · cases h
      exact List.prefix_rfl
    · rename_i i _ _ n _
      dsimp only at h
      generalize i + n - (trimmed (v.take (i + n))).length +
        (if trimmed (v.take (i + n)) = [] then 1 else 0) = spaces at h
      split at h
      · cases h
      · split at h
        · cases h
        · cases h
          exact (trimmed_start _).trans (List.take_prefix _ _)

theorem InlineValue.head_ne_hash (hlast : v.getLast? ≠ some SPACE)
    (h : parseInlineComment v = .ok value) : value.head? ≠ some HASH := by
  intro hhash
  have hne : value ≠ [] := by
    rintro rfl
    cases hhash
  have hopen : value.head? ≠ some BRACKET_OPEN := by
    rw [hhash]
    decide
  have hnone := (parseInlineComment_ok h hopen hne hlast).2.1
  cases value with
  | nil => exact hne rfl
  | cons b s =>
    obtain rfl : b = HASH := by simpa using hhash
    cases hnone

theorem entry_clean (hfits : EntryFits k key v)
    (h : Accepts (within (⟨.map, k⟩ :: stack) ((entryText k key v ++ [LF]) :: rest) off n) out) :
    CR ∉ v ∧ TAB ∉ v ∧ v.getLast? ≠ some SPACE := by
  by_cases hbad : CR ∈ v ∨ TAB ∈ v
  · refine absurd h (not_accepts_cr_tab (hbad.imp ?_ ?_)) <;> intro hm <;>
      simp [entryText, hm]
  obtain ⟨hcr, htab⟩ := not_or.mp hbad
  refine ⟨hcr, htab, fun hlast => ?_⟩
  have hnext := @next_entry key v k off n stack rest hfits hcr htab
  have hsp : (SPACE :: v).getLast? = some SPACE := by
    rw [List.getLast?_cons_of_ne_nil hfits.ne_nil, hlast]
  rw [decide_eq_true (trimmed_ne_self hsp)] at hnext
  obtain ⟨code, hcode⟩ := mappingLine_trailing (holding (⟨.map, k⟩ :: stack) rest
    (off + (entryText k key v ++ [LF]).length) (n + 1) ⟨entryText k key v, off, none⟩)
    (key ++ COLON :: trimmed (SPACE :: v)) k
  exact absurd h (not_accepts_error (hnext.trans hcode))

theorem entry_accepted (hfits : EntryFits k key v) (hlen : v.length ≤ SIML_MAX_INLINE_VALUE_LEN)
    (hpipe : parseInlineComment v ≠ .ok [PIPE])
    (h : Accepts (within (⟨.map, k⟩ :: stack) ((entryText k key v ++ [LF]) :: rest) off n) out) :
    InlineValue v := by
  obtain ⟨hcr, htab, hlast⟩ := entry_clean hfits h
  have hnext := @next_entry_value key v k off n stack rest hfits hcr htab hlast
  dsimp only at hnext
  cases hv : parseInlineComment v with
  | error code =>
    rw [hv] at hnext
    exact absurd h (not_accepts_error hnext)
  | ok value =>
    rw [hv] at hnext
    dsimp only at hnext
    have hle : value.length ≤ SIML_MAX_INLINE_VALUE_LEN :=
      (parseInlineComment_start hv).length_le.trans hlen
    have hne : value ≠ [PIPE] := by
      rintro rfl
      exact hpipe hv
    rcases @handleInlineValue_cases value _ (n + 1) _ rest _ hle hne key k with
      ⟨ho, hval⟩ | ⟨hnil, hp, ho, hval⟩ | ⟨-, code, hval⟩
    · rw [hval, startFlow_eq] at hnext
      obtain ⟨tail, rfl, htail⟩ := (Pull.accepts_of_next hnext rfl).mp h
      have hruns := flowing_accepted (announced_single value) (List.cons_ne_nil _ _) htail
      have hnil : value ≠ [] := by
        rintro rfl
        cases ho
      exact ⟨hcr, htab, hlast, value, hv, hnil, by rw [ho]; decide, fun _ =>
        .next (flowStep_unstarted value) (List.cons_ne_nil _ _) hruns⟩
    · exact ⟨hcr, htab, hlast, value, hv, hnil, hp, fun h => absurd h ho⟩
    · rw [hval] at hnext
      exact absurd h (not_accepts_error hnext)

theorem entry_yields (hfits : EntryFits k key v) (hlen : v.length ≤ SIML_MAX_INLINE_VALUE_LEN)
    (hv : InlineValue v) :
    ∃ evs, Adds key evs ∧ Pull.Yields simlNext isFinal
      (within (⟨.map, k⟩ :: stack) ((entryText k key v ++ [LF]) :: rest) off n) evs
      (within (⟨.map, k⟩ :: stack) rest (off + (entryText k key v ++ [LF]).length) (n + 1)) := by
  obtain ⟨hcr, htab, hlast, value, hvalue, hnil, hp, hflows⟩ := hv
  have hnext := @next_entry_value key v k off n stack rest hfits hcr htab hlast
  dsimp only at hnext
  rw [hvalue] at hnext
  dsimp only at hnext
  have hle : value.length ≤ SIML_MAX_INLINE_VALUE_LEN :=
    (parseInlineComment_start hvalue).length_le.trans hlen
  have hne : value ≠ [PIPE] := by
    rintro rfl
    exact hp rfl
  have hhash := InlineValue.head_ne_hash hlast hvalue
  rcases @handleInlineValue_cases value _ (n + 1) _ rest _ hle hne key k with
    ⟨ho, hval⟩ | ⟨-, -, -, hval⟩ | ⟨hbad, -⟩
  · rw [hval, startFlow_eq] at hnext
    obtain ⟨evs, hevs, hentries⟩ := @flowing_yields value key _ _ (n + 1) _ rest _
      (announced_single value) (List.cons_ne_nil _ _) (flows_started (hflows ho))
    refine ⟨_, fun text tail => ⟨[], ?_, by simp⟩, .cons hnext rfl hevs⟩
    rw [List.cons_append, entries, List.nil_append]
    exact hentries text tail
  · rw [hval] at hnext
    exact ⟨_, adds_scalar key value (n + 1), .single hnext rfl⟩
  · rcases hbad with h | h | h
    · exact absurd h hnil
    · exact absurd h hp
    · exact absurd h hhash

theorem entry_passes (hfits : EntryFits k key v) (hlen : v.length ≤ SIML_MAX_INLINE_VALUE_LEN)
    (hpipe : parseInlineComment v ≠ .ok [PIPE]) :
    Passes (within (⟨.map, k⟩ :: stack) ((entryText k key v ++ [LF]) :: rest) off n)
      (within (⟨.map, k⟩ :: stack) rest (off + (entryText k key v ++ [LF]).length) (n + 1))
      (InlineValue v) (Adds key) :=
  .of_yields (fun _ ho => entry_accepted hfits hlen hpipe ho) (entry_yields hfits hlen)

end InlineValues

section Nested
variable {key v : Bytes} {k off n : Nat} {stack : List Container} {rest : List Bytes}
  {raw : Bytes} {line : PhysLine} {out : List Event}

def headerText (k : Nat) (key : Bytes) : Bytes := List.replicate k SPACE ++ (key ++ [COLON])

def awaiting (k : Nat) (stack : List Container) (input : List Bytes) (off n : Nat) : Parser :=
  { within stack input off n with pendingMap := some k }

theorem next_awaiting (h : physLine raw off = .ok line) :
    simlNext (awaiting k stack (raw :: rest) off n) =
      normalLine { holding stack rest (off + raw.length) (n + 1) line with pendingMap := some k }
        line := by
  simp [simlNext, awaiting, within, holding, emitPendingEnd, emitPendingEnd.emitDocEnd,
    emitPendingStart, nextNormal, Parser.taken, h]

theorem next_header (hkey : Key key) (hk : k % 2 = 0) (hlen : k ≤ 2048) :
    simlNext (within (⟨.map, k⟩ :: stack) ((headerText k key ++ [LF]) :: rest) off n) =
      (.entryHeader key (n + 1), awaiting (k + 2) (⟨.map, k⟩ :: stack) rest
        (off + (headerText k key ++ [LF]).length) (n + 1)) := by
  have hchars := hkey.chars
  have hkeylen := hkey.length_le
  have hdashes := hkey.notDashes [COLON]
  have hcrs : CR ∉ headerText k key := by
    simp only [headerText, List.mem_append, List.mem_replicate, List.mem_singleton, not_or]
    exact ⟨fun hm => absurd hm.2 (by decide), fun hm => (keyChar_ne (hchars _ hm)).2.2.1 rfl,
      by decide⟩
  have hline : ∀ p, mappingLine p (key ++ [COLON]) k false =
      (.entryHeader key p.lineNo, { p with pendingMap := some (k + 2), line := none }) := by
    intro p
    simp [mappingLine, parseMappingEntry_key hkey]
  rw [next_within (physLine_line off hcrs)]
  have hitem := fun p => itemLine_map (k := k) hkey [COLON] p false
  cases key with
  | nil => exact hkey.elim
  | cons b t =>
    simp only [SIML_MAX_KEY_LEN, List.length_cons] at hkeylen
    have htabs : TAB ∉ t ++ [COLON] := by
      simp only [List.mem_append, List.mem_singleton, not_or]
      exact ⟨fun hm => (keyChar_ne (hchars _ (List.mem_cons_of_mem b hm))).2.1 rfl, by decide⟩
    have htrim : trimmed (t ++ [COLON]) = t ++ [COLON] := trimmed_cons (by decide) _ _
    simp only [headerText, List.cons_append]
    rw [normalLine_node (Key.nodeByte hkey.1) hk
      (by simp only [SIML_MAX_LINE_LEN, List.length_append, List.length_singleton]; omega) htabs,
      htrim, nodeLine_item (s := t ++ [COLON]) hdashes]
    simp only [ne_eq, not_true_eq_false, decide_false]
    exact (hitem _).trans (hline _)

structure NodeText (b : UInt8) (s : Bytes) : Prop where
  first : NodeByte b
  cr : CR ∉ b :: s
  tab : TAB ∉ s
  length_le : s.length + 1 ≤ 4096
  dashes : NotDashes (b :: s)
  trimmed : NotDashes (b :: trimmed s)

theorem NodeText.physLine {b : UInt8} {s : Bytes} (h : NodeText b s) (k off : Nat) :
    physLine (List.replicate k SPACE ++ b :: s ++ [LF]) off =
      .ok ⟨List.replicate k SPACE ++ b :: s, off, none⟩ := by
  refine physLine_line off ?_
  rw [List.mem_append, not_or]
  exact ⟨fun hm => absurd (List.eq_of_mem_replicate hm) (by decide), h.cr⟩

theorem accepts_awaiting {b : UInt8} {s : Bytes} (h : NodeText b s) (hk : k % 2 = 0)
    (hk' : k ≤ 512) (hdepth : stack.length < SIML_MAX_NESTING) :
    Accepts (awaiting k stack ((List.replicate k SPACE ++ b :: s ++ [LF]) :: rest) off n) out ↔
      ∃ tail, out = (if b = DASH then .sequenceStart [] (n + 1)
        else .mappingStart (n + 1)) :: tail ∧
        Accepts (within (⟨if b = DASH then .seq else .map, k⟩ :: stack)
          ((List.replicate k SPACE ++ b :: s ++ [LF]) :: rest) off n) tail := by
  have hphys := h.physLine k off
  have hnext := @next_awaiting k off n stack rest _ _ hphys
  rw [normalLine_node h.first hk (by
    have := h.length_le
    simp only [SIML_MAX_LINE_LEN]
    omega) h.tab, nodeLine_nested h.trimmed hdepth] at hnext
  have hfinal : isFinal (if b = DASH then .sequenceStart [] (n + 1) else .mappingStart (n + 1)) =
      false := by split_ifs <;> rfl
  refine (Pull.accepts_of_next hnext hfinal).trans ?_
  exact exists_congr fun tail => and_congr_right fun _ => accepts_holding hphys

theorem not_accepts_awaiting {text : Bytes} (h : CR ∈ text ∨ TAB ∈ text) :
    ¬ Accepts (awaiting k stack ((text ++ [LF]) :: rest) off n) out := by
  obtain ⟨line, hline, hbad⟩ := normalLine_cr_tab off h
  obtain ⟨code, hcode⟩ := hbad
    { holding stack rest (off + (text ++ [LF]).length) (n + 1) line with pendingMap := some k }
  exact not_accepts_error ((next_awaiting hline).trans hcode)

theorem accepts_close {b : UInt8} {s : Bytes} {cur : Container} {type : ContainerType}
    (h : NodeText b s) (hk : k % 2 = 0) (hk' : k ≤ 512) (hin : k < cur.indent) :
    Accepts (within (cur :: ⟨type, k⟩ :: stack)
        ((List.replicate k SPACE ++ b :: s ++ [LF]) :: rest) off n) out ↔
      ∃ tail, out = (if cur.type = .map then .mappingEnd (n + 1) else .sequenceEnd) :: tail ∧
        Accepts (within (⟨type, k⟩ :: stack)
          ((List.replicate k SPACE ++ b :: s ++ [LF]) :: rest) off n) tail := by
  have hphys := h.physLine k off
  have hnext := @next_within (cur :: ⟨type, k⟩ :: stack) _ rest off n _ hphys
  rw [normalLine_node h.first hk (by
    have := h.length_le
    simp only [SIML_MAX_LINE_LEN]
    omega) h.tab, nodeLine_item h.trimmed, itemLine_close _ hin] at hnext
  have hfinal : isFinal (if cur.type = .map then .mappingEnd (n + 1) else .sequenceEnd) =
      false := by
    split_ifs <;> rfl
  refine (Pull.accepts_of_next hnext hfinal).trans ?_
  refine exists_congr fun tail => and_congr_right fun _ => ?_
  exact accepts_closed _ hphys

theorem entryText_node (hkey : Key key) (hlen : v.length ≤ SIML_MAX_INLINE_VALUE_LEN)
    (hbytes : ∀ b ∈ v, b ≠ CR ∧ b ≠ TAB) (k : Nat) :
    ∃ b s, entryText k key v = List.replicate k SPACE ++ b :: s ∧ b ≠ DASH ∧ NodeText b s := by
  have hchars := hkey.chars
  have hkeylen := hkey.length_le
  simp only [SIML_MAX_KEY_LEN, SIML_MAX_INLINE_VALUE_LEN] at hkeylen hlen
  have hdashes := fun s => hkey.notDashes (COLON :: s)
  cases key with
  | nil => exact hkey.elim
  | cons b t =>
    have hb := Key.nodeByte hkey.1
    refine ⟨b, t ++ COLON :: SPACE :: v, rfl, ?_, hb, ?_, ?_, ?_, hdashes _, ?_⟩
    · rintro rfl
      exact absurd hkey.1 (by decide)
    · simp only [List.mem_cons, List.mem_append, not_or]
      exact ⟨fun h => (keyChar_ne (hchars b List.mem_cons_self)).2.2.1 h.symm,
        fun hm => (keyChar_ne (hchars _ (List.mem_cons_of_mem b hm))).2.2.1 rfl, by
          decide, by decide,
        fun hm => (hbytes _ hm).1 rfl⟩
    · simp only [List.mem_cons, List.mem_append, not_or]
      exact ⟨fun hm => (keyChar_ne (hchars _ (List.mem_cons_of_mem b hm))).2.1 rfl, by decide,
        by decide, fun hm => (hbytes _ hm).2 rfl⟩
    · simp only [List.length_cons, List.length_append] at hkeylen ⊢
      omega
    · rw [trimmed_cons (by decide)]
      exact hdashes _

end Nested

section Items
variable {v : Bytes} {k off n : Nat} {stack : List Container} {rest : List Bytes} {out : List Event}

def itemText (k : Nat) (v : Bytes) : Bytes := List.replicate k SPACE ++ DASH :: SPACE :: v

structure ItemFits (v : Bytes) : Prop where
  slash : v.head? = some SLASH
  length_le : v.length ≤ SIML_MAX_INLINE_VALUE_LEN

theorem ItemFits.ne_nil (h : ItemFits v) : v ≠ [] := by
  rintro rfl
  cases h.slash

theorem notDashes_item (s : Bytes) : NotDashes (DASH :: SPACE :: s) := by
  rintro ⟨t, ht⟩
  exact absurd (List.cons.inj (List.cons.inj ht).2).1 (by decide)

theorem itemText_node (h : ItemFits v) (hcr : CR ∉ v) (htab : TAB ∉ v) :
    NodeText DASH (SPACE :: v) := by
  have hlen := h.length_le
  simp only [SIML_MAX_INLINE_VALUE_LEN] at hlen
  have htrim : ∃ s, trimmed (SPACE :: v) = SPACE :: s := by
    cases v with
    | nil => cases h.slash
    | cons b s =>
      obtain rfl : b = SLASH := by simpa using h.slash
      exact ⟨_, trimmed_cons (s := [SPACE]) (by decide) s⟩
  obtain ⟨s, hs⟩ := htrim
  refine ⟨by unfold NodeByte; decide, ?_, ?_, by simp only [List.length_cons]; omega,
    notDashes_item v, ?_⟩
  · simp only [List.mem_cons, not_or]
    exact ⟨by decide, by decide, hcr⟩
  · simp only [List.mem_cons, not_or]
    exact ⟨by decide, htab⟩
  · rw [hs]
    exact notDashes_item s

theorem next_item (h : ItemFits v) (hk : k % 2 = 0) (hk' : k ≤ 512) (hcr : CR ∉ v)
    (htab : TAB ∉ v) :
    simlNext (within (⟨.seq, k⟩ :: stack) ((itemText k v ++ [LF]) :: rest) off n) =
      sequenceLine (holding (⟨.seq, k⟩ :: stack) rest (off + (itemText k v ++ [LF]).length)
        (n + 1) ⟨itemText k v, off, none⟩) (DASH :: trimmed (SPACE :: v)) k
        (trimmed (SPACE :: v) ≠ SPACE :: v) := by
  have hnode := itemText_node h hcr htab
  rw [itemText, next_within (hnode.physLine k off), normalLine_node hnode.first hk
    (by have := hnode.length_le; simp only [SIML_MAX_LINE_LEN]; omega) hnode.tab,
    nodeLine_item hnode.trimmed]
  simp [itemLine]

theorem parseInlineComment_slash {value : Bytes} (hv : v.head? = some SLASH)
    (h : parseInlineComment v = .ok value) : value.head? = some SLASH := by
  cases v with
  | nil => cases hv
  | cons b s =>
    obtain rfl : b = SLASH := by simpa using hv
    have hstart : commentStart (SLASH :: s) = .ok 0 := rfl
    unfold parseInlineComment at h
    rw [hstart] at h
    simp only [↓reduceIte, List.drop_zero, Nat.zero_add] at h
    split at h
    · cases h
      rfl
    · rename_i n hn
      have hpos : n ≠ 0 := by
        rintro rfl
        simp only [hashAt] at hn
        rw [if_neg (by decide)] at hn
        cases hs : hashAt SLASH s with
        | none => simp [hs] at hn
        | some i => simp [hs] at hn
      obtain ⟨m, rfl⟩ := Nat.exists_eq_succ_of_ne_zero hpos
      generalize m.succ - (trimmed ((SLASH :: s).take m.succ)).length +
        (if trimmed ((SLASH :: s).take m.succ) = [] then 1 else 0) = spaces at h
      split at h
      · cases h
      · split at h
        · cases h
        · cases h
          rw [List.take_succ_cons, ← List.nil_append (SLASH :: s.take m),
            trimmed_cons (by decide)]
          rfl

theorem next_item_value (h : ItemFits v) (hk : k % 2 = 0) (hk' : k ≤ 512) (hcr : CR ∉ v)
    (htab : TAB ∉ v) (hlast : v.getLast? ≠ some SPACE) {value : Bytes}
    (hv : parseInlineComment v = .ok value) :
    simlNext (within (⟨.seq, k⟩ :: stack) ((itemText k v ++ [LF]) :: rest) off n) =
      (.scalar [] value (n + 1), within (⟨.seq, k⟩ :: stack) rest
        (off + (itemText k v ++ [LF]).length) (n + 1)) := by
  have hslash := parseInlineComment_slash h.slash hv
  have hle : ¬ SIML_MAX_INLINE_VALUE_LEN < value.length :=
    Nat.not_lt.mpr ((parseInlineComment_start hv).length_le.trans h.length_le)
  have hhead : v.head? ≠ some SPACE := by
    rw [h.slash]
    decide
  have hitem : parseSequenceItem (DASH :: SPACE :: v) = .ok value := by
    simp [parseSequenceItem, spacedValue_space hhead h.ne_nil, hv]
  rw [next_item h hk hk' hcr htab, trimmed_space h.ne_nil hlast]
  cases value with
  | nil => cases hslash
  | cons b s =>
    obtain rfl : b = SLASH := by simpa using hslash
    have hmap : startsMappingEntry (SLASH :: s) = false := rfl
    have hseq : startsSequenceItem (SLASH :: s) = false := rfl
    simp only [sequenceLine, hitem, ne_eq, not_true_eq_false, decide_false, Bool.false_eq_true,
      ↓reduceIte, hmap, hseq, handleInlineValue, hle]
    rfl

theorem item_accepted (h : ItemFits v) (hk : k % 2 = 0) (hk' : k ≤ 512)
    (ha : Accepts (within (⟨.seq, k⟩ :: stack) ((itemText k v ++ [LF]) :: rest) off n) out) :
    InlineValue v := by
  by_cases hbad : CR ∈ v ∨ TAB ∈ v
  · refine absurd ha (not_accepts_cr_tab (hbad.imp ?_ ?_)) <;> intro hm <;> simp [itemText, hm]
  obtain ⟨hcr, htab⟩ := not_or.mp hbad
  have hnext := @next_item v k off n stack rest h hk hk' hcr htab
  by_cases hlast : v.getLast? = some SPACE
  · have hsp : (SPACE :: v).getLast? = some SPACE := by
      rw [List.getLast?_cons_of_ne_nil h.ne_nil, hlast]
    rw [decide_eq_true (trimmed_ne_self hsp)] at hnext
    refine absurd ha ?_
    cases hitem : parseSequenceItem (DASH :: trimmed (SPACE :: v)) with
    | error code =>
      simp only [sequenceLine, hitem] at hnext
      exact not_accepts_error hnext
    | ok value =>
      simp only [sequenceLine, hitem, ↓reduceIte] at hnext
      exact not_accepts_error hnext
  have hhead : v.head? ≠ some SPACE := by
    rw [h.slash]
    decide
  cases hv : parseInlineComment v with
  | error code =>
    have hitem : parseSequenceItem (DASH :: SPACE :: v) = .error code := by
      simp [parseSequenceItem, spacedValue_space hhead h.ne_nil, hv]
    rw [trimmed_space h.ne_nil hlast] at hnext
    simp only [sequenceLine, hitem] at hnext
    exact absurd ha (not_accepts_error hnext)
  | ok value =>
    have hslash := parseInlineComment_slash h.slash hv
    refine ⟨hcr, htab, hlast, value, hv, ?_, by rw [hslash]; decide, ?_⟩
    · rintro rfl
      cases hslash
    · rw [hslash]
      exact fun h => absurd h (by decide)

theorem item_passes (h : ItemFits v) (hk : k % 2 = 0) (hk' : k ≤ 512) :
    Passes (within (⟨.seq, k⟩ :: stack) ((itemText k v ++ [LF]) :: rest) off n)
      (within (⟨.seq, k⟩ :: stack) rest (off + (itemText k v ++ [LF]).length) (n + 1))
      (InlineValue v) (fun evs => ∃ value, evs = [.scalar [] value (n + 1)]) := by
  refine .of_yields (fun _ ho => item_accepted h hk hk' ho) fun hv => ?_
  obtain ⟨value, hvalue, -⟩ := hv.value
  exact ⟨_, ⟨value, rfl⟩, .single (next_item_value h hk hk' hv.cr hv.tab hv.last hvalue) rfl⟩

end Items

end Hacman.Siml
