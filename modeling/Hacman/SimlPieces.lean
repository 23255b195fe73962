import Hacman.SimlBlocks

/-!
# Documents written piece by piece

A mapping at the margin is written as entries on one line, as a sequence of paths, as a
mapping of blocks and as a block. Each piece has one lemma: what it takes for the parser to
get past it, and what its events say about the keys that are asked for.
-/

namespace Hacman.Siml
open Octets Util Config

section Says
variable {wanted : List Bytes} {body body' rest text : Bytes} {C C' : Prop}
  {R R' : List (Bytes × Value)} {evs evs' : List Event} {p q : Parser} {off n d : Nat}

def topLevel (rest : Bytes) (off n : Nat) : Parser := within [⟨.map, 0⟩] (rawLines rest) off n

/-- The piece `body`, wherever it stands in front of `rest`: it is taken under `C`, and its
events have the property `P` in the whole text. -/
def Takes (body rest : Bytes) (C : Prop) (P : Bytes → List Event → Prop) : Prop :=
  ∀ text off n, text.drop off = body ++ rest →
    Passes (topLevel (body ++ rest) off n) (topLevel rest (off + body.length) (n + body.count LF)) C
      (P text)

def Says (wanted : List Bytes) (body rest : Bytes) (C : Prop) (R : List (Bytes × Value)) : Prop :=
  Takes body rest C fun text => Reads text wanted 1 1 R

theorem passes_of_iff {es : List Event} {P : List Event → Prop} (hp : P es)
    (h : ∀ out, Accepts p out ↔ ∃ tail, out = es ++ tail ∧ Accepts q tail) : Passes p q True P :=
  ⟨fun _ _ => trivial, fun _ => ⟨es, hp, h⟩⟩

theorem Takes.append {P : Bytes → List Event → Prop} (h : Says wanted body (body' ++ rest) C R)
    (h' : Takes body' rest C' P) : Takes (body ++ body') rest (C ∧ C') fun text evs =>
      ∃ front tail, evs = front ++ tail ∧ Reads text wanted 1 1 R front ∧ P text tail := by
  intro text off n htext
  rw [List.append_assoc] at htext ⊢
  have hdrop : text.drop (off + body.length) = body' ++ rest := by
    rw [← List.drop_drop, htext, List.drop_left]
  have hfirst := h text off n htext
  have hsecond := h' text (off + body.length) (n + body.count LF) hdrop
  rw [List.length_append, List.count_append, ← Nat.add_assoc, ← Nat.add_assoc]
  exact hfirst.trans hsecond fun es es' hes hes' => ⟨es, es', rfl, hes, hes'⟩

theorem Says.append (h : Says wanted body (body' ++ rest) C R) (h' : Says wanted body' rest C' R') :
    Says wanted (body ++ body') rest (C ∧ C') (R ++ R') := fun text off n htext =>
  (Takes.append h h' text off n htext).congr Iff.rfl fun evs hevs => by
    obtain ⟨front, tail, rfl, hfront, htail⟩ := hevs
    exact hfront.append htail

theorem Says.congr (h : Says wanted body rest C R) (hc : C ↔ C') (hr : R = R') :
    Says wanted body rest C' R' := fun text off n htext =>
  (h text off n htext).congr hc fun _ hevs => hr ▸ hevs

theorem says_nil (rest : Bytes) : Says wanted [] rest True [] := fun _ off n _ =>
  .refl (reads_silent fun _ => rfl) (topLevel rest off n)

theorem reads_header (key : Bytes) (n : Nat) : Reads text wanted d d [] [.entryHeader key n] :=
  reads_silent fun _ => rfl

theorem reads_mapping (n : Nat) : Reads text wanted d (d + 1) [] [.mappingStart n] :=
  reads_silent fun _ => rfl

theorem reads_mappingEnd (n : Nat) : Reads text wanted (d + 1) d [] [.mappingEnd n] :=
  reads_silent fun _ => rfl

theorem reads_sequence (key : Bytes) (n : Nat) :
    Reads text wanted d (d + 1) [] [.sequenceStart key n] :=
  reads_silent fun _ => rfl

theorem reads_sequenceEnd : Reads text wanted (d + 1) d [] [.sequenceEnd] :=
  reads_silent fun _ => rfl

/-- Events inside a block that give its lines. -/
structure BlockReads (text : Bytes) (evs : List Event) (lines : List Bytes) : Prop where
  silent : ∀ d tail, entries text d (evs ++ tail) = entries text d tail
  lines : ∀ tail, blockTexts text (evs ++ tail) = lines ++ blockTexts text tail

theorem blockReads_nil : BlockReads text [] [] := ⟨fun _ _ => rfl, fun _ => rfl⟩

theorem blockReads_line {value : Slice} {line : Bytes}
    (h : (text.drop value.off).take value.len = line) : BlockReads text [.blockLine value] [line] :=
  ⟨fun _ _ => rfl, fun _ => by rw [List.singleton_append, blockTexts, h, List.singleton_append]⟩

theorem BlockReads.append {lines lines' : List Bytes} (h : BlockReads text evs lines)
    (h' : BlockReads text evs' lines') : BlockReads text (evs ++ evs') (lines ++ lines') :=
  ⟨fun d tail => by rw [List.append_assoc, h.silent, h'.silent],
    fun tail => by rw [List.append_assoc, h.lines, h'.lines, List.append_assoc]⟩

theorem BlockReads.reads {lines : List Bytes} {key : Bytes} (h : BlockReads text evs lines)
    (hkey : key ∈ wanted) (n : Nat) :
    Reads text wanted 1 1 [(key, .block lines)] (.blockStart key n :: (evs ++ [.blockEnd])) := by
  intro tail
  refine ⟨[(key, .block lines)], ?_, by simp [hkey]⟩
  rw [List.cons_append, List.append_assoc, entries, if_pos rfl, h.silent, h.lines]
  simp [blockTexts, entries]

theorem BlockReads.reads_inner {lines : List Bytes} (h : BlockReads text evs lines) (hd : d ≠ 1)
    (key : Bytes) (n : Nat) :
    Reads text wanted d d [] (.blockStart key n :: (evs ++ [.blockEnd])) := by
  refine reads_silent fun tail => ?_
  rw [List.cons_append, List.append_assoc, entries, if_neg hd, h.silent]
  rfl

end Says

section Entries
variable {wanted : List Bytes} {key v rest : Bytes} {stack : List Container} {raws : List Bytes}
  {off n : Nat} {b : BlockScalar} {out : List Event}

def entryLine (key v : Bytes) : Bytes := entryText 0 key v ++ [LF]

theorem notMem_entryText (k : Nat) (hkey : Key key) (hv : LF ∉ v) : LF ∉ entryText k key v := by
  simp only [entryText, List.mem_append, List.mem_replicate, List.mem_cons, not_or]
  exact ⟨fun hm => absurd hm.2 (by decide),
    fun hm => (keyChar_ne (hkey.chars _ hm)).2.2.2.1 rfl, by decide, by decide, hv⟩

theorem rawLines_entry (k : Nat) (hkey : Key key) (hv : LF ∉ v) (rest : Bytes) :
    rawLines (entryText k key v ++ [LF] ++ rest) =
      (entryText k key v ++ [LF]) :: rawLines rest := by
  rw [List.append_assoc, List.singleton_append, rawLines_line (notMem_entryText k hkey hv)]

theorem count_entry (k : Nat) (hkey : Key key) (hv : LF ∉ v) :
    (entryText k key v ++ [LF]).count LF = 1 := by
  rw [List.count_append, List.count_eq_zero_of_not_mem (notMem_entryText k hkey hv)]
  rfl

theorem Plain.lf (h : Plain v) : LF ∉ v := fun hm => (h.bytes _ hm).1 rfl

theorem says_plain (hkey : Key key) (hv : Plain v) (rest : Bytes) :
    Says wanted (entryLine key v) rest True (if key ∈ wanted then [(key, .scalar v)] else []) := by
  intro text off n _
  rw [topLevel, entryLine, rawLines_entry 0 hkey hv.lf, count_entry 0 hkey hv.lf]
  refine .of_yields (fun _ _ => trivial) fun _ =>
    ⟨_, ?_, .single (next_plain hkey rfl (by omega) hv) rfl⟩
  split_ifs with hwanted
  · exact reads_scalar hwanted v (n + 1)
  · exact (adds_scalar key v (n + 1)).reads hwanted

def NodeAt (k : Nat) (rest : Bytes) : Prop :=
  ∃ c s tail, rest = List.replicate k SPACE ++ c :: s ++ LF :: tail ∧ LF ∉ c :: s ∧ NodeText c s ∧
    c ≠ DASH ∧ (c :: s).getLast? ≠ some SPACE ∧ 4 ≤ k + s.length

theorem nodeAt_entry {k : Nat} (hkey : Key key) (hne : v ≠ [])
    (hlen : v.length ≤ SIML_MAX_INLINE_VALUE_LEN) (hbytes : ∀ b ∈ v, b ≠ LF ∧ b ≠ CR ∧ b ≠ TAB)
    (hlast : v.getLast? ≠ some SPACE) (hlong : 3 ≤ k + key.length + v.length) (rest : Bytes) :
    NodeAt k (entryText k key v ++ [LF] ++ rest) := by
  obtain ⟨c, s, htext, hc, hnode⟩ := entryText_node hkey hlen (fun b hb => (hbytes b hb).2) k
  have hvalue : c :: s = key ++ COLON :: SPACE :: v := (List.append_cancel_left htext).symm
  refine ⟨c, s, rest, ?_, ?_, hnode, hc, ?_, ?_⟩
  · rw [htext, List.append_assoc, List.singleton_append]
  · have hlf := notMem_entryText k hkey fun hm => (hbytes LF hm).1 rfl
    rw [htext, List.mem_append, not_or] at hlf
    exact hlf.2
  · rw [hvalue, List.getLast?_append_of_ne_nil _ (List.cons_ne_nil _ _),
      List.getLast?_cons_of_ne_nil (List.cons_ne_nil _ _), List.getLast?_cons_of_ne_nil hne]
    exact hlast
  · have hlength := congrArg List.length hvalue
    simp only [List.length_append, List.length_cons] at hlength
    omega

theorem nodeAt_line (hkey : Key key) (hlong : 2 ≤ key.length) (hv : Plain v) (rest : Bytes) :
    NodeAt 0 (entryLine key v ++ rest) := by
  have hpos := List.length_pos_iff.mpr hv.ne_nil
  exact nodeAt_entry hkey hv.ne_nil hv.length_le hv.bytes hv.last (by omega) rest

theorem NodeAt.rawLines {k : Nat} (h : NodeAt k rest) :
    ∃ c s tail, Siml.rawLines rest = (List.replicate k SPACE ++ c :: s ++ [LF]) :: tail ∧
      NodeText c s ∧ c ≠ DASH ∧ (c :: s).getLast? ≠ some SPACE := by
  obtain ⟨c, s, tail, rfl, hlf, hnode, hc, hlast, -⟩ := h
  refine ⟨c, s, _, rawLines_line ?_ tail, hnode, hc, hlast⟩
  rw [List.mem_append, not_or]
  exact ⟨fun hm => absurd (List.eq_of_mem_replicate hm) (by decide), hlf⟩

theorem next_blockHeader {k : Nat} (hkey : Key key) (hk : k % 2 = 0) (hk' : k ≤ 2048) :
    simlNext (within (⟨.map, k⟩ :: stack) ((entryText k key [PIPE] ++ [LF]) :: raws) off n) =
      (.blockStart key (n + 1), inBlock (⟨.map, k⟩ :: stack) raws
        (off + (entryText k key [PIPE] ++ [LF]).length) (n + 1) { key := key, indent := k }) := by
  have hfits : EntryFits k key [PIPE] := ⟨hkey, hk, by simp; omega, by simp, by decide⟩
  rw [next_entry_value hfits (by decide) (by decide) (by decide)]
  rfl

theorem Plain.inlineValue (h : Plain v) : InlineValue v :=
  ⟨fun hm => (h.bytes _ hm).2.1 rfl, fun hm => (h.bytes _ hm).2.2 rfl, h.last, v,
    parseInlineComment_plain h, h.ne_nil, h.head.2.1, fun hopen => absurd hopen h.head.2.2⟩

def Margin (rest : Bytes) : Prop :=
  rest = [] ∨ ∃ c s tail, rest = c :: s ++ LF :: tail ∧ isKeyStart c = true ∧ LF ∉ c :: s

theorem margin_line (hkey : Key key) (hv : LF ∉ v) (rest : Bytes) :
    Margin (entryLine key v ++ rest) := by
  cases key with
  | nil => exact absurd rfl hkey.ne_nil
  | cons c s =>
    refine .inr ⟨c, s ++ COLON :: SPACE :: v, rest, ?_, hkey.1, notMem_entryText 0 hkey hv⟩
    simp [entryLine, entryText]

theorem not_accepts_pipe (hfits : EntryFits 0 key v) (hlf : LF ∉ v)
    (hpipe : parseInlineComment v = .ok [PIPE])
    (hrest : Margin rest) : ¬ Accepts (topLevel (entryLine key v ++ rest) off n) out := by
  intro h
  rw [topLevel, entryLine, rawLines_entry 0 hfits.key hlf] at h
  obtain ⟨hcr, htab, hlast⟩ := entry_clean hfits h
  have hnext := @next_entry_value key v 0 off n [] (rawLines rest) hfits hcr htab hlast
  rw [hpipe] at hnext
  obtain ⟨evs, -, hevs⟩ := (Pull.accepts_of_next hnext rfl).mp h
  rcases hrest with rfl | ⟨c, s, tail, rfl, hc, hmargin⟩
  · exact not_accepts_end rfl rfl hevs
  · obtain ⟨hspace, htab', -⟩ := keyChar_ne (isKeyStart_keyChar hc)
    rw [rawLines_line hmargin] at hevs
    exact not_accepts_empty ⟨hspace, htab'⟩ rfl rfl (Nat.succ_pos n) hevs

/-- An entry that the grammar takes if its value is a proper one; if it is asked for, it says
that value. -/
structure Entry (wanted : List Bytes) (e : Bytes × Bytes) : Prop where
  fits : EntryFits 0 e.1 e.2
  lf : LF ∉ e.2
  length_le : e.2.length ≤ SIML_MAX_INLINE_VALUE_LEN
  exact : e.1 ∈ wanted → InlineValue e.2 → Plain e.2

theorem entry_plain (hkey : Key key) (hv : Plain v) : Entry wanted (key, v) := by
  have hlen := hv.length_le
  refine ⟨⟨hkey, rfl, ?_, hv.ne_nil, hv.head.1⟩, hv.lf, hlen, fun _ _ => hv⟩
  simp only [SIML_MAX_INLINE_VALUE_LEN] at hlen
  dsimp only
  omega

theorem line_passes {e : Bytes × Bytes} (h : Entry wanted e) (hrest : Margin rest) :
    Passes (topLevel (entryLine e.1 e.2 ++ rest) off n)
      (topLevel rest (off + (entryLine e.1 e.2).length) (n + (entryLine e.1 e.2).count LF))
      (InlineValue e.2)
      (Adds e.1) := by
  by_cases hpipe : parseInlineComment e.2 = .ok [PIPE]
  · refine .of_not (fun out => not_accepts_pipe h.fits h.lf hpipe hrest) fun hv => ?_
    obtain ⟨value, hvalue, -, hhead, -⟩ := hv.value
    obtain rfl := Except.ok.inj (hpipe.symm.trans hvalue)
    exact hhead rfl
  · rw [topLevel, entryLine, rawLines_entry 0 h.fits.key h.lf, count_entry 0 h.fits.key h.lf]
    exact entry_passes h.fits h.length_le hpipe

def said (wanted : List Bytes) (e : Bytes × Bytes) : List (Bytes × Value) :=
  asked wanted [(e.1, .scalar e.2)]

theorem said_of_mem {e : Bytes × Bytes} (h : e.1 ∈ wanted) :
    said wanted e = [(e.1, .scalar e.2)] := by
  simp [said, asked, h]

theorem said_of_notMem {e : Bytes × Bytes} (h : e.1 ∉ wanted) : said wanted e = [] := by
  simp [said, asked, h]

theorem says_entry {e : Bytes × Bytes} (h : Entry wanted e) (hrest : Margin rest) :
    Says wanted (entryLine e.1 e.2) rest (InlineValue e.2) (said wanted e) := by
  intro text off n htext
  have hpass := @line_passes wanted rest off n e h hrest
  by_cases hwanted : e.1 ∈ wanted
  · rw [said_of_mem hwanted]
    by_cases hv : InlineValue e.2
    · have hplain := @says_plain wanted _ _ h.fits.key (h.exact hwanted hv) rest text off n htext
      rw [if_pos hwanted] at hplain
      exact hplain.congr ⟨fun _ => hv, fun _ => trivial⟩ fun _ hevs => hevs
    · exact .of_not (fun out ho => hv (hpass.needs out ho)) hv
  · rw [said_of_notMem hwanted]
    exact hpass.congr Iff.rfl fun evs hevs => hevs.reads hwanted

def entryLines (es : List (Bytes × Bytes)) : Bytes := es.flatMap fun e => entryLine e.1 e.2

theorem margin_lines {es : List (Bytes × Bytes)} (h : ∀ e ∈ es, Entry wanted e)
    (hrest : Margin rest) : Margin (entryLines es ++ rest) := by
  cases es with
  | nil => exact hrest
  | cons e es =>
    have he := h e List.mem_cons_self
    rw [entryLines, List.flatMap_cons, List.append_assoc]
    exact margin_line he.fits.key he.lf _

theorem says_lines {es : List (Bytes × Bytes)} (h : ∀ e ∈ es, Entry wanted e)
    (hrest : Margin rest) :
    Says wanted (entryLines es) rest (∀ e ∈ es, InlineValue e.2) (es.flatMap (said wanted)) := by
  induction es with
  | nil => exact (says_nil rest).congr (by simp) rfl
  | cons e es ih =>
    obtain ⟨he, hes⟩ := List.forall_mem_cons.mp h
    exact ((says_entry he (margin_lines hes hrest)).append (ih hes)).congr
      (List.forall_mem_cons (p := fun e : Bytes × Bytes => InlineValue e.2)).symm rfl

end Entries

section Items
variable {wanted : List Bytes} {key rest text : Bytes} {vs : List Bytes} {stack : List Container}
  {off n : Nat}

theorem Passes.reads {p q r : Parser} {C D : Prop} {d d' d'' : Nat} {R R' : List (Bytes × Value)}
    (h : Passes p q C (Reads text wanted d d' R))
    (h' : Passes q r D (Reads text wanted d' d'' R')) :
    Passes p r (C ∧ D) (Reads text wanted d d'' (R ++ R')) :=
  h.trans h' fun _ _ hevs hevs' => hevs.append hevs'

theorem close_passes (hrest : NodeAt 0 rest) (cur : Container) (hin : 0 < cur.indent) :
    Passes (within [cur, ⟨.map, 0⟩] (rawLines rest) off n) (topLevel rest off n) True
      (Reads text wanted 2 1 []) := by
  obtain ⟨c, s, tail, hraws, hnode, -⟩ := hrest.rawLines
  have hclosed : Reads text wanted 2 1 []
      [if cur.type = .map then .mappingEnd (n + 1) else .sequenceEnd] := by
    split_ifs
    · exact reads_mappingEnd _
    · exact reads_sequenceEnd
  rw [topLevel, hraws]
  exact passes_of_iff hclosed fun out => accepts_close (k := 0) hnode rfl (by omega) hin

theorem notMem_itemText {v : Bytes} (k : Nat) (hv : LF ∉ v) : LF ∉ itemText k v := by
  simp only [itemText, List.mem_append, List.mem_replicate, List.mem_cons, not_or]
  exact ⟨fun hm => absurd hm.2 (by decide), by decide, by decide, hv⟩

def itemLines (k : Nat) (vs : List Bytes) : Bytes := vs.flatMap fun v => itemText k v ++ [LF]

theorem items_passes {k : Nat} (hk : k % 2 = 0) (hk' : k ≤ 512)
    (hvs : ∀ v ∈ vs, ItemFits v ∧ LF ∉ v) :
    Passes (within (⟨.seq, k⟩ :: stack) (rawLines (itemLines k vs ++ rest)) off n)
      (within (⟨.seq, k⟩ :: stack) (rawLines rest) (off + (itemLines k vs).length)
        (n + (itemLines k vs).count LF)) (∀ v ∈ vs, InlineValue v) (Reads text wanted 2 2 []) := by
  induction vs generalizing off n with
  | nil =>
    exact (Pull.Passes.refl (reads_silent fun _ => rfl) _).congr (by simp) fun _ h => h
  | cons v vs ih =>
    obtain ⟨⟨hfits, hlf⟩, hrest⟩ := List.forall_mem_cons.mp hvs
    have hlines : itemLines k (v :: vs) = itemText k v ++ [LF] ++ itemLines k vs := rfl
    have hcount : (itemText k v ++ [LF]).count LF = 1 := by
      rw [List.count_append, List.count_eq_zero_of_not_mem (notMem_itemText k hlf)]
      rfl
    have hitem : Passes (within (⟨.seq, k⟩ :: stack)
        (rawLines (itemLines k (v :: vs) ++ rest)) off n)
        (within (⟨.seq, k⟩ :: stack) (rawLines (itemLines k vs ++ rest))
          (off + (itemText k v ++ [LF]).length) (n + 1)) (InlineValue v)
            (Reads text wanted 2 2 []) := by
      rw [hlines, List.append_assoc, List.append_assoc, List.singleton_append,
        rawLines_line (notMem_itemText k hlf)]
      refine (item_passes hfits hk hk').congr Iff.rfl fun evs hevs => ?_
      obtain ⟨value, rfl⟩ := hevs
      exact reads_inner (by omega) [] value (n + 1)
    rw [hlines, List.length_append, List.count_append, hcount, ← Nat.add_assoc, ← Nat.add_assoc]
    exact (hitem.reads (ih hrest)).congr List.forall_mem_cons.symm fun _ h => h

theorem says_header {body : Bytes} {C : Prop} (hkey : Key key)
    (h : ∀ text off n, text.drop off = body ++ rest →
      Passes (awaiting 2 [⟨.map, 0⟩] (rawLines (body ++ rest)) off n)
        (topLevel rest (off + body.length) (n + body.count LF)) C (Reads text wanted 1 1 [])) :
    Says wanted (headerText 0 key ++ [LF] ++ body) rest C [] := by
  intro text off n htext
  have hheader : LF ∉ headerText 0 key := by
    simp only [headerText, List.replicate_zero, List.nil_append, List.mem_append,
      List.mem_singleton, not_or]
    exact ⟨fun hm => (keyChar_ne (hkey.chars _ hm)).2.2.2.1 rfl, by decide⟩
  have hcount : (headerText 0 key ++ [LF]).count LF = 1 := by
    rw [List.count_append, List.count_eq_zero_of_not_mem hheader]
    rfl
  rw [List.append_assoc] at htext
  have hdrop : text.drop (off + (headerText 0 key ++ [LF]).length) = body ++ rest := by
    rw [← List.drop_drop, htext, List.drop_left]
  rw [List.length_append, List.count_append, hcount, ← Nat.add_assoc, ← Nat.add_assoc, topLevel,
    List.append_assoc, List.append_assoc, List.singleton_append, rawLines_line hheader]
  have hopen : Passes (within [⟨.map, 0⟩]
      ((headerText 0 key ++ [LF]) :: rawLines (body ++ rest)) off n)
      (awaiting 2 [⟨.map, 0⟩] (rawLines (body ++ rest))
        (off + (headerText 0 key ++ [LF]).length) (n + 1))
      True (Reads text wanted 1 1 []) :=
    .of_yields (fun _ _ => trivial) fun _ =>
      ⟨_, reads_header key (n + 1), .single (next_header hkey rfl (Nat.zero_le 2048)) rfl⟩
  exact (hopen.reads (h text _ (n + 1) hdrop)).congr (by simp) fun _ h => h

theorem nested_passes {c : UInt8} {s body : Bytes} {tail : List Bytes}
    {type : ContainerType} {C : Prop}
    (hraws : rawLines (body ++ rest) = (List.replicate 2 SPACE ++ c :: s ++ [LF]) :: tail)
    (hnode : NodeText c s) (htype : type = if c = DASH then .seq else .map) (hrest : NodeAt 0 rest)
    (hbody : Passes (within [⟨type, 2⟩, ⟨.map, 0⟩] (rawLines (body ++ rest)) off n)
      (within [⟨type, 2⟩, ⟨.map, 0⟩] (rawLines rest) (off + body.length) (n + body.count LF)) C
      (Reads text wanted 2 2 [])) :
    Passes (awaiting 2 [⟨.map, 0⟩] (rawLines (body ++ rest)) off n)
      (topLevel rest (off + body.length) (n + body.count LF)) C (Reads text wanted 1 1 []) := by
  have hopened : Reads text wanted 1 2 []
      [if c = DASH then .sequenceStart [] (n + 1) else .mappingStart (n + 1)] := by
    split_ifs
    · exact reads_sequence [] (n + 1)
    · exact reads_mapping (n + 1)
  have hfirst : Passes (awaiting 2 [⟨.map, 0⟩] (rawLines (body ++ rest)) off n)
      (within [⟨type, 2⟩, ⟨.map, 0⟩] (rawLines (body ++ rest)) off n) True
        (Reads text wanted 1 2 []) := by
    rw [hraws, htype]
    exact passes_of_iff hopened fun out => accepts_awaiting hnode rfl (by omega) (by decide)
  exact ((hfirst.reads hbody).reads (close_passes hrest ⟨type, 2⟩ Nat.two_pos)).congr
    (by simp) fun _ h => h

theorem says_items (hkey : Key key) (hne : vs ≠ []) (hvs : ∀ v ∈ vs, ItemFits v ∧ LF ∉ v)
    (hrest : NodeAt 0 rest) :
    Says wanted (headerText 0 key ++ [LF] ++ itemLines 2 vs) rest (∀ v ∈ vs, InlineValue v) [] := by
  refine says_header hkey fun text off n _ => ?_
  obtain ⟨v, vs, rfl⟩ := List.exists_cons_of_ne_nil hne
  obtain ⟨⟨hfits, hlf⟩, -⟩ := List.forall_mem_cons.mp hvs
  have hraws : rawLines (itemLines 2 (v :: vs) ++ rest) =
      (itemText 2 v ++ [LF]) :: rawLines (itemLines 2 vs ++ rest) := by
    rw [itemLines, List.flatMap_cons, List.append_assoc, List.append_assoc, List.singleton_append,
      rawLines_line (notMem_itemText 2 hlf)]
    rfl
  by_cases hbad : CR ∈ v ∨ TAB ∈ v
  · refine .of_not (fun out => ?_) fun hall => ?_
    · rw [hraws]
      exact not_accepts_awaiting (hbad.imp (fun hm => by simp [itemText, hm])
        fun hm => by simp [itemText, hm])
    · have hv := (List.forall_mem_cons.mp hall).1
      exact hbad.elim hv.cr hv.tab
  · obtain ⟨hcr, htab⟩ := not_or.mp hbad
    exact nested_passes hraws (itemText_node hfits hcr htab) rfl hrest
      (items_passes rfl (by omega) hvs)

end Items

section Blocks
variable {key rest text body : Bytes} {stack : List Container} {k off n : Nat} {b : BlockScalar}
  {C : Prop} {P : List Event → Prop}

def Leaves (k : Nat) (rest : Bytes) : Prop := rest = [] ∨ ∃ j ≤ k, NodeAt j rest

theorem leave_passes (hrest : Leaves b.indent rest) (hk : b.indent ≤ 512)
    (hseen : b.seenContent = true)
    (hblank : b.blankCount = 0) (hb : b.emitBlanks = false) (hn : 0 < n) :
    Passes (inBlock stack (rawLines rest) off n b) (within stack (rawLines rest) off n) True
      (· = [.blockEnd]) := by
  rcases hrest with rfl | ⟨j, hj, hnode⟩
  · exact .of_yields (fun _ _ => trivial) fun _ => ⟨_, rfl, .single (next_end hseen hblank hb) rfl⟩
  · obtain ⟨c, s, tail, hraws, htext, -, hlast⟩ := hnode.rawLines
    rw [hraws]
    exact passes_of_iff rfl fun out =>
      accepts_leave htext (by omega) (by omega) hlast hseen hblank hb hn

def blockEntry (k : Nat) (key body : Bytes) : Bytes := entryText k key [PIPE] ++ [LF] ++ body

theorem block_passes (hkey : Key key) (hk : k % 2 = 0) (hk' : k ≤ 512) (hrest : Leaves k rest)
    (hindent : b.indent = k) (hseen : b.seenContent = true) (hblank : b.blankCount = 0)
    (hb : b.emitBlanks = false) (htext : text.drop off = blockEntry k key body ++ rest)
    (hbody : ∀ off m, 0 < m → text.drop off = body ++ rest →
      Passes (inBlock (⟨.map, k⟩ :: stack) (rawLines (body ++ rest)) off m
        { key := key, indent := k })
        (inBlock (⟨.map, k⟩ :: stack) (rawLines rest) (off + body.length)
          (m + body.count LF) b) C P) :
    Passes (within (⟨.map, k⟩ :: stack) (rawLines (blockEntry k key body ++ rest)) off n)
      (within (⟨.map, k⟩ :: stack) (rawLines rest) (off + (blockEntry k key body).length)
        (n + (blockEntry k key body).count LF)) C
      fun evs => ∃ inner, evs = .blockStart key (n + 1) :: (inner ++ [.blockEnd]) ∧ P inner := by
  have hlf : LF ∉ ([PIPE] : Bytes) := by decide
  have hdrop : text.drop (off + (entryText k key [PIPE] ++ [LF]).length) = body ++ rest := by
    rw [← List.drop_drop, htext, blockEntry, List.append_assoc _ body, List.drop_left]
  have hraws : rawLines (blockEntry k key body ++ rest) =
      (entryText k key [PIPE] ++ [LF]) :: rawLines (body ++ rest) := by
    rw [blockEntry, List.append_assoc _ body, rawLines_entry k hkey hlf]
  have hopen : Passes (within (⟨.map, k⟩ :: stack) (rawLines (blockEntry k key body ++ rest)) off n)
      (inBlock (⟨.map, k⟩ :: stack) (rawLines (body ++ rest))
        (off + (entryText k key [PIPE] ++ [LF]).length) (n + 1) { key := key, indent := k }) True
      (· = [.blockStart key (n + 1)]) := by
    rw [hraws]
    exact .of_yields (fun _ _ => trivial) fun _ =>
      ⟨_, rfl, .single (next_blockHeader hkey hk (by omega)) rfl⟩
  have hinside := hbody _ (n + 1) (Nat.succ_pos n) hdrop
  have hleave := @leave_passes rest (⟨.map, k⟩ :: stack)
    (off + (entryText k key [PIPE] ++ [LF]).length + body.length) (n + 1 + body.count LF) b
    (hindent ▸ hrest) (hindent ▸ hk') hseen hblank hb (by omega)
  rw [blockEntry, List.length_append, List.count_append, count_entry k hkey hlf, ← Nat.add_assoc,
    ← Nat.add_assoc]
  have hlast : Passes _ _ (C ∧ True) fun evs => ∃ inner, evs = inner ++ [.blockEnd] ∧ P inner :=
    hinside.trans hleave fun es es' hes hes' => ⟨es, by rw [hes'], hes⟩
  have hall : Passes _ _ (True ∧ C ∧ True)
      fun evs => ∃ inner, evs = .blockStart key (n + 1) :: (inner ++ [.blockEnd]) ∧ P inner :=
    hopen.trans hlast fun es es' hes hes' => by
      obtain ⟨inner, hinner, hp⟩ := hes'
      exact ⟨inner, by rw [hes, hinner]; rfl, hp⟩
  exact hall.congr (by simp) fun _ h => h

end Blocks

end Hacman.Siml
