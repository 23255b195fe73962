import Hacman.SimlSound
import Hacman.Levels

/-!
# Block scalars, from the parser to the line walker

The parser emits the lines of a block one by one; the project keeps one region of the
buffer and a number of columns. Both tell the same text.
-/

namespace Hacman.Siml
open Octets Util Config Levels

section Traces

/-- Events that fit one behind another, up to an error or the end of the stream. -/
inductive Traced (content : Bytes) : Option OpenBlock → List Event → Prop
  | error {g : Option OpenBlock} (line : Nat) (msg : Option Bytes) :
    Traced content g [.error line msg]
  | done : Traced content none []
  | step {g g' : Option OpenBlock} {ev : Event} {evs : List Event}
      (h : EventSound content g ev g') (rest : Traced content g' evs) : Traced content g (ev :: evs)

variable {content : Bytes} {p : Parser} {evs : List Event}

theorem traced_of_emits {g : Option OpenBlock} (hp : Sound content g p) (h : Emits p evs) :
    Traced content g evs := by
  induction h generalizing g with
  | last hnext hfinal =>
    rcases simlNext_fine hp with ⟨line, msg, herror⟩ | ⟨g', hev, -⟩
    · rw [hnext] at herror
      obtain rfl := show _ = Event.error line msg from herror
      exact .error line msg
    · rw [hnext] at hev
      cases hev with
      | plain hplain => exact .step (.plain hplain) .done
      | blockStart => cases hfinal
      | blank => cases hfinal
      | line => cases hfinal
      | blockEnd => cases hfinal
  | cons hnext hfinal _ ih =>
    rcases simlNext_fine hp with ⟨line, msg, herror⟩ | ⟨g', hev, hq⟩
    · rw [hnext] at herror
      obtain rfl := show _ = Event.error line msg from herror
      cases hfinal
    · rw [hnext] at hev hq
      exact .step hev (ih hq)

theorem sound_before (content : Bytes) :
    Sound content none { start content with docState := .before } :=
  ⟨content, ⟨nofun, ⟨[], rfl, rfl, .inl rfl⟩, rfl, nofun⟩, rfl⟩

theorem traced_start (h : Emits (start content) evs) : Traced content none evs := by
  have hfirst : simlNext (start content) =
      (.streamStart, { start content with docState := .before }) := rfl
  obtain ⟨rest, rfl, hrest⟩ := (Pull.ends_of_next hfirst rfl).mp h
  exact .step (.plain trivial) (traced_of_emits (sound_before content) hrest)

theorem Traced.tail {g : Option OpenBlock} {pre : List Event} {ev : Event} {post : List Event}
    (h : Traced content g (pre ++ ev :: post)) : ∃ g', Traced content g' (ev :: post) := by
  induction pre generalizing g with
  | nil => exact ⟨g, h⟩
  | cons first pre ih =>
    generalize hevs : first :: pre ++ ev :: post = evs at h
    cases h with
    | error => simp at hevs
    | done => cases hevs
    | step _ hrest =>
      cases hevs
      exact ih hrest

end Traces

section Told

def sliceText (content : Bytes) (value : Slice) : Bytes := (content.drop value.off).take value.len

/-- The lines of a block up to a content line stand in the buffer, and that line ends at `stop`. -/
structure Reached (content : Bytes) (g : OpenBlock) (stop : Nat) : Prop where
  place : ∃ rest, LineAt content g.start (indentedLines g.indent g.lines ++ rest)
  stop : stop + 1 = g.start + (indentedLines g.indent g.lines).length

variable {content : Bytes} {evs : List Event} {g : OpenBlock}

theorem sliceText_blank (content : Bytes) : sliceText content ⟨0, 0⟩ = [] := rfl

theorem sliceText_line {start : Nat} {line rest : Bytes} (hline : BlockLine line)
    (hat : LineAt content start (indentedLines g.indent (g.lines ++ [line]) ++ rest)) :
    sliceText content ⟨start + (indentedLines g.indent g.lines).length + g.indent, line.length⟩ =
      line := by
  have hdrop := hat.drop
  rw [indentedLines_append, indentedLines_singleton _ hline.ne_nil] at hdrop
  unfold sliceText
  dsimp only
  rw [Nat.add_assoc, ← List.drop_drop, hdrop, ← List.drop_drop]
  simp only [List.append_assoc]
  rw [List.drop_left, List.drop_left' (List.length_replicate ..), List.take_left]

theorem Reached.line {start : Nat} {line rest : Bytes} (hline : BlockLine line)
    (hat : LineAt content start (indentedLines g.indent (g.lines ++ [line]) ++ rest)) :
    Reached content { g with start := start, lines := g.lines ++ [line] }
      (start + (indentedLines g.indent g.lines).length + g.indent + line.length) := by
  refine ⟨⟨rest, hat⟩, ?_⟩
  dsimp only
  rw [indentedLines_append, indentedLines_singleton _ hline.ne_nil]
  simp only [List.length_append, List.length_replicate, List.length_singleton]
  omega

theorem indentedLines_ends (m : Nat) {lines : List Bytes} (h : lines ≠ []) :
    ∃ text, indentedLines m lines = text ++ [LF] := by
  obtain ⟨front, last, rfl⟩ := List.eq_nil_or_concat lines |>.resolve_left h
  refine ⟨indentedLines m front ++ indentedLine m last, ?_⟩
  rw [List.concat_eq_append, indentedLines_append, List.append_assoc]
  simp [indentedLines]

theorem Reached.region {stop : Nat} (h : Reached content g stop) (hne : g.lines ≠ []) :
    region content g.start stop ++ [LF] = indentedLines g.indent g.lines := by
  obtain ⟨rest, hat⟩ := h.place
  obtain ⟨text, htext⟩ := indentedLines_ends g.indent hne
  have hlen : stop - g.start = text.length := by
    have hstop := h.stop
    rw [htext, List.length_append, List.length_singleton] at hstop
    omega
  rw [Config.region, hlen, hat.drop, htext, List.append_assoc, List.take_left]

theorem lineStart_first {start indent : Nat} {line rest : Bytes} (hline : BlockLine line)
    (hat : LineAt content start (indentedLines indent [line] ++ rest)) :
    lineStart content (start + indent) = start := by
  rw [indentedLines_singleton _ hline.ne_nil, List.append_assoc] at hat
  refine hat.lineStart ?_ (by simp)
  intro hmem
  rcases List.mem_append.mp hmem with hmem | hmem
  · exact absurd (List.eq_of_mem_replicate hmem) (by decide)
  · exact hline.lf hmem

theorem Traced.block {stop : Nat} (h : Traced content (some g) evs)
    (herr : ∀ line msg, Event.error line msg ∉ evs) (hne : g.lines ≠ [])
    (hsound : ∀ line ∈ g.lines, line = [] ∨ BlockLine line)
    (hreached : g.lines.getLast? ≠ some [] → Reached content g stop) :
    ∃ (body : List Slice) (post : List Event) (lines : List Bytes),
      evs = body.map .blockLine ++ .blockEnd :: post ∧
      lines = g.lines ++ body.map (sliceText content) ∧
        (∀ line ∈ lines, line = [] ∨ BlockLine line) ∧
      lines.getLast? ≠ some [] ∧
      Reached content { g with lines := lines } (body.foldl lastEnd stop) ∧
        Traced content none post := by
  induction evs generalizing g stop with
  | nil => cases h
  | cons ev evs ih =>
    have herr' : ∀ line msg, Event.error line msg ∉ evs :=
      fun line msg hmem => herr line msg (List.mem_cons_of_mem _ hmem)
    cases h with
    | error line msg => exact absurd (List.mem_cons_self ..) (herr line msg)
    | step hev hrest =>
      cases hev with
      | blank _ =>
        have hsound' : ∀ l ∈ g.lines ++ [[]], l = [] ∨ BlockLine l := by
          intro l hl
          rcases List.mem_append.mp hl with hl | hl
          · exact hsound l hl
          · exact .inl (List.mem_singleton.mp hl)
        obtain ⟨body, post, lines, rfl, hlines, hclean, hlast, hr, hpost⟩ :=
          ih hrest herr' (by simp) hsound' (show _ → Reached content _ stop by simp)
        refine ⟨⟨0, 0⟩ :: body, post, lines, rfl, ?_, hclean, hlast, ?_, hpost⟩
        · rw [hlines, List.map_cons, sliceText_blank, List.append_assoc]
          rfl
        · rw [List.foldl_cons, lastEnd, if_pos rfl]
          exact hr
      | @line _ start line rest hline hat hstart =>
        have hsound' : ∀ l ∈ g.lines ++ [line], l = [] ∨ BlockLine l := by
          intro l hl
          rcases List.mem_append.mp hl with hl | hl
          · exact hsound l hl
          · rw [List.mem_singleton.mp hl]
            exact .inr hline
        obtain ⟨body, post, lines, rfl, hlines, hclean, hlast, hr, hpost⟩ :=
          ih hrest herr' (by simp) hsound' (fun _ => .line hline hat)
        refine ⟨⟨_, line.length⟩ :: body, post, lines, rfl, ?_, hclean, hlast, ?_, hpost⟩
        · rw [hlines, List.map_cons, sliceText_line hline hat, List.append_assoc]
          rfl
        · rw [List.foldl_cons, lastEnd, if_neg (List.length_eq_zero_iff.not.mpr hline.ne_nil)]
          rw [hstart hne] at hr ⊢
          exact hr
      | blockEnd _ hlast =>
        exact ⟨[], evs, g.lines, rfl, (List.append_nil _).symm, hsound, hlast,
          hreached hlast, hrest⟩

theorem Traced.whole {x : Input} {indent : Nat} (h : Traced x.buf (some { indent := indent }) evs)
    (herr : ∀ line msg, Event.error line msg ∉ evs) :
    ∃ (first : Slice) (body : List Slice) (post : List Event) (lines : List Bytes),
      evs = .blockLine first :: (body.map .blockLine ++ .blockEnd :: post) ∧
      lines = (first :: body).map (sliceText x.buf) ∧ first.len ≠ 0 ∧
      BlockLines lines ∧ (blockText x first body).2 = indent ∧
      (blockText x first body).1 ++ [LF] = indentedLines indent lines ∧ Traced x.buf none post := by
  generalize hg : (some { indent := indent } : Option OpenBlock) = g at h
  cases h with
  | error line msg => exact absurd (List.mem_singleton_self _) (herr line msg)
  | done => cases hg
  | step hev hrest =>
    subst hg
    cases hev with
    | blank hne => exact absurd rfl hne
    | blockEnd hne _ => exact absurd rfl hne
    | @line _ start line rest hline hat _ =>
      have herr' := fun line msg hmem => herr line msg (List.mem_cons_of_mem _ hmem)
      have hsound : ∀ l ∈ [] ++ [line], l = [] ∨ BlockLine l := by
        intro l hl
        rw [List.mem_singleton.mp hl]
        exact .inr hline
      obtain ⟨body, post, lines, rfl, hlines, hclean, hlast, hr, hpost⟩ :=
        hrest.block herr' (by simp) hsound (fun _ => .line hline hat)
      have hstart := lineStart_first hline hat
      have hfirst : lines = line :: body.map (sliceText x.buf) := hlines
      have hhead : lines.head? ≠ some [] := by
        rw [hfirst]
        exact fun h => hline.ne_nil (Option.some.inj h)
      refine ⟨⟨start + indent, line.length⟩, body, post, lines, rfl, ?_, ?_,
        ⟨by simp [hfirst], hclean, hhead, hlast⟩, ?_, ?_, hpost⟩
      · rw [hlines, List.map_cons]
        exact congrArg (· :: _) (sliceText_line hline hat).symm
      · exact List.length_eq_zero_iff.not.mpr hline.ne_nil
      · rw [blockText, hstart, Nat.add_sub_cancel_left]
      · rw [blockText, hstart]
        exact hr.region (by rw [hlines]; simp)

end Told

section Walk

/-- The line walker called until it has no more lines. -/
inductive Walks (indent : Nat) : Bytes → List Bytes → Prop
  | done {cursor : Bytes} (h : hmFileNextLine indent cursor = none) : Walks indent cursor []
  | line {cursor line rest : Bytes} {lines : List Bytes}
      (h : hmFileNextLine indent cursor = some (line, rest)) (tail : Walks indent rest lines) :
    Walks indent cursor (line :: lines)

variable {m : Nat}

theorem notMem_indentedLine {line : Bytes} (h : LF ∉ line) : LF ∉ indentedLine m line := by
  unfold indentedLine
  split
  · exact List.not_mem_nil
  · intro hmem
    rcases List.mem_append.mp hmem with hmem | hmem
    · exact absurd (List.eq_of_mem_replicate hmem) (by decide)
    · exact h hmem

theorem stripped_indentedLine (line : Bytes) :
    (indentedLine m line).drop (min m ((indentedLine m line).takeWhile (· = SPACE)).length) =
    line := by
  unfold indentedLine
  split
  · rename_i h
    simp [h]
  · rw [List.takeWhile_append_of_pos (by simp), List.length_append, List.length_replicate,
      Nat.min_eq_left (Nat.le_add_right ..), List.drop_left' (List.length_replicate ..)]

theorem hmFileNextLine_last {line : Bytes} (h : LF ∉ line) (hne : line ≠ []) :
    hmFileNextLine m (indentedLine m line) = some (line, []) := by
  have hcursor : indentedLine m line ≠ [] := by
    simp [indentedLine, hne]
  have hlf := notMem_indentedLine (m := m) h
  rw [hmFileNextLine, if_neg hcursor, before_of_notMem hlf, after_of_notMem hlf]
  dsimp only
  rw [stripped_indentedLine]

theorem hmFileNextLine_line {line rest : Bytes} (h : LF ∉ line) :
    hmFileNextLine m (indentedLine m line ++ LF :: rest) = some (line, rest) := by
  have hlf := notMem_indentedLine (m := m) h
  rw [hmFileNextLine, if_neg (by simp), before_append rest hlf, after_append rest hlf]
  dsimp only
  rw [stripped_indentedLine]

/-- The walker gives back the lines of a block that does not end with a blank one. -/
theorem walks_indentedLines {lines : List Bytes} {text : Bytes} (hne : lines ≠ [])
    (hlf : ∀ line ∈ lines, LF ∉ line) (hlast : lines.getLast? ≠ some [])
    (htext : text ++ [LF] = indentedLines m lines) : Walks m text lines := by
  induction lines generalizing text with
  | nil => exact absurd rfl hne
  | cons line lines ih =>
    have hline := hlf line (List.mem_cons_self ..)
    have hcons : indentedLines m (line :: lines) =
        indentedLine m line ++ LF :: indentedLines m lines := by
      simp [indentedLines]
    rw [hcons] at htext
    cases lines with
    | nil =>
      have htext' : text = indentedLine m line := by
        exact List.append_cancel_right htext
      rw [htext']
      exact .line (hmFileNextLine_last hline (fun h => hlast (by rw [h]; rfl))) (.done rfl)
    | cons line' lines =>
      obtain ⟨rest, hrest⟩ := indentedLines_ends m (List.cons_ne_nil line' lines)
      have htext' : text = indentedLine m line ++ LF :: rest := by
        rw [hrest, ← List.cons_append, ← List.append_assoc] at htext
        exact List.append_cancel_right htext
      rw [htext']
      refine .line (hmFileNextLine_line hline) (ih (List.cons_ne_nil _ _) ?_ ?_ hrest.symm)
      · exact fun l hl => hlf l (List.mem_cons_of_mem _ hl)
      · simpa using hlast

end Walk

section Kept
variable {x : Input} {c c' : Cfg} {ev : Event}

def BeginsInstall (c : Cfg) : Event → Prop
  | .scalar key _ _ => c.inBinMap = false ∧ key = installKey
  | .blockStart key _ => c.inFiles = false ∧ key = installKey
  | _ => False

/-- Files that are not being filled stay as they are. -/
structure KeptFiles (c c' : Cfg) : Prop where
  started : c'.started = true
  file : ∀ i f, c.block ≠ some (.file i) → c.out.files[i]? = some f →
    c'.block ≠ some (.file i) ∧ c'.out.files[i]? = some f

def KeptInstall (c c' : Cfg) : Prop :=
  c.block ≠ some .install → c'.block ≠ some .install ∧
    c'.out.install = c.out.install ∧ c'.out.installIndent = c.out.installIndent

theorem KeptFiles.of_same (hs : c'.started = true) (hb : c'.block = c.block)
    (hf : c'.out.files = c.out.files) : KeptFiles c c' :=
  ⟨hs, fun _ _ hne hfile => ⟨hb ▸ hne, hf ▸ hfile⟩⟩

theorem KeptInstall.of_same (hb : c'.block = c.block) (hi : c'.out.install = c.out.install)
    (hn : c'.out.installIndent = c.out.installIndent) : KeptInstall c c' :=
  fun hne => ⟨hb ▸ hne, hi, hn⟩

theorem kept_of_same (hs : c'.started = true) (hb : c'.block = c.block)
    (hf : c'.out.files = c.out.files) (hi : c'.out.install = c.out.install)
    (hn : c'.out.installIndent = c.out.installIndent) : KeptFiles c c' ∧ KeptInstall c c' :=
  ⟨.of_same hs hb hf, .of_same hb hi hn⟩

theorem scalar_kept {key value : Bytes} {line : Nat} (hs : c.started = true)
    (h : scalar x c key value line = .ok c') :
    KeptFiles c c' ∧ (¬ BeginsInstall c (.scalar key value line) → KeptInstall c c') := by
  unfold scalar at h
  split at h
  · cases h
  · split at h
    · split at h
      · rw [addSandboxWriteDir_ok h]
        exact ⟨.of_same hs rfl rfl, fun _ => .of_same rfl rfl rfl⟩
      · cases h
    · split at h
      · rw [addBinEntry_ok h]
        exact ⟨.of_same hs rfl rfl, fun _ => .of_same rfl rfl rfl⟩
      · rename_i hbin
        split at h
        · cases h
        · have hf := applyField_frame h
          have hflags := hf.flags
          refine ⟨.of_same ?_ ?_ hf.parts.files, fun hno => ?_⟩
          · rw [hflags]
            exact hs
          · rw [hflags]
          · have hkey : key ≠ installKey := fun hk => hno ⟨by simpa using hbin, hk⟩
            obtain ⟨hi, hn⟩ := Prod.mk.inj (hf.install.trans (if_neg hkey))
            exact .of_same (by rw [hflags]) hi hn

theorem blockLine_kept (b : Block) (value : Slice) (hs : c.started = true) (hb : c.block = some b) :
    KeptFiles c (blockLine x c b value) ∧ KeptInstall c (blockLine x c b value) := by
  unfold blockLine
  split
  · exact kept_of_same hs rfl rfl rfl rfl
  · split
    · exact kept_of_same hs rfl rfl rfl rfl
    · cases b with
      | install => exact ⟨.of_same hs rfl rfl, fun hne => absurd hb hne⟩
      | file i =>
        refine ⟨⟨hs, fun j f hne hf => ⟨hne, ?_⟩⟩, .of_same rfl rfl rfl⟩
        have hij : i ≠ j := fun h => hne (h ▸ hb)
        exact (List.getElem?_modify_ne _ _ hij).trans hf

theorem blockEnd_kept (hs : c.started = true) :
    KeptFiles c (blockEnd x c) ∧ KeptInstall c (blockEnd x c) := by
  unfold blockEnd
  dsimp only
  split
  · rename_i hb _
    exact ⟨⟨hs, fun _ _ _ hf => ⟨nofun, hf⟩⟩, fun hne => absurd hb hne⟩
  · rename_i i start hb _
    refine ⟨⟨hs, fun j f hne hf => ⟨nofun, ?_⟩⟩, fun _ => ⟨nofun, rfl, rfl⟩⟩
    have hij : i ≠ j := fun h => hne (h ▸ hb)
    exact (List.getElem?_modify_ne _ _ hij).trans hf
  · exact ⟨⟨hs, fun _ _ _ hf => ⟨nofun, hf⟩⟩, fun _ => ⟨nofun, rfl, rfl⟩⟩

theorem blockScalarStart_kept {key : Bytes} {line : Nat} (hs : c.started = true)
    (h : blockScalarStart x c key line = .ok c') :
    KeptFiles c c' ∧ (¬ BeginsInstall c (.blockStart key line) → KeptInstall c c') := by
  unfold blockScalarStart at h
  split at h
  · cases hadd : addFile x c key line with
    | error msg =>
      rw [hadd] at h
      cases h
    | ok c₁ =>
      rw [hadd] at h
      cases h
      rw [addFile_ok hadd]
      refine ⟨⟨hs, fun i f _ hf => ?_⟩, fun _ _ => ⟨nofun, rfl, rfl⟩⟩
      obtain ⟨hlt, -⟩ := List.getElem?_eq_some_iff.mp hf
      refine ⟨fun he => ?_, (List.getElem?_append_left hlt).trans hf⟩
      cases he
      exact Nat.lt_irrefl _ hlt
  · rename_i hfiles
    split at h
    · rename_i hkey
      cases h
      simp only [Bool.and_eq_true, decide_eq_true_eq] at hkey hfiles
      have hout : c.inFiles = false := by
        simpa [hkey.1] using hfiles
      exact ⟨⟨hs, fun _ _ _ hf => ⟨nofun, hf⟩⟩, fun hno => absurd ⟨hout, hkey.2⟩ hno⟩
    · cases h

theorem onEvent_kept (hs : c.started = true) (h : onEvent x c ev = .ok c') :
    KeptFiles c c' ∧ (¬ BeginsInstall c ev → KeptInstall c c') := by
  have hall : KeptFiles c c' ∧ KeptInstall c c' →
      KeptFiles c c' ∧ (¬ BeginsInstall c ev → KeptInstall c c') :=
    fun hk => ⟨hk.1, fun _ => hk.2⟩
  cases ev with
  | scalar key value line => exact scalar_kept hs h
  | blockStart key line => exact blockScalarStart_kept hs h
  | blockLine value =>
    cases hb : c.block with
    | none =>
      have hc' : c = c' := by
        simpa [onEvent, hb] using h
      subst hc'
      exact hall (kept_of_same hs rfl rfl rfl rfl)
    | some b =>
      rw [onEvent_blockLine value hb] at h
      obtain rfl := Except.ok.inj h
      exact hall (blockLine_kept b value hs hb)
  | blockEnd =>
    cases h
    exact hall (blockEnd_kept hs)
  | error line msg => cases h
  | documentStart line => simp [onEvent, hs] at h
  | sequenceEnd =>
    cases h
    exact hall (kept_of_same hs rfl rfl rfl rfl)
  | sequenceStart key line =>
    obtain ⟨-, rfl⟩ := sequenceStart_ok h
    exact hall (kept_of_same hs rfl rfl rfl rfl)
  | entryHeader key line =>
    rcases entryHeader_ok h with ⟨-, rfl⟩ | ⟨-, rfl⟩ | ⟨-, rfl⟩ | rfl
    all_goals exact hall (kept_of_same hs rfl rfl rfl rfl)
  | mappingStart line =>
    cases hcur : c.cur with
    | false => simp [onEvent, mappingStart, beginProject, hcur, hs] at h
    | true =>
      rcases mappingStart_ok h hcur with ⟨-, hc'⟩ | ⟨-, -, hc'⟩
      all_goals
        refine hall ?_
        rw [hc']
        exact kept_of_same hs rfl rfl rfl rfl
  | mappingEnd line =>
    simp only [onEvent, mappingEnd] at h
    split_ifs at h
    · cases h
      exact hall (kept_of_same hs rfl rfl rfl rfl)
    · refine hall ?_
      rw [finishBinMap_ok h]
      exact kept_of_same hs rfl rfl rfl rfl
    · have hfin := finishProject_frame h
      have hflags := hfin.flags
      refine hall (kept_of_same ?_ ?_ hfin.files hfin.install.1 hfin.install.2)
      · rw [hflags]
        exact hs
      · rw [hflags]
  | _ =>
    cases h
    exact hall (kept_of_same hs rfl rfl rfl rfl)

theorem feed_kept {evs : List Event} (hs : c.started = true) (h : feed x c evs = .ok c') :
    KeptFiles c c' ∧ (KeptInstall c c' ∨ ∃ pre ev post c₁, evs = pre ++ ev :: post ∧
      feed x c pre = .ok c₁ ∧ BeginsInstall c₁ ev) := by
  induction evs generalizing c with
  | nil =>
    cases h
    exact ⟨.of_same hs rfl rfl, .inl (.of_same rfl rfl rfl)⟩
  | cons ev evs ih =>
    obtain ⟨c₁, hev, hrest⟩ := feed_cons.mp h
    obtain ⟨hfiles, hinstall⟩ := onEvent_kept hs hev
    obtain ⟨hfiles', hinstall'⟩ := ih hfiles.started hrest
    refine ⟨⟨hfiles'.started, fun i f hb hf => ?_⟩, ?_⟩
    · obtain ⟨hb₁, hf₁⟩ := hfiles.file i f hb hf
      exact hfiles'.file i f hb₁ hf₁
    · by_cases hbegins : BeginsInstall c ev
      · exact .inr ⟨[], ev, evs, c, rfl, rfl, hbegins⟩
      · rcases hinstall' with hinstall' | ⟨pre, ev', post, c₂, rfl, hpre, hbegins'⟩
        · refine .inl fun hb => ?_
          obtain ⟨hb₁, hi₁, hn₁⟩ := hinstall hbegins hb
          obtain ⟨hb₂, hi₂, hn₂⟩ := hinstall' hb₁
          exact ⟨hb₂, hi₂.trans hi₁, hn₂.trans hn₁⟩
        · exact .inr ⟨ev :: pre, ev', post, c₂, rfl, feed_cons.mpr ⟨c₁, hev, hpre⟩, hbegins'⟩

end Kept

section Stored
variable {x : Input} {c c' : Cfg} {evs : List Event} {p : Project}

theorem feed_of_emits (hemits : Emits (start x.buf) evs) (hparse : hmConfigParse x evs = .ok p) :
    ∃ front, evs = front ++ [.streamEnd] ∧ (∀ line msg, Event.error line msg ∉ evs) ∧
      ∃ c, feed x {} front = .ok c ∧ c.finished = true ∧ p = c.out := by
  obtain ⟨front, ev, rfl, hlast, hfront⟩ := hemits.split
  have hend : .streamEnd ∉ front := by
    intro hmem
    cases hfront _ hmem
  cases ev with
  | streamEnd =>
    obtain ⟨c, hc, hfin, hp⟩ := feed_of_parse hend hparse
    refine ⟨front, rfl, fun line msg hmem => ?_, c, hc, hfin, hp⟩
    rcases List.mem_append.mp hmem with hmem | hmem
    · cases hfront _ hmem
    · simp at hmem
  | error line msg =>
    obtain ⟨c, -, hp⟩ := (parseFrom_append hend).mp hparse
    cases hp
  | _ => cases hlast

/-- What a block scalar leaves when its end is reached. -/
structure StoredBlock (x : Input) (key : Bytes) (line : Nat) (first : Slice) (body : List Slice)
    (c c' : Cfg) : Prop where
  cur : c.cur = true
  path : c.inFiles = true → validFilePath key = true
  frame : c' = { c with seenInstall := c'.seenInstall, block := none, blockStart := c'.blockStart,
                        blockEnd := c'.blockEnd, out := c'.out }
  out : c.inFiles = true ∧ c'.out = { c.out with
      files := c.out.files ++
        [⟨key, (blockText x first body).1, (blockText x first body).2, line⟩] } ∨
    c.inFiles = false ∧ key = installKey ∧ c'.out = { c.out with
      install := (blockText x first body).1, installIndent := (blockText x first body).2 }

theorem stored_block {key : Bytes} {line : Nat} {first : Slice} {body : List Slice}
    (hf : first.len ≠ 0)
    (h : feed x c (.blockStart key line :: .blockLine first ::
      (body.map .blockLine ++ [.blockEnd])) = .ok c') : StoredBlock x key line first body c c' := by
  obtain ⟨c₁, h₁, hlines⟩ := feed_cons.mp h
  simp only [onEvent, blockScalarStart] at h₁
  split at h₁
  · rename_i hin
    cases hadd : addFile x c key line with
    | error msg =>
      rw [hadd] at h₁
      cases h₁
    | ok c₂ =>
      rw [hadd] at h₁
      have hpath : validFilePath key = true := by
        by_contra hbad
        have hnot : (!validFilePath key) = true := by simpa using hbad
        rw [addFile, if_pos hnot] at hadd
        cases hadd
      obtain ⟨hcur, hin⟩ := Bool.and_eq_true_iff.mp hin
      obtain rfl := Except.ok.inj h₁
      obtain rfl := addFile_ok hadd
      obtain rfl := Except.ok.inj ((feed_lines rfl rfl hf).symm.trans hlines)
      refine ⟨hcur, fun _ => hpath, rfl, .inl ⟨hin, ?_⟩⟩
      simp [filled, indented, modify_snoc, setIndent, setContent]
  · rename_i hin
    split at h₁
    · rename_i hkey
      obtain ⟨hcur, hkey⟩ := Bool.and_eq_true_iff.mp hkey
      obtain rfl := Except.ok.inj h₁
      obtain rfl := Except.ok.inj ((feed_lines rfl rfl hf).symm.trans hlines)
      have hnot : c.inFiles = false := by simpa [hcur] using hin
      exact ⟨hcur, fun hfiles => absurd (hnot.symm.trans hfiles) Bool.false_ne_true, rfl,
        .inr ⟨hnot, of_decide_eq_true hkey, rfl⟩⟩
    · cases h₁

theorem split_last {α : Type} {xs ys zs : List α} {a b : α} (h : a ≠ b)
    (heq : xs ++ a :: ys = zs ++ [b]) : ∃ ys', ys = ys' ++ [b] ∧ zs = xs ++ a :: ys' := by
  rcases List.eq_nil_or_concat ys with rfl | ⟨ys', b', rfl⟩
  · exact absurd (List.append_inj_right' heq rfl) (by simpa using h)
  · rw [List.concat_eq_append, ← List.cons_append, ← List.append_assoc] at heq
    obtain ⟨hzs, hb⟩ := List.append_inj' heq rfl
    exact ⟨ys', by rw [List.concat_eq_append, hb], hzs.symm⟩

theorem feed_embedded {evs : List Event} (hc : Embedded c) (h : feed x c evs = .ok c') :
    Embedded c' := by
  induction evs generalizing c with
  | nil =>
    cases h
    exact hc
  | cons ev evs ih =>
    obtain ⟨c₁, hev, hrest⟩ := feed_cons.mp h
    exact ih (onEvent_embedded hc hev) hrest

theorem started_of_blockStart {key : Bytes} {line : Nat} (hc : Embedded c)
    (h : onEvent x c (.blockStart key line) = .ok c') : c.started = true := by
  refine (hc.opened ?_).1
  cases hcur : c.cur with
  | true => rfl
  | false => simp [onEvent, blockScalarStart, hcur] at h

def LaterInstall (x : Input) (c : Cfg) (evs : List Event) : Prop :=
  ∃ mid ev tail c', evs = mid ++ ev :: tail ∧ feed x c mid = .ok c' ∧ BeginsInstall c' ev

/-- The block between `pre` and `post` is walked line by line as the parser emitted it: an
embedded file in the project, an install text as long as no later one replaces it. -/
def GivenBack (x : Input) (p : Project) (pre : List Event) (key : Bytes) (line : Nat)
    (rest : List Event) : Prop :=
  ∃ (body : List Slice) (post : List Event) (c c' : Cfg),
    rest = body.map .blockLine ++ .blockEnd :: post ∧ feed x {} pre = .ok c ∧
    feed x c (.blockStart key line :: (body.map .blockLine ++ [.blockEnd])) = .ok c' ∧
    (c.inFiles = true ∧ (∃ f, p.files[c.out.files.length]? = some f ∧ f.path = key ∧
        f.line = line ∧ Walks f.contentIndent f.content (body.map (sliceText x.buf))) ∨
      c.inFiles = false ∧ key = installKey ∧
        Walks c'.out.installIndent c'.out.install (body.map (sliceText x.buf)) ∧
        ((p.install, p.installIndent) = (c'.out.install, c'.out.installIndent) ∨
          LaterInstall x c' post))

/-- Every block scalar of an accepted file is given back, whatever stands before it. -/
theorem block_text {pre rest : List Event} {key : Bytes} {line : Nat}
    (hemits : Emits (start x.buf) evs) (hparse : hmConfigParse x evs = .ok p)
    (hblock : evs = pre ++ .blockStart key line :: rest) : GivenBack x p pre key line rest := by
  obtain ⟨front, hfront, herr, d, hfeed, -, rfl⟩ := feed_of_emits hemits hparse
  have htraced := traced_start hemits
  rw [hblock] at htraced herr
  obtain ⟨g, htail⟩ := htraced.tail
  have herr' : ∀ line msg, Event.error line msg ∉ rest := fun l msg hmem =>
    herr l msg (List.mem_append_right _ (List.mem_cons_of_mem _ hmem))
  cases htail with
  | step hev hrest =>
    cases hev with
    | plain h => cases h
    | blockStart _ indent _ =>
      obtain ⟨first, body, post, lines, rfl, hlines, hf, hsound, hindent, htext, -⟩ :=
        hrest.whole herr'
      have hwalk : Walks (blockText x first body).2 (blockText x first body).1
          ((first :: body).map (sliceText x.buf)) := by
        rw [hindent, ← hlines]
        exact walks_indentedLines hsound.ne_nil hsound.lf hsound.last htext
      have hall : (pre ++ .blockStart key line :: .blockLine first :: body.map .blockLine) ++
          .blockEnd :: post = front ++ [.streamEnd] := by
        rw [← hfront, hblock]
        simp
      obtain ⟨post', rfl, rfl⟩ := split_last (by simp) hall
      obtain ⟨c₁, hmid, hpost⟩ := feed_append.mp hfeed
      obtain ⟨c₂, hend, hpost⟩ := feed_cons.mp hpost
      obtain ⟨c, hpre, hlines'⟩ := feed_append.mp hmid
      have hblk : feed x c (.blockStart key line :: .blockLine first ::
          (body.map .blockLine ++ [.blockEnd])) = .ok c₂ := by
        rw [← List.cons_append, ← List.cons_append]
        exact feed_append.mpr ⟨c₁, hlines', feed_single.mpr hend⟩
      have hstored := stored_block hf hblk
      have hnone : c₂.block = none := by rw [hstored.frame]
      have hstarted : c₂.started = c.started := by rw [hstored.frame]
      have hs : c.started = true := by
        obtain ⟨c₃, hstart, -⟩ := feed_cons.mp hblk
        exact started_of_blockStart (feed_embedded embedded_start hpre) hstart
      obtain ⟨hfiles, hinstall⟩ := feed_kept (hstarted.trans hs) hpost
      refine ⟨first :: body, post' ++ [.streamEnd], c, c₂, rfl, hpre, hblk, ?_⟩
      rcases hstored.out with ⟨hin, hnew⟩ | ⟨hin, hkey, hnew⟩
      · refine .inl ⟨hin, ⟨key, _, _, line⟩, (hfiles.file _ _ ?_ ?_).2, rfl, rfl, hwalk⟩
        · rw [hnone]
          exact nofun
        · rw [hnew, List.getElem?_concat_length]
      · refine .inr ⟨hin, hkey, ?_, ?_⟩
        · rw [hnew]
          exact hwalk
        · rcases hinstall with hkept | ⟨mid, ev, tail, c₃, rfl, hfed, hbegins⟩
          · obtain ⟨-, hi, hn⟩ := hkept (by rw [hnone]; exact nofun)
            exact .inl (congrArg₂ Prod.mk hi hn)
          · exact .inr ⟨mid, ev, tail ++ [.streamEnd], c₃, by simp, hfed, hbegins⟩

def indentedInput : Input where
  buf := ascii "command: t\nfiles:\n  f: |\n    x\n\n      y\n"
  origin := ascii "t.siml"

def indentedEvents : List Event := Pull.outputs simlNext isFinal 20 (start indentedInput.buf)

theorem indented_accepted : ∃ p, hmConfigParse indentedInput indentedEvents = .ok p := by
  have hrun : (hmConfigParse indentedInput indentedEvents).map (fun _ => ()) = .ok () := by
    decide +kernel
  cases hp : hmConfigParse indentedInput indentedEvents with
  | error msg =>
    rw [hp] at hrun
    cases hrun
  | ok p => exact ⟨p, rfl⟩

theorem block_text_indented : ∃ p, hmConfigParse indentedInput indentedEvents = .ok p ∧
    GivenBack indentedInput p (indentedEvents.take 6) (ascii "f") 3 (indentedEvents.drop 7) := by
  obtain ⟨p, hp⟩ := indented_accepted
  exact ⟨p, hp, block_text (Pull.ends_outputs (by decide +kernel)) hp (by decide +kernel)⟩

end Stored

end Hacman.Siml
