import Hacman.PlanBlocks
import Hacman.SimlPieces
import Hacman.SimlSound

/-!
# Printed blocks as pieces of a document

A line that the formatter cuts off has lost its line feed, so it runs into what is printed
behind it. A document takes such a line only in front of a blank line, and then the block
has lost a line.
-/

namespace Hacman.PlanSiml
open Octets Util Config Plan PlanBlocks Siml

section Lines
variable {n k : Nat} {line u text tail : Bytes} {lines : List Bytes} {stack : List Container}
  {raws : List Bytes} {off m j : Nat} {b : BlockScalar} {out : List Event}

def printed (n : Nat) (lines : List Bytes) : Bytes := (lines.map (printedLine n)).flatten

theorem printed_cons (n : Nat) (line : Bytes) (lines : List Bytes) :
    printed n (line :: lines) = printedLine n line ++ printed n lines := rfl

def kept (n : Nat) (line : Bytes) : Bytes := line.take (HM_LINE_CAP - n)

theorem printedLine_cut (hn : n ≤ HM_LINE_CAP) (hcut : ¬ LineFits n line) (hne : line ≠ []) :
    printedLine n line = List.replicate n SPACE ++ kept n line := by
  simp only [LineFits, not_le] at hcut
  rw [printedLine, if_neg hne, List.take_append_of_le_length
    (by simp only [List.length_append, List.length_replicate]; omega), List.take_append,
    List.take_of_length_le (by simpa using hn), List.length_replicate, kept]

theorem length_kept (hn : n ≤ HM_LINE_CAP) (hcut : ¬ LineFits n line) :
    n + (kept n line).length = HM_LINE_CAP := by
  simp only [LineFits, not_le] at hcut
  rw [kept, List.length_take]
  omega

def Visible (u : Bytes) : Prop := (∃ c ∈ u, c ≠ SPACE ∧ c ≠ TAB) ∧ u.getLast? ≠ some SPACE

theorem contentText (hcr : CR ∉ u) (hvis : Visible u) (hlen : u.length ≤ SIML_MAX_BLOCK_LINE_LEN)
    (hk : k ≤ 510) : ContentText k (List.replicate (k + 2) SPACE ++ u) := by
  obtain ⟨⟨c, hc, hsee⟩, hlast⟩ := hvis
  have hne := List.ne_nil_of_mem hc
  simp only [SIML_MAX_BLOCK_LINE_LEN] at hlen
  refine ⟨?_, ⟨c, by simp [hc], hsee⟩, ?_, le_indentOf (List.prefix_append ..), ?_, ?_⟩
  · rw [List.mem_append, not_or]
    exact ⟨fun hm => absurd (List.eq_of_mem_replicate hm) (by decide), hcr⟩
  · rwa [List.getLast?_append_of_ne_nil _ hne]
  · simp only [SIML_MAX_BLOCK_LINE_LEN, List.length_append, List.length_replicate]
    omega
  · simp only [SIML_MAX_LINE_LEN, List.length_append, List.length_replicate]
    omega

theorem blockReads_content (h : text.drop off = List.replicate (k + 2) SPACE ++ u ++ tail) :
    BlockReads text [contentEvent k off (List.replicate (k + 2) SPACE ++ u)] [u] := by
  refine blockReads_line ?_
  dsimp only
  rw [← List.drop_drop, h, List.append_assoc, List.drop_left' (List.length_replicate ..),
    List.length_append, List.length_replicate, Nat.add_sub_cancel_left, List.take_left]

theorem blockReads_blanks (text : Bytes) (j : Nat) :
    BlockReads text (List.replicate j blankEvent) (List.replicate j []) := by
  induction j with
  | zero => exact blockReads_nil
  | succ j ih =>
    have hblank : BlockReads text [blankEvent] [[]] := blockReads_line (by simp)
    exact hblank.append ih

def behind (b : BlockScalar) : BlockScalar := { b with seenContent := true, blankCount := 0 }

theorem content_passes (h : ContentText b.indent (List.replicate (b.indent + 2) SPACE ++ u))
    (hb : b.emitBlanks = false) (hm : 0 < m)
    (htext : text.drop off = List.replicate (b.indent + 2) SPACE ++ u ++ tail) :
    Passes (inBlock stack ((List.replicate (b.indent + 2) SPACE ++ u ++ [LF]) :: raws) off m b)
      (inBlock stack raws (off + (List.replicate (b.indent + 2) SPACE ++ u ++ [LF]).length) (m + 1)
        (behind b)) True
      fun evs => BlockReads text evs (List.replicate b.blankCount [] ++ [u]) :=
  .of_yields (fun _ _ => trivial) fun _ => ⟨_,
    (blockReads_blanks text b.blankCount).append (blockReads_content htext), content_yields h hb hm⟩

def Runs (n : Nat) (tail : Bytes) : Prop := tail = [] ∨ ∃ u w, tail = u ++ w ∧ LF ∉ u ∧ n < u.length

theorem runs_printed (h : Runs n tail) (hn : n < HM_LINE_CAP) (hhead : lines.head? ≠ some [])
    (hlf : ∀ line ∈ lines, LF ∉ line) : Runs n (printed n lines ++ tail) := by
  cases lines with
  | nil => exact h
  | cons line lines =>
    cases line with
    | nil => exact absurd rfl hhead
    | cons c s =>
      refine .inr ⟨List.replicate n SPACE ++ [c], (s ++ [LF]).take (HM_LINE_CAP - (n + 1)) ++
        (printed n lines ++ tail), ?_, ?_, by simp⟩
      · have hsplit : List.replicate n SPACE ++ c :: s ++ [LF] =
            List.replicate n SPACE ++ [c] ++ (s ++ [LF]) := by simp
        rw [printed_cons, printedLine, if_neg (List.cons_ne_nil c s), hsplit, List.take_append,
          List.take_of_length_le (by simpa using Nat.succ_le_of_lt hn), List.length_append,
          List.length_replicate, List.length_singleton, List.append_assoc, List.append_assoc]
      · have hc : c ≠ LF := fun hc => hlf _ List.mem_cons_self (hc ▸ List.mem_cons_self)
        simp only [List.mem_append, List.mem_replicate, List.mem_singleton, not_or]
        exact ⟨fun hm => absurd hm.2 (by decide), hc.symm⟩

/-- A line that is cut off runs into the next one, and becomes too long for a block. -/
theorem not_accepts_cut (hcut : ¬ LineFits (b.indent + 2) line) (hk : b.indent + 2 ≤ 512)
    (hne : line ≠ []) (hlf : LF ∉ line) (hrun : Runs (b.indent + 2) tail)
    (hb : b.emitBlanks = false)
    (hm : 0 < m) :
    ¬ Accepts (inBlock stack (rawLines (printedLine (b.indent + 2) line ++ tail)) off m b) out := by
  have hcap : b.indent + 2 ≤ HM_LINE_CAP := hk.trans (by decide)
  have hlen := length_kept hcap hcut
  have hspaces : LF ∉ List.replicate (b.indent + 2) SPACE ++ kept (b.indent + 2) line := by
    rw [List.mem_append, not_or]
    exact ⟨fun hm => absurd (List.eq_of_mem_replicate hm) (by decide),
      fun hm => hlf (List.mem_of_mem_take hm)⟩
  rw [printedLine_cut hcap hcut hne]
  simp only [HM_LINE_CAP] at hlen
  rcases hrun with rfl | ⟨u, w, rfl, hu, hmore⟩
  · rw [List.append_nil]
    exact not_accepts_unterminated (by simp) hspaces hb
  · rw [← List.append_assoc]
    refine not_accepts_long (fun hm => (List.mem_append.mp hm).elim hspaces hu) ?_ ?_ hb hm
    · rw [List.append_assoc]
      exact List.prefix_append ..
    · simp only [SIML_MAX_BLOCK_LINE_LEN, List.length_append, List.length_replicate]
      omega

end Lines

section Body
variable {n : Nat} {line tail text rest : Bytes} {lines : List Bytes} {stack : List Container}
  {off m : Nat} {b : BlockScalar} {out : List Event} {u : Bytes} {k : Nat}

/-- Every line fits, or loses its line feed to a blank line and ends in something visible. -/
def Passable (n : Nat) : List Bytes → Prop
  | [] => True
  | line :: lines => (LineFits n line ∨ lines.head? = some [] ∧ Visible (kept n line)) ∧
    Passable n lines

/-- Of a block the events give back all lines if every line fits, and fewer otherwise. -/
def GivesBack (text : Bytes) (n blanks : Nat) (lines : List Bytes) (evs : List Event) : Prop :=
  ∃ back, BlockReads text evs back ∧ back.length ≤ blanks + lines.length ∧
    (back = List.replicate blanks [] ++ lines ↔ ∀ line ∈ lines, LineFits n line)

/-- Inside a block, in front of the printed lines that are left of it. -/
structure Ready (b : BlockScalar) (lines : List Bytes) : Prop where
  emit : b.emitBlanks = false
  line : ∀ line ∈ lines, line = [] ∨ BlockLine line
  last : lines.getLast? ≠ some []
  begun : b.seenContent = true ∨ ∃ line ∈ lines.head?, line ≠ []
  blanks : lines = [] → b.blankCount = 0

theorem Ready.blank (h : Ready b ([] :: lines)) :
    b.seenContent = true ∧ Ready b.oneBlank lines := by
  have hseen : b.seenContent = true := h.begun.resolve_right (by simp)
  have hne : lines ≠ [] := by
    rintro rfl
    exact h.last rfl
  refine ⟨hseen, h.emit, (List.forall_mem_cons.mp h.line).2, ?_, .inl hseen,
    fun hnil => absurd hnil hne⟩
  rw [← List.getLast?_cons_of_ne_nil hne]
  exact h.last

theorem Ready.next (h : Ready b (line :: lines)) : Ready (behind b) lines := by
  refine ⟨h.emit, (List.forall_mem_cons.mp h.line).2, ?_, .inl rfl, fun _ => rfl⟩
  cases lines with
  | nil => simp
  | cons line' lines =>
    rw [← List.getLast?_cons_of_ne_nil (List.cons_ne_nil line' lines)]
    exact h.last

theorem Ready.line_lf (h : Ready b lines) : ∀ line ∈ lines, LF ∉ line := by
  intro line hline
  rcases h.line line hline with rfl | hb
  · exact List.not_mem_nil
  · exact hb.lf

theorem lineFits_nil (hn : n < HM_LINE_CAP) : LineFits n [] := by
  simpa [LineFits] using Nat.succ_le_of_lt hn

theorem printedLine_blank (n : Nat) : printedLine n [] = [LF] := if_pos rfl

theorem GivesBack.fits {blanks : Nat} {evs evs' : List Event} (hfit : LineFits n line)
    (h : BlockReads text evs (List.replicate blanks [] ++ [line]))
    (h' : GivesBack text n 0 lines evs') :
    GivesBack text n blanks (line :: lines) (evs ++ evs') := by
  obtain ⟨back, hreads, hlen, hiff⟩ := h'
  refine ⟨_, h.append hreads, ?_, ?_⟩
  · simp only [List.length_append, List.length_replicate, List.length_cons, List.length_nil]
    omega
  · rw [List.append_assoc, List.append_cancel_left_eq, List.singleton_append, List.cons_inj_right,
      List.forall_mem_cons, ← hiff, List.replicate_zero, List.nil_append]
    exact ⟨fun hback => ⟨hfit, hback⟩, fun hback => hback.2⟩

theorem GivesBack.cut {u : Bytes} {blanks : Nat} {evs evs' : List Event} (hcut : ¬ LineFits n line)
    (h : BlockReads text evs (List.replicate blanks [] ++ [u]))
    (h' : GivesBack text n 0 lines evs') :
    GivesBack text n blanks (line :: [] :: lines) (evs ++ evs') := by
  obtain ⟨back, hreads, hlen, -⟩ := h'
  have hshort : (List.replicate blanks [] ++ [u] ++ back).length < blanks +
      (line :: [] :: lines).length := by
    simp only [List.length_append, List.length_replicate, List.length_cons, List.length_nil]
    omega
  refine ⟨_, h.append hreads, hshort.le, ?_⟩
  constructor
  · intro heq
    rw [heq, List.length_append, List.length_replicate] at hshort
    exact absurd hshort (lt_irrefl _)
  · intro hfit
    exact absurd (hfit line List.mem_cons_self) hcut

theorem GivesBack.blank {blanks : Nat} {evs : List Event} (hn : n < HM_LINE_CAP)
    (h : GivesBack text n (blanks + 1) lines evs) : GivesBack text n blanks ([] :: lines) evs := by
  obtain ⟨back, hreads, hlen, hiff⟩ := h
  refine ⟨back, hreads, ?_, ?_⟩
  · rw [List.length_cons]
    omega
  · rw [List.replicate_succ', List.append_assoc, List.singleton_append] at hiff
    rw [List.forall_mem_cons, hiff]
    exact ⟨fun hfit => ⟨lineFits_nil hn, hfit⟩, fun hfit => hfit.2⟩

theorem printed_blank (n : Nat) (lines : List Bytes) (rest : Bytes) :
    printed n ([] :: lines) ++ rest = LF :: (printed n lines ++ rest) := by
  rw [printed_cons, printedLine_blank]
  rfl

theorem notMem_spaces (n : Nat) : LF ∉ List.replicate n SPACE := fun hm =>
  absurd (List.eq_of_mem_replicate hm) (by decide)

theorem rawLines_spaced (n : Nat) {u : Bytes} (hu : LF ∉ u) (tail : Bytes) :
    rawLines (List.replicate n SPACE ++ u ++ LF :: tail) =
      (List.replicate n SPACE ++ u ++ [LF]) :: rawLines tail :=
  rawLines_line (fun hmem => (List.mem_append.mp hmem).elim (notMem_spaces n) hu) tail

def further (stack : List Container) (tail : Bytes) (off m : Nat) (b : BlockScalar)
    (done : Bytes) : Parser :=
  inBlock stack (rawLines tail) (off + done.length) (m + done.count LF) (behind b)

theorem further_append (stack : List Container) (tail : Bytes) (off m : Nat) (b : BlockScalar)
    (done done' : Bytes) : further stack tail (off + done.length) (m + done.count LF) b done' =
      further stack tail off m b (done ++ done') := by
  simp only [further, List.length_append, List.count_append, Nat.add_assoc]

theorem count_spaced (n : Nat) {u : Bytes} (hu : LF ∉ u) :
    (List.replicate n SPACE ++ u ++ [LF]).count LF = 1 := by
  rw [List.count_append, List.count_eq_zero_of_not_mem
    fun hmem => (List.mem_append.mp hmem).elim (notMem_spaces n) hu]
  rfl

theorem spaced_passes {q : Parser} {C : Prop} {P : List Event → Prop} (hvis : Visible u)
    (hlf : LF ∉ u) (hcr : CR ∉ u)
    (hlen : u.length ≤ SIML_MAX_BLOCK_LINE_LEN) (hk : b.indent ≤ 510)
    (hb : b.emitBlanks = false) (hm : 0 < m)
    (htext : text.drop off = List.replicate (b.indent + 2) SPACE ++ u ++ LF :: tail)
    (h : Passes
      (further stack tail off m b (List.replicate (b.indent + 2) SPACE ++ u ++ [LF])) q C P) :
    Passes (inBlock stack (rawLines (List.replicate (b.indent + 2) SPACE ++ u ++ LF :: tail)) off m
      b) q C fun evs => ∃ front back, evs = front ++ back ∧
        BlockReads text front (List.replicate b.blankCount [] ++ [u]) ∧ P back := by
  have hcontent := @content_passes u text (LF :: tail) stack (rawLines tail) off m b
    (contentText hcr hvis hlen hk) hb hm htext
  rw [further, count_spaced _ hlf] at h
  rw [rawLines_spaced _ hlf]
  have hall : Passes _ _ (True ∧ C) fun evs => ∃ front back, evs = front ++ back ∧
      BlockReads text front (List.replicate b.blankCount [] ++ [u]) ∧ P back :=
    hcontent.trans h fun es es' hes hes' => ⟨es, es', rfl, hes, hes'⟩
  exact hall.congr (by simp) fun _ h => h

theorem visible_of_content (h : ContentText k (List.replicate (k + 2) SPACE ++ u)) : Visible u := by
  obtain ⟨c, hc, hspace, htab⟩ := h.visible
  have hcu : c ∈ u := (List.mem_append.mp hc).resolve_left fun hmem =>
    hspace (List.eq_of_mem_replicate hmem)
  have hlast := h.last
  rw [List.getLast?_append_of_ne_nil _ (List.ne_nil_of_mem hcu)] at hlast
  exact ⟨⟨c, hcu, hspace, htab⟩, hlast⟩

theorem Ready.skip (h : Ready b (line :: [] :: lines)) : Ready (behind b) lines := by
  obtain ⟨-, hready⟩ := h.next.blank
  exact ⟨hready.emit, hready.line, hready.last, .inl rfl, fun _ => rfl⟩

/-- A line that is cut off ends with the blank line behind it, as content or not at all. -/
theorem cut_passes {C : Prop} (hready : Ready b (line :: [] :: lines)) (hline : BlockLine line)
    (hn : b.indent + 2 = n) (hk : n ≤ 512) (hm : 0 < m) (hcut : ¬ LineFits n line)
    (htext : text.drop off = printed n (line :: [] :: lines) ++ rest)
    (hrec : Passes (further stack (printed n lines ++ rest) off m b
      (List.replicate n SPACE ++ kept n line ++ [LF]))
      (further stack rest off m b (printed n (line :: [] :: lines))) C (GivesBack text n 0 lines)) :
    Passes (inBlock stack (rawLines (printed n (line :: [] :: lines) ++ rest)) off m b)
      (further stack rest off m b (printed n (line :: [] :: lines))) (Visible (kept n line) ∧ C)
      (GivesBack text n b.blankCount (line :: [] :: lines)) := by
  have hcap : n ≤ HM_LINE_CAP := hk.trans (by decide)
  have hlen := length_kept hcap hcut
  have hlf : LF ∉ kept n line := fun hmem => hline.lf (List.mem_of_mem_take hmem)
  have hcr : CR ∉ kept n line := fun hmem => hline.cr (List.mem_of_mem_take hmem)
  have hprinted : printed n (line :: [] :: lines) ++ rest =
      List.replicate n SPACE ++ kept n line ++ LF :: (printed n lines ++ rest) := by
    rw [printed_cons, printedLine_cut hcap hcut hline.ne_nil, List.append_assoc, printed_blank]
  rw [hprinted] at htext ⊢
  subst hn
  by_cases hvis : Visible (kept (b.indent + 2) line)
  · have hgo := spaced_passes hvis hlf hcr
      (by simp only [HM_LINE_CAP, SIML_MAX_BLOCK_LINE_LEN] at *; omega)
      (by omega) hready.emit hm htext hrec
    refine hgo.congr (by simp [hvis]) fun evs hevs => ?_
    obtain ⟨front, back, rfl, hfront, hback⟩ := hevs
    exact hback.cut hcut hfront
  · refine .of_not (fun out => ?_) fun h => hvis h.1
    rw [rawLines_spaced _ hlf]
    refine not_accepts_content (by simp) hready.emit hm (le_indentOf ?_) fun h =>
      hvis (visible_of_content h)
    exact List.prefix_append ..

theorem body_passes (hready : Ready b lines) (hn : b.indent + 2 = n) (hk : n ≤ 512) (hm : 0 < m)
    (hrest : Runs n rest) (htext : text.drop off = printed n lines ++ rest) :
    Passes (inBlock stack (rawLines (printed n lines ++ rest)) off m b)
      (further stack rest off m b (printed n lines)) (Passable n lines)
      (GivesBack text n b.blankCount lines) := by
  have hcap : n < HM_LINE_CAP := lt_of_le_of_lt hk (by decide)
  induction hlen : lines.length using Nat.strong_induction_on generalizing lines b off m with
  | _ len ih =>
  cases lines with
  | nil =>
    have hbehind : behind b = b := by
      have hseen := hready.begun.resolve_right (by simp)
      have hzero := hready.blanks rfl
      unfold behind
      rw [← hseen, ← hzero]
    rw [further, hbehind, hready.blanks rfl]
    exact .refl ⟨[], blockReads_nil, Nat.le_refl _, by simp⟩ _
  | cons line lines =>
    have hb := hready.emit
    have hmore (u : Bytes) : 0 < m + (List.replicate n SPACE ++ u ++ [LF]).count LF :=
      Nat.add_pos_left hm _
    rcases hready.line line List.mem_cons_self with rfl | hline
    · -- a blank line is counted, and comes out before the next one
      obtain ⟨hseen, hready'⟩ := hready.blank
      have hdrop : text.drop (off + 1) = printed n lines ++ rest := by
        rw [← List.drop_drop, htext, printed_blank]
        rfl
      have hrec := ih lines.length (by simp [← hlen]) hready' hn (Nat.succ_pos m) hdrop rfl
      have hnext : simlNext (inBlock stack (rawLines (LF :: (printed n lines ++ rest))) off m b) =
          simlNext (inBlock stack (rawLines (printed n lines ++ rest)) (off + 1)
            (m + 1) b.oneBlank) := by
        rw [← List.nil_append (LF :: _), rawLines_line List.not_mem_nil]
        exact next_blank hb hseen hm
      rw [printed_blank, printed_cons, printedLine_blank, ← further_append]
      exact (Pull.Passes.of_next hnext hrec).congr
        (by simp [Passable, lineFits_nil hcap]) fun _ h => h.blank hcap
    · by_cases hfit : LineFits n line
      · have hprinted : printed n (line :: lines) = List.replicate n SPACE ++ line ++ [LF] ++
            printed n lines := by
          rw [printed_cons, printedLine_fits hfit hline.ne_nil]
        have hsplit : printed n (line :: lines) ++ rest =
            List.replicate n SPACE ++ line ++ LF :: (printed n lines ++ rest) := by
          rw [hprinted, List.append_assoc, List.append_assoc _ [LF]]
          rfl
        have hdrop : text.drop (off + (List.replicate n SPACE ++ line ++ [LF]).length) =
            printed n lines ++ rest := by
          rw [← List.drop_drop, htext, hprinted, List.append_assoc _ _ rest, List.drop_left]
        have hrec := ih lines.length (by simp [← hlen]) hready.next hn (hmore line) hdrop rfl
        rw [hsplit] at htext ⊢
        rw [hprinted, ← further_append]
        subst hn
        have hgo := spaced_passes ⟨hline.visible, hline.last⟩ hline.lf hline.cr hline.length_le
          (by omega) hb hm htext hrec
        refine hgo.congr (by simp [Passable, hfit]) fun evs hevs => ?_
        obtain ⟨front, back, rfl, hfront, hback⟩ := hevs
        exact hback.fits hfit hfront
      · by_cases hhead : lines.head? = some []
        · obtain ⟨lines, rfl⟩ : ∃ tail, lines = [] :: tail := List.head?_eq_some_iff.mp hhead
          have hprinted : printed n (line :: [] :: lines) =
              List.replicate n SPACE ++ kept n line ++ [LF] ++ printed n lines := by
            rw [printed_cons, printedLine_cut hcap.le hfit hline.ne_nil, printed_cons,
              printedLine_blank, List.append_assoc _ [LF]]
          have hdrop : text.drop (off + (List.replicate n SPACE ++ kept n line ++ [LF]).length) =
              printed n lines ++ rest := by
            rw [← List.drop_drop, htext, hprinted, List.append_assoc _ _ rest, List.drop_left]
          have hrec := ih lines.length (by rw [← hlen, List.length_cons, List.length_cons]; omega)
            hready.skip hn (hmore (kept n line)) hdrop rfl
          have hgo := @cut_passes n line text rest lines stack off m b
            (Passable n lines) hready hline hn hk hm hfit
            htext (by rw [hprinted, ← further_append _ _ _ _ _ _ (printed n lines)]; exact hrec)
          exact hgo.congr (by simp [Passable, hfit, lineFits_nil hcap]) fun _ h => h
        · refine .of_not (fun out => ?_) fun h => ?_
          · subst hn
            rw [printed_cons, List.append_assoc]
            exact not_accepts_cut hfit hk hline.ne_nil hline.lf
              (runs_printed hrest hcap hhead fun l hl => hready.line_lf l
                (List.mem_cons_of_mem _ hl)) hb hm
          · exact h.1.elim hfit fun hcut => hhead hcut.1

end Body

section Blocks
variable {wanted : List Bytes} {key text rest : Bytes} {lines : List Bytes} {stack : List Container}
  {k off n : Nat}

theorem BlockLines.ready (h : BlockLines lines) : Ready { key := key, indent := k } lines := by
  refine ⟨rfl, h.line, h.last, .inr ?_, fun hnil => absurd hnil h.ne_nil⟩
  obtain ⟨line, tail, rfl⟩ := List.exists_cons_of_ne_nil h.ne_nil
  exact ⟨line, rfl, fun hline => h.head (by rw [hline]; rfl)⟩

theorem NodeAt.runs (h : NodeAt k rest) {m : Nat} (hm : m ≤ 4) : Runs m rest := by
  obtain ⟨c, s, tail, rfl, hlf, -, -, -, hlong⟩ := h
  refine .inr ⟨List.replicate k SPACE ++ c :: s, LF :: tail, rfl, ?_, ?_⟩
  · exact fun hmem => (List.mem_append.mp hmem).elim (notMem_spaces k) hlf
  · simp only [List.length_append, List.length_replicate, List.length_cons]
    omega

theorem block_gives (hkey : Key key) (hk : k % 2 = 0) (hk' : k ≤ 510) (hlines : BlockLines lines)
    (hrest : Leaves k rest) (hruns : Runs (k + 2) rest)
    (htext : text.drop off = blockEntry k key (printed (k + 2) lines) ++ rest) :
    Passes (within (⟨.map, k⟩ :: stack) (rawLines
      (blockEntry k key (printed (k + 2) lines) ++ rest)) off n)
      (within (⟨.map, k⟩ :: stack) (rawLines rest)
        (off + (blockEntry k key (printed (k + 2) lines)).length)
        (n + (blockEntry k key (printed (k + 2) lines)).count LF)) (Passable (k + 2) lines)
      fun evs => ∃ inner, evs = .blockStart key (n + 1) :: (inner ++ [.blockEnd]) ∧
        GivesBack text (k + 2) 0 lines inner :=
  block_passes (b := behind { key := key, indent := k }) hkey hk
    (by omega) hrest rfl rfl rfl rfl htext
    fun _ _ hm hdrop => body_passes (BlockLines.ready hlines) rfl (by omega) hm hruns hdrop

theorem takes_block (hkey : Key key) (hwanted : key ∈ wanted) (hlines : BlockLines lines)
    (hrest : Leaves 0 rest)
    (hruns : Runs 2 rest) : Takes (blockEntry 0 key (printed 2 lines)) rest
    (Passable 2 lines) fun text evs =>
      ∃ back, Reads text wanted 1 1 [(key, .block back)] evs ∧
        (back = lines ↔ ∀ line ∈ lines, LineFits 2 line) := by
  intro text off n htext
  refine (block_gives hkey rfl (by omega) hlines hrest hruns htext).congr Iff.rfl fun evs hevs => ?_
  obtain ⟨inner, rfl, back, hreads, -, hback⟩ := hevs
  exact ⟨back, hreads.reads hwanted (n + 1), hback⟩

def blocks (files : List (Bytes × List Bytes)) : Bytes :=
  files.flatMap fun f => blockEntry 2 f.1 (printed 4 f.2)

theorem nodeAt_block (hkey : Key key) (body : Bytes) : NodeAt 2 (blockEntry 2 key body) := by
  have hpos := List.length_pos_iff.mpr hkey.ne_nil
  have hlong : 3 ≤ 2 + key.length + [PIPE].length := by
    simp only [List.length_singleton]
    omega
  exact nodeAt_entry hkey (by decide) (by decide) (List.forall_mem_singleton.mpr (by decide))
    (by decide) hlong body

theorem blocks_passes {files : List (Bytes × List Bytes)}
    (hfiles : ∀ f ∈ files, Key f.1 ∧ BlockLines f.2)
    (hrest : NodeAt 0 rest) (htext : text.drop off = blocks files ++ rest) :
    Passes (within [⟨.map, 2⟩, ⟨.map, 0⟩] (rawLines (blocks files ++ rest)) off n)
      (within [⟨.map, 2⟩, ⟨.map, 0⟩] (rawLines rest) (off + (blocks files).length)
        (n + (blocks files).count LF))
      (∀ f ∈ files, Passable 4 f.2) (Reads text wanted 2 2 []) := by
  induction files generalizing off n with
  | nil => exact (Pull.Passes.refl (reads_silent fun _ => rfl) _).congr (by simp) fun _ h => h
  | cons f files ih =>
    obtain ⟨⟨hkey, hlines⟩, hothers⟩ := List.forall_mem_cons.mp hfiles
    have hblocks : blocks (f :: files) = blockEntry 2 f.1 (printed 4 f.2) ++ blocks files := rfl
    have hbehind : ∃ j ≤ 2, NodeAt j (blocks files ++ rest) := by
      cases files with
      | nil => exact ⟨0, by omega, hrest⟩
      | cons f' files =>
        obtain ⟨⟨hkey', -⟩, -⟩ := List.forall_mem_cons.mp hothers
        have hnode := nodeAt_block hkey' (printed 4 f'.2 ++ blocks files ++ rest)
        rw [blockEntry, ← List.append_assoc, ← List.append_assoc] at hnode
        exact ⟨2, le_rfl, hnode⟩
    obtain ⟨j, hj, hnode⟩ := hbehind
    rw [hblocks, List.append_assoc] at htext ⊢
    have hdrop : text.drop (off + (blockEntry 2 f.1 (printed 4 f.2)).length) =
        blocks files ++ rest := by
      rw [← List.drop_drop, htext, List.drop_left]
    have hblock := @block_gives f.1 text (blocks files ++ rest) f.2 [⟨.map, 0⟩] 2 off n hkey rfl
      (by omega) hlines (.inr ⟨j, hj, hnode⟩) (NodeAt.runs hnode (by omega)) htext
    have hfirst : Passes _ _ (Passable 4 f.2) (Reads text wanted 2 2 []) :=
      hblock.congr Iff.rfl fun evs hevs => by
        obtain ⟨inner, rfl, back, hreads, -⟩ := hevs
        exact hreads.reads_inner (by omega) f.1 (n + 1)
    rw [List.length_append, List.count_append, ← Nat.add_assoc, ← Nat.add_assoc]
    exact (hfirst.reads (ih hothers hdrop)).congr
      (List.forall_mem_cons (p := fun f : Bytes × List Bytes => Passable 4 f.2)).symm fun _ h => h

theorem says_blocks {files : List (Bytes × List Bytes)} (hkey : Key key) (hne : files ≠ [])
    (hfiles : ∀ f ∈ files, Key f.1 ∧ BlockLines f.2) (hrest : NodeAt 0 rest) :
    Says wanted (headerText 0 key ++ [LF] ++ blocks files) rest
      (∀ f ∈ files, Passable 4 f.2) [] := by
  refine says_header hkey fun text off n htext => ?_
  obtain ⟨f, files, rfl⟩ := List.exists_cons_of_ne_nil hne
  obtain ⟨⟨hkey', -⟩, -⟩ := List.forall_mem_cons.mp hfiles
  obtain ⟨c, s, tail, hraws, hnode, hc, -⟩ :=
    (nodeAt_block hkey' (printed 4 f.2 ++ blocks files ++ rest)).rawLines
  have hblocks : blocks (f :: files) ++ rest = blockEntry 2 f.1
      (printed 4 f.2 ++ blocks files ++ rest) := by
    simp only [blocks, List.flatMap_cons, blockEntry, List.append_assoc]
  rw [← hblocks] at hraws
  exact nested_passes hraws hnode (if_neg hc).symm hrest (blocks_passes hfiles hrest htext)

end Blocks

end Hacman.PlanSiml
