import Hacman.Plan

/-!
# Printed blocks against written blocks

A printed line is the written one behind the plan's indentation, cut off at the
capacity of the formatter. A line that is cut off loses its line feed, so the
printed block has fewer lines than the written one, and no removal of indentation
can bring them back.
-/

namespace Hacman.PlanBlocks
open Octets Util Config Plan

section Message

theorem hmVformat_literal {cap : Nat} {fmt o : Bytes} (h : o.length + fmt.length ≤ cap)
    (hc : (37 : UInt8) ∉ fmt) : hmVformat cap fmt [] o = o ++ fmt := by
  have htext := hmVformat_text [] [] h hc
  rw [List.append_nil] at htext
  rw [htext, hmVformat]

theorem hmVformat_slice {cap : Nat} {o : Bytes} (line : Bytes) (h : o.length < cap) :
    hmVformat cap (ascii "%S\n") [.slice line] o = (o ++ line ++ [LF]).take cap := by
  have hstep : hmVformat cap (ascii "%S\n") [.slice line] o =
      if cap ≤ (o ++ line.take (cap - o.length)).length then o ++ line.take (cap - o.length)
      else o ++ line.take (cap - o.length) ++ [LF] := by
    change (if cap ≤ o.length then o else _) = _
    rw [if_neg (by omega)]
    rfl
  rw [hstep]
  by_cases hl : line.length < cap - o.length
  · rw [List.take_of_length_le (by omega), if_neg (by simp only [List.length_append]; omega),
      List.take_of_length_le (by simp only [List.length_append, List.length_singleton]; omega)]
  · rw [if_pos (by simp only [List.length_append, List.length_take]; omega), List.append_assoc,
      List.take_append, List.take_of_length_le (l := o) (by omega),
      List.take_append_of_le_length (by omega)]

theorem spacedMessage {cap : Nat} (n : Nat) (line : Bytes) (h : n < cap) :
    hmVformat cap (List.replicate n SPACE ++ ascii "%S\n") [.slice line] [] =
      (List.replicate n SPACE ++ line ++ [LF]).take cap := by
  have hspaces : (37 : UInt8) ∉ List.replicate n SPACE := by
    rw [List.mem_replicate]
    exact fun hm => absurd hm.2 (by decide)
  rw [hmVformat_text _ _ (by simpa using h.le) hspaces, List.nil_append,
    hmVformat_slice line (by simpa using h)]

def printedLine (n : Nat) (line : Bytes) : Bytes :=
  if line = [] then [LF] else (List.replicate n SPACE ++ line ++ [LF]).take HM_LINE_CAP

theorem installMessage (line : Bytes) : blockMessage "  %S\n" line = printedLine 2 line := by
  unfold blockMessage printedLine
  split_ifs
  · exact hmVformat_literal (by decide) (by decide)
  · exact spacedMessage 2 line (by decide)

theorem fileMessage (line : Bytes) : blockMessage "    %S\n" line = printedLine 4 line := by
  unfold blockMessage printedLine
  split_ifs
  · exact hmVformat_literal (by decide) (by decide)
  · exact spacedMessage 4 line (by decide)

theorem installBlock_eq (p : Project) :
    installBlock p = (installLines p).map (printedLine 2) :=
  List.map_congr_left fun line _ => installMessage line

theorem fileBlock_eq (file : EmbeddedFile) :
    fileBlock file = (fileLines file).map (printedLine 4) :=
  List.map_congr_left fun line _ => fileMessage line

end Message

section Fit
variable {n : Nat} {line : Bytes}

/-- The line, its indentation and its line feed fit into one message. -/
def LineFits (n : Nat) (line : Bytes) : Prop := line.length + n + 1 ≤ HM_LINE_CAP

theorem printedLine_fits (h : LineFits n line) (hne : line ≠ []) :
    printedLine n line = List.replicate n SPACE ++ line ++ [LF] := by
  rw [printedLine, if_neg hne, List.take_of_length_le]
  simp only [List.length_append, List.length_replicate, List.length_singleton]
  simp only [LineFits] at h
  omega

theorem count_printedLine_le (n : Nat) (h : LF ∉ line) : (printedLine n line).count LF ≤ 1 := by
  have hsp : LF ∉ List.replicate n SPACE := fun hm =>
    absurd (List.eq_of_mem_replicate hm) (by decide)
  unfold printedLine
  split_ifs
  · simp
  · refine (List.Sublist.count_le LF (List.take_sublist ..)).trans ?_
    simp [List.count_eq_zero_of_not_mem hsp, List.count_eq_zero_of_not_mem h]

theorem count_printedLine_cut (h : LF ∉ line) (hn : 0 < n ∧ n < HM_LINE_CAP)
    (hcut : ¬ LineFits n line) : (printedLine n line).count LF = 0 := by
  have hsp : LF ∉ List.replicate n SPACE := fun hm =>
    absurd (List.eq_of_mem_replicate hm) (by decide)
  simp only [LineFits, not_le] at hcut
  have hne : line ≠ [] := by
    rintro rfl
    simp only [List.length_nil] at hcut
    omega
  rw [printedLine, if_neg hne, List.take_append_of_le_length
    (by simp only [List.length_append, List.length_replicate]; omega)]
  refine List.count_eq_zero_of_not_mem fun hm => ?_
  rcases List.mem_append.mp (List.mem_of_mem_take hm) with h' | h'
  · exact hsp h'
  · exact h h'

end Fit

section Block
variable {n : Nat} {lines : List Bytes}

theorem count_written (h : ∀ line ∈ lines, LF ∉ line) :
    (written lines).count LF = lines.length := by
  induction lines with
  | nil => rfl
  | cons line lines ih =>
    obtain ⟨hl, hls⟩ := List.forall_mem_cons.mp h
    have hrec := ih hls
    simp only [written, List.map_cons, List.flatten_cons, List.count_append, List.length_cons,
      List.count_eq_zero_of_not_mem hl] at hrec ⊢
    rw [hrec]
    simp
    omega

theorem deindent_block (h : ∀ line ∈ lines, LF ∉ line) (hfit : ∀ line ∈ lines, LineFits n line) :
    deindent n (lines.map (printedLine n)).flatten = written lines := by
  induction lines with
  | nil => cases n <;> rfl
  | cons line lines ih =>
    obtain ⟨hl, hls⟩ := List.forall_mem_cons.mp h
    obtain ⟨hf, hfs⟩ := List.forall_mem_cons.mp hfit
    have hrec := ih hls hfs
    simp only [written, List.map_cons, List.flatten_cons] at hrec ⊢
    by_cases hne : line = []
    · subst hne
      rw [← hrec]
      rfl
    · rw [printedLine_fits hf hne, deindent_indented n _ hl, hrec]

theorem count_block_le (h : ∀ line ∈ lines, LF ∉ line) :
    ((lines.map (printedLine n)).flatten).count LF ≤ lines.length := by
  induction lines with
  | nil => simp
  | cons line lines ih =>
    obtain ⟨hl, hls⟩ := List.forall_mem_cons.mp h
    have hrec := ih hls
    have hline := count_printedLine_le n hl
    simp only [List.map_cons, List.flatten_cons, List.count_append, List.length_cons]
    omega

theorem count_block_lt (h : ∀ line ∈ lines, LF ∉ line) (hn : 0 < n ∧ n < HM_LINE_CAP)
    {line : Bytes} (hmem : line ∈ lines) (hcut : ¬ LineFits n line) :
    ((lines.map (printedLine n)).flatten).count LF < lines.length := by
  induction lines with
  | nil => simp at hmem
  | cons l lines ih =>
    obtain ⟨hl, hls⟩ := List.forall_mem_cons.mp h
    simp only [List.map_cons, List.flatten_cons, List.count_append, List.length_cons]
    rcases List.mem_cons.mp hmem with rfl | hmem
    · have hzero := count_printedLine_cut hl hn hcut
      have hle := count_block_le (n := n) hls
      omega
    · have hlt := ih hls hmem
      have hline := count_printedLine_le n hl
      omega

theorem deindent_block_iff (h : ∀ line ∈ lines, LF ∉ line) (hn : 0 < n ∧ n < HM_LINE_CAP) :
    deindent n (lines.map (printedLine n)).flatten = written lines ↔
      ∀ line ∈ lines, LineFits n line := by
  refine ⟨fun heq line hmem => ?_, deindent_block h⟩
  by_contra hcut
  have hlt := count_block_lt h hn hmem hcut
  have hcount := congrArg (List.count LF) heq
  rw [count_written h, deindent, count_deindentFrom] at hcount
  omega

end Block

section Shows
variable (p : Project) (c : Slot)

def interpreterLine : Bytes := ascii "#!" ++ HM_SHELL ++ [LF]

/-- The printed install block ends the plan, and without its indentation it is what
the script holds after the interpreter line. -/
def ShowsInstall : Prop :=
  ∃ head, planOutput p c = head ++ ascii "install: |\n" ++ (installBlock p).flatten ∧
    writeScript p = interpreterLine ++ deindent 2 (installBlock p).flatten

def ShowsFile (file : EmbeddedFile) : Prop :=
  ∃ head tail, planOutput p c =
      head ++ message "  %S: |\n" [.slice file.path] ++ (fileBlock file).flatten ++ tail ∧
    writeEmbeddedFile file = deindent 4 (fileBlock file).flatten

def Shows : Prop :=
  (p.kind = .url → p.install ≠ [] → ShowsInstall p c) ∧
    (p.kind = .command → ∀ file ∈ p.files, ShowsFile p c file)

theorem planOutput_install (hk : p.kind = .url) (hi : p.install ≠ []) :
    ∃ head, planOutput p c = head ++ ascii "install: |\n" ++ (installBlock p).flatten := by
  refine ⟨([message "name: %S\n" [.slice p.name]] ++ printSandbox p c ++ printKind p c ++
    printSchedule p ++ [message "cache-identity: %s\n" [.str c.identity],
      message "cache-file: %s\n" [.str c.path]] ++ printBin p ++
    [message "install-shell: %s -e <script>\n" [.str HM_SHELL]] ++ printEnv p).flatten, ?_⟩
  have hmsg : message "install: |\n" [] = ascii "install: |\n" :=
    hmVformat_literal (by decide) (by decide)
  rw [planOutput_eq, hmPlanPrint, if_pos hk, printInstall, if_neg hi]
  simp only [List.flatten_append, List.flatten_cons, List.flatten_nil, List.append_nil,
    List.append_assoc, hmsg]

theorem printFile_infix (hk : p.kind = .command) {file : EmbeddedFile} (hf : file ∈ p.files) :
    (message "  %S: |\n" [.slice file.path] :: fileBlock file) <:+: hmPlanPrint p c := by
  obtain ⟨before, after, hfiles⟩ := List.append_of_mem hf
  have hfile : (message "  %S: |\n" [.slice file.path] :: fileBlock file) <:+:
      p.files.flatMap fun f => message "  %S: |\n" [.slice f.path] :: fileBlock f := by
    rw [hfiles, List.flatMap_append, List.flatMap_cons, ← List.append_assoc]
    exact List.infix_append ..
  have hprint : (message "  %S: |\n" [.slice file.path] :: fileBlock file) <:+:
      printFiles p c := by
    rw [printFiles, if_neg (List.ne_nil_of_mem hf)]
    exact hfile.trans (List.suffix_append ..).isInfix
  have hkind : (message "  %S: |\n" [.slice file.path] :: fileBlock file) <:+:
      printKind p c := by
    simp only [printKind, hk]
    exact hprint.trans (List.suffix_append ..).isInfix
  rw [hmPlanPrint]
  simp only [List.append_assoc]
  rw [← List.append_assoc, ← List.append_assoc]
  exact hkind.trans (List.infix_append ..)

theorem planOutput_file (hk : p.kind = .command) {file : EmbeddedFile} (hf : file ∈ p.files) :
    ∃ head tail, planOutput p c =
      head ++ message "  %S: |\n" [.slice file.path] ++ (fileBlock file).flatten ++ tail := by
  obtain ⟨s, t, hst⟩ := printFile_infix p c hk hf
  refine ⟨s.flatten, t.flatten, ?_⟩
  rw [planOutput_eq, ← hst, List.flatten_append, List.flatten_append, List.flatten_cons,
    ← List.append_assoc]

theorem showsInstall_iff (hk : p.kind = .url) (hi : p.install ≠ []) :
    ShowsInstall p c ↔ ∀ line ∈ installLines p, LineFits 2 line := by
  have hlf : ∀ line ∈ installLines p, LF ∉ line := linesFrom_notMem _ _ _
  rw [← deindent_block_iff hlf (by decide), ← installBlock_eq]
  constructor
  · rintro ⟨-, -, h⟩
    exact (List.append_cancel_left h).symm
  · intro h
    obtain ⟨head, hhead⟩ := planOutput_install p c hk hi
    exact ⟨head, hhead, by rw [h]; rfl⟩

theorem showsFile_iff (hk : p.kind = .command) {file : EmbeddedFile} (hf : file ∈ p.files) :
    ShowsFile p c file ↔ ∀ line ∈ fileLines file, LineFits 4 line := by
  have hlf : ∀ line ∈ fileLines file, LF ∉ line := linesFrom_notMem _ _ _
  rw [← deindent_block_iff hlf (by decide), ← fileBlock_eq]
  constructor
  · rintro ⟨-, -, -, h⟩
    exact h.symm
  · intro h
    obtain ⟨head, tail, hout⟩ := planOutput_file p c hk hf
    exact ⟨head, tail, hout, h.symm⟩

/-- The plan shows exactly what runs if and only if every line of every printed block
leaves room for its indentation and its line feed. -/
theorem plan_shows_setup :
    Shows p c ↔
      (p.kind = .url → ∀ line ∈ installLines p, line.length ≤ 4093) ∧
        (p.kind = .command → ∀ file ∈ p.files, ∀ line ∈ fileLines file, line.length ≤ 4091) := by
  have hfit : ∀ (n m : Nat), m + n + 1 = HM_LINE_CAP → ∀ line, LineFits n line ↔
      line.length ≤ m := by
    intro n m hm line
    simp only [LineFits, ← hm]
    omega
  refine and_congr (forall_congr' fun hk => ?_) (forall_congr' fun hk => ?_)
  · by_cases hi : p.install = []
    · simp [hi, installLines, linesFrom]
    · simp only [ne_eq, hi, not_false_eq_true, forall_const, showsInstall_iff p c hk hi,
        hfit 2 4093 rfl]
  · refine forall₂_congr fun file hf => ?_
    simp only [showsFile_iff p c hk hf, hfit 4 4091 rfl]

end Shows

section Cut

def longLine : Bytes := List.replicate 4094 97

def longInput : Input where
  buf := ascii "url: u\ninstall: |\n" ++ (ascii "  " ++ longLine) ++ [LF]
  origin := ascii "long.siml"

def longEvents : List Event :=
  [.streamStart, .documentStart 1, .mappingStart 1, .scalar (ascii "url") (ascii "u") 1,
   .blockStart (ascii "install") 2, .blockLine ⟨20, 4094⟩, .blockEnd, .mappingEnd 3, .documentEnd,
   .streamEnd]

theorem region_longInput : region longInput.buf 18 4114 = ascii "  " ++ longLine := by
  have hhead : (ascii "url: u\ninstall: |\n").length = 18 := by decide
  have hblock : (ascii "  " ++ longLine).length = 4096 := by
    simp only [List.length_append, longLine, List.length_replicate]
    rfl
  rw [region, longInput, List.append_assoc, List.drop_left' hhead, List.take_left' hblock]

theorem parse_longEvents : ∃ p, hmConfigParse longInput longEvents = .ok p ∧ p.kind = .url ∧
    p.install = region longInput.buf 18 4114 ∧ p.installIndent = 2 :=
  ⟨_, rfl, rfl, rfl, rfl⟩

theorem head_mem_lines {indent : Nat} {cursor : Bytes} (hne : cursor ≠ []) (hlf : LF ∉ cursor) :
    cursor.drop (min indent (cursor.takeWhile (· = SPACE)).length) ∈
      linesFrom indent cursor.length cursor := by
  obtain ⟨n, hn⟩ : ∃ n, cursor.length = n + 1 :=
    Nat.exists_eq_succ_of_ne_zero (by simpa using hne)
  rw [hn, linesFrom, hmFileNextLine, if_neg hne, before_of_notMem hlf]
  exact List.mem_cons_self

theorem plan_cuts_long_line : ∃ (x : Input) (evs : List Event) (p : Project),
    hmConfigParse x evs = .ok p ∧ ∀ c, ¬ Shows p c := by
  obtain ⟨p, hp, hk, hi, hindent⟩ := parse_longEvents
  rw [region_longInput] at hi
  have hlf : LF ∉ ascii "  " ++ longLine := by
    simp only [List.mem_append, longLine, List.mem_replicate, not_or, not_and]
    exact ⟨by decide, fun _ => by decide⟩
  have hne : p.install ≠ [] := by rw [hi]; simp [ascii]
  refine ⟨longInput, longEvents, p, hp, fun c hs => ?_⟩
  have hfit := (showsInstall_iff p c hk hne).mp (hs.1 hk hne)
  have hmem := @head_mem_lines 2 _ (hi ▸ hne) hlf
  have hwhile : ((ascii "  " ++ longLine).takeWhile (· = SPACE)).length = 2 := rfl
  rw [hwhile] at hmem
  have hlen := hfit longLine (by rw [installLines, hi, hindent]; exact hmem)
  simp only [LineFits, longLine, List.length_replicate, HM_LINE_CAP] at hlen
  omega

end Cut

end Hacman.PlanBlocks
