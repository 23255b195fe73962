import Hacman.SimlOrder

/-!
# The places of the reader

What is due in a state of the reader: its containers, the container that a header asks for, the
lines of a block and the frames of a flow sequence. The events that a state can still bring are
paid for by the bytes that it has not read.
-/

namespace Hacman.SimlOrder
open Octets Util Config Siml Levels

section Costs

/-- Events that a flow sequence can still bring, at most: one for each frame and two for each byte.
-/
def frameCost : List FlowFrame → Nat
  | [] => 0
  | f :: frames => 2 * (f.stop - f.pos) + 1 + frameCost frames

def lineCost (p : Parser) : Nat :=
  match p.line with
  | none => 0
  | some line => 2 * (line.text.length - p.inlineSequenceItem.getD 0) + 2

def modeCost (p : Parser) : Nat :=
  match p.mode with
  | .normal => lineCost p
  | .flow _ frames _ => frameCost frames
  | .block b => 1 + b.blankCount + lineCost p

def docCost : DocState → Nat
  | .idle => 4
  | .before | .between => 3
  | .inside => 0

def placeCost (p : Parser) : Nat :=
  p.stack.length + docCost p.docState + (if p.pendingContainerStart.isSome then 1 else 0) +
    (if p.pendingDocEnd then 4 else 0) + (if p.pendingStreamEnd then 0 else 4)

def laterCost (p : Parser) : Nat :=
  2 * p.input.flatten.length + placeCost p + (if p.pendingMap.isSome then 2 else 0)

/-- Events that can still come before the last one, at most. -/
def budget (p : Parser) : Nat := laterCost p + modeCost p

variable {p : Parser}

theorem budget_normal (h : p.mode = .normal) : budget p = laterCost p + lineCost p := by
  rw [budget, modeCost, h]

theorem budget_block {b : BlockScalar} (h : p.mode = .block b) :
    budget p = laterCost p + (1 + b.blankCount + lineCost p) := by
  rw [budget, modeCost, h]

theorem budget_flow {text key : Bytes} {frames : List FlowFrame}
    (h : p.mode = .flow text frames key) : budget p = laterCost p + frameCost frames := by
  rw [budget, modeCost, h]

theorem lineCost_some {line : PhysLine} (h : p.line = some line) :
    lineCost p = 2 * (line.text.length - p.inlineSequenceItem.getD 0) + 2 := by
  rw [lineCost, h]

theorem lineCost_none (h : p.line = none) : lineCost p = 0 := by
  rw [lineCost, h]

theorem lineCost_le {line : PhysLine} (h : p.line = some line) :
    lineCost p ≤ 2 * line.text.length + 2 := by
  rw [lineCost_some h]
  omega

theorem closeAt_lt {depth i : Nat} {s : Bytes} (h : closeAt depth s = some i) : i < s.length := by
  induction s generalizing depth i with
  | nil => cases h
  | cons b s ih =>
    rw [closeAt] at h
    have hstep : ∀ {d : Nat}, (closeAt d s).map (· + 1) = some i → i < (b :: s).length := by
      intro d hd
      obtain ⟨j, hj, rfl⟩ := Option.map_eq_some_iff.mp hd
      exact Nat.succ_lt_succ (ih hj)
    split_ifs at h
    · exact hstep h
    · cases h
      exact Nat.succ_pos _
    · exact hstep h
    · exact hstep h

theorem pastComma_ge {text : Bytes} {stop pos pos' : Nat} (h : pastComma text stop pos = .ok pos') :
    pos ≤ pos' := by
  unfold pastComma at h
  split_ifs at h <;> cases h <;> omega

theorem flowItem_cost {text : Bytes} {f : FlowFrame} {outer frames' : List FlowFrame}
    {ev : FlowEvent} (hpos : f.pos < f.stop) (h : flowItem text f outer = .ok (ev, frames')) :
    frameCost frames' < frameCost (f :: outer) := by
  unfold flowItem at h
  dsimp only at h
  split_ifs at h with hitem
  split at h
  · cases h
  · rename_i pos hcomma
    cases h
    have hlen := List.length_pos_of_ne_nil hitem
    have hge := pastComma_ge hcomma
    simp only [frameCost]
    omega

theorem flowNested_cost {text : Bytes} {f : FlowFrame} {outer frames' : List FlowFrame}
    {ev : FlowEvent} (hpos : f.pos < f.stop) (h : flowNested text f outer = .ok (ev, frames')) :
    frameCost frames' < frameCost (f :: outer) := by
  unfold flowNested at h
  split at h
  · cases h
  · rename_i i hclose
    split at h
    · cases h
    · rename_i pos hcomma
      split_ifs at h
      cases h
      have hlt := closeAt_lt hclose
      have hge := pastComma_ge hcomma
      rw [List.length_drop, List.length_take] at hlt
      simp only [frameCost]
      omega

theorem flowStep_cost {text : Bytes} {frames frames' : List FlowFrame} {ev : FlowEvent}
    (ha : Announced frames)
    (h : flowStep text frames = .ok (ev, frames')) : frameCost frames' < frameCost frames := by
  cases frames with
  | nil => cases h
  | cons f outer =>
    have hf := (List.forall_mem_cons.mp ha).1
    simp only [flowStep, hf, Bool.not_true, Bool.false_eq_true, ↓reduceIte] at h
    split at h
    · cases h
      simp only [frameCost]
      omega
    · rename_i hpos
      have hpos := Nat.lt_of_not_le hpos
      split at h
      · cases h
      · split_ifs at h
        · exact flowNested_cost hpos h
        · exact flowItem_cost hpos h

end Costs

section Invariant

def dueOf (c : Container) : Due :=
  match c.type with
  | .map => .map
  | .seq => .seq

def opened (p : Parser) : List Due := p.stack.map dueOf ++ [.documentEnd]

def NodeText (text : Bytes) : Prop :=
  ¬ shebangMark <+: text.dropWhile (· = SPACE) ∧ ∀ indent,
    parseCommentLine text ≠ .ok (indent, true)

structure Again (p : Parser) (k : Nat) : Prop where
  pos : 0 < k
  line : ∃ line, p.line = some line ∧ NodeText (trimmed line.text)
  column : ∃ c stack, p.stack = c :: stack ∧ c.indent = k
  close : p.pendingClose = none

structure Outside (p : Parser) : Prop where
  state : p.docState = .before ∨ p.docState = .between
  mode : p.mode = .normal
  stack : p.stack = []
  map : p.pendingMap = none
  item : p.inlineSequenceItem = none
  docStart : p.pendingDocStart = false
  container : p.pendingContainerStart = none
  docEnd : p.pendingDocEnd = false

structure Inside (p : Parser) : Prop where
  state : p.docState = .inside
  stack : p.stack ≠ []
  docStart : p.pendingDocStart = false
  container : p.pendingContainerStart = none
  docEnd : p.pendingDocEnd = false
  streamEnd : p.pendingStreamEnd = false

def places (p : Parser) : DocState × List Container × Bool × Bool × Option ContainerType × Bool :=
  (p.docState, p.stack, p.pendingDocEnd, p.pendingDocStart, p.pendingContainerStart,
    p.pendingStreamEnd)

/-- In a document that is over; its containers are being closed. -/
structure Ending (p : Parser) : Prop where
  state : p.docState = .inside
  mode : p.mode = .normal
  map : p.pendingMap = none
  item : p.inlineSequenceItem = none
  docStart : p.pendingDocStart = false
  container : p.pendingContainerStart = none
  docEnd : p.pendingDocEnd = true
  close : p.stack ≠ [] → p.pendingClose = some 0

structure Root (p : Parser) : Prop where
  state : p.docState = .inside
  mode : p.mode = .normal
  map : p.pendingMap = none
  item : p.inlineSequenceItem = none
  docStart : p.pendingDocStart = false
  container : ∃ c, p.stack = [c] ∧ p.pendingContainerStart = some c.type
  docEnd : p.pendingDocEnd = false
  streamEnd : p.pendingStreamEnd = false
  close : p.pendingClose = none

/-- What is due in a state of the reader. -/
inductive Fits : List Due → Parser → Prop
  | outside {p : Parser} (h : Outside p) : Fits [] p
  | root {p : Parser} (h : Root p) : Fits [.container, .documentEnd] p
  | entries {p : Parser} (h : Inside p) (hmode : p.mode = .normal) (hmap : p.pendingMap = none)
      (hclose : ∀ t, p.pendingClose = some t → 0 < t)
      (hitem : ∀ k, p.inlineSequenceItem = some k → Again p k) :
      Fits (opened p) p
  | header {p : Parser} (h : Inside p) (hmode : p.mode = .normal)
    (hmap : p.pendingMap.isSome = true)
      (hclose : p.pendingClose = none) (hitem : p.inlineSequenceItem = none) :
      Fits (.container :: opened p) p
  | block {p : Parser} {b : BlockScalar} (h : Inside p) (hmode : p.mode = .block b)
    (hmap : p.pendingMap = none)
      (hclose : p.pendingClose = none) (hitem : p.inlineSequenceItem = none)
      (hblank : 0 < b.blankCount → b.seenContent = true) :
      Fits ((if b.seenContent then .lines else .block) :: opened p) p
  | flow {p : Parser} {text key : Bytes} {frames : List FlowFrame} (h : Inside p)
      (hmode : p.mode = .flow text frames key) (hmap : p.pendingMap = none)
      (hclose : p.pendingClose = none)
      (hitem : p.inlineSequenceItem = none) (hframes : Announced frames) (hne : frames ≠ []) :
      Fits (frames.map (fun _ => Due.seq) ++ opened p) p
  | ending {p : Parser} (h : Ending p) : Fits (opened p) p

/-- A step is an error, the end of a stream with nothing due, or an event in order that leaves
less than `n` to spend. -/
def Follows (due : List Due) (n : Nat) (s : Step) : Prop :=
  (∃ line msg, s.1 = .error line msg) ∨ (s.1 = .streamEnd ∧ due = []) ∨
    ∃ due', Move due s.1 due' ∧ Fits due' s.2 ∧ budget s.2 < n

variable {p q : Parser} {due : List Due} {n m : Nat}

theorem Inside.same (h : Inside p) (hq : places q = places p) : Inside q := by
  simp only [places, Prod.mk.injEq] at hq
  obtain ⟨hstate, hstack, hdocEnd, hdocStart, hcontainer, hstreamEnd⟩ := hq
  exact ⟨hstate.trans h.state, hstack ▸ h.stack, hdocStart.trans h.docStart,
    hcontainer.trans h.container, hdocEnd.trans h.docEnd, hstreamEnd.trans h.streamEnd⟩

theorem follows_error (p : Parser) (code : ErrorCode) : Follows due n (simlSetError p code) :=
  .inl ⟨_, _, rfl⟩

theorem follows_none (p : Parser) : Follows due n (returned (none, p)) := .inl ⟨_, _, rfl⟩

theorem follows_move {due' : List Due} {ev : Event} (h : Move due ev due') (hq : Fits due' q)
    (hn : budget q < n) : Follows due n (ev, q) := .inr (.inr ⟨due', h, hq, hn⟩)

theorem Follows.mono {s : Step} (h : Follows due n s) (hle : n ≤ m) : Follows due m s := by
  obtain herror | hend | ⟨due', hmove, hfits, hlt⟩ := h
  · exact .inl herror
  · exact .inr (.inl hend)
  · exact .inr (.inr ⟨due', hmove, hfits, Nat.lt_of_lt_of_le hlt hle⟩)

end Invariant

section Ends
variable {p q : Parser} {due : List Due}

def endEvent (p : Parser) (c : Container) : Event :=
  if c.type = .map then .mappingEnd p.lineNo else .sequenceEnd

theorem move_end (p : Parser) (c : Container) (due : List Due) :
    Move (dueOf c :: due) (endEvent p c) due := by
  obtain ⟨type, indent⟩ := c
  cases type with
  | map => exact .mapEnd _
  | seq => exact .seqEnd

theorem opened_cons {c : Container} {stack : List Container} (h : p.stack = c :: stack) :
    opened p = dueOf c :: opened { p with stack := stack } := by
  rw [opened, h, List.map_cons]
  rfl

theorem emitPendingEnd_nil (h : p.stack = []) :
    emitPendingEnd p = emitPendingEnd.emitDocEnd { p with pendingClose := none } := by
  unfold emitPendingEnd
  rw [h]
  split
  · rename_i hstack
    cases hstack
  · rfl

theorem emitPendingEnd_close {target : Nat} {c : Container} {stack : List Container}
    (h : p.pendingClose = some target)
    (hs : p.stack = c :: stack) (hlt : target < p.stack.length) :
    emitPendingEnd p = (some (endEvent p c), { p with stack := stack }) := by
  unfold emitPendingEnd
  rw [h, hs] at *
  simp only [if_pos hlt]
  rfl

theorem emitPendingEnd_stop {target : Nat} (h : p.pendingClose = some target)
    (hlt : ¬ target < p.stack.length) :
    emitPendingEnd p = emitPendingEnd.emitDocEnd { p with pendingClose := none } := by
  unfold emitPendingEnd
  split
  · rename_i heq hs
    rw [h] at heq
    cases heq
    rw [if_neg hlt]
  · rfl

theorem emitPendingEnd_none (h : p.pendingClose = none) :
    emitPendingEnd p = emitPendingEnd.emitDocEnd { p with pendingClose := none } := by
  unfold emitPendingEnd
  rw [h]

theorem budget_pop {c : Container} {stack : List Container} (hs : p.stack = c :: stack)
    (hmode : p.mode = .normal) : budget { p with stack := stack } < budget p := by
  rw [budget_normal hmode, @budget_normal { p with stack := stack } hmode]
  simp only [laterCost, placeCost, hs, List.length_cons]
  have hline : lineCost { p with stack := stack } = lineCost p := rfl
  omega

theorem Ending.follows (h : Ending p) :
    Follows (opened p) (budget p) (returned (emitPendingEnd p)) := by
  cases hs : p.stack with
  | nil =>
    have hopen : opened p = [.documentEnd] := by rw [opened, hs, List.map_nil, List.nil_append]
    rw [hopen, emitPendingEnd_nil hs, emitPendingEnd.emitDocEnd, if_pos h.docEnd]
    have hafter : ∀ {state : DocState}, state = .before ∨ state = .between →
        Follows [.documentEnd] (budget p) (returned (some .documentEnd,
          { p with pendingClose := none, pendingDocEnd := false, docState := state })) := by
      intro state hstate
      refine follows_move .documentEnd
        (.outside ⟨hstate, h.mode, hs, h.map, h.item, h.docStart, h.container, rfl⟩) ?_
      have hcost : docCost state = 3 := by rcases hstate with rfl | rfl <;> rfl
      have hinside : docCost p.docState = 0 := by rw [h.state, docCost]
      have hline :
          lineCost { p with pendingClose := none, pendingDocEnd := false, docState := state } =
        lineCost p := rfl
      rw [budget_normal h.mode,
        @budget_normal { p with pendingClose := none, pendingDocEnd := false, docState := state }
          h.mode]
      simp only [laterCost, placeCost, h.docEnd, hcost, hinside, hline, ↓reduceIte,
        Bool.false_eq_true]
      omega
    refine hafter ?_
    dsimp only
    split_ifs
    · exact .inl rfl
    · exact .inr rfl
  | cons c stack =>
    have hclose := h.close (by rw [hs]; exact List.cons_ne_nil _ _)
    rw [opened_cons hs, emitPendingEnd_close hclose hs (by rw [hs]; exact Nat.succ_pos _)]
    exact follows_move (move_end p c _)
      (.ending ⟨h.state, h.mode, h.map, h.item, h.docStart, h.container, h.docEnd, fun _ => hclose⟩)
        (budget_pop hs h.mode)

theorem Inside.emitPendingEnd (h : Inside p) (hmode : p.mode = .normal) (hmap : p.pendingMap = none)
    (hclose : ∀ t, p.pendingClose = some t → 0 < t)
    (hitem : ∀ k, p.inlineSequenceItem = some k → Again p k) :
    (∃ ev q, Siml.emitPendingEnd p = (some ev, q) ∧ ∃ due',
      Move (opened p) ev due' ∧ Fits due' q ∧ budget q < budget p) ∨
      Siml.emitPendingEnd p = (none, { p with pendingClose := none }) := by
  have hdone : emitPendingEnd.emitDocEnd { p with pendingClose := none } =
      (none, { p with pendingClose := none }) := by
    rw [emitPendingEnd.emitDocEnd, if_neg (by simp [h.docEnd]), if_neg (by simp [h.streamEnd])]
  cases hc : p.pendingClose with
  | none => exact .inr (by rw [emitPendingEnd_none hc, hdone])
  | some target =>
    by_cases hlt : target < p.stack.length
    · obtain ⟨c, stack, hs⟩ := List.exists_cons_of_ne_nil h.stack
      have hstack : stack ≠ [] := by
        rintro rfl
        have hpos := hclose target hc
        rw [hs, List.length_singleton] at hlt
        omega
      have hnone : ∀ k, p.inlineSequenceItem = some k → Again { p with stack := stack } k := by
        intro k hk
        have hno := (hitem k hk).close
        rw [hc] at hno
        cases hno
      refine .inl ⟨endEvent p c, { p with stack := stack }, emitPendingEnd_close hc hs hlt, ?_⟩
      rw [opened_cons hs]
      exact ⟨_, move_end p c _, .entries ⟨h.state, hstack, h.docStart, h.container, h.docEnd,
        h.streamEnd⟩ hmode hmap hclose hnone, budget_pop hs hmode⟩
    · exact .inr (by rw [emitPendingEnd_stop hc hlt, hdone])

theorem Inside.closeTo (h : Inside p) (hmode : p.mode = .normal) (hmap : p.pendingMap = none)
    (hitem : p.inlineSequenceItem = none) {target : Nat} (htarget : 0 < target) :
    Follows (opened p) (budget p) (closeTo p target) := by
  have hq : Inside { p with pendingClose := some target } := h.same rfl
  have hpos : ∀ t, some target = some t → 0 < t := fun t ht => Option.some.inj ht ▸ htarget
  have hno : ∀ k, p.inlineSequenceItem = some k →
      Again { p with pendingClose := some target } k := by
    intro k hk
    rw [hitem] at hk
    cases hk
  rcases hq.emitPendingEnd hmode hmap hpos hno with ⟨ev, q, he, due', hmove, hfits, hlt⟩ | he
  · rw [Siml.closeTo, he]
    exact follows_move hmove hfits hlt
  · rw [Siml.closeTo, he]
    exact follows_none _

end Ends

section Values
variable {p : Parser} {key value text : Bytes} {frames : List FlowFrame} {n : Nat}

structure Reading (p : Parser) : Prop extends Inside p where
  mode : p.mode = .normal
  map : p.pendingMap = none
  close : p.pendingClose = none
  item : p.inlineSequenceItem = none

def Keyed (p : Parser) (key : Bytes) : Prop := ∀ c ∈ p.stack.head?, c.type = .seq → key = []

theorem Reading.dropLine (h : Reading p) : Reading { p with line := none } :=
  ⟨h.toInside.same rfl, h.mode, h.map, h.close, h.item⟩

theorem Reading.fits (h : Reading p) : Fits (opened p) p :=
  .entries h.toInside h.mode h.map (fun t ht => by rw [h.close] at ht; cases ht)
    fun k hk => by rw [h.item] at hk; cases hk

theorem budget_dropLine (h : p.mode = .normal) : budget { p with line := none } = laterCost p := by
  rw [@budget_normal { p with line := none } h, lineCost_none rfl]
  rfl

theorem Reading.move (h : Reading p) (hkey : Keyed p key) {ev : Event} {due : List Due}
    (hmap : ∀ σ, Move (.map :: σ) ev (due ++ .map :: σ))
    (hseq : key = [] → ∀ σ, Move (.seq :: σ) ev (due ++ .seq :: σ)) :
    Move (opened p) ev (due ++ opened p) := by
  obtain ⟨c, stack, hs⟩ := List.exists_cons_of_ne_nil h.stack
  rw [opened_cons hs]
  cases htype : c.type with
  | map =>
    rw [dueOf, htype]
    exact hmap _
  | seq =>
    rw [dueOf, htype]
    exact hseq (hkey c (by rw [hs]; rfl) htype) _

theorem nextFlow_follows (h : Inside p) (hmode : p.mode = .flow text frames key)
    (hmap : p.pendingMap = none)
    (hclose : p.pendingClose = none) (hitem : p.inlineSequenceItem = none)
    (hframes : Announced frames)
    (hne : frames ≠ []) :
    Follows (frames.map (fun _ => Due.seq) ++ opened p) (budget p)
      (nextFlow p text frames key) := by
  unfold nextFlow
  cases hs : flowStep text frames with
  | error code => exact follows_error p code
  | ok r =>
    obtain ⟨ev, frames'⟩ := r
    obtain ⟨hframes', hmoves⟩ := flowStep_announced hframes hs
    have hcost := flowStep_cost hframes hs
    rw [budget_flow hmode]
    obtain ⟨f, outer, rfl⟩ := List.exists_cons_of_ne_nil hne
    -- Behind the last frame the line is done.
    obtain ⟨q, hq⟩ : ∃ q, q = if frames' = [] then { p with mode := .normal, line := none }
      else { p with mode := .flow text frames' key } := ⟨_, rfl⟩
    have hfits : Fits (frames'.map (fun _ => Due.seq) ++ opened p) q ∧
        budget q ≤ laterCost p + frameCost frames' := by
      by_cases hend : frames' = []
      · subst hend
        rw [if_pos rfl] at hq
        subst hq
        exact ⟨@Reading.fits { p with mode := .normal, line := none }
          ⟨h.same rfl, rfl, hmap, hclose, hitem⟩, le_rfl⟩
      · rw [if_neg hend] at hq
        subst hq
        exact ⟨@Fits.flow { p with mode := .flow text frames' key } _ _ _
          (h.same rfl) rfl hmap hclose hitem hframes' hend,
          le_rfl⟩
    obtain ⟨hfits, hle⟩ := hfits
    have hlt : budget q < laterCost p + frameCost (f :: outer) :=
      Nat.lt_of_le_of_lt hle (Nat.add_lt_add_left hcost _)
    dsimp only
    rw [← hq]
    cases ev with
    | «open» =>
      have hlen : frames'.length = outer.length + 1 + 1 := hmoves
      obtain ⟨g, g', rest, rfl⟩ : ∃ g g' rest, frames' = g :: g' :: rest := by
        match frames', hlen with
        | g :: g' :: rest, _ => exact ⟨g, g', rest, rfl⟩
      have hrest : rest.map (fun _ => Due.seq) = outer.map (fun _ => Due.seq) := by
        simp only [List.length_cons, Nat.add_right_cancel_iff] at hlen
        rw [List.map_const', List.map_const', hlen]
      rw [if_neg (by simp)]
      rw [List.map_cons, List.map_cons, hrest] at hfits
      exact follows_move (.seqItem _) hfits hlt
    | item v =>
      have hlen : frames'.length = outer.length + 1 := hmoves
      have hsame : frames'.map (fun _ => Due.seq) = (f :: outer).map (fun _ => Due.seq) := by
        rw [List.map_const', List.map_const', hlen, List.length_cons]
      rw [hsame] at hfits
      exact follows_move (.item v _) hfits hlt
    | close =>
      have hlen : frames'.length + 1 = outer.length + 1 := hmoves
      have hsame : frames'.map (fun _ => Due.seq) = outer.map (fun _ => Due.seq) := by
        rw [List.map_const', List.map_const', Nat.succ.inj hlen]
      rw [hsame] at hfits
      exact follows_move .seqEnd hfits hlt

theorem Reading.startFlow (h : Reading p) (hkey : Keyed p key)
    (hn : laterCost p + 2 * value.length + 2 ≤ n) :
    Follows (opened p) n (startFlow p key value) := by
  have hmove : Move (opened p) (.sequenceStart key p.lineNo) ([.seq] ++ opened p) :=
    h.move hkey (fun _ => .flowEntry _ _) (fun hnil _ => hnil ▸ .seqItem _)
  have hcost : budget { p with mode := .flow value [⟨value.length - 1, 1, true⟩] key } =
      laterCost p + (2 * (value.length - 1 - 1) + 1 + 0) := rfl
  have hlt : budget { p with mode := .flow value [⟨value.length - 1, 1, true⟩] key } < n := by omega
  exact follows_move hmove
    (@Fits.flow { p with mode := .flow value [⟨value.length - 1, 1, true⟩] key } _ _ _
      (h.toInside.same rfl) rfl h.map h.close h.item (announced_single value)
        (List.cons_ne_nil _ _)) hlt

theorem Reading.handleInlineValue (h : Reading p) (hkey : Keyed p key) (indent : Nat)
    (hn : laterCost p + 2 * value.length + 2 ≤ n) : Follows (opened p) n
    (handleInlineValue p key indent value) := by
  unfold Siml.handleInlineValue
  split
  · exact follows_error p _
  · split
    · exact follows_error p _
    · split_ifs
      · exact follows_error p _
      · have hmove : Move (opened p) (.blockStart key p.lineNo) ([.block] ++ opened p) :=
          h.move hkey (fun _ => .blockEntry _ _) (fun hnil _ => hnil ▸ .blockItem _)
        refine follows_move hmove (@Fits.block
          { p with mode := .block { key := key, indent := indent }, line := none } _
          (h.toInside.same rfl) rfl h.map h.close h.item fun hpos =>
            absurd hpos (Nat.lt_irrefl 0)) ?_
        have hcost :
            budget { p with mode := .block { key := key, indent := indent }, line := none } =
          laterCost p + 1 := rfl
        rw [hcost]
        omega
      · exact h.startFlow hkey hn
      · exact follows_error p _
      · have hmove (v : Bytes) : Move (opened p) (.scalar key v p.lineNo) ([] ++ opened p) :=
          h.move hkey (fun _ => .entry _ _ _) (fun hnil _ => hnil ▸ .item _ _)
        refine follows_move (hmove _) h.dropLine.fits ?_
        rw [budget_dropLine h.mode]
        omega

end Values

section Blocks
variable {p : Parser} {b : BlockScalar} {n : Nat}

def blockDue (b : BlockScalar) : Due := if b.seenContent then .lines else .block

/-- In the lines of a block, whatever mode is written down. -/
structure InBlock (p : Parser) (b : BlockScalar) : Prop extends Inside p where
  map : p.pendingMap = none
  close : p.pendingClose = none
  item : p.inlineSequenceItem = none
  blank : 0 < b.blankCount → b.seenContent = true

theorem InBlock.fits (h : InBlock p b) (hmode : p.mode = .block b) :
    Fits (blockDue b :: opened p) p :=
  .block h.toInside hmode h.map h.close h.item h.blank

theorem InBlock.emitBlank (h : InBlock p b) (hpos : 0 < b.blankCount)
    (hn : laterCost p + (1 + b.blankCount + lineCost p) ≤ n) :
    Follows (blockDue b :: opened p) n (emitBlank p b) := by
  have hseen := h.blank hpos
  rw [blockDue, if_pos hseen]
  let b' : BlockScalar :=
    { b with blankCount := b.blankCount - 1, emitBlanks := b.blankCount - 1 ≠ 0 }
  have hfits := @InBlock.fits { p with mode := .block b' } b'
    ⟨h.toInside.same rfl, h.map, h.close, h.item, fun _ => hseen⟩ rfl
  rw [blockDue, if_pos (show b'.seenContent = true from hseen)] at hfits
  refine follows_move (.line _) hfits ?_
  have hcost : budget { p with mode := .block b' } = laterCost p +
    (1 + (b.blankCount - 1) + lineCost p) := rfl
  rw [hcost]
  omega

theorem InBlock.leaveBlock (h : InBlock p b)
    (hn : laterCost p + (1 + b.blankCount + lineCost p) ≤ n) :
    Follows (blockDue b :: opened p) n (leaveBlock p b) := by
  unfold Siml.leaveBlock
  cases hseen : b.seenContent with
  | false => exact follows_error p _
  | true =>
    rw [if_neg (by decide)]
    split_ifs
    · exact follows_error p _
    · rw [blockDue, if_pos hseen]
      refine follows_move .blockEnd
        (@Reading.fits { p with mode := .normal } ⟨h.toInside.same rfl, rfl, h.map,
          h.close, h.item⟩) ?_
      have hcost : budget { p with mode := .normal } = laterCost p + lineCost p := rfl
      rw [hcost]
      omega

theorem indentOf_lt {text : Bytes} (h : ¬ (text.all fun c => c = SPACE || c = TAB) = true) :
    indentOf text < text.length := by
  rw [indentOf]
  refine Nat.lt_of_le_of_ne (List.takeWhile_prefix _).length_le fun heq => h ?_
  have hall : text.takeWhile (· = SPACE) = text := (List.takeWhile_prefix _).eq_of_length heq
  rw [List.all_eq_true]
  intro c hc
  rw [← hall] at hc
  have hspace := List.mem_takeWhile_imp hc
  simp only [decide_eq_true_eq] at hspace
  simp [hspace]

theorem InBlock.blockContent (h : InBlock p b) {line : PhysLine} (hline : p.line = some line)
    (hn : laterCost p + (1 + b.blankCount + lineCost p) ≤ n) :
    Follows (blockDue b :: opened p) n (blockContent p b line) := by
  unfold Siml.blockContent
  split
  · exact follows_error p _
  · rename_i hall
    split
    · exact follows_error p _
    · split
      · exact h.leaveBlock hn
      · rename_i hin
        split
        · exact follows_error p _
        · split
          · rename_i hpos
            exact @InBlock.emitBlank p { b with emitBlanks := true } _
              ⟨h.toInside, h.map, h.close, h.item, h.blank⟩ hpos hn
          · have hlt := indentOf_lt hall
            have hlen : line.text.length - (b.indent + 2) ≠ 0 := by omega
            have hfits :=
              @InBlock.fits { p with line := none, mode := .block { b with seenContent := true } } _
              ⟨h.toInside.same rfl, h.map, h.close, h.item, fun _ => rfl⟩ rfl
            have hcost :
                budget { p with line := none, mode := .block { b with seenContent := true } } =
                laterCost p + (1 + b.blankCount) := rfl
            have hpaid := lineCost_some hline
            refine follows_move ?_ hfits (by rw [hcost]; omega)
            unfold blockDue
            cases b.seenContent with
            | false => exact .firstLine hlen
            | true => exact .line _

theorem physLine_length {raw : Bytes} {off : Nat} {line : PhysLine}
    (h : physLine raw off = .ok line) : line.text.length + 1 ≤ raw.length := by
  unfold physLine at h
  dsimp only at h
  split at h
  · cases h
  · rename_i hlast
    have hne : raw ≠ [] := fun hnil => by rw [hnil] at hlast; exact hlast nofun
    have hpos := List.length_pos_of_ne_nil hne
    split at h
    · cases h
      simp only [List.length_dropLast]
      omega
    · cases h
      simp only [List.length_dropLast]
      omega

theorem laterCost_taken {raw : Bytes} {rest : List Bytes} (h : p.input = raw :: rest) :
    laterCost p = laterCost (p.taken raw rest) + 2 * raw.length := by
  have hplace : placeCost (p.taken raw rest) = placeCost p := rfl
  have hmap : (p.taken raw rest).pendingMap = p.pendingMap := rfl
  have hrest : (p.taken raw rest).input = rest := rfl
  simp only [laterCost, hplace, hmap, hrest, h, List.flatten_cons, List.length_append]
  omega

theorem InBlock.readBlock (h : InBlock p b) {input : List Bytes} (hinput : p.input = input)
    (hn : laterCost p + (1 + b.blankCount) ≤ n) : Follows (blockDue b :: opened p) n
    (readBlock p b input) := by
  induction input generalizing p b with
  | nil =>
    refine @InBlock.leaveBlock { p with input := [], line := none } b _
      ⟨h.toInside.same rfl, h.map, h.close, h.item, h.blank⟩ ?_
    have hlater : laterCost { p with input := [], line := none } = laterCost p := by
      simp only [laterCost, hinput]
      rfl
    have hline : lineCost { p with input := [], line := none } = 0 := rfl
    omega
  | cons raw rest ih =>
    have htaken := laterCost_taken hinput
    rw [Siml.readBlock]
    cases hphys : physLine raw p.off with
    | error code => exact follows_error _ _
    | ok line =>
      dsimp only
      have hraw := physLine_length hphys
      cases hcheck : checkLineCommon (p.taken raw rest).lineNo line with
      | error code => exact follows_error _ _
      | ok u =>
        dsimp only
        split
        · refine @InBlock.blockContent { p.taken raw rest with line := some line } b _
            ⟨h.toInside.same rfl, h.map, h.close, h.item, h.blank⟩ _ rfl ?_
          have hlater : laterCost { p.taken raw rest with line := some line } =
            laterCost (p.taken raw rest) := rfl
          have hcost := @lineCost_le { p.taken raw rest with line := some line } line rfl
          omega
        · cases hseen : b.seenContent with
          | false => exact follows_error _ _
          | true =>
            have hdue : blockDue b.oneBlank = blockDue b := rfl
            rw [if_neg (by decide), ← hdue]
            refine @ih { p.taken raw rest with line := none, mode := .block b.oneBlank } b.oneBlank
              ⟨h.toInside.same rfl, h.map, h.close, h.item, fun _ => hseen⟩ rfl ?_
            have hlater : laterCost
                { p.taken raw rest with line := none, mode := .block b.oneBlank } =
                laterCost (p.taken raw rest) := rfl
            have hblank : b.oneBlank.blankCount = b.blankCount + 1 := rfl
            omega

theorem InBlock.nextBlock (h : InBlock p b) (hmode : p.mode = .block b) :
    Follows (blockDue b :: opened p) (budget p) (nextBlock p b) := by
  have hn := (budget_block hmode).ge
  unfold Siml.nextBlock
  split
  · rename_i hblank
    rw [Bool.and_eq_true, decide_eq_true_eq] at hblank
    exact h.emitBlank hblank.2 hn
  · split
    · exact h.readBlock rfl (by omega)
    · rename_i line hline
      have hcost := lineCost_some hline
      split
      · exact follows_error _ _
      · split
        · exact h.blockContent hline hn
        · cases hseen : b.seenContent with
          | false => exact follows_error _ _
          | true =>
            have hdue : blockDue b.oneBlank = blockDue b := rfl
            rw [if_neg (by decide), ← hdue]
            refine @InBlock.readBlock { p with line := none, mode := .block b.oneBlank } b.oneBlank
              _ ⟨h.toInside.same rfl, h.map, h.close, h.item, fun _ => hseen⟩ p.input rfl ?_
            have hlater : laterCost { p with line := none, mode := .block b.oneBlank } =
              laterCost p := rfl
            have hblank : b.oneBlank.blankCount = b.blankCount + 1 := rfl
            omega

end Blocks

end Hacman.SimlOrder
