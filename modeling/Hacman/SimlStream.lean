import Hacman.SimlPlaces

/-!
# Streams of events

Each line keeps the order of the events and pays for its own. So on any bytes the reader comes to
an end, and what it told is the documents of a stream or the beginning of such a stream.
-/

namespace Hacman.SimlOrder
open Octets Util Config Siml Levels

section Lines
variable {p q : Parser} {due : List Due} {n : Nat}

/-- The container of a header has not begun. -/
structure Header (p : Parser) : Prop extends Inside p where
  mode : p.mode = .normal
  map : p.pendingMap.isSome = true
  close : p.pendingClose = none
  item : p.inlineSequenceItem = none

inductive Ready : List Due → Parser → Prop
  | outside {p : Parser} (h : Outside p) (hend : p.pendingStreamEnd = false) : Ready [] p
  | entries {p : Parser} (h : Inside p) (hmode : p.mode = .normal) (hmap : p.pendingMap = none)
      (hitem : ∀ k, p.inlineSequenceItem = some k → Again p k) : Ready (opened p) p
  | header {p : Parser} (h : Header p) : Ready (.container :: opened p) p

theorem Ready.mode (h : Ready due p) : p.mode = .normal := by
  cases h with
  | outside h _ => exact h.mode
  | entries _ hmode _ _ => exact hmode
  | header h => exact h.mode

theorem Ready.again (h : Ready due p) {k : Nat} (hk : p.inlineSequenceItem = some k) :
    Again p k := by
  cases h with
  | outside h _ =>
    rw [h.item] at hk
    cases hk
  | entries _ _ _ hitem => exact hitem k hk
  | header h =>
    rw [h.item] at hk
    cases hk

theorem Ready.setLine (h : Ready due p) (hclose : p.pendingClose = none)
    (hitem : p.inlineSequenceItem = none)
    (hq : places q = places p) (hmode : q.mode = p.mode) (hmap : q.pendingMap = p.pendingMap)
    (hclose' : q.pendingClose = p.pendingClose)
    (hitem' : q.inlineSequenceItem = p.inlineSequenceItem) :
    Ready due q ∧ Fits due q := by
  have hstack : q.stack = p.stack := congrArg (·.2.1) hq
  have hopened : opened p = opened q := by rw [opened, opened, hstack]
  have hnone := hitem'.trans hitem
  have hno : ∀ k, q.inlineSequenceItem = some k → Again q k := fun k hk => by
    rw [hnone] at hk; cases hk
  have hopen : ∀ t, q.pendingClose = some t → 0 < t := fun t ht => by
    rw [hclose', hclose] at ht; cases ht
  cases h with
  | outside h hend =>
    simp only [places, Prod.mk.injEq] at hq
    obtain ⟨hstate, -, hdocEnd, hdocStart, hcontainer, hstreamEnd⟩ := hq
    have hout : Outside q := ⟨hstate ▸ h.state, hmode.trans h.mode, hstack.trans h.stack,
      hmap.trans h.map, hnone,
      hdocStart.trans h.docStart, hcontainer.trans h.container, hdocEnd.trans h.docEnd⟩
    exact ⟨.outside hout (hstreamEnd.trans hend), .outside hout⟩
  | entries h hmode₀ hmap₀ _ =>
    rw [hopened]
    exact ⟨.entries (h.same hq) (hmode.trans hmode₀) (hmap.trans hmap₀) hno,
      .entries (h.same hq) (hmode.trans hmode₀) (hmap.trans hmap₀) hopen hno⟩
  | header h =>
    rw [hopened]
    have hhead : Header q := ⟨h.toInside.same hq, hmode.trans h.mode, hmap ▸ h.map,
      hclose'.trans h.close, hnone⟩
    exact ⟨.header hhead, .header hhead.toInside hhead.mode hhead.map hhead.close hhead.item⟩

theorem budget_line {line : PhysLine} (hmode : p.mode = .normal) (hline : p.line = some line)
    (hitem : p.inlineSequenceItem = none) : budget p =
    laterCost p + (2 * line.text.length + 2) := by
  rw [budget_normal hmode, lineCost_some hline, hitem]
  rfl

theorem Ready.trivia (h : Ready due p) (hclose : p.pendingClose = none)
    (hitem : p.inlineSequenceItem = none)
    {line : PhysLine} (hline : p.line = some line) {ev : Event} (hev : isTrivia ev = true) :
    Follows due (budget p) (ev, { p with line := none }) := by
  refine follows_move (.trivia hev) (@Ready.setLine p
    { p with line := none } _ h hclose hitem rfl rfl rfl rfl rfl).2 ?_
  rw [budget_dropLine h.mode, budget_line h.mode hline hitem]
  omega

theorem depthAt_pos {indent target : Nat} {stack : List Container}
    (h : depthAt indent stack = some target) : 0 < target := by
  induction stack with
  | nil => cases h
  | cons c stack ih =>
    rw [depthAt] at h
    split_ifs at h
    · cases h
      exact Nat.succ_pos _
    · exact ih h

theorem Ready.commentLine (h : Ready due p) (hclose : p.pendingClose = none)
    (hitem : p.inlineSequenceItem = none)
    {line : PhysLine} (hline : p.line = some line) (indent : Nat) (trailing : Bool) :
    Follows due (budget p) (commentLine p indent trailing) := by
  unfold Siml.commentLine
  split
  · exact follows_error p _
  · split
    · exact follows_error p _
    · rename_i target htarget
      split
      · rename_i hpos
        unfold commentCheckIndent at htarget
        cases h with
        | outside h _ =>
          rw [h.map, h.stack] at htarget
          dsimp only at htarget
          split_ifs at htarget
          cases htarget
          exact absurd hpos (Nat.lt_irrefl 0)
        | entries h hmode hmap _ => exact h.closeTo hmode hmap hitem hpos
        | header h =>
          obtain ⟨expected, hmap⟩ := Option.isSome_iff_exists.mp h.map
          rw [hmap] at htarget
          dsimp only at htarget
          split_ifs at htarget
          cases htarget
          exact absurd hpos (Nat.lt_irrefl 0)
      · exact h.trivia hclose hitem hline rfl

theorem Ready.shebangLine (h : Ready due p) (hclose : p.pendingClose = none)
    (hitem : p.inlineSequenceItem = none)
    {line : PhysLine} (hline : p.line = some line) (text : Bytes) (trailing : Bool) :
    Follows due (budget p) (shebangLine p text trailing) := by
  unfold Siml.shebangLine
  split_ifs
  · exact follows_error p _
  · exact follows_error p _
  · exact follows_error p _
  · exact follows_error p _
  · exact h.trivia hclose hitem hline rfl

theorem budget_separator {line : PhysLine} (hmode : p.mode = .normal) (hline : p.line = some line)
    (hitem : p.inlineSequenceItem = none) (hdocEnd : p.pendingDocEnd = false)
    (hlen : 3 ≤ line.text.length) :
    budget { p with pendingClose := some 0, pendingDocEnd := true, line := none } ≤ budget p := by
  rw [budget_line hmode hline hitem,
    @budget_normal { p with pendingClose := some 0, pendingDocEnd := true, line := none } hmode,
    lineCost_none rfl]
  simp only [laterCost, placeCost, hdocEnd, ↓reduceIte, Bool.false_eq_true]
  omega

theorem Ready.separatorLine (h : Ready due p) (hitem : p.inlineSequenceItem = none)
    {line : PhysLine}
    (hline : p.line = some line) {text : Bytes} (hlen : text.length ≤ line.text.length)
    (trailing : Bool) :
    Follows due (budget p) (separatorLine p text trailing) := by
  unfold Siml.separatorLine
  split
  · rename_i hdashes
    split
    · exact follows_error p _
    · split
      · exact follows_error p _
      · rename_i hmap
        split
        · exact follows_error p _
        · rename_i hinside
          rw [not_not] at hinside
          cases h with
          | outside h _ =>
            rcases h.state with hstate | hstate
            · exact absurd (hstate.symm.trans hinside) DocState.noConfusion
            · exact absurd (hstate.symm.trans hinside) DocState.noConfusion
          | entries h hmode hnomap _ =>
            have hthree : 3 ≤ line.text.length := by rwa [hdashes] at hlen
            exact Follows.mono
              (@Ending.follows
                { p with pendingClose := some 0, pendingDocEnd := true, line := none }
                ⟨h.state, hmode, hnomap, hitem, h.docStart, h.container, rfl, fun _ => rfl⟩)
              (budget_separator hmode hline hitem h.docEnd hthree)
          | header h => exact absurd h.map hmap
  · split
    · exact follows_error p _
    · dsimp only
      split_ifs
      · exact follows_error p _
      · exact follows_error p _
      · exact follows_error p _
      · exact follows_error p _

theorem spacedValue_length {rest value : Bytes} {code : ErrorCode}
    (h : spacedValue rest code = .ok value) : value.length < rest.length := by
  obtain ⟨v, rfl, -, -, hvalue⟩ := spacedValue_ok h
  exact Nat.lt_succ_of_le (parseInlineComment_start hvalue).length_le

theorem Reading.mappingLine (h : Reading p) {c : Container} {stack : List Container}
    (hs : p.stack = c :: stack)
    (htype : c.type = .map) {body : Bytes} (indent : Nat) (trailing : Bool)
    (hn : laterCost p + 2 * body.length + 2 ≤ n) : Follows (opened p) n
    (mappingLine p body indent trailing) := by
  unfold Siml.mappingLine
  split
  · exact follows_error p _
  · rename_i key value hentry
    obtain ⟨hkey, rest, rfl, hrest⟩ := parseMappingEntry_ok hentry
    rw [List.length_append, List.length_cons] at hn
    split
    · exact follows_error p _
    · split
      · have hopen : opened p = .map :: opened { p with stack := stack } := by
          rw [opened_cons hs, dueOf, htype]
        have hfits : Fits (.container :: opened p)
            { p with pendingMap := some (indent + 2), line := none } :=
          @Fits.header { p with pendingMap := some (indent + 2), line := none }
            (h.toInside.same rfl) h.mode rfl h.close h.item
        have hcost : budget { p with pendingMap := some (indent + 2), line := none } =
          laterCost p + 2 := by
          rw [@budget_normal { p with pendingMap := some (indent + 2), line := none } h.mode,
            lineCost_none rfl]
          simp only [laterCost, placeCost, h.map, Option.isSome_some,
            Option.isSome_none, ↓reduceIte, Bool.false_eq_true]
        rw [hopen] at hfits ⊢
        exact follows_move (.header _ _) hfits (by rw [hcost]; omega)
      · rename_i v
        have hlen : v.length < rest.length := by
          obtain ⟨hnone, -⟩ | ⟨v', hv, hspaced⟩ := hrest
          · cases hnone
          · cases hv
            exact spacedValue_length hspaced
        refine h.handleInlineValue (fun d hd hseq => ?_) indent (by omega)
        rw [hs] at hd
        cases hd
        rw [htype] at hseq
        cases hseq

def startEvent (p : Parser) : ContainerType → Event
  | .map => .mappingStart p.lineNo
  | .seq => .sequenceStart [] p.lineNo

theorem emitPendingStart_container {type : ContainerType} (hdoc : p.pendingDocStart = false)
    (hc : p.pendingContainerStart = some type) :
    emitPendingStart p = (some (startEvent p type), { p with pendingContainerStart := none }) := by
  unfold emitPendingStart
  rw [hdoc, hc, if_neg Bool.false_ne_true]
  cases type <;> rfl

theorem parseSequenceItem_length {body value : Bytes} (h : parseSequenceItem body = .ok value) :
    value.length + 1 < body.length := by
  unfold parseSequenceItem at h
  split at h
  · cases h
  · split_ifs at h
    exact Nat.succ_lt_succ (spacedValue_length h)

theorem Reading.nested (h : Reading p) {c : Container} {stack : List Container}
    (hs : p.stack = c :: stack)
    (htype : c.type = .seq) {line : PhysLine} (hline : p.line = some line)
    (hnode : NodeText (trimmed line.text))
    (type : ContainerType) {indent : Nat} (hindent : indent < line.text.length)
    (hn : laterCost p + 2 * (line.text.length - indent) + 2 ≤ n) :
    Follows (opened p) n (sequenceLine.nested p indent type) := by
  unfold sequenceLine.nested requestContainerStart
  split_ifs
  · exact follows_error p _
  · let q : Parser :=
      { p with stack := ⟨type, indent + 2⟩ :: p.stack, inlineSequenceItem := some (indent + 2) }
    have hagain : ∀ k, q.inlineSequenceItem = some k → Again q k := fun k hk =>
      Option.some.inj hk ▸ ⟨Nat.succ_pos _, ⟨line, hline, hnode⟩, ⟨_, _, rfl, rfl⟩, h.close⟩
    have hfits : Fits (dueOf ⟨type, indent + 2⟩ :: opened p) q :=
      @Fits.entries q ⟨h.state, List.cons_ne_nil _ _, h.docStart, h.container, h.docEnd,
        h.streamEnd⟩ h.mode h.map
        (fun t ht => by rw [show q.pendingClose = none from h.close] at ht; cases ht) hagain
    have hcost : budget q = laterCost p + 1 + (2 * (line.text.length - (indent + 2)) + 2) := by
      rw [@budget_normal q h.mode, @lineCost_some q _ hline]
      simp only [laterCost, placeCost, q, List.length_cons, Option.getD_some]
      omega
    have hlt : budget q < n := by omega
    have hopen : opened p = .seq :: opened { p with stack := stack } := by
      rw [opened_cons hs, dueOf, htype]
    have hq : { p with stack := ⟨type, indent + 2⟩ :: p.stack, pendingContainerStart := none,
                       inlineSequenceItem := some (indent + 2) } = q := by rw [← h.container]
    dsimp only
    rw [@emitPendingStart_container
      { p with
        stack := ⟨type, indent + 2⟩ :: p.stack
        pendingContainerStart := some type
        inlineSequenceItem := some (indent + 2) } type h.docStart rfl, hq]
    rw [hopen] at hfits ⊢
    cases type with
    | map => exact follows_move (.mapItem _) hfits hlt
    | seq => exact follows_move (.seqItem _) hfits hlt

theorem Reading.sequenceLine (h : Reading p) {c : Container} {stack : List Container}
    (hs : p.stack = c :: stack)
    (htype : c.type = .seq) {line : PhysLine} (hline : p.line = some line)
    (hnode : NodeText (trimmed line.text))
    {body : Bytes} {indent : Nat} (hbody : body.length ≤ line.text.length - indent)
    (trailing : Bool)
    (hn : laterCost p + 2 * (line.text.length - indent) + 2 ≤ n) :
    Follows (opened p) n (sequenceLine p body indent trailing) := by
  unfold Siml.sequenceLine
  split
  · exact follows_error p _
  · rename_i value hitem
    have hlen := parseSequenceItem_length hitem
    split_ifs
    · exact follows_error p _
    · exact h.nested hs htype hline hnode .map (by omega) hn
    · exact h.nested hs htype hline hnode .seq (by omega) hn
    · exact h.handleInlineValue (fun _ _ _ => rfl) indent (by omega)

theorem Reading.itemLine (h : Reading p) {c : Container} {stack : List Container}
    (hs : p.stack = c :: stack)
    {line : PhysLine} (hline : p.line = some line) (hnode : NodeText (trimmed line.text))
    {body : Bytes}
    {indent : Nat}
    (hbody : body.length ≤ line.text.length - indent) (trailing : Bool)
    (hn : laterCost p + 2 * (line.text.length - indent) + 2 ≤ n)
    (hturn : indent < c.indent → budget p ≤ n) :
    Follows (opened p) n (itemLine p c body indent trailing) := by
  unfold Siml.itemLine
  split
  · exact follows_error p _
  · split
    · rename_i hlt
      split
      · exact follows_error p _
      · rename_i target hdepth
        exact (h.toInside.closeTo h.mode h.map h.item (depthAt_pos hdepth)).mono (hturn hlt)
    · split
      · rename_i htype
        split
        · exact follows_error p _
        · exact h.mappingLine hs htype indent trailing (by omega)
      · rename_i htype
        split
        · exact h.sequenceLine hs htype hline hnode hbody trailing hn
        · exact follows_error p _

theorem Outside.openContainer (h : Outside p) (hend : p.pendingStreamEnd = false)
    (hclose : p.pendingClose = none) (type : ContainerType) (indent : Nat) :
    Follows [] (budget p) (openContainer { p with docState := .inside, pendingDocStart := true }
      type indent) := by
  unfold Siml.openContainer requestContainerStart
  split_ifs
  · exact follows_error _ _
  · let q : Parser := { p with
      docState := .inside
      stack := ⟨type, indent⟩ :: p.stack
      pendingDocStart := false
      pendingContainerStart := some type }
    have hroot : Root q := ⟨rfl, h.mode, h.map, h.item, rfl,
      ⟨⟨type, indent⟩, congrArg (_ :: ·) h.stack, rfl⟩, h.docEnd,
      hend, hclose⟩
    have hbefore : docCost p.docState = 3 := by rcases h.state with hs | hs <;> rw [hs, docCost]
    have hinside : docCost .inside = 0 := rfl
    have hline : lineCost q = lineCost p := rfl
    have hlt : budget q < budget p := by
      rw [budget_normal h.mode, @budget_normal q h.mode, hline]
      simp only [laterCost, placeCost, q, hbefore, hinside, h.container, List.length_cons,
        Option.isSome_some, Option.isSome_none, ↓reduceIte, Bool.false_eq_true]
      omega
    exact follows_move (.document _) (.root hroot) hlt

theorem Header.start (h : Header p) (type : ContainerType) (indent : Nat) :
    Follows (.container :: opened p) (budget p) (match requestContainerStart p type indent with
      | .error code => simlSetError p code
      | .ok p => returned (emitPendingStart { p with pendingMap := none })) := by
  unfold requestContainerStart
  split_ifs
  · exact follows_error p _
  · let q : Parser := { p with
      stack := ⟨type, indent⟩ :: p.stack
      pendingContainerStart := none
      pendingMap := none }
    have hread : Reading q :=
      ⟨⟨h.state, List.cons_ne_nil _ _, h.docStart, rfl, h.docEnd, h.streamEnd⟩, h.mode, rfl,
        h.close, h.item⟩
    have hfits : Fits (dueOf ⟨type, indent⟩ :: opened p) q := hread.fits
    have hline : lineCost q = lineCost p := rfl
    have hlt : budget q < budget p := by
      rw [budget_normal h.mode, @budget_normal q h.mode, hline]
      simp only [laterCost, placeCost, q, h.map, h.container, List.length_cons,
        Option.isSome_none, ↓reduceIte, Bool.false_eq_true]
      omega
    dsimp only
    rw [@emitPendingStart_container
      { p with
        stack := ⟨type, indent⟩ :: p.stack
        pendingContainerStart := some type
        pendingMap := none } type h.docStart rfl]
    cases type with
    | map => exact follows_move (.mapStart _) hfits hlt
    | seq => exact follows_move (.seqStart _) hfits hlt

theorem Ready.nodeLine (h : Ready due p) (hclose : p.pendingClose = none) {line : PhysLine}
    (hline : p.line = some line)
    (hnode : NodeText (trimmed line.text)) (lineIndent : Nat) (trailing : Bool) :
    Follows due (budget p) (nodeLine p (trimmed line.text) lineIndent trailing) := by
  have hlen : (trimmed line.text).length ≤ line.text.length := (trimmed_start _).length_le
  obtain ⟨indent, hindent⟩ : ∃ indent, indent = p.inlineSequenceItem.getD lineIndent := ⟨_, rfl⟩
  -- Unless the line is read again, setting the column changes nothing.
  have hfresh : p.inlineSequenceItem = none ∨ p.inlineSequenceItem = some indent ∧
      Again p indent := by
    cases hk : p.inlineSequenceItem with
    | none => exact .inl rfl
    | some k =>
      rw [hk] at hindent
      exact .inr ⟨congrArg some hindent.symm, hindent ▸ h.again hk⟩
  have hsame : p.inlineSequenceItem = none → { p with inlineSequenceItem := none } = p :=
    fun hnone => by rw [← hnone]
  unfold Siml.nodeLine
  rw [← hindent]
  dsimp only
  split
  · rename_i hdash
    obtain hnone | ⟨-, hagain⟩ := hfresh
    · rw [hsame hnone]
      exact h.separatorLine hnone hline hlen trailing
    · exact absurd hdash.1 (Nat.ne_of_gt hagain.pos)
  · split
    · exact follows_error _ _
    · split
      · exact follows_error _ _
      · cases h with
        | outside h hend =>
          split
          · rename_i hmap
            rw [h.map] at hmap
            cases hmap
          · split
            · split
              · exact follows_error _ _
              · have hout : Outside { p with inlineSequenceItem := none } :=
                  ⟨h.state, h.mode, h.stack, h.map, rfl, h.docStart, h.container, h.docEnd⟩
                exact (hout.openContainer hend hclose _ _).mono (congrArg budget (hsame h.item)).le
            · rename_i hstate
              rcases h.state with hs | hs <;> exact absurd (hs ▸ DocState.noConfusion) hstate
        | entries h hmode hnomap hitem =>
          have hread : Reading { p with inlineSequenceItem := none } :=
            ⟨h.same rfl, hmode, hnomap, hclose, rfl⟩
          split
          · rename_i hmap
            rw [hnomap] at hmap
            cases hmap
          · rw [if_neg (not_not.mpr h.state)]
            split
            · rename_i hnil
              exact absurd hnil h.stack
            · rename_i c stack hs
              refine hread.itemLine hs hline hnode (by rw [List.length_drop]; omega) trailing ?_ ?_
              · have hlater : laterCost { p with inlineSequenceItem := none } = laterCost p := rfl
                rw [hlater, budget_normal hmode, lineCost_some hline]
                obtain hnone | ⟨hsome, -⟩ := hfresh
                · rw [hnone, Option.getD_none]
                  omega
                · rw [hsome, Option.getD_some]
                  omega
              · intro hturn
                obtain hnone | ⟨-, hagain⟩ := hfresh
                · rw [hsame hnone]
                · obtain ⟨c', stack', hs', hcolumn⟩ := hagain.column
                  have hcs : p.stack = c :: stack := hs
                  rw [hcs] at hs'
                  cases hs'
                  omega
        | header h =>
          have hhead : Header { p with inlineSequenceItem := none } :=
            ⟨h.toInside.same rfl, h.mode, h.map, h.close, rfl⟩
          split
          · split
            · exact follows_error _ _
            · split
              · exact follows_error _ _
              · exact (hhead.start _ _).mono (congrArg budget (hsame h.item)).le
          · rename_i hmap
            exact absurd h.map (by rw [hmap]; exact Bool.false_ne_true)

theorem Ready.normalLine (h : Ready due p) (hclose : p.pendingClose = none) {line : PhysLine}
    (hline : p.line = some line) :
    Follows due (budget p) (normalLine p line) := by
  -- The line of an item is neither a shebang nor a comment.
  have hfirst : p.inlineSequenceItem = none ∨ NodeText (trimmed line.text) := by
    cases hk : p.inlineSequenceItem with
    | none => exact .inl rfl
    | some k =>
      obtain ⟨line', hline', hnode⟩ := (h.again hk).line
      rw [hline] at hline'
      cases hline'
      exact .inr hnode
  unfold Siml.normalLine
  split
  · exact follows_error p _
  · dsimp only
    split
    · rename_i hshebang
      exact h.shebangLine hclose (hfirst.resolve_right fun hnode => hnode.1 hshebang) hline _ _
    · rename_i hshebang
      split
      · exact follows_error p _
      · rename_i indent isComment hparse
        split
        · rename_i hcomment
          have hnone := hfirst.resolve_right fun hnode => hnode.2 indent (by rw [hparse, hcomment])
          exact h.commentLine hclose hnone hline _ _
        · rename_i hcomment
          refine h.nodeLine hclose hline ⟨hshebang, fun indent' hindent => hcomment ?_⟩ _ _
          rw [hparse] at hindent
          cases hindent
          rfl

theorem budget_endOfInput (hmode : p.mode = .normal) (hdocEnd : p.pendingDocEnd = false)
    (hend : p.pendingStreamEnd = false) :
    budget { p with pendingClose := some 0, pendingDocEnd := true, pendingStreamEnd := true } ≤
      budget p := by
  have hline :
      lineCost { p with pendingClose := some 0, pendingDocEnd := true, pendingStreamEnd := true } =
    lineCost p := rfl
  rw [budget_normal hmode,
    @budget_normal
      { p with pendingClose := some 0, pendingDocEnd := true, pendingStreamEnd := true } hmode,
      hline]
  simp only [laterCost, placeCost, hdocEnd, hend, ↓reduceIte, Bool.false_eq_true]
  omega

theorem Ready.endOfInput (h : Ready due p) (hline : p.line = none) :
    Follows due (budget p) (endOfInput p) := by
  unfold Siml.endOfInput
  split
  · exact follows_error p _
  · rename_i hmap
    cases h with
    | outside h hend =>
      split
      · exact follows_error p _
      · rename_i hstate
        rcases h.state with hs | hs <;> rw [hs] at hstate <;> cases hstate
      · refine .inr (.inl ⟨?_, rfl⟩)
        rw [@emitPendingEnd_nil { p with pendingStreamEnd := true } h.stack,
          emitPendingEnd.emitDocEnd]
        simp only [h.docEnd]
        rfl
    | entries h hmode hnomap hitem =>
      have hnone : p.inlineSequenceItem = none := by
        cases hk : p.inlineSequenceItem with
        | none => rfl
        | some k =>
          obtain ⟨line, hsome, -⟩ := (hitem k hk).line
          rw [hline] at hsome
          cases hsome
      split
      · exact follows_error p _
      · exact Follows.mono
          (@Ending.follows
            { p with pendingClose := some 0, pendingDocEnd := true, pendingStreamEnd := true }
            ⟨h.state, hmode, hnomap, hnone, h.docStart, h.container, rfl, fun _ => rfl⟩)
          (budget_endOfInput hmode h.docEnd h.streamEnd)
      · rename_i hstate
        exact absurd h.state hstate
    | header h => exact absurd h.map hmap

theorem Ready.nextNormal (h : Ready due p) (hclose : p.pendingClose = none) :
    Follows due (budget p) (nextNormal p) := by
  unfold Siml.nextNormal
  split
  · rename_i line hline
    exact h.normalLine hclose hline
  · rename_i hline
    have hnone : p.inlineSequenceItem = none := by
      cases hk : p.inlineSequenceItem with
      | none => rfl
      | some k =>
        obtain ⟨line, hsome, -⟩ := (h.again hk).line
        rw [hline] at hsome
        cases hsome
    split
    · exact h.endOfInput hline
    · rename_i raw rest hinput
      split
      · exact follows_error _ _
      · rename_i line hphys
        have hready := (@Ready.setLine p { p.taken raw rest with line := some line } _ h hclose
          hnone rfl rfl rfl rfl rfl).1
        refine (hready.normalLine hclose rfl).mono ?_
        have hraw := physLine_length hphys
        have htaken := laterCost_taken hinput
        have hlater : laterCost { p.taken raw rest with line := some line } =
          laterCost (p.taken raw rest) := rfl
        have hcost := @lineCost_le { p.taken raw rest with line := some line } line rfl
        rw [budget_normal h.mode, @budget_normal { p.taken raw rest with line := some line } h.mode,
          lineCost_none hline, hlater]
        omega

end Lines

section Steps
variable {p q : Parser} {due : List Due} {n : Nat}

def pullStart (p : Parser) : Step :=
  match emitPendingStart p with
  | (some ev, p) => (ev, p)
  | (none, p) => Siml.nextNormal p

def pullEnd (p : Parser) : Step :=
  match emitPendingEnd p with
  | (some ev, p) => (ev, p)
  | (none, p) => pullStart p

theorem simlNext_normal (herror : p.error = none) (hidle : p.docState ≠ .idle)
    (hmode : p.mode = .normal) : simlNext p = pullEnd p := by
  unfold simlNext
  rw [herror, if_neg hidle, hmode]
  rfl

theorem pullEnd_none (h : emitPendingEnd p = (none, q)) : pullEnd p = pullStart q := by
  rw [pullEnd, h]

theorem budget_open (p : Parser) : budget { p with pendingClose := none } = budget p := rfl

theorem Ready.pullStart (h : Ready due p) (hclose : p.pendingClose = none) :
    Follows due (budget p) (pullStart p) := by
  have hpending : p.pendingDocStart = false ∧ p.pendingContainerStart = none := by
    cases h with
    | outside h _ => exact ⟨h.docStart, h.container⟩
    | entries h _ _ _ => exact ⟨h.docStart, h.container⟩
    | header h => exact ⟨h.docStart, h.container⟩
  have hnone : emitPendingStart p = (none, p) := by
    unfold emitPendingStart
    rw [hpending.1, hpending.2, if_neg Bool.false_ne_true]
  rw [SimlOrder.pullStart, hnone]
  exact h.nextNormal hclose

theorem Outside.pullEnd (h : Outside p) : Follows [] (budget p) (pullEnd p) := by
  have hend : emitPendingEnd p = emitPendingEnd.emitDocEnd { p with pendingClose := none } :=
    emitPendingEnd_nil h.stack
  rw [emitPendingEnd.emitDocEnd, if_neg (by simp [h.docEnd])] at hend
  by_cases hstream : p.pendingStreamEnd = true
  · rw [if_pos hstream] at hend
    rw [SimlOrder.pullEnd, hend]
    exact .inr (.inl ⟨rfl, rfl⟩)
  · rw [if_neg hstream] at hend
    rw [pullEnd_none hend, ← budget_open]
    exact (@Ready.outside { p with pendingClose := none }
      ⟨h.state, h.mode, h.stack, h.map, h.item, h.docStart, h.container,
      h.docEnd⟩ (by simpa using hstream)).pullStart rfl

theorem emitPendingEnd_quiet (hclose : p.pendingClose = none) (hdocEnd : p.pendingDocEnd = false)
    (hend : p.pendingStreamEnd = false) : emitPendingEnd p =
    (none, { p with pendingClose := none }) := by
  rw [emitPendingEnd_none hclose, emitPendingEnd.emitDocEnd, if_neg (by simp [hdocEnd]),
    if_neg (by simp [hend])]

theorem Root.pullEnd (h : Root p) : Follows [.container, .documentEnd] (budget p) (pullEnd p) := by
  obtain ⟨c, hs, hc⟩ := h.container
  let q : Parser := { p with pendingClose := none, pendingContainerStart := none }
  have hstack : q.stack ≠ [] := by
    rw [show q.stack = [c] from hs]
    exact List.cons_ne_nil _ _
  have hread : Reading q :=
    ⟨⟨h.state, hstack, h.docStart, rfl, h.docEnd, h.streamEnd⟩, h.mode, h.map, rfl, h.item⟩
  have hopen : opened q = [dueOf c, .documentEnd] := by rw [opened, show q.stack = [c] from hs]; rfl
  have hfits := hread.fits
  have hline : lineCost q = lineCost p := rfl
  have hlt : budget q < budget p := by
    rw [budget_normal h.mode, @budget_normal q h.mode, hline]
    simp only [laterCost, placeCost, q, hc, Option.isSome_some, Option.isSome_none, ↓reduceIte,
      Bool.false_eq_true]
    omega
  rw [hopen] at hfits
  rw [pullEnd_none (emitPendingEnd_quiet h.close h.docEnd h.streamEnd), SimlOrder.pullStart,
    @emitPendingStart_container { p with pendingClose := none } c.type h.docStart hc]
  obtain ⟨type, indent⟩ := c
  cases type with
  | map => exact follows_move (.mapStart _) hfits hlt
  | seq => exact follows_move (.seqStart _) hfits hlt

theorem Inside.pullEnd (h : Inside p) (hmode : p.mode = .normal) (hmap : p.pendingMap = none)
    (hclose : ∀ t, p.pendingClose = some t → 0 < t)
    (hitem : ∀ k, p.inlineSequenceItem = some k → Again p k) :
    Follows (opened p) (budget p) (pullEnd p) := by
  rcases h.emitPendingEnd hmode hmap hclose hitem with ⟨ev, q, he, due', hmove, hfits, hlt⟩ | he
  · rw [SimlOrder.pullEnd, he]
    exact follows_move hmove hfits hlt
  · have hagain : ∀ k, p.inlineSequenceItem = some k → Again { p with pendingClose := none } k :=
      fun k hk =>
      ⟨(hitem k hk).pos, (hitem k hk).line, (hitem k hk).column, rfl⟩
    rw [pullEnd_none he, ← budget_open]
    exact (@Ready.entries { p with pendingClose := none }
      (h.same rfl) hmode hmap hagain).pullStart rfl

theorem Header.pullEnd (h : Header p) :
    Follows (.container :: opened p) (budget p) (pullEnd p) := by
  rw [pullEnd_none (emitPendingEnd_quiet h.close h.docEnd h.streamEnd), ← budget_open]
  have hheader : Header { p with pendingClose := none } :=
    ⟨h.toInside.same rfl, h.mode, h.map, rfl, h.item⟩
  exact (Ready.header hheader).pullStart rfl

theorem Ending.pullEnd (h : Ending p) : Follows (opened p) (budget p) (pullEnd p) := by
  have hfollows := h.follows
  unfold SimlOrder.pullEnd
  split
  · rename_i ev q he
    rw [he] at hfollows
    exact hfollows
  · rename_i q he
    exfalso
    cases hs : p.stack with
    | nil =>
      rw [emitPendingEnd_nil hs, emitPendingEnd.emitDocEnd, if_pos h.docEnd] at he
      cases he
    | cons c stack =>
      have hclose := h.close (by rw [hs]; exact List.cons_ne_nil _ _)
      rw [emitPendingEnd_close hclose hs (by rw [hs]; exact Nat.succ_pos _)] at he
      cases he

theorem Fits.docState (h : Fits due p) : p.docState ≠ .idle := by
  have hinside : p.docState = .inside → p.docState ≠ .idle := fun hin => by
    rw [hin]; exact DocState.noConfusion
  cases h with
  | outside h => rcases h.state with hs | hs <;> rw [hs] <;> exact DocState.noConfusion
  | root h => exact hinside h.state
  | entries h => exact hinside h.state
  | header h => exact hinside h.state
  | block h => exact hinside h.state
  | flow h => exact hinside h.state
  | ending h => exact hinside h.state

/-- A request brings an error, the end of a stream with nothing due, or an event in order. -/
theorem Fits.simlNext (h : Fits due p) : Follows due (budget p) (simlNext p) := by
  cases herror : p.error with
  | some e =>
    unfold Siml.simlNext
    rw [herror]
    exact .inl ⟨_, _, rfl⟩
  | none =>
    have hidle := h.docState
    cases h with
    | outside h =>
      rw [simlNext_normal herror hidle h.mode]
      exact h.pullEnd
    | root h =>
      rw [simlNext_normal herror hidle h.mode]
      exact h.pullEnd
    | entries h hmode hmap hclose hitem =>
      rw [simlNext_normal herror hidle hmode]
      exact h.pullEnd hmode hmap hclose hitem
    | header h hmode hmap hclose hitem =>
      rw [simlNext_normal herror hidle hmode]
      exact Header.pullEnd ⟨h, hmode, hmap, hclose, hitem⟩
    | block h hmode hmap hclose hitem hblank =>
      unfold Siml.simlNext
      rw [herror, if_neg hidle, hmode]
      exact InBlock.nextBlock ⟨h, hmap, hclose, hitem, hblank⟩ hmode
    | flow h hmode hmap hclose hitem hframes hne =>
      unfold Siml.simlNext
      rw [herror, if_neg hidle, hmode]
      exact nextFlow_follows h hmode hmap hclose hitem hframes hne
    | ending h =>
      rw [simlNext_normal herror hidle h.mode]
      exact h.pullEnd

end Steps

section Streams
variable {p : Parser} {due : List Due} {out : List Event}

/-- Until its end a stream is in order, and without an error nothing is due at the end. -/
theorem Fits.stream (h : Fits due p) (hout : Emits p out) :
    ∃ front last due', out = front ++ [last] ∧
    Moves due front due' ∧ ((∃ line msg, last = .error line msg) ∨ last = .streamEnd ∧
      due' = []) := by
  induction hout generalizing due with
  | @last s s' e hnext hfinal =>
    have hfollows := h.simlNext
    rw [hnext] at hfollows
    obtain herror | hend | ⟨due', hmove, -, -⟩ := hfollows
    · exact ⟨[], e, due, rfl, .nil due, .inl herror⟩
    · exact ⟨[], e, due, rfl, .nil due, .inr hend⟩
    · rw [hmove.not_final] at hfinal
      cases hfinal
  | @cons s s' e es hnext hfinal _ ih =>
    have hfollows := h.simlNext
    rw [hnext] at hfollows
    obtain ⟨line, msg, rfl⟩ | ⟨rfl, -⟩ | ⟨due', hmove, hfits, -⟩ := hfollows
    · cases hfinal
    · cases hfinal
    · obtain ⟨front, last, due'', rfl, hmoves, hlast⟩ := ih hfits
      exact ⟨e :: front, last, due'', rfl, .cons hmove hmoves, hlast⟩

def started (buf : Bytes) : Parser := { start buf with docState := .before }

theorem simlNext_start (buf : Bytes) : simlNext (start buf) = (.streamStart, started buf) := rfl

theorem started_fits (buf : Bytes) : Fits [] (started buf) :=
  .outside ⟨.inl rfl, rfl, rfl, rfl, rfl, rfl, rfl, rfl⟩

theorem emits_start {buf : Bytes} (hout : Emits (start buf) out) :
    ∃ rest, out = .streamStart :: rest ∧ Emits (started buf) rest :=
  (Pull.ends_of_next (simlNext_start buf) rfl).mp hout

theorem emits_cases {buf : Bytes} (hout : Emits (start buf) out) : (∃ docs, Documented out docs) ∨
    ∃ front line msg due, out = .streamStart :: (front ++ [.error line msg]) ∧
      Moves [] front due := by
  obtain ⟨rest, rfl, hrest⟩ := emits_start hout
  obtain ⟨front, last, due, rfl, hmoves, ⟨line, msg, rfl⟩ | ⟨rfl, rfl⟩⟩ :=
    (started_fits buf).stream hrest
  · exact .inr ⟨front, line, msg, due, rfl, hmoves⟩
  · exact .inl hmoves.documented

/-- The events of any bytes are the documents of a stream, or the beginning of such a stream and
an error. -/
theorem stream_ordered {buf : Bytes} {out : List Event} (hout : Emits (start buf) out) :
    (∃ docs, Documented out docs) ∨
      ∃ front line msg rest docs, out = front ++ [.error line msg] ∧
        Documented (front ++ rest) docs := by
  obtain hdocs | ⟨front, line, msg, due, rfl, hmoves⟩ := emits_cases hout
  · exact .inl hdocs
  · obtain ⟨evs, hevs⟩ := exists_moves due
    obtain ⟨docs, hdocs⟩ := (hmoves.append hevs).documented
    refine .inr ⟨.streamStart :: front, line, msg, evs ++ [.streamEnd], docs, rfl, ?_⟩
    rwa [List.append_assoc] at hdocs

def openHeader : Bytes := ascii "a: 1\nb:\n"

theorem stream_ordered_header :
    (∃ docs, Documented (Pull.outputs simlNext isFinal 8 (start openHeader)) docs) ∨
      ∃ front line msg rest docs, Pull.outputs simlNext isFinal 8 (start openHeader) =
        front ++ [.error line msg] ∧ Documented (front ++ rest) docs :=
  stream_ordered (Pull.ends_outputs (by decide))

theorem rawLines_flatten (buf : Bytes) : (rawLines buf).flatten = buf := by
  induction buf with
  | nil => rfl
  | cons b s ih =>
    rw [rawLines]
    split_ifs
    · rw [List.flatten_cons, ih]
      rfl
    · split
      · rename_i hnil
        rw [hnil] at ih
        rw [← ih]
        rfl
      · rename_i raw raws hcons
        rw [hcons, List.flatten_cons] at ih
        rw [List.flatten_cons, List.cons_append, ih]

/-- The reader comes to an end on any bytes, after at most two events for each byte and nine more.
-/
theorem stream_ends (buf : Bytes) :
    ∃ out, Emits (start buf) out ∧ out.length ≤ 2 * buf.length + 9 := by
  have hstep : ∀ p, (∃ due, Fits due p) →
      isFinal (simlNext p).1 = true ∨ (∃ due, Fits due (simlNext p).2) ∧
        budget (simlNext p).2 < budget p := by
    rintro p ⟨due, h⟩
    obtain ⟨line, msg, he⟩ | ⟨he, -⟩ | ⟨due', -, hfits, hlt⟩ := h.simlNext
    · exact .inl (by rw [he]; rfl)
    · exact .inl (by rw [he]; rfl)
    · exact .inr ⟨⟨due', hfits⟩, hlt⟩
  obtain ⟨out, hout, hlen⟩ := Pull.exists_ends hstep ⟨[], started_fits buf⟩
  have hcost : budget (started buf) = 2 * (rawLines buf).flatten.length + 7 := rfl
  rw [hcost, rawLines_flatten] at hlen
  refine ⟨.streamStart :: out, .cons (simlNext_start buf) rfl hout, ?_⟩
  rw [List.length_cons]
  omega

end Streams

section Projects
variable {x : Input} {out : List Event} {p : Project}

theorem feed_started {c : Cfg} {line header start last : Nat} {root : List (Bytes × Node)}
    (h : feed x {} (Document.events ⟨line, .map header start last root⟩) = .ok c) :
    c.started = true := by
  obtain ⟨c₁, h₁, hbody⟩ := feed_cons.mp h
  have hc₁ : {} = c₁ := Except.ok.inj h₁
  subst hc₁
  obtain ⟨c₂, hopen, hrest⟩ := feed_cons.mp (show feed x {} (.mappingStart start :: _) =
    .ok c from hbody)
  obtain ⟨-, hflags, -⟩ := beginProject_ok (show beginProject x {} start = .ok c₂ from hopen)
  have hstarted : c₂.started = true := by rw [hflags]
  exact (feed_kept hstarted hrest).1.started

/-- The bytes of an accepted project are one document with one mapping. Its direct entries decide,
if no entry of a nested mapping spells a key of the project. -/
theorem accepted_document (hout : Emits (start x.buf) out) (h : hmConfigParse x out = .ok p) :
    ∃ line header start last root, Documented out [⟨line, .map header start last root⟩] ∧
      ((∀ e ∈ root, ¬ Misplaced e) → partsOf p = root.foldl (Parts.add x) {} ∧ ∀ e ∈ root,
        Proper e) := by
  obtain ⟨docs, hdoc⟩ | ⟨front, line, msg, due, rfl, -⟩ := emits_cases hout
  · obtain ⟨c', hfeed, hfinished, rfl⟩ := feed_documents hdoc h
    cases docs with
    | nil =>
      cases hfeed
      cases hfinished
    | cons d ds =>
      obtain ⟨c, hd, hds⟩ := feed_append.mp hfeed
      obtain ⟨header, start, last, root, hroot⟩ := first_document hd
      obtain ⟨line, node⟩ := d
      cases hroot
      cases ds with
      | nil =>
        cases hds
        exact ⟨line, header, start, last, root, hdoc, fun hm => (feed_document hm hd).2⟩
      | cons d' ds =>
        -- A finished project is started, whatever its entries are.
        exact absurd hds (no_second_document (feed_started hd))
  · obtain ⟨-, -, herror, -⟩ := feed_of_emits hout h
    exact absurd (by simp) (herror line msg)

theorem accepted_document_indented : ∃ line header start last root,
    Documented indentedEvents [⟨line, .map header start last root⟩] ∧
      ((∀ e ∈ root, ¬ Misplaced e) → ∃ p, hmConfigParse indentedInput indentedEvents = .ok p ∧
        partsOf p = root.foldl (Parts.add indentedInput) {} ∧ ∀ e ∈ root, Proper e) := by
  obtain ⟨p, hp⟩ := indented_accepted
  obtain ⟨line, header, start, last, root, hdoc, hparts⟩ :=
    accepted_document (Pull.ends_outputs (by decide +kernel)) hp
  exact ⟨line, header, start, last, root, hdoc, fun hm => ⟨p, hp, hparts hm⟩⟩

end Projects

end Hacman.SimlOrder
