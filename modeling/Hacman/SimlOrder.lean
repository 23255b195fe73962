import Hacman.BlockText

/-!
# The order of the events

What is still due while containers are open is a stack, and every event moves it. Events that
lead from nothing due to nothing due are the documents of a stream, written out.
-/

namespace Hacman.SimlOrder
open Octets Util Config Siml Levels

section Order

/-- What an open place waits for: the start of a container, entries and the end of a mapping,
items and the end of a sequence, the first line of a block, more lines and its end, the end of
the document. -/
inductive Due
  | container
  | map
  | seq
  | block
  | lines
  | documentEnd
  deriving DecidableEq, Repr

/-- One event, with what is due before it and behind it. Between documents nothing is due. -/
inductive Move : List Due → Event → List Due → Prop
  | trivia {due : List Due} {ev : Event} (h : isTrivia ev = true) : Move due ev due
  | document (line : Nat) : Move [] (.documentStart line) [.container, .documentEnd]
  | documentEnd {due : List Due} : Move (.documentEnd :: due) .documentEnd due
  | mapStart {due : List Due} (line : Nat) :
    Move (.container :: due) (.mappingStart line) (.map :: due)
  | seqStart {due : List Due} (line : Nat) :
    Move (.container :: due) (.sequenceStart [] line) (.seq :: due)
  | header {due : List Due} (key : Bytes) (line : Nat) :
    Move (.map :: due) (.entryHeader key line) (.container :: .map :: due)
  | entry {due : List Due} (key value : Bytes) (line : Nat) :
    Move (.map :: due) (.scalar key value line) (.map :: due)
  | blockEntry {due : List Due} (key : Bytes) (line : Nat) :
    Move (.map :: due) (.blockStart key line) (.block :: .map :: due)
  | flowEntry {due : List Due} (key : Bytes) (line : Nat) :
    Move (.map :: due) (.sequenceStart key line) (.seq :: .map :: due)
  | mapEnd {due : List Due} (line : Nat) : Move (.map :: due) (.mappingEnd line) due
  | item {due : List Due} (value : Bytes) (line : Nat) :
    Move (.seq :: due) (.scalar [] value line) (.seq :: due)
  | blockItem {due : List Due} (line : Nat) :
    Move (.seq :: due) (.blockStart [] line) (.block :: .seq :: due)
  | seqItem {due : List Due} (line : Nat) :
    Move (.seq :: due) (.sequenceStart [] line) (.seq :: .seq :: due)
  | mapItem {due : List Due} (line : Nat) :
    Move (.seq :: due) (.mappingStart line) (.map :: .seq :: due)
  | seqEnd {due : List Due} : Move (.seq :: due) .sequenceEnd due
  | firstLine {due : List Due} {line : Slice} (h : line.len ≠ 0) :
    Move (.block :: due) (.blockLine line) (.lines :: due)
  | line {due : List Due} (line : Slice) : Move (.lines :: due) (.blockLine line) (.lines :: due)
  | blockEnd {due : List Due} : Move (.lines :: due) .blockEnd due

inductive Moves : List Due → List Event → List Due → Prop
  | nil (due : List Due) : Moves due [] due
  | cons {due due' due'' : List Due} {ev : Event} {evs : List Event} (h : Move due ev due')
      (rest : Moves due' evs due'') : Moves due (ev :: evs) due''

def Demands : List Due → List Event → Prop
  | [], evs => ∃ docs : List Document, evs = docs.flatMap Document.events ++ [.streamEnd]
  | .container :: due, evs =>
    (∃ line items rest, evs = .sequenceStart [] line :: (itemEvents items ++ .sequenceEnd :: rest) ∧
      Demands due rest) ∨
      ∃ line last entries rest, evs = .mappingStart line ::
        (entryEvents entries ++ .mappingEnd last :: rest) ∧ Demands due rest
  | .map :: due, evs => ∃ entries last rest, evs = entryEvents entries ++ .mappingEnd last :: rest ∧
    Demands due rest
  | .seq :: due, evs => ∃ items rest, evs = itemEvents items ++ .sequenceEnd :: rest ∧
    Demands due rest
  | .block :: due, evs => ∃ (first : Slice) (lines : List Slice) (rest : List Event),
    first.len ≠ 0 ∧
      evs = .blockLine first :: (lines.map .blockLine ++ .blockEnd :: rest) ∧ Demands due rest
  | .lines :: due, evs => ∃ (lines : List Slice) (rest : List Event),
      evs = lines.map .blockLine ++ .blockEnd :: rest ∧ Demands due rest
  | .documentEnd :: due, evs => ∃ rest, evs = .documentEnd :: rest ∧ Demands due rest

def isNode (ev : Event) : Bool := !isTrivia ev

variable {due due' : List Due} {ev : Event} {evs rest : List Event}

theorem demands_entry {key : Bytes} {node : Node} (h : Demands (.map :: due) rest) :
    Demands (.map :: due) (node.header key ++ node.events key ++ rest) := by
  obtain ⟨entries, last, rest', rfl, hrest⟩ := h
  exact ⟨(key, node) :: entries, last, rest', by simp [entryEvents], hrest⟩

theorem demands_item {node : Node} (h : Demands (.seq :: due) rest) :
    Demands (.seq :: due) (node.events [] ++ rest) := by
  obtain ⟨items, rest', rfl, hrest⟩ := h
  exact ⟨node :: items, rest', by simp [itemEvents], hrest⟩

/-- An event passes the demand on. -/
theorem Move.demands (h : Move due ev due') (hnode : isNode ev = true) (hrest : Demands due' rest) :
    Demands due (ev :: rest) := by
  cases h with
  | trivia ht => simp [isNode, ht] at hnode
  | document line =>
    obtain ⟨line', items, _, rfl, rest, rfl, docs, rfl⟩ |
      ⟨line', last, entries, _, rfl, rest, rfl, docs, rfl⟩ := hrest
    · exact ⟨⟨line, .seq 0 line' items⟩ :: docs, by simp [Document.events, Node.events]⟩
    · exact ⟨⟨line, .map 0 line' last entries⟩ :: docs, by simp [Document.events, Node.events]⟩
  | documentEnd => exact ⟨rest, rfl, hrest⟩
  | mapStart line =>
    obtain ⟨entries, last, rest', rfl, hrest⟩ := hrest
    exact .inr ⟨line, last, entries, rest', rfl, hrest⟩
  | seqStart line =>
    obtain ⟨items, rest', rfl, hrest⟩ := hrest
    exact .inl ⟨line, items, rest', rfl, hrest⟩
  | header key line =>
    obtain ⟨line', items, rest', rfl, hrest⟩ | ⟨line', last, entries, rest', rfl, hrest⟩ := hrest
    · have hentry := @demands_entry _ _ key (.seq line line' items) hrest
      simpa [Node.header, Node.events] using hentry
    · have hentry := @demands_entry _ _ key (.map line line' last entries) hrest
      simpa [Node.header, Node.events] using hentry
  | entry key value line => exact @demands_entry _ _ key (.scalar value line) hrest
  | blockEntry key line =>
    obtain ⟨first, lines, rest', hfirst, rfl, hrest⟩ := hrest
    have hentry := @demands_entry _ _ key (.block line first lines hfirst) hrest
    simpa [Node.header, Node.events] using hentry
  | flowEntry key line =>
    obtain ⟨items, rest', rfl, hrest⟩ := hrest
    have hentry := @demands_entry _ _ key (.flow line items) hrest
    simpa [Node.header, Node.events] using hentry
  | mapEnd line => exact ⟨[], line, rest, rfl, hrest⟩
  | item value line => exact @demands_item _ _ (.scalar value line) hrest
  | blockItem line =>
    obtain ⟨first, lines, rest', hfirst, rfl, hrest⟩ := hrest
    have hitem := @demands_item _ _ (.block line first lines hfirst) hrest
    simpa [Node.events] using hitem
  | seqItem line =>
    obtain ⟨items, rest', rfl, hrest⟩ := hrest
    have hitem := @demands_item _ _ (.flow line items) hrest
    simpa [Node.events] using hitem
  | mapItem line =>
    obtain ⟨entries, last, rest', rfl, hrest⟩ := hrest
    have hitem := @demands_item _ _ (.map 0 line last entries) hrest
    simpa [Node.events] using hitem
  | seqEnd => exact ⟨[], rest, rfl, hrest⟩
  | firstLine hlen =>
    obtain ⟨lines, rest', rfl, hrest⟩ := hrest
    exact ⟨_, lines, rest', hlen, rfl, hrest⟩
  | line slice =>
    obtain ⟨lines, rest', rfl, hrest⟩ := hrest
    exact ⟨slice :: lines, rest', rfl, hrest⟩
  | blockEnd => exact ⟨[], rest, rfl, hrest⟩

theorem Move.demands_filter (h : Move due ev due') (hrest : Demands due' (rest.filter isNode)) :
    Demands due ((ev :: rest).filter isNode) := by
  by_cases hnode : isNode ev = true
  · rw [List.filter_cons_of_pos hnode]
    exact h.demands hnode hrest
  · rw [List.filter_cons_of_neg hnode]
    cases h with
    | trivia ht => exact hrest
    | _ => exact absurd rfl hnode

theorem Moves.demands (h : Moves due evs due') (hrest : Demands due' (rest.filter isNode)) :
    Demands due ((evs ++ rest).filter isNode) := by
  induction h with
  | nil due => exact hrest
  | cons hmove _ ih => exact hmove.demands_filter (ih hrest)

theorem Moves.append {evs' : List Event} {due'' : List Due} (h : Moves due evs due')
    (h' : Moves due' evs' due'') : Moves due (evs ++ evs') due'' := by
  induction h with
  | nil => exact h'
  | cons hmove _ ih => exact .cons hmove (ih h')

theorem Move.not_final (h : Move due ev due') : isFinal ev = false := by
  cases h with
  | trivia ht => cases ev <;> first | rfl | cases ht
  | _ => rfl

theorem exists_moves (due : List Due) : ∃ evs, Moves due evs [] := by
  have hline : (⟨0, 1⟩ : Slice).len ≠ 0 := Nat.one_ne_zero
  induction due with
  | nil => exact ⟨[], .nil []⟩
  | cons d due ih =>
    obtain ⟨evs, hevs⟩ := ih
    cases d with
    | container => exact ⟨_, .cons (.mapStart 0) (.cons (.mapEnd 0) hevs)⟩
    | map => exact ⟨_, .cons (.mapEnd 0) hevs⟩
    | seq => exact ⟨_, .cons .seqEnd hevs⟩
    | block => exact ⟨_, .cons (.firstLine hline) (.cons .blockEnd hevs)⟩
    | lines => exact ⟨_, .cons .blockEnd hevs⟩
    | documentEnd => exact ⟨_, .cons .documentEnd hevs⟩

/-- A whole stream in order is the documents of a stream. -/
theorem Moves.documented (h : Moves [] evs []) :
    ∃ docs, Documented (.streamStart :: (evs ++ [.streamEnd])) docs := by
  have hend : Demands [] ([Event.streamEnd].filter isNode) := ⟨[], rfl⟩
  obtain ⟨docs, hdocs⟩ := h.demands hend
  exact ⟨docs, congrArg (Event.streamStart :: ·) hdocs⟩

end Order

end Hacman.SimlOrder
