import Hacman.Util

/-!
# The words of the option variable

`parse_env_words` splits a value in the buffer that holds it: the words are written over
the text that has been read. The words are those of a scan that writes nothing.
-/

namespace Hacman.Words
open Octets Util

section Definition

def BACKSLASH : UInt8 := 92

def envSpace (ch : UInt8) : Bool :=
  ch = SPACE || ch = TAB || ch = LF || ch = CR || ch = 12 || ch = 11

def isQuote (ch : UInt8) : Bool := ch = 39 || ch = 34

inductive Flaw | quote | escape
  deriving DecidableEq, Repr

inductive Piece
  | byte (b : UInt8)
  | quote
  | space
  deriving DecidableEq, Repr

def scan : Option UInt8 → Bytes → Except Flaw (List Piece)
  | none, [] => .ok []
  | some _, [] => .error .quote
  | quote, b :: s =>
    if b = BACKSLASH then match s with
      | [] => .error .escape
      | c :: s => (scan quote s).map (.byte c :: ·)
    else if quote = some b then (scan none s).map (.quote :: ·)
    else if quote = none ∧ isQuote b then (scan (some b) s).map (.quote :: ·)
    else if quote = none ∧ envSpace b then (scan none s).map (.space :: ·)
    else (scan quote s).map (.byte b :: ·)

def wordsFrom : Option Bytes → List Piece → List Bytes
  | word, [] => word.toList
  | word, .space :: pieces => word.toList ++ wordsFrom none pieces
  | word, .quote :: pieces => wordsFrom (some (word.getD [])) pieces
  | word, .byte b :: pieces => wordsFrom (some (word.getD [] ++ [b])) pieces

def HM_ENV_OPTIONS_MAX : Nat := 4096
def HM_ENV_ARG_MAX : Nat := 64

/-- Words are separated by whitespace outside of quotes; a quote groups until the next one of
its kind, and a backslash makes the next byte literal. -/
def envWords (value : Bytes) : Option (List Bytes) :=
  match scan none value with
  | .error _ => none
  | .ok pieces =>
    let words := wordsFrom none pieces
    if words.length ≤ HM_ENV_ARG_MAX then some words else none

end Definition

section Model

/-- Where the loops of `parse_env_words` are: between words, at the space before a word, in a
word behind an open quote or none, at the space behind a word, or at a return. -/
inductive Place
  | outer
  | lead
  | word (quote : Option UInt8)
  | trail
  | done (result : Except Bytes Unit)
  deriving DecidableEq, Repr

/-- The buffer, the two cursors and the beginnings of the words. -/
structure State where
  buf : Bytes
  read : Nat := 0
  write : Nat := 0
  argv : List Nat := []
  place : Place := .outer
  deriving DecidableEq, Repr

variable (s : State)

def State.peek : UInt8 := s.buf.getD s.read 0

def State.skip : State := { s with read := s.read + 1 }

def State.store (b : UInt8) : State := { s with buf := s.buf.set s.write b, write := s.write + 1 }

def State.fail (text : String) : State := { s with place := .done (.error (message text [])) }

def tooManyText : Bytes :=
  message "hacman: HACMAN contains more than %u arguments\n" [.ulong HM_ENV_ARG_MAX]

/-- One test of a byte, and what is done before the next one. -/
def step : State :=
  let ch := s.peek
  match s.place with
  | .outer => { s with place := if ch = 0 then .done (.ok ()) else .lead }
  | .lead =>
    if envSpace ch then s.skip
    else if ch = 0 then { s with place := .done (.ok ()) }
    else if s.argv.length = HM_ENV_ARG_MAX then { s with place := .done (.error tooManyText) }
    else { s with argv := s.argv ++ [s.write], place := .word none }
  | .word quote =>
    if ch = 0 ∨ quote = none ∧ envSpace ch then
      if quote ≠ none then s.fail "hacman: HACMAN contains an unterminated quote\n"
      else { s with place := .trail }
    else if ch = BACKSLASH then
      let s := s.skip
      if s.peek = 0 then s.fail "hacman: HACMAN ends with an incomplete escape\n"
      else (s.store s.peek).skip
    else if isQuote ch then
      if quote = none then { s.skip with place := .word (some ch) }
      else if quote = some ch then { s.skip with place := .word none }
      else (s.store ch).skip
    else (s.store ch).skip
  | .trail => if envSpace ch then s.skip else { s.store 0 with place := .outer }
  | .done _ => s

def start (value : Bytes) : State := { buf := value ++ [0] }

def steps (value : Bytes) : Nat := 5 * value.length + 8

def parseEnvWords (value : Bytes) : Except Bytes (List Bytes) :=
  if HM_ENV_OPTIONS_MAX < value.length then
    .error (message "hacman: HACMAN is longer than %u bytes\n" [.ulong HM_ENV_OPTIONS_MAX])
  else
    let s := step^[steps value] (start value)
    match s.place with
    | .done (.ok ()) => .ok (s.argv.map fun off => cstr (s.buf.drop off))
    | .done (.error text) => .error text
    | _ => .error []

example : parseEnvWords (ascii "--cache 'a b'\\ c\"\" '' ") =
    .ok [ascii "--cache", ascii "a b c", []] := by
  decide +kernel

end Model

section Buffer
variable {value rest w : Bytes} {done : List Bytes} {word : Option Bytes} {b c : UInt8} {s : State}

def packed (words : List Bytes) : Bytes := (words.map (· ++ [0])).flatten

def offsets : Nat → List Bytes → List Nat
  | _, [] => []
  | off, w :: words => off :: offsets (off + w.length + 1) words

theorem packed_concat (words : List Bytes) (w : Bytes) :
    packed (words ++ [w]) = packed words ++ w ++ [0] := by
  simp [packed]

theorem offsets_concat (off : Nat) (words : List Bytes) (w : Bytes) :
    offsets off (words ++ [w]) = offsets off words ++ [off + (packed words).length] := by
  induction words generalizing off with
  | nil => rfl
  | cons v words ih =>
    have hlen : (packed (v :: words)).length = v.length + 1 + (packed words).length := by
      simp only [packed, List.map_cons, List.flatten_cons, List.length_append,
        List.length_singleton]
    rw [List.cons_append, offsets, ih, offsets, List.cons_append, hlen, Nat.add_assoc off,
      Nat.add_assoc]

theorem length_offsets (off : Nat) (words : List Bytes) :
    (offsets off words).length = words.length := by
  induction words generalizing off with
  | nil => rfl
  | cons w words ih => rw [offsets, List.length_cons, List.length_cons, ih]

theorem read_offsets {buf tail : Bytes} {off : Nat} {words : List Bytes}
    (hclean : ∀ w ∈ words, 0 ∉ w) (hbuf : buf.drop off = packed words ++ tail) :
    (offsets off words).map (fun off => cstr (buf.drop off)) = words := by
  induction words generalizing off with
  | nil => rfl
  | cons w words ih =>
    obtain ⟨hw, hwords⟩ := List.forall_mem_cons.mp hclean
    have hcons : buf.drop off = w ++ 0 :: (packed words ++ tail) := by
      rw [hbuf]
      simp [packed]
    have hnext : buf.drop (off + w.length + 1) = packed words ++ tail := by
      rw [Nat.add_assoc, ← List.drop_drop, hcons, ← List.singleton_append, ← List.append_assoc,
        List.drop_left' (by simp)]
    rw [offsets, List.map_cons, ih hwords hnext, hcons, cstr, ← before, before_append _ hw]

/-- Finished words, the word that has begun, bytes that were read and are left over, and the text
that is still to be read. -/
structure Inv (value : Bytes) (done : List Bytes) (word : Option Bytes) (rest : Bytes) (s : State) :
    Prop where
  layout : ∃ gap, s.buf = packed done ++ word.getD [] ++ (gap ++ (rest ++ [0])) ∧
    s.write = (packed done ++ word.getD []).length ∧ s.read = s.write + gap.length
  unread : ∃ text, value = text ++ rest ∧ text.length = s.read
  argv : s.argv = offsets 0 (done ++ word.toList)
  clean : ∀ w ∈ done ++ word.toList, 0 ∉ w
  few : (done ++ word.toList).length ≤ HM_ENV_ARG_MAX

theorem inv_start (value : Bytes) : Inv value [] none value (start value) :=
  ⟨⟨[], by simp [start, packed], rfl, rfl⟩, ⟨[], rfl, rfl⟩, rfl, by simp, by simp⟩

theorem Inv.drop_read (h : Inv value done word rest s) : s.buf.drop s.read = rest ++ [0] := by
  obtain ⟨gap, hbuf, hwrite, hread⟩ := h.layout
  rw [hread, hwrite, hbuf, ← List.append_assoc, List.drop_left' (by simp only [List.length_append])]

theorem Inv.peek (h : Inv value done word rest s) : s.peek = rest.headD 0 := by
  have hdrop := congrArg List.head? h.drop_read
  rw [List.head?_drop] at hdrop
  rw [State.peek, List.getD_eq_getElem?_getD, hdrop]
  cases rest <;> rfl

theorem Inv.place (h : Inv value done word rest s) (place : Place) :
    Inv value done word rest { s with place := place } :=
  ⟨h.layout, h.unread, h.argv, h.clean, h.few⟩

theorem Inv.skip (h : Inv value done word (c :: rest) s) : Inv value done word rest s.skip := by
  obtain ⟨gap, hbuf, hwrite, hread⟩ := h.layout
  obtain ⟨text, hvalue, hlen⟩ := h.unread
  refine ⟨⟨gap ++ [c], ?_, hwrite, ?_⟩, ⟨text ++ [c], ?_, ?_⟩, h.argv, h.clean, h.few⟩
  · simpa [State.skip] using hbuf
  · simp only [State.skip, List.length_append, List.length_singleton]
    omega
  · simpa using hvalue
  · simp only [State.skip, List.length_append, List.length_singleton]
    omega

theorem Inv.store (h : Inv value done (some w) (c :: rest) s) (hb : b ≠ 0) :
    Inv value done (some (w ++ [b])) rest (s.store b).skip := by
  obtain ⟨gap, hbuf, hwrite, hread⟩ := h.layout
  obtain ⟨text, hvalue, hlen⟩ := h.unread
  obtain ⟨g, gap', hgap⟩ : ∃ g gap', gap ++ [c] = g :: gap' :=
    List.exists_cons_of_ne_nil (by simp)
  have hlength := congrArg List.length hgap
  have hread' : s.buf = packed done ++ w ++ (g :: gap' ++ (rest ++ [0])) := by
    rw [hbuf, ← hgap]
    simp
  simp only [List.length_append, List.length_cons, List.length_nil, Option.getD_some]
    at hlength hwrite
  refine ⟨⟨gap', ?_, ?_, ?_⟩, ⟨text ++ [c], ?_, ?_⟩, ?_, ?_, ?_⟩
  · simp only [State.skip, State.store, hwrite, hread']
    rw [List.set_append_right _ _ (by simp only [List.length_append]; omega)]
    simp
  · simp only [State.skip, State.store, hwrite, List.length_append, Option.getD_some,
      List.length_singleton]
    omega
  · simp only [State.skip, State.store]
    omega
  · simpa using hvalue
  · simp only [State.skip, State.store, List.length_append, List.length_singleton]
    omega
  · have hargv := h.argv
    rw [Option.toList_some, offsets_concat] at hargv ⊢
    exact hargv
  · intro v hv
    rcases List.mem_append.mp hv with hv | hv
    · exact h.clean v (List.mem_append_left _ hv)
    · rw [Option.toList_some, List.mem_singleton] at hv
      rw [hv, List.mem_append, not_or]
      exact ⟨h.clean w (by simp), by simpa using hb.symm⟩
  · simpa using h.few

theorem Inv.begin (h : Inv value done none rest s) (hroom : s.argv.length ≠ HM_ENV_ARG_MAX) :
    Inv value done (some []) rest { s with argv := s.argv ++ [s.write] } := by
  obtain ⟨gap, hbuf, hwrite, hread⟩ := h.layout
  have hargv := h.argv
  have hfew := h.few
  simp only [Option.toList_none, List.append_nil] at hargv hfew
  rw [hargv, length_offsets] at hroom
  refine ⟨⟨gap, hbuf, hwrite, hread⟩, h.unread, ?_, ?_, ?_⟩
  · rw [Option.toList_some, offsets_concat, hargv, hwrite, Nat.zero_add]
    simp
  · have hclean := h.clean
    simp only [Option.toList_none, List.append_nil] at hclean
    simpa [or_imp, forall_and] using hclean
  · simp only [Option.toList_some, List.length_append, List.length_singleton]
    omega

structure Spent (value : Bytes) (done : List Bytes) (s : State) : Prop where
  layout : ∃ tail, s.buf = packed done ++ tail
  unread : s.buf.drop s.read = [0]
  read : s.read = value.length
  argv : s.argv = offsets 0 done
  clean : ∀ w ∈ done, 0 ∉ w

theorem Inv.close (h : Inv value done (some w) rest s) (hroom : s.write < s.read) :
    Inv value (done ++ [w]) none rest (s.store 0) := by
  obtain ⟨gap, hbuf, hwrite, hread⟩ := h.layout
  obtain ⟨g, gap', rfl⟩ : ∃ g gap', gap = g :: gap' :=
    List.exists_cons_of_ne_nil (by rintro rfl; simp at hread; omega)
  simp only [List.length_append, List.length_cons, Option.getD_some] at hbuf hwrite hread
  refine ⟨⟨gap', ?_, ?_, ?_⟩, h.unread, ?_, ?_, ?_⟩
  · simp only [State.store, hwrite, hbuf]
    rw [List.set_append_right _ _ (by simp only [List.length_append]; omega)]
    simp [packed_concat]
  · simp only [State.store, hwrite, packed_concat, Option.getD_none, List.length_append,
      List.length_cons, List.length_nil]
  · simp only [State.store]
    omega
  · simpa [State.store] using h.argv
  · simpa using h.clean
  · simpa using h.few

/-- The end of the last word can be written over the terminator of the value, with the same byte. -/
theorem Inv.finish (h : Inv value done (some w) [] s) : Spent value (done ++ [w]) (s.store 0) := by
  obtain ⟨gap, hbuf, hwrite, hread⟩ := h.layout
  obtain ⟨text, hvalue, hlen⟩ := h.unread
  have hend : s.read = value.length := by rw [hvalue, List.append_nil, hlen]
  refine ⟨⟨(gap ++ [0]).drop 1, ?_⟩, ?_, hend, by simpa [State.store] using h.argv, by simpa
    using h.clean⟩
  · simp only [State.store, hwrite, hbuf, Option.getD_some, List.nil_append]
    rw [List.set_append_right _ _ (le_refl _), Nat.sub_self, packed_concat]
    cases gap <;> simp
  · have hdrop : s.buf.drop s.read = [0] := h.drop_read
    simp only [State.store, List.drop_set, hdrop]
    split
    · rfl
    · rw [hread]
      simp

end Buffer

section Remaining
variable {done : List Bytes} {word : Option Bytes} {w s : Bytes} {quote : Option UInt8}
  {b c : UInt8}
variable {r : Except Flaw (List Piece)}

theorem scan_escape : scan quote (BACKSLASH :: c :: s) = (scan quote s).map (.byte c :: ·) := by
  rw [scan, if_pos rfl]

theorem scan_cut_escape : scan quote [BACKSLASH] = .error .escape := by rw [scan, if_pos rfl]

theorem scan_open (hb : isQuote b) : scan none (b :: s) = (scan (some b) s).map (.quote :: ·) := by
  have hslash : b ≠ BACKSLASH := by rintro rfl; exact absurd hb (by decide)
  rw [scan.eq_def]
  simp [hslash, hb]

theorem scan_close (hb : isQuote b) : scan (some b) (b :: s) = (scan none s).map (.quote :: ·) := by
  have hslash : b ≠ BACKSLASH := by rintro rfl; exact absurd hb (by decide)
  rw [scan.eq_def]
  simp [hslash]

theorem scan_space (hb : envSpace b) : scan none (b :: s) = (scan none s).map (.space :: ·) := by
  have hslash : b ≠ BACKSLASH := by rintro rfl; exact absurd hb (by decide)
  have hquote : ¬ isQuote b := by
    intro h
    rcases (by simpa [isQuote] using h : b = 39 ∨ b = 34)
      with rfl | rfl <;> exact absurd hb (by decide)
  rw [scan.eq_def]
  simp [hslash, hquote, hb]

theorem scan_byte (hslash : b ≠ BACKSLASH) (hquote : isQuote b → quote ≠ none ∧ quote ≠ some b)
    (hspace : quote = none → ¬ envSpace b) (hkind : ∀ q, quote = some q → isQuote q) :
    scan quote (b :: s) = (scan quote s).map (.byte b :: ·) := by
  have hclose : quote ≠ some b := fun h => (hquote (hkind b h)).2 h
  cases quote with
  | none =>
    have hopen : ¬ isQuote b := fun h => (hquote h).1 rfl
    rw [scan.eq_def]
    simp [hslash, hopen, hspace rfl]
  | some q =>
    rw [scan.eq_def]
    simp [hslash, hclose]

def conclude (done : List Bytes) (word : Option Bytes) : Except Flaw (List Piece) →
    Option (List Bytes)
  | .error _ => none
  | .ok pieces =>
    if (done ++ wordsFrom word pieces).length ≤ HM_ENV_ARG_MAX then
      some (done ++ wordsFrom word pieces)
    else none

theorem envWords_conclude (value : Bytes) :
    envWords value = conclude [] none (scan none value) := by
  unfold envWords conclude
  cases scan none value <;> rfl

theorem conclude_byte :
    conclude done word (r.map (.byte b :: ·)) = conclude done (some (word.getD [] ++ [b])) r := by
  cases r <;> rfl

theorem conclude_quote :
    conclude done word (r.map (.quote :: ·)) = conclude done (some (word.getD [])) r := by
  cases r <;> rfl

theorem conclude_space :
    conclude done word (r.map (.space :: ·)) = conclude (done ++ word.toList) none r := by
  cases r with
  | error _ => rfl
  | ok pieces =>
    have hwords : done ++ wordsFrom word (.space :: pieces) =
        done ++ word.toList ++ wordsFrom none pieces := by
      rw [wordsFrom, List.append_assoc]
    simp only [Except.map, conclude, hwords]

theorem conclude_end :
    conclude done word (scan none []) = conclude (done ++ word.toList) none (scan none []) := by
  simp [conclude, scan, wordsFrom]

theorem wordsFrom_some_ne_nil (w : Bytes) (pieces : List Piece) :
    wordsFrom (some w) pieces ≠ [] := by
  induction pieces generalizing w with
  | nil => simp [wordsFrom]
  | cons piece pieces ih =>
    cases piece with
    | byte b => exact ih _
    | quote => exact ih _
    | space => simp [wordsFrom]

theorem conclude_full (hfull : done.length = HM_ENV_ARG_MAX) : conclude done (some w) r = none := by
  cases r with
  | error _ => rfl
  | ok pieces =>
    have hmore := List.length_pos_iff.mpr (wordsFrom_some_ne_nil w pieces)
    exact if_neg (by rw [List.length_append]; omega)

theorem conclude_begin (hb : ¬ envSpace b) :
    conclude done none (scan none (b :: s)) = conclude done (some []) (scan none (b :: s)) := by
  by_cases hslash : b = BACKSLASH
  · subst hslash
    cases s with
    | nil => rw [scan_cut_escape]; rfl
    | cons c s => rw [scan_escape, conclude_byte, conclude_byte]; rfl
  · by_cases hquote : isQuote b
    · rw [scan_open hquote, conclude_quote, conclude_quote]
      rfl
    · rw [scan_byte hslash (fun h => absurd h hquote) (fun _ => hb) (by simp), conclude_byte,
        conclude_byte]
      rfl

end Remaining

section Run
variable {value rest w : Bytes} {done : List Bytes} {word : Option Bytes} {quote : Option UInt8}
variable {b : UInt8} {s s' : State}

structure Kept (value : Bytes) (s : State) : Prop where
  unread : s.buf.drop s.read = (value ++ [0]).drop s.read
  length : s.buf.length = value.length + 1
  read : s.read ≤ value.length

theorem kept_of_drop (hread : s.read ≤ value.length)
    (hunread : s.buf.drop s.read = (value ++ [0]).drop s.read) : Kept value s := by
  refine ⟨hunread, ?_, hread⟩
  have hlength := congrArg List.length hunread
  simp only [List.length_drop, List.length_append, List.length_cons, List.length_nil] at hlength
  omega

theorem Inv.kept (h : Inv value done word rest s) : Kept value s := by
  obtain ⟨text, hvalue, hlen⟩ := h.unread
  refine kept_of_drop (by rw [hvalue, List.length_append]; omega) ?_
  rw [h.drop_read, hvalue, ← hlen, List.append_assoc, List.drop_left]

theorem Spent.kept (h : Spent value done s) : Kept value s :=
  kept_of_drop (le_of_eq h.read) (by rw [h.unread, h.read, List.drop_left])

theorem Inv.behind (h : Inv value done word rest s) : s.write ≤ s.read := by
  obtain ⟨gap, -, -, hread⟩ := h.layout
  omega

theorem Inv.spent (h : Inv value done none [] s) : Spent value done s := by
  obtain ⟨gap, hbuf, -, -⟩ := h.layout
  obtain ⟨text, hvalue, hlen⟩ := h.unread
  refine ⟨⟨gap ++ [0], by simpa using hbuf⟩, h.drop_read,
    ?_, by simpa using h.argv, by simpa using h.clean⟩
  rw [hvalue, List.append_nil, hlen]

theorem Inv.head_ne (hvalue : 0 ∉ value) (h : Inv value done word (b :: rest) s) : b ≠ 0 := by
  obtain ⟨text, rfl, -⟩ := h.unread
  rintro rfl
  simp at hvalue

/-- What the buffer holds at each place, and what the value and the text still to be read have
to do with each other. -/
inductive Reached (value : Bytes) (s : State) : Prop
  | outer {done : List Bytes} {rest : Bytes} (hplace : s.place = .outer)
    (h : Inv value done none rest s) (hwords : envWords value = conclude done none (scan none rest))
  | spent {done : List Bytes} (hplace : s.place = .outer ∨ s.place = .done (.ok ()))
    (h : Spent value done s) (hwords : envWords value = some done)
  | lead {done : List Bytes} {rest : Bytes} (hplace : s.place = .lead)
    (h : Inv value done none rest s) (hwords : envWords value = conclude done none (scan none rest))
  | word {done : List Bytes} {w rest : Bytes} {quote : Option UInt8}
    (hplace : s.place = .word quote)
      (hkind : ∀ q, quote = some q → isQuote q) (h : Inv value done (some w) rest s)
      (hwords : envWords value = conclude done (some w) (scan quote rest))
  | trail {done : List Bytes} {w rest : Bytes} (hplace : s.place = .trail)
      (hroom : rest = [] ∨ s.write < s.read ∨ envSpace (rest.headD 0))
      (h : Inv value done (some w) rest s)
      (hwords : envWords value = conclude (done ++ [w]) none (scan none rest))
  | failed {text : Bytes} (hplace : s.place = .done (.error text)) (h : Kept value s)
      (hwords : envWords value = none)

theorem Reached.kept (h : Reached value s) : Kept value s := by
  cases h with
  | outer _ h _ => exact h.kept
  | spent _ h _ => exact h.kept
  | lead _ h _ => exact h.kept
  | word _ _ h _ => exact h.kept
  | trail _ _ h _ => exact h.kept
  | failed _ h _ => exact h

theorem Reached.behind (h : Reached value s) :
    (step s).buf = s.buf ∧ (step s).write = s.write ∨ s.write ≤ s.read := by
  cases h with
  | outer _ h _ => exact .inr h.behind
  | spent hplace _ _ =>
    rcases hplace with hplace | hplace
    · exact .inl (by simp [step, hplace])
    · exact .inl (by simp [step, hplace])
  | lead _ h _ => exact .inr h.behind
  | word _ _ h _ => exact .inr h.behind
  | trail _ _ h _ => exact .inr h.behind
  | failed hplace _ _ => exact .inl (by simp [step, hplace])

theorem reached_start (value : Bytes) : Reached value (start value) :=
  .outer rfl (inv_start value) (envWords_conclude value)

def rank (s : State) : Nat :=
  match s.place with
  | .outer => 2
  | .lead => 1
  | .word quote => if s.peek = 0 ∨ quote = none ∧ envSpace s.peek then 4 else 0
  | .trail => 3
  | .done _ => 0

def left (s : State) : Nat := 5 * (s.buf.length - s.read) + rank s

theorem rank_le (s : State) : rank s ≤ 4 := by
  unfold rank
  split
  all_goals first | omega | (split <;> omega)

def Next (value : Bytes) (s s' : State) : Prop :=
  Reached value s' ∧ ((∃ result, s'.place = .done result) ∨ left s' < left s)

theorem left_lt_of_read (hs : Kept value s) (hs' : Kept value s') (hread : s.read < s'.read) :
    left s' < left s := by
  have hrank := rank_le s'
  have hlength := hs.length
  have hlength' := hs'.length
  have hin := hs.read
  unfold left
  omega

theorem next_of_read (hs : Kept value s) (h : Reached value s') (hread : s.read < s'.read) :
    Next value s s' :=
  ⟨h, .inr (left_lt_of_read hs h.kept hread)⟩

theorem conclude_done (hfew : done.length ≤ HM_ENV_ARG_MAX) :
    conclude done none (scan none []) = some done := by
  simp [conclude, scan, wordsFrom, hfew]

theorem next_outer (hvalue : 0 ∉ value) (hplace : s.place = .outer) (h : Inv value done none rest s)
    (hwords : envWords value = conclude done none (scan none rest)) : Next value s (step s) := by
  have hstep : step s = { s with place := if s.peek = 0 then .done (.ok ()) else .lead } := by
    simp only [step, hplace]
  rw [hstep]
  cases rest with
  | nil =>
    rw [h.peek, List.headD_nil, if_pos rfl]
    have hfew : done.length ≤ HM_ENV_ARG_MAX := by simpa using h.few
    exact ⟨.spent (.inr rfl) (h.place _).spent (by rw [hwords, conclude_done hfew]), .inl ⟨_, rfl⟩⟩
  | cons b rest =>
    rw [h.peek, List.headD_cons, if_neg (h.head_ne hvalue)]
    refine ⟨.lead rfl (h.place _) hwords, .inr ?_⟩
    simp [left, rank, hplace]

theorem next_lead (hvalue : 0 ∉ value) (hplace : s.place = .lead) (h : Inv value done none rest s)
    (hwords : envWords value = conclude done none (scan none rest)) : Next value s (step s) := by
  have hargv : s.argv.length = done.length := by
    rw [h.argv, length_offsets, Option.toList_none, List.append_nil]
  have hfew : done.length ≤ HM_ENV_ARG_MAX := by simpa using h.few
  simp only [step, hplace]
  cases rest with
  | nil =>
    rw [h.peek, List.headD_nil, if_neg (by decide), if_pos rfl]
    exact ⟨.spent (.inr rfl) (h.place _).spent (by rw [hwords, conclude_done hfew]), .inl ⟨_, rfl⟩⟩
  | cons b rest =>
    rw [h.peek, List.headD_cons, if_neg (h.head_ne hvalue)]
    by_cases hspace : envSpace b
    · rw [if_pos hspace]
      refine next_of_read h.kept (.lead hplace h.skip ?_) (Nat.lt_succ_self _)
      rw [hwords, scan_space hspace, conclude_space, Option.toList_none, List.append_nil]
    · rw [if_neg hspace]
      have hbegin := hwords.trans (conclude_begin hspace)
      by_cases hfull : s.argv.length = HM_ENV_ARG_MAX
      · rw [if_pos hfull]
        refine ⟨.failed rfl (h.place _).kept ?_, .inl ⟨_, rfl⟩⟩
        rw [hbegin, conclude_full (hargv ▸ hfull)]
      · rw [if_neg hfull]
        have hstays := (h.begin hfull).place (.word none)
        refine ⟨.word rfl (by simp) hstays hbegin, .inr ?_⟩
        have hpeek : State.peek { s with argv := s.argv ++ [s.write], place := .word none } = b :=
          hstays.peek
        simp [left, rank, hplace, hpeek, h.head_ne hvalue, hspace]

theorem next_trail (hplace : s.place = .trail)
    (hroom : rest = [] ∨ s.write < s.read ∨ envSpace (rest.headD 0))
    (h : Inv value done (some w) rest s)
    (hwords : envWords value = conclude (done ++ [w]) none (scan none rest)) :
    Next value s (step s) := by
  have hfew : (done ++ [w]).length ≤ HM_ENV_ARG_MAX := h.few
  have hcloses : left { s.store 0 with place := .outer } < left s := by
    simp [left, rank, hplace, State.store]
  simp only [step, hplace]
  cases rest with
  | nil =>
    rw [h.peek, List.headD_nil, if_neg (by decide)]
    obtain ⟨layout, unread, read, argv, clean⟩ := h.finish
    exact ⟨.spent (.inl rfl) ⟨layout, unread, read, argv, clean⟩
      (by rw [hwords, conclude_done hfew]), .inr hcloses⟩
  | cons b rest =>
    rw [h.peek, List.headD_cons]
    by_cases hspace : envSpace b
    · rw [if_pos hspace]
      have hbehind := h.behind
      refine next_of_read h.kept (.trail hplace (.inr (.inl ?_)) h.skip ?_) (Nat.lt_succ_self _)
      · exact Nat.lt_succ_of_le hbehind
      · rw [hwords, scan_space hspace, conclude_space, Option.toList_none, List.append_nil]
    · rw [if_neg hspace]
      have hroom : s.write < s.read := by
        rcases hroom with hnil | hroom | hhead
        · exact absurd hnil (by simp)
        · exact hroom
        · exact absurd hhead hspace
      exact ⟨.outer rfl ((h.close hroom).place _) hwords, .inr hcloses⟩

theorem step_word (hplace : s.place = .word quote) :
    step s = if s.peek = 0 ∨ quote = none ∧ envSpace s.peek then
      if quote ≠ none then s.fail "hacman: HACMAN contains an unterminated quote\n"
      else { s with place := .trail }
    else if s.peek = BACKSLASH then
      if s.skip.peek = 0 then s.skip.fail "hacman: HACMAN ends with an incomplete escape\n"
      else (s.skip.store s.skip.peek).skip
    else if isQuote s.peek then
      if quote = none then { s.skip with place := .word (some s.peek) }
      else if quote = some s.peek then { s.skip with place := .word none }
      else (s.store s.peek).skip
    else (s.store s.peek).skip := by
  simp only [step, hplace]

theorem next_word_end (hplace : s.place = .word quote) (h : Inv value done (some w) rest s)
    (hwords : envWords value = conclude done (some w) (scan quote rest))
    (hends : rest = [] ∨ quote = none ∧ envSpace (rest.headD 0)) : Next value s (step s) := by
  have hpeek : s.peek = 0 ∨ quote = none ∧ envSpace s.peek := by
    rw [h.peek]
    exact hends.imp (fun hnil => by rw [hnil, List.headD_nil]) id
  rw [step_word hplace, if_pos hpeek]
  cases quote with
  | some q =>
    have hrest : rest = [] := by simpa using hends
    rw [if_pos (by simp)]
    refine ⟨.failed rfl (h.place _).kept ?_, .inl ⟨_, rfl⟩⟩
    rw [hwords, hrest, scan, conclude]
  | none =>
    rw [if_neg (by simp)]
    refine ⟨.trail rfl (hends.imp id fun hspace => .inr hspace.2) (h.place _) ?_, .inr ?_⟩
    · rw [hwords]
      rcases hends with rfl | ⟨-, hspace⟩
      · exact conclude_end
      · cases rest with
        | nil => exact conclude_end
        | cons b rest =>
          rw [List.headD_cons] at hspace
          rw [scan_space hspace, conclude_space, conclude_space, Option.toList_none,
            List.append_nil, Option.toList_some]
    · have hrank : rank s = 4 := by
        simp only [rank, hplace]
        exact if_pos (by simpa using hpeek)
      rw [left, left, hrank]
      exact Nat.add_lt_add_left (by decide : 3 < 4) _

theorem next_word_byte (hvalue : 0 ∉ value) (hplace : s.place = .word quote)
    (hkind : ∀ q, quote = some q → isQuote q) (h : Inv value done (some w) (b :: rest) s)
    (hwords : envWords value = conclude done (some w) (scan quote (b :: rest)))
    (hspace : quote = none → ¬ envSpace b) : Next value s (step s) := by
  have hb := h.head_ne hvalue
  have hpeek : s.peek = b := h.peek
  have hread : s.read < (s.store b).skip.read := Nat.lt_succ_self _
  have hplain (hslash : b ≠ BACKSLASH) (hquote : isQuote b → quote ≠ none ∧ quote ≠ some b) :
      Next value s (s.store b).skip := by
    refine next_of_read h.kept (.word hplace hkind (h.store hb) ?_) hread
    rw [hwords, scan_byte hslash hquote hspace hkind, conclude_byte, Option.getD_some]
  rw [step_word hplace, hpeek, if_neg (by simpa [hb] using hspace)]
  by_cases hslash : b = BACKSLASH
  · rw [if_pos hslash]
    subst hslash
    have hskip := h.skip
    cases rest with
    | nil =>
      rw [hskip.peek, List.headD_nil, if_pos rfl]
      refine ⟨.failed rfl (hskip.place _).kept ?_, .inl ⟨_, rfl⟩⟩
      rw [hwords, scan_cut_escape, conclude]
    | cons c rest =>
      have hc := hskip.head_ne hvalue
      rw [hskip.peek, List.headD_cons, if_neg hc]
      refine next_of_read h.kept (.word hplace hkind (hskip.store hc) ?_) ?_
      · rw [hwords, scan_escape, conclude_byte, Option.getD_some]
      · exact Nat.lt_succ_of_lt (Nat.lt_succ_self s.read)
  · rw [if_neg hslash]
    by_cases hquote : isQuote b
    · rw [if_pos hquote]
      by_cases hopen : quote = none
      · rw [if_pos hopen]
        refine next_of_read h.kept (.word rfl (by simpa using hquote) (h.skip.place _) ?_)
          (Nat.lt_succ_self _)
        rw [hwords, hopen, scan_open hquote, conclude_quote, Option.getD_some]
      · rw [if_neg hopen]
        by_cases hclose : quote = some b
        · rw [if_pos hclose]
          refine next_of_read h.kept (.word rfl (by simp) (h.skip.place _) ?_) (Nat.lt_succ_self _)
          rw [hwords, hclose, scan_close hquote, conclude_quote, Option.getD_some]
        · rw [if_neg hclose]
          exact hplain hslash fun _ => ⟨hopen, hclose⟩
    · rw [if_neg hquote]
      exact hplain hslash fun h => absurd h hquote

theorem Reached.next (hvalue : 0 ∉ value) (h : Reached value s) : Next value s (step s) := by
  cases h with
  | outer hplace h hwords => exact next_outer hvalue hplace h hwords
  | spent hplace h hwords =>
    have hpeek : s.peek = 0 := by
      have hhead := congrArg List.head? h.unread
      rw [List.head?_drop] at hhead
      rw [State.peek, List.getD_eq_getElem?_getD, hhead]
      rfl
    rcases hplace with hplace | hplace
    · simp only [step, hplace, hpeek, if_true]
      exact ⟨.spent (.inr rfl) ⟨h.layout, h.unread, h.read, h.argv, h.clean⟩ hwords, .inl ⟨_, rfl⟩⟩
    · simp only [step, hplace]
      exact ⟨.spent (.inr hplace) h hwords, .inl ⟨_, hplace⟩⟩
  | lead hplace h hwords => exact next_lead hvalue hplace h hwords
  | trail hplace hroom h hwords => exact next_trail hplace hroom h hwords
  | failed hplace h hwords =>
    simp only [step, hplace]
    exact ⟨.failed hplace h hwords, .inl ⟨_, hplace⟩⟩
  | @word done w rest quote hplace hkind h hwords =>
    by_cases hends : rest = [] ∨ quote = none ∧ envSpace (rest.headD 0)
    · exact next_word_end hplace h hwords hends
    · obtain ⟨hrest, hspace⟩ := not_or.mp hends
      obtain ⟨b, rest, rfl⟩ := List.exists_cons_of_ne_nil hrest
      exact next_word_byte hvalue hplace hkind h hwords fun hnone hb => hspace ⟨hnone, hb⟩

/-- Every step keeps the invariant, and after enough steps the run has ended. -/
theorem run (hvalue : 0 ∉ value) (n : Nat) : Reached value (step^[n] (start value)) ∧
    ((∃ result, (step^[n] (start value)).place = .done result) ∨
      left (step^[n] (start value)) + n ≤ left (start value)) := by
  induction n with
  | zero => exact ⟨reached_start value, .inr (le_refl _)⟩
  | succ n ih =>
    obtain ⟨hreached, hleft⟩ := ih
    obtain ⟨hnext, hends⟩ := hreached.next hvalue
    rw [Function.iterate_succ_apply']
    refine ⟨hnext, ?_⟩
    rcases hleft with ⟨result, hdone⟩ | hleft
    · exact .inl ⟨result, by simp only [step, hdone]⟩
    · exact hends.imp id fun hlt => by omega

theorem run_done (hvalue : 0 ∉ value) :
    ∃ result, (step^[steps value] (start value)).place = .done result := by
  rcases (run hvalue (steps value)).2 with hdone | hleft
  · exact hdone
  · simp [left, rank, start, steps] at hleft
    omega

theorem parseEnvWords_toOption (hvalue : 0 ∉ value) (hlen : value.length ≤ HM_ENV_OPTIONS_MAX) :
    (parseEnvWords value).toOption = envWords value := by
  obtain ⟨result, hdone⟩ := run_done hvalue
  rw [parseEnvWords, if_neg (not_lt.mpr hlen)]
  cases (run hvalue (steps value)).1 with
  | outer hplace _ _ => rw [hdone] at hplace; cases hplace
  | lead hplace _ _ => rw [hdone] at hplace; cases hplace
  | word hplace _ _ _ => rw [hdone] at hplace; cases hplace
  | trail hplace _ _ _ => rw [hdone] at hplace; cases hplace
  | @spent done hplace h hwords =>
    rcases hplace with hplace | hplace
    · rw [hdone] at hplace; cases hplace
    · obtain ⟨tail, hbuf⟩ := h.layout
      have hread : (offsets 0 done).map (fun off => cstr
          ((step^[steps value] (start value)).buf.drop off)) = done :=
        read_offsets h.clean (by rw [List.drop_zero, hbuf])
      simp only [hplace, h.argv, hread, hwords, Except.toOption]
  | failed hplace h hwords => simp only [hplace, hwords, Except.toOption]

end Run

section Spelled
variable {done words : List Bytes} {word : Option Bytes} {w rest : Bytes}

def quoted (w : Bytes) : Bytes := if w = [] then [39, 39] else w.flatMap ([BACKSLASH, ·])

def spelled (words : List Bytes) : Bytes := [SPACE].intercalate (words.map quoted)

theorem conclude_escapes (v : Bytes) : conclude done (some v)
    (scan none (w.flatMap ([BACKSLASH, ·]) ++ rest)) =
    conclude done (some (v ++ w)) (scan none rest) := by
  induction w generalizing v with
  | nil => rw [List.flatMap_nil, List.nil_append, List.append_nil]
  | cons b w ih =>
    rw [List.flatMap_cons, List.append_assoc, List.cons_append, List.cons_append,
      List.nil_append, scan_escape,
      conclude_byte, Option.getD_some, ih, List.append_assoc, List.singleton_append]

theorem conclude_quoted : conclude done none (scan none (quoted w ++ rest)) =
    conclude done (some w) (scan none rest) := by
  cases w with
  | nil =>
    rw [quoted, if_pos rfl, List.cons_append, List.cons_append, List.nil_append,
      scan_open (by decide), conclude_quote, scan_close (by decide), conclude_quote]
    rfl
  | cons b w =>
    rw [quoted, if_neg (List.cons_ne_nil b w), List.flatMap_cons, List.append_assoc,
      List.cons_append,
      List.cons_append, List.nil_append, scan_escape, conclude_byte, conclude_escapes]
    rfl

theorem spelled_cons (w : Bytes) (hwords : words ≠ []) :
    spelled (w :: words) = quoted w ++ SPACE :: spelled words := by
  obtain ⟨v, words, rfl⟩ := List.exists_cons_of_ne_nil hwords
  simp [spelled, List.intercalate]

theorem conclude_spelled : conclude done none (scan none (spelled words)) =
    conclude (done ++ words) none (scan none []) := by
  induction words generalizing done with
  | nil => simp [spelled, List.intercalate]
  | cons w words ih =>
    by_cases hwords : words = []
    · have hquoted : spelled [w] = quoted w ++ [] := by simp [spelled, List.intercalate]
      rw [hwords, hquoted, conclude_quoted, conclude_end, Option.toList_some]
    · rw [spelled_cons w hwords, conclude_quoted, scan_space (by decide), conclude_space, ih,
        Option.toList_some, List.append_assoc, List.singleton_append]

theorem quoted_clean (hw : 0 ∉ w) : 0 ∉ quoted w := by
  unfold quoted
  split
  · decide
  · intro h
    obtain ⟨b, hb, hmem⟩ := List.mem_flatMap.mp h
    rcases List.mem_cons.mp hmem with hslash | hmem
    · exact absurd hslash (by decide)
    · exact hw (List.mem_singleton.mp hmem ▸ hb)

theorem spelled_clean (hclean : ∀ w ∈ words, 0 ∉ w) : 0 ∉ spelled words := by
  induction words with
  | nil => decide
  | cons w words ih =>
    obtain ⟨hw, hwords⟩ := List.forall_mem_cons.mp hclean
    by_cases hnil : words = []
    · rw [hnil]
      simpa [spelled, List.intercalate] using quoted_clean hw
    · rw [spelled_cons w hnil, List.mem_append, List.mem_cons]
      rintro (h | h | h)
      · exact quoted_clean hw h
      · exact absurd h (by decide)
      · exact ih hwords h

theorem parseEnvWords_spelled (hclean : ∀ w ∈ words, 0 ∉ w) (hfew : words.length ≤ HM_ENV_ARG_MAX)
    (hfits : (spelled words).length ≤ HM_ENV_OPTIONS_MAX) : parseEnvWords (spelled words) =
    .ok words := by
  have hparse := parseEnvWords_toOption (spelled_clean hclean) hfits
  rw [envWords_conclude, conclude_spelled, List.nil_append, conclude_done hfew] at hparse
  cases h : parseEnvWords (spelled words) with
  | ok ws => simpa [h, Except.toOption] using hparse
  | error text => simp [h, Except.toOption] at hparse

/-- The words read from the buffer that is rewritten are those of the definition, no step of the
way writes over what has not been read, and every few words can be spelled. -/
theorem option_words {value : Bytes} (hvalue : 0 ∉ value)
    (hlen : value.length ≤ HM_ENV_OPTIONS_MAX) : (parseEnvWords value).toOption = envWords value ∧
    (∀ n, let s := step^[n] (start value)
      Kept value s ∧ ((step s).buf = s.buf ∧ (step s).write = s.write ∨ s.write ≤ s.read)) ∧
    ∀ words : List Bytes, (∀ w ∈ words, 0 ∉ w) → words.length ≤ HM_ENV_ARG_MAX →
      (spelled words).length ≤ HM_ENV_OPTIONS_MAX → parseEnvWords (spelled words) = .ok words := by
  refine ⟨parseEnvWords_toOption hvalue hlen, fun n => ?_, fun words => parseEnvWords_spelled⟩
  have hreached := (run hvalue n).1
  exact ⟨hreached.kept, hreached.behind⟩

theorem option_words_quoted : (0 : UInt8) ∉ ascii "--cache 'a b'\\ c\"\" '' " ∧
    (ascii "--cache 'a b'\\ c\"\" '' ").length ≤ HM_ENV_OPTIONS_MAX ∧
    (parseEnvWords (ascii "--cache 'a b'\\ c\"\" '' ")).toOption =
      envWords (ascii "--cache 'a b'\\ c\"\" '' ") ∧
    parseEnvWords (spelled [ascii "a 'b", [], ascii "\\"]) = .ok [ascii "a 'b", [], ascii "\\"] :=
  have hclean : (0 : UInt8) ∉ ascii "--cache 'a b'\\ c\"\" '' " := by decide
  have hlen : (ascii "--cache 'a b'\\ c\"\" '' ").length ≤ HM_ENV_OPTIONS_MAX := by decide
  ⟨hclean, hlen, (option_words hclean hlen).1,
    (option_words hclean hlen).2.2 [ascii "a 'b", [],
      ascii "\\"] (by decide) (by decide) (by decide)⟩

end Spelled

end Hacman.Words
