import Hacman.Cache
import Hacman.Reading

/-!
# Reading a record back

`hm_cache_load` fills a buffer read by read and stops early once two lines are there.
Whatever it is served, it comes to the parse of the file's first 4095 bytes, and a
record that was saved comes back under its own identity only.
-/

namespace Hacman.RecordFile
open Octets Util Cache Reading

section Fill

inductive Status | reading | done | failed (reason : Bytes)
  deriving DecidableEq, Repr

/-- `record_buf` with `total` bytes in it. -/
structure Fill where
  buf : Bytes := []
  status : Status := .reading
  deriving DecidableEq, Repr

def twoLines (buf : Bytes) : Bool := LF ∈ buf && LF ∈ after LF buf

def Fill.read (s : Fill) : Answer UInt8 Bytes → Fill
  | .interrupted => s
  | .failed reason => { s with status := .failed reason }
  | .data [] => { s with status := .done }
  | .data chunk =>
    let buf := s.buf ++ chunk
    { buf := buf
      status := if HM_RECORD_MAX ≤ buf.length + 1 || twoLines buf then .done else .reading }

def fill : Reader UInt8 Bytes Fill where
  room s := if s.status = .reading then some (HM_RECORD_MAX - s.buf.length - 1) else none
  step s a := if s.status = .reading then s.read a else s

theorem fill_stops : fill.Stops where
  stays s a h := by
    have hs : s.status ≠ .reading := fun hs => by simp [fill, hs] at h
    simp [fill, hs]
  ends s := by
    by_cases hs : s.status = .reading <;> simp [fill, Fill.read, hs]

/-- What is in the buffer, and what a stopped reader has seen of its file. -/
structure Filled (content : Bytes) (s : Fill) (rest : Bytes) : Prop where
  whole : s.buf ++ rest = content
  fits : s.buf.length < HM_RECORD_MAX
  clean : ∀ reason, s.status ≠ .failed reason
  short : s.status = .reading → s.buf.length + 1 < HM_RECORD_MAX ∧ twoLines s.buf = false
  enough : s.status = .done →
    s.buf = content.take (HM_RECORD_MAX - 1) ∨ twoLines s.buf = true

theorem Filled.step {content : Bytes} {s : Fill} {stream left : Bytes} {room : Nat}
    {a : Answer UInt8 Bytes} (h : Filled content s stream) (hroom : fill.room s = some room)
    (hgives : Gives stream room a left) : Filled content (fill.step s a) left := by
  have hs : s.status = .reading := by
    by_contra hs
    simp [fill, hs] at hroom
  have hfits := h.fits
  have hmax : HM_RECORD_MAX = 4096 := rfl
  simp only [fill, hs, ↓reduceIte, Option.some.injEq] at hroom
  simp only [fill, hs, ↓reduceIte]
  cases hgives with
  | interrupted => exact h
  | @data chunk rest _ hchunk hends =>
    cases chunk with
    | nil =>
      obtain rfl := hends rfl
      refine ⟨h.whole, hfits, fun _ => nofun, nofun, fun _ => .inl ?_⟩
      have hbuf : s.buf = content := by simpa using h.whole
      change s.buf = content.take (HM_RECORD_MAX - 1)
      rw [← hbuf, List.take_of_length_le (by omega)]
    | cons b chunk =>
      have hlen : (s.buf ++ b :: chunk).length < HM_RECORD_MAX := by
        simp only [List.length_append]
        omega
      refine ⟨?_, hlen, fun reason => ?_, fun hreading => ?_, fun hdone => ?_⟩
      · simpa [Fill.read] using h.whole
      · simp only [Fill.read]
        split_ifs <;> nofun
      · simp only [Fill.read] at hreading ⊢
        split_ifs at hreading with hstop
        rw [Bool.not_eq_true, Bool.or_eq_false_iff, decide_eq_false_iff_not, not_le] at hstop
        exact hstop
      · simp only [Fill.read] at hdone ⊢
        by_cases hstop : (HM_RECORD_MAX ≤ (s.buf ++ b :: chunk).length + 1 ||
            twoLines (s.buf ++ b :: chunk)) = true
        · rw [Bool.or_eq_true, decide_eq_true_eq] at hstop
          refine hstop.imp_left fun hfull => ?_
          rw [← h.whole, ← List.append_assoc, List.take_append_of_le_length (by omega),
            List.take_of_length_le (by omega)]
        · rw [if_neg hstop] at hdone
          cases hdone

theorem Filled.start (content : Bytes) : Filled content {} content where
  whole := rfl
  fits := by decide
  clean reason h := by cases h
  short _ := ⟨by decide, rfl⟩
  enough h := by cases h

theorem Filled.asks {content rest : Bytes} {s : Fill} {room : Nat} (h : Filled content s rest)
    (hroom : fill.room s = some room) : 0 < room := by
  have hs : s.status = .reading := by
    by_contra hs
    simp [fill, hs] at hroom
  have hfits := (h.short hs).1
  simp only [fill, hs, ↓reduceIte, Option.some.injEq] at hroom
  omega

theorem fill_filled {content rest : Bytes} {answers : List (Answer UInt8 Bytes)}
    (h : Serves fill {} content answers rest) : Filled content (fill.run {} answers) rest :=
  h.invariant (I := Filled content) (.start content) fun _ _ _ _ _ hI => hI.step

end Fill

section Parse

theorem parseRecord_prefix (identity : Bytes) {buf : Bytes} (rest : Bytes)
    (h : twoLines buf = true) : parseRecord identity (buf ++ rest) = parseRecord identity buf := by
  simp only [twoLines, Bool.and_eq_true, decide_eq_true_eq] at h
  obtain ⟨hfirst, hsecond⟩ := h
  have hbuf : buf = before LF buf ++ LF :: after LF buf := (before_after hfirst).symm
  have hline : after LF buf = before LF (after LF buf) ++ LF :: after LF (after LF buf) :=
    (before_after hsecond).symm
  have hb : before LF (buf ++ rest) = before LF buf := by
    conv_lhs => rw [hbuf, List.append_assoc]
    exact before_append _ (notMem_before LF buf)
  have ha : after LF (buf ++ rest) = after LF buf ++ rest := by
    conv_lhs => rw [hbuf, List.append_assoc]
    exact after_append _ (notMem_before LF buf)
  have hl : before LF (after LF buf ++ rest) = before LF (after LF buf) := by
    conv_lhs => rw [hline, List.append_assoc]
    exact before_append _ (notMem_before LF _)
  have hmem : LF ∈ buf ++ rest := List.mem_append_left rest hfirst
  rw [parseRecord, parseRecord, if_neg (not_not.mpr hmem), if_neg (not_not.mpr hfirst), hb, ha, hl]

/-- `hm_cache_load` writes into a struct that may hold an older record. -/
def parseInto (identity buf : Bytes) (r : Record) : Record :=
  if LF ∉ buf then r
  else
    let line := before LF buf
    if !HM_CACHE_MAGIC.isPrefixOf line then r
    else if line.drop HM_CACHE_MAGIC.length ≠ identity then r
    else
      let line := before LF (after LF buf)
      { r with
        lastCheck := parseEpoch (before TAB line)
        lastChange := parseEpoch (before TAB (after TAB line))
        mark := cstr (hmStrCopy (HM_MARK_MAX + 1) (before TAB (after TAB (after TAB line))))
        known := true }

def clear (r : Record) : Record :=
  { r with mark := [], lastCheck := 0, lastChange := 0, known := false }

theorem parseInto_clear (identity buf : Bytes) (r : Record) :
    parseInto identity buf (clear r) = parseRecord identity buf := rfl

inductive Opened
  | absent
  | refused (reason : Bytes)
  | opened (answers : List (Answer UInt8 Bytes))

structure Loaded where
  rc : Int
  record : Record
  err : Option Bytes := none
  deriving DecidableEq, Repr

/-- `hm_cache_load`; nothing while it still waits for a read. -/
def loadInto (c : Slot) (r : Record) : Opened → Option Loaded
  | .absent => some { rc := 0, record := clear r }
  | .refused reason => some
    { rc := -1, record := clear r,
      err := message "hacman: %s: cannot read cache record: %s\n" [.str c.path, .str reason] }
  | .opened answers =>
    let s := fill.run {} answers
    match s.status with
    | .reading => none
    | .failed reason => some
      { rc := -1, record := clear r,
        err := message "hacman: %s: read failed: %s\n" [.str c.path, .str reason] }
    | .done => some { rc := 0, record := parseInto c.identity s.buf (clear r) }

theorem Filled.parse {content rest : Bytes} {s : Fill} (h : Filled content s rest)
    (identity : Bytes)
    (hs : s.status = .done) : parseRecord identity s.buf = hmCacheLoad identity (some content) := by
  rw [hmCacheLoad]
  rcases h.enough hs with hbuf | htwo
  · rw [hbuf]
  · have hfits := h.fits
    rw [← h.whole, List.take_append, List.take_of_length_le (by omega),
      parseRecord_prefix identity _ htwo]

/-- However a file is served, a load that has stopped has come to the record in it. -/
theorem loadInto_stopped (c : Slot) (r : Record) {content rest : Bytes}
    {answers : List (Answer UInt8 Bytes)} (h : Serves fill {} content answers rest)
    (hstopped : fill.room (fill.run {} answers) = none) : loadInto c r (.opened answers) =
      some { rc := 0, record := hmCacheLoad c.identity (some content) } := by
  have hfilled := fill_filled h
  simp only [loadInto]
  generalize fill.run {} answers = s at hfilled hstopped ⊢
  cases hs : s.status with
  | reading => simp [fill, hs] at hstopped
  | failed reason => exact absurd hs (hfilled.clean reason)
  | done => simp only [parseInto_clear, hfilled.parse c.identity hs]

theorem twoLines_recordBytes {identity : Bytes} {r : Record} (hid : LF ∉ identity)
    (hlen : identity.length ≤ HM_IDENTITY_MAX) (hmark : r.mark.length ≤ HM_MARK_MAX) :
    twoLines (recordBytes identity r) = true := by
  have hmagic : LF ∉ HM_CACHE_MAGIC := by decide
  have hhead : LF ∉ HM_CACHE_MAGIC ++ identity := by simp [hmagic, hid]
  have heq : recordBytes identity r = (HM_CACHE_MAGIC ++ identity) ++ LF ::
      (decimal r.lastCheck ++ [TAB] ++ decimal r.lastChange ++ [TAB] ++
        r.mark.map cleanByte ++ [LF]) := by
    rw [recordBytes_eq hlen hmark]
    simp
  rw [twoLines, heq, after_append _ hhead]
  simp

theorem fill_served {identity : Bytes} {r : Record} (hid : LF ∉ identity)
    (hlen : identity.length ≤ HM_IDENTITY_MAX) (hmark : r.mark.length ≤ HM_MARK_MAX)
    {answers : List (Answer UInt8 Bytes)} (h : Serves fill {} (recordBytes identity r) answers []) :
    fill.room (fill.run {} answers) = none := by
  have hfilled := fill_filled h
  generalize fill.run {} answers = s at hfilled ⊢
  have hbuf : s.buf = recordBytes identity r := by simpa using hfilled.whole
  by_cases hs : s.status = .reading
  · have htwo := (hfilled.short hs).2
    rw [hbuf, twoLines_recordBytes hid hlen hmark] at htwo
    cases htwo
  · simp [fill, hs]

def Plain (mark : Bytes) : Prop := ∀ b ∈ mark, b ≠ 0 ∧ b ≠ TAB ∧ b ≠ CR ∧ b ≠ LF

theorem Plain.kept {mark : Bytes} (h : Plain mark) : cstr (mark.map cleanByte) = mark := by
  have hfield : OneField mark := fun b hb => ⟨(h b hb).2.1, (h b hb).2.2.2, (h b hb).2.2.1⟩
  rw [map_cleanByte_eq_self.mpr hfield]
  exact cstr_of_notMem fun h₀ => (h 0 h₀).1 rfl

/-- A saved record is loaded again under its own identity, and under no other: once it is served
in full, and before it has been read more often than it has bytes to give; until then more is
asked for. -/
theorem record_codec {identity : Bytes} {r : Record} (hid : LF ∉ identity)
    (hlen : identity.length ≤ HM_IDENTITY_MAX) (hmark : r.mark.length ≤ HM_MARK_MAX)
    (hplain : Plain r.mark) (hcheck : 0 ≤ r.lastCheck ∧ r.lastCheck ≤ LONG_MAX)
    (hchange : 0 ≤ r.lastChange ∧ r.lastChange ≤ LONG_MAX) (c : Slot) (old : Record)
    {answers : List (Answer UInt8 Bytes)} {rest : Bytes}
    (h : Serves fill {} (recordBytes identity r) answers rest) :
    (fill.room (fill.run {} answers) = none → loadInto c old (.opened answers) =
      some { rc := 0, record := if identity = c.identity then { r with known := true } else {} }) ∧
    (rest = [] → fill.room (fill.run {} answers) = none) ∧
    ∀ room, fill.room (fill.run {} answers) = some room →
      0 < room ∧ answers.countP Answer.isData + rest.length ≤ (recordBytes identity r).length := by
  have hload : hmCacheLoad c.identity (some (recordBytes identity r)) =
      if identity = c.identity then { r with known := true } else {} := by
    rw [load_recordBytes hid hlen hmark, parseEpoch_decimal hcheck.2, parseEpoch_decimal hchange.2,
      hplain.kept, max_eq_left hcheck.1, max_eq_left hchange.1]
  refine ⟨fun hstopped => ?_, ?_, fun room hroom => ⟨(fill_filled h).asks hroom, ?_⟩⟩
  · rw [← hload]
    exact loadInto_stopped c old h hstopped
  · rintro rfl
    exact fill_served hid hlen hmark h
  · exact h.progress fill_stops (Option.ne_none_iff_exists'.mpr ⟨room, hroom⟩)

def sampleSlot (identity : Bytes) : Slot := ⟨[], identity, ascii "/c/url-00", []⟩

def sampleRecord : Record := { mark := ascii "\"v1\"", lastCheck := 0, lastChange := LONG_MAX }

def sampleHead : Bytes := ascii "#hacman-cache 1 siml:0 hac"

def sampleTail : Bytes := ascii "man:1\n0\t9223372036854775807\t\"v1\"\n"

theorem record_codec_cut :
    loadInto (sampleSlot (ascii "siml:0 hacman:1")) { mark := ascii "old", known := true }
        (.opened [.data sampleHead, .interrupted, .data sampleTail]) =
      some { rc := 0, record := { sampleRecord with known := true } } ∧
    loadInto (sampleSlot (ascii "siml:0 hacman:10")) { mark := ascii "old", known := true }
        (.opened [.data sampleHead, .interrupted, .data sampleTail]) =
      some { rc := 0, record := {} } := by
  have hbytes : recordBytes (ascii "siml:0 hacman:1") sampleRecord =
      sampleHead ++ (sampleTail ++ []) := by decide +kernel
  have hserves : Serves fill {} (recordBytes (ascii "siml:0 hacman:1") sampleRecord)
      [.data sampleHead, .interrupted, .data sampleTail] [] := by
    rw [hbytes]
    exact .cons rfl (.data (by decide) nofun) (.cons rfl .interrupted
      (.cons rfl (.data (by decide) nofun) .nil))
  have hplain : Plain sampleRecord.mark := by
    intro b hb
    have hall : sampleRecord.mark.all fun b => b != 0 && b != TAB && b != CR && b != LF := by decide
    simpa [and_assoc] using List.all_eq_true.mp hall b hb
  have hload := fun c => (record_codec (by decide) (by decide) (by decide) hplain (by decide)
    (by decide) c { mark := ascii "old", known := true } hserves).1 (by decide +kernel)
  exact ⟨hload _, hload _⟩

end Parse

section Chunks

end Chunks

end Hacman.RecordFile
