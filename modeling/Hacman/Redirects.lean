import Hacman.Check

/-!
# The headers of a redirect chain

curl prints one block of header lines for each hop, with a blank line after it. The last
block describes the resource; the search for a header does not see the blocks.
-/

namespace Hacman.Redirects
open Octets Util Main Check

section Blocks

def outputLines (output : Bytes) : List Bytes :=
  (fields LF output).map fun line => line.rdropWhile (· = CR)

def headerValue (name line : Bytes) : Option Bytes :=
  if COLON ∈ line ∧ (before COLON line).map lowerByte = name then
    some (trim isBlank (after COLON line))
  else none

def lastValue (name : Bytes) (lines : List Bytes) : Option Bytes :=
  (lines.filterMap (headerValue name)).getLast?

def body (lines : List Bytes) : List Bytes := lines.rdropWhile (· = [])

def finalBlock (lines : List Bytes) : List Bytes := (body lines).rtakeWhile (· ≠ [])

def earlierBlocks (lines : List Bytes) : List Bytes := (body lines).rdropWhile (· ≠ [])

def ETAG : Bytes := ascii "etag"
def LAST_MODIFIED : Bytes := ascii "last-modified"

def blockValidator (lines : List Bytes) : Option Bytes :=
  (lastValue ETAG lines).orElse fun _ => lastValue LAST_MODIFIED lines

/-- The verdict is about the final block alone. -/
def Final (output : Bytes) : Except Bytes CheckResult → Prop
  | .ok res => ∃ v, blockValidator (finalBlock (outputLines output)) = some v ∧ res.mark = stored v
  | .error _ => blockValidator (finalBlock (outputLines output)) = none

end Blocks

section Search
variable {name line : Bytes} {lines lines' : List Bytes}

theorem lowerByte_colon {ch : UInt8} : lowerByte ch = COLON ↔ ch = COLON := by
  unfold lowerByte COLON
  simp only [Bool.and_eq_true, decide_eq_true_eq, UInt8.le_iff_toNat_le]
  split_ifs with h
  · simp only [← UInt8.toNat_inj, UInt8.toNat_add, UInt8.toNat_sub, UInt8.reduceToNat] at h ⊢
    omega
  · rfl

theorem ciPrefix_colon (hname : COLON ∉ name) :
    ciPrefix (name ++ [COLON]) line = true ↔
      COLON ∈ line ∧ (before COLON line).map lowerByte = name := by
  rw [ciPrefix, List.isPrefixOf_iff_prefix]
  constructor
  · rintro ⟨rest, hrest⟩
    rw [List.append_assoc] at hrest
    obtain ⟨start, stop, rfl, hstart, hstop⟩ := List.map_eq_append_iff.mp hrest.symm
    obtain ⟨ch, stop, rfl, hch, -⟩ := List.map_eq_cons_iff.mp hstop
    obtain rfl := lowerByte_colon.mp hch
    have hfree : COLON ∉ start := fun hm => by
      apply hname
      rw [← hstart, ← lowerByte_colon.mpr rfl]
      exact List.mem_map_of_mem hm
    refine ⟨by simp, ?_⟩
    rw [before_append _ hfree]
    exact hstart
  · rintro ⟨hm, rfl⟩
    refine ⟨(after COLON line).map lowerByte, ?_⟩
    conv_rhs => rw [← before_after hm]
    rw [List.map_append, List.map_cons, lowerByte_colon.mpr rfl, List.append_assoc]
    rfl

theorem headerValue_eq (hname : COLON ∉ name) (found : Option Bytes) :
    (if ciPrefix (name ++ [COLON]) line then
        some (trim isBlank (line.drop (name ++ [COLON]).length)) else found) =
      (headerValue name line).or found := by
  unfold headerValue
  by_cases h : COLON ∈ line ∧ (before COLON line).map lowerByte = name
  · rw [if_pos ((ciPrefix_colon hname).mpr h), if_pos h, Option.some_or]
    have hlen : (before COLON line).length = name.length := by rw [← h.2, List.length_map]
    have hdrop : line.drop (name ++ [COLON]).length = after COLON line := by
      calc line.drop (name ++ [COLON]).length
        _ = (before COLON line ++ COLON :: after COLON line).drop
              ((before COLON line).length + 1) := by
            rw [before_after h.1, hlen, List.length_append, List.length_singleton]
        _ = after COLON line := by
            rw [← List.drop_drop, List.drop_left]
            rfl
    rw [hdrop]
  · rw [if_neg fun hpre => h ((ciPrefix_colon hname).mp hpre), if_neg h, Option.none_or]

theorem lastValue_append : lastValue name (lines ++ lines') =
    (lastValue name lines').or (lastValue name lines) := by
  simp only [lastValue, List.filterMap_append, List.getLast?_append]

theorem fields_eq (sep : UInt8) (xs : Bytes) :
    fields sep xs = before sep xs :: if sep ∈ xs then fields sep (after sep xs) else [] := by
  induction xs with
  | nil => rfl
  | cons x xs ih =>
    by_cases hx : x = sep
    · simp [fields, before, after, hx]
    · simp [fields, before, after, hx, ih, Ne.symm hx]

theorem lastHeaderFrom_eq (hname : COLON ∉ name) (fuel : Nat) {buf : Bytes} (h : buf.length ≤ fuel)
    (found : Option Bytes) : lastHeaderFrom (name ++ [COLON]) fuel buf found =
      (lastValue name (outputLines buf)).or found := by
  have hblank : headerValue name [] = none := rfl
  induction fuel generalizing buf found with
  | zero =>
    rw [List.length_eq_zero_iff.mp (Nat.le_zero.mp h)]
    rfl
  | succ fuel ih =>
    unfold lastHeaderFrom
    by_cases hbuf : buf = []
    · rw [hbuf]
      rfl
    · rw [if_neg hbuf]
      dsimp only
      have hshort : (after LF buf).length ≤ fuel := by
        have hle := List.length_dropWhile_le (· ≠ LF) buf
        rw [after, List.length_tail]
        omega
      have hhead : ∀ line, lastValue name [line] = headerValue name line := fun line => by
        cases hv : headerValue name line <;> simp [lastValue, hv]
      rw [headerValue_eq hname, ih hshort, ← Option.or_assoc, ← hhead, ← lastValue_append]
      unfold outputLines
      rw [fields_eq LF buf]
      split_ifs with hlf
      · rfl
      · rw [after_of_notMem hlf]
        exact congrArg (Option.or · found) (lastValue_append.trans (Option.none_or ..))

theorem lastHeader_eq (hname : COLON ∉ name) (buf : Bytes) :
    lastHeader buf (name ++ [COLON]) = lastValue name (outputLines buf) := by
  rw [lastHeader, lastHeaderFrom_eq hname _ le_rfl, Option.or_none]

theorem lastValue_blank (h : ∀ line ∈ lines, line = []) : lastValue name lines = none := by
  have hnone : lines.filterMap (headerValue name) = [] := by
    simp only [List.filterMap_eq_nil_iff]
    intro line hl
    rw [h line hl]
    rfl
  rw [lastValue, hnone]
  rfl

theorem lastHeader_blocks (hname : COLON ∉ name) (buf : Bytes) :
    lastHeader buf (name ++ [COLON]) = (lastValue name (finalBlock (outputLines buf))).or
      (lastValue name (earlierBlocks (outputLines buf))) := by
  have hsplit : outputLines buf = body (outputLines buf) ++ (outputLines buf).rtakeWhile (· = []) :=
    List.rdropWhile_append_rtakeWhile.symm
  have hblank : lastValue name ((outputLines buf).rtakeWhile (· = [])) = none :=
    lastValue_blank fun line hl => by simpa using List.mem_rtakeWhile_imp hl
  rw [lastHeader_eq hname]
  conv_lhs => rw [hsplit]
  rw [lastValue_append, hblank, Option.none_or]
  have hjoin : body (outputLines buf) =
      earlierBlocks (outputLines buf) ++ finalBlock (outputLines buf) :=
    List.rdropWhile_append_rtakeWhile.symm
  rw [hjoin, lastValue_append]

end Search

section Verdict
variable {curl : Bytes} {xxh3 : Bytes → UInt64} {p : Project} {timeoutSecs : Int}
  {response : List Bytes → CurlRun} {output : Bytes}

theorem validator_eq : validator p output =
    match ((lastValue ETAG (finalBlock (outputLines output))).or
        (lastValue ETAG (earlierBlocks (outputLines output)))).orElse fun _ =>
      (lastValue LAST_MODIFIED (finalBlock (outputLines output))).or
        (lastValue LAST_MODIFIED (earlierBlocks (outputLines output))) with
    | some v => .ok v
    | none => .error (message "hacman: %S: response has no ETag or Last-Modified header; use 'check: hash' or 'check: version'\n"
        [.slice p.name]) := by
  rw [← lastHeader_blocks (by decide), ← lastHeader_blocks (by decide)]
  rfl

/-- The final block has an ETag; or no block has one, and the Last-Modified is the final
block's own or missing everywhere; or an ETag of an earlier hop is, as it is stored, the
text of the final Last-Modified. -/
def Sheltered (output : Bytes) : Prop :=
  let final := finalBlock (outputLines output)
  let earlier := earlierBlocks (outputLines output)
  lastValue ETAG final ≠ none ∨
    (lastValue ETAG earlier = none ∧
      (lastValue LAST_MODIFIED final ≠ none ∨ lastValue LAST_MODIFIED earlier = none)) ∨
    ∃ e m, lastValue ETAG earlier = some e ∧ lastValue LAST_MODIFIED final = some m ∧
      stored e = stored m

theorem final_judge (hcheck : p.check = .etag) :
    Final output (judge xxh3 p output) ↔ Sheltered output := by
  unfold judge extract Final blockValidator Sheltered
  simp only [hcheck]
  rw [validator_eq]
  cases he : lastValue ETAG (finalBlock (outputLines output)) with
  | some e => simp
  | none =>
    cases hf : lastValue ETAG (earlierBlocks (outputLines output)) with
    | some f =>
      cases lastValue LAST_MODIFIED (finalBlock (outputLines output)) <;> simp
    | none =>
      cases lastValue LAST_MODIFIED (finalBlock (outputLines output)) with
      | some m => simp
      | none => cases lastValue LAST_MODIFIED (earlierBlocks (outputLines output)) <;> simp

/-- A check of the headers that curl delivers speaks about the final block if and only if
no validator of an earlier hop shows through. -/
theorem final_block_decides (hcheck : p.check = .etag) (hurl : p.url.length ≤ HM_URL_MAX)
    (hrun : runCurl curl (response (curlArgv curl (cstr (hmStrCopy (HM_URL_MAX + 1) p.url)) true
      timeoutSecs)) = some (.ok output)) :
    (∃ result, hmCheck curl xxh3 p timeoutSecs response = some result ∧ Final output result) ↔
      Sheltered output := by
  have hjudge : hmCheck curl xxh3 p timeoutSecs response = some (judge xxh3 p output) := by
    unfold hmCheck
    rw [if_neg (Nat.not_lt.mpr hurl)]
    simp only [hcheck, decide_true, hrun]
  rw [hjudge, ← @final_judge xxh3 p output hcheck]
  simp only [Option.some.injEq, exists_eq_left']

def headerProject : Project := { url := ascii "u", check := .etag }

def prints (output : Bytes) (_ : List Bytes) : CurlRun :=
  .forked [.ready (some (.data output)) (some (.data [])), .ready (some (.data [])) none]
    (.exited 0)

def taggedChain : Bytes :=
  ascii "HTTP/1.1 302 Found\r\nETag: a\r\n\r\nHTTP/1.1 200 OK\r\nETag: b\r\n\r\n"

theorem final_block_decides_tagged : ∃ result,
    hmCheck (ascii "curl") (fun _ => 0) headerProject 15 (prints taggedChain) = some result ∧
      Final taggedChain result :=
  (final_block_decides rfl (by decide) (by decide +kernel)).mpr (.inl (by decide +kernel))

def datedChain : Bytes :=
  ascii "HTTP/1.1 302 Found\r\nETag: a\r\n\r\nHTTP/1.1 200 OK\r\nLast-Modified: m\r\n\r\n"

theorem earlier_tag_wins : ∃ res,
    hmCheck (ascii "curl") (fun _ => 0) headerProject 15 (prints datedChain) = some (.ok res) ∧
      ¬ Final datedChain (.ok res) := by
  refine ⟨{ mark := ascii "a" }, by decide +kernel, ?_⟩
  rintro ⟨v, hv, hmark⟩
  have hfinal : blockValidator (finalBlock (outputLines datedChain)) = some (ascii "m") := by
    decide +kernel
  obtain rfl := Option.some.inj (hfinal.symm.trans hv)
  exact absurd hmark (by decide +kernel)

end Verdict

end Hacman.Redirects
