import Hacman.Util

/-!
# Cache slots and records

A slot is derived from the selected directory by appenders that stop at the
capacity of their buffer. A record is two lines: the magic with the identity, then
the two times and the marker. Encoder and decoder are the source's own loops; the
codec theorem at the end is what the histories and the locking results read.
-/

namespace Hacman.Cache
open Octets Util

/-- The digits of a `long`; negative values print as zero. -/
def decimal (v : Int) : Bytes := (revDigits 24 v.toNat).reverse

def HM_CACHE_MAGIC : Bytes := ascii "#hacman-cache 1 "

/-- A digest that tells short texts apart. -/
def polynomial (text : Bytes) : UInt64 := text.foldl (fun h b => h * 31 + b.toUInt64) 0

section Appenders
variable (cap : Nat)

/-- Appends, replacing anything that would break the record layout. -/
def appendClean : Bytes → Bytes → Bytes
  | dst, [] => dst
  | dst, ch :: s =>
    if dst.length + 1 < cap then
      appendClean (dst ++ [if ch = TAB ∨ ch = LF ∨ ch = CR then SPACE else ch]) s
    else dst

def appendStr : Bytes → Bytes → Bytes
  | dst, [] => dst
  | dst, ch :: s => if dst.length + 1 < cap then appendStr (dst ++ [ch]) s else dst

def appendLong (dst : Bytes) (v : Int) : Bytes := appendStr cap dst (decimal v)

theorem appendStr_eq (dst s : Bytes) :
    appendStr cap dst s = dst ++ s.take (cap - 1 - dst.length) := by
  induction s generalizing dst with
  | nil => simp [appendStr]
  | cons ch s ih =>
    simp only [appendStr]
    split_ifs with h
    · have hc : cap - 1 - dst.length = cap - 1 - (dst ++ [ch]).length + 1 := by
        simp only [List.length_append, List.length_singleton]
        omega
      rw [ih, hc, List.take_succ_cons, List.append_assoc, List.singleton_append]
    · have hc : cap - 1 - dst.length = 0 := by omega
      rw [hc, List.take_zero, List.append_nil]

theorem appendStr_fits {dst s : Bytes} (h : dst.length + s.length < cap) :
    appendStr cap dst s = dst ++ s := by
  rw [appendStr_eq, List.take_of_length_le (by omega)]

theorem foldl_appendStr_fits {dst : Bytes} {ss : List Bytes}
    (h : dst.length + ss.flatten.length < cap) :
    ss.foldl (appendStr cap) dst = dst ++ ss.flatten := by
  induction ss generalizing dst with
  | nil => simp
  | cons s ss ih =>
    simp only [List.flatten_cons, List.length_append] at h
    rw [List.foldl_cons, appendStr_fits cap (by omega),
      ih (by simp only [List.length_append]; omega), List.flatten_cons, List.append_assoc]

theorem appendStr_nil (s : Bytes) : appendStr cap [] s = s.take (cap - 1) := by
  simp [appendStr_eq]

theorem appendStr_take (s t : Bytes) :
    appendStr cap (s.take (cap - 1)) t = (s ++ t).take (cap - 1) := by
  rw [appendStr_eq, List.length_take, List.take_append]
  by_cases h : s.length ≤ cap - 1
  · rw [List.take_of_length_le h, Nat.min_eq_right h]
  · have h₀ : cap - 1 - s.length = 0 := by omega
    have h₁ : cap - 1 - min (cap - 1) s.length = 0 := by omega
    rw [h₀, h₁]

def cleanByte (ch : UInt8) : UInt8 := if ch = TAB ∨ ch = LF ∨ ch = CR then SPACE else ch

theorem appendClean_fits {dst s : Bytes} (h : dst.length + s.length < cap) :
    appendClean cap dst s = dst ++ s.map cleanByte := by
  induction s generalizing dst with
  | nil => simp [appendClean]
  | cons ch s ih =>
    simp only [List.length_cons] at h
    have hlt : dst.length + 1 < cap := by omega
    simp only [appendClean, hlt, ↓reduceIte, List.map_cons]
    rw [ih (by simp only [List.length_append, List.length_singleton]; omega)]
    simp [cleanByte]

end Appenders

section Directory

def getcwd (cwd : Option Bytes) : Option Bytes :=
  cwd.filter fun c => c.length + 1 ≤ HM_PATH_MAX + 1

/-- Anchors a relative cache directory at the current directory; if that cannot be
determined, or does not fit, the relative path is kept. -/
def absoluteCacheDir (cwd : Option Bytes) (dir : Bytes) : Bytes :=
  if dir.head? = some SLASH then dir
  else match getcwd cwd with
    | none => dir
    | some cwd =>
      if cwd.length + 1 + dir.length > HM_PATH_MAX then dir
      else appendStr (HM_PATH_MAX + 1)
        (appendStr (HM_PATH_MAX + 1) (appendStr (HM_PATH_MAX + 1) [] cwd) [SLASH]) dir

structure Startup where
  cache : Option Bytes := none
  home : Option Bytes := none
  cwd : Option Bytes := none
  deriving DecidableEq, Repr

def given : Option Bytes → Option Bytes := Option.filter (· ≠ [])

def defaultSuffix : Bytes := ascii "/.cache/hacman"

def hmCacheDir (override : Option Bytes) (env : Startup) : Option Bytes :=
  match given override with
  | some dir => some (absoluteCacheDir env.cwd dir)
  | none =>
    match given env.cache with
    | some dir => some (absoluteCacheDir env.cwd dir)
    | none =>
      match given env.home with
      | none => none
      | some home => some (absoluteCacheDir env.cwd
          (appendStr (HM_PATH_MAX + 1) (appendStr (HM_PATH_MAX + 1) [] home) defaultSuffix))

end Directory

section Slot
variable (xxh3 : Bytes → UInt64)

def hmIdentityBuild (version siml : Bytes) (cap : Nat) : Bytes :=
  if cap < (ascii "siml:").length + 16 + (ascii " hacman:").length + version.length + 1 then []
  else ascii "siml:" ++ hmHashHex xxh3 siml ++ ascii " hacman:" ++ version

theorem hmIdentityBuild_notMem {version : Bytes} (siml : Bytes) (cap : Nat) (h : LF ∉ version) :
    LF ∉ hmIdentityBuild xxh3 version siml cap := by
  unfold hmIdentityBuild
  split_ifs
  · simp
  · have hhex := hmHashHex_notMem xxh3 siml (b := LF) (by decide)
    simp only [List.mem_append, hhex, h, or_false]
    decide

def slotKey (p : Project) (sourcePath : Option Bytes) (identity : Bytes) : Bytes :=
  let hash := match p.files, sourcePath with
    | _ :: _, some path => hmHashHex xxh3 path
    | _, _ => hmHashHex xxh3 identity
  let o := appendStr (HM_KEY_MAX + 1) []
    (if p.kind = .command then ascii "cmd-" else ascii "url-")
  appendStr (HM_KEY_MAX + 1) o hash

def hmCacheInit (p : Project) (dir : Bytes) (sourcePath : Option Bytes) (identity : Bytes) :
    Slot :=
  let identity := appendStr (HM_IDENTITY_MAX + 1) [] identity
  let key := slotKey xxh3 p sourcePath identity
  let path := appendStr (HM_PATH_MAX + 1) [] dir
  let path := appendStr (HM_PATH_MAX + 1) path [SLASH]
  let path := appendStr (HM_PATH_MAX + 1) path key
  { key := key
    identity := identity
    path := path
    workdir := appendStr (HM_PATH_MAX + 1) path (ascii ".work") }

theorem slotKey_length (p : Project) (sourcePath : Option Bytes) (identity : Bytes) :
    (slotKey xxh3 p sourcePath identity).length = 20 := by
  have hp : (if p.kind = .command then ascii "cmd-" else ascii "url-").length = 4 := by
    split_ifs <;> rfl
  have hfit : ∀ h : Bytes, h.length = 16 →
      (appendStr (HM_KEY_MAX + 1) (appendStr (HM_KEY_MAX + 1) []
        (if p.kind = .command then ascii "cmd-" else ascii "url-")) h).length = 20 := by
    intro h hh
    have hnil : ∀ s : Bytes, s.length < HM_KEY_MAX + 1 → appendStr (HM_KEY_MAX + 1) [] s = s :=
      fun s hs => appendStr_fits _ (by simpa using hs)
    rw [hnil _ (by rw [hp]; decide), appendStr_fits _ (by rw [hp, hh]; decide)]
    simp [hp, hh]
  unfold slotKey
  split <;> exact hfit _ (hmHashHex_length _ _)

theorem hmCacheInit_paths (p : Project) (dir : Bytes) (sourcePath : Option Bytes)
    (identity : Bytes) :
    let c := hmCacheInit xxh3 p dir sourcePath identity
    c.path = (dir ++ [SLASH] ++ c.key).take HM_PATH_MAX ∧
      c.workdir = (dir ++ [SLASH] ++ c.key ++ ascii ".work").take HM_PATH_MAX := by
  have hcap : HM_PATH_MAX = HM_PATH_MAX + 1 - 1 := rfl
  simp only [hmCacheInit]
  rw [hcap, appendStr_nil, appendStr_take, appendStr_take, appendStr_take]
  exact ⟨rfl, rfl⟩

theorem hmCacheInit_key_length (p : Project) (dir : Bytes) (sourcePath : Option Bytes)
    (identity : Bytes) : (hmCacheInit xxh3 p dir sourcePath identity).key.length = 20 :=
  slotKey_length xxh3 p sourcePath _

theorem hmCacheInit_identity (p : Project) (dir : Bytes) (sourcePath : Option Bytes)
    (identity : Bytes) :
    (hmCacheInit xxh3 p dir sourcePath identity).identity = identity.take HM_IDENTITY_MAX :=
  appendStr_nil (HM_IDENTITY_MAX + 1) identity

end Slot

section Load

def parseEpoch (s : Bytes) : Int :=
  match hmParseUlong s with
  | none => 0
  | some v => toLong v

def parseRecord (identity buf : Bytes) : Record :=
  if LF ∉ buf then {}
  else
    let line := before LF buf
    if !HM_CACHE_MAGIC.isPrefixOf line then {}
    else if line.drop HM_CACHE_MAGIC.length ≠ identity then {}
    else
      let line := before LF (after LF buf)
      { lastCheck := parseEpoch (before TAB line)
        lastChange := parseEpoch (before TAB (after TAB line))
        mark := cstr (hmStrCopy (HM_MARK_MAX + 1) (before TAB (after TAB (after TAB line))))
        known := true }

/-- A readable record file, or none; the buffer keeps room for a NUL. -/
def hmCacheLoad (identity : Bytes) (file : Option Bytes) : Record :=
  match file with
  | none => {}
  | some content => parseRecord identity (content.take (HM_RECORD_MAX - 1))

theorem parseRecord_mark_length (identity buf : Bytes) :
    (parseRecord identity buf).mark.length ≤ HM_MARK_MAX := by
  unfold parseRecord
  split
  · exact Nat.zero_le _
  · dsimp only
    split_ifs
    · exact Nat.zero_le _
    · exact Nat.zero_le _
    · exact (List.takeWhile_sublist _).length_le.trans (List.length_take_le _ _)

theorem hmCacheLoad_mark_length (identity : Bytes) (file : Option Bytes) :
    (hmCacheLoad identity file).mark.length ≤ HM_MARK_MAX := by
  cases file with
  | none => exact Nat.zero_le _
  | some content => exact parseRecord_mark_length identity _

theorem hmCacheLoad_mark_notMem (identity : Bytes) (file : Option Bytes) :
    (0 : UInt8) ∉ (hmCacheLoad identity file).mark := by
  have hparse : ∀ buf, (0 : UInt8) ∉ (parseRecord identity buf).mark := by
    intro buf
    unfold parseRecord
    split
    · exact List.not_mem_nil
    · dsimp only
      split_ifs
      · exact List.not_mem_nil
      · exact List.not_mem_nil
      · exact notMem_cstr _
  cases file with
  | none => exact List.not_mem_nil
  | some content => exact hparse _

end Load

section Save

def recordBytes (identity : Bytes) (c : Record) : Bytes :=
  let o := appendStr HM_RECORD_MAX [] HM_CACHE_MAGIC
  let o := appendStr HM_RECORD_MAX o identity
  let o := appendStr HM_RECORD_MAX o [LF]
  let o := appendLong HM_RECORD_MAX o c.lastCheck
  let o := appendStr HM_RECORD_MAX o [TAB]
  let o := appendLong HM_RECORD_MAX o c.lastChange
  let o := appendStr HM_RECORD_MAX o [TAB]
  let o := appendClean HM_RECORD_MAX o c.mark
  appendStr HM_RECORD_MAX o [LF]

theorem decimal_length_le (v : Int) : (decimal v).length ≤ 24 := by
  simpa [decimal] using revDigits_length_le 24 v.toNat

theorem decimal_notMem (v : Int) {b : UInt8} (hb : isDigit b = false) : b ∉ decimal v := fun h => by
  have hd := revDigits_isDigit 24 v.toNat b (List.mem_reverse.mp h)
  simp [hb] at hd

theorem parseEpoch_decimal {v : Int} (h : v ≤ LONG_MAX) : parseEpoch (decimal v) = max v 0 := by
  have hv : v.toNat < 2 ^ 63 := by simp only [LONG_MAX] at h; omega
  have hp : hmParseUlong (decimal v) = some v.toNat :=
    hmParseUlong_revDigits 24 v.toNat (by omega) (by decide) (by omega)
  simp only [parseEpoch, hp, toLong, hv, ↓reduceIte]
  omega

theorem recordBytes_eq {identity : Bytes} {c : Record} (hi : identity.length ≤ HM_IDENTITY_MAX)
    (hm : c.mark.length ≤ HM_MARK_MAX) :
    recordBytes identity c = HM_CACHE_MAGIC ++ identity ++ [LF] ++
      (decimal c.lastCheck ++ [TAB] ++ decimal c.lastChange ++ [TAB] ++ c.mark.map cleanByte) ++
        [LF] := by
  have h₀ : HM_CACHE_MAGIC.length = 16 := rfl
  have h₁ := decimal_length_le c.lastCheck
  have h₂ := decimal_length_le c.lastChange
  simp only [HM_IDENTITY_MAX, HM_MARK_MAX] at hi hm
  have hcap : HM_RECORD_MAX = 4096 := rfl
  let head := [HM_CACHE_MAGIC, identity, [LF], decimal c.lastCheck, [TAB],
    decimal c.lastChange, [TAB]]
  have hhead : head.foldl (appendStr HM_RECORD_MAX) [] = [] ++ head.flatten :=
    foldl_appendStr_fits _ (by simp [head, h₀, hcap]; omega)
  change appendStr HM_RECORD_MAX (appendClean HM_RECORD_MAX
    (head.foldl (appendStr HM_RECORD_MAX) []) c.mark) [LF] = _
  rw [hhead, appendClean_fits _ (by simp [head, h₀, hcap]; omega),
    appendStr_fits _ (by simp [head, h₀, hcap]; omega)]
  simp [head]

theorem cleanByte_ne {sep : UInt8} (hs : sep = TAB ∨ sep = LF ∨ sep = CR) (ch : UInt8) :
    cleanByte ch ≠ sep := by
  unfold cleanByte
  split_ifs with h
  · rcases hs with rfl | rfl | rfl <;> decide
  · rintro rfl
    exact h hs

theorem cleanByte_eq_self {b : UInt8} : cleanByte b = b ↔ b ≠ TAB ∧ b ≠ LF ∧ b ≠ CR := by
  unfold cleanByte
  split_ifs with h
  · refine iff_of_false (fun hb => ?_) (by tauto)
    rw [← hb] at h
    exact absurd h (by decide)
  · exact iff_of_true rfl (by tauto)

def OneField (s : Bytes) : Prop := ∀ b ∈ s, b ≠ TAB ∧ b ≠ LF ∧ b ≠ CR

theorem map_cleanByte_eq_self {s : Bytes} : s.map cleanByte = s ↔ OneField s := by
  unfold OneField
  induction s with
  | nil => simp
  | cons b s ih =>
    rw [List.map_cons, List.cons.injEq, ih, cleanByte_eq_self, List.forall_mem_cons]

theorem cstr_clean {s : Bytes} (h : (0 : UInt8) ∉ s) :
    cstr (s.map cleanByte) = s.map cleanByte := by
  apply cstr_of_notMem
  intro hm
  obtain ⟨b, hb, h₀⟩ := List.mem_map.mp hm
  unfold cleanByte at h₀
  split_ifs at h₀
  · exact absurd h₀ (by decide)
  · subst h₀
    exact h hb

theorem clean_notMem {sep : UInt8} (hs : sep = TAB ∨ sep = LF ∨ sep = CR) (s : Bytes) :
    sep ∉ s.map cleanByte := fun h => by
  obtain ⟨ch, -, hch⟩ := List.mem_map.mp h
  exact cleanByte_ne hs ch hch

theorem recordBytes_length_le {identity : Bytes} {c : Record}
    (hi : identity.length ≤ HM_IDENTITY_MAX) (hm : c.mark.length ≤ HM_MARK_MAX) :
    (recordBytes identity c).length ≤ HM_RECORD_MAX - 1 := by
  have h₀ : HM_CACHE_MAGIC.length = 16 := rfl
  have h₁ := decimal_length_le c.lastCheck
  have h₂ := decimal_length_le c.lastChange
  simp only [HM_IDENTITY_MAX, HM_MARK_MAX] at hi hm
  rw [recordBytes_eq hi hm]
  simp [h₀, HM_RECORD_MAX]
  omega

theorem parse_recordBytes {identity identity' : Bytes} {c : Record} (hid : LF ∉ identity)
    (hi : identity.length ≤ HM_IDENTITY_MAX) (hm : c.mark.length ≤ HM_MARK_MAX) :
    parseRecord identity' (recordBytes identity c) =
      if identity = identity' then
        { lastCheck := parseEpoch (decimal c.lastCheck)
          lastChange := parseEpoch (decimal c.lastChange)
          mark := cstr (c.mark.map cleanByte)
          known := true }
      else {} := by
  have hmagic : LF ∉ HM_CACHE_MAGIC := by decide
  have hhead : LF ∉ HM_CACHE_MAGIC ++ identity := by simp [hmagic, hid]
  have hdig : ∀ v, TAB ∉ decimal v ∧ LF ∉ decimal v := fun v =>
    ⟨decimal_notMem v rfl, decimal_notMem v rfl⟩
  have hline : LF ∉ decimal c.lastCheck ++ [TAB] ++ decimal c.lastChange ++ [TAB] ++
      c.mark.map cleanByte := by
    have hne : LF ≠ TAB := by decide
    simp only [List.mem_append, List.mem_singleton, not_or]
    exact ⟨⟨⟨⟨(hdig _).2, hne⟩, (hdig _).2⟩, hne⟩, clean_notMem (.inr (.inl rfl)) _⟩
  have heq : recordBytes identity c = (HM_CACHE_MAGIC ++ identity) ++ LF ::
      ((decimal c.lastCheck ++ [TAB] ++ decimal c.lastChange ++ [TAB] ++
        c.mark.map cleanByte) ++ LF :: []) := by
    rw [recordBytes_eq hi hm]
    simp
  have hsplit : decimal c.lastCheck ++ [TAB] ++ decimal c.lastChange ++ [TAB] ++
      c.mark.map cleanByte = decimal c.lastCheck ++ TAB :: (decimal c.lastChange ++
        TAB :: c.mark.map cleanByte) := by simp
  have hpre : HM_CACHE_MAGIC.isPrefixOf (HM_CACHE_MAGIC ++ identity) = true :=
    List.isPrefixOf_iff_prefix.mpr (List.prefix_append _ _)
  have hmem : LF ∈ recordBytes identity c := by rw [heq]; simp
  rw [parseRecord, if_neg (not_not.mpr hmem), heq, before_append _ hhead, after_append _ hhead,
    before_append _ hline, hsplit]
  simp only [hpre, Bool.not_true, Bool.false_eq_true, ↓reduceIte, List.drop_left]
  rw [before_append _ (hdig _).1, after_append _ (hdig _).1, before_append _ (hdig _).1,
    after_append _ (hdig _).1, before_of_notMem (clean_notMem (.inl rfl) _), hmStrCopy,
    List.take_of_length_le (by simpa using hm)]
  by_cases h : identity = identity'
  · simp [h]
  · simp [h]

theorem load_recordBytes {identity identity' : Bytes} {c : Record} (hid : LF ∉ identity)
    (hi : identity.length ≤ HM_IDENTITY_MAX) (hm : c.mark.length ≤ HM_MARK_MAX) :
    hmCacheLoad identity' (some (recordBytes identity c)) =
      if identity = identity' then
        { lastCheck := parseEpoch (decimal c.lastCheck)
          lastChange := parseEpoch (decimal c.lastChange)
          mark := cstr (c.mark.map cleanByte)
          known := true }
      else {} := by
  rw [hmCacheLoad, List.take_of_length_le (recordBytes_length_le hi hm)]
  exact parse_recordBytes hid hi hm

theorem load_mark {identity : Bytes} {c : Record} (hid : LF ∉ identity)
    (hi : identity.length ≤ HM_IDENTITY_MAX)
    (hm : (0 : UInt8) ∉ c.mark ∧ c.mark.length ≤ HM_MARK_MAX) :
    (hmCacheLoad identity (some (recordBytes identity c))).known = true ∧
      (hmCacheLoad identity (some (recordBytes identity c))).mark = c.mark.map cleanByte := by
  rw [load_recordBytes hid hi hm.2, if_pos rfl]
  exact ⟨rfl, cstr_clean hm.1⟩

end Save

end Hacman.Cache
