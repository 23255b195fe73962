import Hacman.Siml

/-!
# Keys and values on a line

What the scanners of the parser make of a line that is written as a key, a colon, a space
and a value, and what they guarantee about the keys and the values that they accept.
-/

namespace Hacman.Siml
open Octets Util Config

section Trim

theorem trimmed_eq_self {text : Bytes} (h : text.getLast? ≠ some SPACE) : trimmed text = text := by
  unfold trimmed
  rw [List.getLast?_eq_head?_reverse] at h
  cases hr : text.reverse with
  | nil =>
    rw [List.reverse_eq_nil_iff.mp hr]
    rfl
  | cons b s =>
    rw [hr] at h
    have hb : b ≠ SPACE := by simpa using h
    rw [List.dropWhile_cons_of_neg (by simpa using hb), ← hr, List.reverse_reverse]

theorem trimmed_append_spaces (text : Bytes) :
    ∃ k, text = trimmed text ++ List.replicate k SPACE := by
  refine ⟨(text.reverse.takeWhile (· = SPACE)).length, ?_⟩
  have hspaces : (text.reverse.takeWhile (· = SPACE)).reverse =
      List.replicate (text.reverse.takeWhile (· = SPACE)).length SPACE := by
    refine List.eq_replicate_iff.mpr ⟨List.length_reverse, fun b hb => ?_⟩
    simpa using List.mem_takeWhile_imp (List.mem_reverse.mp hb)
  rw [← hspaces, trimmed, ← List.reverse_append, List.takeWhile_append_dropWhile,
    List.reverse_reverse]

theorem getLast?_trimmed (text : Bytes) : (trimmed text).getLast? ≠ some SPACE := by
  unfold trimmed
  rw [List.getLast?_reverse]
  intro h
  have hd := List.head?_dropWhile_not (fun b => decide (b = SPACE)) text.reverse
  rw [h] at hd
  simp at hd

theorem trimmed_start (text : Bytes) : trimmed text <+: text := by
  obtain ⟨k, hk⟩ := trimmed_append_spaces text
  exact ⟨_, hk.symm⟩

theorem trimmed_cons {b : UInt8} (hb : b ≠ SPACE) (s t : Bytes) :
    trimmed (s ++ b :: t) = s ++ b :: trimmed t := by
  unfold trimmed
  rw [List.reverse_append, List.reverse_cons, List.append_assoc, List.singleton_append]
  by_cases ht : t.reverse.all (· = SPACE)
  · have hnil : t.reverse.dropWhile (· = SPACE) = [] := by
      rw [List.dropWhile_eq_nil_iff]
      simpa using ht
    rw [List.dropWhile_append, hnil, List.isEmpty_nil, if_pos rfl,
      List.dropWhile_cons_of_neg (by simpa using hb)]
    simp
  · have hne : t.reverse.dropWhile (· = SPACE) ≠ [] := by
      rw [ne_eq, List.dropWhile_eq_nil_iff]
      simpa using ht
    rw [List.dropWhile_append, if_neg (by simpa using hne)]
    simp

theorem trimmed_ne_self {text : Bytes} (h : text.getLast? = some SPACE) : trimmed text ≠ text :=
  fun he => getLast?_trimmed text (he.symm ▸ h)

end Trim

section Indent

theorem takeWhile_replicate_append {b : UInt8} (hb : b ≠ SPACE) (k : Nat) (s : Bytes) :
    (List.replicate k SPACE ++ b :: s).takeWhile (· = SPACE) = List.replicate k SPACE := by
  rw [List.takeWhile_append_of_pos (by simp), List.takeWhile_cons_of_neg (by simpa using hb),
    List.append_nil]

theorem indentOf_append {b : UInt8} (hb : b ≠ SPACE) (k : Nat) (s : Bytes) :
    indentOf (List.replicate k SPACE ++ b :: s) = k := by
  rw [indentOf, takeWhile_replicate_append hb, List.length_replicate]

theorem drop_length_takeWhile (p : UInt8 → Bool) (s : Bytes) :
    s.drop (s.takeWhile p).length = s.dropWhile p := by
  induction s with
  | nil => rfl
  | cons b s ih =>
    by_cases hb : p b = true
    · simp [hb, ih]
    · simp [hb]

theorem indentOf_spaces (text : Bytes) :
    text = List.replicate (indentOf text) SPACE ++ text.drop (indentOf text) := by
  have hspaces : text.takeWhile (· = SPACE) = List.replicate (indentOf text) SPACE := by
    refine List.eq_replicate_iff.mpr ⟨rfl, fun b hb => ?_⟩
    simpa using List.mem_takeWhile_imp hb
  rw [← hspaces, indentOf, drop_length_takeWhile, List.takeWhile_append_dropWhile]

end Indent

section Hash

theorem hashAt_of_notMem {s : Bytes} (prev : UInt8) (h : HASH ∉ s) : hashAt prev s = none := by
  induction s generalizing prev with
  | nil => rfl
  | cons b s ih =>
    simp only [List.mem_cons, not_or] at h
    simp [hashAt, Ne.symm h.1, ih b h.2]

theorem hashAt_append (prev : UInt8) (s t : Bytes) :
    hashAt prev (s ++ t) = match hashAt prev s with
      | some h => some h
      | none => (hashAt (s.getLast?.getD prev) t).map (· + s.length) := by
  induction s generalizing prev with
  | nil => simp [hashAt]
  | cons b s ih =>
    by_cases hb : b = HASH ∧ prev = SPACE
    · simp [hashAt, hb]
    · have hlast : ((b :: s).getLast?).getD prev = s.getLast?.getD b := by
        rw [List.getLast?_cons]
        rfl
      rw [List.cons_append, hashAt, if_neg hb, hashAt, if_neg hb, ih b, hlast]
      cases hashAt b s with
      | some h => rfl
      | none =>
        simp only [Option.map_none, Option.map_map, List.length_cons]
        congr 1

theorem hashAt_append_eq_none {prev : UInt8} {s t : Bytes} :
    hashAt prev (s ++ t) = none ↔
      hashAt prev s = none ∧ hashAt (s.getLast?.getD prev) t = none := by
  rw [hashAt_append]
  cases hashAt prev s <;> simp

theorem hashAt_prefix {prev : UInt8} {s t : Bytes} (hst : s <+: t) (h : hashAt prev t = none) :
    hashAt prev s = none := by
  obtain ⟨r, rfl⟩ := hst
  exact (hashAt_append_eq_none.mp h).1

theorem hashAt_take {prev : UInt8} {s : Bytes} {h : Nat} (hs : hashAt prev s = some h) :
    hashAt prev (s.take h) = none := by
  induction s generalizing prev h with
  | nil => cases hs
  | cons b s ih =>
    unfold hashAt at hs
    split_ifs at hs with hb
    · cases hs
      rfl
    · obtain ⟨i, hi, rfl⟩ := Option.map_eq_some_iff.mp hs
      rw [List.take_succ_cons, hashAt, if_neg hb, ih hi]
      rfl

end Hash

section Keys

def Key : Bytes → Prop
  | [] => False
  | b :: s => isKeyStart b = true ∧ (∀ c ∈ s, isKeyChar c = true) ∧ s.length < SIML_MAX_KEY_LEN

instance (key : Bytes) : Decidable (Key key) :=
  match key with
  | [] => .isFalse id
  | b :: s =>
    decidable_of_iff (isKeyStart b = true ∧ s.all isKeyChar = true ∧ s.length < SIML_MAX_KEY_LEN)
      (and_congr_right' (and_congr_left' List.all_eq_true))

theorem isKeyStart_keyChar {b : UInt8} (h : isKeyStart b = true) : isKeyChar b = true := by
  simp only [isKeyStart, isKeyChar, Bool.or_eq_true] at h ⊢
  tauto

theorem keyChar_ne {b : UInt8} (h : isKeyChar b = true) :
    b ≠ SPACE ∧ b ≠ TAB ∧ b ≠ CR ∧ b ≠ LF ∧ b ≠ COLON ∧ b ≠ HASH ∧ b ≠ PIPE ∧ b ≠ BRACKET_OPEN := by
  refine ⟨?_, ?_, ?_, ?_, ?_, ?_, ?_, ?_⟩ <;> rintro rfl <;> revert h <;> decide

theorem Key.chars {key : Bytes} (h : Key key) : ∀ b ∈ key, isKeyChar b = true := by
  cases key with
  | nil => exact h.elim
  | cons b s => exact List.forall_mem_cons.mpr ⟨isKeyStart_keyChar h.1, h.2.1⟩

theorem Key.length_le {key : Bytes} (h : Key key) : key.length ≤ SIML_MAX_KEY_LEN := by
  cases key with
  | nil => exact Nat.zero_le _
  | cons b s => exact h.2.2

theorem Key.ne_nil {key : Bytes} (h : Key key) : key ≠ [] := by
  rintro rfl
  exact h

end Keys

section Values

structure Plain (v : Bytes) : Prop where
  ne_nil : v ≠ []
  length_le : v.length ≤ SIML_MAX_INLINE_VALUE_LEN
  bytes : ∀ b ∈ v, b ≠ LF ∧ b ≠ CR ∧ b ≠ TAB
  head : v.head? ≠ some SPACE ∧ v.head? ≠ some PIPE ∧ v.head? ≠ some BRACKET_OPEN
  last : v.getLast? ≠ some SPACE
  hash : hashAt SPACE v = none

instance (v : Bytes) : Decidable (Plain v) :=
  decidable_of_iff (v ≠ [] ∧ v.length ≤ SIML_MAX_INLINE_VALUE_LEN ∧
      (v.all fun b => b ≠ LF ∧ b ≠ CR ∧ b ≠ TAB) = true ∧
      (v.head? ≠ some SPACE ∧ v.head? ≠ some PIPE ∧ v.head? ≠ some BRACKET_OPEN) ∧
      v.getLast? ≠ some SPACE ∧ hashAt SPACE v = none)
    ⟨fun ⟨h₀, h₁, h₂, h₃, h₄, h₅⟩ => ⟨h₀, h₁, by simpa using h₂, h₃, h₄, h₅⟩,
      fun ⟨h₀, h₁, h₂, h₃, h₄, h₅⟩ => ⟨h₀, h₁, by simpa using h₂, h₃, h₄, h₅⟩⟩

variable {v : Bytes}

theorem Plain.head_ne_hash (h : Plain v) : v.head? ≠ some HASH := by
  have hh := h.hash
  cases v with
  | nil => simp
  | cons b s =>
    intro hb
    obtain rfl : b = HASH := by simpa using hb
    cases hh

theorem Key.plain (h : Key v) : Plain v where
  ne_nil := h.ne_nil
  length_le := h.length_le.trans (by decide)
  bytes := fun b hb =>
    have hne := keyChar_ne (h.chars b hb)
    ⟨hne.2.2.2.1, hne.2.2.1, hne.2.1⟩
  head := by
    cases v with
    | nil => exact h.elim
    | cons b s =>
      have hne := keyChar_ne (h.chars b List.mem_cons_self)
      simpa using ⟨hne.1, hne.2.2.2.2.2.2.1, hne.2.2.2.2.2.2.2⟩
  last := by
    intro hl
    exact (keyChar_ne (h.chars _ (List.mem_of_getLast? hl))).1 rfl
  hash := hashAt_of_notMem _ fun hm => (keyChar_ne (h.chars _ hm)).2.2.2.2.2.1 rfl

theorem parseInlineComment_plain (h : Plain v) : parseInlineComment v = .ok v := by
  have hstart : commentStart v = .ok 0 := if_neg h.head.2.2
  simp only [parseInlineComment, hstart, ↓reduceIte, List.drop_zero, h.hash]

theorem spacedValue_space (hv : v.head? ≠ some SPACE) (hne : v ≠ []) (code : ErrorCode) :
    spacedValue (SPACE :: v) code = parseInlineComment v := by
  unfold spacedValue
  rw [if_neg (by simpa using hv), if_neg (by simpa using hne)]
  rfl

theorem parseMappingEntry_key {key : Bytes} (hk : Key key) (rest : Bytes) :
    parseMappingEntry (key ++ COLON :: rest) =
      if rest = [] then .ok (key, none)
      else match spacedValue rest .expectSpaceAfterColon with
        | .error code => .error code
        | .ok value => .ok (key, some value) := by
  cases key with
  | nil => exact hk.elim
  | cons b s =>
    have htake : (s ++ COLON :: rest).takeWhile isKeyChar = s := by
      rw [List.takeWhile_append_of_pos hk.2.1, List.takeWhile_cons_of_neg (by decide),
        List.append_nil]
    have hlen : ¬ SIML_MAX_KEY_LEN < (b :: s).length := by
      have := hk.2.2
      simp only [List.length_cons]
      omega
    unfold parseMappingEntry
    simp only [List.cons_append, htake]
    rw [if_neg (by simp), if_neg (by simp [hk.1]), ← List.cons_append, List.drop_left]
    exact (if_neg (by simp)).trans (if_neg hlen)

end Values

section Accepted
variable {v value rest body key : Bytes}

theorem parseInlineComment_ok (h : parseInlineComment v = .ok value)
    (hb : value.head? ≠ some BRACKET_OPEN) (hne : value ≠ []) (hlast : v.getLast? ≠ some SPACE) :
    value <+: v ∧ hashAt SPACE value = none ∧ value.getLast? ≠ some SPACE := by
  unfold parseInlineComment at h
  have hopen : ∀ {value}, value <+: v → value ≠ [] → value.head? ≠ some BRACKET_OPEN →
      commentStart v = .ok 0 := by
    intro value hp hne hb
    obtain ⟨r, rfl⟩ := hp
    cases value with
    | nil => exact absurd rfl hne
    | cons b s => exact if_neg (by simpa using hb)
  split at h
  · cases h
  · rename_i i hi
    split at h
    · rename_i hh
      cases h
      have h₀ := hopen List.prefix_rfl hne hb
      obtain rfl : i = 0 := by simpa [h₀] using hi.symm
      exact ⟨List.prefix_rfl, hh, hlast⟩
    · rename_i n hh
      dsimp only at h
      generalize i + n - (trimmed (v.take (i + n))).length +
        (if trimmed (v.take (i + n)) = [] then 1 else 0) = spaces at h
      split at h
      · cases h
      · split at h
        · cases h
        · cases h
          have hp : trimmed (v.take (i + n)) <+: v :=
            (trimmed_start _).trans (List.take_prefix _ _)
          have h₀ := hopen hp hne hb
          obtain rfl : i = 0 := by simpa [h₀] using hi.symm
          refine ⟨hp, hashAt_prefix (trimmed_start _) ?_, getLast?_trimmed _⟩
          simpa using hashAt_take hh

theorem spacedValue_ok {code : ErrorCode} (h : spacedValue rest code = .ok value) :
    ∃ v, rest = SPACE :: v ∧ v.head? ≠ some SPACE ∧ v ≠ [] ∧ parseInlineComment v = .ok value := by
  unfold spacedValue at h
  split_ifs at h with h₁ h₂
  rw [not_or, not_not] at h₁
  cases rest with
  | nil => cases h₁.1
  | cons b v =>
    obtain rfl : b = SPACE := by simpa using h₁.1
    refine ⟨v, rfl, h₁.2, ?_, h⟩
    rintro rfl
    exact h₂ rfl

theorem parseMappingEntry_ok {value : Option Bytes}
    (h : parseMappingEntry body = .ok (key, value)) :
    Key key ∧ ∃ rest, body = key ++ COLON :: rest ∧
      (value = none ∧ rest = [] ∨
        ∃ v, value = some v ∧ spacedValue rest .expectSpaceAfterColon = .ok v) := by
  unfold parseMappingEntry at h
  split at h
  · cases h
  · rename_i b s
    split_ifs at h with hcolon hstart
    dsimp only at h
    have hkey : b :: s = (b :: s.takeWhile isKeyChar) ++
        (b :: s).drop (b :: s.takeWhile isKeyChar).length := by
      rw [List.length_cons, List.drop_succ_cons, drop_length_takeWhile, List.cons_append,
        List.takeWhile_append_dropWhile]
    split at h
    · cases h
    · rename_i c rest hdrop
      rw [hdrop] at hkey
      split_ifs at h with hc hlen hrest
      · cases h
        rw [not_not] at hc
        refine ⟨⟨by simpa using hstart, fun c hc => List.mem_takeWhile_imp hc, ?_⟩, rest, ?_,
          .inl ⟨rfl, hrest⟩⟩
        · simp only [List.length_cons] at hlen
          omega
        · rw [hc] at hkey
          exact hkey
      · split at h
        · cases h
        · rename_i v hv
          cases h
          rw [not_not] at hc
          refine ⟨⟨by simpa using hstart, fun c hc => List.mem_takeWhile_imp hc, ?_⟩, rest, ?_,
            .inr ⟨v, rfl, hv⟩⟩
          · simp only [List.length_cons] at hlen
            omega
          · rw [hc] at hkey
            exact hkey

end Accepted

end Hacman.Siml
