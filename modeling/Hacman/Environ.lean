import Hacman.Octets

/-!
# The startup environment

Four variables are collected in one pass over `environ`. The pass shares the prefix of
three of them and keeps the first match of each, as `getenv` would.
-/

namespace Hacman.Environ
open Octets

section Scan

def EQUALS : UInt8 := 61

structure HmEnv where
  options : Option Bytes := none
  debug : Option Bytes := none
  cache : Option Bytes := none
  home : Option Bytes := none
  deriving DecidableEq, Repr

def scanEntry (values : HmEnv) (name : Bytes) : HmEnv :=
  if name.head? ≠ some 72 then values
  else if (ascii "HACMAN").isPrefixOf name then
    let suffix := name.drop 6
    if suffix.head? = some EQUALS ∧ values.options = none then
      { values with options := some (suffix.drop 1) }
    else if (ascii "_DEBUG=").isPrefixOf suffix ∧ values.debug = none then
      { values with debug := some (suffix.drop 7) }
    else if (ascii "_CACHE=").isPrefixOf suffix ∧ values.cache = none then
      { values with cache := some (suffix.drop 7) }
    else values
  else if (ascii "HOME=").isPrefixOf name ∧ values.home = none then
    { values with home := some (name.drop 5) }
  else values

/-- `environ` may be a null pointer. -/
def hmEnvGet (environ : Option (List Bytes)) : HmEnv := (environ.getD []).foldl scanEntry {}

end Scan

section Getenv

def valueOf (name entry : Bytes) : Option Bytes :=
  if (name ++ [EQUALS]).isPrefixOf entry then some (entry.drop (name.length + 1)) else none

def getenv (environ : Option (List Bytes)) (name : Bytes) : Option Bytes :=
  (environ.getD []).findSome? (valueOf name)

variable {name entry s : Bytes}

theorem valueOf_append (front name s : Bytes) :
    valueOf (front ++ name) (front ++ s) = valueOf name s := by
  have hiff : (front ++ name ++ [EQUALS]).isPrefixOf (front ++ s) =
      (name ++ [EQUALS]).isPrefixOf s := by
    rw [Bool.eq_iff_iff, List.isPrefixOf_iff_prefix, List.isPrefixOf_iff_prefix, List.append_assoc,
      List.prefix_append_right_inj]
  unfold valueOf
  rw [hiff, List.length_append, Nat.add_assoc, ← List.drop_drop, List.drop_left]

theorem valueOf_of_not {p : Bytes} (hp : p <+: entry) (hlen : p.length ≤ name.length + 1)
    (h : ¬ p <+: name ++ [EQUALS]) : valueOf name entry = none := by
  refine if_neg fun hname => h ?_
  exact List.prefix_of_prefix_length_le hp (List.isPrefixOf_iff_prefix.mp hname)
    (by simpa using hlen)

def HmEnv.with (values : HmEnv) (entry : Bytes) : HmEnv where
  options := values.options.or (valueOf (ascii "HACMAN") entry)
  debug := values.debug.or (valueOf (ascii "HACMAN_DEBUG") entry)
  cache := values.cache.or (valueOf (ascii "HACMAN_CACHE") entry)
  home := values.home.or (valueOf (ascii "HOME") entry)

theorem HmEnv.with_eq {values : HmEnv} {o d c h : Option Bytes}
    (ho : valueOf (ascii "HACMAN") entry = o) (hd : valueOf (ascii "HACMAN_DEBUG") entry = d)
    (hc : valueOf (ascii "HACMAN_CACHE") entry = c) (hh : valueOf (ascii "HOME") entry = h) :
    values.with entry =
      ⟨values.options.or o, values.debug.or d, values.cache.or c, values.home.or h⟩ := by
  rw [HmEnv.with, ho, hd, hc, hh]

theorem with_other {values : HmEnv} (h : entry.head? ≠ some 72) : values.with entry = values := by
  have hnone : ∀ name, name.head? = some 72 → valueOf name entry = none := by
    intro name hname
    refine if_neg fun hprefix => h ?_
    obtain ⟨t, rfl⟩ := List.isPrefixOf_iff_prefix.mp hprefix
    rw [List.append_assoc, List.head?_append, hname]
    rfl
  rw [HmEnv.with_eq (hnone _ rfl) (hnone _ rfl) (hnone _ rfl) (hnone _ rfl)]
  simp

theorem with_hacman (values : HmEnv) (s : Bytes) : values.with (ascii "HACMAN" ++ s) =
    ⟨values.options.or (valueOf [] s), values.debug.or (valueOf (ascii "_DEBUG") s),
      values.cache.or (valueOf (ascii "_CACHE") s), values.home⟩ := by
  have hhome : valueOf (ascii "HOME") (ascii "HACMAN" ++ s) = none :=
    @valueOf_of_not _ _ (ascii "HA") (List.prefix_append (ascii "HA") (ascii "CMAN" ++ s))
      (by decide) (by decide)
  rw [HmEnv.with_eq (valueOf_append (ascii "HACMAN") [] s)
    (valueOf_append (ascii "HACMAN") (ascii "_DEBUG") s)
    (valueOf_append (ascii "HACMAN") (ascii "_CACHE") s) hhome, Option.or_none]

theorem with_home (values : HmEnv) (h : ¬ ascii "HACMAN" <+: entry) :
    values.with entry = { values with home := values.home.or (valueOf (ascii "HOME") entry) } := by
  have hnone : ∀ name, ascii "HACMAN" <+: name → valueOf name entry = none := fun name hname =>
    if_neg fun hprefix => h ((hname.trans (List.prefix_append ..)).trans
      (List.isPrefixOf_iff_prefix.mp hprefix))
  rw [HmEnv.with_eq (hnone _ (by decide)) (hnone _ (by decide)) (hnone _ (by decide)) rfl]
  simp

theorem or_ite (v : Option Bytes) (hit : Prop) [Decidable hit] (w : Bytes) :
    v.or (if hit then some w else none) = if hit ∧ v = none then some w else v := by
  cases v <;> by_cases h : hit <;> simp [h]

/-- What a name can be followed by behind the shared prefix excludes one another. -/
theorem suffix_unique {p q : Bytes} (hp : p.isPrefixOf s = true) (hlen : p.length ≤ q.length)
    (h : ¬ p <+: q) : q.isPrefixOf s = false := by
  refine Bool.eq_false_of_not_eq_true fun hq => h ?_
  exact List.prefix_of_prefix_length_le (List.isPrefixOf_iff_prefix.mp hp)
    (List.isPrefixOf_iff_prefix.mp hq) hlen

theorem head_equals (s : Bytes) : s.head? = some EQUALS ↔ [EQUALS].isPrefixOf s = true := by
  cases s with
  | nil => simp
  | cons b s => simp [List.isPrefixOf, @eq_comm _ b]

theorem scanEntry_eq (values : HmEnv) (entry : Bytes) :
    scanEntry values entry = values.with entry := by
  obtain ⟨o, d, c, h⟩ := values
  unfold scanEntry
  by_cases hhead : entry.head? = some 72
  · rw [if_neg (not_not.mpr hhead)]
    by_cases hpre : ascii "HACMAN" <+: entry
    · rw [if_pos (List.isPrefixOf_iff_prefix.mpr hpre)]
      obtain ⟨s, rfl⟩ := hpre
      have hdrop : (ascii "HACMAN" ++ s).drop 6 = s := List.drop_left' rfl
      have hoptions : valueOf [] s = if [EQUALS].isPrefixOf s then some (s.drop 1) else none := rfl
      have hdebug : valueOf (ascii "_DEBUG") s =
        if (ascii "_DEBUG=").isPrefixOf s then some (s.drop 7) else none := rfl
      have hcache : valueOf (ascii "_CACHE") s =
        if (ascii "_CACHE=").isPrefixOf s then some (s.drop 7) else none := rfl
      rw [with_hacman, hdrop, hoptions, hdebug, hcache]
      simp only [or_ite, head_equals]
      by_cases ho : [EQUALS].isPrefixOf s = true
      · have hd : (ascii "_DEBUG=").isPrefixOf s = false := suffix_unique ho (by decide) (by decide)
        have hc : (ascii "_CACHE=").isPrefixOf s = false := suffix_unique ho (by decide) (by decide)
        simp only [ho, hd, hc, Bool.false_eq_true, false_and, if_false, true_and]
        split_ifs <;> rfl
      · by_cases hd : (ascii "_DEBUG=").isPrefixOf s = true
        · have hc : (ascii "_CACHE=").isPrefixOf s = false :=
            suffix_unique hd (by decide) (by decide)
          simp only [ho, hd, hc, Bool.false_eq_true, false_and, if_false, true_and]
          split_ifs <;> rfl
        · simp only [ho, hd, Bool.false_eq_true, false_and, if_false]
          split_ifs <;> rfl
    · have hhome : valueOf (ascii "HOME") entry =
        if (ascii "HOME=").isPrefixOf entry then some (entry.drop 5) else none := rfl
      rw [if_neg (List.isPrefixOf_iff_prefix.not.mpr hpre), with_home _ hpre, hhome, or_ite]
      dsimp only
      split_ifs <;> rfl
  · rw [if_pos hhead, with_other hhead]

theorem foldl_scanEntry (values : HmEnv) (entries : List Bytes) : entries.foldl scanEntry values =
    ⟨values.options.or (entries.findSome? (valueOf (ascii "HACMAN"))),
      values.debug.or (entries.findSome? (valueOf (ascii "HACMAN_DEBUG"))),
      values.cache.or (entries.findSome? (valueOf (ascii "HACMAN_CACHE"))),
      values.home.or (entries.findSome? (valueOf (ascii "HOME")))⟩ := by
  have hcons : ∀ (v : Option Bytes) name entry (entries : List Bytes),
      (v.or (valueOf name entry)).or (entries.findSome? (valueOf name)) =
        v.or ((entry :: entries).findSome? (valueOf name)) := by
    intro v name entry entries
    rw [Option.or_assoc, List.findSome?_cons]
    cases valueOf name entry <;> rfl
  induction entries generalizing values with
  | nil => simp
  | cons entry entries ih =>
    rw [List.foldl_cons, scanEntry_eq, ih]
    simp only [HmEnv.with, hcons]

/-- One pass over the environment gives what `getenv` gives for each of the four names. -/
theorem environment_scan (environ : Option (List Bytes)) : hmEnvGet environ =
    { options := getenv environ (ascii "HACMAN"), debug := getenv environ (ascii "HACMAN_DEBUG"),
      cache := getenv environ (ascii "HACMAN_CACHE"), home := getenv environ (ascii "HOME") } := by
  rw [hmEnvGet, foldl_scanEntry]
  simp only [Option.none_or, getenv]

example : hmEnvGet (some [ascii "HACMAN_CACHE_BACKUP=/b", ascii "HACMAN", ascii "HACMAN=",
    ascii "HACMAN=-n",
    ascii "HOMEDIR=/d", ascii "HOME=/h"]) = { options := some [], home := some (ascii "/h") } := by
  decide

end Getenv

end Hacman.Environ
