import Hacman.Check
import Hacman.Environ
import Hacman.Ranges
import Hacman.Words

/-!
# Options from the environment and the command line

One parser reads the words of HACMAN and then the words of the command line into the same
options. The words of HACMAN act like words in front of the others.
-/

namespace Hacman.Options
open Octets Util Environ Words Ranges

section Parser

def optIs (arg : Bytes) (short long : String) : Bool := arg = ascii short || arg = ascii long

/-- The first word that is no option is FILE; a dash alone is standard input. -/
def isFile (a : Bytes) : Bool := a.head? ≠ some 45 || a = ascii "-"

def switch (a : Bytes) : Option (Opts → Opts) :=
  if optIs a "-c" "--check-only" then some fun o => { o with checkOnly := true }
  else if optIs a "-n" "--dry-run" then some fun o => { o with dryRun := true }
  else if optIs a "-f" "--force" then some fun o => { o with force := true }
  else if optIs a "-a" "--adopt" then some fun o => { o with adopt := true }
  else if optIs a "-p" "--plan" then some fun o => { o with plan := true }
  else if a = ascii "--unpack" then some fun o => { o with unpack := true }
  else if optIs a "-v" "--verbose" then some fun o => { o with verbose := true }
  else if optIs a "-x" "--trace" then some fun o => { o with trace := true }
  else none

/-- The conversion from `unsigned long` to `int` keeps 32 bits. -/
def toInt (v : Nat) : Int := ((v + 2 ^ 31) % 2 ^ 32 : Nat) - 2 ^ 31

def timeoutValue (s : Bytes) : Option Int :=
  match hmParseUlong s with
  | none => none
  | some v => if v = 0 then none else some (toInt v)

inductive Outcome
  | ok (o : Opts)
  | stop (out : Bytes)
  | error (text : Bytes)
  deriving DecidableEq, Repr

variable (usageText version : Bytes)

def parseArgList (envOnly : Bool) : List Bytes → Opts → Outcome
  | [], o => .ok o
  | a :: rest, o =>
    if isFile a then
      if envOnly then .error (message "hacman: HACMAN may contain options only (found '%s')\n"
        [.str a])
      else .ok { o with file := some a, progArgs := rest }
    else match switch a with
      | some set => parseArgList envOnly rest (set o)
      | none =>
        if optIs a "-h" "--help" then .stop (message "%s" [.str usageText])
        else if optIs a "-V" "--version" then .stop (message "hacman %s\n" [.str version])
        else if a = ascii "--cache" then match rest with
          | [] => .error (message "hacman: --cache needs a directory\n" [])
          | dir :: rest => parseArgList envOnly rest { o with cacheDir := some dir }
        else if optIs a "-t" "--timeout" then match rest with
          | [] => .error (message "hacman: --timeout needs a number\n" [])
          | s :: rest => match timeoutValue s with
            | none => .error (message "hacman: invalid timeout '%s'\n" [.str s])
            | some timeout => parseArgList envOnly rest { o with timeout := timeout }
        else .error (message "hacman: unknown option '%s'\n%s" [.str a, .str usageText])

/-- The options that `HACMAN_DEBUG` leaves to start with. -/
def debugOpts (debug : Option Bytes) : Except Bytes Opts :=
  let debug := debug.getD []
  if debug = [] then .ok {}
  else if debug = ascii "1" then .ok { verbose := true, trace := true }
  else if debug ≠ ascii "0" then .error (message "hacman: HACMAN_DEBUG must be 0 or 1\n" [])
  else .ok {}

def envOpts (options : Option Bytes) (o : Opts) : Outcome :=
  let options := options.getD []
  if options = [] then .ok o
  else match parseEnvWords options with
    | .error text => .error text
    | .ok words => parseArgList usageText version true words o

def parseArgs (env : HmEnv) (argv : List Bytes) : Outcome :=
  match debugOpts env.debug with
  | .error text => .error text
  | .ok o => match envOpts usageText version env.options o with
    | .ok o => parseArgList usageText version false (argv.drop 1) o
    | out => out

example : parseArgs [] [] { options := some (ascii "--cache 'my dir' -t 30") }
    [ascii "hacman", ascii "-t", ascii "5", ascii "f.siml", ascii "-c"] =
    .ok {
      file := some (ascii "f.siml")
      progArgs := [ascii "-c"]
      cacheDir := some (ascii "my dir")
      timeout := 5 } := by
  decide +kernel

end Parser

section Turn
variable {usageText version : Bytes} {envOnly : Bool} {a : Bytes}
  {words front rest args : List Bytes} {o o' : Opts}
variable {set effect : Opts → Opts}

/-- One option with its value, and what it does. -/
inductive Sets : List Bytes → (Opts → Opts) → Prop
  | switch {a : Bytes} {set : Opts → Opts} (hfile : ¬ isFile a)
    (h : switch a = some set) : Sets [a] set
  | cache (dir : Bytes) : Sets [ascii "--cache", dir] fun o => { o with cacheDir := some dir }
  | timeout {a s : Bytes} {timeout : Int} (ha : optIs a "-t" "--timeout")
    (h : timeoutValue s = some timeout) : Sets [a, s] fun o => { o with timeout := timeout }

inductive Run : List Bytes → (Opts → Opts) → Prop
  | nil : Run [] id
  | cons {words rest : List Bytes} {set effect : Opts → Opts} (h : Sets words set)
    (hrest : Run rest effect) : Run (words ++ rest) (effect ∘ set)

theorem parse_switch (hfile : ¬ isFile a) (h : switch a = some set) :
    parseArgList usageText version envOnly (a :: rest) o =
      parseArgList usageText version envOnly rest (set o) := by
  rw [parseArgList.eq_def]
  simp only [if_neg hfile, h]

theorem parse_sets (h : Sets words set) : parseArgList usageText version envOnly (words ++ args) o =
    parseArgList usageText version envOnly args (set o) := by
  cases h with
  | switch hfile h => exact parse_switch hfile h
  | cache dir => rfl
  | @timeout a s timeout ha h =>
    have hname : a = ascii "-t" ∨ a = ascii "--timeout" := by simpa [optIs] using ha
    rw [List.cons_append, List.cons_append, List.nil_append, parseArgList.eq_def]
    rcases hname with rfl | rfl
    · simp only [h]
      rfl
    · simp only [h]
      rfl

theorem parse_ok (h : parseArgList usageText version envOnly words o = .ok o') :
    words = [] ∧ o' = o ∨
    (∃ a rest, words = a :: rest ∧ isFile a ∧ envOnly = false ∧
      o' = { o with file := some a, progArgs := rest }) ∨
    ∃ first rest set, words = first ++ rest ∧ first ≠ [] ∧ Sets first set ∧
      parseArgList usageText version envOnly rest (set o) = .ok o' := by
  cases words with
  | nil =>
    rw [parseArgList, Outcome.ok.injEq] at h
    exact .inl ⟨rfl, h.symm⟩
  | cons a rest =>
    rw [parseArgList.eq_def] at h
    simp only at h
    split at h
    · rename_i hfile
      split at h
      · cases h
      · rename_i henv
        rw [Outcome.ok.injEq] at h
        exact .inr (.inl ⟨a, rest, rfl, hfile, by simpa using henv, h.symm⟩)
    · rename_i hfile
      refine .inr (.inr ?_)
      split at h
      · rename_i set hset
        exact ⟨[a], rest, set, rfl, List.cons_ne_nil _ _, .switch hfile hset, h⟩
      · split at h
        · cases h
        split at h
        · cases h
        split at h
        · rename_i hcache
          subst hcache
          split at h
          · cases h
          · rename_i dir rest
            exact ⟨[ascii "--cache", dir], rest, _, rfl, List.cons_ne_nil _ _, .cache dir, h⟩
        split at h
        · rename_i htimeout
          split at h
          · cases h
          · rename_i s rest
            split at h
            · cases h
            · rename_i timeout hvalue
              exact ⟨[a, s], rest, _, rfl, List.cons_ne_nil _ _, .timeout htimeout hvalue, h⟩
        · cases h

theorem parse_run (h : Run front effect) : parseArgList usageText version envOnly
    (front ++ args) o = parseArgList usageText version envOnly args (effect o) := by
  induction h generalizing o with
  | nil => rfl
  | cons h _ ih => rw [List.append_assoc, parse_sets h, ih, Function.comp_apply]

theorem parse_ok_run (h : parseArgList usageText version envOnly words o = .ok o') :
    ∃ front effect, Run front effect ∧ (words = front ∧ o' = effect o ∨
      ∃ a rest, words = front ++ a :: rest ∧ isFile a ∧ envOnly = false ∧
        o' = { effect o with file := some a, progArgs := rest }) := by
  induction hlen : words.length using Nat.strong_induction_on generalizing words o with
  | h n ih =>
    rcases parse_ok h with ⟨rfl, rfl⟩ | ⟨a, rest, rfl, hfile, henv, rfl⟩ |
      ⟨first, rest, set, rfl, hne, hset, h⟩
    · exact ⟨[], id, .nil, .inl ⟨rfl, rfl⟩⟩
    · exact ⟨[], id, .nil, .inr ⟨a, rest, rfl, hfile, henv, rfl⟩⟩
    · have hshorter : rest.length < n := by
        have hpos := List.length_pos_iff.mpr hne
        rw [List.length_append] at hlen
        omega
      obtain ⟨front, effect, hrun, hends⟩ := ih rest.length hshorter h rfl
      refine ⟨first ++ front, effect ∘ set, .cons hset hrun, hends.imp ?_ ?_⟩
      · rintro ⟨rfl, rfl⟩
        exact ⟨rfl, rfl⟩
      · rintro ⟨a, rest, rfl, hfile, henv, rfl⟩
        exact ⟨a, rest, (List.append_assoc _ _ _).symm, hfile, henv, rfl⟩

end Turn

section Prepended
variable {usageText version : Bytes} {env : HmEnv} {words front rest args : List Bytes}
  {o o' : Opts} {a : Bytes}
variable {set effect : Opts → Opts}

theorem switch_frame (h : switch a = some set) (o : Opts) :
    (set o).file = o.file ∧ (set o).progArgs = o.progArgs ∧ (set o).timeout = o.timeout := by
  unfold switch at h
  repeat' split at h
  all_goals first | cases h; exact ⟨rfl, rfl, rfl⟩ | cases h

theorem Sets.frame (h : Sets words set) (o : Opts) :
    (set o).file = o.file ∧ (set o).progArgs = o.progArgs := by
  cases h with
  | switch _ h => exact ⟨(switch_frame h o).1, (switch_frame h o).2.1⟩
  | cache _ => exact ⟨rfl, rfl⟩
  | timeout _ _ => exact ⟨rfl, rfl⟩

theorem Run.frame (h : Run words effect) (o : Opts) :
    (effect o).file = o.file ∧ (effect o).progArgs = o.progArgs := by
  induction h generalizing o with
  | nil => exact ⟨rfl, rfl⟩
  | @cons words rest set effect h _ ih =>
    have hset := h.frame o
    exact ⟨(ih (set o)).1.trans hset.1, (ih (set o)).2.trans hset.2⟩

theorem parse_env_run (h : parseArgList usageText version true words o = .ok o') :
    ∃ effect, Run words effect ∧ o' = effect o := by
  obtain ⟨front, effect, hrun, ⟨rfl, rfl⟩ | ⟨a, rest, -, -, henv, -⟩⟩ := parse_ok_run h
  · exact ⟨effect, hrun, rfl⟩
  · cases henv

theorem envOpts_run {options : Option Bytes} (h : envOpts usageText version options o = .ok o') :
    ∃ words effect, Run words effect ∧ o' = effect o := by
  unfold envOpts at h
  simp only at h
  split at h
  · rw [Outcome.ok.injEq] at h
    exact ⟨[], id, .nil, h.symm⟩
  · split at h
    · cases h
    · obtain ⟨effect, hrun, heffect⟩ := parse_env_run h
      exact ⟨_, effect, hrun, heffect⟩

theorem parseEnvWords_nil : parseEnvWords [] = .ok [] := by decide +kernel

theorem envOpts_words {v : Bytes} (hspells : parseEnvWords v = .ok words) :
    envOpts usageText version (some v) o = parseArgList usageText version true words o := by
  by_cases hv : v = []
  · rw [hv, parseEnvWords_nil, Except.ok.injEq] at hspells
    subst hv hspells
    rfl
  · simp only [envOpts, Option.getD_some, if_neg hv, hspells]

theorem parseArgs_file {argv0 : Bytes} (h : parseArgs usageText version env (argv0 :: args) = .ok o)
    (hfile : o.file = some a) : ∃ front, args = front ++ a :: o.progArgs ∧
      ∀ rest, parseArgs usageText version env (argv0 :: (front ++ a :: rest)) =
        .ok { o with progArgs := rest } := by
  unfold parseArgs at h
  split at h
  · cases h
  · rename_i o₁ hdebug
    have hfile₁ : o₁.file = none := by
      unfold debugOpts at hdebug
      simp only at hdebug
      repeat' split at hdebug
      all_goals first | cases hdebug; rfl | cases hdebug
    split at h
    · rename_i o₂ henv
      obtain ⟨words, effect, hrun, rfl⟩ := envOpts_run henv
      obtain ⟨front, effect', hrun', ⟨-, rfl⟩ | ⟨b, rest, hargs, hb, -, rfl⟩⟩ := parse_ok_run h
      · rw [(hrun'.frame _).1, (hrun.frame _).1, hfile₁] at hfile
        cases hfile
      · obtain rfl : b = a := Option.some.inj hfile
        refine ⟨front, hargs, fun rest => ?_⟩
        have hparse : parseArgList usageText version false (b :: rest) (effect' (effect o₁)) =
            .ok { effect' (effect o₁) with file := some b, progArgs := rest } := by
          rw [parseArgList.eq_def]
          simp [hb]
        simp only [parseArgs, hdebug, henv, List.drop_succ_cons, List.drop_zero,
          parse_run hrun', hparse]
    · rename_i hout
      exact absurd h (hout o)

/-- HACMAN acts like its words in front of the others, and a word behind FILE sets no option. -/
theorem env_options_prepend {v argv0 : Bytes} (env : HmEnv) (args : List Bytes)
    (hspells : parseEnvWords v = .ok words) (halone : ∃ o,
      parseArgList usageText version true words {} = .ok o) :
    parseArgs usageText version { env with options := some v } (argv0 :: args) =
      parseArgs usageText version { env with options := none } (argv0 :: (words ++ args)) ∧
    ∀ o a, parseArgs usageText version { env with options := some v } (argv0 :: args) = .ok o →
      o.file = some a → ∃ front, args = front ++ a :: o.progArgs ∧ ∀ rest,
        parseArgs usageText version { env with options := some v } (argv0 :: (front ++ a :: rest)) =
          .ok { o with progArgs := rest } := by
  refine ⟨?_, fun o a => parseArgs_file⟩
  obtain ⟨o, halone⟩ := halone
  obtain ⟨effect, hrun, -⟩ := parse_env_run halone
  have hwords (o : Opts) : parseArgList usageText version true words o = .ok (effect o) := by
    have h := @parse_run usageText version true words [] o effect hrun
    rwa [List.append_nil] at h
  unfold parseArgs
  cases debugOpts env.debug with
  | error text => rfl
  | ok o =>
    simp only [envOpts_words hspells, hwords, List.drop_succ_cons, List.drop_zero, parse_run hrun]
    rfl

theorem env_options_prepend_timeout :
    parseEnvWords (ascii "-v --timeout '7'") = .ok [ascii "-v", ascii "--timeout", ascii "7"] ∧
    parseArgList [] [] true [ascii "-v", ascii "--timeout", ascii "7"] {} =
      .ok { verbose := true, timeout := 7 } ∧
    parseArgs [] [] { options := some (ascii "-v --timeout '7'") }
      [ascii "hacman", ascii "--cache", ascii "-v", ascii "-", ascii "-t"] =
      parseArgs [] [] {} [ascii "hacman", ascii "-v", ascii "--timeout", ascii "7", ascii "--cache",
        ascii "-v", ascii "-", ascii "-t"] :=
  have hspells : parseEnvWords (ascii "-v --timeout '7'") =
      .ok [ascii "-v", ascii "--timeout", ascii "7"] := by
    decide +kernel
  have halone : parseArgList [] [] true [ascii "-v", ascii "--timeout", ascii "7"] {} =
      .ok { verbose := true, timeout := 7 } := by
    decide +kernel
  ⟨hspells, halone, (env_options_prepend {} [ascii "--cache", ascii "-v", ascii "-",
    ascii "-t"] hspells ⟨_, halone⟩).1⟩

end Prepended

section Timeout
variable {usageText version : Bytes} {env : HmEnv} {words front rest args argv : List Bytes}
  {o o' : Opts}
variable {s : Bytes} {set effect : Opts → Opts} {given : Option Bytes}

def INT_MAX : Nat := 2 ^ 31 - 1

def decimal (n : Nat) : Bytes := (revDigits (n + 1) n).reverse

/-- The value of the last timeout option in front of FILE. -/
def timeoutGiven : List Bytes → Option Bytes → Option Bytes
  | [], given => given
  | a :: rest, given =>
    if isFile a then given
    else if a = ascii "--cache" then match rest with
      | [] => given
      | _ :: rest => timeoutGiven rest given
    else if optIs a "-t" "--timeout" then match rest with
      | [] => given
      | s :: rest => timeoutGiven rest (some s)
    else timeoutGiven rest given

def lastTimeout (env : HmEnv) (argv : List Bytes) : Option Bytes :=
  timeoutGiven (argv.drop 1) (timeoutGiven
    ((parseEnvWords (env.options.getD [])).toOption.getD []) none)

def Holds (given : Option Bytes) (o : Opts) : Prop :=
  ∀ s, given = some s → timeoutValue s = some o.timeout

theorem timeoutGiven_file {a : Bytes} (h : isFile a) : timeoutGiven (a :: rest) given = given := by
  rw [timeoutGiven.eq_def]
  simp only [if_pos h]

theorem switch_other {a : Bytes} (h : switch a = some set) :
    a ≠ ascii "--cache" ∧ optIs a "-t" "--timeout" = false := by
  constructor
  · rintro rfl
    revert h
    simp [switch, optIs, ascii]
  · rw [← Bool.not_eq_true]
    intro ha
    rcases (by simpa [optIs] using ha : a = ascii "-t" ∨ a = ascii "--timeout") with rfl | rfl
    · revert h
      simp [switch, optIs, ascii]
    · revert h
      simp [switch, optIs, ascii]

theorem Sets.timeout_given (h : Sets words set) (given : Option Bytes) : ∃ given',
    (∀ args, timeoutGiven (words ++ args) given = timeoutGiven args given') ∧
      (Holds given o → Holds given' (set o)) := by
  cases h with
  | switch hfile h =>
    obtain ⟨hcache, htimeout⟩ := switch_other h
    refine ⟨given, fun args => ?_, fun hgiven s hs => ?_⟩
    · rw [List.singleton_append, timeoutGiven.eq_def]
      simp only [if_neg hfile, if_neg hcache, htimeout, Bool.false_eq_true, if_false]
    · rw [(switch_frame h o).2.2]
      exact hgiven s hs
  | cache dir => exact ⟨given, fun args => rfl, fun hgiven s hs => hgiven s hs⟩
  | @timeout a s timeout ha h =>
    refine ⟨some s, fun args => ?_, fun _ s' hs' => ?_⟩
    · rcases (by simpa [optIs] using ha : a = ascii "-t" ∨ a = ascii "--timeout") with rfl | rfl
      · rfl
      · rfl
    · rw [← Option.some.inj hs']
      exact h

theorem Run.timeout_given (h : Run words effect) (given : Option Bytes) (o : Opts) : ∃ given',
    (∀ args, timeoutGiven (words ++ args) given = timeoutGiven args given') ∧
      (Holds given o → Holds given' (effect o)) := by
  induction h generalizing given o with
  | nil => exact ⟨given, fun args => rfl, id⟩
  | @cons words rest set effect h _ ih =>
    obtain ⟨given₁, hgiven₁, hholds₁⟩ := h.timeout_given (o := o) given
    obtain ⟨given₂, hgiven₂, hholds₂⟩ := ih given₁ (set o)
    exact ⟨given₂, fun args => by rw [List.append_assoc, hgiven₁, hgiven₂], hholds₂ ∘ hholds₁⟩

theorem parse_holds {envOnly : Bool} (h : parseArgList usageText version envOnly words o = .ok o')
    (hgiven : Holds given o) : Holds (timeoutGiven words given) o' := by
  obtain ⟨front, effect, hrun, hends⟩ := parse_ok_run h
  obtain ⟨given', hfront, hholds⟩ := hrun.timeout_given given o
  rcases hends with ⟨rfl, rfl⟩ | ⟨a, rest, rfl, hfile, -, rfl⟩
  · have hwords := hfront []
    rw [List.append_nil] at hwords
    rw [hwords]
    exact hholds hgiven
  · rw [hfront, timeoutGiven_file hfile]
    exact hholds hgiven

theorem parseArgs_holds (h : parseArgs usageText version env argv = .ok o) :
    Holds (lastTimeout env argv) o := by
  unfold parseArgs at h
  split at h
  · cases h
  · rename_i o₁ _
    have hnone : Holds none o₁ := fun s hs => nomatch hs
    split at h
    · rename_i o₂ henv
      refine parse_holds h ?_
      unfold envOpts at henv
      simp only at henv
      split at henv
      · rename_i hoptions
        rw [Outcome.ok.injEq] at henv
        rw [hoptions, parseEnvWords_nil, ← henv]
        exact hnone
      · split at henv
        · cases henv
        · rename_i words hwords
          rw [hwords]
          exact parse_holds henv hnone
    · rename_i hout
      exact absurd h (hout o)

theorem revDigits_fuel {f g x : Nat} (hf : x < 10 ^ f) (hg : x < 10 ^ g) (hf' : 0 < f)
    (hg' : 0 < g) : revDigits f x = revDigits g x := by
  induction f generalizing g x with
  | zero => cases hf'
  | succ f ih =>
    obtain ⟨g, rfl⟩ := Nat.exists_eq_add_of_lt hg'
    rw [Nat.zero_add, revDigits, revDigits]
    by_cases hx : 0 < x / 10
    · have hpos (n : Nat) (hn : x < 10 ^ (n + 1)) : x / 10 < 10 ^ n ∧ 0 < n := by
        rw [Nat.pow_succ] at hn
        refine ⟨Nat.div_lt_of_lt_mul (by omega), Nat.pos_of_ne_zero ?_⟩
        rintro rfl
        omega
      rw [Nat.zero_add] at hg
      rw [if_pos hx, if_pos hx, ih (hpos f hf).1 (hpos g hg).1 (hpos f hf).2 (hpos g hg).2]
    · rw [if_neg hx, if_neg hx]

theorem lt_pow_succ (n : Nat) : n < 10 ^ (n + 1) :=
  (Nat.lt_pow_self (by decide)).trans (Nat.pow_lt_pow_right (by decide) (Nat.lt_succ_self n))

theorem timeoutArg_decimal {n : Nat} (hpos : 0 < n) (hmax : n ≤ INT_MAX) :
    Check.timeoutArg n = decimal n := by
  have hlt : n < 10 ^ 16 := lt_of_le_of_lt hmax (by decide)
  have hint : (0 : Int) < n := by omega
  rw [Check.timeoutArg, decimal, if_pos hint, Int.toNat_natCast,
    revDigits_fuel hlt (lt_pow_succ n) (by decide) (Nat.succ_pos n)]

theorem timeoutValue_digits (hs : Digits s) : timeoutValue s =
    if digitsVal s % 2 ^ 64 = 0 then none else some (toInt (digitsVal s % 2 ^ 64)) := by
  rw [timeoutValue, hmParseUlong_digits hs]

theorem toInt_small {v : Nat} (h : v ≤ INT_MAX) : toInt v = v := by
  unfold toInt
  unfold INT_MAX at h
  rw [Nat.mod_eq_of_lt (by omega)]
  omega

/-- Whoever gives this timeout last gets it on the command line of curl, and a number that is no
`int` is turned down. -/
def TimeoutKept (s : Bytes) : Prop :=
  ∀ usageText version env argv o, parseArgs usageText version env argv = .ok o →
    lastTimeout env argv = some s → digitsVal s ≤ INT_MAX ∧ ∀ curl url headOnly,
      ((Check.curlArgv curl url headOnly o.timeout).drop 5).take 2 =
        [ascii "--max-time", decimal (digitsVal s)]

theorem parseArgs_timeout {t : Int} (h : timeoutValue s = some t) :
    parseArgs usageText version {} [ascii "hacman", ascii "-t", s, ascii "f.siml"] =
      .ok { file := some (ascii "f.siml"), timeout := t } := by
  have hparse : parseArgList usageText version false ([ascii "-t", s] ++ [ascii "f.siml"]) {} = _ :=
    parse_sets (.timeout (by decide) h)
  exact hparse

/-- The timeout is the one that was given for as long as it is an `int`, and a number that is zero
in an `unsigned long` is turned down. -/
theorem timeout_used (hs : Digits s) :
    TimeoutKept s ↔ digitsVal s ≤ INT_MAX ∨ digitsVal s % 2 ^ 64 = 0 := by
  constructor
  · intro h
    by_contra hcond
    obtain ⟨hlarge, hzero⟩ := not_or.mp hcond
    have hvalue := timeoutValue_digits hs
    rw [if_neg hzero] at hvalue
    exact hlarge (h [] [] {} _ _ (parseArgs_timeout hvalue) rfl).1
  · intro hcond usageText version env argv o hparse hlast
    have hvalue := parseArgs_holds hparse s hlast
    rw [timeoutValue_digits hs] at hvalue
    by_cases hzero : digitsVal s % 2 ^ 64 = 0
    · rw [if_pos hzero] at hvalue
      cases hvalue
    · have hmax : digitsVal s ≤ INT_MAX := hcond.resolve_right hzero
      have hmod : digitsVal s % 2 ^ 64 = digitsVal s :=
        Nat.mod_eq_of_lt (lt_of_le_of_lt hmax (by decide))
      rw [if_neg hzero, hmod, toInt_small hmax, Option.some.injEq] at hvalue
      rw [hmod] at hzero
      refine ⟨hmax, fun curl url headOnly => ?_⟩
      rw [← hvalue, ← timeoutArg_decimal (Nat.pos_of_ne_zero hzero) hmax]
      rfl

theorem timeout_used_default : Digits (ascii "15") ∧ TimeoutKept (ascii "15") :=
  have hs : Digits (ascii "15") := by decide
  ⟨hs, (timeout_used hs).mpr (.inl (by decide))⟩

theorem timeout_wraps :
    parseArgs [] [] {} [ascii "hacman", ascii "-t", ascii "4294967297", ascii "f.siml"] =
      .ok { file := some (ascii "f.siml"), timeout := 1 } ∧
    ((Check.curlArgv [] [] false 1).drop 5).take 2 = [ascii "--max-time", ascii "1"] ∧
    ¬ TimeoutKept (ascii "4294967297") := by
  have hvalue : timeoutValue (ascii "4294967297") = some 1 := by decide +kernel
  refine ⟨parseArgs_timeout hvalue, by decide +kernel, fun h => ?_⟩
  exact absurd (h [] [] {} _ _ (parseArgs_timeout hvalue) rfl).1 (by decide +kernel)

end Timeout

end Hacman.Options
