import Hacman.Config

/-!
# Templates

What a template stands for is said without a scanner: a text with variables between double
braces. `expand_template` reads it from left to right into a buffer and caps what it writes;
it accepts exactly the templates with short names whose expansion fits.
-/

namespace Hacman.Templates
open Octets Util Config

section Meaning

inductive Part
  | text (ch : UInt8)
  | var (name : Bytes)
  deriving DecidableEq, Repr

/-- The parts of a template. A name ends at its first closing brace. -/
inductive Scans : Bytes → List Part → Prop
  | nil : Scans [] []
  | text {ch : UInt8} {tpl : Bytes} {parts : List Part}
      (h : ¬ (ch = BRACE_OPEN ∧ tpl.head? = some BRACE_OPEN)) :
      Scans tpl parts → Scans (ch :: tpl) (.text ch :: parts)
  | var {name tpl : Bytes} {parts : List Part} (h : BRACE_CLOSE ∉ name) : Scans tpl parts →
      Scans (BRACE_OPEN :: BRACE_OPEN :: (name ++ BRACE_CLOSE :: BRACE_CLOSE :: tpl))
        (.var name :: parts)

variable (x : Input)

/-- The environment, with the home directory that was looked up at startup. -/
def lookupVar (name : Bytes) : Option Bytes :=
  if cstr name = ascii "HOME" then x.home else x.getenv (cstr name)

/-- A variable has to be set and not empty. -/
def value : Part → Option Bytes
  | .text ch => some [ch]
  | .var name => (lookupVar x name).filter (· ≠ [])

def substitute (parts : List Part) : Option Bytes := (parts.mapM (value x)).map List.flatten

/-- The text that a template stands for, if it is short enough and, where it has to be, absolute. -/
structure Expands (tpl : Bytes) (requireAbsolute : Bool) (parts : List Part)
    (text : Bytes) : Prop where
  scans : Scans tpl parts
  values : substitute x parts = some text
  fits : text.length ≤ HM_PATH_MAX
  rooted : requireAbsolute = true → text.head? = some SLASH

end Meaning

section Scanner
variable {x : Input} {what : String} {line : Nat}

/-- The names fit into the scanner's buffer of 64 bytes. -/
def Short (parts : List Part) : Prop := ∀ name, .var name ∈ parts → name.length ≤ 63

theorem short_nil : Short [] := fun _ h => absurd h List.not_mem_nil

theorem short_text {ch : UInt8} {parts : List Part} : Short (.text ch :: parts) ↔ Short parts := by
  simp [Short]

theorem short_var {name : Bytes} {parts : List Part} :
    Short (.var name :: parts) ↔ name.length ≤ 63 ∧ Short parts := by
  simp [Short, or_imp, forall_and]

theorem substitute_cons (part : Part) (parts : List Part) : substitute x (part :: parts) =
    (value x part).bind fun v => (substitute x parts).map (v ++ ·) := by
  rw [substitute, substitute, List.mapM_cons]
  cases value x part with
  | none => rfl
  | some v => cases parts.mapM (value x) <;> rfl

theorem substitute_notMem {b : UInt8} {tpl text : Bytes} {parts : List Part} (h : Scans tpl parts)
    (hvalue : substitute x parts = some text) (htpl : b ∉ tpl)
    (hvars : ∀ name v, .var name ∈ parts → lookupVar x name = some v → b ∉ v) : b ∉ text := by
  induction h generalizing text with
  | nil =>
    cases hvalue
    exact List.not_mem_nil
  | text hch _ ih =>
    rw [substitute_cons, value, Option.bind_some, Option.map_eq_some_iff] at hvalue
    obtain ⟨t, ht, rfl⟩ := hvalue
    rw [List.mem_cons, not_or] at htpl
    rw [List.mem_append, List.mem_singleton, not_or]
    exact ⟨htpl.1, ih ht htpl.2 fun name v hmem => hvars name v (List.mem_cons_of_mem _ hmem)⟩
  | var hname _ ih =>
    rw [substitute_cons, Option.bind_eq_some_iff] at hvalue
    obtain ⟨v, hv, hrest⟩ := hvalue
    obtain ⟨t, ht, rfl⟩ := Option.map_eq_some_iff.mp hrest
    have hlookup := (Option.filter_eq_some_iff.mp hv).1
    rw [List.mem_append, not_or]
    refine ⟨hvars _ v List.mem_cons_self hlookup,
      ih ht (fun hmem => htpl (by simp [hmem])) fun name v hmem => ?_⟩
    exact hvars name v (List.mem_cons_of_mem _ hmem)

theorem capped_append (out v t : Bytes) (long : Bool) {room : Nat} (h : out.length ≤ room) :
    (out ++ v.take (room - out.length) ++ t).take room = (out ++ (v ++ t)).take room ∧
    ((long || decide (room - out.length < v.length)) ||
      decide (room < (out ++ v.take (room - out.length) ++ t).length)) =
        (long || decide (room < (out ++ (v ++ t)).length)) := by
  rcases Nat.lt_or_ge (room - out.length) v.length with hlt | hge
  · have hfull : (out ++ v.take (room - out.length)).length = room := by
      rw [List.length_append, List.length_take]
      omega
    constructor
    · rw [List.take_left' hfull, List.take_append, List.take_of_length_le h,
        List.take_append_of_le_length (Nat.le_of_lt hlt)]
    · have hlong : room < (out ++ (v ++ t)).length := by
        rw [List.length_append, List.length_append]
        omega
      rw [decide_eq_true hlt, decide_eq_true hlong, Bool.or_true, Bool.true_or]
  · rw [List.take_of_length_le hge, List.append_assoc]
    simp [Nat.not_lt.mpr hge]

theorem closed_iff (body : Bytes) :
    let name := (body.takeWhile (· ≠ BRACE_CLOSE)).take 63
    ((body.drop name.length).head? = some BRACE_CLOSE ∧
      ((body.drop name.length).drop 1).head? = some BRACE_CLOSE) ↔
    BRACE_CLOSE ∉ name ∧ body = name ++ BRACE_CLOSE :: BRACE_CLOSE ::
      (body.drop name.length).drop 2 := by
  intro name
  have hpre : name <+: body := (List.take_prefix _ _).trans (List.takeWhile_prefix _)
  have hsplit : body = name ++ body.drop name.length := by
    obtain ⟨rest, hrest⟩ := hpre
    rw [← hrest, List.drop_left]
  have hname : BRACE_CLOSE ∉ name := by
    intro hmem
    simpa using List.mem_takeWhile_imp (List.mem_of_mem_take hmem)
  generalize body.drop name.length = rest at hsplit
  constructor
  · rintro ⟨hfirst, hsecond⟩
    refine ⟨hname, ?_⟩
    cases rest with
    | nil => cases hfirst
    | cons a rest =>
      cases rest with
      | nil => cases hsecond
      | cons b rest =>
        obtain rfl := Option.some.inj hfirst
        obtain rfl := Option.some.inj hsecond
        exact hsplit
  · rintro ⟨-, hbody⟩
    have hrest := List.append_cancel_left (hsplit.symm.trans hbody)
    rw [hrest]
    exact ⟨rfl, rfl⟩

theorem scans_var {name tpl : Bytes} {parts : List Part} (hname : BRACE_CLOSE ∉ name)
    (h : Scans (BRACE_OPEN :: BRACE_OPEN :: (name ++ BRACE_CLOSE :: BRACE_CLOSE :: tpl)) parts) :
    ∃ parts', parts = .var name :: parts' ∧ Scans tpl parts' := by
  generalize hall : BRACE_OPEN :: BRACE_OPEN :: (name ++ BRACE_CLOSE :: BRACE_CLOSE :: tpl) =
    all at h
  cases h with
  | nil => cases hall
  | text hch _ =>
    obtain ⟨rfl, rfl⟩ := List.cons.inj hall
    exact absurd ⟨rfl, rfl⟩ hch
  | @var name' tpl' parts' hname' hrest =>
    have hbody := (List.cons.inj (List.cons.inj hall).2).2
    have hbefore := congrArg (before BRACE_CLOSE) hbody
    rw [before_append _ hname, before_append _ hname'] at hbefore
    subst hbefore
    have htail := List.append_cancel_left hbody
    obtain rfl := (List.cons.inj (List.cons.inj htail).2).2
    exact ⟨parts', rfl, hrest⟩

theorem taken_name {name rest : Bytes} (h : BRACE_CLOSE ∉ name) (hlen : name.length ≤ 63) :
    ((name ++ BRACE_CLOSE :: rest).takeWhile (· ≠ BRACE_CLOSE)).take 63 = name := by
  have htake := before_append rest h
  rw [before] at htake
  rw [htake, List.take_of_length_le hlen]

/-- The scanner has written what fits of the expansion, and knows whether that was all. -/
structure Scanned (x : Input) (cap : Nat) (tpl out : Bytes) (long : Bool) (res : Bytes × Bool) :
    Prop where
  expands : ∃ parts text, Scans tpl parts ∧ Short parts ∧ substitute x parts = some text ∧
    res = ((out ++ text).take (cap - 1), long || decide (cap - 1 < (out ++ text).length))

theorem scanned_nil {cap : Nat} {out : Bytes} {long : Bool} (h : out.length ≤ cap - 1)
    {res : Bytes × Bool} : Scanned x cap [] out long res ↔ res = (out, long) := by
  have hself : ((out ++ []).take (cap - 1), long || decide (cap - 1 < (out ++ []).length)) =
      (out, long) := by
    rw [List.append_nil, List.take_of_length_le h, decide_eq_false (Nat.not_lt.mpr h),
      Bool.or_false]
  constructor
  · rintro ⟨parts, text, hscans, -, hvalue, rfl⟩
    cases hscans
    obtain rfl := Option.some.inj hvalue
    exact hself
  · rintro rfl
    exact ⟨[], [], .nil, short_nil, rfl, hself.symm⟩

theorem scanned_text {cap : Nat} {ch : UInt8} {tpl out : Bytes} {long : Bool} {res : Bytes × Bool}
    (h : out.length ≤ cap - 1) (hch : ¬ (ch = BRACE_OPEN ∧ tpl.head? = some BRACE_OPEN)) :
    Scanned x cap (ch :: tpl) out long res ↔
      Scanned x cap tpl (out ++ [ch].take (cap - 1 - out.length))
      (long || decide (cap - 1 - out.length < [ch].length)) res := by
  constructor
  · rintro ⟨parts, text, hscans, hshort, hvalue, rfl⟩
    cases hscans with
    | var _ _ => exact absurd ⟨rfl, rfl⟩ hch
    | @text _ _ parts _ hrest =>
      rw [substitute_cons, value, Option.bind_some, Option.map_eq_some_iff] at hvalue
      obtain ⟨t, ht, rfl⟩ := hvalue
      obtain ⟨htake, hlong⟩ := capped_append out [ch] t long h
      refine ⟨parts, t, hrest, short_text.mp hshort, ht, ?_⟩
      rw [htake, hlong]
  · rintro ⟨parts, t, hscans, hshort, hvalue, rfl⟩
    obtain ⟨htake, hlong⟩ := capped_append out [ch] t long h
    refine ⟨.text ch :: parts, [ch] ++ t, .text hch hscans, short_text.mpr hshort, ?_, ?_⟩
    · rw [substitute_cons, hvalue]
      rfl
    · rw [htake, hlong]

theorem scanned_var {cap : Nat} {name tpl out v : Bytes} {long : Bool} {res : Bytes × Bool}
    (h : out.length ≤ cap - 1) (hname : BRACE_CLOSE ∉ name) (hlen : name.length ≤ 63)
    (hv : value x (.var name) = some v) :
    Scanned x cap (BRACE_OPEN :: BRACE_OPEN :: (name ++ BRACE_CLOSE :: BRACE_CLOSE :: tpl))
      out long res ↔ Scanned x cap tpl (out ++ v.take (cap - 1 - out.length))
        (long || decide (cap - 1 - out.length < v.length)) res := by
  constructor
  · rintro ⟨parts, text, hscans, hshort, hvalue, rfl⟩
    obtain ⟨parts, rfl, hrest⟩ := scans_var hname hscans
    rw [substitute_cons, hv, Option.bind_some, Option.map_eq_some_iff] at hvalue
    obtain ⟨t, ht, rfl⟩ := hvalue
    obtain ⟨htake, hlong⟩ := capped_append out v t long h
    refine ⟨parts, t, hrest, (short_var.mp hshort).2, ht, ?_⟩
    rw [htake, hlong]
  · rintro ⟨parts, t, hscans, hshort, hvalue, rfl⟩
    obtain ⟨htake, hlong⟩ := capped_append out v t long h
    refine ⟨.var name :: parts, v ++ t, .var hname hscans, short_var.mpr ⟨hlen, hshort⟩, ?_, ?_⟩
    · rw [substitute_cons, hv, hvalue]
      rfl
    · rw [htake, hlong]

theorem not_scanned {cap : Nat} {body out : Bytes} {long : Bool} {res : Bytes × Bool}
    (hopen : ¬ ((body.drop ((body.takeWhile (· ≠ BRACE_CLOSE)).take 63).length).head? =
        some BRACE_CLOSE ∧
      ((body.drop ((body.takeWhile (· ≠ BRACE_CLOSE)).take 63).length).drop 1).head? =
        some BRACE_CLOSE)) :
    ¬ Scanned x cap (BRACE_OPEN :: BRACE_OPEN :: body) out long res := by
  rintro ⟨parts, text, hscans, hshort, -⟩
  generalize hall : BRACE_OPEN :: BRACE_OPEN :: body = all at hscans
  cases hscans with
  | nil => cases hall
  | text hch _ =>
    obtain ⟨rfl, rfl⟩ := List.cons.inj hall
    exact absurd ⟨rfl, rfl⟩ hch
  | @var name tpl parts hname hrest =>
    have hbody := (List.cons.inj (List.cons.inj hall).2).2
    rw [hbody, taken_name hname (short_var.mp hshort).1, List.drop_left] at hopen
    exact hopen ⟨rfl, rfl⟩

theorem value_none {name : Bytes} : value x (.var name) = none ↔
    lookupVar x name = none ∨ lookupVar x name = some [] := by
  rw [value]
  cases lookupVar x name with
  | none => simp
  | some v => simp

theorem value_some {name v : Bytes} (h : lookupVar x name = some v) (hne : v ≠ []) :
    value x (.var name) = some v := by
  rw [value, h]
  simp [hne]

theorem not_scanned_value {cap : Nat} {name tpl out : Bytes} {long : Bool} {res : Bytes × Bool}
    (hname : BRACE_CLOSE ∉ name) (hnone : value x (.var name) = none) :
    ¬ Scanned x cap (BRACE_OPEN :: BRACE_OPEN :: (name ++ BRACE_CLOSE :: BRACE_CLOSE :: tpl)) out
      long res := by
  rintro ⟨parts, text, hscans, -, hvalue, -⟩
  obtain ⟨parts, rfl, -⟩ := scans_var hname hscans
  rw [substitute_cons, hnone] at hvalue
  cases hvalue

theorem expandFrom_ok {cap : Nat} {fuel : Nat} {tpl out : Bytes} {long : Bool}
    (hfuel : tpl.length ≤ fuel) (hout : out.length ≤ cap - 1) (res : Bytes × Bool) :
    expandFrom x what cap line fuel tpl out long = .ok res ↔ Scanned x cap tpl out long res := by
  have hdone : (.ok (out, long) : Result (Bytes × Bool)) = .ok res ↔
      Scanned x cap [] out long res := by
    rw [scanned_nil hout, Except.ok.injEq, eq_comm]
  induction fuel generalizing tpl out long with
  | zero =>
    obtain rfl := List.eq_nil_of_length_eq_zero (Nat.le_zero.mp hfuel)
    exact hdone
  | succ fuel ih =>
    have hnext : ∀ (tpl' v : Bytes) (long' : Bool), tpl'.length ≤ fuel →
        (expandFrom x what cap line fuel tpl' (out ++ v.take (cap - 1 - out.length)) long' =
          .ok res ↔ Scanned x cap tpl' (out ++ v.take (cap - 1 - out.length)) long' res) := by
      intro tpl' v long' hlen
      have hroom : (out ++ v.take (cap - 1 - out.length)).length ≤ cap - 1 := by
        rw [List.length_append, List.length_take]
        omega
      refine ih hlen hroom ?_
      rw [scanned_nil hroom, Except.ok.injEq, eq_comm]
    cases tpl with
    | nil => exact hdone
    | cons ch tpl =>
      rw [List.length_cons] at hfuel
      rw [expandFrom]
      by_cases hbraces : ch = BRACE_OPEN ∧ tpl.head? = some BRACE_OPEN
      · obtain ⟨rfl, hhead⟩ := hbraces
        obtain ⟨body, rfl⟩ : ∃ body, tpl = BRACE_OPEN :: body := by
          cases tpl with
          | nil => cases hhead
          | cons b body => exact ⟨body, by rw [Option.some.inj hhead]⟩
        rw [if_pos ⟨rfl, rfl⟩]
        simp only [List.drop_succ_cons, List.drop_zero, Nat.add_comm 1]
        have hclosed := closed_iff body
        dsimp only at hclosed
        generalize hname : (body.takeWhile (· ≠ BRACE_CLOSE)).take 63 = name at hclosed ⊢
        by_cases hopen : (body.drop name.length).head? = some BRACE_CLOSE ∧
            ((body.drop name.length).drop 1).head? = some BRACE_CLOSE
        · rw [if_neg (by rw [hopen.1, hopen.2]; simp)]
          obtain ⟨hnotMem, hbody⟩ := hclosed.mp hopen
          have hlen : name.length ≤ 63 := by
            rw [← hname]
            exact List.length_take_le _ _
          have hrest : ((body.drop name.length).drop 2).length ≤ fuel := by
            rw [List.length_drop, List.length_drop]
            rw [List.length_cons] at hfuel
            omega
          generalize (body.drop name.length).drop 2 = rest at hbody hrest ⊢
          subst hbody
          have hlookup : (if cstr name = ascii "HOME" then x.home else x.getenv (cstr name)) =
              lookupVar x name := rfl
          rw [hlookup]
          cases hv : lookupVar x name with
          | none =>
            refine iff_of_false (fun h => by cases h) (not_scanned_value hnotMem ?_)
            exact value_none.mpr (.inl hv)
          | some v =>
            dsimp only
            by_cases hnil : v = []
            · rw [if_pos hnil]
              refine iff_of_false (fun h => by cases h) (not_scanned_value hnotMem ?_)
              exact value_none.mpr (.inr (hnil ▸ hv))
            · rw [if_neg hnil, scanned_var hout hnotMem hlen (value_some hv hnil)]
              exact hnext _ _ _ hrest
        · have hbad : (body.drop name.length).head? ≠ some BRACE_CLOSE ∨
              ((body.drop name.length).drop 1).head? ≠ some BRACE_CLOSE := not_and_or.mp hopen
          rw [if_pos hbad]
          refine iff_of_false (fun h => by cases h) (not_scanned ?_)
          rw [hname]
          exact hopen
      · rw [if_neg hbraces, scanned_text hout hbraces]
        by_cases hroom : out.length + 1 < cap
        · have htake : [ch].take (cap - 1 - out.length) = [ch] :=
            List.take_of_length_le (by simp; omega)
          have hfits : decide (cap - 1 - out.length < [ch].length) = false := by simp; omega
          rw [if_pos hroom, hfits, Bool.or_false]
          have h := hnext tpl [ch] long (by omega)
          rwa [htake] at h ⊢
        · have htake : [ch].take (cap - 1 - out.length) = [] := by
            rw [show cap - 1 - out.length = 0 by omega]
            rfl
          have hfull : decide (cap - 1 - out.length < [ch].length) = true := by simp; omega
          rw [if_neg hroom, hfull, Bool.or_true]
          have h := hnext tpl [ch] true (by omega)
          rwa [htake, List.append_nil] at h ⊢

end Scanner

section Expanded
variable {x : Input}

/-- What an accepted template became. -/
theorem expandTemplate_expands {tpl : Bytes} {what : String} {line : Nat} {requireAbsolute : Bool}
    {out : Bytes} (h : expandTemplate x tpl what (HM_PATH_MAX + 1) line requireAbsolute = .ok out) :
    ∃ parts text, Expands x tpl requireAbsolute parts text ∧ Short parts ∧ out = cstr text := by
  unfold expandTemplate at h
  cases hrun : expandFrom x what (HM_PATH_MAX + 1) line tpl.length tpl [] false with
  | error msg =>
    rw [hrun] at h
    cases h
  | ok res =>
    obtain ⟨parts, text, hscans, hshort, hvalue, rfl⟩ :=
      (expandFrom_ok (Nat.le_refl _) (Nat.zero_le _) res).mp hrun
    rw [hrun, List.nil_append, Bool.false_or, Nat.add_sub_cancel] at h
    dsimp only at h
    split_ifs at h with hlong hroot
    have hfits : text.length ≤ HM_PATH_MAX := by simpa using hlong
    rw [List.take_of_length_le hfits] at h hroot
    exact ⟨parts, text, ⟨hscans, hvalue, hfits, fun habs => by simpa [habs] using hroot⟩, hshort,
      (Except.ok.inj h).symm⟩

/-- `expand_template` succeeds exactly if every name is short and the template stands for a text
that fits, and gives that text. Names and text are C strings. -/
theorem template_expanded (tpl : Bytes) (what : String) (line : Nat) (requireAbsolute : Bool)
    (out : Bytes) :
    expandTemplate x tpl what (HM_PATH_MAX + 1) line requireAbsolute = .ok out ↔
      ∃ parts text, Expands x tpl requireAbsolute parts text ∧ Short parts ∧ out = cstr text := by
  have hscan : ∀ res, expandFrom x what (HM_PATH_MAX + 1) line tpl.length tpl [] false = .ok res ↔
      Scanned x (HM_PATH_MAX + 1) tpl [] false res :=
    expandFrom_ok (Nat.le_refl _) (Nat.zero_le _)
  rw [expandTemplate]
  constructor
  · intro h
    cases hrun : expandFrom x what (HM_PATH_MAX + 1) line tpl.length tpl [] false with
    | error msg =>
      rw [hrun] at h
      cases h
    | ok res =>
      obtain ⟨parts, text, hscans, hshort, hvalue, rfl⟩ := (hscan _).mp hrun
      rw [hrun] at h
      rw [List.nil_append, Bool.false_or, Nat.add_sub_cancel] at h
      dsimp only at h
      split_ifs at h with hlong hroot
      have hfits : text.length ≤ HM_PATH_MAX := by simpa using hlong
      rw [List.take_of_length_le hfits] at h hroot
      refine ⟨parts, text, ⟨hscans, hvalue, hfits, fun habs => ?_⟩, hshort, (Except.ok.inj h).symm⟩
      simpa [habs] using hroot
  · rintro ⟨parts, text, ⟨hscans, hvalue, hfits, hroot⟩, hshort, rfl⟩
    have hrun := (hscan (text, false)).mpr ⟨parts, text, hscans, hshort, hvalue, by
      rw [List.nil_append, Nat.add_sub_cancel, List.take_of_length_le hfits,
        decide_eq_false (Nat.not_lt.mpr hfits)]
      rfl⟩
    rw [hrun]
    dsimp only
    rw [if_neg Bool.false_ne_true, if_neg]
    simpa using hroot

def longName : Bytes := List.replicate 64 65

def longInput : Input where
  buf := []
  origin := ascii "t.siml"
  getenv := fun name => if name = longName then some (ascii "/opt") else none

theorem long_name_refused : ∃ tpl parts text, Expands longInput tpl true parts text ∧
    ∀ out, expandTemplate longInput tpl "bin-path" (HM_PATH_MAX + 1) 1 true ≠ .ok out := by
  refine ⟨BRACE_OPEN :: BRACE_OPEN :: (longName ++ BRACE_CLOSE :: BRACE_CLOSE :: []),
    [.var longName], ascii "/opt", ⟨.var (by decide) .nil, by decide +kernel, by decide, by decide⟩,
    fun out hout => ?_⟩
  have hrun : (expandTemplate longInput
      (BRACE_OPEN :: BRACE_OPEN :: (longName ++ BRACE_CLOSE :: BRACE_CLOSE :: [])) "bin-path"
      (HM_PATH_MAX + 1) 1 true).isOk = false := by decide +kernel
  rw [hout] at hrun
  cases hrun

end Expanded

end Hacman.Templates
