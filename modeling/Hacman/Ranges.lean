import Hacman.Requests

/-!
# Numbers outside their range

Both numbers that a user or a setup script can write, the interval of a schedule and the
times of a record, are digits accumulated modulo the word size. What is read is what was
written as long as the value fits, or vanishes as a multiple of the word size. An interval
that is rendered for the plan is read back as itself.
-/

namespace Hacman.Ranges
open Octets Util Cache Config Main Plan

section Words

def LONG_MIN : Int := -2 ^ 63

def InLong (v : Int) : Prop := LONG_MIN ≤ v ∧ v ≤ LONG_MAX

def Digits (s : Bytes) : Prop := s ≠ [] ∧ ∀ b ∈ s, isDigit b = true

theorem parseUlongFrom_none {v : Nat} {s : Bytes} (h : ∃ b ∈ s, isDigit b = false) :
    parseUlongFrom v s = none := by
  induction s generalizing v with
  | nil =>
    obtain ⟨b, hb, -⟩ := h
    cases hb
  | cons ch s ih =>
    cases hch : isDigit ch with
    | false => simp [parseUlongFrom, hch]
    | true =>
      obtain ⟨b, hb, hno⟩ := h
      have hrest : b ∈ s := (List.mem_cons.mp hb).resolve_left fun he => by
        rw [he, hch] at hno
        cases hno
      simp only [parseUlongFrom, hch, ↓reduceIte]
      exact ih ⟨b, hrest, hno⟩

theorem hmParseUlong_digits {s : Bytes} (h : Digits s) :
    hmParseUlong s = some (digitsVal s % 2 ^ 64) := by
  rw [hmParseUlong, if_neg h.1, parseUlongFrom_digits 0 s h.2 (by decide)]
  rfl

theorem hmParseUlong_none {s : Bytes} (h : ¬ Digits s) : hmParseUlong s = none := by
  unfold hmParseUlong
  split_ifs with hs
  · rfl
  · apply parseUlongFrom_none
    by_contra hall
    refine h ⟨hs, fun b hb => ?_⟩
    by_contra hno
    exact hall ⟨b, hb, Bool.eq_false_of_not_eq_true hno⟩

end Words

section Interval

def MeansIt (value mul : Nat) (parsed : Option (SchedKind × Int)) : Prop :=
  (∀ kind interval, parsed = some (kind, interval) →
    kind = .every ∧ interval = value * mul ∧ 0 < interval ∧ interval ≤ LONG_MAX) ∧
  (LONG_MAX < value * mul → parsed = none)

theorem scheduleUnit_pos {unit : UInt8} {mul : Nat} (h : scheduleUnit unit = some mul) :
    0 < mul := by
  unfold scheduleUnit at h
  split_ifs at h <;> cases h <;> decide

theorem parseSchedule_digits {interval : Int} {digits : Bytes} {unit : UInt8} (h : Digits digits) :
    parseSchedule interval (digits ++ [unit]) =
      (parseInterval (digits ++ [unit])).map fun i => (.every, i) := by
  obtain ⟨d, rest, rfl⟩ := List.exists_cons_of_ne_nil h.1
  have hd := h.2 d (List.mem_cons_self ..)
  have hname : ∀ name : Bytes, isDigit (name.head?.getD 97) = false →
      d :: rest ++ [unit] ≠ name := by
    rintro name hno rfl
    rw [List.cons_append, List.head?_cons, Option.getD_some, hd] at hno
    cases hno
  unfold parseSchedule
  simp only [if_neg (hname _ (show isDigit ((ascii "always").head?.getD 97) = false by decide)),
    if_neg (hname _ (show isDigit ((ascii "never").head?.getD 97) = false by decide)),
    if_neg (hname _ (show isDigit ((ascii "hourly").head?.getD 97) = false by decide)),
    if_neg (hname _ (show isDigit ((ascii "daily").head?.getD 97) = false by decide)),
    if_neg (hname _ (show isDigit ((ascii "weekly").head?.getD 97) = false by decide)),
    if_neg (hname _ (show isDigit ((ascii "monthly").head?.getD 97) = false by decide))]

theorem parseInterval_digits {digits : Bytes} {unit : UInt8} {mul : Nat} (h : Digits digits)
    (hu : scheduleUnit unit = some mul) : parseInterval (digits ++ [unit]) =
      if digitsVal digits % 2 ^ 64 = 0 then none
      else some (toLong (digitsVal digits % 2 ^ 64 * mul % 2 ^ 64)) := by
  have hlen := List.length_pos_iff.mpr h.1
  unfold parseInterval
  rw [if_neg (by rw [List.length_append, List.length_singleton]; omega)]
  simp only [List.getLast?_append, List.getLast?_singleton, Option.some_or, Option.getD_some, hu,
    List.dropLast_concat, hmParseUlong_digits h]

/-- A schedule of digits and a unit means what it says if and only if the product fits, or
the digits are a multiple of the word size. -/
theorem interval_means {interval : Int} {digits : Bytes} {unit : UInt8} {mul : Nat}
    (h : Digits digits) (hu : scheduleUnit unit = some mul) :
    MeansIt (digitsVal digits) mul (parseSchedule interval (digits ++ [unit])) ↔
      digitsVal digits * mul ≤ LONG_MAX ∨ digitsVal digits % 2 ^ 64 = 0 := by
  have hmul := scheduleUnit_pos hu
  rw [parseSchedule_digits h, parseInterval_digits h hu]
  generalize digitsVal digits = v
  by_cases hzero : v % 2 ^ 64 = 0
  · rw [if_pos hzero]
    exact iff_of_true ⟨nofun, fun _ => rfl⟩ (.inr hzero)
  · rw [if_neg hzero, or_iff_left hzero]
    constructor
    · intro hmeans
      by_contra hbig
      cases hmeans.2 (not_le.mp hbig)
    · intro hfits
      have hpos : 0 < v := Nat.pos_of_ne_zero fun hv => hzero (by rw [hv]; rfl)
      have hone : v ≤ v * mul := Nat.le_mul_of_pos_right v hmul
      have hprod : 0 < v * mul := Nat.mul_pos hpos hmul
      have hlong : v * mul < 2 ^ 63 := by
        simp only [LONG_MAX] at hfits
        omega
      have hval : toLong (v % 2 ^ 64 * mul % 2 ^ 64) = v * mul := by
        rw [Nat.mod_eq_of_lt (by omega : v < 2 ^ 64), Nat.mod_eq_of_lt (by omega), toLong,
          if_pos hlong]
        push_cast
        rfl
      rw [hval]
      refine ⟨fun kind i hi => ?_, fun hbig => absurd hfits (not_le.mpr hbig)⟩
      obtain ⟨rfl, rfl⟩ := Prod.mk.inj (Option.some.inj hi)
      exact ⟨rfl, rfl, by exact_mod_cast hprod, hfits⟩

theorem interval_means_day : MeansIt 30 86400 (parseSchedule 86400 (ascii "30d")) :=
  (@interval_means 86400 (ascii "30") 100 86400 ⟨by decide +kernel, by decide +kernel⟩ rfl).mpr
    (.inl (by decide))

/-- The word size and one are read as one second. -/
theorem interval_wraps : parseSchedule 86400 (ascii "18446744073709551617s") = some (.every, 1) ∧
    ¬ MeansIt 18446744073709551617 1
      (parseSchedule 86400 (ascii "18446744073709551617s")) := by
  have hparsed : parseSchedule 86400 (ascii "18446744073709551617s") = some (.every, 1) := by
    decide +kernel
  refine ⟨hparsed, fun hmeans => ?_⟩
  rw [hmeans.2 (by decide +kernel)] at hparsed
  cases hparsed

end Interval

section Epoch

instance (s : Bytes) : Decidable (Digits s) :=
  decidable_of_iff (s ≠ [] ∧ s.all isDigit = true) (and_congr_right fun _ => List.all_eq_true)

/-- The time that a field stands for; what is not a number or not a `long` counts as 0. -/
def recorded (field : Bytes) : Int :=
  if Digits field ∧ digitsVal field ≤ LONG_MAX then digitsVal field else 0

def Unwrapped (field : Bytes) : Prop :=
  Digits field → digitsVal field ≤ LONG_MAX ∨ digitsVal field % 2 ^ 64 = 0

def checkField (content : Bytes) : Bytes :=
  before TAB (before LF (after LF (content.take (HM_RECORD_MAX - 1))))

theorem parseEpoch_recorded {field : Bytes} :
    parseEpoch field = recorded field ↔ Unwrapped field := by
  unfold parseEpoch recorded Unwrapped
  by_cases hd : Digits field
  · rw [hmParseUlong_digits hd]
    simp only [hd, true_and, true_implies, toLong, LONG_MAX]
    generalize digitsVal field = v
    split_ifs <;> omega
  · rw [hmParseUlong_none hd]
    simp [hd]

theorem recorded_range (field : Bytes) : 0 ≤ recorded field ∧ recorded field ≤ LONG_MAX := by
  unfold recorded LONG_MAX
  split_ifs with h
  · exact ⟨Int.natCast_nonneg _, h.2⟩
  · exact ⟨le_rfl, by decide⟩

/-- A subtraction of longs that overflows has no value. -/
def subLong (a b : Int) : Option Int :=
  if LONG_MIN ≤ a - b ∧ a - b ≤ LONG_MAX then some (a - b) else none

def longScheduled (p : Project) (r : Record) (now : Int) : Option Decision :=
  if p.files ≠ [] ∧ !r.known then some .due
  else if p.files ≠ [] ∧ (!p.scheduleExplicit ∨ p.schedKind = .never) then some (.wait 0)
  else match p.schedKind with
    | .always => some .due
    | .never => some (.wait (-1))
    | .every =>
      if r.lastCheck = 0 then some .due
      else (subLong now r.lastCheck).bind fun elapsed =>
        if elapsed < 0 then some .due
        else if p.schedInterval ≤ elapsed then some .due
        else (subLong p.schedInterval elapsed).map .wait

theorem subLong_eq {a b : Int} (h : InLong (a - b)) : subLong a b = some (a - b) := if_pos h

theorem longScheduled_eq {p : Project} {r : Record} {now : Int} (hnow : 0 ≤ now ∧ now ≤ LONG_MAX)
    (hinterval : 0 < p.schedInterval ∧ p.schedInterval ≤ LONG_MAX)
    (hcheck : 0 ≤ r.lastCheck ∧ r.lastCheck ≤ LONG_MAX) :
    longScheduled p r now = some (scheduled p r now) := by
  unfold longScheduled scheduled
  split_ifs
  · rfl
  · rfl
  · cases p.schedKind <;> rfl
  · cases p.schedKind with
    | always | never => rfl
    | every =>
      have helapsed : InLong (now - r.lastCheck) := by
        unfold InLong LONG_MIN LONG_MAX at *
        omega
      dsimp only
      rw [subLong_eq helapsed, Option.bind_some]
      split_ifs with hback hover
      · rfl
      · rfl
      · have hleft : InLong (p.schedInterval - (now - r.lastCheck)) := by
          unfold InLong LONG_MIN LONG_MAX at *
          omega
        rw [subLong_eq hleft]
        rfl

theorem load_matching {identity rest : Bytes} (hline : LF ∉ identity)
    (hshort : identity.length ≤ HM_IDENTITY_MAX) :
    (hmCacheLoad identity (some (HM_CACHE_MAGIC ++ identity ++ LF :: rest))).lastCheck =
      parseEpoch (checkField (HM_CACHE_MAGIC ++ identity ++ LF :: rest)) := by
  have hhead : LF ∉ HM_CACHE_MAGIC ++ identity := by
    rw [List.mem_append, not_or]
    exact ⟨by decide, hline⟩
  have hfits : (HM_CACHE_MAGIC ++ identity).length < HM_RECORD_MAX - 1 := by
    have hmagic : HM_CACHE_MAGIC.length = 16 := rfl
    rw [List.length_append, hmagic]
    simp only [HM_IDENTITY_MAX] at hshort
    simp only [HM_RECORD_MAX]
    omega
  obtain ⟨room, hroom⟩ := Nat.exists_eq_add_of_lt hfits
  have hbuf : (HM_CACHE_MAGIC ++ identity ++ LF :: rest).take (HM_RECORD_MAX - 1) =
      HM_CACHE_MAGIC ++ identity ++ LF :: rest.take room := by
    rw [hroom, Nat.add_assoc, List.take_length_add_append]
    rfl
  have hpre : HM_CACHE_MAGIC.isPrefixOf (HM_CACHE_MAGIC ++ identity) = true :=
    List.isPrefixOf_iff_prefix.mpr (List.prefix_append _ _)
  unfold hmCacheLoad checkField
  dsimp only
  rw [hbuf, parseRecord, if_neg (by simp)]
  simp only [before_append _ hhead, after_append _ hhead, hpre, Bool.not_true, Bool.false_eq_true,
    ↓reduceIte, List.drop_left, ne_eq, not_true_eq_false]

/-- The loaded time is the recorded one and in its range, and the decision is computed
without an overflow. -/
def Safe (p : Project) (r : Record) (field : Bytes) (now : Int) : Prop :=
  r.lastCheck = recorded field ∧ (0 ≤ r.lastCheck ∧ r.lastCheck ≤ LONG_MAX) ∧
    longScheduled p r now = some (scheduled p r now)

/-- The decision is safe for a record if and only if its first number fits, vanishes or is
none. -/
theorem decision_safe {p : Project} {identity rest : Bytes} {now : Int} (hline : LF ∉ identity)
    (hshort : identity.length ≤ HM_IDENTITY_MAX) (hnow : 0 ≤ now ∧ now ≤ LONG_MAX)
    (hinterval : 0 < p.schedInterval ∧ p.schedInterval ≤ LONG_MAX) :
    Safe p (hmCacheLoad identity (some (HM_CACHE_MAGIC ++ identity ++ LF :: rest)))
        (checkField (HM_CACHE_MAGIC ++ identity ++ LF :: rest)) now ↔
      Unwrapped (checkField (HM_CACHE_MAGIC ++ identity ++ LF :: rest)) := by
  have hload := @load_matching identity rest hline hshort
  constructor
  · intro hsafe
    exact parseEpoch_recorded.mp (hload.symm.trans hsafe.1)
  · intro hfield
    have hcheck := hload.trans (parseEpoch_recorded.mpr hfield)
    have hrange := recorded_range (checkField (HM_CACHE_MAGIC ++ identity ++ LF :: rest))
    rw [← hcheck] at hrange
    exact ⟨hcheck, hrange, longScheduled_eq hnow hinterval hrange⟩

def dailyUrl : Project := { url := ascii "u", schedKind := .every, schedInterval := 86400 }

theorem decision_safe_short : Safe dailyUrl
    (hmCacheLoad (ascii "i") (some (HM_CACHE_MAGIC ++ ascii "i" ++ LF :: ascii "900\t0\tm\n")))
    (checkField (HM_CACHE_MAGIC ++ ascii "i" ++ LF :: ascii "900\t0\tm\n")) 1000 :=
  (decision_safe (by decide) (by decide) (by decide) (by decide)).mpr
    fun _ => .inl (by decide +kernel)

/-- One more than the largest `long` is read as the smallest, and the subtraction from the
clock overflows. -/
theorem far_record_overflows :
    (hmCacheLoad (ascii "i") (some (HM_CACHE_MAGIC ++ ascii "i" ++ LF ::
      ascii "9223372036854775808\t0\tm\n"))).lastCheck = LONG_MIN ∧
    longScheduled dailyUrl (hmCacheLoad (ascii "i") (some (HM_CACHE_MAGIC ++ ascii "i" ++ LF ::
      ascii "9223372036854775808\t0\tm\n"))) 1000 = none ∧
    ¬ Safe dailyUrl (hmCacheLoad (ascii "i") (some (HM_CACHE_MAGIC ++ ascii "i" ++ LF ::
      ascii "9223372036854775808\t0\tm\n")))
      (checkField (HM_CACHE_MAGIC ++ ascii "i" ++ LF :: ascii "9223372036854775808\t0\tm\n"))
      1000 := by
  have hcheck : (hmCacheLoad (ascii "i") (some (HM_CACHE_MAGIC ++ ascii "i" ++ LF ::
      ascii "9223372036854775808\t0\tm\n"))).lastCheck = LONG_MIN := by decide +kernel
  refine ⟨hcheck, by decide +kernel, fun hsafe => ?_⟩
  have hpos := hsafe.2.1.1
  rw [hcheck] at hpos
  exact absurd hpos (by decide)

end Epoch

section Rendered

theorem scheduleUnits_known : ∀ u ∈ scheduleUnits, ∃ unit mul, u = ([unit], ((mul : Nat) : Int)) ∧
    scheduleUnit unit = some mul ∧ 0 < mul := by
  intro u hu
  simp only [scheduleUnits, List.mem_cons, List.not_mem_nil, or_false] at hu
  rcases hu with rfl | rfl | rfl | rfl
  · exact ⟨119, 604800, rfl, rfl, by decide⟩
  · exact ⟨100, 86400, rfl, rfl, by decide⟩
  · exact ⟨104, 3600, rfl, rfl, by decide⟩
  · exact ⟨109, 60, rfl, rfl, by decide⟩

theorem inUnits_exact {v : Int} (hv : 0 < v) :
    ∃ unit mul q, inUnits v = ([unit], ((q : Nat) : Int)) ∧
    scheduleUnit unit = some mul ∧ 0 < q ∧ (q : Int) * mul = v := by
  unfold inUnits
  cases hfind : scheduleUnits.find? fun u => v.tmod u.2 = 0 with
  | none =>
    obtain ⟨q, rfl⟩ := Int.eq_ofNat_of_zero_le hv.le
    exact ⟨115, 1, q, rfl, rfl, by omega, by omega⟩
  | some u =>
    obtain ⟨unit, mul, rfl, hmul, hpos⟩ := scheduleUnits_known u (List.mem_of_find?_eq_some hfind)
    have hmod : v.tmod mul = 0 := by simpa using List.find?_some hfind
    have hq : v.tdiv mul * mul = v := Int.tdiv_mul_cancel (Int.dvd_of_tmod_eq_zero hmod)
    have hqpos : 0 < v.tdiv mul := by
      by_contra hneg
      have hle : v.tdiv mul * mul ≤ 0 :=
        Int.mul_nonpos_of_nonpos_of_nonneg (not_lt.mp hneg) (Int.natCast_nonneg mul)
      omega
    obtain ⟨q, hqn⟩ := Int.eq_ofNat_of_zero_le hqpos.le
    rw [hqn] at hq hqpos
    exact ⟨unit, mul, q, by rw [← hqn], hmul, by exact_mod_cast hqpos, hq⟩

theorem digits_revDigits (q : Nat) : Digits (revDigits 24 q).reverse :=
  ⟨by simp [revDigits], fun b hb => revDigits_isDigit 24 q b (List.mem_reverse.mp hb)⟩

/-- A rendered schedule is read back as the schedule that was rendered. -/
theorem schedule_round_trip (before : Int) {p : Project}
    (h : p.schedKind = .every → 1 ≤ p.schedInterval ∧ p.schedInterval ≤ LONG_MAX) :
    ∃ interval, parseSchedule before (hmSchedDescribe p 32) = some (p.schedKind, interval) ∧
      (p.schedKind = .every → interval = p.schedInterval) := by
  cases hkind : p.schedKind with
  | always => exact ⟨before, by simp [hmSchedDescribe, hkind]; rfl, nofun⟩
  | never => exact ⟨before, by simp [hmSchedDescribe, hkind]; rfl, nofun⟩
  | every =>
    obtain ⟨hpos, hmax⟩ := h hkind
    obtain ⟨unit, mul, q, hunits, hunit, hq, hprod⟩ :=
      inUnits_exact (v := p.schedInterval) (by omega)
    have hmul := scheduleUnit_pos hunit
    have hle : q ≤ q * mul := Nat.le_mul_of_pos_right q hmul
    have hprod' : ((q * mul : Nat) : Int) = p.schedInterval := by exact_mod_cast hprod
    have hfits : q * mul < 2 ^ 63 := by
      simp only [LONG_MAX] at hmax
      omega
    have htext : hmSchedDescribe p 32 = (revDigits 24 q).reverse ++ [unit] := by
      have hlen := revDigits_length_le 24 q
      simp only [hmSchedDescribe, hkind, hunits, scheduleDigits]
      rw [if_neg (by omega), Int.toNat_natCast, List.take_of_length_le
        (by simp only [List.length_append, List.length_reverse, List.length_singleton]; omega)]
    have hval : digitsVal (revDigits 24 q).reverse = q :=
      digitsVal_revDigits 24 q (by omega) (by decide)
    refine ⟨p.schedInterval, ?_, fun _ => rfl⟩
    rw [htext, parseSchedule_digits (digits_revDigits q),
      parseInterval_digits (digits_revDigits q) hunit,
      hval, Nat.mod_eq_of_lt (by omega), if_neg (by omega), Nat.mod_eq_of_lt (by omega), toLong,
      if_pos hfits, hprod']
    rfl

theorem schedule_round_trip_week : ∃ interval,
    parseSchedule 86400 (hmSchedDescribe { dailyUrl with schedInterval := 1209600 } 32) =
      some (.every, interval) ∧ (SchedKind.every = .every → interval = 1209600) :=
  @schedule_round_trip 86400 { dailyUrl with schedInterval := 1209600 } fun _ => by decide

end Rendered

end Hacman.Ranges
