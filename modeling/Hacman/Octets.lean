import Mathlib.Data.List.TakeWhile
import Mathlib.Algebra.Order.Group.Nat
import Mathlib.Tactic.Ring

/-!
# Byte strings, separators and decimal digits

A C string is the list of its bytes before the terminating NUL. Text is written
with `ascii`. Decimal digits come out least significant first, as they do from
repeated division, and are reversed when they are stored.
-/

namespace Octets

abbrev Bytes := List UInt8

def ascii (s : String) : Bytes := s.toList.map fun c => c.toNat.toUInt8

def LF : UInt8 := 10
def CR : UInt8 := 13
def TAB : UInt8 := 9
def SPACE : UInt8 := 32
def SLASH : UInt8 := 47
def COLON : UInt8 := 58

def cstr (xs : Bytes) : Bytes := xs.takeWhile (· ≠ 0)

def bytesAt (data : Bytes) (off n : Nat) : Bytes := (data.drop off).take n

def before (sep : UInt8) (xs : Bytes) : Bytes := xs.takeWhile (· ≠ sep)

def after (sep : UInt8) (xs : Bytes) : Bytes := (xs.dropWhile (· ≠ sep)).tail

theorem before_of_notMem {sep : UInt8} {xs : Bytes} (h : sep ∉ xs) : before sep xs = xs :=
  List.takeWhile_eq_self_iff.mpr fun x hx => by
    simpa using fun he : x = sep => h (he ▸ hx)

theorem after_of_notMem {sep : UInt8} {xs : Bytes} (h : sep ∉ xs) : after sep xs = [] := by
  have hd : xs.dropWhile (· ≠ sep) = [] :=
    List.dropWhile_eq_nil_iff.mpr fun x hx => by
      simpa using fun he : x = sep => h (he ▸ hx)
  rw [after, hd, List.tail_nil]

theorem before_append {sep : UInt8} {xs : Bytes} (ys : Bytes) (h : sep ∉ xs) :
    before sep (xs ++ sep :: ys) = xs := by
  induction xs with
  | nil => simp [before]
  | cons x xs ih =>
    simp only [List.mem_cons, not_or] at h
    obtain ⟨hx, hxs⟩ := h
    simpa [before, Ne.symm hx] using ih hxs

theorem after_append {sep : UInt8} {xs : Bytes} (ys : Bytes) (h : sep ∉ xs) :
    after sep (xs ++ sep :: ys) = ys := by
  induction xs with
  | nil => simp [after]
  | cons x xs ih =>
    simp only [List.mem_cons, not_or] at h
    obtain ⟨hx, hxs⟩ := h
    simpa [after, Ne.symm hx] using ih hxs

theorem notMem_before (sep : UInt8) (xs : Bytes) : sep ∉ before sep xs := fun h => by
  simpa using List.mem_takeWhile_imp h

theorem before_after {sep : UInt8} {xs : Bytes} (h : sep ∈ xs) :
    before sep xs ++ sep :: after sep xs = xs := by
  induction xs with
  | nil => cases h
  | cons x xs ih =>
    by_cases hx : x = sep
    · simp [before, after, hx]
    · have hxs : sep ∈ xs := (List.mem_cons.mp h).resolve_left (Ne.symm hx)
      simpa [before, after, hx] using ih hxs

theorem cstr_of_notMem {xs : Bytes} (h : (0 : UInt8) ∉ xs) : cstr xs = xs :=
  before_of_notMem h

theorem notMem_cstr (xs : Bytes) : (0 : UInt8) ∉ cstr xs := notMem_before 0 xs

def fields (sep : UInt8) : Bytes → List Bytes
  | [] => [[]]
  | x :: xs =>
    if x = sep then [] :: fields sep xs
    else match fields sep xs with
      | [] => [[x]]
      | f :: fs => (x :: f) :: fs

theorem fields_ne_nil (sep : UInt8) (xs : Bytes) : fields sep xs ≠ [] := by
  cases xs with
  | nil => simp [fields]
  | cons x xs =>
    simp only [fields]
    split_ifs
    · simp
    · split <;> simp

section Lines

/-- Removes up to `n` leading spaces of each line; `k` are left for the current one. -/
def deindentFrom (n : Nat) : Nat → Bytes → Bytes
  | _, [] => []
  | k, b :: s =>
    if b = LF then LF :: deindentFrom n n s
    else match k with
      | k + 1 => if b = SPACE then deindentFrom n k s else b :: deindentFrom n 0 s
      | 0 => b :: deindentFrom n 0 s

def deindent (n : Nat) (s : Bytes) : Bytes := deindentFrom n n s

theorem deindentFrom_spaces (n k : Nat) (s : Bytes) :
    deindentFrom n k (List.replicate k SPACE ++ s) = deindentFrom n 0 s := by
  induction k with
  | zero => rfl
  | succ k ih =>
    rw [List.replicate_succ, List.cons_append]
    exact ih

theorem deindentFrom_line (n : Nat) {line : Bytes} (s : Bytes) (h : LF ∉ line) :
    deindentFrom n 0 (line ++ LF :: s) = line ++ LF :: deindent n s := by
  induction line with
  | nil => rfl
  | cons b line ih =>
    simp only [List.mem_cons, not_or] at h
    simp only [List.cons_append, deindentFrom, if_neg (Ne.symm h.1), ih h.2]

theorem deindent_indented (n : Nat) {line : Bytes} (s : Bytes) (h : LF ∉ line) :
    deindent n (List.replicate n SPACE ++ line ++ [LF] ++ s) = line ++ [LF] ++ deindent n s := by
  rw [deindent, List.append_assoc, List.append_assoc, deindentFrom_spaces, List.singleton_append,
    deindentFrom_line n s h, List.append_assoc, List.singleton_append]

theorem count_deindentFrom (n k : Nat) (s : Bytes) :
    (deindentFrom n k s).count LF = s.count LF := by
  induction s generalizing k with
  | nil => cases k <;> rfl
  | cons b s ih =>
    have hsp : SPACE ≠ LF := by decide
    by_cases hb : b = LF
    · simp [deindentFrom, hb, ih]
    · cases k with
      | zero => simp [deindentFrom, hb, ih]
      | succ k =>
        by_cases hs : b = SPACE
        · simp [deindentFrom, hs, hsp, ih]
        · simp [deindentFrom, hb, hs, ih]

end Lines

section Decimal

def digit (d : Nat) : UInt8 := (48 + d).toUInt8

/-- At most `fuel` digits of `x`, least significant first, and at least one. -/
def revDigits : Nat → Nat → Bytes
  | 0, _ => []
  | fuel + 1, x => digit (x % 10) :: if 0 < x / 10 then revDigits fuel (x / 10) else []

def isDigit (b : UInt8) : Bool := 48 ≤ b && b ≤ 57

def digitVal (b : UInt8) : Nat := b.toNat - 48

def digitsVal (ds : Bytes) : Nat := ds.foldl (fun v d => v * 10 + digitVal d) 0

theorem digit_val {d : Nat} (h : d < 10) : digitVal (digit d) = d := by
  simp only [digitVal, digit, UInt8.toNat_ofNat']
  omega

theorem digit_isDigit {d : Nat} (h : d < 10) : isDigit (digit d) = true := by
  have hd : (digit d).toNat = 48 + d := by
    simp only [digit, UInt8.toNat_ofNat']
    omega
  simp only [isDigit, Bool.and_eq_true, decide_eq_true_eq, UInt8.le_iff_toNat_le, hd]
  exact ⟨by simp, by simp; omega⟩

theorem revDigits_isDigit (fuel x : Nat) : ∀ b ∈ revDigits fuel x, isDigit b = true := by
  induction fuel generalizing x with
  | zero => simp [revDigits]
  | succ fuel ih =>
    intro b hb
    simp only [revDigits, List.mem_cons] at hb
    rcases hb with rfl | hb
    · exact digit_isDigit (Nat.mod_lt _ (by decide))
    · split_ifs at hb with hx
      · exact ih _ b hb
      · simp at hb

theorem revDigits_length_le (fuel x : Nat) : (revDigits fuel x).length ≤ fuel := by
  induction fuel generalizing x with
  | zero => simp [revDigits]
  | succ fuel ih =>
    simp only [revDigits, List.length_cons]
    split_ifs
    · have h := ih (x / 10)
      omega
    · simp

theorem digitsVal_revDigits (fuel x : Nat) (hx : x < 10 ^ fuel) (hf : 0 < fuel) :
    digitsVal (revDigits fuel x).reverse = x := by
  induction fuel generalizing x with
  | zero => omega
  | succ fuel ih =>
    have hm : x % 10 < 10 := Nat.mod_lt _ (by decide)
    simp only [revDigits, List.reverse_cons, digitsVal, List.foldl_append, List.foldl_cons,
      List.foldl_nil, digit_val hm]
    split_ifs with hq
    · have hlt : x / 10 < 10 ^ fuel := by
        rw [Nat.div_lt_iff_lt_mul (by decide)]
        simpa [Nat.pow_succ] using hx
      have hfuel : 0 < fuel := by
        rcases Nat.eq_zero_or_pos fuel with rfl | h
        · simp at hlt; omega
        · exact h
      have hrec := ih (x / 10) hlt hfuel
      rw [digitsVal] at hrec
      rw [hrec]
      omega
    · simp only [List.reverse_nil, List.foldl_nil]
      omega

end Decimal

end Octets
