import Hacman.Ranges

/-!
# The formatter and its capacity

A format and the arguments that it asks for are pieces of text, and the formatter stores one
piece behind the other as long as there is room. Here every store is checked against the
array, and what C leaves undefined stops the run. A cut can only shorten the end, unless
the formatter negates the smallest `long`.
-/

namespace Hacman.Format
open Octets Util Ranges

section Rendering

/-- The conversion that takes an argument. -/
def conversionOf : Arg → UInt8
  | .str _ => 115
  | .slice _ => 83
  | .ulong _ => 117
  | .long _ => 100
  | .char _ => 99

def shown : Arg → Bytes
  | .str s => s.getD (ascii "(null)")
  | .slice s => s
  | .ulong n => ascii (toString n)
  | .long v => ascii (toString v)
  | .char ch => [ch]

def InRange : Arg → Prop
  | .ulong n => n < 2 ^ 64
  | .long v => InLong v
  | _ => True

inductive Piece
  | byte (ch : UInt8)
  | arg (a : Arg)
  deriving DecidableEq, Repr

def Piece.text : Piece → Bytes
  | .byte ch => [ch]
  | .arg a => shown a

def rendering (ps : List Piece) : Bytes := ps.flatMap Piece.text

def pieces : Bytes → List Arg → Option (List Piece)
  | [], _ => some []
  | ch :: fmt, ap =>
    if ch ≠ 37 then (pieces fmt ap).map (.byte ch :: ·)
    else match fmt with
      | [] => some []
      | conv :: fmt =>
        if takesArg conv then
          match ap with
          | [] => none
          | a :: ap => if conv = conversionOf a then (pieces fmt ap).map (.arg a :: ·) else none
        else (pieces fmt ap).map (.byte conv :: ·)

theorem takesArg_conversionOf (a : Arg) : takesArg (conversionOf a) = true := by
  cases a <;> rfl

inductive Asks : Bytes → List Arg → List Piece → Prop
  | nil (ap : List Arg) : Asks [] ap []
  | byte {ch : UInt8} {fmt : Bytes} {ap : List Arg} {ps : List Piece} : ch ≠ 37 → Asks fmt ap ps →
      Asks (ch :: fmt) ap (.byte ch :: ps)
  | lone (ap : List Arg) : Asks [37] ap []
  | arg (a : Arg) {fmt : Bytes} {ap : List Arg} {ps : List Piece} : Asks fmt ap ps →
      Asks (37 :: conversionOf a :: fmt) (a :: ap) (.arg a :: ps)
  | other {conv : UInt8} {fmt : Bytes} {ap : List Arg} {ps : List Piece} : takesArg conv = false →
      Asks fmt ap ps → Asks (37 :: conv :: fmt) ap (.byte conv :: ps)

theorem asks_pieces {fmt : Bytes} {ap : List Arg} {ps : List Piece} (h : pieces fmt ap = some ps) :
    Asks fmt ap ps := by
  induction fmt, ap using pieces.induct generalizing ps with
  | case1 ap =>
    obtain rfl : [] = ps := by simpa [pieces] using h
    exact .nil ap
  | case2 ch fmt ap hch ih =>
    rw [pieces.eq_def] at h
    simp only [if_pos hch] at h
    obtain ⟨rest, hrest, rfl⟩ := Option.map_eq_some_iff.mp h
    exact .byte hch (ih hrest)
  | case3 ch ap hch =>
    obtain rfl : ch = 37 := not_not.mp hch
    obtain rfl : [] = ps := by simpa [pieces] using h
    exact .lone ap
  | case4 ch hch conv fmt hconv => simp [pieces, hch, hconv] at h
  | case5 ch hch fmt a ap hconv ih =>
    obtain rfl : ch = 37 := not_not.mp hch
    rw [pieces.eq_def] at h
    simp only [if_neg hch, if_pos hconv, if_true] at h
    obtain ⟨rest, hrest, rfl⟩ := Option.map_eq_some_iff.mp h
    exact .arg a (ih hrest)
  | case6 ch hch conv fmt hconv a ap hne => simp [pieces, hch, hconv, hne] at h
  | case7 ch ap hch conv fmt hconv ih =>
    obtain rfl : ch = 37 := not_not.mp hch
    rw [pieces.eq_def] at h
    simp only [if_neg hch, if_neg hconv] at h
    obtain ⟨rest, hrest, rfl⟩ := Option.map_eq_some_iff.mp h
    exact .other (Bool.not_eq_true _ ▸ hconv) (ih hrest)

theorem Asks.args {fmt : Bytes} {ap : List Arg} {ps : List Piece} (h : Asks fmt ap ps) :
    ∀ a, .arg a ∈ ps → a ∈ ap := by
  induction h with
  | nil ap | lone ap => exact fun a ha => absurd ha List.not_mem_nil
  | byte _ _ ih | other _ _ ih => exact fun a ha => ih a (by simpa using ha)
  | arg b _ ih =>
    intro a ha
    rcases List.mem_cons.mp ha with heq | ha
    · exact Piece.arg.inj heq ▸ List.mem_cons_self
    · exact List.mem_cons_of_mem b (ih a ha)

end Rendering

section Stores

/-- What C leaves undefined: a store outside of the array, a negation that overflows and an
argument of another type. -/
inductive Undefined
  | store
  | negation
  | argument
  deriving DecidableEq, Repr

/-- The array and the index of the next store. -/
structure Dst where
  cells : Bytes
  o : Nat
  deriving DecidableEq, Repr

def put (ch : UInt8) (m : Dst) : Except Undefined Dst :=
  if m.o < m.cells.length then .ok ⟨m.cells.set m.o ch, m.o + 1⟩ else .error .store

/-- The loops over `%s` and `%S`, which stop at the capacity. -/
def copy : Bytes → Dst → Except Undefined Dst
  | [], m => .ok m
  | ch :: s, m => if m.o < m.cells.length then put ch m >>= copy s else .ok m

def puts : Bytes → Dst → Except Undefined Dst
  | [], m => .ok m
  | ch :: s, m => put ch m >>= puts s

def putUlong (v : Nat) (m : Dst) : Except Undefined Dst :=
  puts (fmtUlong (m.cells.length - m.o) v) m

def putArg : Arg → Dst → Except Undefined Dst
  | .str s, m => copy (s.getD (ascii "(null)")) m
  | .slice s, m => copy s m
  | .ulong v, m => putUlong v m
  | .long v, m =>
    if v < 0 then put 45 m >>= fun m =>
      if m.o < m.cells.length then
        match subLong 0 v with
        | none => .error .negation
        | some n => putUlong n.toNat m
      else .ok m
    else putUlong v.toNat m
  | .char ch, m => put ch m

/-- `hm_vformat` with every store checked; the index in the end is what it returns. -/
def vformat : Bytes → List Arg → Dst → Except Undefined Dst
  | [], _, m => .ok m
  | ch :: fmt, ap, m =>
    if m.cells.length ≤ m.o then .ok m
    else if ch ≠ 37 then put ch m >>= vformat fmt ap
    else match fmt with
      | [] => .ok m
      | conv :: fmt =>
        if takesArg conv then
          match ap with
          | [] => .error .argument
          | a :: ap => if conv = conversionOf a then putArg a m >>= vformat fmt ap
            else .error .argument
        else put conv m >>= vformat fmt ap

end Stores

section Digits

theorem revDigits_toString (fuel n : Nat) (hn : n < 10 ^ fuel) (hf : 0 < fuel) :
    (revDigits fuel n).reverse = ascii (toString n) := by
  induction fuel generalizing n with
  | zero => exact absurd hf (Nat.lt_irrefl 0)
  | succ fuel ih =>
    have hdigit : ∀ d < 10, digit d = (Nat.digitChar d).toNat.toUInt8 := by decide
    have hmod := hdigit (n % 10) (Nat.mod_lt n (by decide))
    rw [ascii, Nat.toString_eq_repr, Nat.toList_repr]
    by_cases hlt : n < 10
    · have hdiv : n / 10 = 0 := Nat.div_eq_of_lt hlt
      rw [Nat.mod_eq_of_lt hlt] at hmod
      simp [revDigits, hdiv, Nat.toDigits_of_lt_base hlt, Nat.mod_eq_of_lt hlt, hmod]
    · have hge : 10 ≤ n := Nat.not_lt.mp hlt
      have hpos : 0 < n / 10 := Nat.div_pos hge (by decide)
      have hfewer : n / 10 < 10 ^ fuel := by
        rw [Nat.div_lt_iff_lt_mul (by decide), ← pow_succ]
        exact hn
      have hfuel : 0 < fuel := by
        rcases Nat.eq_zero_or_pos fuel with rfl | hfuel
        · simp at hfewer
          omega
        · exact hfuel
      have hrest := ih (n / 10) hfewer hfuel
      rw [ascii, Nat.toString_eq_repr, Nat.toList_repr] at hrest
      rw [revDigits, if_pos hpos, List.reverse_cons, hrest, Nat.toDigits_of_base_le (by decide) hge,
        List.map_append, hmod]
      rfl

theorem fmtUlong_eq {n : Nat} (hn : n < 2 ^ 64) (room : Nat) :
    fmtUlong room n = (ascii (toString n)).take room := by
  rw [fmtUlong, revDigits_toString 24 n (hn.trans (by decide)) (by decide)]

theorem toString_neg {v : Int} (hv : v < 0) :
    ascii (toString v) = 45 :: ascii (toString v.natAbs) := by
  have habs : (-v).toNat = v.natAbs := by omega
  rw [Int.toString_eq_repr, Int.repr_eq_if, if_neg (Int.not_le.mpr hv), habs,
    Nat.toString_eq_repr, ascii, String.toList_append, List.map_append]
  rfl

theorem toString_nonneg {v : Int} (hv : 0 ≤ v) : ascii (toString v) = ascii (toString v.toNat) := by
  rw [Int.toString_eq_repr, Int.repr_eq_if, if_pos hv, Nat.toString_eq_repr]

end Digits

section Runs
variable {fmt out free s : Bytes} {ap : List Arg} {a : Arg} {p : Piece} {ps : List Piece} {m : Dst}

/-- One piece, after the test at the head of the loop. -/
def Piece.put : Piece → Dst → Except Undefined Dst
  | .byte ch => Format.put ch
  | .arg a => putArg a

def putPieces : List Piece → Dst → Except Undefined Dst
  | [], m => .ok m
  | p :: ps, m => if m.cells.length ≤ m.o then .ok m else p.put m >>= putPieces ps

/-- A format is worked off piece by piece. -/
theorem vformat_pieces (h : Asks fmt ap ps) (m : Dst) : vformat fmt ap m = putPieces ps m := by
  induction h generalizing m with
  | nil ap => rfl
  | byte hch _ ih =>
    rw [vformat.eq_def]
    simp only [if_pos hch, putPieces, Piece.put, funext ih]
  | lone ap =>
    rw [vformat.eq_def]
    simp [putPieces]
  | arg a _ ih =>
    rw [vformat.eq_def]
    simp only [ne_eq, not_true_eq_false, if_false, takesArg_conversionOf, if_true, putPieces,
      Piece.put, funext ih]
  | other hconv _ ih =>
    rw [vformat.eq_def]
    simp only [ne_eq, not_true_eq_false, if_false, hconv, Bool.false_eq_true, putPieces,
      Piece.put, funext ih]

def dst (out free : Bytes) : Dst := ⟨out ++ free, out.length⟩

def stored (out free s : Bytes) : Dst := dst (out ++ s.take free.length) (free.drop s.length)

theorem stored_append (out free s t : Bytes) :
    stored (out ++ s.take free.length) (free.drop s.length) t = stored out free (s ++ t) := by
  simp only [stored, List.append_assoc, List.take_append, List.length_drop, List.length_append,
    List.drop_drop]

theorem full_iff (out free : Bytes) :
    (dst out free).cells.length ≤ (dst out free).o ↔ free = [] := by
  simp [dst]

theorem put_dst (ch x : UInt8) (out free : Bytes) :
    put ch (dst out (x :: free)) = .ok (dst (out ++ [ch]) free) := by
  simp [put, dst]

theorem copy_dst (s out free : Bytes) : copy s (dst out free) = .ok (stored out free s) := by
  induction s generalizing out free with
  | nil => simp [copy, stored]
  | cons ch s ih =>
    cases free with
    | nil => simp [copy, stored, dst]
    | cons x free =>
      have hroom : (dst out (x :: free)).o < (dst out (x :: free)).cells.length := by simp [dst]
      rw [copy, if_pos hroom, put_dst]
      exact (ih (out ++ [ch]) free).trans (by simp [stored])

theorem puts_dst (h : s.length ≤ free.length) (out : Bytes) :
    puts s (dst out free) = .ok (stored out free s) := by
  induction s generalizing out free with
  | nil => simp [puts, stored]
  | cons ch s ih =>
    cases free with
    | nil => simp at h
    | cons x free =>
      rw [puts, put_dst]
      exact (ih (Nat.le_of_succ_le_succ h) (out ++ [ch])).trans (by simp [stored])

theorem putUlong_dst {n : Nat} (hn : n < 2 ^ 64) (out free : Bytes) :
    putUlong n (dst out free) = .ok (stored out free (ascii (toString n))) := by
  have hroom : (dst out free).cells.length - (dst out free).o = free.length := by simp [dst]
  rw [putUlong, hroom, fmtUlong_eq hn, puts_dst (List.length_take_le _ _)]
  simp only [stored, List.take_take, min_self, List.length_take]
  rcases Nat.le_total free.length (ascii (toString n)).length with hlen | hlen
  · rw [min_eq_left hlen, List.drop_length, List.drop_eq_nil_of_le hlen]
  · rw [min_eq_right hlen]

theorem putArg_dst (hfree : free ≠ []) (ha : InRange a)
    (hmin : a = .long LONG_MIN → free.length ≤ 1) (out : Bytes) :
    putArg a (dst out free) = .ok (stored out free (shown a)) := by
  obtain ⟨x, free, rfl⟩ := List.exists_cons_of_ne_nil hfree
  cases a with
  | str s => exact copy_dst _ _ _
  | slice s => exact copy_dst _ _ _
  | ulong n => exact putUlong_dst ha _ _
  | char ch => exact (put_dst ch x out free).trans (by simp [stored, shown])
  | long v =>
    obtain ⟨hlow, hhigh⟩ := ha
    rw [LONG_MIN] at hlow
    rw [LONG_MAX] at hhigh
    by_cases hv : v < 0
    · rw [putArg, if_pos hv, put_dst, shown, toString_neg hv]
      have hsign (s : Bytes) : stored (out ++ [45]) free s = stored out (x :: free) (45 :: s) := by
        simp [stored]
      rw [← hsign]
      by_cases hroom : free = []
      · subst hroom
        simp [stored, dst, Bind.bind, Except.bind]
      · have hlong : v ≠ LONG_MIN := by
          rintro rfl
          have hshort := hmin rfl
          simp only [List.length_cons] at hshort
          exact hroom (List.length_eq_zero_iff.mp (by omega))
        rw [LONG_MIN] at hlong
        have hneg : subLong 0 v = some (-v) := by
          rw [subLong, LONG_MIN, LONG_MAX, if_pos (by omega), zero_sub]
        have habs : (-v).toNat = v.natAbs := by omega
        have hlt : (dst (out ++ [45]) free).o < (dst (out ++ [45]) free).cells.length := by
          simp [dst, List.length_pos_iff, hroom]
        simp only [Bind.bind, Except.bind, if_pos hlt, hneg, habs]
        exact putUlong_dst (by omega) _ _
    · rw [putArg, if_neg hv, shown, toString_nonneg (Int.not_lt.mp hv)]
      exact putUlong_dst (by omega) _ _

/-- With room behind the sign, the smallest `long` is negated. -/
theorem putArg_min (h : 1 < free.length) (out : Bytes) :
    putArg (.long LONG_MIN) (dst out free) = .error .negation := by
  match free, h with
  | x :: y :: free, _ =>
    have hlt : (dst (out ++ [45]) (y :: free)).o <
        (dst (out ++ [45]) (y :: free)).cells.length := by simp [dst]
    have hneg : subLong 0 LONG_MIN = none := by decide
    rw [putArg, if_pos (by decide), put_dst]
    simp only [Bind.bind, Except.bind, if_pos hlt, hneg]

/-- The formatter comes to the smallest `long` with room behind the sign. -/
def Negates (room : Nat) (ps : List Piece) : Prop :=
  ∃ front rest, ps = front ++ .arg (.long LONG_MIN) :: rest ∧ (rendering front).length + 1 < room

theorem negates_cons {room : Nat} : Negates room (p :: ps) ↔
    (p = .arg (.long LONG_MIN) ∧ 1 < room) ∨ Negates (room - p.text.length) ps := by
  constructor
  · rintro ⟨front, rest, heq, hroom⟩
    cases front with
    | nil =>
      obtain ⟨rfl, rfl⟩ := List.cons.inj heq
      exact .inl ⟨rfl, by simpa [rendering] using hroom⟩
    | cons q front =>
      obtain ⟨rfl, rfl⟩ := List.cons.inj heq
      rw [rendering, List.flatMap_cons, List.length_append, ← rendering] at hroom
      exact .inr ⟨front, rest, rfl, by omega⟩
  · rintro (⟨rfl, hroom⟩ | ⟨front, rest, rfl, hroom⟩)
    · exact ⟨[], ps, rfl, by simpa [rendering] using hroom⟩
    · refine ⟨p :: front, rest, rfl, ?_⟩
      rw [rendering, List.flatMap_cons, List.length_append, ← rendering]
      omega

theorem putPieces_dst (hps : ∀ a, .arg a ∈ ps → InRange a) (out free : Bytes) :
    (¬ Negates free.length ps → putPieces ps (dst out free) =
      .ok (stored out free (rendering ps))) ∧
    (Negates free.length ps → putPieces ps (dst out free) = .error .negation) := by
  induction ps generalizing out free with
  | nil =>
    refine ⟨fun _ => by simp [putPieces, stored, rendering], ?_⟩
    rintro ⟨front, rest, heq, -⟩
    simp at heq
  | cons p ps ih =>
    have hrest : ∀ a, .arg a ∈ ps → InRange a := fun a ha => hps a (List.mem_cons_of_mem p ha)
    by_cases hfree : free = []
    · subst hfree
      rw [putPieces, if_pos ((full_iff out []).mpr rfl)]
      refine ⟨fun _ => by simp [stored], ?_⟩
      rintro ⟨front, rest, -, hroom⟩
      simp at hroom
    · rw [putPieces, if_neg (mt (full_iff out free).mp hfree), negates_cons]
      by_cases hmin : p = .arg (.long LONG_MIN) ∧ 1 < free.length
      · rw [hmin.1, Piece.put, putArg_min hmin.2]
        exact ⟨fun h => absurd (.inl ⟨rfl, hmin.2⟩) h, fun _ => rfl⟩
      · have hput : p.put (dst out free) = .ok (stored out free p.text) := by
          cases p with
          | byte ch =>
            obtain ⟨x, free, rfl⟩ := List.exists_cons_of_ne_nil hfree
            exact (put_dst ch x out free).trans (by simp [stored, Piece.text])
          | arg a =>
            refine putArg_dst hfree (hps a List.mem_cons_self) (fun ha => ?_) out
            exact Nat.not_lt.mp fun hroom => hmin ⟨congrArg Piece.arg ha, hroom⟩
        have hlen : (free.drop p.text.length).length = free.length - p.text.length :=
          List.length_drop
        obtain ⟨hgoes, hstops⟩ := ih hrest (out ++ p.text.take free.length)
          (free.drop p.text.length)
        rw [hlen] at hgoes hstops
        rw [stored_append] at hgoes
        rw [hput]
        exact ⟨fun h => hgoes fun hn => h (.inr hn), fun h => hstops (h.resolve_left hmin)⟩

/-- The array gets the first bytes of the whole text and nothing behind them changes, if and only
if the smallest `long` is not negated. -/
theorem vformat_truncates (h : pieces fmt ap = some ps) (hap : ∀ a ∈ ap, InRange a)
    (cells : Bytes) :
    vformat fmt ap ⟨cells, 0⟩ = .ok ⟨(rendering ps).take cells.length ++ cells.drop
      (rendering ps).length,
      min cells.length (rendering ps).length⟩ ↔ ¬ Negates cells.length ps := by
  have hasks := asks_pieces h
  obtain ⟨hgoes, hstops⟩ := putPieces_dst (fun a ha => hap a (hasks.args a ha)) [] cells
  have hstored : stored [] cells (rendering ps) = ⟨(rendering ps).take cells.length ++
      cells.drop (rendering ps).length, min cells.length (rendering ps).length⟩ := by
    simp [stored, dst]
  rw [hstored] at hgoes
  rw [vformat_pieces hasks]
  constructor
  · intro hok hneg
    cases hok.symm.trans (hstops hneg)
  · exact hgoes

def sampleFormat : Bytes := ascii "%s=%d%%"

theorem sample_truncated : vformat sampleFormat [.str none, .long (-5)] ⟨List.replicate 8 0, 0⟩ =
    .ok ⟨ascii "(null)=-", 8⟩ := by
  have hpieces : pieces sampleFormat [.str none, .long (-5)] =
      some [.arg (.str none), .byte 61, .arg (.long (-5)), .byte 37] := by decide +kernel
  have hrange : ∀ a ∈ [Arg.str none, .long (-5)], InRange a := by
    simp [InRange, InLong, LONG_MIN, LONG_MAX]
  refine ((vformat_truncates hpieces hrange (List.replicate 8 0)).mpr ?_).trans (by decide +kernel)
  rintro ⟨front, rest, heq, -⟩
  have hmem : Piece.arg (.long LONG_MIN) ∈ [.arg (.str none), .byte 61, .arg (.long (-5)),
      .byte 37] := by
    rw [heq]
    exact List.mem_append_right front List.mem_cons_self
  exact absurd hmem (by decide)

/-- The cast to `unsigned long` comes behind the negation. -/
theorem min_negated : pieces (ascii "%d") [.long LONG_MIN] = some [.arg (.long LONG_MIN)] ∧
    (∀ a ∈ [Arg.long LONG_MIN], InRange a) ∧
    rendering [.arg (.long LONG_MIN)] = ascii "-9223372036854775808" ∧
    vformat (ascii "%d") [.long LONG_MIN] ⟨List.replicate 32 0, 0⟩ = .error .negation := by
  refine ⟨by decide, ?_, by decide +kernel, by decide +kernel⟩
  simp [InRange, InLong, LONG_MIN, LONG_MAX]

end Runs

section Messages
variable {cap : Nat} {fmt o : Bytes} {ap : List Arg} {a : Arg} {ps : List Piece}

theorem take_singleton {room : Nat} (hroom : 0 < room) (ch : UInt8) : [ch].take room = [ch] :=
  List.take_of_length_le (l := [ch]) hroom

theorem conversion_eq {room : Nat} (hroom : 0 < room) (ha : InRange a) (ap : List Arg) :
    conversion (conversionOf a) room (a :: ap) = ((shown a).take room, ap) := by
  cases a with
  | str s | slice s => rfl
  | ulong n => exact congrArg (·, ap) (fmtUlong_eq ha room)
  | char ch => exact congrArg (·, ap) (take_singleton hroom ch).symm
  | long v =>
    obtain ⟨hlow, hhigh⟩ := ha
    rw [LONG_MIN] at hlow
    rw [LONG_MAX] at hhigh
    have hdigits := @fmtUlong_eq v.natAbs (by omega)
    by_cases hv : v < 0
    · rw [conversion, conversionOf, if_pos rfl, if_pos hv, hdigits, shown, toString_neg hv,
        List.take_cons hroom]
    · have habs : v.toNat = v.natAbs := by omega
      rw [conversion, conversionOf, if_pos rfl, if_neg hv, hdigits, shown,
        toString_nonneg (Int.not_lt.mp hv), habs]

/-- What is cut off before the next piece is cut off behind it. -/
theorem take_append_take (xs ys : Bytes) (n : Nat) :
    (xs.take n ++ ys).take n = (xs ++ ys).take n := by
  rw [List.take_append, List.take_append, List.take_take, min_self, List.length_take]
  congr 2
  omega

theorem hmVformat_piece {p : Piece} (ho : o.length ≤ cap)
    (hrest : ∀ {o : Bytes}, o.length ≤ cap → hmVformat cap fmt ap o =
      (o ++ rendering ps).take cap) :
    hmVformat cap fmt ap (o ++ p.text.take (cap - o.length)) =
      (o ++ rendering (p :: ps)).take cap := by
  have hcut : o ++ p.text.take (cap - o.length) = (o ++ p.text).take cap := by
    rw [List.take_append, List.take_of_length_le ho]
  rw [hcut, hrest (List.length_take_le _ _), take_append_take, List.append_assoc]
  rfl

theorem hmVformat_full (hcap : cap ≤ o.length) (ho : o.length ≤ cap) (fmt : Bytes) (ap : List Arg)
    (s : Bytes) : hmVformat cap fmt ap o = (o ++ s).take cap := by
  rw [List.take_append_of_le_length hcap, List.take_of_length_le ho]
  cases fmt with
  | nil => rfl
  | cons ch fmt =>
    rw [hmVformat.eq_def]
    simp only [if_pos hcap]

theorem hmVformat_rendering (h : Asks fmt ap ps) (hap : ∀ a ∈ ap, InRange a) (ho : o.length ≤ cap) :
    hmVformat cap fmt ap o = (o ++ rendering ps).take cap := by
  induction h generalizing o with
  | nil ap | lone ap =>
    rw [rendering, List.flatMap_nil, List.append_nil, List.take_of_length_le ho]
    simp [hmVformat]
  | @byte ch fmt ap ps hch _ ih =>
    by_cases hcap : cap ≤ o.length
    · exact hmVformat_full hcap ho _ _ _
    · have hone : [ch] = (Piece.byte ch).text.take (cap - o.length) :=
        (take_singleton (Nat.sub_pos_of_lt (Nat.not_le.mp hcap)) ch).symm
      rw [hmVformat_char fmt ap (Nat.not_le.mp hcap) hch, hone]
      exact hmVformat_piece ho fun ho => ih hap ho
  | @arg a fmt ap ps _ ih =>
    by_cases hcap : cap ≤ o.length
    · exact hmVformat_full hcap ho _ _ _
    · obtain ⟨ha, hap⟩ := List.forall_mem_cons.mp hap
      rw [hmVformat, if_neg hcap]
      simp only [ne_eq, not_true_eq_false, if_false, takesArg_conversionOf, if_true,
        conversion_eq (Nat.sub_pos_of_lt (Nat.not_le.mp hcap)) ha]
      exact @hmVformat_piece _ _ _ _ _ (.arg a) ho fun ho => ih hap ho
  | @other conv fmt ap ps hconv _ ih =>
    by_cases hcap : cap ≤ o.length
    · exact hmVformat_full hcap ho _ _ _
    · have hone : [conv] = (Piece.byte conv).text.take (cap - o.length) :=
        (take_singleton (Nat.sub_pos_of_lt (Nat.not_le.mp hcap)) conv).symm
      rw [hmVformat, if_neg hcap]
      simp only [ne_eq, not_true_eq_false, if_false, hconv, Bool.false_eq_true]
      rw [hone]
      exact hmVformat_piece ho fun ho => ih hap ho

theorem message_rendering {fmt : String} (h : pieces (ascii fmt) ap = some ps)
    (hap : ∀ a ∈ ap, InRange a) : message fmt ap = (rendering ps).take HM_LINE_CAP := by
  rw [message, hmVformat_rendering (asks_pieces h) hap (Nat.zero_le _), List.nil_append]

theorem vformat_hmVformat (h : pieces fmt ap = some ps)
    (hap : ∀ a ∈ ap, InRange a) {cells : Bytes} {m : Dst}
    (hrun : vformat fmt ap ⟨cells, 0⟩ = .ok m) : m.cells.take m.o =
    hmVformat cells.length fmt ap [] := by
  have hasks := asks_pieces h
  obtain ⟨hgoes, hstops⟩ := putPieces_dst (fun a ha => hap a (hasks.args a ha)) [] cells
  rw [vformat_pieces hasks] at hrun
  have hneg : ¬ Negates cells.length ps := by
    intro hneg
    cases hrun.symm.trans (hstops hneg)
  obtain rfl := Except.ok.inj (hrun.symm.trans (hgoes hneg))
  rw [hmVformat_rendering hasks hap (Nat.zero_le _), List.nil_append]
  simp only [stored, dst, List.nil_append]
  rw [List.take_left]

end Messages

end Hacman.Format
