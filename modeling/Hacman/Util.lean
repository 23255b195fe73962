import Hacman.Project

/-!
# Small helpers of the fast path

The formatter, the output buffer and the string helpers. Formatting truncates at
a capacity instead of overflowing. Delivered bytes are kept as the log of the
`write` calls, so that the order between two descriptors stays visible.
-/

namespace Hacman.Util
open Octets

def HM_OUT_CAP : Nat := 4096
def HM_LINE_CAP : Nat := 4096
def STDERR_FILENO : Nat := 2

inductive Arg
  | str (s : Option Bytes)
  | slice (s : Bytes)
  | ulong (v : Nat)
  | long (v : Int)
  | char (c : UInt8)
  deriving DecidableEq, Repr

def fmtUlong (cap v : Nat) : Bytes := (revDigits 24 v).reverse.take cap

/-- What one conversion writes into `room` free bytes, and the arguments left. -/
def conversion (conv : UInt8) (room : Nat) : List Arg → Bytes × List Arg
  | .str s :: ap => if conv = 115 then ((s.getD (ascii "(null)")).take room, ap) else ([conv], ap)
  | .slice s :: ap => if conv = 83 then (s.take room, ap) else ([conv], ap)
  | .ulong v :: ap => if conv = 117 then (fmtUlong room v, ap) else ([conv], ap)
  | .long v :: ap =>
    if conv = 100 then
      if v < 0 then (45 :: fmtUlong (room - 1) v.natAbs, ap) else (fmtUlong room v.natAbs, ap)
    else ([conv], ap)
  | .char c :: ap => if conv = 99 then ([c], ap) else ([conv], ap)
  | [] => ([conv], [])

/-- Conversions that consume no argument print themselves; `%%` is one of them. -/
def takesArg (conv : UInt8) : Bool :=
  conv = 115 || conv = 83 || conv = 117 || conv = 100 || conv = 99

def hmVformat (cap : Nat) : Bytes → List Arg → Bytes → Bytes
  | [], _, o => o
  | ch :: fmt, ap, o =>
    if cap ≤ o.length then o
    else if ch ≠ 37 then hmVformat cap fmt ap (o ++ [ch])
    else match fmt with
      | [] => o
      | conv :: fmt =>
        if takesArg conv then
          let piece := conversion conv (cap - o.length) ap
          hmVformat cap fmt piece.2 (o ++ piece.1)
        else hmVformat cap fmt ap (o ++ [conv])

def message (fmt : String) (ap : List Arg) : Bytes := hmVformat HM_LINE_CAP (ascii fmt) ap []

section Message

theorem hmVformat_char {cap : Nat} {ch : UInt8} {o : Bytes} (fmt : Bytes) (ap : List Arg)
    (h : o.length < cap) (hc : ch ≠ 37) :
    hmVformat cap (ch :: fmt) ap o = hmVformat cap fmt ap (o ++ [ch]) := by
  rw [hmVformat.eq_def]
  simp only [if_neg (Nat.not_le.mpr h), if_pos hc]

theorem hmVformat_text {cap : Nat} {text o : Bytes} (fmt : Bytes) (ap : List Arg)
    (h : o.length + text.length ≤ cap) (hc : (37 : UInt8) ∉ text) :
    hmVformat cap (text ++ fmt) ap o = hmVformat cap fmt ap (o ++ text) := by
  induction text generalizing o with
  | nil => simp
  | cons ch text ih =>
    simp only [List.mem_cons, not_or] at hc
    simp only [List.length_cons] at h
    rw [List.cons_append, hmVformat_char _ _ (by omega) (Ne.symm hc.1),
      ih (by simp only [List.length_append, List.length_singleton]; omega) hc.2,
      List.append_assoc, List.singleton_append]

theorem prefix_hmVformat (cap : Nat) (fmt : Bytes) (ap : List Arg) (o : Bytes) :
    o <+: hmVformat cap fmt ap o := by
  induction fmt, ap, o using hmVformat.induct cap with
  | case1 ap o => simp [hmVformat]
  | case2 ch fmt ap o h =>
    rw [hmVformat.eq_def]
    simp only [if_pos h, List.prefix_refl]
  | case3 ch fmt ap o h hch ih =>
    rw [hmVformat_char fmt ap (Nat.not_le.mp h) hch]
    exact (List.prefix_append o [ch]).trans ih
  | case4 ch ap o h hch =>
    rw [hmVformat.eq_def]
    simp only [if_neg h, if_neg hch, List.prefix_refl]
  | case5 ch ap o h hch conv fmt hconv piece ih =>
    rw [hmVformat.eq_def]
    simp only [if_neg h, if_neg hch, if_pos hconv]
    exact (List.prefix_append o _).trans ih
  | case6 ch ap o h hch conv fmt hconv ih =>
    rw [hmVformat.eq_def]
    simp only [if_neg h, if_neg hch, if_neg hconv]
    exact (List.prefix_append o _).trans ih

theorem prefix_message {fmt : String} {text rest : Bytes} (hfmt : ascii fmt = text ++ rest)
    (hlen : text.length ≤ HM_LINE_CAP) (hc : (37 : UInt8) ∉ text) (ap : List Arg) :
    text <+: message fmt ap := by
  rw [message, hfmt, hmVformat_text rest ap (by simpa using hlen) hc]
  exact prefix_hmVformat _ _ _ _

end Message

section Output

structure Out where
  buf : Bytes := []
  fd : Nat := 1
  prefixStderr : Bool := false
  errPrefixLines : Bool := false
  stderrLineStart : Bool := true
  written : List (Nat × Bytes) := []

def hmWriteAll (fd : Nat) (s : Bytes) (out : Out) : Out :=
  if s = [] then out else { out with written := out.written ++ [(fd, s)] }

def stderrPrefix : Bytes := ascii "hacman: "

def linePart (s : Bytes) : Bytes := if LF ∈ s then before LF s ++ [LF] else s

def startLine (s : Bytes) (keep : Bool) (out : Out) : Out :=
  if out.stderrLineStart then
    let out := if !keep || !stderrPrefix.isPrefixOf s then
      hmWriteAll STDERR_FILENO stderrPrefix out else out
    { out with stderrLineStart := false }
  else out

def writePrefixedFrom (keep : Bool) : Nat → Bytes → Out → Out
  | 0, _, out => out
  | fuel + 1, s, out =>
    if s = [] then out
    else
      let part := linePart s
      let out := hmWriteAll STDERR_FILENO part (startLine s keep out)
      let out := if part.getLast? = some LF then { out with stderrLineStart := true } else out
      writePrefixedFrom keep fuel (s.drop part.length) out

def hmWritePrefixedStderr (s : Bytes) (keep : Bool) (out : Out) : Out :=
  writePrefixedFrom keep s.length s out

def hmErrStreamEnd (out : Out) : Out :=
  if !out.stderrLineStart then
    { hmWriteAll STDERR_FILENO [LF] out with stderrLineStart := true }
  else out

def hmOutFlush (out : Out) : Out :=
  if out.buf = [] then out
  else
    let sent := if out.prefixStderr then hmWritePrefixedStderr out.buf false out
      else hmWriteAll out.fd out.buf out
    { sent with buf := [] }

def hmOutTarget (fd : Nat) (out : Out) : Out :=
  { hmOutFlush out with fd := fd, prefixStderr := fd = STDERR_FILENO, stderrLineStart := true }

def hmErrPrefix (out : Out) : Out := { out with errPrefixLines := true }

def hmOut (line : Bytes) (out : Out) : Out :=
  let out := if HM_OUT_CAP - out.buf.length < line.length then hmOutFlush out else out
  if HM_OUT_CAP < line.length then
    if out.prefixStderr then hmWritePrefixedStderr line false out
    else hmWriteAll out.fd line out
  else { out with buf := out.buf ++ line }

/-- The bytes delivered to `fd`, in the order of the writes. -/
def Out.delivered (out : Out) (fd : Nat) : Bytes :=
  ((out.written.filter fun w => w.1 = fd).map Prod.snd).flatten

theorem hmWriteAll_delivered (fd : Nat) (s : Bytes) (out : Out) :
    (hmWriteAll fd s out).delivered fd = out.delivered fd ++ s := by
  by_cases hs : s = []
  · simp [hmWriteAll, hs]
  · simp [hmWriteAll, hs, Out.delivered]

theorem hmWriteAll_target (fd : Nat) (s : Bytes) (out : Out) :
    (hmWriteAll fd s out).buf = out.buf ∧ (hmWriteAll fd s out).fd = out.fd ∧
      (hmWriteAll fd s out).prefixStderr = out.prefixStderr := by
  unfold hmWriteAll
  split_ifs <;> simp

/-- Delivered and pending bytes of a target without line prefixes. -/
def Out.stream (out : Out) : Bytes := out.delivered out.fd ++ out.buf

theorem hmOutFlush_stream (out : Out) (hp : out.prefixStderr = false) :
    (hmOutFlush out).delivered out.fd = out.stream ∧ (hmOutFlush out).buf = [] ∧
      (hmOutFlush out).prefixStderr = false ∧ (hmOutFlush out).fd = out.fd := by
  by_cases hb : out.buf = []
  · simp [hmOutFlush, hb, hp, Out.stream]
  · obtain ⟨-, hfd, hpre⟩ := hmWriteAll_target out.fd out.buf out
    have hd := hmWriteAll_delivered out.fd out.buf out
    simp only [hmOutFlush, hb, ↓reduceIte, hp, Bool.false_eq_true]
    exact ⟨hd, trivial, hpre.trans hp, hfd⟩

theorem hmOut_stream (line : Bytes) (out : Out) (hp : out.prefixStderr = false) :
    (hmOut line out).stream = out.stream ++ line ∧
      (hmOut line out).prefixStderr = false ∧ (hmOut line out).fd = out.fd := by
  obtain ⟨hd, hbuf, hpre, hfd⟩ := hmOutFlush_stream out hp
  by_cases h₁ : HM_OUT_CAP - out.buf.length < line.length
  · by_cases h₂ : HM_OUT_CAP < line.length
    · obtain ⟨hb', hf', hp'⟩ := hmWriteAll_target out.fd line (hmOutFlush out)
      simp only [hmOut, h₁, h₂, ↓reduceIte, hpre, Bool.false_eq_true, hfd, Out.stream,
        hf', hp', hb', hbuf, hmWriteAll_delivered, hd, and_self, List.append_nil]
    · simp only [hmOut, h₁, h₂, ↓reduceIte, Out.stream, hbuf, List.nil_append, hpre, hfd, and_self,
        and_true]
      exact congrArg (· ++ line) hd
  · have h₂ : ¬ HM_OUT_CAP < line.length := by omega
    simp only [hmOut, h₁, h₂, ↓reduceIte, Out.stream, hp, and_self, and_true]
    exact (List.append_assoc ..).symm

def hmOuts (lines : List Bytes) (out : Out) : Out :=
  lines.foldl (fun out line => hmOut line out) out

theorem hmOuts_stream (lines : List Bytes) (out : Out) (hp : out.prefixStderr = false) :
    (hmOuts lines out).stream = out.stream ++ lines.flatten ∧
      (hmOuts lines out).prefixStderr = false ∧ (hmOuts lines out).fd = out.fd := by
  induction lines generalizing out with
  | nil => simp [hmOuts, hp]
  | cons line lines ih =>
    obtain ⟨hd, hp', hfd⟩ := hmOut_stream line out hp
    obtain ⟨hd', hp'', hfd'⟩ := ih (hmOut line out) hp'
    refine ⟨?_, hp'', hfd'.trans hfd⟩
    change (hmOuts lines (hmOut line out)).stream = _
    rw [hd', hd, List.flatten_cons, List.append_assoc]

end Output

def hmStrCopy (cap : Nat) (s : Bytes) : Bytes := s.take (cap - 1)

/-- Digits are accumulated modulo the word size; anything else is an error. -/
def parseUlongFrom : Nat → Bytes → Option Nat
  | v, [] => some v
  | v, ch :: s => if isDigit ch then parseUlongFrom ((v * 10 + digitVal ch) % 2 ^ 64) s else none

def hmParseUlong (s : Bytes) : Option Nat := if s = [] then none else parseUlongFrom 0 s

theorem foldl_digits_mod (s : Bytes) (v w : Nat) (h : v % 2 ^ 64 = w % 2 ^ 64) :
    s.foldl (fun v d => v * 10 + digitVal d) v % 2 ^ 64 =
      s.foldl (fun v d => v * 10 + digitVal d) w % 2 ^ 64 := by
  induction s generalizing v w with
  | nil => exact h
  | cons d s ih =>
    refine ih _ _ ?_
    change (v * 10 + digitVal d) % 2 ^ 64 = (w * 10 + digitVal d) % 2 ^ 64
    omega

theorem parseUlongFrom_digits (v : Nat) (s : Bytes) (hs : ∀ b ∈ s, isDigit b = true)
    (hv : v < 2 ^ 64) :
    parseUlongFrom v s = some (s.foldl (fun v d => v * 10 + digitVal d) v % 2 ^ 64) := by
  induction s generalizing v with
  | nil => exact congrArg some (Nat.mod_eq_of_lt hv).symm
  | cons b s ih =>
    obtain ⟨hb, hs⟩ := List.forall_mem_cons.mp hs
    simp only [parseUlongFrom, hb, ↓reduceIte, List.foldl_cons]
    rw [ih _ hs (Nat.mod_lt _ (by decide))]
    exact congrArg some (foldl_digits_mod s _ _ (Nat.mod_mod _ _))

theorem hmParseUlong_revDigits (fuel x : Nat) (hx : x < 10 ^ fuel) (hf : 0 < fuel)
    (hw : x < 2 ^ 64) : hmParseUlong (revDigits fuel x).reverse = some x := by
  have hne : (revDigits fuel x).reverse ≠ [] := by
    cases fuel with
    | zero => omega
    | succ fuel => simp [revDigits]
  have hd : ∀ b ∈ (revDigits fuel x).reverse, isDigit b = true := fun b hb =>
    revDigits_isDigit fuel x b (List.mem_reverse.mp hb)
  rw [hmParseUlong, if_neg hne, parseUlongFrom_digits 0 _ hd (by decide)]
  have hval := digitsVal_revDigits fuel x hx hf
  rw [digitsVal] at hval
  rw [hval, Nat.mod_eq_of_lt hw]

section Hash

def hexDigit (n : Nat) : UInt8 := if n < 10 then (48 + n).toUInt8 else (87 + n).toUInt8

/-- The digest function is a parameter; only its width is fixed. -/
def hmHashHex (xxh3 : Bytes → UInt64) (data : Bytes) : Bytes :=
  (List.range 16).map fun i => hexDigit ((xxh3 data).toNat / 2 ^ (60 - 4 * i) % 16)

@[simp] theorem hmHashHex_length (xxh3 : Bytes → UInt64) (data : Bytes) :
    (hmHashHex xxh3 data).length = 16 := by simp [hmHashHex]

theorem hexDigit_injective {a b : Nat} (ha : a < 16) (hb : b < 16)
    (h : hexDigit a = hexDigit b) : a = b := by
  have hall : ∀ a b : Fin 16, hexDigit a = hexDigit b → a = b := by decide
  exact congrArg Fin.val (hall ⟨a, ha⟩ ⟨b, hb⟩ h)

theorem eq_of_hex {n m : Nat} (hn : n < 2 ^ 64) (hm : m < 2 ^ 64)
    (h : ∀ k < 16, n / 16 ^ k % 16 = m / 16 ^ k % 16) : n = m := by
  have hmod : ∀ k ≤ 16, n % 16 ^ k = m % 16 ^ k := by
    intro k hk
    induction k with
    | zero => simp [Nat.mod_one]
    | succ k ih => rw [Nat.mod_pow_succ, Nat.mod_pow_succ, ih (by omega), h k (by omega)]
  have hall : n % 2 ^ 64 = m % 2 ^ 64 := hmod 16 le_rfl
  rwa [Nat.mod_eq_of_lt hn, Nat.mod_eq_of_lt hm] at hall

theorem hmHashHex_eq_iff {xxh3 : Bytes → UInt64} {a b : Bytes} :
    hmHashHex xxh3 a = hmHashHex xxh3 b ↔ xxh3 a = xxh3 b := by
  refine ⟨fun h => ?_, fun h => by unfold hmHashHex; rw [h]⟩
  apply UInt64.toNat_inj.mp
  apply eq_of_hex (xxh3 a).toNat_lt (xxh3 b).toNat_lt
  intro k hk
  have hdigit := List.map_inj_left.mp h (15 - k) (List.mem_range.mpr (by omega))
  have hpow : 2 ^ (60 - 4 * (15 - k)) = 16 ^ k := by
    rw [show 60 - 4 * (15 - k) = 4 * k by omega, pow_mul]
    norm_num
  rw [hpow] at hdigit
  exact hexDigit_injective (Nat.mod_lt _ (by decide)) (Nat.mod_lt _ (by decide)) hdigit

theorem hexDigit_range (n : Nat) (h : n < 16) :
    48 ≤ (hexDigit n).toNat ∧ (hexDigit n).toNat ≤ 102 := by
  simp only [hexDigit]
  split_ifs
  · simp only [UInt8.toNat_ofNat']; omega
  · simp only [UInt8.toNat_ofNat']; omega

theorem hmHashHex_notMem (xxh3 : Bytes → UInt64) (data : Bytes) {b : UInt8} (hb : b.toNat < 48) :
    b ∉ hmHashHex xxh3 data := by
  intro h
  obtain ⟨i, -, rfl⟩ := List.mem_map.mp h
  have hr := hexDigit_range _ (Nat.mod_lt ((xxh3 data).toNat / 2 ^ (60 - 4 * i))
    (by decide : 0 < 16))
  omega

end Hash

end Hacman.Util
