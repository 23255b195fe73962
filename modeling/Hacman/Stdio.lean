import Mathlib.Data.List.TakeDrop

/-!
# Buffered output

A stream holds back what it has not flushed yet. A call that cannot flush loses some of what
was held back, and only that call says so: what is left is written by the calls after it,
and closing the stream reports no more than its own flush.
-/

namespace Stdio

variable {α : Type}

structure Stream (α : Type) where
  file : List α := []
  pending : List α := []

/-- A write goes well, with a first part flushed of all that is held back; or it fails behind
such a part, keeps a second one and loses what follows, one item at least. -/
inductive Fate
  | done (flushed : Nat)
  | failed (flushed kept lost : Nat)
  deriving DecidableEq, Repr

/-- A close flushes everything or fails with the first part in the file. That may be all, when
only the descriptor could not be closed. -/
inductive Closing
  | done
  | failed (kept : Nat)
  deriving DecidableEq, Repr

def Fate.ok : Fate → Bool
  | .done _ => true
  | .failed _ _ _ => false

def Closing.ok : Closing → Bool
  | .done => true
  | .failed _ => false

def Fate.held (n : Nat) : Fate → Nat
  | .done flushed => n - flushed
  | .failed _ _ _ => 0

def Closing.keeps (n : Nat) : Closing → Bool
  | .done => true
  | .failed kept => n ≤ kept

namespace Stream
variable (s : Stream α)

def whole : List α := s.file ++ s.pending

/-- What becomes of the stream and of `held`, all that it has to write. -/
def flush (held : List α) : Fate → Stream α × Bool
  | .done flushed => (⟨s.file ++ held.take flushed, held.drop flushed⟩, true)
  | .failed flushed kept lost =>
    let n := min flushed (held.length - 1)
    let rest := held.drop n
    let m := min kept (rest.length - 1)
    (⟨s.file ++ held.take n, rest.take m ++ rest.drop (m + 1 + lost)⟩, false)

def put (text : List α) (fate : Fate) : Stream α × Bool :=
  if text = [] then (s, true) else s.flush (s.pending ++ text) fate

def close : Closing → List α × Bool
  | .done => (s.file ++ s.pending, true)
  | .failed kept => (s.file ++ s.pending.take kept, false)

/-- Writes whose results nobody looks at, from the `n`-th on. -/
def putAll (fates : Nat → Fate) : Nat → Stream α → List (List α) → Stream α
  | _, s, [] => s
  | n, s, text :: texts => putAll fates (n + 1) (s.put text (fates n)).1 texts

def Sound (fates : Nat → Fate) (n : Nat) (texts : List (List α)) : Prop :=
  ∀ i text, texts[i]? = some text → text ≠ [] → (fates (n + i)).ok = true

variable {s} {text : List α} {fate : Fate}

theorem put_ok (h : fate.ok = true) : (s.put text fate).1.whole = s.whole ++ text := by
  rw [put]
  split_ifs with hempty
  · rw [hempty, List.append_nil]
  · cases fate with
    | done flushed =>
      rw [flush, whole, List.append_assoc, List.take_append_drop, whole, List.append_assoc]
    | failed flushed kept lost => cases h

theorem put_snd (h : text ≠ []) : (s.put text fate).2 = fate.ok := by
  rw [put, if_neg h]
  cases fate with
  | done flushed => rfl
  | failed flushed kept lost => rfl

theorem put_true (h : (s.put text fate).2 = true) :
    (s.put text fate).1.whole = s.whole ++ text := by
  by_cases hempty : text = []
  · rw [put, if_pos hempty, hempty, List.append_nil]
  · exact put_ok ((put_snd hempty).symm.trans h)

theorem put_lost (hne : text ≠ []) (h : fate.ok = false) :
    (s.put text fate).1.whole.length < s.whole.length + text.length := by
  rw [put, if_neg hne]
  cases fate with
  | done flushed => cases h
  | failed flushed kept lost =>
    have hpos := List.length_pos_iff.mpr hne
    simp only [flush, whole, List.length_append, List.length_take, List.length_drop]
    omega

theorem put_length : (s.put text fate).1.whole.length ≤ s.whole.length + text.length := by
  by_cases hne : text = []
  · rw [put, if_pos hne]
    exact Nat.le_add_right _ _
  · cases h : fate.ok with
    | true => exact Nat.le_of_eq (by rw [put_ok h, List.length_append])
    | false => exact Nat.le_of_lt (put_lost hne h)

variable {fates : Nat → Fate} {n : Nat} {texts : List (List α)}

theorem Sound.cons (h : Sound fates n (text :: texts)) :
    (text ≠ [] → (fates n).ok = true) ∧ Sound fates (n + 1) texts := by
  refine ⟨h 0 text rfl, fun i text' hi hne => ?_⟩
  have hok := h (i + 1) text' hi hne
  rwa [Nat.add_comm i 1, ← Nat.add_assoc] at hok

theorem sound_cons : Sound fates n (text :: texts) ↔
    (text ≠ [] → (fates n).ok = true) ∧ Sound fates (n + 1) texts := by
  refine ⟨Sound.cons, fun ⟨hfirst, hrest⟩ i text' hi hne => ?_⟩
  cases i with
  | zero =>
    obtain rfl := Option.some.inj hi
    exact hfirst hne
  | succ i =>
    have hok := hrest i text' hi hne
    rwa [Nat.add_assoc, Nat.add_comm 1 i] at hok

theorem putAll_sound (h : Sound fates n texts) :
    (putAll fates n s texts).whole = s.whole ++ texts.flatten := by
  induction texts generalizing n s with
  | nil => simp [putAll]
  | cons text texts ih =>
    obtain ⟨hfirst, hrest⟩ := h.cons
    have hput : (s.put text (fates n)).1.whole = s.whole ++ text := by
      by_cases hne : text = []
      · rw [put, if_pos hne, hne, List.append_nil]
      · exact put_ok (hfirst hne)
    rw [putAll, ih hrest, hput, List.flatten_cons, List.append_assoc]

theorem putAll_length :
    (putAll fates n s texts).whole.length ≤ s.whole.length + texts.flatten.length := by
  induction texts generalizing n s with
  | nil => simp [putAll]
  | cons text texts ih =>
    have hfirst : (s.put text (fates n)).1.whole.length ≤ _ := put_length
    have hrest : (putAll fates (n + 1) (s.put text (fates n)).1 texts).whole.length ≤ _ := ih
    rw [putAll, List.flatten_cons, List.length_append]
    omega

/-- What one of the writes has lost, no later one brings back. -/
theorem putAll_lost (h : ¬ Sound fates n texts) :
    (putAll fates n s texts).whole.length < s.whole.length + texts.flatten.length := by
  induction texts generalizing n s with
  | nil => exact absurd (fun i text hi => by cases hi) h
  | cons text texts ih =>
    rw [putAll, List.flatten_cons, List.length_append]
    rw [sound_cons, Classical.not_and_iff_not_or_not] at h
    rcases h with hfirst | hrest
    · obtain ⟨hne, hbad⟩ := Classical.not_imp.mp hfirst
      have hput : (s.put text (fates n)).1.whole.length < _ :=
        put_lost hne (Bool.eq_false_iff.mpr hbad)
      have hrest : (putAll fates (n + 1) (s.put text (fates n)).1 texts).whole.length ≤ _ :=
        putAll_length
      omega
    · have hput : (s.put text (fates n)).1.whole.length ≤ _ := put_length
      have hlost : (putAll fates (n + 1) (s.put text (fates n)).1 texts).whole.length < _ :=
        ih hrest
      omega

theorem putAll_iff :
    (putAll fates n s texts).whole = s.whole ++ texts.flatten ↔ Sound fates n texts := by
  refine ⟨fun h => by_contra fun hbad => ?_, putAll_sound⟩
  have hlost := putAll_lost (s := s) hbad
  rw [h, List.length_append] at hlost
  exact Nat.lt_irrefl _ hlost

variable {closing : Closing}

theorem close_snd : (s.close closing).2 = closing.ok := by
  cases closing with
  | done => rfl
  | failed kept => rfl

theorem close_iff : (s.close closing).1 = s.whole ↔ closing.keeps s.pending.length = true := by
  cases closing with
  | done => exact iff_of_true rfl rfl
  | failed kept =>
    rw [close, whole, List.append_cancel_left_eq, List.take_eq_self_iff, Closing.keeps,
      decide_eq_true_eq]

theorem close_ok (h : closing.ok = true) : (s.close closing).1 = s.whole := by
  cases closing with
  | done => rfl
  | failed kept => cases h

theorem put_close_iff (h : fate.ok = true) (hne : text ≠ []) :
    ((({} : Stream α).put text fate).1.close closing).1 = text ↔
      closing.keeps (fate.held text.length) = true := by
  cases fate with
  | done flushed =>
    have hput : (({} : Stream α).put text (.done flushed)).1 =
        ⟨text.take flushed, text.drop flushed⟩ := by
      rw [put, if_neg hne]
      rfl
    have hwhole : (⟨text.take flushed, text.drop flushed⟩ : Stream α).whole = text :=
      List.take_append_drop flushed text
    have hclose : (Stream.close ⟨text.take flushed, text.drop flushed⟩ closing).1 = _ ↔
      closing.keeps (text.drop flushed).length = true := close_iff
    rwa [hwhole, List.length_drop, ← hput] at hclose
  | failed flushed kept lost => cases h

end Stream

end Stdio
