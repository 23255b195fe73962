import Mathlib.Data.List.Basic

/-!
# Readers of streams

A stream is what is still to come of it. One `read` asks for at most `room` elements
and gets some of them, the end of the stream, an interruption or an error. A reader
says how much it asks for, or that it has stopped, and what it does with an answer.
How a stream is cut into answers is up to the other side: facts about a reader are
facts about every way to serve it.
-/

namespace Reading

variable {α ε σ : Type}

inductive Answer (α ε : Type)
  | data (chunk : List α)
  | interrupted
  | failed (error : ε)
  deriving DecidableEq, Repr

def Answer.isData : Answer α ε → Bool
  | .data _ => true
  | _ => false

/-- One answer to a read of `room` elements; only the end of the stream is empty. -/
inductive Gives : List α → Nat → Answer α ε → List α → Prop
  | data {chunk rest : List α} {room : Nat} (fits : chunk.length ≤ room)
      (ends : chunk = [] → rest = []) : Gives (chunk ++ rest) room (.data chunk) rest
  | interrupted {rest : List α} {room : Nat} : Gives rest room .interrupted rest

theorem Gives.take (stream : List α) {room n : Nat} (hn : 0 < n) (hroom : n ≤ room) :
    Gives stream room (.data (stream.take n) : Answer α ε) (stream.drop n) := by
  have hends : stream.take n = [] → stream.drop n = [] := by
    rw [List.take_eq_nil_iff]
    rintro (h | rfl)
    · omega
    · exact List.drop_nil
  have hfits : (stream.take n).length ≤ room := Nat.le_trans (List.length_take_le n stream) hroom
  have hgives := Gives.data (ε := ε) hfits hends
  rwa [List.take_append_drop] at hgives

structure Reader (α ε σ : Type) where
  room : σ → Option Nat
  step : σ → Answer α ε → σ

namespace Reader

def run (R : Reader α ε σ) (s : σ) (answers : List (Answer α ε)) : σ := answers.foldl R.step s

structure Stops (R : Reader α ε σ) : Prop where
  stays : ∀ s a, R.room s = none → R.step s a = s
  ends : ∀ s, R.room (R.step s (.data [])) = none

theorem Stops.run {R : Reader α ε σ} (h : R.Stops) {s : σ} (hs : R.room s = none)
    (answers : List (Answer α ε)) : R.run s answers = s := by
  induction answers with
  | nil => rfl
  | cons a answers ih =>
    change R.run (R.step s a) answers = s
    rw [h.stays s a hs, ih]

end Reader

/-- The answers serve the reader from a stream, of which `rest` is left. -/
inductive Serves (R : Reader α ε σ) : σ → List α → List (Answer α ε) → List α → Prop
  | nil {s : σ} {rest : List α} : Serves R s rest [] rest
  | cons {s : σ} {stream left rest : List α} {room : Nat} {a : Answer α ε}
      {answers : List (Answer α ε)} : R.room s = some room → Gives stream room a left →
      Serves R (R.step s a) left answers rest → Serves R s stream (a :: answers) rest

namespace Serves
variable {R : Reader α ε σ} {s : σ} {stream rest : List α} {answers : List (Answer α ε)}

/-- What every answer keeps holds after any number of them. -/
theorem invariant {I : σ → List α → Prop} (h : Serves R s stream answers rest) (h₀ : I s stream)
    (hstep : ∀ s stream room a left, I s stream → R.room s = some room → Gives stream room a left →
      I (R.step s a) left) : I (R.run s answers) rest := by
  induction h with
  | nil => exact h₀
  | cons hroom hgives _ ih => exact ih (hstep _ _ _ _ _ h₀ hroom hgives)

/-- A reader that is still reading has got something with every chunk. -/
theorem progress (hR : R.Stops) (h : Serves R s stream answers rest)
    (hopen : R.room (R.run s answers) ≠ none) :
    answers.countP Answer.isData + rest.length ≤ stream.length := by
  induction h with
  | nil => simp
  | @cons s stream left rest room a answers hroom hgives hserves ih =>
    have hrest := ih hopen
    cases hgives with
    | @data chunk _ _ fits ends =>
      have hne : chunk ≠ [] := by
        rintro rfl
        apply hopen
        change R.room (R.run (R.step s (.data [])) answers) = none
        rw [hR.run (hR.ends s)]
        exact hR.ends s
      have hpos := List.length_pos_of_ne_nil hne
      simp only [List.countP_cons, Answer.isData, ↓reduceIte, List.length_append]
      omega
    | interrupted => simpa [Answer.isData] using hrest

end Serves

end Reading
