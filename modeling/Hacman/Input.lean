import Hacman.Reading
import Hacman.Util

/-!
# Reading the input

`hm_read_all` reads until the end of the file into a buffer of the maximum size, and takes a
full buffer for an input that is too large.
-/

namespace Hacman.Input
open Octets Util Reading

section Slurp

inductive Status | reading | ended | failed (text : Bytes)
  deriving DecidableEq, Repr

structure Slurp where
  buf : Bytes := []
  status : Status := .reading
  deriving DecidableEq, Repr

variable (path : Bytes) (cap : Nat)

def tooLarge : Bytes := message "hacman: %s: input too large (max %u bytes)\n"
    [.str path, .ulong cap]

def Slurp.read (s : Slurp) : Answer UInt8 Unit → Slurp
  | .interrupted => s
  | .failed _ => { s with status := .failed (message "hacman: %s: read failed\n" [.str path]) }
  | .data [] => { s with status := .ended }
  | .data chunk =>
    let buf := s.buf ++ chunk
    { buf := buf, status := if buf.length = cap then .failed (tooLarge path cap) else .reading }

def slurp : Reader UInt8 Unit Slurp where
  room s := if s.status = .reading then some (cap - s.buf.length) else none
  step s a := if s.status = .reading then s.read path cap a else s

structure Result where
  count : Option Nat
  buf : Bytes
  sourceFd : Option Nat
  canonical : Bool
  closed : List Nat
  text : Bytes
  deriving DecidableEq, Repr

/-- `opened` is the answer of `open_source`, which is not asked for standard input; nothing is
returned while the loop still runs. -/
def hmReadAll (opened : Option Nat × Bool) (answers : List (Answer UInt8 Unit)) : Option Result :=
  let stdin := path = ascii "-"
  if ¬ stdin ∧ opened.1 = none then
    some ⟨none, [], none, opened.2, [], message "hacman: %s: cannot open file\n" [.str path]⟩
  else
    let fd := if stdin then none else opened.1
    let canonical := if stdin then false else opened.2
    let s := (slurp path cap).run {} answers
    match s.status with
    | .reading => none
    | .ended => some ⟨some s.buf.length, s.buf, fd, canonical, [], []⟩
    | .failed text => some ⟨none, s.buf, none, canonical, fd.toList, text⟩

end Slurp

section Ways
variable {path : Bytes} {cap : Nat} {content rest stream left : Bytes} {s : Slurp}
variable {answers : List (Answer UInt8 Unit)}

theorem slurp_stops : (slurp path cap).Stops where
  stays s a h := by
    have hs : s.status ≠ .reading := fun hs => by simp [slurp, hs] at h
    simp [slurp, hs]
  ends s := by
    by_cases hs : s.status = .reading <;> simp [slurp, Slurp.read, hs]

/-- What the buffer holds of the file, and what is known when the loop has ended. -/
structure Slurped (path : Bytes) (cap : Nat) (content : Bytes) (s : Slurp)
    (rest : Bytes) : Prop where
  whole : s.buf ++ rest = content
  reading : s.status = .reading → s.buf.length < cap
  ended : s.status = .ended → s.buf = content ∧ content.length < cap
  failed : ∀ text, s.status = .failed text → text = tooLarge path cap ∧ s.buf.length = cap

theorem slurped_start (hcap : 0 < cap) : Slurped path cap content {} content where
  whole := rfl
  reading _ := hcap
  ended h := by cases h
  failed _ h := by cases h

theorem Slurped.asks {room : Nat} (h : Slurped path cap content s rest)
    (hroom : (slurp path cap).room s = some room) : 0 < room := by
  have hs : s.status = .reading := by
    by_contra hs
    simp [slurp, hs] at hroom
  have hfits := h.reading hs
  simp only [slurp, hs, ↓reduceIte, Option.some.injEq] at hroom
  omega

theorem Slurped.step {room : Nat} {a : Answer UInt8 Unit} (h : Slurped path cap content s stream)
    (hroom : (slurp path cap).room s = some room) (hgives : Gives stream room a left) :
    Slurped path cap content ((slurp path cap).step s a) left := by
  have hs : s.status = .reading := by
    by_contra hs
    simp [slurp, hs] at hroom
  have hfits := h.reading hs
  simp only [slurp, hs, ↓reduceIte, Option.some.injEq] at hroom
  simp only [slurp, hs, ↓reduceIte]
  cases hgives with
  | interrupted => exact h
  | @data chunk rest _ hchunk hends =>
    cases chunk with
    | nil =>
      obtain rfl := hends rfl
      have hbuf : s.buf = content := by simpa using h.whole
      exact ⟨h.whole, nofun, fun _ => ⟨hbuf, hbuf ▸ hfits⟩, nofun⟩
    | cons b chunk =>
      have hlen : (s.buf ++ b :: chunk).length ≤ cap := by
        rw [List.length_append]
        omega
      refine ⟨by simpa [Slurp.read] using h.whole, fun hreading => ?_, fun hended => ?_,
        fun text hfailed => ?_⟩
      · simp only [Slurp.read] at hreading ⊢
        split at hreading
        · cases hreading
        · omega
      · simp only [Slurp.read] at hended
        split at hended
        · cases hended
        · cases hended
      · simp only [Slurp.read] at hfailed ⊢
        split at hfailed
        · rename_i hfull
          exact ⟨(Status.failed.inj hfailed).symm, hfull⟩
        · cases hfailed

theorem slurp_slurped (hcap : 0 < cap) (h : Serves (slurp path cap) {} content answers rest) :
    Slurped path cap content ((slurp path cap).run {} answers) rest :=
  h.invariant (I := Slurped path cap content) (slurped_start hcap) fun _ _ _ _ _ hI => hI.step

/-- What the message promises: an input of at most `cap` bytes is returned, a larger one is
turned down with its descriptor closed. -/
def promised (path : Bytes) (cap : Nat) (opened : Option Nat × Bool) (content : Bytes) : Result :=
  let fd := if path = ascii "-" then none else opened.1
  let canonical := if path = ascii "-" then false else opened.2
  if content.length ≤ cap then ⟨some content.length, content, fd, canonical, [], []⟩
  else ⟨none, content.take cap, none, canonical, fd.toList, tooLarge path cap⟩

/-- However the input is served, the loop that has stopped returns what was promised, and one that
has not asks for more, and has got a byte of the input with every chunk. -/
def AcceptsWhatFits (cap : Nat) (content : Bytes) : Prop :=
  ∀ path fd canonical answers rest, Serves (slurp path cap) {} content answers rest →
    ((slurp path cap).room ((slurp path cap).run {} answers) = none →
      hmReadAll path cap (some fd, canonical) answers =
        some (promised path cap (some fd, canonical) content)) ∧
    ∀ room, (slurp path cap).room ((slurp path cap).run {} answers) = some room →
      0 < room ∧ answers.countP Answer.isData + rest.length ≤ content.length

theorem accepts_of_ne (hcap : 0 < cap) (hne : content.length ≠ cap) :
    AcceptsWhatFits cap content := by
  intro path fd canonical answers rest h
  have hslurped := slurp_slurped hcap h
  refine ⟨fun hstopped => ?_, fun room hroom =>
    ⟨hslurped.asks hroom, h.progress slurp_stops (Option.ne_none_iff_exists'.mpr ⟨room, hroom⟩)⟩⟩
  rw [hmReadAll, if_neg (fun h => by cases h.2)]
  simp only
  generalize (slurp path cap).run {} answers = s at hslurped hstopped ⊢
  have hlength := congrArg List.length hslurped.whole
  rw [List.length_append] at hlength
  cases hstatus : s.status with
  | reading => simp [slurp, hstatus] at hstopped
  | ended =>
    obtain ⟨hbuf, hlt⟩ := hslurped.ended hstatus
    simp only [promised, hbuf, if_pos hlt.le]
  | failed text =>
    obtain ⟨htext, hfull⟩ := hslurped.failed text hstatus
    have htake : content.take cap = s.buf := by
      rw [← hslurped.whole, ← hfull, List.take_left]
    have hover : ¬ content.length ≤ cap := by omega
    simp only [promised, if_neg hover, htext, htake]

theorem serves_whole (hlen : content.length = cap) (hne : content ≠ []) :
    Serves (slurp path cap) {} content [.data content] [] := by
  have hgives : Gives (content ++ []) cap (.data content : Answer UInt8 Unit) [] :=
    .data (le_of_eq hlen) fun h => absurd h hne
  rw [List.append_nil] at hgives
  exact .cons (by simp [slurp]) hgives .nil

theorem slurp_full (hlen : content.length = cap) (hne : content ≠ []) :
    (slurp path cap).run {} [.data content] = ⟨content, .failed (tooLarge path cap)⟩ := by
  obtain ⟨b, chunk, rfl⟩ := List.exists_cons_of_ne_nil hne
  simp only [Reader.run, List.foldl_cons, List.foldl_nil, slurp, ↓reduceIte, Slurp.read,
    List.nil_append, hlen]

theorem hmReadAll_full (fd : Nat) (canonical : Bool) (hpath : path ≠ ascii "-")
    (hlen : content.length = cap)
    (hne : content ≠ []) : hmReadAll path cap (some fd, canonical) [.data content] =
      some ⟨none, content, none, canonical, [fd], tooLarge path cap⟩ := by
  rw [hmReadAll, if_neg (fun h => by cases h.2)]
  simp only [slurp_full hlen hne, if_neg hpath]
  rfl

theorem not_accepts_maximum (hlen : content.length = cap) (hne : content ≠ []) :
    ¬ AcceptsWhatFits cap content := by
  intro h
  have hpath : ascii "a.siml" ≠ ascii "-" := by decide
  have hstopped : (slurp (ascii "a.siml") cap).room
      ((slurp (ascii "a.siml") cap).run {} [.data content]) = none := by
    rw [slurp_full hlen hne]
    rfl
  have hresult := (h (ascii "a.siml") 3 false _ _ (serves_whole hlen hne)).1 hstopped
  rw [hmReadAll_full 3 false hpath hlen hne] at hresult
  have hcount := congrArg Result.count (Option.some.inj hresult)
  rw [promised, if_pos hlen.le] at hcount
  cases hcount

theorem ne_nil_of_maximum (hlen : content.length = HM_CONFIG_MAX) : content ≠ [] := by
  rintro rfl
  exact absurd hlen (by decide)

/-- Every input is accepted or turned down as the message promises, but for one of exactly the
maximum size. -/
theorem read_all_accepts (content : Bytes) :
    AcceptsWhatFits HM_CONFIG_MAX content ↔ content.length ≠ HM_CONFIG_MAX :=
  ⟨fun h hlen => not_accepts_maximum hlen (ne_nil_of_maximum hlen) h, accepts_of_ne (by decide)⟩

theorem read_all_rejects_maximum :
    (List.replicate HM_CONFIG_MAX (120 : UInt8)).length = HM_CONFIG_MAX ∧
    hmReadAll (ascii "a.siml") HM_CONFIG_MAX (some 3, false)
      [.data (List.replicate HM_CONFIG_MAX 120)] =
      some ⟨none, List.replicate HM_CONFIG_MAX 120, none, false, [3],
        tooLarge (ascii "a.siml") HM_CONFIG_MAX⟩ ∧
    tooLarge (ascii "a.siml") HM_CONFIG_MAX =
      ascii "hacman: a.siml: input too large (max 1048576 bytes)\n" ∧
    ¬ AcceptsWhatFits HM_CONFIG_MAX (List.replicate HM_CONFIG_MAX 120) := by
  have hlen : (List.replicate HM_CONFIG_MAX (120 : UInt8)).length = HM_CONFIG_MAX :=
    List.length_replicate
  generalize List.replicate HM_CONFIG_MAX (120 : UInt8) = content at hlen ⊢
  have hne := ne_nil_of_maximum hlen
  exact ⟨hlen, hmReadAll_full 3 false (by decide) hlen hne, by decide +kernel,
    not_accepts_maximum hlen hne⟩

end Ways

end Hacman.Input
