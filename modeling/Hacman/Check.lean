import Hacman.Main
import Hacman.Reading
import Mathlib.Data.List.DropRight

/-!
# Did the url change?

`run_curl` collects curl's output from a pipe, with the messages of a second pipe in
between; `hm_check` draws the marker from it. The body buffer is bounded: what comes
after it is full is read and dropped, and the last result says for which responses that matters.
-/

namespace Hacman.Check
open Octets Util Reading Main

def HM_BODY_MAX : Nat := 4 * 1024 * 1024

section Marker

def lowerByte (ch : UInt8) : UInt8 := if 65 ≤ ch && ch ≤ 90 then ch - 65 + 97 else ch

def ciPrefix (name : Bytes) (line : Bytes) : Bool :=
  name.isPrefixOf (line.map lowerByte)

def isBlank (ch : UInt8) : Bool := ch = SPACE || ch = TAB

/-- Both trims take blanks; the one of a version also takes CRs at the end. -/
def trim (atEnd : UInt8 → Bool) (s : Bytes) : Bytes := (s.dropWhile isBlank).rdropWhile atEnd

/-- The loop over the lines of a header block, with the last value found. -/
def lastHeaderFrom (name : Bytes) : Nat → Bytes → Option Bytes → Option Bytes
  | 0, _, found => found
  | fuel + 1, buf, found =>
    if buf = [] then found
    else
      let line := (before LF buf).rdropWhile (· = CR)
      let found := if ciPrefix name line then some (trim isBlank (line.drop name.length)) else found
      lastHeaderFrom name fuel (after LF buf) found

/-- Every round takes at least one byte. -/
def lastHeader (buf name : Bytes) : Option Bytes := lastHeaderFrom name buf.length buf none

/-- The position of the first occurrence; an empty needle is never found. -/
def findSub (needle : Bytes) : Bytes → Option Nat
  | [] => none
  | ch :: hay =>
    if needle = [] then none
    else if needle.isPrefixOf (ch :: hay) then some 0
    else (findSub needle hay).map (· + 1)

/-- The text between the anchors; an empty suffix stands for the end of the line. -/
def anchored (p : Project) (start : Bytes) : Except Bytes Bytes :=
  if p.versionSuffix ≠ [] then
    match findSub p.versionSuffix start with
    | none => .error (message "hacman: %S: version-suffix not found after version-prefix\n"
        [.slice p.name])
    | some stop => .ok (start.take stop)
  else .ok (before LF start)

def emptyVersion (p : Project) : Bytes :=
  message "hacman: %S: extracted version is empty\n" [.slice p.name]

def extractVersion (p : Project) (body : Bytes) : Except Bytes Bytes :=
  match findSub p.versionPrefix body with
  | none => .error (message "hacman: %S: version-prefix not found in response\n" [.slice p.name])
  | some at_ =>
    match anchored p (body.drop (at_ + p.versionPrefix.length)) with
    | .error text => .error text
    | .ok text =>
      if text = [] then .error (emptyVersion p)
      else
        let v := trim (fun ch => ch = CR || isBlank ch) text
        if v = [] then .error (emptyVersion p) else .ok v

def validator (p : Project) (headers : Bytes) : Except Bytes Bytes :=
  match (lastHeader headers (ascii "etag:")).orElse fun _ =>
      lastHeader headers (ascii "last-modified:") with
  | some v => .ok v
  | none => .error (message "hacman: %S: response has no ETag or Last-Modified header; use 'check: hash' or 'check: version'\n"
      [.slice p.name])

def extract (xxh3 : Bytes → UInt64) (p : Project) (output : Bytes) : Except Bytes Bytes :=
  match p.check with
  | .etag => validator p output
  | .hash => .ok (hmHashHex xxh3 output)
  | .version => extractVersion p output

def stored (text : Bytes) : Bytes := cstr (hmStrCopy (HM_MARK_MAX + 1) text)

def judge (xxh3 : Bytes → UInt64) (p : Project) (output : Bytes) : Except Bytes CheckResult :=
  match extract xxh3 p output with
  | .error text => .error text
  | .ok text => .ok { mark := stored text, body := if p.check = .etag then [] else output }

end Marker

section Curl

/-- What has been kept of curl's output, and whether its pipe is open. -/
structure Captured where
  body : Bytes := []
  isOpen : Bool := true
  deriving DecidableEq, Repr

/-- The buffer keeps room for a NUL; without room the output goes to a scrap buffer. -/
def Captured.keeps (s : Captured) : Bool := s.body.length < HM_BODY_MAX - 1

def Captured.read (s : Captured) : Answer UInt8 Bytes → Captured
  | .data [] => { s with isOpen := false }
  | .data chunk => if s.keeps then { s with body := s.body ++ chunk } else s
  | .interrupted => s
  | .failed _ => { s with isOpen := false }

def capture : Reader UInt8 Bytes Captured where
  room s :=
    if !s.isOpen then none
    else if s.keeps then some (HM_BODY_MAX - s.body.length - 1) else some 8192
  step s a := if s.isOpen then s.read a else s

/-- One round of the loop: what `poll` answered, and what was read of the pipes that it
found ready. -/
inductive Round
  | interrupted
  | failed
  | ready (out err : Option (Answer UInt8 Bytes))

/-- The state of the loop; `errors` are the chunks passed on to stderr. -/
structure Pump where
  out : Captured := {}
  errOpen : Bool := true
  errors : List Bytes := []
  broken : Bool := false

def Pump.running (s : Pump) : Bool := !s.broken && (s.out.isOpen || s.errOpen)

def Pump.readErr (s : Pump) : Answer UInt8 Bytes → Pump
  | .data [] => { s with errOpen := false }
  | .data chunk => { s with errors := s.errors ++ [chunk] }
  | .interrupted => s
  | .failed _ => { s with errOpen := false }

def Pump.round (s : Pump) : Round → Pump
  | .interrupted => s
  | .failed => { s with broken := true }
  | .ready out err =>
    let s := match out with
      | some a => { s with out := capture.step s.out a }
      | none => s
    match err with
    | some a => if s.errOpen then s.readErr a else s
    | none => s

def pump (rounds : List Round) : Pump :=
  rounds.foldl (fun s r => if s.running then s.round r else s) {}

inductive Waited
  | failed
  | exited (code : Nat)
  | signaled
  deriving DecidableEq, Repr

inductive CurlRun
  | noPipe
  | noErrorPipe
  | noFork
  | forked (rounds : List Round) (status : Waited)

variable (curl : Bytes)

def timeoutArg (timeoutSecs : Int) : Bytes :=
  (revDigits 16 (if 0 < timeoutSecs then timeoutSecs else 15).toNat).reverse

def curlArgv (url : Bytes) (headOnly : Bool) (timeoutSecs : Int) : List Bytes :=
  [curl, ascii "--silent", ascii "--show-error", ascii "--location", ascii "--fail",
    ascii "--max-time", timeoutArg timeoutSecs] ++ (if headOnly then [ascii "--head"] else []) ++
    [ascii "--", url]

/-- The captured output or a message; nothing while the loop still runs. -/
def runCurl : CurlRun → Option (Except Bytes Bytes)
  | .noPipe => some (.error (message "hacman: pipe() failed\n" []))
  | .noErrorPipe => some (.error (message "hacman: stderr pipe() failed\n" []))
  | .noFork => some (.error (message "hacman: fork() failed\n" []))
  | .forked rounds status =>
    let s := pump rounds
    if s.running then none
    else match status with
      | .failed => some (.error (message "hacman: waitpid() failed\n" []))
      | .exited 0 => some (.ok s.out.body)
      | .exited 127 => some (.error
          (message "hacman: cannot execute '%s' (is curl installed?)\n" [.str curl]))
      | .exited _ => some (.error [])
      | .signaled => some (.error [])

/-- `response` is what the network makes of a command line. -/
def hmCheck (xxh3 : Bytes → UInt64) (p : Project) (timeoutSecs : Int)
    (response : List Bytes → CurlRun) : Option (Except Bytes CheckResult) :=
  if HM_URL_MAX < p.url.length then
    some (.error (message "hacman: %S: url is too long\n" [.slice p.name]))
  else
    let url := cstr (hmStrCopy (HM_URL_MAX + 1) p.url)
    match runCurl curl (response (curlArgv curl url (p.check = .etag) timeoutSecs)) with
    | none => none
    | some (.error text) => some (.error
        (text ++ message "hacman: %S: request failed: %s\n" [.slice p.name, .str url]))
    | some (.ok output) => some (judge xxh3 p output)

end Curl

section Capture

theorem capture_stops : capture.Stops where
  stays s a h := by
    have hs : s.isOpen = false := by
      by_contra hs
      rw [Bool.not_eq_false] at hs
      by_cases hk : s.keeps <;> simp [capture, hs, hk] at h
    simp [capture, hs]
  ends s := by
    cases hs : s.isOpen <;> simp [capture, Captured.read, hs]

def Holds (content : Bytes) (s : Captured) (rest : Bytes) : Prop :=
  ∃ taken, taken ++ rest = content ∧ s.body = taken.take (HM_BODY_MAX - 1) ∧
    (s.isOpen = false → rest = [])

theorem Holds.step {content stream left : Bytes} {s : Captured} {room : Nat}
    {a : Answer UInt8 Bytes} (h : Holds content s stream) (hroom : capture.room s = some room)
    (hgives : Gives stream room a left) : Holds content (capture.step s a) left := by
  have hs : s.isOpen = true := by
    by_contra hs
    simp [capture, hs] at hroom
  obtain ⟨taken, htaken, hbody, hclosed⟩ := h
  have hlen : s.body.length = min (HM_BODY_MAX - 1) taken.length := by rw [hbody, List.length_take]
  simp only [capture, hs, Bool.not_true, Bool.false_eq_true, ↓reduceIte] at hroom ⊢
  cases hgives with
  | interrupted => exact ⟨taken, htaken, hbody, hclosed⟩
  | @data chunk rest _ hchunk hends =>
    cases chunk with
    | nil => exact ⟨taken, htaken, hbody, fun _ => hends rfl⟩
    | cons b chunk =>
      refine ⟨taken ++ b :: chunk, by rw [List.append_assoc, htaken], ?_, ?_⟩
      · by_cases hk : s.keeps = true
        · rw [if_pos hk, Option.some.injEq] at hroom
          simp only [Captured.read, hk, ↓reduceIte]
          simp only [Captured.keeps, decide_eq_true_eq] at hk
          have hall : s.body = taken := by rw [hbody, List.take_of_length_le (by omega)]
          rw [hall] at hroom hk ⊢
          rw [List.take_of_length_le (by simp only [List.length_append]; omega)]
        · simp only [Captured.read, hk, Bool.false_eq_true, ↓reduceIte]
          simp only [Captured.keeps, decide_eq_true_eq] at hk
          rw [hbody, List.take_append_of_le_length (by omega)]
      · intro hopen
        simp only [Captured.read] at hopen
        split_ifs at hopen
        · rw [hs] at hopen
          cases hopen
        · rw [hs] at hopen
          cases hopen

theorem captured_body {content rest : Bytes} {answers : List (Answer UInt8 Bytes)}
    (h : Serves capture {} content answers rest) (hend : (capture.run {} answers).isOpen = false) :
    (capture.run {} answers).body = content.take (HM_BODY_MAX - 1) := by
  obtain ⟨taken, htaken, hbody, hrest⟩ := h.invariant (I := Holds content)
    ⟨[], rfl, rfl, nofun⟩ fun _ _ _ _ _ hI => hI.step
  rw [hrest hend, List.append_nil] at htaken
  rw [hbody, htaken]

def Round.out : Round → Option (Answer UInt8 Bytes)
  | .ready out _ => out
  | _ => none

theorem readErr_frame (s : Pump) (a : Answer UInt8 Bytes) :
    (s.readErr a).out = s.out ∧ (s.readErr a).broken = s.broken := by
  unfold Pump.readErr
  split <;> exact ⟨rfl, rfl⟩

theorem round_frame {s : Pump} {r : Round} (hr : r ≠ .failed) :
    (s.round r).out = capture.run s.out r.out.toList ∧ (s.round r).broken = s.broken := by
  cases r with
  | interrupted => exact ⟨rfl, rfl⟩
  | failed => exact absurd rfl hr
  | ready out err =>
    cases out <;> cases err <;> simp only [Pump.round, Round.out]
    · exact ⟨rfl, trivial⟩
    · split_ifs
      · exact readErr_frame _ _
      · exact ⟨rfl, rfl⟩
    · exact ⟨rfl, trivial⟩
    · split_ifs
      · exact readErr_frame _ _
      · exact ⟨rfl, rfl⟩

/-- The loop reads curl's output as the reader alone would. -/
theorem pump_out {rounds : List Round} {s : Pump} (hs : s.broken = false)
    (hpoll : ∀ r ∈ rounds, r ≠ .failed) :
    let s' := rounds.foldl (fun s r => if s.running then s.round r else s) s
    s'.out = capture.run s.out (rounds.flatMap fun r => r.out.toList) ∧ s'.broken = false := by
  induction rounds generalizing s with
  | nil => exact ⟨rfl, hs⟩
  | cons r rounds ih =>
    obtain ⟨hout, hbroken⟩ := @round_frame s r (hpoll r (List.mem_cons_self ..))
    have hrest := fun r hr => hpoll r (List.mem_cons_of_mem _ hr)
    have hrun : capture.run s.out ((r :: rounds).flatMap fun r => r.out.toList) =
        capture.run (s.round r).out (rounds.flatMap fun r => r.out.toList) := by
      rw [hout, List.flatMap_cons]
      exact List.foldl_append
    rw [List.foldl_cons]
    split_ifs with hgo
    · rw [hrun]
      exact ih (hbroken.trans hs) hrest
    · have hclosed : capture.room s.out = none := by
        simp only [Pump.running, hs, Bool.not_false, Bool.true_and, Bool.or_eq_true, not_or,
          Bool.not_eq_true] at hgo
        simp [capture, hgo.1]
      rw [capture_stops.run hclosed]
      rw [← capture_stops.run hclosed (rounds.flatMap fun r => r.out.toList)]
      exact ih hs hrest

variable {curl : Bytes} {xxh3 : Bytes → UInt64} {p : Project} {timeoutSecs : Int}
  {response : List Bytes → CurlRun} {content : Bytes}

/-- The network answers with this output and exit status 0: every read of the pipe gets
some of what is left of it, and the loop has ended. -/
structure Delivers (curl : Bytes) (p : Project) (timeoutSecs : Int)
    (response : List Bytes → CurlRun) (content : Bytes) : Prop where
  url : p.url.length ≤ HM_URL_MAX
  run : ∃ rounds rest, response (curlArgv curl (cstr (hmStrCopy (HM_URL_MAX + 1) p.url))
      (p.check = .etag) timeoutSecs) = .forked rounds (.exited 0) ∧
    (∀ r ∈ rounds, r ≠ .failed) ∧
      Serves capture {} content (rounds.flatMap fun r => r.out.toList) rest ∧
        (pump rounds).running = false

theorem hmCheck_output (h : Delivers curl p timeoutSecs response content) :
    hmCheck curl xxh3 p timeoutSecs response =
      some (judge xxh3 p (content.take (HM_BODY_MAX - 1))) := by
  obtain ⟨rounds, rest, hresponse, hpoll, hserves, hended⟩ := h.run
  obtain ⟨hout, hbroken⟩ := @pump_out rounds {} rfl hpoll
  change (pump rounds).out = _ at hout
  change (pump rounds).broken = false at hbroken
  have hclosed : (capture.run {} (rounds.flatMap fun r => r.out.toList)).isOpen = false := by
    simp only [Pump.running, hbroken, Bool.not_false, Bool.true_and, Bool.or_eq_false_iff] at hended
    rw [← hout]
    exact hended.1
  simp only [hmCheck, if_neg (Nat.not_lt.mpr h.url), hresponse, runCurl, hended,
    Bool.false_eq_true, ↓reduceIte, hout, captured_body hserves hclosed]

def twoReads (first second : Bytes) : List Round :=
  [.ready (some (.data first)) none, .interrupted,
    .ready (some (.data second)) (some (.data (ascii "note"))),
    .ready (some (.data [])) (some (.data []))]

theorem step_end (s : Captured) : (capture.step s (.data [])).isOpen = false := by
  cases hs : s.isOpen <;> simp [capture, Captured.read, hs]

theorem step_open {s : Captured} {chunk : Bytes} (hs : s.isOpen = true) (hc : chunk ≠ []) :
    (capture.step s (.data chunk)).isOpen = true := by
  cases chunk with
  | nil => exact absurd rfl hc
  | cons b chunk =>
    simp only [capture, hs, ↓reduceIte, Captured.read]
    split_ifs
    · rfl
    · exact hs

theorem room_open {s : Captured} (hs : s.isOpen = true) : ∃ room, capture.room s = some room ∧
    1 ≤ room := by
  by_cases hk : s.keeps = true
  · refine ⟨HM_BODY_MAX - s.body.length - 1, by simp [capture, hs, hk], ?_⟩
    simp only [Captured.keeps, decide_eq_true_eq] at hk
    omega
  · exact ⟨8192, by simp [capture, hs, hk], by decide⟩

theorem twoReads_delivers {first second : Bytes} (hurl : p.url.length ≤ HM_URL_MAX)
    (hfirst : first ≠ []) (hlen : first.length ≤ HM_BODY_MAX - 1) (hsecond : second.length = 1) :
    Delivers curl p timeoutSecs (fun _ => .forked (twoReads first second) (.exited 0))
      (first ++ second) := by
  have hne : second ≠ [] := List.ne_nil_of_length_pos (by omega)
  have h₁ := @step_open {} first rfl hfirst
  have h₂ := step_open h₁ hne
  obtain ⟨room, hroom, hpos⟩ := room_open h₁
  obtain ⟨room', hroom', -⟩ := room_open h₂
  have hend := step_end (capture.step (capture.step {} (.data first)) (.data second))
  refine ⟨hurl, _, [], rfl, by simp [twoReads], ?_, ?_⟩
  · have htail : Serves capture (capture.step {} (.data first)) (second ++ ([] ++ []))
        [.data second, .data []] [] :=
      .cons hroom (.data (by omega) fun h => absurd h hne)
        (.cons hroom' (.data (Nat.zero_le _) fun _ => rfl) .nil)
    rw [List.append_nil, List.append_nil] at htail
    exact .cons rfl (.data hlen fun h => absurd h hfirst) htail
  · simp [pump, twoReads, Pump.running, Pump.round, Pump.readErr, hend, ascii]

end Capture

end Hacman.Check
