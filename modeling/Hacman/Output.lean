import Hacman.Prefixes

/-!
# Buffered output

Status messages wait in a buffer for the target they were issued for, and diagnostics go to
stderr at once. Seen from the descriptors, everything comes out in the order of the calls: the
buffer is never more than a delay.
-/

namespace Hacman.Output
open Octets Util Prefixes

section Writes
variable {answers : Nat → Nat} {fd : Nat} {s : Bytes}

/-- The loop of `hm_write_all`, at the `k`-th call of `write`: an answer is the number of bytes that
it takes at most, and 0 stands for `EINTR`. The result is what each call took. -/
def writeAll (answers : Nat → Nat) (fd : Nat) : Nat → Nat → Bytes →
    Option (Nat × List (Nat × Bytes))
  | 0, k, s => if s = [] then some (k, []) else none
  | fuel + 1, k, s =>
    if s = [] then some (k, [])
    else (writeAll answers fd fuel (k + 1) (s.drop (answers k))).map fun r =>
      (r.1, (fd, s.take (answers k)) :: r.2)

def deliver (answers : Nat → Nat) (fuel : Nat) : Nat → List (Nat × Bytes) →
    Option (Nat × List (Nat × Bytes))
  | k, [] => some (k, [])
  | k, w :: log =>
    (writeAll answers w.1 fuel k w.2).bind fun r =>
      (deliver answers fuel r.1 log).map fun r' => (r'.1, r.2 ++ r'.2)

def Progress (answers : Nat → Nat) : Prop := ∀ k, ∃ j, 0 < answers (k + j)

theorem writeAll_nil (fuel k : Nat) : writeAll answers fd fuel k [] = some (k, []) := by
  cases fuel <;> rfl

theorem writeAll_step {fuel k : Nat} (hs : s ≠ []) {r : Nat × List (Nat × Bytes)}
    (h : writeAll answers fd fuel (k + 1) (s.drop (answers k)) = some r) :
    writeAll answers fd (fuel + 1) k s = some (r.1, (fd, s.take (answers k)) :: r.2) := by
  rw [writeAll, if_neg hs, h]
  rfl

theorem bytesOf_taken (n : Nat) (s : Bytes) (log : List (Nat × Bytes))
    (h : bytesOf log = bytesOf [(fd, s.drop n)]) :
    bytesOf ((fd, s.take n) :: log) = bytesOf [(fd, s)] := by
  have hcons : bytesOf ((fd, s.take n) :: log) = bytesOf [(fd, s.take n)] ++ bytesOf log :=
    bytesOf_append [(fd, s.take n)] log
  rw [hcons, h, bytesOf_singleton, bytesOf_singleton, bytesOf_singleton, ← List.map_append,
    List.take_append_drop]

def Written (answers : Nat → Nat) (fd k : Nat) (s : Bytes) : Prop := ∃ fuel₀ r,
  (∀ fuel, fuel₀ ≤ fuel → writeAll answers fd fuel k s = some r) ∧ bytesOf r.2 = bytesOf [(fd, s)]

theorem written_step {k : Nat} (hs : s ≠ []) (h : Written answers fd (k + 1) (s.drop (answers k))) :
    Written answers fd k s := by
  obtain ⟨fuel₀, r, hr, hbytes⟩ := h
  refine ⟨fuel₀ + 1, (r.1, (fd, s.take (answers k)) :: r.2), fun fuel hfuel => ?_, ?_⟩
  · obtain ⟨fuel, rfl⟩ := Nat.exists_eq_add_of_lt hfuel
    exact writeAll_step hs (hr _ (by omega))
  · exact bytesOf_taken (answers k) s r.2 hbytes

theorem writeAll_written (h : Progress answers) (fd k : Nat) (s : Bytes) :
    Written answers fd k s := by
  induction hn : s.length using Nat.strongRecOn generalizing k s with
  | ind n shorter =>
    by_cases hs : s = []
    · exact ⟨0, (k, []), fun fuel _ => by rw [hs, writeAll_nil], by simp [hs, bytesOf]⟩
    · have htaken (k : Nat) (htakes : 0 < answers k) : Written answers fd k s := by
        have hpos := List.length_pos_iff.mpr hs
        have hlt : (s.drop (answers k)).length < n := by
          rw [List.length_drop]
          omega
        exact written_step hs (shorter _ hlt (k + 1) (s.drop (answers k)) rfl)
      -- Calls that take nothing are repeated until one takes something.
      obtain ⟨j, hj⟩ := h k
      induction j generalizing k with
      | zero => exact htaken k hj
      | succ j ih =>
        by_cases htakes : 0 < answers k
        · exact htaken k htakes
        · apply written_step hs
          rw [Nat.eq_zero_of_not_pos htakes, List.drop_zero]
          exact ih (k + 1) (by rwa [Nat.add_right_comm, Nat.add_assoc])

theorem deliver_written (h : Progress answers) (k : Nat) (log : List (Nat × Bytes)) : ∃ fuel₀ r,
    (∀ fuel, fuel₀ ≤ fuel → deliver answers fuel k log = some r) ∧ bytesOf r.2 = bytesOf log := by
  induction log generalizing k with
  | nil => exact ⟨0, (k, []), fun _ _ => rfl, rfl⟩
  | cons w log ih =>
    obtain ⟨fuel₁, r, hr, hbytes⟩ := writeAll_written h w.1 k w.2
    obtain ⟨fuel₂, r', hr', hbytes'⟩ := ih r.1
    refine ⟨max fuel₁ fuel₂, (r'.1, r.2 ++ r'.2), fun fuel hfuel => ?_, ?_⟩
    · rw [deliver, hr fuel (by omega), Option.bind_some, hr' fuel (by omega)]
      rfl
    · rw [bytesOf_append, hbytes, hbytes', ← bytesOf_append]
      rfl

end Writes

section Calls

def hmErr (line : Bytes) (out : Out) : Out :=
  let out := hmOutFlush out
  if out.errPrefixLines then hmWritePrefixedStderr line true (hmErrStreamEnd out)
  else hmWriteAll STDERR_FILENO line out

inductive Call
  | out (fmt : Bytes) (ap : List Arg)
  | err (fmt : Bytes) (ap : List Arg)
  | target (fd : Nat)
  | flush
  | errPrefix

def line (fmt : Bytes) (ap : List Arg) : Bytes := hmVformat HM_LINE_CAP fmt ap []

def Call.run : Call → Out → Out
  | .out fmt ap => hmOut (line fmt ap)
  | .err fmt ap => hmErr (line fmt ap)
  | .target fd => hmOutTarget fd
  | .flush => hmOutFlush
  | .errPrefix => hmErrPrefix

def runCalls (calls : List Call) (out : Out) : Out := calls.foldl (fun out call => call.run out) out

theorem conversion_length {room : Nat} (hroom : 0 < room) (conv : UInt8) (ap : List Arg) :
    (conversion conv room ap).1.length ≤ room := by
  have hone (ch : UInt8) : [ch].length ≤ room := hroom
  have hdigits (n room : Nat) : (fmtUlong room n).length ≤ room := List.length_take_le _ _
  cases ap with
  | nil => exact hone conv
  | cons a ap =>
    cases a with
    | str s | slice s | ulong n =>
      rw [conversion]
      split_ifs
      · exact List.length_take_le _ _
      · exact hone conv
    | long v =>
      rw [conversion]
      split_ifs
      · have hrest := hdigits v.natAbs (room - 1)
        simp only [List.length_cons]
        omega
      · exact hdigits _ room
      · exact hone conv
    | char ch =>
      rw [conversion]
      split_ifs
      · exact hone ch
      · exact hone conv

theorem hmVformat_length {cap : Nat} (fmt : Bytes) (ap : List Arg) (o : Bytes)
    (ho : o.length ≤ cap) : (hmVformat cap fmt ap o).length ≤ cap := by
  induction fmt, ap, o using hmVformat.induct cap with
  | case1 ap o => simpa [hmVformat] using ho
  | case2 ch fmt ap o h =>
    rw [hmVformat.eq_def]
    simpa only [if_pos h] using ho
  | case3 ch fmt ap o h hch ih =>
    rw [hmVformat_char fmt ap (Nat.not_le.mp h) hch]
    exact ih (by simp only [List.length_append, List.length_singleton]; omega)
  | case4 ch ap o h hch =>
    rw [hmVformat.eq_def]
    simpa only [if_neg h, if_neg hch] using ho
  | case5 ch ap o h hch conv fmt hconv piece ih =>
    have hpiece : piece.1.length ≤ cap - o.length :=
      conversion_length (Nat.sub_pos_of_lt (Nat.not_le.mp h)) conv ap
    rw [hmVformat.eq_def]
    simp only [if_neg h, if_neg hch, if_pos hconv]
    exact ih (by rw [List.length_append]; omega)
  | case6 ch ap o h hch conv fmt hconv ih =>
    rw [hmVformat.eq_def]
    simp only [if_neg h, if_neg hch, if_neg hconv]
    exact ih (by simp only [List.length_append, List.length_singleton]; omega)

end Calls

section Screens

/-- What the calls so far mean for the next one: the target, whether diagnostics have prefixes, and
whether a line of stderr starts. -/
structure Screen where
  fd : Nat := 1
  prefixed : Bool := false
  start : Bool := true

/-- A status message as it appears on the target. -/
def Screen.status (d : Screen) (line : Bytes) : Bytes :=
  if d.fd = STDERR_FILENO then marked false d.start line else line

/-- A diagnostic as it appears on stderr; with prefixes it starts a line of its own. -/
def Screen.diagnostic (d : Screen) (line : Bytes) : Bytes :=
  if d.prefixed then (if d.start then [] else [LF]) ++ marked true true line else line

def Screen.shows (d : Screen) : Call → Nat × Bytes
  | .out fmt ap => (d.fd, d.status (line fmt ap))
  | .err fmt ap => (STDERR_FILENO, d.diagnostic (line fmt ap))
  | .target _ | .flush | .errPrefix => (d.fd, [])

def Screen.next (d : Screen) : Call → Screen
  | .out fmt ap => if d.fd = STDERR_FILENO then { d with start := lineAfter d.start (line fmt ap) }
    else d
  | .err fmt ap => if d.prefixed then { d with start := lineAfter true (line fmt ap) } else d
  | .target fd => { d with fd := fd, start := true }
  | .flush => d
  | .errPrefix => { d with prefixed := true }

def Screen.all (d : Screen) : List Call → List (Nat × Bytes)
  | [] => []
  | call :: calls => d.shows call :: (d.next call).all calls

end Screens

section Refinement
variable {d : Screen} {log : List (Nat × Bytes)} {out : Out} {s : Bytes}

def written (out : Out) (s : Bytes) : Bytes :=
  if out.prefixStderr then marked false out.stderrLineStart s else s

def startAfter (out : Out) (s : Bytes) : Bool :=
  if out.prefixStderr then lineAfter out.stderrLineStart s else out.stderrLineStart

/-- What the next flush writes. -/
def owed (out : Out) : Nat × Bytes := (out.fd, written out out.buf)

def emit (s : Bytes) (out : Out) : Out :=
  if out.prefixStderr then hmWritePrefixedStderr s false out else hmWriteAll out.fd s out

theorem emit_nil (out : Out) : emit [] out = out := by
  unfold emit
  split_ifs
  · rfl
  · exact if_pos rfl

theorem hmOutFlush_emit (out : Out) : hmOutFlush out = { emit out.buf out with buf := [] } := by
  by_cases hbuf : out.buf = []
  · rw [hmOutFlush, if_pos hbuf, hbuf, emit_nil, ← hbuf]
  · rw [hmOutFlush, if_neg hbuf]
    rfl

theorem emit_bytes (hfd : out.prefixStderr = decide (out.fd = STDERR_FILENO)) (s : Bytes) :
    bytesOf (emit s out).written = bytesOf out.written ++ bytesOf [(out.fd, written out s)] ∧
    (emit s out).stderrLineStart = startAfter out s ∧ untouched (emit s out) = untouched out := by
  unfold emit written startAfter
  cases hpre : out.prefixStderr with
  | false =>
    obtain ⟨hsame, hstart⟩ := hmWriteAll_rest out.fd s out
    exact ⟨hmWriteAll_bytes out.fd s out, hstart, hsame⟩
  | true =>
    have hstderr : out.fd = STDERR_FILENO := of_decide_eq_true (hfd.symm.trans hpre)
    have hlogged : Logged false s out (hmWritePrefixedStderr s false out) :=
      writePrefixedFrom_logged s.length le_rfl
    rw [hstderr]
    exact ⟨hlogged.bytes, hlogged.start, hlogged.same⟩

/-- The state after some calls: with what is pending, the descriptors have got what the calls say.
-/
structure Shows (d : Screen) (log : List (Nat × Bytes)) (out : Out) : Prop where
  pending : out.buf.length ≤ HM_OUT_CAP
  fd : out.fd = d.fd
  prefixStderr : out.prefixStderr = decide (d.fd = STDERR_FILENO)
  prefixed : out.errPrefixLines = d.prefixed
  start : startAfter out out.buf = d.start
  bytes : bytesOf (out.written ++ [owed out]) = bytesOf log

theorem owed_nil (h : out.buf = []) :
    bytesOf (out.written ++ [owed out]) = bytesOf out.written := by
  have hnone : written out [] = [] := by
    unfold written
    split_ifs <;> rfl
  rw [bytesOf_append, owed, h, hnone]
  exact List.append_nil _

theorem startAfter_nil (out : Out) : startAfter out [] = out.stderrLineStart := by
  unfold startAfter
  split_ifs <;> rfl

theorem Shows.flush (h : Shows d log out) :
    Shows d log (hmOutFlush out) ∧ (hmOutFlush out).buf = [] := by
  obtain ⟨hbytes, hstart, hsame⟩ := emit_bytes (by rw [h.prefixStderr, h.fd]) out.buf
  simp only [untouched, Prod.mk.injEq] at hsame
  obtain ⟨-, hfd, hpre, herr⟩ := hsame
  have hbuf := hmOutFlush_buf out
  refine ⟨⟨?_, ?_, ?_, ?_, ?_, ?_⟩, hbuf⟩
  · rw [hbuf]
    exact Nat.zero_le _
  · rw [hmOutFlush_emit]
    exact hfd.trans h.fd
  · rw [hmOutFlush_emit]
    exact hpre.trans h.prefixStderr
  · rw [hmOutFlush_emit]
    exact herr.trans h.prefixed
  · rw [hbuf, startAfter_nil, hmOutFlush_emit]
    exact hstart.trans h.start
  · rw [owed_nil hbuf, ← h.bytes, bytesOf_append, hmOutFlush_emit]
    exact hbytes

theorem Shows.append (h : Shows d log out) {fmt : Bytes} {ap : List Arg}
    (hfits : out.buf.length + (line fmt ap).length ≤ HM_OUT_CAP) :
    Shows (d.next (.out fmt ap)) (log ++ [d.shows (.out fmt ap)])
      { out with buf := out.buf ++ line fmt ap } := by
  have hbytes := h.bytes
  have hstart := h.start
  have hpre := h.prefixStderr
  unfold startAfter at hstart
  have howed : owed { out with buf := out.buf ++ line fmt ap } =
      (out.fd, written out out.buf ++ d.status (line fmt ap)) := by
    by_cases hfd : d.fd = STDERR_FILENO
    · rw [decide_eq_true hfd] at hpre
      rw [if_pos hpre] at hstart
      simp [owed, written, Screen.status, hpre, hfd, marked_append, hstart]
    · rw [decide_eq_false hfd] at hpre
      simp [owed, written, Screen.status, hpre, hfd]
  refine ⟨?_, ?_, ?_, ?_, ?_, ?_⟩
  · rw [List.length_append]
    exact hfits
  · rw [Screen.next]
    split_ifs <;> exact h.fd
  · rw [Screen.next]
    split_ifs <;> exact hpre
  · rw [Screen.next]
    split_ifs <;> exact h.prefixed
  · by_cases hfd : d.fd = STDERR_FILENO
    · rw [decide_eq_true hfd] at hpre
      rw [if_pos hpre] at hstart
      simp [startAfter, Screen.next, hpre, hfd, lineAfter_append, hstart]
    · rw [decide_eq_false hfd] at hpre
      simpa [startAfter, Screen.next, hpre, hfd] using hstart
  · rw [howed, bytesOf_append log, ← hbytes, bytesOf_append, bytesOf_append,
      Screen.shows, owed, h.fd]
    simp only [bytesOf_singleton, List.map_append, List.append_assoc]

theorem Shows.err (h : Shows d log out) (fmt : Bytes) (ap : List Arg) :
    Shows (d.next (.err fmt ap)) (log ++ [d.shows (.err fmt ap)]) (hmErr (line fmt ap) out) ∧
      (hmErr (line fmt ap) out).buf = [] := by
  obtain ⟨hflush, hbuf⟩ := h.flush
  have hbytes := hflush.bytes
  have hstart := hflush.start
  have herr := hflush.prefixed
  rw [owed_nil hbuf] at hbytes
  rw [hbuf, startAfter_nil] at hstart
  -- In both cases the line goes out behind `pre`, and nothing but the state of the line changes.
  have hshows {pre : Bytes} {out' : Out} {d' : Screen}
      (hfd : d'.fd = d.fd ∧ d'.prefixed = d.prefixed)
      (hsame : untouched out' = untouched (hmOutFlush out))
        (hline : out'.stderrLineStart = d'.start)
      (hout : bytesOf out'.written = bytesOf (hmOutFlush out).written ++ bytesOf
        [(STDERR_FILENO, pre)]) :
      Shows d' (log ++ [(STDERR_FILENO, pre)]) out' ∧ out'.buf = [] := by
    simp only [untouched, Prod.mk.injEq] at hsame
    obtain ⟨hbuf', hfd', hpre', herr'⟩ := hsame
    rw [hbuf] at hbuf'
    refine ⟨⟨?_, ?_, ?_, ?_, ?_, ?_⟩, hbuf'⟩
    · rw [hbuf']
      exact Nat.zero_le _
    · rw [hfd', hfd.1, hflush.fd]
    · rw [hpre', hfd.1, hflush.prefixStderr]
    · rw [herr', hfd.2, hflush.prefixed]
    · rw [hbuf', startAfter_nil, hline]
    · rw [owed_nil hbuf', hout, bytesOf_append, hbytes]
  rw [hmErr, Screen.shows, Screen.next, Screen.diagnostic]
  cases hd : d.prefixed with
  | false =>
    rw [hd] at herr
    obtain ⟨hsame, hline⟩ := hmWriteAll_rest STDERR_FILENO (line fmt ap) (hmOutFlush out)
    simp only [herr, Bool.false_eq_true, if_false]
    exact hshows ⟨rfl, rfl⟩ hsame (hline.trans hstart) (hmWriteAll_bytes _ _ _)
  | true =>
    rw [hd] at herr
    obtain ⟨hend, hline, hsame⟩ := streamEnd_bytes (hmOutFlush out)
    rw [hstart] at hend
    have hlogged : Logged true (line fmt ap) (hmErrStreamEnd (hmOutFlush out))
        (hmWritePrefixedStderr (line fmt ap) true (hmErrStreamEnd (hmOutFlush out))) :=
      writePrefixedFrom_logged (line fmt ap).length le_rfl
    simp only [herr, if_true]
    refine hshows ⟨rfl, hd.symm⟩ (hlogged.same.trans hsame) ?_ ?_
    · rw [hlogged.start, hline]
    · rw [hlogged.bytes, hend, hline, bytesOf_singleton, bytesOf_singleton, bytesOf_singleton,
        List.map_append, List.append_assoc]

theorem Shows.call (h : Shows d log out) (call : Call) :
    Shows (d.next call) (log ++ [d.shows call]) (call.run out) := by
  have hidle : bytesOf (log ++ [(d.fd, [])]) = bytesOf log := by simp [bytesOf]
  obtain ⟨hflush, hbuf⟩ := h.flush
  cases call with
  | flush => exact { hflush with bytes := hflush.bytes.trans hidle.symm }
  | errPrefix => exact { h with prefixed := rfl, bytes := h.bytes.trans hidle.symm }
  | err fmt ap => exact (h.err fmt ap).1
  | target fd =>
    have hbytes := hflush.bytes
    rw [owed_nil hbuf] at hbytes
    refine ⟨hflush.pending, rfl, rfl, hflush.prefixed, ?_, ?_⟩
    · exact (congrArg (startAfter _) hbuf).trans (startAfter_nil _)
    · exact (@owed_nil (hmOutTarget fd out) hbuf).trans (hbytes.trans hidle.symm)
  | out fmt ap =>
    have hline : (line fmt ap).length ≤ HM_OUT_CAP := hmVformat_length fmt ap [] (Nat.zero_le _)
    have hpending := h.pending
    rw [Call.run, hmOut, if_neg (Nat.not_lt.mpr hline)]
    split_ifs with hroom
    · exact hflush.append (by rw [hbuf]; simpa using hline)
    · exact h.append (by omega)

def Screen.after (d : Screen) (calls : List Call) : Screen := calls.foldl Screen.next d

theorem Shows.calls (h : Shows d log out) (calls : List Call) :
    Shows (d.after calls) (log ++ d.all calls) (runCalls calls out) := by
  induction calls generalizing d log out with
  | nil =>
    rw [Screen.all, List.append_nil]
    exact h
  | cons call calls ih =>
    have hrest := ih (h.call call)
    rw [List.append_assoc] at hrest
    exact hrest

def Call.Settles : Call → Prop
  | .err _ _ | .target _ | .flush => True
  | .out _ _ | .errPrefix => False

theorem Shows.settled (h : Shows d log out) {call : Call} (hcall : call.Settles) :
    (call.run out).buf = [] := by
  cases call with
  | out fmt ap | errPrefix => exact hcall.elim
  | err fmt ap => exact (h.err fmt ap).2
  | target fd | flush => exact h.flush.2

end Refinement

section Delivery

/-- Nothing is lost, nothing changes places, and nothing goes to another target: what `write` has
taken, and what is pending behind it, is what the calls said. -/
structure Delivered (answers : Nat → Nat) (calls : List Call) (out : Out) : Prop where
  pending : out.buf.length ≤ HM_OUT_CAP
  settled : ∀ front call, calls = front ++ [call] → call.Settles → out.buf = []
  written : ∃ fuel₀ k taken, (∀ fuel, fuel₀ ≤ fuel → deliver answers fuel 0 out.written =
    some (k, taken)) ∧ bytesOf (taken ++ [owed out]) = bytesOf (Screen.all {} calls) ∧
    ∀ fd, toTarget fd (taken ++ [owed out]) = toTarget fd (Screen.all {} calls)

/-- Whatever the calls are, and however `write` takes the bytes. -/
theorem output_delivered {answers : Nat → Nat} (h : Progress answers) (calls : List Call) :
    Delivered answers calls (runCalls calls {}) := by
  have hstart : Shows {} [] {} := ⟨Nat.zero_le _, rfl, rfl, rfl, rfl, owed_nil rfl⟩
  have hshows := hstart.calls calls
  obtain ⟨fuel₀, ⟨k, taken⟩, hr, htaken⟩ := deliver_written h 0 (runCalls calls {}).written
  have hbytes : bytesOf (taken ++ [owed (runCalls calls {})]) = bytesOf (Screen.all {} calls) := by
    rw [bytesOf_append, htaken, ← bytesOf_append]
    exact hshows.bytes
  refine ⟨hshows.pending, ?_, fuel₀, k, taken, hr, hbytes, fun fd => ?_⟩
  · rintro front call rfl hcall
    rw [runCalls, List.foldl_append]
    exact (hstart.calls front).settled hcall
  · rw [toTarget_bytesOf, toTarget_bytesOf, hbytes]

def sampleCalls : List Call :=
  [.out (ascii "kept %u\n") [.ulong 7], .target STDERR_FILENO, .out (ascii "a") [],
    .out (ascii "b\nc") [], .err (ascii "d%%\n") []]

theorem sample_delivered : Delivered (fun k => k % 3) sampleCalls (runCalls sampleCalls {}) :=
  output_delivered (fun k => ⟨if k % 3 = 0 then 1 else 0, by split_ifs <;> omega⟩) sampleCalls

example : (runCalls sampleCalls {}).delivered 1 = ascii "kept 7\n" ∧
    (runCalls sampleCalls {}).delivered STDERR_FILENO = ascii "hacman: ab\nhacman: cd%\n" := by
  decide +kernel

end Delivery

end Hacman.Output
