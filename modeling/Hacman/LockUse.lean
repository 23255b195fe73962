import Hacman.History
import Hacman.Outline

/-!
# How a run uses its lock file

The descriptor that `hm_cache_lock` returns goes through `main` as `lock_fd`. Along every run the
lock file is opened at most once, nothing is set up without the lock, and the program is executed
with the lock file closed.
-/

namespace Hacman.LockUse
open Octets Util Cache Config Interaction Main Requests Outline

section Monitor

inductive Lock
  | fresh
  | opened
  | held
  | closed
  deriving DecidableEq, Repr

def Lock.next (k : Lock) (r : calls.Req) (x : calls.Ans r) : Lock :=
  match r, x with
  | .openLock _, none => .opened
  | .setlk, .ok => .held
  | .setlkw, none => .held
  | .closeLock, _ => .closed
  | _, _ => k

def Lock.idle (k : Lock) : Prop := k = .fresh ∨ k = .closed

/-- An inspection works without the lock; it runs the check, and saves what the check refreshes. -/
def Allowed (o : Opts) (c : Slot) (k : Lock) : Call → Prop
  | .openLock path => k = .fresh ∧ path = lockPath c
  | .setlk | .getlk | .getppid | .parentPid _ | .setlkw => k = .opened
  | .closeLock => k = .opened ∨ k = .held
  | .reset _ | .materialize _ _ | .command _ _ _ _ | .install _ _ _ _ _ _ => k = .held
  | .check _ _ => k = .held ∨ o.inspects = true ∧ k = .fresh
  | .save path _ => path = c.path ∧ (k = .held ∨ o.inspects = true ∧ k = .fresh)
  | .exec _ _ => k.idle
  | .unpack _ _ => False
  | _ => True

abbrev watch : Monitor calls where
  State := Lock
  assume _ _ _ := True
  next := Lock.next

def lockAfter (t : List (Interaction.Event calls)) : Lock :=
  t.foldl (fun k e => k.next e.req e.ans) .fresh

end Monitor

section Walk
variable (p : Project) (o : Opts) (c : Slot) (dir : Bytes)

abbrev Walks {α : Type} (prog : P α) (R : α → Lock → Prop) (k : Lock) : Prop :=
  prog.Safe watch.env (Allowed o c) R k

variable {o c} {k : Lock}

def Mute : Call → Prop
  | .read _ | .time | .access _ | .out _ | .err _ => True
  | _ => False

theorem mute_walks {α : Type} {prog : P α} (h : prog.Only Mute) :
    Walks o c prog (fun _ k' => k' = k) k :=
  h.mute fun r hr => by cases r <;> first | exact ⟨trivial, fun _ => rfl⟩ | exact hr.elim

theorem locking : Locking watch.env (Allowed o c) c (· = .fresh) (· = .opened) (· = .fresh)
    (fun locked k => (locked = true → k = .held) ∧ (locked = false → k.idle)) where
  openLock := by
    rintro _ rfl
    refine ⟨⟨rfl, rfl⟩, fun failed k' hk => ?_⟩
    cases failed with
    | none => exact ⟨fun _ => hk.2, fun hne => absurd rfl hne⟩
    | some reason => exact ⟨nofun, fun _ => hk.2⟩
  report := by
    rintro _ text rfl
    exact ⟨trivial, fun _ k' hk => ⟨nofun, fun _ => .inl hk.2⟩⟩
  talk := by
    rintro _ r rfl hr
    cases r <;> first | exact hr.elim | exact ⟨rfl, fun _ k' hk => hk.2⟩ | exact ⟨trivial,
      fun _ k' hk => hk.2⟩
  setlk := by
    rintro _ rfl
    refine ⟨rfl, fun got k' hk => ?_⟩
    cases got with
    | ok => exact ⟨fun _ => ⟨fun _ => hk.2, nofun⟩, fun hne => absurd rfl hne⟩
    | busy | failed => exact ⟨nofun, fun _ => hk.2⟩
  setlkw := by
    rintro _ rfl
    refine ⟨rfl, fun failed k' hk => ?_⟩
    cases failed with
    | none => exact ⟨fun _ => ⟨fun _ => hk.2, nofun⟩, fun hne => absurd rfl hne⟩
    | some reason => exact ⟨nofun, fun _ => hk.2⟩
  closeLock := by
    rintro _ rfl
    exact ⟨.inl rfl, fun _ k' hk => ⟨nofun, fun _ => .inr hk.2⟩⟩

theorem finish_walks (rc : Nat) (h : k.idle) :
    Walks o c (finish p o rc) (fun _ => Lock.idle) k := by
  unfold finish
  split_ifs
  · exact h
  · exact h
  · refine ⟨h, fun (failed : Option Bytes) k' hk => ?_⟩
    obtain rfl : k' = k := by
      rw [hk.2]
      cases failed <;> rfl
    cases failed with
    | none => exact h
    | some reason =>
      refine ⟨trivial, fun _ k₁ h₁ => ?_⟩
      obtain rfl : k₁ = k' := h₁.2
      exact h

/-- The lock file of a run between two requests: held on one side of the lock, on the other
not there yet. -/
def side (locked : Bool) : Lock := if locked then .held else .fresh

theorem finishLocked_walks (locked : Bool) (rc : Nat) :
    Walks o c (finishLocked p o locked rc) (fun _ => Lock.idle) (side locked) := by
  cases locked with
  | false => exact finish_walks p rc (.inl rfl)
  | true => exact ⟨.inr rfl, fun _ k' hk => finish_walks p rc (.inr hk.2)⟩

end Walk

section Work
variable {p : Project} {o : Opts} {c : Slot} {dir : Bytes} {locked : Bool} {r : Record} {now : Int}

theorem inspects_fresh (hi : o.inspects = !locked) :
    side locked = .held ∨ o.inspects = true ∧ side locked = .fresh := by
  cases locked with
  | true => exact .inl rfl
  | false => exact .inr ⟨hi, rfl⟩

theorem side_held (hi : o.inspects = !locked) (hacts : o.inspects = false) :
    side locked = .held := by
  cases locked with
  | true => rfl
  | false => exact absurd (hi.symm.trans hacts) (by decide)

theorem reset_walks : Walks o c (askReset c.workdir) (fun clean k =>
    (clean = true → k = .held) ∧ (clean = false → k = .held)) .held :=
  ⟨rfl, fun _ _ hk => ⟨fun _ => hk.2, fun _ => hk.2⟩⟩

theorem commandCourse (hi : o.inspects = !locked) : CommandCourse watch.env
    (Allowed o c) p o c dir r now
    (· = side locked) (fun _ => (· = side locked)) (fun _ => (· = side locked)) where
  due := by
    rintro _ - rfl
    exact ⟨trivial, fun _ _ hk => hk.2⟩
  adopt _ _ _ hw := hw
  run := by
    rintro _ - - rfl
    exact mute_walks (report_only (fun _ => trivial) _ _)
  setup := by
    rintro _ hacts - rfl
    rw [side_held hi hacts]
    refine (commandSetup_safe (· = .held) (R := fun _ => (· = .held)) reset_walks ?_ ?_ ?_).mono
      fun _ _ hk => ⟨fun _ => hk, fun _ => hk⟩
    · exact fun _ => rfl
    · rintro _ rfl
      exact ⟨rfl, fun _ _ hk => ⟨fun _ => hk.2, fun _ => hk.2⟩⟩
    · rintro _ rfl
      exact ⟨rfl, fun _ _ hk => hk.2⟩
  save := by
    rintro _ r' rfl
    exact ⟨⟨rfl, inspects_fresh hi⟩, fun _ _ hk => hk.2⟩

theorem urlCourse (hi : o.inspects = !locked) : UrlCourse watch.env (Allowed o c) p o c dir r now
    (· = side locked) (fun _ => (· = side locked)) (fun _ _ => (· = side locked))
    (fun _ _ => (· = side locked)) (fun _ => (· = side locked)) (fun _ => (· = side locked)) where
  check := by
    rintro _ rfl
    refine ⟨inspects_fresh hi, fun res k' hk => ?_⟩
    have hsame : k' = side locked := by
      rw [hk.2]
      cases res <;> rfl
    exact ⟨fun _ => hsame, fun _ _ => hsame⟩
  probe := by
    rintro _ res rfl
    exact mute_walks (missingBin_only (G := Mute) p trivial true)
  unchanged := by
    rintro _ res missing - rfl
    exact mute_walks (report_only (fun _ => trivial) _ _)
  tell := by
    rintro _ res missing - rfl
    exact mute_walks (reportChange_only (G := Mute) p (fun _ => trivial) _ _ _)
  inspect _ _ _ _ hw := hw
  adopt _ _ _ _ _ hw := hw
  setup := by
    rintro _ res missing hacts - rfl
    rw [side_held hi hacts]
    refine (installSetup_safe (· = .held) (R := fun _ => (· = .held)) reset_walks ?_ ?_).mono
      fun _ _ hk => ⟨fun _ => hk, fun _ => hk⟩
    · rintro _ text rfl
      exact ⟨trivial, fun _ _ hk => hk.2⟩
    · rintro _ - rfl
      exact ⟨rfl, fun _ _ hk => hk.2⟩
  save := by
    rintro _ r' rfl
    exact ⟨⟨rfl, inspects_fresh hi⟩, fun _ _ hk => hk.2⟩

theorem runProject_walks (hi : o.inspects = !locked) :
    Walks o c (runProject p o c r now dir) (fun _ => (· = side locked)) (side locked) := by
  unfold runProject
  cases p.kind with
  | command => exact (commandCourse hi).runCommandProject rfl
  | url => exact (urlCourse hi).runUrlProject rfl

def sides : Assertions Lock where
  entered locked := (· = side locked)
  unread locked := (· = side locked)
  loaded locked _ := (· = side locked)
  timed locked _ _ := (· = side locked)
  resting locked _ _ := (· = side locked)
  called locked _ _ := (· = side locked)
  left locked _ := (· = side locked)
  declined _ _ := (· = .fresh)
  unable := (· = .fresh)

theorem course : Course watch.env (Allowed o c) p o c dir (fun _ => Lock.idle) sides where
  load := by
    rintro locked _ rfl
    refine (mute_walks (loadRecord_only (G := Mute) c trivial fun _ => trivial)).mono fun _ _ hk =>
      ?_
    exact ⟨fun _ => hk, fun _ _ => hk⟩
  giveUp := by
    rintro locked _ rfl
    cases locked with
    | false => exact .inl rfl
    | true => exact ⟨.inr rfl, fun _ _ hk => .inr hk.2⟩
  time := by
    rintro locked r _ rfl
    exact ⟨trivial, fun _ _ hk => hk.2⟩
  decide := by
    rintro locked r now _ rfl
    refine (mute_walks (isDue_only (G := Mute) p o trivial r now _)).mono fun _ _ hk => ?_
    exact ⟨fun _ => hk, fun _ _ => hk⟩
  skip := by
    rintro locked r now wait _ rfl
    exact mute_walks (reportSkip_only (G := Mute) p o (fun _ => trivial) wait)
  rest := by
    rintro locked r now _ - rfl
    exact finishLocked_walks p locked HM_EXIT_OK
  exec := by
    rintro r now _ - rfl
    refine ⟨.inl rfl, fun failed k' hk => ?_⟩
    have hsame : k' = .fresh := by
      rw [hk.2]
      cases failed <;> rfl
    exact ⟨fun _ => .inl hsame, fun _ => hsame⟩
  access := by
    rintro r now _ - rfl
    exact ⟨trivial, fun _ _ hk => ⟨fun _ => hk.2, fun _ => hk.2⟩⟩
  cannot := by
    rintro text _ rfl
    exact ⟨trivial, fun _ _ hk => .inl hk.2⟩
  lock := by
    rintro r now _ - rfl
    exact locking.hmCacheLock rfl
  work := by
    rintro locked r now _ hi rfl
    exact runProject_walks hi
  finish := by
    rintro locked rc _ rfl
    exact finishLocked_walks p locked rc

theorem act_walks : Walks o c (act p o c dir) (fun _ => Lock.idle) .fresh := course.act rfl

end Work

section Runs
variable {W : Type} {E : Env calls W} {w w' : W} {l : Launch} {p : Project} {c : Slot} {dir : Bytes}
  {t : List (Interaction.Event calls)} {prog : P Outcome}

/-- Whatever the world answers, every request of a run is made with the lock file in the state it
needs: the slot's own lock file is opened at most once, all setup and (inspection apart) the check
and the save happen while the lock is held, and the program is executed and the run ends with
nothing of it open. -/
theorem lock_used (hrun : prepare l = .run p c dir) (hs : Steps E (main l) w t prog w') :
    (∀ before e rest, t = before ++ e :: rest → Allowed l.opts c (lockAfter before) e.req) ∧
      ∀ out, prog = .done out → (lockAfter t).idle := by
  have hmain : main l = act p l.opts c dir := by simp only [main, hrun]
  rw [hmain] at hs
  have htrace := act_walks.trace (fun _ _ _ => trivial) hs
  refine ⟨htrace.2, fun out hout => ?_⟩
  have hend := htrace.1
  rw [hout] at hend
  exact hend

theorem lock_used_first : ∃ t : List (Interaction.Event calls), t ≠ [] ∧ (lockAfter t).idle ∧
    ∀ before e rest, t = before ++ e :: rest →
      Allowed History.before.o History.before.c (lockAfter before) e.req := by
  obtain ⟨t, hs⟩ := History.before.ran_steps true { record := none }
  obtain ⟨hallowed, hend⟩ := lock_used History.before.run hs
  refine ⟨t, ?_, hend _ rfl, hallowed⟩
  rintro rfl
  cases hs

end Runs

end Hacman.LockUse
