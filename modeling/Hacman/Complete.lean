import Hacman.Install

/-!
# What is handed on is complete

The script and the response as the shell finds them, and the embedded files behind
`hm_materialize_files`. The embedded files are written by the program of the work directory,
here over streams that hold back what they are given.
-/

namespace Hacman.Install
open Octets Util Config Stdio Interaction FileTree WorkTree

section Buffers

/-- The files of a work directory without links, by the strings that name them. -/
abbrev Shelf := Bytes → Option (Stream UInt8)

def Shelf.answers (w : Shelf) : (r : Req) → Ans r → Shelf → Prop
  | .create _ s _, x, w' =>
    (∃ e, x = .error e) ∧ w' = w ∨ w s = none ∧ x = .ok [s] ∧ w' = Function.update w s (some {})
  | .unlink _ s, x, w' =>
    (∃ e, x = .error e) ∧ w' = w ∨ x = .ok () ∧ w' = Function.update w s none
  | .rename old new, x, w' =>
    (∃ e, x = .error e) ∧ w' = w ∨ ∃ file, w old = some file ∧ x = .ok () ∧
      w' = Function.update (Function.update w old none) new (some file)
  | .fwrite file text, x, w' =>
    ∃ s stream fate, file = [s] ∧ w s = some stream ∧ x = (stream.put text fate).2 ∧
      w' = Function.update w s (some (stream.put text fate).1)
  | .fclose file, x, w' =>
    ∃ s stream closing, file = [s] ∧ w s = some stream ∧ x = (stream.close closing).2 ∧
      w' = Function.update w s (some ⟨(stream.close closing).1, []⟩)
  | _, _, w' => w' = w

def buffered : Env calls Shelf where
  answers w r x w' := w.answers r x w'

abbrev Ensures {α : Type} (p : F α) (w : Shelf) (Q : α → Shelf → Prop) : Prop :=
  p.Safe buffered (fun _ _ => True) Q w

variable {w : Shelf} {s : Bytes} {stream : Stream UInt8} {workdir : Bytes} {pid : Nat}

theorem ensures_call {α : Type} {r : Req} {f : Ans r → F α} {Q : α → Shelf → Prop}
    (h : ∀ x w', w.answers r x w' → Ensures (f x) w' Q) :
    Ensures ((Prog.ask (S := calls) r .done : F (Ans r)) >>= f) w Q := ⟨trivial, h⟩

theorem mkdirEach_ensures (dirs : List Bytes) : Ensures (mkdirEach dirs) w fun _ w' => w' = w := by
  induction dirs with
  | nil => exact rfl
  | cons dir dirs ih =>
    refine ensures_call fun x w' hw => ?_
    obtain rfl : w' = w := hw
    cases x with
    | ok _ => exact ih
    | error e =>
      dsimp only
      split_ifs
      · exact ih
      · exact rfl

theorem mkdirP_ensures (path : Bytes) : Ensures (mkdirP path) w fun _ w' => w' = w := by
  rw [mkdirP]
  split_ifs
  · exact rfl
  · exact mkdirEach_ensures _

theorem writeLines_ensures (lines : List Bytes) (h : w s = some stream) :
    Ensures (writeLines [s] lines) w fun r w' => (∀ u, u ≠ s → w' u = w u) ∧ ∃ stream',
      w' s = some stream' ∧
        (r = true → stream'.whole = stream.whole ++ lines.flatMap (· ++ [LF])) := by
  have hput : ∀ {w w' : Shelf} {stream : Stream UInt8} {text : Bytes} {x : Bool},
      w s = some stream → w.answers (.fwrite [s] text) x w' → (∀ u, u ≠ s → w' u = w u) ∧
        ∃ stream', w' s = some stream' ∧ (x = true → stream'.whole = stream.whole ++ text) := by
    rintro w w' stream text x hs ⟨s', stream', fate, hname, hs', rfl, rfl⟩
    obtain rfl := (List.cons.inj hname).1
    obtain rfl := Option.some.inj (hs.symm.trans hs')
    exact ⟨fun u hu => Function.update_of_ne hu _ _, _, Function.update_self _ _ _, Stream.put_true⟩
  induction lines generalizing w stream with
  | nil => exact ⟨fun _ _ => rfl, stream, h, fun _ => (List.append_nil _).symm⟩
  | cons line lines ih =>
    refine ensures_call fun x w₁ hw₁ => ?_
    obtain ⟨hother₁, stream₁, hs₁, hok₁⟩ := hput h hw₁
    cases x with
    | false => exact ⟨hother₁, stream₁, hs₁, fun hr => by cases hr⟩
    | true =>
      refine ensures_call fun x w₂ hw₂ => ?_
      obtain ⟨hother₂, stream₂, hs₂, hok₂⟩ := hput hs₁ hw₂
      have hother : ∀ u, u ≠ s → w₂ u = w u := fun u hu => (hother₂ u hu).trans (hother₁ u hu)
      cases x with
      | false => exact ⟨hother, stream₂, hs₂, fun hr => by cases hr⟩
      | true =>
        refine (ih hs₂).mono fun r w' hw' => ?_
        obtain ⟨hrest, stream', hs', hok'⟩ := hw'
        refine ⟨fun u hu => (hrest u hu).trans (hother u hu), stream', hs', fun hr => ?_⟩
        rw [hok' hr, hok₂ rfl, hok₁ rfl, List.flatMap_cons]
        simp

/-- Once the file is in its place it holds every line, and what was there under another name is
as it was. -/
def Placed (w : Shelf) (workdir : Bytes) (file : EmbeddedFile) (w' : Shelf) : Prop :=
  w' (targetOf workdir file.path) = some ⟨contents file, []⟩ ∧
    ∀ u, u ≠ targetOf workdir file.path → w u ≠ none → w' u = w u

theorem writeEmbeddedFile_ensures (file : EmbeddedFile) :
    Ensures (writeEmbeddedFile pid file workdir) w fun r w' =>
      r = .ok () → Placed w workdir file w' := by
  unfold writeEmbeddedFile
  dsimp only
  by_cases hlong : HM_PATH_MAX * 2 + 2 ≤ (targetOf workdir file.path).length
  · rw [if_pos hlong]
    exact fun h => by cases h
  rw [if_neg hlong]
  generalize htarget : targetOf workdir file.path = target
  generalize htemp : tempOf target pid = temp
  have hne : temp ≠ target := htemp ▸ temp_ne target pid
  refine (mkdirP_ensures _).seq fun r w' hw => ?_
  obtain rfl := hw
  cases r with
  | error c => exact fun h => by cases h
  | ok _ =>
    dsimp only
    by_cases hlong' : HM_PATH_MAX * 2 + 32 ≤ temp.length
    · rw [if_pos hlong']
      exact fun h => by cases h
    rw [if_neg hlong']
    refine ensures_call fun x w₁ hcreate => ?_
    cases x with
    | error e => exact fun h => by cases h
    | ok fp =>
      obtain ⟨⟨e, he⟩, -⟩ | ⟨hnone, hfp, rfl⟩ := hcreate
      · cases he
      obtain rfl := Except.ok.inj hfp
      refine ensures_call fun x w₂ hw₂ => ?_
      obtain rfl : w₂ = Function.update w' temp (some {}) := hw₂
      cases x with
      | error e => exact ensures_call fun _ _ _ h => by cases h
      | ok _ =>
        refine (writeLines_ensures (fileLines file) (Function.update_self temp _ w')).seq
          fun r w₃ hw₃ => ?_
        obtain ⟨hother, stream, hstream, hwhole⟩ := hw₃
        cases r with
        | false => exact ensures_call fun _ _ _ => ensures_call fun _ _ _ h => by cases h
        | true =>
          refine ensures_call fun x w₄ hclose => ?_
          obtain ⟨s', stream', closing, hname, hs', rfl, rfl⟩ := hclose
          obtain rfl := (List.cons.inj hname).1
          obtain rfl := Option.some.inj (hstream.symm.trans hs')
          cases closing with
          | failed kept => exact ensures_call fun _ _ _ h => by cases h
          | done =>
            refine ensures_call fun x w₅ hrename => ?_
            cases x with
            | error e => exact ensures_call fun _ _ _ h => by cases h
            | ok _ =>
              obtain ⟨⟨e, he⟩, -⟩ | ⟨written, hwritten, -, rfl⟩ := hrename
              · cases he
              rw [Function.update_self] at hwritten
              obtain rfl := Option.some.inj hwritten
              intro _
              rw [Placed, htarget]
              refine ⟨?_, fun u hu hsome => ?_⟩
              · rw [Function.update_self, Stream.close_ok rfl, hwhole rfl]
                rfl
              · have hu' : u ≠ temp := fun h => hsome (h ▸ hnone)
                rw [Function.update_of_ne hu, Function.update_of_ne hu', Function.update_of_ne hu',
                  hother u hu', Function.update_of_ne hu']

theorem writeFiles_ensures (done : List EmbeddedFile) {files : List EmbeddedFile}
    (hdistinct : ((done ++ files).map EmbeddedFile.path).Nodup)
    (hdone : ∀ f ∈ done, w (targetOf workdir f.path) = some ⟨contents f, []⟩) :
    Ensures (writeFiles pid workdir files) w fun r w' =>
      r = .ok () → ∀ f ∈ done ++ files, w' (targetOf workdir f.path) = some ⟨contents f, []⟩ := by
  induction files generalizing w done with
  | nil =>
    rw [List.append_nil]
    exact fun _ => hdone
  | cons file files ih =>
    refine (writeEmbeddedFile_ensures file).seq fun r w' hw' => ?_
    cases r with
    | error c => exact fun h => by cases h
    | ok _ =>
      obtain ⟨hfile, hkeeps⟩ := hw' rfl
      have hsplit : done ++ file :: files = done ++ [file] ++ files := by simp
      rw [hsplit] at hdistinct ⊢
      refine ih (done ++ [file]) hdistinct fun f hf => ?_
      rcases List.mem_append.mp hf with hf | hf
      · have hpath : targetOf workdir f.path ≠ targetOf workdir file.path := by
          intro heq
          rw [List.append_assoc, List.map_append, List.nodup_append] at hdistinct
          refine hdistinct.2.2 _ (List.mem_map_of_mem hf) _
            (List.mem_map_of_mem (List.mem_append_left _ (List.mem_singleton_self file))) ?_
          exact (List.cons.inj (List.append_cancel_left heq)).2
        rw [hkeeps _ hpath (by rw [hdone f hf]; exact Option.some_ne_none _), hdone f hf]
      · rw [List.mem_singleton.mp hf]
        exact hfile

def Materializes (p : Project) : Prop :=
  ∀ pid workdir w, Ensures (hmMaterializeFiles pid p workdir) w fun r w' =>
    r = .ok () → ∀ f ∈ p.files, w' (targetOf workdir f.path) = some ⟨contents f, []⟩

theorem hmMaterializeFiles_complete {x : Input} {evs : List Event} {p : Project}
    (h : hmConfigParse x evs = .ok p) : Materializes p := by
  intro pid workdir w
  have hensure : Ensures (hmWorkdirEnsure workdir) w fun _ w' => w' = w := by
    refine (mkdirP_ensures workdir).seq fun r w' hw => ?_
    obtain rfl := hw
    cases r with
    | error c => exact rfl
    | ok _ =>
      refine ensures_call fun x w'' hw => ?_
      obtain rfl : w'' = w' := hw
      cases x with
      | error e => exact rfl
      | ok st =>
        dsimp only
        split_ifs <;> exact rfl
  refine hensure.seq fun r w' hw => ?_
  cases r with
  | error c => exact fun h => by cases h
  | ok _ =>
    exact writeFiles_ensures [] (hmConfigParse_sound h).distinct fun f hf =>
      absurd hf List.not_mem_nil

end Buffers

section Completeness
variable (c : Call) (o : Outcomes)

def Complete (r : Run) : Prop :=
  (∀ sh, r.state.shell = some sh →
    (∃ path, sh.argv = argv c path ∧ sh.files .install = some ⟨path, Plan.writeScript c.project⟩) ∧
      ∀ path, sh.HACMAN_RESPONSE = some path → sh.files .response = some ⟨path, c.body.getD []⟩) ∧
    (r.state.shell = none → c.project.install ≠ [] → r.ending ≠ .returned 0)

def starts : Bool := scriptReady c o && outputOpen c o && o.fork && o.child.shell

/-- No write of the script has failed, nor the last flush of a response that is handed on. -/
def Kept : Prop :=
  Stream.Sound (o.put .install) 0 (scriptTexts c) ∧ (haveResponse c o = true →
    (o.close .response).keeps ((o.put .response 0).held (c.body.getD []).length) = true)

variable {c o}

theorem flatten_scriptTexts : (scriptTexts c).flatten = Plan.writeScript c.project := by
  have hlines : ∀ lines : List Bytes,
      (lines.flatMap fun line => [line, [LF]]).flatten = Plan.written lines := by
    intro lines
    induction lines with
    | nil => rfl
    | cons line lines ih =>
      rw [List.flatMap_cons, List.flatten_append, ih, Plan.written, Plan.written, List.map_cons,
        List.flatten_cons]
      simp
  rw [scriptTexts, List.flatten_cons, hlines]
  rfl

theorem scriptContent_iff (h : (o.close .install).ok = true) :
    scriptContent c o = Plan.writeScript c.project ↔
      Stream.Sound (o.put .install) 0 (scriptTexts c) := by
  rw [scriptContent, Stream.close_ok h, ← flatten_scriptTexts]
  exact Stream.putAll_iff

theorem argv_inj {path path' : Bytes} (h : argv c path = argv c path') : path = path' := by
  rw [argv, argv] at h
  exact (List.cons.inj (List.append_cancel_left h)).1

theorem runScript_complete {s : State} {script : Bytes} {response : Option Bytes}
    (hcapture : s.files .capture = none) (hshell : s.shell = none) :
    Complete c (runScript c o s script response) ↔
      ((outputOpen c o && o.fork && o.child.shell) = true →
        s.files .install = some ⟨script, Plan.writeScript c.project⟩ ∧
          ∀ path, response = some path → s.files .response = some ⟨path, c.body.getD []⟩) := by
  rw [Complete, runScript_shell hcapture hshell]
  by_cases hrun : (outputOpen c o && o.fork && o.child.shell) = true
  · rw [if_pos hrun]
    refine ⟨fun h _ => ?_, fun h => ⟨fun sh hsh => ?_, fun hnone => by cases hnone⟩⟩
    · obtain ⟨⟨path, hargv, hscript⟩, hresponse⟩ := h.1 _ rfl
      exact ⟨argv_inj hargv ▸ hscript, hresponse⟩
    · obtain rfl := Option.some.inj hsh
      exact ⟨⟨script, rfl, (h hrun).1⟩, (h hrun).2⟩
  · rw [if_neg hrun]
    exact iff_of_true ⟨fun _ hsh => absurd hsh.symm (Option.some_ne_none _),
      fun _ _ h => hrun (runScript_returns h)⟩ fun h => absurd h hrun

theorem complete_iff : Complete c (hmInstall c o) ↔ (starts c o = true → Kept c o) := by
  cases hready : scriptReady c o with
  | false =>
    obtain ⟨hstate, hending⟩ := hmInstall_unready hready
    have hstarts : starts c o = false := by simp [starts, hready]
    rw [Complete, hstate, hstarts]
    refine iff_of_true ⟨fun _ hsh => absurd hsh.symm (Option.some_ne_none _),
      fun _ hinstall h => ?_⟩ fun h => by cases h
    rw [hending hinstall] at h
    cases h
  | true =>
    obtain ⟨path, hrun⟩ := hmInstall_ready hready
    obtain ⟨hinstall, hresponse, hcapture⟩ := scriptState_files path (scriptContent c o)
    have hclose : (o.close .install).ok = true := by
      simp only [scriptReady, Bool.and_eq_true] at hready
      exact hready.2
    have hstarts : starts c o = (outputOpen c o && o.fork && o.child.shell) := by
      rw [starts, hready, Bool.true_and]
    rw [hrun, hstarts, Kept, ← scriptContent_iff hclose]
    cases hopen : responseOpen c o with
    | false =>
      rw [writeResponse_closed hopen hresponse]
      refine (runScript_complete (by exact hcapture) rfl).trans ?_
      simp [hinstall, haveResponse, hopen]
    | true =>
      obtain ⟨rpath, body, hbody, hsome, hwrite⟩ :=
        writeResponse_open (s := scriptState path (scriptContent c o)) hopen
      rw [hwrite]
      refine (runScript_complete ?_ rfl).trans ?_
      · simp [State.write, State.create, hcapture]
      · cases hput : (o.put .response 0).ok with
        | false => simp [State.write, State.create, hinstall, haveResponse, hput]
        | true =>
          simp [State.write, State.create, hinstall, haveResponse, hput, hopen, hsome,
            Stream.put_close_iff hput hbody]

/-- Whatever becomes of the writes, an embedded file that is installed is complete; the shell's
files are if nothing that `hm_install` does not look at has failed. -/
theorem consumed_files {x : Input} {evs : List Event} {p : Project}
    (h : hmConfigParse x evs = .ok p) (c : Call) (o : Outcomes) :
    Complete c (hmInstall c o) ∧ Materializes p ↔ (starts c o = true → Kept c o) := by
  rw [complete_iff]
  exact and_iff_left (hmMaterializeFiles_complete h)

theorem consumed_files_written : ∃ p,
    hmConfigParse (pairInput (ascii "d/a") (ascii "d/b")) (pairEvents (ascii "d/a") (ascii "d/b")) =
      .ok p ∧ Complete (makeCall false) (hmInstall (makeCall false) (smooth (ran (.exited 0)))) ∧
        Materializes p := by
  cases hp : hmConfigParse (pairInput (ascii "d/a") (ascii "d/b"))
      (pairEvents (ascii "d/a") (ascii "d/b")) with
  | error msg =>
    have hrun : (hmConfigParse (pairInput (ascii "d/a") (ascii "d/b"))
        (pairEvents (ascii "d/a") (ascii "d/b"))).isOk = true := by decide +kernel
    rw [hp] at hrun
    cases hrun
  | ok p => exact ⟨p, rfl, (consumed_files hp _ _).mpr fun _ => ⟨fun _ _ _ _ => rfl, fun _ => rfl⟩⟩

def fullDiskAtResponse : Outcomes where
  mkstemp _ _ := some (ascii "000000")
  close t := if t = .response then .failed 0 else .done
  child := ran (.exited 0)

/-- The shell is started with `HACMAN_RESPONSE` set to the path of an empty file. -/
theorem response_truncated :
    ¬ Complete (makeCall false) (hmInstall (makeCall false) fullDiskAtResponse) := by
  rw [complete_iff]
  intro h
  have hkept := (h (by decide)).2 (by decide)
  revert hkept
  decide

end Completeness

end Hacman.Install
