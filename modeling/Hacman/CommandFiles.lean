import Mathlib.Data.List.Infix
import Hacman.Materialize
import Hacman.Reset

/-!
# The files a command finds

Before a command runs, its work directory is emptied unless the record matches, and the
embedded files are put there. A fresh work directory holds these files and the directories
above them alone. In one that is kept they are replaced, and everything else stays as it is.
-/

namespace Hacman.CommandFiles
open Octets Util Config FileTree Interaction WorkTree

/-- What `run_command_project` does before it hands the work directory to the command. -/
def prepareWork (fuel pid : Nat) (known : Bool) (p : Project) (workdir : Bytes) : F Outcome := do
  match ← (if known then pure (.ok ()) else hmWorkdirReset fuel workdir : F Outcome) with
  | .error c => pure (.error c)
  | .ok () => if p.files = [] then pure (.ok ()) else hmMaterializeFiles pid p workdir

section Root
variable {k : Kernel} {t : Tree} {w : World} {s : Bytes} {d : Path} {n : Name}

theorem cuts_plain (hne : s ≠ []) (hs : SLASH ∉ s) : cuts s = [s] := by
  have hpos := List.length_pos_iff.mpr hne
  have hrange : List.range' 1 s.length = List.range' 1 (s.length - 1) ++ [s.length] := by
    conv_lhs => rw [← Nat.sub_add_cancel hpos]
    rw [List.range'_concat]
    congr 2
    omega
  have hnone : (List.range' 1 (s.length - 1)).filter (fun i => i = s.length ∨ s[i]? = some SLASH) =
      [] := by
    refine List.filter_eq_nil_iff.mpr fun i hi => ?_
    rw [List.mem_range'_1] at hi
    simp only [decide_eq_true_eq, not_or]
    exact ⟨by omega, fun hslash => hs (List.mem_of_getElem? hslash)⟩
  rw [cuts, hrange, List.filter_append, hnone]
  simp

/-- All that `mkdir_p` asks for before the directory itself is there. -/
theorem cuts_names (h : Names (look t) k.linkMax k.cwd s d n) (hlen : s.length < k.pathMax) :
    ∃ front, cuts s = front ++ [s] ∧ ∀ cut ∈ front, ∀ e, k.add t .cwd cut e = .error .exist := by
  rcases last_slash s with hplain | ⟨s', m, rfl, hm⟩
  · exact ⟨[], cuts_plain h.nonempty hplain, nofun⟩
  · refine ⟨cuts s', cuts_snoc hm, fun cut hcut e => ?_⟩
    obtain ⟨cs, hcs, hw⟩ := h.spelled
    obtain ⟨hne, hle, rest, hrest, horigin⟩ := cut_spec hcut
    have hs' : s' ≠ [] := by
      rintro rfl
      exact hne (List.eq_nil_of_length_eq_zero (Nat.le_zero.mp hle))
    have hmne : m ≠ [] := by
      rintro rfl
      have hplain := h.plain
      simp [trailing] at hplain
    have hlast : comps m = [m] := by
      rw [comps, fields_of_notMem hm, List.filter_cons_of_pos (by simpa using hmne)]
      rfl
    have hcomps : comps s' = cs := by
      rw [comps_append, hlast] at hcs
      exact (List.append_inj' hcs rfl).1
    rw [← hcomps, hrest, origin_append hs', ← horigin k.cwd, walk_append] at hw
    obtain ⟨p, hp, -⟩ := bind_ok.mp hw
    refine add_walked hne ?_ hp e
    rw [List.length_append] at hlen
    omega

theorem mkdirP_makes (h : Names (look w.tree) k.linkMax k.cwd s d n) (hs : s.length ≤ HM_PATH_MAX)
    (hlen : s.length < k.pathMax) (hnone : look w.tree (d ++ [n]) = none) :
    if changeable w.tree d = true then (mkdirP s).eval k.answer w =
      (.ok (), { w with tree := w.tree.insert (d ++ [n]) (.dir ⟨true, 0o700⟩) })
    else ((mkdirP s).eval k.answer w).1 ≠ .ok () := by
  obtain ⟨front, hcuts, hfront⟩ := cuts_names h hlen
  have hmax : HM_PATH_MAX = 1023 := rfl
  have hadd := add_names (k := k) (f := .cwd) h hlen (.dir ⟨true, 0o700⟩)
  rw [hnone, Option.isSome_none, if_neg Bool.false_ne_true] at hadd
  rw [mkdirP, if_neg (not_or.mpr ⟨h.nonempty, by omega⟩), hcuts,
    mkdirEach_append (mkdirEach_exist hfront), mkdirEach, eval_mkdir, hadd]
  cases changeable w.tree d with
  | true => rfl
  | false => exact fun hok => by cases hok

theorem hmWorkdirEnsure_makes (h : Names (look w.tree) k.linkMax k.cwd s d n)
    (hs : s.length ≤ HM_PATH_MAX)
    (hlen : s.length < k.pathMax) (hnone : look w.tree (d ++ [n]) = none) :
    if changeable w.tree d = true then (hmWorkdirEnsure s).eval k.answer w =
      (.ok (), { w with tree := w.tree.insert (d ++ [n]) (.dir ⟨true, 0o700⟩) })
    else ((hmWorkdirEnsure s).eval k.answer w).1 ≠ .ok () := by
  have hmkdir := mkdirP_makes h hs hlen hnone
  rw [hmWorkdirEnsure, eval_bind]
  split_ifs at hmkdir ⊢ with hchange
  · have hnames : Names (look (w.tree.insert (d ++ [n]) (.dir ⟨true, 0o700⟩))) k.linkMax
        k.cwd s d n :=
      h.mono (under_insert hnone)
    rw [hmkdir]
    dsimp only
    rw [eval_lstat, lstat_names hnames hlen, look_insert, if_pos rfl]
    rfl
  · cases hrun : (mkdirP s).eval k.answer w with
    | mk r w' =>
      rw [hrun] at hmkdir
      cases r with
      | ok _ => exact absurd rfl hmkdir
      | error c => exact fun hok => by cases hok

end Root

section Fresh
variable {k : Kernel} {w : World} {s : Bytes} {d : Path} {n : Name} {p : Project} {pid : Nat}

/-- A new directory with the files, what they need above them, and nothing else. -/
structure Fresh (w₀ : World) (q : Path) (files : List EmbeddedFile)
    (res : Outcome × World) : Prop where
  succeeds : res.1 = .ok ()
  root : look res.2.tree q = some (.dir ⟨true, 0o700⟩)
  written : ∀ f ∈ files, look res.2.tree (q ++ names f) = some (.file ⟨true, 0o600⟩ (contents f))
  dirs : ∀ f ∈ files, ∀ r, r ≠ [] → r <+: names f → r ≠ names f →
    look res.2.tree (q ++ r) = some (.dir ⟨true, 0o700⟩)
  only : ∀ r, r ≠ [] → (∀ f ∈ files, ¬ r <+: names f) → look res.2.tree (q ++ r) = none
  outside : ∀ x, ¬ q <+: x → look res.2.tree x = look w₀.tree x

theorem hmMaterializeFiles_fresh (hsound : SoundPaths p.files) (hspot : Spot k w.tree s d n)
    (hgone : ∀ r, look w.tree (d ++ [n] ++ r) = none) (hs : s.length ≤ HM_PATH_MAX)
    (hk : HM_PATH_MAX * 2 + 32 ≤ k.pathMax) :
    Fresh w (d ++ [n]) p.files ((hmMaterializeFiles pid p s).eval k.answer w) ↔
      changeable w.tree d = true ∧ p.files.Pairwise (Compatible pid) := by
  have hmax : HM_PATH_MAX = 1023 := rfl
  have hself : look w.tree (d ++ [n]) = none := by
    rw [← List.append_nil (d ++ [n])]
    exact hgone []
  have hmakes := hmWorkdirEnsure_makes hspot.names hs (by omega) hself
  rw [hmMaterializeFiles, eval_bind]
  split_ifs at hmakes with hchange
  · rw [hmakes, and_iff_right hchange]
    dsimp only
    generalize hw₁ : { w with tree := w.tree.insert (d ++ [n]) (.dir ⟨true, 0o700⟩) } = w₁
    have hlook : ∀ x, look w₁.tree x = if x = d ++ [n] then some (.dir ⟨true, 0o700⟩)
        else look w.tree x := by
      intro x
      rw [← hw₁]
      exact look_insert _ _ _
    have hdir : look w₁.tree (d ++ [n]) = some (.dir ⟨true, 0o700⟩) := (hlook _).trans (if_pos rfl)
    have houtside : ∀ x, ¬ d ++ [n] <+: x → look w₁.tree x = look w.tree x := fun x hx =>
      (hlook x).trans (if_neg fun heq => hx ⟨[], by rw [heq, List.append_nil]⟩)
    have hwork : Workdir k w₁.tree s d n :=
      ⟨(hspot.congr houtside).names, ⟨true, 0o700⟩, hdir, rfl, rfl⟩
    have hlaid : Laid w₁ w₁ (d ++ [n]) [] := by
      refine ⟨fun f hf => absurd hf List.not_mem_nil, fun f hf => absurd hf List.not_mem_nil,
        fun r hr _ => ?_, fun _ _ => rfl⟩
      rw [hlook, if_neg (by simpa using hr), hgone]
    obtain ⟨hiff, hrun⟩ := writeFiles_eval hwork hs hk hlaid hsound
      (List.Pairwise.nil (R := Compatible pid))
    rw [List.nil_append] at hiff hrun
    constructor
    · exact fun hfresh => hiff.mp hfresh.succeeds
    · intro hall
      have hfiles := hrun (hiff.mpr hall)
      refine ⟨hiff.mpr hall, ?_, hfiles.written, hfiles.dirs, hfiles.only, fun x hx => ?_⟩
      · rw [hfiles.outside _ fun r hr => ?_, hdir]
        simpa using hr
      · have hout := hfiles.outside x fun r _ heq => hx (by rw [heq]; exact List.prefix_append _ _)
        rw [hout, houtside x hx]
  · refine iff_of_false (fun hfresh => ?_) fun hall => hchange hall.1
    have hok := hfresh.succeeds
    cases hrun : (hmWorkdirEnsure s).eval k.answer w with
    | mk r w' =>
      rw [hrun] at hmakes hok
      cases r with
      | ok _ => exact hmakes rfl
      | error c => cases hok

/-- A work directory whose record does not match is made anew: whatever hacman has left in it goes,
and the embedded files come. -/
theorem inputs_fresh {x : Input} {evs : List Config.Event} (hp : hmConfigParse x evs = .ok p)
    (hfiles : p.files ≠ [])
    (fuel : Nat) (ht : Tidy w.tree) (hdepth : ∀ x ∈ w.tree, x.length < fuel)
    (hspot : Spot k w.tree s d n)
    (hown : Own w.tree (d ++ [n])) (hs : s.length ≤ HM_PATH_MAX)
    (hk : HM_PATH_MAX * 2 + 32 ≤ k.pathMax) :
    Fresh w (d ++ [n]) p.files ((prepareWork (fuel + 1) pid false p s).eval k.answer w) ↔
      Fits k w.tree s.length w.opened (d ++ [n]) ∧ changeable w.tree d = true ∧
        p.files.Pairwise (Compatible pid) := by
  have hremoved := removeTree_spec (Nat.succ_pos fuel) hspot ht hown fun x hx => by
    have hlt := hdepth x hx
    omega
  rw [prepareWork, if_neg Bool.false_ne_true, eval_bind, hmWorkdirReset]
  cases hrun : (removeTree (fuel + 1) s).eval k.answer w with
  | mk r w₁ =>
    rw [hrun] at hremoved
    have hchange := grants_outside hremoved.frame
    cases r with
    | error c =>
      refine iff_of_false (fun hfresh => ?_) fun hall => ?_
      · cases hfresh.succeeds
      · cases hremoved.done.mpr ⟨hall.1, fun _ => hall.2.1⟩
    | ok _ =>
      dsimp only
      have hfits := (hremoved.done.mp rfl).1
      have hfresh := @hmMaterializeFiles_fresh k w₁ s d n p pid (hmConfigParse_sound hp)
        (hspot.congr hremoved.frame.outside) (hremoved.gone rfl) hs hk
      rw [if_neg hfiles, and_iff_right hfits, ← hchange, ← hfresh]
      have hsame (q : Path) (hq : ¬ d ++ [n] <+: q) : look w₁.tree q = look w.tree q :=
        hremoved.frame.outside q hq
      exact ⟨fun h => { h with outside := fun q hq => (h.outside q hq).trans (hsame q hq).symm },
        fun h => { h with outside := fun q hq => (h.outside q hq).trans (hsame q hq) }⟩

theorem inputs_fresh_read_only : ∃ p,
    hmConfigParse (pairInput (ascii "d/a") (ascii "d/b")) (pairEvents (ascii "d/a") (ascii "d/b")) =
      .ok p ∧ Fresh readOnlyWorld [ascii "w"] p.files
        ((prepareWork 5 7 false p (ascii "/w")).eval linux.answer readOnlyWorld) := by
  have hrun : (hmConfigParse (pairInput (ascii "d/a") (ascii "d/b"))
      (pairEvents (ascii "d/a") (ascii "d/b"))).map
        (fun p => p.files ≠ [] && decide (p.files.Pairwise (Compatible 7))) = .ok true := by
          decide +kernel
  cases hp : hmConfigParse (pairInput (ascii "d/a") (ascii "d/b"))
      (pairEvents (ascii "d/a") (ascii "d/b")) with
  | error msg =>
    rw [hp] at hrun
    cases hrun
  | ok p =>
    rw [hp] at hrun
    obtain ⟨hfiles, hpair⟩ := Bool.and_eq_true_iff.mp (Except.ok.inj hrun)
    have hspot : Spot linux readOnlyWorld.tree (ascii "/w") [] (ascii "w") :=
      spot_below_root (by decide +kernel) (by decide +kernel)
    exact ⟨p, rfl, (inputs_fresh hp (of_decide_eq_true hfiles) 4 (Tidy.of_keys (by decide +kernel))
      (by decide +kernel) hspot (own_of_keys (by decide +kernel)) (by decide) (by decide)).mpr
        ⟨Fits.of_keys (by decide +kernel), by decide +kernel, of_decide_eq_true hpair⟩⟩

end Fresh

section Kept
variable {k : Kernel} {w w' : World} {s : Bytes} {d q : Path} {n : Name} {p : Project} {pid : Nat}
  {g : EmbeddedFile}
variable {files : List EmbeddedFile}

/-- On the way to the file there are only directories as `mkdir_p` makes them. -/
def Clear (t : Tree) (q : Path) (file : EmbeddedFile) : Prop :=
  ∀ r, r ≠ [] → r <+: names file → r ≠ names file →
    look t (q ++ r) = none ∨ look t (q ++ r) = some (.dir ⟨true, 0o700⟩)

def Ready (pid : Nat) (t : Tree) (q : Path) (file : EmbeddedFile) : Prop :=
  look t (q ++ tempNames pid (names file)) = none ∧ ∀ a, look t (q ++ names file) ≠ some (.dir a)

/-- The files are as the project has them. What is on the way to none of them is as it was. -/
structure Replaced (w w' : World) (q : Path) (files : List EmbeddedFile) : Prop where
  written : ∀ f ∈ files, look w'.tree (q ++ names f) = some (.file ⟨true, 0o600⟩ (contents f))
  dirs : ∀ f ∈ files, ∀ r, r ≠ [] → r <+: names f → r ≠ names f →
    look w'.tree (q ++ r) = some (.dir ⟨true, 0o700⟩)
  kept : ∀ x, (∀ f ∈ files, ∀ r, r ≠ [] → r <+: names f → x ≠ q ++ r) →
    look w'.tree x = look w.tree x

theorem isDir_iff {o : Option Entry} :
    o.any (fun e => (statOf e).isDir) = true ↔ ∃ a, o = some (.dir a) := by
  rcases o with _ | ⟨_ | _ | _⟩ <;> simp [statOf]

theorem write_replaces (pid : Nat) (h : Workdir k w.tree s d n) (hs : s.length ≤ HM_PATH_MAX)
    (hk : HM_PATH_MAX * 2 + 32 ≤ k.pathMax) (hvalid : validFilePath g.path = true)
    (hclear : Clear w.tree (d ++ [n]) g) :
    (((writeEmbeddedFile pid g s).eval k.answer w).1 = .ok () ↔ Ready pid w.tree (d ++ [n]) g) ∧
    (((writeEmbeddedFile pid g s).eval k.answer w).1 = .ok () →
      Replaced w ((writeEmbeddedFile pid g s).eval k.answer w).2 (d ++ [n]) [g]) := by
  obtain ⟨ns, m, hnames⟩ := names_concat g
  have hlonger : ∀ l, ¬ ns ++ [l] <+: ns := fun l => not_prefix_of_lt (by simp)
  obtain ⟨t, -, hopened, hsame, hrun⟩ :=
    writeEmbeddedFile_eval pid h hs hk hvalid hnames fun r hr hrns =>
    hclear r hr (hnames ▸ hrns.trans (List.prefix_append ns [m])) fun heq =>
      hlonger m (by rw [← hnames, ← heq]; exact hrns)
  have hlast : ∀ l, look t (d ++ [n] ++ ns ++ [l]) = look w.tree (d ++ [n] ++ (ns ++ [l])) := by
    intro l
    rw [List.append_assoc]
    refine hsame _ fun r _ hr heq => hlonger l ?_
    rwa [List.append_cancel_left heq]
  rw [hlast, hlast] at hrun
  rw [Ready, hnames, tempNames_concat, ← Option.not_isSome_iff_eq_none, ← not_exists,
    ← isDir_iff, ← not_or]
  split_ifs at hrun with hbad
  · exact ⟨iff_of_false hrun (not_not_intro hbad), fun hok => absurd hok hrun⟩
  · obtain ⟨t', ht', hlook⟩ := hrun
    rw [List.append_assoc, ← hnames] at hlook
    rw [ht']
    refine ⟨iff_of_true rfl hbad, fun _ => ⟨?_, ?_, fun x hx => ?_⟩⟩
    · intro f hf
      rw [List.mem_singleton.mp hf]
      exact (hlook _).trans (if_pos rfl)
    · intro f hf r hr hrf hne
      rw [List.mem_singleton.mp hf] at hrf hne
      refine (hlook _).trans ((if_neg fun heq => hne (List.append_cancel_left heq)).trans
        (hopened r hr ?_))
      rw [hnames] at hrf hne
      exact (List.prefix_concat_iff.mp hrf).resolve_left hne
    · have hway := hx g (List.mem_singleton_self g)
      refine (hlook x).trans ((if_neg ?_).trans (hsame x fun r hr hrns => hway r hr ?_))
      · exact hway _ (fields_ne_nil SLASH _) List.prefix_rfl
      · exact hnames ▸ hrns.trans (List.prefix_append ns [m])

theorem Replaced.append {w'' : World} (h : Replaced w w' q [g]) (h' : Replaced w' w'' q files)
    (hg : ∀ f ∈ files, Compatible pid g f) : Replaced w w'' q (g :: files) := by
  have hmem := List.mem_singleton_self g
  refine ⟨?_, ?_, fun x hx => ?_⟩
  · intro f hf
    rcases List.mem_cons.mp hf with rfl | hf
    · refine (h'.kept _ fun e he r _ hre heq => ?_).trans (h.written f hmem)
      exact (hg e he).1 (List.append_cancel_left heq ▸ hre)
    · exact h'.written f hf
  · intro f hf r hr hrf hne
    by_cases hlater : ∃ e ∈ files, r <+: names e
    · obtain ⟨e, he, hre⟩ := hlater
      rcases List.mem_cons.mp hf with rfl | hf
      · exact h'.dirs e he r hr hre fun heq => (hg e he).2.1 (heq ▸ hrf)
      · exact h'.dirs f hf r hr hrf hne
    · rcases List.mem_cons.mp hf with rfl | hf
      · refine (h'.kept _ fun e he r' _ hre heq => hlater ⟨e, he, ?_⟩).trans
          (h.dirs f hmem r hr hrf hne)
        exact List.append_cancel_left heq ▸ hre
      · exact h'.dirs f hf r hr hrf hne
  · refine (h'.kept x fun f hf => hx f (List.mem_cons_of_mem g hf)).trans (h.kept x fun f hf => ?_)
    rw [List.mem_singleton.mp hf]
    exact hx g List.mem_cons_self

theorem Replaced.later {f : EmbeddedFile} (h : Replaced w w' q [g]) (hgf : Compatible pid g f)
    (hclear : Clear w.tree q f) : Clear w'.tree q f ∧
    (Ready pid w'.tree q f ↔ Ready pid w.tree q f) := by
  have hmem := List.mem_singleton_self g
  have hkept : ∀ r, ¬ r <+: names g → look w'.tree (q ++ r) = look w.tree (q ++ r) := by
    intro r hr
    refine h.kept _ fun e he r' _ hre heq => hr ?_
    rw [List.mem_singleton.mp he] at hre
    rwa [List.append_cancel_left heq]
  constructor
  · intro r hr hrf hne
    by_cases hrg : r <+: names g
    · exact .inr (h.dirs g hmem r hr hrg fun heq => hgf.1 (heq ▸ hrf))
    · rw [hkept r hrg]
      exact hclear r hr hrf hne
  · rw [Ready, Ready, hkept _ hgf.2.2, hkept _ hgf.2.1]

/-- The files are written one after another, each over what its last one has left. -/
theorem writeFiles_replaces (hspot : Spot k w.tree s d n)
    (hdir : ∃ a, look w.tree (d ++ [n]) = some (.dir a) ∧ a.allows WRITE = true ∧
      a.allows SEARCH = true)
    (hs : s.length ≤ HM_PATH_MAX) (hk : HM_PATH_MAX * 2 + 32 ≤ k.pathMax)
    (hvalid : ∀ f ∈ files, validFilePath f.path = true) (hpair : files.Pairwise (Compatible pid))
    (hclear : ∀ f ∈ files, Clear w.tree (d ++ [n]) f) :
    (((writeFiles pid s files).eval k.answer w).1 = .ok () ↔ ∀ f ∈ files,
      Ready pid w.tree (d ++ [n]) f) ∧
    (((writeFiles pid s files).eval k.answer w).1 = .ok () →
      Replaced w ((writeFiles pid s files).eval k.answer w).2 (d ++ [n]) files) := by
  induction files generalizing w with
  | nil => exact ⟨iff_of_true rfl nofun, fun _ => ⟨nofun, nofun, fun _ _ => rfl⟩⟩
  | cons g files ih =>
    obtain ⟨hg, hpair⟩ := List.pairwise_cons.mp hpair
    rw [List.forall_mem_cons] at hvalid hclear ⊢
    obtain ⟨hok, hdone⟩ := write_replaces pid ⟨hspot.names, hdir⟩ hs hk hvalid.1 hclear.1
    rw [writeFiles, eval_bind]
    cases hrun : (writeEmbeddedFile pid g s).eval k.answer w with
    | mk r w₁ =>
      rw [hrun] at hok hdone
      cases r with
      | error c =>
        refine ⟨iff_of_false (fun h => by cases h) fun h => ?_, fun h => by cases h⟩
        cases hok.mpr h.1
      | ok _ =>
        have hreplaced := hdone rfl
        have hsame : ∀ x, (∀ r, r ≠ [] → x ≠ d ++ [n] ++ r) → look w₁.tree x = look w.tree x :=
          fun x hx => hreplaced.kept x fun _ _ r hr _ => hx r hr
        have hlater := fun f hf => hreplaced.later (hg f hf) (hclear.2 f hf)
        have hspot₁ := hspot.congr fun x hx => hsame x fun r _ heq =>
          hx (heq ▸ List.prefix_append _ _)
        have hdir₁ : look w₁.tree (d ++ [n]) = look w.tree (d ++ [n]) :=
          hsame _ fun r hr heq => hr (by simpa using heq)
        obtain ⟨hrest, hdone'⟩ := ih hspot₁ (hdir₁ ▸ hdir) hvalid.2 hpair fun f hf =>
          (hlater f hf).1
        dsimp only
        rw [hrest, and_iff_right (hok.mp rfl)]
        refine ⟨forall₂_congr fun f hf => (hlater f hf).2, fun hall => ?_⟩
        exact hreplaced.append (hdone' (hrest.mpr hall)) hg

theorem hmWorkdirEnsure_keeps (h : Workdir k w.tree s d n) (hs : s.length ≤ HM_PATH_MAX)
    (hlen : s.length < k.pathMax) : (hmWorkdirEnsure s).eval k.answer w = (.ok (), w) := by
  obtain ⟨a, ha, -⟩ := h.dir
  have hmax : HM_PATH_MAX = 1023 := rfl
  rw [hmWorkdirEnsure, eval_bind, mkdirP, if_neg (not_or.mpr ⟨h.named.nonempty, by omega⟩),
    mkdirEach_exist (h.cut_exists hlen)]
  dsimp only
  rw [eval_lstat, lstat_names h.named hlen, ha]
  rfl

structure Refreshed (w₀ : World) (q : Path) (files : List EmbeddedFile)
    (res : Outcome × World) : Prop where
  succeeds : res.1 = .ok ()
  replaced : Replaced w₀ res.2 q files

/-- A work directory whose record matches keeps what the command has left there: the embedded files
take their places again, and everything that is not on the way to one of them stays. -/
theorem inputs_refreshed {x : Input} {evs : List Config.Event}
    (hp : hmConfigParse x evs = .ok p) (fuel : Nat) (hspot : Spot k w.tree s d n)
    (hdir : ∃ a, look w.tree (d ++ [n]) = some (.dir a) ∧ a.allows WRITE = true ∧
      a.allows SEARCH = true)
    (hs : s.length ≤ HM_PATH_MAX) (hk : HM_PATH_MAX * 2 + 32 ≤ k.pathMax)
    (hpair : p.files.Pairwise (Compatible pid))
    (hclear : ∀ f ∈ p.files, Clear w.tree (d ++ [n]) f) :
    Refreshed w (d ++ [n]) p.files ((prepareWork fuel pid true p s).eval k.answer w) ↔
      ∀ f ∈ p.files, Ready pid w.tree (d ++ [n]) f := by
  have hmax : HM_PATH_MAX = 1023 := rfl
  have hensure := hmWorkdirEnsure_keeps (w := w) ⟨hspot.names, hdir⟩ hs (by omega)
  obtain ⟨hok, hdone⟩ := writeFiles_replaces hspot hdir hs hk
    (hmConfigParse_sound hp).valid hpair hclear
  have hrun : (prepareWork fuel pid true p s).eval k.answer w =
      (writeFiles pid s p.files).eval k.answer w := by
    rw [prepareWork, if_pos rfl, eval_bind]
    by_cases hfiles : p.files = []
    · rw [hfiles]
      rfl
    · change (if p.files = [] then pure (.ok ()) else hmMaterializeFiles pid p s :
        F Outcome).eval k.answer w = _
      rw [if_neg hfiles, hmMaterializeFiles, eval_bind, hensure]
  rw [hrun]
  exact ⟨fun h => hok.mp h.succeeds, fun hready => ⟨hok.mpr hready, hdone (hok.mpr hready)⟩⟩

instance (t : Tree) (q : Path) (file : EmbeddedFile) : Decidable (Clear t q file) :=
  decidable_of_iff (∀ r ∈ (names file).inits, r ≠ [] → r ≠ names file →
    look t (q ++ r) = none ∨ look t (q ++ r) = some (.dir ⟨true, 0o700⟩))
    ⟨fun h r hr hrf => h r ((List.mem_inits _ _).mpr hrf) hr,
      fun h r hrf hr => h r hr ((List.mem_inits _ _).mp hrf)⟩

instance (t : Tree) (q : Path) (file : EmbeddedFile) : Decidable (Ready pid t q file) :=
  decidable_of_iff (look t (q ++ tempNames pid (names file)) = none ∧
    ¬ (look t (q ++ names file)).any (fun e => (statOf e).isDir) = true)
    (and_congr_right' (by rw [isDir_iff, not_exists]))

def leftWorld : World where
  tree := List.toAList [
    ⟨[], .dir ⟨true, 0o755⟩⟩,
    ⟨[ascii "w"], .dir ⟨true, 0o700⟩⟩,
    ⟨[ascii "w", ascii "d"], .dir ⟨true, 0o700⟩⟩,
    ⟨[ascii "w", ascii "d", ascii "a"], .link (ascii "/etc/f")⟩,
    ⟨[ascii "w", ascii "d", ascii "out"], .file ⟨true, 0o644⟩ [1]⟩]
  opened := 3

theorem inputs_refreshed_link : ∃ p,
    hmConfigParse (pairInput (ascii "d/a") (ascii "d/b")) (pairEvents (ascii "d/a") (ascii "d/b")) =
      .ok p ∧ Refreshed leftWorld [ascii "w"] p.files
        ((prepareWork 0 7 true p (ascii "/w")).eval linux.answer leftWorld) := by
  have hrun : (hmConfigParse (pairInput (ascii "d/a") (ascii "d/b"))
      (pairEvents (ascii "d/a") (ascii "d/b"))).map (fun p =>
        decide (p.files.Pairwise (Compatible 7)) &&
          (decide (∀ f ∈ p.files, Clear leftWorld.tree [ascii "w"] f) &&
            decide (∀ f ∈ p.files, Ready 7 leftWorld.tree [ascii "w"] f))) = .ok true := by
              decide +kernel
  cases hp : hmConfigParse (pairInput (ascii "d/a") (ascii "d/b"))
      (pairEvents (ascii "d/a") (ascii "d/b")) with
  | error msg =>
    rw [hp] at hrun
    cases hrun
  | ok p =>
    rw [hp] at hrun
    obtain ⟨hpair, hrest⟩ := Bool.and_eq_true_iff.mp (Except.ok.inj hrun)
    obtain ⟨hclear, hready⟩ := Bool.and_eq_true_iff.mp hrest
    have hspot : Spot linux leftWorld.tree (ascii "/w") [] (ascii "w") :=
      spot_below_root (by decide +kernel) (by decide +kernel)
    exact ⟨p, rfl, (inputs_refreshed hp 0 hspot ⟨⟨true, 0o700⟩, by decide +kernel, rfl,
      rfl⟩ (by decide)
      (by decide) (of_decide_eq_true hpair) (of_decide_eq_true hclear)).mpr
        (of_decide_eq_true hready)⟩

end Kept

end Hacman.CommandFiles
