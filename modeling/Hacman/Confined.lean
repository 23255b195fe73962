import Hacman.Materialize
import Hacman.Reset
import Mathlib.Logic.Relation

/-!
# Writing into a work directory that was kept

A run that is merely due keeps the work directory, so that the embedded files are written
again over whatever the command left there. The parent process writes them by path, and
paths lead through links.
-/

namespace Hacman.WorkTree
open Octets Util Config FileTree Interaction

section Ways
variable {see : Path → Option Entry}

def Plain (see : Path → Option Entry) (q ns : Path) : Prop :=
  ∀ r, r ≠ [] → r <+: ns → ∀ target, see (q ++ r) ≠ some (.link target)

theorem Plain.before {q ns ms : Path} (h : Plain see q ms) (hns : ns <+: ms) : Plain see q ns :=
  fun r hr hrn => h r hr (hrn.trans hns)

theorem enter_plain {links : Nat} {d p : Path} {n : Name} (hn : proper n = true)
    (hlink : ∀ target, see (d ++ [n]) ≠ some (.link target)) (h : enter see links d n = .ok p) :
    p = d ++ [n] := by
  obtain ⟨-, hdot, hdotdot, -⟩ := proper_iff.mp hn
  rw [enter_eq, if_neg hdot, if_neg hdotdot] at h
  split_ifs at h
  cases hsee : see (d ++ [n]) with
  | none =>
    rw [hsee] at h
    cases h
  | some e =>
    rw [hsee] at h
    cases e with
    | dir a => exact (Except.ok.inj h).symm
    | file a content => cases h
    | link target => exact absurd hsee (hlink target)

theorem walk_plain {links : Nat} {d p ns : Path} (hns : ∀ m ∈ ns, proper m = true)
    (hplain : Plain see d ns) (h : walk see links d ns = .ok p) : p = d ++ ns := by
  induction ns generalizing d with
  | nil =>
    rw [List.append_nil]
    exact (Except.ok.inj h).symm
  | cons m ns ih =>
    obtain ⟨hm, hns⟩ := List.forall_mem_cons.mp hns
    rw [← List.singleton_append, walk_append, walk_single] at h
    obtain ⟨d', hd, hrest⟩ := bind_ok.mp h
    obtain rfl := enter_plain hm (hplain [m] (by simp) ⟨ns, rfl⟩) hd
    have hbelow : Plain see (d ++ [m]) ns := by
      intro r _ hr target
      rw [List.append_assoc]
      exact hplain (m :: r) (by simp) (List.cons_prefix_cons.mpr ⟨rfl, hr⟩) target
    rw [ih hns hbelow hrest, List.append_assoc, List.singleton_append]

end Ways

section Places
variable {k : Kernel} {t t' : Tree} {s : Bytes} {d x : Path} {n : Name} {e : Entry}

theorem cut_inside {cut : Bytes} (h : Spot k t s d n) (hcut : cut ∈ cuts s)
    (hadd : k.add t .cwd cut e = .ok (x, t')) : x = d ++ [n] := by
  obtain ⟨hne, -, rest, hcomps, horigin⟩ := cut_spec hcut
  obtain ⟨cs, hcs, hw⟩ := h.names.spelled
  obtain ⟨d', n', hloc, rfl, -, -⟩ := add_ok hadd
  unfold Kernel.locate at hloc
  split_ifs at hloc with hnil hlong
  rw [show origin (k.base .cwd) cut = origin k.cwd s from horigin k.cwd] at hloc
  rcases List.eq_nil_or_concat' rest with rfl | ⟨rest, m, rfl⟩
  · rw [List.append_nil] at hcomps
    rw [← hcomps, hcs, placeOf_name h.proper hw h.names.search] at hloc
    obtain ⟨rfl, rfl⟩ := Place.entry.inj (Except.ok.inj hloc)
    rfl
  · rw [hcs, ← List.append_assoc] at hcomps
    obtain ⟨rfl, -⟩ := List.append_inj' hcomps rfl
    rw [walk_append] at hw
    obtain ⟨p, hp, -⟩ := bind_ok.mp hw
    rw [← show origin (k.base .cwd) cut = origin k.cwd s from horigin k.cwd] at hp
    rw [add_walked hne (Nat.not_le.mp hlong) hp] at hadd
    cases hadd

theorem below_inside {ns : Path} {m : Name} {place : Place} (h : Spot k t s d n)
    (hq : ∃ a, look t (d ++ [n]) = some (.dir a)) (hns : ∀ l ∈ ns ++ [m], proper l = true)
    (hplain : Plain (look t) (d ++ [n]) ns)
    (hloc : k.locate t .cwd (spelled s (ns ++ [m])) = .ok place) :
    place = .entry (d ++ [n] ++ ns) m := by
  obtain ⟨a, ha⟩ := hq
  obtain ⟨cs, hcs, hw⟩ := h.names.spelled
  obtain ⟨-, hdot, hdotdot, -⟩ := proper_iff.mp
    (hns m (List.mem_append_right _ (List.mem_singleton_self m)))
  have hwalk : walk (look t) k.linkMax (origin k.cwd s) (comps s) = .ok (d ++ [n]) := by
    rw [hcs, walk_append, hw]
    exact (walk_single _ _ _).trans (enter_dir h.names.search h.proper ha)
  unfold Kernel.locate at hloc
  split_ifs at hloc
  rw [comps_spelled s hns, show origin (k.base .cwd) (spelled s (ns ++ [m])) = origin k.cwd s from
    origin_append h.nonempty _, ← List.append_assoc, placeOf, List.getLast?_concat,
    List.dropLast_concat] at hloc
  dsimp only at hloc
  rw [if_neg (not_or.mpr ⟨hdot, hdotdot⟩), walk_append, hwalk] at hloc
  obtain ⟨d', hd, hplace⟩ := bind_ok.mp hloc
  split_ifs at hplace
  rw [walk_plain (fun l hl => hns l (List.mem_append_left _ hl)) hplain hd] at hplace
  exact (Except.ok.inj hplace).symm

theorem lstat_dir {st : Stat} (h : Spot k t s d n) (hstat : (k.lstat t s).map statOf = .ok st)
    (hdir : st.isDir = true) : ∃ a, look t (d ++ [n]) = some (.dir a) := by
  rcases Nat.lt_or_ge s.length k.pathMax with hlen | hlong
  · rw [lstat_names h.names hlen] at hstat
    cases he : look t (d ++ [n]) with
    | none =>
      rw [he] at hstat
      cases hstat
    | some e =>
      rw [he] at hstat
      obtain rfl := Except.ok.inj hstat
      cases e with
      | dir a => exact ⟨a, rfl⟩
      | _ => cases hdir
  · rw [Kernel.lstat, locate_long h.nonempty hlong] at hstat
    cases hstat

theorem mem_cuts_spelled {ns : Path} {cut : Bytes} (hns : ∀ l ∈ ns, proper l = true)
    (hcut : cut ∈ cuts (spelled s ns)) :
    cut ∈ cuts s ∨ ∃ r m, r ++ [m] <+: ns ∧ cut = spelled s (r ++ [m]) := by
  induction ns using List.reverseRecOn with
  | nil =>
    rw [spelled, List.flatMap_nil, List.append_nil] at hcut
    exact .inl hcut
  | append_singleton ns m ih =>
    rw [cuts_concat s ns (hns m (List.mem_append_right _ (List.mem_singleton_self m))),
      List.mem_append, List.mem_singleton] at hcut
    rcases hcut with hcut | rfl
    · rcases ih (fun l hl => hns l (List.mem_append_left _ hl)) hcut with hcut | ⟨r, l, hr, rfl⟩
      · exact .inl hcut
      · exact .inr ⟨r, l, hr.trans (List.prefix_append ns [m]), rfl⟩
    · exact .inr ⟨ns, m, List.prefix_rfl, rfl⟩

end Places

section Confinement
variable {k : Kernel} {s : Bytes} {d q x : Path} {n : Name} {w₀ w w' : World} {t : Tree}

structure Confined (q : Path) (w₀ w : World) : Prop where
  outside : ∀ x, ¬ q <+: x → look w.tree x = look w₀.tree x
  links : ∀ x target, look w.tree x = some (.link target) → look w₀.tree x = some (.link target)

/-- The work directory stands. -/
structure Standing (q : Path) (w₀ w : World) : Prop extends Confined q w₀ w where
  dir : ∃ a, look w.tree q = some (.dir a)

theorem Confined.refl : Confined q w w := ⟨fun _ _ => rfl, fun _ _ h => h⟩

theorem Confined.set {e : Option Entry} (h : Confined q w₀ w) (hx : q <+: x)
    (he : ∀ target, e ≠ some (.link target))
    (ht : ∀ y, look t y = if y = x then e else look w.tree y) :
    Confined q w₀ { w with tree := t } := by
  refine ⟨fun y hy => ?_, fun y target hlink => ?_⟩
  · rw [ht, if_neg]
    · exact h.outside y hy
    · rintro rfl
      exact hy hx
  · dsimp only at hlink
    rw [ht] at hlink
    split_ifs at hlink
    · exact absurd hlink (he target)
    · exact h.links y target hlink

theorem Standing.set {e : Option Entry} (h : Standing q w₀ w) (hx : q <+: x)
    (hdir : ∀ a, look w.tree x ≠ some (.dir a)) (he : ∀ target, e ≠ some (.link target))
    (ht : ∀ y, look t y = if y = x then e else look w.tree y) :
    Standing q w₀ { w with tree := t } := by
  refine ⟨h.toConfined.set hx he ht, ?_⟩
  obtain ⟨a, ha⟩ := h.dir
  refine ⟨a, ?_⟩
  dsimp only
  rw [ht, if_neg]
  · exact ha
  · rintro rfl
    exact hdir a ha

theorem Standing.insert {e : Entry} (h : Standing q w₀ w) (hx : q <+: x)
    (hfree : look w.tree x = none) (he : ∀ target, e ≠ .link target) :
    Standing q w₀ { w with tree := w.tree.insert x e } := by
  refine h.set hx (fun a ha => ?_) (fun target heq => he target (Option.some.inj heq))
    (fun y => look_insert x y e)
  rw [hfree] at ha
  cases ha

theorem Standing.locate {ns : Path} {m : Name} {place : Place} (h : Standing (d ++ [n]) w₀ w)
    (hspot : Spot k w₀.tree s d n) (hns : ∀ l ∈ ns ++ [m], proper l = true)
    (hplain : Plain (look w₀.tree) (d ++ [n]) ns)
    (hloc : k.locate w.tree .cwd (spelled s (ns ++ [m])) = .ok place) :
    place = .entry (d ++ [n] ++ ns) m :=
  below_inside (hspot.congr h.outside) h.dir hns
    (fun r hr hrn target hlink => hplain r hr hrn target (h.links _ target hlink)) hloc

/-- What holds before and after every directory that is made holds throughout. -/
theorem mkdirP_invariant {I : World → Prop} {path : Bytes} (h : I w)
    (hadd : ∀ cut ∈ cuts path, ∀ v x t, I v →
      k.add v.tree .cwd cut (.dir ⟨true, 0o700⟩) = .ok (x, t) → I { v with tree := t }) :
    (mkdirP path).Safe k.faulty (fun v _ => I v) (fun _ v => I v) w := by
  have heach : ∀ dirs, (∀ cut ∈ dirs, cut ∈ cuts path) → ∀ v, I v →
      (mkdirEach dirs).Safe k.faulty (fun v _ => I v) (fun _ v => I v) v := by
    intro dirs
    induction dirs with
    | nil => exact fun _ _ hv => hv
    | cons dir dirs ih =>
      intro hdirs v hv
      obtain ⟨hdir, hrest⟩ := List.forall_mem_cons.mp hdirs
      refine ⟨hv, fun r v' hr => ?_⟩
      rcases faulty_mkdir hr with ⟨e, rfl, rfl⟩ | ⟨x, t, hok, rfl, rfl⟩
      · change Prog.Safe _ _ _ (if e = .exist then mkdirEach dirs else pure _) _
        split_ifs
        · exact ih hrest v' hv
        · exact hv
      · exact ih hrest _ (hadd dir hdir v x t hv hok)
  unfold mkdirP
  split_ifs
  · exact h
  · exact heach _ (fun _ hcut => hcut) w h

theorem ensure_confined (hspot : Spot k w.tree s d n) :
    (hmWorkdirEnsure s).Safe k.faulty (fun v _ => Confined (d ++ [n]) w v)
      (fun r v => Confined (d ++ [n]) w v ∧ (r = .ok () → Standing (d ++ [n]) w v)) w := by
  have hmade : (mkdirP s).Safe k.faulty (fun v _ => Confined (d ++ [n]) w v)
      (fun _ v => Confined (d ++ [n]) w v) w := by
    refine mkdirP_invariant .refl fun cut hcut v x t hv hok => ?_
    obtain rfl := cut_inside (hspot.congr hv.outside) hcut hok
    obtain ⟨-, -, -, -, -, rfl⟩ := add_ok hok
    exact hv.set List.prefix_rfl (fun target heq => by cases heq) fun y => look_insert _ y _
  refine Prog.Safe.seq hmade fun made v hv => ?_
  cases made with
  | error c => exact ⟨hv, fun h => by cases h⟩
  | ok _ =>
    refine ⟨hv, fun (st : Except Errno Stat) v' hst => ?_⟩
    obtain rfl := faulty_lstat hst
    cases st with
    | error e => exact ⟨hv, fun h => by cases h⟩
    | ok st =>
      change Prog.Safe _ _ _ (if st.isDir then pure _ else pure _) _
      split_ifs with hdir
      · refine ⟨hv, fun _ => ⟨hv, ?_⟩⟩
        rcases hst with hst | ⟨⟨e, he⟩, -⟩
        · exact lstat_dir (hspot.congr hv.outside) (Prod.mk.inj hst).1.symm hdir
        · cases he
      · exact ⟨hv, fun h => by cases h⟩

structure Drafting (q : Path) (w₀ : World) (x : Path) (w : World) :
    Prop extends Standing q w₀ w where
  file : ∃ a content, look w.tree x = some (.file a content)

theorem Drafting.setContent (h : Drafting q w₀ x w) (hx : q <+: x) (f : Bytes → Bytes) :
    Drafting q w₀ x { w with tree := setContent w.tree x f } := by
  obtain ⟨a, content, hfile⟩ := h.file
  refine ⟨h.toStanding.set hx (fun b hb => ?_) (fun target heq => ?_) (look_setContent hfile f),
    a, f content, ?_⟩
  · rw [hfile] at hb
    cases hb
  · cases heq
  · rw [look_setContent hfile, if_pos rfl]

theorem Drafting.fclose (h : Drafting q w₀ x w) (hx : q <+: x) {r : Bool}
    (hr : k.faulty.answers w (.fclose x) r w') : Drafting q w₀ x w' := by
  rcases faulty_fclose hr with rfl | ⟨f, rfl⟩
  · exact h
  · exact h.setContent hx f

theorem writeLines_drafting {lines : List Bytes} (h : Drafting q w₀ x w) (hx : q <+: x) :
    (writeLines x lines).Safe k.faulty (fun v _ => Standing q w₀ v)
    (fun _ v => Drafting q w₀ x v) w := by
  induction lines generalizing w with
  | nil => exact h
  | cons line lines ih =>
    refine ⟨h.toStanding, fun (r : Bool) v hr => ?_⟩
    obtain ⟨f, rfl⟩ := faulty_fwrite hr
    have hline := h.setContent hx f
    cases r with
    | false => exact hline
    | true =>
      refine ⟨hline.toStanding, fun (r : Bool) v hr => ?_⟩
      obtain ⟨f', rfl⟩ := faulty_fwrite hr
      cases r with
      | false => exact hline.setContent hx f'
      | true => exact ih (hline.setContent hx f')

section File
variable {ns : Path} {m : Name} {pid : Nat} (hspot : Spot k w₀.tree s d n)
  (hns : ∀ l ∈ ns ++ [m], proper l = true) (hplain : Plain (look w₀.tree) (d ++ [n]) ns)
include hspot hns hplain

theorem mkdirP_standing (h : Standing (d ++ [n]) w₀ w) : (mkdirP (spelled s ns)).Safe k.faulty
    (fun v _ => Standing (d ++ [n]) w₀ v) (fun _ v => Standing (d ++ [n]) w₀ v) w := by
  refine mkdirP_invariant h fun cut hcut v x t hv hok => ?_
  have hbefore : ∀ l ∈ ns, proper l = true := fun l hl => hns l (List.mem_append_left _ hl)
  obtain ⟨d', n', hloc, rfl, hfree, rfl⟩ := add_ok hok
  have hinside : d ++ [n] <+: d' ++ [n'] := by
    rcases mem_cuts_spelled hbefore hcut with hcut | ⟨r, l, hr, rfl⟩
    · exact (cut_inside (hspot.congr hv.outside) hcut hok) ▸ List.prefix_rfl
    · have hplace := hv.locate hspot (fun l hl => hbefore l (hr.subset hl))
        (hplain.before ((List.prefix_append r [l]).trans hr)) hloc
      obtain ⟨rfl, rfl⟩ := Place.entry.inj hplace
      rw [List.append_assoc]
      exact List.prefix_append _ _
  exact hv.insert hinside hfree fun target heq => by cases heq

theorem unlink_standing {c : Outcome} (h : Standing (d ++ [n]) w₀ w) :
    (unlink .cwd (spelled s (ns ++ [m])) >>= fun _ => pure c).Safe k.faulty
      (fun v _ => Standing (d ++ [n]) w₀ v) (fun _ v => Standing (d ++ [n]) w₀ v) w := by
  refine ⟨h, fun (r : Except Errno Unit) v hr => ?_⟩
  rcases faulty_unlink hr with rfl | ⟨t, hunlink, rfl⟩
  · exact h
  · obtain ⟨d', n', hloc, hfile, rfl⟩ := unlink_ok hunlink
    obtain ⟨rfl, rfl⟩ := Place.entry.inj (h.locate hspot hns hplain hloc)
    refine h.set ?_ hfile (e := none) (fun target heq => by cases heq) fun y => look_erase _ y
    rw [List.append_assoc]
    exact List.prefix_append _ _

/-- The temporary file is no link, so that no link takes the place of the target. -/
theorem rename_standing {l : Name} {t : Tree} (hns' : ∀ b ∈ ns ++ [l], proper b = true)
    (h : Drafting (d ++ [n]) w₀ (d ++ [n] ++ ns ++ [l]) w)
    (hrename : k.rename w.tree (spelled s (ns ++ [l])) (spelled s (ns ++ [m])) = .ok t) :
    Standing (d ++ [n]) w₀ { w with tree := t } := by
  obtain ⟨d₁, n₁, d₂, n₂, e, hold, hnew, he, hdir, hover, ht⟩ := rename_ok hrename
  cases h.locate hspot hns' hplain hold
  cases h.locate hspot hns hplain hnew
  obtain ⟨a, content, hfile⟩ := h.file
  obtain rfl : Entry.file a content = e := Option.some.inj (hfile.symm.trans he)
  have hbelow : ∀ b, d ++ [n] <+: d ++ [n] ++ ns ++ [b] := fun b => by
    rw [List.append_assoc]
    exact List.prefix_append _ _
  rcases ht with rfl | rfl
  · exact h.toStanding
  · have herased := h.toStanding.set (hbelow l)
      (fun b hb => hdir b (Option.some.inj (he.symm.trans hb)))
      (e := none) (fun target heq => by cases heq) fun y => look_erase _ y
    refine herased.set (hbelow m) (fun b hb => ?_) (fun target heq => ?_) fun y => look_insert _ y _
    · dsimp only at hb
      rw [look_erase] at hb
      split_ifs at hb
      exact hover b hb
    · cases heq

end File

theorem writeEmbeddedFile_standing {file : EmbeddedFile} (pid : Nat) (hspot : Spot k w₀.tree s d n)
    (hfile : ∀ l ∈ names file, proper l = true)
    (hplain : Plain (look w₀.tree) (d ++ [n]) (names file).dropLast)
    (h : Standing (d ++ [n]) w₀ w) : (writeEmbeddedFile pid file s).Safe k.faulty
      (fun v _ => Standing (d ++ [n]) w₀ v) (fun _ v => Standing (d ++ [n]) w₀ v) w := by
  obtain ⟨ns, m, hnames⟩ := names_concat file
  rw [hnames] at hfile hplain
  rw [List.dropLast_concat] at hplain
  have hm := hfile m (List.mem_append_right _ (List.mem_singleton_self m))
  have htemp : ∀ l ∈ ns ++ [tempOf m pid], proper l = true := by
    intro l hl
    rcases List.mem_append.mp hl with hl | hl
    · exact hfile l (List.mem_append_left _ hl)
    · rw [List.mem_singleton.mp hl]
      exact temp_proper hm pid
  have htarget : targetOf s file.path = spelled s (ns ++ [m]) := by rw [targetOf_eq, hnames]
  have hdraft : tempOf (spelled s (ns ++ [m])) pid = spelled s (ns ++ [tempOf m pid]) := by
    rw [spelled_concat, spelled_concat]
    simp [tempOf]
  have hparent : parentOf (spelled s (ns ++ [m])) = spelled s ns := by
    rw [spelled_concat]
    exact parentOf_snoc (spelled_ne_nil hspot.nonempty ns) (proper_iff.mp hm).2.2.2
  unfold writeEmbeddedFile
  rw [htarget]
  dsimp only
  rw [hdraft, hparent]
  by_cases hlong : HM_PATH_MAX * 2 + 2 ≤ (spelled s (ns ++ [m])).length
  · rw [if_pos hlong]
    exact h
  · rw [if_neg hlong]
    refine Prog.Safe.seq (mkdirP_standing hspot hfile hplain h) fun made v hv => ?_
    cases made with
    | error c => exact hv
    | ok _ =>
      dsimp only
      split_ifs
      · exact hv
      · refine ⟨hv, fun (r : Except Errno Path) v' hr => ?_⟩
        rcases faulty_create hr with ⟨e, rfl, rfl⟩ | ⟨x, t, hadd, rfl, rfl⟩
        · exact hv
        · obtain ⟨d', n', hloc, rfl, hfree, rfl⟩ := add_ok hadd
          obtain ⟨rfl, rfl⟩ := Place.entry.inj (hv.locate hspot htemp hplain hloc)
          have hx : d ++ [n] <+: d ++ [n] ++ ns ++ [tempOf m pid] := by
            rw [List.append_assoc]
            exact List.prefix_append _ _
          have hdrafting : Drafting (d ++ [n]) w₀ (d ++ [n] ++ ns ++ [tempOf m pid])
              { v with tree := v.tree.insert _ (.file ⟨true, 0o600⟩ []) } :=
            ⟨hv.insert hx hfree fun target heq => (by cases heq), _,
              _, by rw [look_insert, if_pos rfl]⟩
          refine ⟨hdrafting.toStanding, fun (r : Except Errno Unit) v' hr => ?_⟩
          rw [faulty_fdopen hr]
          cases r with
          | error e => exact unlink_standing hspot htemp hplain hdrafting.toStanding
          | ok _ =>
            change Prog.Safe _ _ _ (writeLines _ (fileLines file) >>= _) _
            refine Prog.Safe.seq (writeLines_drafting hdrafting hx) fun written v hv => ?_
            cases written with
            | false =>
              refine ⟨hv.toStanding, fun (r : Bool) v' hr => ?_⟩
              exact unlink_standing hspot htemp hplain (hv.fclose hx hr).toStanding
            | true =>
              refine ⟨hv.toStanding, fun (r : Bool) v' hr => ?_⟩
              have hclosed := hv.fclose hx hr
              cases r with
              | false => exact unlink_standing hspot htemp hplain hclosed.toStanding
              | true =>
                refine ⟨hclosed.toStanding, fun (r : Except Errno Unit) v'' hr => ?_⟩
                have hmoved : Standing (d ++ [n]) w₀ v'' := by
                  rcases faulty_rename hr with rfl | ⟨t, hrename, rfl⟩
                  · exact hclosed.toStanding
                  · exact rename_standing hspot hfile hplain htemp hclosed hrename
                cases r with
                | error e => exact unlink_standing hspot htemp hplain hmoved
                | ok _ => exact hmoved

theorem writeFiles_standing {files : List EmbeddedFile} (pid : Nat) (hspot : Spot k w₀.tree s d n)
    (hfiles : ∀ f ∈ files, (∀ l ∈ names f, proper l = true) ∧
      Plain (look w₀.tree) (d ++ [n]) (names f).dropLast)
    (h : Standing (d ++ [n]) w₀ w) : (writeFiles pid s files).Safe k.faulty
      (fun v _ => Standing (d ++ [n]) w₀ v) (fun _ v => Standing (d ++ [n]) w₀ v) w := by
  induction files generalizing w with
  | nil => exact h
  | cons file files ih =>
    obtain ⟨⟨hfile, hplain⟩, hrest⟩ := List.forall_mem_cons.mp hfiles
    refine Prog.Safe.seq (writeEmbeddedFile_standing pid hspot hfile hplain h) fun r v hv => ?_
    cases r with
    | error c => exact hv
    | ok _ => exact ih hrest hv

end Confinement

section Reruns
variable {k : Kernel} {p : Project} {s : Bytes} {d q : Path} {n : Name} {w₀ w w' : World}

/-- No link stands where the path of a file needs a directory. -/
def Straight (p : Project) (q : Path) (w : World) : Prop :=
  ∀ f ∈ p.files, Plain (look w.tree) q (names f).dropLast

theorem materialize_confined {pid : Nat} {prog : F Outcome} {t : List (Interaction.Event calls)}
    (hfiles : ∀ f ∈ p.files, ∀ l ∈ names f, proper l = true) (hspot : Spot k w.tree s d n)
    (hstraight : Straight p (d ++ [n]) w)
    (hsteps : Steps k.faulty (hmMaterializeFiles pid p s) w t prog w') :
    Confined (d ++ [n]) w w' := by
  have hsafe : (hmMaterializeFiles pid p s).Safe k.faulty (fun v _ => Confined (d ++ [n]) w v)
      (fun _ v => Confined (d ++ [n]) w v) w := by
    refine Prog.Safe.seq (ensure_confined hspot) fun r v hv => ?_
    cases r with
    | error c => exact hv.1
    | ok _ =>
      refine (writeFiles_standing pid hspot (fun f hf => ⟨hfiles f hf, hstraight f hf⟩)
        (hv.2 rfl)).weaken (fun v _ hv => hv.toConfined) fun _ v hv => hv.toConfined
  exact hsafe.reached hsteps (fun _ _ hv => hv) fun _ _ hv => hv

/-- A command in its sandbox changes what is below its work directory as it likes. -/
structure Commanded (q : Path) (w w' : World) : Prop where
  outside : ∀ x, ¬ q <+: x → look w'.tree x = look w.tree x
  itself : ∀ a, look w.tree q = some (.dir a) → ∃ b, look w'.tree q = some (.dir b)

/-- The work directory between runs: the command acts in it, or a further run has written some
of its files into it, from a state where `C` holds. -/
inductive Turn (k : Kernel) (p : Project) (s : Bytes) (q : Path) (C : World → Prop) :
    World → World → Prop
  | command {w w' : World} : Commanded q w w' → Turn k p s q C w w'
  | materialize {pid : Nat} {prog : F Outcome} {t : List (Interaction.Event calls)} {w w' : World} :
      C w → Steps k.faulty (hmMaterializeFiles pid p s) w t prog w' → Turn k p s q C w w'

/-- Whatever the commands leave behind, nothing outside the work directory is touched as long
as no link stands on the way to a file that is written. -/
theorem reruns_confined {x : Input} {evs : List Config.Event} (hp : hmConfigParse x evs = .ok p)
    (hspot : Spot k w₀.tree s d n)
    (hruns : Relation.ReflTransGen (Turn k p s (d ++ [n]) (Straight p (d ++ [n]))) w₀ w) :
    ∀ x, ¬ d ++ [n] <+: x → look w.tree x = look w₀.tree x := by
  have hfiles : ∀ f ∈ p.files, ∀ l ∈ names f, proper l = true := fun f hf =>
    fields_proper ((hmConfigParse_sound hp).valid f hf)
  induction hruns with
  | refl => exact fun _ _ => rfl
  | tail _ hturn ih =>
    intro x hx
    rw [← ih x hx]
    cases hturn with
    | command h => exact h.outside x hx
    | materialize hC hsteps =>
      exact (materialize_confined hfiles (hspot.congr ih) hC hsteps).outside x hx

theorem spot_root {t : Tree} {a : Attr} (h : look t [] = some (.dir a))
    (ha : a.allows SEARCH = true) : Spot linux t (ascii "/w") [] (ascii "w") := by
  have hproper : proper (ascii "w") = true := by decide
  have hcomps : comps (ascii "/w") = [ascii "w"] := by
    rw [show ascii "/w" = [] ++ SLASH :: ascii "w" by decide, comps_append, comps_name hproper]
    rfl
  refine ⟨hproper, ⟨[], hcomps, rfl⟩, by decide, by decide, ?_⟩
  rw [grants, without_of (by simp), h]
  exact ha

def relink (w : World) : World :=
  { w with tree := ((w.tree.erase [ascii "w", ascii "d", ascii "a"]).erase
      [ascii "w", ascii "d", ascii "b"]).insert [ascii "w", ascii "d"] (.link (ascii "/home")) }

theorem relink_commanded (w : World) : Commanded [ascii "w"] w (relink w) := by
  have hlook : ∀ x, x ≠ [ascii "w", ascii "d"] → x ≠ [ascii "w", ascii "d", ascii "a"] →
      x ≠ [ascii "w", ascii "d", ascii "b"] → look (relink w).tree x = look w.tree x := by
    intro x hd ha hb
    simp only [relink, look_insert, look_erase, if_neg hd, if_neg ha, if_neg hb]
  refine ⟨fun x hx => hlook x ?_ ?_ ?_, fun a ha => ⟨a, ?_⟩⟩
  · rintro rfl
    exact hx (List.prefix_append [ascii "w"] _)
  · rintro rfl
    exact hx (List.prefix_append [ascii "w"] _)
  · rintro rfl
    exact hx (List.prefix_append [ascii "w"] _)
  · rw [hlook _ (by simp) (by simp) (by simp)]
    exact ha

theorem materialize_turn {p : Project} {s : Bytes} {q : Path} {C : World → Prop} (pid : Nat)
    {w : World} (hC : C w) :
    Turn linux p s q C w ((hmMaterializeFiles pid p s).eval linux.answer w).2 := by
  obtain ⟨t, ht⟩ := eval_steps (E := linux.faulty) linux.answer (fun _ _ => .inl rfl)
    (hmMaterializeFiles pid p s) w
  exact .materialize hC ht

theorem reruns_confined_siblings : ∃ p w,
    hmConfigParse (pairInput (ascii "d/a") (ascii "d/b")) (pairEvents (ascii "d/a") (ascii "d/b")) =
      .ok p ∧
    Relation.ReflTransGen (Turn linux p (ascii "/w") [ascii "w"] (Straight p [ascii "w"]))
      emptyWorld w ∧
    look w.tree [ascii "w", ascii "d"] = some (.link (ascii "/home")) ∧
    ∀ x, ¬ [ascii "w"] <+: x → look w.tree x = look emptyWorld.tree x := by
  have hok : (hmConfigParse (pairInput (ascii "d/a") (ascii "d/b"))
      (pairEvents (ascii "d/a") (ascii "d/b"))).isOk = true := by decide +kernel
  cases hp : hmConfigParse (pairInput (ascii "d/a") (ascii "d/b"))
      (pairEvents (ascii "d/a") (ascii "d/b")) with
  | error msg =>
    rw [hp] at hok
    cases hok
  | ok p =>
    have hstraight : Straight p [ascii "w"] emptyWorld := by
      intro f _ r hr _ target hlink
      rw [vacant_emptyWorld r hr] at hlink
      cases hlink
    have hruns := (Relation.ReflTransGen.single
      (materialize_turn (p := p) (s := ascii "/w") 7 hstraight)).tail
        (.command (relink_commanded _))
    refine ⟨p, _, rfl, hruns, ?_, reruns_confined hp (spot_root rfl rfl) hruns⟩
    rw [relink, look_insert, if_pos rfl]

def homeWorld : World where
  tree := List.toAList [⟨[], .dir ⟨true, 0o755⟩⟩, ⟨[ascii "home"], .dir ⟨true, 0o755⟩⟩,
    ⟨[ascii "home", ascii "a"], .file ⟨true, 0o644⟩ (ascii "old")⟩,
    ⟨[ascii "w"], .dir ⟨true, 0o700⟩⟩]
  opened := 3

theorem rerun_follows_link : ∃ p w,
    hmConfigParse (pairInput (ascii "d/a") (ascii "d/b")) (pairEvents (ascii "d/a") (ascii "d/b")) =
      .ok p ∧
    Spot linux homeWorld.tree (ascii "/w") [] (ascii "w") ∧
    Relation.ReflTransGen (Turn linux p (ascii "/w") [ascii "w"] fun _ => True) homeWorld w ∧
    ¬ [ascii "w"] <+: [ascii "home", ascii "a"] ∧
    look homeWorld.tree [ascii "home", ascii "a"] = some (.file ⟨true, 0o644⟩ (ascii "old")) ∧
    look w.tree [ascii "home", ascii "a"] = some (.file ⟨true, 0o600⟩ (ascii "x" ++ [LF])) := by
  have hrun : (hmConfigParse (pairInput (ascii "d/a") (ascii "d/b"))
      (pairEvents (ascii "d/a") (ascii "d/b"))).map (fun p => decide
        (look ((hmMaterializeFiles 8 p (ascii "/w")).eval linux.answer
          (relink ((hmMaterializeFiles 7 p (ascii "/w")).eval linux.answer homeWorld).2)).2.tree
          [ascii "home", ascii "a"] = some (.file ⟨true, 0o600⟩ (ascii "x" ++ [LF])))) =
            .ok true := by
    decide +kernel
  cases hp : hmConfigParse (pairInput (ascii "d/a") (ascii "d/b"))
      (pairEvents (ascii "d/a") (ascii "d/b")) with
  | error msg =>
    rw [hp] at hrun
    cases hrun
  | ok p =>
    rw [hp] at hrun
    have hturn : ∀ pid w, Turn linux p (ascii "/w") [ascii "w"] (fun _ => True) w
        ((hmMaterializeFiles pid p (ascii "/w")).eval linux.answer w).2 :=
      fun pid _ => materialize_turn pid trivial
    have hruns := ((Relation.ReflTransGen.single (hturn 7 homeWorld)).tail
      (.command (relink_commanded _))).tail (hturn 8 _)
    exact ⟨p, _, rfl, spot_root rfl rfl, hruns, by decide, by decide,
      of_decide_eq_true (Except.ok.inj hrun)⟩

end Reruns

end Hacman.WorkTree
