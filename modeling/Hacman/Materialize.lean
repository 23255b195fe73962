import Hacman.WorkTree

/-!
# The embedded files in an empty work directory

Each file is written under a temporary name beside its place and renamed. What is there
after some of the files is described by their names alone, and a further file can be written
exactly if its names and those of the files before leave each other room.
-/

namespace Hacman.WorkTree
open Octets Util Cache Config FileTree Interaction

section Spelling

def names (file : EmbeddedFile) : Path := fields SLASH file.path

def tempNames (pid : Nat) (ns : Path) : Path := ns.dropLast ++ [tempOf (ns.getLastD []) pid]

def spelled (s : Bytes) (ns : Path) : Bytes := s ++ ns.flatMap (SLASH :: ·)

theorem spelled_concat (s : Bytes) (ns : Path) (m : Name) :
    spelled s (ns ++ [m]) = spelled s ns ++ SLASH :: m := by
  simp [spelled, List.flatMap_append]

theorem spelled_append (s : Bytes) (ns ms : Path) :
    spelled s (ns ++ ms) = spelled (spelled s ns) ms := by
  simp [spelled, List.flatMap_append]

theorem spelled_ne_nil {s : Bytes} (hs : s ≠ []) (ns : Path) : spelled s ns ≠ [] := by
  simp [spelled, hs]

theorem flatMap_fields (path : Bytes) :
    (fields SLASH path).flatMap (SLASH :: ·) = SLASH :: path := by
  induction path with
  | nil => rfl
  | cons b path ih =>
    rw [fields]
    split_ifs with hb
    · rw [List.flatMap_cons, ih, hb]
      rfl
    · obtain ⟨n, ns, hns⟩ := List.exists_cons_of_ne_nil (fields_ne_nil SLASH path)
      rw [hns, List.flatMap_cons, List.cons_append, List.cons.injEq] at ih
      rw [hns]
      dsimp only
      rw [List.flatMap_cons, List.cons_append, List.cons_append, ih.2]

theorem comps_spelled (s : Bytes) {ns : Path} (h : ∀ m ∈ ns, proper m = true) :
    comps (spelled s ns) = comps s ++ ns := by
  induction ns using List.reverseRecOn with
  | nil => simp [spelled]
  | append_singleton ns m ih =>
    rw [spelled_concat, comps_append, ih fun l hl => h l (List.mem_append_left _ hl),
      comps_name (h m (List.mem_append_right _ (List.mem_singleton_self m))), List.append_assoc]

theorem targetOf_eq (s : Bytes) (file : EmbeddedFile) :
    targetOf s file.path = spelled s (names file) := by
  rw [targetOf, spelled, names, flatMap_fields]

theorem names_concat (file : EmbeddedFile) : ∃ ns m, names file = ns ++ [m] :=
  (List.eq_nil_or_concat' _).resolve_left (fields_ne_nil SLASH file.path)

theorem names_inj {f g : EmbeddedFile} (h : names f = names g) : f.path = g.path := by
  have hpath := congrArg (List.flatMap (SLASH :: ·)) h
  rw [names, names, flatMap_fields, flatMap_fields] at hpath
  exact (List.cons.inj hpath).2

theorem cuts_concat (s : Bytes) (ns : Path) {m : Name} (hm : proper m = true) :
    cuts (spelled s (ns ++ [m])) = cuts (spelled s ns) ++ [spelled s (ns ++ [m])] := by
  rw [spelled_concat]
  exact cuts_snoc (proper_iff.mp hm).2.2.2

theorem temp_proper {m : Name} (hm : proper m = true) (pid : Nat) :
    proper (tempOf m pid) = true := by
  obtain ⟨hne, -, -, hslash⟩ := proper_iff.mp hm
  have hlen : 5 < (tempOf m pid).length := by
    have hpos := List.length_pos_iff.mpr hne
    rw [tempOf, List.length_append, List.length_append]
    have htmp : (ascii ".tmp.").length = 5 := by decide
    omega
  refine proper_iff.mpr ⟨?_, ?_, ?_, ?_⟩
  · rintro h
    rw [h] at hlen
    exact absurd hlen (by decide)
  · intro h
    rw [h] at hlen
    exact absurd hlen (by decide)
  · intro h
    rw [h] at hlen
    exact absurd hlen (by decide)
  · rw [tempOf, List.mem_append, List.mem_append, not_or, not_or]
    exact ⟨⟨hslash, by decide⟩, decimal_notMem _ rfl⟩

theorem temp_ne (m : Name) (pid : Nat) : tempOf m pid ≠ m := by
  intro h
  have hlen := congrArg List.length h
  rw [tempOf, List.length_append, List.length_append] at hlen
  have htmp : (ascii ".tmp.").length = 5 := by decide
  omega

end Spelling

section Directories
variable {k : Kernel} {t : Tree} {w : World} {s : Bytes} {d : Path} {n : Name}

/-- The string spells a directory which the caller can change. -/
structure Workdir (k : Kernel) (t : Tree) (s : Bytes) (d : Path) (n : Name) : Prop where
  named : Names (look t) k.linkMax k.cwd s d n
  dir : ∃ a, look t (d ++ [n]) = some (.dir a) ∧ a.allows WRITE = true ∧ a.allows SEARCH = true

def Opened (t : Tree) (q : Path) (ns : Path) : Prop :=
  ∀ r, r ≠ [] → r <+: ns → look t (q ++ r) = some (.dir ⟨true, 0o700⟩)

theorem Opened.before {q ns : Path} {m : Name} (h : Opened t q (ns ++ [m])) : Opened t q ns :=
  fun r hr hns => h r hr (hns.trans (List.prefix_append ns [m]))

theorem Workdir.walked (h : Workdir k t s d n) :
    walk (look t) k.linkMax (origin k.cwd s) (comps s) = .ok (d ++ [n]) := by
  obtain ⟨a, ha, -⟩ := h.dir
  obtain ⟨cs, hcs, hw⟩ := h.named.spelled
  rw [hcs, walk_append, hw]
  exact (walk_single _ _ _).trans (enter_dir h.named.search h.named.proper ha)

theorem Workdir.changeable_below (h : Workdir k t s d n) {ns : Path}
    (hns : Opened t (d ++ [n]) ns) : changeable t (d ++ [n] ++ ns) = true := by
  rw [changeable, grants, grants]
  by_cases hnil : ns = []
  · obtain ⟨a, ha, hwrite, hsearch⟩ := h.dir
    rw [hnil, List.append_nil, ha]
    dsimp only
    rw [hwrite, hsearch]
    rfl
  · rw [hns ns hnil (List.prefix_refl ns)]
    rfl

theorem Workdir.names_below (h : Workdir k t s d n) {ns : Path} {m : Name}
    (hproper : ∀ l ∈ ns ++ [m], proper l = true) (hns : Opened t (d ++ [n]) ns) :
    Names (look t) k.linkMax k.cwd (spelled s (ns ++ [m])) (d ++ [n] ++ ns) m := by
  induction ns using List.reverseRecOn generalizing m with
  | nil =>
    obtain ⟨a, ha, -, hsearch⟩ := h.dir
    rw [List.append_nil, List.nil_append, ← List.nil_append [m], spelled_concat, spelled,
      List.flatMap_nil, List.append_nil]
    exact h.named.child ha hsearch (hproper m (List.mem_append_right _ (List.mem_singleton_self m)))
  | append_singleton ns l ih =>
    have hl := ih (fun l' hl' => hproper l' (List.mem_append_left _ hl')) hns.before
    have hdir := hns (ns ++ [l]) (by simp) (List.prefix_refl _)
    rw [← List.append_assoc] at hdir
    rw [spelled_concat, ← List.append_assoc]
    exact hl.child hdir rfl (hproper m (List.mem_append_right _ (List.mem_singleton_self m)))

theorem mkdirEach_exist {dirs : List Bytes}
    (h : ∀ dir ∈ dirs, ∀ e, k.add w.tree .cwd dir e = .error .exist) :
    (mkdirEach dirs).eval k.answer w = (.ok (), w) := by
  induction dirs with
  | nil => rfl
  | cons dir dirs ih =>
    rw [mkdirEach, eval_mkdir, h dir List.mem_cons_self]
    exact ih fun dir' hdir' => h dir' (List.mem_cons_of_mem _ hdir')

theorem mkdirEach_append {dirs dirs' : List Bytes} {w' : World}
    (h : (mkdirEach dirs).eval k.answer w = (.ok (), w')) :
    (mkdirEach (dirs ++ dirs')).eval k.answer w = (mkdirEach dirs').eval k.answer w' := by
  induction dirs generalizing w with
  | nil =>
    obtain ⟨-, rfl⟩ := Prod.mk.inj h
    rfl
  | cons dir dirs ih =>
    rw [List.cons_append, mkdirEach, eval_mkdir]
    rw [mkdirEach, eval_mkdir] at h
    cases hadd : k.add w.tree .cwd dir (.dir ⟨true, 0o700⟩) with
    | error e =>
      rw [hadd] at h
      dsimp only [Except.map, World.settle] at h ⊢
      by_cases he : e = .exist
      · rw [if_pos he] at h ⊢
        exact ih h
      · rw [if_neg he] at h
        cases h
    | ok r =>
      rw [hadd] at h
      exact ih h

theorem Workdir.cut_exists (h : Workdir k t s d n) (hlen : s.length < k.pathMax) :
    ∀ cut ∈ cuts s, ∀ e, k.add t .cwd cut e = .error .exist := by
  intro cut hcut e
  obtain ⟨hne, hle, rest, hrest, horigin⟩ := cut_spec hcut
  have hw := h.walked
  rw [hrest, walk_append] at hw
  obtain ⟨p, hp, -⟩ := bind_ok.mp hw
  exact add_walked hne (Nat.lt_of_le_of_lt hle hlen) ((horigin k.cwd).symm ▸ hp) e

theorem Workdir.congr {t' : Tree} (h : Workdir k t s d n) (hu : Under (look t) (look t')) :
    Workdir k t' s d n := by
  obtain ⟨a, ha, hallows⟩ := h.dir
  exact ⟨h.named.mono hu, a, hu.dir _ a ha, hallows⟩

/-- `mkdir_p` makes the missing directories below the work directory, if no file is in the way. -/
theorem mkdirEach_opens (h : Workdir k w.tree s d n) {ns : Path}
    (hproper : ∀ m ∈ ns, proper m = true) (hlen : (spelled s ns).length < k.pathMax)
    (hfree : ∀ r, r ≠ [] → r <+: ns → look w.tree (d ++ [n] ++ r) = none ∨
      look w.tree (d ++ [n] ++ r) = some (.dir ⟨true, 0o700⟩)) :
    ∃ t, (mkdirEach (cuts (spelled s ns))).eval k.answer w = (.ok (), { w with tree := t }) ∧
      Under (look w.tree) (look t) ∧ Opened t (d ++ [n]) ns ∧
      ∀ p, (∀ r, r ≠ [] → r <+: ns → p ≠ d ++ [n] ++ r) → look t p = look w.tree p := by
  induction ns using List.reverseRecOn with
  | nil =>
    refine ⟨w.tree, ?_, .of_some fun _ _ => id, fun r hr hnil => ?_, fun p _ => rfl⟩
    · have hs : spelled s [] = s := List.append_nil s
      rw [hs] at hlen ⊢
      exact mkdirEach_exist (h.cut_exists hlen)
    · exact absurd (List.prefix_nil.mp hnil) hr
  | append_singleton ns m ih =>
    have hm := hproper m (List.mem_append_right _ (List.mem_singleton_self m))
    have hlen' : (spelled s ns).length < k.pathMax := by
      rw [spelled_concat, List.length_append] at hlen
      omega
    obtain ⟨t, ht, hunder, hopened, hsame⟩ := ih
      (fun l hl => hproper l (List.mem_append_left _ hl)) hlen'
      fun r hr hns => hfree r hr (hns.trans (List.prefix_append ns [m]))
    have hself : ∀ r, r ≠ [] → r <+: ns → d ++ [n] ++ (ns ++ [m]) ≠ d ++ [n] ++ r := by
      intro r _ hr heq
      have hle := hr.length_le
      rw [← List.append_cancel_left heq, List.length_append, List.length_singleton] at hle
      omega
    have hlook := hsame _ hself
    have hnames := (h.congr hunder).names_below hproper hopened
    rw [cuts_concat s ns hm, mkdirEach_append ht, mkdirEach, eval_mkdir]
    dsimp only
    rw [add_names (k := k) (f := .cwd) hnames hlen, List.append_assoc, hlook]
    rcases hfree _ (by simp) (List.prefix_refl _) with hnone | hdir
    · rw [hnone, (h.congr hunder).changeable_below hopened]
      refine ⟨_, rfl, ?_, fun r hr hns => ?_, fun p hp => ?_⟩
      · have hadded := under_insert (e := .dir ⟨true, 0o700⟩) (hlook.trans hnone)
        exact ⟨fun p a ha => hadded.dir p a (hunder.dir p a ha),
          fun p a ha => hadded.link p a (hunder.link p a ha)⟩
      · rw [look_insert]
        rcases List.prefix_concat_iff.mp hns with rfl | hns
        · exact if_pos rfl
        · split_ifs
          · rfl
          · exact hopened r hr hns
      · rw [look_insert, if_neg (hp _ (by simp) (List.prefix_refl _))]
        exact hsame p fun r hr hns => hp r hr (List.prefix_concat_iff.mpr (.inr hns))
    · rw [hdir]
      refine ⟨t, rfl, hunder, fun r hr hns => ?_, fun p hp => ?_⟩
      · rcases List.prefix_concat_iff.mp hns with rfl | hns
        · exact hlook.trans hdir
        · exact hopened r hr hns
      · exact hsame p fun r hr hns => hp r hr (List.prefix_concat_iff.mpr (.inr hns))

theorem mkdirEach_keeps {dirs : List Bytes} {p : Path} {e : Entry} (h : look w.tree p = some e) :
    look ((mkdirEach dirs).eval k.answer w).2.tree p = some e := by
  induction dirs generalizing w with
  | nil => exact h
  | cons dir dirs ih =>
    rw [mkdirEach, eval_mkdir]
    cases hadd : k.add w.tree .cwd dir (.dir ⟨true, 0o700⟩) with
    | error err =>
      dsimp only [Except.map, World.settle]
      split_ifs
      · exact ih h
      · exact h
    | ok r =>
      obtain ⟨x, t⟩ := r
      obtain ⟨-, -, -, -, hnone, rfl⟩ := add_ok hadd
      refine ih ?_
      dsimp only [Except.map, World.settle]
      rw [look_insert, if_neg]
      · exact h
      · rintro rfl
        rw [h] at hnone
        cases hnone

theorem mkdirP_keeps (k : Kernel) (path : Bytes) {p : Path} {e : Entry}
    (h : look w.tree p = some e) : look ((mkdirP path).eval k.answer w).2.tree p = some e := by
  rw [mkdirP]
  split_ifs
  · exact h
  · exact mkdirEach_keeps h

end Directories

section OneFile
variable {k : Kernel} {w : World} {s : Bytes} {d : Path} {n : Name}

def contents (file : EmbeddedFile) : Bytes := (fileLines file).flatMap (· ++ [LF])

theorem writeLines_eval {p : Path} {a : Attr} {content : Bytes} (lines : List Bytes)
    (h : look w.tree p = some (.file a content)) :
    ∃ t, (writeLines p lines).eval k.answer w = (true, { w with tree := t }) ∧ ∀ q, look t q =
      if q = p then some (.file a (content ++ lines.flatMap (· ++ [LF]))) else look w.tree q := by
  induction lines generalizing w content with
  | nil =>
    refine ⟨w.tree, rfl, fun q => ?_⟩
    rw [List.flatMap_nil, List.append_nil]
    split_ifs with hq
    · rw [hq, h]
    · rfl
  | cons line lines ih =>
    have h₁ := look_setContent h (· ++ line)
    have h₂ := look_setContent ((h₁ p).trans (if_pos rfl)) (· ++ [LF])
    let t₂ := setContent (setContent w.tree p (· ++ line)) p (· ++ [LF])
    obtain ⟨t, ht, hlook⟩ := ih (w := { w with tree := t₂ }) ((h₂ p).trans (if_pos rfl))
    refine ⟨t, ht, fun q => ?_⟩
    rw [hlook]
    split_ifs with hq
    · simp
    · exact ((h₂ q).trans (if_neg hq)).trans ((h₁ q).trans (if_neg hq))

/-- One file is written beside its place and moved there, unless something has its temporary
name or a directory has its place. -/
theorem writeEmbeddedFile_eval (pid : Nat) (h : Workdir k w.tree s d n)
    (hs : s.length ≤ HM_PATH_MAX)
    (hk : HM_PATH_MAX * 2 + 32 ≤ k.pathMax) {file : EmbeddedFile}
    (hvalid : validFilePath file.path = true)
    {ns : Path} {m : Name} (hnames : names file = ns ++ [m])
    (hfree : ∀ r, r ≠ [] → r <+: ns → look w.tree (d ++ [n] ++ r) = none ∨
      look w.tree (d ++ [n] ++ r) = some (.dir ⟨true, 0o700⟩)) :
    ∃ t, Under (look w.tree) (look t) ∧ Opened t (d ++ [n]) ns ∧
      (∀ p, (∀ r, r ≠ [] → r <+: ns → p ≠ d ++ [n] ++ r) → look t p = look w.tree p) ∧
      if (look t (d ++ [n] ++ ns ++ [tempOf m pid])).isSome ∨
        (look t (d ++ [n] ++ ns ++ [m])).any (fun e => (statOf e).isDir) = true
      then ((writeEmbeddedFile pid file s).eval k.answer w).1 ≠ .ok ()
      else ∃ t', (writeEmbeddedFile pid file s).eval k.answer w = (.ok (), { w with tree := t' }) ∧
        ∀ p, look t' p = if p = d ++ [n] ++ ns ++ [m] then
          some (.file ⟨true, 0o600⟩ (contents file)) else look t p := by
  have hproper : ∀ l ∈ ns ++ [m], proper l = true := hnames ▸ fields_proper hvalid
  have hm := hproper m (List.mem_append_right _ (List.mem_singleton_self m))
  have htarget : targetOf s file.path = spelled s (ns ++ [m]) := by rw [targetOf_eq, hnames]
  have htemp : tempOf (targetOf s file.path) pid = spelled s (ns ++ [tempOf m pid]) := by
    rw [htarget, spelled_concat, spelled_concat, tempOf, tempOf]
    simp
  have hparent : parentOf (targetOf s file.path) = spelled s ns := by
    rw [htarget, spelled_concat]
    exact parentOf_snoc (spelled_ne_nil h.named.nonempty ns) (proper_iff.mp hm).2.2.2
  have hlen : (targetOf s file.path).length ≤ HM_PATH_MAX + 129 := by
    simp only [validFilePath, validRelativePath, Bool.and_eq_true, decide_eq_true_eq] at hvalid
    have hmax : HM_FILE_PATH_MAX = 128 := rfl
    rw [targetOf, List.length_append, List.length_cons]
    omega
  have hlentemp : (tempOf (targetOf s file.path) pid).length ≤ HM_PATH_MAX + 158 := by
    have hdigits := decimal_length_le pid
    rw [tempOf, List.length_append, List.length_append]
    have htmp : (ascii ".tmp.").length = 5 := by decide
    omega
  have hlenparent : (spelled s ns).length ≤ (targetOf s file.path).length := by
    rw [htarget, spelled_concat, List.length_append]
    omega
  have hmax : HM_PATH_MAX = 1023 := rfl
  obtain ⟨t, ht, hunder, hopened, hsame⟩ := mkdirEach_opens h
    (fun l hl => hproper l (List.mem_append_left _ hl)) (by omega) hfree
  refine ⟨t, hunder, hopened, hsame, ?_⟩
  have hmkdir : (mkdirP (parentOf (targetOf s file.path))).eval k.answer w =
      (.ok (), { w with tree := t }) := by
    rw [mkdirP, hparent, if_neg]
    · exact ht
    · rw [not_or]
      exact ⟨spelled_ne_nil h.named.nonempty ns, by omega⟩
  have hw := h.congr hunder
  have hnamed : Names (look t) k.linkMax k.cwd (targetOf s file.path) (d ++ [n] ++ ns) m := by
    rw [htarget]
    exact hw.names_below hproper hopened
  have hnamedtemp : Names (look t) k.linkMax k.cwd (tempOf (targetOf s file.path) pid)
      (d ++ [n] ++ ns) (tempOf m pid) := by
    rw [htemp]
    refine hw.names_below (fun l hl => ?_) hopened
    rcases List.mem_append.mp hl with hl | hl
    · exact hproper l (List.mem_append_left _ hl)
    · rw [List.mem_singleton.mp hl]
      exact temp_proper hm pid
  have hchange := hw.changeable_below hopened
  have hadd := add_names (k := k) (f := .cwd) hnamedtemp (by omega) (.file ⟨true, 0o600⟩ [])
  rw [hchange] at hadd
  generalize hres : (writeEmbeddedFile pid file s).eval k.answer w = res
  rw [writeEmbeddedFile, if_neg (by omega), eval_bind, hmkdir] at hres
  dsimp only at hres
  rw [if_neg (by omega), eval_create] at hres
  dsimp only at hres
  have hother : d ++ [n] ++ ns ++ [tempOf m pid] ≠ d ++ [n] ++ ns ++ [m] := by
    intro heq
    exact temp_ne m pid (List.singleton_inj.mp (List.append_cancel_left heq))
  generalize htp : d ++ [n] ++ ns ++ [tempOf m pid] = temp at hadd hother ⊢
  generalize htq : d ++ [n] ++ ns ++ [m] = target at hother ⊢
  cases hfound : look t temp with
  | some e =>
    rw [hfound, if_pos Option.isSome_some] at hadd
    rw [hadd, settle_error] at hres
    rw [if_pos (.inl rfl), ← hres]
    exact fun hok => by cases hok
  | none =>
    rw [hfound, Option.isSome_none, if_neg Bool.false_ne_true, Bool.not_true,
      if_neg Bool.false_ne_true] at hadd
    have hcreated : look (t.insert temp (.file ⟨true, 0o600⟩ [])) temp = _ :=
      (look_insert temp temp _).trans (if_pos rfl)
    obtain ⟨t₂, ht₂, hlook₂⟩ := writeLines_eval (k := k) (fileLines file)
      (w := { w with tree := t.insert temp (.file ⟨true, 0o600⟩ []) }) hcreated
    rw [hadd, settle_ok] at hres
    dsimp only at hres
    rw [eval_fdopen, eval_bind, ht₂] at hres
    dsimp only at hres
    rw [if_pos rfl, eval_fclose, if_pos rfl, eval_rename] at hres
    have hwritten : ∀ p, look t₂ p =
        if p = temp then some (.file ⟨true, 0o600⟩ (contents file)) else look t p := by
      intro p
      rw [hlook₂]
      split_ifs with hp
      · rfl
      · exact (look_insert temp p _).trans (if_neg hp)
    have hunder₂ : Under (look t) (look t₂) := by
      refine .of_some fun p e hp => ?_
      rw [hwritten, if_neg]
      · exact hp
      · rintro rfl
        rw [hfound] at hp
        cases hp
    have hchange₂ : changeable t₂ (d ++ [n] ++ ns) = true := by
      rw [changeable, Bool.and_eq_true] at hchange ⊢
      exact ⟨grants_mono hunder₂ hchange.1, grants_mono hunder₂ hchange.2⟩
    subst htp htq
    have hrename := rename_names (hnamedtemp.mono hunder₂) (by omega)
      (hnamed.mono hunder₂) (by omega) ((hwritten _).trans (if_pos rfl)) hother hchange₂ hchange₂
    rw [hwritten, if_neg hother.symm] at hrename
    dsimp only at hres
    rw [hrename] at hres
    cases hdir : (look t (d ++ [n] ++ ns ++ [m])).any fun e => (statOf e).isDir with
    | true =>
      rw [hdir, if_pos rfl] at hres
      rw [if_pos (.inr rfl), ← hres]
      exact fun hok => by cases hok
    | false =>
      rw [hdir, if_neg Bool.false_ne_true] at hres
      rw [if_neg (by simp), ← hres]
      refine ⟨_, rfl, fun p => ?_⟩
      rw [look_insert]
      split_ifs with hp
      · rfl
      · rw [look_erase, hwritten]
        split_ifs with hp'
        · rw [hp', hfound]
        · rfl

end OneFile

section AllFiles
variable {k : Kernel} {w w₀ : World} {s : Bytes} {d : Path} {n : Name} {pid : Nat}

def Compatible (pid : Nat) (f g : EmbeddedFile) : Prop :=
  ¬ names f <+: names g ∧ ¬ names g <+: names f ∧ ¬ tempNames pid (names g) <+: names f

instance (pid : Nat) (f g : EmbeddedFile) : Decidable (Compatible pid f g) :=
  inferInstanceAs (Decidable (_ ∧ _ ∧ _))

/-- Below `q` there are the files and the directories they need, and nothing else is changed. -/
structure Laid (w₀ w : World) (q : Path) (files : List EmbeddedFile) : Prop where
  written : ∀ f ∈ files, look w.tree (q ++ names f) = some (.file ⟨true, 0o600⟩ (contents f))
  dirs : ∀ f ∈ files, ∀ r, r ≠ [] → r <+: names f → r ≠ names f →
    look w.tree (q ++ r) = some (.dir ⟨true, 0o700⟩)
  only : ∀ r, r ≠ [] → (∀ f ∈ files, ¬ r <+: names f) → look w.tree (q ++ r) = none
  outside : ∀ p, (∀ r, r ≠ [] → p ≠ q ++ r) → look w.tree p = look w₀.tree p

theorem tempNames_concat (pid : Nat) (ns : Path) (m : Name) :
    tempNames pid (ns ++ [m]) = ns ++ [tempOf m pid] := by
  simp [tempNames]

theorem not_prefix_of_lt {a b : Path} (h : b.length < a.length) : ¬ a <+: b :=
  fun hab => Nat.not_le.mpr h hab.length_le

theorem Laid.free {files : List EmbeddedFile} (h : Laid w₀ w (d ++ [n]) files) {g : EmbeddedFile}
    (hg : ∀ f ∈ files, ¬ names f <+: names g) {ns : Path} (hns : ns <+: names g) :
    ∀ r, r ≠ [] → r <+: ns → look w.tree (d ++ [n] ++ r) = none ∨
      look w.tree (d ++ [n] ++ r) = some (.dir ⟨true, 0o700⟩) := by
  intro r hr hrns
  by_cases hf : ∃ f ∈ files, r <+: names f
  · obtain ⟨f, hf, hrf⟩ := hf
    refine .inr (h.dirs f hf r hr hrf ?_)
    rintro rfl
    exact hg f hf (hrns.trans hns)
  · exact .inl (h.only r hr fun f hmem hrf => hf ⟨f, hmem, hrf⟩)

theorem write_compatible {files : List EmbeddedFile} {g : EmbeddedFile} (h : Workdir k w.tree s d n)
    (hs : s.length ≤ HM_PATH_MAX) (hk : HM_PATH_MAX * 2 + 32 ≤ k.pathMax)
    (hlaid : Laid w₀ w (d ++ [n]) files) (hvalid : validFilePath g.path = true)
    (hg : ∀ f ∈ files, Compatible pid f g) :
    ∃ w', (writeEmbeddedFile pid g s).eval k.answer w = (.ok (), w') ∧
      Workdir k w'.tree s d n ∧ Laid w₀ w' (d ++ [n]) (files ++ [g]) := by
  obtain ⟨ns, m, hnames⟩ := names_concat g
  have hns : ns <+: names g := hnames ▸ List.prefix_append ns [m]
  obtain ⟨t, hunder, hopened, hsame, hrun⟩ := writeEmbeddedFile_eval pid h hs hk hvalid hnames
    (hlaid.free (fun f hf => (hg f hf).1) hns)
  have hlast : ∀ l r, r ≠ [] → r <+: ns → d ++ [n] ++ (ns ++ [l]) ≠ d ++ [n] ++ r := by
    intro l r _ hr heq
    refine not_prefix_of_lt ?_ (List.append_cancel_left heq ▸ hr)
    simp
  have htarget : look t (d ++ [n] ++ ns ++ [m]) = none := by
    rw [List.append_assoc, hsame _ (hlast m)]
    exact hlaid.only _ (by simp) fun f hf => hnames ▸ (hg f hf).2.1
  have htemp : look t (d ++ [n] ++ ns ++ [tempOf m pid]) = none := by
    rw [List.append_assoc, hsame _ (hlast _)]
    refine hlaid.only _ (by simp) fun f hf => ?_
    rw [← tempNames_concat, ← hnames]
    exact (hg f hf).2.2
  rw [if_neg (by rw [htarget, htemp]; simp)] at hrun
  obtain ⟨t', ht', hlook⟩ := hrun
  rw [List.append_assoc, ← hnames] at hlook htarget
  have hadded : Under (look t) (look t') := by
    refine .of_some fun p e hp => ?_
    rw [hlook, if_neg]
    · exact hp
    · rintro rfl
      rw [htarget] at hp
      cases hp
  have hkept : ∀ r, r ≠ names g → ¬ r <+: ns → look t' (d ++ [n] ++ r) =
      look w.tree (d ++ [n] ++ r) := by
    intro r hr hrns
    rw [hlook, if_neg fun heq => hr (List.append_cancel_left heq)]
    refine hsame _ fun r' _ hr' heq => hrns ?_
    rw [List.append_cancel_left heq]
    exact hr'
  have hmade : ∀ r, r ≠ [] → r <+: ns → look t' (d ++ [n] ++ r) = some (.dir ⟨true, 0o700⟩) := by
    intro r hr hrns
    exact hadded.dir _ _ (hopened r hr hrns)
  refine ⟨_, ht', (h.congr hunder).congr hadded, ⟨?_, ?_, ?_, ?_⟩⟩
  · intro f hf
    rcases List.mem_append.mp hf with hf | hf
    · refine (hkept _ (fun heq => ?_) fun hr => ?_).trans (hlaid.written f hf)
      · exact (hg f hf).1 (heq ▸ List.prefix_refl _)
      · exact (hg f hf).1 (hr.trans hns)
    · rw [List.mem_singleton.mp hf]
      exact (hlook _).trans (if_pos rfl)
  · intro f hf r hr hrf hne
    by_cases hrns : r <+: ns
    · exact hmade r hr hrns
    · rcases List.mem_append.mp hf with hf | hf
      · refine (hkept r ?_ hrns).trans (hlaid.dirs f hf r hr hrf hne)
        rintro rfl
        exact (hg f hf).2.1 hrf
      · rw [List.mem_singleton.mp hf, hnames] at hrf hne
        exact absurd ((List.prefix_concat_iff.mp hrf).resolve_left hne) hrns
  · intro r hr hfree
    have hrg := hfree g (List.mem_append_right _ (List.mem_singleton_self g))
    refine (hkept r (fun heq => hrg (heq ▸ List.prefix_refl _)) fun hrns => hrg
      (hrns.trans hns)).trans ?_
    exact hlaid.only r hr fun f hf => hfree f (List.mem_append_left _ hf)
  · intro p hp
    rw [hlook, if_neg (hp (names g) (fields_ne_nil SLASH _)), hsame p fun r hr _ => hp r hr]
    exact hlaid.outside p hp

/-- Below a file nothing can be written. -/
theorem write_below_file {files : List EmbeddedFile} {f g : EmbeddedFile}
    (h : Workdir k w.tree s d n)
    (hlaid : Laid w₀ w (d ++ [n]) files) (hf : f ∈ files) (hvalid : validFilePath f.path = true)
    (hvalid' : validFilePath g.path = true) {rest : Path} (hrest : rest ≠ [])
    (hnames : names g = names f ++ rest) :
    ((writeEmbeddedFile pid g s).eval k.answer w).1 ≠ .ok () := by
  obtain ⟨fs, l, hl⟩ := names_concat f
  have hproper : ∀ m ∈ fs ++ [l], proper m = true := hl ▸ fields_proper hvalid
  have hopened : Opened w.tree (d ++ [n]) fs := by
    refine fun r hr hrfs => hlaid.dirs f hf r hr (hl ▸ hrfs.trans (List.prefix_append fs [l])) ?_
    rintro rfl
    refine not_prefix_of_lt ?_ hrfs
    rw [hl, List.length_append]
    exact Nat.lt_succ_self _
  have hnamed := h.names_below hproper hopened
  have hfile : look w.tree (d ++ [n] ++ fs ++ [l]) = some (.file ⟨true, 0o600⟩ (contents f)) := by
    rw [List.append_assoc, ← hl]
    exact hlaid.written f hf
  obtain ⟨ms, m, rfl⟩ := (List.eq_nil_or_concat' rest).resolve_left hrest
  have hproper' : ∀ x ∈ ms ++ [m], proper x = true := by
    intro x hx
    refine fields_proper hvalid' x ?_
    rw [← names, hnames]
    exact List.mem_append_right _ hx
  have htemp : tempOf (targetOf s g.path) pid =
      spelled (spelled s (fs ++ [l])) (ms ++ [tempOf m pid]) := by
    rw [targetOf_eq, hnames, hl, ← spelled_append, ← List.append_assoc, ← List.append_assoc,
      spelled_concat, spelled_concat, tempOf, tempOf]
    simp
  have hcomps : comps (tempOf (targetOf s g.path) pid) =
      comps (spelled s (fs ++ [l])) ++ (ms ++ [tempOf m pid]) := by
    rw [htemp, comps_spelled]
    intro x hx
    rcases List.mem_append.mp hx with hx | hx
    · exact hproper' x (List.mem_append_left _ hx)
    · rw [List.mem_singleton.mp hx]
      exact temp_proper (hproper' m (List.mem_append_right _ (List.mem_singleton_self m))) pid
  have horigin : origin k.cwd (tempOf (targetOf s g.path) pid) =
      origin k.cwd (spelled s (fs ++ [l])) := by
    rw [htemp]
    exact origin_append hnamed.nonempty _
  rw [writeEmbeddedFile]
  by_cases hlong : HM_PATH_MAX * 2 + 2 ≤ (targetOf s g.path).length
  · rw [if_pos hlong]
    exact fun hok => by cases hok
  · rw [if_neg hlong, eval_bind]
    cases hmkdir : (mkdirP (parentOf (targetOf s g.path))).eval k.answer w with
    | mk r w₁ =>
      cases r with
      | error c => exact fun hok => by cases hok
      | ok _ =>
        dsimp only
        by_cases hlong' : HM_PATH_MAX * 2 + 32 ≤ (tempOf (targetOf s g.path) pid).length
        · rw [if_pos hlong']
          exact fun hok => by cases hok
        · rw [if_neg hlong']
          have hkept : ∀ p e, look w.tree p = some e → look w₁.tree p = some e := by
            intro p e hp
            have hkeeps := mkdirP_keeps k (parentOf (targetOf s g.path)) hp
            rwa [hmkdir] at hkeeps
          have hplace := locate_through_file (f := .cwd) (hnamed.mono (.of_some hkept))
            (hkept _ _ hfile) hcomps (by simp) horigin
          have hadd : ∃ e, k.add w₁.tree .cwd (tempOf (targetOf s g.path) pid)
              (.file ⟨true, 0o600⟩ []) = .error e := by
            rw [Kernel.add]
            cases hloc : k.locate w₁.tree .cwd (tempOf (targetOf s g.path) pid) with
            | error e => exact ⟨e, rfl⟩
            | ok place => exact absurd hloc (hplace place)
          obtain ⟨e, hadd⟩ := hadd
          rw [eval_create, hadd]
          exact fun hok => by cases hok

theorem write_incompatible {files : List EmbeddedFile} {f g : EmbeddedFile}
    (h : Workdir k w.tree s d n)
    (hs : s.length ≤ HM_PATH_MAX) (hk : HM_PATH_MAX * 2 + 32 ≤ k.pathMax)
    (hlaid : Laid w₀ w (d ++ [n]) files) (hvalid : ∀ f ∈ files, validFilePath f.path = true)
    (hvalid' : validFilePath g.path = true) (hnew : ∀ f ∈ files, f.path ≠ g.path) (hf : f ∈ files)
    (hfg : ¬ Compatible pid f g) : ((writeEmbeddedFile pid g s).eval k.answer w).1 ≠ .ok () := by
  by_cases hbelow : ∃ f ∈ files, names f <+: names g
  · obtain ⟨f, hf, rest, hrest⟩ := hbelow
    refine write_below_file h hlaid hf (hvalid f hf) hvalid' ?_ hrest.symm
    rintro rfl
    rw [List.append_nil] at hrest
    exact hnew f hf (names_inj hrest)
  · have hfree : ∀ f ∈ files, ¬ names f <+: names g := fun f hf hfg => hbelow ⟨f, hf, hfg⟩
    obtain ⟨ns, m, hnames⟩ := names_concat g
    have hns : ns <+: names g := hnames ▸ List.prefix_append ns [m]
    obtain ⟨t, -, -, hsame, hrun⟩ := writeEmbeddedFile_eval pid h hs hk hvalid' hnames
      (hlaid.free hfree hns)
    have hlast : ∀ l r, r ≠ [] → r <+: ns → d ++ [n] ++ (ns ++ [l]) ≠ d ++ [n] ++ r := by
      intro l r _ hr heq
      refine not_prefix_of_lt ?_ (List.append_cancel_left heq ▸ hr)
      simp
    have hfound : ∀ r, r ≠ [] → r <+: names f → look w.tree (d ++ [n] ++ r) ≠ none := by
      intro r hr hrf hnone
      by_cases hself : r = names f
      · rw [hself, hlaid.written f hf] at hnone
        cases hnone
      · rw [hlaid.dirs f hf r hr hrf hself] at hnone
        cases hnone
    rw [if_pos] at hrun
    · exact hrun
    · by_cases htarget : names g <+: names f
      · refine .inr ?_
        have hself : names g ≠ names f := fun heq => hnew f hf (names_inj heq.symm)
        rw [List.append_assoc, hsame _ (hlast m), ← hnames,
          hlaid.dirs f hf (names g) (fields_ne_nil SLASH _) htarget hself]
        rfl
      · refine .inl ?_
        have htemp : tempNames pid (names g) <+: names f := by
          by_contra hnot
          exact hfg ⟨hfree f hf, htarget, hnot⟩
        rw [hnames, tempNames_concat] at htemp
        rw [List.append_assoc, hsame _ (hlast _), Option.isSome_iff_ne_none]
        exact hfound _ (by simp) htemp

theorem writeFiles_eval {done files : List EmbeddedFile} (h : Workdir k w.tree s d n)
    (hs : s.length ≤ HM_PATH_MAX) (hk : HM_PATH_MAX * 2 + 32 ≤ k.pathMax)
    (hlaid : Laid w₀ w (d ++ [n]) done) (hsound : SoundPaths (done ++ files))
    (hdone : done.Pairwise (Compatible pid)) :
    (((writeFiles pid s files).eval k.answer w).1 = .ok () ↔
      (done ++ files).Pairwise (Compatible pid)) ∧
    (((writeFiles pid s files).eval k.answer w).1 = .ok () →
      Laid w₀ ((writeFiles pid s files).eval k.answer w).2 (d ++ [n]) (done ++ files)) := by
  induction files generalizing w done with
  | nil =>
    rw [List.append_nil]
    exact ⟨iff_of_true rfl hdone, fun _ => hlaid⟩
  | cons g files ih =>
    have hsplit : done ++ g :: files = done ++ [g] ++ files := by simp
    have hvalid : ∀ f ∈ done, validFilePath f.path = true :=
      fun f hf => hsound.valid f (List.mem_append_left _ hf)
    have hvalid' := hsound.valid g (List.mem_append_right _ List.mem_cons_self)
    rw [writeFiles, eval_bind]
    by_cases hg : ∀ f ∈ done, Compatible pid f g
    · obtain ⟨w', hw', hdir, hlaid'⟩ := write_compatible h hs hk hlaid hvalid' hg
      rw [hw', hsplit]
      refine ih hdir hlaid' (hsplit ▸ hsound) ?_
      refine List.pairwise_append.mpr ⟨hdone, List.pairwise_singleton _ _, fun f hf x hx => ?_⟩
      rw [List.mem_singleton.mp hx]
      exact hg f hf
    · obtain ⟨f, hf, hfg⟩ : ∃ f ∈ done, ¬ Compatible pid f g := by
        simpa using hg
      have hnew : ∀ f ∈ done, f.path ≠ g.path := by
        intro f hf heq
        have hdistinct := hsound.distinct
        rw [List.map_append, List.nodup_append] at hdistinct
        exact hdistinct.2.2 _ (List.mem_map_of_mem hf) _
          (List.mem_map_of_mem List.mem_cons_self) heq
      have hbad := write_incompatible h hs hk hlaid hvalid hvalid' hnew hf hfg
      have hnot : ¬ (done ++ g :: files).Pairwise (Compatible pid) := by
        intro hall
        exact hfg ((List.pairwise_append.mp hall).2.2 f hf g List.mem_cons_self)
      cases hrun : (writeEmbeddedFile pid g s).eval k.answer w with
      | mk r w' =>
        rw [hrun] at hbad
        cases r with
        | ok _ => exact absurd rfl hbad
        | error c => exact ⟨iff_of_false (fun hok => by cases hok) hnot, fun hok => by cases hok⟩

end AllFiles

section Siblings
variable {k : Kernel} {w : World} {s : Bytes} {d : Path} {n : Name}

def Vacant (t : Tree) (q : Path) : Prop := ∀ r, r ≠ [] → look t (q ++ r) = none

structure Written (w : World) (q : Path) (files : List EmbeddedFile)
    (res : Outcome × World) : Prop where
  succeeds : res.1 = .ok ()
  laid : Laid w res.2 q files

/-- `hm_materialize_files` writes an accepted set of files exactly if no path is a directory of
another and no path leads through what is the temporary name of a later one. -/
theorem materialize_files {x : Input} {evs : List Event} {p : Project}
    (hp : hmConfigParse x evs = .ok p) (pid : Nat) (h : Workdir k w.tree s d n)
    (hs : s.length ≤ HM_PATH_MAX) (hk : HM_PATH_MAX * 2 + 32 ≤ k.pathMax)
    (hempty : Vacant w.tree (d ++ [n])) :
    Written w (d ++ [n]) p.files ((hmMaterializeFiles pid p s).eval k.answer w) ↔
      p.files.Pairwise (Compatible pid) := by
  have hensure : (hmWorkdirEnsure s).eval k.answer w = (.ok (), w) := by
    obtain ⟨a, ha, -⟩ := h.dir
    have hmax : HM_PATH_MAX = 1023 := rfl
    have hlen : s.length < k.pathMax := by omega
    rw [hmWorkdirEnsure, eval_bind, mkdirP, if_neg, mkdirEach_exist (h.cut_exists hlen)]
    · dsimp only
      rw [eval_lstat, lstat_names h.named hlen, ha]
      rfl
    · rw [not_or]
      exact ⟨h.named.nonempty, by omega⟩
  have hlaid : Laid w w (d ++ [n]) [] :=
    ⟨fun f hf => absurd hf List.not_mem_nil, fun f hf => absurd hf List.not_mem_nil,
      fun r hr _ => hempty r hr, fun _ _ => rfl⟩
  obtain ⟨hiff, hrun⟩ := writeFiles_eval h hs hk hlaid (hmConfigParse_sound hp)
    (List.Pairwise.nil (R := Compatible pid))
  rw [List.nil_append] at hiff hrun
  rw [hmMaterializeFiles, eval_bind, hensure]
  exact ⟨fun hw => hiff.mp hw.succeeds, fun hall => ⟨hiff.mpr hall, hrun (hiff.mpr hall)⟩⟩

def pairInput (f g : Bytes) : Input where
  buf := ascii "command: t\nfiles:\n  " ++ f ++ ascii ": |\n    x\n  " ++ g ++ ascii ": |\n    y\n"
  origin := ascii "t.siml"

def pairEvents (f g : Bytes) : List Config.Event :=
  [.streamStart, .documentStart 1, .mappingStart 1, .scalar (ascii "command") (ascii "t") 1,
    .entryHeader (ascii "files") 2, .mappingStart 3, .blockStart f 3, .blockLine ⟨28 + f.length, 1⟩,
    .blockEnd, .blockStart g 5, .blockLine ⟨40 + f.length + g.length, 1⟩, .blockEnd, .mappingEnd 7,
    .mappingEnd 7, .documentEnd, .streamEnd]

def emptyWorld : World where
  tree := List.toAList [⟨[], .dir ⟨true, 0o755⟩⟩, ⟨[ascii "w"], .dir ⟨true, 0o700⟩⟩]
  opened := 3

theorem workdir_emptyWorld : Workdir linux emptyWorld.tree (ascii "/w") [] (ascii "w") := by
  have hproper : proper (ascii "w") = true := by decide
  refine ⟨⟨hproper, ⟨[], ?_, rfl⟩, by decide, by decide, by decide⟩,
    ⟨true, 0o700⟩, by decide, rfl, rfl⟩
  rw [show ascii "/w" = SLASH :: ascii "w" by decide, ← List.nil_append (SLASH :: ascii "w"),
    comps_append, comps_name hproper]
  rfl

theorem vacant_emptyWorld : Vacant emptyWorld.tree [ascii "w"] := by
  intro r hr
  by_contra hsome
  have hmem := AList.mem_keys.mp (mem_iff_look.mpr hsome)
  have hkeys : emptyWorld.tree.keys = [[], [ascii "w"]] := by decide
  rw [hkeys] at hmem
  simp [hr] at hmem

theorem materialize_siblings : ∃ p,
    hmConfigParse (pairInput (ascii "d/a") (ascii "d/b")) (pairEvents (ascii "d/a") (ascii "d/b")) =
      .ok p ∧ Written emptyWorld [ascii "w"] p.files
        ((hmMaterializeFiles 7 p (ascii "/w")).eval linux.answer emptyWorld) := by
  have hrun : (hmConfigParse (pairInput (ascii "d/a") (ascii "d/b"))
      (pairEvents (ascii "d/a") (ascii "d/b"))).map
        (fun p => decide (p.files.Pairwise (Compatible 7))) = .ok true := by decide +kernel
  cases hp : hmConfigParse (pairInput (ascii "d/a") (ascii "d/b"))
      (pairEvents (ascii "d/a") (ascii "d/b")) with
  | error msg =>
    rw [hp] at hrun
    cases hrun
  | ok p =>
    rw [hp] at hrun
    exact ⟨p, rfl, (materialize_files hp 7 workdir_emptyWorld (by decide) (by decide)
      vacant_emptyWorld).mpr (of_decide_eq_true (Except.ok.inj hrun))⟩

def Clash (pid : Nat) (f g : Bytes) : Prop :=
  ∃ p, hmConfigParse (pairInput f g) (pairEvents f g) = .ok p ∧
    ¬ Written emptyWorld [ascii "w"] p.files
    ((hmMaterializeFiles pid p (ascii "/w")).eval linux.answer emptyWorld)

theorem clash_of_run {pid : Nat} {f g : Bytes}
    (h : (hmConfigParse (pairInput f g) (pairEvents f g)).map (fun p =>
      ((hmMaterializeFiles pid p (ascii "/w")).eval linux.answer emptyWorld).1.isOk) = .ok false) :
    Clash pid f g := by
  unfold Clash
  cases hp : hmConfigParse (pairInput f g) (pairEvents f g) with
  | error msg =>
    rw [hp] at h
    cases h
  | ok p =>
    rw [hp] at h
    refine ⟨p, rfl, fun hwritten => ?_⟩
    have hok := Except.ok.inj h
    dsimp only at hok
    rw [hwritten.succeeds] at hok
    cases hok

/-- A file is where another one needs a directory, in either order, or has the temporary name of
a later one. -/
theorem clashing_files : Clash 7 (ascii "a") (ascii "a/b") ∧ Clash 7 (ascii "a/b") (ascii "a") ∧
    Clash 7 (ascii "a.tmp.7") (ascii "a") :=
  ⟨clash_of_run (by decide +kernel), clash_of_run (by decide +kernel),
    clash_of_run (by decide +kernel)⟩

end Siblings

end Hacman.WorkTree
