import Hacman.WorkTree

/-!
# Resetting the work directory

`remove_tree` changes nothing outside the tree it is called for. It gets to the end if the
directory above may be changed and the system can still open what lies deepest: every path
in the tree, as it is spelled from the work directory on, and one descriptor for each level.
-/

namespace Hacman.WorkTree
open Octets Util FileTree Interaction

section Shape
variable {k : Kernel} {t t' : Tree} {q : Path} {len opened : Nat}

/-- The bytes that names add to a path. -/
def spell (ns : List Name) : Nat := (ns.map fun n => n.length + 1).sum

/-- Everything at and below `q` can be named and, if it is a directory, opened; `q` is
spelled in `len` bytes, and it is opened beside `opened` others. -/
structure Fits (k : Kernel) (t : Tree) (len opened : Nat) (q : Path) : Prop where
  itself : len < k.pathMax
  path : ∀ r, q ++ r ∈ t → len + spell r < k.pathMax
  depth : ∀ r a, look t (q ++ r) = some (.dir a) → opened + r.length < k.openMax

theorem Fits.congr (h : ∀ r, look t' (q ++ r) = look t (q ++ r)) (hf : Fits k t len opened q) :
    Fits k t' len opened q := by
  refine ⟨hf.itself, fun r hr => hf.path r ?_, fun r a ha => hf.depth r a ?_⟩
  · rwa [mem_iff_look, h, ← mem_iff_look] at hr
  · rwa [h] at ha

theorem fits_leaf (ht : Tidy t) (hq : ∀ a, look t q ≠ some (.dir a)) :
    Fits k t len opened q ↔ len < k.pathMax := by
  refine ⟨Fits.itself, fun h => ⟨h, fun r hr => ?_, fun r a ha => ?_⟩⟩
  · cases r with
    | nil => exact h
    | cons m r =>
      obtain ⟨a, ha⟩ := ht.below_dir hr
      exact absurd ha (hq a)
  · cases r with
    | nil =>
      rw [List.append_nil] at ha
      exact absurd ha (hq a)
    | cons m r =>
      obtain ⟨a', ha'⟩ := ht.below_dir (mem_of_look ha)
      exact absurd ha' (hq a')

theorem fits_dir (ht : Tidy t) {a : Attr} (hq : look t q = some (.dir a)) :
    Fits k t len opened q ↔ len < k.pathMax ∧ opened < k.openMax ∧
      ∀ m, q ++ [m] ∈ t → Fits k t (len + (m.length + 1)) (opened + 1) (q ++ [m]) := by
  constructor
  · intro h
    refine ⟨h.itself, ?_, fun m hm => ⟨?_, fun r hr => ?_, fun r b hb => ?_⟩⟩
    · exact h.depth [] a (by rwa [List.append_nil])
    · exact h.path [m] hm
    · rw [List.append_assoc] at hr
      have hle := h.path _ hr
      rw [List.singleton_append, spell, List.map_cons, List.sum_cons] at hle
      rw [spell]
      omega
    · rw [List.append_assoc] at hb
      have hle := h.depth _ b hb
      rw [List.singleton_append, List.length_cons] at hle
      omega
  · rintro ⟨hlen, hopen, hchild⟩
    refine ⟨hlen, fun r hr => ?_, fun r b hb => ?_⟩
    · cases r with
      | nil => exact hlen
      | cons m r =>
        rw [← List.singleton_append, ← List.append_assoc] at hr
        have hle := (hchild m (ht.mem_prefix hr)).path r hr
        rw [spell, List.map_cons, List.sum_cons]
        rw [spell] at hle
        omega
    · cases r with
      | nil => exact hopen
      | cons m r =>
        rw [← List.singleton_append, ← List.append_assoc] at hb
        have hle := (hchild m (ht.mem_prefix (mem_of_look hb))).depth r b hb
        rw [List.length_cons]
        omega

/-- The string leads to the name without a look at anything at or below it. -/
def Spot (k : Kernel) (t : Tree) (s : Bytes) (d : Path) (n : Name) : Prop :=
  Names (without (look t) (d ++ [n])) k.linkMax k.cwd s d n

theorem Spot.congr {s : Bytes} {d : Path} {n : Name} (h : Spot k t s d n)
    (hout : ∀ x, ¬ d ++ [n] <+: x → look t' x = look t x) : Spot k t' s d n := by
  refine Names.mono h (.of_some fun p e hp => ?_)
  obtain ⟨hq, he⟩ := without_eq_some.mp hp
  exact without_eq_some.mpr ⟨hq, by rw [hout p hq, he]⟩

theorem Spot.names {s : Bytes} {d : Path} {n : Name} (h : Spot k t s d n) :
    Names (look t) k.linkMax k.cwd s d n :=
  Names.mono h (under_without fun _ _ => rfl)

theorem Spot.child {s : Bytes} {d : Path} {n m : Name} {a : Attr} (h : Spot k t s d n)
    (hd : look t (d ++ [n]) = some (.dir a)) (ha : a.allows SEARCH = true)
    (hm : proper m = true) : Spot k t (s ++ SLASH :: m) (d ++ [n]) m :=
  (Names.mono h (without_below _ m)).child
    (by rw [without_of (not_prefix_self _ m), hd]) ha hm

end Shape

section Runs
variable {k : Kernel} {w : World} {s : Bytes} {d : Path} {n : Name} {q : Path}

def Own (t : Tree) (q : Path) : Prop := ∀ r a, look t (q ++ r) = some (.dir a) → a.owned = true

/-- What holds after anything was removed at or below `q`, whether or not it went well. -/
structure Frame (w w' : World) (q : Path) : Prop where
  outside : ∀ x, ¬ q <+: x → look w'.tree x = look w.tree x
  dirs : ∀ x a, look w'.tree x = some (.dir a) → ∃ b, look w.tree x = some (.dir b) ∧
    b.owned = a.owned
  fewer : ∀ x, x ∈ w'.tree → x ∈ w.tree
  tidy : Tidy w'.tree

theorem Frame.refl (h : Tidy w.tree) : Frame w w q :=
  ⟨fun _ _ => rfl, fun _ a ha => ⟨a, ha, rfl⟩, fun _ hx => hx, h⟩

theorem Frame.trans {w' w'' : World} (h : Frame w w' q) (h' : Frame w' w'' q) : Frame w w'' q := by
  refine ⟨fun x hx => (h'.outside x hx).trans (h.outside x hx), fun x a ha => ?_,
    fun x hx => h.fewer x (h'.fewer x hx), h'.tidy⟩
  obtain ⟨b, hb, hba⟩ := h'.dirs x a ha
  obtain ⟨c, hc, hcb⟩ := h.dirs x b hb
  exact ⟨c, hc, hcb.trans hba⟩

theorem Frame.above {w' : World} {m : Name} (h : Frame w w' (q ++ [m])) : Frame w w' q :=
  ⟨fun x hx => h.outside x fun hm => hx ((List.prefix_append q [m]).trans hm), h.dirs,
    h.fewer, h.tidy⟩

theorem Frame.own {w' : World} {p : Path} (h : Frame w w' q) (ho : Own w.tree p) :
    Own w'.tree p := by
  intro r a ha
  obtain ⟨b, hb, hba⟩ := h.dirs _ a ha
  exact hba ▸ ho r b hb

/-- The result of a removal at `q`, spelled in `len` bytes: it is complete exactly if
everything fits and the directory above may be changed. -/
structure Removed (k : Kernel) (w : World) (len : Nat) (d : Path) (n : Name)
    (res : Outcome × World) : Prop where
  frame : Frame w res.2 (d ++ [n])
  opened : res.2.opened = w.opened
  done : res.1 = .ok () ↔ Fits k w.tree len w.opened (d ++ [n]) ∧
    (d ++ [n] ∈ w.tree → changeable w.tree d = true)
  gone : res.1 = .ok () → ∀ r, look res.2.tree (d ++ [n] ++ r) = none

structure Emptied (k : Kernel) (w : World) (len : Nat) (q : Path) (names : List Name)
    (res : Outcome × World) : Prop where
  frame : Frame w res.2 q
  same : look res.2.tree q = look w.tree q
  opened : res.2.opened = w.opened - 1
  done : res.1 = .ok () ↔ ∀ m ∈ names, proper m = true →
    Fits k w.tree (len + (m.length + 1)) w.opened (q ++ [m])
  gone : res.1 = .ok () → ∀ m ∈ names, proper m = true → ∀ r, look res.2.tree (q ++ [m] ++ r) = none

/-- The names in `q` that come after `m` are still there when `m` is gone. -/
theorem fits_after {w' : World} {m m' : Name} {len len' : Nat} (h : Frame w w' (q ++ [m]))
    (hgone : ∀ r, look w'.tree (q ++ [m] ++ r) = none)
    (hm : Fits k w.tree len w.opened (q ++ [m])) (hlen : m' = m → len' = len)
    (hopened : w'.opened = w.opened) :
    Fits k w'.tree len' w'.opened (q ++ [m']) ↔ Fits k w.tree len' w.opened (q ++ [m']) := by
  rw [hopened]
  by_cases heq : m' = m
  · subst heq
    refine iff_of_true ⟨?_, fun r hr => ?_, fun r a ha => ?_⟩ (hlen rfl ▸ hm)
    · exact hlen rfl ▸ hm.itself
    · exact absurd (hgone r) (mem_iff_look.mp hr)
    · rw [hgone r] at ha
      cases ha
  · have hsame : ∀ r, look w'.tree (q ++ [m'] ++ r) = look w.tree (q ++ [m'] ++ r) := by
      intro r
      refine h.outside _ fun hp => heq ?_
      rw [List.append_assoc, List.prefix_append_right_inj] at hp
      exact (List.cons_prefix_cons.mp hp).1.symm
    exact ⟨Fits.congr fun r => (hsame r).symm, Fits.congr hsame⟩

theorem removeEntries_spec {fuel : Nat} {a : Attr}
    (ih : ∀ w s d n, 0 < fuel → Spot k w.tree s d n → Tidy w.tree → Own w.tree (d ++ [n]) →
      (∀ x ∈ w.tree, x.length < (d ++ [n]).length + fuel) →
      Removed k w s.length d n ((removeTree fuel s).eval k.answer w))
    (hwrite : a.allows WRITE = true) (hsearch : a.allows SEARCH = true) (names : List Name)
    (hnames : ∀ m ∈ names, m = DOT ∨ m = DOTDOT ∨ proper m = true)
    (hfuel : ∀ m ∈ names, proper m = true → 0 < fuel)
    (hspot : Spot k w.tree s d n) (ht : Tidy w.tree) (ho : Own w.tree (d ++ [n]))
    (hdir : look w.tree (d ++ [n]) = some (.dir a))
    (hdepth : ∀ x ∈ w.tree, x.length < (d ++ [n]).length + 1 + fuel) :
    Emptied k w s.length (d ++ [n]) names
      ((removeEntries (removeTree fuel) s names).eval k.answer w) := by
  induction names generalizing w with
  | nil =>
    refine ⟨⟨fun _ _ => rfl, fun _ b hb => ⟨b, hb, rfl⟩, fun _ hx => hx, ht⟩, rfl, rfl, ?_, ?_⟩
    · exact iff_of_true rfl (fun m hm => absurd hm (List.not_mem_nil))
    · exact fun _ m hm => absurd hm (List.not_mem_nil)
  | cons m names ihn =>
    have hrest := fun m' hm' => hnames m' (List.mem_cons_of_mem _ hm')
    have hfuel' := fun m' hm' => hfuel m' (List.mem_cons_of_mem _ hm')
    rw [removeEntries, eval_readdir]
    dsimp only
    by_cases hdots : m = DOT ∨ m = DOTDOT
    · rw [if_pos hdots]
      have h := ihn hrest hfuel' hspot ht ho hdir hdepth
      have himproper : proper m ≠ true := by
        rcases hdots with rfl | rfl <;> decide
      refine ⟨h.frame, h.same, h.opened, ?_, fun hok => ?_⟩
      · rw [h.done, List.forall_mem_cons]
        exact ⟨fun hall => ⟨fun hm => absurd hm himproper, hall⟩, fun hall => hall.2⟩
      · exact List.forall_mem_cons.mpr ⟨fun hm => absurd hm himproper, h.gone hok⟩
    · rw [if_neg hdots]
      have hm : proper m = true := by
        rcases hnames m List.mem_cons_self with h | h | h
        · exact absurd (.inl h) hdots
        · exact absurd (.inr h) hdots
        · exact h
      have hchild := ih w (s ++ SLASH :: m) (d ++ [n]) m (hfuel m List.mem_cons_self hm)
        (hspot.child hdir hsearch hm) ht
        (fun r b hb => ho ([m] ++ r) b (by rwa [← List.append_assoc]))
        (fun x hx => by
          have hlt := hdepth x hx
          simp only [List.length_append, List.length_singleton] at hlt ⊢
          omega)
      rw [eval_bind]
      generalize (removeTree fuel (s ++ SLASH :: m)).eval k.answer w = res at hchild
      obtain ⟨r, w'⟩ := res
      have hlen : (s ++ SLASH :: m).length = s.length + (m.length + 1) := by simp
      have hchange : changeable w.tree (d ++ [n]) = true := by
        rw [changeable, grants, grants, hdir]
        exact Bool.and_eq_true_iff.mpr ⟨hwrite, hsearch⟩
      have hdone : r = .ok () ↔ Fits k w.tree (s.length + (m.length + 1)) w.opened
          (d ++ [n] ++ [m]) := by
        rw [← hlen]
        exact hchild.done.trans (and_iff_left fun _ => hchange)
      have hq : look w'.tree (d ++ [n]) = look w.tree (d ++ [n]) :=
        hchild.frame.outside _ (not_prefix_self _ m)
      cases r with
      | error c =>
        refine ⟨⟨hchild.frame.above.outside, hchild.frame.above.dirs, hchild.frame.above.fewer,
          hchild.frame.above.tidy⟩, hq, congrArg (· - 1) hchild.opened, ?_, fun hok => by cases hok⟩
        refine iff_of_false (fun hok => by cases hok) fun hall => ?_
        have hfits := hall m List.mem_cons_self hm
        cases hdone.mpr hfits
      | ok _ =>
        have hfits := hdone.mp rfl
        have hgone := hchild.gone rfl
        have hframe := hchild.frame
        have hopened := hchild.opened
        have hlook : look w'.tree (d ++ [n]) = some (.dir a) := hq.trans hdir
        have h := ihn (w := w') hrest hfuel' (hspot.congr hframe.above.outside) hframe.tidy
          (hframe.own ho) hlook (fun x hx => hdepth x (hframe.fewer x hx))
        have hafter : ∀ m', Fits k w'.tree (s.length + (m'.length + 1)) w'.opened
            (d ++ [n] ++ [m']) ↔
            Fits k w.tree (s.length + (m'.length + 1)) w.opened (d ++ [n] ++ [m']) := fun m' =>
          fits_after hframe hgone hfits (fun heq => by rw [heq]) hopened
        refine ⟨hframe.above.trans h.frame, h.same.trans hq,
          h.opened.trans (congrArg (· - 1) hopened),
          ?_, fun hok => List.forall_mem_cons.mpr ⟨fun _ r => ?_, h.gone hok⟩⟩
        · rw [h.done, List.forall_mem_cons]
          refine ⟨fun hall => ⟨fun _ => hfits, fun m' hm' hp => (hafter m').mp (hall m' hm' hp)⟩,
            fun hall m' hm' hp => (hafter m').mpr (hall.2 m' hm' hp)⟩
        · by_contra hne
          obtain hmem := h.frame.fewer _ (mem_iff_look.mpr hne)
          exact mem_iff_look.mp hmem (hgone r)

theorem Frame.erase {p : Path} (ht : Tidy w.tree) (hleaf : ∀ m, p ++ [m] ∉ w.tree) :
    Frame w { w with tree := w.tree.erase p } p := by
  refine ⟨fun x hx => ?_, fun x a ha => ?_, fun x hx => (AList.mem_erase.mp hx).2, ht.erase hleaf⟩
  · rw [look_erase, if_neg]
    rintro rfl
    exact hx List.prefix_rfl
  · rw [look_erase] at ha
    split_ifs at ha
    exact ⟨a, ha, rfl⟩

theorem Frame.set_dir {p : Path} {a b : Attr} (ht : Tidy w.tree)
    (hp : look w.tree p = some (.dir a))
    (hb : b.owned = a.owned) : Frame w { w with tree := w.tree.insert p (.dir b) } p := by
  refine ⟨fun x hx => ?_, fun x c hc => ?_, fun x hx => ?_, ht.set_dir hp⟩
  · rw [look_insert, if_neg]
    rintro rfl
    exact hx List.prefix_rfl
  · rw [look_insert] at hc
    split_ifs at hc with hxp
    · obtain rfl : b = c := by injection Option.some.inj hc
      exact ⟨a, hxp ▸ hp, hb.symm⟩
    · exact ⟨c, hc, rfl⟩
  · rcases (AList.mem_insert w.tree).mp hx with rfl | hx
    · exact mem_of_look hp
    · exact hx

theorem below_none {t : Tree} (ht : Tidy t) (hq : look t q = none) (r : Path) :
    look t (q ++ r) = none := by
  by_contra hne
  exact mem_iff_look.mp (ht.mem_prefix (mem_iff_look.mpr hne)) hq

theorem below_erased {t : Tree} (ht : Tidy t) (hleaf : ∀ m, q ++ [m] ∉ t) (r : Path) :
    look (t.erase q) (q ++ r) = none :=
  below_none (ht.erase hleaf) (by rw [look_erase, if_pos rfl]) r

theorem grants_outside {w' : World} (h : Frame w w' (d ++ [n])) :
    changeable w'.tree d = changeable w.tree d := by
  rw [changeable, changeable, grants, grants, grants, grants, h.outside d (not_prefix_self d n)]

theorem allows_owner {a : Attr} (ho : a.owned = true) {bit : Nat} (hbit : bit < 3)
    (hm : a.mode &&& S_IRWXU = S_IRWXU) : a.allows bit = true := by
  rw [Attr.allows, if_pos ho]
  have h := congrArg (·.testBit (bit + 6)) hm
  rw [Nat.testBit_and] at h
  have hall : ∀ bit < 3, S_IRWXU.testBit (bit + 6) = true := by decide
  rw [hall bit hbit, Bool.and_true] at h
  exact h

theorem eval_restoreMode {α : Type} {a : Attr} (hspot : Spot k w.tree s d n) (ht : Tidy w.tree)
    (ho : Own w.tree (d ++ [n])) (hlen : s.length < k.pathMax)
    (hdir : look w.tree (d ++ [n]) = some (.dir a)) (f : Except Errno Unit → F α) :
    ∃ w' b, Frame w w' (d ++ [n]) ∧ w'.opened = w.opened ∧
      look w'.tree (d ++ [n]) = some (.dir b) ∧ (∀ bit < 3, b.allows bit = true) ∧
      (∀ m r, look w'.tree (d ++ [n] ++ m :: r) = look w.tree (d ++ [n] ++ m :: r)) ∧
      (restoreMode s a.mode >>= f).eval k.answer w = (f (.ok ())).eval k.answer w' := by
  have howned : a.owned = true := ho [] a (by rwa [List.append_nil])
  by_cases hmode : a.mode &&& S_IRWXU = S_IRWXU
  · refine ⟨w, a, .refl ht, rfl, hdir, fun bit hbit => allows_owner howned hbit hmode,
      fun _ _ => rfl, ?_⟩
    rw [restoreMode, if_neg (not_not.mpr hmode)]
    rfl
  · refine ⟨_, { a with mode := a.mode ||| S_IRWXU },
      .set_dir (b := { a with mode := a.mode ||| S_IRWXU }) ht hdir rfl, rfl, ?_,
      fun bit hbit => ?_,
      fun m r => ?_, ?_⟩
    · rw [look_insert, if_pos rfl]
    · refine allows_owner (a := { a with mode := a.mode ||| S_IRWXU }) howned hbit ?_
      dsimp only
      rw [Nat.and_or_distrib_right, Nat.and_self]
      refine Nat.eq_of_testBit_eq fun i => ?_
      rw [Nat.testBit_or, Nat.testBit_and]
      cases S_IRWXU.testBit i <;> simp
    · rw [look_insert, if_neg]
      intro h
      simpa using congrArg List.length h
    · rw [restoreMode, if_pos hmode]
      exact eval_chmod_ok (chmod_names hspot.names hlen hdir howned _) f

theorem removeTree_leaf {fuel : Nat} {e : Entry} (hspot : Spot k w.tree s d n) (ht : Tidy w.tree)
    (hlen : s.length < k.pathMax) (he : look w.tree (d ++ [n]) = some e)
    (hfile : (statOf e).isDir = false) :
    Removed k w s.length d n ((removeTree (fuel + 1) s).eval k.answer w) := by
  have hnodir : ∀ a, look w.tree (d ++ [n]) ≠ some (.dir a) := by
    intro a ha
    rw [he] at ha
    rw [Option.some.inj ha] at hfile
    cases hfile
  have hleaf : ∀ m, d ++ [n] ++ [m] ∉ w.tree := by
    intro m hm
    obtain ⟨a, ha⟩ := ht.parent _ _ hm
    exact hnodir a ha
  have hfits : Fits k w.tree s.length w.opened (d ++ [n]) := (fits_leaf ht hnodir).mpr hlen
  rw [removeTree, eval_lstat, lstat_names hspot.names hlen, he]
  dsimp only [Option.elim, Except.map]
  rw [if_neg (by rw [hfile]; exact Bool.false_ne_true)]
  have hunlink := unlink_names (k := k) (f := .cwd) hspot.names hlen he hfile
  by_cases hch : changeable w.tree d = true
  · rw [if_pos hch] at hunlink
    rw [eval_unlink_ok hunlink]
    exact ⟨.erase ht hleaf, rfl, iff_of_true rfl ⟨hfits, fun _ => hch⟩,
      fun _ => below_erased ht hleaf⟩
  · rw [if_neg hch] at hunlink
    rw [eval_unlink_error hunlink]
    exact ⟨.refl ht, rfl, iff_of_false (fun h => by cases h) fun h => hch (h.2 (mem_of_look he)),
      fun h => by cases h⟩

theorem removeTree_dir {fuel : Nat} {a : Attr}
    (ih : ∀ w s d n, 0 < fuel → Spot k w.tree s d n → Tidy w.tree → Own w.tree (d ++ [n]) →
      (∀ x ∈ w.tree, x.length < (d ++ [n]).length + fuel) →
      Removed k w s.length d n ((removeTree fuel s).eval k.answer w))
    (hspot : Spot k w.tree s d n) (ht : Tidy w.tree) (ho : Own w.tree (d ++ [n]))
    (hdepth : ∀ x ∈ w.tree, x.length < (d ++ [n]).length + (fuel + 1))
    (hlen : s.length < k.pathMax) (hdir : look w.tree (d ++ [n]) = some (.dir a)) :
    Removed k w s.length d n ((removeTree (fuel + 1) s).eval k.answer w) := by
  have hfits : Fits k w.tree s.length w.opened (d ++ [n]) ↔ _ := fits_dir ht hdir
  rw [removeTree, eval_lstat, lstat_names hspot.names hlen, hdir]
  dsimp only [Option.elim, Except.map, statOf]
  rw [if_pos rfl]
  obtain ⟨w₁, b, hframe₁, hopened₁, hdir₁, hallows, hbelow₁, hrun⟩ :=
    eval_restoreMode hspot ht ho hlen hdir _
  rw [hrun]
  dsimp only
  have hspot₁ := hspot.congr hframe₁.outside
  -- the entries below are untouched by the change of mode
  have hchild : ∀ m, Fits k w₁.tree (s.length + (m.length + 1)) (w.opened + 1) (d ++ [n] ++ [m]) ↔
      Fits k w.tree (s.length + (m.length + 1)) (w.opened + 1) (d ++ [n] ++ [m]) := by
    intro m
    have hsame : ∀ r, look w₁.tree (d ++ [n] ++ [m] ++ r) = look w.tree (d ++ [n] ++ [m] ++ r) := by
      intro r
      rw [List.append_assoc (d ++ [n])]
      exact hbelow₁ m r
    exact ⟨Fits.congr fun r => (hsame r).symm, Fits.congr hsame⟩
  have hopen : k.openDir w₁.tree .cwd s false = .ok (d ++ [n]) :=
    openDir_names (f := .cwd) hspot₁.names hlen hdir₁ (hallows READ (by decide)) false
  by_cases hmax : k.openMax ≤ w₁.opened
  · have hopendir : k.opendir w₁ s = .error .mfile := by
      rw [Kernel.opendir, hopen]
      exact if_pos hmax
    rw [eval_opendir_error hopendir]
    refine ⟨hframe₁, hopened₁, iff_of_false (fun h => by cases h) fun h => ?_, fun h => by cases h⟩
    have hlt := (hfits.mp h.1).2.1
    omega
  · have hopendir : k.opendir w₁ s = .ok (k.names w₁.tree (d ++ [n])) := by
      rw [Kernel.opendir, hopen]
      exact if_neg hmax
    rw [eval_opendir_ok hopendir]
    dsimp only
    have hnames : ∀ m ∈ k.names w₁.tree (d ++ [n]), proper m = true →
        d ++ [n] ++ [m] ∈ w₁.tree := by
      intro m hm hp
      obtain ⟨-, hdot, hdotdot, -⟩ := proper_iff.mp hp
      exact (((k.mem_names _ _ _).mp hm).resolve_left hdot).resolve_left hdotdot
    have hloop := removeEntries_spec (w := { w₁ with opened := w₁.opened + 1 }) ih
      (hallows WRITE (by decide)) (hallows SEARCH (by decide)) (k.names w₁.tree (d ++ [n]))
      (fun m hm => ((k.mem_names _ _ _).mp hm).imp_right (·.imp_right (hframe₁.tidy.names _ _)))
      (fun m hm hp => by
        have hlt := hdepth _ (hframe₁.fewer _ (hnames m hm hp))
        simp only [List.length_append, List.length_singleton] at hlt
        omega)
      hspot₁ hframe₁.tidy (hframe₁.own ho) hdir₁
      (fun x hx => by
        have hlt := hdepth _ (hframe₁.fewer _ hx)
        omega)
    rw [eval_bind]
    generalize (removeEntries (removeTree fuel) s (k.names w₁.tree (d ++ [n]))).eval k.answer
      { w₁ with opened := w₁.opened + 1 } = res at hloop
    obtain ⟨r, w₂⟩ := res
    have hframe₂ : Frame w w₂ (d ++ [n]) := hframe₁.trans
      ⟨hloop.frame.outside, hloop.frame.dirs, hloop.frame.fewer, hloop.frame.tidy⟩
    have hopened₂ : w₂.opened = w.opened := by
      have h := hloop.opened
      dsimp only at h
      omega
    have hdone : r = .ok () ↔ Fits k w.tree s.length w.opened (d ++ [n]) := by
      have h := hloop.done
      dsimp only at h
      rw [h, hfits, hopened₁]
      refine ⟨fun hall => ⟨hlen, by omega, fun m hm => ?_⟩, fun hall m hm hp => ?_⟩
      · have hp := ht.names _ _ hm
        have hm₁ : d ++ [n] ++ [m] ∈ w₁.tree := by
          rw [mem_iff_look, hbelow₁ m [], ← mem_iff_look]
          exact hm
        exact (hchild m).mp (hall m ((k.mem_names _ _ _).mpr (.inr (.inr hm₁))) hp)
      · exact (hchild m).mpr (hall.2.2 m (hframe₁.fewer _ (hnames m hm hp)))
    cases r with
    | error c =>
      refine ⟨hframe₂, hopened₂, iff_of_false (fun h => by cases h) fun h => ?_,
        fun h => by cases h⟩
      cases hdone.mpr h.1
    | ok _ =>
      have hdir₂ : look w₂.tree (d ++ [n]) = some (.dir b) := hloop.same.trans hdir₁
      have hleaf : ∀ m, d ++ [n] ++ [m] ∉ w₂.tree := by
        intro m hm
        have hp := hframe₂.tidy.names _ _ hm
        have hin := (k.mem_names w₁.tree (d ++ [n]) m).mpr (.inr (.inr (hloop.frame.fewer _ hm)))
        have hnone := hloop.gone rfl m hin hp []
        rw [List.append_nil] at hnone
        exact mem_iff_look.mp hm hnone
      have hempty : k.empty w₂.tree (d ++ [n]) = true := by
        refine List.all_eq_true.mpr fun m hm => ?_
        rcases (k.mem_names _ _ _).mp hm with rfl | rfl | hin
        · rfl
        · rfl
        · exact absurd hin (hleaf m)
      have hspot₂ := hspot.congr hframe₂.outside
      have hrmdir := rmdir_names (k := k) hspot₂.names hlen hdir₂ hempty
      rw [grants_outside hframe₂] at hrmdir
      by_cases hch : changeable w.tree d = true
      · rw [if_pos hch] at hrmdir
        dsimp only
        rw [eval_rmdir_ok hrmdir]
        exact ⟨hframe₂.trans (.erase hframe₂.tidy hleaf), hopened₂,
          iff_of_true rfl ⟨hdone.mp rfl, fun _ => hch⟩, fun _ => below_erased hframe₂.tidy hleaf⟩
      · rw [if_neg hch] at hrmdir
        dsimp only
        rw [eval_rmdir_error hrmdir]
        exact ⟨hframe₂, hopened₂,
          iff_of_false (fun h => by cases h) fun h => hch (h.2 (mem_of_look hdir)),
          fun h => by cases h⟩

/-- What `remove_tree` leaves of any tree, with enough fuel for its depth. -/
theorem removeTree_spec {fuel : Nat} (hfuel : 0 < fuel) (hspot : Spot k w.tree s d n)
    (ht : Tidy w.tree) (ho : Own w.tree (d ++ [n]))
    (hdepth : ∀ x ∈ w.tree, x.length < (d ++ [n]).length + fuel) :
    Removed k w s.length d n ((removeTree fuel s).eval k.answer w) := by
  induction fuel generalizing w s d n with
  | zero => exact absurd hfuel (Nat.lt_irrefl 0)
  | succ fuel ih =>
    by_cases hlen : s.length < k.pathMax
    · cases hq : look w.tree (d ++ [n]) with
      | none =>
        rw [removeTree, eval_lstat, lstat_names hspot.names hlen, hq]
        refine ⟨.refl ht, rfl, iff_of_true rfl ⟨?_, fun hm => absurd hq (mem_iff_look.mp hm)⟩,
          fun _ => below_none ht hq⟩
        refine (fits_leaf ht fun a ha => ?_).mpr hlen
        rw [hq] at ha
        cases ha
      | some e =>
        cases e with
        | dir a =>
          exact removeTree_dir (fun w s d n hf hs ht ho hd => ih hf hs ht ho hd) hspot ht ho hdepth
            hlen hq
        | file a content => exact removeTree_leaf hspot ht hlen hq rfl
        | link target => exact removeTree_leaf hspot ht hlen hq rfl
    · have hlstat : k.lstat w.tree s = .error .nametoolong := by
        rw [Kernel.lstat, locate_long hspot.nonempty (Nat.not_lt.mp hlen)]
        rfl
      rw [removeTree, eval_lstat, hlstat]
      exact ⟨.refl ht, rfl, iff_of_false (fun h => by cases h) fun h => hlen h.1.itself,
        fun h => by cases h⟩

end Runs

section TakenAway
variable {k : Kernel} {w : World} {s : Bytes} {d : Path} {n : Name} {q : Path}

structure TakenAway (w : World) (q : Path) (res : Outcome × World) : Prop where
  succeeds : res.1 = .ok ()
  gone : ∀ r, look res.2.tree (q ++ r) = none
  outside : ∀ x, ¬ q <+: x → look res.2.tree x = look w.tree x

/-- `hm_workdir_reset` takes away the work directory exactly if everything in it fits and its
name can be taken out of the directory above. Anything else is never touched. -/
theorem workdir_reset (fuel : Nat) (ht : Tidy w.tree) (hdepth : ∀ x ∈ w.tree, x.length < fuel) :
    (∀ d n, Spot k w.tree s d n → Own w.tree (d ++ [n]) →
      (TakenAway w (d ++ [n]) ((hmWorkdirReset (fuel + 1) s).eval k.answer w) ↔
        Fits k w.tree s.length w.opened (d ++ [n]) ∧
          (d ++ [n] ∈ w.tree → changeable w.tree d = true)) ∧
      ∀ x, ¬ d ++ [n] <+: x →
        look ((hmWorkdirReset (fuel + 1) s).eval k.answer w).2.tree x = look w.tree x) ∧
    (k.lstat w.tree s = .error .noent →
      (hmWorkdirReset (fuel + 1) s).eval k.answer w = (.ok (), w)) := by
  refine ⟨fun d n hspot ho => ?_, fun hmissing => ?_⟩
  · have h := removeTree_spec (Nat.succ_pos fuel) hspot ht ho fun x hx => by
      have hlt := hdepth x hx
      omega
    refine ⟨⟨fun hgone => h.done.mp hgone.succeeds, fun hfits => ?_⟩, h.frame.outside⟩
    have hok := h.done.mpr hfits
    exact ⟨hok, h.gone hok, h.frame.outside⟩
  · rw [hmWorkdirReset, removeTree, eval_lstat, hmissing]
    rfl

def fits (k : Kernel) (t : Tree) (len opened : Nat) (q : Path) : Bool :=
  len < k.pathMax && t.keys.all fun x => !q.isPrefixOf x ||
    len + spell (x.drop q.length) < k.pathMax && opened + (x.length - q.length) < k.openMax

theorem Fits.of_keys {t : Tree} {len opened : Nat} (h : fits k t len opened q = true) :
    Fits k t len opened q := by
  obtain ⟨hlen, hkeys⟩ := Bool.and_eq_true_iff.mp h
  have hkey : ∀ r, q ++ r ∈ t → len + spell r < k.pathMax ∧ opened + r.length < k.openMax := by
    intro r hr
    have hx := List.all_eq_true.mp hkeys _ (AList.mem_keys.mp hr)
    rw [List.isPrefixOf_iff_prefix.mpr (List.prefix_append q r), List.drop_left,
      List.length_append, Nat.add_sub_cancel_left] at hx
    simpa using hx
  exact ⟨of_decide_eq_true hlen, fun r hr => (hkey r hr).1,
    fun r a ha => (hkey r (mem_of_look ha)).2⟩

def readOnlyWorld : World where
  tree := List.toAList [
    ⟨[], .dir ⟨true, 0o755⟩⟩,
    ⟨[ascii "etc"], .dir ⟨false, 0o755⟩⟩,
    ⟨[ascii "etc", ascii "f"], .file ⟨false, 0o644⟩ []⟩,
    ⟨[ascii "w"], .dir ⟨true, 0o500⟩⟩,
    ⟨[ascii "w", ascii "a"], .dir ⟨true, 0o000⟩⟩,
    ⟨[ascii "w", ascii "a", ascii "f"], .file ⟨true, 0o400⟩ []⟩,
    ⟨[ascii "w", ascii "a", ascii "l"], .link (ascii "/etc")⟩]
  opened := 3

theorem own_of_keys {t : Tree}
    (h : (t.keys.all fun x => !q.isPrefixOf x || (look t x).all fun e =>
      match e with
      | .dir a => a.owned
      | _ => true) = true) : Own t q := by
  intro r a ha
  have hx := List.all_eq_true.mp h _ (AList.mem_keys.mp (mem_of_look ha))
  rw [List.isPrefixOf_iff_prefix.mpr (List.prefix_append q r), ha] at hx
  simpa using hx

theorem spot_below_root {t : Tree} {n : Name} (hn : proper n = true)
    (hroot : grants (without (look t) [n]) [] SEARCH = true) : Spot k t (SLASH :: n) [] n :=
  ⟨hn, ⟨[], by rw [← List.nil_append (SLASH :: n), comps_append, comps_name hn]; rfl, rfl⟩,
    List.cons_ne_nil _ _, trailing_append [] hn, hroot⟩

theorem workdir_reset_read_only : TakenAway readOnlyWorld [ascii "w"]
    ((hmWorkdirReset 5 (ascii "/w")).eval linux.answer readOnlyWorld) :=
  ((workdir_reset 4 (Tidy.of_keys (by decide +kernel)) (by decide +kernel)).1 [] (ascii "w")
    (spot_below_root (by decide +kernel) (by decide +kernel))
    (own_of_keys (by decide +kernel))).1.mpr
      ⟨Fits.of_keys (by decide +kernel), fun _ => by decide +kernel⟩

def deepPath (i : Nat) : Path := ascii "w" :: List.replicate i (List.replicate 255 97)

def deepTree : Nat → Tree
  | 0 => (AList.singleton [] (.dir ⟨true, 0o700⟩)).insert (deepPath 0) (.dir ⟨true, 0o700⟩)
  | i + 1 => (deepTree i).insert (deepPath (i + 1)) (.dir ⟨true, 0o700⟩)

theorem mem_deepTree {i : Nat} {x : Path} : x ∈ deepTree i ↔ x = [] ∨ ∃ j ≤ i, x = deepPath j := by
  induction i with
  | zero =>
    rw [deepTree, AList.mem_insert, AList.mem_keys, AList.keys_singleton,
      List.mem_singleton, or_comm]
    simp
  | succ i ih =>
    rw [deepTree, AList.mem_insert, ih, or_left_comm]
    refine or_congr_right ⟨?_, ?_⟩
    · rintro (rfl | ⟨j, hj, rfl⟩)
      · exact ⟨i + 1, Nat.le_refl _, rfl⟩
      · exact ⟨j, Nat.le_succ_of_le hj, rfl⟩
    · rintro ⟨j, hj, rfl⟩
      rcases Nat.le_succ_iff.mp hj with hj | rfl
      · exact .inr ⟨j, hj, rfl⟩
      · exact .inl rfl

theorem look_deepTree {i : Nat} {x : Path} (hx : x ∈ deepTree i) :
    look (deepTree i) x = some (.dir ⟨true, 0o700⟩) := by
  induction i with
  | zero =>
    rw [deepTree, look_insert]
    split_ifs with h
    · rfl
    · rw [deepTree, AList.mem_insert, or_iff_right h, AList.mem_keys, AList.keys_singleton,
        List.mem_singleton] at hx
      rw [hx]
      rfl
  | succ i ih =>
    rw [deepTree, look_insert]
    split_ifs with h
    · rfl
    · rw [deepTree, AList.mem_insert, or_iff_right h] at hx
      exact ih hx

theorem tidy_deepTree (i : Nat) : Tidy (deepTree i) := by
  have hin : ∀ d n, d ++ [n] ∈ deepTree i → proper n = true ∧ d ∈ deepTree i := by
    intro d n hx
    obtain h | ⟨j, hj, h⟩ := mem_deepTree.mp hx
    · exact absurd h (by simp)
    · cases j with
      | zero =>
        have h : d ++ [n] = [] ++ [ascii "w"] := h
        obtain ⟨rfl, hn⟩ := List.append_inj' h rfl
        obtain rfl := List.singleton_inj.mp hn
        exact ⟨by decide +kernel, mem_deepTree.mpr (.inl rfl)⟩
      | succ j =>
        rw [deepPath, List.replicate_succ', ← List.cons_append] at h
        obtain ⟨rfl, hn⟩ := List.append_inj' h rfl
        obtain rfl := List.singleton_inj.mp hn
        exact ⟨by decide +kernel, mem_deepTree.mpr (.inr ⟨j, Nat.le_of_succ_le hj, rfl⟩)⟩
  exact ⟨fun d n hx => ⟨_, look_deepTree (hin d n hx).2⟩, fun d n hx => (hin d n hx).1⟩

theorem own_deepTree (i : Nat) (q : Path) : Own (deepTree i) q := by
  intro r a ha
  rw [look_deepTree (mem_of_look ha)] at ha
  injection Option.some.inj ha with ha
  exact ha ▸ rfl

/-- Seventeen levels can be too deep: their paths do not fit into a call. -/
theorem deep_tree_stays : Tidy (deepTree 16) ∧ Own (deepTree 16) [ascii "w"] ∧
    Spot linux (deepTree 16) (ascii "/w") [] (ascii "w") ∧ changeable (deepTree 16) [] = true ∧
    ∀ fuel, (∀ x ∈ deepTree 16, x.length < fuel) → ¬ TakenAway ⟨deepTree 16, 3⟩ [ascii "w"]
      ((hmWorkdirReset fuel (ascii "/w")).eval linux.answer ⟨deepTree 16, 3⟩) := by
  have hroot : look (deepTree 16) [] = some (.dir ⟨true, 0o700⟩) :=
    look_deepTree (mem_deepTree.mpr (.inl rfl))
  have hown := own_deepTree 16 [ascii "w"]
  have hspot : Spot linux (deepTree 16) (ascii "/w") [] (ascii "w") := by
    refine spot_below_root (by decide) ?_
    rw [grants, without_of (by simp), hroot]
    rfl
  refine ⟨tidy_deepTree 16, hown, hspot, ?_, fun fuel hdepth hgone => ?_⟩
  · rw [changeable, grants, grants, hroot]
    rfl
  · have hfuel := hdepth [] (mem_deepTree.mpr (.inl rfl))
    have h := removeTree_spec (w := ⟨deepTree 16, 3⟩) (k := linux) hfuel hspot (tidy_deepTree 16)
      hown fun x hx => Nat.lt_of_lt_of_le (hdepth x hx) (Nat.le_add_left _ _)
    have hpath := (h.done.mp hgone.succeeds).1.path (List.replicate 16 (List.replicate 255 97))
      (mem_deepTree.mpr (.inr ⟨16, Nat.le_refl _, rfl⟩))
    exact absurd hpath (by decide +kernel)

end TakenAway

end Hacman.WorkTree
