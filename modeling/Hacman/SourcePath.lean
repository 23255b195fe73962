import Hacman.Materialize
import Hacman.Sharing

/-!
# The path of an open source file

An embedded project is addressed by the path of its file. A spelling that a scan takes for
canonical and that opens without a symbolic link is used as it stands; for every other one
the kernel is asked where the open file is.
-/

namespace Hacman.SourcePath
open Octets Util Cache Config FileTree Main Sharing

section Scan

def plainName (name : Bytes) : Bool := name ≠ [] && name ≠ DOT && name ≠ DOTDOT

/-- The loop of `open_source`: the rounds left, the component read so far, and what is
still to be read. -/
def scanFrom : Nat → Bytes → Bytes → Bool
  | 0, _, _ => false
  | _ + 1, name, [] => plainName name
  | rounds + 1, name, b :: rest =>
    if b ≠ SLASH then scanFrom rounds (name ++ [b]) rest
    else if plainName name then scanFrom rounds [] rest
    else false

def lexicallyCanonical (path : Bytes) : Bool :=
  match path with
  | [] => false
  | b :: rest => b = SLASH && scanFrom HM_PATH_MAX [] rest

theorem scanFrom_iff {rounds : Nat} {name rest : Bytes} (h : SLASH ∉ name) :
    scanFrom rounds name rest = true ↔
      rest.length < rounds ∧ ∀ n ∈ fields SLASH (name ++ rest), plainName n = true := by
  induction rest generalizing rounds name with
  | nil =>
    rw [List.append_nil, fields_of_notMem h]
    cases rounds with
    | zero => simp [scanFrom]
    | succ rounds => simp [scanFrom]
  | cons b rest ih =>
    cases rounds with
    | zero => simp [scanFrom]
    | succ rounds =>
      rw [scanFrom, List.length_cons, Nat.add_lt_add_iff_right]
      by_cases hb : b = SLASH
      · subst hb
        rw [if_neg (by simp), fields_append, fields_of_notMem h, List.singleton_append,
          List.forall_mem_cons]
        by_cases hname : plainName name = true
        · rw [if_pos hname, ih List.not_mem_nil, List.nil_append]
          tauto
        · rw [if_neg hname]
          tauto
      · have hslash : SLASH ∉ name ++ [b] := by
          rw [List.mem_append, List.mem_singleton, not_or]
          exact ⟨h, Ne.symm hb⟩
        rw [if_pos hb, ih hslash, List.append_assoc, List.singleton_append]

/-- The scan takes exactly the absolute spellings within the limit that have no empty and
no dot component. -/
theorem lexicallyCanonical_eq (path : Bytes) :
    lexicallyCanonical path = canonicalSpelling path := by
  cases path with
  | nil => rfl
  | cons b rest =>
    rw [Bool.eq_iff_iff]
    simp only [lexicallyCanonical, canonicalSpelling, plainName, Bool.and_eq_true,
      scanFrom_iff List.not_mem_nil, List.nil_append, List.all_eq_true, decide_eq_true_eq,
      List.head?_cons, Option.some.injEq, List.tail_cons, List.length_cons,
      Nat.succ_le_iff, and_assoc]
    rfl

end Scan

section Opening

def canonical (p : Path) : Bytes := if p = [] then [SLASH] else p.flatMap (SLASH :: ·)

variable (k : Kernel) (t : Tree)

/-- The entry behind a string; a slash at its end asks for a directory. -/
def resolve (s : Bytes) : Except Errno Path :=
  (k.locate t .cwd s).bind fun place => (follow (look t) k.linkMax place).bind fun p =>
    match look t p with
    | none => .error .noent
    | some (.dir _) => .ok p
    | some _ => if trailing s then .error .notdir else .ok p

def openRead (s : Bytes) : Except Errno Path :=
  (resolve k t s).bind fun p =>
    match look t p with
    | some (.dir a) | some (.file a _) => if a.allows READ then .ok p else .error .acces
    | _ => .error .noent

/-- The calls that a source file is opened and found with. `openat2` may be missing, and
where it succeeds no link was followed; procfs may be missing, and where it answers it
gives the path of the open file. -/
structure System where
  openat2 : Bytes → Except Errno Path
  procfs : Path → Option Bytes
  openat2_ok : ∀ s p, openat2 s = .ok p → openRead { k with linkMax := 0 } t s = .ok p
  procfs_some : ∀ p text, procfs p = some text → text = canonical p

def realpath (file : Bytes) : Option Bytes :=
  match resolve k t file with
  | .error _ => none
  | .ok p => if (canonical p).length < k.pathMax then some (canonical p) else none

variable {k t} (sys : System k t)

/-- The descriptor, and whether the spelling is known to be canonical. -/
def openSource (path : Bytes) : Except Errno Path × Bool :=
  if lexicallyCanonical path then
    match sys.openat2 path with
    | .ok fd => (.ok fd, true)
    | .error _ => (openRead k t path, false)
  else (openRead k t path, false)

/-- What procfs appends for a file that is no longer there. -/
def deleted : Bytes := ascii " (deleted)"

/-- The link is read into a buffer of `HM_PATH_MAX + 1` bytes; a full one may be cut off. -/
def readSourceLink (fd : Path) : Option Bytes :=
  ((sys.procfs fd).map (·.take (HM_PATH_MAX + 1))).filter fun text =>
    text ≠ [] && text.length < HM_PATH_MAX + 1 && text.head? =
      some SLASH && !deleted.isSuffixOf text

def resolveSourcePath (fd : Path) (file : Bytes) : Option Bytes :=
  (readSourceLink sys fd).orElse fun _ => realpath k t file

end Opening

section Canonical
variable {k : Kernel} {t : Tree} (sys : System k t)

theorem enter_zero {see : Path → Option Entry} {d p : Path} {n : Name} (hn : proper n = true)
    (h : enter see 0 d n = .ok p) : p = d ++ [n] ∧ ∀ links, enter see links d n = .ok p := by
  obtain ⟨-, hdot, hdotdot, -⟩ := proper_iff.mp hn
  have hgrants := enter_grants h
  rw [enter_eq, if_neg hdot, if_neg hdotdot] at h
  split_ifs at h
  cases hsee : see (d ++ [n]) with
  | none =>
    rw [hsee] at h
    cases h
  | some e =>
    rw [hsee] at h
    cases e with
    | dir a =>
      obtain rfl := Except.ok.inj h
      exact ⟨rfl, fun links => enter_dir hgrants hn hsee⟩
    | file a content => cases h
    | link target => cases h

theorem walk_zero {see : Path → Option Entry} {d p : Path} {cs : List Name}
    (hcs : ∀ n ∈ cs, proper n = true) (h : walk see 0 d cs = .ok p) :
    p = d ++ cs ∧ ∀ links, walk see links d cs = .ok p := by
  induction cs generalizing d with
  | nil => exact ⟨(List.append_nil d).symm ▸ (Except.ok.inj h).symm, fun _ => h⟩
  | cons n cs ih =>
    obtain ⟨hn, hcs⟩ := List.forall_mem_cons.mp hcs
    have hstep : ∀ links, walk see links d (n :: cs) =
        (enter see links d n).bind fun d => walk see links d cs := fun _ => List.foldlM_cons
    rw [hstep] at h
    obtain ⟨d', hd, hrest⟩ := bind_ok.mp h
    obtain ⟨rfl, hlinks⟩ := enter_zero hn hd
    obtain ⟨hp, hrest⟩ := ih hcs hrest
    refine ⟨by rw [hp, List.append_assoc, List.singleton_append], fun links => ?_⟩
    rw [hstep, hlinks]
    exact hrest links

theorem follow_zero {see : Path → Option Entry} {d p : Path} {n : Name}
    (h : follow see 0 (.entry d n) = .ok p) :
    p = d ++ [n] ∧ ∀ links, follow see links (.entry d n) = .ok p := by
  rw [follow] at h
  cases hsee : see (d ++ [n]) with
  | none =>
    rw [hsee] at h
    cases h
  | some e =>
    rw [hsee] at h
    cases e with
    | link target => cases h
    | dir a | file a content =>
      obtain rfl := Except.ok.inj h
      refine ⟨rfl, fun links => ?_⟩
      cases links <;> rw [follow, hsee]

theorem openRead_resolve {k : Kernel} {s : Bytes} {p : Path} (h : openRead k t s = .ok p) :
    resolve k t s = .ok p := by
  obtain ⟨q, hq, hread⟩ := bind_ok.mp h
  have hp : q = p := by
    split at hread
    · split_ifs at hread
      exact Except.ok.inj hread
    · split_ifs at hread
      exact Except.ok.inj hread
    · cases hread
  exact hp ▸ hq

theorem resolve_follow {k : Kernel} {s : Bytes} {p : Path} (h : resolve k t s = .ok p) :
    ∃ place, k.locate t .cwd s = .ok place ∧ follow (look t) k.linkMax place = .ok p := by
  obtain ⟨place, hplace, hrest⟩ := bind_ok.mp h
  obtain ⟨q, hq, hlook⟩ := bind_ok.mp hrest
  have hp : q = p := by
    split at hlook
    · cases hlook
    · exact Except.ok.inj hlook
    · split_ifs at hlook
      exact Except.ok.inj hlook
  exact ⟨place, hplace, hp ▸ hq⟩

theorem resolve_mk {k : Kernel} {s : Bytes} {p : Path} {place : Place}
    (hplace : k.locate t .cwd s = .ok place) (hfollow : follow (look t) k.linkMax place = .ok p)
    (hthere : look t p ≠ none) (htrail : trailing s = false) : resolve k t s = .ok p := by
  rw [resolve, hplace]
  refine bind_ok.mpr ⟨place, rfl, bind_ok.mpr ⟨p, hfollow, ?_⟩⟩
  cases hp : look t p with
  | none => exact absurd hp hthere
  | some e => cases e <;> simp [htrail]

theorem openRead_there {k : Kernel} {s : Bytes} {p : Path} (h : openRead k t s = .ok p) :
    look t p ≠ none := by
  obtain ⟨q, -, hread⟩ := bind_ok.mp h
  intro hnone
  split at hread
  · split_ifs at hread
    cases hread
    simp_all
  · split_ifs at hread
    cases hread
    simp_all
  · cases hread

/-- The parts of a spelling that the scan takes. -/
structure Spelled (s : Bytes) (p : Path) : Prop where
  names : ∀ n ∈ p, proper n = true
  comps : comps s = p
  ne_nil : p ≠ []
  eq : s = canonical p
  length : s.length ≤ HM_PATH_MAX

theorem spelled_of {s : Bytes} (h : canonicalSpelling s = true) :
    Spelled s (fields SLASH s.tail) := by
  simp only [canonicalSpelling, Bool.and_eq_true, List.all_eq_true, decide_eq_true_eq] at h
  obtain ⟨⟨hhead, hlen⟩, hnames⟩ := h
  obtain ⟨rest, rfl⟩ : ∃ rest, s = SLASH :: rest := by
    cases s with
    | nil => cases hhead
    | cons b rest => exact ⟨rest, by rw [Option.some.inj hhead]⟩
  rw [List.tail_cons] at hnames ⊢
  have hproper : ∀ n ∈ fields SLASH rest, proper n = true := fun n hn =>
    proper_iff.mpr ⟨(hnames n hn).1.1, (hnames n hn).1.2, (hnames n hn).2,
      fields_notMem SLASH rest n hn⟩
  refine ⟨hproper, ?_, fields_ne_nil _ _, ?_, hlen⟩
  · have hfilter : (fields SLASH rest).filter (· ≠ []) = fields SLASH rest := by
      rw [List.filter_eq_self]
      intro n hn
      simpa using (hnames n hn).1.1
    have hfields : fields SLASH (SLASH :: rest) = [] :: fields SLASH rest := if_pos rfl
    rw [FileTree.comps, hfields, List.filter_cons_of_neg (by simp), hfilter]
  · rw [canonical, if_neg (fields_ne_nil _ _), WorkTree.flatMap_fields]

/-- Along a spelling that the scan takes, and without links, the entry is the one that the
components name; a kernel that follows links finds it too. -/
theorem Spelled.opened {s : Bytes} {p q : Path} (h : Spelled s p)
    (ho : openRead { k with linkMax := 0 } t s = .ok q) : q = p ∧ resolve k t s = .ok p := by
  obtain ⟨place, hplace, hfollow⟩ := resolve_follow (openRead_resolve ho)
  have hthere := openRead_there ho
  obtain ⟨cs, n, hp⟩ := (List.eq_nil_or_concat p).resolve_left h.ne_nil
  rw [List.concat_eq_append] at hp
  have hn := h.names n (hp ▸ List.mem_append_right cs (List.mem_singleton_self n))
  have hcs : ∀ m ∈ cs, proper m = true := fun m hm => h.names m (hp ▸ List.mem_append_left [n] hm)
  have hs : s = WorkTree.spelled [] cs ++ SLASH :: n := by
    rw [← WorkTree.spelled_concat, ← hp, h.eq, canonical, if_neg h.ne_nil]
    rfl
  have htrail : trailing s = false := hs ▸ trailing_append _ hn
  have habs : origin k.cwd s = [] := by
    rw [h.eq, canonical, if_neg h.ne_nil]
    obtain ⟨m, ms, hms⟩ := List.exists_cons_of_ne_nil h.ne_nil
    rw [hms]
    rfl
  obtain ⟨-, hdot, hdotdot, -⟩ := proper_iff.mp hn
  have hlocate : ∀ (k' : Kernel), k'.cwd = k.cwd → k'.pathMax = k.pathMax → s ≠ [] →
      ¬ k.pathMax ≤ s.length → k'.locate t .cwd s = (walk (look t) k'.linkMax [] cs).bind fun d =>
        if grants (look t) d SEARCH then .ok (.entry d n) else .error .acces := by
    intro k' hcwd hmax hne hlong
    rw [Kernel.locate, if_neg hne, hmax, if_neg hlong, h.comps, Kernel.base, hcwd,
      habs, placeOf, hp, List.getLast?_concat, List.dropLast_concat]
    exact if_neg (not_or.mpr ⟨hdot, hdotdot⟩)
  have hlong : s ≠ [] ∧ ¬ k.pathMax ≤ s.length := by
    unfold Kernel.locate at hplace
    split_ifs at hplace with hne hlong
    exact ⟨hne, hlong⟩
  obtain ⟨d, hd, hgrants⟩ := bind_ok.mp
    ((hlocate { k with linkMax := 0 } rfl rfl hlong.1 hlong.2).symm.trans hplace)
  split_ifs at hgrants with hsearch
  obtain ⟨hend, hwalk⟩ := walk_zero hcs hd
  rw [List.nil_append] at hend
  obtain rfl := hend.symm
  obtain rfl := Except.ok.inj hgrants
  obtain ⟨hq, hlinks⟩ := follow_zero hfollow
  refine ⟨hq.trans hp.symm, ?_⟩
  rw [hp, ← hq]
  have hplace : k.locate t .cwd s = .ok (.entry cs n) := by
    rw [hlocate k rfl rfl hlong.1 hlong.2, hwalk]
    exact if_pos hsearch
  exact resolve_mk hplace (hlinks _) hthere htrail

theorem resolve_length {s : Bytes} {p : Path} (h : resolve k t s = .ok p) :
    s.length < k.pathMax := by
  obtain ⟨place, hplace, -⟩ := resolve_follow h
  unfold Kernel.locate at hplace
  split_ifs at hplace with hne hlong
  exact Nat.lt_of_not_le hlong

theorem resolveSourcePath_some {fd : Path} {file text : Bytes} (hr : resolve k t file = .ok fd)
    (h : resolveSourcePath sys fd file = some text) : text = canonical fd := by
  unfold resolveSourcePath at h
  cases hlink : readSourceLink sys fd with
  | some link =>
    rw [hlink] at h
    obtain rfl := Option.some.inj h
    obtain ⟨hmap, hkept⟩ := Option.filter_eq_some_iff.mp hlink
    obtain ⟨whole, hwhole, rfl⟩ := Option.map_eq_some_iff.mp hmap
    simp only [Bool.and_eq_true, decide_eq_true_eq, List.length_take] at hkept
    rw [List.take_of_length_le (by omega)]
    exact sys.procfs_some _ _ hwhole
  | none =>
    rw [hlink] at h
    change realpath k t file = some text at h
    rw [realpath, hr] at h
    dsimp only at h
    split_ifs at h
    exact (Option.some.inj h).symm

theorem openSource_resolve {file : Bytes} {fd : Path} (h : (openSource sys file).1 = .ok fd) :
    resolve k t file = .ok fd := by
  unfold openSource at h
  split_ifs at h with hscan
  · cases hopen : sys.openat2 file with
    | ok fd' =>
      rw [hopen] at h
      obtain rfl := Except.ok.inj h
      have hspelled := spelled_of (lexicallyCanonical_eq file ▸ hscan)
      obtain ⟨rfl, hresolve⟩ := hspelled.opened (sys.openat2_ok _ _ hopen)
      exact hresolve
    | error e =>
      rw [hopen] at h
      exact openRead_resolve h
  · exact openRead_resolve h

theorem openSource_canonical {file : Bytes} {fd : Path} (h : (openSource sys file).1 = .ok fd)
    (hmark : (openSource sys file).2 = true) : canonicalSpelling file = true ∧ file = canonical fd ∧
      resolveSourcePath sys fd file = some file := by
  have hresolve := openSource_resolve sys h
  have hscan : lexicallyCanonical file = true := by
    by_contra hno
    rw [openSource, if_neg hno] at hmark
    cases hmark
  rw [lexicallyCanonical_eq] at hscan
  have hspelled := spelled_of hscan
  have hfile : file = canonical fd := by
    rw [openSource, if_pos ((lexicallyCanonical_eq file).trans hscan)] at h hmark
    cases hopen : sys.openat2 file with
    | ok fd' =>
      rw [hopen] at h
      obtain rfl := Except.ok.inj h
      rw [(hspelled.opened (sys.openat2_ok _ _ hopen)).1]
      exact hspelled.eq
    | error e =>
      rw [hopen] at hmark
      cases hmark
  refine ⟨hscan, hfile, ?_⟩
  have hfound : resolveSourcePath sys fd file ≠ none := by
    unfold resolveSourcePath
    cases readSourceLink sys fd with
    | some link => exact Option.some_ne_none _
    | none =>
      have hlen := resolve_length hresolve
      rw [hfile] at hlen
      change realpath k t file ≠ none
      rw [realpath, hresolve]
      dsimp only
      rw [if_pos hlen]
      exact Option.some_ne_none _
  obtain ⟨text, htext⟩ := Option.ne_none_iff_exists'.mp hfound
  rw [htext, resolveSourcePath_some sys hresolve htext, ← hfile]

end Canonical

section Slots
variable {k k' : Kernel} {t : Tree} {sys : System k t} {sys' : System k' t}

structure Opening (sys : System k t) (l : Launch) (file : Bytes) (fd : Path) : Prop where
  named : isStdin file = false
  opened : (openSource sys file).1 = .ok fd
  canonical : l.canonical = (openSource sys file).2
  resolved : l.resolved = resolveSourcePath sys fd file

theorem Opening.shortcut {l : Launch} {file : Bytes} {fd : Path} (h : Opening sys l file fd)
    (hmark : l.canonical = true) : l.resolved = some file := by
  rw [h.resolved]
  exact (openSource_canonical sys h.opened (h.canonical ▸ hmark)).2.2

theorem Opening.source {l : Launch} {file : Bytes} {fd : Path} {p : Project} {source : Option Bytes}
    (h : Opening sys l file fd) (hp : p.files ≠ []) (hs : sourcePath l p file = .ok source) :
    source = some (SourcePath.canonical fd) := by
  unfold sourcePath at hs
  rw [if_pos ⟨hp, by simp [h.named]⟩] at hs
  have hpath : ∀ path, (if l.canonical then some file else l.resolved) = some path →
      path = SourcePath.canonical fd := by
    intro path hpath
    have hresolved : l.resolved = some path := by
      split_ifs at hpath with hmark
      · rw [h.shortcut hmark, hpath]
      · exact hpath
    rw [h.resolved] at hresolved
    exact resolveSourcePath_some sys (openSource_resolve sys h.opened) hresolved
  cases hfound : (if l.canonical then some file else l.resolved) with
  | none =>
    rw [hfound] at hs
    cases hs
  | some path =>
    rw [hfound] at hs
    dsimp only at hs
    split_ifs at hs
    rw [← Except.ok.inj hs, hpath path hfound]

theorem slot_embedded (xxh3 : Bytes → UInt64) {p p' : Project} (hp : p.files ≠ [])
    (hp' : p'.files ≠ []) (hkind : p.kind = p'.kind) (dir path id id' : Bytes) :
    (hmCacheInit xxh3 p dir (some path) id).path = (hmCacheInit xxh3 p' dir (some path) id').path ∧
      (hmCacheInit xxh3 p dir (some path) id).workdir =
        (hmCacheInit xxh3 p' dir (some path) id').workdir := by
  have hkey : ∀ id id' : Bytes, slotKey xxh3 p (some path) id =
      slotKey xxh3 p' (some path) id' := by
    intro id id'
    obtain ⟨f, fs, hf⟩ := List.exists_cons_of_ne_nil hp
    obtain ⟨f', fs', hf'⟩ := List.exists_cons_of_ne_nil hp'
    simp only [slotKey, hf, hf', hkind]
  constructor <;> simp only [hmCacheInit] <;> rw [hkey _ (appendStr (HM_IDENTITY_MAX + 1) [] id')]

/-- Whatever the spellings of one file, and wherever they are given: a spelling that is
taken as it stands is what the calls would find, and an embedded project has one source
path and one slot. -/
theorem one_source_path {l l' : Launch} {file file' : Bytes} {fd : Path}
    (h : Opening sys l file fd) (h' : Opening sys' l' file' fd) :
    (l.canonical = true → l.resolved = some file) ∧
      ∀ content content' p p' source source', Checked l file content p source →
        Checked l' file' content' p' source' → p.files ≠ [] → p'.files ≠ [] →
          source = some (canonical fd) ∧ source' = source ∧ ∀ xxh3 dir id id',
            (hmCacheInit xxh3 p dir source id).path = (hmCacheInit xxh3 p' dir source' id').path ∧
              (hmCacheInit xxh3 p dir source id).workdir =
                (hmCacheInit xxh3 p' dir source' id').workdir := by
  refine ⟨h.shortcut, fun content content' p p' source source' hc hc' hp hp' => ?_⟩
  obtain rfl := h.source hp (prepareProject_source hc.source_eq)
  obtain rfl := h'.source hp' (prepareProject_source hc'.source_eq)
  have hkind : p.kind = p'.kind :=
    (hmConfigParse_embedded hc.parse_eq hp).trans (hmConfigParse_embedded hc'.parse_eq hp').symm
  exact ⟨rfl, rfl, fun xxh3 dir id id' => slot_embedded xxh3 hp hp' hkind dir _ id id'⟩

def aliasTree : Tree :=
  (((((∅ : Tree).insert [] (.dir ⟨true, 0o755⟩)).insert [ascii "w"] (.dir ⟨true, 0o755⟩)).insert
    [ascii "w", ascii "a"] (.file ⟨true, 0o644⟩ [])).insert [ascii "w", ascii "b"]
      (.link (ascii "a")))

def inW : Kernel := { WorkTree.linux with cwd := [ascii "w"] }

def aliasSystem : System inW aliasTree where
  openat2 := openRead { inW with linkMax := 0 } aliasTree
  procfs p := some (canonical p)
  openat2_ok _ _ h := h
  procfs_some _ _ h := (Option.some.inj h).symm

def aliasFile (linked : Bool) : Bytes := if linked then ascii ".//b" else ascii "/w/a"

def aliasLaunch (linked : Bool) : Launch where
  opts := { file := some (aliasFile linked), cacheDir := some (ascii "/c") }
  siml := fun _ => [.mappingStart 1, .scalar (ascii "command") (ascii "make") 1,
    .entryHeader (ascii "files") 2, .mappingStart 3, .blockStart (ascii "f") 3, .blockEnd,
    .mappingEnd 4, .mappingEnd 4, .streamEnd]
  xxh3 := fun _ => 0
  version := ascii "1"
  content := some []
  canonical := !linked
  resolved := some (ascii "/w/a")

def aliasProject : Project where
  kind := .command
  name := ascii "make"
  command := ascii "make"
  schedKind := .every
  schedInterval := 86400
  sandboxed := true
  files := [{ path := ascii "f", line := 3 }]
  line := 1

theorem aliasChecked (linked : Bool) :
    Checked (aliasLaunch linked) (aliasFile linked) [] aliasProject (some (ascii "/w/a")) := by
  constructor <;> cases linked <;> decide +kernel

theorem aliasOpening (linked : Bool) :
    Opening aliasSystem (aliasLaunch linked) (aliasFile linked) [ascii "w", ascii "a"] := by
  constructor <;> cases linked <;> decide +kernel

theorem one_source_path_alias : (aliasLaunch false).resolved = some (aliasFile false) ∧
    some (ascii "/w/a") = some (canonical [ascii "w", ascii "a"]) := by
  obtain ⟨hshortcut, hsource⟩ := one_source_path (aliasOpening false) (aliasOpening true)
  exact ⟨hshortcut rfl,
    (hsource _ _ _ _ _ _ (aliasChecked false) (aliasChecked true) (by decide) (by decide)).1⟩

end Slots

end Hacman.SourcePath
