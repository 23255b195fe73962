import Hacman.Delivery

/-!
# The shape of an accepted project

Whatever events the parser hands over, a project that comes out of the switch is one that
the rest of the program can work with. It has one kind and only the keys of that kind, its
lists and values fit, and its program and its directories are paths of the form their
users expect.
-/

namespace Hacman.Accepted
open Octets Util Config BinPath Templates

section Shape

/-- A url that is checked, or a command that is run, and nothing that only the other one has. -/
structure Work (p : Project) : Prop where
  either : p.url = [] ↔ p.command ≠ []
  kind : p.kind = .command ↔ p.command ≠ []
  name : p.name ≠ []
  unchecked : p.kind = .command →
    p.check = .etag ∧ p.versionPrefix = [] ∧ p.versionSuffix = [] ∧ p.install = []
  unfiled : p.kind = .url → p.files = []
  anchored : p.kind = .url → p.check = .version → p.versionPrefix ≠ []
  writable : p.sandboxWriteDirs ≠ [] → p.sandboxed = true

structure Dirs (dirs : List SandboxWriteDir) : Prop where
  count : dirs.length ≤ HM_SANDBOX_WRITE_DIRS_MAX
  source : ∀ dir ∈ dirs, dir.source ≠ [] ∧ dir.source.length ≤ HM_PATH_MAX

theorem Dirs.of_source {dirs dirs' : List SandboxWriteDir} (h : Dirs dirs)
    (hs : dirs'.map (·.source) = dirs.map (·.source)) : Dirs dirs' := by
  refine ⟨?_, fun dir hdir => ?_⟩
  · have hlen := congrArg List.length hs
    rw [List.length_map, List.length_map] at hlen
    exact hlen ▸ h.count
  · have hmem : dir.source ∈ dirs.map (·.source) := hs ▸ List.mem_map_of_mem hdir
    obtain ⟨dir₀, hdir₀, hsource⟩ := List.mem_map.mp hmem
    exact hsource ▸ h.source dir₀ hdir₀

structure Names (names : List Bytes) : Prop where
  distinct : names.Nodup
  count : names.length ≤ HM_BIN_NAMES_MAX
  own : ∀ name ∈ names, name ≠ [] ∧ hmBinNameOf name = name ∧ name.length ≤ HM_BIN_NAME_MAX

theorem names_nil : Names [] := ⟨List.nodup_nil, Nat.zero_le _, nofun⟩

theorem hmBinNameOf_plain {name : Bytes} (hslash : SLASH ∉ name)
    (hsuffix : ¬ (simlSuffix.length < name.length ∧ simlSuffix <:+ name)) :
    hmBinNameOf name = name := by
  have hlast : lastComponent name = name := by
    rw [lastComponent, List.takeWhile_eq_self_iff.mpr, List.reverse_reverse]
    intro b hb
    exact decide_eq_true fun he => hslash (he ▸ List.mem_reverse.mp hb)
  rw [hmBinNameOf, hlast, if_neg hsuffix]

end Shape

section Reading
variable {x : Input} {c c' : Cfg} {p p' : Project}

structure Bins (c : Cfg) : Prop where
  names : Names c.out.binNames
  path : c.out.bin.length ≤ HM_PATH_MAX
  defaultPath : c.binDefault.length ≤ HM_PATH_MAX
  first : c.out.binNames ≠ [] → c.binDefault ≠ []
  unseen : c.seenBin = false → c.out.binNames = [] ∧ c.pendingBinMap = false ∧ c.inBinMap = false
  single : c.out.binChoice = .single →
    c.out.binName = [] ∧ (c.inBinMap = false → c.out.binNames = [])
  chosen : c.out.binChoice ≠ .single → c.out.binName ∈ c.out.binNames ∧ c.out.bin ≠ []

/-- What has not been seen is as it was at the start, and a complete project has its kind. -/
structure Tidy (x : Input) (c : Cfg) : Prop where
  check : c.seenCheck = false → c.out.check = .etag
  version : c.seenVersion = false → c.out.versionPrefix = [] ∧ c.out.versionSuffix = []
  install : c.seenInstall = false → c.out.install = [] ∧ c.block ≠ some .install
  schedule : c.started = true → c.out.scheduleExplicit = false →
    c.out.schedKind = .every ∧ c.out.schedInterval = 86400
  dirs : Dirs c.out.sandboxWriteDirs
  count : c.out.files.length ≤ HM_FILES_MAX
  contents : ∀ file ∈ c.out.files, file.content <:+: x.buf
  bins : Bins c
  cached : c.out.binCached = true ↔ c.out.binPath ≠ [] ∧ c.out.binPath.head? ≠ some SLASH
  closed : c.finished = true → Work c.out ∧ (c.out.kind = .command → c.block ≠ some .install)

theorem tidy_start : Tidy x {} where
  check _ := rfl
  version _ := ⟨rfl, rfl⟩
  install _ := ⟨rfl, nofun⟩
  schedule := nofun
  dirs := ⟨Nat.zero_le _, nofun⟩
  count := Nat.zero_le _
  contents := nofun
  bins := ⟨names_nil, Nat.zero_le _, Nat.zero_le _, fun hne => absurd rfl hne,
    fun _ => ⟨rfl, rfl, rfl⟩, fun _ => ⟨rfl, fun _ => rfl⟩, fun hne => absurd rfl hne⟩
  cached := ⟨nofun, fun hne => absurd rfl hne.1⟩
  closed := nofun

theorem not_finished (hopen : c.finished = false) {P : Prop} (hf : c.finished = true) : P := by
  rw [hopen] at hf
  cases hf

theorem was_set {P : Prop} (hf : true = false) : P := by
  cases hf

theorem applyField_tidy {key value : Bytes} {line : Nat} (h : Tidy x c) (hopen : c.finished = false)
    (hs : applyField x c key value line = .ok c') : Tidy x c' := by
  cases hf : fieldOf key with
  | none =>
    rw [applyField, hf] at hs
    cases hs
  | some f =>
    obtain ⟨hadmits, hbin, rfl⟩ := (Facts.applyField_iff hf).mp hs
    cases f with
    | name | url | command | sandboxed =>
      exact { h with bins := { h.bins with }, closed := not_finished hopen }
    | check =>
      exact { h with check := was_set, bins := { h.bins with }, closed := not_finished hopen }
    | schedule =>
      exact { h with
        schedule := fun _ => was_set
        bins := { h.bins with }
        closed := not_finished hopen }
    | versionPrefix | versionSuffix =>
      exact { h with version := was_set, bins := { h.bins with }, closed := not_finished hopen }
    | install =>
      exact { h with install := was_set, bins := { h.bins with }, closed := not_finished hopen }
    | binPath =>
      -- a single path comes before any mapping, so that no name has been chosen
      obtain ⟨hnone, -, -⟩ := h.bins.unseen (hbin rfl)
      have hchoice : c.out.binChoice = .single := by
        by_contra hne
        have hmem := (h.bins.chosen hne).1
        rw [hnone] at hmem
        cases hmem
      have hpath : value.length ≤ HM_PATH_MAX := of_decide_eq_true hadmits
      exact { h with
        bins :=
          { h.bins with path := hpath, unseen := was_set, chosen := fun hne => absurd hchoice hne }
        closed := not_finished hopen }

theorem addSandboxWriteDir_tidy {source : Bytes} {line : Nat} (h : Tidy x c)
    (hopen : c.finished = false)
    (hs : addSandboxWriteDir x c source line = .ok c') : Tidy x c' := by
  unfold addSandboxWriteDir at hs
  dsimp only at hs
  split_ifs at hs with hsource hfull
  cases hs
  obtain ⟨hne, hlen⟩ := not_or.mp hsource
  have hdirs : Dirs (c.out.sandboxWriteDirs ++ [{ source := source, line := line }]) := by
    refine ⟨?_, fun dir hdir => ?_⟩
    · rw [List.length_append, List.length_singleton]
      exact Nat.lt_of_le_of_ne h.dirs.count hfull
    · rcases List.mem_append.mp hdir with hdir | hdir
      · exact h.dirs.source dir hdir
      · rw [List.mem_singleton.mp hdir]
        exact ⟨hne, Nat.not_lt.mp hlen⟩
  exact { h with dirs := hdirs, bins := { h.bins with }, closed := not_finished hopen }

theorem Names.snoc {names : List Bytes} {name : Bytes} (h : Names names) (hkey : name ≠ [])
    (hname : ¬ (SLASH ∈ name ∨ (simlSuffix.length < name.length ∧ simlSuffix <:+ name) ∨
      HM_BIN_NAME_MAX < name.length))
    (hnew : ¬ names.any (· = name) = true) (hfull : ¬ names.length = HM_BIN_NAMES_MAX) :
    Names (names ++ [name]) := by
  obtain ⟨hslash, hrest⟩ := not_or.mp hname
  obtain ⟨hsuffix, hlen⟩ := not_or.mp hrest
  have hmem : name ∉ names := fun hm => hnew (List.any_eq_true.mpr ⟨name, hm, decide_eq_true rfl⟩)
  refine ⟨?_, ?_, fun n hn => ?_⟩
  · rw [List.nodup_append]
    exact ⟨h.distinct, List.nodup_singleton _,
      fun a ha b hb hab => hmem (List.mem_singleton.mp hb ▸ hab ▸ ha)⟩
  · rw [List.length_append, List.length_singleton]
    exact Nat.lt_of_le_of_ne h.count hfull
  · rcases List.mem_append.mp hn with hn | hn
    · exact h.own n hn
    · rw [List.mem_singleton.mp hn]
      exact ⟨hkey, hmBinNameOf_plain hslash hsuffix, Nat.not_lt.mp hlen⟩

theorem addBinEntry_bins {name path : Bytes} {line : Nat} (h : Bins c) (hin : c.inBinMap = true)
    (hkey : name ≠ []) (hs : addBinEntry x c name path line = .ok c') : Bins c' := by
  unfold addBinEntry at hs
  dsimp only at hs
  split_ifs at hs with hname hpath hdup hfull hchosen hfirst hfirst
  all_goals
    cases hs
    obtain ⟨hne, hlen⟩ := not_or.mp hpath
    have hlen : path.length ≤ HM_PATH_MAX := Nat.not_lt.mp hlen
    have hmap : c.inBinMap = false → c.out.binNames ++ [name] = [] := by simp [hin]
    have hseen : c.seenBin = true := by
      by_contra hunseen
      exact absurd (hin.symm.trans (h.unseen (by simpa using hunseen)).2.2) (by decide)
    have hunseen : ∀ P : Prop, c.seenBin = false → P :=
      fun P hf => absurd (hseen.symm.trans hf) (by decide)
    have hnames := h.names.snoc hkey hname hdup hfull
  · exact ⟨hnames, hlen, hlen, fun _ => hne, hunseen _, nofun,
      fun _ => ⟨List.mem_append_right _ (List.mem_singleton.mpr hchosen.2.symm), hne⟩⟩
  · exact ⟨hnames, hlen, h.defaultPath, fun _ => h.first hfirst, hunseen _, nofun,
      fun _ => ⟨List.mem_append_right _ (List.mem_singleton.mpr hchosen.2.symm), hne⟩⟩
  · exact ⟨hnames, h.path, hlen, fun _ => hne, hunseen _, fun hc => ⟨(h.single hc).1, hmap⟩,
      fun hc => ⟨List.mem_append_left _ (h.chosen hc).1, (h.chosen hc).2⟩⟩
  · exact ⟨hnames, h.path, h.defaultPath, fun _ => h.first hfirst, hunseen _,
      fun hc => ⟨(h.single hc).1, hmap⟩,
      fun hc => ⟨List.mem_append_left _ (h.chosen hc).1, (h.chosen hc).2⟩⟩

theorem finishBinMap_bins {line : Nat} (h : Bins c) (hin : c.inBinMap = true)
    (hs : finishBinMap x c line = .ok c') : Bins c' := by
  unfold finishBinMap at hs
  dsimp only at hs
  split at hs
  · cases hs
  · rename_i first rest hnames
    cases hs
    have hseen : ∀ P : Prop, c.seenBin = false → P := fun P hf =>
      absurd (hin.symm.trans (h.unseen hf).2.2) (by decide)
    have hne : c.out.binNames ≠ [] := hnames ▸ List.cons_ne_nil _ _
    split_ifs with hchoice
    · exact { h with
        unseen := hseen _
        single := fun hc => absurd (hchoice.symm.trans hc) (by decide) }
    · exact { h with
        path := h.defaultPath
        unseen := hseen _
        single := nofun
        chosen := fun _ => ⟨by simp [hnames], h.first hne⟩ }

theorem mem_modify {α : Type} {xs : List α} {i : Nat} {f : α → α} {P : α → Prop} (h : ∀ a ∈ xs, P a)
    (hf : ∀ a, P a → P (f a)) : ∀ a ∈ xs.modify i f, P a := by
  intro a ha
  obtain ⟨j, hj⟩ := List.mem_iff_getElem?.mp ha
  rw [List.getElem?_modify, Option.map_eq_map, Option.map_eq_some_iff] at hj
  obtain ⟨b, hget, rfl⟩ := hj
  have hb := h b (List.mem_of_getElem? hget)
  split_ifs
  · exact hf b hb
  · exact hb

theorem Work.files_modify (h : Work p) (i : Nat) (f : EmbeddedFile → EmbeddedFile) :
    Work { p with files := p.files.modify i f } :=
  { h with unfiled := fun hk => by rw [h.unfiled hk]; cases i <;> rfl }

theorem Tidy.files_modify (h : Tidy x c) (i : Nat) {f : EmbeddedFile → EmbeddedFile}
    (hf : ∀ file, file.content <:+: x.buf → (f file).content <:+: x.buf) :
    Tidy x { c with out := { c.out with files := c.out.files.modify i f } } :=
  { h with
    count := (List.length_modify f _ i).le.trans h.count
    contents := mem_modify h.contents hf
    bins := { h.bins with }
    closed := fun hfin => ⟨(h.closed hfin).1.files_modify i f, (h.closed hfin).2⟩ }

theorem addFile_tidy {path : Bytes} {line : Nat} (h : Tidy x c) (hopen : c.finished = false)
    (hs : addFile x c path line = .ok c') : Tidy x c' := by
  unfold addFile at hs
  dsimp only at hs
  split_ifs at hs with hvalid hdup hfull
  cases hs
  refine { h with
    install := fun hseen => ⟨(h.install hseen).1, nofun⟩
    count := ?_
    contents := fun file hfile => ?_
    bins := { h.bins with }
    closed := not_finished hopen }
  · rw [List.length_append, List.length_singleton]
    exact Nat.lt_of_le_of_ne h.count hfull
  · rcases List.mem_append.mp hfile with hfile | hfile
    · exact h.contents file hfile
    · rw [List.mem_singleton.mp hfile]
      exact List.nil_infix

theorem blockLine_tidy (h : Tidy x c) (b : Block) (value : Slice) :
    Tidy x (blockLine x c b value) := by
  unfold blockLine
  split
  · exact h
  · split
    · exact { h with bins := { h.bins with } }
    · cases b with
      | install =>
        exact { h with
          bins := { h.bins with }
          closed := fun hfin => ⟨{ (h.closed hfin).1 with }, (h.closed hfin).2⟩ }
      | file i =>
        have hm := h.files_modify i (f := setIndent (value.off - lineStart x.buf value.off))
          fun _ hfile => hfile
        exact { hm with bins := { hm.bins with } }

theorem region_infix (buf : Bytes) (start stop : Nat) : region buf start stop <:+: buf :=
  (List.take_prefix _ _).isInfix.trans (List.drop_suffix _ _).isInfix

theorem blockEnd_tidy (h : Tidy x c) : Tidy x (blockEnd x c) := by
  unfold blockEnd
  dsimp only
  split
  · rename_i start hblock _
    refine { h with
      install := fun hseen => absurd hblock (h.install hseen).2
      bins := { h.bins with }
      closed := fun hfin => ?_ }
    obtain ⟨hwork, hkind⟩ := h.closed hfin
    exact ⟨{ hwork with unchecked := fun hk => absurd hblock (hkind hk) }, fun _ => nofun⟩
  · rename_i i start _ _
    have hm := h.files_modify i (f := setContent (region x.buf start c.blockEnd)) fun _ _ =>
      region_infix _ _ _
    exact { hm with
      install := fun hseen => ⟨(h.install hseen).1, nofun⟩
      bins := { hm.bins with }
      closed := fun hfin => ⟨(hm.closed hfin).1, fun _ => nofun⟩ }
  · exact { h with
      install := fun hseen => ⟨(h.install hseen).1, nofun⟩
      bins := { h.bins with }
      closed := fun hfin => ⟨(h.closed hfin).1, fun _ => nofun⟩ }

structure Finishes (x : Input) (c c' : Cfg) (p p' : Project) : Prop where
  kind : settleKind x c = .ok p
  settled : c.pendingBinMap = false
  writable : p.sandboxWriteDirs ≠ [] → p.sandboxed = true
  dirs : p'.sandboxWriteDirs.map (·.source) = p.sandboxWriteDirs.map (·.source)
  bin : settleBin x { p with sandboxWriteDirs := p'.sandboxWriteDirs } = .ok p'
  flags : c' = { c with out := p', finished := true, cur := false }

theorem finishProject_ok (hs : finishProject x c = .ok c') : ∃ p p', Finishes x c c' p p' := by
  unfold finishProject at hs
  split at hs
  · cases hs
  · rename_i p hp
    split at hs
    · cases hs
    · rename_i hpending
      split at hs
      · cases hs
      · rename_i hwrite
        split at hs
        · cases hs
        · rename_i dirs hdirs
          have hsource : dirs.map (·.source) = p.sandboxWriteDirs.map (·.source) := by
            split at hdirs
            · exact expandDirs_source hdirs
            · cases hdirs
              rfl
          split at hs
          · cases hs
          · rename_i p' hbin
            have hsame : p'.sandboxWriteDirs = dirs := by rw [settleBin_ok hbin]
            cases hs
            refine ⟨p, p', hp, by simpa using hpending, fun hne => ?_, ?_, ?_, rfl⟩
            · by_contra hsandbox
              exact hwrite (by simp [hne, hsandbox])
            · rw [hsame, hsource]
            · rw [hsame, hbin]

theorem name_settled {name text : Bytes} (h : text ≠ []) :
    (if name = [] then defaultName text else name) ≠ [] := by
  split_ifs with hname
  · rw [defaultName, ne_eq, List.take_eq_nil_iff]
    exact not_or.mpr ⟨by decide, h⟩
  · exact hname

theorem settleKind_work (h : Tidy x c) (he : Embedded c) (hs : settleKind x c = .ok p)
    (hwrite : p.sandboxWriteDirs ≠ [] → p.sandboxed = true) :
    Work p ∧ (p.kind = .command → c.block ≠ some .install) := by
  unfold settleKind at hs
  dsimp only at hs
  split at hs
  · cases hs
  · rename_i hnone
    split at hs
    · cases hs
    · rename_i hboth
      split at hs
      · rename_i hcommand
        have hurl : c.out.url = [] := by
          by_contra hne
          exact hboth ⟨hne, hcommand⟩
        split at hs
        · cases hs
        · rename_i hseen
          split at hs
          · cases hs
          · rename_i hinstall
            cases hs
            obtain ⟨hcheck, hversion⟩ : c.seenCheck = false ∧ c.seenVersion = false := by
              simpa using hseen
            obtain ⟨hfront, hsuffix⟩ := h.version hversion
            obtain ⟨htext, hblock⟩ := h.install (by simpa using hinstall)
            exact ⟨⟨iff_of_true hurl hcommand, iff_of_true rfl hcommand, name_settled hcommand,
              fun _ => ⟨h.check hcheck, hfront, hsuffix, htext⟩, nofun, nofun, hwrite⟩,
              fun _ => hblock⟩
      · rename_i hcommand
        have hurl : c.out.url ≠ [] := fun hurl => hnone ⟨hurl, not_not.mp hcommand⟩
        split at hs
        · cases hs
        · rename_i hfiles
          split at hs
          · cases hs
          · rename_i hanchor
            cases hs
            have hnofiles : c.out.files = [] := by
              by_contra hne
              exact hfiles (he.files hne)
            exact ⟨⟨iff_of_false hurl hcommand, iff_of_false nofun hcommand,
              name_settled hurl, nofun,
              fun _ => hnofiles, fun _ hcheck hfront => hanchor ⟨hcheck, hfront⟩, hwrite⟩, nofun⟩

theorem settleBin_cached (hs : settleBin x p = .ok p')
    (hcached : p.binCached = true ↔ p.binPath ≠ [] ∧ p.binPath.head? ≠ some SLASH)
    (hsame : p.binPath = [] ∨ expandBin x p = .ok p.binPath) :
    p'.binCached = true ↔ p'.binPath ≠ [] ∧ p'.binPath.head? ≠ some SLASH := by
  unfold settleBin at hs
  dsimp only at hs
  split at hs
  · cases hs
  · rename_i binPath hbin
    split_ifs at hs with hrel hvalid
    · cases hs
      exact iff_of_true rfl hrel
    · cases hs
      refine iff_of_false (fun hc => ?_) hrel
      obtain ⟨hne, hhead⟩ := hcached.mp hc
      obtain rfl := Except.ok.inj (hbin.symm.trans (hsame.resolve_left hne))
      exact hrel ⟨hne, hhead⟩

theorem finishProject_tidy (h : Tidy x c) (he : Embedded c) (ho : Once x c)
    (hs : finishProject x c = .ok c') : Tidy x c' := by
  obtain ⟨p, p', hf⟩ := finishProject_ok hs
  obtain ⟨-, hp, -⟩ := settleKind_ok hf.kind
  obtain ⟨hwork, hblock⟩ := settleKind_work h he hf.kind hf.writable
  have hdirs : Dirs p'.sandboxWriteDirs := by
    refine h.dirs.of_source (hf.dirs.trans ?_)
    rw [hp]
  have hcached : p'.binCached = true ↔ p'.binPath ≠ [] ∧ p'.binPath.head? ≠ some SLASH := by
    refine settleBin_cached hf.bin (by rw [hp]; exact h.cached) ?_
    rw [hp]
    cases hfin : c.finished with
    | false => exact .inl (ho.open_ hfin)
    | true => exact .inr (ho.closed hfin).2.2.expanded
  have hp' := settleBin_ok hf.bin
  have hwork' : Work p' := by
    rw [hp']
    refine { hwork with writable := fun hne => hf.writable fun hnil => hne ?_ }
    exact List.map_eq_nil_iff.mp (hf.dirs.trans (by rw [hnil]; rfl))
  have hblock' : p'.kind = .command → c.block ≠ some .install := by
    rw [hp']
    exact hblock
  rw [hf.flags]
  obtain ⟨kind, name, dirs, binPath, binCached, rfl⟩ : ∃ kind name dirs binPath binCached,
      p' = { c.out with
        kind := kind
        name := name
        sandboxWriteDirs := dirs
        binPath := binPath
        binCached := binCached } :=
    ⟨p.kind, p.name, p'.sandboxWriteDirs, p'.binPath, p'.binCached, by rw [hp', hp]⟩
  exact { h with
    dirs := hdirs
    bins := { h.bins with }
    cached := hcached
    closed := fun _ => ⟨hwork', hblock'⟩ }

theorem mappingStart_tidy {line : Nat} (h : Tidy x c) (he : Embedded c)
    (hs : mappingStart x c line = .ok c') : Tidy x c' := by
  unfold mappingStart at hs
  split_ifs at hs with hfiles hbin
  · cases hs
    exact { h with bins := { h.bins with } }
  · cases hs
    have hseen : ∀ P : Prop, c.seenBin = false → P := fun P hf =>
      absurd ((Bool.and_eq_true_iff.mp hbin).2.symm.trans (h.bins.unseen hf).2.1) (by decide)
    exact { h with
      bins := { h.bins with
        unseen := hseen _
        single := fun hc => ⟨(h.bins.single hc).1, nofun⟩ } }
  · obtain ⟨hstarted, hflags, hout⟩ := beginProject_ok hs
    have hfin : ∀ P : Prop, c.finished = true → P := fun P hf =>
      absurd ((he.closed hf).1.symm.trans hstarted) (by decide)
    rw [hflags, hout]
    exact {
      check := fun _ => rfl
      version := fun _ => ⟨rfl, rfl⟩
      install := fun hseen => ⟨rfl, (h.install hseen).2⟩
      schedule := fun _ _ => ⟨rfl, rfl⟩
      dirs := ⟨Nat.zero_le _, nofun⟩
      count := Nat.zero_le _
      contents := nofun
      bins := { h.bins with
        names := names_nil
        path := Nat.zero_le _
        first := fun hne => absurd rfl hne
        unseen := fun hf => ⟨rfl, (h.bins.unseen hf).2⟩
        single := fun _ => ⟨rfl, fun _ => rfl⟩
        chosen := fun hne => absurd rfl hne }
      cached := ⟨nofun, fun hne => absurd rfl hne.1⟩
      closed := hfin _ }

theorem mappingEnd_tidy {line : Nat} (h : Tidy x c) (he : Embedded c) (ho : Once x c)
    (hs : mappingEnd x c line = .ok c') : Tidy x c' := by
  unfold mappingEnd at hs
  split_ifs at hs with hfiles hbin
  · cases hs
    exact { h with bins := { h.bins with } }
  · have hopen : c.finished = false := by
      by_contra hf
      exact absurd (hbin.symm.trans (ho.closed (by simpa using hf)).2.1) (by decide)
    have hbins := finishBinMap_bins h.bins hbin hs
    have hok := finishBinMap_ok hs
    rw [hok] at hbins ⊢
    exact { h with bins := hbins, closed := not_finished hopen }
  · exact finishProject_tidy h he ho hs

theorem scalar_tidy {key value : Bytes} {line : Nat} (h : Tidy x c) (he : Embedded c)
    (hs : scalar x c key value line = .ok c') : Tidy x c' := by
  unfold scalar at hs
  split_ifs at hs with hcur hkey hdirs hbin hfiles
  all_goals obtain ⟨-, hopen⟩ := he.opened (by simpa using hcur)
  · exact addSandboxWriteDir_tidy h hopen hs
  · have hbins := addBinEntry_bins h.bins hbin hkey hs
    have hok := addBinEntry_ok hs
    rw [hok] at hbins ⊢
    exact { h with bins := hbins, closed := not_finished hopen }
  · exact applyField_tidy h hopen hs

theorem onEvent_tidy {ev : Event} (h : Tidy x c) (he : Embedded c) (ho : Once x c)
    (hs : onEvent x c ev = .ok c') : Tidy x c' := by
  cases ev with
  | streamStart | documentEnd | shebang | comment | streamEnd =>
    cases hs
    exact h
  | sequenceEnd =>
    cases hs
    exact { h with bins := { h.bins with } }
  | documentStart line =>
    simp only [onEvent] at hs
    split_ifs at hs
    cases hs
    exact h
  | entryHeader key line =>
    simp only [onEvent, entryHeader] at hs
    split_ifs at hs <;> cases hs
    · exact { h with bins := { h.bins with unseen := was_set } }
    · exact { h with bins := { h.bins with } }
    · exact { h with bins := { h.bins with } }
    · exact h
  | sequenceStart key line =>
    simp only [onEvent, sequenceStart] at hs
    split_ifs at hs
    cases hs
    exact { h with bins := { h.bins with } }
  | mappingStart line => exact mappingStart_tidy h he hs
  | mappingEnd line => exact mappingEnd_tidy h he ho hs
  | scalar key value line => exact scalar_tidy h he hs
  | blockStart key line =>
    simp only [onEvent, blockScalarStart] at hs
    split_ifs at hs with hfiles hinstall
    · cases hadd : addFile x c key line with
      | error text =>
        rw [hadd] at hs
        cases hs
      | ok c₁ =>
        rw [hadd] at hs
        cases hs
        have h₁ := addFile_tidy h (he.opened (Bool.and_eq_true_iff.mp hfiles).1).2 hadd
        exact { h₁ with bins := { h₁.bins with } }
    · cases hs
      have hopen := (he.opened (Bool.and_eq_true_iff.mp hinstall).1).2
      exact { h with install := was_set, bins := { h.bins with }, closed := not_finished hopen }
  | blockLine value =>
    simp only [onEvent, Except.ok.injEq] at hs
    subst hs
    split
    · exact blockLine_tidy h _ value
    · exact h
  | blockEnd =>
    cases hs
    exact blockEnd_tidy h
  | error line msg => cases hs

theorem hmConfigParse_tidy {evs : List Event} (h : hmConfigParse x evs = .ok p) :
    ∃ c, Tidy x c ∧ Embedded c ∧ Once x c ∧ c.finished = true ∧ c.out = p := by
  obtain ⟨c, ⟨hc, he, ho⟩, hfin, rfl⟩ :=
    parseFrom_keeps (I := fun c => Tidy x c ∧ Embedded c ∧ Once x c)
    (fun _ _ _ _ hc hev => ⟨onEvent_tidy hc.1 hc.2.1 hc.2.2 hev, onEvent_embedded hc.2.1 hev,
      onEvent_once hc.2.2 hc.2.1 hev⟩)
    ⟨tidy_start, embedded_start, ⟨fun _ => rfl, fun hf => by cases hf⟩⟩ h
  exact ⟨c, hc, he, ho, hfin, rfl⟩

structure WellFormed (x : Input) (p : Project) : Prop extends Work p where
  lengths : p.name.length ≤ HM_NAME_MAX ∧ p.url.length ≤ HM_URL_MAX ∧
    p.command.length ≤ HM_COMMAND_MAX ∧ p.bin.length ≤ HM_PATH_MAX
  daily : p.scheduleExplicit = false → p.schedKind = .every ∧ p.schedInterval = 86400
  files : WorkTree.SoundPaths p.files
  count : p.files.length ≤ HM_FILES_MAX
  contents : ∀ file ∈ p.files, file.content <:+: x.buf
  dirs : Dirs p.sandboxWriteDirs
  absolute : x.resolvePaths = true → ∀ dir ∈ p.sandboxWriteDirs,
    dir.path.head? = some SLASH ∧ dir.path.length ≤ HM_PATH_MAX
  names : Names p.binNames
  unnamed : p.binNames = [] → p.binChoice = .single ∧ p.binName = []
  named : p.binNames ≠ [] → p.binChoice ≠ .single ∧ p.binName ∈ p.binNames ∧ p.bin ≠ []
  program : p.binPath ≠ [] → x.resolvePaths = true ∧ p.bin ≠ [] ∧ p.binPath.length ≤ HM_PATH_MAX
  below : p.binPath ≠ [] → p.binPath.head? ≠ some SLASH →
    validRelativePath p.binPath HM_PATH_MAX = true ∧ (p.files ≠ [] ∨ p.sandboxed = true)
  cached : p.binCached = true ↔ p.binPath ≠ [] ∧ p.binPath.head? ≠ some SLASH

theorem expandTemplate_fits {tpl path : Bytes} {what : String} {line : Nat} {requireAbsolute : Bool}
    (h : expandTemplate x tpl what (HM_PATH_MAX + 1) line requireAbsolute = .ok path) :
    path.length ≤ HM_PATH_MAX := by
  obtain ⟨parts, text, hexpands, -, rfl⟩ := expandTemplate_expands h
  exact (List.takeWhile_prefix _).length_le.trans hexpands.fits

theorem program_resolved (h : Resolved x p) (hne : p.binPath ≠ []) :
    x.resolvePaths = true ∧ p.bin ≠ [] ∧ p.binPath.length ≤ HM_PATH_MAX := by
  have hexpand := h.expanded
  unfold expandBin at hexpand
  split_ifs at hexpand with hbin
  · obtain ⟨hresolve, hbin⟩ : x.resolvePaths = true ∧ p.bin ≠ [] := by simpa using hbin
    exact ⟨hresolve, hbin, expandTemplate_fits hexpand⟩
  · exact absurd (Except.ok.inj hexpand).symm hne

/-- What the parser accepts is well formed, whatever the events are. -/
theorem accepted_well_formed {evs : List Event} (h : hmConfigParse x evs = .ok p) :
    WellFormed x p := by
  have hlimits := Delivery.hmConfigParse_limited h
  have hresolved := hmConfigParse_resolved h
  have hsound := WorkTree.hmConfigParse_sound h
  obtain ⟨c, hc, he, ho, hfin, rfl⟩ := hmConfigParse_tidy h
  have hbins := hc.bins
  exact {
    (hc.closed hfin).1 with
    lengths := ⟨hlimits.name, hlimits.url, hlimits.command, hbins.path⟩
    daily := hc.schedule (he.closed hfin).1
    files := hsound
    count := hc.count
    contents := hc.contents
    dirs := hc.dirs
    absolute := fun hr dir hdir =>
      ⟨expandTemplate_absolute (hlimits.dirs hr dir hdir),
        expandTemplate_fits (hlimits.dirs hr dir hdir)⟩
    names := hbins.names
    unnamed := by
      intro hnil
      have hchoice : c.out.binChoice = .single := by
        by_contra hne
        have hmem := (hbins.chosen hne).1
        rw [hnil] at hmem
        cases hmem
      exact ⟨hchoice, (hbins.single hchoice).1⟩
    named := by
      intro hne
      have hchoice : c.out.binChoice ≠ .single := fun hchoice =>
        hne ((hbins.single hchoice).2 (ho.closed hfin).2.1)
      exact ⟨hchoice, hbins.chosen hchoice⟩
    program := program_resolved hresolved
    below := by
      intro hne hhead
      refine ⟨hresolved.relative hne hhead, ?_⟩
      by_contra hnone
      obtain ⟨hfiles, hsandbox⟩ := not_or.mp hnone
      exact hhead (hresolved.absolute (not_not.mp hfiles) (by simpa using hsandbox) hne)
    cached := hc.cached }

def toolsInput : Input where
  buf := ascii "command: make\nbin-path:\n  cc: bin/cc\n  ld: bin/ld\n"
  origin := ascii "t.siml"

theorem accepted_well_formed_tools :
    ∃ p, hmConfigParse toolsInput (Delivery.eventsOf toolsInput) = .ok p ∧
    p.binNames = [ascii "cc", ascii "ld"] ∧ p.binCached = true ∧ WellFormed toolsInput p := by
  have hrun : (hmConfigParse toolsInput (Delivery.eventsOf toolsInput)).map
      (fun p => (p.binNames, p.binCached)) =
      .ok ([ascii "cc", ascii "ld"], true) := by decide +kernel
  cases hp : hmConfigParse toolsInput (Delivery.eventsOf toolsInput) with
  | error text =>
    rw [hp] at hrun
    cases hrun
  | ok p =>
    rw [hp] at hrun
    simp only [Except.map, Except.ok.injEq, Prod.mk.injEq] at hrun
    exact ⟨p, rfl, hrun.1, hrun.2, accepted_well_formed hp⟩

end Reading

end Hacman.Accepted
