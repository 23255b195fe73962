import Hacman.BlockText
import Hacman.Facts

/-!
# What an accepted project stores

The parser hands over keys, values on one line and lines of blocks that the grammar admits,
and a project stores them as they come. So every value of an accepted project could be
written down again, but for a name that was cut out of a longer value.
-/

namespace Hacman.Siml
open Octets Util Config Levels Facts

section Lines
variable {m : Nat} {cursor : Bytes} {lines : List Bytes}

theorem hmFileNextLine_shorter {line rest : Bytes}
    (h : hmFileNextLine m cursor = some (line, rest)) : rest.length < cursor.length := by
  unfold hmFileNextLine at h
  split_ifs at h with hne
  obtain ⟨-, rfl⟩ := Prod.mk.inj (Option.some.inj h)
  have hpos := List.length_pos_iff.mpr hne
  have hle := (List.dropWhile_sublist (l := cursor) (· ≠ LF)).length_le
  rw [after, List.length_tail]
  omega

theorem Walks.linesFrom (h : Walks m cursor lines) {fuel : Nat} (hfuel : cursor.length ≤ fuel) :
    linesFrom m fuel cursor = lines := by
  induction h generalizing fuel with
  | @done cursor hnone =>
    cases fuel with
    | zero => rfl
    | succ fuel => rw [Config.linesFrom, hnone]
  | @line cursor line rest lines hline _ ih =>
    have hshort := hmFileNextLine_shorter hline
    obtain ⟨fuel, rfl⟩ := Nat.exists_eq_succ_of_ne_zero (show fuel ≠ 0 by omega)
    rw [Config.linesFrom, hline]
    exact congrArg (line :: ·) (ih (by omega))

end Lines

section Blocks
variable {x : Input} {evs : List Event} {c c' : Cfg}

structure BlockEvents (x : Input) (key : Bytes) (first : Slice) (body : List Slice) : Prop where
  key : key = [] ∨ Key key
  content : first.len ≠ 0
  lines : BlockLines ((first :: body).map (sliceText x.buf))
  walks : Walks (blockText x first body).2 (blockText x first body).1
    ((first :: body).map (sliceText x.buf))

theorem feed_blocks {I : Cfg → Prop}
    (hplain : ∀ ev c c', PlainEvent ev → I c → onEvent x c ev = .ok c' → I c')
    (hblock : ∀ key line first body c c', BlockEvents x key first body →
      feed x c (.blockStart key line :: .blockLine first :: (body.map .blockLine ++ [.blockEnd])) =
        .ok c' →
      I c → I c')
    (htraced : Traced x.buf none evs) (herr : ∀ line msg, Event.error line msg ∉ evs) (h : I c)
    (hfeed : feed x c evs = .ok c') : I c' := by
  induction hlen : evs.length using Nat.strong_induction_on generalizing evs c with
  | _ len ih =>
  generalize hg : (none : Option OpenBlock) = g at htraced
  cases htraced with
  | error line msg => exact absurd (List.mem_singleton_self _) (herr line msg)
  | done =>
    cases hfeed
    exact h
  | @step _ g' ev evs hev hrest =>
    subst hg
    have herr' : ∀ line msg, Event.error line msg ∉ evs := fun line msg hmem =>
      herr line msg (List.mem_cons_of_mem _ hmem)
    cases hev with
    | plain hev =>
      obtain ⟨c₁, h₁, hfeed⟩ := feed_cons.mp hfeed
      exact ih evs.length (by simp [← hlen]) hrest herr' (hplain ev c c₁ hev h h₁) hfeed rfl
    | @blockStart key line indent hkey =>
      obtain ⟨first, body, post, lines, rfl, rfl, hf, hlines, hindent, htext, hpost⟩ :=
        hrest.whole herr'
      have hevents : BlockEvents x key first body := by
        refine ⟨hkey, hf, hlines, ?_⟩
        rw [hindent]
        exact walks_indentedLines hlines.ne_nil hlines.lf hlines.last htext
      have hsplit : Event.blockStart key line :: .blockLine first ::
          (body.map .blockLine ++ .blockEnd :: post) =
          (.blockStart key line :: .blockLine first :: (body.map .blockLine ++ [.blockEnd])) ++
            post := by simp
      rw [hsplit] at hfeed
      obtain ⟨c₁, h₁, hfeed⟩ := feed_append.mp hfeed
      refine ih post.length ?_ hpost ?_ (hblock key line first body c c₁ hevents h₁ h) hfeed rfl
      · rw [← hlen]
        simp
        omega
      · exact fun l msg hmem => herr' l msg (by simp [hmem])

end Blocks

section Values
variable {x : Input} {c c' : Cfg} {p : Project} {key value : Bytes} {line : Nat}

/-- Values that could be written down again, and a name cut out of one. -/
structure Values (p : Project) : Prop where
  name : p.name = [] ∨ ∃ v, Plain v ∧ p.name = v.take HM_NAME_MAX
  url : p.url = [] ∨ Plain p.url
  command : p.command = [] ∨ Plain p.command
  versionPrefix : p.versionPrefix = [] ∨ Plain p.versionPrefix
  versionSuffix : p.versionSuffix = [] ∨ Plain p.versionSuffix
  bin : LF ∉ p.bin
  binNames : ∀ name ∈ p.binNames, Key name
  binName : p.binChoice ≠ .single → Key p.binName
  dirs : ∀ dir ∈ p.sandboxWriteDirs, LF ∉ dir.source
  files : ∀ file ∈ p.files, Key file.path ∧ BlockLines (fileLines file)
  install : p.install = [] ∨ BlockLines (installLines p)

structure Settled (p : Project) : Prop where
  name : p.name ≠ []
  command : p.kind = .command → p.command ≠ []
  url : p.kind = .url → p.url ≠ []
  versionPrefix : p.kind = .url → p.check = .version → p.versionPrefix ≠ []

theorem Values.untold (hname : p.name = []) (hurl : p.url = []) (hcommand : p.command = [])
    (hfront : p.versionPrefix = []) (hback : p.versionSuffix = []) (hbin : p.bin = [])
    (hnames : p.binNames = [])
    (hchoice : p.binChoice = .single) (hdirs : p.sandboxWriteDirs = []) (hfiles : p.files = [])
    (hinstall : p.install = []) : Values p where
  name := .inl hname
  url := .inl hurl
  command := .inl hcommand
  versionPrefix := .inl hfront
  versionSuffix := .inl hback
  bin := by simp [hbin]
  binNames := by simp [hnames]
  binName := fun hne => absurd hchoice hne
  dirs := by simp [hdirs]
  files := by simp [hfiles]
  install := .inl hinstall

structure Stored (c : Cfg) : Prop where
  values : Values c.out
  binDefault : LF ∉ c.binDefault
  settled : c.finished = true → Settled c.out

theorem Plain.blockLine {v : Bytes} (h : Plain v) : BlockLine v := by
  obtain ⟨c, s, rfl⟩ := List.exists_cons_of_ne_nil h.ne_nil
  have hbytes := h.bytes c List.mem_cons_self
  refine ⟨fun hm => (h.bytes _ hm).1 rfl, fun hm => (h.bytes _ hm).2.1 rfl,
    ⟨c, List.mem_cons_self, fun hc => h.head.1 (by rw [hc]; rfl), hbytes.2.2⟩, h.last,
    h.length_le.trans (by decide)⟩

theorem installLines_plain (h : Plain value) :
    installLines { p with install := value, installIndent := 0 } = [value] := by
  have hline := h.blockLine
  have hlast : [value].getLast? ≠ some [] := fun hl => h.ne_nil (Option.some.inj hl)
  have hwalk : Walks 0 value [value] := by
    refine walks_indentedLines (List.cons_ne_nil value []) (fun l hl => ?_) hlast ?_
    · rw [List.mem_singleton.mp hl]
      exact hline.lf
    · rw [indentedLines_singleton 0 h.ne_nil]
      rfl
  exact hwalk.linesFrom (Nat.le_refl _)

theorem blockLines_plain (h : Plain value) : BlockLines [value] :=
  ⟨List.cons_ne_nil value [], fun l hl => .inr
    (by rw [List.mem_singleton.mp hl]; exact h.blockLine),
    fun hh => h.ne_nil (Option.some.inj hh), fun hl => h.ne_nil (Option.some.inj hl)⟩

theorem Stored.keep (h : Stored c) (hout : c'.out = c.out) (hdef : c'.binDefault = c.binDefault)
    (hfin : c'.finished = c.finished) : Stored c' :=
  ⟨hout ▸ h.values, hdef ▸ h.binDefault, fun hf => hout ▸ h.settled (hfin ▸ hf)⟩

theorem Stored.open_ (hopen : c.finished = false) (hvalues : Values c'.out)
    (hdef : LF ∉ c'.binDefault) (hfin : c'.finished = c.finished) : Stored c' :=
  ⟨hvalues, hdef, fun hf => absurd ((hfin.trans hopen).symm.trans hf) Bool.false_ne_true⟩

theorem applyField_stored (h : Stored c) (hopen : c.finished = false) (hv : Plain value)
    (hs : applyField x c key value line = .ok c') : Stored c' := by
  have hvalues := h.values
  cases hf : fieldOf key with
  | none =>
    rw [applyField, hf] at hs
    cases hs
  | some f =>
    obtain ⟨hadmits, -, rfl⟩ := (applyField_iff hf).mp hs
    cases f with
    | name =>
      have hlen : value.length ≤ HM_NAME_MAX := of_decide_eq_true hadmits
      exact .open_ hopen
        { hvalues with name := .inr ⟨value, hv, (List.take_of_length_le hlen).symm⟩ } h.binDefault
        rfl
    | url => exact .open_ hopen { hvalues with url := .inr hv } h.binDefault rfl
    | command => exact .open_ hopen { hvalues with command := .inr hv } h.binDefault rfl
    | binPath => exact .open_ hopen { hvalues with bin := hv.blockLine.lf } h.binDefault rfl
    | versionPrefix => exact .open_ hopen { hvalues with versionPrefix := .inr hv } h.binDefault rfl
    | versionSuffix => exact .open_ hopen { hvalues with versionSuffix := .inr hv } h.binDefault rfl
    | install =>
      refine .open_ hopen { hvalues with install := .inr ?_ } h.binDefault rfl
      rw [tellField, installLines_plain hv]
      exact blockLines_plain hv
    | check | schedule | sandboxed => exact .open_ hopen { hvalues with } h.binDefault rfl

theorem addBinEntry_stored (h : Stored c) (hopen : c.finished = false) (hkey : Key key)
    (hv : Plain value) (hs : addBinEntry x c key value line = .ok c') : Stored c' := by
  have hvalues := h.values
  have hlf := hv.blockLine.lf
  unfold addBinEntry at hs
  dsimp only at hs
  iterate 4
    split at hs
    · cases hs
  cases hs
  refine .open_ hopen { hvalues with bin := ?_, binNames := ?_, binName := ?_ } ?_ rfl
  · dsimp only
    split_ifs
    · exact hlf
    · exact hvalues.bin
  · exact fun name hmem => (List.mem_append.mp hmem).elim (hvalues.binNames name)
      fun hm => List.mem_singleton.mp hm ▸ hkey
  · dsimp only
    split_ifs with hnamed
    · exact fun _ => hnamed.2 ▸ hkey
    · exact hvalues.binName
  · dsimp only
    split_ifs
    · exact hlf
    · exact h.binDefault

theorem finishBinMap_stored (h : Stored c) (hs : finishBinMap x c line = .ok c') : Stored c' := by
  have hvalues := h.values
  unfold finishBinMap at hs
  dsimp only at hs
  split at hs
  · cases hs
  · rename_i first rest hnames
    cases hs
    have hkey : Key first := hvalues.binNames first (by rw [hnames]; exact List.mem_cons_self)
    by_cases hnamed : c.out.binChoice = .named
    · rw [if_pos hnamed]
      exact h.keep rfl rfl rfl
    · rw [if_neg hnamed]
      refine ⟨{ hvalues with bin := h.binDefault, binName := fun _ => hkey }, h.binDefault,
        fun hf => ?_⟩
      obtain ⟨hname, hcommand, hurl, hprefix⟩ := h.settled hf
      exact ⟨hname, hcommand, hurl, hprefix⟩

theorem settleKind_settled (h : Values c.out) (hs : settleKind x c = .ok p) :
    Values p ∧ Settled p := by
  have htake {v : Bytes} (hv : v ≠ []) : v.take HM_NAME_MAX ≠ [] := by
    intro hnil
    rcases List.take_eq_nil_iff.mp hnil with hzero | hnil
    · cases hzero
    · exact hv hnil
  have hnamed {v : Bytes} (hv : v ≠ []) (hplain : v = [] ∨ Plain v) :
      (∃ u, Plain u ∧ (if c.out.name = [] then defaultName v else c.out.name) =
        u.take HM_NAME_MAX) ∧ (if c.out.name = [] then defaultName v else c.out.name) ≠ [] := by
    by_cases hname : c.out.name = []
    · rw [if_pos hname]
      exact ⟨⟨v, hplain.resolve_left hv, rfl⟩, htake hv⟩
    · rw [if_neg hname]
      exact ⟨h.name.resolve_left hname, hname⟩
  unfold settleKind at hs
  dsimp only at hs
  split at hs
  · cases hs
  · rename_i hnone
    split at hs
    · cases hs
    · split at hs
      · rename_i hcommand
        split at hs
        · cases hs
        · split at hs
          · cases hs
          · cases hs
            obtain ⟨hname, hne⟩ := hnamed hcommand h.command
            exact ⟨{ h with name := .inr hname }, hne, fun _ => hcommand, nofun, nofun⟩
      · rename_i hcommand
        have hurl : c.out.url ≠ [] := fun hnil => hnone ⟨hnil, not_not.mp hcommand⟩
        split at hs
        · cases hs
        · split at hs
          · cases hs
          · rename_i hprefix
            cases hs
            obtain ⟨hname, hne⟩ := hnamed hurl h.url
            exact ⟨{ h with name := .inr hname }, hne, nofun, fun _ => hurl,
              fun _ hcheck hnil => hprefix ⟨hcheck, hnil⟩⟩

theorem finishProject_stored (h : Stored c) (hs : finishProject x c = .ok c') : Stored c' := by
  have hframe := finishProject_frame hs
  unfold finishProject at hs
  split at hs
  · cases hs
  · rename_i p hp
    obtain ⟨hvalues, hsettled⟩ := settleKind_settled h.values hp
    split at hs
    · cases hs
    · split at hs
      · cases hs
      · split at hs
        · cases hs
        · rename_i dirs hdirs
          split at hs
          · cases hs
          · rename_i p' hbin
            have hp' := settleBin_ok hbin
            cases hs
            have hsources : ∀ dir ∈ dirs, LF ∉ dir.source := by
              intro dir hdir
              have hmem : dir.source ∈ p'.sandboxWriteDirs.map (·.source) := by
                rw [hp']
                exact List.mem_map_of_mem hdir
              rw [hframe.dirs] at hmem
              obtain ⟨d, hd, hsame⟩ := List.mem_map.mp hmem
              exact hsame ▸ h.values.dirs d hd
            have hall : Values p' := by
              rw [hp']
              exact { hvalues with dirs := hsources }
            have hdone : Settled p' := by
              rw [hp']
              exact ⟨hsettled.name, hsettled.command, hsettled.url, hsettled.versionPrefix⟩
            exact ⟨hall, h.binDefault, fun _ => hdone⟩

theorem scalar_stored (h : Stored c) (he : Embedded c) (hsound : ScalarSound key value)
    (hs : scalar x c key value line = .ok c') : Stored c' := by
  have hlf : LF ∉ value := hsound.elim (·.2) fun hplain => hplain.2.blockLine.lf
  unfold scalar at hs
  split_ifs at hs with hcur hkey hdirs hbin hfiles
  all_goals
    obtain ⟨-, hopen⟩ := he.opened (by simpa using hcur)
  · have hok := addSandboxWriteDir_ok hs
    rw [hok]
    refine .open_ hopen { h.values with dirs := fun dir hdir => ?_ } h.binDefault rfl
    rcases List.mem_append.mp hdir with hdir | hdir
    · exact h.values.dirs dir hdir
    · rw [List.mem_singleton.mp hdir]
      exact hlf
  · obtain ⟨hk, hv⟩ := hsound.resolve_left fun hempty => hkey hempty.1
    exact addBinEntry_stored h hopen hk hv hs
  · obtain ⟨-, hv⟩ := hsound.resolve_left fun hempty => hkey hempty.1
    exact applyField_stored h hopen hv hs

theorem onEvent_stored {ev : Event} (hev : PlainEvent ev) (h : Stored c) (he : Embedded c)
    (hs : onEvent x c ev = .ok c') : Stored c' := by
  cases ev with
  | mappingStart line =>
    simp only [onEvent, mappingStart] at hs
    split_ifs at hs
    · cases hs
      exact h.keep rfl rfl rfl
    · cases hs
      exact h.keep rfl rfl rfl
    · obtain ⟨hstarted, hflags, hout⟩ := beginProject_ok hs
      have hopen : c.finished = false := by
        by_contra hfin
        have := (he.closed (by simpa using hfin)).1
        rw [hstarted] at this
        cases this
      refine .open_ hopen ?_ (by rw [hflags]; exact h.binDefault) (by rw [hflags])
      rw [hout]
      exact .untold rfl rfl rfl rfl rfl rfl rfl rfl rfl rfl rfl
  | mappingEnd line =>
    simp only [onEvent, mappingEnd] at hs
    split_ifs at hs with hfiles hbin
    · cases hs
      exact h.keep rfl rfl rfl
    · exact finishBinMap_stored h hs
    · exact finishProject_stored h hs
  | scalar key value line => exact scalar_stored h he hev hs
  | blockStart | blockLine | blockEnd => exact absurd hev id
  | _ =>
    have haside := onEvent_aside he rfl hs
    exact h.keep (onEvent_out rfl rfl hs) haside.binDefault haside.finished

theorem block_stored {first : Slice} {body : List Slice} (hevents : BlockEvents x key first body)
    (hstored : StoredBlock x key line first body c c') (he : Embedded c) (h : Stored c) :
    Stored c' := by
  obtain ⟨-, hopen⟩ := he.opened hstored.cur
  have hwalk := hevents.walks.linesFrom (Nat.le_refl _)
  have hdef : LF ∉ c'.binDefault := by
    rw [hstored.frame]
    exact h.binDefault
  have hfin : c'.finished = c.finished := by rw [hstored.frame]
  refine .open_ hopen ?_ hdef hfin
  rcases hstored.out with ⟨hin, hout⟩ | ⟨-, -, hout⟩
  · rw [hout]
    refine { h.values with files := fun file hfile => ?_ }
    rcases List.mem_append.mp hfile with hfile | hfile
    · exact h.values.files file hfile
    · rw [List.mem_singleton.mp hfile]
      have hne : key ≠ [] := by
        rintro rfl
        cases hstored.path hin
      refine ⟨hevents.key.resolve_left hne, ?_⟩
      rw [fileLines, hwalk]
      exact hevents.lines
  · rw [hout]
    refine { h.values with install := .inr ?_ }
    rw [installLines, hwalk]
    exact hevents.lines

theorem hmConfigParse_values {evs : List Event} (hemits : Emits (start x.buf) evs)
    (hparse : hmConfigParse x evs = .ok p) : Values p ∧ Settled p := by
  obtain ⟨front, rfl, herr, c, hfeed, hfin, rfl⟩ := feed_of_emits hemits hparse
  have hend : feed x {} (front ++ [.streamEnd]) = .ok c :=
    feed_append.mpr ⟨c, hfeed, feed_single.mpr rfl⟩
  have hstart : Stored {} :=
    ⟨.untold rfl rfl rfl rfl rfl rfl rfl rfl rfl rfl rfl, List.not_mem_nil,
      fun hfin => absurd hfin Bool.false_ne_true⟩
  obtain ⟨hstored, -⟩ : Stored c ∧ Embedded c := by
    refine feed_blocks (I := fun c => Stored c ∧ Embedded c) (fun ev c c' hev h hs => ?_)
      (fun key line first body c c' hevents hfeed h => ?_) (traced_start hemits) herr
        ⟨hstart, embedded_start⟩ hend
    · exact ⟨onEvent_stored hev h.1 h.2 hs, onEvent_embedded h.2 hs⟩
    · exact ⟨block_stored hevents (stored_block hevents.content hfeed) h.2 h.1,
        feed_embedded h.2 hfeed⟩
  exact ⟨hstored.values, hstored.settled hfin⟩

end Values

end Hacman.Siml
