import Hacman.Cache
import Hacman.Contained

/-!
# What a setup inside a setup inherits

A shell may run hacman again, which then forks a setup of its own: under the layers that are there,
and with the variables that its caller left. The innermost shell of such a chain shares the cache
directory with the outermost one, and no layer on the way keeps it from changing anything there.
-/

namespace Hacman.Inherited
open Octets Util Config Interaction Layers Sandbox Delivery SetupChild Contained

section Model
variable {O : Type}

structure Level where
  project : Project
  workdir : Bytes
  cacheDir : Bytes

def HACMAN_CACHE : Bytes := ascii "HACMAN_CACHE"

variable (h : Host O) (strerror : Errno → Bytes)

def Starts (l : Level) (w₀ w : World O) : Prop :=
  w.unset = false ∧ ∃ setup trace t argv k, Steps h.child
    (Setup.child strerror l.project l.workdir l.cacheDir trace setup) w₀ t (.ask (.exec argv) k) w

/-- Setups inside each other, the innermost first, and the world of its shell. A hacman on the way
is started without `--cache`, with the variable of its caller, and by a process under its caller's
layers. -/
inductive Nested : List Level → World O → Prop
  | outer {l : Level} {w₀ w : World O} (hsandboxed : l.project.sandboxed = true)
    (hdomain : w₀.domain = []) (hstarts : Starts h strerror l w₀ w) : Nested [l] w
  | inner {l : Level} {levels : List Level} {w w₀ w' : World O} {home cwd : Option Bytes}
    (houter : Nested levels w)
      (hdomain : w₀.domain = w.domain) (henv : w₀.env HACMAN_CACHE = w.env HACMAN_CACHE)
      (hcache : Cache.hmCacheDir none ⟨w₀.env HACMAN_CACHE, home, cwd⟩ = some l.cacheDir)
      (hstarts : Starts h strerror l w₀ w') : Nested (l :: levels) w'

end Model

section Chain
variable {O : Type} {h : Host O} {strerror : Errno → Bytes} {l : Level} {levels : List Level}
  {w w₀ : World O}

theorem lookup_cache (setup : Setup) : (setup.env l.project l.workdir l.cacheDir).lookup
    HACMAN_CACHE = if l.project.sandboxed then some (some l.cacheDir) else none := by
  unfold Setup.env commandEnv installEnv Delivery.sandboxEnv
  cases setup <;> cases l.project.sandboxed <;> rfl

theorem Starts.inherits (hstarts : Starts h strerror l w₀ w) :
    w.env HACMAN_CACHE = (if l.project.sandboxed then some l.cacheDir else w₀.env HACMAN_CACHE) ∧
      Inside h l.project l.workdir l.cacheDir w₀ w := by
  obtain ⟨hunset, setup, trace, t, argv, k, hsteps⟩ := hstarts
  obtain ⟨-, hprepared⟩ := (child_prepares setup).guard hsteps rfl
  refine ⟨?_, hprepared.inside⟩
  rw [hprepared.env hunset, applied_eq (env_nodup setup), lookup_cache]
  split <;> rfl

theorem hmCacheDir_absolute {dir : Bytes} {home cwd : Option Bytes}
    (habsolute : dir.head? = some SLASH) :
    Cache.hmCacheDir none ⟨some dir, home, cwd⟩ = some dir := by
  have hne : dir ≠ [] := by
    rintro rfl
    cases habsolute
  have hgiven : Cache.given (some dir) = some dir := by simp [Cache.given, hne]
  rw [Cache.hmCacheDir, show Cache.given none = none from rfl, hgiven]
  dsimp only
  rw [Cache.absoluteCacheDir, if_pos habsolute]

theorem Policy.cache {cwd : O} {p : Project} {workdir cacheDir : Bytes} {layer : Layer O Right}
    (hpolicy : Policy h cwd p workdir cacheDir layer) : ∃ o, h.names cwd cacheDir o ∧
      ∀ below x r, below x o → layer.Permits below x r := by
  obtain ⟨root, null, dirs, hplaces, hpermits⟩ := hpolicy.permits
  obtain ⟨work, rest, -, hrest, rfl⟩ := List.forall₂_cons_left_iff.mp hplaces.dirs
  obtain ⟨cache, others, ⟨hcache, -⟩, -, rfl⟩ := List.forall₂_cons_left_iff.mp hrest
  refine ⟨cache, hcache, fun below x r hx => (hpermits below x r).mpr fun _ => .inr
    (.inl ⟨cache, ?_, hx⟩)⟩
  exact List.mem_cons_of_mem _ List.mem_cons_self

structure Shared (h : Host O) (top : Level) (levels : List Level) (w : World O) : Prop where
  same : ∀ l ∈ levels, l.cacheDir = top.cacheDir
  cache : ∀ cache, (∀ cwd o, h.names cwd top.cacheDir o → o = cache) →
    ∀ below x r, below x cache → Layers.Permits below w.domain x r
  bounded : ∀ below x r, Right.Changes r → Layers.Permits below w.domain x r →
    ∀ l ∈ levels, l.project.sandboxed = true →
      ∃ cwd root null dirs, Places h cwd l.project l.workdir l.cacheDir root null dirs ∧
        ∃ o ∈ null :: dirs, below x o

theorem Shared.inside {top : Level} (hshared : Shared h top levels w₀)
    (hsame : l.cacheDir = top.cacheDir)
    (hinside : Inside h l.project l.workdir l.cacheDir w₀ w) : Shared h top (l :: levels) w := by
  have hall : ∀ l' ∈ l :: levels, l'.cacheDir = top.cacheDir :=
    List.forall_mem_cons.mpr ⟨hsame, hshared.same⟩
  rw [Inside] at hinside
  split at hinside
  · obtain ⟨layer, hpolicy, hdomain⟩ := hinside
    refine ⟨hall, fun cache hcache below x r hx => ?_, fun below x r hr hx =>
      List.forall_mem_cons.mpr ⟨fun _ => ?_, ?_⟩⟩
    · obtain ⟨o, ho, hlayer⟩ := Policy.cache hpolicy
      rw [hsame] at ho
      obtain rfl := hcache _ o ho
      rw [hdomain, permits_cons]
      exact ⟨hlayer below x r hx, hshared.cache o hcache below x r hx⟩
    · rw [hdomain, permits_cons] at hx
      obtain ⟨root, null, dirs, hplaces, hpermits⟩ := hpolicy.permits
      exact ⟨w.cwd, root, null, dirs, hplaces,
        leaves_changes ((hpermits below x r).mp hx.1) hpolicy.1 hr⟩
    · rw [hdomain, permits_cons] at hx
      exact hshared.bounded below x r hr hx.2
  · rename_i hplain
    refine ⟨hall, fun cache hcache below x r hx => ?_,
      fun below x r hr hx => List.forall_mem_cons.mpr
      ⟨fun hsandboxed => absurd hsandboxed hplain, ?_⟩⟩
    · rw [hinside]
      exact hshared.cache cache hcache below x r hx
    · rw [hinside] at hx
      exact hshared.bounded below x r hr hx

theorem Shared.start {top : Level} (hdomain : w.domain = []) : Shared h top [] w where
  same _ hl := absurd hl List.not_mem_nil
  cache _ _ _ _ _ _ := by
    rw [hdomain]
    exact permits_nil
  bounded _ _ _ _ _ _ hl := absurd hl List.not_mem_nil

theorem Shared.congr {top : Level} (hshared : Shared h top levels w)
    (hdomain : w₀.domain = w.domain) : Shared h top levels w₀ where
  same := hshared.same
  cache := hdomain ▸ hshared.cache
  bounded := hdomain ▸ hshared.bounded

/-- Every setup in a chain uses the cache directory of the outermost one, may do everything below
it, and changes only what every sandbox on the way leaves it to change. -/
theorem nested_shares (hnested : Nested h strerror levels w) {top : Level}
    (htop : levels.getLast? = some top)
    (habsolute : top.cacheDir.head? = some SLASH) : w.env HACMAN_CACHE = some top.cacheDir ∧
      Shared h top levels w := by
  induction hnested with
  | @outer l w₀ w hsandboxed hdomain hstarts =>
    obtain rfl := Option.some.inj htop
    obtain ⟨henv, hinside⟩ := hstarts.inherits
    rw [if_pos hsandboxed] at henv
    exact ⟨henv, (Shared.start hdomain).inside rfl hinside⟩
  | @inner l levels w w₀ w' home cwd houter hdomain henv hcache hstarts ih =>
    have hlast : levels.getLast? = some top := by
      cases houter <;> exact htop
    obtain ⟨hvar, hshared⟩ := ih hlast
    rw [henv, hvar, hmCacheDir_absolute habsolute] at hcache
    have hsame : l.cacheDir = top.cacheDir := (Option.some.inj hcache).symm
    obtain ⟨henv', hinside⟩ := hstarts.inherits
    refine ⟨?_, (hshared.congr hdomain).inside hsame hinside⟩
    rw [henv', hsame, henv, hvar, ite_self]

end Chain

section Plain

def plainLevel (workdir : Bytes) : Level := ⟨{ sandboxed := true }, workdir, ascii "/c"⟩

theorem plain_starts {workdir : Bytes} {w₀ : World FileTree.Path}
    (hwork : FileTree.comps workdir ≠ FileTree.comps DEV_NULL) (hw : ∀ fd, w₀.fds fd = none)
    (hunset : w₀.unset = false) (hlayers : w₀.domain.length < 16) :
    ∃ w, Starts plainHost (fun _ => []) (plainLevel workdir) w₀ w ∧ w.fds = w₀.fds ∧
      w.domain.length = w₀.domain.length + 1 := by
  obtain ⟨t, k, w, hsteps, hsame⟩ := plain_run hwork hw hlayers
  have hprepared := ((child_prepares .command).guard hsteps rfl).2
  have hinside := hprepared.inside
  rw [Inside, if_pos rfl] at hinside
  obtain ⟨l, -, hdomain⟩ := hinside
  exact ⟨w, ⟨hsame.trans hunset, .command, true, t, _, k, hsteps⟩, hprepared.fds,
    congrArg List.length hdomain⟩

theorem nested_shares_plain : ∃ w : World FileTree.Path,
    Shared plainHost (plainLevel (ascii "/c/k.work"))
      [plainLevel (ascii "/c/m.work"), plainLevel (ascii "/c/k.work")] w := by
  have habsolute : (ascii "/c").head? = some SLASH := by decide
  obtain ⟨w, hstarts, hfds, hlayers⟩ :=
    @plain_starts (ascii "/c/k.work") plainWorld (by decide) (fun _ => rfl) rfl (by decide)
  obtain ⟨w', hstarts', -⟩ :=
    @plain_starts (ascii "/c/m.work") w (by decide) (fun fd => congrFun hfds fd) hstarts.1
      (hlayers ▸ by decide)
  have hvar : w.env HACMAN_CACHE = some (ascii "/c") := hstarts.inherits.1
  have hcache : Cache.hmCacheDir none ⟨w.env HACMAN_CACHE, none, none⟩ = some (ascii "/c") := by
    rw [hvar]
    exact hmCacheDir_absolute habsolute
  exact ⟨w', (nested_shares (.inner (.outer rfl rfl hstarts) rfl rfl hcache hstarts') rfl
    habsolute).2⟩

end Plain

end Hacman.Inherited
