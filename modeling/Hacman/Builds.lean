import Hacman.Stamped
import Hacman.Cache

/-!
# Builds and their records

The digest that is stamped into the program is part of its version, the version of every project's
identity, and the identity of every record: a record is read again by the build that wrote it, and
by no other one.
-/

namespace Hacman.Builds
open Octets Util Cache Stamp Stamped

section Model

def PLUS : UInt8 := 43

def hmVersion (projectVersion : Bytes) (h : UInt64) : Bytes :=
  projectVersion ++ [PLUS] ++ (List.range 16).map fun i =>
    hexDigit (h.toNat >>> (60 - 4 * i) &&& 15)

variable (xxh3 : Bytes → UInt64)

/-- A program as it was linked, and as it was stamped and runs. -/
structure Build where
  path : Bytes
  linked : ElfFile
  program : ElfFile
  layout : Layout
  slot : Nat
  found : findSlot path linked = .ok (layout, slot)
  stamped : stamp xxh3 path linked = .ok program

variable {xxh3} (b : Build xxh3) (projectVersion siml : Bytes)

/-- The slot in memory. -/
def Build.selfHash : UInt64 := (decode b.layout
    (bytesAt b.program.data b.slot HM_SELFHASH_SIZE)).toUInt64

def Build.version : Bytes := hmVersion projectVersion b.selfHash

def Build.identity : Bytes := hmIdentityBuild xxh3 (b.version projectVersion) siml
    (HM_IDENTITY_MAX + 1)

end Model

section Versions
variable {xxh3 : Bytes → UInt64} {b b' : Build xxh3}
  {projectVersion projectVersion' siml siml' : Bytes}

theorem hmVersion_digest (projectVersion data : Bytes) :
    hmVersion projectVersion (xxh3 data) = projectVersion ++ [PLUS] ++ hmHashHex xxh3 data := by
  unfold hmVersion hmHashHex
  congr 1
  refine List.map_congr_left fun i _ => ?_
  rw [Nat.shiftRight_eq_div_pow, show 15 = 2 ^ 4 - 1 from rfl, Nat.and_two_pow_sub_one_eq_mod]

theorem Build.selfHash_eq (b : Build xxh3) : b.selfHash = xxh3 b.linked.data := by
  obtain ⟨k, slot, hfound, -, hprogram⟩ := stamp_ok.mp b.stamped
  obtain ⟨rfl, rfl⟩ : b.layout = k ∧ b.slot = slot := by
    have hsame := b.found.symm.trans hfound
    simpa using hsame
  have hin : b.slot + 8 ≤ len b.linked := by
    obtain ⟨-, -, i, -, hslot, hoff⟩ := findSlot_ok.mp b.found
    rw [hoff]
    exact hslot.inside
  rw [Build.selfHash, hprogram, show HM_SELFHASH_SIZE = 8 from rfl, bytesAt_write hin,
    decode_encode]
  exact UInt64.ofNat_toNat

theorem Build.version_eq (b : Build xxh3) (projectVersion : Bytes) :
    b.version projectVersion = projectVersion ++ [PLUS] ++ hmHashHex xxh3 b.linked.data := by
  rw [Build.version, b.selfHash_eq, hmVersion_digest]

/-- A project version leaves room for the rest of the identity. -/
structure Fits (projectVersion : Bytes) : Prop where
  length : projectVersion.length + 47 ≤ HM_IDENTITY_MAX
  line : LF ∉ projectVersion

theorem Build.identity_eq (b : Build xxh3) (h : Fits projectVersion) :
    b.identity projectVersion siml =
    ascii "siml:" ++ hmHashHex xxh3 siml ++ ascii " hacman:" ++ b.version projectVersion := by
  have hlen := h.length
  rw [Build.identity, hmIdentityBuild, if_neg]
  rw [b.version_eq, List.length_append, List.length_append, hmHashHex_length]
  have hpieces : (ascii "siml:").length = 5 ∧ (ascii " hacman:").length = 8 := by decide
  simp only [List.length_singleton]
  omega

theorem Build.identity_line (b : Build xxh3) (h : Fits projectVersion) :
    LF ∉ b.identity projectVersion siml ∧ (b.identity projectVersion siml).length ≤
      HM_IDENTITY_MAX := by
  have hlen := h.length
  have hversion : LF ∉ b.version projectVersion := by
    rw [b.version_eq]
    simp only [List.mem_append, h.line, hmHashHex_notMem xxh3 b.linked.data
      (show LF.toNat < 48 by decide), false_or, or_false]
    decide
  refine ⟨hmIdentityBuild_notMem _ _ _ hversion, ?_⟩
  rw [b.identity_eq h, b.version_eq]
  have hpieces : (ascii "siml:").length = 5 ∧ (ascii " hacman:").length = 8 := by decide
  simp only [List.length_append, hmHashHex_length, List.length_singleton]
  omega

theorem version_inj (b b' : Build xxh3) : b.version projectVersion = b'.version projectVersion' ↔
    projectVersion = projectVersion' ∧ xxh3 b.linked.data = xxh3 b'.linked.data := by
  rw [b.version_eq, b'.version_eq]
  constructor
  · intro h
    obtain ⟨hproject, hdigest⟩ := List.append_inj' h (by simp)
    exact ⟨List.append_inj_left' hproject rfl, hmHashHex_eq_iff.mp hdigest⟩
  · rintro ⟨rfl, hdigest⟩
    rw [hmHashHex_eq_iff.mpr hdigest]

theorem identity_inj (h : Fits projectVersion) (h' : Fits projectVersion') :
    b.identity projectVersion siml = b'.identity projectVersion' siml' ↔
      xxh3 siml = xxh3 siml' ∧ projectVersion = projectVersion' ∧
        xxh3 b.linked.data = xxh3 b'.linked.data := by
  rw [b.identity_eq h, b'.identity_eq h', ← version_inj]
  constructor
  · intro heq
    obtain ⟨hsiml, hrest⟩ := List.append_inj
      (by simpa only [List.append_assoc, List.append_cancel_left_eq] using heq) (by simp)
    exact ⟨hmHashHex_eq_iff.mp hsiml, List.append_cancel_left hrest⟩
  · rintro ⟨hsiml, hversion⟩
    rw [hmHashHex_eq_iff.mpr hsiml, hversion]

/-- A record is known again exactly to a build with the same digest and project version, for a
project of the same digest; everything else finds nothing. And the version names the digest that the
check of the program prints. -/
theorem build_records (h : Fits projectVersion) (h' : Fits projectVersion') {r : Record}
    (hmark : r.mark.length ≤ HM_MARK_MAX) :
    let loaded := hmCacheLoad (b'.identity projectVersion' siml')
      (some (recordBytes (b.identity projectVersion siml) r))
    (loaded.known = true ↔
      xxh3 siml = xxh3 siml' ∧ projectVersion = projectVersion' ∧
        xxh3 b.linked.data = xxh3 b'.linked.data) ∧
    (loaded.known = false → loaded = {}) ∧
    (Stable b.linked → ∀ path, ∃ digits, check xxh3 path b.program = .ok (digits ++ [LF]) ∧
      b.version projectVersion = projectVersion ++ [PLUS] ++ digits) := by
  obtain ⟨hline, hlen⟩ := @Build.identity_line _ _ siml b h
  have hload := @load_recordBytes _ (b'.identity projectVersion' siml') _ hline hlen hmark
  refine ⟨?_, ?_, fun hstable path => ?_⟩
  · rw [← identity_inj h h', hload]
    split <;> simp [*]
  · rw [hload]
    split
    · exact fun hknown => nomatch hknown
    · exact fun _ => rfl
  · have hverified := @verifiable_of_stable xxh3 b.path path _ hstable b.program b.stamped
    exact ⟨_, hverified.2.2.1, b.version_eq projectVersion⟩

end Versions

section Example

def smallElf : Bytes :=
  ELFMAG ++ [1, 1] ++ List.replicate 26 0 ++ word32 52 ++ List.replicate 10 0 ++ bytesLe 40 2 ++
    bytesLe 3 2 ++ bytesLe 2 2 ++ List.replicate 40 0 ++
    (word32 1 ++ word32 SHT_PROGBITS ++ List.replicate 8 0 ++ word32 186 ++ word32 8 ++
      List.replicate 16 0) ++
    (word32 0 ++ word32 3 ++ List.replicate 8 0 ++ word32 172 ++ word32 14 ++
      List.replicate 16 0) ++ 0 :: slotName ++
    List.replicate 8 0

def byLength (data : Bytes) : UInt64 := data.length.toUInt64

def build (f : ElfFile) (hfound : findSlot (ascii "in") f = .ok (⟨false, false⟩, 186))
    (hzero : Stamped.Zero f 186) : Build byLength where
  path := ascii "in"
  linked := f
  program := write f ⟨false, false⟩ 186 (byLength f.data)
  layout := ⟨false, false⟩
  slot := 186
  found := hfound
  stamped := stamp_ok.mpr ⟨_, _, hfound, hzero, rfl⟩

def smallBuild : Build byLength :=
  build ⟨smallElf, by decide +kernel⟩ (by decide +kernel) (by unfold Stamped.Zero; decide +kernel)

def longerBuild : Build byLength :=
  build ⟨smallElf ++ [0], by decide +kernel⟩ (by decide +kernel)
    (by unfold Stamped.Zero; decide +kernel)

theorem build_records_longer :
    (hmCacheLoad (smallBuild.identity (ascii "1") [])
      (some (recordBytes (smallBuild.identity (ascii "1") []) {}))).known = true ∧
    hmCacheLoad (longerBuild.identity (ascii "1") [])
      (some (recordBytes (smallBuild.identity (ascii "1") []) {})) = {} := by
  have hfits : Fits (ascii "1") := ⟨by decide, by decide⟩
  have hmark : ({} : Record).mark.length ≤ HM_MARK_MAX := by decide
  have hdigest : byLength smallBuild.linked.data ≠ byLength longerBuild.linked.data := by
    decide +kernel
  obtain ⟨hsame, -, -⟩ := @build_records _ smallBuild smallBuild _ _ [] [] hfits hfits _ hmark
  obtain ⟨hother, hnone, -⟩ := @build_records _ smallBuild longerBuild _ _ [] [] hfits hfits _ hmark
  refine ⟨hsame.mpr ⟨rfl, rfl, rfl⟩, hnone ?_⟩
  exact Bool.eq_false_iff.mpr fun hknown => hdigest (hother.mp hknown).2.2

end Example

end Hacman.Builds
