import Hacman.Util

/-!
# The self-hash slot of an ELF file

`hm-stamp` looks for the one section with the name of the slot and writes the digest of the
file into it. Every read, every offset and the one division are checked here, so that what can
go wrong in memory or in 64 bits is a result like any other.
-/

namespace Hacman.Stamp
open Octets Util

section Checked

@[ext] structure ElfFile where
  data : Bytes
  fits : data.length < 2 ^ 64

/-- The decoding state: `ELFCLASS64` or 32, `ELFDATA2MSB` or LSB. -/
structure Layout where
  is64 : Bool
  msb : Bool
  deriving DecidableEq, Repr

/-- A read outside of the file, an offset that wraps around, a division by zero, or a diagnostic. -/
inductive Stop
  | outside
  | wraps
  | divides
  | refused (text : Bytes)
  deriving DecidableEq, Repr

def add (a b : Nat) : Except Stop Nat := if a + b < 2 ^ 64 then .ok (a + b) else .error .wraps

def mul (a b : Nat) : Except Stop Nat := if a * b < 2 ^ 64 then .ok (a * b) else .error .wraps

def sub (a b : Nat) : Except Stop Nat := if b ≤ a then .ok (a - b) else .error .wraps

def div (a b : Nat) : Except Stop Nat := if b = 0 then .error .divides else .ok (a / b)

variable (f : ElfFile)

def len : Nat := f.data.length

def byteAt (off : Nat) : Except Stop UInt8 :=
  if h : off < f.data.length then .ok (f.data.get ⟨off, h⟩) else .error .outside

def readBytes (off n : Nat) : Except Stop Bytes := do
  let fin ← add off n
  if fin ≤ len f then .ok (bytesAt f.data off n) else .error .outside

def rd (k : Layout) (off n : Nat) : Except Stop Nat :=
  (List.range n).foldlM (fun v i => do
    let pos ← add off (if k.msb then i else n - 1 - i)
    let b ← byteAt f pos
    pure (v * 256 + b.toNat)) 0

end Checked

section Format

def HM_SELFHASH_SECTION : Bytes := ascii ".hm_selfhash"
def HM_SELFHASH_SIZE : Nat := 8
def EI_NIDENT : Nat := 16
def EI_CLASS : Nat := 4
def EI_DATA : Nat := 5
def ELFMAG : Bytes := [127, 69, 76, 70]
def SHT_PROGBITS : Nat := 1

def slotName : Bytes := HM_SELFHASH_SECTION ++ [0]

structure Field where
  off64 : Nat
  size64 : Nat
  off32 : Nat
  size32 : Nat

def e_shoff : Field := ⟨40, 8, 32, 4⟩
def e_shentsize : Field := ⟨58, 2, 46, 2⟩
def e_shnum : Field := ⟨60, 2, 48, 2⟩
def e_shstrndx : Field := ⟨62, 2, 50, 2⟩
def sh_name : Field := ⟨0, 4, 0, 4⟩
def sh_type : Field := ⟨4, 4, 4, 4⟩
def sh_offset : Field := ⟨24, 8, 16, 4⟩
def sh_size : Field := ⟨32, 8, 20, 4⟩

def Layout.ehdrSize (k : Layout) : Nat := if k.is64 then 64 else 52
def Layout.shdrSize (k : Layout) : Nat := if k.is64 then 64 else 40
def Layout.off (k : Layout) (field : Field) : Nat := if k.is64 then field.off64 else field.off32
def Layout.size (k : Layout) (field : Field) : Nat := if k.is64 then field.size64 else field.size32

variable (f : ElfFile) (k : Layout)

def ehdr (field : Field) : Except Stop Nat := rd f k (k.off field) (k.size field)

def shdr (base : Nat) (field : Field) : Except Stop Nat := do
  let off ← add base (k.off field)
  rd f k off (k.size field)

end Format

section Scanner
variable (path : Bytes) (f : ElfFile) (k : Layout)

def refuse {α : Type} (text : String) : Except Stop α :=
  .error (.refused (ascii "hm-stamp: " ++ path ++ ascii text ++ [LF]))

def header : Except Stop Layout :=
  if len f < EI_NIDENT then refuse path " is not an ELF file"
  else do
    let magic ← readBytes f 0 ELFMAG.length
    if magic ≠ ELFMAG then refuse path " is not an ELF file"
    else
      let elfClass ← byteAt f EI_CLASS
      let elfData ← byteAt f EI_DATA
      let k : Layout := ⟨elfClass = 2, elfData = 2⟩
      if !k.is64 && elfClass ≠ 1 || !k.msb && elfData ≠ 1 || len f < k.ehdrSize then
        refuse path " has an unsupported ELF header"
      else pure k

structure Table where
  shoff : Nat
  shentsize : Nat
  shnum : Nat
  strOff : Nat
  strSize : Nat
  deriving DecidableEq, Repr

def table : Except Stop Table := do
  let shoff ← ehdr f k e_shoff
  let shentsize ← ehdr f k e_shentsize
  let shnum ← ehdr f k e_shnum
  let shstrndx ← ehdr f k e_shstrndx
  if shentsize ≠ k.shdrSize ∨ shnum = 0 ∨ shnum ≤ shstrndx ∨ len f < shoff then
    refuse path " has no usable section table"
  else
    let room ← sub (len f) shoff
    let most ← div room shentsize
    if most < shnum then refuse path " has no usable section table"
    else
      let entry ← mul shstrndx shentsize
      let base ← add shoff entry
      let strOff ← shdr f k base sh_offset
      let strSize ← shdr f k base sh_size
      if len f < strOff then refuse path " has a damaged section name table"
      else
        let room ← sub (len f) strOff
        if room < strSize then refuse path " has a damaged section name table"
        else pure ⟨shoff, shentsize, shnum, strOff, strSize⟩

def turn (t : Table) (state : Nat × Nat) (i : Nat) : Except Stop (Nat × Nat) := do
  let entry ← mul i t.shentsize
  let base ← add t.shoff entry
  let name ← shdr f k base sh_name
  let off ← shdr f k base sh_offset
  let size ← shdr f k base sh_size
  if t.strSize ≤ name then pure state
  else
    let room ← sub t.strSize name
    if room < slotName.length then pure state
    else
      let pos ← add t.strOff name
      let text ← readBytes f pos slotName.length
      if text ≠ slotName then pure state
      else
        let type ← shdr f k base sh_type
        if type ≠ SHT_PROGBITS ∨ size ≠ HM_SELFHASH_SIZE ∨ len f < off then
          refuse path " has a malformed .hm_selfhash section"
        else
          let room ← sub (len f) off
          if room < HM_SELFHASH_SIZE then refuse path " has a malformed .hm_selfhash section"
          else pure (off, state.2 + 1)

/-- The offset of the slot, behind the class and the byte order of the file. -/
def findSlot : Except Stop (Layout × Nat) := do
  let k ← header path f
  let t ← table path f k
  let (slot, found) ← (List.range t.shnum).foldlM (turn path f k t) (0, 0)
  if found ≠ 1 then .error (.refused (ascii "hm-stamp: " ++ path ++ ascii " has " ++
    (revDigits 24 found).reverse ++ ascii " .hm_selfhash sections, expected 1" ++ [LF]))
  else pure (k, slot)

end Scanner

section Fields
variable {f : ElfFile} {k : Layout} {off n a b : Nat} {field : Field}

def decode (k : Layout) (bytes : Bytes) : Nat :=
  (if k.msb then bytes else bytes.reverse).foldl (fun v b => v * 256 + b.toNat) 0

def fieldAt (f : ElfFile) (k : Layout) (base : Nat) (field : Field) : Nat :=
  decode k (bytesAt f.data (base + k.off field) (k.size field))

theorem add_eq (h : a + b < 2 ^ 64) : add a b = .ok (a + b) := if_pos h

theorem mul_eq (h : a * b < 2 ^ 64) : mul a b = .ok (a * b) := if_pos h

theorem sub_eq (h : b ≤ a) : sub a b = .ok (a - b) := if_pos h

theorem div_eq (h : b ≠ 0) : div a b = .ok (a / b) := if_neg h

theorem byteAt_eq (h : off < len f) : byteAt f off = .ok (f.data.getD off 0) :=
  (dif_pos h).trans (congrArg Except.ok (List.getElem_eq_getD 0))

theorem readBytes_eq (h : off + n ≤ len f) : readBytes f off n = .ok (bytesAt f.data off n) := by
  have hlt : off + n < 2 ^ 64 := lt_of_le_of_lt h f.fits
  rw [readBytes, add_eq hlt]
  exact if_pos h

theorem foldlM_ok {σ α : Type} {step : σ → α → Except Stop σ} {next : σ → α → σ}
    (l : List α) (s : σ)
    (h : ∀ a ∈ l, ∀ s, step s a = .ok (next s a)) : l.foldlM step s = .ok (l.foldl next s) := by
  induction l generalizing s with
  | nil => rfl
  | cons a l ih =>
    obtain ⟨ha, hl⟩ := List.forall_mem_cons.mp h
    rw [List.foldlM_cons, ha, List.foldl_cons, ← ih (next s a) hl]
    rfl

theorem bytes_in_order (k : Layout) (h : off + n ≤ len f) :
    (List.range n).map (fun i => f.data.getD (off + if k.msb then i else n - 1 - i) 0) =
      if k.msb then bytesAt f.data off n else (bytesAt f.data off n).reverse := by
  have hlen : (bytesAt f.data off n).length = n := by
    simp only [bytesAt, List.length_take, List.length_drop]
    unfold len at h
    omega
  have hget (j : Nat) (hj : j < n) : f.data.getD (off + j) 0 = (bytesAt f.data off n).getD j 0 := by
    simp only [bytesAt, List.getD_eq_getElem?_getD, List.getElem?_take,
      List.getElem?_drop, if_pos hj]
  cases k.msb with
  | true =>
    refine List.ext_getElem (by simp [hlen]) fun i hi hi' => ?_
    rw [List.length_map, List.length_range] at hi
    simp only [List.getElem_map, List.getElem_range, if_true, hget i hi]
    exact (List.getElem_eq_getD 0).symm
  | false =>
    refine List.ext_getElem (by simp [hlen]) fun i hi hi' => ?_
    rw [List.length_map, List.length_range] at hi
    simp only [List.getElem_map, List.getElem_range, Bool.false_eq_true, if_false,
      hget (n - 1 - i) (by omega), List.getElem_reverse, hlen]
    exact (List.getElem_eq_getD 0).symm

theorem rd_eq (h : off + n ≤ len f) : rd f k off n = .ok (decode k (bytesAt f.data off n)) := by
  have hpos (i : Nat) (hi : i ∈ List.range n) : off + (if k.msb then i else n - 1 - i) < len f := by
    have hn := List.mem_range.mp hi
    split <;> omega
  have hstep := fun i hi (v : Nat) => show (do
      let pos ← add off (if k.msb then i else n - 1 - i)
      let b ← byteAt f pos
      pure (v * 256 + b.toNat)) = .ok (v * 256 +
        (f.data.getD (off + if k.msb then i else n - 1 - i) 0).toNat) by
    rw [add_eq ((hpos i hi).trans f.fits)]
    change (byteAt f _ >>= fun b => _) = _
    rw [byteAt_eq (hpos i hi)]
    rfl
  rw [rd, foldlM_ok _ _ hstep, decode, ← bytes_in_order k h, List.foldl_map]

theorem ehdr_eq (h : k.off field + k.size field ≤ len f) :
    ehdr f k field = .ok (fieldAt f k 0 field) := by
  rw [ehdr, rd_eq h, fieldAt, Nat.zero_add]

theorem shdr_eq {base : Nat} (h : base + (k.off field + k.size field) ≤ len f) :
    shdr f k base field = .ok (fieldAt f k base field) := by
  have hfits := f.fits
  unfold len at h
  rw [shdr, add_eq (by omega)]
  exact rd_eq (by rw [len, Nat.add_assoc]; exact h)

end Fields

section Sections
variable {path : Bytes} {f : ElfFile} {k k' : Layout} {slot : Nat}

theorem ok_bind {α β : Type} (a : α) (next : α → Except Stop β) : (Except.ok a >>= next) = next a :=
  rfl

structure Ident (f : ElfFile) (k : Layout) : Prop where
  ident : EI_NIDENT ≤ len f
  magic : bytesAt f.data 0 ELFMAG.length = ELFMAG
  elfClass : f.data.getD EI_CLASS 0 = if k.is64 then 2 else 1
  elfData : f.data.getD EI_DATA 0 = if k.msb then 2 else 1
  size : k.ehdrSize ≤ len f

theorem Ident.unique (h : Ident f k) (h' : Ident f k') : k = k' := by
  have hclass := h.elfClass.symm.trans h'.elfClass
  have hdata := h.elfData.symm.trans h'.elfData
  obtain ⟨is64, msb⟩ := k
  obtain ⟨is64', msb'⟩ := k'
  revert hclass hdata
  cases is64 <;> cases is64' <;> cases msb <;> cases msb' <;> decide

theorem Ident.layout (h : Ident f k) :
    Layout.mk (f.data.getD EI_CLASS 0 = 2) (f.data.getD EI_DATA 0 = 2) = k := by
  rw [h.elfClass, h.elfData]
  obtain ⟨is64, msb⟩ := k
  cases is64 <;> cases msb <;> rfl

theorem header_eq (path : Bytes) (f : ElfFile) :
    (∃ k, Ident f k ∧ header path f = .ok k) ∨
      (∀ k, ¬ Ident f k) ∧ ∃ text, header path f = .error (.refused text) := by
  by_cases hident : len f < EI_NIDENT
  · exact .inr ⟨fun k h => absurd h.ident (not_le.mpr hident), _, if_pos hident⟩
  · have hlen : 16 ≤ len f := not_lt.mp hident
    rw [header, if_neg hident, readBytes_eq
      (show 0 + ELFMAG.length ≤ len f by exact le_trans (by decide) hlen), ok_bind]
    by_cases hmagic : bytesAt f.data 0 ELFMAG.length ≠ ELFMAG
    · exact .inr ⟨fun k h => hmagic h.magic, _, if_pos hmagic⟩
    · rw [if_neg hmagic, byteAt_eq (lt_of_lt_of_le (by decide : EI_CLASS < 16) hlen), ok_bind,
        byteAt_eq (lt_of_lt_of_le (by decide : EI_DATA < 16) hlen), ok_bind]
      set elfClass := f.data.getD EI_CLASS 0
      set elfData := f.data.getD EI_DATA 0
      by_cases hbad : (!(Layout.mk (elfClass = 2) (elfData = 2)).is64 && decide (elfClass ≠ 1) ||
          !(Layout.mk (elfClass = 2) (elfData = 2)).msb && decide (elfData ≠ 1) ||
          decide (len f < (Layout.mk (elfClass = 2) (elfData = 2)).ehdrSize)) = true
      · refine .inr ⟨fun k h => ?_, _, if_pos hbad⟩
        have h64 : elfClass = if k.is64 then 2 else 1 := h.elfClass
        have hmsb : elfData = if k.msb then 2 else 1 := h.elfData
        rw [h.layout] at hbad
        simp only [Bool.or_eq_true, Bool.and_eq_true, Bool.not_eq_true', decide_eq_true_eq] at hbad
        rcases hbad with (⟨hsmall, hone⟩ | ⟨hlittle, hone⟩) | hshort
        · rw [hsmall] at h64
          exact hone h64
        · rw [hlittle] at hmsb
          exact hone hmsb
        · exact absurd h.size (not_le.mpr hshort)
      · refine .inl ⟨Layout.mk (elfClass = 2) (elfData = 2), ?_, if_neg hbad⟩
        simp only [Bool.or_eq_true, Bool.and_eq_true, decide_eq_true_eq, not_or, not_and] at hbad
        obtain ⟨⟨h64, hmsb⟩, hsize⟩ := hbad
        refine ⟨hlen, not_not.mp hmagic, ?_, ?_, not_lt.mp hsize⟩
        · change elfClass = if decide (elfClass = 2) = true then 2 else 1
          by_cases h : elfClass = 2
          · simp [h]
          · simpa [h] using h64
        · change elfData = if decide (elfData = 2) = true then 2 else 1
          by_cases h : elfData = 2
          · simp [h]
          · simpa [h] using hmsb

def namesIndex (f : ElfFile) (k : Layout) : Nat := fieldAt f k 0 e_shstrndx

def sectionAt (f : ElfFile) (k : Layout) (i : Nat) : Nat := fieldAt f k 0 e_shoff + i * k.shdrSize

def tableOf (f : ElfFile) (k : Layout) : Table where
  shoff := fieldAt f k 0 e_shoff
  shentsize := k.shdrSize
  shnum := fieldAt f k 0 e_shnum
  strOff := fieldAt f k (sectionAt f k (namesIndex f k)) sh_offset
  strSize := fieldAt f k (sectionAt f k (namesIndex f k)) sh_size

structure Usable (f : ElfFile) (k : Layout) : Prop where
  entries : fieldAt f k 0 e_shentsize = k.shdrSize
  index : namesIndex f k < (tableOf f k).shnum
  headers : sectionAt f k (tableOf f k).shnum ≤ len f
  names : (tableOf f k).strOff + (tableOf f k).strSize ≤ len f

theorem shdrSize_pos (k : Layout) : 0 < k.shdrSize := by
  unfold Layout.shdrSize
  split <;> decide

theorem field_in_shdr (k : Layout) {field : Field}
    (h : field ∈ [sh_name, sh_type, sh_offset, sh_size]) :
    k.off field + k.size field ≤ k.shdrSize := by
  obtain ⟨is64, msb⟩ := k
  simp only [List.mem_cons, List.not_mem_nil, or_false] at h
  rcases h with rfl | rfl | rfl | rfl <;> cases is64 <;> cases msb <;> decide

theorem field_in_ehdr (k : Layout) {field : Field}
    (h : field ∈ [e_shoff, e_shentsize, e_shnum, e_shstrndx]) :
    k.off field + k.size field ≤ k.ehdrSize := by
  obtain ⟨is64, msb⟩ := k
  simp only [List.mem_cons, List.not_mem_nil, or_false] at h
  rcases h with rfl | rfl | rfl | rfl <;> cases is64 <;> cases msb <;> decide

theorem Ident.ehdr (h : Ident f k) {field : Field}
    (hfield : field ∈ [e_shoff, e_shentsize, e_shnum, e_shstrndx]) :
    ehdr f k field = .ok (fieldAt f k 0 field) :=
  ehdr_eq ((field_in_ehdr k hfield).trans h.size)

theorem sectionAt_fits {n i : Nat} (h : sectionAt f k n ≤ len f) (hi : i < n) :
    sectionAt f k i + k.shdrSize ≤ len f := by
  have hmul : (i + 1) * k.shdrSize ≤ n * k.shdrSize := Nat.mul_le_mul_right _ hi
  rw [Nat.add_mul, Nat.one_mul] at hmul
  unfold sectionAt at h ⊢
  omega

theorem entry_eq {i : Nat} (h : sectionAt f k i + k.shdrSize ≤ len f) :
    mul i k.shdrSize = .ok (i * k.shdrSize) ∧
      add (fieldAt f k 0 e_shoff) (i * k.shdrSize) = .ok (sectionAt f k i) := by
  have hfits := f.fits
  unfold sectionAt len at h
  exact ⟨mul_eq (by omega), add_eq (by omega)⟩

theorem section_eq {i : Nat} (h : sectionAt f k i + k.shdrSize ≤ len f) {field : Field}
    (hfield : field ∈ [sh_name, sh_type, sh_offset, sh_size]) :
    shdr f k (sectionAt f k i) field = .ok (fieldAt f k (sectionAt f k i) field) :=
  shdr_eq ((Nat.add_le_add_left (field_in_shdr k hfield) _).trans h)

theorem table_eq (path : Bytes) (hk : Ident f k) : Usable f k ∧ table path f k = .ok (tableOf f k) ∨
    ¬ Usable f k ∧ ∃ text, table path f k = .error (.refused text) := by
  rw [table, hk.ehdr (by simp), ok_bind, hk.ehdr (by simp), ok_bind, hk.ehdr (by simp), ok_bind,
    hk.ehdr (by simp), ok_bind]
  by_cases hfirst : fieldAt f k 0 e_shentsize ≠ k.shdrSize ∨ fieldAt f k 0 e_shnum = 0 ∨
      fieldAt f k 0 e_shnum ≤ fieldAt f k 0 e_shstrndx ∨ len f < fieldAt f k 0 e_shoff
  · refine .inr ⟨fun h => ?_, _, if_pos hfirst⟩
    have hindex := h.index
    have hheaders := h.headers
    simp only [namesIndex, tableOf, sectionAt] at hindex hheaders
    rcases hfirst with hentries | hnum | hnames | hoff
    · exact hentries h.entries
    · omega
    · omega
    · omega
  · rw [if_neg hfirst]
    obtain ⟨hentries, hnum, hnames, hoff⟩ : fieldAt f k 0 e_shentsize = k.shdrSize ∧
        fieldAt f k 0 e_shnum ≠ 0 ∧
        fieldAt f k 0 e_shstrndx < fieldAt f k 0 e_shnum ∧ fieldAt f k 0 e_shoff ≤ len f := by
      simpa only [not_or, not_not, not_le, not_lt] using hfirst
    have hpos := shdrSize_pos k
    rw [hentries, sub_eq hoff, ok_bind, div_eq (Nat.pos_iff_ne_zero.mp hpos), ok_bind]
    have hinside : (len f - fieldAt f k 0 e_shoff) / k.shdrSize < fieldAt f k 0 e_shnum ↔
        ¬ sectionAt f k (tableOf f k).shnum ≤ len f := by
      rw [Nat.div_lt_iff_lt_mul hpos]
      simp only [sectionAt, tableOf]
      omega
    by_cases hmost : (len f - fieldAt f k 0 e_shoff) / k.shdrSize < fieldAt f k 0 e_shnum
    · exact .inr ⟨fun h => hinside.mp hmost h.headers, _, if_pos hmost⟩
    · have hheaders : sectionAt f k (tableOf f k).shnum ≤ len f := not_not.mp (mt hinside.mpr hmost)
      have hstr : sectionAt f k (namesIndex f k) + k.shdrSize ≤ len f :=
        sectionAt_fits hheaders hnames
      obtain ⟨hmul, hadd⟩ := entry_eq hstr
      unfold namesIndex at hmul hadd hstr
      rw [if_neg hmost, hmul, ok_bind, hadd, ok_bind, section_eq hstr (by simp), ok_bind,
        section_eq hstr (by simp), ok_bind]
      have hstrOff : (tableOf f k).strOff = fieldAt f k
          (sectionAt f k (fieldAt f k 0 e_shstrndx)) sh_offset := rfl
      have hstrSize : (tableOf f k).strSize = fieldAt f k
          (sectionAt f k (fieldAt f k 0 e_shstrndx)) sh_size := rfl
      rw [← hstrOff, ← hstrSize]
      by_cases hoff : len f < (tableOf f k).strOff
      · exact .inr ⟨fun h => by have hnames := h.names; omega, _, if_pos hoff⟩
      · rw [if_neg hoff, sub_eq (not_lt.mp hoff), ok_bind]
        by_cases hsize : len f - (tableOf f k).strOff < (tableOf f k).strSize
        · exact .inr ⟨fun h => by have hnames := h.names; omega, _, if_pos hsize⟩
        · exact .inl ⟨⟨hentries, hnames, hheaders, by omega⟩, if_neg hsize⟩

def Carries (f : ElfFile) (k : Layout) (i : Nat) : Prop :=
  fieldAt f k (sectionAt f k i) sh_name + slotName.length ≤ (tableOf f k).strSize ∧
    bytesAt f.data ((tableOf f k).strOff + fieldAt f k (sectionAt f k i) sh_name) slotName.length =
      slotName

instance (f : ElfFile) (k : Layout) (i : Nat) : Decidable (Carries f k i) := by
  unfold Carries
  infer_instance

structure IsSlot (f : ElfFile) (k : Layout) (i : Nat) : Prop where
  type : fieldAt f k (sectionAt f k i) sh_type = SHT_PROGBITS
  size : fieldAt f k (sectionAt f k i) sh_size = HM_SELFHASH_SIZE
  inside : fieldAt f k (sectionAt f k i) sh_offset + HM_SELFHASH_SIZE ≤ len f

/-- What one section does to the search. -/
theorem turn_eq (path : Bytes) (h : Usable f k) {i : Nat} (hi : i < (tableOf f k).shnum)
    (state : Nat × Nat) : ¬ Carries f k i ∧ turn path f k (tableOf f k) state i = .ok state ∨
    Carries f k i ∧ (IsSlot f k i ∧ turn path f k (tableOf f k) state i =
        .ok (fieldAt f k (sectionAt f k i) sh_offset, state.2 + 1) ∨
      ¬ IsSlot f k i ∧ ∃ text, turn path f k (tableOf f k) state i = .error (.refused text)) := by
  have hfits := f.fits
  have hin := sectionAt_fits h.headers hi
  have hnames := h.names
  obtain ⟨hmul, hadd⟩ := entry_eq hin
  have hsize : (tableOf f k).shentsize = k.shdrSize := rfl
  have hshoff : (tableOf f k).shoff = fieldAt f k 0 e_shoff := rfl
  rw [turn, hsize, hshoff, hmul, ok_bind, hadd, ok_bind, section_eq hin (by simp), ok_bind,
    section_eq hin (by simp), ok_bind, section_eq hin (by simp), ok_bind]
  by_cases hname : (tableOf f k).strSize ≤ fieldAt f k (sectionAt f k i) sh_name
  · refine .inl ⟨fun hc => ?_, if_pos hname⟩
    have hpos : 0 < slotName.length := by decide
    have hend := hc.1
    omega
  · rw [if_neg hname, sub_eq (not_le.mp hname).le, ok_bind]
    by_cases hroom : (tableOf f k).strSize - fieldAt f k (sectionAt f k i) sh_name < slotName.length
    · refine .inl ⟨fun hc => ?_, if_pos hroom⟩
      have hend := hc.1
      omega
    · unfold len at hnames
      rw [if_neg hroom, add_eq (by omega), ok_bind, readBytes_eq (by unfold len; omega), ok_bind]
      by_cases htext : bytesAt f.data ((tableOf f k).strOff + fieldAt f k (sectionAt f k i) sh_name)
        slotName.length ≠ slotName
      · exact .inl ⟨fun hc => htext hc.2, if_pos htext⟩
      · rw [if_neg htext, section_eq hin (by simp), ok_bind]
        refine .inr ⟨⟨by omega, not_not.mp htext⟩, ?_⟩
        by_cases hform : fieldAt f k (sectionAt f k i) sh_type ≠ SHT_PROGBITS ∨
            fieldAt f k (sectionAt f k i) sh_size ≠ HM_SELFHASH_SIZE ∨
              len f < fieldAt f k (sectionAt f k i) sh_offset
        · refine .inr ⟨fun hs => ?_, _, if_pos hform⟩
          rcases hform with htype | hlen | hoff
          · exact htype hs.type
          · exact hlen hs.size
          · have hinside := hs.inside
            omega
        · obtain ⟨htype, hlen, hoff⟩ : fieldAt f k (sectionAt f k i) sh_type = SHT_PROGBITS ∧
              fieldAt f k (sectionAt f k i) sh_size = HM_SELFHASH_SIZE ∧
              fieldAt f k (sectionAt f k i) sh_offset ≤ len f := by
            simpa only [not_or, not_not, not_lt] using hform
          rw [if_neg hform, sub_eq hoff, ok_bind]
          by_cases hshort : len f - fieldAt f k (sectionAt f k i) sh_offset < HM_SELFHASH_SIZE
          · exact .inr ⟨fun hs => by have hinside := hs.inside; omega, _, if_pos hshort⟩
          · exact .inl ⟨⟨htype, hlen, by omega⟩, if_neg hshort⟩

def carriers (f : ElfFile) (k : Layout) (l : List Nat) : List Nat := l.filter (Carries f k ·)

def slotOffset (f : ElfFile) (k : Layout) (i : Nat) : Nat := fieldAt f k (sectionAt f k i) sh_offset

theorem turns_eq (path : Bytes) (h : Usable f k) (l : List Nat)
    (hl : ∀ i ∈ l, i < (tableOf f k).shnum) (state : Nat × Nat) :
    (∀ i ∈ carriers f k l, IsSlot f k i) ∧ l.foldlM (turn path f k (tableOf f k)) state =
      .ok (((carriers f k l).map (slotOffset f k)).getLastD state.1,
        state.2 + (carriers f k l).length) ∨
    (∃ i ∈ carriers f k l, ¬ IsSlot f k i) ∧
      ∃ text, l.foldlM (turn path f k (tableOf f k)) state = .error (.refused text) := by
  induction l generalizing state with
  | nil => exact .inl ⟨fun _ hi => absurd hi List.not_mem_nil, rfl⟩
  | cons i l ih =>
    obtain ⟨hi, hl⟩ := List.forall_mem_cons.mp hl
    rw [List.foldlM_cons]
    rcases turn_eq path h hi state with ⟨hc, hturn⟩ | ⟨hc, ⟨hslot, hturn⟩ | ⟨hslot, text, hturn⟩⟩
    · have hrest : carriers f k (i :: l) = carriers f k l :=
        List.filter_cons_of_neg (by simpa using hc)
      rw [hturn, ok_bind, hrest]
      exact ih hl state
    · have hrest : carriers f k (i :: l) = i :: carriers f k l :=
        List.filter_cons_of_pos (by simpa using hc)
      rw [hturn, ok_bind, hrest]
      rcases ih hl (fieldAt f k (sectionAt f k i) sh_offset, state.2 + 1) with ⟨hall, hturns⟩ |
        ⟨⟨j, hj, hbad⟩, htext⟩
      · refine .inl ⟨List.forall_mem_cons.mpr ⟨hslot, hall⟩, hturns.trans ?_⟩
        rw [List.map_cons, List.getLastD_cons, List.length_cons, Nat.add_assoc, Nat.add_comm 1]
        rfl
      · exact .inr ⟨⟨j, List.mem_cons_of_mem i hj, hbad⟩, htext⟩
    · have hrest : carriers f k (i :: l) = i :: carriers f k l :=
        List.filter_cons_of_pos (by simpa using hc)
      rw [hturn, hrest]
      exact .inr ⟨⟨i, List.mem_cons_self, hslot⟩, text, rfl⟩

/-- Section `i` is the only one of the table that carries the name. -/
def Sole (f : ElfFile) (k : Layout) (i : Nat) : Prop :=
  i < (tableOf f k).shnum ∧ Carries f k i ∧ ∀ j < (tableOf f k).shnum, Carries f k j → j = i

theorem carriers_eq_singleton {i : Nat} :
    carriers f k (List.range (tableOf f k).shnum) = [i] ↔ Sole f k i := by
  have hmem (j : Nat) : j ∈ carriers f k (List.range (tableOf f k).shnum) ↔
      j < (tableOf f k).shnum ∧ Carries f k j := by
    simp [carriers]
  constructor
  · intro h
    have hi := (hmem i).mp (h ▸ List.mem_singleton_self i)
    exact ⟨hi.1, hi.2, fun j hj hc => List.mem_singleton.mp (h ▸ (hmem j).mpr ⟨hj, hc⟩)⟩
  · rintro ⟨hi, hc, hall⟩
    have hnodup : (carriers f k (List.range (tableOf f k).shnum)).Nodup := List.nodup_range.filter _
    have hsame : ∀ j ∈ carriers f k (List.range (tableOf f k).shnum), j = i := fun j hj =>
      hall j ((hmem j).mp hj).1 ((hmem j).mp hj).2
    have hone := List.eq_replicate_of_mem hsame
    rw [hone, List.nodup_replicate] at hnodup
    have hpos := List.length_pos_of_mem ((hmem i).mpr ⟨hi, hc⟩)
    rw [hone, Nat.le_antisymm hnodup hpos]
    rfl

/-- The search succeeds for this reason, or it ends with a diagnostic. -/
theorem findSlot_eq (path : Bytes) (f : ElfFile) :
    (∃ k i, Ident f k ∧ Usable f k ∧ Sole f k i ∧ IsSlot f k i ∧
      findSlot path f = .ok (k, slotOffset f k i)) ∨
      (∀ k i, Ident f k → Usable f k → Sole f k i → ¬ IsSlot f k i) ∧
        ∃ text, findSlot path f = .error (.refused text) := by
  rw [findSlot]
  rcases header_eq path f with ⟨k, hk, hheader⟩ | ⟨hnone, text, hheader⟩
  · rw [hheader, ok_bind]
    rcases table_eq path hk with ⟨htable, hread⟩ | ⟨htable, text, hread⟩
    · rw [hread, ok_bind]
      rcases turns_eq path htable (List.range (tableOf f k).shnum)
        (fun i hi => List.mem_range.mp hi) (0, 0) with
        ⟨hall, hturns⟩ | ⟨⟨j, hj, hbad⟩, text, hturns⟩
      · rw [hturns, ok_bind]
        by_cases hone : (carriers f k (List.range (tableOf f k).shnum)).length = 1
        · obtain ⟨i, hi⟩ := List.length_eq_one_iff.mp hone
          refine .inl ⟨k, i, hk, htable, carriers_eq_singleton.mp hi,
            hall i (hi ▸ List.mem_singleton_self i), ?_⟩
          rw [hi]
          rfl
        · have hfound : 0 + (carriers f k (List.range (tableOf f k).shnum)).length ≠ 1 := by
            rwa [Nat.zero_add]
          refine .inr ⟨fun k' i hk' _ hsole _ => ?_, _, if_pos hfound⟩
          obtain rfl := hk.unique hk'
          rw [carriers_eq_singleton.mpr hsole] at hone
          exact hone rfl
      · rw [hturns]
        refine .inr ⟨fun k' i hk' _ hsole hslot => ?_, text, rfl⟩
        obtain rfl := hk.unique hk'
        rw [carriers_eq_singleton.mpr hsole, List.mem_singleton] at hj
        exact hbad (hj ▸ hslot)
    · rw [hread]
      refine .inr ⟨fun k' i hk' htable' _ _ => ?_, text, rfl⟩
      obtain rfl := hk.unique hk'
      exact htable htable'
  · rw [hheader]
    exact .inr ⟨fun k i hk => absurd hk (hnone k), text, rfl⟩

theorem findSlot_ok : findSlot path f = .ok (k, slot) ↔
    Ident f k ∧ Usable f k ∧ ∃ i, Sole f k i ∧ IsSlot f k i ∧ slot = slotOffset f k i := by
  constructor
  · intro h
    rcases findSlot_eq path f with ⟨k', i, hk, htable, hsole, hslot, hfind⟩ | ⟨-, text, hfind⟩
    · rw [hfind, Except.ok.injEq, Prod.mk.injEq] at h
      obtain ⟨rfl, rfl⟩ := h
      exact ⟨hk, htable, i, hsole, hslot, rfl⟩
    · rw [hfind] at h
      cases h
  · rintro ⟨hk, htable, i, hsole, hslot, rfl⟩
    rcases findSlot_eq path f with ⟨k', i', hk', -, hsole', -, hfind⟩ | ⟨hnone, -⟩
    · obtain rfl := hk.unique hk'
      rw [hfind, hsole.2.2 i' hsole'.1 hsole'.2.1]
    · exact absurd hslot (hnone k i hk htable hsole)

theorem findSlot_inside (h : findSlot path f = .ok (k, slot)) :
    slot + HM_SELFHASH_SIZE ≤ f.data.length := by
  obtain ⟨-, -, i, -, hslot, rfl⟩ := findSlot_ok.mp h
  exact hslot.inside

/-- Whatever the file holds, the search reads inside of it, divides by no zero and does not wrap
around; it succeeds for exactly one well-formed slot. -/
theorem find_slot_safe (path : Bytes) (f : ElfFile) :
    (∀ stop, findSlot path f = .error stop → ∃ text, stop = .refused text) ∧
    (∀ k slot, findSlot path f = .ok (k, slot) ↔
      Ident f k ∧ Usable f k ∧ ∃ i, Sole f k i ∧ IsSlot f k i ∧ slot = slotOffset f k i) ∧
    ∀ k slot, findSlot path f = .ok (k, slot) → slot + HM_SELFHASH_SIZE ≤ f.data.length := by
  refine ⟨fun stop h => ?_, fun k slot => findSlot_ok, fun k slot h => ?_⟩
  · rcases findSlot_eq path f with ⟨k, i, -, -, -, -, hfind⟩ | ⟨-, text, hfind⟩
    · rw [hfind] at h
      cases h
    · rw [hfind, Except.error.injEq] at h
      exact ⟨text, h.symm⟩
  · obtain ⟨-, -, i, -, hslot, rfl⟩ := findSlot_ok.mp h
    exact hslot.inside

end Sections

end Hacman.Stamp
