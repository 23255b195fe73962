import Hacman.Stamp

/-!
# Stamping and checking

`stamp` writes the digest of a file into its slot and `check` looks for the slot again. It finds
the digest there if what stands in the slot has no part in finding it.
-/

namespace Hacman.Stamped
open Octets Util Stamp

section Definition

def wr64 (k : Layout) (data : Bytes) (off : Nat) (v : UInt64) : Bytes :=
  (List.range 8).foldl (fun data i => data.set (off + if k.msb then 7 - i else i)
    (v.toNat >>> (8 * i)).toUInt8) data

theorem wr64_length (k : Layout) (data : Bytes) (off : Nat) (v : UInt64) :
    (wr64 k data off v).length = data.length := by
  unfold wr64
  generalize List.range 8 = l
  induction l generalizing data with
  | nil => rfl
  | cons i l ih => rw [List.foldl_cons, ih, List.length_set]

def write (f : ElfFile) (k : Layout) (off : Nat) (v : UInt64) : ElfFile where
  data := wr64 k f.data off v
  fits := by rw [wr64_length]; exact f.fits

def hex16 (v : Nat) : Bytes := (List.range 16).map fun i => hexDigit (v / 2 ^ (60 - 4 * i) % 16)

variable (xxh3 : Bytes → UInt64) (path : Bytes) (f : ElfFile)

def stamp : Except Stop ElfFile := do
  let (k, slot) ← findSlot path f
  if (List.range HM_SELFHASH_SIZE).any fun i => f.data.getD (slot + i) 0 ≠ 0 then
    refuse path " is already stamped"
  else pure (write f k slot (xxh3 f.data))

def check : Except Stop Bytes := do
  let (k, slot) ← findSlot path f
  let stored ← rd f k slot HM_SELFHASH_SIZE
  let actual := (xxh3 (write f k slot 0).data).toNat
  if stored ≠ actual then
    .error (.refused (ascii "hm-stamp: " ++ path ++ ascii ": stored " ++ hex16 stored ++
      ascii ", file hashes to " ++ hex16 actual ++ [LF]))
  else pure (hex16 stored ++ [LF])

end Definition

section Numbers
variable {k : Layout} {a b : Bytes} {v : UInt64}

def valueLe (bytes : Bytes) : Nat := bytes.foldr (fun b v => v * 256 + b.toNat) 0

def bytesLe (v : Nat) (n : Nat) : Bytes := (List.range n).map fun i => (v >>> (8 * i)).toUInt8

def encode (k : Layout) (v : UInt64) : Bytes :=
  if k.msb then (bytesLe v.toNat 8).reverse else bytesLe v.toNat 8

theorem decode_eq (k : Layout) (bytes : Bytes) :
    decode k bytes = valueLe (if k.msb then bytes.reverse else bytes) := by
  unfold decode valueLe
  cases k.msb with
  | true =>
    rw [if_pos rfl, if_pos rfl, ← List.foldl_reverse, List.reverse_reverse]
  | false =>
    rw [if_neg Bool.false_ne_true, if_neg Bool.false_ne_true, List.foldl_reverse]

theorem bytesLe_succ (v n : Nat) : bytesLe v (n + 1) = v.toUInt8 :: bytesLe (v / 256) n := by
  have hshift (i : Nat) : v >>> (8 * (i + 1)) = (v / 256) >>> (8 * i) := by
    rw [Nat.mul_succ, Nat.add_comm, Nat.shiftRight_add, Nat.shiftRight_eq_div_pow v 8]
  simp only [bytesLe, List.range_succ_eq_map, List.map_cons, List.map_map, Function.comp_def,
    Nat.succ_eq_add_one, hshift]
  rfl

theorem valueLe_bytesLe (v n : Nat) : valueLe (bytesLe v n) = v % 256 ^ n := by
  induction n generalizing v with
  | zero => simp [bytesLe, valueLe, Nat.mod_one]
  | succ n ih =>
    have hrest := ih (v / 256)
    unfold valueLe at hrest ⊢
    rw [bytesLe_succ, List.foldr_cons, hrest, Nat.pow_succ, Nat.mul_comm (256 ^ n),
      Nat.mod_mul, Nat.toUInt8]
    simp only [UInt8.toNat_ofNat']
    omega

theorem valueLe_injective (hlen : a.length = b.length) (h : valueLe a = valueLe b) : a = b := by
  induction a generalizing b with
  | nil => exact (List.length_eq_zero_iff.mp hlen.symm).symm
  | cons x a ih =>
    cases b with
    | nil => cases hlen
    | cons y b =>
      simp only [valueLe, List.foldr_cons] at h
      have hx := x.toNat_lt
      have hy := y.toNat_lt
      have hxy : x.toNat = y.toNat := by omega
      have hrest : valueLe a = valueLe b := by
        unfold valueLe
        omega
      rw [UInt8.toNat_inj.mp hxy, ih (Nat.succ.inj hlen) hrest]

theorem decode_encode (k : Layout) (v : UInt64) : decode k (encode k v) = v.toNat := by
  have hvalue : valueLe (bytesLe v.toNat 8) = v.toNat := by
    rw [valueLe_bytesLe]
    exact Nat.mod_eq_of_lt v.toNat_lt
  rw [decode_eq, encode]
  cases k.msb with
  | true => rw [if_pos rfl, if_pos rfl, List.reverse_reverse, hvalue]
  | false => rw [if_neg Bool.false_ne_true, if_neg Bool.false_ne_true, hvalue]

theorem decode_injective (hlen : a.length = b.length) (h : decode k a = decode k b) : a = b := by
  rw [decode_eq, decode_eq] at h
  revert h
  cases k.msb with
  | true =>
    intro h
    exact List.reverse_inj.mp (valueLe_injective (by simpa using hlen) h)
  | false => exact valueLe_injective hlen

end Numbers

section Writes
variable {k : Layout} {f : ElfFile} {data : Bytes} {off slot n j : Nat} {v : UInt64}

theorem foldl_set_outside {l : List Nat} {pos : Nat → Nat} {val : Nat → UInt8}
    (h : ∀ i ∈ l, pos i ≠ j) (data : Bytes) :
    (l.foldl (fun data i => data.set (pos i) (val i)) data)[j]? = data[j]? := by
  induction l generalizing data with
  | nil => rfl
  | cons i l ih =>
    obtain ⟨hi, hl⟩ := List.forall_mem_cons.mp h
    rw [List.foldl_cons, ih hl, List.getElem?_set_ne hi]

theorem foldl_set_inside {l : List Nat} {pos : Nat → Nat} {val : Nat → UInt8} {i : Nat}
    (hl : l.Nodup)
    (hpos : ∀ a ∈ l, ∀ b ∈ l, pos a = pos b → a = b) (hi : i ∈ l) {data : Bytes}
    (hlt : pos i < data.length) :
    (l.foldl (fun data i => data.set (pos i) (val i)) data)[pos i]? = some (val i) := by
  induction l generalizing data with
  | nil => cases hi
  | cons a l ih =>
    obtain ⟨ha, hl⟩ := List.nodup_cons.mp hl
    have hpos' : ∀ b ∈ l, ∀ c ∈ l, pos b = pos c → b = c := fun b hb c hc =>
      hpos b (List.mem_cons_of_mem a hb) c (List.mem_cons_of_mem a hc)
    rw [List.foldl_cons]
    rcases List.mem_cons.mp hi with rfl | hi
    · have hne : ∀ b ∈ l, pos b ≠ pos i := fun b hb heq =>
        ha (hpos b (List.mem_cons_of_mem i hb) i List.mem_cons_self heq ▸ hb)
      rw [foldl_set_outside hne, List.getElem?_set_self hlt]
    · exact ih hl hpos' hi (by rwa [List.length_set])

theorem wr64_outside (h : j < off ∨ off + 8 ≤ j) : (wr64 k data off v)[j]? = data[j]? := by
  refine foldl_set_outside (fun i hi => ?_) data
  have hi' := List.mem_range.mp hi
  split <;> omega

theorem encode_length (k : Layout) (v : UInt64) : (encode k v).length = 8 := by
  unfold encode
  split
  · simp [bytesLe]
  · simp [bytesLe]

theorem bytesLe_getElem? {v n i : Nat} (h : i < n) :
    (bytesLe v n)[i]? = some (v >>> (8 * i)).toUInt8 := by
  simp [bytesLe, h]

theorem encode_getElem? {i : Nat} (h : i < 8) (k : Layout) (v : UInt64) :
    (encode k v)[i]? = some (v.toNat >>> (8 * if k.msb then 7 - i else i)).toUInt8 := by
  have hlen : (bytesLe v.toNat 8).length = 8 := by simp [bytesLe]
  unfold encode
  cases k.msb with
  | true =>
    rw [if_pos rfl, if_pos rfl, List.getElem?_reverse (by omega), hlen, bytesLe_getElem? (by omega)]
  | false => rw [if_neg Bool.false_ne_true, if_neg Bool.false_ne_true, bytesLe_getElem? h]

theorem wr64_inside {i : Nat} (hi : i < 8) (h : off + 8 ≤ data.length) :
    (wr64 k data off v)[off + i]? = (encode k v)[i]? := by
  let m := if k.msb then 7 - i else i
  have hm : m < 8 := by simp only [m]; split <;> omega
  have hpos : (off + if k.msb then 7 - m else m) = off + i := by simp only [m]; split <;> omega
  have hwrite := @foldl_set_inside (List.range 8) (fun i => off + if k.msb then 7 - i else i)
    (fun i => (v.toNat >>> (8 * i)).toUInt8) m List.nodup_range
    (fun a ha b hb heq => by
      have ha' := List.mem_range.mp ha
      have hb' := List.mem_range.mp hb
      split at heq <;> omega) (List.mem_range.mpr hm) data (by simp only [hpos]; omega)
  simp only [hpos] at hwrite
  rw [encode_getElem? hi]
  exact hwrite

theorem bytesAt_write (h : slot + 8 ≤ len f) :
    bytesAt (write f k slot v).data slot 8 = encode k v := by
  refine List.ext_getElem? fun i => ?_
  rw [bytesAt, List.getElem?_take, List.getElem?_drop]
  by_cases hi : i < 8
  · rw [if_pos hi]
    exact wr64_inside hi h
  · rw [if_neg hi, List.getElem?_eq_none (by rw [encode_length]; omega)]

theorem write_outside (h : j < slot ∨ slot + 8 ≤ j) : (write f k slot v).data[j]? = f.data[j]? :=
  wr64_outside h

theorem bytesAt_write_apart (h : off + n ≤ slot ∨ slot + 8 ≤ off) :
    bytesAt (write f k slot v).data off n = bytesAt f.data off n := by
  refine List.ext_getElem? fun i => ?_
  rw [bytesAt, bytesAt, List.getElem?_take, List.getElem?_take, List.getElem?_drop,
    List.getElem?_drop]
  by_cases hi : i < n
  · rw [if_pos hi, if_pos hi, write_outside (by omega)]
  · rw [if_neg hi, if_neg hi]

theorem len_write (f : ElfFile) (k : Layout) (slot : Nat) (v : UInt64) :
    len (write f k slot v) = len f :=
  wr64_length k f.data slot v

end Writes

section Verified
variable {xxh3 : Bytes → UInt64} {path out : Bytes} {f g : ElfFile} {k k' : Layout}
  {slot slot' j n : Nat} {v : UInt64}

def Zero (f : ElfFile) (slot : Nat) : Prop := ∀ i < HM_SELFHASH_SIZE, f.data.getD (slot + i) 0 = 0

theorem file_ext (hlen : len g = len f) (h : ∀ j, g.data.getD j 0 = f.data.getD j 0) : g = f := by
  refine ElfFile.ext (List.ext_getElem hlen fun j hg hf => ?_)
  rw [List.getElem_eq_getD 0, List.getElem_eq_getD 0, h j]

theorem getD_bytesAt {data : Bytes} {i : Nat} (hi : i < n) :
    (bytesAt data slot n).getD i 0 = data.getD (slot + i) 0 := by
  simp only [bytesAt, List.getD_eq_getElem?_getD, List.getElem?_take, List.getElem?_drop, if_pos hi]

theorem getD_write_outside (h : j < slot ∨ slot + 8 ≤ j) :
    (write f k slot v).data.getD j 0 = f.data.getD j 0 := by
  rw [List.getD_eq_getElem?_getD, List.getD_eq_getElem?_getD, write_outside h]

theorem encode_zero (k : Layout) {i : Nat} (hi : i < 8) : (encode k 0).getD i 0 = 0 := by
  rw [List.getD_eq_getElem?_getD, encode_getElem? hi]
  simp [Nat.shiftRight_eq_div_pow]

theorem getD_write_zero (h : slot + 8 ≤ len f) {i : Nat} (hi : i < 8) :
    (write f k slot 0).data.getD (slot + i) 0 = 0 := by
  rw [← getD_bytesAt hi, bytesAt_write h, encode_zero k hi]

theorem write_back (hzero : Zero f slot) (h : slot + 8 ≤ len f) :
    write (write f k slot v) k slot 0 = f := by
  refine file_ext (by rw [len_write, len_write]) fun j => ?_
  by_cases hj : j < slot ∨ slot + 8 ≤ j
  · rw [getD_write_outside hj, getD_write_outside hj]
  · obtain ⟨i, rfl⟩ := Nat.exists_eq_add_of_le (show slot ≤ j by omega)
    have hi : i < 8 := by omega
    rw [getD_write_zero (by rwa [len_write]) hi, hzero i hi]

theorem stamp_ok : stamp xxh3 path f = .ok g ↔
    ∃ k slot, findSlot path f = .ok (k, slot) ∧ Zero f slot ∧ g = write f k slot (xxh3 f.data) := by
  have hzero (slot : Nat) : ((List.range HM_SELFHASH_SIZE).any fun i => f.data.getD
      (slot + i) 0 ≠ 0) = true ↔ ¬ Zero f slot := by
    simp [Zero, List.any_eq_true]
  unfold stamp
  cases hfind : findSlot path f with
  | error stop =>
    refine iff_of_false (fun h => nomatch h) ?_
    rintro ⟨k, slot, h, -⟩
    cases h
  | ok found =>
    obtain ⟨k, slot⟩ := found
    rw [ok_bind]
    by_cases hslot : Zero f slot
    · simp only [if_neg (mt (hzero slot).mp (not_not.mpr hslot))]
      constructor
      · intro h
        exact ⟨k, slot, rfl, hslot, (Except.ok.inj h).symm⟩
      · rintro ⟨k', slot', h, -, rfl⟩
        cases h
        rfl
    · simp only [if_pos ((hzero slot).mpr hslot)]
      refine iff_of_false (fun h => nomatch h) ?_
      rintro ⟨k', slot', h, hslot', -⟩
      cases h
      exact hslot hslot'

/-- A stamped file differs in the slot only, passes the check with the digest of the file it was
made of, and is not stamped again unless that digest is zero. -/
def Verifiable (xxh3 : Bytes → UInt64) (path out : Bytes) (f : ElfFile) : Prop :=
  ∀ g, stamp xxh3 path f = .ok g →
    g.data.length = f.data.length ∧
    (∀ k slot, findSlot path f = .ok (k, slot) →
      ∀ j, j < slot ∨ slot + HM_SELFHASH_SIZE ≤ j → g.data[j]? = f.data[j]?) ∧
    check xxh3 out g = .ok (hmHashHex xxh3 f.data ++ [LF]) ∧
    (xxh3 f.data ≠ 0 → ∃ text, stamp xxh3 out g = .error (.refused text))

/-- What stands in the slot has no part in finding it. -/
def Stable (f : ElfFile) : Prop :=
  ∀ path k slot, findSlot path f = .ok (k, slot) → Zero f slot →
    ∀ v, findSlot path (write f k slot v) = .ok (k, slot)

theorem findSlot_path (out : Bytes) (h : findSlot path f = .ok (k, slot)) :
    findSlot out f = .ok (k, slot) :=
  findSlot_ok.mpr (findSlot_ok.mp h)

theorem verifiable_of_stable (h : Stable f) : Verifiable xxh3 path out f := by
  intro g hstamp
  obtain ⟨k, slot, hfind, hzero, rfl⟩ := stamp_ok.mp hstamp
  have hinside : slot + 8 ≤ len f := findSlot_inside hfind
  have hagain : findSlot out (write f k slot (xxh3 f.data)) = .ok (k, slot) :=
    findSlot_path out (h path k slot hfind hzero _)
  have hinside' : slot + 8 ≤ len (write f k slot (xxh3 f.data)) := by rwa [len_write]
  have hstored : decode k (bytesAt (write f k slot (xxh3 f.data)).data slot 8) =
      (xxh3 f.data).toNat := by
    rw [bytesAt_write hinside, decode_encode]
  refine ⟨wr64_length _ _ _ _, fun k' slot' hfind' j hj => ?_, ?_, fun hdigest => ?_⟩
  · rw [hfind] at hfind'
    cases hfind'
    exact write_outside hj
  · have hread : rd (write f k slot (xxh3 f.data)) k slot HM_SELFHASH_SIZE =
        .ok (xxh3 f.data).toNat :=
      (rd_eq hinside').trans (congrArg Except.ok hstored)
    rw [check, hagain, ok_bind]
    simp only [hread, ok_bind, write_back hzero hinside]
    exact if_neg (not_not.mpr rfl)
  · have hnot : ¬ Zero (write f k slot (xxh3 f.data)) slot := by
      intro hzero'
      have hbytes : bytesAt (write f k slot (xxh3 f.data)).data slot 8 = encode k 0 := by
        refine List.ext_getElem ?_ fun i hi hi' => ?_
        · rw [bytesAt_write hinside, encode_length, encode_length]
        · rw [encode_length] at hi'
          rw [List.getElem_eq_getD 0, List.getElem_eq_getD 0, getD_bytesAt hi', encode_zero k hi',
            hzero' i hi']
      rw [hbytes, decode_encode] at hstored
      exact hdigest (UInt64.toNat_inj.mp hstored.symm)
    have hany : ((List.range HM_SELFHASH_SIZE).any
        fun i => (write f k slot (xxh3 f.data)).data.getD (slot + i) 0 ≠ 0) = true := by
      unfold Zero at hnot
      simpa [List.any_eq_true] using hnot
    refine ⟨ascii "hm-stamp: " ++ out ++ ascii " is already stamped" ++ [LF], ?_⟩
    rw [stamp, hagain, ok_bind]
    simp only [if_pos hany]
    rfl

theorem layout_write (hk : Ident f k) (hzero : Zero f slot)
    (hk' : Ident (write f k slot v) k') : k' = k := by
  have houtside (j : Nat) (hj : f.data.getD j 0 ≠ 0) : (write f k slot v).data.getD j 0 =
      f.data.getD j 0 := by
    refine getD_write_outside ?_
    by_contra hin
    obtain ⟨i, rfl⟩ := Nat.exists_eq_add_of_le (show slot ≤ j by omega)
    exact hj (hzero i (by unfold HM_SELFHASH_SIZE; omega))
  have hclass := hk.elfClass
  have hdata := hk.elfData
  have hclass' := hk'.elfClass
  have hdata' := hk'.elfData
  rw [houtside EI_CLASS (by rw [hclass]; split <;> decide), hclass] at hclass'
  rw [houtside EI_DATA (by rw [hdata]; split <;> decide), hdata] at hdata'
  obtain ⟨is64, msb⟩ := k
  obtain ⟨is64', msb'⟩ := k'
  revert hclass' hdata'
  cases is64 <;> cases is64' <;> cases msb <;> cases msb' <;> decide

/-- Eight bytes are zero if each one that is not is found again at the next of its places, and the
places run out. -/
theorem chased_zero {L : Nat → UInt8} (next left : Nat → Nat)
    (h : ∀ i < 8, L i ≠ 0 → next i < 8 ∧ left (next i) < left i ∧ L (next i) = L i) : ∀ i < 8,
    L i = 0 := by
  intro i
  induction hleft : left i using Nat.strong_induction_on generalizing i with
  | h m ih =>
    intro hi
    by_contra hne
    obtain ⟨hlt, hless, hsame⟩ := h i hi hne
    exact hne (hsame ▸ ih (left (next i)) (hleft ▸ hless) (next i) rfl hlt)

/-- A number that reads back at another place, and leaves the same file behind there, is zero. -/
theorem slot_zero (hzero : Zero f slot) (hin : slot + 8 ≤ len f) (hin' : slot' + 8 ≤ len f)
    (hne : slot' ≠ slot) (hsame : decode k (bytesAt (write f k slot v).data slot' 8) = v.toNat)
    (hback : write (write f k slot v) k slot' 0 = f) : write f k slot v = f := by
  generalize hg : write f k slot v = g at hsame hback ⊢
  have hlen : len g = len f := by rw [← hg, len_write]
  have hbytes : bytesAt g.data slot' 8 = bytesAt g.data slot 8 := by
    have hvalue : decode k (bytesAt g.data slot 8) = v.toNat := by
      rw [← hg, bytesAt_write hin, decode_encode]
    refine decode_injective ?_ (hsame.trans hvalue.symm)
    simp only [bytesAt, List.length_take, List.length_drop]
    unfold len at hlen hin hin'
    omega
  have htwice (i : Nat) (hi : i < 8) : g.data.getD (slot' + i) 0 = g.data.getD (slot + i) 0 := by
    rw [← getD_bytesAt hi, ← getD_bytesAt hi, hbytes]
  have hoff (j : Nat) (hj : j < slot ∨ slot + 8 ≤ j) : g.data.getD j 0 = f.data.getD j 0 := by
    rw [← hg, getD_write_outside hj]
  have hoff' (j : Nat) (hj : j < slot' ∨ slot' + 8 ≤ j) : g.data.getD j 0 = f.data.getD j 0 := by
    rw [← hback, getD_write_outside hj]
  have hzero' (i : Nat) (hi : i < 8) : f.data.getD (slot' + i) 0 = 0 := by
    rw [← hback, getD_write_zero (by rwa [hlen]) hi]
  have hall : ∀ i < 8, g.data.getD (slot + i) 0 = 0 := by
    rcases Nat.lt_or_gt_of_ne hne with hlt | hgt
    · obtain ⟨s, rfl⟩ := Nat.exists_eq_add_of_lt hlt
      refine chased_zero (· - (s + 1)) id fun i hi hbyte => ?_
      have hle : s + 1 ≤ i := by
        by_contra hsmall
        rw [← htwice i hi, hoff _ (by omega), hzero' i hi] at hbyte
        exact hbyte rfl
      refine ⟨by omega, by simp only [id]; omega, ?_⟩
      rw [← htwice i hi]
      congr 1
      omega
    · obtain ⟨s, rfl⟩ := Nat.exists_eq_add_of_lt hgt
      refine chased_zero (· + (s + 1)) (8 - ·) fun i hi hbyte => ?_
      have hle : i + (s + 1) < 8 := by
        by_contra hlarge
        rw [← htwice i hi, hoff _ (by omega), hzero' i hi] at hbyte
        exact hbyte rfl
      refine ⟨hle, by omega, ?_⟩
      rw [← htwice i hi]
      congr 1
      omega
  refine file_ext hlen fun j => ?_
  by_cases hj : j < slot ∨ slot + 8 ≤ j
  · exact hoff j hj
  · obtain ⟨i, rfl⟩ := Nat.exists_eq_add_of_le (show slot ≤ j by omega)
    have hi : i < 8 := by omega
    rw [hall i hi, hzero i hi]

def contrary (path : Bytes) (f g : ElfFile) (v : UInt64) (data : Bytes) : UInt64 :=
  if data = f.data then v
  else match findSlot path g with
    | .ok (k, slot) => UInt64.ofNat (decode k (bytesAt g.data slot 8)) + 1
    | .error _ => 0

theorem stable_of_verifiable (h : ∀ xxh3 path out, Verifiable xxh3 path out f) : Stable f := by
  intro path k slot hfind hzero v
  have hin : slot + 8 ≤ len f := findSlot_inside hfind
  generalize hg : write f k slot v = g
  have hdigest : contrary path f g v f.data = v := if_pos rfl
  have hstamp : stamp (contrary path f g v) path f = .ok g :=
    stamp_ok.mpr ⟨k, slot, hfind, hzero, by rw [hdigest, hg]⟩
  have hcheck := (h (contrary path f g v) path path g hstamp).2.2.1
  unfold check at hcheck
  cases hagain : findSlot path g with
  | error stop =>
    rw [hagain] at hcheck
    cases hcheck
  | ok found =>
    obtain ⟨k', slot'⟩ := found
    have hlen : len g = len f := by rw [← hg, len_write]
    have hin' : slot' + 8 ≤ len g := findSlot_inside hagain
    obtain rfl : k' = k := layout_write (findSlot_ok.mp hfind).1 hzero
      (hg ▸ (findSlot_ok.mp hagain).1)
    by_cases hne : slot' = slot
    · rw [hne]
    · have hread : rd g k' slot' HM_SELFHASH_SIZE = .ok (decode k' (bytesAt g.data slot' 8)) :=
        rd_eq hin'
      rw [hagain, ok_bind] at hcheck
      simp only [hread, ok_bind] at hcheck
      split at hcheck
      · cases hcheck
      · rename_i hstored
        rw [not_not] at hstored
        by_cases hback : (write g k' slot' 0).data = f.data
        · rw [hback, hdigest] at hstored
          have hf := slot_zero hzero hin (hlen ▸ hin') hne (hg ▸ hstored) (hg ▸ ElfFile.ext hback)
          rw [← hg, hf] at hagain
          rw [← hagain, hfind]
        · have hother : contrary path f g v (write g k' slot' 0).data =
              UInt64.ofNat (decode k' (bytesAt g.data slot' 8)) + 1 := by
            rw [contrary, if_neg hback, hagain]
          rw [hother] at hstored
          exfalso
          have hnat := hstored
          rw [UInt64.toNat_add, UInt64.toNat_ofNat'] at hnat
          have hone : (1 : UInt64).toNat = 1 := rfl
          rw [hone] at hnat
          omega

/-- The slot lies behind the ELF header and next to the section headers and the names. -/
structure Apart (f : ElfFile) (k : Layout) (slot : Nat) : Prop where
  header : k.ehdrSize ≤ slot
  sections : slot + 8 ≤ sectionAt f k 0 ∨ sectionAt f k (tableOf f k).shnum ≤ slot
  names : slot + 8 ≤ (tableOf f k).strOff ∨ (tableOf f k).strOff + (tableOf f k).strSize ≤ slot

theorem fieldAt_write_apart {base : Nat} {field : Field}
    (h : base + (k.off field + k.size field) ≤ slot ∨ slot + 8 ≤ base + k.off field) :
    fieldAt (write f k slot v) k base field = fieldAt f k base field := by
  unfold fieldAt
  rw [bytesAt_write_apart (by omega)]

theorem ehdr_write (h : k.ehdrSize ≤ slot) {field : Field}
    (hfield : field ∈ [e_shoff, e_shentsize, e_shnum, e_shstrndx]) :
    fieldAt (write f k slot v) k 0 field = fieldAt f k 0 field :=
  fieldAt_write_apart (.inl (by rw [Nat.zero_add]; exact (field_in_ehdr k hfield).trans h))

theorem section_write (h : Apart f k slot) {i : Nat} (hi : i < (tableOf f k).shnum) {field : Field}
    (hfield : field ∈ [sh_name, sh_type, sh_offset, sh_size]) :
    fieldAt (write f k slot v) k (sectionAt f k i) field = fieldAt f k (sectionAt f k i) field := by
  have hin := field_in_shdr k hfield
  have hmul : (i + 1) * k.shdrSize ≤ (tableOf f k).shnum * k.shdrSize := Nat.mul_le_mul_right _ hi
  rw [Nat.add_mul, Nat.one_mul] at hmul
  refine fieldAt_write_apart ?_
  have hsections := h.sections
  unfold sectionAt at hsections ⊢
  omega

theorem ident_write (h : Apart f k slot) (hk : Ident f k) : Ident (write f k slot v) k := by
  have hsize : 52 ≤ slot := le_trans (by unfold Layout.ehdrSize; split <;> decide) h.header
  refine ⟨by rw [len_write]; exact hk.ident, ?_, ?_, ?_, by rw [len_write]; exact hk.size⟩
  · rw [bytesAt_write_apart (.inl (le_trans (by decide) hsize)), hk.magic]
  · rw [getD_write_outside (.inl (lt_of_lt_of_le (by decide) hsize)), hk.elfClass]
  · rw [getD_write_outside (.inl (lt_of_lt_of_le (by decide) hsize)), hk.elfData]

theorem table_write (h : Apart f k slot) (htable : Usable f k) :
    tableOf (write f k slot v) k = tableOf f k ∧
    sectionAt (write f k slot v) k = sectionAt f k ∧ namesIndex (write f k slot v) k =
      namesIndex f k := by
  have hsection : sectionAt (write f k slot v) k = sectionAt f k := by
    funext i
    rw [sectionAt, sectionAt, ehdr_write h.header (by simp)]
  have hnames : namesIndex (write f k slot v) k = namesIndex f k := ehdr_write h.header (by simp)
  refine ⟨?_, hsection, hnames⟩
  have hindex := htable.index
  rw [tableOf, tableOf, hsection, hnames, ehdr_write h.header (by simp),
    ehdr_write h.header (by simp),
    section_write h hindex (by simp), section_write h hindex (by simp)]

/-- In an ordinary file, whose slot holds nothing else, whatever stands in the slot is not looked
at. -/
theorem stable_of_apart (h : ∀ path k slot, findSlot path f = .ok (k, slot) → Apart f k slot) :
    Stable f := by
  intro path k slot hfind _ v
  have hapart := h path k slot hfind
  obtain ⟨hk, htable, i, ⟨hi, hc, hall⟩, hslot, hoff⟩ := findSlot_ok.mp hfind
  obtain ⟨hsame, hsection, hnames⟩ := @table_write f k _ v hapart htable
  have hcarries (j : Nat) (hj : j < (tableOf f k).shnum) : Carries (write f k slot v) k j ↔
      Carries f k j := by
    have hname := @section_write f k _ v hapart j hj sh_name (by simp)
    unfold Carries
    rw [hsame, hsection, hname]
    refine and_congr_right fun hend => ?_
    rw [bytesAt_write_apart (by have hout := hapart.names; omega)]
  refine findSlot_ok.mpr ⟨ident_write hapart hk, ⟨?_, ?_, ?_, ?_⟩, i,
    ⟨?_, (hcarries i hi).mpr hc, fun j hj hcj => ?_⟩, ⟨?_, ?_, ?_⟩, ?_⟩
  · rw [ehdr_write hapart.header (by simp), htable.entries]
  · rw [hsame, hnames]
    exact htable.index
  · rw [hsame, hsection, len_write]
    exact htable.headers
  · rw [hsame, len_write]
    exact htable.names
  · rw [hsame]
    exact hi
  · rw [hsame] at hj
    exact hall j hj ((hcarries j hj).mp hcj)
  · rw [hsection, section_write hapart hi (by simp), hslot.type]
  · rw [hsection, section_write hapart hi (by simp), hslot.size]
  · rw [hsection, section_write hapart hi (by simp), len_write]
    exact hslot.inside
  · rw [slotOffset, hsection, section_write hapart hi (by simp)]
    exact hoff

/-- Stamping can be verified if and only if what stands in the slot has no part in finding it. -/
theorem stamp_verifiable (f : ElfFile) : (∀ xxh3 path out, Verifiable xxh3 path out f) ↔ Stable f :=
  ⟨stable_of_verifiable, fun h _ _ _ => verifiable_of_stable h⟩

def word32 (v : Nat) : Bytes := bytesLe v 4

def overlapping : ElfFile where
  data := ELFMAG ++ [1, 1] ++ List.replicate 26 0 ++ word32 52 ++ List.replicate 10 0 ++
    bytesLe 40 2 ++ bytesLe 3 2 ++ bytesLe 2 2 ++ List.replicate 40 0 ++
    (word32 1 ++ word32 SHT_PROGBITS ++ List.replicate 8 0 ++ word32 52 ++ word32 8 ++
      List.replicate 16 0) ++
    (word32 0 ++ word32 3 ++ List.replicate 8 0 ++ word32 172 ++ word32 14 ++
      List.replicate 16 0) ++ 0 :: slotName
  fits := by decide +kernel

theorem overlapping_not_verifiable :
    stamp (fun _ => 1) (ascii "in") overlapping = .ok (write overlapping ⟨false, false⟩ 52 1) ∧
    check (fun _ => 1) (ascii "out") (write overlapping ⟨false, false⟩ 52 1) =
      .error (.refused (ascii "hm-stamp: out has a malformed .hm_selfhash section\n")) ∧
    ¬ Verifiable (fun _ => 1) (ascii "in") (ascii "out") overlapping := by
  have hfind : findSlot (ascii "in") overlapping = .ok (⟨false, false⟩, 52) := by decide +kernel
  have hzero : Zero overlapping 52 := by
    unfold Zero
    decide +kernel
  have hstamp : stamp (fun _ => 1) (ascii "in") overlapping =
      .ok (write overlapping ⟨false, false⟩ 52 1) :=
    stamp_ok.mpr ⟨_, _, hfind, hzero, rfl⟩
  have hcheck : check (fun _ => 1) (ascii "out") (write overlapping ⟨false, false⟩ 52 1) =
      .error (.refused (ascii "hm-stamp: out has a malformed .hm_selfhash section\n")) := by
        decide +kernel
  refine ⟨hstamp, hcheck, fun h => ?_⟩
  have hpasses := (h _ hstamp).2.2.1
  rw [hcheck] at hpasses
  cases hpasses

end Verified

end Hacman.Stamped
