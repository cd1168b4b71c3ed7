import Mathlib.Data.Nat.Digits.Defs
import Mathlib.Tactic.NormNum
import Osx360.Tools.Mkext

/-!
# Reading the container

A reader that follows the header and the slots of a container. What `create_mkext` returns is well formed and read back
to the kexts it was made from (`mkext_correct`), as long as every number fits its field: the container is below
`2 ^ 32` bytes, and so is every file. A larger file is an error of `struct`, however small it is compressed
(`createMkext_overflow`).
-/

set_option autoImplicit false

namespace Osx360.Tools

open Osx360.Lib

/-! ## The reader -/

/-- The number at an offset. -/
def field (b : List Byte) (i : ℕ) : ℕ := readBe (slice b i 4)

def readSlot (r : List Byte) : MkextSlot := ⟨field r 0, field r 4, field r 8, field r 16, field r 20, field r 24⟩

/-- The slot table. -/
def slots (b : List Byte) : List MkextSlot :=
  (List.range (field b 20)).map fun i => readSlot (slice b (headerSize + slotSize * i) slotSize)

/-- The header, the slot table and the data, by their offsets and lengths. -/
def regions (b : List Byte) : List (ℕ × ℕ) :=
  (0, headerSize) :: (headerSize, slotSize * field b 20) ::
    (slots b).flatMap fun s => [(s.plistOffset, s.plistLength), (s.binOffset, s.binLength)]

def readData (decompress : List Byte → Option (List Byte)) (b : List Byte) (offset length fullLength : ℕ) :
    Option (List Byte) := do
  let d ← decompress (slice b offset length)
  if d.length = fullLength then some d else none

def readKext (decompress : List Byte → Option (List Byte)) (b : List Byte) (s : MkextSlot) : Option Kext := do
  let plist ← readData decompress b s.plistOffset s.plistLength s.plistFullLength
  let bin ← readData decompress b s.binOffset s.binLength s.binFullLength
  return ⟨plist, bin⟩

def readMkext (decompress : List Byte → Option (List Byte)) (b : List Byte) : Option (List Kext) :=
  if field b 0 = mkextMagic ∧ field b 4 = mkextSignature ∧ field b 8 = b.length ∧ field b 12 = adler32 (b.drop 16) ∧
      field b 16 = mkextVersion then
    (slots b).mapM (readKext decompress b)
  else none

/-! ## Well-formed containers -/

/-- What is decompressed is what was compressed. -/
def Lossless (compress : List Byte → List Byte) (decompress : List Byte → Option (List Byte)) : Prop :=
  ∀ x, decompress (compress x) = some x

/-- The slot of a kext. -/
structure SlotOf (compress : List Byte → List Byte) (b : List Byte) (s : MkextSlot) (kext : Kext) : Prop where
  plistAligned : s.plistOffset % 32 = 0
  binAligned : s.binOffset % 32 = 0
  plistLength : s.plistLength = (compress kext.plist).length
  binLength : s.binLength = (compress kext.bin).length
  plist : slice b s.plistOffset s.plistLength = compress kext.plist
  bin : slice b s.binOffset s.binLength = compress kext.bin
  plistFullLength : s.plistFullLength = kext.plist.length
  binFullLength : s.binFullLength = kext.bin.length

/-- A container with the right header, one slot for each kext, and regions that are apart and inside; a reader gets the
kexts back. -/
structure MkextCorrect (compress : List Byte → List Byte) (decompress : List Byte → Option (List Byte))
    (kexts : List Kext) (b : List Byte) : Prop where
  length : field b 8 = b.length
  checksum : field b 12 = adler32 (b.drop 16)
  table : List.Forall₂ (SlotOf compress b) (slots b) kexts
  apart : (regions b).Pairwise fun r s => r.1 + r.2 ≤ s.1
  inside : ∀ r ∈ regions b, r.1 + r.2 ≤ b.length
  decoded : readMkext decompress b = some kexts

section Header

variable {ks : List KextInfo} {s : MkextSlot} {n i : ℕ}

theorem field_append {pre post : List Byte} (hi : i = pre.length) (hn : n < 2 ^ 32) :
    field (pre ++ (be32 n ++ post)) i = n := by
  rw [field, slice_append hi (length_be32 n).symm, readBe_be32 hn]

theorem readSlot_bytes (h : s.Fits) : readSlot s.bytes = s := by
  obtain ⟨plistOffset, plistLength, plistFullLength, binOffset, binLength, binFullLength⟩ := s
  have h0 : field (MkextSlot.bytes _) 0 = plistOffset := @field_append _ _ [] _ rfl h.plistOffset
  have h4 : field (MkextSlot.bytes _) 4 = plistLength :=
    @field_append _ _ (be32 plistOffset) _ rfl h.plistLength
  have h8 : field (MkextSlot.bytes _) 8 = plistFullLength :=
    @field_append _ _ (be32 plistOffset ++ be32 plistLength) _ rfl h.plistFullLength
  have h16 : field (MkextSlot.bytes _) 16 = binOffset :=
    @field_append _ _ (be32 plistOffset ++ be32 plistLength ++ be32 plistFullLength ++ be32 0) _ rfl h.binOffset
  have h20 : field (MkextSlot.bytes _) 20 = binLength :=
    @field_append _ _ (be32 plistOffset ++ be32 plistLength ++ be32 plistFullLength ++ be32 0 ++ be32 binOffset) _ rfl
      h.binLength
  have h24 : field (MkextSlot.bytes _) 24 = binFullLength :=
    @field_append _ _ (be32 plistOffset ++ be32 plistLength ++ be32 plistFullLength ++ be32 0 ++ be32 binOffset ++
      be32 binLength) _ rfl h.binFullLength
  simp only [readSlot, h0, h4, h8, h16, h20, h24]

theorem length_mkextOf (ks : List KextInfo) : (mkextOf ks).length = mkextSize ks := by
  rw [mkextOf, List.length_append, ← length_mkextTail]
  rfl

/-- The numbers of the header. -/
theorem field_mkextOf (h : MkextFits ks) :
    field (mkextOf ks) 0 = mkextMagic ∧ field (mkextOf ks) 4 = mkextSignature ∧ field (mkextOf ks) 8 = mkextSize ks ∧
      field (mkextOf ks) 12 = adler32 ((mkextOf ks).drop 16) ∧ field (mkextOf ks) 16 = mkextVersion ∧
        field (mkextOf ks) 20 = ks.length := by
  have hsize := h.size
  have hcount : ks.length < 2 ^ 32 := by
    rw [mkextSize, slotSize] at hsize
    omega
  refine ⟨?_, ?_, ?_, ?_, ?_, ?_⟩
  · exact @field_append _ _ [] _ rfl (by decide)
  · exact @field_append _ _ (be32 mkextMagic) _ rfl (by decide)
  · exact @field_append _ _ (be32 mkextMagic ++ be32 mkextSignature) _ rfl hsize
  · exact @field_append _ _ (be32 mkextMagic ++ be32 mkextSignature ++ be32 (mkextSize ks)) _ rfl (adler32_lt _)
  · exact @field_append _ _ (be32 mkextMagic ++ be32 mkextSignature ++ be32 (mkextSize ks) ++ be32 (adler32 _)) _ rfl
      (by decide)
  · exact @field_append _ _ (be32 mkextMagic ++ be32 mkextSignature ++ be32 (mkextSize ks) ++ be32 (adler32 _) ++
      be32 mkextVersion) _ rfl hcount

theorem length_slotsFrom (offset : ℕ) (ks : List KextInfo) : (slotsFrom offset ks).length = ks.length := by
  induction ks generalizing offset with
  | nil => rfl
  | cons k ks ih => rw [slotsFrom, List.length_cons, ih, List.length_cons]

theorem slots_mkextOf (h : MkextFits ks) : slots (mkextOf ks) = slotsFrom (headerSize + slotSize * ks.length) ks := by
  have hlen := length_slotsFrom (headerSize + slotSize * ks.length) ks
  refine List.ext_getElem ?_ fun i hi hi' => ?_
  · rw [slots, List.length_map, List.length_range, (field_mkextOf h).2.2.2.2.2, hlen]
  · have hbytes : slice (mkextOf ks) (headerSize + slotSize * i) slotSize =
        (slotsFrom (headerSize + slotSize * ks.length) ks)[i].bytes := by
      rw [mkextOf, slice_append_right (by exact Nat.le_add_right _ _)]
      rw [show headerSize + slotSize * i - (headerBytes _ _ _).length = slotSize * i from Nat.add_sub_cancel_left _ _]
      exact slice_flatMap MkextSlot.length_bytes _ i hi'
    simp only [slots, List.getElem_map, List.getElem_range, hbytes]
    exact readSlot_bytes (h.slots _ (List.getElem_mem hi'))

end Header

/-! ## The data -/

section Data

variable {compress : List Byte → List Byte} {decompress : List Byte → Option (List Byte)} {kexts : List Kext}
  {b pre post : List Byte} {offset : ℕ} {ss : List MkextSlot}

theorem mkextOf_sections (ks : List KextInfo) :
    ∃ pre, pre.length = headerSize + slotSize * ks.length ∧ mkextOf ks = pre ++ (sectionsOf ks ++ []) := by
  refine ⟨headerBytes (mkextSize ks) (adler32 (headerRest ks.length ++ mkextTail ks)) ks.length ++
    (slotsFrom (headerSize + slotSize * ks.length) ks).flatMap MkextSlot.bytes, ?_, ?_⟩
  · rw [List.length_append, length_slots]
    rfl
  · rw [mkextOf, List.append_nil, List.append_assoc]
    rfl

/-- Every slot names the data of its kext. -/
theorem forall₂_slots (kexts : List Kext) (hb : b = pre ++ (sectionsOf (readKexts compress kexts) ++ post))
    (hoff : offset = pre.length) (haligned : offset % 32 = 0) :
    List.Forall₂ (SlotOf compress b) (slotsFrom offset (readKexts compress kexts)) kexts := by
  induction kexts generalizing pre offset with
  | nil => exact .nil
  | cons kext kexts ih =>
    have hplist := align32_mod (compress kext.plist).length
    have hbin := align32_mod (compress kext.bin).length
    have hb' : b = pre ++ (padded (compress kext.plist) ++ padded (compress kext.bin)) ++
        (sectionsOf (readKexts compress kexts) ++ post) := by
      rw [hb, show readKexts compress (kext :: kexts) = _ :: readKexts compress kexts from rfl, sectionsOf_cons]
      simp only [List.append_assoc]
    refine .cons ⟨haligned, ?_, rfl, rfl, ?_, ?_, rfl, rfl⟩ (ih hb' ?_ ?_)
    · dsimp only
      omega
    · rw [hb']
      simp only [padded, List.append_assoc]
      exact slice_append hoff rfl
    · rw [hb']
      have h := @slice_append _ (pre ++ padded (compress kext.plist)) (compress kext.bin)
        (List.replicate (align32 (compress kext.bin).length - (compress kext.bin).length) 0 ++
          (sectionsOf (readKexts compress kexts) ++ post)) (offset + align32 (compress kext.plist).length) _
        (by rw [List.length_append, length_padded, hoff]) rfl
      simpa only [padded, List.append_assoc] using h
    · simp only [List.length_append, length_padded, hoff]
      omega
    · dsimp only
      omega

/-- The data lies in order. -/
theorem regions_slots (offset : ℕ) (ks : List KextInfo) :
    (((slotsFrom offset ks).flatMap fun s => [(s.plistOffset, s.plistLength), (s.binOffset, s.binLength)]).Pairwise
      fun r s => r.1 + r.2 ≤ s.1) ∧
    ∀ r ∈ (slotsFrom offset ks).flatMap fun s => [(s.plistOffset, s.plistLength), (s.binOffset, s.binLength)],
      offset ≤ r.1 ∧ r.1 + r.2 ≤ offset + (sectionsOf ks).length := by
  induction ks generalizing offset with
  | nil => exact ⟨.nil, List.forall_mem_nil _⟩
  | cons k ks ih =>
    obtain ⟨hpair, hin⟩ := ih (offset + align32 k.plistLzss.length + align32 k.binLzss.length)
    have hplist := le_align32 k.plistLzss.length
    have hbin := le_align32 k.binLzss.length
    rw [slotsFrom, List.flatMap_cons, length_sectionsOf_cons]
    simp only [List.cons_append, List.nil_append, List.pairwise_cons, List.forall_mem_cons]
    refine ⟨⟨⟨Nat.add_le_add_left hplist offset, fun r hr => ?_⟩, fun r hr => ?_, hpair⟩, ⟨?_, ?_⟩, ⟨?_, ?_⟩,
      fun r hr => ?_⟩
    · have := hin r hr
      omega
    · have := hin r hr
      omega
    · omega
    · omega
    · omega
    · omega
    · have := hin r hr
      omega

/-- A slot is read to its kext. -/
theorem readKext_eq (hl : Lossless compress decompress) {s : MkextSlot} {kext : Kext} (h : SlotOf compress b s kext) :
    readKext decompress b s = some kext := by
  have hplist : readData decompress b s.plistOffset s.plistLength s.plistFullLength = some kext.plist := by
    simp only [readData, h.plist, hl kext.plist, Option.bind_eq_bind, Option.bind_some, if_pos h.plistFullLength.symm]
  have hbin : readData decompress b s.binOffset s.binLength s.binFullLength = some kext.bin := by
    simp only [readData, h.bin, hl kext.bin, Option.bind_eq_bind, Option.bind_some, if_pos h.binFullLength.symm]
  simp only [readKext, hplist, hbin]
  rfl

theorem mapM_readKext (hl : Lossless compress decompress) (h : List.Forall₂ (SlotOf compress b) ss kexts) :
    ss.mapM (readKext decompress b) = some kexts := by
  induction h with
  | nil => rfl
  | cons hs _ ih =>
    rw [List.mapM_cons, readKext_eq hl hs, ih]
    rfl

/-- **The container is read back**, as long as it and every file are below `2 ^ 32` bytes. -/
theorem mkext_correct (hl : Lossless compress decompress) (hsize : mkextSize (readKexts compress kexts) < 2 ^ 32)
    (hfull : ∀ kext ∈ kexts, kext.plist.length < 2 ^ 32 ∧ kext.bin.length < 2 ^ 32) :
    ∃ b, createMkext (readKexts compress kexts) = some b ∧ b.length = mkextSize (readKexts compress kexts) ∧
      MkextCorrect compress decompress kexts b := by
  have hfits : MkextFits (readKexts compress kexts) := by
    refine ⟨hsize, fun k hk => ?_⟩
    obtain ⟨kext, hkext, rfl⟩ := List.mem_map.mp hk
    exact hfull kext hkext
  have hlen := length_mkextOf (readKexts compress kexts)
  obtain ⟨hmagic, hsignature, hlength, hchecksum, hversion, hcount⟩ := field_mkextOf hfits
  have htable : List.Forall₂ (SlotOf compress (mkextOf (readKexts compress kexts)))
      (slots (mkextOf (readKexts compress kexts))) kexts := by
    rw [slots_mkextOf hfits]
    obtain ⟨pre, hpre, heq⟩ := mkextOf_sections (readKexts compress kexts)
    refine forall₂_slots kexts heq hpre.symm ?_
    rw [headerSize, slotSize]
    omega
  have hregions := regions_slots (headerSize + slotSize * (readKexts compress kexts).length) (readKexts compress kexts)
  refine ⟨_, createMkext_eq hfits, hlen, hlength.trans hlen.symm, hchecksum, htable, ?_, ?_, ?_⟩
  · rw [regions, hcount, slots_mkextOf hfits, List.pairwise_cons, List.pairwise_cons]
    refine ⟨List.forall_mem_cons.mpr ⟨by omega, fun r hr => ?_⟩, fun r hr => (hregions.2 r hr).1, hregions.1⟩
    have := (hregions.2 r hr).1
    omega
  · rw [regions, hcount, slots_mkextOf hfits, List.forall_mem_cons, List.forall_mem_cons, hlen, mkextSize]
    refine ⟨by omega, by omega, fun r hr => (hregions.2 r hr).2⟩
  · rw [readMkext, if_pos ⟨hmagic, hsignature, hlength.trans hlen.symm, hchecksum, hversion⟩]
    exact mapM_readKext hl htable

/-- A compressor for eight bytes at most, none of which repeats: a flag byte and the bytes themselves. -/
def shortLzss : List Byte → List Byte
  | [] => []
  | b :: x => BitVec.ofNat 8 (2 ^ min (x.length + 1) 8 - 1) :: b :: x

theorem mkext_correct_short : ∃ b, createMkext (readKexts shortLzss [⟨[1, 2, 3], [4]⟩]) = some b ∧ b.length = 128 ∧
    MkextCorrect shortLzss (fun x => some x.tail) [⟨[1, 2, 3], [4]⟩] b := by
  have hl : Lossless shortLzss fun x => some x.tail := by
    intro x
    cases x with
    | nil => rfl
    | cons b x => rfl
  exact mkext_correct hl (by decide) (by decide)

end Data

/-! ## Files that are too large -/

section Overflow

variable {fields : List Field} {f : Field} {k : KextInfo} {ks : List KextInfo} {s : MkextState}

theorem pack_none (hf : f ∈ fields) (h : f.encode = none) : pack fields = none := by
  induction fields with
  | nil => cases hf
  | cons g fields ih =>
    rw [pack]
    rcases List.mem_cons.mp hf with rfl | hf
    · rw [h]
      rfl
    · rw [ih hf]
      cases g.encode with
      | none => rfl
      | some b => rfl

theorem fillKext_none (h : 2 ^ 32 ≤ k.plistFullLength ∨ 2 ^ 32 ≤ k.binFullLength) : fillKext s k = none := by
  have hencode : ∀ {n : ℕ}, 2 ^ 32 ≤ n → (Field.unsigned n).encode = none := fun hn => if_neg (Nat.not_lt.mpr hn)
  simp only [fillKext, packInto]
  rcases h with h | h
  · rw [pack_none (by simp) (hencode h)]
    rfl
  · rw [pack_none (by simp) (hencode h)]
    rfl

/-- A file of `2 ^ 32` bytes or more is an error, whatever it is compressed to. -/
theorem createMkext_overflow (hk : k ∈ ks) (h : 2 ^ 32 ≤ k.plistFullLength ∨ 2 ^ 32 ≤ k.binFullLength) :
    createMkext ks = none := by
  have hfold : ∀ s, ks.foldlM fillKext s = none := by
    induction ks with
    | nil => cases hk
    | cons j ks ih =>
      intro s
      rw [List.foldlM_cons]
      rcases List.mem_cons.mp hk with rfl | hk
      · rw [fillKext_none h]
        rfl
      · cases fillKext s j with
        | none => rfl
        | some t => exact ih hk t
  simp only [createMkext, hfold]
  cases packInto (List.replicate (sizeMkext ks).1 0) 0 (headerFields (sizeMkext ks).1 0 ks.length) with
  | none => rfl
  | some mkext => rfl

/-- A compressor of zeros: a run of them is its length, everything else is itself. -/
def zeroRun (x : List Byte) : List Byte :=
  if x = List.replicate x.length 0 then 1 :: (Nat.digits 256 x.length).map (BitVec.ofNat 8) else 0 :: x

def expandRun : List Byte → Option (List Byte)
  | [] => none
  | b :: x => if b = 0 then some x else some (List.replicate (Nat.ofDigits 256 (x.map BitVec.toNat)) 0)

theorem zeroRun_lossless : Lossless zeroRun expandRun := by
  intro x
  unfold zeroRun
  split
  · rename_i hzero
    have hdigits : ((Nat.digits 256 x.length).map (BitVec.ofNat 8)).map BitVec.toNat = Nat.digits 256 x.length := by
      rw [List.map_map]
      refine (List.map_congr_left fun d hd => ?_).trans (List.map_id _)
      exact Nat.mod_eq_of_lt (Nat.digits_lt_base (by decide) hd)
    rw [expandRun, if_neg (by decide), hdigits, Nat.ofDigits_digits, ← hzero]
  · rfl

theorem length_zeroRun (n : ℕ) : (zeroRun (List.replicate n 0)).length = (Nat.digits 256 n).length + 1 := by
  rw [zeroRun, if_pos (by rw [List.length_replicate]), List.length_cons, List.length_map, List.length_replicate]

/-- A plist of zeros and an empty binary. -/
theorem mkextSize_zeros {n : ℕ} (hn : n = 2 ^ 32) : mkextSize (readKexts zeroRun [⟨List.replicate n 0, []⟩]) = 128 := by
  have hplist : (zeroRun (List.replicate n 0)).length = 6 := by
    rw [length_zeroRun, hn]
    norm_num
  have hbin : (zeroRun []).length = 1 := length_zeroRun 0
  simp only [readKexts, List.map_cons, List.map_nil, mkextSize, length_sectionsOf_cons, hplist, hbin,
    List.length_singleton]
  decide

/-- `2 ^ 32` zero bytes fit a container of 128 bytes, and are an error. -/
theorem mkext_overflow : Lossless zeroRun expandRun ∧
    mkextSize (readKexts zeroRun [⟨List.replicate (2 ^ 32) 0, []⟩]) = 128 ∧
      createMkext (readKexts zeroRun [⟨List.replicate (2 ^ 32) 0, []⟩]) = none := by
  refine ⟨zeroRun_lossless, mkextSize_zeros rfl, createMkext_overflow (List.mem_singleton_self _) (Or.inl ?_)⟩
  dsimp only
  rw [List.length_replicate]

end Overflow

end Osx360.Tools
