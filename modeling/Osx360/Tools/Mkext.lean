import Mathlib.Algebra.Group.Int.Defs
import Osx360.Lib.Bytes

/-!
# The kext container

`make-mkext.py`: the kexts are compressed and put into an MKEXT container, a header, a table of slots and the data. A
sizing pass and a filling pass advance their offsets on their own; the container is the header, the table and the
padded data one after another (`createMkext_eq`) unless a number is too large for its field.
-/

set_option autoImplicit false

namespace Osx360.Tools

open Osx360.Lib

/-! ## `struct` and `zlib` -/

/-- The values of the formats `I` and `i`. -/
inductive Field
  | unsigned (n : ℕ)
  | signed (z : ℤ)

/-- The bytes of a value; one that is out of range is a `struct.error`. -/
def Field.encode : Field → Option (List Byte)
  | .unsigned n => if n < 2 ^ 32 then some (be32 n) else none
  | .signed z => if -2 ^ 31 ≤ z ∧ z < 2 ^ 31 then some (be32 (z % 2 ^ 32).toNat) else none

def pack : List Field → Option (List Byte)
  | [] => some []
  | f :: fs => do
    let b ← f.encode
    let bs ← pack fs
    return b ++ bs

/-- `struct.pack_into`; there must be room in the buffer. -/
def packInto (buffer : List Byte) (offset : ℕ) (fields : List Field) : Option (List Byte) := do
  let d ← pack fields
  if offset + d.length ≤ buffer.length then some (splice buffer offset d) else none

/-- The two sums of `zlib.adler32`, one byte on. -/
def adlerStep (s : ℕ × ℕ) (x : Byte) : ℕ × ℕ :=
  ((s.1 + x.toNat) % 65521, (s.2 + (s.1 + x.toNat) % 65521) % 65521)

/-- `zlib.adler32` with the starting value 1. -/
def adler32 (data : List Byte) : ℕ := (data.foldl adlerStep (1, 0)).2 * 2 ^ 16 + (data.foldl adlerStep (1, 0)).1

/-! ## The container -/

/-- A kext by the contents of its two files. -/
structure Kext where
  plist : List Byte
  bin : List Byte

structure KextInfo where
  plistLzss : List Byte
  plistFullLength : ℕ
  binLzss : List Byte
  binFullLength : ℕ

def readKexts (compress : List Byte → List Byte) (kexts : List Kext) : List KextInfo :=
  kexts.map fun kext => ⟨compress kext.plist, kext.plist.length, compress kext.bin, kext.bin.length⟩

/-- `(n + 0x1F) & ~(0x1F)`. -/
def align32 (n : ℕ) : ℕ := (n + 0x1F) / 32 * 32

def mkextMagic : ℕ := 0x4D4B5854
def mkextSignature : ℕ := 0x4D4F5358
def mkextVersion : ℕ := 0x01008000
def mkextCpuType : ℤ := -1
def mkextCpuSubtype : ℤ := -1

/-- `struct.calcsize('>IIIIIIii')`. -/
def headerSize : ℕ := 32

/-- `struct.calcsize('>IIIIIIII')`. -/
def slotSize : ℕ := 32

/-- The sizing pass: `mkextLength` and `mkextOffset`. -/
def sizeMkext (kexts : List KextInfo) : ℕ × ℕ :=
  kexts.foldl (fun (mkextLength, mkextOffset) kext =>
    (mkextLength + slotSize + align32 kext.plistLzss.length + align32 kext.binLzss.length, mkextOffset + slotSize))
    (headerSize, headerSize)

structure MkextState where
  mkext : List Byte
  mkextOffset : ℕ
  mkextSlotOffset : ℕ

/-- The body of the filling pass. -/
def fillKext (s : MkextState) (kext : KextInfo) : Option MkextState := do
  let plistOffset := s.mkextOffset
  let mkext := splice s.mkext plistOffset kext.plistLzss
  let binOffset := plistOffset + align32 kext.plistLzss.length
  let mkext := splice mkext binOffset kext.binLzss
  let mkext ← packInto mkext s.mkextSlotOffset [.unsigned plistOffset, .unsigned kext.plistLzss.length,
    .unsigned kext.plistFullLength, .unsigned 0, .unsigned binOffset, .unsigned kext.binLzss.length,
    .unsigned kext.binFullLength, .unsigned 0]
  return ⟨mkext, binOffset + align32 kext.binLzss.length, s.mkextSlotOffset + slotSize⟩

def headerFields (mkextLength mkextChecksum mkextNumKexts : ℕ) : List Field :=
  [.unsigned mkextMagic, .unsigned mkextSignature, .unsigned mkextLength, .unsigned mkextChecksum,
    .unsigned mkextVersion, .unsigned mkextNumKexts, .signed mkextCpuType, .signed mkextCpuSubtype]

/-- The container, unless `struct` raises an error. -/
def createMkext (kexts : List KextInfo) : Option (List Byte) := do
  let (mkextLength, mkextOffset) := sizeMkext kexts
  let mkext ← packInto (List.replicate mkextLength 0) 0 (headerFields mkextLength 0 kexts.length)
  let s ← kexts.foldlM fillKext ⟨mkext, mkextOffset, headerSize⟩
  packInto s.mkext 12 [.unsigned (adler32 (slice s.mkext 16 (mkextLength - 16)))]

/-! ## What the passes leave -/

/-- The numbers in a slot. -/
structure MkextSlot where
  plistOffset : ℕ
  plistLength : ℕ
  plistFullLength : ℕ
  binOffset : ℕ
  binLength : ℕ
  binFullLength : ℕ

/-- The numbers fit their fields. -/
structure MkextSlot.Fits (s : MkextSlot) : Prop where
  plistOffset : s.plistOffset < 2 ^ 32
  plistLength : s.plistLength < 2 ^ 32
  plistFullLength : s.plistFullLength < 2 ^ 32
  binOffset : s.binOffset < 2 ^ 32
  binLength : s.binLength < 2 ^ 32
  binFullLength : s.binFullLength < 2 ^ 32

def MkextSlot.bytes (s : MkextSlot) : List Byte :=
  be32 s.plistOffset ++ (be32 s.plistLength ++ (be32 s.plistFullLength ++ (be32 0 ++ (be32 s.binOffset ++
    (be32 s.binLength ++ (be32 s.binFullLength ++ be32 0))))))

/-- The slots of kexts whose data starts at an offset. -/
def slotsFrom : ℕ → List KextInfo → List MkextSlot
  | _, [] => []
  | offset, k :: ks =>
    ⟨offset, k.plistLzss.length, k.plistFullLength, offset + align32 k.plistLzss.length, k.binLzss.length,
      k.binFullLength⟩ ::
        slotsFrom (offset + align32 k.plistLzss.length + align32 k.binLzss.length) ks

/-- Data and its padding. -/
def padded (d : List Byte) : List Byte := d ++ List.replicate (align32 d.length - d.length) 0

/-- The data of the kexts, padded. -/
def sectionsOf (ks : List KextInfo) : List Byte := ks.flatMap fun k => padded k.plistLzss ++ padded k.binLzss

/-- The header after its checksum. -/
def headerRest (mkextNumKexts : ℕ) : List Byte :=
  be32 mkextVersion ++ (be32 mkextNumKexts ++ (be32 0xFFFFFFFF ++ be32 0xFFFFFFFF))

def headerBytes (mkextLength mkextChecksum mkextNumKexts : ℕ) : List Byte :=
  be32 mkextMagic ++ (be32 mkextSignature ++ (be32 mkextLength ++ (be32 mkextChecksum ++ headerRest mkextNumKexts)))

/-- What comes after the header. -/
def mkextTail (ks : List KextInfo) : List Byte :=
  (slotsFrom (headerSize + slotSize * ks.length) ks).flatMap MkextSlot.bytes ++ sectionsOf ks

/-- The size of the container. -/
def mkextSize (ks : List KextInfo) : ℕ := headerSize + slotSize * ks.length + (sectionsOf ks).length

def mkextOf (ks : List KextInfo) : List Byte :=
  headerBytes (mkextSize ks) (adler32 (headerRest ks.length ++ mkextTail ks)) ks.length ++ mkextTail ks

/-- The numbers of the container fit their fields. -/
structure MkextFits (ks : List KextInfo) : Prop where
  size : mkextSize ks < 2 ^ 32
  full : ∀ k ∈ ks, k.plistFullLength < 2 ^ 32 ∧ k.binFullLength < 2 ^ 32

section Passes

variable {k : KextInfo} {ks : List KextInfo} {s : MkextSlot} {pre data d : List Byte} {n chk : ℕ}

theorem le_align32 (n : ℕ) : n ≤ align32 n := by
  unfold align32
  omega

theorem align32_mod (n : ℕ) : align32 n % 32 = 0 := Nat.mul_mod_left _ _

@[simp] theorem length_padded (d : List Byte) : (padded d).length = align32 d.length := by
  have := le_align32 d.length
  rw [padded, List.length_append, List.length_replicate]
  omega

@[simp] theorem sectionsOf_nil : sectionsOf [] = [] := rfl

theorem sectionsOf_cons : sectionsOf (k :: ks) = padded k.plistLzss ++ padded k.binLzss ++ sectionsOf ks := rfl

theorem length_sectionsOf_cons : (sectionsOf (k :: ks)).length =
    align32 k.plistLzss.length + align32 k.binLzss.length + (sectionsOf ks).length := by
  rw [sectionsOf_cons, List.length_append, List.length_append, length_padded, length_padded]

@[simp] theorem MkextSlot.length_bytes (s : MkextSlot) : s.bytes.length = 32 := rfl

theorem length_slots (offset : ℕ) (ks : List KextInfo) :
    ((slotsFrom offset ks).flatMap MkextSlot.bytes).length = slotSize * ks.length := by
  induction ks generalizing offset with
  | nil => rfl
  | cons k ks ih =>
    rw [slotsFrom, List.flatMap_cons, List.length_append, ih, MkextSlot.length_bytes, List.length_cons, slotSize]
    omega

theorem sizeMkext_eq (ks : List KextInfo) : sizeMkext ks = (mkextSize ks, headerSize + slotSize * ks.length) := by
  have hfold : ∀ l o, ks.foldl (fun (mkextLength, mkextOffset) kext =>
      (mkextLength + slotSize + align32 kext.plistLzss.length + align32 kext.binLzss.length, mkextOffset + slotSize))
      (l, o) = (l + slotSize * ks.length + (sectionsOf ks).length, o + slotSize * ks.length) := by
    induction ks with
    | nil => exact fun l o => rfl
    | cons k ks ih =>
      intro l o
      rw [List.foldl_cons, ih, length_sectionsOf_cons, List.length_cons, Nat.mul_succ]
      refine Prod.ext ?_ ?_
      · dsimp only
        omega
      · dsimp only
        omega
  exact hfold headerSize headerSize

theorem encode_unsigned (h : n < 2 ^ 32) : (Field.unsigned n).encode = some (be32 n) := if_pos h

theorem encode_minus_one : (Field.signed (-1)).encode = some (be32 0xFFFFFFFF) := rfl

theorem MkextSlot.Fits.pack (h : s.Fits) :
    pack [.unsigned s.plistOffset, .unsigned s.plistLength, .unsigned s.plistFullLength, .unsigned 0,
      .unsigned s.binOffset, .unsigned s.binLength, .unsigned s.binFullLength, .unsigned 0] = some s.bytes := by
  simp only [Tools.pack, encode_unsigned h.plistOffset, encode_unsigned h.plistLength,
    encode_unsigned h.plistFullLength, encode_unsigned h.binOffset, encode_unsigned h.binLength,
    encode_unsigned h.binFullLength, encode_unsigned (show 0 < 2 ^ 32 by decide)]
  rfl

theorem pack_header (hlen : n < 2 ^ 32) (hchk : chk < 2 ^ 32) {count : ℕ} (hcount : count < 2 ^ 32) :
    pack (headerFields n chk count) = some (headerBytes n chk count) := by
  simp only [headerFields, pack, encode_unsigned hlen, encode_unsigned hchk, encode_unsigned hcount, mkextCpuType,
    mkextCpuSubtype, encode_minus_one, encode_unsigned (show mkextMagic < 2 ^ 32 by decide),
    encode_unsigned (show mkextSignature < 2 ^ 32 by decide), encode_unsigned (show mkextVersion < 2 ^ 32 by decide)]
  rfl

/-- Packing over part of a buffer. -/
theorem packInto_append {fields : List Field} {old post : List Byte} (hd : pack fields = some d) (hi : n = pre.length)
    (hlen : d.length = old.length) : packInto (pre ++ (old ++ post)) n fields = some (pre ++ (d ++ post)) := by
  rw [packInto, hd]
  show (if _ then _ else _) = _
  rw [if_pos (by rw [List.length_append, List.length_append]; omega), splice_append hi hlen]

end Passes

/-! ## The container as a whole -/

section Container

variable {k : KextInfo} {ks : List KextInfo} {pre mid post data : List Byte} {offset : ℕ}

theorem splice_padded {xs d zs : List Byte} (h : offset = xs.length) :
    splice (xs ++ (List.replicate (align32 d.length) 0 ++ zs)) offset d = xs ++ (padded d ++ zs) := by
  have hsplit : List.replicate (align32 d.length) (0 : Byte) =
      List.replicate d.length 0 ++ List.replicate (align32 d.length - d.length) 0 := by
    have := le_align32 d.length
    rw [List.replicate_append_replicate]
    congr 1
    omega
  rw [hsplit, List.append_assoc, splice_append h (by rw [List.length_replicate]), padded, List.append_assoc]

/-- One kext: its slot is free, and so is the place of its data. -/
theorem fillKext_eq (hoff : offset = pre.length + (slotSize + mid.length))
    (hfits : MkextSlot.Fits ⟨offset, k.plistLzss.length, k.plistFullLength, offset + align32 k.plistLzss.length,
      k.binLzss.length, k.binFullLength⟩) :
    fillKext ⟨pre ++ (List.replicate slotSize 0 ++ (mid ++ (List.replicate (align32 k.plistLzss.length) 0 ++
      (List.replicate (align32 k.binLzss.length) 0 ++ post)))), offset, pre.length⟩ k =
    some ⟨pre ++ (MkextSlot.bytes ⟨offset, k.plistLzss.length, k.plistFullLength, offset + align32 k.plistLzss.length,
      k.binLzss.length, k.binFullLength⟩ ++ (mid ++ (padded k.plistLzss ++ (padded k.binLzss ++ post)))),
      offset + align32 k.plistLzss.length + align32 k.binLzss.length, pre.length + slotSize⟩ := by
  have hplist : ∀ zs : List Byte, splice (pre ++ (List.replicate slotSize 0 ++ (mid ++
      (List.replicate (align32 k.plistLzss.length) 0 ++ zs)))) offset k.plistLzss =
        pre ++ (List.replicate slotSize 0 ++ (mid ++ (padded k.plistLzss ++ zs))) := by
    intro zs
    have h := @splice_padded offset (pre ++ (List.replicate slotSize 0 ++ mid)) k.plistLzss zs
      (by simp only [List.length_append, List.length_replicate, hoff])
    simpa only [List.append_assoc] using h
  have hbin : splice (pre ++ (List.replicate slotSize 0 ++ (mid ++ (padded k.plistLzss ++
      (List.replicate (align32 k.binLzss.length) 0 ++ post))))) (offset + align32 k.plistLzss.length) k.binLzss =
        pre ++ (List.replicate slotSize 0 ++ (mid ++ (padded k.plistLzss ++ (padded k.binLzss ++ post)))) := by
    have h := @splice_padded (offset + align32 k.plistLzss.length)
      (pre ++ (List.replicate slotSize 0 ++ (mid ++ padded k.plistLzss))) k.binLzss post
      (by simp only [List.length_append, List.length_replicate, length_padded, hoff]; omega)
    simpa only [List.append_assoc] using h
  simp only [fillKext, hplist, hbin]
  rw [packInto_append hfits.pack rfl (by rw [MkextSlot.length_bytes, List.length_replicate, slotSize])]
  rfl

/-- The filling pass. -/
theorem fill_eq (hoff : offset = pre.length + (slotSize * ks.length + data.length))
    (hfits : ∀ s ∈ slotsFrom offset ks, s.Fits) :
    ks.foldlM fillKext ⟨pre ++ (List.replicate (slotSize * ks.length) 0 ++ (data ++
      List.replicate (sectionsOf ks).length 0)), offset, pre.length⟩ =
    some ⟨pre ++ ((slotsFrom offset ks).flatMap MkextSlot.bytes ++ (data ++ sectionsOf ks)),
      offset + (sectionsOf ks).length, pre.length + slotSize * ks.length⟩ := by
  induction ks generalizing pre data offset with
  | nil => simp [slotsFrom]
  | cons k ks ih =>
    rw [slotsFrom, List.forall_mem_cons] at hfits
    have hzeros : List.replicate (slotSize * (k :: ks).length) (0 : Byte) =
        List.replicate slotSize 0 ++ List.replicate (slotSize * ks.length) 0 := by
      rw [List.replicate_append_replicate, List.length_cons, Nat.mul_succ, Nat.add_comm]
    have hroom : List.replicate (sectionsOf (k :: ks)).length (0 : Byte) =
        List.replicate (align32 k.plistLzss.length) 0 ++ (List.replicate (align32 k.binLzss.length) 0 ++
          List.replicate (sectionsOf ks).length 0) := by
      rw [List.replicate_append_replicate, List.replicate_append_replicate, length_sectionsOf_cons, Nat.add_assoc]
    have hstep := @fillKext_eq k pre (List.replicate (slotSize * ks.length) 0 ++ data)
      (List.replicate (sectionsOf ks).length 0) offset
      (by simp only [List.length_append, List.length_replicate, hoff, List.length_cons, Nat.mul_succ]; omega) hfits.1
    have hrest := @ih (pre ++ MkextSlot.bytes ⟨offset, k.plistLzss.length, k.plistFullLength,
      offset + align32 k.plistLzss.length, k.binLzss.length, k.binFullLength⟩)
      (data ++ (padded k.plistLzss ++ padded k.binLzss))
      (offset + align32 k.plistLzss.length + align32 k.binLzss.length)
      (by
        simp only [List.length_append, MkextSlot.length_bytes, length_padded, hoff, List.length_cons, slotSize]
        omega)
      hfits.2
    simp only [List.append_assoc, List.length_append, MkextSlot.length_bytes] at hstep hrest
    rw [List.foldlM_cons, hzeros, hroom]
    simp only [List.append_assoc]
    rw [hstep]
    refine hrest.trans ?_
    rw [slotsFrom, List.flatMap_cons, sectionsOf_cons, ← sectionsOf_cons, length_sectionsOf_cons, List.length_cons]
    simp only [sectionsOf_cons, List.append_assoc, slotSize, Nat.mul_succ]
    congr 2 <;> omega

/-- The slots of data that ends below `2 ^ 32`. -/
theorem fits_slots (hend : offset + (sectionsOf ks).length < 2 ^ 32)
    (hfull : ∀ k ∈ ks, k.plistFullLength < 2 ^ 32 ∧ k.binFullLength < 2 ^ 32) : ∀ s ∈ slotsFrom offset ks, s.Fits := by
  induction ks generalizing offset with
  | nil => exact List.forall_mem_nil _
  | cons k ks ih =>
    rw [List.forall_mem_cons] at hfull
    rw [length_sectionsOf_cons] at hend
    rw [slotsFrom, List.forall_mem_cons]
    have hplist := le_align32 k.plistLzss.length
    have hbin := le_align32 k.binLzss.length
    refine ⟨⟨?_, ?_, hfull.1.1, ?_, ?_, hfull.1.2⟩, ih (by omega) hfull.2⟩
    · dsimp only
      omega
    · dsimp only
      omega
    · dsimp only
      omega
    · dsimp only
      omega

theorem MkextFits.slots (h : MkextFits ks) : ∀ s ∈ slotsFrom (headerSize + slotSize * ks.length) ks, s.Fits :=
  fits_slots h.size h.full

theorem adlerStep_foldl_lt (data : List Byte) {s : ℕ × ℕ} (h : s.1 < 65521 ∧ s.2 < 65521) :
    (data.foldl adlerStep s).1 < 65521 ∧ (data.foldl adlerStep s).2 < 65521 := by
  induction data generalizing s with
  | nil => exact h
  | cons x data ih => exact ih ⟨Nat.mod_lt _ (by decide), Nat.mod_lt _ (by decide)⟩

theorem adler32_lt (data : List Byte) : adler32 data < 2 ^ 32 := by
  have hsums := adlerStep_foldl_lt data (show (1, 0).1 < 65521 ∧ (1, 0).2 < 65521 by decide)
  unfold adler32
  omega

theorem length_mkextTail (ks : List KextInfo) : headerSize + (mkextTail ks).length = mkextSize ks := by
  rw [mkextTail, List.length_append, length_slots, mkextSize, Nat.add_assoc]

/-- The header in the zeroed container. -/
theorem packInto_header (hsize : mkextSize ks < 2 ^ 32) :
    packInto (List.replicate (mkextSize ks) 0) 0 (headerFields (mkextSize ks) 0 ks.length) =
      some (headerBytes (mkextSize ks) 0 ks.length ++ (List.replicate (slotSize * ks.length) 0 ++
        ([] ++ List.replicate (sectionsOf ks).length 0))) := by
  have hcount : ks.length < 2 ^ 32 := by
    rw [mkextSize, slotSize] at hsize
    omega
  have hzeros : List.replicate (mkextSize ks) (0 : Byte) = [] ++ (List.replicate headerSize 0 ++
      (List.replicate (slotSize * ks.length) 0 ++ ([] ++ List.replicate (sectionsOf ks).length 0))) := by
    simp only [List.nil_append, List.replicate_append_replicate, mkextSize, Nat.add_assoc]
  rw [hzeros]
  exact packInto_append (pack_header hsize (by decide) hcount) rfl (by rw [List.length_replicate]; rfl)

/-- What the checksum is taken of. -/
theorem slice_checked (ks : List KextInfo) (chk : ℕ) :
    slice (headerBytes (mkextSize ks) chk ks.length ++ mkextTail ks) 16 (mkextSize ks - 16) =
      headerRest ks.length ++ mkextTail ks := by
  have hlen := length_mkextTail ks
  have hslice := @slice_append _ (be32 mkextMagic ++ (be32 mkextSignature ++ (be32 (mkextSize ks) ++ be32 chk)))
    (headerRest ks.length ++ mkextTail ks) [] 16 (mkextSize ks - 16) rfl
    (by
      rw [List.length_append, show (headerRest ks.length).length = 16 from rfl]
      rw [headerSize] at hlen
      omega)
  simpa only [headerBytes, List.append_assoc, List.append_nil] using hslice

/-- The checksum replaces the zero in its place. -/
theorem packInto_checksum {chk : ℕ} (hchk : chk < 2 ^ 32) (n count : ℕ) (tail : List Byte) :
    packInto (headerBytes n 0 count ++ tail) 12 [.unsigned chk] = some (headerBytes n chk count ++ tail) := by
  have hpack : pack [.unsigned chk] = some (be32 chk) := by
    simp only [pack, encode_unsigned hchk]
    rfl
  have hinto := @packInto_append (be32 mkextMagic ++ (be32 mkextSignature ++ be32 n)) _ 12 _ (be32 0)
    (headerRest count ++ tail) hpack rfl rfl
  simpa only [headerBytes, List.append_assoc] using hinto

/-- **What `create_mkext` returns.** -/
theorem createMkext_eq (h : MkextFits ks) : createMkext ks = some (mkextOf ks) := by
  have hfill := @fill_eq ks (headerBytes (mkextSize ks) 0 ks.length) [] (headerSize + slotSize * ks.length) rfl h.slots
  have htail : (slotsFrom (headerSize + slotSize * ks.length) ks).flatMap MkextSlot.bytes ++ ([] ++ sectionsOf ks) =
      mkextTail ks := rfl
  rw [htail] at hfill
  simp only [createMkext, sizeMkext_eq, packInto_header h.size, Option.bind_eq_bind, Option.bind_some]
  rw [show headerSize = (headerBytes (mkextSize ks) 0 ks.length).length from rfl] at hfill ⊢
  rw [hfill, Option.bind_some, slice_checked, packInto_checksum (adler32_lt _), mkextOf]

end Container

end Osx360.Tools
