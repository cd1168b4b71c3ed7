import Mathlib.Data.List.Iterate
import Osx360.Lib.CString
import Osx360.Lib.Scan
import Osx360.Platform.Patcher

/-!
# The kernel's Mach-O header

`findKernelMachHeader` from `XenonPE_Patcher.cpp`: a search through the pages below `IOLog`, down to page 1, for the
header of the kernel, and a pass over its load commands for the symbols. It takes the highest page that looks like the
kernel's header, and the last `__LINKEDIT` segment and symbol table there (`header_found`).
-/

set_option autoImplicit false

namespace Osx360.Platform

open Osx360.Lib

/-! ## Bytes of the memory -/

/-- The byte at an address, most significant first in its word. -/
def byteAt (mem : Memory) (a : Word) : Byte := (mem (wordAt a)).extractLsb' (24 - 8 * (a.toNat % 4)) 8

/-- The 32 bits at an address. -/
def read32 (mem : Memory) (a : Word) : Word :=
  byteAt mem a ++ byteAt mem (a + 1) ++ byteAt mem (a + 2) ++ byteAt mem (a + 3)

/-- `char *`. -/
def charPtr (mem : Memory) (a : Word) : CharPtr := fun i => byteAt mem (a + BitVec.ofNat 32 i)

/-! ## The records -/

section Records

variable (mem : Memory) (p : Word)

/-- `struct mach_header`. -/
def magic : Word := read32 mem p
def cputype : Word := read32 mem (p + 4)
def filetype : Word := read32 mem (p + 12)
def ncmds : Word := read32 mem (p + 16)

/-- `sizeof (struct mach_header)`. -/
def sizeofMachHeader : Word := 28

/-- `struct load_command`. -/
def cmd : Word := read32 mem p
def cmdsize : Word := read32 mem (p + 4)

/-- `struct segment_command`. -/
def segname : CharPtr := charPtr mem (p + 8)
def vmaddr : Word := read32 mem (p + 24)
def fileoff : Word := read32 mem (p + 32)

/-- `struct symtab_command`. -/
def symoff : Word := read32 mem (p + 8)
def nsyms : Word := read32 mem (p + 12)
def stroff : Word := read32 mem (p + 16)
def strsize : Word := read32 mem (p + 20)

end Records

def machMagic : Word := 0xFEEDFACE
def cpuTypePowerPC : Word := 18
def machExecute : Word := 2
def lcSegment : Word := 1
def lcSymtab : Word := 2

/-- `sizeof (segCommand->segname)`. -/
def sizeofSegname : ℕ := 16

def textName : CString := cstring "__TEXT"

def linkeditName : CString := cstring "__LINKEDIT"

/-! ## The search -/

/-- `machCommands` in each round of a pass over the load commands. -/
def machCommands (mem : Memory) (machHeader : Word) : List Word :=
  List.iterate (fun c => c + cmdsize mem c) (machHeader + sizeofMachHeader) (ncmds mem machHeader).toNat

/-- A command is a segment that `strncmp` takes for the one of that name. -/
def isSegment (mem : Memory) (name : CString) (c : Word) : Bool :=
  cmd mem c = lcSegment ∧ strncmp (segname mem c) name.ptr sizeofSegname = 0

/-- The page has a header, with a `__TEXT` segment. -/
def isKernelHeader (mem : Memory) (addr : Word) : Bool :=
  magic mem addr = machMagic ∧ cputype mem addr = cpuTypePowerPC ∧ filetype mem addr = machExecute ∧
    (machCommands mem addr).any (isSegment mem textName)

def pageAddr (n : ℕ) : Word := BitVec.ofNat 32 (4096 * n)

/-- The search from a page down. It ends when `addr` is 0. -/
def searchPages (mem : Memory) : ℕ → Option Word
  | 0 => none
  | n + 1 => if isKernelHeader mem (pageAddr (n + 1)) then some (pageAddr (n + 1)) else searchPages mem n

/-- `machHeader` once the search has ended, if `foundHeader`. -/
def kernelMachHeader (mem : Memory) (ioLog : Word) : Option Word :=
  searchPages mem ((ioLog &&& 0xFFFFF000).toNat / 4096)

/-! ## The symbols -/

/-- `_symTab`, `_symTabNumSymbols`, `_strTab` and `_strTabSize`. -/
structure SymbolFields where
  symTab : Word
  symTabNumSymbols : Word
  strTab : Word
  strTabSize : Word
  deriving DecidableEq

/-- One round of the second pass, on `linkedItSegCommand` and `symCommand`. -/
def scanCommand (mem : Memory) (found : Word × Word) (c : Word) : Word × Word :=
  if cmd mem c = lcSegment then
    if strncmp (segname mem c) linkeditName.ptr sizeofSegname = 0 then (c, found.2) else found
  else if cmd mem c = lcSymtab then (found.1, c)
  else found

/-- What it returns, and the fields. `NULL` is 0. -/
def findKernelMachHeader (mem : Memory) (ioLog : Word) (fields : SymbolFields) : Bool × SymbolFields :=
  match kernelMachHeader mem ioLog with
  | none => (false, fields)
  | some machHeader =>
    let (linkedItSegCommand, symCommand) := (machCommands mem machHeader).foldl (scanCommand mem) (0, 0)
    if symCommand = 0 ∨ linkedItSegCommand = 0 then (false, fields)
    else (true,
      { symTab := vmaddr mem linkedItSegCommand + symoff mem symCommand - fileoff mem linkedItSegCommand
        symTabNumSymbols := nsyms mem symCommand
        strTab := vmaddr mem linkedItSegCommand + stroff mem symCommand - fileoff mem linkedItSegCommand
        strTabSize := strsize mem symCommand })

/-! ## What is looked for -/

/-- A segment of exactly that name. -/
def Segment (mem : Memory) (name : CString) (c : Word) : Prop :=
  cmd mem c = lcSegment ∧ IsString (segname mem c) name

def Symtab (mem : Memory) (c : Word) : Prop := cmd mem c = lcSymtab

instance (mem : Memory) (name : CString) : DecidablePred (Segment mem name) :=
  fun c => inferInstanceAs (Decidable (cmd mem c = lcSegment ∧ IsString (segname mem c) name))

instance (mem : Memory) : DecidablePred (Symtab mem) :=
  fun c => inferInstanceAs (Decidable (cmd mem c = lcSymtab))

/-- The header of a PowerPC kernel, with a segment named exactly `__TEXT`. -/
structure KernelHeader (mem : Memory) (a : Word) : Prop where
  magic : magic mem a = machMagic
  cputype : cputype mem a = cpuTypePowerPC
  filetype : filetype mem a = machExecute
  text : ∃ c ∈ machCommands mem a, Segment mem textName c

/-- The highest header at a page from `IOLog`'s down, page 0 apart. -/
structure Selected (mem : Memory) (ioLog a : Word) : Prop where
  page : a.toNat % 4096 = 0
  nonzero : a ≠ 0
  below : a.toNat ≤ ioLog.toNat
  header : KernelHeader mem a
  highest : ∀ b : Word, b.toNat % 4096 = 0 → b.toNat ≤ ioLog.toNat → KernelHeader mem b → b.toNat ≤ a.toNat

/-- The load commands follow each other inside the address space. -/
structure WellFormed (mem : Memory) (a : Word) : Prop where
  size : ∀ c ∈ machCommands mem a, 8 ≤ (cmdsize mem c).toNat
  fits : a.toNat + 28 + ((machCommands mem a).map fun c => (cmdsize mem c).toNat).sum ≤ 2 ^ 32

/-- The address at which a segment maps an offset of the file. -/
def MapsTo (mem : Memory) (seg offset x : Word) : Prop := x - vmaddr mem seg = offset - fileoff mem seg

/-- The fields are those of a symbol table, through a segment. -/
structure Records (mem : Memory) (seg sym : Word) (fields : SymbolFields) : Prop where
  symTab : MapsTo mem seg (symoff mem sym) fields.symTab
  symTabNumSymbols : fields.symTabNumSymbols = nsyms mem sym
  strTab : MapsTo mem seg (stroff mem sym) fields.strTab
  strTabSize : fields.strTabSize = strsize mem sym

section Search

variable {mem : Memory} {ioLog a b : Word} {n : ℕ}

theorem isSegment_iff {name : CString} (hn : name.strlen < sizeofSegname) {c : Word} :
    isSegment mem name c = true ↔ Segment mem name c := by
  rw [isSegment, decide_eq_true_iff, strncmp_of_lt hn, Segment]

theorem isKernelHeader_iff : isKernelHeader mem a = true ↔ KernelHeader mem a := by
  have htext : (machCommands mem a).any (isSegment mem textName) = true ↔
      ∃ c ∈ machCommands mem a, Segment mem textName c := by
    rw [List.any_eq_true]
    simp only [isSegment_iff (show textName.strlen < sizeofSegname by decide)]
  rw [isKernelHeader, decide_eq_true_iff, htext]
  exact ⟨fun ⟨hm, hc, hf, ht⟩ => ⟨hm, hc, hf, ht⟩, fun ⟨hm, hc, hf, ht⟩ => ⟨hm, hc, hf, ht⟩⟩

theorem toNat_pageAddr (hn : n < 2 ^ 20) : (pageAddr n).toNat = 4096 * n := by
  rw [pageAddr, BitVec.toNat_ofNat]
  omega

/-- The search starts at the page of `IOLog`. -/
theorem toNat_page (x : Word) : (x &&& 0xFFFFF000).toNat / 4096 = x.toNat / 4096 := by
  have hx := x.isLt
  have hmask : (0xFFFFF000 : Word).toNat >>> 12 = 2 ^ 20 - 1 := rfl
  rw [show 4096 = 2 ^ 12 from rfl, ← Nat.shiftRight_eq_div_pow, ← Nat.shiftRight_eq_div_pow, BitVec.toNat_and,
    Nat.shiftRight_and_distrib, hmask, Nat.and_two_pow_sub_one_eq_mod]
  exact Nat.mod_eq_of_lt (by rw [Nat.shiftRight_eq_div_pow]; omega)

/-- The search finds the first header, from the page down. -/
theorem searchPages_eq_some : searchPages mem n = some a ↔
    ∃ k, 0 < k ∧ k ≤ n ∧ a = pageAddr k ∧ KernelHeader mem a ∧
      ∀ j, k < j → j ≤ n → ¬ KernelHeader mem (pageAddr j) := by
  induction n with
  | zero =>
    constructor
    · intro h
      cases h
    · rintro ⟨k, hk, hle, -⟩
      omega
  | succ n ih =>
    rw [searchPages]
    by_cases hhead : isKernelHeader mem (pageAddr (n + 1)) = true
    · rw [if_pos hhead, Option.some_inj]
      constructor
      · rintro rfl
        exact ⟨n + 1, Nat.succ_pos n, le_rfl, rfl, isKernelHeader_iff.mp hhead, fun j hj hle => by omega⟩
      · rintro ⟨k, -, hle, rfl, -, hnone⟩
        have hk : ¬ k < n + 1 := fun hlt => hnone (n + 1) hlt le_rfl (isKernelHeader_iff.mp hhead)
        rw [show k = n + 1 by omega]
    · rw [if_neg hhead, ih]
      rw [isKernelHeader_iff] at hhead
      refine exists_congr fun k => ?_
      constructor
      · rintro ⟨hpos, hle, ha, hk, hnone⟩
        refine ⟨hpos, Nat.le_succ_of_le hle, ha, hk, fun j hj hjn => ?_⟩
        by_cases he : j = n + 1
        · rwa [he]
        · exact hnone j hj (by omega)
      · rintro ⟨hpos, hle, rfl, hk, hnone⟩
        have hne : k ≠ n + 1 := fun he => hhead (he ▸ hk)
        exact ⟨hpos, by omega, rfl, hk, fun j hj hjn => hnone j hj (Nat.le_succ_of_le hjn)⟩

theorem eq_pageAddr (h : a.toNat % 4096 = 0) : a = pageAddr (a.toNat / 4096) := by
  have ha := a.isLt
  refine BitVec.eq_of_toNat_eq ?_
  rw [toNat_pageAddr (by omega)]
  omega

/-- **The header found.** -/
theorem kernelMachHeader_eq_some : kernelMachHeader mem ioLog = some a ↔ Selected mem ioLog a := by
  have hlog := ioLog.isLt
  rw [kernelMachHeader, toNat_page, searchPages_eq_some]
  constructor
  · rintro ⟨k, hpos, hle, rfl, hk, hnone⟩
    have hnat := toNat_pageAddr (n := k) (by omega)
    refine ⟨by omega, fun h0 => ?_, by omega, hk, fun b hpage hbelow hb => ?_⟩
    · rw [h0, show (0 : Word).toNat = 0 from rfl] at hnat
      omega
    · by_contra hlt
      rw [eq_pageAddr hpage] at hb
      exact hnone _ (by omega) (by omega) hb
  · rintro ⟨hpage, h0, hbelow, hk, hhighest⟩
    have hpos : a.toNat ≠ 0 := fun h => h0 (BitVec.eq_of_toNat_eq h)
    refine ⟨a.toNat / 4096, by omega, by omega, eq_pageAddr hpage, hk, fun j hj hle hheader => ?_⟩
    have hnat := toNat_pageAddr (n := j) (by omega)
    have := hhighest _ (by omega) (by omega) hheader
    omega

end Search

section Symbols

variable {mem : Memory} {ioLog a l s : Word} {fields : SymbolFields} {cs : List Word}

/-- The two searches of the second pass do not meet. -/
theorem foldl_scanCommand : cs.foldl (scanCommand mem) (l, s) =
    (cs.foldl (fun l c => if Segment mem linkeditName c then c else l) l,
      cs.foldl (fun s c => if Symtab mem c then c else s) s) := by
  induction cs generalizing l s with
  | nil => rfl
  | cons c cs ih =>
    have hname := @strncmp_of_lt (segname mem c) linkeditName sizeofSegname (by decide)
    have hone : scanCommand mem (l, s) c =
        (if Segment mem linkeditName c then c else l, if Symtab mem c then c else s) := by
      rw [scanCommand]
      by_cases hseg : cmd mem c = lcSegment
      · have hsym : ¬ Symtab mem c := by rw [Symtab, hseg]; decide
        rw [if_pos hseg, if_neg hsym]
        by_cases hstr : IsString (segname mem c) linkeditName
        · rw [if_pos (hname.mpr hstr), if_pos (show Segment mem linkeditName c from ⟨hseg, hstr⟩)]
        · rw [if_neg (mt hname.mp hstr), if_neg (show ¬ Segment mem linkeditName c from fun h => hstr h.2)]
      · rw [if_neg hseg, if_neg (show ¬ Segment mem linkeditName c from fun h => hseg h.1)]
        by_cases hsym : Symtab mem c
        · rw [if_pos hsym, if_pos (show cmd mem c = lcSymtab from hsym)]
        · rw [if_neg hsym, if_neg (show ¬ cmd mem c = lcSymtab from hsym)]
    rw [List.foldl_cons, hone, ih, List.foldl_cons, List.foldl_cons]

theorem mapsTo_add (mem : Memory) (seg offset : Word) :
    MapsTo mem seg offset (vmaddr mem seg + offset - fileoff mem seg) := by
  rw [MapsTo]
  bv_omega

/-- Both were found. -/
theorem findKernelMachHeader_last (ha : kernelMachHeader mem ioLog = some a)
    (hl : IsLast (Segment mem linkeditName) (machCommands mem a) l) (hs : IsLast (Symtab mem) (machCommands mem a) s)
    (hl0 : l ≠ 0) (hs0 : s ≠ 0) :
    findKernelMachHeader mem ioLog fields = (true,
      ⟨vmaddr mem l + symoff mem s - fileoff mem l, nsyms mem s, vmaddr mem l + stroff mem s - fileoff mem l,
        strsize mem s⟩) := by
  rw [findKernelMachHeader, ha]
  dsimp only
  rw [foldl_scanCommand, foldl_last hl, foldl_last hs, if_neg (not_or.mpr ⟨hs0, hl0⟩)]

/-- What is found is the last one, or `NULL`. -/
theorem foldl_ne_zero {r : Word → Prop} [DecidablePred r] (h : cs.foldl (fun l c => if r c then c else l) 0 ≠ 0) :
    IsLast r cs (cs.foldl (fun l c => if r c then c else l) 0) := by
  by_cases hex : ∃ c ∈ cs, r c
  · obtain ⟨c, hc⟩ := exists_isLast.mpr hex
    rwa [foldl_last hc]
  · exact absurd (foldl_none fun c hc hr => hex ⟨c, hc, hr⟩) h

/-- Otherwise it reports failure and leaves the fields alone. -/
theorem findKernelMachHeader_eq (h : ¬ ∃ a l s, kernelMachHeader mem ioLog = some a ∧
      IsLast (Segment mem linkeditName) (machCommands mem a) l ∧ IsLast (Symtab mem) (machCommands mem a) s ∧
      l ≠ 0 ∧ s ≠ 0) :
    findKernelMachHeader mem ioLog fields = (false, fields) := by
  rw [findKernelMachHeader]
  cases ha : kernelMachHeader mem ioLog with
  | none => rfl
  | some a =>
    dsimp only
    rw [foldl_scanCommand]
    dsimp only
    split
    · rfl
    · rename_i hne
      rw [not_or] at hne
      exact absurd ⟨a, _, _, ha, foldl_ne_zero hne.2, foldl_ne_zero hne.1, hne.2, hne.1⟩ h

/-- Commands that follow each other inside the address space are not at address 0. -/
theorem iterate_ne_zero {size : Word → Word} {n : ℕ} : ∀ {p : Word}, 0 < p.toNat →
    (∀ c ∈ List.iterate (fun c => c + size c) p n, 8 ≤ (size c).toNat) →
    p.toNat + ((List.iterate (fun c => c + size c) p n).map fun c => (size c).toNat).sum ≤ 2 ^ 32 →
    ∀ c ∈ List.iterate (fun c => c + size c) p n, c ≠ 0 := by
  induction n with
  | zero => exact fun _ _ _ => List.forall_mem_nil _
  | succ n ih =>
    intro p hpos hsize hfits
    rw [List.iterate, List.forall_mem_cons] at hsize ⊢
    rw [List.iterate, List.map_cons, List.sum_cons] at hfits
    refine ⟨fun h0 => by rw [h0] at hpos; exact Nat.lt_irrefl 0 hpos, ?_⟩
    cases n with
    | zero => exact List.forall_mem_nil _
    | succ n =>
      -- there is another command, so this one ends before the end of the address space
      have hnext := hsize.2 (p + size p) List.mem_cons_self
      have hsum : (size (p + size p)).toNat ≤
          ((List.iterate (fun c => c + size c) (p + size p) (n + 1)).map fun c => (size c).toNat).sum := by
        rw [List.iterate, List.map_cons, List.sum_cons]
        exact Nat.le_add_right _ _
      have hnat : (p + size p).toNat = p.toNat + (size p).toNat := by
        rw [BitVec.toNat_add]
        exact Nat.mod_eq_of_lt (by omega)
      exact ih (by omega) hsize.2 (by omega)

theorem WellFormed.ne_zero (h : WellFormed mem a) : ∀ c ∈ machCommands mem a, c ≠ 0 := by
  cases hn : (ncmds mem a).toNat with
  | zero =>
    rw [machCommands, hn]
    exact List.forall_mem_nil _
  | succ n =>
    have hsize := h.size
    have hfits := h.fits
    rw [machCommands, hn] at hsize hfits ⊢
    have hfirst := hsize _ List.mem_cons_self
    have hsum := hfits
    rw [List.iterate, List.map_cons, List.sum_cons] at hsum
    have hnat : (a + sizeofMachHeader).toNat = a.toNat + 28 := by
      rw [BitVec.toNat_add, show sizeofMachHeader.toNat = 28 from rfl]
      exact Nat.mod_eq_of_lt (by omega)
    exact iterate_ne_zero (by omega) hsize (hnat ▸ hfits)

/-- **The kernel's header and symbols.** The header is the highest one from the page of `IOLog` down to page 1. If it is
well formed, the function succeeds exactly when there are a `__LINKEDIT` segment and a symbol table; what it then
records is the last symbol table through the last such segment, and otherwise nothing. -/
theorem header_found (mem : Memory) (ioLog : Word) (fields : SymbolFields) :
    (∀ a, kernelMachHeader mem ioLog = some a ↔ Selected mem ioLog a) ∧
    (∀ a, Selected mem ioLog a → WellFormed mem a →
      ((findKernelMachHeader mem ioLog fields).1 = true ↔
        (∃ l ∈ machCommands mem a, Segment mem linkeditName l) ∧ ∃ s ∈ machCommands mem a, Symtab mem s)) ∧
    ((findKernelMachHeader mem ioLog fields).1 = true →
      ∃ a l s, Selected mem ioLog a ∧ IsLast (Segment mem linkeditName) (machCommands mem a) l ∧
        IsLast (Symtab mem) (machCommands mem a) s ∧ Records mem l s (findKernelMachHeader mem ioLog fields).2) ∧
    ((findKernelMachHeader mem ioLog fields).1 = false → (findKernelMachHeader mem ioLog fields).2 = fields) := by
  refine ⟨fun _ => kernelMachHeader_eq_some, ?_⟩
  by_cases h : ∃ a l s, kernelMachHeader mem ioLog = some a ∧
      IsLast (Segment mem linkeditName) (machCommands mem a) l ∧ IsLast (Symtab mem) (machCommands mem a) s ∧
      l ≠ 0 ∧ s ≠ 0
  · obtain ⟨a, l, s, ha, hl, hs, hl0, hs0⟩ := h
    rw [findKernelMachHeader_last ha hl hs hl0 hs0]
    refine ⟨fun b hb _ => ?_, fun _ => ⟨a, l, s, kernelMachHeader_eq_some.mp ha, hl, hs, ?_⟩, fun hf => ?_⟩
    · rw [← kernelMachHeader_eq_some, ha, Option.some_inj] at hb
      subst hb
      exact ⟨fun _ => ⟨⟨l, hl.mem, hl.holds⟩, s, hs.mem, hs.holds⟩, fun _ => rfl⟩
    · exact ⟨mapsTo_add _ _ _, rfl, mapsTo_add _ _ _, rfl⟩
    · cases hf
  · rw [findKernelMachHeader_eq h]
    refine ⟨fun a ha hwf => ⟨fun ht => ?_, fun ⟨hl, hs⟩ => ?_⟩, fun ht => ?_, fun _ => rfl⟩
    · cases ht
    · obtain ⟨l, hl⟩ := exists_isLast.mpr hl
      obtain ⟨s, hs⟩ := exists_isLast.mpr hs
      exact absurd ⟨a, l, s, kernelMachHeader_eq_some.mpr ha, hl, hs, hwf.ne_zero l hl.mem, hwf.ne_zero s hs.mem⟩ h
    · cases ht

/-- Words from an address on, and zeros. -/
def wordsAt (base : Word) (ws : List Word) : Memory := fun a => ws.getD (a - wordAt base).toNat 0

/-- A header, its `__TEXT` and `__LINKEDIT` segments and its symbol table, at an address. -/
def imageAt (base : Word) : Memory := wordsAt base [0xFEEDFACE, 18, 0, 2, 3, 136, 1,
  1, 56, 0x5F5F5445, 0x58540000, 0, 0, 0x1000, 0x2000, 0, 0x2000, 7, 5, 0, 0,
  1, 56, 0x5F5F4C49, 0x4E4B4544, 0x49540000, 0, 0x40000, 0x1000, 0x3000, 0x1000, 7, 7, 0, 0,
  2, 24, 0x3100, 2, 0x3200, 16]

theorem header_found_image : Selected (imageAt 0x1000) 0x2345 0x1000 ∧
    findKernelMachHeader (imageAt 0x1000) 0x2345 ⟨0, 0, 0, 0⟩ = (true, ⟨0x40100, 2, 0x40200, 16⟩) := by
  obtain ⟨hsel, -⟩ := header_found (imageAt 0x1000) 0x2345 ⟨0, 0, 0, 0⟩
  exact ⟨(hsel _).mp (by decide), by decide⟩

/-- A kernel header at address 0 is not found. -/
theorem header_at_zero : KernelHeader (imageAt 0) 0 ∧ WellFormed (imageAt 0) 0 ∧
    (∀ b : Word, b.toNat % 4096 = 0 → b.toNat ≤ 0x1800 → KernelHeader (imageAt 0) b → b = 0) ∧
    ((∃ l ∈ machCommands (imageAt 0) 0, Segment (imageAt 0) linkeditName l) ∧
      ∃ s ∈ machCommands (imageAt 0) 0, Symtab (imageAt 0) s) ∧
    (findKernelMachHeader (imageAt 0) 0x1800 ⟨0, 0, 0, 0⟩).1 = false := by
  have hcommands : machCommands (imageAt 0) 0 = [28, 84, 140] := by decide
  have hsize : (machCommands (imageAt 0) 0).map (fun c => (cmdsize (imageAt 0) c).toNat) = [56, 56, 24] := by
    rw [hcommands]
    decide
  have hnone : ¬ KernelHeader (imageAt 0) 0x1000 := fun h => absurd h.magic (by decide)
  refine ⟨isKernelHeader_iff.mp (by decide), ⟨fun c hc => ?_, ?_⟩, fun b hpage hle hb => ?_, ⟨⟨84, ?_⟩, 140, ?_⟩, ?_⟩
  · have hmem := List.mem_map_of_mem (f := fun c => (cmdsize (imageAt 0) c).toNat) hc
    rw [hsize] at hmem
    generalize (cmdsize (imageAt 0) c).toNat = n at hmem ⊢
    simp only [List.mem_cons, List.not_mem_nil, or_false] at hmem
    omega
  · rw [hsize]
    decide
  · have hpages : b.toNat = (0 : Word).toNat ∨ b.toNat = (0x1000 : Word).toNat := by
      rw [show (0 : Word).toNat = 0 from rfl, show (0x1000 : Word).toNat = 0x1000 from rfl]
      omega
    rcases hpages with h | h
    · exact BitVec.eq_of_toNat_eq h
    · rw [BitVec.eq_of_toNat_eq h] at hb
      exact absurd hb hnone
  · rw [hcommands]
    decide
  · rw [hcommands]
    decide
  · decide

end Symbols

end Osx360.Platform
