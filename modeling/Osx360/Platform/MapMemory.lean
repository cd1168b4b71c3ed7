import Mathlib.Data.Set.Basic
import Osx360.Lib.Bits

/-!
# Mapping physical memory

`mapMemory` from `XenonPE_Patcher.cpp`, over a kernel that reserves and maps whole pages. The function shifts the
address and the length down to pages on their own, truncates the page number, and does not give the reserved range back
when it cannot be mapped: it does what it should exactly when nothing can be reserved or is asked for, or whole pages
below 2^44 are mapped (`map_memory_iff`).
-/

set_option autoImplicit false

namespace Osx360.Platform

open Osx360.Lib

universe u

/-! ## The kernel's functions -/

/-- The functions that are called, by the addresses that the patcher found, and what can be seen of the kernel. -/
structure Vm (κ : Type u) where
  /-- `kmem_alloc_pageable`: what it returns, `*addrp`, and the kernel. -/
  kmemAllocPageable : κ → (size : Word) → Word × Word × κ
  /-- `mapping_make`: what it returns, and the kernel. -/
  mappingMake : κ → (va : BitVec 64) → (pa flags size prot : Word) → BitVec 64 × κ
  /-- The addresses in ranges that are reserved. -/
  allocated : κ → Set Word
  /-- The physical byte that a read of an address reaches. -/
  translate : κ → Word → Option (BitVec 64)

/-- The address is in so many pages from a start on. -/
def InPages (start : Word) (pages : ℕ) (a : Word) : Prop :=
  start.toNat ≤ a.toNat ∧ a.toNat < start.toNat + 4096 * pages

instance (start : Word) (pages : ℕ) (a : Word) : Decidable (InPages start pages a) :=
  inferInstanceAs (Decidable (start.toNat ≤ a.toNat ∧ a.toNat < start.toNat + 4096 * pages))

/-- The pages of a length, rounded up. -/
def roundPages (length : Word) : ℕ := (length.toNat + 4095) / 4096

/-- A new range of whole pages, with nothing mapped there. -/
structure Reserved {κ : Type u} (vm : Vm κ) (k k' : κ) (start : Word) (pages : ℕ) : Prop where
  aligned : start.toNat % 4096 = 0
  fits : start.toNat + 4096 * pages ≤ 2 ^ 32
  fresh : ∀ a, InPages start pages a → a ∉ vm.allocated k
  unmapped : ∀ a, InPages start pages a → vm.translate k' a = none
  allocated : vm.allocated k' = vm.allocated k ∪ {a | InPages start pages a}

/-- What is known of the kernel. -/
structure VmSpec {κ : Type u} (vm : Vm κ) : Prop where
  alloc : ∀ k length, (vm.kmemAllocPageable k length).1 = 0 →
    Reserved vm k (vm.kmemAllocPageable k length).2.2 (vm.kmemAllocPageable k length).2.1 (roundPages length)
  alloc_fails : ∀ k length, (vm.kmemAllocPageable k length).1 ≠ 0 →
    vm.allocated (vm.kmemAllocPageable k length).2.2 = vm.allocated k
  make : ∀ k (start pa flags size prot : Word), start.toNat % 4096 = 0 →
    (vm.mappingMake k (start.setWidth 64) pa flags size prot).1 = 0 →
    ∀ a, vm.translate (vm.mappingMake k (start.setWidth 64) pa flags size prot).2 a =
      if InPages start size.toNat a then some (BitVec.ofNat 64 (4096 * pa.toNat + (a.toNat - start.toNat)))
      else vm.translate k a
  make_fails : ∀ k va pa flags size prot, (vm.mappingMake k va pa flags size prot).1 ≠ 0 →
    vm.translate (vm.mappingMake k va pa flags size prot).2 = vm.translate k
  make_allocated : ∀ k va pa flags size prot,
    vm.allocated (vm.mappingMake k va pa flags size prot).2 = vm.allocated k

/-! ## The function -/

def ioReturnSuccess : Word := 0

/-- `kIOReturnIOError`. -/
def ioReturnIOError : Word := 0xE00002CA

/-- `mmFlgBlock | mmFlgUseAttr | mmFlgCInhib | mmFlgGuarded`. -/
def mapFlags : Word := 0x80000000 ||| 0x40000000 ||| 0x00000002 ||| 0x00000001

/-- `VM_PROT_READ | VM_PROT_WRITE`. -/
def mapProt : Word := 1 ||| 2

section Function

variable {κ : Type u} (vm : Vm κ) (k : κ) (physAddr : BitVec 64) (length virtBase : Word)

/-- The call of `_mappingMakeFunc`, with `(ppnum_t)(physAddr >> 12)`. -/
def mapRange (start : Word) : BitVec 64 × κ :=
  vm.mappingMake k (start.setWidth 64) ((physAddr >>> 12).setWidth 32) mapFlags (length >>> 12) mapProt

/-- What it returns, `*virtBase`, and the kernel. `result` has 32 bits. -/
def mapMemory : Word × Word × κ :=
  let (result, start, k) := vm.kmemAllocPageable k length
  if result ≠ 0 then (ioReturnIOError, virtBase, k)
  else
    let (mapped, k) := mapRange vm k physAddr length start
    if mapped.setWidth 32 ≠ (0 : Word) then (ioReturnIOError, virtBase, k)
    else (ioReturnSuccess, start, k)

/-- A call that succeeds maps the physical range byte by byte, and one that fails leaves nothing allocated. -/
structure Maps : Prop where
  success : (mapMemory vm k physAddr length virtBase).1 = ioReturnSuccess → ∀ i < length.toNat,
    vm.translate (mapMemory vm k physAddr length virtBase).2.2
      ((mapMemory vm k physAddr length virtBase).2.1 + BitVec.ofNat 32 i) = some (physAddr + BitVec.ofNat 64 i)
  failure : (mapMemory vm k physAddr length virtBase).1 ≠ ioReturnSuccess →
    (mapMemory vm k physAddr length virtBase).2.1 = virtBase ∧
      vm.allocated (mapMemory vm k physAddr length virtBase).2.2 = vm.allocated k

/-- A range can be reserved. -/
def CanReserve : Prop := (vm.kmemAllocPageable k length).1 = 0

/-- The second call, once a range has been reserved. -/
def mapReserved : BitVec 64 × κ :=
  mapRange vm (vm.kmemAllocPageable k length).2.2 physAddr length (vm.kmemAllocPageable k length).2.1

/-- The range reserved can be mapped. -/
def CanMap : Prop := (mapReserved vm k physAddr length).1 = 0

end Function

section Maps

variable {κ : Type u} {vm : Vm κ} {k k' : κ} {physAddr : BitVec 64} {length virtBase start : Word}

theorem ioReturnIOError_ne : ioReturnIOError ≠ ioReturnSuccess := by decide

theorem mapMemory_of_not_reserved (h : ¬ CanReserve vm k length) :
    mapMemory vm k physAddr length virtBase =
      (ioReturnIOError, virtBase, (vm.kmemAllocPageable k length).2.2) := by
  rw [mapMemory]
  exact if_pos h

theorem mapMemory_of_failed (h : CanReserve vm k length)
    (hm : (mapReserved vm k physAddr length).1.setWidth 32 ≠ (0 : Word)) :
    mapMemory vm k physAddr length virtBase =
      (ioReturnIOError, virtBase, (mapReserved vm k physAddr length).2) := by
  rw [mapMemory]
  exact (if_neg (not_not.mpr h)).trans (if_pos hm)

theorem mapMemory_of_mapped (h : CanReserve vm k length)
    (hm : (mapReserved vm k physAddr length).1.setWidth 32 = (0 : Word)) :
    mapMemory vm k physAddr length virtBase =
      (ioReturnSuccess, (vm.kmemAllocPageable k length).2.1, (mapReserved vm k physAddr length).2) := by
  rw [mapMemory]
  exact (if_neg (not_not.mpr h)).trans (if_neg (not_not.mpr hm))

/-- Mapping leaves what is reserved alone. -/
theorem allocated_mapReserved (h : VmSpec vm) : vm.allocated (mapReserved vm k physAddr length).2 =
    vm.allocated (vm.kmemAllocPageable k length).2.2 :=
  h.make_allocated _ _ _ _ _ _

/-- An address inside the length is in the range reserved, that far from its start. -/
theorem toNat_add_of_lt (hfits : start.toNat + 4096 * roundPages length ≤ 2 ^ 32) {i : ℕ} (hi : i < length.toNat) :
    (start + BitVec.ofNat 32 i).toNat = start.toNat + i := by
  rw [roundPages] at hfits
  rw [BitVec.toNat_add, BitVec.toNat_ofNat]
  omega

theorem inPages_of_lt (hfits : start.toNat + 4096 * roundPages length ≤ 2 ^ 32) {i : ℕ} (hi : i < length.toNat) :
    InPages start (roundPages length) (start + BitVec.ofNat 32 i) := by
  rw [InPages, toNat_add_of_lt hfits hi, roundPages]
  omega

/-- An empty length reserves nothing. -/
theorem not_inPages_zero (start a : Word) : ¬ InPages start (roundPages 0) a := by
  rintro ⟨hlo, hhi⟩
  have hzero : roundPages 0 = 0 := rfl
  rw [hzero] at hhi
  omega

/-- The byte reached, when the range has been mapped. -/
theorem translate_mapRange (h : VmSpec vm) (hal : start.toNat % 4096 = 0)
    (hfits : start.toNat + 4096 * roundPages length ≤ 2 ^ 32)
    (hnone : ∀ a, InPages start (roundPages length) a → vm.translate k' a = none)
    (hmap : (mapRange vm k' physAddr length start).1 = 0) {i : ℕ} (hi : i < length.toNat) :
    vm.translate (mapRange vm k' physAddr length start).2 (start + BitVec.ofNat 32 i) =
      if i < 4096 * (length.toNat / 4096) then
        some (BitVec.ofNat 64 (4096 * (physAddr.toNat / 4096 % 2 ^ 32) + i))
      else none := by
  have hnat := toNat_add_of_lt hfits hi
  have hpa : ((physAddr >>> 12).setWidth 32 : Word).toNat = physAddr.toNat / 4096 % 2 ^ 32 := by
    rw [BitVec.toNat_setWidth, BitVec.toNat_ushiftRight, Nat.shiftRight_eq_div_pow]
  rw [mapRange, h.make _ _ _ _ _ _ hal hmap, hpa, hnone _ (inPages_of_lt hfits hi)]
  have hin : InPages start (length >>> 12).toNat (start + BitVec.ofNat 32 i) ↔ i < 4096 * (length.toNat / 4096) := by
    rw [InPages, hnat, toNat_shiftRight (show 4096 = 2 ^ 12 from rfl)]
    omega
  simp only [hin, hnat, Nat.add_sub_cancel_left]

/-- With nothing asked for there is nothing to go wrong. -/
theorem maps_zero (h : VmSpec vm) : Maps vm k physAddr 0 virtBase := by
  refine ⟨fun _ i hi => absurd hi (Nat.not_lt_zero i), fun hfail => ?_⟩
  by_cases hres : CanReserve vm k 0
  · have hallocated : vm.allocated (vm.kmemAllocPageable k 0).2.2 = vm.allocated k := by
      rw [(h.alloc k 0 hres).allocated]
      refine Set.union_eq_self_of_subset_right fun a ha => ?_
      exact absurd ha (not_inPages_zero _ a)
    by_cases hm : (mapReserved vm k physAddr 0).1.setWidth 32 = (0 : Word)
    · rw [mapMemory_of_mapped hres hm] at hfail
      exact absurd rfl hfail
    · rw [mapMemory_of_failed hres hm]
      exact ⟨rfl, (allocated_mapReserved h).trans hallocated⟩
  · rw [mapMemory_of_not_reserved hres]
    exact ⟨rfl, h.alloc_fails k 0 hres⟩

/-- A range that was mapped reaches the right bytes exactly when it is made of whole pages of physical memory with a
page number of 32 bits. -/
theorem maps_of_mapped (h : VmSpec vm) (hres : CanReserve vm k length) (hmap : CanMap vm k physAddr length)
    (hlen : length ≠ 0) :
    Maps vm k physAddr length virtBase ↔
      physAddr.toNat % 4096 = 0 ∧ length.toNat % 4096 = 0 ∧ physAddr.toNat < 2 ^ 44 := by
  have hr := h.alloc k length hres
  have hpos : length.toNat ≠ 0 := fun h0 => hlen (BitVec.eq_of_toNat_eq h0)
  have hphys := physAddr.isLt
  have hzero : (mapReserved vm k physAddr length).1.setWidth 32 = (0 : Word) := by
    rw [show (mapReserved vm k physAddr length).1 = 0 from hmap]
    rfl
  have heq := @mapMemory_of_mapped _ vm k physAddr length virtBase hres hzero
  have htranslate : ∀ i < length.toNat,
      vm.translate (mapReserved vm k physAddr length).2 ((vm.kmemAllocPageable k length).2.1 + BitVec.ofNat 32 i) = _ :=
    fun i => translate_mapRange h hr.aligned hr.fits hr.unmapped hmap
  constructor
  · intro hm
    have hall := hm.success (by rw [heq])
    rw [heq] at hall
    have hwhole : length.toNat % 4096 = 0 := by
      by_contra hpart
      have hlast := hall (4096 * (length.toNat / 4096)) (by omega)
      rw [htranslate _ (by omega), if_neg (Nat.lt_irrefl _)] at hlast
      cases hlast
    have hfirst := hall 0 (by omega)
    rw [htranslate 0 (by omega), if_pos (by omega), Option.some_inj] at hfirst
    have hnat := congrArg BitVec.toNat hfirst
    rw [BitVec.toNat_ofNat, BitVec.toNat_add, BitVec.toNat_ofNat] at hnat
    omega
  · rintro ⟨hphys0, hlen0, hlt⟩
    refine ⟨fun _ i hi => ?_, fun hfail => absurd (by rw [heq]) hfail⟩
    rw [heq, htranslate i hi, if_pos (by omega)]
    have hpage : 4096 * (physAddr.toNat / 4096 % 2 ^ 32) = physAddr.toNat := by omega
    rw [hpage, BitVec.ofNat_add, BitVec.ofNat_toNat, BitVec.setWidth_eq]

/-- A range that was reserved and not mapped: a report of success is wrong, and a report of failure leaves it behind. -/
theorem not_maps_of_not_mapped (h : VmSpec vm) (hres : CanReserve vm k length) (hmap : ¬ CanMap vm k physAddr length)
    (hlen : length ≠ 0) : ¬ Maps vm k physAddr length virtBase := by
  intro hm
  have hr := h.alloc k length hres
  have hpos : 0 < length.toNat := Nat.pos_of_ne_zero fun h0 => hlen (BitVec.eq_of_toNat_eq h0)
  have hfirst := inPages_of_lt hr.fits hpos
  by_cases hz : (mapReserved vm k physAddr length).1.setWidth 32 = (0 : Word)
  · have heq := @mapMemory_of_mapped _ vm k physAddr length virtBase hres hz
    have hread := hm.success (by rw [heq]) 0 hpos
    have hkept : vm.translate (mapReserved vm k physAddr length).2 = _ := h.make_fails _ _ _ _ _ _ hmap
    rw [heq, hkept, hr.unmapped _ hfirst] at hread
    cases hread
  · have heq := @mapMemory_of_failed _ vm k physAddr length virtBase hres hz
    have hkept := (hm.failure (by rw [heq]; exact ioReturnIOError_ne)).2
    rw [heq, allocated_mapReserved h, hr.allocated] at hkept
    exact hr.fresh _ hfirst (hkept ▸ Set.mem_union_right _ hfirst)

/-- **What is mapped is what was asked for.** -/
theorem map_memory_iff (h : VmSpec vm) (k : κ) (physAddr : BitVec 64) (length virtBase : Word) :
    Maps vm k physAddr length virtBase ↔
      ¬ CanReserve vm k length ∨ length = 0 ∨
        CanMap vm k physAddr length ∧
          physAddr.toNat % 4096 = 0 ∧ length.toNat % 4096 = 0 ∧ physAddr.toNat < 2 ^ 44 := by
  by_cases hres : CanReserve vm k length
  · by_cases hlen : length = 0
    · subst hlen
      exact iff_of_true (maps_zero h) (Or.inr (Or.inl rfl))
    · by_cases hmap : CanMap vm k physAddr length
      · rw [maps_of_mapped h hres hmap hlen]
        simp only [hres, hlen, hmap, not_true, false_or, true_and]
      · refine iff_of_false (not_maps_of_not_mapped h hres hmap hlen) ?_
        simp only [hres, hlen, hmap, not_true, false_and, or_self, not_false_iff]
  · refine iff_of_true ⟨fun hs => ?_, fun _ => ?_⟩ (Or.inl hres)
    · rw [mapMemory_of_not_reserved hres] at hs
      exact absurd hs ioReturnIOError_ne
    · rw [mapMemory_of_not_reserved hres]
      exact ⟨rfl, h.alloc_fails k length hres⟩

end Maps

/-! ## A kernel -/

/-- The pages below a number are reserved, and nothing is mapped from there on. -/
structure FlatKernel where
  next : ℕ
  maps : Word → Option (BitVec 64)
  unmapped : ∀ a : Word, 4096 * next ≤ a.toNat → maps a = none

def FlatKernel.alloc (k : FlatKernel) (length : Word) : Word × Word × FlatKernel :=
  if k.next + roundPages length < 2 ^ 20 then
    (0, BitVec.ofNat 32 (4096 * k.next), { k with
      next := k.next + roundPages length
      unmapped := fun a ha => k.unmapped a (by omega) })
  else (3, 0, k)

def FlatKernel.make (k : FlatKernel) (va : BitVec 64) (pa size : Word) : BitVec 64 × FlatKernel :=
  if hroom : va.toNat + 4096 * size.toNat ≤ 4096 * k.next then
    (0, { k with
      maps := fun a => if va.toNat ≤ a.toNat ∧ a.toNat < va.toNat + 4096 * size.toNat then
        some (BitVec.ofNat 64 (4096 * pa.toNat + (a.toNat - va.toNat))) else k.maps a
      unmapped := fun a ha => by rw [if_neg (by omega), k.unmapped a ha] })
  else (1, k)

def flatVm : Vm FlatKernel where
  kmemAllocPageable k length := k.alloc length
  mappingMake k va pa _ size _ := k.make va pa size
  allocated k := {a | a.toNat < 4096 * k.next}
  translate k a := k.maps a

def freshKernel : FlatKernel := ⟨1, fun _ => none, fun _ _ => rfl⟩

section Flat

theorem flatVm_spec : VmSpec flatVm where
  alloc k length h := by
    simp only [flatVm, FlatKernel.alloc] at h ⊢
    split at h
    · rename_i hroom
      have hstart : (BitVec.ofNat 32 (4096 * k.next)).toNat = 4096 * k.next := by
        rw [BitVec.toNat_ofNat]
        exact Nat.mod_eq_of_lt (by omega)
      rw [if_pos hroom]
      refine ⟨?_, ?_, fun a ha => ?_, fun a ha => ?_, Set.ext fun a => ?_⟩
      · rw [hstart, Nat.mul_mod_right]
      · rw [hstart]
        omega
      · rw [InPages, hstart] at ha
        simp only [Set.mem_ofPred_eq]
        omega
      · rw [InPages, hstart] at ha
        exact k.unmapped a ha.1
      · simp only [Set.mem_union, Set.mem_ofPred_eq, InPages, hstart]
        omega
    · cases h
  alloc_fails k length h := by
    simp only [flatVm, FlatKernel.alloc] at h ⊢
    split at h
    · exact absurd rfl h
    · rename_i hroom
      rw [if_neg hroom]
  make k start pa flags size prot _ h a := by
    have hstart : (start.setWidth 64 : BitVec 64).toNat = start.toNat := by
      rw [BitVec.toNat_setWidth]
      exact Nat.mod_eq_of_lt (by omega)
    simp only [flatVm, FlatKernel.make, hstart] at h ⊢
    split at h
    · rename_i hroom
      rw [dif_pos hroom]
      rfl
    · cases h
  make_fails k va pa flags size prot h := by
    simp only [flatVm, FlatKernel.make] at h ⊢
    split at h
    · exact absurd rfl h
    · rename_i hroom
      rw [dif_neg hroom]
  make_allocated k va pa flags size prot := by
    simp only [flatVm, FlatKernel.make]
    split <;> rfl

theorem map_memory_two_pages : Maps flatVm freshKernel 0x200000000 0x2000 0 := by
  have hmap : CanMap flatVm freshKernel 0x200000000 0x2000 := rfl
  exact (map_memory_iff flatVm_spec freshKernel 0x200000000 0x2000 0).mpr
    (Or.inr (Or.inr ⟨hmap, by decide, by decide, by decide⟩))

/-- An address inside a page: the first byte of the page is reached. -/
theorem map_memory_in_page : (mapMemory flatVm freshKernel 0x200000804 0x1000 0).1 = ioReturnSuccess ∧
    flatVm.translate (mapMemory flatVm freshKernel 0x200000804 0x1000 0).2.2
      (mapMemory flatVm freshKernel 0x200000804 0x1000 0).2.1 = some 0x200000000 ∧
    ¬ Maps flatVm freshKernel 0x200000804 0x1000 0 := by
  have hread : flatVm.translate (mapMemory flatVm freshKernel 0x200000804 0x1000 0).2.2
      ((mapMemory flatVm freshKernel 0x200000804 0x1000 0).2.1 + BitVec.ofNat 32 0) = some 0x200000000 := by decide
  refine ⟨by decide, by decide, fun h => ?_⟩
  have hclaim := h.success (by decide) 0 (by decide)
  rw [hread] at hclaim
  exact absurd hclaim (by decide)

end Flat

end Osx360.Platform
