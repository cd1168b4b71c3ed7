import Mathlib.Data.List.Nodup
import Mathlib.Data.List.Perm.Subperm
import Mathlib.Data.Set.Function
import Osx360.Platform.Framebuffer

/-!
# Whole surfaces

In a surface of whole tiles the tiled indices of the pixels are the words of the surface, each of them once
(`surface_bijOn`), so every refresh writes every word once (`refresh_writes_once`).
-/

set_option autoImplicit false

namespace Osx360.Platform

open Osx360.Lib

/-- A surface of whole tiles whose words have 32-bit indices. -/
structure WholeTiles (width height : Word) : Prop where
  columns : width.toNat % 32 = 0
  rows : height.toNat % 32 = 0
  size : width.toNat * height.toNat < 2 ^ 32

section Surface

variable {width height x y x' y' : Word}

theorem WholeTiles.size_eq (h : WholeTiles width height) :
    width.toNat * height.toNat = 1024 * (width.toNat / 32 * (height.toNat / 32)) := by
  obtain ⟨j, hj⟩ := Nat.dvd_of_mod_eq_zero h.columns
  obtain ⟨k, hk⟩ := Nat.dvd_of_mod_eq_zero h.rows
  rw [hj, hk, Nat.mul_mul_mul_comm, Nat.mul_div_cancel_left _ (by decide), Nat.mul_div_cancel_left _ (by decide)]

/-- The index neither wraps nor leaves the surface. -/
theorem WholeTiles.tiled (h : WholeTiles width height) (hx : x < width) (hy : y < height) :
    (tiledIndex width x y).toNat = 32 * half width.toNat x.toNat y.toNat + place x.toNat y.toNat ∧
      (tiledIndex width x y).toNat < width.toNat * height.toNat := by
  have hw := h.columns
  have hh := h.rows
  have hsize := h.size
  have hx := BitVec.lt_def.mp hx
  have hy := BitVec.lt_def.mp hy
  have hrows : (y.toNat / 32 + 1) * width.toNat ≤ height.toNat / 32 * width.toNat := Nat.mul_le_mul_right _ (by omega)
  have hsurface : width.toNat * height.toNat = 32 * (height.toNat / 32 * width.toNat) := by
    rw [← Nat.mul_assoc, Nat.mul_comm width.toNat, Nat.mul_div_cancel' (Nat.dvd_of_mod_eq_zero hh)]
  have hbase : y.toNat / 32 * 32 * width.toNat = 32 * (y.toNat / 32 * width.toNat) := by
    rw [Nat.mul_right_comm, Nat.mul_comm]
  rw [Nat.add_one_mul] at hrows
  have hidx := toNat_tiledIndex
    (show y.toNat / 32 * 32 * width.toNat + x.toNat / 32 * 1024 + 1024 ≤ 2 ^ 32 by omega)
  have hraw := rawHalf_lt hx hy
  have hhalf := half_lt hraw
  have hplace := place_lt x.toNat y.toNat
  rw [show (width.toNat + 31) / 32 = width.toNat / 32 by omega,
    show (height.toNat + 31) / 32 = height.toNat / 32 by omega] at hhalf
  rw [h.size_eq]
  exact ⟨hidx, by omega⟩

theorem WholeTiles.injective (h : WholeTiles width height) (hx : x < width) (hy : y < height) (hx' : x' < width)
    (hy' : y' < height) (he : (tiledIndex width x y).toNat = (tiledIndex width x' y').toNat) : x = x' ∧ y = y' := by
  have hplace := place_lt x.toNat y.toNat
  have hplace' := place_lt x'.toNat y'.toNat
  rw [(h.tiled hx hy).1, (h.tiled hx' hy').1] at he
  have hsame : place x.toNat y.toNat = place x'.toNat y'.toNat := by omega
  have hhalf : half width.toNat x.toNat y.toNat = half width.toNat x'.toNat y'.toNat := by omega
  unfold place at hsame
  obtain ⟨k, hk⟩ := Nat.dvd_of_mod_eq_zero h.columns
  rw [BitVec.lt_def, hk] at hx hx'
  rw [hk] at hhalf
  obtain ⟨hxn, hyn⟩ := half_injective_aligned hx hx' hhalf (by omega) (by omega)
  exact ⟨BitVec.eq_of_toNat_eq hxn, BitVec.eq_of_toNat_eq hyn⟩

end Surface

/-! ## Loops -/

section Loops

variable {video : Video} {write : Word → Word → ℕ × Word}

theorem length_eachPixel (video : Video) (write : Word → Word → ℕ × Word) :
    (eachPixel video write).length = video.width.toNat * video.height.toNat := by
  simp [eachPixel, Nat.mul_comm]

/-- The words written by a loop whose pixels have indices of their own. -/
theorem nodup_eachPixel (hinj : ∀ x y x' y', x < video.width → y < video.height → x' < video.width →
    y' < video.height → (write x y).1 = (write x' y').1 → x = x' ∧ y = y') :
    ((eachPixel video write).map Prod.fst).Nodup := by
  rw [eachPixel, List.map_flatMap, List.nodup_flatMap]
  constructor
  · intro j hj
    obtain ⟨y, hy, rfl⟩ := exists_word (List.mem_range.mp hj)
    rw [List.map_map]
    refine List.Nodup.map_on (fun i hi i' hi' he => ?_) List.nodup_range
    obtain ⟨x, hx, rfl⟩ := exists_word (List.mem_range.mp hi)
    obtain ⟨x', hx', rfl⟩ := exists_word (List.mem_range.mp hi')
    simp only [Function.comp_apply, BitVec.ofNat_toNat, BitVec.setWidth_eq] at he
    rw [(hinj x y x' y hx hy hx' hy he).1]
  · refine List.Pairwise.imp_of_mem (fun {j j'} hj hj' hne => ?_) List.nodup_range
    obtain ⟨y, hy, rfl⟩ := exists_word (List.mem_range.mp hj)
    obtain ⟨y', hy', rfl⟩ := exists_word (List.mem_range.mp hj')
    simp only [Function.onFun, List.disjoint_left, List.mem_map, List.mem_range]
    rintro _ ⟨_, ⟨i, hi, rfl⟩, rfl⟩ ⟨_, ⟨i', hi', rfl⟩, he⟩
    obtain ⟨x, hx, rfl⟩ := exists_word hi
    obtain ⟨x', hx', rfl⟩ := exists_word hi'
    simp only [BitVec.ofNat_toNat, BitVec.setWidth_eq] at he
    exact hne (by rw [(hinj x' y' x y hx' hy' hx hy he).2])

end Loops

section Refresh

variable {video : Video}

/-- **Every refresh of a surface writes its words, each of them once.** -/
theorem refresh_writes_once (h : WholeTiles video.width video.height) (fb : ℕ → Word) :
    ((refreshWrites video fb).map Prod.fst).Perm (List.range (video.width.toNat * video.height.toNat)) := by
  have hnodup : ((refreshWrites video fb).map Prod.fst).Nodup :=
    nodup_eachPixel fun x y x' y' hx hy hx' hy' he => h.injective hx hy hx' hy' he
  have hinside : (refreshWrites video fb).map Prod.fst ⊆ List.range (video.width.toNat * video.height.toNat) := by
    intro n hn
    obtain ⟨e, he, rfl⟩ := List.mem_map.mp hn
    obtain ⟨x, y, hx, hy, rfl⟩ := mem_eachPixel.mp he
    exact List.mem_range.mpr (h.tiled hx hy).2
  refine (List.subperm_of_subset hnodup hinside).perm_of_length_le ?_
  rw [List.length_range, List.length_map, refreshWrites, length_eachPixel]

/-- **The pixels of a surface of whole tiles are its words**, in the loops of either function. -/
theorem surface_bijOn (h : WholeTiles video.width video.height) :
    Set.BijOn (fun p : Word × Word => (tiledIndex video.width p.1 p.2).toNat)
      {p | p.1 < video.width ∧ p.2 < video.height} {n | n < video.width.toNat * video.height.toNat} ∧
    (∀ fb, ((refreshWrites video fb).map Prod.fst).Perm (List.range (video.width.toNat * video.height.toNat))) := by
  refine ⟨⟨fun p hp => (h.tiled hp.1 hp.2).2, fun p hp q hq he => ?_, fun n hn => ?_⟩, refresh_writes_once h⟩
  · exact Prod.ext_iff.mpr (h.injective hp.1 hp.2 hq.1 hq.2 he)
  · have hmem := (refresh_writes_once h fun _ => 0).mem_iff.mpr (List.mem_range.mpr hn)
    obtain ⟨e, he, rfl⟩ := List.mem_map.mp hmem
    obtain ⟨x, y, hx, hy, rfl⟩ := mem_eachPixel.mp he
    exact ⟨(x, y), ⟨hx, hy⟩, rfl⟩

/-- A display of 640 by 480. -/
theorem surface_bijOn_vga : Set.BijOn (fun p : Word × Word => (tiledIndex 640 p.1 p.2).toNat)
    {p | p.1 < 640 ∧ p.2 < 480} {n | n < 640 * 480} :=
  (@surface_bijOn ⟨2560, 640, 480, 1⟩ ⟨rfl, rfl, by decide⟩).1

end Refresh

end Osx360.Platform
