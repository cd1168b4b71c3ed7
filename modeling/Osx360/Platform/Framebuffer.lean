import Osx360.Lib.Writes
import Osx360.Platform.Tiling

/-!
# The framebuffer copies

`refreshFramebuffer` and `prepGraphicsFramebuffer` from `XenonPE_GPU.cpp`. Every refresh shows the linear framebuffer
exactly where the pixels have tiled indices of their own (`refresh_shows_iff`), which a width that is no multiple of 32
spoils. The take-over keeps the image all the same: its two loops undo each other wherever the indices fall
(`prep_keeps_image`).
-/

set_option autoImplicit false

namespace Osx360.Platform

open Osx360.Lib

/-- `kXenosFramebufferLength`, in bytes. -/
def framebufferLength : ℕ := 0x800000

/-- `ALIGN`. -/
def align (v a : ℕ) : ℕ := (v + a - 1) / a * a

/-- `OSSwapHostToLittleInt32` and `OSSwapLittleToHostInt32`. -/
def byteSwap (w : Word) : Word :=
  w.extractLsb' 0 8 ++ w.extractLsb' 8 8 ++ w.extractLsb' 16 8 ++ w.extractLsb' 24 8

theorem byteSwap_byteSwap (w : Word) : byteSwap (byteSwap w) = w := by
  refine BitVec.eq_of_getLsbD_eq fun i hi => ?_
  simp only [byteSwap, BitVec.getLsbD_append, BitVec.getLsbD_extractLsb']
  grind

/-- What the loops read of `PE_Video`. -/
structure Video where
  rowBytes : Word
  width : Word
  height : Word
  display : Word

def linearIndex (video : Video) (x y : Word) : Word := x + y * (video.rowBytes / 4)

/-! ## The loops -/

/-- The writes of a loop over the pixels, row by row. -/
def eachPixel (video : Video) (write : Word → Word → ℕ × Word) : List (ℕ × Word) :=
  (List.range video.height.toNat).flatMap fun y =>
    (List.range video.width.toNat).map fun x => write (BitVec.ofNat 32 x) (BitVec.ofNat 32 y)

def refreshWrites (video : Video) (fb : ℕ → Word) : List (ℕ × Word) :=
  eachPixel video fun x y => ((tiledIndex video.width x y).toNat, byteSwap (fb (linearIndex video x y).toNat))

/-- The GPU framebuffer afterwards, from the linear one and what was there. -/
def refreshFramebuffer (video : Video) (fb gpu : ℕ → Word) : ℕ → Word := applyWrites gpu (refreshWrites video fb)

/-- The writes of the loop in `prepGraphicsFramebuffer`. -/
def convertWrites (video : Video) (gpu : ℕ → Word) : List (ℕ × Word) :=
  eachPixel video fun x y => ((linearIndex video x y).toNat, byteSwap (gpu (tiledIndex video.width x y).toNat))

/-- The two framebuffers, as words. -/
structure Framebuffers where
  gpu : ℕ → Word
  fb : ℕ → Word

/-- `memcpy` of whole words. -/
def memcpy (dst src : ℕ → Word) (length : ℕ) : ℕ → Word := fun i => if 4 * i < length then src i else dst i

def prepGraphicsFramebuffer (video : Video) (s : Framebuffers) : Framebuffers :=
  let s :=
    if video.display ≠ 0 then
      let gpu := memcpy s.gpu s.fb framebufferLength
      { gpu := gpu, fb := applyWrites s.fb (convertWrites video gpu) }
    else s
  { s with gpu := refreshFramebuffer video s.fb s.gpu }

section Loops

variable {video : Video} {write : Word → Word → ℕ × Word} {e : ℕ × Word}

/-- The words below a word. -/
theorem exists_word {n : ℕ} {m : Word} (h : n < m.toNat) : ∃ v, v < m ∧ v.toNat = n := by
  have hn : (BitVec.ofNat 32 n).toNat = n := Nat.mod_eq_of_lt (h.trans m.isLt)
  exact ⟨BitVec.ofNat 32 n, by rwa [BitVec.lt_def, hn], hn⟩

theorem mem_eachPixel :
    e ∈ eachPixel video write ↔ ∃ x y, x < video.width ∧ y < video.height ∧ write x y = e := by
  simp only [eachPixel, List.mem_flatMap, List.mem_range, List.mem_map]
  constructor
  · rintro ⟨y, hy, x, hx, rfl⟩
    obtain ⟨x, hx, rfl⟩ := exists_word hx
    obtain ⟨y, hy, rfl⟩ := exists_word hy
    exact ⟨x, y, hx, hy, by simp⟩
  · rintro ⟨x, y, hx, hy, rfl⟩
    exact ⟨y.toNat, hy, x.toNat, hx, by simp⟩

/-- A loop whose pixels have indices of their own writes each of them. -/
theorem applyWrites_eachPixel (write : Word → Word → ℕ × Word) {m : ℕ → Word} {x y : Word} (hx : x < video.width)
    (hy : y < video.height)
    (hinj : ∀ x' y', x' < video.width → y' < video.height → (write x' y').1 = (write x y).1 → x' = x ∧ y' = y) :
    applyWrites m (eachPixel video write) (write x y).1 = (write x y).2 := by
  refine applyWrites_of_mem (mem_eachPixel.mpr ⟨x, y, hx, hy, rfl⟩) fun e he h => ?_
  obtain ⟨x', y', hx', hy', rfl⟩ := mem_eachPixel.mp he
  obtain ⟨rfl, rfl⟩ := hinj x' y' hx' hy' h
  rfl

end Loops

/-! ## Refreshing -/

/-- The geometries of `getConsoleInfo`. -/
structure Fits (video : Video) : Prop where
  stride : 4 * video.width.toNat ≤ video.rowBytes.toNat
  surface : align video.width.toNat 32 * align video.height.toNat 32 * 4 ≤ framebufferLength

/-- A refresh stores every pixel at a place of its own, inside the surface. -/
structure Shows (video : Video) (fb gpu : ℕ → Word) : Prop where
  shown : ∀ x y, x < video.width → y < video.height →
    refreshFramebuffer video fb gpu (tiledIndex video.width x y).toNat = byteSwap (fb (linearIndex video x y).toNat)
  distinct : ∀ x y x' y', x < video.width → y < video.height → x' < video.width → y' < video.height →
    tiledIndex video.width x y = tiledIndex video.width x' y' → x = x' ∧ y = y'
  inside : ∀ e ∈ refreshWrites video fb, 4 * e.1 < framebufferLength

theorem align_mul_align (w h : ℕ) : align w 32 * align h 32 * 4 = 4096 * ((w + 31) / 32 * ((h + 31) / 32)) := by
  rw [align, align, show w + 32 - 1 = w + 31 from rfl, show h + 32 - 1 = h + 31 from rfl, Nat.mul_mul_mul_comm]
  omega

section Refresh

variable {video : Video} {fb gpu : ℕ → Word} {x y : Word}

/-- The tiled indices of a display that fits, in natural numbers. -/
theorem Fits.tiled (h : Fits video) (hx : x < video.width) (hy : y < video.height) :
    (tiledIndex video.width x y).toNat = 32 * half video.width.toNat x.toNat y.toNat + place x.toNat y.toNat ∧
      4 * (tiledIndex video.width x y).toNat < framebufferLength := by
  have hraw := rawHalf_lt (BitVec.lt_def.mp hx) (BitVec.lt_def.mp hy)
  have hhalf := half_lt hraw
  have hplace := place_lt x.toNat y.toNat
  have hsum := raw_eq video.width.toNat x.toNat y.toNat
  have hsurface := h.surface
  rw [align_mul_align] at hsurface
  simp only [framebufferLength] at hsurface ⊢
  have hidx := toNat_tiledIndex
    (show y.toNat / 32 * 32 * video.width.toNat + x.toNat / 32 * 1024 + 1024 ≤ 2 ^ 32 by omega)
  exact ⟨hidx, by omega⟩

/-- Pixels with one tiled index are pixels with one half and one place. -/
theorem Fits.tiledIndex_eq_iff (h : Fits video) {x' y' : Word} (hx : x < video.width) (hy : y < video.height)
    (hx' : x' < video.width) (hy' : y' < video.height) :
    tiledIndex video.width x y = tiledIndex video.width x' y' ↔
      half video.width.toNat x.toNat y.toNat = half video.width.toNat x'.toNat y'.toNat ∧
        place x.toNat y.toNat = place x'.toNat y'.toNat := by
  have hplace := place_lt x.toNat y.toNat
  have hplace' := place_lt x'.toNat y'.toNat
  rw [← BitVec.toNat_inj, (h.tiled hx hy).1, (h.tiled hx' hy').1]
  omega

theorem Fits.distinct (h : Fits video) (hs : Separate video.width.toNat video.height.toNat) {x' y' : Word}
    (hx : x < video.width) (hy : y < video.height) (hx' : x' < video.width) (hy' : y' < video.height)
    (he : tiledIndex video.width x y = tiledIndex video.width x' y') : x = x' ∧ y = y' := by
  obtain ⟨hhalf, hplace⟩ := (h.tiledIndex_eq_iff hx hy hx' hy').mp he
  unfold place at hplace
  obtain ⟨hxn, hyn⟩ := half_injective hs hx hx' hy hy' hhalf (by omega) (by omega)
  exact ⟨BitVec.eq_of_toNat_eq hxn, BitVec.eq_of_toNat_eq hyn⟩

/-- **A refresh shows the framebuffer exactly in the geometries that keep the pixels apart.** -/
theorem refresh_shows_iff (h : Fits video) :
    Shows video fb gpu ↔ Separate video.width.toNat video.height.toNat := by
  constructor
  · intro hshow
    by_contra hs
    obtain ⟨x, y, x', y', hx, hy, hx', hy', hne, hsame⟩ := exists_collision hs
    obtain ⟨x, hx, rfl⟩ := exists_word hx
    obtain ⟨y, hy, rfl⟩ := exists_word hy
    obtain ⟨x', hx', rfl⟩ := exists_word hx'
    obtain ⟨y', hy', rfl⟩ := exists_word hy'
    obtain ⟨rfl, rfl⟩ := hshow.distinct x y x' y' hx hy hx' hy' ((h.tiledIndex_eq_iff hx hy hx' hy').mpr hsame)
    exact hne rfl
  · intro hs
    refine ⟨fun x y hx hy => ?_, fun x y x' y' hx hy hx' hy' => h.distinct hs hx hy hx' hy', fun e he => ?_⟩
    · refine applyWrites_eachPixel (fun x y => ((tiledIndex video.width x y).toNat,
        byteSwap (fb (linearIndex video x y).toNat))) hx hy fun x' y' hx' hy' he => ?_
      exact h.distinct hs hx' hy' hx hy (BitVec.eq_of_toNat_eq he)
    · obtain ⟨x, y, hx, hy, rfl⟩ := mem_eachPixel.mp he
      exact (h.tiled hx hy).2

theorem refresh_shows_aligned : Shows ⟨2560, 640, 480, 1⟩ (fun _ => 0) (fun _ => 0) :=
  (refresh_shows_iff ⟨by decide, by decide⟩).mpr (by decide)

/-- The first pixel of row 32 of a display of 720 by 480 overwrites another one. -/
theorem wide_tiles_overlap : Fits ⟨2880, 720, 480, 1⟩ ∧ tiledIndex 720 0 32 = tiledIndex 720 704 16 ∧
    ∀ fb gpu, ¬ Shows ⟨2880, 720, 480, 1⟩ fb gpu := by
  refine ⟨⟨by decide, by decide⟩, by decide, fun fb gpu h => ?_⟩
  have hne := h.distinct 0 32 704 16 (by decide) (by decide) (by decide) (by decide) (by decide)
  exact absurd hne (by decide)

end Refresh

/-! ## Taking the framebuffer over -/

/-- The indices of both loops are inside the framebuffers. -/
def Inside (video : Video) : Prop :=
  ∀ x y, x < video.width → y < video.height →
    4 * (linearIndex video x y).toNat < framebufferLength ∧ 4 * (tiledIndex video.width x y).toNat < framebufferLength

section Linear

variable {video : Video} {x y x' y' : Word}

/-- The words of a row. -/
theorem toNat_stride (video : Video) : (video.rowBytes / 4).toNat = video.rowBytes.toNat / 4 := BitVec.toNat_udiv

theorem toNat_linearIndex_of_lt (h : x.toNat + y.toNat * (video.rowBytes / 4).toNat < 2 ^ 32) :
    (linearIndex video x y).toNat = x.toNat + y.toNat * (video.rowBytes / 4).toNat := by
  rw [linearIndex, BitVec.toNat_add, BitVec.toNat_mul, Nat.add_mod_mod, Nat.mod_eq_of_lt h]

/-- No linear index wraps: the last row that is inside is too low for the next one to. -/
theorem Inside.row (h : Inside video) (hx : x < video.width) (n : ℕ) (hn : n < video.height.toNat) :
    4 * (n * (video.rowBytes / 4).toNat) < framebufferLength := by
  induction n with
  | zero => simp [framebufferLength]
  | succ n ih =>
    have hrow := ih (by omega)
    have hstride : (video.rowBytes / 4).toNat < 2 ^ 30 := by
      have := video.rowBytes.isLt
      rw [toNat_stride]
      omega
    have hzero : (0 : Word) < video.width := by
      rw [BitVec.lt_def] at hx ⊢
      exact Nat.zero_lt_of_lt hx
    obtain ⟨y, hy, hyn⟩ := exists_word hn
    have hin := (h 0 y hzero hy).1
    simp only [framebufferLength] at hrow hin ⊢
    rw [toNat_linearIndex_of_lt ?_, hyn, show (0 : Word).toNat = 0 from rfl, Nat.zero_add] at hin
    · exact hin
    · rw [hyn, Nat.add_one_mul, show (0 : Word).toNat = 0 from rfl]
      omega

theorem Inside.toNat_linearIndex (h : Inside video) (hs : 4 * video.width.toNat ≤ video.rowBytes.toNat)
    (hx : x < video.width) (hy : y < video.height) :
    (linearIndex video x y).toNat = x.toNat + y.toNat * (video.rowBytes / 4).toNat := by
  have hrow := h.row hx y.toNat hy
  have hw := video.rowBytes.isLt
  rw [BitVec.lt_def] at hx
  simp only [framebufferLength] at hrow
  exact toNat_linearIndex_of_lt (by omega)

/-- The pixels have linear indices of their own. -/
theorem Inside.linear_injective (h : Inside video) (hs : 4 * video.width.toNat ≤ video.rowBytes.toNat)
    (hx : x < video.width) (hy : y < video.height) (hx' : x' < video.width) (hy' : y' < video.height)
    (he : (linearIndex video x y).toNat = (linearIndex video x' y').toNat) : x = x' ∧ y = y' := by
  rw [h.toNat_linearIndex hs hx hy, h.toNat_linearIndex hs hx' hy'] at he
  have hstride := toNat_stride video
  have hlt : x.toNat < (video.rowBytes / 4).toNat := by rw [BitVec.lt_def] at hx; omega
  have hlt' : x'.toNat < (video.rowBytes / 4).toNat := by rw [BitVec.lt_def] at hx'; omega
  have hcol : x.toNat = x'.toNat := by
    have hmod := congrArg (· % (video.rowBytes / 4).toNat) he
    simpa only [Nat.add_mul_mod_self_right, Nat.mod_eq_of_lt hlt, Nat.mod_eq_of_lt hlt'] using hmod
  have hrow : y.toNat = y'.toNat := by
    rw [hcol] at he
    exact Nat.eq_of_mul_eq_mul_right (Nat.zero_lt_of_lt hlt) (Nat.add_left_cancel he)
  exact ⟨BitVec.eq_of_toNat_eq hcol, BitVec.eq_of_toNat_eq hrow⟩

end Linear

section Prep

variable {video : Video} {s : Framebuffers}

theorem memcpy_inside {dst src : ℕ → Word} {length i : ℕ} (h : 4 * i < length) : memcpy dst src length i = src i :=
  if_pos h

/-- The first loop leaves every pixel in the linear framebuffer. -/
theorem convert_linear (h : Inside video) (hs : 4 * video.width.toNat ≤ video.rowBytes.toNat) {fb gpu : ℕ → Word}
    {x y : Word} (hx : x < video.width) (hy : y < video.height) :
    applyWrites fb (convertWrites video gpu) (linearIndex video x y).toNat =
      byteSwap (gpu (tiledIndex video.width x y).toNat) :=
  applyWrites_eachPixel (fun x y => ((linearIndex video x y).toNat,
    byteSwap (gpu (tiledIndex video.width x y).toNat))) hx hy
      fun _ _ hx' hy' he => h.linear_injective hs hx' hy' hx hy he

/-- **The take-over keeps the image.** -/
theorem prep_keeps_image (hmode : video.display ≠ 0) (hs : 4 * video.width.toNat ≤ video.rowBytes.toNat)
    (hin : Inside video) :
    (∀ i, 4 * i < framebufferLength → (prepGraphicsFramebuffer video s).gpu i = s.fb i) ∧
      ∀ x y, x < video.width → y < video.height →
        (prepGraphicsFramebuffer video s).fb (linearIndex video x y).toNat =
          byteSwap (s.fb (tiledIndex video.width x y).toNat) := by
  have hgraphics : prepGraphicsFramebuffer video s =
      { gpu := refreshFramebuffer video (applyWrites s.fb (convertWrites video (memcpy s.gpu s.fb framebufferLength)))
          (memcpy s.gpu s.fb framebufferLength)
        fb := applyWrites s.fb (convertWrites video (memcpy s.gpu s.fb framebufferLength)) } := by
    simp only [prepGraphicsFramebuffer, if_pos hmode]
  have hlinear : ∀ x y, x < video.width → y < video.height →
      (prepGraphicsFramebuffer video s).fb (linearIndex video x y).toNat =
        byteSwap (s.fb (tiledIndex video.width x y).toNat) := by
    intro x y hx hy
    rw [hgraphics]
    exact (convert_linear hin hs hx hy).trans (congrArg byteSwap (memcpy_inside (hin x y hx hy).2))
  refine ⟨fun i hi => ?_, hlinear⟩
  rw [hgraphics] at hlinear ⊢
  -- every write of the refresh puts the word back that the linear pixel was taken from
  refine applyWrites_of_agree (fun e he hei => ?_) (Or.inl (memcpy_inside hi))
  obtain ⟨x, y, hx, hy, rfl⟩ := mem_eachPixel.mp he
  obtain rfl : (tiledIndex video.width x y).toNat = i := hei
  exact (congrArg byteSwap (hlinear x y hx hy)).trans (byteSwap_byteSwap _)

/-- The take-over of a display whose pixels share indices. -/
theorem prep_keeps_image_overlap :
    (prepGraphicsFramebuffer ⟨4, 1, 65, 1⟩ ⟨fun _ => 0, fun i => BitVec.ofNat 32 i⟩).gpu 65 = 65 := by
  have hin : Inside ⟨4, 1, 65, 1⟩ := by
    intro x y hx hy
    obtain rfl : x = 0 := BitVec.eq_of_toNat_eq (Nat.lt_one_iff.mp hx)
    obtain ⟨n, hn, rfl⟩ : ∃ n < 65, y = BitVec.ofNat 32 n := ⟨y.toNat, hy, by simp⟩
    revert n
    decide
  exact (prep_keeps_image (by decide) (by decide) hin).1 65 (by decide)

end Prep

end Osx360.Platform
