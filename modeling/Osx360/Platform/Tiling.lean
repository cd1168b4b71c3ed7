import Mathlib.Data.Nat.Bitwise
import Osx360.Lib.Bits

/-!
# Tiled framebuffers

The index of a pixel in the tiled framebuffer of the GPU, from `XenonPE_GPU.cpp`. A tile is 32 by 32 pixels; a row of
tiles starts `32 * v_width` words after the one above it, whether or not the width is a multiple of 32.
-/

set_option autoImplicit false

namespace Osx360.Platform

open Osx360.Lib

/-- The tiled index of the pixel, as both loops compute it. -/
def tiledIndex (width x y : Word) : Word :=
  ((y >>> 5) * (32 : Word) * width + ((x >>> 5) <<< 10) + (x &&& (3 : Word)) + ((y &&& 1) <<< 2)
    + (((x &&& 31) >>> 2) <<< 3) + (((y &&& 31) >>> 1) <<< 6)) ^^^ ((y &&& 8) <<< 2)

/-! ## In natural numbers -/

/-- The tiled index in units of 32 words, before the exclusive or. -/
def rawHalf (w x y : ℕ) : ℕ := y / 32 * w + 32 * (x / 32) + 2 * (y % 32 / 2) + x % 32 / 16

/-- The exclusive or, in units of 32 words. -/
def flipped (m y : ℕ) : ℕ := 2 * (m / 2) + (m + y / 8) % 2

/-- The tiled index in units of 32 words. -/
def half (w x y : ℕ) : ℕ := flipped (rawHalf w x y) y

/-- The place of the pixel in its 32 words. -/
def place (x y : ℕ) : ℕ := x % 16 / 4 * 8 + y % 2 * 4 + x % 4

theorem place_lt (x y : ℕ) : place x y < 32 := by
  unfold place
  omega

/-- The sum of the index in units of 32 words. -/
theorem raw_eq (w x y : ℕ) :
    32 * rawHalf w x y + place x y =
      y / 32 * 32 * w + x / 32 * 1024 + x % 4 + y % 2 * 4 + x % 32 / 4 * 8 + y % 32 / 2 * 64 := by
  have hmul : y / 32 * 32 * w = 32 * (y / 32 * w) := by rw [Nat.mul_right_comm, Nat.mul_comm]
  unfold rawHalf place
  omega

/-- The rows of tiles above, the tiles to the left, and the tile itself. -/
theorem rawHalf_lt {w h x y : ℕ} (hx : x < w) (hy : y < h) :
    rawHalf w x y < 32 * ((w + 31) / 32 * ((h + 31) / 32)) := by
  have hrows : (y / 32 + 1) * (32 * ((w + 31) / 32)) ≤ (h + 31) / 32 * (32 * ((w + 31) / 32)) :=
    Nat.mul_le_mul_right _ (by omega)
  have hwidth : y / 32 * w ≤ y / 32 * (32 * ((w + 31) / 32)) := Nat.mul_le_mul_left _ (by omega)
  have hcomm : (h + 31) / 32 * (32 * ((w + 31) / 32)) = 32 * ((w + 31) / 32 * ((h + 31) / 32)) := by
    rw [Nat.mul_left_comm, Nat.mul_comm ((h + 31) / 32)]
  rw [Nat.add_one_mul] at hrows
  unfold rawHalf
  omega

theorem half_lt {w x y n : ℕ} (h : rawHalf w x y < 32 * n) : half w x y < 32 * n := by
  unfold half flipped
  omega

section Flipped

variable {m y : ℕ}

theorem flipped_tiles (k m y : ℕ) : flipped (32 * k + m) y = 32 * k + flipped m y := by
  unfold flipped
  omega

theorem flipped_of_even (h : y / 8 % 2 = 0) : flipped m y = m := by
  unfold flipped
  omega

theorem flipped_of_odd (h : y / 8 % 2 = 1) (hm : m % 2 = 0) : flipped m y = m + 1 := by
  unfold flipped
  omega

end Flipped

section Words

variable {x y : Word}

/-- Exclusive or with bit 5. -/
theorem xor_bit_five (n : ℕ) {b : ℕ} (hb : b < 2) :
    n ^^^ (b * 32) = 64 * (n / 64) + 32 * ((n / 32 + b) % 2) + n % 32 := by
  have hhigh : (n ^^^ (b * 32)) / 2 ^ 6 = n / 2 ^ 6 := by
    rw [Nat.xor_div_two_pow, show b * 32 / 2 ^ 6 = 0 by omega, Nat.xor_zero]
  have hlow : (n ^^^ (b * 32)) % 2 ^ 5 = n % 2 ^ 5 := by
    rw [Nat.xor_mod_two_pow, show b * 32 % 2 ^ 5 = 0 by omega, Nat.xor_zero]
  have hbit : (n ^^^ (b * 32)) / 2 ^ 5 % 2 ^ 1 = (n / 2 ^ 5 % 2 ^ 1) ^^^ b := by
    rw [Nat.xor_div_two_pow, Nat.xor_mod_two_pow, show b * 32 / 2 ^ 5 % 2 ^ 1 = b by omega]
  have hflip : (n / 2 ^ 5 % 2 ^ 1) ^^^ b = (n / 2 ^ 5 + b) % 2 := by
    obtain rfl | rfl : b = 0 ∨ b = 1 := by omega
    · rw [Nat.xor_zero]; rfl
    · rcases Nat.mod_two_eq_zero_or_one (n / 2 ^ 5) with h | h
      · rw [show (2 : ℕ) ^ 1 = 2 from rfl, h, show (n / 2 ^ 5 + 1) % 2 = 1 by omega]; rfl
      · rw [show (2 : ℕ) ^ 1 = 2 from rfl, h, show (n / 2 ^ 5 + 1) % 2 = 0 by omega]; rfl
  omega

/-- The bit of the row that the exclusive or moves to bit 5. -/
theorem toNat_row_bit (y : Word) : ((y &&& 8) <<< 2).toNat = y.toNat / 8 % 2 * 32 := by
  have hand : (y &&& 8).toNat = y.toNat / 8 % 2 * 8 := by
    rw [BitVec.toNat_and, show (8 : Word).toNat = 2 ^ 3 from rfl, Nat.and_two_pow, Nat.toNat_testBit]
    rfl
  rw [toNat_shiftLeft (k := 4) rfl (by omega), hand]
  omega

end Words

section Index

variable {width x y : Word}

/-- The tiled index, where no product or sum overflows. -/
theorem toNat_tiledIndex (h : y.toNat / 32 * 32 * width.toNat + x.toNat / 32 * 1024 + 1024 ≤ 2 ^ 32) :
    (tiledIndex width x y).toNat = 32 * half width.toNat x.toNat y.toNat + place x.toNat y.toNat := by
  have hrow : ((y >>> 5) * 32 * width).toNat = y.toNat / 32 * 32 * width.toNat := by
    have hmul : ((y >>> 5) * 32).toNat = y.toNat / 32 * 32 := by
      rw [BitVec.toNat_mul, toNat_shiftRight (k := 32) rfl, show (32 : Word).toNat = 32 from rfl]
      have := y.isLt
      omega
    rw [BitVec.toNat_mul, hmul, Nat.mod_eq_of_lt (by omega)]
  have hcol : ((x >>> 5) <<< 10).toNat = x.toNat / 32 * 1024 := by
    have hshift : (x >>> 5).toNat = x.toNat / 32 := toNat_shiftRight rfl
    rw [toNat_shiftLeft (k := 1024) rfl (by omega), hshift]
  have hx : (x &&& 3).toNat = x.toNat % 4 := toNat_and_mask (n := 2) rfl (by decide)
  have hy : ((y &&& 1) <<< 2).toNat = y.toNat % 2 * 4 := by
    have hand : (y &&& 1).toNat = y.toNat % 2 := toNat_and_mask (n := 1) rfl (by decide)
    rw [toNat_shiftLeft (k := 4) rfl (by omega), hand]
  have hquad : (((x &&& 31) >>> 2) <<< 3).toNat = x.toNat % 32 / 4 * 8 := by
    have hand : (x &&& 31).toNat = x.toNat % 32 := toNat_and_mask (n := 5) rfl (by decide)
    have hshift : ((x &&& 31) >>> 2).toNat = x.toNat % 32 / 4 := by rw [toNat_shiftRight (k := 4) rfl, hand]
    rw [toNat_shiftLeft (k := 8) rfl (by omega), hshift]
  have hpair : (((y &&& 31) >>> 1) <<< 6).toNat = y.toNat % 32 / 2 * 64 := by
    have hand : (y &&& 31).toNat = y.toNat % 32 := toNat_and_mask (n := 5) rfl (by decide)
    have hshift : ((y &&& 31) >>> 1).toNat = y.toNat % 32 / 2 := by rw [toNat_shiftRight (k := 2) rfl, hand]
    rw [toNat_shiftLeft (k := 64) rfl (by omega), hshift]
  have hsum : ((y >>> 5) * (32 : Word) * width + ((x >>> 5) <<< 10) + (x &&& (3 : Word)) + ((y &&& 1) <<< 2)
      + (((x &&& 31) >>> 2) <<< 3) + (((y &&& 31) >>> 1) <<< 6)).toNat =
        32 * rawHalf width.toNat x.toNat y.toNat + place x.toNat y.toNat := by
    simp only [BitVec.toNat_add, hrow, hcol, hx, hy, hquad, hpair, Nat.mod_add_mod]
    rw [raw_eq, Nat.mod_eq_of_lt (by omega)]
  rw [tiledIndex, BitVec.toNat_xor, toNat_row_bit, xor_bit_five _ (Nat.mod_lt _ (by decide)), hsum, half, flipped]
  have := place_lt x.toNat y.toNat
  omega

end Index

/-! ## Pixels that share an index -/

/-- The least height at which two pixels of a display share an index, where the width is no multiple of 32. -/
def collisionHeight (w : ℕ) : ℕ :=
  if w % 32 = 7 ∨ w = 14 then 35
  else if w = 1 ∨ w = 8 then 65
  else if w = 3 ∨ w = 10 then 39
  else if w = 5 ∨ w = 12 then 37
  else 33

/-- The geometries whose pixels have indices of their own. -/
def Separate (w h : ℕ) : Prop := w % 32 = 0 ∨ h < collisionHeight w

instance (w h : ℕ) : Decidable (Separate w h) := inferInstanceAs (Decidable (_ ∨ _))

section Collisions

variable {w h x y x' y' k m : ℕ}

theorem flipped_lt (h : m < 32) : flipped m y < 32 := by
  unfold flipped
  omega

/-- The tile, and the place in it. -/
theorem half_tile (t : ℕ) (h : y / 32 * w + 32 * (x / 32) = 32 * t) :
    half w x y = 32 * t + flipped (2 * (y % 32 / 2) + x % 32 / 16) y := by
  have hraw : rawHalf w x y = 32 * t + (2 * (y % 32 / 2) + x % 32 / 16) := by
    unfold rawHalf
    omega
  rw [half, hraw, flipped_tiles]

theorem tile_injective {t t' : ℕ} (he : 32 * t + flipped (2 * (y % 32 / 2) + x % 32 / 16) y =
    32 * t' + flipped (2 * (y' % 32 / 2) + x' % 32 / 16) y') (hcol : x % 16 = x' % 16) (hrow : y % 2 = y' % 2) :
    t = t' ∧ x % 32 = x' % 32 ∧ y % 32 = y' % 32 := by
  have hin : flipped (2 * (y % 32 / 2) + x % 32 / 16) y < 32 := flipped_lt (by omega)
  have hin' : flipped (2 * (y' % 32 / 2) + x' % 32 / 16) y' < 32 := flipped_lt (by omega)
  have hplace : flipped (2 * (y % 32 / 2) + x % 32 / 16) y = flipped (2 * (y' % 32 / 2) + x' % 32 / 16) y' := by omega
  have hy : y % 32 = y' % 32 := by
    unfold flipped at hplace
    omega
  have hx : x % 32 = x' % 32 := by
    unfold flipped at hplace
    omega
  exact ⟨by omega, hx, hy⟩

/-- In whole tiles the index names the tile, then the place in it. -/
theorem half_injective_aligned (hx : x < 32 * k) (hx' : x' < 32 * k) (he : half (32 * k) x y = half (32 * k) x' y')
    (hcol : x % 16 = x' % 16) (hrow : y % 2 = y' % 2) : x = x' ∧ y = y' := by
  have htile : ∀ a b, b / 32 * (32 * k) + 32 * (a / 32) = 32 * (b / 32 * k + a / 32) := by
    intro a b
    rw [Nat.mul_left_comm, Nat.mul_add]
  rw [half_tile _ (htile x y), half_tile _ (htile x' y')] at he
  obtain ⟨ht, hxm, hym⟩ := tile_injective he hcol hrow
  have hlt : x / 32 < k ∧ x' / 32 < k := by omega
  have hq : x / 32 = x' / 32 := by
    have hmod := congrArg (· % k) ht
    simpa [Nat.mul_add_mod_self_right, Nat.mod_eq_of_lt hlt.1, Nat.mod_eq_of_lt hlt.2] using hmod
  have hr : y / 32 = y' / 32 := by
    rw [hq] at ht
    exact Nat.eq_of_mul_eq_mul_right (by omega) (Nat.add_right_cancel ht)
  omega

/-- So it does in the first row of tiles. -/
theorem half_injective_row (hy : y < 32) (hy' : y' < 32) (he : half w x y = half w x' y')
    (hcol : x % 16 = x' % 16) (hrow : y % 2 = y' % 2) : x = x' ∧ y = y' := by
  have htile : ∀ a b, b < 32 → b / 32 * w + 32 * (a / 32) = 32 * (a / 32) := by
    intro a b hb
    rw [Nat.div_eq_of_lt hb, Nat.zero_mul, Nat.zero_add]
  rw [half_tile _ (htile x y hy), half_tile _ (htile x' y' hy')] at he
  have hin := tile_injective he hcol hrow
  omega

/-- Rows 32 and 33 of a display whose last tile has seven columns. -/
theorem half_ne_seven (hw : w = 32 * k + 7) (hx' : x' < w) (hy : 32 ≤ y) (hy2 : y < 34) (hy' : y' < 32) :
    half w x y ≠ half w x' y' := by
  intro he
  have hsecond : half w x y = 32 * (k + x / 32) + (7 + x % 32 / 16) := by
    rw [half, flipped_of_even (by omega), rawHalf, show y / 32 = 1 by omega, Nat.one_mul, hw]
    omega
  have hfirst : half w x' y' = 32 * (x' / 32) + flipped (2 * (y' % 32 / 2) + x' % 32 / 16) y' :=
    half_tile _ (by rw [Nat.div_eq_of_lt hy', Nat.zero_mul, Nat.zero_add])
  have hlt : flipped (2 * (y' % 32 / 2) + x' % 32 / 16) y' < 32 := flipped_lt (by omega)
  -- The first pixel's index is that of a tile past the last whole one, where the second pixel has no column.
  have htile : x' / 32 = k + x / 32 := by omega
  have hplace : x' % 32 / 16 = 0 := by omega
  have hrow : y' / 8 = y' % 32 / 2 / 4 := by omega
  rw [hsecond, hfirst, htile, hplace, flipped, hrow] at he
  obtain hpair | hpair : y' % 32 / 2 = 3 ∨ y' % 32 / 2 = 4 := by omega
  · rw [hpair] at he
    omega
  · rw [hpair] at he
    omega

theorem half_injective_seven (hw : w = 32 * k + 7) (hx : x < w) (hx' : x' < w) (hy : y < 34) (hy' : y' < 34)
    (he : half w x y = half w x' y') (hcol : x % 16 = x' % 16) (hrow : y % 2 = y' % 2) : x = x' ∧ y = y' := by
  rcases Nat.lt_or_ge y 32 with hr | hr <;> rcases Nat.lt_or_ge y' 32 with hr' | hr'
  · exact half_injective_row hr hr' he hcol hrow
  · exact absurd he.symm (half_ne_seven hw hx hr' hy' hr)
  · exact absurd he (half_ne_seven hw hx' hr hy hr')
  · obtain rfl : y = y' := by omega
    have hd : y / 32 = 1 ∧ y % 32 / 2 = 0 ∧ y / 8 = 4 := by omega
    simp only [half, flipped, rawHalf, hd.1, hd.2.1, hd.2.2] at he
    omega

/-- Narrow displays, where the column is in the place alone. -/
theorem half_narrow (hx : x < 16) : half w x y = half w 0 y := by
  simp only [half, flipped, rawHalf]
  omega

theorem half_ne_narrow : ∀ e ∈ [(1, 64), (3, 38), (5, 36), (8, 64), (10, 38), (12, 36), (14, 34)],
    ∀ y < e.2, ∀ y' < y, half e.1 0 y' = half e.1 0 y → y' % 2 ≠ y % 2 := by
  decide +kernel

theorem half_injective (hs : Separate w h) (hx : x < w) (hx' : x' < w) (hy : y < h) (hy' : y' < h)
    (he : half w x y = half w x' y') (hcol : x % 16 = x' % 16) (hrow : y % 2 = y' % 2) : x = x' ∧ y = y' := by
  have hnarrow : ∀ b, (w, b) ∈ [(1, 64), (3, 38), (5, 36), (8, 64), (10, 38), (12, 36), (14, 34)] → w < 16 → h ≤ b →
      x = x' ∧ y = y' := by
    intro b hb hw hle
    rw [half_narrow (by omega), half_narrow (x := x') (by omega)] at he
    rcases Nat.lt_trichotomy y y' with hlt | heq | hlt
    · exact absurd hrow (half_ne_narrow _ hb y' (by omega) y hlt he)
    · exact ⟨by omega, heq⟩
    · exact absurd hrow.symm (half_ne_narrow _ hb y (by omega) y' hlt he.symm)
  rcases hs with hs | hs
  · obtain ⟨k, rfl⟩ : ∃ k, w = 32 * k := ⟨w / 32, by omega⟩
    exact half_injective_aligned hx hx' he hcol hrow
  · unfold collisionHeight at hs
    split_ifs at hs with h1 h2 h3 h4
    · rcases h1 with h1 | rfl
      · exact half_injective_seven (k := w / 32) (by omega) hx hx' (by omega) (by omega) he hcol hrow
      · exact hnarrow 34 (by decide) (by decide) (by omega)
    · rcases h2 with rfl | rfl
      · exact hnarrow 64 (by decide) (by decide) (by omega)
      · exact hnarrow 64 (by decide) (by decide) (by omega)
    · rcases h3 with rfl | rfl
      · exact hnarrow 38 (by decide) (by decide) (by omega)
      · exact hnarrow 38 (by decide) (by decide) (by omega)
    · rcases h4 with rfl | rfl
      · exact hnarrow 36 (by decide) (by decide) (by omega)
      · exact hnarrow 36 (by decide) (by decide) (by omega)
    · exact half_injective_row (by omega) (by omega) he hcol hrow

/-- Two pixels with one index. -/
def Collide (w h x y x' y' : ℕ) : Prop :=
  x < w ∧ y < h ∧ x' < w ∧ y' < h ∧ (x, y) ≠ (x', y') ∧ half w x y = half w x' y' ∧ place x y = place x' y'

/-- A pixel in the second row of tiles, with the pixel in the last tile of the first row that has its index. -/
theorem collide_last {c i j : ℕ} (hw : w = 32 * k + c) (hx : x < w) (hx2 : x < 32) (hy : 32 ≤ y)
    (hy2 : y < 64) (hyh : y < h) (hi : i < c) (hi2 : i < 32) (hj : j < 32) (hcol : x % 16 = i % 16)
    (hrow : y % 2 = j % 2) (he : flipped (c + 2 * (y % 32 / 2) + x / 16) y = flipped (2 * (j / 2) + i / 16) j) :
    Collide w h x y (32 * k + i) j := by
  have hraw : rawHalf w x y = 32 * k + (c + 2 * (y % 32 / 2) + x / 16) := by
    rw [rawHalf, show y / 32 = 1 by omega, Nat.one_mul]
    omega
  have hraw' : rawHalf w (32 * k + i) j = 32 * k + (2 * (j / 2) + i / 16) := by
    rw [rawHalf, show j / 32 = 0 by omega, Nat.zero_mul]
    omega
  have hhalf : half w x y = half w (32 * k + i) j := by
    rw [half, half, hraw, hraw', flipped_tiles, flipped_tiles, he]
  have hplace : place x y = place (32 * k + i) j := by
    unfold place
    omega
  exact ⟨hx, hyh, by omega, by omega, fun h => by simp only [Prod.mk.injEq] at h; omega, hhalf, hplace⟩

/-- So a pixel of row 32. -/
theorem collide_first {c i j : ℕ} (hw : w = 32 * k + c) (hx : x < w) (hx2 : x < 32) (hh : 32 < h) (hi : i < c)
    (hi2 : i < 32) (hj : j < 32) (hcol : x % 16 = i % 16) (hrow : j % 2 = 0)
    (he : c + x / 16 = flipped (j + i / 16) j) : ∃ x y x' y', Collide w h x y x' y' := by
  refine ⟨x, 32, _, j, collide_last hw hx hx2 (by decide) (by decide) hh hi hi2 hj hcol hrow.symm ?_⟩
  rw [flipped_of_even (y := 32) (by decide), show 2 * (j / 2) = j by omega]
  exact he

/-- Row 32 collides in every display of more than one column of tiles, unless its last tile has seven columns. -/
theorem exists_collision_wide (hc : w % 32 ≠ 0) (hc7 : w % 32 ≠ 7) (hw : 16 ≤ w ∨ w ∈ [2, 4, 6, 9, 11, 13, 15])
    (hh : 32 < h) : ∃ x y x' y', Collide w h x y x' y' := by
  have hsplit : w = 32 * (w / 32) + w % 32 := (Nat.div_add_mod w 32).symm
  generalize w % 32 = c at hc hc7 hsplit
  simp only [List.mem_cons, List.not_mem_nil, or_false] at hw
  rcases Nat.mod_two_eq_zero_or_one c with heven | hodd
  · rcases Nat.mod_two_eq_zero_or_one (c / 8) with hb | hb
    · exact collide_first (x := 0) (i := 0) (j := c) hsplit (by omega) (by omega) hh (by omega) (by omega) (by omega)
        rfl heven (flipped_of_even hb).symm
    · by_cases hc16 : 16 < c
      · refine collide_first (x := 0) (i := 16) (j := c) hsplit (by omega) (by omega) hh hc16 (by omega) (by omega)
          rfl heven ?_
        unfold flipped
        omega
      · exact collide_first (x := 16) (i := 0) (j := c) hsplit (by omega) (by omega) hh (by omega) (by omega)
          (by omega) rfl heven (flipped_of_odd hb heven).symm
  · rcases Nat.mod_two_eq_zero_or_one ((c - 1) / 8) with hb | hb
    · by_cases hc16 : 16 < c
      · refine collide_first (x := 0) (i := 16) (j := c - 1) hsplit (by omega) (by omega) hh hc16 (by omega)
          (by omega) rfl (by omega) ?_
        rw [flipped_of_even hb]
        omega
      · exact collide_first (x := 16) (i := 0) (j := c + 1) hsplit (by omega) (by omega) hh (by omega) (by omega)
          (by omega) rfl (by omega) (flipped_of_even (by omega)).symm
    · refine collide_first (x := 0) (i := 0) (j := c - 1) hsplit (by omega) (by omega) hh (by omega) (by omega)
        (by omega) rfl (by omega) ?_
      rw [Nat.zero_div, Nat.add_zero, flipped_of_odd hb (by omega)]
      omega

/-- Two rows of a narrow display. -/
theorem collide_rows (hw : 0 < w) (hy : y < h) (hy' : y' < y) (hrow : y % 2 = y' % 2) (he : half w 0 y = half w 0 y') :
    Collide w h 0 y 0 y' := by
  refine ⟨hw, hy, hw, hy'.trans hy, fun h => ?_, he, by rw [place, place, hrow]⟩
  exact hy'.ne' (congrArg Prod.snd h)

theorem exists_collision (hs : ¬ Separate w h) : ∃ x y x' y', Collide w h x y x' y' := by
  obtain ⟨hc, hh⟩ := not_or.mp hs
  rw [Nat.not_lt] at hh
  unfold collisionHeight at hh
  split_ifs at hh with h1 h2 h3 h4
  · rcases h1 with h1 | rfl
    · exact ⟨0, 34, _, 8, collide_last (k := w / 32) (c := 7) (i := 0) (by omega) (by omega) (by omega) (by omega)
        (by omega) (by omega) (by omega) (by omega) (by omega) rfl rfl (by decide)⟩
    · exact ⟨0, 34, 0, 16, collide_rows (by decide) (by omega) (by decide) rfl (by decide)⟩
  · rcases h2 with rfl | rfl
    · exact ⟨0, 64, 0, 2, collide_rows (by decide) (by omega) (by decide) rfl (by decide)⟩
    · exact ⟨0, 64, 0, 16, collide_rows (by decide) (by omega) (by decide) rfl (by decide)⟩
  · rcases h3 with rfl | rfl
    · exact ⟨0, 38, 0, 8, collide_rows (by decide) (by omega) (by decide) rfl (by decide)⟩
    · exact ⟨0, 38, 0, 16, collide_rows (by decide) (by omega) (by decide) rfl (by decide)⟩
  · rcases h4 with rfl | rfl
    · exact ⟨0, 36, 0, 8, collide_rows (by decide) (by omega) (by decide) rfl (by decide)⟩
    · exact ⟨0, 36, 0, 16, collide_rows (by decide) (by omega) (by decide) rfl (by decide)⟩
  · refine exists_collision_wide hc (by omega) ?_ (by omega)
    simp only [List.mem_cons, List.not_mem_nil, or_false]
    omega

end Collisions

end Osx360.Platform
