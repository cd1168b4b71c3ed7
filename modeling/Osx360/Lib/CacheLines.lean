import Mathlib.Data.List.Basic
import Mathlib.Data.Nat.Notation

/-!
# Cache lines

A memory in lines of `b` addresses with a cache in front of it: the CPU reads the cache, a device the memory. A line
that is written back takes its contents from the cache (`memory_foldl`). The lines of a range (`linesOf`) are those that
have an address of it, each once (`mem_linesOf`), and after all of them are written back the device reads on the range
what the CPU does (`memory_linesOf`).
-/

set_option autoImplicit false

namespace Osx360.Lib

universe u

variable {β : Type u} {a b l k p x : ℕ}

/-! ## The lines of a range -/

/-- The lines of the `l` addresses from `a` on, counted from the line of `a` up to the length rounded up. -/
def linesOf (b a l : ℕ) : List ℕ := if l = 0 then [] else List.range' (a / b) ((l + a % b + b - 1) / b)

/-- The line at an aligned address. -/
theorem div_eq_div_iff_of_aligned (hb : 0 < b) (hp : p % b = 0) : x / b = p / b ↔ p ≤ x ∧ x < p + b := by
  have hdiv : p / b * b = p := Nat.div_mul_cancel (Nat.dvd_of_mod_eq_zero hp)
  rw [Nat.div_eq_iff hb, hdiv]
  omega

theorem exists_div_eq_iff (hb : 0 < b) (hl : 0 < l) :
    (∃ x, a ≤ x ∧ x < a + l ∧ x / b = k) ↔ a / b ≤ k ∧ k * b < a + l := by
  constructor
  · rintro ⟨x, hax, hx, rfl⟩
    exact ⟨Nat.div_le_div_right hax, Nat.lt_of_le_of_lt (Nat.div_mul_le_self x b) hx⟩
  · rintro ⟨hak, hk⟩
    -- The first address of the range in the line: its own first one, or `a` in the line of `a`.
    rcases Nat.eq_or_lt_of_le hak with rfl | hlt
    · exact ⟨a, Nat.le_refl a, Nat.lt_add_of_pos_right hl, rfl⟩
    · exact ⟨k * b, Nat.le_of_lt ((Nat.div_lt_iff_lt_mul hb).mp hlt), hk, Nat.mul_div_cancel k hb⟩

/-- The length with the offset of its start, rounded up, ends behind the last line. -/
theorem lt_add_count_iff (hb : 0 < b) (hk : a / b ≤ k) :
    k < a / b + (l + a % b + b - 1) / b ↔ k * b < a + l := by
  obtain ⟨j, rfl⟩ := Nat.exists_eq_add_of_le hk
  have hdiv := Nat.div_add_mod' a b
  rw [Nat.add_lt_add_iff_left, Nat.lt_div_iff_mul_lt hb, Nat.add_mul]
  omega

/-- **The lines of a range** are those that have an address of it. -/
theorem mem_linesOf (hb : 0 < b) : k ∈ linesOf b a l ↔ ∃ x, a ≤ x ∧ x < a + l ∧ x / b = k := by
  unfold linesOf
  split
  · next hl =>
    refine ⟨fun h => absurd h List.not_mem_nil, ?_⟩
    rintro ⟨x, hax, hx, -⟩
    omega
  · next hl =>
    rw [List.mem_range'_1, exists_div_eq_iff hb (Nat.pos_of_ne_zero hl)]
    exact and_congr_right fun hk => lt_add_count_iff hb hk

theorem nodup_linesOf (b a l : ℕ) : (linesOf b a l).Nodup := by
  unfold linesOf
  split
  · exact List.nodup_nil
  · exact List.nodup_range'

/-! ## The memory behind a cache -/

/-- What the CPU reads and what a device reads. -/
structure CachedMemory (β : Type u) where
  cache : ℕ → β
  memory : ℕ → β

/-- Line `k` is written back. -/
def writeBack (b : ℕ) (m : CachedMemory β) (k : ℕ) : CachedMemory β :=
  { m with memory := fun x => if x / b = k then m.cache x else m.memory x }

@[simp] theorem writeBack_cache (b : ℕ) (m : CachedMemory β) (k : ℕ) : (writeBack b m k).cache = m.cache := rfl

/-- The lines that are written back, and no other, are as the CPU reads them. -/
theorem memory_foldl (b : ℕ) (m : CachedMemory β) (ks : List ℕ) (x : ℕ) :
    (ks.foldl (writeBack b) m).memory x = if x / b ∈ ks then m.cache x else m.memory x := by
  induction ks generalizing m with
  | nil => simp
  | cons k ks ih =>
    rw [List.foldl_cons, ih, writeBack_cache]
    by_cases hk : x / b = k
    · simp [writeBack, hk]
    · simp [writeBack, hk]

/-- **A range that is written back**: the device reads what the CPU does. -/
theorem memory_linesOf (hb : 0 < b) (m : CachedMemory β) (hax : a ≤ x) (hx : x < a + l) :
    ((linesOf b a l).foldl (writeBack b) m).memory x = m.cache x := by
  rw [memory_foldl, if_pos ((mem_linesOf hb).mpr ⟨x, hax, hx, rfl⟩)]

end Osx360.Lib
