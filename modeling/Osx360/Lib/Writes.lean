import Mathlib.Algebra.GroupWithZero.Nat
import Mathlib.Data.Int.Notation
import Mathlib.Data.List.Basic
import Mathlib.Logic.Function.Basic

/-!
# Writes to a memory

A memory is a function from addresses to values, and a program that stores is a list of writes, oldest first.

- frame: an address that no write is to keeps its value (`applyWrites_of_not_mem`);
- agreement: an address whose writes all carry the same value holds it (`applyWrites_of_agree`);
- blocks: consecutive words, in an address space that may wrap (`applyWrites_block`, `applyWrites_block_frame`);
- lines: consecutive cells of an unbounded memory, from a function of the index (`line_covers`).
-/

set_option autoImplicit false

namespace Osx360.Lib

universe u v

variable {ι : Type u} {α : Type v} [DecidableEq ι]

/-- The memory after the writes. -/
def applyWrites (m : ι → α) (ws : List (ι × α)) : ι → α := ws.foldl (fun m e => Function.update m e.1 e.2) m

section Writes

variable {m : ι → α} {ws : List (ι × α)} {e : ι × α} {a : ι} {x : α}

@[simp] theorem applyWrites_nil : applyWrites m [] = m := rfl

@[simp] theorem applyWrites_cons : applyWrites m (e :: ws) = applyWrites (Function.update m e.1 e.2) ws := rfl

/-- **Frame.** -/
theorem applyWrites_of_not_mem (h : ∀ e ∈ ws, e.1 ≠ a) : applyWrites m ws a = m a := by
  induction ws generalizing m with
  | nil => rfl
  | cons e ws ih =>
    rw [List.forall_mem_cons] at h
    rw [applyWrites_cons, ih h.2, Function.update_of_ne h.1.symm]

/-- **Agreement.** The address holds the value before, or is written. -/
theorem applyWrites_of_agree (hall : ∀ e ∈ ws, e.1 = a → e.2 = x) (hone : m a = x ∨ ∃ e ∈ ws, e.1 = a) :
    applyWrites m ws a = x := by
  induction ws generalizing m with
  | nil => simpa using hone
  | cons e ws ih =>
    rw [List.forall_mem_cons] at hall
    rw [applyWrites_cons]
    refine ih hall.2 ?_
    by_cases he : e.1 = a
    · subst he
      exact Or.inl (by rw [Function.update_self, hall.1 rfl])
    · rw [Function.update_of_ne (Ne.symm he)]
      simpa [he] using hone

theorem applyWrites_of_mem (hmem : (a, x) ∈ ws) (hall : ∀ e ∈ ws, e.1 = a → e.2 = x) : applyWrites m ws a = x :=
  applyWrites_of_agree hall (Or.inr ⟨_, hmem, rfl⟩)

/-- An address keeps its value or holds one that was written to it. -/
theorem applyWrites_eq_or : applyWrites m ws a = m a ∨ (a, applyWrites m ws a) ∈ ws := by
  induction ws generalizing m with
  | nil => exact Or.inl rfl
  | cons e ws ih =>
    rw [applyWrites_cons]
    rcases ih (m := Function.update m e.1 e.2) with h | h
    · by_cases he : a = e.1
      · subst he
        rw [h, Function.update_self]
        exact Or.inr List.mem_cons_self
      · exact Or.inl (h.trans (Function.update_of_ne he _ _))
    · exact Or.inr (List.mem_cons_of_mem _ h)

end Writes

/-! ## Blocks -/

section Blocks

variable {n : ℕ} {m : BitVec n → α} {a b : BitVec n} {ws : List α}

/-- Writes to consecutive addresses. -/
def block (a : BitVec n) : List α → List (BitVec n × α)
  | [] => []
  | w :: ws => (a, w) :: block (a + 1) ws

theorem add_one_add_ofNat (a : BitVec n) (i : ℕ) : a + 1 + BitVec.ofNat n i = a + BitVec.ofNat n (i + 1) := by
  rw [BitVec.add_assoc, BitVec.add_comm 1, BitVec.ofNat_add]
  rfl

theorem add_ofNat_inj {i j : ℕ} (hi : i < 2 ^ n) (hj : j < 2 ^ n) (h : a + BitVec.ofNat n i = a + BitVec.ofNat n j) :
    i = j := by
  have heq := congrArg BitVec.toNat ((BitVec.add_right_inj a).mp h)
  rwa [BitVec.toNat_ofNat, BitVec.toNat_ofNat, Nat.mod_eq_of_lt hi, Nat.mod_eq_of_lt hj] at heq

theorem mem_block {e : BitVec n × α} (h : e ∈ block a ws) : e.2 ∈ ws ∧ ∃ i < ws.length, e.1 = a + BitVec.ofNat n i := by
  induction ws generalizing a with
  | nil => cases h
  | cons w ws ih =>
    rcases List.mem_cons.mp h with rfl | h
    · exact ⟨List.mem_cons_self, 0, Nat.zero_lt_succ _, by simp⟩
    · obtain ⟨hw, i, hi, he⟩ := ih h
      exact ⟨List.mem_cons_of_mem _ hw, i + 1, Nat.succ_lt_succ hi, he.trans (add_one_add_ofNat a i)⟩

theorem applyWrites_block_frame (h : ∀ i < ws.length, b ≠ a + BitVec.ofNat n i) :
    applyWrites m (block a ws) b = m b := by
  refine applyWrites_of_not_mem fun e he heq => ?_
  obtain ⟨_, i, hi, hei⟩ := mem_block he
  exact h i hi (heq.symm.trans hei)

theorem applyWrites_block {i : ℕ} (hi : i < ws.length) (hn : ws.length ≤ 2 ^ n) :
    applyWrites m (block a ws) (a + BitVec.ofNat n i) = ws[i] := by
  induction ws generalizing a i m with
  | nil => cases hi
  | cons w ws ih =>
    rw [List.length_cons] at hi hn
    rw [block, applyWrites_cons]
    cases i with
    | zero =>
      have hfirst : a + BitVec.ofNat n 0 = a := by simp
      rw [hfirst, applyWrites_block_frame fun j hj he => ?_]
      · exact Function.update_self _ _ _
      · rw [add_one_add_ofNat] at he
        have := add_ofNat_inj (i := 0) (by omega) (by omega) (hfirst.trans he)
        omega
    | succ i =>
      rw [← add_one_add_ofNat]
      exact ih (by omega) (by omega)

end Blocks

/-! ## Lines -/

section Lines

variable {a i : ℤ} {n : ℕ} {f : ℕ → α}

/-- Writes to the cells from `a` on, in order. -/
def line (a : ℤ) (n : ℕ) (f : ℕ → α) : List (ℤ × α) := (List.range n).map fun k : ℕ => (a + k, f k)

@[simp] theorem line_zero : line a 0 f = [] := rfl

theorem line_succ : line a (n + 1) f = line a n f ++ [(a + n, f n)] := by simp [line, List.range_succ]

theorem mem_line {e : ℤ × α} : e ∈ line a n f ↔ ∃ k < n, (a + k, f k) = e := by simp [line]

/-- A line covers its cells. -/
theorem line_covers : (∃ x, (i, x) ∈ line a n f) ↔ a ≤ i ∧ i < a + n := by
  constructor
  · rintro ⟨x, hx⟩
    obtain ⟨k, hk, he⟩ := mem_line.mp hx
    have hi : a + k = i := congrArg Prod.fst he
    omega
  · rintro ⟨hlo, hhi⟩
    exact ⟨f (i - a).toNat, mem_line.mpr ⟨(i - a).toNat, by omega, by rw [show a + ((i - a).toNat : ℤ) = i by omega]⟩⟩

end Lines

end Osx360.Lib
