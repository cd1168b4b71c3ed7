import Mathlib.Data.Fin.Basic
import Mathlib.Algebra.BigOperators.Group.List.Basic
import Mathlib.Algebra.GroupWithZero.Nat

/-!
# Ring positions and layouts

A ring of `n` slots is addressed by counters that never wrap: counter `k` names the slot `slot n k`, and the counters
of a window shorter than the ring name distinct slots (`slot_inj`). Consecutive items of given sizes laid out from a
counter are described by `Layout`.

- one step of the index is one step of the counter (`slot_succ`), and the wrapped difference of two indices is the
  difference of their counters (`slot_sub_val`);
- a ring written in order holds what was written and not yet read, as long as no more than a round is unread
  (`Holds.write`, `Holds.read`);
- layouts split and join at appends (`layout_append`), transfer when the items' own positions do (`Layout.mono`) and
  move to another counter (`Layout.shift`).
-/

set_option autoImplicit false

namespace Osx360.Lib

/-! ## Slots -/

section Slots

variable {n : ℕ} [NeZero n]

/-- The slot that counter `k` names. -/
def slot (n : ℕ) [NeZero n] (k : ℕ) : Fin n := Fin.ofNat n k

@[simp] theorem slot_val (k : ℕ) : (slot n k).val = k % n := rfl

theorem slot_succ (k : ℕ) : slot n k + 1 = slot n (k + 1) := by
  apply Fin.ext
  have h1 : (1 : Fin n).val = 1 % n := rfl
  rw [Fin.val_add, slot_val, slot_val, h1, Nat.add_mod_mod, Nat.mod_add_mod]

@[simp] theorem slot_add_self (k : ℕ) : slot n (k + n) = slot n k := by
  apply Fin.ext
  rw [slot_val, slot_val, Nat.add_mod_right]

/-- Whole turns of the ring change no slot. -/
theorem slot_add_mul (k m : ℕ) : slot n (k + n * m) = slot n k := by
  apply Fin.ext
  rw [slot_val, slot_val, Nat.add_mul_mod_self_left]

/-- An index is the slot of its own value. -/
theorem slot_val_self (i : Fin n) : slot n i.val = i := by
  apply Fin.ext
  rw [slot_val, Nat.mod_eq_of_lt i.isLt]

/-- Counters of one window name distinct slots. -/
theorem slot_inj {j k : ℕ} (hjk : j ≤ k) (hk : k < j + n) (h : slot n j = slot n k) : j = k := by
  have hv : j % n = k % n := congrArg Fin.val h
  have hd : (k - j) % n = 0 := Nat.sub_mod_eq_zero_of_mod_eq hv.symm
  rw [Nat.mod_eq_of_lt (by omega)] at hd
  omega

theorem slot_ne {j k : ℕ} (hjk : j < k) (hk : k < j + n) : slot n j ≠ slot n k :=
  fun h => absurd (slot_inj hjk.le hk h) hjk.ne

theorem slot_ne_of_window {a j k : ℕ} (hj : a ≤ j ∧ j < a + n) (hk : a ≤ k ∧ k < a + n) (hne : j ≠ k) :
    slot n j ≠ slot n k := by
  rcases Nat.lt_or_gt_of_ne hne with hlt | hgt
  · exact slot_ne hlt (by omega)
  · exact (slot_ne hgt (by omega)).symm

/-- The wrapped difference of two indices of a window. -/
theorem slot_sub_val {r w : ℕ} (hr : r ≤ w) (hw : w < r + n) : (slot n w - slot n r).val = w - r := by
  obtain ⟨d, rfl⟩ := Nat.exists_eq_add_of_le hr
  have hn : 0 < n := Nat.pos_of_ne_zero (NeZero.ne n)
  have hlt : r % n < n := Nat.mod_lt _ hn
  rw [Fin.val_sub, slot_val, slot_val, Nat.add_mod_mod, Nat.add_sub_cancel_left]
  have he : n - r % n + (r + d) = d + n * (r / n + 1) := by
    have hdiv := Nat.div_add_mod r n
    have h2 : n * (r / n + 1) = n * (r / n) + n := Nat.mul_succ _ _
    omega
  rw [he, Nat.add_mul_mod_self_left, Nat.mod_eq_of_lt (by omega)]

/-- Every slot is named by a counter of any full window. -/
theorem exists_slot (a : ℕ) (i : Fin n) : ∃ k, a ≤ k ∧ k < a + n ∧ slot n k = i := by
  have hn : 0 < n := Nat.pos_of_ne_zero (NeZero.ne n)
  refine ⟨a + (n - a % n + i.val) % n, by omega, ?_, ?_⟩
  · have hlt := Nat.mod_lt (n - a % n + i.val) hn
    omega
  · apply Fin.ext
    have hlt : a % n < n := Nat.mod_lt _ hn
    have he : a + (n - a % n + i.val) = i.val + n * (a / n + 1) := by
      have hdiv := Nat.div_add_mod a n
      have h2 : n * (a / n + 1) = n * (a / n) + n := Nat.mul_succ _ _
      omega
    rw [slot_val, Nat.add_mod_mod, he, Nat.add_mul_mod_self_left, Nat.mod_eq_of_lt i.isLt]

end Slots

/-! ## Contents -/

section Contents

variable {α : Type*} {n : ℕ} {cells : ℕ → α} {log : List α} {r : ℕ}

theorem mod_ne {j k : ℕ} (hjk : j < k) (hk : k < j + n) : j % n ≠ k % n := by
  have : NeZero n := ⟨by omega⟩
  exact fun h => slot_ne hjk hk (Fin.ext h)

/-- Of the items written in order, item `k` to the cell `k % n`, the cells hold those from `r` on. -/
def Holds (n : ℕ) (cells : ℕ → α) (log : List α) (r : ℕ) : Prop :=
  ∀ k (h : k < log.length), r ≤ k → cells (k % n) = log[k]

theorem holds_nil : Holds n cells [] r := fun _ h => absurd h (Nat.not_lt_zero _)

/-- Writing the next item loses none, if there is room. -/
theorem Holds.write (h : Holds n cells log r) (hroom : log.length < r + n) (x : α) :
    Holds n (Function.update cells (log.length % n) x) (log ++ [x]) r := by
  intro k hk hread
  rw [List.length_append, List.length_singleton] at hk
  by_cases hlast : k = log.length
  · subst hlast
    simp
  · rw [Function.update_of_ne (mod_ne (by omega) (by omega)), List.getElem_append_left (by omega)]
    exact h k (by omega) hread

theorem Holds.read (h : Holds n cells log r) : Holds n cells log (r + 1) := fun k hk hle => h k hk (by omega)

end Contents

/-! ## Layouts -/

section Layouts

variable {χ : Type*} {size : χ → ℕ}

/-- The number of positions that the items take. -/
def span (size : χ → ℕ) (cs : List χ) : ℕ := (cs.map size).sum

@[simp] theorem span_nil : span size [] = 0 := rfl

@[simp] theorem span_cons (c : χ) (cs : List χ) : span size (c :: cs) = size c + span size cs := by
  simp [span]

@[simp] theorem span_append (cs ds : List χ) : span size (cs ++ ds) = span size cs + span size ds := by
  simp [span]

/-- The items, one after another from counter `k`, each have `P` at the counter where they start. -/
def Layout (size : χ → ℕ) (P : ℕ → χ → Prop) : ℕ → List χ → Prop
  | _, [] => True
  | k, c :: cs => P k c ∧ Layout size P (k + size c) cs

variable {P Q : ℕ → χ → Prop}

@[simp] theorem layout_nil (k : ℕ) : Layout size P k [] := trivial

theorem layout_cons {k : ℕ} {c : χ} {cs : List χ} :
    Layout size P k (c :: cs) ↔ P k c ∧ Layout size P (k + size c) cs := Iff.rfl

theorem layout_append {k : ℕ} {cs ds : List χ} :
    Layout size P k (cs ++ ds) ↔ Layout size P k cs ∧ Layout size P (k + span size cs) ds := by
  induction cs generalizing k with
  | nil => simp
  | cons c cs ih => rw [List.cons_append, layout_cons, layout_cons, ih, span_cons, and_assoc, Nat.add_assoc]

/-- A layout transfers to a predicate implied at each item's own positions. -/
theorem Layout.mono {k : ℕ} {cs : List χ} (h : Layout size P k cs)
    (hPQ : ∀ j c, c ∈ cs → k ≤ j → j + size c ≤ k + span size cs → P j c → Q j c) : Layout size Q k cs := by
  induction cs generalizing k with
  | nil => trivial
  | cons c cs ih =>
    refine ⟨hPQ k c List.mem_cons_self (Nat.le_refl k) (by simp) h.1, ih h.2 fun j d hd hj hle => ?_⟩
    refine hPQ j d (List.mem_cons_of_mem _ hd) (by omega) ?_
    rw [span_cons]; omega

/-- A layout from another counter. -/
theorem Layout.shift {k d : ℕ} {cs : List χ} (h : Layout size P (k + d) cs) (hPQ : ∀ j c, P (j + d) c → Q j c) :
    Layout size Q k cs := by
  induction cs generalizing k with
  | nil => trivial
  | cons c cs ih =>
    refine ⟨hPQ k c h.1, ih ?_⟩
    rw [Nat.add_right_comm]
    exact h.2

/-- The counters at which the items start. -/
def starts (size : χ → ℕ) : ℕ → List χ → List ℕ
  | _, [] => []
  | k, c :: cs => k :: starts size (k + size c) cs

theorem starts_append {k : ℕ} {cs ds : List χ} :
    starts size k (cs ++ ds) = starts size k cs ++ starts size (k + span size cs) ds := by
  induction cs generalizing k with
  | nil => simp [starts]
  | cons c cs ih => simp [starts, ih, Nat.add_assoc]

end Layouts

end Osx360.Lib
