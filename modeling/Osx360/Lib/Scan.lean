import Mathlib.Data.List.Basic

/-!
# Scans of a list

- the first match: a test that lets more through than another finds the same item exactly when what else it lets
  through comes after an item of the other's (`shielded_iff`, `find?_eq_find?`);
- the last match: a loop that keeps the newest match (`foldl_last`, `foldl_none`).
-/

set_option autoImplicit false

namespace Osx360.Lib

universe u

variable {α : Type u} {p q : α → Bool} {xs : List α} {x d : α}

/-! ## The first match -/

/-- What `p` lets through and `q` does not has an item before it that `q` lets through. -/
def Shielded (p q : α → Bool) (xs : List α) : Prop :=
  ∀ ys x zs, xs = ys ++ x :: zs → p x = true → q x = false → ∃ y ∈ ys, q y = true

/-- If what `p` finds has `q`, then `q` finds the same. -/
theorem find?_eq_find? (hqp : ∀ x, q x = true → p x = true) (h : ∀ x, xs.find? p = some x → q x = true) :
    xs.find? p = xs.find? q := by
  cases hx : xs.find? p with
  | none =>
    refine (List.find?_eq_none.mpr fun x hmem hqx => ?_).symm
    exact List.find?_eq_none.mp hx x hmem (hqp x hqx)
  | some x =>
    obtain ⟨-, ys, zs, rfl, hys⟩ := List.find?_eq_some_iff_append.mp hx
    refine (List.find?_eq_some_iff_append.mpr ⟨h x hx, ys, zs, rfl, fun y hy => ?_⟩).symm
    have hpy := hys y hy
    cases hqy : q y with
    | false => rfl
    | true => rw [hqp y hqy] at hpy; cases hpy

/-- **What `p` finds has `q`.** -/
theorem shielded_iff (hqp : ∀ x, q x = true → p x = true) :
    Shielded p q xs ↔ ∀ x, xs.find? p = some x → q x = true := by
  constructor
  · intro h x hx
    obtain ⟨hpx, ys, zs, rfl, hys⟩ := List.find?_eq_some_iff_append.mp hx
    by_contra hqx
    obtain ⟨y, hy, hqy⟩ := h ys x zs rfl hpx (Bool.not_eq_true _ ▸ hqx)
    have hpy := hys y hy
    rw [hqp y hqy] at hpy
    cases hpy
  · rintro h ys x zs rfl hpx hqx
    by_cases hys : ∃ y ∈ ys, p y = true
    · -- the item found is in `ys`
      obtain ⟨y, hy⟩ := Option.isSome_iff_exists.mp (List.find?_isSome.mpr hys)
      exact ⟨y, List.mem_of_find?_eq_some hy, h y (by rw [List.find?_append, hy, Option.some_or])⟩
    · have hnone : ys.find? p = none := List.find?_eq_none.mpr fun y hy hpy => hys ⟨y, hy, hpy⟩
      have hqx' := h x (by rw [List.find?_append, hnone, Option.none_or, List.find?_cons_of_pos hpx])
      rw [hqx] at hqx'
      cases hqx'

/-! ## The last match -/

section Last

variable {r : α → Prop}

def IsLast (r : α → Prop) (xs : List α) (x : α) : Prop := ∃ ys zs, xs = ys ++ x :: zs ∧ r x ∧ ∀ z ∈ zs, ¬ r z

theorem IsLast.mem (h : IsLast r xs x) : x ∈ xs := by
  obtain ⟨ys, zs, rfl, -⟩ := h
  simp

theorem IsLast.holds (h : IsLast r xs x) : r x := by
  obtain ⟨_, _, _, hx, _⟩ := h
  exact hx

theorem exists_isLast : (∃ x, IsLast r xs x) ↔ ∃ x ∈ xs, r x := by
  constructor
  · rintro ⟨x, hx⟩
    exact ⟨x, hx.mem, hx.holds⟩
  · intro h
    induction xs with
    | nil => simp at h
    | cons x xs ih =>
      by_cases hlater : ∃ y ∈ xs, r y
      · obtain ⟨y, ys, zs, rfl, hy⟩ := ih hlater
        exact ⟨y, x :: ys, zs, rfl, hy⟩
      · obtain ⟨y, hy, hry⟩ := h
        rcases List.mem_cons.mp hy with rfl | hy
        · exact ⟨y, [], xs, rfl, hry, fun z hz hrz => hlater ⟨z, hz, hrz⟩⟩
        · exact absurd ⟨y, hy, hry⟩ hlater

variable [DecidablePred r]

theorem foldl_none (h : ∀ x ∈ xs, ¬ r x) : xs.foldl (fun l x => if r x then x else l) d = d := by
  induction xs with
  | nil => rfl
  | cons x xs ih =>
    rw [List.forall_mem_cons] at h
    rw [List.foldl_cons, if_neg h.1]
    exact ih h.2

theorem foldl_last (h : IsLast r xs x) : xs.foldl (fun l x => if r x then x else l) d = x := by
  obtain ⟨ys, zs, rfl, hx, hzs⟩ := h
  rw [List.foldl_append, List.foldl_cons, if_pos hx]
  exact foldl_none hzs

end Last

end Osx360.Lib
