import Mathlib.Data.List.Count
import Mathlib.Data.List.Nodup
import Mathlib.Logic.Function.Basic

/-!
# Items in slots

A component holds one item in each of its slots, obtains new items and gives items away. `Ledger held given obtained`
says that every item obtained is in one slot or was given away once (`Ledger.one_place`). It is kept when a new item is
given away (`Ledger.give`), and when the item of a slot is given away and a new one takes its place
(`Ledger.exchange`).
-/

set_option autoImplicit false

namespace Osx360.Lib

variable {ι α : Type*}

/-- A new value at one place keeps the values distinct. -/
theorem injective_update [DecidableEq ι] {f : ι → α} {a : α} (hf : Function.Injective f) (ha : ∀ i, f i ≠ a) (i : ι) :
    Function.Injective (Function.update f i a) := by
  intro j k hjk
  by_cases hj : j = i <;> by_cases hk : k = i
  · rw [hj, hk]
  · rw [hj, Function.update_self, Function.update_of_ne hk] at hjk
    exact absurd hjk.symm (ha k)
  · rw [hk, Function.update_self, Function.update_of_ne hj] at hjk
    exact absurd hjk (ha j)
  · rw [Function.update_of_ne hj, Function.update_of_ne hk] at hjk
    exact hf hjk

structure Ledger (held : ι → α) (given obtained : List α) : Prop where
  distinct : Function.Injective held
  once : given.Nodup
  apart : ∀ i, held i ∉ given
  all : ∀ a, a ∈ obtained ↔ (∃ i, held i = a) ∨ a ∈ given

namespace Ledger

variable {held : ι → α} {given obtained : List α} {a : α}

/-- A new item is in no slot. -/
theorem ne_of_fresh (h : Ledger held given obtained) (ha : a ∉ obtained) (i : ι) : held i ≠ a :=
  fun he => ha ((h.all a).mpr (Or.inl ⟨i, he⟩))

theorem not_given_of_fresh (h : Ledger held given obtained) (ha : a ∉ obtained) : a ∉ given :=
  fun hg => ha ((h.all a).mpr (Or.inr hg))

theorem give (h : Ledger held given obtained) (ha : a ∉ obtained) :
    Ledger held (given ++ [a]) (obtained ++ [a]) := by
  refine ⟨h.distinct, ?_, ?_, ?_⟩
  · exact List.Nodup.append h.once (List.nodup_singleton a) (List.disjoint_singleton.mpr (h.not_given_of_fresh ha))
  · intro i hi
    rcases List.mem_append.mp hi with hi | hi
    · exact h.apart i hi
    · exact h.ne_of_fresh ha i (List.mem_singleton.mp hi)
  · intro b
    simp only [List.mem_append, h.all, or_assoc]

theorem exchange [DecidableEq ι] (h : Ledger held given obtained) (ha : a ∉ obtained) (i : ι) :
    Ledger (Function.update held i a) (given ++ [held i]) (obtained ++ [a]) := by
  refine ⟨injective_update h.distinct (h.ne_of_fresh ha) i, ?_, ?_, ?_⟩
  · exact List.Nodup.append h.once (List.nodup_singleton _) (List.disjoint_singleton.mpr (h.apart i))
  · intro j hj
    by_cases he : j = i
    · rw [he, Function.update_self] at hj
      rcases List.mem_append.mp hj with hj | hj
      · exact h.not_given_of_fresh ha hj
      · exact h.ne_of_fresh ha i (List.mem_singleton.mp hj).symm
    · rw [Function.update_of_ne he] at hj
      rcases List.mem_append.mp hj with hj | hj
      · exact h.apart j hj
      · exact he (h.distinct (List.mem_singleton.mp hj))
  · intro b
    simp only [List.mem_append, List.mem_singleton, h.all]
    constructor
    · rintro ((⟨j, rfl⟩ | hb) | rfl)
      · by_cases he : j = i
        · exact Or.inr (Or.inr (by rw [he]))
        · exact Or.inl ⟨j, Function.update_of_ne he _ _⟩
      · exact Or.inr (Or.inl hb)
      · exact Or.inl ⟨i, Function.update_self _ _ _⟩
    · rintro (⟨j, rfl⟩ | hb | rfl)
      · by_cases he : j = i
        · exact Or.inr (by rw [he, Function.update_self])
        · exact Or.inl (Or.inl ⟨j, (Function.update_of_ne he _ _).symm⟩)
      · exact Or.inl (Or.inr hb)
      · exact Or.inl (Or.inl ⟨i, rfl⟩)

/-- Every item obtained is in one slot and not given away, or in no slot and given away once. -/
theorem one_place [DecidableEq α] (h : Ledger held given obtained) (ha : a ∈ obtained) :
    ((∃! i, held i = a) ∧ given.count a = 0) ∨ ((∀ i, held i ≠ a) ∧ given.count a = 1) := by
  rcases (h.all a).mp ha with ⟨i, rfl⟩ | hg
  · exact Or.inl ⟨⟨i, rfl, fun j hj => h.distinct hj⟩, List.count_eq_zero.mpr (h.apart i)⟩
  · refine Or.inr ⟨fun i hi => ?_, List.count_eq_one_of_mem h.once hg⟩
    exact h.apart i (hi ▸ hg)

end Ledger

end Osx360.Lib
