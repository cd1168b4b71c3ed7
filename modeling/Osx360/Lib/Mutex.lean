import Mathlib.Data.Nat.Notation

/-!
# Mutual exclusion

A lock that is taken exactly while one party, and no other, is in its critical section. What a party does keeps this
when the parties in the section stay the same (`Exclusive.congr`), when one enters that found the lock free
(`Exclusive.acquire`), and when the one inside leaves (`Exclusive.release`).
-/

set_option autoImplicit false

namespace Osx360.Lib

universe u

variable {ι : Type u} {locked : Bool} {crit crit' : ι → Prop} {c : ι}

structure Exclusive (locked : Bool) (crit : ι → Prop) : Prop where
  held : locked = true ↔ ∃ c, crit c
  unique : ∀ c d, crit c → crit d → c = d

theorem Exclusive.locked_of (h : Exclusive locked crit) (hc : crit c) : locked = true := h.held.mpr ⟨c, hc⟩

theorem Exclusive.congr (h : Exclusive locked crit) (hnew : ∀ d, crit' d ↔ crit d) : Exclusive locked crit' := by
  have hcrit : crit' = crit := funext fun d => propext (hnew d)
  rw [hcrit]
  exact h

theorem Exclusive.acquire (h : Exclusive false crit) (hc : crit' c) (hnew : ∀ d, d ≠ c → (crit' d ↔ crit d)) :
    Exclusive true crit' := by
  have hfree : ∀ d, ¬ crit d := fun d hd => Bool.noConfusion (h.locked_of hd)
  have honly : ∀ d, crit' d → d = c := fun d hd => Classical.byContradiction fun hne => hfree d ((hnew d hne).mp hd)
  exact ⟨⟨fun _ => ⟨c, hc⟩, fun _ => rfl⟩, fun d e hd he => (honly d hd).trans (honly e he).symm⟩

theorem Exclusive.release (h : Exclusive locked crit) (hc : crit c) (hout : ¬ crit' c)
    (hnew : ∀ d, d ≠ c → (crit' d ↔ crit d)) : Exclusive false crit' := by
  have hnone : ∀ d, ¬ crit' d := by
    intro d hd
    by_cases hdc : d = c
    · exact hout (hdc ▸ hd)
    · exact hdc (h.unique d c ((hnew d hdc).mp hd) hc)
  exact ⟨⟨Bool.noConfusion, fun ⟨d, hd⟩ => absurd hd (hnone d)⟩, fun d _ hd => absurd hd (hnone d)⟩

end Osx360.Lib
