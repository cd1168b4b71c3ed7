import Mathlib.Data.Nat.Notation
import Mathlib.Logic.Function.Iterate

/-!
# Loops

- unrolling: rounds of `k` steps at once and the rest one by one (`iterate_unrolled`);
- polling: a loop that polls before it tests its counter, until a bit is seen clear or the counter is 0. Its verdict is
  taken from the counter, and so it is wrong exactly where the bit clears at the last poll (`countdown_verdict`).
-/

set_option autoImplicit false

namespace Osx360.Lib

universe u

variable {σ : Type u}

/-- `n` steps, taken `k` at a time and the rest one at a time. -/
theorem iterate_unrolled (f : σ → σ) (k n : ℕ) (s : σ) : f^[n % k] ((f^[k])^[n / k] s) = f^[n] s := by
  rw [← Function.iterate_mul, ← Function.iterate_add_apply, Nat.mod_add_div]

/-! ## Polling -/

section Poll

/-- Polls until the bit is seen clear or the counter is 0; a poll tells whether the bit is set, or fails. The counter is
given as it is after its first decrement. -/
def countdown (poll : σ → Option Bool × σ) : ℕ → σ → Option ℕ × σ
  | 0, s => ((poll s).1.map fun _ => 0, (poll s).2)
  | n + 1, s =>
    match (poll s).1 with
    | none => (none, (poll s).2)
    | some false => (some (n + 1), (poll s).2)
    | some true => countdown poll n (poll s).2

/-- The verdict of a loop that ended with its counter. -/
def inTime : Option ℕ → Bool
  | none => false
  | some timeout => timeout != 0

/-- Poll `k`, from 0 on, is made and is the one that sees the bit clear. -/
def clearAt (poll : σ → Option Bool × σ) : ℕ → σ → Bool
  | 0, s => (poll s).1 == some false
  | k + 1, s => (poll s).1 == some true && clearAt poll k (poll s).2

variable {poll : σ → Option Bool × σ} {n j k : ℕ} {s : σ}

theorem clearAt_zero : clearAt poll 0 s = true ↔ (poll s).1 = some false := beq_iff_eq

theorem clearAt_succ :
    clearAt poll (k + 1) s = true ↔ (poll s).1 = some true ∧ clearAt poll k (poll s).2 = true := by
  rw [clearAt, Bool.and_eq_true, beq_iff_eq]

/-- The loop ends with the poll that sees the bit clear. -/
theorem clearAt_unique (hj : clearAt poll j s = true) (hk : clearAt poll k s = true) : j = k := by
  induction j generalizing k s with
  | zero =>
    cases k with
    | zero => rfl
    | succ k => cases (clearAt_zero.mp hj).symm.trans (clearAt_succ.mp hk).1
  | succ j ih =>
    cases k with
    | zero => cases (clearAt_zero.mp hk).symm.trans (clearAt_succ.mp hj).1
    | succ k => exact congrArg (· + 1) (ih (clearAt_succ.mp hj).2 (clearAt_succ.mp hk).2)

/-- The loop polls at most `n + 1` times. -/
theorem countdown_polls (poll : σ → Option Bool × σ) (n : ℕ) (s : σ) :
    ∃ k ≤ n, (countdown poll n s).2 = (fun s => (poll s).2)^[k + 1] s := by
  induction n generalizing s with
  | zero => exact ⟨0, Nat.le_refl 0, rfl⟩
  | succ n ih =>
    rw [countdown]
    split
    · exact ⟨0, Nat.zero_le _, rfl⟩
    · exact ⟨0, Nat.zero_le _, rfl⟩
    · obtain ⟨k, hk, he⟩ := ih (poll s).2
      exact ⟨k + 1, Nat.succ_le_succ hk, he⟩

/-- The verdict does not count the last poll. -/
theorem inTime_countdown (n : ℕ) (s : σ) :
    inTime (countdown poll n s).1 = true ↔ ∃ k < n, clearAt poll k s = true := by
  induction n generalizing s with
  | zero =>
    rw [countdown]
    cases (poll s).1 <;> simp [inTime]
  | succ n ih =>
    rw [Nat.exists_lt_succ_left, clearAt_zero, countdown]
    simp only [clearAt_succ]
    cases hp : (poll s).1 with
    | none => simp [inTime]
    | some b =>
      cases b with
      | false => simp [inTime]
      | true => simpa using ih (poll s).2

/-- A loop that ends in time ends with the poll that sees the bit clear. -/
theorem countdown_inTime (h : inTime (countdown poll n s).1 = true) :
    ∃ k < n, clearAt poll k s = true ∧ (countdown poll n s).2 = (fun s => (poll s).2)^[k + 1] s := by
  induction n generalizing s with
  | zero =>
    rw [countdown] at h
    cases hp : (poll s).1 <;> simp [hp, inTime] at h
  | succ n ih =>
    rw [countdown] at h ⊢
    cases hp : (poll s).1 with
    | none => simp [hp, inTime] at h
    | some b =>
      cases b with
      | false => exact ⟨0, Nat.succ_pos n, clearAt_zero.mpr hp, rfl⟩
      | true =>
        rw [hp] at h
        obtain ⟨k, hk, hclear, he⟩ := ih h
        exact ⟨k + 1, Nat.succ_lt_succ hk, clearAt_succ.mpr ⟨hp, hclear⟩, he⟩

/-- **The verdict says whether the bit was seen clear** exactly where that was not at the last poll. -/
theorem countdown_verdict (poll : σ → Option Bool × σ) (n : ℕ) (s : σ) :
    (inTime (countdown poll n s).1 = true ↔ ∃ k < n + 1, clearAt poll k s = true) ↔ clearAt poll n s = false := by
  rw [inTime_countdown, Nat.exists_lt_succ_right]
  constructor
  · intro h
    by_contra hlast
    rw [Bool.not_eq_false] at hlast
    obtain ⟨k, hk, hclear⟩ := h.mpr (Or.inr hlast)
    exact absurd (clearAt_unique hclear hlast) (Nat.ne_of_lt hk)
  · intro hlast
    simp [hlast]

/-- Polls that do not fail: some poll sees the bit clear, and so one is the first. -/
theorem exists_clearAt {busy : σ → Bool} {next : σ → σ} (hpoll : ∀ s, poll s = (some (busy s), next s)) (n : ℕ)
    (s : σ) : (∃ k < n, clearAt poll k s = true) ↔ ∃ k < n, busy (next^[k] s) = false := by
  induction n generalizing s with
  | zero => simp
  | succ n ih =>
    rw [Nat.exists_lt_succ_left, Nat.exists_lt_succ_left]
    simp only [clearAt_zero, clearAt_succ, hpoll, Function.iterate_succ_apply]
    cases hb : busy s with
    | false => simp [hb]
    | true => simpa [hb] using ih (next s)

theorem clearAt_iff {busy : σ → Bool} {next : σ → σ} (hpoll : ∀ s, poll s = (some (busy s), next s)) (k : ℕ) (s : σ) :
    clearAt poll k s = true ↔ (∀ j < k, busy (next^[j] s) = true) ∧ busy (next^[k] s) = false := by
  induction k generalizing s with
  | zero => simp [clearAt_zero, hpoll]
  | succ k ih =>
    rw [clearAt_succ, hpoll, ih, Nat.forall_lt_succ_left]
    simp only [Function.iterate_succ_apply, Function.iterate_zero_apply, Option.some.injEq, and_assoc]

end Poll

end Osx360.Lib
