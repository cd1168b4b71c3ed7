import Mathlib.Data.List.GetD
import Osx360.Lib.Bytes

/-!
# Words in a memory of bytes

A memory of cells is read and written in runs of consecutive cells. What was written reads back (`cells_store`), cells
beside it keep their contents (`cells_store_of_disjoint`), and words of four bytes are such runs, most significant first
(`loadWord_storeWord`) or least (`loadWordLe_storeWordLe_self`).
-/

set_option autoImplicit false

namespace Osx360.Lib

universe u

/-! ## Cells -/

section Cells

variable {α : Type u} {f g : ℕ → α} {a b n x : ℕ} {xs : List α}

/-- The `n` cells from `a` on. -/
def cells (n : ℕ) (f : ℕ → α) (a : ℕ) : List α := (List.range n).map fun i => f (a + i)

/-- The memory with `xs` written from `a` on. -/
def store (f : ℕ → α) (a : ℕ) (xs : List α) (x : ℕ) : α := if a ≤ x then xs.getD (x - a) (f x) else f x

@[simp] theorem length_cells : (cells n f a).length = n := by simp [cells]

theorem cells_congr (h : ∀ i < n, f (a + i) = g (b + i)) : cells n f a = cells n g b :=
  List.map_congr_left fun i hi => h i (List.mem_range.mp hi)

theorem store_of_lt {i : ℕ} (h : i < xs.length) : store f a xs (a + i) = xs[i] := by
  rw [store, if_pos (Nat.le_add_right a i), Nat.add_sub_cancel_left, List.getD_eq_getElem xs _ h]

/-- **Frame.** -/
theorem store_of_disjoint (h : x < a ∨ a + xs.length ≤ x) : store f a xs x = f x := by
  unfold store
  split
  · exact List.getD_eq_default _ _ (by omega)
  · rfl

/-- What was written is read. -/
theorem cells_store : cells xs.length (store f a xs) a = xs := by
  refine List.ext_getElem length_cells fun i h1 h2 => ?_
  simp only [cells, List.getElem_map, List.getElem_range]
  exact store_of_lt h2

theorem cells_store_of_disjoint (h : b + n ≤ a ∨ a + xs.length ≤ b) : cells n (store f a xs) b = cells n f b :=
  cells_congr fun i hi => store_of_disjoint (by omega)

end Cells

/-! ## Words -/

section Words

variable {f g : ℕ → Byte} {a b i j : ℕ}

def loadWord (f : ℕ → Byte) (a : ℕ) : BitVec 32 := BitVec.ofNat 32 (readBe (cells 4 f a))

def storeWord (f : ℕ → Byte) (a : ℕ) (w : BitVec 32) : ℕ → Byte := store f a (be32 w.toNat)

theorem loadWord_congr (h : ∀ i < 4, f (a + i) = g (b + i)) : loadWord f a = loadWord g b :=
  congrArg (fun bs => BitVec.ofNat 32 (readBe bs)) (cells_congr h)

theorem loadWord_storeWord_self (f : ℕ → Byte) (a : ℕ) (w : BitVec 32) : loadWord (storeWord f a w) a = w := by
  have hcells : cells 4 (storeWord f a w) a = be32 w.toNat := cells_store
  rw [loadWord, hcells, readBe_be32 w.isLt, BitVec.ofNat_toNat, BitVec.setWidth_eq]

theorem loadWord_storeWord_of_disjoint (h : b + 4 ≤ a ∨ a + 4 ≤ b) (w : BitVec 32) :
    loadWord (storeWord f a w) b = loadWord f b :=
  congrArg (fun bs => BitVec.ofNat 32 (readBe bs)) (cells_store_of_disjoint h)

/-- **A table of words**: a store changes the word of its index. -/
theorem loadWord_storeWord (f : ℕ → Byte) (a j : ℕ) (w : BitVec 32) :
    (fun i => loadWord (storeWord f (a + 4 * j) w) (a + 4 * i)) =
      Function.update (fun i => loadWord f (a + 4 * i)) j w := by
  funext i
  by_cases hij : i = j
  · subst hij
    rw [Function.update_self, loadWord_storeWord_self]
  · rw [Function.update_of_ne hij, loadWord_storeWord_of_disjoint (by omega)]

end Words

/-! ## Little-endian words -/

section LittleEndian

variable {f g : ℕ → Byte} {a b : ℕ}

def loadWordLe (f : ℕ → Byte) (a : ℕ) : BitVec 32 := BitVec.ofNat 32 (readLe (cells 4 f a))

def storeWordLe (f : ℕ → Byte) (a : ℕ) (w : BitVec 32) : ℕ → Byte := store f a (leBytes 4 w.toNat)

theorem loadWordLe_storeWordLe_self (f : ℕ → Byte) (a : ℕ) (w : BitVec 32) :
    loadWordLe (storeWordLe f a w) a = w := by
  have hcells : cells 4 (storeWordLe f a w) a = leBytes 4 w.toNat := cells_store
  rw [loadWordLe, hcells, readLe_leBytes, Nat.mod_eq_of_lt (b := 256 ^ 4) w.isLt, BitVec.ofNat_toNat,
    BitVec.setWidth_eq]

theorem loadWordLe_store_of_disjoint {xs : List Byte} (h : b + 4 ≤ a ∨ a + xs.length ≤ b) :
    loadWordLe (store f a xs) b = loadWordLe f b :=
  congrArg (fun bs => BitVec.ofNat 32 (readLe bs)) (cells_store_of_disjoint h)

theorem loadWordLe_storeWordLe_of_disjoint (h : b + 4 ≤ a ∨ a + 4 ≤ b) (w : BitVec 32) :
    loadWordLe (storeWordLe f a w) b = loadWordLe f b :=
  loadWordLe_store_of_disjoint (by rwa [length_leBytes])

end LittleEndian

end Osx360.Lib
