import Mathlib.Data.List.Find
import Osx360.Platform.MachHeader

/-!
# Kernel symbols

`resolveKernelSymbol` from `XenonPE_Patcher.cpp`. It compares no more characters than the requested name has, so it
takes the first entry whose name begins with it: the right one exactly when each entry with a longer such name has an
entry with the requested name before it (`resolve_exact_iff`).
-/

set_option autoImplicit false

namespace Osx360.Platform

open Osx360.Lib

/-! ## The table -/

section Table

variable (mem : Memory) (fields : SymbolFields) (nlistSym : Word)

/-- `struct nlist`. -/
def nStrx : Word := read32 mem nlistSym
def nValue : Word := read32 mem (nlistSym + 8)

/-- `sizeof (struct nlist)`. -/
def sizeofNlist : Word := 12

/-- `nlistSym` in each round of the loop. -/
def nlistSyms : List Word :=
  List.iterate (fun nlistSym => nlistSym + sizeofNlist) fields.symTab fields.symTabNumSymbols.toNat

def symStr : CharPtr := charPtr mem (fields.strTab + nStrx mem nlistSym)

end Table

/-- The comparison of the loop. -/
def matchesSymbol (mem : Memory) (fields : SymbolFields) (symbolName : CString) (nlistSym : Word) : Bool :=
  strncmp symbolName.ptr (symStr mem fields nlistSym) symbolName.strlen = 0

/-- The entry that the loop stops at. -/
def foundSymbol (mem : Memory) (fields : SymbolFields) (symbolName : CString) : Option Word :=
  (nlistSyms fields).find? (matchesSymbol mem fields symbolName)

def resolveKernelSymbol (mem : Memory) (fields : SymbolFields) (symbolName : CString) : Word :=
  match foundSymbol mem fields symbolName with
  | some nlistSym => nValue mem nlistSym
  | none => 0

/-! ## Exact names -/

/-- The entry's name is exactly this. -/
def named (mem : Memory) (fields : SymbolFields) (symbolName : CString) (nlistSym : Word) : Bool :=
  IsString (symStr mem fields nlistSym) symbolName

/-- No entry has the name. -/
def Missing (mem : Memory) (fields : SymbolFields) (symbolName : CString) : Prop :=
  ∀ nlistSym ∈ nlistSyms fields, named mem fields symbolName nlistSym = false

/-- The value of the first entry with the name, or 0. -/
def exactValue (mem : Memory) (fields : SymbolFields) (symbolName : CString) : Word :=
  match (nlistSyms fields).find? (named mem fields symbolName) with
  | some nlistSym => nValue mem nlistSym
  | none => 0

/-- The value is right, and it was taken from an entry with the name. -/
structure ResolvedExactly (mem : Memory) (fields : SymbolFields) (symbolName : CString) : Prop where
  value : resolveKernelSymbol mem fields symbolName = exactValue mem fields symbolName
  entry : ∀ nlistSym, foundSymbol mem fields symbolName = some nlistSym →
    named mem fields symbolName nlistSym = true

section Exact

variable {mem : Memory} {fields : SymbolFields} {symbolName : CString} {nlistSym : Word}

theorem matchesSymbol_iff :
    matchesSymbol mem fields symbolName nlistSym = true ↔ Begins (symStr mem fields nlistSym) symbolName := by
  rw [matchesSymbol, decide_eq_true_iff, strncmp_strlen]

theorem named_iff : named mem fields symbolName nlistSym = true ↔ IsString (symStr mem fields nlistSym) symbolName :=
  decide_eq_true_iff

theorem matchesSymbol_of_named (h : named mem fields symbolName nlistSym = true) :
    matchesSymbol mem fields symbolName nlistSym = true :=
  matchesSymbol_iff.mpr (named_iff.mp h).begins

/-- **Exactly the right entries.** An entry whose name only begins with the requested one does no harm where an entry
with the requested name comes before it. -/
theorem resolve_exact_iff (mem : Memory) (fields : SymbolFields) (symbolName : CString) :
    ResolvedExactly mem fields symbolName ↔
      ∀ before nlistSym after, nlistSyms fields = before ++ nlistSym :: after →
        Begins (symStr mem fields nlistSym) symbolName → ¬ IsString (symStr mem fields nlistSym) symbolName →
        ∃ earlier ∈ before, IsString (symStr mem fields earlier) symbolName := by
  have hshield : (∀ before nlistSym after, nlistSyms fields = before ++ nlistSym :: after →
        Begins (symStr mem fields nlistSym) symbolName → ¬ IsString (symStr mem fields nlistSym) symbolName →
        ∃ earlier ∈ before, IsString (symStr mem fields earlier) symbolName) ↔
      Shielded (matchesSymbol mem fields symbolName) (named mem fields symbolName) (nlistSyms fields) := by
    simp only [Shielded, matchesSymbol_iff, named_iff, ← Bool.not_eq_true]
  rw [hshield, shielded_iff fun _ => matchesSymbol_of_named]
  constructor
  · exact ResolvedExactly.entry
  · intro h
    have hfind := find?_eq_find? (fun _ => matchesSymbol_of_named) h
    exact ⟨by rw [resolveKernelSymbol, exactValue, foundSymbol, hfind], h⟩

/-- `_Debugger2` and `_Debugger` in that order, and their names. -/
def debuggerTable : Memory := wordsAt 0x1000 [1, 0x0F010000, 0x5000, 12, 0x0F010000, 0x6000,
  0x005F4465, 0x62756767, 0x65723200, 0x5F446562, 0x75676765, 0x72000000]

def debuggerFields : SymbolFields := ⟨0x1000, 2, 0x1018, 24⟩

/-- The address of `_Debugger2` is returned for `_Debugger`. -/
theorem resolve_longer_name :
    resolveKernelSymbol debuggerTable debuggerFields (cstring "_Debugger") = 0x5000 ∧
      exactValue debuggerTable debuggerFields (cstring "_Debugger") = 0x6000 ∧
      ¬ ResolvedExactly debuggerTable debuggerFields (cstring "_Debugger") :=
  ⟨by decide, by decide, fun h => absurd h.value (by decide)⟩

end Exact

/-! ## Functions with an address -/

/-- The entry that is taken for the name has an address. -/
def HasAddress (mem : Memory) (fields : SymbolFields) (symbolName : CString) : Prop :=
  ∃ before nlistSym after, nlistSyms fields = before ++ nlistSym :: after ∧
    (∀ earlier ∈ before, ¬ Begins (symStr mem fields earlier) symbolName) ∧
    Begins (symStr mem fields nlistSym) symbolName ∧ nValue mem nlistSym ≠ 0

theorem resolve_ne_zero_iff {mem : Memory} {fields : SymbolFields} {symbolName : CString} :
    resolveKernelSymbol mem fields symbolName ≠ 0 ↔ HasAddress mem fields symbolName := by
  have hfound : ∀ nlistSym, foundSymbol mem fields symbolName = some nlistSym ↔
      Begins (symStr mem fields nlistSym) symbolName ∧ ∃ before after, nlistSyms fields = before ++ nlistSym :: after ∧
        ∀ earlier ∈ before, ¬ Begins (symStr mem fields earlier) symbolName := by
    intro nlistSym
    simp [foundSymbol, List.find?_eq_some_iff_append, ← matchesSymbol_iff]
  constructor
  · intro h
    rw [resolveKernelSymbol] at h
    cases hx : foundSymbol mem fields symbolName with
    | none =>
      rw [hx] at h
      exact absurd rfl h
    | some nlistSym =>
      rw [hx] at h
      obtain ⟨hbegins, before, after, heq, hnone⟩ := (hfound nlistSym).mp hx
      exact ⟨before, nlistSym, after, heq, hnone, hbegins, h⟩
  · rintro ⟨before, nlistSym, after, heq, hnone, hbegins, hvalue⟩
    rw [resolveKernelSymbol, (hfound nlistSym).mpr ⟨hbegins, before, after, heq, hnone⟩]
    exact hvalue

/-! ## What is read -/

/-- The words that resolving a name may read. -/
def SymbolWord (mem : Memory) (fields : SymbolFields) (name : CString) (a : Address) : Prop :=
  ∃ nlistSym ∈ nlistSyms fields, (∃ i < 12, a = wordAt (nlistSym + BitVec.ofNat 32 i)) ∨
    ∃ i < name.strlen, a = wordAt (fields.strTab + nStrx mem nlistSym + BitVec.ofNat 32 i)

section Reads

variable {mem mem' : Memory} {fields : SymbolFields} {name : CString} {nlistSym p : Word}

theorem byteAt_congr (h : mem' (wordAt p) = mem (wordAt p)) : byteAt mem' p = byteAt mem p := by
  rw [byteAt, byteAt, h]

theorem read32_congr (h : ∀ i < 4, mem' (wordAt (p + BitVec.ofNat 32 i)) = mem (wordAt (p + BitVec.ofNat 32 i))) :
    read32 mem' p = read32 mem p := by
  have h0 := byteAt_congr (h 0 (by decide))
  rw [show p + BitVec.ofNat 32 0 = p from BitVec.add_zero p] at h0
  rw [read32, read32, h0, byteAt_congr (p := p + 1) (h 1 (by decide)), byteAt_congr (p := p + 2) (h 2 (by decide)),
    byteAt_congr (p := p + 3) (h 3 (by decide))]

theorem nStrx_congr (h : ∀ a, SymbolWord mem fields name a → mem' a = mem a) (hsym : nlistSym ∈ nlistSyms fields) :
    nStrx mem' nlistSym = nStrx mem nlistSym :=
  read32_congr fun i hi => h _ ⟨nlistSym, hsym, Or.inl ⟨i, by omega, rfl⟩⟩

theorem nValue_congr (h : ∀ a, SymbolWord mem fields name a → mem' a = mem a) (hsym : nlistSym ∈ nlistSyms fields) :
    nValue mem' nlistSym = nValue mem nlistSym := by
  refine read32_congr fun i hi => h _ ⟨nlistSym, hsym, Or.inl ⟨8 + i, by omega, ?_⟩⟩
  rw [BitVec.add_assoc, BitVec.ofNat_add]
  rfl

theorem matchesSymbol_congr (h : ∀ a, SymbolWord mem fields name a → mem' a = mem a)
    (hsym : nlistSym ∈ nlistSyms fields) :
    matchesSymbol mem' fields name nlistSym = matchesSymbol mem fields name nlistSym := by
  rw [Bool.eq_iff_iff, matchesSymbol_iff, matchesSymbol_iff, Begins, Begins]
  refine forall₂_congr fun i hi => ?_
  have hbyte : symStr mem' fields nlistSym i = symStr mem fields nlistSym i := by
    rw [symStr, symStr, nStrx_congr h hsym]
    exact byteAt_congr (h _ ⟨nlistSym, hsym, Or.inr ⟨i, hi, rfl⟩⟩)
  rw [hbyte]

/-- **Resolving reads these words only.** -/
theorem resolve_congr (h : ∀ a, SymbolWord mem fields name a → mem' a = mem a) :
    resolveKernelSymbol mem' fields name = resolveKernelSymbol mem fields name := by
  have hfound : foundSymbol mem' fields name = foundSymbol mem fields name :=
    List.find?_congr fun nlistSym hsym => matchesSymbol_congr h hsym
  rw [resolveKernelSymbol, resolveKernelSymbol, hfound]
  cases hx : foundSymbol mem fields name with
  | none => rfl
  | some nlistSym => exact nValue_congr h (List.mem_of_find?_eq_some hx)

/-- The words read lie below a bound. -/
theorem SymbolWord.lt {a : Address} {n : ℕ} (h : SymbolWord mem fields name a) (hn : 4 * n ≤ 2 ^ 32)
    (hbound : ∀ nlistSym ∈ nlistSyms fields, nlistSym.toNat + 12 ≤ 4 * n ∧
      (fields.strTab + nStrx mem nlistSym).toNat + name.strlen ≤ 4 * n) : a.toNat < n := by
  have hword : ∀ (p : Word) i, p.toNat + i < 4 * n → (wordAt (p + BitVec.ofNat 32 i)).toNat < n := by
    intro p i hi
    have hsum : (p + BitVec.ofNat 32 i).toNat = p.toNat + i := by
      rw [BitVec.toNat_add, BitVec.toNat_ofNat]
      omega
    rw [wordAt, BitVec.extractLsb'_toNat, hsum, Nat.shiftRight_eq_div_pow]
    omega
  obtain ⟨nlistSym, hsym, ⟨i, hi, rfl⟩ | ⟨i, hi, rfl⟩⟩ := h
  · exact hword _ i (by have := (hbound nlistSym hsym).1; omega)
  · exact hword _ i (by have := (hbound nlistSym hsym).2; omega)

end Reads

end Osx360.Platform
