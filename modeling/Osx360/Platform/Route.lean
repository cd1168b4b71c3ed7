import Osx360.Lib.PowerPC
import Osx360.Platform.Patcher

/-!
# Routed functions run

The words that `routeFunction` and `createTrampoline` write, executed: a routed function goes to its target with only r0
and CTR changed, and its trampoline goes to the rest of the function as the function itself would (`route_runs`).
-/

set_option autoImplicit false

namespace Osx360.Platform

open Osx360.Lib
open Osx360.Lib.PowerPC

universe u

/-! ## The jump -/

/-- The words that load an address into CTR. -/
def loadWords (x : Word) : List Word :=
  [(0x3C000000 : Word) ||| x >>> 16, (0x60000000 : Word) ||| x &&& 0xFFFF, 0x7C0903A6]

/-- What they leave in r0 and CTR: the high half sign extended, the low half not. -/
def loaded (x : Word) : BitVec 64 :=
  (x.extractLsb' 16 16 ++ 0#16).signExtend 64 ||| (x.extractLsb' 0 16).setWidth 64

section Jump

variable {σ : Type u} {isa : Isa σ} {x : Word}

/-- The fields above the immediate. -/
theorem extract_or_high {c y : Word} {k n : ℕ} (hy : ∀ i, 16 ≤ i → y.getLsbD i = false) (hk : 16 ≤ k) :
    (c ||| y).extractLsb' k n = c.extractLsb' k n := by
  refine BitVec.eq_of_getLsbD_eq fun i hi => ?_
  simp [BitVec.getLsbD_extractLsb', hy (k + i) (by omega)]

theorem shifted_high (x : Word) : ∀ i, 16 ≤ i → (x >>> 16).getLsbD i = false := by
  intro i hi
  rw [BitVec.getLsbD_ushiftRight]
  exact BitVec.getLsbD_of_ge _ _ (by omega)

theorem masked_high (x : Word) : ∀ i, 16 ≤ i → (x &&& 0xFFFF).getLsbD i = false := by
  intro i hi
  rw [BitVec.getLsbD_and, show (0xFFFF : Word) = BitVec.ofNat 32 (2 ^ 16 - 1) from rfl, BitVec.getLsbD_ofNat,
    Nat.testBit_two_pow_sub_one]
  simp [Nat.not_lt.mpr hi]

/-- The bits of the value loaded are those of the address. -/
theorem loaded_low (x : Word) : (loaded x).extractLsb' 2 30 = wordAt x := by
  refine BitVec.eq_of_getLsbD_eq fun i hi => ?_
  simp only [loaded, wordAt, BitVec.getLsbD_extractLsb', BitVec.getLsbD_or, BitVec.getLsbD_signExtend,
    BitVec.getLsbD_append, BitVec.getLsbD_setWidth]
  grind

theorem exec_lis (isa : Isa σ) (x : Word) (r : Regs σ) :
    exec isa ((0x3C000000 : Word) ||| x >>> 16) r = r.setGpr 0 ((x.extractLsb' 16 16 ++ 0#16).signExtend 64) := by
  have hop : isAddis ((0x3C000000 : Word) ||| x >>> 16) = true := by
    rw [isAddis, opcode, extract_or_high (shifted_high x) (by decide)]
    rfl
  have hrt : rt ((0x3C000000 : Word) ||| x >>> 16) = 0 := by
    rw [rt, extract_or_high (shifted_high x) (by decide)]
    rfl
  have hra : ra ((0x3C000000 : Word) ||| x >>> 16) = 0 := by
    rw [ra, extract_or_high (shifted_high x) (by decide)]
    rfl
  have himm : imm ((0x3C000000 : Word) ||| x >>> 16) = x.extractLsb' 16 16 := by
    have hzero : (0x3C000000 : Word).extractLsb' 0 16 = 0 := rfl
    rw [imm, BitVec.extractLsb'_or, hzero]
    refine BitVec.eq_of_getLsbD_eq fun i hi => ?_
    simp [hi]
  rw [exec, if_pos hop, hrt, hra, himm, if_pos rfl, show (0 : BitVec 64) = 0#64 from rfl, BitVec.zero_add]

theorem exec_ori (isa : Isa σ) (x : Word) (r : Regs σ) :
    exec isa ((0x60000000 : Word) ||| x &&& 0xFFFF) r = r.setGpr 0 (r.gpr 0 ||| (x.extractLsb' 0 16).setWidth 64) := by
  have hop : opcode ((0x60000000 : Word) ||| x &&& 0xFFFF) = 24 := by
    rw [opcode, extract_or_high (masked_high x) (by decide)]
    rfl
  have hrt : rt ((0x60000000 : Word) ||| x &&& 0xFFFF) = 0 := by
    rw [rt, extract_or_high (masked_high x) (by decide)]
    rfl
  have hra : ra ((0x60000000 : Word) ||| x &&& 0xFFFF) = 0 := by
    rw [ra, extract_or_high (masked_high x) (by decide)]
    rfl
  have himm : imm ((0x60000000 : Word) ||| x &&& 0xFFFF) = x.extractLsb' 0 16 := by
    have hzero : (0x60000000 : Word).extractLsb' 0 16 = 0 := rfl
    have hmask : (0xFFFF : Word).extractLsb' 0 16 = BitVec.allOnes 16 := rfl
    rw [imm, BitVec.extractLsb'_or, BitVec.extractLsb'_and, hzero, hmask, BitVec.and_allOnes,
      show (0 : BitVec 16) = 0#16 from rfl, BitVec.zero_or]
  have haddis : isAddis ((0x60000000 : Word) ||| x &&& 0xFFFF) = false := by rw [isAddis, hop]; rfl
  have hori : isOri ((0x60000000 : Word) ||| x &&& 0xFFFF) = true := by rw [isOri, hop]; rfl
  simp only [exec, haddis, hori, hrt, hra, himm, if_true]
  rfl

theorem exec_mtctr (isa : Isa σ) (r : Regs σ) : exec isa 0x7C0903A6 r = r.setCtr (r.gpr 0) := rfl

theorem runWords_load (isa : Isa σ) (x : Word) (r : Regs σ) :
    runWords isa (loadWords x) r = (r.setGpr 0 (loaded x)).setCtr (loaded x) := by
  simp only [runWords, loadWords, List.foldl_cons, List.foldl_nil, exec_lis, exec_ori, exec_mtctr, Regs.setGpr_self,
    Regs.setGpr_setGpr, loaded]

/-- The words that load an address do not branch. -/
theorem loadWords_straight (x : Word) : ∀ w ∈ loadWords x, isBranch w = false := by
  have hlis : opcode ((0x3C000000 : Word) ||| x >>> 16) = 15 := by
    rw [opcode, extract_or_high (shifted_high x) (by decide)]
    rfl
  have hori : opcode ((0x60000000 : Word) ||| x &&& 0xFFFF) = 24 := by
    rw [opcode, extract_or_high (masked_high x) (by decide)]
    rfl
  intro w hw
  simp only [loadWords, List.mem_cons, List.not_mem_nil, or_false] at hw
  rcases hw with rfl | rfl | rfl
  · rw [isBranch, hlis]; rfl
  · rw [isBranch, hori]; rfl
  · rfl

/-- The address loaded, some straight code, and the jump to the address. -/
theorem run_load_jump {code : Memory} {a : Address} {ws : List Word} {r : Regs σ}
    (hcode : CodeAt code a (loadWords x ++ (ws ++ [0x4E800420]))) (hs : ∀ w ∈ ws, isBranch w = false)
    (hctr : ∀ w ∈ ws, IgnoresCtr isa w) (hr0 : R0Fresh isa ws r) :
    ∃ n y, (step isa code)^[n] ⟨r, a⟩ = ⟨((runWords isa ws r).setGpr 0 y).setCtr (loaded x), wordAt x⟩ ∧
      (WritesR0 isa ws r → y = (runWords isa ws r).gpr 0) := by
  rw [codeAt_append, codeAt_append] at hcode
  obtain ⟨hload, hws, hjump, -⟩ := hcode
  obtain ⟨y, hy, hw⟩ := runWords_scratch hctr hr0 (loaded x) (loaded x)
  refine ⟨1 + (ws.length + (loadWords x).length), y, ?_, hw⟩
  rw [Function.iterate_add_apply, Function.iterate_add_apply, iterate_step_straight hload (loadWords_straight x),
    runWords_load, iterate_step_straight hws hs, hy, Function.iterate_one, step_bctr (by rw [hjump]; rfl)]
  rw [Regs.setCtr_ctr, loaded_low]

end Jump

/-! ## The patched function -/

/-- The four words at an address. -/
def prologue (mem : Memory) (fromPtr : Word) : List Word :=
  [mem (wordAt fromPtr), mem (wordAt fromPtr + 1), mem (wordAt fromPtr + 2), mem (wordAt fromPtr + 3)]

/-- The function to be routed is neither the offset nor where its trampoline goes. -/
structure Outside (pe : XenonPE) (fromPtr : Word) (mem : Memory) : Prop where
  offset : ∀ i < 4, wordAt fromPtr + BitVec.ofNat 30 i ≠ pe.tmpExecMemoryOffset
  trampoline : ∀ i < 4, ∀ j < 8, wordAt fromPtr + BitVec.ofNat 30 i ≠ trampolinePtr pe mem + BitVec.ofNat 30 j

section Route

variable {σ : Type u} {isa : Isa σ} {pe : XenonPE} {mem : Memory} {fromPtr toPtr : Word} {r : Regs σ}

theorem wordAt_addressOf (a : Address) : wordAt (addressOf a) = a := by
  have hlow : (addressOf a).toNat = a.toNat * 4 := by
    rw [addressOf, BitVec.toNat_append, Nat.shiftLeft_eq]
    exact Nat.or_zero _
  apply BitVec.eq_of_toNat_eq
  rw [wordAt, BitVec.extractLsb'_toNat, hlow, Nat.shiftRight_eq_div_pow]
  omega

/-- Sixteen bytes on are four words on. -/
theorem wordAt_add_sixteen (x : Word) : wordAt (x + 16) = wordAt x + 4 := by
  have hfour : (4 : Address).toNat = 4 := rfl
  have hsixteen : (16 : Word).toNat = 16 := rfl
  refine BitVec.eq_of_toNat_eq ?_
  rw [BitVec.toNat_add, wordAt, wordAt, BitVec.extractLsb'_toNat, BitVec.extractLsb'_toNat, BitVec.toNat_add, hfour,
    hsixteen, Nat.shiftRight_eq_div_pow, Nat.shiftRight_eq_div_pow]
  omega

/-- Advancing the offset leaves the function alone. -/
theorem trampolineBytes_advance (hout : Outside pe fromPtr mem) :
    trampolineBytes fromPtr (advance pe mem) = loadWords (fromPtr + 16) ++ (prologue mem fromPtr ++ [0x4E800420]) := by
  have hword : ∀ i < 4,
      advance pe mem (wordAt fromPtr + BitVec.ofNat 30 i) = mem (wordAt fromPtr + BitVec.ofNat 30 i) :=
    fun i hi => Function.update_of_ne (hout.offset i hi) _ _
  have h0 : advance pe mem (wordAt fromPtr) = mem (wordAt fromPtr) := by simpa using hword 0 (by decide)
  have h1 : advance pe mem (wordAt fromPtr + 1) = mem (wordAt fromPtr + 1) := hword 1 (by decide)
  have h2 : advance pe mem (wordAt fromPtr + 2) = mem (wordAt fromPtr + 2) := hword 2 (by decide)
  have h3 : advance pe mem (wordAt fromPtr + 3) = mem (wordAt fromPtr + 3) := hword 3 (by decide)
  rw [trampolineBytes, h0, h1, h2, h3]
  rfl

/-- The memory after a call that succeeds. -/
theorem routeFunction_success (hs : (routeFunction pe fromPtr toPtr mem).1 = .success) :
    routeFunction pe fromPtr toPtr mem = (.success, addressOf (trampolinePtr pe mem),
      applyWrites (createTrampoline pe fromPtr mem).2 (block (wordAt fromPtr) (targetBytes toPtr))) := by
  simp only [routeFunction] at hs ⊢
  split at hs
  · cases hs
  · rename_i h
    rw [if_neg h]
    rfl

/-- The trampoline, once the function has been patched. -/
theorem codeAt_trampoline (hout : Outside pe fromPtr mem) :
    CodeAt (applyWrites (createTrampoline pe fromPtr mem).2 (block (wordAt fromPtr) (targetBytes toPtr)))
      (trampolinePtr pe mem) (loadWords (fromPtr + 16) ++ (prologue mem fromPtr ++ [0x4E800420])) := by
  rw [← trampolineBytes_advance hout]
  refine codeAt_of_words fun i hi => ?_
  have hframe : ∀ j < (targetBytes toPtr).length,
      trampolinePtr pe mem + BitVec.ofNat 30 i ≠ wordAt fromPtr + BitVec.ofNat 30 j :=
    fun j hj he => hout.trampoline j hj i hi he.symm
  rw [applyWrites_block_frame hframe, createTrampoline_word hi]

theorem codeAt_target (mem : Memory) (fromPtr toPtr : Word) :
    CodeAt (applyWrites mem (block (wordAt fromPtr) (targetBytes toPtr))) (wordAt fromPtr)
      (loadWords toPtr ++ ([] ++ [0x4E800420])) := by
  show CodeAt _ _ (targetBytes toPtr)
  refine codeAt_of_words fun i hi => ?_
  exact applyWrites_block hi (show 4 ≤ 2 ^ 30 by decide)

/-- **A routed function runs as it should.** Executing it reaches the target with r0 and CTR changed only; calling its
trampoline reaches the word after its prologue in the state that the unpatched function reaches it in, but for CTR, and
for r0 where the prologue does not write it. -/
theorem route_runs (hs : (routeFunction pe fromPtr toPtr mem).1 = .success) (hout : Outside pe fromPtr mem)
    (hstraight : ∀ w ∈ prologue mem fromPtr, isBranch w = false)
    (hctr : ∀ w ∈ prologue mem fromPtr, IgnoresCtr isa w) (hr0 : R0Fresh isa (prologue mem fromPtr) r) :
    (∃ n x c, (step isa (routeFunction pe fromPtr toPtr mem).2.2)^[n] ⟨r, wordAt fromPtr⟩ =
      ⟨(r.setGpr 0 x).setCtr c, wordAt toPtr⟩) ∧
    ∃ u, (step isa mem)^[4] ⟨r, wordAt fromPtr⟩ = ⟨u, wordAt (fromPtr + 16)⟩ ∧
      ∃ n x c, (step isa (routeFunction pe fromPtr toPtr mem).2.2)^[n]
          ⟨r, wordAt (routeFunction pe fromPtr toPtr mem).2.1⟩ = ⟨(u.setGpr 0 x).setCtr c, wordAt (fromPtr + 16)⟩ ∧
        (WritesR0 isa (prologue mem fromPtr) r → x = u.gpr 0) := by
  rw [routeFunction_success hs, wordAt_addressOf]
  have hunpatched : CodeAt mem (wordAt fromPtr) (prologue mem fromPtr) := by
    refine ⟨rfl, rfl, ?_, ?_, trivial⟩
    · rw [BitVec.add_assoc]; rfl
    · rw [BitVec.add_assoc, BitVec.add_assoc]; rfl
  refine ⟨?_, runWords isa (prologue mem fromPtr) r, ?_, ?_⟩
  · obtain ⟨n, y, hn, -⟩ := run_load_jump (codeAt_target _ fromPtr toPtr) (List.forall_mem_nil _)
      (List.forall_mem_nil _) (trivial : R0Fresh isa [] r)
    exact ⟨n, y, _, hn⟩
  · rw [wordAt_add_sixteen]
    exact iterate_step_straight hunpatched hstraight
  · obtain ⟨n, y, hn, hw⟩ := run_load_jump (codeAt_trampoline hout) hstraight hctr hr0
    exact ⟨n, y, _, hn, hw⟩

/-- A machine with nothing but the link register besides r0..r31 and CTR. -/
def linkIsa : Isa (BitVec 64) where
  other w r := if opcode w = 31 ∧ xo w = 339 ∧ spr w = 8 then r.setGpr (rt w) r.rest else r
  branch _ m := m

/-- `mflr r0`, `lis r11, 0x1234`, `ori r11, r11, 0x5678`, `mflr r12` at 0x2000. -/
def linkMemory : Memory := fun a =>
  if a = 0x800 then 0x7C0802A6
  else if a = 0x801 then 0x3D601234
  else if a = 0x802 then 0x616B5678
  else if a = 0x803 then 0x7D8802A6
  else 0

def linkRegs : Regs (BitVec 64) := ⟨fun _ => 7, 0, 0x3000⟩

/-- `linkMemory` with the function at 0x2000 routed to 0x80000000, and its trampoline at 0x1000. -/
def linkPatched : Memory := (routeFunction ⟨0x1000⟩ 0x2000 0x80000000 linkMemory).2.2

theorem route_runs_link :
    (∃ n x c, (step linkIsa linkPatched)^[n] ⟨linkRegs, wordAt 0x2000⟩ =
      ⟨(linkRegs.setGpr 0 x).setCtr c, wordAt 0x80000000⟩) ∧
    ∃ u, (step linkIsa linkMemory)^[4] ⟨linkRegs, wordAt 0x2000⟩ = ⟨u, wordAt 0x2010⟩ ∧
      ∃ n c, (step linkIsa linkPatched)^[n] ⟨linkRegs, 0x1000⟩ = ⟨u.setCtr c, wordAt 0x2010⟩ := by
  have hmem : prologue linkMemory 0x2000 = [0x7C0802A6, 0x3D601234, 0x616B5678, 0x7D8802A6] := by decide
  have hsets : SetsR0 linkIsa 0x7C0802A6 linkRegs := fun x => Regs.setGpr_setGpr linkRegs 0 x 0x3000
  have hstraight : ∀ w ∈ prologue linkMemory 0x2000, isBranch w = false := by
    rw [hmem]
    simp only [List.forall_mem_cons, List.not_mem_nil, false_imp_iff, implies_true, and_true]
    exact ⟨rfl, rfl, rfl, rfl⟩
  have hctr : ∀ w ∈ prologue linkMemory 0x2000, IgnoresCtr linkIsa w := by
    rw [hmem]
    simp only [List.forall_mem_cons, List.not_mem_nil, false_imp_iff, implies_true, and_true]
    exact ⟨fun _ _ => rfl, fun _ _ => rfl, fun _ _ => rfl, fun _ _ => rfl⟩
  have hr0 : R0Fresh linkIsa (prologue linkMemory 0x2000) linkRegs := by
    rw [hmem]
    exact Or.inl hsets
  have hsuccess : (routeFunction ⟨0x1000⟩ 0x2000 0x80000000 linkMemory).1 = .success := by decide
  have hroute := route_runs hsuccess ⟨by decide, by decide⟩ hstraight hctr hr0
  obtain ⟨hfirst, u, hu, n, x, c, hn, hw⟩ := hroute
  rw [hw (by rw [hmem]; exact Or.inl hsets), Regs.setGpr_gpr] at hn
  exact ⟨hfirst, u, hu, n, c, hn⟩

end Route

end Osx360.Platform
