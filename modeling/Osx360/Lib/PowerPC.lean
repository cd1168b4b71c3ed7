import Mathlib.Logic.Function.Iterate
import Osx360.Lib.Bits

/-!
# PowerPC in 32-bit mode

Machines with 64-bit registers that fetch words from a code memory. `addis`, `ori`, `mtctr` and `bctr` are decoded by
their fields; what the other instructions do is a parameter.

- straight code: `n` words that do not branch are `n` steps (`iterate_step_straight`);
- scratch registers: words that leave CTR alone and do not read r0 before they write it run the same whatever the two
  hold (`runWords_scratch`).
-/

set_option autoImplicit false

namespace Osx360.Lib.PowerPC

universe u

/-! ## Instruction words -/

section Fields

variable (w : Word)

def opcode : BitVec 6 := w.extractLsb' 26 6

/-- RT, and RS of `ori` and `mtspr`. -/
def rt : BitVec 5 := w.extractLsb' 21 5

def ra : BitVec 5 := w.extractLsb' 16 5

def imm : BitVec 16 := w.extractLsb' 0 16

/-- The extended opcode. -/
def xo : BitVec 10 := w.extractLsb' 1 10

def rc : BitVec 1 := w.extractLsb' 0 1

/-- The halves of the field are swapped. -/
def spr : BitVec 10 := w.extractLsb' 11 5 ++ w.extractLsb' 16 5

def isAddis : Bool := opcode w == 15

def isOri : Bool := opcode w == 24

def isMtctr : Bool := opcode w == 31 && xo w == 467 && spr w == 9

/-- `bcctr` with BO = 20 (always) and LK = 0. -/
def isBctr : Bool := opcode w == 19 && xo w == 528 && rt w == 20 && !w.getLsbD 0

/-- `bc`, `sc`, `b`, `bclr`, `rfid`, `rfi`, `hrfid` and `bcctr`. -/
def isBranch : Bool :=
  opcode w == 16 || opcode w == 17 || opcode w == 18 ||
    (opcode w == 19 && (xo w == 16 || xo w == 18 || xo w == 50 || xo w == 274 || xo w == 528))

end Fields

/-! ## Machines -/

/-- The registers; `rest` is everything else that instructions use, data memory with it. -/
structure Regs (σ : Type u) where
  gpr : BitVec 5 → BitVec 64
  ctr : BitVec 64
  rest : σ

/-- Registers and the number of the next word. -/
structure Machine (σ : Type u) where
  regs : Regs σ
  pc : BitVec 30

/-- The instructions that are not decoded here. -/
structure Isa (σ : Type u) where
  other : Word → Regs σ → Regs σ
  branch : Word → Machine σ → Machine σ

variable {σ : Type u}

namespace Regs

def setGpr (r : Regs σ) (i : BitVec 5) (x : BitVec 64) : Regs σ := { r with gpr := Function.update r.gpr i x }

def setCtr (r : Regs σ) (x : BitVec 64) : Regs σ := { r with ctr := x }

@[simp] theorem setGpr_self (r : Regs σ) (i : BitVec 5) (x : BitVec 64) : (r.setGpr i x).gpr i = x := by
  simp [setGpr]

@[simp] theorem setGpr_setGpr (r : Regs σ) (i : BitVec 5) (x y : BitVec 64) :
    (r.setGpr i x).setGpr i y = r.setGpr i y := by
  simp [setGpr]

@[simp] theorem setGpr_gpr (r : Regs σ) (i : BitVec 5) : r.setGpr i (r.gpr i) = r := by
  simp [setGpr]

@[simp] theorem setCtr_setCtr (r : Regs σ) (x y : BitVec 64) : (r.setCtr x).setCtr y = r.setCtr y := rfl

@[simp] theorem setCtr_gpr (r : Regs σ) (x : BitVec 64) : (r.setCtr x).gpr = r.gpr := rfl

@[simp] theorem setCtr_ctr (r : Regs σ) (x : BitVec 64) : (r.setCtr x).ctr = x := rfl

@[simp] theorem setGpr_ctr (r : Regs σ) (i : BitVec 5) (x : BitVec 64) : (r.setGpr i x).ctr = r.ctr := rfl

end Regs

variable (isa : Isa σ)

/-- An instruction that does not branch. -/
def exec (w : Word) (r : Regs σ) : Regs σ :=
  if isAddis w then
    r.setGpr (rt w) ((if ra w = 0 then 0 else r.gpr (ra w)) + (imm w ++ 0#16).signExtend 64)
  else if isOri w then r.setGpr (ra w) (r.gpr (rt w) ||| (imm w).setWidth 64)
  else if isMtctr w then r.setCtr (r.gpr (rt w))
  else isa.other w r

/-- One instruction. The low 32 bits of CTR are the target of `bctr`, and the last two of them do not count. -/
def step (code : BitVec 30 → Word) (m : Machine σ) : Machine σ :=
  if isBctr (code m.pc) then { m with pc := m.regs.ctr.extractLsb' 2 30 }
  else if isBranch (code m.pc) then isa.branch (code m.pc) m
  else ⟨exec isa (code m.pc) m.regs, m.pc + 1⟩

/-! ## Straight code -/

/-- Instructions one after another. -/
def runWords (ws : List Word) (r : Regs σ) : Regs σ := ws.foldl (fun r w => exec isa w r) r

/-- The words are in memory from `a` on. -/
def CodeAt (code : BitVec 30 → Word) (a : BitVec 30) : List Word → Prop
  | [] => True
  | w :: ws => code a = w ∧ CodeAt code (a + 1) ws

section Straight

variable {isa} {code : BitVec 30 → Word} {a : BitVec 30} {w : Word} {ws us : List Word} {r : Regs σ} {m : Machine σ}

theorem isBranch_of_isBctr (h : isBctr w = true) : isBranch w = true := by
  simp only [isBctr, isBranch, Bool.and_eq_true, beq_iff_eq] at h ⊢
  simp [h.1.1]

theorem step_straight (h : isBranch (code m.pc) = false) :
    step isa code m = ⟨exec isa (code m.pc) m.regs, m.pc + 1⟩ := by
  have hb : isBctr (code m.pc) = false := by
    by_contra hb
    rw [isBranch_of_isBctr (by simpa using hb)] at h
    cases h
  simp [step, hb, h]

theorem step_bctr (h : isBctr (code m.pc) = true) : step isa code m = { m with pc := m.regs.ctr.extractLsb' 2 30 } := by
  simp [step, h]

theorem add_one_ofNat (a : BitVec 30) (i : ℕ) : a + 1 + BitVec.ofNat 30 i = a + BitVec.ofNat 30 (i + 1) := by
  rw [BitVec.add_assoc, BitVec.add_comm 1, BitVec.ofNat_add]
  rfl

theorem codeAt_of_words (h : ∀ i (hi : i < ws.length), code (a + BitVec.ofNat 30 i) = ws[i]) : CodeAt code a ws := by
  induction ws generalizing a with
  | nil => trivial
  | cons w ws ih =>
    refine ⟨by simpa using h 0 (Nat.zero_lt_succ _), ih fun i hi => ?_⟩
    rw [add_one_ofNat]
    exact h (i + 1) (Nat.succ_lt_succ hi)

/-- Code depends on its own words only. -/
theorem CodeAt.congr {code' : BitVec 30 → Word} (h : CodeAt code a ws)
    (heq : ∀ i < ws.length, code' (a + BitVec.ofNat 30 i) = code (a + BitVec.ofNat 30 i)) : CodeAt code' a ws := by
  induction ws generalizing a with
  | nil => trivial
  | cons w ws ih =>
    obtain ⟨hw, hrest⟩ := h
    refine ⟨?_, ih hrest fun i hi => ?_⟩
    · have hfirst := heq 0 (Nat.zero_lt_succ _)
      rw [show a + BitVec.ofNat 30 0 = a from BitVec.add_zero a] at hfirst
      exact hfirst.trans hw
    · rw [add_one_ofNat]
      exact heq (i + 1) (Nat.succ_lt_succ hi)

theorem codeAt_append :
    CodeAt code a (ws ++ us) ↔ CodeAt code a ws ∧ CodeAt code (a + BitVec.ofNat 30 ws.length) us := by
  induction ws generalizing a with
  | nil => simp [CodeAt]
  | cons w ws ih =>
    simp only [List.cons_append, CodeAt, ih, add_one_ofNat, List.length_cons, and_assoc]

/-- Straight code is executed word by word. -/
theorem iterate_step_straight (hc : CodeAt code a ws) (hs : ∀ w ∈ ws, isBranch w = false) :
    (step isa code)^[ws.length] ⟨r, a⟩ = ⟨runWords isa ws r, a + BitVec.ofNat 30 ws.length⟩ := by
  induction ws generalizing a r with
  | nil => simp [runWords]
  | cons w ws ih =>
    obtain ⟨rfl, hrest⟩ := hc
    rw [List.forall_mem_cons] at hs
    rw [List.length_cons, Function.iterate_succ_apply, step_straight (m := ⟨r, a⟩) hs.1, ih hrest hs.2,
      add_one_ofNat]
    rfl

end Straight

/-! ## Scratch registers -/

/-- The instruction neither reads nor writes CTR. -/
def IgnoresCtr (w : Word) : Prop := ∀ r x, exec isa w (r.setCtr x) = (exec isa w r).setCtr x

/-- The instruction gives r0 a value that does not depend on the one it had. -/
def SetsR0 (w : Word) (r : Regs σ) : Prop := ∀ x, exec isa w (r.setGpr 0 x) = exec isa w r

/-- The instruction neither reads nor writes r0. -/
def IgnoresR0 (w : Word) (r : Regs σ) : Prop := ∀ x, exec isa w (r.setGpr 0 x) = (exec isa w r).setGpr 0 x

/-- The words do not read r0 before they write it. -/
def R0Fresh : List Word → Regs σ → Prop
  | [], _ => True
  | w :: ws, r => SetsR0 isa w r ∨ IgnoresR0 isa w r ∧ R0Fresh ws (exec isa w r)

/-- The words write r0, and do not read it before. -/
def WritesR0 : List Word → Regs σ → Prop
  | [], _ => False
  | w :: ws, r => SetsR0 isa w r ∨ IgnoresR0 isa w r ∧ WritesR0 ws (exec isa w r)

section Scratch

variable {isa} {w : Word} {ws : List Word} {r : Regs σ}

theorem runWords_setCtr (h : ∀ w ∈ ws, IgnoresCtr isa w) (r : Regs σ) (x : BitVec 64) :
    runWords isa ws (r.setCtr x) = (runWords isa ws r).setCtr x := by
  induction ws generalizing r with
  | nil => rfl
  | cons w ws ih =>
    rw [List.forall_mem_cons] at h
    simp only [runWords, List.foldl_cons, h.1 r x]
    exact ih h.2 _

/-- No instruction both ignores r0 and sets it. -/
theorem IgnoresR0.not_setsR0 (h : IgnoresR0 isa w r) : ¬ SetsR0 isa w r := by
  intro hs
  have hall : ∀ x, (exec isa w r).gpr 0 = x := fun x => by
    rw [← Regs.setGpr_self (exec isa w r) 0 x, ← h x, hs x]
  exact absurd ((hall 0).symm.trans (hall 1)) (by decide)

theorem runWords_setR0 (h : R0Fresh isa ws r) (x : BitVec 64) :
    ∃ y, runWords isa ws (r.setGpr 0 x) = (runWords isa ws r).setGpr 0 y ∧
      (WritesR0 isa ws r → y = (runWords isa ws r).gpr 0) := by
  induction ws generalizing r with
  | nil => exact ⟨x, rfl, False.elim⟩
  | cons w ws ih =>
    simp only [runWords, List.foldl_cons]
    rcases h with h | ⟨h, hfresh⟩
    · exact ⟨_, by rw [h x, Regs.setGpr_gpr], fun _ => rfl⟩
    · obtain ⟨y, hy, hw⟩ := ih hfresh
      refine ⟨y, by rw [h x]; exact hy, fun hwrites => ?_⟩
      rcases hwrites with hsets | hwrites
      · exact absurd hsets h.not_setsR0
      · exact hw hwrites.2

/-- **Words that are fresh in r0 and ignore CTR** run the same but for CTR, and for r0 where they do not write it. -/
theorem runWords_scratch (hctr : ∀ w ∈ ws, IgnoresCtr isa w) (h : R0Fresh isa ws r) (x c : BitVec 64) :
    ∃ y, runWords isa ws ((r.setGpr 0 x).setCtr c) = ((runWords isa ws r).setGpr 0 y).setCtr c ∧
      (WritesR0 isa ws r → y = (runWords isa ws r).gpr 0) := by
  obtain ⟨y, hy, hw⟩ := runWords_setR0 h x
  exact ⟨y, by rw [runWords_setCtr hctr, hy], hw⟩

end Scratch

end Osx360.Lib.PowerPC
