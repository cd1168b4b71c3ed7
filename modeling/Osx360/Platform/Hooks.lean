import Osx360.Platform.Route

/-!
# Hooks side by side

Calls of `routeFunction` one after another, as `initPatcher` makes them, and the memory that they leave together.
Functions that do not overlap, at most 32 of them and none in the object itself, are all hooked: each one goes to its
target, each trampoline still goes on as the unpatched function did, and no other word is changed (`hooks_run`).
-/

set_option autoImplicit false

namespace Osx360.Platform

open Osx360.Lib
open Osx360.Lib.PowerPC

universe u

/-! ## The calls -/

/-- The arguments of a call. -/
structure HookRoute where
  fromPtr : Word
  toPtr : Word

/-- What the calls return and store in `*trampoline`, and the memory. -/
def routeAll (pe : XenonPE) : List HookRoute → Memory → List (IOReturn × Word) × Memory
  | [], mem => ([], mem)
  | h :: hs, mem =>
    let r := routeFunction pe h.fromPtr h.toPtr mem
    let rest := routeAll pe hs r.2.2
    ((r.1, r.2.1) :: rest.1, rest.2)

/-- The words that a call replaces. -/
def HookRoute.Patches (h : HookRoute) (a : Address) : Prop := ∃ i < 4, a = wordAt h.fromPtr + BitVec.ofNat 30 i

/-- The words of `_tmpExecMemory` from `i` on, and the offset behind them. -/
def XenonPE.OwnFrom (pe : XenonPE) (i : ℕ) (a : Address) : Prop :=
  ∃ j, i ≤ j ∧ j ≤ tmpExecMemoryInsCount ∧ a = pe.tmpExecMemory + BitVec.ofNat 30 j

/-- The place of a trampoline. -/
def XenonPE.slot (pe : XenonPE) (k : ℕ) : Address := pe.tmpExecMemory + BitVec.ofNat 30 (8 * k)

/-- The trampolines of the functions have room after `k` others, and no call replaces the offset. -/
structure Placed (pe : XenonPE) (k : ℕ) (hs : List HookRoute) (mem : Memory) : Prop where
  offset : (mem pe.tmpExecMemoryOffset).toNat = 8 * k
  room : k + hs.length ≤ 32
  kept : ∀ h ∈ hs, ¬ h.Patches pe.tmpExecMemoryOffset

/-- The functions can be hooked after `k` others. -/
structure Routable (pe : XenonPE) (k : ℕ) (hs : List HookRoute) (mem : Memory) : Prop where
  offset : (mem pe.tmpExecMemoryOffset).toNat = 8 * k
  room : k + hs.length ≤ 32
  nonzero : ∀ i < tmpExecMemoryInsCount, pe.tmpExecMemory + BitVec.ofNat 30 i ≠ 0
  outside : ∀ h ∈ hs, ∀ a, h.Patches a → ¬ pe.OwnFrom 0 a
  apart : hs.Pairwise fun g h => ∀ a, g.Patches a → ¬ h.Patches a

/-- The code of a hooked function and of its trampoline, which runs the words that `old` had there. -/
structure Hooked (pe : XenonPE) (k : ℕ) (h : HookRoute) (old mem : Memory) : Prop where
  target : CodeAt mem (wordAt h.fromPtr) (targetBytes h.toPtr)
  trampoline : CodeAt mem (pe.slot k) (loadWords (h.fromPtr + 16) ++ (prologue old h.fromPtr ++ [0x4E800420]))

/-! ## One call -/

section Call

variable {pe : XenonPE} {k : ℕ} {h : HookRoute} {hs : List HookRoute} {mem mem' old : Memory} {a : Address}

theorem ownFrom_offset (pe : XenonPE) {i : ℕ} (hi : i ≤ tmpExecMemoryInsCount) : pe.OwnFrom i pe.tmpExecMemoryOffset :=
  ⟨tmpExecMemoryInsCount, hi, Nat.le_refl _, rfl⟩

theorem ownFrom_slot (pe : XenonPE) (hk : k < 32) {i : ℕ} (hi : i < 8) :
    pe.OwnFrom (8 * k) (pe.slot k + BitVec.ofNat 30 i) := by
  refine ⟨8 * k + i, Nat.le_add_right _ _, ?_, ?_⟩
  · simp only [tmpExecMemoryInsCount]
    omega
  · rw [XenonPE.slot, add_ofNat_ofNat]

theorem OwnFrom.mono {i j : ℕ} (hij : i ≤ j) (h : pe.OwnFrom j a) : pe.OwnFrom i a := by
  obtain ⟨n, hn, hle, rfl⟩ := h
  exact ⟨n, Nat.le_trans hij hn, hle, rfl⟩

theorem Placed.trampolinePtr_eq_slot (hp : Placed pe k (h :: hs) mem) : trampolinePtr pe mem = pe.slot k := by
  rw [trampolinePtr_eq, hp.offset, XenonPE.slot]

theorem Placed.lt (hp : Placed pe k (h :: hs) mem) : k < 32 := by
  have hroom := hp.room
  rw [List.length_cons] at hroom
  omega

theorem Placed.head_room (hp : Placed pe k (h :: hs) mem) : Room pe mem := by
  have hlt := hp.lt
  rw [Room, hp.offset]
  simp only [tmpExecMemoryInsCount]
  omega

/-- What a call changes of the memory: a trampoline and the offset, and the words it patches. -/
theorem Placed.frame (hp : Placed pe k (h :: hs) mem) (hown : ¬ pe.OwnFrom (8 * k) a) (hpatch : ¬ h.Patches a) :
    (routeFunction pe h.fromPtr h.toPtr mem).2.2 a = mem a := by
  have hlt := hp.lt
  have hfunction : ∀ i < (targetBytes h.toPtr).length, a ≠ wordAt h.fromPtr + BitVec.ofNat 30 i :=
    fun i hi he => hpatch ⟨i, hi, he⟩
  have hslot : ∀ i < (trampolineBytes h.fromPtr (advance pe mem)).length,
      a ≠ trampolinePtr pe mem + BitVec.ofNat 30 i := by
    intro i hi he
    rw [hp.trampolinePtr_eq_slot] at he
    exact hown (he ▸ ownFrom_slot pe hlt hi)
  have hoffset : a ≠ pe.tmpExecMemoryOffset := by
    intro he
    refine hown (he ▸ ownFrom_offset pe ?_)
    simp only [tmpExecMemoryInsCount]
    omega
  have hcreate : (createTrampoline pe h.fromPtr mem).2 a = mem a := by
    rw [createTrampoline]
    dsimp only
    rw [applyWrites_block_frame hslot, advance, Function.update_of_ne hoffset]
  simp only [routeFunction]
  split
  · exact hcreate
  · exact (applyWrites_block_frame hfunction).trans hcreate

/-- The other functions are placed after it. -/
theorem Placed.tail (hp : Placed pe k (h :: hs) mem) :
    Placed pe (k + 1) hs (routeFunction pe h.fromPtr h.toPtr mem).2.2 := by
  have hroom := hp.room
  rw [List.length_cons] at hroom
  refine ⟨?_, by omega, fun g hg => hp.kept g (List.mem_cons_of_mem _ hg)⟩
  have hkept : ∀ i < (targetBytes h.toPtr).length, pe.tmpExecMemoryOffset ≠ wordAt h.fromPtr + BitVec.ofNat 30 i :=
    fun i hi he => hp.kept h List.mem_cons_self ⟨i, hi, he⟩
  have hcreate : ((createTrampoline pe h.fromPtr mem).2 pe.tmpExecMemoryOffset).toNat = 8 * (k + 1) := by
    rw [createTrampoline_offset hp.head_room, BitVec.toNat_add, hp.offset, show (8 : Word).toNat = 8 from rfl]
    omega
  simp only [routeFunction]
  split
  · exact hcreate
  · dsimp only
    rw [applyWrites_block_frame hkept]
    exact hcreate

theorem Routable.placed (hr : Routable pe k hs mem) : Placed pe k hs mem :=
  ⟨hr.offset, hr.room, fun h hh hpatch => hr.outside h hh _ hpatch (ownFrom_offset pe (Nat.zero_le _))⟩

theorem Routable.head_outside (hr : Routable pe k (h :: hs) mem) : Outside pe h.fromPtr mem := by
  have hout := hr.outside h List.mem_cons_self
  refine ⟨fun i hi he => ?_, fun i hi j hj he => ?_⟩
  · exact hout _ ⟨i, hi, rfl⟩ (he ▸ ownFrom_offset pe (Nat.zero_le _))
  · rw [hr.placed.trampolinePtr_eq_slot] at he
    exact hout _ ⟨i, hi, rfl⟩ (he ▸ OwnFrom.mono (Nat.zero_le _) (ownFrom_slot pe hr.placed.lt hj))

theorem Routable.success (hr : Routable pe k (h :: hs) mem) :
    (routeFunction pe h.fromPtr h.toPtr mem).1 = .success := by
  have hne : (createTrampoline pe h.fromPtr mem).1 ≠ 0 := by
    intro hzero
    have hslot : wordAt (addressOf (trampolinePtr pe mem)) = 0 := congrArg wordAt hzero
    rw [wordAt_addressOf, hr.placed.trampolinePtr_eq_slot] at hslot
    refine hr.nonzero (8 * k) ?_ hslot
    have hlt := hr.placed.lt
    simp only [tmpExecMemoryInsCount]
    omega
  simp only [routeFunction]
  rw [if_neg hne]

/-- **What a call does**: it hooks its function, advances the offset, and changes nothing else. -/
theorem Routable.call (hr : Routable pe k (h :: hs) mem) :
    (routeFunction pe h.fromPtr h.toPtr mem).2.1 = addressOf (pe.slot k) ∧
      Hooked pe k h mem (routeFunction pe h.fromPtr h.toPtr mem).2.2 ∧
      ((routeFunction pe h.fromPtr h.toPtr mem).2.2 pe.tmpExecMemoryOffset).toNat = 8 * (k + 1) ∧
      ∀ a, ¬ pe.OwnFrom (8 * k) a → ¬ h.Patches a → (routeFunction pe h.fromPtr h.toPtr mem).2.2 a = mem a := by
  have htramp : CodeAt (applyWrites (createTrampoline pe h.fromPtr mem).2
      (block (wordAt h.fromPtr) (targetBytes h.toPtr))) (trampolinePtr pe mem)
      (loadWords (h.fromPtr + 16) ++ (prologue mem h.fromPtr ++ [0x4E800420])) := codeAt_trampoline hr.head_outside
  have hhooked : (routeFunction pe h.fromPtr h.toPtr mem).2.1 = addressOf (pe.slot k) ∧
      Hooked pe k h mem (routeFunction pe h.fromPtr h.toPtr mem).2.2 := by
    rw [routeFunction_success hr.success]
    rw [hr.placed.trampolinePtr_eq_slot] at htramp ⊢
    exact ⟨rfl, codeAt_target _ _ _, htramp⟩
  exact ⟨hhooked.1, hhooked.2, hr.placed.tail.offset, fun a => hr.placed.frame⟩

theorem HookRoute.prologue_congr (heq : ∀ a, h.Patches a → mem' a = mem a) :
    prologue mem' h.fromPtr = prologue mem h.fromPtr := by
  have h0 : mem' (wordAt h.fromPtr) = mem (wordAt h.fromPtr) := heq _ ⟨0, by decide, (BitVec.add_zero _).symm⟩
  have h1 : mem' (wordAt h.fromPtr + 1) = mem (wordAt h.fromPtr + 1) := heq _ ⟨1, by decide, rfl⟩
  have h2 : mem' (wordAt h.fromPtr + 2) = mem (wordAt h.fromPtr + 2) := heq _ ⟨2, by decide, rfl⟩
  have h3 : mem' (wordAt h.fromPtr + 3) = mem (wordAt h.fromPtr + 3) := heq _ ⟨3, by decide, rfl⟩
  rw [prologue, prologue, h0, h1, h2, h3]

/-- A hook stays as long as its words do. -/
theorem Hooked.congr (hh : Hooked pe k h old mem) (hpatch : ∀ a, h.Patches a → mem' a = mem a)
    (hslot : ∀ i < 8, mem' (pe.slot k + BitVec.ofNat 30 i) = mem (pe.slot k + BitVec.ofNat 30 i)) :
    Hooked pe k h old mem' :=
  ⟨hh.target.congr fun i hi => hpatch _ ⟨i, hi, rfl⟩, hh.trampoline.congr hslot⟩

/-- The other functions can be hooked afterwards. -/
theorem Routable.tail (hr : Routable pe k (h :: hs) mem) :
    Routable pe (k + 1) hs (routeFunction pe h.fromPtr h.toPtr mem).2.2 := by
  have hroom := hr.room
  rw [List.length_cons] at hroom
  exact ⟨hr.call.2.2.1, by omega, hr.nonzero, fun g hg => hr.outside g (List.mem_cons_of_mem _ hg), hr.apart.of_cons⟩

end Call

/-! ## All calls -/

section Calls

variable {pe : XenonPE} {k : ℕ} {hs : List HookRoute} {mem : Memory}

/-- **Frame.** -/
theorem Routable.frame (hr : Routable pe k hs mem) {a : Address} (hown : ¬ pe.OwnFrom (8 * k) a)
    (hpatch : ∀ h ∈ hs, ¬ h.Patches a) : (routeAll pe hs mem).2 a = mem a := by
  induction hs generalizing k mem with
  | nil => rfl
  | cons h hs ih =>
    rw [List.forall_mem_cons] at hpatch
    have hrest := ih hr.tail (fun hlater => hown (OwnFrom.mono (by omega) hlater)) hpatch.2
    exact hrest.trans (hr.call.2.2.2 a hown hpatch.1)

theorem Routable.results (hr : Routable pe k hs mem) : (routeAll pe hs mem).1 =
    (List.range' k hs.length).map fun j => (IOReturn.success, addressOf (pe.slot j)) := by
  induction hs generalizing k mem with
  | nil => rfl
  | cons h hs ih =>
    rw [List.length_cons, List.range'_succ, List.map_cons, ← ih hr.tail, ← hr.call.1, ← hr.success]
    rfl

/-- **Every function is hooked** in the memory at the end. -/
theorem Routable.hooked (hr : Routable pe k hs mem) (j : ℕ) (hj : j < hs.length) :
    Hooked pe (k + j) hs[j] mem (routeAll pe hs mem).2 := by
  induction hs generalizing k mem j with
  | nil => cases hj
  | cons h hs ih =>
    cases j with
    | zero =>
      -- the calls after it leave the words of the first hook alone
      refine hr.call.2.1.congr (fun a ha => hr.tail.frame ?_ ?_) (fun i hi => hr.tail.frame ?_ ?_)
      · exact fun hown => hr.outside h List.mem_cons_self a ha (OwnFrom.mono (Nat.zero_le _) hown)
      · exact fun g hg => (List.rel_of_pairwise_cons hr.apart hg) a ha
      · rintro ⟨n, hn, hle, he⟩
        have hlt := hr.placed.lt
        simp only [tmpExecMemoryInsCount] at hle
        rw [XenonPE.slot, add_ofNat_ofNat] at he
        have := add_ofNat_inj (by omega) (by omega) he
        omega
      · intro g hg hpatch
        exact hr.outside g (List.mem_cons_of_mem _ hg) _ hpatch
          (OwnFrom.mono (Nat.zero_le _) (ownFrom_slot pe hr.placed.lt hi))
    | succ j =>
      have hj' : j < hs.length := Nat.lt_of_succ_lt_succ hj
      have hg : hs[j] ∈ hs := List.getElem_mem hj'
      obtain ⟨htarget, htramp⟩ := ih hr.tail j hj'
      -- its prologue is the one from before the first call
      have hprologue : prologue (routeFunction pe h.fromPtr h.toPtr mem).2.2 hs[j].fromPtr =
          prologue mem hs[j].fromPtr := by
        refine HookRoute.prologue_congr fun a ha => hr.call.2.2.2 a ?_ ?_
        · exact fun hown => hr.outside _ (List.mem_cons_of_mem _ hg) a ha (OwnFrom.mono (Nat.zero_le _) hown)
        · exact fun hpatch => List.rel_of_pairwise_cons hr.apart hg a hpatch ha
      rw [hprologue, show k + 1 + j = k + (j + 1) by omega] at htramp
      exact ⟨htarget, htramp⟩

end Calls

/-! ## Execution -/

section Execution

variable {σ : Type u} {isa : Isa σ} {pe : XenonPE} {hs : List HookRoute} {mem : Memory}

/-- What a function to be hooked begins with: four words that do not branch, leave CTR alone and do not read r0 before
they write it. -/
structure PlainPrologue (isa : Isa σ) (mem : Memory) (fromPtr : Word) (r : Regs σ) : Prop where
  straight : ∀ w ∈ prologue mem fromPtr, isBranch w = false
  ctr : ∀ w ∈ prologue mem fromPtr, IgnoresCtr isa w
  r0 : R0Fresh isa (prologue mem fromPtr) r

/-- Executing a hooked function, and its trampoline, in the memory `mem'` that the calls leave. -/
structure HookRuns (isa : Isa σ) (mem mem' : Memory) (h : HookRoute) (trampoline : Word) (r : Regs σ) : Prop where
  target : ∃ n x c, (step isa mem')^[n] ⟨r, wordAt h.fromPtr⟩ = ⟨(r.setGpr 0 x).setCtr c, wordAt h.toPtr⟩
  trampoline : ∃ u, (step isa mem)^[4] ⟨r, wordAt h.fromPtr⟩ = ⟨u, wordAt (h.fromPtr + 16)⟩ ∧
    ∃ n x c, (step isa mem')^[n] ⟨r, wordAt trampoline⟩ = ⟨(u.setGpr 0 x).setCtr c, wordAt (h.fromPtr + 16)⟩ ∧
      (WritesR0 isa (prologue mem h.fromPtr) r → x = u.gpr 0)

theorem codeAt_prologue (mem : Memory) (fromPtr : Word) : CodeAt mem (wordAt fromPtr) (prologue mem fromPtr) := by
  refine ⟨rfl, rfl, ?_, ?_, trivial⟩
  · rw [BitVec.add_assoc]
    rfl
  · rw [BitVec.add_assoc, BitVec.add_assoc]
    rfl

theorem Hooked.runs {k : ℕ} {h : HookRoute} {mem' : Memory} {r : Regs σ} (hh : Hooked pe k h mem mem')
    (hp : PlainPrologue isa mem h.fromPtr r) : HookRuns isa mem mem' h (addressOf (pe.slot k)) r := by
  refine ⟨?_, runWords isa (prologue mem h.fromPtr) r, ?_, ?_⟩
  · have htarget : CodeAt mem' (wordAt h.fromPtr) (loadWords h.toPtr ++ ([] ++ [0x4E800420])) := hh.target
    obtain ⟨n, y, hn, -⟩ := run_load_jump htarget (List.forall_mem_nil _) (List.forall_mem_nil _)
      (trivial : R0Fresh isa [] r)
    exact ⟨n, y, _, hn⟩
  · rw [wordAt_add_sixteen]
    exact iterate_step_straight (codeAt_prologue mem h.fromPtr) hp.straight
  · rw [wordAt_addressOf]
    obtain ⟨n, y, hn, hw⟩ := run_load_jump hh.trampoline hp.straight hp.ctr hp.r0
    exact ⟨n, y, _, hn, hw⟩

theorem Routable.runs (isa : Isa σ) (hr : Routable pe 0 hs mem) (k : ℕ) (hk : k < hs.length) :
    ∃ trampoline, (routeAll pe hs mem).1[k]? = some (.success, trampoline) ∧
      ∀ r, PlainPrologue isa mem hs[k].fromPtr r → HookRuns isa mem (routeAll pe hs mem).2 hs[k] trampoline r := by
  refine ⟨addressOf (pe.slot k), ?_, fun r hp => ?_⟩
  · rw [hr.results]
    simp [hk]
  · have hh := hr.hooked k hk
    rw [Nat.zero_add] at hh
    exact hh.runs hp

/-- **All hooks run**, and the rest of the memory is as it was. -/
theorem hooks_run (isa : Isa σ) (hr : Routable pe 0 hs mem) :
    (∀ a, ¬ pe.OwnFrom 0 a → (∀ h ∈ hs, ¬ h.Patches a) → (routeAll pe hs mem).2 a = mem a) ∧
      (routeAll pe hs mem).1.length = hs.length ∧
      ∀ k (hk : k < hs.length), ∃ trampoline, (routeAll pe hs mem).1[k]? = some (.success, trampoline) ∧
        ∀ r, PlainPrologue isa mem hs[k].fromPtr r →
          HookRuns isa mem (routeAll pe hs mem).2 hs[k] trampoline r := by
  refine ⟨fun a hown hpatch => hr.frame hown hpatch, ?_, hr.runs isa⟩
  rw [hr.results, List.length_map, List.length_range']

/-! ## Two functions -/

/-- The words of `linkMemory`, at 0x2000 and at 0x3000. -/
def twoMemory : Memory := fun a => if a.toNat < 0xC00 then linkMemory a else linkMemory (a - 0x400)

def twoHooks : List HookRoute := [⟨0x2000, 0x80000000⟩, ⟨0x3000, 0x80000100⟩]

theorem toNat_add_ofNat {a : Address} {i : ℕ} (h : a.toNat + i < 2 ^ 30) :
    (a + BitVec.ofNat 30 i).toNat = a.toNat + i := by
  rw [BitVec.toNat_add, BitVec.toNat_ofNat]
  omega

theorem plainPrologue_link {mem : Memory} {fromPtr : Word}
    (h : prologue mem fromPtr = [0x7C0802A6, 0x3D601234, 0x616B5678, 0x7D8802A6]) :
    PlainPrologue linkIsa mem fromPtr linkRegs := by
  have hsets : SetsR0 linkIsa 0x7C0802A6 linkRegs := fun x => Regs.setGpr_setGpr linkRegs 0 x 0x3000
  refine ⟨?_, ?_, ?_⟩ <;> rw [h]
  · simp only [List.forall_mem_cons, List.not_mem_nil, false_imp_iff, implies_true, and_true]
    exact ⟨rfl, rfl, rfl, rfl⟩
  · simp only [List.forall_mem_cons, List.not_mem_nil, false_imp_iff, implies_true, and_true]
    exact ⟨fun _ _ => rfl, fun _ _ => rfl, fun _ _ => rfl, fun _ _ => rfl⟩
  · exact Or.inl hsets

theorem ownFrom_le {i n : ℕ} {a : Address} (hn : pe.tmpExecMemory.toNat = n) (hlt : n + tmpExecMemoryInsCount < 2 ^ 30)
    (h : pe.OwnFrom i a) : n ≤ a.toNat := by
  obtain ⟨j, -, hj, rfl⟩ := h
  rw [toNat_add_ofNat (by omega)]
  omega

theorem HookRoute.Patches.bounds {h : HookRoute} {n : ℕ} {a : Address} (ha : h.Patches a)
    (hn : (wordAt h.fromPtr).toNat = n) (hlt : n + 4 < 2 ^ 30) : n ≤ a.toNat ∧ a.toNat < n + 4 := by
  obtain ⟨i, hi, rfl⟩ := ha
  rw [toNat_add_ofNat (by omega)]
  omega

/-- An object that does not lie at the end of the memory. -/
theorem tmpExecMemory_ne {n i : ℕ} (hn : pe.tmpExecMemory.toNat = n) (hpos : 0 < n)
    (hlt : n + tmpExecMemoryInsCount < 2 ^ 30) (hi : i < tmpExecMemoryInsCount) :
    pe.tmpExecMemory + BitVec.ofNat 30 i ≠ 0 := by
  intro he
  have hzero := congrArg BitVec.toNat he
  rw [toNat_add_ofNat (by omega), show (0 : Address).toNat = 0 from rfl] at hzero
  omega

/-- Functions below the object, in the order of their addresses. -/
theorem routable_sorted {n : ℕ} (hn : pe.tmpExecMemory.toNat = n) (hpos : 0 < n)
    (hlt : n + tmpExecMemoryInsCount < 2 ^ 30) (hoffset : (mem pe.tmpExecMemoryOffset).toNat = 0)
    (hroom : hs.length ≤ 32) (hbelow : ∀ h ∈ hs, (wordAt h.fromPtr).toNat + 4 ≤ n)
    (hsorted : hs.Pairwise fun g h => (wordAt g.fromPtr).toNat + 4 ≤ (wordAt h.fromPtr).toNat) :
    Routable pe 0 hs mem where
  offset := hoffset
  room := by rwa [Nat.zero_add]
  nonzero i hi := tmpExecMemory_ne hn hpos hlt hi
  outside h hh a ha hown := by
    have hle := ownFrom_le hn hlt hown
    have hbounds := ha.bounds rfl (Nat.lt_of_le_of_lt (hbelow h hh) (by omega))
    have hend := hbelow h hh
    omega
  apart := by
    refine hsorted.imp_of_mem fun {g h} hg hh hle a ha hb => ?_
    have hfirst := ha.bounds rfl (Nat.lt_of_le_of_lt (hbelow g hg) (by omega))
    have hsecond := hb.bounds rfl (Nat.lt_of_le_of_lt (hbelow h hh) (by omega))
    omega

theorem routable_two : Routable ⟨0x1000⟩ 0 twoHooks twoMemory :=
  routable_sorted rfl (by decide) (by decide) rfl (by decide) (by decide) (by decide)

/-- The second function keeps its trampoline beside the first. -/
theorem hooks_run_two : ∃ trampoline, (routeAll ⟨0x1000⟩ twoHooks twoMemory).1[1]? = some (.success, trampoline) ∧
    HookRuns linkIsa twoMemory (routeAll ⟨0x1000⟩ twoHooks twoMemory).2 ⟨0x3000, 0x80000100⟩ trampoline linkRegs := by
  obtain ⟨trampoline, hresult, hruns⟩ := (hooks_run linkIsa routable_two).2.2 1 (by decide)
  exact ⟨trampoline, hresult, hruns linkRegs (plainPrologue_link rfl)⟩

end Execution

end Osx360.Platform
