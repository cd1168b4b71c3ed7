import Osx360.Lib.Bits
import Osx360.Lib.Run
import Osx360.Lib.Writes

/-!
# The function patcher

`createTrampoline` and `routeFunction` from `XenonPE_Patcher.cpp`, over the kernel's memory of 32-bit words. Neither
checks that `_tmpExecMemory` has room: the trampolines are inside it and apart from each other exactly in the runs whose
every call finds room for one (`trampolines_safe_iff`), which are those of at most 32 calls (`room_iff_length_le`).
-/

set_option autoImplicit false

namespace Osx360.Platform

open Osx360.Lib

/-! ## Memory -/

/-- The number of a word in the 32-bit address space. -/
abbrev Address := BitVec 30

/-- The kernel's memory. It is mapped one to one, so a write to the physical address of a word is a write to it. -/
abbrev Memory := Address → Word

/-- The word at a byte address. -/
def wordAt (a : Word) : Address := a.extractLsb' 2 30

/-- The byte address of a word. -/
def addressOf (a : Address) : Word := a ++ 0#2

/-- `kXenonPETempExecMemoryInsCount`. -/
def tmpExecMemoryInsCount : ℕ := 256

/-- Where the object is: `_tmpExecMemory`, `_tmpExecMemoryOffset`, the three function pointers and the four `_org`
fields follow each other. -/
structure XenonPE where
  tmpExecMemory : Address

/-- The place of `_tmpExecMemoryOffset`. -/
def XenonPE.tmpExecMemoryOffset (pe : XenonPE) : Address := pe.tmpExecMemory + BitVec.ofNat 30 tmpExecMemoryInsCount

/-! ## The functions -/

inductive IOReturn
  | success
  | internalError
  deriving DecidableEq

/-- `&_tmpExecMemory[_tmpExecMemoryOffset]`. -/
def trampolinePtr (pe : XenonPE) (mem : Memory) : Address :=
  pe.tmpExecMemory + (mem pe.tmpExecMemoryOffset).setWidth 30

def trampolineBytes (fromPtr : Word) (mem : Memory) : List Word :=
  [(0x3C000000 : Word) ||| (fromPtr + 16) >>> 16, (0x60000000 : Word) ||| (fromPtr + 16) &&& 0xFFFF, 0x7C0903A6,
    mem (wordAt fromPtr), mem (wordAt fromPtr + 1), mem (wordAt fromPtr + 2), mem (wordAt fromPtr + 3), 0x4E800420]

/-- The memory once `_tmpExecMemoryOffset` has been advanced. -/
def advance (pe : XenonPE) (mem : Memory) : Memory :=
  Function.update mem pe.tmpExecMemoryOffset (mem pe.tmpExecMemoryOffset + 8)

/-- What it returns, and the memory. -/
def createTrampoline (pe : XenonPE) (fromPtr : Word) (mem : Memory) : Word × Memory :=
  (addressOf (trampolinePtr pe mem),
    applyWrites (advance pe mem) (block (trampolinePtr pe mem) (trampolineBytes fromPtr (advance pe mem))))

def targetBytes (toPtr : Word) : List Word :=
  [(0x3C000000 : Word) ||| toPtr >>> 16, (0x60000000 : Word) ||| toPtr &&& 0xFFFF, 0x7C0903A6, 0x4E800420]

/-- What it returns, `*trampoline`, and the memory. -/
def routeFunction (pe : XenonPE) (fromPtr toPtr : Word) (mem : Memory) : IOReturn × Word × Memory :=
  let (trampoline, mem) := createTrampoline pe fromPtr mem
  if trampoline = 0 then (.internalError, trampoline, mem)
  else (.success, trampoline, applyWrites mem (block (wordAt fromPtr) (targetBytes toPtr)))

/-! ## Runs -/

inductive PatcherLabel
  | create (fromPtr : Word)
  | route (fromPtr toPtr : Word)

/-- The memory, and where the trampolines so far are. -/
structure PatcherWorld where
  mem : Memory
  trampolines : List Address

/-- The memory after a call. -/
def PatcherLabel.exec (pe : XenonPE) (mem : Memory) : PatcherLabel → Memory
  | .create fromPtr => (createTrampoline pe fromPtr mem).2
  | .route fromPtr toPtr => (routeFunction pe fromPtr toPtr mem).2.2

/-- A call reports failure. -/
def PatcherLabel.Fails (pe : XenonPE) (mem : Memory) : PatcherLabel → Prop
  | .create fromPtr => (createTrampoline pe fromPtr mem).1 = 0
  | .route fromPtr toPtr => (routeFunction pe fromPtr toPtr mem).1 ≠ .success

inductive PatcherStep (pe : XenonPE) : PatcherWorld → PatcherLabel → PatcherWorld → Prop
  | call (w : PatcherWorld) (l : PatcherLabel) :
      PatcherStep pe w l ⟨l.exec pe w.mem, w.trampolines ++ [trampolinePtr pe w.mem]⟩

/-- A new object. -/
def PatcherInit (pe : XenonPE) (w : PatcherWorld) : Prop := w.mem pe.tmpExecMemoryOffset = 0 ∧ w.trampolines = []

/-- There is room for a whole trampoline. -/
def Room (pe : XenonPE) (mem : Memory) : Prop := (mem pe.tmpExecMemoryOffset).toNat + 8 ≤ tmpExecMemoryInsCount

/-- The words of a trampoline. -/
def trampolineWords (a : Address) : List Address := (List.range 8).map fun i => a + BitVec.ofNat 30 i

/-- One call writes its trampoline inside the trampoline memory and apart from the ones before, or fails and changes
nothing. -/
structure TrampolineSafe (pe : XenonPE) (e : Edge PatcherWorld PatcherLabel) : Prop where
  inside : ∀ a ∈ trampolineWords (trampolinePtr pe e.pre.mem), ∃ i < tmpExecMemoryInsCount,
    a = pe.tmpExecMemory + BitVec.ofNat 30 i
  apart : ∀ t ∈ e.pre.trampolines, ∀ a ∈ trampolineWords (trampolinePtr pe e.pre.mem), a ∉ trampolineWords t
  full : ¬ Room pe e.pre.mem → e.label.Fails pe e.pre.mem ∧ e.post.mem = e.pre.mem

/-! ## The offset -/

/-- What holds after calls that all found room: where there is still room, the trampolines lie before the offset; and
an offset without room is not inside by wrapping around. -/
structure PatcherInv (pe : XenonPE) (w : PatcherWorld) : Prop where
  before : Room pe w.mem → ∀ t ∈ w.trampolines, ∃ o, t = pe.tmpExecMemory + BitVec.ofNat 30 o ∧
    o + 8 ≤ (w.mem pe.tmpExecMemoryOffset).toNat
  far : (w.mem pe.tmpExecMemoryOffset).toNat % 2 ^ 30 + 8 ≤ tmpExecMemoryInsCount → Room pe w.mem

section Offset

variable {pe : XenonPE} {mem : Memory} {w v : PatcherWorld} {l : PatcherLabel} {a : Address}

theorem trampolinePtr_eq (pe : XenonPE) (mem : Memory) :
    trampolinePtr pe mem = pe.tmpExecMemory + BitVec.ofNat 30 (mem pe.tmpExecMemoryOffset).toNat := by
  rw [trampolinePtr, BitVec.ofNat_toNat]

theorem add_ofNat_ofNat (a : Address) (i j : ℕ) :
    a + BitVec.ofNat 30 i + BitVec.ofNat 30 j = a + BitVec.ofNat 30 (i + j) := by
  rw [BitVec.add_assoc, BitVec.ofNat_add]

theorem ofNat_mod (i : ℕ) : BitVec.ofNat 30 i = BitVec.ofNat 30 (i % 2 ^ 30) :=
  BitVec.eq_of_toNat_eq (by simp)

theorem mem_trampolineWords {t : Address} : a ∈ trampolineWords t ↔ ∃ i < 8, t + BitVec.ofNat 30 i = a := by
  simp [trampolineWords]

theorem length_trampolineBytes (fromPtr : Word) (mem : Memory) : (trampolineBytes fromPtr mem).length = 8 := rfl

/-- The trampoline is in memory where the pointer says. -/
theorem createTrampoline_word {fromPtr : Word} {i : ℕ} (hi : i < (trampolineBytes fromPtr (advance pe mem)).length) :
    (createTrampoline pe fromPtr mem).2 (trampolinePtr pe mem + BitVec.ofNat 30 i) =
      (trampolineBytes fromPtr (advance pe mem))[i] := by
  simp only [createTrampoline]
  exact applyWrites_block hi (by rw [length_trampolineBytes]; decide)

/-- A trampoline with room leaves the offset alone. -/
theorem createTrampoline_offset (h : Room pe mem) (fromPtr : Word) :
    (createTrampoline pe fromPtr mem).2 pe.tmpExecMemoryOffset = mem pe.tmpExecMemoryOffset + 8 := by
  simp only [Room, tmpExecMemoryInsCount] at h
  have hframe : ∀ i < (trampolineBytes fromPtr (advance pe mem)).length,
      pe.tmpExecMemoryOffset ≠ trampolinePtr pe mem + BitVec.ofNat 30 i := by
    intro i hi he
    rw [length_trampolineBytes] at hi
    rw [trampolinePtr_eq, add_ofNat_ofNat] at he
    have := add_ofNat_inj (i := tmpExecMemoryInsCount) (by decide) (by omega) he
    simp only [tmpExecMemoryInsCount] at this
    omega
  simp only [createTrampoline]
  rw [applyWrites_block_frame hframe, advance, Function.update_self]

/-- A word with bit 29 set is a large number of 30 bits. -/
theorem le_of_bit {x : Word} (h : x.getLsbD 29 = true) : 2 ^ 29 ≤ x.toNat % 2 ^ 30 :=
  Nat.ge_two_pow_of_testBit (by rw [Nat.testBit_mod_two_pow]; simpa [BitVec.getLsbD] using h)

/-- The jump's words are no offsets. -/
theorem le_of_mem_targetBytes {x toPtr : Word} (h : x ∈ targetBytes toPtr) : 2 ^ 27 ≤ x.toNat % 2 ^ 30 := by
  simp only [targetBytes, List.mem_cons, List.not_mem_nil, or_false] at h
  rcases h with rfl | rfl | rfl | rfl
  · exact Nat.le_trans (by decide) (le_of_bit (by rw [BitVec.getLsbD_or]; rfl))
  · exact Nat.le_trans (by decide) (le_of_bit (by rw [BitVec.getLsbD_or]; rfl))
  · decide
  · decide

/-- The offset after a call with room: one trampoline on, or a word of the jump that was written over it. -/
theorem exec_offset (h : Room pe mem) (l : PatcherLabel) :
    (l.exec pe mem pe.tmpExecMemoryOffset).toNat = (mem pe.tmpExecMemoryOffset).toNat + 8 ∨
      2 ^ 27 ≤ (l.exec pe mem pe.tmpExecMemoryOffset).toNat % 2 ^ 30 := by
  have hadd : (mem pe.tmpExecMemoryOffset + 8).toNat = (mem pe.tmpExecMemoryOffset).toNat + 8 := by
    simp only [Room, tmpExecMemoryInsCount] at h
    rw [BitVec.toNat_add, show (8 : Word).toNat = 8 from rfl]
    omega
  cases l with
  | create fromPtr => exact Or.inl (by rw [PatcherLabel.exec, createTrampoline_offset h, hadd])
  | route fromPtr toPtr =>
    simp only [PatcherLabel.exec, routeFunction]
    split
    · exact Or.inl (by rw [createTrampoline_offset h, hadd])
    · rcases @applyWrites_eq_or _ _ _ (createTrampoline pe fromPtr mem).2
        (block (wordAt fromPtr) (targetBytes toPtr)) pe.tmpExecMemoryOffset with he | he
      · exact Or.inl (by rw [← hadd, ← createTrampoline_offset h fromPtr, ← he])
      · exact Or.inr (le_of_mem_targetBytes (mem_block he).1)

end Offset

/-! ## Steps -/

section Steps

variable {pe : XenonPE} {w v : PatcherWorld} {l : PatcherLabel}

theorem patcherInv_init (h : PatcherInit pe w) : PatcherInv pe w := by
  refine ⟨fun _ t ht => ?_, fun _ => ?_⟩
  · rw [h.2] at ht
    cases ht
  · rw [Room, h.1]
    decide

theorem patcherInv_step (h : PatcherInv pe w) (hroom : Room pe w.mem) (hs : PatcherStep pe w l v) :
    PatcherInv pe v := by
  cases hs
  have hoff := exec_offset hroom l
  refine ⟨fun hroom' t ht => ?_, fun hfar => ?_⟩
  · have hnew : (l.exec pe w.mem pe.tmpExecMemoryOffset).toNat = (w.mem pe.tmpExecMemoryOffset).toNat + 8 := by
      simp only [Room, tmpExecMemoryInsCount] at hroom'
      omega
    rcases List.mem_append.mp ht with ht | ht
    · obtain ⟨o, rfl, ho⟩ := h.before hroom t ht
      exact ⟨o, rfl, hnew ▸ Nat.le_add_right_of_le ho⟩
    · rw [List.mem_singleton.mp ht, trampolinePtr_eq]
      exact ⟨_, rfl, Nat.le_of_eq hnew.symm⟩
  · simp only [Room, tmpExecMemoryInsCount] at hroom hfar ⊢
    omega

/-- A trampoline with room. -/
theorem trampolineSafe_of_room (h : PatcherInv pe w) (hroom : Room pe w.mem) : TrampolineSafe pe ⟨w, l, v⟩ := by
  have hlt := hroom
  simp only [Room, tmpExecMemoryInsCount] at hlt
  refine ⟨fun a ha => ?_, fun t ht a ha hat => ?_, fun hn => absurd hroom hn⟩
  · obtain ⟨i, hi, rfl⟩ := mem_trampolineWords.mp ha
    refine ⟨(w.mem pe.tmpExecMemoryOffset).toNat + i, ?_, by rw [trampolinePtr_eq, add_ofNat_ofNat]⟩
    simp only [tmpExecMemoryInsCount]
    omega
  · obtain ⟨i, hi, rfl⟩ := mem_trampolineWords.mp ha
    obtain ⟨j, hj, he⟩ := mem_trampolineWords.mp hat
    obtain ⟨o, rfl, ho⟩ := h.before hroom t ht
    simp only [trampolinePtr_eq, add_ofNat_ofNat] at he
    have := add_ofNat_inj (by omega) (by omega) he
    omega

/-- A trampoline without room is not inside. -/
theorem not_trampolineSafe (h : PatcherInv pe w) (hroom : ¬ Room pe w.mem) : ¬ TrampolineSafe pe ⟨w, l, v⟩ := by
  intro hsafe
  have hfar := mt h.far hroom
  simp only [tmpExecMemoryInsCount] at hfar
  have hword : ∀ i, (w.mem pe.tmpExecMemoryOffset).toNat % 2 ^ 30 + i < 2 ^ 30 → i < 8 →
      (w.mem pe.tmpExecMemoryOffset).toNat % 2 ^ 30 + i < 256 := by
    intro i hlt hi
    obtain ⟨j, hj, he⟩ := hsafe.inside _ (mem_trampolineWords.mpr ⟨i, hi, rfl⟩)
    rw [trampolinePtr_eq, ofNat_mod, add_ofNat_ofNat] at he
    rw [add_ofNat_inj hlt (Nat.lt_trans hj (by decide)) he]
    exact hj
  have h0 := hword 0
  have h7 := hword 7
  omega

/-- **The trampolines are safe exactly in the runs whose every call finds room.** -/
theorem trampolines_safe_iff {es : List (Edge PatcherWorld PatcherLabel)}
    (h : Run (PatcherInit pe) (PatcherStep pe) es w) :
    (∀ e ∈ es, TrampolineSafe pe e) ↔ ∀ e ∈ es, Room pe e.pre.mem :=
  h.forall_iff (I := PatcherInv pe) (C := fun w _ => Room pe w.mem) (fun _ => patcherInv_init)
    (fun _ _ _ hi hc hs => ⟨patcherInv_step hi hc hs, trampolineSafe_of_room hi hc⟩)
    fun _ _ _ hi hc _ => not_trampolineSafe hi hc

end Steps

/-! ## How many calls there is room for -/

/-- The target of a call is not `_tmpExecMemoryOffset` itself. -/
def PatcherLabel.Apart (pe : XenonPE) : PatcherLabel → Prop
  | .create _ => True
  | .route fromPtr _ => ∀ i < 4, wordAt fromPtr + BitVec.ofNat 30 i ≠ pe.tmpExecMemoryOffset

section Count

variable {pe : XenonPE} {mem : Memory} {w : PatcherWorld} {es : List (Edge PatcherWorld PatcherLabel)}

theorem exec_offset_apart (h : Room pe mem) {l : PatcherLabel} (ha : l.Apart pe) :
    l.exec pe mem pe.tmpExecMemoryOffset = mem pe.tmpExecMemoryOffset + 8 := by
  cases l with
  | create fromPtr => exact createTrampoline_offset h fromPtr
  | route fromPtr toPtr =>
    simp only [PatcherLabel.exec, routeFunction]
    split
    · exact createTrampoline_offset h fromPtr
    · have hframe : ∀ i < (targetBytes toPtr).length, pe.tmpExecMemoryOffset ≠ wordAt fromPtr + BitVec.ofNat 30 i :=
        fun i hi he => ha i hi he.symm
      simp only [applyWrites_block_frame hframe, createTrampoline_offset h]

/-- After `n` calls the offset is `8 * n`, as long as there was room. -/
theorem offset_eq (h : Run (PatcherInit pe) (PatcherStep pe) es w) (ha : ∀ e ∈ es, e.label.Apart pe)
    (hn : es.length ≤ 32) :
    (w.mem pe.tmpExecMemoryOffset).toNat = 8 * es.length ∧ ∀ e ∈ es, Room pe e.pre.mem := by
  induction h with
  | start h0 => exact ⟨by rw [h0.1]; rfl, List.forall_mem_nil _⟩
  | @step es s t l hr hs ih =>
    rw [forall_snoc] at ha ⊢
    rw [List.length_append, List.length_singleton] at hn ⊢
    obtain ⟨hoff, hroom⟩ := ih ha.1 (by omega)
    have hnow : Room pe s.mem := by
      simp only [Room, tmpExecMemoryInsCount, hoff]
      omega
    cases hs
    refine ⟨?_, hroom, hnow⟩
    have hnext := congrArg BitVec.toNat (exec_offset_apart hnow ha.2)
    rw [BitVec.toNat_add, hoff, show (8 : Word).toNat = 8 from rfl] at hnext
    exact hnext.trans (by omega)

/-- **There is room for 32 trampolines.** -/
theorem room_iff_length_le (h : Run (PatcherInit pe) (PatcherStep pe) es w) (ha : ∀ e ∈ es, e.label.Apart pe) :
    (∀ e ∈ es, Room pe e.pre.mem) ↔ es.length ≤ 32 := by
  refine ⟨fun hroom => ?_, fun hn => (offset_eq h ha hn).2⟩
  induction h with
  | start => simp
  | step hr hs ih =>
    rw [forall_snoc] at ha hroom
    have hle := ih ha.1 hroom.1
    have hoff := (offset_eq hr ha.1 hle).1
    have hlast := hroom.2
    simp only [Room, tmpExecMemoryInsCount, hoff] at hlast
    rw [List.length_append, List.length_singleton]
    omega

/-- Any number of calls can be made. -/
theorem create_run (pe : XenonPE) (fromPtr : Word) (n : ℕ) :
    ∃ es w, Run (PatcherInit pe) (PatcherStep pe) es w ∧ es.length = n ∧ ∀ e ∈ es, e.label = .create fromPtr := by
  induction n with
  | zero => exact ⟨[], ⟨fun _ => 0, []⟩, .start ⟨rfl, rfl⟩, rfl, List.forall_mem_nil _⟩
  | succ n ih =>
    obtain ⟨es, w, hr, hlen, hl⟩ := ih
    refine ⟨_, _, hr.step (.call w (.create fromPtr)), ?_, forall_snoc.mpr ⟨hl, rfl⟩⟩
    rw [List.length_append, hlen, List.length_singleton]

theorem apart_of_create {fromPtr : Word} (h : ∀ e ∈ es, e.label = .create fromPtr) : ∀ e ∈ es, e.label.Apart pe := by
  intro e he
  rw [h e he]
  trivial

theorem trampolines_safe_single : ∃ es w, Run (PatcherInit ⟨0x1000⟩) (PatcherStep ⟨0x1000⟩) es w ∧
    es.length = 32 ∧ (∀ e ∈ es, e.label = .create 0x2000) ∧ ∀ e ∈ es, TrampolineSafe ⟨0x1000⟩ e := by
  obtain ⟨es, w, hr, hlen, hl⟩ := create_run ⟨0x1000⟩ 0x2000 32
  have hroom := (offset_eq hr (apart_of_create hl) (by omega)).2
  exact ⟨es, w, hr, hlen, hl, (trampolines_safe_iff hr).mpr hroom⟩

/-- The call after 32 trampolines writes over the offset. -/
theorem trampoline_overruns : ∃ es w, Run (PatcherInit ⟨0x1000⟩) (PatcherStep ⟨0x1000⟩) es w ∧
    es.length = 33 ∧ (∀ e ∈ es, e.label = .create 0x2000) ∧ ∃ e ∈ es, ¬ TrampolineSafe ⟨0x1000⟩ e ∧
      e.post.mem (XenonPE.tmpExecMemoryOffset ⟨0x1000⟩) = 0x3C000000 := by
  obtain ⟨es, w, hr, hlen, hl⟩ := create_run ⟨0x1000⟩ 0x2000 32
  obtain ⟨hoff, hroom⟩ := offset_eq hr (apart_of_create hl) (by omega)
  have hinv := hr.guarded (I := PatcherInv ⟨0x1000⟩) (C := fun w _ => Room ⟨0x1000⟩ w.mem) (fun _ => patcherInv_init)
    (fun _ _ _ => patcherInv_step) hroom
  have hfull : ¬ Room ⟨0x1000⟩ w.mem := by
    rw [Room, hoff, hlen]
    decide
  have hptr : trampolinePtr ⟨0x1000⟩ w.mem + BitVec.ofNat 30 0 = XenonPE.tmpExecMemoryOffset ⟨0x1000⟩ := by
    rw [trampolinePtr_eq, hoff, hlen]
    decide
  have hword :
      (PatcherLabel.create 0x2000).exec ⟨0x1000⟩ w.mem (XenonPE.tmpExecMemoryOffset ⟨0x1000⟩) = 0x3C000000 := by
    have hfirst : (createTrampoline ⟨0x1000⟩ 0x2000 w.mem).2
        (trampolinePtr ⟨0x1000⟩ w.mem + BitVec.ofNat 30 0) = _ := createTrampoline_word (Nat.zero_lt_succ _)
    rw [hptr] at hfirst
    rw [PatcherLabel.exec, hfirst]
    exact (by decide : (0x3C000000 ||| (0x2000 + 16) >>> 16 : Word) = 0x3C000000)
  refine ⟨_, _, hr.step (.call w (.create 0x2000)), by simp [hlen], forall_snoc.mpr ⟨hl, rfl⟩, ⟨w, .create 0x2000, _⟩,
    List.mem_append_right _ (List.mem_singleton_self _), not_trampolineSafe hinv hfull, ?_⟩
  dsimp only
  exact hword

end Count

end Osx360.Platform
