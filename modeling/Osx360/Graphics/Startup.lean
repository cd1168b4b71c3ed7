import Osx360.Graphics.CommandRing

/-!
# Startup

`XenosController::start` with `initShaders`, `initHardware` and `loadFirmware`, as the effects of a call and its result.
`loadFirmware` tells whether the firmware reads back as it was written (`loadFirmware_iff`), but `initHardware` does not
look at its result, nor `start` at that of `initHardware`: a failure of the hardware stops the startup only where
something else stopped it before (`start_stops_iff`).
-/

set_option autoImplicit false

namespace Osx360.Graphics

open Osx360.Lib

def xenosRegRbbmSoftReset : Word := 0x00F0
def xenosRegCpRbBase : Word := 0x0700
def xenosRegCpRbControl : Word := 0x0704
def xenosRegCpRbWritePtr : Word := 0x0714
def xenosRegCpIntAck : Word := 0x07D0
def xenosRegCpMeControl : Word := 0x07D8
def xenosRegCpMeRamWriteAddr : Word := 0x07E0
def xenosRegCpMeRamReadAddr : Word := 0x07E4
def xenosRegCpMeRamData : Word := 0x07E8
def xenosRegCpDebug : Word := 0x07F0
def xenosRegCpPfpFirmwareAddr : Word := 0x117C
def xenosRegCpPfpFirmwareData : Word := 0x1180
def xenosRegD1GrphPriSurfaceAddr : Word := 0x6110

inductive IOReturn
  | success
  | noMemory
  | noResources
  | ioError
  deriving DecidableEq

/-- The images of `XenosFirmware.hpp`. -/
structure XenosFirmware where
  sXenosFirmware0 : List Word
  sXenosFirmware1 : List Word

/-- What the calls of `start` give: which of them succeed, and the values of the registers, read after read. -/
structure Outcomes where
  superStart : Bool
  mmioMap : Bool
  texCoordsDesc : Bool
  triagDesc : Bool
  /-- The physical address of the ring buffer. -/
  ringBufferDesc : Option Word
  meRamData : ℕ → Word
  cpRbControl : ℕ → Word
  timerWorkLoop : Bool
  timerEventSource : Bool
  stopFB : Bool

/-- What a call does to the hardware and to the platform. `mapped` tells whether there is a ring buffer behind the
pointer that is written through. -/
inductive Effect
  | writeReg32 (reg data : Word)
  | readReg32 (reg : Word)
  | ring (mapped : Bool) (op : DriverOp)
  | stopFB (stopped : Bool)

/-! ## The functions -/

def initShaders (o : Outcomes) : IOReturn :=
  if !o.texCoordsDesc then .noMemory
  else if !o.triagDesc then .noMemory
  else .success

/-- The loop that reads the firmware back, from word `i` on; it ends at the first that differs. -/
def readBack (meRamData : ℕ → Word) : ℕ → List Word → List Effect × IOReturn
  | _, [] => ([], .success)
  | i, word :: image =>
    if meRamData i ≠ word then ([.readReg32 xenosRegCpMeRamData], .ioError)
    else
      let r := readBack meRamData (i + 1) image
      (.readReg32 xenosRegCpMeRamData :: r.1, r.2)

def loadFirmware (fw : XenosFirmware) (o : Outcomes) : List Effect × IOReturn :=
  let r := readBack o.meRamData 0 fw.sXenosFirmware1
  (.writeReg32 xenosRegCpPfpFirmwareAddr 0 :: fw.sXenosFirmware0.map (.writeReg32 xenosRegCpPfpFirmwareData) ++
    .writeReg32 xenosRegCpPfpFirmwareAddr 0 ::
      fw.sXenosFirmware0.map (fun _ => .readReg32 xenosRegCpPfpFirmwareData) ++
    .writeReg32 xenosRegCpMeRamWriteAddr 0 :: fw.sXenosFirmware1.map (.writeReg32 xenosRegCpMeRamData) ++
    .writeReg32 xenosRegCpMeRamReadAddr 0 :: r.1, r.2)

/-- `syncRingBuffer` publishes the write pointer, of which the ring keeps account. -/
def initHardware (fw : XenosFirmware) (o : Outcomes) : List Effect × IOReturn :=
  match o.ringBufferDesc with
  | none => ([], .noResources)
  | some ringBufferPhys =>
    (.writeReg32 xenosRegCpMeControl (1 <<< 28) :: (loadFirmware fw o).1 ++
      [.writeReg32 xenosRegCpIntAck 0xFFFF, .writeReg32 xenosRegCpDebug 0,
        .writeReg32 xenosRegRbbmSoftReset 1, .writeReg32 xenosRegRbbmSoftReset 0,
        .readReg32 xenosRegCpRbControl, .writeReg32 xenosRegCpRbControl (o.cpRbControl 0 ||| 0x80000000),
        .writeReg32 xenosRegCpRbWritePtr 0,
        .readReg32 xenosRegCpRbControl, .writeReg32 xenosRegCpRbControl (o.cpRbControl 1 &&& ~~~0x80000000),
        .writeReg32 xenosRegCpRbControl (0xC ||| 0x8020000), .writeReg32 xenosRegCpRbBase ringBufferPhys,
        .writeReg32 xenosRegCpMeControl 0] ++
      initME.map (fun word => .ring true (.writeRing word)) ++ [.ring true .syncRingBuffer], .success)

/-- The calls of `start` once the shaders are there; what `initHardware` returns is not looked at. -/
def startHardware (fw : XenosFirmware) (s : XenosSetup) (o : Outcomes) : List Effect :=
  (initHardware fw o).1 ++ (initFramebuffer s).map fun word => .ring o.ringBufferDesc.isSome (.writeRing word)

def start (fw : XenosFirmware) (s : XenosSetup) (o : Outcomes) : List Effect × Bool :=
  if !o.superStart then ([], false)
  else if !o.mmioMap then ([], false)
  else
    let surface := [.readReg32 xenosRegD1GrphPriSurfaceAddr]
    if initShaders o ≠ .success then (surface, false)
    else
      let hardware := surface ++ startHardware fw s o
      if !o.timerWorkLoop then (hardware, false)
      else if !o.timerEventSource then (hardware, false)
      else if !o.stopFB then (hardware ++ [.stopFB false], false)
      else (hardware ++ [.stopFB true], true)

/-! ## The firmware -/

section Firmware

variable {fw : XenosFirmware} {o : Outcomes}

theorem readBack_iff (meRamData : ℕ → Word) (image : List Word) (i : ℕ) :
    (readBack meRamData i image).2 = .success ↔ ∀ k (h : k < image.length), meRamData (i + k) = image[k] := by
  induction image generalizing i with
  | nil => simp [readBack]
  | cons word image ih =>
    rw [readBack]
    by_cases hword : meRamData i = word
    · rw [if_neg (not_not_intro hword)]
      refine (ih (i + 1)).trans ⟨fun h k hk => ?_, fun h k hk => ?_⟩
      · cases k with
        | zero => exact hword
        | succ k =>
          have hk' := h k (Nat.lt_of_succ_lt_succ hk)
          rwa [Nat.add_assoc, Nat.add_comm 1] at hk'
      · rw [Nat.add_assoc, Nat.add_comm 1]
        exact h (k + 1) (Nat.succ_lt_succ hk)
    · rw [if_pos hword]
      simp only [reduceCtorEq, false_iff]
      exact fun h => hword (h 0 (Nat.zero_lt_succ _))

/-- **`loadFirmware` finds every word that differs.** -/
theorem loadFirmware_iff : (loadFirmware fw o).2 = .success ↔
    ∀ k (h : k < fw.sXenosFirmware1.length), o.meRamData k = fw.sXenosFirmware1[k] := by
  have h := readBack_iff o.meRamData fw.sXenosFirmware1 0
  simp only [Nat.zero_add] at h
  exact h

end Firmware

/-! ## The result of a start -/

/-- There is no ring buffer, or a word of the firmware reads back with another value. -/
def HardwareFails (fw : XenosFirmware) (o : Outcomes) : Prop :=
  o.ringBufferDesc = none ∨ ∃ k, ∃ h : k < fw.sXenosFirmware1.length, o.meRamData k ≠ fw.sXenosFirmware1[k]

def Effect.writesRing : Effect → Bool
  | .ring _ (.writeRing _) => true
  | _ => false

def Effect.stops : Effect → Bool
  | .stopFB stopped => stopped
  | _ => false

/-- The startup failed and left the ring buffer and the platform's framebuffer alone. -/
structure Stopped (r : List Effect × Bool) : Prop where
  result : r.2 = false
  ring : ∀ e ∈ r.1, e.writesRing = false
  refresh : ∀ e ∈ r.1, e.stops = false

/-- `start` does not come to `initHardware`. -/
def EndsBefore (o : Outcomes) : Prop :=
  o.superStart = false ∨ o.mmioMap = false ∨ o.texCoordsDesc = false ∨ o.triagDesc = false

section Start

variable {fw : XenosFirmware} {s : XenosSetup} {o : Outcomes}

theorem initShaders_iff : initShaders o = .success ↔ o.texCoordsDesc = true ∧ o.triagDesc = true := by
  unfold initShaders
  cases o.texCoordsDesc <;> cases o.triagDesc <;> simp

/-- A start that comes to `initHardware` goes on to `initFramebuffer`, whatever happened. -/
theorem startHardware_subset (h : ¬ EndsBefore o) : ∀ e ∈ startHardware fw s o, e ∈ (start fw s o).1 := by
  simp only [EndsBefore, not_or, Bool.not_eq_false] at h
  obtain ⟨hsuper, hmap, htex, htriag⟩ := h
  intro e he
  have hshaders := initShaders_iff.mpr ⟨htex, htriag⟩
  unfold start
  simp only [hsuper, hmap, hshaders]
  cases o.timerWorkLoop <;> cases o.timerEventSource <;> cases o.stopFB <;> simp [he]

theorem stopped_of_endsBefore (h : EndsBefore o) : Stopped (start fw s o) := by
  have hend : (start fw s o).2 = false ∧ ∀ e ∈ (start fw s o).1, e = .readReg32 xenosRegD1GrphPriSurfaceAddr := by
    unfold start
    cases hsuper : o.superStart with
    | false => simp
    | true =>
      cases hmap : o.mmioMap with
      | false => simp
      | true =>
        have hshaders : initShaders o ≠ .success := by
          rw [ne_eq, initShaders_iff]
          rintro ⟨htex, htriag⟩
          simp [EndsBefore, hsuper, hmap, htex, htriag] at h
        simp [hshaders]
  refine ⟨hend.1, fun e he => ?_, fun e he => ?_⟩
  · rw [hend.2 e he]
    rfl
  · rw [hend.2 e he]
    rfl

/-- **A start is stopped by its hardware** exactly if it does not come to it. -/
theorem start_stops_iff :
    (HardwareFails fw o → Stopped (start fw s o)) ↔ EndsBefore o ∨ ¬ HardwareFails fw o := by
  constructor
  · intro h
    by_contra hn
    rw [not_or, not_not] at hn
    -- the first word of `initFramebuffer`
    have hword : Effect.ring o.ringBufferDesc.isSome (.writeRing (ringPacket3 cpInvalidateState 1)) ∈
        startHardware fw s o := by
      rw [startHardware, List.mem_append, initFramebuffer]
      exact Or.inr List.mem_cons_self
    have hring := (h hn.2).ring _ (startHardware_subset hn.1 _ hword)
    cases hring
  · rintro (hbefore | hworks) hfails
    · exact stopped_of_endsBefore hbefore
    · exact absurd hfails hworks

/-! ## The ring -/

def Effect.ringOp : Effect → Option DriverOp
  | .ring true op => some op
  | _ => none

/-- What is done to the ring buffer. -/
def ringOps (es : List Effect) : List DriverOp := es.filterMap Effect.ringOp

@[simp] theorem ringOps_append (as bs : List Effect) : ringOps (as ++ bs) = ringOps as ++ ringOps bs :=
  List.filterMap_append

@[simp] theorem ringOps_writeReg32 (reg data : Word) (es : List Effect) :
    ringOps (.writeReg32 reg data :: es) = ringOps es := rfl

@[simp] theorem ringOps_readReg32 (reg : Word) (es : List Effect) : ringOps (.readReg32 reg :: es) = ringOps es := rfl

/-- Accesses to registers do nothing to the ring buffer. -/
theorem ringOps_registers {f : Word → Effect} (h : ∀ word, (f word).ringOp = none) (image : List Word) :
    ringOps (image.map f) = [] := by
  simp [ringOps, h]

theorem ringOps_words (words : List Word) :
    ringOps (words.map fun word => .ring true (.writeRing word)) = words.map .writeRing := by
  induction words with
  | nil => rfl
  | cons word words ih => exact congrArg (.writeRing word :: ·) ih

theorem ringOps_readBack {meRamData : ℕ → Word} (image : List Word) (i : ℕ) :
    ringOps (readBack meRamData i image).1 = [] := by
  induction image generalizing i with
  | nil => rfl
  | cons word image ih =>
    rw [readBack]
    split
    · rfl
    · exact ih (i + 1)

theorem ringOps_loadFirmware : ringOps (loadFirmware fw o).1 = [] := by
  have hwrite : ∀ reg, ringOps (fw.sXenosFirmware0.map (.writeReg32 reg)) = [] := fun _ =>
    ringOps_registers (fun _ => rfl) _
  have hread : ∀ reg, ringOps (fw.sXenosFirmware0.map fun _ => .readReg32 reg) = [] := fun _ =>
    ringOps_registers (fun _ => rfl) _
  have hme : ∀ reg, ringOps (fw.sXenosFirmware1.map (.writeReg32 reg)) = [] := fun _ =>
    ringOps_registers (fun _ => rfl) _
  simp only [loadFirmware, List.cons_append, ringOps_append, ringOps_writeReg32, hwrite, hread, hme, ringOps_readBack,
    List.append_nil]

/-- A start with a ring buffer does to it what it is brought up with. -/
theorem ringOps_startHardware {phys : Word} (h : o.ringBufferDesc = some phys) :
    ringOps (startHardware fw s o) = bringup s := by
  simp only [startHardware, initHardware, h, List.cons_append, ringOps_append, ringOps_writeReg32, ringOps_readReg32,
    ringOps_loadFirmware, ringOps_words, Option.isSome_some, bringup, List.nil_append]
  rw [List.append_assoc]
  rfl

end Start

/-! ## Outcomes -/

/-- Everything succeeds, but for the allocation of the ring buffer. -/
def withoutRingBuffer : Outcomes where
  superStart := true
  mmioMap := true
  texCoordsDesc := true
  triagDesc := true
  ringBufferDesc := none
  meRamData _ := 0
  cpRbControl _ := 0
  timerWorkLoop := true
  timerEventSource := true
  stopFB := true

/-- Without a ring buffer the startup goes on, whatever the firmware is. -/
theorem start_without_ring : ¬ ∃ fw s, HardwareFails fw withoutRingBuffer → Stopped (start fw s withoutRingBuffer) := by
  rintro ⟨fw, s, h⟩
  have hresult := (h (Or.inl rfl)).result
  cases hresult

end Osx360.Graphics
