import Mathlib.Data.List.MinMax
import Osx360.Lib.Bits
import Osx360.Lib.Fifo

/-!
# The interrupt controller

`XenonInterruptController.cpp` with the registers of `XenonICRegs.hpp`: reading `InterruptAck` acknowledges the pending
interrupt of the highest priority, a write to either end-of-interrupt register completes the first one acknowledged, and
a device's interrupt is masked by its entry in the PCI bridge.
-/

set_option autoImplicit false

namespace Osx360.Interrupts

open Osx360.Lib

/-! ## Vectors -/

/-- `kXenonICVectorCount`. -/
def icVectorCount : ℕ := 128

/-- `kXenonICRegInterruptAckMask`. -/
def interruptAckMask : BitVec 64 := 0x7F

def vectorSMC : ℕ := 0x14
def vectorFlash : ℕ := 0x18
def vectorSATAHDD : ℕ := 0x20
def vectorSATACD : ℕ := 0x24
def vectorOHCI0 : ℕ := 0x2C
def vectorEHCI0 : ℕ := 0x30
def vectorOHCI1 : ℕ := 0x34
def vectorEHCI1 : ℕ := 0x38
def vectorXMA : ℕ := 0x40
def vectorAudio : ℕ := 0x44
def vectorEthernet : ℕ := 0x4C
def vectorXenos : ℕ := 0x58
def vectorClock : ℕ := 0x74

/-- `kXenonVectorNone`, the spurious vector. -/
def vectorNone : ℕ := 0x7C

def vectorInvalid : ℕ := 0xFF

/-- The assignments that fill the table at startup. -/
def cpuInterruptAssignments : List (ℕ × ℕ) :=
  [(vectorClock, 0), (vectorSATACD, 1), (vectorSATAHDD, 2), (vectorSMC, 3), (vectorOHCI0, 4), (vectorEHCI0, 5),
    (vectorOHCI1, 6), (vectorEHCI1, 7), (vectorEthernet, 10), (vectorXMA, 11), (vectorAudio, 12), (vectorFlash, 13)]

def sXenonCPUInterruptMap (vectorIndex : ℕ) : ℕ := (cpuInterruptAssignments.lookup vectorIndex).getD vectorInvalid

/-! ## The registers -/

/-- An interrupt that a device can raise. -/
structure Irq where
  vector : ℕ
  lt : vector < icVectorCount
  real : vector ≠ vectorNone
  deriving DecidableEq

def ethernetIrq : Irq := ⟨vectorEthernet, by decide, by decide⟩

/-- The controller's side. `acks` is the acknowledge queue with what it was and will be; `stray` counts completions with
nothing outstanding. -/
structure Ic where
  priority : Irq → ℕ
  pending : List Irq
  acks : Fifo Irq
  stray : ℕ

/-- What a read of `InterruptAck` acknowledges. -/
def Ic.next (ic : Ic) : Option Irq := ic.pending.argmax ic.priority

/-- `readICReg64(0, kXenonICRegInterruptAck)`. -/
def Ic.readInterruptAck (ic : Ic) : BitVec 64 × Ic :=
  match ic.next with
  | some i => (BitVec.ofNat 64 i.vector, { ic with pending := ic.pending.erase i, acks := ic.acks.accept i })
  | none => (BitVec.ofNat 64 vectorNone, ic)

/-- A write to `EndOfInterrupt` or to `EndOfInterruptAutoUpd`. -/
def Ic.endOfInterrupt (ic : Ic) : Ic :=
  match ic.acks.pending with
  | [] => { ic with stray := ic.stray + 1 }
  | _ :: _ => { ic with acks := ic.acks.complete }

/-! ## The vectors' state -/

structure IOInterruptVector where
  interruptActive : Bool
  interruptDisabledSoft : Bool
  interruptDisabledHard : Bool
  interruptRegistered : Bool

/-- The vectors, and the entries of the PCI bridge by their numbers. -/
structure Controller where
  vectors : ℕ → IOInterruptVector
  bridge : ℕ → Word

def Controller.modify (c : Controller) (v : ℕ) (f : IOInterruptVector → IOInterruptVector) : Controller :=
  { c with vectors := Function.update c.vectors v (f (c.vectors v)) }

def disableVectorHard (c : Controller) (vectorNumber : ℕ) : Controller :=
  if vectorNumber ≥ icVectorCount then c
  else
    let pciIrq := sXenonCPUInterruptMap vectorNumber
    if pciIrq = vectorInvalid then c
    else { c with bridge := Function.update c.bridge pciIrq 0 }

/-- `kXenonPCIBridgeRegIntEnabled`. -/
def bridgeIntEnabled : Word := bit 23

def enableVector (c : Controller) (vectorNumber : ℕ) : Controller :=
  if vectorNumber ≥ icVectorCount then c
  else
    let pciIrq := sXenonCPUInterruptMap vectorNumber
    if pciIrq = vectorInvalid then c
    else
      let irqState := bridgeIntEnabled ||| (1 <<< 8) ||| 0x80 ||| BitVec.ofNat 32 (vectorNumber >>> 2)
      { c with bridge := Function.update c.bridge pciIrq irqState }

/-! ## Handling an interrupt -/

/-- The vector's part of `handleInterrupt`: whether its handler was called, and the state. -/
def serviceVector (handler : ℕ → Controller → Controller) (c : Controller) (vectorIndex : ℕ) : Bool × Controller :=
  let c := c.modify vectorIndex fun vector => { vector with interruptActive := true }
  let (called, c) :=
    if !(c.vectors vectorIndex).interruptDisabledSoft then
      if (c.vectors vectorIndex).interruptRegistered then (true, handler vectorIndex c) else (false, c)
    else
      let c := c.modify vectorIndex fun vector => { vector with interruptDisabledHard := true }
      (false, disableVectorHard c vectorIndex)
  (called, c.modify vectorIndex fun vector => { vector with interruptActive := false })

structure HandleResult where
  panicked : Bool
  called : Bool
  ic : Ic
  ctl : Controller

/-- What it prints, the `Priority` register and the write to the BIU for the IOC are left out. -/
def handleInterrupt (handler : ℕ → Controller → Controller) (ic : Ic) (c : Controller) : HandleResult :=
  let (ack, ic) := ic.readInterruptAck
  let vectorIndex := (ack &&& interruptAckMask).toNat
  if vectorIndex = vectorXenos then ⟨true, false, ic, c⟩
  else
    let (called, c) := serviceVector handler c vectorIndex
    ⟨false, called, ic.endOfInterrupt.endOfInterrupt, c⟩

section Handle

variable {ic : Ic} {c : Controller} {i : Irq} {handler : ℕ → Controller → Controller}

theorem readInterruptAck_some (h : ic.next = some i) :
    ic.readInterruptAck =
      (BitVec.ofNat 64 i.vector, { ic with pending := ic.pending.erase i, acks := ic.acks.accept i }) := by
  rw [Ic.readInterruptAck, h]

theorem readInterruptAck_none (h : ic.next = none) : ic.readInterruptAck = (BitVec.ofNat 64 vectorNone, ic) := by
  rw [Ic.readInterruptAck, h]

/-- The mask leaves a vector alone. -/
theorem toNat_ack {v : ℕ} (h : v < icVectorCount) : (BitVec.ofNat 64 v &&& interruptAckMask).toNat = v := by
  rw [icVectorCount] at h
  rw [BitVec.toNat_and, BitVec.toNat_ofNat, show interruptAckMask.toNat = 2 ^ 7 - 1 from rfl,
    Nat.and_two_pow_sub_one_eq_mod]
  omega

/-- An interrupt is handled. -/
theorem handleInterrupt_some (h : ic.next = some i) (hx : i.vector ≠ vectorXenos) :
    handleInterrupt handler ic c =
      ⟨false, (serviceVector handler c i.vector).1,
        ({ ic with pending := ic.pending.erase i, acks := ic.acks.accept i } : Ic).endOfInterrupt.endOfInterrupt,
        (serviceVector handler c i.vector).2⟩ := by
  rw [handleInterrupt, readInterruptAck_some h]
  dsimp only
  rw [toNat_ack i.lt, if_neg hx]

/-- The GPU's interrupt is fatal. -/
theorem handleInterrupt_xenos (h : ic.next = some i) (hx : i.vector = vectorXenos) :
    handleInterrupt handler ic c =
      ⟨true, false, { ic with pending := ic.pending.erase i, acks := ic.acks.accept i }, c⟩ := by
  rw [handleInterrupt, readInterruptAck_some h]
  dsimp only
  rw [toNat_ack i.lt, if_pos hx]

/-- A spurious interrupt. -/
theorem handleInterrupt_none (h : ic.next = none) :
    handleInterrupt handler ic c =
      ⟨false, (serviceVector handler c vectorNone).1, ic.endOfInterrupt.endOfInterrupt,
        (serviceVector handler c vectorNone).2⟩ := by
  rw [handleInterrupt, readInterruptAck_none h]
  dsimp only
  rw [toNat_ack (by decide), if_neg (by decide)]

end Handle

end Osx360.Interrupts
