import Osx360.Lib.Bits

/-!
# The SMC interrupt filter

The messages of `XenonSMCRegs.hpp`, and `writeMessage`, `readMessage` and the `switch` of `filterInterrupt` from
`XenonSMC_Private.cpp`. A message is read from and written to the FIFOs as four big-endian words, the byte order of the
machine, so its bytes stand for them.
-/

set_option autoImplicit false

namespace Osx360.Smc

open Osx360.Lib

abbrev Byte := BitVec 8

/-! ## Constants -/

def intStatusPending : Word := bit 28

def commandGetRTC : Byte := 0x04
def commandGetTemp : Byte := 0x07
def commandSetPower : Byte := 0x82
def commandAsync : Byte := 0x83

def powerReboot : Byte := 0x04
def powerRebootCancel : Byte := 0x33

def asyncPowerButton : Byte := 0x11
def asyncSyncButton : Byte := 0x13
def asyncTiltSwitch : Byte := 0x14

/-! ## Messages -/

/-- `XenonSMCTempStatus`. -/
structure TempStatus where
  cpuTempFraction : Byte
  cpuTemp : Byte
  gpuTempFraction : Byte
  gpuTemp : Byte
  edramTempFraction : Byte
  edramTemp : Byte
  chassisTempFraction : Byte
  chassisTemp : Byte
  fanTargetSpeed : Byte

/-- A message has a first byte of data. -/
instance dataNonempty : NeZero 15 := ⟨by decide⟩

/-- `XenonSMCMessage`; the members of its inner union are functions of `data`. -/
structure Message where
  command : Byte
  data : Fin 15 → Byte

namespace Message

/-- `bzero`. -/
def zero : Message := ⟨0, fun _ => 0⟩

def tiltStatus (message : Message) : Byte := message.data 0

def temp (message : Message) : TempStatus :=
  ⟨message.data 0, message.data 1, message.data 2, message.data 3, message.data 4, message.data 5, message.data 6,
    message.data 7, message.data 8⟩

/-- A zeroed message with the command and the first two bytes of `power` set. -/
def setPower (type special : Byte) : Message :=
  { command := commandSetPower
    data := fun i => if i = 0 then type else if i = 1 then special else 0 }

end Message

/-- An RTC reply with the value 0. -/
def rtcReply : Message := ⟨commandGetRTC, fun _ => 0⟩

/-! ## The driver -/

/-- A syncer, named by the number of its creation. -/
abbrev Syncer := ℕ

/-- The state that the interrupt handlers share with the rest of the driver. -/
structure Driver where
  powerButtonPressed : Bool
  syncButtonPressed : Bool
  tiltState : Bool
  tiltStatePresent : Bool
  rtcSyncer : Option Syncer
  rtcValue : BitVec 64
  rtcValuePresent : Bool
  tempStatus : TempStatus
  tempStatusPresent : Bool

/-- `kIOReturnSuccess`, `kIOReturnTimeout` and `kIOReturnNotReady`. -/
inductive IOReturn
  | success
  | timeout
  | notReady
  deriving DecidableEq

/-- The answer and the messages sent; `ready` is whether the SMC became ready in time. -/
def writeMessage (ready : Bool) (message : Message) : IOReturn × List Message :=
  if ready then (.success, [message]) else (.timeout, [])

/-- The answer, the contents of `*message` afterwards and the input FIFO that is left. -/
def readMessage (fifo : List Message) (message : Message) : IOReturn × Message × List Message :=
  match fifo with
  | [] => (.notReady, message, [])
  | m :: rest => (.success, m, rest)

def cancelPowerOff (ready : Bool) : IOReturn × List Message :=
  writeMessage ready (.setPower powerReboot powerRebootCancel)

/-! ## `filterInterrupt` -/

/-- The RTC value in a reply. -/
def Message.rtc (message : Message) : BitVec 64 :=
  (message.data 0).setWidth 64 ||| (message.data 1).setWidth 64 <<< 8 ||| (message.data 2).setWidth 64 <<< 16
    ||| (message.data 3).setWidth 64 <<< 24 ||| (message.data 4).setWidth 64 <<< 32

/-- The 40-bit clock in a reply, its first byte lowest. -/
def Message.clock (message : Message) : BitVec 40 :=
  message.data 4 ++ message.data 3 ++ message.data 2 ++ message.data 1 ++ message.data 0

theorem Message.rtc_eq_clock (message : Message) : message.rtc = message.clock.setWidth 64 := by
  refine BitVec.eq_of_getLsbD_eq fun i hi => ?_
  have hbyte : ∀ j k, 8 ≤ k → (message.data j).getLsbD k = false := fun j k hk => BitVec.getLsbD_of_ge _ k hk
  simp only [rtc, clock, BitVec.getLsbD_or, BitVec.getLsbD_shiftLeft, BitVec.getLsbD_setWidth, BitVec.getLsbD_append,
    hi, decide_true, Bool.true_and]
  grind

/-- What the `switch` of `filterInterrupt` does: the driver's state afterwards, the messages it sends, the syncer it
signals and whether it asks for the secondary handler. -/
structure Filtered where
  driver : Driver
  sent : List Message
  signalled : Option Syncer
  needSecondary : Bool

/-- The `switch` of `filterInterrupt`. -/
def filterMessage (ready : Bool) (message : Message) (d : Driver) : Filtered :=
  if message.command = commandAsync then
    if message.data 0 = asyncPowerButton then
      ⟨{ d with powerButtonPressed := true }, (cancelPowerOff ready).2, none, true⟩
    else if message.data 0 = asyncSyncButton then ⟨{ d with syncButtonPressed := true }, [], none, true⟩
    -- `tiltStatus` shares the byte of the event code
    else if message.data 0 = asyncTiltSwitch then
      ⟨{ d with tiltState := message.tiltStatus != 0, tiltStatePresent := true }, [], none, true⟩
    else ⟨d, [], none, false⟩
  else if message.command = commandGetRTC then
    ⟨{ d with rtcValue := message.rtc, rtcValuePresent := true }, [], d.rtcSyncer, false⟩
  else if message.command = commandGetTemp then
    ⟨{ d with tempStatus := message.temp, tempStatusPresent := true }, [], none, false⟩
  else ⟨d, [], none, false⟩

end Osx360.Smc
