import Osx360.Lib.Bits

/-!
# Registers and descriptors of the Ethernet controller

The constants of `XenonEthernet_Regs.hpp` that the rings and the interrupt handler use, and the descriptor with its four
words. All descriptor fields are little endian in memory; a word here holds the value, so that the byte swaps around
every access cancel.
-/

set_option autoImplicit false

namespace Osx360.Ethernet

open Osx360.Lib

/-! ## Constants -/

def txDescCount : ℕ := 256
def rxDescCount : ℕ := 256
def txMaxSegCount : ℕ := 8

/-- `kIOEthernetMaxPacketSize + 10`. -/
def maxPacketLength : ℕ := 1518 + 10

/-- Set in a length word to indicate the last descriptor of the ring. -/
def descLengthEnd : Word := bit 31

def txFlagsPad : Word := bit 16
def txFlagsCrc : Word := bit 17
def txFlagsDeferred : Word := bit 21
def txFlagsUdpChecksum : Word := bit 24
def txFlagsTcpChecksum : Word := bit 25
def txFlagsIpChecksum : Word := bit 26
def txFlagsInterrupt : Word := bit 30
/-- If set, the hardware owns the descriptor and the driver must not change it. -/
def txFlagsOwner : Word := bit 31

def rxLengthMask : Word := 0xFFFF#32
def rxFlagsInterrupt : Word := bit 30
def rxFlagsOwner : Word := bit 31

def intTxHalt : Word := bit 0
def intRxHalt : Word := bit 1
def intTxDone : Word := bit 2
def intRxDone : Word := bit 6
def intLink : Word := bit 16

/-! ## Descriptors and segments -/

/-- A descriptor; `packetLength` and `status` are the two names of its first word. -/
structure Descriptor where
  packetLength : Word
  flags : Word
  address : Word
  length : Word

def Descriptor.zero : Descriptor := ⟨0, 0, 0, 0⟩

/-- The descriptor is owned by the hardware. -/
def Descriptor.owned (d : Descriptor) : Bool := has d.flags txFlagsOwner

/-- The descriptor carries the end-of-ring bit. -/
def Descriptor.hasEnd (d : Descriptor) : Bool := has d.length descLengthEnd

/-- A physical segment as the memory cursors return it: never longer than the segment size that they were created
with. -/
structure Segment where
  location : Word
  length : Word
  length_le : length.toNat ≤ maxPacketLength

/-- A segment length never carries the end-of-ring bit. -/
theorem Segment.length_has (s : Segment) : has s.length descLengthEnd = false := by
  refine has_of_lt (by decide) ?_
  have hle := s.length_le
  unfold maxPacketLength at hle
  omega

end Osx360.Ethernet
