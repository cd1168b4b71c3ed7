import Osx360.Audio.Playback

/-!
# The playback position

`XenonAudioDevice::getAudioPosition` takes its bit fields from the control register. The frame number is the one that
the state register stands for exactly where both registers happen to name the same frame (`sample_frame_iff`).
-/

set_option autoImplicit false

namespace Osx360.Audio

open Osx360.Lib

def audioNumChannels : Word := 2

def audioBitWidth : Word := 16

def audioBytesPerFrame : Word := audioNumChannels * (audioBitWidth / 8)

def sampleBufferLength : Word := 0x10000

def audioRegState : Word := 0x04

def audioRegStateLengthShift : ℕ := 16

def audioRegControl : Word := 0x08

def ioReturnUnsupported : Word := 0xE00002C7

/-- The registers are given by their offsets. -/
def getAudioPosition (readReg32 : Word → Word) (audioOutputEngine audioEngine : Word) : Word :=
  if audioEngine = audioOutputEngine then
    let state := readReg32 audioRegControl
    let readPtr := state &&& audioRegStateReadPtrMask
    let length : BitVec 16 := ((state >>> audioRegStateLengthShift) &&& 0xFFFF).setWidth 16
    readPtr * (sampleBufferLength / audioDescCount) + (sampleBufferLength / audioDescCount - length.setWidth 32)
  else ioReturnUnsupported

def getCurrentSampleFrame (readReg32 : Word → Word) (audioOutputEngine audioEngine : Word) : Word :=
  getAudioPosition readReg32 audioOutputEngine audioEngine / audioBytesPerFrame

/-! ## The frame of a register -/

/-- The descriptor that is read, from 0 to 31. -/
def readPtrField (state : Word) : ℕ := state.toNat % 32

/-- What remains of it, in bytes. -/
def lengthField (state : Word) : ℕ := state.toNat / 65536

/-- The frame number is the one of the state register, and one of the sample buffer. -/
structure PositionRight (readReg32 : Word → Word) (audioOutputEngine : Word) : Prop where
  frame : (getCurrentSampleFrame readReg32 audioOutputEngine audioOutputEngine).toNat =
    (2048 * readPtrField (readReg32 audioRegState) + 2048 - lengthField (readReg32 audioRegState)) %
      sampleBufferLength.toNat / audioBytesPerFrame.toNat
  inBuffer : (getCurrentSampleFrame readReg32 audioOutputEngine audioOutputEngine).toNat <
    sampleBufferLength.toNat / audioBytesPerFrame.toNat

/-- The fields of the control register name a frame of the buffer, and the one that the state register names: their
distances in descriptors, 512 frames each, and in what remains of one agree around the ring. -/
structure SameFrame (state control : Word) : Prop where
  below : lengthField control ≤ 2048 * (readPtrField control + 1)
  notLast : ¬ (readPtrField control = 31 ∧ lengthField control = 0)
  agree : (512 * readPtrField control + (lengthField state + 3) / 4) % 16384 =
    (512 * readPtrField state + (lengthField control + 3) / 4) % 16384

section Frame

variable {readReg32 : Word → Word} {audioOutputEngine : Word}

theorem readPtrField_lt (state : Word) : readPtrField state < 32 := Nat.mod_lt _ (by decide)

theorem lengthField_lt (state : Word) : lengthField state < 65536 := by
  have hlt := state.isLt
  unfold lengthField
  omega

theorem toNat_readPtr (state : Word) : (state &&& audioRegStateReadPtrMask).toNat = readPtrField state :=
  toNat_and_mask (n := 5) rfl (by decide)

theorem toNat_length (state : Word) :
    ((((state >>> audioRegStateLengthShift) &&& 0xFFFF).setWidth 16).setWidth 32).toNat = lengthField state := by
  have hmask : ((state >>> audioRegStateLengthShift) &&& 0xFFFF).toNat = state.toNat / 65536 % 65536 :=
    (toNat_and_mask (n := 16) rfl (by decide)).trans (congrArg (· % 65536) (toNat_shiftRight rfl))
  have hlt := state.isLt
  rw [BitVec.toNat_setWidth, BitVec.toNat_setWidth, hmask, lengthField]
  omega

/-- The frame number that is returned, with the wrap of the subtraction. -/
theorem toNat_getCurrentSampleFrame : (getCurrentSampleFrame readReg32 audioOutputEngine audioOutputEngine).toNat =
    (2048 * readPtrField (readReg32 audioRegControl) + 2048 + (2 ^ 32 - lengthField (readReg32 audioRegControl))) %
      2 ^ 32 / 4 := by
  have hdesc : sampleBufferLength / audioDescCount = 2048 := by decide
  have hframe : audioBytesPerFrame = 4 := by decide
  have hp := readPtrField_lt (readReg32 audioRegControl)
  have hl := lengthField_lt (readReg32 audioRegControl)
  simp only [getCurrentSampleFrame, getAudioPosition, if_true, hdesc, hframe]
  rw [BitVec.toNat_udiv, BitVec.toNat_add, BitVec.toNat_mul, BitVec.toNat_sub, toNat_readPtr, toNat_length,
    show (2048 : Word).toNat = 2048 from rfl, show (4 : Word).toNat = 4 from rfl]
  omega

/-- **When the position is right.** -/
theorem sample_frame_iff (hl : lengthField (readReg32 audioRegState) ≤ 2048) :
    PositionRight readReg32 audioOutputEngine ↔ SameFrame (readReg32 audioRegState) (readReg32 audioRegControl) := by
  have hp := readPtrField_lt (readReg32 audioRegState)
  have hp' := readPtrField_lt (readReg32 audioRegControl)
  have hl' := lengthField_lt (readReg32 audioRegControl)
  have hbuf : sampleBufferLength.toNat = 65536 := rfl
  have hbytes : audioBytesPerFrame.toNat = 4 := rfl
  constructor
  · rintro ⟨hframe, hin⟩
    rw [toNat_getCurrentSampleFrame, hbuf, hbytes] at hframe hin
    exact ⟨by omega, by omega, by omega⟩
  · rintro ⟨hbelow, hlast, hagree⟩
    constructor
    · rw [toNat_getCurrentSampleFrame, hbuf, hbytes]
      omega
    · rw [toNat_getCurrentSampleFrame, hbuf, hbytes]
      omega

/-- Equal fields name the same frame, but for the last descriptor once nothing remains of it. -/
theorem sameFrame_self {state : Word} (hl : lengthField state ≤ 2048) :
    SameFrame state state ↔ ¬ (readPtrField state = 31 ∧ lengthField state = 0) :=
  ⟨fun h => h.notLast, fun h => ⟨by omega, h, rfl⟩⟩

end Frame

/-! ## Register contents -/

/-- The control register as playback leaves it, with all of the first descriptor remaining. -/
def playingRegs (reg : Word) : Word := if reg = audioRegControl then 0x1D08001C else 0x08000000

theorem sample_frame_playing : lengthField (playingRegs audioRegState) ≤ 2048 ∧
    getCurrentSampleFrame playingRegs 1 1 = 12990 ∧ ¬ PositionRight playingRegs 1 := by
  refine ⟨by decide, by decide, fun h => ?_⟩
  have hframe := h.frame
  rw [show getCurrentSampleFrame playingRegs 1 1 = 12990 by decide] at hframe
  exact absurd hframe (by decide)

theorem sample_frame_constant : PositionRight (fun _ => 0x08000000) 1 :=
  (sample_frame_iff (by decide)).mpr ((sameFrame_self (by decide)).mpr (by decide))

end Osx360.Audio
