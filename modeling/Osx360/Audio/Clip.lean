import Mathlib.Logic.Function.Iterate
import Osx360.Lib.Bits
import Osx360.Lib.Loop
import Osx360.Lib.Writes

/-!
# Clipping

`XenonAudioEngine::clipOutputSamples` from `XenonAudioEngine_Clip.cpp`. Both pointers are moved back by one sample for
the loops, which increment before every access; `bzero` is given the pointer as it is then. The samples of the window
are written, and they only, exactly when the engine is not muted or the window is empty (`clip_window_iff`).
-/

set_option autoImplicit false

namespace Osx360.Audio

open Osx360.Lib

abbrev SInt16 := Int16

structure IOAudioStreamFormat where
  numChannels : Word

/-- The fields of the engine that are used here; the table is indexed by the volume. -/
structure XenonAudioEngine where
  currentVolume : Word
  currentMute : Word
  logTable : Word → Float32

def clipFloatValue (x : Float32) : Float32 :=
  if x.toFloat > 0.99996948242188 then (0.99996948242188 : Float).toFloat32
  else if x.toFloat < -1.0 then (-1.0 : Float).toFloat32
  else x

def convertFloatToSInt16 (x : Float32) : SInt16 := (x.toFloat * 3.2768000000000e4).toInt16

/-- The pointers, as indices of samples, and what was written so far. -/
structure ClipState where
  inFloatBufferPtr : ℤ
  outSInt16BufferPtr : ℤ
  writes : List (ℤ × SInt16)

/-- The body of the first loop. -/
def ClipState.four (mixBuf : ℤ → Float32) (adjustment : Float32) (s : ClipState) : ClipState :=
  let tempFloat1 := mixBuf (s.inFloatBufferPtr + 1) * adjustment
  let tempFloat2 := mixBuf (s.inFloatBufferPtr + 2) * adjustment
  let tempFloat3 := mixBuf (s.inFloatBufferPtr + 3) * adjustment
  let tempFloat4 := mixBuf (s.inFloatBufferPtr + 4) * adjustment
  { inFloatBufferPtr := s.inFloatBufferPtr + 4
    outSInt16BufferPtr := s.outSInt16BufferPtr + 4
    writes := s.writes ++
      [(s.outSInt16BufferPtr + 1, convertFloatToSInt16 (clipFloatValue tempFloat1)),
        (s.outSInt16BufferPtr + 2, convertFloatToSInt16 (clipFloatValue tempFloat2)),
        (s.outSInt16BufferPtr + 3, convertFloatToSInt16 (clipFloatValue tempFloat3)),
        (s.outSInt16BufferPtr + 4, convertFloatToSInt16 (clipFloatValue tempFloat4))] }

/-- The body of the second loop. -/
def ClipState.one (mixBuf : ℤ → Float32) (adjustment : Float32) (s : ClipState) : ClipState :=
  let tempFloat := mixBuf (s.inFloatBufferPtr + 1) * adjustment
  { inFloatBufferPtr := s.inFloatBufferPtr + 1
    outSInt16BufferPtr := s.outSInt16BufferPtr + 1
    writes := s.writes ++ [(s.outSInt16BufferPtr + 1, convertFloatToSInt16 (clipFloatValue tempFloat))] }

/-- `length` is in bytes. -/
def bzero (p : ℤ) (length : Word) : List (ℤ × SInt16) := line p (length.toNat / 2) fun _ => 0

/-- The writes to the sample buffer, by their indices in it. -/
def clipOutputSamples (engine : XenonAudioEngine) (mixBuf : ℤ → Float32) (firstSampleFrame numSampleFrames : Word)
    (streamFormat : IOAudioStreamFormat) : List (ℤ × SInt16) :=
  let numSamples := numSampleFrames * streamFormat.numChannels
  let inFloatBufferPtr : ℤ := (firstSampleFrame * streamFormat.numChannels).toNat
  let outSInt16BufferPtr : ℤ := (firstSampleFrame * streamFormat.numChannels).toNat
  let s : ClipState := ⟨inFloatBufferPtr - 1, outSInt16BufferPtr - 1, []⟩
  if engine.currentMute ≠ 0 then bzero s.outSInt16BufferPtr (numSamples * 2)
  else
    let adjustment := engine.logTable engine.currentVolume
    let s := (ClipState.four mixBuf adjustment)^[(numSamples / 4).toNat] s
    ((ClipState.one mixBuf adjustment)^[(numSamples % 4).toNat] s).writes

/-! ## The loops -/

/-- What becomes of one sample. -/
def clipSample (adjustment x : Float32) : SInt16 := convertFloatToSInt16 (clipFloatValue (x * adjustment))

section Loops

variable {mixBuf : ℤ → Float32} {adjustment : Float32} {s : ClipState}

theorem four_eq (s : ClipState) : s.four mixBuf adjustment = (ClipState.one mixBuf adjustment)^[4] s := by
  simp [ClipState.four, ClipState.one, Function.iterate_succ_apply, Int.add_assoc]

/-- Both loops together are the second one alone. -/
theorem loops_eq (n : ℕ) (s : ClipState) : (ClipState.one mixBuf adjustment)^[n % 4]
    ((ClipState.four mixBuf adjustment)^[n / 4] s) = (ClipState.one mixBuf adjustment)^[n] s := by
  have hfour : ClipState.four mixBuf adjustment = (ClipState.one mixBuf adjustment)^[4] := funext four_eq
  rw [hfour, iterate_unrolled]

theorem one_iterate (n : ℕ) (s : ClipState) : (ClipState.one mixBuf adjustment)^[n] s =
    ⟨s.inFloatBufferPtr + n, s.outSInt16BufferPtr + n, s.writes ++ line (s.outSInt16BufferPtr + 1) n
      fun k => clipSample adjustment (mixBuf (s.inFloatBufferPtr + 1 + k))⟩ := by
  induction n with
  | zero => simp
  | succ n ih =>
    rw [Function.iterate_succ_apply', ih, line_succ]
    simp [ClipState.one, clipSample, Int.add_assoc, Int.add_comm 1]

end Loops

/-! ## The window -/

section Window

variable {engine : XenonAudioEngine} {mixBuf : ℤ → Float32} {firstSampleFrame numSampleFrames : Word}
  {streamFormat : IOAudioStreamFormat}

/-- The samples that are asked for. -/
def InWindow (firstSampleFrame numSampleFrames : Word) (streamFormat : IOAudioStreamFormat) (i : ℤ) : Prop :=
  ((firstSampleFrame.toNat * streamFormat.numChannels.toNat : ℕ) : ℤ) ≤ i ∧
    i < (((firstSampleFrame.toNat + numSampleFrames.toNat) * streamFormat.numChannels.toNat : ℕ) : ℤ)

/-- The products that the function takes of its arguments do not overflow. -/
structure NoOverflow (firstSampleFrame numSampleFrames : Word) (streamFormat : IOAudioStreamFormat) : Prop where
  first : firstSampleFrame.toNat * streamFormat.numChannels.toNat < 2 ^ 32
  num : numSampleFrames.toNat * streamFormat.numChannels.toNat < 2 ^ 32

/-- The samples of the window are written and nothing else is; when muted they become 0. -/
structure ClipsWindow (engine : XenonAudioEngine) (mixBuf : ℤ → Float32) (firstSampleFrame numSampleFrames : Word)
    (streamFormat : IOAudioStreamFormat) : Prop where
  exactly : ∀ i, (∃ x, (i, x) ∈ clipOutputSamples engine mixBuf firstSampleFrame numSampleFrames streamFormat) ↔
    InWindow firstSampleFrame numSampleFrames streamFormat i
  muted : engine.currentMute ≠ 0 → ∀ (sampleBuf : ℤ → SInt16) i,
    InWindow firstSampleFrame numSampleFrames streamFormat i → applyWrites sampleBuf
      (clipOutputSamples engine mixBuf firstSampleFrame numSampleFrames streamFormat) i = 0

/-- **The path of an engine that is not muted.** -/
theorem clip_unmuted (hmute : engine.currentMute = 0) :
    clipOutputSamples engine mixBuf firstSampleFrame numSampleFrames streamFormat =
      line (firstSampleFrame * streamFormat.numChannels).toNat (numSampleFrames * streamFormat.numChannels).toNat
        fun k => clipSample (engine.logTable engine.currentVolume)
          (mixBuf ((firstSampleFrame * streamFormat.numChannels).toNat + k)) := by
  simp only [clipOutputSamples, hmute, ne_eq, not_true_eq_false, if_false]
  rw [BitVec.toNat_udiv, BitVec.toNat_umod, show (4 : Word).toNat = 4 from rfl, loops_eq, one_iterate]
  simp

theorem clip_muted (hmute : engine.currentMute ≠ 0) :
    clipOutputSamples engine mixBuf firstSampleFrame numSampleFrames streamFormat =
      line ((firstSampleFrame * streamFormat.numChannels).toNat - 1)
        ((numSampleFrames * streamFormat.numChannels * 2).toNat / 2) fun _ => 0 := by
  simp only [clipOutputSamples, if_pos hmute]
  rfl

/-- The window of the code, where nothing overflows. -/
theorem NoOverflow.inWindow_iff (h : NoOverflow firstSampleFrame numSampleFrames streamFormat) {i : ℤ} :
    InWindow firstSampleFrame numSampleFrames streamFormat i ↔
      ((firstSampleFrame * streamFormat.numChannels).toNat : ℤ) ≤ i ∧
        i < (firstSampleFrame * streamFormat.numChannels).toNat +
          (numSampleFrames * streamFormat.numChannels).toNat := by
  rw [InWindow, BitVec.toNat_mul, BitVec.toNat_mul, Nat.mod_eq_of_lt h.first, Nat.mod_eq_of_lt h.num, Nat.add_mul,
    Int.natCast_add]

theorem clipsWindow_unmuted (h : NoOverflow firstSampleFrame numSampleFrames streamFormat)
    (hmute : engine.currentMute = 0) : ClipsWindow engine mixBuf firstSampleFrame numSampleFrames streamFormat where
  exactly i := by rw [clip_unmuted hmute, line_covers, h.inWindow_iff]
  muted hm := absurd hmute hm

/-- An empty window is left alone. -/
theorem clipsWindow_empty (h : NoOverflow firstSampleFrame numSampleFrames streamFormat)
    (hmute : engine.currentMute ≠ 0) (hempty : numSampleFrames * streamFormat.numChannels = 0) :
    ClipsWindow engine mixBuf firstSampleFrame numSampleFrames streamFormat := by
  have hnone : ∀ i, ¬ InWindow firstSampleFrame numSampleFrames streamFormat i := by
    intro i hi
    have hi := h.inWindow_iff.mp hi
    rw [hempty, show (0 : Word).toNat = 0 from rfl] at hi
    omega
  constructor
  · intro i
    rw [clip_muted hmute, hempty]
    simp [hnone]
  · exact fun _ _ i hi => absurd hi (hnone i)

/-- `bzero` misses the last sample of a window. -/
theorem not_clipsWindow_muted (h : NoOverflow firstSampleFrame numSampleFrames streamFormat)
    (hmute : engine.currentMute ≠ 0) (hsome : numSampleFrames * streamFormat.numChannels ≠ 0) :
    ¬ ClipsWindow engine mixBuf firstSampleFrame numSampleFrames streamFormat := by
  intro hclips
  have hpos : 0 < (numSampleFrames * streamFormat.numChannels).toNat :=
    Nat.pos_of_ne_zero fun h0 => hsome (BitVec.eq_of_toNat_eq h0)
  have hlen : (numSampleFrames * streamFormat.numChannels * 2).toNat / 2 ≤
      (numSampleFrames * streamFormat.numChannels).toNat := by
    rw [BitVec.toNat_mul, show (2 : Word).toNat = 2 from rfl]
    omega
  have hlast := (hclips.exactly ((firstSampleFrame * streamFormat.numChannels).toNat +
    (numSampleFrames * streamFormat.numChannels).toNat - 1)).mpr (h.inWindow_iff.mpr (by omega))
  rw [clip_muted hmute, line_covers] at hlast
  omega

/-- **When the window is clipped.** -/
theorem clip_window_iff (h : NoOverflow firstSampleFrame numSampleFrames streamFormat) :
    ClipsWindow engine mixBuf firstSampleFrame numSampleFrames streamFormat ↔
      engine.currentMute = 0 ∨ numSampleFrames * streamFormat.numChannels = 0 := by
  constructor
  · intro hclips
    by_contra hn
    rw [not_or] at hn
    exact not_clipsWindow_muted h hn.1 hn.2 hclips
  · intro hok
    by_cases hmute : engine.currentMute = 0
    · exact clipsWindow_unmuted h hmute
    · exact clipsWindow_empty h hmute (hok.resolve_left hmute)

theorem clip_window_stereo : ClipsWindow ⟨99, 0, fun _ => 1⟩ (fun _ => 0) 64 512 ⟨2⟩ :=
  (clip_window_iff ⟨by decide, by decide⟩).mpr (Or.inl rfl)

/-- Muting the first frame of the buffer writes the sample before it and leaves its second one. -/
theorem clip_muted_before : (-1, 0) ∈ clipOutputSamples ⟨99, 1, fun _ => 1⟩ (fun _ => 0) 0 1 ⟨2⟩ ∧
    ¬ ClipsWindow ⟨99, 1, fun _ => 1⟩ (fun _ => 0) 0 1 ⟨2⟩ := by
  constructor
  · rw [clip_muted (by decide)]
    exact mem_line.mpr ⟨0, by decide, rfl⟩
  · exact not_clipsWindow_muted ⟨by decide, by decide⟩ (by decide) (by decide)

end Window

end Osx360.Audio
