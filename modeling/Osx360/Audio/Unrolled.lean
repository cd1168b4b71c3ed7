import Mathlib.Logic.Function.Iterate
import Osx360.Audio.Clip
import Osx360.Lib.Loop

/-!
# The unrolled loop

The path of `XenonAudioEngine::clipOutputSamples` that is not muted, with the conversion of one sample left open. Four
samples a round and the rest one by one leave the sample buffer as the plain loop over the window does
(`unrolledLoops_eq`), whatever the conversion; the engine's own path is this one with `clipSample` (`clip_plain`).
-/

set_option autoImplicit false

namespace Osx360.Audio

open Osx360.Lib

universe u v

variable {α : Type u} {β : Type v}

/-- The pointers, as indices of samples, and the sample buffer. -/
structure UnrolledState (β : Type v) where
  inFloatBufferPtr : ℤ
  outSInt16BufferPtr : ℤ
  sampleBuf : ℤ → β

/-- The body of the first loop: four samples are read and converted, then they are stored. -/
def UnrolledState.four (convert : α → β) (mixBuf : ℤ → α) (s : UnrolledState β) : UnrolledState β :=
  let temp1 := convert (mixBuf (s.inFloatBufferPtr + 1))
  let temp2 := convert (mixBuf (s.inFloatBufferPtr + 2))
  let temp3 := convert (mixBuf (s.inFloatBufferPtr + 3))
  let temp4 := convert (mixBuf (s.inFloatBufferPtr + 4))
  let buf1 := Function.update s.sampleBuf (s.outSInt16BufferPtr + 1) temp1
  let buf2 := Function.update buf1 (s.outSInt16BufferPtr + 2) temp2
  let buf3 := Function.update buf2 (s.outSInt16BufferPtr + 3) temp3
  { inFloatBufferPtr := s.inFloatBufferPtr + 4
    outSInt16BufferPtr := s.outSInt16BufferPtr + 4
    sampleBuf := Function.update buf3 (s.outSInt16BufferPtr + 4) temp4 }

/-- The body of the second loop. -/
def UnrolledState.one (convert : α → β) (mixBuf : ℤ → α) (s : UnrolledState β) : UnrolledState β where
  inFloatBufferPtr := s.inFloatBufferPtr + 1
  outSInt16BufferPtr := s.outSInt16BufferPtr + 1
  sampleBuf := Function.update s.sampleBuf (s.outSInt16BufferPtr + 1) (convert (mixBuf (s.inFloatBufferPtr + 1)))

/-- The loops over `numSamples` samples from index `first` on; both pointers start one sample before it. -/
def unrolledLoops (convert : α → β) (mixBuf : ℤ → α) (sampleBuf : ℤ → β) (first : ℤ) (numSamples : Word) : ℤ → β :=
  let s : UnrolledState β := ⟨first - 1, first - 1, sampleBuf⟩
  let s := (UnrolledState.four convert mixBuf)^[(numSamples / 4).toNat] s
  ((UnrolledState.one convert mixBuf)^[(numSamples % 4).toNat] s).sampleBuf

/-- The plain loop: mix sample `k` becomes output sample `k`, for each `k` of the window in order. -/
def plainLoop (convert : α → β) (mixBuf : ℤ → α) (sampleBuf : ℤ → β) (first : ℤ) (n : ℕ) : ℤ → β :=
  (List.range n).foldl (fun buf (k : ℕ) => Function.update buf (first + k) (convert (mixBuf (first + k)))) sampleBuf

section Conversion

variable {convert : α → β} {mixBuf : ℤ → α} {sampleBuf : ℤ → β} {first : ℤ}

theorem plainLoop_succ (n : ℕ) : plainLoop convert mixBuf sampleBuf first (n + 1) =
    Function.update (plainLoop convert mixBuf sampleBuf first n) (first + n) (convert (mixBuf (first + n))) := by
  simp [plainLoop, List.range_succ]

/-- The plain loop writes a line. -/
theorem plainLoop_eq (n : ℕ) : plainLoop convert mixBuf sampleBuf first n =
    applyWrites sampleBuf (line first n fun k => convert (mixBuf (first + k))) := by
  simp only [plainLoop, applyWrites, line, List.foldl_map]

theorem UnrolledState.four_eq (s : UnrolledState β) :
    s.four convert mixBuf = (UnrolledState.one convert mixBuf)^[4] s := by
  simp [UnrolledState.four, UnrolledState.one, Int.add_assoc]

/-- The invariant of the plain loop: input and output stay aligned. -/
theorem UnrolledState.one_iterate (n : ℕ) :
    (UnrolledState.one convert mixBuf)^[n] ⟨first - 1, first - 1, sampleBuf⟩ =
      ⟨first - 1 + n, first - 1 + n, plainLoop convert mixBuf sampleBuf first n⟩ := by
  induction n with
  | zero => simp [plainLoop]
  | succ n ih =>
    have hnext : first - 1 + n + 1 = first + n := by omega
    rw [Function.iterate_succ_apply', ih, plainLoop_succ, UnrolledState.one, hnext]
    simp only [UnrolledState.mk.injEq, and_true]
    omega

/-- **Unrolling changes nothing.** -/
theorem unrolledLoops_eq (numSamples : Word) : unrolledLoops convert mixBuf sampleBuf first numSamples =
    plainLoop convert mixBuf sampleBuf first numSamples.toNat := by
  have hfour : UnrolledState.four convert mixBuf = (UnrolledState.one convert mixBuf)^[4] :=
    funext UnrolledState.four_eq
  simp only [unrolledLoops]
  rw [BitVec.toNat_udiv, BitVec.toNat_umod, show (4 : Word).toNat = 4 from rfl, hfour, iterate_unrolled,
    UnrolledState.one_iterate]

end Conversion

/-! ## The engine -/

section Engine

variable {engine : XenonAudioEngine} {mixBuf : ℤ → Float32} {sampleBuf : ℤ → SInt16}
  {firstSampleFrame numSampleFrames : Word} {streamFormat : IOAudioStreamFormat}

/-- What the engine leaves in the sample buffer, from what it writes. -/
theorem applyWrites_clip (hmute : engine.currentMute = 0) :
    applyWrites sampleBuf (clipOutputSamples engine mixBuf firstSampleFrame numSampleFrames streamFormat) =
      plainLoop (clipSample (engine.logTable engine.currentVolume)) mixBuf sampleBuf
        (firstSampleFrame * streamFormat.numChannels).toNat (numSampleFrames * streamFormat.numChannels).toNat := by
  rw [clip_unmuted hmute, plainLoop_eq]

/-- **The path that is not muted is the plain loop**, for every conversion and so for the engine's. -/
theorem clip_plain (hmute : engine.currentMute = 0) :
    (∀ (convert : α → β) (mix : ℤ → α) (buf : ℤ → β) (first : ℤ) (numSamples : Word),
      unrolledLoops convert mix buf first numSamples = plainLoop convert mix buf first numSamples.toNat) ∧
    applyWrites sampleBuf (clipOutputSamples engine mixBuf firstSampleFrame numSampleFrames streamFormat) =
      unrolledLoops (clipSample (engine.logTable engine.currentVolume)) mixBuf sampleBuf
        (firstSampleFrame * streamFormat.numChannels).toNat (numSampleFrames * streamFormat.numChannels) ∧
    applyWrites sampleBuf (clipOutputSamples engine mixBuf firstSampleFrame numSampleFrames streamFormat) =
      plainLoop (clipSample (engine.logTable engine.currentVolume)) mixBuf sampleBuf
        (firstSampleFrame * streamFormat.numChannels).toNat (numSampleFrames * streamFormat.numChannels).toNat := by
  refine ⟨fun convert mix buf first numSamples => unrolledLoops_eq numSamples, ?_, applyWrites_clip hmute⟩
  rw [applyWrites_clip hmute, unrolledLoops_eq]

/-- Three frames of a stereo stream: a round of four samples and two more. -/
theorem clip_plain_frames : applyWrites (fun _ => 0)
    (clipOutputSamples ⟨99, 0, fun _ => 1⟩ (fun i => .ofInt i) 5 3 ⟨2⟩) =
      plainLoop (clipSample 1) (fun i => .ofInt i) (fun _ => 0) 10 6 :=
  (@clip_plain Float32 SInt16 ⟨99, 0, fun _ => 1⟩ (fun i => .ofInt i) (fun _ => 0) 5 3 ⟨2⟩ rfl).2.2

end Engine

end Osx360.Audio
