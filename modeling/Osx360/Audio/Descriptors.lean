import Osx360.Audio.Position
import Osx360.Lib.ByteMemory

/-!
# The sample descriptors

The memory side of playback: `setupSampleDescriptors` of `XenonAudioDevice.cpp` writes a ring of descriptors, and the
hardware plays what the descriptor at its read pointer says before it advances. All the while the mixer writes samples.

The ring is a circular buffer: in every run the descriptor played as number `k` gives the 2048 bytes at
`2048 * (k % 32)` of the sample buffer as they are then, and before samples are mixed these are silent (`plays_buffer`).
-/

set_option autoImplicit false

namespace Osx360.Audio

open Osx360.Lib

/-! ## Descriptors -/

/-- The physical addresses of the two buffers: they begin pages, do not overlap, and lie below 512 MB. -/
structure SampleBuffers where
  descBufferPhysAddr : Word
  sampleBufferPhysAddr : Word
  descPage : descBufferPhysAddr.toNat % 4096 = 0
  samplePage : sampleBufferPhysAddr.toNat % 4096 = 0
  disjoint : descBufferPhysAddr.toNat + 4096 ≤ sampleBufferPhysAddr.toNat ∨
    sampleBufferPhysAddr.toNat + 0x10000 ≤ descBufferPhysAddr.toNat
  low : sampleBufferPhysAddr.toNat + 0x10000 ≤ 0x20000000

namespace SampleBuffers

variable (b : SampleBuffers)

def desc : ℕ := b.descBufferPhysAddr.toNat

def sample : ℕ := b.sampleBufferPhysAddr.toNat

end SampleBuffers

/-- `kXenonSampleBufferLength / kXenonAudioDescCount`. -/
def descLength : Word := sampleBufferLength / audioDescCount

/-- The body of the loop; `_descBuffer` has words of four bytes. -/
def setupDescriptor (b : SampleBuffers) (mem : ℕ → Byte) (i : ℕ) : ℕ → Byte :=
  let mem := storeWordLe mem (b.desc + 4 * (i * 2)) (b.sampleBufferPhysAddr + descLength * BitVec.ofNat 32 i)
  storeWordLe mem (b.desc + 4 * (i * 2 + 1)) (0x80000000 ||| descLength)

/-- What `setupSampleDescriptors` does to memory. -/
def setupSampleDescriptors (b : SampleBuffers) (mem : ℕ → Byte) : ℕ → Byte :=
  (List.range audioDescCount.toNat).foldl (setupDescriptor b)
    (store mem b.sample (List.replicate sampleBufferLength.toNat 0))

/-- A descriptor as the hardware fetches it; bit 31 of its second word tells that it is filled. -/
structure SampleDescriptor where
  address : Word
  length : Word

def fetchDescriptor (mem : ℕ → Byte) (descAddr : Word) (readPtr : BitVec 5) : SampleDescriptor :=
  ⟨loadWordLe mem (descAddr.toNat + 8 * readPtr.toNat), loadWordLe mem (descAddr.toNat + 8 * readPtr.toNat + 4)⟩

/-- The bytes that a descriptor stands for. -/
def SampleDescriptor.bytes (d : SampleDescriptor) (mem : ℕ → Byte) : List Byte :=
  if has d.length (bit 31) then cells (d.length &&& 0x7FFFFFFF).toNat mem d.address.toNat else []

/-! ## The system -/

/-- The device with its memory, and what it has played. -/
structure SampleWorld where
  device : XenonAudioDevice
  descAddr : Word
  mem : ℕ → Byte
  played : List Byte

inductive SampleLabel
  | device (l : AudioLabel)
  | mix (a : ℕ) (bytes : List Byte)

def SampleLabel.isPlay : SampleLabel → Bool
  | .device l => l.isAdvance
  | .mix _ _ => false

def SampleLabel.isMix : SampleLabel → Bool
  | .device _ => false
  | .mix _ _ => true

def SampleWorld.current (w : SampleWorld) : List Byte :=
  (fetchDescriptor w.mem w.descAddr w.device.regs.readPtr).bytes w.mem

/-- The steps. A muted call of `clipOutputSamples` may write one sample before the buffer. -/
inductive SampleStep (b : SampleBuffers) : SampleWorld → SampleLabel → SampleWorld → Prop
  | device {w : SampleWorld} {l : AudioLabel} {d : XenonAudioDevice} : AudioStep w.device l d →
      SampleStep b w (.device l)
        { w with device := d, played := if l.isAdvance then w.played ++ w.current else w.played }
  | mix {w : SampleWorld} {a : ℕ} {bytes : List Byte} : b.sample ≤ a + 2 →
      a + bytes.length ≤ b.sample + sampleBufferLength.toNat →
      SampleStep b w (.mix a bytes) { w with mem := store w.mem a bytes }

/-- Playback was just started after `initHardware`. -/
def SampleInit (b : SampleBuffers) (lastReadPtr : Word) (w : SampleWorld) : Prop :=
  AudioInit lastReadPtr w.device ∧ w.descAddr = b.descBufferPhysAddr ∧
    (∃ mem, w.mem = setupSampleDescriptors b mem) ∧ w.played = []

/-! ## The ring of descriptors -/

/-- The first `n` descriptors are filled, each with its part of the sample buffer. -/
def Filled (b : SampleBuffers) (mem : ℕ → Byte) (n : ℕ) : Prop :=
  ∀ i < n, loadWordLe mem (b.desc + 8 * i) = b.sampleBufferPhysAddr + descLength * BitVec.ofNat 32 i ∧
    loadWordLe mem (b.desc + 8 * i + 4) = 0x80000000 ||| descLength

/-- The sample buffer is all zero. -/
def Silent (b : SampleBuffers) (mem : ℕ → Byte) : Prop :=
  ∀ x, b.sample ≤ x → x < b.sample + sampleBufferLength.toNat → mem x = 0

section Ring

variable {b : SampleBuffers} {mem : ℕ → Byte} {n i a : ℕ} {bytes : List Byte} {readPtr : BitVec 5}

theorem sampleBufferLength_toNat : sampleBufferLength.toNat = 0x10000 := rfl

theorem buffers_disjoint (b : SampleBuffers) : b.desc + 4096 ≤ b.sample ∨ b.sample + 0x10000 ≤ b.desc := b.disjoint

theorem setupDescriptor_filled (h : Filled b mem n) : Filled b (setupDescriptor b mem n) (n + 1) := by
  intro i hi
  rw [setupDescriptor]
  rcases Nat.lt_or_ge i n with hlt | hge
  · rw [loadWordLe_storeWordLe_of_disjoint (by omega), loadWordLe_storeWordLe_of_disjoint (by omega),
      loadWordLe_storeWordLe_of_disjoint (by omega), loadWordLe_storeWordLe_of_disjoint (by omega)]
    exact h i hlt
  · obtain rfl : i = n := by omega
    rw [loadWordLe_storeWordLe_of_disjoint (by omega), show b.desc + 8 * i = b.desc + 4 * (i * 2) by omega,
      loadWordLe_storeWordLe_self, show b.desc + 4 * (i * 2) + 4 = b.desc + 4 * (i * 2 + 1) by omega,
      loadWordLe_storeWordLe_self]
    exact ⟨rfl, rfl⟩

theorem setupDescriptor_silent (h : Silent b mem) (hi : i < 32) : Silent b (setupDescriptor b mem i) := by
  intro x hlow hhigh
  rw [sampleBufferLength_toNat] at hhigh
  have hdisjoint := buffers_disjoint b
  rw [setupDescriptor, storeWordLe, store_of_disjoint (by rw [length_leBytes]; omega), storeWordLe,
    store_of_disjoint (by rw [length_leBytes]; omega)]
  exact h x hlow hhigh

theorem silent_zero (b : SampleBuffers) (mem : ℕ → Byte) :
    Silent b (store mem b.sample (List.replicate sampleBufferLength.toNat 0)) := by
  intro x hlow hhigh
  obtain ⟨k, rfl⟩ := Nat.exists_eq_add_of_le hlow
  rw [store_of_lt (by rw [List.length_replicate]; omega), List.getElem_replicate]

/-- **The loop.** -/
theorem setup_descriptors (hn : n ≤ 32) (h : Silent b mem) :
    Filled b ((List.range n).foldl (setupDescriptor b) mem) n ∧
      Silent b ((List.range n).foldl (setupDescriptor b) mem) := by
  induction n with
  | zero => exact ⟨fun i hi => absurd hi (Nat.not_lt_zero i), h⟩
  | succ n ih =>
    obtain ⟨hfilled, hsilent⟩ := ih (by omega)
    rw [List.range_succ, List.foldl_append]
    exact ⟨setupDescriptor_filled hfilled, setupDescriptor_silent hsilent hn⟩

/-- Samples are not written over descriptors, nor one sample before the buffer. -/
theorem Filled.store (h : Filled b mem n) (hn : n ≤ 32) (hlow : b.sample ≤ a + 2)
    (hhigh : a + bytes.length ≤ b.sample + sampleBufferLength.toNat) : Filled b (Lib.store mem a bytes) n := by
  intro i hi
  rw [sampleBufferLength_toNat] at hhigh
  have hdisjoint := buffers_disjoint b
  rw [loadWordLe_store_of_disjoint (by omega), loadWordLe_store_of_disjoint (by omega)]
  exact h i hi

/-- The address in a descriptor does not wrap. -/
theorem toNat_part (b : SampleBuffers) (hi : i < 32) :
    (b.sampleBufferPhysAddr + descLength * BitVec.ofNat 32 i).toNat = b.sample + 2048 * i := by
  have hlow : b.sample + 0x10000 ≤ 0x20000000 := b.low
  have hlength : descLength.toNat = 2048 := by decide
  rw [BitVec.toNat_add, BitVec.toNat_mul, hlength, BitVec.toNat_ofNat, ← SampleBuffers.sample]
  omega

theorem fetch_bytes (h : Filled b mem 32) : (fetchDescriptor mem b.descBufferPhysAddr readPtr).bytes mem =
    cells 2048 mem (b.sample + 2048 * readPtr.toNat) := by
  obtain ⟨haddress, hlength⟩ := h readPtr.toNat readPtr.isLt
  have hfilled : has (0x80000000 ||| descLength) (bit 31) = true := by decide
  have hcount : ((0x80000000 ||| descLength) &&& 0x7FFFFFFF).toNat = 2048 := by decide
  rw [fetchDescriptor, ← SampleBuffers.desc, haddress, hlength, SampleDescriptor.bytes, if_pos hfilled, hcount,
    toNat_part b readPtr.isLt]

theorem silent_part (h : Silent b mem) (hi : i < 32) {x : Byte} (hx : x ∈ cells 2048 mem (b.sample + 2048 * i)) :
    x = 0 := by
  obtain ⟨k, hk, rfl⟩ := List.mem_map.mp hx
  rw [List.mem_range] at hk
  exact h _ (by omega) (by rw [sampleBufferLength_toNat]; omega)

end Ring

/-! ## Runs -/

abbrev SampleEdge := Edge SampleWorld SampleLabel

/-- The steps that play a descriptor. -/
def plays (es : List SampleEdge) : List SampleEdge := es.filter fun e => e.label.isPlay

/-- The circular buffer, as it is when its parts are played one after the other. -/
def circular (b : SampleBuffers) (es : List SampleEdge) : List Byte :=
  ((plays es).mapIdx fun k e => cells 2048 e.pre.mem (b.sample + 2048 * (k % 32))).flatten

section Runs

variable {b : SampleBuffers} {first : Word} {es : List SampleEdge} {w w' : SampleWorld} {l : SampleLabel}

structure SampleInv (b : SampleBuffers) (es : List SampleEdge) (w : SampleWorld) : Prop where
  descAddr : w.descAddr = b.descBufferPhysAddr
  filled : Filled b w.mem 32
  readPtr : w.device.regs.readPtr.toNat = (plays es).length % 32
  played : w.played = circular b es
  silent : (∀ e ∈ es, e.label.isMix = false) → Silent b w.mem ∧ ∀ x ∈ w.played, x = 0

theorem sampleInv_init (h : SampleInit b first w) : SampleInv b [] w := by
  obtain ⟨⟨u, hread, -, -, hdevice⟩, hdesc, ⟨mem, hmem⟩, hplayed⟩ := h
  obtain ⟨hfilled, hsilent⟩ := setup_descriptors (n := 32) (Nat.le_refl _) (silent_zero b mem)
  refine ⟨hdesc, hmem ▸ hfilled, ?_, hplayed, fun _ => ⟨hmem ▸ hsilent, by simp [hplayed]⟩⟩
  rw [hdevice, startAudio, if_pos rfl]
  simp [hread, plays]

/-- Only an advance moves the read pointer. -/
theorem readPtr_step {d d' : XenonAudioDevice} {l : AudioLabel} (hs : AudioStep d l d') :
    d'.regs.readPtr = if l.isAdvance then d.regs.readPtr + 1 else d.regs.readPtr := by
  cases hs with
  | finish => exact keepMoving_readPtr
  | _ => rfl

theorem plays_snoc (e : SampleEdge) : plays (es ++ [e]) = plays es ++ if e.label.isPlay then [e] else [] := by
  unfold plays
  rw [List.filter_append]
  cases h : e.label.isPlay <;> simp [h]

theorem circular_snoc (e : SampleEdge) : circular b (es ++ [e]) = circular b es ++
    if e.label.isPlay then cells 2048 e.pre.mem (b.sample + 2048 * ((plays es).length % 32)) else [] := by
  unfold circular
  rw [plays_snoc]
  split <;> simp

theorem sampleInv_device (h : SampleInv b es w) {l : AudioLabel} {d : XenonAudioDevice}
    (hs : AudioStep w.device l d) (hw : w' = { w with
      device := d, played := if l.isAdvance then w.played ++ w.current else w.played }) :
    SampleInv b (es ++ [⟨w, .device l, w'⟩]) w' := by
  subst hw
  have hread := h.readPtr
  have hptr := readPtr_step hs
  have hbytes : w.current = cells 2048 w.mem (b.sample + 2048 * ((plays es).length % 32)) := by
    rw [SampleWorld.current, h.descAddr, fetch_bytes h.filled, hread]
  cases hl : l.isAdvance with
  | true =>
    simp only [hl, if_true] at hptr ⊢
    refine ⟨h.descAddr, h.filled, ?_, ?_, fun hmix => ?_⟩
    · rw [plays_snoc, hptr, BitVec.toNat_add, hread, show (1 : BitVec 5).toNat = 1 from rfl]
      simp only [SampleLabel.isPlay, hl, if_true, List.length_append, List.length_singleton]
      omega
    · rw [circular_snoc, h.played, hbytes]
      simp only [SampleLabel.isPlay, hl, if_true]
    · obtain ⟨hsilent, hzero⟩ := h.silent (forall_snoc.mp hmix).1
      refine ⟨hsilent, fun x hx => ?_⟩
      rcases List.mem_append.mp hx with hx | hx
      · exact hzero x hx
      · rw [hbytes] at hx
        exact silent_part hsilent (Nat.mod_lt _ (by omega)) hx
  | false =>
    simp only [hl, Bool.false_eq_true, if_false] at hptr ⊢
    refine ⟨h.descAddr, h.filled, ?_, ?_, fun hmix => h.silent (forall_snoc.mp hmix).1⟩
    · rw [plays_snoc, hptr, hread]
      simp [SampleLabel.isPlay, hl]
    · rw [circular_snoc, h.played]
      simp [SampleLabel.isPlay, hl]

theorem sampleInv_step (h : SampleInv b es w) (hs : SampleStep b w l w') : SampleInv b (es ++ [⟨w, l, w'⟩]) w' := by
  cases hs with
  | device hstep => exact sampleInv_device h hstep rfl
  | @mix a bytes hlow hhigh =>
    refine ⟨h.descAddr, h.filled.store (Nat.le_refl _) hlow hhigh, ?_, ?_, fun hmix => ?_⟩
    · rw [plays_snoc, h.readPtr]
      simp [SampleLabel.isPlay]
    · rw [circular_snoc, h.played]
      simp [SampleLabel.isPlay]
    · exact absurd (hmix _ (List.mem_append_right _ List.mem_cons_self)) (by simp [SampleLabel.isMix])

/-- **The descriptors play a circular buffer.** -/
theorem plays_buffer (h : Run (SampleInit b first) (SampleStep b) es w) :
    w.played = circular b es ∧ ((∀ e ∈ es, e.label.isMix = false) → ∀ x ∈ w.played, x = 0) := by
  have hI : SampleInv b es w := by
    induction h with
    | start hinit => exact sampleInv_init hinit
    | step _ hs ih => exact sampleInv_step ih hs
  exact ⟨hI.played, fun hmix => (hI.silent hmix).2⟩

/-- Every run of the device is one of the system. -/
theorem sample_run {es : List AudioEdge} {d : XenonAudioDevice} (h : Run (AudioInit first) AudioStep es d) :
    ∃ es' w, Run (SampleInit b first) (SampleStep b) es' w ∧ w.device = d ∧ (plays es').length = advances es := by
  induction h with
  | @start d hd =>
    exact ⟨[], ⟨d, b.descBufferPhysAddr, setupSampleDescriptors b fun _ => 7, []⟩, .start ⟨hd, rfl, ⟨_, rfl⟩, rfl⟩,
      rfl, rfl⟩
  | @step es d d' l _ hs ih =>
    obtain ⟨es', w, hr, rfl, hplays⟩ := ih
    refine ⟨_, _, hr.step (.device hs), rfl, ?_⟩
    rw [plays_snoc, advances_append, advances_singleton, List.length_append, hplays]
    simp only [SampleLabel.isPlay]
    split <;> rfl

/-- A sample is mixed before the first descriptor is played, and the second one is played in silence. -/
theorem plays_buffer_mixed : ∃ (b : SampleBuffers) (es : List SampleEdge) (w : SampleWorld),
    Run (SampleInit b 0) (SampleStep b) es w ∧ (plays es).length = 2 ∧ w.played[0]? = some 0x34 ∧
    w.played = circular b es ∧ ((∀ e ∈ es, e.label.isMix = false) → ∀ x ∈ w.played, x = 0) := by
  let b : SampleBuffers := ⟨0x1000, 0x10000, rfl, rfl, by decide, by decide⟩
  have h0 : Run (SampleInit b 0) (SampleStep b) []
      ⟨(startAudio 1 ⟨⟨0, 0, 0, 0⟩, 0, 1, .off⟩).1, b.descBufferPhysAddr, setupSampleDescriptors b fun _ => 7, []⟩ :=
    .start ⟨⟨⟨⟨0, 0, 0, 0⟩, 0, 1, .off⟩, rfl, rfl, rfl, rfl⟩, rfl, ⟨_, rfl⟩, rfl⟩
  have h1 := h0.step (l := .mix 0x10000 [0x34, 0x12]) (.mix (by decide) (by decide))
  have h2 := h1.step (.device (.read rfl))
  have h4 := (h2.step (.device (.stamp rfl))).step (.device (.finish rfl))
  have h6 := (h4.step (.device (.advance 2048 (by decide) (by decide)))).step
    (.device (.advance 2048 (by decide) (by decide)))
  have hplays := plays_buffer h6
  refine ⟨b, _, _, h6, rfl, ?_, hplays⟩
  rw [hplays.1, circular]
  simp [plays, SampleLabel.isPlay, AudioLabel.isAdvance, cells, store, b, SampleBuffers.sample]

end Runs

end Osx360.Audio
