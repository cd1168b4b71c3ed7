import Osx360.Graphics.CommandRing
import Osx360.Lib.Packets

/-!
# The packets in the ring

The words that the driver writes to the ring are PM4 packets: every header counts the words that follow it, and whatever
the driver has written when it publishes its pointer ends with a packet (`ring_packets`). Where the words are stored and
how they are cut into packets does not depend on the GPU.
-/

set_option autoImplicit false

namespace Osx360.Graphics

open Osx360.Lib

/-! ## Packets -/

/-- The payload words of a packet of type 0 or 3: one more than the count field of its header. -/
def pm4Size (header : Word) : Option ℕ :=
  if header.extractLsb' 30 2 = 0 ∨ header.extractLsb' 30 2 = 3 then some ((header.extractLsb' 16 14).toNat + 1)
  else none

abbrev Pm4Packet := Packet pm4Size

theorem initME_complete : Complete pm4Size initME := rfl

theorem initFramebuffer_complete (s : XenosSetup) : Complete pm4Size (initFramebuffer s) := rfl

theorem handleTimer_complete : Complete pm4Size handleTimer := rfl

/-! ## What the driver writes -/

/-- The words of `start` and of `n` calls of `handleTimer`. -/
def commandWords (s : XenosSetup) (n : ℕ) : List Word :=
  initME ++ initFramebuffer s ++ (List.replicate n handleTimer).flatten

/-- After these words, every pointer that a call publishes ends with a packet, and so does the call. -/
def Aligned : List Word → List DriverOp → Prop
  | words, [] => Complete pm4Size words
  | words, .writeRing data :: ops => Aligned (words ++ [data]) ops
  | words, .syncRingBuffer :: ops => Complete pm4Size words ∧ Aligned words ops

section Words

variable {s : XenosSetup} {words : List Word} {ops : List DriverOp} {data : Word}

theorem aligned_map (words ws : List Word) (ops : List DriverOp) :
    Aligned words (ws.map .writeRing ++ ops) ↔ Aligned (words ++ ws) ops := by
  induction ws generalizing words with
  | nil => simp
  | cons w ws ih =>
    rw [List.append_cons]
    exact ih (words ++ [w])

theorem aligned_bringup (s : XenosSetup) : Aligned [] (bringup s) := by
  rw [bringup, aligned_map]
  refine ⟨initME_complete, ?_⟩
  rw [← List.append_nil (List.map _ _), aligned_map]
  exact initME_complete.append (initFramebuffer_complete s)

theorem aligned_timerTick (h : Complete pm4Size words) : Aligned words timerTick := by
  rw [timerTick, aligned_map]
  exact ⟨h.append handleTimer_complete, h.append handleTimer_complete⟩

theorem wordsOf_bringup (s : XenosSetup) : wordsOf (bringup s) = commandWords s 0 := by
  rw [wordsOf_start, commandWords, List.replicate_zero, List.flatten_nil, List.append_nil]

theorem commandWords_succ (s : XenosSetup) (n : ℕ) :
    commandWords s (n + 1) = commandWords s n ++ wordsOf timerTick := by
  simp [commandWords, timerTick, List.replicate_succ']

end Words

/-! ## Runs -/

section Runs

variable {s : XenosSetup} {w v : RingWorld} {l : RingLabel}

/-- What holds in every state, whatever the GPU has read. -/
structure PacketsInv (s : XenosSetup) (w : RingWorld) : Prop where
  writePtr : w.ring.ringBufferWritePtr.toNat = w.log.length % 8192
  words : ∃ n, w.words ++ wordsOf w.pending = commandWords s n
  aligned : Aligned w.words w.pending

/-- A step of the ring: a word goes to its next place, and a pointer that is published is the end of a packet. -/
structure RingPackets (s : XenosSetup) (e : Edge RingWorld RingLabel) : Prop where
  commands : ∃ n, e.pre.words <+: commandWords s n
  stored : ∀ data, e.label = .writeRing data →
    e.pre.log.length % xenosRingbufferLength.toNat < xenosRingbufferLength.toNat ∧
      e.post.words = e.pre.words ++ [data] ∧
      e.post.ring.ringBuffer =
        Function.update e.pre.ring.ringBuffer (e.pre.log.length % xenosRingbufferLength.toNat) data
  published : e.label = .syncRingBuffer → (∃! ps : List Pm4Packet, stream ps = e.pre.words) ∧
    e.post.ring.cpRbWritePtr.toNat = e.pre.log.length % xenosRingbufferLength.toNat

theorem packetsInv_init (h : RingInit s w) : PacketsInv s w := by
  obtain ⟨hwrite, -, -, hpending, hlog, -, -⟩ := h
  have hwords : w.words = [] := by rw [RingWorld.words, hlog, List.map_nil]
  refine ⟨by simp [hwrite, hlog], ⟨0, ?_⟩, ?_⟩
  · rw [hwords, hpending, List.nil_append, wordsOf_bringup]
  · rw [hwords, hpending]
    exact aligned_bringup s

theorem packetsInv_step (h : PacketsInv s w) (hs : RingStep w l v) : PacketsInv s v := by
  obtain ⟨n, hn⟩ := h.words
  have haligned := h.aligned
  cases hs with
  | @writeRing data rest hp =>
    rw [hp] at haligned
    rw [hp, wordsOf_writeRing] at hn
    refine ⟨?_, ⟨n, ?_⟩, ?_⟩
    · rw [List.length_append]
      exact toNat_nextIndex h.writePtr
    · simpa [RingWorld.words] using hn
    · rw [RingWorld.words, List.map_append]
      exact haligned
  | syncRingBuffer hp =>
    rw [hp] at haligned
    rw [hp, wordsOf_syncRingBuffer] at hn
    exact ⟨h.writePtr, ⟨n, hn⟩, haligned.2⟩
  | tick hp =>
    rw [hp, wordsOf_nil, List.append_nil] at hn
    rw [hp] at haligned
    refine ⟨h.writePtr, ⟨n + 1, ?_⟩, aligned_timerTick haligned⟩
    rw [commandWords_succ, ← hn]
    rfl
  | consume => exact ⟨h.writePtr, h.words, h.aligned⟩

theorem ringPackets_step (h : PacketsInv s w) (hs : RingStep w l v) : RingPackets s ⟨w, l, v⟩ := by
  have hlen : xenosRingbufferLength.toNat = 8192 := rfl
  obtain ⟨n, hn⟩ := h.words
  refine ⟨⟨n, wordsOf w.pending, hn⟩, fun data hl => ?_, fun hl => ?_⟩
  · dsimp only at hl
    subst hl
    cases hs with
    | writeRing hp =>
      rw [hlen, ← h.writePtr]
      refine ⟨?_, by simp [RingWorld.words], rfl⟩
      rw [h.writePtr]
      exact Nat.mod_lt _ (by decide)
  · dsimp only at hl
    subst hl
    cases hs with
    | syncRingBuffer hp =>
      have haligned := h.aligned
      rw [hp] at haligned
      obtain ⟨ps, hps⟩ := complete_iff.mp haligned.1
      exact ⟨⟨ps, hps, fun qs hqs => stream_injective (hqs.trans hps.symm)⟩, h.writePtr⟩

/-- **The ring holds packets**, over whole runs. -/
theorem ring_packets {es : List (Edge RingWorld RingLabel)} (h : Run (RingInit s) RingStep es w) :
    ∀ e ∈ es, RingPackets s e := by
  intro e he
  obtain ⟨hI, hs⟩ := h.edge_invariant (I := PacketsInv s) (fun _ => packetsInv_init) (fun _ _ _ => packetsInv_step) e he
  exact ringPackets_step hI hs

/-- `start` and the first tick, whose words the GPU has all read. -/
theorem ring_packets_tick : ∃ es w, Run (RingInit ⟨640, 480, 0x1E000000, 0x1E400000, 0x1000, 0x2000⟩) RingStep es w ∧
    w.consumed = commandWords ⟨640, 480, 0x1E000000, 0x1E400000, 0x1000, 0x2000⟩ 1 ∧
      ∀ e ∈ es, RingPackets ⟨640, 480, 0x1E000000, 0x1E400000, 0x1000, 0x2000⟩ e := by
  obtain ⟨w, ⟨es, h, -⟩, hwords, hread⟩ := reaches_tick ⟨640, 480, 0x1E000000, 0x1E400000, 0x1000, 0x2000⟩
  exact ⟨es, w, h, hread.trans hwords, ring_packets h⟩

end Runs

end Osx360.Graphics
