import Osx360.Lib.Run
import Osx360.Ethernet.TransmitRing

/-!
# Ownership of transmitted packets

Runs of `sendTxPacket`, `handleTxInterrupt` and completions by the hardware, in any order, from the ring that
`initTransmitReceiveBuffers` leaves. Every run is a run of a queue of chains (`TxWorld.Models`, `models_step`), whence
the tiling of the ring and the fate of every packet (`tx_ownership`).
-/

set_option autoImplicit false

namespace Osx360.Ethernet

open Osx360.Lib

/-! ## The system -/

/-- The transmit part of `initTransmitReceiveBuffers`; the state array is not touched. -/
def initTxRing (s : TxRing) : TxRing :=
  { txDesc := fun i => if i.val = txDescCount - 1 then { Descriptor.zero with length := descLengthEnd } else .zero
    txDescStates := s.txDescStates
    txReadIndex := 0
    txWriteIndex := 0 }

/-- The ring, the first descriptors that the hardware has yet to complete, and what became of the packets. -/
structure TxWorld where
  ring : TxRing
  hardware : List Index
  accepted : List Mbuf
  dropped : List Mbuf
  stalled : List Mbuf
  /-- How many chains the hardware has completed. -/
  completed : ℕ
  /-- The packets freed by `handleTxInterrupt`. -/
  released : List Mbuf
  /-- The packets freed by either function, in order. -/
  freed : List Mbuf

inductive TxLabel
  | send (p : Mbuf) (segments : List Segment) (reqs : ChecksumDemand)
  | complete
  | interrupt

def TxWorld.send (endStmt : Bool) (w : TxWorld) (p : Mbuf) (segments : List Segment) (reqs : ChecksumDemand) :
    TxWorld :=
  match sendTxPacket endStmt w.ring p segments reqs with
  | (.success, freed, writes) =>
    { w with ring := applyAll writes w.ring, hardware := w.hardware ++ [w.ring.txWriteIndex],
             accepted := w.accepted ++ [p], freed := w.freed ++ freed }
  | (.dropped, freed, writes) =>
    { w with ring := applyAll writes w.ring, dropped := w.dropped ++ [p], freed := w.freed ++ freed }
  | (.stall, freed, writes) =>
    { w with ring := applyAll writes w.ring, stalled := w.stalled ++ [p], freed := w.freed ++ freed }

/-- The memory cursor fills at most the `txMaxSegCount` segments that it is given room for. -/
inductive TxStep (endStmt : Bool) : TxWorld → TxLabel → TxWorld → Prop
  | send {w : TxWorld} (p : Mbuf) (segments : List Segment) (reqs : ChecksumDemand) :
      segments.length ≤ txMaxSegCount → TxStep endStmt w (.send p segments reqs) (w.send endStmt p segments reqs)
  | complete {w : TxWorld} {i : Index} {rest : List Index} : w.hardware = i :: rest →
      TxStep endStmt w .complete
        { w with ring := clearOwner i w.ring, hardware := rest, completed := w.completed + 1 }
  | interrupt {w : TxWorld} {freed : List Mbuf} {ring : TxRing} : handleTxInterrupt w.ring = some (freed, ring) →
      TxStep endStmt w .interrupt
        { w with ring := ring, released := w.released ++ freed, freed := w.freed ++ freed }

/-- After `initTransmitReceiveBuffers`, with an empty state array. -/
def TxInit (w : TxWorld) : Prop :=
  ∃ s : TxRing, (∀ i, s.txDescStates i = .empty) ∧ w = ⟨initTxRing s, [], [], [], [], 0, [], []⟩

/-! ## The queue behind a world -/

/-- The world is the queue of chains. -/
structure TxWorld.Models (w : TxWorld) (q : Fifo Chain) (r : ℕ) : Prop where
  drives : Drives w.ring w.hardware q r
  accepted : w.accepted = q.accepted.map Chain.packet
  released : w.released = q.released.map Chain.packet
  completed : w.completed = q.released.length + q.completed.length
  freed : ∀ p, w.freed.count p = w.dropped.count p + w.released.count p

theorem owned_zero (l : Word) : ({ Descriptor.zero with length := l } : Descriptor).owned = false := by
  simp [Descriptor.owned, Descriptor.zero]

/-- The ring after `initTransmitReceiveBuffers` is the empty queue. -/
theorem drives_init {s : TxRing} (hs : ∀ i, s.txDescStates i = .empty) : Drives (initTxRing s) [] .empty 0 := by
  refine ⟨⟨⟨rfl, rfl, by simp [Fifo.outstanding, Fifo.empty], by simp [Fifo.outstanding, Fifo.empty], trivial,
    fun k _ _ => hs _⟩, trivial, trivial, fun k _ _ => ?_⟩, rfl⟩
  show (if _ then _ else _ : Descriptor).owned = false
  split
  · exact owned_zero _
  · exact owned_zero 0

theorem models_init {w : TxWorld} (h : TxInit w) : w.Models .empty 0 := by
  obtain ⟨s, hs, rfl⟩ := h
  exact ⟨drives_init hs, rfl, rfl, rfl, fun p => rfl⟩

/-- The three answers of `sendTxPacket`. -/
theorem sendTxPacket_cases (endStmt : Bool) (s : TxRing) (p : Mbuf) (segments : List Segment) (reqs : ChecksumDemand) :
    (txFree s.txReadIndex s.txWriteIndex < txMaxSegCount ∧
        sendTxPacket endStmt s p segments reqs = (.stall, [], [])) ∨
      (¬ txFree s.txReadIndex s.txWriteIndex < txMaxSegCount ∧ segments = [] ∧
        sendTxPacket endStmt s p segments reqs = (.dropped, [p], [])) ∨
      (¬ txFree s.txReadIndex s.txWriteIndex < txMaxSegCount ∧ ∃ seg segs, segments = seg :: segs ∧
        sendTxPacket endStmt s p segments reqs =
          (.success, [], sendWrites endStmt s.txWriteIndex p seg segs reqs)) := by
  unfold sendTxPacket
  by_cases h : txFree s.txReadIndex s.txWriteIndex < txMaxSegCount
  · exact Or.inl ⟨h, if_pos h⟩
  · rw [if_neg h]
    cases segments with
    | nil => exact Or.inr (Or.inl ⟨h, rfl, rfl⟩)
    | cons seg segs => exact Or.inr (Or.inr ⟨h, seg, segs, rfl, rfl⟩)

theorem send_ring (endStmt : Bool) (w : TxWorld) (p : Mbuf) (segments : List Segment) (reqs : ChecksumDemand) :
    (w.send endStmt p segments reqs).ring = applyAll (sendTxPacket endStmt w.ring p segments reqs).2.2 w.ring := by
  unfold TxWorld.send
  split <;> (rename_i he; rw [he])

section Models

variable {endStmt : Bool} {w : TxWorld} {q : Fifo Chain} {r : ℕ}

theorem models_accept (endStmt : Bool) (h : w.Models q r) (p : Mbuf) {seg : Segment} {segs : List Segment}
    (reqs : ChecksumDemand) (hl : segs.length + 1 ≤ txMaxSegCount)
    (hroom : ¬ txFree w.ring.txReadIndex w.ring.txWriteIndex < txMaxSegCount) :
    (w.send endStmt p (seg :: segs) reqs).Models (q.accept ⟨p, seg :: segs⟩) r := by
  obtain ⟨hdr, hacc, hrel, hcomp, hfreed⟩ := h
  unfold TxWorld.send sendTxPacket
  rw [if_neg hroom]
  refine ⟨hdr.send hroom p seg reqs hl endStmt, ?_, hrel, hcomp, by simpa using hfreed⟩
  rw [Fifo.accepted_accept, List.map_append, ← hacc]
  rfl

theorem models_send (endStmt : Bool) (h : w.Models q r) (p : Mbuf) {segments : List Segment} (reqs : ChecksumDemand)
    (hl : segments.length ≤ txMaxSegCount) : ∃ q', (w.send endStmt p segments reqs).Models q' r := by
  rcases sendTxPacket_cases endStmt w.ring p segments reqs with ⟨_, he⟩ | ⟨_, _, he⟩ | ⟨hroom, seg, segs, rfl, _⟩
  · refine ⟨q, ?_⟩
    unfold TxWorld.send
    rw [he]
    exact ⟨h.drives, h.accepted, h.released, h.completed, by simpa using h.freed⟩
  · refine ⟨q, ?_⟩
    unfold TxWorld.send
    rw [he]
    refine ⟨h.drives, h.accepted, h.released, h.completed, fun p' => ?_⟩
    simp only [List.count_append, h.freed]
    omega
  · exact ⟨_, models_accept endStmt h p reqs hl hroom⟩

theorem models_complete (h : w.Models q r) {i : Index} {rest : List Index} (hi : w.hardware = i :: rest) :
    ({ w with ring := clearOwner i w.ring, hardware := rest, completed := w.completed + 1 } : TxWorld).Models
      q.complete r := by
  obtain ⟨hdr, hacc, hrel, hcomp, hfreed⟩ := h
  rw [hi] at hdr
  obtain ⟨⟨c, cs, hp⟩, hdr'⟩ := hdr.complete
  refine ⟨hdr', by rw [Fifo.accepted_complete]; exact hacc, ?_, ?_, hfreed⟩
  · rw [Fifo.complete_of_cons hp]
    exact hrel
  · rw [Fifo.complete_of_cons hp]
    simp only [List.length_append, List.length_singleton, hcomp]
    omega

theorem models_interrupt (h : w.Models q r) {freed : List Mbuf} {ring : TxRing}
    (he : handleTxInterrupt w.ring = some (freed, ring)) :
    ({ w with ring := ring, released := w.released ++ freed, freed := w.freed ++ freed } : TxWorld).Models q.release
      (r + span Chain.count q.completed) := by
  obtain ⟨hdr, hacc, hrel, hcomp, hfreed⟩ := h
  obtain ⟨t, ht, hdr'⟩ := hdr.handle
  rw [ht] at he
  simp only [Option.some.injEq, Prod.mk.injEq] at he
  obtain ⟨rfl, rfl⟩ := he
  refine ⟨hdr', ?_, ?_, ?_, fun p => ?_⟩
  · rw [Fifo.accepted_release]; exact hacc
  · simp [Fifo.release, hrel]
  · simp [Fifo.release, hcomp]
  · simp only [List.count_append, hfreed]
    omega

/-- Every step of the ring is a step of the queue. -/
theorem models_step {v : TxWorld} {l : TxLabel} (h : ∃ q r, w.Models q r) (hs : TxStep endStmt w l v) :
    ∃ q r, v.Models q r := by
  obtain ⟨q, r, h⟩ := h
  cases hs with
  | send p segments reqs hl =>
    obtain ⟨q', h'⟩ := models_send endStmt h p reqs hl
    exact ⟨q', r, h'⟩
  | complete hi => exact ⟨_, _, models_complete h hi⟩
  | interrupt he => exact ⟨_, _, models_interrupt h he⟩

theorem models_run {es : List (Edge TxWorld TxLabel)} (h : Run TxInit (TxStep endStmt) es w) :
    ∃ q r, w.Models q r :=
  h.invariant (I := fun w => ∃ q r, TxWorld.Models w q r) (fun _ h0 => ⟨.empty, 0, models_init h0⟩)
    fun _ _ _ hm hs => models_step hm hs

end Models

/-! ## The fate of every packet -/

/-- What one call does with the packets. -/
def TxCallSpec (endStmt : Bool) (e : Edge TxWorld TxLabel) : Prop :=
  match e.label with
  | .send p segments reqs =>
    match (sendTxPacket endStmt e.pre.ring p segments reqs).1 with
    | .success =>
      e.post.accepted = e.pre.accepted ++ [p] ∧ e.post.dropped = e.pre.dropped ∧ e.post.freed = e.pre.freed
    | .dropped =>
      e.post.accepted = e.pre.accepted ∧ e.post.dropped = e.pre.dropped ++ [p] ∧
        e.post.freed = e.pre.freed ++ [p] ∧ e.post.ring = e.pre.ring
    | .stall =>
      e.post.accepted = e.pre.accepted ∧ e.post.dropped = e.pre.dropped ∧ e.post.freed = e.pre.freed ∧
        e.post.ring = e.pre.ring ∧ e.pre.released.length < e.pre.accepted.length
  | .complete => e.post.accepted = e.pre.accepted ∧ e.post.dropped = e.pre.dropped ∧ e.post.freed = e.pre.freed
  | .interrupt =>
    e.post.accepted = e.pre.accepted ∧ e.post.dropped = e.pre.dropped ∧ e.post.released.length = e.post.completed

/-- Where the packets are between the calls. -/
structure TxOwned (w : TxWorld) : Prop where
  tiled : ∃ cs r, Tiled w.ring cs r ∧ w.accepted = w.released ++ cs.map Chain.packet
  completed : w.released.length ≤ w.completed ∧ w.completed ≤ w.accepted.length
  freed : ∀ p, w.freed.count p = w.dropped.count p + w.released.count p
  returns : ∃ freed ring, handleTxInterrupt w.ring = some (freed, ring)

theorem TxWorld.Models.owned {w : TxWorld} {q : Fifo Chain} {r : ℕ} (h : w.Models q r) : TxOwned w := by
  obtain ⟨t, ht, _⟩ := h.drives.tracks.handle
  refine ⟨⟨q.outstanding, r, h.drives.tracks.tiled, ?_⟩, ?_, h.freed, ⟨_, t, ht⟩⟩
  · rw [h.accepted, h.released, ← List.map_append, Fifo.released_append_outstanding]
  · rw [h.accepted, h.released, h.completed, List.length_map, List.length_map]
    simp only [Fifo.accepted, List.length_append]
    omega

theorem callSpec_step {endStmt : Bool} {w v : TxWorld} {l : TxLabel} {q : Fifo Chain} {r : ℕ} (h : w.Models q r)
    (hs : TxStep endStmt w l v) : TxCallSpec endStmt ⟨w, l, v⟩ := by
  cases hs with
  | complete hi => exact ⟨rfl, rfl, rfl⟩
  | interrupt he =>
    refine ⟨rfl, rfl, ?_⟩
    have h' := models_interrupt h he
    rw [h'.released, h'.completed]
    simp [Fifo.release]
  | send p segments reqs hl =>
    unfold TxCallSpec TxWorld.send
    rcases sendTxPacket_cases endStmt w.ring p segments reqs with ⟨hroom, he⟩ | ⟨_, _, he⟩ | ⟨_, _, _, _, he⟩
    · have hne := List.length_pos_of_ne_nil (h.drives.tracks.tiled.no_room hroom)
      have hlt : w.released.length < w.accepted.length := by
        rw [h.accepted, h.released, List.length_map, List.length_map, ← Fifo.released_append_outstanding,
          List.length_append]
        omega
      simpa [he] using hlt
    · simp [he]
    · simp [he]

/-- **Ownership of transmitted packets**, the end-of-ring statement set aside. -/
theorem tx_ownership {es : List (Edge TxWorld TxLabel)} {w : TxWorld} (h : Run TxInit (TxStep false) es w) :
    TxOwned w ∧ ∀ e ∈ es, TxOwned e.pre ∧ TxCallSpec false e := by
  obtain ⟨q, r, hm⟩ := models_run h
  refine ⟨hm.owned, fun e he => ?_⟩
  obtain ⟨⟨q', r', hm'⟩, hs⟩ := h.edge_invariant (I := fun w => ∃ q r, TxWorld.Models w q r)
    (fun _ h0 => ⟨.empty, 0, models_init h0⟩) (fun _ _ _ hm hs => models_step hm hs) e he
  exact ⟨hm'.owned, callSpec_step hm' hs⟩

/-! ## A run of one packet -/

def startRing : TxRing := initTxRing ⟨fun _ => .zero, fun _ => .empty, 0, 0⟩

def startWorld : TxWorld := ⟨startRing, [], [], [], [], 0, [], []⟩

theorem startWorld_init : TxInit startWorld := ⟨_, fun _ => rfl, rfl⟩

/-- A segment of 64 bytes. -/
def segment64 : Segment := ⟨0x1000, 64, by decide⟩

theorem tx_ownership_single : ∃ w : TxWorld, w.accepted = [7] ∧ w.released = [7] ∧ TxOwned w := by
  have h0 : Run TxInit (TxStep false) [] startWorld := .start startWorld_init
  have h1 := h0.step (.send 7 [segment64] ⟨true, false, false⟩ (by decide))
  have h3 := (h1.step (.complete rfl)).step (.interrupt rfl)
  exact ⟨_, rfl, rfl, (tx_ownership h3).1⟩

end Osx360.Ethernet
