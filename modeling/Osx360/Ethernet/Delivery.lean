import Osx360.Lib.Ledger
import Osx360.Ethernet.ReceiveDma

/-!
# Delivery of received frames

The controller has received `w.received.length` frames and stands that many descriptors from the start; the driver has
moved on `w.advanced` times. Between the driver's and the controller's position the descriptors are filled and wait for
the driver, from there up to a whole ring further they are the controller's (`RxLive`). A round in progress adds a
packet in transit (`RxDriverAt`). So the frames are delivered in order, and the controller leads by a ring at most, plus
the descriptor that a round has handed back but not left (`rx_delivery`).
-/

set_option autoImplicit false

namespace Osx360.Ethernet

open Osx360.Lib

/-! ## The invariant -/

variable {Frame : Type}

/-- The descriptor is set up for the packet of its slot. -/
structure RxSet (buffers : Mbuf → Segment) (held : Index → Mbuf) (s : RxRing) (i : Index) : Prop where
  last : (s.rxDesc i).hasEnd = true ↔ i.val = rxDescCount - 1
  packet : s.rxPackets i = some (held i)
  address : (s.rxDesc i).address = (buffers (held i)).location

/-- The frame and the status of the `k`-th frame received are in place. -/
structure RxFilled (buffers : Mbuf → Segment) (held : Index → Mbuf) (w : RxDmaWorld Frame) (k : ℕ) : Prop where
  packet : w.ring.rxPackets (slot 256 k) = some (held (slot 256 k))
  frame : w.received[k]? =
    some (w.memory (buffers (held (slot 256 k))).location, (w.ring.rxDesc (slot 256 k)).packetLength)

/-- The ring around the controller: the driver has handed back the descriptors up to counter `back + 256` and no longer
needs those before counter `first`. -/
structure RxLive (buffers : Mbuf → Segment) (held : Index → Mbuf) (w : RxDmaWorld Frame) (back first : ℕ) : Prop where
  next : w.next = (slot 256 w.received.length).val
  index : w.ring.rxIndex = slot 256 w.advanced
  order : back ≤ first ∧ first ≤ w.received.length ∧ w.received.length ≤ back + 256
  distinct : Function.Injective fun i => (buffers (held i)).location
  host : ∀ k, back ≤ k → k < w.received.length → (w.ring.rxDesc (slot 256 k)).owned = false
  filled : ∀ k, first ≤ k → k < w.received.length → RxFilled buffers held w k
  hardware : ∀ k, w.received.length ≤ k → k < back + 256 →
    (w.ring.rxDesc (slot 256 k)).owned = true ∧ RxSet buffers held w.ring (slot 256 k)
  controller : ∀ frame status, w.controller = .filling frame status → w.received.length < back + 256 ∧
    w.memory (buffers (held (slot 256 w.received.length))).location = frame ∧
    (w.ring.rxDesc (slot 256 w.received.length)).packetLength = status

/-- The lengths handed on with the first `n` frames. -/
def lowLengths (received : List (Frame × Word)) (n : ℕ) : List (Frame × BitVec 16) :=
  (received.take n).map fun r => (r.1, r.2.setWidth 16)

/-- The packet in transit holds the frame that the driver is at. -/
structure InTransit (buffers : Mbuf → Segment) (held : Index → Mbuf) (w : RxDmaWorld Frame) (give : Mbuf)
    (packetLength : BitVec 16) : Prop where
  frame : ∃ status, w.received[w.advanced]? = some (w.memory (buffers give).location, status) ∧
    packetLength = status.setWidth 16
  apart : ∀ i, (buffers (held i)).location ≠ (buffers give).location

/-- Where the driver is in its round. -/
inductive RxDriverAt (buffers : Mbuf → Segment) (held : Index → Mbuf) (w : RxDmaWorld Frame) (back first : ℕ) : Prop
  | resting : (∀ todo, w.driver = .round todo → todo = []) → back = w.advanced → first = w.advanced →
      w.delivered = lowLengths w.received w.advanced → RxDriverAt buffers held w back first
  | preparing (pre : List RxAction) (give : Mbuf) (packetLength : BitVec 16) :
      w.driver = .round (pre ++ [.flags w.ring.rxIndex (txFlagsInterrupt ||| txFlagsOwner),
        .input (some give) packetLength, .rxIndex (rxNext w.ring.rxIndex)]) →
      (∀ a ∈ pre, a.Prepares w.ring.rxIndex) → RxSet buffers held (applyRx pre w.ring) w.ring.rxIndex →
      InTransit buffers held w give packetLength → back = w.advanced → first = w.advanced + 1 →
      w.delivered = lowLengths w.received w.advanced → RxDriverAt buffers held w back first
  | handedBack (give : Mbuf) (packetLength : BitVec 16) :
      w.driver = .round [.input (some give) packetLength, .rxIndex (rxNext w.ring.rxIndex)] →
      InTransit buffers held w give packetLength → back = w.advanced + 1 → first = w.advanced + 1 →
      w.delivered = lowLengths w.received w.advanced → RxDriverAt buffers held w back first
  | handedOn : w.driver = .round [.rxIndex (rxNext w.ring.rxIndex)] → back = w.advanced + 1 →
      first = w.advanced + 1 → w.delivered = lowLengths w.received (w.advanced + 1) →
      RxDriverAt buffers held w back first

def RxDmaInv (buffers : Mbuf → Segment) (w : RxDmaWorld Frame) : Prop :=
  ∃ held back first, RxLive buffers held w back first ∧ RxDriverAt buffers held w back first

/-! ## Small facts -/

section Facts

variable {buffers : Mbuf → Segment} {held : Index → Mbuf} {w : RxDmaWorld Frame} {back first : ℕ}

theorem lowLengths_succ {received : List (Frame × Word)} {n : ℕ} {r : Frame × Word} (h : received[n]? = some r) :
    lowLengths received (n + 1) = lowLengths received n ++ [(r.1, r.2.setWidth 16)] := by
  unfold lowLengths
  rw [List.take_add_one, h, List.map_append]
  rfl

theorem lowLengths_length {received : List (Frame × Word)} {n : ℕ} (h : n ≤ received.length) :
    (lowLengths received n).length = n := by
  rw [lowLengths, List.length_map, List.length_take_of_le h]

/-- Between two rounds nothing is in transit. -/
theorem RxDriverAt.of_scanning (hat : RxDriverAt buffers held w back first) (hd : w.driver = .scanning) :
    back = w.advanced ∧ first = w.advanced ∧ w.delivered = lowLengths w.received w.advanced := by
  cases hat with
  | resting _ hback hfirst hdel => exact ⟨hback, hfirst, hdel⟩
  | preparing _ _ _ hd' => rw [hd] at hd'; cases hd'
  | handedBack _ _ hd' => rw [hd] at hd'; cases hd'
  | handedOn hd' => rw [hd] at hd'; cases hd'

/-- The controller's descriptor, if it owns it. -/
theorem RxLive.owned_lt (h : RxLive buffers held w back first)
    (ho : (w.ring.rxDesc (slot 256 w.received.length)).owned = true) : w.received.length < back + 256 := by
  obtain ⟨h1, h2, h3⟩ := h.order
  by_contra hge
  have he : w.received.length = back + 256 := by omega
  have hhost := h.host back (Nat.le_refl _) (by omega)
  rw [he, slot_add_self, hhost] at ho
  cases ho

/-- Every descriptor that the controller owns is set up. -/
theorem RxLive.set_of_owned (h : RxLive buffers held w back first) {i : Index} (ho : (w.ring.rxDesc i).owned = true) :
    RxSet buffers held w.ring i := by
  obtain ⟨k, h1, h2, rfl⟩ := exists_slot back i
  rcases Nat.lt_or_ge k w.received.length with hlt | hge
  · rw [h.host k h1 hlt] at ho
    cases ho
  · exact (h.hardware k hge h2).2

/-- With no descriptor in preparation every slot holds its packet. -/
theorem RxLive.packets (h : RxLive buffers held w back first) (he : first = back) (i : Index) :
    w.ring.rxPackets i = some (held i) := by
  obtain ⟨k, h1, h2, rfl⟩ := exists_slot back i
  rcases Nat.lt_or_ge k w.received.length with hlt | hge
  · exact (h.filled k (by omega) hlt).packet
  · exact (h.hardware k hge h2).2.packet

/-- Only address and length matter. -/
theorem RxSet.modifyDesc {s : RxRing} {i : Index} (h : RxSet buffers held s i) (j : Index)
    {f : Descriptor → Descriptor} (haddr : ∀ d, (f d).address = d.address) (hlen : ∀ d, (f d).length = d.length) :
    RxSet buffers held (s.modifyDesc j f) i := by
  obtain ⟨hlast, hpacket, haddress⟩ := h
  by_cases hi : i = j
  · subst hi
    refine ⟨?_, hpacket, ?_⟩
    · simpa [RxRing.modifyDesc, Descriptor.hasEnd, hlen] using hlast
    · simpa [RxRing.modifyDesc, haddr] using haddress
  · refine ⟨?_, hpacket, ?_⟩
    · simpa [RxRing.modifyDesc, Function.update_of_ne hi] using hlast
    · simpa [RxRing.modifyDesc, Function.update_of_ne hi] using haddress

end Facts

/-! ## Steps of the driver -/

section Driver

variable {buffers : Mbuf → Segment} {held held' : Index → Mbuf} {w v : RxDmaWorld Frame} {back first : ℕ}

/-- Nothing changes for the controller, and for the driver only in descriptors that it does not wait for. -/
theorem RxLive.congr (h : RxLive buffers held w back first) (hnext : v.next = w.next)
    (hreceived : v.received = w.received) (hcontroller : v.controller = w.controller)
    (hadvanced : v.advanced = w.advanced) (hindex : v.ring.rxIndex = w.ring.rxIndex)
    (hflags : ∀ k, (v.ring.rxDesc k).flags = (w.ring.rxDesc k).flags)
    (hsame : ∀ k, first ≤ k → k < back + 256 → v.ring.rxDesc (slot 256 k) = w.ring.rxDesc (slot 256 k) ∧
      v.ring.rxPackets (slot 256 k) = w.ring.rxPackets (slot 256 k) ∧ held' (slot 256 k) = held (slot 256 k))
    (hdistinct : Function.Injective fun i => (buffers (held' i)).location)
    (hmemory : ∀ i, v.memory (buffers (held i)).location = w.memory (buffers (held i)).location) :
    RxLive buffers held' v back first := by
  obtain ⟨h1, h2, h3⟩ := h.order
  refine ⟨?_, ?_, ?_, hdistinct, ?_, ?_, ?_, ?_⟩
  · rw [hnext, hreceived]; exact h.next
  · rw [hindex, hadvanced]; exact h.index
  · rw [hreceived]; exact h.order
  · intro k hk1 hk2
    rw [hreceived] at hk2
    unfold Descriptor.owned
    rw [hflags]
    exact h.host k hk1 hk2
  · intro k hk1 hk2
    rw [hreceived] at hk2
    obtain ⟨hdesc, hpacket, hheld⟩ := hsame k hk1 (by omega)
    have hf := h.filled k hk1 hk2
    refine ⟨?_, ?_⟩
    · rw [hpacket, hheld]; exact hf.packet
    · rw [hreceived, hdesc, hheld, hmemory]; exact hf.frame
  · intro k hk1 hk2
    rw [hreceived] at hk1
    obtain ⟨hdesc, hpacket, hheld⟩ := hsame k (by omega) hk2
    obtain ⟨hown, hlast, hpkt, haddr⟩ := h.hardware k hk1 hk2
    rw [hdesc]
    refine ⟨hown, ⟨?_, ?_, ?_⟩⟩
    · rw [hdesc]; exact hlast
    · rw [hpacket, hheld]; exact hpkt
    · rw [hdesc, hheld]; exact haddr
  · intro frame status hc
    rw [hcontroller] at hc
    obtain ⟨hlt, hframe, hstatus⟩ := h.controller frame status hc
    obtain ⟨hdesc, _, hheld⟩ := hsame w.received.length h2 hlt
    rw [hreceived, hdesc, hheld, hmemory]
    exact ⟨hlt, hframe, hstatus⟩

/-- The driver no longer waits for its descriptor. -/
theorem RxLive.skip (h : RxLive buffers held w back first) (hlt : first < w.received.length) :
    RxLive buffers held w back (first + 1) := by
  obtain ⟨h1, h2, h3⟩ := h.order
  exact ⟨h.next, h.index, ⟨by omega, hlt, h3⟩, h.distinct, h.host, fun k hk => h.filled k (by omega), h.hardware,
    h.controller⟩

/-- The driver's descriptor is ready exactly if the controller has gone past it. -/
theorem RxLive.ready_iff (h : RxLive buffers held w w.advanced w.advanced) :
    rxReady w.ring = true ↔ w.advanced < w.received.length := by
  obtain ⟨_, h2, h3⟩ := h.order
  unfold rxReady
  rw [h.index]
  constructor
  · intro hready
    by_contra hge
    have hown := (h.hardware w.advanced (Nat.le_of_not_lt hge) (by omega)).1
    rw [hown] at hready
    cases hready
  · intro hlt
    rw [h.host w.advanced (Nat.le_refl _) hlt]
    rfl

/-- What a successful round keeps in the slot and hands on, and where the frame is. -/
theorem RxLive.outcome (h : RxLive buffers held w w.advanced w.advanced) {o : RxOutcome}
    (ho : o.replacement ≠ .failed) (hs : o.segment.isSome) (hfresh : ∀ m ∈ o.replacement.obtained, ∀ i m',
      w.ring.rxPackets i = some m' → (buffers m').location ≠ (buffers m).location) :
    ∃ keep give, o.packet w.ring = some keep ∧ o.input w.ring = some give ∧
      (Function.Injective fun i => (buffers (Function.update held w.ring.rxIndex keep i)).location) ∧
      (∀ i, (buffers (Function.update held w.ring.rxIndex keep i)).location ≠ (buffers give).location) ∧
      (∀ i, copyFrame buffers w.ring w.memory o.replacement (buffers (held i)).location =
        w.memory (buffers (held i)).location) ∧
      copyFrame buffers w.ring w.memory o.replacement (buffers give).location =
        w.memory (buffers (held w.ring.rxIndex)).location := by
  have hpackets := h.packets rfl
  have hpacket := hpackets w.ring.rxIndex
  obtain ⟨r, sg⟩ := o
  unfold RxOutcome.packet RxOutcome.input
  rw [if_pos hs, hpacket]
  cases r with
  | failed => exact absurd rfl ho
  | copied m =>
    have hne : ∀ i, (buffers (held i)).location ≠ (buffers m).location :=
      fun i => hfresh m (List.mem_singleton_self m) i (held i) (hpackets i)
    have hcopy : copyFrame buffers w.ring w.memory (.copied m) =
        Function.update w.memory (buffers m).location (w.memory (buffers (held w.ring.rxIndex)).location) := by
      unfold copyFrame
      rw [hpacket]
    refine ⟨held w.ring.rxIndex, m, rfl, rfl, ?_⟩
    simp only [Function.update_eq_self, hcopy, Function.update_self]
    exact ⟨h.distinct, hne, fun i => Function.update_of_ne (hne i) _ _, trivial⟩
  | replaced m =>
    have hne : ∀ i, (buffers (held i)).location ≠ (buffers m).location :=
      fun i => hfresh m (List.mem_singleton_self m) i (held i) (hpackets i)
    refine ⟨m, held w.ring.rxIndex, rfl, rfl, ?_, fun i => ?_, fun _ => rfl, rfl⟩
    · have hinj : Function.Injective (Function.update ((fun m => (buffers m).location) ∘ held) w.ring.rxIndex
          (buffers m).location) := injective_update h.distinct hne _
      rw [← Function.comp_update (fun m => (buffers m).location)] at hinj
      exact hinj
    · by_cases hi : i = w.ring.rxIndex
      · rw [hi, Function.update_self]
        exact (hne _).symm
      · rw [Function.update_of_ne hi]
        exact fun he => hi (h.distinct he)

theorem rxDmaInv_round (hd : w.driver = .scanning) (hready : rxReady w.ring = true)
    (hinv : RxDmaInv buffers w) {o : RxOutcome} (ho : o.replacement ≠ .failed) (hs : o.segment.isSome)
    (hfresh : ∀ m ∈ o.replacement.obtained, ∀ i m', w.ring.rxPackets i = some m' →
      (buffers m').location ≠ (buffers m).location)
    (hmem : ∀ seg m, o.segment = some seg → o.packet w.ring = some m → seg = buffers m) :
    RxDmaInv buffers
      { w with driver := .round (rxRound w.ring o), memory := copyFrame buffers w.ring w.memory o.replacement } := by
  obtain ⟨held, back, first, h, hat⟩ := hinv
  obtain ⟨hback, hfirst, hdel⟩ := hat.of_scanning hd
  subst hback hfirst
  have hlt := h.ready_iff.mp hready
  obtain ⟨keep, give, hpacket, hinput, hdistinct, hapart, hcopy, hgive⟩ := h.outcome ho hs hfresh
  obtain ⟨seg, hseg⟩ := Option.isSome_iff_exists.mp hs
  have hfilled := (h.filled w.advanced (Nat.le_refl _) hlt).frame
  refine ⟨Function.update held w.ring.rxIndex keep, w.advanced, w.advanced + 1, ?_, ?_⟩
  · refine (h.skip hlt).congr rfl rfl rfl rfl rfl (fun _ => rfl) (fun k h1 h2 => ⟨rfl, rfl, ?_⟩) hdistinct hcopy
    rw [h.index, Function.update_of_ne]
    exact (slot_ne (by omega) (by omega)).symm
  · refine .preparing (rxPrepare w.ring o) give (rxPacketLength (w.ring.rxDesc w.ring.rxIndex).packetLength) ?_
      (prepares w.ring hs) ?_ ⟨⟨_, ?_, rxPacketLength_eq _⟩, hapart⟩ rfl rfl hdel
    · rw [← hinput, ← rxRound_eq]
    · rw [applyRx_prepare, hseg, hpacket]
      refine ⟨?_, ?_, ?_⟩
      · simp only [Function.update_self]
        exact hasEnd_rxPrepared_some _ _ _
      · simp only [Function.update_self]
      · simp only [Function.update_self]
        rw [hmem seg keep hseg hpacket]
        rfl
    · simp only [hgive, h.index]
      exact hfilled

/-- The descriptor that a round hands back is the controller's again. -/
theorem RxLive.handBack (h : RxLive buffers held w w.advanced (w.advanced + 1))
    (hset : RxSet buffers held w.ring w.ring.rxIndex) (todo : List RxAction) :
    RxLive buffers held (w.act buffers (.flags w.ring.rxIndex (txFlagsInterrupt ||| txFlagsOwner)) todo)
      (w.advanced + 1) (w.advanced + 1) := by
  obtain ⟨h1, h2, h3⟩ := h.order
  have hdesc : ∀ k, w.advanced < k → k < w.advanced + 256 →
      (w.act buffers (.flags w.ring.rxIndex (txFlagsInterrupt ||| txFlagsOwner)) todo).ring.rxDesc (slot 256 k) =
        w.ring.rxDesc (slot 256 k) := by
    intro k hk1 hk2
    refine Function.update_of_ne ?_ _ _
    rw [h.index]
    exact (slot_ne hk1 hk2).symm
  have hset' := hset.modifyDesc w.ring.rxIndex (f := fun d => { d with flags := txFlagsInterrupt ||| txFlagsOwner })
    (fun _ => rfl) fun _ => rfl
  refine ⟨h.next, h.index, ⟨Nat.le_refl _, h2, show w.received.length ≤ _ by omega⟩, h.distinct, ?_, ?_, ?_, ?_⟩
  · intro k (hk1 : w.advanced + 1 ≤ k) (hk2 : k < w.received.length)
    rw [hdesc k hk1 (by omega)]
    exact h.host k (by omega) hk2
  · intro k (hk1 : w.advanced + 1 ≤ k) (hk2 : k < w.received.length)
    refine ⟨(h.filled k hk1 hk2).packet, ?_⟩
    rw [hdesc k hk1 (by omega)]
    exact (h.filled k hk1 hk2).frame
  · intro k (hk1 : w.received.length ≤ k) (hk2 : k < w.advanced + 1 + 256)
    rcases Nat.lt_or_ge k (w.advanced + 256) with hlt | hge
    · obtain ⟨hown, hlast, hpacket, haddr⟩ := h.hardware k hk1 hlt
      have hd := hdesc k (by omega) hlt
      exact ⟨by rw [hd]; exact hown, by rw [hd]; exact hlast, hpacket, by rw [hd]; exact haddr⟩
    · have hk : slot 256 k = w.ring.rxIndex := by
        rw [h.index, show k = w.advanced + 256 by omega, slot_add_self]
      rw [hk]
      refine ⟨?_, hset'⟩
      simp only [RxDmaWorld.act, RxAction.apply, RxRing.modifyDesc, Function.update_self]
      exact owned_handBack _
  · intro frame status hc
    obtain ⟨hlt, hframe, hstatus⟩ := h.controller frame status hc
    exact ⟨show w.received.length < _ by omega, hframe, (congrArg _ (hdesc _ h2 hlt)).trans hstatus⟩

/-- A write that prepares the descriptor is nothing to the controller. -/
theorem RxLive.prepare (h : RxLive buffers held w w.advanced (w.advanced + 1)) {a : RxAction}
    (ha : a.Prepares w.ring.rxIndex) (todo : List RxAction) :
    RxLive buffers held (w.act buffers a todo) w.advanced (w.advanced + 1) := by
  obtain ⟨h1, h2, h3⟩ := h.order
  obtain ⟨hidx, hflags, hsame⟩ := ha.frame w.ring
  rw [ha.act]
  refine h.congr rfl rfl rfl rfl hidx hflags (fun k hk1 hk2 => ?_) h.distinct fun _ => rfl
  have hne : slot 256 k ≠ w.ring.rxIndex := by
    rw [h.index]
    exact (slot_ne (by omega) (by omega)).symm
  exact ⟨(hsame _ hne).1, (hsame _ hne).2, rfl⟩

/-- The driver goes on to the next descriptor. -/
theorem RxLive.next_descriptor (h : RxLive buffers held w (w.advanced + 1) (w.advanced + 1)) (todo : List RxAction) :
    RxLive buffers held (w.act buffers (.rxIndex (rxNext w.ring.rxIndex)) todo) (w.advanced + 1) (w.advanced + 1) := by
  refine ⟨h.next, ?_, h.order, h.distinct, h.host, fun k hk1 hk2 => ?_, fun k hk1 hk2 => ?_, h.controller⟩
  · show rxNext w.ring.rxIndex = slot 256 (w.advanced + 1)
    rw [h.index, rxNext_slot]
  · exact ⟨(h.filled k hk1 hk2).packet, (h.filled k hk1 hk2).frame⟩
  · obtain ⟨hown, hset⟩ := h.hardware k hk1 hk2
    exact ⟨hown, hset.last, hset.packet, hset.address⟩

/-- The next action of a round. -/
theorem rxDmaInv_act {a : RxAction} {todo : List RxAction} (hd : w.driver = .round (a :: todo))
    (hinv : RxDmaInv buffers w) : RxDmaInv buffers (w.act buffers a todo) := by
  obtain ⟨held, back, first, h, hat⟩ := hinv
  cases hat with
  | resting hrest _ _ _ => cases hrest _ hd
  | preparing pre give packetLength hd' hpre hset htransit hback hfirst hdel =>
    subst hback hfirst
    rw [hd] at hd'
    cases pre with
    | nil =>
      -- the descriptor is handed back
      simp only [List.nil_append, RxDriver.round.injEq, List.cons.injEq] at hd'
      obtain ⟨rfl, rfl⟩ := hd'
      rw [applyRx_nil] at hset
      refine ⟨held, w.advanced + 1, w.advanced + 1, h.handBack hset _, ?_⟩
      refine .handedBack give packetLength rfl ⟨htransit.frame, htransit.apart⟩ rfl rfl ?_
      simpa [RxDmaWorld.act] using hdel
    | cons b pre =>
      simp only [List.cons_append, RxDriver.round.injEq, List.cons.injEq] at hd'
      obtain ⟨rfl, rfl⟩ := hd'
      have ha := hpre a List.mem_cons_self
      have hidx := (ha.frame w.ring).1
      refine ⟨held, w.advanced, w.advanced + 1, h.prepare ha _, ?_⟩
      rw [ha.act]
      refine .preparing pre give packetLength ?_ ?_ ?_ ⟨htransit.frame, htransit.apart⟩ rfl rfl hdel
      · simp only [hidx]
      · simp only [hidx]
        exact fun b hb => hpre b (List.mem_cons_of_mem _ hb)
      · simp only [hidx]
        exact hset
  | handedBack give packetLength hd' htransit hback hfirst hdel =>
    subst hback hfirst
    rw [hd] at hd'
    simp only [RxDriver.round.injEq, List.cons.injEq] at hd'
    obtain ⟨rfl, rfl⟩ := hd'
    obtain ⟨status, hframe, rfl⟩ := htransit.frame
    refine ⟨held, w.advanced + 1, w.advanced + 1, ?_, ?_⟩
    · exact h.congr rfl rfl rfl rfl rfl (fun _ => rfl) (fun _ _ _ => ⟨rfl, rfl, rfl⟩) h.distinct fun _ => rfl
    · refine .handedOn rfl rfl rfl ?_
      simp [RxDmaWorld.act, lowLengths_succ hframe, hdel]
  | handedOn hd' hback hfirst hdel =>
    subst hback hfirst
    rw [hd] at hd'
    simp only [RxDriver.round.injEq, List.cons.injEq] at hd'
    obtain ⟨rfl, rfl⟩ := hd'
    refine ⟨held, w.advanced + 1, w.advanced + 1, h.next_descriptor _, ?_⟩
    refine .resting (fun todo ht => ?_) rfl rfl ?_
    · cases ht
      rfl
    · simpa [RxDmaWorld.act] using hdel

end Driver

/-! ## Steps of the controller -/

section Controller

variable {buffers : Mbuf → Segment} {held : Index → Mbuf} {w : RxDmaWorld Frame} {back first : ℕ} {i : Index}

/-- The driver's place in its round when the controller changes only the flags or the status of its own descriptor. -/
theorem RxDriverAt.controller (hat : RxDriverAt buffers held w back first) (h : RxLive buffers held w back first)
    (hlt : w.received.length < back + 256) {v : RxDmaWorld Frame} {f : Descriptor → Descriptor}
    (hring : v.ring = w.ring.modifyDesc (slot 256 w.received.length) f) (haddr : ∀ d, (f d).address = d.address)
    (hlen : ∀ d, (f d).length = d.length) (hdriver : v.driver = w.driver) (hadvanced : v.advanced = w.advanced)
    (hdelivered : v.delivered = w.delivered) (hreceived : ∃ rest, v.received = w.received ++ rest)
    (hmemory : ∀ a, a ≠ (buffers (held (slot 256 w.received.length))).location → v.memory a = w.memory a) :
    RxDriverAt buffers held v back first := by
  obtain ⟨rest, hreceived⟩ := hreceived
  obtain ⟨h1, h2, h3⟩ := h.order
  have hindex : v.ring.rxIndex = w.ring.rxIndex := by rw [hring]; rfl
  have hlow : ∀ n ≤ w.received.length, lowLengths v.received n = lowLengths w.received n := by
    intro n hn
    unfold lowLengths
    rw [hreceived, List.take_append_of_le_length hn]
  have htransit : ∀ {give packetLength}, w.advanced < w.received.length →
      InTransit buffers held w give packetLength → InTransit buffers held v give packetLength := by
    intro give packetLength hn ht
    obtain ⟨⟨status, hframe, hp⟩, hapart⟩ := ht
    refine ⟨⟨status, ?_, hp⟩, hapart⟩
    rw [hadvanced, hreceived, List.getElem?_append_left hn, hmemory _ (hapart _).symm]
    exact hframe
  cases hat with
  | resting hrest hback hfirst hdel =>
    refine .resting (by rw [hdriver]; exact hrest) (by rw [hadvanced]; exact hback) (by rw [hadvanced]; exact hfirst) ?_
    rw [hadvanced, hdelivered, hlow _ (by omega)]
    exact hdel
  | preparing pre give packetLength hd hpre hset ht hback hfirst hdel =>
    refine .preparing pre give packetLength ?_ ?_ ?_ (htransit (by omega) ht) (by rw [hadvanced]; exact hback)
      (by rw [hadvanced]; exact hfirst) ?_
    · rw [hdriver, hindex]; exact hd
    · rw [hindex]; exact hpre
    · have hne : slot 256 w.received.length ≠ w.ring.rxIndex := by
        rw [h.index]
        exact (slot_ne (by omega) (by omega)).symm
      rw [hindex, hring, applyRx_comm hne f hpre]
      exact hset.modifyDesc _ haddr hlen
    · rw [hadvanced, hdelivered, hlow _ (by omega)]
      exact hdel
  | handedBack give packetLength hd ht hback hfirst hdel =>
    refine .handedBack give packetLength (by rw [hdriver, hindex]; exact hd) (htransit (by omega) ht)
      (by rw [hadvanced]; exact hback) (by rw [hadvanced]; exact hfirst) ?_
    rw [hadvanced, hdelivered, hlow _ (by omega)]
    exact hdel
  | handedOn hd hback hfirst hdel =>
    refine .handedOn (by rw [hdriver, hindex]; exact hd) (by rw [hadvanced]; exact hback)
      (by rw [hadvanced]; exact hfirst) ?_
    rw [hadvanced, hdelivered, hlow _ (by omega)]
    exact hdel

/-- The descriptors around the controller's when it changes its own. -/
theorem RxLive.other (h : RxLive buffers held w back first) (hlt : w.received.length < back + 256)
    (f : Descriptor → Descriptor) {k : ℕ} (hk1 : back ≤ k) (hk2 : k < back + 256) (hne : k ≠ w.received.length) :
    (w.ring.modifyDesc (slot 256 w.received.length) f).rxDesc (slot 256 k) = w.ring.rxDesc (slot 256 k) := by
  obtain ⟨h1, h2, h3⟩ := h.order
  exact Function.update_of_ne (slot_ne_of_window ⟨hk1, hk2⟩ ⟨by omega, hlt⟩ hne) _ _

theorem rxDmaInv_fill (hinv : RxDmaInv buffers w) (hi : w.next = i.val)
    (ho : (w.ring.rxDesc i).owned = true) (frame : Frame) (status : Word) :
    RxDmaInv buffers { w with ring := writeStatus i status w.ring, controller := .filling frame status,
                              memory := Function.update w.memory (w.ring.rxDesc i).address frame } := by
  obtain ⟨held, back, first, h, hat⟩ := hinv
  obtain ⟨h1, h2, h3⟩ := h.order
  obtain rfl : i = slot 256 w.received.length := Fin.ext (hi.symm.trans h.next)
  have hlt := h.owned_lt ho
  obtain ⟨hown, hlast, hpacket, haddr⟩ := h.hardware _ (Nat.le_refl _) hlt
  have hmemory : ∀ a, a ≠ (buffers (held (slot 256 w.received.length))).location →
      Function.update w.memory (w.ring.rxDesc (slot 256 w.received.length)).address frame a = w.memory a := by
    intro a ha
    rw [haddr]
    exact Function.update_of_ne ha _ _
  have hother := fun k h1 h2 hne => h.other hlt (fun d => { d with packetLength := status }) (k := k) h1 h2 hne
  refine ⟨held, back, first, ⟨h.next, h.index, h.order, h.distinct, ?_, ?_, ?_, ?_⟩, ?_⟩
  · intro k hk1 hk2
    simp only [writeStatus] at hk2 ⊢
    rw [hother k hk1 (by omega) (by omega)]
    exact h.host k hk1 hk2
  · intro k hk1 hk2
    simp only at hk2
    have hf := h.filled k hk1 hk2
    refine ⟨hf.packet, ?_⟩
    simp only [writeStatus]
    rw [hother k (by omega) (by omega) (by omega), hmemory]
    · exact hf.frame
    · exact fun he => slot_ne hk2 (by omega) (h.distinct he)
  · intro k hk1 hk2
    simp only at hk1
    obtain ⟨hownk, hsetk⟩ := h.hardware k hk1 hk2
    refine ⟨?_, hsetk.modifyDesc (f := fun d => { d with packetLength := status }) _ (fun _ => rfl) fun _ => rfl⟩
    simp only [writeStatus]
    by_cases hk : k = w.received.length
    · subst hk
      simpa [RxRing.modifyDesc, Descriptor.owned] using hownk
    · rw [hother k (by omega) hk2 hk]
      exact hownk
  · intro frame' status' he
    obtain ⟨rfl, rfl⟩ := RxController.filling.inj he
    refine ⟨hlt, ?_, ?_⟩
    · simp only [haddr, Function.update_self]
    · simp only [writeStatus, RxRing.modifyDesc, Function.update_self]
  · exact hat.controller (f := fun d => { d with packetLength := status }) h hlt rfl (fun _ => rfl) (fun _ => rfl)
      rfl rfl rfl ⟨[], (List.append_nil _).symm⟩ hmemory

theorem rxDmaInv_finish (hinv : RxDmaInv buffers w) {frame : Frame} {status : Word}
    (hc : w.controller = .filling frame status) (hi : w.next = i.val) :
    RxDmaInv buffers { w with ring := giveBack i w.ring, controller := .waiting,
                              next := if (w.ring.rxDesc i).hasEnd then 0 else i.val + 1,
                              received := w.received ++ [(frame, status)] } := by
  obtain ⟨held, back, first, h, hat⟩ := hinv
  obtain ⟨h1, h2, h3⟩ := h.order
  obtain rfl : i = slot 256 w.received.length := Fin.ext (hi.symm.trans h.next)
  obtain ⟨hlt, hframe, hstatus⟩ := h.controller frame status hc
  obtain ⟨hown, hlast, hpacket, haddr⟩ := h.hardware _ (Nat.le_refl _) hlt
  have hother := fun k h1 h2 hne =>
    h.other hlt (fun d => { d with flags := d.flags &&& ~~~rxFlagsOwner }) (k := k) h1 h2 hne
  have hlength : (w.received ++ [(frame, status)]).length = w.received.length + 1 := by simp
  refine ⟨held, back, first, ⟨?_, h.index, ?_, h.distinct, ?_, ?_, ?_, fun _ _ he => by cases he⟩, ?_⟩
  · simp only [hlength, ← slot_succ]
    exact consumer_next hlast
  · simp only [hlength]
    omega
  · intro k hk1 hk2
    simp only [hlength, giveBack] at hk2 ⊢
    by_cases hk : k = w.received.length
    · subst hk
      simp [RxRing.modifyDesc, Descriptor.owned, has_givenBack]
    · rw [hother k hk1 (by omega) hk]
      exact h.host k hk1 (by omega)
  · intro k hk1 hk2
    simp only [hlength] at hk2
    by_cases hk : k = w.received.length
    · subst hk
      refine ⟨hpacket, ?_⟩
      simp only [giveBack, List.getElem?_concat_length]
      rw [hframe, ← hstatus]
      simp [RxRing.modifyDesc]
    · have hf := h.filled k hk1 (by omega)
      refine ⟨hf.packet, ?_⟩
      simp only [giveBack]
      rw [hother k (by omega) (by omega) hk, List.getElem?_append_left (by omega)]
      exact hf.frame
  · intro k hk1 hk2
    simp only [hlength] at hk1
    obtain ⟨hownk, hsetk⟩ := h.hardware k (by omega) hk2
    refine ⟨?_, hsetk.modifyDesc (f := fun d => { d with flags := d.flags &&& ~~~rxFlagsOwner }) _ (fun _ => rfl)
      fun _ => rfl⟩
    simp only [giveBack]
    rw [hother k (by omega) hk2 (by omega)]
    exact hownk
  · exact hat.controller (f := fun d => { d with flags := d.flags &&& ~~~rxFlagsOwner }) h hlt rfl (fun _ => rfl)
      (fun _ => rfl) rfl rfl rfl ⟨_, rfl⟩ fun _ _ => rfl

end Controller

/-! ## The result -/

section Result

variable {buffers : Mbuf → Segment} {w v : RxDmaWorld Frame} {l : RxDmaLabel Frame}

theorem rxDmaInv_init (h : RxDmaInit buffers w) : RxDmaInv buffers w := by
  obtain ⟨alloc, segment, s, t, memory, hinit, hdistinct, hmem, rfl⟩ := h
  obtain ⟨hidx, hslots⟩ := initRxRing_spec hinit
  choose held seg halloc hseg hpackets hdesc using hslots
  refine ⟨held, 0, 0, ⟨rfl, hidx, ⟨Nat.le_refl _, Nat.le_refl _, Nat.zero_le _⟩, ?_, ?_, ?_, ?_, ?_⟩,
    .resting (fun _ hd => by cases hd) rfl rfl rfl⟩
  · exact fun i j hij => hdistinct i j (held i) (held j) (halloc i) (halloc j) hij
  · intro k _ hk
    cases hk
  · intro k _ hk
    cases hk
  · intro k _ _
    refine ⟨initRxRing_owned hinit _, initRxRing_hasEnd hinit _, hpackets _, ?_⟩
    rw [hdesc, ← hmem _ _ _ (hseg _) (halloc _)]
    rfl
  · intro _ _ hc
    cases hc

theorem rxDmaInv_rest (hinv : RxDmaInv buffers w) (hd : ∀ todo, w.driver = .round todo → todo = [])
    {d : RxDriver} (hd' : ∀ todo, d = .round todo → todo = []) : RxDmaInv buffers { w with driver := d } := by
  obtain ⟨held, back, first, h, hat⟩ := hinv
  refine ⟨held, back, first, ?_, ?_⟩
  · exact h.congr rfl rfl rfl rfl rfl (fun _ => rfl) (fun _ _ _ => ⟨rfl, rfl, rfl⟩) h.distinct fun _ => rfl
  · cases hat with
    | resting _ hback hfirst hdel => exact .resting hd' hback hfirst hdel
    | preparing pre _ _ he => exact absurd (hd _ he) (by simp)
    | handedBack _ _ he => exact absurd (hd _ he) (by simp)
    | handedOn he => exact absurd (hd _ he) (by simp)

theorem rxDmaInv_step (h : RxDmaInv buffers w) (hs : RxDmaStep buffers w l v) : RxDmaInv buffers v := by
  cases hs with
  | interrupt hd => exact rxDmaInv_rest h (fun _ he => by rw [hd] at he; cases he) fun _ he => by cases he
  | round o hd hready ho hseg hfresh hmem => exact rxDmaInv_round hd hready h ho hseg hfresh hmem
  | act hd => exact rxDmaInv_act hd h
  | again hd =>
    exact rxDmaInv_rest h (fun _ he => by rw [hd] at he; exact (RxDriver.round.inj he).symm) fun _ he => by cases he
  | done hd _ => exact rxDmaInv_rest h (fun _ he => by rw [hd] at he; cases he) fun _ he => by cases he
  | fill frame status _ hi ho => exact rxDmaInv_fill h hi ho frame status
  | finish hc hi => exact rxDmaInv_finish h hc hi

/-- The round has handed its descriptor back and has yet to move on. -/
def RxDmaWorld.Leaving (w : RxDmaWorld Frame) : Prop :=
  ∃ i, w.driver = .round [.rxIndex i] ∨ ∃ p packetLength, w.driver = .round [.input p packetLength, .rxIndex i]

/-- What holds at every point of a run. Descriptors are counted from the start: the driver stands at number
`w.advanced`, the controller at number `w.received.length`. -/
structure RxDelivery (buffers : Mbuf → Segment) (w : RxDmaWorld Frame) : Prop where
  delivered : w.delivered = lowLengths w.received w.delivered.length
  progress : w.advanced ≤ w.delivered.length ∧ w.delivered.length ≤ w.received.length
  caughtUp : w.driver = .scanning → rxReady w.ring = false → w.delivered.length = w.received.length
  rxIndex : w.ring.rxIndex = slot 256 w.advanced
  next : w.next = (slot 256 w.received.length).val
  ahead : w.received.length ≤ w.advanced + 256 ∨ w.Leaving ∧ w.received.length = w.advanced + 257
  descriptors : ∀ i, (w.ring.rxDesc i).owned = true → ((w.ring.rxDesc i).hasEnd = true ↔ i.val = rxDescCount - 1) ∧
    ∃ m, w.ring.rxPackets i = some m ∧ (w.ring.rxDesc i).address = (buffers m).location

/-- How far the driver is. -/
theorem RxDriverAt.progress {held : Index → Mbuf} {back first : ℕ} (hat : RxDriverAt buffers held w back first)
    (h : RxLive buffers held w back first) : w.delivered = lowLengths w.received w.delivered.length ∧
      (w.advanced ≤ w.delivered.length ∧ w.delivered.length ≤ w.received.length) ∧
      (w.received.length ≤ w.advanced + 256 ∨ w.Leaving ∧ w.received.length = w.advanced + 257) := by
  obtain ⟨h1, h2, h3⟩ := h.order
  cases hat with
  | resting _ hback hfirst hdel =>
    have hlen : w.delivered.length = w.advanced := by rw [hdel, lowLengths_length (by omega)]
    rw [hlen]
    exact ⟨hdel, ⟨Nat.le_refl _, by omega⟩, Or.inl (by omega)⟩
  | preparing pre _ _ _ _ _ _ hback hfirst hdel =>
    have hlen : w.delivered.length = w.advanced := by rw [hdel, lowLengths_length (by omega)]
    rw [hlen]
    exact ⟨hdel, ⟨Nat.le_refl _, by omega⟩, Or.inl (by omega)⟩
  | handedBack give packetLength hd _ hback hfirst hdel =>
    have hlen : w.delivered.length = w.advanced := by rw [hdel, lowLengths_length (by omega)]
    rw [hlen]
    refine ⟨hdel, ⟨Nat.le_refl _, by omega⟩, ?_⟩
    rcases Nat.lt_or_ge w.received.length (w.advanced + 257) with hlt | hge
    · exact Or.inl (by omega)
    · exact Or.inr ⟨⟨_, Or.inr ⟨_, _, hd⟩⟩, by omega⟩
  | handedOn hd hback hfirst hdel =>
    have hlen : w.delivered.length = w.advanced + 1 := by rw [hdel, lowLengths_length (by omega)]
    rw [hlen]
    refine ⟨hdel, ⟨Nat.le_succ _, by omega⟩, ?_⟩
    rcases Nat.lt_or_ge w.received.length (w.advanced + 257) with hlt | hge
    · exact Or.inl (by omega)
    · exact Or.inr ⟨⟨_, Or.inl hd⟩, by omega⟩

theorem RxDmaInv.delivery (hinv : RxDmaInv buffers w) : RxDelivery buffers w := by
  obtain ⟨held, back, first, h, hat⟩ := hinv
  obtain ⟨hdelivered, hprogress, hahead⟩ := hat.progress h
  refine ⟨hdelivered, hprogress, fun hd hready => ?_, h.index, h.next, hahead, fun i ho => ?_⟩
  · obtain ⟨hback, hfirst, -⟩ := hat.of_scanning hd
    subst hback hfirst
    have hnot : ¬ w.advanced < w.received.length := fun hlt => by rw [h.ready_iff.mpr hlt] at hready; cases hready
    omega
  · have hset := h.set_of_owned ho
    exact ⟨hset.last, _, hset.packet, hset.address⟩

/-- **The frames handed to the interface are the frames received, in order, with the low 16 bits of their lengths.** -/
theorem rx_delivery {es : List (Edge (RxDmaWorld Frame) (RxDmaLabel Frame))}
    (h : Run (RxDmaInit buffers) (RxDmaStep buffers) es w) : RxDelivery buffers w := by
  have hinv : RxDmaInv buffers w :=
    h.invariant (I := RxDmaInv buffers) (fun _ => rxDmaInv_init) fun _ _ _ => rxDmaInv_step
  exact hinv.delivery

end Result

/-! ## A run in which the controller is 257 descriptors ahead -/

def startRx : RxDmaWorld Unit := ⟨bufferRing, .idle, .waiting, 0, fun _ => (), [], [], 0⟩

/-- The buffers of the first mbufs are distinct. -/
theorem buffer_ne {m n : ℕ} (hm : m < 257) (hn : n < 257) (h : (buffer m).location = (buffer n).location) : m = n := by
  have hv : (buffer m).location.toNat = (buffer n).location.toNat := congrArg _ h
  simp only [buffer, BitVec.toNat_ofNat] at hv
  omega

theorem startRx_init : RxDmaInit buffer startRx := by
  refine ⟨fun i => some i.val, fun i => some (buffer i.val), bufferRing, bufferRing, _, bufferRing_init _, ?_, ?_, rfl⟩
  · intro i j m n hm hn h
    rw [← Option.some.inj hm, ← Option.some.inj hn] at h
    exact Fin.ext (buffer_ne (by omega) (by omega) h)
  · intro i seg m hs hm
    rw [← Option.some.inj hs, ← Option.some.inj hm]

/-- The calls of the first round copy the packet. -/
def firstRound : RxOutcome := ⟨.copied 256, some (buffer 0)⟩

/-- The buffer of mbuf 256 is none of those in the slots. -/
theorem firstRound_fresh {s : RxRing} (hs : s.rxPackets = bufferRing.rxPackets) :
    ∀ m ∈ firstRound.replacement.obtained, ∀ i m', s.rxPackets i = some m' →
      (buffer m').location ≠ (buffer m).location := by
  intro m hm i m' hm' he
  rw [List.mem_singleton.mp hm] at he
  rw [hs] at hm'
  have hv : i.val = m' := Option.some.inj hm'
  have hne := buffer_ne (by omega) (by omega) he
  omega

theorem firstRound_mapped {s : RxRing} (hs : s.rxPackets = bufferRing.rxPackets) (hi : s.rxIndex = 0) :
    ∀ seg m, firstRound.segment = some seg → firstRound.packet s = some m → seg = buffer m := by
  intro seg m hseg hm
  have hpacket : firstRound.packet s = some 0 := by
    show s.rxPackets s.rxIndex = _
    rw [hs, hi]
    rfl
  rw [hpacket] at hm
  rw [← Option.some.inj hseg, ← Option.some.inj hm]

theorem rx_delivery_single : ∃ w : RxDmaWorld Unit, w.delivered = [((), 64)] ∧ RxDelivery buffer w := by
  have h0 : Run (RxDmaInit buffer) (RxDmaStep buffer) [] startRx := .start startRx_init
  have h2 := (h0.step (.fill (i := 0) () 64 rfl rfl rfl)).step (.finish (i := 0) rfl rfl)
  have h4 := (h2.step (.interrupt rfl)).step (.round firstRound rfl rfl (by simp [firstRound]) rfl
    (firstRound_fresh rfl) (firstRound_mapped rfl rfl))
  have h8 := (((h4.step (.act rfl)).step (.act rfl)).step (.act rfl)).step (.act rfl)
  exact ⟨_, rfl, rx_delivery h8⟩

/-- A frame of 64 bytes. -/
def oneFrame : List (RxDmaLabel Unit) := [.fill () 64, .finish]

/-- A frame arrives at a descriptor that the controller owns. -/
theorem frame_step {es : List (Edge (RxDmaWorld Unit) (RxDmaLabel Unit))} {w : RxDmaWorld Unit} {i : Index}
    (hr : Run (RxDmaInit buffer) (RxDmaStep buffer) es w) (hc : w.controller = .waiting) (hi : w.next = i.val)
    (ho : (w.ring.rxDesc i).owned = true) : ∃ fs v, Run (RxDmaInit buffer) (RxDmaStep buffer) (es ++ fs) v ∧
      fs.map Edge.label = oneFrame ∧ v.controller = .waiting ∧ v.driver = w.driver ∧ v.advanced = w.advanced ∧
      v.received = w.received ++ [((), 64)] ∧ v.ring.rxPackets = w.ring.rxPackets ∧
      v.ring.rxIndex = w.ring.rxIndex := by
  have h2 := (hr.step (.fill () 64 hc hi ho)).step (.finish rfl hi)
  rw [List.append_assoc] at h2
  exact ⟨_, _, h2, rfl, rfl, rfl, rfl, rfl, rfl, rfl⟩

/-- The controller owns its descriptor unless it is a whole ring ahead of what was handed back. -/
theorem RxLive.next_owned {buffers : Mbuf → Segment} {held : Index → Mbuf} {w : RxDmaWorld Frame} {back first : ℕ}
    (h : RxLive buffers held w back first) (hlt : w.received.length < back + 256) :
    w.next = (slot 256 w.received.length).val ∧ (w.ring.rxDesc (slot 256 w.received.length)).owned = true :=
  ⟨h.next, (h.hardware _ (Nat.le_refl _) hlt).1⟩

/-- Frames fill the ring. -/
theorem run_frames (n : ℕ) (hn : n ≤ 256) : ∃ es w, Run (RxDmaInit buffer) (RxDmaStep buffer) es w ∧
    es.map Edge.label = (List.replicate n oneFrame).flatten ∧ w.controller = .waiting ∧ w.driver = .idle ∧
    w.advanced = 0 ∧ w.received.length = n ∧ w.ring.rxPackets = bufferRing.rxPackets ∧ w.ring.rxIndex = 0 := by
  induction n with
  | zero => exact ⟨[], startRx, .start startRx_init, rfl, rfl, rfl, rfl, rfl, rfl, rfl⟩
  | succ n ih =>
    obtain ⟨es, w, hr, hes, hc, hd, hadv, hlen, hpackets, hidx⟩ := ih (by omega)
    obtain ⟨held, back, first, h, _⟩ := hr.invariant (I := RxDmaInv buffer) (fun _ => rxDmaInv_init)
      fun _ _ _ => rxDmaInv_step
    obtain ⟨hnext, hown⟩ := h.next_owned (by omega)
    obtain ⟨fs, v, hr', hfs, hc', hd', hadv', hrec, hpackets', hidx'⟩ := frame_step hr hc hnext hown
    refine ⟨es ++ fs, v, hr', ?_, hc', hd'.trans hd, hadv'.trans hadv, ?_, hpackets'.trans hpackets, hidx'.trans hidx⟩
    · rw [List.map_append, hes, hfs, List.replicate_succ', List.flatten_append]
      simp
    · rw [hrec, List.length_append, hlen]
      rfl

/-- After the hand-back the controller owns one more descriptor. -/
theorem RxDriverAt.handed {buffers : Mbuf → Segment} {held : Index → Mbuf} {w : RxDmaWorld Frame} {back first : ℕ}
    (hat : RxDriverAt buffers held w back first) {p : Option Mbuf} {packetLength : BitVec 16} {i : Index}
    (hd : w.driver = .round [.input p packetLength, .rxIndex i]) : back = w.advanced + 1 := by
  cases hat with
  | resting hrest _ _ _ => cases hrest _ hd
  | preparing pre _ _ he =>
    rw [hd, RxDriver.round.injEq] at he
    have hlen := congrArg List.length he
    rw [List.length_append] at hlen
    simp only [List.length_cons, List.length_nil] at hlen
    omega
  | handedBack _ _ _ _ hback _ _ => exact hback
  | handedOn _ hback _ _ => exact hback

/-- **A frame that arrives when the first descriptor is handed back but not left.** -/
theorem rx_delivery_ahead : ∃ es w, Run (RxDmaInit buffer) (RxDmaStep buffer) es w ∧
    es.map Edge.label = (List.replicate 256 oneFrame).flatten ++ [.interrupt, .round firstRound, .act, .act, .act] ++
      oneFrame ∧ ¬ w.received.length ≤ w.advanced + 256 := by
  obtain ⟨es, w, hr, hes, hc, hd, hadv, hlen, hpackets, hidx⟩ := run_frames 256 (Nat.le_refl _)
  obtain ⟨held, back, first, h, hat⟩ := hr.invariant (I := RxDmaInv buffer) (fun _ => rxDmaInv_init)
    fun _ _ _ => rxDmaInv_step
  have hready : rxReady w.ring = true := by
    cases hat with
    | resting _ hback hfirst _ =>
      subst hback hfirst
      exact h.ready_iff.mpr (by omega)
    | preparing _ _ _ he => rw [hd] at he; cases he
    | handedBack _ _ he => rw [hd] at he; cases he
    | handedOn he => rw [hd] at he; cases he
  have hround : rxRound w.ring firstRound = [.address 0 (buffer 0).location, .length 0 (buffer 0).length,
      .flags 0 (txFlagsInterrupt ||| txFlagsOwner), .input (some 256) (rxPacketLength (w.ring.rxDesc 0).packetLength),
      .rxIndex 1] := by
    rw [rxRound_eq, hidx]
    simp [rxPrepare, firstRound, RxOutcome.input, Replacement.result, hidx, rxDescCount, rxNext]
  have h2 := (hr.step (.interrupt hd)).step (.round firstRound rfl hready (by simp [firstRound]) rfl
    (firstRound_fresh hpackets) (firstRound_mapped hpackets hidx))
  have h5 := ((h2.step (.act (congrArg _ hround))).step (.act rfl)).step (.act rfl)
  obtain ⟨held', back', first', h', hat'⟩ := h5.invariant (I := RxDmaInv buffer) (fun _ => rxDmaInv_init)
    fun _ _ _ => rxDmaInv_step
  have hback : back' = w.advanced + 1 := hat'.handed rfl
  obtain ⟨hnext, hown⟩ := h'.next_owned (show w.received.length < back' + 256 by omega)
  obtain ⟨fs, v, hr', hfs, _, _, hadv', hrec, _, _⟩ := frame_step h5 hc hnext hown
  refine ⟨_, v, hr', ?_, ?_⟩
  · simp only [List.map_append, List.map_cons, hes, hfs, List.append_assoc, List.cons_append, List.nil_append]
  · rw [hrec, List.length_append, hadv']
    show ¬ w.received.length + 1 ≤ w.advanced + 256
    omega

end Osx360.Ethernet
