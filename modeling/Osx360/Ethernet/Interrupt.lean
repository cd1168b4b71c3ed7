import Osx360.Ethernet.ReceiveOwnership
import Osx360.Ethernet.TransmitOwnership

/-!
# The interrupt handler

`handleInterrupt` as a sequence of steps on the interrupt status register and the two rings: the status is read, the
value read is acknowledged, then the receive ring and the transmit ring are scanned if their bits were set
(`HandlerStep`). Since it acknowledges before it scans, a completion that its scans miss finds its bit clear and latches
it again (`no_lost_completion`).
-/

set_option autoImplicit false

namespace Osx360.Ethernet

open Osx360.Lib

/-! ## `handleInterrupt` -/

/-- Where the handler is; `intStatus` is the value it has read. -/
inductive Handler
  | idle
  | statusRead (intStatus : Word)
  | acked (intStatus : Word)
  | rxScan (intStatus : Word)
  | rxServed (intStatus : Word)
  | txScan

/-- The handler, the interrupt status register and the rings. -/
structure Adapter where
  handler : Handler
  intStatus : Word
  rx : RxRing
  tx : TxRing

inductive HandlerLabel
  | read
  | ack
  | scanRx
  | skipRx
  | rxRound (o : RxOutcome)
  | leaveRx
  | scanTx
  | skipTx
  | txRound
  | leaveTx

/-- The steps of `handleInterrupt`. Writing the status register clears the bits written; the link branch, which comes
before the receive branch, touches neither ring. -/
inductive HandlerStep : Adapter → HandlerLabel → Adapter → Prop
  | read {a : Adapter} : a.handler = .idle → HandlerStep a .read { a with handler := .statusRead a.intStatus }
  | ack {a : Adapter} {v : Word} : a.handler = .statusRead v →
      HandlerStep a .ack { a with handler := .acked v, intStatus := a.intStatus &&& ~~~v }
  | scanRx {a : Adapter} {v : Word} : a.handler = .acked v → has v intRxDone = true →
      HandlerStep a .scanRx { a with handler := .rxScan v }
  | skipRx {a : Adapter} {v : Word} : a.handler = .acked v → has v intRxDone = false →
      HandlerStep a .skipRx { a with handler := .rxServed v }
  | rxRound {a : Adapter} {v : Word} (o : RxOutcome) : a.handler = .rxScan v → rxReady a.rx = true →
      HandlerStep a (.rxRound o) { a with rx := applyRx (rxRound a.rx o) a.rx }
  | leaveRx {a : Adapter} {v : Word} : a.handler = .rxScan v → rxReady a.rx = false →
      HandlerStep a .leaveRx { a with handler := .rxServed v }
  | scanTx {a : Adapter} {v : Word} : a.handler = .rxServed v → has v intTxDone = true →
      HandlerStep a .scanTx { a with handler := .txScan }
  | skipTx {a : Adapter} {v : Word} : a.handler = .rxServed v → has v intTxDone = false →
      HandlerStep a .skipTx { a with handler := .idle }
  | txRound {a : Adapter} : a.handler = .txScan → txReady a.tx = true →
      HandlerStep a .txRound { a with tx := reclaim a.tx }
  | leaveTx {a : Adapter} : a.handler = .txScan → txReady a.tx = false →
      HandlerStep a .leaveTx { a with handler := .idle }

/-! ## What the handler will still scan -/

/-- The handler will still scan the receive ring, from its head or from where it is. -/
def Handler.willRx : Handler → Bool
  | .statusRead v => has v intRxDone
  | .acked v => has v intRxDone
  | .rxScan _ => true
  | _ => false

def Handler.willTx : Handler → Bool
  | .idle => false
  | .statusRead v => has v intTxDone
  | .acked v => has v intTxDone
  | .rxScan v => has v intTxDone
  | .rxServed v => has v intTxDone
  | .txScan => true

section HandlerStep

variable {a b : Adapter} {l : HandlerLabel}

/-- What waits in the receive ring stays latched, or will be scanned. -/
theorem HandlerStep.rx_noticed (hs : HandlerStep a l b)
    (h : rxReady a.rx = true → has a.intStatus intRxDone = true ∨ a.handler.willRx = true) :
    rxReady b.rx = true → has b.intStatus intRxDone = true ∨ b.handler.willRx = true := by
  cases hs with
  | read hd =>
    intro hr
    rw [hd] at h
    exact Or.inr ((h hr).resolve_right (by simp [Handler.willRx]))
  | ack hd =>
    intro hr
    rw [hd] at h
    rcases h hr with h | h
    · exact has_ack (by decide) h
    · exact Or.inr h
  | scanRx hd _ => exact fun _ => Or.inr rfl
  | skipRx hd hv =>
    intro hr
    rw [hd] at h
    exact Or.inl ((h hr).resolve_right (by simp [Handler.willRx, hv]))
  | rxRound o hd _ => exact fun _ => Or.inr (by rw [hd]; rfl)
  | leaveRx _ hn => exact fun hr => absurd hr (by rw [hn]; decide)
  | scanTx hd _ => rw [hd] at h; exact h
  | skipTx hd _ => rw [hd] at h; exact h
  | txRound _ _ => exact h
  | leaveTx hd _ => rw [hd] at h; exact h

/-- What waits in the transmit ring stays latched, or will be scanned. -/
theorem HandlerStep.tx_noticed (hs : HandlerStep a l b)
    (h : txReady a.tx = true → has a.intStatus intTxDone = true ∨ a.handler.willTx = true) :
    txReady b.tx = true → has b.intStatus intTxDone = true ∨ b.handler.willTx = true := by
  cases hs with
  | read hd =>
    intro hr
    rw [hd] at h
    exact Or.inr ((h hr).resolve_right (by simp [Handler.willTx]))
  | ack hd =>
    intro hr
    rw [hd] at h
    rcases h hr with h | h
    · exact has_ack (by decide) h
    · exact Or.inr h
  | scanRx hd _ => rw [hd] at h; exact h
  | skipRx hd _ => rw [hd] at h; exact h
  | rxRound _ _ _ => exact h
  | leaveRx hd _ => rw [hd] at h; exact h
  | scanTx _ _ => exact fun _ => Or.inr rfl
  | skipTx hd hv =>
    intro hr
    rw [hd] at h
    exact Or.inl ((h hr).resolve_right (by simp [Handler.willTx, hv]))
  | txRound hd _ => exact fun _ => Or.inr (by rw [hd]; rfl)
  | leaveTx _ hn => exact fun hr => absurd hr (by rw [hn]; decide)

/-- The handler keeps the transmit ring a queue. -/
theorem HandlerStep.drives (hs : HandlerStep a l b) {hardware : List Index} {q : Fifo Chain} {r : ℕ}
    (h : Drives a.tx hardware q r) : ∃ q r, Drives b.tx hardware q r := by
  cases hs with
  | txRound _ hready =>
    cases hq : q.completed with
    | nil => rw [h.tracks.not_ready hq] at hready; cases hready
    | cons c rest => exact ⟨_, _, h.reclaim hq⟩
  | _ => exact ⟨q, r, h⟩

end HandlerStep

/-! ## Completions -/

/-- The adapter with the completions of the hardware: the heads of the chains it has yet to complete, and how many
status bits it has yet to latch. -/
structure LatchWorld where
  adapter : Adapter
  hardware : List Index
  rxUnlatched : ℕ
  txUnlatched : ℕ

inductive LatchLabel
  | handler (l : HandlerLabel)
  | send
  | complete
  | arrive
  | latchRx
  | latchTx
  | latch (v : Word)

/-- The steps: those of the handler, accepted packets, completions, the latching of the bits of earlier completions, and
the latching of any bits for other reasons. -/
inductive LatchStep : LatchWorld → LatchLabel → LatchWorld → Prop
  | handler {w : LatchWorld} {l : HandlerLabel} {a : Adapter} : HandlerStep w.adapter l a →
      LatchStep w (.handler l) { w with adapter := a }
  | send {w : LatchWorld} (p : Mbuf) (segments : List Segment) (reqs : ChecksumDemand) {writes : List TxWrite} :
      segments.length ≤ txMaxSegCount → sendTxPacket true w.adapter.tx p segments reqs = (.success, [], writes) →
      LatchStep w .send
        { w with
          adapter := { w.adapter with tx := applyAll writes w.adapter.tx }
          hardware := w.hardware ++ [w.adapter.tx.txWriteIndex] }
  | complete {w : LatchWorld} {i : Index} {rest : List Index} : w.hardware = i :: rest →
      LatchStep w .complete
        { w with
          adapter := { w.adapter with tx := clearOwner i w.adapter.tx }
          hardware := rest
          txUnlatched := w.txUnlatched + 1 }
  | arrive {w : LatchWorld} (i : Index) (status : Word) : (w.adapter.rx.rxDesc i).owned = true →
      LatchStep w .arrive
        { w with
          adapter := { w.adapter with rx := fillDescriptor i status w.adapter.rx }
          rxUnlatched := w.rxUnlatched + 1 }
  | latchRx {w : LatchWorld} {n : ℕ} : w.rxUnlatched = n + 1 →
      LatchStep w .latchRx
        { w with
          adapter := { w.adapter with intStatus := w.adapter.intStatus ||| intRxDone }
          rxUnlatched := n }
  | latchTx {w : LatchWorld} {n : ℕ} : w.txUnlatched = n + 1 →
      LatchStep w .latchTx
        { w with
          adapter := { w.adapter with intStatus := w.adapter.intStatus ||| intTxDone }
          txUnlatched := n }
  | latch {w : LatchWorld} (v : Word) :
      LatchStep w (.latch v) { w with adapter := { w.adapter with intStatus := w.adapter.intStatus ||| v } }

/-- After `initTransmitReceiveBuffers`. -/
def LatchInit (w : LatchWorld) : Prop :=
  ∃ (alloc : Index → Option Mbuf) (segment : Index → Option Segment) (s t : RxRing) (tx : TxRing) (intStatus : Word),
    initRxRing alloc segment s = (true, t) ∧ (∀ i, tx.txDescStates i = .empty) ∧
      w = ⟨⟨.idle, intStatus, t, initTxRing tx⟩, [], 0, 0⟩

/-! ## No lost completion -/

/-- What waits in a ring is latched, will be latched, or will be scanned. -/
structure Noticed (w : LatchWorld) : Prop where
  rx : rxReady w.adapter.rx = true →
    0 < w.rxUnlatched ∨ has w.adapter.intStatus intRxDone = true ∨ w.adapter.handler.willRx = true
  tx : txReady w.adapter.tx = true →
    0 < w.txUnlatched ∨ has w.adapter.intStatus intTxDone = true ∨ w.adapter.handler.willTx = true
  drives : ∃ q r, Drives w.adapter.tx w.hardware q r

section Noticed

variable {w v : LatchWorld} {l : LatchLabel}

theorem noticed_init (h : LatchInit w) : Noticed w := by
  obtain ⟨alloc, segment, s, t, tx, intStatus, hinit, htx, rfl⟩ := h
  have hdr := drives_init htx
  refine ⟨fun hr => ?_, fun hr => ?_, _, _, hdr⟩
  · rw [not_rxReady_of_owned (initRxRing_owned hinit _)] at hr
    cases hr
  · rw [show txReady (initTxRing tx) = false from hdr.tracks.not_ready rfl] at hr
    cases hr

/-- Accepting a packet completes none. -/
theorem txReady_send {s : TxRing} {hardware : List Index} {q : Fifo Chain} {r : ℕ} (h : Drives s hardware q r)
    {t : TxRing} {hardware' : List Index} {c : Chain} (h' : Drives t hardware' (q.accept c) r)
    (hr : txReady t = true) : txReady s = true := by
  cases hq : q.completed with
  | nil => rw [h'.tracks.not_ready hq] at hr; cases hr
  | cons d rest => exact h.tracks.ready hq

theorem noticed_step (h : Noticed w) (hs : LatchStep w l v) : Noticed v := by
  obtain ⟨hrx, htx, q, r, hdr⟩ := h
  cases hs with
  | handler hs =>
    refine ⟨fun hr => ?_, fun hr => ?_, hs.drives hdr⟩
    · rcases Nat.eq_zero_or_pos w.rxUnlatched with h0 | hpos
      · exact Or.inr (hs.rx_noticed (fun h => (hrx h).resolve_left (by omega)) hr)
      · exact Or.inl hpos
    · rcases Nat.eq_zero_or_pos w.txUnlatched with h0 | hpos
      · exact Or.inr (hs.tx_noticed (fun h => (htx h).resolve_left (by omega)) hr)
      · exact Or.inl hpos
  | send p segments reqs hl he =>
    rcases sendTxPacket_cases true w.adapter.tx p segments reqs with
      ⟨_, hc⟩ | ⟨_, _, hc⟩ | ⟨hroom, seg, segs, rfl, hc⟩
    · rw [hc] at he; cases he
    · rw [hc] at he; cases he
    · rw [hc, Prod.mk.injEq, Prod.mk.injEq] at he
      obtain ⟨_, _, rfl⟩ := he
      have hdr' := hdr.send hroom p seg reqs hl true
      exact ⟨hrx, fun hr => htx (txReady_send hdr hdr' hr), _, _, hdr'⟩
  | complete hi =>
    rw [hi] at hdr
    exact ⟨hrx, fun _ => Or.inl (Nat.succ_pos _), _, _, hdr.complete.2⟩
  | arrive i status _ => exact ⟨fun _ => Or.inl (Nat.succ_pos _), htx, q, r, hdr⟩
  | latchRx _ =>
    exact ⟨fun _ => Or.inr (Or.inl (has_latched (by decide))),
      fun hr => (htx hr).imp_right (Or.imp_left (has_latch (by decide) _)), q, r, hdr⟩
  | latchTx _ =>
    exact ⟨fun hr => (hrx hr).imp_right (Or.imp_left (has_latch (by decide) _)),
      fun _ => Or.inr (Or.inl (has_latched (by decide))), q, r, hdr⟩
  | latch v =>
    exact ⟨fun hr => (hrx hr).imp_right (Or.imp_left (has_latch (by decide) _)),
      fun hr => (htx hr).imp_right (Or.imp_left (has_latch (by decide) _)), q, r, hdr⟩

/-- **No completion is lost**: what waits in a ring while no handler runs has its status bit latched, or the hardware
has yet to latch it. -/
theorem no_lost_completion {es : List (Edge LatchWorld LatchLabel)} (h : Run LatchInit LatchStep es w)
    (hidle : w.adapter.handler = .idle) :
    (txReady w.adapter.tx = true → has w.adapter.intStatus intTxDone = true ∨ 0 < w.txUnlatched) ∧
      (rxReady w.adapter.rx = true → has w.adapter.intStatus intRxDone = true ∨ 0 < w.rxUnlatched) := by
  have hn : Noticed w := h.invariant (I := Noticed) (fun _ => noticed_init) fun _ _ _ => noticed_step
  obtain ⟨hrx, htx, _⟩ := hn
  rw [hidle] at hrx htx
  constructor
  · intro hr
    rcases htx hr with h | h | h
    · exact Or.inr h
    · exact Or.inl h
    · cases h
  · intro hr
    rcases hrx hr with h | h | h
    · exact Or.inr h
    · exact Or.inl h
    · cases h

end Noticed

/-- A frame has arrived and its bit is latched. -/
theorem no_lost_completion_single : ∃ w : LatchWorld, rxReady w.adapter.rx = true ∧
    (has w.adapter.intStatus intRxDone = true ∨ 0 < w.rxUnlatched) := by
  have h0 : Run LatchInit LatchStep [] ⟨⟨.idle, 0, bufferRing, startRing⟩, [], 0, 0⟩ :=
    .start ⟨_, _, bufferRing, _, _, _, bufferRing_init _, fun _ => rfl, rfl⟩
  have h2 := (h0.step (.arrive 0 64 rfl)).step (.latchRx rfl)
  exact ⟨_, rfl, (no_lost_completion h2 rfl).2 rfl⟩

end Osx360.Ethernet
