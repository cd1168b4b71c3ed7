import Mathlib.Logic.Relation
import Osx360.Ethernet.Loops
import Osx360.Ethernet.Session

/-!
# The output queue

The queue that `createOutputQueue` makes hands its packets to `outputPacket`, oldest first. When `sendTxPacket` answers
that the ring has no room the packet stays where it is and the queue stalls until it is serviced, which
`handleTxInterrupt` does at its end. The queue is the one that IOKit documents; the rest of the system is that of the
interrupt handler.

No packet is lost, sent twice or overtaken, and a queue that stands still is going to be serviced: the handler is on its
way to the call, or a transmit interrupt is pending, or a chain is still with the hardware (`output_queue`). The
hardware and the handler alone get the queue going again, with room for the packet that waits (`queue_recovers`).
-/

set_option autoImplicit false

namespace Osx360.Ethernet

open Osx360.Lib Relation

/-! ## The system -/

/-- A packet in the queue, with what the memory cursor and `getChecksumDemand` answer for it. -/
structure OutPacket where
  packet : Mbuf
  segments : List Segment
  reqs : ChecksumDemand
  fits : segments.length ≤ txMaxSegCount

/-- The driver and the queue. `serviced` is whether a service was asked for that is not yet done. -/
structure QueueWorld where
  isEnabled : Bool
  latch : LatchWorld
  queue : List OutPacket
  stalled : Bool
  serviced : Bool
  enqueued : List OutPacket
  /-- The packets that left the queue, with the answers. -/
  taken : List (OutPacket × OutputResult)
  /-- The packets that `outputPacket` freed. -/
  freed : List Mbuf

namespace QueueWorld

def tx (w : QueueWorld) : TxRing := w.latch.adapter.tx

/-- `outputPacket`, as the queue calls it. -/
def outputPacket (w : QueueWorld) (p : OutPacket) : OutputResult × List Mbuf × List TxWrite :=
  Driver.outputPacket ⟨w.isEnabled, true, w.latch.adapter⟩ p.packet p.segments p.reqs

end QueueWorld

/-- The packets that left the queue with an answer. -/
def answered (taken : List (OutPacket × OutputResult)) (r : OutputResult) : List OutPacket :=
  (taken.filter fun x => x.2 = r).map Prod.fst

inductive QueueLabel
  | adapter (l : LatchLabel)
  | enqueue (p : OutPacket)
  | send
  | drop
  | stall
  | service
  | disable

/-- The step ends `handleTxInterrupt`, which then calls `_txQueue->service`. -/
def LatchLabel.services : LatchLabel → Bool
  | .handler .leaveTx => true
  | _ => false

/-- The steps. Those of the adapter do not send by themselves. -/
inductive QueueStep : QueueWorld → QueueLabel → QueueWorld → Prop
  | adapter {w : QueueWorld} {l : LatchLabel} {v : LatchWorld} : LatchStep w.latch l v → l ≠ .send →
      QueueStep w (.adapter l) { w with latch := v, serviced := w.serviced || l.services }
  | enqueue {w : QueueWorld} (p : OutPacket) :
      QueueStep w (.enqueue p) { w with queue := w.queue ++ [p], enqueued := w.enqueued ++ [p] }
  | send {w : QueueWorld} {p : OutPacket} {rest : List OutPacket} {freed : List Mbuf} {writes : List TxWrite} :
      w.stalled = false → w.queue = p :: rest → w.outputPacket p = (.success, freed, writes) →
      QueueStep w .send { w with
        latch := { w.latch with
          adapter := { w.latch.adapter with tx := applyAll writes w.tx }
          hardware := w.latch.hardware ++ [w.tx.txWriteIndex] }
        queue := rest
        taken := w.taken ++ [(p, .success)]
        freed := w.freed ++ freed }
  | drop {w : QueueWorld} {p : OutPacket} {rest : List OutPacket} {freed : List Mbuf} {writes : List TxWrite} :
      w.stalled = false → w.queue = p :: rest → w.outputPacket p = (.dropped, freed, writes) →
      QueueStep w .drop { w with
        latch := { w.latch with adapter := { w.latch.adapter with tx := applyAll writes w.tx } }
        queue := rest
        taken := w.taken ++ [(p, .dropped)]
        freed := w.freed ++ freed }
  | stall {w : QueueWorld} {p : OutPacket} {rest : List OutPacket} {freed : List Mbuf} {writes : List TxWrite} :
      w.stalled = false → w.queue = p :: rest → w.outputPacket p = (.stall, freed, writes) →
      QueueStep w .stall { w with
        latch := { w.latch with adapter := { w.latch.adapter with tx := applyAll writes w.tx } }
        stalled := true
        freed := w.freed ++ freed }
  | service {w : QueueWorld} : w.serviced = true → QueueStep w .service { w with stalled := false, serviced := false }
  | disable {w : QueueWorld} : QueueStep w .disable { w with isEnabled := false }

/-- After a successful `enable`. -/
def QueueInit (w : QueueWorld) : Prop :=
  LatchInit w.latch ∧ w.isEnabled = true ∧ w.queue = [] ∧ w.stalled = false ∧ w.serviced = false ∧ w.enqueued = [] ∧
    w.taken = [] ∧ w.freed = []

/-! ## The next service -/

/-- The handler will service the queue: it is on its way to it, or an interrupt will run it, now or once the hardware
has completed a chain. -/
def Promised (w : LatchWorld) : Prop :=
  w.hardware ≠ [] ∨ 0 < w.txUnlatched ∨ has w.adapter.intStatus intTxDone = true ∨ w.adapter.handler.willTx = true

section Promised

variable {w v : LatchWorld} {l : LatchLabel} {a b : Adapter} {k : HandlerLabel}

/-- The handler keeps its promise or services the queue. -/
theorem HandlerStep.tx_promised (hs : HandlerStep a k b)
    (h : has a.intStatus intTxDone = true ∨ a.handler.willTx = true) :
    (has b.intStatus intTxDone = true ∨ b.handler.willTx = true) ∨ k = .leaveTx := by
  cases hs with
  | read hd =>
    rw [hd] at h
    exact Or.inl (Or.inr (h.resolve_right (by simp [Handler.willTx])))
  | ack hd =>
    rw [hd] at h
    rcases h with h | h
    · exact Or.inl (has_ack (by decide) h)
    · exact Or.inl (Or.inr h)
  | scanRx hd _ => rw [hd] at h; exact Or.inl h
  | skipRx hd _ => rw [hd] at h; exact Or.inl h
  | rxRound _ _ _ => exact Or.inl h
  | leaveRx hd _ => rw [hd] at h; exact Or.inl h
  | scanTx _ _ => exact Or.inl (Or.inr rfl)
  | skipTx hd hv =>
    rw [hd] at h
    exact Or.inl (Or.inl (h.resolve_right (by simp [Handler.willTx, hv])))
  | txRound _ _ => exact Or.inl h
  | leaveTx _ _ => exact Or.inr rfl

theorem promised_step (h : Promised w) (hs : LatchStep w l v) (hl : l ≠ .send) : Promised v ∨ l.services = true := by
  cases hs with
  | handler hs =>
    rcases h with h | h | h
    · exact Or.inl (Or.inl h)
    · exact Or.inl (Or.inr (Or.inl h))
    · rcases hs.tx_promised h with h | rfl
      · exact Or.inl (Or.inr (Or.inr h))
      · exact Or.inr rfl
  | send => exact absurd rfl hl
  | complete _ => exact Or.inl (Or.inr (Or.inl (Nat.succ_pos _)))
  | arrive i status _ => exact Or.inl h
  | latchRx _ =>
    exact Or.inl (h.imp_right (Or.imp_right (Or.imp_left (has_latch (by decide) _))))
  | latchTx _ => exact Or.inl (Or.inr (Or.inr (Or.inl (has_latched (by decide)))))
  | latch v => exact Or.inl (h.imp_right (Or.imp_right (Or.imp_left (has_latch (by decide) _))))

/-- A ring without room has a chain whose completion the handler will see. -/
theorem promised_of_full (h : Noticed w)
    (hfull : txFree w.adapter.tx.txReadIndex w.adapter.tx.txWriteIndex < txMaxSegCount) : Promised w := by
  obtain ⟨-, htx, q, r, hdr⟩ := h
  cases hq : q.completed with
  | cons c rest => exact Or.inr (htx (hdr.tracks.ready hq))
  | nil =>
    have hsome := hdr.tracks.tiled.no_room hfull
    rw [Fifo.outstanding, hq, List.nil_append] at hsome
    obtain ⟨c, rest, hpending⟩ := List.exists_cons_of_ne_nil hsome
    rw [Promised, hdr.hardware, hpending]
    exact Or.inl (by simp [starts])

end Promised

/-! ## The invariant -/

/-- The ring holds the chains of these packets, in this order. -/
def Carries (w : LatchWorld) (ps : List OutPacket) : Prop :=
  ∃ q r, Drives w.adapter.tx w.hardware q r ∧ q.accepted = ps.map fun p => ⟨p.packet, p.segments⟩

/-- What is known of the queue: no packet is lost or overtaken, none is freed but those that were dropped, and a stalled
queue will be serviced. -/
structure QueueSafe (w : QueueWorld) : Prop where
  order : w.enqueued = w.taken.map Prod.fst ++ w.queue
  answers : ∀ x ∈ w.taken, x.2 ≠ .stall
  sent : Carries w.latch (answered w.taken .success)
  freed : w.freed = (answered w.taken .dropped).map OutPacket.packet
  awake : w.stalled = true → w.serviced = true ∨ Promised w.latch

section Invariant

variable {w v : QueueWorld} {l : QueueLabel} {p : OutPacket} {freed : List Mbuf} {writes : List TxWrite}

/-- The answers of `outputPacket`. -/
theorem outputPacket_cases (w : QueueWorld) (p : OutPacket) :
    (w.outputPacket p = (.dropped, [p.packet], [])) ∨
      (txFree w.tx.txReadIndex w.tx.txWriteIndex < txMaxSegCount ∧ w.outputPacket p = (.stall, [], [])) ∨
      (¬ txFree w.tx.txReadIndex w.tx.txWriteIndex < txMaxSegCount ∧ ∃ seg segs, p.segments = seg :: segs ∧
        w.outputPacket p = (.success, [], sendWrites true w.tx.txWriteIndex p.packet seg segs p.reqs)) := by
  rw [QueueWorld.outputPacket, Driver.outputPacket]
  split
  · rcases sendTxPacket_cases true w.tx p.packet p.segments p.reqs with ⟨hfull, he⟩ | ⟨-, -, he⟩ | ⟨hroom, hsegs⟩
    · exact Or.inr (Or.inl ⟨hfull, he⟩)
    · exact Or.inl he
    · exact Or.inr (Or.inr ⟨hroom, hsegs⟩)
  · exact Or.inl rfl

/-- The hardware and the handler keep the chains and their order. -/
theorem carries_latchStep {w v : LatchWorld} {l : LatchLabel} {ps : List OutPacket} (h : Carries w ps)
    (hs : LatchStep w l v) (hl : l ≠ .send) : Carries v ps := by
  obtain ⟨q, r, hdr, haccepted⟩ := h
  cases hs with
  | @handler l a hs =>
    cases hs with
    | txRound _ hready =>
      cases hq : q.completed with
      | nil => rw [hdr.tracks.not_ready hq] at hready; cases hready
      | cons c rest =>
        refine ⟨_, _, hdr.reclaim hq, ?_⟩
        rw [Fifo.releaseOne_of_cons hq, ← haccepted]
        simp [Fifo.accepted, hq]
    | _ => exact ⟨q, r, hdr, haccepted⟩
  | send => exact absurd rfl hl
  | complete hi =>
    rw [hi] at hdr
    exact ⟨_, _, hdr.complete.2, by rw [Fifo.accepted_complete, haccepted]⟩
  | _ => exact ⟨q, r, hdr, haccepted⟩

theorem answered_append (taken : List (OutPacket × OutputResult)) (p : OutPacket) (r s : OutputResult) :
    answered (taken ++ [(p, r)]) s = answered taken s ++ if r = s then [p] else [] := by
  rw [answered, List.filter_append, List.map_append]
  by_cases hrs : r = s <;> simp [hrs, answered]

structure QueueInv (w : QueueWorld) : Prop where
  safe : QueueSafe w
  noticed : Noticed w.latch

theorem queueInv_init (h : QueueInit w) : QueueInv w := by
  obtain ⟨hlatch, -, hqueue, hstalled, -, henq, htaken, hfreed⟩ := h
  have hnone : ∀ r, answered w.taken r = [] := fun r => by simp [answered, htaken]
  refine ⟨⟨by simp [henq, htaken, hqueue], by simp [htaken], ?_, by simp [hfreed, hnone], ?_⟩, noticed_init hlatch⟩
  · obtain ⟨alloc, segment, s, t, tx, intStatus, -, htx, hw⟩ := hlatch
    rw [hnone, hw]
    exact ⟨_, _, drives_init htx, rfl⟩
  · rw [hstalled]
    exact fun hs => Bool.noConfusion hs

theorem queueInv_send (h : QueueInv w) {rest : List OutPacket} (hrunning : w.stalled = false)
    (hqueue : w.queue = p :: rest) (he : w.outputPacket p = (.success, freed, writes)) :
    QueueInv { w with
      latch := { w.latch with
        adapter := { w.latch.adapter with tx := applyAll writes w.tx }
        hardware := w.latch.hardware ++ [w.tx.txWriteIndex] }
      queue := rest
      taken := w.taken ++ [(p, .success)]
      freed := w.freed ++ freed } := by
  obtain ⟨⟨horder, hanswers, ⟨q, r, hdr, haccepted⟩, hfreed, -⟩, hnoticed⟩ := h
  rcases outputPacket_cases w p with hc | ⟨-, hc⟩ | ⟨hroom, seg, segs, hsegs, hc⟩
  · rw [hc] at he; cases he
  · rw [hc] at he; cases he
  · rw [hc, Prod.mk.injEq, Prod.mk.injEq] at he
    obtain ⟨-, rfl, rfl⟩ := he
    have hfits := p.fits
    have hsend : sendTxPacket true w.latch.adapter.tx p.packet p.segments p.reqs =
        (.success, [], sendWrites true w.tx.txWriteIndex p.packet seg segs p.reqs) := by
      rw [hsegs]
      exact if_neg hroom
    have hstep := LatchStep.send p.packet p.segments p.reqs hfits hsend
    rw [hsegs] at hfits
    refine ⟨⟨?_, ?_, ?_, ?_, fun hs => ?_⟩, noticed_step hnoticed hstep⟩
    · rw [horder, hqueue, List.map_append, List.append_assoc]
      rfl
    · rw [List.forall_mem_append, List.forall_mem_singleton]
      exact ⟨hanswers, nofun⟩
    · refine ⟨_, r, hdr.send hroom p.packet seg p.reqs hfits true, ?_⟩
      rw [Fifo.accepted_accept, haccepted, answered_append, if_pos rfl, List.map_append, ← hsegs]
      rfl
    · rw [answered_append, if_neg (by decide), List.append_nil, List.append_nil]
      exact hfreed
    · exact Bool.noConfusion (hrunning.symm.trans hs)

theorem queueInv_drop (h : QueueInv w) {rest : List OutPacket} (hrunning : w.stalled = false)
    (hqueue : w.queue = p :: rest) (he : w.outputPacket p = (.dropped, freed, writes)) :
    QueueInv { w with
      latch := { w.latch with adapter := { w.latch.adapter with tx := applyAll writes w.tx } }
      queue := rest
      taken := w.taken ++ [(p, .dropped)]
      freed := w.freed ++ freed } := by
  obtain ⟨⟨horder, hanswers, hsent, hfreed, -⟩, hnoticed⟩ := h
  rcases outputPacket_cases w p with hc | ⟨-, hc⟩ | ⟨-, seg, segs, -, hc⟩
  · rw [hc, Prod.mk.injEq, Prod.mk.injEq] at he
    obtain ⟨-, rfl, rfl⟩ := he
    refine ⟨⟨?_, ?_, ?_, ?_, fun hs => ?_⟩, hnoticed⟩
    · rw [horder, hqueue, List.map_append, List.append_assoc]
      rfl
    · rw [List.forall_mem_append, List.forall_mem_singleton]
      exact ⟨hanswers, nofun⟩
    · rw [answered_append, if_neg (by decide), List.append_nil]
      exact hsent
    · rw [answered_append, if_pos rfl, List.map_append, hfreed]
      rfl
    · exact Bool.noConfusion (hrunning.symm.trans hs)
  · rw [hc] at he; cases he
  · rw [hc] at he; cases he

/-- The packet that finds no room stays in the queue. -/
theorem queueInv_stall (h : QueueInv w) (he : w.outputPacket p = (.stall, freed, writes)) :
    QueueInv { w with
      latch := { w.latch with adapter := { w.latch.adapter with tx := applyAll writes w.tx } }
      stalled := true
      freed := w.freed ++ freed } := by
  obtain ⟨⟨horder, hanswers, hsent, hfreed, -⟩, hnoticed⟩ := h
  rcases outputPacket_cases w p with hc | ⟨hfull, hc⟩ | ⟨-, seg, segs, -, hc⟩
  · rw [hc] at he; cases he
  · rw [hc, Prod.mk.injEq, Prod.mk.injEq] at he
    obtain ⟨-, rfl, rfl⟩ := he
    refine ⟨⟨horder, hanswers, hsent, ?_, fun _ => Or.inr (promised_of_full hnoticed hfull)⟩, hnoticed⟩
    rw [List.append_nil]
    exact hfreed
  · rw [hc] at he; cases he

theorem queueInv_step (h : QueueInv w) (hs : QueueStep w l v) : QueueInv v := by
  cases hs with
  | @adapter l u hs hl =>
    obtain ⟨⟨horder, hanswers, hsent, hfreed, hawake⟩, hnoticed⟩ := h
    refine ⟨⟨horder, hanswers, carries_latchStep hsent hs hl, hfreed, fun hstalled => ?_⟩, noticed_step hnoticed hs⟩
    rcases hawake hstalled with hserviced | hpromised
    · exact Or.inl (by rw [hserviced]; rfl)
    · rcases promised_step hpromised hs hl with hpromised | hservices
      · exact Or.inr hpromised
      · exact Or.inl (by rw [hservices, Bool.or_true])
  | enqueue p =>
    obtain ⟨⟨horder, hanswers, hsent, hfreed, hawake⟩, hnoticed⟩ := h
    refine ⟨⟨?_, hanswers, hsent, hfreed, hawake⟩, hnoticed⟩
    rw [horder, List.append_assoc]
  | send hrunning hqueue he => exact queueInv_send h hrunning hqueue he
  | drop hrunning hqueue he => exact queueInv_drop h hrunning hqueue he
  | stall _ _ he => exact queueInv_stall h he
  | service =>
    obtain ⟨⟨horder, hanswers, hsent, hfreed, -⟩, hnoticed⟩ := h
    exact ⟨⟨horder, hanswers, hsent, hfreed, fun hs => Bool.noConfusion hs⟩, hnoticed⟩
  | disable =>
    obtain ⟨⟨horder, hanswers, hsent, hfreed, hawake⟩, hnoticed⟩ := h
    exact ⟨⟨horder, hanswers, hsent, hfreed, hawake⟩, hnoticed⟩

/-- **The output queue** over whole runs. -/
theorem output_queue {es : List (Edge QueueWorld QueueLabel)} (h : Run QueueInit QueueStep es w) : QueueSafe w :=
  (h.invariant (I := QueueInv) (fun _ => queueInv_init) fun _ _ _ => queueInv_step).safe

end Invariant

/-- One packet of one segment, on its way. -/
theorem output_queue_single : ∃ es w, Run QueueInit QueueStep es w ∧ w.taken.length = 1 ∧ QueueSafe w := by
  have h0 : Run QueueInit QueueStep []
      ⟨true, ⟨⟨.idle, 0, bufferRing, startRing⟩, [], 0, 0⟩, [], false, false, [], [], []⟩ :=
    .start ⟨⟨_, _, bufferRing, _, _, _, bufferRing_init _, fun _ => rfl, rfl⟩, rfl, rfl, rfl, rfl, rfl, rfl, rfl⟩
  have h1 := h0.step (.enqueue ⟨7, [segment64], ⟨false, false, false⟩, by decide⟩)
  have h2 := h1.step (.send rfl rfl rfl)
  exact ⟨_, _, h2, rfl, output_queue h2⟩

/-! ## Recovery -/

/-- Steps of the hardware and the handler. -/
def Quiet : QueueWorld → QueueWorld → Prop := ReflTransGen fun w v => ∃ l, QueueStep w (.adapter l) v

/-- `v` is as `w` was, but for the rings and what the handler has done. -/
structure Steady (w v : QueueWorld) : Prop where
  quiet : Quiet w v
  hardware : v.latch.hardware = w.latch.hardware
  unlatched : v.latch.txUnlatched = w.latch.txUnlatched
  intStatus : v.latch.adapter.intStatus = w.latch.adapter.intStatus

section Recovery

variable {w v u : QueueWorld} {b : Adapter} {k : HandlerLabel}

theorem quiet_step {l : LatchLabel} {x : LatchWorld} (hs : LatchStep w.latch l x) (hl : l ≠ .send) :
    Quiet w { w with latch := x, serviced := w.serviced || l.services } :=
  ReflTransGen.single ⟨l, .adapter hs hl⟩

theorem Steady.trans (h : Steady w v) (h' : Steady v u) : Steady w u :=
  ⟨ReflTransGen.trans h.quiet h'.quiet, h'.hardware.trans h.hardware, h'.unlatched.trans h.unlatched,
    h'.intStatus.trans h.intStatus⟩

/-- The adapter after a step of the handler, in the system. -/
def QueueWorld.handled (w : QueueWorld) (k : HandlerLabel) (b : Adapter) : QueueWorld :=
  { w with
    latch := { w.latch with adapter := b }
    serviced := w.serviced || (LatchLabel.handler k).services }

theorem steady_handler (hs : HandlerStep w.latch.adapter k b) (hi : b.intStatus = w.latch.adapter.intStatus) :
    Steady w (w.handled k b) :=
  ⟨quiet_step (.handler hs) nofun, rfl, rfl, hi⟩

theorem queueInv_quiet (h : QueueInv w) (hq : Quiet w v) : QueueInv v := by
  induction hq with
  | refl => exact h
  | tail _ hs ih =>
    obtain ⟨l, hs⟩ := hs
    exact queueInv_step ih hs

/-- The handler leaves the queue and its history alone. -/
theorem quiet_queue (hq : Quiet w v) : v.queue = w.queue ∧ v.stalled = w.stalled ∧ v.taken = w.taken ∧
    v.enqueued = w.enqueued := by
  induction hq with
  | refl => exact ⟨rfl, rfl, rfl, rfl⟩
  | tail _ hs ih =>
    obtain ⟨l, hs⟩ := hs
    cases hs
    exact ih

/-- The transmit loop comes to its end. -/
theorem finish_txLoop {fuel : ℕ} {freed : List Mbuf} {t : TxRing} (hd : w.latch.adapter.handler = .txScan)
    (ht : handleTxLoop fuel w.tx = some (freed, t)) :
    ∃ v, Steady w v ∧ v.latch.adapter.handler = .idle ∧ v.serviced = true := by
  induction fuel generalizing w freed t with
  | zero => cases ht
  | succ fuel ih =>
    rw [handleTxLoop] at ht
    cases hready : txReady w.tx with
    | false =>
      exact ⟨_, steady_handler (.leaveTx hd hready) rfl, rfl, Bool.or_true _⟩
    | true =>
      rw [hready, if_pos rfl] at ht
      obtain ⟨⟨freed', t'⟩, ht', -⟩ := Option.map_eq_some_iff.mp ht
      have hround := steady_handler (.txRound hd hready) rfl
      obtain ⟨v, hv, hidle, hserviced⟩ :=
        ih (w := w.handled .txRound { w.latch.adapter with tx := reclaim w.tx }) hd ht'
      exact ⟨v, hround.trans hv, hidle, hserviced⟩

/-- The receive loop comes to its end. -/
theorem finish_rxLoop {fuel j : ℕ} {x : Word} {o : ℕ → RxOutcome} {acts : List RxAction} {t : RxRing}
    (hd : w.latch.adapter.handler = .rxScan x) (ht : handleRxLoop o fuel j w.latch.adapter.rx = some (acts, t)) :
    ∃ v, Steady w v ∧ v.latch.adapter.handler = .rxServed x := by
  induction fuel generalizing w j acts t with
  | zero => cases ht
  | succ fuel ih =>
    rw [handleRxLoop] at ht
    cases hready : rxReady w.latch.adapter.rx with
    | false => exact ⟨_, steady_handler (.leaveRx hd hready) rfl, rfl⟩
    | true =>
      rw [hready, if_pos rfl] at ht
      obtain ⟨⟨acts', t'⟩, ht', -⟩ := Option.map_eq_some_iff.mp ht
      have hround := steady_handler (.rxRound (o j) hd hready) rfl
      obtain ⟨v, hv, hserved⟩ := ih (w := w.handled (.rxRound (o j))
        { w.latch.adapter with rx := applyRx (rxRound w.latch.adapter.rx (o j)) w.latch.adapter.rx }) hd ht'
      exact ⟨v, hround.trans hv, hserved⟩

theorem finish_rxServed {x : Word} (h : QueueInv w) (hd : w.latch.adapter.handler = .rxServed x) :
    ∃ v, Steady w v ∧ v.latch.adapter.handler = .idle ∧ (has x intTxDone = true → v.serviced = true) := by
  cases hx : has x intTxDone with
  | true =>
    obtain ⟨-, -, q, r, hdr⟩ := h.noticed
    obtain ⟨t, ht, -⟩ := hdr.handle
    obtain ⟨v, hv, hidle, hserviced⟩ :=
      finish_txLoop (w := w.handled .scanTx { w.latch.adapter with handler := .txScan }) rfl ht
    exact ⟨v, (steady_handler (.scanTx hd hx) rfl).trans hv, hidle, fun _ => hserviced⟩
  | false => exact ⟨_, steady_handler (.skipTx hd hx) rfl, rfl, nofun⟩

theorem finish_rxScan {x : Word} (h : QueueInv w) (hd : w.latch.adapter.handler = .rxScan x) :
    ∃ v, Steady w v ∧ v.latch.adapter.handler = .idle ∧ (has x intTxDone = true → v.serviced = true) := by
  obtain ⟨n, acts, t, ht, -⟩ := handleRxInterrupt_spec w.latch.adapter.rx fun _ => ⟨.failed, none⟩
  obtain ⟨v, hv, hserved⟩ := finish_rxLoop hd ht
  obtain ⟨u, hu, hidle, hserviced⟩ := finish_rxServed (queueInv_quiet h hv.quiet) hserved
  exact ⟨u, hv.trans hu, hidle, hserviced⟩

theorem finish_acked {x : Word} (h : QueueInv w) (hd : w.latch.adapter.handler = .acked x) :
    ∃ v, Steady w v ∧ v.latch.adapter.handler = .idle ∧ (has x intTxDone = true → v.serviced = true) := by
  cases hx : has x intRxDone with
  | true =>
    have hscan := steady_handler (.scanRx hd hx) rfl
    obtain ⟨v, hv, hidle, hserviced⟩ := finish_rxScan (queueInv_quiet h hscan.quiet) rfl
    exact ⟨v, hscan.trans hv, hidle, hserviced⟩
  | false =>
    have hskip := steady_handler (.skipRx hd hx) rfl
    obtain ⟨v, hv, hidle, hserviced⟩ := finish_rxServed (queueInv_quiet h hskip.quiet) rfl
    exact ⟨v, hskip.trans hv, hidle, hserviced⟩

/-- **The handler comes to its end** without a step of the hardware, wherever it is. -/
theorem finish_handler (h : QueueInv w) : ∃ v, Quiet w v ∧ v.latch.adapter.handler = .idle ∧
    v.latch.hardware = w.latch.hardware ∧ v.latch.txUnlatched = w.latch.txUnlatched := by
  cases hd : w.latch.adapter.handler with
  | idle => exact ⟨w, ReflTransGen.refl, hd, rfl, rfl⟩
  | statusRead x =>
    have hack : Quiet w (w.handled .ack _) := quiet_step (.handler (.ack hd)) nofun
    obtain ⟨v, hv, hidle, -⟩ := finish_acked (queueInv_quiet h hack) rfl
    exact ⟨v, ReflTransGen.trans hack hv.quiet, hidle, hv.hardware, hv.unlatched⟩
  | acked x =>
    obtain ⟨v, hv, hidle, -⟩ := finish_acked h hd
    exact ⟨v, hv.quiet, hidle, hv.hardware, hv.unlatched⟩
  | rxScan x =>
    obtain ⟨v, hv, hidle, -⟩ := finish_rxScan h hd
    exact ⟨v, hv.quiet, hidle, hv.hardware, hv.unlatched⟩
  | rxServed x =>
    obtain ⟨v, hv, hidle, -⟩ := finish_rxServed h hd
    exact ⟨v, hv.quiet, hidle, hv.hardware, hv.unlatched⟩
  | txScan =>
    obtain ⟨-, -, q, r, hdr⟩ := h.noticed
    obtain ⟨t, ht, -⟩ := hdr.handle
    obtain ⟨v, hv, hidle, -⟩ := finish_txLoop hd ht
    exact ⟨v, hv.quiet, hidle, hv.hardware, hv.unlatched⟩

/-- An interrupt that is latched runs the handler, which services the queue and leaves nothing latched. -/
theorem run_handler (h : QueueInv w) (hd : w.latch.adapter.handler = .idle)
    (hbit : has w.latch.adapter.intStatus intTxDone = true) : ∃ v, Quiet w v ∧ v.latch.adapter.handler = .idle ∧
      v.latch.hardware = w.latch.hardware ∧ v.latch.txUnlatched = w.latch.txUnlatched ∧
      has v.latch.adapter.intStatus intTxDone = false ∧ v.serviced = true := by
  have hread := steady_handler (.read hd) rfl
  obtain ⟨u, hu⟩ : ∃ u, u = w.handled .read { w.latch.adapter with handler := .statusRead w.latch.adapter.intStatus } :=
    ⟨_, rfl⟩
  have hud : u.latch.adapter.handler = .statusRead w.latch.adapter.intStatus := by rw [hu]; rfl
  have hack : Quiet u (u.handled .ack _) := quiet_step (.handler (.ack hud)) nofun
  rw [← hu] at hread
  obtain ⟨v, hv, hidle, hserviced⟩ := finish_acked (queueInv_quiet (queueInv_quiet h hread.quiet) hack) rfl
  refine ⟨v, (hread.quiet.trans hack).trans hv.quiet, hidle, hv.hardware.trans hread.hardware,
    hv.unlatched.trans hread.unlatched, ?_, hserviced hbit⟩
  rw [hv.intStatus]
  have hstatus : u.latch.adapter.intStatus = w.latch.adapter.intStatus := hread.intStatus
  show has (u.latch.adapter.intStatus &&& ~~~w.latch.adapter.intStatus) intTxDone = false
  rw [hstatus]
  exact has_acked (by decide) hbit

/-- The hardware completes its chains. -/
theorem complete_all (n : ℕ) (h : QueueInv w) (hn : w.latch.hardware.length = n) :
    ∃ v, Quiet w v ∧ v.latch.hardware = [] := by
  induction n generalizing w with
  | zero => exact ⟨w, ReflTransGen.refl, List.length_eq_zero_iff.mp hn⟩
  | succ n ih =>
    obtain ⟨i, rest, hi⟩ := List.exists_cons_of_length_eq_add_one hn
    have hstep := quiet_step (.complete hi) nofun
    rw [hi, List.length_cons] at hn
    obtain ⟨v, hv, hnone⟩ := ih (queueInv_quiet h hstep) (Nat.succ.inj hn)
    exact ⟨v, hstep.trans hv, hnone⟩

/-- The hardware latches the bits of the completed chains. -/
theorem latch_all (n : ℕ) (h : QueueInv w) (hn : w.latch.txUnlatched = n) :
    ∃ v, Quiet w v ∧ v.latch.hardware = w.latch.hardware ∧ v.latch.txUnlatched = 0 := by
  induction n generalizing w with
  | zero => exact ⟨w, ReflTransGen.refl, rfl, hn⟩
  | succ n ih =>
    have hstep := quiet_step (.latchTx hn) nofun
    obtain ⟨v, hv, hhardware, hzero⟩ := ih (queueInv_quiet h hstep) rfl
    exact ⟨v, hstep.trans hv, hhardware, hzero⟩

/-- With the hardware and the handler done, the ring is empty. -/
theorem room_of_done (h : QueueInv w) (hnone : w.latch.hardware = []) (hzero : w.latch.txUnlatched = 0)
    (hidle : w.latch.adapter.handler = .idle) (hbit : has w.latch.adapter.intStatus intTxDone = false) :
    ¬ txFree w.tx.txReadIndex w.tx.txWriteIndex < txMaxSegCount := by
  intro hfull
  rcases promised_of_full h.noticed hfull with h1 | h1 | h1 | h1
  · exact h1 hnone
  · omega
  · rw [hbit] at h1
    cases h1
  · rw [hidle] at h1
    cases h1

/-- **A stalled queue recovers**: the steps of the hardware and the handler alone lead to a state in which the queue can
be serviced and the ring has room for the packet that waits. -/
theorem queue_recovers {es : List (Edge QueueWorld QueueLabel)} (h : Run QueueInit QueueStep es w)
    (hstalled : w.stalled = true) : ∃ v u, Quiet w v ∧ QueueStep v .service u ∧ u.queue = w.queue ∧
      u.stalled = false ∧ ¬ txFree u.tx.txReadIndex u.tx.txWriteIndex < txMaxSegCount := by
  have h0 : QueueInv w := h.invariant (I := QueueInv) (fun _ => queueInv_init) fun _ _ _ => queueInv_step
  obtain ⟨w1, hq1, hnone1⟩ := complete_all _ h0 rfl
  obtain ⟨w2, hq2, hnone2, hzero2⟩ := latch_all _ (queueInv_quiet h0 hq1) rfl
  obtain ⟨w3, hq3, hidle3, hhardware3, hunlatched3⟩ :=
    finish_handler (queueInv_quiet (queueInv_quiet h0 hq1) hq2)
  have hq : Quiet w w3 := (hq1.trans hq2).trans hq3
  have h3 : QueueInv w3 := queueInv_quiet h0 hq
  have hnone3 : w3.latch.hardware = [] := hhardware3.trans (hnone2.trans hnone1)
  have hzero3 : w3.latch.txUnlatched = 0 := hunlatched3.trans hzero2
  -- A last run of the handler, if its bit is latched; otherwise the queue has been serviced.
  obtain ⟨v, hqv, hidle, hnone, hzero, hbit, hserviced⟩ : ∃ v, Quiet w v ∧ v.latch.adapter.handler = .idle ∧
      v.latch.hardware = [] ∧ v.latch.txUnlatched = 0 ∧ has v.latch.adapter.intStatus intTxDone = false ∧
      v.serviced = true := by
    cases hbit : has w3.latch.adapter.intStatus intTxDone with
    | true =>
      obtain ⟨v, hv, hidle, hhardware, hunlatched, hclear, hserviced⟩ := run_handler h3 hidle3 hbit
      exact ⟨v, hq.trans hv, hidle, hhardware.trans hnone3, hunlatched.trans hzero3, hclear, hserviced⟩
    | false =>
      refine ⟨w3, hq, hidle3, hnone3, hzero3, hbit, ?_⟩
      rcases h3.safe.awake ((quiet_queue hq).2.1.trans hstalled) with hs | h1 | h1 | h1 | h1
      · exact hs
      · exact absurd hnone3 h1
      · omega
      · rw [hbit] at h1
        cases h1
      · rw [hidle3] at h1
        cases h1
  have hroom := room_of_done (queueInv_quiet h0 hqv) hnone hzero hidle hbit
  exact ⟨v, _, hqv, .service hserviced, (quiet_queue hqv).1, rfl, hroom⟩

end Recovery

/-- A packet that finds room is sent. -/
theorem run_send {es : List (Edge QueueWorld QueueLabel)} {w : QueueWorld} {q : Fifo Chain} {r : ℕ}
    (h : Run QueueInit QueueStep es w) (henabled : w.isEnabled = true) (hrunning : w.stalled = false)
    (hqueue : w.queue = []) (hdr : Drives w.tx w.latch.hardware q r)
    (hroom : ¬ txFree w.tx.txReadIndex w.tx.txWriteIndex < txMaxSegCount) (p : OutPacket) {seg : Segment}
    {segs : List Segment} (hsegs : p.segments = seg :: segs) : ∃ es' v, Run QueueInit QueueStep es' v ∧
      v.isEnabled = true ∧ v.stalled = false ∧ v.queue = [] ∧
      Drives v.tx v.latch.hardware (q.accept ⟨p.packet, p.segments⟩) r := by
  have hqueue' : w.queue ++ [p] = [p] := by rw [hqueue]; rfl
  have hfits := p.fits
  have hout : Driver.outputPacket ⟨w.isEnabled, true, w.latch.adapter⟩ p.packet p.segments p.reqs =
      (.success, [], sendWrites true w.tx.txWriteIndex p.packet seg segs p.reqs) := by
    rw [Driver.outputPacket, if_pos henabled, hsegs]
    exact if_neg hroom
  rw [hsegs] at hfits
  refine ⟨_, _, (h.step (.enqueue p)).step (.send hrunning hqueue' hout), henabled, hrunning, rfl, ?_⟩
  rw [hsegs]
  exact hdr.send hroom p.packet seg p.reqs hfits true

/-- A packet of the largest number of segments. -/
def largePacket : OutPacket := ⟨7, List.replicate 8 segment64, ⟨false, false, false⟩, Nat.le_refl 8⟩

/-- The hardware has completed none of `k` large packets. -/
theorem run_large (k : ℕ) (hk : k ≤ 31) : ∃ es w, Run QueueInit QueueStep es w ∧ w.isEnabled = true ∧
    w.stalled = false ∧ w.queue = [] ∧
    ∃ q r, Drives w.tx w.latch.hardware q r ∧ span Chain.count q.outstanding = 8 * k := by
  induction k with
  | zero =>
    have h0 : Run QueueInit QueueStep []
        ⟨true, ⟨⟨.idle, 0, bufferRing, startRing⟩, [], 0, 0⟩, [], false, false, [], [], []⟩ :=
      .start ⟨⟨_, _, bufferRing, _, _, _, bufferRing_init _, fun _ => rfl, rfl⟩, rfl, rfl, rfl, rfl, rfl, rfl, rfl⟩
    exact ⟨_, _, h0, rfl, rfl, rfl, _, _, drives_init fun _ => rfl, rfl⟩
  | succ k ih =>
    obtain ⟨es, w, hr, henabled, hrunning, hqueue, q, r, hdr, hspan⟩ := ih (by omega)
    have hroom : ¬ txFree w.tx.txReadIndex w.tx.txWriteIndex < txMaxSegCount := by
      rw [hdr.tracks.tiled.no_room_iff, hspan]
      omega
    obtain ⟨es', v, hr', henabled', hrunning', hqueue', hdr'⟩ :=
      run_send hr henabled hrunning hqueue hdr hroom largePacket rfl
    refine ⟨es', v, hr', henabled', hrunning', hqueue', _, r, hdr', ?_⟩
    rw [Fifo.outstanding_accept, span_append, hspan, Nat.mul_succ]
    rfl

/-- 31 large packets, and one that waits. -/
theorem queue_recovers_full : ∃ es w, Run QueueInit QueueStep es w ∧ w.stalled = true ∧
    ∃ v u, Quiet w v ∧ QueueStep v .service u ∧ u.queue = w.queue ∧
      u.stalled = false ∧ ¬ txFree u.tx.txReadIndex u.tx.txWriteIndex < txMaxSegCount := by
  obtain ⟨es, w, hr, henabled, hrunning, hqueue, q, r, hdr, hspan⟩ := run_large 31 (Nat.le_refl 31)
  have hfull : txFree w.tx.txReadIndex w.tx.txWriteIndex < txMaxSegCount := by
    rw [hdr.tracks.tiled.no_room_iff, hspan]
    omega
  have h1 := hr.step (.enqueue largePacket)
  have hqueue' : w.queue ++ [largePacket] = [largePacket] := by rw [hqueue]; rfl
  have hout : Driver.outputPacket ⟨w.isEnabled, true, w.latch.adapter⟩ largePacket.packet largePacket.segments
      largePacket.reqs = (.stall, [], []) := by
    rw [Driver.outputPacket, if_pos henabled]
    exact if_pos hfull
  have h2 := h1.step (.stall hrunning hqueue' hout)
  exact ⟨_, _, h2, rfl, queue_recovers h2 rfl⟩

end Osx360.Ethernet
