import Osx360.Lib.Ledger
import Osx360.Lib.Run
import Osx360.Ethernet.Receive

/-!
# Ownership of received packets

Runs of frame arrivals and rounds of `handleRxInterrupt`, from a successful `initTransmitReceiveBuffers`. As long as
every `replaceOrCopyPacket` and every `setRxDescriptorPacket` succeeds, each mbuf is in one place; the first failure
of either hands NULL to the interface (`rx_ownership_iff`).
-/

set_option autoImplicit false

namespace Osx360.Ethernet

open Osx360.Lib

/-! ## The system -/

/-- The ring, and every mbuf that the receive path obtained, handed to the interface or freed. -/
structure RxWorld where
  ring : RxRing
  /-- A call of `handleRxInterrupt` is in its loop. -/
  scanning : Bool
  obtained : List Mbuf
  delivered : List (Option Mbuf × BitVec 16)
  freed : List Mbuf

inductive RxLabel
  | arrive (i : Index) (status : Word)
  | interrupt
  | round (o : RxOutcome)
  | done

/-- The hardware fills a descriptor and gives it back. -/
def fillDescriptor (i : Index) (status : Word) (s : RxRing) : RxRing :=
  s.modifyDesc i fun d => { d with packetLength := status, flags := d.flags &&& ~~~rxFlagsOwner }

def RxWorld.round (w : RxWorld) (o : RxOutcome) : RxWorld :=
  { w with
    ring := applyRx (rxRound w.ring o) w.ring
    obtained := w.obtained ++ o.replacement.obtained
    delivered := w.delivered ++ (rxRound w.ring o).flatMap RxAction.delivered
    freed := w.freed ++ (rxRound w.ring o).flatMap RxAction.freed }

/-- The steps; `memory m` is the physical segment of the mbuf `m`. Frames may arrive in any order. A call allocates a
new mbuf, and the memory cursor returns the memory of the packet it is given or fails. -/
inductive RxStep (memory : Mbuf → Segment) : RxWorld → RxLabel → RxWorld → Prop
  | arrive {w : RxWorld} (i : Index) (status : Word) : (w.ring.rxDesc i).owned = true →
      RxStep memory w (.arrive i status) { w with ring := fillDescriptor i status w.ring }
  | interrupt {w : RxWorld} : w.scanning = false → RxStep memory w .interrupt { w with scanning := true }
  | round {w : RxWorld} (o : RxOutcome) : w.scanning = true → rxReady w.ring = true →
      (∀ m ∈ o.replacement.obtained, m ∉ w.obtained) →
      (∀ seg m, o.segment = some seg → o.packet w.ring = some m → seg = memory m) →
      RxStep memory w (.round o) (w.round o)
  | done {w : RxWorld} : w.scanning = true → rxReady w.ring = false → RxStep memory w .done { w with scanning := false }

/-- After a successful `initTransmitReceiveBuffers`, which allocates a new mbuf for each slot. -/
def RxInit (memory : Mbuf → Segment) (w : RxWorld) : Prop :=
  ∃ (alloc : Index → Option Mbuf) (segment : Index → Option Segment) (s t : RxRing),
    initRxRing alloc segment s = (true, t) ∧ (∀ i j, alloc i = alloc j → i = j) ∧
      (∀ i seg m, segment i = some seg → alloc i = some m → seg = memory m) ∧
      w = ⟨t, false, (List.finRange 256).filterMap alloc, [], []⟩

/-! ## The property -/

/-- The mbuf is in one slot, or was handed to the interface once, or was freed once, and nothing else. -/
def InOnePlace (w : RxWorld) (m : Mbuf) : Prop :=
  ((∃! i, w.ring.rxPackets i = some m) ∧ (w.delivered.map Prod.fst).count (some m) = 0 ∧ w.freed.count m = 0) ∨
    (∀ i, w.ring.rxPackets i ≠ some m) ∧
      ((w.delivered.map Prod.fst).count (some m) = 1 ∧ w.freed.count m = 0 ∨
        (w.delivered.map Prod.fst).count (some m) = 0 ∧ w.freed.count m = 1)

structure RxOwned (memory : Mbuf → Segment) (w : RxWorld) : Prop where
  places : ∀ m ∈ w.obtained, InOnePlace w m
  slots : ∀ i m, w.ring.rxPackets i = some m → m ∈ w.obtained ∧ m ∉ w.freed
  input : ∀ d ∈ w.delivered, d.1 ≠ none
  mapped : ∀ i, (w.ring.rxDesc i).owned = true →
    ∃ m, w.ring.rxPackets i = some m ∧ m ∉ w.freed ∧ (w.ring.rxDesc i).address = (memory m).location

/-- The condition on one step: in a round both calls succeed. -/
def RxSucceeds : RxLabel → Prop
  | .round o => o.replacement ≠ .failed ∧ o.segment.isSome
  | _ => True

/-! ## The invariant -/

/-- Each slot holds its packet, and each packet handed on was handed on as it is. -/
structure RxInv (memory : Mbuf → Segment) (w : RxWorld) (held : Index → Mbuf) (given : List Mbuf) : Prop where
  ledger : Ledger held given w.obtained
  packets : ∀ i, w.ring.rxPackets i = some (held i)
  delivered : w.delivered.map Prod.fst = given.map some
  freed : w.freed = []
  mapped : ∀ i, (w.ring.rxDesc i).owned = true → (w.ring.rxDesc i).address = (memory (held i)).location

section Inv

variable {memory : Mbuf → Segment} {w v : RxWorld} {held : Index → Mbuf} {given : List Mbuf} {l : RxLabel}

theorem RxInv.owned (h : RxInv memory w held given) : RxOwned memory w := by
  refine ⟨fun m hm => ?_, fun i m hi => ?_, fun d hd => ?_, fun i hi => ?_⟩
  · have hslot : ∀ i, w.ring.rxPackets i = some m ↔ held i = m := fun i => by rw [h.packets i, Option.some.injEq]
    unfold InOnePlace
    rw [h.delivered, h.freed, List.count_map_of_injective given some (Option.some_injective _) m]
    simp only [hslot, ne_eq]
    rcases h.ledger.one_place hm with hheld | ⟨hno, hgiven⟩
    · exact Or.inl ⟨hheld.1, hheld.2, rfl⟩
    · exact Or.inr ⟨hno, Or.inl ⟨hgiven, rfl⟩⟩
  · rw [h.packets i, Option.some.injEq] at hi
    rw [h.freed]
    exact ⟨(h.ledger.all m).mpr (Or.inl ⟨i, hi⟩), List.not_mem_nil⟩
  · have hmem : d.1 ∈ given.map some := by
      rw [← h.delivered]
      exact List.mem_map_of_mem hd
    obtain ⟨m, _, hm⟩ := List.mem_map.mp hmem
    rw [← hm]
    exact Option.some_ne_none m
  · refine ⟨held i, h.packets i, ?_, h.mapped i hi⟩
    rw [h.freed]
    exact List.not_mem_nil

theorem rxInv_init (h : RxInit memory w) : ∃ held given, RxInv memory w held given := by
  obtain ⟨alloc, segment, s, t, hinit, hdistinct, hmem, rfl⟩ := h
  obtain ⟨_, hslots⟩ := initRxRing_spec hinit
  choose held seg halloc hseg hpackets hdesc using hslots
  refine ⟨held, [], ⟨fun i j hij => ?_, List.nodup_nil, fun _ => List.not_mem_nil, fun m => ?_⟩, hpackets, rfl, rfl,
    fun i _ => ?_⟩
  · exact hdistinct i j (by rw [halloc i, halloc j, hij])
  · simp [halloc]
  · show (t.rxDesc i).address = _
    rw [hdesc i, ← hmem i (seg i) (held i) (hseg i) (halloc i)]
    rfl

/-- Nothing but the flags and the status of a descriptor changes when a frame arrives. -/
theorem fillDescriptor_desc (i j : Index) (status : Word) (s : RxRing) :
    ((fillDescriptor i status s).rxDesc j).address = (s.rxDesc j).address ∧
      ((fillDescriptor i status s).rxDesc j).length = (s.rxDesc j).length ∧
      (((fillDescriptor i status s).rxDesc j).owned = true → (s.rxDesc j).owned = true) := by
  by_cases h : j = i
  · subst h
    simp only [fillDescriptor, RxRing.modifyDesc, Function.update_self, Descriptor.owned, txFlagsOwner, rxFlagsOwner,
      has_and (show 31 < 32 by decide), Bool.and_eq_true, true_and]
    exact And.left
  · simp [fillDescriptor, RxRing.modifyDesc, Function.update_of_ne h]

/-- A successful round keeps one packet, the old one of the slot or a new one, and hands on the other. -/
theorem Ledger.round (h : Ledger held given w.obtained) (hpacket : w.ring.rxPackets w.ring.rxIndex =
    some (held w.ring.rxIndex)) {o : RxOutcome} (ho : o.replacement ≠ .failed) (hs : o.segment.isSome)
    (hfresh : ∀ m ∈ o.replacement.obtained, m ∉ w.obtained) :
    ∃ keep give, o.packet w.ring = some keep ∧ o.input w.ring = some give ∧
      Ledger (Function.update held w.ring.rxIndex keep) (given ++ [give]) (w.obtained ++ o.replacement.obtained) := by
  obtain ⟨r, sg⟩ := o
  unfold RxOutcome.packet RxOutcome.input
  rw [if_pos hs, hpacket]
  cases r with
  | failed => exact absurd rfl ho
  | copied m =>
    refine ⟨held w.ring.rxIndex, m, rfl, rfl, ?_⟩
    rw [Function.update_eq_self]
    exact h.give (hfresh m (List.mem_singleton_self m))
  | replaced m => exact ⟨m, held w.ring.rxIndex, rfl, rfl, h.exchange (hfresh m (List.mem_singleton_self m)) _⟩

theorem RxInv.round (h : RxInv memory w held given) {o : RxOutcome} (ho : o.replacement ≠ .failed)
    (hs : o.segment.isSome) (hfresh : ∀ m ∈ o.replacement.obtained, m ∉ w.obtained)
    (hmem : ∀ seg m, o.segment = some seg → o.packet w.ring = some m → seg = memory m) :
    ∃ held' given', RxInv memory (w.round o) held' given' := by
  obtain ⟨seg, hseg⟩ := Option.isSome_iff_exists.mp hs
  obtain ⟨keep, give, hpacket, hinput, hledger⟩ := Ledger.round h.ledger (h.packets _) ho hs hfresh
  refine ⟨_, _, hledger, fun i => ?_, ?_, ?_, fun i hi => ?_⟩
  · simp only [RxWorld.round, applyRx_round, hpacket]
    by_cases hi : i = w.ring.rxIndex
    · rw [hi, Function.update_self, Function.update_self]
    · rw [Function.update_of_ne hi, Function.update_of_ne hi]
      exact h.packets i
  · simp only [RxWorld.round, delivered_round, hinput, List.map_append, h.delivered]
    rfl
  · simp only [RxWorld.round, freed_round w.ring hs, h.freed, List.append_nil]
  · simp only [RxWorld.round, applyRx_round, hseg] at hi ⊢
    by_cases he : i = w.ring.rxIndex
    · subst he
      rw [Function.update_self, Function.update_self, hmem seg keep hseg hpacket]
      rfl
    · rw [Function.update_of_ne he] at hi
      rw [Function.update_of_ne he, Function.update_of_ne he]
      exact h.mapped i hi

/-! ## The condition is exact -/

theorem rxInv_step (h : ∃ held given, RxInv memory w held given) (hc : RxSucceeds l) (hs : RxStep memory w l v) :
    ∃ held given, RxInv memory v held given := by
  obtain ⟨held, given, h⟩ := h
  cases hs with
  | arrive i status ho =>
    refine ⟨held, given, h.ledger, h.packets, h.delivered, h.freed, fun j hj => ?_⟩
    obtain ⟨haddr, _, hown⟩ := fillDescriptor_desc i j status w.ring
    exact haddr.trans (h.mapped j (hown hj))
  | interrupt _ => exact ⟨held, given, h.ledger, h.packets, h.delivered, h.freed, h.mapped⟩
  | round o _ _ hfresh hmem => exact h.round hc.1 hc.2 hfresh hmem
  | done _ _ => exact ⟨held, given, h.ledger, h.packets, h.delivered, h.freed, h.mapped⟩

/-- A round in which a call fails hands NULL to the interface. -/
theorem null_of_failure (s : RxRing) {o : RxOutcome} (h : ¬ RxSucceeds (.round o)) : o.input s = none := by
  obtain ⟨r, seg⟩ := o
  unfold RxOutcome.input
  split
  · rename_i hs
    cases r with
    | failed => rfl
    | copied m => exact absurd ⟨by simp, hs⟩ h
    | replaced m => exact absurd ⟨by simp, hs⟩ h
  · rfl

theorem rx_failure (hc : ¬ RxSucceeds l) (hs : RxStep memory w l v) : ¬ RxOwned memory v := by
  cases hs with
  | arrive => exact absurd trivial hc
  | interrupt => exact absurd trivial hc
  | done => exact absurd trivial hc
  | round o _ _ _ _ =>
    intro h
    refine h.input (o.input w.ring, rxPacketLength (w.ring.rxDesc w.ring.rxIndex).packetLength) ?_
      (null_of_failure w.ring hc)
    unfold RxWorld.round
    rw [delivered_round]
    exact List.mem_append_right _ (List.mem_singleton_self _)

/-- **Received packets are owned as they should be exactly in the runs in which every `replaceOrCopyPacket` and every
`setRxDescriptorPacket` of `handleRxInterrupt` succeeds.** -/
theorem rx_ownership_iff {es : List (Edge RxWorld RxLabel)} (h : Run (RxInit memory) (RxStep memory) es w) :
    (∀ e ∈ es, RxOwned memory e.pre ∧ RxOwned memory e.post) ↔ ∀ e ∈ es, RxSucceeds e.label := by
  refine h.forall_iff (I := fun w => ∃ held given, RxInv memory w held given) (C := fun _ l => RxSucceeds l)
    (Q := fun e => RxOwned memory e.pre ∧ RxOwned memory e.post) (fun _ h0 => rxInv_init h0) ?_ ?_
  · intro w l v hi hc hs
    obtain ⟨held, given, hi'⟩ := rxInv_step hi hc hs
    obtain ⟨_, _, hi⟩ := hi
    exact ⟨⟨held, given, hi'⟩, hi.owned, hi'.owned⟩
  · exact fun _ _ _ _ hc hs hq => rx_failure hc hs hq.2

end Inv

/-! ## Two runs -/

def bufferWorld : RxWorld := ⟨bufferRing, false, (List.finRange 256).filterMap fun i => some i.val, [], []⟩

theorem bufferWorld_init : RxInit buffer bufferWorld := by
  refine ⟨fun i => some i.val, fun i => some (buffer i.val), bufferRing, bufferRing, bufferRing_init _, ?_, ?_, rfl⟩
  · exact fun i j h => Fin.ext (Option.some.inj h)
  · intro i seg m hs hm
    rw [← Option.some.inj hs, ← Option.some.inj hm]

theorem bufferWorld_fresh : 256 ∉ bufferWorld.obtained := by
  intro h
  obtain ⟨i, _, hi⟩ := List.mem_filterMap.mp h
  have hv : i.val = 256 := Option.some.inj hi
  exact absurd hv i.isLt.ne

theorem rx_ownership_single : ∃ w : RxWorld, w.delivered = [(some 256, 64)] ∧ RxOwned buffer w := by
  have h0 : Run (RxInit buffer) (RxStep buffer) [] bufferWorld := .start bufferWorld_init
  have h2 := (h0.step (.arrive 0 64 rfl)).step (.interrupt rfl)
  have h3 := h2.step (.round ⟨.copied 256, some (buffer 0)⟩ rfl rfl ?_ ?_)
  · refine ⟨_, rfl, ((rx_ownership_iff h3).mpr ?_ _ (List.mem_append_right _ (List.mem_singleton_self _))).2⟩
    rw [forall_snoc, forall_snoc, forall_snoc]
    exact ⟨⟨⟨List.forall_mem_nil _, trivial⟩, trivial⟩, by simp [RxSucceeds]⟩
  · simpa [Replacement.obtained] using bufferWorld_fresh
  · intro seg m hs hm
    rw [← Option.some.inj hs, ← Option.some.inj hm]
    rfl

/-- **A frame that `replaceOrCopyPacket` cannot take.** -/
theorem rx_ownership_null : ∃ es w, Run (RxInit buffer) (RxStep buffer) es w ∧
    es.map Edge.label = [.arrive 0 64, .interrupt, .round ⟨.failed, some (buffer 0)⟩] ∧
    w.delivered = [(none, 64)] ∧ ¬ RxOwned buffer w := by
  have h0 : Run (RxInit buffer) (RxStep buffer) [] bufferWorld := .start bufferWorld_init
  have h2 := (h0.step (.arrive 0 64 rfl)).step (.interrupt rfl)
  have h3 := h2.step (.round ⟨.failed, some (buffer 0)⟩ rfl rfl (List.forall_mem_nil _) ?_)
  · refine ⟨_, _, h3, rfl, rfl, fun h => ?_⟩
    exact h.input (none, 64) (List.mem_singleton_self _) rfl
  · intro seg m hs hm
    rw [← Option.some.inj hs, ← Option.some.inj hm]
    rfl

end Osx360.Ethernet
