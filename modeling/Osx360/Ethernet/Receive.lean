import Mathlib.Data.List.FinRange
import Osx360.Ethernet.Transmit

/-!
# Receiving packets

`setRxDescriptorPacket`, the receive half of `initTransmitReceiveBuffers` and `handleRxInterrupt`. A round of
`handleRxInterrupt` is the list of what it does in program order (`rxRound`), given what `replaceOrCopyPacket` and the
memory cursor answer in it (`RxOutcome`).
-/

set_option autoImplicit false

namespace Osx360.Ethernet

open Osx360.Lib

/-! ## The receive ring -/

/-- `RX_NEXT`. -/
def rxNext (index : Index) : Index := index + 1

theorem rxNext_slot (k : ℕ) : rxNext (slot 256 k) = slot 256 (k + 1) := slot_succ k

/-- The receive half of the driver's state. -/
structure RxRing where
  rxDesc : Index → Descriptor
  rxPackets : Index → Option Mbuf
  rxIndex : Index

def RxRing.modifyDesc (s : RxRing) (i : Index) (f : Descriptor → Descriptor) : RxRing :=
  { s with rxDesc := Function.update s.rxDesc i (f (s.rxDesc i)) }

/-- What the driver does in a round: writes to memory, and the calls of `freePacket` and `inputPacket`. -/
inductive RxAction
  | packet (i : Index) (p : Option Mbuf)
  | address (i : Index) (v : Word)
  | length (i : Index) (v : Word)
  | orLength (i : Index) (v : Word)
  | flags (i : Index) (v : Word)
  | free (p : Option Mbuf)
  | input (p : Option Mbuf) (packetLength : BitVec 16)
  | rxIndex (i : Index)

namespace RxAction

def apply : RxAction → RxRing → RxRing
  | packet i p, s => { s with rxPackets := Function.update s.rxPackets i p }
  | address i v, s => s.modifyDesc i fun d => { d with address := v }
  | length i v, s => s.modifyDesc i fun d => { d with length := v }
  | orLength i v, s => s.modifyDesc i fun d => { d with length := d.length ||| v }
  | flags i v, s => s.modifyDesc i fun d => { d with flags := v }
  | free _, s => s
  | input _ _, s => s
  | rxIndex i, s => { s with rxIndex := i }

def freed : RxAction → List Mbuf
  | free p => p.toList
  | _ => []

def delivered : RxAction → List (Option Mbuf × BitVec 16)
  | input p packetLength => [(p, packetLength)]
  | _ => []

end RxAction

/-- What was done in order. -/
def applyRx (as : List RxAction) (s : RxRing) : RxRing := as.foldl (fun s a => a.apply s) s

@[simp] theorem applyRx_nil (s : RxRing) : applyRx [] s = s := rfl

@[simp] theorem applyRx_cons (a : RxAction) (as : List RxAction) (s : RxRing) :
    applyRx (a :: as) s = applyRx as (a.apply s) := rfl

theorem applyRx_append (as bs : List RxAction) (s : RxRing) : applyRx (as ++ bs) s = applyRx bs (applyRx as s) :=
  List.foldl_append

/-! ## `setRxDescriptorPacket` -/

/-- Its answer and its writes; `segment` is what the memory cursor returns for the packet, if it returns one. -/
def setRxDescriptorPacket (i : Index) (segment : Option Segment) : Bool × List RxAction :=
  match segment with
  | some seg => (true, [.address i seg.location, .length i seg.length])
  | none => (false, [])

/-! ## `initTransmitReceiveBuffers` -/

/-- The receive loop, given what `allocatePacket` and the memory cursor answer for each descriptor. -/
def initRxLoop (alloc : Index → Option Mbuf) (segment : Index → Option Segment) : List Index → RxRing → Bool × RxRing
  | [], s => (true, s)
  | i :: is, s =>
    let s := { s with rxPackets := Function.update s.rxPackets i (alloc i) }
    if (alloc i).isNone then (false, s)
    else
      let s := (RxAction.flags i (rxFlagsInterrupt ||| rxFlagsOwner)).apply s
      match setRxDescriptorPacket i (segment i) with
      | (true, writes) => initRxLoop alloc segment is (applyRx writes s)
      | (false, writes) => (false, applyRx writes s)

/-- The receive part of `initTransmitReceiveBuffers`; the packets of the slots not reached stay. -/
def initRxRing (alloc : Index → Option Mbuf) (segment : Index → Option Segment) (s : RxRing) : Bool × RxRing :=
  match initRxLoop alloc segment (List.finRange 256) { s with rxDesc := fun _ => .zero, rxIndex := 0 } with
  | (true, s) => (true, (RxAction.orLength 255 descLengthEnd).apply s)
  | (false, s) => (false, s)

/-! ## `handleRxInterrupt` -/

/-- What `replaceOrCopyPacket` does: it returns a copy and leaves the packet in place, returns the packet and supplies
a fresh one, or returns nothing. -/
inductive Replacement
  | copied (m : Mbuf)
  | replaced (m : Mbuf)
  | failed

namespace Replacement

/-- The variables `packetReceived`, `packet` and `replaced` after the call. -/
def result (packet : Option Mbuf) : Replacement → Option Mbuf × Option Mbuf × Bool
  | copied m => (some m, packet, false)
  | replaced m => (packet, some m, true)
  | failed => (none, packet, false)

/-- The mbufs that the call allocated. -/
def obtained : Replacement → List Mbuf
  | copied m => [m]
  | replaced m => [m]
  | failed => []

end Replacement

/-- What the calls of one round answer. -/
structure RxOutcome where
  replacement : Replacement
  segment : Option Segment

/-- The loop goes on: the next descriptor is not owned by the hardware. -/
def rxReady (s : RxRing) : Bool := !(s.rxDesc s.rxIndex).owned

/-- The variable `packetLength` for the value of the status word. -/
def rxPacketLength (status : Word) : BitVec 16 := (status &&& rxLengthMask).setWidth 16

/-- The mask takes the low 16 bits. -/
theorem rxPacketLength_eq (status : Word) : rxPacketLength status = status.setWidth 16 := by
  apply BitVec.eq_of_getLsbD_eq
  intro i hi
  have hmask : rxLengthMask.getLsbD i = true := by
    have hall : ∀ j : Fin 16, rxLengthMask.getLsbD j = true := by decide
    exact hall ⟨i, hi⟩
  simp [rxPacketLength, hi, hmask]

/-- One round of the loop. -/
def rxRound (s : RxRing) (o : RxOutcome) : List RxAction :=
  let i := s.rxIndex
  let packetLength := rxPacketLength (s.rxDesc i).packetLength
  -- a NULL from `replaceOrCopyPacket` is logged and not looked at again
  match o.replacement.result (s.rxPackets i), setRxDescriptorPacket i o.segment with
  | (packetReceived, packet, replaced), (success, writes) =>
    (if replaced then [.packet i packet] else [])
      ++ writes
      ++ (if success then [] else [.free packet])
      ++ (if i.val = rxDescCount - 1 then [.orLength i descLengthEnd] else [])
      ++ [.flags i (txFlagsInterrupt ||| txFlagsOwner),
        .input (if success then packetReceived else none) packetLength, .rxIndex (rxNext i)]

/-! ## Effect of a round -/

/-- The packet in the slot after a round. -/
def RxOutcome.packet (o : RxOutcome) (s : RxRing) : Option Mbuf := (o.replacement.result (s.rxPackets s.rxIndex)).2.1

/-- The packet handed to the interface in a round. -/
def RxOutcome.input (o : RxOutcome) (s : RxRing) : Option Mbuf :=
  if o.segment.isSome then (o.replacement.result (s.rxPackets s.rxIndex)).1 else none

/-- The part of a round that depends on its outcome. -/
def rxPrepare (s : RxRing) (o : RxOutcome) : List RxAction :=
  (if (o.replacement.result (s.rxPackets s.rxIndex)).2.2 then [.packet s.rxIndex (o.packet s)] else [])
    ++ (match o.segment with
      | some seg => [.address s.rxIndex seg.location, .length s.rxIndex seg.length]
      | none => [.free (o.packet s)])
    ++ (if s.rxIndex.val = rxDescCount - 1 then [.orLength s.rxIndex descLengthEnd] else [])

/-- A round prepares the descriptor, hands it back, hands on the packet and moves on. -/
theorem rxRound_eq (s : RxRing) (o : RxOutcome) : rxRound s o = rxPrepare s o ++
    [.flags s.rxIndex (txFlagsInterrupt ||| txFlagsOwner),
      .input (o.input s) (rxPacketLength (s.rxDesc s.rxIndex).packetLength), .rxIndex (rxNext s.rxIndex)] := by
  obtain ⟨r, seg⟩ := o
  cases seg <;> simp [rxRound, rxPrepare, setRxDescriptorPacket, RxOutcome.packet, RxOutcome.input]

/-- A descriptor after `setRxDescriptorPacket`. -/
def rxMapped (d : Descriptor) : Option Segment → Descriptor
  | some seg => { d with address := seg.location, length := seg.length }
  | none => d

/-- A descriptor that a round has prepared, without the flags. -/
def rxPrepared (d : Descriptor) (i : Index) (segment : Option Segment) : Descriptor :=
  { rxMapped d segment with
    length := if i.val = rxDescCount - 1 then (rxMapped d segment).length ||| descLengthEnd
      else (rxMapped d segment).length }

theorem applyRx_prepare (s : RxRing) (o : RxOutcome) :
    applyRx (rxPrepare s o) s =
      { s with
        rxDesc := Function.update s.rxDesc s.rxIndex (rxPrepared (s.rxDesc s.rxIndex) s.rxIndex o.segment)
        rxPackets := Function.update s.rxPackets s.rxIndex (o.packet s) } := by
  have hpacket : applyRx (if (o.replacement.result (s.rxPackets s.rxIndex)).2.2 then
      [.packet s.rxIndex (o.packet s)] else []) s =
        { s with rxPackets := Function.update s.rxPackets s.rxIndex (o.packet s) } := by
    obtain ⟨r, _⟩ := o
    cases r <;> simp [Replacement.result, RxOutcome.packet, RxAction.apply, Function.update_eq_self]
  unfold rxPrepare
  rw [applyRx_append, applyRx_append, hpacket]
  by_cases hi : s.rxIndex.val = rxDescCount - 1
  · cases o.segment <;> simp [hi, RxAction.apply, RxRing.modifyDesc, rxPrepared, rxMapped]
  · cases o.segment <;> simp [hi, RxAction.apply, RxRing.modifyDesc, rxPrepared, rxMapped, Function.update_eq_self]

theorem applyRx_round (s : RxRing) (o : RxOutcome) :
    applyRx (rxRound s o) s =
      { rxDesc := Function.update s.rxDesc s.rxIndex
          { rxPrepared (s.rxDesc s.rxIndex) s.rxIndex o.segment with flags := txFlagsInterrupt ||| txFlagsOwner }
        rxPackets := Function.update s.rxPackets s.rxIndex (o.packet s)
        rxIndex := rxNext s.rxIndex } := by
  rw [rxRound_eq, applyRx_append, applyRx_prepare s o]
  simp [RxAction.apply, RxRing.modifyDesc]

/-- The end-of-ring bit is set on a descriptor prepared for a segment iff it is the last one. -/
theorem hasEnd_rxPrepared_some (d : Descriptor) (i : Index) (seg : Segment) :
    (rxPrepared d i (some seg)).hasEnd = true ↔ i.val = rxDescCount - 1 := by
  have hlen := seg.length_has
  unfold descLengthEnd at hlen
  by_cases h : i.val = rxDescCount - 1
  · simp [Descriptor.hasEnd, rxPrepared, rxMapped, h, descLengthEnd, has_or, has_bit_bit]
  · simp [Descriptor.hasEnd, rxPrepared, rxMapped, h, descLengthEnd, hlen]

/-- A round keeps the end-of-ring bit where it belongs, whatever its calls answer. -/
theorem hasEnd_rxPrepared {d : Descriptor} {i : Index} (h : d.hasEnd = true ↔ i.val = rxDescCount - 1) :
    ∀ segment : Option Segment, (rxPrepared d i segment).hasEnd = true ↔ i.val = rxDescCount - 1
  | some seg => hasEnd_rxPrepared_some d i seg
  | none => by
    unfold Descriptor.hasEnd descLengthEnd at h
    by_cases hi : i.val = rxDescCount - 1
    · simp [Descriptor.hasEnd, rxPrepared, rxMapped, hi, descLengthEnd, has_or, has_bit_bit]
    · simpa [Descriptor.hasEnd, rxPrepared, rxMapped, hi, descLengthEnd] using h

theorem owned_handBack (d : Descriptor) : ({ d with flags := txFlagsInterrupt ||| txFlagsOwner }).owned = true := by
  simp [Descriptor.owned, txFlagsInterrupt, txFlagsOwner, has_or, has_bit_bit]

/-- The flags of a descriptor that the hardware gives back. -/
theorem has_givenBack (flags : Word) : has (flags &&& ~~~rxFlagsOwner) txFlagsOwner = false :=
  has_acked (by decide) (by decide)

/-- Preparing hands on no packet, and frees none where the packet is mapped. -/
theorem prepare_calls (s : RxRing) (o : RxOutcome) : (rxPrepare s o).flatMap RxAction.delivered = [] ∧
    (o.segment.isSome → (rxPrepare s o).flatMap RxAction.freed = []) := by
  obtain ⟨r, seg⟩ := o
  unfold rxPrepare
  cases seg <;> split_ifs <;> simp [RxAction.delivered, RxAction.freed]

theorem delivered_round (s : RxRing) (o : RxOutcome) :
    (rxRound s o).flatMap RxAction.delivered = [(o.input s, rxPacketLength (s.rxDesc s.rxIndex).packetLength)] := by
  rw [rxRound_eq, List.flatMap_append, (prepare_calls s o).1]
  rfl

theorem freed_round (s : RxRing) {o : RxOutcome} (h : o.segment.isSome) :
    (rxRound s o).flatMap RxAction.freed = [] := by
  rw [rxRound_eq, List.flatMap_append, (prepare_calls s o).2 h]
  rfl

/-! ## A successful initialisation -/

/-- The descriptor of a slot after a successful initialisation. -/
def rxInitial (i : Index) (seg : Segment) : Descriptor :=
  { rxPrepared .zero i (some seg) with flags := rxFlagsInterrupt ||| rxFlagsOwner }

theorem owned_rxInitial (i : Index) (seg : Segment) : (rxInitial i seg).owned = true :=
  owned_handBack (rxPrepared .zero i (some seg))

theorem hasEnd_rxInitial (i : Index) (seg : Segment) : (rxInitial i seg).hasEnd = true ↔ i.val = rxDescCount - 1 :=
  hasEnd_rxPrepared_some .zero i seg

section Init

variable {alloc : Index → Option Mbuf} {segment : Index → Option Segment}

/-- The loop sets up the slots it is given and leaves the others. -/
theorem initRxLoop_spec {is : List Index} {s t : RxRing} (hnd : is.Nodup)
    (h : initRxLoop alloc segment is s = (true, t)) :
    t.rxIndex = s.rxIndex ∧ (∀ i ∉ is, t.rxPackets i = s.rxPackets i ∧ t.rxDesc i = s.rxDesc i) ∧
      ∀ i ∈ is, ∃ m seg, alloc i = some m ∧ segment i = some seg ∧ t.rxPackets i = some m ∧ t.rxDesc i =
        { s.rxDesc i with
          flags := rxFlagsInterrupt ||| rxFlagsOwner, address := seg.location, length := seg.length } := by
  induction is generalizing s with
  | nil =>
    simp only [initRxLoop, Prod.mk.injEq, true_and] at h
    subst h
    exact ⟨rfl, fun _ _ => ⟨rfl, rfl⟩, List.forall_mem_nil _⟩
  | cons i is ih =>
    obtain ⟨hi, hnd⟩ := List.nodup_cons.mp hnd
    rw [initRxLoop] at h
    cases hm : alloc i with
    | none => simp [hm] at h
    | some m =>
      cases hs : segment i with
      | none => simp [hm, hs, setRxDescriptorPacket] at h
      | some seg =>
        simp only [hm, hs, setRxDescriptorPacket, Option.isNone_some, Bool.false_eq_true, if_false] at h
        obtain ⟨hidx, hout, hin⟩ := ih hnd h
        refine ⟨hidx, fun j hj => ?_, fun j hj => ?_⟩
        · obtain ⟨hne, hj⟩ := List.ne_and_not_mem_of_not_mem_cons hj
          rw [(hout j hj).1, (hout j hj).2]
          simp [RxAction.apply, RxRing.modifyDesc, Function.update_of_ne hne]
        · by_cases he : j = i
          · subst he
            refine ⟨m, seg, hm, hs, ?_, ?_⟩
            · rw [(hout j hi).1]
              simp [RxAction.apply, RxRing.modifyDesc]
            · rw [(hout j hi).2]
              simp [RxAction.apply, RxRing.modifyDesc]
          · have hmem := (List.mem_cons.mp hj).resolve_left he
            obtain ⟨m', seg', h1, h2, h3, h4⟩ := hin j hmem
            refine ⟨m', seg', h1, h2, h3, ?_⟩
            rw [h4]
            simp [RxAction.apply, RxRing.modifyDesc, Function.update_of_ne he]

theorem initRxRing_spec {s t : RxRing} (h : initRxRing alloc segment s = (true, t)) : t.rxIndex = 0 ∧
    ∀ i, ∃ m seg, alloc i = some m ∧ segment i = some seg ∧ t.rxPackets i = some m ∧ t.rxDesc i = rxInitial i seg := by
  unfold initRxRing at h
  split at h
  · rename_i u hu
    obtain ⟨hidx, _, hin⟩ := initRxLoop_spec (List.nodup_finRange 256) hu
    simp only [Prod.mk.injEq, true_and] at h
    subst h
    refine ⟨hidx, fun i => ?_⟩
    obtain ⟨m, seg, h1, h2, h3, h4⟩ := hin i (List.mem_finRange i)
    refine ⟨m, seg, h1, h2, h3, ?_⟩
    by_cases hi : i = 255
    · subst hi
      simp [RxAction.apply, RxRing.modifyDesc, h4, rxInitial, rxPrepared, rxMapped, rxDescCount]
    · have hv : i.val ≠ 255 := fun hv => hi (Fin.ext hv)
      simp [RxAction.apply, RxRing.modifyDesc, Function.update_of_ne hi, h4, rxInitial, rxPrepared, rxMapped,
        rxDescCount, hv]
  · simp at h

/-- After a successful initialisation the hardware owns the ring. -/
theorem initRxRing_owned {s t : RxRing} (h : initRxRing alloc segment s = (true, t)) (i : Index) :
    (t.rxDesc i).owned = true := by
  obtain ⟨_, hslots⟩ := initRxRing_spec h
  obtain ⟨_, seg, _, _, _, hdesc⟩ := hslots i
  rw [hdesc]
  exact owned_rxInitial i seg

theorem initRxRing_hasEnd {s t : RxRing} (h : initRxRing alloc segment s = (true, t)) (i : Index) :
    (t.rxDesc i).hasEnd = true ↔ i.val = rxDescCount - 1 := by
  obtain ⟨_, hslots⟩ := initRxRing_spec h
  obtain ⟨_, seg, _, _, _, hdesc⟩ := hslots i
  rw [hdesc]
  exact hasEnd_rxInitial i seg

theorem not_rxReady_of_owned {s : RxRing} (h : (s.rxDesc s.rxIndex).owned = true) : rxReady s = false := by
  unfold rxReady
  rw [h]
  rfl

/-- The loop succeeds if every call does. -/
theorem initRxLoop_ok (halloc : ∀ i, (alloc i).isSome) (hsegment : ∀ i, (segment i).isSome) (is : List Index)
    (s : RxRing) : ∃ t, initRxLoop alloc segment is s = (true, t) := by
  induction is generalizing s with
  | nil => exact ⟨s, rfl⟩
  | cons i is ih =>
    obtain ⟨m, hm⟩ := Option.isSome_iff_exists.mp (halloc i)
    obtain ⟨seg, hs⟩ := Option.isSome_iff_exists.mp (hsegment i)
    obtain ⟨t, ht⟩ := ih (applyRx [.address i seg.location, .length i seg.length]
      ((RxAction.flags i (rxFlagsInterrupt ||| rxFlagsOwner)).apply
        { s with rxPackets := Function.update s.rxPackets i (alloc i) }))
    refine ⟨t, ?_⟩
    rw [initRxLoop]
    simpa [hm, hs, setRxDescriptorPacket] using ht

theorem initRxRing_ok (halloc : ∀ i, (alloc i).isSome) (hsegment : ∀ i, (segment i).isSome) (s : RxRing) :
    ∃ t, initRxRing alloc segment s = (true, t) := by
  obtain ⟨t, ht⟩ := initRxLoop_ok halloc hsegment (List.finRange 256) { s with rxDesc := fun _ => .zero, rxIndex := 0 }
  refine ⟨(RxAction.orLength 255 descLengthEnd).apply t, ?_⟩
  unfold initRxRing
  rw [ht]

end Init

/-! ## A ring with one buffer for each mbuf -/

/-- The buffer of an mbuf. -/
def buffer (m : Mbuf) : Segment := ⟨BitVec.ofNat 32 (2048 * m), 1528, by decide⟩

/-- The slots hold the mbufs 0 to 255. -/
def bufferRing : RxRing := ⟨fun i => rxInitial i (buffer i.val), fun i => some i.val, 0⟩

theorem bufferRing_init (s : RxRing) :
    initRxRing (fun i => some i.val) (fun i => some (buffer i.val)) s = (true, bufferRing) := by
  have halloc : ∀ i : Index, (some i.val : Option Mbuf).isSome := fun _ => rfl
  have hsegment : ∀ i : Index, (some (buffer i.val)).isSome := fun _ => rfl
  obtain ⟨t, ht⟩ := initRxRing_ok halloc hsegment s
  obtain ⟨hidx, hslots⟩ := initRxRing_spec ht
  have he : t = bufferRing := by
    obtain ⟨desc, packets, index⟩ := t
    rw [bufferRing, RxRing.mk.injEq]
    refine ⟨?_, ?_, hidx⟩
    · funext i
      obtain ⟨_, seg, _, hseg, _, hdesc⟩ := hslots i
      rw [← Option.some.inj hseg] at hdesc
      exact hdesc
    · funext i
      obtain ⟨m, _, hm, _, hpacket, _⟩ := hslots i
      rw [← Option.some.inj hm] at hpacket
      exact hpacket
  rw [ht, he]

end Osx360.Ethernet
