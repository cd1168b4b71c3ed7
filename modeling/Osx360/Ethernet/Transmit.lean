import Mathlib.Logic.Function.Basic
import Osx360.Lib.Ring
import Osx360.Ethernet.Regs

/-!
# Transmitting packets

`sendTxPacket` and `handleTxInterrupt` of `XenonEthernet_TransmitReceive.cpp`. Both are given by the list of memory
writes they make, in program order (`sendWrites`, `reclaimWrites`); a call that nothing interrupts applies the whole
list (`applyAll`), and a model of the controller may run between any two of them.

The end-of-ring statement of `sendTxPacket` is switched by the argument `endStmt`: `true` is the source as it stands.
-/

set_option autoImplicit false

namespace Osx360.Ethernet

open Osx360.Lib

/-- An mbuf, named by the number of its allocation. -/
abbrev Mbuf := ℕ

/-- A ring has a first descriptor. -/
instance ringNonempty : NeZero 256 := ⟨by decide⟩

/-- An index into a ring of 256 descriptors. -/
abbrev Index := Fin 256

/-! ## Index arithmetic -/

/-- `TX_COUNT_MASK`. -/
def txCountMask : Word := BitVec.ofNat 32 (txDescCount - 1)

/-- `TX_NEXT`. -/
def txNext (index : Index) : Index := index + 1

/-- `TX_USED`. -/
def txUsed (read write : Index) : ℕ := (write - read).val

/-- `TX_FREE`. -/
def txFree (read write : Index) : ℕ := txDescCount - txUsed read write - 1

/-- Masking keeps the residue modulo the ring size. -/
theorem toNat_and_txCountMask (x : Word) : (x &&& txCountMask).toNat = x.toNat % 256 := by
  rw [BitVec.toNat_and]
  exact Nat.and_two_pow_sub_one_eq_mod x.toNat 8

/-- `TX_NEXT` as the 32-bit expression of the source. -/
theorem txNext_word (i : Index) : (txNext i).val = ((BitVec.ofNat 32 i.val + 1) &&& txCountMask).toNat := by
  rw [toNat_and_txCountMask, txNext, Fin.val_add, BitVec.toNat_add, BitVec.toNat_ofNat]
  have h1 : (1 : Index).val = 1 := rfl
  have h2 : (1 : Word).toNat = 1 := rfl
  omega

/-- `TX_USED` as the 32-bit expression of the source. -/
theorem txUsed_word (r w : Index) :
    txUsed r w = ((BitVec.ofNat 32 w.val - BitVec.ofNat 32 r.val) &&& txCountMask).toNat := by
  rw [toNat_and_txCountMask, txUsed, Fin.val_sub, BitVec.toNat_sub, BitVec.toNat_ofNat, BitVec.toNat_ofNat]
  omega

theorem txNext_slot (k : ℕ) : txNext (slot 256 k) = slot 256 (k + 1) := slot_succ k

/-- `TX_FREE` in terms of counters. -/
theorem txFree_slot {r w : ℕ} (hr : r ≤ w) (hw : w < r + 256) :
    txFree (slot 256 r) (slot 256 w) = 255 - (w - r) := by
  rw [txFree, txUsed, slot_sub_val hr hw, txDescCount]
  omega

/-- A consumer that steps by one, and returns to 0 after the descriptor with the end-of-ring bit, goes round the ring
if the last descriptor is the one that carries it. -/
theorem consumer_next {last : Bool} {i : Index} (h : last = true ↔ i.val = 255) :
    (if last then 0 else i.val + 1) = (i + 1).val := by
  have h1 : (1 : Index).val = 1 := rfl
  rw [Fin.val_add, h1]
  cases last with
  | true =>
    have hi := h.mp rfl
    rw [if_pos rfl, hi]
  | false =>
    have hi : i.val ≠ 255 := fun h255 => absurd (h.mpr h255) (by decide)
    rw [if_neg (by decide)]
    omega

/-! ## The transmit ring -/

/-- `XenonEthernetTxDescState`. -/
structure TxDescState where
  packet : Option Mbuf
  segmentCount : ℕ

def TxDescState.empty : TxDescState := ⟨none, 0⟩

/-- The transmit half of the driver's state. -/
structure TxRing where
  txDesc : Index → Descriptor
  txDescStates : Index → TxDescState
  txReadIndex : Index
  txWriteIndex : Index

namespace TxRing

def modifyDesc (s : TxRing) (i : Index) (f : Descriptor → Descriptor) : TxRing :=
  { s with txDesc := Function.update s.txDesc i (f (s.txDesc i)) }

def modifyState (s : TxRing) (i : Index) (f : TxDescState → TxDescState) : TxRing :=
  { s with txDescStates := Function.update s.txDescStates i (f (s.txDescStates i)) }

end TxRing

/-- One memory write of the driver. -/
inductive TxWrite
  | packetLength (i : Index) (v : Word)
  | flags (i : Index) (v : Word)
  | orFlags (i : Index) (v : Word)
  | address (i : Index) (v : Word)
  | length (i : Index) (v : Word)
  /-- Through the pointer variable `desc`; `none` while it is not initialised. -/
  | orLength (desc : Option Index) (v : Word)
  | packet (i : Index) (p : Option Mbuf)
  | segmentCount (i : Index) (n : ℕ)
  | readIndex (i : Index)
  | writeIndex (i : Index)

namespace TxWrite

/-- The write made. A write through an uninitialised pointer is undefined: it is not a write to the ring. -/
def apply : TxWrite → TxRing → TxRing
  | packetLength i v, s => s.modifyDesc i fun d => { d with packetLength := v }
  | flags i v, s => s.modifyDesc i fun d => { d with flags := v }
  | orFlags i v, s => s.modifyDesc i fun d => { d with flags := d.flags ||| v }
  | address i v, s => s.modifyDesc i fun d => { d with address := v }
  | length i v, s => s.modifyDesc i fun d => { d with length := v }
  | orLength (some i) v, s => s.modifyDesc i fun d => { d with length := d.length ||| v }
  | orLength none _, s => s
  | packet i p, s => s.modifyState i fun d => { d with packet := p }
  | segmentCount i n, s => s.modifyState i fun d => { d with segmentCount := n }
  | readIndex i, s => { s with txReadIndex := i }
  | writeIndex i, s => { s with txWriteIndex := i }

/-- The descriptor that the write goes to: `none` for a write to no descriptor, `some none` for a write through an
uninitialised pointer. -/
def descriptor : TxWrite → Option (Option Index)
  | packetLength i _ | flags i _ | orFlags i _ | address i _ | length i _ => some (some i)
  | orLength d _ => some d
  | _ => none

end TxWrite

/-- The writes made one after another. -/
def applyAll (ws : List TxWrite) (s : TxRing) : TxRing := ws.foldl (fun s w => w.apply s) s

@[simp] theorem applyAll_nil (s : TxRing) : applyAll [] s = s := rfl

@[simp] theorem applyAll_cons (w : TxWrite) (ws : List TxWrite) (s : TxRing) :
    applyAll (w :: ws) s = applyAll ws (w.apply s) := rfl

theorem applyAll_append (ws vs : List TxWrite) (s : TxRing) :
    applyAll (ws ++ vs) s = applyAll vs (applyAll ws s) := List.foldl_append

/-! ## `sendTxPacket` -/

/-- What `getChecksumDemand` asks for. -/
structure ChecksumDemand where
  ip : Bool
  tcp : Bool
  udp : Bool

/-- The flags of the first descriptor, without ownership. -/
def txFlags (checksumReqs : ChecksumDemand) : Word :=
  txFlagsPad ||| txFlagsCrc ||| txFlagsDeferred
    ||| (if checksumReqs.ip then txFlagsIpChecksum else 0)
    ||| (if checksumReqs.tcp then txFlagsTcpChecksum else 0)
    ||| (if checksumReqs.udp then txFlagsUdpChecksum else 0)

/-- The loop that fills the descriptors after the first. -/
def fillWrites : Index → List Segment → List TxWrite
  | _, [] => []
  | index, seg :: segs =>
    [.packetLength (txNext index) 0, .flags (txNext index) txFlagsOwner, .address (txNext index) seg.location,
      .length (txNext index) seg.length] ++ fillWrites (txNext index) segs

/-- The variable `index` after the fill loop. -/
def lastIndex : Index → List Segment → Index
  | index, [] => index
  | index, _ :: segs => lastIndex (txNext index) segs

/-- The pointer variable `desc` after the fill loop, which alone assigns it. -/
def descPointer (index : Index) : List Segment → Option Index
  | [] => none
  | segs => some (lastIndex index segs)

/-- The variable `packetLength` after the fill loop. -/
def totalLength (seg : Segment) (segs : List Segment) : Word := segs.foldl (fun n s => n + s.length) seg.length

/-- The statement that sets the end-of-ring bit. -/
def endWrites (txWriteIndex : Index) (segs : List Segment) : List TxWrite :=
  if txWriteIndex.val = txDescCount - 1 then [.orLength (descPointer txWriteIndex segs) descLengthEnd] else []

/-- The writes that fill the descriptors and the state of a chain. -/
def chainWrites (txWriteIndex : Index) (p : Mbuf) (seg : Segment) (segs : List Segment) : List TxWrite :=
  [.flags txWriteIndex 0, .address txWriteIndex seg.location, .length txWriteIndex seg.length]
    ++ fillWrites txWriteIndex segs
    ++ [.packet txWriteIndex (some p), .segmentCount txWriteIndex (segs.length + 1),
      .packetLength txWriteIndex (totalLength seg segs)]

/-- The writes that publish the chain and hand it off. -/
def handoffWrites (txWriteIndex : Index) (segs : List Segment) (checksumReqs : ChecksumDemand) : List TxWrite :=
  [.writeIndex (txNext (lastIndex txWriteIndex segs)), .flags txWriteIndex (txFlags checksumReqs),
    .orFlags txWriteIndex (txFlagsOwner ||| txFlagsInterrupt)]

/-- The writes of an accepted packet. -/
def sendWrites (endStmt : Bool) (txWriteIndex : Index) (p : Mbuf) (seg : Segment) (segs : List Segment)
    (checksumReqs : ChecksumDemand) : List TxWrite :=
  chainWrites txWriteIndex p seg segs
    ++ (if endStmt then endWrites txWriteIndex segs else [])
    ++ handoffWrites txWriteIndex segs checksumReqs

/-- `kIOReturnOutputSuccess`, `kIOReturnOutputDropped`, `kIOReturnOutputStall`. -/
inductive OutputResult
  | success
  | dropped
  | stall
  deriving DecidableEq

/-- The answer of `sendTxPacket`, the packets it frees and the writes it makes. `segments` is what the memory cursor
returns for the packet. -/
def sendTxPacket (endStmt : Bool) (s : TxRing) (p : Mbuf) (segments : List Segment) (checksumReqs : ChecksumDemand) :
    OutputResult × List Mbuf × List TxWrite :=
  if txFree s.txReadIndex s.txWriteIndex < txMaxSegCount then (.stall, [], [])
  else match segments with
    | [] => (.dropped, [p], [])
    | seg :: segs => (.success, [], sendWrites endStmt s.txWriteIndex p seg segs checksumReqs)

/-! ## `handleTxInterrupt` -/

/-- The loop goes on: the ring is not empty and the first descriptor of the oldest chain is not owned. -/
def txReady (s : TxRing) : Bool := s.txReadIndex != s.txWriteIndex && !(s.txDesc s.txReadIndex).owned

/-- The loop that clears the descriptors of a chain. -/
def clearWrites : Index → ℕ → List TxWrite
  | _, 0 => []
  | index, n + 1 => [.flags index 0, .readIndex (txNext index)] ++ clearWrites (txNext index) n

/-- The packet freed by one round of the loop. -/
def reclaimFreed (s : TxRing) : List Mbuf := (s.txDescStates s.txReadIndex).packet.toList

/-- The writes of one round of the loop. -/
def reclaimWrites (s : TxRing) : List TxWrite :=
  (match (s.txDescStates s.txReadIndex).packet with
    | some _ => [.packet s.txReadIndex none]
    | none => [])
    ++ [.segmentCount s.txReadIndex 0]
    ++ clearWrites s.txReadIndex (s.txDescStates s.txReadIndex).segmentCount

/-- One round of the loop. -/
def reclaim (s : TxRing) : TxRing := applyAll (reclaimWrites s) s

/-- The loop with a bound on its rounds: the packets it frees and the ring it leaves. -/
def handleTxLoop : ℕ → TxRing → Option (List Mbuf × TxRing)
  | 0, _ => none
  | fuel + 1, s =>
    if txReady s then (handleTxLoop fuel (reclaim s)).map fun r => (reclaimFreed s ++ r.1, r.2)
    else some ([], s)

/-- A chain has at least one descriptor, so at most 255 rounds free a packet. -/
def handleTxInterrupt (s : TxRing) : Option (List Mbuf × TxRing) := handleTxLoop txDescCount s

end Osx360.Ethernet
