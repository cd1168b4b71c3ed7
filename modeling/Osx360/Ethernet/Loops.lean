import Mathlib.Logic.Relation
import Osx360.Ethernet.ReceiveOwnership
import Osx360.Ethernet.TransmitOwnership

/-!
# The interrupt loops terminate

Neither `handleTxInterrupt` nor `handleRxInterrupt` counts its rounds. While the controller makes no step the first
stops because every outstanding chain has at least one descriptor and none reaches past `txWriteIndex`
(`Tiled.handleLoop`), the second because every round gives its descriptor back (`RxHandled.handleLoop`).

The rings are those of any run (`Rings`): the driver makes its writes one at a time, and between any two of them the
controller may rewrite any descriptor that it owns, in any order. What remains for the driver to write is kept as a
list; the controller does not change what the state array and the packets become once it is written
(`ringsInv_step`), so in every state reached both loops do what they should (`interrupt_loops`). The loops are what the
driver's steps make of the rings when the controller makes none (`calls_path`).
-/

set_option autoImplicit false

namespace Osx360.Ethernet

open Osx360.Lib Relation

/-! ## The transmit loop -/

/-- The chain is in the state array at the counter, and its first descriptor is owned by the controller, or is not. -/
def ChainAt (s : TxRing) (b : Bool) (k : ℕ) (c : Chain) : Prop := HoldsState s k c ∧ HeadOwned s b k c

/-- A call of `handleTxInterrupt` on the ring `s`, whose oldest chain starts at counter `r`: it releases the chains
`done`, of which the controller owns none, and leaves the chains `rest`, of which it owns the first. -/
structure TxHandled (s : TxRing) (r : ℕ) (done rest : List Chain) (t : TxRing) : Prop where
  completed : Layout Chain.count (ChainAt s false) r done
  maximal : ∀ c ∈ rest.head?, ChainAt s true (r + span Chain.count done) c
  readIndex : t.txReadIndex = slot 256 (r + span Chain.count done)
  atEnd : rest = [] → t.txReadIndex = s.txWriteIndex
  writeIndex : t.txWriteIndex = s.txWriteIndex
  cleared : ∀ i < span Chain.count done,
    t.txDesc (slot 256 (r + i)) = { s.txDesc (slot 256 (r + i)) with flags := 0 }
  kept : ∀ i, span Chain.count done ≤ i → i < 256 → t.txDesc (slot 256 (r + i)) = s.txDesc (slot 256 (r + i))

section Transmit

variable {s t : TxRing} {cs done rest : List Chain} {c : Chain} {r a b k : ℕ} {o : Bool}

theorem AgreeOn.chainAt (h : AgreeOn s t a b) (ha : a ≤ k) (hb : k + c.count ≤ b) (hc : 1 ≤ c.count)
    (hat : ChainAt s o k c) : ChainAt t o k c := by
  refine ⟨h.holdsState ha hb hc hat.1, ?_⟩
  unfold HeadOwned
  rw [(h k ha (by omega)).1]
  exact hat.2

/-- The loop stops before its first round. -/
theorem Tiled.handled_stop (h : Tiled s cs r) (hstop : txReady s = false) : TxHandled s r [] cs s := by
  refine ⟨trivial, fun c hc => ?_, h.read, ?_, rfl, fun i hi => absurd hi (Nat.not_lt_zero i), fun _ _ _ => rfl⟩
  · cases cs with
    | nil => cases hc
    | cons d ds =>
      obtain rfl : d = c := Option.some.inj hc
      rw [h.ready_cons, Bool.not_eq_false'] at hstop
      exact ⟨h.holds.1, hstop⟩
  · rintro rfl
    rw [h.read, h.write]
    rfl

/-- One round and then the others. -/
theorem TxHandled.cons (h : Tiled s (c :: (done ++ rest)) r) (hready : txReady s = true)
    (ht : TxHandled (reclaim s) (r + c.count) done rest t) : TxHandled s r (c :: done) rest t := by
  have hu := h.used
  rw [span_cons, span_append] at hu
  have hpos := fun d hd => (h.counts d hd).1
  have hc := hpos c List.mem_cons_self
  obtain ⟨_, heq⟩ := reclaim_eq h.read h.holds.1
  obtain ⟨hag, _⟩ := reclaim_slots h.read h.holds.1 hc (by omega)
  rw [h.ready_cons, Bool.not_eq_true'] at hready
  have hwrite : (reclaim s).txWriteIndex = s.txWriteIndex := by rw [heq]
  refine ⟨⟨⟨h.holds.1, hready⟩, ?_⟩, fun d hd => ?_, ?_, fun he => ?_, ht.writeIndex.trans hwrite, fun i hi => ?_,
    fun i h1 h2 => ?_⟩
  · refine ht.completed.mono fun j d hd h1 h2 hat => ?_
    exact hag.symm.chainAt h1 (by omega) (hpos d (by simp [hd])) hat
  · obtain ⟨ds, rfl⟩ : ∃ ds, rest = d :: ds := by
      cases rest with
      | nil => cases hd
      | cons e es => exact ⟨es, by rw [Option.some.inj hd]⟩
    rw [span_cons] at hu
    rw [span_cons, ← Nat.add_assoc]
    exact hag.symm.chainAt (by omega) (by omega) (hpos d (by simp)) (ht.maximal d hd)
  · rw [ht.readIndex, span_cons, Nat.add_assoc]
  · rw [ht.atEnd he, hwrite]
  · rw [span_cons] at hi
    rcases Nat.lt_or_ge i c.count with hlt | hge
    · -- a slot of the first chain: the later rounds, a turn of the ring ahead, leave it alone
      have hkept := ht.kept (i + 256 - c.count) (by omega) (by omega)
      rw [show r + c.count + (i + 256 - c.count) = r + i + 256 by omega, slot_add_self] at hkept
      rw [hkept, heq]
      exact clearDesc_get (by omega) hlt
    · have hcl := ht.cleared (i - c.count) (by omega)
      rw [show r + c.count + (i - c.count) = r + i by omega] at hcl
      rw [hcl, (hag (r + i) (by omega) (by omega)).1]
  · rw [span_cons] at h1
    have hkept := ht.kept (i - c.count) (by omega) (by omega)
    rw [show r + c.count + (i - c.count) = r + i by omega] at hkept
    rw [hkept, (hag (r + i) (by omega) (by omega)).1]

/-- The loop stops. -/
theorem Tiled.handleLoop {fuel : ℕ} {s : TxRing} {cs : List Chain} {r : ℕ} (h : Tiled s cs r)
    (hf : cs.length < fuel) : ∃ done rest t, cs = done ++ rest ∧
      handleTxLoop fuel s = some (done.map Chain.packet, t) ∧ TxHandled s r done rest t := by
  induction fuel generalizing s cs r with
  | zero => omega
  | succ fuel ih =>
    rw [handleTxLoop]
    cases hready : txReady s with
    | false => exact ⟨[], cs, s, rfl, rfl, h.handled_stop hready⟩
    | true =>
      cases cs with
      | nil => rw [h.ready_nil] at hready; cases hready
      | cons c cs =>
        rw [List.length_cons] at hf
        obtain ⟨done, rest, t, rfl, hloop, ht⟩ := ih h.reclaim (by omega)
        refine ⟨c :: done, rest, t, rfl, ?_, ht.cons h hready⟩
        rw [if_pos rfl, hloop, (reclaim_eq h.read h.holds.1).1]
        rfl

/-- Every call of `handleTxInterrupt` ends within the rounds of its bound. -/
theorem Tiled.handle (h : Tiled s cs r) : ∃ done rest t, cs = done ++ rest ∧
    handleTxInterrupt s = some (done.map Chain.packet, t) ∧ TxHandled s r done rest t := by
  refine h.handleLoop ?_
  have h1 := length_le_span fun c hc => (h.counts c hc).1
  have h2 := h.used
  unfold txDescCount
  omega

/-- Whole turns of the ring change no tiling. -/
theorem Tiled.turn {m : ℕ} (h : Tiled s cs (k + 256 * m)) : Tiled s cs k := by
  have hslot : ∀ j, slot 256 (k + 256 * m + j) = slot 256 (k + j) := fun j => by
    rw [Nat.add_right_comm, slot_add_mul]
  refine ⟨h.read.trans (slot_add_mul k m), h.write.trans (hslot _), h.used, h.counts, ?_, fun j h1 h2 => ?_⟩
  · refine h.holds.shift fun j c hj => ⟨by rw [← hj.1, slot_add_mul], fun i hi1 hi2 => ?_⟩
    have hi := hj.2 i hi1 hi2
    rwa [Nat.add_right_comm, slot_add_mul] at hi
  · have hj := h.free (j + 256 * m) (by omega) (by omega)
    rwa [slot_add_mul] at hj

/-- The tiling, counted from the value of the read index. -/
theorem Tiled.from_index (h : Tiled s cs r) : Tiled s cs s.txReadIndex.val := by
  rw [h.read, slot_val]
  refine Tiled.turn (m := r / 256) ?_
  rwa [Nat.mod_add_div]

end Transmit

/-! ## The receive loop -/

/-- The loop with a bound on its rounds, from round `j` on; `o j` is what the calls of round `j` answer. -/
def handleRxLoop (o : ℕ → RxOutcome) : ℕ → ℕ → RxRing → Option (List RxAction × RxRing)
  | 0, _, _ => none
  | fuel + 1, j, s =>
    if rxReady s then
      (handleRxLoop o fuel (j + 1) (applyRx (rxRound s (o j)) s)).map fun r => (rxRound s (o j) ++ r.1, r.2)
    else some ([], s)

/-- A full ring takes 256 rounds, and one more look. -/
def handleRxInterrupt (o : ℕ → RxOutcome) (s : RxRing) : Option (List RxAction × RxRing) :=
  handleRxLoop o (rxDescCount + 1) 0 s

/-- The index of round `j`. -/
def rxSlot (s : RxRing) (j : ℕ) : Index := slot 256 (s.rxIndex.val + j)

/-- What round `j` hands to the interface: a packet and its length. -/
def rxInput (s : RxRing) (o : ℕ → RxOutcome) (j : ℕ) : Option Mbuf × BitVec 16 :=
  ((o j).input { s with rxIndex := rxSlot s j }, rxPacketLength (s.rxDesc (rxSlot s j)).packetLength)

/-- After `n` rounds on the ring `s`: the descriptors of the rounds were the driver's and have been handled and given
back, the others are as they were. -/
structure RxHandled (s : RxRing) (o : ℕ → RxOutcome) (n : ℕ) (acts : List RxAction) (t : RxRing) : Prop where
  count : n ≤ 256
  index : t.rxIndex = rxSlot s n
  ours : ∀ j < n, (s.rxDesc (rxSlot s j)).owned = false
  handled : ∀ j < n, t.rxDesc (rxSlot s j) =
      { rxPrepared (s.rxDesc (rxSlot s j)) (rxSlot s j) (o j).segment with
        flags := txFlagsInterrupt ||| txFlagsOwner } ∧
    t.rxPackets (rxSlot s j) = (o j).packet { s with rxIndex := rxSlot s j }
  kept : ∀ j, n ≤ j → j < 256 → t.rxDesc (rxSlot s j) = s.rxDesc (rxSlot s j) ∧
    t.rxPackets (rxSlot s j) = s.rxPackets (rxSlot s j)
  input : acts.flatMap RxAction.delivered = (List.range n).map (rxInput s o)

section Receive

variable {s t u : RxRing} {o : ℕ → RxOutcome} {n : ℕ} {acts : List RxAction}

theorem rxSlot_zero (s : RxRing) : rxSlot s 0 = s.rxIndex := slot_val_self _

theorem rxNext_rxSlot (s : RxRing) (j : ℕ) : rxNext (rxSlot s j) = rxSlot s (j + 1) := rxNext_slot _

/-- The first 256 rounds have different descriptors. -/
theorem rxSlot_ne {i j : ℕ} (hij : i ≠ j) (hi : i < 256) (hj : j < 256) : rxSlot s i ≠ rxSlot s j :=
  slot_ne_of_window (a := s.rxIndex.val) (by omega) (by omega) (by omega)

theorem rxHandled_zero (s : RxRing) (o : ℕ → RxOutcome) : RxHandled s o 0 [] s :=
  ⟨Nat.zero_le _, (rxSlot_zero s).symm, fun j hj => absurd hj (Nat.not_lt_zero j),
    fun j hj => absurd hj (Nat.not_lt_zero j), fun _ _ _ => ⟨rfl, rfl⟩, rfl⟩

/-- After 256 rounds the loop is back at its first descriptor, which it has given back. -/
theorem RxHandled.lt (h : RxHandled s o n acts t) (hready : rxReady t = true) : n < 256 := by
  refine Nat.lt_of_le_of_ne h.count fun hn => ?_
  subst hn
  have hback : rxSlot s 256 = rxSlot s 0 := slot_add_self _
  rw [rxReady, h.index, hback, (h.handled 0 (by omega)).1, owned_handBack] at hready
  cases hready

/-- One more round. -/
theorem RxHandled.round (h : RxHandled s o n acts t) (hready : rxReady t = true) :
    RxHandled s o (n + 1) (acts ++ rxRound t (o n)) (applyRx (rxRound t (o n)) t) := by
  have hn := h.lt hready
  obtain ⟨hdesc, hpackets⟩ := h.kept n (Nat.le_refl n) hn
  have hsame : (o n).packet t = (o n).packet { s with rxIndex := rxSlot s n } ∧
      (o n).input t = (o n).input { s with rxIndex := rxSlot s n } := by
    unfold RxOutcome.packet RxOutcome.input
    rw [h.index, hpackets]
    exact ⟨rfl, rfl⟩
  rw [rxReady, h.index, hdesc, Bool.not_eq_true'] at hready
  rw [applyRx_round, h.index, hdesc, hsame.1, rxNext_rxSlot]
  refine ⟨hn, rfl, fun j hj => ?_, fun j hj => ?_, fun j h1 h2 => ?_, ?_⟩
  · rcases Nat.lt_succ_iff_lt_or_eq.mp hj with hj | rfl
    · exact h.ours j hj
    · exact hready
  · rcases Nat.lt_succ_iff_lt_or_eq.mp hj with hj | rfl
    · have hne := rxSlot_ne (s := s) hj.ne (by omega) hn
      simp only [Function.update_of_ne hne]
      exact h.handled j hj
    · simp only [Function.update_self, and_self]
  · have hne := rxSlot_ne (s := s) (show j ≠ n by omega) h2 hn
    simp only [Function.update_of_ne hne]
    exact h.kept j (by omega) h2
  · rw [List.flatMap_append, h.input, delivered_round, h.index, hdesc, hsame.2, List.range_succ, List.map_append]
    rfl

/-- The loop stops, at the latest when it has gone round. -/
theorem RxHandled.handleLoop {fuel : ℕ} (h : RxHandled s o n acts t) (hf : fuel + n = 257) :
    ∃ m acts' u, handleRxLoop o fuel n t = some (acts', u) ∧ RxHandled s o m (acts ++ acts') u ∧
      rxReady u = false := by
  induction fuel generalizing n acts t with
  | zero => have hn := h.count; omega
  | succ fuel ih =>
    rw [handleRxLoop]
    cases hready : rxReady t with
    | false => exact ⟨n, [], t, rfl, by rw [List.append_nil]; exact h, hready⟩
    | true =>
      obtain ⟨m, acts', u, hloop, hu, hstop⟩ := ih (h.round hready) (by omega)
      refine ⟨m, rxRound t (o n) ++ acts', u, ?_, by rw [← List.append_assoc]; exact hu, hstop⟩
      rw [if_pos rfl, hloop]
      rfl

/-- Every call of `handleRxInterrupt` ends, at a descriptor that the controller owned before it or at its first one. -/
theorem handleRxInterrupt_spec (s : RxRing) (o : ℕ → RxOutcome) : ∃ n acts t,
    handleRxInterrupt o s = some (acts, t) ∧ RxHandled s o n acts t ∧
      (n < 256 → (s.rxDesc (rxSlot s n)).owned = true) := by
  obtain ⟨n, acts, t, hloop, ht, hstop⟩ := (rxHandled_zero s o).handleLoop rfl
  rw [List.nil_append] at ht
  refine ⟨n, acts, t, hloop, ht, fun hn => ?_⟩
  rw [rxReady, Bool.not_eq_false', ht.index, (ht.kept n (Nat.le_refl n) hn).1] at hstop
  exact hstop

end Receive

/-! ## The rings in a run -/

/-- Where the driver is, with the writes that it has yet to make. -/
inductive RingsPhase
  | idle
  | sending (todo : List TxWrite)
  | txScanning
  | reclaiming (todo : List TxWrite)
  | rxScanning
  | receiving (todo : List RxAction)

/-- Both rings and the driver. -/
structure Rings where
  tx : TxRing
  rx : RxRing
  phase : RingsPhase
  /-- The chains of all accepted packets, in order. -/
  accepted : List Chain
  /-- The packets freed by `handleTxInterrupt`. -/
  released : List Mbuf

namespace Rings

/-- The chains whose packets have not been freed. -/
def outstanding (w : Rings) : List Chain := w.accepted.drop w.released.length

def txTodo (w : Rings) : List TxWrite :=
  match w.phase with
  | .sending todo | .reclaiming todo => todo
  | _ => []

def rxTodo (w : Rings) : List RxAction :=
  match w.phase with
  | .receiving todo => todo
  | _ => []

/-- The transmit ring when the driver has finished the packet or the round that it is at; between calls it has. -/
def settledTx (w : Rings) : TxRing := applyAll w.txTodo w.tx

def settledRx (w : Rings) : RxRing := applyRx w.rxTodo w.rx

end Rings

inductive RingsLabel
  | driver
  | controller

/-- The steps. The driver's calls are one at a time, since the output queue and the interrupts share its work loop; a
packet that is not accepted changes neither ring. The controller may rewrite the descriptors that it owns. -/
inductive RingsStep : Rings → RingsLabel → Rings → Prop
  | send {w : Rings} (p : Mbuf) (segments : List Segment) (reqs : ChecksumDemand) {writes : List TxWrite} :
      w.phase = .idle → segments.length ≤ txMaxSegCount →
      sendTxPacket false w.tx p segments reqs = (.success, [], writes) →
      RingsStep w .driver { w with phase := .sending writes, accepted := w.accepted ++ [⟨p, segments⟩] }
  | sendWrite {w : Rings} {x : TxWrite} {todo : List TxWrite} : w.phase = .sending (x :: todo) →
      RingsStep w .driver { w with tx := x.apply w.tx, phase := .sending todo }
  | sent {w : Rings} : w.phase = .sending [] → RingsStep w .driver { w with phase := .idle }
  | txInterrupt {w : Rings} : w.phase = .idle → RingsStep w .driver { w with phase := .txScanning }
  | txRound {w : Rings} : w.phase = .txScanning → txReady w.tx = true →
      RingsStep w .driver
        { w with phase := .reclaiming (reclaimWrites w.tx), released := w.released ++ reclaimFreed w.tx }
  | txWrite {w : Rings} {x : TxWrite} {todo : List TxWrite} : w.phase = .reclaiming (x :: todo) →
      RingsStep w .driver { w with tx := x.apply w.tx, phase := .reclaiming todo }
  | txAgain {w : Rings} : w.phase = .reclaiming [] → RingsStep w .driver { w with phase := .txScanning }
  | txDone {w : Rings} : w.phase = .txScanning → txReady w.tx = false →
      RingsStep w .driver { w with phase := .idle }
  | rxInterrupt {w : Rings} : w.phase = .idle → RingsStep w .driver { w with phase := .rxScanning }
  | rxRound {w : Rings} (o : RxOutcome) : w.phase = .rxScanning → rxReady w.rx = true → RxSucceeds (.round o) →
      RingsStep w .driver { w with phase := .receiving (rxRound w.rx o) }
  | rxAction {w : Rings} {x : RxAction} {todo : List RxAction} : w.phase = .receiving (x :: todo) →
      RingsStep w .driver { w with rx := x.apply w.rx, phase := .receiving todo }
  | rxAgain {w : Rings} : w.phase = .receiving [] → RingsStep w .driver { w with phase := .rxScanning }
  | rxDone {w : Rings} : w.phase = .rxScanning → rxReady w.rx = false →
      RingsStep w .driver { w with phase := .idle }
  | txRewrite {w : Rings} (i : Index) (d : Descriptor) : (w.tx.txDesc i).owned = true →
      RingsStep w .controller { w with tx := w.tx.modifyDesc i fun _ => d }
  | rxRewrite {w : Rings} (i : Index) (d : Descriptor) : (w.rx.rxDesc i).owned = true →
      RingsStep w .controller { w with rx := w.rx.modifyDesc i fun _ => d }

/-- After a successful `initTransmitReceiveBuffers`, with an empty state array. -/
def RingsInit (w : Rings) : Prop :=
  ∃ (alloc : Index → Option Mbuf) (segment : Index → Option Segment) (s t : RxRing) (tx : TxRing),
    initRxRing alloc segment s = (true, t) ∧ (∀ i, tx.txDescStates i = .empty) ∧
      w = ⟨initTxRing tx, t, .idle, [], []⟩

/-- The outstanding chains tile the transmit ring and each slot of the receive ring has its packet, once the driver has
made its writes. -/
structure RingsInv (w : Rings) : Prop where
  queue : ∃ gone cs r, Tiled w.settledTx cs r ∧ w.accepted = gone ++ cs ∧ w.released = gone.map Chain.packet
  packets : ∀ i, w.settledRx.rxPackets i ≠ none

section Runs

variable {w v : Rings} {l : RingsLabel}

/-- Descriptors do not matter to what the writes make of the state array and the indices. -/
theorem applyAll_congr (ws : List TxWrite) {s t : TxRing} (hs : t.txDescStates = s.txDescStates)
    (hr : t.txReadIndex = s.txReadIndex) (hw : t.txWriteIndex = s.txWriteIndex) :
    (applyAll ws t).txDescStates = (applyAll ws s).txDescStates ∧
      (applyAll ws t).txReadIndex = (applyAll ws s).txReadIndex ∧
      (applyAll ws t).txWriteIndex = (applyAll ws s).txWriteIndex := by
  induction ws generalizing s t with
  | nil => exact ⟨hs, hr, hw⟩
  | cons x ws ih =>
    rw [applyAll_cons, applyAll_cons]
    cases x with
    | orLength i v => cases i <;> exact ih hs hr hw
    | packet i p => exact ih (by simp [TxWrite.apply, TxRing.modifyState, hs]) hr hw
    | segmentCount i n => exact ih (by simp [TxWrite.apply, TxRing.modifyState, hs]) hr hw
    | readIndex i => exact ih hs rfl hw
    | writeIndex i => exact ih hs hr rfl
    | _ => exact ih hs hr hw

theorem applyRx_congr (as : List RxAction) {s t : RxRing} (h : t.rxPackets = s.rxPackets) :
    (applyRx as t).rxPackets = (applyRx as s).rxPackets := by
  induction as generalizing s t with
  | nil => exact h
  | cons x as ih =>
    rw [applyRx_cons, applyRx_cons]
    cases x with
    | packet i p => exact ih (by simp [RxAction.apply, h])
    | _ => exact ih h

theorem ringsInv_init (h : RingsInit w) : RingsInv w := by
  obtain ⟨alloc, segment, s, t, tx, hinit, htx, rfl⟩ := h
  refine ⟨⟨[], [], 0, (drives_init htx).tracks.tiled, rfl, rfl⟩, fun i => ?_⟩
  obtain ⟨_, _, _, _, hm, _⟩ := (initRxRing_spec hinit).2 i
  show t.rxPackets i ≠ none
  rw [hm]
  exact Option.some_ne_none _

/-- A round in which both calls succeed keeps a packet in its slot. -/
theorem rxPackets_round {s : RxRing} {o : RxOutcome} (h : ∀ i, s.rxPackets i ≠ none) (ho : RxSucceeds (.round o))
    (i : Index) : (applyRx (rxRound s o) s).rxPackets i ≠ none := by
  rw [applyRx_round]
  by_cases hi : i = s.rxIndex
  · subst hi
    simp only [Function.update_self]
    obtain ⟨replacement, _⟩ := o
    cases replacement with
    | failed => exact absurd rfl ho.1
    | copied m => exact h _
    | replaced m => exact Option.some_ne_none m
  · simp only [Function.update_of_ne hi]
    exact h i

/-- And hands one on. -/
theorem rxInput_packet {s : RxRing} {o : ℕ → RxOutcome} (h : ∀ i, s.rxPackets i ≠ none) {j : ℕ}
    (ho : RxSucceeds (.round (o j))) : (rxInput s o j).1 ≠ none := by
  show (o j).input _ ≠ none
  unfold RxOutcome.input
  rw [if_pos ho.2]
  cases hr : (o j).replacement with
  | failed => exact absurd hr ho.1
  | copied m => exact Option.some_ne_none m
  | replaced m => exact h _

theorem ringsInv_step (h : RingsInv w) (hs : RingsStep w l v) : RingsInv v := by
  obtain ⟨⟨gone, cs, r, hT, hacc, hrel⟩, hpackets⟩ := h
  simp only [Rings.settledTx, Rings.txTodo] at hT
  simp only [Rings.settledRx, Rings.rxTodo] at hpackets
  cases hs with
  | send p segments reqs hp hl he =>
    rw [hp] at hT hpackets
    replace hT : Tiled w.tx cs r := hT
    rcases sendTxPacket_cases false w.tx p segments reqs with ⟨_, hc⟩ | ⟨_, _, hc⟩ | ⟨hroom, seg, segs, rfl, hc⟩
    · rw [hc] at he; cases he
    · rw [hc] at he; cases he
    · rw [hc, Prod.mk.injEq, Prod.mk.injEq] at he
      obtain ⟨_, _, rfl⟩ := he
      obtain ⟨t, rfl, hTt, _⟩ := hT.send hroom p seg reqs hl
      exact ⟨⟨gone, _, r, hTt, by rw [hacc, List.append_assoc], hrel⟩, hpackets⟩
  | sendWrite hp | txWrite hp | sent hp | txInterrupt hp | txAgain hp | rxInterrupt hp | rxAction hp | rxAgain hp =>
    rw [hp] at hT hpackets
    exact ⟨⟨gone, cs, r, hT, hacc, hrel⟩, hpackets⟩
  | txDone hp _ | rxDone hp _ =>
    rw [hp] at hT hpackets
    exact ⟨⟨gone, cs, r, hT, hacc, hrel⟩, hpackets⟩
  | txRound hp hready =>
    rw [hp] at hT hpackets
    replace hT : Tiled w.tx cs r := hT
    cases cs with
    | nil => rw [hT.ready_nil] at hready; cases hready
    | cons c cs =>
      refine ⟨⟨gone ++ [c], cs, r + c.count, hT.reclaim, by simp [hacc], ?_⟩, hpackets⟩
      simp [hrel, (reclaim_eq hT.read hT.holds.1).1]
  | rxRound o hp _ ho =>
    rw [hp] at hT hpackets
    exact ⟨⟨gone, cs, r, hT, hacc, hrel⟩, rxPackets_round hpackets ho⟩
  | txRewrite i d _ =>
    obtain ⟨h1, h2, h3⟩ := applyAll_congr w.txTodo (t := w.tx.modifyDesc i fun _ => d) (s := w.tx) rfl rfl rfl
    exact ⟨⟨gone, cs, r, hT.congr h1 h2 h3, hacc, hrel⟩, hpackets⟩
  | rxRewrite i d _ =>
    refine ⟨⟨gone, cs, r, hT, hacc, hrel⟩, fun j => ?_⟩
    have hsame := applyRx_congr w.rxTodo (t := w.rx.modifyDesc i fun _ => d) (s := w.rx) rfl
    exact ne_of_eq_of_ne (congrFun hsame j) (hpackets j)

/-- **In every state of a run both interrupt loops end if the controller makes no step.** The transmit loop releases
the longest run of outstanding chains that the controller has given back; the receive loop handles the longest run of
descriptors that it has given back, all 256 if it owns none. -/
theorem interrupt_loops {es : List (Edge Rings RingsLabel)} (h : Run RingsInit RingsStep es w) (o : ℕ → RxOutcome)
    (ho : ∀ j, RxSucceeds (.round (o j))) :
    (∃ done rest t, w.outstanding = done ++ rest ∧
      handleTxInterrupt w.settledTx = some (done.map Chain.packet, t) ∧
      TxHandled w.settledTx w.settledTx.txReadIndex.val done rest t) ∧
    ∃ n acts t, handleRxInterrupt o w.settledRx = some (acts, t) ∧ RxHandled w.settledRx o n acts t ∧
      (n < 256 → (w.settledRx.rxDesc (rxSlot w.settledRx n)).owned = true) ∧
      ((∀ i, (w.settledRx.rxDesc i).owned = false) → n = 256) ∧
      ∀ d ∈ acts.flatMap RxAction.delivered, d.1 ≠ none := by
  obtain ⟨⟨gone, cs, r, hT, hacc, hrel⟩, hpackets⟩ :=
    h.invariant (I := RingsInv) (fun _ => ringsInv_init) fun _ _ _ => ringsInv_step
  constructor
  · have hout : w.outstanding = cs := by
      rw [Rings.outstanding, hacc, hrel, List.length_map, List.drop_left]
    rw [hout]
    exact hT.from_index.handle
  · obtain ⟨n, acts, t, hloop, ht, hmax⟩ := handleRxInterrupt_spec w.settledRx o
    refine ⟨n, acts, t, hloop, ht, hmax, fun hall => ?_, fun d hd => ?_⟩
    · refine Nat.le_antisymm ht.count (Nat.le_of_not_lt fun hn => ?_)
      have hown := hmax hn
      rw [hall] at hown
      cases hown
    · rw [ht.input] at hd
      obtain ⟨j, _, rfl⟩ := List.mem_map.mp hd
      exact rxInput_packet hpackets (ho j)

end Runs

/-! ## The loops as steps of the driver -/

def DriverStep (w v : Rings) : Prop := RingsStep w .driver v

section Steps

variable {w : Rings} {freed : List Mbuf}

theorem txWrites_path {todo : List TxWrite} (hp : w.phase = .reclaiming todo) :
    ReflTransGen DriverStep w { w with tx := applyAll todo w.tx, phase := .reclaiming [] } := by
  induction todo generalizing w with
  | nil =>
    rw [applyAll_nil, ← hp]
  | cons x todo ih => exact .head (RingsStep.txWrite hp) (ih rfl)

/-- The transmit loop is what the driver does alone from the head of the loop to its end. -/
theorem txLoop_path {fuel : ℕ} {t : TxRing} (hp : w.phase = .txScanning)
    (h : handleTxLoop fuel w.tx = some (freed, t)) :
    ReflTransGen DriverStep w { w with tx := t, phase := .idle, released := w.released ++ freed } := by
  induction fuel generalizing w freed with
  | zero => cases h
  | succ fuel ih =>
    rw [handleTxLoop] at h
    cases hready : txReady w.tx with
    | false =>
      rw [hready] at h
      obtain ⟨rfl, rfl⟩ := Prod.mk.inj (Option.some.inj h)
      rw [List.append_nil]
      exact .single (RingsStep.txDone hp hready)
    | true =>
      rw [hready, if_pos rfl, Option.map_eq_some_iff] at h
      obtain ⟨⟨freed', t'⟩, hloop, he⟩ := h
      obtain ⟨rfl, rfl⟩ := Prod.mk.inj he
      rw [← List.append_assoc]
      refine .head (RingsStep.txRound hp hready) ((txWrites_path rfl).trans (.head (RingsStep.txAgain rfl) ?_))
      exact ih rfl hloop

theorem rxActions_path {todo : List RxAction} (hp : w.phase = .receiving todo) :
    ReflTransGen DriverStep w { w with rx := applyRx todo w.rx, phase := .receiving [] } := by
  induction todo generalizing w with
  | nil =>
    rw [applyRx_nil, ← hp]
  | cons x todo ih => exact .head (RingsStep.rxAction hp) (ih rfl)

/-- And so is the receive loop. -/
theorem rxLoop_path {o : ℕ → RxOutcome} (ho : ∀ j, RxSucceeds (.round (o j))) {fuel n : ℕ} {acts : List RxAction}
    {t : RxRing} (hp : w.phase = .rxScanning) (h : handleRxLoop o fuel n w.rx = some (acts, t)) :
    ReflTransGen DriverStep w { w with rx := t, phase := .idle } := by
  induction fuel generalizing w n acts with
  | zero => cases h
  | succ fuel ih =>
    rw [handleRxLoop] at h
    cases hready : rxReady w.rx with
    | false =>
      rw [hready] at h
      obtain ⟨rfl, rfl⟩ := Prod.mk.inj (Option.some.inj h)
      exact .single (RingsStep.rxDone hp hready)
    | true =>
      rw [hready, if_pos rfl, Option.map_eq_some_iff] at h
      obtain ⟨⟨acts', t'⟩, hloop, he⟩ := h
      obtain ⟨rfl, rfl⟩ := Prod.mk.inj he
      refine .head (RingsStep.rxRound (o n) hp hready (ho n)) ?_
      exact (rxActions_path rfl).trans (.head (RingsStep.rxAgain rfl) (ih rfl hloop))

/-- Calls that the controller does not interrupt, from and back to idle. -/
theorem calls_path (hp : w.phase = .idle) :
    (∀ freed t, handleTxInterrupt w.tx = some (freed, t) →
      ReflTransGen DriverStep w { w with tx := t, released := w.released ++ freed }) ∧
    ∀ o acts t, (∀ j, RxSucceeds (.round (o j))) → handleRxInterrupt o w.rx = some (acts, t) →
      ReflTransGen DriverStep w { w with rx := t } := by
  constructor
  · intro freed t h
    have hloop := txLoop_path (w := { w with phase := .txScanning }) rfl h
    have hpath := ReflTransGen.head (RingsStep.txInterrupt hp) hloop
    rwa [← hp] at hpath
  · intro o acts t ho h
    have hloop := rxLoop_path (w := { w with phase := .rxScanning }) ho rfl h
    have hpath := ReflTransGen.head (RingsStep.rxInterrupt hp) hloop
    rwa [← hp] at hpath

end Steps

/-! ## A frame in the first slot -/

/-- `bufferRing` with a frame of 64 bytes in its first slot. -/
def frameRing : RxRing := bufferRing.modifyDesc 0 fun d => { d with packetLength := 64, flags := 0 }

theorem interrupt_loops_frame : ∃ acts t,
    handleRxInterrupt (fun _ => ⟨.copied 256, some (buffer 0)⟩) frameRing = some (acts, t) ∧ t.rxIndex = 1 ∧
      acts.flatMap RxAction.delivered = [(some 256, 64)] := by
  have h0 : Run RingsInit RingsStep [] ⟨startRing, bufferRing, .idle, [], []⟩ :=
    .start ⟨_, _, bufferRing, _, _, bufferRing_init _, fun _ => rfl, rfl⟩
  have h1 := h0.step (.rxRewrite 0 { bufferRing.rxDesc 0 with packetLength := 64, flags := 0 } rfl)
  obtain ⟨_, n, acts, t, hloop, ht, hmax, _⟩ := interrupt_loops h1 (fun _ => ⟨.copied 256, some (buffer 0)⟩)
    fun _ => ⟨by simp, rfl⟩
  have hpos : 0 < n := by
    refine Nat.pos_of_ne_zero fun hn => ?_
    subst hn
    exact absurd (hmax (by omega)) (by decide)
  have hle : n ≤ 1 := Nat.le_of_not_lt fun hn => absurd (ht.ours 1 hn) (by decide)
  obtain rfl : n = 1 := by omega
  exact ⟨acts, t, hloop, ht.index, ht.input⟩

end Osx360.Ethernet
