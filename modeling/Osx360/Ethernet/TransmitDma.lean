import Osx360.Ethernet.TransmitOwnership

/-!
# Single writes and a controller that walks the transmit ring

The memory writes of `sendTxPacket` and `handleTxInterrupt`, in program order, interleaved with the steps of a
controller that walks the ring (`DmaStep`). What the invariant of these runs needs about single writes: a write
commutes with a completion by the controller on a descriptor that it avoids (`applyAll_clearOwner`), a send avoids the
chains before its own (`sendWrites_avoid`) and does not hand off its chain before the last write
(`sendWrites_keepFree`), and afterwards the chain is written (`written_send`).
-/

set_option autoImplicit false

namespace Osx360.Ethernet

open Osx360.Lib

/-! ## The system -/

/-- Where the driver is: outside the two functions, in `sendTxPacket` or in a round of `handleTxInterrupt` with writes
to come, or at the head of the loop of `handleTxInterrupt`. -/
inductive DriverPhase
  | idle
  | sending (c : Chain) (todo : List TxWrite)
  | scanning
  | reclaiming (todo : List TxWrite)

/-- Where the controller is: at the first descriptor of a chain, among the descriptors of a chain with the bytes
consumed and the packet length, or past the last one. -/
inductive ControllerPhase
  | looking
  | fetching (cur : Index) (consumed total : ℕ)
  | finishing (cur : Index)

structure DmaWorld where
  ring : TxRing
  driver : DriverPhase
  controller : ControllerPhase
  /-- The first descriptor of the controller's chain. -/
  next : Index
  /-- The chains handed off. -/
  accepted : List Chain
  /-- Address and length of the segments transmitted. -/
  transmitted : List (Word × Word)

def DmaWorld.todo (w : DmaWorld) : List TxWrite :=
  match w.driver with
  | .sending _ todo => todo
  | .reclaiming todo => todo
  | _ => []

/-- The controller's place in the ring. -/
def DmaWorld.place (w : DmaWorld) : Index :=
  match w.controller with
  | .looking => w.next
  | .fetching cur _ _ => cur
  | .finishing cur => cur

/-- A length word without the end-of-ring bit. -/
def Descriptor.bytes (d : Descriptor) : Word := d.length &&& ~~~descLengthEnd

/-- The controller consumes one descriptor. -/
def DmaWorld.fetch (w : DmaWorld) (cur : Index) (consumed total : ℕ) : DmaWorld :=
  let d := w.ring.txDesc cur
  { w with
    transmitted := w.transmitted ++ [(d.address, d.bytes)]
    controller :=
      if consumed + d.bytes.toNat = total then .finishing (txNext cur)
      else .fetching (txNext cur) (consumed + d.bytes.toNat) total }

inductive DmaLabel
  | driver
  | controller

/-- The steps. The memory cursor is assumed to return non-empty segments, at most eight. -/
inductive DmaStep : DmaWorld → DmaLabel → DmaWorld → Prop
  | send {w : DmaWorld} (p : Mbuf) (segments : List Segment) (reqs : ChecksumDemand) {writes : List TxWrite} :
      w.driver = .idle → segments.length ≤ txMaxSegCount → (∀ s ∈ segments, 0 < s.length.toNat) →
      sendTxPacket false w.ring p segments reqs = (.success, [], writes) →
      DmaStep w .driver { w with driver := .sending ⟨p, segments⟩ writes }
  | sendWrite {w : DmaWorld} {c : Chain} {x y : TxWrite} {todo : List TxWrite} :
      w.driver = .sending c (x :: y :: todo) →
      DmaStep w .driver { w with ring := x.apply w.ring, driver := .sending c (y :: todo) }
  | handOff {w : DmaWorld} {c : Chain} {x : TxWrite} : w.driver = .sending c [x] →
      DmaStep w .driver { w with ring := x.apply w.ring, driver := .idle, accepted := w.accepted ++ [c] }
  | interrupt {w : DmaWorld} : w.driver = .idle → DmaStep w .driver { w with driver := .scanning }
  | round {w : DmaWorld} : w.driver = .scanning → txReady w.ring = true →
      DmaStep w .driver { w with driver := .reclaiming (reclaimWrites w.ring) }
  | reclaimWrite {w : DmaWorld} {x : TxWrite} {todo : List TxWrite} : w.driver = .reclaiming (x :: todo) →
      DmaStep w .driver { w with ring := x.apply w.ring, driver := .reclaiming todo }
  | again {w : DmaWorld} : w.driver = .reclaiming [] → DmaStep w .driver { w with driver := .scanning }
  | done {w : DmaWorld} : w.driver = .scanning → txReady w.ring = false →
      DmaStep w .driver { w with driver := .idle }
  | look {w : DmaWorld} : w.controller = .looking → (w.ring.txDesc w.next).owned = true →
      DmaStep w .controller
        { w with controller := .fetching w.next 0 (w.ring.txDesc w.next).packetLength.toNat }
  | fetch {w : DmaWorld} {cur : Index} {consumed total : ℕ} : w.controller = .fetching cur consumed total →
      DmaStep w .controller (w.fetch cur consumed total)
  | finish {w : DmaWorld} {cur : Index} : w.controller = .finishing cur →
      DmaStep w .controller { w with ring := clearOwner w.next w.ring, controller := .looking, next := cur }

def DmaInit (w : DmaWorld) : Prop :=
  ∃ s : TxRing, (∀ i, s.txDescStates i = .empty) ∧ w = ⟨initTxRing s, .idle, .looking, 0, [], []⟩

/-! ## Writes and other slots -/

/-- The write goes to another descriptor, or to none. -/
def TxWrite.Avoids (x : TxWrite) (i : Index) : Prop := x.descriptor ≠ some (some i)

theorem TxWrite.Avoids.txDesc {x : TxWrite} {i : Index} (h : x.Avoids i) (s : TxRing) :
    (x.apply s).txDesc i = s.txDesc i := by
  cases x with
  | orLength d v =>
    cases d with
    | none => rfl
    | some j => exact Function.update_of_ne (fun he : i = j => h (congrArg (fun k => some (some k)) he.symm)) _ _
  | packet => rfl
  | segmentCount => rfl
  | readIndex => rfl
  | writeIndex => rfl
  | _ j => exact Function.update_of_ne (fun he : i = j => h (congrArg (fun k => some (some k)) he.symm)) _ _

theorem modifyDesc_comm {s : TxRing} {i j : Index} (h : j ≠ i) (f g : Descriptor → Descriptor) :
    (s.modifyDesc i f).modifyDesc j g = (s.modifyDesc j g).modifyDesc i f := by
  simp [TxRing.modifyDesc, Function.update_of_ne h, Function.update_of_ne (Ne.symm h), Function.update_comm h]

/-- A write commutes with a change of a descriptor that it avoids. -/
theorem TxWrite.Avoids.comm {x : TxWrite} {i : Index} (h : x.Avoids i) (s : TxRing) (f : Descriptor → Descriptor) :
    x.apply (s.modifyDesc i f) = (x.apply s).modifyDesc i f := by
  have hne : ∀ j, x.descriptor = some (some j) → j ≠ i := fun j hj he => h (he ▸ hj)
  cases x with
  | orLength d v =>
    cases d with
    | none => rfl
    | some j => exact modifyDesc_comm (hne j rfl) f fun d => { d with length := d.length ||| v }
  | packet => rfl
  | segmentCount => rfl
  | readIndex => rfl
  | writeIndex => rfl
  | packetLength j v => exact modifyDesc_comm (hne j rfl) f fun d => { d with packetLength := v }
  | flags j v => exact modifyDesc_comm (hne j rfl) f fun d => { d with flags := v }
  | orFlags j v => exact modifyDesc_comm (hne j rfl) f fun d => { d with flags := d.flags ||| v }
  | address j v => exact modifyDesc_comm (hne j rfl) f fun d => { d with address := v }
  | length j v => exact modifyDesc_comm (hne j rfl) f fun d => { d with length := v }

theorem applyAll_avoids {i : Index} {ws : List TxWrite} (h : ∀ x ∈ ws, x.Avoids i) (s : TxRing) :
    (applyAll ws s).txDesc i = s.txDesc i := by
  induction ws generalizing s with
  | nil => rfl
  | cons x ws ih =>
    rw [applyAll_cons, ih fun y hy => h y (List.mem_cons_of_mem _ hy)]
    exact (h x List.mem_cons_self).txDesc s

theorem applyAll_clearOwner {i : Index} {ws : List TxWrite} (h : ∀ x ∈ ws, x.Avoids i) (s : TxRing) :
    applyAll ws (clearOwner i s) = clearOwner i (applyAll ws s) := by
  induction ws generalizing s with
  | nil => rfl
  | cons x ws ih =>
    rw [applyAll_cons, applyAll_cons, ← ih fun y hy => h y (List.mem_cons_of_mem _ hy)]
    exact congrArg _ ((h x List.mem_cons_self).comm s _)

/-- The write leaves the descriptor with the driver. -/
def TxWrite.KeepsFree (x : TxWrite) (i : Index) : Prop :=
  ∀ s : TxRing, (s.txDesc i).owned = false → ((x.apply s).txDesc i).owned = false

theorem TxWrite.Avoids.keepsFree {x : TxWrite} {i : Index} (h : x.Avoids i) : x.KeepsFree i := by
  intro s hs
  rw [h.txDesc s]
  exact hs

theorem keepsFree_modifyDesc {i j : Index} {f : Descriptor → Descriptor} (s : TxRing)
    (hf : ∀ d : Descriptor, d.owned = false → (f d).owned = false) (hs : (s.txDesc i).owned = false) :
    ((s.modifyDesc j f).txDesc i).owned = false := by
  by_cases h : i = j
  · subst h
    simpa [TxRing.modifyDesc] using hf _ hs
  · simpa [TxRing.modifyDesc, Function.update_of_ne h] using hs

theorem keepsFree_flags {i j : Index} {v : Word} (hv : has v txFlagsOwner = false) :
    (TxWrite.flags j v).KeepsFree i :=
  fun s hs => keepsFree_modifyDesc (f := fun d => { d with flags := v }) s (fun _ _ => hv) hs

theorem txFlags_owner (reqs : ChecksumDemand) : has (txFlags reqs) txFlagsOwner = false := by
  obtain ⟨ip, tcp, udp⟩ := reqs
  cases ip <;> cases tcp <;> cases udp <;> decide

/-! ## Written chains -/

/-- The bytes of the segments. -/
def lengthSum (segs : List Segment) : ℕ := (segs.map fun s => s.length.toNat).sum

theorem lengthSum_cons (s : Segment) (segs : List Segment) : lengthSum (s :: segs) = s.length.toNat + lengthSum segs :=
  by simp [lengthSum]

theorem lengthSum_append (segs segs' : List Segment) :
    lengthSum (segs ++ segs') = lengthSum segs + lengthSum segs' := by simp [lengthSum]

theorem lengthSum_le (segs : List Segment) : lengthSum segs ≤ segs.length * maxPacketLength := by
  induction segs with
  | nil => exact Nat.le_refl 0
  | cons s segs ih =>
    have hs := s.length_le
    rw [lengthSum_cons, List.length_cons, Nat.add_mul]
    omega

/-- Of non-empty segments the first few have fewer bytes than all. -/
theorem lengthSum_take_lt {segs : List Segment} {n : ℕ} (hpos : ∀ s ∈ segs, 0 < s.length.toNat)
    (hn : n < segs.length) : lengthSum (segs.take n) < lengthSum segs := by
  induction segs generalizing n with
  | nil => cases hn
  | cons s segs ih =>
    have hs := hpos s List.mem_cons_self
    cases n with
    | zero =>
      rw [List.take_zero, lengthSum_cons]
      exact Nat.lt_of_lt_of_le hs (Nat.le_add_right _ _)
    | succ n =>
      have hrest := ih (fun t ht => hpos t (List.mem_cons_of_mem _ ht)) (Nat.lt_of_succ_lt_succ hn)
      rw [List.take_succ_cons, lengthSum_cons, lengthSum_cons]
      omega

/-- The sum in the variable `packetLength` does not overflow. -/
theorem totalLength_toNat {seg : Segment} {segs : List Segment} (hl : segs.length < 8) :
    (totalLength seg segs).toNat = lengthSum (seg :: segs) := by
  have hfold : ∀ (segs : List Segment) (n : Word), n.toNat + lengthSum segs < 2 ^ 32 →
      (segs.foldl (fun n s => n + s.length) n).toNat = n.toNat + lengthSum segs := by
    intro segs
    induction segs with
    | nil => exact fun _ _ => rfl
    | cons s segs ih =>
      intro n hn
      rw [lengthSum_cons] at hn ⊢
      have hs : (n + s.length).toNat = n.toNat + s.length.toNat := by
        rw [BitVec.toNat_add, Nat.mod_eq_of_lt (by omega)]
      rw [List.foldl_cons, ih (n + s.length) (by omega), hs, Nat.add_assoc]
  have hle := lengthSum_le (seg :: segs)
  rw [List.length_cons, maxPacketLength] at hle
  rw [lengthSum_cons] at hle ⊢
  exact hfold segs seg.length (by omega)

/-- Address and length of the segments. -/
def Chain.data (c : Chain) : List (Word × Word) := c.segs.map fun s => (s.location, s.length)

/-- The descriptors at counter `k` hold the chain. -/
structure Written (s : TxRing) (k : ℕ) (c : Chain) : Prop where
  total : (s.txDesc (slot 256 k)).packetLength.toNat = lengthSum c.segs
  segment : ∀ n seg, c.segs[n]? = some seg →
    (s.txDesc (slot 256 (k + n))).address = seg.location ∧ (s.txDesc (slot 256 (k + n))).length = seg.length

/-- Equal up to the flags. -/
def Descriptor.SameData (d e : Descriptor) : Prop :=
  d.packetLength = e.packetLength ∧ d.address = e.address ∧ d.length = e.length

theorem clearOwner_sameData (i j : Index) (s : TxRing) : ((clearOwner i s).txDesc j).SameData (s.txDesc j) := by
  by_cases h : j = i
  · subst h
    simp [clearOwner, TxRing.modifyDesc, Descriptor.SameData]
  · rw [clearOwner_of_ne h]
    exact ⟨rfl, rfl, rfl⟩

theorem Written.congr {s t : TxRing} {k : ℕ} {c : Chain} (h : Written s k c) (hpos : 1 ≤ c.count)
    (he : ∀ n < c.count, (t.txDesc (slot 256 (k + n))).SameData (s.txDesc (slot 256 (k + n)))) : Written t k c := by
  constructor
  · have h0 := (he 0 hpos).1
    rw [Nat.add_zero] at h0
    rw [h0]
    exact h.total
  · intro n seg hn
    obtain ⟨_, ha, hl⟩ := he n (List.getElem?_eq_some_iff.mp hn).1
    rw [ha, hl]
    exact h.segment n seg hn

/-- A send writes its chain. -/
theorem written_send (s : TxRing) (k : ℕ) (p : Mbuf) (seg : Segment) {segs : List Segment} (reqs : ChecksumDemand)
    (hl : segs.length < 8) :
    Written (applyAll (sendWrites false (slot 256 k) p seg segs reqs) s) k ⟨p, seg :: segs⟩ := by
  rw [applyAll_sendWrites s k p seg reqs (by omega)]
  constructor
  · simp only [Function.update_self, headDesc]
    exact totalLength_toNat hl
  · intro n seg' hn
    cases n with
    | zero =>
      rw [List.getElem?_cons_zero, Option.some.injEq] at hn
      subst hn
      simp [headDesc]
    | succ n =>
      rw [List.getElem?_cons_succ] at hn
      have hlt := (List.getElem?_eq_some_iff.mp hn).1
      have hne : slot 256 (k + (n + 1)) ≠ slot 256 k := (slot_ne (by omega) (by omega)).symm
      simp only [Function.update_of_ne hne]
      rw [show k + (n + 1) = k + 1 + n by omega, fillDesc_get (by omega) hn]
      exact ⟨rfl, rfl⟩

/-! ## The writes of the two functions -/

/-- The writes of a send avoid the chains before it. -/
theorem sendWrites_avoid {p : Mbuf} {seg : Segment} {segs : List Segment} {reqs : ChecksumDemand} {w k : ℕ}
    (hk : k < w) (hw : w + segs.length < k + 256) :
    ∀ x ∈ sendWrites false (slot 256 w) p seg segs reqs, x.Avoids (slot 256 k) := by
  intro x hx he
  obtain ⟨i, hi, hslot⟩ := sendWrites_inChain x hx _ he
  have hs : slot 256 ((slot 256 w).val + i) = slot 256 (w + i) := by
    apply Fin.ext
    simp
  rw [hs, Option.some.injEq] at hslot
  exact absurd hslot (slot_ne (by omega) (by omega))

/-- Until the last write of a send its first descriptor is not owned. -/
theorem sendWrites_keepFree {p : Mbuf} {seg : Segment} {segs : List Segment} {reqs : ChecksumDemand} {w : ℕ}
    (hl : segs.length < 8) :
    ∀ x ∈ (sendWrites false (slot 256 w) p seg segs reqs).dropLast, x.KeepsFree (slot 256 w) := by
  intro x hx
  have hlast : sendWrites false (slot 256 w) p seg segs reqs =
      (chainWrites (slot 256 w) p seg segs ++ [.writeIndex (txNext (lastIndex (slot 256 w) segs)),
        .flags (slot 256 w) (txFlags reqs)]) ++ [.orFlags (slot 256 w) (txFlagsOwner ||| txFlagsInterrupt)] := by
    simp [sendWrites, handoffWrites]
  rw [hlast, List.dropLast_concat] at hx
  simp only [chainWrites, List.mem_append, List.mem_cons, List.not_mem_nil, or_false] at hx
  rcases hx with (((rfl | rfl | rfl) | hx) | rfl | rfl | rfl) | rfl | rfl
  · exact keepsFree_flags (has_zero _)
  · exact fun s => keepsFree_modifyDesc (f := fun d => { d with address := seg.location }) s fun _ hd => hd
  · exact fun s => keepsFree_modifyDesc (f := fun d => { d with length := seg.length }) s fun _ hd => hd
  · obtain ⟨i, h1, h2, h3⟩ := mem_fillWrites hx
    refine TxWrite.Avoids.keepsFree fun he => ?_
    rw [h3, Option.some.injEq, Option.some.injEq] at he
    exact absurd he.symm (slot_ne (by omega) (by omega))
  · exact fun _ hs => hs
  · exact fun _ hs => hs
  · exact fun s => keepsFree_modifyDesc (f := fun d => { d with packetLength := totalLength seg segs }) s fun _ hd => hd
  · exact fun _ hs => hs
  · exact keepsFree_flags (txFlags_owner reqs)

/-- What a round writes: no descriptor, or the flags of one of the descriptors of the oldest chain. -/
theorem mem_reclaimWrites {s : TxRing} {r : ℕ} {c : Chain} (hr : s.txReadIndex = slot 256 r) (hc : HoldsState s r c)
    {x : TxWrite} (hx : x ∈ reclaimWrites s) :
    (x.descriptor = none ∧ ∀ i, x ≠ .writeIndex i) ∨ ∃ i < c.count, x = .flags (slot 256 (r + i)) 0 := by
  unfold reclaimWrites at hx
  rw [hr, hc.1] at hx
  simp only [List.mem_append, List.mem_cons, List.not_mem_nil, or_false] at hx
  rcases hx with (rfl | rfl) | hx
  · exact Or.inl ⟨rfl, by simp⟩
  · exact Or.inl ⟨rfl, by simp⟩
  · rcases mem_clearWrites hx with h | ⟨j, rfl⟩
    · exact Or.inr h
    · exact Or.inl ⟨rfl, by simp⟩

theorem avoids_of_none {x : TxWrite} (h : x.descriptor = none) (i : Index) : x.Avoids i := by
  intro he
  rw [h] at he
  cases he

end Osx360.Ethernet
