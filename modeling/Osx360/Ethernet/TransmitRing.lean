import Osx360.Lib.Fifo
import Osx360.Ethernet.Transmit

/-!
# The transmit ring is a queue of chains

`Tracks s q r`: the ring `s` holds the outstanding chains of the queue `q`, one after another from counter `r`. A send
accepts a chain (`Tracks.send`), a completion by the hardware completes the oldest pending one (`Tracks.complete`),
and a round of the interrupt loop releases the oldest completed one (`Tracks.reclaim`); the loop releases all completed
chains and stops (`Tracks.handle`).
-/

set_option autoImplicit false

namespace Osx360.Ethernet

open Osx360.Lib

/-! ## Effect of the write lists -/

/-- A descriptor after the first of a chain, as the fill loop leaves it. -/
def contDesc (seg : Segment) : Descriptor := ⟨0, txFlagsOwner, seg.location, seg.length⟩

/-- The descriptors after the fill loop has filled the slots from counter `k`. -/
def fillDesc : (Index → Descriptor) → ℕ → List Segment → Index → Descriptor
  | f, _, [] => f
  | f, k, seg :: segs => fillDesc (Function.update f (slot 256 k) (contDesc seg)) (k + 1) segs

theorem applyAll_fillWrites (segs : List Segment) (k : ℕ) (s : TxRing) :
    applyAll (fillWrites (slot 256 k) segs) s = { s with txDesc := fillDesc s.txDesc (k + 1) segs } := by
  induction segs generalizing k s with
  | nil => rfl
  | cons seg segs ih =>
    rw [fillWrites, applyAll_append, txNext_slot, ih (k + 1)]
    simp [TxWrite.apply, TxRing.modifyDesc, fillDesc, contDesc]

theorem lastIndex_slot (segs : List Segment) (k : ℕ) : lastIndex (slot 256 k) segs = slot 256 (k + segs.length) := by
  induction segs generalizing k with
  | nil => rfl
  | cons seg segs ih =>
    rw [lastIndex, txNext_slot, ih, List.length_cons]
    congr 1; omega

/-- The fill loop leaves the other slots alone. -/
theorem fillDesc_of_ne {i : Index} {segs : List Segment} {f : Index → Descriptor} {k : ℕ}
    (h : ∀ j < segs.length, i ≠ slot 256 (k + j)) : fillDesc f k segs i = f i := by
  induction segs generalizing f k with
  | nil => rfl
  | cons seg segs ih =>
    have h0 : i ≠ slot 256 k := by simpa using h 0 (by simp)
    rw [fillDesc, ih fun j hj => ?_, Function.update_of_ne h0]
    have hj' := h (j + 1) (by simpa using hj)
    rwa [show k + 1 + j = k + (j + 1) by omega]

/-- The fill loop writes each segment into its slot. -/
theorem fillDesc_get {segs : List Segment} {f : Index → Descriptor} {k j : ℕ} {seg : Segment}
    (hl : segs.length ≤ 256) (h : segs[j]? = some seg) : fillDesc f k segs (slot 256 (k + j)) = contDesc seg := by
  induction segs generalizing f k j with
  | nil => simp at h
  | cons seg' segs ih =>
    rw [List.length_cons] at hl
    rw [fillDesc]
    cases j with
    | zero =>
      simp only [List.getElem?_cons_zero, Option.some.injEq] at h
      subst h
      rw [fillDesc_of_ne fun j hj => slot_ne (by omega) (by omega), Nat.add_zero, Function.update_self]
    | succ j =>
      rw [List.getElem?_cons_succ] at h
      rw [show k + (j + 1) = k + 1 + j by omega]
      exact ih (by omega) h

/-- The first descriptor of a chain when it is handed off. -/
def headDesc (seg : Segment) (segs : List Segment) (checksumReqs : ChecksumDemand) : Descriptor :=
  ⟨totalLength seg segs, txFlags checksumReqs ||| (txFlagsOwner ||| txFlagsInterrupt), seg.location, seg.length⟩

/-- Filling commutes with a write to another slot. -/
theorem fillDesc_update {i : Index} {d : Descriptor} {segs : List Segment} {f : Index → Descriptor} {k : ℕ}
    (h : ∀ j < segs.length, i ≠ slot 256 (k + j)) :
    fillDesc (Function.update f i d) k segs = Function.update (fillDesc f k segs) i d := by
  induction segs generalizing f k with
  | nil => rfl
  | cons seg segs ih =>
    have h0 : i ≠ slot 256 k := by simpa using h 0 (by simp)
    rw [fillDesc, Function.update_comm h0, ih fun j hj => ?_, fillDesc]
    have hj' := h (j + 1) (by simpa using hj)
    rwa [show k + 1 + j = k + (j + 1) by omega]

/-- The first slot of a chain is none of the slots that the fill loop writes. -/
theorem head_ne_fill {k n : ℕ} (hn : n < 256) : ∀ j < n, slot 256 k ≠ slot 256 (k + 1 + j) :=
  fun j hj => slot_ne (by omega) (by omega)

/-- The ring after an accepted packet, the end-of-ring statement set aside. -/
theorem applyAll_sendWrites (s : TxRing) (k : ℕ) (p : Mbuf) (seg : Segment) {segs : List Segment}
    (reqs : ChecksumDemand) (hl : segs.length < 256) :
    applyAll (sendWrites false (slot 256 k) p seg segs reqs) s =
      { txDesc := Function.update (fillDesc s.txDesc (k + 1) segs) (slot 256 k) (headDesc seg segs reqs)
        txDescStates := Function.update s.txDescStates (slot 256 k) ⟨some p, segs.length + 1⟩
        txReadIndex := s.txReadIndex
        txWriteIndex := slot 256 (k + (segs.length + 1)) } := by
  have hne := head_ne_fill (k := k) hl
  simp only [sendWrites, chainWrites, handoffWrites, applyAll_append, lastIndex_slot, txNext_slot]
  simp only [applyAll_cons, applyAll_nil, TxWrite.apply, TxRing.modifyDesc, TxRing.modifyState]
  rw [applyAll_fillWrites]
  simp [fillDesc_update hne, headDesc, Nat.add_assoc]

/-- A change of a length word commutes with the writes that publish and hand off a chain. -/
theorem applyAll_handoff_comm (t : TxRing) (w i : Index) (segs : List Segment) (reqs : ChecksumDemand)
    (f : Word → Word) :
    applyAll (handoffWrites w segs reqs) (t.modifyDesc i fun d => { d with length := f d.length }) =
      (applyAll (handoffWrites w segs reqs) t).modifyDesc i fun d => { d with length := f d.length } := by
  simp only [handoffWrites, applyAll_cons, applyAll_nil, TxWrite.apply, TxRing.modifyDesc]
  by_cases h : w = i
  · subst h; simp
  · simp [Function.update_of_ne h, Function.update_of_ne (Ne.symm h), Function.update_comm h]

/-- The end-of-ring statement commutes with the writes after it. -/
theorem applyAll_sendWrites_end (w : Index) (p : Mbuf) (seg : Segment) (segs : List Segment) (reqs : ChecksumDemand)
    (s : TxRing) : applyAll (sendWrites true w p seg segs reqs) s =
      applyAll (endWrites w segs) (applyAll (sendWrites false w p seg segs reqs) s) := by
  simp only [sendWrites, applyAll_append, if_true, Bool.false_eq_true, if_false, applyAll_nil]
  unfold endWrites
  split
  · cases descPointer w segs with
    | none => rfl
    | some i => exact applyAll_handoff_comm _ w i segs reqs fun l => l ||| descLengthEnd
  · rfl

/-- The clearing loop: the flags of `n` slots from counter `k` become 0. -/
def clearDesc : (Index → Descriptor) → ℕ → ℕ → Index → Descriptor
  | f, _, 0 => f
  | f, k, n + 1 => clearDesc (Function.update f (slot 256 k) { f (slot 256 k) with flags := 0 }) (k + 1) n

theorem applyAll_clearWrites (n k : ℕ) (s : TxRing) (h : s.txReadIndex = slot 256 k) :
    applyAll (clearWrites (slot 256 k) n) s =
      { s with txDesc := clearDesc s.txDesc k n, txReadIndex := slot 256 (k + n) } := by
  induction n generalizing k s with
  | zero =>
    rw [Nat.add_zero, ← h]
    rfl
  | succ n ih =>
    rw [clearWrites, applyAll_append, txNext_slot, ih (k + 1)]
    · simp [TxWrite.apply, TxRing.modifyDesc, clearDesc, show k + 1 + n = k + (n + 1) by omega]
    · rfl

theorem clearDesc_of_ne {i : Index} {n : ℕ} {f : Index → Descriptor} {k : ℕ}
    (h : ∀ j < n, i ≠ slot 256 (k + j)) : clearDesc f k n i = f i := by
  induction n generalizing f k with
  | zero => rfl
  | succ n ih =>
    have h0 : i ≠ slot 256 k := by simpa using h 0 (by omega)
    rw [clearDesc, ih fun j hj => ?_, Function.update_of_ne h0]
    have hj' := h (j + 1) (by omega)
    rwa [show k + 1 + j = k + (j + 1) by omega]

/-- The clearing loop clears the flags of each of its slots, and nothing else there. -/
theorem clearDesc_get {n j : ℕ} {f : Index → Descriptor} {k : ℕ} (hn : n ≤ 256) (h : j < n) :
    clearDesc f k n (slot 256 (k + j)) = { f (slot 256 (k + j)) with flags := 0 } := by
  induction n generalizing f k j with
  | zero => omega
  | succ n ih =>
    rw [clearDesc]
    cases j with
    | zero =>
      rw [clearDesc_of_ne fun j hj => slot_ne (by omega) (by omega), Nat.add_zero, Function.update_self]
    | succ j =>
      rw [show k + (j + 1) = k + 1 + j by omega, ih (by omega) (by omega),
        Function.update_of_ne (slot_ne (by omega) (by omega)).symm]

theorem clearDesc_flags {n j : ℕ} {f : Index → Descriptor} {k : ℕ} (hn : n ≤ 256) (h : j < n) :
    (clearDesc f k n (slot 256 (k + j))).flags = 0 := by
  rw [clearDesc_get hn h]

/-! ## The descriptors written -/

/-- Every descriptor written is one of the `n` from index `w` on. -/
def WritesInChain (w : Index) (n : ℕ) (writes : List TxWrite) : Prop :=
  ∀ x ∈ writes, ∀ d, x.descriptor = some d → ∃ i < n, d = some (slot 256 (w.val + i))

theorem mem_fillWrites {x : TxWrite} {segs : List Segment} {k : ℕ} (h : x ∈ fillWrites (slot 256 k) segs) :
    ∃ i, 1 ≤ i ∧ i ≤ segs.length ∧ x.descriptor = some (some (slot 256 (k + i))) := by
  induction segs generalizing k with
  | nil => cases h
  | cons seg segs ih =>
    rw [fillWrites, List.mem_append, txNext_slot] at h
    rcases h with h | h
    · refine ⟨1, Nat.le_refl 1, by rw [List.length_cons]; omega, ?_⟩
      simp only [List.mem_cons, List.not_mem_nil, or_false] at h
      rcases h with rfl | rfl | rfl | rfl <;> rfl
    · obtain ⟨i, h1, h2, h3⟩ := ih h
      refine ⟨i + 1, by omega, by rw [List.length_cons]; omega, ?_⟩
      rw [h3, show k + 1 + i = k + (i + 1) by omega]

theorem sendWrites_inChain {w : Index} {p : Mbuf} {seg : Segment} {segs : List Segment} {reqs : ChecksumDemand} :
    WritesInChain w (segs.length + 1) (sendWrites false w p seg segs reqs) := by
  have hself : slot 256 (w.val + 0) = w := slot_val_self w
  intro x hx d hd
  simp only [sendWrites, chainWrites, handoffWrites, Bool.false_eq_true, if_false, List.append_nil, List.mem_append,
    List.mem_cons, List.not_mem_nil, or_false] at hx
  rcases hx with (((rfl | rfl | rfl) | hx) | rfl | rfl | rfl) | rfl | rfl | rfl <;>
    first
    | exact ⟨0, by omega, by rw [hself]; exact (Option.some.inj hd).symm⟩
    | cases hd
    | skip
  obtain ⟨i, h1, h2, h3⟩ := mem_fillWrites (k := w.val) (by rw [slot_val_self]; exact hx)
  rw [h3] at hd
  exact ⟨i, by omega, (Option.some.inj hd).symm⟩

theorem mem_clearWrites {x : TxWrite} {n k : ℕ} (h : x ∈ clearWrites (slot 256 k) n) :
    (∃ i < n, x = .flags (slot 256 (k + i)) 0) ∨ ∃ j, x = .readIndex j := by
  induction n generalizing k with
  | zero => cases h
  | succ n ih =>
    rw [clearWrites, List.cons_append, List.cons_append, List.nil_append, List.mem_cons, List.mem_cons,
      txNext_slot] at h
    rcases h with rfl | rfl | h
    · exact Or.inl ⟨0, by omega, rfl⟩
    · exact Or.inr ⟨_, rfl⟩
    · rcases ih h with ⟨i, hi, rfl⟩ | h
      · exact Or.inl ⟨i + 1, by omega, by rw [show k + 1 + i = k + (i + 1) by omega]⟩
      · exact Or.inr h

/-! ## Chains on the ring -/

/-- An accepted packet with the segments of its chain. -/
structure Chain where
  packet : Mbuf
  segs : List Segment

namespace Chain

def count (c : Chain) : ℕ := c.segs.length

end Chain

/-- The state array holds the chain at counter `k`: the packet and its segment count in the first slot, nothing in the
others. -/
def HoldsState (s : TxRing) (k : ℕ) (c : Chain) : Prop :=
  s.txDescStates (slot 256 k) = ⟨some c.packet, c.count⟩ ∧
    ∀ i, 1 ≤ i → i < c.count → s.txDescStates (slot 256 (k + i)) = .empty

/-- The ring holds exactly the chains, one after another, from `txReadIndex` up to `txWriteIndex`. -/
structure Tiled (s : TxRing) (cs : List Chain) (r : ℕ) : Prop where
  read : s.txReadIndex = slot 256 r
  write : s.txWriteIndex = slot 256 (r + span Chain.count cs)
  used : span Chain.count cs ≤ 255
  counts : ∀ c ∈ cs, 1 ≤ c.count ∧ c.count ≤ txMaxSegCount
  holds : Layout Chain.count (HoldsState s) r cs
  free : ∀ k, r + span Chain.count cs ≤ k → k < r + 256 → s.txDescStates (slot 256 k) = .empty

/-- The first descriptor at the counter is owned by the hardware, or is not. -/
def HeadOwned (s : TxRing) (b : Bool) (k : ℕ) (_ : Chain) : Prop := (s.txDesc (slot 256 k)).owned = b

/-- The ring is the queue: besides the tiling, the hardware owns the first descriptor of the pending chains, of no
completed chain, and no descriptor outside the chains. -/
structure Tracks (s : TxRing) (q : Fifo Chain) (r : ℕ) : Prop where
  tiled : Tiled s q.outstanding r
  done : Layout Chain.count (HeadOwned s false) r q.completed
  busy : Layout Chain.count (HeadOwned s true) (r + span Chain.count q.completed) q.pending
  clear : ∀ k, r + span Chain.count q.outstanding ≤ k → k < r + 256 → (s.txDesc (slot 256 k)).owned = false

/-- The tiling is one of the state array and the indices. -/
theorem Tiled.congr {s t : TxRing} {cs : List Chain} {r : ℕ} (h : Tiled s cs r)
    (hs : t.txDescStates = s.txDescStates) (hr : t.txReadIndex = s.txReadIndex)
    (hw : t.txWriteIndex = s.txWriteIndex) : Tiled t cs r := by
  refine ⟨hr.trans h.read, hw.trans h.write, h.used, h.counts, ?_, ?_⟩
  · exact h.holds.mono fun k c _ _ _ hk => by unfold HoldsState; rw [hs]; exact hk
  · intro k h1 h2; rw [hs]; exact h.free k h1 h2

/-- Only ownership, the state array and the indices matter. -/
theorem Tracks.congr {s t : TxRing} {q : Fifo Chain} {r : ℕ} (h : Tracks s q r)
    (hd : ∀ i, (t.txDesc i).owned = (s.txDesc i).owned) (hs : t.txDescStates = s.txDescStates)
    (hr : t.txReadIndex = s.txReadIndex) (hw : t.txWriteIndex = s.txWriteIndex) : Tracks t q r := by
  refine ⟨h.tiled.congr hs hr hw, ?_, ?_, ?_⟩
  · exact h.done.mono fun k c _ _ _ hk => (hd _).trans hk
  · exact h.busy.mono fun k c _ _ _ hk => (hd _).trans hk
  · intro k h1 h2; exact (hd _).trans (h.clear k h1 h2)

theorem owned_headDesc (seg : Segment) (segs : List Segment) (reqs : ChecksumDemand) :
    (headDesc seg segs reqs).owned = true := by
  simp [headDesc, Descriptor.owned, txFlagsOwner, txFlagsInterrupt, has_or, has_bit_bit]

/-! ## Windows of the ring -/

/-- The rings agree on the slots of the counters from `a` up to `b`. -/
def AgreeOn (s t : TxRing) (a b : ℕ) : Prop :=
  ∀ j, a ≤ j → j < b → t.txDesc (slot 256 j) = s.txDesc (slot 256 j) ∧
    t.txDescStates (slot 256 j) = s.txDescStates (slot 256 j)

section Agree

variable {s t : TxRing} {a b k : ℕ} {cs : List Chain}

theorem AgreeOn.symm (h : AgreeOn s t a b) : AgreeOn t s a b := fun j h1 h2 => ⟨(h j h1 h2).1.symm, (h j h1 h2).2.symm⟩

theorem AgreeOn.holdsState {c : Chain} (h : AgreeOn s t a b) (ha : a ≤ k) (hb : k + c.count ≤ b) (hc : 1 ≤ c.count)
    (hh : HoldsState s k c) : HoldsState t k c := by
  refine ⟨by rw [(h k ha (by omega)).2]; exact hh.1, fun i hi1 hi2 => ?_⟩
  rw [(h (k + i) (by omega) (by omega)).2]
  exact hh.2 i hi1 hi2

theorem AgreeOn.holds (h : AgreeOn s t a b) (ha : a ≤ k) (hb : k + span Chain.count cs ≤ b)
    (hpos : ∀ c ∈ cs, 1 ≤ c.count) (hl : Layout Chain.count (HoldsState s) k cs) :
    Layout Chain.count (HoldsState t) k cs :=
  hl.mono fun _ c hc h1 h2 hh => h.holdsState (by omega) (by omega) (hpos c hc) hh

theorem AgreeOn.headOwned {o : Bool} (h : AgreeOn s t a b) (ha : a ≤ k) (hb : k + span Chain.count cs ≤ b)
    (hpos : ∀ c ∈ cs, 1 ≤ c.count) (hl : Layout Chain.count (HeadOwned s o) k cs) :
    Layout Chain.count (HeadOwned t o) k cs := by
  refine hl.mono fun j c hc h1 h2 hh => ?_
  have hc1 := hpos c hc
  unfold HeadOwned
  rw [(h j (by omega) (by omega)).1]
  exact hh

end Agree

/-! ## Sending -/

section Send

variable {s : TxRing} {q : Fifo Chain} {cs : List Chain} {r : ℕ} {seg : Segment} {segs : List Segment}

/-- There is no room for a chain of the largest size exactly if more than 247 descriptors are in use. -/
theorem Tiled.no_room_iff (h : Tiled s cs r) :
    txFree s.txReadIndex s.txWriteIndex < txMaxSegCount ↔ 247 < span Chain.count cs := by
  have hu := h.used
  rw [h.read, h.write, txFree_slot (by omega) (by omega), txMaxSegCount]
  omega

/-- There is room for a chain of the largest size. -/
theorem Tiled.room (h : Tiled s cs r) (hfree : ¬ txFree s.txReadIndex s.txWriteIndex < txMaxSegCount) :
    span Chain.count cs ≤ 247 :=
  Nat.le_of_not_lt (mt h.no_room_iff.mpr hfree)

/-- Without that room some chain is outstanding. -/
theorem Tiled.no_room (h : Tiled s cs r) (hfree : txFree s.txReadIndex s.txWriteIndex < txMaxSegCount) : cs ≠ [] := by
  rw [h.no_room_iff] at hfree
  rintro rfl
  simp at hfree

/-- The slots outside the new chain keep their descriptor and state. -/
theorem send_frame (s : TxRing) (p : Mbuf) (seg : Segment) (reqs : ChecksumDemand) {k j : ℕ}
    (hl : segs.length < 256) (hj : j < k ∧ k + segs.length < j + 256 ∨ k + segs.length < j ∧ j < k + 256) :
    (applyAll (sendWrites false (slot 256 k) p seg segs reqs) s).txDesc (slot 256 j) = s.txDesc (slot 256 j) ∧
      (applyAll (sendWrites false (slot 256 k) p seg segs reqs) s).txDescStates (slot 256 j) =
        s.txDescStates (slot 256 j) := by
  have hne : ∀ i ≤ segs.length, slot 256 j ≠ slot 256 (k + i) := by
    intro i hi
    rcases hj with hj | hj
    · exact slot_ne (by omega) (by omega)
    · exact (slot_ne (by omega) (by omega)).symm
  have h0 : slot 256 j ≠ slot 256 k := hne 0 (by omega)
  rw [applyAll_sendWrites s k p seg reqs hl]
  refine ⟨(Function.update_of_ne h0 _ _).trans (fillDesc_of_ne fun i hi => ?_), Function.update_of_ne h0 _ _⟩
  have hi1 := hne (i + 1) (by omega)
  rwa [show k + 1 + i = k + (i + 1) by omega]

/-- A chain put behind the others. -/
theorem Tiled.append {t : TxRing} {c : Chain} (h : Tiled s cs r) (hc : 1 ≤ c.count ∧ c.count ≤ txMaxSegCount)
    (hu : span Chain.count cs + c.count ≤ 255) (hread : t.txReadIndex = s.txReadIndex)
    (hwrite : t.txWriteIndex = slot 256 (r + span Chain.count cs + c.count))
    (hlive : AgreeOn s t r (r + span Chain.count cs))
    (hrest : AgreeOn s t (r + span Chain.count cs + c.count) (r + 256))
    (hnew : HoldsState t (r + span Chain.count cs) c) : Tiled t (cs ++ [c]) r := by
  refine ⟨hread.trans h.read, ?_, ?_, ?_, ?_, ?_⟩
  · rw [hwrite, span_append, span_cons, span_nil, Nat.add_zero, Nat.add_assoc]
  · rw [span_append, span_cons, span_nil, Nat.add_zero]; exact hu
  · intro d hd
    rcases List.mem_append.mp hd with hd | hd
    · exact h.counts d hd
    · rw [List.mem_singleton.mp hd]; exact hc
  · rw [layout_append]
    exact ⟨hlive.holds (Nat.le_refl r) (Nat.le_refl _) (fun d hd => (h.counts d hd).1) h.holds, hnew, trivial⟩
  · intro k h1 h2
    rw [span_append, span_cons, span_nil, Nat.add_zero] at h1
    rw [(hrest k (by omega) h2).2]
    exact h.free k (by omega) h2

/-- An accepted packet is put behind the chains, and leaves the slots of the others alone. -/
theorem Tiled.send (h : Tiled s cs r) (hfree : ¬ txFree s.txReadIndex s.txWriteIndex < txMaxSegCount) (p : Mbuf)
    (seg : Segment) (reqs : ChecksumDemand) (hl : segs.length + 1 ≤ txMaxSegCount) :
    ∃ t, applyAll (sendWrites false s.txWriteIndex p seg segs reqs) s = t ∧ Tiled t (cs ++ [⟨p, seg :: segs⟩]) r ∧
      AgreeOn s t r (r + span Chain.count cs) ∧
      AgreeOn s t (r + span Chain.count cs + (segs.length + 1)) (r + 256) ∧
      (t.txDesc (slot 256 (r + span Chain.count cs))).owned = true := by
  have hroom := h.room hfree
  have h8 : segs.length + 1 ≤ 8 := hl
  have hcount : Chain.count ⟨p, seg :: segs⟩ = segs.length + 1 := rfl
  rw [h.write]
  obtain ⟨w, hw⟩ : ∃ w, w = r + span Chain.count cs := ⟨_, rfl⟩
  have hl' : segs.length < 256 := by omega
  have heq := applyAll_sendWrites s w p seg reqs hl'
  have hframe := fun j hj => send_frame s p seg reqs (k := w) (j := j) hl' hj
  rw [← hw]
  refine ⟨_, rfl, ?_⟩
  generalize applyAll (sendWrites false (slot 256 w) p seg segs reqs) s = t at *
  have hlive : AgreeOn s t r w := fun j h1 h2 => hframe j (Or.inl ⟨h2, by omega⟩)
  have hrest : AgreeOn s t (w + (segs.length + 1)) (r + 256) := fun j h1 h2 => hframe j (Or.inr ⟨by omega, by omega⟩)
  have hnew : HoldsState t w ⟨p, seg :: segs⟩ := by
    refine ⟨by rw [heq]; exact Function.update_self _ _ _, fun i hi1 hi2 => ?_⟩
    rw [hcount] at hi2
    rw [heq]
    exact (Function.update_of_ne (slot_ne (by omega) (by omega)).symm _ _).trans (h.free _ (by omega) (by omega))
  have hhead : (t.txDesc (slot 256 w)).owned = true := by
    rw [heq]
    simp only [Function.update_self]
    exact owned_headDesc _ _ _
  refine ⟨?_, hlive, hrest, hhead⟩
  refine h.append ⟨by omega, hl⟩ (by omega) (by rw [heq]) (by rw [heq, ← hw, hcount]) ?_ ?_ ?_
  · rw [← hw]; exact hlive
  · rw [← hw, hcount]; exact hrest
  · rw [← hw]; exact hnew

theorem Tracks.send (h : Tracks s q r) (hfree : ¬ txFree s.txReadIndex s.txWriteIndex < txMaxSegCount) (p : Mbuf)
    (reqs : ChecksumDemand) (hl : segs.length + 1 ≤ txMaxSegCount) :
    Tracks (applyAll (sendWrites false s.txWriteIndex p seg segs reqs) s) (q.accept ⟨p, seg :: segs⟩) r := by
  obtain ⟨hT, hdone, hbusy, hclear⟩ := h
  have hsum : span Chain.count q.outstanding = span Chain.count q.completed + span Chain.count q.pending := by
    simp [Fifo.outstanding]
  have hcount : Chain.count ⟨p, seg :: segs⟩ = segs.length + 1 := rfl
  have hpos := fun c hc => (hT.counts c hc).1
  obtain ⟨t, rfl, hTt, hlive, hrest, hhead⟩ := hT.send hfree p seg reqs hl
  refine ⟨?_, ?_, ?_, ?_⟩
  · rw [Fifo.outstanding_accept]
    exact hTt
  · show Layout Chain.count _ r q.completed
    exact hlive.headOwned (Nat.le_refl r) (by omega) (fun c hc => hpos c (List.mem_append_left _ hc)) hdone
  · show Layout Chain.count _ (r + span Chain.count q.completed) (q.pending ++ [⟨p, seg :: segs⟩])
    rw [layout_append]
    refine ⟨?_, ?_, trivial⟩
    · exact hlive.headOwned (Nat.le_add_right r _) (by omega) (fun c hc => hpos c (List.mem_append_right _ hc)) hbusy
    · unfold HeadOwned
      rw [Nat.add_assoc, ← hsum]
      exact hhead
  · intro j h1 h2
    rw [Fifo.outstanding_accept, span_append, span_cons, span_nil, hcount] at h1
    rw [(hrest j (by omega) h2).1]
    exact hclear j (by omega) h2

/-- The end-of-ring statement changes no ownership, state or index. -/
theorem applyAll_endWrites (w : Index) (segs : List Segment) (s : TxRing) :
    (∀ i, ((applyAll (endWrites w segs) s).txDesc i).owned = (s.txDesc i).owned) ∧
      (applyAll (endWrites w segs) s).txDescStates = s.txDescStates ∧
      (applyAll (endWrites w segs) s).txReadIndex = s.txReadIndex ∧
      (applyAll (endWrites w segs) s).txWriteIndex = s.txWriteIndex := by
  unfold endWrites
  split
  · cases descPointer w segs with
    | none => exact ⟨fun _ => rfl, rfl, rfl, rfl⟩
    | some d =>
      refine ⟨fun i => ?_, rfl, rfl, rfl⟩
      simp only [applyAll_cons, applyAll_nil, TxWrite.apply, TxRing.modifyDesc]
      by_cases h : i = d
      · subst h; simp [Descriptor.owned]
      · rw [Function.update_of_ne h]
  · exact ⟨fun _ => rfl, rfl, rfl, rfl⟩

/-- The same with the end-of-ring statement. -/
theorem Tracks.send_any (h : Tracks s q r) (hfree : ¬ txFree s.txReadIndex s.txWriteIndex < txMaxSegCount) (p : Mbuf)
    (reqs : ChecksumDemand) (hl : segs.length + 1 ≤ txMaxSegCount) (endStmt : Bool) :
    Tracks (applyAll (sendWrites endStmt s.txWriteIndex p seg segs reqs) s) (q.accept ⟨p, seg :: segs⟩) r := by
  cases endStmt with
  | false => exact h.send hfree p reqs hl
  | true =>
    rw [applyAll_sendWrites_end]
    obtain ⟨hd, hs, hr, hw⟩ := applyAll_endWrites s.txWriteIndex segs
      (applyAll (sendWrites false s.txWriteIndex p seg segs reqs) s)
    exact (h.send hfree p reqs hl).congr hd hs hr hw

end Send

/-! ## Completion by the hardware -/

/-- The hardware gives a descriptor back. -/
def clearOwner (i : Index) (s : TxRing) : TxRing :=
  s.modifyDesc i fun d => { d with flags := d.flags &&& ~~~txFlagsOwner }

theorem owned_clearOwner_self (i : Index) (s : TxRing) : ((clearOwner i s).txDesc i).owned = false := by
  have hclear : has ((s.txDesc i).flags &&& ~~~txFlagsOwner) txFlagsOwner = false := has_acked (by decide) (by decide)
  simp [clearOwner, TxRing.modifyDesc, Descriptor.owned, hclear]

theorem clearOwner_of_ne {i j : Index} (h : j ≠ i) (s : TxRing) : (clearOwner i s).txDesc j = s.txDesc j :=
  Function.update_of_ne h _ _

/-- Giving a descriptor back gives the hardware none. -/
theorem owned_clearOwner (i : Index) {j : Index} {s : TxRing} (h : (s.txDesc j).owned = false) :
    ((clearOwner i s).txDesc j).owned = false := by
  by_cases hj : j = i
  · rw [hj]
    exact owned_clearOwner_self i s
  · rw [clearOwner_of_ne hj]
    exact h

/-- The counter at which the oldest pending chain starts. -/
def hardwareCounter (q : Fifo Chain) (r : ℕ) : ℕ := r + span Chain.count q.completed

theorem Tracks.complete {s : TxRing} {q : Fifo Chain} {r : ℕ} {c : Chain} {rest : List Chain} (h : Tracks s q r)
    (hq : q.pending = c :: rest) : Tracks (clearOwner (slot 256 (hardwareCounter q r)) s) q.complete r := by
  obtain ⟨hT, hdone, hbusy, hclear⟩ := h
  obtain ⟨k, hk⟩ : ∃ k, k = hardwareCounter q r := ⟨_, rfl⟩
  have hsum : span Chain.count q.outstanding = span Chain.count q.completed + (c.count + span Chain.count rest) := by
    simp [Fifo.outstanding, hq]
  have hu := hT.used
  have hpos := fun d hd => (hT.counts d hd).1
  have hc1 : 1 ≤ c.count := hpos c (by simp [Fifo.outstanding, hq])
  have hcomplete := Fifo.complete_of_cons hq
  have hother : ∀ j, j ≠ k → r ≤ j → j < r + 256 →
      (clearOwner (slot 256 k) s).txDesc (slot 256 j) = s.txDesc (slot 256 j) := by
    intro j hj h1 h2
    unfold hardwareCounter at hk
    exact clearOwner_of_ne (slot_ne_of_window ⟨h1, h2⟩ ⟨by omega, by omega⟩ hj) s
  unfold hardwareCounter at hk
  rw [hq] at hbusy
  rw [show hardwareCounter q r = k from hk.symm]
  refine ⟨?_, ?_, ?_, ?_⟩
  · rw [Fifo.outstanding_complete]
    exact ⟨hT.read, hT.write, hT.used, hT.counts, hT.holds, hT.free⟩
  · rw [hcomplete]
    show Layout Chain.count _ r (q.completed ++ [c])
    rw [layout_append]
    refine ⟨?_, ?_, trivial⟩
    · have hag : AgreeOn s (clearOwner (slot 256 k) s) r k := fun j h1 h2 => ⟨hother j (by omega) h1 (by omega), rfl⟩
      exact hag.headOwned (Nat.le_refl r) (by omega) (fun d hd => hpos d (List.mem_append_left _ hd)) hdone
    · unfold HeadOwned
      rw [← hk]
      exact owned_clearOwner_self _ _
  · rw [hcomplete]
    show Layout Chain.count _ (r + span Chain.count (q.completed ++ [c])) rest
    rw [span_append, span_cons, span_nil, Nat.add_zero, ← Nat.add_assoc]
    have hag : AgreeOn s (clearOwner (slot 256 k) s) (k + 1) (r + 256) :=
      fun j h1 h2 => ⟨hother j (by omega) (by omega) h2, rfl⟩
    exact hag.headOwned (by omega) (by omega) (fun d hd => hpos d (by simp [Fifo.outstanding, hq, hd])) hbusy.2
  · intro j h1 h2
    rw [Fifo.outstanding_complete] at h1
    exact owned_clearOwner _ (hclear j h1 h2)

/-! ## The interrupt loop -/

section Handle

variable {s : TxRing} {q : Fifo Chain} {r : ℕ} {c : Chain} {rest : List Chain}

/-- With no chain outstanding the loop stops. -/
theorem Tiled.ready_nil (h : Tiled s [] r) : txReady s = false := by
  have he : s.txReadIndex = s.txWriteIndex := by rw [h.read, h.write]; rfl
  simp [txReady, he]

/-- Otherwise it goes on if the oldest chain has been given back. -/
theorem Tiled.ready_cons (h : Tiled s (c :: rest) r) : txReady s = !(s.txDesc (slot 256 r)).owned := by
  have hpos := (h.counts c List.mem_cons_self).1
  have hu := h.used
  rw [span_cons] at hu
  have hne : s.txReadIndex ≠ s.txWriteIndex := by
    rw [h.read, h.write, span_cons]
    exact slot_ne (by omega) (by omega)
  rw [h.read] at hne
  simp [txReady, h.read, hne]

/-- With a completed chain the loop goes on. -/
theorem Tracks.ready (h : Tracks s q r) (hq : q.completed = c :: rest) : txReady s = true := by
  have hT := h.tiled
  rw [Fifo.outstanding, hq, List.cons_append] at hT
  have hd := h.done
  rw [hq] at hd
  rw [hT.ready_cons, hd.1]
  rfl

/-- Without a completed chain it stops. -/
theorem Tracks.not_ready (h : Tracks s q r) (hq : q.completed = []) : txReady s = false := by
  have hT := h.tiled
  rw [Fifo.outstanding, hq, List.nil_append] at hT
  cases hp : q.pending with
  | nil =>
    rw [hp] at hT
    exact hT.ready_nil
  | cons c rest =>
    have hb := h.busy
    rw [hp, hq, span_nil, Nat.add_zero] at hb
    rw [hp] at hT
    rw [hT.ready_cons, hb.1]
    rfl

/-- The ring after one round, and the packet that the round frees. -/
theorem reclaim_eq (hr : s.txReadIndex = slot 256 r) (h : HoldsState s r c) :
    reclaimFreed s = [c.packet] ∧ reclaim s =
      { txDesc := clearDesc s.txDesc r c.count
        txDescStates := Function.update s.txDescStates (slot 256 r) .empty
        txReadIndex := slot 256 (r + c.count)
        txWriteIndex := s.txWriteIndex } := by
  unfold reclaim reclaimFreed reclaimWrites
  rw [hr, h.1, applyAll_append]
  simp only [applyAll_append, applyAll_cons, applyAll_nil, TxWrite.apply, TxRing.modifyState]
  rw [applyAll_clearWrites _ _ _ (by exact hr)]
  simp [TxDescState.empty]

/-- The slots of the freed chain are empty afterwards, the others unchanged. -/
theorem reclaim_slots (hr : s.txReadIndex = slot 256 r) (h : HoldsState s r c) (hc : 1 ≤ c.count)
    (hle : c.count ≤ 256) :
    AgreeOn s (reclaim s) (r + c.count) (r + 256) ∧
      ∀ i < c.count, ((reclaim s).txDesc (slot 256 (r + i))).owned = false ∧
        (reclaim s).txDescStates (slot 256 (r + i)) = .empty := by
  rw [(reclaim_eq hr h).2]
  constructor
  · intro j h1 h2
    refine ⟨clearDesc_of_ne fun i hi => (slot_ne (by omega) (by omega)).symm, ?_⟩
    exact Function.update_of_ne (slot_ne (by omega) (by omega)).symm _ _
  · intro i hi
    constructor
    · unfold Descriptor.owned
      rw [clearDesc_flags hle hi]
      exact has_zero _
    · rcases Nat.eq_zero_or_pos i with rfl | hpos
      · exact Function.update_self _ _ _
      · exact (Function.update_of_ne (slot_ne (by omega) (by omega)).symm _ _).trans (h.2 i hpos hi)

/-- A slot outside the remaining chains was outside all chains or is one of the freed chain. -/
theorem free_after {P : Index → Prop} {n m : ℕ} (hm : m ≤ 256) (hold : ∀ k, r + n ≤ k → k < r + 256 → P (slot 256 k))
    (hnew : ∀ i < m, P (slot 256 (r + i))) : ∀ k, r + n ≤ k → k < r + m + 256 → P (slot 256 k) := by
  intro k h1 h2
  rcases Nat.lt_or_ge k (r + 256) with h | h
  · exact hold k h1 h
  · have hP := hnew (k - 256 - r) (by omega)
    rwa [show r + (k - 256 - r) = k - 256 by omega, ← slot_add_self, show k - 256 + 256 = k by omega] at hP

/-- A round takes the oldest chain off the ring, completed or not. -/
theorem Tiled.reclaim {cs : List Chain} (h : Tiled s (c :: cs) r) : Tiled (reclaim s) cs (r + c.count) := by
  have hu := h.used
  have hposall := fun d hd => (h.counts d hd).1
  rw [span_cons] at hu
  have hh := h.holds
  obtain ⟨_, heq⟩ := reclaim_eq h.read hh.1
  obtain ⟨hag, hgone⟩ := reclaim_slots h.read hh.1 (hposall c List.mem_cons_self) (by omega)
  refine ⟨?_, ?_, ?_, ?_, ?_, ?_⟩
  · rw [heq]
  · rw [heq]
    show s.txWriteIndex = _
    rw [h.write, span_cons, Nat.add_assoc]
  · omega
  · exact fun d hd => h.counts d (List.mem_cons_of_mem _ hd)
  · exact hag.holds (Nat.le_refl _) (by omega) (fun d hd => hposall d (List.mem_cons_of_mem _ hd)) hh.2
  · rw [Nat.add_assoc]
    refine free_after (P := fun i => (Ethernet.reclaim s).txDescStates i = .empty) (by omega) (fun k h1 h2 => ?_)
      fun i hi => (hgone i hi).2
    rw [(hag k (by omega) h2).2]
    exact h.free k (by rw [span_cons]; exact h1) h2

theorem Tracks.reclaim (h : Tracks s q r) (hq : q.completed = c :: rest) :
    reclaimFreed s = [c.packet] ∧ Tracks (reclaim s) q.releaseOne (r + c.count) := by
  obtain ⟨hT, hdone, hbusy, hclear⟩ := h
  have hout : q.outstanding = c :: (rest ++ q.pending) := by simp [Fifo.outstanding, hq]
  have hu := hT.used
  have hposall := fun d hd => (hT.counts d hd).1
  have hpos := hposall c (by simp [hout])
  have hspan : span Chain.count q.outstanding = c.count + span Chain.count (rest ++ q.pending) := by simp [hout]
  have hsum : span Chain.count (rest ++ q.pending) = span Chain.count rest + span Chain.count q.pending := by simp
  rw [hout] at hT
  obtain ⟨hfreed, _⟩ := reclaim_eq hT.read hT.holds.1
  obtain ⟨hag, hgone⟩ := reclaim_slots hT.read hT.holds.1 hpos (by omega)
  rw [Fifo.releaseOne_of_cons hq]
  rw [hq] at hdone hbusy
  refine ⟨hfreed, hT.reclaim, ?_, ?_, ?_⟩
  · show Layout Chain.count _ (r + c.count) rest
    exact hag.headOwned (Nat.le_refl _) (by omega) (fun d hd => hposall d (by simp [hout, hd])) hdone.2
  · show Layout Chain.count _ (r + c.count + span Chain.count rest) q.pending
    rw [span_cons, ← Nat.add_assoc] at hbusy
    exact hag.headOwned (by omega) (by omega) (fun d hd => hposall d (by simp [hout, hd])) hbusy
  · show ∀ k, r + c.count + span Chain.count (rest ++ q.pending) ≤ k → _
    rw [Nat.add_assoc, ← hspan]
    refine free_after (P := fun i => ((Ethernet.reclaim s).txDesc i).owned = false) (by omega) (fun k h1 h2 => ?_)
      fun i hi => (hgone i hi).1
    rw [(hag k (by omega) h2).1]
    exact hclear k h1 h2

/-- The loop frees the packets of the completed chains in order and leaves the others. -/
theorem Tracks.handleLoop {fuel : ℕ} {s : TxRing} {q : Fifo Chain} {r : ℕ} (h : Tracks s q r)
    (hf : q.completed.length < fuel) : ∃ t, handleTxLoop fuel s = some (q.completed.map Chain.packet, t) ∧
      Tracks t q.release (r + span Chain.count q.completed) := by
  induction fuel generalizing s q r with
  | zero => omega
  | succ fuel ih =>
    cases hq : q.completed with
    | nil =>
      refine ⟨s, ?_, by rw [Fifo.release_of_nil hq, span_nil]; exact h⟩
      rw [handleTxLoop, if_neg (by simp [h.not_ready hq])]
      rfl
    | cons c rest =>
      obtain ⟨hfreed, htr⟩ := h.reclaim hq
      have hrest : q.releaseOne.completed = rest := by rw [Fifo.releaseOne_of_cons hq]
      rw [hq, List.length_cons] at hf
      obtain ⟨t, ht, htt⟩ := ih htr (by rw [hrest]; omega)
      refine ⟨t, ?_, ?_⟩
      · rw [handleTxLoop, if_pos (h.ready hq), ht, hrest, hfreed]
        rfl
      · rw [Fifo.release_releaseOne hq, hrest] at htt
        rw [span_cons, ← Nat.add_assoc]
        exact htt

/-- Chains have at least one descriptor each. -/
theorem length_le_span {cs : List Chain} (h : ∀ c ∈ cs, 1 ≤ c.count) : cs.length ≤ span Chain.count cs := by
  induction cs with
  | nil => exact Nat.le_refl 0
  | cons c cs ih =>
    have h1 := h c List.mem_cons_self
    have h2 := ih fun d hd => h d (List.mem_cons_of_mem _ hd)
    rw [List.length_cons, span_cons]
    omega

/-- **The interrupt handler releases exactly the completed chains.** -/
theorem Tracks.handle (h : Tracks s q r) :
    ∃ t, handleTxInterrupt s = some (q.completed.map Chain.packet, t) ∧
      Tracks t q.release (r + span Chain.count q.completed) := by
  refine h.handleLoop ?_
  have h1 := length_le_span fun c hc => (h.tiled.counts c hc).1
  have h2 := h.tiled.used
  have h3 : q.outstanding.length = q.completed.length + q.pending.length := List.length_append
  unfold txDescCount
  omega

end Handle

/-! ## The hardware's share -/

/-- The ring is the queue, and the hardware has yet to complete the pending chains, in order. -/
structure Drives (s : TxRing) (hardware : List Index) (q : Fifo Chain) (r : ℕ) : Prop where
  tracks : Tracks s q r
  hardware : hardware = (starts Chain.count (hardwareCounter q r) q.pending).map (slot 256)

section Drives

variable {s : TxRing} {hardware : List Index} {q : Fifo Chain} {r : ℕ}

theorem Drives.send (h : Drives s hardware q r) (hfree : ¬ txFree s.txReadIndex s.txWriteIndex < txMaxSegCount)
    (p : Mbuf) (seg : Segment) {segs : List Segment} (reqs : ChecksumDemand) (hl : segs.length + 1 ≤ txMaxSegCount)
    (endStmt : Bool) : Drives (applyAll (sendWrites endStmt s.txWriteIndex p seg segs reqs) s)
      (hardware ++ [s.txWriteIndex]) (q.accept ⟨p, seg :: segs⟩) r := by
  refine ⟨h.tracks.send_any hfree p reqs hl endStmt, ?_⟩
  show _ = (starts Chain.count (hardwareCounter q r) (q.pending ++ [⟨p, seg :: segs⟩])).map (slot 256)
  rw [starts_append, List.map_append, ← h.hardware, h.tracks.tiled.write]
  simp [starts, hardwareCounter, Fifo.outstanding, Nat.add_assoc]

/-- The hardware completes the oldest pending chain. -/
theorem Drives.complete {i : Index} {rest : List Index} (h : Drives s (i :: rest) q r) :
    (∃ c cs, q.pending = c :: cs) ∧ Drives (clearOwner i s) rest q.complete r := by
  obtain ⟨htr, hhw⟩ := h
  cases hp : q.pending with
  | nil => rw [hp] at hhw; simp [starts] at hhw
  | cons c cs =>
    rw [hp] at hhw
    simp only [starts, List.map_cons, List.cons.injEq] at hhw
    obtain ⟨rfl, rfl⟩ := hhw
    refine ⟨⟨c, cs, rfl⟩, htr.complete hp, ?_⟩
    rw [Fifo.complete_of_cons hp]
    simp [hardwareCounter, Nat.add_assoc]

theorem Drives.reclaim (h : Drives s hardware q r) {c : Chain} {rest : List Chain} (hq : q.completed = c :: rest) :
    Drives (reclaim s) hardware q.releaseOne (r + c.count) := by
  refine ⟨(h.tracks.reclaim hq).2, ?_⟩
  rw [h.hardware, Fifo.releaseOne_of_cons hq]
  simp [hardwareCounter, hq, Nat.add_assoc]

theorem Drives.handle (h : Drives s hardware q r) :
    ∃ t, handleTxInterrupt s = some (q.completed.map Chain.packet, t) ∧
      Drives t hardware q.release (r + span Chain.count q.completed) := by
  obtain ⟨t, ht, htr⟩ := h.tracks.handle
  refine ⟨t, ht, htr, ?_⟩
  rw [h.hardware]
  simp [hardwareCounter, Fifo.release]

end Drives

end Osx360.Ethernet
