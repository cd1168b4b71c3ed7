import Osx360.Ethernet.TransmitDma

/-!
# Publication of transmitted packets

The invariant speaks about the ring as the writes still to come will leave it: that ring is the queue of chains
(`DmaInv.tracks`), the writes to come avoid the chains handed off (`DmaInv.avoids`), and the slot behind these chains
stays with the driver until the hand-off (`DmaInv.closed`, `DmaInv.early`). So every step of the controller commutes
with the writes to come, and the controller transmits the segments of the accepted packets (`tx_publication`).
-/

set_option autoImplicit false

namespace Osx360.Ethernet

open Osx360.Lib

/-! ## The invariant -/

/-- The queue once the writes to come are made. -/
def DmaWorld.goal (w : DmaWorld) (q : Fifo Chain) : Fifo Chain :=
  match w.driver with
  | .sending c _ => q.accept c
  | _ => q

/-- The writes to come before a hand-off. -/
def DmaWorld.early (w : DmaWorld) : List TxWrite :=
  match w.driver with
  | .sending _ todo => todo.dropLast
  | .reclaiming todo => todo
  | _ => []

/-- What the controller has sent of the chains before its own. -/
def sentData (q : Fifo Chain) : List (Word × Word) := (q.released ++ q.completed).flatMap Chain.data

/-- Where the controller is in the oldest pending chain, which starts at counter `h`. -/
def ControllerAt (q : Fifo Chain) (h : ℕ) (next : Index) (transmitted : List (Word × Word)) : ControllerPhase → Prop
  | .looking => next = slot 256 h ∧ transmitted = sentData q
  | .fetching cur consumed total => next = slot 256 h ∧ ∃ c rest n, q.pending = c :: rest ∧ n < c.count ∧
      cur = slot 256 (h + n) ∧ consumed = lengthSum (c.segs.take n) ∧ total = lengthSum c.segs ∧
      transmitted = sentData q ++ c.data.take n
  | .finishing cur => next = slot 256 h ∧ ∃ c rest, q.pending = c :: rest ∧ cur = slot 256 (h + c.count) ∧
      transmitted = sentData q ++ c.data

/-- The counter behind the chains handed off. -/
def backCounter (q : Fifo Chain) (r : ℕ) : ℕ := r + span Chain.count q.outstanding

structure DmaInv (w : DmaWorld) (q : Fifo Chain) (r : ℕ) : Prop where
  tracks : Tracks (applyAll w.todo w.ring) (w.goal q) r
  written : Layout Chain.count (Written (applyAll w.todo w.ring)) (hardwareCounter q r) (w.goal q).pending
  positive : ∀ c ∈ (w.goal q).pending, ∀ s ∈ c.segs, 0 < s.length.toNat
  avoids : ∀ x ∈ w.todo, ∀ k, r ≤ k → k < backCounter q r → x.Avoids (slot 256 k)
  closed : (w.ring.txDesc (slot 256 (backCounter q r))).owned = false
  early : ∀ x ∈ w.early, x.KeepsFree (slot 256 (backCounter q r))
  index : w.ring.txWriteIndex = slot 256 (backCounter q r) ∨
    w.ring.txWriteIndex = slot 256 (backCounter (w.goal q) r)
  publishes : ∀ i, .writeIndex i ∈ w.todo → i = slot 256 (backCounter (w.goal q) r)
  controller : ControllerAt q (hardwareCounter q r) w.next w.transmitted w.controller
  accepted : w.accepted = q.accepted
  base : r = span Chain.count q.released

/-! ## Small facts -/

theorem backCounter_accept (q : Fifo Chain) (c : Chain) (r : ℕ) :
    backCounter (q.accept c) r = backCounter q r + c.count := by
  simp [backCounter, Nat.add_assoc]

theorem backCounter_eq (q : Fifo Chain) (r : ℕ) :
    backCounter q r = hardwareCounter q r + span Chain.count q.pending := by
  simp [backCounter, hardwareCounter, Fifo.outstanding, Nat.add_assoc]

theorem backCounter_complete (q : Fifo Chain) (r : ℕ) : backCounter q.complete r = backCounter q r := by
  simp [backCounter]

theorem hardwareCounter_complete {q : Fifo Chain} {c : Chain} {rest : List Chain} (hq : q.pending = c :: rest)
    (r : ℕ) : hardwareCounter q.complete r = hardwareCounter q r + c.count := by
  rw [Fifo.complete_of_cons hq]
  simp [hardwareCounter, Nat.add_assoc]

/-- Releasing the oldest completed chain moves neither the controller nor the back. -/
theorem hardwareCounter_releaseOne {q : Fifo Chain} {c : Chain} {rest : List Chain} (hq : q.completed = c :: rest)
    (r : ℕ) : hardwareCounter q.releaseOne (r + c.count) = hardwareCounter q r := by
  rw [Fifo.releaseOne_of_cons hq]
  simp [hardwareCounter, hq, Nat.add_assoc]

theorem backCounter_releaseOne {q : Fifo Chain} {c : Chain} {rest : List Chain} (hq : q.completed = c :: rest)
    (r : ℕ) : backCounter q.releaseOne (r + c.count) = backCounter q r := by
  rw [backCounter_eq, backCounter_eq, hardwareCounter_releaseOne hq, Fifo.releaseOne_of_cons hq]

/-- The chain being sent goes behind the pending ones. -/
theorem goal_pending {w : DmaWorld} {q : Fifo Chain} {c : Chain} {rest : List Chain} (hq : q.pending = c :: rest) :
    ∃ rest', (w.goal q).pending = c :: rest' ∧ (w.goal q).complete = w.goal q.complete := by
  unfold DmaWorld.goal
  split
  · rename_i d _ _
    exact ⟨rest ++ [d], by rw [Fifo.accept, hq]; rfl, Fifo.complete_accept hq d⟩
  · exact ⟨rest, hq, rfl⟩

theorem goal_completed (w : DmaWorld) (q : Fifo Chain) : (w.goal q).completed = q.completed := by
  unfold DmaWorld.goal
  split <;> rfl

theorem hardwareCounter_goal (w : DmaWorld) (q : Fifo Chain) (r : ℕ) :
    hardwareCounter (w.goal q) r = hardwareCounter q r := by
  rw [hardwareCounter, goal_completed, hardwareCounter]

theorem ControllerAt.congr {q q' : Fifo Chain} {h : ℕ} {next : Index} {transmitted : List (Word × Word)}
    {phase : ControllerPhase} (hc : ControllerAt q h next transmitted phase) (hs : sentData q' = sentData q)
    (hp : q'.pending = q.pending) : ControllerAt q' h next transmitted phase := by
  cases phase <;> simpa only [ControllerAt, hs, hp] using hc

theorem ControllerAt.accept {q : Fifo Chain} {h : ℕ} {next : Index} {transmitted : List (Word × Word)}
    {phase : ControllerPhase} (hc : ControllerAt q h next transmitted phase) (c : Chain) :
    ControllerAt (q.accept c) h next transmitted phase := by
  cases phase with
  | looking => exact hc
  | fetching cur consumed total =>
    obtain ⟨hn, d, rest, n, hp, hrest⟩ := hc
    exact ⟨hn, d, rest ++ [c], n, by simp [Fifo.accept, hp], hrest⟩
  | finishing cur =>
    obtain ⟨hn, d, rest, hp, hrest⟩ := hc
    exact ⟨hn, d, rest ++ [c], by simp [Fifo.accept, hp], hrest⟩

/-- Chains stay written where the data of their descriptors stay. -/
theorem written_congr {s t : TxRing} {k : ℕ} {cs : List Chain} (h : Layout Chain.count (Written s) k cs)
    (hpos : ∀ c ∈ cs, 1 ≤ c.count) (he : ∀ j, k ≤ j → j < k + span Chain.count cs →
      (t.txDesc (slot 256 j)).SameData (s.txDesc (slot 256 j))) : Layout Chain.count (Written t) k cs := by
  refine h.mono fun j c hc h1 h2 hw => hw.congr (hpos c hc) fun n hn => ?_
  exact he (j + n) (by omega) (by omega)

section Inv

variable {w : DmaWorld} {q : Fifo Chain} {r : ℕ}

/-- The chains handed off are the same in the ring as the writes to come will leave it. -/
theorem DmaInv.live (h : DmaInv w q r) {k : ℕ} (h1 : r ≤ k) (h2 : k < backCounter q r) :
    (applyAll w.todo w.ring).txDesc (slot 256 k) = w.ring.txDesc (slot 256 k) :=
  applyAll_avoids (fun x hx => h.avoids x hx k h1 h2) w.ring

theorem DmaInv.counts (h : DmaInv w q r) : ∀ c ∈ q.outstanding, 1 ≤ c.count := by
  intro c hc
  refine (h.tracks.tiled.counts c ?_).1
  unfold DmaWorld.goal
  split
  · rw [Fifo.outstanding_accept]
    exact List.mem_append_left _ hc
  · exact hc

/-- The chain that the controller looks at. -/
theorem DmaInv.oldest (h : DmaInv w q r) {c : Chain} {rest : List Chain} (hq : q.pending = c :: rest) :
    (w.ring.txDesc (slot 256 (hardwareCounter q r))).owned = true ∧ Written w.ring (hardwareCounter q r) c ∧
      1 ≤ c.count ∧ ∀ s ∈ c.segs, 0 < s.length.toNat := by
  obtain ⟨rest', hgoal, _⟩ := goal_pending (w := w) hq
  have hpos := h.counts c (by simp [Fifo.outstanding, hq])
  have hback : backCounter q r = hardwareCounter q r + (c.count + span Chain.count rest) := by
    rw [backCounter_eq, hq, span_cons]
  have hle : r ≤ hardwareCounter q r := Nat.le_add_right _ _
  have hbusy := h.tracks.busy
  have hwritten := h.written
  rw [hgoal, goal_completed] at hbusy
  rw [hgoal] at hwritten
  refine ⟨?_, ?_, hpos, h.positive c (by rw [hgoal]; exact List.mem_cons_self)⟩
  · rw [← h.live hle (by omega)]
    exact hbusy.1
  · refine hwritten.1.congr hpos fun n hn => ?_
    rw [h.live (by omega) (by omega)]
    exact ⟨rfl, rfl, rfl⟩

/-- Without a pending chain there is nothing to read. -/
theorem DmaInv.nothing (h : DmaInv w q r) (hq : q.pending = []) (hnext : w.next = slot 256 (hardwareCounter q r)) :
    (w.ring.txDesc w.next).owned = false := by
  have hclosed := h.closed
  rw [backCounter_eq, hq, span_nil, Nat.add_zero] at hclosed
  rw [hnext]
  exact hclosed

/-! ## Steps of the driver -/

/-- The invariant when no writes are to come. -/
theorem DmaInv.of_quiet (ht : w.todo = []) (hg : w.goal q = q) (htr : Tracks w.ring q r)
    (hwr : Layout Chain.count (Written w.ring) (hardwareCounter q r) q.pending)
    (hpos : ∀ c ∈ q.pending, ∀ s ∈ c.segs, 0 < s.length.toNat)
    (hctl : ControllerAt q (hardwareCounter q r) w.next w.transmitted w.controller) (hacc : w.accepted = q.accepted)
    (hb : r = span Chain.count q.released) : DmaInv w q r := by
  have hearly : w.early = [] := by
    unfold DmaWorld.todo at ht
    unfold DmaWorld.early
    split at ht <;> simp_all
  have hused := htr.tiled.used
  refine ⟨?_, ?_, ?_, ?_, ?_, ?_, Or.inl htr.tiled.write, ?_, hctl, hacc, hb⟩
  · rw [ht, hg]; exact htr
  · rw [ht, hg]; exact hwr
  · rw [hg]; exact hpos
  · rw [ht]; exact List.forall_mem_nil _
  · exact htr.clear _ (Nat.le_refl _) (by unfold backCounter; omega)
  · rw [hearly]; exact List.forall_mem_nil _
  · rw [ht]; exact fun _ hi => absurd hi List.not_mem_nil

/-- The ring itself when no writes are to come. -/
theorem DmaInv.quiet (h : DmaInv w q r) (ht : w.todo = []) (hg : w.goal q = q) :
    Tracks w.ring q r ∧ Layout Chain.count (Written w.ring) (hardwareCounter q r) q.pending ∧
      ∀ c ∈ q.pending, ∀ s ∈ c.segs, 0 < s.length.toNat := by
  have htr := h.tracks
  have hwr := h.written
  have hpos := h.positive
  rw [ht, hg] at htr hwr
  rw [hg] at hpos
  exact ⟨htr, hwr, hpos⟩

theorem dmaInv_init {w : DmaWorld} (h : DmaInit w) : DmaInv w .empty 0 := by
  obtain ⟨s, hs, rfl⟩ := h
  exact .of_quiet rfl rfl (drives_init hs).tracks trivial (List.forall_mem_nil _) ⟨rfl, rfl⟩ rfl rfl

/-- The driver moves between phases without writes to come. -/
theorem DmaInv.move (h : DmaInv w q r) {d : DriverPhase} (ht : w.todo = []) (hg : w.goal q = q)
    (ht' : ({ w with driver := d } : DmaWorld).todo = []) (hg' : ({ w with driver := d } : DmaWorld).goal q = q) :
    DmaInv { w with driver := d } q r := by
  obtain ⟨htr, hwr, hpos⟩ := h.quiet ht hg
  exact .of_quiet ht' hg' htr hwr hpos h.controller h.accepted h.base

theorem apply_txWriteIndex (x : TxWrite) (s : TxRing) :
    (x.apply s).txWriteIndex = s.txWriteIndex ∨ ∃ i, x = .writeIndex i ∧ (x.apply s).txWriteIndex = i := by
  cases x with
  | orLength d v => cases d <;> exact Or.inl rfl
  | writeIndex i => exact Or.inr ⟨i, rfl, rfl⟩
  | _ => exact Or.inl rfl

/-- A write that is not a hand-off. -/
theorem DmaInv.write (h : DmaInv w q r) {x : TxWrite} {todo : List TxWrite} {v : DmaWorld} (ht : w.todo = x :: todo)
    (he : w.early = x :: v.early) (hring : v.ring = x.apply w.ring) (ht' : v.todo = todo)
    (hg : v.goal q = w.goal q) (hctl : v.controller = w.controller) (hnext : v.next = w.next)
    (hsent : v.transmitted = w.transmitted) (hacc : v.accepted = w.accepted) : DmaInv v q r := by
  have hgoal : applyAll v.todo v.ring = applyAll w.todo w.ring := by rw [ht', hring, ht]; rfl
  have hx : x ∈ w.todo := by rw [ht]; exact List.mem_cons_self
  have hsub : ∀ y ∈ v.todo, y ∈ w.todo := by
    intro y hy
    rw [ht]
    rw [ht'] at hy
    exact List.mem_cons_of_mem _ hy
  refine ⟨?_, ?_, ?_, fun y hy => h.avoids y (hsub y hy), ?_, ?_, ?_, ?_, ?_, hacc.trans h.accepted, h.base⟩
  · rw [hgoal, hg]; exact h.tracks
  · rw [hgoal, hg]; exact h.written
  · rw [hg]; exact h.positive
  · rw [hring]
    exact h.early x (by rw [he]; exact List.mem_cons_self) w.ring h.closed
  · exact fun y hy => h.early y (by rw [he]; exact List.mem_cons_of_mem _ hy)
  · rw [hring, hg]
    rcases apply_txWriteIndex x w.ring with hsame | ⟨i, rfl, hi⟩
    · rw [hsame]; exact h.index
    · rw [hi]; exact Or.inr (h.publishes i hx)
  · rw [hg]
    exact fun i hi => h.publishes i (hsub _ hi)
  · rw [hctl, hnext, hsent]; exact h.controller

/-- The only index that a send writes is the one behind its chain. -/
theorem writeIndex_mem_sendWrites {i : Index} {k : ℕ} {p : Mbuf} {seg : Segment} {segs : List Segment}
    {reqs : ChecksumDemand} (h : .writeIndex i ∈ sendWrites false (slot 256 k) p seg segs reqs) :
    i = slot 256 (k + (segs.length + 1)) := by
  simp only [sendWrites, chainWrites, handoffWrites, Bool.false_eq_true, if_false, List.append_nil, List.mem_append,
    List.mem_cons, List.not_mem_nil, or_false, reduceCtorEq, false_or, TxWrite.writeIndex.injEq] at h
  rcases h with h | h
  · obtain ⟨_, _, _, hd⟩ := mem_fillWrites h
    cases hd
  · rw [h, lastIndex_slot, txNext_slot, Nat.add_assoc]

theorem DmaInv.send (h : DmaInv w q r) (hd : w.driver = .idle) {p : Mbuf} {segments : List Segment}
    {reqs : ChecksumDemand} {writes : List TxWrite} (hl : segments.length ≤ txMaxSegCount)
    (hpos : ∀ s ∈ segments, 0 < s.length.toNat)
    (hs : sendTxPacket false w.ring p segments reqs = (.success, [], writes)) :
    DmaInv { w with driver := .sending ⟨p, segments⟩ writes } q r := by
  have ht : w.todo = [] := by unfold DmaWorld.todo; rw [hd]
  have hg : w.goal q = q := by unfold DmaWorld.goal; rw [hd]
  obtain ⟨htr, hwr, hpos0⟩ := h.quiet ht hg
  rcases sendTxPacket_cases false w.ring p segments reqs with ⟨_, he⟩ | ⟨_, _, he⟩ | ⟨hroom, seg, segs, rfl, he⟩
  · rw [he] at hs; cases hs
  · rw [he] at hs; cases hs
  · rw [he, Prod.mk.injEq, Prod.mk.injEq] at hs
    obtain ⟨_, _, rfl⟩ := hs
    have hl8 : segs.length + 1 ≤ 8 := hl
    have hused : span Chain.count q.outstanding ≤ 247 := htr.tiled.room hroom
    have hW : w.ring.txWriteIndex = slot 256 (backCounter q r) := htr.tiled.write
    have hback : backCounter q r = r + span Chain.count q.outstanding := rfl
    have hsum := backCounter_eq q r
    have hpend : (q.accept ⟨p, seg :: segs⟩).pending = q.pending ++ [⟨p, seg :: segs⟩] := rfl
    have havoid : ∀ x ∈ sendWrites false w.ring.txWriteIndex p seg segs reqs, ∀ k, r ≤ k → k < backCounter q r →
        x.Avoids (slot 256 k) := by
      rw [hW]
      exact fun x hx k h1 h2 => sendWrites_avoid h2 (by omega) x hx
    refine ⟨htr.send hroom p reqs hl, ?_, ?_, havoid, h.closed, ?_, Or.inl hW, ?_, h.controller, h.accepted, h.base⟩
    · show Layout _ (Written (applyAll (sendWrites false w.ring.txWriteIndex p seg segs reqs) w.ring)) _
        (q.accept ⟨p, seg :: segs⟩).pending
      rw [hpend, layout_append, ← hsum]
      refine ⟨written_congr hwr (fun c hc => (htr.tiled.counts c (List.mem_append_right _ hc)).1) fun j h1 h2 => ?_,
        ?_, trivial⟩
      · rw [applyAll_avoids fun x hx => havoid x hx j (le_trans (Nat.le_add_right _ _) h1) (by omega)]
        exact ⟨rfl, rfl, rfl⟩
      · rw [hW]
        exact written_send w.ring (backCounter q r) p seg reqs hl
    · intro c hc
      rcases List.mem_append.mp hc with hc | hc
      · exact hpos0 c hc
      · rw [List.mem_singleton.mp hc]
        exact hpos
    · show ∀ x ∈ (sendWrites false w.ring.txWriteIndex p seg segs reqs).dropLast, _
      rw [hW]
      exact sendWrites_keepFree hl
    · intro i hi
      simp only [DmaWorld.todo, hW] at hi
      rw [writeIndex_mem_sendWrites hi]
      exact congrArg _ (backCounter_accept q ⟨p, seg :: segs⟩ r).symm

theorem DmaInv.handOff (h : DmaInv w q r) {c : Chain} {x : TxWrite} (hd : w.driver = .sending c [x]) :
    DmaInv { w with ring := x.apply w.ring, driver := .idle, accepted := w.accepted ++ [c] } (q.accept c) r := by
  have ht : w.todo = [x] := by unfold DmaWorld.todo; rw [hd]
  have hg : w.goal q = q.accept c := by unfold DmaWorld.goal; rw [hd]
  have htr := h.tracks
  have hwr := h.written
  have hpos := h.positive
  rw [ht, hg] at htr hwr
  rw [hg] at hpos
  refine .of_quiet rfl rfl htr hwr hpos (ControllerAt.accept h.controller c) ?_ h.base
  rw [Fifo.accepted_accept, ← h.accepted]

/-- The writes of a round go to the chain released, and leave its descriptors with the driver. -/
theorem reclaimWrites_apart {s : TxRing} (htr : Tracks s q r) {c : Chain} {rest : List Chain}
    (hq : q.completed = c :: rest) : ∀ x ∈ reclaimWrites s,
      (∀ k, r + c.count ≤ k → k < backCounter q r → x.Avoids (slot 256 k)) ∧ (∀ i, x.KeepsFree i) ∧
        ∀ i, x ≠ .writeIndex i := by
  have hout : q.outstanding = c :: (rest ++ q.pending) := by simp [Fifo.outstanding, hq]
  have hholds := htr.tiled.holds
  rw [hout] at hholds
  have hused := htr.tiled.used
  have hspan : backCounter q r = r + span Chain.count q.outstanding := rfl
  intro x hx
  rcases mem_reclaimWrites htr.tiled.read hholds.1 hx with ⟨hnone, hne⟩ | ⟨i, hi, rfl⟩
  · exact ⟨fun k _ _ => avoids_of_none hnone _, fun i => (avoids_of_none hnone i).keepsFree, hne⟩
  · refine ⟨fun k h1 h2 he => ?_, fun _ => keepsFree_flags (has_zero _), fun _ he => by cases he⟩
    rw [TxWrite.descriptor, Option.some.injEq, Option.some.injEq] at he
    exact absurd he (slot_ne (by omega) (by omega))

/-- A round releases the oldest completed chain. -/
theorem DmaInv.round (h : DmaInv w q r) (hd : w.driver = .scanning) (hready : txReady w.ring = true) :
    ∃ q' r', DmaInv { w with driver := .reclaiming (reclaimWrites w.ring) } q' r' := by
  have ht : w.todo = [] := by unfold DmaWorld.todo; rw [hd]
  have hg : w.goal q = q := by unfold DmaWorld.goal; rw [hd]
  obtain ⟨htr, hwr, hpos⟩ := h.quiet ht hg
  cases hq : q.completed with
  | nil => rw [htr.not_ready hq] at hready; cases hready
  | cons c rest =>
    have hrel : q.releaseOne = ⟨q.released ++ [c], rest, q.pending⟩ := Fifo.releaseOne_of_cons hq
    have hhw := hardwareCounter_releaseOne hq r
    have hback := backCounter_releaseOne hq r
    have hapart := reclaimWrites_apart htr hq
    refine ⟨q.releaseOne, r + c.count, (htr.reclaim hq).2, ?_, ?_, ?_, ?_, ?_, Or.inl ?_, ?_, ?_, ?_, ?_⟩
    · show Layout _ (Written (applyAll (reclaimWrites w.ring) w.ring)) _ q.releaseOne.pending
      rw [hhw, hrel]
      refine written_congr hwr (fun d hd => (htr.tiled.counts d (List.mem_append_right _ hd)).1) fun j h1 h2 => ?_
      have hlow : r + c.count ≤ hardwareCounter q r := by
        rw [hardwareCounter, hq, span_cons]
        omega
      rw [applyAll_avoids (fun x hx => (hapart x hx).1 j (by omega) (by rw [backCounter_eq]; exact h2)) w.ring]
      exact ⟨rfl, rfl, rfl⟩
    · show ∀ d ∈ q.releaseOne.pending, _
      rw [hrel]
      exact hpos
    · rw [hback]
      exact fun x hx => (hapart x hx).1
    · rw [hback]
      exact h.closed
    · exact fun x hx => (hapart x hx).2.1 _
    · rw [hback]
      exact htr.tiled.write
    · exact fun i hi => absurd rfl ((hapart _ hi).2.2 i)
    · rw [hhw]
      exact h.controller.congr (by rw [hrel]; simp [sentData, hq]) (by rw [hrel])
    · rw [hrel]
      simp [Fifo.accepted, h.accepted, hq]
    · rw [hrel, h.base]
      simp

/-! ## Steps of the controller -/

theorem DmaInv.look (h : DmaInv w q r) (hc : w.controller = .looking) (ho : (w.ring.txDesc w.next).owned = true) :
    DmaInv { w with controller := .fetching w.next 0 (w.ring.txDesc w.next).packetLength.toNat } q r := by
  have hctl := h.controller
  rw [hc] at hctl
  obtain ⟨hnext, hsent⟩ := hctl
  cases hq : q.pending with
  | nil =>
    rw [h.nothing hq hnext] at ho
    cases ho
  | cons c rest =>
    obtain ⟨_, hwr, hcount, _⟩ := h.oldest hq
    refine ⟨h.tracks, h.written, h.positive, h.avoids, h.closed, h.early, h.index, h.publishes, ?_, h.accepted, h.base⟩
    refine ⟨hnext, c, rest, 0, hq, hcount, hnext, rfl, ?_, ?_⟩
    · rw [hnext]
      exact hwr.total
    · rw [List.take_zero, List.append_nil]
      exact hsent

theorem DmaInv.fetch (h : DmaInv w q r) {cur : Index} {consumed total : ℕ}
    (hc : w.controller = .fetching cur consumed total) : DmaInv (w.fetch cur consumed total) q r := by
  have hctl := h.controller
  rw [hc] at hctl
  obtain ⟨hnext, c, rest, n, hq, hn, rfl, rfl, rfl, hsent⟩ := hctl
  obtain ⟨_, hwr, _, hpos⟩ := h.oldest hq
  obtain ⟨seg, hseg⟩ : ∃ seg, c.segs[n]? = some seg := ⟨_, List.getElem?_eq_getElem hn⟩
  obtain ⟨haddr, hlen⟩ := hwr.segment n seg hseg
  have hbytes : (w.ring.txDesc (slot 256 (hardwareCounter q r + n))).bytes = seg.length := by
    unfold Descriptor.bytes
    rw [hlen]
    exact and_not_bit (by decide) seg.length_has
  have htake : c.segs.take (n + 1) = c.segs.take n ++ [seg] := by rw [List.take_add_one, hseg]; rfl
  have hsum : lengthSum (c.segs.take n) + seg.length.toNat = lengthSum (c.segs.take (n + 1)) := by
    rw [htake, lengthSum_append, lengthSum_cons]
    rfl
  have hdata : c.data.take (n + 1) = c.data.take n ++ [(seg.location, seg.length)] := by
    unfold Chain.data
    rw [← List.map_take, ← List.map_take, htake, List.map_append]
    rfl
  refine ⟨h.tracks, h.written, h.positive, h.avoids, h.closed, h.early, h.index, h.publishes, ?_, h.accepted, h.base⟩
  unfold DmaWorld.fetch
  simp only [hbytes, haddr, hsum, hsent, txNext_slot, List.append_assoc, ← hdata]
  split
  · rename_i he
    have hlast : c.count ≤ n + 1 := by
      by_contra hlt
      exact absurd he (lengthSum_take_lt hpos (Nat.lt_of_not_le hlt)).ne
    have hcount : n + 1 = c.count := by omega
    refine ⟨hnext, c, rest, hq, by rw [Nat.add_assoc, hcount], ?_⟩
    rw [List.take_of_length_le (by rw [Chain.data, List.length_map]; exact hlast)]
  · rename_i he
    refine ⟨hnext, c, rest, n + 1, hq, ?_, by rw [Nat.add_assoc], rfl, rfl, rfl⟩
    by_contra hle
    exact he (by rw [List.take_of_length_le (Nat.le_of_not_lt hle)])

/-- The writes to come are to other descriptors than the one that the controller hands back. -/
theorem DmaInv.todo_clearOwner (h : DmaInv w q r) {c : Chain} {rest : List Chain} (hq : q.pending = c :: rest)
    (hnext : w.next = slot 256 (hardwareCounter q r)) :
    applyAll w.todo (clearOwner w.next w.ring) = clearOwner w.next (applyAll w.todo w.ring) := by
  have hcount := (h.oldest hq).2.2.1
  have hback : backCounter q r = hardwareCounter q r + (c.count + span Chain.count rest) := by
    rw [backCounter_eq, hq, span_cons]
  refine applyAll_clearOwner (fun x hx => ?_) _
  rw [hnext]
  exact h.avoids x hx _ (Nat.le_add_right _ _) (by omega)

theorem DmaInv.finish (h : DmaInv w q r) {cur : Index} (hc : w.controller = .finishing cur) :
    ∃ q', DmaInv { w with ring := clearOwner w.next w.ring, controller := .looking, next := cur } q' r := by
  have hctl := h.controller
  rw [hc] at hctl
  obtain ⟨hnext, c, rest, hq, rfl, hsent⟩ := hctl
  have hcomplete := Fifo.complete_of_cons hq
  have hhw := hardwareCounter_complete hq r
  have hcomm := h.todo_clearOwner hq hnext
  obtain ⟨rest', hgoal, hgoal'⟩ := goal_pending (w := w) hq
  have hpend : (w.goal q.complete).pending = rest' := by rw [← hgoal', Fifo.complete_of_cons hgoal]
  have htr := h.tracks.complete hgoal
  have hwr := h.written
  have hpos := h.positive
  rw [hgoal', hardwareCounter_goal, ← hnext, ← hcomm] at htr
  rw [hgoal] at hwr hpos
  have hout : ∀ d ∈ rest', 1 ≤ d.count := by
    intro d hd
    refine (htr.tiled.counts d ?_).1
    rw [Fifo.outstanding, hpend]
    exact List.mem_append_right _ hd
  refine ⟨q.complete, htr, ?_, ?_, ?_, ?_, ?_, ?_, ?_, ?_, ?_, ?_⟩
  · show Layout _ (Written (applyAll w.todo (clearOwner w.next w.ring))) _ (w.goal q.complete).pending
    rw [hhw, hpend, hcomm]
    exact written_congr hwr.2 hout fun j _ _ => clearOwner_sameData _ _ _
  · show ∀ d ∈ (w.goal q.complete).pending, _
    rw [hpend]
    exact fun d hd => hpos d (List.mem_cons_of_mem _ hd)
  · rw [backCounter_complete]
    exact h.avoids
  · rw [backCounter_complete]
    exact owned_clearOwner _ h.closed
  · rw [backCounter_complete]
    exact h.early
  · show w.ring.txWriteIndex = _ ∨ w.ring.txWriteIndex = slot 256 (backCounter (w.goal q.complete) r)
    rw [backCounter_complete, ← hgoal', backCounter_complete]
    exact h.index
  · show ∀ i, .writeIndex i ∈ w.todo → i = slot 256 (backCounter (w.goal q.complete) r)
    rw [← hgoal', backCounter_complete]
    exact h.publishes
  · refine ⟨by rw [hhw], ?_⟩
    rw [hsent, hcomplete]
    simp [sentData]
  · rw [Fifo.accepted_complete]
    exact h.accepted
  · rw [hcomplete]
    exact h.base

/-! ## The result -/

theorem dmaInv_step {v : DmaWorld} {l : DmaLabel} (h : ∃ q r, DmaInv w q r) (hs : DmaStep w l v) :
    ∃ q r, DmaInv v q r := by
  obtain ⟨q, r, h⟩ := h
  cases hs with
  | send p segments reqs hd hl hpos he => exact ⟨q, r, h.send hd hl hpos he⟩
  | @sendWrite c x y todo hd =>
    have htodo : w.todo = x :: y :: todo := by unfold DmaWorld.todo; rw [hd]
    refine ⟨q, r, h.write htodo ?_ rfl rfl ?_ rfl rfl rfl rfl⟩
    · unfold DmaWorld.early; rw [hd]; rfl
    · unfold DmaWorld.goal; rw [hd]
  | handOff hd => exact ⟨_, r, h.handOff hd⟩
  | interrupt hd =>
    exact ⟨q, r, h.move (by unfold DmaWorld.todo; rw [hd]) (by unfold DmaWorld.goal; rw [hd]) rfl rfl⟩
  | round hd hready => exact h.round hd hready
  | @reclaimWrite x todo hd =>
    have htodo : w.todo = x :: todo := by unfold DmaWorld.todo; rw [hd]
    refine ⟨q, r, h.write htodo ?_ rfl rfl ?_ rfl rfl rfl rfl⟩
    · unfold DmaWorld.early; rw [hd]
    · unfold DmaWorld.goal; rw [hd]
  | again hd =>
    exact ⟨q, r, h.move (by unfold DmaWorld.todo; rw [hd]) (by unfold DmaWorld.goal; rw [hd]) rfl rfl⟩
  | done hd _ =>
    exact ⟨q, r, h.move (by unfold DmaWorld.todo; rw [hd]) (by unfold DmaWorld.goal; rw [hd]) rfl rfl⟩
  | look hc ho => exact ⟨q, r, h.look hc ho⟩
  | fetch hc => exact ⟨q, r, h.fetch hc⟩
  | finish hc =>
    obtain ⟨q', h'⟩ := h.finish hc
    exact ⟨q', r, h'⟩

/-- The chain that the controller reads or is about to read: one of the accepted chains, completely written, with the
chains before it transmitted and its first `n` segments. -/
def Reads (w : DmaWorld) : Prop :=
  ∃ done c later n, w.accepted = done ++ c :: later ∧ Written w.ring (span Chain.count done) c ∧
    w.next = slot 256 (span Chain.count done) ∧ w.transmitted = done.flatMap Chain.data ++ c.data.take n ∧
    ∀ cur consumed total, w.controller = .fetching cur consumed total →
      n < c.count ∧ cur = slot 256 (span Chain.count done + n)

/-- What holds at every point of a run. Descriptors are counted from the start: the controller stands at the one after
those it has transmitted, `txWriteIndex` at the one after the accepted chains or, with the hand-off still to come, after
the chain being sent; the controller is behind it by less than a ring. -/
structure Published (w : DmaWorld) : Prop where
  place : w.place = slot 256 w.transmitted.length
  behind : w.transmitted.length ≤ span Chain.count w.accepted
  index : ∃ n ≤ w.transmitted.length + 255, w.ring.txWriteIndex = slot 256 n ∧ (n = span Chain.count w.accepted ∨
    ∃ c todo, w.driver = .sending c todo ∧ n = span Chain.count w.accepted + c.count)
  inOrder : w.transmitted <+: w.accepted.flatMap Chain.data
  stopped : w.controller = .looking → (w.ring.txDesc w.next).owned = false →
    w.transmitted = w.accepted.flatMap Chain.data
  reads : w.controller ≠ .looking ∨ (w.ring.txDesc w.next).owned = true → Reads w

theorem data_length (c : Chain) : c.data.length = c.count := List.length_map _

theorem flatMap_data_length (cs : List Chain) : (cs.flatMap Chain.data).length = span Chain.count cs := by
  induction cs with
  | nil => rfl
  | cons c cs ih => rw [List.flatMap_cons, List.length_append, data_length, ih, span_cons]

/-- The chains before the controller's. -/
theorem DmaInv.before (h : DmaInv w q r) : span Chain.count (q.released ++ q.completed) = hardwareCounter q r := by
  rw [span_append, ← h.base, hardwareCounter]

/-- The descriptors transmitted: all of the chains before the controller's and some of its own. -/
theorem DmaInv.progress (h : DmaInv w q r) :
    (w.controller = .looking ∧ w.next = slot 256 (hardwareCounter q r) ∧ w.transmitted = sentData q) ∨
      ∃ c rest n, q.pending = c :: rest ∧ n ≤ c.count ∧ w.next = slot 256 (hardwareCounter q r) ∧
        w.place = slot 256 (hardwareCounter q r + n) ∧ w.transmitted = sentData q ++ c.data.take n ∧
        ∀ cur consumed total, w.controller = .fetching cur consumed total → n < c.count ∧ cur = w.place := by
  have hctl := h.controller
  unfold DmaWorld.place
  cases hc : w.controller with
  | looking =>
    rw [hc] at hctl
    exact Or.inl ⟨rfl, hctl⟩
  | fetching cur consumed total =>
    rw [hc] at hctl
    obtain ⟨hnext, c, rest, n, hq, hn, hcur, _, _, hsent⟩ := hctl
    refine Or.inr ⟨c, rest, n, hq, hn.le, hnext, hcur, hsent, fun cur' _ _ he => ⟨hn, ?_⟩⟩
    cases he
    rfl
  | finishing cur =>
    rw [hc] at hctl
    obtain ⟨hnext, c, rest, hq, hcur, hsent⟩ := hctl
    refine Or.inr ⟨c, rest, c.count, hq, Nat.le_refl _, hnext, hcur, ?_, fun _ _ _ he => by cases he⟩
    rw [List.take_of_length_le (data_length c).le]
    exact hsent

theorem DmaInv.accepted_eq (h : DmaInv w q r) : w.accepted = (q.released ++ q.completed) ++ q.pending := by
  rw [h.accepted, Fifo.accepted, List.append_assoc]

theorem DmaInv.accepted_span (h : DmaInv w q r) : span Chain.count w.accepted = backCounter q r := by
  rw [h.accepted_eq, span_append, h.before, backCounter_eq]

theorem DmaInv.accepted_data (h : DmaInv w q r) :
    w.accepted.flatMap Chain.data = sentData q ++ q.pending.flatMap Chain.data := by
  rw [h.accepted_eq, List.flatMap_append]
  rfl

/-- The controller between the chains released and the chains accepted. -/
theorem DmaInv.distance (h : DmaInv w q r) : r ≤ w.transmitted.length ∧ w.transmitted.length ≤ backCounter q r ∧
    w.place = slot 256 w.transmitted.length := by
  have hlen : (sentData q).length = hardwareCounter q r := by rw [sentData, flatMap_data_length, h.before]
  have hsum := backCounter_eq q r
  have hr : r ≤ hardwareCounter q r := Nat.le_add_right _ _
  rcases h.progress with ⟨hc, hnext, hsent⟩ | ⟨c, rest, n, hq, hn, _, hplace, hsent, _⟩
  · rw [hsent, hlen]
    refine ⟨hr, by omega, ?_⟩
    unfold DmaWorld.place
    rw [hc]
    exact hnext
  · have htake : (c.data.take n).length = n := List.length_take_of_le (by rw [data_length]; exact hn)
    rw [hq, span_cons] at hsum
    rw [hsent, List.length_append, hlen, htake]
    exact ⟨by omega, by omega, hplace⟩

/-- The driver never writes an index that the controller could take for a passed one. -/
theorem DmaInv.writeIndex (h : DmaInv w q r) : ∃ n ≤ w.transmitted.length + 255, w.ring.txWriteIndex = slot 256 n ∧
    (n = backCounter q r ∨ ∃ c todo, w.driver = .sending c todo ∧ n = backCounter q r + c.count) := by
  have hused : backCounter (w.goal q) r ≤ r + 255 := Nat.add_le_add_left h.tracks.tiled.used r
  have hr := h.distance.1
  have hsending : backCounter (w.goal q) r = backCounter q r ∨ ∃ c todo, w.driver = .sending c todo ∧
      backCounter (w.goal q) r = backCounter q r + c.count := by
    unfold DmaWorld.goal
    split
    · rename_i c todo hd
      exact Or.inr ⟨c, todo, hd, backCounter_accept q c r⟩
    · exact Or.inl rfl
  rcases h.index with hidx | hidx
  · refine ⟨backCounter q r, ?_, hidx, Or.inl rfl⟩
    rcases hsending with he | ⟨c, _, _, he⟩ <;> omega
  · exact ⟨backCounter (w.goal q) r, by omega, hidx, hsending⟩

theorem DmaInv.inOrder (h : DmaInv w q r) : w.transmitted <+: w.accepted.flatMap Chain.data := by
  rw [h.accepted_data]
  rcases h.progress with ⟨_, _, hsent⟩ | ⟨c, rest, n, hq, _, _, _, hsent, _⟩
  · rw [hsent]
    exact List.prefix_append _ _
  · rw [hsent, hq, List.flatMap_cons, List.prefix_append_right_inj]
    exact (List.take_prefix n _).trans (List.prefix_append _ _)

/-- A controller that stops has transmitted everything. -/
theorem DmaInv.stopped (h : DmaInv w q r) (ho : (w.ring.txDesc w.next).owned = false) :
    w.transmitted = w.accepted.flatMap Chain.data := by
  rcases h.progress with ⟨_, hnext, hsent⟩ | ⟨c, rest, n, hq, _, hnext, _⟩
  · cases hq : q.pending with
    | nil => rw [h.accepted_data, hq, hsent, List.flatMap_nil, List.append_nil]
    | cons c rest =>
      rw [hnext, (h.oldest hq).1] at ho
      cases ho
  · rw [hnext, (h.oldest hq).1] at ho
    cases ho

theorem DmaInv.reads (h : DmaInv w q r) (hreads : w.controller ≠ .looking ∨ (w.ring.txDesc w.next).owned = true) :
    Reads w := by
  unfold Reads
  rw [h.accepted_eq]
  rcases h.progress with ⟨hc, hnext, hsent⟩ | ⟨c, rest, n, hq, _, hnext, hplace, hsent, hcur⟩
  · cases hq : q.pending with
    | nil =>
      have hown := hreads.resolve_left (absurd hc)
      rw [h.nothing hq hnext] at hown
      cases hown
    | cons c rest =>
      refine ⟨q.released ++ q.completed, c, rest, 0, rfl, ?_, ?_, ?_, ?_⟩
      · rw [h.before]; exact (h.oldest hq).2.1
      · rw [h.before]; exact hnext
      · rw [List.take_zero, List.append_nil]; exact hsent
      · rw [hc]
        intro _ _ _ he
        cases he
  · rw [hq]
    refine ⟨q.released ++ q.completed, c, rest, n, rfl, ?_, ?_, hsent, ?_⟩
    · rw [h.before]; exact (h.oldest hq).2.1
    · rw [h.before]; exact hnext
    · intro cur consumed total he
      obtain ⟨hlt, hc⟩ := hcur cur consumed total he
      rw [h.before, ← hplace]
      exact ⟨hlt, hc⟩

theorem DmaInv.published (h : DmaInv w q r) : Published w := by
  obtain ⟨_, hbehind, hplace⟩ := h.distance
  rw [← h.accepted_span] at hbehind
  have hindex := h.writeIndex
  rw [← h.accepted_span] at hindex
  exact ⟨hplace, hbehind, hindex, h.inOrder, fun _ ho => h.stopped ho, h.reads⟩

end Inv

/-- **The controller transmits the segments of the accepted packets, in order, and reads only chains that are completely
written.** -/
theorem tx_publication {es : List (Edge DmaWorld DmaLabel)} {w : DmaWorld} (h : Run DmaInit DmaStep es w) :
    Published w := by
  obtain ⟨q, r, hinv⟩ := h.invariant (I := fun w => ∃ q r, DmaInv w q r)
    (fun _ h0 => ⟨.empty, 0, dmaInv_init h0⟩) fun _ _ _ hi hs => dmaInv_step hi hs
  exact hinv.published

theorem tx_publication_single : ∃ w : DmaWorld, w.transmitted = [(0x1000, 64)] ∧ Published w := by
  have h0 : Run DmaInit DmaStep [] ⟨startRing, .idle, .looking, 0, [], []⟩ := .start ⟨_, fun _ => rfl, rfl⟩
  have h1 := h0.step (.send 7 [segment64] ⟨true, false, false⟩ rfl (by decide) (by decide) rfl)
  have h4 := ((h1.step (.sendWrite rfl)).step (.sendWrite rfl)).step (.sendWrite rfl)
  have h7 := ((h4.step (.sendWrite rfl)).step (.sendWrite rfl)).step (.sendWrite rfl)
  have h10 := ((h7.step (.sendWrite rfl)).step (.sendWrite rfl)).step (.handOff rfl)
  have h12 := (h10.step (.look rfl rfl)).step (.fetch rfl)
  exact ⟨_, rfl, tx_publication h12⟩

end Osx360.Ethernet
