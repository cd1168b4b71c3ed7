import Osx360.Ethernet.Interrupt

/-!
# A receiver that stays halted

A frame that arrives while the controller's next descriptor is the driver's halts reception and latches the receive
halt. `handleInterrupt` acknowledges that bit but never writes the receive control register, so reception stays halted;
once the handler has scanned the ring, no interrupt cause is left that would run it again (`Deaf`). The handler alone
gets there from every state after such a frame, and from no other state (`deaf_iff`).
-/

set_option autoImplicit false

namespace Osx360.Ethernet

open Osx360.Lib

/-! ## The system -/

/-- The interrupt causes that `initHardware` enables. -/
def intMask : Word := intLink ||| intTxHalt ||| intTxDone ||| intRxHalt ||| intRxDone

/-- The adapter with the controller's next receive descriptor and whether reception is halted. -/
structure HaltWorld where
  adapter : Adapter
  next : Index
  halted : Bool

/-- A frame arrives. While reception is halted it is lost. -/
def HaltWorld.arrive (w : HaltWorld) (status : Word) : HaltWorld :=
  if w.halted then w
  else if (w.adapter.rx.rxDesc w.next).owned then
    { w with
      adapter := { w.adapter with
        rx := fillDescriptor w.next status w.adapter.rx
        intStatus := w.adapter.intStatus ||| intRxDone }
      next := if (w.adapter.rx.rxDesc w.next).hasEnd then 0 else w.next + 1 }
  else
    { w with
      adapter := { w.adapter with intStatus := w.adapter.intStatus ||| intRxHalt }
      halted := true }

inductive HaltLabel
  | handler (l : HandlerLabel)
  | arrive (status : Word)
  | latch (v : Word)

/-- The steps: those of the handler, frames, and the latching of bits for other reasons. -/
inductive HaltStep : HaltWorld → HaltLabel → HaltWorld → Prop
  | handler {w : HaltWorld} {l : HandlerLabel} {a : Adapter} : HandlerStep w.adapter l a →
      HaltStep w (.handler l) { w with adapter := a }
  | arrive {w : HaltWorld} (status : Word) : HaltStep w (.arrive status) (w.arrive status)
  | latch {w : HaltWorld} (v : Word) :
      HaltStep w (.latch v) { w with adapter := { w.adapter with intStatus := w.adapter.intStatus ||| v } }

/-- After `initHardware`, which acknowledges every interrupt. -/
def HaltInit (w : HaltWorld) : Prop :=
  ∃ (alloc : Index → Option Mbuf) (segment : Index → Option Segment) (s t : RxRing) (tx : TxRing),
    initRxRing alloc segment s = (true, t) ∧ w = ⟨⟨.idle, 0, t, initTxRing tx⟩, 0, false⟩

/-- No handler runs, no cause is latched that would run it, the controller owns every receive descriptor, and reception
is halted. -/
structure Deaf (w : HaltWorld) : Prop where
  idle : w.adapter.handler = .idle
  unlatched : has w.adapter.intStatus intMask = false
  owned : ∀ i, (w.adapter.rx.rxDesc i).owned = true
  halted : w.halted = true

/-- The condition on one step: a frame finds its descriptor owned by the controller. -/
def FrameTaken (w : HaltWorld) : HaltLabel → Prop
  | .arrive _ => (w.adapter.rx.rxDesc w.next).owned = true
  | _ => True

/-- The handler alone moves. -/
def HandlerOnly (w : HaltWorld) (_ : Unit) (v : HaltWorld) : Prop := ∃ l, HaltStep w (.handler l) v

/-! ## Reception is halted by a frame that is not taken -/

section Halted

variable {w v : HaltWorld} {l : HaltLabel}

/-- Reception once halted stays halted, and is halted only by a frame that is not taken. -/
theorem halted_step (hs : HaltStep w l v) : v.halted = true ↔ w.halted = true ∨ ¬ FrameTaken w l := by
  cases hs with
  | handler _ => simp [FrameTaken]
  | latch v => simp [FrameTaken]
  | arrive status =>
    unfold HaltWorld.arrive FrameTaken
    by_cases hh : w.halted = true
    · simp [hh]
    · by_cases ho : (w.adapter.rx.rxDesc w.next).owned = true
      · simp [hh, ho]
      · simp [hh, ho]

theorem halted_run {es : List (Edge HaltWorld HaltLabel)} (h : Run HaltInit HaltStep es w) :
    w.halted = true ↔ ∃ e ∈ es, ¬ FrameTaken e.pre e.label := by
  induction h with
  | start h0 =>
    obtain ⟨_, _, _, _, _, _, rfl⟩ := h0
    simp
  | step _ hs ih =>
    rw [halted_step hs, ih]
    simp [or_and_right, exists_or]

/-- The handler neither halts nor resumes reception. -/
theorem halted_handlerOnly (h : Reachable (· = w) HandlerOnly v) : v.halted = w.halted := by
  refine h.invariant (I := fun v => v.halted = w.halted) (fun _ he => by rw [he]) fun s _ t hi ⟨_, hs⟩ => ?_
  cases hs with
  | handler _ => exact hi

end Halted

/-! ## The rings -/

/-- The descriptors between the driver's and the controller's are the driver's, the others the controller's. -/
structure RxWindow (w : HaltWorld) (a b : ℕ) : Prop where
  index : w.adapter.rx.rxIndex = slot 256 a
  next : w.next = slot 256 b
  order : a ≤ b ∧ b ≤ a + 256
  host : ∀ k, a ≤ k → k < b → (w.adapter.rx.rxDesc (slot 256 k)).owned = false
  hardware : ∀ k, b ≤ k → k < a + 256 → (w.adapter.rx.rxDesc (slot 256 k)).owned = true
  last : ∀ i, (w.adapter.rx.rxDesc i).hasEnd = true ↔ i.val = rxDescCount - 1

structure HaltInv (w : HaltWorld) : Prop where
  window : ∃ a b, RxWindow w a b
  noticed : rxReady w.adapter.rx = true →
    has w.adapter.intStatus intRxDone = true ∨ w.adapter.handler.willRx = true
  quiet : w.adapter.tx.txReadIndex = w.adapter.tx.txWriteIndex

section Inv

variable {w v : HaltWorld} {l : HaltLabel} {a b : ℕ}

theorem RxWindow.ready_iff (h : RxWindow w a b) : rxReady w.adapter.rx = true ↔ a < b := by
  obtain ⟨h1, h2⟩ := h.order
  unfold rxReady
  rw [h.index]
  constructor
  · intro hready
    by_contra hge
    rw [h.hardware a (Nat.le_of_not_lt hge) (by omega)] at hready
    cases hready
  · intro hlt
    rw [h.host a (Nat.le_refl _) hlt]
    rfl

/-- With no filled descriptor the controller owns the ring. -/
theorem RxWindow.owned (h : RxWindow w a b) (hready : rxReady w.adapter.rx = false) :
    ∀ i, (w.adapter.rx.rxDesc i).owned = true := by
  have hnot : ¬ a < b := fun hlt => by rw [h.ready_iff.mpr hlt] at hready; cases hready
  intro i
  obtain ⟨k, h1, h2, rfl⟩ := exists_slot a i
  exact h.hardware k (by omega) h2

/-- A round gives the controller the oldest filled descriptor. -/
theorem RxWindow.round (h : RxWindow w a b) (hlt : a < b) (o : RxOutcome) {v : HaltWorld}
    (hrx : v.adapter.rx = applyRx (rxRound w.adapter.rx o) w.adapter.rx) (hnext : v.next = w.next) :
    RxWindow v (a + 1) b := by
  obtain ⟨h1, h2⟩ := h.order
  have hother : ∀ k, a < k → k < a + 256 →
      v.adapter.rx.rxDesc (slot 256 k) = w.adapter.rx.rxDesc (slot 256 k) := by
    intro k hk1 hk2
    rw [hrx, applyRx_round]
    refine Function.update_of_ne ?_ _ _
    rw [h.index]
    exact (slot_ne hk1 hk2).symm
  have hself : v.adapter.rx.rxDesc (slot 256 a) =
      { rxPrepared (w.adapter.rx.rxDesc (slot 256 a)) (slot 256 a) o.segment with
        flags := txFlagsInterrupt ||| txFlagsOwner } := by
    rw [hrx, applyRx_round, h.index]
    exact Function.update_self _ _ _
  refine ⟨?_, hnext.trans h.next, ⟨hlt, by omega⟩, ?_, ?_, ?_⟩
  · rw [hrx, applyRx_round, h.index, rxNext_slot]
  · intro k hk1 hk2
    rw [hother k (by omega) (by omega)]
    exact h.host k (by omega) hk2
  · intro k hk1 hk2
    rcases Nat.lt_or_ge k (a + 256) with hk | hk
    · rw [hother k (by omega) hk]
      exact h.hardware k hk1 hk
    · rw [show k = a + 256 by omega, slot_add_self, hself]
      exact owned_handBack _
  · intro i
    obtain ⟨k, hk1, hk2, rfl⟩ := exists_slot a i
    rcases Nat.eq_or_lt_of_le hk1 with rfl | hk
    · rw [hself]
      exact hasEnd_rxPrepared (h.last _) o.segment
    · rw [hother k hk hk2]
      exact h.last _

/-- A frame that is taken. -/
theorem RxWindow.fill (h : RxWindow w a b) (ho : (w.adapter.rx.rxDesc w.next).owned = true) (status : Word)
    {v : HaltWorld} (hrx : v.adapter.rx = fillDescriptor w.next status w.adapter.rx)
    (hnext : v.next = if (w.adapter.rx.rxDesc w.next).hasEnd then 0 else w.next + 1) : RxWindow v a (b + 1) := by
  obtain ⟨h1, h2⟩ := h.order
  have hlt : b < a + 256 := by
    by_contra hge
    have hb : b = a + 256 := by omega
    rw [h.next, hb, slot_add_self, h.host a (Nat.le_refl _) (by omega)] at ho
    cases ho
  have hother : ∀ k, a ≤ k → k < a + 256 → k ≠ b →
      v.adapter.rx.rxDesc (slot 256 k) = w.adapter.rx.rxDesc (slot 256 k) := by
    intro k hk1 hk2 hk
    rw [hrx, h.next]
    exact Function.update_of_ne (slot_ne_of_window ⟨hk1, hk2⟩ ⟨h1, hlt⟩ hk) _ _
  refine ⟨?_, ?_, ⟨by omega, hlt⟩, ?_, ?_, ?_⟩
  · rw [hrx]
    exact h.index
  · rw [hnext]
    have hturn := consumer_next (h.last w.next)
    rw [← slot_succ, ← h.next]
    cases he : (w.adapter.rx.rxDesc w.next).hasEnd with
    | true =>
      rw [he] at hturn
      exact Fin.ext hturn
    | false => rfl
  · intro k hk1 hk2
    by_cases hk : k = b
    · subst hk
      rw [hrx, h.next]
      simp [fillDescriptor, RxRing.modifyDesc, Descriptor.owned, has_givenBack]
    · rw [hother k hk1 (by omega) hk]
      exact h.host k hk1 (by omega)
  · intro k hk1 hk2
    rw [hother k (by omega) hk2 (by omega)]
    exact h.hardware k (by omega) hk2
  · intro i
    unfold Descriptor.hasEnd
    rw [hrx, (fillDescriptor_desc w.next i status w.adapter.rx).2.1]
    exact h.last i

/-- Steps that leave the receive ring. -/
theorem RxWindow.keep (h : RxWindow w a b) {v : HaltWorld} (hrx : v.adapter.rx = w.adapter.rx)
    (hnext : v.next = w.next) : RxWindow v a b := by
  obtain ⟨hidx, hn, hord, hhost, hhw, hlast⟩ := h
  exact ⟨by rw [hrx]; exact hidx, hnext.trans hn, hord, by rw [hrx]; exact hhost, by rw [hrx]; exact hhw,
    by rw [hrx]; exact hlast⟩

theorem haltInv_init (h : HaltInit w) : HaltInv w := by
  obtain ⟨alloc, segment, s, t, tx, hinit, rfl⟩ := h
  have hwin : RxWindow ⟨⟨.idle, 0, t, initTxRing tx⟩, 0, false⟩ 0 0 :=
    ⟨(initRxRing_spec hinit).1, rfl, by omega, by omega, fun k _ _ => initRxRing_owned hinit _, initRxRing_hasEnd hinit⟩
  refine ⟨⟨0, 0, hwin⟩, fun hr => ?_, rfl⟩
  rw [hwin.ready_iff] at hr
  cases hr

/-- With no packet sent there is none to release. -/
theorem txReady_quiet {s : TxRing} (h : s.txReadIndex = s.txWriteIndex) : txReady s = false := by
  simp [txReady, h]

theorem haltInv_step (h : HaltInv w) (hs : HaltStep w l v) : HaltInv v := by
  obtain ⟨⟨a, b, hw⟩, hnoticed, hquiet⟩ := h
  cases hs with
  | handler hs =>
    refine ⟨?_, hs.rx_noticed hnoticed, ?_⟩
    · cases hs with
      | rxRound o _ hready => exact ⟨a + 1, b, hw.round (hw.ready_iff.mp hready) o rfl rfl⟩
      | _ => exact ⟨a, b, hw.keep rfl rfl⟩
    · cases hs with
      | txRound _ hready =>
        rw [txReady_quiet hquiet] at hready
        cases hready
      | _ => exact hquiet
  | arrive status =>
    unfold HaltWorld.arrive
    split
    · exact ⟨⟨a, b, hw⟩, hnoticed, hquiet⟩
    · split
      · rename_i ho
        exact ⟨⟨a, b + 1, hw.fill ho status rfl rfl⟩, fun _ => Or.inl (has_latched (by decide)), hquiet⟩
      · exact ⟨⟨a, b, hw.keep rfl rfl⟩, fun hr => (hnoticed hr).imp_left (has_latch (by decide) _), hquiet⟩
  | latch v =>
    exact ⟨⟨a, b, hw.keep rfl rfl⟩, fun hr => (hnoticed hr).imp_left (has_latch (by decide) _), hquiet⟩

end Inv

/-! ## The handler runs to its end -/

section Handler

variable {w v : HaltWorld}

theorem reach_handler (h : Reachable (· = w) HandlerOnly v) {l : HandlerLabel} {a : Adapter}
    (hs : HandlerStep v.adapter l a) : Reachable (· = w) HandlerOnly { v with adapter := a } :=
  h.snoc (l := ()) ⟨l, .handler hs⟩

/-- The receive scan ends when the driver owns no descriptor any more. -/
theorem reach_rxServed {s : Word} (n : ℕ) : ∀ {v : HaltWorld} {a b : ℕ}, RxWindow v a b → b - a = n →
    v.adapter.handler = .rxScan s → Reachable (· = w) HandlerOnly v →
      ∃ u, Reachable (· = w) HandlerOnly u ∧ u.adapter.handler = .rxServed s ∧
        u.adapter.intStatus = v.adapter.intStatus ∧ rxReady u.adapter.rx = false := by
  induction n with
  | zero =>
    intro v a b hw hn hd hr
    have hready : rxReady v.adapter.rx = false := by
      rw [← Bool.not_eq_true, hw.ready_iff]
      omega
    exact ⟨_, reach_handler hr (.leaveRx hd hready), rfl, rfl, hready⟩
  | succ n ih =>
    intro v a b hw hn hd hr
    have hlt : a < b := by omega
    let o : RxOutcome := ⟨.copied 0, some (buffer 0)⟩
    let t : HaltWorld :=
      { v with adapter := { v.adapter with rx := applyRx (rxRound v.adapter.rx o) v.adapter.rx } }
    have hround : RxWindow t (a + 1) b := hw.round hlt o rfl rfl
    have hreach : Reachable (· = w) HandlerOnly t := reach_handler hr (.rxRound o hd (hw.ready_iff.mpr hlt))
    exact (ih hround (by omega) hd hreach :)

/-- After the receive scan the call returns, since no packet was sent. -/
theorem reach_return {s : Word} (h : HaltInv v) (hd : v.adapter.handler = .rxServed s)
    (hr : Reachable (· = w) HandlerOnly v) :
    ∃ u, Reachable (· = w) HandlerOnly u ∧ u.adapter.handler = .idle ∧
      u.adapter.intStatus = v.adapter.intStatus ∧ u.adapter.rx = v.adapter.rx := by
  cases htx : has s intTxDone with
  | true =>
    have hscan := reach_handler hr (.scanTx hd htx)
    exact ⟨_, reach_handler hscan (.leaveTx rfl (txReady_quiet h.quiet)), rfl, rfl, rfl⟩
  | false => exact ⟨_, reach_handler hr (.skipTx hd htx), rfl, rfl, rfl⟩

/-- What the handler reaches from a reachable state is reachable. -/
theorem reachable_handlerOnly (h : Reachable HaltInit HaltStep w) (hr : Reachable (· = w) HandlerOnly v) :
    Reachable HaltInit HaltStep v :=
  hr.invariant (I := Reachable HaltInit HaltStep) (fun _ he => by rw [he]; exact h)
    fun _ _ _ hi ⟨_, hs⟩ => hi.snoc hs

theorem path_handlerOnly {es : List (Edge HaltWorld HaltLabel)} (h : Run HaltInit HaltStep es w)
    (hr : Reachable (· = w) HandlerOnly v) : ∃ fs, Run HaltInit HaltStep (es ++ fs) v := by
  refine hr.invariant (I := fun v => ∃ fs, Run HaltInit HaltStep (es ++ fs) v) ?_ ?_
  · rintro _ rfl
    exact ⟨[], by rwa [List.append_nil]⟩
  · rintro _ _ _ ⟨fs, hfs⟩ ⟨l, hs⟩
    have hnext := hfs.step hs
    rw [List.append_assoc] at hnext
    exact ⟨_, hnext⟩

theorem HaltInv.reach (h : HaltInv w) (hr : Reachable (· = w) HandlerOnly v) : HaltInv v :=
  hr.invariant (I := HaltInv) (fun _ he => by rw [he]; exact h) fun _ _ _ hi ⟨_, hs⟩ => haltInv_step hi hs

/-- From the receive scan on the call returns and leaves the receive ring with the controller. -/
theorem reach_scanned {s : Word} (h : HaltInv w) (hd : v.adapter.handler = .rxScan s)
    (hr : Reachable (· = w) HandlerOnly v) :
    ∃ u, Reachable (· = w) HandlerOnly u ∧ u.adapter.handler = .idle ∧
      u.adapter.intStatus = v.adapter.intStatus ∧ rxReady u.adapter.rx = false := by
  obtain ⟨a, b, hw⟩ := (h.reach hr).window
  obtain ⟨t, ht, hserved, hint, hready⟩ := reach_rxServed (b - a) hw rfl hd hr
  obtain ⟨u, hu, hidle, hint', hrx⟩ := reach_return (h.reach ht) hserved ht
  exact ⟨u, hu, hidle, hint'.trans hint, by rw [hrx]; exact hready⟩

/-- From the acknowledgement on the call returns, with no cause latched on the way. -/
theorem reach_acked {s : Word} (h : HaltInv w) (hd : v.adapter.handler = .acked s)
    (hr : Reachable (· = w) HandlerOnly v) :
    ∃ u, Reachable (· = w) HandlerOnly u ∧ u.adapter.handler = .idle ∧
      u.adapter.intStatus = v.adapter.intStatus := by
  cases hrx : has s intRxDone with
  | true =>
    obtain ⟨u, hu, hidle, hint, _⟩ := reach_scanned h rfl (reach_handler hr (.scanRx hd hrx))
    exact ⟨u, hu, hidle, hint⟩
  | false =>
    have hserved := reach_handler hr (.skipRx hd hrx)
    obtain ⟨u, hu, hidle, hint, _⟩ := reach_return (h.reach hserved) rfl hserved
    exact ⟨u, hu, hidle, hint⟩

/-- A call that is running returns. -/
theorem reach_idle (h : HaltInv w) : ∃ v, Reachable (· = w) HandlerOnly v ∧ v.adapter.handler = .idle := by
  have hself : Reachable (· = w) HandlerOnly w := .of_init rfl
  cases hd : w.adapter.handler with
  | idle => exact ⟨w, hself, hd⟩
  | statusRead s =>
    obtain ⟨v, hv, hidle, _⟩ := reach_acked h rfl (reach_handler hself (.ack hd))
    exact ⟨v, hv, hidle⟩
  | acked s =>
    obtain ⟨v, hv, hidle, _⟩ := reach_acked h hd hself
    exact ⟨v, hv, hidle⟩
  | rxScan s =>
    obtain ⟨v, hv, hidle, _⟩ := reach_scanned h hd hself
    exact ⟨v, hv, hidle⟩
  | rxServed s =>
    obtain ⟨v, hv, hidle, _⟩ := reach_return h hd hself
    exact ⟨v, hv, hidle⟩
  | txScan => exact ⟨_, reach_handler hself (.leaveTx hd (txReady_quiet h.quiet)), rfl⟩

/-- A whole call acknowledges every cause; what it leaves in the receive ring has its bit latched (`HaltInv.noticed`),
so it leaves nothing. -/
theorem reach_quiet (h : HaltInv w) (hd : v.adapter.handler = .idle) (hr : Reachable (· = w) HandlerOnly v) :
    ∃ u, Reachable (· = w) HandlerOnly u ∧ u.adapter.handler = .idle ∧ u.adapter.intStatus = 0 ∧
      rxReady u.adapter.rx = false := by
  have hack := reach_handler (reach_handler hr (.read hd)) (.ack rfl)
  obtain ⟨u, hu, hidle, hint⟩ := reach_acked h rfl hack
  have hzero : u.adapter.intStatus = 0 := hint.trans (BitVec.and_not_self _)
  refine ⟨u, hu, hidle, hzero, ?_⟩
  by_contra hready
  rw [Bool.not_eq_false] at hready
  rcases (h.reach hu).noticed hready with hlatched | hwill
  · rw [hzero, BitVec.ofNat_eq_ofNat, has_zero] at hlatched
    cases hlatched
  · rw [hidle] at hwill
    cases hwill

/-- With reception halted the handler alone reaches a deaf state. -/
theorem reach_deaf (h : HaltInv w) (hh : w.halted = true) : ∃ v, Reachable (· = w) HandlerOnly v ∧ Deaf v := by
  obtain ⟨t, ht, hd⟩ := reach_idle h
  obtain ⟨u, hu, hidle, hzero, hready⟩ := reach_quiet h hd ht
  obtain ⟨a, b, hw⟩ := (h.reach hu).window
  exact ⟨u, hu, hidle, by rw [hzero]; exact has_zero _, hw.owned hready, by rw [halted_handlerOnly hu]; exact hh⟩

end Handler

/-! ## A ring full of frames -/

/-- Up to 256 frames are taken while no handler runs. -/
theorem burst : ∀ n ≤ 256, ∃ es w, Run HaltInit HaltStep es w ∧
    es.map Edge.label = List.replicate n (.arrive 64) ∧ RxWindow w 0 n ∧ w.adapter.handler = .idle ∧
      w.halted = false := by
  intro n hn
  induction n with
  | zero =>
    have hinit : HaltInit ⟨⟨.idle, 0, bufferRing, initTxRing startRing⟩, 0, false⟩ :=
      ⟨_, _, bufferRing, _, startRing, bufferRing_init _, rfl⟩
    refine ⟨[], _, .start hinit, rfl, ⟨rfl, rfl, by omega, by omega, ?_, ?_⟩, rfl, rfl⟩
    · exact fun k _ _ => owned_rxInitial _ _
    · exact fun i => hasEnd_rxInitial _ _
  | succ n ih =>
    obtain ⟨es, w, hr, hlabels, hw, hidle, hh⟩ := ih (by omega)
    have hown : (w.adapter.rx.rxDesc w.next).owned = true := by
      rw [hw.next]
      exact hw.hardware n (Nat.le_refl _) (by omega)
    have harrive : w.arrive 64 = { w with
        adapter := { w.adapter with
          rx := fillDescriptor w.next 64 w.adapter.rx
          intStatus := w.adapter.intStatus ||| intRxDone }
        next := if (w.adapter.rx.rxDesc w.next).hasEnd then 0 else w.next + 1 } := by
      simp [HaltWorld.arrive, hh, hown]
    refine ⟨_, _, hr.step (.arrive 64), ?_, ?_, ?_, ?_⟩
    · rw [List.map_append, hlabels, List.map_singleton, ← List.replicate_succ']
    · rw [harrive]
      exact hw.fill hown 64 rfl rfl
    · rw [harrive]
      exact hidle
    · rw [harrive]
      exact hh

/-! ## Deaf states -/

section Deaf

variable {es : List (Edge HaltWorld HaltLabel)} {w : HaltWorld}

/-- **The receiver is left deaf exactly by a frame that is not taken**: after such a frame the handler alone reaches a
deaf state from wherever the run is, and with no such frame it reaches none. -/
theorem deaf_iff (h : Run HaltInit HaltStep es w) :
    (∀ v, Reachable (· = w) HandlerOnly v → ¬ Deaf v) ↔ ∀ e ∈ es, FrameTaken e.pre e.label := by
  have hinv : HaltInv w := h.invariant (I := HaltInv) (fun _ => haltInv_init) fun _ _ _ => haltInv_step
  have hhalted := halted_run h
  constructor
  · intro hnever e he
    by_contra hlost
    obtain ⟨v, hv, hdeaf⟩ := reach_deaf hinv (hhalted.mpr ⟨e, he, hlost⟩)
    exact hnever v hv hdeaf
  · intro htaken v hv hdeaf
    have hh := hdeaf.halted
    rw [halted_handlerOnly hv, hhalted] at hh
    obtain ⟨e, he, hlost⟩ := hh
    exact hlost (htaken e he)

end Deaf

/-- A full ring of frames, and the call of the handler that takes them all. -/
theorem deaf_iff_taken : ∃ es fs w, Run HaltInit HaltStep (es ++ fs) w ∧
    es.map Edge.label = List.replicate 256 (.arrive 64) ∧ w.adapter.handler = .idle ∧
      rxReady w.adapter.rx = false ∧ ∀ v, Reachable (· = w) HandlerOnly v → ¬ Deaf v := by
  obtain ⟨es, u, h, hlabels, -, hidle, hhalted⟩ := burst 256 (Nat.le_refl _)
  have hinv := h.invariant (I := HaltInv) (fun _ => haltInv_init) fun _ _ _ => haltInv_step
  obtain ⟨w, hreach, hreturned, -, hready⟩ := reach_quiet hinv hidle (.of_init rfl)
  obtain ⟨fs, hfs⟩ := path_handlerOnly h hreach
  refine ⟨es, fs, w, hfs, hlabels, hreturned, hready, (deaf_iff hfs).mpr ?_⟩
  by_contra hlost
  have hw : w.halted = true := (halted_run hfs).mpr (by simpa using hlost)
  rw [halted_handlerOnly hreach, hhalted] at hw
  cases hw

/-- After 257 frames the next call of the handler leaves the receiver deaf. -/
theorem deaf_after_burst : ∃ es w v, Run HaltInit HaltStep es w ∧
    es.map Edge.label = List.replicate 257 (.arrive 64) ∧ Reachable (· = w) HandlerOnly v ∧
      Reachable HaltInit HaltStep v ∧ Deaf v := by
  obtain ⟨es, w, hr, hlabels, hw, -, hh⟩ := burst 256 (Nat.le_refl _)
  have hwrap : slot 256 256 = slot 256 0 := slot_add_self 0
  have hown : (w.adapter.rx.rxDesc w.next).owned = false := by
    rw [hw.next, hwrap]
    exact hw.host 0 (Nat.le_refl _) (by decide)
  have hinv := (hr.step (.arrive 64)).invariant (I := HaltInv) (fun _ => haltInv_init) fun _ _ _ => haltInv_step
  have hhalted : (w.arrive 64).halted = true := by simp [HaltWorld.arrive, hh, hown]
  obtain ⟨v, hv, hdeaf⟩ := reach_deaf hinv hhalted
  refine ⟨_, _, v, hr.step (.arrive 64), ?_, hv, reachable_handlerOnly ⟨_, hr.step (.arrive 64)⟩ hv, hdeaf⟩
  rw [List.map_append, hlabels, List.map_singleton, ← List.replicate_succ']

end Osx360.Ethernet
