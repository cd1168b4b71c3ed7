import Osx360.Ethernet.Session

/-!
# Interrupts outside a session

`start` enables the interrupt source before it attaches the interface, and neither `disable` nor a failed `enable`
disables it; `handleInterrupt` does not look at `_isEnabled`, as `outputPacket` does. So the receive ring is left alone
outside a session exactly where no status read there has the receive bit (`rx_in_session_iff`).
-/

set_option autoImplicit false

namespace Osx360.Ethernet

open Osx360.Lib

/-! ## The system -/

/-- The driver, how far `start` has come (`listening`: the interrupt source is enabled, `attached`: `_ethInterface` is
set), and whether the last completed `enable` or `disable` was an `enable` that succeeded (`up`). -/
structure BringupWorld where
  driver : Driver
  listening : Bool
  attached : Bool
  up : Bool

inductive BringupLabel
  | listen
  | attach
  | enable (alloc : Index → Option Mbuf) (segment : Index → Option Segment)
  | disable
  | hardware
  | handler (l : HandlerLabel)

/-- The steps. The interface calls `enable` and `disable` once it is attached, never while the handler runs; the
hardware may set the descriptors and the status register to anything at any time. -/
inductive BringupStep : BringupWorld → BringupLabel → BringupWorld → Prop
  | listen {w : BringupWorld} : w.listening = false → BringupStep w .listen { w with listening := true }
  | attach {w : BringupWorld} : w.listening = true → w.attached = false →
      BringupStep w .attach { w with attached := true }
  | enable {w : BringupWorld} (alloc : Index → Option Mbuf) (segment : Index → Option Segment) :
      w.attached = true → w.driver.adapter.handler = .idle →
      BringupStep w (.enable alloc segment)
        { w with
          driver := (w.driver.enable alloc segment).2
          up := decide ((w.driver.enable alloc segment).1 = .success) }
  | disable {w : BringupWorld} : w.attached = true → w.driver.adapter.handler = .idle →
      BringupStep w .disable { w with driver := w.driver.disable.2, up := false }
  | hardware {w : BringupWorld} (rxDesc txDesc : Index → Descriptor) (intStatus : Word) :
      BringupStep w .hardware
        { w with driver := { w.driver with adapter := { w.driver.adapter with
          intStatus := intStatus
          rx := { w.driver.adapter.rx with rxDesc := rxDesc }
          tx := { w.driver.adapter.tx with txDesc := txDesc } } } }
  | handler {w : BringupWorld} {l : HandlerLabel} {a : Adapter} : w.listening = true →
      HandlerStep w.driver.adapter l a →
      BringupStep w (.handler l) { w with driver := { w.driver with adapter := a } }

/-- A new driver: its slots are empty. -/
def BringupInit (w : BringupWorld) : Prop :=
  ∃ (intStatus : Word) (rxDesc : Index → Descriptor) (tx : TxRing),
    w = ⟨⟨false, false, ⟨.idle, intStatus, ⟨rxDesc, fun _ => none, 0⟩, tx⟩⟩, false, false, false⟩

/-- In the step, `handleRxInterrupt` looks at the ring only in a session, where the interface is attached, and takes no
empty slot. -/
def RxInSession (e : Edge BringupWorld BringupLabel) : Prop :=
  match e.label with
  | .handler (.rxRound _) => e.pre.up = true ∧ e.pre.attached = true ∧
      (e.pre.driver.adapter.rx.rxPackets e.pre.driver.adapter.rx.rxIndex).isSome = true
  | .handler .leaveRx => e.pre.up = true ∧ e.pre.attached = true
  | _ => True

/-- The condition on one step: a status that the handler reads outside a session has the receive bit clear. -/
def RxExpected (w : BringupWorld) : BringupLabel → Prop
  | .handler .read => w.up = true ∨ has w.driver.adapter.intStatus intRxDone = false
  | _ => True

/-! ## The receive bit and the session -/

section Handler

variable {a b : Adapter} {l : HandlerLabel}

/-- Only reading the status makes the handler scan the receive ring. -/
theorem HandlerStep.willRx_of_read (hs : HandlerStep a l b) (hw : b.handler.willRx = true) :
    a.handler.willRx = true ∨ l = .read ∧ has a.intStatus intRxDone = true := by
  cases hs with
  | read _ => exact Or.inr ⟨rfl, hw⟩
  | ack hd => rw [hd]; exact Or.inl hw
  | scanRx hd hv => rw [hd]; exact Or.inl hv
  | skipRx _ _ => cases hw
  | rxRound _ _ _ => exact Or.inl hw
  | leaveRx _ _ => cases hw
  | scanTx _ _ => cases hw
  | skipTx _ _ => cases hw
  | txRound _ _ => exact Or.inl hw
  | leaveTx _ _ => cases hw

/-- A handler that will scan the receive ring still will after a step that is not one of the scan. -/
theorem HandlerStep.willRx_keep (hs : HandlerStep a l b) (hw : a.handler.willRx = true) :
    b.handler.willRx = true ∨ l = .leaveRx := by
  cases hs with
  | read hd => rw [hd] at hw; cases hw
  | ack hd => rw [hd] at hw; exact Or.inl hw
  | scanRx _ _ => exact Or.inl rfl
  | skipRx hd hv =>
    rw [hd] at hw
    rw [show has _ intRxDone = true from hw] at hv
    cases hv
  | rxRound _ _ _ => exact Or.inl hw
  | leaveRx _ _ => exact Or.inr rfl
  | scanTx hd _ => rw [hd] at hw; cases hw
  | skipTx hd _ => rw [hd] at hw; cases hw
  | txRound _ _ => exact Or.inl hw
  | leaveTx hd _ => rw [hd] at hw; cases hw

/-- The handler leaves no slot empty. -/
theorem HandlerStep.filled (hs : HandlerStep a l b) (h : ∀ i, (a.rx.rxPackets i).isSome = true) :
    ∀ i, (b.rx.rxPackets i).isSome = true := by
  cases hs with
  | rxRound o _ _ =>
    intro i
    rw [applyRx_round]
    by_cases hi : i = a.rx.rxIndex
    · subst hi
      simp only [Function.update_self, RxOutcome.packet]
      cases o.replacement with
      | copied m => exact h _
      | replaced m => rfl
      | failed => exact h _
    · simp only [Function.update_of_ne hi]
      exact h i
  | _ => exact h

end Handler

section Enable

variable {alloc : Index → Option Mbuf} {segment : Index → Option Segment} {d : Driver}

/-- `enable` leaves the handler alone. -/
theorem enable_handler : (d.enable alloc segment).2.adapter.handler = d.adapter.handler := by
  rcases enable_cases alloc segment d with ⟨_, he⟩ | ⟨_, _, he⟩ | ⟨_, _, _, a, hi, he⟩ | ⟨_, _, _, a, hi, he⟩
  · rw [he]
  · rw [he]
  · rw [he, ← (initHardware_rx alloc segment d.adapter).2.2, hi]
  · rw [he, ← (initHardware_rx alloc segment d.adapter).2.2, hi]

/-- An `enable` that succeeds fills every slot. -/
theorem enable_filled (h : (d.enable alloc segment).1 = .success) :
    ∀ i, ((d.enable alloc segment).2.adapter.rx.rxPackets i).isSome = true := by
  rcases enable_cases alloc segment d with ⟨_, he⟩ | ⟨_, _, he⟩ | ⟨_, _, _, a, _, he⟩ | ⟨_, _, _, a, hi, he⟩
  · rw [he] at h; cases h
  · rw [he] at h; cases h
  · rw [he] at h; cases h
  · obtain ⟨hok, hrx, _⟩ := initHardware_rx alloc segment d.adapter
    rw [hi] at hok hrx
    have hinit : initRxRing alloc segment d.adapter.rx = (true, a.rx) := Prod.ext hok.symm hrx.symm
    obtain ⟨_, hslots⟩ := initRxRing_spec hinit
    intro i
    obtain ⟨m, _, _, _, hm, _⟩ := hslots i
    rw [he, hm]
    rfl

end Enable

/-- While every status was expected, a handler that will scan the receive ring runs in a session, where every slot is
filled. -/
structure BringupInv (w : BringupWorld) : Prop where
  scanning : w.driver.adapter.handler.willRx = true → w.up = true
  attached : w.up = true → w.attached = true
  filled : w.up = true → ∀ i, (w.driver.adapter.rx.rxPackets i).isSome = true

section Bringup

variable {w v : BringupWorld} {l : BringupLabel} {es : List (Edge BringupWorld BringupLabel)}

theorem bringupInv_init (h : BringupInit w) : BringupInv w := by
  obtain ⟨_, _, _, rfl⟩ := h
  exact ⟨nofun, nofun, nofun⟩

theorem bringupInv_step (h : BringupInv w) (hc : RxExpected w l) (hs : BringupStep w l v) : BringupInv v := by
  obtain ⟨hscan, hatt, hfilled⟩ := h
  cases hs with
  | listen _ => exact ⟨hscan, hatt, hfilled⟩
  | attach _ _ => exact ⟨hscan, fun _ => rfl, hfilled⟩
  | enable alloc segment ha hd =>
    refine ⟨fun hw => ?_, fun _ => ha, fun hup => enable_filled (of_decide_eq_true hup)⟩
    have hkeep : (w.driver.enable alloc segment).2.adapter.handler.willRx = true := hw
    rw [enable_handler, hd] at hkeep
    cases hkeep
  | disable ha hd =>
    refine ⟨fun hw => ?_, nofun, nofun⟩
    have hkeep : w.driver.adapter.handler.willRx = true := hw
    rw [hd] at hkeep
    cases hkeep
  | hardware rxDesc txDesc intStatus => exact ⟨hscan, hatt, hfilled⟩
  | handler _ hs =>
    refine ⟨fun hw => ?_, hatt, fun hup => hs.filled (hfilled hup)⟩
    rcases hs.willRx_of_read hw with hw | ⟨rfl, hrx⟩
    · exact hscan hw
    · exact hc.resolve_right (by rw [hrx]; decide)

/-- A scan of the receive ring runs in a session. -/
theorem rxInSession_step (h : BringupInv w) (hs : BringupStep w l v) : RxInSession ⟨w, l, v⟩ := by
  cases hs with
  | handler _ hs =>
    cases hs with
    | rxRound o hd _ =>
      have hup := h.scanning (by rw [hd]; rfl)
      exact ⟨hup, h.attached hup, h.filled hup _⟩
    | leaveRx hd _ =>
      have hup := h.scanning (by rw [hd]; rfl)
      exact ⟨hup, h.attached hup⟩
    | _ => trivial
  | _ => trivial

/-- A handler that will scan the receive ring outside a session does so there, step by step. -/
theorem stray_step (hw : w.driver.adapter.handler.willRx = true) (hup : w.up = false) (hs : BringupStep w l v)
    (hr : RxInSession ⟨w, l, v⟩) : v.driver.adapter.handler.willRx = true ∧ v.up = false := by
  cases hs with
  | listen _ => exact ⟨hw, hup⟩
  | attach _ _ => exact ⟨hw, hup⟩
  | enable alloc segment _ hd =>
    rw [hd] at hw
    cases hw
  | disable _ hd =>
    rw [hd] at hw
    cases hw
  | hardware _ _ _ => exact ⟨hw, hup⟩
  | handler _ hs =>
    rcases hs.willRx_keep hw with hw | rfl
    · exact ⟨hw, hup⟩
    · have hin : w.up = true := hr.1
      rw [hup] at hin
      cases hin

/-- A run whose scans were all in a session had only expected statuses, or is in a scan outside one. -/
theorem expected_or_stray (h : Run BringupInit BringupStep es w) (hr : ∀ e ∈ es, RxInSession e) :
    (∀ e ∈ es, RxExpected e.pre e.label) ∨ w.driver.adapter.handler.willRx = true ∧ w.up = false := by
  induction h with
  | start => exact Or.inl (List.forall_mem_nil _)
  | @step es s t l _ hs ih =>
    rw [forall_snoc] at hr
    rcases ih hr.1 with hc | ⟨hw, hup⟩
    · by_cases hl : RxExpected s l
      · exact Or.inl (forall_snoc.mpr ⟨hc, hl⟩)
      · right
        cases hs with
        | handler _ hs =>
          cases hs with
          | read _ =>
            obtain ⟨hup, hrx⟩ := not_or.mp hl
            rw [Bool.not_eq_false] at hrx
            rw [Bool.not_eq_true] at hup
            exact ⟨hrx, hup⟩
          | _ => exact absurd trivial hl
        | _ => exact absurd trivial hl
    · exact Or.inr (stray_step hw hup hs hr.2)

/-- **The receive ring is left alone outside a session** in the runs whose every status read outside one has the receive
bit clear, and, where no call of the handler is cut off, in no others. -/
theorem rx_in_session_iff (h : Run BringupInit BringupStep es w) :
    ((∀ e ∈ es, RxExpected e.pre e.label) → ∀ e ∈ es, RxInSession e) ∧
      (w.driver.adapter.handler = .idle → (∀ e ∈ es, RxInSession e) → ∀ e ∈ es, RxExpected e.pre e.label) := by
  constructor
  · exact h.guarded_edges (I := BringupInv) (fun _ => bringupInv_init) fun _ _ _ hi hc hs =>
      ⟨bringupInv_step hi hc hs, rxInSession_step hi hs⟩
  · intro hidle hr
    rcases expected_or_stray h hr with hc | ⟨hw, _⟩
    · exact hc
    · rw [hidle] at hw
      cases hw

end Bringup

/-! ## Short runs -/

/-- A new driver with every descriptor and the status register zero. -/
def newDriver : Driver := ⟨false, false, ⟨.idle, 0, ⟨fun _ => .zero, fun _ => none, 0⟩, startRing⟩⟩

theorem newDriver_init : BringupInit ⟨newDriver, false, false, false⟩ := ⟨0, fun _ => .zero, startRing, rfl⟩

/-- A scan of the receive ring in a session. -/
theorem rx_in_session_iff_single : ∃ es w, Run BringupInit BringupStep es w ∧
    es.map Edge.label = [.listen, .attach, .enable (fun i => some i.val) (fun i => some (buffer i.val)), .hardware,
      .handler .read, .handler .ack, .handler .scanRx, .handler (.rxRound ⟨.copied 256, some (buffer 0)⟩)] ∧
    ∀ e ∈ es, RxInSession e := by
  have h0 : Run BringupInit BringupStep [] ⟨newDriver, false, false, false⟩ := .start newDriver_init
  have h2 := (h0.step (.listen rfl)).step (.attach rfl rfl)
  have h3 := h2.step (.enable (fun i => some i.val) (fun i => some (buffer i.val)) rfl rfl)
  have henable : newDriver.enable (fun i => some i.val) (fun i => some (buffer i.val)) =
      (.success, ⟨true, true, ⟨.idle, 0, bufferRing, initTxRing startRing⟩⟩) := by
    simp [Driver.enable, initHardware, initTransmitReceiveBuffers, softReset, ackAll, newDriver, bufferRing_init]
  rw [henable] at h3
  have h4 := h3.step (.hardware (fun _ => .zero) (fun _ => .zero) intRxDone)
  have h6 := (h4.step (.handler rfl (.read rfl))).step (.handler rfl (.ack rfl))
  have h7 := h6.step (.handler rfl (.scanRx rfl rfl))
  have h8 := h7.step (.handler rfl (.rxRound ⟨.copied 256, some (buffer 0)⟩ rfl rfl))
  refine ⟨_, _, h8, rfl, (rx_in_session_iff h8).1 ?_⟩
  simp [RxExpected]

/-- A status with the receive bit, read after `start` has enabled the interrupt source and before it has attached the
interface: the handler takes the empty slot. -/
theorem rx_before_session : ∃ es w, Run BringupInit BringupStep es w ∧
    es.map Edge.label = [.listen, .hardware, .handler .read, .handler .ack, .handler .scanRx,
      .handler (.rxRound ⟨.failed, none⟩)] ∧
    (∀ e ∈ es, e.pre.attached = false ∧ e.pre.driver.adapter.rx.rxPackets e.pre.driver.adapter.rx.rxIndex = none) ∧
    ¬ ∀ e ∈ es, RxInSession e := by
  have h0 : Run BringupInit BringupStep [] ⟨newDriver, false, false, false⟩ := .start newDriver_init
  have h2 := (h0.step (.listen rfl)).step (.hardware (fun _ => .zero) (fun _ => .zero) intRxDone)
  have h4 := (h2.step (.handler rfl (.read rfl))).step (.handler rfl (.ack rfl))
  have h5 := h4.step (.handler rfl (.scanRx rfl rfl))
  have h6 := h5.step (.handler rfl (.rxRound ⟨.failed, none⟩ rfl rfl))
  refine ⟨_, _, h6, rfl, ?_, fun hall => ?_⟩
  · simp [newDriver]
  · have hround : false = true ∧ _ := hall _ (List.mem_append_right _ (List.mem_singleton.mpr rfl))
    exact absurd hround.1 (by decide)

end Osx360.Ethernet
