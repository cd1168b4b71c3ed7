import Osx360.Ethernet.Interrupt

/-!
# Enabling and disabling the controller

`initHardware`, `enable`, `disable` and `outputPacket`. `enable` opens the provider and fills the receive ring; neither
its failure paths nor `disable` close the provider or free a packet. So the calls undo what was acquired in the runs in
which there is nothing to undo, and in no others (`undoes_iff`): after any other run every later `enable` fails
(`shut_out`).
-/

set_option autoImplicit false

namespace Osx360.Ethernet

open Osx360.Lib

/-! ## The calls -/

/-- `kIOReturnSuccess` and `kIOReturnIOError`. -/
inductive IOReturn
  | success
  | ioError
  deriving DecidableEq

/-- The driver; `providerOpen` is whether it has the provider open. -/
structure Driver where
  isEnabled : Bool
  providerOpen : Bool
  adapter : Adapter

/-- Writing the interrupt status register with all bits set. -/
def ackAll (a : Adapter) : Adapter := { a with intStatus := a.intStatus &&& ~~~0xFFFFFFFF#32 }

def softReset (a : Adapter) : Adapter := ackAll a

def initTransmitReceiveBuffers (alloc : Index → Option Mbuf) (segment : Index → Option Segment) (a : Adapter) :
    Bool × Adapter :=
  match initRxRing alloc segment a.rx with
  | (ok, rx) => (ok, { a with tx := initTxRing a.tx, rx := rx })

/-- Given what `allocatePacket` and the memory cursor answer for each receive descriptor. -/
def initHardware (alloc : Index → Option Mbuf) (segment : Index → Option Segment) (a : Adapter) : Bool × Adapter :=
  match initTransmitReceiveBuffers alloc segment (softReset a) with
  -- the register writes after the buffers do not fail
  | (true, a) => (true, ackAll a)
  | (false, a) => (false, a)

/-- Opening the provider fails if it is open. -/
def Driver.enable (alloc : Index → Option Mbuf) (segment : Index → Option Segment) (d : Driver) : IOReturn × Driver :=
  if d.isEnabled then (.ioError, d)
  else if d.providerOpen then (.ioError, d)
  else match initHardware alloc segment d.adapter with
    -- the provider stays open
    | (false, a) => (.ioError, { d with providerOpen := true, adapter := a })
    | (true, a) => (.success, { isEnabled := true, providerOpen := true, adapter := a })

def Driver.disable (d : Driver) : IOReturn × Driver := (.success, { d with isEnabled := false })

/-- The answer, the packets freed and the writes made. -/
def Driver.outputPacket (d : Driver) (m : Mbuf) (segments : List Segment) (reqs : ChecksumDemand) :
    OutputResult × List Mbuf × List TxWrite :=
  if d.isEnabled then sendTxPacket true d.adapter.tx m segments reqs else (.dropped, [m], [])

/-! ## What the calls allocate -/

/-- The mbufs that the receive loop of `initTransmitReceiveBuffers` has allocated when it ends. -/
def rxAllocated (alloc : Index → Option Mbuf) (segment : Index → Option Segment) : List Index → List Mbuf
  | [] => []
  | i :: is =>
    match alloc i with
    | none => []
    | some m => m :: if (segment i).isSome then rxAllocated alloc segment is else []

/-- No call of the receive loop fails. -/
def HardwareOk (alloc : Index → Option Mbuf) (segment : Index → Option Segment) : Prop :=
  (∀ i, (alloc i).isSome) ∧ ∀ i, (segment i).isSome

section Init

variable {alloc : Index → Option Mbuf} {segment : Index → Option Segment}

/-- The slots that the loop has left behind keep their packets. -/
theorem initRxLoop_keeps {is : List Index} {s : RxRing} {i : Index} (hi : i ∉ is) :
    (initRxLoop alloc segment is s).2.rxPackets i = s.rxPackets i := by
  induction is generalizing s with
  | nil => rfl
  | cons j is ih =>
    obtain ⟨hne, hi⟩ := List.ne_and_not_mem_of_not_mem_cons hi
    rw [initRxLoop]
    cases hm : alloc j with
    | none => simp [Function.update_of_ne hne]
    | some m =>
      cases hs : segment j with
      | none => simp [setRxDescriptorPacket, RxAction.apply, RxRing.modifyDesc, Function.update_of_ne hne]
      | some seg =>
        simp only [setRxDescriptorPacket, Option.isNone_some, Bool.false_eq_true, if_false]
        rw [ih hi]
        simp [RxAction.apply, RxRing.modifyDesc, Function.update_of_ne hne]

/-- Every mbuf that the loop has allocated, whether or not it fails later, is in a slot when it ends. -/
theorem mem_rxAllocated {m : Mbuf} {is : List Index} {s : RxRing} (hnd : is.Nodup)
    (h : m ∈ rxAllocated alloc segment is) : ∃ i ∈ is, (initRxLoop alloc segment is s).2.rxPackets i = some m := by
  induction is generalizing s with
  | nil => simp [rxAllocated] at h
  | cons j is ih =>
    obtain ⟨hj, hnd⟩ := List.nodup_cons.mp hnd
    rw [rxAllocated] at h
    rw [initRxLoop]
    cases hm : alloc j with
    | none => simp [hm] at h
    | some p =>
      cases hs : segment j with
      | none =>
        simp only [hm, hs, Option.isSome_none, Bool.false_eq_true, if_false, List.mem_singleton] at h
        subst h
        exact ⟨j, List.mem_cons_self, by simp [setRxDescriptorPacket, RxAction.apply, RxRing.modifyDesc]⟩
      | some seg =>
        simp only [setRxDescriptorPacket, Option.isNone_some, Bool.false_eq_true, if_false]
        simp only [hm, hs, Option.isSome_some, if_true, List.mem_cons] at h
        rcases h with rfl | h
        · refine ⟨j, List.mem_cons_self, ?_⟩
          rw [initRxLoop_keeps hj]
          simp [RxAction.apply, RxRing.modifyDesc]
        · obtain ⟨i, hi, hp⟩ := ih hnd h
          exact ⟨i, List.mem_cons_of_mem _ hi, hp⟩

/-- The hardware initialisation succeeds if the receive loop does, and touches no other part of the receive side. -/
theorem initHardware_rx (alloc : Index → Option Mbuf) (segment : Index → Option Segment) (a : Adapter) :
    (initHardware alloc segment a).1 = (initRxRing alloc segment a.rx).1 ∧
      (initHardware alloc segment a).2.rx = (initRxRing alloc segment a.rx).2 ∧
      (initHardware alloc segment a).2.handler = a.handler := by
  unfold initHardware initTransmitReceiveBuffers softReset ackAll
  rcases initRxRing alloc segment a.rx with ⟨ok, rx⟩
  cases ok with
  | true => exact ⟨rfl, rfl, rfl⟩
  | false => exact ⟨rfl, rfl, rfl⟩

theorem initHardware_ok_iff (alloc : Index → Option Mbuf) (segment : Index → Option Segment) (a : Adapter) :
    (initHardware alloc segment a).1 = true ↔ HardwareOk alloc segment := by
  rw [(initHardware_rx alloc segment a).1]
  constructor
  · intro h
    obtain ⟨_, hslots⟩ := initRxRing_spec (Prod.ext h rfl : initRxRing alloc segment a.rx = (true, _))
    refine ⟨fun i => ?_, fun i => ?_⟩
    · obtain ⟨m, _, hm, _⟩ := hslots i
      simp [hm]
    · obtain ⟨_, seg, _, hs, _⟩ := hslots i
      simp [hs]
  · intro h
    obtain ⟨t, ht⟩ := initRxRing_ok h.1 h.2 a.rx
    rw [ht]

end Init

/-- The four ways through `enable`. -/
theorem enable_cases (alloc : Index → Option Mbuf) (segment : Index → Option Segment) (d : Driver) :
    (d.isEnabled = true ∧ d.enable alloc segment = (.ioError, d)) ∨
      (d.isEnabled = false ∧ d.providerOpen = true ∧ d.enable alloc segment = (.ioError, d)) ∨
      (d.isEnabled = false ∧ d.providerOpen = false ∧ ¬ HardwareOk alloc segment ∧ ∃ a,
        initHardware alloc segment d.adapter = (false, a) ∧
        d.enable alloc segment = (.ioError, { d with providerOpen := true, adapter := a })) ∨
      (d.isEnabled = false ∧ d.providerOpen = false ∧ HardwareOk alloc segment ∧ ∃ a,
        initHardware alloc segment d.adapter = (true, a) ∧
        d.enable alloc segment = (.success, ⟨true, true, a⟩)) := by
  unfold Driver.enable
  cases he : d.isEnabled with
  | true => exact Or.inl ⟨rfl, rfl⟩
  | false =>
    cases ho : d.providerOpen with
    | true => exact Or.inr (Or.inl ⟨rfl, rfl, rfl⟩)
    | false =>
      have hok := initHardware_ok_iff alloc segment d.adapter
      rcases hi : initHardware alloc segment d.adapter with ⟨ok, a⟩
      rw [hi] at hok
      cases ok with
      | true => exact Or.inr (Or.inr (Or.inr ⟨rfl, rfl, hok.mp rfl, a, rfl, rfl⟩))
      | false => exact Or.inr (Or.inr (Or.inl ⟨rfl, rfl, fun h => absurd (hok.mpr h) (by simp), a, rfl, rfl⟩))

theorem enable_adapter {alloc : Index → Option Mbuf} {segment : Index → Option Segment} {d : Driver}
    (hd : d.isEnabled = false) (ho : d.providerOpen = false) :
    (d.enable alloc segment).2.adapter = (initHardware alloc segment d.adapter).2 := by
  simp only [Driver.enable, hd, ho, Bool.false_eq_true, if_false]
  rcases initHardware alloc segment d.adapter with ⟨ok, a⟩
  cases ok with
  | true => rfl
  | false => rfl

/-- What `enable` allocates is in the ring when it returns, also when it fails. -/
theorem enable_holds {alloc : Index → Option Mbuf} {segment : Index → Option Segment} {d : Driver}
    (hd : d.isEnabled = false) (ho : d.providerOpen = false) {m : Mbuf}
    (hm : m ∈ rxAllocated alloc segment (List.finRange 256)) :
    ∃ i, (d.enable alloc segment).2.adapter.rx.rxPackets i = some m := by
  have hrx : (d.enable alloc segment).2.adapter.rx = (initRxRing alloc segment d.adapter.rx).2 := by
    rw [enable_adapter hd ho, (initHardware_rx alloc segment d.adapter).2.1]
  let s : RxRing := { d.adapter.rx with rxDesc := fun _ => .zero, rxIndex := 0 }
  obtain ⟨i, _, hi⟩ := mem_rxAllocated (s := s) (List.nodup_finRange 256) hm
  refine ⟨i, ?_⟩
  rw [hrx, initRxRing]
  rcases hl : initRxLoop alloc segment (List.finRange 256) s with ⟨ok, t⟩
  rw [hl] at hi
  cases ok with
  | true => exact hi
  | false => exact hi

/-! ## Sessions -/

/-- The driver with the mbufs it took, from `allocatePacket`, from `replaceOrCopyPacket` or from `outputPacket`, and
those it gave away, by `freePacket` or by `inputPacket`. -/
structure SessionWorld where
  driver : Driver
  acquired : List Mbuf
  disposed : List Mbuf

inductive SessionLabel
  | enable (alloc : Index → Option Mbuf) (segment : Index → Option Segment)
  | disable
  | output (p : Mbuf) (segments : List Segment) (reqs : ChecksumDemand)
  | complete (i : Index)
  | arrive (i : Index) (status : Word)
  | latch (v : Word)
  | handler (l : HandlerLabel)

/-- The mbufs that a step of the handler takes. -/
def HandlerLabel.acquired : HandlerLabel → List Mbuf
  | .rxRound o => o.replacement.obtained
  | _ => []

/-- The mbufs that a step of the handler gives away. -/
def Adapter.disposed (a : Adapter) : HandlerLabel → List Mbuf
  | .rxRound o => (rxRound a.rx o).flatMap RxAction.freed ++
      ((rxRound a.rx o).flatMap RxAction.delivered).filterMap Prod.fst
  | .txRound => reclaimFreed a.tx
  | _ => []

def SessionWorld.enable (alloc : Index → Option Mbuf) (segment : Index → Option Segment) (w : SessionWorld) :
    SessionWorld :=
  { w with
    driver := (w.driver.enable alloc segment).2
    acquired := w.acquired ++ if w.driver.isEnabled || w.driver.providerOpen then []
      else rxAllocated alloc segment (List.finRange 256) }

def SessionWorld.output (p : Mbuf) (segments : List Segment) (reqs : ChecksumDemand) (w : SessionWorld) :
    SessionWorld :=
  match w.driver.outputPacket p segments reqs with
  | (result, freed, writes) =>
    { driver := { w.driver with adapter := { w.driver.adapter with tx := applyAll writes w.driver.adapter.tx } }
      acquired := w.acquired ++ if result = .stall then [] else [p]
      disposed := w.disposed ++ freed }

/-- Calls in any order; from the first one that opens the provider on, packets, completions, frames and the handler. -/
inductive SessionStep : SessionWorld → SessionLabel → SessionWorld → Prop
  | enable {w : SessionWorld} (alloc : Index → Option Mbuf) (segment : Index → Option Segment) :
      w.driver.adapter.handler = .idle → SessionStep w (.enable alloc segment) (w.enable alloc segment)
  | disable {w : SessionWorld} : w.driver.adapter.handler = .idle →
      SessionStep w .disable { w with driver := w.driver.disable.2 }
  | output {w : SessionWorld} (p : Mbuf) (segments : List Segment) (reqs : ChecksumDemand) :
      segments.length ≤ txMaxSegCount → SessionStep w (.output p segments reqs) (w.output p segments reqs)
  | complete {w : SessionWorld} (i : Index) : w.driver.providerOpen = true →
      SessionStep w (.complete i) { w with
        driver := { w.driver with
          adapter := { w.driver.adapter with tx := clearOwner i w.driver.adapter.tx } } }
  | arrive {w : SessionWorld} (i : Index) (status : Word) : w.driver.providerOpen = true →
      (w.driver.adapter.rx.rxDesc i).owned = true →
      SessionStep w (.arrive i status) { w with
        driver := { w.driver with
          adapter := { w.driver.adapter with rx := fillDescriptor i status w.driver.adapter.rx } } }
  | latch {w : SessionWorld} (v : Word) : w.driver.providerOpen = true →
      SessionStep w (.latch v) { w with
        driver := { w.driver with
          adapter := { w.driver.adapter with intStatus := w.driver.adapter.intStatus ||| v } } }
  | handler {w : SessionWorld} {l : HandlerLabel} {a : Adapter} : w.driver.providerOpen = true →
      HandlerStep w.driver.adapter l a →
      SessionStep w (.handler l)
        { driver := { w.driver with adapter := a }
          acquired := w.acquired ++ l.acquired
          disposed := w.disposed ++ w.driver.adapter.disposed l }

/-- Before the first call. -/
def SessionInit (w : SessionWorld) : Prop := ∃ a : Adapter, a.handler = .idle ∧ w = ⟨⟨false, false, a⟩, [], []⟩

/-- Everything is undone: the provider is closed, and every mbuf was given away as often as it was taken. -/
structure Undone (w : SessionWorld) : Prop where
  closed : w.driver.providerOpen = false
  settled : ∀ m, w.acquired.count m ≤ w.disposed.count m

/-- What a call has to do: a failed `enable` and a `disable` leave everything undone, an `enable` of the enabled
controller takes nothing, and any other whose hardware initialisation succeeds succeeds. -/
def Undoes (e : Edge SessionWorld SessionLabel) : Prop :=
  match e.label with
  | .enable alloc segment =>
    (e.pre.driver.isEnabled = true → e.post = e.pre) ∧
      (e.pre.driver.isEnabled = false → (e.pre.driver.enable alloc segment).1 = .ioError → Undone e.post) ∧
      (e.pre.driver.isEnabled = false → HardwareOk alloc segment →
        (e.pre.driver.enable alloc segment).1 = .success)
  | .disable => Undone e.post
  | _ => True

/-- The call acquires nothing that it would have to undo. -/
def NothingToUndo (w : SessionWorld) : SessionLabel → Prop
  | .enable alloc segment => w.driver.isEnabled = true ∨ HardwareOk alloc segment
  | .disable => w.driver.isEnabled = false
  | _ => True

/-- While nothing has had to be undone, the provider is open exactly while the controller is enabled. -/
structure SessionInv (w : SessionWorld) : Prop where
  opened : w.driver.providerOpen = w.driver.isEnabled
  settled : w.driver.isEnabled = false → ∀ m, w.acquired.count m ≤ w.disposed.count m

section Sessions

variable {w v : SessionWorld} {l : SessionLabel}

/-- `outputPacket` frees the packet that a disabled controller is given. -/
theorem sessionInv_output (h : SessionInv w) (p : Mbuf) (segments : List Segment) (reqs : ChecksumDemand) :
    SessionInv (w.output p segments reqs) := by
  obtain ⟨hopen, hsettled⟩ := h
  refine ⟨hopen, fun hd m => ?_⟩
  have hd' : w.driver.isEnabled = false := hd
  have hs := hsettled hd' m
  simp only [SessionWorld.output, Driver.outputPacket, hd', Bool.false_eq_true, if_false, reduceCtorEq,
    List.count_append]
  omega

theorem undoes_good (h : SessionInv w) (hc : NothingToUndo w l) (hs : SessionStep w l v) :
    SessionInv v ∧ Undoes ⟨w, l, v⟩ := by
  cases hs with
  | enable alloc segment _ =>
    rcases enable_cases alloc segment w.driver with ⟨he, heq⟩ | ⟨hd, ho, _⟩ | ⟨hd, _, hbad, _⟩ | ⟨hd, ho, _, a, _, heq⟩
    · have hkeep : w.enable alloc segment = w := by
        simp [SessionWorld.enable, he, heq]
      rw [hkeep]
      exact ⟨h, fun _ => rfl, fun hd => by simp [he] at hd, fun hd => by simp [he] at hd⟩
    · rw [h.opened, hd] at ho
      cases ho
    · exact absurd (hc.resolve_left (by simp [hd])) hbad
    · refine ⟨⟨?_, ?_⟩, fun he => by simp [hd] at he, fun _ hr => ?_, fun _ _ => ?_⟩
      · simp [SessionWorld.enable, heq]
      · simp [SessionWorld.enable, heq]
      · rw [heq] at hr
        cases hr
      · rw [heq]
  | disable _ =>
    have hd : w.driver.isEnabled = false := hc
    exact ⟨⟨h.opened.trans hd, fun _ => h.settled hd⟩, h.opened.trans hd, h.settled hd⟩
  | output p segments reqs _ => exact ⟨sessionInv_output h p segments reqs, trivial⟩
  | complete i _ => exact ⟨⟨h.opened, h.settled⟩, trivial⟩
  | arrive i status _ _ => exact ⟨⟨h.opened, h.settled⟩, trivial⟩
  | latch v _ => exact ⟨⟨h.opened, h.settled⟩, trivial⟩
  | handler ho _ =>
    refine ⟨⟨h.opened, fun hd => ?_⟩, trivial⟩
    rw [h.opened] at ho
    rw [show w.driver.isEnabled = false from hd] at ho
    cases ho

/-- A call of `enable` that has something to undo leaves the provider open. -/
theorem enable_left_open (h : SessionInv w) {alloc : Index → Option Mbuf} {segment : Index → Option Segment}
    (hc : ¬ NothingToUndo w (.enable alloc segment)) :
    w.driver.isEnabled = false ∧
      ∃ a, w.driver.enable alloc segment = (.ioError, { w.driver with providerOpen := true, adapter := a }) := by
  rcases enable_cases alloc segment w.driver with ⟨he, _⟩ | ⟨hd, ho, _⟩ | ⟨hd, _, _, a, _, heq⟩ | ⟨_, _, hok, _⟩
  · exact absurd (Or.inl he) hc
  · rw [h.opened, hd] at ho
    cases ho
  · exact ⟨hd, a, heq⟩
  · exact absurd (Or.inr hok) hc

theorem undoes_bad (h : SessionInv w) (hc : ¬ NothingToUndo w l) (hs : SessionStep w l v) : ¬ Undoes ⟨w, l, v⟩ := by
  cases hs with
  | enable alloc segment _ =>
    obtain ⟨hd, a, heq⟩ := enable_left_open h hc
    intro hu
    have hclosed := (hu.2.1 hd (by rw [heq])).closed
    simp [SessionWorld.enable, heq] at hclosed
  | disable _ =>
    intro hu
    have hd : w.driver.isEnabled = false := h.opened.symm.trans hu.closed
    exact hc hd
  | _ => exact absurd trivial hc

/-- **Enabling and disabling undo what was acquired exactly where there is nothing to undo**: no `enable` of the run
fails in `initHardware`, and no `disable` finds the controller enabled. -/
theorem undoes_iff {es : List (Edge SessionWorld SessionLabel)} (h : Run SessionInit SessionStep es w) :
    (∀ e ∈ es, Undoes e) ↔ ∀ e ∈ es, NothingToUndo e.pre e.label := by
  refine h.forall_iff (I := SessionInv) ?_ (fun _ _ _ => undoes_good) fun _ _ _ => undoes_bad
  rintro _ ⟨a, _, rfl⟩
  exact ⟨rfl, fun _ _ => Nat.le_refl _⟩

end Sessions

/-! ## After a call that had something to undo -/

/-- The provider is open and the controller is not enabled. -/
structure ShutOut (w : SessionWorld) : Prop where
  opened : w.driver.providerOpen = true
  disabled : w.driver.isEnabled = false

section ShutOut

variable {w v : SessionWorld} {l : SessionLabel} {es : List (Edge SessionWorld SessionLabel)}

theorem ShutOut.enable (h : ShutOut w) (alloc : Index → Option Mbuf) (segment : Index → Option Segment) :
    w.driver.enable alloc segment = (.ioError, w.driver) := by
  simp [Driver.enable, h.opened, h.disabled]

/-- No step gets out. -/
theorem ShutOut.step (h : ShutOut w) (hs : SessionStep w l v) : ShutOut v := by
  cases hs with
  | enable alloc segment _ =>
    have hkeep : (w.enable alloc segment).driver = w.driver := by
      rw [SessionWorld.enable, h.enable]
    exact ⟨by rw [hkeep]; exact h.opened, by rw [hkeep]; exact h.disabled⟩
  | disable _ => exact ⟨h.opened, rfl⟩
  | _ => exact ⟨h.opened, h.disabled⟩

theorem shutOut_of_bad (h : SessionInv w) (hc : ¬ NothingToUndo w l) (hs : SessionStep w l v) : ShutOut v := by
  cases hs with
  | enable alloc segment _ =>
    obtain ⟨hd, a, heq⟩ := enable_left_open h hc
    exact ⟨by simp [SessionWorld.enable, heq], by simp [SessionWorld.enable, heq, hd]⟩
  | disable _ =>
    have he : w.driver.isEnabled = true := by
      rw [← Bool.not_eq_false]
      exact hc
    exact ⟨h.opened.trans he, rfl⟩
  | _ => exact absurd trivial hc

/-- From the first call on that had something to undo, every `enable` fails (`ShutOut.enable`). -/
theorem shutOut_run (h : Run SessionInit SessionStep es w) (hbad : ∃ e ∈ es, ¬ NothingToUndo e.pre e.label) :
    ShutOut w := by
  induction h with
  | start => simp at hbad
  | @step es s t l hr hs ih =>
    by_cases hearlier : ∃ e ∈ es, ¬ NothingToUndo e.pre e.label
    · exact (ih hearlier).step hs
    · push Not at hearlier
      have hinv : SessionInv s := by
        refine hr.guarded (I := SessionInv) ?_ (fun _ _ _ hi hc hs => (undoes_good hi hc hs).1) hearlier
        rintro _ ⟨a, _, rfl⟩
        exact ⟨rfl, fun _ _ => Nat.le_refl _⟩
      obtain ⟨e, he, hc⟩ := hbad
      rcases List.mem_append.mp he with he | he
      · exact absurd (hearlier e he) hc
      · rw [List.mem_singleton.mp he] at hc
        exact shutOut_of_bad hinv hc hs

end ShutOut

/-! ## Short runs -/

theorem rxAllocated_ok {alloc : Index → Option Mbuf} {segment : Index → Option Segment}
    (h : HardwareOk alloc segment) (is : List Index) : rxAllocated alloc segment is = is.filterMap alloc := by
  induction is with
  | nil => rfl
  | cons i is ih =>
    obtain ⟨m, hm⟩ := Option.isSome_iff_exists.mp (h.1 i)
    simp [rxAllocated, hm, h.2 i, ih]

/-- A controller that was just started, with one buffer for each mbuf. -/
def newSession : SessionWorld := ⟨⟨false, false, ⟨.idle, 0, bufferRing, startRing⟩⟩, [], []⟩

theorem buffers_ok : HardwareOk (fun i => some i.val) (fun i => some (buffer i.val)) := ⟨fun _ => rfl, fun _ => rfl⟩

/-- After the first `enable`. -/
theorem newSession_enable : newSession.enable (fun i => some i.val) (fun i => some (buffer i.val)) =
    ⟨⟨true, true, ⟨.idle, 0, bufferRing, initTxRing startRing⟩⟩, (List.finRange 256).map Fin.val, []⟩ := by
  have hrx := bufferRing_init bufferRing
  have henable : newSession.driver.enable (fun i => some i.val) (fun i => some (buffer i.val)) =
      (.success, ⟨true, true, ⟨.idle, 0, bufferRing, initTxRing startRing⟩⟩) := by
    simp [Driver.enable, initHardware, initTransmitReceiveBuffers, softReset, ackAll, newSession, hrx]
  rw [SessionWorld.enable, henable, rxAllocated_ok buffers_ok]
  simp [newSession]

/-- `disable` and `enable`, then a packet sent, a frame received and a call of the handler that serves both, then
`enable` again. -/
theorem undoes_iff_served : ∃ es w, Run SessionInit SessionStep es w ∧ es.length = 15 ∧ w.disposed = [0, 300] ∧
    ∀ e ∈ es, Undoes e := by
  have h1 := (Run.start ⟨_, rfl, rfl⟩ : Run SessionInit SessionStep [] newSession).step (.disable rfl)
  have h2 := h1.step (.enable (fun i => some i.val) (fun i => some (buffer i.val)) rfl)
  have henable : SessionWorld.enable (fun i => some i.val) (fun i => some (buffer i.val))
      { newSession with driver := newSession.driver.disable.2 } =
        ⟨⟨true, true, ⟨.idle, 0, bufferRing, initTxRing startRing⟩⟩, (List.finRange 256).map Fin.val, []⟩ :=
    newSession_enable
  rw [henable] at h2
  have h4 := (h2.step (.output 300 [segment64] ⟨true, false, false⟩ (by decide))).step (.complete 0 rfl)
  have h6 := (h4.step (.arrive 0 64 rfl rfl)).step (.latch (intRxDone ||| intTxDone) rfl)
  have h8 := (h6.step (.handler rfl (.read rfl))).step (.handler rfl (.ack rfl))
  have h10 := (h8.step (.handler rfl (.scanRx rfl rfl))).step
    (.handler rfl (.rxRound ⟨.replaced 256, some (buffer 0)⟩ rfl rfl))
  have h12 := (h10.step (.handler rfl (.leaveRx rfl rfl))).step (.handler rfl (.scanTx rfl rfl))
  have h14 := (h12.step (.handler rfl (.txRound rfl rfl))).step (.handler rfl (.leaveTx rfl rfl))
  have h15 := h14.step (.enable (fun i => some i.val) (fun i => some (buffer i.val)) rfl)
  refine ⟨_, _, h15, rfl, rfl, (undoes_iff h15).mpr ?_⟩
  simp [NothingToUndo, newSession, buffers_ok]

/-- `enable`, `disable`, `enable`: the last call fails although its hardware initialisation would succeed, and the 256
mbufs of the first are still taken. -/
theorem undoes_lost : ∃ es w alloc segment, Run SessionInit SessionStep es w ∧ HardwareOk alloc segment ∧
    es.map Edge.label = [.enable alloc segment, .disable, .enable alloc segment] ∧
    (∀ e ∈ es.drop 2, (e.pre.driver.enable alloc segment).1 = .ioError) ∧
    w.driver.providerOpen = true ∧ w.acquired.length = 256 ∧ w.disposed = [] ∧ ¬ ∀ e ∈ es, Undoes e := by
  have h0 : Run SessionInit SessionStep [] newSession := .start ⟨_, rfl, rfl⟩
  have h1 := h0.step (.enable (fun i => some i.val) (fun i => some (buffer i.val)) rfl)
  rw [newSession_enable] at h1
  have h2 := h1.step (.disable rfl)
  have h3 := h2.step (.enable (fun i => some i.val) (fun i => some (buffer i.val)) rfl)
  refine ⟨_, _, _, _, h3, buffers_ok, rfl, ?_, rfl, ?_, rfl, fun hall => ?_⟩
  · intro e he
    rw [List.mem_singleton.mp he]
    rfl
  · simp [SessionWorld.enable, Driver.disable]
  · have hdisable : Undone _ := hall _ (List.mem_append_left _ (List.mem_append_right _ (List.mem_singleton.mpr rfl)))
    have hclosed := hdisable.closed
    cases hclosed

end Osx360.Ethernet
