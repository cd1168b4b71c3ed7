import Osx360.Ethernet.ReceiveOwnership

/-!
# Single writes and a controller that fills the receive ring

The actions of `handleRxInterrupt`, in program order, interleaved with a controller that fills the descriptors it owns
in ring order (`RxDmaStep`), every call succeeding. Buffers have contents, so that a delivered packet can be compared
with the frame received. What the invariant of these runs needs about single actions: before the descriptor is handed
back a round touches that descriptor and its slot only (`prepares`), and commutes with the controller
(`Prepares.comm`).
-/

set_option autoImplicit false

namespace Osx360.Ethernet

open Osx360.Lib

/-! ## The system -/

/-- Where the driver is: outside `handleRxInterrupt`, at the head of its loop, or in a round with actions to come. -/
inductive RxDriver
  | idle
  | scanning
  | round (todo : List RxAction)

/-- Where the controller is: at the next descriptor, or in it with frame and status written. -/
inductive RxController (Frame : Type)
  | waiting
  | filling (frame : Frame) (status : Word)

structure RxDmaWorld (Frame : Type) where
  ring : RxRing
  driver : RxDriver
  controller : RxController Frame
  /-- The controller's descriptor; past the ring if it ran over the end. -/
  next : ℕ
  /-- What the buffer at each address holds. -/
  memory : Word → Frame
  /-- The frames received with the status words written for them. -/
  received : List (Frame × Word)
  /-- The frames handed to the interface with the lengths given. -/
  delivered : List (Frame × BitVec 16)
  /-- How often the driver has moved on. -/
  advanced : ℕ

variable {Frame : Type}

/-- One action of the driver. -/
def RxDmaWorld.act (buffers : Mbuf → Segment) (w : RxDmaWorld Frame) (a : RxAction) (todo : List RxAction) :
    RxDmaWorld Frame :=
  { w with
    ring := a.apply w.ring
    driver := .round todo
    delivered := w.delivered ++ (match a with
      | .input (some m) packetLength => [(w.memory (buffers m).location, packetLength)]
      | _ => [])
    advanced := w.advanced + (match a with
      | .rxIndex _ => 1
      | _ => 0) }

/-- `replaceOrCopyPacket` copies the frame. -/
def copyFrame (buffers : Mbuf → Segment) (s : RxRing) (memory : Word → Frame) : Replacement → Word → Frame
  | .copied m => match s.rxPackets s.rxIndex with
    | some packet => Function.update memory (buffers m).location (memory (buffers packet).location)
    | none => memory
  | _ => memory

def writeStatus (i : Index) (status : Word) (s : RxRing) : RxRing :=
  s.modifyDesc i fun d => { d with packetLength := status }

def giveBack (i : Index) (s : RxRing) : RxRing :=
  s.modifyDesc i fun d => { d with flags := d.flags &&& ~~~rxFlagsOwner }

inductive RxDmaLabel (Frame : Type)
  | interrupt
  | round (o : RxOutcome)
  | act
  | again
  | done
  | fill (frame : Frame) (status : Word)
  | finish

/-- The steps. A call allocates an mbuf whose buffer is none of those in the slots, and the memory cursor returns the
buffer of the packet it is given. -/
inductive RxDmaStep (buffers : Mbuf → Segment) : RxDmaWorld Frame → RxDmaLabel Frame → RxDmaWorld Frame → Prop
  | interrupt {w : RxDmaWorld Frame} : w.driver = .idle →
      RxDmaStep buffers w .interrupt { w with driver := .scanning }
  | round {w : RxDmaWorld Frame} (o : RxOutcome) : w.driver = .scanning → rxReady w.ring = true →
      o.replacement ≠ .failed → o.segment.isSome →
      (∀ m ∈ o.replacement.obtained, ∀ i m', w.ring.rxPackets i = some m' →
        (buffers m').location ≠ (buffers m).location) →
      (∀ seg m, o.segment = some seg → o.packet w.ring = some m → seg = buffers m) →
      RxDmaStep buffers w (.round o)
        { w with driver := .round (rxRound w.ring o), memory := copyFrame buffers w.ring w.memory o.replacement }
  | act {w : RxDmaWorld Frame} {a : RxAction} {todo : List RxAction} : w.driver = .round (a :: todo) →
      RxDmaStep buffers w .act (w.act buffers a todo)
  | again {w : RxDmaWorld Frame} : w.driver = .round [] → RxDmaStep buffers w .again { w with driver := .scanning }
  | done {w : RxDmaWorld Frame} : w.driver = .scanning → rxReady w.ring = false →
      RxDmaStep buffers w .done { w with driver := .idle }
  | fill {w : RxDmaWorld Frame} {i : Index} (frame : Frame) (status : Word) : w.controller = .waiting →
      w.next = i.val → (w.ring.rxDesc i).owned = true →
      RxDmaStep buffers w (.fill frame status)
        { w with
          ring := writeStatus i status w.ring
          controller := .filling frame status
          memory := Function.update w.memory (w.ring.rxDesc i).address frame }
  | finish {w : RxDmaWorld Frame} {i : Index} {frame : Frame} {status : Word} :
      w.controller = .filling frame status → w.next = i.val →
      RxDmaStep buffers w .finish
        { w with
          ring := giveBack i w.ring
          controller := .waiting
          next := if (w.ring.rxDesc i).hasEnd then 0 else i.val + 1
          received := w.received ++ [(frame, status)] }

/-- After a successful `initTransmitReceiveBuffers` whose mbufs have distinct buffers. -/
def RxDmaInit (buffers : Mbuf → Segment) (w : RxDmaWorld Frame) : Prop :=
  ∃ (alloc : Index → Option Mbuf) (segment : Index → Option Segment) (s t : RxRing) (memory : Word → Frame),
    initRxRing alloc segment s = (true, t) ∧
      (∀ i j m n, alloc i = some m → alloc j = some n → (buffers m).location = (buffers n).location → i = j) ∧
      (∀ i seg m, segment i = some seg → alloc i = some m → seg = buffers m) ∧
      w = ⟨t, .idle, .waiting, 0, memory, [], [], 0⟩

/-! ## Preparing a descriptor -/

/-- The action touches descriptor or slot `i` only, and not the flags. -/
def RxAction.Prepares (i : Index) : RxAction → Prop
  | .packet j _ => j = i
  | .address j _ => j = i
  | .length j _ => j = i
  | .orLength j _ => j = i
  | _ => False

theorem prepares (s : RxRing) {o : RxOutcome} (h : o.segment.isSome) : ∀ a ∈ rxPrepare s o, a.Prepares s.rxIndex := by
  obtain ⟨seg, hseg⟩ := Option.isSome_iff_exists.mp h
  intro a ha
  unfold rxPrepare at ha
  rw [hseg, List.mem_append, List.mem_append] at ha
  rcases ha with (ha | ha) | ha
  · split at ha
    · rw [List.mem_singleton.mp ha]
      rfl
    · cases ha
  · simp only [List.mem_cons, List.not_mem_nil, or_false] at ha
    rcases ha with rfl | rfl <;> rfl
  · split at ha
    · rw [List.mem_singleton.mp ha]
      rfl
    · cases ha

theorem rxModifyDesc_comm {s : RxRing} {i j : Index} (h : j ≠ i) (f g : Descriptor → Descriptor) :
    (s.modifyDesc i f).modifyDesc j g = (s.modifyDesc j g).modifyDesc i f := by
  simp [RxRing.modifyDesc, Function.update_of_ne h, Function.update_of_ne (Ne.symm h), Function.update_comm h]

section Prepares

variable {a : RxAction} {i j : Index}

theorem RxAction.Prepares.comm (h : a.Prepares i) (hj : j ≠ i) (s : RxRing) (f : Descriptor → Descriptor) :
    a.apply (s.modifyDesc j f) = (a.apply s).modifyDesc j f := by
  cases a with
  | packet k p => rfl
  | address k v =>
    cases h
    exact rxModifyDesc_comm hj.symm f fun d => { d with address := v }
  | length k v =>
    cases h
    exact rxModifyDesc_comm hj.symm f fun d => { d with length := v }
  | orLength k v =>
    cases h
    exact rxModifyDesc_comm hj.symm f fun d => { d with length := d.length ||| v }
  | _ => cases h

/-- What an action leaves as it is. -/
theorem RxAction.Prepares.frame (h : a.Prepares i) (s : RxRing) : (a.apply s).rxIndex = s.rxIndex ∧
    (∀ k, ((a.apply s).rxDesc k).flags = (s.rxDesc k).flags) ∧
      ∀ k, k ≠ i → (a.apply s).rxDesc k = s.rxDesc k ∧ (a.apply s).rxPackets k = s.rxPackets k := by
  have hdesc : ∀ f : Descriptor → Descriptor, (∀ d, (f d).flags = d.flags) →
      (∀ k, ((s.modifyDesc i f).rxDesc k).flags = (s.rxDesc k).flags) ∧
        ∀ k, k ≠ i → (s.modifyDesc i f).rxDesc k = s.rxDesc k ∧ (s.modifyDesc i f).rxPackets k = s.rxPackets k := by
    intro f hf
    refine ⟨fun k => ?_, fun k hk => ⟨Function.update_of_ne hk _ _, rfl⟩⟩
    by_cases hk : k = i
    · subst hk
      simp [RxRing.modifyDesc, hf]
    · simp [RxRing.modifyDesc, Function.update_of_ne hk]
  cases a with
  | packet k p =>
    cases h
    exact ⟨rfl, fun _ => rfl, fun k hk => ⟨rfl, Function.update_of_ne hk _ _⟩⟩
  | address k v =>
    cases h
    exact ⟨rfl, hdesc (fun d => { d with address := v }) fun _ => rfl⟩
  | length k v =>
    cases h
    exact ⟨rfl, hdesc (fun d => { d with length := v }) fun _ => rfl⟩
  | orLength k v =>
    cases h
    exact ⟨rfl, hdesc (fun d => { d with length := d.length ||| v }) fun _ => rfl⟩
  | _ => cases h

/-- Nothing is handed on and the driver does not move on. -/
theorem RxAction.Prepares.act (h : a.Prepares i) (buffers : Mbuf → Segment) (w : RxDmaWorld Frame)
    (todo : List RxAction) : w.act buffers a todo = { w with ring := a.apply w.ring, driver := .round todo } := by
  cases a with
  | flags _ _ => cases h
  | free _ => cases h
  | input _ _ => cases h
  | rxIndex _ => cases h
  | _ => simp [RxDmaWorld.act]

theorem applyRx_comm (hj : j ≠ i) (f : Descriptor → Descriptor) {as : List RxAction} (h : ∀ a ∈ as, a.Prepares i)
    (s : RxRing) : applyRx as (s.modifyDesc j f) = (applyRx as s).modifyDesc j f := by
  induction as generalizing s with
  | nil => rfl
  | cons a as ih =>
    rw [applyRx_cons, applyRx_cons, (h a List.mem_cons_self).comm hj]
    exact ih (fun b hb => h b (List.mem_cons_of_mem _ hb)) _

end Prepares

end Osx360.Ethernet
