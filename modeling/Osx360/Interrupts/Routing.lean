import Osx360.Interrupts.Masking

/-!
# Routing of interrupts

The entry of a device in the PCI bridge says to which processors its interrupt goes, and as which vector. `start` masks
all entries, `enableVector` and `disableVectorHard` write them while interrupts come in.

- in every run an entry is masked, or routes its device to CPU 0 alone, as the vector that `handleInterrupt` takes back
  to this entry; entries without a vector stay masked (`bridge_routes`);
- an interrupt that the bridge lets through is answered: its handler is called, or, when its vector is disabled, its
  entry is masked and no other (`irq_answered`).
-/

set_option autoImplicit false

namespace Osx360.Interrupts

open Osx360.Lib

universe u

/-! ## Entries of the bridge -/

/-- `BITRange`. -/
def bitRange (start last : ℕ) : Word := (((0xFFFFFFFF : Word) <<< (31 - last)) >>> (31 - last + start)) <<< start

/-- `kXenonPCIBridgeVectorCount`. -/
def bridgeVectorCount : ℕ := 16

def bridgeIntTargetCPUShift : ℕ := 8
def bridgeIntTargetCPUMask : Word := bitRange 8 13
def bridgeIntCPUIRQShift : ℕ := 2
def bridgeIntCPUMask : Word := bitRange 0 5

/-- What `start` writes to `kXenonICRegLogicalID` of CPU 0. -/
def logicalID : Word := 1

/-- Where an interrupt goes: the processors by their logical IDs, and the vector. -/
structure Route where
  cpus : Word
  vector : ℕ
  deriving DecidableEq

/-- What the fields of an entry say. -/
def bridgeRoute (entry : Word) : Option Route :=
  if has entry bridgeIntEnabled then
    some ⟨(entry &&& bridgeIntTargetCPUMask) >>> bridgeIntTargetCPUShift,
      ((entry &&& bridgeIntCPUMask) <<< bridgeIntCPUIRQShift).toNat⟩
  else none

/-- The entry that `enableVector` writes. -/
def irqState (vectorNumber : ℕ) : Word :=
  bridgeIntEnabled ||| (1 <<< 8) ||| 0x80 ||| BitVec.ofNat 32 (vectorNumber >>> 2)

/-- The loop of `start` that masks the entries. -/
def maskBridge (bridge : ℕ → Word) : ℕ → Word :=
  (List.range bridgeVectorCount).foldl (fun b i => Function.update b i 0) bridge

section Entries

variable {n v : ℕ}

@[simp] theorem bridgeRoute_zero : bridgeRoute 0 = none := by decide

theorem has_enabled {entry : Word} {route : Route} (h : bridgeRoute entry = some route) :
    has entry bridgeIntEnabled = true := by
  rw [bridgeRoute] at h
  split_ifs at h with henabled
  exact henabled

/-- The fields of an entry give back the vector that it was made for. -/
theorem bridgeRoute_irqState (hv : Mapped v) : bridgeRoute (irqState v) = some ⟨logicalID, v⟩ := by
  have hall : ∀ e ∈ cpuInterruptAssignments, bridgeRoute (irqState e.1) = some ⟨logicalID, e.1⟩ := by decide
  exact hall (v, sXenonCPUInterruptMap v) (mem_of_mapped hv.2)

/-- Mapped vectors have an entry. -/
theorem map_lt (hv : Mapped v) : sXenonCPUInterruptMap v < bridgeVectorCount := by
  have hall : ∀ e ∈ cpuInterruptAssignments, e.2 < bridgeVectorCount := by decide
  exact hall _ (mem_of_mapped hv.2)

theorem mapped_ne_xenos (hv : Mapped v) : v ≠ vectorXenos := by
  have hall : ∀ e ∈ cpuInterruptAssignments, e.1 ≠ vectorXenos := by decide
  exact hall _ (mem_of_mapped hv.2)

theorem foldl_update_apply (b : ℕ → Word) (l : List ℕ) (hn : n ∈ l ∨ b n = 0) :
    l.foldl (fun b i => Function.update b i 0) b n = 0 := by
  induction l generalizing b with
  | nil => exact hn.resolve_left List.not_mem_nil
  | cons i l ih =>
    refine ih (Function.update b i 0) ?_
    by_cases hi : n = i
    · exact Or.inr (by rw [hi, Function.update_self])
    · rw [Function.update_of_ne hi]
      exact hn.imp_left fun hmem => (List.mem_cons.mp hmem).resolve_left hi

theorem maskBridge_apply (b : ℕ → Word) (hn : n < bridgeVectorCount) : maskBridge b n = 0 :=
  foldl_update_apply b _ (Or.inl (List.mem_range.mpr hn))

end Entries

/-! ## What an entry may be -/

/-- The entry is masked, or routes to CPU 0 as its own vector. -/
def Routed (bridge : ℕ → Word) (n : ℕ) : Prop :=
  bridge n = 0 ∨ ∃ v, Mapped v ∧ sXenonCPUInterruptMap v = n ∧ bridge n = irqState v

section Steps

variable {c : Controller} {n v : ℕ}

theorem Routed.disableVectorHard (h : Routed c.bridge n) : Routed (disableVectorHard c v).bridge n := by
  rw [Interrupts.disableVectorHard]
  dsimp only
  split_ifs with hge hinvalid
  · exact h
  · exact h
  · by_cases hn : n = sXenonCPUInterruptMap v
    · exact Or.inl (by simp [hn])
    · simpa [Routed, Function.update_of_ne hn] using h

theorem Routed.enableVector (h : Routed c.bridge n) : Routed (enableVector c v).bridge n := by
  rw [Interrupts.enableVector]
  dsimp only
  split_ifs with hge hinvalid
  · exact h
  · exact h
  · by_cases hn : n = sXenonCPUInterruptMap v
    · exact Or.inr ⟨v, ⟨Nat.lt_of_not_le hge, hinvalid⟩, hn.symm, by simp [hn, irqState]⟩
    · simpa [Routed, Function.update_of_ne hn] using h

theorem Routed.enableInterrupt (h : Routed c.bridge n) : Routed (enableInterrupt c v).bridge n := by
  rw [Interrupts.enableInterrupt]
  dsimp only
  split_ifs
  · exact Routed.enableVector (c := clearHard (clearSoft c v) v) h
  · exact h
  · exact h

theorem Routed.enableStep (h : Routed c.bridge n) (pc : EnablePc) : Routed (enableStep c pc).2.bridge n := by
  cases pc with
  | called v | softCleared v =>
    rw [Interrupts.enableStep]
    split <;> exact h
  | hardCleared v => exact h.enableVector
  | _ => exact h

theorem Routed.call (h : Routed c.bridge n) (call : Call) : Routed (call.exec c).bridge n := by
  cases call with
  | enable v => exact h.enableInterrupt
  | disable v => exact h

theorem Routed.execCalls (h : Routed c.bridge n) (calls : List Call) : Routed (execCalls calls c).bridge n := by
  induction calls generalizing c with
  | nil => exact h
  | cons call calls ih => exact ih (h.call call)

theorem Routed.serviceVector (h : Routed c.bridge n) (calls : List Call) :
    Routed (serviceVector (fun _ => Interrupts.execCalls calls) c v).2.bridge n := by
  rw [Interrupts.serviceVector]
  dsimp only
  split_ifs
  · exact Routed.execCalls (c := c.modify v fun vector => { vector with interruptActive := true }) h calls
  · exact h
  · exact Routed.disableVectorHard (c := (c.modify v fun vector => { vector with interruptActive := true }).modify v
      fun vector => { vector with interruptDisabledHard := true }) h

theorem Routed.handleCalls (h : Routed c.bridge n) {ic : Ic} {i : Irq} (hi : ic.next = some i) (calls : List Call) :
    Routed (handleCalls calls ic c).ctl.bridge n := by
  rw [Interrupts.handleCalls]
  by_cases hx : i.vector = vectorXenos
  · rw [handleInterrupt_xenos hi hx]
    exact h
  · rw [handleInterrupt_some hi hx]
    exact h.serviceVector calls

/-- An interrupt of a registered vector is handled, or its vector is disabled and its entry alone is masked. -/
theorem serviceVector_answers (handler : ℕ → Controller → Controller) (hv : Mapped v)
    (hreg : (c.view v).registered = true) :
    (c.view v).soft = false ∧ (serviceVector handler c v).1 = true ∨
      (c.view v).soft = true ∧ (serviceVector handler c v).1 = false ∧
        (serviceVector handler c v).2.bridge = Function.update c.bridge (sXenonCPUInterruptMap v) 0 := by
  have hactive := @view_modify_active c v v true
  have hbridge : (c.modify v fun vector => { vector with interruptActive := true }).bridge = c.bridge := rfl
  generalize hc : (c.modify v fun vector => { vector with interruptActive := true }) = c' at hactive hbridge
  have hsoft : (c'.vectors v).interruptDisabledSoft = (c.view v).soft := congrArg View.soft hactive
  have hreg' : (c'.vectors v).interruptRegistered = true := (congrArg View.registered hactive).trans hreg
  rw [Interrupts.serviceVector, hc]
  dsimp only
  rw [hsoft, hreg']
  cases (c.view v).soft with
  | false => exact Or.inl ⟨rfl, rfl⟩
  | true =>
    refine Or.inr ⟨rfl, rfl, ?_⟩
    rw [← hbridge]
    simp [Controller.modify, Interrupts.disableVectorHard, Nat.not_le.mpr hv.1, hv.2]

end Steps

/-! ## Runs -/

section Runs

variable {ι : Type u} {w w' : MaskWorld ι} {l : MaskLabel ι}

/-- `start` has masked the entries, whatever was in them, and cleared the vectors. -/
def RouteInit (w : MaskWorld ι) : Prop :=
  (∀ v, w.ctl.vectors v = ⟨false, false, false, false⟩) ∧ (∃ bridge, w.ctl.bridge = maskBridge bridge) ∧
    ∀ t, w.threads t = .idle

structure RouteInv (w : MaskWorld ι) : Prop where
  routed : ∀ n < bridgeVectorCount, Routed w.ctl.bridge n
  mask : MaskInv w

theorem routeInv_init (h : RouteInit w) : RouteInv w := by
  obtain ⟨hvectors, ⟨bridge, hbridge⟩, hthreads⟩ := h
  have hzero : ∀ n < bridgeVectorCount, w.ctl.bridge n = 0 := fun n hn => by rw [hbridge, maskBridge_apply _ hn]
  refine ⟨fun n hn => Or.inl (hzero n hn), fun v hv => ?_⟩
  have hview : w.ctl.view v = ⟨false, false, false, true⟩ := by
    rw [Controller.view, hvectors, hzero _ (map_lt hv), show (0 : Word) = 0#32 from rfl, has_zero]
    rfl
  rw [hview]
  exact ⟨fun hr => absurd hr Bool.false_ne_true, fun _ => rfl, fun _ t => by simp [hthreads, EnablePc.vector?]⟩

variable [DecidableEq ι]

theorem routeInv_step (h : RouteInv w) (hs : MaskStep w l w') : RouteInv w' := by
  refine ⟨fun n hn => ?_, maskInv_step h.mask hs⟩
  have hrouted := h.routed n hn
  cases hs with
  | register | disable | enable => exact hrouted
  | advance t => exact hrouted.enableStep _
  | interrupt ic i calls hi => exact hrouted.handleCalls hi calls

variable {es : List (Edge (MaskWorld ι) (MaskLabel ι))}

/-- **Entries of the bridge.** -/
theorem bridge_routes (h : Run RouteInit MaskStep es w) {n : ℕ} (hn : n < bridgeVectorCount) :
    w.ctl.bridge n = 0 ∨ ∃ v, Mapped v ∧ sXenonCPUInterruptMap v = n ∧
      bridgeRoute (w.ctl.bridge n) = some ⟨logicalID, v⟩ := by
  have hI := h.invariant (I := RouteInv) (fun _ => routeInv_init) fun _ _ _ => routeInv_step
  refine (hI.routed n hn).imp_right ?_
  rintro ⟨v, hv, hmap, hentry⟩
  exact ⟨v, hv, hmap, by rw [hentry, bridgeRoute_irqState hv]⟩

/-- The Ethernet interrupt was registered and enabled. -/
theorem bridge_routes_enabled : ∃ es w, Run RouteInit (@MaskStep Bool _) es w ∧ es.length = 7 ∧
    w.ctl.bridge 10 = irqState vectorEthernet ∧
    ∀ n < bridgeVectorCount, w.ctl.bridge n = 0 ∨ ∃ v, Mapped v ∧ sXenonCPUInterruptMap v = n ∧
      bridgeRoute (w.ctl.bridge n) = some ⟨logicalID, v⟩ := by
  have h0 : Run RouteInit (@MaskStep Bool _) [] ⟨⟨fun _ => ⟨false, false, false, false⟩, maskBridge fun _ => 7⟩,
      fun _ => .idle⟩ := .start ⟨fun _ => rfl, ⟨_, rfl⟩, fun _ => rfl⟩
  have h1 := h0.step (.register _ vectorEthernet rfl)
  have h2 := h1.step (.enable _ true vectorEthernet rfl rfl)
  have h3 := ((h2.step (.advance _ true)).step (.advance _ true)).step (.advance _ true)
  have h4 := (h3.step (.advance _ true)).step (.advance _ true)
  exact ⟨_, _, h4, rfl, rfl, fun n hn => bridge_routes h4 hn⟩

/-- **Every interrupt of the bridge is answered.** What the bridge routes comes from the entry's own vector; its handler
is called, or the vector is disabled and this entry is masked, and no other. -/
theorem irq_answered (h : Run RouteInit MaskStep es w) {n : ℕ} (hn : n < bridgeVectorCount) {route : Route}
    (hroute : bridgeRoute (w.ctl.bridge n) = some route) {ic : Ic} {i : Irq} (hi : ic.next = some i)
    (hvec : i.vector = route.vector) (calls : List Call) :
    (handleCalls calls ic w.ctl).panicked = false ∧ ((w.ctl.view i.vector).soft = false ∧
      (handleCalls calls ic w.ctl).called = true ∨ (w.ctl.view i.vector).soft = true ∧
        (handleCalls calls ic w.ctl).called = false ∧
          (handleCalls calls ic w.ctl).ctl.bridge = Function.update w.ctl.bridge n 0) := by
  have hI := h.invariant (I := RouteInv) (fun _ => routeInv_init) fun _ _ _ => routeInv_step
  rcases hI.routed n hn with hzero | ⟨v, hv, hmap, hentry⟩
  · rw [hzero, bridgeRoute_zero] at hroute
    cases hroute
  · have hunmasked : (w.ctl.view v).masked = false := by
      rw [Controller.view, hmap, has_enabled hroute]
      rfl
    rw [hentry, bridgeRoute_irqState hv] at hroute
    obtain rfl := Option.some.inj hroute
    obtain rfl : i.vector = v := hvec
    -- an entry is unmasked only by a call for a registered vector
    have hreg : (w.ctl.view i.vector).registered = true := by
      refine Bool.eq_true_of_not_eq_false fun hn => ?_
      rw [(hI.mask _ hv).masked hn] at hunmasked
      cases hunmasked
    rw [handleCalls, handleInterrupt_some hi (mapped_ne_xenos hv), ← hmap]
    exact ⟨rfl, serviceVector_answers (fun _ => execCalls calls) hv hreg⟩

/-- The Ethernet interrupt comes in when its vector was enabled and disabled again. -/
theorem irq_answered_disabled : ∃ es w, Run RouteInit (@MaskStep Bool _) es w ∧
    bridgeRoute (w.ctl.bridge 10) = some ⟨logicalID, vectorEthernet⟩ ∧
    ((handleCalls [] ethernetIc w.ctl).panicked = false ∧ ((w.ctl.view vectorEthernet).soft = false ∧
      (handleCalls [] ethernetIc w.ctl).called = true ∨ (w.ctl.view vectorEthernet).soft = true ∧
        (handleCalls [] ethernetIc w.ctl).called = false ∧
          (handleCalls [] ethernetIc w.ctl).ctl.bridge = Function.update w.ctl.bridge 10 0)) := by
  have h0 : Run RouteInit (@MaskStep Bool _) [] ⟨⟨fun _ => ⟨false, false, false, false⟩, maskBridge fun _ => 7⟩,
      fun _ => .idle⟩ := .start ⟨fun _ => rfl, ⟨_, rfl⟩, fun _ => rfl⟩
  have h1 := h0.step (.register _ vectorEthernet rfl)
  have h2 := h1.step (.enable _ true vectorEthernet rfl rfl)
  have h3 := ((h2.step (.advance _ true)).step (.advance _ true)).step (.advance _ true)
  have h4 := (h3.step (.advance _ true)).step (.advance _ true)
  have h5 := h4.step (.disable _ true vectorEthernet rfl rfl)
  have hroute : bridgeRoute (irqState vectorEthernet) = some ⟨logicalID, vectorEthernet⟩ := by decide
  exact ⟨_, _, h5, hroute, irq_answered h5 (n := 10) (by decide) hroute (i := ethernetIrq) rfl rfl []⟩

end Runs

end Osx360.Interrupts
