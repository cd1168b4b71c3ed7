import Mathlib.Data.List.Basic
import Mathlib.Logic.Function.Basic
import Osx360.Lib.Bits
import Osx360.Lib.Run

/-!
# Device configurations

`selectConfig` and `getConfig` of `XenonSATA.cpp`, over any sequence of calls. `selectConfig` stores the packet
configuration only, and it checks neither its request nor its unit as `getConfig` does: the calls of a run do what they
should exactly if every `selectConfig` has a request and a unit of the controller, and every `getConfig` finds that the
modes asked for are the ones in `busTimings`, to which nothing is ever written (`config_iff`).
-/

set_option autoImplicit false

namespace Osx360.Sata

open Osx360.Lib

/-! ## The controller -/

universe u

/-- The request; of packet configurations the driver knows nothing but that it can pass them on. -/
structure IOATADevConfig (PacketConfig : Type u) where
  pioMode : BitVec 8
  dmaMode : BitVec 8
  pioCycleTime : BitVec 16
  dmaCycleTime : BitVec 16
  packetConfig : PacketConfig
  ultraMode : BitVec 16

structure ATABusTimings where
  ataPIOSpeedMode : BitVec 8
  ataPIOCycleTime : BitVec 16
  ataMultiDMASpeed : BitVec 8
  ataMultiCycleTime : BitVec 16
  ataUltraDMASpeedMode : BitVec 16

/-- The records by unit numbers; a number above 1 stands for what is in memory where a record of that number would be.
Of `_devInfo` there is the member `packetSend`. -/
structure XenonSATA (PacketConfig : Type u) where
  busTimings : Word → ATABusTimings
  packetSend : Word → PacketConfig

/-- `kATANoErr` and -1. -/
inductive IOReturn
  | noErr
  | error
  deriving DecidableEq

section Functions

variable {PacketConfig : Type u}

/-- The controller and the answer; none where a request that is NULL is read. -/
def selectConfig (configRequest : Option (IOATADevConfig PacketConfig)) (unitNumber : Word)
    (c : XenonSATA PacketConfig) : Option (XenonSATA PacketConfig × IOReturn) :=
  configRequest.map fun request =>
    ({ c with packetSend := Function.update c.packetSend unitNumber request.packetConfig }, .noErr)

/-- The answer and the request afterwards. -/
def getConfig (configRequest : Option (IOATADevConfig PacketConfig)) (unitNumber : Word)
    (c : XenonSATA PacketConfig) : IOReturn × Option (IOATADevConfig PacketConfig) :=
  match configRequest with
  | none => (.error, none)
  | some request =>
    if unitNumber.toNat > 1 then (.error, some request)
    else
      (.noErr, some
        { pioMode := (c.busTimings unitNumber).ataPIOSpeedMode
          dmaMode := (c.busTimings unitNumber).ataMultiDMASpeed
          pioCycleTime := (c.busTimings unitNumber).ataPIOCycleTime
          dmaCycleTime := (c.busTimings unitNumber).ataMultiCycleTime
          packetConfig := c.packetSend unitNumber
          ultraMode := (c.busTimings unitNumber).ataUltraDMASpeedMode })

end Functions

/-! ## Runs of calls -/

/-- The controller and the requests that `selectConfig` accepted last, by units. -/
structure ConfigWorld (PacketConfig : Type u) where
  controller : XenonSATA PacketConfig
  accepted : Word → Option (IOATADevConfig PacketConfig)

inductive ConfigLabel (PacketConfig : Type u)
  | select (configRequest : Option (IOATADevConfig PacketConfig)) (unitNumber : Word)
  | get (configRequest : Option (IOATADevConfig PacketConfig)) (unitNumber : Word)

section Steps

variable {PacketConfig : Type u}

/-- The calls. After a read through NULL there may be anything. -/
inductive ConfigStep : ConfigWorld PacketConfig → ConfigLabel PacketConfig → ConfigWorld PacketConfig → Prop
  | select {w : ConfigWorld PacketConfig} {configRequest : Option (IOATADevConfig PacketConfig)} {unitNumber : Word}
      {c : XenonSATA PacketConfig} {status : IOReturn} :
      selectConfig configRequest unitNumber w.controller = some (c, status) →
      ConfigStep w (.select configRequest unitNumber)
        { controller := c
          accepted := if status = .noErr then Function.update w.accepted unitNumber configRequest else w.accepted }
  | fault {w v : ConfigWorld PacketConfig} {configRequest : Option (IOATADevConfig PacketConfig)} {unitNumber : Word} :
      selectConfig configRequest unitNumber w.controller = none → ConfigStep w (.select configRequest unitNumber) v
  | get {w : ConfigWorld PacketConfig} (configRequest : Option (IOATADevConfig PacketConfig)) (unitNumber : Word) :
      ConfigStep w (.get configRequest unitNumber) w

/-- Nothing was accepted yet. -/
def ConfigInit (w : ConfigWorld PacketConfig) : Prop := ∀ unitNumber, w.accepted unitNumber = none

/-- A request for a unit of the controller. -/
def Valid (configRequest : Option (IOATADevConfig PacketConfig)) (unitNumber : Word) : Prop :=
  configRequest.isSome = true ∧ unitNumber.toNat ≤ 1

/-- The answer of `getConfig` has the modes and the packet configuration of the request. -/
structure Reports (request : IOATADevConfig PacketConfig) (answer : IOReturn × Option (IOATADevConfig PacketConfig)) :
    Prop where
  succeeds : answer.1 = .noErr
  modes : ∀ config, answer.2 = some config → config.pioMode = request.pioMode ∧ config.dmaMode = request.dmaMode ∧
    config.ultraMode = request.ultraMode ∧ config.packetConfig = request.packetConfig

/-- A call that is not valid is rejected and leaves the records alone; `selectConfig` leaves the other units alone, and
`getConfig` reports what was accepted last. -/
def CallRight (e : Edge (ConfigWorld PacketConfig) (ConfigLabel PacketConfig)) : Prop :=
  match e.label with
  | .select configRequest unitNumber =>
    (¬ Valid configRequest unitNumber →
      selectConfig configRequest unitNumber e.pre.controller = some (e.pre.controller, .error)) ∧
    ∀ other, other ≠ unitNumber → e.post.controller.busTimings other = e.pre.controller.busTimings other ∧
      e.post.controller.packetSend other = e.pre.controller.packetSend other
  | .get configRequest unitNumber =>
    (¬ Valid configRequest unitNumber →
      getConfig configRequest unitNumber e.pre.controller = (.error, configRequest)) ∧
    (Valid configRequest unitNumber → ∀ request, e.pre.accepted unitNumber = some request →
      Reports request (getConfig configRequest unitNumber e.pre.controller)) ∧ e.post = e.pre

/-- The modes of a request are the ones that the controller has for the unit. -/
def SameModes (request : IOATADevConfig PacketConfig) (timings : ATABusTimings) : Prop :=
  timings.ataPIOSpeedMode = request.pioMode ∧ timings.ataMultiDMASpeed = request.dmaMode ∧
    timings.ataUltraDMASpeedMode = request.ultraMode

/-- What a call has to meet. -/
def CallFits (w : ConfigWorld PacketConfig) : ConfigLabel PacketConfig → Prop
  | .select configRequest unitNumber => Valid configRequest unitNumber
  | .get configRequest unitNumber => Valid configRequest unitNumber → ∀ request,
    w.accepted unitNumber = some request → SameModes request (w.controller.busTimings unitNumber)

section Calls

variable {w v : ConfigWorld PacketConfig} {l : ConfigLabel PacketConfig} {unitNumber : Word}
  {configRequest : Option (IOATADevConfig PacketConfig)} {request : IOATADevConfig PacketConfig}
  {c : XenonSATA PacketConfig}

/-- The packet configurations are the ones that were accepted last. -/
def ConfigInv (w : ConfigWorld PacketConfig) : Prop :=
  ∀ unitNumber request, w.accepted unitNumber = some request →
    w.controller.packetSend unitNumber = request.packetConfig

theorem configInv_init (h : ConfigInit w) : ConfigInv w := by
  intro unitNumber request hacc
  rw [h unitNumber] at hacc
  cases hacc

theorem getConfig_invalid (h : ¬ Valid configRequest unitNumber) :
    getConfig configRequest unitNumber c = (.error, configRequest) := by
  cases configRequest with
  | none => rfl
  | some request =>
    have hunit : unitNumber.toNat > 1 := Nat.lt_of_not_le fun hle => h ⟨rfl, hle⟩
    simp only [getConfig, if_pos hunit]

/-- `getConfig` reports what is in the two records. -/
theorem reports_iff (h : Valid configRequest unitNumber) : Reports request (getConfig configRequest unitNumber c) ↔
    SameModes request (c.busTimings unitNumber) ∧ c.packetSend unitNumber = request.packetConfig := by
  obtain ⟨config, rfl⟩ := Option.isSome_iff_exists.mp h.1
  have hunit : ¬ unitNumber.toNat > 1 := Nat.not_lt.mpr h.2
  simp only [getConfig, if_neg hunit]
  constructor
  · rintro ⟨-, hmodes⟩
    obtain ⟨hpio, hdma, hultra, hpacket⟩ := hmodes _ rfl
    exact ⟨⟨hpio, hdma, hultra⟩, hpacket⟩
  · rintro ⟨⟨hpio, hdma, hultra⟩, hpacket⟩
    refine ⟨rfl, fun config' hconfig => ?_⟩
    obtain rfl := Option.some.inj hconfig
    exact ⟨hpio, hdma, hultra, hpacket⟩

/-- The world after a request that is accepted. -/
def ConfigWorld.accept (w : ConfigWorld PacketConfig) (request : IOATADevConfig PacketConfig) (unitNumber : Word) :
    ConfigWorld PacketConfig where
  controller := { w.controller with
    packetSend := Function.update w.controller.packetSend unitNumber request.packetConfig }
  accepted := Function.update w.accepted unitNumber (some request)

theorem ConfigInv.accept (h : ConfigInv w) (request : IOATADevConfig PacketConfig) (unitNumber : Word) :
    ConfigInv (w.accept request unitNumber) := by
  intro unit request' hacc
  simp only [ConfigWorld.accept] at hacc ⊢
  by_cases hu : unit = unitNumber
  · subst hu
    rw [Function.update_self] at hacc ⊢
    rw [Option.some.inj hacc]
  · rw [Function.update_of_ne hu] at hacc ⊢
    exact h unit request' hacc

theorem ConfigStep.accept (w : ConfigWorld PacketConfig) (request : IOATADevConfig PacketConfig) (unitNumber : Word) :
    ConfigStep w (.select (some request) unitNumber) (w.accept request unitNumber) := by
  have hsel : selectConfig (some request) unitNumber w.controller =
      some ((w.accept request unitNumber).controller, .noErr) := rfl
  exact ConfigStep.select hsel

/-- A call that fits. -/
theorem callRight_of_fits (hi : ConfigInv w) (hl : CallFits w l) (hs : ConfigStep w l v) :
    ConfigInv v ∧ CallRight ⟨w, l, v⟩ := by
  cases hs with
  | @select configRequest unitNumber c status hsel =>
    obtain ⟨request, rfl⟩ := Option.isSome_iff_exists.mp hl.1
    obtain ⟨rfl, rfl⟩ := Prod.mk.inj (Option.some.inj hsel)
    refine ⟨hi.accept request unitNumber, fun hn => absurd hl hn, fun other hne => ⟨rfl, ?_⟩⟩
    exact Function.update_of_ne hne request.packetConfig w.controller.packetSend
  | @fault _ configRequest unitNumber hsel =>
    obtain ⟨request, rfl⟩ := Option.isSome_iff_exists.mp hl.1
    cases hsel
  | get configRequest unitNumber =>
    refine ⟨hi, getConfig_invalid, fun hv request hacc => ?_, rfl⟩
    exact (reports_iff hv).mpr ⟨hl hv request hacc, hi unitNumber request hacc⟩

/-- A call that does not. -/
theorem not_callRight (hl : ¬ CallFits w l) (hs : ConfigStep w l v) : ¬ CallRight ⟨w, l, v⟩ := by
  intro hright
  cases hs with
  | @select configRequest unitNumber c status hsel =>
    have hrej := hright.1 hl
    cases configRequest with
    | none => cases hsel
    | some request =>
      have hstatus : IOReturn.noErr = .error := congrArg Prod.snd (Option.some.inj hrej)
      cases hstatus
  | @fault _ configRequest unitNumber hsel =>
    have hrej := hright.1 hl
    rw [hsel] at hrej
    cases hrej
  | get configRequest unitNumber =>
    exact hl fun hv request hacc => ((reports_iff hv).mp (hright.2.1 hv request hacc)).1

end Calls

/-- **When the calls of a run are right.** -/
theorem config_iff {es : List (Edge (ConfigWorld PacketConfig) (ConfigLabel PacketConfig))}
    {w : ConfigWorld PacketConfig} (h : Run ConfigInit ConfigStep es w) :
    (∀ e ∈ es, CallRight e) ↔ ∀ e ∈ es, CallFits e.pre e.label :=
  h.forall_iff (fun _ => configInv_init) (fun _ _ _ => callRight_of_fits) fun _ _ _ _ => not_callRight

end Steps

/-! ## Examples -/

/-- A new controller, with packet configurations that are numbers. -/
def newController : XenonSATA ℕ := ⟨fun _ => ⟨0, 0, 0, 0, 0⟩, fun _ => 0⟩

/-- A request for a PIO mode. -/
def pioRequest (pioMode : BitVec 8) : IOATADevConfig ℕ := ⟨pioMode, 0, 0, 0, 1, 0⟩

/-- The world in which `newController` is used. -/
def newWorld : ConfigWorld ℕ := ⟨newController, fun _ => none⟩

/-- A request for unit 0, which is then read back. -/
theorem select_get_run (pioMode : BitVec 8) : Run ConfigInit ConfigStep
    [⟨newWorld, .select (some (pioRequest pioMode)) 0, newWorld.accept (pioRequest pioMode) 0⟩,
      ⟨newWorld.accept (pioRequest pioMode) 0, .get (some (pioRequest 0)) 0, newWorld.accept (pioRequest pioMode) 0⟩]
    (newWorld.accept (pioRequest pioMode) 0) :=
  ((Run.start fun _ => rfl).step (ConfigStep.accept newWorld (pioRequest pioMode) 0)).step
    (.get (some (pioRequest 0)) 0)

/-- PIO mode 0 is what the controller has. -/
theorem config_mode_zero : ∃ es w, Run (@ConfigInit ℕ) ConfigStep es w ∧ es.length = 2 ∧ ∀ e ∈ es, CallRight e := by
  refine ⟨_, _, select_get_run 0, rfl, (config_iff (select_get_run 0)).mpr ?_⟩
  rw [List.forall_mem_cons, List.forall_mem_singleton]
  refine ⟨⟨rfl, by decide⟩, fun _ request hacc => ?_⟩
  obtain rfl := Option.some.inj hacc
  exact ⟨rfl, rfl, rfl⟩

/-- Another mode is accepted and not reported. -/
theorem config_mode_lost : ∃ es w, Run (@ConfigInit ℕ) ConfigStep es w ∧
    es.map Edge.label = [.select (some (pioRequest 0x10)) 0, .get (some (pioRequest 0)) 0] ∧
    ¬ ∀ e ∈ es, CallRight e := by
  refine ⟨_, _, select_get_run 0x10, rfl, fun hall => ?_⟩
  rw [List.forall_mem_cons, List.forall_mem_singleton] at hall
  have hreports := hall.2.2.1 ⟨rfl, by decide⟩ (pioRequest 0x10) rfl
  have hmode : (0 : BitVec 8) = 0x10 := ((reports_iff ⟨rfl, by decide⟩).mp hreports).1.1
  exact absurd hmode (by decide)

end Osx360.Sata
