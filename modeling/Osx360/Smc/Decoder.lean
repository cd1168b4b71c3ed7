import Osx360.Smc.Filter

/-!
# The decoder of the interrupt filter

`filterInterrupt` and `handleInterrupt` as one call each. The filter decodes its variable `message` whether
`readMessage` has filled it or not: an interrupt without a message is harmless exactly where what the stack held stands
for nothing new (`spurious_iff`). A message that was read changes the state that it designates, but for the tilt state,
which comes from the event code and not from the byte behind it (`decoder_iff`).
-/

set_option autoImplicit false

namespace Osx360.Smc

open Osx360.Lib

/-- `filterInterrupt` and the input FIFO that it leaves; `stack` is what `message` held before. -/
def filterInterrupt (ready : Bool) (fifo : List Message) (stack : Message) (d : Driver) : Filtered × List Message :=
  let r := readMessage fifo stack
  (filterMessage ready r.2.1 d, r.2.2)

/-- The driver afterwards, and whether `rebootPowerOff` is called. -/
def handleInterrupt (d : Driver) : Driver × Bool :=
  ({ d with powerButtonPressed := false, syncButtonPressed := false, tiltStatePresent := false },
    d.powerButtonPressed)

/-! ## Kinds of messages -/

/-- What a message is, from its command and its event code. -/
inductive MessageKind
  | powerButton
  | syncButton
  | tiltSwitch
  | rtc
  | temp
  | other

def Message.kind (message : Message) : MessageKind :=
  if message.command = commandAsync then
    if message.data 0 = asyncPowerButton then .powerButton
    else if message.data 0 = asyncSyncButton then .syncButton
    else if message.data 0 = asyncTiltSwitch then .tiltSwitch
    else .other
  else if message.command = commandGetRTC then .rtc
  else if message.command = commandGetTemp then .temp
  else .other

/-- Nothing is changed, sent or signalled. -/
def untouched (d : Driver) : Filtered := ⟨d, [], none, false⟩

section Kinds

variable {ready : Bool} {message : Message} {d : Driver}

/-- The `switch` by kinds. -/
theorem filterMessage_kind (ready : Bool) (message : Message) (d : Driver) : filterMessage ready message d =
    match message.kind with
    | .powerButton => ⟨{ d with powerButtonPressed := true }, (cancelPowerOff ready).2, none, true⟩
    | .syncButton => ⟨{ d with syncButtonPressed := true }, [], none, true⟩
    | .tiltSwitch => ⟨{ d with tiltState := message.tiltStatus != 0, tiltStatePresent := true }, [], none, true⟩
    | .rtc => ⟨{ d with rtcValue := message.rtc, rtcValuePresent := true }, [], d.rtcSyncer, false⟩
    | .temp => ⟨{ d with tempStatus := message.temp, tempStatusPresent := true }, [], none, false⟩
    | .other => untouched d := by
  unfold filterMessage Message.kind
  repeat' split
  all_goals first | rfl | contradiction

theorem kind_tiltSwitch : message.kind = .tiltSwitch ↔
    message.command = commandAsync ∧ message.data 0 = asyncTiltSwitch := by
  unfold Message.kind
  constructor
  · intro h
    repeat' split at h
    all_goals first | exact ⟨by assumption, by assumption⟩ | cases h
  · rintro ⟨hcommand, hdata⟩
    rw [if_pos hcommand, hdata]
    rfl

/-! ## Interrupts without a message -/

/-- A message that stands for nothing that the driver does not have. -/
def Inert (message : Message) (d : Driver) : Prop :=
  match message.kind with
  | .powerButton => False
  | .syncButton => False
  | .tiltSwitch => False
  | .rtc => d.rtcSyncer = none ∧ d.rtcValuePresent = true ∧ d.rtcValue = message.rtc
  | .temp => d.tempStatusPresent = true ∧ d.tempStatus = message.temp
  | .other => True

theorem filterMessage_untouched : filterMessage ready message d = untouched d ↔ Inert message d := by
  rw [filterMessage_kind, Inert]
  obtain ⟨powerButtonPressed, syncButtonPressed, tiltState, tiltStatePresent, rtcSyncer, rtcValue, rtcValuePresent,
    tempStatus, tempStatusPresent⟩ := d
  cases message.kind with
  | powerButton => simp [untouched]
  | syncButton => simp [untouched]
  | tiltSwitch => simp [untouched]
  | rtc => simp [untouched, eq_comm, and_comm]
  | temp => simp [untouched, eq_comm, and_comm]
  | other => simp

/-- The filter acts only on what it reads from the FIFO. -/
def ActsOnFifo (ready : Bool) (fifo : List Message) (stack : Message) (d : Driver) : Prop :=
  filterInterrupt ready fifo stack d =
    match fifo with
    | [] => (untouched d, [])
    | message :: rest => (filterMessage ready message d, rest)

/-- **When an interrupt is harmless without a message.** -/
theorem spurious_iff {fifo : List Message} {stack : Message} :
    ActsOnFifo ready fifo stack d ↔ fifo ≠ [] ∨ Inert stack d := by
  cases fifo with
  | nil =>
    have hread : filterInterrupt ready [] stack d = (filterMessage ready stack d, []) := rfl
    rw [ActsOnFifo, hread, Prod.mk.injEq, filterMessage_untouched]
    simp
  | cons message rest => simp [ActsOnFifo, filterInterrupt, readMessage]

/-! ## Messages -/

/-- The driver with the state that a message designates. -/
def designated (message : Message) (d : Driver) : Driver :=
  match message.kind with
  | .powerButton => { d with powerButtonPressed := true }
  | .syncButton => { d with syncButtonPressed := true }
  | .tiltSwitch => { d with tiltState := message.data 1 != 0, tiltStatePresent := true }
  | .rtc => { d with rtcValue := message.clock.setWidth 64, rtcValuePresent := true }
  | .temp =>
    { d with
      tempStatus := ⟨message.data 0, message.data 1, message.data 2, message.data 3, message.data 4, message.data 5,
        message.data 6, message.data 7, message.data 8⟩
      tempStatusPresent := true }
  | .other => d

/-- A tilt event that says there is no tilt. -/
def Untilted (message : Message) : Prop :=
  message.command = commandAsync ∧ message.data 0 = asyncTiltSwitch ∧ message.data 1 = 0

/-- **When a message changes what it designates.** -/
theorem decoder_iff {stack : Message} {rest : List Message} :
    (filterInterrupt ready (message :: rest) stack d).1.driver = designated message d ↔ ¬ Untilted message := by
  have hread : (filterInterrupt ready (message :: rest) stack d).1 = filterMessage ready message d := rfl
  rw [hread, filterMessage_kind, designated, Untilted, ← and_assoc, ← kind_tiltSwitch]
  cases hkind : message.kind with
  | powerButton => simp
  | syncButton => simp
  | tiltSwitch =>
    have hcode : message.tiltStatus = asyncTiltSwitch := (kind_tiltSwitch.mp hkind).2
    have hset : (message.tiltStatus != 0#8) = true := by rw [hcode]; rfl
    simp [hset, bne_iff_ne]
  | rtc => simp [Message.rtc_eq_clock]
  | temp => simp [Message.temp]
  | other => simp [untouched]

end Kinds

/-! ## Examples -/

/-- A driver that has heard nothing. -/
def quietDriver : Driver := ⟨false, false, false, false, none, 0, false, ⟨0, 0, 0, 0, 0, 0, 0, 0, 0⟩, false⟩

/-- With the bytes of an old power event on the stack, an interrupt without a message turns the console off. -/
theorem spurious_power :
    (filterInterrupt true [] ⟨commandAsync, fun _ => asyncPowerButton⟩ quietDriver).1.sent ≠ [] ∧
      (handleInterrupt (filterInterrupt true [] ⟨commandAsync, fun _ => asyncPowerButton⟩ quietDriver).1.driver).2 =
        true ∧ ¬ ActsOnFifo true [] ⟨commandAsync, fun _ => asyncPowerButton⟩ quietDriver := by
  refine ⟨List.cons_ne_nil _ _, rfl, fun h => ?_⟩
  have hdriver := congrArg (fun r => r.1.needSecondary) h
  cases hdriver

/-- An event that says there is no tilt is taken for one that says there is. -/
theorem decoder_untilted :
    (filterInterrupt true [⟨commandAsync, fun i => if i = 0 then asyncTiltSwitch else 0⟩] .zero
      quietDriver).1.driver.tiltState = true ∧
    (filterInterrupt true [⟨commandAsync, fun i => if i = 0 then asyncTiltSwitch else 0⟩] .zero quietDriver).1.driver ≠
      designated ⟨commandAsync, fun i => if i = 0 then asyncTiltSwitch else 0⟩ quietDriver := by
  refine ⟨rfl, fun h => ?_⟩
  have htilt := congrArg Driver.tiltState h
  cases htilt

end Osx360.Smc
