import Osx360.Common.Div64
import Osx360.Smc.Filter

/-!
# The time of day

`XenonSMC::peReadWriteTimeDay`. The SMC counts milliseconds in 40 bits; what is stored for a count is the base and the
seconds of the count, with no wrap on the way (`storesTime`), and the call stores nothing where it fails.
-/

set_option autoImplicit false

namespace Osx360.Smc

open Osx360.Lib Osx360.Common

def rtcBase : Word := 1005782400

def peReadTOD : Word := 0

def peWriteTOD : Word := 1

/-- The result and `*secs` afterwards. `gXenonSMC` tells whether there is an instance; `getRTC` is the value of a call
that succeeds. -/
def peReadWriteTimeDay (gXenonSMC : Bool) (getRTC : Option (BitVec 64)) (options secs : Word) : Word × Word :=
  if !gXenonSMC then (1, secs)
  else if options = peReadTOD then
    match getRTC with
    | some rtcValue => (0, rtcBase + div64_32 rtcValue 1000)
    | none => (1, secs)
  else if options = peWriteTOD then (1, secs)
  else (1, secs)

/-- What a call that succeeds does for a reply of the SMC: no sum wraps, and the time is one of a signed word. -/
structure StoresTime (message : Message) (r : Word × Word) : Prop where
  succeeds : r.1 = 0
  fits : DivFits message.rtc 1000
  quotient : (div64_32 message.rtc 1000).toNat = message.clock.toNat / 1000
  secs : r.2.toNat = rtcBase.toNat + message.clock.toNat / 1000
  signed : r.2.toInt = 1005782400 + message.clock.toNat / 1000

section Time

variable {message : Message} {secs : Word}

theorem toNat_rtc (message : Message) : message.rtc.toNat = message.clock.toNat := by
  have hlt := message.clock.isLt
  rw [Message.rtc_eq_clock, BitVec.toNat_setWidth]
  exact Nat.mod_eq_of_lt (by omega)

/-- Every count is the one of a reply. -/
theorem exists_clock (count : BitVec 40) :
    ∃ message : Message, message.command = commandGetRTC ∧ message.clock = count := by
  refine ⟨⟨commandGetRTC, fun i => count.extractLsb' (8 * i) 8⟩, rfl, ?_⟩
  refine BitVec.eq_of_getLsbD_eq fun i hi => ?_
  simp only [Message.clock, BitVec.getLsbD_append, BitVec.getLsbD_extractLsb']
  grind

/-- A reply is stored without a wrap. -/
theorem storesTime (message : Message) (secs : Word) :
    StoresTime message (peReadWriteTimeDay true (some message.rtc) peReadTOD secs) := by
  have hlt := message.clock.isLt
  have hfits : DivFits message.rtc 1000 := divFits (by decide) (by decide)
  have hquot : (div64_32 message.rtc 1000).toNat = message.clock.toNat / 1000 := by
    rw [toNat_div64_32 (by decide) hfits, toNat_rtc, show (1000 : Word).toNat = 1000 from rfl]
    omega
  have hsecs : (rtcBase + div64_32 message.rtc 1000).toNat = rtcBase.toNat + message.clock.toNat / 1000 := by
    rw [BitVec.toNat_add, hquot, show rtcBase.toNat = 1005782400 from rfl]
    omega
  have hbase : rtcBase.toNat = 1005782400 := rfl
  have hsigned : 2 * (rtcBase + div64_32 message.rtc 1000).toNat < 2 ^ 32 := by omega
  refine ⟨rfl, hfits, hquot, hsecs, (BitVec.toInt_eq_toNat_of_lt hsigned).trans ?_⟩
  rw [hsecs, hbase]
  omega

/-- **The time of day**: what is stored for every count, in the order of the counts, and what a failure leaves. -/
theorem time_of_day :
    (∀ count : BitVec 40, ∃ message : Message, message.command = commandGetRTC ∧ message.clock = count) ∧
    (∀ message secs, StoresTime message (peReadWriteTimeDay true (some message.rtc) peReadTOD secs)) ∧
    (∀ m m' : Message, ∀ secs secs', m.clock.toNat ≤ m'.clock.toNat →
      (peReadWriteTimeDay true (some m.rtc) peReadTOD secs).2.toInt ≤
        (peReadWriteTimeDay true (some m'.rtc) peReadTOD secs').2.toInt) ∧
    ∀ gXenonSMC getRTC options secs,
      (gXenonSMC = true ∧ getRTC.isSome = true ∧ options = peReadTOD) ∨
        peReadWriteTimeDay gXenonSMC getRTC options secs = (1, secs) := by
  refine ⟨exists_clock, storesTime, fun m m' secs secs' hle => ?_, fun gXenonSMC getRTC options secs => ?_⟩
  · rw [(storesTime m secs).signed, (storesTime m' secs').signed]
    omega
  · unfold peReadWriteTimeDay
    cases gXenonSMC with
    | false => exact Or.inr rfl
    | true =>
      by_cases hread : options = peReadTOD
      · cases getRTC with
        | none => simp [hread]
        | some rtcValue => exact Or.inl ⟨rfl, rfl, hread⟩
      · simp [hread]

end Time

end Osx360.Smc
