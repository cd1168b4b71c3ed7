import Osx360.Smc.Replies
import Osx360.Smc.TimeOfDay

/-!
# The clock as its callers see it

`peReadWriteTimeDay` over whole runs of `getRTC`, of any number of calls from any threads, with the SMC and the filter.
The time of day runs forward: if the SMC counts up, a call that begins after another one has returned does not get an
earlier time (`clock_forward`).
-/

set_option autoImplicit false

namespace Osx360.Smc

open Osx360.Lib

/-- What `getRTC` gives its caller. -/
def rtcResult (w : RtcWorld) (n : Syncer) : Option (BitVec 64) :=
  match w.call n with
  | .returned .success => w.value n
  | _ => none

/-- The call of `peReadWriteTimeDay` that makes call `n` of `getRTC`. -/
def timeOfDay (w : RtcWorld) (n : Syncer) (secs : Word) : Word × Word :=
  peReadWriteTimeDay true (rtcResult w n) peReadTOD secs

/-- The SMC counts up from reply to reply. -/
def CountsUp (replies : List (Syncer × Message)) : Prop := replies.Pairwise fun a b => a.2.clock ≤ b.2.clock

section Forward

variable {w v : RtcSystem} {es fs : List (Edge RtcSystem RtcLabel)} {n m : Syncer} {secs : Word}

theorem replies_step {l : RtcLabel} (hs : RtcStep w l v) : w.replies <+: v.replies := by
  cases hs with
  | reply => exact List.prefix_append _ _
  | _ => exact List.prefix_rfl

/-- The SMC takes no reply back. -/
theorem replies_path (h : Path RtcStep w fs v) : w.replies <+: v.replies := by
  refine h.invariant (I := fun u => w.replies <+: u.replies) ?_ fun _ _ _ hI hs => hI.trans (replies_step hs)
  rintro _ rfl
  exact List.prefix_rfl

theorem timeOfDay_success (h : (timeOfDay w.rtc n secs).1 = 0) : w.rtc.call n = .returned .success := by
  unfold timeOfDay rtcResult at h
  split at h
  · assumption
  · cases h

/-- A time that was stored is the one of the reply to the call. -/
theorem timeOfDay_reply (h : ReplyInv w) (hn : w.rtc.call n = .returned .success) :
    ∃ x, (n, x) ∈ w.replies ∧ rtcResult w.rtc n = some x.rtc := by
  have haw := h.awaits n
  rw [hn] at haw
  obtain ⟨_, hx, x, hmem, rfl⟩ := haw
  exact ⟨x, hmem, by rw [rtcResult, hn, hx]⟩

/-- A call that has not begun has no reply. -/
theorem fresh_unreplied (h : ReplyInv w) (hm : w.rtc.call m = .fresh) : m ∉ w.replies.map Prod.fst := by
  have haw := h.awaits m
  rw [hm] at haw
  exact haw.1

/-- A call that has returned is over. -/
theorem CallStep.ne_returned {u u' : RtcWorld} {l : CallLabel} {r : RtcReturn} (hs : CallStep n u l u')
    (hm : u.call m = .returned r) : m ≠ n := by
  rintro rfl
  cases hs <;> simp_all

/-- Nothing changes what a call has returned. -/
theorem rtcResult_step {l : RtcLabel} {r : RtcReturn} (hn : w.rtc.call n = .returned r) (hs : RtcStep w l v) :
    v.rtc.call n = .returned r ∧ v.rtc.value n = w.rtc.value n := by
  cases hs with
  | call hs =>
    have hne := hs.ne_returned hn
    refine ⟨(hs.call_of_ne hne).trans hn, ?_⟩
    cases hs with
    | copy => exact Function.update_of_ne hne _ _
    | _ => rfl
  | reply | other => exact ⟨hn, rfl⟩
  | filter ready hf =>
    obtain ⟨hcall, -, hvalue, -⟩ := filter_keeps ready _ w.rtc
    exact ⟨(congrFun hcall n).trans hn, congrFun hvalue n⟩

theorem rtcResult_path {r : RtcReturn} (hn : w.rtc.call n = .returned r) (h : Path RtcStep w fs v) :
    rtcResult v.rtc n = rtcResult w.rtc n := by
  have hkept : v.rtc.call n = .returned r ∧ v.rtc.value n = w.rtc.value n := by
    refine h.invariant (I := fun u => u.rtc.call n = .returned r ∧ u.rtc.value n = w.rtc.value n) ?_ ?_
    · rintro _ rfl
      exact ⟨hn, rfl⟩
    · rintro s l t ⟨hcall, hvalue⟩ hs
      obtain ⟨hcall', hvalue'⟩ := rtcResult_step hcall hs
      exact ⟨hcall', hvalue'.trans hvalue⟩
  rw [rtcResult, rtcResult, hkept.1, hkept.2, hn]

/-- **The time of day runs forward.** If the SMC counts up, the time that a call returned stays as it is, and a call
that begins afterwards stores no earlier one. -/
theorem clock_forward (h : Run RtcSystemInit RtcStep es w) (h' : Path RtcStep w fs v) (hup : CountsUp v.replies)
    {secs' : Word} (hn : (timeOfDay w.rtc n secs).1 = 0) (hm : w.rtc.call m = .fresh)
    (hm' : (timeOfDay v.rtc m secs').1 = 0) :
    timeOfDay v.rtc n secs = timeOfDay w.rtc n secs ∧
      (timeOfDay w.rtc n secs).2.toInt ≤ (timeOfDay v.rtc m secs').2.toInt := by
  have hw := replyInv_run h
  have hreturned := timeOfDay_success hn
  obtain ⟨x, hx, hresult⟩ := timeOfDay_reply hw hreturned
  obtain ⟨y, hy, hresult'⟩ := timeOfDay_reply (replyInv_run (h.append h')) (timeOfDay_success hm')
  refine ⟨by rw [timeOfDay, timeOfDay, rtcResult_path hreturned h'], ?_⟩
  -- the reply to the later call is not among those sent before the call began
  have hle : x.clock ≤ y.clock := by
    obtain ⟨later, hlater⟩ := replies_path h'
    rw [CountsUp, ← hlater, List.pairwise_append] at hup
    refine hup.2.2 _ hx (m, y) ?_
    rw [← hlater] at hy
    refine (List.mem_append.mp hy).resolve_left fun hold => ?_
    exact fresh_unreplied hw hm (List.mem_map.mpr ⟨_, hold, rfl⟩)
  have hle' : x.clock.toNat ≤ y.clock.toNat := hle
  rw [timeOfDay, timeOfDay, hresult, hresult', (storesTime x secs).signed, (storesTime y secs').signed]
  omega

/-- A reply one second after `rtcReply`. -/
def nextReply : Message := ⟨commandGetRTC, fun i => if i = 0 then 0xE8 else if i = 1 then 0x03 else 0⟩

/-- One call after the other, each answered. -/
theorem clock_forward_two : ∃ es w fs v, Run RtcSystemInit RtcStep es w ∧ Path RtcStep w fs v ∧
    timeOfDay w.rtc 0 0 = (0, 1005782400) ∧ timeOfDay v.rtc 1 0 = (0, 1005782401) ∧
      timeOfDay v.rtc 0 0 = timeOfDay w.rtc 0 0 ∧ (timeOfDay w.rtc 0 0).2.toInt ≤ (timeOfDay v.rtc 1 0).2.toInt := by
  have h0 : Run RtcSystemInit RtcStep [] ⟨newRtc, [], [], []⟩ := .start ⟨newRtc_init, rfl, rfl, rfl⟩
  have h2 := (h0.step (.call (n := 0) (.create rfl))).step (.call (n := 0) (.lock rfl rfl))
  have h4 := (h2.step (.call (n := 0) (.store rfl))).step (.call (n := 0) (.write true rfl))
  have h6 := (h4.step (.call (n := 0) (.wait rfl rfl))).step (.reply (n := 0) (List.mem_singleton_self _)
    (rfl : rtcReply.command = commandGetRTC))
  have h8 := (h6.step (.filter true rfl)).step (.call (n := 0) (.wake rfl (by decide)))
  have h10 := (h8.step (.call (n := 0) (.check rfl))).step (.call (n := 0) (.copy rfl rfl))
  have h := (h10.step (.call (n := 0) (.clearPresent rfl))).step (.call (n := 0) (.unlock rfl))
  have p2 := (h.here.step (.call (n := 1) (.create rfl))).step (.call (n := 1) (.lock rfl rfl))
  have p4 := (p2.step (.call (n := 1) (.store rfl))).step (.call (n := 1) (.write true rfl))
  have p6 := (p4.step (.call (n := 1) (.wait rfl rfl))).step (.reply (n := 1) (List.mem_singleton_self _)
    (rfl : nextReply.command = commandGetRTC))
  have p8 := (p6.step (.filter true rfl)).step (.call (n := 1) (.wake rfl (by decide)))
  have p10 := (p8.step (.call (n := 1) (.check rfl))).step (.call (n := 1) (.copy rfl rfl))
  have p := (p10.step (.call (n := 1) (.clearPresent rfl))).step (.call (n := 1) (.unlock rfl))
  have hup : CountsUp [(0, rtcReply), (1, nextReply)] := List.pairwise_pair.mpr (by decide)
  exact ⟨_, _, _, _, h, p, rfl, rfl, clock_forward h p hup rfl rfl rfl⟩

end Forward

end Osx360.Smc
