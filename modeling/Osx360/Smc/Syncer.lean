import Osx360.Lib.Run
import Osx360.Smc.Rtc

/-!
# The syncers of `getRTC`

`getRTC` leaves the syncer of a call that succeeded in `_rtcSyncer`, so a second reply signals it again; it stores the
syncer before it sends the request, so a reply that nobody asked for signals a call that does not wait yet; and a call
whose `writeMessage` timed out drops one of the two references only. The references balance, and the filter signals
waiting calls only, exactly where none of these happens (`syncer_safe_iff`); what a timeout leaks stays leaked
(`leak_stays`).
-/

set_option autoImplicit false

namespace Osx360.Smc

open Osx360.Lib

/-! ## The system -/

inductive SyncerLabel
  | call (n : Syncer) (l : CallLabel)
  | filter (ready : Bool) (message : Message)

/-- The steps: those of the calls, and the filter with any message at any time. -/
inductive SyncerStep : RtcWorld → SyncerLabel → RtcWorld → Prop
  | call {w v : RtcWorld} {n : Syncer} {l : CallLabel} : CallStep n w l v → SyncerStep w (.call n l) v
  | filter {w : RtcWorld} (ready : Bool) (message : Message) :
      SyncerStep w (.filter ready message) (w.filter ready message)

/-- The syncer that a step signals. -/
def signalled (w : RtcWorld) : SyncerLabel → Option Syncer
  | .filter ready message => (filterMessage ready message w.driver).signalled
  | _ => none

/-- The syncer that a step uses. -/
def used (w : RtcWorld) : SyncerLabel → Option Syncer
  | .filter ready message => (filterMessage ready message w.driver).signalled
  | .call _ .wait => w.driver.rtcSyncer
  | .call n .wake =>
    match w.call n with
    | .waiting s => some s
    | _ => none
  | .call n .release => some n
  | _ => none

namespace Call

/-- The call has sent its request. -/
def asked : Call → Bool
  | written | waiting _ | woken | decided _ | copied _ | taken _ | returned .success | returned .ioError => true
  | _ => false

/-- The call has created a syncer and returned. -/
def finished : Call → Bool
  | returned .noResources => false
  | returned _ => true
  | _ => false

end Call

/-- A step signals a waiting call only and uses no syncer whose references are gone, and both references are dropped
once by the time the call has returned. -/
structure SyncerSafe (e : Edge RtcWorld SyncerLabel) : Prop where
  waiting : ∀ s, signalled e.pre e.label = some s → (e.pre.call s).waits = true
  live : ∀ s, used e.pre e.label = some s → (e.pre.syncer s).dropped < 2
  once : ∀ s, (e.post.syncer s).signals ≤ 1 ∧ (e.post.syncer s).others ≤ 1
  both : ∀ s, (e.post.call s).finished = true → e.post.syncer s = ⟨1, 1⟩

/-- The condition on one step: an RTC reply finds `_rtcSyncer` empty, or the syncer of a call that has sent its request
and was not signalled yet; no call whose `writeMessage` timed out comes to its release. -/
def RepliedOnce (w : RtcWorld) : SyncerLabel → Prop
  | .filter _ message => message.command = commandGetRTC → ∀ s, w.driver.rtcSyncer = some s →
      (w.call s).asked = true ∧ (w.syncer s).signals = 0
  | .call _ .release => False
  | _ => True

/-! ## References -/

/-- The references dropped at each point of a call. -/
def Call.Refs (r : SyncerState) : Call → Prop
  | .written | .waiting _ => r.signals ≤ 1 ∧ r.others = 0
  | .woken | .decided _ | .copied _ | .taken _ | .returned .success | .returned .ioError | .returned (.write _) =>
    r = ⟨1, 1⟩
  | _ => r = .new

/-- `_rtcSyncer` is the syncer of the call that has stored it and not cleared it. -/
structure SyncerInv (w : RtcWorld) : Prop where
  lock : LockInv w
  refs : ∀ n, (w.call n).Refs (w.syncer n)

namespace Call

variable {c : Call} {r : SyncerState}

theorem Refs.once (h : c.Refs r) : r.signals ≤ 1 ∧ r.others ≤ 1 := by
  have hnew : r = .new → r.signals ≤ 1 ∧ r.others ≤ 1 := by
    rintro rfl
    exact ⟨Nat.zero_le 1, Nat.zero_le 1⟩
  have hboth : r = ⟨1, 1⟩ → r.signals ≤ 1 ∧ r.others ≤ 1 := by
    rintro rfl
    exact ⟨Nat.le_refl 1, Nat.le_refl 1⟩
  cases c with
  | written | waiting s => exact ⟨h.1, by have := h.2; omega⟩
  | woken | decided s | copied s | taken s => exact hboth h
  | returned s =>
    cases s with
    | noResources => exact hnew h
    | _ => exact hboth h
  | _ => exact hnew h

theorem Refs.both (h : c.Refs r) (ho : c.finished = true) : r = ⟨1, 1⟩ := by
  cases c with
  | returned s => cases s <;> first | exact h | cases ho
  | _ => cases ho

/-- A call that has asked and was not signalled waits. -/
theorem Refs.waits (h : c.Refs r) (ha : c.asked = true) (hr : r.signals = 0) : c.waits = true := by
  have hboth : r ≠ ⟨1, 1⟩ := by
    rintro rfl
    cases hr
  cases c with
  | written | waiting s => rfl
  | woken | decided s | copied s | taken s => exact absurd h hboth
  | returned s =>
    cases s with
    | success | ioError => exact absurd h hboth
    | _ => cases ha
  | _ => cases ha

theorem asked_of_waits (h : c.waits = true) : c.asked = true := by
  cases c <;> first | rfl | cases h

/-- Signalling the syncer of a call that waits, for the first time. -/
theorem Refs.signal (h : c.Refs r) (hw : c.waits = true) (hr : r.signals = 0) : c.Refs r.signal := by
  cases c with
  | written | waiting s => exact ⟨by simp [SyncerState.signal, hr], h.2⟩
  | _ => cases hw

end Call

/-! ## One step -/

section Steps

variable {w v : RtcWorld} {n : Syncer}

theorem syncerInv_init (h : RtcInit w) : SyncerInv w :=
  ⟨lockInv_init h, fun n => by rw [h.call n, h.syncer n]; rfl⟩

theorem refs_goto (h : ∀ m, (w.call m).Refs (w.syncer m)) {c : Call} (hc : c.Refs (w.syncer n)) :
    ∀ m, ((w.goto n c).call m).Refs (w.syncer m) := by
  intro m
  by_cases hm : m = n
  · subst hm
    rw [RtcWorld.goto_call_self]
    exact hc
  · rw [RtcWorld.goto_call_of_ne _ _ hm]
    exact h m

theorem refs_goto_modify (h : ∀ m, (w.call m).Refs (w.syncer m)) {c : Call} {f : SyncerState → SyncerState}
    (hc : c.Refs (f (w.syncer n))) :
    ∀ m, (((w.goto n c).modifySyncer n f).call m).Refs (((w.goto n c).modifySyncer n f).syncer m) := by
  intro m
  by_cases hm : m = n
  · subst hm
    simpa [RtcWorld.goto, RtcWorld.modifySyncer] using hc
  · simpa [RtcWorld.goto, RtcWorld.modifySyncer, Function.update_of_ne hm] using h m

/-- A signal given to one syncer. -/
theorem refs_modify (h : ∀ m, (w.call m).Refs (w.syncer m)) {f : SyncerState → SyncerState}
    (hc : (w.call n).Refs (f (w.syncer n))) :
    ∀ m, ((w.modifySyncer n f).call m).Refs ((w.modifySyncer n f).syncer m) := by
  intro m
  by_cases hm : m = n
  · subst hm
    simpa [RtcWorld.modifySyncer] using hc
  · simpa [RtcWorld.modifySyncer, Function.update_of_ne hm] using h m

/-- A step of a call that meets the condition. -/
theorem refs_call {l : CallLabel} (h : SyncerInv w) (hc : RepliedOnce w (.call n l)) (hs : CallStep n w l v) :
    ∀ m, (v.call m).Refs (v.syncer m) := by
  have hn := h.refs n
  cases hs with
  | write ready he =>
    rw [he] at hn
    have hnew : w.syncer n = .new := hn
    cases ready with
    | true => exact refs_goto (c := .written) h.refs (by rw [hnew]; exact ⟨Nat.zero_le _, rfl⟩)
    | false => exact refs_goto (c := .refused _) h.refs hnew
  | release => exact absurd hc id
  | wake he hpos =>
    obtain rfl := h.lock.target n _ he
    rw [he] at hn
    obtain ⟨hle, hzero⟩ := hn
    refine refs_goto_modify h.refs ?_
    show SyncerState.drop _ = _
    rw [SyncerState.drop, Nat.le_antisymm hle hpos, hzero]
  | @unlock b he =>
    rw [he] at hn
    cases b <;> exact refs_goto h.refs hn
  | noSyncer he | create he | lock he _ | store he | clear he | unlockRefused he | wait he _ | check he | copy he _
  | clearPresent he | skip he _ =>
    rw [he] at hn
    exact refs_goto h.refs hn

/-- The filter, whatever it reads, signals the syncer of a call that waits or none. -/
theorem refs_filter {ready : Bool} {message : Message} (h : SyncerInv w)
    (hc : RepliedOnce w (.filter ready message)) :
    ∀ m, ((w.filter ready message).call m).Refs ((w.filter ready message).syncer m) := by
  by_cases hm : message.command = commandGetRTC
  · cases hp : w.driver.rtcSyncer with
    | none =>
      rw [filter_reply_none hm hp]
      exact h.refs
    | some s =>
      obtain ⟨hasked, hzero⟩ := hc hm s hp
      have hwaits := (h.refs s).waits hasked hzero
      rw [filter_reply_some hm hp]
      exact refs_modify h.refs ((h.refs s).signal hwaits hzero)
  · rw [filter_other hm]
    exact h.refs

theorem syncerInv_step {l : SyncerLabel} (h : SyncerInv w) (hc : RepliedOnce w l) (hs : SyncerStep w l v) :
    SyncerInv v := by
  cases hs with
  | call hs => exact ⟨lockInv_step h.lock hs, refs_call h hc hs⟩
  | filter ready message => exact ⟨lockInv_filter ready message h.lock, refs_filter h hc⟩

/-- What the filter signals is the syncer in `_rtcSyncer`, and only for an RTC reply. -/
theorem filter_signalled {ready : Bool} {message : Message} {s : Syncer}
    (h : signalled w (.filter ready message) = some s) :
    message.command = commandGetRTC ∧ w.driver.rtcSyncer = some s := by
  by_cases hm : message.command = commandGetRTC
  · rw [signalled, filterMessage_reply hm] at h
    exact ⟨hm, h⟩
  · rw [signalled, (filterMessage_other hm).1] at h
    cases h

/-- The syncer of a call that waits has references left. -/
theorem Call.Refs.live {c : Call} {r : SyncerState} (h : c.Refs r) (hw : c.waits = true) : r.dropped < 2 := by
  have hle : r.signals ≤ 1 ∧ r.others = 0 := by
    cases c with
    | written | waiting s => exact h
    | _ => cases hw
  unfold SyncerState.dropped
  omega

theorem used_live {l : SyncerLabel} (h : SyncerInv w) (hc : RepliedOnce w l) (hs : SyncerStep w l v) {s : Syncer}
    (hu : used w l = some s) : (w.syncer s).dropped < 2 := by
  have hs' := h.refs s
  cases hs with
  | filter ready message =>
    obtain ⟨hm, hp⟩ := filter_signalled hu
    obtain ⟨hasked, hzero⟩ := hc hm s hp
    exact hs'.live (hs'.waits hasked hzero)
  | call hs =>
    cases hs with
    | release => exact absurd hc id
    | wait he _ =>
      have hp := h.lock.pointer _ (by rw [he]; rfl)
      obtain rfl := Option.some.inj (hp.symm.trans hu)
      exact hs'.live (by rw [he]; rfl)
    | wake he _ =>
      simp only [used, he, Option.some.injEq] at hu
      obtain rfl := hu
      obtain rfl := h.lock.target _ _ he
      exact hs'.live (by rw [he]; rfl)
    | _ => cases hu

theorem syncerSafe_good {l : SyncerLabel} (h : SyncerInv w) (hc : RepliedOnce w l) (hs : SyncerStep w l v) :
    SyncerInv v ∧ SyncerSafe ⟨w, l, v⟩ := by
  have hv := syncerInv_step h hc hs
  refine ⟨hv, ⟨fun s hsig => ?_, fun s => used_live h hc hs, fun s => (hv.refs s).once, fun s => (hv.refs s).both⟩⟩
  cases l with
  | call n l => cases hsig
  | filter ready message =>
    obtain ⟨hm, hp⟩ := filter_signalled hsig
    obtain ⟨hasked, hzero⟩ := hc hm s hp
    exact (h.refs s).waits hasked hzero

/-- A signal before the request is sent, a second signal, and the release of a call that timed out are no safe steps. -/
theorem syncerSafe_bad {l : SyncerLabel} (h : SyncerInv w) (hc : ¬ RepliedOnce w l) (hs : SyncerStep w l v) :
    ¬ SyncerSafe ⟨w, l, v⟩ := by
  intro hsafe
  cases hs with
  | filter ready message =>
    simp only [RepliedOnce, Classical.not_imp, not_forall] at hc
    obtain ⟨hm, s, hp, hn⟩ := hc
    have hsig : signalled w (.filter ready message) = some s := by
      rw [signalled, filterMessage_reply hm]
      exact hp
    have honce := (hsafe.once s).1
    simp only [filter_reply_some hm hp, RtcWorld.modifySyncer, Function.update_self, SyncerState.signal] at honce
    exact hn ⟨Call.asked_of_waits (hsafe.waiting s hsig), by omega⟩
  | @call _ n _ hs =>
    cases hs with
    | release he =>
      -- nobody has signalled the syncer, and only one reference is dropped
      have hnew := h.refs n
      rw [he] at hnew
      have hboth := hsafe.both n (by simp [RtcWorld.modifySyncer, RtcWorld.goto, Call.finished])
      simp [RtcWorld.modifySyncer, RtcWorld.goto, SyncerState.drop, show w.syncer n = .new from hnew,
        SyncerState.new] at hboth
    | _ => exact hc trivial

/-- **The syncers are safe exactly in the runs where each request is answered at most once, and none times out.** -/
theorem syncer_safe_iff {es : List (Edge RtcWorld SyncerLabel)} (h : Run RtcInit SyncerStep es w) :
    (∀ e ∈ es, SyncerSafe e) ↔ ∀ e ∈ es, RepliedOnce e.pre e.label :=
  h.forall_iff (I := SyncerInv) (fun _ h0 => syncerInv_init h0) (fun _ _ _ hi hc hs => syncerSafe_good hi hc hs)
    fun _ _ _ hi hc hs => syncerSafe_bad hi hc hs

end Steps

/-! ## The leak -/

/-- The call has stored its syncer in `_rtcSyncer` and has not cleared it. -/
def Call.hasStored : Call → Bool
  | .returned .success | .returned .ioError => true
  | c => c.published

/-- `_rtcSyncer` is the syncer of a call that has not cleared it. -/
structure PointerInv (w : RtcWorld) : Prop where
  lock : LockInv w
  stored : ∀ s, w.driver.rtcSyncer = some s → (w.call s).hasStored = true

section Leak

variable {w v : RtcWorld} {n : Syncer}

theorem pointerInv_init (h : RtcInit w) : PointerInv w :=
  ⟨lockInv_init h, fun s hs => by rw [h.rtcSyncer] at hs; cases hs⟩

theorem stored_goto (h : PointerInv w) {c : Call} (hc : (w.call n).hasStored = true → c.hasStored = true) :
    ∀ s, w.driver.rtcSyncer = some s → ((w.goto n c).call s).hasStored = true := by
  intro s hs
  by_cases hm : s = n
  · subst hm
    rw [RtcWorld.goto_call_self]
    exact hc (h.stored s hs)
  · rw [RtcWorld.goto_call_of_ne _ _ hm]
    exact h.stored s hs

theorem pointerInv_call {l : CallLabel} (h : PointerInv w) (hs : CallStep n w l v) : PointerInv v := by
  refine ⟨lockInv_step h.lock hs, ?_⟩
  cases hs with
  | noSyncer he | create he | lock he _ | unlockRefused he | release he => exact stored_goto h (by rw [he]; nofun)
  | store he =>
    intro s hp
    cases hp
    exact congrArg Call.hasStored (w.goto_call_self n .stored)
  | write ready he => cases ready <;> exact stored_goto h fun _ => rfl
  | clear he => exact nofun
  | @unlock b he => cases b <;> exact stored_goto h fun _ => rfl
  | _ => exact stored_goto h fun _ => rfl

theorem pointerInv_filter (ready : Bool) (message : Message) (h : PointerInv w) :
    PointerInv (w.filter ready message) := by
  obtain ⟨hcall, _, _, hpointer⟩ := filter_keeps ready message w
  refine ⟨lockInv_filter ready message h.lock, fun s hs => ?_⟩
  rw [hpointer] at hs
  rw [hcall]
  exact h.stored s hs

theorem pointerInv_step {l : SyncerLabel} (h : PointerInv w) (hs : SyncerStep w l v) : PointerInv v := by
  cases hs with
  | call hs => exact pointerInv_call h hs
  | filter ready message => exact pointerInv_filter ready message h

/-- **What a timeout leaks stays leaked**: the syncer of a call that timed out is never signalled once the call has
returned. -/
theorem leak_stays {es fs : List (Edge RtcWorld SyncerLabel)} {status : IOReturn} (h : Run RtcInit SyncerStep es w)
    (hr : w.call n = .returned (.write status)) (h' : Run (· = w) SyncerStep fs v) :
    v.call n = .returned (.write status) ∧ v.syncer n = w.syncer n := by
  have hw : PointerInv w := h.invariant (I := PointerInv) (fun _ => pointerInv_init) fun _ _ _ => pointerInv_step
  suffices hv : PointerInv v ∧ v.call n = .returned (.write status) ∧ v.syncer n = w.syncer n from hv.2
  refine h'.invariant (I := fun v => PointerInv v ∧ v.call n = .returned (.write status) ∧ v.syncer n = w.syncer n)
    ?_ ?_
  · rintro _ rfl
    exact ⟨hw, hr, rfl⟩
  · rintro s l t ⟨hinv, hcall, href⟩ hs
    refine ⟨pointerInv_step hinv hs, ?_⟩
    cases hs with
    | @call _ m _ hs =>
      have hne : n ≠ m := by
        rintro rfl
        cases hs <;> simp_all
      rw [hs.call_of_ne hne, hs.syncer_of_ne hinv.lock hne]
      exact ⟨hcall, href⟩
    | filter ready message =>
      rw [(filter_keeps ready message s).1]
      refine ⟨hcall, ?_⟩
      by_cases hm : message.command = commandGetRTC
      · cases hp : s.driver.rtcSyncer with
        | none => rw [filter_reply_none hm hp]; exact href
        | some p =>
          have hne : n ≠ p := by
            rintro rfl
            have hst := hinv.stored n hp
            rw [hcall] at hst
            cases hst
          rw [filter_reply_some hm hp]
          exact (Function.update_of_ne hne _ _).trans href
      · rw [filter_other hm]; exact href

end Leak

/-! ## One call -/

/-- A call and the reply to it. -/
def oneCall : List SyncerLabel :=
  [.call 0 .create, .call 0 .lock, .call 0 .store, .call 0 (.write true), .call 0 .wait, .filter true rtcReply,
    .call 0 .wake, .call 0 .check, .call 0 .copy, .call 0 .clearPresent, .call 0 .unlock]

/-- The call returns with the syncer still in `_rtcSyncer`, and both references gone. -/
theorem oneCall_run : ∃ es w, Run RtcInit SyncerStep es w ∧ es.map Edge.label = oneCall ∧
    w.call 0 = .returned .success ∧ w.driver.rtcSyncer = some 0 ∧ w.syncer 0 = ⟨1, 1⟩ ∧
      ∀ e ∈ es, RepliedOnce e.pre e.label := by
  have h0 : Run RtcInit SyncerStep [] newRtc := .start newRtc_init
  have h2 := (h0.step (.call (n := 0) (.create rfl))).step (.call (n := 0) (.lock rfl rfl))
  have h4 := (h2.step (.call (n := 0) (.store rfl))).step (.call (n := 0) (.write true rfl))
  have h6 := (h4.step (.call (n := 0) (.wait rfl rfl))).step (.filter true rtcReply)
  have h8 := (h6.step (.call (n := 0) (.wake rfl (by decide)))).step (.call (n := 0) (.check rfl))
  have h10 := (h8.step (.call (n := 0) (.copy rfl rfl))).step (.call (n := 0) (.clearPresent rfl))
  refine ⟨_, _, h10.step (.call (n := 0) (.unlock rfl)), rfl, rfl, rfl, rfl, ?_⟩
  simp only [List.nil_append, List.cons_append, List.forall_mem_cons, List.not_mem_nil, false_imp_iff, implies_true,
    and_true, RepliedOnce, true_and]
  rintro _ s hs
  cases hs
  exact ⟨rfl, rfl⟩

theorem syncer_safe_single : ∃ es w, Run RtcInit SyncerStep es w ∧ es.map Edge.label = oneCall ∧
    ∀ e ∈ es, SyncerSafe e := by
  obtain ⟨es, w, hr, hes, _, _, _, hc⟩ := oneCall_run
  exact ⟨es, w, hr, hes, (syncer_safe_iff hr).mpr hc⟩

/-- A second reply, after the call has returned, signals its syncer again. -/
theorem late_reply_signals : ∃ es w, Run RtcInit SyncerStep es w ∧
    es.map Edge.label = oneCall ++ [.filter true rtcReply] ∧ ∃ e ∈ es, signalled e.pre e.label = some 0 ∧
      e.pre.call 0 = .returned .success ∧ (e.pre.syncer 0).dropped = 2 ∧ ¬ SyncerSafe e := by
  obtain ⟨es, w, hr, hes, hcall, hp, href, _⟩ := oneCall_run
  have hsig : signalled w (.filter true rtcReply) = some 0 := by
    rw [signalled, filterMessage_reply rfl]
    exact hp
  refine ⟨_, _, hr.step (.filter true rtcReply), ?_, ⟨w, _, _⟩, List.mem_append_right _ (List.mem_singleton_self _),
    hsig, hcall, by rw [href]; rfl, fun hsafe => ?_⟩
  · rw [List.map_append, hes]; rfl
  · have hwait := hsafe.waiting 0 hsig
    simp [hcall, Call.waits] at hwait

end Osx360.Smc
