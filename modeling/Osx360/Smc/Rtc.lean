import Mathlib.Logic.Function.Basic
import Osx360.Smc.Filter

/-!
# Reading the clock

`getRTC` from `XenonSMC_Private.cpp`, step by step, for any number of calls, and the filter that answers them. One CPU
runs all of it: the filter is one step with respect to the calls. What holds whatever the SMC sends is that the lock
keeps the calls apart (`LockInv`).
-/

set_option autoImplicit false

namespace Osx360.Smc

/-! ## Syncers -/

/-- The references of a syncer that were dropped: by `signal`, and by `wait` or a release. `create` gives two. -/
structure SyncerState where
  signals : ℕ
  others : ℕ

namespace SyncerState

def new : SyncerState := ⟨0, 0⟩

def dropped (s : SyncerState) : ℕ := s.signals + s.others

def signal (s : SyncerState) : SyncerState := { s with signals := s.signals + 1 }

/-- `wait` when it comes back, and `release`. -/
def drop (s : SyncerState) : SyncerState := { s with others := s.others + 1 }

end SyncerState

/-! ## `getRTC` -/

/-- What `getRTC` returns: `kIOReturnSuccess`, `kIOReturnNoResources`, `kIOReturnIOError`, or what `writeMessage`
returned. -/
inductive RtcReturn
  | success
  | noResources
  | ioError
  | write (status : IOReturn)

/-- How far a call has come; `present` is what it saw in `_rtcValuePresent` when it set its status. -/
inductive Call
  | fresh
  | created
  | locked
  | stored
  | refused (status : IOReturn)
  | cleared (status : IOReturn)
  | unlocked (status : IOReturn)
  | written
  | waiting (s : Syncer)
  | woken
  | decided (present : Bool)
  | copied (present : Bool)
  | taken (present : Bool)
  | returned (r : RtcReturn)

namespace Call

/-- The call holds `_rtcLock`. -/
def holdsLock : Call → Bool
  | locked | stored | refused _ | cleared _ | written | waiting _ | woken | decided _ | copied _ | taken _ => true
  | _ => false

/-- `_rtcSyncer` is the syncer of the call. -/
def published : Call → Bool
  | stored | refused _ | written | waiting _ | woken | decided _ | copied _ | taken _ => true
  | _ => false

/-- The call has sent its request and has still to come back from the wait on its syncer. -/
def waits : Call → Bool
  | written | waiting _ => true
  | _ => false

theorem holdsLock_of_published {c : Call} (h : c.published = true) : c.holdsLock = true := by
  cases c <;> first | rfl | cases h

end Call

/-- The message that `getRTC` sends. -/
def getRTCMessage : Message := { Message.zero with command := commandGetRTC }

/-- The driver, `_rtcLock`, the calls of `getRTC`, what they have stored through `value`, and their syncers. Call `n`
creates syncer `n`. -/
structure RtcWorld where
  driver : Driver
  rtcLock : Option Syncer
  call : Syncer → Call
  value : Syncer → Option (BitVec 64)
  syncer : Syncer → SyncerState

namespace RtcWorld

def goto (w : RtcWorld) (n : Syncer) (c : Call) : RtcWorld := { w with call := Function.update w.call n c }

def setSyncer (w : RtcWorld) (p : Option Syncer) : RtcWorld := { w with driver := { w.driver with rtcSyncer := p } }

def modifySyncer (w : RtcWorld) (s : Syncer) (f : SyncerState → SyncerState) : RtcWorld :=
  { w with syncer := Function.update w.syncer s (f (w.syncer s)) }

/-- The `switch` of `filterInterrupt`, and the signal it gives. -/
def filter (w : RtcWorld) (ready : Bool) (message : Message) : RtcWorld :=
  let v := { w with driver := (filterMessage ready message w.driver).driver }
  match (filterMessage ready message w.driver).signalled with
  | some s => v.modifySyncer s .signal
  | none => v

@[simp] theorem goto_call_self (w : RtcWorld) (n : Syncer) (c : Call) : (w.goto n c).call n = c := by
  simp [goto]

theorem goto_call_of_ne (w : RtcWorld) {m n : Syncer} (c : Call) (h : m ≠ n) : (w.goto n c).call m = w.call m := by
  simp [goto, Function.update_of_ne h]

end RtcWorld

inductive CallLabel
  | noSyncer
  | create
  | lock
  | store
  | write (ready : Bool)
  | clear
  | unlockRefused
  | release
  | wait
  | wake
  | check
  | copy
  | clearPresent
  | skip
  | unlock

/-- Where a call is after `writeMessage`. -/
def Call.afterWrite : IOReturn → Call
  | .success => .written
  | status => .refused status

/-- The steps of call `n`. `_rtcSyncer->wait()` reads the pointer before it waits; it comes back once the syncer is
signalled. `_rtcValuePresent` is read once for the status and once for the value. -/
inductive CallStep (n : Syncer) : RtcWorld → CallLabel → RtcWorld → Prop
  | noSyncer {w : RtcWorld} : w.call n = .fresh → CallStep n w .noSyncer (w.goto n (.returned .noResources))
  | create {w : RtcWorld} : w.call n = .fresh → CallStep n w .create (w.goto n .created)
  | lock {w : RtcWorld} : w.call n = .created → w.rtcLock = none →
      CallStep n w .lock { w.goto n .locked with rtcLock := some n }
  | store {w : RtcWorld} : w.call n = .locked → CallStep n w .store ((w.goto n .stored).setSyncer (some n))
  | write {w : RtcWorld} (ready : Bool) : w.call n = .stored →
      CallStep n w (.write ready) (w.goto n (.afterWrite (writeMessage ready getRTCMessage).1))
  | clear {w : RtcWorld} {status : IOReturn} : w.call n = .refused status →
      CallStep n w .clear ((w.goto n (.cleared status)).setSyncer none)
  | unlockRefused {w : RtcWorld} {status : IOReturn} : w.call n = .cleared status →
      CallStep n w .unlockRefused { w.goto n (.unlocked status) with rtcLock := none }
  | release {w : RtcWorld} {status : IOReturn} : w.call n = .unlocked status →
      CallStep n w .release ((w.goto n (.returned (.write status))).modifySyncer n .drop)
  | wait {w : RtcWorld} {s : Syncer} : w.call n = .written → w.driver.rtcSyncer = some s →
      CallStep n w .wait (w.goto n (.waiting s))
  | wake {w : RtcWorld} {s : Syncer} : w.call n = .waiting s → 0 < (w.syncer s).signals →
      CallStep n w .wake ((w.goto n .woken).modifySyncer s .drop)
  | check {w : RtcWorld} : w.call n = .woken →
      CallStep n w .check (w.goto n (.decided w.driver.rtcValuePresent))
  | copy {w : RtcWorld} {b : Bool} : w.call n = .decided b → w.driver.rtcValuePresent = true →
      CallStep n w .copy { w.goto n (.copied b) with value := Function.update w.value n (some w.driver.rtcValue) }
  | clearPresent {w : RtcWorld} {b : Bool} : w.call n = .copied b →
      CallStep n w .clearPresent { w.goto n (.taken b) with driver := { w.driver with rtcValuePresent := false } }
  | skip {w : RtcWorld} {b : Bool} : w.call n = .decided b → w.driver.rtcValuePresent = false →
      CallStep n w .skip (w.goto n (.taken b))
  | unlock {w : RtcWorld} {b : Bool} : w.call n = .taken b →
      CallStep n w .unlock { w.goto n (.returned (if b then .success else .ioError)) with rtcLock := none }

/-- Before the first call. -/
structure RtcInit (w : RtcWorld) : Prop where
  rtcLock : w.rtcLock = none
  rtcSyncer : w.driver.rtcSyncer = none
  rtcValuePresent : w.driver.rtcValuePresent = false
  call : ∀ n, w.call n = .fresh
  value : ∀ n, w.value n = none
  syncer : ∀ n, w.syncer n = .new

/-- No call yet, nothing received. -/
def newRtc : RtcWorld :=
  ⟨⟨false, false, false, false, none, 0, false, ⟨0, 0, 0, 0, 0, 0, 0, 0, 0⟩, false⟩, none, fun _ => .fresh,
    fun _ => none, fun _ => .new⟩

theorem newRtc_init : RtcInit newRtc := ⟨rfl, rfl, rfl, fun _ => rfl, fun _ => rfl, fun _ => rfl⟩

/-! ## The filter -/

section Filter

variable {ready : Bool} {message : Message} {w : RtcWorld} {d : Driver}

/-- A message that is no RTC reply signals nobody and leaves the RTC state alone. -/
theorem filterMessage_other (h : message.command ≠ commandGetRTC) :
    (filterMessage ready message d).signalled = none ∧ (filterMessage ready message d).driver.rtcSyncer = d.rtcSyncer ∧
      (filterMessage ready message d).driver.rtcValue = d.rtcValue ∧
        (filterMessage ready message d).driver.rtcValuePresent = d.rtcValuePresent := by
  unfold filterMessage
  rw [if_neg h]
  repeat' split
  all_goals exact ⟨rfl, rfl, rfl, rfl⟩

theorem filterMessage_reply (h : message.command = commandGetRTC) :
    filterMessage ready message d =
      ⟨{ d with rtcValue := message.rtc, rtcValuePresent := true }, [], d.rtcSyncer, false⟩ := by
  unfold filterMessage
  rw [if_neg (by rw [h]; decide), if_pos h]

theorem filterMessage_rtcSyncer (ready : Bool) (message : Message) (d : Driver) :
    (filterMessage ready message d).driver.rtcSyncer = d.rtcSyncer := by
  by_cases h : message.command = commandGetRTC
  · rw [filterMessage_reply h]
  · exact (filterMessage_other h).2.1

theorem filter_other (h : message.command ≠ commandGetRTC) :
    w.filter ready message = { w with driver := (filterMessage ready message w.driver).driver } := by
  unfold RtcWorld.filter
  rw [(filterMessage_other h).1]

theorem filter_reply_none (h : message.command = commandGetRTC) (hp : w.driver.rtcSyncer = none) :
    w.filter ready message =
      { w with driver := { w.driver with rtcValue := message.rtc, rtcValuePresent := true } } := by
  simp only [RtcWorld.filter, filterMessage_reply h, hp]

theorem filter_reply_some {s : Syncer} (h : message.command = commandGetRTC) (hp : w.driver.rtcSyncer = some s) :
    w.filter ready message =
      ({ w with driver := { w.driver with rtcValue := message.rtc, rtcValuePresent := true } }).modifySyncer s
        .signal := by
  simp only [RtcWorld.filter, filterMessage_reply h, hp]

/-- The filter leaves the calls, the lock and the pointer alone. -/
theorem filter_keeps (ready : Bool) (message : Message) (w : RtcWorld) :
    (w.filter ready message).call = w.call ∧ (w.filter ready message).rtcLock = w.rtcLock ∧
      (w.filter ready message).value = w.value ∧
        (w.filter ready message).driver.rtcSyncer = w.driver.rtcSyncer := by
  have hp := filterMessage_rtcSyncer ready message w.driver
  unfold RtcWorld.filter
  split
  · exact ⟨rfl, rfl, rfl, hp⟩
  · exact ⟨rfl, rfl, rfl, hp⟩

end Filter

/-! ## The lock -/

/-- One call at a time is between locking and unlocking, and `_rtcSyncer` is its syncer from the store on. -/
structure LockInv (w : RtcWorld) : Prop where
  holder : ∀ n, (w.call n).holdsLock = true → w.rtcLock = some n
  pointer : ∀ n, (w.call n).published = true → w.driver.rtcSyncer = some n
  target : ∀ n s, w.call n = .waiting s → s = n

section Lock

variable {w v : RtcWorld} {n m : Syncer}

theorem lockInv_init (h : RtcInit w) : LockInv w := by
  refine ⟨fun n hn => ?_, fun n hn => ?_, fun n s hn => ?_⟩
  · rw [h.call n] at hn; cases hn
  · rw [h.call n] at hn; cases hn
  · rw [h.call n] at hn; cases hn

/-- Two calls that hold the lock are one. -/
theorem LockInv.unique (h : LockInv w) (hn : (w.call n).holdsLock = true) (hm : (w.call m).holdsLock = true) :
    m = n := by
  have he := (h.holder m hm).symm.trans (h.holder n hn)
  exact Option.some.inj he

/-- A call that moves on with the lock and the pointer as they were. -/
theorem LockInv.goto (h : LockInv w) {c : Call} (hl : c.holdsLock = true → (w.call n).holdsLock = true)
    (hp : c.published = true → (w.call n).published = true) (ht : ∀ s, c = .waiting s → s = n) :
    LockInv (w.goto n c) := by
  refine ⟨fun m hm => ?_, fun m hm => ?_, fun m s hm => ?_⟩
  · by_cases hmn : m = n
    · subst hmn
      rw [RtcWorld.goto_call_self] at hm
      exact h.holder m (hl hm)
    · rw [RtcWorld.goto_call_of_ne _ _ hmn] at hm
      exact h.holder m hm
  · by_cases hmn : m = n
    · subst hmn
      rw [RtcWorld.goto_call_self] at hm
      exact h.pointer m (hp hm)
    · rw [RtcWorld.goto_call_of_ne _ _ hmn] at hm
      exact h.pointer m hm
  · by_cases hmn : m = n
    · subst hmn
      rw [RtcWorld.goto_call_self] at hm
      exact ht s hm
    · rw [RtcWorld.goto_call_of_ne _ _ hmn] at hm
      exact h.target m s hm

/-- A call that moves on while every other call is without the lock, whatever becomes of the lock and the pointer. -/
theorem LockInv.alone (h : LockInv w) {c : Call} {p : Option Syncer} {d : Driver}
    (hothers : ∀ m, m ≠ n → (w.call m).holdsLock = false) (hl : c.holdsLock = true → p = some n)
    (hp : c.published = true → d.rtcSyncer = some n) (ht : ∀ s, c ≠ .waiting s) :
    LockInv { w.goto n c with rtcLock := p, driver := d } := by
  have hkey : ∀ m, ((w.goto n c).call m).holdsLock = true → m = n ∧ (w.goto n c).call m = c := by
    intro m hm
    by_cases hmn : m = n
    · subst hmn
      exact ⟨rfl, w.goto_call_self m c⟩
    · rw [RtcWorld.goto_call_of_ne _ _ hmn, hothers m hmn] at hm
      cases hm
  refine ⟨fun m hm => ?_, fun m hm => ?_, fun m s hm => ?_⟩
  · obtain ⟨rfl, hc⟩ := hkey m hm
    exact hl (by rw [← hc]; exact hm)
  · obtain ⟨rfl, hc⟩ := hkey m (Call.holdsLock_of_published hm)
    exact hp (by rw [← hc]; exact hm)
  · by_cases hmn : m = n
    · subst hmn
      exact absurd ((w.goto_call_self m c).symm.trans hm) (ht s)
    · exact h.target m s ((RtcWorld.goto_call_of_ne w c hmn).symm.trans hm)

theorem LockInv.others (h : LockInv w) (hn : (w.call n).holdsLock = true) (m : Syncer) (hm : m ≠ n) :
    (w.call m).holdsLock = false := by
  by_contra hc
  exact hm (h.unique hn (by simpa using hc))

theorem lockInv_step {l : CallLabel} (h : LockInv w) (hs : CallStep n w l v) : LockInv v := by
  cases hs with
  | noSyncer hc => exact h.goto nofun nofun nofun
  | create hc => exact h.goto nofun nofun nofun
  | lock hc hfree =>
    refine h.alone (fun m _ => ?_) (fun _ => rfl) nofun nofun
    by_contra hm
    rw [h.holder m (by simpa using hm)] at hfree
    cases hfree
  | store hc => exact h.alone (h.others (by rw [hc]; rfl)) (fun _ => h.holder n (by rw [hc]; rfl)) (fun _ => rfl) nofun
  | write ready hc =>
    refine h.goto (fun _ => by rw [hc]; rfl) (fun _ => by rw [hc]; rfl) fun s hs => ?_
    cases ready <;> cases hs
  | clear hc => exact h.alone (h.others (by rw [hc]; rfl)) (fun _ => h.holder n (by rw [hc]; rfl)) nofun nofun
  | unlockRefused hc => exact h.alone (h.others (by rw [hc]; rfl)) nofun nofun nofun
  | @release status hc =>
    have hg := h.goto (n := n) (c := .returned (.write status)) nofun nofun nofun
    exact ⟨hg.holder, hg.pointer, hg.target⟩
  | wait hc hp =>
    refine h.goto (fun _ => by rw [hc]; rfl) (fun _ => by rw [hc]; rfl) fun s hs => ?_
    rw [h.pointer n (by rw [hc]; rfl)] at hp
    cases hs
    exact (Option.some.inj hp).symm
  | wake hc _ =>
    have hg := h.goto (n := n) (c := .woken) (fun _ => by rw [hc]; rfl) (fun _ => by rw [hc]; rfl) nofun
    exact ⟨hg.holder, hg.pointer, hg.target⟩
  | check hc => exact h.goto (fun _ => by rw [hc]; rfl) (fun _ => by rw [hc]; rfl) nofun
  | @copy b hc _ =>
    have hg := h.goto (n := n) (c := .copied b) (fun _ => by rw [hc]; rfl) (fun _ => by rw [hc]; rfl) nofun
    exact ⟨hg.holder, hg.pointer, hg.target⟩
  | @clearPresent b hc =>
    have hg := h.goto (n := n) (c := .taken b) (fun _ => by rw [hc]; rfl) (fun _ => by rw [hc]; rfl) nofun
    exact ⟨hg.holder, hg.pointer, hg.target⟩
  | skip hc _ => exact h.goto (fun _ => by rw [hc]; rfl) (fun _ => by rw [hc]; rfl) nofun
  | unlock hc => exact h.alone (h.others (by rw [hc]; rfl)) nofun nofun nofun

/-- A call moves itself only. -/
theorem CallStep.call_of_ne {l : CallLabel} (hs : CallStep n w l v) (hm : m ≠ n) : v.call m = w.call m := by
  cases hs <;> exact RtcWorld.goto_call_of_ne w _ hm

/-- A call uses its own syncer only. -/
theorem CallStep.syncer_of_ne {l : CallLabel} (h : LockInv w) (hs : CallStep n w l v) (hm : m ≠ n) :
    v.syncer m = w.syncer m := by
  cases hs with
  | release _ => exact Function.update_of_ne hm _ _
  | wake hc _ =>
    obtain rfl := h.target n _ hc
    exact Function.update_of_ne hm _ _
  | _ => rfl

theorem lockInv_filter (ready : Bool) (message : Message) (h : LockInv w) : LockInv (w.filter ready message) := by
  obtain ⟨hcall, hlock, _, hpointer⟩ := filter_keeps ready message w
  refine ⟨fun m hm => ?_, fun m hm => ?_, fun m s hm => ?_⟩
  · rw [hcall] at hm
    exact hlock.trans (h.holder m hm)
  · rw [hcall] at hm
    exact hpointer.trans (h.pointer m hm)
  · rw [hcall] at hm
    exact h.target m s hm

end Lock

end Osx360.Smc
