import Mathlib.Data.List.Basic
import Osx360.Lib.Run
import Osx360.Smc.Rtc

/-!
# The replies to `getRTC`

The SMC answers each GetRTC request it receives once and sends no other GetRTC reply. Since a call holds `_rtcLock` from
before its request until it has taken the value, at most one request or reply is on its way (`ReplyInv`), and each call
stores the value of its own reply. A call that fails leaves no trace: the run without it is a run to
the same state (`erase_run`). Both together are `replies_paired`.
-/

set_option autoImplicit false

namespace Osx360.Smc

open Osx360.Lib

/-! ## The system -/

/-- The calls, the requests that the SMC has received and not answered, its output, and the replies it has sent so
far, each with the call it answers. -/
structure RtcSystem where
  rtc : RtcWorld
  requests : List Syncer
  fifo : List Message
  replies : List (Syncer × Message)

inductive RtcLabel
  | call (n : Syncer) (l : CallLabel)
  | reply (n : Syncer) (message : Message)
  | other (message : Message)
  | filter (ready : Bool)

/-- The requests that a step of call `n` sends. -/
def requested (n : Syncer) : CallLabel → List Syncer
  | .write ready => (writeMessage ready getRTCMessage).2.map fun _ => n
  | _ => []

/-- The steps. The filter takes any message that waits in the FIFO; `LatchedStep` puts it behind its interrupt. -/
inductive RtcStep : RtcSystem → RtcLabel → RtcSystem → Prop
  | call {w : RtcSystem} {n : Syncer} {l : CallLabel} {v : RtcWorld} : CallStep n w.rtc l v →
      RtcStep w (.call n l) { w with rtc := v, requests := w.requests ++ requested n l }
  | reply {w : RtcSystem} {n : Syncer} {message : Message} : n ∈ w.requests → message.command = commandGetRTC →
      RtcStep w (.reply n message)
        { w with
          requests := w.requests.erase n
          fifo := w.fifo ++ [message]
          replies := w.replies ++ [(n, message)] }
  | other {w : RtcSystem} {message : Message} : message.command ≠ commandGetRTC →
      RtcStep w (.other message) { w with fifo := w.fifo ++ [message] }
  | filter {w : RtcSystem} {message : Message} {rest : List Message} (ready : Bool) : w.fifo = message :: rest →
      RtcStep w (.filter ready) { w with rtc := w.rtc.filter ready message, fifo := rest }

def RtcSystemInit (w : RtcSystem) : Prop := RtcInit w.rtc ∧ w.requests = [] ∧ w.fifo = [] ∧ w.replies = []

/-! ## What is on its way -/

/-- The GetRTC replies in the FIFO. -/
def queued (w : RtcSystem) : List Message := w.fifo.filter fun m => m.command == commandGetRTC

/-- No request and no reply is on its way, and no value waits to be taken. -/
structure Calm (w : RtcSystem) : Prop where
  requests : w.requests = []
  queued : queued w = []
  present : w.rtc.driver.rtcValuePresent = false

/-- Call `n` has been sent a reply with this value. -/
def Replied (w : RtcSystem) (n : Syncer) (value : BitVec 64) : Prop := ∃ m, (n, m) ∈ w.replies ∧ value = m.rtc

/-- The reply to call `n` was handled and its value waits. -/
structure Answered (w : RtcSystem) (n : Syncer) : Prop where
  requests : w.requests = []
  queued : queued w = []
  present : w.rtc.driver.rtcValuePresent = true
  value : Replied w n w.rtc.driver.rtcValue

/-- The request of call `n` is with the SMC. -/
structure Asked (w : RtcSystem) (n : Syncer) : Prop where
  requests : w.requests = [n]
  queued : queued w = []
  present : w.rtc.driver.rtcValuePresent = false
  unreplied : n ∉ w.replies.map Prod.fst
  unsignalled : (w.rtc.syncer n).signals = 0

/-- The reply to call `n` is in the FIFO. -/
structure Arriving (w : RtcSystem) (n : Syncer) : Prop where
  requests : w.requests = []
  queued : ∃ m, queued w = [m] ∧ (n, m) ∈ w.replies
  present : w.rtc.driver.rtcValuePresent = false
  unsignalled : (w.rtc.syncer n).signals = 0

/-- What each point of a call means for the request and the reply. -/
def Awaits (w : RtcSystem) (n : Syncer) : Call → Prop
  | .written | .waiting _ => (Asked w n ∨ Arriving w n ∨ Answered w n) ∧ w.rtc.value n = none
  | .woken => Answered w n ∧ w.rtc.value n = none
  | .decided b => b = true ∧ Answered w n ∧ w.rtc.value n = none
  | .copied b => b = true ∧ Answered w n ∧ ∃ x, w.rtc.value n = some x ∧ Replied w n x
  | .taken b => b = true ∧ ∃ x, w.rtc.value n = some x ∧ Replied w n x
  | .returned .success => ∃ x, w.rtc.value n = some x ∧ Replied w n x
  | .returned .ioError => False
  | _ => n ∉ w.replies.map Prod.fst ∧ (w.rtc.syncer n).signals = 0 ∧ w.rtc.value n = none

/-- The call waits for its reply, or has still to take its value. -/
def Call.busy : Call → Bool
  | .written | .waiting _ | .woken | .decided _ | .copied _ => true
  | _ => false

theorem Call.holdsLock_of_busy {c : Call} (h : c.busy = true) : c.holdsLock = true := by
  cases c <;> first | rfl | cases h

structure ReplyInv (w : RtcSystem) : Prop where
  lock : LockInv w.rtc
  calm : (∀ n, (w.rtc.call n).busy = false) → Calm w
  awaits : ∀ n, Awaits w n (w.rtc.call n)
  once : (w.replies.map Prod.fst).Nodup

/-! ## Small facts -/

section Facts

variable {w v : RtcSystem} {n m : Syncer} {c : Call}

/-- A call that is not waiting for its reply does not look at what is on its way, only at its own replies. -/
theorem Awaits.of_replies (h : Awaits w m c) (hc : c.busy = false) (hr : ∀ x ∈ w.replies, x ∈ v.replies)
    (hn : m ∈ v.replies.map Prod.fst → m ∈ w.replies.map Prod.fst) (hs : v.rtc.syncer m = w.rtc.syncer m)
    (hv : v.rtc.value m = w.rtc.value m) : Awaits v m c := by
  have hkeep : ∀ {x}, Replied w m x → Replied v m x := fun ⟨y, hy, hx⟩ => ⟨y, hr _ hy, hx⟩
  cases c with
  | written | waiting s | woken | decided b | copied b => cases hc
  | taken b =>
    obtain ⟨hb, x, hx, hrep⟩ := h
    exact ⟨hb, x, hv.trans hx, hkeep hrep⟩
  | returned r =>
    cases r with
    | success =>
      obtain ⟨x, hx, hrep⟩ := h
      exact ⟨x, hv.trans hx, hkeep hrep⟩
    | ioError => exact h
    | _ => exact ⟨fun hm => h.1 (hn hm), by rw [hs]; exact h.2.1, hv.trans h.2.2⟩
  | _ => exact ⟨fun hm => h.1 (hn hm), by rw [hs]; exact h.2.1, hv.trans h.2.2⟩

theorem Awaits.of_not_busy (h : Awaits w m c) (hc : c.busy = false) (hr : v.replies = w.replies)
    (hs : v.rtc.syncer m = w.rtc.syncer m) (hv : v.rtc.value m = w.rtc.value m) : Awaits v m c :=
  h.of_replies hc (by rw [hr]; exact fun _ hx => hx) (by rw [hr]; exact id) hs hv

/-- Where neither what is on its way nor the call's own data change. -/
theorem Awaits.congr (h : Awaits w m c) (hq : v.requests = w.requests) (hf : queued v = queued w)
    (hr : v.replies = w.replies) (hp : v.rtc.driver.rtcValuePresent = w.rtc.driver.rtcValuePresent)
    (hx : v.rtc.driver.rtcValue = w.rtc.driver.rtcValue) (hs : v.rtc.syncer m = w.rtc.syncer m)
    (hv : v.rtc.value m = w.rtc.value m) : Awaits v m c := by
  have hasked : Asked w m → Asked v m := fun ⟨h1, h2, h3, h4, h5⟩ =>
    ⟨hq.trans h1, hf.trans h2, hp.trans h3, by rw [hr]; exact h4, by rw [hs]; exact h5⟩
  have harriving : Arriving w m → Arriving v m := fun ⟨h1, h2, h3, h4⟩ =>
    ⟨hq.trans h1, by rw [hf, hr]; exact h2, hp.trans h3, by rw [hs]; exact h4⟩
  have hanswered : Answered w m → Answered v m := fun ⟨h1, h2, h3, h4⟩ =>
    ⟨hq.trans h1, hf.trans h2, hp.trans h3, by rw [Replied, hr, hx]; exact h4⟩
  cases c with
  | written | waiting s =>
    exact ⟨h.1.imp hasked (Or.imp harriving hanswered), hv.trans h.2⟩
  | woken => exact ⟨hanswered h.1, hv.trans h.2⟩
  | decided b => exact ⟨h.1, hanswered h.2.1, hv.trans h.2.2⟩
  | copied b => exact ⟨h.1, hanswered h.2.1, by simpa only [Replied, hr, hv] using h.2.2⟩
  | _ => exact h.of_not_busy rfl hr hs hv

/-- Something on its way is for a call that waits. -/
theorem ReplyInv.busy (h : ReplyInv w) (hn : ¬ Calm w) : ∃ n, (w.rtc.call n).busy = true := by
  by_contra hc
  simp only [not_exists, Bool.not_eq_true] at hc
  exact hn (h.calm hc)

/-- While one call holds the lock the others are not busy. -/
theorem ReplyInv.not_busy (h : ReplyInv w) (hn : (w.rtc.call n).holdsLock = true) (hm : m ≠ n) :
    (w.rtc.call m).busy = false := by
  by_contra hc
  exact hm (h.lock.unique hn (Call.holdsLock_of_busy (by simpa using hc)))

/-- While something is on its way, the call it is for waits for it. -/
theorem ReplyInv.in_flight (h : ReplyInv w) (hw : w.requests ≠ [] ∨ queued w ≠ []) :
    ∃ n, (Asked w n ∨ Arriving w n) ∧ (w.rtc.call n).published = true ∧ (w.rtc.call n).busy = true ∧
      w.rtc.value n = none := by
  have hmoving : ¬ (w.requests = [] ∧ queued w = []) := fun hc => hw.elim (· hc.1) (· hc.2)
  have hanswered : ∀ n, ¬ Answered w n := fun n ha => hmoving ⟨ha.requests, ha.queued⟩
  obtain ⟨n, hn⟩ := h.busy fun hc => hmoving ⟨hc.requests, hc.queued⟩
  have haw := h.awaits n
  cases hc : w.rtc.call n with
  | written | waiting s =>
    rw [hc] at haw
    obtain ⟨ha | ha | ha, hv⟩ := haw
    · exact ⟨n, Or.inl ha, by rw [hc]; rfl, by rw [hc]; rfl, hv⟩
    · exact ⟨n, Or.inr ha, by rw [hc]; rfl, by rw [hc]; rfl, hv⟩
    · exact absurd ha (hanswered n)
  | woken => rw [hc] at haw; exact absurd haw.1 (hanswered n)
  | decided b | copied b => rw [hc] at haw; exact absurd haw.2.1 (hanswered n)
  | _ => rw [hc] at hn; cases hn

/-- A request is the only one, and its call waits. -/
theorem ReplyInv.asked (h : ReplyInv w) (hn : n ∈ w.requests) :
    Asked w n ∧ (w.rtc.call n).published = true ∧ (w.rtc.call n).busy = true ∧ w.rtc.value n = none := by
  have hsome : w.requests ≠ [] := List.ne_nil_of_mem hn
  obtain ⟨k, ha | ha, hk⟩ := h.in_flight (Or.inl hsome)
  · rw [ha.requests] at hn
    obtain rfl := List.mem_singleton.mp hn
    exact ⟨ha, hk⟩
  · exact absurd ha.requests hsome

/-- A reply in the FIFO is the only one, and its call waits. -/
theorem ReplyInv.arriving (h : ReplyInv w) (hq : queued w ≠ []) :
    ∃ n, Arriving w n ∧ (w.rtc.call n).published = true ∧ (w.rtc.call n).busy = true ∧ w.rtc.value n = none := by
  obtain ⟨k, ha | ha, hk⟩ := h.in_flight (Or.inr hq)
  · exact absurd ha.queued hq
  · exact ⟨k, ha, hk⟩

end Facts

/-! ## Steps of the calls -/

section Steps

variable {w : RtcSystem} {n : Syncer}

theorem replyInv_init (h : RtcSystemInit w) : ReplyInv w := by
  obtain ⟨hrtc, hreq, hfifo, hrep⟩ := h
  refine ⟨lockInv_init hrtc, fun _ => ⟨hreq, by rw [queued, hfifo]; rfl, hrtc.rtcValuePresent⟩, fun n => ?_, ?_⟩
  · rw [hrtc.call n]
    exact ⟨by rw [hrep]; exact List.not_mem_nil, by rw [hrtc.syncer n]; rfl, hrtc.value n⟩
  · rw [hrep]; exact List.nodup_nil

/-- A call that moves on without a word to the SMC, neither busy before nor after. -/
theorem ReplyInv.quiet (h : ReplyInv w) {v : RtcWorld} {c : Call} (hlock : LockInv v)
    (hcall : v.call = (w.rtc.goto n c).call) (hb : (w.rtc.call n).busy = false)
    (hp : v.driver.rtcValuePresent = w.rtc.driver.rtcValuePresent) (hx : v.driver.rtcValue = w.rtc.driver.rtcValue)
    (hs : ∀ m, m ≠ n → v.syncer m = w.rtc.syncer m) (hv : v.value = w.rtc.value)
    (ha : Awaits { w with rtc := v } n c) : ReplyInv { w with rtc := v } := by
  refine ⟨hlock, fun hall => ?_, fun m => ?_, h.once⟩
  · have hcalm := h.calm fun m => by
      by_cases hm : m = n
      · rw [hm]; exact hb
      · have hm' := hall m
        rw [hcall, RtcWorld.goto_call_of_ne _ _ hm] at hm'
        exact hm'
    exact ⟨hcalm.requests, hcalm.queued, hp.trans hcalm.present⟩
  · rw [hcall]
    by_cases hm : m = n
    · subst hm
      rw [RtcWorld.goto_call_self]
      exact ha
    · rw [RtcWorld.goto_call_of_ne _ _ hm]
      exact (h.awaits m).congr rfl rfl rfl hp hx (hs m hm) (congrFun hv m)

/-- A step of a call that holds the lock, for which another one is not busy. -/
theorem ReplyInv.holder (h : ReplyInv w) {v : RtcSystem} {c : Call} (hlock : LockInv v.rtc)
    (hn : (w.rtc.call n).holdsLock = true) (hcall : v.rtc.call = (w.rtc.goto n c).call)
    (hr : v.replies = w.replies) (hs : ∀ m, m ≠ n → v.rtc.syncer m = w.rtc.syncer m)
    (hv : ∀ m, m ≠ n → v.rtc.value m = w.rtc.value m) (hc : c.busy = true ∨ Calm v) (ha : Awaits v n c) :
    ReplyInv v := by
  refine ⟨hlock, fun hall => ?_, fun m => ?_, by rw [hr]; exact h.once⟩
  · refine hc.resolve_left ?_
    have hself := hall n
    rw [hcall, RtcWorld.goto_call_self] at hself
    simp [hself]
  · rw [hcall]
    by_cases hm : m = n
    · subst hm
      rw [RtcWorld.goto_call_self]
      exact ha
    · rw [RtcWorld.goto_call_of_ne _ _ hm]
      exact (h.awaits m).of_not_busy (h.not_busy hn hm) hr (hs m hm) (hv m hm)

theorem replyInv_call {v : RtcWorld} {l : CallLabel} (h : ReplyInv w) (hs : CallStep n w.rtc l v) :
    ReplyInv { w with rtc := v, requests := w.requests ++ requested n l } := by
  have hlock := lockInv_step h.lock hs
  have hn := h.awaits n
  have hnil : w.requests ++ [] = w.requests := List.append_nil _
  cases hs with
  | write ready he =>
    rw [he] at hn
    obtain ⟨hun, hsig, hval⟩ := hn
    cases ready with
    | false =>
      show ReplyInv { w with rtc := _, requests := w.requests ++ [] }
      rw [hnil]
      exact h.quiet hlock rfl (by rw [he]; rfl) rfl rfl (fun _ _ => rfl) rfl ⟨hun, hsig, hval⟩
    | true =>
      have hcalm : Calm w := h.calm fun m => by
        by_cases hm : m = n
        · rw [hm, he]; rfl
        · exact h.not_busy (by rw [he]; rfl) hm
      refine h.holder (n := n) (c := .written) hlock (by rw [he]; rfl) rfl rfl (fun _ _ => rfl) (fun _ _ => rfl)
        (Or.inl rfl) ⟨Or.inl ⟨?_, hcalm.queued, hcalm.present, hun, hsig⟩, hval⟩
      simp [hcalm.requests, requested, writeMessage]
  | wait he _ =>
    simp only [requested, hnil]
    rw [he] at hn
    exact h.holder (n := n) (c := .waiting _) hlock (by rw [he]; rfl) rfl rfl (fun _ _ => rfl) (fun _ _ => rfl)
      (Or.inl rfl) (Awaits.congr (c := .written) hn rfl rfl rfl rfl rfl rfl rfl)
  | @wake s he hpos =>
    simp only [requested, hnil]
    obtain rfl := h.lock.target n s he
    rw [he] at hn
    obtain ⟨ha | ha | ha, hval⟩ := hn
    · exact absurd ha.unsignalled (Nat.pos_iff_ne_zero.mp hpos)
    · exact absurd ha.unsignalled (Nat.pos_iff_ne_zero.mp hpos)
    · exact h.holder (n := s) (c := .woken) hlock (by rw [he]; rfl) rfl rfl
        (fun _ hm => Function.update_of_ne hm _ _) (fun _ _ => rfl) (Or.inl rfl)
        ⟨⟨ha.requests, ha.queued, ha.present, ha.value⟩, hval⟩
  | check he =>
    simp only [requested, hnil]
    rw [he] at hn
    exact h.holder (n := n) (c := .decided _) hlock (by rw [he]; rfl) rfl rfl (fun _ _ => rfl) (fun _ _ => rfl)
      (Or.inl rfl) ⟨hn.1.present, ⟨hn.1.requests, hn.1.queued, hn.1.present, hn.1.value⟩, hn.2⟩
  | copy he hp =>
    simp only [requested, hnil]
    rw [he] at hn
    obtain ⟨hb, ha, hval⟩ := hn
    exact h.holder (n := n) (c := .copied _) hlock (by rw [he]; rfl) rfl rfl (fun _ _ => rfl)
      (fun _ hm => Function.update_of_ne hm _ _) (Or.inl rfl)
      ⟨hb, ⟨ha.requests, ha.queued, ha.present, ha.value⟩, _, Function.update_self _ _ _, ha.value⟩
  | clearPresent he =>
    simp only [requested, hnil]
    rw [he] at hn
    obtain ⟨hb, ha, hval⟩ := hn
    exact h.holder (n := n) (c := .taken _) hlock (by rw [he]; rfl) rfl rfl (fun _ _ => rfl) (fun _ _ => rfl)
      (Or.inr ⟨ha.requests, ha.queued, rfl⟩) ⟨hb, hval⟩
  | skip he hp =>
    rw [he] at hn
    rw [hn.2.1.present] at hp
    cases hp
  | unlock he =>
    simp only [requested, hnil]
    rw [he] at hn
    obtain ⟨rfl, hval⟩ := hn
    exact h.quiet hlock rfl (by rw [he]; rfl) rfl rfl (fun _ _ => rfl) rfl hval
  | release he =>
    simp only [requested, hnil]
    rw [he] at hn
    refine h.quiet (c := .returned (.write _)) hlock rfl (by rw [he]; rfl) rfl rfl
      (fun _ hm => Function.update_of_ne hm _ _) rfl ⟨hn.1, ?_, hn.2.2⟩
    simpa [RtcWorld.modifySyncer, RtcWorld.goto, SyncerState.drop] using hn.2.1
  | noSyncer he | create he | lock he _ | store he | clear he | unlockRefused he =>
    simp only [requested, hnil]
    rw [he] at hn
    exact h.quiet hlock rfl (by rw [he]; rfl) rfl rfl (fun _ _ => rfl) rfl hn

theorem replyInv_reply {message : Message} (h : ReplyInv w) (hn : n ∈ w.requests)
    (hm : message.command = commandGetRTC) :
    ReplyInv { w with
      requests := w.requests.erase n
      fifo := w.fifo ++ [message]
      replies := w.replies ++ [(n, message)] } := by
  obtain ⟨ha, _, hbusy, hval⟩ := h.asked hn
  have hreq : w.requests.erase n = [] := by rw [ha.requests]; simp
  have hqueue : (w.fifo ++ [message]).filter (fun m => m.command == commandGetRTC) = [message] := by
    rw [List.filter_append, show w.fifo.filter _ = [] from ha.queued]
    simp [hm]
  refine ⟨h.lock, fun hall => ?_, fun k => ?_, ?_⟩
  · rw [hall n] at hbusy
    cases hbusy
  · by_cases hk : k = n
    · subst hk
      have harr : Arriving { w with
          requests := w.requests.erase k
          fifo := w.fifo ++ [message]
          replies := w.replies ++ [(k, message)] } k :=
        ⟨hreq, ⟨message, hqueue, by simp⟩, ha.present, ha.unsignalled⟩
      have haw := h.awaits k
      cases hc : w.rtc.call k with
      | written | waiting s => exact ⟨Or.inr (Or.inl harr), hval⟩
      | woken => rw [hc] at haw; exact absurd (haw.1.present.symm.trans ha.present) nofun
      | decided b | copied b => rw [hc] at haw; exact absurd (haw.2.1.present.symm.trans ha.present) nofun
      | _ => rw [hc] at hbusy; cases hbusy
    · have hnot := h.not_busy (Call.holdsLock_of_busy hbusy) hk
      refine (h.awaits k).of_replies hnot (fun x hx => ?_) (fun hx => ?_) rfl rfl
      · exact List.mem_append_left _ hx
      · simpa [hk] using hx
  · rw [List.map_append, List.nodup_append]
    exact ⟨h.once, List.pairwise_singleton _ _, fun a ha' b hb hab => ha.unreplied (by simp_all)⟩

theorem replyInv_other {message : Message} (h : ReplyInv w) (hm : message.command ≠ commandGetRTC) :
    ReplyInv { w with fifo := w.fifo ++ [message] } := by
  have hqueue : queued { w with fifo := w.fifo ++ [message] } = queued w := by
    rw [queued, List.filter_append, queued]
    simp [hm]
  refine ⟨h.lock, fun hall => ?_, fun k => ?_, h.once⟩
  · obtain ⟨h1, h2, h3⟩ := h.calm hall
    exact ⟨h1, hqueue.trans h2, h3⟩
  · exact (h.awaits k).congr rfl hqueue rfl rfl rfl rfl rfl

theorem replyInv_filter {message : Message} {rest : List Message} (ready : Bool) (h : ReplyInv w)
    (hf : w.fifo = message :: rest) : ReplyInv { w with rtc := w.rtc.filter ready message, fifo := rest } := by
  have hlock := lockInv_filter ready message h.lock
  by_cases hm : message.command = commandGetRTC
  · have hq : queued w = message :: rest.filter fun m => m.command == commandGetRTC := by
      rw [queued, hf, List.filter_cons_of_pos (by simpa using hm)]
    obtain ⟨k, ⟨hreq, ⟨m, hqm, hmem⟩, hpres, hsig⟩, hpub, hbusy, hval⟩ :=
      h.arriving (by rw [hq]; exact List.cons_ne_nil _ _)
    obtain ⟨rfl, hrest⟩ := List.cons.inj (hq.symm.trans hqm)
    rw [filter_reply_some hm (h.lock.pointer k hpub)] at hlock ⊢
    refine ⟨hlock, fun hall => ?_, fun j => ?_, h.once⟩
    · have hk := hall k
      exact absurd (hbusy.symm.trans hk) nofun
    · by_cases hj : j = k
      · subst hj
        have hans : Answered
            { w with
              rtc := ({ w.rtc with
                driver := { w.rtc.driver with rtcValue := message.rtc, rtcValuePresent := true } }).modifySyncer j
                  .signal
              fifo := rest } j :=
          ⟨hreq, hrest, rfl, message, hmem, rfl⟩
        have haw := h.awaits j
        show Awaits _ j (w.rtc.call j)
        cases hc : w.rtc.call j with
        | written | waiting s => exact ⟨Or.inr (Or.inr hans), hval⟩
        | woken => exact ⟨hans, hval⟩
        | decided b => rw [hc] at haw; exact ⟨haw.1, hans, hval⟩
        | copied b => rw [hc] at haw; exact ⟨haw.1, hans, haw.2.2⟩
        | _ => rw [hc] at hbusy; cases hbusy
      · exact (h.awaits j).of_not_busy (h.not_busy (Call.holdsLock_of_busy hbusy) hj) rfl
          (Function.update_of_ne hj _ _) rfl
  · have hq : rest.filter (fun m => m.command == commandGetRTC) = queued w := by
      rw [queued, hf, List.filter_cons_of_neg (by simpa using hm)]
    obtain ⟨-, -, hx, hp⟩ := @filterMessage_other ready _ w.rtc.driver hm
    rw [filter_other hm] at hlock ⊢
    refine ⟨hlock, fun hall => ?_, fun j => ?_, h.once⟩
    · obtain ⟨h1, h2, h3⟩ := h.calm hall
      exact ⟨h1, hq.trans h2, hp.trans h3⟩
    · exact (h.awaits j).congr rfl hq rfl hp hx rfl rfl

theorem replyInv_step {v : RtcSystem} {l : RtcLabel} (h : ReplyInv w) (hs : RtcStep w l v) : ReplyInv v := by
  cases hs with
  | call hs => exact replyInv_call h hs
  | reply hn hm => exact replyInv_reply h hn hm
  | other hm => exact replyInv_other h hm
  | filter ready hf => exact replyInv_filter ready h hf

theorem replyInv_run {es : List (Edge RtcSystem RtcLabel)} (h : Run RtcSystemInit RtcStep es w) : ReplyInv w :=
  h.invariant (I := ReplyInv) (fun _ => replyInv_init) fun _ _ _ => replyInv_step

end Steps

/-! ## A run without one of its calls -/

/-- The call was refused, or has not asked yet. -/
def Call.unasked : Call → Bool
  | .fresh | .created | .locked | .stored | .refused _ | .cleared _ | .unlocked _ => true
  | .returned .noResources | .returned (.write _) => true
  | _ => false

/-- The state without call `n`, with whatever `_rtcSyncer` is there then. -/
def RtcWorld.without (w : RtcWorld) (n : Syncer) (p : Option Syncer) : RtcWorld :=
  { w with
    driver := { w.driver with rtcSyncer := p }
    rtcLock := if (w.call n).holdsLock then none else w.rtcLock
    call := Function.update w.call n .fresh
    syncer := Function.update w.syncer n .new }

def RtcLabel.isCall (n : Syncer) : RtcLabel → Bool
  | .call m _ => m == n
  | _ => false

section Erase

variable {w v : RtcSystem} {n m : Syncer} {p : Option Syncer}

theorem Call.not_busy_of_unasked {c : Call} (h : c.unasked = true) : c.busy = false := by
  cases c with
  | written | waiting s | woken | decided b | copied b => cases h
  | _ => rfl

/-- A call that fails has not asked. -/
theorem CallStep.unasked {u v : RtcWorld} {l : CallLabel} (hs : CallStep n u l v) (h : (v.call n).unasked = true) :
    (u.call n).unasked = true := by
  cases hs with
  | noSyncer hc | create hc | lock hc _ | store hc | clear hc | unlockRefused hc | release hc => rw [hc]; rfl
  | write ready hc => rw [hc]; rfl
  | @unlock b hc =>
    rw [show _ = Call.returned _ from RtcWorld.goto_call_self u n _] at h
    cases b <;> cases h
  | _ => cases (RtcWorld.goto_call_self u n _).symm ▸ h

theorem RtcWorld.without_goto (u : RtcWorld) (c : Call) (hm : m ≠ n) :
    (u.goto m c).without n p = (u.without n p).goto m c := by
  simp only [without, goto, Function.update_comm hm, Function.update_of_ne hm.symm]

theorem RtcWorld.without_setSyncer (u : RtcWorld) (n : Syncer) (p q : Option Syncer) :
    (u.setSyncer q).without n q = (u.without n p).setSyncer q := rfl

theorem RtcWorld.without_modifySyncer (u : RtcWorld) (f : SyncerState → SyncerState) (hm : m ≠ n) :
    (u.modifySyncer m f).without n p = (u.without n p).modifySyncer m f := by
  simp only [without, modifySyncer, Function.update_comm hm, Function.update_of_ne hm]
  rfl

theorem RtcWorld.without_unlocked (u : RtcWorld) (n : Syncer) (p : Option Syncer) :
    RtcWorld.without { u with rtcLock := none } n p = { u.without n p with rtcLock := none } := by
  simp only [without, ite_self]

/-- Every step of another call can be taken without the call, which holds no lock when the other takes it. -/
theorem CallStep.without {u v : RtcWorld} {l : CallLabel} (h : LockInv u) (hs : CallStep m u l v) (hm : m ≠ n)
    (hp : (u.call m).published = true → p = some m) : ∃ q, CallStep m (u.without n p) l (v.without n q) := by
  have hcall : (u.without n p).call m = u.call m := Function.update_of_ne hm _ _
  have hgoto : ∀ c q, (u.goto m c).without n q = (u.without n q).goto m c := fun c q => u.without_goto c hm
  cases hs with
  | noSyncer hc => exact ⟨p, by rw [hgoto]; exact .noSyncer (hcall.trans hc)⟩
  | create hc => exact ⟨p, by rw [hgoto]; exact .create (hcall.trans hc)⟩
  | lock hc hnone =>
    have hn : (u.call n).holdsLock = false := by
      by_contra hl
      rw [h.holder n (by simpa using hl)] at hnone
      cases hnone
    have hlock := CallStep.lock (n := m) (w := u.without n p) (hcall.trans hc) (by simp [RtcWorld.without, hn, hnone])
    refine ⟨p, ?_⟩
    simpa [RtcWorld.without, RtcWorld.goto, Function.update_comm hm, Function.update_of_ne hm.symm, hn] using hlock
  | store hc =>
    refine ⟨some m, ?_⟩
    rw [RtcWorld.without_setSyncer _ n p, hgoto]
    exact .store (hcall.trans hc)
  | write ready hc => exact ⟨p, by rw [hgoto]; exact .write ready (hcall.trans hc)⟩
  | clear hc =>
    refine ⟨none, ?_⟩
    rw [RtcWorld.without_setSyncer _ n p, hgoto]
    exact .clear (hcall.trans hc)
  | unlockRefused hc =>
    refine ⟨p, ?_⟩
    rw [RtcWorld.without_unlocked, hgoto]
    exact .unlockRefused (hcall.trans hc)
  | release hc =>
    refine ⟨p, ?_⟩
    rw [RtcWorld.without_modifySyncer _ _ hm, hgoto]
    exact .release (hcall.trans hc)
  | wait hc hs =>
    obtain rfl := Option.some.inj ((h.pointer m (by rw [hc]; rfl)).symm.trans hs)
    exact ⟨p, by rw [hgoto]; exact .wait (hcall.trans hc) (hp (by rw [hc]; rfl))⟩
  | @wake s hc hpos =>
    obtain rfl := h.target m s hc
    have hsyncer : (u.without n p).syncer s = u.syncer s := Function.update_of_ne hm _ _
    refine ⟨p, ?_⟩
    rw [RtcWorld.without_modifySyncer _ _ hm, hgoto]
    exact .wake (hcall.trans hc) (by rw [hsyncer]; exact hpos)
  | check hc => exact ⟨p, by rw [hgoto]; exact .check (hcall.trans hc)⟩
  | copy hc hv =>
    have hcopy := CallStep.copy (n := m) (w := u.without n p) (hcall.trans hc) hv
    rw [← hgoto] at hcopy
    exact ⟨p, hcopy⟩
  | clearPresent hc =>
    have hclear := CallStep.clearPresent (n := m) (w := u.without n p) (hcall.trans hc)
    rw [← hgoto] at hclear
    exact ⟨p, hclear⟩
  | skip hc hv => exact ⟨p, by rw [hgoto]; exact .skip (hcall.trans hc) hv⟩
  | unlock hc =>
    refine ⟨p, ?_⟩
    rw [RtcWorld.without_unlocked, hgoto]
    exact .unlock (hcall.trans hc)

theorem filterMessage_setSyncer {ready : Bool} {message : Message} {d : Driver} (p : Option Syncer) :
    (filterMessage ready message { d with rtcSyncer := p }).driver =
      { (filterMessage ready message d).driver with rtcSyncer := p } := by
  unfold filterMessage
  repeat' split
  all_goals rfl

/-- The filter does not see call `n`, unless it signals it. -/
theorem RtcWorld.filter_without {u : RtcWorld} (ready : Bool) {message : Message}
    (hp : message.command = commandGetRTC → ∃ k, k ≠ n ∧ u.driver.rtcSyncer = some k ∧ p = some k) :
    (u.filter ready message).without n p = (u.without n p).filter ready message := by
  by_cases hm : message.command = commandGetRTC
  · obtain ⟨k, hk, hu, rfl⟩ := hp hm
    rw [filter_reply_some hm hu, filter_reply_some (w := u.without n (some k)) hm rfl, without_modifySyncer _ _ hk]
    rfl
  · rw [filter_other hm, filter_other hm]
    simp [without, filterMessage_setSyncer]

/-- A step of a call that has not asked is nothing to the others. -/
theorem CallStep.without_self {u v : RtcWorld} {l : CallLabel} (hs : CallStep n u l v)
    (hu : (v.call n).unasked = true) : requested n l = [] ∧ v.without n p = u.without n p := by
  have hgoto : ∀ c, (u.goto n c).call n = c := u.goto_call_self n
  cases hs with
  | noSyncer hc | create hc | store hc | clear hc =>
    refine ⟨rfl, ?_⟩
    simp [RtcWorld.without, RtcWorld.goto, RtcWorld.setSyncer, hc, Call.holdsLock]
  | lock hc hnone =>
    refine ⟨rfl, ?_⟩
    simp [RtcWorld.without, RtcWorld.goto, hc, hnone, Call.holdsLock]
  | write ready hc =>
    cases ready with
    | true => rw [hgoto] at hu; cases hu
    | false =>
      refine ⟨rfl, ?_⟩
      simp [RtcWorld.without, RtcWorld.goto, hc, Call.holdsLock, writeMessage, Call.afterWrite]
  | unlockRefused hc | release hc =>
    refine ⟨rfl, ?_⟩
    simp [RtcWorld.without, RtcWorld.goto, RtcWorld.modifySyncer, hc, Call.holdsLock]
  | @unlock b hc =>
    rw [show _ = Call.returned _ from hgoto _] at hu
    cases b <;> cases hu
  | _ => cases (hgoto _).symm ▸ hu

def RtcSystem.without (w : RtcSystem) (n : Syncer) (p : Option Syncer) : RtcSystem :=
  { w with rtc := w.rtc.without n p }

theorem RtcStep.without_self {l : RtcLabel} (hs : RtcStep w l v) (hl : l.isCall n = true)
    (hu : (v.rtc.call n).unasked = true) : v.without n p = w.without n p := by
  cases hs with
  | @call m l u hs =>
    obtain rfl : m = n := by simpa [RtcLabel.isCall] using hl
    obtain ⟨hreq, hrtc⟩ := hs.without_self (p := p) hu
    simp only [RtcSystem.without, hreq, hrtc, List.append_nil]
  | _ => cases hl

/-- Every other step can be taken without the call. -/
theorem RtcStep.without {l : RtcLabel} (h : ReplyInv w) (hp : LockInv (w.rtc.without n p)) (hs : RtcStep w l v)
    (hl : l.isCall n = false) (hu : (w.rtc.call n).unasked = true) :
    ∃ q, RtcStep (w.without n p) l (v.without n q) := by
  have hpub : ∀ m, m ≠ n → (w.rtc.call m).published = true → p = some m := fun m hm hc =>
    hp.pointer m (by simpa [RtcWorld.without, Function.update_of_ne hm] using hc)
  cases hs with
  | @call m l u hs =>
    have hm : m ≠ n := by simpa [RtcLabel.isCall] using hl
    obtain ⟨q, hq⟩ := hs.without h.lock hm (hpub m hm)
    exact ⟨q, .call hq⟩
  | reply hn hm => exact ⟨p, .reply hn hm⟩
  | other hm => exact ⟨p, .other hm⟩
  | @filter message rest ready hf =>
    have hstep := RtcStep.filter (w := w.without n p) ready hf
    refine ⟨p, ?_⟩
    have hfilter : (w.rtc.filter ready message).without n p = (w.rtc.without n p).filter ready message := by
      refine RtcWorld.filter_without ready fun hm => ?_
      obtain ⟨k, -, hk, hbusy, -⟩ := h.arriving (by rw [queued, hf, List.filter_cons_of_pos (by simpa using hm)]; simp)
      have hne : k ≠ n := by
        rintro rfl
        rw [Call.not_busy_of_unasked hu] at hbusy
        cases hbusy
      exact ⟨k, hne, h.lock.pointer k hk, hpub k hne hk⟩
    simp only [RtcSystem.without, hfilter]
    exact hstep

theorem RtcSystemInit.without (h : RtcSystemInit w) (n : Syncer) : w.without n none = w := by
  have hcall := Function.update_eq_self n w.rtc.call
  have hsyncer := Function.update_eq_self n w.rtc.syncer
  rw [h.1.call n] at hcall
  rw [h.1.syncer n] at hsyncer
  have hlock : (if (w.rtc.call n).holdsLock then none else w.rtc.rtcLock) = w.rtc.rtcLock := by
    rw [h.1.rtcLock, ite_self]
  have hdriver : { w.rtc.driver with rtcSyncer := none } = w.rtc.driver := by rw [← h.1.rtcSyncer]
  simp only [RtcSystem.without, RtcWorld.without, hcall, hsyncer, hlock, hdriver]

/-- A call that has not asked had not asked before. -/
theorem RtcStep.unasked {l : RtcLabel} (hs : RtcStep w l v) (hu : (v.rtc.call n).unasked = true) :
    (w.rtc.call n).unasked = true := by
  cases hs with
  | @call m l u hs =>
    by_cases hm : n = m
    · subst hm
      exact hs.unasked hu
    · rw [← hs.call_of_ne hm]
      exact hu
  | reply | other => exact hu
  | filter ready hf => rwa [(filter_keeps _ _ _).1] at hu

/-- **A call that fails might as well not have been made**: the run without its steps is a run, and ends in the same
state but for the call itself, its syncer, the lock while it holds it and `_rtcSyncer`. -/
theorem erase_run {es : List (Edge RtcSystem RtcLabel)} (h : Run RtcSystemInit RtcStep es w)
    (hu : (w.rtc.call n).unasked = true) :
    ∃ p fs, Run RtcSystemInit RtcStep fs (w.without n p) ∧
      fs.map Edge.label = (es.map Edge.label).filter fun l => !l.isCall n := by
  induction h with
  | start h0 => exact ⟨none, [], .start (by rw [h0.without]; exact h0), rfl⟩
  | @step es w v l hr hs ih =>
    have huw := hs.unasked hu
    obtain ⟨p, fs, hfs, hlabels⟩ := ih huw
    rw [List.map_append, List.filter_append, ← hlabels]
    cases hl : l.isCall n with
    | true =>
      refine ⟨p, fs, ?_, by simp [hl]⟩
      rw [hs.without_self hl hu]
      exact hfs
    | false =>
      obtain ⟨q, hq⟩ := hs.without (replyInv_run hr) (replyInv_run hfs).lock hl huw
      exact ⟨q, _, hfs.step hq, by simp [hl]⟩

end Erase

/-! ## The value -/

section Paired

variable {w : RtcSystem}

/-- **Every call gets its own reply.** A call that succeeds has stored the clock of the reply to its request, no call
is replied to twice, and a call that fails stores nothing and might as well not have been made. -/
theorem replies_paired {es : List (Edge RtcSystem RtcLabel)} (h : Run RtcSystemInit RtcStep es w) :
    (∀ n, w.rtc.call n = .returned .success →
      ∃ m, (n, m) ∈ w.replies ∧ w.rtc.value n = some (m.clock.setWidth 64)) ∧
    (w.replies.map Prod.fst).Nodup ∧
    ∀ n r, w.rtc.call n = .returned r → r ≠ .success → w.rtc.value n = none ∧
      ∃ p fs, Run RtcSystemInit RtcStep fs (w.without n p) ∧
        fs.map Edge.label = (es.map Edge.label).filter fun l => !l.isCall n := by
  have hinv := replyInv_run h
  refine ⟨fun n hn => ?_, hinv.once, fun n r hn hr => ?_⟩
  · have haw := hinv.awaits n
    rw [hn] at haw
    obtain ⟨x, hx, m, hm, rfl⟩ := haw
    exact ⟨m, hm, by rw [hx, m.rtc_eq_clock]⟩
  · have haw := hinv.awaits n
    rw [hn] at haw
    cases r with
    | success => exact absurd rfl hr
    | ioError => exact haw.elim
    | noResources | write status => exact ⟨haw.2.2, erase_run h (by rw [hn]; rfl)⟩

/-- A call that times out, then a call that is answered. -/
theorem replies_paired_refused : ∃ es w, Run RtcSystemInit RtcStep es w ∧
    w.rtc.call 1 = .returned (.write .timeout) ∧ w.rtc.call 0 = .returned .success ∧
      (∃ m, (0, m) ∈ w.replies ∧ w.rtc.value 0 = some (m.clock.setWidth 64)) ∧ w.rtc.value 1 = none := by
  have h0 : Run RtcSystemInit RtcStep [] ⟨newRtc, [], [], []⟩ := .start ⟨newRtc_init, rfl, rfl, rfl⟩
  have h2 := (h0.step (.call (n := 1) (.create rfl))).step (.call (n := 1) (.lock rfl rfl))
  have h4 := (h2.step (.call (n := 1) (.store rfl))).step (.call (n := 1) (.write false rfl))
  have h6 := (h4.step (.call (n := 1) (.clear rfl))).step (.call (n := 1) (.unlockRefused rfl))
  have h8 := (h6.step (.call (n := 1) (.release rfl))).step (.call (n := 0) (.create rfl))
  have h10 := (h8.step (.call (n := 0) (.lock rfl rfl))).step (.call (n := 0) (.store rfl))
  have h12 := (h10.step (.call (n := 0) (.write true rfl))).step (.call (n := 0) (.wait rfl rfl))
  have h14 := (h12.step (.reply (n := 0) (List.mem_singleton_self _)
    (rfl : rtcReply.command = commandGetRTC))).step (.filter true rfl)
  have h16 := (h14.step (.call (n := 0) (.wake rfl (by decide)))).step (.call (n := 0) (.check rfl))
  have h18 := (h16.step (.call (n := 0) (.copy rfl rfl))).step (.call (n := 0) (.clearPresent rfl))
  have h := h18.step (.call (n := 0) (.unlock rfl))
  exact ⟨_, _, h, rfl, rfl, (replies_paired h).1 0 rfl, ((replies_paired h).2.2 1 _ rfl nofun).1⟩

end Paired

end Osx360.Smc