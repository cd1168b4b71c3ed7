import Mathlib.Algebra.BigOperators.Group.Finset.Basic
import Mathlib.Algebra.Order.BigOperators.Group.Finset
import Osx360.Smc.Replies
import Osx360.Smc.Stranded

/-!
# The calls that wait

Calls of `getRTC` with the SMC and `filterInterrupt` step by step behind its interrupt: it runs while the interrupt is
latched, takes one message and acknowledges.

- the system of `Replies`, in which the filter takes messages as they come, is what the calls see of it
  (`latched_refines`);
- the calls that have begun, the SMC answering them and the filter take a bounded number of steps, and after the last
  one all these calls have returned, exactly if no reply was stranded at the start and no acknowledging write finds one
  in the FIFO (`calls_return`).
-/

set_option autoImplicit false

namespace Osx360.Smc

open Osx360.Lib

/-! ## The calls that are signalled -/

/-- The lock is held by a call inside `getRTC`, and a call whose value is there was signalled. -/
structure LiveInv (w : RtcSystem) : Prop extends ReplyInv w where
  held : ∀ n, w.rtc.rtcLock = some n → (w.rtc.call n).holdsLock = true
  signalled : ∀ n, (w.rtc.call n).waits = true → w.rtc.driver.rtcValuePresent = true →
    0 < (w.rtc.syncer n).signals

section Live

variable {w v : RtcSystem} {n : Syncer}

theorem liveInv_init (h : RtcSystemInit w) : LiveInv w := by
  refine ⟨replyInv_init h, fun n hn => ?_, fun n hn => ?_⟩
  · rw [h.1.rtcLock] at hn
    cases hn
  · rw [h.1.call n] at hn
    cases hn

/-- A call that moves on without the lock changing hands. -/
theorem held_goto {u : RtcWorld} (h : ∀ m, u.rtcLock = some m → (u.call m).holdsLock = true) {c : Call}
    (hc : (u.call n).holdsLock = true → c.holdsLock = true) :
    ∀ m, u.rtcLock = some m → ((u.goto n c).call m).holdsLock = true := by
  intro m hm
  by_cases hmn : m = n
  · subst hmn
    rw [RtcWorld.goto_call_self]
    exact hc (h m hm)
  · rw [RtcWorld.goto_call_of_ne _ _ hmn]
    exact h m hm

theorem held_call {u u' : RtcWorld} {l : CallLabel} (h : ∀ m, u.rtcLock = some m → (u.call m).holdsLock = true)
    (hs : CallStep n u l u') : ∀ m, u'.rtcLock = some m → (u'.call m).holdsLock = true := by
  cases hs with
  | lock hc hfree =>
    rintro m ⟨⟩
    exact congrArg Call.holdsLock (u.goto_call_self n .locked)
  | unlockRefused | unlock => exact nofun
  | noSyncer hc | create hc | release hc => exact held_goto h (by rw [hc]; nofun)
  | write ready hc => cases ready <;> exact held_goto h fun _ => rfl
  | _ => exact held_goto h fun _ => rfl

/-- A call takes the value away, and does not bring it. -/
theorem CallStep.present {u u' : RtcWorld} {l : CallLabel} (hs : CallStep n u l u')
    (hp : u'.driver.rtcValuePresent = true) : u.driver.rtcValuePresent = true := by
  cases hs with
  | clearPresent => cases hp
  | _ => exact hp

theorem signalled_call {u : RtcWorld} {l : CallLabel} (h : LiveInv w) (hs : CallStep n w.rtc l u) :
    ∀ m, (u.call m).waits = true → u.driver.rtcValuePresent = true → 0 < (u.syncer m).signals := by
  intro m hm hp
  have hpresent := hs.present hp
  by_cases hmn : m = n
  · subst hmn
    cases hs with
    | write ready hc =>
      -- nobody has asked while the call was about to
      have hcalm : Calm w := h.calm fun k => by
        by_cases hk : k = m
        · rw [hk, hc]; rfl
        · exact h.not_busy (by rw [hc]; rfl) hk
      exact absurd (hcalm.present.symm.trans hpresent) nofun
    | wait hc => exact h.signalled m (by rw [hc]; rfl) hpresent
    | @unlock b hc =>
      rw [show _ = Call.returned _ from RtcWorld.goto_call_self w.rtc m _] at hm
      cases hm
    | _ => cases (RtcWorld.goto_call_self w.rtc m _).symm ▸ hm
  · rw [hs.syncer_of_ne h.lock hmn]
    rw [hs.call_of_ne hmn] at hm
    exact h.signalled m hm hpresent

theorem signalled_filter {message : Message} (ready : Bool) (h : LiveInv w) :
    ∀ m, ((w.rtc.filter ready message).call m).waits = true →
      (w.rtc.filter ready message).driver.rtcValuePresent = true →
      0 < ((w.rtc.filter ready message).syncer m).signals := by
  intro m hm hp
  rw [(filter_keeps ready message w.rtc).1] at hm
  by_cases hc : message.command = commandGetRTC
  · have hpointer := h.lock.pointer m (by cases hcall : w.rtc.call m <;> rw [hcall] at hm <;> first | rfl | cases hm)
    rw [filter_reply_some hc hpointer]
    simp [RtcWorld.modifySyncer, SyncerState.signal]
  · rw [filter_other hc] at hp ⊢
    exact h.signalled m hm ((filterMessage_other hc).2.2.2.symm.trans hp)

theorem liveInv_step {l : RtcLabel} (h : LiveInv w) (hs : RtcStep w l v) : LiveInv v := by
  refine ⟨replyInv_step h.toReplyInv hs, ?_, ?_⟩
  · cases hs with
    | call hs => exact held_call h.held hs
    | reply | other => exact h.held
    | filter ready hf =>
      obtain ⟨hcall, hlock, -, -⟩ := filter_keeps ready _ w.rtc
      intro m hm
      rw [hcall]
      exact h.held m (hlock.symm.trans hm)
  · cases hs with
    | call hs => exact signalled_call h hs
    | reply | other => exact h.signalled
    | filter ready hf => exact signalled_filter ready h

end Live

theorem liveInv_run {w : RtcSystem} {es : List (Edge RtcSystem RtcLabel)} (h : Run RtcSystemInit RtcStep es w) :
    LiveInv w := h.invariant (I := LiveInv) (fun _ => liveInv_init) fun _ _ _ => liveInv_step

/-! ## Behind the interrupt -/

/-- The calls, the SMC, the interrupt status register and the filter. -/
structure LatchedSystem extends RtcSystem where
  intStatus : Word
  filter : Filter

inductive LatchedLabel
  | call (n : Syncer) (l : CallLabel)
  | reply (n : Syncer) (message : Message)
  | other (message : Message)
  | latch (v : Word)
  | enter
  | readMessage (stack : Message)
  | handle (ready : Bool)
  | readStatus
  | ack

/-- The steps. The SMC latches its interrupt when it queues a message, and for nothing else; other bits may be latched
at any time. The filter goes on as in `FilterStep`, with the signal it gives. -/
inductive LatchedStep : LatchedSystem → LatchedLabel → LatchedSystem → Prop
  | call {w : LatchedSystem} {n : Syncer} {l : CallLabel} {v : RtcWorld} : CallStep n w.rtc l v →
      LatchedStep w (.call n l) { w with rtc := v, requests := w.requests ++ requested n l }
  | reply {w : LatchedSystem} {n : Syncer} {message : Message} : n ∈ w.requests → message.command = commandGetRTC →
      LatchedStep w (.reply n message)
        { w with
          requests := w.requests.erase n
          fifo := w.fifo ++ [message]
          replies := w.replies ++ [(n, message)]
          intStatus := w.intStatus ||| intStatusPending }
  | other {w : LatchedSystem} {message : Message} : message.command ≠ commandGetRTC →
      LatchedStep w (.other message)
        { w with fifo := w.fifo ++ [message], intStatus := w.intStatus ||| intStatusPending }
  | latch {w : LatchedSystem} (v : Word) : has v intStatusPending = false →
      LatchedStep w (.latch v) { w with intStatus := w.intStatus ||| v }
  | enter {w : LatchedSystem} : w.filter = .idle → has w.intStatus intStatusPending = true →
      LatchedStep w .enter { w with filter := .entered }
  | readMessage {w : LatchedSystem} (stack : Message) : w.filter = .entered →
      LatchedStep w (.readMessage stack)
        { w with
          filter := .received (readMessage w.fifo stack).2.1
          fifo := (readMessage w.fifo stack).2.2 }
  | handle {w : LatchedSystem} {message : Message} (ready : Bool) : w.filter = .received message →
      LatchedStep w (.handle ready) { w with filter := .handled, rtc := w.rtc.filter ready message }
  | readStatus {w : LatchedSystem} : w.filter = .handled →
      LatchedStep w .readStatus { w with filter := .statusRead w.intStatus }
  | ack {w : LatchedSystem} {v : Word} : w.filter = .statusRead v →
      LatchedStep w .ack { w with filter := .idle, intStatus := w.intStatus &&& ~~~v }

def LatchedInit (w : LatchedSystem) : Prop :=
  RtcSystemInit w.toRtcSystem ∧ has w.intStatus intStatusPending = false ∧ w.filter = .idle

/-! ### What the calls see -/

/-- The message that the filter has taken and not handled. -/
def Filter.taken : Filter → List Message
  | .received message => [message]
  | _ => []

/-- A message that was taken and not handled counts as queued. -/
def LatchedSystem.abs (w : LatchedSystem) : RtcSystem := { w.toRtcSystem with fifo := w.filter.taken ++ w.fifo }

def LatchedLabel.visible : LatchedLabel → Option RtcLabel
  | .call n l => some (.call n l)
  | .reply n message => some (.reply n message)
  | .other message => some (.other message)
  | .handle ready => some (.filter ready)
  | _ => none

/-- The filter is about to read. -/
def Filter.willRead (intStatus : Word) : Filter → Prop
  | .idle => has intStatus intStatusPending = true
  | .entered => True
  | _ => False

/-- A running filter will acknowledge what is latched, and one that is about to read finds a message. -/
structure LatchInv (w : LatchedSystem) : Prop where
  latched : w.filter.Latched w.intStatus
  found : w.filter.willRead w.intStatus → w.fifo ≠ []

section Refinement

variable {w v : LatchedSystem} {l : LatchedLabel}

theorem latchInv_init (h : LatchedInit w) : LatchInv w := by
  obtain ⟨-, hclear, hidle⟩ := h
  refine ⟨by rw [hidle]; trivial, fun hread => ?_⟩
  rw [hidle] at hread
  exact absurd (hclear.symm.trans hread) nofun

/-- With a message queued nothing is said of the filter. -/
theorem LatchInv.queue (h : LatchInv w) (message : Message) :
    w.filter.Latched (w.intStatus ||| intStatusPending) ∧
      (w.filter.willRead (w.intStatus ||| intStatusPending) → w.fifo ++ [message] ≠ []) :=
  ⟨latched_more _ h.latched, fun _ => List.append_ne_nil_of_right_ne_nil _ (List.cons_ne_nil _ _)⟩

theorem Filter.willRead_latch {f : Filter} {s u : Word} (hu : has u intStatusPending = false)
    (h : f.willRead (s ||| u)) : f.willRead s := by
  have hsame : has (s ||| u) intStatusPending = has s intStatusPending := by
    rw [intStatusPending, has_or (by decide)]
    exact (congrArg _ hu).trans (Bool.or_false _)
  cases f with
  | idle => exact hsame.symm.trans h
  | _ => exact h

theorem latchInv_step (h : LatchInv w) (hs : LatchedStep w l v) : LatchInv v := by
  have hlatched := h.latched
  have hfound := h.found
  cases hs with
  | call => exact ⟨hlatched, hfound⟩
  | @reply n message => exact ⟨(h.queue message).1, (h.queue message).2⟩
  | @other message => exact ⟨(h.queue message).1, (h.queue message).2⟩
  | latch u hu => exact ⟨latched_more u hlatched, fun hread => hfound (Filter.willRead_latch hu hread)⟩
  | enter hidle hp =>
    rw [hidle] at hfound
    exact ⟨hp, fun _ => hfound hp⟩
  | readMessage stack hf =>
    rw [hf] at hlatched
    exact ⟨hlatched, nofun⟩
  | handle ready hf =>
    rw [hf] at hlatched
    exact ⟨hlatched, nofun⟩
  | readStatus hf =>
    rw [hf] at hlatched
    exact ⟨⟨hlatched, hlatched⟩, nofun⟩
  | ack hf =>
    rw [hf] at hlatched
    refine ⟨trivial, fun hread => ?_⟩
    exact absurd ((has_acked (by decide) hlatched.2).symm.trans hread) nofun

theorem latchedStep_visible {r : RtcLabel} (hs : LatchedStep w l v) (hl : l.visible = some r) :
    RtcStep w.abs r v.abs := by
  cases hs with
  | call hs =>
    obtain rfl := Option.some.inj hl
    exact .call hs
  | reply hn hm =>
    obtain rfl := Option.some.inj hl
    have hstep := RtcStep.reply (w := w.abs) hn hm
    simpa [LatchedSystem.abs] using hstep
  | other hm =>
    obtain rfl := Option.some.inj hl
    have hstep := RtcStep.other (w := w.abs) hm
    simpa [LatchedSystem.abs] using hstep
  | @handle message ready hf =>
    obtain rfl := Option.some.inj hl
    have hfifo : w.abs.fifo = message :: w.fifo := by
      rw [LatchedSystem.abs, hf]
      rfl
    exact .filter ready hfifo
  | _ => cases hl

theorem latchedStep_unseen (h : LatchInv w) (hs : LatchedStep w l v) (hl : l.visible = none) : v.abs = w.abs := by
  cases hs with
  | latch => rfl
  | enter hf => simp [LatchedSystem.abs, Filter.taken, hf]
  | readMessage stack hf =>
    have hne : w.fifo ≠ [] := h.found (by rw [hf]; trivial)
    cases hq : w.fifo with
    | nil => exact absurd hq hne
    | cons message rest => simp [LatchedSystem.abs, Filter.taken, readMessage, hf, hq]
  | readStatus hf => simp [LatchedSystem.abs, Filter.taken, hf]
  | ack hf => simp [LatchedSystem.abs, Filter.taken, hf]
  | _ => cases hl

/-- **What the calls see**: every run behind the interrupt is one of a filter that takes the messages as they come. -/
theorem latched_refines {es : List (Edge LatchedSystem LatchedLabel)} (h : Run LatchedInit LatchedStep es w) :
    ∃ es', Run RtcSystemInit RtcStep es' w.abs ∧
      es'.map Edge.label = es.filterMap fun e => e.label.visible := by
  have hinit : ∀ u, LatchedInit u → LatchInv u ∧ RtcSystemInit u.abs := by
    intro u hu
    have hlatch := latchInv_init hu
    obtain ⟨⟨hrtc, hreq, hfifo, hrep⟩, -, hidle⟩ := hu
    exact ⟨hlatch, hrtc, hreq, by rw [LatchedSystem.abs, hidle]; exact hfifo, hrep⟩
  have hstep : ∀ u l u', LatchInv u → True → LatchedStep u l u' → LatchInv u' := fun _ _ _ hi _ => latchInv_step hi
  exact h.simulate hinit hstep (fun _ _ _ _ _ _ => latchedStep_visible) (fun _ _ _ hi _ => latchedStep_unseen hi)
    fun _ _ => trivial

theorem latchInv_run {es : List (Edge LatchedSystem LatchedLabel)} (h : Run LatchedInit LatchedStep es w) :
    LatchInv w ∧ LiveInv w.abs := by
  obtain ⟨es', h', -⟩ := latched_refines h
  exact ⟨h.invariant (I := LatchInv) (fun _ => latchInv_init) fun _ _ _ => latchInv_step, liveInv_run h'⟩

end Refinement

/-! ## There is a step to take -/

/-- A new call begins. -/
def CallLabel.begins : CallLabel → Bool
  | .noSyncer | .create => true
  | _ => false

/-- The step is one of a call that has begun, of the SMC that answers it, or of the filter. -/
def LatchedLabel.internal : LatchedLabel → Bool
  | .call _ l => !l.begins
  | .other _ | .latch _ => false
  | _ => true

/-- Neither the calls that have begun, nor the SMC answering them, nor the filter have a step. -/
def NoStep (w : LatchedSystem) : Prop := ∀ l v, l.internal = true → ¬ LatchedStep w l v

/-- The call has begun and not returned. -/
def Call.pending : Call → Bool
  | .fresh | .returned _ => false
  | _ => true

/-- All calls that have begun have returned, the lock is free and the filter has nothing to do. -/
structure Settled (w : LatchedSystem) : Prop where
  calls : ∀ n, (w.rtc.call n).pending = false
  rtcLock : w.rtc.rtcLock = none
  idle : w.filter = .idle
  clear : has w.intStatus intStatusPending = false

/-- No message in the FIFO is a GetRTC reply. -/
def NoReply (fifo : List Message) : Prop := ∀ m ∈ fifo, m.command ≠ commandGetRTC

/-- A GetRTC reply waits while the filter does not run and its interrupt is not latched. -/
def ReplyStranded (w : LatchedSystem) : Prop :=
  w.filter = .idle ∧ has w.intStatus intStatusPending = false ∧ ¬ NoReply w.fifo

/-- The condition on one step: the acknowledging write finds no GetRTC reply in the FIFO. -/
def AckNoReply (w : LatchedSystem) : LatchedLabel → Prop
  | .ack => NoReply w.fifo
  | _ => True

theorem queued_eq_nil_iff {w : RtcSystem} : queued w = [] ↔ NoReply w.fifo := by
  simp [queued, NoReply, List.filter_eq_nil_iff]

section Enabled

variable {w : LatchedSystem} {n : Syncer}

theorem enabled_call {u : RtcWorld} {l : CallLabel} (hs : CallStep n w.rtc l u) (hl : l.begins = false) :
    ¬ NoStep w := fun hrest => hrest (.call n l) _ (by simp [LatchedLabel.internal, hl]) (.call hs)

/-- The call that holds the lock has a step, or what it waits for has. -/
theorem enabled_holder (h : LiveInv w.abs) (hq : queued w.abs = []) (hn : (w.rtc.call n).holdsLock = true) :
    ¬ NoStep w := by
  have haw : Awaits w.abs n (w.rtc.call n) := h.awaits n
  cases hc : w.rtc.call n with
  | locked => exact enabled_call (.store hc) rfl
  | stored => exact enabled_call (.write true hc) rfl
  | refused => exact enabled_call (.clear hc) rfl
  | cleared => exact enabled_call (.unlockRefused hc) rfl
  | written => exact enabled_call (.wait hc (h.lock.pointer n (congrArg Call.published hc))) rfl
  | waiting s =>
    rw [hc] at haw
    obtain ⟨hasked | harriving | hanswered, -⟩ := haw
    · have hrequests : w.requests = [n] := hasked.requests
      intro hrest
      exact hrest (.reply n rtcReply) _ rfl (.reply (hrequests ▸ List.mem_singleton_self n) rfl)
    · obtain ⟨m, hm, -⟩ := harriving.queued
      rw [hq] at hm
      cases hm
    · obtain rfl := h.lock.target n s hc
      exact enabled_call (.wake hc (h.signalled s (congrArg Call.waits hc) hanswered.present)) rfl
  | woken => exact enabled_call (.check hc) rfl
  | decided =>
    rw [hc] at haw
    exact enabled_call (.copy hc haw.2.1.present) rfl
  | copied => exact enabled_call (.clearPresent hc) rfl
  | taken => exact enabled_call (.unlock hc) rfl
  | _ => rw [hc] at hn; cases hn

theorem enabled_pending (h : LiveInv w.abs) (hq : queued w.abs = []) (hn : (w.rtc.call n).pending = true) :
    ¬ NoStep w := by
  by_cases hlock : (w.rtc.call n).holdsLock = true
  · exact enabled_holder h hq hlock
  · cases hc : w.rtc.call n with
    | created =>
      cases hfree : w.rtc.rtcLock with
      | none => exact enabled_call (.lock hc hfree) rfl
      | some k => exact enabled_holder h hq (h.held k hfree)
    | unlocked => exact enabled_call (.release hc) rfl
    | fresh | returned => rw [hc] at hn; cases hn
    | _ => exact absurd (congrArg Call.holdsLock hc) hlock

/-- A filter that runs has a step. -/
theorem NoStep.idle (h : NoStep w) : w.filter = .idle := by
  cases hf : w.filter with
  | idle => rfl
  | entered => exact absurd (.readMessage .zero hf) (h (.readMessage .zero) _ rfl)
  | received message => exact absurd (.handle true hf) (h (.handle true) _ rfl)
  | handled => exact absurd (.readStatus hf) (h .readStatus _ rfl)
  | statusRead v => exact absurd (.ack hf) (h .ack _ rfl)

theorem NoStep.clear (h : NoStep w) : has w.intStatus intStatusPending = false := by
  by_contra hp
  exact h .enter _ rfl (.enter h.idle (by simpa using hp))

theorem abs_fifo (hf : w.filter = .idle) : w.abs.fifo = w.fifo := by
  rw [LatchedSystem.abs, hf]
  rfl

/-- Nothing is stuck: what rests has settled, unless a reply was stranded. -/
theorem NoStep.settled (h : LiveInv w.abs) (hrest : NoStep w) (hnone : ¬ ReplyStranded w) : Settled w := by
  have hidle := hrest.idle
  have hq : queued w.abs = [] := by
    rw [queued_eq_nil_iff, abs_fifo hidle]
    by_contra hreply
    exact hnone ⟨hidle, hrest.clear, hreply⟩
  have hcalls : ∀ n, (w.rtc.call n).pending = false := by
    intro n
    by_contra hn
    exact enabled_pending h hq (by simpa using hn) hrest
  refine ⟨hcalls, ?_, hidle, hrest.clear⟩
  by_contra hlock
  obtain ⟨k, hk⟩ := Option.ne_none_iff_exists'.mp hlock
  exact enabled_holder h hq (h.held k hk) hrest

theorem Call.not_busy_of_not_pending {c : Call} (h : c.pending = false) : c.busy = false := by
  cases c <;> first | rfl | cases h

/-- What has settled rests, with no reply in the FIFO. -/
theorem Settled.noReply (h : LiveInv w.abs) (hw : Settled w) : NoReply w.fifo := by
  have hcalm := h.calm fun n => Call.not_busy_of_not_pending (hw.calls n)
  rw [← abs_fifo hw.idle]
  exact queued_eq_nil_iff.mp hcalm.queued

theorem CallStep.pending {u u' : RtcWorld} {l : CallLabel} (hs : CallStep n u l u') (hl : l.begins = false) :
    (u.call n).pending = true := by
  cases hs with
  | noSyncer | create => cases hl
  | lock hc | store hc | write _ hc | clear hc | unlockRefused hc | release hc | wait hc | wake hc | check hc | copy hc
  | clearPresent hc | skip hc | unlock hc =>
    rw [hc]
    rfl

theorem Settled.noStep (h : LiveInv w.abs) (hw : Settled w) : NoStep w := by
  intro l v hl hs
  have hidle := hw.idle
  have hrequests : w.requests = [] := (h.calm fun n => Call.not_busy_of_not_pending (hw.calls n)).requests
  cases hs with
  | @call n l u hs =>
    have hpending := hs.pending (by simpa [LatchedLabel.internal] using hl)
    exact absurd ((hw.calls n).symm.trans hpending) nofun
  | reply hn =>
    rw [hrequests] at hn
    cases hn
  | other | latch => cases hl
  | enter _ hp => exact absurd (hw.clear.symm.trans hp) nofun
  | readMessage _ hf | handle _ hf | readStatus hf | ack hf =>
    rw [hidle] at hf
    cases hf

end Enabled

/-! ## Stranded replies -/

section Stranded

variable {w v : LatchedSystem} {l : LatchedLabel}

/-- Nobody but another message helps a reply that was stranded. -/
theorem stranded_step (h : LiveInv w.abs) (hw : ReplyStranded w) (hl : l.internal = true) (hs : LatchedStep w l v) :
    ReplyStranded v := by
  obtain ⟨hidle, hclear, hreply⟩ := hw
  cases hs with
  | call => exact ⟨hidle, hclear, hreply⟩
  | @reply n message hn hm =>
    -- the SMC has answered all that it was asked
    have hq : queued w.abs ≠ [] := by
      rw [Ne, queued_eq_nil_iff, abs_fifo hidle]
      exact hreply
    obtain ⟨k, harriving, -⟩ := h.arriving hq
    have hrequests : w.requests = [] := harriving.requests
    rw [hrequests] at hn
    cases hn
  | other | latch => cases hl
  | enter _ hp =>
    rw [hclear] at hp
    cases hp
  | readMessage _ hf | handle _ hf | readStatus hf | ack hf =>
    rw [hidle] at hf
    cases hf

/-- An acknowledgement strands the replies that it finds. -/
theorem ack_strands_reply (h : LatchInv w) (hc : ¬ AckNoReply w l) (hs : LatchedStep w l v) : ReplyStranded v := by
  cases hs with
  | ack hf =>
    have hlatched := h.latched
    rw [hf] at hlatched
    exact ⟨rfl, has_acked (by decide) hlatched.2, hc⟩
  | _ => exact absurd trivial hc

/-- No other step strands a reply. -/
theorem not_stranded_step (hw : ¬ ReplyStranded w) (hc : AckNoReply w l) (hs : LatchedStep w l v) :
    ¬ ReplyStranded v := by
  rintro ⟨hidle, hclear, hreply⟩
  cases hs with
  | call => exact hw ⟨hidle, hclear, hreply⟩
  | reply | other => exact absurd (hclear.symm.trans (has_latched (by decide))) nofun
  | latch u hu =>
    refine hw ⟨hidle, ?_, hreply⟩
    by_contra hp
    have hset : has w.intStatus intStatusPending = true := by simpa using hp
    exact absurd (hclear.symm.trans (has_latch (by decide) u hset)) nofun
  | ack => exact hreply hc
  | enter | readMessage | handle | readStatus => cases hidle

/-- **Replies along a path** of the calls, the SMC answering them and the filter: at its end none is stranded exactly if
none was at its start and none by an acknowledgement on it. -/
theorem not_stranded_iff {es fs : List (Edge LatchedSystem LatchedLabel)} (h : Run LatchedInit LatchedStep es w)
    (h' : Path LatchedStep w fs v) (hinternal : ∀ e ∈ fs, e.label.internal = true) :
    ¬ ReplyStranded v ↔ ¬ ReplyStranded w ∧ ∀ e ∈ fs, AckNoReply e.pre e.label := by
  induction h' with
  | start hs =>
    subst hs
    simp
  | @step fs u v l hr hs ih =>
    rw [forall_snoc] at hinternal ⊢
    rw [← and_assoc, ← ih hinternal.1]
    obtain ⟨hlatch, hlive⟩ := latchInv_run (h.append hr)
    constructor
    · intro hv
      refine ⟨fun hu => hv (stranded_step hlive hu hinternal.2 hs), ?_⟩
      by_contra hc
      exact hv (ack_strands_reply hlatch hc hs)
    · rintro ⟨hu, hc⟩
      exact not_stranded_step hu hc hs

end Stranded

/-! ## The steps end -/

/-- The steps that are left of a call. The request it sends takes six more, of the SMC and of the filter. -/
def Call.cost : Call → ℕ
  | .created => 15
  | .locked => 14
  | .stored => 13
  | .written => 6
  | .waiting _ => 5
  | .woken => 4
  | .refused _ | .decided _ => 3
  | .cleared _ | .copied _ => 2
  | .unlocked _ | .taken _ => 1
  | .fresh | .returned _ => 0

/-- The steps that are left of the filter. -/
def Filter.cost (intStatus : Word) : Filter → ℕ
  | .idle => if has intStatus intStatusPending then 5 else 0
  | .entered => 4
  | .received _ => 3
  | .handled => 2
  | .statusRead _ => 1

def LatchedSystem.cost (S : Finset Syncer) (w : LatchedSystem) : ℕ :=
  ∑ n ∈ S, (w.rtc.call n).cost + 6 * w.requests.length + w.filter.cost w.intStatus

section Cost

variable {w v : LatchedSystem} {n : Syncer} {S : Finset Syncer}

theorem CallStep.call_eq {u u' : RtcWorld} {l : CallLabel} (hs : CallStep n u l u') :
    u'.call = Function.update u.call n (u'.call n) := by
  funext m
  by_cases hm : m = n
  · rw [hm, Function.update_self]
  · rw [Function.update_of_ne hm, hs.call_of_ne hm]

theorem CallStep.cost_lt {u u' : RtcWorld} {l : CallLabel} (hs : CallStep n u l u') (hl : l.begins = false) :
    (u'.call n).cost + 6 * (requested n l).length < (u.call n).cost := by
  cases hs with
  | noSyncer | create => cases hl
  | write ready hc =>
    rw [hc, RtcWorld.goto_call_self]
    cases ready <;> simp [Call.afterWrite, writeMessage, requested, Call.cost]
  | lock hc | store hc | clear hc | unlockRefused hc | release hc | wait hc | wake hc | check hc | copy hc
  | clearPresent hc | skip hc | unlock hc =>
    simp [RtcWorld.goto, RtcWorld.setSyncer, RtcWorld.modifySyncer, hc, requested, Call.cost]

/-- A message that arrives makes the filter run once more at most. -/
theorem Filter.cost_latch (f : Filter) (s : Word) : f.cost (s ||| intStatusPending) ≤ f.cost s + 5 := by
  cases f with
  | idle =>
    simp only [Filter.cost]
    split <;> omega
  | _ => exact Nat.le_add_right _ 5

/-- The calls that have begun are among `S`. -/
def Within (S : Finset Syncer) (w : LatchedSystem) : Prop := ∀ n, w.rtc.call n ≠ .fresh → n ∈ S

theorem LatchedStep.cost_lt {l : LatchedLabel} (h : LatchInv w) (hS : Within S w) (hl : l.internal = true)
    (hs : LatchedStep w l v) : Within S v ∧ v.cost S < w.cost S := by
  cases hs with
  | @call n l u hs =>
    have hbegins : l.begins = false := by simpa [LatchedLabel.internal] using hl
    have hlt := hs.cost_lt hbegins
    have hn : n ∈ S := hS n fun hfresh => by rw [hfresh] at hlt; exact absurd hlt (Nat.not_lt_zero _)
    refine ⟨fun m hm => ?_, ?_⟩
    · by_cases hmn : m = n
      · exact hmn ▸ hn
      · exact hS m (by rwa [← hs.call_of_ne hmn])
    · have hsum := sum_cost_update Call.cost w.rtc.call hn (u.call n)
      rw [← hs.call_eq] at hsum
      simp only [LatchedSystem.cost, List.length_append]
      omega
  | @reply n message hn hm =>
    have hpos := List.length_pos_of_mem hn
    have hlatch := w.filter.cost_latch w.intStatus
    refine ⟨hS, ?_⟩
    simp only [LatchedSystem.cost, List.length_erase_of_mem hn]
    omega
  | other | latch => cases hl
  | enter hf hp =>
    refine ⟨hS, ?_⟩
    simp [LatchedSystem.cost, Filter.cost, hf, hp]
  | readMessage stack hf =>
    refine ⟨hS, ?_⟩
    simp [LatchedSystem.cost, Filter.cost, hf]
  | @handle message ready hf =>
    obtain ⟨hcall, -, -, -⟩ := filter_keeps ready message w.rtc
    refine ⟨fun m hm => hS m (by rwa [← hcall]), ?_⟩
    simp [LatchedSystem.cost, Filter.cost, hf, hcall]
  | readStatus hf =>
    refine ⟨hS, ?_⟩
    simp [LatchedSystem.cost, Filter.cost, hf]
  | @ack u hf =>
    have hlatched := h.latched
    rw [hf] at hlatched
    have hclear : has (w.intStatus &&& ~~~u) intStatusPending = false := has_acked (by decide) hlatched.2
    refine ⟨hS, ?_⟩
    simp [LatchedSystem.cost, Filter.cost, hf, hclear]

/-- At most one request is with the SMC. -/
theorem requests_le {w : RtcSystem} (h : ReplyInv w) : w.requests.length ≤ 1 := by
  cases hreq : w.requests with
  | nil => exact Nat.zero_le _
  | cons n rest =>
    rw [← hreq, (h.asked (hreq ▸ List.mem_cons_self)).1.requests]
    exact Nat.le_refl _

theorem LatchedSystem.cost_le (h : LiveInv w.abs) (S : Finset Syncer) : w.cost S ≤ 15 * S.card + 11 := by
  have hcall : ∀ c : Call, c.cost ≤ 15 := fun c => by cases c <;> simp [Call.cost]
  have hfilter : ∀ f : Filter, f.cost w.intStatus ≤ 5 := fun f => by
    cases f <;> simp only [Filter.cost] <;> first | omega | split <;> omega
  have hsum : ∑ n ∈ S, (w.rtc.call n).cost ≤ S.card * 15 := by
    simpa using Finset.sum_le_card_nsmul S _ 15 fun n _ => hcall (w.rtc.call n)
  have hreq : w.abs.requests.length ≤ 1 := requests_le h.toReplyInv
  replace hreq : w.requests.length ≤ 1 := hreq
  have hfil := hfilter w.filter
  unfold LatchedSystem.cost
  omega

end Cost

/-! ## No call is left waiting -/

section Waiting

variable {w v : LatchedSystem} {es fs : List (Edge LatchedSystem LatchedLabel)} {S : Finset Syncer}

/-- The steps of the calls that have begun, of the SMC answering them and of the filter are few. -/
theorem internal_length (h : Run LatchedInit LatchedStep es w) (hS : Within S w) (h' : Path LatchedStep w fs v)
    (hinternal : ∀ e ∈ fs, e.label.internal = true) : Within S v ∧ fs.length ≤ 15 * S.card + 11 := by
  obtain ⟨hlatch, hlive⟩ := latchInv_run h
  have hstep : ∀ s l t, (LatchInv s ∧ Within S s) → l.internal = true → LatchedStep s l t →
      (LatchInv t ∧ Within S t) ∧ t.cost S < s.cost S := by
    intro s l t hI hl hs
    have hlt := hs.cost_lt hI.1 hI.2 hl
    exact ⟨⟨latchInv_step hI.1 hs, hlt.1⟩, hlt.2⟩
  obtain ⟨hv, hle⟩ := Run.length_le ⟨hlatch, hS⟩ hstep h' hinternal
  have hcost := LatchedSystem.cost_le hlive S
  exact ⟨hv.2, by omega⟩

theorem settled_of_within (hS : Within S v) (hcalls : ∀ n ∈ S, (v.rtc.call n).pending = false)
    (hlock : v.rtc.rtcLock = none) (hidle : v.filter = .idle) (hclear : has v.intStatus intStatusPending = false) :
    Settled v := by
  refine ⟨fun n => ?_, hlock, hidle, hclear⟩
  by_cases hn : v.rtc.call n = .fresh
  · rw [hn]
    rfl
  · exact hcalls n (hS n hn)

/-- **No call is left waiting, unless its reply is stranded.** The calls that have begun, the SMC answering them and the
filter take a bounded number of steps. When none is left, all these calls have returned, exactly if no GetRTC reply was
stranded at the start and no acknowledging write found one in the FIFO. -/
theorem calls_return (h : Run LatchedInit LatchedStep es w) (hS : Within S w) (h' : Path LatchedStep w fs v)
    (hinternal : ∀ e ∈ fs, e.label.internal = true) :
    fs.length ≤ 15 * S.card + 11 ∧
      (NoStep v → (Settled v ↔ ¬ ReplyStranded w ∧ ∀ e ∈ fs, AckNoReply e.pre e.label)) := by
  obtain ⟨-, hlive⟩ := latchInv_run (h.append h')
  refine ⟨(internal_length h hS h' hinternal).2, fun hrest => ?_⟩
  rw [← not_stranded_iff h h' hinternal]
  exact ⟨fun hv hstranded => hstranded.2.2 (hv.noReply hlive), hrest.settled hlive⟩

theorem forall_mem_pair {P : Syncer → Prop} {m n : Syncer} (hm : P m) (hn : P n) :
    ∀ k ∈ ({m, n} : Finset Syncer), P k := by simp [hm, hn]

/-- Two calls at once: one waits for the lock while the other is answered, and is then refused. -/
theorem calls_return_two : ∃ es w fs v, Run LatchedInit LatchedStep es w ∧ Path LatchedStep w fs v ∧
    w.rtc.call 0 = .created ∧ w.rtc.rtcLock = some 1 ∧ v.rtc.call 1 = .returned .success ∧
      v.rtc.call 0 = .returned (.write .timeout) ∧ NoStep v ∧
        fs.length ≤ 41 ∧ (Settled v ↔ ¬ ReplyStranded w ∧ ∀ e ∈ fs, AckNoReply e.pre e.label) := by
  have h0 : Run LatchedInit LatchedStep [] ⟨⟨newRtc, [], [], []⟩, 0, .idle⟩ :=
    .start ⟨⟨newRtc_init, rfl, rfl, rfl⟩, rfl, rfl⟩
  have h2 := (h0.step (.call (n := 0) (.create rfl))).step (.call (n := 1) (.create rfl))
  have h := h2.step (.call (n := 1) (.lock rfl rfl))
  have p2 := (h.here.step (.call (n := 1) (.store rfl))).step (.call (n := 1) (.write true rfl))
  have p4 := (p2.step (.call (n := 1) (.wait rfl rfl))).step (.reply (n := 1) (List.mem_singleton_self _)
    (rfl : rtcReply.command = commandGetRTC))
  have p6 := (p4.step (.enter rfl rfl)).step (.readMessage .zero rfl)
  have p8 := (p6.step (.handle true rfl)).step (.readStatus rfl)
  have p10 := (p8.step (.ack rfl)).step (.call (n := 1) (.wake rfl (by decide)))
  have p12 := (p10.step (.call (n := 1) (.check rfl))).step (.call (n := 1) (.copy rfl rfl))
  have p14 := (p12.step (.call (n := 1) (.clearPresent rfl))).step (.call (n := 1) (.unlock rfl))
  have p16 := (p14.step (.call (n := 0) (.lock rfl rfl))).step (.call (n := 0) (.store rfl))
  have p18 := (p16.step (.call (n := 0) (.write false rfl))).step (.call (n := 0) (.clear rfl))
  have p := (p18.step (.call (n := 0) (.unlockRefused rfl))).step (.call (n := 0) (.release rfl))
  have hreturn := fun hS hinternal =>
    And.intro (internal_length (S := {0, 1}) h hS p hinternal).1 (calls_return h hS p hinternal)
  obtain ⟨hwithin, hle, hiff⟩ := hreturn (fun m hm => by
    by_contra hmem
    obtain ⟨h0, h1⟩ : m ≠ 0 ∧ m ≠ 1 := by simpa using hmem
    simp [RtcWorld.goto, Function.update_of_ne h0, Function.update_of_ne h1, newRtc] at hm)
    (by simp [LatchedLabel.internal, CallLabel.begins])
  have hrest := Settled.noStep (latchInv_run (h.append p)).2
    (settled_of_within hwithin (forall_mem_pair rfl rfl) rfl rfl rfl)
  exact ⟨_, _, _, _, h, p, rfl, rfl, rfl, rfl, hrest, hle, hiff hrest⟩

end Waiting

end Osx360.Smc
