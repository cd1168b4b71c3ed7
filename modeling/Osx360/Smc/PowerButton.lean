import Mathlib.Algebra.BigOperators.Group.Finset.Basic
import Mathlib.Algebra.BigOperators.Ring.Finset
import Mathlib.Algebra.Order.BigOperators.Group.Finset
import Osx360.Smc.FifoLock

/-!
# The power button

`filterInterrupt` and `handleInterrupt` from `XenonSMC_Private.cpp`, statement by statement. The filter runs in the
primary interrupt context of any CPU, leaves a flag for an event and signals the event source; the work loop runs
`handleInterrupt`, which tests and clears the flags one after the other, and filters run in between. The event source
counts signals, and runs its action while there are some that came after it last looked.

- a request to power off is cancelled once it is seen and then answered: when the driver is at rest, every call of
  `cancelPowerOff` and every power button event is followed by a call of `rebootPowerOff`, there are no more of these
  calls than events, each one sends the reboot or times out, and no flag is left (`button_served`);
- the driver does come to rest: after the last message it takes a bounded number of steps, and it has a step until it
  is at rest (`button_rests`).
-/

set_option autoImplicit false

namespace Osx360.Smc

open Osx360.Lib

universe u

def powerPowerOff : Byte := 0x01
def powerRebootSoft : Byte := 0x31

def rebootPowerOff (ready reboot : Bool) : IOReturn × List Message :=
  writeMessage ready (.setPower (if reboot then powerReboot else powerPowerOff) (if reboot then powerRebootSoft else 0))

/-! ## Flags -/

/-- The events that are left to the work loop, in the order in which `handleInterrupt` tests for them. -/
inductive Button
  | power
  | sync
  | tilt
  deriving DecidableEq

/-- `_powerButtonPressed`, `_syncButtonPressed` and `_tiltStatePresent`. -/
def Driver.flag (d : Driver) : Button → Bool
  | .power => d.powerButtonPressed
  | .sync => d.syncButtonPressed
  | .tilt => d.tiltStatePresent

def Driver.clear (d : Driver) : Button → Driver
  | .power => { d with powerButtonPressed := false }
  | .sync => { d with syncButtonPressed := false }
  | .tilt => { d with tiltStatePresent := false }

section Flags

variable {ready : Bool} {m : Message} {d : Driver} {b b' : Button}

@[simp] theorem flag_clear_same : (d.clear b).flag b = false := by cases b <;> rfl

theorem flag_clear_ne (h : b' ≠ b) : (d.clear b).flag b' = d.flag b' := by
  cases b <;> cases b' <;> first | rfl | exact absurd rfl h

/-- The power button leaves its flag and asks for the secondary handler. -/
theorem filterMessage_cancels (h : m.cancels) : (filterMessage ready m d).driver.flag .power = true ∧
    (filterMessage ready m d).needSecondary = true := by
  rw [filterMessage, if_pos h.1, if_pos h.2]
  exact ⟨rfl, rfl⟩

/-- Nothing else leaves that flag. -/
theorem filterMessage_not_cancels (h : ¬ m.cancels) :
    (filterMessage ready m d).driver.flag .power = d.flag .power := by
  unfold filterMessage
  by_cases hasync : m.command = commandAsync
  · rw [if_pos hasync, if_neg fun hpower => h ⟨hasync, hpower⟩]
    split_ifs <;> rfl
  · rw [if_neg hasync]
    split_ifs <;> rfl

/-- A flag is left only together with a request for the secondary handler. -/
theorem filterMessage_flag (h : (filterMessage ready m d).driver.flag b = true) :
    d.flag b = true ∨ (filterMessage ready m d).needSecondary = true := by
  unfold filterMessage at h ⊢
  split_ifs at h ⊢ <;> first | exact Or.inr rfl | (left; cases b <;> exact h)

/-- No message clears a flag. -/
theorem filterMessage_keeps (h : d.flag b = true) : (filterMessage ready m d).driver.flag b = true := by
  unfold filterMessage
  split_ifs <;> cases b <;> first | rfl | exact h

end Flags

/-! ## The event source -/

/-- The counts of an `IOInterruptEventSource`; `cacheProdCount` is what its action was last called with. -/
structure EventSource where
  producerCount : ℕ
  consumerCount : ℕ
  cacheProdCount : ℕ

def EventSource.signalInterrupt (s : EventSource) : EventSource := { s with producerCount := s.producerCount + 1 }

def EventSource.check (s : EventSource) : EventSource := { s with cacheProdCount := s.producerCount }

def EventSource.finish (s : EventSource) : EventSource := { s with consumerCount := s.cacheProdCount }

/-- There are signals that the action has not been called with. -/
def EventSource.unseen (s : EventSource) : Prop := s.cacheProdCount < s.producerCount

/-! ## The system -/

/-- Where a filter is in `filterInterrupt`. -/
inductive ButtonFilter
  | idle
  | switch (message : Message)
  | cancelled (message : Message)
  | handled (needSecondary : Bool)

/-- Where the work loop is in `handleInterrupt`. -/
inductive Work
  | idle
  | test (b : Button)
  | clear (b : Button)
  | reboot
  | finish
  deriving DecidableEq

/-- What `handleInterrupt` does when it is done with a flag. -/
def Button.next : Button → Work
  | .power => .test .sync
  | .sync => .test .tilt
  | .tilt => .finish

@[simp] theorem Button.next_ne_idle (b : Button) : b.next ≠ .idle := by cases b <;> exact Work.noConfusion

@[simp] theorem Button.next_ne_reboot (b : Button) : b.next ≠ .reboot := by cases b <;> exact Work.noConfusion

@[simp] theorem Button.next_ne_clear (b b' : Button) : b.next ≠ .clear b' := by cases b <;> exact Work.noConfusion

/-- The calls of `cancelPowerOff` by the filter and of `rebootPowerOff` by `handleInterrupt` and by `peHaltRestart`,
with what they returned and sent, and the power button events that were decoded. -/
inductive PowerEvent
  | cancelled (result : IOReturn × List Message)
  | pressed
  | rebooted (result : IOReturn × List Message)
  | halted (result : IOReturn × List Message)

structure ButtonWorld (ι : Type u) where
  driver : Driver
  source : EventSource
  filters : ι → ButtonFilter
  work : Work
  history : List PowerEvent

inductive ButtonLabel (ι : Type u)
  | receive (c : ι) (m : Message)
  | halt (reboot ready : Bool)
  | cancel (c : ι) (ready : Bool)
  | switch (c : ι) (ready : Bool)
  | ack (c : ι)
  | check
  | test
  | clear
  | reboot (ready : Bool)
  | finish

section System

variable {ι : Type u} [DecidableEq ι]

/-- The steps. A message may be anything, since `message` is not initialised where there is none to read; `halt` is a
call of `peHaltRestart` by the rest of the system. -/
inductive ButtonStep : ButtonWorld ι → ButtonLabel ι → ButtonWorld ι → Prop
  | receive {w : ButtonWorld ι} {c : ι} {m : Message} : w.filters c = .idle →
      ButtonStep w (.receive c m) { w with filters := Function.update w.filters c (.switch m) }
  | halt {w : ButtonWorld ι} {reboot ready : Bool} :
      ButtonStep w (.halt reboot ready) { w with history := w.history ++ [.halted (rebootPowerOff ready reboot)] }
  | cancel {w : ButtonWorld ι} {c : ι} {m : Message} {r : Bool} : w.filters c = .switch m → m.cancels →
      ButtonStep w (.cancel c r) { w with
        filters := Function.update w.filters c (.cancelled m)
        history := w.history ++ [.cancelled (cancelPowerOff r)] }
  | press {w : ButtonWorld ι} {c : ι} {m : Message} {r : Bool} : w.filters c = .cancelled m →
      ButtonStep w (.switch c r) { w with
        driver := (filterMessage r m w.driver).driver
        filters := Function.update w.filters c (.handled (filterMessage r m w.driver).needSecondary)
        history := w.history ++ [.pressed] }
  | other {w : ButtonWorld ι} {c : ι} {m : Message} {r : Bool} : w.filters c = .switch m → ¬ m.cancels →
      ButtonStep w (.switch c r) { w with
        driver := (filterMessage r m w.driver).driver
        filters := Function.update w.filters c (.handled (filterMessage r m w.driver).needSecondary) }
  | ack {w : ButtonWorld ι} {c : ι} {needSecondary : Bool} : w.filters c = .handled needSecondary →
      ButtonStep w (.ack c) { w with
        source := if needSecondary then w.source.signalInterrupt else w.source
        filters := Function.update w.filters c .idle }
  | check {w : ButtonWorld ι} : w.work = .idle → w.source.consumerCount < w.source.producerCount →
      ButtonStep w .check { w with source := w.source.check, work := .test .power }
  | test {w : ButtonWorld ι} {b : Button} : w.work = .test b →
      ButtonStep w .test { w with work := if w.driver.flag b then .clear b else b.next }
  | clear {w : ButtonWorld ι} {b : Button} : w.work = .clear b →
      ButtonStep w .clear { w with
        driver := w.driver.clear b
        work := if b = .power then .reboot else b.next }
  | reboot {w : ButtonWorld ι} {r : Bool} : w.work = .reboot →
      ButtonStep w (.reboot r) { w with
        work := Button.power.next
        history := w.history ++ [.rebooted (rebootPowerOff r true)] }
  | finish {w : ButtonWorld ι} : w.work = .finish →
      ButtonStep w .finish { w with source := w.source.finish, work := .idle }

/-- `start` has cleared the flags. -/
def ButtonInit (w : ButtonWorld ι) : Prop :=
  (∀ b, w.driver.flag b = false) ∧ w.source = ⟨0, 0, 0⟩ ∧ (∀ c, w.filters c = .idle) ∧ w.work = .idle ∧ w.history = []

/-- No filter and no handler runs, and none is asked for. -/
def AtRest (w : ButtonWorld ι) : Prop :=
  (∀ c, w.filters c = .idle) ∧ w.work = .idle ∧ ¬ w.source.consumerCount < w.source.producerCount

end System

/-! ## What is owed -/

/-- A call of `cancelPowerOff`, or a power button event. -/
def PowerEvent.request : PowerEvent → Bool
  | .cancelled _ | .pressed => true
  | _ => false

/-- A call of `rebootPowerOff` by `handleInterrupt`, whether the SMC took its message or not. -/
def PowerEvent.callsReboot : PowerEvent → Bool
  | .rebooted _ => true
  | _ => false

def PowerEvent.isEvent : PowerEvent → Bool
  | .pressed => true
  | _ => false

/-- Every request is followed by a call of `rebootPowerOff`. -/
def Served (h : List PowerEvent) : Prop :=
  ∀ l e r, h = l ++ e :: r → e.request = true → ∃ e' ∈ r, e'.callsReboot = true

section Served

variable {h : List PowerEvent} {e : PowerEvent}

theorem served_nil : Served [] := fun l _ _ heq => absurd heq (by simp)

/-- An event of a longer history is its last one, or one of the history before. -/
theorem snoc_split {l r : List PowerEvent} {e' : PowerEvent} (heq : h ++ [e] = l ++ e' :: r) :
    (r = [] ∧ e' = e) ∨ ∃ r', r = r' ++ [e] ∧ h = l ++ e' :: r' := by
  rcases List.eq_nil_or_concat r with rfl | ⟨r', x, rfl⟩
  · obtain ⟨-, hlast⟩ := List.append_inj' heq rfl
    exact Or.inl ⟨rfl, (List.singleton_inj.mp hlast).symm⟩
  · rw [List.concat_eq_append, ← List.cons_append, ← List.append_assoc] at heq
    obtain ⟨hinit, hlast⟩ := List.append_inj' heq rfl
    obtain rfl := List.singleton_inj.mp hlast
    exact Or.inr ⟨r', List.concat_eq_append, hinit⟩

/-- Such a call serves every request before it. -/
theorem served_reboot (he : e.callsReboot = true) : Served (h ++ [e]) := by
  intro l e' r heq hreq
  rcases snoc_split heq with ⟨-, rfl⟩ | ⟨r', rfl, -⟩
  · cases e' with
    | rebooted => exact absurd hreq Bool.false_ne_true
    | _ => exact absurd he Bool.false_ne_true
  · exact ⟨e, by simp, he⟩

/-- What is no request leaves every request served. -/
theorem served_snoc (hs : Served h) (he : e.request = false) : Served (h ++ [e]) := by
  intro l e' r heq hreq
  rcases snoc_split heq with ⟨-, rfl⟩ | ⟨r', rfl, hinit⟩
  · rw [he] at hreq
    exact absurd hreq Bool.false_ne_true
  · obtain ⟨x, hmem, hx⟩ := hs l e' r' hinit hreq
    exact ⟨x, List.mem_append_left _ hmem, hx⟩

end Served

/-- The work loop will still test the flag, or is about to clear it. -/
def Work.ahead : Work → Button → Prop
  | .test .power, _ | .clear .power, _ | .test .sync, .sync | .clear .sync, .sync => True
  | .reboot, .sync | .reboot, .tilt | .test .sync, .tilt | .clear .sync, .tilt => True
  | .test .tilt, .tilt | .clear .tilt, .tilt => True
  | _, _ => False

section Invariant

variable {ι : Type u}

/-- Someone will look at the flag: a filter that has yet to signal, the work loop when it next looks, or the handler. -/
def Noticed (w : ButtonWorld ι) (b : Button) : Prop :=
  (∃ c, w.filters c = .handled true) ∨ w.source.unseen ∨ w.work.ahead b

/-- Each call of `rebootPowerOff` by `handleInterrupt` sends the reboot and succeeds, or times out and sends nothing. -/
def RebootsSent (h : List PowerEvent) : Prop :=
  ∀ result, .rebooted result ∈ h →
    result = (.success, [.setPower powerReboot powerRebootSoft]) ∨ result = (.timeout, [])

structure ButtonInv (w : ButtonWorld ι) : Prop where
  noticed : ∀ b, w.driver.flag b = true → Noticed w b
  owed : Served w.history ∨ (∃ c m, w.filters c = .cancelled m) ∨ w.driver.flag .power = true ∨ w.work = .reboot
  cancels : ∀ c m, w.filters c = .cancelled m → m.cancels
  clearing : ∀ b, w.work = .clear b → w.driver.flag b = true
  reboots : w.history.countP PowerEvent.callsReboot + (if w.work = .reboot then 1 else 0) +
    (w.driver.flag .power).toNat ≤ w.history.countP PowerEvent.isEvent
  sent : RebootsSent w.history
  consumed : w.source.cacheProdCount ≤ w.source.producerCount ∧
    (w.work = .idle → w.source.consumerCount = w.source.cacheProdCount)

variable [DecidableEq ι] {w w' : ButtonWorld ι} {l : ButtonLabel ι} {b b' : Button}

omit [DecidableEq ι] in
theorem inv_init (h : ButtonInit w) : ButtonInv w := by
  obtain ⟨hflag, hsource, hfilters, hwork, hhistory⟩ := h
  exact {
    noticed := fun b hb => absurd hb (by simp [hflag b])
    owed := Or.inl (hhistory ▸ served_nil)
    cancels := fun c m hc => by simp [hfilters c] at hc
    clearing := fun b hb => by simp [hwork] at hb
    reboots := by simp [hhistory, hwork, hflag]
    sent := by simp [RebootsSent, hhistory]
    consumed := by simp [hsource] }

/-! ## Flags are noticed -/

theorem ahead_clear (h : (Work.test b').ahead b) : (Work.clear b').ahead b := by
  cases b' <;> cases b <;> exact h

theorem ahead_next (h : (Work.clear b').ahead b) (hne : b ≠ b') : b'.next.ahead b := by
  cases b' <;> cases b <;> trivial

theorem ahead_test_next (h : (Work.test b').ahead b) (hne : b ≠ b') : b'.next.ahead b :=
  ahead_next (ahead_clear h) hne

theorem ahead_reboot (h : Work.reboot.ahead b) : Button.power.next.ahead b := by
  cases b <;> trivial

theorem ahead_power : (Work.test .power).ahead b := by cases b <;> trivial

/-- A filter that does not have to signal may move on. -/
theorem handled_update {filters : ι → ButtonFilter} {c : ι} {f : ButtonFilter} (hc : filters c ≠ .handled true)
    (h : ∃ d, filters d = .handled true) : ∃ d, Function.update filters c f d = .handled true := by
  obtain ⟨d, hd⟩ := h
  have hne : d ≠ c := fun heq => hc (heq ▸ hd)
  exact ⟨d, by rw [Function.update_of_ne hne, hd]⟩

theorem noticed_step (hI : ButtonInv w) (hs : ButtonStep w l w') : ∀ b, w'.driver.flag b = true → Noticed w' b := by
  intro b hb
  cases hs with
  | receive hc => exact (hI.noticed b hb).imp_left (handled_update (by simp [hc]))
  | halt => exact hI.noticed b hb
  | cancel hc => exact (hI.noticed b hb).imp_left (handled_update (by simp [hc]))
  | @press c m ready hc =>
    rcases filterMessage_flag hb with hold | hneed
    · exact (hI.noticed b hold).imp_left (handled_update (by simp [hc]))
    · exact Or.inl ⟨c, by simp [hneed]⟩
  | @other c m ready hc =>
    rcases filterMessage_flag hb with hold | hneed
    · exact (hI.noticed b hold).imp_left (handled_update (by simp [hc]))
    · exact Or.inl ⟨c, by simp [hneed]⟩
  | @ack c needSecondary hc =>
    cases needSecondary with
    | true => exact Or.inr (Or.inl (Nat.lt_succ_of_le hI.consumed.1))
    | false => exact (hI.noticed b hb).imp_left (handled_update (by simp [hc]))
  | check => exact Or.inr (Or.inr ahead_power)
  | @test b' hw =>
    refine (hI.noticed b hb).imp_right (Or.imp_right fun hahead => ?_)
    rw [hw] at hahead
    by_cases hflag : w.driver.flag b' = true
    · simpa [hflag] using ahead_clear hahead
    · have hne : b ≠ b' := fun heq => hflag (heq ▸ hb)
      simpa [hflag] using ahead_test_next hahead hne
  | @clear b' hw =>
    have hne : b ≠ b' := by
      rintro rfl
      simp at hb
    have hold : w.driver.flag b = true := by rwa [flag_clear_ne hne] at hb
    refine (hI.noticed b hold).imp_right (Or.imp_right fun hahead => ?_)
    rw [hw] at hahead
    cases b' with
    | power => cases b <;> trivial
    | _ => exact ahead_next hahead hne
  | reboot hw =>
    refine (hI.noticed b hb).imp_right (Or.imp_right fun hahead => ?_)
    rw [hw] at hahead
    exact ahead_reboot hahead
  | finish hw =>
    refine (hI.noticed b hb).imp_right (Or.imp_right fun hahead => ?_)
    rw [hw] at hahead
    exact hahead.elim

/-! ## Requests are served -/

/-- A filter that has not cancelled a power off may move on. -/
theorem cancelled_update {filters : ι → ButtonFilter} {c : ι} {f : ButtonFilter} (hc : ∀ m, filters c ≠ .cancelled m)
    (h : ∃ d m, filters d = .cancelled m) : ∃ d m, Function.update filters c f d = .cancelled m := by
  obtain ⟨d, m, hd⟩ := h
  have hne : d ≠ c := fun heq => hc m (heq ▸ hd)
  exact ⟨d, m, by rw [Function.update_of_ne hne, hd]⟩

theorem owed_step (hI : ButtonInv w) (hs : ButtonStep w l w') : Served w'.history ∨
    (∃ c m, w'.filters c = .cancelled m) ∨ w'.driver.flag .power = true ∨ w'.work = .reboot := by
  cases hs with
  | receive hc => exact hI.owed.imp_right (Or.imp_left (cancelled_update (by simp [hc])))
  | halt => exact hI.owed.imp_left fun hs => served_snoc hs rfl
  | @cancel c m ready hc => exact Or.inr (Or.inl ⟨c, m, by simp⟩)
  | press hc => exact Or.inr (Or.inr (Or.inl (filterMessage_cancels (hI.cancels _ _ hc)).1))
  | other hc hnot =>
    refine hI.owed.imp_right (Or.imp (cancelled_update (by simp [hc])) (Or.imp_left fun hflag => ?_))
    rw [filterMessage_not_cancels hnot]
    exact hflag
  | ack hc => exact hI.owed.imp_right (Or.imp_left (cancelled_update (by simp [hc])))
  | check hw => exact hI.owed.imp_right (Or.imp_right (Or.imp_right fun hr => by simp [hw] at hr))
  | test hw => exact hI.owed.imp_right (Or.imp_right (Or.imp_right fun hr => by simp [hw] at hr))
  | @clear b hw =>
    cases b with
    | power => exact Or.inr (Or.inr (Or.inr rfl))
    | _ => exact hI.owed.imp_right (Or.imp_right (Or.imp_right fun hr => by simp [hw] at hr))
  | reboot => exact Or.inl (served_reboot rfl)
  | finish hw => exact hI.owed.imp_right (Or.imp_right (Or.imp_right fun hr => by simp [hw] at hr))

theorem cancels_step (hI : ButtonInv w) (hs : ButtonStep w l w') :
    ∀ c m, w'.filters c = .cancelled m → m.cancels := by
  have hupdate : ∀ {c : ι} {f : ButtonFilter}, (∀ m, f = .cancelled m → m.cancels) →
      ∀ d m, Function.update w.filters c f d = .cancelled m → m.cancels := by
    intro c f hf d m hd
    by_cases hdc : d = c
    · rw [hdc, Function.update_self] at hd
      exact hf m hd
    · rw [Function.update_of_ne hdc] at hd
      exact hI.cancels d m hd
  cases hs with
  | receive | ack => exact hupdate fun m hm => ButtonFilter.noConfusion hm
  | cancel hc hcan => exact hupdate fun m hm => ButtonFilter.cancelled.inj hm ▸ hcan
  | press | other => exact hupdate fun m hm => ButtonFilter.noConfusion hm
  | _ => exact hI.cancels

/-- Only the work loop clears a flag. -/
theorem clearing_step (hI : ButtonInv w) (hs : ButtonStep w l w') :
    ∀ b, w'.work = .clear b → w'.driver.flag b = true := by
  intro b hb
  cases hs with
  | press | other => exact filterMessage_keeps (hI.clearing b hb)
  | check | finish => exact Work.noConfusion hb
  | @test b' hw =>
    dsimp only at hb
    split_ifs at hb with hflag
    · exact Work.clear.inj hb ▸ hflag
    · exact absurd hb (by simp)
  | @clear b' hw =>
    dsimp only at hb
    split_ifs at hb
    exact absurd hb (by simp)
  | reboot => exact absurd hb (by simp)
  | _ => exact hI.clearing b hb

/-- A press may have raised the flag, or found it raised. -/
theorem reboots_step (hI : ButtonInv w) (hs : ButtonStep w l w') :
    w'.history.countP PowerEvent.callsReboot + (if w'.work = .reboot then 1 else 0) + (w'.driver.flag .power).toNat ≤
      w'.history.countP PowerEvent.isEvent := by
  have hcount := hI.reboots
  cases hs with
  | receive | ack => exact hcount
  | halt | cancel => simpa [PowerEvent.callsReboot, PowerEvent.isEvent] using hcount
  | @press c m ready hc =>
    have hle := Bool.toNat_le ((filterMessage ready m w.driver).driver.flag .power)
    simp [PowerEvent.callsReboot, PowerEvent.isEvent]
    omega
  | other _ hnot =>
    simp only [filterMessage_not_cancels hnot]
    exact hcount
  | check hw | finish hw => simpa [hw] using hcount
  | @test b hw =>
    have hne : (if w.driver.flag b then Work.clear b else b.next) ≠ .reboot := by
      split_ifs
      · exact Work.noConfusion
      · exact b.next_ne_reboot
    simpa [hw, hne] using hcount
  | @clear b hw =>
    by_cases hb : b = .power
    · subst hb
      simpa [hw, hI.clearing _ hw] using hcount
    · simpa [hw, hb, flag_clear_ne (Ne.symm hb)] using hcount
  | reboot hw => simpa [hw, PowerEvent.callsReboot, PowerEvent.isEvent, Nat.add_right_comm] using hcount

theorem sent_snoc {h : List PowerEvent} {e : PowerEvent} (hh : RebootsSent h) (he : ∀ result, e ≠ .rebooted result) :
    RebootsSent (h ++ [e]) := by
  intro result hmem
  rcases List.mem_append.mp hmem with hold | hnew
  · exact hh result hold
  · exact absurd (List.mem_singleton.mp hnew).symm (he result)

theorem sent_step (hI : ButtonInv w) (hs : ButtonStep w l w') : RebootsSent w'.history := by
  cases hs with
  | halt | cancel | press => exact sent_snoc hI.sent fun _ => PowerEvent.noConfusion
  | @reboot r hw =>
    intro result hmem
    rcases List.mem_append.mp hmem with hold | hnew
    · exact hI.sent result hold
    · obtain rfl := PowerEvent.rebooted.inj (List.mem_singleton.mp hnew)
      cases r with
      | true => exact Or.inl rfl
      | false => exact Or.inr rfl
  | _ => exact hI.sent

theorem consumed_step (hI : ButtonInv w) (hs : ButtonStep w l w') :
    w'.source.cacheProdCount ≤ w'.source.producerCount ∧
      (w'.work = .idle → w'.source.consumerCount = w'.source.cacheProdCount) := by
  obtain ⟨hle, hidle⟩ := hI.consumed
  cases hs with
  | @ack c needSecondary =>
    cases needSecondary with
    | true => exact ⟨Nat.le_succ_of_le hle, hidle⟩
    | false => exact ⟨hle, hidle⟩
  | check => exact ⟨Nat.le_refl _, Work.noConfusion⟩
  | test | clear =>
    refine ⟨hle, fun hnew => ?_⟩
    dsimp only at hnew
    split_ifs at hnew
    exact absurd hnew (by simp)
  | reboot => exact ⟨hle, Work.noConfusion⟩
  | finish => exact ⟨hle, fun _ => rfl⟩
  | _ => exact ⟨hle, hidle⟩

theorem inv_step (hI : ButtonInv w) (hs : ButtonStep w l w') : ButtonInv w' where
  noticed := noticed_step hI hs
  owed := owed_step hI hs
  cancels := cancels_step hI hs
  clearing := clearing_step hI hs
  reboots := reboots_step hI hs
  sent := sent_step hI hs
  consumed := consumed_step hI hs

omit [DecidableEq ι] in
/-- At rest nothing is left that could still notice a flag. -/
theorem served_of_rest (hI : ButtonInv w) (h : AtRest w) : (∀ b, w.driver.flag b = false) ∧ Served w.history := by
  obtain ⟨hfilters, hwork, hconsumed⟩ := h
  have hflags : ∀ b, w.driver.flag b = false := by
    intro b
    refine Bool.eq_false_of_not_eq_true fun hb => ?_
    rcases hI.noticed b hb with ⟨c, hc⟩ | hunseen | hahead
    · simp [hfilters c] at hc
    · rw [EventSource.unseen, ← hI.consumed.2 hwork] at hunseen
      exact hconsumed hunseen
    · rw [hwork] at hahead
      exact hahead
  refine ⟨hflags, ?_⟩
  rcases hI.owed with hs | ⟨c, m, hc⟩ | hflag | hr
  · exact hs
  · simp [hfilters c] at hc
  · simp [hflags] at hflag
  · simp [hwork] at hr

end Invariant

/-! ## Coming to rest -/

/-- The steps that a filter still takes, with those of the handler it may ask for. -/
def ButtonFilter.cost : ButtonFilter → ℕ
  | .idle => 0
  | .switch _ => 13
  | .cancelled _ => 12
  | .handled _ => 11

/-- The steps that the handler still takes. -/
def Work.cost : Work → ℕ
  | .idle => 0
  | .test .power => 9
  | .clear .power => 8
  | .reboot => 7
  | .test .sync => 6
  | .clear .sync => 5
  | .test .tilt => 4
  | .clear .tilt => 3
  | .finish => 2

instance (s : EventSource) : Decidable s.unseen := Nat.decLt _ _

/-- The step is one of the driver, not the arrival of a message or a call of the rest of the system. -/
def ButtonLabel.internal {ι : Type u} : ButtonLabel ι → Bool
  | .receive _ _ | .halt _ _ => false
  | _ => true

section Rest

variable {ι : Type u} [Fintype ι]

/-- A signal that has not been seen costs a run of the handler. -/
def ButtonWorld.cost (w : ButtonWorld ι) : ℕ :=
  ∑ c, (w.filters c).cost + w.work.cost + if w.source.unseen then 10 else 0

theorem cost_le (w : ButtonWorld ι) : w.cost ≤ 13 * Fintype.card ι + 19 := by
  have hfilter : ∀ f : ButtonFilter, f.cost ≤ 13 := fun f => by cases f <;> simp [ButtonFilter.cost]
  have hwork : w.work.cost ≤ 9 := by
    cases w.work with
    | test b | clear b => cases b <;> simp [Work.cost]
    | _ => simp [Work.cost]
  have hsum : ∑ c, (w.filters c).cost ≤ Fintype.card ι * 13 := by
    simpa using Finset.sum_le_card_nsmul Finset.univ _ 13 fun c _ => hfilter (w.filters c)
  unfold ButtonWorld.cost
  split_ifs <;> omega

variable [DecidableEq ι] {w w' : ButtonWorld ι} {l : ButtonLabel ι}

/-- A filter that moves on lowers the cost by what it has less to do, and may raise it by a run of the handler. -/
theorem cost_filter {c : ι} {f : ButtonFilter} {unseen unseen' : Prop} [Decidable unseen] [Decidable unseen']
    (h : f.cost + (if unseen' then 10 else 0) < (w.filters c).cost + if unseen then 10 else 0) :
    ∑ d, (Function.update w.filters c f d).cost + w.work.cost + (if unseen' then 10 else 0) <
      ∑ d, (w.filters d).cost + w.work.cost + if unseen then 10 else 0 := by
  have hsum := sum_cost_update ButtonFilter.cost w.filters (Finset.mem_univ c) f
  omega

theorem cost_step (hI : ButtonInv w) (hs : ButtonStep w l w') (hl : l.internal = true) : w'.cost < w.cost := by
  cases hs with
  | receive | halt => exact absurd hl Bool.false_ne_true
  | cancel hc => exact cost_filter (by simp [hc, ButtonFilter.cost])
  | press hc => exact cost_filter (by simp [hc, ButtonFilter.cost])
  | other hc => exact cost_filter (by simp [hc, ButtonFilter.cost])
  | ack hc =>
    refine cost_filter ?_
    rw [hc]
    split_ifs <;> simp [ButtonFilter.cost]
  | check hw hlt =>
    have hunseen : w.source.unseen := by
      rw [EventSource.unseen, ← hI.consumed.2 hw]
      exact hlt
    have hseen : ¬ w.source.check.unseen := Nat.lt_irrefl _
    simp [ButtonWorld.cost, hw, hunseen, hseen, Work.cost]
  | @test b hw =>
    have hcost : (if w.driver.flag b then Work.clear b else b.next).cost < w.work.cost := by
      rw [hw]
      split_ifs <;> cases b <;> simp [Work.cost, Button.next]
    simp only [ButtonWorld.cost]
    omega
  | @clear b hw =>
    have hcost : (if b = .power then Work.reboot else b.next).cost < w.work.cost := by
      rw [hw]
      cases b <;> simp [Work.cost, Button.next]
    simp only [ButtonWorld.cost]
    omega
  | reboot hw =>
    have hcost : Button.power.next.cost < w.work.cost := by
      rw [hw]
      simp [Work.cost, Button.next]
    simp only [ButtonWorld.cost]
    omega
  | finish hw =>
    have hsame : w.source.finish.unseen ↔ w.source.unseen := Iff.rfl
    simp [ButtonWorld.cost, hw, hsame, Work.cost]

omit [Fintype ι] in
/-- Before it is at rest the driver has a step. -/
theorem internal_enabled (h : ¬ AtRest w) : ∃ l w', l.internal = true ∧ ButtonStep w l w' := by
  by_cases hfilters : ∀ c, w.filters c = .idle
  · by_cases hwork : w.work = .idle
    · have hlt : w.source.consumerCount < w.source.producerCount :=
        Classical.byContradiction fun hn => h ⟨hfilters, hwork, hn⟩
      exact ⟨_, _, rfl, .check hwork hlt⟩
    · cases hw : w.work with
      | idle => exact absurd hw hwork
      | test => exact ⟨_, _, rfl, .test hw⟩
      | clear => exact ⟨_, _, rfl, .clear hw⟩
      | reboot => exact ⟨.reboot true, _, rfl, .reboot hw⟩
      | finish => exact ⟨_, _, rfl, .finish hw⟩
  · obtain ⟨c, hc⟩ := not_forall.mp hfilters
    cases hf : w.filters c with
    | idle => exact absurd hf hc
    | switch m =>
      by_cases hcan : m.cancels
      · exact ⟨.cancel c true, _, rfl, .cancel hf hcan⟩
      · exact ⟨.switch c true, _, rfl, .other hf hcan⟩
    | cancelled => exact ⟨.switch c true, _, rfl, .press hf⟩
    | handled => exact ⟨_, _, rfl, .ack hf⟩

end Rest

/-! ## Runs -/

section Runs

variable {ι : Type u} [DecidableEq ι] {es : List (Edge (ButtonWorld ι) (ButtonLabel ι))} {w : ButtonWorld ι}

/-- **No power button event is lost, and none is answered twice.** At rest every call of `cancelPowerOff` and every
event is followed by a call of `rebootPowerOff`. -/
theorem button_served (h : Run ButtonInit ButtonStep es w) :
    w.history.countP PowerEvent.callsReboot ≤ w.history.countP PowerEvent.isEvent ∧ RebootsSent w.history ∧
      (AtRest w → (∀ b, w.driver.flag b = false) ∧ Served w.history) := by
  have hI := h.invariant (I := ButtonInv) (fun _ => inv_init) fun _ _ _ => inv_step
  have hcount := hI.reboots
  exact ⟨by omega, hI.sent, served_of_rest hI⟩

/-- **The driver comes to rest.** Without new messages it takes a bounded number of steps, and it is nowhere stuck
before it is at rest. -/
theorem button_rests [Fintype ι] (h : Run ButtonInit ButtonStep es w)
    {es' : List (Edge (ButtonWorld ι) (ButtonLabel ι))} {v : ButtonWorld ι} (hp : Path ButtonStep w es' v)
    (hinternal : ∀ e ∈ es', e.label.internal = true) :
    es'.length ≤ 13 * Fintype.card ι + 19 ∧ (AtRest v ∨ ∃ l v', l.internal = true ∧ ButtonStep v l v') := by
  have hI := h.invariant (I := ButtonInv) (fun _ => inv_init) fun _ _ _ => inv_step
  have hle := (Run.length_le (I := ButtonInv) (C := fun _ l => l.internal = true) (μ := ButtonWorld.cost) hI
    (fun _ _ _ hI hl hs => ⟨inv_step hI hs, cost_step hI hs hl⟩) hp hinternal).2
  have hcost := cost_le w
  exact ⟨by omega, or_iff_not_imp_left.mpr internal_enabled⟩

/-- One press on one CPU, and the steps of the driver after it. -/
theorem pressed_run : ∃ es w es' v, Run (@ButtonInit (Fin 1)) ButtonStep es w ∧ Path ButtonStep w es' v ∧
    (∀ e ∈ es', e.label.internal = true) ∧ AtRest v ∧ v.history =
      [.cancelled (cancelPowerOff true), .pressed, .rebooted (rebootPowerOff true true)] := by
  have hcan : (Message.mk commandAsync fun _ => asyncPowerButton).cancels := ⟨rfl, rfl⟩
  have h0 : Run (@ButtonInit (Fin 1)) ButtonStep [] ⟨⟨false, false, false, false, none, 0, false, Message.zero.temp,
      false⟩, ⟨0, 0, 0⟩, fun _ => .idle, .idle, []⟩ :=
    .start ⟨fun b => by cases b <;> rfl, rfl, fun _ => rfl, rfl, rfl⟩
  have h1 := h0.step (.receive (c := 0) (m := ⟨commandAsync, fun _ => asyncPowerButton⟩) rfl)
  have h2 := h1.step (.cancel (c := 0) (r := true) rfl hcan)
  have p1 := h2.here.step (.press (c := 0) (r := true) rfl)
  have p2 := p1.step (.ack (c := 0) rfl)
  have p3 := p2.step (.check rfl (Nat.zero_lt_one))
  have p4 := p3.step (.test rfl)
  have p5 := p4.step (.clear rfl)
  have p6 := p5.step (.reboot (r := true) rfl)
  have p7 := p6.step (.test rfl)
  have p8 := p7.step (.test rfl)
  have p9 := p8.step (.finish rfl)
  refine ⟨_, _, _, _, h2, p9, ?_, ⟨fun c => ?_, ?_, ?_⟩, ?_⟩
  · simp [ButtonLabel.internal]
  · rw [Subsingleton.elim c 0]
    simp
  · rfl
  · exact Nat.lt_irrefl _
  · rfl

theorem button_served_pressed : ∃ es w, Run (@ButtonInit (Fin 1)) ButtonStep es w ∧
    w.history = [.cancelled (cancelPowerOff true), .pressed, .rebooted (rebootPowerOff true true)] ∧
    w.history.countP PowerEvent.callsReboot ≤ w.history.countP PowerEvent.isEvent ∧ RebootsSent w.history ∧
      (AtRest w → (∀ b, w.driver.flag b = false) ∧ Served w.history) := by
  obtain ⟨es, w, es', v, h, hp, -, -, hhistory⟩ := pressed_run
  exact ⟨_, _, h.append hp, hhistory, button_served (h.append hp)⟩

theorem button_rests_pressed : ∃ es w es' v, Run (@ButtonInit (Fin 1)) ButtonStep es w ∧ Path ButtonStep w es' v ∧
    AtRest v ∧ es'.length ≤ 13 * Fintype.card (Fin 1) + 19 ∧
      (AtRest v ∨ ∃ l v', l.internal = true ∧ ButtonStep v l v') := by
  obtain ⟨es, w, es', v, h, hp, hinternal, hrest, -⟩ := pressed_run
  exact ⟨_, _, _, _, h, hp, hrest, button_rests h hp hinternal⟩

end Runs

end Osx360.Smc
