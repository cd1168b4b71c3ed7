import Osx360.Interrupts.Controller
import Osx360.Lib.Run

/-!
# Completions of interrupts

The purge at startup acknowledges interrupts and completes none; `handleInterrupt` acknowledges one or, when the
interrupt is spurious, none, and writes both end-of-interrupt registers. Acknowledgements and completions match at the
end of a run exactly when as many interrupts were purged as were handled, spurious ones counting twice, and the GPU's
was not among them (`completions_iff`).
-/

set_option autoImplicit false

namespace Osx360.Interrupts

open Osx360.Lib

/-! ## Runs -/

inductive Phase
  | purging
  | running
  | panicked
  deriving DecidableEq

structure IcWorld where
  phase : Phase
  ic : Ic
  ctl : Controller

/-- What happens: a device raises an interrupt, a round of the purge, a call of `handleInterrupt` with what the handlers
do, and anything else that changes the vectors or the bridge. -/
inductive IcLabel
  | raise (i : Irq)
  | purge
  | handle (handler : ℕ → Controller → Controller)
  | other (ctl : Controller)

/-- The purge ends with the spurious vector. -/
def purgePhase (ack : BitVec 64) : Phase := if ack ≠ BitVec.ofNat 64 vectorNone then .purging else .running

inductive IcStep : IcWorld → IcLabel → IcWorld → Prop
  | raise (w : IcWorld) (i : Irq) : IcStep w (.raise i) { w with ic := { w.ic with pending := i :: w.ic.pending } }
  | purge (w : IcWorld) (h : w.phase = .purging) :
      IcStep w .purge { w with phase := purgePhase w.ic.readInterruptAck.1, ic := w.ic.readInterruptAck.2 }
  | handle (w : IcWorld) (handler : ℕ → Controller → Controller) (h : w.phase = .running) :
      IcStep w (.handle handler)
        { phase := if (handleInterrupt handler w.ic w.ctl).panicked then .panicked else .running
          ic := (handleInterrupt handler w.ic w.ctl).ic
          ctl := (handleInterrupt handler w.ic w.ctl).ctl }
  | other (w : IcWorld) (ctl : Controller) (h : w.phase ≠ .panicked) : IcStep w (.other ctl) { w with ctl }

/-- At startup nothing has been acknowledged; any interrupts may be pending. -/
def IcInit (w : IcWorld) : Prop := w.phase = .purging ∧ w.ic.acks = .empty ∧ w.ic.stray = 0

/-! ## Counts -/

def IcLabel.isPurge : IcLabel → Bool
  | .purge => true
  | _ => false

def IcLabel.isHandle : IcLabel → Bool
  | .handle _ => true
  | _ => false

abbrev IcEdge := Edge IcWorld IcLabel

/-- An interrupt that the purge acknowledges. -/
def isPurged (e : IcEdge) : Bool := e.label.isPurge && e.pre.ic.next.isSome

def isHandled (e : IcEdge) : Bool := e.label.isHandle && e.pre.ic.next.isSome

def isSpurious (e : IcEdge) : Bool := e.label.isHandle && e.pre.ic.next.isNone

/-- The GPU's interrupt is handled. -/
def IsXenos (e : IcEdge) : Prop := e.label.isHandle = true ∧ ∃ i, e.pre.ic.next = some i ∧ i.vector = vectorXenos

/-- Every interrupt acknowledged has been completed, and nothing else. -/
structure Balanced (w : IcWorld) : Prop where
  completed : w.ic.acks.released ++ w.ic.acks.completed = w.ic.acks.accepted
  stray : w.ic.stray = 0

/-! ## What an operation does to the queue -/

section Queue

variable {ic : Ic} {i : Irq} {w : IcWorld}

/-- How many completions are owed, those with nothing outstanding counting against them. -/
def owed (ic : Ic) : ℤ := ic.acks.pending.length - ic.stray

/-- There are no interrupts outstanding once a completion had nothing to complete. -/
def Settled (ic : Ic) : Prop := ic.stray = 0 ∨ ic.acks.pending = []

theorem balanced_iff : Balanced w ↔ w.ic.acks.pending = [] ∧ w.ic.stray = 0 := by
  have hdone : w.ic.acks.released ++ w.ic.acks.completed = w.ic.acks.accepted ↔ w.ic.acks.pending = [] := by
    rw [Fifo.accepted, ← List.append_assoc, List.self_eq_append_right]
  exact ⟨fun h => ⟨hdone.mp h.completed, h.stray⟩, fun h => ⟨hdone.mpr h.1, h.2⟩⟩

/-- A completion takes one from what is owed. -/
theorem owed_endOfInterrupt (ic : Ic) : owed ic.endOfInterrupt = owed ic - 1 := by
  rw [Ic.endOfInterrupt]
  cases h : ic.acks.pending with
  | nil =>
    simp only [owed, h, List.length_nil]
    omega
  | cons i rest =>
    simp only [owed, Fifo.complete_of_cons h, h, List.length_cons]
    omega

theorem settled_endOfInterrupt (h : Settled ic) : Settled ic.endOfInterrupt := by
  rw [Ic.endOfInterrupt]
  cases hp : ic.acks.pending with
  | nil => exact Or.inr hp
  | cons i rest =>
    rcases h with h | h
    · exact Or.inl h
    · rw [hp] at h
      cases h

/-- Two completions leave nothing outstanding where at most one was. -/
theorem settled_twice (h : ic.stray = 0 ∨ ic.acks.pending.length ≤ 1) : Settled ic.endOfInterrupt.endOfInterrupt := by
  rcases h with h | h
  · exact settled_endOfInterrupt (settled_endOfInterrupt (Or.inl h))
  · refine settled_endOfInterrupt (Or.inr ?_)
    rw [Ic.endOfInterrupt]
    cases hp : ic.acks.pending with
    | nil => exact hp
    | cons i rest =>
      rw [hp, List.length_cons] at h
      exact List.eq_nil_of_length_eq_zero (by simp only [Fifo.complete_of_cons hp]; omega)

end Queue

/-! ## The accounts of a run -/

/-- What the interrupts of a run leave owed. -/
def balance (es : List IcEdge) : ℤ := es.countP isPurged - es.countP isHandled - 2 * es.countP isSpurious

structure Accounts (es : List IcEdge) (w : IcWorld) : Prop where
  purging : w.phase = .purging → w.ic.stray = 0
  amount : w.phase ≠ .panicked → owed w.ic = balance es
  settled : w.phase ≠ .panicked → Settled w.ic
  quiet : w.phase ≠ .panicked → ∀ e ∈ es, ¬ IsXenos e
  panicked : w.phase = .panicked → (∃ e ∈ es, IsXenos e) ∧ w.ic.acks.pending ≠ []

section Runs

variable {es : List IcEdge} {w v : IcWorld} {l : IcLabel} {i : Irq} {handler : ℕ → Controller → Controller}

/-- What one step adds. -/
theorem balance_snoc (es : List IcEdge) (e : IcEdge) : balance (es ++ [e]) =
    balance es + ((isPurged e).toNat - (isHandled e).toNat - 2 * (isSpurious e).toNat : ℤ) := by
  simp only [balance, List.countP_append, List.countP_singleton]
  cases isPurged e <;> cases isHandled e <;> cases isSpurious e <;>
    simp only [if_true, if_false, Bool.false_eq_true, Bool.toNat_true, Bool.toNat_false] <;> omega

theorem balance_other (hpur : l.isPurge = false) (hhan : l.isHandle = false) :
    balance (es ++ [⟨w, l, v⟩]) = balance es := by
  rw [balance_snoc]
  simp [isPurged, isHandled, isSpurious, hpur, hhan]

theorem balance_purge_none (hn : w.ic.next = none) : balance (es ++ [⟨w, .purge, v⟩]) = balance es := by
  rw [balance_snoc]
  simp [isPurged, isHandled, isSpurious, IcLabel.isPurge, IcLabel.isHandle, hn]

theorem balance_purge_some (hn : w.ic.next = some i) : balance (es ++ [⟨w, .purge, v⟩]) = balance es + 1 := by
  rw [balance_snoc]
  simp [isPurged, isHandled, isSpurious, IcLabel.isPurge, IcLabel.isHandle, hn]

theorem balance_handle_none (hn : w.ic.next = none) :
    balance (es ++ [⟨w, .handle handler, v⟩]) = balance es - 2 := by
  rw [balance_snoc]
  simp [isPurged, isHandled, isSpurious, IcLabel.isPurge, IcLabel.isHandle, hn]
  omega

theorem balance_handle_some (hn : w.ic.next = some i) :
    balance (es ++ [⟨w, .handle handler, v⟩]) = balance es - 1 := by
  rw [balance_snoc]
  simp [isPurged, isHandled, isSpurious, IcLabel.isPurge, IcLabel.isHandle, hn]
  omega

theorem owed_accept (ic : Ic) (i : Irq) (pending : List Irq) :
    owed { ic with pending, acks := ic.acks.accept i } = owed ic + 1 := by
  simp only [owed, Fifo.accept, List.length_append, List.length_singleton]
  omega

/-- A step that acknowledges and completes nothing. -/
theorem accounts_other (h : Accounts es w) (hp : v.phase = w.phase) (ha : v.ic.acks = w.ic.acks)
    (hs : v.ic.stray = w.ic.stray) (hpur : l.isPurge = false) (hhan : l.isHandle = false) :
    Accounts (es ++ [⟨w, l, v⟩]) v := by
  have howed : owed v.ic = owed w.ic := by rw [owed, owed, ha, hs]
  refine ⟨fun hv => ?_, fun hv => ?_, fun hv => ?_, fun hv => ?_, fun hv => ?_⟩
  · rw [hs]
    exact h.purging (hp ▸ hv)
  · rw [howed, balance_other hpur hhan]
    exact h.amount (hp ▸ hv)
  · rw [Settled, ha, hs]
    exact h.settled (hp ▸ hv)
  · refine forall_snoc.mpr ⟨h.quiet (hp ▸ hv), fun hx => ?_⟩
    exact absurd hx.1 (by simp [hhan])
  · obtain ⟨⟨e, he, hx⟩, hne⟩ := h.panicked (hp ▸ hv)
    exact ⟨⟨e, List.mem_append_left _ he, hx⟩, ha ▸ hne⟩

/-- A round of the purge: what it acknowledges stays outstanding. -/
theorem accounts_purge (h : Accounts es w) (hp : w.phase = .purging)
    (hv : v = { w with phase := purgePhase w.ic.readInterruptAck.1, ic := w.ic.readInterruptAck.2 }) :
    Accounts (es ++ [⟨w, .purge, v⟩]) v := by
  have halive : w.phase ≠ .panicked := by rw [hp]; decide
  have hquiet : ∀ e ∈ es ++ [⟨w, .purge, v⟩], ¬ IsXenos e :=
    forall_snoc.mpr ⟨h.quiet halive, fun hx => Bool.false_ne_true hx.1⟩
  have hstray : v.ic.stray = 0 := by
    rw [hv, Ic.readInterruptAck]
    split <;> exact h.purging hp
  have hphase : v.phase ≠ .panicked := by
    rw [hv, purgePhase]
    split <;> simp
  refine ⟨fun _ => hstray, fun _ => ?_, fun _ => Or.inl hstray, fun _ => hquiet, fun hp => absurd hp hphase⟩
  cases hn : w.ic.next with
  | none => rw [balance_purge_none hn, ← h.amount halive, hv, readInterruptAck_none hn]
  | some i => rw [balance_purge_some hn, ← h.amount halive, hv, readInterruptAck_some hn, owed_accept]

theorem accounts_running (hp : v.phase = .running) (hamount : owed v.ic = balance es) (hsettled : Settled v.ic)
    (hquiet : ∀ e ∈ es, ¬ IsXenos e) : Accounts es v := by
  refine ⟨fun hv => ?_, fun _ => hamount, fun _ => hsettled, fun _ => hquiet, fun hv => ?_⟩
  · rw [hp] at hv
    cases hv
  · rw [hp] at hv
    cases hv

theorem accounts_panicked (hp : v.phase = .panicked) (hx : ∃ e ∈ es, IsXenos e) (hne : v.ic.acks.pending ≠ []) :
    Accounts es v := by
  refine ⟨fun hv => ?_, fun hv => absurd hp hv, fun hv => absurd hp hv, fun hv => absurd hp hv, fun _ => ⟨hx, hne⟩⟩
  rw [hp] at hv
  cases hv

/-- A call of `handleInterrupt`: one interrupt at most, and two completions. -/
theorem accounts_handle (h : Accounts es w) (hp : w.phase = .running)
    (hphase : v.phase = if (handleInterrupt handler w.ic w.ctl).panicked then .panicked else .running)
    (hic : v.ic = (handleInterrupt handler w.ic w.ctl).ic) :
    Accounts (es ++ [⟨w, .handle handler, v⟩]) v := by
  have halive : w.phase ≠ .panicked := by rw [hp]; decide
  have hamount := h.amount halive
  have hsettled := h.settled halive
  cases hn : w.ic.next with
  | none =>
    rw [handleInterrupt_none hn] at hphase hic
    have hquiet : ¬ IsXenos ⟨w, .handle handler, v⟩ := by
      rintro ⟨-, i, hi, -⟩
      rw [hn] at hi
      cases hi
    refine accounts_running hphase ?_ ?_ (forall_snoc.mpr ⟨h.quiet halive, hquiet⟩)
    · rw [hic, owed_endOfInterrupt, owed_endOfInterrupt, balance_handle_none hn, ← hamount]
      omega
    · rw [hic]
      exact settled_endOfInterrupt (settled_endOfInterrupt hsettled)
  | some i =>
    by_cases hx : i.vector = vectorXenos
    · -- the GPU's interrupt is acknowledged, and the system stops
      rw [handleInterrupt_xenos hn hx] at hphase hic
      refine accounts_panicked hphase
        ⟨_, List.mem_append_right _ (List.mem_singleton_self _), rfl, i, hn, hx⟩ ?_
      rw [hic]
      simp [Fifo.accept]
    · rw [handleInterrupt_some hn hx] at hphase hic
      have hquiet : ¬ IsXenos ⟨w, .handle handler, v⟩ := by
        rintro ⟨-, j, hj, hjx⟩
        rw [hn, Option.some_inj] at hj
        exact hx (hj ▸ hjx)
      refine accounts_running hphase ?_ ?_ (forall_snoc.mpr ⟨h.quiet halive, hquiet⟩)
      · rw [hic, owed_endOfInterrupt, owed_endOfInterrupt, owed_accept, balance_handle_some hn, ← hamount]
        omega
      · rw [hic]
        refine settled_twice (hsettled.imp id fun hnil => ?_)
        simp [Fifo.accept, hnil]

/-- **The accounts of every run.** -/
theorem accounts_of_run (h : Run IcInit IcStep es w) : Accounts es w := by
  induction h with
  | start h0 =>
    obtain ⟨hp, hacks, hstray⟩ := h0
    refine ⟨fun _ => hstray, fun _ => ?_, fun _ => Or.inl hstray, fun _ => List.forall_mem_nil _, fun hpan => ?_⟩
    · rw [owed, hacks, hstray]
      rfl
    · rw [hp] at hpan
      cases hpan
  | step _ hs ih =>
    cases hs with
    | raise => exact accounts_other ih rfl rfl rfl rfl rfl
    | purge hp => exact accounts_purge ih hp rfl
    | handle handler hp => exact accounts_handle ih hp rfl rfl
    | other => exact accounts_other ih rfl rfl rfl rfl rfl

/-- **Acknowledged and completed.** -/
theorem completions_iff (h : Run IcInit IcStep es w) :
    Balanced w ↔ (∀ e ∈ es, ¬ IsXenos e) ∧
      es.countP isPurged = es.countP isHandled + 2 * es.countP isSpurious := by
  have ha := accounts_of_run h
  rw [balanced_iff]
  by_cases hp : w.phase = .panicked
  · obtain ⟨⟨e, he, hx⟩, hne⟩ := ha.panicked hp
    exact iff_of_false (fun hb => hne hb.1) fun hb => hb.1 e he hx
  · have hamount := ha.amount hp
    have hsettled := ha.settled hp
    rw [owed, balance] at hamount
    constructor
    · rintro ⟨hnil, hstray⟩
      rw [hnil, hstray, List.length_nil] at hamount
      exact ⟨ha.quiet hp, by omega⟩
    · rintro ⟨-, heq⟩
      have hlen : w.ic.acks.pending.length = w.ic.stray := by omega
      rcases hsettled with hs | hn
      · exact ⟨List.eq_nil_of_length_eq_zero (hlen.trans hs), hs⟩
      · exact ⟨hn, by rw [← hlen, hn, List.length_nil]⟩

/-! ## Two runs -/

/-- At startup, with these interrupts pending. -/
def bootWorld (pending : List Irq) : IcWorld :=
  ⟨.purging, ⟨Irq.vector, pending, .empty, 0⟩, ⟨fun _ => ⟨false, false, false, false⟩, fun _ => 0⟩⟩

/-- One interrupt is purged and one handled. -/
theorem completions_one_purged : ∃ es w, Run IcInit IcStep es w ∧
    es.head?.map (·.pre) = some (bootWorld [ethernetIrq]) ∧
    es.countP isHandled = 1 ∧ Balanced w := by
  have hr := ((((@Run.start _ _ IcInit IcStep (bootWorld [ethernetIrq]) ⟨rfl, rfl, rfl⟩).step (.purge _ rfl)).step
    (.purge _ rfl)).step (.raise _ ethernetIrq)).step (.handle _ (fun _ c => c) rfl)
  refine ⟨_, _, hr, rfl, rfl, (completions_iff hr).mpr ⟨?_, rfl⟩⟩
  simp only [forall_snoc, List.not_mem_nil, false_imp_iff, implies_true, true_and]
  refine ⟨⟨⟨fun h => ?_, fun h => ?_⟩, fun h => ?_⟩, ?_⟩
  · exact Bool.false_ne_true h.1
  · exact Bool.false_ne_true h.1
  · exact Bool.false_ne_true h.1
  · rintro ⟨-, i, hi, hx⟩
    cases hi
    exact absurd hx (by decide)

/-- An interrupt after a startup with nothing pending: it is completed twice. -/
theorem completion_stray : ∃ es w, Run IcInit IcStep es w ∧ es.head?.map (·.pre) = some (bootWorld []) ∧
    w.ic.acks.completed = [ethernetIrq] ∧ w.ic.stray = 1 ∧ ¬ Balanced w := by
  have hr := (((@Run.start _ _ IcInit IcStep (bootWorld []) ⟨rfl, rfl, rfl⟩).step (.purge _ rfl)).step
    (.raise _ ethernetIrq)).step (.handle _ (fun _ c => c) rfl)
  exact ⟨_, _, hr, rfl, rfl, rfl, fun h => absurd h.stray (by decide)⟩

end Runs

end Osx360.Interrupts
