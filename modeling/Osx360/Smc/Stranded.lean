import Osx360.Lib.Run
import Osx360.Smc.Filter

/-!
# Stranded messages

`filterInterrupt` reads one message and then acknowledges its interrupt. A message that is in the FIFO when it writes
the acknowledgement stays there with no interrupt latched; no message is stranded exactly where the FIFO is empty at
every such write (`stranded_iff`). What was stranded once is never made up for: one interrupt takes one message
(`backlog`).
-/

set_option autoImplicit false

namespace Osx360.Smc

open Osx360.Lib

/-! ## The system -/

/-- Where `filterInterrupt` is. -/
inductive Filter
  | idle
  | entered
  | received (message : Message)
  | handled
  | statusRead (intStatus : Word)

/-- The input FIFO, the interrupt status register, the filter and the driver. -/
structure FilterWorld where
  fifo : List Message
  intStatus : Word
  filter : Filter
  driver : Driver

inductive FilterLabel
  | arrive (m : Message)
  | latch (v : Word)
  | enter
  | readMessage (stack : Message)
  | handle (ready : Bool)
  | readStatus
  | ack

/-- The steps. The SMC latches its interrupt when it queues a message; other bits, or this one, may be latched for other
reasons. `stack` is what the variable `message` holds before it is read into. After the acknowledging write the filter
touches neither the FIFO nor the status register. -/
inductive FilterStep : FilterWorld → FilterLabel → FilterWorld → Prop
  | arrive {w : FilterWorld} (m : Message) :
      FilterStep w (.arrive m) { w with fifo := w.fifo ++ [m], intStatus := w.intStatus ||| intStatusPending }
  | latch {w : FilterWorld} (v : Word) : FilterStep w (.latch v) { w with intStatus := w.intStatus ||| v }
  | enter {w : FilterWorld} : w.filter = .idle → has w.intStatus intStatusPending = true →
      FilterStep w .enter { w with filter := .entered }
  | readMessage {w : FilterWorld} (stack : Message) : w.filter = .entered →
      FilterStep w (.readMessage stack)
        { w with
          filter := .received (readMessage w.fifo stack).2.1
          fifo := (readMessage w.fifo stack).2.2 }
  | handle {w : FilterWorld} {message : Message} (ready : Bool) : w.filter = .received message →
      FilterStep w (.handle ready)
        { w with filter := .handled, driver := (filterMessage ready message w.driver).driver }
  | readStatus {w : FilterWorld} : w.filter = .handled →
      FilterStep w .readStatus { w with filter := .statusRead w.intStatus }
  | ack {w : FilterWorld} {v : Word} : w.filter = .statusRead v →
      FilterStep w .ack { w with filter := .idle, intStatus := w.intStatus &&& ~~~v }

/-- Before the first message. -/
def FilterInit (w : FilterWorld) : Prop := w.fifo = [] ∧ w.filter = .idle

/-- No message waits while the filter does not run and its interrupt is not latched. -/
def NoneStranded (w : FilterWorld) : Prop :=
  w.filter = .idle → has w.intStatus intStatusPending = false → w.fifo = []

/-- The condition on one step: the FIFO is empty at the acknowledging write. -/
def AckEmpty (w : FilterWorld) : FilterLabel → Prop
  | .ack => w.fifo = []
  | _ => True

/-! ## The interrupt while the filter runs -/

/-- The interrupt that a running filter will acknowledge is latched, and the status it has read shows it. -/
def Filter.Latched (intStatus : Word) : Filter → Prop
  | .idle => True
  | .statusRead v => has intStatus intStatusPending = true ∧ has v intStatusPending = true
  | _ => has intStatus intStatusPending = true

section Steps

variable {w v : FilterWorld} {l : FilterLabel}

theorem latched_more {s : Word} {f : Filter} (v : Word) (h : f.Latched s) : f.Latched (s ||| v) := by
  cases f with
  | idle => exact h
  | entered => exact has_latch (by decide) v h
  | received m => exact has_latch (by decide) v h
  | handled => exact has_latch (by decide) v h
  | statusRead u => exact ⟨has_latch (by decide) v h.1, h.2⟩

theorem latched_step (h : w.filter.Latched w.intStatus) (hs : FilterStep w l v) : v.filter.Latched v.intStatus := by
  cases hs with
  | arrive m => exact latched_more _ h
  | latch u => exact latched_more u h
  | enter _ hp => exact hp
  | readMessage stack hf => rw [hf] at h; exact h
  | handle ready hf => rw [hf] at h; exact h
  | readStatus hf => rw [hf] at h; exact ⟨h, h⟩
  | ack _ => trivial

/-- While every acknowledgement found the FIFO empty, what is in the FIFO has its interrupt latched. -/
structure FilterInv (w : FilterWorld) : Prop where
  latched : w.filter.Latched w.intStatus
  noticed : w.fifo ≠ [] → has w.intStatus intStatusPending = true

theorem filterInv_init (h : FilterInit w) : FilterInv w := by
  obtain ⟨hfifo, hfilter⟩ := h
  exact ⟨by rw [hfilter]; trivial, fun hne => absurd hfifo hne⟩

theorem FilterInv.noneStranded (h : FilterInv w) : NoneStranded w := by
  intro _ hp
  by_contra hne
  rw [h.noticed hne] at hp
  cases hp

theorem filterInv_step (h : FilterInv w) (hc : AckEmpty w l) (hs : FilterStep w l v) : FilterInv v := by
  refine ⟨latched_step h.latched hs, ?_⟩
  obtain ⟨hlatched, hnoticed⟩ := h
  cases hs with
  | arrive m => exact fun _ => has_latched (by decide)
  | latch u => exact fun hne => has_latch (by decide) u (hnoticed hne)
  | enter _ hp => exact fun _ => hp
  | readMessage stack hf =>
    rw [hf] at hlatched
    exact fun _ => hlatched
  | handle ready hf => exact hnoticed
  | readStatus hf => exact hnoticed
  | ack _ => exact fun hne => absurd hc hne

/-- An acknowledgement strands what is in the FIFO. -/
theorem ack_strands (h : FilterInv w) (hc : ¬ AckEmpty w l) (hs : FilterStep w l v) : ¬ NoneStranded v := by
  cases hs with
  | ack hf =>
    intro hn
    have hlatched := h.latched
    rw [hf] at hlatched
    exact hc (hn rfl (has_acked (by decide) hlatched.2))
  | _ => exact absurd trivial hc

/-- **No message is stranded exactly where every acknowledgement finds the FIFO empty.** -/
theorem stranded_iff {es : List (Edge FilterWorld FilterLabel)} (h : Run FilterInit FilterStep es w) :
    (∀ e ∈ es, NoneStranded e.post) ↔ ∀ e ∈ es, AckEmpty e.pre e.label := by
  refine h.forall_iff (I := FilterInv) (fun _ => filterInv_init) (fun s l t hi hc hs => ?_) fun s l t => ack_strands
  have hinv := filterInv_step hi hc hs
  exact ⟨hinv, hinv.noneStranded⟩

end Steps

/-! ## The backlog -/

/-- How many messages the FIFO holds at least once a message was stranded: one more than the filter will take for the
interrupts latched so far. -/
def backlog (w : FilterWorld) : ℕ :=
  match w.filter with
  | .idle => if has w.intStatus intStatusPending then 2 else 1
  | .entered => 2
  | _ => 1

/-- A backlog is kept, as long as only messages latch the interrupt. -/
structure Behind (w : FilterWorld) : Prop where
  latched : w.filter.Latched w.intStatus
  backlog : backlog w ≤ w.fifo.length

section Backlog

variable {w v : FilterWorld} {l : FilterLabel}

theorem backlog_le (w : FilterWorld) : backlog w ≤ 2 := by
  unfold backlog
  split
  · split <;> omega
  · omega
  · omega

theorem backlog_pos (w : FilterWorld) : 0 < backlog w := by
  unfold backlog
  split
  · split <;> omega
  · omega
  · omega

theorem behind_step (h : Behind w) (hl : ∀ u, l ≠ .latch u) (hs : FilterStep w l v) : Behind v := by
  refine ⟨latched_step h.latched hs, ?_⟩
  obtain ⟨hlatched, hback⟩ := h
  cases hs with
  | latch u => exact absurd rfl (hl u)
  | arrive m =>
    have hpos := backlog_pos w
    have hle := backlog_le { w with fifo := w.fifo ++ [m], intStatus := w.intStatus ||| intStatusPending }
    simp only [List.length_append, List.length_singleton]
    omega
  | enter hf hp =>
    simp only [backlog, hf, hp, if_true] at hback ⊢
    exact hback
  | readMessage stack hf =>
    simp only [backlog, hf] at hback ⊢
    cases hq : w.fifo with
    | nil => rw [hq] at hback; simp at hback
    | cons m rest =>
      rw [hq, List.length_cons] at hback
      exact Nat.le_of_succ_le_succ hback
  | handle ready hf =>
    simp only [backlog, hf] at hback ⊢
    exact hback
  | readStatus hf =>
    simp only [backlog, hf] at hback ⊢
    exact hback
  | ack hf =>
    rw [hf] at hlatched
    have hclear : has (w.intStatus &&& ~~~_) intStatusPending = false := has_acked (by decide) hlatched.2
    simp only [backlog, hf, hclear] at hback ⊢
    exact hback

/-- **A stranded message is never made up for**: from then on the FIFO is never empty again. -/
theorem never_drained {es : List (Edge FilterWorld FilterLabel)} (h : Run FilterInit FilterStep es w)
    (hidle : w.filter = .idle) (hclear : has w.intStatus intStatusPending = false) (hne : w.fifo ≠ [])
    {fs : List (Edge FilterWorld FilterLabel)} (h' : Run (· = w) FilterStep fs v)
    (hl : ∀ e ∈ fs, ∀ u, e.label ≠ .latch u) : v.fifo ≠ [] := by
  have hbehind : Behind v := by
    refine h'.guarded (I := Behind) (C := fun _ l => ∀ u, l ≠ .latch u) ?_ (fun _ _ _ => behind_step) hl
    rintro _ rfl
    refine ⟨by rw [hidle]; trivial, ?_⟩
    simp only [backlog, hidle, hclear]
    exact List.length_pos_iff.mpr hne
  have hpos := backlog_pos v
  exact List.length_pos_iff.mp (Nat.lt_of_lt_of_le hpos hbehind.backlog)

end Backlog

/-! ## Short runs -/

/-- Before the first message, with nothing received. -/
def newWorld : FilterWorld :=
  ⟨[], 0, .idle, ⟨false, false, false, false, none, 0, false, ⟨0, 0, 0, 0, 0, 0, 0, 0, 0⟩, false⟩⟩

theorem newWorld_run : Run FilterInit FilterStep [] newWorld := .start ⟨rfl, rfl⟩

/-- One message and one run of the filter. -/
theorem stranded_iff_single : ∃ es w, Run FilterInit FilterStep es w ∧
    es.map Edge.label = [.arrive rtcReply, .enter, .readMessage .zero, .handle true, .readStatus, .ack] ∧
    ∀ e ∈ es, NoneStranded e.post := by
  have h2 := (newWorld_run.step (.arrive rtcReply)).step (.enter rfl rfl)
  have h4 := (h2.step (.readMessage .zero rfl)).step (.handle true rfl)
  have h6 := (h4.step (.readStatus rfl)).step (.ack rfl)
  refine ⟨_, _, h6, rfl, (stranded_iff h6).mpr ?_⟩
  simp [AckEmpty, readMessage, newWorld]

/-- Two messages before the filter runs: the second one stays in the FIFO. -/
theorem rtcReply_stranded : ∃ es w, Run FilterInit FilterStep es w ∧
    es.map Edge.label = [.arrive .zero, .arrive rtcReply, .enter, .readMessage .zero, .handle true, .readStatus, .ack] ∧
    w.filter = .idle ∧ has w.intStatus intStatusPending = false ∧ w.fifo = [rtcReply] ∧ ¬ NoneStranded w := by
  have h3 := ((newWorld_run.step (.arrive .zero)).step (.arrive rtcReply)).step (.enter rfl rfl)
  have h5 := (h3.step (.readMessage .zero rfl)).step (.handle true rfl)
  have h7 := (h5.step (.readStatus rfl)).step (.ack rfl)
  refine ⟨_, _, h7, rfl, rfl, rfl, rfl, fun hn => ?_⟩
  cases hn rfl rfl

end Osx360.Smc
