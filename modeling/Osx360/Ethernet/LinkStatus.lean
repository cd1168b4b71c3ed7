import Osx360.Ethernet.Mdio
import Osx360.Ethernet.Regs
import Osx360.Lib.Run

/-!
# The link status that is reported

The link branch of `handleInterrupt` and the report at the end of `enable`, over whole runs in which the link comes and
goes at any time. The controller latches `kXenonEthernetIntLink` whenever the link changes. The link bit of a PHY either
shows the link as it is, or, as the standard has it, stays low after the link went down until it was read (`latching`).

- at rest the status reported is the one of the link, unless the last read still found the latched low bit
  (`link_settles`); with a PHY that latches the link may so be reported down for good (`link_flap`);
- the driver does come to rest with a report, also after a change during a report (`link_served`).
-/

set_option autoImplicit false

namespace Osx360.Ethernet

open Osx360.Lib

/-! ## The report -/

/-- The call of `setLinkStatus`. -/
def linkReport (up : Bool) (medium : Option IONetworkMedium) : Word × Option IONetworkMedium :=
  if up then (ioNetworkLinkValid ||| ioNetworkLinkActive, medium) else (ioNetworkLinkValid, none)

/-- What `phyUpdateLinkStatus` reports depends on its first read. -/
theorem phyUpdateLinkStatus_eq (phyAddr : Word) (stack : PhyStack) (m : Mediums) (b : PhyBus) :
    (phyUpdateLinkStatus phyAddr stack m b).1 =
      if (phyReadWithAddr phyAddr phyRegStatus stack.phyStatus b).ok then
        some (linkReport (phyHas (phyReadWithAddr phyAddr phyRegStatus stack.phyStatus b).data phyRegStatusLink)
          (phyGetActiveMedium phyAddr stack m (phyReadWithAddr phyAddr phyRegStatus stack.phyStatus b).bus).1)
      else none := by
  unfold phyUpdateLinkStatus linkReport
  cases hok : (phyReadWithAddr phyAddr phyRegStatus stack.phyStatus b).ok with
  | false => simp [hok]
  | true =>
    simp only [hok, Bool.not_true, Bool.false_eq_true, if_false, if_true]
    split <;> rfl

/-- On an MDIO bus the read does not fail, and the report is the link bit that the PHY shows when it is asked. -/
theorem mdio_reports {device : List Word → ℕ → Word} {phy : List Word → BitVec 5 → BitVec 5 → BitVec 16} {b : PhyBus}
    (h : MdioAnswers device phy) (hb : b.device = device) (addr : BitVec 5) (stack : PhyStack) (m : Mediums) :
    ∃ medium, (phyUpdateLinkStatus (addr.setWidth 32) stack m b).1 =
      some (linkReport (phyHas (phy b.requests addr 1) phyRegStatusLink) medium) := by
  obtain ⟨reads, hread⟩ := read_answers h hb addr 1 stack.phyStatus
  have hstatus : phyRegStatus = (1 : BitVec 5).setWidth 32 := rfl
  exact ⟨_, by rw [phyUpdateLinkStatus_eq, hstatus, hread, if_pos rfl]⟩

/-! ## The system -/

/-- Where the work loop is: in `handleInterrupt` with the value it has read, in `initHardware` of a call of `enable`, or
in `phyUpdateLinkStatus`, before its first read or with the link bit that it has read. -/
inductive LinkPc
  | idle
  | statusRead (intStatus : Word)
  | acked (intStatus : Word)
  | enabling
  | updating
  | reporting (up : Bool)
  deriving DecidableEq

/-- `reported` is the last call of `setLinkStatus`. The last three fields are history: `changed` tells whether the link
has changed since the last read of the status register of the PHY, `flapped` whether that read found the bit latched
low, and `stale` whether since then, or from the start on, a read has failed or a call of `enable` has. -/
structure LinkWorld where
  pc : LinkPc
  intStatus : Word
  link : Bool
  wentDown : Bool
  reported : Option (Word × Option IONetworkMedium)
  changed : Bool
  flapped : Bool
  stale : Bool

inductive LinkLabel
  | change
  | latch (bits : Word)
  | read
  | ack
  | skip
  | update
  | enable
  | ackAll
  | enableFails
  | initialized
  | readFails
  | readStatus
  | report (medium : Option IONetworkMedium)

/-- The steps. The work loop does one thing at a time, which ends in `idle`; the branches of `handleInterrupt` for the
rings do not touch the link. -/
inductive LinkStep (latching : Bool) : LinkWorld → LinkLabel → LinkWorld → Prop
  | change {w : LinkWorld} : LinkStep latching w .change { w with
      link := !w.link
      wentDown := w.wentDown || w.link
      intStatus := w.intStatus ||| intLink
      changed := true }
  | latch {w : LinkWorld} (bits : Word) : LinkStep latching w (.latch bits) { w with intStatus := w.intStatus ||| bits }
  | read {w : LinkWorld} : w.pc = .idle → LinkStep latching w .read { w with pc := .statusRead w.intStatus }
  | ack {w : LinkWorld} {v : Word} : w.pc = .statusRead v →
      LinkStep latching w .ack { w with pc := .acked v, intStatus := w.intStatus &&& ~~~v }
  | skip {w : LinkWorld} {v : Word} : w.pc = .acked v → has v intLink = false →
      LinkStep latching w .skip { w with pc := .idle }
  | update {w : LinkWorld} {v : Word} : w.pc = .acked v → has v intLink = true →
      LinkStep latching w .update { w with pc := .updating }
  | enable {w : LinkWorld} : w.pc = .idle → LinkStep latching w .enable { w with pc := .enabling }
  -- `softReset` and `initHardware` acknowledge all interrupts
  | ackAll {w : LinkWorld} : w.pc = .enabling →
      LinkStep latching w .ackAll { w with intStatus := w.intStatus &&& ~~~0xFFFFFFFF#32 }
  | enableFails {w : LinkWorld} : w.pc = .enabling →
      LinkStep latching w .enableFails { w with pc := .idle, stale := true }
  | initialized {w : LinkWorld} : w.pc = .enabling → LinkStep latching w .initialized { w with pc := .updating }
  | readFails {w : LinkWorld} : w.pc = .updating →
      LinkStep latching w .readFails { w with pc := .idle, stale := true }
  | readStatus {w : LinkWorld} : w.pc = .updating → LinkStep latching w .readStatus { w with
      pc := .reporting (w.link && !(latching && w.wentDown))
      wentDown := false
      changed := false
      flapped := latching && w.wentDown
      stale := false }
  | report {w : LinkWorld} {up : Bool} (medium : Option IONetworkMedium) : w.pc = .reporting up →
      LinkStep latching w (.report medium) { w with pc := .idle, reported := some (linkReport up medium) }

/-- Before the first call of `enable`. -/
def LinkInit (w : LinkWorld) : Prop := w.pc = .idle ∧ w.reported = none ∧ w.changed = false ∧ w.stale = true

/-- The work loop has nothing to do, and no interrupt for the link waits. -/
structure LinkRest (w : LinkWorld) : Prop where
  pc : w.pc = .idle
  intStatus : has w.intStatus intLink = false

/-! ## No change is missed -/

/-- The status of the PHY will be read. -/
def LinkPc.willRead : LinkPc → Bool
  | .statusRead v | .acked v => has v intLink
  | .enabling | .updating => true
  | .idle | .reporting _ => false

/-- A change is latched, will be read, or a report has failed since. -/
def ChangeNoticed (w : LinkWorld) : Prop :=
  w.changed = true → has w.intStatus intLink = true ∨ w.pc.willRead = true ∨ w.stale = true

/-- The bit that was read is reported, or about to be. -/
def LinkPc.Reports (up : Bool) (reported : Option (Word × Option IONetworkMedium)) : LinkPc → Prop
  | .reporting up' => up' = up
  | _ => ∃ medium, reported = some (linkReport up medium)

structure LinkInv (latching : Bool) (w : LinkWorld) : Prop where
  noticed : ChangeNoticed w
  reports : w.stale = false → ∃ up, w.pc.Reports up w.reported ∧ (w.changed = false → up = (w.link && !w.flapped))
  flapped : w.stale = false → w.flapped = true → latching = true

section Settles

variable {latching : Bool} {w v : LinkWorld} {l : LinkLabel}

theorem linkInv_init (h : LinkInit w) : LinkInv latching w := by
  obtain ⟨-, -, hchanged, hstale⟩ := h
  refine ⟨fun hc => ?_, fun hs => ?_, fun hs => ?_⟩
  · rw [hchanged] at hc
    cases hc
  · rw [hstale] at hs
    cases hs
  · rw [hstale] at hs
    cases hs

theorem changeNoticed_step (h : ChangeNoticed w) (hs : LinkStep latching w l v) : ChangeNoticed v := by
  cases hs with
  | change => exact fun _ => Or.inl (has_latched (by decide))
  | latch bits => exact fun hc => (h hc).imp_left (has_latch (by decide) bits)
  | read hpc => exact fun hc => Or.inr ((h hc).imp_right fun hrest => hrest.resolve_left (by rw [hpc]; decide))
  | ack hpc =>
    intro hc
    rcases h hc with hlatched | hrest
    · exact (has_ack (by decide) hlatched).imp_right Or.inl
    · rw [hpc] at hrest
      exact Or.inr hrest
  | skip hpc hv =>
    intro hc
    refine (h hc).imp_right fun hrest => Or.inr (hrest.resolve_left ?_)
    rw [hpc, LinkPc.willRead, hv]
    decide
  | update | enable | initialized => exact fun _ => Or.inr (Or.inl rfl)
  | ackAll hpc => exact fun _ => Or.inr (Or.inl (by rw [hpc]; rfl))
  | enableFails | readFails => exact fun _ => Or.inr (Or.inr rfl)
  | readStatus => exact nofun
  | report medium hpc =>
    refine fun hc => (h hc).imp_right fun hrest => Or.inr (hrest.resolve_left ?_)
    rw [hpc]
    exact Bool.false_ne_true

theorem reports_step (h : LinkInv latching w) (hs : LinkStep latching w l v) (hstale : v.stale = false) :
    ∃ up, v.pc.Reports up v.reported ∧ (v.changed = false → up = (v.link && !v.flapped)) := by
  cases hs with
  | change =>
    obtain ⟨up, hup, -⟩ := h.reports hstale
    exact ⟨up, hup, nofun⟩
  | latch => exact h.reports hstale
  | read hpc | ack hpc | skip hpc | update hpc | enable hpc | initialized hpc =>
    obtain ⟨up, hup, hlink⟩ := h.reports hstale
    rw [hpc] at hup
    exact ⟨up, hup, hlink⟩
  | ackAll => exact h.reports hstale
  | enableFails | readFails => cases hstale
  | readStatus => exact ⟨_, rfl, fun _ => rfl⟩
  | report medium hpc =>
    obtain ⟨up, hup, hlink⟩ := h.reports hstale
    rw [hpc] at hup
    exact ⟨up, ⟨medium, by rw [show _ = up from hup]⟩, hlink⟩

theorem linkInv_step (h : LinkInv latching w) (hs : LinkStep latching w l v) : LinkInv latching v := by
  refine ⟨changeNoticed_step h.noticed hs, reports_step h hs, ?_⟩
  cases hs with
  | readStatus => exact fun _ hflapped => (Bool.and_eq_true_iff.mp hflapped).1
  | enableFails | readFails => exact nofun
  | _ => exact h.flapped

/-- **At rest the link status that was reported is the one of the link**, unless the last read found the bit still low
from before; then it is reported down. A PHY that shows the link as it is has no such reads. -/
theorem link_settles (h : Reachable LinkInit (LinkStep latching) w) (hrest : LinkRest w) (hstale : w.stale = false) :
    ∃ medium, w.reported = some (linkReport (w.link && !w.flapped) medium) ∧ (w.flapped = true → latching = true) := by
  have hI := h.invariant (I := LinkInv latching) (fun _ => linkInv_init) fun _ _ _ => linkInv_step
  have hchanged : w.changed = false := by
    by_contra hc
    rcases hI.noticed (by simpa using hc) with hlatched | hread | hfailed
    · exact absurd (hlatched.symm.trans hrest.intStatus) nofun
    · rw [hrest.pc] at hread
      cases hread
    · exact absurd (hfailed.symm.trans hstale) nofun
  obtain ⟨up, hup, hlink⟩ := hI.reports hstale
  rw [hrest.pc] at hup
  obtain ⟨medium, hreported⟩ := hup
  exact ⟨medium, by rw [hreported, hlink hchanged], hI.flapped hstale⟩

/-- A new driver, with the link up. -/
def linkUp : LinkWorld := ⟨.idle, 0, true, false, none, false, false, true⟩

/-- What a call of `enable` with the link up leaves. -/
def enabledUp : LinkWorld := ⟨.idle, 0, true, false, some (linkReport true none), false, false, false⟩

theorem enabledUp_reachable (latching : Bool) : Reachable LinkInit (LinkStep latching) enabledUp := by
  have h0 : Reachable LinkInit (LinkStep latching) linkUp := .of_init ⟨rfl, rfl, rfl, rfl⟩
  have hread : LinkStep latching { linkUp with pc := .updating } .readStatus
      { enabledUp with pc := .reporting true, reported := none } := by
    have hstep : LinkStep latching _ .readStatus _ := .readStatus (w := { linkUp with pc := .updating }) rfl
    simpa [enabledUp, linkUp] using hstep
  exact (((h0.snoc (.enable rfl)).snoc (.initialized rfl)).snoc hread).snoc (.report none rfl)

/-- The link goes down, and the handler reports it. -/
theorem link_settles_down : ∃ w, Reachable LinkInit (LinkStep false) w ∧ LinkRest w ∧ w.stale = false ∧
    w.link = false ∧
      ∃ medium, w.reported = some (linkReport (w.link && !w.flapped) medium) ∧ (w.flapped = true → false = true) := by
  have h2 := ((enabledUp_reachable false).snoc .change).snoc (.read rfl)
  have h4 := (h2.snoc (.ack rfl)).snoc (.update rfl (by decide))
  have h := (h4.snoc (.readStatus rfl)).snoc (.report none rfl)
  exact ⟨_, h, ⟨rfl, by decide⟩, rfl, rfl, link_settles h ⟨rfl, by decide⟩ rfl⟩

/-- **A link that comes back is missed.** With a PHY that latches, a link that goes down and comes back before the
handler has read its status is reported down and stays so: the driver is at rest, and no read has failed. -/
theorem link_flap : ∃ w, Reachable LinkInit (LinkStep true) w ∧ LinkRest w ∧ w.stale = false ∧ w.link = true ∧
    w.reported = some (linkReport false none) := by
  have h2 := ((enabledUp_reachable true).snoc .change).snoc .change
  have h5 := ((h2.snoc (.read rfl)).snoc (.ack rfl)).snoc (.update rfl (by decide))
  have h := (h5.snoc (.readStatus rfl)).snoc (.report none rfl)
  exact ⟨_, h, ⟨rfl, by decide⟩, rfl, rfl, rfl⟩

end Settles

/-! ## The driver comes to rest -/

/-- What the work loop does by itself, with a PHY that answers. -/
def LinkLabel.serves : LinkLabel → Prop
  | .read | .ack | .skip | .update | .initialized | .readStatus | .report _ => True
  | _ => False

/-- The work loop has come from `w` to the end of what it did. -/
structure Ended (latching : Bool) (w v : LinkWorld) : Prop where
  leads : Leads (LinkStep latching) LinkLabel.serves w v
  pc : v.pc = .idle
  link : v.link = w.link
  stale : w.stale = false → v.stale = false
  intStatus : has w.intStatus intLink = false → has v.intStatus intLink = false

section Served

variable {latching : Bool} {w v : LinkWorld} {l : LinkLabel}

/-- A step of the work loop before the others. -/
theorem Ended.step {v' : LinkWorld} (h : Ended latching v v') (hs : LinkStep latching w l v) (hl : l.serves)
    (hlink : v.link = w.link) (hstale : w.stale = false → v.stale = false)
    (hstatus : has w.intStatus intLink = false → has v.intStatus intLink = false) : Ended latching w v' where
  leads := (Leads.single hs hl).trans h.leads
  pc := h.pc
  link := h.link.trans hlink
  stale hw := h.stale (hstale hw)
  intStatus hw := h.intStatus (hstatus hw)

theorem ended_idle (hpc : w.pc = .idle) : Ended latching w w := ⟨.refl _ w, hpc, rfl, id, id⟩

theorem ended_reporting (latching : Bool) {up : Bool} (hpc : w.pc = .reporting up) : ∃ v, Ended latching w v :=
  ⟨_, (ended_idle rfl).step (.report none hpc) trivial rfl id id⟩

theorem ended_updating (latching : Bool) (hpc : w.pc = .updating) : ∃ v, Ended latching w v := by
  obtain ⟨v, hv⟩ := ended_reporting latching (w := { w with
    pc := .reporting (w.link && !(latching && w.wentDown))
    wentDown := false
    changed := false
    flapped := latching && w.wentDown
    stale := false }) rfl
  exact ⟨v, hv.step (.readStatus hpc) trivial rfl (fun _ => rfl) id⟩

theorem ended_acked (latching : Bool) {intStatus : Word} (hpc : w.pc = .acked intStatus) : ∃ v, Ended latching w v := by
  cases hv : has intStatus intLink with
  | false => exact ⟨_, (ended_idle rfl).step (.skip hpc hv) trivial rfl id id⟩
  | true =>
    obtain ⟨v, hend⟩ := ended_updating latching (w := { w with pc := .updating }) rfl
    exact ⟨v, hend.step (.update hpc hv) trivial rfl id id⟩

/-- Acknowledging latches nothing. -/
theorem unlatched_ack {s v : Word} (h : has s intLink = false) : has (s &&& ~~~v) intLink = false := by
  rw [intLink, has_and (by decide)]
  rw [intLink] at h
  rw [h, Bool.false_and]

theorem ended (latching : Bool) (w : LinkWorld) : ∃ v, Ended latching w v := by
  cases hpc : w.pc with
  | idle => exact ⟨w, ended_idle hpc⟩
  | statusRead intStatus =>
    obtain ⟨v, hv⟩ := ended_acked latching (w := { w with
      pc := .acked intStatus
      intStatus := w.intStatus &&& ~~~intStatus }) rfl
    exact ⟨v, hv.step (.ack hpc) trivial rfl id unlatched_ack⟩
  | acked => exact ended_acked latching hpc
  | enabling =>
    obtain ⟨v, hv⟩ := ended_updating latching (w := { w with pc := .updating }) rfl
    exact ⟨v, hv.step (.initialized hpc) trivial rfl id id⟩
  | updating => exact ended_updating latching hpc
  | reporting => exact ended_reporting latching hpc

/-- A call of `handleInterrupt` leaves no interrupt for the link. -/
theorem ended_round (latching : Bool) (hpc : w.pc = .idle) :
    ∃ v, Ended latching w v ∧ has v.intStatus intLink = false := by
  cases hlatched : has w.intStatus intLink with
  | false => exact ⟨w, ended_idle hpc, hlatched⟩
  | true =>
    have hcleared : has (w.intStatus &&& ~~~w.intStatus) intLink = false := has_acked (by decide) hlatched
    obtain ⟨v, hv⟩ := ended_acked latching (w := { w with
      pc := .acked w.intStatus
      intStatus := w.intStatus &&& ~~~w.intStatus }) rfl
    have hack := hv.step (w := { w with pc := .statusRead w.intStatus }) (.ack rfl) trivial rfl id unlatched_ack
    exact ⟨v, hack.step (.read hpc) trivial rfl id id, hv.intStatus hcleared⟩

/-- **The driver comes to rest with a report**, wherever the link has changed. -/
theorem link_served (h : Reachable LinkInit (LinkStep latching) w) (hstale : w.stale = false) :
    ∃ v medium, Leads (LinkStep latching) LinkLabel.serves w v ∧ LinkRest v ∧
      v.reported = some (linkReport (w.link && !v.flapped) medium) := by
  obtain ⟨u, hu⟩ := ended latching w
  obtain ⟨v, hv, hquiet⟩ := ended_round latching hu.pc
  have hleads := hu.leads.trans hv.leads
  have hrest : LinkRest v := ⟨hv.pc, hquiet⟩
  obtain ⟨medium, hreported, -⟩ := link_settles (hleads.reachable h) hrest (hv.stale (hu.stale hstale))
  rw [hv.link, hu.link] at hreported
  exact ⟨v, medium, hleads, hrest, hreported⟩

/-- The link changes while the handler reports. -/
theorem link_served_down : ∃ w v medium, Reachable LinkInit (LinkStep false) w ∧ w.pc = .reporting true ∧
    w.link = false ∧ Leads (LinkStep false) LinkLabel.serves w v ∧ LinkRest v ∧
      v.reported = some (linkReport (w.link && !v.flapped) medium) := by
  have h2 := ((enabledUp_reachable false).snoc (.enable rfl)).snoc (.initialized rfl)
  have h := (h2.snoc (.readStatus rfl)).snoc .change
  obtain ⟨v, medium, hserved⟩ := link_served h rfl
  exact ⟨_, v, medium, h, rfl, rfl, hserved⟩

end Served

end Osx360.Ethernet
