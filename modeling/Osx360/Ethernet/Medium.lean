import Mathlib.Logic.Function.Basic
import Osx360.Ethernet.Phy
import Osx360.Lib.Scan

/-!
# The medium of a link

The media that `phyGetSupportedMediums` publishes and the one that `phyUpdateLinkStatus` reports. `phyGetActiveMedium`
reads the advertisements twice, and never the abilities of the partner: the medium reported is the best common one
exactly where the partner advertises the best mode of this side (`medium_iff`).
-/

set_option autoImplicit false

namespace Osx360.Ethernet

open Osx360.Lib

/-! ## Registers -/

def phyRegStatus : Word := 0x01
def phyRegAnar : Word := 0x04
def phyRegAnlp : Word := 0x05

/-- `BITn` of a PHY register. -/
def phyBit (n : ℕ) : BitVec 16 := BitVec.twoPow 16 n

/-- `value & mask` in a condition. -/
def phyHas (w mask : BitVec 16) : Bool := w &&& mask != 0

def phyRegStatusLink : BitVec 16 := phyBit 2
def phyRegStatusSupp10Half : BitVec 16 := phyBit 11
def phyRegStatusSupp10Full : BitVec 16 := phyBit 12
def phyRegStatusSupp100Half : BitVec 16 := phyBit 13
def phyRegStatusSupp100Full : BitVec 16 := phyBit 14

def phyRegAnar10Half : BitVec 16 := phyBit 5
def phyRegAnar10Full : BitVec 16 := phyBit 6
def phyRegAnar100Half : BitVec 16 := phyBit 7
def phyRegAnar100Full : BitVec 16 := phyBit 8

def ioNetworkLinkValid : Word := 0x01
def ioNetworkLinkActive : Word := 0x02

def ioMediumEthernetAuto : Word := 0x20
def ioMediumEthernet10BaseT : Word := 0x23
def ioMediumEthernet100BaseTX : Word := 0x26
def ioMediumOptionFullDuplex : Word := 0x100000
def ioMediumOptionHalfDuplex : Word := 0x200000

def mbps (x : Word) : Word := 1000000 * x

/-! ## Media -/

/-- The indices of `_mediumTypes`. -/
inductive MediumType
  | type10Half
  | type10Full
  | type100Half
  | type100Full
  | auto
  deriving DecidableEq

structure IONetworkMedium where
  type : Word
  speed : Word
  index : MediumType

/-- `_mediumDict`, by its entries, and `_mediumTypes`. -/
structure Mediums where
  mediumDict : Option (List IONetworkMedium)
  mediumTypes : MediumType → Option IONetworkMedium

/-- A new controller. -/
def Mediums.empty : Mediums := ⟨none, fun _ => none⟩

/-- What the calls of the networking family give: whether there is a dictionary, whether a medium is created and added
to it, and whether it is published. -/
structure MediumCalls where
  withCapacity : Bool
  medium : MediumType → Bool
  addMedium : MediumType → Bool
  publish : Bool

def phyAddMedium (c : MediumCalls) (type speed : Word) (index : MediumType) (m : Mediums) : Bool × Mediums :=
  if c.medium index then
    if c.addMedium index then
      (true,
        { mediumDict := m.mediumDict.map (· ++ [⟨type, speed, index⟩])
          mediumTypes := Function.update m.mediumTypes index (some ⟨type, speed, index⟩) })
    else (false, m)
  else (false, m)

/-- The media for the bits of the status register. -/
def populate (c : MediumCalls) (phyStatus : BitVec 16) (m : Mediums) : Mediums :=
  let m := if phyHas phyStatus phyRegStatusSupp10Half then
    (phyAddMedium c (ioMediumEthernet10BaseT ||| ioMediumOptionHalfDuplex) (mbps 10) .type10Half m).2 else m
  let m := if phyHas phyStatus phyRegStatusSupp10Full then
    (phyAddMedium c (ioMediumEthernet10BaseT ||| ioMediumOptionFullDuplex) (mbps 10) .type10Full m).2 else m
  let m := if phyHas phyStatus phyRegStatusSupp100Half then
    (phyAddMedium c (ioMediumEthernet100BaseTX ||| ioMediumOptionHalfDuplex) (mbps 100) .type100Half m).2 else m
  let m := if phyHas phyStatus phyRegStatusSupp100Full then
    (phyAddMedium c (ioMediumEthernet100BaseTX ||| ioMediumOptionFullDuplex) (mbps 100) .type100Full m).2 else m
  (phyAddMedium c ioMediumEthernetAuto 0 .auto m).2

/-- `stack` is what the variable `phyStatus` holds. -/
def phyGetSupportedMediums (c : MediumCalls) (phyAddr : Word) (stack : BitVec 16) (m : Mediums) (b : PhyBus) :
    Bool × Mediums × PhyBus :=
  if m.mediumDict.isSome then (true, m, b)
  else
    let r := phyReadWithAddr phyAddr phyRegStatus stack b
    if !r.ok then (false, m, r.bus)
    else if !c.withCapacity then (false, m, r.bus)
    else (c.publish, populate c r.data { m with mediumDict := some [] }, r.bus)

/-- The variables of `phyUpdateLinkStatus` and `phyGetActiveMedium` before they are read into. -/
structure PhyStack where
  phyStatus : BitVec 16
  anar : BitVec 16
  anlp : BitVec 16

/-- The first mode of the chain; the last is not tested. -/
def mediumIndex (anar : BitVec 16) : MediumType :=
  if phyHas anar phyRegAnar100Full then .type100Full
  else if phyHas anar phyRegAnar100Half then .type100Half
  else if phyHas anar phyRegAnar10Full then .type10Full
  else .type10Half

def phyGetActiveMedium (phyAddr : Word) (stack : PhyStack) (m : Mediums) (b : PhyBus) :
    Option IONetworkMedium × PhyBus :=
  let r := phyReadWithAddr phyAddr phyRegAnar stack.anar b
  if !r.ok then (none, r.bus)
  else
    let r' := phyReadWithAddr phyAddr phyRegAnar stack.anlp r.bus
    if !r'.ok then (none, r'.bus)
    else (m.mediumTypes (mediumIndex (r.data &&& r'.data)), r'.bus)

/-- The call of `setLinkStatus`, if there is one, and the bus afterwards. -/
def phyUpdateLinkStatus (phyAddr : Word) (stack : PhyStack) (m : Mediums) (b : PhyBus) :
    Option (Word × Option IONetworkMedium) × PhyBus :=
  let r := phyReadWithAddr phyAddr phyRegStatus stack.phyStatus b
  if !r.ok then (none, r.bus)
  else if phyHas r.data phyRegStatusLink then
    let a := phyGetActiveMedium phyAddr stack m r.bus
    (some (ioNetworkLinkValid ||| ioNetworkLinkActive, a.1), a.2)
  else (some (ioNetworkLinkValid, none), r.bus)

/-! ## Modes -/

/-- The modes, from the best on. -/
def modes : List MediumType := [.type100Full, .type100Half, .type10Full, .type10Half]

/-- The bit of a mode in the registers of the advertisements and of the abilities. -/
def MediumType.anarMask : MediumType → BitVec 16
  | .type10Half => phyRegAnar10Half
  | .type10Full => phyRegAnar10Full
  | .type100Half => phyRegAnar100Half
  | .type100Full => phyRegAnar100Full
  | .auto => 0

/-- The bit of a mode in the status register. -/
def MediumType.statusMask : MediumType → BitVec 16
  | .type10Half => phyRegStatusSupp10Half
  | .type10Full => phyRegStatusSupp10Full
  | .type100Half => phyRegStatusSupp100Half
  | .type100Full => phyRegStatusSupp100Full
  | .auto => 0

def advertises (w : BitVec 16) (t : MediumType) : Bool := phyHas w t.anarMask

def supports (phyStatus : BitVec 16) (t : MediumType) : Bool := phyHas phyStatus t.statusMask

/-- The best mode that passes a test. -/
def bestMode (p : MediumType → Bool) : Option MediumType := modes.find? p

/-- The entry of the dictionary for a mode. -/
def Mediums.entry (m : Mediums) (t : MediumType) : Option IONetworkMedium :=
  (m.mediumDict.getD []).find? fun x => x.index = t

section Modes

variable {w : BitVec 16} {t : MediumType}

/-- The chain finds the best mode, where there is one. -/
theorem mediumIndex_eq (h : bestMode (advertises w) = some t) : mediumIndex w = t := by
  rw [bestMode, modes] at h
  have hmask : ∀ t, advertises w t = phyHas w t.anarMask := fun _ => rfl
  unfold mediumIndex
  cases h100Full : phyHas w phyRegAnar100Full with
  | true => simpa [hmask, MediumType.anarMask, h100Full] using h
  | false =>
    cases h100Half : phyHas w phyRegAnar100Half with
    | true => simpa [hmask, MediumType.anarMask, h100Full, h100Half] using h
    | false =>
      cases h10Full : phyHas w phyRegAnar10Full with
      | true => simpa [hmask, MediumType.anarMask, h100Full, h100Half, h10Full] using h
      | false =>
        simp [hmask, MediumType.anarMask, h100Full, h100Half, h10Full] at h
        simp [h.2]

end Modes

/-! ## The published media -/

/-- The medium of a mode is created and added. -/
def MediumCalls.creates (c : MediumCalls) (t : MediumType) : Bool := c.medium t && c.addMedium t

/-- The medium that stands for a mode. -/
def mediumOf : MediumType → IONetworkMedium
  | .type10Half => ⟨ioMediumEthernet10BaseT ||| ioMediumOptionHalfDuplex, mbps 10, .type10Half⟩
  | .type10Full => ⟨ioMediumEthernet10BaseT ||| ioMediumOptionFullDuplex, mbps 10, .type10Full⟩
  | .type100Half => ⟨ioMediumEthernet100BaseTX ||| ioMediumOptionHalfDuplex, mbps 100, .type100Half⟩
  | .type100Full => ⟨ioMediumEthernet100BaseTX ||| ioMediumOptionFullDuplex, mbps 100, .type100Full⟩
  | .auto => ⟨ioMediumEthernetAuto, 0, .auto⟩

section Populate

variable {c : MediumCalls} {phyStatus : BitVec 16} {m : Mediums} {t : MediumType} {l : List IONetworkMedium}

theorem mediumOf_index (t : MediumType) : (mediumOf t).index = t := by cases t <;> rfl

/-- The medium is added behind the others. -/
theorem add_eq (c : MediumCalls) (supported : Bool) (t : MediumType) (m : Mediums) :
    (if supported then (phyAddMedium c (mediumOf t).type (mediumOf t).speed t m).2 else m) =
      if supported && c.creates t then
        ⟨m.mediumDict.map (· ++ [mediumOf t]), Function.update m.mediumTypes t (some (mediumOf t))⟩
      else m := by
  have hof : (⟨(mediumOf t).type, (mediumOf t).speed, t⟩ : IONetworkMedium) = mediumOf t := by cases t <;> rfl
  unfold phyAddMedium MediumCalls.creates
  rw [hof]
  cases supported <;> cases c.medium t <;> cases c.addMedium t <;> rfl

/-- A step of `populate`: a mode with its bit of the status register. -/
def addIf (c : MediumCalls) (m : Mediums) (e : Bool × MediumType) : Mediums :=
  if e.1 then (phyAddMedium c (mediumOf e.2).type (mediumOf e.2).speed e.2 m).2 else m

/-- The steps, in order. -/
def steps (phyStatus : BitVec 16) : List (Bool × MediumType) :=
  [(phyHas phyStatus phyRegStatusSupp10Half, .type10Half), (phyHas phyStatus phyRegStatusSupp10Full, .type10Full),
    (phyHas phyStatus phyRegStatusSupp100Half, .type100Half), (phyHas phyStatus phyRegStatusSupp100Full, .type100Full),
    (true, .auto)]

theorem populate_eq (c : MediumCalls) (phyStatus : BitVec 16) (m : Mediums) :
    populate c phyStatus m = (steps phyStatus).foldl (addIf c) m := rfl

/-- A medium that was not added yet becomes the entry for its mode and the medium of its index. -/
theorem addIf_spec (c : MediumCalls) (e : Bool × MediumType) (hdict : m.mediumDict = some l)
    (hnew : m.entry e.2 = none) :
    (∃ l', (addIf c m e).mediumDict = some l') ∧
      (∀ t, (addIf c m e).mediumTypes t =
        if t = e.2 ∧ e.1 && c.creates e.2 then some (mediumOf t) else m.mediumTypes t) ∧
      ∀ t, (addIf c m e).entry t = if t = e.2 ∧ e.1 && c.creates e.2 then some (mediumOf t) else m.entry t := by
  obtain ⟨supported, i⟩ := e
  rw [addIf, add_eq]
  cases supported && c.creates i with
  | false => simp [hdict]
  | true =>
    refine ⟨⟨l ++ [mediumOf i], by simp [hdict]⟩, fun t => ?_, fun t => ?_⟩
    · by_cases ht : t = i
      · subst ht; simp
      · simp [ht]
    · have hentry : m.entry t = l.find? fun x => x.index = t := by simp [Mediums.entry, hdict]
      by_cases ht : t = i
      · subst ht
        rw [hnew] at hentry
        simp [Mediums.entry, hdict, List.find?_append, ← hentry, mediumOf_index]
      · simp [Mediums.entry, hdict, List.find?_append, mediumOf_index, ht, Ne.symm ht]

/-- Steps for different modes. -/
theorem foldl_addIf (es : List (Bool × MediumType)) (hdict : m.mediumDict = some l)
    (hnodup : (es.map Prod.snd).Nodup) (hnew : ∀ e ∈ es, m.entry e.2 = none) (t : MediumType) :
    (es.foldl (addIf c) m).mediumTypes t =
        (if (true, t) ∈ es ∧ c.creates t then some (mediumOf t) else m.mediumTypes t) ∧
      (es.foldl (addIf c) m).entry t =
        if (true, t) ∈ es ∧ c.creates t then some (mediumOf t) else m.entry t := by
  induction es generalizing m l with
  | nil => simp
  | cons e es ih =>
    rw [List.map_cons, List.nodup_cons] at hnodup
    rw [List.forall_mem_cons] at hnew
    obtain ⟨⟨l', hl'⟩, htypes, hentry⟩ := addIf_spec c e hdict hnew.1
    have hother : ∀ f ∈ es, f.2 ≠ e.2 := fun f hf he => hnodup.1 (List.mem_map.mpr ⟨f, hf, he⟩)
    have hrest := ih hl' hnodup.2 fun f hf => by
      rw [hentry, if_neg (fun h => hother f hf h.1)]
      exact hnew.2 f hf
    have hmem : (true, t) ∈ e :: es ∧ c.creates t = true ↔
        ((true, t) ∈ es ∧ c.creates t = true) ∨ t = e.2 ∧ (e.1 && c.creates e.2) = true := by
      rw [List.mem_cons, Prod.ext_iff, Bool.and_eq_true]
      constructor
      · rintro ⟨⟨hsupp, rfl⟩ | hes, hc⟩
        · exact Or.inr ⟨rfl, hsupp.symm, hc⟩
        · exact Or.inl ⟨hes, hc⟩
      · rintro (⟨hes, hc⟩ | ⟨rfl, hsupp, hc⟩)
        · exact ⟨Or.inr hes, hc⟩
        · exact ⟨Or.inl ⟨hsupp.symm, rfl⟩, hc⟩
    rw [List.foldl_cons, hrest.1, hrest.2, htypes, hentry]
    exact ⟨(ite_or ..).symm.trans (if_congr hmem.symm rfl rfl), (ite_or ..).symm.trans (if_congr hmem.symm rfl rfl)⟩

/-- The modes that are given a medium. -/
def listed (phyStatus : BitVec 16) (t : MediumType) : Bool := supports phyStatus t || t == .auto

theorem mem_steps : (true, t) ∈ steps phyStatus ↔ listed phyStatus t = true := by
  cases t <;> simp [steps, listed, supports, MediumType.statusMask]

/-- What `populate` leaves, in the dictionary and in `_mediumTypes`. -/
theorem populate_spec (c : MediumCalls) (phyStatus : BitVec 16) (t : MediumType) :
    (populate c phyStatus ⟨some [], fun _ => none⟩).mediumTypes t =
        (if listed phyStatus t ∧ c.creates t then some (mediumOf t) else none) ∧
      (populate c phyStatus ⟨some [], fun _ => none⟩).entry t =
        if listed phyStatus t ∧ c.creates t then some (mediumOf t) else none := by
  have h := foldl_addIf (c := c) (m := ⟨some [], fun _ => none⟩) (steps phyStatus) rfl (by simp [steps])
    (fun _ _ => rfl) t
  simp only [mem_steps] at h
  rw [populate_eq]
  exact h

/-- `m` is what `phyGetSupportedMediums` left when it succeeded with a new controller, where it read `phyStatus`. -/
def MediumsPublished (c : MediumCalls) (phyStatus : BitVec 16) (m : Mediums) : Prop :=
  ∃ phyAddr stack b, (phyReadWithAddr phyAddr phyRegStatus stack b).data = phyStatus ∧
    (phyGetSupportedMediums c phyAddr stack .empty b).1 = true ∧
      (phyGetSupportedMediums c phyAddr stack .empty b).2.1 = m

theorem MediumsPublished.eq (h : MediumsPublished c phyStatus m) :
    m = populate c phyStatus ⟨some [], fun _ => none⟩ := by
  obtain ⟨phyAddr, stack, b, rfl, hok, rfl⟩ := h
  have hempty : Mediums.empty.mediumDict.isSome = false := rfl
  unfold phyGetSupportedMediums at hok ⊢
  simp only [hempty] at hok ⊢
  cases hread : (phyReadWithAddr phyAddr phyRegStatus stack b).ok with
  | false => simp [hread] at hok
  | true =>
    cases hcap : c.withCapacity with
    | false => simp [hread, hcap] at hok
    | true => rfl

theorem MediumsPublished.mediumTypes (h : MediumsPublished c phyStatus m) (t : MediumType) :
    m.mediumTypes t = if listed phyStatus t ∧ c.creates t then some (mediumOf t) else none := by
  rw [h.eq]
  exact (populate_spec c phyStatus t).1

/-- The dictionary and `_mediumTypes` agree. -/
theorem MediumsPublished.entry (h : MediumsPublished c phyStatus m) (t : MediumType) : m.entry t = m.mediumTypes t := by
  rw [h.eq]
  exact (populate_spec c phyStatus t).2.trans (populate_spec c phyStatus t).1.symm

end Populate

/-! ## The report -/

/-- The contents of the PHY's registers: a read that succeeds returns them. -/
def Answers (device : List Word → ℕ → Word) (phyAddr : Word) (regs : Word → BitVec 16) : Prop :=
  ∀ offset data requests reads, (phyReadWithAddr phyAddr offset data ⟨device, requests, reads⟩).ok = true →
    (phyReadWithAddr phyAddr offset data ⟨device, requests, reads⟩).data = regs offset

/-- All reads of a call of `phyUpdateLinkStatus` succeed, with an active link. -/
structure AllRead (phyAddr : Word) (stack : PhyStack) (b : PhyBus) : Prop where
  status : (phyReadWithAddr phyAddr phyRegStatus stack.phyStatus b).ok = true
  anar : (phyReadWithAddr phyAddr phyRegAnar stack.anar
    (phyReadWithAddr phyAddr phyRegStatus stack.phyStatus b).bus).ok = true
  anlp : (phyReadWithAddr phyAddr phyRegAnar stack.anlp (phyReadWithAddr phyAddr phyRegAnar stack.anar
    (phyReadWithAddr phyAddr phyRegStatus stack.phyStatus b).bus).bus).ok = true

/-- The best mode that both sides advertise. -/
def commonMode (regs : Word → BitVec 16) : Option MediumType :=
  bestMode fun t => advertises (regs phyRegAnar) t && advertises (regs phyRegAnlp) t

/-- On an active link the medium reported is the entry for the best common mode, and no medium is where a read
failed. -/
structure MediumRight (regs : Word → BitVec 16) (phyAddr : Word) (stack : PhyStack) (m : Mediums) (b : PhyBus) :
    Prop where
  best : AllRead phyAddr stack b → phyHas (regs phyRegStatus) phyRegStatusLink = true →
    (phyUpdateLinkStatus phyAddr stack m b).1 =
      some (ioNetworkLinkValid ||| ioNetworkLinkActive, (commonMode regs).bind m.entry)
  failed : ¬ AllRead phyAddr stack b → ∀ linkStatus medium,
    (phyUpdateLinkStatus phyAddr stack m b).1 = some (linkStatus, medium) → medium = none

/-- The mode that the code takes for the best common one, the best of this side, is advertised by the partner too; or
there is no medium for either of the two. -/
def PartnerAgrees (c : MediumCalls) (regs : Word → BitVec 16) : Prop :=
  ∀ own common, bestMode (advertises (regs phyRegAnar)) = some own → commonMode regs = some common →
    advertises (regs phyRegAnlp) own = true ∨ c.creates own = false ∧ c.creates common = false

section Report

variable {c : MediumCalls} {phyStatus : BitVec 16} {m : Mediums} {b : PhyBus} {regs : Word → BitVec 16} {phyAddr : Word}
  {stack : PhyStack} {t own common : MediumType}

/-- A read leaves the device alone. -/
theorem read_device (addr offset : Word) (data : BitVec 16) (b : PhyBus) :
    (phyReadWithAddr addr offset data b).bus.device = b.device := by
  obtain ⟨k, -, he⟩ := polls_bus (b.write (phyReadRequest addr offset))
  unfold phyReadWithAddr
  dsimp only
  rw [he]
  split <;> rfl

/-- What a read returns where it succeeds. -/
theorem Answers.read (h : Answers b.device phyAddr regs) {offset : Word} {data : BitVec 16}
    (hok : (phyReadWithAddr phyAddr offset data b).ok = true) :
    (phyReadWithAddr phyAddr offset data b).data = regs offset := h offset data b.requests b.reads hok

theorem Answers.next (h : Answers b.device phyAddr regs) (offset : Word) (data : BitVec 16) :
    Answers (phyReadWithAddr phyAddr offset data b).bus.device phyAddr regs := by
  rw [read_device]
  exact h

/-- The report where all reads succeed: the abilities of the partner are not among them. -/
theorem report_allRead (h : AllRead phyAddr stack b) (ha : Answers b.device phyAddr regs)
    (hlink : phyHas (regs phyRegStatus) phyRegStatusLink = true) :
    (phyUpdateLinkStatus phyAddr stack m b).1 =
      some (ioNetworkLinkValid ||| ioNetworkLinkActive, m.mediumTypes (mediumIndex (regs phyRegAnar))) := by
  have hanar := (ha.next phyRegStatus stack.phyStatus).read h.anar
  have hanlp := ((ha.next phyRegStatus stack.phyStatus).next phyRegAnar stack.anar).read h.anlp
  simp only [phyUpdateLinkStatus, phyGetActiveMedium, h.status, h.anar, h.anlp, ha.read h.status, hlink, hanar, hanlp,
    Bool.not_true, if_true, BitVec.and_self]
  rfl

/-- The report where a read fails. -/
theorem report_failed (h : ¬ AllRead phyAddr stack b) {linkStatus : Word} {medium : Option IONetworkMedium}
    (hr : (phyUpdateLinkStatus phyAddr stack m b).1 = some (linkStatus, medium)) : medium = none := by
  unfold phyUpdateLinkStatus phyGetActiveMedium at hr
  cases hstatus : (phyReadWithAddr phyAddr phyRegStatus stack.phyStatus b).ok with
  | false => simp [hstatus] at hr
  | true =>
    simp only [hstatus, Bool.not_true] at hr
    split at hr
    · cases hr
    split at hr
    · cases hanar : (phyReadWithAddr phyAddr phyRegAnar stack.anar
        (phyReadWithAddr phyAddr phyRegStatus stack.phyStatus b).bus).ok with
      | false => simp [hanar] at hr; exact hr.2.symm
      | true =>
        have hanlp : (phyReadWithAddr phyAddr phyRegAnar stack.anlp (phyReadWithAddr phyAddr phyRegAnar stack.anar
            (phyReadWithAddr phyAddr phyRegStatus stack.phyStatus b).bus).bus).ok = false := by
          rw [← Bool.not_eq_true]
          exact fun hanlp => h ⟨hstatus, hanar, hanlp⟩
        simp [hanar, hanlp] at hr
        exact hr.2.symm
    · simp at hr
      exact hr.2.symm

/-- The best common mode is a mode of both sides. -/
theorem commonMode_some (h : commonMode regs = some t) :
    advertises (regs phyRegAnar) t = true ∧ advertises (regs phyRegAnlp) t = true := by
  have hp := List.find?_some h
  rwa [Bool.and_eq_true] at hp

/-- The best mode of this side is the best common one exactly if the partner advertises it. -/
theorem bestMode_eq_iff (hown : bestMode (advertises (regs phyRegAnar)) = some own)
    (hcommon : commonMode regs = some common) : own = common ↔ advertises (regs phyRegAnlp) own = true := by
  constructor
  · rintro rfl
    exact (commonMode_some hcommon).2
  · intro hpartner
    have hsame : bestMode (advertises (regs phyRegAnar)) = commonMode regs := by
      refine find?_eq_find? (fun t ht => (Bool.and_eq_true_iff.mp ht).1) fun t ht => ?_
      obtain rfl : own = t := Option.some.inj (hown.symm.trans ht)
      exact Bool.and_eq_true_iff.mpr ⟨List.find?_some ht, hpartner⟩
    exact Option.some.inj (hown.symm.trans (hsame.trans hcommon))

/-- A mode that passes a test gives a best one. -/
theorem bestMode_isSome {p : MediumType → Bool} (hauto : p .auto = false) (ht : p t = true) :
    ∃ best, bestMode p = some best := by
  refine Option.isSome_iff_exists.mp (List.find?_isSome.mpr ⟨t, ?_, ht⟩)
  cases t with
  | auto => rw [hauto] at ht; cases ht
  | _ => simp [modes]

/-- Media of different modes are different, where there are any. -/
theorem MediumsPublished.mediumTypes_eq_iff (h : MediumsPublished c phyStatus m) (hown : listed phyStatus own = true)
    (hcommon : listed phyStatus common = true) :
    m.mediumTypes own = m.mediumTypes common ↔
      own = common ∨ c.creates own = false ∧ c.creates common = false := by
  rw [h.mediumTypes, h.mediumTypes]
  by_cases he : own = common
  · subst he
    simp
  · have hne : mediumOf own ≠ mediumOf common := by
      intro hm
      exact he (by rw [← mediumOf_index own, hm, mediumOf_index])
    cases c.creates own <;> cases c.creates common <;> simp [hown, hcommon, he, hne]

/-- **When the medium reported is the best common one.** -/
theorem medium_iff (hpub : MediumsPublished c phyStatus m) (ha : Answers b.device phyAddr regs)
    (hsupported : ∀ t, advertises (regs phyRegAnar) t = true → supports phyStatus t = true)
    (hboth : ∃ t, (advertises (regs phyRegAnar) t && advertises (regs phyRegAnlp) t) = true) :
    MediumRight regs phyAddr stack m b ↔
      ¬ AllRead phyAddr stack b ∨ phyHas (regs phyRegStatus) phyRegStatusLink = false ∨ PartnerAgrees c regs := by
  obtain ⟨t, ht⟩ := hboth
  obtain ⟨own, hown⟩ := bestMode_isSome (p := advertises (regs phyRegAnar)) (by simp [advertises, MediumType.anarMask,
    phyHas]) (Bool.and_eq_true_iff.mp ht).1
  obtain ⟨common, hcommon⟩ : ∃ common, commonMode regs = some common :=
    bestMode_isSome (by simp [advertises, MediumType.anarMask, phyHas]) ht
  have hlisted : ∀ t, advertises (regs phyRegAnar) t = true → listed phyStatus t = true := fun t ht => by
    rw [listed, hsupported t ht, Bool.true_or]
  have hmedia := hpub.mediumTypes_eq_iff (hlisted own (List.find?_some hown))
    (hlisted common (commonMode_some hcommon).1)
  have hpartner : PartnerAgrees c regs ↔ m.mediumTypes own = m.mediumTypes common := by
    rw [hmedia, bestMode_eq_iff hown hcommon]
    refine ⟨fun h => h own common hown hcommon, fun h own' common' hown' hcommon' => ?_⟩
    obtain rfl : own = own' := Option.some.inj (hown.symm.trans hown')
    obtain rfl : common = common' := Option.some.inj (hcommon.symm.trans hcommon')
    exact h
  have hentry : (commonMode regs).bind m.entry = m.mediumTypes common := by
    rw [hcommon, Option.bind_some, hpub.entry]
  rw [hpartner]
  constructor
  · intro h
    by_cases hread : AllRead phyAddr stack b
    · cases hlink : phyHas (regs phyRegStatus) phyRegStatusLink with
      | false => exact Or.inr (Or.inl rfl)
      | true =>
        have hbest := h.best hread hlink
        rw [report_allRead hread ha hlink, hentry, mediumIndex_eq hown] at hbest
        exact Or.inr (Or.inr (congrArg Prod.snd (Option.some.inj hbest)))
    · exact Or.inl hread
  · intro h
    refine ⟨fun hread hlink => ?_, fun hread _ _ => report_failed hread⟩
    have hsame := (h.resolve_left (not_not_intro hread)).resolve_left (by simp [hlink])
    rw [report_allRead hread ha hlink, hentry, mediumIndex_eq hown, hsame]

end Report

/-! ## A PHY with fixed contents -/

/-- A device that answers every request at once, with the contents that belong to it. -/
def readyDevice (contents : Word → BitVec 16) (requests : List Word) (_reads : ℕ) : Word :=
  (contents (requests.headD 0)).setWidth 32 <<< regPhyDataShift

theorem has_data (x : BitVec 16) : has (x.setWidth 32 <<< regPhyDataShift) regPhyRequest = false := by
  rw [regPhyRequest, has_bit (by decide), BitVec.getLsbD_shiftLeft]
  simp [regPhyDataShift]

theorem data_shift (x : BitVec 16) :
    (((x.setWidth 32 : Word) <<< regPhyDataShift) >>> regPhyDataShift).setWidth 16 = x := by
  refine BitVec.eq_of_getLsbD_eq fun i hi => ?_
  have hlt : 16 + i < 32 := by omega
  have hlt' : i < 32 := by omega
  simp [regPhyDataShift, hi, hlt, hlt']

theorem readyDevice_read (contents : Word → BitVec 16) (addr offset : Word) (data : BitVec 16) {b : PhyBus}
    (hb : b.device = readyDevice contents) : (phyReadWithAddr addr offset data b).ok = true ∧
      (phyReadWithAddr addr offset data b).data = contents (phyReadRequest addr offset) := by
  obtain ⟨device, requests, reads⟩ := b
  obtain rfl : device = readyDevice contents := hb
  obtain ⟨k, -, he⟩ := polls_bus (PhyBus.write ⟨readyDevice contents, requests, reads⟩ (phyReadRequest addr offset))
  have hfirst : clearAt PhyBus.poll 0
      (PhyBus.write ⟨readyDevice contents, requests, reads⟩ (phyReadRequest addr offset)) = true :=
    clearAt_zero.mpr (congrArg some (has_data (contents (phyReadRequest addr offset))))
  have htime := (inTime_countdown (phyTimeoutUS - 1) _).mpr ⟨0, by decide, hfirst⟩
  unfold phyReadWithAddr
  simp only [htime, if_true, he]
  exact ⟨trivial, data_shift _⟩

theorem readyDevice_answers (contents : Word → BitVec 16) (phyAddr : Word) :
    Answers (readyDevice contents) phyAddr fun offset => contents (phyReadRequest phyAddr offset) :=
  fun offset data requests reads _ =>
    (readyDevice_read contents phyAddr offset data (b := ⟨readyDevice contents, requests, reads⟩) rfl).2

theorem readyDevice_allRead (contents : Word → BitVec 16) (phyAddr : Word) (stack : PhyStack) {b : PhyBus}
    (hb : b.device = readyDevice contents) : AllRead phyAddr stack b where
  status := (readyDevice_read contents phyAddr _ _ hb).1
  anar := (readyDevice_read contents phyAddr _ _ ((read_device ..).trans hb)).1
  anlp := (readyDevice_read contents phyAddr _ _ ((read_device ..).trans ((read_device ..).trans hb))).1

/-- Every call succeeds. -/
def allCalls : MediumCalls := ⟨true, fun _ => true, fun _ => true, true⟩

/-- The media of a PHY at address 1. -/
def readyMediums (contents : Word → BitVec 16) : Mediums :=
  (phyGetSupportedMediums allCalls 1 0 .empty ⟨readyDevice contents, [], 0⟩).2.1

theorem readyDevice_mediums (contents : Word → BitVec 16) :
    MediumsPublished allCalls (contents (phyReadRequest 1 phyRegStatus)) (readyMediums contents) := by
  have hread := readyDevice_read contents 1 phyRegStatus 0 (b := ⟨readyDevice contents, [], 0⟩) rfl
  refine ⟨1, 0, ⟨readyDevice contents, [], 0⟩, hread.2, ?_, rfl⟩
  have hempty : Mediums.empty.mediumDict.isSome = false := rfl
  simp only [phyGetSupportedMediums, hempty, hread.1]
  rfl

/-- Both sides advertise the same. -/
theorem PartnerAgrees.of_eq {c : MediumCalls} {regs : Word → BitVec 16} (h : regs phyRegAnlp = regs phyRegAnar) :
    PartnerAgrees c regs := by
  intro own common hown _
  rw [h]
  exact Or.inl (List.find?_some hown)

/-- All modes, and an active link. -/
def allModes : BitVec 16 := 0x79E4

theorem allModes_supported (t : MediumType) (h : advertises allModes t = true) : supports allModes t = true := by
  revert h
  cases t <;> decide

/-- Both sides advertise all modes. -/
def equalPartner (_request : Word) : BitVec 16 := allModes

def equalRegs (offset : Word) : BitVec 16 := equalPartner (phyReadRequest 1 offset)

theorem medium_equal :
    MediumRight equalRegs 1 ⟨0, 0, 0⟩ (readyMediums equalPartner) ⟨readyDevice equalPartner, [], 0⟩ := by
  have hconst : ∀ offset, equalRegs offset = allModes := fun _ => rfl
  have hboth : (advertises (equalRegs phyRegAnar) .type100Full && advertises (equalRegs phyRegAnlp) .type100Full) =
      true := by decide
  have hans : Answers (readyDevice equalPartner) 1 equalRegs := readyDevice_answers equalPartner 1
  exact (medium_iff (b := ⟨readyDevice equalPartner, [], 0⟩) (readyDevice_mediums equalPartner) hans
    allModes_supported ⟨_, hboth⟩).mpr (Or.inr (Or.inr (.of_eq ((hconst _).trans (hconst _).symm))))

/-- The partner is able to do 10 half only. -/
def tenHalfPartner (request : Word) : BitVec 16 :=
  if request = phyReadRequest 1 phyRegAnlp then phyRegAnar10Half else allModes

def tenHalfRegs (offset : Word) : BitVec 16 := tenHalfPartner (phyReadRequest 1 offset)

/-- The medium reported is 100 full, where the partner can do 10 half only. -/
theorem medium_tenHalf :
    MediumsPublished allCalls (tenHalfRegs phyRegStatus) (readyMediums tenHalfPartner) ∧
      Answers (readyDevice tenHalfPartner) 1 tenHalfRegs ∧
      (∀ t, advertises (tenHalfRegs phyRegAnar) t = true → supports (tenHalfRegs phyRegStatus) t = true) ∧
      commonMode tenHalfRegs = some .type10Half ∧
      (phyUpdateLinkStatus 1 ⟨0, 0, 0⟩ (readyMediums tenHalfPartner) ⟨readyDevice tenHalfPartner, [], 0⟩).1 =
        some (ioNetworkLinkValid ||| ioNetworkLinkActive, some (mediumOf .type100Full)) ∧
      ¬ MediumRight tenHalfRegs 1 ⟨0, 0, 0⟩ (readyMediums tenHalfPartner) ⟨readyDevice tenHalfPartner, [], 0⟩ := by
  have hpub : MediumsPublished allCalls (tenHalfRegs phyRegStatus) (readyMediums tenHalfPartner) :=
    readyDevice_mediums tenHalfPartner
  have hans : Answers (readyDevice tenHalfPartner) 1 tenHalfRegs := readyDevice_answers tenHalfPartner 1
  have hread := readyDevice_allRead tenHalfPartner 1 ⟨0, 0, 0⟩ (b := ⟨readyDevice tenHalfPartner, [], 0⟩) rfl
  have hstatus : tenHalfRegs phyRegStatus = allModes := by decide
  have hanar : tenHalfRegs phyRegAnar = allModes := by decide
  have hcommon : commonMode tenHalfRegs = some .type10Half := by decide
  have hlink : phyHas (tenHalfRegs phyRegStatus) phyRegStatusLink = true := by decide
  have hindex : mediumIndex allModes = .type100Full := by decide
  have hfull : (readyMediums tenHalfPartner).mediumTypes .type100Full = some (mediumOf .type100Full) := by
    rw [hpub.mediumTypes, hstatus, if_pos (by decide)]
  have hhalf : (readyMediums tenHalfPartner).mediumTypes .type10Half = some (mediumOf .type10Half) := by
    rw [hpub.mediumTypes, hstatus, if_pos (by decide)]
  have hreport := report_allRead (m := readyMediums tenHalfPartner) hread hans hlink
  rw [hanar, hindex, hfull] at hreport
  refine ⟨hpub, hans, fun t ht => ?_, hcommon, hreport, fun h => ?_⟩
  · rw [hanar] at ht
    rw [hstatus]
    exact allModes_supported t ht
  · have hbest := h.best hread hlink
    rw [hreport, hcommon, Option.bind_some, hpub.entry, hhalf] at hbest
    have hindex' := congrArg (fun r => r.map fun x => x.2.map IONetworkMedium.index) hbest
    cases hindex'

end Osx360.Ethernet
