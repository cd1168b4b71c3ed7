import Osx360.Ethernet.Medium

/-!
# The PHYs behind the controller

`phyProbe` of `XenonEthernet_PHY.cpp`, on a bus whose controller takes a request apart by the fields of its register,
passes it to the PHY it names, and is busy for a while that is shorter than the timeouts.

Whatever these delays are, a read returns the register that was asked for (`read_answers`), and so the probe finds the
first PHY that is there, or finds none (`phyProbe_finds`).
-/

set_option autoImplicit false

namespace Osx360.Ethernet

open Osx360.Lib

def phyMaxAddr : ℕ := 31

def phyRegId1 : Word := 0x02
def phyRegId2 : Word := 0x03

/-! ## Requests -/

/-- What a request asks for. -/
structure PhyRequest where
  addr : BitVec 5
  reg : BitVec 5
  write : Bool
  data : BitVec 16
  deriving DecidableEq

/-- The request as the controller takes it apart, by the masks of its fields. -/
def decodeRequest (w : Word) : Option PhyRequest :=
  if has w regPhyRequest then
    some ⟨w.extractLsb' regPhyAddrShift 5, w.extractLsb' regPhyRegShift 5, has w regPhyOpWrite,
      w.extractLsb' regPhyDataShift 16⟩
  else none

/-- A request of either kind. -/
def requestWord (addr reg : BitVec 5) (op : Word) (data : BitVec 16) : Word :=
  addr.setWidth 32 <<< regPhyAddrShift ||| reg.setWidth 32 <<< regPhyRegShift ||| regPhyRequest ||| op |||
    data.setWidth 32 <<< regPhyDataShift

section Requests

variable {addr reg : BitVec 5} {op : Word} {data : BitVec 16}

theorem phyWriteRequest_eq : phyWriteRequest (addr.setWidth 32) (reg.setWidth 32) data =
    requestWord addr reg regPhyOpWrite data := rfl

theorem phyReadRequest_eq : phyReadRequest (addr.setWidth 32) (reg.setWidth 32) =
    requestWord addr reg regPhyOpRead 0 := by
  simp [phyReadRequest, requestWord]

/-- The fields of a request do not overlap. -/
theorem decode_requestWord (hop : op = regPhyOpRead ∨ op = regPhyOpWrite) :
    decodeRequest (requestWord addr reg op data) = some ⟨addr, reg, op == regPhyOpWrite, data⟩ := by
  have hhigh : ∀ i, 6 ≤ i → op.getLsbD i = false := by
    rcases hop with rfl | rfl
    · intro i _
      simp [regPhyOpRead]
    · intro i hi
      rw [regPhyOpWrite, bit, BitVec.getLsbD_twoPow]
      simp
      omega
  have hrequest : has (requestWord addr reg op data) regPhyRequest = true := by
    rw [regPhyRequest, has_bit (by decide)]
    simp [requestWord, regPhyAddrShift, regPhyRegShift, regPhyDataShift, regPhyRequest, bit]
  have hwrite : has (requestWord addr reg op data) regPhyOpWrite = (op == regPhyOpWrite) := by
    rw [regPhyOpWrite, has_bit (by decide)]
    rcases hop with rfl | rfl
    · rw [show (regPhyOpRead == bit 5) = false from rfl]
      simp [requestWord, regPhyAddrShift, regPhyRegShift, regPhyDataShift, regPhyRequest, regPhyOpRead, bit]
    · simp [requestWord, regPhyAddrShift, regPhyRegShift, regPhyDataShift, regPhyRequest, regPhyOpWrite, bit]
  have haddr : (requestWord addr reg op data).extractLsb' regPhyAddrShift 5 = addr := by
    refine BitVec.eq_of_getLsbD_eq fun i hi => ?_
    simp [requestWord, regPhyAddrShift, regPhyRegShift, regPhyDataShift, regPhyRequest, bit, hhigh, hi]
    grind
  have hreg : (requestWord addr reg op data).extractLsb' regPhyRegShift 5 = reg := by
    refine BitVec.eq_of_getLsbD_eq fun i hi => ?_
    simp [requestWord, regPhyAddrShift, regPhyRegShift, regPhyDataShift, regPhyRequest, bit, hi]
    grind
  have hdata : (requestWord addr reg op data).extractLsb' regPhyDataShift 16 = data := by
    refine BitVec.eq_of_getLsbD_eq fun i hi => ?_
    simp [requestWord, regPhyAddrShift, regPhyRegShift, regPhyDataShift, regPhyRequest, bit, hi]
    grind
  rw [decodeRequest, if_pos hrequest, hwrite, haddr, hreg, hdata]

/-- The controller is asked for what the driver wants, of either kind. -/
theorem decode_writeRequest :
    decodeRequest (phyWriteRequest (addr.setWidth 32) (reg.setWidth 32) data) = some ⟨addr, reg, true, data⟩ := by
  rw [phyWriteRequest_eq, decode_requestWord (Or.inr rfl), beq_self_eq_true]

theorem decode_readRequest :
    decodeRequest (phyReadRequest (addr.setWidth 32) (reg.setWidth 32)) = some ⟨addr, reg, false, 0⟩ := by
  have hne : (regPhyOpRead == regPhyOpWrite) = false := rfl
  rw [phyReadRequest_eq, decode_requestWord (Or.inl rfl), hne]

end Requests

/-! ## The bus -/

/-- The registers of the PHYs, which may depend on the requests before; `device` is the register of the controller. -/
structure MdioAnswers (device : List Word → ℕ → Word) (phy : List Word → BitVec 5 → BitVec 5 → BitVec 16) : Prop where
  /-- Busy for less than the timeouts. -/
  ready : ∀ requests reads, ∃ k < phyTimeoutUS - 1, has (device requests (reads + k)) regPhyRequest = false
  stays : ∀ requests reads, has (device requests reads) regPhyRequest = false →
    has (device requests (reads + 1)) regPhyRequest = false
  data : ∀ w requests reads r, decodeRequest w = some r → r.write = false →
    has (device (w :: requests) reads) regPhyRequest = false →
    (device (w :: requests) reads >>> regPhyDataShift).setWidth 16 = phy requests r.addr r.reg

/-! ## The probe -/

/-- `phyStatus`, `_phyAddr` and the bus. -/
structure ProbeState where
  phyStatus : BitVec 16
  phyAddr : Word
  bus : PhyBus

/-- The PHY was found: the identifiers are read; `phyId` is what the variables for them hold. -/
def probeId (phyId : BitVec 16) (addr : Word) (s : ProbeState) : Bool × ProbeState :=
  let id1 := phyReadWithAddr addr phyRegId1 phyId s.bus
  if !id1.ok then (false, ⟨s.phyStatus, addr, id1.bus⟩)
  else
    let id2 := phyReadWithAddr addr phyRegId2 phyId id1.bus
    (id2.ok, ⟨s.phyStatus, addr, id2.bus⟩)

/-- The loop, from an address on. -/
def probeFrom (phyId : BitVec 16) : List ℕ → ProbeState → Bool × ProbeState
  | [], s => (false, s)
  | addr :: rest, s =>
    let first := phyReadWithAddr (BitVec.ofNat 32 addr) phyRegStatus s.phyStatus s.bus
    if !first.ok then probeFrom phyId rest ⟨first.data, s.phyAddr, first.bus⟩
    else
      let second := phyReadWithAddr (BitVec.ofNat 32 addr) phyRegStatus first.data first.bus
      if !second.ok then probeFrom phyId rest ⟨second.data, s.phyAddr, second.bus⟩
      else if second.data ≠ 0x0000 ∧ second.data ≠ 0xFFFF then
        probeId phyId (BitVec.ofNat 32 addr) ⟨second.data, s.phyAddr, second.bus⟩
      else probeFrom phyId rest ⟨second.data, s.phyAddr, second.bus⟩

def phyProbe (phyId : BitVec 16) (s : ProbeState) : Bool × ProbeState :=
  probeFrom phyId (List.range (phyMaxAddr + 1)) s

/-- A PHY is there: no PHY drives its status to all zeros, and an open bus reads as ones. -/
def Present (status : BitVec 16) : Prop := status ≠ 0x0000 ∧ status ≠ 0xFFFF

instance (status : BitVec 16) : Decidable (Present status) := instDecidableAnd

section Probe

variable {device : List Word → ℕ → Word} {phy : List Word → BitVec 5 → BitVec 5 → BitVec 16} {b : PhyBus}
  {addr reg : BitVec 5} {data phyId : BitVec 16} {present : BitVec 5 → Prop} {s : ProbeState} {rest : List ℕ}

/-- The loop ends in time, and at a poll from which on the request is done. -/
theorem MdioAnswers.poll (h : MdioAnswers device phy) (hb : b.device = device) :
    ∃ reads, has (device b.requests reads) regPhyRequest = false ∧
      inTime (countdown PhyBus.poll (phyTimeoutUS - 1) b).1 = true ∧
      (countdown PhyBus.poll (phyTimeoutUS - 1) b).2 = { b with reads } := by
  have htime : inTime (countdown PhyBus.poll (phyTimeoutUS - 1) b).1 = true := by
    rw [inTime_countdown, exists_clearAt poll_eq]
    obtain ⟨k, hk, hclear⟩ := h.ready b.requests b.reads
    exact ⟨k, hk, by rw [busy_iterate, hb, hclear]⟩
  obtain ⟨k, -, hclear, hbus⟩ := countdown_inTime htime
  have hdone := ((clearAt_iff poll_eq k b).mp hclear).2
  rw [busy_iterate, hb] at hdone
  refine ⟨b.reads + k + 1, h.stays _ _ hdone, htime, ?_⟩
  rw [hbus, show (fun s : PhyBus => s.poll.2) = PhyBus.next from rfl, next_iterate, Nat.add_assoc]

/-- **A read returns the register asked for**, whatever the delays. -/
theorem read_answers (h : MdioAnswers device phy) (hb : b.device = device) (addr reg : BitVec 5) (data : BitVec 16) :
    ∃ reads, phyReadWithAddr (addr.setWidth 32) (reg.setWidth 32) data b =
      ⟨true, phy b.requests addr reg,
        ⟨device, phyReadRequest (addr.setWidth 32) (reg.setWidth 32) :: b.requests, reads⟩⟩ := by
  obtain ⟨reads, hdone, htime, hbus⟩ :=
    h.poll (b := b.write (phyReadRequest (addr.setWidth 32) (reg.setWidth 32))) hb
  have hdata := h.data _ b.requests reads _ decode_readRequest rfl hdone
  refine ⟨reads + 1, ?_⟩
  rw [phyReadWithAddr, if_pos htime, hbus, ← hdata, ← hb]
  rfl

/-! ## The probe finds the PHY -/

/-- From `b` to `b'` only registers of the PHYs up to `addr` were asked for, and none was written. -/
def OnlyReads (addr : BitVec 5) (b b' : PhyBus) : Prop :=
  b'.device = b.device ∧ ∃ asked, b'.requests = asked ++ b.requests ∧
    ∀ w ∈ asked, ∃ r, decodeRequest w = some r ∧ r.write = false ∧ r.addr ≤ addr

theorem OnlyReads.refl (addr : BitVec 5) (b : PhyBus) : OnlyReads addr b b := ⟨rfl, [], rfl, by simp⟩

theorem OnlyReads.trans {b' b'' : PhyBus} (h : OnlyReads addr b b') (h' : OnlyReads addr b' b'') :
    OnlyReads addr b b'' := by
  obtain ⟨hdevice, asked, hrequests, hasked⟩ := h
  obtain ⟨hdevice', asked', hrequests', hasked'⟩ := h'
  refine ⟨hdevice'.trans hdevice, asked' ++ asked, by rw [hrequests', hrequests, List.append_assoc], fun w hw => ?_⟩
  exact (List.mem_append.mp hw).elim (hasked' w) (hasked w)

theorem OnlyReads.mono {b' : PhyBus} {addr' : BitVec 5} (h : OnlyReads addr b b') (hle : addr ≤ addr') :
    OnlyReads addr' b b' := by
  obtain ⟨hdevice, asked, hrequests, hasked⟩ := h
  refine ⟨hdevice, asked, hrequests, fun w hw => ?_⟩
  obtain ⟨r, hr, hwrite, hup⟩ := hasked w hw
  exact ⟨r, hr, hwrite, Nat.le_trans hup hle⟩

/-- `read_answers`, with what the bus was asked. -/
theorem read_present (h : MdioAnswers device phy) (hb : b.device = device) (addr reg : BitVec 5) (data : BitVec 16) :
    ∃ b', phyReadWithAddr (addr.setWidth 32) (reg.setWidth 32) data b = ⟨true, phy b.requests addr reg, b'⟩ ∧
      OnlyReads addr b b' := by
  obtain ⟨reads, hread⟩ := read_answers h hb addr reg data
  refine ⟨_, hread, hb.symm, [_], rfl, fun w hw => ⟨⟨addr, reg, false, 0⟩, ?_, rfl, Nat.le_refl _⟩⟩
  rw [List.mem_singleton.mp hw, decode_readRequest]

/-- One round of the loop. -/
theorem probeFrom_cons (phyId : BitVec 16) (rest : List ℕ) (h : MdioAnswers device phy)
    (hthere : ∀ requests a, Present (phy requests a 1) ↔ present a) (hb : s.bus.device = device) (addr : BitVec 5) :
    ∃ phyStatus bus, OnlyReads addr s.bus bus ∧ (Present phyStatus ↔ present addr) ∧
      probeFrom phyId (addr.toNat :: rest) s =
        if Present phyStatus then probeId phyId (addr.setWidth 32) ⟨phyStatus, s.phyAddr, bus⟩
        else probeFrom phyId rest ⟨phyStatus, s.phyAddr, bus⟩ := by
  have haddr : BitVec.ofNat 32 addr.toNat = addr.setWidth 32 := BitVec.ofNat_toNat 32 addr
  obtain ⟨b1, hfirst, hreads⟩ := read_present h hb addr 1 s.phyStatus
  obtain ⟨b2, hsecond, hreads'⟩ := read_present h (hreads.1.trans hb) addr 1 (phy s.bus.requests addr 1)
  refine ⟨_, b2, hreads.trans hreads', hthere b1.requests addr, ?_⟩
  have hstatus : phyRegStatus = (1 : BitVec 5).setWidth 32 := rfl
  rw [probeFrom, haddr, hstatus, hfirst]
  simp only [Bool.not_true, Bool.false_eq_true, if_false, hsecond]
  rfl

/-- No PHY is at the addresses of `skipped`. -/
theorem probeFrom_skip (phyId : BitVec 16) (rest : List ℕ) (h : MdioAnswers device phy)
    (hthere : ∀ requests a, Present (phy requests a 1) ↔ present a) (top : BitVec 5) (hb : s.bus.device = device)
    (skipped : List ℕ) (hskipped : ∀ n ∈ skipped, ∃ a : BitVec 5, a.toNat = n ∧ a ≤ top ∧ ¬ present a) :
    ∃ phyStatus bus, OnlyReads top s.bus bus ∧
      probeFrom phyId (skipped ++ rest) s = probeFrom phyId rest ⟨phyStatus, s.phyAddr, bus⟩ := by
  induction skipped generalizing s with
  | nil => exact ⟨s.phyStatus, s.bus, OnlyReads.refl top s.bus, rfl⟩
  | cons n skipped ih =>
    obtain ⟨a, rfl, hle, habsent⟩ := hskipped n List.mem_cons_self
    obtain ⟨phyStatus, bus, hreads, hiff, he⟩ :=
      probeFrom_cons phyId (skipped ++ rest) h hthere hb a
    rw [if_neg (fun hp => habsent (hiff.mp hp))] at he
    obtain ⟨phyStatus', bus', hreads', he'⟩ := ih (s := ⟨phyStatus, s.phyAddr, bus⟩) (hreads.1.trans hb)
      fun m hm => hskipped m (List.mem_cons_of_mem _ hm)
    exact ⟨phyStatus', bus', (hreads.mono hle).trans hreads', he.trans he'⟩

/-- The identifiers are read. -/
theorem probeId_answers (phyId : BitVec 16) (h : MdioAnswers device phy) (hb : s.bus.device = device)
    (addr : BitVec 5) :
    ∃ bus, OnlyReads addr s.bus bus ∧
      probeId phyId (addr.setWidth 32) s = (true, ⟨s.phyStatus, addr.setWidth 32, bus⟩) := by
  obtain ⟨b1, hfirst, hreads⟩ := read_present h hb addr 2 phyId
  obtain ⟨b2, hsecond, hreads'⟩ := read_present h (hreads.1.trans hb) addr 3 phyId
  refine ⟨b2, hreads.trans hreads', ?_⟩
  have hid1 : phyRegId1 = (2 : BitVec 5).setWidth 32 := rfl
  have hid2 : phyRegId2 = (3 : BitVec 5).setWidth 32 := rfl
  rw [probeId, hid1, hid2, hfirst]
  simp only [Bool.not_true, Bool.false_eq_true, if_false, hsecond]

/-- The addresses that the loop tries, cut at one of them. -/
theorem range_cut (a : BitVec 5) :
    List.range (phyMaxAddr + 1) = List.range a.toNat ++ a.toNat :: List.range' (a.toNat + 1) (31 - a.toNat) := by
  have ha : a.toNat < 32 := a.isLt
  have happend : List.range' 0 a.toNat ++ List.range' (0 + a.toNat) (31 - a.toNat + 1) =
      List.range' 0 (a.toNat + (31 - a.toNat + 1)) := List.range'_append_1
  rw [Nat.zero_add, List.range'_succ, show a.toNat + (31 - a.toNat + 1) = phyMaxAddr + 1 by
    simp only [phyMaxAddr]; omega] at happend
  rw [List.range_eq_range', List.range_eq_range', happend]

theorem toNat_addr {n : ℕ} (hn : n < 32) : (BitVec.ofNat 5 n).toNat = n := by
  rw [BitVec.toNat_ofNat]
  exact Nat.mod_eq_of_lt hn

/-- **The probe finds the first PHY**: the status of the address it settles on tells that one is there, below it there
is none, and it fails exactly where there is none at all. It writes no register of a PHY and asks none above. -/
theorem phyProbe_finds (phyId : BitVec 16) (h : MdioAnswers device phy)
    (hthere : ∀ requests a, Present (phy requests a 1) ↔ present a) (hb : s.bus.device = device) :
    (∀ a, present a → (∀ a' < a, ¬ present a') → (phyProbe phyId s).1 = true ∧
      (phyProbe phyId s).2.phyAddr = a.setWidth 32 ∧ OnlyReads a s.bus (phyProbe phyId s).2.bus) ∧
    ((∀ a, ¬ present a) → (phyProbe phyId s).1 = false ∧ (phyProbe phyId s).2.phyAddr = s.phyAddr ∧
      OnlyReads 31 s.bus (phyProbe phyId s).2.bus) := by
  refine ⟨fun a hpresent hfirst => ?_, fun habsent => ?_⟩
  · obtain ⟨phyStatus, bus, hreads, he⟩ := probeFrom_skip phyId
      (a.toNat :: List.range' (a.toNat + 1) (31 - a.toNat)) h hthere a hb (List.range a.toNat) fun n hn => by
        have hlt := List.mem_range.mp hn
        have hn' := toNat_addr (Nat.lt_trans hlt a.isLt)
        exact ⟨BitVec.ofNat 5 n, hn', BitVec.le_def.mpr (by omega), hfirst _ (BitVec.lt_def.mpr (by omega))⟩
    obtain ⟨phyStatus', bus', hreads', hiff, he'⟩ := probeFrom_cons phyId (List.range' (a.toNat + 1) (31 - a.toNat))
      (s := ⟨phyStatus, s.phyAddr, bus⟩) h hthere (hreads.1.trans hb) a
    obtain ⟨bus'', hreads'', hid⟩ := probeId_answers phyId (s := ⟨phyStatus', s.phyAddr, bus'⟩) h
      (hreads'.1.trans (hreads.1.trans hb)) a
    rw [if_pos (hiff.mpr hpresent), hid] at he'
    rw [phyProbe, range_cut a, he, he']
    exact ⟨rfl, rfl, hreads.trans (hreads'.trans hreads'')⟩
  · obtain ⟨phyStatus, bus, hreads, he⟩ := probeFrom_skip phyId [] h hthere 31 hb
      (List.range (phyMaxAddr + 1)) fun n hn => by
        have hlt : n < 32 := List.mem_range.mp hn
        have hn' := toNat_addr hlt
        exact ⟨BitVec.ofNat 5 n, hn', BitVec.le_def.mpr (by rw [hn']; exact Nat.le_of_lt_succ hlt), habsent _⟩
    rw [List.append_nil] at he
    rw [phyProbe, he]
    exact ⟨rfl, rfl, hreads⟩

end Probe

/-! ### A bus with one PHY -/

/-- A PHY at address 1, whose link is up; elsewhere the bus is open. -/
def onePhy (addr reg : BitVec 5) : BitVec 16 := if addr = 1 then (if reg = 1 then 0x796D else 0x0022) else 0xFFFF

def onePhyContents (w : Word) : BitVec 16 :=
  match decodeRequest w with
  | some r => onePhy r.addr r.reg
  | none => 0

theorem onePhy_answers : MdioAnswers (readyDevice onePhyContents) fun _ => onePhy where
  ready _ _ := ⟨0, by decide, has_data _⟩
  stays _ _ _ := has_data _
  data w requests reads r hr _ _ := by
    have hcontents : onePhyContents w = onePhy r.addr r.reg := by rw [onePhyContents, hr]
    rw [← hcontents]
    exact data_shift _

theorem onePhy_present (a : BitVec 5) : Present (onePhy a 1) ↔ a = 1 := by
  revert a
  decide

theorem phyProbe_finds_one :
    (phyProbe 0 ⟨0, 0, ⟨readyDevice onePhyContents, [], 0⟩⟩).1 = true ∧
      (phyProbe 0 ⟨0, 0, ⟨readyDevice onePhyContents, [], 0⟩⟩).2.phyAddr = 1 := by
  have hfinds := (phyProbe_finds 0 (s := ⟨0, 0, ⟨readyDevice onePhyContents, [], 0⟩⟩) onePhy_answers
    (fun _ a => onePhy_present a) rfl).1 1 rfl fun a' ha' => by
      rintro rfl
      exact Nat.lt_irrefl _ ha'
  exact ⟨hfinds.1, hfinds.2.1⟩

end Osx360.Ethernet
