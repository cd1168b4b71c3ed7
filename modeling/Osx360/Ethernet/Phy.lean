import Osx360.Lib.Bits
import Osx360.Lib.Loop

/-!
# Access to the PHY

`phyWriteWithAddr`, `phyReadWithAddr` and `phyReset` of `XenonEthernet_PHY.cpp`. Each polls until a bit is clear or its
timeout is 0, and takes its verdict from the timeout: it is wrong exactly where the bit clears at the last poll
(`writeRight_iff`, `readRight_iff`, `resetRight_iff`).
-/

set_option autoImplicit false

namespace Osx360.Ethernet

open Osx360.Lib

def regPhyRequest : Word := bit 4
def regPhyOpRead : Word := 0
def regPhyOpWrite : Word := bit 5
def regPhyAddrShift : ℕ := 6
def regPhyRegShift : ℕ := 11
def regPhyDataShift : ℕ := 16

def phyTimeoutUS : ℕ := 100000

def phyRegControl : Word := 0x00
def phyRegControlReset : BitVec 16 := BitVec.twoPow 16 15

/-! ## The bus -/

/-- The PHY register of the controller: what a read returns is given by the requests written, the newest first, and the
number of the reads made. -/
structure PhyBus where
  device : List Word → ℕ → Word
  requests : List Word
  reads : ℕ

namespace PhyBus

def write (b : PhyBus) (request : Word) : PhyBus := { b with requests := request :: b.requests }

/-- What the next read returns. -/
def value (b : PhyBus) : Word := b.device b.requests b.reads

/-- The bus after the next read. -/
def next (b : PhyBus) : PhyBus := { b with reads := b.reads + 1 }

/-- The condition of a loop. -/
def busy (b : PhyBus) : Bool := has b.value regPhyRequest

def poll (b : PhyBus) : Option Bool × PhyBus := (some b.busy, b.next)

end PhyBus

def phyWriteRequest (addr offset : Word) (data : BitVec 16) : Word :=
  addr <<< regPhyAddrShift ||| offset <<< regPhyRegShift ||| regPhyRequest ||| regPhyOpWrite |||
    data.setWidth 32 <<< regPhyDataShift

def phyReadRequest (addr offset : Word) : Word :=
  addr <<< regPhyAddrShift ||| offset <<< regPhyRegShift ||| regPhyRequest ||| regPhyOpRead

def phyWriteWithAddr (addr offset : Word) (data : BitVec 16) (b : PhyBus) : Bool × PhyBus :=
  let r := countdown PhyBus.poll (phyTimeoutUS - 1) (b.write (phyWriteRequest addr offset data))
  (inTime r.1, r.2)

/-- The result of a read, `*data` and the bus afterwards. -/
structure PhyRead where
  ok : Bool
  data : BitVec 16
  bus : PhyBus

def phyReadWithAddr (addr offset : Word) (data : BitVec 16) (b : PhyBus) : PhyRead :=
  let r := countdown PhyBus.poll (phyTimeoutUS - 1) (b.write (phyReadRequest addr offset))
  if inTime r.1 then ⟨true, (r.2.value >>> regPhyDataShift).setWidth 16, r.2.next⟩
  else ⟨false, data, r.2⟩

/-- The condition of the loop of `phyReset`: the bus and `phyControl`. A read that fails ends it. -/
def pollReset (phyAddr : Word) (s : PhyBus × BitVec 16) : Option Bool × PhyBus × BitVec 16 :=
  let r := phyReadWithAddr phyAddr phyRegControl s.2 s.1
  (if r.ok then some (r.data &&& phyRegControlReset != 0) else none, r.bus, r.data)

/-- What `phyReset` does before its loop; `phyControl` is what the variable holds. -/
def startReset (phyAddr : Word) (phyControl : BitVec 16) (b : PhyBus) : Bool × PhyBus × BitVec 16 :=
  let r := phyReadWithAddr phyAddr phyRegControl phyControl b
  if !r.ok then (false, r.bus, r.data)
  else
    let phyControl := r.data ||| phyRegControlReset
    let w := phyWriteWithAddr phyAddr phyRegControl phyControl r.bus
    (w.1, w.2, phyControl)

def phyReset (phyAddr : Word) (phyControl : BitVec 16) (b : PhyBus) : Bool × PhyBus :=
  let s := startReset phyAddr phyControl b
  if !s.1 then (false, s.2.1)
  else
    let r := countdown (pollReset phyAddr) (phyTimeoutUS - 1) s.2
    (inTime r.1, r.2.1)

/-! ## Polls of the request bit -/

/-- Some of the polls that a timeout allows sees the bit clear. -/
def SeenClear (b : PhyBus) : Prop :=
  ∃ k < phyTimeoutUS, has (b.device b.requests (b.reads + k)) regPhyRequest = false

/-- The last poll that a timeout allows is the first to see the bit clear. -/
def ClearsLast (b : PhyBus) : Prop :=
  (∀ k < phyTimeoutUS - 1, has (b.device b.requests (b.reads + k)) regPhyRequest = true) ∧
    has (b.device b.requests (b.reads + (phyTimeoutUS - 1))) regPhyRequest = false

section Polls

variable {b : PhyBus} {addr offset phyAddr : Word} {data phyControl : BitVec 16}

theorem timeout_succ : phyTimeoutUS - 1 + 1 = phyTimeoutUS := rfl

theorem next_iterate (n : ℕ) (b : PhyBus) : PhyBus.next^[n] b = { b with reads := b.reads + n } := by
  induction n with
  | zero => rfl
  | succ n ih => rw [Function.iterate_succ_apply', ih]; rfl

theorem busy_iterate (n : ℕ) (b : PhyBus) :
    (PhyBus.next^[n] b).busy = has (b.device b.requests (b.reads + n)) regPhyRequest := by
  rw [next_iterate]
  rfl

theorem poll_eq (b : PhyBus) : b.poll = (some b.busy, b.next) := rfl

theorem clearsLast_iff : clearAt PhyBus.poll (phyTimeoutUS - 1) b = true ↔ ClearsLast b := by
  rw [clearAt_iff poll_eq]
  simp only [busy_iterate, ClearsLast]

theorem seenClear_iff : (∃ k < phyTimeoutUS - 1 + 1, clearAt PhyBus.poll k b = true) ↔ SeenClear b := by
  rw [exists_clearAt poll_eq, timeout_succ]
  simp only [busy_iterate, SeenClear]

/-- The verdict of a loop on the request bit. -/
theorem poll_verdict (b : PhyBus) :
    (inTime (countdown PhyBus.poll (phyTimeoutUS - 1) b).1 = true ↔ SeenClear b) ↔ ¬ ClearsLast b := by
  rw [← seenClear_iff, ← clearsLast_iff, countdown_verdict PhyBus.poll, Bool.not_eq_true]

/-- All that a loop on the request bit does is read, no more often than its timeout allows. -/
theorem polls_bus (b : PhyBus) : ∃ k ≤ phyTimeoutUS,
    (countdown PhyBus.poll (phyTimeoutUS - 1) b).2 = { b with reads := b.reads + k } := by
  obtain ⟨k, hk, he⟩ := countdown_polls PhyBus.poll (phyTimeoutUS - 1) b
  have hnext : (fun b : PhyBus => b.poll.2) = PhyBus.next := rfl
  rw [hnext, next_iterate] at he
  exact ⟨k + 1, Nat.succ_le_succ hk, he⟩

theorem poll_reads (b : PhyBus) :
    (countdown PhyBus.poll (phyTimeoutUS - 1) b).2.reads ≤ b.reads + phyTimeoutUS := by
  obtain ⟨k, hk, he⟩ := polls_bus b
  rw [he]
  exact Nat.add_le_add_left hk b.reads

/-! ## Writes and reads -/

structure WriteRight (addr offset : Word) (data : BitVec 16) (b : PhyBus) : Prop where
  polls : (phyWriteWithAddr addr offset data b).2.reads ≤ b.reads + phyTimeoutUS
  verdict : (phyWriteWithAddr addr offset data b).1 = true ↔ SeenClear (b.write (phyWriteRequest addr offset data))

/-- After the polls there is one read, of the data, which is stored where the call succeeds only. -/
structure ReadRight (addr offset : Word) (data : BitVec 16) (b : PhyBus) : Prop where
  polls : (phyReadWithAddr addr offset data b).bus.reads ≤ b.reads + phyTimeoutUS + 1
  stores : (phyReadWithAddr addr offset data b).ok = true ∨ (phyReadWithAddr addr offset data b).data = data
  verdict : (phyReadWithAddr addr offset data b).ok = true ↔ SeenClear (b.write (phyReadRequest addr offset))

theorem writeRight_iff :
    WriteRight addr offset data b ↔ ¬ ClearsLast (b.write (phyWriteRequest addr offset data)) := by
  rw [← poll_verdict]
  exact ⟨fun h => h.verdict, fun h => ⟨poll_reads _, h⟩⟩

theorem read_ok : (phyReadWithAddr addr offset data b).ok =
    inTime (countdown PhyBus.poll (phyTimeoutUS - 1) (b.write (phyReadRequest addr offset))).1 := by
  unfold phyReadWithAddr
  dsimp only
  split <;> simp [*]

theorem read_reads (addr offset : Word) (data : BitVec 16) (b : PhyBus) :
    (phyReadWithAddr addr offset data b).bus.reads ≤ b.reads + phyTimeoutUS + 1 := by
  have hpolls := poll_reads (b.write (phyReadRequest addr offset))
  have hreads : (b.write (phyReadRequest addr offset)).reads = b.reads := rfl
  unfold phyReadWithAddr
  dsimp only
  split
  · simp only [PhyBus.next]
    omega
  · dsimp only
    omega

theorem read_stores (addr offset : Word) (data : BitVec 16) (b : PhyBus) :
    (phyReadWithAddr addr offset data b).ok = true ∨ (phyReadWithAddr addr offset data b).data = data := by
  unfold phyReadWithAddr
  dsimp only
  split
  · exact Or.inl rfl
  · exact Or.inr rfl

theorem readRight_iff : ReadRight addr offset data b ↔ ¬ ClearsLast (b.write (phyReadRequest addr offset)) := by
  rw [← poll_verdict, ← read_ok]
  exact ⟨fun h => h.verdict, fun h => ⟨read_reads addr offset data b, read_stores addr offset data b, h⟩⟩

/-! ## The reset -/

/-- A loop of resets reads no more than each of its polls does. -/
theorem reset_reads (phyAddr : Word) (n : ℕ) (s : PhyBus × BitVec 16) :
    ((fun s => (pollReset phyAddr s).2)^[n] s).1.reads ≤ s.1.reads + n * (phyTimeoutUS + 1) := by
  induction n with
  | zero => simp
  | succ n ih =>
    rw [Function.iterate_succ_apply', Nat.succ_mul]
    have hread := read_reads phyAddr phyRegControl ((fun s => (pollReset phyAddr s).2)^[n] s).2
      ((fun s => (pollReset phyAddr s).2)^[n] s).1
    simp only [pollReset] at hread ih ⊢
    omega

/-- Every access before the loop succeeded, and some of the polls that its timeout allows sees the bit clear after polls
that succeeded. -/
def ResetSeen (phyAddr : Word) (phyControl : BitVec 16) (b : PhyBus) : Prop :=
  (startReset phyAddr phyControl b).1 = true ∧
    ∃ k < phyTimeoutUS, clearAt (pollReset phyAddr) k (startReset phyAddr phyControl b).2 = true

/-- Every access succeeds, and the last poll of the loop is the first to see the bit clear. -/
def ResetClearsLast (phyAddr : Word) (phyControl : BitVec 16) (b : PhyBus) : Prop :=
  (startReset phyAddr phyControl b).1 = true ∧
    clearAt (pollReset phyAddr) (phyTimeoutUS - 1) (startReset phyAddr phyControl b).2 = true

structure ResetRight (phyAddr : Word) (phyControl : BitVec 16) (b : PhyBus) : Prop where
  polls : (phyReset phyAddr phyControl b).2.reads ≤ b.reads + (phyTimeoutUS + 2) * (phyTimeoutUS + 1)
  verdict : (phyReset phyAddr phyControl b).1 = true ↔ ResetSeen phyAddr phyControl b

theorem startReset_reads (phyAddr : Word) (phyControl : BitVec 16) (b : PhyBus) :
    (startReset phyAddr phyControl b).2.1.reads ≤ b.reads + 2 * (phyTimeoutUS + 1) := by
  have hread := read_reads phyAddr phyRegControl phyControl b
  unfold startReset
  dsimp only
  split
  · dsimp only
    omega
  · have hwrite := poll_reads ((phyReadWithAddr phyAddr phyRegControl phyControl b).bus.write
      (phyWriteRequest phyAddr phyRegControl
        ((phyReadWithAddr phyAddr phyRegControl phyControl b).data ||| phyRegControlReset)))
    simp only [PhyBus.write] at hwrite
    simp only [phyWriteWithAddr, PhyBus.write]
    omega

theorem phyReset_reads (phyAddr : Word) (phyControl : BitVec 16) (b : PhyBus) :
    (phyReset phyAddr phyControl b).2.reads ≤ b.reads + (phyTimeoutUS + 2) * (phyTimeoutUS + 1) := by
  have hstart := startReset_reads phyAddr phyControl b
  rw [Nat.add_mul]
  unfold phyReset
  dsimp only
  split
  · dsimp only
    omega
  · obtain ⟨k, hk, he⟩ := countdown_polls (pollReset phyAddr) (phyTimeoutUS - 1)
      (startReset phyAddr phyControl b).2
    have hloop := reset_reads phyAddr (k + 1) (startReset phyAddr phyControl b).2
    have hmul : (k + 1) * (phyTimeoutUS + 1) ≤ phyTimeoutUS * (phyTimeoutUS + 1) :=
      Nat.mul_le_mul_right _ (Nat.succ_le_succ hk)
    rw [he]
    dsimp only
    omega

theorem resetRight_iff : ResetRight phyAddr phyControl b ↔ ¬ ResetClearsLast phyAddr phyControl b := by
  have hverdict := countdown_verdict (pollReset phyAddr) (phyTimeoutUS - 1) (startReset phyAddr phyControl b).2
  rw [timeout_succ] at hverdict
  have hresult : (phyReset phyAddr phyControl b).1 = true ↔ (startReset phyAddr phyControl b).1 = true ∧
      inTime (countdown (pollReset phyAddr) (phyTimeoutUS - 1) (startReset phyAddr phyControl b).2).1 = true := by
    unfold phyReset
    dsimp only
    cases (startReset phyAddr phyControl b).1 <;> simp
  have hright : ResetRight phyAddr phyControl b ↔
      ((phyReset phyAddr phyControl b).1 = true ↔ ResetSeen phyAddr phyControl b) :=
    ⟨fun h => h.verdict, fun h => ⟨phyReset_reads phyAddr phyControl b, h⟩⟩
  rw [hright, hresult, ResetSeen, ResetClearsLast]
  cases (startReset phyAddr phyControl b).1 with
  | false => simp
  | true => simpa using hverdict

/-- **When the verdicts are right.** -/
theorem phy_polls_iff (phyAddr addr offset : Word) (data phyControl : BitVec 16) (b : PhyBus) :
    (WriteRight addr offset data b ↔ ¬ ClearsLast (b.write (phyWriteRequest addr offset data))) ∧
      (ReadRight addr offset data b ↔ ¬ ClearsLast (b.write (phyReadRequest addr offset))) ∧
      (ResetRight phyAddr phyControl b ↔ ¬ ResetClearsLast phyAddr phyControl b) :=
  ⟨writeRight_iff, readRight_iff, resetRight_iff⟩

/-- A PHY that is ready at the last poll. -/
def lateBus : PhyBus := ⟨fun _ n => if n < 99999 then regPhyRequest else 0, [], 0⟩

theorem lateBus_clearsLast (request : Word) : ClearsLast (lateBus.write request) := by
  have hbusy : has regPhyRequest regPhyRequest = true := by decide
  refine ⟨fun k hk => ?_, ?_⟩
  · have hlt : 0 + k < 99999 := by
      simp only [phyTimeoutUS] at hk
      omega
    simp only [lateBus, PhyBus.write, if_pos hlt, hbusy]
  · have hlast : ¬ 0 + (phyTimeoutUS - 1) < 99999 := by
      simp only [phyTimeoutUS]
      omega
    simp only [lateBus, PhyBus.write, if_neg hlast]
    exact has_zero _

/-- It is read, and its answer is taken for a timeout. -/
theorem phy_late : SeenClear (lateBus.write (phyReadRequest 1 phyRegControl)) ∧
    (phyReadWithAddr 1 phyRegControl 0 lateBus).ok = false ∧ ¬ ReadRight 1 phyRegControl 0 lateBus := by
  have hlast := lateBus_clearsLast (phyReadRequest 1 phyRegControl)
  refine ⟨⟨phyTimeoutUS - 1, Nat.lt_of_succ_le (Nat.le_of_eq timeout_succ), hlast.2⟩, ?_,
    fun h => readRight_iff.mp h hlast⟩
  rw [read_ok, ← Bool.not_eq_true, inTime_countdown]
  rintro ⟨k, hk, hclear⟩
  exact absurd (clearAt_unique hclear (clearsLast_iff.mpr hlast)) (Nat.ne_of_lt hk)

end Polls

end Osx360.Ethernet
