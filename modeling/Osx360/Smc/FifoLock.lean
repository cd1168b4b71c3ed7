import Mathlib.Data.List.GetD
import Mathlib.Logic.Function.Basic
import Osx360.Lib.Bytes
import Osx360.Lib.Mutex
import Osx360.Lib.Run
import Osx360.Smc.Filter

/-!
# The registers of the FIFOs

`writeMessage` and `readMessage` access by access, on any number of CPUs, under `_lock` with interrupts disabled. A
thread may call `writeMessage` on any CPU, and wherever interrupts are enabled the filter may start, which reads a
message and cancels a power off. Nothing is known of the SMC but that its input is ready when it has presented words.

- The accesses of a call are those of a whole message, or of a call that gave up (`Whole`), and no access of another
  call is among them; the messages are read in the order in which they were presented (`fifo_safe`);
- a call that has the lock cannot be held up: its CPU takes no interrupt, it always has a step, and it releases the
  lock after a bounded number of them (`fifo_released`).
-/

set_option autoImplicit false

namespace Osx360.Smc

open Osx360.Lib

universe u

def smcTimeout : Word := 10000000

def fifoOutStatusReady : Word := bit 2
def fifoInStatusReady : Word := bit 2

/-! ## Messages as words -/

/-- `bytes32`, in the byte order of the machine. -/
def Message.bytes32 (message : Message) : List Word := wordsBe (message.command :: List.ofFn message.data)

/-- The message whose `bytes32` were stored. -/
def Message.ofBytes32 (ws : List Word) : Message :=
  ⟨(bytesBe ws).getD 0 0, fun i => (bytesBe ws).getD (i.val + 1) 0⟩

@[simp] theorem length_bytes32 (message : Message) : message.bytes32.length = 4 := by
  simp [Message.bytes32, length_wordsBe]

theorem ofBytes32_bytes32 (message : Message) : Message.ofBytes32 message.bytes32 = message := by
  have hbytes : bytesBe message.bytes32 = message.command :: List.ofFn message.data := bytesBe_wordsBe (by simp)
  rw [Message.ofBytes32, hbytes]
  refine congrArg (Message.mk message.command) (funext fun i => ?_)
  rw [List.getD_cons_succ, List.getD_eq_getElem _ _ (by rw [List.length_ofFn]; exact i.isLt), List.getElem_ofFn]

/-! ## The calls -/

/-- An access to the registers of the FIFOs, with the value read or written; a status that is read counts by its ready
bit. -/
inductive Access
  | readOutStatus (ready : Bool)
  | writeOutStatus (data : Word)
  | writeOutData (data : Word)
  | readInStatus (ready : Bool)
  | writeInStatus (data : Word)
  | readInData (data : Word)

inductive WritePc
  | lock
  | poll (timeout : Word)
  | signal
  | data (i : ℕ)
  | unlock (r : IOReturn)

inductive ReadPc
  | lock
  | check
  | signal
  | data (i : ℕ)
  | unlock (r : IOReturn)

inductive FilterPc
  | start
  | reading
  | switch (message : Message)
  | cancelling
  | ack

/-- A call on a CPU. `ints` is what the lock saved, `message` of `readMessage` what it was called with, and `words` what
it has stored of the message. -/
inductive Frame
  | write (message : Message) (ints : Bool) (pc : WritePc)
  | read (message : Message) (ints : Bool) (pc : ReadPc) (words : List Word)
  | filter (pc : FilterPc)

/-- The call has the lock. -/
def Frame.critical : Frame → Bool
  | .write _ _ .lock => false
  | .write _ _ _ => true
  | .read _ _ .lock _ => false
  | .read _ _ _ _ => true
  | .filter _ => false

/-- A call has just taken the lock. -/
inductive Acquired : Frame → Frame → Prop
  | write {m : Message} {i : Bool} : Acquired (.write m i .lock) (.write m i (.poll smcTimeout))
  | read {m : Message} {i : Bool} : Acquired (.read m i .lock []) (.read m i .check [])

/-- The steps between `IOSimpleLockLockDisableInterrupt` and `IOSimpleLockUnlockEnableInterrupt`. -/
inductive FrameStep : Frame → Access → Frame → Prop
  | ready {m : Message} {i : Bool} {t : Word} :
      FrameStep (.write m i (.poll t)) (.readOutStatus true) (.write m i .signal)
  | timeout {m : Message} {i : Bool} :
      FrameStep (.write m i (.poll 0)) (.readOutStatus false) (.write m i (.unlock .timeout))
  | again {m : Message} {i : Bool} {t : Word} : t ≠ 0 →
      FrameStep (.write m i (.poll t)) (.readOutStatus false) (.write m i (.poll (t - 1)))
  | signalOut {m : Message} {i : Bool} :
      FrameStep (.write m i .signal) (.writeOutStatus fifoOutStatusReady) (.write m i (.data 0))
  | writeData {m : Message} {i : Bool} {k : ℕ} (h : k < m.bytes32.length) :
      FrameStep (.write m i (.data k)) (.writeOutData m.bytes32[k]) (.write m i (.data (k + 1)))
  | writeDone {m : Message} {i : Bool} {k : ℕ} : m.bytes32.length ≤ k →
      FrameStep (.write m i (.data k)) (.writeOutStatus 0) (.write m i (.unlock .success))
  | notReady {m : Message} {i : Bool} {ws : List Word} :
      FrameStep (.read m i .check ws) (.readInStatus false) (.read m i (.unlock .notReady) ws)
  | presented {m : Message} {i : Bool} {ws : List Word} :
      FrameStep (.read m i .check ws) (.readInStatus true) (.read m i .signal ws)
  | signalIn {m : Message} {i : Bool} {ws : List Word} :
      FrameStep (.read m i .signal ws) (.writeInStatus fifoInStatusReady) (.read m i (.data 0) ws)
  | readData {m : Message} {i : Bool} {k : ℕ} {ws : List Word} {data : Word} : k < 4 →
      FrameStep (.read m i (.data k) ws) (.readInData data) (.read m i (.data (k + 1)) (ws ++ [data]))
  | readDone {m : Message} {i : Bool} {k : ℕ} {ws : List Word} : 4 ≤ k →
      FrameStep (.read m i (.data k) ws) (.writeInStatus 0) (.read m i (.unlock .success) ws)

/-- The words that the SMC has presented, after an access; the ready bit tells whether there are any. -/
def Access.takes : Access → List Word → List Word → Prop
  | .readInStatus ready, input, input' => ready = !input.isEmpty ∧ input' = input
  | .readInData data, input, input' => input = data :: input'
  | _, input, input' => input' = input

/-- A call that returned, with the contents of `*message` at its end. -/
inductive Operation
  | write (message : Message)
  | read (message : Message)

structure Section where
  op : Operation
  result : IOReturn
  accesses : List Access

/-- The call that a call returns to goes on with the message. -/
def resume (message : Message) : List Frame → List Frame
  | .filter .reading :: rest => .filter (.switch message) :: rest
  | .filter .cancelling :: rest => .filter .ack :: rest
  | stack => stack

/-- The `switch` of `filterInterrupt` calls `cancelPowerOff`. -/
def Message.cancels (message : Message) : Prop :=
  message.command = commandAsync ∧ message.data 0 = asyncPowerButton

/-! ## The system -/

/-- The lock, the CPUs with their calls, newest first, what the SMC has presented and the driver has not read, and the
history: the accesses since the lock was taken, the calls that returned, and the messages that were presented. -/
structure FifoWorld (ι : Type u) where
  locked : Bool
  ints : ι → Bool
  stack : ι → List Frame
  input : List Word
  current : List Access
  sections : List Section
  presented : List Message

inductive FifoLabel (ι : Type u)
  | call (c : ι) (message : Message)
  | interrupt (c : ι)
  | readMessage (c : ι) (message : Message)
  | cancelPowerOff (c : ι)
  | ignore (c : ι)
  | ack (c : ι)
  | acquire (c : ι)
  | access (c : ι) (a : Access)
  | release (c : ι)
  | present (message : Message)

def FifoLabel.cpu {ι : Type u} : FifoLabel ι → Option ι
  | .call c _ | .interrupt c | .readMessage c _ | .cancelPowerOff c | .ignore c | .ack c | .acquire c | .access c _
  | .release c => some c
  | .present _ => none

section System

variable {ι : Type u} [DecidableEq ι]

/-- The calls on a CPU, and whether it takes interrupts. -/
def FifoWorld.setCpu (w : FifoWorld ι) (c : ι) (ints : Bool) (stack : List Frame) : FifoWorld ι :=
  { w with ints := Function.update w.ints c ints, stack := Function.update w.stack c stack }

/-- The steps. The lock is taken with interrupts disabled, and the primary interrupt context has them disabled. -/
inductive FifoStep : FifoWorld ι → FifoLabel ι → FifoWorld ι → Prop
  | call {w : FifoWorld ι} {c : ι} {m : Message} : w.stack c = [] →
      FifoStep w (.call c m) (w.setCpu c false [.write m (w.ints c) .lock])
  | interrupt {w : FifoWorld ι} {c : ι} : w.ints c = true →
      FifoStep w (.interrupt c) (w.setCpu c false (.filter .start :: w.stack c))
  | readMessage {w : FifoWorld ι} {c : ι} {rest : List Frame} {m : Message} : w.stack c = .filter .start :: rest →
      FifoStep w (.readMessage c m)
        (w.setCpu c false (.read m (w.ints c) .lock [] :: .filter .reading :: rest))
  | cancelPowerOff {w : FifoWorld ι} {c : ι} {rest : List Frame} {m : Message} :
      w.stack c = .filter (.switch m) :: rest → m.cancels →
      FifoStep w (.cancelPowerOff c) (w.setCpu c false
        (.write (.setPower powerReboot powerRebootCancel) (w.ints c) .lock :: .filter .cancelling :: rest))
  | ignore {w : FifoWorld ι} {c : ι} {rest : List Frame} {m : Message} :
      w.stack c = .filter (.switch m) :: rest → ¬ m.cancels →
      FifoStep w (.ignore c) (w.setCpu c (w.ints c) (.filter .ack :: rest))
  | ack {w : FifoWorld ι} {c : ι} {rest : List Frame} : w.stack c = .filter .ack :: rest →
      FifoStep w (.ack c) (w.setCpu c true rest)
  | acquire {w : FifoWorld ι} {c : ι} {f f' : Frame} {rest : List Frame} : w.stack c = f :: rest → Acquired f f' →
      w.locked = false → FifoStep w (.acquire c) { w.setCpu c (w.ints c) (f' :: rest) with locked := true }
  | access {w : FifoWorld ι} {c : ι} {f f' : Frame} {rest : List Frame} {a : Access} {input : List Word} :
      w.stack c = f :: rest → FrameStep f a f' → a.takes w.input input →
      FifoStep w (.access c a)
        { w.setCpu c (w.ints c) (f' :: rest) with input := input, current := w.current ++ [a] }
  | releaseWrite {w : FifoWorld ι} {c : ι} {m : Message} {i : Bool} {r : IOReturn} {rest : List Frame} :
      w.stack c = .write m i (.unlock r) :: rest →
      FifoStep w (.release c) { w.setCpu c i (resume m rest) with
        locked := false
        current := []
        sections := w.sections ++ [⟨.write m, r, w.current⟩] }
  | releaseRead {w : FifoWorld ι} {c : ι} {m m' : Message} {i : Bool} {r : IOReturn} {ws : List Word}
      {rest : List Frame} : w.stack c = .read m i (.unlock r) ws :: rest →
      m' = (if r = .success then .ofBytes32 ws else m) →
      FifoStep w (.release c) { w.setCpu c i (resume m' rest) with
        locked := false
        current := []
        sections := w.sections ++ [⟨.read m', r, w.current⟩] }
  | present {w : FifoWorld ι} {m : Message} :
      FifoStep w (.present m) { w with input := w.input ++ m.bytes32, presented := w.presented ++ [m] }

def FifoInit (w : FifoWorld ι) : Prop :=
  w.locked = false ∧ (∀ c, w.ints c = true) ∧ (∀ c, w.stack c = []) ∧ w.input = [] ∧ w.current = [] ∧
    w.sections = [] ∧ w.presented = []

end System

/-! ## The accesses of a call -/

/-- `k` reads of a status that is not ready. -/
def polls (k : ℕ) : List Access := List.replicate k (.readOutStatus false)

/-- What a call that returned did to the registers. -/
inductive Whole : Section → Prop
  | sent {m : Message} {k : ℕ} : k ≤ smcTimeout.toNat → Whole ⟨.write m, .success, polls k ++
      (.readOutStatus true :: .writeOutStatus fifoOutStatusReady :: m.bytes32.map .writeOutData) ++
        [.writeOutStatus 0]⟩
  | timedOut {m : Message} : Whole ⟨.write m, .timeout, polls (smcTimeout.toNat + 1)⟩
  | received {m : Message} : Whole ⟨.read m, .success,
      (.readInStatus true :: .writeInStatus fifoInStatusReady :: m.bytes32.map .readInData) ++ [.writeInStatus 0]⟩
  | notReady {m : Message} : Whole ⟨.read m, .notReady, [.readInStatus false]⟩

/-- What a call that has the lock has done. -/
def Accessed : Frame → List Access → Prop
  | .write _ _ (.poll t), as => t.toNat ≤ smcTimeout.toNat ∧ as = polls (smcTimeout.toNat - t.toNat)
  | .write _ _ .signal, as => ∃ k ≤ smcTimeout.toNat, as = polls k ++ [.readOutStatus true]
  | .write m _ (.data i), as => i ≤ 4 ∧ ∃ k ≤ smcTimeout.toNat, as = polls k ++
      .readOutStatus true :: .writeOutStatus fifoOutStatusReady :: (m.bytes32.take i).map .writeOutData
  | .write m _ (.unlock r), as => Whole ⟨.write m, r, as⟩
  | .read _ _ .check ws, as => ws = [] ∧ as = []
  | .read _ _ .signal ws, as => ws = [] ∧ as = [.readInStatus true]
  | .read _ _ (.data i) ws, as => i ≤ 4 ∧ ws.length = i ∧
      as = .readInStatus true :: .writeInStatus fifoInStatusReady :: ws.map .readInData
  | .read _ _ (.unlock r) ws, as => r = .success ∧ ws.length = 4 ∧
      as = (.readInStatus true :: .writeInStatus fifoInStatusReady :: ws.map .readInData) ++ [.writeInStatus 0] ∨
      r = .notReady ∧ as = [.readInStatus false]
  | _, _ => True

section Accesses

variable {f f' : Frame} {a : Access} {as : List Access}

theorem polls_succ (k : ℕ) : polls (k + 1) = polls k ++ [.readOutStatus false] := List.replicate_succ'

theorem acquired_accessed (h : Acquired f f') : f.critical = false ∧ f'.critical = true ∧ Accessed f' [] := by
  cases h with
  | write =>
    refine ⟨rfl, rfl, Nat.le_refl _, ?_⟩
    rw [Nat.sub_self]
    rfl
  | read => exact ⟨rfl, rfl, rfl, rfl⟩

theorem frameStep_critical (h : FrameStep f a f') : f.critical = true ∧ f'.critical = true := by
  cases h <;> exact ⟨rfl, rfl⟩

/-- Every access of a call goes on with what it has done. -/
theorem accessed_step (h : Accessed f as) (hs : FrameStep f a f') : Accessed f' (as ++ [a]) := by
  cases hs with
  | ready =>
    obtain ⟨-, rfl⟩ := h
    exact ⟨_, Nat.sub_le _ _, rfl⟩
  | timeout =>
    obtain ⟨-, rfl⟩ := h
    rw [show (0 : Word).toNat = 0 from rfl, Nat.sub_zero, ← polls_succ]
    exact .timedOut
  | @again m i t ht =>
    obtain ⟨hle, rfl⟩ := h
    have hpos : 0 < t.toNat := Nat.pos_of_ne_zero fun h0 => ht (BitVec.toNat_inj.mp h0)
    have hpred : (t - 1).toNat = t.toNat - 1 := BitVec.toNat_sub_of_le (BitVec.le_def.mpr hpos)
    refine ⟨by omega, ?_⟩
    rw [hpred, ← polls_succ]
    exact congrArg polls (by omega)
  | signalOut =>
    obtain ⟨k, hk, rfl⟩ := h
    exact ⟨Nat.zero_le _, k, hk, by simp⟩
  | writeData hlt =>
    obtain ⟨-, k, hk, rfl⟩ := h
    refine ⟨Nat.le_trans hlt (Nat.le_of_eq (length_bytes32 _)), k, hk, ?_⟩
    rw [List.take_add_one, List.getElem?_eq_getElem hlt]
    simp only [Option.toList_some, List.map_append, List.map_cons, List.map_nil, List.append_assoc, List.cons_append]
  | @writeDone m i j hle =>
    obtain ⟨-, k, hk, rfl⟩ := h
    rw [List.take_of_length_le hle]
    exact .sent hk
  | notReady =>
    obtain ⟨-, rfl⟩ := h
    exact Or.inr ⟨rfl, rfl⟩
  | presented =>
    obtain ⟨hws, rfl⟩ := h
    exact ⟨hws, rfl⟩
  | signalIn =>
    obtain ⟨rfl, rfl⟩ := h
    exact ⟨Nat.zero_le _, rfl, rfl⟩
  | readData hlt =>
    obtain ⟨-, hlen, rfl⟩ := h
    exact ⟨hlt, by rw [List.length_append, hlen]; rfl, by simp⟩
  | readDone hle =>
    obtain ⟨hk, hlen, rfl⟩ := h
    exact Or.inl ⟨rfl, by omega, rfl⟩

end Accesses

/-! ## The invariant -/

/-- The calls that a CPU may be in, innermost first. -/
inductive Shape : List Frame → Prop
  | idle : Shape []
  | thread (m : Message) (pc : WritePc) : Shape [.write m true pc]
  | start : Shape [.filter .start]
  | reading (m : Message) (pc : ReadPc) (ws : List Word) : Shape [.read m false pc ws, .filter .reading]
  | switch (m : Message) : Shape [.filter (.switch m)]
  | cancelling (m : Message) (pc : WritePc) : Shape [.write m false pc, .filter .cancelling]
  | ack : Shape [.filter .ack]

/-- The innermost call has the lock. -/
def Inside (stack : List Frame) : Prop := ∃ f ∈ stack.head?, f.critical = true

/-- The words that were read. -/
def inWords (as : List Access) : List Word :=
  as.filterMap fun a => match a with
    | .readInData data => some data
    | _ => none

/-- The messages that calls of `readMessage` returned. -/
def received (sections : List Section) : List Message :=
  sections.filterMap fun x => match x.op, x.result with
    | .read m, .success => some m
    | _, _ => none

section Invariant

variable {ι : Type u} [DecidableEq ι] {w v : FifoWorld ι} {l : FifoLabel ι} {c d : ι} {f f' : Frame} {a : Access}
  {rest : List Frame} {pc : FilterPc}

structure FifoInv (w : FifoWorld ι) : Prop where
  shape : ∀ c, Shape (w.stack c)
  ints : ∀ c, w.ints c = (w.stack c).isEmpty
  lock : Exclusive w.locked fun c => Inside (w.stack c)
  free : w.locked = false → w.current = []
  accessed : ∀ c f rest, w.stack c = f :: rest → f.critical = true → Accessed f w.current
  whole : ∀ x ∈ w.sections, Whole x
  input : ∃ left, w.presented = received w.sections ++ left ∧
    left.flatMap Message.bytes32 = inWords w.current ++ w.input ∧ (.readInStatus true ∈ w.current → left ≠ [])

theorem inside_cons : Inside (f :: rest) ↔ f.critical = true := by simp [Inside]

theorem shape_frameStep (h : Shape (f :: rest)) (hs : FrameStep f a f') : Shape (f' :: rest) := by
  cases hs <;> cases h <;> constructor

theorem shape_acquired (h : Shape (f :: rest)) (hs : Acquired f f') : Shape (f' :: rest) := by
  cases hs <;> cases h <;> constructor

/-- The calls on another CPU. -/
theorem stack_other (hs : FifoStep w l v) (hc : l.cpu ≠ some c) : v.stack c = w.stack c := by
  cases hs with
  | present => rfl
  | _ => exact Function.update_of_ne (fun h => hc (congrArg some h.symm)) _ _

omit [DecidableEq ι] in
theorem fifoInv_init (h : FifoInit w) : FifoInv w := by
  obtain ⟨hlocked, hints, hstack, hinput, hcurrent, hsections, hpresented⟩ := h
  have hout : ∀ c, ¬ Inside (w.stack c) := fun c => by simp [Inside, hstack]
  refine ⟨fun c => ?_, fun c => ?_, ?_, fun _ => hcurrent, fun c f rest hf => ?_, ?_, [], ?_⟩
  · rw [hstack]
    exact .idle
  · rw [hints, hstack]
    rfl
  · rw [hlocked]
    exact ⟨⟨Bool.noConfusion, fun ⟨c, hc⟩ => absurd hc (hout c)⟩, fun c _ hc => absurd hc (hout c)⟩
  · rw [hstack] at hf
    cases hf
  · simp [hsections]
  · simp [hpresented, hsections, hinput, hcurrent, received, inWords]

/-! ### One CPU changes -/

variable {i : Bool} {s : List Frame}

theorem shape_update (h : FifoInv w) (hs : Shape s) (d : ι) : Shape (Function.update w.stack c s d) := by
  by_cases hd : d = c
  · subst hd
    rwa [Function.update_self]
  · rw [Function.update_of_ne hd]
    exact h.shape d

theorem ints_update (h : FifoInv w) (hi : i = s.isEmpty) (d : ι) :
    Function.update w.ints c i d = (Function.update w.stack c s d).isEmpty := by
  by_cases hd : d = c
  · subst hd
    rwa [Function.update_self, Function.update_self]
  · rw [Function.update_of_ne hd, Function.update_of_ne hd]
    exact h.ints d

theorem inside_update (w : FifoWorld ι) (s : List Frame) (hd : d ≠ c) :
    Inside (Function.update w.stack c s d) ↔ Inside (w.stack d) := by
  rw [Function.update_of_ne hd]

theorem inside_update_self (w : FifoWorld ι) (c : ι) (s : List Frame) :
    Inside (Function.update w.stack c s c) ↔ Inside s := by
  rw [Function.update_self]

/-- The calls that have the lock did these accesses. -/
theorem accessed_update {as : List Access} (hs : ∀ f rest, s = f :: rest → f.critical = true → Accessed f as)
    (hother : ∀ d, d ≠ c → ∀ f rest, w.stack d = f :: rest → f.critical = true → Accessed f as) (d : ι) (f : Frame)
    (rest : List Frame) (hf : Function.update w.stack c s d = f :: rest) (hcrit : f.critical = true) :
    Accessed f as := by
  by_cases hd : d = c
  · subst hd
    rw [Function.update_self] at hf
    exact hs f rest hf hcrit
  · rw [Function.update_of_ne hd] at hf
    exact hother d hd f rest hf hcrit

/-- A step outside the lock. -/
theorem fifoInv_outside (h : FifoInv w) (hs : Shape s) (hi : i = s.isEmpty) (hold : ¬ Inside (w.stack c))
    (hnew : ¬ Inside s) : FifoInv (w.setCpu c i s) := by
  refine ⟨shape_update h hs, ints_update h hi, h.lock.congr fun d => ?_, h.free, ?_, h.whole, h.input⟩
  · by_cases hd : d = c
    · subst hd
      exact iff_of_false (fun hin => hnew ((inside_update_self w d s).mp hin)) hold
    · exact inside_update w s hd
  · refine accessed_update (fun f rest hf hcrit => ?_) fun d _ => h.accessed d
    subst hf
    exact absurd (inside_cons.mpr hcrit) hnew

/-! ### The lock -/

theorem fifoInv_acquire (h : FifoInv w) (hf : w.stack c = f :: rest) (hs : Acquired f f')
    (hfree : w.locked = false) : FifoInv { w.setCpu c (w.ints c) (f' :: rest) with locked := true } := by
  obtain ⟨-, hin, hacc⟩ := acquired_accessed hs
  have hshape := h.shape c
  rw [hf] at hshape
  have hlock := h.lock
  rw [hfree] at hlock
  have hnone : ∀ d, ¬ Inside (w.stack d) := fun d hd => Bool.noConfusion (hlock.locked_of hd)
  have hints : w.ints c = (f' :: rest).isEmpty := by
    rw [h.ints, hf]
    rfl
  refine ⟨shape_update h (shape_acquired hshape hs), ints_update h hints, ?_, fun hl => Bool.noConfusion hl, ?_,
    h.whole, h.input⟩
  · refine hlock.acquire (c := c) ?_ fun d hd => inside_update w _ hd
    exact (inside_update_self w c _).mpr (inside_cons.mpr hin)
  · refine accessed_update (fun g rest' hg hcrit => ?_) fun d hd g rest' hg hcrit => ?_
    · obtain ⟨rfl, -⟩ := List.cons.inj hg
      exact (h.free hfree).symm ▸ hacc
    · refine absurd ?_ (hnone d)
      rw [hg]
      exact inside_cons.mpr hcrit

omit [DecidableEq ι] in
/-- Only the call that has the lock has done the accesses. -/
theorem only_inside (h : FifoInv w) (hf : w.stack c = f :: rest) (hcrit : f.critical = true) (hd : d ≠ c) :
    ¬ Inside (w.stack d) := by
  intro hin
  refine hd (h.lock.unique d c hin ?_)
  rw [hf]
  exact inside_cons.mpr hcrit

/-- What the SMC has presented and the driver has not read, after an access. -/
theorem input_access {left : List Message} {current : List Access} {input input' : List Word}
    (hleft : left.flatMap Message.bytes32 = inWords current ++ input)
    (hne : .readInStatus true ∈ current → left ≠ []) (ht : a.takes input input') :
    left.flatMap Message.bytes32 = inWords (current ++ [a]) ++ input' ∧
      (.readInStatus true ∈ current ++ [a] → left ≠ []) := by
  rw [inWords, List.filterMap_append, ← inWords, List.append_assoc]
  cases a with
  | readInStatus ready =>
    obtain ⟨hready, rfl⟩ := ht
    refine ⟨hleft, fun hmem => ?_⟩
    rcases List.mem_append.mp hmem with hmem | hmem
    · exact hne hmem
    · rintro rfl
      have htrue : true = ready := Access.readInStatus.inj (List.mem_singleton.mp hmem)
      have hempty := (List.append_eq_nil_iff.mp hleft.symm).2
      rw [← htrue, hempty] at hready
      cases hready
  | readInData data =>
    refine ⟨?_, fun hmem => hne (by simpa using hmem)⟩
    rw [hleft, show input = data :: input' from ht]
    rfl
  | _ =>
    refine ⟨?_, fun hmem => hne (by simpa using hmem)⟩
    rw [hleft, show input' = input from ht]
    rfl

theorem fifoInv_access (h : FifoInv w) {input : List Word} (hf : w.stack c = f :: rest) (hs : FrameStep f a f')
    (ht : a.takes w.input input) :
    FifoInv { w.setCpu c (w.ints c) (f' :: rest) with input := input, current := w.current ++ [a] } := by
  obtain ⟨hcrit, hcrit'⟩ := frameStep_critical hs
  obtain ⟨left, hpresented, hleft, hne⟩ := h.input
  have hshape := h.shape c
  rw [hf] at hshape
  have hin : Inside (w.stack c) := by
    rw [hf]
    exact inside_cons.mpr hcrit
  have hints : w.ints c = (f' :: rest).isEmpty := by
    rw [h.ints, hf]
    rfl
  refine ⟨shape_update h (shape_frameStep hshape hs), ints_update h hints, h.lock.congr fun d => ?_, fun hfree => ?_,
    ?_, h.whole, left, hpresented, input_access hleft hne ht⟩
  · by_cases hd : d = c
    · subst hd
      refine iff_of_true ?_ hin
      exact (inside_update_self w d _).mpr (inside_cons.mpr hcrit')
    · exact inside_update w _ hd
  · exact Bool.noConfusion ((h.lock.locked_of hin).symm.trans hfree)
  · refine accessed_update (fun g rest' hg _ => ?_) fun d hd g rest' hg hcrit => ?_
    · obtain ⟨rfl, -⟩ := List.cons.inj hg
      exact accessed_step (h.accessed c f rest hf (frameStep_critical hs).1) hs
    · refine absurd ?_ (only_inside h hf (frameStep_critical hs).1 hd)
      rw [hg]
      exact inside_cons.mpr hcrit

/-- The call that has the lock returns. -/
theorem fifoInv_release (h : FifoInv w) (hf : w.stack c = f :: rest) (hcrit : f.critical = true)
    {i : Bool} {s : List Frame} {x : Section} (hs : Shape s) (hi : i = s.isEmpty) (hout : ¬ Inside s) (hx : Whole x)
    (hinput : ∃ left, w.presented = received (w.sections ++ [x]) ++ left ∧ left.flatMap Message.bytes32 = w.input) :
    FifoInv { w.setCpu c i s with locked := false, current := [], sections := w.sections ++ [x] } := by
  obtain ⟨left, hpresented, hleft⟩ := hinput
  have hin : Inside (w.stack c) := by
    rw [hf]
    exact inside_cons.mpr hcrit
  refine ⟨shape_update h hs, ints_update h hi, ?_, fun _ => rfl, ?_, ?_, left, hpresented, hleft,
    fun hmem => absurd hmem List.not_mem_nil⟩
  · refine h.lock.release (c := c) hin (fun hin' => hout ?_) fun d hd => inside_update w _ hd
    exact (inside_update_self w c s).mp hin'
  · refine accessed_update (fun g rest' hg hcrit' => ?_) fun d hd g rest' hg hcrit' => ?_
    · subst hg
      exact absurd (inside_cons.mpr hcrit') hout
    · refine absurd ?_ (only_inside h hf hcrit hd)
      rw [hg]
      exact inside_cons.mpr hcrit'
  · rw [List.forall_mem_append, List.forall_mem_singleton]
    exact ⟨h.whole, hx⟩

/-! ### Every step -/

/-- Returning from a call of `writeMessage`, or of `readMessage`. -/
theorem shape_resume (h : Shape (f :: rest)) (hcrit : f.critical = true) (m : Message) :
    Shape (resume m rest) ∧ ¬ Inside (resume m rest) ∧
      ∀ i, (∃ m' pc, f = .write m' i pc) ∨ (∃ m' pc ws, f = .read m' i pc ws) → i = (resume m rest).isEmpty := by
  cases h with
  | thread m' pc => exact ⟨.idle, by simp [Inside, resume], by simp [resume]⟩
  | reading m' pc ws => exact ⟨.switch m, by simp [Inside, resume, Frame.critical], by simp [resume]⟩
  | cancelling m' pc => exact ⟨.ack, by simp [Inside, resume, Frame.critical], by simp [resume]⟩
  | start => cases hcrit
  | switch => cases hcrit
  | ack => cases hcrit

theorem inWords_polls (k : ℕ) : inWords (polls k) = [] := by
  simp [inWords, polls]

theorem inWords_append (as bs : List Access) : inWords (as ++ bs) = inWords as ++ inWords bs :=
  List.filterMap_append

theorem inWords_writeOutData (ws : List Word) : inWords (ws.map .writeOutData) = [] := by
  simp [inWords, List.filterMap_map]

theorem inWords_readInData (ws : List Word) : inWords (ws.map .readInData) = ws := by
  simp [inWords, List.filterMap_map]

theorem received_write (sections : List Section) (m : Message) (r : IOReturn) (as : List Access) :
    received (sections ++ [⟨.write m, r, as⟩]) = received sections := by
  simp [received]

theorem received_read (sections : List Section) (m : Message) (r : IOReturn) (as : List Access) :
    received (sections ++ [⟨.read m, r, as⟩]) = received sections ++ if r = .success then [m] else [] := by
  cases r <;> simp [received]

/-- A call of `writeMessage` reads no message. -/
theorem inWords_write {m : Message} {r : IOReturn} {as : List Access} (h : Whole ⟨.write m, r, as⟩) :
    inWords as = [] := by
  cases h with
  | sent =>
    rw [inWords_append, inWords_append, inWords_polls]
    exact congrArg (· ++ []) (inWords_writeOutData m.bytes32)
  | timedOut => exact inWords_polls _

theorem fifoInv_releaseWrite (h : FifoInv w) {m : Message} {i : Bool} {r : IOReturn}
    (hf : w.stack c = .write m i (.unlock r) :: rest) :
    FifoInv { w.setCpu c i (resume m rest) with
      locked := false
      current := []
      sections := w.sections ++ [⟨.write m, r, w.current⟩] } := by
  have hshape := h.shape c
  rw [hf] at hshape
  obtain ⟨hs, hout, hi⟩ := shape_resume hshape rfl m
  have hwhole : Whole ⟨.write m, r, w.current⟩ := h.accessed c _ _ hf rfl
  obtain ⟨left, hpresented, hleft, -⟩ := h.input
  rw [inWords_write hwhole] at hleft
  rw [← received_write w.sections m r w.current] at hpresented
  exact fifoInv_release h hf rfl hs (hi i (Or.inl ⟨m, _, rfl⟩)) hout hwhole ⟨left, hpresented, hleft⟩

/-- The words that a call has read are the next message. -/
theorem next_message {left : List Message} {ws input : List Word} (hws : ws.length = 4)
    (h : left.flatMap Message.bytes32 = ws ++ input) :
    ∃ m left', left = m :: left' ∧ ws = m.bytes32 ∧ left'.flatMap Message.bytes32 = input := by
  cases left with
  | nil =>
    have hnil := (List.append_eq_nil_iff.mp h.symm).1
    rw [hnil] at hws
    cases hws
  | cons m left' =>
    rw [List.flatMap_cons] at h
    obtain ⟨hm, hrest⟩ := List.append_inj h ((length_bytes32 m).trans hws.symm)
    exact ⟨m, left', rfl, hm.symm, hrest⟩

theorem fifoInv_releaseRead (h : FifoInv w) {m m' : Message} {i : Bool} {r : IOReturn} {ws : List Word}
    (hf : w.stack c = .read m i (.unlock r) ws :: rest) (hm : m' = if r = .success then .ofBytes32 ws else m) :
    FifoInv { w.setCpu c i (resume m' rest) with
      locked := false
      current := []
      sections := w.sections ++ [⟨.read m', r, w.current⟩] } := by
  have hshape := h.shape c
  rw [hf] at hshape
  obtain ⟨hs, hout, hi⟩ := shape_resume hshape rfl m'
  obtain ⟨left, hpresented, hleft, -⟩ := h.input
  have hints := hi i (Or.inr ⟨m, _, _, rfl⟩)
  have hacc : Accessed (.read m i (.unlock r) ws) w.current := h.accessed c _ _ hf rfl
  rcases hacc with ⟨rfl, hlen, hcurrent⟩ | ⟨rfl, hcurrent⟩
  · have hwords : left.flatMap Message.bytes32 = ws ++ w.input := by
      rw [hleft, hcurrent, inWords_append, List.append_assoc]
      exact congrArg (· ++ w.input) (inWords_readInData ws)
    obtain ⟨m0, left', rfl, hws, hleft'⟩ := next_message hlen hwords
    rw [if_pos rfl, hws, ofBytes32_bytes32] at hm
    subst hm
    refine fifoInv_release h hf rfl hs hints hout ?_ ⟨left', ?_, hleft'⟩
    · rw [hcurrent, hws]
      exact .received
    · rw [hpresented, received_read, if_pos rfl, List.append_assoc]
      rfl
  · rw [hcurrent] at hleft
    refine fifoInv_release h hf rfl hs hints hout ?_ ⟨left, ?_, hleft⟩
    · rw [hcurrent]
      exact .notReady
    · rw [hpresented, received_read, if_neg (by decide), List.append_nil]

omit [DecidableEq ι] in
theorem not_inside_filter (h : w.stack c = .filter pc :: rest) : ¬ Inside (w.stack c) := by
  rw [h, inside_cons]
  exact Bool.false_ne_true

theorem fifoInv_step (h : FifoInv w) (hs : FifoStep w l v) : FifoInv v := by
  cases hs with
  | @call c m hidle =>
    have hints := h.ints c
    rw [hidle] at hints
    have hout : ¬ Inside (w.stack c) := by simp [hidle, Inside]
    refine fifoInv_outside h ?_ rfl hout (by simp [Inside, Frame.critical])
    rw [hints]
    exact .thread m .lock
  | @interrupt c hints =>
    rw [h.ints, List.isEmpty_iff] at hints
    rw [hints]
    have hout : ¬ Inside (w.stack c) := by simp [hints, Inside]
    exact fifoInv_outside h .start rfl hout (by simp [Inside, Frame.critical])
  | @readMessage c rest m hf =>
    have hshape := h.shape c
    have hints := h.ints c
    rw [hf] at hshape hints
    cases hshape
    refine fifoInv_outside h ?_ rfl (not_inside_filter hf) (by simp [Inside, Frame.critical])
    rw [hints]
    exact .reading m .lock []
  | @cancelPowerOff c rest m hf =>
    have hshape := h.shape c
    have hints := h.ints c
    rw [hf] at hshape hints
    cases hshape
    refine fifoInv_outside h ?_ rfl (not_inside_filter hf) (by simp [Inside, Frame.critical])
    rw [hints]
    exact .cancelling _ .lock
  | @ignore c rest m hf =>
    have hshape := h.shape c
    have hints := h.ints c
    rw [hf] at hshape hints
    cases hshape
    exact fifoInv_outside h .ack hints (not_inside_filter hf) (by simp [Inside, Frame.critical])
  | @ack c rest hf =>
    have hshape := h.shape c
    rw [hf] at hshape
    cases hshape
    exact fifoInv_outside h .idle rfl (not_inside_filter hf) (by simp [Inside])
  | acquire hf hs hfree => exact fifoInv_acquire h hf hs hfree
  | access hf hs ht => exact fifoInv_access h hf hs ht
  | releaseWrite hf => exact fifoInv_releaseWrite h hf
  | releaseRead hf hm => exact fifoInv_releaseRead h hf hm
  | @present m =>
    obtain ⟨left, hpresented, hleft, hne⟩ := h.input
    refine ⟨h.shape, h.ints, h.lock, h.free, h.accessed, h.whole, left ++ [m], ?_, ?_, fun hmem => ?_⟩
    · rw [hpresented, List.append_assoc]
    · rw [List.flatMap_append, hleft, List.append_assoc]
      simp
    · exact List.append_ne_nil_of_left_ne_nil (hne hmem) _

end Invariant

/-! ## Progress -/

/-- A bound on the steps that a call with the lock still takes. -/
def Frame.fuel : Frame → ℕ
  | .write _ _ (.poll t) => t.toNat + 8
  | .write _ _ .signal => 7
  | .write _ _ (.data i) => 6 - i
  | .read _ _ .check _ => 8
  | .read _ _ .signal _ => 7
  | .read _ _ (.data i) _ => 6 - i
  | _ => 1

section Progress

variable {ι : Type u} [DecidableEq ι] {w v : FifoWorld ι} {l : FifoLabel ι} {c : ι} {f f' : Frame} {a : Access}
  {as : List Access} {rest : List Frame} {es : List (Edge (FifoWorld ι) (FifoLabel ι))}

theorem frameStep_fuel (h : Accessed f as) (hs : FrameStep f a f') : f'.fuel < f.fuel := by
  cases hs with
  | ready => simp only [Frame.fuel]; omega
  | timeout => simp only [Frame.fuel]; omega
  | @again m i t ht =>
    have hpos : 0 < t.toNat := Nat.pos_of_ne_zero fun h0 => ht (BitVec.toNat_inj.mp h0)
    have hpred : (t - 1).toNat = t.toNat - 1 := BitVec.toNat_sub_of_le (BitVec.le_def.mpr hpos)
    simp only [Frame.fuel, hpred]
    omega
  | signalOut => simp [Frame.fuel]
  | writeData hlt =>
    rw [length_bytes32] at hlt
    simp only [Frame.fuel]
    omega
  | writeDone =>
    have hk := h.1
    simp only [Frame.fuel]
    omega
  | notReady => simp [Frame.fuel]
  | presented => simp [Frame.fuel]
  | signalIn => simp [Frame.fuel]
  | readData hlt => simp only [Frame.fuel]; omega
  | readDone =>
    have hk := h.1
    simp only [Frame.fuel]
    omega

theorem fuel_pos (h : Accessed f as) : 1 ≤ f.fuel := by
  unfold Frame.fuel
  split
  · omega
  · omega
  · have hk := h.1
    omega
  · omega
  · omega
  · have hk := h.1
    omega
  · omega

theorem fuel_le (h : Accessed f as) : f.fuel ≤ smcTimeout.toNat + 8 := by
  unfold Frame.fuel
  split
  · exact Nat.add_le_add_right h.1 8
  all_goals omega

/-- The call that has the lock has a step. -/
theorem inside_enabled (h : FifoInv w) (hf : w.stack c = f :: rest) (hcrit : f.critical = true) :
    ∃ l v, FifoStep w l v ∧ l.cpu = some c := by
  have hacc := h.accessed c f rest hf hcrit
  obtain ⟨left, -, hleft, hne⟩ := h.input
  cases f with
  | filter => cases hcrit
  | write m i pc =>
    cases pc with
    | lock => cases hcrit
    | poll t => exact ⟨_, _, .access hf (.ready) rfl, rfl⟩
    | signal => exact ⟨_, _, .access hf .signalOut rfl, rfl⟩
    | data k =>
      by_cases hk : k < m.bytes32.length
      · exact ⟨_, _, .access hf (.writeData hk) rfl, rfl⟩
      · exact ⟨_, _, .access hf (.writeDone (Nat.le_of_not_lt hk)) rfl, rfl⟩
    | unlock r => exact ⟨_, _, .releaseWrite hf, rfl⟩
  | read m i pc ws =>
    cases pc with
    | lock => cases hcrit
    | check =>
      cases hinput : w.input.isEmpty with
      | true => exact ⟨_, _, .access hf .notReady ⟨by rw [hinput]; rfl, rfl⟩, rfl⟩
      | false => exact ⟨_, _, .access hf .presented ⟨by rw [hinput]; rfl, rfl⟩, rfl⟩
    | signal => exact ⟨_, _, .access hf .signalIn rfl, rfl⟩
    | data k =>
      by_cases hk : k < 4
      · -- A message that was presented has its four words.
        obtain ⟨-, hlen, hcurrent⟩ := hacc
        have hsome : w.input ≠ [] := by
          rintro hnil
          rw [hcurrent, hnil, List.append_nil] at hleft
          have hwords : left.flatMap Message.bytes32 = ws := hleft.trans (inWords_readInData ws)
          obtain ⟨m0, left', rfl⟩ := List.exists_cons_of_ne_nil (hne (by rw [hcurrent]; exact List.mem_cons_self))
          have hcount := congrArg List.length hwords
          rw [List.flatMap_cons, List.length_append, length_bytes32] at hcount
          omega
        obtain ⟨data, input, hinput⟩ := List.exists_cons_of_ne_nil hsome
        exact ⟨_, _, .access hf (.readData hk) hinput, rfl⟩
      · exact ⟨_, _, .access hf (.readDone (Nat.le_of_not_lt hk)) rfl, rfl⟩
    | unlock r => exact ⟨_, _, .releaseRead hf rfl, rfl⟩

/-- All that its CPU can do is the next step of the call. -/
theorem inside_step (h : FifoInv w) (hf : w.stack c = f :: rest) (hcrit : f.critical = true) (hs : FifoStep w l v)
    (hl : l.cpu = some c) : l = .release c ∨ ∃ f' a, v.stack c = f' :: rest ∧ FrameStep f a f' := by
  cases hs with
  | call hidle =>
    obtain rfl := Option.some.inj hl
    rw [hf] at hidle
    cases hidle
  | interrupt hints =>
    obtain rfl := Option.some.inj hl
    rw [h.ints, hf] at hints
    cases hints
  | readMessage hg | cancelPowerOff hg | ignore hg | ack hg =>
    obtain rfl := Option.some.inj hl
    obtain ⟨rfl, -⟩ := List.cons.inj (hf.symm.trans hg)
    cases hcrit
  | acquire hg hacq =>
    obtain rfl := Option.some.inj hl
    obtain ⟨rfl, -⟩ := List.cons.inj (hf.symm.trans hg)
    rw [(acquired_accessed hacq).1] at hcrit
    cases hcrit
  | access hg hstep =>
    obtain rfl := Option.some.inj hl
    obtain ⟨rfl, rfl⟩ := List.cons.inj (hf.symm.trans hg)
    exact Or.inr ⟨_, _, Function.update_self _ _ _, hstep⟩
  | releaseWrite => exact Or.inl (congrArg FifoLabel.release (Option.some.inj hl))
  | releaseRead => exact Or.inl (congrArg FifoLabel.release (Option.some.inj hl))
  | present => cases hl

/-- The steps of a CPU in a run. -/
def stepsOf (c : ι) (es : List (Edge (FifoWorld ι) (FifoLabel ι))) : ℕ := es.countP fun e => e.label.cpu = some c

/-- On every path the call has released the lock, or it is the fewer steps from it the more it took. -/
theorem path_released (h : FifoInv w) (hf : w.stack c = f :: rest) (hcrit : f.critical = true)
    (hp : Path FifoStep w es v) : (∃ e ∈ es, e.label = .release c) ∨
      FifoInv v ∧ ∃ f', v.stack c = f' :: rest ∧ f'.critical = true ∧ f'.fuel + stepsOf c es ≤ f.fuel := by
  induction hp with
  | start hv =>
    subst hv
    exact Or.inr ⟨h, f, hf, hcrit, Nat.le_refl _⟩
  | @step es u v l hr hs ih =>
    rcases ih with ⟨e, he, hl⟩ | ⟨hu, g, hg, hgcrit, hfuel⟩
    · exact Or.inl ⟨e, List.mem_append_left _ he, hl⟩
    · by_cases hl : l.cpu = some c
      · rcases inside_step hu hg hgcrit hs hl with rfl | ⟨g', a, hg', hstep⟩
        · exact Or.inl ⟨_, List.mem_append_right _ List.mem_cons_self, rfl⟩
        · have hlt := frameStep_fuel (hu.accessed c g rest hg hgcrit) hstep
          refine Or.inr ⟨fifoInv_step hu hs, g', hg', (frameStep_critical hstep).2, ?_⟩
          have hone : stepsOf c (es ++ [⟨u, l, v⟩]) = stepsOf c es + 1 := by simp [stepsOf, hl]
          rw [hone]
          omega
      · refine Or.inr ⟨fifoInv_step hu hs, g, (stack_other hs hl).trans hg, hgcrit, ?_⟩
        have hzero : stepsOf c (es ++ [⟨u, l, v⟩]) = stepsOf c es := by simp [stepsOf, hl]
        rwa [hzero]

end Progress

/-! ## Runs -/

section Runs

variable {ι : Type u} [DecidableEq ι] {w : FifoWorld ι} {c : ι} {es : List (Edge (FifoWorld ι) (FifoLabel ι))}

/-- What is known of the FIFOs: what was done between the locks and by whom, and which messages were read. -/
structure FifoSafe (w : FifoWorld ι) : Prop where
  whole : ∀ x ∈ w.sections, Whole x
  current : w.current ≠ [] → ∃ c f rest, w.stack c = f :: rest ∧ f.critical = true ∧ Accessed f w.current
  exclusive : ∀ c d, Inside (w.stack c) → Inside (w.stack d) → c = d
  order : received w.sections <+: w.presented

/-- **The accesses to the FIFOs** come in whole calls, whatever the CPUs do, and the messages arrive in order. -/
theorem fifo_safe (h : Run FifoInit FifoStep es w) : FifoSafe w := by
  have hI := h.invariant (I := FifoInv) (fun _ => fifoInv_init) fun _ _ _ => fifoInv_step
  refine ⟨hI.whole, fun hne => ?_, hI.lock.unique, ?_⟩
  · have hlocked : w.locked = true := by
      by_contra hfree
      exact hne (hI.free (Bool.eq_false_iff.mpr hfree))
    obtain ⟨c, f, hf, hcrit⟩ := hI.lock.held.mp hlocked
    obtain ⟨rest, hstack⟩ := List.head?_eq_some_iff.mp hf
    exact ⟨c, f, rest, hstack, hcrit, hI.accessed c f rest hstack hcrit⟩
  · obtain ⟨left, hpresented, -⟩ := hI.input
    exact ⟨left, hpresented.symm⟩

/-- A message written on one CPU, and one read on another that has to wait for the lock. -/
theorem fifo_safe_two : ∃ es w, Run (@FifoInit ℕ) FifoStep es w ∧
    w.sections.map Section.op = [.write (.setPower powerReboot powerRebootCancel), .read rtcReply] ∧ FifoSafe w := by
  have h0 : Run (@FifoInit ℕ) FifoStep [] ⟨false, fun _ => true, fun _ => [], [], [], [], []⟩ :=
    .start ⟨rfl, fun _ => rfl, fun _ => rfl, rfl, rfl, rfl, rfl⟩
  have h1 := h0.step (.call (c := 0) (m := .setPower powerReboot powerRebootCancel) rfl)
  have h3 := (h1.step (.acquire (c := 0) rfl .write rfl)).step (.present (m := rtcReply))
  have h5 := (h3.step (.interrupt (c := 1) rfl)).step (.readMessage (c := 1) (m := .zero) rfl)
  -- the first CPU writes
  have h7 := (h5.step (.access (c := 0) rfl .ready rfl)).step (.access (c := 0) rfl .signalOut rfl)
  have h9 := (h7.step (.access (c := 0) rfl (.writeData (by simp)) rfl)).step
    (.access (c := 0) rfl (.writeData (by simp)) rfl)
  have h11 := (h9.step (.access (c := 0) rfl (.writeData (by simp)) rfl)).step
    (.access (c := 0) rfl (.writeData (by simp)) rfl)
  have h13 := (h11.step (.access (c := 0) rfl (.writeDone (by simp)) rfl)).step (.releaseWrite (c := 0) rfl)
  -- the second one reads
  have h15 := (h13.step (.acquire (c := 1) rfl .read rfl)).step (.access (c := 1) rfl .presented ⟨rfl, rfl⟩)
  have h17 := (h15.step (.access (c := 1) rfl .signalIn rfl)).step (.access (c := 1) rfl (.readData (by decide)) rfl)
  have h19 := (h17.step (.access (c := 1) rfl (.readData (by decide)) rfl)).step
    (.access (c := 1) rfl (.readData (by decide)) rfl)
  have h21 := (h19.step (.access (c := 1) rfl (.readData (by decide)) rfl)).step
    (.access (c := 1) rfl (.readDone (by decide)) rfl)
  have h := h21.step (.releaseRead (c := 1) rfl (ofBytes32_bytes32 rtcReply).symm)
  exact ⟨_, _, h, rfl, fifo_safe h⟩

/-- **The lock is released**: the call that has it always has a step, and after so many steps of its CPU it has given
the lock up. -/
theorem fifo_released (h : Run FifoInit FifoStep es w) (hc : Inside (w.stack c)) :
    w.ints c = false ∧ (∃ l v, FifoStep w l v ∧ l.cpu = some c) ∧ ∀ es' v, Path FifoStep w es' v →
      smcTimeout.toNat + 8 ≤ stepsOf c es' → ∃ e ∈ es', e.label = .release c := by
  have hI := h.invariant (I := FifoInv) (fun _ => fifoInv_init) fun _ _ _ => fifoInv_step
  obtain ⟨f, hf, hcrit⟩ := hc
  obtain ⟨rest, hstack⟩ := List.head?_eq_some_iff.mp hf
  refine ⟨?_, inside_enabled hI hstack hcrit, fun es' v hp hsteps => ?_⟩
  · rw [hI.ints, hstack]
    rfl
  · rcases path_released hI hstack hcrit hp with hrel | ⟨hv, g, hg, hgcrit, hfuel⟩
    · exact hrel
    · have hpos := fuel_pos (hv.accessed c g rest hg hgcrit)
      have hle := fuel_le (hI.accessed c f rest hstack hcrit)
      omega

/-- A call of `writeMessage` that has just taken the lock. -/
theorem fifo_released_first : ∃ es w, Run (@FifoInit ℕ) FifoStep es w ∧ Inside (w.stack 0) ∧
    w.ints 0 = false ∧ (∃ l v, FifoStep w l v ∧ l.cpu = some 0) ∧ ∀ es' v, Path FifoStep w es' v →
      smcTimeout.toNat + 8 ≤ stepsOf 0 es' → ∃ e ∈ es', e.label = .release 0 := by
  have h0 : Run (@FifoInit ℕ) FifoStep [] ⟨false, fun _ => true, fun _ => [], [], [], [], []⟩ :=
    .start ⟨rfl, fun _ => rfl, fun _ => rfl, rfl, rfl, rfl, rfl⟩
  have h1 := h0.step (.call (c := 0) (m := Message.zero) rfl)
  have h2 := h1.step (.acquire (c := 0) rfl .write rfl)
  exact ⟨_, _, h2, ⟨_, rfl, rfl⟩, fifo_released h2 ⟨_, rfl, rfl⟩⟩

end Runs

end Osx360.Smc
