import Osx360.Graphics.Commands
import Osx360.Lib.Ring
import Osx360.Lib.Run

/-!
# The command ring

`writeRing` and `syncRingBuffer` of `XenosController`, the calls that use them, in the order of `start`, and the GPU
that consumes the ring up to the write pointer that was published last. The driver never looks at the read pointer: no
word is overwritten unread exactly when the ring has room at every write, and with one more word of room the published
pointer meets the read pointer only when everything published was read (`ring_safe`).
-/

set_option autoImplicit false

namespace Osx360.Graphics

open Osx360.Lib

/-! ## The ring -/

def xenosRingbufferLength : Word := 0x8000 / 4

/-- The ring buffer by its words, the pointers of the driver and of the GPU, and the register between them. -/
structure CommandRing where
  ringBuffer : ℕ → Word
  ringBufferWritePtr : Word
  cpRbWritePtr : Word
  readPtr : Word

/-- The index after an increment. -/
def nextIndex (i : Word) : Word := if i + 1 = xenosRingbufferLength then 0 else i + 1

def CommandRing.writeRing (r : CommandRing) (data : Word) : CommandRing :=
  { r with
    ringBuffer := Function.update r.ringBuffer r.ringBufferWritePtr.toNat data
    ringBufferWritePtr := nextIndex r.ringBufferWritePtr }

def CommandRing.syncRingBuffer (r : CommandRing) : CommandRing := { r with cpRbWritePtr := r.ringBufferWritePtr }

/-- The GPU goes on to the next word. -/
def CommandRing.consume (r : CommandRing) : CommandRing := { r with readPtr := nextIndex r.readPtr }

/-! ## The driver -/

inductive DriverOp
  | writeRing (data : Word)
  | syncRingBuffer

/-- `start`, up to its timer. -/
def bringup (s : XenosSetup) : List DriverOp :=
  initME.map .writeRing ++ .syncRingBuffer :: (initFramebuffer s).map .writeRing

/-- A call of `handleTimer`. -/
def timerTick : List DriverOp := handleTimer.map .writeRing ++ [.syncRingBuffer]

/-- The ring, what is left of the driver's call, and the history: the words written with their indices, how many of them
were published last, and the words that the GPU read. -/
structure RingWorld where
  ring : CommandRing
  pending : List DriverOp
  log : List (ℕ × Word)
  published : ℕ
  consumed : List Word

inductive RingLabel
  | writeRing (data : Word)
  | syncRingBuffer
  | tick
  | consume

inductive RingStep : RingWorld → RingLabel → RingWorld → Prop
  | writeRing {w : RingWorld} {data : Word} {rest : List DriverOp} : w.pending = .writeRing data :: rest →
      RingStep w (.writeRing data) { w with
        ring := w.ring.writeRing data
        pending := rest
        log := w.log ++ [(w.ring.ringBufferWritePtr.toNat, data)] }
  | syncRingBuffer {w : RingWorld} {rest : List DriverOp} : w.pending = .syncRingBuffer :: rest →
      RingStep w .syncRingBuffer { w with
        ring := w.ring.syncRingBuffer
        pending := rest
        published := w.log.length }
  | tick {w : RingWorld} : w.pending = [] → RingStep w .tick { w with pending := timerTick }
  | consume {w : RingWorld} : w.ring.readPtr ≠ w.ring.cpRbWritePtr →
      RingStep w .consume { w with
        ring := w.ring.consume
        consumed := w.consumed ++ [w.ring.ringBuffer w.ring.readPtr.toNat] }

/-- The words that a call still writes. -/
def wordsOf (ops : List DriverOp) : List Word :=
  ops.filterMap fun op => match op with
    | .writeRing data => some data
    | .syncRingBuffer => none

section Words

variable {ops : List DriverOp} {data : Word}

@[simp] theorem wordsOf_nil : wordsOf [] = [] := rfl

@[simp] theorem wordsOf_writeRing : wordsOf (.writeRing data :: ops) = data :: wordsOf ops := rfl

@[simp] theorem wordsOf_syncRingBuffer : wordsOf (.syncRingBuffer :: ops) = wordsOf ops := rfl

@[simp] theorem wordsOf_map (ws : List Word) (ops : List DriverOp) :
    wordsOf (ws.map .writeRing ++ ops) = ws ++ wordsOf ops := by
  induction ws with
  | nil => rfl
  | cons w ws ih => simp [ih]

end Words

/-- The words written so far. -/
def RingWorld.words (w : RingWorld) : List Word := w.log.map Prod.snd

/-- The ring as `initHardware` sets it up. -/
def RingInit (s : XenosSetup) (w : RingWorld) : Prop :=
  w.ring.ringBufferWritePtr = 0 ∧ w.ring.cpRbWritePtr = 0 ∧ w.ring.readPtr = 0 ∧ w.pending = bringup s ∧ w.log = [] ∧
    w.published = 0 ∧ w.consumed = []

/-- The words that were written and that the GPU has not read. -/
def RingWorld.unread (w : RingWorld) : List (ℕ × Word) := w.log.drop w.consumed.length

/-- The next write is to an unread word. -/
def Overwrites (w : RingWorld) : Prop := ∃ e ∈ w.unread, e.1 = w.ring.ringBufferWritePtr.toNat

/-- A write finds fewer than `n` words unread. -/
def Finds (n : ℕ) (w : RingWorld) (l : RingLabel) : Prop := ∀ data, l = .writeRing data → w.unread.length < n

def NoOverwrite (e : Edge RingWorld RingLabel) : Prop := ∀ data, e.label = .writeRing data → ¬ Overwrites e.pre

/-! ## The invariant -/

section Invariant

variable {s : XenosSetup} {w v : RingWorld} {l : RingLabel}

theorem toNat_nextIndex {i : Word} {n : ℕ} (h : i.toNat = n % 8192) : (nextIndex i).toNat = (n + 1) % 8192 := by
  have hadd : (i + 1).toNat = i.toNat + 1 := by
    rw [BitVec.toNat_add, show (1 : Word).toNat = 1 from rfl]
    omega
  have hcond : i + 1 = xenosRingbufferLength ↔ i.toNat + 1 = 8192 := by
    rw [← BitVec.toNat_inj, hadd]
    exact Iff.rfl
  unfold nextIndex
  rw [apply_ite BitVec.toNat, if_congr hcond rfl rfl, hadd]
  split
  · rw [show (0 : Word).toNat = 0 from rfl]
    omega
  · omega

/-- What holds as long as every write finds room. -/
structure RingInv (w : RingWorld) : Prop where
  writePtr : w.ring.ringBufferWritePtr.toNat = w.log.length % 8192
  cpRbWritePtr : w.ring.cpRbWritePtr.toNat = w.published % 8192
  readPtr : w.ring.readPtr.toNat = w.consumed.length % 8192
  read : w.consumed.length ≤ w.published
  published : w.published ≤ w.log.length
  room : w.log.length ≤ w.consumed.length + 8192
  index : ∀ k (h : k < w.log.length), w.log[k].1 = k % 8192
  ring : Holds 8192 w.ring.ringBuffer (w.log.map Prod.snd) w.consumed.length
  consumed : w.consumed = (w.log.map Prod.snd).take w.consumed.length

theorem length_unread (w : RingWorld) : w.unread.length = w.log.length - w.consumed.length := List.length_drop

theorem ringInv_init (h : RingInit s w) : RingInv w := by
  obtain ⟨hwrite, hcp, hread, -, hlog, hpub, hcons⟩ := h
  refine ⟨?_, ?_, ?_, ?_, ?_, ?_, ?_, ?_, ?_⟩ <;> simp [hwrite, hcp, hread, hlog, hpub, hcons, holds_nil]

theorem ringInv_writeRing (h : RingInv w) {data : Word} {rest : List DriverOp} (hroom : w.unread.length < 8192) :
    RingInv { w with
      ring := w.ring.writeRing data
      pending := rest
      log := w.log ++ [(w.ring.ringBufferWritePtr.toNat, data)] } := by
  have hread := h.read
  have hpub := h.published
  rw [length_unread] at hroom
  refine ⟨?_, h.cpRbWritePtr, h.readPtr, hread, ?_, ?_, fun k hk => ?_, ?_, ?_⟩
  · rw [List.length_append]
    exact toNat_nextIndex h.writePtr
  · simp
    omega
  · simp
    omega
  · by_cases hlast : k < w.log.length
    · simp only [List.getElem_append_left hlast]
      exact h.index k hlast
    · have hk' : k = w.log.length := by
        simp at hk
        omega
      subst hk'
      simpa using h.writePtr
  · have hwrite := h.ring.write (by rw [List.length_map]; omega) data
    simpa [CommandRing.writeRing, h.writePtr] using hwrite
  · simp only [List.map_append]
    rw [List.take_append_of_le_length (by rw [List.length_map]; omega)]
    exact h.consumed

theorem ringInv_syncRingBuffer (h : RingInv w) {rest : List DriverOp} : RingInv { w with
    ring := w.ring.syncRingBuffer
    pending := rest
    published := w.log.length } :=
  ⟨h.writePtr, h.writePtr, h.readPtr, Nat.le_trans h.read h.published, Nat.le_refl _, h.room, h.index, h.ring,
    h.consumed⟩

/-- The GPU reads the word that was written next. -/
theorem ringInv_consume (h : RingInv w) (hne : w.ring.readPtr ≠ w.ring.cpRbWritePtr) : RingInv { w with
    ring := w.ring.consume
    consumed := w.consumed ++ [w.ring.ringBuffer w.ring.readPtr.toNat] } := by
  have hread := h.read
  have hpub := h.published
  have hroom := h.room
  have hlt : w.consumed.length < w.published := by
    have hptr : w.consumed.length ≠ w.published := by
      intro he
      exact hne (BitVec.eq_of_toNat_eq (by rw [h.readPtr, h.cpRbWritePtr, he]))
    omega
  have hlen : w.consumed.length < (w.log.map Prod.snd).length := by
    rw [List.length_map]
    omega
  have hword : w.ring.ringBuffer w.ring.readPtr.toNat = (w.log.map Prod.snd)[w.consumed.length] := by
    rw [h.readPtr]
    exact h.ring _ _ (Nat.le_refl _)
  refine ⟨h.writePtr, h.cpRbWritePtr, ?_, ?_, hpub, ?_, h.index, ?_, ?_⟩
  · rw [List.length_append]
    exact toNat_nextIndex h.readPtr
  · simp
    omega
  · simp
    omega
  · simpa [CommandRing.consume] using h.ring.read
  · rw [List.length_append, List.length_singleton, List.take_add_one, ← h.consumed, hword,
      List.getElem?_eq_getElem hlen]
    rfl

theorem ringInv_step (h : RingInv w) (hroom : Finds 8192 w l) (hs : RingStep w l v) : RingInv v := by
  cases hs with
  | writeRing => exact ringInv_writeRing h (hroom _ rfl)
  | syncRingBuffer => exact ringInv_syncRingBuffer h
  | tick => exact ⟨h.writePtr, h.cpRbWritePtr, h.readPtr, h.read, h.published, h.room, h.index, h.ring, h.consumed⟩
  | consume hne => exact ringInv_consume h hne

/-- A write overwrites an unread word exactly if all words of the ring are unread. -/
theorem overwrites_iff (h : RingInv w) : Overwrites w ↔ 8192 ≤ w.unread.length := by
  have hread := h.read
  have hpub := h.published
  have hroom := h.room
  have hindex : ∀ k (hk : k < w.unread.length), w.unread[k].1 = (w.consumed.length + k) % 8192 := by
    intro k hk
    rw [length_unread] at hk
    have hdrop : w.unread[k] = w.log[w.consumed.length + k] := List.getElem_drop
    rw [hdrop]
    exact h.index _ _
  rw [Overwrites, h.writePtr]
  constructor
  · rintro ⟨e, he, hptr⟩
    obtain ⟨k, hk, rfl⟩ := List.getElem_of_mem he
    rw [hindex] at hptr
    rw [length_unread] at hk ⊢
    by_contra hlt
    exact mod_ne (show w.consumed.length + k < w.log.length by omega) (by omega) hptr
  · intro hfull
    refine ⟨w.unread[0], List.getElem_mem (by omega), ?_⟩
    rw [hindex]
    rw [length_unread] at hfull
    omega

end Invariant

/-! ## Runs -/

section Runs

variable {s : XenosSetup} {w v : RingWorld} {es : List (Edge RingWorld RingLabel)}

/-- What is known of a run to the state `w`. -/
structure RingSafe (es : List (Edge RingWorld RingLabel)) (w : RingWorld) : Prop where
  overwrite : (∀ e ∈ es, NoOverwrite e) ↔ ∀ e ∈ es, Finds 8192 e.pre e.label
  pointers : (∀ e ∈ es, Finds 8191 e.pre e.label) → w.ring.cpRbWritePtr = w.ring.readPtr →
    w.published = w.consumed.length
  order : (∀ e ∈ es, Finds 8192 e.pre e.label) → w.consumed = (w.log.map Prod.snd).take w.consumed.length

theorem Finds.mono {m n : ℕ} {l : RingLabel} (h : Finds m w l) (hmn : m ≤ n) : Finds n w l :=
  fun data hl => Nat.lt_of_lt_of_le (h data hl) hmn

/-- With a word to spare the ring is never full. -/
theorem unread_lt (h : Run (RingInit s) RingStep es w) (hc : ∀ e ∈ es, Finds 8191 e.pre e.label) :
    RingInv w ∧ w.log.length ≤ w.consumed.length + 8191 := by
  refine h.guarded (I := fun w => RingInv w ∧ w.log.length ≤ w.consumed.length + 8191)
    (fun w hw => ⟨ringInv_init hw, ?_⟩) (fun w l v hw hl hs => ⟨ringInv_step hw.1 (hl.mono (by omega)) hs, ?_⟩) hc
  · simp [hw.2.2.2.2.1]
  · have hle := hw.2
    cases hs with
    | writeRing =>
      have hlt := hl _ rfl
      rw [length_unread] at hlt
      simp
      omega
    | syncRingBuffer => exact hle
    | tick => exact hle
    | consume =>
      simp
      omega

theorem noOverwrite_iff (h : Run (RingInit s) RingStep es w) :
    (∀ e ∈ es, NoOverwrite e) ↔ ∀ e ∈ es, Finds 8192 e.pre e.label := by
  refine h.forall_iff (I := RingInv) (C := Finds 8192) (fun _ => ringInv_init) (fun w l v hw hl hs => ?_)
    fun w l v hw hl hs hno => ?_
  · refine ⟨ringInv_step hw hl hs, fun data hdata hover => ?_⟩
    exact absurd (hl data hdata) (Nat.not_lt.mpr ((overwrites_iff hw).mp hover))
  · refine hl fun data hdata => Nat.lt_of_not_le fun hle => ?_
    exact hno data hdata ((overwrites_iff hw).mpr hle)

/-- **The ring over whole runs.** -/
theorem ring_safe (h : Run (RingInit s) RingStep es w) : RingSafe es w := by
  refine ⟨noOverwrite_iff h, fun hc hptr => ?_, fun hc => ?_⟩
  · obtain ⟨hinv, hlt⟩ := unread_lt h hc
    have hread := hinv.read
    have hpub := hinv.published
    have hmod : w.published % 8192 = w.consumed.length % 8192 := by
      rw [← hinv.cpRbWritePtr, ← hinv.readPtr, hptr]
    omega
  · exact (h.guarded (I := RingInv) (fun _ => ringInv_init) (fun _ _ _ => ringInv_step) hc).consumed

/-! ## The driver by itself -/

theorem length_words (w : RingWorld) : w.words.length = w.log.length := List.length_map _

/-- Reached with fewer than `n` words unread at every write. -/
abbrev RingReaches (s : XenosSetup) (n : ℕ) : RingWorld → Prop := ReachableIf (RingInit s) RingStep (Finds n)

/-- Before `start`. -/
theorem reaches_start (s : XenosSetup) (n : ℕ) :
    RingReaches s n ⟨⟨fun _ => 0, 0, 0, 0⟩, bringup s, [], 0, []⟩ :=
  .of_init ⟨rfl, rfl, rfl, rfl, rfl, rfl, rfl⟩

/-- The driver goes on with its call if the ring has room for the words. -/
theorem reaches_ops {n : ℕ} {ops rest : List DriverOp} (h : RingReaches s n w) (hp : w.pending = ops ++ rest)
    (hroom : w.unread.length + (wordsOf ops).length ≤ n) :
    ∃ v, RingReaches s n v ∧ v.pending = rest ∧ v.consumed = w.consumed ∧ v.words = w.words ++ wordsOf ops := by
  induction ops generalizing w with
  | nil => exact ⟨w, h, hp, rfl, (List.append_nil _).symm⟩
  | cons op ops ih =>
    cases op with
    | writeRing data =>
      rw [wordsOf_writeRing, List.length_cons] at hroom
      have hnext : (w.log ++ [(w.ring.ringBufferWritePtr.toNat, data)]).length = w.log.length + 1 := List.length_append
      have hunread := length_unread w
      obtain ⟨v, hv, hpending, hconsumed, hwords⟩ := ih (h.snoc (.writeRing hp) fun _ _ => by omega) rfl
        (by rw [length_unread]; dsimp only; omega)
      refine ⟨v, hv, hpending, hconsumed, ?_⟩
      rw [hwords, RingWorld.words, List.map_append, wordsOf_writeRing, List.append_assoc]
      rfl
    | syncRingBuffer =>
      have hsync := h.snoc (l := .syncRingBuffer) (.syncRingBuffer hp) nofun
      obtain ⟨v, hv⟩ := ih hsync rfl hroom
      exact ⟨v, hv⟩

/-- The GPU reads all that was published. -/
theorem reaches_read {n : ℕ} (h : RingReaches s n w) (hinv : RingInv w)
    (hfull : w.published < w.consumed.length + 8192) :
    ∃ v, RingReaches s n v ∧ RingInv v ∧ v.words = w.words ∧ v.consumed.length = w.published := by
  have hread := hinv.read
  induction hleft : w.published - w.consumed.length generalizing w with
  | zero => exact ⟨w, h, hinv, rfl, by omega⟩
  | succ k ih =>
    have hne : w.ring.readPtr ≠ w.ring.cpRbWritePtr := by
      intro he
      have hmod : w.consumed.length % 8192 = w.published % 8192 := by rw [← hinv.readPtr, ← hinv.cpRbWritePtr, he]
      omega
    have hstep := ringInv_consume hinv hne
    have hnext : (w.consumed ++ [w.ring.ringBuffer w.ring.readPtr.toNat]).length = w.consumed.length + 1 :=
      List.length_append
    have hconsume := h.snoc (l := .consume) (.consume hne) nofun
    obtain ⟨v, hv⟩ := ih hconsume hstep (by dsimp only; omega) hstep.read (by dsimp only; omega)
    exact ⟨v, hv⟩

theorem wordsOf_start (s : XenosSetup) : wordsOf (bringup s) = initME ++ initFramebuffer s := by
  rw [bringup, wordsOf_map, wordsOf_syncRingBuffer, ← List.append_nil (List.map _ _), wordsOf_map, wordsOf_nil,
    List.append_nil]

/-- `start`, the first tick, and the GPU that reads all of their words. -/
theorem reaches_tick (s : XenosSetup) : ∃ w, RingReaches s 8191 w ∧
    w.words = initME ++ initFramebuffer s ++ handleTimer ∧ w.consumed = w.words := by
  have hlength : (wordsOf (bringup s)).length = 184 := rfl
  obtain ⟨u, hu, hpu, hcu, hwu⟩ := reaches_ops (n := 8191) (reaches_start s _) (List.append_nil _).symm
    (by rw [hlength]; exact Nat.le_of_ble_eq_true rfl)
  have hunread : u.unread.length = 184 := by rw [length_unread, ← length_words, hwu, hcu]; rfl
  have htick : (wordsOf (handleTimer.map .writeRing)).length = 12 := rfl
  obtain ⟨v, hv, hpv, hcv, hwv⟩ := reaches_ops (hu.snoc (l := .tick) (.tick hpu) nofun)
    (rfl : timerTick = handleTimer.map .writeRing ++ [.syncRingBuffer])
    (by rw [htick]; exact Nat.le_trans (Nat.add_le_add_right (Nat.le_of_eq hunread) 12) (by decide))
  have hpublished := hv.snoc (l := .syncRingBuffer) (.syncRingBuffer hpv) nofun
  have hinv := hpublished.invariant (I := RingInv) (fun _ => ringInv_init) fun _ _ _ hi hl =>
    ringInv_step hi (hl.mono (by decide))
  have hwords : v.words = initME ++ initFramebuffer s ++ handleTimer := by
    rw [hwv, ← wordsOf_start]
    exact congrArg (· ++ handleTimer) hwu
  have hlen : v.log.length = 196 := by rw [← length_words, hwords]; rfl
  obtain ⟨w, hw, hI, hww, hcw⟩ := reaches_read hpublished hinv (by dsimp only; omega)
  refine ⟨w, hw, hww.trans hwords, ?_⟩
  rw [hI.consumed, List.take_of_length_le]
  · rfl
  · rw [hcw]
    exact Nat.le_of_eq ((congrArg List.length hww).trans (length_words v))

/-- The first frame. -/
theorem ring_safe_tick : ∃ es w, Run (RingInit ⟨640, 480, 0x1E000000, 0x1E400000, 0x1000, 0x2000⟩) RingStep es w ∧
    (∀ e ∈ es, Finds 8191 e.pre e.label) ∧
    w.consumed = initME ++ initFramebuffer ⟨640, 480, 0x1E000000, 0x1E400000, 0x1000, 0x2000⟩ ++ handleTimer ∧
      RingSafe es w := by
  obtain ⟨w, ⟨es, h, hroom⟩, hwords, hread⟩ := reaches_tick ⟨640, 480, 0x1E000000, 0x1E400000, 0x1000, 0x2000⟩
  exact ⟨es, w, h, hroom, hread.trans hwords, ring_safe h⟩

/-! ## A GPU that stands still -/

/-- Any number of ticks, with nothing read. -/
theorem reaches_ticks (s : XenosSetup) {m n : ℕ} (hn : 184 + 12 * n ≤ m) : ∃ w, RingReaches s m w ∧ w.pending = [] ∧
    w.consumed = [] ∧ w.words.length = 184 + 12 * n := by
  induction n with
  | zero =>
    obtain ⟨w, h, hp, hc, hw⟩ := reaches_ops (reaches_start s m) (List.append_nil _).symm hn
    exact ⟨w, h, hp, hc, by rw [hw]; rfl⟩
  | succ n ih =>
    obtain ⟨w, h, hp, hc, hlen⟩ := ih (by omega)
    have htick : (wordsOf timerTick).length = 12 := rfl
    have hunread : w.unread.length ≤ w.words.length := by
      rw [length_unread, length_words]
      exact Nat.sub_le _ _
    obtain ⟨v, h', hp', hc', hw'⟩ := reaches_ops (h.snoc (l := .tick) (.tick hp) nofun) (List.append_nil _).symm
      (by rw [htick]; exact Nat.le_trans (Nat.add_le_add_right hunread 12) (by omega))
    refine ⟨v, h', hp', hc'.trans hc, ?_⟩
    rw [hw', List.length_append, htick, Nat.mul_succ]
    exact congrArg (· + 12) hlen

/-- If the GPU stands still, some write of a tick is to a word that it has not read. -/
theorem ring_overwritten : ∃ es w, Run (RingInit ⟨640, 480, 0x1E000000, 0x1E400000, 0x1000, 0x2000⟩) RingStep es w ∧
    ∃ e ∈ es, ∃ data, e.label = .writeRing data ∧ Overwrites e.pre := by
  obtain ⟨w, ⟨es, hr, -⟩, -, hc, hl⟩ :=
    reaches_ticks ⟨640, 480, 0x1E000000, 0x1E400000, 0x1000, 0x2000⟩ (n := 683) (Nat.le_refl _)
  refine ⟨es, w, hr, ?_⟩
  by_contra hnone
  have hno : ∀ e ∈ es, NoOverwrite e := fun e he data hdata hover => hnone ⟨e, he, data, hdata, hover⟩
  have hroom := (hr.guarded (I := RingInv) (fun _ => ringInv_init) (fun _ _ _ => ringInv_step)
    ((noOverwrite_iff hr).mp hno)).room
  rw [hc, List.length_nil, ← length_words] at hroom
  omega

end Runs

end Osx360.Graphics
