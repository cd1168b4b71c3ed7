import Mathlib.Data.List.Basic
import Osx360.Lib.Bits
import Osx360.Lib.Run

/-!
# Playback

The timer of `XenonAudioDevice.cpp` that keeps the descriptor ring of the audio hardware moving, while the hardware
moves on its own. A call of `handleTimer` is cut where the hardware can come between its accesses to the state
register. Seen as counts that do not wrap, the read pointer, the write pointer and the last sample stay within four of
each other (`PlaybackInv`), from which a run of playback is correct (`playback_correct`).
-/

set_option autoImplicit false

namespace Osx360.Audio

open Osx360.Lib

/-! ## Registers -/

def audioDescCount : Word := 32

def audioDescMask : Word := 0x1F

def audioRegStateReadPtrMask : Word := 0x1F

def audioRegStateWritePtrShift : ℕ := 8

def audioRegControlRun : Word := bit 24

/-- The registers of the hardware, the state register by its fields. -/
structure AudioRegs where
  readPtr : BitVec 5
  writePtr : BitVec 5
  length : BitVec 16
  control : Word

/-- The state register as it is read. -/
def AudioRegs.state (r : AudioRegs) : Word := r.length ++ 0#3 ++ r.writePtr ++ 0#3 ++ r.readPtr

/-- A write to the state register sets the write pointer only. -/
def AudioRegs.writeState (r : AudioRegs) (data : Word) : AudioRegs := { r with writePtr := data.extractLsb' 8 5 }

/-! ## The device -/

/-- The timer, and how far a call of its handler is. -/
inductive AudioTimer
  | off
  | armed
  | sampled (readPtr : Word)
  | stamped (readPtr : Word)

structure XenonAudioDevice where
  regs : AudioRegs
  lastReadPtr : Word
  audioOutputEngine : Word
  timer : AudioTimer

/-- The device afterwards and what is returned; `false` is 0. -/
def startAudio (audioEngine : Word) (w : XenonAudioDevice) : XenonAudioDevice × Word :=
  if audioEngine = w.audioOutputEngine then
    ({ w with regs.control := w.regs.control ||| audioRegControlRun, timer := .armed }, 0)
  else (w, 0)

/-- The first access of `handleTimer`. -/
def sampleReadPtr (state : Word) : Word := state &&& audioRegStateReadPtrMask

/-- The condition of `takeTimeStamp`. -/
def takesTimeStamp (readPtr lastReadPtr : Word) : Bool := readPtr == 0 && lastReadPtr != 0

/-- The second access, where there is one. -/
def keepMoving (readPtr : Word) (r : AudioRegs) : AudioRegs :=
  if readPtr % (audioDescCount / 8) = 0 then
    r.writeState (((readPtr + audioDescCount / 8) &&& audioDescMask) <<< audioRegStateWritePtrShift)
  else r

/-! ## Steps -/

/-- What happens: the hardware advances or goes on within a descriptor, or the handler does its next part. -/
inductive AudioLabel
  | advance
  | drain
  | read
  | stamp (taken : Bool)
  | finish

inductive AudioStep : XenonAudioDevice → AudioLabel → XenonAudioDevice → Prop
  | advance {w : XenonAudioDevice} (length : BitVec 16) : has w.regs.control audioRegControlRun = true →
      w.regs.readPtr ≠ w.regs.writePtr →
      AudioStep w .advance { w with regs.readPtr := w.regs.readPtr + 1, regs.length := length }
  | drain (w : XenonAudioDevice) (length : BitVec 16) : AudioStep w .drain { w with regs.length := length }
  | read {w : XenonAudioDevice} : w.timer = .armed →
      AudioStep w .read { w with timer := .sampled (sampleReadPtr w.regs.state) }
  | stamp {w : XenonAudioDevice} {readPtr : Word} : w.timer = .sampled readPtr →
      AudioStep w (.stamp (takesTimeStamp readPtr w.lastReadPtr))
        { w with lastReadPtr := readPtr, timer := .stamped readPtr }
  | finish {w : XenonAudioDevice} {readPtr : Word} : w.timer = .stamped readPtr →
      AudioStep w .finish { w with regs := keepMoving readPtr w.regs, timer := .armed }

/-- Playback was just started; the sample left by the playback before is arbitrary. -/
def AudioInit (lastReadPtr : Word) (w : XenonAudioDevice) : Prop :=
  ∃ u : XenonAudioDevice, u.regs.readPtr = 0 ∧ u.regs.writePtr = 0 ∧ u.lastReadPtr = lastReadPtr ∧
    w = (startAudio u.audioOutputEngine u).1

abbrev AudioEdge := Edge XenonAudioDevice AudioLabel

def AudioLabel.isAdvance : AudioLabel → Bool
  | .advance => true
  | _ => false

def AudioLabel.isStamp : AudioLabel → Bool
  | .stamp taken => taken
  | _ => false

/-- The read pointer returns to 0. -/
def returnsToZero (e : AudioEdge) : Bool := e.label.isAdvance && e.post.regs.readPtr == 0

def advances (es : List AudioEdge) : ℕ := es.countP fun e => e.label.isAdvance

def returns (es : List AudioEdge) : ℕ := es.countP returnsToZero

def stamps (es : List AudioEdge) : ℕ := es.countP fun e => e.label.isStamp

/-- The hardware is where it may advance. -/
def CanAdvance (w : XenonAudioDevice) : Prop :=
  has w.regs.control audioRegControlRun = true ∧ w.regs.readPtr ≠ w.regs.writePtr

/-- A whole call of the handler is among the steps. -/
def Completes (es : List AudioEdge) : Prop :=
  ∃ as bs, es = as ++ bs ∧ (∃ e ∈ as, e.label = .read) ∧ ∃ e ∈ bs, e.label = .finish

/-! ## The accesses -/

section Accesses

variable {r : AudioRegs} {readPtr lastReadPtr : Word}

theorem toNat_and_descMask (w : Word) : (w &&& audioDescMask).toNat = w.toNat % 32 :=
  toNat_and_mask (n := 5) rfl (by decide)

theorem toNat_sampleReadPtr (r : AudioRegs) : (sampleReadPtr r.state).toNat = r.readPtr.toNat := by
  have happ : r.state.toNat = (r.length ++ 0#3 ++ r.writePtr ++ 0#3).toNat * 2 ^ 5 + r.readPtr.toNat := by
    rw [← Nat.shiftLeft_eq, Nat.shiftLeft_add_eq_or_of_lt r.readPtr.isLt, AudioRegs.state, BitVec.toNat_append]
  have hlt := r.readPtr.isLt
  have hmask : (sampleReadPtr r.state).toNat = r.state.toNat % 32 := toNat_and_descMask _
  omega

theorem takesTimeStamp_iff : takesTimeStamp readPtr lastReadPtr = true ↔ readPtr.toNat = 0 ∧ lastReadPtr.toNat ≠ 0 := by
  simp [takesTimeStamp, ← BitVec.toNat_inj]

/-- The write pointer goes four descriptors past a sample that is a multiple of four. -/
theorem keepMoving_writePtr : (keepMoving readPtr r).writePtr.toNat =
    if readPtr.toNat % 4 = 0 then (readPtr.toNat + 4) % 32 else r.writePtr.toNat := by
  have hcond : readPtr % (audioDescCount / 8) = 0 ↔ readPtr.toNat % 4 = 0 := by
    rw [← BitVec.toNat_inj, BitVec.toNat_umod]
    exact Iff.rfl
  have hnext : ((readPtr + audioDescCount / 8) &&& audioDescMask).toNat = (readPtr.toNat + 4) % 32 := by
    rw [toNat_and_descMask, BitVec.toNat_add, show (audioDescCount / 8).toNat = 4 from rfl]
    omega
  unfold keepMoving
  rw [apply_ite AudioRegs.writePtr, apply_ite BitVec.toNat, if_congr hcond rfl rfl]
  refine if_congr Iff.rfl ?_ rfl
  rw [AudioRegs.writeState, BitVec.extractLsb'_toNat, BitVec.toNat_shiftLeft, hnext, audioRegStateWritePtrShift,
    Nat.shiftLeft_eq, Nat.shiftRight_eq_div_pow]
  omega

@[simp] theorem keepMoving_readPtr : (keepMoving readPtr r).readPtr = r.readPtr := by
  unfold keepMoving
  split <;> rfl

@[simp] theorem keepMoving_control : (keepMoving readPtr r).control = r.control := by
  unfold keepMoving
  split <;> rfl

end Accesses

/-! ## Counts that do not wrap -/

section Counts

variable {es es' : List AudioEdge} {e : AudioEdge}

@[simp] theorem advances_append : advances (es ++ es') = advances es + advances es' := List.countP_append

@[simp] theorem returns_append : returns (es ++ es') = returns es + returns es' := List.countP_append

@[simp] theorem stamps_append : stamps (es ++ es') = stamps es + stamps es' := List.countP_append

@[simp] theorem advances_singleton : advances [e] = if e.label.isAdvance then 1 else 0 := by
  simp [advances, List.countP_singleton]

@[simp] theorem returns_singleton : returns [e] = if returnsToZero e then 1 else 0 := by
  simp [returns, List.countP_singleton]

@[simp] theorem stamps_singleton : stamps [e] = if e.label.isStamp then 1 else 0 := by
  simp [stamps, List.countP_singleton]

/-- The call of `takeTimeStamp` that a sample left by the playback before makes. -/
def firstStamp (lastReadPtr : Word) : ℕ := if lastReadPtr = 0 then 0 else 1

/-- The last sample was taken at the count `l`, not after `now`, and has been followed: the write pointer is past it.
Before the first call nothing has moved. -/
def LastSample (first : Word) (now head stamps : ℕ) (lastReadPtr : Word) : Prop :=
  head = 0 ∧ stamps = 0 ∧ lastReadPtr = first ∨
    ∃ l ≤ now, lastReadPtr.toNat = l % 32 ∧ l < head ∧ head ≤ l + 4 ∧ stamps = firstStamp first + l / 32

/-- What a call of the handler knows, by how far it is. -/
def CallInv (first : Word) (now head stamps : ℕ) (lastReadPtr : Word) : AudioTimer → Prop
  | .off => False
  | .armed => LastSample first now head stamps lastReadPtr
  | .sampled readPtr => ∃ l ≤ now, readPtr.toNat = l % 32 ∧ head ≤ l + 4 ∧ LastSample first l head stamps lastReadPtr
  | .stamped readPtr => ∃ l ≤ now, readPtr.toNat = l % 32 ∧ head ≤ l + 4 ∧ lastReadPtr = readPtr ∧
      stamps = firstStamp first + l / 32

/-- What holds after `n` advances, `r` returns to 0 and `t` stamps; `head` is the write pointer without wrapping. -/
structure PlaybackInv (first : Word) (n r t : ℕ) (w : XenonAudioDevice) (head : ℕ) : Prop where
  running : has w.regs.control audioRegControlRun = true
  readPtr : w.regs.readPtr.toNat = n % 32
  writePtr : w.regs.writePtr.toNat = head % 32
  aligned : head % 4 = 0
  behind : n ≤ head
  ahead : head ≤ n + 4
  returns : r = n / 32
  call : CallInv first n head t w.lastReadPtr w.timer

end Counts

/-! ## The invariant -/

section Invariant

variable {first : Word} {n r t head : ℕ} {w v : XenonAudioDevice} {l : AudioLabel}

theorem LastSample.mono {now now' stamps : ℕ} {lastReadPtr : Word} (h : LastSample first now head stamps lastReadPtr)
    (hn : now ≤ now') : LastSample first now' head stamps lastReadPtr := by
  refine h.imp_right ?_
  rintro ⟨l, hl, hrest⟩
  exact ⟨l, Nat.le_trans hl hn, hrest⟩

theorem CallInv.mono {now now' stamps : ℕ} {lastReadPtr : Word} {timer : AudioTimer}
    (h : CallInv first now head stamps lastReadPtr timer) (hn : now ≤ now') :
    CallInv first now' head stamps lastReadPtr timer := by
  cases timer with
  | off => exact h
  | armed => exact LastSample.mono h hn
  | sampled readPtr =>
    obtain ⟨l, hl, hrest⟩ := h
    exact ⟨l, Nat.le_trans hl hn, hrest⟩
  | stamped readPtr =>
    obtain ⟨l, hl, hrest⟩ := h
    exact ⟨l, Nat.le_trans hl hn, hrest⟩

theorem playbackInv_init (h : AudioInit first w) : PlaybackInv first 0 0 0 w 0 := by
  obtain ⟨u, hread, hwrite, hlast, rfl⟩ := h
  rw [startAudio, if_pos rfl]
  refine ⟨?_, by simp [hread], by simp [hwrite], rfl, Nat.le_refl _, by omega, rfl, ?_⟩
  · exact has_latched (by decide)
  · exact Or.inl ⟨rfl, rfl, hlast⟩

/-- A stamp for a sample is the one that is due. -/
theorem stamp_due {now stamps : ℕ} {readPtr lastReadPtr : Word} (hread : readPtr.toNat = now % 32)
    (haligned : head % 4 = 0) (hlow : now ≤ head) (hhead : head ≤ now + 4)
    (h : LastSample first now head stamps lastReadPtr) :
    (stamps + if takesTimeStamp readPtr lastReadPtr then 1 else 0) = firstStamp first + now / 32 ∧
      (takesTimeStamp readPtr lastReadPtr = true → now % 32 = 0 ∧ now = head) := by
  rcases h with ⟨hhead0, hstamps, hlast⟩ | ⟨l, hl, hlast, hlt, hle, hstamps⟩
  · have hnow : now = 0 := by omega
    subst hnow hhead0 hlast
    have hzero : readPtr = 0 := BitVec.eq_of_toNat_eq hread
    refine ⟨?_, fun _ => ⟨rfl, rfl⟩⟩
    rw [hstamps, hzero, firstStamp]
    by_cases h0 : lastReadPtr = 0 <;> simp [takesTimeStamp, h0]
  · cases htake : takesTimeStamp readPtr lastReadPtr with
    | true =>
      rw [takesTimeStamp_iff, hread, hlast] at htake
      refine ⟨?_, fun _ => ⟨htake.1, by omega⟩⟩
      rw [hstamps, if_pos rfl]
      omega
    | false =>
      have hnot : ¬ (now % 32 = 0 ∧ l % 32 ≠ 0) := by
        rw [← hread, ← hlast, ← takesTimeStamp_iff, htake]
        exact Bool.false_ne_true
      refine ⟨?_, fun h => absurd h Bool.false_ne_true⟩
      rw [hstamps, if_neg Bool.false_ne_true]
      omega

theorem playbackInv_advance (h : PlaybackInv first n r t w head) (length : BitVec 16)
    (hne : w.regs.readPtr ≠ w.regs.writePtr) : PlaybackInv first (n + 1)
      (r + if w.regs.readPtr + 1 = 0 then 1 else 0) t
      { w with regs.readPtr := w.regs.readPtr + 1, regs.length := length } head := by
  have hlow := h.behind
  have hhigh := h.ahead
  have hdiff : n ≠ head := by
    intro he
    exact hne (BitVec.eq_of_toNat_eq (by rw [h.readPtr, h.writePtr, he]))
  have hnext : (w.regs.readPtr + 1).toNat = (n + 1) % 32 := by
    rw [BitVec.toNat_add, h.readPtr, show (1 : BitVec 5).toNat = 1 from rfl]
    omega
  refine ⟨h.running, hnext, h.writePtr, h.aligned, by omega, by omega, ?_, h.call.mono (Nat.le_succ _)⟩
  have hzero : w.regs.readPtr + 1 = 0 ↔ (n + 1) % 32 = 0 := by
    rw [← BitVec.toNat_inj, hnext]
    exact Iff.rfl
  rw [h.returns, if_congr hzero rfl rfl]
  split <;> omega

theorem playbackInv_drain (h : PlaybackInv first n r t w head) (length : BitVec 16) :
    PlaybackInv first n r t { w with regs.length := length } head :=
  ⟨h.running, h.readPtr, h.writePtr, h.aligned, h.behind, h.ahead, h.returns, h.call⟩

theorem playbackInv_read (h : PlaybackInv first n r t w head) (htimer : w.timer = .armed) :
    PlaybackInv first n r t { w with timer := .sampled (sampleReadPtr w.regs.state) } head := by
  have hlast : LastSample first n head t w.lastReadPtr := by
    have hcall := h.call
    rwa [htimer] at hcall
  refine ⟨h.running, h.readPtr, h.writePtr, h.aligned, h.behind, h.ahead, h.returns, n, Nat.le_refl _, ?_, h.ahead,
    hlast⟩
  rw [toNat_sampleReadPtr, h.readPtr]

theorem playbackInv_stamp (h : PlaybackInv first n r t w head) {readPtr : Word} (htimer : w.timer = .sampled readPtr) :
    (takesTimeStamp readPtr w.lastReadPtr = true → w.regs.readPtr = 0) ∧ PlaybackInv first n r
      (t + if takesTimeStamp readPtr w.lastReadPtr then 1 else 0)
      { w with lastReadPtr := readPtr, timer := .stamped readPtr } head := by
  obtain ⟨l, hl, hread, hle, hlast⟩ : ∃ l ≤ n, readPtr.toNat = l % 32 ∧ head ≤ l + 4 ∧
      LastSample first l head t w.lastReadPtr := by
    have hcall := h.call
    rwa [htimer] at hcall
  have hbehind := h.behind
  obtain ⟨hdue, hzero⟩ := stamp_due hread h.aligned (by omega) hle hlast
  constructor
  · intro htake
    obtain ⟨hmod, heq⟩ := hzero htake
    have hn : n = l := by omega
    exact BitVec.eq_of_toNat_eq (by rw [h.readPtr, hn, hmod]; rfl)
  · exact ⟨h.running, h.readPtr, h.writePtr, h.aligned, h.behind, h.ahead, h.returns, l, hl, hread, hle, rfl, hdue⟩

/-- A call that read the pointer where it is now leaves the write pointer past it. -/
theorem playbackInv_finish (h : PlaybackInv first n r t w head) {readPtr : Word} (htimer : w.timer = .stamped readPtr) :
    ∃ head' ≥ head, (n % 4 = 0 → readPtr.toNat = n % 32 → n < head') ∧
      PlaybackInv first n r t { w with regs := keepMoving readPtr w.regs, timer := .armed } head' := by
  obtain ⟨l, hl, hread, hle, hlast, hstamps⟩ : ∃ l ≤ n, readPtr.toNat = l % 32 ∧ head ≤ l + 4 ∧
      w.lastReadPtr = readPtr ∧ t = firstStamp first + l / 32 := by
    have hcall := h.call
    rwa [htimer] at hcall
  have hbehind := h.behind
  have hahead := h.ahead
  have haligned := h.aligned
  have hnow : readPtr.toNat = n % 32 → l = n := by omega
  have hwrite : (keepMoving readPtr w.regs).writePtr.toNat = if l % 4 = 0 then (l + 4) % 32 else head % 32 := by
    rw [keepMoving_writePtr, h.writePtr, hread, Nat.mod_mod_of_dvd l (by decide)]
    refine if_congr Iff.rfl ?_ rfl
    omega
  have hkeep : ∀ head', head ≤ head' → head' ≤ l + 4 → l < head' → head' % 4 = 0 →
      (keepMoving readPtr w.regs).writePtr.toNat = head' % 32 →
        PlaybackInv first n r t { w with regs := keepMoving readPtr w.regs, timer := .armed } head' := by
    intro head' hge hle' hlt hmod hptr
    refine ⟨?_, ?_, hptr, hmod, by omega, by omega, h.returns, Or.inr ⟨l, hl, ?_, hlt, hle', hstamps⟩⟩
    · rw [keepMoving_control]
      exact h.running
    · rw [keepMoving_readPtr]
      exact h.readPtr
    · rw [hlast]
      exact hread
  by_cases hmod : l % 4 = 0
  · rw [if_pos hmod] at hwrite
    refine ⟨l + 4, by omega, fun _ he => ?_, hkeep (l + 4) hle (Nat.le_refl _) (by omega) (by omega) hwrite⟩
    rw [hnow he]
    omega
  · rw [if_neg hmod] at hwrite
    refine ⟨head, Nat.le_refl _, fun hn he => absurd hn (by rw [← hnow he]; exact hmod), ?_⟩
    exact hkeep head (Nat.le_refl _) hle (by omega) haligned hwrite

theorem playbackInv_step (h : PlaybackInv first n r t w head) (hs : AudioStep w l v) :
    ∃ head' ≥ head, PlaybackInv first (n + advances [⟨w, l, v⟩]) (r + returns [⟨w, l, v⟩]) (t + stamps [⟨w, l, v⟩])
      v head' := by
  cases hs with
  | advance length hrun hne =>
    refine ⟨head, Nat.le_refl _, ?_⟩
    simpa [AudioLabel.isAdvance, AudioLabel.isStamp, returnsToZero] using playbackInv_advance h length hne
  | drain length =>
    exact ⟨head, Nat.le_refl _, playbackInv_drain h length⟩
  | read htimer =>
    exact ⟨head, Nat.le_refl _, playbackInv_read h htimer⟩
  | stamp htimer =>
    refine ⟨head, Nat.le_refl _, ?_⟩
    rw [stamps_singleton]
    exact (playbackInv_stamp h htimer).2
  | finish htimer =>
    obtain ⟨head', hhead, -, h'⟩ := playbackInv_finish h htimer
    exact ⟨head', hhead, h'⟩

/-- Just before a return to 0 the stamp of the last one was taken. -/
theorem stamps_before_return (h : PlaybackInv first n r t w head) (hs : AudioStep w l v)
    (hret : returnsToZero ⟨w, l, v⟩ = true) : l = .advance ∧ (n + 1) % 32 = 0 ∧ t = firstStamp first + n / 32 := by
  obtain ⟨hl, hn, hlt⟩ : l = .advance ∧ (n + 1) % 32 = 0 ∧ n < head := by
    cases hs with
    | advance length hrun hne =>
      have hinv := playbackInv_advance h length hne
      have hzero : w.regs.readPtr + 1 = 0 := by simpa [returnsToZero, AudioLabel.isAdvance] using hret
      refine ⟨rfl, ?_, hinv.behind⟩
      rw [← hinv.readPtr, hzero]
      rfl
    | _ => cases hret
  have hhead : head = n + 1 := by
    have hahead := h.ahead
    have haligned := h.aligned
    omega
  have hlast : ∀ now ≤ n, LastSample first now head t w.lastReadPtr → t = firstStamp first + n / 32 := by
    rintro now hnow (⟨h0, -, -⟩ | ⟨l, hl, -, hlt', hle, hstamps⟩)
    · omega
    · omega
  refine ⟨hl, hn, ?_⟩
  have hcall := h.call
  cases htimer : w.timer with
  | off =>
    rw [htimer] at hcall
    exact hcall.elim
  | armed =>
    rw [htimer] at hcall
    exact hlast n (Nat.le_refl _) hcall
  | sampled readPtr =>
    rw [htimer] at hcall
    obtain ⟨l, hl, -, -, hcall⟩ := hcall
    exact hlast l hl hcall
  | stamped readPtr =>
    rw [htimer] at hcall
    obtain ⟨l, hl, -, hle, -, hstamps⟩ := hcall
    omega

end Invariant

/-! ## Runs -/

section Runs

variable {first : Word} {n r t head : ℕ} {w v u : XenonAudioDevice} {l : AudioLabel} {es es' : List AudioEdge}
  {e : AudioEdge}

theorem playbackInv_run (h : Run (AudioInit first) AudioStep es w) :
    ∃ head, PlaybackInv first (advances es) (returns es) (stamps es) w head := by
  induction h with
  | start hinit => exact ⟨0, playbackInv_init hinit⟩
  | step _ hs ih =>
    obtain ⟨head, hinv⟩ := ih
    obtain ⟨head', -, hinv'⟩ := playbackInv_step hinv hs
    rw [advances_append, returns_append, stamps_append]
    exact ⟨head', hinv'⟩

/-- A stamp is taken while the hardware is still where it returned to. -/
theorem stamp_at_zero (h : Run (AudioInit first) AudioStep es w) :
    ∀ e ∈ es, e.label.isStamp = true → e.pre.regs.readPtr = 0 := by
  induction h with
  | start => exact List.forall_mem_nil _
  | step hr hs ih =>
    refine forall_snoc.mpr ⟨ih, fun htake => ?_⟩
    obtain ⟨head, hinv⟩ := playbackInv_run hr
    cases hs with
    | stamp htimer => exact (playbackInv_stamp hinv htimer).1 htake
    | _ => cases htake

theorem not_completes_nil : ¬ Completes [] := by
  rintro ⟨as, bs, hes, ⟨e, he, -⟩, -⟩
  rw [(List.append_eq_nil_iff.mp hes.symm).1] at he
  cases he

/-- A call that the last step completes was begun before. -/
theorem completes_snoc (h : Completes (es ++ [e])) :
    Completes es ∨ e.label = .finish ∧ ∃ x ∈ es, x.label = .read := by
  obtain ⟨as, bs, hes, hread, y, hy, hfinish⟩ := h
  rcases List.eq_nil_or_concat bs with rfl | ⟨bs, z, rfl⟩
  · cases hy
  · rw [List.concat_eq_append] at hes hy
    rw [← List.append_assoc] at hes
    obtain ⟨rfl, hz⟩ := List.append_inj' hes rfl
    obtain rfl := List.singleton_inj.mp hz
    rcases List.mem_append.mp hy with hy | hy
    · exact Or.inl ⟨as, bs, rfl, hread, y, hy, hfinish⟩
    · rw [List.mem_singleton.mp hy] at hfinish
      obtain ⟨x, hx, hlabel⟩ := hread
      exact Or.inr ⟨hfinish, x, List.mem_append_left _ hx, hlabel⟩

/-- A call that has read the pointer where it is. -/
def Follows (n : ℕ) (w : XenonAudioDevice) : Prop :=
  ∃ readPtr : Word, readPtr.toNat = n % 32 ∧ (w.timer = .sampled readPtr ∨ w.timer = .stamped readPtr)

/-- While the hardware does not advance, a call that is completed takes the write pointer past it. -/
theorem stalled (h : PlaybackInv first n r t w head) (hn : n % 4 = 0) (hp : Path AudioStep w es v)
    (hes : advances es = 0) : ∃ t' head', PlaybackInv first n r t' v head' ∧
      ((∃ e ∈ es, e.label = .read) → n < head' ∨ Follows n v) ∧ (Completes es → n < head') := by
  induction hp with
  | start hs =>
    subst hs
    exact ⟨t, head, h, by simp, fun hc => absurd hc not_completes_nil⟩
  | @step es s v l hr hs ih =>
    rw [advances_append, Nat.add_eq_zero_iff] at hes
    obtain ⟨t', head', hinv, hread, hdone⟩ := ih hes.1
    have hbegun : (∃ x ∈ es ++ [⟨s, l, v⟩], x.label = .read) → (∃ x ∈ es, x.label = .read) ∨ l = .read := by
      rintro ⟨x, hx, hlabel⟩
      rcases List.mem_append.mp hx with hx | hx
      · exact Or.inl ⟨x, hx, hlabel⟩
      · rw [List.mem_singleton.mp hx] at hlabel
        exact Or.inr hlabel
    have hended : Completes (es ++ [⟨s, l, v⟩]) → Completes es ∨ l = .finish ∧ ∃ x ∈ es, x.label = .read :=
      completes_snoc
    cases hs with
    | advance => simp [AudioLabel.isAdvance] at hes
    | drain length =>
      refine ⟨t', head', playbackInv_drain hinv length, fun hb => ?_, fun hc => ?_⟩
      · exact hread ((hbegun hb).resolve_right (by simp))
      · exact hdone ((hended hc).resolve_right (by simp))
    | read htimer =>
      refine ⟨t', head', playbackInv_read hinv htimer, fun _ => ?_, fun hc => ?_⟩
      · exact Or.inr ⟨_, by rw [toNat_sampleReadPtr, hinv.readPtr], Or.inl rfl⟩
      · exact hdone ((hended hc).resolve_right (by simp))
    | stamp htimer =>
      refine ⟨_, head', (playbackInv_stamp hinv htimer).2, fun hb => ?_, fun hc => ?_⟩
      · refine (hread ((hbegun hb).resolve_right (by simp))).imp_right ?_
        rintro ⟨p, hp, hs | hs⟩
        · rw [htimer, AudioTimer.sampled.injEq] at hs
          exact ⟨p, hp, Or.inr (by rw [hs])⟩
        · rw [htimer] at hs
          cases hs
      · exact hdone ((hended hc).resolve_right (by simp))
    | finish htimer =>
      obtain ⟨head'', hge, hpast, hinv'⟩ := playbackInv_finish hinv htimer
      have hmoved : (∃ x ∈ es, x.label = .read) → n < head'' := by
        intro hb
        rcases hread hb with hlt | ⟨p, hp, hs | hs⟩
        · exact Nat.lt_of_lt_of_le hlt hge
        · rw [htimer] at hs
          cases hs
        · rw [htimer, AudioTimer.stamped.injEq] at hs
          exact hpast hn (by rw [hs, hp])
      refine ⟨t', head'', hinv', fun hb => ?_, fun hc => ?_⟩
      · exact Or.inl (hmoved ((hbegun hb).resolve_right (by simp)))
      · rcases hended hc with hc | ⟨-, hb⟩
        · exact Nat.lt_of_lt_of_le (hdone hc) hge
        · exact hmoved hb

/-- The steps `es` of one playback, from its start to `w`, and any that follow, are as they should be. -/
structure PlaybackCorrect (es : List AudioEdge) (w : XenonAudioDevice) : Prop where
  aligned : w.regs.writePtr.toNat % 4 = 0
  ahead : (w.regs.writePtr - w.regs.readPtr).toNat ≤ 4
  resumes : w.regs.readPtr = w.regs.writePtr → ∀ es' v, Path AudioStep w es' v → Completes es' →
    (∃ e ∈ es', e.label = .advance) ∨ CanAdvance v
  stamped : ∀ es₀ e, es = es₀ ++ [e] → returnsToZero e = true → ∀ es' v l u, Path AudioStep w es' v →
    returns es' = 0 → AudioStep v l u → returnsToZero ⟨v, l, u⟩ = true →
      stamps es' = 1 ∧ ∀ x ∈ es', x.label.isStamp = true → x.pre.regs.readPtr = 0

theorem canAdvance_of_lt (h : PlaybackInv first n r t w head) (hlt : n < head) : CanAdvance w := by
  refine ⟨h.running, fun he => ?_⟩
  have hptr : n % 32 = head % 32 := by rw [← h.readPtr, ← h.writePtr, he]
  have hahead := h.ahead
  omega

/-- **Playback is correct.** -/
theorem playback_correct (h : Run (AudioInit first) AudioStep es w) : PlaybackCorrect es w := by
  obtain ⟨head, hinv⟩ := playbackInv_run h
  have hread := hinv.readPtr
  have hwrite := hinv.writePtr
  have hbehind := hinv.behind
  have hahead := hinv.ahead
  have haligned := hinv.aligned
  refine ⟨by omega, ?_, fun hstop es' v hp hc => ?_, fun es₀ e hes hret es' v l u hp hnone hs hret' => ?_⟩
  · rw [BitVec.toNat_sub, hread, hwrite]
    omega
  · have hnow : advances es = head := by
      have hptr : advances es % 32 = head % 32 := by rw [← hread, ← hwrite, hstop]
      omega
    cases hes : advances es' with
    | zero =>
      obtain ⟨t', head', hinv', -, hdone⟩ := stalled hinv (by omega) hp hes
      exact Or.inr (canAdvance_of_lt hinv' (hdone hc))
    | succ k =>
      obtain ⟨e, he, hlabel⟩ := List.countP_pos_iff.mp (show 0 < advances es' by omega)
      refine Or.inl ⟨e, he, ?_⟩
      cases hl : e.label with
      | advance => rfl
      | _ => simp [hl, AudioLabel.isAdvance] at hlabel
  · subst hes
    obtain ⟨hr₀, hs₀, rfl⟩ := h.of_snoc
    obtain ⟨head₀, hinv₀⟩ := playbackInv_run hr₀
    obtain ⟨head', hinv'⟩ := playbackInv_run (h.append hp)
    obtain ⟨hl₀, hn₀, ht₀⟩ := stamps_before_return hinv₀ hs₀ hret
    obtain ⟨-, hn', ht'⟩ := stamps_before_return hinv' hs hret'
    have hreturns := hinv.returns
    have hreturns' := hinv'.returns
    simp only [advances_append, returns_append, stamps_append, advances_singleton, stamps_singleton, hl₀,
      AudioLabel.isAdvance, AudioLabel.isStamp, if_true, hnone] at hreturns hreturns' hn' ht'
    refine ⟨?_, fun x hx => stamp_at_zero (h.append hp) x (List.mem_append_right _ hx)⟩
    simp only [Bool.false_eq_true, if_false] at ht'
    omega

/-- The first call after the start, with the advances it allows up to a second call. -/
theorem playback_correct_first : ∃ es w, Run (AudioInit 7) AudioStep es w ∧ advances es = 2 ∧ stamps es = 1 ∧
    PlaybackCorrect es w := by
  have h0 : Run (AudioInit 7) AudioStep [] (startAudio 1 ⟨⟨0, 0, 0, 0⟩, 7, 1, .off⟩).1 :=
    .start ⟨⟨⟨0, 0, 0, 0⟩, 7, 1, .off⟩, rfl, rfl, rfl, rfl⟩
  have h3 := ((h0.step (.read rfl)).step (.stamp rfl)).step (.finish rfl)
  have h5 := (h3.step (.advance 2048 (by decide) (by decide))).step (.advance 2048 (by decide) (by decide))
  have h8 := ((h5.step (.read rfl)).step (.stamp rfl)).step (.finish rfl)
  exact ⟨_, _, h8, by decide, by decide, playback_correct h8⟩

end Runs

end Osx360.Audio
