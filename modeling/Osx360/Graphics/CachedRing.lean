import Osx360.Graphics.CacheSync
import Osx360.Lib.ByteMemory

/-!
# The ring behind the cache

The command ring one level down: the driver stores words into its cache, `syncRingBuffer` stores the lines of the ring
back one by one, waits for them and publishes the write pointer, and the GPU reads the memory. A line may also be
written back at any other time, and one that is stored back reaches the memory at any time before the `sync` ends.

- `Syncs` follows what is left of the driver's calls: whatever they are, a pointer that is published finds the lines of
  the ring in memory (`syncs_compile`);
- as long as the writes find room, the words that are published and not read are in memory (`cachedInv_step`), and every
  run is one of the ring without a cache (`cachedRing_refines`).
-/

set_option autoImplicit false

namespace Osx360.Graphics

open Osx360.Lib

/-! ## The buffer -/

/-- The buffer that `initHardware` allocates, aligned to its length. -/
structure RingBuffer where
  addr : Word
  aligned : addr.toNat % 0x8000 = 0
  fits : addr.toNat + 0x8000 + 127 ≤ 2 ^ 32 - 1

/-- The address of a word. -/
def RingBuffer.word (b : RingBuffer) (i : ℕ) : ℕ := b.addr.toNat + 4 * i

def RingBuffer.lines (b : RingBuffer) : List ℕ := linesOf 128 b.addr.toNat 0x8000

/-- The instructions of `syncData` on the whole buffer. -/
def RingBuffer.syncOps (b : RingBuffer) : List CacheOp := Graphics.syncOps b.addr (xenosRingbufferLength * 4)

/-! ## The machine -/

/-- What the driver executes: a store to the ring, an instruction on the cache, the store to `CP_RB_WPTR`. -/
inductive CpuOp
  | store (data : Word)
  | cache (op : CacheOp)
  | publish

def RingBuffer.compile (b : RingBuffer) : DriverOp → List CpuOp
  | .writeRing data => [.store data]
  | .syncRingBuffer => b.syncOps.map .cache ++ [.publish]

/-- The memory and its cache, the lines that are being stored back, the pointers, what is left of the driver's call, and
the history as in `RingWorld`. -/
structure CachedWorld where
  mem : CachedMemory Byte
  storing : List ℕ
  ringBufferWritePtr : Word
  cpRbWritePtr : Word
  readPtr : Word
  pending : List CpuOp
  log : List (ℕ × Word)
  published : ℕ
  consumed : List Word

inductive CachedLabel
  | store (data : Word)
  | dcbst (addr : Word)
  | sync
  | publish
  | tick
  | fetch
  | stored (k : ℕ)
  | evict (k : ℕ)

inductive CachedStep (b : RingBuffer) : CachedWorld → CachedLabel → CachedWorld → Prop
  | store {c : CachedWorld} {data : Word} {rest : List CpuOp} : c.pending = .store data :: rest →
      CachedStep b c (.store data) { c with
        mem := { c.mem with cache := storeWord c.mem.cache (b.word c.ringBufferWritePtr.toNat) data }
        ringBufferWritePtr := nextIndex c.ringBufferWritePtr
        pending := rest
        log := c.log ++ [(c.ringBufferWritePtr.toNat, data)] }
  | dcbst {c : CachedWorld} {addr : Word} {rest : List CpuOp} : c.pending = .cache (.dcbst addr) :: rest →
      CachedStep b c (.dcbst addr) { c with storing := addr.toNat / 128 :: c.storing, pending := rest }
  | sync {c : CachedWorld} {rest : List CpuOp} : c.pending = .cache .sync :: rest → c.storing = [] →
      CachedStep b c .sync { c with pending := rest }
  | publish {c : CachedWorld} {rest : List CpuOp} : c.pending = .publish :: rest →
      CachedStep b c .publish { c with
        cpRbWritePtr := c.ringBufferWritePtr
        pending := rest
        published := c.log.length }
  | tick {c : CachedWorld} : c.pending = [] →
      CachedStep b c .tick { c with pending := timerTick.flatMap b.compile }
  | fetch {c : CachedWorld} : c.readPtr ≠ c.cpRbWritePtr →
      CachedStep b c .fetch { c with
        readPtr := nextIndex c.readPtr
        consumed := c.consumed ++ [loadWord c.mem.memory (b.word c.readPtr.toNat)] }
  | stored {c : CachedWorld} {k : ℕ} : k ∈ c.storing →
      CachedStep b c (.stored k) { c with mem := writeBack 128 c.mem k, storing := c.storing.erase k }
  | evict {c : CachedWorld} {k : ℕ} : CachedStep b c (.evict k) { c with mem := writeBack 128 c.mem k }

/-- As `initHardware` leaves it, with any contents of the memory and of the cache. -/
def CachedInit (b : RingBuffer) (s : XenosSetup) (c : CachedWorld) : Prop :=
  c.storing = [] ∧ c.ringBufferWritePtr = 0 ∧ c.cpRbWritePtr = 0 ∧ c.readPtr = 0 ∧
    c.pending = (bringup s).flatMap b.compile ∧ c.log = [] ∧ c.published = 0 ∧ c.consumed = []

/-! ## The abstraction -/

/-- The step of the ring without a cache. -/
def CachedLabel.visible : CachedLabel → Option RingLabel
  | .store data => some (.writeRing data)
  | .publish => some .syncRingBuffer
  | .tick => some .tick
  | .fetch => some .consume
  | _ => none

def CpuOp.visible : CpuOp → Option DriverOp
  | .store data => some (.writeRing data)
  | .cache _ => none
  | .publish => some .syncRingBuffer

/-- The words of the ring as the driver reads them. -/
def CachedWorld.words (b : RingBuffer) (c : CachedWorld) (i : ℕ) : Word := loadWord c.mem.cache (b.word i)

/-- The words of the ring as the GPU reads them. -/
def CachedWorld.memoryWords (b : RingBuffer) (c : CachedWorld) (i : ℕ) : Word := loadWord c.mem.memory (b.word i)

/-- The ring without a cache holds what the driver reads. -/
def CachedWorld.abs (b : RingBuffer) (c : CachedWorld) : RingWorld where
  ring := ⟨c.words b, c.ringBufferWritePtr, c.cpRbWritePtr, c.readPtr⟩
  pending := c.pending.filterMap CpuOp.visible
  log := c.log
  published := c.published
  consumed := c.consumed

/-- A store finds fewer than `n` words that the GPU has not read. -/
def CachedFinds (n : ℕ) (c : CachedWorld) (l : CachedLabel) : Prop :=
  ∀ data, l = .store data → c.log.length - c.consumed.length < n

/-! ## The instructions -/

section Instructions

variable {b : RingBuffer} {ops : List CpuOp} {clean clean' stored stored' : ℕ → Prop}

theorem syncRing_eq (b : RingBuffer) {fuel : ℕ} (hf : 2 ^ 25 ≤ fuel) : syncRing fuel b.addr = some b.syncOps :=
  syncData_eq b.fits hf

theorem syncOps_eq (b : RingBuffer) :
    b.syncOps = b.lines.map (fun k => .dcbst (lineAddr k)) ++ [.sync] := rfl

theorem visible_compile (b : RingBuffer) (ops : List DriverOp) :
    (ops.flatMap b.compile).filterMap CpuOp.visible = ops := by
  induction ops with
  | nil => rfl
  | cons op ops ih =>
    rw [List.flatMap_cons, List.filterMap_append, ih]
    cases op with
    | writeRing data => rfl
    | syncRingBuffer =>
      have hcache : (b.syncOps.map CpuOp.cache).filterMap CpuOp.visible = [] := by
        rw [List.filterMap_map]
        exact List.filterMap_eq_nil_iff.mpr fun _ _ => rfl
      rw [RingBuffer.compile, List.filterMap_append, hcache]
      rfl

/-- With these lines clean and these stored back, every pointer that the instructions publish finds the lines of the
ring in memory. A store makes any line dirty, and a `sync` makes clean what was stored back before it. -/
def Syncs (b : RingBuffer) : (ℕ → Prop) → (ℕ → Prop) → List CpuOp → Prop
  | _, _, [] => True
  | _, _, .store _ :: ops => Syncs b (fun _ => False) (fun _ => False) ops
  | clean, stored, .cache (.dcbst addr) :: ops => Syncs b clean (fun k => k = addr.toNat / 128 ∨ stored k) ops
  | clean, stored, .cache .sync :: ops => Syncs b (fun k => clean k ∨ stored k) (fun _ => False) ops
  | clean, stored, .publish :: ops => (∀ k ∈ b.lines, clean k) ∧ Syncs b clean stored ops

theorem Syncs.mono (h : Syncs b clean stored ops) (hclean : ∀ k, clean k → clean' k)
    (hstored : ∀ k, stored k → clean' k ∨ stored' k) : Syncs b clean' stored' ops := by
  induction ops generalizing clean stored clean' stored' with
  | nil => trivial
  | cons op ops ih =>
    cases op with
    | store data => exact ih h (fun _ => False.elim) (fun _ => False.elim)
    | cache op =>
      cases op with
      | dcbst addr =>
        refine ih h hclean fun k hk => ?_
        rcases hk with rfl | hk
        · exact Or.inr (Or.inl rfl)
        · exact (hstored k hk).imp_right Or.inr
      | sync =>
        refine ih h (fun k hk => ?_) (fun _ => False.elim)
        rcases hk with hk | hk
        · exact Or.inl (hclean k hk)
        · exact hstored k hk
    | publish => exact ⟨fun k hk => hclean k (h.1 k hk), ih h.2 hclean hstored⟩

theorem lines_lt (b : RingBuffer) {k : ℕ} (hk : k ∈ b.lines) : k < 2 ^ 25 := by
  exact @lt_of_mem_linesOf b.addr (xenosRingbufferLength * 4) b.fits k hk

/-- Lines that are stored back one after another. -/
theorem syncs_dcbst {ks : List ℕ} (hks : ∀ k ∈ ks, k < 2 ^ 25)
    (h : Syncs b clean (fun k => k ∈ ks ∨ stored k) ops) :
    Syncs b clean stored ((ks.map fun k => .cache (.dcbst (lineAddr k))) ++ ops) := by
  induction ks generalizing stored with
  | nil => exact h.mono (fun _ => id) fun k hk => Or.inr (hk.resolve_left List.not_mem_nil)
  | cons j ks ih =>
    rw [List.forall_mem_cons] at hks
    have hline : (lineAddr j).toNat / 128 = j := by
      rw [toNat_lineAddr hks.1]
      exact Nat.mul_div_cancel j (by decide)
    refine ih hks.2 (h.mono (fun _ => id) fun k hk => Or.inr ?_)
    rw [hline, or_left_comm, ← or_assoc, ← List.mem_cons]
    exact hk

/-- **The calls of the driver**, in any order, publish no pointer before the ring is in memory. -/
theorem syncs_compile (b : RingBuffer) (ops : List DriverOp) (clean stored : ℕ → Prop) :
    Syncs b clean stored (ops.flatMap b.compile) := by
  induction ops generalizing clean stored with
  | nil => trivial
  | cons op ops ih =>
    cases op with
    | writeRing data => exact ih _ _
    | syncRingBuffer =>
      rw [List.flatMap_cons, RingBuffer.compile, syncOps_eq, List.map_append, List.map_map, List.append_assoc,
        List.append_assoc]
      refine syncs_dcbst (fun k hk => lines_lt b hk) ⟨fun k hk => ?_, ih _ _⟩
      exact Or.inr (Or.inl hk)

end Instructions

/-! ## The words in memory -/

section Words

variable {b : RingBuffer} {c : CachedWorld} {m : CachedMemory Byte} {i k : ℕ}

/-- The line is in memory as the driver reads it. -/
def Clean (m : CachedMemory Byte) (k : ℕ) : Prop := ∀ x, x / 128 = k → m.memory x = m.cache x

theorem clean_writeBack (m : CachedMemory Byte) (k : ℕ) : Clean (writeBack 128 m k) k := by
  intro x hx
  simp [writeBack, hx]

theorem Clean.writeBack {j : ℕ} (h : Clean m j) (k : ℕ) : Clean (writeBack 128 m k) j := by
  intro x hx
  by_cases hk : x / 128 = k
  · simp [Lib.writeBack, hk]
  · simpa [Lib.writeBack, hk] using h x hx

/-- A word lies in one line. -/
theorem word_line (b : RingBuffer) (i : ℕ) {j : ℕ} (hj : j < 4) : (b.word i + j) / 128 = b.word i / 128 := by
  have haligned := b.aligned
  rw [RingBuffer.word]
  omega

theorem word_mem_lines (b : RingBuffer) (hi : i < 8192) : b.word i / 128 ∈ b.lines := by
  refine (mem_linesOf (by decide)).mpr ⟨b.word i, ?_, ?_, rfl⟩
  · rw [RingBuffer.word]
    omega
  · rw [RingBuffer.word]
    omega

theorem loadWord_writeBack (b : RingBuffer) (m : CachedMemory Byte) (i k : ℕ) :
    loadWord (writeBack 128 m k).memory (b.word i) =
      if b.word i / 128 = k then loadWord m.cache (b.word i) else loadWord m.memory (b.word i) := by
  split
  · next hk =>
    refine loadWord_congr fun j hj => ?_
    dsimp only [writeBack]
    rw [word_line b i hj, if_pos hk]
  · next hk =>
    refine loadWord_congr fun j hj => ?_
    dsimp only [writeBack]
    rw [word_line b i hj, if_neg hk]

theorem loadWord_of_clean (h : Clean m (b.word i / 128)) : loadWord m.memory (b.word i) = loadWord m.cache (b.word i) :=
  loadWord_congr fun _ hj => h _ (word_line b i hj)

end Words

/-! ## The invariant -/

section Invariant

variable {b : RingBuffer} {s : XenosSetup} {c d : CachedWorld} {l : CachedLabel}

/-- What holds as long as every store finds room. -/
structure CachedInv (b : RingBuffer) (c : CachedWorld) : Prop where
  ring : RingInv (c.abs b)
  syncs : Syncs b (Clean c.mem) (· ∈ c.storing) c.pending
  memory : Holds 8192 (c.memoryWords b) ((c.log.map Prod.snd).take c.published) c.consumed.length

theorem cachedInit_abs (h : CachedInit b s c) : RingInit s (c.abs b) := by
  obtain ⟨-, hwrite, hcp, hread, hpending, hlog, hpub, hcons⟩ := h
  refine ⟨hwrite, hcp, hread, ?_, hlog, hpub, hcons⟩
  rw [CachedWorld.abs, hpending, visible_compile]

theorem cachedInv_init (h : CachedInit b s c) : CachedInv b c := by
  refine ⟨ringInv_init (cachedInit_abs h), ?_, ?_⟩
  · rw [h.2.2.2.2.1]
    exact syncs_compile b _ _ _
  · rw [h.2.2.2.2.2.1, List.map_nil, List.take_nil]
    exact holds_nil

/-- The driver's words and the GPU's, one by one. -/
theorem memory_eq_log (h : CachedInv b c) {k : ℕ} (hread : c.consumed.length ≤ k) (hk : k < c.published) :
    c.memoryWords b (k % 8192) = c.words b (k % 8192) := by
  have hpub : c.published ≤ c.log.length := h.ring.published
  have hlen : k < (c.log.map Prod.snd).length := by
    rw [List.length_map]
    omega
  have hcache : c.words b (k % 8192) = (c.log.map Prod.snd)[k] := h.ring.ring k hlen hread
  have hmem := h.memory k (by rw [List.length_take]; omega) hread
  rw [hmem, hcache, List.getElem_take]

/-- A line that is written back takes the words of the driver. -/
theorem holds_writeBack (h : CachedInv b c) (k : ℕ) :
    Holds 8192 (fun i => loadWord (writeBack 128 c.mem k).memory (b.word i))
      ((c.log.map Prod.snd).take c.published) c.consumed.length := by
  intro j hj hread
  have hmem := h.memory j hj hread
  rw [List.length_take] at hj
  have heq := memory_eq_log h hread (by omega)
  dsimp only
  rw [loadWord_writeBack, ← hmem]
  split
  · exact heq.symm
  · rfl

/-- Every step that is visible is one of the ring without a cache. -/
theorem cachedStep_visible {r : RingLabel} (h : CachedInv b c) (hs : CachedStep b c l d) (hl : l.visible = some r) :
    RingStep (c.abs b) r (d.abs b) := by
  cases hs with
  | @store data rest hp =>
    obtain rfl := Option.some.inj hl
    have hpending : (c.abs b).pending = .writeRing data :: rest.filterMap CpuOp.visible := by
      rw [CachedWorld.abs, hp]
      rfl
    have hwords : (fun i => loadWord (storeWord c.mem.cache (b.word c.ringBufferWritePtr.toNat) data) (b.word i)) =
        Function.update (c.words b) c.ringBufferWritePtr.toNat data := loadWord_storeWord _ _ _ _
    have hstep : RingStep (c.abs b) (.writeRing data) { c.abs b with
        ring := ⟨Function.update (c.words b) c.ringBufferWritePtr.toNat data, nextIndex c.ringBufferWritePtr,
          c.cpRbWritePtr, c.readPtr⟩
        pending := rest.filterMap CpuOp.visible
        log := c.log ++ [(c.ringBufferWritePtr.toNat, data)] } := RingStep.writeRing hpending
    rw [← hwords] at hstep
    exact hstep
  | @publish rest hp =>
    obtain rfl := Option.some.inj hl
    have hpending : (c.abs b).pending = .syncRingBuffer :: rest.filterMap CpuOp.visible := by
      rw [CachedWorld.abs, hp]
      rfl
    exact RingStep.syncRingBuffer hpending
  | tick hp =>
    obtain rfl := Option.some.inj hl
    have hpending : (c.abs b).pending = [] := by
      rw [CachedWorld.abs, hp]
      rfl
    have hstep := RingStep.tick hpending
    have htick := visible_compile b timerTick
    rwa [← htick] at hstep
  | fetch hne =>
    obtain rfl := Option.some.inj hl
    -- The word in memory is the one that the driver reads.
    have hread : c.consumed.length ≤ c.published := h.ring.read
    have hpub : c.published ≤ c.log.length := h.ring.published
    have hroom : c.log.length ≤ c.consumed.length + 8192 := h.ring.room
    have hr : c.readPtr.toNat = c.consumed.length % 8192 := h.ring.readPtr
    have hcp : c.cpRbWritePtr.toNat = c.published % 8192 := h.ring.cpRbWritePtr
    have hlt : c.consumed.length < c.published := by
      have hptr : c.consumed.length ≠ c.published := by
        intro he
        exact hne (BitVec.eq_of_toNat_eq (by rw [hr, hcp, he]))
      omega
    have hword : c.memoryWords b c.readPtr.toNat = c.words b c.readPtr.toNat := by
      rw [hr]
      exact memory_eq_log h (Nat.le_refl _) hlt
    have hstep : RingStep (c.abs b) .consume _ := RingStep.consume hne
    rw [CachedWorld.memoryWords] at hword
    rw [hword]
    exact hstep
  | dcbst => cases hl
  | sync => cases hl
  | stored => cases hl
  | evict => cases hl

/-- The other steps change nothing in it. -/
theorem cachedStep_unseen (hs : CachedStep b c l d) (hl : l.visible = none) : d.abs b = c.abs b := by
  cases hs with
  | store => cases hl
  | publish => cases hl
  | tick => cases hl
  | fetch => cases hl
  | dcbst hp =>
    rw [CachedWorld.abs, CachedWorld.abs, hp]
    rfl
  | sync hp =>
    rw [CachedWorld.abs, CachedWorld.abs, hp]
    rfl
  | stored => rfl
  | evict => rfl

theorem CachedFinds.abs {n : ℕ} {r : RingLabel} (h : CachedFinds n c l) (hl : l.visible = some r) :
    Finds n (c.abs b) r := by
  intro data hr
  rw [length_unread]
  subst hr
  cases l with
  | store data' => exact h data' rfl
  | _ => cases hl

theorem ringInv_abs (h : CachedInv b c) (hroom : CachedFinds 8192 c l) (hs : CachedStep b c l d) :
    RingInv (d.abs b) := by
  cases hl : l.visible with
  | none =>
    rw [cachedStep_unseen hs hl]
    exact h.ring
  | some r => exact ringInv_step h.ring (hroom.abs hl) (cachedStep_visible h hs hl)

theorem syncs_step (h : Syncs b (Clean c.mem) (· ∈ c.storing) c.pending) (hs : CachedStep b c l d) :
    Syncs b (Clean d.mem) (· ∈ d.storing) d.pending := by
  cases hs with
  | store hp =>
    rw [hp] at h
    exact Syncs.mono h (fun _ => False.elim) (fun _ => False.elim)
  | dcbst hp =>
    rw [hp] at h
    exact Syncs.mono h (fun _ => id) fun k hk => Or.inr (List.mem_cons.mpr hk)
  | sync hp hnone =>
    rw [hp] at h
    refine Syncs.mono h (fun k hk => hk.resolve_right ?_) (fun _ => False.elim)
    rw [hnone]
    exact List.not_mem_nil
  | publish hp =>
    rw [hp] at h
    exact h.2
  | tick => exact syncs_compile b _ _ _
  | fetch => exact h
  | @stored k hk =>
    refine h.mono (fun j hj => hj.writeBack k) fun j hj => ?_
    by_cases hjk : j = k
    · subst hjk
      exact Or.inl (clean_writeBack _ _)
    · exact Or.inr ((List.mem_erase_of_ne hjk).mpr hj)
  | @evict k => exact h.mono (fun j hj => hj.writeBack k) fun j hj => Or.inr hj

theorem memory_step (h : CachedInv b c) (hs : CachedStep b c l d) :
    Holds 8192 (d.memoryWords b) ((d.log.map Prod.snd).take d.published) d.consumed.length := by
  have hpub : c.published ≤ c.log.length := h.ring.published
  cases hs with
  | store =>
    rw [List.map_append, List.take_append_of_le_length (by rw [List.length_map]; exact hpub)]
    exact h.memory
  | publish hp =>
    -- All lines of the ring are clean here, so the memory holds what the driver wrote.
    have hclean := h.syncs
    rw [hp] at hclean
    intro k hk hread
    rw [List.length_take, List.length_map, Nat.min_self] at hk
    rw [List.getElem_take]
    have hlt : k % 8192 < 8192 := Nat.mod_lt _ (by decide)
    have hcache := h.ring.ring k (by rwa [List.length_map]) hread
    exact (loadWord_of_clean (hclean.1 _ (word_mem_lines b hlt))).trans hcache
  | fetch =>
    rw [List.length_append]
    exact h.memory.read
  | dcbst => exact h.memory
  | sync => exact h.memory
  | tick => exact h.memory
  | stored => exact holds_writeBack h _
  | evict => exact holds_writeBack h _

theorem cachedInv_step (h : CachedInv b c) (hroom : CachedFinds 8192 c l) (hs : CachedStep b c l d) : CachedInv b d :=
  ⟨ringInv_abs h hroom hs, syncs_step h.syncs hs, memory_step h hs⟩

end Invariant

/-! ## Runs -/

section Runs

variable {b : RingBuffer} {s : XenosSetup} {c : CachedWorld} {es : List (Edge CachedWorld CachedLabel)}

/-- **The ring behind the cache** is the ring: every run whose stores find room has the steps of a run of the ring
without a cache, and the GPU reads from memory the words that the driver wrote, in their order. -/
theorem cachedRing_refines (h : Run (CachedInit b s) (CachedStep b) es c)
    (hroom : ∀ e ∈ es, CachedFinds 8192 e.pre e.label) :
    (∃ es', Run (RingInit s) RingStep es' (c.abs b) ∧
      es'.map Edge.label = es.filterMap fun e => e.label.visible) ∧
      c.consumed = (c.log.map Prod.snd).take c.consumed.length := by
  constructor
  · exact h.simulate (I := CachedInv b) (C := CachedFinds 8192) (fun c hc => ⟨cachedInv_init hc, cachedInit_abs hc⟩)
      (fun _ _ _ => cachedInv_step) (fun _ _ _ _ hc _ => cachedStep_visible hc)
      (fun _ _ _ _ _ => cachedStep_unseen) hroom
  · exact (h.guarded (I := CachedInv b) (fun _ => cachedInv_init) (fun _ _ _ => cachedInv_step) hroom).ring.consumed

/-! ### The driver by itself -/

/-- Reached with fewer than `n` words unread at every store. -/
abbrev CachedReaches (b : RingBuffer) (s : XenosSetup) (n : ℕ) : CachedWorld → Prop :=
  ReachableIf (CachedInit b s) (CachedStep b) (CachedFinds n)

/-- The driver stores some words, if the ring has room for them. -/
theorem reaches_stores {n : ℕ} {ws : List Word} {rest : List CpuOp} (h : CachedReaches b s n c)
    (hp : c.pending = ws.map .store ++ rest) (hroom : c.log.length - c.consumed.length + ws.length ≤ n) :
    ∃ d, CachedReaches b s n d ∧ d.pending = rest ∧ d.storing = c.storing ∧ d.consumed = c.consumed ∧
      d.log.map Prod.snd = c.log.map Prod.snd ++ ws := by
  induction ws generalizing c with
  | nil => exact ⟨c, h, hp, rfl, rfl, (List.append_nil _).symm⟩
  | cons data ws ih =>
    have hnext : (c.log ++ [(c.ringBufferWritePtr.toNat, data)]).length = c.log.length + 1 := List.length_append
    rw [List.length_cons] at hroom
    have hstore := h.snoc (.store hp) fun _ _ => by omega
    obtain ⟨d, hd, hpending, hstoring, hconsumed, hlog⟩ := ih hstore rfl (by dsimp only; omega)
    refine ⟨d, hd, hpending, hstoring, hconsumed, ?_⟩
    rw [hlog, List.map_append, List.append_assoc]
    rfl

/-- The driver stores lines back, each of which reaches the memory at once. -/
theorem reaches_dcbst {n : ℕ} {ks : List ℕ} {rest : List CpuOp} (h : CachedReaches b s n c)
    (hp : c.pending = (ks.map fun k => .cache (.dcbst (lineAddr k))) ++ rest) (hs : c.storing = []) :
    ∃ d, CachedReaches b s n d ∧ d.pending = rest ∧ d.storing = [] ∧ d.consumed = c.consumed ∧ d.log = c.log := by
  induction ks generalizing c with
  | nil => exact ⟨c, h, hp, hs, rfl, rfl⟩
  | cons k ks ih =>
    have hdcbst := h.snoc (l := .dcbst (lineAddr k)) (.dcbst hp) nofun
    have hstored := hdcbst.snoc (l := .stored _) (.stored List.mem_cons_self) nofun
    obtain ⟨d, hd, hrest⟩ := ih hstored rfl ((List.erase_cons_head _ _).trans hs)
    exact ⟨d, hd, hrest⟩

/-- The first call of `syncRingBuffer`, and the first word that the GPU fetches then. -/
theorem reaches_fetch (b : RingBuffer) (s : XenosSetup) : ∃ c, CachedReaches b s 8191 c ∧
    c.log.map Prod.snd = initME ∧ c.consumed.length = 1 := by
  have h0 : CachedReaches b s 8191 ⟨⟨fun _ => 0, fun _ => 0⟩, [], 0, 0, 0, (bringup s).flatMap b.compile, [], 0, []⟩ :=
    .of_init ⟨rfl, rfl, rfl, rfl, rfl, rfl, rfl, rfl⟩
  have hpending : (bringup s).flatMap b.compile = initME.map .store ++
      ((b.lines.map fun k => .cache (.dcbst (lineAddr k))) ++
        .cache .sync :: .publish :: ((initFramebuffer s).map .writeRing).flatMap b.compile) := by
    rw [bringup, List.flatMap_append, List.flatMap_cons, RingBuffer.compile, syncOps_eq, List.map_append, List.map_map,
      List.append_assoc, List.append_assoc]
    rfl
  obtain ⟨c, hc, hpc, hsc, hcc, hlc⟩ := reaches_stores h0 hpending (Nat.le_of_ble_eq_true rfl)
  obtain ⟨d, hd, hpd, hsd, hcd, hld⟩ := reaches_dcbst hc hpc hsc
  have hsync := hd.snoc (l := .sync) (.sync hpd hsd) fun _ hl => by cases hl
  have hpublish := hsync.snoc (l := .publish) (.publish rfl) fun _ hl => by cases hl
  have hring := (hpublish.invariant (I := CachedInv b) (fun _ => cachedInv_init) fun _ _ _ hi hl =>
    cachedInv_step hi fun data hdata => Nat.lt_trans (hl data hdata) (by decide)).ring
  have hconsumed : d.consumed = [] := hcd.trans hcc
  have hlog : d.log.map Prod.snd = initME := by rw [hld, hlc]; rfl
  have hne : d.readPtr ≠ d.ringBufferWritePtr := by
    intro he
    have hread : d.readPtr.toNat = d.consumed.length % 8192 := hring.readPtr
    have hwrite : d.ringBufferWritePtr.toNat = d.log.length % 8192 := hring.writePtr
    have hlen : d.log.length = 19 := by rw [← List.length_map Prod.snd, hlog]; rfl
    rw [he, hwrite, hlen, hconsumed] at hread
    cases hread
  have hfetch := hpublish.snoc (l := .fetch) (.fetch hne) fun _ hl => by cases hl
  exact ⟨_, hfetch, hlog, by rw [hconsumed]; rfl⟩

/-- A buffer in the lowest 2 MiB. -/
def lowBuffer : RingBuffer := ⟨0x1E8000, by decide, by decide⟩

/-- The first word, through the cache to the GPU. -/
theorem cachedRing_refines_fetch : ∃ es c,
    Run (CachedInit lowBuffer ⟨640, 480, 0x1E000000, 0x1E400000, 0x1000, 0x2000⟩) (CachedStep lowBuffer) es c ∧
    c.consumed = [0xC0114800] ∧
    (∃ es', Run (RingInit ⟨640, 480, 0x1E000000, 0x1E400000, 0x1000, 0x2000⟩) RingStep es' (c.abs lowBuffer) ∧
      es'.map Edge.label = es.filterMap fun e => e.label.visible) ∧
      c.consumed = (c.log.map Prod.snd).take c.consumed.length := by
  obtain ⟨c, ⟨es, h, hroom⟩, hlog, hlen⟩ := reaches_fetch lowBuffer ⟨640, 480, 0x1E000000, 0x1E400000, 0x1000, 0x2000⟩
  have hrefines := cachedRing_refines h fun e he data hl => Nat.lt_trans (hroom e he data hl) (by decide)
  refine ⟨es, c, h, ?_, hrefines⟩
  rw [hrefines.2, hlog, hlen]
  rfl

end Runs

end Osx360.Graphics
