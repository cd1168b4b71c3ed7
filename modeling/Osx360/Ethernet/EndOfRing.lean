import Osx360.Ethernet.TransmitOwnership

/-!
# The end-of-ring bit

`sendTxPacket` overwrites the length word of every descriptor it fills. It sets the end-of-ring bit again only if the
chain starts at descriptor 255, and then through the pointer of the fill loop: on the last descriptor of the chain, or
on no descriptor at all when the chain has one segment. So the bit stays on descriptor 255 alone exactly as long as no
chain reaches that descriptor (`end_of_ring_iff`); the first one that does breaks it (`end_of_ring_lost`).
-/

set_option autoImplicit false

namespace Osx360.Ethernet

open Osx360.Lib

/-! ## What the bit is for -/

/-- The bit is on descriptor 255 and on no other. -/
def EndOfRing (s : TxRing) : Prop := ∀ i : Index, (s.txDesc i).hasEnd = true ↔ i.val = txDescCount - 1

/-- A consumer steps by one and returns to 0 after a descriptor with the bit. -/
def consumerNext (s : TxRing) (i : Index) : ℕ := if (s.txDesc i).hasEnd then 0 else i.val + 1

theorem consumerNext_eq {s : TxRing} (h : EndOfRing s) (i : Index) : consumerNext s i = (txNext i).val :=
  consumer_next (h i)

/-- A send writes only the descriptors of its chain. -/
def SendInChain (w : TxWorld) : TxLabel → Prop
  | .send p segments reqs =>
    WritesInChain w.ring.txWriteIndex segments.length (sendTxPacket true w.ring p segments reqs).2.2
  | _ => True

/-- The property over one step: the bit is where it belongs before and after it, a consumer follows the ring, and the
writes stay in the chain. -/
def EndOfRingStep (e : Edge TxWorld TxLabel) : Prop :=
  (EndOfRing e.pre.ring ∧ EndOfRing e.post.ring) ∧ (∀ i, consumerNext e.post.ring i = (txNext i).val) ∧
    SendInChain e.pre e.label

/-- The condition on one step: a packet that is accepted needs no descriptor from 255 on. -/
def ChainBeforeEnd (w : TxWorld) : TxLabel → Prop
  | .send _ segments _ => txMaxSegCount ≤ txFree w.ring.txReadIndex w.ring.txWriteIndex →
      w.ring.txWriteIndex.val + segments.length ≤ txDescCount - 1
  | _ => True

/-! ## Length words -/

/-- What no write changes stays. -/
theorem applyAll_keeps {α : Type*} (f : TxRing → α) {ws : List TxWrite} (h : ∀ x ∈ ws, ∀ s, f (x.apply s) = f s) :
    ∀ s, f (applyAll ws s) = f s := by
  induction ws with
  | nil => exact fun _ => rfl
  | cons x ws ih =>
    intro s
    rw [applyAll_cons, ih fun y hy => h y (List.mem_cons_of_mem _ hy), h x List.mem_cons_self]

/-- A round of the interrupt loop changes no length word. -/
theorem reclaim_length (s : TxRing) (i : Index) : ((reclaim s).txDesc i).length = (s.txDesc i).length := by
  refine applyAll_keeps (fun s => (s.txDesc i).length) (fun x hx t => ?_) s
  unfold reclaimWrites at hx
  rw [List.mem_append, List.mem_append] at hx
  rcases hx with (hx | hx) | hx
  · split at hx
    · rw [List.mem_singleton.mp hx]; rfl
    · cases hx
  · rw [List.mem_singleton.mp hx]; rfl
  · rw [← slot_val_self s.txReadIndex] at hx
    rcases mem_clearWrites hx with ⟨j, _, rfl⟩ | ⟨j, rfl⟩
    · by_cases h : i = slot 256 (s.txReadIndex.val + j)
      · subst h; simp [TxWrite.apply, TxRing.modifyDesc]
      · simp [TxWrite.apply, TxRing.modifyDesc, Function.update_of_ne h]
    · rfl

theorem handleTxLoop_length {fuel : ℕ} {s t : TxRing} {freed : List Mbuf} (h : handleTxLoop fuel s = some (freed, t))
    (i : Index) : (t.txDesc i).length = (s.txDesc i).length := by
  induction fuel generalizing s t freed with
  | zero => cases h
  | succ fuel ih =>
    rw [handleTxLoop] at h
    split at h
    · obtain ⟨⟨f, t'⟩, ht, he⟩ := Option.map_eq_some_iff.mp h
      simp only [Prod.mk.injEq] at he
      obtain ⟨_, rfl⟩ := he
      rw [ih ht, reclaim_length]
    · simp only [Option.some.injEq, Prod.mk.injEq] at h
      rw [h.2]

theorem EndOfRing.congr {s t : TxRing} (h : EndOfRing s) (he : ∀ i, (t.txDesc i).length = (s.txDesc i).length) :
    EndOfRing t := by
  intro i
  unfold Descriptor.hasEnd
  rw [he i]
  exact h i

theorem clearOwner_length (i j : Index) (s : TxRing) :
    ((clearOwner i s).txDesc j).length = (s.txDesc j).length := by
  by_cases h : j = i
  · subst h; simp [clearOwner, TxRing.modifyDesc]
  · rw [clearOwner_of_ne h]

/-! ## The length words of a new chain -/

section Sent

variable {s : TxRing} {k : ℕ} {p : Mbuf} {seg : Segment} {segs : List Segment} {reqs : ChecksumDemand}

/-- Without the end-of-ring statement no descriptor of a new chain carries the bit. -/
theorem sent_hasEnd (hl : segs.length < 256) : ∀ i ≤ segs.length,
    ((applyAll (sendWrites false (slot 256 k) p seg segs reqs) s).txDesc (slot 256 (k + i))).hasEnd = false := by
  intro i hi
  rw [applyAll_sendWrites s k p seg reqs hl]
  cases i with
  | zero =>
    simp only [Nat.add_zero, Function.update_self]
    exact seg.length_has
  | succ i =>
    have hne : slot 256 (k + (i + 1)) ≠ slot 256 k := (slot_ne (by omega) (by omega)).symm
    simp only [Function.update_of_ne hne]
    rw [show k + (i + 1) = k + 1 + i by omega, fillDesc_get (by omega) (List.getElem?_eq_getElem (by omega))]
    exact (segs[i]).length_has

/-- A chain that ends before descriptor 255 leaves the bit where it was. -/
theorem EndOfRing.sent (h : EndOfRing s) (hk : k % 256 + (segs.length + 1) ≤ 255) :
    EndOfRing (applyAll (sendWrites false (slot 256 k) p seg segs reqs) s) := by
  intro i
  obtain ⟨j, h1, h2, rfl⟩ := exists_slot k i
  obtain ⟨d, rfl⟩ := Nat.exists_eq_add_of_le h1
  by_cases hd : d ≤ segs.length
  · rw [sent_hasEnd (by omega) d hd]
    have hv : (slot 256 (k + d)).val ≠ txDescCount - 1 := by
      rw [slot_val]; unfold txDescCount; omega
    simpa using hv
  · unfold Descriptor.hasEnd
    rw [(send_frame s p seg reqs (by omega) (Or.inr ⟨by omega, by omega⟩)).1]
    exact h _

/-- A chain that reaches descriptor 255 takes the bit from it. -/
theorem sent_loses (hl : segs.length < 8) (hk : 255 < k % 256 + (segs.length + 1)) :
    ((applyAll (sendWrites false (slot 256 k) p seg segs reqs) s).txDesc 255).hasEnd = false := by
  have he : (255 : Index) = slot 256 (k + (255 - k % 256)) := by
    apply Fin.ext
    rw [slot_val]
    show 255 = _
    omega
  rw [he]
  exact sent_hasEnd (by omega) _ (by omega)

end Sent

/-! ## The end-of-ring statement -/

theorem endWrites_of_ne {w : Index} {segs : List Segment} (h : w.val ≠ 255) : endWrites w segs = [] :=
  if_neg h

theorem sendWrites_of_ne {w : Index} {p : Mbuf} {seg : Segment} {segs : List Segment} {reqs : ChecksumDemand}
    (h : w.val ≠ 255) : sendWrites true w p seg segs reqs = sendWrites false w p seg segs reqs := by
  unfold sendWrites
  rw [endWrites_of_ne h]
  rfl

/-! ## Rounds -/

def eightSegments : List Segment := List.replicate 8 segment64

/-- One packet of eight segments, completed and released. -/
def packetRound : List TxLabel := [.send 0 eightSegments ⟨false, false, false⟩, .complete, .interrupt]

section Round

variable {w : TxWorld} {q : Fifo Chain} {r : ℕ}

theorem empty_room (hm : w.Models q r) (hq : q.outstanding = []) :
    ¬ txFree w.ring.txReadIndex w.ring.txWriteIndex < txMaxSegCount := by
  have ht := hm.drives.tracks.tiled
  rw [hq] at ht
  rw [ht.read, ht.write, span_nil, txFree_slot (by omega) (by omega), txMaxSegCount]
  omega

/-- A round on an empty ring leaves it empty, eight descriptors further. -/
theorem round_step (hm : w.Models q r) (hq : q.outstanding = []) {es : List (Edge TxWorld TxLabel)}
    (hr : Run TxInit (TxStep true) es w) : ∃ fs v q', Run TxInit (TxStep true) (es ++ fs) v ∧
      fs.map Edge.label = packetRound ∧ v.Models q' (r + 8) ∧ q'.outstanding = [] ∧
      (r + 8 ≤ 255 → ∀ e ∈ fs, ChainBeforeEnd e.pre e.label) := by
  obtain ⟨hcompleted, hpending⟩ := List.append_eq_nil_iff.mp hq
  have hsend := hr.step (.send 0 eightSegments ⟨false, false, false⟩ (by decide))
  have hm1 : (w.send true 0 eightSegments _).Models (q.accept ⟨0, eightSegments⟩) r :=
    models_accept true hm 0 ⟨false, false, false⟩ (by decide) (empty_room hm hq)
  have hp : (q.accept ⟨0, eightSegments⟩).pending = [⟨0, eightSegments⟩] := congrArg (· ++ _) hpending
  have hhw := hm1.drives.hardware
  rw [hp] at hhw
  have hdone : (q.accept ⟨0, eightSegments⟩).complete = ⟨q.released, [⟨0, eightSegments⟩], []⟩ := by
    unfold Fifo.complete
    rw [hp]
    exact congrArg (fun l => Fifo.mk q.released (l ++ _) []) hcompleted
  have hm2 := models_complete hm1 hhw
  rw [hdone] at hm2
  obtain ⟨t, ht, _⟩ := hm2.drives.tracks.handle
  have hm3 := models_interrupt hm2 ht
  have hall := (hsend.step (.complete hhw)).step (.interrupt ht)
  rw [List.append_assoc, List.append_assoc] at hall
  refine ⟨_, _, _, hall, rfl, hm3, rfl, fun hr => ?_⟩
  have hwrite : w.ring.txWriteIndex.val = r % 256 := by
    rw [hm.drives.tracks.tiled.write, hq]
    rfl
  simp only [List.forall_mem_append, List.forall_mem_singleton]
  refine ⟨fun _ => ?_, trivial, trivial⟩
  show w.ring.txWriteIndex.val + 8 ≤ 255
  omega

end Round

theorem run_rounds (m : ℕ) : ∃ es w q, Run TxInit (TxStep true) es w ∧
    es.map Edge.label = (List.replicate m packetRound).flatten ∧ w.Models q (8 * m) ∧ q.outstanding = [] ∧
      (8 * m ≤ 255 → ∀ e ∈ es, ChainBeforeEnd e.pre e.label) := by
  induction m with
  | zero =>
    exact ⟨[], startWorld, .empty, .start startWorld_init, rfl, models_init startWorld_init, rfl,
      fun _ => List.forall_mem_nil _⟩
  | succ m ih =>
    obtain ⟨es, w, q, hr, hes, hm, hq, hbefore⟩ := ih
    obtain ⟨fs, v, q', hr', hfs, hm', hq', hbefore'⟩ := round_step hm hq hr
    refine ⟨es ++ fs, v, q', hr', ?_, hm', hq', fun hle => ?_⟩
    · rw [List.map_append, hes, hfs, List.replicate_succ', List.flatten_append]
      simp
    · exact List.forall_mem_append.mpr ⟨hbefore (by omega), hbefore' hle⟩

/-! ## The condition is exact -/

section Exact

variable {w v : TxWorld} {l : TxLabel}

theorem endOfRing_init (h : TxInit w) : EndOfRing w.ring := by
  obtain ⟨s, _, rfl⟩ := h
  intro i
  show Descriptor.hasEnd (if _ then _ else _) = true ↔ _
  by_cases h : i.val = txDescCount - 1
  · simp [h, Descriptor.hasEnd, descLengthEnd, has_bit_bit]
  · simp [h, Descriptor.hasEnd, Descriptor.zero]

theorem endOfRing_good (hi : EndOfRing w.ring) (hc : ChainBeforeEnd w l) (hs : TxStep true w l v) :
    EndOfRing v.ring ∧ EndOfRingStep ⟨w, l, v⟩ := by
  suffices h : EndOfRing v.ring ∧ SendInChain w l from ⟨h.1, ⟨hi, h.1⟩, consumerNext_eq h.1, h.2⟩
  cases hs with
  | complete _ => exact ⟨hi.congr fun i => clearOwner_length _ _ _, trivial⟩
  | interrupt he => exact ⟨hi.congr (handleTxLoop_length he), trivial⟩
  | send p segments reqs hl =>
    show EndOfRing _ ∧ WritesInChain _ _ _
    rw [send_ring]
    rcases sendTxPacket_cases true w.ring p segments reqs with ⟨_, he⟩ | ⟨_, _, he⟩ | ⟨hroom, seg, segs, rfl, he⟩
    · rw [he]; exact ⟨hi, fun x hx => by cases hx⟩
    · rw [he]; exact ⟨hi, fun x hx => by cases hx⟩
    · have hlt : w.ring.txWriteIndex.val + (segs.length + 1) ≤ 255 := hc (Nat.le_of_not_lt hroom)
      rw [he, sendWrites_of_ne (by omega)]
      refine ⟨?_, sendWrites_inChain⟩
      rw [← slot_val_self w.ring.txWriteIndex]
      exact hi.sent (by rw [Nat.mod_eq_of_lt (by omega)]; exact hlt)

/-- A chain that reaches descriptor 255 writes through the uninitialised pointer, or takes the bit from descriptor 255:
the bit is not set again, or is set on the last descriptor of the chain instead. -/
theorem chain_at_end {s : TxRing} {p : Mbuf} {seg : Segment} {segs : List Segment} {reqs : ChecksumDemand}
    (hl : segs.length < 8) (hk : 255 < s.txWriteIndex.val + (segs.length + 1)) :
    TxWrite.orLength none descLengthEnd ∈ sendWrites true s.txWriteIndex p seg segs reqs ∨
      ((applyAll (sendWrites true s.txWriteIndex p seg segs reqs) s).txDesc 255).hasEnd = false := by
  have hw := s.txWriteIndex.isLt
  have hlost : ((applyAll (sendWrites false (slot 256 s.txWriteIndex.val) p seg segs reqs) s).txDesc 255).hasEnd =
      false := sent_loses hl (by rw [Nat.mod_eq_of_lt hw]; exact hk)
  rw [slot_val_self] at hlost
  rw [applyAll_sendWrites_end]
  by_cases h255 : s.txWriteIndex.val = 255
  · have he : endWrites s.txWriteIndex segs = [.orLength (descPointer s.txWriteIndex segs) descLengthEnd] := if_pos h255
    rw [he]
    cases segs with
    -- the fill loop has not assigned `desc`
    | nil => exact Or.inl (by simp [sendWrites, he, descPointer])
    | cons seg' segs' =>
      have hp : descPointer s.txWriteIndex (seg' :: segs') = some (slot 256 (255 + (seg' :: segs').length)) := by
        have hself := slot_val_self s.txWriteIndex
        rw [h255] at hself
        rw [← hself]
        exact congrArg some (lastIndex_slot _ 255)
      have hne : (255 : Index) ≠ slot 256 (255 + (seg' :: segs').length) :=
        slot_ne (j := 255) (by simp) (by omega)
      rw [hp]
      simp only [applyAll_cons, applyAll_nil, TxWrite.apply, TxRing.modifyDesc, Function.update_of_ne hne]
      exact Or.inr hlost
  · rw [endWrites_of_ne h255]
    exact Or.inr hlost

theorem endOfRing_bad (hc : ¬ ChainBeforeEnd w l) (hs : TxStep true w l v) : ¬ EndOfRingStep ⟨w, l, v⟩ := by
  cases hs with
  | complete _ => exact absurd trivial hc
  | interrupt _ => exact absurd trivial hc
  | send p segments reqs hl =>
    simp only [ChainBeforeEnd, Classical.not_imp, txDescCount, txMaxSegCount] at hc
    rcases sendTxPacket_cases true w.ring p segments reqs with ⟨hroom, _⟩ | ⟨_, rfl, _⟩ | ⟨_, seg, segs, rfl, he⟩
    · exact absurd hroom (Nat.not_lt.mpr hc.1)
    · have hlt := w.ring.txWriteIndex.isLt
      simp only [List.length_nil] at hc
      omega
    · have hlen : segs.length + 1 ≤ 8 := hl
      have hend : ¬ w.ring.txWriteIndex.val + (segs.length + 1) ≤ 255 := hc.2
      rintro ⟨⟨_, hpost⟩, _, hwrites⟩
      have h255 := (hpost 255).mpr rfl
      simp only [SendInChain, send_ring, he] at h255 hwrites
      have hpast : 255 < w.ring.txWriteIndex.val + (segs.length + 1) := by omega
      rcases chain_at_end (by omega) hpast with hwild | hlost
      · obtain ⟨i, _, hi⟩ := hwrites _ hwild _ rfl
        cases hi
      · rw [hlost] at h255
        cases h255

/-- **The end-of-ring bit stays where it belongs exactly in the runs whose chains all end before descriptor 255.** -/
theorem end_of_ring_iff {es : List (Edge TxWorld TxLabel)} (h : Run TxInit (TxStep true) es w) :
    (∀ e ∈ es, EndOfRingStep e) ↔ ∀ e ∈ es, ChainBeforeEnd e.pre e.label :=
  h.forall_iff (I := fun w => EndOfRing w.ring) (fun _ h0 => endOfRing_init h0)
    (fun _ _ _ hi hc hs => endOfRing_good hi hc hs) fun _ _ _ _ hc hs => endOfRing_bad hc hs

end Exact

/-- Thirty-one packets of eight segments, each completed and released. -/
theorem end_of_ring_rounds : ∃ es w, Run TxInit (TxStep true) es w ∧
    es.map Edge.label = (List.replicate 31 packetRound).flatten ∧ ∀ e ∈ es, EndOfRingStep e := by
  obtain ⟨es, w, q, h, hes, -, -, hbefore⟩ := run_rounds 31
  exact ⟨es, w, h, hes, (end_of_ring_iff h).mpr (hbefore (by decide))⟩

/-! ## A run that loses the bit -/

/-- Thirty-one packets of eight segments fill the descriptors up to 247; the next one ends at descriptor 255. -/
def wrapLabels : List TxLabel :=
  (List.replicate 31 packetRound).flatten ++ [.send 0 eightSegments ⟨false, false, false⟩]

/-- **The first chain that ends at descriptor 255 loses the bit.** -/
theorem end_of_ring_lost : ∃ es w, Run TxInit (TxStep true) es w ∧ es.map Edge.label = wrapLabels ∧
    ¬ EndOfRing w.ring := by
  obtain ⟨es, w, q, hr, hes, hm, hq, -⟩ := run_rounds 31
  have hroom := empty_room hm hq
  have hidx : w.ring.txWriteIndex = 248 := by
    rw [hm.drives.tracks.tiled.write, hq]; rfl
  refine ⟨_, _, hr.step (.send 0 eightSegments ⟨false, false, false⟩ (by decide)), ?_, fun hend => ?_⟩
  · rw [List.map_append, hes]; rfl
  · have h255 := (hend 255).mpr rfl
    have he : sendTxPacket true w.ring 0 eightSegments ⟨false, false, false⟩ = (.success, [], sendWrites true
        w.ring.txWriteIndex 0 segment64 (List.replicate 7 segment64) ⟨false, false, false⟩) := if_neg hroom
    rw [send_ring, he, sendWrites_of_ne (by rw [hidx]; decide), hidx,
      show (248 : Index) = slot 256 248 from rfl, sent_loses (by decide) (by decide)] at h255
    cases h255

end Osx360.Ethernet
