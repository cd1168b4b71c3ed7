import Mathlib.Data.List.Basic

/-!
# Streams of counted packets

A packet is a header that says how many payload items follow it, and those items. A stream is read item by item with a
count of the payload that is still missing.

- reading goes on where it stopped (`scan_append`);
- a stream is read to the end of a packet exactly if it consists of whole packets (`complete_iff`), and of which ones is
  determined (`stream_injective`);
- a reader that acts on a packet once it has the last item of it does what the packets do, one after another
  (`run_stream`), and what it adds to its output it adds in order (`output_prefix`).
-/

set_option autoImplicit false

namespace Osx360.Lib

universe u

variable {α : Type u}

/-- `size` gives the number of payload items of a header, and `none` for what is no header. -/
structure Packet (size : α → Option ℕ) where
  header : α
  payload : List α
  counted : size header = some payload.length

variable {size : α → Option ℕ}

def Packet.items (p : Packet size) : List α := p.header :: p.payload

/-- The items of packets, one after another. -/
def stream (ps : List (Packet size)) : List α := ps.flatMap Packet.items

/-- Reads the items where `k` payload items are missing; what is missing afterwards. -/
def scan (size : α → Option ℕ) : ℕ → List α → Option ℕ
  | k, [] => some k
  | 0, x :: xs => (size x).bind fun k => scan size k xs
  | k + 1, _ :: xs => scan size k xs

/-- The items are whole packets. -/
def Complete (size : α → Option ℕ) (xs : List α) : Prop := scan size 0 xs = some 0

section Scan

variable {k : ℕ} {x : α} {xs ys : List α} {ps qs : List (Packet size)}

@[simp] theorem scan_nil : scan size k [] = some k := by cases k <;> rfl

theorem scan_append (k : ℕ) (xs ys : List α) :
    scan size k (xs ++ ys) = (scan size k xs).bind fun j => scan size j ys := by
  induction xs generalizing k with
  | nil => simp
  | cons x xs ih =>
    cases k with
    | zero =>
      simp only [List.cons_append, scan]
      cases size x with
      | none => rfl
      | some k => exact ih k
    | succ k => exact ih k

theorem Complete.append (hx : Complete size xs) (hy : Complete size ys) : Complete size (xs ++ ys) := by
  rw [Complete, scan_append, hx]
  exact hy

/-- Missing payload is skipped. -/
theorem scan_payload (xs ys : List α) : scan size xs.length (xs ++ ys) = scan size 0 ys := by
  induction xs with
  | nil => rfl
  | cons x xs ih => exact ih

theorem complete_stream (ps : List (Packet size)) : Complete size (stream ps) := by
  induction ps with
  | nil => rfl
  | cons p ps ih =>
    simp only [Complete, stream, List.flatMap_cons, Packet.items, List.cons_append, scan, p.counted, Option.bind_some]
    rw [scan_payload]
    exact ih

/-- What is read to the end of a packet is the missing payload and whole packets. -/
theorem exists_packets (h : scan size k xs = some 0) :
    ∃ payload, payload.length = k ∧ ∃ ps : List (Packet size), xs = payload ++ stream ps := by
  induction xs generalizing k with
  | nil =>
    obtain rfl : k = 0 := by simpa using h
    exact ⟨[], rfl, [], rfl⟩
  | cons x xs ih =>
    cases k with
    | zero =>
      obtain ⟨k, hk, h⟩ := Option.bind_eq_some_iff.mp h
      obtain ⟨payload, hlen, ps, rfl⟩ := ih h
      exact ⟨[], rfl, ⟨x, payload, by rw [hk, hlen]⟩ :: ps, rfl⟩
    | succ k =>
      obtain ⟨payload, rfl, ps, rfl⟩ := ih h
      exact ⟨x :: payload, rfl, ps, rfl⟩

/-- **Whole packets.** -/
theorem complete_iff : Complete size xs ↔ ∃ ps : List (Packet size), stream ps = xs := by
  constructor
  · intro h
    obtain ⟨payload, hlen, ps, rfl⟩ := exists_packets h
    rw [List.eq_nil_of_length_eq_zero hlen]
    exact ⟨ps, rfl⟩
  · rintro ⟨ps, rfl⟩
    exact complete_stream ps

/-- A stream has one reading. -/
theorem stream_injective (h : stream ps = stream qs) : ps = qs := by
  induction ps generalizing qs with
  | nil =>
    cases qs with
    | nil => rfl
    | cons q qs => cases h
  | cons p ps ih =>
    cases qs with
    | nil => cases h
    | cons q qs =>
      obtain ⟨header, payload, hp⟩ := p
      obtain ⟨header', payload', hq⟩ := q
      simp only [stream, List.flatMap_cons, Packet.items, List.cons_append, List.cons.injEq] at h
      obtain ⟨rfl, h⟩ := h
      have hlen : payload.length = payload'.length := Option.some.inj (hp.symm.trans hq)
      obtain ⟨rfl, hrest⟩ := List.append_inj h hlen
      rw [ih hrest]

end Scan

/-! ## Readers -/

universe v

/-- A reader: its state, and the packet that it is in by its header and what came of its payload. -/
structure Reader (α : Type u) (σ : Type v) where
  state : σ
  current : Option (α × List α)

section Readers

variable {σ : Type v}

/-- A reader between two packets. -/
def Reader.idle (s : σ) : Reader α σ := ⟨s, none⟩

variable (size) (act : σ → α → List α → σ)

/-- Acts on the packet if it is whole. -/
def Reader.collect (s : σ) (header : α) (payload : List α) : Reader α σ :=
  if size header = some payload.length then .idle (act s header payload) else ⟨s, some (header, payload)⟩

def Reader.feed (r : Reader α σ) (x : α) : Reader α σ :=
  match r.current with
  | none => Reader.collect size act r.state x []
  | some (header, payload) => Reader.collect size act r.state header (payload ++ [x])

/-- The state after some items. -/
def Reader.run (s : σ) (xs : List α) : Reader α σ := xs.foldl (Reader.feed size act) (.idle s)

variable {size act} {s : σ} {header : α} {xs ys : List α}

/-- The rest of a payload completes its packet. -/
theorem feed_payload {payload rest : List α} (h : size header = some (payload ++ rest).length) (hrest : rest ≠ []) :
    rest.foldl (Reader.feed size act) ⟨s, some (header, payload)⟩ = .idle (act s header (payload ++ rest)) := by
  induction rest generalizing payload with
  | nil => exact absurd rfl hrest
  | cons x rest ih =>
    have hx : Reader.feed size act ⟨s, some (header, payload)⟩ x =
        Reader.collect size act s header (payload ++ [x]) := rfl
    rw [List.append_cons] at h ⊢
    rw [List.foldl_cons, hx, Reader.collect]
    by_cases hnil : rest = []
    · subst hnil
      rw [List.append_nil] at h
      rw [if_pos h]
      simp
    · have hmissing : size header ≠ some (payload ++ [x]).length := by
        have hlength : (payload ++ [x] ++ rest).length = (payload ++ [x]).length + rest.length := List.length_append
        rw [h, hlength]
        have hpos := List.length_pos_of_ne_nil hnil
        simp only [ne_eq, Option.some.injEq]
        omega
      rw [if_neg hmissing]
      exact ih h hnil

theorem feed_items (p : Packet size) :
    p.items.foldl (Reader.feed size act) (.idle s) = .idle (act s p.header p.payload) := by
  obtain ⟨header, payload, hcounted⟩ := p
  rw [Packet.items, List.foldl_cons]
  have hheader : Reader.feed size act (.idle s) header = Reader.collect size act s header [] := rfl
  rw [hheader, Reader.collect]
  cases payload with
  | nil =>
    rw [if_pos hcounted]
    rfl
  | cons x payload =>
    have hmissing : size header ≠ some ([] : List α).length := by simp [hcounted]
    rw [if_neg hmissing]
    exact feed_payload hcounted (List.cons_ne_nil _ _)

/-- A whole packet is acted on, and the reader goes on after it. -/
theorem run_packet {k : ℕ} (hsize : size header = some k) (hlen : k ≤ xs.length) (s : σ) :
    Reader.run size act s (header :: xs) = Reader.run size act (act s header (xs.take k)) (xs.drop k) := by
  have hcounted : size header = some (xs.take k).length := by rw [hsize, List.length_take, Nat.min_eq_left hlen]
  have hsplit : header :: xs = (⟨header, xs.take k, hcounted⟩ : Packet size).items ++ xs.drop k :=
    (congrArg (header :: ·) (List.take_append_drop k xs)).symm
  rw [Reader.run, hsplit, List.foldl_append, feed_items]
  rfl

/-- **Reading a stream** is acting on its packets. -/
theorem run_stream (s : σ) (ps : List (Packet size)) :
    Reader.run size act s (stream ps) = .idle (ps.foldl (fun s p => act s p.header p.payload) s) := by
  induction ps generalizing s with
  | nil => rfl
  | cons p ps ih =>
    rw [Reader.run, stream, List.flatMap_cons, List.foldl_append, feed_items]
    exact ih _

/-- A reader goes on from whole packets with the state after them. -/
theorem run_append (h : Complete size xs) (s : σ) (ys : List α) :
    Reader.run size act s (xs ++ ys) = Reader.run size act (Reader.run size act s xs).state ys := by
  obtain ⟨ps, rfl⟩ := complete_iff.mp h
  rw [Reader.run, List.foldl_append, ← Reader.run, run_stream]
  rfl

variable {β : Type v} {output : σ → List β}

/-- What is added to the output stays. -/
theorem output_prefix (hact : ∀ s header payload, output s <+: output (act s header payload)) (s : σ)
    (h : xs <+: ys) : output (Reader.run size act s xs).state <+: output (Reader.run size act s ys).state := by
  obtain ⟨zs, rfl⟩ := h
  rw [Reader.run, Reader.run, List.foldl_append]
  generalize xs.foldl (Reader.feed size act) (.idle s) = r
  have hcollect : ∀ t header payload, output t <+: output (Reader.collect size act t header payload).state := by
    intro t header payload
    rw [Reader.collect]
    split
    · exact hact t header payload
    · exact List.prefix_rfl
  induction zs generalizing r with
  | nil => exact List.prefix_rfl
  | cons z zs ih =>
    refine List.IsPrefix.trans ?_ (ih (Reader.feed size act r z))
    unfold Reader.feed
    cases r.current with
    | none => exact hcollect _ _ _
    | some p => exact hcollect _ _ _

end Readers

end Osx360.Lib
