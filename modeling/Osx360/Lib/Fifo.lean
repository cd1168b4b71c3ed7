import Mathlib.Data.List.Basic

/-!
# Queues with a completion stage

Items are accepted at the back, completed and then released at the front. The three stages are kept side by side, so
items cannot overtake one another: what was accepted is what was released followed by what is outstanding
(`Fifo.released_append_outstanding`). Completing and releasing move items on and add none.
-/

set_option autoImplicit false

namespace Osx360.Lib

/-- The items by stage, each list oldest first. -/
structure Fifo (α : Type*) where
  released : List α
  completed : List α
  pending : List α

namespace Fifo

variable {α : Type*}

def empty : Fifo α := ⟨[], [], []⟩

/-- Everything accepted so far, in order. -/
def accepted (q : Fifo α) : List α := q.released ++ (q.completed ++ q.pending)

/-- What was accepted and is not released. -/
def outstanding (q : Fifo α) : List α := q.completed ++ q.pending

def accept (q : Fifo α) (a : α) : Fifo α := { q with pending := q.pending ++ [a] }

/-- The oldest pending item is completed. -/
def complete (q : Fifo α) : Fifo α :=
  match q.pending with
  | [] => q
  | a :: rest => { q with completed := q.completed ++ [a], pending := rest }

/-- The oldest completed item is released. -/
def releaseOne (q : Fifo α) : Fifo α :=
  match q.completed with
  | [] => q
  | a :: rest => { q with released := q.released ++ [a], completed := rest }

/-- All completed items are released. -/
def release (q : Fifo α) : Fifo α := { q with released := q.released ++ q.completed, completed := [] }

@[simp] theorem accepted_accept (q : Fifo α) (a : α) : (q.accept a).accepted = q.accepted ++ [a] := by
  simp [accepted, accept]

@[simp] theorem accepted_complete (q : Fifo α) : q.complete.accepted = q.accepted := by
  obtain ⟨released, completed, pending⟩ := q
  cases pending with
  | nil => rfl
  | cons a rest => simp [complete, accepted]

@[simp] theorem accepted_release (q : Fifo α) : q.release.accepted = q.accepted := by
  simp [accepted, release]

@[simp] theorem outstanding_accept (q : Fifo α) (a : α) : (q.accept a).outstanding = q.outstanding ++ [a] := by
  simp [outstanding, accept]

@[simp] theorem outstanding_complete (q : Fifo α) : q.complete.outstanding = q.outstanding := by
  obtain ⟨released, completed, pending⟩ := q
  cases pending with
  | nil => rfl
  | cons a rest => simp [complete, outstanding]

theorem complete_of_cons {q : Fifo α} {a : α} {rest : List α} (h : q.pending = a :: rest) :
    q.complete = ⟨q.released, q.completed ++ [a], rest⟩ := by
  unfold complete; rw [h]

/-- The oldest pending item does not depend on the items behind it. -/
theorem complete_accept {q : Fifo α} {a : α} {rest : List α} (h : q.pending = a :: rest) (b : α) :
    (q.accept b).complete = q.complete.accept b := by
  rw [complete_of_cons h, complete_of_cons (q := q.accept b) (show _ = a :: (rest ++ [b]) by simp [accept, h])]
  rfl

theorem releaseOne_of_cons {q : Fifo α} {a : α} {rest : List α} (h : q.completed = a :: rest) :
    q.releaseOne = ⟨q.released ++ [a], rest, q.pending⟩ := by
  unfold releaseOne; rw [h]

theorem release_of_nil {q : Fifo α} (h : q.completed = []) : q.release = q := by
  obtain ⟨released, completed, pending⟩ := q
  subst h
  simp [release]

/-- Releasing all items is releasing the oldest and then the others. -/
theorem release_releaseOne {q : Fifo α} {a : α} {rest : List α} (h : q.completed = a :: rest) :
    q.releaseOne.release = q.release := by
  rw [releaseOne_of_cons h]
  simp [release, h]

theorem released_append_outstanding (q : Fifo α) : q.released ++ q.outstanding = q.accepted := rfl

end Fifo

end Osx360.Lib
