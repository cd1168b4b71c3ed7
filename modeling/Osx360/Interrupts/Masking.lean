import Osx360.Interrupts.Controller
import Osx360.Lib.Run

/-!
# Masking of interrupts

An interrupt of a vector that is disabled is masked when it arrives (`interruptDisabledHard`), and unmasked again when
the vector is enabled. Threads enable and disable vectors step by step, and `handleInterrupt` comes between any two
steps.

- The handler runs only with the soft flag clear, and what sets the hard flag masks; a masked vector has the hard flag
  set or a thread about to unmask it, and is never left masked once it is enabled.
- The hard flag of a vector says exactly whether it is masked in the runs in which no two calls that enable it are past
  the test of the flag at the same time (`masking_correct`); in other runs it need not (`stale_unmask`).
-/

set_option autoImplicit false

namespace Osx360.Interrupts

open Osx360.Lib

universe u

/-! ## The superclass -/

def registerInterrupt (c : Controller) (v : ℕ) : Controller :=
  c.modify v fun vector =>
    { vector with interruptRegistered := true, interruptDisabledSoft := true, interruptDisabledHard := true }

def disableInterrupt (c : Controller) (v : ℕ) : Controller :=
  c.modify v fun vector => { vector with interruptDisabledSoft := true }

def clearSoft (c : Controller) (v : ℕ) : Controller :=
  c.modify v fun vector => { vector with interruptDisabledSoft := false }

def clearHard (c : Controller) (v : ℕ) : Controller :=
  c.modify v fun vector => { vector with interruptDisabledHard := false }

def enableInterrupt (c : Controller) (v : ℕ) : Controller :=
  if (c.vectors v).interruptDisabledSoft then
    let c := clearSoft c v
    if (c.vectors v).interruptDisabledHard then enableVector (clearHard c v) v else c
  else c

/-- Where a thread is in a call of `enableInterrupt`. -/
inductive EnablePc
  | idle
  | called (v : ℕ)
  | softSeen (v : ℕ)
  | softCleared (v : ℕ)
  | hardSeen (v : ℕ)
  | hardCleared (v : ℕ)
  deriving DecidableEq

def EnablePc.vector? : EnablePc → Option ℕ
  | .idle => none
  | .called v | .softSeen v | .softCleared v | .hardSeen v | .hardCleared v => some v

/-- One step of the call. -/
def enableStep (c : Controller) : EnablePc → EnablePc × Controller
  | .idle => (.idle, c)
  | .called v => if (c.vectors v).interruptDisabledSoft then (.softSeen v, c) else (.idle, c)
  | .softSeen v => (.softCleared v, clearSoft c v)
  | .softCleared v => if (c.vectors v).interruptDisabledHard then (.hardSeen v, c) else (.idle, c)
  | .hardSeen v => (.hardCleared v, clearHard c v)
  | .hardCleared v => (.idle, enableVector c v)

/-- A call by a handler, which is not interrupted. -/
inductive Call
  | enable (v : ℕ)
  | disable (v : ℕ)

def Call.vector : Call → ℕ
  | .enable v | .disable v => v

def Call.exec (c : Controller) : Call → Controller
  | .enable v => enableInterrupt c v
  | .disable v => disableInterrupt c v

def execCalls (calls : List Call) (c : Controller) : Controller := calls.foldl Call.exec c

/-- A whole call is the steps of it. -/
theorem iterate_enableStep (c : Controller) (v : ℕ) :
    (fun s : EnablePc × Controller => enableStep s.2 s.1)^[5] (.called v, c) = (.idle, enableInterrupt c v) := by
  simp only [Function.iterate_succ_apply, Function.iterate_zero_apply, enableInterrupt]
  by_cases hs : (c.vectors v).interruptDisabledSoft = true
  · by_cases hh : ((clearSoft c v).vectors v).interruptDisabledHard = true
    · simp only [enableStep, hs, hh, if_true]
    · simp only [enableStep, hs, hh, if_true, if_false, Bool.false_eq_true]
  · simp only [enableStep, hs, if_false, Bool.false_eq_true]

/-! ## Runs -/

/-- The vector has an interrupt of the PCI bridge. -/
def Mapped (v : ℕ) : Prop := v < icVectorCount ∧ sXenonCPUInterruptMap v ≠ vectorInvalid

/-- What matters of a vector. -/
structure View where
  registered : Bool
  soft : Bool
  hard : Bool
  masked : Bool

def Controller.view (c : Controller) (v : ℕ) : View where
  registered := (c.vectors v).interruptRegistered
  soft := (c.vectors v).interruptDisabledSoft
  hard := (c.vectors v).interruptDisabledHard
  masked := !has (c.bridge (sXenonCPUInterruptMap v)) bridgeIntEnabled

structure MaskWorld (ι : Type u) where
  ctl : Controller
  threads : ι → EnablePc

/-- Calls from threads, a step of one, and an interrupt with the calls that its handler makes. -/
inductive MaskLabel (ι : Type u)
  | register (v : ℕ)
  | disable (t : ι) (v : ℕ)
  | enable (t : ι) (v : ℕ)
  | advance (t : ι)
  | interrupt (ic : Ic) (i : Irq) (calls : List Call)

/-- `handleInterrupt`, when the handler makes these calls. -/
def handleCalls (calls : List Call) (ic : Ic) (c : Controller) : HandleResult :=
  handleInterrupt (fun _ => execCalls calls) ic c

inductive MaskStep {ι : Type u} [DecidableEq ι] : MaskWorld ι → MaskLabel ι → MaskWorld ι → Prop
  | register (w : MaskWorld ι) (v : ℕ) (h : (w.ctl.view v).registered = false) :
      MaskStep w (.register v) { w with ctl := registerInterrupt w.ctl v }
  | disable (w : MaskWorld ι) (t : ι) (v : ℕ) (ht : w.threads t = .idle) (h : (w.ctl.view v).registered = true) :
      MaskStep w (.disable t v) { w with ctl := disableInterrupt w.ctl v }
  | enable (w : MaskWorld ι) (t : ι) (v : ℕ) (ht : w.threads t = .idle) (h : (w.ctl.view v).registered = true) :
      MaskStep w (.enable t v) { w with threads := Function.update w.threads t (.called v) }
  | advance (w : MaskWorld ι) (t : ι) :
      MaskStep w (.advance t)
        ⟨(enableStep w.ctl (w.threads t)).2, Function.update w.threads t (enableStep w.ctl (w.threads t)).1⟩
  -- the hardware raises an interrupt of the bridge only while it is unmasked
  | interrupt (w : MaskWorld ι) (ic : Ic) (i : Irq) (calls : List Call) (hi : ic.next = some i)
      (hm : Mapped i.vector → (w.ctl.view i.vector).masked = false)
      (hc : ∀ call ∈ calls, (w.ctl.view call.vector).registered = true) :
      MaskStep w (.interrupt ic i calls) { w with ctl := (handleCalls calls ic w.ctl).ctl }

/-- The vectors are cleared, the bridge is masked, and no thread is in a call. -/
def MaskInit {ι : Type u} (w : MaskWorld ι) : Prop :=
  (∀ v, w.ctl.vectors v = ⟨false, false, false, false⟩) ∧ (∀ n, w.ctl.bridge n = 0) ∧ ∀ t, w.threads t = .idle

/-! ## Views -/

section Views

variable {c : Controller} {v w : ℕ} {f : IOInterruptVector → IOInterruptVector}

theorem mem_of_mapped (h : sXenonCPUInterruptMap v ≠ vectorInvalid) :
    (v, sXenonCPUInterruptMap v) ∈ cpuInterruptAssignments := by
  cases hl : cpuInterruptAssignments.lookup v with
  | none => exact absurd (by rw [sXenonCPUInterruptMap, hl, Option.getD_none]) h
  | some n =>
    obtain ⟨l, l', he, -⟩ := List.lookup_eq_some_iff.mp hl
    rw [sXenonCPUInterruptMap, hl, Option.getD_some, he]
    exact List.mem_append_right _ List.mem_cons_self

/-- Vectors do not share an entry of the bridge. -/
theorem map_inj (hv : Mapped v) (h : sXenonCPUInterruptMap v = sXenonCPUInterruptMap w) : v = w := by
  have hdistinct : ∀ e ∈ cpuInterruptAssignments, ∀ e' ∈ cpuInterruptAssignments, e.2 = e'.2 → e.1 = e'.1 := by
    decide
  exact hdistinct _ (mem_of_mapped hv.2) _ (mem_of_mapped (h ▸ hv.2)) h

theorem view_modify_ne (h : v ≠ w) : (c.modify w f).view v = c.view v := by
  simp only [Controller.view, Controller.modify, Function.update_of_ne h]

theorem view_modify_self : (c.modify v f).view v =
    ⟨(f (c.vectors v)).interruptRegistered, (f (c.vectors v)).interruptDisabledSoft,
      (f (c.vectors v)).interruptDisabledHard, (c.view v).masked⟩ := by
  simp only [Controller.view, Controller.modify, Function.update_self]

theorem view_disableVectorHard_self (hv : Mapped v) :
    (disableVectorHard c v).view v = { c.view v with masked := true } := by
  rw [disableVectorHard, if_neg (Nat.not_le.mpr hv.1)]
  dsimp only
  rw [if_neg hv.2]
  simp only [Controller.view, Function.update_self, show (0 : Word) = 0#32 from rfl, has_zero, Bool.not_false]

theorem view_disableVectorHard_ne (hv : Mapped v) (h : v ≠ w) : (disableVectorHard c w).view v = c.view v := by
  rw [disableVectorHard]
  dsimp only
  split
  · rfl
  · split
    · rfl
    · simp only [Controller.view, Function.update_of_ne fun he => h (map_inj hv he)]

theorem view_enableVector_self (hv : Mapped v) : (enableVector c v).view v = { c.view v with masked := false } := by
  rw [enableVector, if_neg (Nat.not_le.mpr hv.1)]
  dsimp only
  rw [if_neg hv.2]
  have hbit : ∀ x y z : Word, has (bridgeIntEnabled ||| x ||| y ||| z) bridgeIntEnabled = true := by
    intro x y z
    rw [bridgeIntEnabled, has_or (by decide), has_or (by decide), has_or (by decide), has_bit_bit (by decide)]
    rfl
  simp only [Controller.view, Function.update_self, hbit, Bool.not_true]

theorem view_enableVector_ne (hv : Mapped v) (h : v ≠ w) : (enableVector c w).view v = c.view v := by
  rw [enableVector]
  dsimp only
  split
  · rfl
  · split
    · rfl
    · simp only [Controller.view, Function.update_of_ne fun he => h (map_inj hv he)]

/-- What a whole call of `enableInterrupt` does to a vector. -/
def View.enabled (x : View) : View :=
  if x.soft then if x.hard then { x with soft := false, hard := false, masked := false } else { x with soft := false }
  else x

theorem view_clearSoft_self : (clearSoft c v).view v = { c.view v with soft := false } := view_modify_self

theorem view_clearHard_self : (clearHard c v).view v = { c.view v with hard := false } := view_modify_self

theorem view_clearSoft_ne (h : v ≠ w) : (clearSoft c w).view v = c.view v := view_modify_ne h

theorem view_clearHard_ne (h : v ≠ w) : (clearHard c w).view v = c.view v := view_modify_ne h

theorem view_disableInterrupt_self : (disableInterrupt c v).view v = { c.view v with soft := true } := view_modify_self

theorem view_disableInterrupt_ne (h : v ≠ w) : (disableInterrupt c w).view v = c.view v := view_modify_ne h

theorem view_enableInterrupt_self (hv : Mapped v) : (enableInterrupt c v).view v = (c.view v).enabled := by
  have hhard : ((clearSoft c v).vectors v).interruptDisabledHard = (c.view v).hard :=
    congrArg View.hard view_clearSoft_self
  rw [enableInterrupt, View.enabled, show (c.vectors v).interruptDisabledSoft = (c.view v).soft from rfl]
  dsimp only
  rw [hhard]
  split
  · split
    · rw [view_enableVector_self hv, view_clearHard_self, view_clearSoft_self]
    · exact view_clearSoft_self
  · rfl

theorem view_enableInterrupt_ne (hv : Mapped v) (h : v ≠ w) : (enableInterrupt c w).view v = c.view v := by
  rw [enableInterrupt]
  dsimp only
  split
  · split
    · rw [view_enableVector_ne hv h, view_clearHard_ne h, view_clearSoft_ne h]
    · exact view_clearSoft_ne h
  · rfl

/-- What a handler's call does to a vector. -/
def View.call (v : ℕ) (x : View) : Call → View
  | .enable w => if v = w then x.enabled else x
  | .disable w => if v = w then { x with soft := true } else x

theorem view_call (hv : Mapped v) (call : Call) : (call.exec c).view v = (c.view v).call v call := by
  cases call with
  | enable w =>
    by_cases h : v = w
    · subst h
      rw [View.call, if_pos rfl, Call.exec, view_enableInterrupt_self hv]
    · rw [View.call, if_neg h, Call.exec, view_enableInterrupt_ne hv h]
  | disable w =>
    by_cases h : v = w
    · subst h
      rw [View.call, if_pos rfl, Call.exec, view_disableInterrupt_self]
    · rw [View.call, if_neg h, Call.exec, view_disableInterrupt_ne h]

theorem view_execCalls (hv : Mapped v) (calls : List Call) (c : Controller) :
    (execCalls calls c).view v = calls.foldl (View.call v) (c.view v) := by
  induction calls generalizing c with
  | nil => rfl
  | cons call calls ih =>
    rw [List.foldl_cons, ← view_call hv]
    exact ih _

/-- What an interrupt of the vector `w` does to a vector. -/
def View.serviced (x : View) (v w : ℕ) (pre : View) (calls : List Call) : View :=
  if pre.soft then if v = w then { x with hard := true, masked := true } else x
  else if pre.registered then calls.foldl (View.call v) x
  else x

theorem view_modify_active (b : Bool) :
    (c.modify w fun vector => { vector with interruptActive := b }).view v = c.view v := by
  by_cases h : v = w
  · subst h
    exact view_modify_self
  · exact view_modify_ne h

theorem view_serviceVector (hv : Mapped v) (calls : List Call) :
    (serviceVector (fun _ => execCalls calls) c w).2.view v = (c.view v).serviced v w (c.view w) calls := by
  have hactive := @view_modify_active c w w true
  have hsoft := congrArg View.soft hactive
  have hreg := congrArg View.registered hactive
  generalize hc : (c.modify w fun vector => { vector with interruptActive := true }) = c' at hsoft hreg
  have hview : c'.view v = c.view v := by rw [← hc, view_modify_active]
  rw [serviceVector, hc, View.serviced, ← hsoft, ← hreg, ← hview]
  dsimp only
  rw [view_modify_active]
  rw [show (c'.vectors w).interruptDisabledSoft = (c'.view w).soft from rfl,
    show (c'.vectors w).interruptRegistered = (c'.view w).registered from rfl]
  cases hs : (c'.view w).soft with
  | true =>
    simp only [Bool.not_true, Bool.false_eq_true, if_false, if_true]
    by_cases h : v = w
    · subst h
      rw [if_pos rfl, view_disableVectorHard_self hv, view_modify_self]
      rfl
    · rw [if_neg h, view_disableVectorHard_ne hv h, view_modify_ne h]
  | false =>
    simp only [Bool.not_false, if_true, Bool.false_eq_true, if_false]
    split
    · exact view_execCalls hv calls c'
    · rfl

/-- What a step of a call that enables the vector does to it. -/
def View.advance (v : ℕ) (x : View) : EnablePc → EnablePc × View
  | .idle => (.idle, x)
  | .called _ => (if x.soft then .softSeen v else .idle, x)
  | .softSeen _ => (.softCleared v, { x with soft := false })
  | .softCleared _ => (if x.hard then .hardSeen v else .idle, x)
  | .hardSeen _ => (.hardCleared v, { x with hard := false })
  | .hardCleared _ => (.idle, { x with masked := false })

theorem view_enableStep_self (hv : Mapped v) {pc : EnablePc} (hpc : pc.vector? = some v) :
    (enableStep c pc).1 = ((c.view v).advance v pc).1 ∧
      (enableStep c pc).2.view v = ((c.view v).advance v pc).2 := by
  cases pc with
  | idle => exact ⟨rfl, rfl⟩
  | called w =>
    obtain rfl := Option.some.inj hpc
    rw [enableStep, View.advance, show (c.vectors w).interruptDisabledSoft = (c.view w).soft from rfl]
    split <;> exact ⟨rfl, rfl⟩
  | softSeen w =>
    obtain rfl := Option.some.inj hpc
    exact ⟨rfl, view_clearSoft_self⟩
  | softCleared w =>
    obtain rfl := Option.some.inj hpc
    rw [enableStep, View.advance, show (c.vectors w).interruptDisabledHard = (c.view w).hard from rfl]
    split <;> exact ⟨rfl, rfl⟩
  | hardSeen w =>
    obtain rfl := Option.some.inj hpc
    exact ⟨rfl, view_clearHard_self⟩
  | hardCleared w =>
    obtain rfl := Option.some.inj hpc
    exact ⟨rfl, view_enableVector_self hv⟩

/-- A step of a call that enables another vector. -/
theorem view_enableStep_ne (hv : Mapped v) {pc : EnablePc} (hpc : pc.vector? ≠ some v) :
    (enableStep c pc).2.view v = c.view v := by
  have hne : ∀ {w}, some w ≠ some v → v ≠ w := fun hw he => hw (he ▸ rfl)
  cases pc with
  | idle => rfl
  | called w =>
    rw [enableStep]
    split <;> rfl
  | softSeen w => exact view_clearSoft_ne (hne hpc)
  | softCleared w =>
    rw [enableStep]
    split <;> rfl
  | hardSeen w => exact view_clearHard_ne (hne hpc)
  | hardCleared w => exact view_enableVector_ne hv (hne hpc)

theorem view_handleCalls_some (hv : Mapped v) {ic : Ic} {i : Irq} {calls : List Call} (hi : ic.next = some i)
    (hx : i.vector ≠ vectorXenos) :
    (handleCalls calls ic c).ctl.view v = (c.view v).serviced v i.vector (c.view i.vector) calls := by
  rw [handleCalls, handleInterrupt_some hi hx]
  exact view_serviceVector hv calls

theorem view_handleCalls (hv : Mapped v) {ic : Ic} {i : Irq} {calls : List Call} (hi : ic.next = some i) :
    (handleCalls calls ic c).ctl.view v = c.view v ∨
      (handleCalls calls ic c).ctl.view v = (c.view v).serviced v i.vector (c.view i.vector) calls := by
  by_cases hx : i.vector = vectorXenos
  · rw [handleCalls, handleInterrupt_xenos hi hx]
    exact Or.inl rfl
  · exact Or.inr (view_handleCalls_some hv hi hx)

/-- The handler of a registered vector is called with the soft flag clear. -/
theorem called_handleCalls {ic : Ic} {i : Irq} {calls : List Call} (hi : ic.next = some i) (hx : i.vector ≠ vectorXenos)
    (hsoft : (c.view i.vector).soft = false) (hreg : (c.view i.vector).registered = true) :
    (handleCalls calls ic c).called = true := by
  have hactive := @view_modify_active c i.vector i.vector true
  rw [handleCalls, handleInterrupt_some hi hx, serviceVector]
  generalize hc : (c.modify i.vector fun vector => { vector with interruptActive := true }) = c' at hactive ⊢
  have hsoft' : (c'.vectors i.vector).interruptDisabledSoft = false := (congrArg View.soft hactive).trans hsoft
  have hreg' : (c'.vectors i.vector).interruptRegistered = true := (congrArg View.registered hactive).trans hreg
  dsimp only
  rw [hsoft', hreg']
  rfl

end Views

/-! ## The lazy invariant -/

/-- Past the test of the soft flag. -/
def Finishing (v : ℕ) (pc : EnablePc) : Prop := pc = .softCleared v ∨ pc = .hardSeen v ∨ pc = .hardCleared v

/-- Between the test of the hard flag and unmasking. -/
def Window (v : ℕ) (pc : EnablePc) : Prop := pc = .hardSeen v ∨ pc = .hardCleared v

variable {ι : Type u}

/-- What is masked is marked, or about to be unmasked. -/
structure LazyInv (threads : ι → EnablePc) (v : ℕ) (x : View) : Prop where
  hard : x.masked = true → x.hard = true ∨ ∃ t, threads t = .hardCleared v
  soft : x.masked = true → x.soft = false → ∃ t, Finishing v (threads t)

/-- What holds of a vector in every reachable state. -/
structure VectorInv (threads : ι → EnablePc) (v : ℕ) (x : View) : Prop where
  lazy : x.registered = true → LazyInv threads v x
  masked : x.registered = false → x.masked = true
  absent : x.registered = false → ∀ t, (threads t).vector? ≠ some v

def MaskInv (w : MaskWorld ι) : Prop := ∀ v, Mapped v → VectorInv w.threads v (w.ctl.view v)

section Lazy

variable {threads : ι → EnablePc} {t : ι} {v u : ℕ} {x : View} {pc : EnablePc}

/-- A thread other than the one that moves stays where it is. -/
theorem exists_update [DecidableEq ι] {P : EnablePc → Prop} (ht : ¬ P (threads t)) (h : ∃ s, P (threads s)) :
    ∃ s, P (Function.update threads t pc s) := by
  obtain ⟨s, hs⟩ := h
  have hne : s ≠ t := fun he => ht (he ▸ hs)
  exact ⟨s, by rwa [Function.update_of_ne hne]⟩

theorem exists_updated [DecidableEq ι] {P : EnablePc → Prop} (h : P pc) : ∃ s, P (Function.update threads t pc s) :=
  ⟨t, by rwa [Function.update_self]⟩

theorem LazyInv.enabled (h : LazyInv threads v x) : LazyInv threads v x.enabled := by
  obtain ⟨registered, soft, hard, masked⟩ := x
  obtain ⟨hhard, hsoft⟩ := h
  cases soft with
  | false => exact ⟨hhard, hsoft⟩
  | true =>
    cases hard with
    | true => exact ⟨fun hm => absurd hm Bool.false_ne_true, fun hm => absurd hm Bool.false_ne_true⟩
    | false =>
      refine ⟨hhard, fun hm _ => ?_⟩
      obtain ⟨t, ht⟩ := (hhard hm).resolve_left Bool.false_ne_true
      exact ⟨t, Or.inr (Or.inr ht)⟩

theorem LazyInv.call (h : LazyInv threads v x) (call : Call) : LazyInv threads v (x.call v call) := by
  cases call with
  | enable w =>
    rw [View.call]
    split
    · exact h.enabled
    · exact h
  | disable w =>
    rw [View.call]
    split
    · exact ⟨h.hard, fun _ hs => absurd hs (by simp)⟩
    · exact h

theorem LazyInv.calls (h : LazyInv threads v x) (calls : List Call) :
    LazyInv threads v (calls.foldl (View.call v) x) := by
  induction calls generalizing x with
  | nil => exact h
  | cons call calls ih => exact ih (h.call call)

/-- An interrupt of any vector. -/
theorem LazyInv.serviced (h : LazyInv threads v x) {pre : View} (hpre : v = u → pre = x) (calls : List Call) :
    LazyInv threads v (x.serviced v u pre calls) := by
  rw [View.serviced]
  split
  · rename_i hs
    split
    · rename_i hvu
      rw [hpre hvu] at hs
      exact ⟨fun _ => Or.inl rfl, fun _ hsoft => absurd (hs.symm.trans hsoft) (by simp)⟩
    · exact h
  · split
    · exact h.calls calls
    · exact h

@[simp] theorem not_finishing_called : ¬ Finishing v (.called u) := by
  rintro (h | h | h) <;> cases h

/-- A thread that works on another vector is not past the test. -/
theorem not_finishing_of_ne (hu : pc.vector? ≠ some v) : ¬ Finishing v pc := by
  rintro (rfl | rfl | rfl) <;> exact hu rfl

variable [DecidableEq ι]

/-- A thread that is not past the test of the soft flag moves. -/
theorem LazyInv.move (h : LazyInv threads v x) (ht : ¬ Finishing v (threads t)) :
    LazyInv (Function.update threads t pc) v x := by
  refine ⟨fun hm => (h.hard hm).imp id fun hex => ?_, fun hm hs => exists_update ht (h.soft hm hs)⟩
  exact @exists_update _ _ _ _ _ (fun pc => pc = .hardCleared v) (fun hpc => ht (Or.inr (Or.inr hpc))) hex

/-- A step of a thread that enables the vector. -/
theorem LazyInv.advance (h : LazyInv threads v x) (hpc : (threads t).vector? = some v) :
    LazyInv (Function.update threads t (x.advance v (threads t)).1) v (x.advance v (threads t)).2 := by
  have hcleared : (∃ s, threads s = .hardCleared v) → threads t ≠ .hardCleared v →
      ∀ pc, ∃ s, Function.update threads t pc s = .hardCleared v :=
    fun hex ht pc => @exists_update _ _ t pc _ (fun pc => pc = .hardCleared v) ht hex
  cases hp : threads t with
  | idle =>
    rw [hp] at hpc
    cases hpc
  | called w => exact h.move (by simp [hp])
  | softSeen w =>
    refine ⟨fun hm => (h.hard hm).imp id fun hex => hcleared hex (by rw [hp]; simp) _, fun _ _ => ?_⟩
    exact exists_updated (Or.inl rfl)
  | softCleared w =>
    rw [View.advance]
    dsimp only
    split
    · refine ⟨fun hm => (h.hard hm).imp id fun hex => hcleared hex (by rw [hp]; simp) _, fun _ _ => ?_⟩
      exact exists_updated (Or.inr (Or.inl rfl))
    · rename_i hhard
      -- the flag is clear, so another thread is about to unmask
      have hother : x.masked = true → ∃ s, Function.update threads t .idle s = .hardCleared v :=
        fun hm => hcleared ((h.hard hm).resolve_left hhard) (by rw [hp]; simp) _
      refine ⟨fun hm => Or.inr (hother hm), fun hm _ => ?_⟩
      obtain ⟨s, hs⟩ := hother hm
      exact ⟨s, Or.inr (Or.inr hs)⟩
  | hardSeen w =>
    refine ⟨fun _ => Or.inr ?_, fun _ _ => exists_updated (Or.inr (Or.inr rfl))⟩
    exact @exists_updated _ _ _ _ _ (fun pc => pc = .hardCleared v) rfl
  | hardCleared w => exact ⟨fun hm => absurd hm Bool.false_ne_true, fun hm => absurd hm Bool.false_ne_true⟩

end Lazy

/-! ## Every step keeps it -/

section Steps

variable {w w' : MaskWorld ι} {l : MaskLabel ι} {v u : ℕ} {c : Controller} {x : View} {t : ι}
  {threads : ι → EnablePc} {calls : List Call}

theorem view_registerInterrupt_self : (registerInterrupt c v).view v = ⟨true, true, true, (c.view v).masked⟩ :=
  view_modify_self

theorem view_registerInterrupt_ne (h : v ≠ u) : (registerInterrupt c u).view v = c.view v := view_modify_ne h

/-- Calls for other vectors. -/
theorem foldl_call_ne (h : ∀ call ∈ calls, call.vector ≠ v) : calls.foldl (View.call v) x = x := by
  induction calls with
  | nil => rfl
  | cons call calls ih =>
    rw [List.forall_mem_cons] at h
    have hone : x.call v call = x := by
      cases call with
      | enable u => exact if_neg fun he => h.1 he.symm
      | disable u => exact if_neg fun he => h.1 he.symm
    rw [List.foldl_cons, hone, ih h.2]

theorem registered_call (x : View) (call : Call) : (x.call v call).registered = x.registered := by
  cases call with
  | enable u =>
    rw [View.call, View.enabled]
    split
    · split
      · split <;> rfl
      · rfl
    · rfl
  | disable u =>
    rw [View.call]
    split <;> rfl

theorem registered_calls (x : View) (calls : List Call) :
    (calls.foldl (View.call v) x).registered = x.registered := by
  induction calls generalizing x with
  | nil => rfl
  | cons call calls ih => rw [List.foldl_cons, ih, registered_call]

theorem registered_serviced (x pre : View) (calls : List Call) :
    (x.serviced v u pre calls).registered = x.registered := by
  rw [View.serviced]
  split
  · split <;> rfl
  · split
    · exact registered_calls x calls
    · rfl

theorem registered_advance (x : View) (pc : EnablePc) : (x.advance v pc).2.registered = x.registered := by
  cases pc <;> rfl

/-- A call goes on for its own vector or ends. -/
theorem vector_enableStep (c : Controller) (pc : EnablePc) (h : pc.vector? ≠ some v) :
    (enableStep c pc).1.vector? ≠ some v := by
  cases pc with
  | idle => exact h
  | called u =>
    rw [enableStep]
    split
    · exact h
    · simp [EnablePc.vector?]
  | softSeen u => exact h
  | softCleared u =>
    rw [enableStep]
    split
    · exact h
    · simp [EnablePc.vector?]
  | hardSeen u => exact h
  | hardCleared u => simp [enableStep, EnablePc.vector?]

theorem VectorInv.serviced (h : VectorInv threads v x) {pre : View} (hpre : v = u → pre = x)
    (hc : x.registered = false → ∀ call ∈ calls, call.vector ≠ v) :
    VectorInv threads v (x.serviced v u pre calls) := by
  refine ⟨fun hr => ?_, fun hr => ?_, fun hr => h.absent (registered_serviced x pre calls ▸ hr)⟩
  · exact (h.lazy (registered_serviced x pre calls ▸ hr)).serviced hpre calls
  · rw [registered_serviced] at hr
    rw [View.serviced]
    split
    · split
      · rfl
      · exact h.masked hr
    · split
      · rw [foldl_call_ne (hc hr)]
        exact h.masked hr
      · exact h.masked hr

theorem maskInv_init (h : MaskInit w) : MaskInv w := by
  obtain ⟨hvectors, hbridge, hthreads⟩ := h
  intro v _
  have hview : w.ctl.view v = ⟨false, false, false, true⟩ := by
    rw [Controller.view, hvectors, hbridge, show (0 : Word) = 0#32 from rfl, has_zero]
    rfl
  rw [hview]
  refine ⟨fun hr => absurd hr Bool.false_ne_true, fun _ => rfl, fun _ t ht => ?_⟩
  rw [hthreads] at ht
  cases ht

variable [DecidableEq ι]

/-- Only the thread that moves changes its place. -/
theorem absent_update {pc : EnablePc} (h : ∀ s, (threads s).vector? ≠ some v) (hpc : pc.vector? ≠ some v) (s : ι) :
    (Function.update threads t pc s).vector? ≠ some v := by
  by_cases hs : s = t
  · rwa [hs, Function.update_self]
  · rw [Function.update_of_ne hs]
    exact h s

theorem VectorInv.advance (hv : Mapped v) (h : VectorInv w.threads v (w.ctl.view v)) (t : ι) :
    VectorInv (Function.update w.threads t (enableStep w.ctl (w.threads t)).1) v
      ((enableStep w.ctl (w.threads t)).2.view v) := by
  by_cases hpc : (w.threads t).vector? = some v
  · obtain ⟨hfst, hsnd⟩ := @view_enableStep_self w.ctl v hv _ hpc
    rw [hfst, hsnd]
    have hreg : (w.ctl.view v).registered = true := by
      by_contra hn
      exact h.absent (Bool.not_eq_true _ ▸ hn) t hpc
    have hkept := (registered_advance (w.ctl.view v) (w.threads t) (v := v)).trans hreg
    exact ⟨fun _ => (h.lazy hreg).advance hpc, fun hn => absurd (hkept.symm.trans hn) (by simp),
      fun hn => absurd (hkept.symm.trans hn) (by simp)⟩
  · rw [view_enableStep_ne hv hpc]
    exact ⟨fun hr => (h.lazy hr).move (not_finishing_of_ne hpc), h.masked,
      fun hr => absent_update (h.absent hr) (vector_enableStep _ _ hpc)⟩

theorem maskInv_step (h : MaskInv w) (hs : MaskStep w l w') : MaskInv w' := by
  intro v hv
  have hi := h v hv
  cases hs with
  | register u hu =>
    by_cases he : v = u
    · subst he
      rw [view_registerInterrupt_self]
      refine ⟨fun _ => ⟨fun _ => Or.inl rfl, fun _ hs => absurd hs (by simp)⟩, ?_, ?_⟩
      · exact fun hr => absurd hr (by simp)
      · exact fun hr => absurd hr (by simp)
    · rwa [view_registerInterrupt_ne he]
  | disable t u ht hu =>
    by_cases he : v = u
    · subst he
      rw [view_disableInterrupt_self]
      exact ⟨fun hr => ⟨(hi.lazy hr).hard, fun _ hs => absurd hs (by simp)⟩, hi.masked, hi.absent⟩
    · rwa [view_disableInterrupt_ne he]
  | enable t u ht hu =>
    have hidle : ¬ Finishing v (w.threads t) := by
      rw [ht]
      exact not_finishing_of_ne (by simp [EnablePc.vector?])
    refine ⟨fun hr => (hi.lazy hr).move hidle, hi.masked, fun hr => absent_update (hi.absent hr) fun he => ?_⟩
    rw [Option.some.inj he, hr] at hu
    cases hu
  | advance t => exact hi.advance hv t
  | interrupt ic i calls hn hm hc =>
    dsimp only
    rcases @view_handleCalls w.ctl v hv ic i calls hn with he | he
    · rwa [he]
    · rw [he]
      refine hi.serviced (fun hvi => by rw [hvi]) fun hr call hcall hvec => ?_
      have := hc call hcall
      rw [hvec, hr] at this
      cases this

end Steps

/-! ## Runs without overlapping calls -/

/-- Where one call at most is between the test of the hard flag and unmasking, the flag says what is masked. -/
structure ExactInv (threads : ι → EnablePc) (v : ℕ) (x : View) : Prop where
  free : (∀ t, ¬ Window v (threads t)) → x.masked = x.hard
  seen : ∀ t, threads t = .hardSeen v → x.hard = true ∧ x.masked = true
  cleared : ∀ t, threads t = .hardCleared v → x.hard = false ∧ x.masked = true
  alone : ∀ t s, Window v (threads t) → Window v (threads s) → t = s

/-- One of the calls enables the vector and finds both flags set, so that it unmasks. -/
def View.Unmasks (v : ℕ) : View → List Call → Prop
  | _, [] => False
  | x, call :: calls => (call = .enable v ∧ x.soft = true ∧ x.hard = true) ∨ (x.call v call).Unmasks v calls

/-- No call finds the hard flag of the vector set while another call for it is past its test. -/
def NoOverlap (v : ℕ) (w : MaskWorld ι) : MaskLabel ι → Prop
  | .advance t => w.threads t = .softCleared v → (w.ctl.view v).hard = true → ∀ s, ¬ Window v (w.threads s)
  | .interrupt ic _ calls => (handleCalls calls ic w.ctl).called = true → (w.ctl.view v).Unmasks v calls →
      ∀ s, ¬ Window v (w.threads s)
  | _ => True

section Exact

variable {w w' : MaskWorld ι} {l : MaskLabel ι} {v u : ℕ} {x y : View} {t : ι} {threads : ι → EnablePc}
  {calls : List Call}

@[simp] theorem not_window_idle : ¬ Window v .idle := by
  rintro (h | h) <;> cases h

@[simp] theorem not_window_called : ¬ Window v (.called u) := by
  rintro (h | h) <;> cases h

@[simp] theorem not_window_softSeen : ¬ Window v (.softSeen u) := by
  rintro (h | h) <;> cases h

@[simp] theorem not_window_softCleared : ¬ Window v (.softCleared u) := by
  rintro (h | h) <;> cases h

theorem not_window_of_ne {pc : EnablePc} (hu : pc.vector? ≠ some v) : ¬ Window v pc := by
  rintro (rfl | rfl) <;> exact hu rfl

/-- The other flags do not matter. -/
theorem ExactInv.congr (h : ExactInv threads v x) (hh : y.hard = x.hard) (hm : y.masked = x.masked) :
    ExactInv threads v y := by
  refine ⟨?_, ?_, ?_, h.alone⟩
  · rw [hh, hm]
    exact h.free
  · rw [hh, hm]
    exact h.seen
  · rw [hh, hm]
    exact h.cleared

/-- With no call past its test, the two only have to agree. -/
theorem exactInv_of_free (hw : ∀ t, ¬ Window v (threads t)) (h : x.masked = x.hard) : ExactInv threads v x :=
  ⟨fun _ => h, fun t ht => absurd (Or.inl ht) (hw t), fun t ht => absurd (Or.inr ht) (hw t),
    fun t _ ht => absurd ht (hw t)⟩

theorem ExactInv.call (h : ExactInv threads v x) {call : Call}
    (hc : call = .enable v → x.soft = true → x.hard = true → ∀ t, ¬ Window v (threads t)) :
    ExactInv threads v (x.call v call) := by
  cases call with
  | enable u =>
    by_cases hu : v = u
    · subst hu
      rw [View.call, if_pos rfl, View.enabled]
      split
      · rename_i hsoft
        split
        · rename_i hhard
          exact exactInv_of_free (hc rfl hsoft hhard) rfl
        · exact h.congr rfl rfl
      · exact h
    · rw [View.call, if_neg hu]
      exact h
  | disable u =>
    rw [View.call]
    split
    · exact h.congr rfl rfl
    · exact h

theorem ExactInv.execCalls (h : ExactInv threads v x) (hc : x.Unmasks v calls → ∀ t, ¬ Window v (threads t)) :
    ExactInv threads v (calls.foldl (View.call v) x) := by
  induction calls generalizing x with
  | nil => exact h
  | cons call calls ih =>
    rw [List.foldl_cons]
    exact ih (h.call fun he hsoft hhard => hc (Or.inl ⟨he, hsoft, hhard⟩)) fun hrest => hc (Or.inr hrest)

/-- An interrupt. One of the vector arrives with the vector unmasked. -/
theorem ExactInv.serviced (h : ExactInv threads v x) {pre : View} (hm : v = u → x.masked = false)
    (hc : pre.soft = false → pre.registered = true → x.Unmasks v calls → ∀ t, ¬ Window v (threads t)) :
    ExactInv threads v (x.serviced v u pre calls) := by
  rw [View.serviced]
  split
  · split
    · rename_i hu
      refine exactInv_of_free (fun t ht => ?_) rfl
      have hmasked : x.masked = true := ht.elim (fun hs => (h.seen t hs).2) fun hs => (h.cleared t hs).2
      rw [hm hu] at hmasked
      cases hmasked
    · exact h
  · rename_i hsoft
    split
    · rename_i hreg
      exact h.execCalls (hc (Bool.eq_false_of_not_eq_true hsoft) hreg)
    · exact h

variable [DecidableEq ι]

/-- A thread moves outside the window. -/
theorem ExactInv.move {pc : EnablePc} (h : ExactInv threads v x) (ht : ¬ Window v (threads t)) (hpc : ¬ Window v pc) :
    ExactInv (Function.update threads t pc) v x := by
  have hback : ∀ s, Window v (Function.update threads t pc s) → Function.update threads t pc s = threads s := by
    intro s hs
    by_cases he : s = t
    · rw [he, Function.update_self] at hs
      exact absurd hs hpc
    · exact Function.update_of_ne he _ _
  refine ⟨fun hw => h.free fun s hs => ?_, fun s hs => ?_, fun s hs => ?_, fun s r hs hr => ?_⟩
  · have hne : s ≠ t := fun he => ht (he ▸ hs)
    exact hw s (by rwa [Function.update_of_ne hne])
  · exact h.seen s (hback s (Or.inl hs) ▸ hs)
  · exact h.cleared s (hback s (Or.inr hs) ▸ hs)
  · exact h.alone s r (hback s hs ▸ hs) (hback r hr ▸ hr)

/-- A thread is in the window, alone. -/
theorem exactInv_of_one {pc : EnablePc} (hw : ∀ s, s ≠ t → ¬ Window v (threads s)) (hpc : Window v pc)
    (hseen : pc = .hardSeen v → x.hard = true ∧ x.masked = true)
    (hcleared : pc = .hardCleared v → x.hard = false ∧ x.masked = true) :
    ExactInv (Function.update threads t pc) v x := by
  have hone : ∀ s, Window v (Function.update threads t pc s) → s = t := by
    intro s hs
    by_contra he
    rw [Function.update_of_ne he] at hs
    exact hw s he hs
  have hself : Function.update threads t pc t = pc := Function.update_self _ _ _
  refine ⟨fun hfree => absurd (hself.symm ▸ hpc) (hfree t), fun s hs => ?_, fun s hs => ?_,
    fun s r hs hr => (hone s hs).trans (hone r hr).symm⟩
  · rw [hone s (Or.inl hs), hself] at hs
    exact hseen hs
  · rw [hone s (Or.inr hs), hself] at hs
    exact hcleared hs

/-- A step of a thread that enables the vector. -/
theorem ExactInv.advance (h : ExactInv threads v x) (hpc : (threads t).vector? = some v)
    (hover : threads t = .softCleared v → x.hard = true → ∀ s, ¬ Window v (threads s)) :
    ExactInv (Function.update threads t (x.advance v (threads t)).1) v (x.advance v (threads t)).2 := by
  cases hp : threads t with
  | idle =>
    rw [hp] at hpc
    cases hpc
  | called w =>
    refine h.move (by simp [hp]) ?_
    rw [View.advance]
    dsimp only
    split <;> simp
  | softSeen w =>
    refine (h.move (by simp [hp]) ?_).congr rfl rfl
    exact not_window_softCleared
  | softCleared w =>
    have hw : w = v := by
      rw [hp] at hpc
      exact Option.some.inj hpc
    rw [View.advance]
    dsimp only
    split
    · rename_i hhard
      have hfree := hover (by rw [hp, hw]) hhard
      refine exactInv_of_one (fun s _ => hfree s) (Or.inl rfl) (fun _ => ⟨hhard, ?_⟩) fun he => by cases he
      rw [h.free hfree, hhard]
    · exact h.move (by simp [hp]) not_window_idle
  | hardSeen w =>
    have hw : threads t = .hardSeen v := by
      rw [hp] at hpc ⊢
      exact congrArg _ (Option.some.inj hpc)
    refine exactInv_of_one (fun s hs hwin => hs (h.alone s t hwin (Or.inl hw))) (Or.inr rfl) (fun he => by cases he)
      fun _ => ⟨rfl, (h.seen t hw).2⟩
  | hardCleared w =>
    have hw : threads t = .hardCleared v := by
      rw [hp] at hpc ⊢
      exact congrArg _ (Option.some.inj hpc)
    refine exactInv_of_free (fun s hs => ?_) (h.cleared t hw).1.symm
    by_cases he : s = t
    · rw [he, Function.update_self] at hs
      exact not_window_idle hs
    · rw [Function.update_of_ne he] at hs
      exact he (h.alone s t hs (Or.inr hw))

def OverlapInv (v : ℕ) (w : MaskWorld ι) : Prop :=
  (w.ctl.view v).registered = true → ExactInv w.threads v (w.ctl.view v)

theorem overlapInv_step (hv : Mapped v) (hinv : MaskInv w) (h : OverlapInv v w) (hover : NoOverlap v w l)
    (hs : MaskStep w l w') : OverlapInv v w' := by
  intro hr
  cases hs with
  | register u hu =>
    by_cases he : v = u
    · subst he
      have hi := hinv v hv
      rw [view_registerInterrupt_self]
      exact exactInv_of_free (fun t => not_window_of_ne (hi.absent hu t)) (hi.masked hu)
    · rw [view_registerInterrupt_ne he] at hr ⊢
      exact h hr
  | disable t u ht hu =>
    by_cases he : v = u
    · subst he
      rw [view_disableInterrupt_self]
      exact (h hu).congr rfl rfl
    · rw [view_disableInterrupt_ne he] at hr ⊢
      exact h hr
  | enable t u ht hu =>
    exact (h hr).move (by simp [ht]) not_window_called
  | advance t =>
    by_cases hpc : (w.threads t).vector? = some v
    · obtain ⟨hfst, hsnd⟩ := @view_enableStep_self w.ctl v hv _ hpc
      dsimp only at hr ⊢
      rw [hsnd, registered_advance] at hr
      rw [hfst, hsnd]
      exact (h hr).advance hpc hover
    · dsimp only at hr ⊢
      rw [view_enableStep_ne hv hpc] at hr ⊢
      exact (h hr).move (not_window_of_ne hpc) (not_window_of_ne (vector_enableStep _ _ hpc))
  | interrupt ic i calls hn hm hc =>
    dsimp only at hr ⊢
    by_cases hx : i.vector = vectorXenos
    · rw [handleCalls, handleInterrupt_xenos hn hx] at hr ⊢
      exact h hr
    · rw [view_handleCalls_some hv hn hx, registered_serviced] at hr
      rw [view_handleCalls_some hv hn hx]
      exact (h hr).serviced (fun hvi => hvi ▸ hm (hvi ▸ hv)) fun hsoft hreg =>
        hover (called_handleCalls hn hx hsoft hreg)

end Exact

/-! ## Masking -/

/-- The handler is called with the soft flag clear only; otherwise the hard flag is set and the vector masked, and in no
other case is the flag set. -/
structure InterruptSafe (e : Edge (MaskWorld ι) (MaskLabel ι)) : Prop where
  called : ∀ ic i calls, e.label = .interrupt ic i calls → (handleCalls calls ic e.pre.ctl).called = true →
    (e.pre.ctl.view i.vector).soft = false
  masks : ∀ ic i calls, e.label = .interrupt ic i calls → Mapped i.vector → (e.pre.ctl.view i.vector).soft = true →
    (e.post.ctl.view i.vector).hard = true ∧ (e.post.ctl.view i.vector).masked = true
  only : ∀ ic i calls, e.label = .interrupt ic i calls → ∀ v, Mapped v → (e.pre.ctl.view v).hard = false →
    (e.post.ctl.view v).hard = true → v = i.vector ∧ (e.pre.ctl.view v).soft = true

section Masking

variable {es : List (Edge (MaskWorld ι) (MaskLabel ι))} {w w' : MaskWorld ι} {v u : ℕ} {x : View} {ic : Ic} {i : Irq}
  {c : Controller}

theorem hard_call {call : Call} (h : (x.call v call).hard = true) : x.hard = true := by
  cases call with
  | enable u =>
    rw [View.call, View.enabled] at h
    split at h
    · split at h
      · split at h
        · cases h
        · exact h
      · exact h
    · exact h
  | disable u =>
    rw [View.call] at h
    split at h <;> exact h

/-- No call sets the hard flag. -/
theorem hard_calls {calls : List Call} (h : (calls.foldl (View.call v) x).hard = true) : x.hard = true := by
  induction calls generalizing x with
  | nil => exact h
  | cons call calls ih => exact hard_call (ih h)

theorem soft_of_called {calls : List Call} (hn : ic.next = some i)
    (h : (handleCalls calls ic c).called = true) : (c.view i.vector).soft = false := by
  rw [handleCalls] at h
  by_cases hx : i.vector = vectorXenos
  · rw [handleInterrupt_xenos hn hx] at h
    cases h
  · rw [handleInterrupt_some hn hx, serviceVector] at h
    have hactive := congrArg View.soft (@view_modify_active c i.vector i.vector true)
    rw [← hactive]
    dsimp only at h
    split at h
    · rename_i hs
      simpa [Controller.view] using hs
    · cases h

theorem interruptSafe [DecidableEq ι] {l : MaskLabel ι} (hs : MaskStep w l w') : InterruptSafe ⟨w, l, w'⟩ := by
  cases hs with
  | interrupt ic i calls hn hm hc =>
    refine ⟨?_, ?_, ?_⟩
    · rintro _ _ _ ⟨⟩ hcalled
      exact soft_of_called hn hcalled
    · rintro _ _ _ ⟨⟩ hv hsoft
      have hx : i.vector ≠ vectorXenos := by
        intro hx
        exact hv.2 (by rw [hx]; rfl)
      dsimp only at hsoft ⊢
      rw [view_handleCalls_some hv hn hx, View.serviced, if_pos hsoft, if_pos rfl]
      exact ⟨rfl, rfl⟩
    · rintro _ _ _ ⟨⟩ v hv hpre hpost
      dsimp only at hpre hpost ⊢
      rcases @view_handleCalls w.ctl v hv ic i calls hn with he | he
      · rw [he, hpre] at hpost
        cases hpost
      · rw [he, View.serviced] at hpost
        split at hpost
        · rename_i hsoft
          split at hpost
          · rename_i hvi
            exact ⟨hvi, hvi ▸ hsoft⟩
          · rw [hpre] at hpost
            cases hpost
        · split at hpost
          · rw [hard_calls hpost] at hpre
            cases hpre
          · rw [hpre] at hpost
            cases hpost
  | _ =>
    refine ⟨?_, ?_, ?_⟩ <;>
    · intro _ _ _ hl
      cases hl

/-- **Lazy masking.** In every run: the handler is called with the soft flag clear only, and what sets the hard flag
masks the vector; a masked vector has the hard flag set unless a call is about to unmask it; and a vector that is
enabled, with no call in progress, is not masked. Where no two calls that enable the vector overlap past their test of
the hard flag, the flag is set exactly where the vector is masked. -/
theorem masking_correct [DecidableEq ι] (h : Run MaskInit MaskStep es w) :
    (∀ e ∈ es, InterruptSafe e) ∧
    (∀ v, Mapped v → (w.ctl.view v).registered = true → (∀ t, w.threads t ≠ .hardCleared v) →
      (w.ctl.view v).masked = true → (w.ctl.view v).hard = true) ∧
    (∀ v, Mapped v → (w.ctl.view v).registered = true → (w.ctl.view v).soft = false →
      (∀ t, (w.threads t).vector? ≠ some v) → (w.ctl.view v).masked = false) ∧
    (∀ v, Mapped v → (∀ e ∈ es, NoOverlap v e.pre e.label) → (w.ctl.view v).registered = true →
      (∀ t, w.threads t ≠ .hardCleared v) → (w.ctl.view v).masked = (w.ctl.view v).hard) := by
  have hinv : MaskInv w := h.invariant (I := MaskInv) (fun _ => maskInv_init) fun _ _ _ => maskInv_step
  refine ⟨fun e he => ?_, fun v hv hr hno hm => ?_, fun v hv hr hsoft hno => ?_, fun v hv hover hr hno => ?_⟩
  · exact interruptSafe (h.edge_invariant (I := MaskInv) (fun _ => maskInv_init) (fun _ _ _ => maskInv_step) e he).2
  · refine (((hinv v hv).lazy hr).hard hm).resolve_right ?_
    rintro ⟨t, ht⟩
    exact hno t ht
  · rw [← Bool.not_eq_true]
    intro hm
    obtain ⟨t, ht⟩ := ((hinv v hv).lazy hr).soft hm hsoft
    exact not_finishing_of_ne (hno t) ht
  · have hguard : MaskInv w ∧ OverlapInv v w := by
      refine h.guarded (I := fun w => MaskInv w ∧ OverlapInv v w) (C := NoOverlap v)
        (fun s hs => ⟨maskInv_init hs, fun hreg => ?_⟩)
        (fun _ _ _ hi hc hs => ⟨maskInv_step hi.1 hs, overlapInv_step hv hi.1 hi.2 hc hs⟩) hover
      rw [Controller.view, hs.1 v] at hreg
      cases hreg
    have hexact := hguard.2 hr
    by_cases hseen : ∃ t, w.threads t = .hardSeen v
    · obtain ⟨t, ht⟩ := hseen
      rw [(hexact.seen t ht).1, (hexact.seen t ht).2]
    · refine hexact.free fun t ht => ht.elim (fun hs => hseen ⟨t, hs⟩) (hno t)

/-! ## Two runs -/

/-- The Ethernet interrupt is pending. -/
def ethernetIc : Ic := ⟨Irq.vector, [ethernetIrq], .empty, 0⟩

/-- Two threads, before anything is registered. -/
def bootMask : MaskWorld Bool := ⟨⟨fun _ => ⟨false, false, false, false⟩, fun _ => 0⟩, fun _ => .idle⟩

theorem bootMask_init : MaskInit bootMask := ⟨fun _ => rfl, fun _ => rfl, fun _ => rfl⟩

/-- The vector is registered and enabled, and interrupts. -/
theorem masking_correct_enabled : ∃ es w, Run MaskInit (@MaskStep Bool _) es w ∧ es.length = 8 ∧
    (w.ctl.view vectorEthernet).masked = false ∧
    (w.ctl.view vectorEthernet).masked = (w.ctl.view vectorEthernet).hard := by
  have h0 : Run MaskInit (@MaskStep Bool _) [] bootMask := .start bootMask_init
  have h1 := h0.step (.register _ vectorEthernet rfl)
  have h2 := h1.step (.enable _ true vectorEthernet rfl rfl)
  have h3 := (((h2.step (.advance _ true)).step (.advance _ true)).step (.advance _ true))
  have h4 := (h3.step (.advance _ true)).step (.advance _ true)
  have h5 := h4.step (.interrupt _ ethernetIc ethernetIrq [] rfl (fun _ => rfl) (List.forall_mem_nil _))
  obtain ⟨-, -, henabled, hexact⟩ := masking_correct h5
  have hv : Mapped vectorEthernet := ⟨by decide, by decide⟩
  refine ⟨_, _, h5, rfl, henabled _ hv rfl rfl (by decide), hexact _ hv ?_ rfl (by decide)⟩
  simp only [List.nil_append, List.cons_append, List.forall_mem_cons, List.not_mem_nil, false_imp_iff, implies_true,
    and_true]
  refine ⟨trivial, trivial, ?_, ?_, ?_, ?_, ?_, fun _ h => h.elim⟩
  · exact fun ht => absurd ht (by decide)
  · exact fun ht => absurd ht (by decide)
  · -- the other thread is idle when the test of the hard flag is made
    rintro - - s (hs | hs) <;> cases s <;> exact absurd hs (by decide)
  · exact fun ht => absurd ht (by decide)
  · exact fun ht => absurd ht (by decide)

/-- Two calls that overlap: after the first one unmasks, the vector is disabled and interrupts, and then the second one
unmasks too. -/
theorem stale_unmask : ∃ es w, Run MaskInit (@MaskStep Bool _) es w ∧ Mapped vectorEthernet ∧
    (w.ctl.view vectorEthernet).registered = true ∧ (∀ t, w.threads t = .idle) ∧
    (w.ctl.view vectorEthernet).hard = true ∧ (w.ctl.view vectorEthernet).masked = false := by
  have h0 : Run MaskInit (@MaskStep Bool _) [] bootMask := .start bootMask_init
  have h1 := h0.step (.register _ vectorEthernet rfl)
  have h2 := (h1.step (.enable _ true vectorEthernet rfl rfl)).step (.enable _ false vectorEthernet rfl rfl)
  have h3 := (h2.step (.advance _ true)).step (.advance _ false)
  have h4 := (h3.step (.advance _ true)).step (.advance _ false)
  have h5 := (h4.step (.advance _ true)).step (.advance _ false)
  have h6 := (h5.step (.advance _ true)).step (.advance _ false)
  have h7 := (h6.step (.advance _ true)).step (.disable _ true vectorEthernet rfl rfl)
  have h8 := h7.step (.interrupt _ ethernetIc ethernetIrq [] rfl (fun _ => rfl) (List.forall_mem_nil _))
  have h9 := h8.step (.advance _ false)
  exact ⟨_, _, h9, ⟨by decide, by decide⟩, rfl, by decide, rfl, rfl⟩

end Masking

end Osx360.Interrupts
