import Mathlib.Algebra.BigOperators.Group.Finset.Piecewise
import Mathlib.Data.List.Basic

/-!
# Runs of labelled transition systems

A `Run init step es s` starts in a state with `init`, takes the steps `es` (each one with the states before and after
it and its label) and ends in `s`.

- invariants: what holds at the start and is kept by every step holds after every run (`Run.invariant`), and along it
  (`Run.edge_invariant`);
- guarded runs: what is kept by the steps that meet a condition holds after every run whose steps all meet it
  (`Run.guarded`), so in every state that is `ReachableIf` they do;
- paths: a run is continued by a `Path` from its end (`Run.append`) and taken apart at its last step (`Run.of_snoc`);
  steps of one kind lead from a state to another (`Leads`);
- exactness: if the steps meeting a condition keep the invariant and have a property, and the others lack the
  property, then all steps of a run have the property iff all of them meet the condition (`Run.forall_iff`);
- termination: steps that lower a measure bound the length of a path (`Run.length_le`); where each of many processes
  has a cost, a step of one of them changes the sum by its own (`sum_cost_update`);
- simulation: if every step is a step between the abstractions of its states, or changes nothing in them, then every
  run is one of the abstract system, with the labels that are visible there (`Run.simulate`).
-/

set_option autoImplicit false

namespace Osx360.Lib

universe u v

/-- One step of a run. -/
structure Edge (σ : Type u) (ι : Type v) where
  pre : σ
  label : ι
  post : σ

variable {σ : Type u} {ι : Type v}

/-- Runs, newest step last. -/
inductive Run (init : σ → Prop) (step : σ → ι → σ → Prop) : List (Edge σ ι) → σ → Prop
  | start {s : σ} : init s → Run init step [] s
  | step {es : List (Edge σ ι)} {s t : σ} {l : ι} :
      Run init step es s → step s l t → Run init step (es ++ [⟨s, l, t⟩]) t

/-- Some run ends in the state. -/
def Reachable (init : σ → Prop) (step : σ → ι → σ → Prop) (s : σ) : Prop := ∃ es, Run init step es s

variable {init : σ → Prop} {step : σ → ι → σ → Prop}

theorem Reachable.of_init {s : σ} (h : init s) : Reachable init step s := ⟨[], .start h⟩

theorem Reachable.snoc {s t : σ} {l : ι} (h : Reachable init step s) (hs : step s l t) : Reachable init step t := by
  obtain ⟨es, hr⟩ := h
  exact ⟨_, hr.step hs⟩

/-! ## Invariants -/

section Invariants

variable {I : σ → Prop}

/-- A property of the start states kept by every step holds at the end of every run. -/
theorem Run.invariant (h0 : ∀ s, init s → I s) (hstep : ∀ s l t, I s → step s l t → I t)
    {es : List (Edge σ ι)} {s : σ} (h : Run init step es s) : I s := by
  induction h with
  | start hs => exact h0 _ hs
  | step _ hs ih => exact hstep _ _ _ ih hs

theorem Reachable.invariant (h0 : ∀ s, init s → I s) (hstep : ∀ s l t, I s → step s l t → I t)
    {s : σ} (h : Reachable init step s) : I s := by
  obtain ⟨_, hr⟩ := h
  exact hr.invariant h0 hstep

/-- Every step of a run leaves a state with the invariant. -/
theorem Run.edge_invariant (h0 : ∀ s, init s → I s) (hstep : ∀ s l t, I s → step s l t → I t)
    {es : List (Edge σ ι)} {s : σ} (h : Run init step es s) :
    ∀ e ∈ es, I e.pre ∧ step e.pre e.label e.post := by
  induction h with
  | start => simp
  | @step es s t l hr hs ih =>
    intro e he
    rcases List.mem_append.mp he with he | he
    · exact ih e he
    · rw [List.mem_singleton.mp he]
      exact ⟨hr.invariant h0 hstep, hs⟩

end Invariants

/-! ## Paths -/

/-- Runs from a state. -/
abbrev Path (step : σ → ι → σ → Prop) (s : σ) : List (Edge σ ι) → σ → Prop := Run (fun x => x = s) step

section Paths

variable {es es' : List (Edge σ ι)} {e : Edge σ ι} {s t : σ}

theorem Run.append (h : Run init step es s) (hp : Path step s es' t) : Run init step (es ++ es') t := by
  induction hp with
  | start hs =>
    rw [List.append_nil, hs]
    exact h
  | step _ hs ih =>
    rw [← List.append_assoc]
    exact ih.step hs

/-- The path of no steps from the end of a run. -/
theorem Run.here (_ : Run init step es s) : Path step s [] s := .start rfl

/-- The last step of a run. -/
theorem Run.of_snoc (h : Run init step (es ++ [e]) s) :
    Run init step es e.pre ∧ step e.pre e.label e.post ∧ s = e.post := by
  generalize hes : es ++ [e] = es' at h
  cases h with
  | start => simp at hes
  | step hr hs =>
    obtain ⟨rfl, he⟩ := List.append_inj' hes rfl
    obtain rfl := List.singleton_inj.mp he
    exact ⟨hr, hs, rfl⟩

/-- Steps with labels of one kind lead from one state to another. -/
def Leads (step : σ → ι → σ → Prop) (kind : ι → Prop) (s t : σ) : Prop :=
  ∃ es, Path step s es t ∧ ∀ e ∈ es, kind e.label

section Leads

variable {kind : ι → Prop} {s t u : σ}

theorem Leads.refl (kind : ι → Prop) (s : σ) : Leads step kind s s := ⟨[], .start rfl, List.forall_mem_nil _⟩

theorem Leads.trans (h : Leads step kind s t) (h' : Leads step kind t u) : Leads step kind s u := by
  obtain ⟨es, hpath, hes⟩ := h
  obtain ⟨es', hpath', hes'⟩ := h'
  exact ⟨es ++ es', hpath.append hpath', List.forall_mem_append.mpr ⟨hes, hes'⟩⟩

theorem Leads.single {l : ι} (hs : step s l t) (hl : kind l) : Leads step kind s t :=
  ⟨_, (Run.start rfl : Path step s [] s).step hs, List.forall_mem_singleton.mpr hl⟩

theorem Leads.reachable (h : Leads step kind s t) (hreach : Reachable init step s) : Reachable init step t := by
  obtain ⟨es, hpath, -⟩ := h
  obtain ⟨es', hrun⟩ := hreach
  exact ⟨_, hrun.append hpath⟩

end Leads

end Paths

/-! ## Guarded runs -/

section Guarded

variable {I : σ → Prop} {C : σ → ι → Prop}

/-- The condition on the steps of a longer run, split at its last step. -/
theorem forall_snoc {P : Edge σ ι → Prop} {es : List (Edge σ ι)} {e : Edge σ ι} :
    (∀ x ∈ es ++ [e], P x) ↔ (∀ x ∈ es, P x) ∧ P e := by
  rw [List.forall_mem_append, List.forall_mem_singleton]

/-- A property kept by the steps that meet `C` holds after every run whose steps all meet `C`. -/
theorem Run.guarded (h0 : ∀ s, init s → I s) (hstep : ∀ s l t, I s → C s l → step s l t → I t)
    {es : List (Edge σ ι)} {s : σ} (h : Run init step es s) (hc : ∀ e ∈ es, C e.pre e.label) : I s := by
  induction h with
  | start hs => exact h0 _ hs
  | step _ hs ih =>
    rw [forall_snoc] at hc
    exact hstep _ _ _ (ih hc.1) hc.2 hs

/-- Some run whose steps all meet the condition ends in the state. -/
def ReachableIf (init : σ → Prop) (step : σ → ι → σ → Prop) (C : σ → ι → Prop) (s : σ) : Prop :=
  ∃ es, Run init step es s ∧ ∀ e ∈ es, C e.pre e.label

theorem ReachableIf.of_init {s : σ} (h : init s) : ReachableIf init step C s := ⟨[], .start h, List.forall_mem_nil _⟩

theorem ReachableIf.snoc {s t : σ} {l : ι} (h : ReachableIf init step C s) (hs : step s l t) (hl : C s l) :
    ReachableIf init step C t := by
  obtain ⟨es, hr, hc⟩ := h
  exact ⟨_, hr.step hs, forall_snoc.mpr ⟨hc, hl⟩⟩

theorem ReachableIf.invariant (h0 : ∀ s, init s → I s) (hstep : ∀ s l t, I s → C s l → step s l t → I t) {s : σ}
    (h : ReachableIf init step C s) : I s := by
  obtain ⟨es, hr, hc⟩ := h
  exact hr.guarded h0 hstep hc

/-- What the steps that meet `C` have from the invariant, every step of such a run has. -/
theorem Run.guarded_edges {Q : Edge σ ι → Prop} (h0 : ∀ s, init s → I s)
    (hgood : ∀ s l t, I s → C s l → step s l t → I t ∧ Q ⟨s, l, t⟩)
    {es : List (Edge σ ι)} {s : σ} (h : Run init step es s) (hc : ∀ e ∈ es, C e.pre e.label) : ∀ e ∈ es, Q e := by
  induction h with
  | start => exact List.forall_mem_nil _
  | step hr hs ih =>
    rw [forall_snoc] at hc ⊢
    have hI := hr.guarded h0 (fun s l t hi hc hs => (hgood s l t hi hc hs).1) hc.1
    exact ⟨ih hc.1, (hgood _ _ _ hI hc.2 hs).2⟩

/-- **Exactness of a condition on runs.** -/
theorem Run.forall_iff {Q : Edge σ ι → Prop} (h0 : ∀ s, init s → I s)
    (hgood : ∀ s l t, I s → C s l → step s l t → I t ∧ Q ⟨s, l, t⟩)
    (hbad : ∀ s l t, I s → ¬ C s l → step s l t → ¬ Q ⟨s, l, t⟩)
    {es : List (Edge σ ι)} {s : σ} (h : Run init step es s) :
    (∀ e ∈ es, Q e) ↔ ∀ e ∈ es, C e.pre e.label := by
  induction h with
  | start => simp
  | @step es s t l hr hs ih =>
    rw [forall_snoc, forall_snoc, ih]
    refine and_congr_right fun hc => ?_
    have hI : I s := hr.guarded h0 (fun s l t hi hc hs => (hgood s l t hi hc hs).1) hc
    constructor
    · intro hq
      by_contra hn
      exact hbad s l t hI hn hs hq
    · intro hl
      exact (hgood s l t hI hl hs).2

/-- **Termination.** A path whose steps all lower a measure is no longer than the measure at its start. -/
theorem Run.length_le {μ : σ → ℕ} {es : List (Edge σ ι)} {s t : σ} (hI : I s)
    (hstep : ∀ s l t, I s → C s l → step s l t → I t ∧ μ t < μ s) (h : Path step s es t)
    (hc : ∀ e ∈ es, C e.pre e.label) : I t ∧ es.length + μ t ≤ μ s := by
  induction h with
  | start hs =>
    subst hs
    exact ⟨hI, by simp⟩
  | step _ hs ih =>
    rw [forall_snoc] at hc
    obtain ⟨hIs, hle⟩ := ih hc.1
    obtain ⟨hIt, hlt⟩ := hstep _ _ _ hIs hc.2 hs
    exact ⟨hIt, by rw [List.length_append, List.length_singleton]; omega⟩

end Guarded

/-! ## Costs -/

/-- The cost of many processes when one of them moves on. -/
theorem sum_cost_update {α : Type u} {κ : Type v} [DecidableEq κ] (cost : α → ℕ) (f : κ → α) {S : Finset κ} {c : κ}
    (hc : c ∈ S) (a : α) :
    ∑ d ∈ S, cost (Function.update f c a d) + cost (f c) = ∑ d ∈ S, cost (f d) + cost a := by
  have hupdate : (fun d => cost (Function.update f c a d)) = Function.update (fun d => cost (f d)) c (cost a) :=
    funext fun d => Function.apply_update (fun _ => cost) f c a d
  rw [hupdate, Finset.sum_update_of_mem hc, Finset.sum_eq_add_sum_sdiff_singleton_of_mem hc]
  omega

/-! ## Simulation -/

section Simulation

universe x y

variable {τ : Type x} {κ : Type y} {init' : τ → Prop} {step' : τ → κ → τ → Prop} {I : σ → Prop} {C : σ → ι → Prop}
  {abs : σ → τ} {visible : ι → Option κ}

/-- **Simulation.** A run whose steps all meet `C` is a run of the abstract system, with the visible labels. -/
theorem Run.simulate (h0 : ∀ s, init s → I s ∧ init' (abs s)) (hstep : ∀ s l t, I s → C s l → step s l t → I t)
    (hseen : ∀ s l t k, I s → C s l → step s l t → visible l = some k → step' (abs s) k (abs t))
    (hunseen : ∀ s l t, I s → C s l → step s l t → visible l = none → abs t = abs s)
    {es : List (Edge σ ι)} {s : σ} (h : Run init step es s) (hc : ∀ e ∈ es, C e.pre e.label) :
    ∃ es', Run init' step' es' (abs s) ∧ es'.map Edge.label = es.filterMap fun e => visible e.label := by
  induction h with
  | start hs => exact ⟨[], .start (h0 _ hs).2, rfl⟩
  | @step es s t l hr hs ih =>
    rw [forall_snoc] at hc
    obtain ⟨es', hr', hlabels⟩ := ih hc.1
    have hI := hr.guarded (fun s hs => (h0 s hs).1) hstep hc.1
    cases hl : visible l with
    | none =>
      refine ⟨es', ?_, ?_⟩
      · rw [hunseen _ _ _ hI hc.2 hs hl]
        exact hr'
      · simp [hlabels, hl]
    | some k => exact ⟨_, hr'.step (hseen _ _ _ _ hI hc.2 hs hl), by simp [hlabels, hl]⟩

end Simulation

end Osx360.Lib
