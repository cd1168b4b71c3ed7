import Osx360.Platform.InitPatcher

/-!
# The patcher installed

`initPatcher` from the kernel in memory to its hooks at work. Where the symbols and the functions to be hooked lie
apart, each of these functions goes to its wrapper, while the `_org` field goes on as the function did
(`patcher_installs`).
-/

set_option autoImplicit false

namespace Osx360.Platform

open Osx360.Lib
open Osx360.Lib.PowerPC

universe u

/-! ## `initPatcher` -/

section Init

variable {env : PatcherEnv} {pe : XenonPE} {mem : Memory} {fields : PatcherFields}

/-- The functions that were routed, with their wrappers. -/
def InitResult.routes (r : InitResult) (env : PatcherEnv) : List HookRoute :=
  List.zipWith (fun a h => ⟨a, h.wrap⟩) r.routed (hooks env)

/-- The `_org` fields of the functions that are hooked. -/
def PatcherFields.trampolines (fields : PatcherFields) (env : PatcherEnv) : List Word :=
  [fields.orgDebugger, fields.orgPmapEnter,
    if env.kernelVersion ≥ kernelVersionTiger then fields.orgGradeBinary else fields.orgGradeCpuSubtype]

/-- **`initPatcher` routes one function after another**, and keeps their trampolines. -/
theorem initPatcher_routeAll (h : (initPatcher env pe mem fields).ok = true) :
    (routeAll pe ((initPatcher env pe mem fields).routes env) mem).2 = (initPatcher env pe mem fields).mem ∧
      (routeAll pe ((initPatcher env pe mem fields).routes env) mem).1.map Prod.snd =
        (initPatcher env pe mem fields).fields.trampolines env := by
  unfold initPatcher at h ⊢
  rcases hfind : findKernelMachHeader mem env.ioLog fields.symbols with ⟨found, symbols⟩
  rw [hfind] at h
  cases found with
  | false => cases h
  | true =>
    simp only [Bool.not_true, Bool.false_eq_true, if_false] at h ⊢
    split at h
    · cases h
    · rename_i hd
      rw [if_neg hd]
      by_cases hv : env.kernelVersion ≥ kernelVersionTiger
      · rw [if_pos hv, PatcherFields.trampolines, if_pos hv, InitResult.routes, hooks, if_pos hv]
        exact ⟨rfl, rfl⟩
      · rw [if_neg hv, PatcherFields.trampolines, if_neg hv, InitResult.routes, hooks, if_neg hv]
        exact ⟨rfl, rfl⟩

end Init

/-! ## The kernel -/

/-- The kernel in memory can be patched. -/
structure Installable (env : PatcherEnv) (pe : XenonPE) (mem : Memory) (symbols : SymbolFields) : Prop where
  direct : ∀ name ∈ directNames env, resolveKernelSymbol mem symbols name ≠ 0
  routable : Routable pe 0 ((hooks env).map (Hook.route mem symbols)) mem
  table : ∀ h ∈ hooks env, ∀ a, SymbolWord mem symbols h.name a →
    ¬ pe.OwnFrom 0 a ∧ ∀ g ∈ hooks env, ¬ (g.route mem symbols).Patches a

section Install

variable {σ : Type u} {env : PatcherEnv} {pe : XenonPE} {mem old : Memory} {symbols : SymbolFields}
  {fields : PatcherFields} {hs : List Hook} {k : ℕ}

/-- The functions routed are those of the kernel. -/
theorem Installable.routes_eq (hfind : findKernelMachHeader mem env.ioLog fields.symbols = (true, symbols))
    (h : Installable env pe mem symbols) : (initPatcher env pe mem fields).ok = true ∧
      (initPatcher env pe mem fields).routes env = (hooks env).map (Hook.route mem symbols) := by
  have hdirect : ¬ ∃ name ∈ directNames env, resolveKernelSymbol mem symbols name = 0 := by
    rintro ⟨name, hname, hzero⟩
    exact h.direct name hname hzero
  obtain ⟨hok, -, hrouted⟩ := @initPatcher_of_resolved env pe mem fields symbols hfind hdirect
  rw [routedTo_eq h.routable.placed (fun _ _ _ _ => rfl) h.table] at hrouted
  refine ⟨hok, ?_⟩
  rw [InitResult.routes, hrouted, List.zipWith_map_left]
  simp [hooks, Hook.route]

/-- **The patcher is installed.** It succeeds, the memory outside the object and the functions is as it was, each
function goes to its wrapper, and each trampoline that is kept goes on as the function did. -/
theorem patcher_installs (isa : Isa σ) (hfind : findKernelMachHeader mem env.ioLog fields.symbols = (true, symbols))
    (h : Installable env pe mem symbols) :
    (initPatcher env pe mem fields).ok = true ∧
      (∀ a, ¬ pe.OwnFrom 0 a → (∀ g ∈ hooks env, ¬ (g.route mem symbols).Patches a) →
        (initPatcher env pe mem fields).mem a = mem a) ∧
      ∀ k (hk : k < (hooks env).length), ∃ trampoline,
        ((initPatcher env pe mem fields).fields.trampolines env)[k]? = some trampoline ∧
          ∀ r, PlainPrologue isa mem (resolveKernelSymbol mem symbols (hooks env)[k].name) r →
            HookRuns isa mem (initPatcher env pe mem fields).mem ((hooks env)[k].route mem symbols) trampoline r := by
  obtain ⟨hok, hroutes⟩ := h.routes_eq hfind
  obtain ⟨hmem, htrampolines⟩ := initPatcher_routeAll hok
  rw [hroutes] at hmem htrampolines
  refine ⟨hok, fun a hown hpatch => ?_, fun k hk => ?_⟩
  · rw [← hmem]
    exact h.routable.frame hown (List.forall_mem_map.mpr hpatch)
  · obtain ⟨trampoline, hresult, hruns⟩ := h.routable.runs isa k (by rwa [List.length_map])
    refine ⟨trampoline, ?_, fun r hp => ?_⟩
    · rw [← htrampolines, List.getElem?_map, hresult]
      rfl
    · rw [List.getElem_map] at hruns
      rw [← hmem]
      exact hruns r hp

end Install

/-! ## A kernel -/

section Whole

theorem wholeKernel_routable : Routable ⟨0x100000⟩ 0 wholeRoutes wholeKernel := by
  have hbase : (XenonPE.tmpExecMemory ⟨0x100000⟩).toNat = 0x100000 := rfl
  have hoffset : (wholeKernel (XenonPE.tmpExecMemoryOffset ⟨0x100000⟩)).toNat = 0 := by decide +kernel
  exact routable_sorted hbase (by decide) (by decide) hoffset (by decide) (by decide) (by decide)

theorem wholeKernel_installable : Installable tigerEnv ⟨0x100000⟩ wholeKernel wholeSymbols where
  direct := wholeKernel_direct
  routable := by
    rw [wholeKernel_routes]
    exact wholeKernel_routable
  table := wholeKernel_apart.table

/-- `_pmap_enter` goes to `wrapPmapEnter`, and its trampoline goes on as the function did. -/
theorem patcher_installs_tiger : (initPatcher tigerEnv ⟨0x100000⟩ wholeKernel emptyFields).ok = true ∧
    ∃ trampoline, ((initPatcher tigerEnv ⟨0x100000⟩ wholeKernel emptyFields).fields.trampolines tigerEnv)[1]? =
        some trampoline ∧
      HookRuns linkIsa wholeKernel (initPatcher tigerEnv ⟨0x100000⟩ wholeKernel emptyFields).mem
        ((hooks tigerEnv)[1].route wholeKernel wholeSymbols) trampoline linkRegs := by
  obtain ⟨hok, -, hall⟩ := patcher_installs linkIsa wholeKernel_found wholeKernel_installable
  obtain ⟨trampoline, htrampoline, hruns⟩ := hall 1 (by decide)
  refine ⟨hok, trampoline, htrampoline, hruns linkRegs (plainPrologue_link ?_)⟩
  have hpmapEnter : resolveKernelSymbol wholeKernel wholeSymbols (hooks tigerEnv)[1].name = 0x9000 := by decide +kernel
  rw [hpmapEnter]
  rfl

end Whole

end Osx360.Platform
