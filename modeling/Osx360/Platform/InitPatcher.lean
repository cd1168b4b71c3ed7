import Osx360.Platform.Hooks
import Osx360.Platform.Symbols

/-!
# Setting up the patcher

`initPatcher` from `XenonPE_Patcher.cpp`. It checks the three functions that it calls directly, but not those that it
hooks: what does not resolve is patched at address 0.

- The functions are resolved one after another, each in the memory that the hooks before it have patched. Where the
  symbols lie apart from the words that are patched, they are the functions of the unpatched kernel (`routedTo_eq`).
- A missing function is reported, with nothing modified, exactly when there is no kernel header, or one of the three has
  no address, or nothing is missing and all have an address (`init_patcher_iff`).
-/

set_option autoImplicit false

namespace Osx360.Platform

open Osx360.Lib

/-! ## The names -/

def kmemAllocPageableName : CString := cstring "_kmem_alloc_pageable"
def mappingMakeName : CString := cstring "_mapping_make"
def pmapSyncPageDataPhysName : CString := cstring "_pmap_sync_page_data_phys"
def pmapSyncCachesPhysName : CString := cstring "_pmap_sync_caches_phys"
def debuggerName : CString := cstring "_Debugger"
def pmapEnterName : CString := cstring "_pmap_enter"
def gradeBinaryName : CString := cstring "_grade_binary"
def gradeCpuSubtypeName : CString := cstring "_grade_cpu_subtype"

/-- `kKernelVersionTiger`. -/
def kernelVersionTiger : ℕ := 8

/-- What the running system is: `IOLog`, `getKernelVersion()` and the addresses of the wrappers. -/
structure PatcherEnv where
  ioLog : Word
  kernelVersion : ℕ
  wrapDebugger : Word
  wrapPmapEnter : Word
  wrapGradeBinary : Word
  wrapGradeCpuSubtype : Word

/-- The symbol of `_pmapSyncPhysFunc`. -/
def pmapSyncName (env : PatcherEnv) : CString :=
  if env.kernelVersion ≥ kernelVersionTiger then pmapSyncPageDataPhysName else pmapSyncCachesPhysName

/-- A function to be hooked and its wrapper. -/
structure Hook where
  name : CString
  wrap : Word

def debuggerHook (env : PatcherEnv) : Hook := ⟨debuggerName, env.wrapDebugger⟩

def pmapEnterHook (env : PatcherEnv) : Hook := ⟨pmapEnterName, env.wrapPmapEnter⟩

def gradeBinaryHook (env : PatcherEnv) : Hook := ⟨gradeBinaryName, env.wrapGradeBinary⟩

def gradeCpuSubtypeHook (env : PatcherEnv) : Hook := ⟨gradeCpuSubtypeName, env.wrapGradeCpuSubtype⟩

/-! ## The function -/

/-- The function pointers and the `_org` fields. -/
structure PatcherFields where
  symbols : SymbolFields
  kmemAllocPageableFunc : Word
  mappingMakeFunc : Word
  pmapSyncPhysFunc : Word
  orgDebugger : Word
  orgPmapEnter : Word
  orgGradeBinary : Word
  orgGradeCpuSubtype : Word

/-- What it returns, the memory and the fields, and what `routeFunction` was applied to. -/
structure InitResult where
  ok : Bool
  mem : Memory
  fields : PatcherFields
  routed : List Word

/-- `routeFunction(resolveKernelSymbol(..), ..)`: the address it is applied to, `*trampoline`, and the memory. -/
def routeHook (pe : XenonPE) (symbols : SymbolFields) (h : Hook) (mem : Memory) : Word × Word × Memory :=
  let fromPtr := resolveKernelSymbol mem symbols h.name
  (fromPtr, (routeFunction pe fromPtr h.wrap mem).2)

/-- `vm_protect` changes permissions only. -/
def initPatcher (env : PatcherEnv) (pe : XenonPE) (mem : Memory) (fields : PatcherFields) : InitResult :=
  let (found, symbols) := findKernelMachHeader mem env.ioLog fields.symbols
  if !found then ⟨false, mem, { fields with symbols }, []⟩
  else
    let fields := { fields with
      symbols
      kmemAllocPageableFunc := resolveKernelSymbol mem symbols kmemAllocPageableName
      mappingMakeFunc := resolveKernelSymbol mem symbols mappingMakeName
      pmapSyncPhysFunc := resolveKernelSymbol mem symbols (pmapSyncName env) }
    if fields.kmemAllocPageableFunc = 0 ∨ fields.mappingMakeFunc = 0 ∨ fields.pmapSyncPhysFunc = 0 then
      ⟨false, mem, fields, []⟩
    else
      let (debugger, orgDebugger, mem) := routeHook pe symbols (debuggerHook env) mem
      let (pmapEnter, orgPmapEnter, mem) := routeHook pe symbols (pmapEnterHook env) mem
      if env.kernelVersion ≥ kernelVersionTiger then
        let (grade, orgGradeBinary, mem) := routeHook pe symbols (gradeBinaryHook env) mem
        ⟨true, mem, { fields with orgDebugger, orgPmapEnter, orgGradeBinary }, [debugger, pmapEnter, grade]⟩
      else
        let (grade, orgGradeCpuSubtype, mem) := routeHook pe symbols (gradeCpuSubtypeHook env) mem
        ⟨true, mem, { fields with orgDebugger, orgPmapEnter, orgGradeCpuSubtype }, [debugger, pmapEnter, grade]⟩

/-! ## Missing functions -/

/-- The functions called directly. -/
def directNames (env : PatcherEnv) : List CString := [kmemAllocPageableName, mappingMakeName, pmapSyncName env]

/-- The functions hooked, in order. -/
def hooks (env : PatcherEnv) : List Hook :=
  [debuggerHook env, pmapEnterHook env,
    if env.kernelVersion ≥ kernelVersionTiger then gradeBinaryHook env else gradeCpuSubtypeHook env]

/-- What is needed for the running kernel version. -/
def neededNames (env : PatcherEnv) : List CString := directNames env ++ (hooks env).map Hook.name

/-- A missing function is reported with nothing modified, and address 0 is never routed. -/
structure InitSafe (env : PatcherEnv) (pe : XenonPE) (mem : Memory) (fields : PatcherFields) : Prop where
  missing : (∃ name ∈ neededNames env, Missing mem (initPatcher env pe mem fields).fields.symbols name) →
    (initPatcher env pe mem fields).ok = false ∧ (initPatcher env pe mem fields).mem = mem
  nonzero : ∀ a ∈ (initPatcher env pe mem fields).routed, a ≠ 0

/-! ## What is routed -/

/-- A hook on the function of the kernel in memory. -/
def Hook.route (mem : Memory) (symbols : SymbolFields) (h : Hook) : HookRoute :=
  ⟨resolveKernelSymbol mem symbols h.name, h.wrap⟩

/-- What the calls of `routeHook` apply `routeFunction` to. -/
def routedTo (pe : XenonPE) (symbols : SymbolFields) : List Hook → Memory → List Word
  | [], _ => []
  | h :: hs, mem =>
    let r := routeHook pe symbols h mem
    r.1 :: routedTo pe symbols hs r.2.2

/-- The object is new, no function to be hooked lies over its offset, and the symbols are neither in the object nor in
the words that are patched. -/
structure SymbolsApart (env : PatcherEnv) (pe : XenonPE) (mem : Memory) (symbols : SymbolFields) : Prop where
  fresh : mem pe.tmpExecMemoryOffset = 0
  kept : ∀ g ∈ hooks env, ¬ (g.route mem symbols).Patches pe.tmpExecMemoryOffset
  table : ∀ h ∈ hooks env, ∀ a, SymbolWord mem symbols h.name a →
    ¬ pe.OwnFrom 0 a ∧ ∀ g ∈ hooks env, ¬ (g.route mem symbols).Patches a

section Routed

variable {env : PatcherEnv} {pe : XenonPE} {mem old : Memory} {symbols : SymbolFields} {hs : List Hook} {k : ℕ}

/-- Each function is found as if nothing had been patched before. -/
theorem routedTo_eq (hp : Placed pe k (hs.map (Hook.route old symbols)) mem)
    (hsame : ∀ h ∈ hs, ∀ a, SymbolWord old symbols h.name a → mem a = old a)
    (htable : ∀ h ∈ hs, ∀ a, SymbolWord old symbols h.name a →
      ¬ pe.OwnFrom 0 a ∧ ∀ g ∈ hs, ¬ (g.route old symbols).Patches a) :
    routedTo pe symbols hs mem = hs.map fun h => resolveKernelSymbol old symbols h.name := by
  induction hs generalizing k mem with
  | nil => rfl
  | cons h hs ih =>
    have hfrom : resolveKernelSymbol mem symbols h.name = resolveKernelSymbol old symbols h.name :=
      resolve_congr (hsame h List.mem_cons_self)
    have hstep : (routeHook pe symbols h mem).2.2 =
        (routeFunction pe (h.route old symbols).fromPtr (h.route old symbols).toPtr mem).2.2 := by
      rw [routeHook, hfrom]
      rfl
    rw [List.map_cons] at hp
    have hrest := ih hp.tail (fun g hg a ha => ?_) fun g hg a ha => ?_
    · rw [routedTo, hstep, hrest, routeHook, hfrom, List.map_cons]
    · obtain ⟨hown, hpatch⟩ := htable g (List.mem_cons_of_mem _ hg) a ha
      rw [hp.frame (fun hlater => hown (OwnFrom.mono (Nat.zero_le _) hlater)) (hpatch h List.mem_cons_self)]
      exact hsame g (List.mem_cons_of_mem _ hg) a ha
    · obtain ⟨hown, hpatch⟩ := htable g (List.mem_cons_of_mem _ hg) a ha
      exact ⟨hown, fun f hf => hpatch f (List.mem_cons_of_mem _ hf)⟩

theorem SymbolsApart.routedTo_eq (h : SymbolsApart env pe mem symbols) :
    routedTo pe symbols (hooks env) mem = (hooks env).map fun h => resolveKernelSymbol mem symbols h.name := by
  refine Platform.routedTo_eq (k := 0) ⟨?_, ?_, List.forall_mem_map.mpr h.kept⟩ (fun _ _ _ _ => rfl) h.table
  · rw [h.fresh]
    rfl
  · rw [List.length_map]
    simp [hooks]

end Routed

/-! ## Missing functions reported -/

section Init

variable {env : PatcherEnv} {pe : XenonPE} {mem : Memory} {fields : PatcherFields} {symbols : SymbolFields}

/-- No header. -/
theorem initPatcher_of_not_found (h : findKernelMachHeader mem env.ioLog fields.symbols = (false, symbols)) :
    initPatcher env pe mem fields = ⟨false, mem, { fields with symbols }, []⟩ := by
  rw [initPatcher, h]
  rfl

theorem exists_direct_iff : (∃ name ∈ directNames env, resolveKernelSymbol mem symbols name = 0) ↔
    resolveKernelSymbol mem symbols kmemAllocPageableName = 0 ∨
      resolveKernelSymbol mem symbols mappingMakeName = 0 ∨
      resolveKernelSymbol mem symbols (pmapSyncName env) = 0 := by
  simp [directNames]

/-- A function that is called directly does not resolve. -/
theorem initPatcher_of_direct (h : findKernelMachHeader mem env.ioLog fields.symbols = (true, symbols))
    (hd : ∃ name ∈ directNames env, resolveKernelSymbol mem symbols name = 0) :
    (initPatcher env pe mem fields).ok = false ∧ (initPatcher env pe mem fields).mem = mem ∧
      (initPatcher env pe mem fields).routed = [] := by
  rw [exists_direct_iff] at hd
  rw [initPatcher, h]
  simp only [Bool.not_true, Bool.false_eq_true, if_false]
  rw [if_pos hd]
  exact ⟨rfl, rfl, rfl⟩

/-- All of those resolve, and the hooks are installed. -/
theorem initPatcher_of_resolved (h : findKernelMachHeader mem env.ioLog fields.symbols = (true, symbols))
    (hd : ¬ ∃ name ∈ directNames env, resolveKernelSymbol mem symbols name = 0) :
    (initPatcher env pe mem fields).ok = true ∧ (initPatcher env pe mem fields).fields.symbols = symbols ∧
      (initPatcher env pe mem fields).routed = routedTo pe symbols (hooks env) mem := by
  rw [exists_direct_iff] at hd
  rw [initPatcher, h]
  simp only [Bool.not_true, Bool.false_eq_true, if_false]
  rw [if_neg hd]
  by_cases hv : env.kernelVersion ≥ kernelVersionTiger
  · rw [if_pos hv, hooks, if_pos hv]
    exact ⟨rfl, rfl, rfl⟩
  · rw [if_neg hv, hooks, if_neg hv]
    exact ⟨rfl, rfl, rfl⟩

/-- **A missing function is reported.** Exactly when there is no kernel header, or one of the functions called directly
has no address, or nothing is missing and all that are hooked have an address. -/
theorem init_patcher_iff (env : PatcherEnv) (pe : XenonPE) (mem : Memory) (fields : PatcherFields)
    (hapart : ∀ symbols, findKernelMachHeader mem env.ioLog fields.symbols = (true, symbols) →
      SymbolsApart env pe mem symbols) :
    InitSafe env pe mem fields ↔
      (findKernelMachHeader mem env.ioLog fields.symbols).1 = false ∨
      (∃ name ∈ directNames env,
        ¬ HasAddress mem (findKernelMachHeader mem env.ioLog fields.symbols).2 name) ∨
      (∀ name ∈ neededNames env, ¬ Missing mem (findKernelMachHeader mem env.ioLog fields.symbols).2 name) ∧
        ∀ h ∈ hooks env, HasAddress mem (findKernelMachHeader mem env.ioLog fields.symbols).2 h.name := by
  rcases hfind : findKernelMachHeader mem env.ioLog fields.symbols with ⟨found, symbols⟩
  dsimp only
  cases found with
  | false =>
    refine iff_of_true ⟨fun _ => ?_, ?_⟩ (Or.inl rfl)
    · rw [initPatcher_of_not_found hfind]
      exact ⟨rfl, rfl⟩
    · rw [initPatcher_of_not_found hfind]
      exact List.forall_mem_nil _
  | true =>
    simp only [← resolve_ne_zero_iff, not_not]
    by_cases hd : ∃ name ∈ directNames env, resolveKernelSymbol mem symbols name = 0
    · obtain ⟨hok, hmem, hrouted⟩ := initPatcher_of_direct hfind hd
      refine iff_of_true ⟨fun _ => ⟨hok, hmem⟩, ?_⟩ (Or.inr (Or.inl hd))
      rw [hrouted]
      exact List.forall_mem_nil _
    · obtain ⟨hok, hsymbols, hrouted⟩ := @initPatcher_of_resolved env pe mem fields symbols hfind hd
      rw [(hapart symbols hfind).routedTo_eq] at hrouted
      constructor
      · intro h
        refine Or.inr (Or.inr ⟨fun name hname hmiss => ?_, fun g hg => ?_⟩)
        · have hfalse := (h.missing ⟨name, hname, hsymbols ▸ hmiss⟩).1
          rw [hok] at hfalse
          cases hfalse
        · refine h.nonzero _ ?_
          rw [hrouted]
          exact List.mem_map_of_mem hg
      · rintro (hf | hz | ⟨hall, hres⟩)
        · cases hf
        · exact absurd hz hd
        · refine ⟨fun ⟨name, hname, hmiss⟩ => ?_, ?_⟩
          · exact absurd (hsymbols ▸ hmiss) (hall name hname)
          · rw [hrouted]
            exact List.forall_mem_map.mpr hres

def tigerEnv : PatcherEnv := ⟨0x1234, 8, 0x80000000, 0x80000100, 0x80000200, 0x80000300⟩

def emptyFields : PatcherFields := ⟨⟨0, 0, 0, 0⟩, 0, 0, 0, 0, 0, 0, 0⟩

/-- The functions called directly at 0x5000 to 0x7000, and those to be hooked at 0x8000 to 0xA000, which begin with the
words of `linkMemory`. -/
def wholeKernel : Memory := fun a =>
  if a.toNat < 0x2000 then
    wordsAt 0x1000 [0xFEEDFACE, 18, 0, 2, 3, 136, 1,
      1, 56, 0x5F5F5445, 0x58540000, 0, 0, 0x1000, 0x2000, 0, 0x2000, 7, 5, 0, 0,
      1, 56, 0x5F5F4C49, 0x4E4B4544, 0x49540000, 0, 0x1000, 0x1000, 0, 0x1000, 7, 7, 0, 0,
      2, 24, 164, 6, 236, 100,
      1, 0x0F010000, 0x5000, 22, 0x0F010000, 0x6000, 36, 0x0F010000, 0x7000,
      62, 0x0F010000, 0x8000, 72, 0x0F010000, 0x9000, 84, 0x0F010000, 0xA000,
      0x005F6B6D, 0x656D5F61, 0x6C6C6F63, 0x5F706167, 0x6561626C, 0x65005F6D, 0x61707069, 0x6E675F6D, 0x616B6500,
      0x5F706D61, 0x705F7379, 0x6E635F70, 0x6167655F, 0x64617461, 0x5F706879, 0x73005F44, 0x65627567, 0x67657200,
      0x5F706D61, 0x705F656E, 0x74657200, 0x5F677261, 0x64655F62, 0x696E6172, 0x79000000] a
  else [0x7C0802A6, 0x3D601234, 0x616B5678, 0x7D8802A6].getD (a.toNat % 0x400) 0

def wholeSymbols : SymbolFields := ⟨0x10A4, 6, 0x10EC, 100⟩

theorem wholeKernel_found :
    findKernelMachHeader wholeKernel tigerEnv.ioLog emptyFields.symbols = (true, wholeSymbols) := by
  decide

def wholeRoutes : List HookRoute := [⟨0x8000, 0x80000000⟩, ⟨0x9000, 0x80000100⟩, ⟨0xA000, 0x80000200⟩]

theorem wholeKernel_routes : (hooks tigerEnv).map (Hook.route wholeKernel wholeSymbols) = wholeRoutes := by
  have hdebugger : resolveKernelSymbol wholeKernel wholeSymbols debuggerName = 0x8000 := by decide +kernel
  have hpmapEnter : resolveKernelSymbol wholeKernel wholeSymbols pmapEnterName = 0x9000 := by decide +kernel
  have hgradeBinary : resolveKernelSymbol wholeKernel wholeSymbols gradeBinaryName = 0xA000 := by decide +kernel
  have hhooks : hooks tigerEnv = [debuggerHook tigerEnv, pmapEnterHook tigerEnv, gradeBinaryHook tigerEnv] := rfl
  simp only [hhooks, List.map_cons, List.map_nil, Hook.route, debuggerHook, pmapEnterHook, gradeBinaryHook, hdebugger,
    hpmapEnter, hgradeBinary]
  rfl

/-- The words patched are between the symbols and the object. -/
theorem wholeRoutes_bounds {h : HookRoute} {a : Address} (hh : h ∈ wholeRoutes) (ha : h.Patches a) :
    0x2000 ≤ a.toNat ∧ a.toNat < 0x3000 := by
  have hall : ∀ h ∈ wholeRoutes, 0x2000 ≤ (wordAt h.fromPtr).toNat ∧ (wordAt h.fromPtr).toNat + 4 ≤ 0x3000 := by decide
  obtain ⟨hlo, hhi⟩ := hall h hh
  have hbounds := ha.bounds rfl (by omega)
  omega

/-- No symbol and no name reaches the words that are patched. -/
theorem wholeKernel_bounds {h : Hook} (hh : h ∈ hooks tigerEnv) : ∀ nlistSym ∈ nlistSyms wholeSymbols,
    nlistSym.toNat + 12 ≤ 4 * 0x500 ∧
      (wholeSymbols.strTab + nStrx wholeKernel nlistSym).toNat + h.name.strlen ≤ 4 * 0x500 := by
  have hlen : ∀ h ∈ hooks tigerEnv, h.name.strlen ≤ 13 := by decide +kernel
  have hsyms : nlistSyms wholeSymbols = [0x10A4, 0x10B0, 0x10BC, 0x10C8, 0x10D4, 0x10E0] := by decide
  have hstrx : (nlistSyms wholeSymbols).map (nStrx wholeKernel) = [1, 22, 36, 62, 72, 84] := by decide +kernel
  have hentry : ∀ nlistSym ∈ nlistSyms wholeSymbols, nlistSym.toNat ≤ 4320 := by
    rw [hsyms]
    simp
  have hstring : ∀ n ∈ (nlistSyms wholeSymbols).map (nStrx wholeKernel),
      (wholeSymbols.strTab + n).toNat ≤ 4416 := by
    rw [hstrx, wholeSymbols]
    simp
  intro nlistSym hsym
  have hlo := hentry nlistSym hsym
  have hhi := hstring _ (List.mem_map_of_mem hsym)
  have hle := hlen h hh
  omega

theorem wholeKernel_direct : ∀ name ∈ directNames tigerEnv, resolveKernelSymbol wholeKernel wholeSymbols name ≠ 0 := by
  decide +kernel

theorem wholeKernel_apart : SymbolsApart tigerEnv ⟨0x100000⟩ wholeKernel wholeSymbols where
  fresh := by decide +kernel
  kept := by
    have hbase : (XenonPE.tmpExecMemoryOffset ⟨0x100000⟩).toNat = 0x100100 := rfl
    intro g hg hpatch
    have hmem : g.route wholeKernel wholeSymbols ∈ wholeRoutes := by
      rw [← wholeKernel_routes]
      exact List.mem_map_of_mem hg
    have hlt := (wholeRoutes_bounds hmem hpatch).2
    omega
  table := by
    intro h hh a ha
    have hbase : (XenonPE.tmpExecMemory ⟨0x100000⟩).toNat = 0x100000 := rfl
    have hlt := ha.lt (by decide) (wholeKernel_bounds hh)
    refine ⟨fun hin => ?_, fun g hg hpatch => ?_⟩
    · have hle := ownFrom_le hbase (by decide) hin
      omega
    · have hmem : g.route wholeKernel wholeSymbols ∈ wholeRoutes := by
        rw [← wholeKernel_routes]
        exact List.mem_map_of_mem hg
      have hle := (wholeRoutes_bounds hmem hpatch).1
      omega

theorem wholeKernel_named : ∀ name ∈ neededNames tigerEnv, ∃ nlistSym ∈ nlistSyms wholeSymbols,
    named wholeKernel wholeSymbols name nlistSym = true := by
  have hsyms : nlistSyms wholeSymbols = [0x10A4, 0x10B0, 0x10BC, 0x10C8, 0x10D4, 0x10E0] := by decide
  have hneeded : neededNames tigerEnv = [kmemAllocPageableName, mappingMakeName, pmapSyncPageDataPhysName, debuggerName,
    pmapEnterName, gradeBinaryName] := rfl
  rw [hsyms, hneeded]
  simp only [List.forall_mem_cons]
  exact ⟨⟨0x10A4, by simp, by decide +kernel⟩, ⟨0x10B0, by simp, by decide +kernel⟩,
    ⟨0x10BC, by simp, by decide +kernel⟩, ⟨0x10C8, by simp, by decide +kernel⟩, ⟨0x10D4, by simp, by decide +kernel⟩,
    ⟨0x10E0, by simp, by decide +kernel⟩, List.forall_mem_nil _⟩

/-- A kernel with all functions. -/
theorem init_patcher_iff_tiger : InitSafe tigerEnv ⟨0x100000⟩ wholeKernel emptyFields := by
  have haddress : ∀ h ∈ hooks tigerEnv, resolveKernelSymbol wholeKernel wholeSymbols h.name ≠ 0 := by decide +kernel
  refine (init_patcher_iff tigerEnv ⟨0x100000⟩ wholeKernel emptyFields fun symbols hfind => ?_).mpr ?_
  · rw [wholeKernel_found] at hfind
    exact (Prod.mk.inj hfind).2 ▸ wholeKernel_apart
  · rw [wholeKernel_found]
    refine Or.inr (Or.inr ⟨fun name hname hmissing => ?_, fun h hh => resolve_ne_zero_iff.mp (haddress h hh)⟩)
    obtain ⟨nlistSym, hsym, hn⟩ := wholeKernel_named name hname
    rw [hmissing nlistSym hsym] at hn
    cases hn

/-- A kernel whose table has the functions called directly, but none of those to be hooked. -/
def partialKernel : Memory := wordsAt 0x1000 [0xFEEDFACE, 18, 0, 2, 3, 136, 1,
  1, 56, 0x5F5F5445, 0x58540000, 0, 0, 0x1000, 0x2000, 0, 0x2000, 7, 5, 0, 0,
  1, 56, 0x5F5F4C49, 0x4E4B4544, 0x49540000, 0, 0x1000, 0x1000, 0, 0x1000, 7, 7, 0, 0,
  2, 24, 164, 3, 200, 64,
  1, 0x0F010000, 0x5000, 22, 0x0F010000, 0x6000, 36, 0x0F010000, 0x7000,
  0x005F6B6D, 0x656D5F61, 0x6C6C6F63, 0x5F706167, 0x6561626C, 0x65005F6D, 0x61707069, 0x6E675F6D,
  0x616B6500, 0x5F706D61, 0x705F7379, 0x6E635F70, 0x6167655F, 0x64617461, 0x5F706879, 0x73000000]

/-- Without `_Debugger`, it reports success and patches address 0. -/
theorem init_patcher_hooks_missing :
    Missing partialKernel (initPatcher tigerEnv ⟨0x2000⟩ partialKernel emptyFields).fields.symbols debuggerName ∧
      (initPatcher tigerEnv ⟨0x2000⟩ partialKernel emptyFields).ok = true ∧
      0 ∈ (initPatcher tigerEnv ⟨0x2000⟩ partialKernel emptyFields).routed ∧
      ¬ InitSafe tigerEnv ⟨0x2000⟩ partialKernel emptyFields := by
  have hfind : findKernelMachHeader partialKernel 0x1234 ⟨0, 0, 0, 0⟩ = (true, ⟨0x10A4, 3, 0x10C8, 64⟩) := by decide
  have hdirect : ¬ ∃ name ∈ directNames tigerEnv,
      resolveKernelSymbol partialKernel ⟨0x10A4, 3, 0x10C8, 64⟩ name = 0 := by decide +kernel
  have hdebugger : resolveKernelSymbol partialKernel ⟨0x10A4, 3, 0x10C8, 64⟩ debuggerName = 0 := by decide
  obtain ⟨hok, hsymbols, hrouted⟩ :=
    @initPatcher_of_resolved tigerEnv ⟨0x2000⟩ partialKernel emptyFields _ hfind hdirect
  have hzero : 0 ∈ (initPatcher tigerEnv ⟨0x2000⟩ partialKernel emptyFields).routed := by
    rw [hrouted, hooks, routedTo, routeHook]
    exact List.mem_cons.mpr (Or.inl hdebugger.symm)
  refine ⟨?_, hok, hzero, fun h => h.nonzero 0 hzero rfl⟩
  rw [hsymbols]
  have hsyms : nlistSyms ⟨0x10A4, 3, 0x10C8, 64⟩ = [0x10A4, 0x10B0, 0x10BC] := by decide
  rw [Missing, hsyms, List.forall_mem_cons, List.forall_mem_cons, List.forall_mem_singleton]
  decide

end Init

end Osx360.Platform
