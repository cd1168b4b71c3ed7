import Mathlib.Data.Set.Insert
import Mathlib.Logic.Function.Iterate
import Osx360.Platform.Patcher

/-!
# The hook of `pmap_enter`

`wrapPmapEnter` from `XenonPE_Patcher.cpp` turns every `dcbz` of a page that becomes executable in user space into an
illegal instruction. Over any run of calls and of other stores it changes such words only, each of them once, and what
it changed can be told and undone (`hook_correct`).
-/

set_option autoImplicit false

namespace Osx360.Platform

open Osx360.Lib

/-! ## The loop -/

/-- `dcbz`, in the form the loop looks for. -/
def isDcbz (data : Word) : Bool := data &&& 0xFF0007FF == 0x7C0007EC

def patched (data : Word) : Word := data &&& 0x03FFFFFF

/-- The arguments of `pmap_enter`. -/
structure PmapEnter where
  pmap : Word
  va : BitVec 64
  pa : Word
  prot : Word
  flags : Word
  wired : Word

/-- What the hook does, in order. -/
inductive HookEvent
  | pmapEnter (c : PmapEnter)
  | write (currPhys data : Word)
  | sync (pa : Word)

structure PageLoop where
  mem : Memory
  changed : Bool
  events : List HookEvent
  currPhys : Word

/-- The body of the loop. -/
def PageLoop.step (s : PageLoop) : PageLoop :=
  let data := s.mem (wordAt s.currPhys)
  let s :=
    if isDcbz data then
      { s with
        mem := Function.update s.mem (wordAt s.currPhys) (patched data)
        changed := true
        events := s.events ++ [.write s.currPhys (patched data)] }
    else s
  { s with currPhys := s.currPhys + 4 }

/-- The loop over the page. -/
def patchPage (pa : Word) (mem : Memory) : PageLoop := PageLoop.step^[1024] ⟨mem, false, [], pa <<< 12⟩

/-- The condition of the hook; `VM_PROT_EXECUTE` is 4. -/
def PmapEnter.patches (kernelPmap : Word) (c : PmapEnter) : Bool :=
  c.pmap != 0 && c.pmap != kernelPmap && has c.prot 4

/-- The physical memory afterwards and what was done; `mem` is the memory that the original function leaves. -/
def wrapPmapEnter (kernelPmap : Word) (c : PmapEnter) (mem : Memory) : Memory × List HookEvent :=
  if c.patches kernelPmap then
    ((patchPage c.pa mem).mem, .pmapEnter c :: ((patchPage c.pa mem).events ++
      if (patchPage c.pa mem).changed then [.sync c.pa] else []))
  else (mem, [.pmapEnter c])

/-! ## One page -/

/-- The number of the page that a word is in. -/
def pageOf (a : Address) : ℕ := a.toNat / 1024

/-- What becomes of a word of the page. -/
def patchWord (data : Word) : Word := if isDcbz data then patched data else data

section Words

variable {data : Word}

theorem isDcbz_iff : isDcbz data = true ↔ data &&& 0xFF0007FF = 0x7C0007EC := by simp [isDcbz]

/-- A patched word is no `dcbz`. -/
theorem not_isDcbz_patched (data : Word) : isDcbz (patched data) = false := by
  by_contra h
  have hbit := congrArg (fun w => w.getLsbD 30) (isDcbz_iff.mp (by simpa using h))
  simp [patched] at hbit

/-- Patching clears the opcode and nothing else. -/
theorem patched_or (h : isDcbz data = true) : patched data ||| 0x7C000000 = data := by
  have hop : data &&& 0xFC000000 = 0x7C000000 := by
    have hmask := congrArg (· &&& (0xFC000000 : Word)) (isDcbz_iff.mp h)
    simpa [BitVec.and_assoc] using hmask
  have hsplit : data &&& 0x03FFFFFF ||| data &&& 0xFC000000 = data := by
    rw [← BitVec.and_or_distrib_left]
    exact BitVec.and_allOnes
  rw [patched, ← hop]
  exact hsplit

theorem patchWord_of_dcbz (h : isDcbz data = true) : patchWord data = patched data := if_pos h

theorem patchWord_of_not (h : isDcbz data = false) : patchWord data = data := by simp [patchWord, h]

theorem not_isDcbz_patchWord (data : Word) : isDcbz (patchWord data) = false := by
  cases h : isDcbz data with
  | true => rw [patchWord_of_dcbz h, not_isDcbz_patched]
  | false => rw [patchWord_of_not h, h]

/-- The words that change are those the loop looks for. -/
theorem patchWord_ne : patchWord data ≠ data ↔ isDcbz data = true := by
  constructor
  · intro h
    by_contra hn
    exact h (patchWord_of_not (by simpa using hn))
  · intro h he
    have hnot := not_isDcbz_patchWord data
    rw [he, h] at hnot
    cases hnot

end Words

section Loop

variable {pa : Word} {mem : Memory} {s : PageLoop} {n : ℕ} {a : Address}

/-- After `n` words of the page. -/
structure PageInv (pa : Word) (mem : Memory) (n : ℕ) (s : PageLoop) : Prop where
  currPhys : s.currPhys = pa <<< 12 + BitVec.ofNat 32 (4 * n)
  words : ∀ a, s.mem a = if pageOf a = pa.toNat ∧ a.toNat % 1024 < n then patchWord (mem a) else mem a
  changed : s.changed = true ↔ ∃ a, pageOf a = pa.toNat ∧ a.toNat % 1024 < n ∧ isDcbz (mem a) = true
  events : ∀ e ∈ s.events, ∃ currPhys data, e = .write currPhys data

theorem pageInv_start (pa : Word) (mem : Memory) : PageInv pa mem 0 ⟨mem, false, [], pa <<< 12⟩ := by
  refine ⟨by simp, fun a => by simp, by simp, List.forall_mem_nil _⟩

/-- The word that the loop is at. -/
theorem PageInv.word (h : PageInv pa mem n s) (hpa : pa.toNat < 2 ^ 20) (hn : n < 1024) :
    (wordAt s.currPhys).toNat = 1024 * pa.toNat + n := by
  rw [h.currPhys, wordAt, BitVec.extractLsb'_toNat, BitVec.toNat_add, BitVec.toNat_shiftLeft, BitVec.toNat_ofNat,
    Nat.shiftLeft_eq, Nat.shiftRight_eq_div_pow]
  omega

theorem pageInv_step (h : PageInv pa mem n s) (hpa : pa.toNat < 2 ^ 20) (hn : n < 1024) :
    PageInv pa mem (n + 1) s.step := by
  obtain ⟨b, hb⟩ : ∃ b, b = wordAt s.currPhys := ⟨_, rfl⟩
  have hword := h.word hpa hn
  rw [← hb] at hword
  have hpage : pageOf b = pa.toNat ∧ b.toNat % 1024 = n := by
    unfold pageOf
    omega
  have hnext : ∀ a, pageOf a = pa.toNat ∧ a.toNat % 1024 < n + 1 ↔
      pageOf a = pa.toNat ∧ a.toNat % 1024 < n ∨ a = b := by
    intro a
    rw [← BitVec.toNat_inj, hword]
    unfold pageOf
    omega
  have hbn : ¬ (pageOf b = pa.toNat ∧ b.toNat % 1024 < n) := by omega
  have hold : s.mem b = mem b := by rw [h.words, if_neg hbn]
  have hcurr : s.currPhys + 4 = pa <<< 12 + BitVec.ofNat 32 (4 * (n + 1)) := by
    rw [h.currPhys, BitVec.add_assoc, Nat.mul_add, BitVec.ofNat_add]
    rfl
  cases hd : isDcbz (mem b) with
  | true =>
    have hstep : s.step = ⟨Function.update s.mem b (patched (mem b)), true,
        s.events ++ [.write s.currPhys (patched (mem b))], s.currPhys + 4⟩ := by
      simp only [PageLoop.step, ← hb, hold, hd, if_true]
    rw [hstep]
    refine ⟨hcurr, fun a => ?_, by simpa using ⟨b, hpage.1, by omega, hd⟩, ?_⟩
    · by_cases ha : a = b
      · subst ha
        rw [if_pos ((hnext a).mpr (Or.inr rfl)), patchWord_of_dcbz hd]
        exact Function.update_self _ _ _
      · rw [if_congr (hnext a) rfl rfl, if_congr (or_iff_left ha) rfl rfl, ← h.words]
        exact Function.update_of_ne ha _ _
    · rw [List.forall_mem_append, List.forall_mem_singleton]
      exact ⟨h.events, _, _, rfl⟩
  | false =>
    have hstep : s.step = ⟨s.mem, s.changed, s.events, s.currPhys + 4⟩ := by
      simp [PageLoop.step, ← hb, hold, hd]
    rw [hstep]
    refine ⟨hcurr, fun a => ?_, ?_, h.events⟩
    · by_cases ha : a = b
      · subst ha
        rw [if_pos ((hnext a).mpr (Or.inr rfl)), patchWord_of_not hd]
        exact hold
      · rw [if_congr (hnext a) rfl rfl, if_congr (or_iff_left ha) rfl rfl, ← h.words]
    · rw [h.changed]
      constructor
      · rintro ⟨a, ha, hlt, hda⟩
        exact ⟨a, ha, by omega, hda⟩
      · rintro ⟨a, ha, hlt, hda⟩
        rcases (hnext a).mp ⟨ha, hlt⟩ with hin | rfl
        · exact ⟨a, hin.1, hin.2, hda⟩
        · rw [hd] at hda
          cases hda

/-- The whole page. -/
theorem pageInv_patchPage (hpa : pa.toNat < 2 ^ 20) (mem : Memory) : PageInv pa mem 1024 (patchPage pa mem) := by
  have hrun : ∀ n ≤ 1024, PageInv pa mem n (PageLoop.step^[n] ⟨mem, false, [], pa <<< 12⟩) := by
    intro n
    induction n with
    | zero => exact fun _ => pageInv_start pa mem
    | succ n ih =>
      intro hn
      rw [Function.iterate_succ_apply']
      exact pageInv_step (ih (by omega)) hpa (by omega)
  exact hrun 1024 (Nat.le_refl _)

/-- **What the loop does to memory.** -/
theorem PageInv.page (h : PageInv pa mem 1024 s) (a : Address) :
    s.mem a = if pageOf a = pa.toNat then patchWord (mem a) else mem a := by
  rw [h.words, if_congr (and_iff_left (Nat.mod_lt _ (by decide))) rfl rfl]

theorem PageInv.changed_iff (h : PageInv pa mem 1024 s) : s.changed = true ↔ ∃ a, s.mem a ≠ mem a := by
  rw [h.changed]
  refine exists_congr fun a => ?_
  rw [h.page]
  by_cases ha : pageOf a = pa.toNat
  · simp [ha, patchWord_ne, Nat.mod_lt]
  · simp [ha]

end Loop

/-! ## One call -/

section Call

variable {kernelPmap : Word} {c : PmapEnter} {mem : Memory} {a : Address}

/-- A call that patches, from what the loop leaves. -/
theorem wrap_of_patches (hpa : c.pa.toNat < 2 ^ 20) (mem : Memory) (hc : c.patches kernelPmap = true) :
    ∃ s, PageInv c.pa mem 1024 s ∧ wrapPmapEnter kernelPmap c mem =
      (s.mem, .pmapEnter c :: (s.events ++ if s.changed then [.sync c.pa] else [])) :=
  ⟨_, pageInv_patchPage hpa mem, if_pos hc⟩

theorem wrap_of_not (hc : ¬ c.patches kernelPmap = true) : wrapPmapEnter kernelPmap c mem = (mem, [.pmapEnter c]) :=
  if_neg hc

/-- What a call does to memory. -/
theorem wrap_mem (hpa : c.pa.toNat < 2 ^ 20) (mem : Memory) (a : Address) :
    (wrapPmapEnter kernelPmap c mem).1 a =
      if c.patches kernelPmap = true ∧ pageOf a = c.pa.toNat then patchWord (mem a) else mem a := by
  by_cases hc : c.patches kernelPmap = true
  · obtain ⟨s, hs, hwrap⟩ := wrap_of_patches hpa mem hc
    rw [hwrap, if_congr (and_iff_right hc) rfl rfl]
    exact hs.page a
  · rw [wrap_of_not hc, if_neg fun h => hc h.1]

/-- What is no `dcbz` stays. -/
theorem wrap_mem_of_not (hpa : c.pa.toNat < 2 ^ 20) (h : isDcbz (mem a) = false) :
    (wrapPmapEnter kernelPmap c mem).1 a = mem a := by
  rw [wrap_mem hpa]
  split
  · exact patchWord_of_not h
  · rfl

theorem wrap_ne (hpa : c.pa.toNat < 2 ^ 20) (h : (wrapPmapEnter kernelPmap c mem).1 a ≠ mem a) :
    c.patches kernelPmap = true ∧ pageOf a = c.pa.toNat ∧ isDcbz (mem a) = true ∧
      (wrapPmapEnter kernelPmap c mem).1 a = patched (mem a) := by
  rw [wrap_mem hpa] at h ⊢
  split at h
  · rename_i hc
    have hd := patchWord_ne.mp h
    exact ⟨hc.1, hc.2, hd, by rw [if_pos hc, patchWord_of_dcbz hd]⟩
  · exact absurd rfl h

/-- The original function runs first, and once. -/
theorem wrap_once (hpa : c.pa.toNat < 2 ^ 20) (mem : Memory) :
    ∃ events, (wrapPmapEnter kernelPmap c mem).2 = .pmapEnter c :: events ∧ ∀ d, .pmapEnter d ∉ events := by
  by_cases hc : c.patches kernelPmap = true
  · obtain ⟨s, hs, hwrap⟩ := wrap_of_patches hpa mem hc
    refine ⟨_, by rw [hwrap], fun d hd => ?_⟩
    rcases List.mem_append.mp hd with hd | hd
    · obtain ⟨_, _, he⟩ := hs.events _ hd
      cases he
    · split at hd
      · cases List.mem_singleton.mp hd
      · cases hd
  · exact ⟨[], by rw [wrap_of_not hc], fun _ => List.not_mem_nil⟩

/-- The cache is synchronised last, if a word changed. -/
theorem wrap_synced (hpa : c.pa.toNat < 2 ^ 20) (h : ∃ a, (wrapPmapEnter kernelPmap c mem).1 a ≠ mem a) :
    ∃ events, (wrapPmapEnter kernelPmap c mem).2 = events ++ [.sync c.pa] ∧ ∀ pa, .sync pa ∉ events := by
  obtain ⟨a, ha⟩ := h
  obtain ⟨s, hs, hwrap⟩ := wrap_of_patches hpa mem (wrap_ne hpa ha).1
  rw [hwrap] at ha ⊢
  refine ⟨.pmapEnter c :: s.events, by simp [hs.changed_iff.mpr ⟨a, ha⟩], fun pa hsync => ?_⟩
  rcases List.mem_cons.mp hsync with hsync | hsync
  · cases hsync
  · obtain ⟨_, _, he⟩ := hs.events _ hsync
    cases he

/-- Otherwise it is not. -/
theorem wrap_idle (hpa : c.pa.toNat < 2 ^ 20) (h : (wrapPmapEnter kernelPmap c mem).1 = mem) (pa : Word) :
    .sync pa ∉ (wrapPmapEnter kernelPmap c mem).2 := by
  by_cases hc : c.patches kernelPmap = true
  · obtain ⟨s, hs, hwrap⟩ := wrap_of_patches hpa mem hc
    rw [hwrap] at h ⊢
    have hchanged : ¬ s.changed = true := by
      rw [hs.changed_iff]
      rintro ⟨a, ha⟩
      exact ha (congrFun h a)
    intro hsync
    simp only [hchanged, List.mem_cons, List.mem_append] at hsync
    rcases hsync with hsync | hsync | hsync
    · cases hsync
    · obtain ⟨_, _, he⟩ := hs.events _ hsync
      cases he
    · cases hsync
  · simp [wrap_of_not hc]

end Call

/-! ## Runs -/

/-- The physical memory. `original` is what the words would be without the hook, `changed` the words that it changed and
that nothing has been stored to since, and `clean` the pages entered into user space and not stored to since. -/
structure HookWorld where
  mem : Memory
  original : Memory
  changed : Set Address
  clean : Set ℕ

namespace HookWorld

/-- A store by anything but the hook. -/
def store (w : HookWorld) (e : Address × Word) : HookWorld where
  mem := Function.update w.mem e.1 e.2
  original := Function.update w.original e.1 e.2
  changed := w.changed \ {e.1}
  clean := w.clean \ {pageOf e.1}

/-- A call of the hook, after the original function. -/
def hook (w : HookWorld) (kernelPmap : Word) (c : PmapEnter) : HookWorld where
  mem := (wrapPmapEnter kernelPmap c w.mem).1
  original := w.original
  changed := w.changed ∪ {a | (wrapPmapEnter kernelPmap c w.mem).1 a ≠ w.mem a}
  clean := if c.patches kernelPmap then insert c.pa.toNat w.clean else w.clean

end HookWorld

/-- A call comes with the stores that the original `pmap_enter` does. -/
inductive HookLabel
  | store (e : Address × Word)
  | pmapEnter (c : PmapEnter) (stores : List (Address × Word))

inductive HookStep (kernelPmap : Word) : HookWorld → HookLabel → HookWorld → Prop
  | store (w : HookWorld) (e : Address × Word) : HookStep kernelPmap w (.store e) (w.store e)
  | pmapEnter {w : HookWorld} {c : PmapEnter} {stores : List (Address × Word)} : c.pa.toNat < 2 ^ 20 →
      HookStep kernelPmap w (.pmapEnter c stores) ((stores.foldl HookWorld.store w).hook kernelPmap c)

/-- Nothing entered yet. -/
def HookInit (w : HookWorld) : Prop := w.original = w.mem ∧ w.changed = ∅ ∧ w.clean = ∅

/-- One call, from the memory that the original function leaves: it calls that function once, changes only the page
entered, and has it synchronised last if it changed anything. -/
structure HookCorrect (kernelPmap : Word) (c : PmapEnter) (stores : List (Address × Word)) (w v : HookWorld) :
    Prop where
  once : ∃ events, (wrapPmapEnter kernelPmap c (applyWrites w.mem stores)).2 = .pmapEnter c :: events ∧
    ∀ d, .pmapEnter d ∉ events
  frame : ∀ a, v.mem a ≠ applyWrites w.mem stores a → c.patches kernelPmap = true ∧ pageOf a = c.pa.toNat
  synced : (∃ a, v.mem a ≠ applyWrites w.mem stores a) →
    ∃ events, (wrapPmapEnter kernelPmap c (applyWrites w.mem stores)).2 = events ++ [.sync c.pa] ∧
      ∀ pa, .sync pa ∉ events
  idle : v.mem = applyWrites w.mem stores →
    ∀ pa, .sync pa ∉ (wrapPmapEnter kernelPmap c (applyWrites w.mem stores)).2
  kept : ∀ a ∈ w.changed, (∀ e ∈ stores, e.1 ≠ a) → v.mem a = w.mem a
  again : c.pa.toNat ∈ w.clean → (∀ e ∈ stores, pageOf e.1 ≠ c.pa.toNat) → v.mem = applyWrites w.mem stores
  restored : ∀ a, (a ∈ v.changed → v.mem a ||| 0x7C000000 = v.original a) ∧ (a ∉ v.changed → v.mem a = v.original a)

/-- What holds in every state. -/
structure HookInv (w : HookWorld) : Prop where
  changed : ∀ a ∈ w.changed, isDcbz (w.original a) = true ∧ w.mem a = patched (w.original a)
  others : ∀ a, a ∉ w.changed → w.mem a = w.original a
  clean : ∀ a, pageOf a ∈ w.clean → isDcbz (w.mem a) = false

section Runs

variable {kernelPmap : Word} {w v : HookWorld} {c : PmapEnter} {stores : List (Address × Word)}

theorem hookInv_init (h : HookInit w) : HookInv w := by
  obtain ⟨horig, hchanged, hclean⟩ := h
  refine ⟨fun a ha => ?_, fun a _ => by rw [horig], fun a ha => ?_⟩
  · simp [hchanged] at ha
  · simp [hclean] at ha

theorem hookInv_store (h : HookInv w) (e : Address × Word) : HookInv (w.store e) := by
  have hother : ∀ a, a ≠ e.1 → (w.store e).mem a = w.mem a ∧ (w.store e).original a = w.original a := fun a ha =>
    ⟨Function.update_of_ne ha _ _, Function.update_of_ne ha _ _⟩
  refine ⟨fun a ha => ?_, fun a ha => ?_, fun a ha => ?_⟩
  · rw [(hother a ha.2).1, (hother a ha.2).2]
    exact h.changed a ha.1
  · by_cases hae : a = e.1
    · subst hae
      simp [HookWorld.store]
    · rw [(hother a hae).1, (hother a hae).2]
      exact h.others a fun hc => ha ⟨hc, hae⟩
  · have hae : a ≠ e.1 := fun he => ha.2 (by rw [he]; rfl)
    rw [(hother a hae).1]
    exact h.clean a ha.1

theorem hookInv_stores (h : HookInv w) (stores : List (Address × Word)) : HookInv (stores.foldl HookWorld.store w) := by
  induction stores generalizing w with
  | nil => exact h
  | cons e stores ih => exact ih (hookInv_store h e)

theorem stores_mem (w : HookWorld) (stores : List (Address × Word)) :
    (stores.foldl HookWorld.store w).mem = applyWrites w.mem stores := by
  induction stores generalizing w with
  | nil => rfl
  | cons e stores ih => exact ih (w.store e)

theorem stores_clean {p : ℕ} (hp : p ∈ w.clean) (h : ∀ e ∈ stores, pageOf e.1 ≠ p) :
    p ∈ (stores.foldl HookWorld.store w).clean := by
  induction stores generalizing w with
  | nil => exact hp
  | cons e stores ih =>
    rw [List.forall_mem_cons] at h
    exact ih (w := w.store e) ⟨hp, fun he => h.1 he.symm⟩ h.2

theorem hookInv_hook (h : HookInv w) (hpa : c.pa.toNat < 2 ^ 20) : HookInv (w.hook kernelPmap c) := by
  refine ⟨fun a ha => ?_, fun a ha => ?_, fun a ha => ?_⟩
  · by_cases hold : a ∈ w.changed
    · obtain ⟨hd, hmem⟩ := h.changed a hold
      refine ⟨hd, (wrap_mem_of_not hpa ?_).trans hmem⟩
      rw [hmem, not_isDcbz_patched]
    · obtain ⟨-, -, hd, hmem⟩ := wrap_ne hpa (ha.resolve_left hold)
      rw [h.others a hold] at hd hmem
      exact ⟨hd, hmem⟩
  · refine Eq.trans ?_ (h.others a fun hc => ha (Or.inl hc))
    by_contra hne
    exact ha (Or.inr hne)
  · show isDcbz ((wrapPmapEnter kernelPmap c w.mem).1 a) = false
    by_cases hc : c.patches kernelPmap = true ∧ pageOf a = c.pa.toNat
    · rw [wrap_mem hpa, if_pos hc, not_isDcbz_patchWord]
    · have hclean : pageOf a ∈ w.clean := by
        simp only [HookWorld.hook] at ha
        split at ha
        · rename_i hp
          exact ha.resolve_left fun he => hc ⟨hp, he⟩
        · exact ha
      rw [wrap_mem_of_not hpa (h.clean a hclean), h.clean a hclean]

theorem hookInv_step {l : HookLabel} (h : HookInv w) (hs : HookStep kernelPmap w l v) : HookInv v := by
  cases hs with
  | store e => exact hookInv_store h e
  | pmapEnter hpa => exact hookInv_hook (hookInv_stores h _) hpa

theorem hookCorrect (h : HookInv w) (hpa : c.pa.toNat < 2 ^ 20) :
    HookCorrect kernelPmap c stores w ((stores.foldl HookWorld.store w).hook kernelPmap c) := by
  have hu := hookInv_stores h stores
  have hv : HookInv ((stores.foldl HookWorld.store w).hook kernelPmap c) := hookInv_hook hu hpa
  have hstores := stores_mem w stores
  have hmem : ((stores.foldl HookWorld.store w).hook kernelPmap c).mem =
      (wrapPmapEnter kernelPmap c (applyWrites w.mem stores)).1 := by
    rw [← hstores]
    rfl
  refine ⟨wrap_once hpa _, fun a ha => ?_, fun hne => ?_, fun heq => ?_, fun a ha hs => ?_, fun hp hs => ?_,
    fun a => ⟨fun ha => ?_, hv.others a⟩⟩
  · rw [hmem] at ha
    exact ⟨(wrap_ne hpa ha).1, (wrap_ne hpa ha).2.1⟩
  · rw [hmem] at hne
    exact wrap_synced hpa hne
  · rw [hmem] at heq
    exact wrap_idle hpa heq
  · have hsame : applyWrites w.mem stores a = w.mem a := applyWrites_of_not_mem hs
    have hpatched : isDcbz (w.mem a) = false := by rw [(h.changed a ha).2, not_isDcbz_patched]
    rw [hmem, wrap_mem_of_not hpa (by rw [hsame, hpatched]), hsame]
  · funext a
    rw [hmem]
    by_contra hne
    obtain ⟨-, hpage, hd, -⟩ := wrap_ne hpa hne
    rw [← hstores, hu.clean a (hpage ▸ stores_clean hp hs)] at hd
    cases hd
  · rw [(hv.changed a ha).2, patched_or (hv.changed a ha).1]

/-- **The hook over whole runs.** Every call of every run is correct. -/
theorem hook_correct {es : List (Edge HookWorld HookLabel)} (h : Run HookInit (HookStep kernelPmap) es w) :
    ∀ e ∈ es, ∀ c stores, e.label = .pmapEnter c stores → HookCorrect kernelPmap c stores e.pre e.post := by
  intro e he c stores hl
  obtain ⟨hI, hs⟩ := h.edge_invariant (I := HookInv) (fun _ => hookInv_init) (fun _ _ _ => hookInv_step) e he
  obtain ⟨pre, l, post⟩ := e
  subst hl
  dsimp only at hI hs ⊢
  cases hs with
  | pmapEnter hpa => exact hookCorrect hI hpa

end Runs

/-- A page of nothing but `dcbz`, entered into user space. -/
theorem hook_correct_page :
    let w : HookWorld := ⟨fun _ => 0x7C0007EC, fun _ => 0x7C0007EC, ∅, ∅⟩
    let c : PmapEnter := ⟨2, 0x1000, 5, 7, 0, 0⟩
    HookCorrect 1 c [] w (w.hook 1 c) := by
  intro w c
  have hrun : Run HookInit (HookStep 1) ([] ++ [⟨w, .pmapEnter c [], w.hook 1 c⟩]) (w.hook 1 c) :=
    .step (.start ⟨rfl, rfl, rfl⟩) (.pmapEnter (w := w) (by decide))
  exact hook_correct hrun _ (List.mem_singleton_self _) c [] rfl

end Osx360.Platform
