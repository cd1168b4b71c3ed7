import Osx360.Lib.Run
import Osx360.Platform.Framebuffer

/-!
# The framebuffer service

`handleFramebufferTimer`, `refreshFramebuffer`, `startFramebuffer`, `stopFramebuffer` and `callPlatformFunction` of
`XenonPE_GPU.cpp` and `XenonPE.cpp`. The refreshes copy pixel by pixel while the rest of the system draws into the
framebuffer: one runs on the work loop of the timer, `start` makes one where it fails, and `wrapDebugger` makes one when
the debugger returns. The service is started and stopped from other threads, statement by statement, also in the middle
of a refresh.

- once nothing is drawn any more and no pixel read before is still to be stored, the next refresh leaves the picture on
  the surface, and it stays there (`display_settles`);
- after `stopFramebuffer` the timer makes no refresh, and at most ends the one it is in (`display_stops`);
- while the service is on, the timer is never lost: the refreshes alone can bring the surface up to date
  (`display_serves`).
-/

set_option autoImplicit false

namespace Osx360.Platform

open Osx360.Lib

/-! ## Pixels -/

abbrev Pixel := Word × Word

/-- The pixels in the order of the loops. -/
def pixels (video : Video) : List Pixel :=
  (List.range video.height.toNat).flatMap fun y =>
    (List.range video.width.toNat).map fun x => (BitVec.ofNat 32 x, BitVec.ofNat 32 y)

/-- Where the surface has a pixel. -/
def tiledPixel (video : Video) (p : Pixel) : ℕ := (tiledIndex video.width p.1 p.2).toNat

/-- What the surface shall have of a pixel. -/
def drawn (video : Video) (fb : ℕ → Word) (p : Pixel) : Word := byteSwap (fb (linearIndex video p.1 p.2).toNat)

section Pixels

variable {video : Video} {p q : Pixel}

theorem eachPixel_eq (video : Video) (write : Word → Word → ℕ × Word) :
    eachPixel video write = (pixels video).map fun p => write p.1 p.2 := by
  simp only [eachPixel, pixels, List.map_flatMap, List.map_map]
  rfl

theorem mem_pixels : p ∈ pixels video ↔ p.1 < video.width ∧ p.2 < video.height := by
  simp only [pixels, List.mem_flatMap, List.mem_range, List.mem_map]
  constructor
  · rintro ⟨y, hy, x, hx, rfl⟩
    obtain ⟨x, hx, rfl⟩ := exists_word hx
    obtain ⟨y, hy, rfl⟩ := exists_word hy
    simpa using ⟨hx, hy⟩
  · rintro ⟨hx, hy⟩
    exact ⟨p.2.toNat, hy, p.1.toNat, hx, by simp⟩

/-- The geometries in which every pixel has a place of its own. -/
structure Apart (video : Video) : Prop where
  fits : Fits video
  separate : Separate video.width.toNat video.height.toNat

theorem Apart.injective (h : Apart video) (hp : p ∈ pixels video) (hq : q ∈ pixels video)
    (he : tiledPixel video p = tiledPixel video q) : p = q := by
  obtain ⟨hpx, hpy⟩ := mem_pixels.mp hp
  obtain ⟨hqx, hqy⟩ := mem_pixels.mp hq
  obtain ⟨hx, hy⟩ := h.fits.distinct h.separate hpx hpy hqx hqy (BitVec.eq_of_toNat_eq he)
  exact Prod.ext hx hy

end Pixels

def vga : Video := ⟨2560, 640, 480, 1⟩

/-- One pixel is drawn. -/
def dot : Framebuffers := ⟨fun _ => 0, fun i => if i = 0 then 7 else 0⟩

theorem vga_apart : Apart vga := ⟨⟨by decide, by decide⟩, by decide⟩

/-! ## The system -/

/-- Who refreshes: the timer, `start` where it fails, or `wrapDebugger`. -/
inductive Refresher
  | timer
  | start
  | debugger
  deriving DecidableEq

/-- Where a refresher is in `refreshFramebuffer`: at the head of the loop, or between reading and storing a pixel. -/
inductive Pass
  | idle
  | loop (rest : List Pixel)
  | holding (p : Pixel) (data : Word) (rest : List Pixel)

/-- The pixels that a refresh has yet to store. -/
def Pass.left : Pass → List Pixel
  | .idle => []
  | .loop rest => rest
  | .holding p _ rest => p :: rest

@[simp] theorem Pass.left_idle : Pass.idle.left = [] := rfl
@[simp] theorem Pass.left_loop (rest : List Pixel) : (Pass.loop rest).left = rest := rfl
@[simp] theorem Pass.left_holding (p : Pixel) (data : Word) (rest : List Pixel) :
    (Pass.holding p data rest).left = p :: rest := rfl

/-- What was asked of the service; `starting` and `stopping` are between the two statements of a call. -/
inductive Service
  | stopped
  | starting
  | serving
  | stopping
  deriving DecidableEq

/-- Whether another call can begin. -/
def Service.settled : Service → Prop
  | .stopped | .serving => True
  | _ => False

/-- `enabled` and `armed` are of the timer event source. -/
structure Display where
  surfaces : Framebuffers
  passes : Refresher → Pass
  enabled : Bool
  armed : Bool
  service : Service

inductive DisplayLabel
  | draw (i : ℕ) (w : Word)
  | begin (c : Refresher)
  | load (c : Refresher)
  | store (c : Refresher)
  | finish (c : Refresher)
  | setTimeout
  | enable
  | disable
  | cancelTimeout
  deriving DecidableEq

/-- The steps. The action of a timer runs while it is armed and enabled, one at a time, and arms it again at its end. -/
inductive DisplayStep (video : Video) : Display → DisplayLabel → Display → Prop
  | draw {s : Display} {i : ℕ} {w : Word} :
      DisplayStep video s (.draw i w)
        { s with surfaces := { s.surfaces with fb := Function.update s.surfaces.fb i w } }
  | fire {s : Display} : s.passes .timer = .idle → s.enabled = true → s.armed = true →
      DisplayStep video s (.begin .timer)
        { s with passes := Function.update s.passes .timer (.loop (pixels video)), armed := false }
  | call {s : Display} {c : Refresher} : c ≠ .timer → s.passes c = .idle →
      DisplayStep video s (.begin c) { s with passes := Function.update s.passes c (.loop (pixels video)) }
  | load {s : Display} {c : Refresher} {p : Pixel} {rest : List Pixel} : s.passes c = .loop (p :: rest) →
      DisplayStep video s (.load c)
        { s with passes := Function.update s.passes c (.holding p (drawn video s.surfaces.fb p) rest) }
  | store {s : Display} {c : Refresher} {p : Pixel} {data : Word} {rest : List Pixel} :
      s.passes c = .holding p data rest →
      DisplayStep video s (.store c) { s with
        surfaces := { s.surfaces with gpu := Function.update s.surfaces.gpu (tiledPixel video p) data }
        passes := Function.update s.passes c (.loop rest) }
  | finish {s : Display} {c : Refresher} : s.passes c = .loop [] →
      DisplayStep video s (.finish c)
        { s with passes := Function.update s.passes c .idle, armed := if c = .timer then true else s.armed }
  | setTimeout {s : Display} : s.service.settled →
      DisplayStep video s .setTimeout { s with armed := true, service := .starting }
  | enable {s : Display} : s.service = .starting →
      DisplayStep video s .enable { s with enabled := true, service := .serving }
  | disable {s : Display} : s.service.settled →
      DisplayStep video s .disable { s with enabled := false, service := .stopping }
  | cancelTimeout {s : Display} : s.service = .stopping →
      DisplayStep video s .cancelTimeout { s with armed := false, service := .stopped }

/-- What `mapGPU` leaves: the timer is enabled, but has no timeout yet. -/
def DisplayInit (video : Video) (s : Display) : Prop :=
  (∃ before, s.surfaces = prepGraphicsFramebuffer video before) ∧ (∀ c, s.passes c = .idle) ∧ s.enabled = true ∧
    s.armed = false ∧ s.service = .stopped

/-- After `mapGPU`, and `startFramebuffer` after it. -/
def serving (video : Video) (before : Framebuffers) : Display :=
  ⟨prepGraphicsFramebuffer video before, fun _ => .idle, true, true, .serving⟩

theorem serving_reachable (video : Video) (before : Framebuffers) :
    Reachable (DisplayInit video) (DisplayStep video) (serving video before) := by
  have hinit : DisplayInit video ⟨prepGraphicsFramebuffer video before, fun _ => .idle, true, false, .stopped⟩ :=
    ⟨⟨before, rfl⟩, fun _ => rfl, rfl, rfl, rfl⟩
  exact ((Reachable.of_init hinit).snoc (.setTimeout trivial)).snoc (.enable rfl)

/-- The step draws nothing. -/
def DisplayLabel.quiet : DisplayLabel → Prop
  | .draw _ _ => False
  | _ => True

/-- The picture is on the surface. -/
def Shown (video : Video) (s : Framebuffers) : Prop :=
  ∀ p ∈ pixels video, s.gpu (tiledPixel video p) = drawn video s.fb p

section Steps

variable {video : Video} {s t u : Display} {l : DisplayLabel} {c : Refresher} {p : Pixel}
  {es : List (Edge Display DisplayLabel)}

/-- What one refresher does is seen by itself only. -/
theorem pass_update {P : Pass → Prop} {passes : Refresher → Pass} {d : Refresher} {pass : Pass}
    (hpass : c = d → P pass) (h : P (passes c)) : P (Function.update passes d pass c) := by
  by_cases hc : c = d
  · rw [hc, Function.update_self]
    exact hpass hc
  · rwa [Function.update_of_ne hc]

/-- Only pixels are copied. -/
def Listed (video : Video) (s : Display) : Prop := ∀ c, (s.passes c).left ⊆ pixels video

theorem listed_init (h : DisplayInit video s) : Listed video s := by
  intro c p hp
  rw [h.2.1 c] at hp
  cases hp

theorem listed_step (hI : Listed video s) (hs : DisplayStep video s l t) : Listed video t := by
  intro c
  cases hs with
  | fire | call => exact pass_update (P := fun a => a.left ⊆ pixels video) (fun _ => List.Subset.refl _) (hI c)
  | @load d p rest hpass =>
    have hold := hI d
    rw [hpass] at hold
    exact pass_update (P := fun a => a.left ⊆ pixels video) (fun _ => hold) (hI c)
  | @store d p data rest hpass =>
    have hold := hI d
    rw [hpass] at hold
    exact pass_update (P := fun a => a.left ⊆ pixels video) (fun _ => List.subset_of_cons_subset hold) (hI c)
  | finish => exact pass_update (P := fun a => a.left ⊆ pixels video) (fun _ => List.nil_subset _) (hI c)
  | _ => exact hI c

theorem reachable_listed (h : Reachable (DisplayInit video) (DisplayStep video) s) : Listed video s :=
  h.invariant (I := Listed video) (fun _ => listed_init) fun _ _ _ => listed_step

/-! ## A refresh by itself -/

/-- The step is one of a refresh. -/
def DisplayLabel.refreshes : DisplayLabel → Prop
  | .begin _ | .load _ | .store _ | .finish _ => True
  | _ => False

theorem DisplayLabel.refreshes.quiet (h : l.refreshes) : l.quiet := by
  cases l <;> trivial

/-- The refreshes by themselves lead from `s` to `t`. -/
def RefreshesTo (video : Video) (s t : Display) : Prop :=
  ∃ es, Path (DisplayStep video) s es t ∧ ∀ e ∈ es, e.label.refreshes

theorem RefreshesTo.refl (video : Video) (s : Display) : RefreshesTo video s s := Leads.refl _ s

theorem RefreshesTo.trans {u : Display} (h : RefreshesTo video s t) (h' : RefreshesTo video t u) :
    RefreshesTo video s u := Leads.trans h h'

theorem RefreshesTo.step (hs : DisplayStep video s l t) (hl : l.refreshes) : RefreshesTo video s t :=
  Leads.single hs hl

theorem RefreshesTo.reachable (h : RefreshesTo video s t)
    (hreach : Reachable (DisplayInit video) (DisplayStep video) s) :
    Reachable (DisplayInit video) (DisplayStep video) t := Leads.reachable h hreach

/-- A refresher has come to `pass`. -/
structure Moved (c : Refresher) (pass : Pass) (s t : Display) : Prop where
  passes : t.passes = Function.update s.passes c pass
  service : t.service = s.service
  fb : t.surfaces.fb = s.surfaces.fb

theorem Moved.trans {a b : Pass} {u : Display} (h : Moved c a s t) (h' : Moved c b t u) : Moved c b s u where
  passes := by rw [h'.passes, h.passes, Function.update_idem]
  service := h'.service.trans h.service
  fb := h'.fb.trans h.fb

/-- A loop that is not disturbed writes the pixels that are left, one after the other. -/
theorem loop_runs (video : Video) (c : Refresher) (rest : List Pixel) {s : Display} (hpass : s.passes c = .loop rest) :
    ∃ t, RefreshesTo video s t ∧ Moved c (.loop []) s t ∧ t.surfaces.gpu = applyWrites s.surfaces.gpu
      (rest.map fun p => (tiledPixel video p, drawn video s.surfaces.fb p)) := by
  induction rest generalizing s with
  | nil =>
    refine ⟨s, .refl video s, ⟨?_, rfl, rfl⟩, rfl⟩
    rw [← hpass, Function.update_eq_self]
  | cons p rest ih =>
    have hload : DisplayStep video s (.load c) _ := .load hpass
    have hstore : DisplayStep video { s with
      passes := Function.update s.passes c (.holding p (drawn video s.surfaces.fb p) rest) } (.store c) _ :=
      .store (Function.update_self ..)
    obtain ⟨t, hto, hmoved, hgpu⟩ := ih (s := { s with
      surfaces := { s.surfaces with
        gpu := Function.update s.surfaces.gpu (tiledPixel video p) (drawn video s.surfaces.fb p) }
      passes := Function.update (Function.update s.passes c (.holding p (drawn video s.surfaces.fb p) rest)) c
        (.loop rest) }) (Function.update_self ..)
    refine ⟨t, (RefreshesTo.step hload trivial).trans ((RefreshesTo.step hstore trivial).trans hto),
      Moved.trans (a := .loop rest) ?_ hmoved, hgpu⟩
    exact ⟨Function.update_idem .., rfl, rfl⟩

/-- A refresh that is under way can be run to its end. -/
theorem pass_runs (video : Video) (c : Refresher) (s : Display) : ∃ t, RefreshesTo video s t ∧ Moved c .idle s t := by
  have hloop : ∀ rest (s : Display), s.passes c = .loop rest → ∃ t, RefreshesTo video s t ∧ Moved c .idle s t := by
    intro rest s hpass
    obtain ⟨t, hto, hmoved, -⟩ := loop_runs video c rest hpass
    have hfinish : DisplayStep video t (.finish c) _ := .finish (by rw [hmoved.passes, Function.update_self])
    exact ⟨_, hto.trans (.step hfinish trivial), hmoved.trans ⟨rfl, rfl, rfl⟩⟩
  cases hpass : s.passes c with
  | idle =>
    refine ⟨s, .refl video s, ?_, rfl, rfl⟩
    rw [← hpass, Function.update_eq_self]
  | loop rest => exact hloop rest s hpass
  | holding p data rest =>
    have hstore : DisplayStep video s (.store c) _ := .store hpass
    obtain ⟨t, hto, hmoved⟩ := hloop rest { s with
      surfaces := { s.surfaces with gpu := Function.update s.surfaces.gpu (tiledPixel video p) data }
      passes := Function.update s.passes c (.loop rest) } (Function.update_self ..)
    refine ⟨t, (RefreshesTo.step hstore trivial).trans hto, Moved.trans (a := .loop rest) ?_ hmoved⟩
    exact ⟨rfl, rfl, rfl⟩

/-- A refresh that is not disturbed is `refreshFramebuffer`, and shows the picture. -/
theorem refresh_shown (h : Apart video) (fb gpu : ℕ → Word) :
    applyWrites gpu ((pixels video).map fun p => (tiledPixel video p, drawn video fb p)) =
        refreshFramebuffer video fb gpu ∧ Shown video ⟨refreshFramebuffer video fb gpu, fb⟩ := by
  have hwrites : refreshWrites video fb = (pixels video).map fun p => (tiledPixel video p, drawn video fb p) :=
    eachPixel_eq video _
  refine ⟨by rw [refreshFramebuffer, hwrites], fun p hp => ?_⟩
  refine applyWrites_of_mem (hwrites ▸ List.mem_map.mpr ⟨p, hp, rfl⟩) fun e he hplace => ?_
  rw [hwrites] at he
  obtain ⟨q, hq, rfl⟩ := List.mem_map.mp he
  rw [h.injective hq hp hplace]

/-! ## The picture settles -/

/-- A pixel that is read but not stored is still what the framebuffer has. -/
def Pass.Current (video : Video) (fb : ℕ → Word) : Pass → Prop
  | .holding p data _ => data = drawn video fb p
  | _ => True

/-- No old pixel is still to be stored. -/
def Current (video : Video) (s : Display) : Prop := ∀ c, (s.passes c).Current video s.surfaces.fb

theorem current_pass_step (hI : (s.passes c).Current video s.surfaces.fb) (hs : DisplayStep video s l t)
    (hq : l.quiet) : (t.passes c).Current video t.surfaces.fb := by
  cases hs with
  | draw => exact hq.elim
  | fire | call | store | finish => exact pass_update (P := Pass.Current video s.surfaces.fb) (fun _ => trivial) hI
  | load => exact pass_update (P := Pass.Current video s.surfaces.fb) (fun _ => rfl) hI
  | _ => exact hI

theorem current_step (hI : Current video s) (hs : DisplayStep video s l t) (hq : l.quiet) : Current video t :=
  fun c => current_pass_step (hI c) hs hq

/-- After its store a refresher holds nothing. -/
theorem current_of_store (hs : DisplayStep video s (.store c) t) : (t.passes c).Current video t.surfaces.fb := by
  cases hs
  simp only [Function.update_self, Pass.Current]

/-- While nothing is drawn, every old pixel that is stored is the last one of its refresher. -/
theorem current_of_stored (h : Path (DisplayStep video) s es t) (hq : ∀ e ∈ es, e.label.quiet)
    (hstored : (s.passes c).Current video s.surfaces.fb ∨ ∃ e ∈ es, e.label = .store c) :
    (t.passes c).Current video t.surfaces.fb := by
  induction h with
  | start hs =>
    subst hs
    exact hstored.resolve_right (by simp)
  | @step es u t l _ hs ih =>
    rw [forall_snoc] at hq
    rcases hstored with hcurrent | ⟨e, he, hlabel⟩
    · exact current_pass_step (ih hq.1 (Or.inl hcurrent)) hs hq.2
    · rcases List.mem_append.mp he with he | he
      · exact current_pass_step (ih hq.1 (Or.inr ⟨e, he, hlabel⟩)) hs hq.2
      · obtain rfl := List.mem_singleton.mp he
        obtain rfl : l = .store c := hlabel
        exact current_of_store hs

/-- The surface has the pixel. -/
def ShownAt (video : Video) (s : Framebuffers) (p : Pixel) : Prop :=
  s.gpu (tiledPixel video p) = drawn video s.fb p

/-- What a store leaves on the surface. -/
theorem shownAt_store (h : Apart video) {m : Framebuffers} {q : Pixel} {data : Word} (hq : q ∈ pixels video)
    (hdata : data = drawn video m.fb q) (hp : p ∈ pixels video) (hshown : p = q ∨ ShownAt video m p) :
    ShownAt video { m with gpu := Function.update m.gpu (tiledPixel video q) data } p := by
  show Function.update m.gpu (tiledPixel video q) data (tiledPixel video p) = drawn video m.fb p
  by_cases he : tiledPixel video p = tiledPixel video q
  · rw [he, Function.update_self, hdata, h.injective hp hq he]
  · rw [Function.update_of_ne he]
    exact hshown.resolve_left fun heq => he (heq ▸ rfl)

/-- A pixel that the surface has stays there. -/
theorem shownAt_step (h : Apart video) (hlisted : Listed video s) (hcurrent : Current video s)
    (hs : DisplayStep video s l t) (hq : l.quiet) (hp : p ∈ pixels video) (hshown : ShownAt video s.surfaces p) :
    ShownAt video t.surfaces p := by
  cases hs with
  | draw => exact hq.elim
  | @store c q data rest hpass =>
    have hdata := hcurrent c
    have hmem := hlisted c
    rw [hpass] at hdata hmem
    exact shownAt_store h (hmem List.mem_cons_self) hdata hp (Or.inr hshown)
  | _ => exact hshown

/-- A pixel that is still to be stored is so afterwards, or the surface has it. -/
theorem left_step (hcurrent : Current video s) (hs : DisplayStep video s l t) (hp : p ∈ (s.passes c).left) :
    p ∈ (t.passes c).left ∨ ShownAt video t.surfaces p := by
  cases hs with
  | fire hidle | call _ hidle =>
    refine pass_update (P := fun a => p ∈ a.left ∨ _) (fun hc => ?_) (Or.inl hp)
    rw [hc, hidle] at hp
    cases hp
  | load hpass =>
    refine pass_update (P := fun a => p ∈ a.left ∨ _) (fun hc => Or.inl ?_) (Or.inl hp)
    rwa [hc, hpass] at hp
  | @store d q data rest hpass =>
    have hdata := hcurrent d
    rw [hpass] at hdata
    refine pass_update (P := fun a => p ∈ a.left ∨ _) (fun hc => ?_) (Or.inl hp)
    rw [hc, hpass] at hp
    rcases List.mem_cons.mp hp with rfl | hrest
    · exact Or.inr ((Function.update_self ..).trans hdata)
    · exact Or.inl hrest
  | finish hpass =>
    refine pass_update (P := fun a => p ∈ a.left ∨ _) (fun hc => ?_) (Or.inl hp)
    rw [hc, hpass] at hp
    cases hp
  | _ => exact Or.inl hp

/-- Nothing old is left, and of the refresh `c` every pixel is on the surface or still to be stored. -/
structure Settling (video : Video) (c : Refresher) (s : Display) : Prop where
  listed : Listed video s
  current : Current video s
  pixel : ∀ p ∈ pixels video, p ∈ (s.passes c).left ∨ ShownAt video s.surfaces p

theorem settling_step (h : Apart video) (hI : Settling video c s) (hs : DisplayStep video s l t) (hq : l.quiet) :
    Settling video c t where
  listed := listed_step hI.listed hs
  current := current_step hI.current hs hq
  pixel p hp := (hI.pixel p hp).elim (left_step hI.current hs) fun hshown =>
    Or.inr (shownAt_step h hI.listed hI.current hs hq hp hshown)

/-- The picture is there, and nothing old is left that could spoil it. -/
structure Settled (video : Video) (s : Display) : Prop where
  listed : Listed video s
  current : Current video s
  shown : Shown video s.surfaces

theorem settled_step (h : Apart video) (hI : Settled video s) (hs : DisplayStep video s l t) (hq : l.quiet) :
    Settled video t where
  listed := listed_step hI.listed hs
  current := current_step hI.current hs hq
  shown p hp := shownAt_step h hI.listed hI.current hs hq hp (hI.shown p hp)

/-- A refresh begins with all pixels. -/
theorem settling_begin (hlisted : Listed video s) (hcurrent : Current video s)
    (hs : DisplayStep video s (.begin c) t) : Settling video c t where
  listed := listed_step hlisted hs
  current := current_step hcurrent hs trivial
  pixel p hp := by
    left
    cases hs <;> simpa only [Function.update_self, Pass.left_loop] using hp

/-- A refresh ends when no pixel is left. -/
theorem settled_finish (hI : Settling video c s) (hs : DisplayStep video s (.finish c) t) : Settled video t where
  listed := listed_step hI.listed hs
  current := current_step hI.current hs trivial
  shown p hp := by
    cases hs with
    | finish hpass =>
      have hpixel := hI.pixel p hp
      rw [hpass] at hpixel
      exact hpixel.resolve_left List.not_mem_nil

end Steps

section Settles

variable {video : Video} {s t u v w x : Display} {c : Refresher} {es₁ es₂ es₃ : List (Edge Display DisplayLabel)}

/-- **The picture settles.** Nothing is drawn, and of what was read before every pixel is stored; then a refresh that
begins and ends leaves the picture on the surface, where it stays. -/
theorem display_settles (h : Apart video) (hreach : Reachable (DisplayInit video) (DisplayStep video) s)
    (h₁ : Path (DisplayStep video) s es₁ u) (hbegin : DisplayStep video u (.begin c) v)
    (h₂ : Path (DisplayStep video) v es₂ w) (hfinish : DisplayStep video w (.finish c) x)
    (h₃ : Path (DisplayStep video) x es₃ t) (hquiet : ∀ e ∈ es₁ ++ es₂ ++ es₃, e.label.quiet)
    (hstored : ∀ d, (s.passes d).Current video s.surfaces.fb ∨ ∃ e ∈ es₁, e.label = .store d) :
    Shown video t.surfaces := by
  rw [List.forall_mem_append, List.forall_mem_append] at hquiet
  obtain ⟨⟨hquiet₁, hquiet₂⟩, hquiet₃⟩ := hquiet
  obtain ⟨es, hrun⟩ := hreach
  have hlisted : Listed video u := reachable_listed ⟨_, hrun.append h₁⟩
  have hcurrent : Current video u := fun d => current_of_stored h₁ hquiet₁ (hstored d)
  have hsettling : Settling video c w := by
    refine Run.guarded (I := Settling video c) (C := fun _ l => l.quiet) ?_ ?_ h₂ hquiet₂
    · rintro _ rfl
      exact settling_begin hlisted hcurrent hbegin
    · exact fun _ _ _ hI hq hs => settling_step h hI hs hq
  have hsettled : Settled video t := by
    refine Run.guarded (I := Settled video) (C := fun _ l => l.quiet) ?_ ?_ h₃ hquiet₃
    · rintro _ rfl
      exact settled_finish hsettling hfinish
    · exact fun _ _ _ hI hq hs => settled_step h hI hs hq
  exact hsettled.shown

theorem display_settles_vga : ∃ t, RefreshesTo vga (serving vga dot) t ∧ Shown vga t.surfaces := by
  have hbegin : DisplayStep vga (serving vga dot) (.begin .timer) _ := .fire rfl rfl rfl
  obtain ⟨w, ⟨es, hpath, hes⟩, hmoved, -⟩ := loop_runs vga .timer (pixels vga) (s := {
    serving vga dot with
      passes := Function.update (serving vga dot).passes .timer (.loop (pixels vga))
      armed := false }) (by simp only [Function.update_self])
  have hfinish : DisplayStep vga w (.finish .timer) _ := .finish (by rw [hmoved.passes, Function.update_self])
  refine ⟨_, (RefreshesTo.step hbegin trivial).trans (RefreshesTo.trans ⟨es, hpath, hes⟩ (.step hfinish trivial)), ?_⟩
  refine display_settles vga_apart (serving_reachable vga _) (.start rfl) hbegin hpath hfinish (.start rfl) ?_ fun d =>
    Or.inl trivial
  simpa using fun e he => (hes e he).quiet

end Settles

/-! ## The timer -/

/-- How the timer event source goes with the calls. -/
structure TimerInv (s : Display) : Prop where
  off : s.service = .stopped → s.enabled = false ∨ s.armed = false ∧ s.passes .timer = .idle
  closing : s.service = .stopping → s.enabled = false
  on : s.service = .serving → s.enabled = true
  kept : s.service = .starting ∨ s.service = .serving → s.armed = true ∨ s.passes .timer ≠ .idle

section Timer

variable {video : Video} {s t : Display} {l : DisplayLabel} {es : List (Edge Display DisplayLabel)}

theorem timer_init (h : DisplayInit video s) : TimerInv s := by
  obtain ⟨-, hpasses, -, harmed, hservice⟩ := h
  exact {
    off := fun _ => Or.inr ⟨harmed, hpasses .timer⟩
    closing := fun hc => by simp [hservice] at hc
    on := fun hc => by simp [hservice] at hc
    kept := fun hc => by simp [hservice] at hc }

/-- What leaves the event source and the calls alone, and does not begin or end the refresh of the timer. -/
theorem TimerInv.of_same (hI : TimerInv s) (henabled : t.enabled = s.enabled) (harmed : t.armed = s.armed)
    (hservice : t.service = s.service) (htimer : t.passes .timer = .idle ↔ s.passes .timer = .idle) :
    TimerInv t where
  off h := by
    rw [henabled, harmed, htimer]
    exact hI.off (hservice ▸ h)
  closing h := henabled.trans (hI.closing (hservice ▸ h))
  on h := henabled.trans (hI.on (hservice ▸ h))
  kept h := by
    rw [harmed, ne_eq, htimer]
    exact hI.kept (hservice ▸ h)

/-- A refresher that is not idle moves on. -/
theorem timer_moves {passes : Refresher → Pass} {c : Refresher} {pass : Pass} (hc : passes c ≠ .idle)
    (hpass : pass ≠ .idle) : Function.update passes c pass .timer = .idle ↔ passes .timer = .idle := by
  by_cases hcall : Refresher.timer = c
  · subst hcall
    rw [Function.update_self]
    exact iff_of_false hpass hc
  · rw [Function.update_of_ne hcall]

theorem timer_step (hI : TimerInv s) (hs : DisplayStep video s l t) : TimerInv t := by
  cases hs with
  | draw => exact hI.of_same rfl rfl rfl Iff.rfl
  | fire hidle henabled harmed =>
    exact {
      off := fun h => by simpa [henabled, harmed] using hI.off h
      closing := hI.closing
      on := hI.on
      kept := fun _ => Or.inr (by simp) }
  | call hne => exact hI.of_same rfl rfl rfl (by simp only [Function.update_of_ne hne.symm])
  | load hpass | store hpass =>
    exact hI.of_same rfl rfl rfl (timer_moves (by rw [hpass]; exact Pass.noConfusion) Pass.noConfusion)
  | @finish c hpass =>
    by_cases hc : c = .timer
    · subst hc
      exact {
        off := fun h => (hI.off h).imp_right fun hoff => by simp [hpass] at hoff
        closing := hI.closing
        on := hI.on
        kept := fun _ => Or.inl rfl }
    · exact hI.of_same rfl (by simp only [if_neg hc]) rfl (by simp only [Function.update_of_ne (Ne.symm hc)])
  | setTimeout =>
    exact {
      off := Service.noConfusion
      closing := Service.noConfusion
      on := Service.noConfusion
      kept := fun _ => Or.inl rfl }
  | enable hservice =>
    exact {
      off := Service.noConfusion
      closing := Service.noConfusion
      on := fun _ => rfl
      kept := fun _ => hI.kept (Or.inl hservice) }
  | disable =>
    exact {
      off := Service.noConfusion
      closing := fun _ => rfl
      on := Service.noConfusion
      kept := fun h => h.elim Service.noConfusion Service.noConfusion }
  | cancelTimeout hservice =>
    exact {
      off := fun _ => Or.inl (hI.closing hservice)
      closing := Service.noConfusion
      on := Service.noConfusion
      kept := fun h => h.elim Service.noConfusion Service.noConfusion }

theorem reachable_timer (h : Reachable (DisplayInit video) (DisplayStep video) s) : TimerInv s :=
  h.invariant (I := TimerInv) (fun _ => timer_init) fun _ _ _ => timer_step

/-! ### After `stopFramebuffer` -/

/-- The service is stopped, or about to be. -/
structure Halted (s : Display) : Prop where
  timer : TimerInv s
  service : s.service = .stopped ∨ s.service = .stopping

/-- Until the service is started, the timer makes no refresh. -/
theorem halted_step (hI : Halted s) (hl : l ≠ .setTimeout) (hs : DisplayStep video s l t) :
    Halted t ∧ l ≠ .begin .timer := by
  have htimer := timer_step hI.timer hs
  cases hs with
  | fire hidle henabled harmed =>
    rcases hI.service with hservice | hservice
    · simpa [henabled, harmed] using hI.timer.off hservice
    · simpa [henabled] using hI.timer.closing hservice
  | setTimeout => exact absurd rfl hl
  | enable hservice => simpa [hservice] using hI.service
  | disable => exact ⟨⟨htimer, Or.inr rfl⟩, DisplayLabel.noConfusion⟩
  | cancelTimeout => exact ⟨⟨htimer, Or.inl rfl⟩, DisplayLabel.noConfusion⟩
  | call hne => exact ⟨⟨htimer, hI.service⟩, fun hlabel => hne (DisplayLabel.begin.inj hlabel)⟩
  | _ => exact ⟨⟨htimer, hI.service⟩, DisplayLabel.noConfusion⟩

/-- Until a refresher begins again, it has fewer and fewer pixels left. -/
theorem left_suffix {c : Refresher} (hl : l ≠ .begin c) (hs : DisplayStep video s l t) :
    (t.passes c).left <:+ (s.passes c).left := by
  cases hs with
  | fire | call =>
    exact pass_update (P := fun a => a.left <:+ (s.passes c).left) (fun hc => absurd (hc ▸ rfl) hl) List.suffix_rfl
  | load hpass =>
    refine pass_update (P := fun a => a.left <:+ (s.passes c).left) (fun hc => ?_) List.suffix_rfl
    rw [hc, hpass]
    exact List.suffix_rfl
  | store hpass =>
    refine pass_update (P := fun a => a.left <:+ (s.passes c).left) (fun hc => ?_) List.suffix_rfl
    rw [hc, hpass]
    exact List.suffix_cons _ _
  | finish =>
    exact pass_update (P := fun a => a.left <:+ (s.passes c).left) (fun _ => List.nil_suffix) List.suffix_rfl
  | _ => exact List.suffix_rfl

/-- A store is of the first pixel that is left. -/
theorem left_store {c : Refresher} (hs : DisplayStep video s (.store c) t) :
    ∃ p data, (s.passes c).left = p :: (t.passes c).left ∧
      t.surfaces.gpu = Function.update s.surfaces.gpu (tiledPixel video p) data := by
  cases hs with
  | @store c p data rest hpass => exact ⟨p, data, by simp [hpass], rfl⟩

/-- Only a store changes the surface. -/
theorem gpu_step (hs : DisplayStep video s l t) (hl : ∀ c, l ≠ .store c) : t.surfaces.gpu = s.surfaces.gpu := by
  cases hs with
  | @store c => exact absurd rfl (hl c)
  | _ => rfl

/-- The stores of a refresher that does not begin again. -/
theorem stores_le {c : Refresher} (h : Path (DisplayStep video) s es t) (hl : ∀ e ∈ es, e.label ≠ .begin c) :
    es.countP (fun e => e.label = .store c) + (t.passes c).left.length ≤ (s.passes c).left.length := by
  induction h with
  | start hs =>
    subst hs
    simp
  | @step es u t l _ hs ih =>
    rw [forall_snoc] at hl
    have hle := ih hl.1
    rw [List.countP_append, List.countP_singleton]
    by_cases hstore : l = .store c
    · subst hstore
      obtain ⟨p, data, hleft, -⟩ := left_store hs
      rw [hleft, List.length_cons] at hle
      simp
      omega
    · have hlen := (left_suffix hl.2 hs).length_le
      simp [hstore]
      omega

/-- What the refreshes under way have still to store is all that changes. -/
structure Untouched (s : Display) (video : Video) (i : ℕ) (t : Display) : Prop where
  left : ∀ c, (t.passes c).left <:+ (s.passes c).left
  gpu : t.surfaces.gpu i = s.surfaces.gpu i

theorem untouched_step {i : ℕ} {u : Display} (hi : ∀ c, ∀ p ∈ (s.passes c).left, tiledPixel video p ≠ i)
    (hI : Untouched s video i t) (hl : ∀ c, l ≠ .begin c) (hs : DisplayStep video t l u) :
    Untouched s video i u where
  left c := (left_suffix (hl c) hs).trans (hI.left c)
  gpu := by
    by_cases hstore : ∃ c, l = .store c
    · obtain ⟨c, rfl⟩ := hstore
      obtain ⟨p, data, hleft, hgpu⟩ := left_store hs
      have hp : p ∈ (t.passes c).left := hleft ▸ List.mem_cons_self
      rw [hgpu, Function.update_of_ne (hi c p ((hI.left c).subset hp)).symm, hI.gpu]
    · rw [gpu_step hs fun c hc => hstore ⟨c, hc⟩, hI.gpu]

/-- **After `stopFramebuffer` the timer makes no refresh** until the service is started again, whatever the timing of
the call was: it stores at most the pixels that were left of the refresh it was in. While nobody else begins one either,
all other words of the surface stay as they are. -/
theorem display_stops (hreach : Reachable (DisplayInit video) (DisplayStep video) s)
    (hoff : s.service = .stopped ∨ s.service = .stopping) (h : Path (DisplayStep video) s es t)
    (hcalls : ∀ e ∈ es, e.label ≠ .setTimeout) :
    (∀ e ∈ es, e.label ≠ .begin .timer) ∧
      es.countP (fun e => e.label = .store .timer) ≤ (s.passes .timer).left.length ∧
      ((∀ e ∈ es, ∀ c ≠ .timer, e.label ≠ .begin c) → ∀ i, (∀ c, ∀ p ∈ (s.passes c).left, tiledPixel video p ≠ i) →
        t.surfaces.gpu i = s.surfaces.gpu i) := by
  have hnone : ∀ e ∈ es, e.label ≠ .begin .timer := by
    refine Run.guarded_edges (I := Halted) (C := fun _ l => l ≠ .setTimeout) (Q := fun e => e.label ≠ .begin .timer)
      ?_ ?_ h hcalls
    · rintro _ rfl
      exact ⟨reachable_timer hreach, hoff⟩
    · exact fun _ _ _ hI hl hs => halted_step hI hl hs
  have hstores := stores_le h hnone
  refine ⟨hnone, by omega, fun hothers i hi => ?_⟩
  have huntouched : Untouched s video i t := by
    refine Run.guarded (I := Untouched s video i) (C := fun _ l => ∀ c, l ≠ .begin c) ?_ ?_ h ?_
    · rintro _ rfl
      exact ⟨fun _ => List.suffix_rfl, rfl⟩
    · exact fun _ _ _ hI hl hs => untouched_step hi hI hl hs
    · intro e he c
      by_cases hc : c = .timer
      · exact hc ▸ hnone e he
      · exact hothers e he c hc
  exact huntouched.gpu

/-- A display of one pixel. -/
def onePixel : Video := ⟨128, 1, 1, 1⟩

/-- The service is stopped while the pixel is read and not yet stored. -/
theorem display_stops_onePixel : ∃ s es t, (s.passes .timer).left = [(0, 0)] ∧
    Path (DisplayStep onePixel) s es t ∧ es.map Edge.label = [.store .timer, .finish .timer] ∧
    (∀ e ∈ es, e.label ≠ .begin .timer) ∧ t.surfaces.gpu 1 = s.surfaces.gpu 1 := by
  have hpixels : pixels onePixel = [(0, 0)] := by decide
  have hfire : DisplayStep onePixel (serving onePixel dot) (.begin .timer) _ := .fire rfl rfl rfl
  have hload : DisplayStep onePixel { serving onePixel dot with
      passes := Function.update (serving onePixel dot).passes .timer (.loop (pixels onePixel)), armed := false }
      (.load .timer) _ := .load (show _ = Pass.loop ((0, 0) :: []) by rw [hpixels]; rfl)
  have hreach := ((((serving_reachable onePixel dot).snoc hfire).snoc hload).snoc (.disable trivial)).snoc
    (.cancelTimeout rfl)
  obtain ⟨s, hs, hreach⟩ : ∃ s, s = _ ∧ Reachable (DisplayInit onePixel) (DisplayStep onePixel) s := ⟨_, rfl, hreach⟩
  obtain ⟨data, hpass⟩ : ∃ data, s.passes .timer = .holding (0, 0) data [] := ⟨_, by rw [hs]; rfl⟩
  have hidle : ∀ c ≠ .timer, s.passes c = .idle := by
    intro c hc
    rw [hs]
    cases c <;> first | exact absurd rfl hc | rfl
  have hstore : DisplayStep onePixel s (.store .timer) _ := .store hpass
  have hfinish : DisplayStep onePixel { s with
      surfaces := { s.surfaces with gpu := Function.update s.surfaces.gpu (tiledPixel onePixel (0, 0)) data }
      passes := Function.update s.passes .timer (.loop []) } (.finish .timer) _ :=
    .finish (by simp only [Function.update_self])
  have hhere : Path (DisplayStep onePixel) s [] s := .start rfl
  have hpath := (hhere.step hstore).step hfinish
  have hleft : ∀ c, ∀ p ∈ (s.passes c).left, tiledPixel onePixel p ≠ 1 := by
    intro c p hp
    by_cases hc : c = .timer
    · rw [hc, hpass] at hp
      rw [List.mem_singleton.mp hp]
      decide
    · rw [hidle c hc] at hp
      cases hp
  obtain ⟨hnone, -, hframe⟩ := display_stops hreach (by rw [hs]; exact Or.inl rfl) hpath (by simp)
  exact ⟨s, _, _, by rw [hpass]; rfl, hpath, rfl, hnone, hframe (by simp) 1 hleft⟩

/-! ### While the service is on -/

/-- **While the service is on, the timer is not lost**: the refreshes under way can end, the timer makes another one,
and then the surface is what `refreshFramebuffer` makes of the framebuffer, and shows it. -/
theorem display_serves (h : Apart video) (hreach : Reachable (DisplayInit video) (DisplayStep video) s)
    (hserving : s.service = .serving) :
    ∃ gpu t, RefreshesTo video s t ∧ (∀ c, t.passes c = .idle) ∧
      t.surfaces = ⟨refreshFramebuffer video s.surfaces.fb gpu, s.surfaces.fb⟩ ∧ Shown video t.surfaces := by
  obtain ⟨u₁, hto₁, hmoved₁⟩ := pass_runs video .start s
  obtain ⟨u₂, hto₂, hmoved₂⟩ := pass_runs video .debugger u₁
  obtain ⟨v, hto₃, hmoved₃⟩ := pass_runs video .timer u₂
  have hto := (hto₁.trans hto₂).trans hto₃
  have hidle : v.passes .timer = .idle := by rw [hmoved₃.passes, Function.update_self]
  have hservice : v.service = .serving :=
    ((hmoved₃.service.trans hmoved₂.service).trans hmoved₁.service).trans hserving
  have htimer := reachable_timer (hto.reachable hreach)
  have harmed := (htimer.kept (Or.inr hservice)).resolve_right (not_not_intro hidle)
  have hbegin : DisplayStep video v (.begin .timer) _ := .fire hidle (htimer.on hservice) harmed
  obtain ⟨w, hloop, hmoved, hgpu⟩ := loop_runs video .timer (pixels video) (s := { v with
    passes := Function.update v.passes .timer (.loop (pixels video)), armed := false })
    (by simp only [Function.update_self])
  have hfinish : DisplayStep video w (.finish .timer) _ := .finish (by rw [hmoved.passes, Function.update_self])
  have hfb : v.surfaces.fb = s.surfaces.fb := (hmoved₃.fb.trans hmoved₂.fb).trans hmoved₁.fb
  obtain ⟨hrefresh, hshown⟩ := refresh_shown h s.surfaces.fb v.surfaces.gpu
  have hsurfaces : w.surfaces = ⟨refreshFramebuffer video s.surfaces.fb v.surfaces.gpu, s.surfaces.fb⟩ := by
    rw [← hrefresh, ← hfb, ← hgpu]
    exact congrArg (Framebuffers.mk w.surfaces.gpu) hmoved.fb
  refine ⟨v.surfaces.gpu, _, hto.trans ((RefreshesTo.step hbegin trivial).trans
    (hloop.trans (.step hfinish trivial))), fun c => ?_, hsurfaces, hsurfaces ▸ hshown⟩
  simp only [hmoved.passes, hmoved₃.passes, hmoved₂.passes, hmoved₁.passes, Function.update_idem]
  cases c <;> simp

end Timer

theorem display_serves_vga : ∃ gpu t, RefreshesTo vga (serving vga dot) t ∧ (∀ c, t.passes c = .idle) ∧
    t.surfaces = ⟨refreshFramebuffer vga (serving vga dot).surfaces.fb gpu, (serving vga dot).surfaces.fb⟩ ∧
    Shown vga t.surfaces :=
  display_serves vga_apart (serving_reachable vga dot) rfl

end Osx360.Platform
