import Mathlib.Data.List.GetD
import Mathlib.Data.List.Infix
import Osx360.Graphics.PacketStream

/-!
# The draws

What the GPU does with the words of the ring, by the packets of `adreno_pm4.xml.h`: it executes each once it has all of
it, setting registers and constants, loading shaders, drawing. From the first tick on it alternates between two draws,
the display into the EDRAM and the EDRAM into the surface that is shown; both find the registers as `initFramebuffer`
set them up, for all but the mode (`gpu_draws`).
-/

set_option autoImplicit false

namespace Osx360.Graphics

open Osx360.Lib

/-! ## The command processor -/

/-- What a draw was started with. -/
structure DrawCall where
  initiator : Word
  registers : Word → Word
  vertexShader : List Word
  pixelShader : List Word

structure CommandProcessor where
  registers : Word → Word
  vertexShader : List Word
  pixelShader : List Word
  draws : List DrawCall

/-- Sets registers from `index` on. -/
def CommandProcessor.setRegisters (g : CommandProcessor) (index : Word) : List Word → CommandProcessor
  | [] => g
  | data :: rest => setRegisters { g with registers := Function.update g.registers index data } (index + 1) rest

/-- The register that a constant names by its type and offset, as `CP_REG` composes them: registers are of type 4, fetch
constants of type 1 with their base at 0x4800. -/
def constantIndex (constant : Word) : Option Word :=
  let offset := constant &&& 0xFFFF
  if constant >>> 16 = 4 then some (0x2000 + offset)
  else if constant >>> 16 = 1 then some (0x4800 + offset)
  else none

def CommandProcessor.setConstant (g : CommandProcessor) : List Word → CommandProcessor
  | constant :: data =>
    match constantIndex constant with
    | some index => g.setRegisters index data
    | none => g
  | [] => g

/-- The first word tells the shader, the second its place and length. -/
def CommandProcessor.loadImmediate (g : CommandProcessor) : List Word → CommandProcessor
  | type :: _ :: code =>
    if type = 0 then { g with vertexShader := code }
    else { g with pixelShader := code }
  | _ => g

def CommandProcessor.drawIndx (g : CommandProcessor) : List Word → CommandProcessor
  | _ :: initiator :: _ =>
    { g with draws := g.draws ++ [⟨initiator, g.registers, g.vertexShader, g.pixelShader⟩] }
  | _ => g

/-- The commands that change what a draw finds, and the draws. -/
def CommandProcessor.exec (g : CommandProcessor) (opcode : BitVec 8) (payload : List Word) : CommandProcessor :=
  if opcode = cpSetConstant then g.setConstant payload
  else if opcode = cpImLoadImmediate then g.loadImmediate payload
  else if opcode = cpDrawIndx then g.drawIndx payload
  else g

/-- A packet of type 0 sets registers, one of type 3 is a command. -/
def execPacket (g : CommandProcessor) (header : Word) (payload : List Word) : CommandProcessor :=
  if header.extractLsb' 30 2 = 0 then g.setRegisters (header &&& 0x7FFF) payload
  else g.exec (header.extractLsb' 8 8) payload

/-- With any values in the registers. -/
def CommandProcessor.reset (registers : Word → Word) : CommandProcessor := ⟨registers, [], [], []⟩

/-- The command processor after some words of the ring. -/
def process (registers : Word → Word) (words : List Word) : CommandProcessor :=
  (Reader.run pm4Size execPacket (.reset registers) words).state

/-! ## The frames -/

/-- The fetch constants for the vertices, and for the texture. -/
def fetchVertices : Word := 0x4800 + 0x78
def fetchTexture : Word := 0x4800

/-- What both draws find in the registers: where the vertices and the display are, and where the frame goes to. -/
structure FrameRegisters (s : XenosSetup) (registers : Word → Word) : Prop where
  vertices : registers fetchVertices = s.triagPhys ||| 3
  texCoords : registers (fetchVertices + 2) = s.texCoordsPhys ||| 3
  display : registers (fetchTexture + 1) = s.fbPhysAddr ||| fmt8888
  displaySize : registers (fetchTexture + 2) = a2xxSqTex2Height (s.fbHeight - 1) ||| a2xxSqTex2Width (s.fbWidth - 1)
  surface : registers regA2xxRbSurfaceInfo = alignTo s.fbWidth 32
  scissor : registers (regA2xxPaScWindowScissorTl + 1) = xy32 s.fbWidth s.fbHeight
  copyControl : registers regA2xxRbCopyControl = 0x00100000
  copyBase : registers (regA2xxRbCopyControl + 1) = s.gpuPhysAddr
  copyPitch : registers (regA2xxRbCopyControl + 2) = xy32 s.fbWidth s.fbHeight
  copyInfo : registers regA2xxRbCopyDestInfo = a2xxRbCopyDestInfoFormat colorxS8888 ||| a2xxRbCopyDestInfoSwap 1

/-- The first draw of a frame, by its four vertices to the EDRAM; the second, by its three, from there. -/
def frameInitiator (k : ℕ) : Word :=
  if k % 2 = 0 then (4 : Word) <<< 16 ||| draw diPtTristrip diSrcSelAutoIndex indexSizeIgn ignoreVisibility
  else (3 : Word) <<< 16 ||| draw diPtRectlist diSrcSelAutoIndex indexSizeIgn ignoreVisibility

def frameMode (k : ℕ) : Word := a2xxRbModecontrolEdramMode (if k % 2 = 0 then colorDepth else edramCopy)

/-- The draw number `k` from what `initFramebuffer` left: all but the mode is as it was. -/
def frameDraw (g : CommandProcessor) (k : ℕ) : DrawCall :=
  ⟨frameInitiator k, Function.update g.registers regA2xxRbModecontrol (frameMode k), g.vertexShader, g.pixelShader⟩

/-- What `initME` and `initFramebuffer` leave. -/
def configured (s : XenosSetup) (registers : Word → Word) : CommandProcessor := process registers (commandWords s 0)

/-! ## Headers -/

section Headers

variable {g : CommandProcessor} {opcode : BitVec 8} {n : BitVec 16} {xs : List Word}

/-- A count that fits its field. -/
theorem exists_count (h : 0 < n.toNat ∧ n.toNat ≤ 0x4000) :
    ∃ count : BitVec 14, n.setWidth 32 - 1 = count.setWidth 32 ∧ count.toNat + 1 = n.toNat := by
  have hcount : (BitVec.ofNat 14 (n.toNat - 1)).toNat = n.toNat - 1 := by
    rw [BitVec.toNat_ofNat]
    omega
  refine ⟨BitVec.ofNat 14 (n.toNat - 1), BitVec.eq_of_toNat_eq ?_, ?_⟩
  · rw [BitVec.toNat_sub, BitVec.toNat_setWidth, BitVec.toNat_setWidth, hcount, show (1 : Word).toNat = 1 from rfl]
    omega
  · omega

/-- The fields of a header do not meet. -/
theorem header_fields (type : BitVec 2) (count : BitVec 14) (opcode : BitVec 8) :
    let header : Word := type.setWidth 32 <<< 30 ||| count.setWidth 32 <<< 16 ||| opcode.setWidth 32 <<< 8
    header.extractLsb' 30 2 = type ∧ header.extractLsb' 16 14 = count ∧ header.extractLsb' 8 8 = opcode := by
  refine ⟨?_, ?_, ?_⟩
  all_goals
    ext i hi
    simp
    grind

theorem header0_fields (count : BitVec 14) (index : BitVec 15) :
    let header : Word := count.setWidth 32 <<< 16 ||| index.setWidth 32
    header.extractLsb' 30 2 = 0 ∧ header.extractLsb' 16 14 = count ∧ header.setWidth 15 = index := by
  refine ⟨?_, ?_, ?_⟩
  all_goals
    ext i hi
    simp
  all_goals grind

/-- **A command is read as it was written.** -/
theorem run_ringPacket3 (hn : 0 < n.toNat ∧ n.toNat ≤ 0x4000) (hlen : n.toNat ≤ xs.length) :
    Reader.run pm4Size execPacket g (ringPacket3 opcode n :: xs) =
      Reader.run pm4Size execPacket (g.exec opcode (xs.take n.toNat)) (xs.drop n.toNat) := by
  obtain ⟨count, hcount, hn'⟩ := exists_count hn
  have hheader : ringPacket3 opcode n =
      (3 : BitVec 2).setWidth 32 <<< 30 ||| count.setWidth 32 <<< 16 ||| opcode.setWidth 32 <<< 8 := by
    have hmask : opcode.setWidth 32 &&& 0xFF = ((opcode.setWidth 32).setWidth 8).setWidth 32 :=
      and_mask_eq_setWidth rfl (by decide)
    rw [ringPacket3, hcount, hmask, BitVec.setWidth_setWidth_of_le (k := 8) _ (by decide), BitVec.setWidth_eq]
    rfl
  obtain ⟨htype, hfield, hopcode⟩ := header_fields 3 count opcode
  rw [← hheader] at htype hfield hopcode
  have hsize : pm4Size (ringPacket3 opcode n) = some n.toNat := by
    rw [pm4Size, htype, hfield, hn', if_pos (Or.inr rfl)]
  have hexec : ∀ payload, execPacket g (ringPacket3 opcode n) payload = g.exec opcode payload := by
    intro payload
    rw [execPacket, htype, hopcode, if_neg (by simp)]
  rw [run_packet hsize hlen, hexec]

/-- **Registers are set as it was written.** -/
theorem run_ringPacket0 {index : BitVec 16} (hn : 0 < n.toNat ∧ n.toNat ≤ 0x4000) (hlen : n.toNat ≤ xs.length) :
    Reader.run pm4Size execPacket g (ringPacket0 index n :: xs) =
      Reader.run pm4Size execPacket
        (g.setRegisters ((index.setWidth 15).setWidth 32) (xs.take n.toNat)) (xs.drop n.toNat) := by
  obtain ⟨count, hcount, hn'⟩ := exists_count hn
  have hheader : ringPacket0 index n = count.setWidth 32 <<< 16 ||| (index.setWidth 15).setWidth 32 := by
    have hmask : index.setWidth 32 &&& 0x7FFF = ((index.setWidth 32).setWidth 15).setWidth 32 :=
      and_mask_eq_setWidth rfl (by decide)
    have hzero : ∀ x : Word, cpType0Pkt ||| x = x := fun _ => BitVec.zero_or
    rw [ringPacket0, hcount, hmask, hzero, BitVec.setWidth_setWidth_of_le (k := 15) _ (by decide)]
  obtain ⟨htype, hfield, hindex⟩ := header0_fields count (index.setWidth 15)
  rw [← hheader] at htype hfield hindex
  have hsize : pm4Size (ringPacket0 index n) = some n.toNat := by
    rw [pm4Size, htype, hfield, hn', if_pos (Or.inl rfl)]
  have hexec : ∀ payload, execPacket g (ringPacket0 index n) payload =
      g.setRegisters ((index.setWidth 15).setWidth 32) payload := by
    intro payload
    have hmask : ringPacket0 index n &&& 0x7FFF = ((ringPacket0 index n).setWidth 15).setWidth 32 :=
      and_mask_eq_setWidth rfl (by decide)
    rw [execPacket, htype, if_pos rfl, hmask, hindex]
  rw [run_packet hsize hlen, hexec]

end Headers

/-! ## Commands -/

section Commands

variable {g : CommandProcessor} {opcode : BitVec 8} {constant index : Word} {data : List Word}

@[simp] theorem setRegisters_draws : (g.setRegisters index data).draws = g.draws := by
  induction data generalizing g index with
  | nil => rfl
  | cons d data ih => exact ih

/-- What comes of a register when some are set. -/
theorem setRegisters_registers (h : data.length ≤ 2 ^ 32) (r : Word) :
    (g.setRegisters index data).registers r =
      if (r - index).toNat < data.length then data.getD (r - index).toNat 0 else g.registers r := by
  induction data generalizing g index with
  | nil => rfl
  | cons d data ih =>
    rw [List.length_cons] at h ⊢
    rw [CommandProcessor.setRegisters, ih (by omega)]
    by_cases hr : r = index
    · subst hr
      have hlast : (r - (r + 1)).toNat = 2 ^ 32 - 1 := by
        rw [BitVec.toNat_sub, BitVec.toNat_add, show (1 : Word).toNat = 1 from rfl]
        have hr := r.isLt
        omega
      rw [hlast, if_neg (by omega), if_pos (by simp)]
      simp
    · have hpos : (r - index).toNat = (r - (index + 1)).toNat + 1 := by
        have hne : r.toNat ≠ index.toNat := fun he => hr (BitVec.eq_of_toNat_eq he)
        have hr := r.isLt
        have hi := index.isLt
        simp only [BitVec.toNat_sub, BitVec.toNat_add, show (1 : Word).toNat = 1 from rfl]
        omega
      rw [hpos, List.getD_cons_succ, if_congr Nat.succ_lt_succ_iff rfl rfl]
      exact if_congr Iff.rfl rfl (Function.update_of_ne hr _ _)

/-- The register of `CP_REG` is the one that it was given. -/
theorem constantIndex_cpReg {reg : Word} (h : reg - 0x2000 &&& 0xFFFF = reg - 0x2000) :
    constantIndex (cpReg reg) = some reg := by
  have hlow : cpReg reg &&& 0xFFFF = reg - 0x2000 := by
    rw [cpReg, BitVec.and_comm, BitVec.and_or_distrib_left, BitVec.and_comm _ (reg - 0x2000), h]
    simp
  have hhigh : cpReg reg >>> 16 = 4 := by
    rw [cpReg, BitVec.ushiftRight_or_distrib, ← h, BitVec.ushiftRight_and_distrib]
    simp
  rw [constantIndex, if_pos hhigh, hlow, BitVec.add_comm, BitVec.sub_add_cancel]

theorem exec_setConstant (h : constantIndex constant = some index) :
    g.exec cpSetConstant (constant :: data) = g.setRegisters index data := by
  have hexec : g.exec cpSetConstant (constant :: data) = g.setConstant (constant :: data) := rfl
  rw [hexec, CommandProcessor.setConstant, h]

theorem exec_cpReg {reg : Word} (h : reg - 0x2000 &&& 0xFFFF = reg - 0x2000) :
    g.exec cpSetConstant (cpReg reg :: data) = g.setRegisters reg data := exec_setConstant (constantIndex_cpReg h)

theorem exec_other (h : opcode ≠ cpSetConstant ∧ opcode ≠ cpImLoadImmediate ∧ opcode ≠ cpDrawIndx) :
    g.exec opcode data = g := by
  rw [CommandProcessor.exec, if_neg h.1, if_neg h.2.1, if_neg h.2.2]

theorem exec_vertexShader {place : Word} :
    g.exec cpImLoadImmediate (0#32 :: place :: data) = { g with vertexShader := data } := rfl

theorem exec_pixelShader {place : Word} :
    g.exec cpImLoadImmediate (1#32 :: place :: data) = { g with pixelShader := data } := rfl

/-- A packet adds draws, if anything. -/
theorem execPacket_draws (g : CommandProcessor) (header : Word) (payload : List Word) :
    g.draws <+: (execPacket g header payload).draws := by
  unfold execPacket CommandProcessor.exec
  split
  · rw [setRegisters_draws]
  split
  · unfold CommandProcessor.setConstant
    split
    · split
      · rw [setRegisters_draws]
      · exact List.prefix_rfl
    · exact List.prefix_rfl
  split
  · unfold CommandProcessor.loadImmediate
    split
    · split <;> exact List.prefix_rfl
    · exact List.prefix_rfl
  split
  · unfold CommandProcessor.drawIndx
    split
    · exact List.prefix_append _ _
    · exact List.prefix_rfl
  · exact List.prefix_rfl

end Commands

/-! ## Setup -/

section Setup

variable {s : XenosSetup} {registers : Word → Word} {words xs : List Word}

theorem process_append (h : Complete pm4Size words) (xs : List Word) :
    process registers (words ++ xs) =
      (Reader.run pm4Size execPacket (process registers words) xs).state := by
  rw [process, run_append h]
  rfl

theorem complete_commandWords (s : XenosSetup) (n : ℕ) : Complete pm4Size (commandWords s n) := by
  induction n with
  | zero =>
    have h := initME_complete.append (initFramebuffer_complete s)
    simpa [commandWords] using h
  | succ n ih =>
    rw [commandWords_succ]
    exact ih.append handleTimer_complete

/-- `initME` sets no register. -/
theorem run_initME (g : CommandProcessor) : (Reader.run pm4Size execPacket g initME).state = g := rfl

theorem configured_eq : configured s registers =
    (Reader.run pm4Size execPacket (.reset registers) (initFramebuffer s)).state := by
  have hwords : commandWords s 0 = initME ++ initFramebuffer s := List.append_nil _
  rw [configured, hwords, process_append initME_complete, process, run_initME]

/-- What `initFramebuffer` leaves for the draws. -/
structure Configured (s : XenosSetup) (g : CommandProcessor) : Prop where
  registers : FrameRegisters s g.registers
  vertexShader : g.vertexShader.length = 21
  pixelShader : g.pixelShader.length = 12
  draws : g.draws = []

set_option maxRecDepth 1000 in
theorem configured_spec (s : XenosSetup) (registers : Word → Word) : Configured s (configured s registers) := by
  rw [configured_eq]
  -- packet by packet
  simp (disch := simp) only [initFramebuffer, run_ringPacket3, run_ringPacket0, BitVec.ofNat_eq_ofNat, BitVec.reduceAdd,
    BitVec.toNat_ofNat, Nat.reducePow, Nat.reduceMod, List.take_succ_cons, List.take_zero, List.drop_succ_cons,
    List.drop_zero]
  have hvertices : constantIndex (1#32 <<< 16 ||| 120#32) = some fetchVertices := rfl
  have htexture : constantIndex 65536#32 = some fetchTexture := rfl
  simp (disch := decide) only [exec_cpReg, exec_setConstant hvertices, exec_setConstant htexture, exec_vertexShader,
    exec_pixelShader, exec_other]
  -- the last packet that sets a register decides
  refine ⟨⟨?_, ?_, ?_, ?_, ?_, ?_, ?_, ?_, ?_, ?_⟩, rfl, rfl, ?_⟩
  all_goals
    simp [setRegisters_registers, Reader.run, Reader.idle, CommandProcessor.reset, fetchVertices, fetchTexture,
      regA2xxRbSurfaceInfo, regA2xxPaScScreenScissorTl, regA2xxPaScWindowOffset, regA2xxPaScWindowScissorTl,
      regA2xxVgtMaxVtxIndx, regA2xxVgtIndxOffset, regA2xxRbColorMask, regA2xxRbStencilrefmaskBf, regA2xxRbAlphaRef,
      regA2xxPaClVportXscale, regA2xxSqProgramCntl, regA2xxSqContextMisc, regA2xxSqInterpolatorCntl,
      regA2xxRbDepthcontrol, regA2xxRbBlendControl, regA2xxRbColorcontrol, regA2xxPaClClipCntl, regA2xxPaSuScModeCntl,
      regA2xxPaClVteCntl, regA2xxPaScAaConfig, regA2xxPaSuVtxCntl, regA2xxPaClGbVertClipAdj, regA2xxSqVsConst,
      regA2xxSqPsConst, regA2xxPaScAaMask, regA2xxVgtVertexReuseBlockCntl, regA2xxRbCopyControl, regA2xxRbCopyDestInfo,
      regA2xxSqInstStoreManagment]

end Setup

/-! ## Ticks -/

section Ticks

variable {s : XenosSetup} {c g : CommandProcessor} {words xs : List Word} {n : ℕ}

/-- A state after `n` ticks: all is as before them, except for the mode and the draws. -/
structure AfterTicks (c : CommandProcessor) (n : ℕ) (g : CommandProcessor) : Prop where
  registers : ∀ mode, Function.update g.registers regA2xxRbModecontrol mode =
    Function.update c.registers regA2xxRbModecontrol mode
  vertexShader : g.vertexShader = c.vertexShader
  pixelShader : g.pixelShader = c.pixelShader
  draws : g.draws = c.draws ++ (List.range (2 * n)).map (frameDraw c)

theorem run_handleTimer (g : CommandProcessor) : (Reader.run pm4Size execPacket g handleTimer).state =
    { g with
      registers := Function.update g.registers regA2xxRbModecontrol (frameMode 1)
      draws := g.draws ++ [frameDraw g 0, frameDraw g 1] } := by
  have hmode := Function.update_idem (frameMode 0) (frameMode 1) g.registers (a := regA2xxRbModecontrol)
  have hrun : (Reader.run pm4Size execPacket g handleTimer).state =
      { g with
        registers := Function.update (Function.update g.registers regA2xxRbModecontrol (frameMode 0))
          regA2xxRbModecontrol (frameMode 1)
        draws := g.draws ++ [frameDraw g 0] ++
          [frameDraw { g with registers := Function.update g.registers regA2xxRbModecontrol (frameMode 0) } 1] } := rfl
  rw [hrun, hmode, List.append_assoc]
  simp only [frameDraw, hmode]
  rfl

theorem frameDraw_mod (c : CommandProcessor) (n k : ℕ) : frameDraw c (2 * n + k) = frameDraw c k := by
  simp [frameDraw, frameInitiator, frameMode]

theorem AfterTicks.frameDraw_eq (h : AfterTicks c n g) (k : ℕ) : frameDraw g k = frameDraw c k := by
  rw [frameDraw, h.registers, h.vertexShader, h.pixelShader]
  rfl

/-- **A tick** draws twice. -/
theorem AfterTicks.tick (h : AfterTicks c n g) :
    AfterTicks c (n + 1) (Reader.run pm4Size execPacket g handleTimer).state := by
  rw [run_handleTimer]
  refine ⟨fun mode => ?_, h.vertexShader, h.pixelShader, ?_⟩
  · rw [Function.update_idem]
    exact h.registers mode
  · have hrange : List.range (2 * (n + 1)) = List.range (2 * n) ++ [2 * n + 0, 2 * n + 1] := by
      rw [Nat.mul_succ, List.range_succ, List.range_succ, List.append_assoc]
      rfl
    rw [hrange, List.map_append, List.map_cons, List.map_cons, List.map_nil, frameDraw_mod, frameDraw_mod,
      ← h.frameDraw_eq, ← h.frameDraw_eq, ← List.append_assoc, ← h.draws]

theorem process_commandWords (s : XenosSetup) (registers : Word → Word) (n : ℕ) :
    AfterTicks (configured s registers) n (process registers (commandWords s n)) := by
  induction n with
  | zero => exact ⟨fun _ => rfl, rfl, rfl, (List.append_nil _).symm⟩
  | succ n ih =>
    have htick : wordsOf timerTick = handleTimer := by rw [timerTick, wordsOf_map]; rfl
    rw [commandWords_succ, process_append (complete_commandWords s n), htick]
    exact ih.tick

/-- The draws of `n` ticks. -/
theorem draws_commandWords (s : XenosSetup) (registers : Word → Word) (n : ℕ) :
    (process registers (commandWords s n)).draws = (List.range (2 * n)).map (frameDraw (configured s registers)) := by
  rw [(process_commandWords s registers n).draws, (configured_spec s registers).draws, List.nil_append]

theorem draws_mono (registers : Word → Word) (h : xs <+: words) :
    (process registers xs).draws <+: (process registers words).draws :=
  output_prefix execPacket_draws _ h

end Ticks

/-! ## Runs -/

section Runs

variable {s : XenosSetup} {w : RingWorld} {es : List (Edge RingWorld RingLabel)}

/-- What is known of the draws once the GPU has read these words of the ring. -/
structure GpuDraws (s : XenosSetup) (registers : Word → Word) (consumed : List Word) : Prop where
  read : ∃ n, consumed <+: commandWords s n
  setup : Configured s (configured s registers)
  frames : ∀ k (h : k < (process registers consumed).draws.length),
    (process registers consumed).draws[k] = frameDraw (configured s registers) k
  least : ∀ n, commandWords s n <+: consumed → 2 * n ≤ (process registers consumed).draws.length
  most : ∀ n, consumed <+: commandWords s n → (process registers consumed).draws.length ≤ 2 * n

/-- **Two draws a tick**, over whole runs in which no word is overwritten. -/
theorem gpu_draws (h : Run (RingInit s) RingStep es w) (hroom : ∀ e ∈ es, Finds 8192 e.pre e.label)
    (registers : Word → Word) : GpuDraws s registers w.consumed := by
  have hread := (h.guarded (I := RingInv) (fun _ => ringInv_init) (fun _ _ _ => ringInv_step) hroom).consumed
  have hpackets := h.invariant (I := PacketsInv s) (fun _ => packetsInv_init) (fun _ _ _ => packetsInv_step)
  obtain ⟨n, hwords⟩ := hpackets.words
  have hprefix : w.consumed <+: commandWords s n := by
    rw [← hwords, hread]
    exact (List.take_prefix _ _).trans (List.prefix_append _ _)
  refine ⟨⟨n, hprefix⟩, configured_spec s registers, fun k hk => ?_, fun m hm => ?_, fun m hm => ?_⟩
  · have hdraws := draws_mono registers hprefix
    rw [draws_commandWords] at hdraws
    have hget := hdraws.getElem hk
    rw [hget, List.getElem_map, List.getElem_range]
  · have hdraws := (draws_mono registers hm).length_le
    rwa [draws_commandWords, List.length_map, List.length_range] at hdraws
  · have hdraws := (draws_mono registers hm).length_le
    rwa [draws_commandWords, List.length_map, List.length_range] at hdraws

/-- The first frame. -/
theorem gpu_draws_tick : ∃ es w, Run (RingInit ⟨640, 480, 0x1E000000, 0x1E400000, 0x1000, 0x2000⟩) RingStep es w ∧
    (process (fun _ => 0) w.consumed).draws =
      [frameDraw (configured ⟨640, 480, 0x1E000000, 0x1E400000, 0x1000, 0x2000⟩ fun _ => 0) 0,
        frameDraw (configured ⟨640, 480, 0x1E000000, 0x1E400000, 0x1000, 0x2000⟩ fun _ => 0) 1] ∧
      GpuDraws ⟨640, 480, 0x1E000000, 0x1E400000, 0x1000, 0x2000⟩ (fun _ => 0) w.consumed := by
  obtain ⟨w, ⟨es, h, hroom⟩, hwords, hread⟩ := reaches_tick ⟨640, 480, 0x1E000000, 0x1E400000, 0x1000, 0x2000⟩
  refine ⟨es, w, h, ?_, gpu_draws h (fun e he => (hroom e he).mono (by decide)) _⟩
  have hconsumed : w.consumed = commandWords ⟨640, 480, 0x1E000000, 0x1E400000, 0x1000, 0x2000⟩ 1 :=
    hread.trans hwords
  rw [hconsumed, draws_commandWords]
  rfl

end Runs

end Osx360.Graphics
