import Mathlib.Data.Nat.Notation
import Osx360.Lib.Bits

/-!
# Commands

The words that `initME` and `initFramebuffer` from `XenosController_Setup.cpp` and `handleTimer` from
`XenosController.cpp` pass to `writeRing`, in order.
-/

set_option autoImplicit false

namespace Osx360.Graphics

open Osx360.Lib

/-! ## Packets -/

def cpType0Pkt : Word := 0
def cpType3Pkt : Word := 0xC0000000

def cpDrawIndx : BitVec 8 := 34
def cpImLoadImmediate : BitVec 8 := 43
def cpSetConstant : BitVec 8 := 45
def cpInvalidateState : BitVec 8 := 59
def cpWaitRegEq : BitVec 8 := 82

/-- The header that `writeRingPacket0` writes; `length - 1` is taken in 32 bits. -/
def ringPacket0 (index length : BitVec 16) : Word :=
  cpType0Pkt ||| (length.setWidth 32 - 1) <<< 16 ||| index.setWidth 32 &&& 0x7FFF

/-- The header that `writeRingPacket3` writes. -/
def ringPacket3 (opcode : BitVec 8) (length : BitVec 16) : Word :=
  cpType3Pkt ||| (length.setWidth 32 - 1) <<< 16 ||| (opcode.setWidth 32 &&& 0xFF) <<< 8

def cpReg (reg : Word) : Word := (4 : Word) <<< 16 ||| (reg - 0x2000)

/-! ## Registers -/

def regA2xxRbSurfaceInfo : Word := 0x2000
def regA2xxPaScScreenScissorTl : Word := 0x200E
def regA2xxPaScWindowOffset : Word := 0x2080
def regA2xxPaScWindowScissorTl : Word := 0x2081
def regA2xxVgtMaxVtxIndx : Word := 0x2100
def regA2xxVgtIndxOffset : Word := 0x2102
def regA2xxRbColorMask : Word := 0x2104
def regA2xxRbStencilrefmaskBf : Word := 0x210C
def regA2xxRbAlphaRef : Word := 0x210E
def regA2xxPaClVportXscale : Word := 0x210F
def regA2xxSqProgramCntl : Word := 0x2180
def regA2xxSqContextMisc : Word := 0x2181
def regA2xxSqInterpolatorCntl : Word := 0x2182
def regA2xxRbDepthcontrol : Word := 0x2200
def regA2xxRbBlendControl : Word := 0x2201
def regA2xxRbColorcontrol : Word := 0x2202
def regA2xxPaClClipCntl : Word := 0x2204
def regA2xxPaSuScModeCntl : Word := 0x2205
def regA2xxPaClVteCntl : Word := 0x2206
def regA2xxRbModecontrol : Word := 0x2208
def regA2xxPaScAaConfig : Word := 0x2301
def regA2xxPaSuVtxCntl : Word := 0x2302
def regA2xxPaClGbVertClipAdj : Word := 0x2303
def regA2xxSqVsConst : Word := 0x2307
def regA2xxSqPsConst : Word := 0x2308
def regA2xxPaScAaMask : Word := 0x2312
def regA2xxVgtVertexReuseBlockCntl : Word := 0x2316
def regA2xxRbCopyControl : Word := 0x2318
def regA2xxRbCopyDestInfo : Word := 0x231B
def regA2xxSqInstStoreManagment : BitVec 16 := 0xD02

/-! ## Fields -/

/-- `(val << SHIFT) & MASK`. -/
def field (shift : ℕ) (mask val : Word) : Word := val <<< shift &&& mask

def a2xxSqContextMiscScSampleCntl : Word → Word := field 2 0xC
def a2xxPaClVteCntlVportXScaleEna : Word := 0x1
def a2xxPaClVteCntlVportXOffsetEna : Word := 0x2
def a2xxPaClVteCntlVportYScaleEna : Word := 0x4
def a2xxPaClVteCntlVportYOffsetEna : Word := 0x8
def a2xxPaClVteCntlVtxW0Fmt : Word := 0x400
def a2xxPaSuVtxCntlPixCenter : Word → Word := field 0 0x1
def a2xxPaSuScModeCntlProvokingVtxLast : Word := 0x80000
def a2xxPaSuScModeCntlFrontPtype : Word → Word := field 5 0xE0
def a2xxPaSuScModeCntlBackPtype : Word → Word := field 8 0x700
def a2xxRbBlendControlColorSrcblend : Word → Word := field 0 0x1F
def a2xxRbBlendControlAlphaSrcblend : Word → Word := field 16 0x1F0000
def a2xxRbBlendControlColorDestblend : Word → Word := field 8 0x1F00
def a2xxRbBlendControlAlphaDestblend : Word → Word := field 24 0x1F000000
def a2xxRbColorcontrolBlendDisable : Word := 0x20
def a2xxRbColorMaskWriteRed : Word := 0x1
def a2xxRbColorMaskWriteGreen : Word := 0x2
def a2xxRbColorMaskWriteBlue : Word := 0x4
def a2xxRbColorMaskWriteAlpha : Word := 0x8
def a2xxRbDepthInfoDepthBase (val : Word) : Word := field 0 0x7FF (val >>> 10)
def a2xxSqTex0Pitch (val : Word) : Word := field 22 0xFFC00000 (val >>> 5)
def a2xxSqTex0ClampX : Word → Word := field 10 0x1C00
def a2xxSqTex0ClampY : Word → Word := field 13 0xE000
def a2xxSqTex2Width : Word → Word := field 0 0x1FFF
def a2xxSqTex2Height : Word → Word := field 13 0x3FFE000
def a2xxSqTex3SwizX : Word → Word := field 1 0xE
def a2xxSqTex3SwizY : Word → Word := field 4 0x70
def a2xxSqTex3SwizZ : Word → Word := field 7 0x380
def a2xxSqTex3SwizW : Word → Word := field 10 0x1C00
def a2xxSqTex3XyMagFilter : Word → Word := field 19 0x180000
def a2xxSqTex3XyMinFilter : Word → Word := field 21 0x600000
def a2xxRbCopyDestInfoFormat : Word → Word := field 7 0x1F80
def a2xxRbCopyDestInfoSwap : Word → Word := field 24 0x3000000
def a2xxRbModecontrolEdramMode : Word → Word := field 0 0x7

def centersOnly : Word := 1
def pixcenterOgl : Word := 1
def pcDrawTriangles : Word := 2
def factorZero : Word := 0
def factorOne : Word := 1
def sqTexX : Word := 0
def sqTexY : Word := 1
def sqTexZ : Word := 2
def sqTexW : Word := 3
def sqTexWrap : Word := 0
def sqTexFilterBilinear : Word := 1
def k8888 : Word := 0
def fmt8888 : Word := 6
def colorxS8888 : Word := 6
def colorDepth : Word := 4
def edramCopy : Word := 6
def diPtTristrip : Word := 6
def diPtRectlist : Word := 8
def diSrcSelAutoIndex : Word := 2
def indexSizeIgn : Word := 0
def ignoreVisibility : Word := 0

/-! ## The words -/

/-- The display and the buffers that the commands point to. -/
structure XenosSetup where
  fbWidth : Word
  fbHeight : Word
  fbPhysAddr : Word
  gpuPhysAddr : Word
  texCoordsPhys : Word
  triagPhys : Word

/-- The bits of a `float`. -/
def fui (f : Float32) : Word := f.toBits.toBitVec

def xy32 (x y : Word) : Word := x ||| y <<< 16

def alignTo (v a : Word) : Word := (v + a - 1) &&& ~~~(a - 1)

def draw (primType sourceSelect indexSize visCullMode : Word) : Word :=
  primType <<< 0 ||| sourceSelect <<< 6 ||| (indexSize &&& 1) <<< 11 ||| (indexSize >>> 1) <<< 13 |||
    visCullMode <<< 9 ||| (1 : Word) <<< 14

def initME : List Word :=
  [0xC0114800, 0x000003FF, 0x00000000, 0x00000000,
    0x2000 - 0x2000, 0x2080 - 0x2000, 0x2100 - 0x2000, 0x2180 - 0x2000,
    0x2200 - 0x2000, 0x2280 - 0x2000, 0x2300 - 0x2000, 0x2380 - 0x2000,
    0x80000180, 0x00000007, 0x00000000, 0x00000000, 0x00000000, 0x00000000, 0x00000000]

def initFramebuffer (s : XenosSetup) : List Word :=
  let halfWidth : Float32 := (UInt32.ofBitVec s.fbWidth).toFloat32 * 0.5
  let halfHeight : Float32 := (UInt32.ofBitVec s.fbHeight).toFloat32 * 0.5
  [ringPacket3 cpInvalidateState 1, 0x00007FFF,
    ringPacket0 regA2xxSqInstStoreManagment 1, 0x00000180,
    ringPacket3 cpSetConstant 2, cpReg regA2xxSqVsConst, 0x00100020,
    ringPacket3 cpSetConstant 2, cpReg regA2xxSqPsConst, 0x000E0120,
    ringPacket3 cpSetConstant 3, cpReg regA2xxVgtMaxVtxIndx, 0xFFFFFFFF, 0x00000000,
    ringPacket3 cpSetConstant 2, cpReg regA2xxVgtIndxOffset, 0x00000000,
    ringPacket3 cpSetConstant 2, cpReg regA2xxVgtVertexReuseBlockCntl, 0x0000003B,
    ringPacket3 cpSetConstant 2, cpReg regA2xxSqContextMisc, a2xxSqContextMiscScSampleCntl centersOnly,
    ringPacket3 cpSetConstant 2, cpReg regA2xxSqInterpolatorCntl, 0xFFFFFFFF,
    ringPacket3 cpSetConstant 2, cpReg regA2xxPaScAaConfig, 0x00000000,
    ringPacket3 cpSetConstant 2, cpReg regA2xxPaScAaMask, 0x0000FFFF,
    ringPacket3 cpSetConstant 2, cpReg regA2xxPaScWindowOffset, 0x00000000,
    ringPacket3 cpSetConstant 5, cpReg regA2xxPaClVportXscale,
    fui halfWidth, fui halfWidth, fui (-halfHeight), fui halfHeight,
    ringPacket3 cpSetConstant 2, cpReg regA2xxPaClClipCntl, 0x00000000,
    ringPacket3 cpSetConstant 2, cpReg regA2xxPaClVteCntl,
    a2xxPaClVteCntlVtxW0Fmt ||| a2xxPaClVteCntlVportXScaleEna ||| a2xxPaClVteCntlVportXOffsetEna |||
      a2xxPaClVteCntlVportYScaleEna ||| a2xxPaClVteCntlVportYOffsetEna,
    ringPacket3 cpSetConstant 5, cpReg regA2xxPaClGbVertClipAdj, fui 1.0, fui 1.0, fui 1.0, fui 1.0,
    ringPacket3 cpSetConstant 2, cpReg regA2xxPaSuVtxCntl, a2xxPaSuVtxCntlPixCenter pixcenterOgl,
    ringPacket3 cpSetConstant 2, cpReg regA2xxPaSuScModeCntl,
    a2xxPaSuScModeCntlProvokingVtxLast ||| a2xxPaSuScModeCntlFrontPtype pcDrawTriangles |||
      a2xxPaSuScModeCntlBackPtype pcDrawTriangles,
    ringPacket3 cpSetConstant 3, cpReg regA2xxPaScWindowScissorTl, xy32 0 0, xy32 s.fbWidth s.fbHeight,
    ringPacket3 cpSetConstant 3, cpReg regA2xxPaScScreenScissorTl, xy32 0 0, xy32 s.fbWidth s.fbHeight,
    ringPacket3 cpSetConstant 2, cpReg regA2xxRbBlendControl,
    a2xxRbBlendControlColorSrcblend factorOne ||| a2xxRbBlendControlAlphaSrcblend factorOne |||
      a2xxRbBlendControlColorDestblend factorZero ||| a2xxRbBlendControlAlphaDestblend factorZero,
    ringPacket3 cpSetConstant 2, cpReg regA2xxRbColorcontrol, a2xxRbColorcontrolBlendDisable,
    ringPacket3 cpSetConstant 2, cpReg regA2xxRbCopyDestInfo, 0x1000A80,
    ringPacket3 cpSetConstant 2, cpReg regA2xxRbAlphaRef, 0x00000000,
    ringPacket3 cpWaitRegEq 4, 0x000005D0, 0x00000000, 0x5F601000, 0x00000001,
    ringPacket3 cpInvalidateState 1, 0x00000300,
    ringPacket3 cpSetConstant 2, cpReg regA2xxRbColorMask,
    a2xxRbColorMaskWriteRed ||| a2xxRbColorMaskWriteGreen ||| a2xxRbColorMaskWriteBlue ||| a2xxRbColorMaskWriteAlpha,
    ringPacket3 cpSetConstant 2, cpReg regA2xxRbDepthcontrol, 0,
    ringPacket3 cpSetConstant 3, cpReg regA2xxRbStencilrefmaskBf, 0x00000000, 0x00000000,
    ringPacket3 cpSetConstant 4, cpReg regA2xxRbSurfaceInfo, alignTo s.fbWidth 32, k8888 <<< 16,
    a2xxRbDepthInfoDepthBase (alignTo s.fbWidth 32 * alignTo s.fbHeight 32),
    ringPacket3 cpSetConstant 7, (0x1 : Word) <<< 16 ||| 0x78, s.triagPhys ||| 3, (0x2 : Word) ||| 48,
    s.texCoordsPhys ||| 3, (0x2 : Word) ||| 32, 0x00000000, 0x00000000,
    ringPacket3 cpSetConstant 7, 0x00010000,
    a2xxSqTex0Pitch (alignTo s.fbWidth 32) ||| a2xxSqTex0ClampX sqTexWrap ||| a2xxSqTex0ClampY sqTexWrap,
    s.fbPhysAddr ||| fmt8888, a2xxSqTex2Height (s.fbHeight - 1) ||| a2xxSqTex2Width (s.fbWidth - 1),
    a2xxSqTex3SwizX sqTexY ||| a2xxSqTex3SwizY sqTexZ ||| a2xxSqTex3SwizZ sqTexW ||| a2xxSqTex3SwizW sqTexX |||
      a2xxSqTex3XyMagFilter sqTexFilterBilinear ||| a2xxSqTex3XyMinFilter sqTexFilterBilinear,
    0x00000000, 0x00000200,
    ringPacket3 cpSetConstant 5, cpReg regA2xxRbCopyControl, 0x00100000, s.gpuPhysAddr, xy32 s.fbWidth s.fbHeight,
    a2xxRbCopyDestInfoFormat colorxS8888 ||| a2xxRbCopyDestInfoSwap 1,
    ringPacket3 cpImLoadImmediate (2 + 21), 0x00000000, 0x00000015,
    0x000D2003, 0x00001000, 0xC2000000, 0x00001005, 0x00001000, 0xC4000000, 0x00001006, 0x00002000, 0x00000000,
    0x0B482000, 0x00253B48, 0x00000002, 0x01481000, 0x40393A88, 0x00000003, 0x140F803E, 0x00000000, 0xE2010100,
    0x140F8000, 0x00000000, 0xE2020200,
    ringPacket3 cpSetConstant 2, cpReg regA2xxSqProgramCntl, 0x10030002,
    ringPacket3 cpImLoadImmediate (2 + 12), 0x00000001, 0x0000000C,
    0x00031002, 0x00001000, 0xC4000000, 0x00001003, 0x00002000, 0x00000000, 0x10000001, 0x1FFFF688, 0x00000000,
    0x140F8000, 0x00000000, 0xE2000000]

/-- The words of one call of `handleTimer`. -/
def handleTimer : List Word :=
  [ringPacket3 cpSetConstant 2, cpReg regA2xxRbModecontrol, a2xxRbModecontrolEdramMode colorDepth,
    ringPacket3 cpDrawIndx 2, 0x00000000,
    (4 : Word) <<< 16 ||| draw diPtTristrip diSrcSelAutoIndex indexSizeIgn ignoreVisibility,
    ringPacket3 cpSetConstant 2, cpReg regA2xxRbModecontrol, a2xxRbModecontrolEdramMode edramCopy,
    ringPacket3 cpDrawIndx 2, 0x00000000,
    (3 : Word) <<< 16 ||| draw diPtRectlist diSrcSelAutoIndex indexSizeIgn ignoreVisibility]

end Osx360.Graphics
