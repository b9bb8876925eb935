import ShadowOS.Mm.Runs

/-!
# Setting up paging (`vmm.c`)
-/

namespace ShadowOS.Mm

/-- The addresses that the linker and the bootloader give to the kernel. -/
structure KernelLayout where
  limineRequestsStart : U64
  limineRequestsEnd : U64
  kernelStackTop : U64
  textStart : U64
  textEnd : U64
  rodataStart : U64
  rodataEnd : U64
  dataStart : U64
  dataEnd : U64
  printkBuffStart : U64
  printkBuffEnd : U64
  kernelPhysBase : U64
  kernelVirtBase : U64
deriving DecidableEq, Repr

/-- A loop from `a` below `stop` in steps of a page, which maps a page in every turn. -/
def mapPages (pagemap : U64) (virt phys : U64 → U64) (flags stop : U64) : Nat → U64 → State → State
  | 0, _, k => k
  | fuel + 1, a, k =>
      if a < stop then mapPages pagemap virt phys flags stop fuel (a + pageSize) (vmmMap k pagemap (virt a) (phys a) flags)
      else k

/-- A part of the kernel's image. There are `2 ^ 52` pages below the end of the address space. -/
def mapImage (layout : KernelLayout) (pagemap first last flags : U64) (k : State) : State :=
  mapPages pagemap id (fun a => a - layout.kernelVirtBase + layout.kernelPhysBase) flags (alignUp last pageSize) (2 ^ 52)
    (alignDown first pageSize) k

/-- `none` stands for the halt when there is no pagemap. -/
def vmmInit (layout : KernelLayout) (k : State) : Option State :=
  let (page, k) := pmmRequestPage k
  let kernelPagemap := k.higherHalf page
  let hhdmOffset := k.hhdmOffset
  let k := { k with kernelPagemap := kernelPagemap }
  if kernelPagemap = 0 then none
  else
    let k := k.memset kernelPagemap 0 4096
    let k := mapImage layout kernelPagemap layout.limineRequestsStart layout.limineRequestsEnd (vmmPresent ||| vmmWrite) k
    let kernelStackTop := alignUp layout.kernelStackTop pageSize
    let k := mapPages kernelPagemap id (fun stack => stack - hhdmOffset) (vmmPresent ||| vmmWrite ||| vmmNx) kernelStackTop
      (2 ^ 52) (kernelStackTop - 65535) k
    let k := mapImage layout kernelPagemap layout.textStart layout.textEnd vmmPresent k
    let k := mapImage layout kernelPagemap layout.rodataStart layout.rodataEnd (vmmPresent ||| vmmNx) k
    let k := mapImage layout kernelPagemap layout.dataStart layout.dataEnd (vmmPresent ||| vmmWrite ||| vmmNx) k
    let k := mapImage layout kernelPagemap layout.printkBuffStart layout.printkBuffEnd (vmmPresent ||| vmmWrite) k
    let k := mapPages kernelPagemap (fun gb4 => gb4 + hhdmOffset) id (vmmPresent ||| vmmWrite) 0x100000000 (2 ^ 52) 0 k
    some (vmmSwitchPagemap k kernelPagemap)

/-! ## What it maps -/

/-- The values of the loop variable. -/
def loopAddrs (stop : U64) : Nat → U64 → List U64
  | 0, _ => []
  | fuel + 1, a => if a < stop then a :: loopAddrs stop fuel (a + pageSize) else []

def VmmOp.IsMap : VmmOp → Prop
  | .map _ _ _ => True
  | .unmap _ => False

def pagesOps (virt phys : U64 → U64) (flags stop start : U64) : List VmmOp :=
  (loopAddrs stop (2 ^ 52) start).map fun a => .map (virt a) (phys a) flags

def imageOps (layout : KernelLayout) (first last flags : U64) : List VmmOp :=
  pagesOps id (fun a => a - layout.kernelVirtBase + layout.kernelPhysBase) flags (alignUp last pageSize) (alignDown first pageSize)

/-- The image of the kernel and its stack. -/
def kernelOps (layout : KernelLayout) (hhdmOffset : U64) : List VmmOp :=
  imageOps layout layout.limineRequestsStart layout.limineRequestsEnd (vmmPresent ||| vmmWrite) ++
  pagesOps id (fun stack => stack - hhdmOffset) (vmmPresent ||| vmmWrite ||| vmmNx) (alignUp layout.kernelStackTop pageSize)
    (alignUp layout.kernelStackTop pageSize - 65535) ++
  imageOps layout layout.textStart layout.textEnd vmmPresent ++
  imageOps layout layout.rodataStart layout.rodataEnd (vmmPresent ||| vmmNx) ++
  imageOps layout layout.dataStart layout.dataEnd (vmmPresent ||| vmmWrite ||| vmmNx) ++
  imageOps layout layout.printkBuffStart layout.printkBuffEnd (vmmPresent ||| vmmWrite)

/-- The direct map. -/
def directOps (hhdmOffset : U64) : List VmmOp :=
  pagesOps (fun gb4 => gb4 + hhdmOffset) id (vmmPresent ||| vmmWrite) 0x100000000 0

/-- The paths to the tables that an operation needs are added to those that are there. -/
def addTables (paths : List (List (Fin 512))) : VmmOp → List (List (Fin 512))
  | .map virt _ _ =>
      ((paths.insert [ix virt 39]).insert [ix virt 39, ix virt 30]).insert [ix virt 39, ix virt 30, ix virt 21]
  | .unmap _ => paths

/-- The paths to the tables under a new root after the operations. -/
def tablePaths (ops : List VmmOp) : List (List (Fin 512)) := ops.foldl addTables [[]]

/-- The number of frames that `vmm_init` takes for the root and the other tables. -/
def tablesNeeded (layout : KernelLayout) (hhdmOffset : U64) : Nat :=
  (tablePaths (kernelOps layout hhdmOffset ++ directOps hhdmOffset)).length

/-! ## What it should do -/

/-- The kernel reaches every free page in the direct map. -/
def FramesMapped (k : State) : Prop := ∀ p ∈ k.freePages, virtToPhys k k.kernelPagemap (p + k.hhdmOffset) = p

/-- The page lies below 4 GiB, or the image or the stack of the kernel happens to be mapped there. -/
def Reached (layout : KernelLayout) (hhdmOffset p : U64) : Prop :=
  p.toNat < 2 ^ 32 ∨
    2 ^ 32 ≤ p.toNat % 2 ^ 48 ∧ VmmOp.lookup (kernelOps layout hhdmOffset) (p + hhdmOffset) = p

end ShadowOS.Mm
