import ShadowOS.Mm.State

/-!
# The page frame allocator (`pmm.c`)

A stack of free pages that is kept in an array inside the memory it manages.
-/

namespace ShadowOS.Mm

def cacheSize : Nat := 128
def secondaryCacheSize : Nat := 64

/-! ## The validity test and its caches -/

def hashPage (addr : U64) : U64 :=
  let prime1 : U64 := 0x9e3779b97f4a7c15
  let prime2 : U64 := 0x7f4a7c159e3779b9
  let hash := addr
  let hash := (hash ^^^ (hash >>> 30)) * prime1
  let hash := (hash ^^^ (hash >>> 27)) * prime2
  let hash := hash ^^^ (hash >>> 31)
  hash % BitVec.ofNat 64 cacheSize

def isInSecondaryCache (k : State) (pageAddr : U64) : Bool :=
  let e := k.secondaryCache (hashPage pageAddr).toNat
  e.isValid && e.pageAddr == pageAddr

def isInPrimaryCache (k : State) (pageAddr : U64) : Bool :=
  let e := k.validPageCache (hashPage pageAddr).toNat
  e.isValid && e.pageAddr == pageAddr

def updateCacheAccess (k : State) (pageAddr : U64) : State :=
  let cacheIdx := (hashPage pageAddr).toNat
  if isInPrimaryCache k pageAddr then
    let e := k.validPageCache cacheIdx
    { k with validPageCache := Function.update k.validPageCache cacheIdx { e with accessCount := e.accessCount + 1 } }
  else if isInSecondaryCache k pageAddr then
    match (List.range secondaryCacheSize).find? (fun i => (k.secondaryCache i).pageAddr == pageAddr) with
    | some i =>
        let e := k.secondaryCache i
        { k with
          validPageCache := Function.update k.validPageCache cacheIdx { e with accessCount := 1 }
          secondaryCache := Function.update k.secondaryCache i { e with isValid := false } }
    | none => k
  else k

/-- The scan of the memory map in `is_page_valid`. -/
def isInMemmap (memmap : List MemmapEntry) (reclaimed : Bool) (pageAddr : U64) : Bool :=
  memmap.any fun e =>
    (e.type == .usable || (e.type == .bootloaderReclaimable && reclaimed)) &&
      (e.base ≤ pageAddr && pageAddr < e.base + e.length)

def isPageValid (k : State) (pageAddr : U64) : Bool × State :=
  if isInPrimaryCache k pageAddr then (true, updateCacheAccess k pageAddr)
  else if isInMemmap k.memmap k.reclaimed pageAddr then (true, updateCacheAccess k pageAddr)
  else (false, k)

/-! ## Initialisation -/

def freePages (memmap : List MemmapEntry) : U64 :=
  memmap.foldl (fun n e => if e.type = .usable then n + divRoundUp e.length pageSize else n) 0

def arraySize (memmap : List MemmapEntry) : U64 := alignUp (freePages memmap * 8) pageSize

/-- The first usable entry that is large enough gives its first `size` bytes to the stack array. -/
def carveArray (size free : U64) : List MemmapEntry → State → List MemmapEntry × State
  | [], k => ([], k)
  | e :: es, k =>
      if size ≤ e.length ∧ e.type = .usable then
        let base := e.base + size
        let k := { k with
          stack.pages := k.higherHalf e.base
          validPageCache := fun j =>
            if j < cacheSize ∧ j < free.toNat then ⟨base + BitVec.ofNat 64 j * pageSize, true, 0⟩
            else k.validPageCache j }
        ({ e with base := base, length := e.length - size } :: es, k)
      else
        let (es, k) := carveArray size free es k
        (e :: es, k)

def pushPage (k : State) (page : U64) : State :=
  { k.store (k.stack.pages + 8 * k.stack.idx) page with stack.idx := k.stack.idx + 1 }

/-- The pages of an entry, as the loop over `j += PAGE_SIZE` meets them. -/
def MemmapEntry.pages (e : MemmapEntry) : List U64 :=
  (List.range ((e.length.toNat + 4095) / 4096)).map fun j => e.base + BitVec.ofNat 64 j * pageSize

def pushEntry (k : State) (e : MemmapEntry) : State :=
  if e.type = .usable then e.pages.foldl pushPage k else k

/-- `none` stands for the halt on a missing memory map. -/
def pmmInit (memmap : Option (List MemmapEntry)) (k : State) : Option State :=
  match memmap with
  | none => none
  | some memmap =>
      let (memmap', k) := carveArray (arraySize memmap) (freePages memmap) memmap k
      let k := memmap'.foldl pushEntry { k with memmap := memmap' }
      some { k with stack.max := k.stack.idx, reclaimed := false }

/-! ## Requests and releases -/

def pmmRequestPage (k : State) : U64 × State :=
  if k.stack.idx = 0 then (0, { k with outOfMemory := true })
  else if k.stack.idx - 1 = -1 then (0, k)
  else
    let k := { k with stack.idx := k.stack.idx - 1 }
    let pageAddr := k.load (k.stack.pages + 8 * k.stack.idx)
    let (valid, k) := isPageValid k pageAddr
    if !valid then (0, k)
    else
      let higherHalfAddr := k.higherHalf pageAddr
      if higherHalfAddr = 0 then (0, k)
      else (alignUp pageAddr pageSize, k.memset higherHalfAddr 0 4096)

def pmmReleasePage (k : State) (page : U64) : State :=
  if page = 0 then k
  else
    let (valid, k) := isPageValid k page
    if !valid then k
    else if k.stack.max ≤ k.stack.idx then k
    else
      let cacheIdx := (hashPage page).toNat
      let k := { k with
        validPageCache := Function.update k.validPageCache cacheIdx ⟨page, true, 0⟩
        cacheHead := (k.cacheHead + 1) % BitVec.ofNat 64 cacheSize }
      pushPage k page

end ShadowOS.Mm
