import ShadowOS.Mm.Runs

/-!
# What the page frame allocator should do
-/

namespace ShadowOS.Mm

/-! ## The caches -/

/-- An index that is used on one of the two caches. -/
inductive CacheIndex where
  | primary (i : U64)
  | secondary (i : U64)
deriving DecidableEq, Repr

def CacheIndex.InRange : CacheIndex → Prop
  | .primary i => i.toNat < cacheSize
  | .secondary i => i.toNat < secondaryCacheSize

instance : DecidablePred CacheIndex.InRange
  | .primary _ => inferInstanceAs (Decidable (_ < _))
  | .secondary _ => inferInstanceAs (Decidable (_ < _))

/-- The indices of `update_cache_access`. The search of the secondary cache ends at the page. -/
def updateCacheIndices (k : State) (pageAddr : U64) : List CacheIndex :=
  let cacheIdx := hashPage pageAddr
  .primary cacheIdx ::
    if isInPrimaryCache k pageAddr then [.primary cacheIdx]
    else .secondary cacheIdx ::
      if isInSecondaryCache k pageAddr then
        match (List.range secondaryCacheSize).find? (fun i => (k.secondaryCache i).pageAddr == pageAddr) with
        | some i => (List.range (i + 1)).map (fun i => .secondary (BitVec.ofNat 64 i)) ++ [.primary cacheIdx]
        | none => (List.range secondaryCacheSize).map fun i => .secondary (BitVec.ofNat 64 i)
      else []

/-- The indices of `is_page_valid`. -/
def pageValidIndices (k : State) (pageAddr : U64) : List CacheIndex :=
  .primary (hashPage pageAddr) ::
    if isInPrimaryCache k pageAddr then updateCacheIndices k pageAddr
    else if isInMemmap k.memmap k.reclaimed pageAddr then updateCacheIndices k pageAddr
    else []

/-- The page that the next request takes off the stack. -/
def State.topPage (k : State) : U64 := k.load (k.stack.pages + 8 * (k.stack.idx - 1))

namespace PmmOp

/-- The indices that a call uses. -/
def indices (k : State) : PmmOp → List CacheIndex
  | .request => if k.stack.idx = 0 then [] else pageValidIndices k k.topPage
  | .release page =>
      if page = 0 then []
      else pageValidIndices k page ++
        if (isPageValid k page).1 ∧ k.stack.idx < k.stack.max then [.primary (hashPage page)] else []

/-- The page is in the primary cache, or in no entry of the memory map, or its hash is an index of the secondary cache. -/
def FitsCaches (k : State) (page : U64) : Prop :=
  isInPrimaryCache k page = true ∨ isInMemmap k.memmap k.reclaimed page = false ∨
    (hashPage page).toNat < secondaryCacheSize

/-- The page that a call tests fits the caches. -/
def Fits (k : State) : PmmOp → Prop
  | .request => k.stack.idx = 0 ∨ FitsCaches k k.topPage
  | .release page => page = 0 ∨ FitsCaches k page

/-- A call with any argument. -/
def call (k : State) : PmmOp → Option State
  | .request => some (pmmRequestPage k).2
  | .release page => some (pmmReleasePage k page)

end PmmOp

/-- The validity test says what the memory map says. -/
def ValidAgrees (k : State) : Prop :=
  ∀ a : U64, a.toNat % 4096 = 0 →
    ((isPageValid k a).1 = true ↔ ∃ e ∈ k.memmap, e.type = .usable ∧ e.Contains a)

/-- Of the pages that `pmm_init` puts into the cache, those that a lookup finds there are usable: the page at index `j` has
the hash `j` only if it is in a usable entry and not in the array. -/
def SeedsUsable (memmap : List MemmapEntry) : Prop :=
  ∀ e, arrayEntry memmap = some e → ∀ j < cacheSize, j < (freePages memmap).toNat →
    (hashPage (e.base + arraySize memmap + BitVec.ofNat 64 j * pageSize)).toNat = j →
    e.base + arraySize memmap + BitVec.ofNat 64 j * pageSize ∈ usablePages memmap ∧
      e.base + arraySize memmap + BitVec.ofNat 64 j * pageSize ∉ arrayPages memmap

/-! ## Requests -/

/-- A request fails exactly when there is no free page. -/
def NullMeansEmpty (k : State) : Prop := (pmmRequestPage k).1 = 0 ↔ k.freePages = []

/-- What a call changes in memory: a request clears the page that it returns, a release writes to the array, and neither
touches a page that is held. -/
def PmmOp.KeepsHeld (memmap : List MemmapEntry) (s : State × List U64) (op : PmmOp) : Prop :=
  ∀ s', exec s op = some s' →
    (match op with
      | .request =>
          let page := (pmmRequestPage s.1).1
          (page = 0 → s'.1.mem = s.1.mem) ∧
            (page ≠ 0 → (∀ x, (Frame.of x).1 ≠ page → s'.1.mem x = s.1.mem x) ∧ ∀ x, (Frame.of x).1 = page → s'.1.mem x = 0)
      | .release _ => ∀ x, (Frame.of x).1 ∉ arrayPages memmap → s'.1.mem x = s.1.mem x) ∧
    ∀ x, (Frame.of x).1 ∈ s.2 → s'.1.mem x = s.1.mem x

end ShadowOS.Mm
