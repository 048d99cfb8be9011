import OpenGauss.Segment.Extents
import Mathlib.Logic.Function.Basic

/-!
# Extent groups

An extent group is a file of extents of one size. Its map head lists map groups; a map
group has 64 map pages, blocks for inverse pointers and the extents the bits of the map
pages stand for. Three hints say where to look for a free bit: the first group, the
first map page of each group and the first bit of each page. Block numbers are 32 bits
wide.
-/

namespace OpenGauss.Segment

open Function (update)

/-- `DF_MAX_MAP_GROUP_CNT` -/
def dfMaxMapGroupCnt : Nat := 33

/-- `df_map_page_t`; `bitmap` says which bits are set. -/
structure MapPage where
  firstPage : Nat
  freeBegin : Nat
  dirtyLast : Nat
  freeBits : Nat
  bitmap : Nat → Bool

/-- `df_map_group_t` -/
structure MapGroup where
  firstMap : Nat
  freePage : Nat
  pageCount : Nat
deriving DecidableEq

/-- `df_map_head_t` without `bit_unit`, which is the extent size. -/
structure MapHead where
  groupCount : Nat
  freeGroup : Nat
  allocatedExtents : Nat
  highWaterMark : Nat
  groups : Nat → MapGroup

/-- `SegExtentGroup` with its map pages by block number and the length of its file. -/
structure SegExtentGroup where
  extentSize : Nat
  head : MapHead
  pages : Nat → MapPage
  totalBlocks : Nat

/-- A bit of a map page, and with it the extent it stands for. -/
structure MapBit where
  mapGroup : Nat
  mapId : Nat
  bitId : Nat
deriving DecidableEq

/-- `SpaceMapLocation` -/
structure SpaceMapLocation extends MapBit where
  group : MapGroup

namespace SegExtentGroup

variable (seg : SegExtentGroup)

def mapBlock (loc : MapBit) : Nat := (seg.head.groups loc.mapGroup).firstMap + loc.mapId

def page (loc : MapBit) : MapPage := seg.pages (seg.mapBlock loc)

end SegExtentGroup

def pageStart (group : MapGroup) : Nat :=
  (group.firstMap + dfMapGroupSize + ipblockGroupSize) % 2 ^ 32

def pageEnd (extentSize : Nat) (group : MapGroup) : Nat :=
  (pageStart group + dfMapGroupExtents * extentSize) % 2 ^ 32

variable (seg : SegExtentGroup)

/-- The first group whose extents contain the block. -/
def findGroup (pageId : Nat) : Option Nat :=
  (List.range seg.head.groupCount).find? fun i =>
    decide (pageStart (seg.head.groups i) ≤ pageId) &&
      decide (pageId < pageEnd seg.extentSize (seg.head.groups i))

def egLocateMapByPageid (pageId : Nat) : SpaceMapLocation :=
  match findGroup seg pageId with
  | some i =>
    { group := seg.head.groups i
      mapGroup := i
      mapId := (pageId - pageStart (seg.head.groups i)) / seg.extentSize / dfMapBitCnt
      bitId := (pageId - pageStart (seg.head.groups i)) / seg.extentSize % dfMapBitCnt }
  | none =>
    -- the loop fills in the group before it tests it, so the last one stays in the result
    { group := if seg.head.groupCount = 0 then ⟨0, 0, 0⟩
        else seg.head.groups (seg.head.groupCount - 1)
      mapGroup := seg.head.groupCount - 1
      mapId := 0
      bitId := 0 }

/-- `MapLocationIsInvalid` -/
def mapLocationIsInvalid (loc : SpaceMapLocation) : Bool := loc.group.firstMap == 0

def egSetBitmapPage (p : MapPage) (bitId : Nat) : MapPage :=
  { p with
    bitmap := update p.bitmap bitId true
    freeBits := p.freeBits - 1
    freeBegin := if p.freeBegin = bitId then p.freeBegin + 1 else p.freeBegin
    dirtyLast := if p.dirtyLast < bitId then bitId else p.dirtyLast }

def egInitBitmapPageContent (firstPage : Nat) : MapPage :=
  ⟨firstPage, 0, 0, dfMapBitCnt, fun _ => false⟩

/-- What an attempt to allocate comes to: an extent, a longer file is needed, or nothing. -/
inductive TryResult
  | found (loc : MapBit) (block : Nat)
  | needFile (target : Nat)
  | nothing
deriving DecidableEq

/-- The extent of a bit, if the file is long enough. -/
def checkFileSize (loc : MapBit) : TryResult :=
  if seg.totalBlocks < (((seg.page loc).firstPage + loc.bitId * seg.extentSize) % 2 ^ 32 +
      seg.extentSize) % 2 ^ 32 then
    .needFile ((((seg.page loc).firstPage + loc.bitId * seg.extentSize) % 2 ^ 32 +
      seg.extentSize) % 2 ^ 32)
  else .found loc (((seg.page loc).firstPage + loc.bitId * seg.extentSize) % 2 ^ 32)

/-- The second half of `eg_alloc_extent_from_map_internal`: the bit is set and the map head
brought up to date. -/
def egAllocExtentFromMapInternal (loc : MapBit)
    (block mapGroup freePage : Nat) : SegExtentGroup :=
  { seg with
    pages := update seg.pages (seg.mapBlock loc) (egSetBitmapPage (seg.page loc) loc.bitId)
    head :=
      { seg.head with
        allocatedExtents := seg.head.allocatedExtents + 1
        freeGroup := mapGroup
        groups := update seg.head.groups mapGroup
          { seg.head.groups mapGroup with freePage := freePage }
        highWaterMark := max seg.head.highWaterMark ((block + seg.extentSize) % 2 ^ 32) } }

/-- The first free bit of a map page from its hint on. -/
def findFreeBit (p : MapPage) : Option Nat :=
  if p.freeBits = 0 then none
  else (List.range' p.freeBegin (dfMapBitCnt - p.freeBegin)).find? fun b => !p.bitmap b

/-- `none` means: go on with the next map page. -/
def egAllocExtentFromMap (mapGroup mapId : Nat) : Option TryResult :=
  (findFreeBit (seg.page ⟨mapGroup, mapId, 0⟩)).map fun bit =>
    checkFileSize seg ⟨mapGroup, mapId, bit⟩

def egNextGroupStart : Nat :=
  ((seg.head.groups (seg.head.groupCount - 1)).firstMap +
    (seg.head.groups (seg.head.groupCount - 1)).pageCount + ipblockGroupSize +
    dfMapGroupExtents * seg.extentSize) % 2 ^ 32

/-- The search without a preassigned block. -/
def searchFreeExtent : Option TryResult :=
  (List.range' seg.head.freeGroup (seg.head.groupCount - seg.head.freeGroup)).findSome? fun i =>
    (List.range' (seg.head.groups i).freePage
      ((seg.head.groups i).pageCount - (seg.head.groups i).freePage)).findSome? fun j =>
      egAllocExtentFromMap seg i j

/-- Where the file is too short for the next group, it is to be extended first. -/
def needNextGroup : TryResult :=
  if seg.totalBlocks < (egNextGroupStart seg + dfMapGroupSize + ipblockGroupSize) % 2 ^ 32 then
    .needFile ((egNextGroupStart seg + dfMapGroupSize + ipblockGroupSize) % 2 ^ 32)
  else .nothing

def egAddMapGroup (pageno : Nat) : SegExtentGroup :=
  { seg with
    pages := fun p =>
      -- the position of the page behind `pageno`
      if (p + 2 ^ 32 - pageno) % 2 ^ 32 < dfMapGroupSize then
        egInitBitmapPageContent ((pageno + dfMapGroupSize + ipblockGroupSize +
          (p + 2 ^ 32 - pageno) % 2 ^ 32 * (dfMapBitCnt * seg.extentSize)) % 2 ^ 32)
      else seg.pages p
    head :=
      { seg.head with
        groupCount := seg.head.groupCount + 1
        groups := update seg.head.groups seg.head.groupCount
          ⟨pageno, 0, dfMapGroupSize⟩ } }

/-- What one pass of the loop in `eg_alloc_extent` comes to. -/
inductive Outcome
  | allocated (loc : MapBit) (block : Nat)
  | needFile (target : Nat)
  | newGroup
  /-- the preassigned block is in use -/
  | panic
deriving DecidableEq

/-- The first map group is made before anything is tried. -/
def withFirstGroup : SegExtentGroup :=
  if seg.head.groupCount = 0 then egAddMapGroup seg (dfMapHeadPage + 1) else seg

/-- `eg_alloc_preassigned_block` on a bit. The hints do not move, and the block that is
returned is the one asked for. -/
def allocPreassignedAt (loc : MapBit) (block : Nat) :
    SegExtentGroup × Outcome :=
  if (seg.page loc).bitmap loc.bitId then (seg, .panic)
  else
    match checkFileSize seg loc with
    | .found _ pagenum =>
      (egAllocExtentFromMapInternal seg loc pagenum seg.head.freeGroup
        (seg.head.groups seg.head.freeGroup).freePage, .allocated loc block)
    | .needFile target => (seg, .needFile target)
    | .nothing => (seg, .newGroup)

def egAllocPreassignedBlock (block : Nat) : SegExtentGroup × Outcome :=
  if mapLocationIsInvalid (egLocateMapByPageid seg block) then
    (egAddMapGroup seg (egNextGroupStart seg), .newGroup)
  else allocPreassignedAt seg (egLocateMapByPageid seg block).toMapBit block

def allocSearched : SegExtentGroup × Outcome :=
  match (searchFreeExtent seg).getD (needNextGroup seg) with
  | .found loc b =>
    (egAllocExtentFromMapInternal seg loc b loc.mapGroup loc.mapId, .allocated loc b)
  | .needFile target => (seg, .needFile target)
  | .nothing => (egAddMapGroup seg (egNextGroupStart seg), .newGroup)

/-- One pass of the loop in `eg_alloc_extent`, under the lock of the map head. -/
def egAllocExtent (preassigned : Option Nat) : SegExtentGroup × Outcome :=
  match preassigned with
  | none => allocSearched (withFirstGroup seg)
  | some block => egAllocPreassignedBlock (withFirstGroup seg) block

def egUnsetBitmapPage (p : MapPage) (bitId : Nat) : MapPage :=
  { p with
    bitmap := update p.bitmap bitId false
    freeBits := p.freeBits + 1
    freeBegin := if bitId < p.freeBegin then bitId else p.freeBegin }

/-- The bit is cleared and the hints are moved back. -/
def freeAt (loc : MapBit) : SegExtentGroup :=
  { seg with
    pages := update seg.pages (seg.mapBlock loc)
      (egUnsetBitmapPage (seg.page loc) loc.bitId)
    head :=
      { seg.head with
        allocatedExtents := seg.head.allocatedExtents - 1
        freeGroup := min seg.head.freeGroup loc.mapGroup
        groups := update seg.head.groups loc.mapGroup
          { seg.head.groups loc.mapGroup with
            freePage := min (seg.head.groups loc.mapGroup).freePage loc.mapId } } }

/-- `none` is a panic: the extent is free already. -/
def egFreeExtent (blocknum : Nat) : Option SegExtentGroup :=
  if mapLocationIsInvalid (egLocateMapByPageid seg blocknum) then none
  else if (seg.page (egLocateMapByPageid seg blocknum).toMapBit).bitmap
      (egLocateMapByPageid seg blocknum).bitId then
    some (freeAt seg (egLocateMapByPageid seg blocknum).toMapBit)
  else none

/-- What sessions do to an extent group, each under the lock of the map head. -/
inductive EgStep
  | alloc (preassigned : Option Nat)
  | extendFile (target : Nat)
  | free (blocknum : Nat)

def egStep (seg : SegExtentGroup) : EgStep → Option SegExtentGroup
  | .alloc preassigned => some (egAllocExtent seg preassigned).1
  | .extendFile target => some { seg with totalBlocks := max seg.totalBlocks target }
  | .free blocknum => egFreeExtent seg blocknum

def egRun (seg : SegExtentGroup) : List EgStep → Option SegExtentGroup
  | [] => some seg
  | step :: steps => (egStep seg step).bind fun seg => egRun seg steps

def emptyGroup (extentSize totalBlocks : Nat) : SegExtentGroup where
  extentSize := extentSize
  head := ⟨0, 0, 0, 0, fun _ => ⟨0, 0, 0⟩⟩
  pages := fun _ => egInitBitmapPageContent 0
  totalBlocks := totalBlocks

end OpenGauss.Segment
