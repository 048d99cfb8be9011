import OpenGauss.Segment.ExtentGroupSound

/-!
# Replay of the extent allocator

Every change of an extent group is logged as the bit and the header of its map page and as
four numbers of the map head: the water mark, the count, the free group and the hint of that
one group. Redo applies them to a copy of the map head and the map pages. Freeing an extent
may lower the hint of another group, which the record does not carry.
-/

namespace OpenGauss.Segment

open Lib
open Function (update update_of_ne update_self)

/-! ## Log and redo -/

/-- The map head and the map pages, which is what redo works on. -/
structure EgImage where
  head : MapHead
  pages : Nat → MapPage

def SegExtentGroup.image (seg : SegExtentGroup) : EgImage := ⟨seg.head, seg.pages⟩

inductive EgRecord
  /-- `SPCXLOG_SET_BITMAP` -/
  | setBitmap (block bitId : Nat) (log : MapPage)
  /-- `SPCXLOG_FREE_BITMAP` -/
  | freeBitmap (block bitId : Nat) (log : MapPage)
  /-- `SPCXLOG_MAPHEAD_ALLOCATED_EXTENTS` -/
  | allocatedExtents (hwm allocatedExtents freeGroup freePage : Nat)
  /-- `XLOG_SEG_ADD_NEW_GROUP` and the `XLOG_SEG_INIT_MAPPAGE` records before it -/
  | addNewGroup (extentSize firstMap groupCount : Nat)

/-- The header fields of a map page come from the log. -/
def redoMapPage (page log : MapPage) (bitId : Nat) (bit : Bool) : MapPage :=
  { page with
    dirtyLast := log.dirtyLast
    freeBegin := log.freeBegin
    freeBits := log.freeBits
    bitmap := update page.bitmap bitId bit }

/-- `none` is a panic: other pages, or the bit has the new value already. -/
def redoBitmap (image : EgImage) (block bitId : Nat) (log : MapPage) (bit : Bool) :
    Option EgImage :=
  if (image.pages block).firstPage ≠ log.firstPage then none
  else if (image.pages block).bitmap bitId = bit then none
  else some { image with
    pages := update image.pages block (redoMapPage (image.pages block) log bitId bit) }

/-- `redo_maphead_allocated_extents` -/
def redoMapheadAllocatedExtents (head : MapHead) (hwm allocatedExtents freeGroup freePage : Nat) :
    MapHead :=
  { head with
    allocatedExtents := allocatedExtents
    freeGroup := freeGroup
    groups := update head.groups freeGroup { head.groups freeGroup with freePage := freePage }
    highWaterMark := hwm }

/-- `redo_init_map_page` for the pages of the group and `redo_add_new_group`. -/
def redoAddNewGroup (image : EgImage) (extentSize firstMap groupCount : Nat) : EgImage where
  pages := fun p =>
    if (p + 2 ^ 32 - firstMap) % 2 ^ 32 < dfMapGroupSize then
      egInitBitmapPageContent ((firstMap + dfMapGroupSize + ipblockGroupSize +
        (p + 2 ^ 32 - firstMap) % 2 ^ 32 * (dfMapBitCnt * extentSize)) % 2 ^ 32)
    else image.pages p
  head :=
    { image.head with
      groupCount := groupCount
      groups := update image.head.groups (groupCount - 1) ⟨firstMap, 0, dfMapGroupSize⟩ }

def egRedo (image : EgImage) : EgRecord → Option EgImage
  | .setBitmap block bitId log => redoBitmap image block bitId log true
  | .freeBitmap block bitId log => redoBitmap image block bitId log false
  | .allocatedExtents hwm allocated freeGroup freePage => some { image with
      head := redoMapheadAllocatedExtents image.head hwm allocated freeGroup freePage }
  | .addNewGroup extentSize firstMap groupCount =>
    some (redoAddNewGroup image extentSize firstMap groupCount)

def egReplay (image : EgImage) : List EgRecord → Option EgImage
  | [] => some image
  | record :: records => (egRedo image record).bind fun image => egReplay image records

/-- What is logged of the map head. An allocation has just made the group it was given the
free group, and the page it was given the hint of that group. -/
def MapHead.record (head : MapHead) : EgRecord :=
  .allocatedExtents head.highWaterMark head.allocatedExtents head.freeGroup
    (head.groups head.freeGroup).freePage

def logAddMapGroup (seg : SegExtentGroup) (pageno : Nat) : List EgRecord :=
  [.addNewGroup seg.extentSize pageno (seg.head.groupCount + 1)]

def logFirstGroup (seg : SegExtentGroup) : List EgRecord :=
  if seg.head.groupCount = 0 then logAddMapGroup seg (dfMapHeadPage + 1) else []

/-- The records of a pass of `eg_alloc_extent` with the given outcome. -/
def logOutcome (before after : SegExtentGroup) : Outcome → List EgRecord
  | .allocated loc _ =>
    [.setBitmap (before.mapBlock loc) loc.bitId (after.pages (before.mapBlock loc)),
      after.head.record]
  | .newGroup => logAddMapGroup before (egNextGroupStart before)
  | .needFile _ => []
  | .panic => []

def logAlloc (seg : SegExtentGroup) (preassigned : Option Nat) : List EgRecord :=
  logFirstGroup seg ++ logOutcome (withFirstGroup seg) (egAllocExtent seg preassigned).1
    (egAllocExtent seg preassigned).2

def logFreeAt (seg : SegExtentGroup) (loc : MapBit) : List EgRecord :=
  [.freeBitmap (seg.mapBlock loc) loc.bitId ((freeAt seg loc).pages (seg.mapBlock loc)),
    (freeAt seg loc).head.record]

def egLog (seg : SegExtentGroup) : EgStep → List EgRecord
  | .alloc preassigned => logAlloc seg preassigned
  | .extendFile _ => []
  | .free blocknum => logFreeAt seg (egLocateMapByPageid seg blocknum).toMapBit

def egLogs (seg : SegExtentGroup) : List EgStep → List EgRecord
  | [] => []
  | step :: steps => egLog seg step ++ ((egStep seg step).map fun seg' => egLogs seg' steps).getD []

/-! ## Single records -/

theorem egReplay_append (image : EgImage) (records records' : List EgRecord) :
    egReplay image (records ++ records') =
      (egReplay image records).bind fun image => egReplay image records' := by
  induction records generalizing image with
  | nil => rfl
  | cons record records ih =>
    show (egRedo image record).bind _ = ((egRedo image record).bind _).bind _
    rw [Option.bind_assoc]
    exact congrArg _ (funext ih)

variable (seg : SegExtentGroup)

theorem egReplay_addMapGroup (pageno : Nat) :
    egReplay seg.image (logAddMapGroup seg pageno) = some (egAddMapGroup seg pageno).image := rfl

theorem egReplay_firstGroup :
    egReplay seg.image (logFirstGroup seg) = some (withFirstGroup seg).image := by
  unfold logFirstGroup withFirstGroup
  split
  · exact egReplay_addMapGroup seg _
  · rfl

theorem redoBitmap_eq {image : EgImage} {block bitId : Nat} {log : MapPage} {bit : Bool}
    (hfirst : (image.pages block).firstPage = log.firstPage)
    (hbit : (image.pages block).bitmap bitId ≠ bit) :
    redoBitmap image block bitId log bit = some { image with
      pages := update image.pages block (redoMapPage (image.pages block) log bitId bit) } := by
  unfold redoBitmap
  rw [if_neg (not_not.mpr hfirst), if_neg hbit]

/-! ## Allocations -/

theorem alloc_head_record (loc : MapBit) (block g f : Nat) :
    (egAllocExtentFromMapInternal seg loc block g f).head.record =
      .allocatedExtents (egAllocExtentFromMapInternal seg loc block g f).head.highWaterMark
        (seg.head.allocatedExtents + 1) g f := by
  unfold MapHead.record egAllocExtentFromMapInternal
  dsimp only
  rw [update_self]

theorem egReplay_allocated {loc : MapBit} (block block' g f : Nat)
    (hfree : (seg.page loc).bitmap loc.bitId = false) :
    egReplay seg.image (logOutcome seg (egAllocExtentFromMapInternal seg loc block g f)
      (.allocated loc block')) = some (egAllocExtentFromMapInternal seg loc block g f).image := by
  have hpage : (egAllocExtentFromMapInternal seg loc block g f).pages (seg.mapBlock loc) =
      egSetBitmapPage (seg.page loc) loc.bitId := update_self ..
  have hbit : redoBitmap seg.image (seg.mapBlock loc) loc.bitId
      (egSetBitmapPage (seg.page loc) loc.bitId) true = _ :=
    redoBitmap_eq rfl (by
      show (seg.page loc).bitmap loc.bitId ≠ true
      rw [hfree]
      exact Bool.false_ne_true)
  show egReplay seg.image [.setBitmap (seg.mapBlock loc) loc.bitId _, _] = _
  rw [hpage, alloc_head_record]
  show (redoBitmap seg.image _ _ _ true).bind _ = _
  rw [hbit]
  rfl

theorem searchFreeExtent_found {seg : SegExtentGroup} {r : TryResult}
    (h : searchFreeExtent seg = some r) :
    ∃ loc, (seg.page loc).bitmap loc.bitId = false ∧ r = checkFileSize seg loc := by
  unfold searchFreeExtent at h
  obtain ⟨i, -, -, hgroup, -⟩ := findSome?_range'_some h
  obtain ⟨j, -, -, hfrom, -⟩ := findSome?_range'_some hgroup
  unfold egAllocExtentFromMap at hfrom
  obtain ⟨b, hb, rfl⟩ := Option.map_eq_some_iff.mp hfrom
  exact ⟨⟨i, j, b⟩, (findFreeBit_some hb).2, rfl⟩

theorem egReplay_allocSearched :
    egReplay seg.image (logOutcome seg (allocSearched seg).1 (allocSearched seg).2) =
      some (allocSearched seg).1.image := by
  unfold allocSearched
  cases hs : searchFreeExtent seg with
  | some r =>
    obtain ⟨loc, hfree, rfl⟩ := searchFreeExtent_found hs
    rcases checkFileSize_cases seg loc with hc | ⟨target, hc⟩
    · rw [Option.getD_some, hc]
      exact egReplay_allocated seg _ _ _ _ hfree
    · rw [Option.getD_some, hc]
      rfl
  | none =>
    rcases needNextGroup_cases seg with hn | ⟨target, hn⟩
    · rw [Option.getD_none, hn]
      exact egReplay_addMapGroup seg _
    · rw [Option.getD_none, hn]
      rfl

theorem egReplay_preassigned (block : Nat) :
    egReplay seg.image (logOutcome seg (egAllocPreassignedBlock seg block).1
      (egAllocPreassignedBlock seg block).2) = some (egAllocPreassignedBlock seg block).1.image := by
  unfold egAllocPreassignedBlock
  split
  · exact egReplay_addMapGroup seg _
  unfold allocPreassignedAt
  split
  · rfl
  next hclear =>
    have hfree := Bool.eq_false_iff.mpr hclear
    rcases checkFileSize_cases seg (egLocateMapByPageid seg block).toMapBit with
      hc | ⟨target, hc⟩
    · rw [hc]
      exact egReplay_allocated seg _ _ _ _ hfree
    · rw [hc]
      rfl

theorem egReplay_alloc (preassigned : Option Nat) : egReplay seg.image (logAlloc seg preassigned) =
      some (egAllocExtent seg preassigned).1.image := by
  unfold logAlloc
  rw [egReplay_append, egReplay_firstGroup, Option.bind_some]
  cases preassigned with
  | none => exact egReplay_allocSearched (withFirstGroup seg)
  | some block => exact egReplay_preassigned (withFirstGroup seg) block

/-! ## Frees -/

/-- The record carries the hint that a free lowers: the extent is in a group at or before the
free group, or its map page is not before the hint of its group. -/
def HintLogged (seg : SegExtentGroup) (loc : MapBit) : Prop :=
  loc.mapGroup ≤ seg.head.freeGroup ∨ (seg.head.groups loc.mapGroup).freePage ≤ loc.mapId

/-- Redo of a free gives the map head of the primary exactly when the hint is logged. -/
theorem redo_freeAt_groups (loc : MapBit) :
    update seg.head.groups (min seg.head.freeGroup loc.mapGroup)
        { seg.head.groups (min seg.head.freeGroup loc.mapGroup) with
          freePage := ((freeAt seg loc).head.groups
            (min seg.head.freeGroup loc.mapGroup)).freePage } =
      (freeAt seg loc).head.groups ↔ HintLogged seg loc := by
  have hgroups : (freeAt seg loc).head.groups = update seg.head.groups loc.mapGroup
      { seg.head.groups loc.mapGroup with
        freePage := min (seg.head.groups loc.mapGroup).freePage loc.mapId } := rfl
  rw [hgroups]
  by_cases hle : loc.mapGroup ≤ seg.head.freeGroup
  · -- the free group is the group of the extent
    rw [Nat.min_eq_right hle, update_self]
    exact ⟨fun _ => .inl hle, fun _ => rfl⟩
  have hlt := Nat.not_le.mp hle
  have hne : seg.head.freeGroup ≠ loc.mapGroup := Nat.ne_of_lt hlt
  rw [Nat.min_eq_left (Nat.le_of_lt hlt), update_of_ne hne]
  show update seg.head.groups seg.head.freeGroup (seg.head.groups seg.head.freeGroup) = _ ↔ _
  rw [Function.update_eq_self]
  constructor
  · intro heq
    have hat := congrArg MapGroup.freePage (congrFun heq loc.mapGroup)
    rw [update_self] at hat
    exact .inr (hat ▸ Nat.min_le_right _ _)
  · rintro (hfg | hpage)
    · exact absurd hfg hle
    · rw [Nat.min_eq_left hpage]
      exact (Function.update_eq_self _ _).symm

/-- Replay of a free that does not panic. -/
theorem egReplay_freeAt {loc : MapBit} (hused : (seg.page loc).bitmap loc.bitId = true) :
    egReplay seg.image (logFreeAt seg loc) = some (freeAt seg loc).image ↔ HintLogged seg loc := by
  have hpage : (freeAt seg loc).pages (seg.mapBlock loc) =
      egUnsetBitmapPage (seg.page loc) loc.bitId := update_self ..
  have hbit : redoBitmap seg.image (seg.mapBlock loc) loc.bitId
      (egUnsetBitmapPage (seg.page loc) loc.bitId) false = some ⟨seg.head, (freeAt seg loc).pages⟩ :=
    redoBitmap_eq rfl (by
      show (seg.page loc).bitmap loc.bitId ≠ false
      rw [hused]
      exact Bool.noConfusion)
  have hreplay : egReplay seg.image (logFreeAt seg loc) =
      egRedo ⟨seg.head, (freeAt seg loc).pages⟩ (freeAt seg loc).head.record := by
    unfold logFreeAt
    rw [hpage]
    show (redoBitmap seg.image _ _ _ false).bind _ = _
    rw [hbit]
    rfl
  rw [hreplay, ← redo_freeAt_groups]
  constructor
  · intro heq
    exact congrArg (fun image => image.head.groups) (Option.some.inj heq)
  · intro heq
    exact congrArg (fun groups => some (EgImage.mk { (freeAt seg loc).head with groups }
      (freeAt seg loc).pages)) heq

/-! ## Runs -/

/-- Every free of the run is one whose hint is logged. -/
def HintsLogged (seg : SegExtentGroup) : List EgStep → Prop
  | [] => True
  | step :: steps =>
    (∀ blocknum, step = .free blocknum →
      HintLogged seg (egLocateMapByPageid seg blocknum).toMapBit) ∧
    ∀ seg', egStep seg step = some seg' → HintsLogged seg' steps

theorem egFreeExtent_cases {seg seg' : SegExtentGroup} {blocknum : Nat}
    (h : egFreeExtent seg blocknum = some seg') :
    (seg.page (egLocateMapByPageid seg blocknum).toMapBit).bitmap
        (egLocateMapByPageid seg blocknum).bitId = true ∧
      seg' = freeAt seg (egLocateMapByPageid seg blocknum).toMapBit := by
  unfold egFreeExtent at h
  split at h
  · cases h
  split at h
  next hused => exact ⟨hused, (Option.some.inj h).symm⟩
  next => cases h

theorem egReplay_step {seg seg' : SegExtentGroup} {step : EgStep} (h : egStep seg step = some seg')
    (hlogged : ∀ blocknum, step = .free blocknum →
      HintLogged seg (egLocateMapByPageid seg blocknum).toMapBit) :
    egReplay seg.image (egLog seg step) = some seg'.image := by
  cases step with
  | alloc preassigned =>
    cases h
    exact egReplay_alloc seg preassigned
  | extendFile target =>
    cases h
    rfl
  | free blocknum =>
    obtain ⟨hused, rfl⟩ := egFreeExtent_cases h
    exact (egReplay_freeAt seg hused).mpr (hlogged blocknum rfl)

/-- Replay of the log of a run gives the map head and the map pages of the primary, if each
free lowers no hint but that of the free group. -/
theorem egReplay_run {seg seg' : SegExtentGroup} {steps : List EgStep}
    (h : egRun seg steps = some seg') (hlogged : HintsLogged seg steps) :
    egReplay seg.image (egLogs seg steps) = some seg'.image := by
  induction steps generalizing seg with
  | nil =>
    cases h
    rfl
  | cons step steps ih =>
    obtain ⟨mid, hstep, hrest⟩ := Option.bind_eq_some_iff.mp h
    have hmid := egReplay_step hstep hlogged.1
    unfold egLogs
    rw [hstep, Option.map_some, Option.getD_some, egReplay_append, hmid, Option.bind_some]
    exact ih hrest (hlogged.2 mid hstep)

/-! ## Two groups -/

/-- The map pages of a group when all their bits are set. -/
def fullPage (firstPage : Nat) : MapPage := ⟨firstPage, dfMapBitCnt, dfMapBitCnt - 1, 0, fun _ => true⟩

/-- A file after as many allocations as the first group and one map page of the second have
extents. -/
def twoGroups : SegExtentGroup where
  extentSize := 8
  head :=
    { groupCount := 2
      freeGroup := 1
      allocatedExtents := 65 * dfMapBitCnt
      highWaterMark := 33415287 + dfMapBitCnt * 8
      groups := fun i => if i = 0 then ⟨3, 63, 64⟩ else ⟨33411133, 1, 64⟩ }
  pages := fun p =>
    if p < 67 then fullPage (4157 + (p - 3) * (dfMapBitCnt * 8))
    else if p = 33411133 then fullPage 33415287
    else egInitBitmapPageContent (33415287 + (p - 33411133) * (dfMapBitCnt * 8))
  totalBlocks := 100000000

/-- The first extent of the last map page of the first group. -/
def firstGroupExtent : Nat := 4157 + 63 * (dfMapBitCnt * 8)

/-- The first extent of the second group. -/
def secondGroupExtent : Nat := 33415287

theorem locate_firstGroupExtent :
    (egLocateMapByPageid twoGroups firstGroupExtent).toMapBit = ⟨0, 63, 0⟩ := by decide +kernel

theorem egReplay_run_allocAgain :
    ∃ seg', egRun twoGroups [.free firstGroupExtent, .alloc none] = some seg' ∧
      egReplay twoGroups.image (egLogs twoGroups [.free firstGroupExtent, .alloc none]) =
        some seg'.image := by
  have hrun : ((egRun twoGroups [.free firstGroupExtent, .alloc none]).map fun seg =>
      seg.head.freeGroup) = some 0 := by decide +kernel
  obtain ⟨seg', h, -⟩ := Option.map_eq_some_iff.mp hrun
  refine ⟨seg', h, egReplay_run h ⟨fun blocknum heq => ?_, fun mid _ => ⟨fun blocknum heq => ?_,
    fun _ _ => trivial⟩⟩⟩
  · cases heq
    rw [locate_firstGroupExtent]
    exact .inl (Nat.zero_le _)
  · cases heq

/-- Extents of the first and then of the second group are freed. The primary looks for the
second one in the first map page of its group, the copy from the second page on. -/
theorem egReplay_loses_hint :
    ∃ seg' image, egRun twoGroups [.free firstGroupExtent, .free secondGroupExtent] = some seg' ∧
      egReplay twoGroups.image
        (egLogs twoGroups [.free firstGroupExtent, .free secondGroupExtent]) = some image ∧
      (seg'.head.groups 1).freePage = 0 ∧ (image.head.groups 1).freePage = 1 := by
  have hrun : ((egRun twoGroups [.free firstGroupExtent, .free secondGroupExtent]).map fun seg =>
      (seg.head.groups 1).freePage) = some 0 := by decide +kernel
  have hreplay : ((egReplay twoGroups.image
      (egLogs twoGroups [.free firstGroupExtent, .free secondGroupExtent])).map fun image =>
        (image.head.groups 1).freePage) = some 1 := by decide +kernel
  obtain ⟨seg', h, hpage⟩ := Option.map_eq_some_iff.mp hrun
  obtain ⟨image, h', hpage'⟩ := Option.map_eq_some_iff.mp hreplay
  exact ⟨seg', image, h, h', hpage, hpage'⟩

end OpenGauss.Segment
