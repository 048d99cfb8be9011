import OpenGauss.Ustore.Prune

/-!
# Pruning with its log record, and the record's replay

`LogUHeapClean` writes a main part and the offset number arrays:

    latestRemovedXid:8 ndeleted:2 ndead:2 flags:1 [target:2 spaceRequired:8]
        [nunused:4 nfixed:2]
    nowdeleted:2*ndeleted (twice as long as its contents) nowdead nowunused
        nowfixed fixedlen

The bracketed parts are there if a flag says so. Two redo routines read it,
`PerformCleanRedoAction` and, for parallel redo, `UHeapXlogCleanOperatorPage`.
-/

namespace OpenGauss.Ustore

open Lib

def XLZ_CLEAN_CONTAINS_OFFSET : Nat := 0x01
def XLZ_CLEAN_ALLOW_PRUNING : Nat := 0x02
def XLZ_CLEAN_CONTAINS_TUPLEN : Nat := 0x04
def SizeOfUHeapClean : Nat := 13

/-- A clean record: main data and the data of its only block. -/
structure CleanRecord where
  main : List UInt8
  block : List UInt8
  deriving DecidableEq

/-- An `OffsetNumber` array. -/
def offsetBytes (offs : List Nat) : List UInt8 := offs.flatMap (toLe 2)

def cleanFlags (target : Nat) (hasFixed pruned : Bool) : Nat :=
  (if pruned then XLZ_CLEAN_ALLOW_PRUNING else 0) |||
    (if target ≠ InvalidOffsetNumber then XLZ_CLEAN_CONTAINS_OFFSET else 0) |||
    (if hasFixed then XLZ_CLEAN_CONTAINS_TUPLEN else 0)

/-- `LogUHeapClean`. The array `nowdeleted` is registered with twice its
number of entries; `stale` is what lies behind them. -/
def logUHeapClean (target spaceRequired : Nat) (nowdeleted stale nowdead nowunused : List Nat)
    (nowfixed : List (Nat × Nat)) (latestRemovedXid : Nat) (pruned : Bool) : CleanRecord where
  main :=
    toLe 8 latestRemovedXid ++ toLe 2 nowdeleted.length ++ toLe 2 nowdead.length ++
      toLe 1 (cleanFlags target (nowfixed ≠ []) pruned) ++
      (if target ≠ InvalidOffsetNumber then toLe 2 target ++ toLe 8 spaceRequired else []) ++
      (if nowfixed ≠ [] then toLe 4 nowunused.length ++ toLe 2 nowfixed.length else [])
  block :=
    offsetBytes nowdeleted ++ offsetBytes stale ++ offsetBytes nowdead ++ offsetBytes nowunused ++
      offsetBytes (nowfixed.map Prod.fst) ++ offsetBytes (nowfixed.map Prod.snd)

/-! ## The two prune functions -/

structure PruneOutcome where
  page : UPage
  ndeleted : Nat
  pruned : Bool
  latestRemovedXid : Nat
  record : Option CleanRecord

/-- The page once the prune hint is updated and the full flag cleared. -/
def UPage.setPruneHint (p : UPage) (newPruneXid : Nat) : UPage :=
  { p with pdPruneXid := newPruneXid, isFull := false }

/-- Apply a scan's changes and repair the page. -/
def applyPrune (target spaceRequired : Nat) (st : UPruneState) (p : UPage) :
    Except PageError UPage := do
  let p ← uheapPagePruneExecute false target st p
  let p ← upageRepairFragmentation target spaceRequired (pruneDeadPointers st p)
  .ok (p.setPruneHint st.newPruneXid)

/-- The end of a scan that found nothing to change. -/
def applyHint (st : UPruneState) (p : UPage) : UPage :=
  if p.pdPruneXid ≠ st.newPruneXid ∨ p.isFull then p.setPruneHint st.newPruneXid else p

/-- The entries of `nowdeleted` behind those in use; `array` is the memory. -/
def staleEntries (array : Nat → Nat) (ndeleted : Nat) : List Nat :=
  (List.range ndeleted).map fun i => array (ndeleted + i)

/-- `UHeapPagePruneGuts` -/
def uheapPagePruneGuts (env : PruneEnv) (target spaceRequired : Nat) (forcePrune : Bool)
    (latestRemovedXid : Nat) (array : Nat → Nat) (p : UPage) : Except PageError PruneOutcome :=
  let scan := pruneScan env p (· = target) p.exactFreeSpace latestRemovedXid
  let st := scan.prstate
  if scan.spaceFreed < spaceRequired then .ok ⟨p, 0, false, latestRemovedXid, none⟩
  else if st.hasWork ∨ forcePrune then do
    let q ← applyPrune target spaceRequired st p
    .ok ⟨q, scan.ndeleted, true, st.latestRemovedXid,
      some (logUHeapClean target spaceRequired st.nowdeleted
        (staleEntries array st.nowdeleted.length) st.nowdead st.nowdead st.nowfixed
        st.latestRemovedXid true)⟩
  else .ok ⟨applyHint st p, scan.ndeleted, false, st.latestRemovedXid, none⟩

/-- `UHeapPagePrune`: every row counts as a target here, so that none is
trimmed, and the record carries the dead rows as unused ones only. -/
def uheapPagePrune (env : PruneEnv) (level : VerifyLevel) (nextXid : Nat)
    (latestRemovedXid : Nat) (array : Nat → Nat) (p : UPage) : Except PageError PruneOutcome :=
  let scan :=
    if p.isPrunable env.oldestXmin then pruneScan env p (fun _ => true) 0 latestRemovedXid
    else ⟨.init latestRemovedXid, 0, 0⟩
  let st := scan.prstate
  if st.hasWork then do
    let q ← applyPrune InvalidOffsetNumber 0 st p
    upageVerify level nextXid q
    .ok ⟨q, scan.ndeleted, true, st.latestRemovedXid,
      some (logUHeapClean InvalidOffsetNumber 0 st.nowdeleted
        (staleEntries array st.nowdeleted.length) [] st.nowdead st.nowfixed
        st.latestRemovedXid true)⟩
  else do
    upageVerify level nextXid (applyHint st p)
    .ok ⟨applyHint st p, scan.ndeleted, false, st.latestRemovedXid, none⟩

/-! ## Replay -/

/-- `n` entries of an `OffsetNumber` array, from entry `start` on. -/
def readOffsets (block : List UInt8) (start n : Nat) : List Nat :=
  (List.range n).map fun i => ofLe ((block.drop (2 * (start + i))).take 2)

namespace CleanRecord

variable (rec : CleanRecord)

def ndeleted : Nat := ofLe ((rec.main.drop 8).take 2)
def ndead : Nat := ofLe ((rec.main.drop 10).take 2)
def flags : Nat := ofLe ((rec.main.drop 12).take 1)
def hasOffset : Bool := rec.flags &&& XLZ_CLEAN_CONTAINS_OFFSET ≠ 0
def allowPruning : Bool := rec.flags &&& XLZ_CLEAN_ALLOW_PRUNING ≠ 0
def hasTupLen : Bool := rec.flags &&& XLZ_CLEAN_CONTAINS_TUPLEN ≠ 0

def targetOffnum : Nat :=
  if rec.hasOffset then ofLe ((rec.main.drop SizeOfUHeapClean).take 2) else InvalidOffsetNumber

def spaceRequired : Nat :=
  if rec.hasOffset then ofLe ((rec.main.drop (SizeOfUHeapClean + 2)).take 8) else 0

/-- Where the counts of the last optional part stand. -/
def unusedPos : Nat :=
  if rec.hasOffset then SizeOfUHeapClean + 2 + 8 else SizeOfUHeapClean

def tupLenNunused : Nat := ofLe ((rec.main.drop rec.unusedPos).take 4)
def tupLenNfixed : Nat := ofLe ((rec.main.drop (rec.unusedPos + 4)).take 2)

end CleanRecord

/-- The prune state both redo routines rebuild from the arrays; the xids are
not used in recovery. -/
def readPruneState (rec : CleanRecord) (nunused nowfixed nfixed : Nat) : UPruneState where
  newPruneXid := InvalidTransactionId
  latestRemovedXid := InvalidTransactionId
  nowdeleted := readOffsets rec.block 0 rec.ndeleted
  nowdead := readOffsets rec.block (rec.ndeleted * 2) rec.ndead
  nowunused := readOffsets rec.block (rec.ndeleted * 2 + rec.ndead) nunused
  nowfixed :=
    (readOffsets rec.block nowfixed nfixed).zip (readOffsets rec.block (nowfixed + nfixed) nfixed)

/-- `PerformCleanRedoAction` -/
def performCleanRedoAction (rec : CleanRecord) (p : UPage) : Except PageError UPage := do
  let nowunused := rec.ndeleted * 2 + rec.ndead
  let nunused := if rec.hasTupLen then rec.tupLenNunused else rec.block.length / 2 - nowunused
  let nfixed := if rec.hasTupLen then rec.tupLenNfixed else 0
  let nowfixed := if rec.hasTupLen then nowunused + nunused else nowunused
  let q ← uheapPagePruneExecute true rec.targetOffnum (readPruneState rec nunused nowfixed nfixed) p
  if rec.allowPruning then upageRepairFragmentation rec.targetOffnum rec.spaceRequired q else .ok q

/-- `UHeapXlogCleanOperatorPrunePage` -/
def uheapXlogCleanOperatorPrunePage (rec : CleanRecord) (nfixed nunused : Nat) (p : UPage) :
    Except PageError UPage :=
  let nowunused := rec.ndeleted * 2 + rec.ndead
  let nunused := if 0 < nfixed then nunused else rec.block.length / 2 - nowunused
  uheapPagePruneExecute true rec.targetOffnum
    (readPruneState rec nunused (nowunused + nunused) nfixed) p

/-- `UHeapXlogCleanOperatorPage`; a record without array data has no block
data at all. -/
def uheapXlogCleanOperatorPage (rec : CleanRecord) (p : UPage) : Except PageError UPage := do
  let nunused := if rec.hasTupLen then rec.tupLenNunused else 0
  let nfixed := if rec.hasTupLen then rec.tupLenNfixed else 0
  let q ← if rec.block ≠ [] then uheapXlogCleanOperatorPrunePage rec nfixed nunused p else .ok p
  if rec.allowPruning then upageRepairFragmentation rec.targetOffnum rec.spaceRequired q else .ok q

end OpenGauss.Ustore
