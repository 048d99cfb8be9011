import OpenGauss.SingleWrite.Protocol

/-!
# What the recovery reads

The recovery of the single flush file puts back a list of copies, those it finds
in the first part and then those of the second, sorted by their tags. So it is
`Sectors.restoreAll` over that list, and its effect on a page only depends on
which copies of the page are in it.
-/

namespace OpenGauss.SingleWrite

open Lib
open DoubleWrite (FileHead)
open BlockImage (tag age)
open Sectors (whole restore)

variable {slots : Nat → Slot} {v : PageVersion}

/-! ## The copies read -/

/-- The copies `recoverSlots` puts back, with the tags it puts them back at. -/
def slotCopies (slots : Nat → Slot) : Nat → Nat → List (PhyTag × PageVersion)
  | 0, _ => []
  | count + 1, i =>
    match dwVerifyFirstSlot (slots i) with
    | some (item, v) => (item.bufTag, v) :: slotCopies slots count (i + 1)
    | none => if pageIsNew (slots i) then [] else slotCopies slots count (i + 1)

/-- The copies `dw_recovery_single_page` puts back. -/
def itemCopies (slots : Nat → Slot) (items : List FlushItem) : List (PhyTag × PageVersion) :=
  items.filterMap fun item =>
    (dwVerifySecondSlot (slots item.dataPageIdx) item.bufTag.blockNum).map fun v => (item.bufTag, v)

def Disk.copies (disk : Disk) : List (PhyTag × PageVersion) :=
  let head := dwRecoverFileHead (disk.heads .first)
  slotCopies (disk.slots .first) (dwFirstDataPageNum - head.start) head.start ++
    itemCopies (disk.slots .second)
      (sortedItems disk.items (dwRecoverFileHead (disk.heads .second)))

def DataFiles.putBackAll (d : DataFiles) (copies : List (PhyTag × PageVersion)) : DataFiles :=
  copies.foldl (fun d c => d.putBack c.1 c.2) d

theorem recoverSlots_eq (slots : Nat → Slot) (count i : Nat) (d : DataFiles) :
    recoverSlots slots count i d = d.putBackAll (slotCopies slots count i) := by
  induction count generalizing i d with
  | zero => rfl
  | succ count ih =>
    rw [recoverSlots, slotCopies]
    cases hv : dwVerifyFirstSlot (slots i) with
    | some c =>
      simp only
      rw [ih]
      rfl
    | none =>
      simp only
      split
      · rfl
      · exact ih (i + 1) d

theorem dwRecoverySinglePage_eq (slots : Nat → Slot) (items : List FlushItem) (d : DataFiles) :
    dwRecoverySinglePage slots items d = d.putBackAll (itemCopies slots items) := by
  induction items generalizing d with
  | nil => rfl
  | cons item items ih =>
    rw [dwRecoverySinglePage, itemCopies, List.filterMap_cons]
    cases hv : dwVerifySecondSlot (slots item.dataPageIdx) item.bufTag.blockNum with
    | some v =>
      simp only [Option.map_some]
      rw [ih]
      rfl
    | none => exact ih d

theorem dwRecoveryPartialWriteSingle_data (disk : Disk) :
    (dwRecoveryPartialWriteSingle disk).data = disk.data.putBackAll disk.copies := by
  simp only [dwRecoveryPartialWriteSingle, dwRecoverySecondVersionPage, dwRecoveryFirstVersionPage]
  rw [dwRecoverySinglePage_eq, recoverSlots_eq, Disk.copies, DataFiles.putBackAll,
    DataFiles.putBackAll, DataFiles.putBackAll, List.foldl_append]

/-! ## Which copies are read -/

theorem dwVerifyFirstSlot_eq_some {slot : Slot} {item : FirstFlushItem} :
    dwVerifyFirstSlot slot = some (item, v) ↔
      slot = whole (.saved v (some item)) ∧ v.tag.blockNum = item.bufTag.blockNum := by
  rw [← Sectors.image?_eq_some]
  unfold dwVerifyFirstSlot
  constructor
  · intro h
    split at h; swap
    · cases h
    rename_i v' item' himg
    split at h
    · rename_i hblock
      cases h
      exact ⟨himg, hblock⟩
    · cases h
  · rintro ⟨himg, hblock⟩
    rw [himg]
    simp [hblock]

theorem dwVerifySecondSlot_eq_some {slot : Slot} {blockNum : Nat} :
    dwVerifySecondSlot slot blockNum = some v ↔
      ∃ item, slot = whole (.saved v item) ∧ v.tag.blockNum = blockNum := by
  simp only [← Sectors.image?_eq_some]
  unfold dwVerifySecondSlot
  constructor
  · intro h
    split at h; swap
    · cases h
    rename_i v' item' himg
    split at h
    · rename_i hblock
      cases h
      exact ⟨item', himg, hblock⟩
    · cases h
  · rintro ⟨item, himg, hblock⟩
    rw [himg]
    simp [hblock]

/-- A good slot is read if no new page comes before it. -/
theorem mem_slotCopies {count base i : Nat} {d : Nat} (hbase : base ≤ i) (hcount : i < base + count)
    (hold : ∀ j, base ≤ j → j < i → pageIsNew (slots j) = false)
    (hslot : slots i = whole (savedPage .first d v)) :
    (v.tag, v) ∈ slotCopies slots count base := by
  induction count generalizing base with
  | zero => omega
  | succ count ih =>
    rw [slotCopies]
    rcases Nat.eq_or_lt_of_le hbase with rfl | hlt
    · have hgood : dwVerifyFirstSlot (slots base) = some (⟨d, v.tag⟩, v) :=
        dwVerifyFirstSlot_eq_some.mpr ⟨hslot, rfl⟩
      rw [hgood]
      exact .head _
    · have hrest := ih (Nat.succ_le_of_lt hlt) (by omega) fun j hj hji => hold j (by omega) hji
      cases hv : dwVerifyFirstSlot (slots base) with
      | some c => exact .tail _ hrest
      | none =>
        simp only [hold base (Nat.le_refl _) hlt, Bool.false_eq_true, if_false]
        exact hrest

theorem exists_slot_of_mem_slotCopies {count base : Nat} {c : PhyTag × PageVersion}
    (h : c ∈ slotCopies slots count base) :
    ∃ i item, base ≤ i ∧ slots i = whole (.saved c.2 (some item)) ∧ c.1 = item.bufTag := by
  induction count generalizing base with
  | zero => cases h
  | succ count ih =>
    rw [slotCopies] at h
    cases hv : dwVerifyFirstSlot (slots base) with
    | some good =>
      obtain ⟨item, v⟩ := good
      rw [hv] at h
      rcases List.mem_cons.mp h with rfl | h
      · exact ⟨base, item, Nat.le_refl _, (dwVerifyFirstSlot_eq_some.mp hv).1, rfl⟩
      · obtain ⟨i, item, hi, hrest⟩ := ih h
        exact ⟨i, item, by omega, hrest⟩
    | none =>
      rw [hv] at h
      simp only at h
      split at h
      · cases h
      · obtain ⟨i, item, hi, hrest⟩ := ih h
        exact ⟨i, item, by omega, hrest⟩

theorem mem_sortedItems {items : Nat → FlushItem} {head : FileHead} {item : FlushItem} :
    item ∈ sortedItems items head ↔
      ∃ i, head.start ≤ i ∧ i < dwSecondDataPageNum ∧ items i = item ∧
        dwVerifyItem item head.dwn = true := by
  simp only [sortedItems, List.mem_insertionSort, List.mem_filter, List.mem_map, List.mem_range'_1]
  constructor
  · rintro ⟨⟨i, hi, rfl⟩, hv⟩
    exact ⟨i, hi.1, by omega, rfl, hv⟩
  · rintro ⟨i, hstart, hi, rfl, hv⟩
    exact ⟨⟨i, ⟨hstart, by omega⟩, rfl⟩, hv⟩

theorem mem_itemCopies {items : Nat → FlushItem} {head : FileHead} {c : PhyTag × PageVersion} :
    c ∈ itemCopies slots (sortedItems items head) ↔
      ∃ i, head.start ≤ i ∧ i < dwSecondDataPageNum ∧ dwVerifyItem (items i) head.dwn = true ∧
        dwVerifySecondSlot (slots (items i).dataPageIdx) (items i).bufTag.blockNum = some c.2 ∧
        c.1 = (items i).bufTag := by
  simp only [itemCopies, List.mem_filterMap, mem_sortedItems, Option.map_eq_some_iff]
  constructor
  · rintro ⟨item, ⟨i, hstart, hi, rfl, hv⟩, v, hgood, rfl⟩
    exact ⟨i, hstart, hi, hv, hgood, rfl⟩
  · rintro ⟨i, hstart, hi, hv, hgood, htag⟩
    exact ⟨items i, ⟨i, hstart, hi, rfl, hv⟩, c.2, hgood, by rw [← htag]⟩

/-! ## Their effect -/

theorem DataFiles.putBack_present (d : DataFiles) (tag : PhyTag) (v : PageVersion) :
    (d.putBack tag v).present = d.present := by
  unfold DataFiles.putBack DataFiles.smgrwrite
  split
  · split
    · split <;> rfl
    · rfl
  · rfl

/-- Where all pages are their own, putting a page back looks at its age only. -/
theorem DataFiles.putBack_page {d : DataFiles} (hown : Sectors.OwnPages tag d.page)
    (hpresent : d.present v.tag = true) :
    (d.putBack v.tag v).page = restore age d.page v.tag (.page v) := by
  unfold DataFiles.putBack DataFiles.smgrwrite dwVerifyDataPage restore
  rw [if_pos hpresent]
  cases himg : (d.page v.tag).image? with
  | none => rfl
  | some cur =>
    cases cur with
    | zero tag => simp [age]
    | page cur =>
      have htag : cur.tag = v.tag := hown _ _ (Sectors.image?_eq_some.mp himg)
      by_cases hlsn : cur.lsn < v.lsn <;> simp [age, htag, hlsn]

theorem DataFiles.putBackAll_present (d : DataFiles) (copies : List (PhyTag × PageVersion)) :
    (d.putBackAll copies).present = d.present := by
  induction copies generalizing d with
  | nil => rfl
  | cons c copies ih => exact (ih (d.putBack c.1 c.2)).trans (d.putBack_present c.1 c.2)

theorem DataFiles.putBackAll_page {d : DataFiles} {copies : List (PhyTag × PageVersion)}
    (hown : Sectors.OwnPages tag d.page) (htags : ∀ c ∈ copies, c.1 = c.2.tag) :
    (d.putBackAll copies).page =
      Sectors.restoreAll tag age d.page
        ((copies.filter fun c => d.present c.1).map fun c => .page c.2) := by
  induction copies generalizing d with
  | nil => rfl
  | cons c copies ih =>
    have htag : c.1 = c.2.tag := htags c (.head _)
    have hrest : ∀ c ∈ copies, c.1 = c.2.tag := fun c hc => htags c (.tail _ hc)
    have hstep : (d.putBackAll (c :: copies)) = (d.putBack c.1 c.2).putBackAll copies := rfl
    rw [hstep]
    by_cases hpresent : d.present c.1 = true
    · have hpage := d.putBack_page (v := c.2) hown (htag ▸ hpresent)
      rw [htag] at hpresent ⊢
      rw [ih (by rw [hpage]; exact hown.restore (a := .page c.2)) hrest, hpage,
        DataFiles.putBack_present, List.filter_cons_of_pos (by rw [htag]; exact hpresent)]
      rfl
    · have hsame : d.putBack c.1 c.2 = d := by
        unfold DataFiles.putBack
        rw [if_neg hpresent]
      rw [hsame, ih hown hrest, List.filter_cons_of_neg (by exact hpresent)]

end OpenGauss.SingleWrite
