import Mathlib.Algebra.Ring.Nat
import Mathlib.Tactic.Common
import Mathlib.Tactic.SplitIfs

/-!
# Usable byte positions of the log

The log is cut into segments and these into pages, each with a header; the first page of a
segment has the long one. A usable byte position counts the bytes without the headers. The
conversions take the segment as it is, so all there is to them is what they do inside one.
-/

namespace OpenGauss.Xlog

def XLOG_BLCKSZ : Nat := 8192

/-- `MAXALIGN(sizeof(XLogPageHeaderData))` -/
def SizeOfXLogShortPHD : Nat := 24

/-- `MAXALIGN(sizeof(XLogLongPageHeaderData))` -/
def SizeOfXLogLongPHD : Nat := 40

def usableBytesInPage : Nat := XLOG_BLCKSZ - SizeOfXLogShortPHD

/-- The end of a record stays in front of a page header. -/
def pageOffset (atEnd : Bool) (bytesleft header : Nat) : Nat :=
  if atEnd ∧ bytesleft = 0 then bytesleft else bytesleft + header

/-- `seg_offset` of the two conversions to a pointer -/
def segOffset (atEnd : Bool) (bytesleft : Nat) : Nat :=
  if bytesleft < XLOG_BLCKSZ - SizeOfXLogLongPHD then
    -- fits on the first page of the segment
    pageOffset atEnd bytesleft SizeOfXLogLongPHD
  else
    let bytesleft := bytesleft - (XLOG_BLCKSZ - SizeOfXLogLongPHD)
    XLOG_BLCKSZ + (bytesleft / usableBytesInPage * XLOG_BLCKSZ +
      pageOffset atEnd (bytesleft % usableBytesInPage) SizeOfXLogShortPHD)

/-- What `XLogRecPtrToBytePos` counts in a segment, of a page start or behind a page header, as
its assertions say. -/
def segBytes (fullpages offset : Nat) : Nat :=
  if fullpages = 0 then
    if 0 < offset then offset - SizeOfXLogLongPHD else 0
  else
    XLOG_BLCKSZ - SizeOfXLogLongPHD + (fullpages - 1) * usableBytesInPage +
      if 0 < offset then offset - SizeOfXLogShortPHD else 0

section Defs

variable (segSize : Nat)

/-- `segSize` is `XLogSegSize`, which is a variable. -/
def usableBytesInSegment : Nat :=
  segSize / XLOG_BLCKSZ * usableBytesInPage - (SizeOfXLogLongPHD - SizeOfXLogShortPHD)

/-- A segment has 16 megabytes, or a gigabyte on shared storage. -/
def SegSize : Prop := segSize = 2 ^ 24 ∨ segSize = 2 ^ 30

/-- `seg_offset` is a `uint32`, the pointer a `uint64`. -/
def bytePosToPtr (atEnd : Bool) (bytepos : Nat) : Nat :=
  (bytepos / usableBytesInSegment segSize * segSize +
    segOffset atEnd (bytepos % usableBytesInSegment segSize) % 2 ^ 32) % 2 ^ 64

def xLogBytePosToRecPtr (bytepos : Nat) : Nat := bytePosToPtr segSize false bytepos

def xLogBytePosToEndRecPtr (bytepos : Nat) : Nat := bytePosToPtr segSize true bytepos

def xLogRecPtrToBytePos (ptr : Nat) : Nat :=
  ptr / segSize * usableBytesInSegment segSize +
    segBytes (ptr % segSize / XLOG_BLCKSZ) (ptr % XLOG_BLCKSZ)

/-- The log position of `b` fits in 64 bits. -/
def Fits (b : Nat) : Prop :=
  b / usableBytesInSegment segSize * segSize +
    segOffset false (b % usableBytesInSegment segSize) < 2 ^ 64

end Defs

def headerSize (fullpages : Nat) : Nat :=
  if fullpages = 0 then SizeOfXLogLongPHD else SizeOfXLogShortPHD

/-! ## Inside a segment -/

section Offset

variable (atEnd : Bool) (left : Nat)

theorem segOffset_eq : left < 8152 ∧ segOffset atEnd left = pageOffset atEnd left 40 ∨
    8152 ≤ left ∧ segOffset atEnd left =
      8192 + ((left - 8152) / 8168 * 8192 + pageOffset atEnd ((left - 8152) % 8168) 24) := by
  rcases Nat.lt_or_ge left 8152 with hlt | hge
  · exact .inl ⟨hlt, if_pos hlt⟩
  · exact .inr ⟨hge, if_neg (Nat.not_lt.mpr hge)⟩

theorem pageOffset_false (d header : Nat) : pageOffset false d header = d + header :=
  if_neg fun h => Bool.false_ne_true h.1

theorem pageOffset_true (d header : Nat) : d = 0 ∧ pageOffset true d header = 0 ∨
    d ≠ 0 ∧ pageOffset true d header = d + header := by
  rcases eq_or_ne d 0 with rfl | hd
  · exact .inl ⟨rfl, if_pos ⟨rfl, rfl⟩⟩
  · exact .inr ⟨hd, if_neg fun h => hd h.2⟩

/-- Only the first byte of a page can be at two offsets. -/
theorem segOffset_cases : left < 8152 ∧
      (segOffset atEnd left = left + 40 ∨ left = 0 ∧ segOffset atEnd left = 0) ∨
    8152 ≤ left ∧
      (segOffset atEnd left = 8192 + (left - 8152) / 8168 * 8192 + (left - 8152) % 8168 + 24 ∨
        (left - 8152) % 8168 = 0 ∧ segOffset atEnd left = 8192 + (left - 8152) / 8168 * 8192) := by
  have heq := segOffset_eq atEnd left
  have hfirst := pageOffset_true left 40
  have hlater := pageOffset_true ((left - 8152) % 8168) 24
  cases atEnd with
  | false =>
    simp only [pageOffset_false] at heq
    omega
  | true => omega

theorem segBytes_segOffset :
    segBytes (segOffset atEnd left / XLOG_BLCKSZ) (segOffset atEnd left % XLOG_BLCKSZ) = left := by
  have hcases := segOffset_cases atEnd left
  unfold segBytes usableBytesInPage XLOG_BLCKSZ SizeOfXLogLongPHD SizeOfXLogShortPHD
  split_ifs <;> omega

theorem segOffset_lt {left' : Nat} (h : left < left') :
    segOffset atEnd left < segOffset atEnd left' := by
  have hcases := segOffset_cases atEnd left
  have hcases' := segOffset_cases atEnd left'
  omega

theorem headerSize_le : headerSize (segOffset false left / XLOG_BLCKSZ) ≤
    segOffset false left % XLOG_BLCKSZ := by
  have heq := segOffset_eq false left
  simp only [pageOffset_false] at heq
  unfold headerSize XLOG_BLCKSZ SizeOfXLogLongPHD SizeOfXLogShortPHD
  split <;> omega

/-- At the first byte of a page the end is the page start, else it is the pointer. -/
theorem segOffset_true : segOffset true left =
    if segOffset false left % XLOG_BLCKSZ = headerSize (segOffset false left / XLOG_BLCKSZ)
    then segOffset false left - segOffset false left % XLOG_BLCKSZ else segOffset false left := by
  have hrec := segOffset_eq false left
  have hend := segOffset_eq true left
  have hfirst := pageOffset_true left 40
  have hlater := pageOffset_true ((left - 8152) % 8168) 24
  simp only [pageOffset_false] at hrec
  unfold headerSize XLOG_BLCKSZ SizeOfXLogLongPHD SizeOfXLogShortPHD
  split_ifs <;> omega

end Offset

/-- A page start and an offset behind a header are the pointers of the bytes in front of them. -/
theorem exists_segOffset {offset : Nat}
    (h : offset % XLOG_BLCKSZ = 0 ∨ headerSize (offset / XLOG_BLCKSZ) ≤ offset % XLOG_BLCKSZ) :
    ∃ left, segOffset false left = offset ∨ segOffset true left = offset := by
  obtain ⟨left, hleft⟩ : ∃ left, left = segBytes (offset / XLOG_BLCKSZ) (offset % XLOG_BLCKSZ) :=
    ⟨_, rfl⟩
  have hrec := segOffset_eq false left
  have hend := segOffset_true left
  simp only [pageOffset_false] at hrec
  refine ⟨left, ?_⟩
  unfold segBytes usableBytesInPage at hleft
  unfold headerSize XLOG_BLCKSZ SizeOfXLogLongPHD SizeOfXLogShortPHD at *
  split_ifs at * <;> omega

/-! ## The conversions -/

section Segment

variable {segSize seg left offset : Nat} {atEnd : Bool} (hseg : SegSize segSize)

include hseg

theorem SegSize.lt_iff (atEnd : Bool) :
    left < usableBytesInSegment segSize ↔ segOffset atEnd left < segSize := by
  have hcases := segOffset_cases atEnd left
  unfold usableBytesInSegment usableBytesInPage XLOG_BLCKSZ SizeOfXLogLongPHD SizeOfXLogShortPHD
  rcases hseg with rfl | rfl <;> omega

theorem SegSize.div_mod (seg : Nat) (hlt : offset < segSize) :
    (seg * segSize + offset) / segSize = seg ∧ (seg * segSize + offset) % segSize = offset ∧
      (seg * segSize + offset) % XLOG_BLCKSZ = offset % XLOG_BLCKSZ := by
  unfold XLOG_BLCKSZ
  rcases hseg with rfl | rfl <;> omega

theorem SegSize.exists_eq (b : Nat) : ∃ seg left, left < usableBytesInSegment segSize ∧
    b = seg * usableBytesInSegment segSize + left :=
  ⟨_, _, Nat.mod_lt _ (by rcases hseg with rfl | rfl <;> decide), (Nat.div_add_mod' b _).symm⟩

/-- The bytes of one segment fit together, and then the segment is kept. -/
theorem SegSize.fits_iff (seg : Nat) (hleft : left < usableBytesInSegment segSize) :
    (Fits segSize (seg * usableBytesInSegment segSize + left) ↔ seg * segSize + segSize ≤ 2 ^ 64) ∧
    (seg * segSize + segSize ≤ 2 ^ 64 → ∀ atEnd,
      bytePosToPtr segSize atEnd (seg * usableBytesInSegment segSize + left) =
        seg * segSize + segOffset atEnd left) := by
  obtain ⟨hdiv, hmod⟩ := (Nat.div_mod_unique (Nat.zero_lt_of_lt hleft)).mpr
    ⟨(Nat.add_comm _ (_ * _)).trans (congrArg (· + left) (Nat.mul_comm _ seg)), hleft⟩
  unfold Fits bytePosToPtr
  rw [hdiv, hmod]
  refine ⟨?_, fun hroom atEnd => ?_⟩
  · have hlt := (hseg.lt_iff false).mp hleft
    rcases hseg with rfl | rfl <;> omega
  · have hlt := (hseg.lt_iff atEnd).mp hleft
    rcases hseg with rfl | rfl <;> omega

end Segment

/-- Positions and pointers correspond: the pointers lead back to the position and grow with it,
the first is behind its page header and the second is too, or is at the page start in place of
the first usable byte; and there are no other pointers behind a header or at a page start. -/
theorem bytePos_recPtr {segSize : Nat} (hseg : SegSize segSize) :
    (∀ b, Fits segSize b →
      xLogRecPtrToBytePos segSize (xLogBytePosToRecPtr segSize b) = b ∧
      xLogRecPtrToBytePos segSize (xLogBytePosToEndRecPtr segSize b) = b ∧
      headerSize (xLogBytePosToRecPtr segSize b % segSize / XLOG_BLCKSZ) ≤
        xLogBytePosToRecPtr segSize b % XLOG_BLCKSZ ∧
      xLogBytePosToEndRecPtr segSize b =
        if xLogBytePosToRecPtr segSize b % XLOG_BLCKSZ =
          headerSize (xLogBytePosToRecPtr segSize b % segSize / XLOG_BLCKSZ)
        then xLogBytePosToRecPtr segSize b - xLogBytePosToRecPtr segSize b % XLOG_BLCKSZ
        else xLogBytePosToRecPtr segSize b) ∧
    (∀ b b', Fits segSize b → Fits segSize b' → b < b' →
      xLogBytePosToRecPtr segSize b < xLogBytePosToRecPtr segSize b' ∧
      xLogBytePosToEndRecPtr segSize b < xLogBytePosToEndRecPtr segSize b') ∧
    ∀ ptr, ptr < 2 ^ 64 → ptr % XLOG_BLCKSZ = 0 ∨
        headerSize (ptr % segSize / XLOG_BLCKSZ) ≤ ptr % XLOG_BLCKSZ →
      ∃ b, Fits segSize b ∧
        (xLogBytePosToRecPtr segSize b = ptr ∨ xLogBytePosToEndRecPtr segSize b = ptr) := by
  unfold xLogBytePosToRecPtr xLogBytePosToEndRecPtr
  refine ⟨fun b hfits => ?_, fun b b' hfits hfits' hlt => ?_, fun ptr hptr hplace => ?_⟩
  · obtain ⟨seg, left, hleft, rfl⟩ := hseg.exists_eq b
    obtain ⟨hroom, hptr⟩ := hseg.fits_iff seg hleft
    have hback : ∀ atEnd, xLogRecPtrToBytePos segSize (seg * segSize + segOffset atEnd left) =
        seg * usableBytesInSegment segSize + left := by
      intro atEnd
      obtain ⟨hdiv, hmod, hpage⟩ := hseg.div_mod seg ((hseg.lt_iff atEnd).mp hleft)
      rw [xLogRecPtrToBytePos, hdiv, hmod, hpage, segBytes_segOffset]
    obtain ⟨-, hmod, hpage⟩ := hseg.div_mod seg ((hseg.lt_iff false).mp hleft)
    rw [hptr (hroom.mp hfits), hptr (hroom.mp hfits), hmod, hpage]
    refine ⟨hback false, hback true, headerSize_le left, ?_⟩
    have hle := Nat.mod_le (segOffset false left) XLOG_BLCKSZ
    rw [segOffset_true]
    split_ifs <;> omega
  · obtain ⟨seg, left, hleft, rfl⟩ := hseg.exists_eq b
    obtain ⟨seg', left', hleft', rfl⟩ := hseg.exists_eq b'
    obtain ⟨hroom, hptr⟩ := hseg.fits_iff seg hleft
    obtain ⟨hroom', hptr'⟩ := hseg.fits_iff seg' hleft'
    have hgrow : ∀ atEnd, seg * segSize + segOffset atEnd left <
        seg' * segSize + segOffset atEnd left' := by
      intro atEnd
      have hend := (hseg.lt_iff atEnd).mp hleft
      -- in different segments the offsets do not matter
      rcases lt_trichotomy seg seg' with hless | rfl | hmore
      · rcases hseg with rfl | rfl <;> omega
      · exact Nat.add_lt_add_left (segOffset_lt atEnd left (by omega)) _
      · have hle := Nat.mul_le_mul_right (usableBytesInSegment segSize) hmore
        rw [Nat.succ_mul] at hle
        omega
    rw [hptr (hroom.mp hfits), hptr (hroom.mp hfits), hptr' (hroom'.mp hfits'),
      hptr' (hroom'.mp hfits')]
    exact ⟨hgrow false, hgrow true⟩
  · have hpos : 0 < segSize := by rcases hseg with rfl | rfl <;> decide
    have hdiv := Nat.div_add_mod' ptr segSize
    obtain ⟨-, -, hpage⟩ := hseg.div_mod (ptr / segSize) (Nat.mod_lt ptr hpos)
    rw [hdiv] at hpage
    rw [hpage] at hplace
    obtain ⟨left, hends⟩ := exists_segOffset hplace
    have hleft : left < usableBytesInSegment segSize := by
      rcases hends with h | h
      · exact (hseg.lt_iff false).mpr (h ▸ Nat.mod_lt ptr hpos)
      · exact (hseg.lt_iff true).mpr (h ▸ Nat.mod_lt ptr hpos)
    obtain ⟨hroom, hptr'⟩ := hseg.fits_iff (ptr / segSize) hleft
    have hfit : ptr / segSize * segSize + segSize ≤ 2 ^ 64 := by
      rcases hseg with rfl | rfl <;> omega
    refine ⟨_, hroom.mpr hfit, hends.imp (fun h => ?_) fun h => ?_⟩
    · rw [hptr' hfit, h, hdiv]
    · rw [hptr' hfit, h, hdiv]

theorem bytePos_recPtr_secondPage : SegSize (2 ^ 24) ∧
    xLogRecPtrToBytePos (2 ^ 24) (xLogBytePosToEndRecPtr (2 ^ 24) 8152) = 8152 :=
  ⟨.inl rfl, ((bytePos_recPtr (.inl rfl)).1 8152 (by unfold Fits; decide)).2.1⟩

end OpenGauss.Xlog
