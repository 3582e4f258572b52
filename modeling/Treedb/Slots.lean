import Treedb.Io

/-!
# Record slots

A branch keeps its record at the place of its slot number, 20 bytes for each slot. The offset is
kept in 32 bits when a record is saved, and so is the size of the file when it is loaded. As long as
all slots fit into fewer than 2^32 bytes, neither matters. One slot more and the loader finds less
than a record; the next slot is saved over the first.
-/

namespace Treedb

open RecordFile

/-- The bytes of the file that a write changes. -/
def Write.bytes (w : Write) : Set ℕ :=
  Set.Ico w.offset.toNat (w.offset.toNat + w.record.encode.length)

/-- The bytes that `io_load_map` decodes for the slot; none if the slot is beyond its counter. -/
def loadedBytes (file : ByteFile) (findex : UInt32) : Set ℕ :=
  if findex.toNat < (UInt32.ofNat file.size).toNat / 20 then
    Set.Ico (findex.toNat * Bhead.codec.width)
      (findex.toNat * Bhead.codec.width + Bhead.codec.width)
  else ∅

/-- The heads of the listed branches are saved to a new file. -/
def savedFile (t : Tree) (list : List BranchPtr) : ByteFile :=
  (list.map (ioSaveBranchHead t)).foldl applyWrite ByteFile.empty

/-- The listed branches are in the slots below `branch_n`, and no slot is left out. -/
def FillsSlots (branchN : UInt32) (t : Tree) (list : List BranchPtr) : Prop :=
  ∀ i, i < branchN ↔ ∃ b ∈ list, (t.mem b).findex = i

section Slots

variable {t : Tree} {list : List BranchPtr} {b c : BranchPtr} {branchN : UInt32}

theorem ioSaveBranchHead_bytes (t : Tree) (b : BranchPtr) : (ioSaveBranchHead t b).bytes =
    Set.Ico (((t.mem b).findex.toNat * 20) % 2 ^ 32)
      (((t.mem b).findex.toNat * 20) % 2 ^ 32 + 20) := by
  have offset : (ioSaveBranchHead t b).offset.toNat = ((t.mem b).findex.toNat * 20) % 2 ^ 32 := by
    rw [ioSaveBranchHead, UInt32.toNat_mul]
    rfl
  rw [Write.bytes, offset, Bhead.length_encode]

/-- The saved file ends where its last record ends. -/
theorem savedFile_size (t : Tree) (list : List BranchPtr) (size : ℕ) :
    (savedFile t list).size ≤ size ↔
      ∀ b ∈ list, ((t.mem b).findex.toNat * 20) % 2 ^ 32 + 20 ≤ size := by
  have grown : ∀ file : ByteFile,
      ((list.map (ioSaveBranchHead t)).foldl applyWrite file).size ≤ size ↔
      file.size ≤ size ∧ ∀ b ∈ list, ((t.mem b).findex.toNat * 20) % 2 ^ 32 + 20 ≤ size := by
    induction list with
    | nil => simp
    | cons b list ih =>
        intro file
        rw [List.map_cons, List.foldl_cons, ih]
        have first : (applyWrite file (ioSaveBranchHead t b)).size =
            max file.size (((t.mem b).findex.toNat * 20) % 2 ^ 32 + 20) := by
          change max file.size ((ioSaveBranchHead t b).offset.toNat +
            (ioSaveBranchHead t b).record.encode.length) = _
          rw [Bhead.length_encode, ioSaveBranchHead, UInt32.toNat_mul]
          rfl
        rw [first, max_le_iff, List.forall_mem_cons, and_assoc]
  rw [savedFile, grown]
  simp [ByteFile.empty]

/-- Where all slots fit into 32 bits, each has its own bytes, and these are loaded. -/
theorem FillsSlots.apart (fills : FillsSlots branchN t list) (fits : branchN.toNat * 20 < 2 ^ 32)
    (memberB : b ∈ list) (memberC : c ∈ list) (other : (t.mem b).findex ≠ (t.mem c).findex) :
    Disjoint (ioSaveBranchHead t b).bytes (ioSaveBranchHead t c).bytes ∧
      loadedBytes (savedFile t list) (t.mem b).findex = (ioSaveBranchHead t b).bytes := by
  have below : ∀ x ∈ list, (t.mem x).findex.toNat < branchN.toNat :=
    fun x member => UInt32.lt_iff_toNat_lt.mp ((fills _).mpr ⟨x, member, rfl⟩)
  have slotB := below b memberB
  have slotC := below c memberC
  have places : (t.mem b).findex.toNat ≠ (t.mem c).findex.toNat := mt UInt32.toNat_inj.mp other
  refine ⟨?_, ?_⟩
  · rw [ioSaveBranchHead_bytes, ioSaveBranchHead_bytes, Nat.mod_eq_of_lt (by omega),
      Nat.mod_eq_of_lt (by omega), Set.disjoint_left]
    intro k inB inC
    rw [Set.mem_Ico] at inB inC
    omega
  · have size : (savedFile t list).size = branchN.toNat * 20 := by
      apply le_antisymm
      · rw [savedFile_size]
        intro x member
        have slot := below x member
        omega
      · -- The last slot ends the file.
        have positive : (1 : UInt32) ≤ branchN := by
          rw [UInt32.le_iff_toNat_le]
          change 1 ≤ branchN.toNat
          omega
        have last : (branchN - 1).toNat = branchN.toNat - 1 := UInt32.toNat_sub_of_le _ _ positive
        have inside : branchN - 1 < branchN := by
          rw [UInt32.lt_iff_toNat_lt, last]
          omega
        rcases (fills _).mp inside with ⟨x, member, slot⟩
        have ends := (savedFile_size t list _).mp le_rfl x member
        rw [slot, last] at ends
        omega
    have kept : (UInt32.ofNat (savedFile t list).size).toNat = branchN.toNat * 20 := by
      rw [size, UInt32.toNat_ofNat']
      omega
    rw [loadedBytes, kept, if_pos (by omega), ioSaveBranchHead_bytes, Nat.mod_eq_of_lt (by omega)]
    rfl

/-- A map in which the branch at each address is in the slot of the same number. -/
def slotTree (branchN : UInt32) : Tree where
  mem := fun b => { findex := UInt32.ofNat b }
  next := branchN.toNat
  branch := 0
  branchIndex := fun _ => none
  branchN := branchN
  bhead := ByteFile.empty
  sqlite := fun _ => none

theorem fillsSlots_slotTree (branchN : UInt32) :
    FillsSlots branchN (slotTree branchN) (List.range branchN.toNat) := by
  intro i
  constructor
  · intro inside
    refine ⟨i.toNat, List.mem_range.mpr (UInt32.lt_iff_toNat_lt.mp inside), ?_⟩
    exact UInt32.ofNat_toNat
  · rintro ⟨b, member, rfl⟩
    have small := branchN.toNat_lt
    rw [List.mem_range] at member
    rw [UInt32.lt_iff_toNat_lt]
    change (UInt32.ofNat b).toNat < _
    rw [UInt32.toNat_ofNat']
    omega

/-- Once the slots do not fit, the loader takes the file for one that holds no record. -/
theorem loadedBytes_slotTree (many : 2 ^ 32 ≤ branchN.toNat * 20) (findex : UInt32) :
    loadedBytes (savedFile (slotTree branchN) (List.range branchN.toNat)) findex = ∅ := by
  have slot : ∀ b < branchN.toNat, ((slotTree branchN).mem b).findex.toNat = b := by
    intro b inside
    have small := branchN.toNat_lt
    change (UInt32.ofNat b).toNat = b
    rw [UInt32.toNat_ofNat']
    omega
  have atMost : (savedFile (slotTree branchN) (List.range branchN.toNat)).size ≤ 2 ^ 32 + 16 := by
    rw [savedFile_size]
    intro b member
    rw [slot b (List.mem_range.mp member)]
    omega
  have atLeast := (savedFile_size (slotTree branchN) (List.range branchN.toNat) _).mp le_rfl
    214748364 (List.mem_range.mpr (by omega))
  rw [slot _ (by omega)] at atLeast
  rw [loadedBytes, if_neg]
  rw [UInt32.toNat_ofNat']
  omega

end Slots

/--
The records of different slots take different bytes of the file, which are also the bytes that the
loader takes for them, exactly if all slots together take fewer than 2^32 bytes.
-/
theorem slots_apart_iff (branchN : UInt32) :
    (∀ t list, FillsSlots branchN t list → ∀ b ∈ list, ∀ c ∈ list,
      (t.mem b).findex ≠ (t.mem c).findex →
        Disjoint (ioSaveBranchHead t b).bytes (ioSaveBranchHead t c).bytes ∧
          loadedBytes (savedFile t list) (t.mem b).findex = (ioSaveBranchHead t b).bytes) ↔
      branchN.toNat * 20 < 2 ^ 32 := by
  constructor
  · intro apart
    by_contra many
    rw [not_lt] at many
    have taken := (apart _ _ (fillsSlots_slotTree branchN) 0 (List.mem_range.mpr (by omega)) 1
      (List.mem_range.mpr (by omega)) (show UInt32.ofNat 0 ≠ UInt32.ofNat 1 by decide)).2
    rw [loadedBytes_slotTree many, ioSaveBranchHead_bytes] at taken
    have first : ((0 : UInt32).toNat * 20) % 2 ^ 32 ∈ (∅ : Set ℕ) := by
      rw [taken]
      exact Set.left_mem_Ico.mpr (Nat.lt_add_of_pos_right (by decide))
    exact first
  · intro fits t list fills b memberB c memberC other
    exact fills.apart fits memberB memberC other

/-- The slots 0 and 214748365 share bytes. -/
theorem slots_overlap :
    ¬∀ (t : Tree) (b c : BranchPtr), (t.mem b).findex ≠ (t.mem c).findex →
      Disjoint (ioSaveBranchHead t b).bytes (ioSaveBranchHead t c).bytes := by
  intro apart
  have disjoint := apart (slotTree 214748366) 0 214748365 (by decide)
  rw [ioSaveBranchHead_bytes, ioSaveBranchHead_bytes, Set.disjoint_left] at disjoint
  exact disjoint (a := 4) ⟨by decide, by decide⟩ ⟨by decide, by decide⟩

end Treedb
