import Treedb.Reachability
import Treedb.Tree.Record

/-!
# Incremental saving

`io_resave_map` writes the image of the whole tree: every reachable branch at its own slot, and
zeros in all other slots. The operations instead write a few records each. As long as no child is
left behind by a delete, the file stays the image of the tree.
-/

namespace Treedb

open Forest Outcome RecordFile Treedb.Tree

/-- The files agree record for record. -/
def SameRecords (f g : ByteFile) : Prop :=
  f.size = g.size ∧ ∀ i, Bhead.codec.get f i = Bhead.codec.get g i

namespace Tree

/-- The indexed branches have slots of their own, and the offsets of all slots fit into 32 bits. -/
structure Slots (t : Tree) : Prop where
  lt : ∀ {b}, t.Indexed b → (t.mem b).findex.toNat < t.branchN.toNat
  inj : ∀ {b c}, t.Indexed b → t.Indexed c → (t.mem b).findex = (t.mem c).findex → b = c
  fits : t.branchN.toNat * 20 < 2 ^ 32

/-- The file is the image of the tree. -/
structure Holds (t : Tree) (file : ByteFile) : Prop where
  size : file.size = t.branchN.toNat * 20
  record : ∀ {b}, t.Indexed b → Bhead.codec.get file (t.mem b).findex.toNat = t.record b
  blank : ∀ i, (∀ b, t.Indexed b → (t.mem b).findex.toNat ≠ i) → Bhead.codec.get file i = {}

/-- Write the records of the listed branches to their slots. -/
def saveAll (t : Tree) (file : ByteFile) (list : List BranchPtr) : ByteFile :=
  Bhead.codec.putAll (fun b => (t.mem b).findex.toNat) t.record file list

variable {t : Tree} {b p : BranchPtr} {file file' : ByteFile} {list : List BranchPtr}

theorem blank_eq : Bhead.codec.blank = {} := by
  decide

/-! ## The image -/

theorem Holds.sameRecords (holds : t.Holds file) (holds' : t.Holds file') :
    SameRecords file file' := by
  refine ⟨holds.size.trans holds'.size.symm, fun i => ?_⟩
  by_cases used : ∃ b, t.Indexed b ∧ (t.mem b).findex.toNat = i
  · rcases used with ⟨b, indexed, rfl⟩
    rw [holds.record indexed, holds'.record indexed]
  · have unused : ∀ b, t.Indexed b → (t.mem b).findex.toNat ≠ i :=
      fun b indexed same => used ⟨b, indexed, same⟩
    rw [holds.blank i unused, holds'.blank i unused]

theorem Holds.congr (holds : t.Holds file) (same : SameRecords file' file) : t.Holds file' where
  size := same.1.trans holds.size
  record := by
    intro b indexed
    rw [same.2, holds.record indexed]
  blank := by
    intro i unused
    rw [same.2, holds.blank i unused]

theorem Shape.ioResaveImage_eq (shape : t.Shape) :
    ioResaveImage t = t.saveAll (ByteFile.zeros (t.branchN * 20).toNat)
      (preorder t.children (t.next + 1) t.branch) := by
  have lists : (fun b => (t.mem b).childList.take (t.mem b).childN.toNat) = t.children := by
    funext b
    exact shape.take_children b
  rw [ioResaveImage, ioBranchWalkSave, lists, walk_eq_foldl]
  rfl

theorem WellFormed.holds_image (wf : t.WellFormed) (rooted : t.Rooted) (slots : t.Slots) :
    t.Holds (ioResaveImage t) := by
  have met : ∀ b, b ∈ preorder t.children (t.next + 1) t.branch ↔ t.Indexed b := by
    intro b
    rw [mem_preorder wf.mirrors wf.acyclic wf.supported (by simp)]
    exact ⟨wf.indexed_of_anc, rooted b⟩
  have bytes : (t.branchN * 20).toNat = t.branchN.toNat * 20 := by
    have fits := slots.fits
    rw [UInt32.toNat_mul]
    exact Nat.mod_eq_of_lt fits
  rw [wf.ioResaveImage_eq, bytes]
  constructor
  · apply Bhead.codec.size_putAll
    · rfl
    · intro b member
      exact slots.lt ((met b).mp member)
  · intro b indexed
    apply Bhead.codec.get_putAll_of_mem _ (fun b => (t.mem b).findex.toNat)
    · intro c member same
      rw [slots.inj ((met c).mp member) indexed (UInt32.toNat_inj.mp same)]
    · exact (met b).mpr indexed
  · intro i unused
    rw [saveAll, Bhead.codec.get_putAll_of_not_mem, Bhead.codec.get_zeros, blank_eq]
    intro b member
    exact unused b ((met b).mp member)

/-- The file is the image exactly if it agrees with what a full save writes. -/
theorem WellFormed.holds_iff (wf : t.WellFormed) (rooted : t.Rooted) (slots : t.Slots) :
    t.Holds file ↔ SameRecords file (ioResaveImage t) := by
  have image := wf.holds_image rooted slots
  exact ⟨fun holds => holds.sameRecords image, image.congr⟩

/-! ## Edits -/

theorem Rooted.parent_indexed (rooted : t.Rooted) (wf : t.WellFormed)
    (step : t.parent b = some p) : t.Indexed p := by
  have anc := rooted b (wf.indexed_of_parent step)
  rcases anc_iff_eq_or_strictAnc.mp anc with same | strict
  · rw [← same, wf.root_parent] at step
    simp at step
  · exact wf.indexed_of_anc ((strictAnc_iff_of_parent step).mp strict)

theorem applyWrite_eq_put (small : (t.mem b).findex.toNat * 20 < 2 ^ 32) :
    applyWrite file (ioSaveBranchHead t b) =
      Bhead.codec.put file (t.mem b).findex.toNat (t.record b) := by
  have offset : ((t.mem b).findex * 20).toNat = (t.mem b).findex.toNat * 20 := by
    rw [UInt32.toNat_mul]
    exact Nat.mod_eq_of_lt small
  simp only [applyWrite, ioSaveBranchHead, offset]
  rfl

theorem foldl_applyWrite (small : ∀ b ∈ list, (t.mem b).findex.toNat * 20 < 2 ^ 32) :
    (list.map (ioSaveBranchHead t)).foldl applyWrite file = t.saveAll file list := by
  induction list generalizing file with
  | nil => rfl
  | cons b list ih =>
      rw [List.map_cons, List.foldl_cons, applyWrite_eq_put (small b List.mem_cons_self),
        ih fun c member => small c (List.mem_cons_of_mem _ member)]
      rfl

namespace Edit

variable {e : Edit} {x y : BranchPtr}

/-- The branch is in the index before or after the edit. -/
def Involves (t : Tree) (e : Edit) (x : BranchPtr) : Prop :=
  t.Indexed x ∨ (e.memory t).Indexed x

theorem involves_cases (involved : e.Involves t x) :
    t.Indexed x ∨ ∃ pb new i, e = grow pb new i ∧ x = t.next := by
  rcases involved with old | ⟨k, stored⟩
  · exact Or.inl old
  · cases e with
    | grow pb new i =>
        simp only [memory, grow_index] at stored
        split at stored
        · exact Or.inr ⟨pb, new, i, rfl, (Option.some.inj stored).symm⟩
        · exact Or.inl ⟨k, stored⟩
    | rehome b opb npb i => exact Or.inl ⟨k, stored⟩
    | forget b p =>
        simp only [memory, forget_index] at stored
        split at stored
        · simp at stored
        · exact Or.inl ⟨k, stored⟩
    | relabel b text noteId => exact Or.inl ⟨k, stored⟩

theorem grow_findex_next (t : Tree) (pb : BranchPtr) (new : Branch) (i : ℕ) :
    (((grow pb new i).memory t).mem t.next).findex = new.findex := by
  change ((t.alloc new).mem t.next).findex = _
  rw [alloc_mem_next]

theorem involves_findex_lt (wf : t.WellFormed) (slots : t.Slots) (allowed : e.Allowed t)
    (involved : e.Involves t x) :
    ((e.memory t).mem x).findex.toNat ≤ t.branchN.toNat ∧
      (t.Indexed x → ((e.memory t).mem x).findex = (t.mem x).findex) := by
  have kept : t.Indexed x → ((e.memory t).mem x).findex = (t.mem x).findex :=
    fun indexed => memory_findex t e (Nat.ne_of_lt (wf.indexed_lt indexed))
  refine ⟨?_, kept⟩
  rcases involves_cases involved with old | ⟨pb, new, i, rfl, rfl⟩
  · rw [kept old]
    exact Nat.le_of_lt (slots.lt old)
  · rw [grow_findex_next, allowed.2.1]

theorem involves_inj (wf : t.WellFormed) (slots : t.Slots) (allowed : e.Allowed t)
    (involvedX : e.Involves t x) (involvedY : e.Involves t y)
    (same : ((e.memory t).mem x).findex = ((e.memory t).mem y).findex) : x = y := by
  have kept : ∀ {z}, t.Indexed z → ((e.memory t).mem z).findex = (t.mem z).findex :=
    fun indexed => memory_findex t e (Nat.ne_of_lt (wf.indexed_lt indexed))
  -- The slot of a new branch is the first free one, so it meets no other.
  have fresh : ∀ {z pb new i}, t.Indexed z → (grow pb new i).Allowed t →
      (t.mem z).findex ≠ new.findex := by
    intro z pb new i indexed allowed same
    have lower := slots.lt indexed
    rw [same, allowed.2.1] at lower
    omega
  rcases involves_cases involvedX with oldX | ⟨pb, new, i, rfl, rfl⟩
  · rcases involves_cases involvedY with oldY | ⟨pb, new, i, rfl, rfl⟩
    · rw [kept oldX, kept oldY] at same
      exact slots.inj oldX oldY same
    · rw [kept oldX, grow_findex_next] at same
      exact absurd same (fresh oldX allowed)
  · rcases involves_cases involvedY with oldY | ⟨_, _, _, _, rfl⟩
    · rw [kept oldY, grow_findex_next] at same
      exact absurd same.symm (fresh oldY allowed)
    · rfl

theorem grow_touched_involves {pb : BranchPtr} {new : Branch} {i : ℕ} (wf : t.WellFormed)
    (allowed : (grow pb new i).Allowed t) (member : x ∈ (grow pb new i).touched t) :
    (grow pb new i).Involves t x := by
  have after := memory_wellFormed wf allowed
  simp only [touched, List.mem_append, List.mem_cons, List.not_mem_nil, or_false] at member
  rcases member with (rfl | rfl) | listed
  · right
    refine ⟨new.id, ?_⟩
    simp only [memory, grow_index, if_true]
  · exact Or.inl allowed.2.2.1
  · exact Or.inr (after.indexed_of_parent (after.mirrors.mem_iff.mp (List.mem_of_mem_drop listed)))

/-- Every record that is written belongs to a branch of the old or the new tree. -/
theorem touched_involves (wf : t.WellFormed) (rooted : t.Rooted) (allowed : e.Allowed t)
    (member : x ∈ e.touched t) : e.Involves t x := by
  have after := memory_wellFormed wf allowed
  have child : ∀ {q n}, x ∈ ((e.memory t).children q).drop n → e.Involves t x := by
    intro q n listed
    exact Or.inr (after.indexed_of_parent (after.mirrors.mem_iff.mp (List.mem_of_mem_drop listed)))
  cases e with
  | grow pb new i => exact grow_touched_involves wf allowed member
  | rehome b opb npb i =>
      simp only [touched, List.mem_append, List.mem_cons, List.not_mem_nil, or_false] at member
      rcases member with ((rfl | rfl | rfl) | listed) | listed
      · exact Or.inl (wf.indexed_of_parent allowed.1)
      · exact Or.inl allowed.2.1
      · exact Or.inl (rooted.parent_indexed wf allowed.1)
      · exact child listed
      · exact child listed
  | forget b p =>
      simp only [touched, List.mem_append, List.mem_cons, List.not_mem_nil, or_false] at member
      rcases member with (rfl | rfl) | listed
      · exact Or.inl (wf.indexed_of_parent allowed)
      · exact Or.inl (rooted.parent_indexed wf allowed)
      · exact child listed
  | relabel b text noteId => simp [touched] at member

/-- A branch of the new tree whose record is not written was in the old tree, with that record. -/
theorem untouched_record (wf : t.WellFormed) (allowed : e.Allowed t) (tame : e.Tame True False t)
    (indexed : (e.memory t).Indexed x) (untouched : x ∉ e.touched t) :
    t.Indexed x ∧ (e.memory t).record x = t.record x := by
  have old : t.Indexed x := by
    rcases involves_cases (Or.inr indexed : e.Involves t x) with old | ⟨pb, new, i, rfl, rfl⟩
    · exact old
    · simp [touched] at untouched
  refine ⟨old, ?_⟩
  cases e with
  | grow pb new i =>
      exact grow_record wf allowed (Nat.ne_of_lt (wf.indexed_lt old)) untouched
  | rehome b opb npb i => exact rehome_record wf allowed untouched
  | forget b p => exact forget_record wf allowed (tame trivial) untouched
  | relabel b text noteId => exact relabel_record wf text noteId

/-- A branch that leaves the tree leaves a blank record. -/
theorem dropped_record (wf : t.WellFormed) (allowed : e.Allowed t) (tame : e.Tame True False t)
    (involved : e.Involves t x) (gone : ¬(e.memory t).Indexed x) :
    x ∈ e.touched t ∧ (e.memory t).record x = {} := by
  have old : t.Indexed x := involved.resolve_right gone
  have stored := wf.indexed_id old
  cases e with
  | grow pb new i =>
      have taken : (t.mem x).id ≠ new.id := by
        intro same
        rw [same, allowed.2.2.2.1] at stored
        simp at stored
      apply absurd _ gone
      exact ⟨_, by rw [memory, grow_index, if_neg taken, stored]⟩
  | rehome b opb npb i => exact absurd old gone
  | forget b p =>
      by_cases same : x = b
      · subst same
        have leaf := (wf.childN_eq_zero_iff x).mpr (tame trivial)
        exact ⟨by simp [touched], forget_record_self leaf (wf.acyclic.parent_ne allowed).symm⟩
      · have other : (t.mem x).id ≠ (t.mem b).id := by
          intro sameId
          exact same (wf.id_injective old (wf.indexed_of_parent allowed) sameId)
        apply absurd _ gone
        exact ⟨_, by rw [memory, forget_index, if_neg other, stored]⟩
  | relabel b text noteId => exact absurd old gone

/-- The number of slots grows by one, or stays. -/
theorem branchN_cases (slots : t.Slots) (e : Edit) :
    (∃ pb new i, e = grow pb new i ∧ (e.apply t).branchN.toNat = t.branchN.toNat + 1) ∨
      (∀ pb new i, e ≠ grow pb new i) ∧ (e.apply t).branchN = t.branchN := by
  have same := (apply_fields t e).2.2.2.2.1
  cases e with
  | grow pb new i =>
      left
      refine ⟨pb, new, i, rfl, ?_⟩
      have fits := slots.fits
      rw [same]
      change (t.branchN + 1).toNat = _
      rw [UInt32.toNat_add, UInt32.toNat_one]
      omega
  | rehome b opb npb i => exact Or.inr ⟨by simp, rfl⟩
  | forget b p => exact Or.inr ⟨by simp, rfl⟩
  | relabel b text noteId => exact Or.inr ⟨by simp, same⟩

theorem apply_indexed (t : Tree) (e : Edit) : (e.apply t).Indexed x ↔ (e.memory t).Indexed x := by
  simp only [Indexed, (apply_fields t e).2.2.2.1]

theorem apply_record (t : Tree) (e : Edit) (x : BranchPtr) :
    (e.apply t).record x = (e.memory t).record x :=
  congrArg Write.record (ioSaveBranchHead_congr (apply_fields t e).1 x)

end Edit

open Edit

theorem Slots.apply {e : Edit} (slots : t.Slots) (wf : t.WellFormed) (allowed : e.Allowed t)
    (fits : (e.apply t).branchN.toNat * 20 < 2 ^ 32) : (e.apply t).Slots where
  lt := by
    intro x indexed
    rw [apply_indexed] at indexed
    rw [(apply_fields t e).1]
    have involved : e.Involves t x := Or.inr indexed
    have bound := involves_findex_lt wf slots allowed involved
    rcases branchN_cases slots e with ⟨pb, new, i, rfl, more⟩ | ⟨notGrow, same⟩
    · rw [more]
      omega
    · rcases involves_cases involved with old | ⟨pb, new, i, isGrow, _⟩
      · rw [bound.2 old, same]
        exact slots.lt old
      · exact absurd isGrow (notGrow pb new i)
  inj := by
    intro x y indexedX indexedY same
    rw [apply_indexed] at indexedX indexedY
    rw [(apply_fields t e).1] at same
    exact involves_inj wf slots allowed (Or.inr indexedX) (Or.inr indexedY) same
  fits := fits

theorem Edit.touched_fits {e : Edit} (wf : t.WellFormed) (rooted : t.Rooted) (slots : t.Slots)
    (allowed : e.Allowed t) (fits : (e.apply t).branchN.toNat * 20 < 2 ^ 32) {x : BranchPtr}
    (member : x ∈ e.touched t) : ((e.memory t).mem x).findex.toNat * 20 < 2 ^ 32 := by
  have involved := touched_involves wf rooted allowed member
  have bound := involves_findex_lt wf slots allowed involved
  have old := slots.fits
  rcases branchN_cases slots e with ⟨pb, new, i, rfl, more⟩ | ⟨notGrow, same⟩
  · omega
  · omega

/-- The file after the first `k` writes. -/
theorem Edit.take_writes {e : Edit} (wf : t.WellFormed) (rooted : t.Rooted) (slots : t.Slots)
    (allowed : e.Allowed t) (fits : (e.apply t).branchN.toNat * 20 < 2 ^ 32) (k : ℕ) :
    ((e.writes t).take k).foldl applyWrite t.bhead =
      (e.memory t).saveAll t.bhead ((e.touched t).take k) := by
  rw [writes_eq wf allowed, ← List.map_take]
  apply foldl_applyWrite
  intro x member
  exact touched_fits wf rooted slots allowed fits (List.mem_of_mem_take member)

theorem Edit.apply_bhead {e : Edit} (wf : t.WellFormed) (rooted : t.Rooted) (slots : t.Slots)
    (allowed : e.Allowed t) (fits : (e.apply t).branchN.toNat * 20 < 2 ^ 32) :
    (e.apply t).bhead = (e.memory t).saveAll t.bhead (e.touched t) := by
  rw [(apply_fields t e).2.2.2.2.2, writes_eq wf allowed]
  apply foldl_applyWrite
  intro x member
  exact touched_fits wf rooted slots allowed fits member

theorem Edit.size_apply {e : Edit} (wf : t.WellFormed) (rooted : t.Rooted) (slots : t.Slots)
    (allowed : e.Allowed t) (holds : t.Holds t.bhead) :
    ((e.memory t).saveAll t.bhead (e.touched t)).size = (e.apply t).branchN.toNat * 20 := by
  have bound : ∀ x ∈ e.touched t, ((e.memory t).mem x).findex.toNat ≤ t.branchN.toNat :=
    fun x member => (involves_findex_lt wf slots allowed
      (touched_involves wf rooted allowed member)).1
  rcases branchN_cases slots e with ⟨pb, new, i, rfl, more⟩ | ⟨notGrow, same⟩
  · -- The first write appends the new slot.
    rw [more]
    change (((grow pb new i).memory t).saveAll (Bhead.codec.put t.bhead _ _)
      (pb :: ((t.grow pb new i).children pb).drop i)).size = _
    apply Bhead.codec.size_putAll
    · rw [Bhead.codec.size_put, holds.size]
      simp only [grow_findex_next, allowed.2.1]
      exact max_eq_right (Nat.mul_le_mul_right 20 (Nat.le_succ _))
    · intro x member
      exact Nat.lt_succ_of_le (bound x (List.mem_cons_of_mem _ member))
  · rw [same]
    apply Bhead.codec.size_putAll
    · exact holds.size
    · intro x member
      have involved := touched_involves wf rooted allowed member
      rcases involves_cases involved with old | ⟨pb, new, i, isGrow, _⟩
      · rw [(involves_findex_lt wf slots allowed involved).2 old]
        exact slots.lt old
      · exact absurd isGrow (notGrow pb new i)

/-- If the file is the image of the tree, it is so again after the writes of an edit. -/
theorem Holds.apply {e : Edit} (holds : t.Holds t.bhead) (wf : t.WellFormed) (rooted : t.Rooted)
    (slots : t.Slots) (allowed : e.Allowed t) (tame : e.Tame True False t)
    (fits : (e.apply t).branchN.toNat * 20 < 2 ^ 32) : (e.apply t).Holds (e.apply t).bhead := by
  have touchedOnly : ∀ {x}, x ∈ e.touched t → e.Involves t x :=
    touched_involves wf rooted allowed
  have distinct : ∀ {x y}, e.Involves t x → e.Involves t y →
      ((e.memory t).mem x).findex.toNat = ((e.memory t).mem y).findex.toNat → x = y :=
    fun involvedX involvedY same =>
      involves_inj wf slots allowed involvedX involvedY (UInt32.toNat_inj.mp same)
  have written : ∀ {x}, x ∈ e.touched t →
      Bhead.codec.get ((e.memory t).saveAll t.bhead (e.touched t))
        ((e.memory t).mem x).findex.toNat = (e.memory t).record x := by
    intro x member
    apply Bhead.codec.get_putAll_of_mem _ (fun b => ((e.memory t).mem b).findex.toNat)
    · intro y memberY same
      rw [distinct (touchedOnly memberY) (touchedOnly member) same]
    · exact member
  rw [apply_bhead wf rooted slots allowed fits]
  constructor
  · exact size_apply wf rooted slots allowed holds
  · intro x indexed
    rw [apply_indexed] at indexed
    rw [apply_record, (apply_fields t e).1]
    by_cases member : x ∈ e.touched t
    · exact written member
    · rcases untouched_record wf allowed tame indexed member with ⟨old, same⟩
      rw [saveAll, Bhead.codec.get_putAll_of_not_mem, same,
        (involves_findex_lt wf slots allowed (Or.inl old)).2 old, holds.record old]
      intro y memberY sameSlot
      rw [distinct (touchedOnly memberY) (Or.inr indexed) sameSlot] at memberY
      exact member memberY
  · intro i unused
    rw [(apply_fields t e).1] at unused
    by_cases hit : ∃ x ∈ e.touched t, ((e.memory t).mem x).findex.toNat = i
    · rcases hit with ⟨x, member, rfl⟩
      have gone : ¬(e.memory t).Indexed x :=
        fun indexed => unused x ((apply_indexed t e).mpr indexed) rfl
      rw [written member]
      exact (dropped_record wf allowed tame (touchedOnly member) gone).2
    · rw [saveAll, Bhead.codec.get_putAll_of_not_mem]
      · apply holds.blank
        intro x old sameSlot
        have involved : e.Involves t x := Or.inl old
        rw [← (involves_findex_lt wf slots allowed involved).2 old] at sameSlot
        by_cases still : (e.memory t).Indexed x
        · exact unused x ((apply_indexed t e).mpr still) sameSlot
        · exact hit ⟨x, (dropped_record wf allowed tame involved still).1, sameSlot⟩
      · intro x member sameSlot
        exact hit ⟨x, member, sameSlot⟩

/-- The file is the image of the tree, and nothing is lost. -/
structure InStep (t : Tree) : Prop where
  rooted : t.Rooted
  slots : t.Slots
  holds : t.Holds t.bhead

theorem InStep.apply {e : Edit} (inStep : t.InStep) (wf : t.WellFormed) (allowed : e.Allowed t)
    (tame : e.Tame True False t) (fits : (e.apply t).branchN.toNat * 20 < 2 ^ 32) :
    (e.apply t).InStep where
  rooted := inStep.rooted.apply wf allowed tame
  slots := inStep.slots.apply wf allowed fits
  holds := inStep.holds.apply wf inStep.rooted inStep.slots allowed tame fits

theorem Edit.apply_next (t : Tree) (e : Edit) :
    (∃ pb new i, e = grow pb new i ∧ (e.apply t).next = t.next + 1) ∨
      (∀ pb new i, e ≠ grow pb new i) ∧ (e.apply t).next = t.next := by
  have same := (apply_fields t e).2.1
  cases e with
  | grow pb new i => exact Or.inl ⟨pb, new, i, rfl, same⟩
  | rehome b opb npb i => exact Or.inr ⟨by simp, rfl⟩
  | forget b p => exact Or.inr ⟨by simp, rfl⟩
  | relabel b text noteId => exact Or.inr ⟨by simp, same⟩

/-- Slots and addresses are handed out together. -/
theorem Edit.branchN_add (slots : t.Slots) (e : Edit) :
    (e.apply t).branchN.toNat + t.next = t.branchN.toNat + (e.apply t).next := by
  rcases branchN_cases slots e with ⟨pb, new, i, rfl, more⟩ | ⟨notGrow, same⟩
  · rcases apply_next t (grow pb new i) with ⟨_, _, _, _, next⟩ | ⟨notGrow, _⟩
    · rw [more, next]
      omega
    · exact absurd rfl (notGrow pb new i)
  · rcases apply_next t e with ⟨pb, new, i, isGrow, _⟩ | ⟨_, next⟩
    · exact absurd isGrow (notGrow pb new i)
    · rw [same, next]

theorem Edits.next_le {P : Tree → Edit → Prop} {t t' : Tree} (edits : Edits P t t') :
    t.next ≤ t'.next := by
  induction edits with
  | nil => exact Nat.le_refl _
  | @cons t _ e _ _ _ ih =>
      rcases Edit.apply_next t e with ⟨_, _, _, _, next⟩ | ⟨_, next⟩
      · rw [next] at ih
        exact Nat.le_of_succ_le ih
      · rw [next] at ih
        exact ih

/-- A sequence of edits keeps the file in step, if the last slot still fits into the file. -/
theorem InStep.edits {t t' : Tree} (edits : Edits (Edit.Tame True False) t t')
    (wf : t.WellFormed) (inStep : t.InStep)
    (fits : (t.branchN.toNat + (t'.next - t.next)) * 20 < 2 ^ 32) :
    t'.InStep ∧ t'.branchN.toNat + t.next = t.branchN.toNat + t'.next := by
  induction edits with
  | nil t => exact ⟨inStep, rfl⟩
  | @cons t t' e allowed tame rest ih =>
      have added := Edit.branchN_add inStep.slots e
      have later : @LE.le ℕ _ (e.apply t).next t'.next := rest.next_le
      have now : @LE.le ℕ _ t.next (e.apply t).next := (Edits.single e allowed tame).next_le
      rcases ih (wf.apply allowed) (inStep.apply wf allowed tame (by omega)) (by omega) with
        ⟨after, total⟩
      exact ⟨after, by omega⟩

end Tree

/-! ## Calls -/

section Calls

variable {m m' : Map} {call : Call}

theorem move_next {view : Option ViewPtr} {newParentId oldParentId branchId : UInt64} {pos : UInt16}
    {accepted : Bool} (wf : m.tree.WellFormed)
    (run : move m view newParentId oldParentId branchId pos = .ok (m', accepted)) :
    m'.tree.next = m.tree.next := by
  by_cases accept : ∃ b opb npb,
      moveCheck m.tree newParentId oldParentId branchId = .accept b opb npb
  · rcases accept with ⟨b, opb, npb, accept⟩
    rw [(move_of_accept wf accept run).2.1]
    rfl
  · have refused : ∀ b opb npb,
        moveCheck m.tree newParentId oldParentId branchId ≠ .accept b opb npb :=
      fun b opb npb same => accept ⟨b, opb, npb, same⟩
    rw [(move_of_not_accept refused run).1]

theorem deleteChildren_next {b : BranchPtr} (fuel i : ℕ) (wf : m.tree.WellFormed)
    (run : deleteChildren b fuel i m = .ok m') : m'.tree.next = m.tree.next := by
  induction fuel generalizing m i with
  | zero =>
      simp only [deleteChildren, Except.ok.injEq] at run
      rw [run]
  | succ fuel ih =>
      unfold deleteChildren at run
      split at run
      · split at run
        · simp at run
        · split at run
          · simp at run
          · rcases bind_eq_ok.mp run with ⟨⟨m₁, accepted⟩, moved, run⟩
            have first := move_edits False False wf moved
            exact (ih (i + 1) (first.wellFormed wf) run).trans (move_next wf moved)
      · simp only [Except.ok.injEq] at run
        rw [run]

/-- An insert, a move or a delete allocates at most one branch. -/
theorem call_next_le (wf : m.tree.WellFormed) (single : call.IsSingle)
    (run : m.call call = .ok m') : @LE.le ℕ _ m'.tree.next (m.tree.next + call.grows) := by
  cases call with
  | insert viewId parentId branchId pos text mark doc =>
      rcases map_eq_ok.mp run with ⟨⟨m₁, r⟩, inserted, rfl⟩
      rcases insert_cases wf inserted with ⟨rfl, _, _⟩ | ⟨pb, _, _, _, after, _⟩
      · exact Nat.le_succ _
      · rw [after, (Edit.apply_fields _ _).2.1]
        exact Nat.le_refl _
  | move viewId newParentId oldParentId branchId pos =>
      rcases map_eq_ok.mp run with ⟨⟨m₁, accepted⟩, moved, rfl⟩
      exact (move_next wf moved).le
  | delete viewId branchId =>
      by_cases known : ∃ b p, m.tree.branchIndex branchId = some b ∧ m.tree.parent b = some p
      · rcases known with ⟨b, p, found, parentB⟩
        rcases delete_of_found True True wf found parentB run with ⟨m₁, moved, _, _, after⟩
        have same : m'.tree.next = m.tree.next := by
          rw [after]
          exact deleteChildren_next _ _ wf moved
        exact same.le
      · have missing : ∀ b p, m.tree.branchIndex branchId = some b → m.tree.parent b ≠ some p :=
          fun b p found parentB => known ⟨b, p, found, parentB⟩
        rw [delete_of_not_found missing run]
        exact Nat.le_refl _
  | _ => exact single.elim

/--
The states of which the file is the image: every indexed branch is reachable and has a slot of its
own, below the number of slots, and the file agrees with what a full save writes.
-/
structure Tree.FullySaved (t : Tree) : Prop where
  nothingLost : t.NothingLost
  slot_lt : ∀ b, t.Reachable b → (t.mem b).findex < t.branchN
  slot_inj : ∀ b c, t.Reachable b → t.Reachable c → (t.mem b).findex = (t.mem c).findex → b = c
  image : SameRecords t.bhead (ioResaveImage t)

theorem Tree.FullySaved.inStep {t : Tree} (saved : t.FullySaved) (wf : t.WellFormed)
    (fits : t.branchN.toNat * 20 < 2 ^ 32) : t.InStep := by
  have reachable := saved.nothingLost.indexed_iff
  have rooted := wf.nothingLost_iff.mp saved.nothingLost
  have slots : t.Slots := by
    refine ⟨?_, ?_, fits⟩
    · intro b indexed
      exact saved.slot_lt b ((reachable b).mp indexed)
    · intro b c indexedB indexedC same
      exact saved.slot_inj b c ((reachable b).mp indexedB) ((reachable c).mp indexedC) same
  exact ⟨rooted, slots, (wf.holds_iff rooted slots).mpr saved.image⟩

theorem Tree.InStep.fullySaved {t : Tree} (inStep : t.InStep) (wf : t.WellFormed) :
    t.FullySaved := by
  have nothingLost := wf.nothingLost_iff.mpr inStep.rooted
  have indexed := fun b => (nothingLost.indexed_iff b).mpr
  refine ⟨nothingLost, ?_, ?_, ?_⟩
  · intro b reachable
    exact inStep.slots.lt (indexed b reachable)
  · intro b c reachableB reachableC same
    exact inStep.slots.inj (indexed b reachableB) (indexed c reachableC) same
  · exact (wf.holds_iff inStep.rooted inStep.slots).mp inStep.holds

/--
An insert, a move, or a delete of a branch with at most one child keeps the file equal to the image
of the tree. Without views it also returns.
-/
theorem call_fullySaved (wf : m.tree.WellFormed) (saved : m.tree.FullySaved)
    (room : ∀ b, (m.tree.children b).length < 65535)
    (fits : (m.tree.branchN.toNat + call.grows) * 20 < 2 ^ 32) (single : call.IsSingle)
    (few : call.DeletesFew m.tree) :
    (m.overlay.NoViews → ∃ m', m.call call = .ok m') ∧
      ∀ m', m.call call = .ok m' → m'.tree.WellFormed ∧ m'.tree.FullySaved := by
  refine ⟨fun none' => call_returns wf none' room single few, ?_⟩
  intro m' run
  have wf' := call_wellFormed wf run
  have edits := call_edits True False wf (fun _ => few) False.elim run
  have added := call_next_le wf single run
  have inStep := saved.inStep wf (by omega)
  refine ⟨wf', Tree.InStep.fullySaved ?_ wf'⟩
  apply (InStep.edits edits wf inStep _).1
  have gained : m'.tree.next - m.tree.next ≤ call.grows := Nat.sub_le_of_le_add (by omega)
  omega

end Calls

/-! ## A new map -/

theorem mapCreateEmpty_indexed {id : UInt32} {b : BranchPtr}
    (indexed : (mapCreateEmpty id).tree.Indexed b) : b = 0 := by
  rcases indexed with ⟨k, stored⟩
  rw [(mapCreateEmpty_holdsOnlyRoot id).index] at stored
  split at stored
  · exact (Option.some.inj stored).symm
  · simp at stored

theorem mapCreateEmpty_bhead (id : UInt32) :
    (mapCreateEmpty id).tree.bhead =
      Bhead.codec.put (ByteFile.zeros 0) 0 ((mapCreateEmpty id).tree.record 0) := by
  have root : (mapCreateEmpty id).tree.record 0 = (rootTree 1 (cstr "My map")).record 0 :=
    congrArg Write.record (ioSaveBranchHead_congr (mapCreateEmpty_mem id) 0)
  rw [root, mapCreateEmpty_tree, ioBranchNew, (ioSaveBranchData_fields _ _).2.2.2.2.2]
  rfl

theorem mapCreateEmpty_inStep (id : UInt32) : (mapCreateEmpty id).tree.InStep where
  rooted := (mapCreateEmpty_holdsOnlyRoot id).rooted
  slots := by
    refine ⟨?_, ?_, ?_⟩
    · intro b indexed
      rw [mapCreateEmpty_indexed indexed]
      exact Nat.zero_lt_one
    · intro b c indexedB indexedC _
      rw [mapCreateEmpty_indexed indexedB, mapCreateEmpty_indexed indexedC]
    · change 1 * 20 < 2 ^ 32
      decide
  holds := by
    rw [mapCreateEmpty_bhead]
    constructor
    · rfl
    · intro b indexed
      rw [mapCreateEmpty_indexed indexed]
      exact Bhead.codec.get_put_same _ 0 _
    · intro i unused
      have other : i ≠ 0 := (unused 0 ⟨1, rfl⟩).symm
      rw [Bhead.codec.get_put_ne _ _ other, Bhead.codec.get_zeros, blank_eq]

/-- Edits of a new map keep the file in step, and use as many slots as addresses. -/
theorem edits_inStep {id : UInt32} {t : Tree}
    (edits : Edits (Edit.Tame True False) (mapCreateEmpty id).tree t) (fits : t.next * 20 < 2 ^ 32) :
    t.InStep ∧ t.branchN.toNat = t.next := by
  have start := mapCreateEmpty_holdsOnlyRoot id
  have first : @LE.le ℕ _ 1 t.next := by
    rw [← start.next]
    exact edits.next_le
  rcases InStep.edits edits start.wellFormed (mapCreateEmpty_inStep id) (by
    rw [start.next]
    change (1 + (t.next - 1)) * 20 < 2 ^ 32
    omega) with ⟨inStep, total⟩
  rw [start.next] at total
  change t.branchN.toNat + 1 = 1 + t.next at total
  exact ⟨inStep, by omega⟩

/-- A run that leaves a small tree leaves its image. -/
theorem run_fullySaved {calls : List Call} {m : Map}
    (few : (mapCreateEmpty 1).Along (fun m call => call.DeletesFew m.tree) calls)
    (run : (mapCreateEmpty 1).run calls = .ok m) (small : m.tree.next < 65535) :
    m.tree.WellFormed ∧ m.tree.FullySaved ∧ m.tree.branchN.toNat = m.tree.next ∧
      ∀ b, (m.tree.children b).length < 65535 := by
  have start := mapCreateEmpty_holdsOnlyRoot 1
  have wf := run_wellFormed start.wellFormed run
  have edits : Edits (Edit.Tame True False) (mapCreateEmpty 1).tree m.tree :=
    run_edits True False start.wellFormed (fun _ _ few => ⟨fun _ => few, False.elim⟩) few run
  rcases edits_inStep edits (by omega) with ⟨inStep, slots⟩
  exact ⟨wf, inStep.fullySaved wf, slots, wf.children_length_lt small⟩

/-- The first of three children is moved to the end. -/
theorem call_fullySaved_example :
    ∃ m, (mapCreateEmpty 1).run
        [.insert 0 1 2 0 [] 0 0, .insert 0 1 3 1 [] 0 0, .insert 0 1 4 2 [] 0 0] = .ok m ∧
      (m.overlay.NoViews → ∃ m', m.call (.move 0 1 1 2 2) = .ok m') ∧
      ∀ m', m.call (.move 0 1 1 2 2) = .ok m' → m'.tree.WellFormed ∧ m'.tree.FullySaved := by
  have observed : ((mapCreateEmpty 1).run
      [.insert 0 1 2 0 [] 0 0, .insert 0 1 3 1 [] 0 0,
        .insert 0 1 4 2 [] 0 0]).toOption.map (fun m => m.tree.next) = some 4 := by
    decide +kernel
  cases run : (mapCreateEmpty 1).run
      [.insert 0 1 2 0 [] 0 0, .insert 0 1 3 1 [] 0 0, .insert 0 1 4 2 [] 0 0] with
  | error e => simp [run, Except.toOption] at observed
  | ok m =>
      simp only [run, Except.toOption, Option.map_some, Option.some.injEq] at observed
      rcases run_fullySaved (by decide +kernel) run (by omega) with ⟨wf, saved, slots, room⟩
      refine ⟨m, rfl, ?_⟩
      apply call_fullySaved wf saved room
      · rw [slots, observed]
        decide
      · trivial
      · trivial

end Treedb
