import Treedb.Loading

/-!
# Crashes between two writes

An operation issues its record writes one by one, and each reaches the file separately. A crash
leaves the file with a prefix of them. There is no journal: the file is sound again only after the
last write, and whether it stays sound on the way depends on how much the operation rearranges.

The first write of an insert already names a position that its parent does not have yet, or that
another child still has. The same is true of a move, unless the branch stays where it is. A delete
lowers the counter of the parent before the later siblings move up, so it is sound on the way
exactly if there are none.
-/

namespace Treedb

open Forest Outcome RecordFile Treedb.Tree

/-- The record describes a child: the load will store it in the array of its parent. -/
def Bhead.IsChild (h : Bhead) : Prop :=
  h.id ≠ 0 ∧ h.parentId ≠ 0

/--
Every child record names a parent that is present and has room for its position, and no two child
records claim the same place.
-/
structure LoadSafe (file : ByteFile) : Prop where
  parent : ∀ i, (Bhead.codec.get file i).IsChild → ∃ j,
    (Bhead.codec.get file j).id = (Bhead.codec.get file i).parentId ∧
      (Bhead.codec.get file i).pos < (Bhead.codec.get file j).childN
  place : ∀ i j, (Bhead.codec.get file i).IsChild → (Bhead.codec.get file j).IsChild →
    (Bhead.codec.get file i).parentId = (Bhead.codec.get file j).parentId →
    (Bhead.codec.get file i).pos = (Bhead.codec.get file j).pos → i = j

theorem LoadSafe.congr {f g : ByteFile} (safe : LoadSafe f)
    (same : ∀ i, Bhead.codec.get g i = Bhead.codec.get f i) : LoadSafe g := by
  constructor
  · intro i child
    rw [same i] at child ⊢
    rcases safe.parent i child with ⟨j, id, room⟩
    exact ⟨j, by rw [same j, id], by rw [same j]; exact room⟩
  · intro i j childI childJ
    rw [same i] at childI ⊢
    rw [same j] at childJ ⊢
    exact safe.place i j childI childJ

/-- A record whose branch is nobody's parent may be blanked. -/
theorem LoadSafe.erase {file : ByteFile} (safe : LoadSafe file) (s : ℕ)
    (noChild : ∀ i, (Bhead.codec.get file i).IsChild →
      (Bhead.codec.get file i).parentId ≠ (Bhead.codec.get file s).id) :
    LoadSafe (Bhead.codec.put file s {}) := by
  have other : ∀ {i}, (Bhead.codec.get (Bhead.codec.put file s {}) i).IsChild → i ≠ s := by
    rintro i child rfl
    rw [Bhead.codec.get_put_same] at child
    exact child.1 rfl
  constructor
  · intro i child
    have ne := other child
    rw [Bhead.codec.get_put_ne _ _ ne] at child ⊢
    rcases safe.parent i child with ⟨j, id, room⟩
    have neJ : j ≠ s := by
      rintro rfl
      exact noChild i child id.symm
    exact ⟨j, by rw [Bhead.codec.get_put_ne _ _ neJ, id],
      by rw [Bhead.codec.get_put_ne _ _ neJ]; exact room⟩
  · intro i j childI childJ
    have neI := other childI
    have neJ := other childJ
    rw [Bhead.codec.get_put_ne _ _ neI] at childI ⊢
    rw [Bhead.codec.get_put_ne _ _ neJ] at childJ ⊢
    exact safe.place i j childI childJ

namespace Tree

variable {t : Tree} {b c p pb opb npb : BranchPtr} {new : Branch} {i : ℕ} {file : ByteFile}

/-! ## The image is sound -/

/-- A record with a nonzero id is that of an indexed branch. -/
theorem Holds.exists_branch (holds : t.Holds file) (live : (Bhead.codec.get file i).id ≠ 0) :
    ∃ b, t.Indexed b ∧ t.slot b = i ∧ Bhead.codec.get file i = t.record b := by
  by_cases used : ∃ b, t.Indexed b ∧ t.slot b = i
  · rcases used with ⟨b, indexed, rfl⟩
    exact ⟨b, indexed, rfl, holds.record indexed⟩
  · have unused : ∀ b, t.Indexed b → t.slot b ≠ i := fun b indexed same => used ⟨b, indexed, same⟩
    rw [holds.blank i unused] at live
    exact absurd rfl live

theorem Holds.exists_child (holds : t.Holds file)
    (child : (Bhead.codec.get file i).IsChild) :
    ∃ b p, t.parent b = some p ∧ t.slot b = i ∧ Bhead.codec.get file i = t.record b := by
  rcases holds.exists_branch child.1 with ⟨b, indexed, rfl, head⟩
  cases step : t.parent b with
  | none =>
      rw [head] at child
      exact absurd (record_of_root step) child.2
  | some p => exact ⟨b, p, step, rfl, head⟩

theorem Holds.loadSafe (holds : t.Holds file) (wf : t.WellFormed) (rooted : t.Rooted) :
    LoadSafe file := by
  constructor
  · intro i child
    rcases holds.exists_child child with ⟨b, p, step, rfl, head⟩
    have indexedP := rooted.parent_indexed wf step
    have parentHead : Bhead.codec.get file (t.slot p) = t.record p := holds.record indexedP
    rcases wf.record_of_parent step with ⟨parentId, pos⟩
    refine ⟨t.slot p, ?_, ?_⟩
    · rw [head, parentHead, record_id, parentId]
    · rw [head, parentHead, record_childN, UInt16.lt_iff_toNat_lt, pos, wf.childN_eq]
      exact List.idxOf_lt_length_of_mem (wf.mirrors.mem_iff.mpr step)
  · intro i j childI childJ sameParent samePos
    rcases holds.exists_child childI with ⟨b, p, step, rfl, head⟩
    rcases holds.exists_child childJ with ⟨c, q, stepC, rfl, headC⟩
    rcases wf.record_of_parent step with ⟨parentId, pos⟩
    rcases wf.record_of_parent stepC with ⟨parentIdC, posC⟩
    rw [head, headC, parentId, parentIdC] at sameParent
    have same := wf.id_injective (rooted.parent_indexed wf step) (rooted.parent_indexed wf stepC)
      sameParent
    subst same
    rw [head, headC, ← UInt16.toNat_inj, pos, posC] at samePos
    have listed : b ∈ t.children p := wf.mirrors.mem_iff.mpr step
    rw [List.idxOf_inj listed |>.mp samePos]

theorem Holds.slot_of_id (holds : t.Holds file) (wf : t.WellFormed) (noZero : t.NoZero)
    (indexed : t.Indexed p) (same : (Bhead.codec.get file i).id = (t.mem p).id) : i = t.slot p := by
  have live : (Bhead.codec.get file i).id ≠ 0 := by
    rw [same]
    exact noZero.id_ne_zero wf indexed
  rcases holds.exists_branch live with ⟨b, indexedB, rfl, head⟩
  rw [head, record_id] at same
  rw [wf.id_injective indexedB indexed same]

/-! ## Edits -/

section Edits

variable (inStep : t.InStep) (wf : t.WellFormed) (noZero : t.NoZero)

include inStep wf noZero

/-- A record that claims a place of `p` which `p` does not have, or a sibling has, breaks the file. -/
theorem put_unsafe {h : Bhead} (indexed : t.Indexed p) (child : h.IsChild)
    (parentId : h.parentId = (t.mem p).id) (notParent : h.id ≠ (t.mem p).id) {s : ℕ}
    (other : ∀ c, (t.children p)[h.pos.toNat]? = some c → t.slot c ≠ s)
    (apart : t.slot p ≠ s) : ¬LoadSafe (Bhead.codec.put t.bhead s h) := by
  intro safe
  have here := Bhead.codec.get_put_same t.bhead s h
  have holds := inStep.holds
  cases taken : (t.children p)[h.pos.toNat]? with
  | some c =>
      have listed := List.mem_of_getElem? taken
      have step := wf.mirrors.mem_iff.mp listed
      have indexedC := wf.indexed_of_parent step
      have ne := other c taken
      have there : Bhead.codec.get (Bhead.codec.put t.bhead s h) (t.slot c) = t.record c := by
        rw [Bhead.codec.get_put_ne _ _ ne]
        exact holds.record indexedC
      rcases wf.record_of_parent step with ⟨parentIdC, posC⟩
      apply ne
      apply safe.place
      · rw [there, Bhead.IsChild, record_id, parentIdC]
        exact ⟨noZero.id_ne_zero wf indexedC, noZero.id_ne_zero wf indexed⟩
      · rw [here]
        exact child
      · rw [here, there, parentIdC, parentId]
      · rw [here, there, ← UInt16.toNat_inj, posC]
        exact idxOf_of_getElem? (wf.mirrors.nodup p) taken
  | none =>
      rcases safe.parent s (by rw [here]; exact child) with ⟨j, id, room⟩
      rw [here] at id room
      have ne : j ≠ s := by
        rintro rfl
        rw [here, parentId] at id
        exact notParent id
      rw [Bhead.codec.get_put_ne _ _ ne] at id room
      have slot := holds.slot_of_id wf noZero indexed (id.trans parentId)
      subst slot
      have head : Bhead.codec.get t.bhead (t.slot p) = t.record p := holds.record indexed
      rw [head, record_childN, UInt16.lt_iff_toNat_lt, wf.childN_eq] at room
      have full := List.getElem?_eq_none_iff.mp taken
      omega

theorem grow_unsafe (allowed : (Edit.grow pb new i).Allowed t) (named : new.id ≠ 0)
    (fits : ((Edit.grow pb new i).apply t).branchN.toNat * 20 < 2 ^ 32) :
    ¬LoadSafe ((((Edit.grow pb new i).writes t).take 1).foldl applyWrite t.bhead) := by
  have after : (t.grow pb new i).WellFormed := Edit.memory_wellFormed wf allowed
  rw [Edit.take_writes wf inStep.rooted inStep.slots allowed fits]
  rcases allowed with ⟨fresh, slot, indexed, unused, _, inside⟩
  have step : (t.grow pb new i).parent t.next = some pb := by
    rw [wf.grow_parent fresh, if_pos rfl]
  have old : pb ≠ t.next := Nat.ne_of_lt (wf.indexed_lt indexed)
  rcases after.record_of_parent step with ⟨parentId, pos⟩
  rw [grow_id, if_neg old] at parentId
  have lower : ∀ {c}, t.Indexed c → t.slot c ≠ t.branchN.toNat :=
    fun indexedC => Nat.ne_of_lt (inStep.slots.lt indexedC)
  have id : ((t.grow pb new i).record t.next).id = new.id := by
    rw [record_id, grow_id, if_pos rfl]
  have notParent : new.id ≠ (t.mem pb).id := by
    intro same
    rw [same, wf.indexed_id indexed] at unused
    simp at unused
  have first : ((Edit.grow pb new i).memory t).saveAll t.bhead
      (((Edit.grow pb new i).touched t).take 1) =
      Bhead.codec.put t.bhead t.branchN.toNat ((t.grow pb new i).record t.next) := by
    have findex := Edit.grow_findex_next t pb new i
    rw [slot] at findex
    simp only [Edit.touched, List.cons_append, List.take_succ_cons, List.take_zero, saveAll,
      Codec.putAll, List.foldl_cons, List.foldl_nil, findex]
    rfl
  rw [first]
  apply put_unsafe inStep wf noZero indexed
  · rw [Bhead.IsChild, id, parentId]
    exact ⟨named, noZero.id_ne_zero wf indexed⟩
  · exact parentId
  · rw [id]
    exact notParent
  · intro c taken
    exact lower (wf.indexed_of_parent (wf.mirrors.mem_iff.mp (List.mem_of_getElem? taken)))
  · exact lower indexed

theorem rehome_unsafe (allowed : (Edit.rehome b opb npb i).Allowed t)
    (away : ¬(npb = opb ∧ (t.children opb).idxOf b = i)) :
    ¬LoadSafe ((((Edit.rehome b opb npb i).writes t).take 1).foldl applyWrite t.bhead) := by
  have after : (t.rehome b opb npb i).WellFormed := Edit.memory_wellFormed wf allowed
  rw [Edit.take_writes wf inStep.rooted inStep.slots allowed inStep.slots.fits]
  rcases allowed with ⟨step, indexed, apart, _, inside⟩
  have indexedB := wf.indexed_of_parent step
  have step' : (t.rehome b opb npb i).parent b = some npb := by
    rw [rehome_parent, if_pos rfl]
  have cut := wf.toShape.unlink step
  rcases after.record_of_parent step' with ⟨parentId, pos⟩
  have place : ((t.rehome b opb npb i).children npb).idxOf b = i := by
    rw [rehome_children, if_pos rfl]
    apply idxOf_insertIdx_self (cut.mirrors.nodup npb) _ inside
    intro listed
    have old := cut.mirrors.mem_iff.mp listed
    simp [Shape.unlink_parent] at old
  rw [place] at pos
  have id : ((t.rehome b opb npb i).record b).id = (t.mem b).id := record_id _ _
  have ne : b ≠ npb := by
    rintro rfl
    exact apart (anc_refl _ _)
  have first : ((Edit.rehome b opb npb i).memory t).saveAll t.bhead
      (((Edit.rehome b opb npb i).touched t).take 1) =
      Bhead.codec.put t.bhead (t.slot b) ((t.rehome b opb npb i).record b) := rfl
  rw [first]
  apply put_unsafe inStep wf noZero indexed
  · rw [Bhead.IsChild, id, parentId]
    exact ⟨noZero.id_ne_zero wf indexedB, noZero.id_ne_zero wf indexed⟩
  · exact parentId
  · rw [id]
    exact fun same => ne (wf.id_injective indexedB indexed same)
  · intro c taken sameSlot
    rw [pos] at taken
    have stepC := wf.mirrors.mem_iff.mp (List.mem_of_getElem? taken)
    have same := inStep.slots.slot_inj (wf.indexed_of_parent stepC) indexedB sameSlot
    subst same
    rw [step, Option.some.injEq] at stepC
    apply away
    refine ⟨stepC.symm, ?_⟩
    rw [stepC]
    exact idxOf_of_getElem? (wf.mirrors.nodup npb) taken
  · intro sameSlot
    exact ne (inStep.slots.slot_inj indexed indexedB sameSlot).symm

omit noZero in
/-- A move to the place where the branch already is writes what is already there. -/
theorem rehome_safe (allowed : (Edit.rehome b p p i).Allowed t)
    (stays : (t.children p).idxOf b = i) (k : ℕ) :
    LoadSafe ((((Edit.rehome b p p i).writes t).take k).foldl applyWrite t.bhead) := by
  have after : (t.rehome b p p i).WellFormed := Edit.memory_wellFormed wf allowed
  have fits := inStep.slots.fits
  rw [Edit.take_writes wf inStep.rooted inStep.slots allowed fits]
  have step := allowed.1
  have listed : b ∈ t.children p := wf.mirrors.mem_iff.mpr step
  have lists : ∀ x, (t.rehome b p p i).children x = t.children x := by
    intro x
    rw [rehome_children, Shape.unlink_children]
    split
    · rename_i same
      subst same
      have inside := List.idxOf_lt_length_of_mem listed
      have back := List.insertIdx_eraseIdx_getElem inside
      rw [List.getElem_idxOf inside, ← List.erase_eq_eraseIdx_of_idxOf rfl, stays] at back
      exact back
    · rfl
  have records : ∀ x, (t.rehome b p p i).record x = t.record x := by
    intro x
    have parents : (t.rehome b p p i).parent x = t.parent x := by
      rw [rehome_parent]
      split
      · rename_i same
        rw [same, step]
      · rfl
    apply wf.toShape.record_eq after.toShape parents rfl
    · rw [lists]
    · intro q _
      exact ⟨rfl, by rw [lists]⟩
  apply (inStep.holds.loadSafe wf inStep.rooted).congr
  apply Bhead.codec.get_putAll_of_same
  intro x member
  have involved := Edit.touched_involves wf inStep.rooted allowed (List.mem_of_mem_take member)
  rcases Edit.involves_cases involved with old | ⟨_, _, _, isGrow, _⟩
  · exact (inStep.holds.record old).trans (records x).symm
  · simp at isGrow

section Forget

variable (step : t.parent b = some p) (leaf : t.children b = [])

include step leaf

omit inStep noZero in
theorem forget_record_leaf : (t.forget b p).record b = {} := by
  exact Edit.forget_record_self ((wf.childN_eq_zero_iff b).mpr leaf) (wf.acyclic.parent_ne step).symm

omit inStep noZero in
/-- A delete first blanks the record of the branch, then lowers the counter of the parent. -/
theorem forget_saveAll (list : List BranchPtr) :
    ((Edit.forget b p).memory t).saveAll t.bhead (b :: list) =
      ((Edit.forget b p).memory t).saveAll (Bhead.codec.put t.bhead (t.slot b) {}) list := by
  have slot : (((Edit.forget b p).memory t).mem b).findex = (t.mem b).findex :=
    Edit.memory_findex t _ (Nat.ne_of_lt (wf.parent_lt step).1)
  simp only [saveAll, Codec.putAll, List.foldl_cons, slot]
  rw [show ((Edit.forget b p).memory t).record b = {} from forget_record_leaf wf step leaf]
  rfl

omit inStep noZero in
theorem forget_saveAll_two (list : List BranchPtr) :
    ((Edit.forget b p).memory t).saveAll t.bhead (b :: p :: list) =
      ((Edit.forget b p).memory t).saveAll (Bhead.codec.put (Bhead.codec.put t.bhead (t.slot b) {})
        (t.slot p) ((t.forget b p).record p)) list := by
  have slot : (((Edit.forget b p).memory t).mem p).findex = (t.mem p).findex :=
    Edit.memory_findex t _ (Nat.ne_of_lt (wf.parent_lt step).2)
  rw [forget_saveAll wf step leaf]
  simp only [saveAll, Codec.putAll, List.foldl_cons, slot]
  rfl

/-- The last sibling is beyond the lowered counter of the parent. -/
theorem forget_unsafe (notLast : (t.children p).idxOf b + 1 ≠ (t.children p).length) :
    ¬LoadSafe ((((Edit.forget b p).writes t).take 2).foldl applyWrite t.bhead) := by
  have allowed : (Edit.forget b p).Allowed t := step
  have fits : ((Edit.forget b p).apply t).branchN.toNat * 20 < 2 ^ 32 := inStep.slots.fits
  rw [Edit.take_writes wf inStep.rooted inStep.slots allowed fits]
  have after : (t.forget b p).WellFormed := wf.forget step
  have indexedB := wf.indexed_of_parent step
  have indexedP := inStep.rooted.parent_indexed wf step
  have holds := inStep.holds
  have listed : b ∈ t.children p := wf.mirrors.mem_iff.mpr step
  have position := List.idxOf_lt_length_of_mem listed
  have ne : p ≠ b := wf.acyclic.parent_ne step
  have file : ((Edit.forget b p).memory t).saveAll t.bhead (((Edit.forget b p).touched t).take 2) =
      Bhead.codec.put (Bhead.codec.put t.bhead (t.slot b) {}) (t.slot p)
        ((t.forget b p).record p) := forget_saveAll_two wf step leaf []
  rw [file]
  intro safe
  -- The last child of `p` is not `b`.
  have inside : (t.children p).length - 1 < (t.children p).length := by omega
  rcases last : (t.children p)[(t.children p).length - 1]? with _ | c
  · rw [List.getElem?_eq_none_iff] at last
    omega
  · have stepC := wf.mirrors.mem_iff.mp (List.mem_of_getElem? last)
    have indexedC := wf.indexed_of_parent stepC
    have place := idxOf_of_getElem? (wf.mirrors.nodup p) last
    have other : c ≠ b := by
      rintro rfl
      omega
    have notParent : c ≠ p := (wf.acyclic.parent_ne stepC).symm
    have apart : t.slot c ≠ t.slot p :=
      fun same => notParent (inStep.slots.slot_inj indexedC indexedP same)
    have apartB : t.slot c ≠ t.slot b :=
      fun same => other (inStep.slots.slot_inj indexedC indexedB same)
    have head : Bhead.codec.get (Bhead.codec.put (Bhead.codec.put t.bhead (t.slot b) {}) (t.slot p)
        ((t.forget b p).record p)) (t.slot c) = t.record c := by
      rw [Bhead.codec.get_put_ne _ _ apart, Bhead.codec.get_put_ne _ _ apartB]
      exact holds.record indexedC
    rcases wf.record_of_parent stepC with ⟨parentId, pos⟩
    have child : (t.record c).IsChild := by
      rw [Bhead.IsChild, record_id, parentId]
      exact ⟨noZero.id_ne_zero wf indexedC, noZero.id_ne_zero wf indexedP⟩
    rcases safe.parent (t.slot c) (by rw [head]; exact child) with ⟨j, id, room⟩
    rw [head, parentId] at id
    rw [head] at room
    by_cases atP : j = t.slot p
    · subst atP
      rw [Bhead.codec.get_put_same, record_childN, UInt16.lt_iff_toNat_lt, after.childN_eq,
        forget_children, if_pos rfl, List.length_erase_of_mem listed, pos, place] at room
      omega
    · rw [Bhead.codec.get_put_ne _ _ atP] at id
      by_cases atB : j = t.slot b
      · subst atB
        rw [Bhead.codec.get_put_same] at id
        exact noZero.id_ne_zero wf indexedP id.symm
      · rw [Bhead.codec.get_put_ne _ _ atB] at id
        exact atP (holds.slot_of_id wf noZero indexedP id)

omit inStep noZero leaf in
/-- The siblings before the deleted branch keep their records. -/
theorem forget_record_earlier (isLast : (t.children p).idxOf b + 1 = (t.children p).length)
    (listed : c ∈ (t.forget b p).children p) : (t.forget b p).record c = t.record c := by
  have after : (t.forget b p).WellFormed := wf.forget step
  have listedB : b ∈ t.children p := wf.mirrors.mem_iff.mpr step
  have stepC' := after.mirrors.mem_iff.mp listed
  have other : c ≠ b := by
    rintro rfl
    rw [forget_parent, if_pos rfl] at stepC'
    simp at stepC'
  have parents : (t.forget b p).parent c = t.parent c := by
    rw [forget_parent, if_neg other]
  have stepC := parents.symm.trans stepC'
  apply wf.toShape.record_eq after.toShape parents
  · rw [forget_id, if_neg other]
  · rw [forget_children, if_neg (wf.acyclic.parent_ne stepC).symm]
  · intro q stepQ
    rw [stepC, Option.some.injEq] at stepQ
    subst stepQ
    refine ⟨by rw [forget_id, if_neg (wf.acyclic.parent_ne step)], ?_⟩
    rw [forget_children, if_pos rfl] at listed ⊢
    symm
    apply idxOf_erase_of_lt (wf.mirrors.nodup p) listedB
    have inside := List.idxOf_lt_length_of_mem listed
    rw [List.length_erase_of_mem listedB] at inside
    omega

omit noZero in
/-- The last child of a branch can be deleted in any number of steps. -/
theorem forget_safe (isLast : (t.children p).idxOf b + 1 = (t.children p).length) (k : ℕ) :
    LoadSafe ((((Edit.forget b p).writes t).take k).foldl applyWrite t.bhead) := by
  have allowed : (Edit.forget b p).Allowed t := step
  have tame : (Edit.forget b p).Tame True False t := fun _ => leaf
  have fits : ((Edit.forget b p).apply t).branchN.toNat * 20 < 2 ^ 32 := inStep.slots.fits
  have indexedB := wf.indexed_of_parent step
  have holds := inStep.holds
  have image := holds.loadSafe wf inStep.rooted
  have after : (t.forget b p).WellFormed := wf.forget step
  rw [Edit.take_writes wf inStep.rooted inStep.slots allowed fits]
  match k with
  | 0 => exact image
  | 1 =>
      have file : ((Edit.forget b p).memory t).saveAll t.bhead
          (((Edit.forget b p).touched t).take 1) = Bhead.codec.put t.bhead (t.slot b) {} :=
        forget_saveAll wf step leaf []
      rw [file]
      apply image.erase
      intro i child same
      rcases holds.exists_child child with ⟨c, q, stepC, rfl, head⟩
      have indexedQ := inStep.rooted.parent_indexed wf stepC
      have headB : Bhead.codec.get t.bhead (t.slot b) = t.record b := holds.record indexedB
      rw [head, headB, record_id, (wf.record_of_parent stepC).1] at same
      have below := wf.id_injective indexedQ indexedB same
      subst below
      have listed := wf.mirrors.mem_iff.mpr stepC
      simp [leaf] at listed
  | k + 2 =>
      have final := (inStep.apply wf allowed tame fits).holds.loadSafe (wf.apply allowed)
        (inStep.apply wf allowed tame fits).rooted
      rw [Edit.apply_bhead wf inStep.rooted inStep.slots allowed fits] at final
      -- From the third write on, the records are already there.
      have rest : ∀ x ∈ ((t.forget b p).children p).drop ((t.children p).idxOf b % 256),
          Bhead.codec.get (Bhead.codec.put (Bhead.codec.put t.bhead (t.slot b) {}) (t.slot p)
            ((t.forget b p).record p)) (((Edit.forget b p).memory t).mem x).findex.toNat =
          ((Edit.forget b p).memory t).record x := by
        intro x member
        have listed := List.mem_of_mem_drop member
        have same := forget_record_earlier wf step isLast listed
        have stepX := after.mirrors.mem_iff.mp listed
        have notB : x ≠ b := by
          rintro rfl
          rw [forget_parent, if_pos rfl] at stepX
          simp at stepX
        rw [forget_parent, if_neg notB] at stepX
        have indexedX := wf.indexed_of_parent stepX
        have indexedP := inStep.rooted.parent_indexed wf step
        have notP : x ≠ p := (wf.acyclic.parent_ne stepX).symm
        have slot : (((Edit.forget b p).memory t).mem x).findex = (t.mem x).findex :=
          Edit.memory_findex t _ (Nat.ne_of_lt (wf.indexed_lt indexedX))
        rw [slot, Bhead.codec.get_put_ne, Bhead.codec.get_put_ne, holds.record indexedX]
        · exact same.symm
        · exact fun sameSlot => notB (inStep.slots.slot_inj indexedX indexedB sameSlot)
        · exact fun sameSlot => notP (inStep.slots.slot_inj indexedX indexedP sameSlot)
      have settled : ∀ {list : List BranchPtr},
          (∀ x ∈ list, x ∈ ((t.forget b p).children p).drop ((t.children p).idxOf b % 256)) →
          ∀ i, Bhead.codec.get (((Edit.forget b p).memory t).saveAll t.bhead (b :: p :: list)) i =
            Bhead.codec.get (Bhead.codec.put (Bhead.codec.put t.bhead (t.slot b) {}) (t.slot p)
              ((t.forget b p).record p)) i := by
        intro list sub i
        rw [forget_saveAll_two wf step leaf]
        apply Bhead.codec.get_putAll_of_same
        intro x member
        exact rest x (sub x member)
      apply final.congr
      intro i
      have now := settled (fun x => List.mem_of_mem_take (i := k)) i
      have later := settled (fun x member => member) i
      exact now.trans later.symm

end Forget

end Edits

end Tree

/-! ## Calls -/

/-- The edit that an insert, an accepted move or a delete of a childless branch performs. -/
def Map.edit (m : Map) : Call → Option Edit
  | .insert _ parentId branchId pos text mark doc =>
      match m.tree.branchIndex branchId, m.tree.branchIndex parentId with
      | none, some pb => some (.grow pb (m.tree.newBranch branchId text mark doc)
          (insertPos pos.toInt32.toInt (m.tree.children pb).length))
      | _, _ => none
  | .move _ newParentId oldParentId branchId pos =>
      match moveCheck m.tree newParentId oldParentId branchId with
      | .accept b opb npb => some (.rehome b opb npb
          (insertPos pos.toNat ((m.tree.unlink b opb).children npb).length))
      | _ => none
  | .delete _ branchId =>
      match m.tree.branchIndex branchId with
      | none => none
      | some b => (m.tree.parent b).map fun p => .forget b p
  | _ => none

/-- The writes that the call issues, in order. -/
def Map.writes (m : Map) (call : Call) : List Write :=
  match m.edit call with
  | none => []
  | some e => e.writes m.tree

/-- A delete names a childless branch, or one without a parent, which stays. -/
def Call.DeletesLeaf (t : Tree) : Call → Prop
  | .delete _ branchId => ∀ b, t.branchIndex branchId = some b → t.parent b ≠ none → t.children b = []
  | _ => True

instance (t : Tree) (call : Call) : Decidable (call.DeletesLeaf t) :=
  match call with
  | .delete _ branchId =>
      match found : t.branchIndex branchId with
      | none => isTrue (by simp [Call.DeletesLeaf, found])
      | some b => decidable_of_iff (t.parent b ≠ none → t.children b = []) (by
          simp [Call.DeletesLeaf, found])
  | .insert .. | .insertInPath .. | .move .. | .moveToPath .. | .update .. | .initView ..
  | .destroyView .. | .visible .. | .invisible .. | .expandTo .. | .branchUnfold .. =>
      isTrue trivial

/--
The call moves no other branch and takes no place: it is refused, or it moves a branch to where it
is, or it deletes the last child of a branch.
-/
def Tree.Edit.KeepsPlaces (t : Tree) : Edit → Prop
  | .grow .. => False
  | .rehome b opb npb i => npb = opb ∧ (t.children opb).idxOf b = i
  | .forget b p => (t.children p).idxOf b + 1 = (t.children p).length
  | .relabel .. => True

/-- The write after which an edit that does not keep all places has left the file unsound. -/
def Tree.Edit.breaksAfter : Edit → ℕ
  | .forget .. => 2
  | _ => 1

section Calls

variable {m m' : Map} {call : Call}

/-- The call performs its edit, or nothing. -/
theorem call_edit (wf : m.tree.WellFormed) (single : call.IsSingle)
    (leaf : call.DeletesLeaf m.tree) (run : m.call call = .ok m') :
    (m.edit call = none ∧ m'.tree = m.tree) ∨
      ∃ e, m.edit call = some e ∧ e.Allowed m.tree ∧ e.Tame True False m.tree ∧
        m'.tree = e.apply m.tree := by
  cases call with
  | insert viewId parentId branchId pos text mark doc =>
      rcases map_eq_ok.mp run with ⟨⟨m₁, r⟩, inserted, rfl⟩
      rcases insert_cases wf inserted with ⟨rfl, _, refused⟩ | ⟨pb, known, unused, allowed, after, _⟩
      · left
        refine ⟨?_, rfl⟩
        simp only [Map.edit]
        split
        · rename_i pb unused known
          exact absurd ⟨unused, pb, known⟩ refused
        · rfl
      · right
        refine ⟨_, ?_, allowed, False.elim, after⟩
        simp only [Map.edit, known, unused]
  | move viewId newParentId oldParentId branchId pos =>
      rcases map_eq_ok.mp run with ⟨⟨m₁, accepted⟩, moved, rfl⟩
      cases check : moveCheck m.tree newParentId oldParentId branchId with
      | accept b opb npb =>
          rcases move_of_accept wf check moved with ⟨allowed, after, _⟩
          right
          exact ⟨_, by simp only [Map.edit, check], allowed, trivial, after⟩
      | refuse =>
          left
          have kept := move_of_not_accept (by simp [check]) moved
          exact ⟨by simp only [Map.edit, check], kept.1⟩
      | retry b p =>
          left
          have kept := move_of_not_accept (by simp [check]) moved
          exact ⟨by simp only [Map.edit, check], kept.1⟩
  | delete viewId branchId =>
      cases found : m.tree.branchIndex branchId with
      | none =>
          left
          have kept := delete_of_not_found (by simp [found]) run
          exact ⟨by simp only [Map.edit, found], by rw [kept]⟩
      | some b =>
          cases parentB : m.tree.parent b with
          | none =>
              left
              have missing : ∀ c p, m.tree.branchIndex branchId = some c →
                  m.tree.parent c ≠ some p := by
                intro c p foundC
                rw [← Option.some.inj (found.symm.trans foundC), parentB]
                simp
              have kept := delete_of_not_found missing run
              exact ⟨by simp [Map.edit, found, parentB], by rw [kept]⟩
          | some p =>
              right
              rcases delete_of_found True True wf found parentB run with ⟨m₁, moved, _, _, after⟩
              have empty := leaf b found (by simp [parentB])
              rw [deleteChildren_nil _ _ wf empty, Except.ok.injEq] at moved
              subst moved
              refine ⟨.forget b p, ?_, parentB, fun _ => empty, after⟩
              simp [Map.edit, found, parentB]
  | _ => exact single.elim

/-- Only an insert adds a branch. -/
theorem edit_grows {pb : BranchPtr} {new : Branch} {i : ℕ}
    (performed : m.edit call = some (.grow pb new i)) : call.grows = 1 := by
  cases call with
  | insert viewId parentId branchId pos text mark doc => rfl
  | move viewId newParentId oldParentId branchId pos =>
      simp only [Map.edit] at performed
      split at performed
      · simp at performed
      · simp at performed
  | delete viewId branchId =>
      simp only [Map.edit] at performed
      split at performed
      · simp at performed
      · simp at performed
  | _ => simp [Map.edit] at performed

theorem edit_named (named : call.AvoidsZero m.tree) {e : Edit} (performed : m.edit call = some e) :
    e.Tame False True m.tree := by
  cases call with
  | insert viewId parentId branchId pos text mark doc =>
      simp only [Map.edit] at performed
      split at performed
      · rename_i pb unused known
        rw [← Option.some.inj performed]
        intro _
        rcases named with other | unknown
        · exact other
        · rw [known] at unknown
          simp at unknown
      · simp at performed
  | move viewId newParentId oldParentId branchId pos =>
      simp only [Map.edit] at performed
      split at performed
      · rw [← Option.some.inj performed]
        trivial
      · simp at performed
  | delete viewId branchId =>
      simp only [Map.edit] at performed
      split at performed
      · simp at performed
      · rcases Option.map_eq_some_iff.mp performed with ⟨p, _, rfl⟩
        exact False.elim
  | _ => simp [Map.edit] at performed

section Prefixes

variable {t : Tree} {e : Edit} (wf : t.WellFormed) (inStep : t.InStep) (allowed : e.Allowed t)
  (tame : e.Tame True False t)

include wf inStep allowed tame

theorem edit_unsafe (noZero : t.NoZero) (named : e.Tame False True t)
    (fits : (e.apply t).branchN.toNat * 20 < 2 ^ 32) (away : ¬e.KeepsPlaces t) :
    ¬LoadSafe (((e.writes t).take e.breaksAfter).foldl applyWrite t.bhead) := by
  cases e with
  | grow pb new i => exact grow_unsafe inStep wf noZero allowed (named trivial) fits
  | rehome b opb npb i => exact rehome_unsafe inStep wf noZero allowed away
  | forget b p => exact forget_unsafe inStep wf noZero allowed (tame trivial) away
  | relabel b text noteId => exact absurd trivial away

theorem edit_safe (keeps : e.KeepsPlaces t) (k : ℕ) :
    LoadSafe (((e.writes t).take k).foldl applyWrite t.bhead) := by
  cases e with
  | grow pb new i => exact keeps.elim
  | rehome b opb npb i =>
      rcases keeps with ⟨rfl, stays⟩
      exact rehome_safe inStep wf allowed stays k
  | forget b p => exact forget_safe inStep wf allowed (tame trivial) keeps k
  | relabel b text noteId =>
      simp only [Edit.writes, List.take_nil, List.foldl_nil]
      exact inStep.holds.loadSafe wf inStep.rooted

end Prefixes

/--
Before its first and after its last write an operation leaves a sound file. In between the file
stays sound exactly if the operation keeps all places; else an insert or a move has left it unsound
after its first write, and a delete after its second.
-/
structure Map.CrashSafety (m : Map) (call : Call) (m' : Map) : Prop where
  file : m'.tree.bhead = (m.writes call).foldl applyWrite m.tree.bhead
  before : LoadSafe m.tree.bhead
  after : LoadSafe m'.tree.bhead
  between_iff : (∀ k, LoadSafe (((m.writes call).take k).foldl applyWrite m.tree.bhead)) ↔
    ∀ e, m.edit call = some e → e.KeepsPlaces m.tree
  breaks : ∀ e, m.edit call = some e → ¬e.KeepsPlaces m.tree →
    ¬LoadSafe (((m.writes call).take e.breaksAfter).foldl applyWrite m.tree.bhead)

theorem call_crashSafe_iff (wf : m.tree.WellFormed) (saved : m.tree.FullySaved)
    (noZero : m.tree.NoZero) (fits : (m.tree.branchN.toNat + call.grows) * 20 < 2 ^ 32)
    (single : call.IsSingle) (leaf : call.DeletesLeaf m.tree) (named : call.AvoidsZero m.tree)
    (run : m.call call = .ok m') : m.CrashSafety call m' := by
  have inStep := saved.inStep wf (by omega)
  have before := inStep.holds.loadSafe wf inStep.rooted
  rcases call_edit wf single leaf run with ⟨idle, after⟩ | ⟨e, performed, allowed, tame, after⟩
  · have nothing : m.writes call = [] := by simp only [Map.writes, idle]
    refine ⟨by rw [nothing, after]; rfl, before, after ▸ before, ?_, ?_⟩
    · rw [nothing]
      simp only [List.take_nil, List.foldl_nil, idle, reduceCtorEq, false_implies, implies_true,
        iff_true]
      exact fun _ => before
    · simp [idle]
  · have written : m.writes call = e.writes m.tree := by simp only [Map.writes, performed]
    have room : (e.apply m.tree).branchN.toNat * 20 < 2 ^ 32 := by
      rcases Edit.branchN_cases inStep.slots e with ⟨_, _, _, rfl, more⟩ | ⟨_, same⟩
      · have grows := edit_grows performed
        omega
      · rw [same]
        omega
    have inStep' := inStep.apply wf allowed tame room
    have breaks := edit_unsafe wf inStep allowed tame noZero (edit_named named performed) room
    have fields := (Edit.apply_fields m.tree e).2.2.2.2.2
    rw [← written, ← after] at fields
    have safe := inStep'.holds.loadSafe (wf.apply allowed) inStep'.rooted
    rw [← after] at safe
    rw [← written] at breaks
    refine ⟨fields, before, safe, ?_, ?_⟩
    · rw [written] at breaks ⊢
      simp only [performed, Option.some.injEq, forall_eq']
      constructor
      · intro safe
        by_contra away
        exact breaks away (safe _)
      · exact edit_safe wf inStep allowed tame
    · intro e' performed'
      rw [performed, Option.some.injEq] at performed'
      subst performed'
      exact breaks

end Calls

theorem mapCreateEmpty_insert :
    ∃ m', (mapCreateEmpty 1).call (.insert 0 1 2 0 [] 0 0) = .ok m' := by
  have start := mapCreateEmpty_holdsOnlyRoot 1
  apply call_returns start.wellFormed start.views
  · intro b
    simp [children, (start.bare b).2.1]
  · trivial
  · trivial

/-- The first of three children is deleted. -/
theorem call_crashSafe_iff_example :
    ∃ m m', (mapCreateEmpty 1).run
        [.insert 0 1 2 0 [] 0 0, .insert 0 1 3 1 [] 0 0, .insert 0 1 4 2 [] 0 0] = .ok m ∧
      m.call (.delete 0 2) = .ok m' ∧ m.CrashSafety (.delete 0 2) m' := by
  have observed : ((mapCreateEmpty 1).run
      [.insert 0 1 2 0 [] 0 0, .insert 0 1 3 1 [] 0 0,
        .insert 0 1 4 2 [] 0 0]).toOption.map (fun m => (m.tree.next,
          decide ((Call.delete 0 2).DeletesLeaf m.tree), (m.call (.delete 0 2)).toBool)) =
            some (4, true, true) := by
    decide +kernel
  rcases run : (mapCreateEmpty 1).run
      [.insert 0 1 2 0 [] 0 0, .insert 0 1 3 1 [] 0 0, .insert 0 1 4 2 [] 0 0] with e | m
  · simp [run, Except.toOption] at observed
  · simp only [run, Except.toOption, Option.map_some, Option.some.injEq, Prod.mk.injEq,
      decide_eq_true_eq] at observed
    rcases observed with ⟨next, leaf, ends⟩
    rcases deleted : m.call (.delete 0 2) with e | m'
    · simp [deleted, Except.toBool] at ends
    · rcases run_fullySaved (by decide +kernel) run (by omega) with ⟨wf, saved, slots, _⟩
      rcases run_inStep (by decide +kernel) run (by omega) with ⟨_, _, noZero⟩
      refine ⟨m, m', rfl, deleted, ?_⟩
      apply call_crashSafe_iff wf saved noZero _ _ leaf _ deleted
      · rw [slots, next]
        decide
      · trivial
      · trivial

/-- After the first write of an insert, the new record names a position its parent does not have. -/
theorem insert_not_crashSafe :
    ¬∀ k, LoadSafe ((((mapCreateEmpty 1).writes (.insert 0 1 2 0 [] 0 0)).take k).foldl
      applyWrite (mapCreateEmpty 1).tree.bhead) := by
  intro safe
  have wf := (mapCreateEmpty_holdsOnlyRoot 1).wellFormed
  rcases mapCreateEmpty_insert with ⟨m', run⟩
  have single : (Call.insert 0 1 2 0 [] 0 0).IsSingle := trivial
  rcases call_edit wf single trivial run with ⟨idle, _⟩ | ⟨e, performed, allowed, _, _⟩
  · have grows : (mapCreateEmpty 1).edit (.insert 0 1 2 0 [] 0 0) =
        some (.grow 0 ((mapCreateEmpty 1).tree.newBranch 2 [] 0 0) 0) := rfl
    simp [grows] at idle
  · have grows : e = .grow 0 ((mapCreateEmpty 1).tree.newBranch 2 [] 0 0) 0 :=
      Option.some.inj (performed.symm.trans rfl)
    subst grows
    have fits : ((Edit.grow 0 ((mapCreateEmpty 1).tree.newBranch 2 [] 0 0) 0).apply
        (mapCreateEmpty 1).tree).branchN.toNat * 20 < 2 ^ 32 := by decide +kernel
    apply grow_unsafe (mapCreateEmpty_inStep 1) wf (mapCreateEmpty_noZero 1) allowed _ fits (safe 1)
    decide

end Treedb
