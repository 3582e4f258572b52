import Treedb.Saving

/-!
# Inserts commute

Addresses and slots are handed out in the order of the inserts. Two inserts below different parents
give the same tree in both orders, but for these two: the new branches have exchanged their
addresses and their slots. What they share, the counters of common ancestors and the record file,
does not depend on the order.
-/

namespace Treedb

open Forest Outcome RecordFile Treedb.Tree

/-- The branch with `f` applied to the addresses in it. -/
def Branch.relocate (f : BranchPtr → BranchPtr) (x : Branch) : Branch :=
  { x with parent := x.parent.map f, childList := x.childList.map f }

/--
The trees are the same, but that the branches `n` and `n + 1` of the one are the branches `n + 1`
and `n` of the other. A slot stays with its address, so these two branches have exchanged theirs.
-/
structure Tree.Exchanged (n : BranchPtr) (t t' : Tree) : Prop where
  next : t'.next = t.next
  branch : t'.branch = t.branch
  branchN : t'.branchN = t.branchN
  index : ∀ k, t'.branchIndex k = (t.branchIndex k).map (Equiv.swap n (n + 1))
  mem : ∀ b, t'.mem (Equiv.swap n (n + 1) b) =
    { (t.mem b).relocate (Equiv.swap n (n + 1)) with
      findex := (t.mem (Equiv.swap n (n + 1) b)).findex }
  sqlite : t'.sqlite = t.sqlite

/-- The records `i` and `i + 1` of the files are exchanged, the others are the same. -/
def ExchangedRecords (i : ℕ) (f g : ByteFile) : Prop :=
  g.size = f.size ∧ ∀ k, Bhead.codec.get g k = Bhead.codec.get f (Equiv.swap i (i + 1) k)

/-- What an insert is asked for, once its parent is found. -/
structure Insertion where
  parent : BranchPtr
  id : UInt64
  pos : UInt32
  text : CString
  mark : UInt64
  doc : UInt64

namespace Insertion

/-- The tree part of the insert. -/
def perform (a : Insertion) (t : Tree) : Except Fault (Tree × BranchPtr) :=
  insertBranch t a.parent a.id a.pos a.text a.mark a.doc

/-- The branch that is made. -/
def new (a : Insertion) (t : Tree) : Branch :=
  t.newBranch a.id a.text a.mark a.doc

/-- The place of the new branch in the list of its parent. -/
def place (a : Insertion) (t : Tree) : ℕ :=
  insertPos a.pos.toInt32.toInt (t.children a.parent).length

/-- What the insert does to the tree. -/
def edit (a : Insertion) (t : Tree) : Edit :=
  .grow a.parent (a.new t) (a.place t)

/-- The tree after the insert. -/
def after (a : Insertion) (t : Tree) : Tree :=
  (a.edit t).apply t

/-- The insert passes its checks, and its parent has room. -/
structure Fits (a : Insertion) (t : Tree) : Prop where
  indexed : t.Indexed a.parent
  unused : t.branchIndex a.id = none
  room : (t.children a.parent).length < 65535

/-- What becomes of the branch `x` of the tree when the insert adds the branch `c`. -/
def adopt (a : Insertion) (t : Tree) (c x : BranchPtr) (old : Branch) : Branch :=
  { old with
    childList := if x = a.parent then old.childList.insertIdx (a.place t) c else old.childList
    childN := if x = a.parent then old.childN + 1 else old.childN
    totalBranchN := if x ∈ t.chain a.parent then old.totalBranchN + 1 else old.totalBranchN }

/-- The rows of the database after the data of the new branch is saved. -/
def store (a : Insertion) (rows : UInt64 → Option Row) : UInt64 → Option Row :=
  match sqlLiteral a.id with
  | .integer _ => Function.update rows a.id
      (some ⟨sqlLiteral (if a.doc ≠ 0 ∧ a.mark ≠ 0 then a.doc else 0), utf8slice a.text 5000⟩)
  | .real _ => rows

variable {a b : Insertion} {t : Tree} {c d x : BranchPtr} {old : Branch}

/-! ## One insert -/

theorem Fits.allowed (fits : a.Fits t) : (a.edit t).Allowed t :=
  ⟨newBranch_fresh .., rfl, fits.indexed, fits.unused, fits.room, insertPos_le _ _⟩

theorem Fits.perform (fits : a.Fits t) (wf : t.WellFormed) :
    a.perform t = .ok (a.after t, t.next) := by
  rw [Insertion.perform, wf.insertBranch_eq fits.indexed, if_neg fits.room.ne]
  rfl

theorem Fits.wellFormed (fits : a.Fits t) (wf : t.WellFormed) : (a.after t).WellFormed :=
  wf.apply fits.allowed

theorem Fits.parent_lt (fits : a.Fits t) (wf : t.WellFormed) : a.parent < t.next :=
  wf.indexed_lt fits.indexed

theorem after_next (a : Insertion) (t : Tree) : (a.after t).next = t.next + 1 :=
  (Edit.apply_fields t (a.edit t)).2.1

theorem after_branch (a : Insertion) (t : Tree) : (a.after t).branch = t.branch :=
  (Edit.apply_fields t (a.edit t)).2.2.1

theorem after_branchN (a : Insertion) (t : Tree) : (a.after t).branchN = t.branchN + 1 :=
  (Edit.apply_fields t (a.edit t)).2.2.2.2.1

theorem after_index (a : Insertion) (t : Tree) (k : UInt64) :
    (a.after t).branchIndex k = if k = a.id then some t.next else t.branchIndex k := by
  rw [after, (Edit.apply_fields t (a.edit t)).2.2.2.1]
  exact grow_index t a.parent (a.new t) (a.place t) k

theorem Fits.indexed_after (fits : a.Fits t) (indexed : t.Indexed x) : (a.after t).Indexed x := by
  rcases indexed with ⟨k, stored⟩
  refine ⟨k, ?_⟩
  rw [after_index, if_neg, stored]
  rintro rfl
  simp [fits.unused] at stored

theorem mem_chain_alloc (wf : t.WellFormed) :
    x ∈ (t.alloc (a.new t)).chain a.parent ↔ x ∈ t.chain a.parent := by
  have fresh : Fresh (a.new t) := newBranch_fresh ..
  rw [(wf.toShape.alloc fresh).mem_chain, wf.alloc_parent fresh, wf.mem_chain]

/-- The new branch is not among those above it. -/
theorem Fits.next_notMem_chain (fits : a.Fits t) (wf : t.WellFormed) :
    t.next ∉ t.chain a.parent := by
  intro above
  have can := wf.canLink_alloc (newBranch_fresh t a.id a.text a.mark a.doc) (fits.parent_lt wf)
  apply can.apart
  rw [wf.alloc_parent (newBranch_fresh ..)]
  exact wf.mem_chain.mp above

theorem Fits.mem_next (fits : a.Fits t) (wf : t.WellFormed) :
    (a.after t).mem t.next = { a.new t with parent := some a.parent } := by
  have below : t.next ≠ a.parent := (fits.parent_lt wf).ne'
  have off : t.next ∉ (t.alloc (a.new t)).chain a.parent :=
    fun above => fits.next_notMem_chain wf ((mem_chain_alloc wf).mp above)
  rw [after, edit, Edit.grow_apply_mem]
  simp only [Tree.grow, branchIndexPut, Tree.link, alloc_mem_next, if_pos, if_neg below, if_neg off]

theorem mem_old (wf : t.WellFormed) (ne : x ≠ t.next) :
    (a.after t).mem x = a.adopt t t.next x (t.mem x) := by
  rw [after, edit, Edit.grow_apply_mem]
  simp only [Tree.grow, branchIndexPut, Tree.link, alloc_mem_next, alloc_mem_of_ne t _ ne, if_neg ne,
    mem_chain_alloc wf]
  rfl

theorem Fits.after_sqlite (fits : a.Fits t) (wf : t.WellFormed) :
    (a.after t).sqlite = a.store t.sqlite := by
  have saved := fits.mem_next wf
  rw [after, edit, Edit.grow_apply_mem] at saved
  have id : ((t.grow a.parent (a.new t) (a.place t)).mem t.next).id = a.id := by
    rw [saved]
    rfl
  rw [after, edit, Edit.apply, ioBranchNew, ioSaveBranchData, flush_mem, id, saved, store]
  cases sqlLiteral a.id with
  | integer => rfl
  | real => rfl

/-! ## Two inserts -/

theorem store_comm (ne : a.id ≠ b.id) (rows : UInt64 → Option Row) :
    b.store (a.store rows) = a.store (b.store rows) := by
  simp only [store]
  cases sqlLiteral a.id with
  | real => rfl
  | integer =>
      cases sqlLiteral b.id with
      | real => rfl
      | integer => exact Function.update_comm ne _ _ rows

theorem adopt_comm (apart : a.parent ≠ b.parent) :
    b.adopt t d x (a.adopt t c x old) = a.adopt t c x (b.adopt t d x old) := by
  unfold adopt
  have one : x = a.parent → x ≠ b.parent := fun same => same ▸ apart
  ext1 <;> grind

theorem adopt_relocate (f : BranchPtr → BranchPtr) :
    (a.adopt t c x old).relocate f = a.adopt t (f c) x (old.relocate f) := by
  unfold adopt Branch.relocate
  ext1 <;> try rfl
  simp only
  split
  · exact List.map_insertIdx ..
  · rfl

theorem swap_old {n y : ℕ} (lower : y < n) : Equiv.swap n (n + 1) y = y :=
  Equiv.swap_apply_of_ne_of_ne lower.ne (Nat.lt_succ_of_lt lower).ne

/-- Two inserts that pass their checks, below different parents and with different ids. -/
structure Independent (a b : Insertion) (t : Tree) : Prop where
  fitsA : a.Fits t
  fitsB : b.Fits t
  parents : a.parent ≠ b.parent
  ids : a.id ≠ b.id

theorem Independent.symm (both : Independent a b t) : Independent b a t :=
  ⟨both.fitsB, both.fitsA, both.parents.symm, both.ids.symm⟩

section Independent

variable (both : Independent a b t) (wf : t.WellFormed)

include both wf

theorem Independent.children_eq :
    (a.after t).children b.parent = t.children b.parent := by
  rw [Tree.children, mem_old wf (both.fitsB.parent_lt wf).ne, adopt, if_neg both.parents.symm,
    Tree.children]

theorem Independent.place_eq : b.place (a.after t) = b.place t := by
  rw [place, both.children_eq wf, place]

theorem Independent.later : b.Fits (a.after t) where
  indexed := both.fitsA.indexed_after both.fitsB.indexed
  unused := by
    rw [after_index, if_neg both.ids.symm, both.fitsB.unused]
  room := by
    rw [both.children_eq wf]
    exact both.fitsB.room

theorem Independent.mem_chain :
    x ∈ (a.after t).chain b.parent ↔ x ∈ t.chain b.parent := by
  have apart : ¬Anc t.parent b.parent t.next :=
    fun above => both.fitsB.next_notMem_chain wf (wf.mem_chain.mpr above)
  rw [(both.fitsA.wellFormed wf).mem_chain, wf.mem_chain]
  apply anc_iff_of_not_anc _ apart
  intro y old
  rw [Tree.parent, mem_old wf old, adopt, Tree.parent]

theorem Independent.adopt_eq : b.adopt (a.after t) c x old = b.adopt t c x old := by
  simp only [adopt, both.place_eq wf, both.mem_chain wf]

theorem Independent.perform_eq :
    (a.perform t >>= fun s => b.perform s.1) = .ok (b.after (a.after t), t.next + 1) := by
  rw [both.fitsA.perform wf, ok_bind, (both.later wf).perform (both.fitsA.wellFormed wf), after_next]

/-- The first of the two new branches. -/
theorem Independent.mem_first :
    (b.after (a.after t)).mem t.next = { a.new t with parent := some a.parent } := by
  have ne : t.next ≠ (a.after t).next := by
    rw [after_next]
    exact (Nat.lt_succ_self _).ne
  rw [mem_old (both.fitsA.wellFormed wf) ne, both.adopt_eq wf, both.fitsA.mem_next wf, adopt,
    if_neg (both.fitsB.parent_lt wf).ne', if_neg (both.fitsB.parent_lt wf).ne',
    if_neg (both.fitsB.next_notMem_chain wf)]

/-- The second of the two new branches. -/
theorem Independent.mem_second :
    (b.after (a.after t)).mem (t.next + 1) =
      { b.new t with findex := t.branchN + 1, parent := some b.parent } := by
  have last := (both.later wf).mem_next (both.fitsA.wellFormed wf)
  rw [after_next] at last
  rw [last, new, newBranch, after_branchN]
  rfl

/-- The branches that were there before. -/
theorem Independent.mem_before (first : x ≠ t.next) (second : x ≠ t.next + 1) :
    (b.after (a.after t)).mem x =
      b.adopt t (t.next + 1) x (a.adopt t t.next x (t.mem x)) := by
  have other : x ≠ (a.after t).next := by
    rw [after_next]
    exact second
  rw [mem_old (both.fitsA.wellFormed wf) other, both.adopt_eq wf, mem_old wf first, after_next]

omit both in
/-- The addresses in the old branches are all below those handed out now. -/
theorem relocate_old (x : BranchPtr) :
    (t.mem x).relocate (Equiv.swap t.next (t.next + 1)) = t.mem x := by
  unfold Branch.relocate
  ext1 <;> try rfl
  · cases step : t.parent x with
    | none => simp [show (t.mem x).parent = none from step]
    | some p => simp [show (t.mem x).parent = some p from step, swap_old (wf.parent_lt step).2]
  · have same : (t.children x).map (Equiv.swap t.next (t.next + 1)) =
        (t.children x).map fun y => y := by
      apply List.map_congr_left
      intro y child
      exact swap_old (wf.parent_lt (wf.mirrors.mem_iff.mp child)).1
    rw [List.map_id'] at same
    exact same

/-- Both orders give the same tree, but for the addresses and the slots of the new branches. -/
theorem Independent.exchanged :
    (b.after (a.after t)).Exchanged t.next (a.after (b.after t)) where
  next := by simp only [after_next]
  branch := by simp only [after_branch]
  branchN := by simp only [after_branchN]
  index := by
    intro k
    simp only [after_index, after_next]
    by_cases isA : k = a.id
    · simp [isA, both.ids]
    · by_cases isB : k = b.id
      · simp [isB, both.ids.symm]
      · rw [if_neg isA, if_neg isB, if_neg isB, if_neg isA]
        cases stored : t.branchIndex k with
        | none => rfl
        | some y => simp [swap_old (wf.index_spec stored).2]
  mem := by
    intro x
    by_cases first : x = t.next
    · subst first
      rw [Equiv.swap_apply_left, both.symm.mem_second wf, both.mem_first wf, both.mem_second wf]
      simp only [Branch.relocate, Option.map_some, swap_old (both.fitsA.parent_lt wf)]
      rfl
    · by_cases second : x = t.next + 1
      · subst second
        rw [Equiv.swap_apply_right, both.symm.mem_first wf, both.mem_first wf, both.mem_second wf]
        simp only [Branch.relocate, Option.map_some, swap_old (both.fitsB.parent_lt wf)]
        rfl
      · rw [Equiv.swap_apply_of_ne_of_ne first second, both.symm.mem_before wf first second,
          both.mem_before wf first second, adopt_relocate, adopt_relocate, relocate_old wf,
          Equiv.swap_apply_left, Equiv.swap_apply_right, adopt_comm both.parents]
        rfl
  sqlite := by
    rw [(both.later wf).after_sqlite (both.fitsA.wellFormed wf), both.fitsA.after_sqlite wf,
      (both.symm.later wf).after_sqlite (both.fitsB.wellFormed wf), both.fitsB.after_sqlite wf,
      store_comm both.ids]

end Independent

end Insertion

/-! ## The record file -/

namespace Tree

variable {t t' : Tree} {n : BranchPtr}

theorem Exchanged.branchGetPos (exchanged : t.Exchanged n t') (b : BranchPtr) :
    branchGetPos t' (Equiv.swap n (n + 1) b) = branchGetPos t b := by
  rw [Treedb.branchGetPos, exchanged.mem b, Treedb.branchGetPos]
  simp only [Branch.relocate]
  cases (t.mem b).parent with
  | none => rfl
  | some p =>
      simp only [Option.map_some, exchanged.mem p, Branch.relocate, ← List.map_take,
        List.findIdx?_map]
      congr 2
      funext c
      simp [Function.comp]

theorem Exchanged.record (exchanged : t.Exchanged n t') (b : BranchPtr) :
    t'.record (Equiv.swap n (n + 1) b) = t.record b := by
  have pos := exchanged.branchGetPos b
  rw [Tree.record, exchanged.mem b, pos, Tree.record]
  simp only [Branch.relocate]
  cases (t.mem b).parent with
  | none => rfl
  | some p => simp only [Option.map_some, exchanged.mem p, Branch.relocate]

/-- The two new branches write their records into exchanged slots. -/
theorem Exchanged.ioSaveBranchHead (exchanged : t.Exchanged n t') (b : BranchPtr) :
    ioSaveBranchHead t' (Equiv.swap n (n + 1) b) =
      { ioSaveBranchHead t b with
        offset := (ioSaveBranchHead t (Equiv.swap n (n + 1) b)).offset } := by
  rw [Treedb.ioSaveBranchHead, exchanged.record, exchanged.mem b]
  rfl

theorem drop_insertIdx {α : Type} {l : List α} {i : ℕ} {a : α} (inside : i ≤ l.length) :
    (l.insertIdx i a).drop i = a :: l.drop i := by
  induction i generalizing l with
  | zero => rfl
  | succ i ih =>
      cases l with
      | nil => simp at inside
      | cons x l =>
          rw [List.insertIdx_succ_cons, List.drop_succ_cons, List.drop_succ_cons]
          exact ih (Nat.le_of_succ_le_succ inside)

/-- Since the tree was `t`, the records of the listed branches were brought up to date, and no more. -/
structure SavedIn (t t' : Tree) (list : List BranchPtr) : Prop where
  written : ∀ x ∈ list, Bhead.codec.get t'.bhead (t'.mem x).findex.toNat = t'.record x
  kept : ∀ i, (∀ x ∈ list, (t'.mem x).findex.toNat ≠ i) →
    Bhead.codec.get t'.bhead i = Bhead.codec.get t.bhead i

theorem SavedIn.refl (t : Tree) : SavedIn t t [] :=
  ⟨by simp, fun _ _ => rfl⟩

end Tree

namespace Insertion

variable {a b : Insertion} {t t₀ : Tree} {x y : BranchPtr} {list : List BranchPtr}

theorem after_branchN_toNat (slots : t.Slots) :
    (a.after t).branchN.toNat = t.branchN.toNat + 1 := by
  rcases Edit.branchN_cases slots (a.edit t) with ⟨_, _, _, _, more⟩ | ⟨notGrow, _⟩
  · exact more
  · exact absurd rfl (notGrow _ _ _)

theorem mem_touched (wf : t.WellFormed) :
    x ∈ (a.edit t).touched t ↔
      x = t.next ∨ x = a.parent ∨ x ∈ (t.children a.parent).drop (a.place t) := by
  have fresh : Fresh (a.new t) := newBranch_fresh ..
  have inside : a.place t ≤ (t.children a.parent).length := insertPos_le _ _
  rw [edit, Edit.touched, wf.grow_children fresh, if_pos rfl, drop_insertIdx inside]
  simp only [List.mem_append, List.mem_cons, List.not_mem_nil, or_false]
  tauto

section Saved

variable (fits : a.Fits t) (wf : t.WellFormed) (slots : t.Slots)
  (small : (t.branchN.toNat + 1) * 20 < 2 ^ 32)

include fits wf slots small

theorem Fits.bhead_eq :
    (a.after t).bhead = ((a.edit t).memory t).saveAll t.bhead ((a.edit t).touched t) := by
  rw [after, (Edit.apply_fields t (a.edit t)).2.2.2.2.2, Edit.writes_eq wf fits.allowed]
  apply foldl_applyWrite
  intro x member
  have bound := Edit.involves_findex_lt wf slots fits.allowed
    (Edit.grow_touched_involves wf fits.allowed member)
  omega

theorem Fits.size_bhead :
    (a.after t).bhead.size = max t.bhead.size ((t.branchN.toNat + 1) * 20) := by
  rw [fits.bhead_eq wf slots small]
  -- The first write is that of the new branch, the others are inside the file.
  have first : (Bhead.codec.put t.bhead (((a.edit t).memory t).mem t.next).findex.toNat
      (((a.edit t).memory t).record t.next)).size =
        max t.bhead.size ((t.branchN.toNat + 1) * 20) := by
    rw [Bhead.codec.size_put, edit, Edit.grow_findex_next]
    rfl
  rw [← first]
  change (((a.edit t).memory t).saveAll (Bhead.codec.put t.bhead _ _)
    (a.parent :: ((t.grow a.parent (a.new t) (a.place t)).children a.parent).drop (a.place t))).size =
      _
  apply Bhead.codec.size_putAll_of_le _ _ _ (n := t.branchN.toNat + 1)
  · rw [first]
    exact le_max_right _ _
  · intro x member
    have bound := Edit.involves_findex_lt wf slots fits.allowed
      (Edit.grow_touched_involves wf fits.allowed (List.mem_cons_of_mem _ member))
    exact Nat.lt_succ_of_le bound.1

theorem Fits.slots_after : (a.after t).Slots := by
  apply slots.apply wf fits.allowed
  rw [show ((a.edit t).apply t).branchN.toNat = _ from after_branchN_toNat slots]
  exact small

/-- An insert saves the branches it touches, and leaves what was saved before. -/
theorem Fits.saved (saved : SavedIn t₀ t list) (known : ∀ x ∈ list, t.Indexed x) :
    SavedIn t₀ (a.after t) (list ++ (a.edit t).touched t) := by
  have mem : (a.after t).mem = ((a.edit t).memory t).mem := (Edit.apply_fields t (a.edit t)).1
  have findex : ∀ {x}, t.Indexed x → (((a.edit t).memory t).mem x).findex = (t.mem x).findex :=
    fun indexed => Edit.memory_findex t (a.edit t) (wf.indexed_lt indexed).ne
  have touched : ∀ {x}, x ∈ (a.edit t).touched t → (a.edit t).Involves t x :=
    fun member => Edit.grow_touched_involves wf fits.allowed member
  constructor
  · intro x member
    rw [mem, fits.bhead_eq wf slots small, after, Edit.apply_record]
    by_cases written : x ∈ (a.edit t).touched t
    · apply Bhead.codec.get_putAll_of_mem _ (fun x => (((a.edit t).memory t).mem x).findex.toNat)
      · intro y memberY same
        rw [Edit.involves_inj wf slots fits.allowed (touched memberY) (touched written)
          (UInt32.toNat_inj.mp same)]
      · exact written
    · have listed : x ∈ list := (List.mem_append.mp member).resolve_right written
      have indexed := known x listed
      have record : ((a.edit t).memory t).record x = t.record x :=
        Edit.grow_record wf fits.allowed (wf.indexed_lt indexed).ne written
      rw [saveAll, Bhead.codec.get_putAll_of_not_mem, findex indexed, saved.written x listed, record]
      intro y memberY same
      apply written
      rw [← Edit.involves_inj wf slots fits.allowed (touched memberY) (.inl indexed)
        (UInt32.toNat_inj.mp same)]
      exact memberY
  · intro i other
    rw [fits.bhead_eq wf slots small, saveAll, Bhead.codec.get_putAll_of_not_mem]
    · apply saved.kept
      intro x listed
      rw [← findex (known x listed), ← mem]
      exact other x (List.mem_append_left _ listed)
    · intro x member
      rw [← mem]
      exact other x (List.mem_append_right _ member)

end Saved

/-- The old branches whose records the insert writes. -/
def shifted (a : Insertion) (t : Tree) : List BranchPtr :=
  a.parent :: (t.children a.parent).drop (a.place t)

theorem Fits.shifted_indexed (fits : a.Fits t) (wf : t.WellFormed) (member : x ∈ a.shifted t) :
    t.Indexed x := by
  rcases List.mem_cons.mp member with rfl | listed
  · exact fits.indexed
  · exact wf.indexed_of_parent (wf.mirrors.mem_iff.mp (List.mem_of_mem_drop listed))

section Records

variable (both : Independent a b t) (wf : t.WellFormed) (slots : t.Slots)
  (small : (t.branchN.toNat + 2) * 20 < 2 ^ 32)

include both wf

/-- Whose records the two inserts write. -/
theorem Independent.mem_touched :
    x ∈ (a.edit t).touched t ++ (b.edit (a.after t)).touched (a.after t) ↔
      x = t.next ∨ x = t.next + 1 ∨ x ∈ a.shifted t ∨ x ∈ b.shifted t := by
  rw [List.mem_append, Insertion.mem_touched wf,
    Insertion.mem_touched (both.fitsA.wellFormed wf), after_next, both.children_eq wf,
    both.place_eq wf]
  simp only [shifted, List.mem_cons]
  tauto

theorem Independent.touched_swap
    (member : x ∈ (a.edit t).touched t ++ (b.edit (a.after t)).touched (a.after t)) :
    Equiv.swap t.next (t.next + 1) x ∈
      (b.edit t).touched t ++ (a.edit (b.after t)).touched (b.after t) := by
  rw [both.symm.mem_touched wf]
  rcases (both.mem_touched wf).mp member with rfl | rfl | old | old
  · exact .inr (.inl (Equiv.swap_apply_left _ _))
  · exact .inl (Equiv.swap_apply_right _ _)
  · rw [swap_old (wf.indexed_lt (both.fitsA.shifted_indexed wf old))]
    exact .inr (.inr (.inr old))
  · rw [swap_old (wf.indexed_lt (both.fitsB.shifted_indexed wf old))]
    exact .inr (.inr (.inl old))

include slots small

theorem Independent.saved :
    SavedIn t (b.after (a.after t))
      ((a.edit t).touched t ++ (b.edit (a.after t)).touched (a.after t)) := by
  have fits₁ : (t.branchN.toNat + 1) * 20 < 2 ^ 32 := by omega
  have first := both.fitsA.saved wf slots fits₁ (SavedIn.refl t) (by simp)
  rw [List.nil_append] at first
  apply (both.later wf).saved (both.fitsA.wellFormed wf)
    (both.fitsA.slots_after wf slots fits₁) (by rw [after_branchN_toNat slots]; exact small) first
  intro x member
  rcases (Insertion.mem_touched wf).mp member with rfl | old
  · exact ⟨a.id, by rw [after_index, if_pos rfl]⟩
  · exact both.fitsA.indexed_after
      (both.fitsA.shifted_indexed wf (List.mem_cons.mpr old))

theorem Independent.size_bhead :
    (b.after (a.after t)).bhead.size = max t.bhead.size ((t.branchN.toNat + 2) * 20) := by
  have fits₁ : (t.branchN.toNat + 1) * 20 < 2 ^ 32 := by omega
  rw [(both.later wf).size_bhead (both.fitsA.wellFormed wf)
    (both.fitsA.slots_after wf slots fits₁) (by rw [after_branchN_toNat slots]; exact small),
    both.fitsA.size_bhead wf slots fits₁, after_branchN_toNat slots]
  omega

omit small in
/-- The slots of the written records are those of the other order, with two of them exchanged. -/
theorem Independent.slot_swap
    (member : x ∈ (a.edit t).touched t ++ (b.edit (a.after t)).touched (a.after t)) :
    ((a.after (b.after t)).mem (Equiv.swap t.next (t.next + 1) x)).findex.toNat =
      Equiv.swap t.branchN.toNat (t.branchN.toNat + 1)
        ((b.after (a.after t)).mem x).findex.toNat := by
  have more : (t.branchN + 1).toNat = t.branchN.toNat + 1 :=
    after_branchN a t ▸ after_branchN_toNat slots
  rw [(both.exchanged wf).mem]
  simp only
  rcases (both.mem_touched wf).mp member with rfl | rfl | old
  · rw [Equiv.swap_apply_left, both.mem_first wf, both.mem_second wf]
    exact more.trans (Equiv.swap_apply_left _ _).symm
  · rw [Equiv.swap_apply_right, both.mem_first wf, both.mem_second wf]
    simp only
    rw [more, Equiv.swap_apply_right]
    rfl
  · have indexed : t.Indexed x := by
      rcases old with old | old
      · exact both.fitsA.shifted_indexed wf old
      · exact both.fitsB.shifted_indexed wf old
    have lower := wf.indexed_lt indexed
    have findex : ((b.after (a.after t)).mem x).findex = (t.mem x).findex := by
      rw [both.mem_before wf lower.ne (Nat.lt_succ_of_lt lower).ne]
      rfl
    rw [swap_old lower, findex, swap_old (slots.lt indexed)]

/-- The records of the new branches are in exchanged slots, and nothing else in the file differs. -/
theorem Independent.exchangedRecords :
    ExchangedRecords t.branchN.toNat (b.after (a.after t)).bhead (a.after (b.after t)).bhead := by
  refine ⟨?_, ?_⟩
  · rw [both.size_bhead wf slots small, both.symm.size_bhead wf slots small]
  · intro k
    have saved := both.saved wf slots small
    have saved' := both.symm.saved wf slots small
    by_cases written : ∃ x ∈ (b.edit t).touched t ++ (a.edit (b.after t)).touched (b.after t),
        ((a.after (b.after t)).mem x).findex.toNat = k
    · rcases written with ⟨x, member, rfl⟩
      rw [saved'.written x member, ← both.symm.slot_swap wf slots member,
        saved.written _ (both.symm.touched_swap wf member), (both.symm.exchanged wf).record]
    · have notFirst : k ≠ t.branchN.toNat := by
        rintro rfl
        apply written
        refine ⟨t.next, (both.symm.mem_touched wf).mpr (.inl rfl), ?_⟩
        rw [both.symm.mem_first wf]
        rfl
      have notSecond : k ≠ t.branchN.toNat + 1 := by
        rintro rfl
        apply written
        refine ⟨t.next + 1, (both.symm.mem_touched wf).mpr (.inr (.inl rfl)), ?_⟩
        rw [both.symm.mem_second wf, ← after_branchN a t]
        exact after_branchN_toNat slots
      have fixed := Equiv.swap_apply_of_ne_of_ne notFirst notSecond
      rw [fixed, saved'.kept, saved.kept]
      · intro x member here
        apply written
        refine ⟨_, both.touched_swap wf member, ?_⟩
        rw [both.slot_swap wf slots member, here, fixed]
      · intro x member here
        exact written ⟨x, member, here⟩

end Records

/-! ## Two calls -/

section Calls

variable {m m' : Map} {viewId viewId' : UInt32} {parentId parentId' : UInt64}

/-- The call that asks for the insert. -/
def call (a : Insertion) (viewId : UInt32) (parentId : UInt64) : Call :=
  .insert viewId parentId a.id a.pos a.text a.mark a.doc

theorem Fits.call_tree (fits : a.Fits m.tree) (wf : m.tree.WellFormed)
    (known : m.tree.branchIndex parentId = some a.parent)
    (run : m.call (a.call viewId parentId) = .ok m') : m'.tree = a.after m.tree := by
  rcases map_eq_ok.mp run with ⟨⟨m₁, r⟩, inserted, rfl⟩
  rcases insert_cases wf inserted with ⟨_, _, refused⟩ | ⟨pb, found, _, _, tree, _⟩
  · exact absurd ⟨fits.unused, a.parent, known⟩ refused
  · rw [known] at found
    rw [← Option.some.inj found] at tree
    exact tree

theorem Fits.call_returns (fits : a.Fits m.tree) (wf : m.tree.WellFormed)
    (none' : m.overlay.NoViews) (known : m.tree.branchIndex parentId = some a.parent)
    (viewId : UInt32) : ∃ m', m.call (a.call viewId parentId) = .ok m' ∧ m'.overlay.NoViews := by
  have room : ∀ pb, m.tree.branchIndex parentId = some pb →
      (m.tree.children pb).length < 65535 := by
    intro pb found
    rw [known] at found
    rw [← Option.some.inj found]
    exact fits.room
  rcases insert_returns wf none' room a.pos with ⟨s, inserted, ends⟩
  refine ⟨s.1, ?_, ends⟩
  simp only [call, Map.call, viewIndexGet, none'.index]
  exact map_eq_ok.mpr ⟨s, inserted, rfl⟩

theorem Fits.known_after (fits : a.Fits t) {y : BranchPtr}
    (known : t.branchIndex parentId = some y) : (a.after t).branchIndex parentId = some y := by
  rw [after_index, if_neg, known]
  rintro rfl
  simp [fits.unused] at known

/-- Whatever the views are, two inserts that both return change the tree like this. -/
theorem Independent.run_tree (both : Independent a b m.tree) (wf : m.tree.WellFormed)
    (knownA : m.tree.branchIndex parentId = some a.parent)
    (knownB : m.tree.branchIndex parentId' = some b.parent)
    (run : m.run [a.call viewId parentId, b.call viewId' parentId'] = .ok m') :
    m'.tree = b.after (a.after m.tree) := by
  simp only [Map.run, List.foldlM_cons, List.foldlM_nil] at run
  rcases bind_eq_ok.mp run with ⟨m₁, first, run⟩
  rcases bind_eq_ok.mp run with ⟨m₂, second, run⟩
  rw [← Except.ok.inj run]
  have tree := both.fitsA.call_tree wf knownA first
  have later := both.later wf
  have knownB := both.fitsA.known_after knownB
  have wf₁ := both.fitsA.wellFormed wf
  rw [← tree] at later knownB wf₁ ⊢
  exact later.call_tree wf₁ knownB second

theorem Independent.run_returns (both : Independent a b m.tree) (wf : m.tree.WellFormed)
    (none' : m.overlay.NoViews) (knownA : m.tree.branchIndex parentId = some a.parent)
    (knownB : m.tree.branchIndex parentId' = some b.parent) :
    ∃ m', m.run [a.call viewId parentId, b.call viewId' parentId'] = .ok m' := by
  rcases both.fitsA.call_returns wf none' knownA viewId with ⟨m₁, first, views⟩
  have tree := both.fitsA.call_tree wf knownA first
  have later := both.later wf
  have knownB := both.fitsA.known_after knownB
  have wf₁ := both.fitsA.wellFormed wf
  rw [← tree] at later knownB wf₁
  rcases later.call_returns wf₁ views knownB viewId' with ⟨m₂, second, _⟩
  refine ⟨m₂, ?_⟩
  simp only [Map.run, List.foldlM_cons, List.foldlM_nil, first, ok_bind, second]
  rfl

end Calls

end Insertion

/--
Two inserts of unused ids below different parents give the same tree in both orders, up to the
addresses and the slots of the two new branches. The records in the file are exchanged with the
slots, as long as slots belong to one branch each and the file stays below 4 GiB.
-/
theorem inserts_commute {m : Map} {a b : Insertion} {parentId parentId' : UInt64}
    (viewId viewId' : UInt32) (wf : m.tree.WellFormed)
    (room : ∀ p, (m.tree.children p).length < 65535)
    (knownA : m.tree.branchIndex parentId = some a.parent)
    (knownB : m.tree.branchIndex parentId' = some b.parent) (parents : a.parent ≠ b.parent)
    (unusedA : m.tree.branchIndex a.id = none) (unusedB : m.tree.branchIndex b.id = none)
    (ids : a.id ≠ b.id) :
    ∃ ab ba : Tree,
      (a.perform m.tree >>= fun s => b.perform s.1) = .ok (ab, m.tree.next + 1) ∧
      (b.perform m.tree >>= fun s => a.perform s.1) = .ok (ba, m.tree.next + 1) ∧
      ab.Exchanged m.tree.next ba ∧
      (ab.mem m.tree.next).findex = m.tree.branchN ∧
      (ab.mem (m.tree.next + 1)).findex = m.tree.branchN + 1 ∧
      (∀ x, ioSaveBranchHead ba (Equiv.swap m.tree.next (m.tree.next + 1) x) =
        { ioSaveBranchHead ab x with
          offset := (ioSaveBranchHead ab (Equiv.swap m.tree.next (m.tree.next + 1) x)).offset }) ∧
      (m.tree.Slots → (m.tree.branchN.toNat + 2) * 20 < 2 ^ 32 →
        ExchangedRecords m.tree.branchN.toNat ab.bhead ba.bhead) ∧
      (∀ m', m.run [a.call viewId parentId, b.call viewId' parentId'] = .ok m' → m'.tree = ab) ∧
      (∀ m', m.run [b.call viewId' parentId', a.call viewId parentId] = .ok m' → m'.tree = ba) ∧
      (m.overlay.NoViews →
        (∃ m', m.run [a.call viewId parentId, b.call viewId' parentId'] = .ok m') ∧
          ∃ m', m.run [b.call viewId' parentId', a.call viewId parentId] = .ok m') := by
  have both : a.Independent b m.tree :=
    ⟨⟨⟨_, knownA⟩, unusedA, room _⟩, ⟨⟨_, knownB⟩, unusedB, room _⟩, parents, ids⟩
  refine ⟨b.after (a.after m.tree), a.after (b.after m.tree), both.perform_eq wf,
    both.symm.perform_eq wf, both.exchanged wf, ?_, ?_, (both.exchanged wf).ioSaveBranchHead,
    both.exchangedRecords wf, ?_, ?_, ?_⟩
  · rw [both.mem_first wf]
    rfl
  · rw [both.mem_second wf]
  · exact fun m' run => both.run_tree wf knownA knownB run
  · exact fun m' run => both.symm.run_tree wf knownB knownA run
  · exact fun none' => ⟨both.run_returns wf none' knownA knownB,
      both.symm.run_returns wf none' knownB knownA⟩

/-- A branch is inserted below the root and another below the child of the root. -/
theorem inserts_commute_example :
    ∃ m ab ba, (mapCreateEmpty 1).run [.insert 0 1 2 0 [] 0 0] = .ok m ∧
      ((⟨0, 3, 0, [], 0, 0⟩ : Insertion).perform m.tree >>= fun s =>
        (⟨1, 4, 0, [], 0, 0⟩ : Insertion).perform s.1) = .ok (ab, m.tree.next + 1) ∧
      ((⟨1, 4, 0, [], 0, 0⟩ : Insertion).perform m.tree >>= fun s =>
        (⟨0, 3, 0, [], 0, 0⟩ : Insertion).perform s.1) = .ok (ba, m.tree.next + 1) ∧
      ab.Exchanged m.tree.next ba ∧ ExchangedRecords m.tree.branchN.toNat ab.bhead ba.bhead := by
  have observed : ((mapCreateEmpty 1).run [.insert 0 1 2 0 [] 0 0]).toOption.map (fun m =>
      (m.tree.branchIndex 1, m.tree.branchIndex 2, m.tree.branchIndex 3, m.tree.branchIndex 4,
        m.tree.next)) = some (some 0, some 1, none, none, 2) := by
    decide +kernel
  rcases run : (mapCreateEmpty 1).run [.insert 0 1 2 0 [] 0 0] with fault | m
  · simp [run, Except.toOption] at observed
  · simp only [run, Except.toOption, Option.map_some, Option.some.injEq, Prod.mk.injEq] at observed
    rcases observed with ⟨knownA, knownB, unusedA, unusedB, next⟩
    rcases run_fullySaved (by decide +kernel) run (by omega) with ⟨wf, saved, slots, room⟩
    rcases inserts_commute (a := ⟨0, 3, 0, [], 0, 0⟩) (b := ⟨1, 4, 0, [], 0, 0⟩) 0 0 wf room knownA
      knownB (by decide) unusedA unusedB (by decide) with
      ⟨ab, ba, first, second, exchanged, _, _, _, records, _⟩
    exact ⟨m, ab, ba, rfl, first, second, exchanged,
      records (saved.inStep wf (by omega)).slots (by omega)⟩

/-- The same tree when `k` branches were numbered. -/
def Tree.numbered (t : Tree) (k : UInt32) : Tree :=
  { t with branchN := k }

/--
A root and its child when 214748364 branches are numbered: the second new record is addressed at
zero, where the record of the root is.
-/
theorem inserts_wrap :
    ¬∀ (t : Tree) (a b : Insertion) (ab ba : Tree), t.WellFormed →
      (∀ p, (t.children p).length < 65535) → t.Indexed a.parent → t.Indexed b.parent →
      a.parent ≠ b.parent → t.branchIndex a.id = none → t.branchIndex b.id = none → a.id ≠ b.id →
      (a.perform t >>= fun s => b.perform s.1) = .ok (ab, t.next + 1) →
      (b.perform t >>= fun s => a.perform s.1) = .ok (ba, t.next + 1) →
      ExchangedRecords t.branchN.toNat ab.bhead ba.bhead := by
  intro claim
  rcases run : (mapCreateEmpty 1).run [.insert 0 1 2 0 [] 0 0] with fault | m
  · have returns : ((mapCreateEmpty 1).run [.insert 0 1 2 0 [] 0 0]).toOption.isSome = true := by
      decide +kernel
    simp [run, Except.toOption] at returns
  · have observed : ((mapCreateEmpty 1).run [.insert 0 1 2 0 [] 0 0]).toOption.map (fun m =>
        (m.tree.branchIndex 1, m.tree.branchIndex 2, m.tree.branchIndex 3, m.tree.branchIndex 4,
          m.tree.next)) = some (some 0, some 1, none, none, 2) := by
      decide +kernel
    have first : (((mapCreateEmpty 1).run [.insert 0 1 2 0 [] 0 0]).toOption.bind fun m =>
        ((⟨0, 3, 0, [], 0, 0⟩ : Insertion).perform (m.tree.numbered 214748364) >>= fun s =>
          (⟨1, 4, 0, [], 0, 0⟩ : Insertion).perform s.1).toOption).map (fun s =>
            (s.2, (Bhead.codec.get s.1.bhead 0).id)) = some (3, 0x400000001) := by
      decide +kernel
    have second : (((mapCreateEmpty 1).run [.insert 0 1 2 0 [] 0 0]).toOption.bind fun m =>
        ((⟨1, 4, 0, [], 0, 0⟩ : Insertion).perform (m.tree.numbered 214748364) >>= fun s =>
          (⟨0, 3, 0, [], 0, 0⟩ : Insertion).perform s.1).toOption).map (fun s =>
            (s.2, (Bhead.codec.get s.1.bhead 0).id)) = some (3, 0x300000001) := by
      decide +kernel
    simp only [run, Except.toOption, Option.map_some, Option.some.injEq, Prod.mk.injEq] at observed
    rcases observed with ⟨knownA, knownB, unusedA, unusedB, next⟩
    rcases run_fullySaved (by decide +kernel) run (by omega) with ⟨wf, _, _, room⟩
    simp only [run, Except.toOption, Option.bind_some] at first second
    split at first
    case h_2 => simp at first
    case h_1 ab runAb =>
      split at second
      case h_2 => simp at second
      case h_1 ba runBa =>
        simp only [Option.map_some, Option.some.injEq, Prod.mk.injEq] at first second
        have last : (m.tree.numbered 214748364).next + 1 = 3 := congrArg (· + 1) next
        have exchanged := (claim (m.tree.numbered 214748364) ⟨0, 3, 0, [], 0, 0⟩
          ⟨1, 4, 0, [], 0, 0⟩ ab.1 ba.1 (wf.congr rfl rfl rfl rfl) room ⟨1, knownA⟩ ⟨2, knownB⟩
          (by decide) unusedA unusedB (by decide)
          (by rw [runAb, last, ← first.1]) (by rw [runBa, last, ← second.1])).2 0
        -- The slot of the root is neither of the two exchanged ones.
        have slots : (m.tree.numbered 214748364).branchN.toNat = 214748364 := rfl
        rw [slots, Equiv.swap_apply_of_ne_of_ne (by omega) (by omega)] at exchanged
        rw [exchanged, first.2] at second
        exact absurd second.2 (by decide)

end Treedb
