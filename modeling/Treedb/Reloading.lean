import Treedb.BranchData
import Treedb.Counters
import Treedb.Forest.Shadow
import Treedb.Loading

/-!
# Loading undoes full saving

`io_resave_map` writes the records of the branches that the root reaches, each into its slot, and
leaves the other slots empty. `map_load` reads such an image and then counts the descendants. The
tree it builds is a shadow of the saved one: every branch has the number of its slot for an address.

Branches that were left behind by a delete are not saved, so they are cut off first; nothing that is
saved depends on them.

The counters are part of the data of a branch, which `branch_load` makes when it finds the row. The
row of a branch whose id is 2^63 or more was never stored. If such a branch has children, the count
follows a null pointer.
-/

namespace Treedb

open Forest Outcome RecordFile Treedb.Tree

namespace Tree

variable {t : Tree} {b c p x : BranchPtr}

/-! ## What a full save keeps -/

/-- The tree without the branches that the root does not reach. -/
def pruned (t : Tree) : Tree :=
  { t with
    mem := fun x => if t.branch ∈ t.chain x then t.mem x else {}
    branchIndex := fun k => (t.branchIndex k).filter fun x => t.branch ∈ t.chain x }

theorem Shape.mem_chain_iff_reachable (shape : t.Shape) : t.branch ∈ t.chain x ↔ t.Reachable x := by
  rw [shape.mem_chain, shape.reachable_iff]

theorem WellFormed.reachable_parent_iff (wf : t.WellFormed) (step : t.parent c = some p) :
    t.Reachable c ↔ t.Reachable p := by
  have ne : t.branch ≠ c := (wf.ne_root step).symm
  rw [wf.reachable_iff, wf.reachable_iff, anc_iff_of_parent step]
  simp [ne]

section Pruned

variable (wf : t.WellFormed)

include wf

theorem WellFormed.pruned_mem (reachable : t.Reachable x) : t.pruned.mem x = t.mem x :=
  if_pos (wf.mem_chain_iff_reachable.mpr reachable)

theorem WellFormed.pruned_mem_lost (lost : ¬t.Reachable x) : t.pruned.mem x = {} :=
  if_neg fun above => lost (wf.mem_chain_iff_reachable.mp above)

theorem WellFormed.pruned_parent_eq_some :
    t.pruned.parent c = some p ↔ t.parent c = some p ∧ t.Reachable c := by
  by_cases reachable : t.Reachable c
  · simp [parent, wf.pruned_mem reachable, reachable]
  · simp [parent, wf.pruned_mem_lost reachable, reachable]

theorem WellFormed.mem_pruned_children :
    c ∈ t.pruned.children p ↔ c ∈ t.children p ∧ t.Reachable p := by
  by_cases reachable : t.Reachable p
  · simp [children, wf.pruned_mem reachable, reachable]
  · simp [children, wf.pruned_mem_lost reachable, reachable]

theorem WellFormed.pruned_index {k : UInt64} :
    t.pruned.branchIndex k = some b ↔ t.branchIndex k = some b ∧ t.Reachable b := by
  simp only [pruned, Option.filter_eq_some_iff, decide_eq_true_eq, wf.mem_chain_iff_reachable]

theorem WellFormed.pruned_indexed : t.pruned.Indexed b ↔ t.Reachable b := by
  constructor
  · rintro ⟨k, stored⟩
    exact (wf.pruned_index.mp stored).2
  · intro reachable
    rcases wf.indexed_of_anc (wf.reachable_iff.mp reachable) with ⟨k, stored⟩
    exact ⟨k, wf.pruned_index.mpr ⟨stored, reachable⟩⟩

theorem WellFormed.pruned : t.pruned.WellFormed := by
  have sub : ∀ x q, t.pruned.parent x = some q → t.parent x = some q :=
    fun x q step => (wf.pruned_parent_eq_some.mp step).1
  have root : t.pruned.mem t.branch = t.mem t.branch := wf.pruned_mem .refl
  refine ⟨⟨⟨?_, ?_⟩, ?_, wf.acyclic.mono sub, ?_⟩, wf.root_lt, ?_, ?_, ?_, ?_⟩
  · intro c p
    rw [wf.mem_pruned_children, wf.pruned_parent_eq_some, wf.mirrors.mem_iff]
    apply and_congr_right
    intro step
    exact (wf.reachable_parent_iff step).symm
  · intro p
    by_cases reachable : t.Reachable p
    · rw [children, wf.pruned_mem reachable]
      exact wf.mirrors.nodup p
    · rw [children, wf.pruned_mem_lost reachable]
      exact List.nodup_nil
  · intro p
    by_cases reachable : t.Reachable p
    · rw [children, wf.pruned_mem reachable]
      exact wf.childN_eq p
    · rw [children, wf.pruned_mem_lost reachable]
      rfl
  · intro x q step
    exact wf.supported x q (sub x q step)
  · rw [parent, show t.pruned.branch = t.branch from rfl, root]
    exact wf.root_parent
  · rw [show t.pruned.branch = t.branch from rfl, root, wf.pruned_index]
    exact ⟨wf.root_index, .refl⟩
  · intro k b stored
    rcases wf.pruned_index.mp stored with ⟨stored, reachable⟩
    rw [wf.pruned_mem reachable]
    exact wf.index_spec stored
  · intro b p step
    rcases wf.pruned_parent_eq_some.mp step with ⟨step, reachable⟩
    rw [wf.pruned_mem reachable, wf.pruned_index]
    exact ⟨wf.index_of_parent step, reachable⟩

theorem WellFormed.pruned_reachable : t.pruned.Reachable b ↔ t.Reachable b := by
  constructor
  · apply Relation.ReflTransGen.mono
    intro p c child
    exact (wf.mem_pruned_children.mp child).1
  · intro reachable
    induction reachable with
    | refl => exact .refl
    | tail above child ih => exact ih.tail (wf.mem_pruned_children.mpr ⟨child, above⟩)

theorem WellFormed.pruned_rooted : t.pruned.Rooted := by
  intro b indexed
  exact wf.pruned.reachable_iff.mp (wf.pruned_reachable.mpr (wf.pruned_indexed.mp indexed))

theorem WellFormed.pruned_record (reachable : t.Reachable b) : t.pruned.record b = t.record b := by
  have mem := wf.pruned_mem reachable
  apply wf.toShape.record_eq wf.pruned.toShape
  · rw [parent, mem, parent]
  · rw [mem]
  · rw [children, mem, children]
  · intro p step
    have above := wf.pruned_mem ((wf.reachable_parent_iff step).mp reachable)
    rw [above, children, above, children]
    exact ⟨rfl, rfl⟩

theorem WellFormed.preorder_pruned (depth : ℕ) (reachable : t.Reachable b) :
    preorder t.pruned.children depth b = preorder t.children depth b := by
  induction depth generalizing b with
  | zero => rfl
  | succ depth ih =>
      rw [preorder, preorder, children, wf.pruned_mem reachable]
      apply congrArg
      apply List.flatMap_congr
      intro c child
      exact ih (reachable.tail child)

/-- A full save writes the pruned tree. -/
theorem WellFormed.ioResaveImage_pruned : ioResaveImage t.pruned = ioResaveImage t := by
  rw [wf.pruned.ioResaveImage_eq, wf.ioResaveImage_eq,
    show t.pruned.branch = t.branch from rfl, wf.preorder_pruned _ .refl]
  apply List.foldl_ext
  intro file b member
  have reachable : t.Reachable b := by
    rw [wf.reachable_iff]
    exact anc_of_mem_preorder wf.mirrors member
  simp only [wf.pruned_mem reachable, wf.pruned_record reachable]

end Pruned

/-- What full saving relies on: ids that are not zero, a slot for each branch, and 32-bit offsets. -/
structure Saveable (t : Tree) : Prop where
  id_ne_zero : ∀ {b}, t.Reachable b → (t.mem b).id ≠ 0
  slot_lt : ∀ {b}, t.Reachable b → (t.mem b).findex < t.branchN
  slot_inj : ∀ {b c}, t.Reachable b → t.Reachable c → (t.mem b).findex = (t.mem c).findex → b = c
  fits : t.branchN.toNat * 20 < 2 ^ 32

theorem Slots.saveable (slots : t.Slots) (wf : t.WellFormed) (noZero : t.NoZero) : t.Saveable := by
  have indexed : ∀ {b}, t.Reachable b → t.Indexed b :=
    fun reachable => wf.indexed_of_anc (wf.reachable_iff.mp reachable)
  refine ⟨?_, ?_, ?_, slots.fits⟩
  · intro b reachable
    exact noZero.id_ne_zero wf (indexed reachable)
  · intro b reachable
    exact slots.lt (indexed reachable)
  · intro b c reachableB reachableC
    exact slots.inj (indexed reachableB) (indexed reachableC)

theorem Saveable.pruned_slots (saveable : t.Saveable) (wf : t.WellFormed) : t.pruned.Slots where
  lt := by
    intro b indexed
    have reachable := wf.pruned_indexed.mp indexed
    rw [wf.pruned_mem reachable]
    exact saveable.slot_lt reachable
  inj := by
    intro b c indexedB indexedC same
    have reachableB := wf.pruned_indexed.mp indexedB
    have reachableC := wf.pruned_indexed.mp indexedC
    rw [wf.pruned_mem reachableB, wf.pruned_mem reachableC] at same
    exact saveable.slot_inj reachableB reachableC same
  fits := saveable.fits

theorem Saveable.pruned_noZero (saveable : t.Saveable) (wf : t.WellFormed) : t.pruned.NoZero := by
  rw [NoZero, Option.eq_none_iff_forall_ne_some]
  intro b stored
  rcases wf.pruned_index.mp stored with ⟨stored, reachable⟩
  exact saveable.id_ne_zero reachable (wf.index_spec stored).1

end Tree

/-! ## The stores of the second pass -/

namespace Loading

variable {l l' : Loading} {i x : ℕ} {h : Bhead} {file : ByteFile}

/-- The entry of a child array that `link` stores the branch of the record in. -/
def store (l : Loading) (h : Bhead) : Option (ℕ × ℕ) :=
  if h.id = 0 ∨ h.parentId = 0 then none
  else (l.index h.parentId).map fun p => (p, h.pos.toNat)

/-- The entries that the second pass stores a branch in, in order, up to a record that ends it. -/
def stores (file : ByteFile) : Loading → List ℕ → List (ℕ × ℕ)
  | _, [] => []
  | l, i :: list =>
      (l.store (Bhead.codec.get file i)).toList ++
        match l.link i (Bhead.codec.get file i) with
        | .error _ => []
        | .ok l' => stores file l' list

/-- A record changes the pointer of its own branch and the entry it is stored in. -/
theorem link_changes (run : l.link i h = .ok l') :
    l'.index = l.index ∧ (∀ x, h.id = 0 ∨ x ≠ i → l'.mem x = l.mem x) ∧
      (l.store h = none → l'.slots = l.slots) ∧
      ∀ p j, l.store h = some (p, j) → j < (l.slots p).length ∧
        l'.slots = Function.update l.slots p ((l.slots p).set j (some i)) := by
  unfold link at run
  split at run
  · rename_i zero
    rw [← Except.ok.inj run]
    simp [store, zero]
  · rename_i nonzero
    split at run
    · rename_i below
      split at run
      · simp at run
      · rename_i p known
        split at run
        · rename_i inside
          rw [← Except.ok.inj run]
          refine ⟨rfl, ?_, by simp [store, nonzero, below, known], ?_⟩
          · rintro x (zero | other)
            · exact absurd zero nonzero
            · exact Function.update_of_ne other _ _
          · intro p' j stored
            simp only [store, nonzero, below, or_self, if_false, known, Option.map_some,
              Option.some.injEq, Prod.mk.injEq] at stored
            rcases stored with ⟨rfl, rfl⟩
            exact ⟨inside, rfl⟩
        · simp at run
    · rename_i top
      rw [← Except.ok.inj run]
      simp only [ne_eq, not_not] at top
      simp [store, top]

/-- The index is complete before the second pass, so a record alone says where it is stored. -/
theorem stores_eq {list : List ℕ}
    (run : list.foldlM (fun l i => l.link i (Bhead.codec.get file i)) l = .ok l') :
    l.stores file list = list.filterMap fun i => l.store (Bhead.codec.get file i) := by
  induction list generalizing l with
  | nil => rfl
  | cons i list ih =>
      rw [List.foldlM_cons] at run
      rcases bind_eq_ok.mp run with ⟨l₁, first, rest⟩
      have same : l₁.store = l.store := by
        funext h
        simp only [store, (link_changes first).1]
      have unfolded : l.stores file (i :: list) =
          (l.store (Bhead.codec.get file i)).toList ++ l₁.stores file list := by
        simp only [stores, first]
      rw [unfolded, ih rest, same, List.filterMap_cons]
      generalize l.store (Bhead.codec.get file i) = entry
      cases entry with
      | none => rfl
      | some entry => rfl

theorem alloc_blank (unused : (Bhead.codec.get file x).id = 0) (list : List ℕ)
    (blank : l.mem x = {} ∧ l.slots x = []) :
    (list.foldl (fun l i => l.alloc i (Bhead.codec.get file i)) l).mem x = {} ∧
      (list.foldl (fun l i => l.alloc i (Bhead.codec.get file i)) l).slots x = [] := by
  induction list generalizing l with
  | nil => exact blank
  | cons i list ih =>
      rw [List.foldl_cons]
      apply ih
      by_cases used : (Bhead.codec.get file i).id = 0
      · rw [alloc, if_pos used]
        exact blank
      · have other : x ≠ i := by
          rintro rfl
          exact used unused
        rw [alloc, if_neg used]
        simp only [Function.update_of_ne other]
        exact blank

/-- Nothing is built for an empty record. -/
theorem ioLoadMap_blank (unused : (Bhead.codec.get file x).id = 0) (run : ioLoadMap file = .ok l) :
    l.mem x = {} ∧ l.slots x = [] := by
  apply foldlM_invariant (fun l : Loading => l.mem x = {} ∧ l.slots x = []) _
    (alloc_blank unused _ ⟨rfl, rfl⟩) run
  rintro l i l' _ ⟨mem, slots⟩ linked
  rcases link_changes linked with ⟨_, kept, same, stored⟩
  refine ⟨?_, ?_⟩
  · rw [kept, mem]
    by_cases other : x = i
    · subst other
      exact .inl unused
    · exact .inr other
  · rcases entry : l.store (Bhead.codec.get file i) with _ | ⟨p, j⟩
    · rw [same entry, slots]
    · rcases stored p j entry with ⟨inside, changed⟩
      have other : x ≠ p := by
        rintro rfl
        simp [slots] at inside
      rw [changed, Function.update_of_ne other, slots]

end Loading

namespace Tree

section Stores

variable {t : Tree} {b c p : BranchPtr} {file : ByteFile} {l : Loading} {i j k : ℕ}
  (linked : t.Linked l k) (wf : t.WellFormed) (rooted : t.Rooted) (slots : t.Slots)
  (noZero : t.NoZero) (holds : t.Holds file)

include linked wf rooted noZero

theorem Linked.store_of_parent (step : t.parent c = some b) :
    l.store (t.record c) = some (t.slot b, (t.children b).idxOf c) := by
  have indexed := rooted.parent_indexed wf step
  have fields := wf.record_of_parent step
  have known : l.index (t.mem b).id = some (t.slot b) := by
    rw [linked.index, wf.indexed_id indexed]
    rfl
  have named : ¬((t.mem c).id = 0 ∨ (t.mem b).id = 0) := by
    rintro (zero | zero)
    · exact noZero.id_ne_zero wf (wf.indexed_of_parent step) zero
    · exact noZero.id_ne_zero wf indexed zero
  rw [Loading.store, record_id, fields.1, if_neg named, known, fields.2]
  rfl

include holds

/-- Every store is that of a branch into the array of its parent, at its place there. -/
theorem Linked.store_cases {entry : ℕ × ℕ} (stored : l.store (Bhead.codec.get file i) = some entry) :
    ∃ c b, t.parent c = some b ∧ t.slot c = i ∧ entry = (t.slot b, (t.children b).idxOf c) := by
  by_cases used : ∃ c, t.Indexed c ∧ t.slot c = i
  · rcases used with ⟨c, indexed, rfl⟩
    rw [show Bhead.codec.get file (t.slot c) = t.record c from holds.record indexed] at stored
    cases step : t.parent c with
    | none =>
        have top := record_of_root step
        simp [Loading.store, top] at stored
    | some b =>
        rw [linked.store_of_parent wf rooted noZero step] at stored
        exact ⟨c, b, step, rfl, (Option.some.inj stored).symm⟩
  · rw [holds.blank i fun c indexed same => used ⟨c, indexed, same⟩] at stored
    simp [Loading.store] at stored

include slots

/-- Every entry of every child array is written, and nothing else. -/
theorem Linked.mem_stores :
    (p, j) ∈ (List.range t.branchN.toNat).filterMap (fun i => l.store (Bhead.codec.get file i)) ↔
      ∃ b, t.Indexed b ∧ t.slot b = p ∧ j < (t.children b).length := by
  rw [List.mem_filterMap]
  constructor
  · rintro ⟨i, _, stored⟩
    rcases linked.store_cases wf rooted noZero holds stored with ⟨c, b, step, _, entry⟩
    rw [Prod.mk.injEq] at entry
    rcases entry with ⟨rfl, rfl⟩
    exact ⟨b, rooted.parent_indexed wf step, rfl,
      List.idxOf_lt_length_of_mem (wf.mirrors.mem_iff.mpr step)⟩
  · rintro ⟨b, _, rfl, inside⟩
    have step := wf.mirrors.mem_iff.mp (List.getElem_mem inside)
    have indexed := wf.indexed_of_parent step
    refine ⟨t.slot _, List.mem_range.mpr (slots.lt indexed), ?_⟩
    rw [show Bhead.codec.get file (t.slot _) = _ from holds.record indexed,
      linked.store_of_parent wf rooted noZero step, (wf.mirrors.nodup b).idxOf_getElem j inside]

/-- No entry is written twice. -/
theorem Linked.stores_nodup :
    ((List.range t.branchN.toNat).filterMap fun i =>
      l.store (Bhead.codec.get file i)).Nodup := by
  apply List.nodup_range.filterMap
  intro i i' entry stored stored'
  rcases linked.store_cases wf rooted noZero holds stored with ⟨c, b, step, rfl, rfl⟩
  rcases linked.store_cases wf rooted noZero holds stored' with ⟨c', b', step', rfl, same⟩
  rw [Prod.mk.injEq] at same
  have sameParent := slots.slot_inj (rooted.parent_indexed wf step)
    (rooted.parent_indexed wf step') same.1
  subst sameParent
  rw [(List.idxOf_inj (wf.mirrors.mem_iff.mpr step)).mp same.2]

end Stores

/-! ## Both passes over an image -/

/-- The loader has built every branch that the root reaches at the address of its slot, and no more. -/
structure Loaded (t : Tree) (l : Loading) : Prop where
  root : l.root = some (t.slot t.branch)
  index : ∀ {k x}, l.index k = some x ↔
    ∃ b, t.branchIndex k = some b ∧ t.Reachable b ∧ t.slot b = x
  branch : ∀ {b}, t.Reachable b → l.mem (t.slot b) =
    { findex := (t.mem b).findex, id := (t.mem b).id, childN := (t.mem b).childN
      parent := (t.parent b).map t.slot }
  slots : ∀ {b}, t.Reachable b →
    l.slots (t.slot b) = (t.children b).map fun c => some (t.slot c)
  blank : ∀ {x}, (∀ b, t.Reachable b → t.slot b ≠ x) → l.mem x = {} ∧ l.slots x = []

variable {t : Tree} {b : BranchPtr}

theorem WellFormed.pruned_slot (wf : t.WellFormed) (reachable : t.Reachable b) :
    t.pruned.slot b = t.slot b := by
  rw [slot, wf.pruned_mem reachable, slot]

/-- The number of records that `io_load_map` finds in a file. -/
theorem Saveable.records (saveable : t.Saveable) (wf : t.WellFormed) :
    (UInt32.ofNat (ioResaveImage t).size).toNat / 20 = t.branchN.toNat := by
  have holds := wf.pruned.holds_image wf.pruned_rooted (saveable.pruned_slots wf)
  have fits := saveable.fits
  rw [← wf.ioResaveImage_pruned, holds.size, UInt32.toNat_ofNat',
    show t.pruned.branchN = t.branchN from rfl]
  omega

theorem Saveable.ioLoadMap (saveable : t.Saveable) (wf : t.WellFormed) :
    ∃ l, ioLoadMap (ioResaveImage t) = .ok l ∧ t.Loaded l := by
  have slots := saveable.pruned_slots wf
  have noZero := saveable.pruned_noZero wf
  have holds := wf.pruned.holds_image wf.pruned_rooted slots
  rw [wf.ioResaveImage_pruned] at holds
  rcases holds.ioLoadMap wf.pruned wf.pruned_rooted slots noZero with ⟨l, loaded, linked⟩
  have inside : ∀ {b}, t.Reachable b → t.pruned.slot b < t.pruned.branchN.toNat :=
    fun reachable => slots.lt (wf.pruned_indexed.mpr reachable)
  have root : t.pruned.slot t.branch = t.slot t.branch := wf.pruned_slot .refl
  refine ⟨l, loaded, ?_, ?_, ?_, ?_, ?_⟩
  · rw [linked.root, show t.pruned.branch = t.branch from rfl, if_pos (inside .refl), root]
  · intro k x
    rw [linked.index, Option.map_eq_some_iff]
    constructor
    · rintro ⟨b, stored, rfl⟩
      rcases wf.pruned_index.mp stored with ⟨stored, reachable⟩
      exact ⟨b, stored, reachable, (wf.pruned_slot reachable).symm⟩
    · rintro ⟨b, stored, reachable, rfl⟩
      exact ⟨b, wf.pruned_index.mpr ⟨stored, reachable⟩, wf.pruned_slot reachable⟩
  · intro b reachable
    have mem := wf.pruned_mem reachable
    rw [← wf.pruned_slot reachable, linked.branch (wf.pruned_indexed.mpr reachable),
      if_pos (inside reachable), mem, parent, mem]
    cases step : t.parent b with
    | none =>
        rw [show (t.mem b).parent = none from step]
        rfl
    | some p =>
        have above := (wf.reachable_parent_iff step).mp reachable
        rw [show (t.mem b).parent = some p from step, Option.map_some, wf.pruned_slot above]
        rfl
  · intro b reachable
    rw [← wf.pruned_slot reachable, linked.slots (wf.pruned_indexed.mpr reachable), children,
      wf.pruned_mem reachable]
    apply List.map_congr_left
    intro c child
    have below : t.Reachable c := reachable.tail child
    rw [if_pos (inside below), wf.pruned_slot below]
  · intro x unused
    apply Loading.ioLoadMap_blank _ loaded
    rw [holds.blank x]
    intro b indexed same
    have reachable := wf.pruned_indexed.mp indexed
    rw [wf.pruned_mem reachable] at same
    exact unused b reachable same

end Tree

/-! ## The loaded tree -/

/-- The tree of the map after `io_load_map`, without texts and notes. -/
def Loading.tree (l : Loading) (file : ByteFile) (rows : UInt64 → Option Row) (root : ℕ) : Tree where
  mem := fun i => { l.mem i with childList := (l.slots i).map fun c => c.getD 0 }
  next := (UInt32.ofNat file.size).toNat / 20
  branch := root
  branchIndex := l.index
  branchN := UInt32.ofNat file.size / 20
  bhead := file
  sqlite := rows

/-- What `branch_load` makes of the data of a branch; without a row the pointer stays null. -/
def Tree.loadedData (sql : Sqlite) (t : Tree) (i : ℕ) : Option BranchData :=
  if (t.mem i).id = 0 then none else branchLoad sql t (t.mem i).id

/-- The tree with the texts and notes that were loaded. -/
def Tree.withData (t : Tree) (data : ℕ → Option BranchData) : Tree :=
  { t with
    mem := fun i => { t.mem i with
      text := (data i).elim [] BranchData.text
      noteId := (data i).elim 0 BranchData.noteId } }

/-- The recursion of `branch_calculate`, to the given depth, where only some branches have data. -/
def branchCalculateIn (data : ℕ → Option BranchData) :
    ℕ → Tree → BranchPtr → Except LoadFault Tree
  | 0, t, _ => .ok t
  | depth + 1, t, b =>
      if (t.ancestors b).all fun a => (data a).isSome then
        let t := branchIncrease t b 1
        ((t.mem b).childList.take (t.mem b).childN.toNat).foldlM (branchCalculateIn data depth) t
      else .error .nullDeref

/-- The part of `map_load` that builds the tree. -/
def mapLoadTree (sql : Sqlite) (file : ByteFile) (rows : UInt64 → Option Row) :
    Except LoadFault Tree := do
  let l ← ioLoadMap file
  match l.root with
  | none => .error .nullDeref
  | some root =>
      let t := l.tree file rows root
      let data := t.loadedData sql
      branchCalculateIn data (t.next + 1) (t.withData data) root

/-! ## Counting in the data -/

section Calculate

variable {t : Tree} {data : ℕ → Option BranchData}

/-- All branches above those in the list have data. -/
def DataAbove (t : Tree) (data : ℕ → Option BranchData) (list : List BranchPtr) : Prop :=
  ∀ x ∈ list, ∀ a ∈ t.ancestors x, (data a).isSome

instance (list : List BranchPtr) : Decidable (DataAbove t data list) :=
  inferInstanceAs (Decidable (∀ x ∈ list, ∀ a ∈ t.ancestors x, (data a).isSome))

theorem dataAbove_append {list list' : List BranchPtr} :
    DataAbove t data (list ++ list') ↔ DataAbove t data list ∧ DataAbove t data list' := by
  simp only [DataAbove, List.mem_append, or_imp, forall_and]

/-- The count ends if each branch that it meets has only branches with data above it. -/
theorem branchCalculateIn_eq (data : BranchPtr → Option BranchData) (shape : t.Shape) (depth : ℕ)
    (totals : BranchPtr → UInt32) (b : BranchPtr) :
    branchCalculateIn data depth (t.withTotals totals) b =
      if DataAbove t data (preorder t.children depth b) then
        .ok (branchCalculateLoop depth (t.withTotals totals) b)
      else .error .nullDeref := by
  induction depth generalizing totals b with
  | zero => simp [branchCalculateIn, branchCalculateLoop, preorder, DataAbove]
  | succ depth ih =>
      have rounds : ∀ (list : List BranchPtr) (totals : BranchPtr → UInt32),
          list.foldlM (branchCalculateIn data depth) (t.withTotals totals) =
            if DataAbove t data (list.flatMap (preorder t.children depth)) then
              .ok (list.foldl (branchCalculateLoop depth) (t.withTotals totals))
            else .error .nullDeref := by
        intro list
        induction list with
        | nil => simp [DataAbove, pure_eq_ok]
        | cons c list ihList =>
            intro totals
            rw [List.foldlM_cons, ih]
            by_cases head : DataAbove t data (preorder t.children depth c)
            · rw [if_pos head, ok_bind, List.foldl_cons, branchCalculateLoop_withTotals shape,
                ihList]
              simp only [List.flatMap_cons, dataAbove_append, head, true_and]
            · rw [if_neg head]
              simp only [List.flatMap_cons, dataAbove_append, head, false_and, if_false]
              rfl
      have same : (t.withTotals totals).ancestors b = t.ancestors b := rfl
      have split : DataAbove t data (preorder t.children (depth + 1) b) ↔
          ((t.ancestors b).all fun a => (data a).isSome) = true ∧
            DataAbove t data ((t.children b).flatMap (preorder t.children depth)) := by
        simp only [preorder, DataAbove, List.mem_cons, forall_eq_or_imp, List.all_eq_true]
      simp only [branchCalculateIn, branchCalculateLoop, branchIncrease_withTotals shape, same]
      have lists : ∀ totals, (t.withTotals totals).children b = t.children b := fun _ => rfl
      rw [(shape.withTotals _).take_children, lists, rounds]
      by_cases here : ((t.ancestors b).all fun a => (data a).isSome) = true
      · simp only [split, here, if_true, true_and]
      · rw [if_neg here, if_neg fun whole => here (split.mp whole).1]

end Calculate

namespace Tree

variable {t : Tree} {b : BranchPtr} {l : Loading} {x : ℕ} (rows : UInt64 → Option Row)
  (data : ℕ → Option BranchData)

/-- The address of a branch after saving and loading. -/
def place (t : Tree) (b : BranchPtr) : Option ℕ :=
  if t.branch ∈ t.chain b then some (t.slot b) else none

theorem WellFormed.place_eq_some (wf : t.WellFormed) :
    t.place b = some x ↔ t.Reachable b ∧ t.slot b = x := by
  rw [place]
  by_cases reachable : t.Reachable b
  · rw [if_pos (wf.mem_chain_iff_reachable.mpr reachable)]
    simp [reachable]
  · rw [if_neg fun above => reachable (wf.mem_chain_iff_reachable.mp above)]
    simp [reachable]

/-- The tree that `io_load_map` builds from the image of `t`. -/
def reload (t : Tree) (l : Loading) (rows : UInt64 → Option Row) (data : ℕ → Option BranchData) :
    Tree :=
  (l.tree (ioResaveImage t) rows (t.slot t.branch)).withData data

section Reload

variable (loaded : t.Loaded l)

include loaded

theorem Loaded.parent_eq (reachable : t.Reachable b) :
    (t.reload l rows data).parent (t.slot b) = (t.parent b).map t.slot := by
  change (l.mem (t.slot b)).parent = _
  rw [loaded.branch reachable]

theorem Loaded.children_eq (reachable : t.Reachable b) :
    (t.reload l rows data).children (t.slot b) = (t.children b).map t.slot := by
  change (l.slots (t.slot b)).map _ = _
  rw [loaded.slots reachable, List.map_map]
  rfl

theorem Loaded.blank_links (unused : ∀ b, t.Reachable b → t.slot b ≠ x) :
    (t.reload l rows data).parent x = none ∧ (t.reload l rows data).children x = [] ∧
      ((t.reload l rows data).mem x).childN = 0 := by
  rcases loaded.blank unused with ⟨mem, slots⟩
  change (l.mem x).parent = none ∧ (l.slots x).map _ = [] ∧ (l.mem x).childN = 0
  rw [mem, slots]
  exact ⟨rfl, rfl, rfl⟩

variable (wf : t.WellFormed) (saveable : t.Saveable)

include wf saveable

/-- The loaded tree is linked as the saved one is. -/
theorem Loaded.shadow :
    Shadow t.parent {t.branch} t.place (t.reload l rows data).parent (t.reload l rows data).children where
  inj := by
    intro a b x presentA presentB
    rcases wf.place_eq_some.mp presentA with ⟨reachableA, rfl⟩
    rcases wf.place_eq_some.mp presentB with ⟨reachableB, same⟩
    exact saveable.slot_inj reachableA reachableB (UInt32.toNat_inj.mp same.symm)
  up_eq := by
    intro a x present low
    rcases wf.place_eq_some.mp present with ⟨reachable, rfl⟩
    cases step : t.parent a with
    | none =>
        have anc := wf.reachable_iff.mp reachable
        rw [anc_iff_of_root step] at anc
        exact absurd anc.symm low
    | some p =>
        refine ⟨p, t.slot p, rfl, ?_, ?_⟩
        · exact wf.place_eq_some.mpr ⟨(wf.reachable_parent_iff step).mp reachable, rfl⟩
        · rw [loaded.parent_eq rows data reachable, step, Option.map_some]
  mem_down := by
    intro a x y present
    rcases wf.place_eq_some.mp present with ⟨reachable, rfl⟩
    rw [loaded.children_eq rows data reachable, List.mem_map]
    constructor
    · rintro ⟨c, child, rfl⟩
      have step := wf.mirrors.mem_iff.mp child
      refine ⟨c, step, ?_, wf.place_eq_some.mpr ⟨reachable.tail child, rfl⟩⟩
      exact wf.ne_root step
    · rintro ⟨c, step, _, presentC⟩
      exact ⟨c, wf.mirrors.mem_iff.mpr step, (wf.place_eq_some.mp presentC).2⟩
  nodup := by
    intro a x present
    rcases wf.place_eq_some.mp present with ⟨reachable, rfl⟩
    rw [loaded.children_eq rows data reachable]
    apply (wf.mirrors.nodup a).map_on
    intro b childB c childC same
    exact saveable.slot_inj (reachable.tail childB) (reachable.tail childC)
      (UInt32.toNat_inj.mp same)

omit saveable in
theorem Loaded.rootless : ∀ x, t.place t.branch = some x → (t.reload l rows data).parent x = none := by
  intro x present
  rcases wf.place_eq_some.mp present with ⟨reachable, rfl⟩
  rw [loaded.parent_eq rows data reachable, wf.root_parent, Option.map_none]

omit saveable in
/-- Addresses that are no slots have no links. -/
theorem Loaded.links_eq : Shadow.links t.place (t.reload l rows data).parent = (t.reload l rows data).parent ∧
    Shadow.lists t.place (t.reload l rows data).children = (t.reload l rows data).children := by
  have both : ∀ x, Shadow.links t.place (t.reload l rows data).parent x = (t.reload l rows data).parent x ∧
      Shadow.lists t.place (t.reload l rows data).children x = (t.reload l rows data).children x := by
    intro x
    by_cases there : ∃ a, t.place a = some x
    · rcases there with ⟨a, present⟩
      exact ⟨Shadow.links_of_present present, Shadow.lists_of_present present⟩
    · have blank := loaded.blank_links rows data fun b reachable same =>
        there ⟨b, wf.place_eq_some.mpr ⟨reachable, same⟩⟩
      rw [Shadow.links, if_neg there, Shadow.lists, if_neg there, blank.1, blank.2.1]
      exact ⟨rfl, rfl⟩
  exact ⟨funext fun x => (both x).1, funext fun x => (both x).2⟩

/-- Every link of the loaded tree is one of the saved tree. -/
theorem Loaded.parent_cases {x z : ℕ} (step : (t.reload l rows data).parent x = some z) :
    ∃ c p, t.parent c = some p ∧ t.Reachable c ∧ t.slot c = x ∧ t.slot p = z := by
  have shadow := loaded.shadow rows data wf saveable
  have rootless := loaded.rootless rows data wf
  rw [← (loaded.links_eq rows data wf).1, shadow.links_eq_some rootless] at step
  rcases step with ⟨c, p, present, above, step, _⟩
  exact ⟨c, p, step, (wf.place_eq_some.mp present).1, (wf.place_eq_some.mp present).2,
    (wf.place_eq_some.mp above).2⟩

theorem Loaded.wellFormed : (t.reload l rows data).WellFormed := by
  have shadow := loaded.shadow rows data wf saveable
  have rootless := loaded.rootless rows data wf
  rcases loaded.links_eq rows data wf with ⟨links, lists⟩
  have mirrors := shadow.mirrors_links rootless
  have acyclic := shadow.acyclic_links wf.acyclic rootless
  rw [links] at mirrors acyclic
  rw [lists] at mirrors
  have lower : ∀ {b}, t.Reachable b → t.slot b < (t.reload l rows data).next := by
    intro b reachable
    rw [show (t.reload l rows data).next = _ from saveable.records wf]
    exact saveable.slot_lt reachable
  have linked : ∀ {x z}, (t.reload l rows data).parent x = some z → ∃ c p, t.parent c = some p ∧
      t.Reachable c ∧ t.slot c = x ∧ t.slot p = z := loaded.parent_cases rows data wf saveable
  have ids : ∀ {b}, t.Reachable b → ((t.reload l rows data).mem (t.slot b)).id = (t.mem b).id := by
    intro b reachable
    change (l.mem (t.slot b)).id = _
    rw [loaded.branch reachable]
  refine ⟨⟨mirrors, ?_, acyclic, ?_⟩, lower .refl, rootless _ (wf.place_eq_some.mpr ⟨.refl, rfl⟩),
    ?_, ?_, ?_⟩
  · intro x
    by_cases there : ∃ b, t.Reachable b ∧ t.slot b = x
    · rcases there with ⟨b, reachable, rfl⟩
      rw [loaded.children_eq rows data reachable, List.length_map, ← wf.childN_eq b]
      change (l.mem (t.slot b)).childN.toNat = _
      rw [loaded.branch reachable]
    · have blank := loaded.blank_links rows data fun b reachable same => there ⟨b, reachable, same⟩
      rw [blank.2.1, blank.2.2]
      rfl
  · intro x z step
    rcases linked step with ⟨c, p, link, reachable, rfl, rfl⟩
    exact ⟨Finset.mem_range.mpr (lower reachable),
      Finset.mem_range.mpr (lower ((wf.reachable_parent_iff link).mp reachable))⟩
  · rw [show (t.reload l rows data).branch = t.slot t.branch from rfl, ids .refl]
    exact loaded.index.mpr ⟨t.branch, wf.root_index, .refl, rfl⟩
  · intro k x stored
    rcases loaded.index.mp stored with ⟨b, known, reachable, rfl⟩
    rw [ids reachable]
    exact ⟨(wf.index_spec known).1, lower reachable⟩
  · intro x z step
    rcases linked step with ⟨c, p, link, reachable, rfl, rfl⟩
    rw [ids reachable]
    exact loaded.index.mpr ⟨c, wf.index_of_parent link, reachable, rfl⟩

/-- The counters that `branch_calculate` finds are those of the saved tree. -/
theorem Loaded.total_eq (reachable : t.Reachable b) :
    ((branchCalculate (t.reload l rows data) (t.slot t.branch)).mem (t.slot b)).totalBranchN =
      UInt32.ofNat (count t.parent b) := by
  have shadow := loaded.shadow rows data wf saveable
  have rootless := loaded.rootless rows data wf
  have links := (loaded.links_eq rows data wf).1
  have present : t.place b = some (t.slot b) := wf.place_eq_some.mpr ⟨reachable, rfl⟩
  have whole : ∀ c, StrictAnc t.parent c b → t.place c ≠ none := by
    intro c strict
    have below : t.Reachable c :=
      wf.reachable_iff.mpr (strict.anc.trans (wf.reachable_iff.mp reachable))
    rw [wf.place_eq_some.mpr ⟨below, rfl⟩]
    simp
  have counted := shadow.count_links rootless wf.root_parent present whole
  rw [links] at counted
  rw [← counted]
  apply branchCalculate_total (loaded.wellFormed rows data wf saveable)
  · intro y strict
    rw [← links, shadow.strictAnc_links rootless wf.root_parent] at strict
    rcases strict with ⟨c, _, presentC, _, _⟩
    rcases wf.place_eq_some.mp presentC with ⟨below, rfl⟩
    rcases anc_iff_eq_or_strictAnc.mp (wf.reachable_iff.mp below) with rfl | above
    · exact anc_refl _ _
    · apply StrictAnc.anc
      rw [← links]
      exact (shadow.strictAnc_links rootless wf.root_parent).mpr
        ⟨c, t.branch, presentC, wf.place_eq_some.mpr ⟨.refl, rfl⟩, above⟩
  · change (l.mem (t.slot b)).totalBranchN = 0
    rw [loaded.branch reachable]

end Reload

/--
`t'` is the tree `t` loaded again: what the root of `t` reaches, each branch at the address given by
its slot.
-/
structure Reloads (t t' : Tree) : Prop where
  wellFormed : t'.WellFormed
  branchN : t'.branchN = t.branchN
  root : t'.branch = t.slot t.branch
  index : ∀ {k x}, t'.branchIndex k = some x ↔
    ∃ b, t.branchIndex k = some b ∧ t.Reachable b ∧ t.slot b = x
  branch : ∀ {b}, t.Reachable b → (t'.mem (t.slot b)).id = (t.mem b).id ∧
    (t'.mem (t.slot b)).findex = (t.mem b).findex ∧ (t'.mem (t.slot b)).childN = (t.mem b).childN
  parent : ∀ {b}, t.Reachable b → t'.parent (t.slot b) = (t.parent b).map t.slot
  children : ∀ {b}, t.Reachable b → t'.children (t.slot b) = (t.children b).map t.slot
  total : ∀ {b}, t.Reachable b →
    (t'.mem (t.slot b)).totalBranchN = UInt32.ofNat (count t.parent b)

theorem Loaded.reloads (loaded : t.Loaded l) (wf : t.WellFormed) (saveable : t.Saveable) :
    t.Reloads (branchCalculate (t.reload l rows data) (t.slot t.branch)) := by
  have wf' := loaded.wellFormed rows data wf saveable
  have calculated := branchCalculate_eq (b := t.slot t.branch) wf'
  refine ⟨branchCalculate_wellFormed wf', ?_, ?_, ?_, ?_, ?_, ?_,
    loaded.total_eq rows data wf saveable⟩
  · rw [calculated]
    apply UInt32.toNat_inj.mp
    exact (UInt32.toNat_div _ _).trans (saveable.records wf)
  · rw [calculated]
    rfl
  · rw [calculated]
    exact loaded.index
  · intro b reachable
    have mem := loaded.branch reachable
    rw [calculated]
    change (l.mem (t.slot b)).id = _ ∧ (l.mem (t.slot b)).findex = _ ∧ (l.mem (t.slot b)).childN = _
    rw [mem]
    exact ⟨rfl, rfl, rfl⟩
  · intro b reachable
    rw [calculated]
    exact loaded.parent_eq rows data reachable
  · intro b reachable
    rw [calculated]
    exact loaded.children_eq rows data reachable

end Tree

/-- The entries of child arrays that `io_load_map` stores a branch in, in order. -/
def loadStores (file : ByteFile) : List (ℕ × ℕ) :=
  let n := (UInt32.ofNat file.size).toNat / 20
  ((List.range n).foldl (fun l i => l.alloc i (Bhead.codec.get file i)) Loading.init).stores file
    (List.range n)

/-- Every entry of every child array is written once, and nothing else is written. -/
theorem Tree.Saveable.loadStores {t : Tree} (saveable : t.Saveable) (wf : t.WellFormed) :
    (loadStores (ioResaveImage t)).Nodup ∧ ∀ p j, (p, j) ∈ loadStores (ioResaveImage t) ↔
      ∃ b, t.Reachable b ∧ t.slot b = p ∧ j < (t.children b).length := by
  have slots := saveable.pruned_slots wf
  have noZero := saveable.pruned_noZero wf
  have holds := wf.pruned.holds_image wf.pruned_rooted slots
  rw [wf.ioResaveImage_pruned] at holds
  have allocated := allocated_all wf.pruned slots noZero holds t.pruned.branchN.toNat
  have start := allocated.linked wf.pruned slots (Nat.le_refl _)
  rcases linked_all start wf.pruned wf.pruned_rooted slots noZero holds t.pruned.branchN.toNat with
    ⟨l, linked, _⟩
  simp only [Treedb.loadStores, saveable.records wf]
  rw [show t.branchN = t.pruned.branchN from rfl, Loading.stores_eq linked]
  refine ⟨start.stores_nodup wf.pruned wf.pruned_rooted slots noZero holds, ?_⟩
  intro p j
  refine (start.mem_stores wf.pruned wf.pruned_rooted slots noZero holds).trans ?_
  constructor
  · rintro ⟨b, indexed, rfl, inside⟩
    have reachable := wf.pruned_indexed.mp indexed
    rw [children, wf.pruned_mem reachable] at inside
    exact ⟨b, reachable, (wf.pruned_slot reachable).symm, inside⟩
  · rintro ⟨b, reachable, rfl, inside⟩
    refine ⟨b, wf.pruned_indexed.mpr reachable, wf.pruned_slot reachable, ?_⟩
    rw [children, wf.pruned_mem reachable]
    exact inside

/-! ## The data of the branches -/

section Data

variable {t : Tree} {b : BranchPtr} {l : Loading} (sql : Sqlite)

theorem ioResaveData_eq (wf : t.WellFormed) :
    ioResaveData t = (preorder t.children (t.next + 1) t.branch).foldl ioSaveBranchData t := by
  rw [ioResaveData, walk_eq_foldl]
  have lists : (fun b => (t.mem b).childList.take (t.mem b).childN.toNat) = t.children :=
    funext wf.take_children
  rw [lists]

/-- A saved row stays, and a branch in the list has one if its id is stored as an integer. -/
theorem foldl_ioSaveBranchData_row (list : List BranchPtr) {t' : Tree} (mem : t'.mem = t.mem)
    (small : (t.mem b).id.toNat < 2 ^ 63)
    (there : b ∈ list ∨ (t'.sqlite (t.mem b).id).isSome) :
    ((list.foldl ioSaveBranchData t').sqlite (t.mem b).id).isSome := by
  induction list generalizing t' with
  | nil => simpa using there
  | cons c list ih =>
      rw [List.foldl_cons]
      refine ih ((ioSaveBranchData_fields t' c).1.trans mem) ?_
      have kept : (t'.sqlite (t.mem b).id).isSome →
          ((ioSaveBranchData t' c).sqlite (t.mem b).id).isSome := by
        intro row
        unfold ioSaveBranchData
        split
        · simp only [Function.update_apply]
          split
          · rfl
          · exact row
        · exact row
      rcases there with member | row
      · rcases List.mem_cons.mp member with rfl | member
        · right
          have literal : sqlLiteral (t'.mem b).id = .integer (t'.mem b).id.toNat := by
            rw [mem]
            exact if_pos small
          simp only [ioSaveBranchData, literal]
          rw [mem, Function.update_self]
          rfl
        · exact .inl member
      · exact .inr (kept row)

/-- After a full save `branch_load` finds the branches with ids that are stored as integers. -/
theorem Tree.Loaded.data_isSome_iff (loaded : t.Loaded l) (wf : t.WellFormed)
    (saveable : t.Saveable) (reachable : t.Reachable b) (file : ByteFile) (root : ℕ) :
    ((l.tree file (ioResaveMap t).sqlite root).loadedData sql (t.slot b)).isSome ↔
      (t.mem b).id.toNat < 2 ^ 63 := by
  have id : ((l.tree file (ioResaveMap t).sqlite root).mem (t.slot b)).id = (t.mem b).id := by
    change (l.mem (t.slot b)).id = _
    rw [loaded.branch reachable]
  rw [loadedData, id, if_neg (saveable.id_ne_zero reachable)]
  by_cases small : (t.mem b).id.toNat < 2 ^ 63
  · have literal : sqlLiteral (t.mem b).id = .integer (t.mem b).id.toNat := if_pos small
    have visited : b ∈ preorder t.children (t.next + 1) t.branch :=
      (mem_preorder wf.mirrors wf.acyclic wf.supported (by simp)).mpr (wf.reachable_iff.mp reachable)
    have row := foldl_ioSaveBranchData_row (preorder t.children (t.next + 1) t.branch)
      (rfl : t.mem = t.mem) small (.inl visited)
    rw [← ioResaveData_eq wf] at row
    simp only [branchLoad, literal, Option.isSome_map, small, iff_true]
    exact row
  · rw [branchLoad_of_large sql _ small]
    simp only [Option.isSome_none, Bool.false_eq_true, small]

/-- `branch_calculate` counts in the data of exactly the branches with children. -/
theorem Tree.Loaded.dataAbove_iff (loaded : t.Loaded l) (wf : t.WellFormed)
    (saveable : t.Saveable) (rows : UInt64 → Option Row) (data : ℕ → Option BranchData) :
    DataAbove (t.reload l rows data) data (preorder (t.reload l rows data).children
        ((t.reload l rows data).next + 1) (t.slot t.branch)) ↔
      ∀ b, t.Reachable b → t.children b ≠ [] → (data (t.slot b)).isSome := by
  have wf' := loaded.wellFormed rows data wf saveable
  have met : ∀ y, y ∈ preorder (t.reload l rows data).children
      ((t.reload l rows data).next + 1) (t.slot t.branch) ↔
        Anc (t.reload l rows data).parent y (t.slot t.branch) :=
    fun y => mem_preorder wf'.mirrors wf'.acyclic wf'.supported (by simp)
  have reached : ∀ {b}, t.Reachable b → (t.reload l rows data).Reachable (t.slot b) := by
    intro b reachable
    induction reachable with
    | refl => exact .refl
    | tail above child ih =>
        apply ih.tail
        rw [loaded.children_eq rows data above]
        exact List.mem_map_of_mem child
  constructor
  · intro all b reachable inner
    rcases List.exists_mem_of_ne_nil _ inner with ⟨c, child⟩
    have below : t.Reachable c := reachable.tail child
    have step : (t.reload l rows data).parent (t.slot c) = some (t.slot b) := by
      rw [loaded.parent_eq rows data below, wf.mirrors.mem_iff.mp child, Option.map_some]
    refine all (t.slot c) ((met _).mpr (wf'.reachable_iff.mp (reached below))) _ ?_
    rw [wf'.mem_ancestors]
    exact strictAnc_iff_parent.mpr ⟨_, step, anc_refl _ _⟩
  · intro all x _ a above
    rw [wf'.mem_ancestors] at above
    rcases Relation.TransGen.tail'_iff.mp above with ⟨y, _, step⟩
    rcases loaded.parent_cases rows data wf saveable step with ⟨c, p, link, reachable, _, rfl⟩
    refine all p ((wf.reachable_parent_iff link).mp reachable) ?_
    exact List.ne_nil_of_mem (wf.mirrors.mem_iff.mpr link)

end Data

/--
Loading what a full save wrote gives the tree back, and stores every child once. The counters are
the numbers of descendants, so they are the old ones if these were right.
-/
def Tree.LoadsBack (sql : Sqlite) (t : Tree) : Prop :=
  ∃ t', mapLoadTree sql (ioResaveMap t).bhead (ioResaveMap t).sqlite = .ok t' ∧ t.Reloads t' ∧
    (t.Counted → ∀ b, t.Reachable b →
      (t'.mem (t.slot b)).totalBranchN = (t.mem b).totalBranchN) ∧
    (loadStores (ioResaveMap t).bhead).Nodup ∧
    ∀ p j, (p, j) ∈ loadStores (ioResaveMap t).bhead ↔
      ∃ b, t.Reachable b ∧ t.slot b = p ∧ j < (t.children b).length

/-- The ids of all branches with children are stored as integers. -/
def Tree.InnerIdsSmall (t : Tree) : Prop :=
  ∀ b, t.Reachable b → t.children b ≠ [] → (t.mem b).id.toNat < 2 ^ 63

/-- The loaded tree is counted if and only if the inner branches have data. -/
theorem Tree.Saveable.mapLoadTree_eq {t : Tree} (saveable : t.Saveable) (wf : t.WellFormed)
    (sql : Sqlite) :
    ∃ t', t.Reloads t' ∧ (t.InnerIdsSmall →
        mapLoadTree sql (ioResaveMap t).bhead (ioResaveMap t).sqlite = .ok t') ∧
      (¬t.InnerIdsSmall →
        mapLoadTree sql (ioResaveMap t).bhead (ioResaveMap t).sqlite = .error .nullDeref) := by
  rcases saveable.ioLoadMap wf with ⟨l, run, loaded⟩
  let data := (l.tree (ioResaveImage t) (ioResaveMap t).sqlite (t.slot t.branch)).loadedData sql
  let reloaded := t.reload l (ioResaveMap t).sqlite data
  have wf' : reloaded.WellFormed := loaded.wellFormed _ data wf saveable
  have count := branchCalculateIn_eq data wf'.toShape (reloaded.next + 1)
    (fun x => (reloaded.mem x).totalBranchN) (t.slot t.branch)
  have above := loaded.dataAbove_iff wf saveable (ioResaveMap t).sqlite data
  have small : DataAbove reloaded data (preorder reloaded.children (reloaded.next + 1)
      (t.slot t.branch)) ↔ t.InnerIdsSmall := by
    rw [above]
    refine forall₃_congr fun b reachable _ => ?_
    exact loaded.data_isSome_iff sql wf saveable reachable _ _
  have whole : mapLoadTree sql (ioResaveMap t).bhead (ioResaveMap t).sqlite =
      branchCalculateIn data (reloaded.next + 1) reloaded (t.slot t.branch) := by
    rw [mapLoadTree, show (ioResaveMap t).bhead = ioResaveImage t from rfl, run, ok_bind]
    simp only [loaded.root]
    rfl
  refine ⟨_, loaded.reloads (ioResaveMap t).sqlite data wf saveable, fun holds => ?_, fun fails => ?_⟩
  · rw [whole]
    exact count.trans (if_pos (small.mpr holds))
  · rw [whole]
    exact count.trans (if_neg fun all => fails (small.mp all))

theorem Tree.Saveable.loadsBack_iff {t : Tree} (saveable : t.Saveable) (wf : t.WellFormed)
    (sql : Sqlite) : t.LoadsBack sql ↔ t.InnerIdsSmall := by
  rcases saveable.mapLoadTree_eq wf sql with ⟨t', reloads, ends, stops⟩
  constructor
  · rintro ⟨t'', loads, _⟩
    by_contra large
    rw [stops large] at loads
    simp at loads
  · intro small
    refine ⟨t', ends small, reloads, ?_, saveable.loadStores wf⟩
    intro counted b reachable
    have lower := wf.indexed_lt (wf.indexed_of_anc (wf.reachable_iff.mp reachable))
    rw [reloads.total reachable, counted b lower]

end Treedb
