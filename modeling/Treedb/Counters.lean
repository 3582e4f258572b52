import Treedb.Structure

/-!
# Descendant counters

`total_branch_n` is never recomputed while a map is running: every edit adds a delta along one
chain of ancestors, in 32-bit arithmetic. The counters nevertheless stay equal, modulo 2^32, to the
numbers of descendants.

The counters are right to begin with in a new map, and after `branch_calculate` in a loaded one.
That recursion adds 1 to all ancestors of each branch it visits, and it visits each branch once.
-/

namespace Treedb

open Forest Outcome Treedb.Tree

/-- Every counter is the number of descendants, modulo 2^32. -/
def Tree.Counted (t : Tree) : Prop :=
  ∀ b < t.next, (t.mem b).totalBranchN = UInt32.ofNat (count t.parent b)

/-! ## Edits -/

namespace Tree.Counted

variable {t : Tree} {b c p pb opb npb : BranchPtr} {new : Branch} {i : ℕ}

theorem unlink (counted : t.Counted) (shape : t.Shape) (step : t.parent c = some p) :
    (t.unlink c p).Counted := by
  intro x allocated
  have cut : (t.unlink c p).parent c = none := by simp [Shape.unlink_parent]
  have outside : ∀ x, x ≠ c → (t.unlink c p).parent x = t.parent x := by
    intro x ne
    simp [Shape.unlink_parent, ne]
  have childLt : c < t.next := by simpa using (shape.supported c p step).1
  have total : ((t.unlink c p).mem x).totalBranchN =
      if x ∈ t.chain p then (t.mem x).totalBranchN + (-(t.mem c).totalBranchN - 1)
      else (t.mem x).totalBranchN := rfl
  have onChain : x ∈ t.chain p ↔ StrictAnc t.parent c x := by
    rw [shape.mem_chain, strictAnc_iff_of_parent step]
  rw [total, counted x allocated, counted c childLt]
  by_cases above : x ∈ t.chain p
  · have lost := count_unlink_of_strictAnc shape.acyclic cut outside shape.supported
      (onChain.mp above)
    rw [if_pos above, ← lost]
    simp only [UInt32.ofNat_add]
    grind
  · have kept := count_unlink_of_not_strictAnc shape.acyclic cut outside (mt onChain.mpr above)
    rw [if_neg above, kept]

theorem link (counted : t.Counted) (shape : t.Shape) (can : t.CanLink c p) :
    (t.link c p i).Counted := by
  intro x allocated
  have joined : (t.link c p i).parent c = some p := by simp [Shape.link_parent]
  have outside : ∀ x, x ≠ c → (t.link c p i).parent x = t.parent x := by
    intro x ne
    simp [Shape.link_parent, ne]
  have total : ((t.link c p i).mem x).totalBranchN =
      if x ∈ t.chain p then (t.mem x).totalBranchN + ((t.mem c).totalBranchN + 1)
      else (t.mem x).totalBranchN := rfl
  rw [total, counted x allocated, counted c can.child_lt]
  by_cases above : x ∈ t.chain p
  · have gained := count_link_of_anc shape.acyclic can.free joined outside can.apart
      shape.supported (shape.mem_chain.mp above)
    rw [if_pos above, gained]
    simp only [UInt32.ofNat_add]
    rfl
  · have kept := count_link_of_not_anc shape.acyclic can.free joined outside can.apart
      (mt shape.mem_chain.mpr above)
    rw [if_neg above, kept]

theorem alloc (counted : t.Counted) (shape : t.Shape) (fresh : Fresh new) :
    (t.alloc new).Counted := by
  intro x allocated
  rw [shape.alloc_parent fresh]
  by_cases same : x = t.next
  · subst same
    have leaf : below t.parent t.next = ∅ := by
      apply Set.eq_empty_of_forall_notMem
      intro y strict
      rcases Relation.TransGen.tail'_iff.mp strict with ⟨z, _, step⟩
      have supported := (shape.supported z t.next step).2
      simp at supported
    rw [alloc_mem_next, fresh.total, count, leaf, Set.ncard_empty]
    rfl
  · rw [alloc_mem_of_ne t new same]
    exact counted x (Nat.lt_of_le_of_ne (Nat.le_of_lt_succ allocated) same)

theorem congr (counted : t.Counted) {t' : Tree} (next : t'.next = t.next)
    (parents : t'.parent = t.parent)
    (totals : ∀ x, (t'.mem x).totalBranchN = (t.mem x).totalBranchN) : t'.Counted := by
  intro x allocated
  rw [totals, parents]
  apply counted
  rw [← next]
  exact allocated

theorem apply {e : Edit} (counted : t.Counted) (wf : t.WellFormed) (allowed : e.Allowed t) :
    (e.apply t).Counted := by
  cases e with
  | grow pb new i =>
      rcases allowed with ⟨fresh, _, indexed, _, _, _⟩
      have linked := (counted.alloc wf.toShape fresh).link (i := i) (wf.toShape.alloc fresh)
        (wf.canLink_alloc fresh (wf.indexed_lt indexed))
      have saved := Edit.grow_apply_mem t pb new i
      apply linked.congr
      · exact (ioSaveBranchData_fields _ _).2.1
      · funext x
        simp only [parent, saved]
        rfl
      · intro x
        simp only [saved]
        rfl
  | rehome b opb npb i =>
      rcases allowed with ⟨step, indexed, apart, _, _⟩
      have linked := (counted.unlink wf.toShape step).link (i := i) (wf.toShape.unlink step)
        (wf.canLink_unlink step (wf.indexed_lt indexed) apart)
      apply linked.congr <;> intros <;> rfl
  | forget b p =>
      apply (counted.unlink wf.toShape allowed).congr
      · rfl
      · funext x
        change (t.forget b p).parent x = _
        rw [forget_parent, Shape.unlink_parent]
      · intro x
        simp only [Edit.apply, flush_mem, forget, modify_mem]
        split <;> rfl
  | relabel b text noteId =>
      have saved := Edit.relabel_apply_mem t b text noteId
      apply counted.congr
      · exact (ioSaveBranchData_fields _ _).2.1
      · funext x
        simp only [parent, saved, modify_mem]
        split <;> rfl
      · intro x
        simp only [saved, modify_mem]
        split <;> rfl

end Tree.Counted

theorem call_counted {m m' : Map} {call : Call} (wf : m.tree.WellFormed)
    (counted : m.tree.Counted) (run : m.call call = .ok m') : m'.tree.Counted := by
  have edits := call_edits False False wf False.elim False.elim run
  apply edits.invariant_wellFormed _ wf counted
  intro t e wf counted allowed _
  exact counted.apply wf allowed

/-! ## The recursion of `branch_calculate` -/

/-- The same tree with other counters. -/
def Tree.withTotals (t : Tree) (totals : BranchPtr → UInt32) : Tree :=
  { t with mem := fun x => { t.mem x with totalBranchN := totals x } }

section Calculate

variable {t : Tree} {totals : BranchPtr → UInt32} {b : BranchPtr}

theorem Tree.Shape.withTotals (shape : t.Shape) (totals : BranchPtr → UInt32) :
    (t.withTotals totals).Shape :=
  ⟨shape.mirrors, shape.childN_eq, shape.acyclic, shape.supported⟩

/-- The counters after 1 was added at every ancestor of `b`. -/
def Tree.raiseAbove (t : Tree) (totals : BranchPtr → UInt32) (b : BranchPtr) : BranchPtr → UInt32 :=
  fun x => if x ∈ t.ancestors b then totals x + 1 else totals x

theorem branchIncrease_withTotals (shape : t.Shape) :
    branchIncrease (t.withTotals totals) b 1 = t.withTotals (t.raiseAbove totals b) := by
  rw [(shape.withTotals totals).branchIncrease_eq]
  ext1 <;> try rfl
  funext x
  simp only [Tree.withTotals, raiseAbove]
  change (if x ∈ t.ancestors b then _ else _) = _
  split <;> rfl

/-- `branch_calculate` is a walk that leaves everything but the counters alone. -/
theorem branchCalculateLoop_withTotals (shape : t.Shape) (depth : ℕ) :
    branchCalculateLoop depth (t.withTotals totals) b =
      t.withTotals (walk t.children t.raiseAbove depth totals b) := by
  induction depth generalizing totals b with
  | zero => rfl
  | succ depth ih =>
      simp only [branchCalculateLoop, branchIncrease_withTotals shape, walk]
      rw [(shape.withTotals _).take_children]
      change (t.children b).foldl _ _ = _
      generalize t.raiseAbove totals b = totals
      generalize t.children b = list
      induction list generalizing totals with
      | nil => rfl
      | cons c list ihList => rw [List.foldl_cons, ih, ihList, List.foldl_cons]

theorem foldl_raiseAbove (list : List BranchPtr) (x : BranchPtr) :
    list.foldl t.raiseAbove totals x =
      totals x + UInt32.ofNat (list.filter fun b => x ∈ t.ancestors b).length := by
  induction list generalizing totals with
  | nil => simp
  | cons b list ih =>
      rw [List.foldl_cons, ih]
      by_cases above : x ∈ t.ancestors b
      · simp only [raiseAbove, above, if_true, List.filter_cons, decide_true, List.length_cons,
          UInt32.ofNat_add]
        grind
      · simp [raiseAbove, above]

/-- Every branch lies in the tree of the root. -/
def Tree.Connected (t : Tree) : Prop :=
  ∀ b < t.next, Anc t.parent b t.branch

theorem branchCalculate_eq (wf : t.WellFormed) :
    branchCalculate t b =
      t.withTotals (walk t.children t.raiseAbove (t.next + 1) (fun x => (t.mem x).totalBranchN) b) :=
  branchCalculateLoop_withTotals wf.toShape (t.next + 1)

theorem branchCalculate_wellFormed (wf : t.WellFormed) :
    (branchCalculate t b).WellFormed := by
  rw [branchCalculate_eq wf]
  exact ⟨wf.toShape.withTotals _, wf.root_lt, wf.root_parent, wf.root_index, wf.index_spec,
    wf.index_of_parent⟩

/-- From zero, `branch_calculate` at the root counts the descendants of a branch. -/
theorem branchCalculate_total (wf : t.WellFormed) {x : BranchPtr}
    (inside : ∀ y, StrictAnc t.parent y x → Anc t.parent y t.branch)
    (zero : (t.mem x).totalBranchN = 0) :
    ((branchCalculate t t.branch).mem x).totalBranchN = UInt32.ofNat (count t.parent x) := by
  rw [branchCalculate_eq wf]
  have met : ∀ y, y ∈ preorder t.children (t.next + 1) t.branch ↔ Anc t.parent y t.branch :=
    fun y => mem_preorder wf.mirrors wf.acyclic wf.supported (by simp)
  have nodup := preorder_nodup wf.mirrors wf.acyclic (t.next + 1) t.branch
  have counts : below t.parent x =
      ((preorder t.children (t.next + 1) t.branch).filter fun b => x ∈ t.ancestors b).toFinset := by
    ext y
    simp only [below, Set.mem_ofPred_eq, List.coe_toFinset, List.mem_filter, met, wf.mem_ancestors,
      decide_eq_true_eq]
    constructor
    · intro strict
      exact ⟨inside y strict, strict⟩
    · exact And.right
  have value : ((t.withTotals (walk t.children t.raiseAbove (t.next + 1)
      (fun x => (t.mem x).totalBranchN) t.branch)).mem x).totalBranchN =
      (preorder t.children (t.next + 1) t.branch).foldl t.raiseAbove
        (fun x => (t.mem x).totalBranchN) x := by
    rw [← walk_eq_foldl]
    rfl
  rw [value, foldl_raiseAbove, zero]
  rw [count, counts, Set.ncard_coe_finset, List.toFinset_card_of_nodup (nodup.filter _),
    UInt32.zero_add]

theorem branchCalculate_counted (wf : t.WellFormed) (connected : t.Connected)
    (zero : ∀ b < t.next, (t.mem b).totalBranchN = 0) :
    (branchCalculate t t.branch).Counted := by
  have parents : (branchCalculate t t.branch).parent = t.parent := by
    rw [branchCalculate_eq wf]
    rfl
  have next : (branchCalculate t t.branch).next = t.next := by
    rw [branchCalculate_eq wf]
    rfl
  intro x allocated
  rw [next] at allocated
  rw [parents]
  apply branchCalculate_total wf _ (zero x allocated)
  intro y strict
  exact strict.anc.trans (connected x allocated)

end Calculate

/-! ## Runs -/

/-- A new map, or a loaded one whose counters were just calculated; there are no views yet. -/
inductive Map.StartsCounting : Map → Prop
  | created (id : UInt32) : StartsCounting (mapCreateEmpty id)
  | loaded (m : Map) (wf : m.tree.WellFormed) (connected : m.tree.Connected)
      (zero : ∀ b < m.tree.next, (m.tree.mem b).totalBranchN = 0) (views : m.overlay.NoViews) :
      StartsCounting { m with tree := branchCalculate m.tree m.tree.branch }

theorem mapCreateEmpty_counted (id : UInt32) : (mapCreateEmpty id).tree.Counted := by
  have start := mapCreateEmpty_holdsOnlyRoot id
  intro b allocated
  have only : b = 0 := by
    rw [start.next] at allocated
    exact Nat.lt_one_iff.mp allocated
  subst only
  have leaf : below (mapCreateEmpty id).tree.parent 0 = ∅ := by
    apply Set.eq_empty_of_forall_notMem
    intro y strict
    apply not_strictAnc_of_root (start.bare y).1 strict
  rw [count, leaf, Set.ncard_empty, mapCreateEmpty_mem]
  rfl

theorem Map.StartsCounting.counted {m : Map} (start : m.StartsCounting) :
    m.tree.WellFormed ∧ m.tree.Counted ∧ m.overlay.NoViews := by
  cases start with
  | created id =>
      have single := mapCreateEmpty_holdsOnlyRoot id
      exact ⟨single.wellFormed, mapCreateEmpty_counted id, single.views⟩
  | loaded m wf connected zero views =>
      exact ⟨branchCalculate_wellFormed wf, branchCalculate_counted wf connected zero, views⟩

end Treedb
