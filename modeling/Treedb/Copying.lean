import Treedb.Call
import Treedb.View.Edit

/-!
# The copy loops (`branch_add`, `vbranch_add`)

Both functions copy a child array into a new one and put one entry between. The loop counts with an
`unsigned short`, a branch keeps the length in a `uint16_t` and a vbranch in an `int`, and the sum
`child_n + 1` is an `int` in both.

`copyLoop` is given fuel. Here the rounds of the loop are taken one by one over a memory without
end, so that a run that does not stop is told from one that does; the two agree on every array.
-/

namespace Treedb

/-- The variables of the loop: the counter, how far `b` has moved, and what `a` has written. -/
structure Copying (α : Type) where
  n : UInt16 := 0
  b : ℕ := 0
  written : List α := []

namespace Copying

variable {α : Type}

/-- The condition of the loop. -/
def Running (childN : ℤ) (c : Copying α) : Prop :=
  (c.n.toNat : ℤ) < childN + 1

/-- One round of the loop. -/
def round (pos : ℤ) (childList : ℕ → α) (current : α) (c : Copying α) : Copying α :=
  if (c.n.toNat : ℤ) ≠ pos then
    { n := c.n + 1, b := c.b + 1, written := c.written ++ [childList c.b] }
  else { n := c.n + 1, b := c.b, written := c.written ++ [current] }

/-- The loop after `k` rounds. -/
def after (pos : ℤ) (childList : ℕ → α) (current : α) : ℕ → Copying α
  | 0 => {}
  | k + 1 => round pos childList current (after pos childList current k)

/-- The loop stops, and leaves the given entries. -/
def Ends (childN pos : ℤ) (childList : ℕ → α) (current : α) (childs : List α) : Prop :=
  ∃ k, (∀ j < k, (after pos childList current j).Running childN) ∧
    ¬ (after pos childList current k).Running childN ∧
      (after pos childList current k).written = childs

/-- A first child is put into an array of its own; otherwise the loop is run. -/
def Copies (childN pos : ℤ) (childList : ℕ → α) (current : α) (childs : List α) : Prop :=
  if childN = 0 then childs = [current]
  else Ends childN (if pos < 0 ∨ pos > childN then childN else pos) childList current childs

variable {pos : ℤ} {childList : ℕ → α} {current : α} {childs : List α}

@[simp]
theorem round_n (c : Copying α) : (round pos childList current c).n = c.n + 1 := by
  unfold round
  split <;> rfl

theorem after_n (k : ℕ) : (after pos childList current k).n = UInt16.ofNat k := by
  induction k with
  | zero => rfl
  | succ k ih => rw [after, round_n, ih, counter_succ]

theorem after_running (k : ℕ) (childN : ℤ) :
    (after pos childList current k).Running childN ↔ ((k % 65536 : ℕ) : ℤ) < childN + 1 := by
  rw [Running, after_n, UInt16.toNat_ofNat']

/-- Before the insertion point the old entries are copied. -/
theorem after_early {p : ℕ} (small : p < 65536) (k : ℕ) (early : k ≤ p) :
    after (p : ℤ) childList current k =
      { n := UInt16.ofNat k, b := k, written := (List.range k).map childList } := by
  induction k with
  | zero => rfl
  | succ k ih =>
      have other : ((UInt16.ofNat k).toNat : ℤ) ≠ p := by
        rw [toNat_ofNat_counter (by omega)]
        omega
      rw [after, ih (by omega), round, if_pos other, counter_succ, List.range_succ,
        List.map_append]
      rfl

theorem insertIdx_concat {l : List α} {p : ℕ} (x : α) (inside : p ≤ l.length) :
    (l ++ [x]).insertIdx p current = l.insertIdx p current ++ [x] := by
  induction l generalizing p with
  | nil =>
      rw [Nat.le_zero.mp inside]
      rfl
  | cons y l ih =>
      cases p with
      | zero => rfl
      | succ p =>
          rw [List.cons_append, List.insertIdx_succ_cons, List.insertIdx_succ_cons,
            ih (Nat.le_of_succ_le_succ inside), List.cons_append]

/-- From the insertion point on the new entry is among them. -/
theorem after_late {p : ℕ} (k : ℕ) (late : p ≤ k) (small : k < 65536) :
    after (p : ℤ) childList current (k + 1) =
      { n := UInt16.ofNat (k + 1), b := k,
        written := ((List.range k).map childList).insertIdx p current } := by
  induction k, late using Nat.le_induction with
  | base =>
      have here : ((UInt16.ofNat p).toNat : ℤ) = p := by
        rw [toNat_ofNat_counter small]
      have last := List.insertIdx_length_self (l := (List.range p).map childList) (x := current)
      rw [List.length_map, List.length_range] at last
      rw [after, after_early small p le_rfl, round, if_neg (not_not_intro here), counter_succ, last]
  | succ k late ih =>
      have other : ((UInt16.ofNat (k + 1)).toNat : ℤ) ≠ p := by
        rw [toNat_ofNat_counter small]
        omega
      rw [after, ih (by omega), round, if_pos other, counter_succ, List.range_succ,
        List.map_append, List.map_singleton, insertIdx_concat _ (by simpa using late)]

/-- With 65535 old entries the counter comes back to 0 before it meets the bound. -/
theorem after_full (k : ℕ) : (after pos childList current k).Running 65535 := by
  rw [after_running]
  have cut := Nat.mod_lt k (show 0 < 65536 by decide)
  omega

theorem not_ends_full : ¬ Ends 65535 pos childList current childs := by
  rintro ⟨k, -, stopped, -⟩
  exact stopped (after_full k)

/-- Below that the loop stops after one round for each slot. -/
theorem ends_iff {childN p : ℕ} (small : childN < 65535) (inside : p ≤ childN) :
    Ends childN p childList current childs ↔
      childs = ((List.range childN).map childList).insertIdx p current := by
  have stopped : ¬ (after (p : ℤ) childList current (childN + 1)).Running childN := by
    rw [after_running, Nat.mod_eq_of_lt (by omega)]
    omega
  have running : ∀ j < childN + 1, (after (p : ℤ) childList current j).Running childN := by
    intro j early
    rw [after_running, Nat.mod_eq_of_lt (by omega)]
    omega
  have written : (after (p : ℤ) childList current (childN + 1)).written =
      ((List.range childN).map childList).insertIdx p current := by
    rw [after_late childN inside (by omega)]
  constructor
  · rintro ⟨k, before, done, left⟩
    have last : k = childN + 1 := by
      rcases Nat.lt_trichotomy k (childN + 1) with early | same | late
      · exact absurd (running k early) done
      · exact same
      · exact absurd (before _ late) stopped
    rw [← left, last, written]
  · rintro rfl
    exact ⟨childN + 1, running, stopped, written⟩

end Copying

/-! ## The two functions -/

/-- The memory that starts with an array, and what lies beyond it. -/
def held {α : Type} (list : List α) (beyond : ℕ → α) (i : ℕ) : α :=
  list.getD i (beyond i)

/--
`branch_add` runs its loop to the end over an array one longer than the old one, which becomes
the child array of the parent, and counts one child more.
-/
def AddsBranch (t : Tree) (current parent : BranchPtr) (pos : ℤ) (beyond : ℕ → BranchPtr) : Prop :=
  ∃ childs t', Copying.Copies (t.mem parent).childN.toNat pos (held (t.children parent) beyond)
      current childs ∧
    childs.length = (t.mem parent).childN.toNat + 1 ∧ branchAdd t current parent pos = .ok t' ∧
    t'.children parent = childs ∧ (t'.mem parent).childN.toNat = (t.mem parent).childN.toNat + 1

/-- `vbranch_add` does the same, at the position of the branch that is shown. -/
def AddsVbranch (t : Tree) (o : Overlay) (current parent : VbranchPtr)
    (beyond : ℕ → VbranchPtr) : Prop :=
  ∃ childs o', Copying.Copies (o.vchildren parent).length (branchGetPos t (o.vmem current).branch)
      (held (o.vchildren parent) beyond) current childs ∧
    childs.length = (o.vchildren parent).length + 1 ∧ vbranchAdd t o current parent = .ok o' ∧
    o'.vchildren parent = childs

section Functions

open Copying Overlay Treedb.Tree

variable {α : Type} {list childs : List α} {current : α} {pos : ℤ} {t : Tree} {o : Overlay}
  {b c p : BranchPtr} {x y : VbranchPtr}

theorem map_held (list : List α) (beyond : ℕ → α) :
    (List.range list.length).map (held list beyond) = list := by
  apply List.ext_getElem
  · rw [List.length_map, List.length_range]
  · intro i _ inside
    rw [List.getElem_map, List.getElem_range]
    exact List.getD_eq_getElem list _ inside

/-- What is copied, and that nothing is where the array is full. -/
theorem copies_held_iff (short : list.length ≤ 65535) (beyond : ℕ → α) :
    Copies list.length pos (held list beyond) current childs ↔
      list.length < 65535 ∧ childs = list.insertIdx (insertPos pos list.length) current := by
  unfold Copies
  by_cases empty : list = []
  · have start : insertPos pos 0 = 0 := Nat.le_zero.mp (insertPos_le pos 0)
    simp [empty, start]
  · have nonempty : ¬((list.length : ℤ) = 0) := by simpa using empty
    rw [if_neg nonempty]
    by_cases full : list.length = 65535
    · rw [full]
      constructor
      · exact fun ends => absurd ends not_ends_full
      · exact fun both => absurd both.1 (lt_irrefl _)
    · have small : list.length < 65535 := by omega
      rw [insertPos_cast, ends_iff small (insertPos_le pos list.length), map_held]
      exact (and_iff_right small).symm

/-- The rounds of the loop end as `childsWith` says, and only then. -/
theorem copies_iff_childsWith (short : list.length ≤ 65535) (beyond : ℕ → α) :
    Copies list.length pos (held list beyond) current childs ↔
      childsWith list.length list current pos = .ok childs := by
  rw [copies_held_iff short, childsWith_eq list current pos short]
  by_cases full : list.length = 65535
  · simp [full]
  · have small : list.length < 65535 := by omega
    simp [full, small, eq_comm]

theorem branchIncrease_links (t : Tree) (b x : BranchPtr) (n : Int32) :
    (branchIncrease t b n).children x = t.children x ∧
      ((branchIncrease t b n).mem x).childN = (t.mem x).childN := by
  unfold branchIncrease
  generalize t.ancestors b = list
  induction list generalizing t with
  | nil => exact ⟨rfl, rfl⟩
  | cons a list ih =>
      have rest := ih (t.modify a fun x => { x with totalBranchN := x.totalBranchN + n.toUInt32 })
      rw [List.foldl_cons]
      refine ⟨rest.1.trans ?_, rest.2.trans ?_⟩
      · rw [Tree.children, modify_mem]
        split <;> rfl
      · rw [modify_mem]
        split <;> rfl

/-- `branch_add` fails with its loop, or gives the parent the array that the loop leaves. -/
theorem branchAdd_of_childsWith {childs : List BranchPtr}
    (copied : childsWith (t.mem p).childN.toNat (t.children p) c pos = .ok childs) :
    ∃ t', branchAdd t c p pos = .ok t' ∧ t'.children p = childs ∧
      (t'.mem p).childN = (t.mem p).childN + 1 := by
  have same : ((t.modify c fun b => { b with parent := some p }).mem p).childN = (t.mem p).childN ∧
      ((t.modify c fun b => { b with parent := some p }).mem p).childList = t.children p := by
    rw [modify_mem]
    constructor <;> split <;> rfl
  unfold branchAdd
  simp only [same, copied]
  refine ⟨_, rfl, ?_, ?_⟩
  · refine (branchIncrease_links _ _ _ _).1.trans ?_
    rw [Tree.children, modify_mem, if_pos rfl]
  · refine (branchIncrease_links _ _ _ _).2.trans ?_
    rw [modify_mem, if_pos rfl, same.1]

theorem vbranchAdd_of_childsWith {childs : List VbranchPtr}
    (copied : childsWith (o.vchildren y).length (o.vchildren y) x
      (branchGetPos t (o.vmem x).branch) = .ok childs) :
    ∃ o', vbranchAdd t o x y = .ok o' ∧ o'.vchildren y = childs := by
  have same : ((o.modify x fun vb => { vb with parent := some y }).vmem y).childList =
      o.vchildren y := by
    rw [modify_vmem]
    split <;> rfl
  have stood : ((o.modify x fun vb => { vb with parent := some y }).vmem x).branch =
      (o.vmem x).branch := by
    rw [modify_vmem, if_pos rfl]
  unfold vbranchAdd
  simp only [same, stood, copied]
  refine ⟨_, rfl, ?_⟩
  rw [vchildren, modify_vmem, if_pos rfl]

theorem addsBranch_iff (array : (t.children p).length = (t.mem p).childN.toNat)
    (beyond : ℕ → BranchPtr) :
    AddsBranch t c p pos beyond ↔ (t.mem p).childN.toNat < 65535 := by
  have bound := (t.mem p).childN.toNat_lt
  have short : (t.children p).length ≤ 65535 := by omega
  unfold AddsBranch
  rw [← array]
  constructor
  · rintro ⟨childs, t', copied, -⟩
    exact ((copies_held_iff short beyond).mp copied).1
  · intro room
    have copied : Copies (t.children p).length pos (held (t.children p) beyond) c
        ((t.children p).insertIdx (insertPos pos (t.children p).length) c) :=
      (copies_held_iff short beyond).mpr ⟨room, rfl⟩
    have ran := (copies_iff_childsWith short beyond).mp copied
    rw [array] at ran
    obtain ⟨t', added, listed, counted⟩ := branchAdd_of_childsWith ran
    rw [← array] at listed
    refine ⟨_, t', copied, ?_, added, listed, ?_⟩
    · exact List.length_insertIdx_of_le_length (insertPos_le _ _) c
    · rw [counted, UInt16.toNat_add, ← array]
      exact Nat.mod_eq_of_lt (by simp; omega)

theorem addsVbranch_iff (short : (o.vchildren y).length ≤ 65535) (beyond : ℕ → VbranchPtr) :
    AddsVbranch t o x y beyond ↔ (o.vchildren y).length < 65535 := by
  constructor
  · rintro ⟨childs, o', copied, -⟩
    exact ((copies_held_iff short beyond).mp copied).1
  · intro room
    have copied : Copies (o.vchildren y).length (branchGetPos t (o.vmem x).branch)
        (held (o.vchildren y) beyond) x ((o.vchildren y).insertIdx (o.linkPos t x y) x) :=
      (copies_held_iff short beyond).mpr ⟨room, rfl⟩
    have ran := (copies_iff_childsWith short beyond).mp copied
    obtain ⟨o', added, listed⟩ := vbranchAdd_of_childsWith ran
    exact ⟨_, o', copied, List.length_insertIdx_of_le_length (insertPos_le _ _) x, added, listed⟩

end Functions

/--
Both functions copy the whole array exactly when the parent has fewer than 65535 children, for a
parent with as many entries as it counts and a vbranch that shows as many.
-/
theorem copyLoops_iff (t : Tree) (o : Overlay) (c p : BranchPtr) (x y : VbranchPtr) (pos : ℤ)
    (beyond : ℕ → BranchPtr) (vbeyond : ℕ → VbranchPtr)
    (array : (t.children p).length = (t.mem p).childN.toNat)
    (mirror : (o.vchildren y).length = (t.mem p).childN.toNat) :
    (AddsBranch t c p pos beyond ↔ (t.mem p).childN.toNat < 65535) ∧
      (AddsVbranch t o x y vbeyond ↔ (t.mem p).childN.toNat < 65535) := by
  have bound := (t.mem p).childN.toNat_lt
  constructor
  · exact addsBranch_iff array beyond
  · rw [addsVbranch_iff (by omega) vbeyond, mirror]

/-- The third child of a root, and of its vbranch in a view that shows the two others. -/
theorem copyLoops_thirdChild :
    ∃ m y, (mapCreateEmpty 1).run
        [.insert 0 1 2 0 [] 0 0, .insert 0 1 3 1 [] 0 0, .initView 7 0 0 [] 0 [] []] = .ok m ∧
      m.tree.children 0 = [1, 2] ∧ (m.overlay.vchildren y).length = 2 ∧
      (AddsBranch m.tree 3 0 1 id ↔ (m.tree.mem 0).childN.toNat < 65535) ∧
      (AddsVbranch m.tree m.overlay ⟨0, m.overlay.vnext⟩ y (fun i => ⟨0, i⟩) ↔
        (m.tree.mem 0).childN.toNat < 65535) := by
  have observed : ((mapCreateEmpty 1).run
      [.insert 0 1 2 0 [] 0 0, .insert 0 1 3 1 [] 0 0,
        .initView 7 0 0 [] 0 [] []]).toOption.map (fun m =>
          (m.tree.children 0, (m.tree.mem 0).childN,
            (m.overlay.vchildren (m.overlay.views 0).vbranch).length)) = some ([1, 2], 2, 2) := by
    decide +kernel
  rcases run : (mapCreateEmpty 1).run
      [.insert 0 1 2 0 [] 0 0, .insert 0 1 3 1 [] 0 0, .initView 7 0 0 [] 0 [] []] with e | m
  · simp [run, Except.toOption] at observed
  · simp only [run, Except.toOption, Option.map_some, Option.some.injEq, Prod.mk.injEq] at observed
    rcases observed with ⟨listed, count, shown⟩
    refine ⟨m, (m.overlay.views 0).vbranch, rfl, listed, shown, ?_⟩
    apply copyLoops_iff
    · rw [listed, count]
      rfl
    · rw [shown, count]
      rfl

/-- A root with 65535 children, and a branch that is to become the next one. -/
def crowdedTree : Tree where
  mem := fun i =>
    if i = 0 then
      { id := 1, childList := List.range' 1 65535, childN := 65535, totalBranchN := 65535 }
    else
      { findex := UInt32.ofNat i, id := UInt64.ofNat (i + 1),
        parent := if i ≤ 65535 then some 0 else none }
  next := 65537
  branch := 0
  branchIndex := fun id =>
    if 1 ≤ id.toNat ∧ id.toNat ≤ 65536 then some (id.toNat - 1) else none
  branchN := 65536
  bhead := RecordFile.ByteFile.empty
  sqlite := fun _ => none

/-- At 65535 children the counter wraps and the loop is entered for ever. -/
theorem copyLoops_endless :
    (∀ beyond k, (Copying.after 65535 (held (crowdedTree.children 0) beyond) 65536 k).Running
      (crowdedTree.mem 0).childN.toNat) ∧
    ∀ beyond, ¬ AddsBranch crowdedTree 65536 0 65535 beyond := by
  have array : (crowdedTree.children 0).length = (crowdedTree.mem 0).childN.toNat :=
    List.length_range'
  refine ⟨fun beyond => Copying.after_full, fun beyond => ?_⟩
  rw [addsBranch_iff array beyond]
  exact lt_irrefl _

end Treedb
