import Treedb.Branch
import Treedb.Forest.Count
import Treedb.Forest.Walk

/-!
# Linking and unlinking

`Tree.link` and `Tree.unlink` say in one step what `branch_add` and `branch_detach` do to the
memory of a well-formed tree: one parent pointer, one child list, and the counters of the
ancestors change. The functions translated from the source are shown to compute them; everything
proved later about the shape of trees is proved about these two edits.

`Tree.Shape` is the part of well-formedness that the two edits need: child lists and parent
pointers mirror each other, no branch is its own ancestor, and pointers stay among the allocated
branches.
-/

namespace Treedb

open Forest

/-! ## The copy loop -/

theorem copyLoop_full {α : Type} (pos : ℤ) (current : α) (fuel : ℕ) (n : UInt16)
    (src dst : List α) :
    copyLoop 65535 pos current fuel n src dst = .error .childOverflow := by
  induction fuel generalizing n src dst with
  | zero => rfl
  | succ fuel ih =>
      have running : (n.toNat : ℤ) < 65535 + 1 := by
        have := n.toNat_lt
        omega
      simp only [copyLoop, running, if_true]
      cases src with
      | nil =>
          split
          · rfl
          · exact ih _ _ _
      | cons x src =>
          split
          · exact ih _ _ _
          · exact ih _ _ _

theorem toNat_ofNat_counter {n : ℕ} (small : n < 65536) : (UInt16.ofNat n).toNat = n := by
  rw [UInt16.toNat_ofNat']
  omega

theorem counter_succ (n : ℕ) : UInt16.ofNat n + 1 = UInt16.ofNat (n + 1) := by
  rw [UInt16.ofNat_add]
  rfl

/-- Past the insertion point the loop copies the rest. -/
theorem copyLoop_after {α : Type} {k : ℕ} {pos : ℤ} (current : α) (small : k < 65535)
    (fuel n : ℕ) (src dst : List α) (past : pos < n) (rest : src.length + n = k + 1)
    (enough : src.length < fuel) :
    copyLoop k pos current fuel (UInt16.ofNat n) src dst = .ok (dst ++ src) := by
  induction src generalizing fuel n dst with
  | nil =>
      rcases fuel with _ | fuel
      · simp at enough
      · simp only [List.length_nil] at rest
        have value : (UInt16.ofNat n).toNat = n := toNat_ofNat_counter (by omega)
        have done : ¬((n : ℤ) < (k : ℤ) + 1) := by omega
        simp only [copyLoop, value, if_neg done, List.append_nil]
  | cons x src ih =>
      rcases fuel with _ | fuel
      · simp at enough
      · simp only [List.length_cons] at rest enough
        have value : (UInt16.ofNat n).toNat = n := toNat_ofNat_counter (by omega)
        have running : (n : ℤ) < (k : ℤ) + 1 := by omega
        have other : (n : ℤ) ≠ pos := by omega
        simp only [copyLoop, value, if_pos running, if_pos other, counter_succ]
        rw [ih fuel (n + 1) (dst ++ [x]) (by omega) (by omega) (by omega)]
        simp

/-- Up to the insertion point the loop copies, then it writes the new entry. -/
theorem copyLoop_before {α : Type} {k i : ℕ} (current : α) (small : k < 65535)
    (fuel n : ℕ) (src dst : List α) (reached : n ≤ i) (inside : i ≤ k)
    (rest : src.length + n = k) (enough : src.length + 1 < fuel) :
    copyLoop k i current fuel (UInt16.ofNat n) src dst =
      .ok (dst ++ src.insertIdx (i - n) current) := by
  induction src generalizing fuel n dst with
  | nil =>
      rcases fuel with _ | fuel
      · simp at enough
      · simp only [List.length_nil] at rest enough
        have value : (UInt16.ofNat n).toNat = n := toNat_ofNat_counter (by omega)
        have running : (n : ℤ) < (k : ℤ) + 1 := by omega
        have here : ¬((n : ℤ) ≠ i) := by omega
        have start : i - n = 0 := by omega
        simp only [copyLoop, value, if_pos running, if_neg here, counter_succ]
        rw [copyLoop_after current small fuel (n + 1) [] (dst ++ [current]) (by omega)
          (by simp; omega) (by simp; omega), start]
        simp
  | cons x src ih =>
      rcases fuel with _ | fuel
      · simp at enough
      · simp only [List.length_cons] at rest enough
        have value : (UInt16.ofNat n).toNat = n := toNat_ofNat_counter (by omega)
        have running : (n : ℤ) < (k : ℤ) + 1 := by omega
        by_cases here : i = n
        · have stop : ¬((n : ℤ) ≠ i) := by omega
          have start : i - n = 0 := by omega
          simp only [copyLoop, value, if_pos running, if_neg stop, counter_succ]
          rw [copyLoop_after current small fuel (n + 1) (x :: src) (dst ++ [current]) (by omega)
            (by simp; omega) (by simp; omega), start]
          simp
        · have other : (n : ℤ) ≠ i := by omega
          have shift : i - n = i - (n + 1) + 1 := by omega
          simp only [copyLoop, value, if_pos running, if_pos other, counter_succ]
          rw [ih fuel (n + 1) (dst ++ [x]) (by omega) (by omega) (by omega), shift,
            List.insertIdx_succ_cons]
          simp

/-- Where an entry with the requested position ends up in a list of length `n`. -/
def insertPos (pos : ℤ) (n : ℕ) : ℕ :=
  if pos < 0 ∨ pos > n then n else pos.toNat

theorem insertPos_le (pos : ℤ) (n : ℕ) : insertPos pos n ≤ n := by
  unfold insertPos
  split <;> omega

/-- The source's own test for a position out of range. -/
theorem insertPos_cast (pos : ℤ) (n : ℕ) :
    (if pos < 0 ∨ pos > (n : ℤ) then (n : ℤ) else pos) = (insertPos pos n : ℤ) := by
  unfold insertPos
  split <;> omega

theorem insertPos_nat (k n : ℕ) : insertPos k n = min k n := by
  unfold insertPos
  split <;> omega

/-- The array copies insert one entry, unless the array is full. -/
theorem childsWith_eq {α : Type} (list : List α) (current : α) (pos : ℤ)
    (short : list.length ≤ 65535) :
    childsWith list.length list current pos =
      if list.length = 65535 then .error .childOverflow
      else .ok (list.insertIdx (insertPos pos list.length) current) := by
  unfold childsWith
  by_cases empty : list = []
  · have start : insertPos pos 0 = 0 := Nat.le_zero.mp (insertPos_le pos 0)
    simp [empty, start]
  · have nonempty : ¬((list.length : ℤ) = 0) := by simpa using empty
    rw [if_neg nonempty]
    by_cases full : list.length = 65535
    · rw [if_pos full, full]
      exact copyLoop_full _ _ _ _ _ _
    · rw [if_neg full]
      rw [insertPos_cast]
      have small : list.length < 65535 := by omega
      exact copyLoop_before current small (2 ^ 16 + 1) 0 list [] (Nat.zero_le _)
        (insertPos_le pos list.length) (by omega) (by omega)

/-! ## Shapes -/

/-- Child lists and parent pointers describe one forest on the allocated branches. -/
structure Tree.Shape (t : Tree) : Prop where
  mirrors : Mirrors t.children t.parent
  childN_eq : ∀ p, (t.mem p).childN.toNat = (t.children p).length
  acyclic : Acyclic t.parent
  supported : Supported t.parent (Finset.range t.next)

/-- The links that make the shape of a tree are the same. -/
def SameLinks (t t' : Tree) : Prop :=
  t'.next = t.next ∧ ∀ x, t'.parent x = t.parent x ∧ t'.children x = t.children x ∧
    (t'.mem x).childN = (t.mem x).childN

theorem SameLinks.refl (t : Tree) : SameLinks t t :=
  ⟨rfl, fun _ => ⟨rfl, rfl, rfl⟩⟩

theorem SameLinks.trans {t t' t'' : Tree} (first : SameLinks t t') (second : SameLinks t' t'') :
    SameLinks t t'' := by
  refine ⟨second.1.trans first.1, fun x => ?_⟩
  obtain ⟨parents, lists, counts⟩ := first.2 x
  obtain ⟨parents', lists', counts'⟩ := second.2 x
  exact ⟨parents'.trans parents, lists'.trans lists, counts'.trans counts⟩

/-- Only links make a shape. -/
theorem SameLinks.shape {t t' : Tree} (same : SameLinks t t') (shape : t.Shape) : t'.Shape := by
  have parents : t'.parent = t.parent := funext fun x => (same.2 x).1
  have lists : t'.children = t.children := funext fun x => (same.2 x).2.1
  constructor
  · rw [parents, lists]
    exact shape.mirrors
  · intro q
    rw [(same.2 q).2.2, lists]
    exact shape.childN_eq q
  · rw [parents]
    exact shape.acyclic
  · rw [parents, same.1]
    exact shape.supported

namespace Tree

@[simp]
theorem modify_mem (t : Tree) (b x : BranchPtr) (f : Branch → Branch) :
    (t.modify b f).mem x = if x = b then f (t.mem x) else t.mem x := by
  by_cases same : x = b
  · subst same
    simp [modify]
  · simp [modify, same]

theorem foldl_modify (t : Tree) (f : Branch → Branch) {list : List BranchPtr}
    (nodup : list.Nodup) :
    list.foldl (fun t a => t.modify a f) t =
      { t with mem := fun x => if x ∈ list then f (t.mem x) else t.mem x } := by
  induction list generalizing t with
  | nil => simp
  | cons a list ih =>
      rcases List.nodup_cons.mp nodup with ⟨notMem, nodup⟩
      rw [List.foldl_cons, ih (t.modify a f) nodup]
      ext1 <;> try rfl
      funext x
      by_cases same : x = a
      · subst same
        simp [notMem]
      · simp [same]

namespace Shape

variable {t : Tree} (shape : t.Shape)

include shape

theorem mem_chain {b x : BranchPtr} : x ∈ t.chain b ↔ Anc t.parent b x :=
  Forest.mem_chain shape.acyclic shape.supported (by simp)

theorem chain_of_parent {b p : BranchPtr} (step : t.parent b = some p) :
    t.chain b = b :: t.chain p :=
  Forest.chain_of_parent shape.acyclic shape.supported (by simp) step

theorem mem_ancestors {b x : BranchPtr} : x ∈ t.ancestors b ↔ StrictAnc t.parent b x :=
  Forest.mem_ancestors shape.acyclic shape.supported (by simp)

theorem ancestors_nodup (b : BranchPtr) : (t.ancestors b).Nodup :=
  (List.nodup_cons.mp (shape.acyclic.chain_nodup t.next b)).2

theorem childN_eq_zero_iff (p : BranchPtr) : (t.mem p).childN = 0 ↔ t.children p = [] := by
  rw [← UInt16.toNat_inj, shape.childN_eq p, ← List.length_eq_zero_iff]
  rfl

theorem children_length_le (p : BranchPtr) : (t.children p).length ≤ 65535 := by
  have bound := (t.mem p).childN.toNat_lt
  rw [shape.childN_eq p] at bound
  omega

theorem take_children (p : BranchPtr) :
    (t.mem p).childList.take (t.mem p).childN.toNat = t.children p := by
  rw [shape.childN_eq p]
  exact List.take_length

theorem branchIncrease_eq (b : BranchPtr) (n : Int32) :
    branchIncrease t b n =
      { t with
        mem := fun x =>
          if x ∈ t.ancestors b then
            { t.mem x with totalBranchN := (t.mem x).totalBranchN + n.toUInt32 }
          else t.mem x } :=
  t.foldl_modify _ (shape.ancestors_nodup b)

end Shape

/-- The tree with `c` as the child of `p` at position `i`. -/
def link (t : Tree) (c p : BranchPtr) (i : ℕ) : Tree :=
  { t with
    mem := fun x =>
      { t.mem x with
        parent := if x = c then some p else (t.mem x).parent
        childList := if x = p then (t.mem x).childList.insertIdx i c else (t.mem x).childList
        childN := if x = p then (t.mem x).childN + 1 else (t.mem x).childN
        totalBranchN :=
          if x ∈ t.chain p then (t.mem x).totalBranchN + ((t.mem c).totalBranchN + 1)
          else (t.mem x).totalBranchN } }

/-- The tree with `c` cut from its parent `p`. -/
def unlink (t : Tree) (c p : BranchPtr) : Tree :=
  { t with
    mem := fun x =>
      { t.mem x with
        parent := if x = c then none else (t.mem x).parent
        childList := if x = p then (t.mem x).childList.erase c else (t.mem x).childList
        childN := if x = p then (t.mem x).childN - 1 else (t.mem x).childN
        totalBranchN :=
          if x ∈ t.chain p then (t.mem x).totalBranchN + (-(t.mem c).totalBranchN - 1)
          else (t.mem x).totalBranchN } }

end Tree

/-- What a branch must satisfy to be hung below `p`. -/
structure Tree.CanLink (t : Tree) (c p : BranchPtr) : Prop where
  free : t.parent c = none
  apart : ¬Anc t.parent p c
  child_lt : c < t.next
  parent_lt : p < t.next

namespace Tree.Shape

variable {t : Tree} {b c p : BranchPtr} {i : ℕ}

theorem link_parent (t : Tree) (c p : BranchPtr) (i : ℕ) (x : BranchPtr) :
    (t.link c p i).parent x = if x = c then some p else t.parent x :=
  rfl

theorem link_children (t : Tree) (c p : BranchPtr) (i : ℕ) (x : BranchPtr) :
    (t.link c p i).children x =
      if x = p then (t.children x).insertIdx i c else t.children x :=
  rfl

theorem link_acyclic (shape : t.Shape) (can : t.CanLink c p) : Acyclic (t.link c p i).parent :=
  acyclic_link shape.acyclic (by simp [link_parent])
    (fun x ne => by simp [link_parent, ne]) can.apart

theorem link_anc (can : t.CanLink c p) {x a : BranchPtr} :
    Anc (t.link c p i).parent x a ↔ Anc t.parent x a ∨ Anc t.parent x c ∧ Anc t.parent p a :=
  anc_link can.free (by simp [link_parent]) fun x ne => by simp [link_parent, ne]

theorem link_supported (shape : t.Shape) (can : t.CanLink c p) :
    Supported (t.link c p i).parent (Finset.range t.next) := by
  intro x q step
  by_cases same : x = c
  · subst same
    simp only [link_parent, if_true, Option.some.injEq] at step
    subst step
    exact ⟨Finset.mem_range.mpr can.child_lt, Finset.mem_range.mpr can.parent_lt⟩
  · rw [link_parent, if_neg same] at step
    exact shape.supported x q step

theorem link (shape : t.Shape) (can : t.CanLink c p) (room : (t.children p).length < 65535)
    (inside : i ≤ (t.children p).length) : (t.link c p i).Shape where
  mirrors := by
    have unlisted : ∀ q, c ∉ t.children q := by
      intro q member
      have pointed := shape.mirrors.mem_iff.mp member
      simp [can.free] at pointed
    constructor
    · intro x q
      rw [link_parent, link_children]
      by_cases sameQ : q = p
      · subst sameQ
        rw [if_pos rfl, List.mem_insertIdx inside]
        by_cases sameX : x = c
        · simp [sameX]
        · simp [sameX, shape.mirrors.mem_iff]
      · rw [if_neg sameQ]
        by_cases sameX : x = c
        · subst sameX
          simp [unlisted q, Ne.symm sameQ]
        · simp [sameX, shape.mirrors.mem_iff]
    · intro q
      rw [link_children]
      by_cases sameQ : q = p
      · subst sameQ
        rw [if_pos rfl]
        exact (List.perm_insertIdx c (t.children q) inside).nodup_iff.mpr
          (List.nodup_cons.mpr ⟨unlisted q, shape.mirrors.nodup q⟩)
      · rw [if_neg sameQ]
        exact shape.mirrors.nodup q
  childN_eq := by
    intro q
    have old := shape.childN_eq q
    rw [link_children]
    by_cases sameQ : q = p
    · subst sameQ
      simp only [Tree.link, if_true]
      rw [List.length_insertIdx_of_le_length inside, UInt16.toNat_add, old]
      simp only [UInt16.toNat_one]
      omega
    · simpa [Tree.link, sameQ] using old
  acyclic := shape.link_acyclic can
  supported := shape.link_supported can

/-- The tree after `branch_add` set the pointers and before it raised the counters. -/
def joined (t : Tree) (c p : BranchPtr) (i : ℕ) : Tree :=
  (t.modify c fun b => { b with parent := some p }).modify p fun b =>
    { b with childList := (t.children p).insertIdx i c, childN := b.childN + 1 }

theorem joined_mem (ne : p ≠ c) (x : BranchPtr) :
    (joined t c p i).mem x =
      { (t.link c p i).mem x with totalBranchN := (t.mem x).totalBranchN } := by
  by_cases isP : x = p
  · subst isP
    simp [joined, Tree.link, ne, children]
  · by_cases isC : x = c
    · subst isC
      simp [joined, Tree.link, isP]
    · simp [joined, Tree.link, isP, isC]

theorem joined_parent (ne : p ≠ c) : (joined t c p i).parent = (t.link c p i).parent := by
  funext x
  simp only [parent, joined_mem ne x]

theorem joined_shape (ne : p ≠ c) (after : (t.link c p i).Shape) : (joined t c p i).Shape := by
  have same : SameLinks (t.link c p i) (joined t c p i) := by
    refine ⟨rfl, fun x => ⟨congrFun (joined_parent ne) x, ?_, ?_⟩⟩
    · simp only [children, joined_mem ne x]
    · simp only [joined_mem ne x]
  exact same.shape after

/-- The counters that `branch_add` raises are those of the new parent and its ancestors. -/
theorem branchIncrease_joined (shape : t.Shape) (can : t.CanLink c p)
    (after : (t.link c p i).Shape) :
    branchIncrease (joined t c p i) c (((joined t c p i).mem c).totalBranchN + 1).toInt32 =
      t.link c p i := by
  have ne : p ≠ c := by
    rintro rfl
    exact can.apart (anc_refl _ _)
  have climbed : ∀ x, x ∈ (joined t c p i).ancestors c ↔ x ∈ t.chain p := by
    intro x
    have step : (joined t c p i).parent c = some p := by
      simp [joined_parent ne, link_parent]
    rw [(joined_shape ne after).mem_ancestors, strictAnc_iff_of_parent step, joined_parent ne,
      link_anc can, shape.mem_chain]
    simp [can.apart]
  have total : ((joined t c p i).mem c).totalBranchN = (t.mem c).totalBranchN := by
    rw [joined_mem ne c]
  rw [(joined_shape ne after).branchIncrease_eq, total, UInt32.toUInt32_toInt32]
  ext1 <;> try rfl
  funext x
  simp only [joined_mem ne x]
  by_cases onChain : x ∈ t.chain p
  · simp [(climbed x).mpr onChain, Tree.link, onChain]
  · simp [mt (climbed x).mp onChain, Tree.link, onChain]

theorem branchAdd_eq (shape : t.Shape) (can : t.CanLink c p) (pos : ℤ) :
    branchAdd t c p pos =
      if (t.children p).length = 65535 then .error .childOverflow
      else .ok (t.link c p (insertPos pos (t.children p).length)) := by
  have ne : p ≠ c := by
    rintro rfl
    exact can.apart (anc_refl _ _)
  have copied := childsWith_eq (t.children p) c pos (shape.children_length_le p)
  rw [← shape.childN_eq p] at copied
  have untouched : (t.modify c fun b => { b with parent := some p }).mem p = t.mem p := by
    simp [ne]
  simp only [branchAdd, untouched]
  rw [show (t.mem p).childList = t.children p from rfl, copied, shape.childN_eq p]
  by_cases full : (t.children p).length = 65535
  · simp [full, bind, Except.bind]
  · have room : (t.children p).length < 65535 := by
      have := shape.children_length_le p
      omega
    have after := shape.link can room (insertPos_le pos (t.children p).length)
    simp only [if_neg full]
    exact congrArg Except.ok (branchIncrease_joined shape can after)

theorem unlink_parent (t : Tree) (c p x : BranchPtr) :
    (t.unlink c p).parent x = if x = c then none else t.parent x :=
  rfl

theorem unlink_children (t : Tree) (c p x : BranchPtr) :
    (t.unlink c p).children x = if x = p then (t.children x).erase c else t.children x :=
  rfl

theorem unlink_anc (shape : t.Shape) {x a : BranchPtr} :
    Anc (t.unlink c p).parent x a ↔
      Anc t.parent x a ∧ (Anc t.parent x c → Anc t.parent a c) :=
  anc_unlink shape.acyclic (by simp [unlink_parent]) fun x ne => by simp [unlink_parent, ne]

theorem unlink (shape : t.Shape) (step : t.parent c = some p) : (t.unlink c p).Shape where
  mirrors := by
    constructor
    · intro x q
      rw [unlink_parent, unlink_children]
      by_cases sameQ : q = p
      · subst sameQ
        rw [if_pos rfl, (shape.mirrors.nodup q).mem_erase_iff, shape.mirrors.mem_iff]
        by_cases sameX : x = c
        · simp [sameX]
        · simp [sameX]
      · rw [if_neg sameQ, shape.mirrors.mem_iff]
        by_cases sameX : x = c
        · subst sameX
          simp [step, Ne.symm sameQ]
        · simp [sameX]
    · intro q
      rw [unlink_children]
      by_cases sameQ : q = p
      · rw [if_pos sameQ]
        exact (shape.mirrors.nodup q).erase c
      · rw [if_neg sameQ]
        exact shape.mirrors.nodup q
  childN_eq := by
    intro q
    have old := shape.childN_eq q
    rw [unlink_children]
    by_cases sameQ : q = p
    · subst sameQ
      have listed : c ∈ t.children q := shape.mirrors.mem_iff.mpr step
      have positive := List.length_pos_of_mem listed
      have one : (1 : UInt16) ≤ (t.mem q).childN := by
        rw [UInt16.le_iff_toNat_le, old]
        exact positive
      simp only [Tree.unlink, if_true]
      rw [List.length_erase_of_mem listed, UInt16.toNat_sub_of_le _ _ one, old]
      simp
    · simpa [Tree.unlink, sameQ] using old
  acyclic := by
    apply acyclic_unlink (c := c) shape.acyclic
    · simp [unlink_parent]
    · intro x ne
      simp [unlink_parent, ne]
  supported := by
    intro x q pointed
    by_cases same : x = c
    · simp [unlink_parent, same] at pointed
    · rw [unlink_parent, if_neg same] at pointed
      exact shape.supported x q pointed

theorem branchDetach_eq (shape : t.Shape) (step : t.parent c = some p) :
    branchDetach t c = t.unlink c p := by
  have ne : p ≠ c := shape.acyclic.parent_ne step
  have climbed : ∀ x, x ∈ t.ancestors c ↔ x ∈ t.chain p := by
    intro x
    rw [shape.mem_ancestors, strictAnc_iff_of_parent step, shape.mem_chain]
  have taken : ((t.mem p).childList.take (t.mem p).childN.toNat).filter (fun x => x ≠ c) =
      (t.mem p).childList.erase c := by
    rw [shape.take_children p, show (t.mem p).childList = t.children p from rfl,
      (shape.mirrors.nodup p).erase_eq_filter c]
    apply List.filter_congr
    intro x _
    simp [bne, beq_eq_decide]
  simp only [branchDetach, show (t.mem c).parent = some p from step, shape.branchIncrease_eq,
    UInt32.toUInt32_toInt32]
  ext1 <;> try rfl
  funext x
  simp only [modify_mem, climbed]
  by_cases isC : x = c
  · subst isC
    have off : x ∉ t.chain p := by
      rw [shape.mem_chain]
      exact fun anc => shape.acyclic.strict_irrefl x
        ((strictAnc_iff_of_parent step).mpr anc)
    simp [Tree.unlink, Ne.symm ne, off]
  · by_cases isP : x = p
    · subst isP
      have onChain : x ∈ t.chain x := by simp [shape.mem_chain]
      simp only [ne_eq, decide_not] at taken
      simp [Tree.unlink, isC, onChain, taken]
    · by_cases onChain : x ∈ t.chain p
      · simp [Tree.unlink, isC, isP, onChain]
      · simp [Tree.unlink, isC, isP, onChain]

end Tree.Shape

end Treedb
