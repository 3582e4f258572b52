import Treedb.Tree.Edit

/-!
# Calls and runs

A call is one invocation of an operation of `map.c`. The view that makes the call is named by its
id and looked up in the index of views, as `map_proc` does; operations on a view are not called
when there is none. A run is a sequence of calls.

Whatever it does to the views, a call changes the tree by allowed edits only. Two conditions on a
call are tracked along: that a deleted branch has no second child, and that no branch is inserted
under the id 0.
-/

namespace Treedb

open Forest Outcome Treedb.Tree

/-- An invocation of an operation with its arguments. -/
inductive Call
  | insert (viewId : UInt32) (parentBranchId branchId : UInt64) (branchPos : UInt32)
      (branchText : CString) (branchMarkId branchDocumentId : UInt64)
  | insertInPath (parentId : UInt64) (names : List CString) (branchId : UInt64)
      (branchText : CString) (branchMarkId branchDocumentId : UInt64)
  | move (viewId : UInt32) (newParentId oldParentId branchId : UInt64) (branchPos : UInt16)
  | moveToPath (parentId : UInt64) (names : List CString) (branchId : UInt64)
  | delete (viewId : UInt32) (branchId : UInt64)
  | update (viewId : UInt32) (branchId : UInt64) (branchText : Option CString)
      (branchDocumentId : UInt64)
  | initView (viewId : UInt32) (reqId branchId : UInt64) (query : CString) (docId : UInt64)
      (endpointIds rows : List UInt64)
  | destroyView (viewId : UInt32)
  | visible (viewId : UInt32) (branchIds : List UInt64)
  | invisible (viewId : UInt32) (branchIds : List UInt64)
  | expandTo (viewId : UInt32) (branchId : UInt64)
  | branchUnfold (viewId : UInt32) (branchId : UInt64)

namespace Map

/-- Run an operation on a view, if there is one with this id. -/
def onView (m : Map) (viewId : UInt32) (f : ViewPtr → Except Fault Map) : Except Fault Map :=
  match viewIndexGet m.overlay viewId with
  | none => .ok m
  | some view => f view

/-- One call; a view that is not there is passed as none, or not called. -/
def call (m : Map) : Call → Except Fault Map
  | .insert viewId parentBranchId branchId branchPos branchText branchMarkId branchDocumentId =>
      (insert m (viewIndexGet m.overlay viewId) parentBranchId branchId branchPos branchText
        branchMarkId branchDocumentId).map Prod.fst
  | .insertInPath parentId names branchId branchText branchMarkId branchDocumentId =>
      (insertInPath m parentId names branchId branchText branchMarkId branchDocumentId).map Prod.fst
  | .move viewId newParentId oldParentId branchId branchPos =>
      (move m (viewIndexGet m.overlay viewId) newParentId oldParentId branchId branchPos).map
        Prod.fst
  | .moveToPath parentId names branchId => moveToPath m parentId names branchId
  | .delete viewId branchId => delete m (viewIndexGet m.overlay viewId) branchId
  | .update viewId branchId branchText branchDocumentId =>
      .ok (update m (viewIndexGet m.overlay viewId) branchId branchText branchDocumentId)
  | .initView viewId reqId branchId query docId endpointIds rows =>
      mapInitView m viewId reqId branchId query docId endpointIds rows
  | .destroyView viewId => m.onView viewId fun view => .ok (mapDestroyView m view)
  | .visible viewId branchIds => m.onView viewId fun view => .ok (mapVisible m view branchIds)
  | .invisible viewId branchIds => m.onView viewId fun view => .ok (mapInvisible m view branchIds)
  | .expandTo viewId branchId => m.onView viewId fun view => mapExpandTo m view branchId
  | .branchUnfold viewId branchId => m.onView viewId fun view => .ok (mapBranchUnfold m view branchId)

/-- A run of calls, up to the first fault. -/
def run (m : Map) (calls : List Call) : Except Fault Map :=
  calls.foldlM call m

/-- Every call of a run satisfies `P` in the state in which it is made. -/
def Along (P : Map → Call → Prop) (m : Map) (calls : List Call) : Prop :=
  Outcome.Along call P m calls

instance {P : Map → Call → Prop} [∀ m call, Decidable (P m call)] (m : Map) (calls : List Call) :
    Decidable (m.Along P calls) :=
  inferInstanceAs (Decidable (Outcome.Along call P m calls))

end Map

/-! ## Insert -/

section Insert

variable {m m' : Map} {view : Option ViewPtr} {parentId branchId : UInt64} {pos : UInt32}
  {text : CString} {mark doc : UInt64} {r : Option BranchPtr}

/-- `insert` accepts an unused id below a known parent. -/
def Tree.Accepts (t : Tree) (parentId branchId : UInt64) : Prop :=
  t.branchIndex branchId = none ∧ ∃ pb, t.branchIndex parentId = some pb

/-- The stages of an insert that is accepted: expand, add the branch, show it, count it. -/
structure InsertStages (m m' : Map) (view : Option ViewPtr) (parentId branchId : UInt64)
    (pos : UInt32) (text : CString) (mark doc : UInt64) (pb : BranchPtr) (o₁ o₂ : Overlay) :
    Prop where
  known : m.tree.branchIndex parentId = some pb
  unused : m.tree.branchIndex branchId = none
  allowed : (Edit.grow pb (m.tree.newBranch branchId text mark doc)
    (insertPos pos.toInt32.toInt (m.tree.children pb).length)).Allowed m.tree
  tree : m'.tree = (Edit.grow pb (m.tree.newBranch branchId text mark doc)
    (insertPos pos.toInt32.toInt (m.tree.children pb).length)).apply m.tree
  expanded : insertExpand m.tree m.overlay view pb pos = .ok o₁
  shown : (o₁.vbranchList pb).foldlM (insertVbranch m'.tree view parentId m.tree.next pos) o₁ =
    .ok o₂
  counted : (o₂.vbranchList m'.tree.branch).foldlM (insertCount m'.tree view pb) o₂ = .ok m'.overlay

/-- An insert either changes nothing or goes through its stages. -/
theorem insert_stages (wf : m.tree.WellFormed)
    (run : insert m view parentId branchId pos text mark doc = .ok (m', r)) :
    (m' = m ∧ r = none ∧ ¬m.tree.Accepts parentId branchId) ∨
      r = some m.tree.next ∧
        ∃ pb o₁ o₂, InsertStages m m' view parentId branchId pos text mark doc pb o₁ o₂ := by
  unfold insert at run
  simp only [branchIndexGet] at run
  cases used : m.tree.branchIndex branchId with
  | some nb =>
      left
      simp only [used, Except.ok.injEq, Prod.mk.injEq] at run
      refine ⟨run.1.symm, run.2.symm, ?_⟩
      rintro ⟨unused, _⟩
      simp [used] at unused
  | none =>
      cases known : m.tree.branchIndex parentId with
      | none =>
          left
          simp only [used, known, Except.ok.injEq, Prod.mk.injEq] at run
          refine ⟨run.1.symm, run.2.symm, ?_⟩
          rintro ⟨_, pb, found⟩
          simp [known] at found
      | some pb =>
          right
          simp only [used, known] at run
          rcases bind_eq_ok.mp run with ⟨o₁, expanded, run⟩
          rcases bind_eq_ok.mp run with ⟨new, added, run⟩
          rcases bind_eq_ok.mp run with ⟨o₂, shown, run⟩
          rcases bind_eq_ok.mp run with ⟨o₃, counted, run⟩
          have indexed : m.tree.Indexed pb := ⟨parentId, known⟩
          rw [wf.insertBranch_eq indexed] at added
          by_cases full : (m.tree.children pb).length = 65535
          · simp [full] at added
          · rw [if_neg full, Except.ok.injEq] at added
            subst added
            simp only [pure_eq_ok, Except.ok.injEq, Prod.mk.injEq] at run
            rcases run with ⟨rfl, rfl⟩
            have short := wf.children_length_le pb
            exact ⟨rfl, pb, o₁, o₂, known, used, ⟨m.tree.newBranch_fresh _ _ _ _, rfl, indexed, used,
              by omega, insertPos_le _ _⟩, rfl, expanded, shown, counted⟩

/-- An insert either changes nothing or adds one leaf. -/
theorem insert_cases (wf : m.tree.WellFormed)
    (run : insert m view parentId branchId pos text mark doc = .ok (m', r)) :
    (m' = m ∧ r = none ∧ ¬m.tree.Accepts parentId branchId) ∨
      ∃ pb, m.tree.branchIndex parentId = some pb ∧ m.tree.branchIndex branchId = none ∧
        (Edit.grow pb (m.tree.newBranch branchId text mark doc)
          (insertPos pos.toInt32.toInt (m.tree.children pb).length)).Allowed m.tree ∧
        m'.tree = (Edit.grow pb (m.tree.newBranch branchId text mark doc)
          (insertPos pos.toInt32.toInt (m.tree.children pb).length)).apply m.tree ∧
        r = some m.tree.next := by
  rcases insert_stages wf run with refused | ⟨done, pb, o₁, o₂, stages⟩
  · exact .inl refused
  · exact .inr ⟨pb, stages.known, stages.unused, stages.allowed, stages.tree, done⟩

end Insert

/-! ## Move -/

section Move

variable {m m' : Map} {t : Tree} {view : Option ViewPtr} {newParentId oldParentId branchId : UInt64}
  {pos : UInt16} {b opb npb : BranchPtr} {accepted : Bool}

/-- When `move` goes ahead. -/
theorem moveCheck_accept (wf : t.WellFormed) :
    moveCheck t newParentId oldParentId branchId = .accept b opb npb ↔
      t.branchIndex branchId = some b ∧ t.parent b = some opb ∧
        t.branchIndex newParentId = some npb ∧ (t.mem opb).id = oldParentId ∧
        ¬Anc t.parent npb b := by
  unfold moveCheck
  simp only [branchIndexGet]
  constructor
  · intro accept
    split at accept
    · simp at accept
    · rename_i b' found
      split at accept
      · simp at accept
      · rename_i opb' step
        split at accept
        · simp at accept
        · rename_i npb' target
          split at accept
          · simp at accept
          · rename_i checks
            simp only [MoveCheck.accept.injEq] at accept
            rcases accept with ⟨rfl, rfl, rfl⟩
            rw [not_or, ne_eq, not_not, wf.mem_chain] at checks
            exact ⟨found, step, target, checks.1, checks.2⟩
  · rintro ⟨found, step, target, same, apart⟩
    have step' : (t.mem b).parent = some opb := step
    have checks : ¬((t.mem opb).id ≠ oldParentId ∨ b ∈ t.chain npb) := by
      rw [not_or, ne_eq, not_not, wf.mem_chain]
      exact ⟨same, apart⟩
    simp only [found, step', target, if_neg checks]

theorem move_of_not_accept
    (refused : ∀ b opb npb, moveCheck m.tree newParentId oldParentId branchId ≠ .accept b opb npb)
    (run : move m view newParentId oldParentId branchId pos = .ok (m', accepted)) :
    m'.tree = m.tree ∧ accepted = false := by
  unfold move at run
  split at run
  · simp only [Except.ok.injEq, Prod.mk.injEq] at run
    exact ⟨by rw [← run.1], run.2.symm⟩
  · split at run
    · simp only [Except.ok.injEq, Prod.mk.injEq] at run
      exact ⟨by rw [← run.1], run.2.symm⟩
    · simp only [Except.ok.injEq, Prod.mk.injEq] at run
      exact ⟨by rw [← run.1], run.2.symm⟩
  · rename_i accept
    exact absurd accept (refused _ _ _)

/-- When `move` answers with the parent that the branch has. -/
theorem moveCheck_retry (wf : t.WellFormed) :
    moveCheck t newParentId oldParentId branchId = .retry b opb ↔
      t.branchIndex branchId = some b ∧ t.parent b = some opb ∧
        ∃ npb, t.branchIndex newParentId = some npb ∧
          ((t.mem opb).id ≠ oldParentId ∨ Anc t.parent npb b) := by
  unfold moveCheck
  simp only [branchIndexGet, ← wf.mem_chain]
  constructor
  · intro retry
    split at retry
    · simp at retry
    · rename_i b' found
      split at retry
      · simp at retry
      · rename_i opb' step
        split at retry
        · simp at retry
        · rename_i npb' target
          split at retry
          · rename_i checks
            simp only [MoveCheck.retry.injEq] at retry
            rcases retry with ⟨rfl, rfl⟩
            exact ⟨found, step, npb', target, checks⟩
          · simp at retry
  · rintro ⟨found, step, npb, target, checks⟩
    simp only [found, show (t.mem b).parent = some opb from step, target, if_pos checks]

/-- An accepted move runs its loop over the views and makes one edit. -/
theorem move_stages (wf : m.tree.WellFormed)
    (accept : moveCheck m.tree newParentId oldParentId branchId = .accept b opb npb)
    (run : move m view newParentId oldParentId branchId pos = .ok (m', accepted)) :
    (Edit.rehome b opb npb
      (insertPos pos.toNat ((m.tree.unlink b opb).children npb).length)).Allowed m.tree ∧
      m'.tree = (Edit.rehome b opb npb
        (insertPos pos.toNat ((m.tree.unlink b opb).children npb).length)).apply m.tree ∧
      (m.overlay.vbranchList m.tree.branch).foldlM
        (moveInView m.tree view b opb npb newParentId pos) m.overlay = .ok m'.overlay ∧
      accepted = true := by
  rcases (moveCheck_accept wf).mp accept with ⟨_, step, target, _, apart⟩
  have indexed : m.tree.Indexed npb := ⟨_, target⟩
  unfold move at run
  simp only [accept] at run
  rcases bind_eq_ok.mp run with ⟨o, looped, run⟩
  rcases bind_eq_ok.mp run with ⟨t, moved, run⟩
  rw [wf.moveBranch_eq step indexed apart] at moved
  by_cases full : ((m.tree.unlink b opb).children npb).length = 65535
  · simp [full] at moved
  · rw [if_neg full, Except.ok.injEq] at moved
    simp only [pure_eq_ok, Except.ok.injEq, Prod.mk.injEq] at run
    rcases run with ⟨rfl, rfl⟩
    have short := (wf.toShape.unlink step).children_length_le npb
    exact ⟨⟨step, indexed, apart, by omega, insertPos_le _ _⟩, moved.symm, looped, rfl⟩

/-- An accepted move changes the place of one branch. -/
theorem move_of_accept (wf : m.tree.WellFormed)
    (accept : moveCheck m.tree newParentId oldParentId branchId = .accept b opb npb)
    (run : move m view newParentId oldParentId branchId pos = .ok (m', accepted)) :
    (Edit.rehome b opb npb
      (insertPos pos.toNat ((m.tree.unlink b opb).children npb).length)).Allowed m.tree ∧
      m'.tree = (Edit.rehome b opb npb
        (insertPos pos.toNat ((m.tree.unlink b opb).children npb).length)).apply m.tree ∧
      accepted = true := by
  rcases move_stages wf accept run with ⟨allowed, after, _, done⟩
  exact ⟨allowed, after, done⟩

end Move

/-! ## Conditions on edits and calls -/

/--
A branch is forgotten only when it has no children, and added only under a nonzero id; each part
is asked for only if its flag holds.
-/
def Tree.Edit.Tame (leaf nonzero : Prop) (t : Tree) : Edit → Prop
  | .grow _ new _ => nonzero → new.id ≠ 0
  | .forget b _ => leaf → t.children b = []
  | _ => True

theorem Tree.Edit.Tame.mono {leaf nonzero leaf' nonzero' : Prop} {t : Tree} {e : Edit}
    (leafs : leaf' → leaf) (nonzeros : nonzero' → nonzero) (tame : e.Tame leaf nonzero t) :
    e.Tame leaf' nonzero' t := by
  cases e with
  | grow pb new i => exact fun asked => tame (nonzeros asked)
  | rehome b opb npb i => trivial
  | forget b p => exact fun asked => tame (leafs asked)
  | relabel b text noteId => trivial

/-- A delete names a branch with at most one child, or one without a parent, which stays. -/
def Call.DeletesFew (t : Tree) : Call → Prop
  | .delete _ branchId => ∀ b, t.branchIndex branchId = some b →
      t.parent b ≠ none → (t.children b).length ≤ 1
  | _ => True

instance (t : Tree) (call : Call) : Decidable (call.DeletesFew t) :=
  match call with
  | .delete _ branchId =>
      match found : t.branchIndex branchId with
      | none => isTrue (by simp [Call.DeletesFew, found])
      | some b => decidable_of_iff (t.parent b ≠ none → (t.children b).length ≤ 1) (by
          simp [Call.DeletesFew, found])
  | .insert .. | .insertInPath .. | .move .. | .moveToPath .. | .update .. | .initView ..
  | .destroyView .. | .visible .. | .invisible .. | .expandTo .. | .branchUnfold .. =>
      isTrue trivial

/-- The branch at which a path starts: the root for the id 0. -/
def Tree.pathStart (t : Tree) (parentId : UInt64) : Option BranchPtr :=
  if parentId ≠ 0 then branchIndexGet t parentId else some t.branch

/-- The tree when `n` more branches were counted. -/
def Tree.numberedFrom (t : Tree) (n : ℕ) : Tree :=
  { t with branchN := t.branchN + UInt32.ofNat n }

/--
The path can be made up to its end: each id that `insert_path` generates for a missing branch is
unused.
-/
def Tree.OpensPath (t : Tree) : BranchPtr → List CString → Prop
  | _, [] => True
  | parent, name :: names =>
      match findChild t parent name with
      | some child => t.OpensPath child names
      | none => ∀ i < names.length + 1, t.branchIndex (generatedId (t.numberedFrom i)) = none

instance instDecidableOpensPath (t : Tree) : (parent : BranchPtr) → (names : List CString) →
    Decidable (t.OpensPath parent names)
  | _, [] => isTrue trivial
  | parent, name :: names =>
      match found : findChild t parent name with
      | some child =>
          have := instDecidableOpensPath t child names
          decidable_of_iff (t.OpensPath child names) (by rw [Tree.OpensPath, found])
      | none =>
          decidable_of_iff
            (∀ i < names.length + 1, t.branchIndex (generatedId (t.numberedFrom i)) = none)
            (by rw [Tree.OpensPath, found])

/--
The request names an id other than 0 for its new branch, or a place that is not there: an unknown
parent, or a path that cannot be made up to its end.
-/
def Call.AvoidsZero (t : Tree) : Call → Prop
  | .insert _ parentId branchId _ _ _ _ => branchId ≠ 0 ∨ t.branchIndex parentId = none
  | .insertInPath parentId names branchId _ _ _ =>
      branchId ≠ 0 ∨ ∀ parent, t.pathStart parentId = some parent → ¬t.OpensPath parent names
  | _ => True

instance (t : Tree) (call : Call) : Decidable (call.AvoidsZero t) :=
  match call with
  | .insert _ parentId branchId _ _ _ _ =>
      inferInstanceAs (Decidable (branchId ≠ 0 ∨ t.branchIndex parentId = none))
  | .insertInPath parentId names branchId _ _ _ =>
      match start : t.pathStart parentId with
      | none => isTrue (by simp [Call.AvoidsZero, start])
      | some parent => decidable_of_iff (branchId ≠ 0 ∨ ¬t.OpensPath parent names) (by
          simp [Call.AvoidsZero, start])
  | .delete .. | .move .. | .moveToPath .. | .update .. | .initView ..
  | .destroyView .. | .visible .. | .invisible .. | .expandTo .. | .branchUnfold .. =>
      isTrue trivial

section Paths

variable (leaf nonzero : Prop) {m m' : Map} {parent : BranchPtr} {names : List CString}
  {parentId branchId : UInt64} {text : CString} {mark doc : UInt64} {r : Option BranchPtr}

theorem generatedId_toNat (t : Tree) : (generatedId t).toNat = 2 ^ 32 + t.branchN.toNat := by
  rw [generatedId, hex2id64_format08X]
  simp

theorem generatedId_ne_zero (t : Tree) : generatedId t ≠ 0 := by
  intro zero
  have value := generatedId_toNat t
  simp only [zero, UInt64.toNat_zero] at value
  omega

theorem insert_edits {view : Option ViewPtr} {pos : UInt32} (wf : m.tree.WellFormed)
    (named : nonzero → branchId ≠ 0 ∨ m.tree.branchIndex parentId = none)
    (run : insert m view parentId branchId pos text mark doc = .ok (m', r)) :
    Edits (Edit.Tame leaf nonzero) m.tree m'.tree ∧ ∀ b, r = some b → m'.tree.Indexed b := by
  rcases insert_cases wf run with ⟨rfl, rfl, _⟩ | ⟨pb, known, unused, allowed, after, rfl⟩
  · exact ⟨.nil _, by simp⟩
  · rw [after]
    refine ⟨.single _ allowed ?_, ?_⟩
    · intro asked
      rcases named asked with other | unknown
      · exact other
      · rw [known] at unknown
        simp at unknown
    · rintro b ⟨⟩
      refine ⟨branchId, ?_⟩
      rw [Edit.grow_apply_index, grow_index]
      exact if_pos rfl

omit leaf nonzero in
theorem numberedFrom_zero (t : Tree) : t.numberedFrom 0 = t := by
  simp [Tree.numberedFrom]

omit leaf nonzero in
theorem generatedId_numberedFrom_succ {t t' : Tree} (count : t'.branchN = t.branchN + 1) (i : ℕ) :
    generatedId (t.numberedFrom (i + 1)) = generatedId (t'.numberedFrom i) := by
  simp only [generatedId, Tree.numberedFrom, count]
  rw [UInt32.ofNat_add, UInt32.add_assoc, UInt32.add_comm 1]
  rfl

omit leaf nonzero in
/-- A branch is inserted under the generated id if no other has it; the next id follows. -/
theorem insert_generated {view : Option ViewPtr} {pos : UInt32} {child : BranchPtr}
    (wf : m.tree.WellFormed)
    (run : insert m view parentId (generatedId m.tree) pos text mark doc = .ok (m', some child)) :
    m.tree.branchIndex (generatedId m.tree) = none ∧ m'.tree.branchN = m.tree.branchN + 1 ∧
      m'.tree.children child = [] ∧
      ∀ k, m'.tree.branchIndex k = none → m.tree.branchIndex k = none := by
  rcases insert_cases wf run with ⟨_, refused, _⟩ | ⟨pb, known, unused, allowed, after, made⟩
  · simp at refused
  · rw [Option.some.injEq] at made
    have old : pb < m.tree.next := wf.indexed_lt ⟨_, known⟩
    refine ⟨unused, ?_, ?_, fun k free => ?_⟩
    · rw [after]
      exact (ioSaveBranchData_fields _ _).2.2.2.2.1
    · rw [after, made, Tree.children, Edit.grow_apply_mem]
      exact (wf.toShape.grow_children (newBranch_fresh _ _ _ _ _) _).trans
        ((if_neg old.ne').trans wf.toShape.next_children)
    · rw [after, Edit.grow_apply_index, grow_index] at free
      split at free
      · simp at free
      · exact free

omit leaf nonzero in
/-- Below a branch without children every name asks for an unused id. -/
theorem opensPath_childless {t : Tree} (shape : t.Shape) (empty : t.children parent = []) :
    t.OpensPath parent names ↔
      ∀ i < names.length, t.branchIndex (generatedId (t.numberedFrom i)) = none := by
  cases names with
  | nil => simp [Tree.OpensPath]
  | cons name names =>
      have missing : findChild t parent name = none := by
        rw [findChild, shape.take_children, empty, List.find?_nil]
      simp only [Tree.OpensPath, missing, List.length_cons]

omit leaf nonzero in
/-- A path that led to a branch could be made. -/
theorem insertPathLoop_opens {x : BranchPtr} (wf : m.tree.WellFormed)
    (run : insertPathLoop m parent names = .ok (m', some x)) : m.tree.OpensPath parent names := by
  induction names generalizing m parent with
  | nil => trivial
  | cons name names ih =>
      rcases found : findChild m.tree parent name with _ | child
      · simp only [insertPathLoop, found] at run
        rcases bind_eq_ok.mp run with ⟨⟨m₁, r₁⟩, inserted, rest⟩
        cases r₁ with
        | none => simp at rest
        | some child =>
            rcases insert_generated wf inserted with ⟨unused, count, childless, older⟩
            have wf₁ := (insert_edits False False wf (fun asked => asked.elim) inserted).1.wellFormed
              wf
            simp only [Tree.OpensPath, found]
            rintro (_ | i) inside
            · rw [numberedFrom_zero]
              exact unused
            · rw [generatedId_numberedFrom_succ count]
              apply older
              exact (opensPath_childless wf₁.toShape childless).mp (ih wf₁ rest) i
                (Nat.lt_of_succ_lt_succ inside)
      · simp only [insertPathLoop, found] at run
        simp only [Tree.OpensPath, found]
        exact ih wf run

omit leaf nonzero in
theorem insertPath_opens {x : BranchPtr} (wf : m.tree.WellFormed)
    (run : insertPath m parentId names = .ok (m', some x)) :
    ∃ parent, m.tree.pathStart parentId = some parent ∧ m.tree.OpensPath parent names := by
  unfold insertPath at run
  split at run
  · simp at run
  · rename_i parent start
    exact ⟨parent, start, insertPathLoop_opens wf run⟩

theorem insertPathLoop_edits (wf : m.tree.WellFormed) (indexed : m.tree.Indexed parent)
    (run : insertPathLoop m parent names = .ok (m', r)) :
    Edits (Edit.Tame leaf nonzero) m.tree m'.tree ∧ ∀ b, r = some b → m'.tree.Indexed b := by
  induction names generalizing m parent with
  | nil =>
      simp only [insertPathLoop, Except.ok.injEq, Prod.mk.injEq] at run
      rcases run with ⟨rfl, rfl⟩
      refine ⟨.nil _, ?_⟩
      rintro b ⟨⟩
      exact indexed
  | cons name names ih =>
      unfold insertPathLoop at run
      split at run
      · rename_i child found
        apply ih wf _ run
        rw [findChild, wf.take_children] at found
        exact wf.indexed_of_parent (wf.mirrors.mem_iff.mp (List.mem_of_find?_eq_some found))
      · rcases bind_eq_ok.mp run with ⟨⟨m₁, r₁⟩, inserted, run⟩
        have first := insert_edits leaf nonzero wf
          (fun _ => .inl (generatedId_ne_zero _)) inserted
        cases r₁ with
        | none =>
            simp only [pure_eq_ok, Except.ok.injEq, Prod.mk.injEq] at run
            rcases run with ⟨rfl, rfl⟩
            exact ⟨first.1, by simp⟩
        | some child =>
            have rest := ih (first.1.wellFormed wf) (first.2 child rfl) run
            exact ⟨first.1.trans rest.1, rest.2⟩

theorem insertPath_edits (wf : m.tree.WellFormed)
    (run : insertPath m parentId names = .ok (m', r)) :
    Edits (Edit.Tame leaf nonzero) m.tree m'.tree ∧ ∀ b, r = some b → m'.tree.Indexed b := by
  unfold insertPath at run
  split at run
  · simp only [Except.ok.injEq, Prod.mk.injEq] at run
    rcases run with ⟨rfl, rfl⟩
    exact ⟨.nil _, by simp⟩
  · rename_i parent start
    apply insertPathLoop_edits leaf nonzero wf _ run
    by_cases given : parentId ≠ 0
    · rw [if_pos given] at start
      exact ⟨parentId, start⟩
    · rw [if_neg given, Option.some.injEq] at start
      subst start
      exact wf.root_indexed

omit leaf nonzero in
/-- `insert_in_path` makes the path and inserts below its end, if there is one. -/
theorem insertInPath_stages
    (run : insertInPath m parentId names branchId text mark doc = .ok (m', r)) :
    ∃ m₁ x, insertPath m parentId names = .ok (m₁, x) ∧
      (x = none ∧ m' = m₁ ∧ r = none ∨
        ∃ parent, x = some parent ∧
          insert m₁ none (m₁.tree.mem parent).id branchId 999999 text mark doc = .ok (m', r)) := by
  rcases bind_eq_ok.mp run with ⟨⟨m₁, x⟩, path, rest⟩
  refine ⟨m₁, x, path, ?_⟩
  cases x with
  | none =>
      simp only [pure_eq_ok, Except.ok.injEq, Prod.mk.injEq] at rest
      exact .inl ⟨rfl, rest.1.symm, rest.2.symm⟩
  | some parent => exact .inr ⟨parent, rfl, rest⟩

theorem insertInPath_edits (wf : m.tree.WellFormed)
    (named : nonzero → branchId ≠ 0 ∨
      ∀ parent, m.tree.pathStart parentId = some parent → ¬m.tree.OpensPath parent names)
    (run : insertInPath m parentId names branchId text mark doc = .ok (m', r)) :
    Edits (Edit.Tame leaf nonzero) m.tree m'.tree := by
  rcases insertInPath_stages run with ⟨m₁, x, path, ⟨_, rfl, _⟩ | ⟨parent, rfl, inserted⟩⟩
  · exact (insertPath_edits leaf nonzero wf path).1
  · have first := (insertPath_edits leaf nonzero wf path).1
    rcases insertPath_opens wf path with ⟨start, known, opens⟩
    have other : nonzero → branchId ≠ 0 :=
      fun asked => (named asked).resolve_right fun missing => missing start known opens
    exact first.trans (insert_edits leaf nonzero (first.wellFormed wf)
      (fun asked => .inl (other asked)) inserted).1

end Paths

section MoveEdits

variable (leaf nonzero : Prop) {m m' : Map} {view : Option ViewPtr}
  {newParentId oldParentId branchId parentId : UInt64} {pos : UInt16} {accepted : Bool}
  {names : List CString} {b p : BranchPtr}

theorem move_edits (wf : m.tree.WellFormed)
    (run : move m view newParentId oldParentId branchId pos = .ok (m', accepted)) :
    Edits (Edit.Tame leaf nonzero) m.tree m'.tree := by
  by_cases accept : ∃ b opb npb,
      moveCheck m.tree newParentId oldParentId branchId = .accept b opb npb
  · rcases accept with ⟨b, opb, npb, accept⟩
    rcases move_of_accept wf accept run with ⟨allowed, after, _⟩
    rw [after]
    exact .single _ allowed trivial
  · have refused : ∀ b opb npb,
        moveCheck m.tree newParentId oldParentId branchId ≠ .accept b opb npb :=
      fun b opb npb same => accept ⟨b, opb, npb, same⟩
    rw [(move_of_not_accept refused run).1]
    exact .nil _

omit leaf nonzero in
/-- `move_to_path` makes the path and moves the branch below its end, if both are there. -/
theorem moveToPath_stages (run : moveToPath m parentId names branchId = .ok m') :
    ∃ m₁ x, insertPath m parentId names = .ok (m₁, x) ∧
      (m' = m₁ ∧ (∀ e b p, x = some e → m₁.tree.branchIndex branchId = some b →
          m₁.tree.parent b ≠ some p) ∨
        ∃ e b p accepted, x = some e ∧ m₁.tree.branchIndex branchId = some b ∧
          m₁.tree.parent b = some p ∧
          move m₁ none (m₁.tree.mem e).id (m₁.tree.mem p).id branchId 9999 =
            .ok (m', accepted)) := by
  rcases bind_eq_ok.mp run with ⟨⟨m₁, x⟩, path, rest⟩
  refine ⟨m₁, x, path, ?_⟩
  cases x with
  | none => exact .inl ⟨(Except.ok.inj rest).symm, by simp⟩
  | some e =>
      simp only [branchIndexGet] at rest
      rcases known : m₁.tree.branchIndex branchId with _ | b
      · simp only [known] at rest
        exact .inl ⟨(Except.ok.inj rest).symm, by simp⟩
      · rcases above : m₁.tree.parent b with _ | p
        · simp only [known, show (m₁.tree.mem b).parent = none from above] at rest
          refine .inl ⟨(Except.ok.inj rest).symm, ?_⟩
          intro e' b' p _ same step
          rw [Option.some.injEq] at same
          rw [← same, above] at step
          simp at step
        · simp only [known, show (m₁.tree.mem b).parent = some p from above] at rest
          rcases bind_eq_ok.mp rest with ⟨⟨m₂, accepted⟩, moved, same⟩
          rw [← Except.ok.inj same]
          exact .inr ⟨e, b, p, accepted, rfl, rfl, above, moved⟩

theorem moveToPath_edits (wf : m.tree.WellFormed)
    (run : moveToPath m parentId names branchId = .ok m') :
    Edits (Edit.Tame leaf nonzero) m.tree m'.tree := by
  rcases moveToPath_stages run with
    ⟨m₁, x, path, ⟨rfl, _⟩ | ⟨e, b, p, accepted, _, _, _, moved⟩⟩
  · exact (insertPath_edits leaf nonzero wf path).1
  · have first := (insertPath_edits leaf nonzero wf path).1
    exact first.trans (move_edits leaf nonzero (first.wellFormed wf) moved)

/-! ## Delete -/

/-- The move that `delete` makes for a child of the deleted branch is accepted. -/
theorem moveCheck_child {t : Tree} {child : BranchPtr} (wf : t.WellFormed)
    (step : t.parent child = some b) :
    moveCheck t (t.mem t.branch).id (t.mem b).id (t.mem child).id =
      .accept child b t.branch := by
  rw [moveCheck_accept wf]
  refine ⟨wf.index_of_parent step, step, wf.root_index, rfl, ?_⟩
  rw [anc_iff_of_root wf.root_parent]
  exact wf.ne_root step

/-- One round of the loop in `delete` takes the child at the index out of the list. -/
theorem deleteChildren_step {child : BranchPtr} (wf : m.tree.WellFormed)
    (parentB : m.tree.parent b = some p) (step : m.tree.parent child = some b)
    (run : move m none (m.tree.mem m.tree.branch).id (m.tree.mem b).id (m.tree.mem child).id 9999 =
      .ok (m', accepted)) :
    Edits (Edit.Tame leaf nonzero) m.tree m'.tree ∧
      (∀ x, m'.tree.parent x = if x = child then some m.tree.branch else m.tree.parent x) ∧
      m'.tree.children b = (m.tree.children b).erase child := by
  rcases move_of_accept wf (moveCheck_child wf step) run with ⟨allowed, after, _⟩
  have notRoot : b ≠ m.tree.branch := wf.ne_root parentB
  refine ⟨?_, ?_, ?_⟩
  · rw [after]
    exact .single _ allowed trivial
  · intro x
    rw [after]
    exact rehome_parent _ _ _ _ _ x
  · rw [after]
    change (m.tree.rehome child b m.tree.branch _).children b = _
    rw [rehome_children, if_neg notRoot, Shape.unlink_children, if_pos rfl]

omit leaf nonzero in
/-- What every move of a child to the root keeps, the loop of `delete` keeps. -/
theorem deleteChildren_invariant {R : Map → Prop} (fuel i : ℕ)
    (keeps : ∀ m₁ child m₂ accepted, m₁.tree.WellFormed → m₁.tree.parent b = some p →
      m₁.tree.parent child = some b → R m₁ →
      move m₁ none (m₁.tree.mem m₁.tree.branch).id (m₁.tree.mem b).id (m₁.tree.mem child).id 9999 =
        .ok (m₂, accepted) → R m₂)
    (wf : m.tree.WellFormed) (parentB : m.tree.parent b = some p) (start : R m)
    (run : deleteChildren b fuel i m = .ok m') : R m' ∧ m'.tree.parent b = some p := by
  induction fuel generalizing m i with
  | zero =>
      simp only [deleteChildren, Except.ok.injEq] at run
      subst run
      exact ⟨start, parentB⟩
  | succ fuel ih =>
      unfold deleteChildren at run
      split at run
      · split at run
        · simp at run
        · rename_i child found
          have step : m.tree.parent child = some b :=
            wf.mirrors.mem_iff.mp (List.mem_of_getElem? found)
          simp only [show (m.tree.mem child).parent = some b from step] at run
          rcases bind_eq_ok.mp run with ⟨⟨m₁, accepted⟩, moved, run⟩
          rcases deleteChildren_step True True wf parentB step moved with ⟨first, parents, _⟩
          have parentB' : m₁.tree.parent b = some p := by
            rw [parents, if_neg (wf.acyclic.parent_ne step)]
            exact parentB
          exact ih (i + 1) (first.wellFormed wf) parentB'
            (keeps m child m₁ accepted wf parentB step start moved) run
      · simp only [Except.ok.injEq] at run
        subst run
        exact ⟨start, parentB⟩

theorem deleteChildren_edits (fuel i : ℕ) (wf : m.tree.WellFormed)
    (parentB : m.tree.parent b = some p) (run : deleteChildren b fuel i m = .ok m') :
    Edits (Edit.Tame leaf nonzero) m.tree m'.tree ∧ m'.tree.parent b = some p := by
  refine deleteChildren_invariant (R := fun s : Map => Edits _ m.tree s.tree) fuel i ?_ wf parentB
    (.nil _) run
  intro m₁ child m₂ accepted wf₁ parentB₁ step before moved
  exact before.trans (deleteChildren_step leaf nonzero wf₁ parentB₁ step moved).1

omit leaf nonzero in
/-- With no children left the loop ends. -/
theorem deleteChildren_nil (fuel i : ℕ) (wf : m.tree.WellFormed)
    (empty : m.tree.children b = []) : deleteChildren b fuel i m = .ok m := by
  cases fuel with
  | zero => rfl
  | succ fuel =>
      have count := wf.childN_eq b
      simp [deleteChildren, count, empty]

omit leaf nonzero in
/-- The only child of a deleted branch is moved, and then the loop ends. -/
theorem deleteChildren_single {c : BranchPtr} (fuel : ℕ) (wf : m.tree.WellFormed)
    (parentB : m.tree.parent b = some p) (only : m.tree.children b = [c]) :
    deleteChildren b (fuel + 1) 0 m =
      (move m none (m.tree.mem m.tree.branch).id (m.tree.mem b).id (m.tree.mem c).id 9999).map
        Prod.fst := by
  have step : m.tree.parent c = some b := wf.mirrors.mem_iff.mp (by simp [only])
  have count := wf.childN_eq b
  simp only [deleteChildren, count, only, List.length_singleton, Nat.zero_lt_one, if_true,
    show (m.tree.mem b).childList = [c] from only, List.getElem?_cons_zero,
    show (m.tree.mem c).parent = some b from step]
  cases moved : move m none (m.tree.mem m.tree.branch).id (m.tree.mem b).id (m.tree.mem c).id 9999
    with
  | error e => rfl
  | ok s =>
      rcases s with ⟨m₁, accepted⟩
      rcases deleteChildren_step True True wf parentB step moved with ⟨first, _, emptied⟩
      have empty : m₁.tree.children b = [] := by
        rw [emptied, only]
        simp
      rw [ok_bind, deleteChildren_nil _ _ (first.wellFormed wf) empty]
      rfl

omit leaf nonzero in
/-- With at most one child the loop empties the list. -/
theorem deleteChildren_few (fuel : ℕ) (wf : m.tree.WellFormed)
    (parentB : m.tree.parent b = some p) (few : (m.tree.children b).length ≤ 1)
    (run : deleteChildren b (fuel + 1) 0 m = .ok m') :
    m'.tree.children b = [] ∧
      ∀ x, m'.tree.parent x =
        if m.tree.parent x = some b then some m.tree.branch else m.tree.parent x := by
  rcases listed : m.tree.children b with _ | ⟨child, rest⟩
  · rw [deleteChildren_nil _ _ wf listed, Except.ok.injEq] at run
    rw [← run]
    refine ⟨listed, fun x => ?_⟩
    have noChild : m.tree.parent x ≠ some b := by
      intro step
      simpa [listed] using wf.mirrors.mem_iff.mpr step
    rw [if_neg noChild]
  · have single : rest = [] := by
      simp only [listed, List.length_cons] at few
      exact List.eq_nil_of_length_eq_zero (by omega)
    subst single
    have step : m.tree.parent child = some b := wf.mirrors.mem_iff.mp (by simp [listed])
    rw [deleteChildren_single fuel wf parentB listed] at run
    rcases map_eq_ok.mp run with ⟨⟨_, accepted⟩, moved, rfl⟩
    rcases deleteChildren_step True True wf parentB step moved with ⟨_, parents, emptied⟩
    refine ⟨by rw [emptied, listed]; simp, fun x => ?_⟩
    have onlyChild : m.tree.parent x = some b ↔ x = child := by
      rw [← wf.mirrors.mem_iff, listed, List.mem_singleton]
    rw [parents]
    simp only [onlyChild]

/-- A delete moves children to the root and then forgets the branch. -/
theorem delete_of_found (wf : m.tree.WellFormed) (found : m.tree.branchIndex branchId = some b)
    (parentB : m.tree.parent b = some p) (run : delete m view branchId = .ok m') :
    ∃ m₁, deleteChildren b (2 ^ 16) 0 m = .ok m₁ ∧
      Edits (Edit.Tame leaf nonzero) m.tree m₁.tree ∧ m₁.tree.parent b = some p ∧
      m'.tree = (Edit.forget b p).apply m₁.tree := by
  simp only [delete, branchIndexGet, found, show (m.tree.mem b).parent = some p from parentB] at run
  rcases bind_eq_ok.mp run with ⟨m₁, moved, run⟩
  rcases bind_eq_ok.mp run with ⟨o, _, run⟩
  rcases deleteChildren_edits leaf nonzero _ _ wf parentB moved with ⟨first, parentB'⟩
  simp only [show (m₁.tree.mem b).parent = some p from parentB', pure_eq_ok,
    Except.ok.injEq] at run
  refine ⟨m₁, moved, first, parentB', ?_⟩
  rw [← run]
  exact (first.wellFormed wf).deleteBranch_eq parentB'

omit leaf nonzero in
theorem delete_of_not_found
    (missing : ∀ b p, m.tree.branchIndex branchId = some b → m.tree.parent b ≠ some p)
    (run : delete m view branchId = .ok m') : m' = m := by
  unfold delete at run
  split at run
  · simp only [Except.ok.injEq] at run
    exact run.symm
  · rename_i b found
    split at run
    · simp only [Except.ok.injEq] at run
      exact run.symm
    · rename_i p parentB
      exact absurd parentB (missing b p found)

theorem delete_edits (wf : m.tree.WellFormed)
    (few : leaf → ∀ b, m.tree.branchIndex branchId = some b →
      m.tree.parent b ≠ none → (m.tree.children b).length ≤ 1)
    (run : delete m view branchId = .ok m') :
    Edits (Edit.Tame leaf nonzero) m.tree m'.tree := by
  by_cases known : ∃ b p, m.tree.branchIndex branchId = some b ∧ m.tree.parent b = some p
  · rcases known with ⟨b, p, found, parentB⟩
    rcases delete_of_found leaf nonzero wf found parentB run with
      ⟨m₁, moved, first, parentB', after⟩
    rw [after]
    apply first.trans
    apply Edits.single (.forget b p) parentB'
    intro asked
    exact (deleteChildren_few _ wf parentB (few asked b found (by simp [parentB])) moved).1
  · have missing : ∀ b p, m.tree.branchIndex branchId = some b → m.tree.parent b ≠ some p :=
      fun b p found parentB => known ⟨b, p, found, parentB⟩
    rw [delete_of_not_found missing run]
    exact .nil _

end MoveEdits

/-! ## Calls -/

section Calls

variable (leaf nonzero : Prop) {m m' : Map} {call : Call}

theorem update_edits (view : Option ViewPtr) (branchId : UInt64) (text : Option CString)
    (doc : UInt64) :
    Edits (Edit.Tame leaf nonzero) m.tree (update m view branchId text doc).tree := by
  unfold update
  split
  · exact .nil _
  · rename_i b found
    have allowed : ∀ text, (Edit.relabel b text doc).Allowed m.tree := fun _ => ⟨branchId, found⟩
    cases text with
    | none =>
        have edited := Edits.single (P := Edit.Tame leaf nonzero) _
          (allowed (m.tree.mem b).text) trivial
        have same : (m.tree.modify b fun x => { x with noteId := doc }) =
            m.tree.modify b fun x => { x with text := (m.tree.mem b).text, noteId := doc } := rfl
        simp only [same]
        exact edited
    | some s => exact Edits.single (P := Edit.Tame leaf nonzero) _ (allowed (utf8slice s 5000)) trivial

theorem mapInitView_tree {viewId : UInt32} {reqId branchId docId : UInt64} {query : CString}
    {endpointIds rows : List UInt64}
    (run : mapInitView m viewId reqId branchId query docId endpointIds rows = .ok m') :
    m'.tree = m.tree := by
  rcases bind_eq_ok.mp run with ⟨s, _, run⟩
  simp only [pure_eq_ok, Except.ok.injEq] at run
  rw [← run]

theorem mapExpandTo_tree {view : ViewPtr} {branchId : UInt64}
    (run : mapExpandTo m view branchId = .ok m') : m'.tree = m.tree := by
  unfold mapExpandTo at run
  split at run
  · simp only [Except.ok.injEq] at run
    rw [run]
  · rcases bind_eq_ok.mp run with ⟨s, _, run⟩
    split at run
    · simp only [pure_eq_ok, Except.ok.injEq] at run
      rw [← run]
    · simp only [pure_eq_ok, Except.ok.injEq] at run
      rw [← run]

theorem mapBranchUnfold_tree (view : ViewPtr) (branchId : UInt64) :
    (mapBranchUnfold m view branchId).tree = m.tree := by
  unfold mapBranchUnfold
  split
  · rfl
  · split <;> rfl

theorem onView_tree {viewId : UInt32} {f : ViewPtr → Except Fault Map}
    (keeps : ∀ view m', f view = .ok m' → m'.tree = m.tree) (run : m.onView viewId f = .ok m') :
    m'.tree = m.tree := by
  unfold Map.onView at run
  split at run
  · simp only [Except.ok.injEq] at run
    rw [run]
  · exact keeps _ _ run

/-- The call only concerns views. -/
def Call.ReadsTree : Call → Prop
  | .initView .. | .destroyView _ | .visible .. | .invisible .. | .expandTo .. | .branchUnfold .. =>
      True
  | _ => False

theorem call_tree (reads : call.ReadsTree) (run : m.call call = .ok m') : m'.tree = m.tree := by
  cases call with
  | initView viewId reqId branchId query docId endpointIds rows => exact mapInitView_tree run
  | destroyView viewId =>
      apply onView_tree _ run
      intro view m₁ same
      rw [← Except.ok.inj same]
      rfl
  | visible viewId branchIds =>
      apply onView_tree _ run
      intro view m₁ same
      rw [← Except.ok.inj same]
      rfl
  | invisible viewId branchIds =>
      apply onView_tree _ run
      intro view m₁ same
      rw [← Except.ok.inj same]
      rfl
  | expandTo viewId branchId => exact onView_tree (fun _ _ => mapExpandTo_tree) run
  | branchUnfold viewId branchId =>
      apply onView_tree _ run
      intro view m₁ same
      rw [← Except.ok.inj same]
      exact mapBranchUnfold_tree view branchId
  | insert | insertInPath | move | moveToPath | delete | update => exact reads.elim

/-- A call changes the tree by allowed edits only. -/
theorem call_edits (wf : m.tree.WellFormed) (few : leaf → call.DeletesFew m.tree)
    (named : nonzero → call.AvoidsZero m.tree) (run : m.call call = .ok m') :
    Edits (Edit.Tame leaf nonzero) m.tree m'.tree := by
  have unchanged : call.ReadsTree → Edits (Edit.Tame leaf nonzero) m.tree m'.tree := by
    intro reads
    rw [call_tree reads run]
    exact .nil _
  cases call with
  | insert viewId parentId branchId pos text mark doc =>
      rcases map_eq_ok.mp run with ⟨⟨m₁, r⟩, inserted, rfl⟩
      exact (insert_edits leaf nonzero wf named inserted).1
  | insertInPath parentId names branchId text mark doc =>
      rcases map_eq_ok.mp run with ⟨⟨m₁, r⟩, inserted, rfl⟩
      exact insertInPath_edits leaf nonzero wf named inserted
  | move viewId newParentId oldParentId branchId pos =>
      rcases map_eq_ok.mp run with ⟨⟨m₁, accepted⟩, moved, rfl⟩
      exact move_edits leaf nonzero wf moved
  | moveToPath parentId names branchId => exact moveToPath_edits leaf nonzero wf run
  | delete viewId branchId => exact delete_edits leaf nonzero wf few run
  | update viewId branchId text doc =>
      simp only [Map.call, Except.ok.injEq] at run
      rw [← run]
      exact update_edits leaf nonzero _ _ _ _
  | initView | destroyView | visible | invisible | expandTo | branchUnfold => exact unchanged trivial

theorem call_wellFormed (wf : m.tree.WellFormed) (run : m.call call = .ok m') :
    m'.tree.WellFormed :=
  (call_edits False False wf False.elim False.elim run).wellFormed wf

/-- Every call of a run keeps the tree well-formed. -/
theorem run_wellFormed {calls : List Call} (wf : m.tree.WellFormed)
    (run : m.run calls = .ok m') : m'.tree.WellFormed :=
  foldlM_invariant (fun m : Map => m.tree.WellFormed) (fun _ _ _ _ => call_wellFormed) wf run

/-- What every call of a run keeps, under a condition on it, holds at the end. -/
theorem run_invariant {P : Map → Call → Prop} {R : Map → Prop} {calls : List Call}
    (keeps : ∀ m call m', m.tree.WellFormed → R m → P m call → m.call call = .ok m' → R m')
    (wf : m.tree.WellFormed) (start : R m) (along : m.Along P calls)
    (run : m.run calls = .ok m') : R m' := by
  have both : m'.tree.WellFormed ∧ R m' := by
    refine foldlM_invariant_along (fun m : Map => m.tree.WellFormed ∧ R m) ?_ along ⟨wf, start⟩ run
    rintro s call s' holds ⟨wf, before⟩ called
    exact ⟨call_wellFormed wf called, keeps s call s' wf before holds called⟩
  exact both.2

/-- The edits of a whole run. -/
theorem run_edits {P : Map → Call → Prop} {calls : List Call} (wf : m.tree.WellFormed)
    (asked : ∀ m call, P m call → (leaf → call.DeletesFew m.tree) ∧ (nonzero → call.AvoidsZero m.tree))
    (along : m.Along P calls) (run : m.run calls = .ok m') :
    Edits (Edit.Tame leaf nonzero) m.tree m'.tree := by
  refine run_invariant (R := fun s : Map => Edits (Edit.Tame leaf nonzero) m.tree s.tree) ?_ wf
    (.nil _) along run
  intro s call s' wf before holds called
  rcases asked s call holds with ⟨few, named⟩
  exact before.trans (call_edits leaf nonzero wf few named called)

end Calls

end Treedb
