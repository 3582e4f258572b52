import Treedb.Tree.Record
import Treedb.Structure

/-!
# Paths of names

`insert_path` walks down from a branch along a list of names. While it finds a child for the
next name it only follows the child; from the first name without one on, every level is new,
since the children of a new branch are new as well. So a call is a walk over the tree as it is
(`followPath`), and then a chain of inserts below the end of the walk (`createPath`).

A child is found by comparing its text with the whole name, while a new branch is given the first
5000 characters of the name. A name of more characters is never found again.
-/

namespace Treedb

open Forest Outcome Treedb.Tree

/-! ## The walk -/

/-- Where the walk along the names ends, and the names that are left there. -/
def followPath (t : Tree) : BranchPtr → List CString → BranchPtr × List CString
  | parent, [] => (parent, [])
  | parent, name :: names =>
      match findChild t parent name with
      | some child => followPath t child names
      | none => (parent, name :: names)

/-- A new branch for every name, each below the one before it. -/
def createPath : Map → BranchPtr → List CString → Except Fault (Map × Option BranchPtr)
  | m, parent, [] => .ok (m, some parent)
  | m, parent, name :: names => do
      let new ← insert m none (m.tree.mem parent).id (generatedId m.tree) 999999 name 0 0
      match new.2 with
      | none => return (new.1, none)
      | some child => createPath new.1 child names

section Walk

variable {t t' : Tree} {parent child c : BranchPtr} {name : CString} {names : List CString}

theorem Tree.WellFormed.pathStart_indexed (wf : t.WellFormed) {parentId : UInt64}
    (found : t.pathStart parentId = some parent) : t.Indexed parent := by
  unfold Tree.pathStart at found
  split at found
  · exact ⟨parentId, found⟩
  · simp only [Option.some.injEq] at found
    exact found ▸ wf.root_indexed

theorem findChild_eq (shape : t.Shape) :
    findChild t parent name = (t.children parent).find? fun c => strcaseEq name (t.mem c).text := by
  rw [findChild, shape.take_children]

theorem findChild_some (shape : t.Shape) (found : findChild t parent name = some child) :
    t.parent child = some parent ∧ strcaseEq name (t.mem child).text = true := by
  rw [findChild_eq shape] at found
  have matched := List.find?_some (p := fun c => strcaseEq name (t.mem c).text) found
  exact ⟨shape.mirrors.mem_iff.mp (List.mem_of_find?_eq_some found), matched⟩

/-- What `findChild` answers depends on the child list and on the texts in it. -/
theorem findChild_congr (shape : t.Shape) (shape' : t'.Shape)
    (lists : t'.children parent = t.children parent)
    (texts : ∀ c ∈ t.children parent, (t'.mem c).text = (t.mem c).text) :
    findChild t' parent name = findChild t parent name := by
  rw [findChild_eq shape, findChild_eq shape', lists]
  apply List.find?_congr
  intro c listed
  rw [texts c listed]

theorem followPath_cons_some (found : findChild t parent name = some child) :
    followPath t parent (name :: names) = followPath t child names := by
  simp [followPath, found]

theorem followPath_cons_none (missing : findChild t parent name = none) :
    followPath t parent (name :: names) = (parent, name :: names) := by
  simp [followPath, missing]

theorem followPath_childless (shape : t.Shape) (empty : t.children parent = [])
    (names : List CString) : followPath t parent names = (parent, names) := by
  cases names with
  | nil => rfl
  | cons name names =>
      apply followPath_cons_none
      simp [findChild_eq shape, empty]

theorem followPath_anc (shape : t.Shape) (parent : BranchPtr) (names : List CString) :
    Anc t.parent (followPath t parent names).1 parent := by
  induction names generalizing parent with
  | nil => exact anc_refl _ _
  | cons name names ih =>
      rcases found : findChild t parent name with _ | child
      · rw [followPath_cons_none found]
      · rw [followPath_cons_some found]
        exact (ih child).trans (anc_of_parent (findChild_some shape found).1)

theorem followPath_suffix (t : Tree) (parent : BranchPtr) (names : List CString) :
    (followPath t parent names).2 <:+ names := by
  induction names generalizing parent with
  | nil => exact List.suffix_rfl
  | cons name names ih =>
      rcases found : findChild t parent name with _ | child
      · rw [followPath_cons_none found]
      · rw [followPath_cons_some found]
        exact (ih child).trans (List.suffix_cons name names)

theorem followPath_indexed (wf : t.WellFormed) (indexed : t.Indexed parent)
    (names : List CString) : t.Indexed (followPath t parent names).1 := by
  induction names generalizing parent with
  | nil => exact indexed
  | cons name names ih =>
      rcases found : findChild t parent name with _ | child
      · rw [followPath_cons_none found]
        exact indexed
      · rw [followPath_cons_some found]
        exact ih (wf.indexed_of_parent (findChild_some wf.toShape found).1)

end Walk

/-! ## One new level -/

section Level

variable {m m' : Map} {parent : BranchPtr} {name : CString} {r : Option BranchPtr}

/-- The edit that adds a level with this name as the last child. -/
def Tree.levelEdit (t : Tree) (parent : BranchPtr) (name : CString) : Edit :=
  .grow parent (t.newBranch (generatedId t) name 0 0) (t.children parent).length

theorem insertPos_last {n : ℕ} (short : n ≤ 65535) :
    insertPos (999999 : UInt32).toInt32.toInt n = n := by
  have value : (999999 : UInt32).toInt32.toInt = 999999 := by decide
  rw [insertPos, value, if_pos]
  omega

theorem insert_level (wf : m.tree.WellFormed) (indexed : m.tree.Indexed parent)
    (run : insert m none (m.tree.mem parent).id (generatedId m.tree) 999999 name 0 0 =
      .ok (m', r)) :
    (m' = m ∧ r = none ∧ m.tree.branchIndex (generatedId m.tree) ≠ none) ∨
      (r = some m.tree.next ∧ (m.tree.levelEdit parent name).Allowed m.tree ∧
        m'.tree = (m.tree.levelEdit parent name).apply m.tree) := by
  have known := wf.indexed_id indexed
  rcases insert_cases wf run with ⟨same, refused, rejects⟩ | ⟨pb, found, _, allowed, after, added⟩
  · left
    refine ⟨same, refused, ?_⟩
    intro unused
    exact rejects ⟨unused, parent, known⟩
  · right
    rw [known, Option.some.injEq] at found
    subst found
    rw [insertPos_last (wf.children_length_le parent)] at allowed after
    exact ⟨added, allowed, after⟩

end Level

/-- Below `e` the tree has grown; whatever was there keeps its place, its id and its text. -/
structure Tree.Extends (e : BranchPtr) (t t' : Tree) : Prop where
  next_le : t.next ≤ t'.next
  root : t'.branch = t.branch
  id : ∀ p < t.next, (t'.mem p).id = (t.mem p).id
  text : ∀ p < t.next, (t'.mem p).text = (t.mem p).text
  parent : ∀ p < t.next, t'.parent p = t.parent p
  children : ∀ p < t.next, p ≠ e → t'.children p = t.children p
  longer : t.children e <+: t'.children e
  index : ∀ k b, t.branchIndex k = some b → t'.branchIndex k = some b

section Extends

variable {t t' t'' : Tree} {e e' parent : BranchPtr} {name : CString}

theorem Tree.Extends.refl (e : BranchPtr) (t : Tree) : t.Extends e t where
  next_le := le_rfl
  root := rfl
  id _ _ := rfl
  text _ _ := rfl
  parent _ _ := rfl
  children _ _ _ := rfl
  longer := List.prefix_rfl
  index _ _ found := found

/-- What grows below a branch that was not there before is of no concern. -/
theorem Tree.Extends.trans (first : t.Extends e t') (inside : e < t.next) (new : t.next ≤ e')
    (second : t'.Extends e' t'') : t.Extends e t'' where
  next_le := first.next_le.trans second.next_le
  root := second.root.trans first.root
  id p old := (second.id p (old.trans_le first.next_le)).trans (first.id p old)
  text p old := (second.text p (old.trans_le first.next_le)).trans (first.text p old)
  parent p old := (second.parent p (old.trans_le first.next_le)).trans (first.parent p old)
  children p old other := by
    have apart : p ≠ e' := (old.trans_le new).ne
    exact (second.children p (old.trans_le first.next_le) apart).trans (first.children p old other)
  longer := by
    have apart : e ≠ e' := (inside.trans_le new).ne
    rw [second.children e (inside.trans_le first.next_le) apart]
    exact first.longer
  index k b found := second.index k b (first.index k b found)

theorem Tree.grow_text (t : Tree) (pb : BranchPtr) (new : Branch) (i : ℕ) (x : BranchPtr) :
    ((t.grow pb new i).mem x).text = if x = t.next then new.text else (t.mem x).text := by
  change ((t.alloc new).mem x).text = _
  by_cases same : x = t.next
  · subst same
    rw [alloc_mem_next, if_pos rfl]
  · rw [alloc_mem_of_ne t new same, if_neg same]

/-- The tree after a new level. -/
structure Tree.Levelled (t t' : Tree) (parent : BranchPtr) (name : CString) : Prop where
  unused : t.branchIndex (generatedId t) = none
  wf : t'.WellFormed
  ext : t.Extends parent t'
  next : t'.next = t.next + 1
  branchN : t'.branchN = t.branchN + 1
  list : t'.children parent = t.children parent ++ [t.next]
  newText : (t'.mem t.next).text = utf8slice name 5000
  newParent : t'.parent t.next = some parent
  newChildren : t'.children t.next = []
  index : ∀ k, t'.branchIndex k = if k = generatedId t then some t.next else t.branchIndex k

theorem Tree.WellFormed.levelled (wf : t.WellFormed)
    (allowed : (t.levelEdit parent name).Allowed t) :
    t.Levelled ((t.levelEdit parent name).apply t) parent name := by
  have fresh := newBranch_fresh t (generatedId t) name 0 0
  have unused : t.branchIndex (generatedId t) = none := allowed.2.2.2.1
  have old : parent < t.next := wf.indexed_lt allowed.2.2.1
  have mem := Edit.grow_apply_mem t parent (t.newBranch (generatedId t) name 0 0)
    (t.children parent).length
  have index := Edit.grow_apply_index t parent (t.newBranch (generatedId t) name 0 0)
    (t.children parent).length
  have fields := Edit.apply_fields t (t.levelEdit parent name)
  have lists : ∀ x, ((t.levelEdit parent name).apply t).children x =
      if x = parent then (t.children x).insertIdx (t.children parent).length t.next
      else t.children x := by
    intro x
    rw [← wf.toShape.grow_children fresh x]
    exact congrArg (fun mem => (mem x).childList) mem
  have parents : ∀ x, ((t.levelEdit parent name).apply t).parent x =
      if x = t.next then some parent else t.parent x := by
    intro x
    rw [← wf.toShape.grow_parent fresh x]
    exact congrArg (fun mem => (mem x).parent) mem
  have texts : ∀ x, (((t.levelEdit parent name).apply t).mem x).text =
      if x = t.next then utf8slice name 5000 else (t.mem x).text := by
    intro x
    exact (congrArg (fun mem => (mem x).text) mem).trans (grow_text t parent _ _ x)
  have ids : ∀ x, (((t.levelEdit parent name).apply t).mem x).id =
      if x = t.next then generatedId t else (t.mem x).id := by
    intro x
    exact (congrArg (fun mem => (mem x).id) mem).trans (grow_id t parent _ _ x)
  have indices : ∀ k, ((t.levelEdit parent name).apply t).branchIndex k =
      if k = generatedId t then some t.next else t.branchIndex k := by
    intro k
    exact (congrFun index k).trans (grow_index t parent _ _ k)
  have list : ((t.levelEdit parent name).apply t).children parent =
      t.children parent ++ [t.next] := by
    rw [lists, if_pos rfl, List.insertIdx_length_self]
  refine
    { unused := unused
      wf := wf.apply allowed
      ext :=
        { next_le := ?_
          root := Edit.apply_branch t _
          id := fun p lt => (ids p).trans (if_neg lt.ne)
          text := fun p lt => (texts p).trans (if_neg lt.ne)
          parent := fun p lt => (parents p).trans (if_neg lt.ne)
          children := fun p _ other => (lists p).trans (if_neg other)
          longer := ⟨[t.next], list.symm⟩
          index := ?_ }
      next := fields.2.1
      branchN := fields.2.2.2.2.1
      list := list
      newText := (texts _).trans (if_pos rfl)
      newParent := (parents _).trans (if_pos rfl)
      newChildren := (lists _).trans ((if_neg old.ne').trans wf.toShape.next_children)
      index := indices }
  · rw [fields.2.1]
    exact Nat.le_succ _
  · intro k b found
    rw [indices, if_neg, found]
    rintro rfl
    rw [unused] at found
    simp at found

end Extends

/-! ## All new levels -/

/--
A chain of children from `parent` to `x`, one for each name. A child was found by the whole name or
made from its first 5000 characters.
-/
def Tree.NamedPath (t : Tree) : BranchPtr → List CString → BranchPtr → Prop
  | parent, [], x => x = parent
  | parent, name :: names, x =>
      ∃ child, t.parent child = some parent ∧
        (strcaseEq name (t.mem child).text = true ∨ (t.mem child).text = utf8slice name 5000) ∧
        t.NamedPath child names x

section Create

variable {m m' : Map} {parent e x : BranchPtr} {name : CString} {names : List CString}
  {r : Option BranchPtr}

theorem createPath_cons (wf : m.tree.WellFormed) (indexed : m.tree.Indexed parent)
    (run : createPath m parent (name :: names) = .ok (m', r)) :
    (m' = m ∧ r = none ∧ m.tree.branchIndex (generatedId m.tree) ≠ none) ∨
      ∃ m₁, m.tree.Levelled m₁.tree parent name ∧ m₁.tree.Indexed m.tree.next ∧
        createPath m₁ m.tree.next names = .ok (m', r) := by
  rw [createPath] at run
  rcases bind_eq_ok.mp run with ⟨⟨m₁, child⟩, made, rest⟩
  rcases insert_level wf indexed made with ⟨rfl, rfl, used⟩ | ⟨rfl, allowed, after⟩
  · simp only [pure_eq_ok, Except.ok.injEq, Prod.mk.injEq] at rest
    exact .inl ⟨rest.1.symm, rest.2.symm, used⟩
  · have levelled := wf.levelled allowed
    rw [← after] at levelled
    refine .inr ⟨m₁, levelled, ⟨generatedId m.tree, ?_⟩, rest⟩
    rw [levelled.index, if_pos rfl]

/-- Below a branch without children every level of the path is new. -/
theorem insertPathLoop_childless (wf : m.tree.WellFormed) (indexed : m.tree.Indexed parent)
    (empty : m.tree.children parent = []) (names : List CString) :
    insertPathLoop m parent names = createPath m parent names := by
  induction names generalizing m parent with
  | nil => rfl
  | cons name names ih =>
      have missing : findChild m.tree parent name = none := by
        simp [findChild_eq wf.toShape, empty]
      simp only [insertPathLoop, createPath, missing]
      rcases made : insert m none (m.tree.mem parent).id (generatedId m.tree) 999999 name 0 0 with
        fault | ⟨m₁, child⟩
      · rfl
      · rcases insert_level wf indexed made with ⟨_, rfl, _⟩ | ⟨rfl, allowed, after⟩
        · rfl
        · have levelled := wf.levelled allowed
          rw [← after] at levelled
          exact ih levelled.wf ⟨generatedId m.tree, by rw [levelled.index, if_pos rfl]⟩
            levelled.newChildren

/-- A call follows what is there and creates the rest. -/
theorem insertPathLoop_eq (wf : m.tree.WellFormed) (indexed : m.tree.Indexed parent)
    (names : List CString) :
    insertPathLoop m parent names =
      createPath m (followPath m.tree parent names).1 (followPath m.tree parent names).2 := by
  induction names generalizing parent with
  | nil => rfl
  | cons name names ih =>
      rcases found : findChild m.tree parent name with _ | child
      · rw [followPath_cons_none found]
        simp only [insertPathLoop, createPath, found]
        rcases made : insert m none (m.tree.mem parent).id (generatedId m.tree) 999999 name 0 0 with
          fault | ⟨m₁, child⟩
        · rfl
        · rcases insert_level wf indexed made with ⟨_, rfl, _⟩ | ⟨rfl, allowed, after⟩
          · rfl
          · have levelled := wf.levelled allowed
            rw [← after] at levelled
            exact insertPathLoop_childless levelled.wf
              ⟨generatedId m.tree, by rw [levelled.index, if_pos rfl]⟩ levelled.newChildren names
      · rw [followPath_cons_some found, ← ih (wf.indexed_of_parent (findChild_some wf.toShape found).1)]
        simp only [insertPathLoop, found]

theorem createPath_extends (wf : m.tree.WellFormed) (indexed : m.tree.Indexed e)
    (run : createPath m e names = .ok (m', r)) :
    m'.tree.WellFormed ∧ m.tree.Extends e m'.tree ∧ ∀ x, r = some x → m'.tree.Indexed x := by
  induction names generalizing m e with
  | nil =>
      simp only [createPath, Except.ok.injEq, Prod.mk.injEq] at run
      rcases run with ⟨rfl, rfl⟩
      refine ⟨wf, .refl e _, ?_⟩
      intro x same
      rw [Option.some.injEq] at same
      exact same ▸ indexed
  | cons name names ih =>
      rcases createPath_cons wf indexed run with ⟨rfl, rfl, _⟩ | ⟨m₁, levelled, listed, rest⟩
      · exact ⟨wf, .refl e _, by simp⟩
      · rcases ih levelled.wf listed rest with ⟨wf', ext, result⟩
        exact ⟨wf', levelled.ext.trans (wf.indexed_lt indexed) le_rfl ext, result⟩

/-- A path that is complete has a new branch for every name that was left. -/
theorem createPath_next (wf : m.tree.WellFormed) (indexed : m.tree.Indexed e)
    (run : createPath m e names = .ok (m', some x)) :
    m'.tree.next = m.tree.next + names.length := by
  induction names generalizing m e with
  | nil =>
      simp only [createPath, Except.ok.injEq, Prod.mk.injEq] at run
      rw [← run.1]
      rfl
  | cons name names ih =>
      rcases createPath_cons wf indexed run with ⟨_, no, _⟩ | ⟨m₁, levelled, listed, rest⟩
      · simp at no
      · rw [ih levelled.wf listed rest, levelled.next, List.length_cons]
        omega

/-- A path that is complete has counted every name that was left. -/
theorem createPath_branchN (wf : m.tree.WellFormed) (indexed : m.tree.Indexed e)
    (run : createPath m e names = .ok (m', some x)) :
    m'.tree.branchN = (m.tree.numberedFrom names.length).branchN := by
  induction names generalizing m e with
  | nil =>
      simp only [createPath, Except.ok.injEq, Prod.mk.injEq] at run
      rw [← run.1, List.length_nil, numberedFrom_zero]
  | cons name names ih =>
      rcases createPath_cons wf indexed run with ⟨_, no, _⟩ | ⟨m₁, levelled, listed, rest⟩
      · simp at no
      · rw [ih levelled.wf listed rest, List.length_cons]
        simp only [Tree.numberedFrom, levelled.branchN]
        rw [UInt32.ofNat_add, UInt32.add_assoc, UInt32.add_comm 1]
        rfl

theorem createPath_named (wf : m.tree.WellFormed) (indexed : m.tree.Indexed e)
    (run : createPath m e names = .ok (m', some x)) : m'.tree.NamedPath e names x := by
  induction names generalizing m e with
  | nil =>
      simp only [createPath, Except.ok.injEq, Prod.mk.injEq, Option.some.injEq] at run
      exact run.2.symm
  | cons name names ih =>
      rcases createPath_cons wf indexed run with ⟨_, no, _⟩ | ⟨m₁, levelled, listed, rest⟩
      · simp at no
      · have ext := (createPath_extends levelled.wf listed rest).2.1
        have inside : m.tree.next < m₁.tree.next := by
          rw [levelled.next]
          exact Nat.lt_succ_self _
        refine ⟨m.tree.next, ?_, .inr ?_, ih levelled.wf listed rest⟩
        · rw [ext.parent _ inside, levelled.newParent]
        · rw [ext.text _ inside, levelled.newText]

end Create

section Followed

variable {t t' : Tree} {parent e x : BranchPtr} {names : List CString}

/-- What grew below the end of the walk does not change the way to it. -/
theorem findChild_extends (wf : t.WellFormed) (wf' : t'.WellFormed) (ext : t.Extends e t')
    (inside : parent < t.next) (other : parent ≠ e) (name : CString) :
    findChild t' parent name = findChild t parent name := by
  apply findChild_congr wf.toShape wf'.toShape (ext.children parent inside other)
  intro c listed
  exact ext.text c (wf.parent_lt (wf.mirrors.mem_iff.mp listed)).1

theorem followPath_extends (wf : t.WellFormed) (wf' : t'.WellFormed)
    (ext : t.Extends (followPath t parent names).1 t') (inside : parent < t.next) :
    followPath t' parent names =
      followPath t' (followPath t parent names).1 (followPath t parent names).2 := by
  induction names generalizing parent with
  | nil => rfl
  | cons name names ih =>
      rcases found : findChild t parent name with _ | child
      · rw [followPath_cons_none found]
      · rw [followPath_cons_some found] at ext ⊢
        have step := (findChild_some wf.toShape found).1
        have above : parent ≠ (followPath t child names).1 := by
          intro same
          have low := followPath_anc wf.toShape child names
          rw [← same] at low
          exact wf.acyclic.not_anc_of_strict
            ((strictAnc_iff_of_parent step).mpr (anc_refl _ parent)) low
        have found' : findChild t' parent name = some child := by
          rw [findChild_extends wf wf' ext inside above, found]
        rw [followPath_cons_some found', ih ext (wf.parent_lt step).1]

theorem namedPath_follow (wf : t.WellFormed) (ext : t.Extends e t')
    (rest : t'.NamedPath (followPath t parent names).1 (followPath t parent names).2 x) :
    t'.NamedPath parent names x := by
  induction names generalizing parent with
  | nil => exact rest
  | cons name names ih =>
      rcases found : findChild t parent name with _ | child
      · rw [followPath_cons_none found] at rest
        exact rest
      · rw [followPath_cons_some found] at rest
        rcases findChild_some wf.toShape found with ⟨step, matched⟩
        have inside := (wf.parent_lt step).1
        refine ⟨child, ?_, .inl ?_, ih rest⟩
        · rw [ext.parent child inside, step]
        · rw [ext.text child inside, matched]

end Followed

/-! ## The same path again -/

/-- A name is found again by its stored text if nothing was cut off. -/
theorem strcaseEq_utf8slice {name : CString} {max : ℕ} :
    strcaseEq name (utf8slice name max) = true ↔ utf8slice name max = name := by
  constructor
  · intro matched
    simp only [strcaseEq, beq_iff_eq] at matched
    have lengths := congrArg List.length matched
    simp only [List.length_map] at lengths
    rw [utf8slice] at lengths ⊢
    exact List.take_of_length_le (by rw [List.length_take] at lengths; omega)
  · intro same
    simp [same, strcaseEq]

section Again

variable {m m' : Map} {t t' : Tree} {parent e x : BranchPtr} {name : CString}
  {names : List CString} {parentId : UInt64} {r : Option BranchPtr}

/-- The new level is found by its name, unless the name was cut. -/
theorem Tree.Levelled.findChild (levelled : t.Levelled t' parent name) (wf : t.WellFormed)
    (missing : Treedb.findChild t parent name = none) :
    Treedb.findChild t' parent name =
      if utf8slice name 5000 = name then some t.next else none := by
  rw [findChild_eq wf.toShape, List.find?_eq_none] at missing
  have before : ((t.children parent).find? fun c => strcaseEq name (t'.mem c).text) = none := by
    rw [List.find?_eq_none]
    intro c listed
    rw [levelled.ext.text c (wf.parent_lt (wf.mirrors.mem_iff.mp listed)).1]
    exact missing c listed
  rw [findChild_eq levelled.wf.toShape, levelled.list, List.find?_append, before, Option.none_or]
  split
  · rename_i whole
    rw [List.find?_cons_of_pos]
    rw [levelled.newText, whole]
    simp [strcaseEq]
  · rename_i cut
    rw [List.find?_cons_of_neg, List.find?_nil]
    rw [levelled.newText, strcaseEq_utf8slice]
    exact cut

theorem followPath_created (wf : m.tree.WellFormed) (indexed : m.tree.Indexed e)
    (missing : followPath m.tree e names = (e, names))
    (run : createPath m e names = .ok (m', some x)) :
    followPath m'.tree e names = (x, []) ↔ ∀ name ∈ names, utf8slice name 5000 = name := by
  induction names generalizing m e with
  | nil =>
      simp only [createPath, Except.ok.injEq, Prod.mk.injEq, Option.some.injEq] at run
      simp [followPath, run.2]
  | cons name names ih =>
      have absent : findChild m.tree e name = none := by
        rcases found : findChild m.tree e name with _ | child
        · rfl
        · have suffix := followPath_suffix m.tree child names
          rw [followPath_cons_some found] at missing
          rw [missing] at suffix
          have bound := suffix.length_le
          simp at bound
      rcases createPath_cons wf indexed run with ⟨_, no, _⟩ | ⟨m₁, levelled, listed, rest⟩
      · simp at no
      · rcases createPath_extends levelled.wf listed rest with ⟨wf', ext, _⟩
        have old := wf.indexed_lt indexed
        have same : findChild m'.tree e name = findChild m₁.tree e name :=
          findChild_extends levelled.wf wf' ext (old.trans_le levelled.ext.next_le) old.ne name
        rw [levelled.findChild wf absent] at same
        by_cases whole : utf8slice name 5000 = name
        · rw [if_pos whole] at same
          rw [followPath_cons_some same, ih levelled.wf listed
            (followPath_childless levelled.wf.toShape levelled.newChildren names) rest]
          simp [whole]
        · rw [if_neg whole] at same
          rw [followPath_cons_none same]
          simp [whole]

/-- A call inserts nothing and ends at `x` if the walk alone ends there. -/
theorem insertPathLoop_unchanged_iff (wf : m.tree.WellFormed) (indexed : m.tree.Indexed parent) :
    (∃ m', insertPathLoop m parent names = .ok (m', some x) ∧ m'.tree = m.tree) ↔
      followPath m.tree parent names = (x, []) := by
  rw [insertPathLoop_eq wf indexed]
  rcases walked : followPath m.tree parent names with ⟨e, rest⟩
  have indexedE : m.tree.Indexed e := by
    have low := followPath_indexed wf indexed names
    rw [walked] at low
    exact low
  constructor
  · rintro ⟨m', run, same⟩
    have length := createPath_next wf indexedE run
    rw [same] at length
    have nothing : rest = [] := List.eq_nil_of_length_eq_zero (by simp only at length; omega)
    subst nothing
    simp only [createPath, Except.ok.injEq, Prod.mk.injEq, Option.some.injEq] at run
    rw [run.2]
  · intro ends
    rw [Prod.mk.injEq] at ends
    rcases ends with ⟨rfl, rfl⟩
    exact ⟨m, rfl, rfl⟩

/-- What a call that completes the path leaves behind. -/
theorem insertPathLoop_spec (wf : m.tree.WellFormed) (indexed : m.tree.Indexed parent)
    (run : insertPathLoop m parent names = .ok (m', some x)) :
    m'.tree.WellFormed ∧ m.tree.Extends (followPath m.tree parent names).1 m'.tree ∧
      m'.tree.NamedPath parent names x ∧
      (followPath m'.tree parent names = (x, []) ↔
        ∀ name ∈ (followPath m.tree parent names).2, utf8slice name 5000 = name) := by
  rw [insertPathLoop_eq wf indexed] at run
  have indexedE := followPath_indexed wf indexed names
  rcases createPath_extends wf indexedE run with ⟨wf', ext, _⟩
  have stuck : followPath m.tree (followPath m.tree parent names).1
      (followPath m.tree parent names).2 = followPath m.tree parent names :=
    (followPath_extends wf wf (.refl _ _) (wf.indexed_lt indexed)).symm
  refine ⟨wf', ext, namedPath_follow wf ext (createPath_named wf indexedE run), ?_⟩
  rw [followPath_extends wf wf' ext (wf.indexed_lt indexed)]
  exact followPath_created wf indexedE stuck run

theorem insertPath_of_start (start : m.tree.pathStart parentId = some parent) :
    insertPath m parentId names = insertPathLoop m parent names := by
  unfold Tree.pathStart at start
  simp only [insertPath, start]

theorem insertPath_of_no_start (none' : m.tree.pathStart parentId = none) :
    insertPath m parentId names = .ok (m, none) := by
  unfold Tree.pathStart at none'
  simp only [insertPath, none']

theorem Tree.Extends.pathStart (ext : t.Extends e t') (start : t.pathStart parentId = some parent) :
    t'.pathStart parentId = some parent := by
  unfold Tree.pathStart at start ⊢
  split at start
  · rename_i named
    rw [if_pos named]
    exact ext.index parentId parent start
  · rename_i root
    rw [if_neg root, ext.root]
    exact start

/--
A call of `insert_path` that returns a branch has made a chain with one child for each name. The
same call again returns the same branch and inserts nothing if and only if no name from the first
missing level on is longer than 5000 characters.
-/
theorem insertPath_again_iff {texts : List (List Char)} (wf : m.tree.WellFormed)
    (run : insertPath m parentId (texts.map utf8) = .ok (m', some x)) :
    ∃ parent, m.tree.pathStart parentId = some parent ∧
      m'.tree.NamedPath parent (texts.map utf8) x ∧
      ((∃ m'', insertPath m' parentId (texts.map utf8) = .ok (m'', some x) ∧
          m''.tree = m'.tree) ↔
        ∀ text, utf8 text ∈ (followPath m.tree parent (texts.map utf8)).2 → text.length ≤ 5000) := by
  rcases start : m.tree.pathStart parentId with _ | parent
  · simp [insertPath_of_no_start start] at run
  · rw [insertPath_of_start start] at run
    have indexed := wf.pathStart_indexed start
    rcases insertPathLoop_spec wf indexed run with ⟨wf', ext, named, found⟩
    refine ⟨parent, rfl, named, ?_⟩
    have start' := ext.pathStart start
    rw [insertPath_of_start start', insertPathLoop_unchanged_iff wf' (wf'.pathStart_indexed start'),
      found]
    constructor
    · intro whole text missing
      exact (utf8slice_eq_self_iff text 5000).mp (whole _ missing)
    · intro short name missing
      rcases List.mem_map.mp ((followPath_suffix _ _ _).subset missing) with ⟨text, _, rfl⟩
      exact (utf8slice_eq_self_iff text 5000).mpr (short text missing)

end Again

/-- Two levels below the root of a new map. -/
theorem insertPath_again_iff_example :
    ∃ m' x parent m'', insertPath (mapCreateEmpty 1) 0 ([['a'], ['b']].map utf8) = .ok (m', some x) ∧
      m'.tree.NamedPath parent ([['a'], ['b']].map utf8) x ∧
      insertPath m' 0 ([['a'], ['b']].map utf8) = .ok (m'', some x) ∧ m''.tree = m'.tree := by
  have observed : (insertPath (mapCreateEmpty 1) 0 ([['a'], ['b']].map utf8)).toOption.map Prod.snd =
      some (some 2) := by
    decide +kernel
  rcases run : insertPath (mapCreateEmpty 1) 0 ([['a'], ['b']].map utf8) with fault | ⟨m', r⟩
  · rw [run] at observed
    simp [Except.toOption] at observed
  · rw [run] at observed
    simp only [Except.toOption, Option.map_some, Option.some.injEq] at observed
    subst observed
    rcases insertPath_again_iff (mapCreateEmpty_holdsOnlyRoot 1).wellFormed run with
      ⟨parent, _, named, again⟩
    rcases again.mpr (by
      intro text missing
      apply (utf8slice_eq_self_iff text 5000).mp
      have listed := (followPath_suffix _ _ _).subset missing
      simp only [List.map_cons, List.map_nil, List.mem_cons, List.not_mem_nil, or_false] at listed
      rcases listed with spelled | spelled <;> rw [spelled] <;> decide +kernel) with
      ⟨m'', second, same⟩
    exact ⟨m', 2, parent, m'', rfl, named, second, same⟩

/-- A name of 5001 characters below the root of a new map. -/
theorem insertPath_inserts_again :
    ¬∀ (calls : List Call) (m m' : Map) (parentId : UInt64) (texts : List (List Char))
      (x : BranchPtr), (mapCreateEmpty 1).run calls = .ok m →
      insertPath m parentId (texts.map utf8) = .ok (m', some x) →
      ∃ m'', insertPath m' parentId (texts.map utf8) = .ok (m'', some x) ∧
        m''.tree = m'.tree := by
  intro idempotent
  have start := mapCreateEmpty_holdsOnlyRoot 1
  have wf := start.wellFormed
  have bare : ∀ b, (mapCreateEmpty 1).tree.children b = [] := fun b => (start.bare b).2.1
  obtain ⟨long, length⟩ : ∃ long : List Char, long.length = 5001 :=
    ⟨List.replicate 5001 'a', List.length_replicate⟩
  have root : (mapCreateEmpty 1).tree.pathStart 0 = some 0 := congrArg some start.root
  have indexed := wf.pathStart_indexed root
  have returns : ∃ s, insert (mapCreateEmpty 1) none ((mapCreateEmpty 1).tree.mem 0).id
      (generatedId (mapCreateEmpty 1).tree) 999999 (utf8 long) 0 0 = .ok s ∧
        s.1.overlay.NoViews := insert_returns wf start.views (by simp [bare]) 999999
  rcases returns with ⟨⟨m', r⟩, made, _⟩
  rcases insert_level wf indexed made with ⟨_, _, used⟩ | ⟨rfl, allowed, after⟩
  · exact used (by rw [start.index, if_neg (by decide +kernel)])
  · have run : insertPath (mapCreateEmpty 1) 0 ([long].map utf8) =
        .ok (m', some (mapCreateEmpty 1).tree.next) := by
      rw [insertPath_of_start root, insertPathLoop_childless wf indexed (bare 0)]
      simp only [List.map_cons, List.map_nil, createPath, made, ok_bind]
    have again := idempotent [] _ m' 0 [long] _ rfl run
    rw [insertPath_of_start root] at run
    rcases insertPathLoop_spec wf indexed run with ⟨wf', ext, _, found⟩
    have root' := ext.pathStart root
    rw [insertPath_of_start root', insertPathLoop_unchanged_iff wf' (wf'.pathStart_indexed root'),
      found, followPath_childless wf.toShape (bare 0)] at again
    have short := (utf8slice_eq_self_iff long 5000).mp (again _ (by simp))
    omega

/-! ## Paths that are not used -/

section Unused

variable {m m' : Map} {parent e x : BranchPtr} {names : List CString} {parentId branchId : UInt64}
  {text : CString} {mark doc : UInt64} {r : Option BranchPtr}

/-- The `i`th new branch is the `i`th level that was missing. -/
theorem createPath_levels (wf : m.tree.WellFormed) (indexed : m.tree.Indexed e)
    (run : createPath m e names = .ok (m', r)) {i : ℕ} (new : m.tree.next + i < m'.tree.next) :
    ∃ name, names[i]? = some name ∧
      (m'.tree.mem (m.tree.next + i)).text = utf8slice name 5000 ∧
      m'.tree.parent (m.tree.next + i) = some (if i = 0 then e else m.tree.next + i - 1) := by
  induction names generalizing m e i with
  | nil =>
      simp only [createPath, Except.ok.injEq, Prod.mk.injEq] at run
      rw [run.1] at new
      omega
  | cons name names ih =>
      rcases createPath_cons wf indexed run with ⟨rfl, _, _⟩ | ⟨m₁, levelled, listed, rest⟩
      · omega
      · have next := levelled.next
        cases i with
        | zero =>
            have ext := (createPath_extends levelled.wf listed rest).2.1
            have inside : m.tree.next < m₁.tree.next := by omega
            refine ⟨name, rfl, ?_, ?_⟩
            · rw [Nat.add_zero, ext.text _ inside, levelled.newText]
            · rw [Nat.add_zero, ext.parent _ inside, levelled.newParent, if_pos rfl]
        | succ i =>
            have shift : m.tree.next + (i + 1) = m₁.tree.next + i := by omega
            rw [shift] at new ⊢
            rcases ih levelled.wf listed rest new with ⟨name', known, itsText, above⟩
            refine ⟨name', known, itsText, ?_⟩
            rw [above, if_neg (Nat.succ_ne_zero i)]
            cases i with
            | zero => simp [next]
            | succ i => simp

theorem createPath_unchanged_iff (wf : m.tree.WellFormed) (indexed : m.tree.Indexed e)
    (run : createPath m e names = .ok (m', r)) :
    m'.tree = m.tree ↔ names = [] ∨ m.tree.branchIndex (generatedId m.tree) ≠ none := by
  cases names with
  | nil =>
      simp only [createPath, Except.ok.injEq, Prod.mk.injEq] at run
      simp [run.1]
  | cons name names =>
      rcases createPath_cons wf indexed run with ⟨rfl, _, used⟩ | ⟨m₁, levelled, listed, rest⟩
      · simp [used]
      · have grown := (createPath_extends levelled.wf listed rest).2.1.next_le
        have next := levelled.next
        constructor
        · intro same
          rw [same] at grown
          omega
        · rintro (nothing | used)
          · simp at nothing
          · exact absurd levelled.unused used

/--
What `insert_path` alone leaves behind: the missing levels up to the first for which the id is taken.
Nothing else changes.
-/
structure Map.LeavesPath (m : Map) (parentId : UInt64) (names : List CString) (m' : Map) : Prop where
  alone : ∃ r, insertPath m parentId names = .ok (m', r)
  kept : ∀ parent, m.tree.pathStart parentId = some parent →
    m.tree.Extends (followPath m.tree parent names).1 m'.tree
  levels : ∀ i, m.tree.next + i < m'.tree.next → ∃ parent name,
    m.tree.pathStart parentId = some parent ∧
      (followPath m.tree parent names).2[i]? = some name ∧
      (m'.tree.mem (m.tree.next + i)).text = utf8slice name 5000 ∧
      m'.tree.parent (m.tree.next + i) =
        some (if i = 0 then (followPath m.tree parent names).1 else m.tree.next + i - 1)
  unchanged_iff : m'.tree = m.tree ↔ ∀ parent, m.tree.pathStart parentId = some parent →
    (followPath m.tree parent names).2 = [] ∨ m.tree.branchIndex (generatedId m.tree) ≠ none

theorem insertPath_leaves (wf : m.tree.WellFormed)
    (run : insertPath m parentId names = .ok (m', r)) : m.LeavesPath parentId names m' := by
  rcases start : m.tree.pathStart parentId with _ | parent
  · rw [insertPath_of_no_start start, Except.ok.injEq, Prod.mk.injEq] at run
    rcases run with ⟨rfl, rfl⟩
    refine ⟨⟨none, insertPath_of_no_start start⟩, ?_, ?_, ?_⟩
    · simp [start]
    · intro i new
      omega
    · simp [start]
  · have created := run
    have indexed := wf.pathStart_indexed start
    have indexedE := followPath_indexed wf indexed names
    rw [insertPath_of_start start, insertPathLoop_eq wf indexed] at created
    refine ⟨⟨r, run⟩, ?_, ?_, ?_⟩
    · intro parent' start'
      rw [start, Option.some.injEq] at start'
      subst start'
      exact (createPath_extends wf indexedE created).2.1
    · intro i new
      rcases createPath_levels wf indexedE created new with ⟨name, level⟩
      exact ⟨parent, name, start, level⟩
    · rw [createPath_unchanged_iff wf indexedE created, start]
      simp

/--
Nothing is there for `move_to_path` to move: the path ends early, or the branch is unknown, or it
has no parent, or the path ends at or below the branch.
-/
def Map.NothingToMove (m : Map) (parentId : UInt64) (names : List CString) (branchId : UInt64) :
    Prop :=
  ∀ m₁ x b p, insertPath m parentId names = .ok (m₁, some x) →
    m₁.tree.branchIndex branchId = some b → m₁.tree.parent b = some p → Anc m₁.tree.parent x b

theorem insertInPath_none (wf : m.tree.WellFormed)
    (run : insertInPath m parentId names branchId text mark doc = .ok (m', none)) :
    ∃ r, insertPath m parentId names = .ok (m', r) := by
  rcases insertInPath_stages run with ⟨m₁, x, path, ⟨_, rfl, _⟩ | ⟨e, _, inserted⟩⟩
  · exact ⟨x, path⟩
  · have wf₁ := (insertPath_edits False False wf path).1.wellFormed wf
    rcases insert_cases wf₁ inserted with ⟨rfl, _, _⟩ | ⟨_, _, _, _, _, no⟩
    · exact ⟨x, path⟩
    · simp at no

theorem moveToPath_of_nothingToMove (wf : m.tree.WellFormed)
    (nothing : m.NothingToMove parentId names branchId)
    (run : moveToPath m parentId names branchId = .ok m') :
    ∃ r, insertPath m parentId names = .ok (m', r) := by
  rcases moveToPath_stages run with
    ⟨m₁, x, path, ⟨rfl, _⟩ | ⟨e, b, p, accepted, rfl, known, above, moved⟩⟩
  · exact ⟨x, path⟩
  · rcases insertPath_edits False False wf path with ⟨edits, indexed⟩
    have wf₁ := edits.wellFormed wf
    have below := nothing m₁ e b p path known above
    have retry : moveCheck m₁.tree (m₁.tree.mem e).id (m₁.tree.mem p).id branchId = .retry b p :=
      (moveCheck_retry wf₁).mpr ⟨known, above, e, wf₁.indexed_id (indexed e rfl), .inr below⟩
    simp only [move, retry, Except.ok.injEq, Prod.mk.injEq] at moved
    rw [← moved.1]
    exact ⟨some e, path⟩

/--
A path operation that does not get to its branch leaves the tree, the index, the counter and the
files as `insert_path` alone does.
-/
theorem path_left (wf : m.tree.WellFormed) (parentId : UInt64) (names : List CString)
    (branchId : UInt64) :
    (∀ text mark doc m', insertInPath m parentId names branchId text mark doc = .ok (m', none) →
      m.LeavesPath parentId names m') ∧
    ∀ m', m.NothingToMove parentId names branchId →
      moveToPath m parentId names branchId = .ok m' → m.LeavesPath parentId names m' := by
  constructor
  · intro text mark doc m' run
    rcases insertInPath_none wf run with ⟨r, path⟩
    exact insertPath_leaves wf path
  · intro m' nothing run
    rcases moveToPath_of_nothingToMove wf nothing run with ⟨r, path⟩
    exact insertPath_leaves wf path

end Unused

theorem nothingToMove_unknown : (mapCreateEmpty 1).NothingToMove 0 [cstr "a"] 99 := by
  have unknown : (insertPath (mapCreateEmpty 1) 0 [cstr "a"]).toOption.map
      (fun s => s.1.tree.branchIndex 99) = some none := by
    decide +kernel
  intro m₁ x b p path known
  simp [path, Except.toOption, known] at unknown

/-- A new map asked for a path to a branch whose id is taken, and to one that is not there. -/
theorem path_left_example :
    ∃ m₁ m₂, insertInPath (mapCreateEmpty 1) 0 [cstr "a"] 1 [] 0 0 = .ok (m₁, none) ∧
      (mapCreateEmpty 1).LeavesPath 0 [cstr "a"] m₁ ∧
      (mapCreateEmpty 1).NothingToMove 0 [cstr "a"] 99 ∧
      moveToPath (mapCreateEmpty 1) 0 [cstr "a"] 99 = .ok m₂ ∧
      (mapCreateEmpty 1).LeavesPath 0 [cstr "a"] m₂ := by
  have wf := (mapCreateEmpty_holdsOnlyRoot 1).wellFormed
  have refused : (insertInPath (mapCreateEmpty 1) 0 [cstr "a"] 1 [] 0 0).toOption.map Prod.snd =
      some none := by
    decide +kernel
  have ends : (moveToPath (mapCreateEmpty 1) 0 [cstr "a"] 99).toBool = true := by
    decide +kernel
  have nothing := nothingToMove_unknown
  rcases first : insertInPath (mapCreateEmpty 1) 0 [cstr "a"] 1 [] 0 0 with fault | ⟨m₁, r⟩
  · simp [first, Except.toOption] at refused
  · simp only [first, Except.toOption, Option.map_some, Option.some.injEq] at refused
    subst refused
    rcases second : moveToPath (mapCreateEmpty 1) 0 [cstr "a"] 99 with fault | m₂
    · simp [second, Except.toBool] at ends
    · exact ⟨m₁, m₂, rfl, (path_left wf 0 [cstr "a"] 1).1 [] 0 0 m₁ first, nothing, rfl,
        (path_left wf 0 [cstr "a"] 99).2 m₂ nothing second⟩

/-- The level `a` stays although the id of the branch to add is taken, or the branch to move is unknown. -/
theorem path_stays :
    (¬∀ (calls : List Call) (m m' : Map) (parentId : UInt64) (names : List CString)
      (branchId : UInt64) (text : CString) (mark doc : UInt64),
      (mapCreateEmpty 1).run calls = .ok m →
      insertInPath m parentId names branchId text mark doc = .ok (m', none) → m'.tree = m.tree) ∧
    ¬∀ (calls : List Call) (m m' : Map) (parentId : UInt64) (names : List CString)
      (branchId : UInt64), (mapCreateEmpty 1).run calls = .ok m →
      m.NothingToMove parentId names branchId →
      moveToPath m parentId names branchId = .ok m' → m'.tree = m.tree := by
  constructor
  · intro undone
    have refused : (insertInPath (mapCreateEmpty 1) 0 [cstr "a"] 1 [] 0 0).toOption.map
        (fun s => (s.2, s.1.tree.branchN)) = some (none, 2) := by
      decide +kernel
    rcases run : insertInPath (mapCreateEmpty 1) 0 [cstr "a"] 1 [] 0 0 with fault | ⟨m', r⟩
    · simp [run, Except.toOption] at refused
    · simp only [run, Except.toOption, Option.map_some, Option.some.injEq, Prod.mk.injEq] at refused
      rcases refused with ⟨rfl, grown⟩
      rw [undone [] _ m' 0 [cstr "a"] 1 [] 0 0 rfl run] at grown
      exact absurd grown (by decide +kernel)
  · intro undone
    have kept : (moveToPath (mapCreateEmpty 1) 0 [cstr "a"] 99).toOption.map
        (fun m => m.tree.branchN) = some 2 := by
      decide +kernel
    rcases run : moveToPath (mapCreateEmpty 1) 0 [cstr "a"] 99 with fault | m'
    · simp [run, Except.toOption] at kept
    · simp only [run, Except.toOption, Option.map_some, Option.some.injEq] at kept
      rw [undone [] _ m' 0 [cstr "a"] 99 rfl nothingToMove_unknown run] at kept
      exact absurd kept (by decide +kernel)

end Treedb
