import Treedb.Path
import Treedb.View.Unborn

/-!
# Generated ids

A missing level of a path is inserted under an id made from `branch_n`: high word 1, low word the
counter. The counter grows with every new branch, so an id is not generated twice before the counter
overflows. But nothing keeps a client from choosing such an id for a branch of its own, and
`insert_path` does not look for another one: the level, and with it the path, is refused then.
`generate_branch_id`, which was to check the index, is an empty stub.

As long as no accepted insert carries an id with the high word 1 and a low word beyond the counter,
every generated id is unused. A path below a branch that is there is then always completed, unless
a child list is full.
-/

namespace Treedb

open Forest Overlay Outcome Treedb.Tree

/-! ## Inserting without a view -/

section Total

variable {t : Tree} {o o' : Overlay} {nb pb : BranchPtr} {parentId : UInt64} {pos : UInt32}
  {x y : VbranchPtr}

/-- A list with room takes one more child, and no other list changes. -/
theorem vbranchAdd_room (room : (o.vchildren y).length < 65535) :
    ∃ o', vbranchAdd t o x y = .ok o' ∧ ∀ z, z ≠ y → o'.vchildren z = o.vchildren z := by
  have same : ∀ z, ((o.modify x fun vb => { vb with parent := some y }).vmem z).childList =
      o.vchildren z := by
    intro z
    rw [modify_vmem]
    split <;> rfl
  unfold vbranchAdd
  simp only [same]
  rw [childsWith_eq _ _ _ room.le, if_neg room.ne]
  refine ⟨_, rfl, ?_⟩
  intro z other
  rw [vchildren, modify_vmem, if_neg other]
  exact same z

theorem branchAttachVbranch_vchildren (o : Overlay) (b : BranchPtr) (x z : VbranchPtr) :
    (branchAttachVbranch o b x).vchildren z = o.vchildren z := by
  rw [branchAttachVbranch, vchildren, vchildren]
  dsimp only
  rw [modify_vmem]
  split <;> rfl

/-- A vbranch of the parent that is not full takes the new branch, or stays folded. -/
theorem insertVbranch_room {pvb : VbranchPtr} (made : pvb.cell < o.vnext)
    (room : (o.vchildren pvb).length < 65535) (t : Tree) (parentId : UInt64) (nb : BranchPtr)
    (pos : UInt32) :
    ∃ o', insertVbranch t none parentId nb pos o pvb = .ok o' ∧ o.vnext ≤ o'.vnext ∧
      (∀ z, z ≠ pvb → o'.vchildren z = o.vchildren z ∨ o.vnext ≤ z.cell ∧ o'.vchildren z = []) ∧
      ∀ vb ∈ o'.vbranchList nb, vb ∈ o.vbranchList nb ∨ o.vnext ≤ vb.cell ∧ o'.vchildren vb = [] := by
  by_cases folded : (o.vmem pvb).childList = []
  · exact ⟨o, by simp [insertVbranch, folded], le_rfl, fun z _ => .inl rfl, fun vb old => .inl old⟩
  · have old : pvb ≠ ⟨pvb.view, o.vnext⟩ := fun same => made.ne (congrArg VbranchPtr.cell same)
    obtain ⟨o₀, new, lists, cells, shown⟩ : ∃ o₀,
        vbranchIndexPut t (vbranchNew o pvb.view { branch := nb, parent := some pvb }).1 pvb.view
          (vbranchNew o pvb.view { branch := nb, parent := some pvb }).2 = o₀ ∧
        o₀.vbranchList = o.vbranchList ∧ o₀.vnext = o.vnext + 1 ∧
        ∀ z, o₀.vchildren z = if z = ⟨pvb.view, o.vnext⟩ then [] else o.vchildren z := by
      refine ⟨_, rfl, rfl, rfl, ?_⟩
      intro z
      simp only [vbranchIndexPut, vbranchNew, vchildren, Function.update_apply]
      split <;> rfl
    have room₀ : (o₀.vchildren pvb).length < 65535 := by
      rw [shown, if_neg old]
      exact room
    rcases vbranchAdd_room (t := t) (x := ⟨pvb.view, o.vnext⟩) room₀ with ⟨o₁, added, others⟩
    have kept := vbranchAdd_keeps added
    have empty : o₁.vchildren ⟨pvb.view, o.vnext⟩ = [] := by
      rw [others _ old.symm, shown, if_pos rfl]
    obtain ⟨msg, ends⟩ : ∃ msg, insertVbranch t none parentId nb pos o pvb =
        .ok ((branchAttachVbranch o₁ nb ⟨pvb.view, o.vnext⟩).push msg) := by
      simp only [insertVbranch, ne_eq, reduceCtorEq, not_false_eq_true, true_and, folded, if_false,
        new, if_true]
      rw [show (vbranchNew o pvb.view { branch := nb, parent := some pvb }).2 =
        ⟨pvb.view, o.vnext⟩ from rfl, added, ok_bind]
      exact ⟨_, rfl⟩
    have lists' : ∀ z, ((branchAttachVbranch o₁ nb ⟨pvb.view, o.vnext⟩).push msg).vchildren z =
        o₁.vchildren z := branchAttachVbranch_vchildren _ _ _
    have later : o.vnext ≤ o₁.vnext := by
      have bound := kept.cells
      omega
    refine ⟨_, ends, later, ?_, ?_⟩
    · intro z other
      rw [lists', others z other, shown]
      split
      · rename_i isNew
        rw [isNew]
        exact .inr ⟨le_rfl, rfl⟩
      · exact .inl rfl
    · intro vb member
      rw [lists']
      simp only [branchAttachVbranch, push, Function.update_self, List.mem_append,
        List.mem_singleton, kept.lists, lists] at member
      rcases member with before | isNew
      · exact .inl before
      · rw [isNew]
        exact .inr ⟨le_rfl, empty⟩

/-- The round over the vbranches of the parent ends, and leaves the new branch folded everywhere. -/
theorem insertVbranch_all_room {k : ℕ} {list : List VbranchPtr} (nodup : list.Nodup)
    (made : ∀ vb ∈ list, vb.cell < k) (above : k ≤ o.vnext)
    (room : ∀ vb ∈ list, (o.vchildren vb).length < 65535)
    (folded : ∀ vb ∈ o.vbranchList nb, k ≤ vb.cell ∧ o.vchildren vb = []) (t : Tree)
    (parentId : UInt64) (pos : UInt32) :
    ∃ o', list.foldlM (insertVbranch t none parentId nb pos) o = .ok o' ∧
      ∀ vb ∈ o'.vbranchList nb, o'.vchildren vb = [] := by
  induction list generalizing o with
  | nil => exact ⟨o, rfl, fun vb member => (folded vb member).2⟩
  | cons pvb list ih =>
      simp only [List.nodup_cons, List.mem_cons, forall_eq_or_imp] at nodup made room
      rcases insertVbranch_room (made.1.trans_le above) room.1 t parentId nb pos with
        ⟨o₁, taken, cells, others, new⟩
      rw [List.foldlM_cons, taken, ok_bind]
      refine ih nodup.2 made.2 (above.trans cells) ?_ ?_
      · intro vb member
        have other : vb ≠ pvb := fun same => nodup.1 (same ▸ member)
        rcases others vb other with same | ⟨late, _⟩
        · rw [same]
          exact room.2 vb member
        · exact absurd ((made.2 vb member).trans_le above) (not_lt.mpr late)
      · intro vb member
        rcases new vb member with old | ⟨late, empty⟩
        · rcases folded vb old with ⟨late, empty⟩
          have other : vb ≠ pvb := fun same => absurd made.1 (not_lt.mpr (same ▸ late))
          rcases others vb other with same | ⟨_, empty'⟩
          · exact ⟨late, same.trans empty⟩
          · exact ⟨late, empty'⟩
        · exact ⟨above.trans late, empty⟩

end Total

/-- There is room for one more child of `b`, in the tree and in every view. -/
structure Map.RoomBelow (m : Map) (b : BranchPtr) : Prop where
  children : (m.tree.children b).length < 65535
  vchildren : ∀ vb ∈ m.overlay.vbranchList b, (m.overlay.vchildren vb).length < 65535

section Insert

variable {m m' : Map} {pb : BranchPtr} {parentId branchId : UInt64} {r : Option BranchPtr}

/-- An insert without a view ends, whatever the views are, and leaves room below the new branch. -/
theorem insert_room (wf : m.tree.WellFormed) (oneRoot : m.tree.OneRoot) (unborn : m.Unborn)
    (known : m.tree.branchIndex parentId = some pb) (room : m.RoomBelow pb) (branchId : UInt64)
    (pos : UInt32) (text : CString) (mark doc : UInt64) :
    ∃ m' r, insert m none parentId branchId pos text mark doc = .ok (m', r) ∧
      ∀ b, r = some b → m'.RoomBelow b := by
  rcases unused : m.tree.branchIndex branchId with _ | b
  · have indexed : m.tree.Indexed pb := ⟨parentId, known⟩
    have grown := wf.insertBranch_eq indexed branchId pos text mark doc
    rw [if_neg room.children.ne] at grown
    have allowed : (Edit.grow pb (m.tree.newBranch branchId text mark doc)
        (insertPos pos.toInt32.toInt (m.tree.children pb).length)).Allowed m.tree :=
      ⟨newBranch_fresh .., rfl, indexed, unused, room.children, insertPos_le _ _⟩
    have parents := wf.grow_apply allowed pb
    have lists := wf.grow_apply_children allowed m.tree.next
    have root := Edit.apply_branch m.tree (Edit.grow pb (m.tree.newBranch branchId text mark doc)
      (insertPos pos.toInt32.toInt (m.tree.children pb).length))
    generalize (Edit.grow pb (m.tree.newBranch branchId text mark doc)
      (insertPos pos.toInt32.toInt (m.tree.children pb).length)).apply m.tree = t' at *
    have bare : ∀ vb ∈ m.overlay.vbranchList m.tree.next,
        m.overlay.vnext ≤ vb.cell ∧ m.overlay.vchildren vb = [] := by
      rw [unborn.bare _ le_rfl]
      simp
    rcases insertVbranch_all_room (unborn.nodup pb) (unborn.made pb) le_rfl room.vchildren bare t'
      parentId pos with ⟨o₁, shown, folded⟩
    have found : t'.parent pb = none → ∀ vb ∈ o₁.vbranchList t'.branch,
        some vb.view = none ∨ viewGetVbranch o₁ vb.view pb ≠ none := by
      refine fun top vb member => .inr fun hidden => ?_
      rw [parents.1, if_neg (wf.indexed_lt indexed).ne] at top
      rw [oneRoot pb indexed top, ← root, viewGetVbranch, List.find?_eq_none] at hidden
      exact hidden vb member (by simp)
    rcases insertCount_all_ok_iff.mpr found with ⟨o₂, counted⟩
    rcases insertCount_all_frame counted with ⟨same, mem⟩
    refine ⟨{ m with tree := t', overlay := o₂ }, some m.tree.next, ?_, ?_⟩
    · simp only [insert, branchIndexGet, unused, known, insertExpand, ok_bind, grown, shown, counted]
      rfl
    · intro b new
      rw [Option.some.injEq] at new
      subst new
      constructor
      · rw [lists, if_neg (wf.indexed_lt indexed).ne', wf.next_children]
        decide
      · intro vb member
        rw [same] at member
        rw [show ({ m with tree := t', overlay := o₂ } : Map).overlay.vchildren vb =
          o₁.vchildren vb from congrArg (fun mem => (mem vb).childList) mem, folded vb member]
        decide
  · refine ⟨m, none, ?_, by simp⟩
    simp [insert, branchIndexGet, unused]

end Insert

/-! ## The counter and the ids -/

/--
With `c` slots taken up before, every branch that was made was counted, and an indexed id with the
high word 1 has a low word that was passed.
-/
structure Tree.Numbered (c : ℕ) (t : Tree) : Prop where
  counter : t.branchN = UInt32.ofNat (c + t.next)
  passed : ∀ k b, t.branchIndex k = some b → k.toNat / 2 ^ 32 = 1 → k.toNat % 2 ^ 32 < c + t.next

/-- An id for which no later level of a path is taken: its low word is not beyond the counter. -/
def Tree.Passes (t : Tree) (branchId : UInt64) : Prop :=
  branchId.toNat / 2 ^ 32 = 1 → branchId.toNat % 2 ^ 32 ≤ t.branchN.toNat

instance (t : Tree) (branchId : UInt64) : Decidable (t.Passes branchId) :=
  inferInstanceAs (Decidable (_ → _))

/--
No insert that is accepted takes an id that is still to be generated. For an insert at the end of a
path the counter has passed the levels that are missing.
-/
def Call.AvoidsGenerated (t : Tree) : Call → Prop
  | .insert _ parentId branchId _ _ _ _ => t.Accepts parentId branchId → t.Passes branchId
  | .insertInPath parentId names branchId _ _ _ =>
      ∀ parent, t.pathStart parentId = some parent → t.OpensPath parent names →
        (t.numberedFrom (followPath t parent names).2.length).Passes branchId
  | _ => True

/-- No vbranch of a view that was destroyed is left at a branch of the index. -/
def Map.ViewsAlive (m : Map) : Prop :=
  ∀ b, m.tree.Indexed b → ∀ vb ∈ m.overlay.vbranchList b,
    ∃ id, viewIndexGet m.overlay id = some vb.view

theorem Overlay.NoViews.viewsAlive {m : Map} (none' : m.overlay.NoViews) : m.ViewsAlive := by
  intro b _ vb member
  simp [none'.lists b] at member

section Numbered

variable {c : ℕ} {t t' : Tree} {m m' : Map} {parent e b p : BranchPtr} {name : CString}
  {names : List CString} {r : Option BranchPtr} {parentId branchId : UInt64}

theorem Tree.Numbered.congr (numbered : t.Numbered c) (next : t'.next = t.next)
    (branchN : t'.branchN = t.branchN)
    (index : ∀ k b, t'.branchIndex k = some b → t.branchIndex k = some b) : t'.Numbered c where
  counter := by rw [branchN, next, numbered.counter]
  passed k b found := by
    rw [next]
    exact numbered.passed k b (index k b found)

theorem Tree.Numbered.counter_le (numbered : t.Numbered c) : t.branchN.toNat ≤ c + t.next := by
  rw [numbered.counter, UInt32.toNat_ofNat']
  exact Nat.mod_le _ _

/-- Before the counter overflows, ids from the counter on are unused. -/
theorem Tree.Numbered.unused (numbered : t.Numbered c) (small : c + t.next < 2 ^ 32) {k : UInt64}
    (high : k.toNat / 2 ^ 32 = 1) (low : t.branchN.toNat ≤ k.toNat % 2 ^ 32) :
    t.branchIndex k = none := by
  rcases found : t.branchIndex k with _ | b
  · rfl
  · have passed := numbered.passed k b found high
    rw [numbered.counter, UInt32.toNat_ofNat', Nat.mod_eq_of_lt small] at low
    omega

theorem Tree.Numbered.generated_unused (numbered : t.Numbered c) (small : c + t.next < 2 ^ 32) :
    t.branchIndex (generatedId t) = none := by
  have value := generatedId_toNat t
  have bound := t.branchN.toNat_lt
  apply numbered.unused small <;> omega

/-- One more branch, with an id that was not still to come. -/
theorem Tree.Numbered.more (numbered : t.Numbered c) (next : t'.next = t.next + 1)
    (branchN : t'.branchN = t.branchN + 1)
    (index : ∀ k b, t'.branchIndex k = some b → t.Passes k ∨ t.branchIndex k = some b) :
    t'.Numbered c := by
  constructor
  · rw [branchN, next, numbered.counter, ← Nat.add_assoc]
    exact (UInt32.ofNat_add (c + t.next) 1).symm
  · intro k b found high
    have bound := numbered.counter_le
    rw [next]
    rcases index k b found with passes | before
    · have low := passes high
      omega
    · have low := numbered.passed k b before high
      omega

theorem Tree.Numbered.grow {pb : BranchPtr} {new : Branch} {i : ℕ} (numbered : t.Numbered c)
    (passes : t.Passes new.id) : ((Edit.grow pb new i).apply t).Numbered c := by
  refine numbered.more (Edit.grow_apply_next t pb new i)
    (Edit.apply_fields t (.grow pb new i)).2.2.2.2.1 ?_
  intro k b found
  rw [Edit.grow_apply_index, grow_index] at found
  split at found
  · rename_i isNew
    exact .inl (isNew ▸ passes)
  · exact .inr found

theorem Tree.passes_generatedId (t : Tree) : t.Passes (generatedId t) := by
  intro _
  have value := generatedId_toNat t
  have bound := t.branchN.toNat_lt
  omega

theorem Tree.Numbered.insert {view : Option ViewPtr} {pos : UInt32} {text : CString}
    {mark doc : UInt64} (numbered : m.tree.Numbered c) (wf : m.tree.WellFormed)
    (passes : m.tree.Accepts parentId branchId → m.tree.Passes branchId)
    (run : insert m view parentId branchId pos text mark doc = .ok (m', r)) :
    m'.tree.Numbered c := by
  rcases insert_cases wf run with ⟨rfl, _⟩ | ⟨pb, known, unused, _, after, _⟩
  · exact numbered
  · rw [after]
    exact numbered.grow (passes ⟨unused, pb, known⟩)

theorem Tree.Numbered.level (numbered : t.Numbered c) (levelled : t.Levelled t' parent name) :
    t'.Numbered c := by
  refine numbered.more levelled.next levelled.branchN ?_
  intro k b found
  rw [levelled.index] at found
  split at found
  · rename_i isNew
    exact .inl (isNew ▸ t.passes_generatedId)
  · exact .inr found

theorem Tree.Numbered.createPath (numbered : m.tree.Numbered c) (wf : m.tree.WellFormed)
    (indexed : m.tree.Indexed e) (run : createPath m e names = .ok (m', r)) :
    m'.tree.Numbered c := by
  induction names generalizing m e with
  | nil =>
      rw [← (Prod.mk.inj (Except.ok.inj run)).1]
      exact numbered
  | cons name names ih =>
      rcases createPath_cons wf indexed run with ⟨rfl, _⟩ | ⟨m₁, levelled, listed, rest⟩
      · exact numbered
      · exact ih (numbered.level levelled) levelled.wf listed rest

theorem Tree.Numbered.insertPath (numbered : m.tree.Numbered c) (wf : m.tree.WellFormed)
    (run : insertPath m parentId names = .ok (m', r)) : m'.tree.Numbered c := by
  rcases start : m.tree.pathStart parentId with _ | parent
  · rw [insertPath_of_no_start start] at run
    rw [← (Prod.mk.inj (Except.ok.inj run)).1]
    exact numbered
  · have indexed := wf.pathStart_indexed start
    rw [insertPath_of_start start, insertPathLoop_eq wf indexed] at run
    exact numbered.createPath wf (followPath_indexed wf indexed names) run

theorem Tree.Numbered.move {view : Option ViewPtr} {newParentId oldParentId : UInt64} {pos : UInt16}
    {accepted : Bool} (numbered : m.tree.Numbered c) (wf : m.tree.WellFormed)
    (run : move m view newParentId oldParentId branchId pos = .ok (m', accepted)) :
    m'.tree.Numbered c := by
  by_cases accept : ∃ b opb npb,
      moveCheck m.tree newParentId oldParentId branchId = .accept b opb npb
  · rcases accept with ⟨b, opb, npb, accept⟩
    rw [(move_of_accept wf accept run).2.1]
    exact numbered.congr rfl rfl fun _ _ found => found
  · rw [(move_of_not_accept (fun b opb npb yes => accept ⟨b, opb, npb, yes⟩) run).1]
    exact numbered

theorem Tree.Numbered.delete {view : Option ViewPtr} (numbered : m.tree.Numbered c)
    (wf : m.tree.WellFormed) (run : delete m view branchId = .ok m') : m'.tree.Numbered c := by
  by_cases found : ∃ b p, m.tree.branchIndex branchId = some b ∧ m.tree.parent b = some p
  · rcases found with ⟨b, p, found, above⟩
    rcases delete_of_found False False wf found above run with ⟨m₁, emptied, _, _, after⟩
    have moved : m₁.tree.Numbered c := (deleteChildren_invariant (R := fun m => m.tree.Numbered c) _ _
      (fun _ _ _ _ wf₁ _ _ before step => before.move wf₁ step) wf above numbered emptied).1
    rw [after]
    refine moved.congr rfl rfl ?_
    intro k x stored
    have erased : (m₁.tree.forget b p).branchIndex k = some x := stored
    rw [forget_index] at erased
    split at erased
    · simp at erased
    · exact erased
  · rw [delete_of_not_found (fun b p known above => found ⟨b, p, known, above⟩) run]
    exact numbered

theorem Tree.Numbered.call {call : Call} (numbered : m.tree.Numbered c) (wf : m.tree.WellFormed)
    (avoids : call.AvoidsGenerated m.tree) (run : m.call call = .ok m') : m'.tree.Numbered c := by
  have unchanged : call.ReadsTree → m'.tree.Numbered c := by
    intro reads
    rw [call_tree reads run]
    exact numbered
  cases call with
  | insert viewId parentId branchId pos text mark doc =>
      rcases map_eq_ok.mp run with ⟨⟨m₁, r⟩, inserted, rfl⟩
      exact numbered.insert wf avoids inserted
  | insertInPath parentId names branchId text mark doc =>
      rcases map_eq_ok.mp run with ⟨⟨m₁, r⟩, ran, rfl⟩
      rcases insertInPath_stages ran with ⟨m₂, x, path, ⟨_, rfl, _⟩ | ⟨e, rfl, inserted⟩⟩
      · exact numbered.insertPath wf path
      · have wf₂ := (insertPath_edits False False wf path).1.wellFormed wf
        refine (numbered.insertPath wf path).insert wf₂ (fun _ => ?_) inserted
        rcases insertPath_opens wf path with ⟨parent, start, opens⟩
        have indexed := wf.pathStart_indexed start
        rw [insertPath_of_start start, insertPathLoop_eq wf indexed] at path
        have passes := avoids parent start opens
        rw [Tree.Passes, ← createPath_branchN wf (followPath_indexed wf indexed names) path] at passes
        exact passes
  | move viewId newParentId oldParentId branchId pos =>
      rcases map_eq_ok.mp run with ⟨⟨m₁, accepted⟩, moved, rfl⟩
      exact numbered.move wf moved
  | moveToPath parentId names branchId =>
      rcases moveToPath_stages run with ⟨m₂, x, path, ⟨rfl, _⟩ | ⟨e, b, p, accepted, _, _, _, moved⟩⟩
      · exact numbered.insertPath wf path
      · have wf₂ := (insertPath_edits False False wf path).1.wellFormed wf
        exact (numbered.insertPath wf path).move wf₂ moved
  | delete viewId branchId => exact numbered.delete wf run
  | update viewId branchId text doc =>
      rw [← Except.ok.inj run]
      unfold update
      split
      · exact numbered
      · rcases ioSaveBranchData_fields (m.tree.modify _ _) _ with ⟨_, next, _, index, branchN, _⟩
        exact numbered.congr next branchN fun k b found => (congrFun index k).symm.trans found
  | initView | destroyView | visible | invisible | expandTo | branchUnfold => exact unchanged trivial

end Numbered

/-! ## Paths are completed -/

/-- The state in which a path is made: the counter is in step and nothing is attached too early. -/
structure Map.Steady (c : ℕ) (m : Map) : Prop where
  wf : m.tree.WellFormed
  oneRoot : m.tree.OneRoot
  unborn : m.Unborn
  numbered : m.tree.Numbered c

section Complete

variable {c : ℕ} {m m' : Map} {parent e x : BranchPtr} {name : CString} {names : List CString}
  {parentId branchId : UInt64}

theorem Map.Steady.run {calls : List Call} (steady : m.Steady c)
    (avoids : m.Along (fun m call => m.ViewsAlive ∧ call.AvoidsGenerated m.tree) calls)
    (run : m.run calls = .ok m') : m'.Steady c := by
  refine run_invariant ?_ steady.wf steady avoids run
  intro m₁ call m₂ _ before ⟨_, avoids₁⟩ step
  exact
    { wf := call_wellFormed before.wf step
      oneRoot := before.oneRoot.edits before.wf
        (call_edits False False before.wf False.elim False.elim step)
      unborn := before.unborn.call before.wf step
      numbered := before.numbered.call before.wf avoids₁ step }

theorem Map.Steady.counter (steady : m.Steady c) (small : c + m.tree.next < 2 ^ 32) :
    m.tree.branchN.toNat = c + m.tree.next := by
  rw [steady.numbered.counter, UInt32.toNat_ofNat', Nat.mod_eq_of_lt small]

/-- A level is added wherever there is room for it. -/
theorem Map.Steady.insert_level (steady : m.Steady c) (small : c + m.tree.next < 2 ^ 32)
    (indexed : m.tree.Indexed e) (room : m.RoomBelow e) (name : CString) :
    ∃ m₁, insert m none (m.tree.mem e).id (generatedId m.tree) 999999 name 0 0 =
        .ok (m₁, some m.tree.next) ∧
      m₁.Steady c ∧ m.tree.Levelled m₁.tree e name ∧ m₁.RoomBelow m.tree.next := by
  rcases insert_room steady.wf steady.oneRoot steady.unborn (steady.wf.indexed_id indexed) room
    (generatedId m.tree) 999999 name 0 0 with ⟨m₁, r, made, roomy⟩
  rcases Treedb.insert_level steady.wf indexed made with ⟨_, _, used⟩ | ⟨rfl, allowed, after⟩
  · exact absurd (steady.numbered.generated_unused small) used
  · have levelled := steady.wf.levelled allowed
    have oneRoot := steady.oneRoot.apply steady.wf allowed
    rw [← after] at levelled oneRoot
    exact ⟨m₁, made, ⟨levelled.wf, oneRoot, steady.unborn.insert steady.wf made,
      steady.numbered.level levelled⟩, levelled, roomy _ rfl⟩

/-- All levels are added; the ids used up are those that follow the counter. -/
theorem Map.Steady.createPath (steady : m.Steady c)
    (small : c + m.tree.next + names.length < 2 ^ 32) (indexed : m.tree.Indexed e)
    (room : m.RoomBelow e) :
    ∃ m' x, createPath m e names = .ok (m', some x) ∧ m'.Steady c ∧ m'.RoomBelow x ∧
      ∀ k, m'.tree.branchIndex k = none ↔ m.tree.branchIndex k = none ∧
        ¬∃ i < names.length, k.toNat = 2 ^ 32 + m.tree.branchN.toNat + i := by
  induction names generalizing m e with
  | nil => exact ⟨m, e, rfl, steady, room, by simp⟩
  | cons name names ih =>
      rw [List.length_cons] at small
      have counter := steady.counter (by omega)
      rcases steady.insert_level (by omega) indexed room name with
        ⟨m₁, made, steady₁, levelled, room₁⟩
      have next := levelled.next
      have counter₁ := steady₁.counter (by omega)
      have listed : m₁.tree.Indexed m.tree.next :=
        ⟨generatedId m.tree, by rw [levelled.index, if_pos rfl]⟩
      rcases ih steady₁ (by omega) listed room₁ with ⟨m', x, run, steady', room', index⟩
      refine ⟨m', x, ?_, steady', room', ?_⟩
      · simp only [Treedb.createPath, made, ok_bind, run]
      · intro k
        have value := generatedId_toNat m.tree
        have same : k = generatedId m.tree ↔ k.toNat = 2 ^ 32 + m.tree.branchN.toNat := by
          rw [← value, UInt64.toNat_inj]
        rw [index, levelled.index, counter₁, next, List.length_cons]
        constructor
        · rintro ⟨unused, later⟩
          split at unused
          · simp at unused
          · rename_i other
            refine ⟨unused, ?_⟩
            rintro ⟨i, inside, taken⟩
            cases i with
            | zero => exact other (same.mpr taken)
            | succ i => exact later ⟨i, by omega, by omega⟩
        · rintro ⟨unused, never⟩
          refine ⟨?_, ?_⟩
          · rw [if_neg]
            · exact unused
            · intro isNew
              exact never ⟨0, by omega, same.mp isNew⟩
          · rintro ⟨i, inside, taken⟩
            exact never ⟨i + 1, by omega, by omega⟩

/--
In a run whose accepted inserts take no id that is still to be generated, the ids that follow the
counter stay unused. A path below a branch that is there is then completed, and `insert_in_path`
stores an unused id, unless the path itself has just used it up.

The model lets the memory of a destroyed view be read. That the attached vbranches belong to views
that are alive keeps the run where the code does not read such memory.
-/
theorem run_insertPath_complete {m₀ : Map} {calls : List Call} (start : m₀.Steady c)
    (avoids : m₀.Along (fun m call => m.ViewsAlive ∧ call.AvoidsGenerated m.tree) calls)
    (run : m₀.run calls = .ok m) (_alive : m.ViewsAlive)
    (live : m.tree.pathStart parentId = some parent)
    (small : c + m.tree.next + names.length < 2 ^ 32)
    (room : m.RoomBelow (followPath m.tree parent names).1) :
    (∀ k : UInt64, k.toNat / 2 ^ 32 = 1 → m.tree.branchN.toNat ≤ k.toNat % 2 ^ 32 →
      m.tree.branchIndex k = none) ∧
    (∃ m' x, insertPath m parentId names = .ok (m', some x) ∧
      m'.tree.NamedPath parent names x) ∧
    ∀ branchId text mark doc, m.tree.branchIndex branchId = none →
      ((∃ m' b, insertInPath m parentId names branchId text mark doc = .ok (m', some b) ∧
          m'.tree.branchIndex branchId = some b) ↔
        ¬∃ i < (followPath m.tree parent names).2.length,
          branchId.toNat = 2 ^ 32 + m.tree.branchN.toNat + i) := by
  have steady := start.run avoids run
  have indexed := steady.wf.pathStart_indexed live
  have indexedE := followPath_indexed steady.wf indexed names
  have shorter := (followPath_suffix m.tree parent names).length_le
  have small' : c + m.tree.next + (followPath m.tree parent names).2.length < 2 ^ 32 := by omega
  rcases steady.createPath small' indexedE room with ⟨m₁, x, created, steady₁, room₁, index⟩
  have path : insertPath m parentId names = .ok (m₁, some x) := by
    rw [insertPath_of_start live, insertPathLoop_eq steady.wf indexed, created]
  have indexedX := (insertPath_edits False False steady.wf path).2 x rfl
  refine ⟨fun k high low => steady.numbered.unused (by omega) high low, ⟨m₁, x, path, ?_⟩, ?_⟩
  · rw [insertPath_of_start live] at path
    exact (insertPathLoop_spec steady.wf indexed path).2.2.1
  · intro branchId text mark doc unused
    have left := index branchId
    rw [unused] at left
    simp only [true_and] at left
    rw [← left]
    rcases insert_room steady₁.wf steady₁.oneRoot steady₁.unborn
      (steady₁.wf.indexed_id indexedX) room₁ branchId 999999 text mark doc with
      ⟨m₂, r, inserted, _⟩
    have whole : insertInPath m parentId names branchId text mark doc = .ok (m₂, r) := by
      rw [insertInPath, path, ok_bind]
      exact inserted
    rw [whole]
    rcases insert_cases steady₁.wf inserted with
      ⟨rfl, rfl, rejects⟩ | ⟨pb, known, free, _, after, rfl⟩
    · constructor
      · rintro ⟨m', b, no, _⟩
        simp at no
      · intro free
        exact absurd ⟨free, x, steady₁.wf.indexed_id indexedX⟩ rejects
    · refine ⟨fun _ => free, fun _ => ⟨m₂, m₁.tree.next, rfl, ?_⟩⟩
      rw [after, Edit.grow_apply_index, grow_index]
      exact if_pos rfl

end Complete

theorem mapCreateEmpty_steady (id : UInt32) : (mapCreateEmpty id).Steady 0 := by
  have start := mapCreateEmpty_holdsOnlyRoot id
  have wf := start.wellFormed
  refine ⟨wf, ?_, ⟨?_, ?_, ?_⟩, rfl, ?_⟩
  · rintro b ⟨k, found⟩ _
    rw [start.index] at found
    split at found
    · rw [start.root]
      exact (Option.some.inj found).symm
    · simp at found
  · intro b _
    exact start.views.lists b
  · intro b vb member
    rw [start.views.lists] at member
    simp at member
  · intro b
    rw [start.views.lists]
    exact List.nodup_nil
  · intro k b found high
    rw [start.index] at found
    split at found
    · rename_i isRoot
      rw [isRoot, mapCreateEmpty_mem] at high
      exact absurd high (by decide +kernel)
    · simp at found

/-- A path of two levels below a branch that a client inserted. -/
theorem run_insertPath_complete_example :
    ∃ m m' x, (mapCreateEmpty 1).run [.insert 0 1 2 0 [] 0 0] = .ok m ∧
      insertPath m 2 [cstr "a", cstr "b"] = .ok (m', some x) ∧
      m'.tree.NamedPath 1 [cstr "a", cstr "b"] x ∧
      ∃ m'' b, insertInPath m 2 [cstr "a", cstr "b"] 3 [] 0 0 = .ok (m'', some b) ∧
        m''.tree.branchIndex 3 = some b := by
  have observed : ((mapCreateEmpty 1).run [.insert 0 1 2 0 [] 0 0]).toOption.map (fun m =>
      (m.tree.pathStart 2, m.tree.branchIndex 3, m.tree.next, m.tree.children 1)) =
        some (some 1, none, 2, []) := by
    decide +kernel
  have attached : ((mapCreateEmpty 1).run [.insert 0 1 2 0 [] 0 0]).toOption.map (fun m =>
      m.overlay.vbranchList 1) = some [] := by
    decide +kernel
  rcases run : (mapCreateEmpty 1).run [.insert 0 1 2 0 [] 0 0] with fault | m
  · simp [run, Except.toOption] at observed
  · simp only [run, Except.toOption, Option.map_some, Option.some.injEq, Prod.mk.injEq]
      at observed attached
    rcases observed with ⟨live, unused, next, empty⟩
    have start := mapCreateEmpty_holdsOnlyRoot 1
    have avoids : (mapCreateEmpty 1).Along (fun m call => m.ViewsAlive ∧ call.AvoidsGenerated m.tree)
        [.insert 0 1 2 0 [] 0 0] :=
      ⟨⟨start.views.viewsAlive, fun _ high => absurd high (by decide)⟩, fun _ _ => trivial⟩
    have none' := run_noViews start.wellFormed start.views (by simp [Call.EditsTree]) run
    have steady := (mapCreateEmpty_steady 1).run avoids run
    have missing := followPath_childless steady.wf.toShape empty [cstr "a", cstr "b"]
    have room : m.RoomBelow (followPath m.tree 1 [cstr "a", cstr "b"]).1 := by
      rw [missing]
      exact ⟨by simp [empty], by simp [attached]⟩
    have small : 0 + m.tree.next + [cstr "a", cstr "b"].length < 2 ^ 32 := by
      rw [next]
      decide
    rcases run_insertPath_complete (mapCreateEmpty_steady 1) avoids run none'.viewsAlive live small
      room with
      ⟨_, ⟨m', x, path, named⟩, stores⟩
    refine ⟨m, m', x, rfl, path, named, (stores 3 [] 0 0 unused).mpr ?_⟩
    rintro ⟨i, _, same⟩
    have low : (3 : UInt64).toNat = 3 := rfl
    omega

/-- A client takes the id that the next level would be given. -/
theorem insertPath_refused :
    ¬∀ (calls : List Call) (m : Map) (parentId : UInt64) (names : List CString)
      (parent : BranchPtr), (mapCreateEmpty 1).run calls = .ok m →
      m.tree.pathStart parentId = some parent →
      ∃ m' x, insertPath m parentId names = .ok (m', some x) := by
  intro complete
  have observed : ((mapCreateEmpty 1).run [.insert 0 1 4294967298 0 [] 0 0] >>=
      fun m => insertPath m 0 [cstr "a"]).toOption.map Prod.snd = some none := by
    decide +kernel
  rcases observed_bind observed with ⟨m, ⟨m', r⟩, run, path, rfl⟩
  rcases complete _ m 0 [cstr "a"] m.tree.branch run rfl with ⟨m'', x, done⟩
  rw [path] at done
  simp at done

end Treedb
