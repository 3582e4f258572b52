import Treedb.View.Faithful
import Treedb.View.Operations

/-!
# Attached vbranches

Every branch lists the vbranches that stand for it, and every view has an index of its vbranches. Both
are to agree with what the view shows, that is, with what can be reached from its root vbranch. They
do along every run, as long as no list of a vbranch is overwritten while it is in use and no branch is
deleted that leaves vbranches behind.
-/

namespace Treedb

open Forest Overlay Outcome Treedb.Tree

/-- What is attached to a branch of the index is shown by a registered view. -/
def Map.NoneOutlives (m : Map) : Prop :=
  ∀ b, m.tree.Indexed b → ∀ vb ∈ m.overlay.vbranchList b,
    ∃ id, viewIndexGet m.overlay id = some vb.view ∧ m.overlay.Reaches vb.view vb

/-- The index of every registered view lists what the view shows, by the ids of the branches. -/
def Map.IndexesShown (m : Map) : Prop :=
  ∀ id v, viewIndexGet m.overlay id = some v → ∀ k vb,
    vbranchIndexGet m.overlay v k = some vb ↔
      m.overlay.Reaches v vb ∧ (m.tree.mem (m.overlay.vmem vb).branch).id = k

/--
The call is one on views or one that edits the tree, and it takes nothing from a view that the view
still shows. If `stale` does not hold, no branch that a view shows is deleted.
-/
def Call.SparesViews (stale : Prop) (m : Map) : Call → Prop
  | .initView .. | .destroyView _ | .branchUnfold .. => True
  | .expandTo viewId branchId =>
      ∀ v ∈ viewIndexGet m.overlay viewId, ∀ b ∈ branchIndexGet m.tree branchId,
        m.overlay.MayExpand m.tree v b
  | .insert viewId parentBranchId branchId .. =>
      ∀ pb ∈ branchIndexGet m.tree parentBranchId, branchIndexGet m.tree branchId = none →
        ∀ v ∈ viewIndexGet m.overlay viewId, viewGetVbranch m.overlay v pb = none →
          m.overlay.MayExpand m.tree v pb
  | .move _ newParentId oldParentId branchId _ =>
      match moveCheck m.tree newParentId oldParentId branchId with
      | .accept b _ npb => m.MoveMayExpand b npb
      | _ => True
  | .delete _ branchId =>
      ∀ b ∈ branchIndexGet m.tree branchId,
        m.overlay.vbranchList b = [] ∨ stale ∧ (m.tree.children b).length ≤ 1
  | _ => False

instance (stale : Prop) [Decidable stale] (m : Map) (call : Call) :
    Decidable (call.SparesViews stale m) :=
  match call with
  | .initView .. | .destroyView _ | .branchUnfold .. => inferInstanceAs (Decidable True)
  | .expandTo .. => inferInstanceAs (Decidable (∀ _ ∈ _, ∀ _ ∈ _, _))
  | .insert .. => inferInstanceAs (Decidable (∀ _ ∈ _, _ → ∀ _ ∈ _, _ → _))
  | .move _ newParentId oldParentId branchId _ =>
      match accept : moveCheck m.tree newParentId oldParentId branchId with
      | .accept b opb npb =>
          decidable_of_iff (m.MoveMayExpand b npb) (by simp only [Call.SparesViews, accept])
      | .refuse => .isTrue (by simp only [Call.SparesViews, accept])
      | .retry .. => .isTrue (by simp only [Call.SparesViews, accept])
  | .delete .. => inferInstanceAs (Decidable (∀ _ ∈ _, _ ∨ _ ∧ _))
  | .insertInPath .. | .moveToPath .. | .update .. | .visible .. | .invisible .. =>
      inferInstanceAs (Decidable False)

section Runs

variable {want : Demands} {stale : Prop} {m m' : Map} {v : ViewPtr}

theorem Sound.noneOutlives (sound : Sound want m.tree m.overlay) (wf : m.tree.WellFormed) :
    m.NoneOutlives := by
  intro b indexed vb member
  rcases sound.attached indexed member with ⟨id, found⟩
  exact ⟨id, found, ((sound.shows found).reaches_iff wf).mpr ⟨b, sound.stand_of_mem indexed member⟩⟩

theorem Sound.indexesShown (sound : Sound (.indexed False) m.tree m.overlay)
    (wf : m.tree.WellFormed) : m.IndexesShown := by
  intro id v found k vb
  have shows := sound.shows found
  rw [shows.reaches_iff wf]
  constructor
  · intro stored
    rcases shows.index_spec trivial stored with ⟨b, present, named⟩ | ⟨never, _⟩
    · refine ⟨⟨b, present⟩, ?_⟩
      rw [shows.branch_eq present]
      exact named
    · exact never.elim
  · rintro ⟨⟨b, present⟩, named⟩
    rw [shows.branch_eq present] at named
    rw [← named]
    exact shows.listed trivial present

theorem Sound.mapExpandTo {id : UInt32} {branchId : UInt64} (sound : Sound want m.tree m.overlay)
    (wf : m.tree.WellFormed) (found : viewIndexGet m.overlay id = some v)
    (may : ∀ b ∈ branchIndexGet m.tree branchId, m.overlay.MayExpand m.tree v b)
    (run : mapExpandTo m v branchId = .ok m') : Sound want m'.tree m'.overlay := by
  unfold Treedb.mapExpandTo at run
  split at run
  · rw [← Except.ok.inj run]
    exact sound
  · rename_i b stored
    rcases bind_eq_ok.mp run with ⟨⟨o₁, r⟩, expanded, run⟩
    have after := (sound.expandTo wf found ⟨branchId, stored⟩ (may b stored) expanded).1
    split at run
    · rw [← Except.ok.inj run]
      exact after
    · rw [← Except.ok.inj run]
      exact after.push _

/-- A call that spares the views keeps them sound. -/
theorem Sound.call {call : Call} (sound : Sound (.indexed stale) m.tree m.overlay)
    (wf : m.tree.WellFormed) (oneRoot : m.tree.OneRoot) (spares : call.SparesViews stale m)
    (run : m.call call = .ok m') :
    Sound (.indexed stale) m'.tree m'.overlay := by
  -- An operation on a view is only called if the view is registered.
  have onView : ∀ {viewId : UInt32} {f : ViewPtr → Except Fault Map}, m.onView viewId f = .ok m' →
      (∀ v, viewIndexGet m.overlay viewId = some v → f v = .ok m' →
        Sound (.indexed stale) m'.tree m'.overlay) →
      Sound (.indexed stale) m'.tree m'.overlay := by
    intro viewId f run keeps
    unfold Map.onView at run
    split at run
    · rw [← Except.ok.inj run]
      exact sound
    · exact keeps _ ‹_› run
  cases call with
  | insert viewId parentId branchId pos text mark doc =>
      rcases map_eq_ok.mp run with ⟨⟨m₁, r⟩, inserted, rfl⟩
      exact sound.insert wf id spares inserted
  | move viewId newParentId oldParentId branchId pos =>
      rcases map_eq_ok.mp run with ⟨⟨m₁, accepted⟩, moved, rfl⟩
      apply sound.move wf oneRoot _ id moved
      intro b opb npb accept
      simp only [Call.SparesViews, accept] at spares
      exact spares
  | delete viewId branchId =>
      apply sound.delete wf oneRoot _ id run
      intro b stored
      exact (spares b stored).imp_right (And.imp_left fun allowed _ => allowed)
  | initView viewId reqId branchId query docId endpointIds rows =>
      rcases bind_eq_ok.mp run with ⟨⟨o₁, v⟩, made, run⟩
      rw [← Except.ok.inj run]
      exact (sound.initView wf made).1.push _
  | destroyView viewId =>
      apply onView run
      intro v found same
      rw [← Except.ok.inj same]
      exact (sound.viewDestroy wf found).1
  | expandTo viewId branchId =>
      exact onView run fun v found expanded =>
        sound.mapExpandTo wf found (spares v found) expanded
  | branchUnfold viewId branchId =>
      apply onView run
      intro v found same
      rw [← Except.ok.inj same, mapBranchUnfold_tree]
      exact sound.unfold trivial wf found
  | _ => exact spares.elim

theorem run_sound {calls : List Call} (wf : m.tree.WellFormed) (rooted : m.tree.Rooted)
    (none' : m.overlay.NoViews) (spares : m.Along (fun m call => call.SparesViews stale m) calls)
    (run : m.run calls = .ok m') : Sound (.indexed stale) m'.tree m'.overlay := by
  have both : Sound (.indexed stale) m'.tree m'.overlay ∧ m'.tree.OneRoot := by
    refine run_invariant
      (R := fun s : Map => Sound (.indexed stale) s.tree s.overlay ∧ s.tree.OneRoot) ?_ wf
      ⟨none'.sound, rooted.oneRoot⟩ spares run
    rintro s call s' wf ⟨sound, oneRoot⟩ holds called
    refine ⟨sound.call wf oneRoot holds called, ?_⟩
    exact oneRoot.edits wf (call_edits False False wf False.elim False.elim called)
  exact both.1

/--
As long as no call overwrites a list of vbranches that is in use or deletes a shown branch that has
two children, every vbranch attached to a branch of the index is shown by a registered view.
-/
theorem run_noneOutlives {m : Map} (wf : m.tree.WellFormed) (rooted : m.tree.Rooted)
    (none' : m.overlay.NoViews) (calls : List Call)
    (spares : m.Along (fun m call => call.SparesViews True m) calls) {m' : Map}
    (run : m.run calls = .ok m') : m'.NoneOutlives :=
  (run_sound wf rooted none' spares run).noneOutlives (run_wellFormed wf run)

/-- A view is made, expanded and destroyed while branches that it shows are moved and deleted. -/
theorem run_noneOutlives_example :
    ∃ m', (mapCreateEmpty 1).run [.insert 0 1 2 0 [] 0 0, .insert 0 2 3 0 [] 0 0,
        .initView 7 0 0 [] 0 [] [], .expandTo 7 2, .move 7 1 2 3 0, .delete 7 2,
        .initView 8 0 3 [] 0 [] [], .branchUnfold 8 1, .destroyView 7] = .ok m' ∧
      m'.NoneOutlives := by
  have start := mapCreateEmpty_holdsOnlyRoot 1
  have ends : ((mapCreateEmpty 1).run [.insert 0 1 2 0 [] 0 0, .insert 0 2 3 0 [] 0 0,
      .initView 7 0 0 [] 0 [] [], .expandTo 7 2, .move 7 1 2 3 0, .delete 7 2,
      .initView 8 0 3 [] 0 [] [], .branchUnfold 8 1, .destroyView 7]).toBool = true := by
    decide +kernel
  cases run : (mapCreateEmpty 1).run [.insert 0 1 2 0 [] 0 0, .insert 0 2 3 0 [] 0 0,
      .initView 7 0 0 [] 0 [] [], .expandTo 7 2, .move 7 1 2 3 0, .delete 7 2,
      .initView 8 0 3 [] 0 [] [], .branchUnfold 8 1, .destroyView 7] with
  | error e => simp [run, Except.toBool] at ends
  | ok m' =>
      exact ⟨m', rfl, run_noneOutlives start.wellFormed start.rooted start.views _
        (by decide +kernel) run⟩

/--
A view shows the root and its child. Expanding the view to the root again makes a second vbranch for
the child; the first stays attached, but the view no longer holds it.
-/
theorem expandTo_leaves_vbranch :
    ¬∀ m', (mapCreateEmpty 1).run
        [.insert 0 1 2 0 [] 0 0, .initView 7 0 0 [] 0 [] [], .expandTo 7 1] = .ok m' →
          m'.NoneOutlives := by
  intro claim
  have observed : ((mapCreateEmpty 1).run
      [.insert 0 1 2 0 [] 0 0, .initView 7 0 0 [] 0 [] [], .expandTo 7 1]).toOption.map
        (fun m => (m.tree.branchIndex 2, m.overlay.vbranchList 1, (m.overlay.views 0).vbranch,
          m.overlay.vchildren ⟨0, 0⟩, m.overlay.vchildren ⟨0, 2⟩)) =
      some (some 1, [⟨0, 1⟩, ⟨0, 2⟩], ⟨0, 0⟩, [⟨0, 2⟩], []) := by
    decide +kernel
  cases run : (mapCreateEmpty 1).run
      [.insert 0 1 2 0 [] 0 0, .initView 7 0 0 [] 0 [] [], .expandTo 7 1] with
  | error e => simp [run, Except.toOption] at observed
  | ok m' =>
      simp only [run, Except.toOption, Option.map_some, Option.some.injEq, Prod.mk.injEq] at observed
      rcases observed with ⟨stored, lists, root, below, leaf⟩
      rcases claim m' run 1 ⟨2, stored⟩ ⟨0, 1⟩ (by simp [lists]) with ⟨_, _, reached⟩
      have inside : ∀ vb, m'.overlay.Reaches 0 vb → vb = ⟨0, 0⟩ ∨ vb = ⟨0, 2⟩ := by
        intro vb reached
        induction reached with
        | refl => exact .inl root
        | tail _ member ih =>
            rcases ih with rfl | rfl
            · rw [below, List.mem_singleton] at member
              exact .inr member
            · simp [leaf] at member
      rcases inside _ reached with same | same <;> simp at same

/--
As long as no call overwrites a list of vbranches that is in use or deletes a branch that a view
shows, the index of every view lists what the view shows.
-/
theorem run_indexesShown {m : Map} (wf : m.tree.WellFormed) (rooted : m.tree.Rooted)
    (none' : m.overlay.NoViews) (calls : List Call)
    (spares : m.Along (fun m call => call.SparesViews False m) calls) {m' : Map}
    (run : m.run calls = .ok m') : m'.IndexesShown :=
  (run_sound wf rooted none' spares run).indexesShown (run_wellFormed wf run)

/-- A shown branch is moved, and a branch that the view hides is deleted. -/
theorem run_indexesShown_example :
    ∃ m', (mapCreateEmpty 1).run [.insert 0 1 2 0 [] 0 0, .insert 0 2 3 0 [] 0 0,
        .insert 0 3 4 0 [] 0 0, .initView 7 0 0 [] 0 [] [], .expandTo 7 2, .move 7 1 2 3 0,
        .delete 7 4, .branchUnfold 7 3] = .ok m' ∧ m'.IndexesShown := by
  have start := mapCreateEmpty_holdsOnlyRoot 1
  have ends : ((mapCreateEmpty 1).run [.insert 0 1 2 0 [] 0 0, .insert 0 2 3 0 [] 0 0,
      .insert 0 3 4 0 [] 0 0, .initView 7 0 0 [] 0 [] [], .expandTo 7 2, .move 7 1 2 3 0,
      .delete 7 4, .branchUnfold 7 3]).toBool = true := by
    decide +kernel
  cases run : (mapCreateEmpty 1).run [.insert 0 1 2 0 [] 0 0, .insert 0 2 3 0 [] 0 0,
      .insert 0 3 4 0 [] 0 0, .initView 7 0 0 [] 0 [] [], .expandTo 7 2, .move 7 1 2 3 0,
      .delete 7 4, .branchUnfold 7 3] with
  | error e => simp [run, Except.toBool] at ends
  | ok m' =>
      exact ⟨m', rfl, run_indexesShown start.wellFormed start.rooted start.views _
        (by decide +kernel) run⟩

/-- A branch that a view shows is deleted; the view still finds its vbranch under the old id. -/
theorem delete_stays_indexed :
    ¬∀ m', (mapCreateEmpty 1).run
        [.insert 0 1 2 0 [] 0 0, .initView 7 0 0 [] 0 [] [], .delete 0 2] = .ok m' →
          m'.IndexesShown := by
  intro claim
  have observed : ((mapCreateEmpty 1).run
      [.insert 0 1 2 0 [] 0 0, .initView 7 0 0 [] 0 [] [], .delete 0 2]).toOption.map
        (fun m => (viewIndexGet m.overlay 7, vbranchIndexGet m.overlay 0 2,
          (m.overlay.views 0).vbranch, m.overlay.vchildren ⟨0, 0⟩)) =
      some (some 0, some ⟨0, 1⟩, ⟨0, 0⟩, []) := by
    decide +kernel
  cases run : (mapCreateEmpty 1).run
      [.insert 0 1 2 0 [] 0 0, .initView 7 0 0 [] 0 [] [], .delete 0 2] with
  | error e => simp [run, Except.toOption] at observed
  | ok m' =>
      simp only [run, Except.toOption, Option.map_some, Option.some.injEq, Prod.mk.injEq] at observed
      rcases observed with ⟨found, stored, root, leaf⟩
      have reached := ((claim m' run 7 0 found 2 ⟨0, 1⟩).mp stored).1
      have inside : ∀ vb, m'.overlay.Reaches 0 vb → vb = ⟨0, 0⟩ := by
        intro vb reached
        induction reached with
        | refl => exact root
        | tail _ member ih =>
            subst ih
            simp [leaf] at member
      have same := inside _ reached
      simp at same

end Runs

end Treedb
