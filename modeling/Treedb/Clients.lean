import Treedb.Following
import Treedb.Outgoing

/-!
# Clients over runs

The client of a view is sent the view when the view is made. It handles the messages for its view in
order. As long as the calls of the others spare the views, it holds all the time what its view shows
of the tree.
-/

namespace Treedb

open Forest Overlay Outcome Treedb.Tree Client

/-- The view that a call is made for. -/
def Call.viewId : Call → Option UInt32
  | .insert viewId .. | .move viewId .. | .delete viewId .. | .update viewId ..
  | .initView viewId .. | .destroyView viewId | .visible viewId _ | .invisible viewId _
  | .expandTo viewId _ | .branchUnfold viewId _ => some viewId
  | .insertInPath .. | .moveToPath .. => none

/-! ## Calls on other views -/

section Other

variable {want : Demands} {t : Tree} {o o' : Overlay} {v w : ViewPtr} {b : BranchPtr}
  {id k : UInt32} {r : Option VbranchPtr}

theorem Overlay.Marks.follows (marks : Marks o o') (w : ViewPtr) (t : Tree) : Follows w t t o o' :=
  follows_of_stand (marks.alike.stand t w) (by rw [marks.alike.views]) marks.outQ
    (stays_of_index marks.alike.viewIndex)

/-- Registered views of different ids are different. -/
theorem Sound.ne_of_id (sound : Sound want t o) (found : viewIndexGet o id = some v)
    (known : viewIndexGet o k = some w) (other : id ≠ k) : w ≠ v := by
  rintro rfl
  exact other ((sound.registered found).1.symm.trans (sound.registered known).1)

/-- A view that is destroyed is of no account for the others. -/
theorem Sound.viewDestroy_follows (sound : Sound want t o) (wf : t.WellFormed)
    (found : viewIndexGet o id = some v) (other : w ≠ v) : Follows w t t o (Treedb.viewDestroy o v) := by
  have keeps := (sound.viewDestroy_beside wf found).keeps other
  refine follows_of_stand (keeps.stand t) keeps.view ?_ ?_
  · rw [sound.viewDestroy_eq wf found]
    rfl
  · intro k known
    rw [sound.viewDestroy_index wf found, if_neg, known]
    rintro rfl
    rw [found, Option.some.injEq] at known
    exact other known.symm

theorem Sound.dropView_follows (sound : Sound want t o) (wf : t.WellFormed)
    (known : viewIndexGet o k = some w) (other : id ≠ k) : Follows w t t o (Treedb.dropView o id) := by
  unfold Treedb.dropView
  split
  · rename_i v found
    exact sound.viewDestroy_follows wf found (sound.ne_of_id found known other)
  · exact Follows.refl w t o

/-- A view that is made is of no account for the others. -/
theorem Overlay.Created.follows {visible : Bool}
    (created : Created want t id visible v o o') (unused : viewIndexGet o id = none) (other : w ≠ v) :
    Follows w t t o o' := by
  have keeps := created.keeps other
  refine follows_of_stand (keeps.stand t) keeps.view created.outQ ?_
  intro k known
  rw [created.index, if_neg, known]
  rintro rfl
  simp [unused] at known

theorem Sound.viewExpandTo_follows {withChildren : Bool} (sound : Sound want t o)
    (wf : t.WellFormed) (found : viewIndexGet o id = some v) (other : w ≠ v) (indexed : t.Indexed b)
    (clear : Clear t o v b)
    (folded : withChildren = true → ∀ x, stand t o v b = some x →
      ∀ c, t.parent c = some b → stand t o v c = none)
    (run : Treedb.viewExpandTo t o v b withChildren = .ok (o', r)) : Follows w t t o o' := by
  rcases (sound.shows found).viewExpandTo wf (sound.sealed.searched wf indexed) indexed clear folded
    run with ⟨_, enlarges, _⟩
  exact enlarges.follows other

theorem Sound.showBranch_follows (sound : Sound want t o) (wf : t.WellFormed)
    (found : viewIndexGet o id = some v) (other : w ≠ v) (whole : Whole t o v)
    (indexed : t.Indexed b) (run : Treedb.showBranch t v o b = .ok o') : Follows w t t o o' := by
  rcases bind_eq_ok.mp run with ⟨⟨o₁, r⟩, expanded, run⟩
  have first := sound.viewExpandTo_follows wf found other indexed (whole.clear b) (by simp) expanded
  split at run
  · simp at run
  · rename_i vb _
    simp only [pure_eq_ok, Except.ok.injEq] at run
    have marks : Marks o₁ o' := by
      rw [← run]
      exact marks_foldl o₁ true _
    exact first.trans (marks.follows w t)

theorem Sound.initRequested_follows (sound : Sound want t o) (wf : t.WellFormed)
    (unused : viewIndexGet o id = none) (known : viewIndexGet o k = some w)
    {requested : List BranchPtr} (indexed : ∀ b ∈ requested, t.Indexed b)
    (run : Treedb.initRequested t o id requested = .ok (o', v)) : Follows w t t o o' := by
  rcases createRootView_created want wf (fun {b} => sound.mine_next) id false with
    ⟨o₁, made, created⟩
  have other : w ≠ o.viewNext := Nat.ne_of_lt (sound.registered known).2.1
  have found₁ : viewIndexGet o₁ id = some o.viewNext := by
    rw [created.index, if_pos rfl]
  simp only [Treedb.initRequested, made] at run
  rcases bind_eq_ok.mp run with ⟨o₂, shown, run⟩
  simp only [pure_eq_ok, Except.ok.injEq, Prod.mk.injEq] at run
  rcases run with ⟨rfl, rfl⟩
  have kept := foldlM_invariant
    (fun o₂ => (Sound want t o₂ ∧ viewIndexGet o₂ id = some o.viewNext ∧ Whole t o₂ o.viewNext) ∧
      Follows w t t o₁ o₂)
    (fun o₂ b o₃ member before step =>
      ⟨before.1.1.showBranch wf before.1.2.1 before.1.2.2 (indexed b member) step,
        before.2.trans (before.1.1.showBranch_follows wf before.1.2.1 other before.1.2.2
          (indexed b member) step)⟩)
    ⟨⟨sound.created wf unused created, found₁, whole_of_root wf created.only⟩, Follows.refl w t o₁⟩
    shown
  exact (created.follows unused other).trans kept.2

theorem Sound.initDefault_follows (sound : Sound want t o) (wf : t.WellFormed)
    (unused : viewIndexGet o id = none) (known : viewIndexGet o k = some w)
    (run : Treedb.initDefault t o id = .ok (o', v)) : Follows w t t o o' := by
  rcases createRootView_created want wf (fun {b} => sound.mine_next) id true with
    ⟨o₁, made, created⟩
  have other : w ≠ o.viewNext := Nat.ne_of_lt (sound.registered known).2.1
  have found₁ : viewIndexGet o₁ id = some o.viewNext := by
    rw [created.index, if_pos rfl]
  simp only [Treedb.initDefault, made] at run
  rcases bind_eq_ok.mp run with ⟨⟨o₂, r⟩, expanded, run⟩
  simp only [pure_eq_ok, Except.ok.injEq, Prod.mk.injEq] at run
  have second := (sound.created wf unused created).viewExpandTo_follows wf found₁ other
    wf.root_indexed ((whole_of_root wf created.only).clear _)
    (fun _ _ _ _ child => hidden_of_root wf created.only child) expanded
  have marks : Marks o₂ o' := by
    rw [← run.1]
    exact marks_foldl o₂ true _
  exact ((created.follows unused other).trans second).trans (marks.follows w t)

theorem Sound.initView_follows (sound : Sound want t o) (wf : t.WellFormed) {branchId : UInt64}
    {query : CString} {docId : UInt64} {endpointIds rows : List UInt64}
    (known : viewIndexGet o k = some w) (other : id ≠ k)
    (run : Treedb.initView t o id branchId query docId endpointIds rows = .ok (o', v)) :
    Follows w t t o o' := by
  rcases sound.dropView wf id with ⟨dropped, unused⟩
  have first := sound.dropView_follows wf known other
  have known₁ := first.stays known
  apply first.trans
  unfold Treedb.initView at run
  split at run
  · exact dropped.initRequested_follows wf unused known₁ (fun b => requestedBranches_indexed wf) run
  · exact dropped.initDefault_follows wf unused known₁ run

/-- Unfolding a branch of one view tells no other view anything. -/
theorem Sound.unfold_follows {m : Map} {branchId : UInt64} (sound : Sound want m.tree m.overlay)
    (index : want.index) (wf : m.tree.WellFormed) (found : viewIndexGet m.overlay id = some v)
    (known : viewIndexGet m.overlay (m.overlay.views w).id = some w) (other : w ≠ v) :
    Follows w m.tree m.tree m.overlay (mapBranchUnfold m v branchId).overlay := by
  unfold mapBranchUnfold
  split
  · exact Follows.refl w m.tree m.overlay
  · rename_i vb stored
    split
    · exact Follows.refl w m.tree m.overlay
    · rename_i unequal
      have shows := sound.shows found
      rcases shows.index_spec index stored with ⟨b, present, _⟩ | ⟨_, left⟩
      · rcases shows.expandLoop wf 1 present with ⟨_, unfolds⟩
        have enlarges := unfolds.enlarges
        have first : Follows w m.tree m.tree m.overlay _ := enlarges.follows other
        refine first.trans (follows_push (v := v) (first.known known) ?_ ?_ other)
        · rw [← view_of_stand present]
          rfl
        · rw [enlarges.within.view_id, (sound.registered found).1]
          exact stays_of_index enlarges.within.viewIndex found
      · refine absurd ?_ unequal
        rw [wf.childN_eq, left.bare]
        exact congrArg List.length left.folded

theorem Sound.mapExpandTo_follows {m m' : Map} {branchId : UInt64}
    (sound : Sound want m.tree m.overlay) (wf : m.tree.WellFormed)
    (known : viewIndexGet m.overlay (m.overlay.views w).id = some w)
    (found : viewIndexGet m.overlay id = some v) (other : w ≠ v)
    (may : ∀ b ∈ branchIndexGet m.tree branchId, m.overlay.MayExpand m.tree v b)
    (run : Treedb.mapExpandTo m v branchId = .ok m') :
    Follows w m.tree m'.tree m.overlay m'.overlay := by
  unfold Treedb.mapExpandTo at run
  split at run
  · rw [← Except.ok.inj run]
    exact Follows.refl w m.tree m.overlay
  · rename_i b stored
    rcases bind_eq_ok.mp run with ⟨⟨o₁, r⟩, expanded, run⟩
    rcases sound.expandTo_follows wf known found other ⟨branchId, stored⟩ (may b stored) expanded
      with ⟨first, sends⟩
    split at run
    · rw [← Except.ok.inj run]
      exact first
    · rename_i y answer
      rw [← Except.ok.inj run]
      exact sends y answer 0

end Other

/-! ## Runs -/

section Runs

variable {stale : Prop} {m m₀ m₁ m' : Map} {w : ViewPtr} {k : UInt32}

/-- The client of a view follows what a call does for another view. -/
theorem Sound.call_follows {call : Call} (sound : Sound (.indexed stale) m.tree m.overlay)
    (wf : m.tree.WellFormed) (oneRoot : m.tree.OneRoot) (spares : call.SparesViews stale m)
    (found : viewIndexGet m.overlay k = some w) (other : call.viewId ≠ some k)
    (run : m.call call = .ok m') : Follows w m.tree m'.tree m.overlay m'.overlay := by
  have known : viewIndexGet m.overlay (m.overlay.views w).id = some w := by
    rw [(sound.registered found).1]
    exact found
  have asks : ∀ {id}, some id ≠ some k → some w ≠ viewIndexGet m.overlay id := by
    intro id other same
    exact sound.ne_of_id same.symm found (fun same => other (congrArg some same)) rfl
  have onView : ∀ {viewId : UInt32} {f : ViewPtr → Except Fault Map}, some viewId ≠ some k →
      m.onView viewId f = .ok m' →
      (∀ v, viewIndexGet m.overlay viewId = some v → w ≠ v → f v = .ok m' →
        Follows w m.tree m'.tree m.overlay m'.overlay) →
      Follows w m.tree m'.tree m.overlay m'.overlay := by
    intro viewId f other run follows
    unfold Map.onView at run
    split at run
    · rw [← Except.ok.inj run]
      exact Follows.refl w m.tree m.overlay
    · rename_i v registered
      exact follows v registered (fun same => asks other (by rw [registered, same])) run
  cases call with
  | insert viewId parentId branchId pos text mark doc =>
      rcases map_eq_ok.mp run with ⟨⟨m₁, r⟩, inserted, rfl⟩
      exact sound.insert_follows wf id spares known (asks other) inserted
  | move viewId newParentId oldParentId branchId pos =>
      rcases map_eq_ok.mp run with ⟨⟨m₁, accepted⟩, moved, rfl⟩
      refine sound.move_follows wf oneRoot ?_ id ?_ known (asks other) moved
      · intro b opb npb accept
        simp only [Call.SparesViews, accept] at spares
        exact spares
      · intro v registered
        rw [(sound.registered registered).1]
        exact registered
  | delete viewId branchId =>
      refine sound.delete_follows wf oneRoot ?_ id known (asks other) run
      intro b stored
      exact (spares b stored).imp_right (And.imp_left fun allowed _ => allowed)
  | initView viewId reqId branchId query docId endpointIds rows =>
      rcases bind_eq_ok.mp run with ⟨⟨o₁, v⟩, made, run⟩
      rw [← Except.ok.inj run]
      have apart : viewId ≠ k := fun same => other (congrArg some same)
      have first := sound.initView_follows wf found apart made
      rcases sound.initView wf made with ⟨sound₁, found₁⟩
      have named := (sound₁.registered found₁).1
      exact first.trans (follows_push (first.known known) rfl (by rw [named]; exact found₁)
        (sound₁.ne_of_id found₁ (first.stays found) apart))
  | destroyView viewId =>
      apply onView other run
      intro v registered apart same
      rw [← Except.ok.inj same]
      exact sound.viewDestroy_follows wf registered apart
  | expandTo viewId branchId =>
      apply onView other run
      intro v registered apart expanded
      exact sound.mapExpandTo_follows wf known registered apart (spares v registered) expanded
  | branchUnfold viewId branchId =>
      apply onView other run
      intro v registered apart same
      rw [← Except.ok.inj same, mapBranchUnfold_tree]
      exact sound.unfold_follows trivial wf registered known apart
  | _ => exact spares.elim

/-- The client of a view follows all that is done for the other views. -/
theorem Sound.run_follows {calls : List Call} (sound : Sound (.indexed stale) m.tree m.overlay)
    (wf : m.tree.WellFormed) (oneRoot : m.tree.OneRoot)
    (found : viewIndexGet m.overlay k = some w)
    (spares : m.Along (fun m call => call.SparesViews stale m) calls)
    (others : ∀ call ∈ calls, call.viewId ≠ some k) (run : m.run calls = .ok m') :
    Sound (.indexed stale) m'.tree m'.overlay ∧
      Follows w m.tree m'.tree m.overlay m'.overlay := by
  have kept : (Sound (.indexed stale) m'.tree m'.overlay ∧ m'.tree.OneRoot) ∧
      Follows w m.tree m'.tree m.overlay m'.overlay := by
    refine run_invariant (R := fun s : Map => (Sound (.indexed stale) s.tree s.overlay ∧
      s.tree.OneRoot) ∧ Follows w m.tree s.tree m.overlay s.overlay) ?_ wf
      ⟨⟨sound, oneRoot⟩, Follows.refl w m.tree m.overlay⟩ (spares.and others) run
    rintro s call s' wf ⟨⟨sound, oneRoot⟩, follows⟩ ⟨spares, other⟩ called
    refine ⟨⟨sound.call wf oneRoot spares called, ?_⟩, ?_⟩
    · exact oneRoot.edits wf (call_edits False False wf False.elim False.elim called)
    · exact follows.trans
        (sound.call_follows wf oneRoot spares (follows.stays found) other called)
  exact ⟨kept.1.1, kept.2⟩

/-- The client that asks for a view is sent the view. -/
theorem Sound.call_initView {m₁ : Map} {reqId branchId : UInt64} {query : CString} {docId : UInt64}
    {endpointIds rows : List UInt64} (sound : Sound (.indexed stale) m.tree m.overlay)
    (wf : m.tree.WellFormed)
    (made : m.call (.initView k reqId branchId query docId endpointIds rows) = .ok m₁) :
    ∃ v init, m₁.tree = m.tree ∧ Sound (.indexed stale) m₁.tree m₁.overlay ∧
      viewIndexGet m₁.overlay k = some v ∧
      m₁.overlay.outQ = m.overlay.outQ ++ [.mapInit k reqId init] ∧
      ∀ c : Client, (c.handle (.mapInit k reqId init)).Copies m₁.tree m₁.overlay v := by
  rcases bind_eq_ok.mp made with ⟨⟨o₁, v⟩, inited, result⟩
  rcases sound.initView wf inited with ⟨sound₁, found₁⟩
  have named : (o₁.views v).id = k := (sound₁.registered found₁).1
  rw [← Except.ok.inj result]
  refine ⟨v, vbranchToJson m.tree o₁ (o₁.views v).vbranch, rfl, sound₁.push _, found₁, ?_, fun c => ?_⟩
  · rw [← initView_outQ inited, ← named]
    rfl
  · exact (sound₁.shows found₁).holds_copy wf

/--
A client is sent its view when the view is made. Then it handles the messages for the view while
calls are made for other views. In the end it holds what it would hold if the view were sent now.
-/
theorem run_copies (stale : Prop) (wf : m.tree.WellFormed) (rooted : m.tree.Rooted)
    (none' : m.overlay.NoViews)
    {before after : List Call} {reqId branchId : UInt64} {query : CString} {docId : UInt64}
    {endpointIds rows : List UInt64}
    (spares : m.Along (fun m call => call.SparesViews stale m)
      (before ++ .initView k reqId branchId query docId endpointIds rows :: after))
    (others : ∀ call ∈ after, call.viewId ≠ some k)
    (run : m.run (before ++ .initView k reqId branchId query docId endpointIds rows :: after) =
      .ok m') :
    ∃ m₁ v queued init sent,
      m.run (before ++ [.initView k reqId branchId query docId endpointIds rows]) = .ok m₁ ∧
      m₁.overlay.outQ = queued ++ [init] ∧ m'.overlay.outQ = m₁.overlay.outQ ++ sent ∧
      viewIndexGet m'.overlay k = some v ∧
      ∀ c : Client, c.receive (init :: sent.filter fun msg => msg.viewId = some k) =
        copy m'.tree m'.overlay v := by
  rw [Map.run, List.foldlM_append] at run
  rcases bind_eq_ok.mp run with ⟨m₀, start, run⟩
  rw [List.foldlM_cons] at run
  rcases bind_eq_ok.mp run with ⟨m₁, made, run⟩
  rcases along_append.mp spares with ⟨spares₀, spares⟩
  have spares₁ := (spares m₀ start).2 m₁ made
  have sound₀ := run_sound wf rooted none' spares₀ start
  have wf₀ := run_wellFormed wf start
  have oneRoot₀ := rooted.oneRoot.edits wf
    (run_edits False False wf (fun _ _ _ => ⟨False.elim, False.elim⟩) spares₀ start)
  have started : m.run (before ++ [.initView k reqId branchId query docId endpointIds rows]) =
      .ok m₁ := by
    rw [Map.run, List.foldlM_append, start, ok_bind, List.foldlM_cons, made]
    rfl
  rcases sound₀.call_initView wf₀ made with ⟨v, init, same, sound₁, found, told, copies⟩
  have wf₁ : m₁.tree.WellFormed := same ▸ wf₀
  have oneRoot₁ : m₁.tree.OneRoot := same ▸ oneRoot₀
  rcases sound₁.run_follows wf₁ oneRoot₁ found spares₁ others run with ⟨sound', follows⟩
  rcases follows.informs with ⟨_, ⟨sent, queued, rfl⟩, _, copied⟩
  refine ⟨m₁, v, m₀.overlay.outQ, .mapInit k reqId init, sent, started, told, queued,
    follows.stays found, fun c => ?_⟩
  have last := (sound'.shows (follows.stays found)).holds_copy (run_wellFormed wf₁ run)
  have named : (m₁.overlay.views v).id = k := (sound₁.registered found).1
  rw [← (copied _ (copies c)).eq last, named]
  rfl

/-- A view of the whole map, while branches are inserted, moved and deleted for another view. -/
theorem run_copies_example :
    ∃ (m' m₁ : Map) (v : ViewPtr) (queued : List Message) (init : Message) (sent : List Message),
      (mapCreateEmpty 1).run ([.insert 0 1 2 0 [] 0 0] ++ [.initView 7 0 0 [] 0 [] []]) = .ok m₁ ∧
      m₁.overlay.outQ = queued ++ [init] ∧ m'.overlay.outQ = m₁.overlay.outQ ++ sent ∧
      viewIndexGet m'.overlay 7 = some v ∧
      ∀ c : Client, c.receive (init :: sent.filter fun msg => msg.viewId = some 7) =
        copy m'.tree m'.overlay v := by
  have start := mapCreateEmpty_holdsOnlyRoot 1
  have ends : ((mapCreateEmpty 1).run ([.insert 0 1 2 0 [] 0 0] ++ .initView 7 0 0 [] 0 [] [] ::
      [.insert 0 2 3 0 [] 0 0, .insert 0 1 4 0 [] 0 0, .initView 8 0 3 [] 0 [] [],
        .move 8 2 1 4 0, .delete 8 3])).toBool = true := by
    decide +kernel
  cases run : (mapCreateEmpty 1).run ([.insert 0 1 2 0 [] 0 0] ++ .initView 7 0 0 [] 0 [] [] ::
      [.insert 0 2 3 0 [] 0 0, .insert 0 1 4 0 [] 0 0, .initView 8 0 3 [] 0 [] [],
        .move 8 2 1 4 0, .delete 8 3]) with
  | error e =>
      rw [run] at ends
      simp [Except.toBool] at ends
  | ok m' =>
      exact ⟨m', run_copies True start.wellFormed start.rooted start.views
        (by decide +kernel) (by simp [Call.viewId]) run⟩

end Runs

end Treedb
