import Treedb.Reachability
import Treedb.View.Edit

/-!
# Views under the operations

What `insert`, `move` and `delete` do to one view, and that they keep all views sound. An operation
may have to expand a view first; that a view can be expanded without losing what it shows is the
condition `MayExpand`.
-/

namespace Treedb

open Forest Overlay Outcome Treedb.Tree

/-! ## Endpoints -/

section Endpoint

variable {want : Demands} {t : Tree} {o : Overlay} {v : ViewPtr} {b e p : BranchPtr} {y : VbranchPtr}

theorem endpoint_of_parent (wf : t.WellFormed) (hidden : viewGetVbranch o v b = none)
    (step : t.parent b = some p) : endpoint t o v b = endpoint t o v p := by
  rw [endpoint, wf.chain_of_parent step, List.findSome?_cons, hidden]
  rfl

/-- The endpoint of a branch is the first shown one on the way up. -/
theorem Searched.endpoint_iff (searched : Searched t o v b) (wf : t.WellFormed) :
    endpoint t o v b = some (e, y) ↔ FirstShown t o v b e y := by
  induction b using wf.acyclic.induction with
  | step b ih =>
      have search := searched b (anc_refl _ b)
      cases found : stand t o v b with
      | some x =>
          have here : endpoint t o v b = some (b, x) := by
            rw [endpoint, Tree.chain, Forest.chain, List.findSome?_cons, ← search, found]
            rfl
          rw [here, Option.some.injEq, Prod.mk.injEq]
          constructor
          · rintro ⟨rfl, rfl⟩
            exact ⟨anc_refl _ _, found, fun up strict =>
              absurd up (wf.acyclic.not_anc_of_strict strict)⟩
          · intro first
            rcases anc_iff_eq_or_strictAnc.mp first.anc with rfl | strict
            · have same := first.present
              rw [found, Option.some.injEq] at same
              exact ⟨rfl, same⟩
            · have hidden := first.hidden (anc_refl _ b) strict
              rw [found] at hidden
              simp at hidden
      | none =>
          cases step : t.parent b with
          | none =>
              have nothing : endpoint t o v b = none := by
                rw [endpoint, Tree.chain, chain_of_root step, List.findSome?_cons, ← search, found]
                rfl
              rw [nothing]
              constructor
              · simp
              · intro first
                have same := first.present
                rw [(anc_iff_of_root step).mp first.anc, found] at same
                simp at same
          | some p =>
              rw [endpoint_of_parent wf (by rw [← search, found]) step,
                ih p step (searched.above (anc_of_parent step))]
              constructor
              · intro first
                refine ⟨(anc_of_parent step).trans first.anc, first.present, ?_⟩
                intro a up strict
                rcases (anc_iff_of_parent step).mp up with rfl | up
                · exact found
                · exact first.hidden up strict
              · intro first
                have above : Anc t.parent p e := by
                  rcases (anc_iff_of_parent step).mp first.anc with rfl | above
                  · have same := first.present
                    rw [found] at same
                    simp at same
                  · exact above
                exact ⟨above, first.present, fun up strict =>
                  first.hidden ((anc_of_parent step).trans up) strict⟩

/-- Expanding the view to `b` with its children overwrites no list that is in use. -/
def Overlay.MayExpand (t : Tree) (o : Overlay) (v : ViewPtr) (b : BranchPtr) : Prop :=
  (∀ x ∈ viewGetVbranch o v b, t.children b = [] ∨ o.vchildren x = []) ∧
    (viewGetVbranch o v b = none → ∀ e ∈ endpoint t o v b, o.vchildren e.2 = [])

instance (t : Tree) (o : Overlay) (v : ViewPtr) (b : BranchPtr) : Decidable (o.MayExpand t v b) :=
  inferInstanceAs (Decidable (_ ∧ _))

theorem Shows.clear_of_mayExpand (shows : Shows want t o v {t.branch}) (wf : t.WellFormed)
    (searched : Searched t o v b) (indexed : t.Indexed b) (may : o.MayExpand t v b) :
    Clear t o v b := by
  intro a p c up hidden step child
  cases above : stand t o v p with
  | none => exact shows.hidden_child wf above child
  | some y =>
      -- Below the hidden `a` nothing is shown, so `p` is where the climb from `b` ends.
      have lower : ∀ d, Anc t.parent b d → Anc t.parent d a → stand t o v d = none := by
        intro d _ upper
        by_contra there
        rcases Option.ne_none_iff_exists'.mp there with ⟨x, present⟩
        exact shows.present_above wf present upper hidden
      have first : FirstShown t o v b p y := by
        refine ⟨up.trans (anc_of_parent step), above, ?_⟩
        intro d upD strict
        rcases up.total upD with lowD | highD
        · rcases anc_iff_eq_or_strictAnc.mp lowD with rfl | strictA
          · exact hidden
          · have back := (strictAnc_iff_of_parent step).mp strictA
            exact absurd back (wf.acyclic.not_anc_of_strict strict)
        · exact lower d upD highD
      have hiddenB : viewGetVbranch o v b = none := by
        rw [← stand_of_indexed indexed]
        exact lower b (anc_refl _ b) up
      have ended := (searched.endpoint_iff wf).mpr first
      exact shows.hidden_of_folded wf above (may.2 hiddenB _ ended) child

theorem Shows.folded_of_mayExpand (shows : Shows want t o v {t.branch}) (wf : t.WellFormed)
    (indexed : t.Indexed b) (may : o.MayExpand t v b) {x : VbranchPtr}
    (present : stand t o v b = some x) {c : BranchPtr} (child : t.parent c = some b) :
    stand t o v c = none := by
  rw [stand_of_indexed indexed] at present
  rcases may.1 x present with bare | folded
  · have member := wf.mirrors.mem_iff.mpr child
    simp [bare] at member
  · rw [← stand_of_indexed indexed] at present
    exact shows.hidden_of_folded wf present folded child

/-- A registered view is expanded to a branch and its children. -/
theorem Sound.expandTo {o' : Overlay} {id : UInt32} {r : Option VbranchPtr}
    (sound : Sound want t o) (wf : t.WellFormed) (found : viewIndexGet o id = some v)
    (indexed : t.Indexed b) (may : o.MayExpand t v b)
    (run : Treedb.viewExpandTo t o v b true = .ok (o', r)) :
    Sound want t o' ∧ viewIndexGet o' id = some v := by
  have shows := sound.shows found
  apply sound.viewExpandTo wf found indexed _ _ run
  · exact shows.clear_of_mayExpand wf (sound.sealed.searched wf indexed) indexed may
  · exact fun _ x present c child => shows.folded_of_mayExpand wf indexed may present child

end Endpoint

/-! ## Insert -/

section Insert

variable {want : Demands} {t : Tree} {o o' : Overlay} {view : Option ViewPtr} {pvb : VbranchPtr}
  {pb nb : BranchPtr} {parentId : UInt64} {pos : UInt32}

/-- What a message queue gains if `sent` holds. -/
def Overlay.outQWith (o : Overlay) (sent : Prop) [Decidable sent] (msg : Message) : List Message :=
  if sent then o.outQ ++ [msg] else o.outQ

/-- All siblings of the branch `b` are shown, or none. -/
def Overlay.SiblingsWhole (t : Tree) (o : Overlay) (v : ViewPtr) (b pb : BranchPtr) : Prop :=
  (∀ c, t.parent c = some pb → c ≠ b → stand t o v c = none) ∨
    ∀ c, t.parent c = some pb → c ≠ b → stand t o v c ≠ none

/-- The place of the branch in the tree is the right one in the list of vbranches. -/
theorem Shows.inOrder_of_siblings {v : ViewPtr} {y : VbranchPtr}
    (shows : Shows want t o v {t.branch}) (order : want.order) (wf : t.WellFormed)
    (step : t.parent nb = some pb) (above : stand t o v pb = some y)
    (absent : stand t o v nb = none) (siblings : o.SiblingsWhole t v nb pb) (x : VbranchPtr) :
    ((o.vchildren y).insertIdx (insertPos (branchGetPos t nb) (o.vchildren y).length) x).Sublist
      ((t.children pb).filterMap (Function.update (stand t o v) nb (some x))) := by
  have member := wf.mirrors.mem_iff.mpr step
  rw [shows.vchildren_eq order wf above, wf.branchGetPos_eq step]
  rcases siblings with folded | unfolded
  · have empty : (t.children pb).filterMap (stand t o v) = [] := by
      apply List.filterMap_eq_nil_iff.mpr
      intro c inside
      by_cases here : c = nb
      · rw [here, absent]
      · exact folded c (wf.mirrors.mem_iff.mp inside) here
    have start : insertPos ((t.children pb).idxOf nb) 0 = 0 := Nat.le_zero.mp (insertPos_le _ 0)
    rw [empty, List.length_nil, start, List.insertIdx_zero, List.singleton_sublist,
      List.mem_filterMap]
    exact ⟨nb, member, Function.update_self ..⟩
  · rcases insertIdx_filterMap x (wf.mirrors.nodup pb) member absent
      fun c inside => unfolded c (wf.mirrors.mem_iff.mp inside) with ⟨short, same⟩
    have place : insertPos ((t.children pb).idxOf nb)
        ((t.children pb).filterMap (stand t o v)).length = (t.children pb).idxOf nb := by
      unfold insertPos
      split <;> omega
    rw [place, same]

/-- The new branch is shown where its siblings are, and always by the view that inserts it. -/
theorem Shows.insertVbranch (shows : Shows want t o pvb.view {t.branch}) (wf : t.WellFormed)
    (step : t.parent nb = some pb) (above : stand t o pvb.view pb = some pvb)
    (absent : stand t o pvb.view nb = none)
    (siblings : want.order → o.SiblingsWhole t pvb.view nb pb)
    (run : insertVbranch t view parentId nb pos o pvb = .ok o') :
    Shows want t o' pvb.view {t.branch} ∧ Within t pvb.view o o' ∧
      ((some pvb.view ≠ view ∧ o.vchildren pvb = []) ∧ o' = o ∨
        ¬(some pvb.view ≠ view ∧ o.vchildren pvb = []) ∧
        stand t o' pvb.view =
          Function.update (stand t o pvb.view) nb (some ⟨pvb.view, o.vnext⟩) ∧
        ∃ o₁, o'.vmem = o₁.vmem ∧ o'.vnext = o₁.vnext ∧
          o'.outQ = o.outQWith (some pvb.view ≠ view) (.mapInsert (o.views pvb.view).id parentId
            pos.toNat (vbranchToJson t o₁ ⟨pvb.view, o.vnext⟩))) := by
  unfold Treedb.insertVbranch at run
  by_cases skipped : some pvb.view ≠ view ∧ (o.vmem pvb).childList = []
  · rw [if_pos skipped, Except.ok.injEq] at run
    subst run
    exact ⟨shows, Within.refl t _ o, .inl ⟨skipped, rfl⟩⟩
  · rw [if_neg skipped] at run
    rcases bind_eq_ok.mp run with ⟨o₁, linked, run⟩
    rcases shows.addLinked wf (wf.indexed_of_parent step) absent step above rfl
      (fun order => shows.inOrder_of_siblings order wf step above absent (siblings order) _) linked
      with ⟨after, within, outQ, stands, _⟩
    have sameId : ((branchAttachVbranch o₁ nb ⟨pvb.view, o.vnext⟩).views pvb.view).id =
        (o.views pvb.view).id := within.view_id
    by_cases other : some pvb.view ≠ view
    · rw [if_pos other, pure_eq_ok, Except.ok.injEq] at run
      subst run
      refine ⟨after.push _, within.trans ((relinks_push _ _ _).within t), .inr ⟨skipped, ?_, ?_⟩⟩
      · rw [← stands]
        exact (relinks_push _ pvb.view _).stand t pvb.view
      · refine ⟨branchAttachVbranch o₁ nb ⟨pvb.view, o.vnext⟩, rfl, rfl, ?_⟩
        rw [outQWith, if_pos other, ← outQ, ← sameId]
        rfl
    · rw [if_neg other, pure_eq_ok, Except.ok.injEq] at run
      subst run
      refine ⟨after, within, .inr ⟨skipped, stands, _, rfl, rfl, ?_⟩⟩
      rw [outQWith, if_neg other]
      exact outQ

/-- The branch `b` was just added and nobody shows it. -/
theorem Sound.grow {new : Branch} {i : ℕ} (sound : Sound want t o) (wf : t.WellFormed)
    (allowed : (Edit.grow pb new i).Allowed t) :
    Sound want ((Edit.grow pb new i).apply t) o where
  registered := by
    intro id v found
    rcases sound.registered found with ⟨named, allocated, shows⟩
    rw [Edit.apply_branch]
    exact ⟨named, allocated, shows.grow wf allowed (mine_eq_nil (sound.fresh _ (le_refl _)))⟩
  attached := by
    intro b vb indexed member
    rcases (wf.grow_apply allowed b).2.2.2.mp indexed with rfl | before
    · simp [sound.fresh _ (le_refl _)] at member
    · exact sound.attached before member
  fresh := by
    intro b beyond
    rw [Edit.grow_apply_next] at beyond
    exact sound.fresh b (Nat.le_of_succ_le beyond)
  sealed := by
    intro b out inner
    rw [(wf.grow_apply allowed b).2.2.2, not_or] at out
    rw [(wf.grow_apply allowed b).2.1] at inner
    · exact sound.sealed b out.2 inner
    · rintro rfl
      exact out.2 allowed.2.2.1

theorem Sound.insertVbranch_all (sound : Sound want t o) (wf : t.WellFormed)
    (indexed : t.Indexed pb) (step : t.parent nb = some pb) (bare : o.vbranchList nb = [])
    (siblings : want.order → ∀ v, o.SiblingsWhole t v nb pb)
    (run : (o.vbranchList pb).foldlM (insertVbranch t view parentId nb pos) o = .ok o') :
    Sound want t o' := by
  rcases foldlM_views want t t (sound.nodup_views indexed) (by
    intro pvb o₁ o₂ member keeps _ added
    have above := sound.stand_of_mem indexed member
    rcases sound.attached indexed member with ⟨id, found⟩
    have absent : stand t o pvb.view nb = none := by
      rw [stand_of_indexed (wf.indexed_of_parent step), viewGetVbranch, bare]
      rfl
    rw [← keeps.stand t] at above absent
    rcases ((sound.shows found).keeps keeps).insertVbranch wf step above absent (by
      intro order
      rw [SiblingsWhole, keeps.stand t]
      exact siblings order pvb.view) added with ⟨after, within, _⟩
    exact ⟨after, within⟩) run with ⟨turned, kept, registry⟩
  apply sound.turn (fun vb member => sound.attached indexed member) turned kept registry
  · intro id w found out
    exact (sound.shows found).keeps (kept w out)
  · exact fun b known => known
  · intro b beyond
    exact ⟨beyond, fun known => Nat.lt_irrefl _ ((wf.indexed_lt known).trans_le beyond)⟩
  · intro b out inner
    rw [registry.gone b out]
    exact sound.sealed b out inner

/-- Counting only queues messages. -/
theorem insertCount_cases {vbr : VbranchPtr} (run : insertCount t view pb o vbr = .ok o') :
    o' = o ∨ ∃ msg, o' = o.push msg := by
  unfold insertCount at run
  split at run
  · exact .inl (Except.ok.inj run).symm
  · split at run
    · dsimp only at run
      split at run
      · simp at run
      · split at run
        · exact .inl (Except.ok.inj run).symm
        · exact .inr ⟨_, (Except.ok.inj run).symm⟩
    · split at run
      · dsimp only at run
        split at run
        · exact .inl (Except.ok.inj run).symm
        · exact .inr ⟨_, (Except.ok.inj run).symm⟩
      · exact .inl (Except.ok.inj run).symm

theorem insertCount_all_frame {list : List VbranchPtr}
    (run : list.foldlM (insertCount t view pb) o = .ok o') :
    o'.vbranchList = o.vbranchList ∧ o'.vmem = o.vmem := by
  apply foldlM_invariant (fun s : Overlay => s.vbranchList = o.vbranchList ∧ s.vmem = o.vmem) _
    ⟨rfl, rfl⟩ run
  intro o₁ vbr o₂ _ before counted
  rcases insertCount_cases counted with rfl | ⟨msg, rfl⟩
  · exact before
  · exact before

/-- A view that hides a parent without a parent makes the counting fail. -/
theorem insertCount_ok_iff {vbr : VbranchPtr} :
    (∃ o', insertCount t view pb o vbr = .ok o') ↔
      (t.parent pb = none → some vbr.view = view ∨ viewGetVbranch o vbr.view pb ≠ none) := by
  by_cases asks : some vbr.view = view
  · simp [insertCount, asks]
  · simp only [insertCount, asks, if_false, false_or]
    cases found : viewGetVbranch o vbr.view pb with
    | some vb =>
        simp only [ne_eq, reduceCtorEq, not_false_eq_true, implies_true, iff_true]
        split
        · cases endpoint t o vbr.view pb with
          | none => exact ⟨_, rfl⟩
          | some ep => exact ⟨_, rfl⟩
        · exact ⟨_, rfl⟩
    | none =>
        rcases top : t.parent pb with _ | p
        · simp only [show (t.mem pb).parent = none from top, ne_eq, not_true_eq_false, imp_false,
            iff_false]
          simp
        · simp only [show (t.mem pb).parent = some p from top, reduceCtorEq, false_imp_iff, iff_true]
          cases endpoint t o vbr.view p with
          | none => exact ⟨_, rfl⟩
          | some ep => exact ⟨_, rfl⟩

theorem insertCount_all_ok_iff {list : List VbranchPtr} :
    (∃ o', list.foldlM (insertCount t view pb) o = .ok o') ↔
      (t.parent pb = none →
        ∀ vbr ∈ list, some vbr.view = view ∨ viewGetVbranch o vbr.view pb ≠ none) := by
  induction list generalizing o with
  | nil => simp [pure_eq_ok]
  | cons vbr list ih =>
      have same : ∀ {o₁}, insertCount t view pb o vbr = .ok o₁ →
          ∀ v, viewGetVbranch o₁ v pb = viewGetVbranch o v pb := by
        intro o₁ counted v
        rcases insertCount_cases counted with rfl | ⟨msg, rfl⟩
        · rfl
        · rfl
      simp only [List.foldlM_cons, List.mem_cons, forall_eq_or_imp]
      constructor
      · rintro ⟨o', run⟩ top
        rcases bind_eq_ok.mp run with ⟨o₁, counted, rest⟩
        have later := ih.mp ⟨o', rest⟩ top
        simp only [same counted] at later
        exact ⟨insertCount_ok_iff.mp ⟨o₁, counted⟩ top, later⟩
      · intro all
        rcases insertCount_ok_iff.mpr fun top => (all top).1 with ⟨o₁, counted⟩
        rw [counted, ok_bind]
        refine ih.mpr fun top => ?_
        simp only [same counted]
        exact (all top).2

theorem Sound.insertCount_all {list : List VbranchPtr} (sound : Sound want t o)
    (run : list.foldlM (insertCount t view pb) o = .ok o') : Sound want t o' := by
  apply foldlM_invariant (Sound want t) _ sound run
  intro o₁ vbr o₂ _ before counted
  rcases insertCount_cases counted with rfl | ⟨msg, rfl⟩
  · exact before
  · exact before.push msg

theorem Sound.insertExpand {id : UInt32} (sound : Sound want t o) (wf : t.WellFormed)
    (indexed : t.Indexed pb)
    (may : ∀ v ∈ viewIndexGet o id, viewGetVbranch o v pb = none → o.MayExpand t v pb)
    (run : insertExpand t o (viewIndexGet o id) pb pos = .ok o') : Sound want t o' := by
  unfold Treedb.insertExpand at run
  split at run
  · rw [← Except.ok.inj run]
    exact sound
  · rename_i v found
    split at run
    · rw [← Except.ok.inj run]
      exact sound
    · rename_i hidden
      rcases bind_eq_ok.mp run with ⟨⟨o₁, r⟩, expanded, run⟩
      have after := (sound.expandTo wf found indexed (may v found hidden) expanded).1
      split at run
      · rw [← Except.ok.inj run]
        exact after
      · rw [← Except.ok.inj run]
        exact after.push _

/-- `insert` keeps the views sound. -/
theorem Sound.insert {m m' : Map} {id : UInt32} {branchId : UInt64} {text : CString}
    {mark doc : UInt64} {r : Option BranchPtr} (sound : Sound want m.tree m.overlay)
    (wf : m.tree.WellFormed) (unordered : ¬want.order)
    (may : ∀ pb ∈ branchIndexGet m.tree parentId, branchIndexGet m.tree branchId = none →
      ∀ v ∈ viewIndexGet m.overlay id, viewGetVbranch m.overlay v pb = none →
        m.overlay.MayExpand m.tree v pb)
    (run : Treedb.insert m (viewIndexGet m.overlay id) parentId branchId pos text mark doc =
      .ok (m', r)) : Sound want m'.tree m'.overlay := by
  rcases insert_stages wf run with ⟨rfl, _, _⟩ | ⟨_, pb, o₁, o₂, stages⟩
  · exact sound
  · have indexed : m.tree.Indexed pb := ⟨parentId, stages.known⟩
    have sound₁ := sound.insertExpand wf indexed (may pb stages.known stages.unused) stages.expanded
    have facts := wf.grow_apply stages.allowed
    have shown := stages.shown
    rw [stages.tree] at shown
    apply Sound.insertCount_all _ stages.counted
    rw [stages.tree]
    apply (sound₁.grow wf stages.allowed).insertVbranch_all (wf.apply stages.allowed) _ _ _
      (fun order => absurd order unordered) shown
    · exact (facts pb).2.2.2.mpr (.inr indexed)
    · rw [(facts m.tree.next).1, if_pos rfl]
    · exact sound₁.fresh _ (le_refl _)

end Insert

/-! ## Move -/

section Move

variable {want : Demands} {t : Tree} {o o' : Overlay} {view : Option ViewPtr} {v : ViewPtr}
  {vbr vb vnpb : VbranchPtr} {b opb npb : BranchPtr} {newParentId : UInt64} {pos : UInt16} {i : ℕ}

/-- A shown vbranch follows its branch to a shown parent. -/
theorem Shows.moveVbranch (shows : Shows want t o v {t.branch}) (wf : t.WellFormed)
    (allowed : (Edit.rehome b opb npb i).Allowed t) (own : vbr.view = v)
    (present : stand t o v b = some vb) (above : stand t o v npb = some vnpb)
    (unordered : ¬want.order) (run : moveVbranch t o view vbr vb vnpb b npb pos = .ok o') :
    Shows want ((Edit.rehome b opb npb i).apply t) o' v {t.branch} ∧ Within t v o o' ∧
      stand t o' v = stand t o v ∧
      o'.outQ = o.outQWith (some v ≠ view) (mapMoveMessage t o v npb b pos) := by
  have low : b ≠ t.branch := wf.ne_root allowed.1
  rcases shows.detach present low with ⟨loose, relinks₁, outQ₁⟩
  have stands₁ := relinks₁.stand t v
  have moved := loose.rehome allowed (.inr (Set.mem_insert b _)) unordered
  rcases bind_eq_ok.mp run with ⟨o₁, linked, run⟩
  have place : ((Edit.rehome b opb npb i).apply t).parent b = some npb := by
    rw [(t.rehome_apply b opb npb i b).1, if_pos rfl]
  rcases moved.link (wf.apply allowed) (a := npb) (by rw [← stands₁] at present; exact present) place
    (by rw [← stands₁] at above; exact above) (fun order => absurd order unordered) linked with
    ⟨after, relinks₂, outQ₂⟩
  have relinks := relinks₁.trans relinks₂
  by_cases other : some vbr.view ≠ view
  · rw [if_pos other, pure_eq_ok, Except.ok.injEq] at run
    subst run
    have pushed := relinks.trans (relinks_push o₁ v (mapMoveMessage t o₁ vbr.view npb b pos))
    refine ⟨after.push _, pushed.within t, pushed.stand t v, ?_⟩
    rw [own] at other
    rw [outQWith, if_pos other, ← outQ₁, ← outQ₂, own, mapMoveMessage, mapMoveMessage,
      relinks.views]
    rfl
  · rw [if_neg other, pure_eq_ok, Except.ok.injEq] at run
    subst run
    rw [own] at other
    refine ⟨after, relinks.within t, relinks.stand t v, ?_⟩
    rw [outQWith, if_neg other, outQ₂, outQ₁]

/-- The counter message for the hidden part of the view that a branch leaves. -/
def leaveMessages (t : Tree) (o : Overlay) (v : ViewPtr) (b opb : BranchPtr) : List Message :=
  match endpoint t o v opb with
  | none => []
  | some ep => [.mapCount (o.views v).id (t.mem ep.1).id (-subtreeSize t b)]

/-- More messages at the end of the queue. -/
def Overlay.queue (o : Overlay) (msgs : List Message) : Overlay :=
  { o with outQ := o.outQ ++ msgs }

theorem relinks_queue (o : Overlay) (v : ViewPtr) (msgs : List Message) :
    Relinks v o (o.queue msgs) :=
  ⟨⟨fun _ => rfl, rfl, rfl, rfl, rfl, rfl⟩, fun _ _ => rfl⟩

theorem Shows.queue {tops : Set BranchPtr} (shows : Shows want t o v tops) (msgs : List Message) :
    Shows want t (o.queue msgs) v tops :=
  shows.remark (relinks_queue o v msgs).toAlike (fun _ => rfl) fun _ => rfl

theorem moveIntoView_eq (t : Tree) (o : Overlay) (vbr vnpb : VbranchPtr) (b opb : BranchPtr)
    (newParentId : UInt64) (pos : UInt16) :
    moveIntoView t o vbr vnpb b opb newParentId pos = (do
      let o := o.queue (leaveMessages t o vbr.view b opb)
      let x : VbranchPtr := ⟨vnpb.view, o.vnext⟩
      let o ← vbranchAdd t (vbranchIndexPut t
        (vbranchNew o vnpb.view { branch := b, parent := some vnpb }).1 vnpb.view x) x vnpb
      let o := branchAttachVbranch o b x
      return o.push (.mapInsert (o.views vnpb.view).id newParentId pos.toNat
        (vbranchToJson t o x))) := by
  unfold moveIntoView leaveMessages
  cases endpoint t o vbr.view opb with
  | none =>
      have same : o.queue [] = o := by simp [Overlay.queue]
      dsimp only
      rw [same]
      rfl
  | some ep => rfl

/-- A hidden branch is shown below a shown parent. -/
theorem Shows.moveIntoView (shows : Shows want t o v {t.branch}) (wf : t.WellFormed)
    (allowed : (Edit.rehome b opb npb i).Allowed t) (own : vbr.view = v)
    (absent : stand t o v b = none) (above : stand t o v npb = some vnpb)
    (unordered : ¬want.order) (run : moveIntoView t o vbr vnpb b opb newParentId pos = .ok o') :
    Shows want ((Edit.rehome b opb npb i).apply t) o' v {t.branch} ∧ Within t v o o' ∧
      stand t o' v = Function.update (stand t o v) b (some ⟨v, o.vnext⟩) ∧
      (∀ x, x ≠ b → o'.vbranchList x = o.vbranchList x) ∧
      ∃ o₁, o'.vmem = o₁.vmem ∧ o'.vnext = o₁.vnext ∧
        o'.outQ = o.outQ ++ leaveMessages t o v b opb ++ [.mapInsert (o.views v).id newParentId
          pos.toNat (vbranchToJson t o₁ ⟨v, o.vnext⟩)] := by
  rw [moveIntoView_eq, own, view_of_stand above] at run
  have relinks := relinks_queue o v (leaveMessages t o v b opb)
  have shows₁ := shows.queue (leaveMessages t o v b opb)
  have outQ₁ : (o.queue (leaveMessages t o v b opb)).outQ = o.outQ ++ leaveMessages t o v b opb := rfl
  generalize o.queue (leaveMessages t o v b opb) = o₁ at run relinks shows₁ outQ₁
  rcases bind_eq_ok.mp run with ⟨o₂, linked, run⟩
  simp only [pure_eq_ok, Except.ok.injEq] at run
  have stands₁ := relinks.stand t v
  have moved := shows₁.rehome allowed (.inl (by rw [stands₁]; exact absent)) unordered
  have facts := t.rehome_apply b opb npb i
  have wf' := wf.apply allowed
  have place := (facts b).1
  rw [if_pos rfl] at place
  have same : ∀ o : Overlay, stand ((Edit.rehome b opb npb i).apply t) o v = stand t o v :=
    fun o => rfl
  have sameRoot := (Edit.rehome b opb npb i).apply_branch t
  generalize (Edit.rehome b opb npb i).apply t = t' at moved facts wf' place same sameRoot ⊢
  rw [← sameRoot] at moved ⊢
  have indexed : t'.Indexed b := (facts b).2.2.mpr (wf.indexed_of_parent allowed.1)
  rw [← stands₁, ← same] at absent above
  rcases moved.addLinked wf' indexed absent place above (facts b).2.1.symm
    (fun order => absurd order unordered) linked with ⟨after, within, outQ₂, stands₂, lists⟩
  generalize branchAttachVbranch o₂ b ⟨v, o₁.vnext⟩ = o₃ at run after within outQ₂ stands₂ lists
  have within' : Within t v o₁ o₃ := by
    refine ⟨within.toBeside, within.view_id, within.view_root, within.viewNext, within.viewIndex, ?_⟩
    intro x out
    apply within.gone
    rw [(facts x).2.2]
    exact out
  have pushed := relinks_push o₃ v
    (.mapInsert (o₃.views v).id newParentId pos.toNat (vbranchToJson t o₃ ⟨v, o₁.vnext⟩))
  have after' := after.push
    (.mapInsert (o₃.views v).id newParentId pos.toNat (vbranchToJson t o₃ ⟨v, o₁.vnext⟩))
  rw [run] at pushed after'
  refine ⟨after', (relinks.within t).trans (within'.trans (pushed.within t)), ?_, ?_, o₃, ?_⟩
  · rw [pushed.stand t v, ← same, stands₂, same, stands₁, relinks.vnext]
  · intro x other
    rw [pushed.vbranchList, lists x other, relinks.vbranchList]
  · rw [← run, ← relinks.vnext, ← relinks.views, ← within.view_id, ← outQ₁, ← outQ₂]
    exact ⟨rfl, rfl, rfl⟩

/-- The messages for a branch that moves between hidden parts of a view. -/
theorem moveHidden_cases (run : moveHidden t o vbr b opb npb = .ok o') :
    ∃ msgs, o' = o.queue msgs := by
  unfold moveHidden at run
  split at run
  · exact ⟨[], by rw [← Except.ok.inj run]; simp [Overlay.queue]⟩
  · split at run
    · exact ⟨[], by rw [← Except.ok.inj run]; simp [Overlay.queue]⟩
    · rename_i src dst _ _ _
      refine ⟨[.mapCount (o.views vbr.view).id (t.mem (o.vmem src.2).branch).id (-subtreeSize t b),
        .mapCount (o.views vbr.view).id (t.mem (o.vmem dst.2).branch).id (subtreeSize t b)], ?_⟩
      rw [← Except.ok.inj run]
      simp [Overlay.push, Overlay.queue]
  · simp at run

/-- Where a hidden part of the view is the destination, the view is expanded and the vbranch moved. -/
theorem Shows.moveExpanding_stages (shows : Shows want t o v {t.branch}) (wf : t.WellFormed)
    (searched : Searched t o v npb) (indexed : t.Indexed npb) (own : vbr.view = v)
    (clear : Clear t o v npb)
    (folded : ∀ x, stand t o v npb = some x → ∀ c, t.parent c = some npb → stand t o v c = none)
    (inner : t.parent npb ≠ none) (run : Treedb.moveExpanding t o view vbr vb b npb pos = .ok o') :
    ∃ o₁ e y vnpb, Treedb.viewExpandTo t o v npb true = .ok (o₁, some y) ∧ FirstShown t o v npb e y ∧
      Shows want t o₁ v {t.branch} ∧ Enlarges t v o o₁ ∧
      (∀ c, stand t o₁ v c ≠ none ↔
        stand t o v c ≠ none ∨ OnClimb t o v npb c ∨ t.parent c = some npb) ∧
      stand t o₁ v npb = some vnpb ∧
      Treedb.moveVbranch t (o₁.push (expandedMessage t o₁ y pos.toNat)) view vbr vb vnpb b npb pos =
        .ok o' := by
  rcases bind_eq_ok.mp run with ⟨⟨o₁, r⟩, expanded, run⟩
  rw [own] at expanded
  rcases shows.viewExpandTo wf searched indexed clear (fun _ => folded) expanded with
    ⟨after, enlarges, shown, ends⟩
  rcases ends with ⟨top, _⟩ | ⟨there, e, y, rfl, first⟩
  · exact absurd top inner
  · rcases Option.ne_none_iff_exists'.mp there with ⟨vnpb, above⟩
    have found : viewGetVbranch (o₁.push (expandedMessage t o₁ y pos.toNat)) vbr.view npb =
        some vnpb := by
      rw [own, ← stand_of_indexed indexed]
      exact above
    simp only [found] at run
    refine ⟨o₁, e, y, vnpb, expanded, first, after, enlarges, ?_, above, run⟩
    intro c
    rw [shown c]
    simp [there]

/-- A branch in a hidden part of the view is brought into view before the vbranch moves there. -/
theorem Shows.moveExpanding (shows : Shows want t o v {t.branch}) (wf : t.WellFormed)
    (searched : Searched t o v npb) (allowed : (Edit.rehome b opb npb i).Allowed t)
    (own : vbr.view = v) (clear : Clear t o v npb)
    (folded : ∀ x, stand t o v npb = some x → ∀ c, t.parent c = some npb → stand t o v c = none)
    (inner : t.parent npb ≠ none) (present : stand t o v b = some vb) (unordered : ¬want.order)
    (run : moveExpanding t o view vbr vb b npb pos = .ok o') :
    Shows want ((Edit.rehome b opb npb i).apply t) o' v {t.branch} ∧ Within t v o o' ∧
      ∃ o₁ e y, FirstShown t o v npb e y ∧ Shows want t o₁ v {t.branch} ∧ Enlarges t v o o₁ ∧
        (∀ c, stand t o₁ v c ≠ none ↔
          stand t o v c ≠ none ∨ OnClimb t o v npb c ∨ t.parent c = some npb) ∧
        stand t o' v = stand t o₁ v ∧
        o'.outQ = (o₁.push (expandedMessage t o₁ y pos.toNat)).outQWith (some v ≠ view)
          (mapMoveMessage t o v npb b pos) := by
  rcases shows.moveExpanding_stages wf searched allowed.2.1 own clear folded inner run with
    ⟨o₁, e, y, vnpb, _, first, after, enlarges, shown, above, moved⟩
  have pushed := relinks_push o₁ v (expandedMessage t o₁ y pos.toNat)
  have before := enlarges.kept present
  rw [← pushed.stand t v] at above before
  rcases (after.push _).moveVbranch wf allowed own before above unordered moved with
    ⟨final, within, stands, outQ⟩
  refine ⟨final, enlarges.within.trans ((pushed.within t).trans within), o₁, e, y, first, after,
    enlarges, shown, ?_, ?_⟩
  · rw [stands, pushed.stand t v]
  · rw [outQ, mapMoveMessage, mapMoveMessage, pushed.views, enlarges.within.view_id]

/-- The vbranch of the destination, if it is shown and not still to be unfolded. -/
def moveDest (t : Tree) (o : Overlay) (v : ViewPtr) (npb : BranchPtr) : Option VbranchPtr :=
  (viewGetVbranch o v npb).filter fun vnpb =>
    !decide ((t.mem (o.vmem vnpb).branch).childN ≠ 0 ∧ (o.vmem vnpb).childList = [])

theorem moveInView_eq (t : Tree) (view : Option ViewPtr) (b opb npb : BranchPtr)
    (newParentId : UInt64) (pos : UInt16) (o : Overlay) (vbr : VbranchPtr) :
    moveInView t view b opb npb newParentId pos o vbr =
      match viewGetVbranch o vbr.view b, moveDest t o vbr.view npb with
      | some vb, some vnpb => moveVbranch t o view vbr vb vnpb b npb pos
      | none, some vnpb =>
          if some vbr.view ≠ view then moveIntoView t o vbr vnpb b opb newParentId pos else .ok o
      | some vb, none => moveExpanding t o view vbr vb b npb pos
      | none, none => if some vbr.view ≠ view then moveHidden t o vbr b opb npb else .ok o :=
  rfl

theorem viewGetVbranch_of_moveDest (found : moveDest t o v npb = some vnpb) :
    viewGetVbranch o v npb = some vnpb := by
  unfold moveDest at found
  exact (Option.filter_eq_some_iff.mp found).1

theorem folded_of_moveDest {x : VbranchPtr} (indexed : t.Indexed npb)
    (hidden : moveDest t o v npb = none) (present : stand t o v npb = some x) :
    o.vchildren x = [] := by
  rw [stand_of_indexed indexed] at present
  rw [moveDest, present, Option.filter_some] at hidden
  split at hidden
  · simp at hidden
  · rename_i closed
    simp only [Bool.not_eq_true', decide_eq_false_iff_not, not_not] at closed
    exact closed.2

/-- A view that shows more than the root has the root unfolded. -/
theorem Shows.root_unfolded (shows : Shows want t o v {t.branch}) (wf : t.WellFormed)
    (present : stand t o v b = some vb) (low : b ≠ t.branch) :
    o.vchildren (o.views v).vbranch ≠ [] := by
  induction b using wf.acyclic.induction generalizing vb with
  | step b ih =>
      rcases shows.shadow.up_eq present low with ⟨p, y, step, above, _⟩
      by_cases top : p = t.branch
      · subst top
        apply List.ne_nil_of_mem
        exact (shows.shadow.mem_down shows.root).mpr ⟨b, step, low, present⟩
      · exact ih p step above top

/-- A shown branch only moves into a hidden part below other branches. -/
theorem Shows.parent_of_moveDest (shows : Shows want t o v {t.branch}) (wf : t.WellFormed)
    (onlyRoot : t.parent npb = none → npb = t.branch) (present : stand t o v b = some vb)
    (low : b ≠ t.branch) (hidden : moveDest t o v npb = none) : t.parent npb ≠ none := by
  intro top
  rw [onlyRoot top] at hidden
  have unfolded := shows.root_unfolded wf present low
  exact unfolded (folded_of_moveDest wf.root_indexed hidden shows.root)

/-- Where the destination is hidden or folded, none of its children is shown. -/
theorem Shows.hidden_of_moveDest (shows : Shows want t o v {t.branch}) (wf : t.WellFormed)
    (indexed : t.Indexed npb) (hidden : moveDest t o v npb = none) {c : BranchPtr}
    (child : t.parent c = some npb) : stand t o v c = none := by
  cases present : stand t o v npb with
  | none => exact shows.hidden_child wf present child
  | some x => exact shows.hidden_of_folded wf present (folded_of_moveDest indexed hidden present) child

/-- Where the destination is shown unfolded, all its children are, if no branch is without its siblings. -/
theorem Shows.shown_of_moveDest (shows : Shows want t o v {t.branch}) (wf : t.WellFormed)
    (whole : Whole t o v) (indexed : t.Indexed npb) (found : moveDest t o v npb = some vnpb)
    {c : BranchPtr} (child : t.parent c = some npb) : stand t o v c ≠ none := by
  have present : stand t o v npb = some vnpb := by
    rw [stand_of_indexed indexed, viewGetVbranch_of_moveDest found]
  have member := wf.mirrors.mem_iff.mpr child
  have kept := (Option.filter_eq_some_iff.mp found).2
  simp only [Bool.not_eq_true', decide_eq_false_iff_not, not_and_or, not_not] at kept
  rw [shows.branch_eq present] at kept
  rcases kept with bare | unfolded
  · simp [(wf.childN_eq_zero_iff npb).mp bare] at member
  · rcases List.exists_mem_of_ne_nil _ unfolded with ⟨y, listed⟩
    rcases (shows.shadow.mem_down present).mp listed with ⟨d, childD, _, there⟩
    exact whole npb d c childD child (by simp [there])

/-- The view can be expanded to the branch: the way up is clear and leads to where it is shown. -/
structure Expandable (t : Tree) (o : Overlay) (v : ViewPtr) (b : BranchPtr) : Prop where
  searched : Searched t o v b
  clear : Clear t o v b
  inner : t.parent b ≠ none

/-- Where a shown branch moves into a hidden part of the view, the view can be expanded to it. -/
theorem Shows.expandable (shows : Shows want t o v {t.branch}) (wf : t.WellFormed)
    (onlyRoot : t.parent npb = none → npb = t.branch) (step : t.parent b = some opb)
    (searched : Searched t o v npb) (clear : Clear t o v npb)
    (src : viewGetVbranch o v b ≠ none) (dest : moveDest t o v npb = none) :
    Expandable t o v npb := by
  rw [← stand_of_indexed (wf.indexed_of_parent step)] at src
  rcases Option.ne_none_iff_exists'.mp src with ⟨vb, present⟩
  exact ⟨searched, clear,
    shows.parent_of_moveDest wf onlyRoot present (wf.ne_root step) dest⟩

/--
What `move` leaves of one view. It stays whole, unless it is the view that asks and the branch moves
from a part that it hides to one that it shows.
-/
theorem Shows.moveInView (shows : Shows want t o vbr.view {t.branch}) (wf : t.WellFormed)
    (allowed : (Edit.rehome b opb npb i).Allowed t)
    (expands : viewGetVbranch o vbr.view b ≠ none → moveDest t o vbr.view npb = none →
      Expandable t o vbr.view npb) (unordered : ¬want.order)
    (run : moveInView t view b opb npb newParentId pos o vbr = .ok o') :
    Shows want ((Edit.rehome b opb npb i).apply t) o' vbr.view {t.branch} ∧
      Within t vbr.view o o' ∧
      (Whole t o vbr.view → Whole ((Edit.rehome b opb npb i).apply t) o' vbr.view ∨
        some vbr.view = view ∧ stand ((Edit.rehome b opb npb i).apply t) o' vbr.view b = none) := by
  have indexedB : t.Indexed b := wf.indexed_of_parent allowed.1
  have indexedP : t.Indexed npb := allowed.2.1
  have placed := fun c => (t.rehome_apply b opb npb i c).1
  have same : ∀ o c, stand ((Edit.rehome b opb npb i).apply t) o vbr.view c =
      stand t o vbr.view c := fun _ _ => rfl
  have low : b ≠ t.branch := wf.ne_root allowed.1
  have hidden : stand t o vbr.view b = none →
      Shows want ((Edit.rehome b opb npb i).apply t) o vbr.view {t.branch} :=
    fun absent => shows.rehome allowed (.inl absent) unordered
  rw [moveInView_eq] at run
  cases src : viewGetVbranch o vbr.view b with
  | some vb =>
      have present : stand t o vbr.view b = some vb := by
        rw [stand_of_indexed indexedB, src]
      cases dest : moveDest t o vbr.view npb with
      | some vnpb =>
          simp only [src, dest] at run
          have above : stand t o vbr.view npb = some vnpb := by
            rw [stand_of_indexed indexedP, viewGetVbranch_of_moveDest dest]
          rcases shows.moveVbranch wf allowed rfl present above unordered run with
            ⟨after, within, stands, _⟩
          refine ⟨after, within, fun whole => .inl (whole.place placed ?_ ?_)⟩
          · intro c _
            rw [same, stands]
          · intro c _ child
            have there := shows.shown_of_moveDest wf whole indexedP dest child
            simp [same, stands, present, there]
      | none =>
          simp only [src, dest] at run
          have folded := fun c => shows.hidden_of_moveDest wf indexedP dest (c := c)
          rcases expands (by simp [src]) dest with ⟨searched, clear, inner⟩
          rcases shows.moveExpanding wf searched allowed rfl clear (fun _ _ => folded) inner present
            unordered run with
            ⟨after, within, o₁, _, _, _, _, enlarges, shown, stands, _⟩
          refine ⟨after, within, fun whole => .inl ?_⟩
          have whole₁ : Whole t o₁ vbr.view := by
            apply whole.enlarge shown
            rintro p c d childC childD (onClimb | child)
            · exact .inl (onClimb.sibling childC childD)
            · rw [childC] at child
              exact .inr (childD.trans child)
          refine whole₁.place placed ?_ ?_
          · intro c _
            rw [same, stands]
          · intro c _ child
            have there := (shown c).mpr (.inr (.inr child))
            simp [same, stands, enlarges.kept present, there]
  | none =>
      have absent : stand t o vbr.view b = none := by
        rw [stand_of_indexed indexedB, src]
      have kept : ∀ o₁, stand t o₁ vbr.view = stand t o vbr.view → moveDest t o vbr.view npb = none →
          Whole t o vbr.view → Whole ((Edit.rehome b opb npb i).apply t) o₁ vbr.view := by
        intro o₁ stands dest whole
        refine whole.place placed ?_ ?_
        · intro c _
          rw [same, stands]
        · intro c _ child
          rw [same, stands, absent, shows.hidden_of_moveDest wf indexedP dest child]
      cases dest : moveDest t o vbr.view npb with
      | some vnpb =>
          simp only [src, dest] at run
          have above : stand t o vbr.view npb = some vnpb := by
            rw [stand_of_indexed indexedP, viewGetVbranch_of_moveDest dest]
          split at run
          · rcases shows.moveIntoView wf allowed rfl absent above unordered run with
              ⟨after, within, stands, _⟩
            refine ⟨after, within, fun whole => .inl (whole.place placed ?_ ?_)⟩
            · intro c other
              rw [same, stands, Function.update_of_ne other]
            · intro c _ child
              have there := shows.shown_of_moveDest wf whole indexedP dest child
              simp [same, stands, there]
          · rename_i asks
            rw [not_not] at asks
            rw [← Except.ok.inj run]
            exact ⟨hidden absent, Within.refl t _ o, fun _ => .inr ⟨asks, absent⟩⟩
      | none =>
          simp only [src, dest] at run
          split at run
          · rcases moveHidden_cases run with ⟨msgs, rfl⟩
            have relinks := relinks_queue o vbr.view msgs
            exact ⟨(hidden absent).queue msgs, relinks.within t,
              fun whole => .inl (kept _ (relinks.stand t _) dest whole)⟩
          · rw [← Except.ok.inj run]
            exact ⟨hidden absent, Within.refl t _ o, fun whole => .inl (kept o rfl dest whole)⟩

/-! A view is asked about its own vbranches only. -/

theorem Overlay.Keeps.viewGetVbranch (keeps : Keeps v o o') (b : BranchPtr) :
    viewGetVbranch o' v b = viewGetVbranch o v b := by
  rw [viewGetVbranch_eq, viewGetVbranch_eq, keeps.mine]

theorem Overlay.Keeps.endpoint (keeps : Keeps v o o') (b : BranchPtr) :
    endpoint t o' v b = endpoint t o v b := by
  simp only [Treedb.endpoint, keeps.viewGetVbranch]

theorem view_of_endpoint {e : BranchPtr × VbranchPtr} (found : endpoint t o v b = some e) :
    e.2.view = v := by
  rcases List.exists_of_findSome?_eq_some found with ⟨a, _, there⟩
  rcases Option.map_eq_some_iff.mp there with ⟨x, present, rfl⟩
  exact view_of_viewGetVbranch present

theorem Overlay.Keeps.mayExpand (keeps : Keeps v o o') (may : o.MayExpand t v b) :
    o'.MayExpand t v b := by
  constructor
  · intro x found
    rw [keeps.viewGetVbranch] at found
    rw [vchildren, keeps.vmem x (view_of_viewGetVbranch found)]
    exact may.1 x found
  · intro hidden e found
    rw [keeps.viewGetVbranch] at hidden
    rw [keeps.endpoint] at found
    rw [vchildren, keeps.vmem e.2 (view_of_endpoint found)]
    exact may.2 hidden e found

theorem Overlay.Keeps.moveDest (keeps : Keeps v o o') (npb : BranchPtr) :
    moveDest t o' v npb = moveDest t o v npb := by
  unfold Treedb.moveDest
  rw [keeps.viewGetVbranch]
  cases found : Treedb.viewGetVbranch o v npb with
  | none => rfl
  | some x =>
      rw [Option.filter_some, Option.filter_some, keeps.vmem x (view_of_viewGetVbranch found)]

/-- The views that have to be expanded for a move can be. -/
def Map.MoveMayExpand (m : Map) (b npb : BranchPtr) : Prop :=
  ∀ vbr ∈ m.overlay.vbranchList m.tree.branch, viewGetVbranch m.overlay vbr.view b ≠ none →
    moveDest m.tree m.overlay vbr.view npb = none → m.overlay.MayExpand m.tree vbr.view npb

instance (m : Map) (b npb : BranchPtr) : Decidable (m.MoveMayExpand b npb) :=
  inferInstanceAs (Decidable (∀ _ ∈ _, _))

/-- The loop of `move` over the views. -/
theorem Sound.moveInView_all (sound : Sound want t o) (wf : t.WellFormed) (oneRoot : t.OneRoot)
    (allowed : (Edit.rehome b opb npb i).Allowed t)
    (may : ∀ vbr ∈ o.vbranchList t.branch, viewGetVbranch o vbr.view b ≠ none →
      moveDest t o vbr.view npb = none → o.MayExpand t vbr.view npb) (unordered : ¬want.order)
    (run : (o.vbranchList t.branch).foldlM (moveInView t view b opb npb newParentId pos) o =
      .ok o') :
    Sound want ((Edit.rehome b opb npb i).apply t) o' := by
  have facts := t.rehome_apply b opb npb i
  rcases foldlM_views want t ((Edit.rehome b opb npb i).apply t)
    (sound.nodup_views wf.root_indexed) (by
      intro vbr o₁ o₂ member keeps registry moved
      rcases sound.attached wf.root_indexed member with ⟨id, found⟩
      have shows := (sound.shows found).keeps keeps
      have searched : Searched t o₁ vbr.view npb := by
        apply Sealed.searched _ wf allowed.2.1
        intro x out inner
        rw [registry.gone x out]
        exact sound.sealed x out inner
      rcases shows.moveInView wf allowed (by
        intro src dest
        refine shows.expandable wf (oneRoot npb allowed.2.1) allowed.1 searched ?_ src dest
        rw [keeps.viewGetVbranch] at src
        rw [keeps.moveDest] at dest
        exact shows.clear_of_mayExpand wf searched allowed.2.1
          (keeps.mayExpand (may vbr member src dest))) unordered moved with ⟨after, within, _⟩
      exact ⟨after, within⟩) run with ⟨turned, kept, registry⟩
  apply sound.turn (fun vb member => sound.attached wf.root_indexed member) turned kept registry
  · intro id w found out
    rcases sound.view_mem found with ⟨member, own⟩
    exact absurd (List.mem_map.mpr ⟨_, member, own⟩) out
  · exact fun x indexed => (facts x).2.2.mp indexed
  · intro x beyond
    exact ⟨beyond, fun known => Nat.lt_irrefl _ ((wf.indexed_lt known).trans_le beyond)⟩
  · intro x out inner
    rw [(facts x).2.2] at out
    rw [registry.gone x out]
    apply sound.sealed x out
    intro bare
    apply inner
    apply t.rehome_apply_children b opb npb i bare
    rintro rfl
    exact out allowed.2.1

/-- `move` keeps the views sound. -/
theorem Sound.move {m m' : Map} {oldParentId branchId : UInt64} {accepted : Bool}
    (sound : Sound want m.tree m.overlay) (wf : m.tree.WellFormed) (oneRoot : m.tree.OneRoot)
    (may : ∀ b opb npb, moveCheck m.tree newParentId oldParentId branchId = .accept b opb npb →
      m.MoveMayExpand b npb) (unordered : ¬want.order)
    (run : Treedb.move m view newParentId oldParentId branchId pos = .ok (m', accepted)) :
    Sound want m'.tree m'.overlay := by
  unfold Treedb.move at run
  split at run
  · simp only [Except.ok.injEq, Prod.mk.injEq] at run
    rw [← run.1]
    exact sound
  · split at run
    · simp only [Except.ok.injEq, Prod.mk.injEq] at run
      rw [← run.1]
      exact sound
    · simp only [Except.ok.injEq, Prod.mk.injEq] at run
      rw [← run.1]
      exact sound.push _
  · rename_i b opb npb accept
    rcases bind_eq_ok.mp run with ⟨o₁, moved, run⟩
    rcases bind_eq_ok.mp run with ⟨t₁, edited, run⟩
    simp only [pure_eq_ok, Except.ok.injEq, Prod.mk.injEq] at run
    rcases (moveCheck_accept wf).mp accept with ⟨_, step, target, _, apart⟩
    have indexed : m.tree.Indexed npb := ⟨_, target⟩
    rw [wf.moveBranch_eq step indexed apart] at edited
    by_cases full : ((m.tree.unlink b opb).children npb).length = 65535
    · simp [full] at edited
    · rw [if_neg full, Except.ok.injEq] at edited
      have short := (wf.toShape.unlink step).children_length_le npb
      rw [← run.1, ← edited]
      exact sound.moveInView_all wf oneRoot ⟨step, indexed, apart, by omega, insertPos_le _ _⟩
        (may b opb npb accept) unordered moved

/-- A branch that no view shows is attached at most to itself by a move. -/
theorem moveInView_lists (wf : t.WellFormed) (shows : Shows want t o vbr.view {t.branch})
    (allowed : (Edit.rehome b opb npb i).Allowed t) (hidden : viewGetVbranch o vbr.view b = none)
    (unordered : ¬want.order) (run : moveInView t view b opb npb newParentId pos o vbr = .ok o')
    {x : BranchPtr}
    (other : x ≠ b) : o'.vbranchList x = o.vbranchList x := by
  rw [moveInView_eq, hidden] at run
  cases dest : moveDest t o vbr.view npb with
  | some vnpb =>
      simp only [dest] at run
      split at run
      · have above : stand t o vbr.view npb = some vnpb := by
          rw [stand_of_indexed allowed.2.1, viewGetVbranch_of_moveDest dest]
        have absent : stand t o vbr.view b = none := by
          rw [stand_of_indexed (wf.indexed_of_parent allowed.1), hidden]
        exact (shows.moveIntoView wf allowed rfl absent above unordered run).2.2.2.1 x other
      · rw [← Except.ok.inj run]
  | none =>
      simp only [dest] at run
      split at run
      · rcases moveHidden_cases run with ⟨msgs, rfl⟩
        rfl
      · rw [← Except.ok.inj run]

theorem Sound.moveInView_all_lists (sound : Sound want t o) (wf : t.WellFormed)
    (allowed : (Edit.rehome b opb npb i).Allowed t) (bare : o.vbranchList b = [])
    (unordered : ¬want.order)
    (run : (o.vbranchList t.branch).foldlM (moveInView t view b opb npb newParentId pos) o =
      .ok o') {x : BranchPtr} (other : x ≠ b) : o'.vbranchList x = o.vbranchList x := by
  have hidden : ∀ w, viewGetVbranch o w b = none := by
    intro w
    rw [viewGetVbranch, bare]
    rfl
  have looped := foldlM_keyed (F := Keeps) (Q := fun _ _ => True)
    (R := fun o₁ o₂ => SameRegistry t o₁ o₂ ∧ ∀ x, x ≠ b → o₂.vbranchList x = o₁.vbranchList x)
    Keeps.refl (fun _ _ _ _ first => first.trans)
    (fun o₁ => ⟨SameRegistry.refl t o₁, fun _ _ => rfl⟩)
    (fun _ _ _ first second => ⟨first.1.trans second.1, fun x ne =>
      (second.2 x ne).trans (first.2 x ne)⟩)
    (fun _ _ _ _ _ => trivial) (sound.nodup_views wf.root_indexed) (by
      intro vbr o₁ o₂ member keeps kept moved
      rcases sound.attached wf.root_indexed member with ⟨id, found⟩
      have shows := (sound.shows found).keeps keeps
      have hidden₁ : viewGetVbranch o₁ vbr.view b = none := by
        rw [keeps.viewGetVbranch]
        exact hidden vbr.view
      have within := (shows.moveInView wf allowed (fun src _ => absurd hidden₁ src) unordered
        moved).2.1
      exact ⟨trivial, fun w ne => within.keeps ne, within.sameRegistry, fun y ne =>
        moveInView_lists wf shows allowed hidden₁ unordered moved ne⟩) run
  exact looped.2.2.2 x other

end Move

/-! ## Delete -/

section Delete

variable {want : Demands} {t : Tree} {o o' : Overlay} {m m' : Map} {view : Option ViewPtr}
  {v : ViewPtr} {vbr : VbranchPtr} {b p : BranchPtr}

theorem Tree.OneRoot.apply {e : Edit} (oneRoot : t.OneRoot) (wf : t.WellFormed)
    (allowed : e.Allowed t) : (e.apply t).OneRoot := by
  intro x indexed top
  rw [Edit.apply_branch]
  cases e with
  | grow pb new i =>
      rw [(wf.grow_apply allowed x).1] at top
      split at top
      · simp at top
      · rename_i other
        exact oneRoot x (((wf.grow_apply allowed x).2.2.2.mp indexed).resolve_left other) top
  | rehome b opb npb i =>
      rw [(t.rehome_apply b opb npb i x).1] at top
      split at top
      · simp at top
      · exact oneRoot x indexed top
  | forget b p =>
      rcases (wf.forget_apply allowed x).2.2.2.mp indexed with ⟨other, before⟩
      rw [(wf.forget_apply allowed x).1, if_neg other] at top
      exact oneRoot x before top
  | relabel b text noteId =>
      have fields := ioSaveBranchData_fields
        (t.modify b fun y => { y with text := text, noteId := noteId }) b
      have before : t.Indexed x := by
        rcases indexed with ⟨k, stored⟩
        exact ⟨k, by rw [← stored]; exact (congrFun fields.2.2.2.1 k).symm⟩
      apply oneRoot x before
      rw [← top]
      simp only [parent, Edit.relabel_apply_mem, modify_mem]
      split <;> rfl

theorem Tree.OneRoot.edits {P : Tree → Edit → Prop} {t' : Tree} (oneRoot : t.OneRoot)
    (wf : t.WellFormed) (edits : Edits P t t') : t'.OneRoot :=
  edits.invariant_wellFormed (fun _ _ wf before allowed _ => before.apply wf allowed) wf oneRoot

/-- No view has to be expanded for a move to the root. -/
theorem Sound.moveMayExpand_root (sound : Sound want m.tree m.overlay) (wf : m.tree.WellFormed)
    (indexed : m.tree.Indexed b) (low : b ≠ m.tree.branch) : m.MoveMayExpand b m.tree.branch := by
  intro vbr member src dest
  rcases sound.attached wf.root_indexed member with ⟨id, found⟩
  have shows := sound.shows found
  rcases Option.ne_none_iff_exists'.mp src with ⟨vb, present⟩
  rw [← stand_of_indexed indexed] at present
  have folded := folded_of_moveDest wf.root_indexed dest shows.root
  exact absurd folded (shows.root_unfolded wf present low)

/-- The moves that `delete` makes keep the views sound. -/
theorem Sound.deleteChildren (sound : Sound want m.tree m.overlay) (wf : m.tree.WellFormed)
    (oneRoot : m.tree.OneRoot) (parentB : m.tree.parent b = some p) (unordered : ¬want.order)
    {fuel i : ℕ} (run : deleteChildren b fuel i m = .ok m') :
    Sound want m'.tree m'.overlay ∧ m'.tree.OneRoot ∧
      (m.overlay.vbranchList b = [] → m'.overlay.vbranchList b = []) := by
  refine (deleteChildren_invariant (R := fun s : Map => Sound want s.tree s.overlay ∧
    s.tree.OneRoot ∧ (m.overlay.vbranchList b = [] → s.overlay.vbranchList b = [])) fuel i ?_ wf
    parentB ⟨sound, oneRoot, id⟩ run).1
  rintro m₁ child m₂ accepted wf₁ parentB₁ step ⟨sound₁, oneRoot₁, bare₁⟩ moved
  have accept := moveCheck_child wf₁ step
  have low : child ≠ m₁.tree.branch := wf₁.ne_root step
  refine ⟨?_, ?_, ?_⟩
  · apply sound₁.move wf₁ oneRoot₁ _ unordered moved
    intro b' opb npb accept'
    rw [accept, MoveCheck.accept.injEq] at accept'
    rcases accept' with ⟨rfl, rfl, rfl⟩
    exact sound₁.moveMayExpand_root wf₁ (wf₁.indexed_of_parent step) low
  · exact oneRoot₁.edits wf₁ (deleteChildren_step True True wf₁ parentB₁ step moved).1
  · intro hidden
    have bareB := bare₁ hidden
    have bareChild : m₁.overlay.vbranchList child = [] := by
      apply List.eq_nil_iff_forall_not_mem.mpr
      intro vb member
      have indexed := wf₁.indexed_of_parent step
      have present := sound₁.stand_of_mem indexed member
      rcases sound₁.attached indexed member with ⟨id, found⟩
      have absent : stand m₁.tree m₁.overlay vb.view b = none := by
        rw [stand_of_indexed (wf₁.indexed_of_parent parentB₁), viewGetVbranch, bareB]
        rfl
      rw [(sound₁.shows found).hidden_child wf₁ absent step] at present
      simp at present
    have allowed := (move_of_accept wf₁ accept moved).1
    simp only [Treedb.move, accept] at moved
    rcases bind_eq_ok.mp moved with ⟨o₁, looped, rest⟩
    rcases bind_eq_ok.mp rest with ⟨t₁, _, rest⟩
    simp only [pure_eq_ok, Except.ok.injEq, Prod.mk.injEq] at rest
    rw [← rest.1]
    have same := sound₁.moveInView_all_lists wf₁ allowed bareChild unordered looped
      (wf₁.acyclic.parent_ne step)
    exact same.trans bareB

/-- What `delete` leaves of one view. -/
theorem Shows.deleteInView (shows : Shows want t o vbr.view {t.branch}) (wf : t.WellFormed)
    (step : t.parent b = some p)
    (loose : stand t o vbr.view b = none ∨ t.children b = [] ∧ (want.index → want.stale))
    (unordered : ¬want.order) (run : deleteInView t view b o vbr = .ok o') :
    Shows want ((Edit.forget b p).apply t) o' vbr.view {t.branch} ∧ Within t vbr.view o o' := by
  have indexed : t.Indexed b := wf.indexed_of_parent step
  have low : b ≠ t.branch := wf.ne_root step
  unfold Treedb.deleteInView at run
  split at run
  · rename_i vb found
    have present : stand t o vbr.view b = some vb := by
      rw [stand_of_indexed indexed, found]
    rcases loose with absent | ⟨leaf, allowed⟩
    · simp [present] at absent
    · rcases shows.detach present low with ⟨detached, relinks, _⟩
      have after := detached.forget_loose wf step
        (by rw [relinks.stand t vbr.view]; exact present) leaf allowed unordered
      split at run
      · rw [← Except.ok.inj run]
        have pushed := relinks.trans (relinks_push (vbranchDetach o vb) vbr.view
          (.mapDelete ((vbranchDetach o vb).views vb.view).id (t.mem b).id))
        exact ⟨after.push _, pushed.within t⟩
      · rw [← Except.ok.inj run]
        exact ⟨after, relinks.within t⟩
  · rename_i hidden
    have absent : stand t o vbr.view b = none := by
      rw [stand_of_indexed indexed, hidden]
    have after := shows.forget_hidden wf step absent unordered
    split at run
    · simp only [show (t.mem b).parent = some p from step] at run
      split at run
      · rw [← Except.ok.inj run]
        exact ⟨after, Within.refl t _ o⟩
      · rw [← Except.ok.inj run]
        exact ⟨after.push _, (relinks_push o vbr.view _).within t⟩
    · rw [← Except.ok.inj run]
      exact ⟨after, Within.refl t _ o⟩

/-- A vbranch that `delete` takes out of its view stays attached to its branch. -/
theorem deleteInView_lists (run : deleteInView t view b o vbr = .ok o') :
    o'.vbranchList = o.vbranchList := by
  have detached : ∀ vb, (vbranchDetach o vb).vbranchList = o.vbranchList := by
    intro vb
    rw [vbranchDetach]
    split <;> rfl
  unfold deleteInView at run
  split at run
  · rename_i vb _
    split at run
    · rw [← Except.ok.inj run]
      exact detached vb
    · rw [← Except.ok.inj run]
      exact detached vb
  · split at run
    · split at run
      · simp at run
      · split at run
        · rw [← Except.ok.inj run]
        · rw [← Except.ok.inj run]
          rfl
    · rw [← Except.ok.inj run]

/-- The loop of `delete` over the views, and the edit that follows it. -/
theorem Sound.deleteInView_all (sound : Sound want t o) (wf : t.WellFormed)
    (step : t.parent b = some p)
    (loose : o.vbranchList b = [] ∨ t.children b = [] ∧ (want.index → want.stale))
    (unordered : ¬want.order)
    (run : (o.vbranchList t.branch).foldlM (deleteInView t view b) o = .ok o') :
    Sound want ((Edit.forget b p).apply t) o' := by
  have facts := wf.forget_apply step
  have lists : o'.vbranchList = o.vbranchList :=
    foldlM_invariant (fun o₁ => o₁.vbranchList = o.vbranchList)
      (fun o₁ vbr o₂ _ before deleted => (deleteInView_lists deleted).trans before) rfl run
  rcases foldlM_views want t ((Edit.forget b p).apply t) (sound.nodup_views wf.root_indexed) (by
    intro vbr o₁ o₂ member keeps _ deleted
    rcases sound.attached wf.root_indexed member with ⟨id, found⟩
    apply ((sound.shows found).keeps keeps).deleteInView wf step _ unordered deleted
    apply loose.imp_left
    intro bare
    rw [keeps.stand t, stand_of_indexed (wf.indexed_of_parent step), viewGetVbranch, bare]
    rfl) run with ⟨turned, kept, registry⟩
  apply sound.turn (fun vb member => sound.attached wf.root_indexed member) turned kept registry
  · intro id w found out
    rcases sound.view_mem found with ⟨member, own⟩
    exact absurd (List.mem_map.mpr ⟨_, member, own⟩) out
  · exact fun x indexed => ((facts x).2.2.2.mp indexed).2
  · intro x beyond
    exact ⟨beyond, fun known => Nat.lt_irrefl _ ((wf.indexed_lt known).trans_le beyond)⟩
  · intro x out inner
    have inner' : t.children x ≠ [] := fun bare => inner ((facts x).2.1 bare)
    rw [lists]
    by_cases isB : x = b
    · subst isB
      exact loose.resolve_right fun both => inner' both.1
    · apply sound.sealed x _ inner'
      rw [(facts x).2.2.2] at out
      exact fun indexed => out ⟨isB, indexed⟩

/-- `delete` keeps the views sound if no view shows the branch, or if it empties the branch. -/
theorem Sound.delete {branchId : UInt64} (sound : Sound want m.tree m.overlay)
    (wf : m.tree.WellFormed) (oneRoot : m.tree.OneRoot)
    (loose : ∀ b ∈ branchIndexGet m.tree branchId,
      m.overlay.vbranchList b = [] ∨
        (want.index → want.stale) ∧ (m.tree.children b).length ≤ 1)
    (unordered : ¬want.order) (run : Treedb.delete m view branchId = .ok m') :
    Sound want m'.tree m'.overlay := by
  by_cases known : ∃ b p, m.tree.branchIndex branchId = some b ∧ m.tree.parent b = some p
  · rcases known with ⟨b, p, found, parentB⟩
    simp only [Treedb.delete, branchIndexGet, found,
      show (m.tree.mem b).parent = some p from parentB] at run
    rcases bind_eq_ok.mp run with ⟨m₁, moved, run⟩
    rcases bind_eq_ok.mp run with ⟨o₁, deleted, run⟩
    rcases deleteChildren_edits True True _ _ wf parentB moved with ⟨edits, parentB₁⟩
    have wf₁ := edits.wellFormed wf
    rcases sound.deleteChildren wf oneRoot parentB unordered moved with ⟨sound₁, _, bare₁⟩
    simp only [show (m₁.tree.mem b).parent = some p from parentB₁, pure_eq_ok, Except.ok.injEq,
      wf₁.deleteBranch_eq parentB₁] at run
    have loose₁ : m₁.overlay.vbranchList b = [] ∨
        m₁.tree.children b = [] ∧ (want.index → want.stale) := by
      rcases loose b found with bare | ⟨allowed, few⟩
      · exact .inl (bare₁ bare)
      · exact .inr ⟨(deleteChildren_few _ wf parentB few moved).1, allowed⟩
    have after := sound₁.deleteInView_all wf₁ parentB₁ loose₁ unordered deleted
    rw [← run]
    dsimp only
    split
    · exact after.push _
    · exact after
  · rw [delete_of_not_found (fun b p found parentB => known ⟨b, p, found, parentB⟩) run]
    exact sound

end Delete

end Treedb
