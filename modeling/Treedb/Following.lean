import Treedb.Copies
import Treedb.Moving

/-!
# Clients follow moves and deletes

A move tells each view in one of four ways, by what the view shows of the branch and of its new
parent: the branch is moved, shown, or only counted, or the view is first expanded to where it goes.
A delete moves the children away and then takes the branch out of each view, or counts it off.
Whatever it is told, a client that held what its view showed before holds what it shows afterwards.
-/

namespace Treedb

open Forest Overlay Outcome Treedb.Tree Client

/-! ## The counters of a move -/

section Counters

variable {t : Tree} {b opb npb x : BranchPtr} {i : ℕ}

/-- What a counter loses or gains with the subtree at `b`. -/
theorem ofInt_subtreeSize (t : Tree) (b : BranchPtr) :
    UInt32.ofInt (subtreeSize t b) = 1 + t.totalOf b := by
  rw [subtreeSize, UInt32.ofInt_add, UInt32.ofInt_one, UInt32.add_comm]
  congr 1
  apply UInt32.toNat_inj.mp
  have bound := (t.mem b).totalBranchN.toNat_lt
  simp only [UInt32.ofInt, UInt32.toNat_ofNat', totalOf]
  omega

theorem ofInt_neg_subtreeSize (t : Tree) (b : BranchPtr) :
    UInt32.ofInt (-subtreeSize t b) = -(1 + t.totalOf b) := by
  rw [UInt32.ofInt_neg, ofInt_subtreeSize]

open Classical in
theorem rehome_totalOf (wf : t.WellFormed) (allowed : (Edit.rehome b opb npb i).Allowed t)
    (x : BranchPtr) :
    ((Edit.rehome b opb npb i).apply t).totalOf x =
      t.totalOf x - (if Anc t.parent opb x then 1 + t.totalOf b else 0) +
        (if Anc t.parent npb x then 1 + t.totalOf b else 0) := by
  have total : ((Edit.rehome b opb npb i).apply t).totalOf x =
      ((t.rehome b opb npb i).mem x).totalBranchN := rfl
  rw [total, rehome_total wf allowed.1 allowed.2.2.1]
  simp only [wf.mem_chain]
  unfold totalOf
  split <;> split <;> grind

/-- Above the new parent nothing moves. -/
theorem rehome_anc (apart : ¬Anc t.parent npb b) (x : BranchPtr) :
    Anc ((Edit.rehome b opb npb i).apply t).parent npb x ↔ Anc t.parent npb x := by
  apply anc_iff_of_not_anc _ apart
  intro d other
  rw [(t.rehome_apply b opb npb i d).1, if_neg other]

theorem rehome_parent_eq (t : Tree) (b opb npb : BranchPtr) (i : ℕ) :
    ((Edit.rehome b opb npb i).apply t).parent = Function.update t.parent b (some npb) := by
  funext x
  rw [(t.rehome_apply b opb npb i x).1, Function.update_apply]

theorem rehome_idOf (t : Tree) (b opb npb : BranchPtr) (i : ℕ) :
    ((Edit.rehome b opb npb i).apply t).idOf = t.idOf :=
  rfl

end Counters

/-! ## What a client makes of a move -/

section Moved

variable {want : Demands} {t t' : Tree} {o o' o₁ : Overlay} {v : ViewPtr} {b e opb npb : BranchPtr}
  {x y vb vnpb : VbranchPtr} {i : ℕ} {c : Client}

/-- A branch that is shown below another shown one. -/
theorem Client.Copies.moved (copies : c.Copies t o v) (shows : Shows want t o v {t.branch})
    (wf : t.WellFormed) (allowed : (Edit.rehome b opb npb i).Allowed t)
    (present : stand t o v b = some vb) (above : stand t o v npb = some vnpb)
    (stands : stand t o' v = stand t o v) (pos : UInt16) (retry : Bool) :
    (c.handle (.mapMove (o.views v).id (t.idOf npb) (t.idOf b) pos.toNat retry)).Copies
      ((Edit.rehome b opb npb i).apply t) o' v := by
  have held := Holds.mapMove copies (shows.framed wf) (mem_shown_of_stand present) allowed.1
    (mem_shown_of_stand above) allowed.2.2.1 (o.views v).id pos.toNat retry
  unfold Copies
  rw [rehome_parent_eq, rehome_idOf]
  have same : shown ((Edit.rehome b opb npb i).apply t) o' v = shown t o v := shown_congr stands
  rw [same]
  apply held.congr (fun _ _ => rfl) (fun _ _ => rfl)
  intro z _
  exact rehome_totalOf wf allowed z

/-- What is hidden keeps its place among what is shown. -/
theorem rehome_parent_of_hidden (hidden : stand t o v b = none) {z : BranchPtr}
    (there : z ∈ shown t o v) :
    ((Edit.rehome b opb npb i).apply t).parent z = t.parent z := by
  rw [(t.rehome_apply b opb npb i z).1, if_neg]
  rintro rfl
  exact there hidden

open Classical in
/-- A branch that moves from one hidden part of the view to another one is counted off and on. -/
theorem Client.Copies.moved_hidden (copies : c.Copies t o v)
    (shows : Shows want t o v {t.branch}) (wf : t.WellFormed)
    (allowed : (Edit.rehome b opb npb i).Allowed t) (hidden : stand t o v b = none)
    (left : Searched t o v opb) (reached : Searched t o v npb) :
    (c.receive (countMessages t o v opb (-subtreeSize t b) ++
      countMessages t o v npb (subtreeSize t b))).Copies ((Edit.rehome b opb npb i).apply t) o v := by
  rw [receive_append]
  have gone := Holds.counted copies shows wf left (-subtreeSize t b)
  apply (gone.counted shows wf reached (subtreeSize t b)).congr (fun _ _ => rfl)
  · intro z there
    rw [rehome_parent_of_hidden hidden there]
  · intro z _
    rw [rehome_totalOf wf allowed, ofInt_subtreeSize, ofInt_neg_subtreeSize]
    split <;> split <;> grind

/-- Between parts of the view with the same end nothing changes. -/
theorem Client.Copies.moved_beside (copies : c.Copies t o v)
    (wf : t.WellFormed) (allowed : (Edit.rehome b opb npb i).Allowed t)
    (hidden : stand t o v b = none) (left : FirstShown t o v opb e x)
    (reached : FirstShown t o v npb e y) : c.Copies ((Edit.rehome b opb npb i).apply t) o v := by
  have held : Holds c (shown t o v) t.idOf t.parent t.totalOf := copies
  apply held.congr (fun _ _ => rfl)
  · intro z there
    rw [rehome_parent_of_hidden hidden there]
  · intro z there
    have same : Anc t.parent opb z ↔ Anc t.parent npb z :=
      ⟨fun up => reached.anc.trans (left.nearest up there),
        fun up => left.anc.trans (reached.nearest up there)⟩
    rw [rehome_totalOf wf allowed, same]
    split <;> grind

/-- A branch that comes out of a hidden part of the view is counted off there and shown. -/
theorem Client.Copies.moved_shown (copies : c.Copies t o v)
    (shows : Shows want t o v {t.branch}) (wf : t.WellFormed)
    (allowed : (Edit.rehome b opb npb i).Allowed t)
    (tree : t' = (Edit.rehome b opb npb i).apply t) (hidden : stand t o v b = none)
    (above : npb ∈ shown t o v) (left : Searched t o v opb) (after : Shows want t' o' v {t'.branch})
    (stands : stand t' o' v = Function.update (stand t o v) b (some x)) (k : UInt32) (pos : ℕ) :
    (c.receive (countMessages t o v opb (-subtreeSize t b) ++
      [.mapInsert k (t.idOf npb) pos (vbranchToJson t o' x)])).Copies t' o' v := by
  have wf' := wf.apply allowed
  have place := (t.rehome_apply b opb npb i b).1
  rw [if_pos rfl] at place
  have parents : ∀ z ∈ shown t o v, ((Edit.rehome b opb npb i).apply t).parent z = t.parent z :=
    fun z there => rehome_parent_of_hidden hidden there
  have climbs : ∀ z, Anc ((Edit.rehome b opb npb i).apply t).parent npb z ↔ Anc t.parent npb z :=
    rehome_anc allowed.2.2.1
  have totals := rehome_totalOf wf allowed
  have ids := rehome_idOf t b opb npb i
  rw [← tree] at wf' place parents climbs totals ids
  have absent : b ∉ shown t o v := fun there => there hidden
  have off : ¬Anc t.parent opb b :=
    wf.acyclic.not_anc_of_strict ((strictAnc_iff_of_parent allowed.1).mpr (anc_refl _ opb))
  have alone : ∀ z ∈ shown t o v, ¬Anc t'.parent z b := by
    intro z there up
    apply absent
    induction up using Relation.ReflTransGen.head_induction_on with
    | refl => exact there
    | @head z d step _ ih =>
        rw [Up, parents z there] at step
        exact ih ((shows.framed wf).closed there step)
  rw [receive_append, ← ids]
  have gone := Holds.counted copies shows wf left (-subtreeSize t b)
  have held : Holds (c.receive (countMessages t o v opb (-subtreeSize t b))) (shown t o v) t'.idOf
      t'.parent _ :=
    gone.congr (fun _ _ => by rw [ids]) (fun z there => by rw [parents z there, ids]) fun _ _ => rfl
  have sent := held.sent after wf' stands absent above place alone ids.symm (if_neg off) k pos
  apply sent.congr (fun _ _ => rfl) (fun _ _ => rfl)
  intro z _
  rw [totals, ofInt_neg_subtreeSize, climbs]
  split <;> split <;> grind

/-- A client that is sent the subtree it was expanded in holds what the expanded view shows. -/
theorem Client.Copies.expanded (copies : c.Copies t o v) (shows : Shows want t o v {t.branch})
    (wf : t.WellFormed) (first : FirstShown t o v b e y) (after : Shows want t o₁ v {t.branch})
    (enlarges : Enlarges t v o o₁)
    (inside : ∀ z, stand t o v z = none → stand t o₁ v z ≠ none → Anc t.parent z e) (pos : ℕ) :
    (c.handle (expandedMessage t o₁ y pos)).Copies t o₁ v := by
  have present := enlarges.kept first.present
  have here := after.branch_eq present
  have framed := after.framed wf
  have parts : { z | z ∈ shown t o v ∧ ¬Anc t.parent z e } ∪ shownBelow t o₁ v {t.branch} e =
      shown t o₁ v := by
    rw [shownBelow_root wf]
    ext z
    constructor
    · rintro (⟨old, _⟩ | ⟨new, _⟩)
      · rcases Option.ne_none_iff_exists'.mp old with ⟨x, old⟩
        exact mem_shown_of_stand (enlarges.kept old)
      · exact new
    · intro new
      by_cases low : Anc t.parent z e
      · exact .inr ⟨new, low⟩
      · exact .inl ⟨fun hidden => low (inside z hidden new), low⟩
  have lists : ∀ k entry,
      ((vbranchToJson t o₁ y).entries ((t.parent e).map t.idOf)).lookup k = some entry ↔
        ∃ z ∈ shownBelow t o₁ v {t.branch} e, t.idOf z = k ∧
          entry = ⟨(t.parent z).map t.idOf, t.totalOf z⟩ := by
    intro k entry
    rw [after.lookup_vbranchToJson wf present t (framed.inj.mono (parts ▸ Set.subset_union_right))]
    apply exists_congr
    intro z
    by_cases same : z = e
    · rw [if_pos same, same]
      rfl
    · rw [if_neg same]
      rfl
  have named : (vbranchToJson t o₁ y).id = t.idOf e := by
    rw [vbranchToJson_id, here]
  have again := Holds.mapInsert_again copies (shows.framed wf) (mem_shown_of_stand first.present)
    named lists (by rw [parts]; exact framed.inj) (o₁.views y.view).id pos
  rw [parts] at again
  unfold expandedMessage
  rw [here]
  exact again

end Moved

/-! ## One view -/

/-- The view `v` is all that was told anything, and it was told what it needs unless it asks. -/
structure Overlay.Briefs (view : Option ViewPtr) (v : ViewPtr) (t t' : Tree) (o o' : Overlay) :
    Prop where
  only : TellsOnly v o o'
  informs : some v ≠ view → Informs v t t' o o'

section One

variable {want : Demands} {t t₁ t' : Tree} {o o₁ o' : Overlay} {view : Option ViewPtr} {v : ViewPtr}
  {vbr vb vnpb : VbranchPtr} {b opb npb : BranchPtr} {pos : UInt16} {i : ℕ} {msgs : List Message}

theorem Overlay.TellsOnly.trans (first : TellsOnly v o o₁) (named : (o₁.views v).id = (o.views v).id)
    (second : TellsOnly v o₁ o') : TellsOnly v o o' := by
  rcases first with ⟨sent, queued, own⟩
  rcases second with ⟨sent', queued', own'⟩
  refine ⟨sent ++ sent', ?_, ?_⟩
  · rw [queued', queued, List.append_assoc]
  · intro msg member
    rcases List.mem_append.mp member with member | member
    · exact own msg member
    · rw [own' msg member, named]

theorem Overlay.Briefs.trans (first : Briefs view v t t₁ o o₁)
    (named : (o₁.views v).id = (o.views v).id) (second : Briefs view v t₁ t' o₁ o') :
    Briefs view v t t' o o' :=
  ⟨first.only.trans named second.only, fun other => (first.informs other).trans (second.informs other)⟩

/-- What a view is told by messages that are all for it. -/
theorem briefs_of_own (queued : o'.outQ = o.outQ ++ msgs)
    (own : ∀ msg ∈ msgs, msg.viewId = some (o.views v).id)
    (named : (o'.views v).id = (o.views v).id)
    (copied : ∀ c : Client, c.Copies t o v → (c.receive msgs).Copies t' o' v) :
    Briefs view v t t' o o' :=
  ⟨⟨msgs, queued, own⟩, fun _ => ⟨msgs, tells_of_own queued own, named, copied⟩⟩

/-- The view that asks need not be told. -/
theorem briefs_of_asks (asks : some v = view) (only : TellsOnly v o o') :
    Briefs view v t t' o o' :=
  ⟨only, fun other => absurd asks other⟩

theorem Shows.moveVbranch_briefs (shows : Shows want t o v {t.branch}) (wf : t.WellFormed)
    (allowed : (Edit.rehome b opb npb i).Allowed t) (own : vbr.view = v)
    (present : stand t o v b = some vb) (above : stand t o v npb = some vnpb)
    (unordered : ¬want.order) (run : Treedb.moveVbranch t o view vbr vb vnpb b npb pos = .ok o') :
    Briefs view v t ((Edit.rehome b opb npb i).apply t) o o' := by
  rcases shows.moveVbranch wf allowed own present above unordered run with
    ⟨_, within, stands, outQ⟩
  by_cases asks : some v = view
  · exact briefs_of_asks asks (tellsOnly_outQWith outQ rfl)
  · rw [outQWith, if_pos asks] at outQ
    refine briefs_of_own outQ (by simp [mapMoveMessage, Message.viewId]) within.view_id ?_
    intro c copies
    exact copies.moved shows wf allowed present above stands pos false

theorem Shows.moveIntoView_briefs (shows : Shows want t o v {t.branch}) (wf : t.WellFormed)
    (allowed : (Edit.rehome b opb npb i).Allowed t) (own : vbr.view = v)
    (absent : stand t o v b = none) (above : stand t o v npb = some vnpb)
    (left : Searched t o v opb) (unordered : ¬want.order)
    (run : Treedb.moveIntoView t o vbr vnpb b opb (t.idOf npb) pos = .ok o') :
    Briefs view v t ((Edit.rehome b opb npb i).apply t) o o' := by
  rcases shows.moveIntoView wf allowed own absent above unordered run with
    ⟨after, within, stands, _, o₁, vmem, vnext, outQ⟩
  rw [← vbranchToJson_congr vmem vnext, List.append_assoc] at outQ
  refine briefs_of_own outQ ?_ within.view_id ?_
  · intro msg member
    rcases List.mem_append.mp member with member | member
    · exact viewId_countMessages (t := t) (b := opb) (n := -subtreeSize t b) msg member
    · rw [List.mem_singleton.mp member]
      rfl
  · intro c copies
    rw [← (Edit.rehome b opb npb i).apply_branch t] at after
    exact copies.moved_shown shows wf allowed rfl absent (mem_shown_of_stand above) left after stands
      (o.views v).id pos.toNat

theorem Shows.moveExpanding_briefs (shows : Shows want t o v {t.branch}) (wf : t.WellFormed)
    (searched : Searched t o v npb) (allowed : (Edit.rehome b opb npb i).Allowed t)
    (own : vbr.view = v) (clear : Clear t o v npb)
    (folded : ∀ x, stand t o v npb = some x → ∀ c, t.parent c = some npb → stand t o v c = none)
    (inner : t.parent npb ≠ none) (present : stand t o v b = some vb) (unordered : ¬want.order)
    (run : Treedb.moveExpanding t o view vbr vb b npb pos = .ok o') :
    Briefs view v t ((Edit.rehome b opb npb i).apply t) o o' := by
  rcases shows.moveExpanding_stages wf searched allowed.2.1 own clear folded inner run with
    ⟨o₁, e, y, vnpb, _, first, after, enlarges, shown, above, moved⟩
  have pushed := relinks_push o₁ v (expandedMessage t o₁ y pos.toNat)
  have named : ((o₁.push (expandedMessage t o₁ y pos.toNat)).views v).id = (o.views v).id :=
    enlarges.within.view_id
  have expanded : Briefs view v t t o (o₁.push (expandedMessage t o₁ y pos.toNat)) := by
    refine briefs_of_own (congrArg (· ++ _) enlarges.outQ) ?_ named ?_
    · simp [expandedMessage, Message.viewId, view_of_stand first.present, enlarges.within.view_id]
    · intro c copies
      rw [(keeps_push o₁ v _).copies]
      refine copies.expanded shows wf first after enlarges ?_ pos.toNat
      intro z hidden there
      rcases (shown z).mp there with old | climb | child
      · exact absurd hidden old
      · exact first.anc_of_onClimb shows wf climb
      · exact (anc_of_parent child).trans first.anc
  have before := enlarges.kept present
  rw [← pushed.stand t v] at above before
  exact expanded.trans named ((after.push _).moveVbranch_briefs wf allowed own before above unordered
    moved)

theorem Shows.moveHidden_briefs (shows : Shows want t o v {t.branch}) (wf : t.WellFormed)
    (allowed : (Edit.rehome b opb npb i).Allowed t) (own : vbr.view = v)
    (absent : stand t o v b = none) (left : Searched t o v opb) (reached : Searched t o v npb)
    (run : Treedb.moveHidden t o vbr b opb npb = .ok o') :
    Briefs view v t ((Edit.rehome b opb npb i).apply t) o o' := by
  have told := fun (c : Client) (copies : c.Copies t o v) =>
    copies.moved_hidden shows wf allowed absent left reached
  unfold countMessages at told
  unfold moveHidden at run
  rw [own] at run
  split at run
  · rename_i source destination
    rw [← Except.ok.inj run]
    simp only [source, destination] at told
    exact briefs_of_own (List.append_nil _).symm (by simp) rfl told
  · rename_i src dst source destination
    have from' : FirstShown t o v opb src.1 src.2 := (left.endpoint_iff wf).mp source
    have to' : FirstShown t o v npb dst.1 dst.2 := (reached.endpoint_iff wf).mp destination
    split at run
    · rename_i same
      rw [← Except.ok.inj run]
      refine briefs_of_own (List.append_nil _).symm (by simp) rfl ?_
      intro c copies
      rw [← same] at to'
      rw [shows.shadow.inj to'.present from'.present] at to'
      exact copies.moved_beside wf allowed absent from' to'
    · rw [← Except.ok.inj run, shows.branch_eq from'.present, shows.branch_eq to'.present]
      simp only [source, destination] at told
      refine briefs_of_own (List.append_assoc ..) (by simp [Message.viewId]) rfl ?_
      intro c copies
      exact told c copies
  · simp at run

/-- What `move` tells the client of one view. -/
theorem Shows.moveInView_briefs (shows : Shows want t o vbr.view {t.branch}) (wf : t.WellFormed)
    (left : Searched t o vbr.view opb) (reached : Searched t o vbr.view npb)
    (allowed : (Edit.rehome b opb npb i).Allowed t)
    (expands : viewGetVbranch o vbr.view b ≠ none → moveDest t o vbr.view npb = none →
      Expandable t o vbr.view npb) (unordered : ¬want.order)
    (run : Treedb.moveInView t view b opb npb (t.idOf npb) pos o vbr = .ok o') :
    Briefs view vbr.view t ((Edit.rehome b opb npb i).apply t) o o' := by
  have indexedB : t.Indexed b := wf.indexed_of_parent allowed.1
  have indexedP : t.Indexed npb := allowed.2.1
  have low : b ≠ t.branch := wf.ne_root allowed.1
  rw [moveInView_eq] at run
  cases src : viewGetVbranch o vbr.view b with
  | some vb =>
      have present : stand t o vbr.view b = some vb := by
        rw [stand_of_indexed indexedB, src]
      cases dest : moveDest t o vbr.view npb with
      | some vnpb =>
          simp only [src, dest] at run
          have above : stand t o vbr.view npb = some vnpb := by
            rw [stand_of_indexed indexedP, viewGetVbranch_of_moveDest dest]
          exact shows.moveVbranch_briefs wf allowed rfl present above unordered run
      | none =>
          simp only [src, dest] at run
          rcases expands (by simp [src]) dest with ⟨_, clear, inner⟩
          exact shows.moveExpanding_briefs wf reached allowed rfl clear
            (fun _ _ _ => shows.hidden_of_moveDest wf indexedP dest) inner present unordered run
  | none =>
      have absent : stand t o vbr.view b = none := by
        rw [stand_of_indexed indexedB, src]
      cases dest : moveDest t o vbr.view npb with
      | some vnpb =>
          simp only [src, dest] at run
          have above : stand t o vbr.view npb = some vnpb := by
            rw [stand_of_indexed indexedP, viewGetVbranch_of_moveDest dest]
          split at run
          · exact shows.moveIntoView_briefs wf allowed rfl absent above left unordered run
          · rename_i asks
            rw [← Except.ok.inj run]
            exact briefs_of_asks (not_not.mp asks) (tellsOnly_of_outQ rfl)
      | none =>
          simp only [src, dest] at run
          split at run
          · exact shows.moveHidden_briefs wf allowed rfl absent left reached run
          · rename_i asks
            rw [← Except.ok.inj run]
            exact briefs_of_asks (not_not.mp asks) (tellsOnly_of_outQ rfl)

end One

/-! ## All views -/

section All

variable {want : Demands} {t t₁ t' : Tree} {o o₀ o₁ o' : Overlay} {view : Option ViewPtr}
  {v w : ViewPtr} {b : BranchPtr}

theorem Overlay.Spares.informs (spares : Spares o₀ v o o')
    (found : viewIndexGet o₀ (o₀.views v).id = some v)
    (named : (o.views v).id = (o₀.views v).id) (t : Tree) : Informs v t t o o' := by
  apply spares.keeps.informs
  rw [named]
  exact spares.quiet found

theorem Overlay.Keeps.searched (keeps : Keeps v o o') :
    Searched t o' v b ↔ Searched t o v b := by
  simp only [Searched, keeps.stand t, keeps.viewGetVbranch]

/-- A loop over the views whose rounds tell each view what it needs. -/
theorem Sound.loop_follows {f : Overlay → VbranchPtr → Except Fault Overlay}
    (sound : Sound want t o) (wf : t.WellFormed)
    (known : viewIndexGet o (o.views w).id = some w) (other : some w ≠ view)
    (round : ∀ vb o₁ o₂, vb ∈ o.vbranchList t.branch → Keeps vb.view o o₁ → f o₁ vb = .ok o₂ →
      (Shows want t' o₂ vb.view {t'.branch} ∧ Within t vb.view o₁ o₂) ∧
        Briefs view vb.view t t' o₁ o₂)
    (run : (o.vbranchList t.branch).foldlM f o = .ok o') : Follows w t t' o o' := by
  rcases foldlM_views want t t' (sound.nodup_views wf.root_indexed)
    (fun vb o₁ o₂ member keeps _ taken => (round vb o₁ o₂ member keeps taken).1) run with
    ⟨_, _, registry⟩
  refine ⟨?_, stays_of_index registry.viewIndex⟩
  rcases sound.rounds_told wf.root_indexed (by
    intro vb o₁ o₂ member keeps taken
    rcases round vb o₁ o₂ member keeps taken with ⟨⟨_, within⟩, briefs⟩
    exact ⟨within.toBeside, briefs.only⟩) run with ⟨rounds, _⟩
  rcases sound.view_mem known with ⟨member, own⟩
  rcases rounds _ member with ⟨o₁, o₂, before, taken, after⟩
  have briefs := (round _ o₁ o₂ member before.keeps taken).2
  rw [own] at before after briefs
  have informs := briefs.informs other
  have named : (o₁.views w).id = (o.views w).id := by
    rw [before.keeps.view]
  have named' : (o₂.views w).id = (o.views w).id := by
    rcases informs with ⟨_, _, same, _⟩
    rw [same, named]
  exact (before.informs known rfl t).trans (informs.trans (after.informs known named' t'))

end All

section Moves

variable {want : Demands} {m m' : Map} {view : Option ViewPtr} {w : ViewPtr}
  {newParentId oldParentId branchId : UInt64} {pos : UInt16} {accepted : Bool}

/-- The client of a view follows a move that another view asks for. -/
theorem Sound.move_follows (sound : Sound want m.tree m.overlay) (wf : m.tree.WellFormed)
    (oneRoot : m.tree.OneRoot)
    (may : ∀ b opb npb, moveCheck m.tree newParentId oldParentId branchId = .accept b opb npb →
      m.MoveMayExpand b npb) (unordered : ¬want.order)
    (asks : ∀ v ∈ view, viewIndexGet m.overlay (m.overlay.views v).id = some v)
    (known : viewIndexGet m.overlay (m.overlay.views w).id = some w) (other : some w ≠ view)
    (run : Treedb.move m view newParentId oldParentId branchId pos = .ok (m', accepted)) :
    Follows w m.tree m'.tree m.overlay m'.overlay := by
  cases check : moveCheck m.tree newParentId oldParentId branchId with
  | refuse =>
      simp only [Treedb.move, check, Except.ok.injEq, Prod.mk.injEq] at run
      rw [← run.1]
      exact Follows.refl w m.tree m.overlay
  | retry b p =>
      cases view with
      | none =>
          simp only [Treedb.move, check, Except.ok.injEq, Prod.mk.injEq] at run
          rw [← run.1]
          exact Follows.refl w m.tree m.overlay
      | some v =>
          simp only [Treedb.move, check, Except.ok.injEq, Prod.mk.injEq] at run
          rw [← run.1]
          -- Only the view that asks is told to take its move back.
          refine ⟨(keeps_push m.overlay w _).informs ?_ m.tree, id⟩
          apply TellsOnly.quiet (v := v) ⟨_, rfl, by simp [Message.viewId]⟩
          intro same
          have found := asks v rfl
          rw [same, known] at found
          exact other found
  | accept b opb npb =>
      rcases move_stages wf check run with ⟨allowed, tree, looped, _⟩
      rcases (moveCheck_accept wf).mp check with ⟨_, _, target, _, _⟩
      rw [← (wf.index_spec target).1] at looped
      rw [tree]
      refine sound.loop_follows wf known other ?_ looped
      intro vbr o₁ o₂ member keeps moved
      rcases sound.attached wf.root_indexed member with ⟨id, found⟩
      have shows := (sound.shows found).keeps keeps
      have reached := keeps.searched.mpr (sound.sealed.searched wf allowed.2.1 (v := vbr.view))
      have left := keeps.searched.mpr
        ((sound.sealed.searched wf (wf.indexed_of_parent allowed.1) (v := vbr.view)).above
          (anc_of_parent allowed.1))
      have expands : viewGetVbranch o₁ vbr.view b ≠ none →
          moveDest m.tree o₁ vbr.view npb = none → Expandable m.tree o₁ vbr.view npb := by
        intro src dest
        refine shows.expandable wf (oneRoot npb allowed.2.1) allowed.1 reached ?_ src dest
        rw [keeps.viewGetVbranch] at src
        rw [keeps.moveDest] at dest
        exact shows.clear_of_mayExpand wf reached allowed.2.1
          (keeps.mayExpand (may b opb npb check vbr member src dest))
      rcases shows.moveInView wf allowed expands unordered moved with ⟨after, within, _⟩
      exact ⟨⟨after, within⟩,
        shows.moveInView_briefs wf left reached allowed expands unordered moved⟩

end Moves

/-! ## What a client makes of a delete -/

section Forgotten

variable {want : Demands} {t : Tree} {o o' : Overlay} {view : Option ViewPtr} {v : ViewPtr}
  {vbr vb : VbranchPtr} {b p x : BranchPtr} {c : Client}

open Classical in
theorem forget_totalOf (wf : t.WellFormed) (b p x : BranchPtr) :
    ((Edit.forget b p).apply t).totalOf x =
      if Anc t.parent p x then t.totalOf x - (1 + t.totalOf b) else t.totalOf x := by
  have total : ((Edit.forget b p).apply t).totalOf x =
      if x ∈ t.chain p then t.totalOf x + (-t.totalOf b - 1) else t.totalOf x := by
    change ((t.forget b p).mem x).totalBranchN = _
    simp only [Tree.forget, modify_mem]
    split <;> rfl
  simp only [total, wf.mem_chain]
  split
  · grind
  · rfl

theorem shown_forget (wf : t.WellFormed) (step : t.parent b = some p) (o : Overlay) (v : ViewPtr) :
    shown ((Edit.forget b p).apply t) o v = { z | z ∈ shown t o v ∧ z ≠ b } := by
  ext z
  simp only [shown, Set.mem_ofPred_eq, stand_forget wf step, Function.update_apply]
  by_cases here : z = b
  · simp [here]
  · simp [here]

/-- What a client holds of the tree before `b` is forgotten, in terms of the tree after it. -/
theorem Client.Holds.forget {set : Set BranchPtr} {count : BranchPtr → UInt32}
    (holds : Holds c set t.idOf t.parent count) (wf : t.WellFormed) (step : t.parent b = some p)
    (framed : Framed set t.idOf t.parent) (gone : b ∉ set) :
    Holds c set ((Edit.forget b p).apply t).idOf ((Edit.forget b p).apply t).parent count := by
  have facts := wf.forget_apply step
  have ids : ∀ z ∈ set, ((Edit.forget b p).apply t).idOf z = t.idOf z :=
    fun z there => (facts z).2.2.1 (ne_of_mem_of_not_mem there gone)
  apply holds.congr ids _ fun _ _ => rfl
  intro z there
  rw [(facts z).1, if_neg (ne_of_mem_of_not_mem there gone)]
  apply Option.map_congr
  intro q up
  exact ids q (framed.closed there up)

open Classical in
/-- A branch that the view hides is counted off. -/
theorem Client.Copies.forgotten_hidden (copies : c.Copies t o v)
    (shows : Shows want t o v {t.branch}) (wf : t.WellFormed) (step : t.parent b = some p)
    (hidden : stand t o v b = none) (left : Searched t o v p) :
    (c.receive (countMessages t o v p (-subtreeSize t b))).Copies ((Edit.forget b p).apply t) o v := by
  have same : shown ((Edit.forget b p).apply t) o v = shown t o v := by
    apply shown_congr
    rw [stand_forget wf step, Function.update_eq_self_iff, hidden]
  have counted := Holds.counted copies shows wf left (-subtreeSize t b)
  have held := counted.forget wf step (shows.framed wf) fun there => there hidden
  unfold Copies
  rw [same]
  apply held.congr (fun _ _ => rfl) (fun _ _ => rfl)
  intro z _
  rw [forget_totalOf wf, ofInt_neg_subtreeSize]
  split
  · grind
  · rfl

open Classical in
/-- A leaf that the view shows is taken out. -/
theorem Client.Copies.forgotten_shown (copies : c.Copies t o v)
    (shows : Shows want t o v {t.branch}) (wf : t.WellFormed) (step : t.parent b = some p)
    (present : stand t o v b = some vb) (leaf : t.children b = [])
    (stands : stand t o' v = stand t o v) (k : UInt32) :
    (c.handle (.mapDelete k (t.idOf b))).Copies ((Edit.forget b p).apply t) o' v := by
  have childless : ∀ z, t.parent z ≠ some b := by
    intro z child
    simpa [leaf] using wf.mirrors.mem_iff.mpr child
  have alone : ∀ z, Anc t.parent z b ↔ z = b := by
    intro z
    constructor
    · intro up
      rcases Relation.ReflTransGen.cases_tail up with same | ⟨d, _, child⟩
      · exact same.symm
      · exact absurd child (childless d)
    · rintro rfl
      exact anc_refl _ z
  have remains : { z | z ∈ shown t o v ∧ ¬Anc t.parent z b } =
      shown ((Edit.forget b p).apply t) o' v := by
    rw [shown_forget wf step, shown_congr stands]
    simp only [alone]
  have framed := shows.framed wf
  have pruned := Holds.mapDelete copies framed (mem_shown_of_stand present) k
  rw [remains] at pruned
  have framed' : Framed (shown ((Edit.forget b p).apply t) o' v) t.idOf t.parent := by
    rw [shown_forget wf step, shown_congr stands]
    refine ⟨framed.inj.mono fun z there => there.1, ?_⟩
    rintro z q ⟨there, _⟩ up
    refine ⟨framed.closed there up, ?_⟩
    rintro rfl
    exact childless z up
  have held := pruned.forget wf step framed' (by simp [shown_forget wf step])
  apply held.congr (fun _ _ => rfl) (fun _ _ => rfl)
  intro z _
  rw [forget_totalOf wf, strictAnc_iff_of_parent step]

/-- What `delete` tells the client of one view. -/
theorem Shows.deleteInView_briefs (shows : Shows want t o vbr.view {t.branch}) (wf : t.WellFormed)
    (step : t.parent b = some p) (left : Searched t o vbr.view p)
    (loose : stand t o vbr.view b = none ∨ t.children b = [])
    (run : Treedb.deleteInView t view b o vbr = .ok o') :
    Briefs view vbr.view t ((Edit.forget b p).apply t) o o' := by
  have indexed : t.Indexed b := wf.indexed_of_parent step
  unfold Treedb.deleteInView at run
  split at run
  · rename_i vb found
    have present : stand t o vbr.view b = some vb := by
      rw [stand_of_indexed indexed, found]
    have leaf := loose.resolve_left (by simp [present])
    have own := view_of_stand present
    rcases shows.detach present (wf.ne_root step) with ⟨_, relinks, outQ⟩
    rw [own] at run
    split at run
    · rw [← Except.ok.inj run]
      refine briefs_of_own (congrArg (· ++ _) outQ) ?_ ?_ ?_
      · simp [Message.viewId, relinks.views]
      · exact congrArg View.id (congrFun relinks.views _)
      · intro c copies
        exact copies.forgotten_shown shows wf step present leaf (relinks.stand t _)
          ((vbranchDetach o vb).views vbr.view).id
    · rename_i asks
      rw [← Except.ok.inj run]
      exact briefs_of_asks (not_not.mp asks) (tellsOnly_of_outQ outQ)
  · rename_i hidden
    have absent : stand t o vbr.view b = none := by
      rw [stand_of_indexed indexed, hidden]
    have told := fun (c : Client) (copies : c.Copies t o vbr.view) =>
      copies.forgotten_hidden shows wf step absent left
    unfold countMessages at told
    split at run
    · simp only [show (t.mem b).parent = some p from step] at run
      split at run
      · rename_i nothing
        rw [← Except.ok.inj run]
        simp only [nothing] at told
        exact briefs_of_own (List.append_nil _).symm (by simp) rfl told
      · rename_i ep found
        have first : FirstShown t o vbr.view p ep.1 ep.2 := (left.endpoint_iff wf).mp found
        rw [← Except.ok.inj run, shows.branch_eq first.present]
        simp only [found] at told
        exact briefs_of_own rfl (by simp [Message.viewId]) rfl told
    · rename_i asks
      rw [← Except.ok.inj run]
      exact briefs_of_asks (not_not.mp asks) (tellsOnly_of_outQ rfl)

end Forgotten

section Deletes

variable {want : Demands} {m m' : Map} {view : Option ViewPtr} {w : ViewPtr} {b p : BranchPtr}
  {branchId : UInt64}

/-- The client of a view follows the moves that `delete` makes. -/
theorem Sound.deleteChildren_follows (sound : Sound want m.tree m.overlay) (wf : m.tree.WellFormed)
    (oneRoot : m.tree.OneRoot) (parentB : m.tree.parent b = some p) (unordered : ¬want.order)
    (known : viewIndexGet m.overlay (m.overlay.views w).id = some w) {fuel i : ℕ}
    (run : Treedb.deleteChildren b fuel i m = .ok m') :
    Follows w m.tree m'.tree m.overlay m'.overlay := by
  refine (deleteChildren_invariant (R := fun s : Map => Sound want s.tree s.overlay ∧
    s.tree.OneRoot ∧ Follows w m.tree s.tree m.overlay s.overlay) fuel i ?_ wf parentB
    ⟨sound, oneRoot, Follows.refl w m.tree m.overlay⟩ run).1.2.2
  rintro m₁ child m₂ accepted wf₁ parentB₁ step ⟨sound₁, oneRoot₁, follows⟩ moved
  have may : ∀ b' opb npb, moveCheck m₁.tree (m₁.tree.mem m₁.tree.branch).id (m₁.tree.mem b).id
      (m₁.tree.mem child).id = .accept b' opb npb → m₁.MoveMayExpand b' npb := by
    intro b' opb npb accept'
    rw [moveCheck_child wf₁ step, MoveCheck.accept.injEq] at accept'
    rcases accept' with ⟨rfl, rfl, rfl⟩
    exact sound₁.moveMayExpand_root wf₁ (wf₁.indexed_of_parent step) (wf₁.ne_root step)
  refine ⟨sound₁.move wf₁ oneRoot₁ may unordered moved,
    oneRoot₁.edits wf₁ (deleteChildren_step True True wf₁ parentB₁ step moved).1, ?_⟩
  exact follows.trans (sound₁.move_follows wf₁ oneRoot₁ may unordered (by simp)
    (follows.known known) (by simp) moved)

/-- The client of a view follows a delete that another view asks for. -/
theorem Sound.delete_follows (sound : Sound want m.tree m.overlay) (wf : m.tree.WellFormed)
    (oneRoot : m.tree.OneRoot)
    (loose : ∀ b ∈ branchIndexGet m.tree branchId, m.overlay.vbranchList b = [] ∨
      (want.index → want.stale) ∧ (m.tree.children b).length ≤ 1) (unordered : ¬want.order)
    (known : viewIndexGet m.overlay (m.overlay.views w).id = some w) (other : some w ≠ view)
    (run : Treedb.delete m view branchId = .ok m') :
    Follows w m.tree m'.tree m.overlay m'.overlay := by
  by_cases exists' : ∃ b p, m.tree.branchIndex branchId = some b ∧ m.tree.parent b = some p
  · rcases exists' with ⟨b, p, found, parentB⟩
    simp only [Treedb.delete, branchIndexGet, found,
      show (m.tree.mem b).parent = some p from parentB] at run
    rcases bind_eq_ok.mp run with ⟨m₁, moved, run⟩
    rcases bind_eq_ok.mp run with ⟨o₁, deleted, run⟩
    rcases deleteChildren_edits True True _ _ wf parentB moved with ⟨edits, parentB₁⟩
    have wf₁ := edits.wellFormed wf
    rcases sound.deleteChildren wf oneRoot parentB unordered moved with ⟨sound₁, _, bare₁⟩
    have first := sound.deleteChildren_follows wf oneRoot parentB unordered known moved
    have loose₁ : m₁.overlay.vbranchList b = [] ∨
        m₁.tree.children b = [] ∧ (want.index → want.stale) := by
      rcases loose b found with bare | ⟨allowed, few⟩
      · exact .inl (bare₁ bare)
      · exact .inr ⟨(deleteChildren_few _ wf parentB few moved).1, allowed⟩
    have second : Follows w m₁.tree ((Edit.forget b p).apply m₁.tree) m₁.overlay o₁ := by
      refine sound₁.loop_follows wf₁ (first.known known) other ?_ deleted
      intro vbr o₂ o₃ member keeps taken
      rcases sound₁.attached wf₁.root_indexed member with ⟨id, registered⟩
      have shows := (sound₁.shows registered).keeps keeps
      have indexed := wf₁.indexed_of_parent parentB₁
      have hidden : m₁.overlay.vbranchList b = [] → stand m₁.tree o₂ vbr.view b = none := by
        intro bare
        rw [keeps.stand m₁.tree, stand_of_indexed indexed, viewGetVbranch, bare]
        rfl
      have left := keeps.searched.mpr
        ((sound₁.sealed.searched wf₁ indexed (v := vbr.view)).above (anc_of_parent parentB₁))
      exact ⟨shows.deleteInView wf₁ parentB₁ (loose₁.imp_left hidden) unordered taken,
        shows.deleteInView_briefs wf₁ parentB₁ left (loose₁.imp hidden And.left) taken⟩
    simp only [show (m₁.tree.mem b).parent = some p from parentB₁, pure_eq_ok, Except.ok.injEq,
      wf₁.deleteBranch_eq parentB₁] at run
    rw [← run]
    refine (first.trans second).trans ?_
    dsimp only
    split
    · -- The mark of the branch is taken out of its note; no view is told.
      refine ⟨(keeps_push o₁ w _).informs ?_ _, id⟩
      exact ⟨_, rfl, by simp [Message.viewId]⟩
    · exact Follows.refl w _ o₁
  · rw [delete_of_not_found (fun b p found parentB => exists' ⟨b, p, found, parentB⟩) run]
    exact Follows.refl w m.tree m.overlay

end Deletes

end Treedb
