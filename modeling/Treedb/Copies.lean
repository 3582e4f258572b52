import Treedb.Attachment
import Treedb.ExpandTo

/-!
# Copies of views

Every registered view has a client that keeps a copy of it. The server edits the views as it edits
the tree, and tells the client of each view what it did there. The view that asks is told nothing:
its client has made the change before it asked. A client that handles its messages in order has,
after an insert for another view, the copy that it would be sent now.
-/

namespace Treedb

open Forest Overlay Outcome Treedb.Tree Client

/-! ## Who is told -/

/-- The id of the view that a message is for. -/
def Message.viewId : Message → Option UInt32
  | .mapInit viewId .. | .mapInsert viewId .. | .mapCount viewId .. | .mapMove viewId ..
  | .mapDelete viewId .. | .mapUpdate viewId .. => some viewId
  | .mapRemoveMark .. | .ack => none

/-- From `o` to `o'`, the messages for the view with the id `k` were `msgs`. -/
def Overlay.Tells (k : UInt32) (msgs : List Message) (o o' : Overlay) : Prop :=
  ∃ sent, o'.outQ = o.outQ ++ sent ∧ sent.filter (fun msg => msg.viewId = some k) = msgs

/-- From `o` to `o'`, no other view than `v` was told anything. -/
def Overlay.TellsOnly (v : ViewPtr) (o o' : Overlay) : Prop :=
  ∃ sent, o'.outQ = o.outQ ++ sent ∧ ∀ msg ∈ sent, msg.viewId = some (o.views v).id

/-- The view `v` is as before, and its client was told nothing if the view is registered in `o₀`. -/
structure Overlay.Spares (o₀ : Overlay) (v : ViewPtr) (o o' : Overlay) : Prop where
  keeps : Keeps v o o'
  quiet : viewIndexGet o₀ (o₀.views v).id = some v → Tells (o₀.views v).id [] o o'

section Told

variable {want : Demands} {t : Tree} {o o₀ o₁ o₂ o' : Overlay} {v w : ViewPtr} {k : UInt32}
  {msgs msgs' : List Message} {b : BranchPtr} {x : VbranchPtr}

theorem tells_nil (same : o'.outQ = o.outQ) : Tells k [] o o' :=
  ⟨[], by rw [same, List.append_nil], rfl⟩

theorem Overlay.Tells.trans (first : Tells k msgs o o₁) (second : Tells k msgs' o₁ o') :
    Tells k (msgs ++ msgs') o o' := by
  rcases first with ⟨sent, queued, rfl⟩
  rcases second with ⟨sent', queued', rfl⟩
  refine ⟨sent ++ sent', ?_, List.filter_append ..⟩
  rw [queued', queued, List.append_assoc]

theorem tells_of_own {sent : List Message} (queued : o'.outQ = o.outQ ++ sent)
    (own : ∀ msg ∈ sent, msg.viewId = some k) : Tells k sent o o' := by
  refine ⟨sent, queued, List.filter_eq_self.mpr ?_⟩
  intro msg member
  simp [own msg member]

theorem Overlay.TellsOnly.quiet (only : TellsOnly v o o') (other : (o.views v).id ≠ k) :
    Tells k [] o o' := by
  rcases only with ⟨sent, queued, own⟩
  refine ⟨sent, queued, List.filter_eq_nil_iff.mpr ?_⟩
  intro msg member
  simp [own msg member, other]

theorem tellsOnly_of_outQ (same : o'.outQ = o.outQ) : TellsOnly v o o' :=
  ⟨[], by rw [same, List.append_nil], by simp⟩

theorem Overlay.Spares.refl (o₀ : Overlay) (v : ViewPtr) (o : Overlay) : Spares o₀ v o o :=
  ⟨Keeps.refl v o, fun _ => tells_nil rfl⟩

theorem Overlay.Spares.trans (first : Spares o₀ v o o₁) (second : Spares o₀ v o₁ o') :
    Spares o₀ v o o' :=
  ⟨first.keeps.trans second.keeps, fun found => (first.quiet found).trans (second.quiet found)⟩

theorem keeps_queue (o : Overlay) (v : ViewPtr) (msgs : List Message) : Keeps v o (o.queue msgs) :=
  ⟨fun _ _ => rfl, le_rfl, rfl, fun _ => rfl⟩

/-- A view that shows a branch is registered. -/
theorem Sound.registered_of_stand (sound : Sound want t o) (present : stand t o v b = some x) :
    viewIndexGet o (o.views v).id = some v := by
  rcases stand_eq_some.mp present with ⟨indexed, found⟩
  rcases mem_mine.mp (List.mem_of_mem_head? found) with ⟨member, own⟩
  rcases sound.attached indexed member with ⟨id, known⟩
  rw [own] at known
  rw [(sound.registered known).1]
  exact known

/--
A loop over vbranches of a branch, in which each round edits the view of its vbranch and tells no
other view. A view finds itself as it was at the beginning, and stays as its round leaves it.
-/
theorem Sound.rounds_told {f : Overlay → VbranchPtr → Except Fault Overlay}
    (sound : Sound want t o) (indexed : t.Indexed b)
    (round : ∀ vb o₁ o₂, vb ∈ o.vbranchList b → Keeps vb.view o o₁ → f o₁ vb = .ok o₂ →
      Beside vb.view o₁ o₂ ∧ TellsOnly vb.view o₁ o₂)
    (run : (o.vbranchList b).foldlM f o = .ok o') :
    (∀ vb ∈ o.vbranchList b, ∃ o₁ o₂, Spares o vb.view o o₁ ∧ f o₁ vb = .ok o₂ ∧
        Spares o vb.view o₂ o') ∧
      ∀ w, (∀ vb ∈ o.vbranchList b, vb.view ≠ w) → Spares o w o o' := by
  have rounds := foldlM_rounds (F := Spares o) (Spares.refl o) (fun _ _ _ _ first => first.trans)
    (sound.nodup_views indexed) ?_ run
  · refine ⟨rounds.1, ?_⟩
    intro w out
    apply rounds.2 w
    intro used
    rcases List.mem_map.mp used with ⟨vb, member, same⟩
    exact out vb member same
  · intro vb o₁ o₂ member spared taken w other
    rcases round vb o₁ o₂ member spared.keeps taken with ⟨beside, only⟩
    refine ⟨beside.keeps other, ?_⟩
    intro found
    apply only.quiet
    -- The view of the round is registered by its own id.
    rcases sound.attached indexed member with ⟨id, known⟩
    rw [spared.keeps.view, (sound.registered known).1]
    rintro rfl
    rw [found, Option.some.injEq] at known
    exact other known

end Told

/-! ## What a client makes of it -/

/-- The client holds what the view shows of the tree. -/
def Client.Copies (c : Client) (t : Tree) (o : Overlay) (v : ViewPtr) : Prop :=
  Holds c (shown t o v) t.idOf t.parent t.totalOf

/--
The client of `v` was told, from `o` to `o'`, what it needs: if it held what the view showed of `t`,
it holds what the view shows of `t'`.
-/
def Overlay.Informs (v : ViewPtr) (t t' : Tree) (o o' : Overlay) : Prop :=
  ∃ msgs, Tells (o.views v).id msgs o o' ∧ (o'.views v).id = (o.views v).id ∧
    ∀ c : Client, c.Copies t o v → (c.receive msgs).Copies t' o' v

theorem Overlay.Keeps.copies {c : Client} {v : ViewPtr} {o o' : Overlay} (keeps : Keeps v o o')
    (t : Tree) : c.Copies t o' v ↔ c.Copies t o v := by
  unfold Copies shown
  rw [keeps.stand t]

theorem Overlay.Keeps.informs {v : ViewPtr} {o o' : Overlay} (keeps : Keeps v o o')
    (quiet : Tells (o.views v).id [] o o') (t : Tree) : Informs v t t o o' :=
  ⟨[], quiet, by rw [keeps.view], fun _ copies => (keeps.copies t).mpr copies⟩

theorem Overlay.Informs.refl (v : ViewPtr) (t : Tree) (o : Overlay) : Informs v t t o o :=
  ⟨[], tells_nil rfl, rfl, fun _ copies => copies⟩

theorem Overlay.Informs.trans {v : ViewPtr} {t t₁ t' : Tree} {o o₁ o' : Overlay}
    (first : Informs v t t₁ o o₁) (second : Informs v t₁ t' o₁ o') : Informs v t t' o o' := by
  rcases first with ⟨msgs, told, named, copied⟩
  rcases second with ⟨msgs', told', named', copied'⟩
  rw [named] at told' named'
  refine ⟨msgs ++ msgs', told.trans told', named', ?_⟩
  intro c copies
  rw [receive_append]
  exact copied' _ (copied c copies)

/-- The client of `w` was told what it needs, and the view stays registered. -/
structure Overlay.Follows (w : ViewPtr) (t t' : Tree) (o o' : Overlay) : Prop where
  informs : Informs w t t' o o'
  stays : ∀ {k}, viewIndexGet o k = some w → viewIndexGet o' k = some w

section Follows

variable {want : Demands} {t t₁ t' : Tree} {o o₁ o' : Overlay} {v w : ViewPtr} {b pb : BranchPtr}
  {id pos : UInt32} {r : Option VbranchPtr}

theorem Overlay.Follows.refl (w : ViewPtr) (t : Tree) (o : Overlay) : Follows w t t o o :=
  ⟨Informs.refl w t o, id⟩

theorem Overlay.Follows.trans (first : Follows w t t₁ o o₁) (second : Follows w t₁ t' o₁ o') :
    Follows w t t' o o' :=
  ⟨first.informs.trans second.informs, fun found => second.stays (first.stays found)⟩

theorem Overlay.Follows.known (follows : Follows w t t' o o')
    (known : viewIndexGet o (o.views w).id = some w) :
    viewIndexGet o' (o'.views w).id = some w := by
  rcases follows.informs with ⟨_, _, named, _⟩
  rw [named]
  exact follows.stays known

theorem stays_of_index (same : o'.viewIndex = o.viewIndex) {k : UInt32}
    (found : viewIndexGet o k = some w) : viewIndexGet o' k = some w := by
  rw [viewIndexGet, same]
  exact found

/-- A message for another view. -/
theorem follows_push {msg : Message} (known : viewIndexGet o (o.views w).id = some w)
    (own : msg.viewId = some (o.views v).id)
    (found : viewIndexGet o (o.views v).id = some v) (other : w ≠ v) :
    Follows w t t o (o.push msg) := by
  refine ⟨(keeps_push o w msg).informs ?_ t, id⟩
  apply TellsOnly.quiet (v := v) ⟨[msg], rfl, by simpa using own⟩
  intro same
  rw [same, known, Option.some.injEq] at found
  exact other found

theorem shown_congr (stands : stand t' o' v = stand t o v) : shown t' o' v = shown t o v := by
  unfold shown
  rw [stands]

/-- A change that the view cannot see, and that its client is not told. -/
theorem follows_of_stand (stands : stand t o' w = stand t o w) (named : o'.views w = o.views w)
    (same : o'.outQ = o.outQ)
    (stays : ∀ {k}, viewIndexGet o k = some w → viewIndexGet o' k = some w) :
    Follows w t t o o' := by
  refine ⟨⟨[], tells_nil same, by rw [named], ?_⟩, stays⟩
  intro c copies
  unfold Copies
  rw [shown_congr stands]
  exact copies

theorem Overlay.Enlarges.follows (enlarges : Enlarges t v o o') (other : w ≠ v) :
    Follows w t t o o' :=
  follows_of_stand ((enlarges.within.keeps other).stand t) (enlarges.within.keeps other).view
    enlarges.outQ (stays_of_index enlarges.within.viewIndex)

/-- Expanding one view tells no other view anything. -/
theorem Sound.expandTo_follows (sound : Sound want t o) (wf : t.WellFormed)
    (known : viewIndexGet o (o.views w).id = some w) (found : viewIndexGet o id = some v)
    (other : w ≠ v) (indexed : t.Indexed b) (may : o.MayExpand t v b)
    (run : Treedb.viewExpandTo t o v b true = .ok (o', r)) :
    Follows w t t o o' ∧ ∀ y ∈ r, ∀ pos, Follows w t t o (o'.push (expandedMessage t o' y pos)) := by
  have shows := sound.shows found
  have searched := sound.sealed.searched wf indexed (v := v)
  rcases shows.viewExpandTo wf searched indexed (shows.clear_of_mayExpand wf searched indexed may)
    (fun _ x present c child => shows.folded_of_mayExpand wf indexed may present child) run with
    ⟨_, enlarges, _, ends⟩
  have first : Follows w t t o o' := enlarges.follows other
  refine ⟨first, ?_⟩
  rintro y answer pos
  have own : y.view = v := by
    rcases ends with ⟨_, rfl⟩ | ⟨_, e, z, rfl, ended⟩
    · simp at answer
    · rw [← Option.some.inj answer]
      exact view_of_stand ended.present
  refine first.trans (follows_push (v := v) (first.known known) (by rw [← own]; rfl) ?_ other)
  rw [enlarges.within.view_id, (sound.registered found).1]
  exact stays_of_index enlarges.within.viewIndex found

theorem Sound.insertExpand_follows (sound : Sound want t o) (wf : t.WellFormed)
    (known : viewIndexGet o (o.views w).id = some w) (other : some w ≠ viewIndexGet o id)
    (indexed : t.Indexed pb)
    (may : ∀ v ∈ viewIndexGet o id, viewGetVbranch o v pb = none → o.MayExpand t v pb)
    (run : Treedb.insertExpand t o (viewIndexGet o id) pb pos = .ok o') : Follows w t t o o' := by
  unfold Treedb.insertExpand at run
  split at run
  · rw [← Except.ok.inj run]
    exact Follows.refl w t o
  · rename_i v found
    split at run
    · rw [← Except.ok.inj run]
      exact Follows.refl w t o
    · rename_i hidden
      rcases bind_eq_ok.mp run with ⟨⟨o₁, r⟩, expanded, run⟩
      have apart : w ≠ v := fun same => other (by rw [found, same])
      rcases sound.expandTo_follows wf known found apart indexed (may v found hidden) expanded with
        ⟨first, sends⟩
      split at run
      · rw [← Except.ok.inj run]
        exact first
      · rename_i y answer
        rw [← Except.ok.inj run]
        exact sends y answer pos.toNat

end Follows

/-! ## Counting -/

section Count

variable {want : Demands} {t t' : Tree} {o o₁ o' : Overlay} {v : ViewPtr} {b e x : BranchPtr}
  {y : VbranchPtr} {c : Client} {n : ℤ} {count : BranchPtr → UInt32}

/-- The `mapCount` for the first branch on the way up from `b` that the view shows. -/
def countMessages (t : Tree) (o : Overlay) (v : ViewPtr) (b : BranchPtr) (n : ℤ) : List Message :=
  match endpoint t o v b with
  | none => []
  | some ep => [.mapCount (o.views v).id (t.mem ep.1).id n]

theorem viewId_countMessages :
    ∀ msg ∈ countMessages t o v b n, msg.viewId = some (o.views v).id := by
  unfold countMessages
  split
  · simp
  · simp [Message.viewId]

/-- Where the climb finds nothing, nothing is shown on the way. -/
theorem Searched.hidden_of_endpoint (searched : Searched t o v b) (wf : t.WellFormed)
    (nothing : endpoint t o v b = none) (up : Anc t.parent b x) : stand t o v x = none := by
  rw [searched x up]
  have hidden := List.findSome?_eq_none_iff.mp nothing x (wf.mem_chain.mpr up)
  simpa using hidden

open Classical in
/-- A client that is told a counter change corrects the counters of what it holds above `b`. -/
theorem Client.Holds.counted (holds : Holds c (shown t o v) t.idOf t.parent count)
    (shows : Shows want t o v {t.branch}) (wf : t.WellFormed) (searched : Searched t o v b)
    (n : ℤ) :
    Holds (c.receive (countMessages t o v b n)) (shown t o v) t.idOf t.parent fun x =>
      if Anc t.parent b x then count x + UInt32.ofInt n else count x := by
  unfold countMessages
  split
  · rename_i nothing
    apply holds.congr (fun _ _ => rfl) (fun _ _ => rfl)
    intro x there
    rw [if_neg]
    intro up
    exact there (searched.hidden_of_endpoint wf nothing up)
  · rename_i ep found
    have first : FirstShown t o v b ep.1 ep.2 := (searched.endpoint_iff wf).mp found
    have counted := holds.mapCount (shows.framed wf) (mem_shown_of_stand first.present)
      (o.views v).id n
    apply counted.congr (fun _ _ => rfl) (fun _ _ => rfl)
    intro x there
    have same : Anc t.parent ep.1 x ↔ Anc t.parent b x :=
      ⟨first.anc.trans, fun up => first.nearest up there⟩
    simp only [same]

end Count

section Insert

variable {want : Demands} {s t t' : Tree} {o o₁ o' : Overlay} {v : ViewPtr} {view : Option ViewPtr}
  {p pb nb b : BranchPtr} {x pvb vbr : VbranchPtr} {new : Branch} {i : ℕ} {parentId : UInt64}
  {pos : UInt32} {c : Client} {count : BranchPtr → UInt32}

open Classical in
theorem grow_totalOf (wf : t.WellFormed) (allowed : (Edit.grow pb new i).Allowed t)
    (y : BranchPtr) :
    ((Edit.grow pb new i).apply t).totalOf y =
      if y = t.next then 0 else if Anc t.parent pb y then t.totalOf y + 1 else t.totalOf y := by
  have fresh := allowed.1
  have climbed : ∀ z, z ∈ (t.alloc new).chain pb ↔ Anc t.parent pb z := by
    intro z
    rw [(wf.toShape.alloc fresh).mem_chain, wf.alloc_parent fresh]
  have total : ((Edit.grow pb new i).apply t).totalOf y =
      if y ∈ (t.alloc new).chain pb then ((t.alloc new).mem y).totalBranchN +
        (((t.alloc new).mem t.next).totalBranchN + 1)
      else ((t.alloc new).mem y).totalBranchN := by
    rw [totalOf, Edit.grow_apply_mem]
    rfl
  rw [total, alloc_mem_next, fresh.total]
  by_cases here : y = t.next
  · have off := grow_apart wf allowed
    simp only [climbed, here, off, if_true, if_false, alloc_mem_next, fresh.total]
  · simp only [climbed, here, if_false, alloc_mem_of_ne t new here, totalOf, zero_add]

/-- What a client holds of the tree before an insert, in terms of the tree after it. -/
theorem Client.Copies.grow (copies : c.Copies t o v) (wf : t.WellFormed)
    (allowed : (Edit.grow pb new i).Allowed t) (tree : t' = (Edit.grow pb new i).apply t)
    (bare : o.mine v t.next = []) :
    Holds c (shown t' o v) t'.idOf t'.parent t.totalOf ∧ t.next ∉ shown t' o v := by
  have facts := wf.grow_apply allowed
  rw [← tree] at facts
  have same : shown t' o v = shown t o v := by
    unfold shown
    simp only [tree, stand_grow wf allowed bare]
  have old : t.next ∉ shown t o v := by
    intro there
    rcases Option.ne_none_iff_exists'.mp there with ⟨y, present⟩
    exact Nat.lt_irrefl _ (wf.indexed_lt (stand_eq_some.mp present).1)
  have ids : ∀ z, z ≠ t.next → t'.idOf z = t.idOf z := by
    intro z ne
    exact (facts z).2.2.1 ne
  rw [same]
  refine ⟨?_, old⟩
  have before : Holds c (shown t o v) t.idOf t.parent t.totalOf := copies
  apply before.congr
  · intro z there
    exact ids z (ne_of_mem_of_not_mem there old)
  · intro z there
    rw [(facts z).1, if_neg (ne_of_mem_of_not_mem there old)]
    apply Option.map_congr
    intro p step
    exact ids p (wf.parent_lt step).2.ne
  · exact fun _ _ => rfl

/-- A view that hides the new branch tells its client of the counters. -/
theorem Client.Copies.grow_counted (copies : c.Copies t o v) (wf : t.WellFormed)
    (allowed : (Edit.grow pb new i).Allowed t) (tree : t' = (Edit.grow pb new i).apply t)
    (bare : o.mine v t.next = []) (shows : Shows want t' o v {t'.branch})
    (searched : Searched t' o v pb) :
    (c.receive (countMessages t' o v pb 1)).Copies t' o v := by
  rcases copies.grow wf allowed tree bare with ⟨held, old⟩
  have wf' : t'.WellFormed := tree ▸ wf.apply allowed
  apply (held.counted shows wf' searched 1).congr (fun _ _ => rfl) (fun _ _ => rfl)
  intro z there
  have ne : z ≠ t.next := ne_of_mem_of_not_mem there old
  rw [tree, grow_totalOf wf allowed, if_neg ne, grow_anc wf allowed]
  rfl

theorem shown_update (stands : stand t' o' v = Function.update (stand t o v) b (some x)) :
    shown t' o' v = shown t o v ∪ {b} := by
  ext z
  simp only [shown, Set.mem_ofPred_eq, stands, Function.update_apply, Set.union_singleton,
    Set.mem_insert_iff]
  by_cases here : z = b
  · simp [here]
  · simp [here]

open Classical in
/-- A client is sent a vbranch that shows one branch more, below one that it holds. -/
theorem Client.Holds.sent (holds : Holds c (shown t o v) t'.idOf t'.parent count)
    (shows : Shows want t' o' v {t'.branch}) (wf : t'.WellFormed)
    (stands : stand t' o' v = Function.update (stand t o v) b (some x))
    (absent : b ∉ shown t o v) (above : p ∈ shown t o v) (step : t'.parent b = some p)
    (alone : ∀ z ∈ shown t o v, ¬Anc t'.parent z b) (ids : s.idOf = t'.idOf)
    (total : count b = s.totalOf b) (k : UInt32) (pos : ℕ) :
    Holds (c.handle (.mapInsert k (t'.idOf p) pos (vbranchToJson s o' x))) (shown t' o' v) t'.idOf
      t'.parent fun z => if Anc t'.parent p z then count z + (1 + s.totalOf b) else count z := by
  have present : stand t' o' v b = some x := by
    rw [stands, Function.update_self]
  have listed := shown_update stands
  have here : (o'.vmem x).branch = b := shows.branch_eq present
  have below : shownBelow t' o' v {t'.branch} b = {b} := by
    rw [shownBelow_root wf, listed]
    ext z
    constructor
    · rintro ⟨old | same, up⟩
      · exact absurd up (alone z old)
      · exact same
    · rintro rfl
      exact ⟨.inr rfl, anc_refl _ _⟩
  have framed : Framed (shown t o v ∪ {b}) t'.idOf t'.parent := listed ▸ shows.framed wf
  have lists : ∀ k e, ((vbranchToJson s o' x).entries (some (t'.idOf p))).lookup k = some e ↔
      ∃ a ∈ ({b} : Set BranchPtr), t'.idOf a = k ∧ e = ⟨(t'.parent a).map t'.idOf, count a⟩ := by
    intro k e
    rw [shows.lookup_vbranchToJson wf present s (by rw [below]; exact Set.injOn_singleton _ _),
      below]
    simp only [Set.mem_singleton_iff, exists_eq_left, if_true, step, Option.map_some, total, ← ids]
    rfl
  have apart : (vbranchToJson s o' x).id ≠ t'.idOf p := by
    rw [vbranchToJson_id, here, ids]
    intro same
    exact absent (framed.inj (.inr rfl) (.inl above) same ▸ above)
  have added := holds.mapInsert framed lists above apart k pos
  rw [← listed, vbranchToJson_branchN, here] at added
  exact added

/-- A view that gains a vbranch for the new branch sends it to its client. -/
theorem Client.Copies.grow_shown (copies : c.Copies t o v) (wf : t.WellFormed)
    (allowed : (Edit.grow pb new i).Allowed t) (tree : t' = (Edit.grow pb new i).apply t)
    (bare : o.mine v t.next = []) (above : pb ∈ shown t' o v)
    (shows : Shows want t' o' v {t'.branch})
    (stands : stand t' o' v = Function.update (stand t' o v) t.next (some x)) (k : UInt32)
    (pos : ℕ) :
    (c.handle (.mapInsert k (t'.idOf pb) pos (vbranchToJson t' o' x))).Copies t' o' v := by
  rcases copies.grow wf allowed tree bare with ⟨held, old⟩
  have facts := wf.grow_apply allowed
  have totals := grow_totalOf wf allowed
  have climbs := grow_anc wf allowed
  have wf' := wf.apply allowed
  rw [← tree] at facts totals climbs wf'
  have step : t'.parent t.next = some pb := by
    rw [(facts t.next).1, if_pos rfl]
  have total : t'.totalOf t.next = 0 := by
    rw [totals, if_pos rfl]
  have alone : ∀ z ∈ shown t' o v, ¬Anc t'.parent z t.next := by
    intro z there up
    rcases Relation.ReflTransGen.cases_tail up with same | ⟨d, _, step⟩
    · exact old (same ▸ there)
    · rw [Up, (facts d).1] at step
      split at step
      · exact absurd (Option.some.inj step) (wf.indexed_lt allowed.2.2.1).ne
      · exact absurd rfl (wf.parent_lt step).2.ne
  have held₁ : Holds c (shown t' o v) t'.idOf t'.parent fun y =>
      if y = t.next then 0 else t.totalOf y := by
    apply held.congr (fun _ _ => rfl) (fun _ _ => rfl)
    intro z there
    rw [if_neg (ne_of_mem_of_not_mem there old)]
  have sent := held₁.sent shows wf' stands old above step alone rfl (by rw [if_pos rfl, total]) k
    pos
  apply sent.congr (fun _ _ => rfl) (fun _ _ => rfl)
  intro z _
  rw [total, totals, climbs]
  by_cases here : z = t.next
  · have off := grow_apart wf allowed
    simp only [here, off, if_true, if_false]
  · simp only [here, if_false, add_zero]

theorem insertCount_eq (wf : t.WellFormed) (grown : t.children pb ≠ [])
    (own : ∀ vb, viewGetVbranch o vbr.view pb = some vb → (o.vmem vb).branch = pb)
    (other : some vbr.view ≠ view) (run : insertCount t view pb o vbr = .ok o') :
    (∃ vb, viewGetVbranch o vbr.view pb = some vb ∧ o.vchildren vb ≠ [] ∧ o' = o) ∨
      (∀ vb, viewGetVbranch o vbr.view pb = some vb → o.vchildren vb = []) ∧
        o' = o.queue (countMessages t o vbr.view pb 1) := by
  have counts : ∀ {a}, (match endpoint t o vbr.view a with
      | none => .ok o
      | some ep => .ok (o.push (.mapCount (o.views vbr.view).id (t.mem ep.1).id 1)) :
      Except Fault Overlay) = .ok o' → o' = o.queue (countMessages t o vbr.view a 1) := by
    intro a counted
    unfold countMessages
    cases ended : endpoint t o vbr.view a with
    | none =>
        rw [ended] at counted
        simpa [Overlay.queue] using (Except.ok.inj counted).symm
    | some ep =>
        rw [ended] at counted
        exact (Except.ok.inj counted).symm
  have inner : (t.mem pb).childN ≠ 0 := mt (wf.childN_eq_zero_iff pb).mp grown
  unfold insertCount at run
  rw [if_neg other] at run
  cases found : viewGetVbranch o vbr.view pb with
  | none =>
      right
      refine ⟨by simp, ?_⟩
      simp only [found] at run
      cases step : t.parent pb with
      | none => simp [show (t.mem pb).parent = none from step] at run
      | some p =>
          simp only [show (t.mem pb).parent = some p from step] at run
          rw [counts run, countMessages, countMessages, endpoint_of_parent wf found step]
  | some vb =>
      simp only [found, own vb found] at run
      by_cases folded : o.vchildren vb = []
      · right
        refine ⟨by simpa using folded, ?_⟩
        rw [if_pos ⟨inner, folded⟩] at run
        exact counts run
      · left
        refine ⟨vb, rfl, folded, ?_⟩
        rw [if_neg fun both => folded both.2] at run
        exact (Except.ok.inj run).symm

/-- A round of the first loop of `insert` tells at most the view of its vbranch. -/
theorem Sound.insertVbranch_round (sound : Sound want t o) (wf : t.WellFormed)
    (indexed : t.Indexed pb) (step : t.parent nb = some pb) (bare : o.vbranchList nb = [])
    (unordered : ¬want.order) (member : pvb ∈ o.vbranchList pb) (keeps : Keeps pvb.view o o₁)
    (run : Treedb.insertVbranch t view parentId nb pos o₁ pvb = .ok o') :
    Shows want t o' pvb.view {t.branch} ∧ Within t pvb.view o₁ o' ∧
      ((some pvb.view ≠ view ∧ o₁.vchildren pvb = []) ∧ o' = o₁ ∨
        ¬(some pvb.view ≠ view ∧ o₁.vchildren pvb = []) ∧
        stand t o' pvb.view =
          Function.update (stand t o₁ pvb.view) nb (some ⟨pvb.view, o₁.vnext⟩) ∧
        o'.outQ = o₁.outQWith (some pvb.view ≠ view) (.mapInsert (o₁.views pvb.view).id parentId
          pos.toNat (vbranchToJson t o' ⟨pvb.view, o₁.vnext⟩))) := by
  have above := sound.stand_of_mem indexed member
  rcases sound.attached indexed member with ⟨id, found⟩
  have absent : stand t o pvb.view nb = none := by
    rw [stand_of_indexed (wf.indexed_of_parent step), viewGetVbranch, bare]
    rfl
  rw [← keeps.stand t] at above absent
  rcases ((sound.shows found).keeps keeps).insertVbranch wf step above absent
    (fun order => absurd order unordered) run with ⟨after, within, skipped | gained⟩
  · exact ⟨after, within, .inl skipped⟩
  · rcases gained with ⟨goes, stands, o₂, vmem, vnext, outQ⟩
    refine ⟨after, within, .inr ⟨goes, stands, ?_⟩⟩
    rw [outQ, vbranchToJson_congr vmem vnext]

theorem tellsOnly_outQWith {sent : Prop} [Decidable sent] {msg : Message}
    (queued : o'.outQ = o.outQWith sent msg) (own : msg.viewId = some (o.views v).id) :
    TellsOnly v o o' := by
  unfold outQWith at queued
  split at queued
  · exact ⟨[msg], queued, by simpa using own⟩
  · exact tellsOnly_of_outQ queued

theorem Overlay.Keeps.countMessages (keeps : Keeps v o o') (b : BranchPtr) (n : ℤ) :
    countMessages t o' v b n = countMessages t o v b n := by
  unfold Treedb.countMessages
  rw [keeps.endpoint, keeps.view]

theorem Overlay.Keeps.vchildren (keeps : Keeps v o o') (own : x.view = v) :
    o'.vchildren x = o.vchildren x := by
  rw [Overlay.vchildren, keeps.vmem x own, Overlay.vchildren]

end Insert

section Inserted

variable {want : Demands} {m m' : Map} {view : Option ViewPtr} {w : ViewPtr}
  {parentId branchId : UInt64} {pos : UInt32} {text : CString} {mark doc : UInt64} {pb : BranchPtr}
  {o₁ o₂ : Overlay}

theorem InsertStages.indexed_after
    (stages : InsertStages m m' view parentId branchId pos text mark doc pb o₁ o₂)
    (wf : m.tree.WellFormed) : m'.tree.Indexed pb := by
  rw [stages.tree]
  exact ((wf.grow_apply stages.allowed pb).2.2.2).mpr (.inr stages.indexed)

/-- The first loop of `insert` leaves a view alone that does not list the children of the parent. -/
theorem InsertStages.shown_told
    (stages : InsertStages m m' view parentId branchId pos text mark doc pb o₁ o₂)
    (wf : m.tree.WellFormed) (sound : Sound want m.tree o₁) (unordered : ¬want.order)
    (known : viewIndexGet o₁ (o₁.views w).id = some w) (other : some w ≠ view) :
    (∀ vb, viewGetVbranch o₁ w pb = some vb → o₁.vchildren vb = []) ∧ Spares o₁ w o₁ o₂ ∨
      (∃ vb, viewGetVbranch o₂ w pb = some vb ∧ o₂.vchildren vb ≠ []) ∧
        ∃ msgs, Tells (o₁.views w).id msgs o₁ o₂ ∧ (o₂.views w).id = (o₁.views w).id ∧
          ∀ c : Client, c.Copies m.tree o₁ w → (c.receive msgs).Copies m'.tree o₂ w := by
  have bare : ∀ b, m.tree.next ≤ b → o₁.vbranchList b = [] := sound.fresh
  have grown : Sound want m'.tree o₁ := stages.tree ▸ sound.grow wf stages.allowed
  have wf' := stages.wellFormed wf
  have step := stages.parent_next wf
  have indexed := stages.indexed_after wf
  rcases grown.rounds_told indexed (by
    intro pvb o₃ o₄ member keeps added
    rcases grown.insertVbranch_round wf' indexed step (bare _ le_rfl) unordered member keeps added
      with ⟨_, within, ⟨_, rfl⟩ | ⟨_, _, outQ⟩⟩
    · exact ⟨within.toBeside, tellsOnly_of_outQ rfl⟩
    · exact ⟨within.toBeside, tellsOnly_outQWith outQ rfl⟩) stages.shown with ⟨rounds, outside⟩
  cases found : viewGetVbranch o₁ w pb with
  | none =>
      refine .inl ⟨by simp, outside w ?_⟩
      intro vb member same
      exact List.find?_eq_none.mp found vb member (by simpa using same)
  | some pvb =>
      have member := List.mem_of_find?_eq_some found
      have own : pvb.view = w := view_of_viewGetVbranch found
      subst own
      rcases rounds pvb member with ⟨o₃, o₄, before, added, after⟩
      rcases grown.insertVbranch_round wf' indexed step (bare _ le_rfl) unordered member
        before.keeps added with ⟨shows, within, ⟨⟨_, folded⟩, rfl⟩ | ⟨_, stands, outQ⟩⟩
      · refine .inl ⟨?_, before.trans after⟩
        rintro vb same
        rw [← Option.some.inj same, ← before.keeps.vchildren rfl]
        exact folded
      · right
        have ne : pb ≠ m.tree.next := (wf.indexed_lt stages.indexed).ne
        have above₃ : stand m'.tree o₃ pvb.view pb = some pvb := by
          rw [before.keeps.stand, stand_of_indexed indexed]
          exact found
        have above : stand m'.tree o₄ pvb.view pb = some pvb := by
          rw [stands, Function.update_of_ne ne]
          exact above₃
        refine ⟨⟨pvb, ?_, ?_⟩, ?_⟩
        · rw [after.keeps.viewGetVbranch, ← stand_of_indexed indexed]
          exact above
        · rw [after.keeps.vchildren rfl]
          intro folded
          have hidden := shows.hidden_of_folded wf' above folded step
          rw [stands, Function.update_self] at hidden
          simp at hidden
        · rw [outQWith, if_pos other] at outQ
          have told := (before.quiet known).trans
            ((tells_of_own outQ (by simp [Message.viewId, before.keeps.view])).trans
              (after.quiet known))
          refine ⟨_, told, ?_, ?_⟩
          · rw [after.keeps.view, within.view_id, before.keeps.view]
          · intro c copies
            rw [after.keeps.copies]
            rw [← before.keeps.copies] at copies
            have named : m'.tree.idOf pb = parentId := by
              rw [stages.tree]
              exact ((wf.grow_apply stages.allowed pb).2.2.1 ne).trans
                (wf.index_spec stages.known).1
            have bare₃ : o₃.mine pvb.view m.tree.next = [] := by
              rw [before.keeps.mine]
              exact mine_eq_nil (bare _ le_rfl)
            have held := copies.grow_shown wf stages.allowed stages.tree bare₃
              (mem_shown_of_stand above₃) shows stands (o₃.views pvb.view).id pos.toNat
            rw [named] at held
            exact held

/-- The second loop of `insert` tells a view of the counters that does not list the new branch. -/
theorem InsertStages.counted_told
    (stages : InsertStages m m' view parentId branchId pos text mark doc pb o₁ o₂)
    (wf : m.tree.WellFormed) (sound : Sound want m'.tree o₂)
    (known : viewIndexGet o₂ (o₂.views w).id = some w) (other : some w ≠ view) :
    (∃ vb, viewGetVbranch o₂ w pb = some vb ∧ o₂.vchildren vb ≠ []) ∧ Spares o₂ w o₂ m'.overlay ∨
      (∀ vb, viewGetVbranch o₂ w pb = some vb → o₂.vchildren vb = []) ∧ Keeps w o₂ m'.overlay ∧
        Tells (o₂.views w).id (countMessages m'.tree o₂ w pb 1) o₂ m'.overlay := by
  have wf' := stages.wellFormed wf
  have step := stages.parent_next wf
  have indexed := stages.indexed_after wf
  have grown : m'.tree.children pb ≠ [] := List.ne_nil_of_mem (wf'.mirrors.mem_iff.mpr step)
  have own : ∀ {o : Overlay} {vbr vb : VbranchPtr}, vbr ∈ o₂.vbranchList m'.tree.branch →
      Keeps vbr.view o₂ o → viewGetVbranch o vbr.view pb = some vb → (o.vmem vb).branch = pb := by
    intro o vbr vb member keeps found
    rcases sound.attached wf'.root_indexed member with ⟨id, registered⟩
    apply ((sound.shows registered).keeps keeps).branch_eq
    rw [stand_of_indexed indexed]
    exact found
  rcases sound.rounds_told wf'.root_indexed (by
    intro vbr o₃ o₄ member keeps counted
    by_cases asked : some vbr.view = view
    · rw [insertCount, if_pos asked] at counted
      rw [← Except.ok.inj counted]
      exact ⟨Beside.refl _ _, tellsOnly_of_outQ rfl⟩
    · rcases insertCount_eq wf' grown (fun vb => own member keeps) asked counted with
        ⟨_, _, _, rfl⟩ | ⟨_, rfl⟩
      · exact ⟨Beside.refl _ _, tellsOnly_of_outQ rfl⟩
      · exact ⟨(relinks_queue _ _ _).beside, ⟨_, rfl, viewId_countMessages⟩⟩) stages.counted with
    ⟨rounds, _⟩
  have root := (sound.shows known).root
  have member : (o₂.views w).vbranch ∈ o₂.vbranchList m'.tree.branch :=
    List.mem_of_find?_eq_some (by
      rw [stand_of_indexed wf'.root_indexed] at root
      exact root)
  have ofView : (o₂.views w).vbranch.view = w := view_of_stand root
  rcases rounds _ member with ⟨o₃, o₄, before, counted, after⟩
  rw [ofView] at before after
  rcases insertCount_eq wf' grown (fun vb => own member (by rw [ofView]; exact before.keeps))
    (by rw [ofView]; exact other) counted with ⟨vb, found, unfolded, rfl⟩ | ⟨folded, rfl⟩
  · left
    rw [ofView, before.keeps.viewGetVbranch] at found
    rw [before.keeps.vchildren (view_of_viewGetVbranch found)] at unfolded
    exact ⟨⟨vb, found, unfolded⟩, before.trans after⟩
  · right
    refine ⟨?_, ?_, ?_⟩
    · intro vb found
      rw [← before.keeps.vchildren (view_of_viewGetVbranch found)]
      apply folded vb
      rw [ofView, before.keeps.viewGetVbranch]
      exact found
    · exact before.keeps.trans ((keeps_queue o₃ w _).trans after.keeps)
    · have asked : Tells (o₂.views w).id
          (countMessages m'.tree o₃ (o₂.views w).vbranch.view pb 1) o₃
          (o₃.queue (countMessages m'.tree o₃ (o₂.views w).vbranch.view pb 1)) := by
        apply tells_of_own rfl
        rw [ofView, ← before.keeps.view]
        exact viewId_countMessages
      have told := (before.quiet known).trans (asked.trans (after.quiet known))
      rw [ofView, before.keeps.countMessages, List.nil_append, List.append_nil] at told
      exact told

/-- An insert registers no view and forgets none. -/
theorem InsertStages.index_eq
    (stages : InsertStages m m' view parentId branchId pos text mark doc pb o₁ o₂)
    (wf : m.tree.WellFormed) (sound : Sound want m.tree o₁) (unordered : ¬want.order) :
    m'.overlay.viewIndex = o₁.viewIndex := by
  have grown : Sound want m'.tree o₁ := stages.tree ▸ sound.grow wf stages.allowed
  have wf' := stages.wellFormed wf
  have indexed := stages.indexed_after wf
  rcases foldlM_views want m'.tree m'.tree (grown.nodup_views indexed) (by
    intro pvb o₃ o₄ member keeps _ added
    rcases grown.insertVbranch_round wf' indexed (stages.parent_next wf) (sound.fresh _ le_rfl)
      unordered member keeps added with ⟨after, within, _⟩
    exact ⟨after, within⟩) stages.shown with ⟨_, _, registry⟩
  apply foldlM_invariant (fun o => o.viewIndex = o₁.viewIndex) _ registry.viewIndex stages.counted
  intro o₃ vbr o₄ _ before counted
  rcases insertCount_cases counted with rfl | ⟨msg, rfl⟩
  · exact before
  · exact before

/-- The client of a view follows an insert that another view asks for. -/
theorem Sound.insert_follows {id : UInt32} {r : Option BranchPtr}
    (sound : Sound want m.tree m.overlay) (wf : m.tree.WellFormed) (unordered : ¬want.order)
    (may : ∀ pb ∈ branchIndexGet m.tree parentId, branchIndexGet m.tree branchId = none →
      ∀ v ∈ viewIndexGet m.overlay id, viewGetVbranch m.overlay v pb = none →
        m.overlay.MayExpand m.tree v pb)
    (known : viewIndexGet m.overlay (m.overlay.views w).id = some w)
    (other : some w ≠ viewIndexGet m.overlay id)
    (run : Treedb.insert m (viewIndexGet m.overlay id) parentId branchId pos text mark doc =
      .ok (m', r)) : Follows w m.tree m'.tree m.overlay m'.overlay := by
  rcases insert_stages wf run with ⟨rfl, _⟩ | ⟨_, pb, o₁, o₂, stages⟩
  · exact Follows.refl w m'.tree m'.overlay
  have may₁ := may pb stages.known stages.unused
  have sound₁ := sound.insertExpand wf stages.indexed may₁ stages.expanded
  have first := sound.insertExpand_follows wf known other stages.indexed may₁ stages.expanded
  have known₁ := first.known known
  refine first.trans ⟨?_, stays_of_index (stages.index_eq wf sound₁ unordered)⟩
  have wf' := stages.wellFormed wf
  have grown : Sound want m'.tree o₁ := stages.tree ▸ sound₁.grow wf stages.allowed
  have sound₂ := grown.insertVbranch_all wf' (stages.indexed_after wf) (stages.parent_next wf)
    (sound₁.fresh _ le_rfl) (fun order => absurd order unordered) stages.shown
  rcases stages.shown_told wf sound₁ unordered known₁ other with
    ⟨folded, spares⟩ | ⟨⟨vb, found, unfolded⟩, informed⟩
  · have known₂ : viewIndexGet o₂ (o₂.views w).id = some w := by
      apply sound₂.registered_of_stand (b := m'.tree.branch)
      rw [spares.keeps.stand]
      exact (grown.shows known₁).root
    rcases stages.counted_told wf sound₂ known₂ other with
      ⟨⟨vb, found, unfolded⟩, _⟩ | ⟨_, keeps₃, told₃⟩
    · rw [spares.keeps.viewGetVbranch] at found
      rw [spares.keeps.vchildren (view_of_viewGetVbranch found)] at unfolded
      exact absurd (folded vb found) unfolded
    · refine (spares.keeps.informs (spares.quiet known₁) m.tree).trans
        ⟨_, told₃, by rw [keeps₃.view], ?_⟩
      intro c copies
      rw [keeps₃.copies]
      have bare : o₂.mine w m.tree.next = [] := by
        rw [spares.keeps.mine]
        exact mine_eq_nil (sound₁.fresh _ le_rfl)
      exact copies.grow_counted wf stages.allowed stages.tree bare (sound₂.shows known₂)
        (sound₂.sealed.searched wf' (stages.indexed_after wf))
  · rcases informed with ⟨msgs, told, named, copied⟩
    have known₂ : viewIndexGet o₂ (o₂.views w).id = some w :=
      sound₂.registered_of_stand (b := pb) (by
        rw [stand_of_indexed (stages.indexed_after wf)]
        exact found)
    rcases stages.counted_told wf sound₂ known₂ other with ⟨_, spares⟩ | ⟨folded, _⟩
    · exact Informs.trans ⟨msgs, told, named, copied⟩
        (spares.keeps.informs (spares.quiet known₂) m'.tree)
    · exact absurd (folded vb found) unfolded

end Inserted

end Treedb
