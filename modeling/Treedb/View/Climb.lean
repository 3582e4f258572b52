import Treedb.View.Expand

/-!
# Climbs in any view

What `view_expand_to` does where the view is no picture of the tree above the branch, as above a
branch that a delete left behind: when it follows a null pointer, and what it leaves as it is.
-/

namespace Treedb

open Forest Overlay Outcome Treedb.Tree

/-- The view has a vbranch at the branch or above it. -/
def Overlay.Meets (t : Tree) (o : Overlay) (v : ViewPtr) (b : BranchPtr) : Prop :=
  ∃ a, Anc t.parent b a ∧ viewGetVbranch o v a ≠ none

/-- The entries are vbranches of the view `v` that were made between the two states. -/
def Overlay.Late (v : ViewPtr) (o₀ o : Overlay) (list : List VbranchPtr) : Prop :=
  ∀ x ∈ list, x.view = v ∧ o₀.vnext ≤ x.cell ∧ x.cell < o.vnext

/--
The vbranches of the view `v` that were made have lists of at most `n` entries, which were made too,
and those that were there before kept their branches and parents.
-/
structure Overlay.Climbs (v : ViewPtr) (n : ℕ) (o o' : Overlay) : Prop where
  attaches : Attaches o o'
  vnext : o.vnext ≤ o'.vnext
  view_id : ∀ w, (o'.views w).id = (o.views w).id
  view_root : ∀ w, (o'.views w).vbranch = (o.views w).vbranch
  viewIndex : o'.viewIndex = o.viewIndex
  branch : ∀ x, x.cell < o.vnext → (o'.vmem x).branch = (o.vmem x).branch
  added : ∀ b, ∀ x ∈ o'.vbranchList b,
    x ∈ o.vbranchList b ∨ x.view = v ∧ o.vnext ≤ x.cell ∧ x.cell < o'.vnext
  up : ∀ x, x.cell < o.vnext → o'.vparent x = o.vparent x
  down : ∀ x, x.cell < o.vnext →
    o'.vchildren x = o.vchildren x ∨ (o'.vchildren x).length ≤ n
  short : ∀ x, x.view = v → o.vnext ≤ x.cell → x.cell < o'.vnext →
    (o'.vchildren x).length ≤ n
  late : ∀ x, x.view = v → o.vnext ≤ x.cell → x.cell < o'.vnext → Late v o o' (o'.vchildren x)

section Climb

variable {want : Demands} {t : Tree} {o o' o₀ : Overlay} {v : ViewPtr} {a b p : BranchPtr} {x y : VbranchPtr}
  {list : List VbranchPtr} {prev : Option (List VbranchPtr)} {r : Option VbranchPtr} {n : ℕ}

/-! ## Where a climb ends -/

theorem Overlay.meets_iff_endpoint (wf : t.WellFormed) : Meets t o v b ↔ endpoint t o v b ≠ none := by
  rw [← Option.isSome_iff_ne_none, endpoint, List.findSome?_isSome_iff]
  simp only [Meets, Option.isSome_map, Option.isSome_iff_ne_none, wf.mem_chain]

/-- A climb from below the root meets the root of the view. -/
theorem Shows.meets (shows : Shows want t o v {t.branch}) (wf : t.WellFormed)
    (low : Anc t.parent b t.branch) : Meets t o v b := by
  refine ⟨t.branch, low, ?_⟩
  rw [← stand_of_indexed wf.root_indexed, shows.root]
  simp

theorem Overlay.meets_of_parent (step : t.parent b = some p) (hidden : viewGetVbranch o v b = none) :
    Meets t o v b ↔ Meets t o v p := by
  constructor
  · rintro ⟨a, up, found⟩
    rcases (anc_iff_of_parent step).mp up with rfl | up
    · exact absurd hidden found
    · exact ⟨a, up, found⟩
  · rintro ⟨a, up, found⟩
    exact ⟨a, (anc_of_parent step).trans up, found⟩

/-- A round attaches vbranches to the siblings only. -/
theorem expandSibling_apart (t : Tree) (v : ViewPtr) (b : BranchPtr) {bs : List BranchPtr}
    (s : Overlay × Option (List VbranchPtr) × List VbranchPtr) (out : a ∉ bs) :
    (bs.foldl (expandSibling t v b) s).1.vbranchList a = s.1.vbranchList a := by
  induction bs generalizing s with
  | nil => rfl
  | cons c bs ih =>
      rw [List.mem_cons, not_or] at out
      have added : ∀ new : Vbranch, new.branch = c →
          (addVbranch t s.1 v new).1.vbranchList a = s.1.vbranchList a := by
        rintro new rfl
        rw [addVbranch_eq]
        exact Function.update_of_ne out.1 _ _
      rw [List.foldl_cons, ih _ out.2]
      rcases s with ⟨o, _ | prev, list⟩
      · exact added _ rfl
      · simp only [expandSibling]
        split
        · rw [setParents_vbranchList]
          exact added _ rfl
        · exact added _ rfl

/-- A round attaches a vbranch to each sibling. -/
theorem expandSibling_attaches (t : Tree) (v : ViewPtr) (b : BranchPtr) {bs : List BranchPtr}
    (s : Overlay × Option (List VbranchPtr) × List VbranchPtr) (member : a ∈ bs) :
    viewGetVbranch (bs.foldl (expandSibling t v b) s).1 v a ≠ none := by
  induction bs generalizing s with
  | nil => simp at member
  | cons c bs ih =>
      rw [List.foldl_cons]
      by_cases later : a ∈ bs
      · exact ih _ later
      · have here : a = c := by simpa [later] using member
        subst here
        have added : ∀ new : Vbranch, new.branch = a →
            viewGetVbranch (addVbranch t s.1 v new).1 v a ≠ none := by
          rintro new rfl
          rw [viewGetVbranch, addVbranch_eq]
          simp
        rw [viewGetVbranch, expandSibling_apart t v b _ later]
        rcases s with ⟨o, _ | prev, list⟩
        · exact added _ rfl
        · simp only [expandSibling]
          split
          · rw [setParents_vbranchList]
            exact added _ rfl
          · exact added _ rfl

/-- The climb ends exactly if it meets a vbranch of the view. -/
theorem expandToLoop_ok_iff (wf : t.WellFormed) (fuel : ℕ)
    (enough : { a | StrictAnc t.parent b a }.ncard < fuel) :
    (∃ s, expandToLoop t v fuel o b prev = .ok s) ↔ Meets t o v b := by
  induction fuel generalizing o b prev with
  | zero => simp at enough
  | succ fuel ih =>
      cases found : viewGetVbranch o v b with
      | some y =>
          have meets : Meets t o v b := ⟨b, anc_refl _ b, by simp [found]⟩
          simp only [expandToLoop, found, meets, iff_true]
          cases prev with
          | none => exact ⟨_, rfl⟩
          | some list => exact ⟨_, rfl⟩
      | none =>
          cases step : t.parent b with
          | none =>
              simp only [expandToLoop, found, show (t.mem b).parent = none from step]
              constructor
              · rintro ⟨s, run⟩
                simp at run
              · rintro ⟨a, up, there⟩
                rw [(anc_iff_of_root step).mp up] at there
                exact absurd found there
          | some pb =>
              have fewer := ncard_strictAnc_lt wf step
              simp only [expandToLoop, found, show (t.mem b).parent = some pb from step,
                wf.take_children pb]
              rw [ih (by omega), meets_of_parent step found]
              -- The branches above are none of the siblings of `b`.
              refine exists_congr fun a => and_congr_right fun up => ?_
              rw [viewGetVbranch, expandSibling_apart t v b _ ?_, viewGetVbranch]
              intro member
              exact wf.acyclic.not_anc_of_strict (strictAnc_iff_parent.mpr
                ⟨pb, wf.mirrors.mem_iff.mp member, anc_refl _ pb⟩) up

/-- A branch without a parent is not climbed from, and elsewhere the climb needs a vbranch. -/
theorem viewExpandTo_ok_iff (wf : t.WellFormed) (withChildren : Bool) :
    (∃ s, viewExpandTo t o v b withChildren = .ok s) ↔ t.parent b = none ∨ Meets t o v b := by
  have path : (∃ s, viewExpandTo t o v b withChildren = .ok s) ↔ ∃ s, expandPath t o v b = .ok s := by
    constructor
    · rintro ⟨s, run⟩
      rcases bind_eq_ok.mp run with ⟨s, climbed, _⟩
      exact ⟨s, climbed⟩
    · rintro ⟨s, climbed⟩
      rw [viewExpandTo, climbed]
      exact ⟨_, rfl⟩
  rw [path]
  cases step : t.parent b with
  | none => simp [expandPath, show (t.mem b).parent = none from step]
  | some p =>
      simp only [expandPath, show (t.mem b).parent = some p from step, reduceCtorEq, false_or]
      exact expandToLoop_ok_iff wf _ (ncard_strictAnc_lt_fuel wf b)

/-! ## What a climb leaves as it is -/

theorem Overlay.Climbs.refl (v : ViewPtr) (n : ℕ) (o : Overlay) : Climbs v n o o where
  attaches := Attaches.refl o
  vnext := le_refl _
  view_id := fun _ => rfl
  view_root := fun _ => rfl
  viewIndex := rfl
  branch := fun _ _ => rfl
  added := fun _ _ member => .inl member
  up := fun _ _ => rfl
  down := fun _ _ => .inl rfl
  short := fun _ _ old new => absurd new (Nat.not_lt.mpr old)
  late := fun _ _ old new => absurd new (Nat.not_lt.mpr old)

theorem Overlay.Late.mono {o₁ : Overlay} (late : Late v o₀ o list) (le : o.vnext ≤ o₁.vnext) :
    Late v o₀ o₁ list :=
  fun x member => ⟨(late x member).1, (late x member).2.1, (late x member).2.2.trans_le le⟩

theorem Overlay.Climbs.addVbranch (climbs : Climbs v n o₀ o) (t : Tree) (new : Vbranch)
    (short : new.childList.length ≤ n) (late : Late v o₀ o new.childList) :
    Climbs v n o₀ (addVbranch t o v new).1 := by
  have vnext : (Treedb.addVbranch t o v new).1.vnext = o.vnext + 1 := by
    rw [addVbranch_eq]
    rfl
  have grows : o.vnext ≤ (Treedb.addVbranch t o v new).1.vnext := vnext ▸ Nat.le_succ _
  have old : ∀ x : VbranchPtr, x ≠ ⟨v, o.vnext⟩ →
      (Treedb.addVbranch t o v new).1.vmem x = o.vmem x := by
    intro x other
    rw [addVbranch_vmem, if_neg other]
  have apart : ∀ x : VbranchPtr, x.cell < o₀.vnext → x ≠ ⟨v, o.vnext⟩ := by
    rintro x early rfl
    exact absurd (early.trans_le climbs.vnext) (Nat.lt_irrefl _)
  have before : ∀ x : VbranchPtr, x.view = v → x ≠ ⟨v, o.vnext⟩ →
      x.cell < (Treedb.addVbranch t o v new).1.vnext → x.cell < o.vnext := by
    intro x own last early
    rw [vnext] at early
    have other : x.cell ≠ o.vnext := by
      rintro same
      apply last
      cases x
      simp_all
    omega
  have views : ∀ w, ((Treedb.addVbranch t o v new).1.views w).id = (o.views w).id ∧
      ((Treedb.addVbranch t o v new).1.views w).vbranch = (o.views w).vbranch := by
    intro w
    rw [addVbranch_eq]
    simp only [vbranchIndexPut, vbranchNew, Function.update_apply]
    split
    · rename_i same
      rw [same]
      exact ⟨rfl, rfl⟩
    · exact ⟨rfl, rfl⟩
  refine ⟨climbs.attaches.trans (attaches_addVbranch t o v new), climbs.vnext.trans grows,
    fun w => (views w).1.trans (climbs.view_id w), fun w => (views w).2.trans (climbs.view_root w),
    climbs.viewIndex, ?_, ?_, ?_, ?_, ?_, ?_⟩
  · intro x early
    rw [old x (apart x early)]
    exact climbs.branch x early
  · intro b x member
    have cases : x ∈ o.vbranchList b ∨ x = ⟨v, o.vnext⟩ := by
      rw [addVbranch_eq] at member
      dsimp only at member
      rw [Function.update_apply] at member
      split at member
      · rename_i here
        rw [here]
        simpa using member
      · exact .inl member
    rcases cases with known | rfl
    · rcases climbs.added b x known with older | ⟨own, made, early⟩
      · exact .inl older
      · exact .inr ⟨own, made, early.trans_le grows⟩
    · rw [vnext]
      exact .inr ⟨rfl, climbs.vnext, Nat.lt_succ_self _⟩
  · intro x early
    rw [vparent, old x (apart x early)]
    exact climbs.up x early
  · intro x early
    rw [vchildren, old x (apart x early)]
    exact climbs.down x early
  · intro x own made early
    by_cases last : x = ⟨v, o.vnext⟩
    · rw [vchildren, addVbranch_vmem, if_pos last]
      exact short
    · rw [vchildren, old x last]
      exact climbs.short x own made (before x own last early)
  · intro x own made early
    by_cases last : x = ⟨v, o.vnext⟩
    · rw [vchildren, addVbranch_vmem, if_pos last]
      exact late.mono grows
    · rw [vchildren, old x last]
      exact (climbs.late x own made (before x own last early)).mono grows

theorem setParents_registry (o : Overlay) (x : VbranchPtr) (list : List VbranchPtr) :
    (setParents o x list).vnext = o.vnext ∧ (setParents o x list).views = o.views ∧
      (setParents o x list).viewIndex = o.viewIndex := by
  induction list generalizing o with
  | nil => exact ⟨rfl, rfl, rfl⟩
  | cons z list ih => exact ih _

theorem Overlay.Climbs.setParents (climbs : Climbs v n o₀ o) (y : VbranchPtr)
    (late : Late v o₀ o list) : Climbs v n o₀ (setParents o y list) := by
  rcases setParents_registry o y list with ⟨vnext, views, index⟩
  have down : ∀ x, (Treedb.setParents o y list).vchildren x = o.vchildren x := by
    intro x
    rw [vchildren, setParents_vmem]
    split
    · rfl
    · rfl
  refine ⟨?_, ?_, ?_, ?_, index.trans climbs.viewIndex, ?_, ?_, ?_, ?_, ?_, ?_⟩
  · intro b
    rw [setParents_vbranchList]
    exact climbs.attaches b
  · rw [vnext]
    exact climbs.vnext
  · rw [views]
    exact climbs.view_id
  · rw [views]
    exact climbs.view_root
  · intro x early
    rw [← climbs.branch x early, setParents_vmem]
    split
    · rfl
    · rfl
  · rw [setParents_vbranchList, vnext]
    exact climbs.added
  · intro x early
    rw [vparent, setParents_vmem,
      if_neg fun member => absurd early (Nat.not_lt.mpr (late x member).2.1)]
    exact climbs.up x early
  · intro x early
    rw [down]
    exact climbs.down x early
  · intro x own made early
    rw [down]
    exact climbs.short x own made (vnext ▸ early)
  · intro x own made early
    rw [down]
    exact (climbs.late x own made (vnext ▸ early)).mono vnext.ge

theorem Overlay.Climbs.modify (climbs : Climbs v n o₀ o) (y : VbranchPtr)
    (short : list.length ≤ n) (late : Late v o₀ o list) :
    Climbs v n o₀ (o.modify y fun x => { x with childList := list }) := by
  have lists : ∀ x, (o.modify y fun x => { x with childList := list }).vchildren x =
      if x = y then list else o.vchildren x := by
    intro x
    rw [vchildren, modify_vmem]
    split
    · rfl
    · rfl
  refine ⟨climbs.attaches, climbs.vnext, climbs.view_id, climbs.view_root, climbs.viewIndex, ?_,
    climbs.added, ?_, ?_, ?_, ?_⟩
  · intro x early
    rw [← climbs.branch x early, modify_vmem]
    split
    · rename_i same
      rw [same]
    · rfl
  · intro x early
    rw [← climbs.up x early, vparent, modify_vmem]
    split
    · rename_i same
      rw [same]
      rfl
    · rfl
  · intro x early
    rw [lists]
    split
    · exact .inr short
    · exact climbs.down x early
  · intro x own made early
    rw [lists]
    split
    · exact short
    · exact climbs.short x own made early
  · intro x own made early
    rw [lists]
    split
    · exact late
    · exact climbs.late x own made early

/-- A vbranch that was just made is put at the end of the list. -/
theorem Overlay.Climbs.concat (climbs : Climbs v n o₀ o) (late : Late v o₀ o list) (t : Tree)
    (new : Vbranch) : Late v o₀ (Treedb.addVbranch t o v new).1 (list ++ [⟨v, o.vnext⟩]) := by
  have vnext : (Treedb.addVbranch t o v new).1.vnext = o.vnext + 1 := by
    rw [addVbranch_eq]
    rfl
  intro x member
  rcases List.mem_append.mp member with old | last
  · exact late.mono (vnext ▸ Nat.le_succ _) x old
  · rw [List.mem_singleton.mp last, vnext]
    exact ⟨rfl, climbs.vnext, Nat.lt_succ_self _⟩

theorem Overlay.Climbs.expandSibling (climbs : Climbs v n o₀ o) (t : Tree) (b : BranchPtr)
    (bs : List BranchPtr) (prev : Option (List VbranchPtr)) (list : List VbranchPtr)
    (before : ∀ list ∈ prev, list.length ≤ n ∧ Late v o₀ o list) (late : Late v o₀ o list) :
    Climbs v n o₀ (bs.foldl (expandSibling t v b) (o, prev, list)).1 ∧
      Late v o₀ (bs.foldl (Treedb.expandSibling t v b) (o, prev, list)).1
        (bs.foldl (Treedb.expandSibling t v b) (o, prev, list)).2.2 ∧
      (bs.foldl (Treedb.expandSibling t v b) (o, prev, list)).2.2.length =
        list.length + bs.length := by
  induction bs generalizing o prev list with
  | nil => exact ⟨climbs, late, rfl⟩
  | cons c bs ih =>
      have count : (list ++ [(⟨v, o.vnext⟩ : VbranchPtr)]).length + bs.length =
          list.length + (c :: bs).length := by
        simp only [List.length_append, List.length_cons, List.length_nil]
        omega
      have grows : ∀ new, o.vnext ≤ (Treedb.addVbranch t o v new).1.vnext :=
        fun new => (addVbranch_beside t o v new).vnext
      rw [List.foldl_cons, ← count]
      cases prev with
      | none =>
          exact ih (climbs.addVbranch t { branch := c } (Nat.zero_le _) (by simp [Late])) _ _
            (by simp) (climbs.concat late t _)
      | some prev =>
          rcases before prev rfl with ⟨short, latePrev⟩
          by_cases here : c = b
          · simp only [Treedb.expandSibling, if_pos here]
            have made := climbs.addVbranch t { branch := c, childList := prev } short latePrev
            refine ih (made.setParents ⟨v, o.vnext⟩ (latePrev.mono (grows _))) _ _ (by simp) ?_
            exact (climbs.concat late t _).mono (setParents_registry _ _ _).1.ge
          · simp only [Treedb.expandSibling, if_neg here]
            refine ih (climbs.addVbranch t { branch := c } (Nat.zero_le _) (by simp [Late])) _ _ ?_
              (climbs.concat late t _)
            rintro list ⟨⟩
            exact ⟨short, latePrev.mono (grows _)⟩

theorem Overlay.Climbs.expandToLoop (climbs : Climbs v n o₀ o) (wf : t.WellFormed)
    (room : ∀ p, (t.children p).length ≤ n) (fuel : ℕ)
    (before : ∀ list ∈ prev, list.length ≤ n ∧ Late v o₀ o list)
    (run : expandToLoop t v fuel o b prev = .ok (o', r)) : Climbs v n o₀ o' := by
  induction fuel generalizing o b prev with
  | zero =>
      simp only [Treedb.expandToLoop, Except.ok.injEq, Prod.mk.injEq] at run
      rw [← run.1]
      exact climbs
  | succ fuel ih =>
      cases found : viewGetVbranch o v b with
      | some y =>
          simp only [Treedb.expandToLoop, found] at run
          cases prev with
          | none =>
              simp only [Except.ok.injEq, Prod.mk.injEq] at run
              rw [← run.1]
              exact climbs
          | some list =>
              simp only [Except.ok.injEq, Prod.mk.injEq] at run
              rw [← run.1]
              rcases before list rfl with ⟨short, late⟩
              exact (climbs.modify y short late).setParents y late
      | none =>
          simp only [Treedb.expandToLoop, found] at run
          split at run
          · simp at run
          · rename_i pb step
            rw [wf.take_children pb] at run
            rcases climbs.expandSibling t b (t.children pb) prev [] before (by simp [Late]) with
              ⟨round, late, count⟩
            refine ih round ?_ run
            rintro list made
            rw [← Option.some.inj made, count]
            exact ⟨by simpa using room pb, late⟩

theorem Overlay.Climbs.expandChildren (climbs : Climbs v n o₀ o) (wf : t.WellFormed)
    (room : ∀ p, (t.children p).length ≤ n) (b : BranchPtr) :
    Climbs v n o₀ (expandChildren t o v b) := by
  have made : ∀ (bs : List BranchPtr) (y : VbranchPtr) (s : Overlay × List VbranchPtr),
      Climbs v n o₀ s.1 → Late v o₀ s.1 s.2 →
      Climbs v n o₀ (bs.foldl (addTo t v (some y)) s).1 ∧
      Late v o₀ (bs.foldl (addTo t v (some y)) s).1 (bs.foldl (addTo t v (some y)) s).2 ∧
      (bs.foldl (addTo t v (some y)) s).2.length = s.2.length + bs.length := by
    intro bs y
    induction bs with
    | nil => exact fun s climbs late => ⟨climbs, late, rfl⟩
    | cons c bs ih =>
        intro s climbs late
        have next := climbs.addVbranch t { branch := c, parent := some y }
          (Nat.zero_le _) (by simp [Late])
        rcases ih (addTo t v (some y) s c) next (climbs.concat late t _) with ⟨rest, row, count⟩
        refine ⟨rest, row, count.trans ?_⟩
        simp only [addTo, List.length_append, List.length_cons, List.length_nil]
        omega
  unfold Treedb.expandChildren
  split
  · exact climbs
  · split
    · exact climbs
    · rename_i y _
      rw [wf.take_children b]
      rcases made (t.children b) y (o, []) climbs (by simp [Late]) with ⟨all, row, count⟩
      refine all.modify y ?_ row
      change ((t.children b).foldl (addTo t v (some y)) (o, [])).2.length ≤ n
      rw [count]
      simpa using room b

theorem Overlay.Climbs.viewExpandTo {withChildren : Bool} (climbs : Climbs v n o₀ o)
    (wf : t.WellFormed) (room : ∀ p, (t.children p).length ≤ n)
    (run : viewExpandTo t o v b withChildren = .ok (o', r)) : Climbs v n o₀ o' := by
  rcases bind_eq_ok.mp run with ⟨⟨o₁, r₁⟩, climb, run⟩
  simp only [pure_eq_ok, Except.ok.injEq, Prod.mk.injEq] at run
  have path : Climbs v n o₀ o₁ := by
    unfold expandPath at climb
    split at climb
    · rw [← (Prod.mk.inj (Except.ok.inj climb)).1]
      exact climbs
    · exact climbs.expandToLoop wf room _ (by simp) climb
  rw [← run.1]
  split
  · exact path.expandChildren wf room b
  · exact path

theorem viewExpandTo_climbs {withChildren : Bool} (wf : t.WellFormed)
    (room : ∀ p, (t.children p).length ≤ n)
    (run : viewExpandTo t o v b withChildren = .ok (o', r)) : Climbs v n o o' :=
  (Climbs.refl v n o).viewExpandTo wf room run

theorem attaches_expandToLoop (fuel : ℕ)
    (run : expandToLoop t v fuel o b prev = .ok (o', r)) : Attaches o o' := by
  induction fuel generalizing o b prev with
  | zero =>
      simp only [expandToLoop, Except.ok.injEq, Prod.mk.injEq] at run
      rw [← run.1]
      exact Attaches.refl o
  | succ fuel ih =>
      cases found : viewGetVbranch o v b with
      | some y =>
          simp only [expandToLoop, found] at run
          cases prev with
          | none =>
              simp only [Except.ok.injEq, Prod.mk.injEq] at run
              rw [← run.1]
              exact Attaches.refl o
          | some list =>
              simp only [Except.ok.injEq, Prod.mk.injEq] at run
              rw [← run.1]
              intro a
              rw [setParents_vbranchList]
              exact List.prefix_rfl
      | none =>
          simp only [expandToLoop, found] at run
          split at run
          · simp at run
          · exact (attaches_expandSibling t v b _ (o, prev, [])).trans (ih run)

/-- After the climb the view has a vbranch at the branch. -/
theorem viewExpandTo_attaches {withChildren : Bool} (wf : t.WellFormed) (inner : t.parent b ≠ none)
    (run : viewExpandTo t o v b withChildren = .ok (o', r)) : viewGetVbranch o' v b ≠ none := by
  rcases Option.ne_none_iff_exists'.mp inner with ⟨p, step⟩
  rcases bind_eq_ok.mp run with ⟨⟨o₁, r₁⟩, climb, run⟩
  simp only [pure_eq_ok, Except.ok.injEq, Prod.mk.injEq] at run
  have last : Attaches o₁ o' := by
    rw [← run.1]
    split
    · exact ((Climbs.refl v _ o₁).expandChildren wf wf.children_length_le b).attaches
    · exact Attaches.refl o₁
  have kept : ∀ {o₂ : Overlay}, Attaches o₂ o' → viewGetVbranch o₂ v b ≠ none →
      viewGetVbranch o' v b ≠ none := by
    intro o₂ attaches there
    rcases Option.ne_none_iff_exists'.mp there with ⟨x, found⟩
    simp [attaches.found found]
  simp only [expandPath, show (t.mem b).parent = some p from step] at climb
  have attaches := attaches_expandToLoop _ climb
  cases found : viewGetVbranch o v b with
  | some x => exact kept (attaches.trans last) (by simp [found])
  | none =>
      simp only [expandToLoop, found, show (t.mem b).parent = some p from step,
        wf.take_children p] at climb
      refine kept ((attaches_expandToLoop _ climb).trans last) ?_
      exact expandSibling_attaches t v b (o, none, []) (wf.mirrors.mem_iff.mpr step)

/-! ## What a climb makes of a hidden branch -/

/-- The branches that a list of vbranches stands for. -/
def Overlay.branches (o : Overlay) (list : List VbranchPtr) : List BranchPtr :=
  list.map fun y => (o.vmem y).branch

/-- A row of new vbranches stands for the branches that it was made for. -/
theorem foldl_addTo_row (t : Tree) (v : ViewPtr) (above : Option VbranchPtr) (bs : List BranchPtr)
    (s : Overlay × List VbranchPtr) :
    ∃ row, (bs.foldl (addTo t v above) s).2 = s.2 ++ row ∧
      (bs.foldl (addTo t v above) s).1.branches row = bs ∧
      (∀ x ∈ row, x.view = v ∧ s.1.vnext ≤ x.cell) ∧
      ∀ x, x.cell < s.1.vnext → (bs.foldl (addTo t v above) s).1.vmem x = s.1.vmem x := by
  induction bs generalizing s with
  | nil => exact ⟨[], by simp, rfl, by simp, fun _ _ => rfl⟩
  | cons b bs ih =>
      rw [List.foldl_cons]
      rcases ih (addTo t v above s b) with ⟨row, ends, branches, late, kept⟩
      have vnext : (addTo t v above s b).1.vnext = s.1.vnext + 1 := by
        rw [addTo, addVbranch_eq]
        rfl
      rw [vnext] at late kept
      have new := kept ⟨v, s.1.vnext⟩ (Nat.lt_succ_self _)
      refine ⟨⟨v, s.1.vnext⟩ :: row, ?_, ?_, ?_, ?_⟩
      · rw [ends]
        simp [addTo, addVbranch]
        rfl
      · rw [Overlay.branches, List.map_cons, ← Overlay.branches, branches, new, addTo,
          addVbranch_vmem, if_pos rfl]
      · intro x member
        rcases List.mem_cons.mp member with rfl | member
        · exact ⟨rfl, Nat.le_refl _⟩
        · exact ⟨(late x member).1, (Nat.le_succ _).trans (late x member).2⟩
      · intro x early
        rw [kept x (early.trans (Nat.lt_succ_self _)), addTo, addVbranch_vmem, if_neg]
        rintro rfl
        exact Nat.lt_irrefl _ early

/-- What stands for the branch lists its children, with vbranches that were not there before. -/
structure Overlay.Arrives (t : Tree) (v : ViewPtr) (b : BranchPtr) (x : VbranchPtr) (n : ℕ)
    (o : Overlay) : Prop where
  found : viewGetVbranch o v b = some x
  late : n ≤ x.cell
  lists : o.branches (o.vchildren x) = t.children b
  own : ∀ y ∈ o.vchildren x, y.view = v ∧ n ≤ y.cell

/-- An empty list is filled. -/
theorem expandChildren_arrives (wf : t.WellFormed) (found : viewGetVbranch o v b = some x)
    (late : n ≤ x.cell) (base : n ≤ o.vnext) (bare : o.vchildren x = []) :
    Arrives t v b x n (expandChildren t o v b) := by
  have attaches := ((Climbs.refl v _ o).expandChildren wf wf.children_length_le b).attaches
  have found' := attaches.found found
  by_cases leaf : t.children b = []
  · have idle : expandChildren t o v b = o := by
      rw [expandChildren, if_pos ((wf.childN_eq_zero_iff b).mpr leaf)]
    rw [idle]
    refine ⟨found, late, ?_, ?_⟩
    · rw [bare, leaf]
      rfl
    · rw [bare]
      simp
  · rcases foldl_addTo_row t v (some x) (t.children b) (o, []) with ⟨row, ends, branches, own, _⟩
    have filled : expandChildren t o v b =
        ((t.children b).foldl (addTo t v (some x)) (o, [])).1.modify x
          fun z => { z with childList := row } := by
      rw [expandChildren, if_neg ((wf.childN_eq_zero_iff b).not.mpr leaf), found]
      dsimp only
      rw [wf.take_children b]
      rw [List.nil_append] at ends
      rw [← ends]
      rfl
    have list : (expandChildren t o v b).vchildren x = row := by
      rw [filled, vchildren, modify_vmem, if_pos rfl]
    refine ⟨found', late, ?_, ?_⟩
    · rw [list, ← branches, filled]
      apply List.map_congr_left
      intro y _
      rw [modify_vmem]
      split
      · rename_i same
        rw [same]
      · rfl
    · rw [list]
      exact fun y member => ⟨(own y member).1, base.trans (own y member).2⟩

/-- A round makes vbranches, and no list of those that were there changes. -/
theorem expandSibling_vchildren (t : Tree) (v : ViewPtr) (b : BranchPtr) (bs : List BranchPtr)
    (s : Overlay × Option (List VbranchPtr) × List VbranchPtr) (early : x.cell < s.1.vnext) :
    (bs.foldl (expandSibling t v b) s).1.vchildren x = s.1.vchildren x ∧
      x.cell < (bs.foldl (expandSibling t v b) s).1.vnext := by
  induction bs generalizing s with
  | nil => exact ⟨rfl, early⟩
  | cons c bs ih =>
      have round : (expandSibling t v b s c).1.vchildren x = s.1.vchildren x ∧
          x.cell < (expandSibling t v b s c).1.vnext := by
        have added : ∀ new : Vbranch, (addVbranch t s.1 v new).1.vchildren x = s.1.vchildren x ∧
            x.cell < (addVbranch t s.1 v new).1.vnext := by
          intro new
          rw [vchildren, addVbranch_vmem, if_neg, addVbranch_eq]
          · exact ⟨rfl, early.trans (Nat.lt_succ_self _)⟩
          · rintro rfl
            exact Nat.lt_irrefl _ early
        rcases s with ⟨o, _ | prev, list⟩
        · exact added _
        · simp only [expandSibling]
          split
          · rw [vchildren, setParents_vmem, (setParents_registry _ _ _).1]
            refine ⟨?_, (added _).2⟩
            rw [← (added { branch := c, childList := prev }).1]
            split
            · rfl
            · rfl
          · exact added _
      rw [List.foldl_cons]
      rcases ih _ round.2 with ⟨same, later⟩
      exact ⟨same.trans round.1, later⟩

/-- A climb leaves the list of a vbranch that it cannot end at. -/
theorem expandToLoop_spares (wf : t.WellFormed) (fuel : ℕ) (early : x.cell < o.vnext)
    (away : ∀ a, Anc t.parent b a → x ∉ o.vbranchList a)
    (run : expandToLoop t v fuel o b prev = .ok (o', r)) : o'.vchildren x = o.vchildren x := by
  induction fuel generalizing o b prev with
  | zero =>
      simp only [expandToLoop, Except.ok.injEq, Prod.mk.injEq] at run
      rw [← run.1]
  | succ fuel ih =>
      cases found : viewGetVbranch o v b with
      | some y =>
          have other : x ≠ y := by
            rintro rfl
            exact away b (anc_refl _ b) (List.mem_of_find?_eq_some found)
          simp only [expandToLoop, found] at run
          cases prev with
          | none =>
              simp only [Except.ok.injEq, Prod.mk.injEq] at run
              rw [← run.1]
          | some list =>
              simp only [Except.ok.injEq, Prod.mk.injEq] at run
              rw [← run.1, vchildren, setParents_vmem, modify_vmem, if_neg other]
              split
              · rfl
              · rfl
      | none =>
          simp only [expandToLoop, found] at run
          split at run
          · simp at run
          · rename_i pb step
            rw [wf.take_children pb] at run
            rcases expandSibling_vchildren t v b (t.children pb) (o, prev, []) early with
              ⟨same, early'⟩
            rw [ih early' _ run, same]
            -- The branches above are none of the siblings of `b`.
            intro a up
            rw [expandSibling_apart t v b]
            · exact away a ((anc_of_parent step).trans up)
            · intro member
              exact wf.acyclic.not_anc_of_strict (strictAnc_iff_parent.mpr
                ⟨pb, wf.mirrors.mem_iff.mp member, anc_refl _ pb⟩) up

theorem expandToLoop_found (wf : t.WellFormed) (fuel : ℕ)
    (enough : { a | StrictAnc t.parent b a }.ncard < fuel)
    (run : expandToLoop t v fuel o b prev = .ok (o', r)) : r ≠ none := by
  induction fuel generalizing o b prev with
  | zero => simp at enough
  | succ fuel ih =>
      cases found : viewGetVbranch o v b with
      | some y =>
          simp only [expandToLoop, found] at run
          cases prev with
          | none =>
              simp only [Except.ok.injEq, Prod.mk.injEq] at run
              simp [← run.2]
          | some list =>
              simp only [Except.ok.injEq, Prod.mk.injEq] at run
              simp [← run.2]
      | none =>
          simp only [expandToLoop, found] at run
          split at run
          · simp at run
          · rename_i pb step
            have fewer := ncard_strictAnc_lt wf step
            exact ih (by omega) run

/-- A climb from a hidden branch makes a vbranch for it, below which all its children are listed. -/
theorem viewExpandTo_arrives (wf : t.WellFormed)
    (made : ∀ a, ∀ y ∈ o.mine v a, y.cell < o.vnext) (hidden : viewGetVbranch o v b = none)
    (inner : t.parent b ≠ none) (run : viewExpandTo t o v b true = .ok (o', r)) :
    r ≠ none ∧ ∃ x, Arrives t v b x o.vnext o' := by
  rcases Option.ne_none_iff_exists'.mp inner with ⟨p, step⟩
  rcases bind_eq_ok.mp run with ⟨⟨o₂, r₂⟩, climb, run⟩
  simp only [pure_eq_ok, if_true, Except.ok.injEq, Prod.mk.injEq] at run
  have path : viewExpandTo t o v b false = .ok (o₂, r₂) := by
    rw [viewExpandTo, climb]
    rfl
  have base := (viewExpandTo_climbs wf wf.children_length_le path).vnext
  simp only [expandPath, show (t.mem b).parent = some p from step] at climb
  have ends := expandToLoop_found wf _ (ncard_strictAnc_lt_fuel wf b) climb
  simp only [expandToLoop, hidden, show (t.mem b).parent = some p from step,
    wf.take_children p] at climb
  -- The first round makes vbranches without children for the branch and its siblings.
  generalize first : (t.children p).foldl (expandSibling t v b) (o, none, []) = s at climb
  have round := ((Climbs.refl v 0 o).expandSibling t b (t.children p) none [] (by simp)
    (by simp [Late])).1
  have there := expandSibling_attaches t v b (o, none, []) (wf.mirrors.mem_iff.mpr step)
  rw [first] at round there
  rcases Option.ne_none_iff_exists'.mp there with ⟨x, found⟩
  have own := view_of_viewGetVbranch found
  rcases round.added b x (List.mem_of_find?_eq_some found) with before | ⟨_, late, early⟩
  · exact absurd hidden (by simp [viewGetVbranch, List.find?_eq_none]; exact ⟨x, before, own⟩)
  have bare : s.1.vchildren x = [] :=
    List.eq_nil_of_length_eq_zero (Nat.le_zero.mp (round.short x own late early))
  have away : ∀ a, Anc t.parent p a → x ∉ s.1.vbranchList a := by
    intro a up member
    rw [← first, expandSibling_apart t v b] at member
    · exact absurd (made a x (mem_mine.mpr ⟨member, own⟩)) (Nat.not_lt.mpr late)
    · intro sibling
      exact wf.acyclic.not_anc_of_strict (strictAnc_iff_parent.mpr
        ⟨p, wf.mirrors.mem_iff.mp sibling, anc_refl _ p⟩) up
  have spared := expandToLoop_spares wf _ early away climb
  rw [← run.1, ← run.2]
  refine ⟨ends, x, ?_⟩
  exact expandChildren_arrives wf ((attaches_expandToLoop _ climb).found found) late base
    (spared.trans bare)

end Climb

end Treedb
