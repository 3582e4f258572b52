import Treedb.Client
import Treedb.View.Expand

/-!
# Printed views

A client learns of a view by the printed tree of its vbranches. What `vbranch_to_json` prints below
a vbranch are the branches that the view shows there, so a client that is sent the whole view holds
what the view shows. The tree that is printed may already be another one than that which the links
of the view follow: in the middle of an operation, a view is ahead of the tree or behind it.
-/

namespace Treedb

open Forest Overlay

/-- Printing only reads the vbranches. -/
theorem vbranchToJson_congr {o o' : Overlay} (vmem : o'.vmem = o.vmem)
    (vnext : o'.vnext = o.vnext) (t : Tree) (x : VbranchPtr) : vbranchToJson t o' x = vbranchToJson t o x := by
  have loop : ∀ depth x, vbranchToJsonLoop t o' depth x = vbranchToJsonLoop t o depth x := by
    intro depth
    induction depth with
    | zero =>
        intro x
        simp only [vbranchToJsonLoop, vmem]
    | succ depth ih =>
        intro x
        simp only [vbranchToJsonLoop, vmem, funext ih]
  rw [vbranchToJson, vbranchToJson, vnext, loop]

/-- If no key has two values, then a value is found exactly if it is listed. -/
theorem lookup_eq_some_iff_mem {α β : Type} [BEq α] [LawfulBEq α] {list : List (α × β)} {k : α}
    {e : β}
    (once : ∀ {k e e'}, (k, e) ∈ list → (k, e') ∈ list → e = e') :
    list.lookup k = some e ↔ (k, e) ∈ list := by
  have found : ∀ {e}, list.lookup k = some e → (k, e) ∈ list := by
    intro e listed
    rcases List.lookup_eq_some_iff.mp listed with ⟨before, after, split, _⟩
    simp [split]
  refine ⟨found, fun member => ?_⟩
  cases listed : list.lookup k with
  | some e' => rw [once (found listed) member]
  | none =>
      have missing := List.lookup_eq_none_iff.mp listed (k, e) member
      simp at missing

section Printed

variable {want : Demands} {t t' : Tree} {o o' : Overlay} {v : ViewPtr} {tops : Set BranchPtr}
  {a b c : BranchPtr} {x y : VbranchPtr}

/-- What is printed of a vbranch below the first. -/
def printed (t : Tree) (o : Overlay) (y : VbranchPtr) : UInt64 × Entry :=
  ((t.mem (o.vmem y).branch).id,
    { parent := (o.vparent y).map fun z => (t.mem (o.vmem z).branch).id
      branchN := (t.mem (o.vmem y).branch).totalBranchN })

theorem entries_vbranchToJsonLoop {parent : BranchPtr → Option BranchPtr}
    {stand : BranchPtr → Option VbranchPtr}
    (shadow : Shadow parent tops stand o.vparent o.vchildren) (present : stand a = some x) (t : Tree)
    (depth : ℕ) (above : Option UInt64) :
    (vbranchToJsonLoop t o depth x).entries above =
      ((t.mem (o.vmem x).branch).id, ⟨above, (t.mem (o.vmem x).branch).totalBranchN⟩) ::
        ((o.vchildren x).flatMap (preorder o.vchildren depth)).map (printed t o) := by
  induction depth generalizing a x above with
  | zero => simp [vbranchToJsonLoop, VbranchJson.entries, VbranchJson.entriesBelow, preorder]
  | succ depth ih =>
      rw [vbranchToJsonLoop]
      simp only [VbranchJson.entries, VbranchJson.entriesBelow_eq, List.flatMap_map,
        List.map_flatMap]
      apply congrArg
      apply List.flatMap_congr
      intro z member
      rcases (shadow.mem_down present).mp member with ⟨c, step, low, there⟩
      rcases shadow.up_eq there low with ⟨p, y, step', above', link⟩
      rw [step, Option.some.injEq] at step'
      rw [← step', present, Option.some.injEq] at above'
      rw [← above'] at link
      rw [ih there, preorder, List.map_cons, printed, link]
      rfl

/-- The branches that can be seen below `a`, when the vbranches of the tops hang nowhere. -/
def Overlay.shownBelow (t : Tree) (o : Overlay) (v : ViewPtr) (tops : Set BranchPtr)
    (a : BranchPtr) : Set BranchPtr :=
  { c | stand t o v c ≠ none ∧ Anc (Shadow.cut t.parent tops) c a }

/-- What `vbranch_to_json` prints below a vbranch, by ids and counters of the tree `t'`. -/
theorem Shows.lookup_vbranchToJson (shows : Shows want t o v tops) (wf : t.WellFormed)
    (present : stand t o v a = some x) (t' : Tree)
    (inj : Set.InjOn (fun c => (t'.mem c).id) (shownBelow t o v tops a)) (above : Option UInt64)
    (k : UInt64) (e : Entry) :
    ((vbranchToJson t' o x).entries above).lookup k = some e ↔
      ∃ c ∈ shownBelow t o v tops a, (t'.mem c).id = k ∧
        e = ⟨if c = a then above else (t.parent c).map fun d => (t'.mem d).id,
          (t'.mem c).totalBranchN⟩ := by
  have few : ((Finset.range o.vnext).image fun cell => (⟨v, cell⟩ : VbranchPtr)).card < o.vnext + 1 :=
    (Finset.card_image_le.trans_eq (Finset.card_range _)).trans_lt (Nat.lt_succ_self _)
  have inside : ∀ b y, stand t o v b = some y →
      y ∈ (Finset.range o.vnext).image fun cell => (⟨v, cell⟩ : VbranchPtr) := by
    intro b y there
    rw [Finset.mem_image]
    refine ⟨y.cell, Finset.mem_range.mpr (shows.cell_lt there), ?_⟩
    rw [← view_of_stand there]
  rcases shows.shadow.preorder_below wf.acyclic present _ inside few with ⟨nodup, met⟩
  rw [preorder, List.nodup_cons] at nodup
  have listed : ∀ {k e}, (k, e) ∈ (vbranchToJson t' o x).entries above ↔
      ∃ c ∈ shownBelow t o v tops a, (t'.mem c).id = k ∧
        e = ⟨if c = a then above else (t.parent c).map fun d => (t'.mem d).id,
          (t'.mem c).totalBranchN⟩ := by
    intro k e
    rw [vbranchToJson, entries_vbranchToJsonLoop shows.shadow present, List.mem_cons, List.mem_map]
    have first := shows.branch_eq present
    have rest : ∀ {c y}, Anc (Shadow.cut t.parent tops) c a → stand t o v c = some y → c ≠ a →
        printed t' o y = ((t'.mem c).id,
          ⟨(t.parent c).map fun d => (t'.mem d).id, (t'.mem c).totalBranchN⟩) := by
      intro c y low there other
      have inner : c ∉ tops := by
        intro top
        have alone : Shadow.cut t.parent tops c = none := if_pos top
        exact other ((anc_iff_of_root alone).mp low).symm
      rcases shows.shadow.up_eq there inner with ⟨p, z, step, above', link⟩
      rw [printed, link, step, shows.branch_eq there]
      simp only [Option.map_some, shows.branch_eq above']
    constructor
    · rintro (same | ⟨y, member, same⟩)
      · rw [Prod.mk.injEq, first] at same
        refine ⟨a, ⟨by simp [present], anc_refl _ a⟩, same.1.symm, ?_⟩
        rw [if_pos rfl]
        exact same.2
      · have inside : y ∈ preorder o.vchildren (o.vnext + 1) x := by
          rw [preorder]
          exact List.mem_cons_of_mem _ member
        rcases (met y).mp inside with ⟨c, low, there⟩
        have other : c ≠ a := by
          rintro rfl
          rw [present, Option.some.injEq] at there
          rw [← there] at member
          exact nodup.1 member
        rw [rest low there other, Prod.mk.injEq] at same
        refine ⟨c, ⟨by simp [there], low⟩, same.1, ?_⟩
        rw [if_neg other]
        exact same.2.symm
    · rintro ⟨c, ⟨shown, low⟩, rfl, rfl⟩
      by_cases here : c = a
      · left
        rw [here, if_pos rfl, first]
      · right
        rcases Option.ne_none_iff_exists'.mp shown with ⟨y, there⟩
        refine ⟨y, ?_, by rw [rest low there here, if_neg here]⟩
        have inside := (met y).mpr ⟨c, low, there⟩
        rw [preorder, List.mem_cons] at inside
        refine inside.resolve_left ?_
        rintro rfl
        exact here (shows.shadow.inj there present)
  rw [lookup_eq_some_iff_mem, listed]
  intro k e e' first second
  rcases listed.mp first with ⟨c, member, rfl, rfl⟩
  rcases listed.mp second with ⟨d, memberD, same, rfl⟩
  rw [inj memberD member same]

/-- What a client holds to which the view was sent just now. -/
noncomputable def Overlay.copy (t : Tree) (o : Overlay) (v : ViewPtr) : Client :=
  Client.handle ⟨fun _ => none⟩
    (.mapInit (o.views v).id 0 (vbranchToJson t o (o.views v).vbranch))

open Client

/-- The ids and counters of a tree, as clients see them. -/
def Tree.idOf (t : Tree) (b : BranchPtr) : UInt64 :=
  (t.mem b).id

/-- The counter of a branch. -/
def Tree.totalOf (t : Tree) (b : BranchPtr) : UInt32 :=
  (t.mem b).totalBranchN

theorem vbranchToJson_id (t : Tree) (o : Overlay) (x : VbranchPtr) :
    (vbranchToJson t o x).id = t.idOf (o.vmem x).branch := by
  unfold vbranchToJson
  cases o.vnext <;> rfl

theorem vbranchToJson_branchN (t : Tree) (o : Overlay) (x : VbranchPtr) :
    (vbranchToJson t o x).branchN = t.totalOf (o.vmem x).branch := by
  unfold vbranchToJson
  cases o.vnext <;> rfl

theorem Shows.holds_copy_of_tops (shows : Shows want t o v tops) (wf : t.WellFormed) (t' : Tree)
    (inj : Set.InjOn t'.idOf (shownBelow t o v tops t.branch)) :
    Holds (copy t' o v) (shownBelow t o v tops t.branch) t'.idOf t.parent t'.totalOf := by
  have start : Holds ⟨fun _ => none⟩ (∅ : Set BranchPtr) t'.idOf t.parent t'.totalOf := by
    intro k e
    simp
  have lists : ∀ k e, ((vbranchToJson t' o (o.views v).vbranch).entries none).lookup k = some e ↔
      ∃ c ∈ shownBelow t o v tops t.branch, t'.idOf c = k ∧
        e = ⟨(t.parent c).map t'.idOf, t'.totalOf c⟩ := by
    intro k e
    rw [shows.lookup_vbranchToJson wf shows.root t' inj]
    apply exists_congr
    intro c
    apply and_congr_right
    intro _
    by_cases here : c = t.branch
    · rw [if_pos here, here, wf.root_parent]
      rfl
    · rw [if_neg here]
      rfl
  have grafted := start.graft lists (by rwa [Set.empty_union])
  rw [Set.empty_union] at grafted
  exact grafted

/-- The branches that a view shows. -/
def Overlay.shown (t : Tree) (o : Overlay) (v : ViewPtr) : Set BranchPtr :=
  { c | stand t o v c ≠ none }

theorem Overlay.mem_shown_of_stand (present : stand t o v c = some x) : c ∈ shown t o v := by
  simp [shown, present]

theorem Shows.framed (shows : Shows want t o v {t.branch}) (wf : t.WellFormed) :
    Framed (shown t o v) t.idOf t.parent where
  inj := by
    intro b memberB c memberC same
    rcases Option.ne_none_iff_exists'.mp memberB with ⟨x, presentB⟩
    rcases Option.ne_none_iff_exists'.mp memberC with ⟨y, presentC⟩
    exact wf.id_injective (stand_eq_some.mp presentB).1 (stand_eq_some.mp presentC).1 same
  closed := by
    intro b p member step
    rcases Option.ne_none_iff_exists'.mp member with ⟨x, present⟩
    exact shows.present_above wf present (anc_of_parent step)

theorem shownBelow_root (wf : t.WellFormed) (a : BranchPtr) :
    shownBelow t o v {t.branch} a = { c | c ∈ shown t o v ∧ Anc t.parent c a } := by
  rw [shownBelow, Shadow.cut_eq]
  · rfl
  · rintro r rfl
    exact wf.root_parent

/-- A client to which the view is sent holds what the view shows. -/
theorem Shows.holds_copy (shows : Shows want t o v {t.branch}) (wf : t.WellFormed) :
    Holds (copy t o v) (shown t o v) t.idOf t.parent t.totalOf := by
  have all : shownBelow t o v {t.branch} t.branch = shown t o v := by
    rw [shownBelow_root wf]
    ext c
    refine ⟨And.left, fun member => ⟨member, ?_⟩⟩
    rcases Option.ne_none_iff_exists'.mp member with ⟨x, present⟩
    exact shows.shadow.anc_top wf.acyclic present
  have held := shows.holds_copy_of_tops wf t (by
    rw [all]
    exact (shows.framed wf).inj)
  rwa [all] at held

end Printed

end Treedb
