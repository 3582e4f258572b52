import Treedb.Structure

/-!
# Importing a document (`read_map`)

`read_map` follows a list of XML nodes and hangs a branch below its parent for each node with the
name `node`, then does the same with the children of that node. The document is given as the nodes
and attributes that libxml2 links together. A CDATA section has no name there, and its null name is
compared like any other. The type of a node is not looked at: a processing instruction or a reference
to an entity with the name `node` gets a branch like an element.

The text of a branch is set again by each attribute that the inner loop meets: to the first 250
characters of a `TEXT`, to nothing by any other. So it is the last attribute before the loop stops
that counts.
-/

namespace Treedb

open Forest Outcome Treedb.Tree

/-- An `xmlAttr`. Without children it has no value, else the value is their text. -/
structure XmlAttr where
  name : Option CString
  children : Option CString

/--
`xmlElementType`, as far as nodes of a document have it. A reference has the entity as its child, which
is no `xmlNode`: its properties are what is read at their place.
-/
inductive XmlElementType
  | element
  | text
  | cdataSection
  | entityRef
  | entity
  | pi
  | comment
  deriving DecidableEq

/-- A pointer to an `xmlNode`: null, or a node with its first child and the next one of its list. -/
inductive XmlNode
  | null
  | node (type : XmlElementType) (name : Option CString) (properties : List XmlAttr)
      (children next : XmlNode)

/-- What `read_map` changes: the tree, the counter of `branch_new`, and which texts are not null. -/
structure Import where
  tree : Tree
  bId : UInt64
  hasText : BranchPtr → Bool

namespace Import

/-- `data->text`. -/
def text (s : Import) (b : BranchPtr) : Option CString :=
  if s.hasText b then some (s.tree.mem b).text else none

/-- `branch_set_text`. -/
def setText (s : Import) (b : BranchPtr) (text : CString) : Import :=
  { s with
    tree := s.tree.modify b fun x => { x with text := text }
    hasText := Function.update s.hasText b true }

end Import

/-- `branch_new`. -/
def branchNew (s : Import) : Import × BranchPtr :=
  let t := s.tree.next
  ({ tree :=
      { s.tree with mem := Function.update s.tree.mem t { id := s.bId }, next := s.tree.next + 1 }
     bId := s.bId + 1
     hasText := Function.update s.hasText t false }, t)

/-- The inner loop: it stops at the first attribute without a name or without children. -/
def readProperties (s : Import) (b : BranchPtr) : List XmlAttr → Import
  | [] => s
  | attr :: rest =>
      match attr.name, attr.children with
      | some name, some value =>
          let text := if name = cstr "TEXT" then utf8slice value 250 else []
          readProperties (s.setText b text) b rest
      | _, _ => s

/-- One round of the outer loop for a node with the name `node`, up to its children. -/
def readNode (s : Import) (properties : List XmlAttr) (parent : BranchPtr) :
    Except Fault (Import × BranchPtr) := do
  let (s, b) := branchNew s
  let t := s.tree.modify b fun x => { x with findex := s.tree.branchN }
  let t := { t with branchN := s.tree.branchN + 1 }
  let t ← branchAdd t b parent (-1)
  let t := branchIndexPut t b
  return (readProperties { s with tree := t } b properties, b)

/-- `read_map`. -/
def readMap (s : Import) : XmlNode → BranchPtr → Except Fault Import
  | .null, _ => .ok s
  | .node _ none _ _ _, _ => .error .nullDeref
  | .node _ (some name) properties children next, parent =>
      if name = cstr "node" then do
        let (s, b) ← readNode s properties parent
        let s ← readMap s children b
        readMap s next parent
      else readMap s next parent

/-! ## What an import is for -/

/-- The attribute is a `TEXT`. -/
def XmlAttr.IsText (attr : XmlAttr) : Prop :=
  attr.name = some (cstr "TEXT")

/-- The value of an attribute, the empty one included. -/
def XmlAttr.value (attr : XmlAttr) : CString :=
  attr.children.getD []

/-- The inner loop goes past the attr. -/
def XmlAttr.Passed (attr : XmlAttr) : Prop :=
  attr.name.isSome ∧ attr.children.isSome

instance (attr : XmlAttr) : Decidable attr.IsText :=
  inferInstanceAs (Decidable (_ = _))

instance (attr : XmlAttr) : Decidable attr.Passed :=
  inferInstanceAs (Decidable (_ ∧ _))

/-- The text is made of the first 250 characters of the `TEXT`, if there is one. -/
def KeepsText (properties : List XmlAttr) (text : Option CString) : Prop :=
  ∀ attr ∈ properties, attr.IsText → text = some (utf8slice attr.value 250)

namespace XmlNode

/-- How many nodes of the list have the name `node` and one of the types. -/
def nodeN (kinds : XmlElementType → Prop) [DecidablePred kinds] : XmlNode → ℕ
  | .null => 0
  | .node type name _ _ next =>
      (if name = some (cstr "node") ∧ kinds type then 1 else 0) + next.nodeN kinds

/-- How many elements of the list have the name `node`. -/
def elementN (nodes : XmlNode) : ℕ :=
  nodes.nodeN (· = .element)

/-- No node that is looked at has a null name. -/
def Named : XmlNode → Prop
  | .null => True
  | .node _ name _ children next =>
      name ≠ none ∧ (name = some (cstr "node") → children.Named) ∧ next.Named

/-- A property of all nodes with the name `node`, at any depth below others. -/
def AllNodes (P : XmlElementType → List XmlAttr → XmlNode → Prop) : XmlNode → Prop
  | .null => True
  | .node type name properties children next =>
      (name = some (cstr "node") → P type properties children ∧ children.AllNodes P) ∧
        next.AllNodes P

/-- The branches are those of the nodes `node` of the types, in order and at every depth. -/
def Outlined (kinds : XmlElementType → Prop) [DecidablePred kinds]
    (right : List XmlAttr → Option CString → Prop) (s : Import) : XmlNode → List BranchPtr → Prop
  | .null, bs => bs = []
  | .node type name properties children next, bs =>
      if name = some (cstr "node") ∧ kinds type then
        ∃ b rest, bs = b :: rest ∧ right properties (s.text b) ∧
          children.Outlined kinds right s (s.tree.children b) ∧ next.Outlined kinds right s rest
      else next.Outlined kinds right s bs

end XmlNode

/-- New branches for the document stand after the old children, and nothing else has changed. -/
structure Imported (s s' : Import) (parent : BranchPtr) (bs : List BranchPtr) : Prop where
  shape : s'.tree.Shape
  next_le : s.tree.next ≤ s'.tree.next
  listed : s'.tree.children parent = s.tree.children parent ++ bs
  fresh : ∀ b ∈ bs, s.tree.next ≤ b
  below : ∀ b, s.tree.next ≤ b → ∀ c ∈ s'.tree.children b, s.tree.next ≤ c
  others : ∀ b < s.tree.next, b ≠ parent → s'.tree.children b = s.tree.children b
  texts : ∀ b < s.tree.next, s'.text b = s.text b

/--
`read_map` returns, with a branch for each element below the parent, nested as in the document and
with the text of its `TEXT`.
-/
def ImportsDocument (s : Import) (nodes : XmlNode) (parent : BranchPtr) : Prop :=
  ∃ s' bs, readMap s nodes parent = .ok s' ∧ Imported s s' parent bs ∧
    nodes.Outlined (· = .element) KeepsText s' bs

/--
The last attribute that the loop passes is the `TEXT`, or one with the same beginning; an empty
`TEXT` may also come after any other that is passed.
-/
def TextLast (properties : List XmlAttr) : Prop :=
  ∀ attr ∈ properties, attr.IsText →
    ∃ last ∈ (properties.takeWhile fun a => a.Passed).getLast?,
      if last.IsText then utf8slice last.value 250 = utf8slice attr.value 250
      else attr.value = []

/-! ## What can be evaluated -/

namespace XmlNode

instance decidableNamed : (nodes : XmlNode) → Decidable nodes.Named
  | .null => .isTrue trivial
  | .node _ name _ children next =>
      have := decidableNamed children
      have := decidableNamed next
      inferInstanceAs (Decidable (name ≠ none ∧ (name = some (cstr "node") → _) ∧ _))

instance decidableAllNodes (P : XmlElementType → List XmlAttr → XmlNode → Prop)
    [∀ type ps c, Decidable (P type ps c)] : (nodes : XmlNode) → Decidable (nodes.AllNodes P)
  | .null => .isTrue trivial
  | .node _ name _ children next =>
      have := decidableAllNodes P children
      have := decidableAllNodes P next
      inferInstanceAs (Decidable ((name = some (cstr "node") → _ ∧ _) ∧ _))

end XmlNode

instance (properties : List XmlAttr) : Decidable (TextLast properties) :=
  inferInstanceAs (Decidable (∀ attr ∈ properties, attr.IsText →
    ∃ last ∈ (properties.takeWhile fun a => a.Passed).getLast?,
      if last.IsText then utf8slice last.value 250 = utf8slice attr.value 250
      else attr.value = []))

/-! ## One node -/

section Node

variable {s s' : Import} {b p x : BranchPtr} {properties : List XmlAttr}

/-- What the attribute sets the text to. -/
def XmlAttr.assigned (attr : XmlAttr) : CString :=
  if attr.IsText then utf8slice attr.value 250 else []

/-- The text that the loop leaves in a new branch. -/
def readText (properties : List XmlAttr) : Option CString :=
  ((properties.takeWhile fun a => a.Passed).getLast?).map XmlAttr.assigned

theorem setText_text (s : Import) (b x : BranchPtr) (text : CString) :
    (s.setText b text).text x = if x = b then some text else s.text x := by
  unfold Import.text Import.setText
  by_cases same : x = b
  · simp [same]
  · simp [same]

theorem readProperties_text (s : Import) (b : BranchPtr) (properties : List XmlAttr)
    (x : BranchPtr) :
    (readProperties s b properties).text x =
      if x = b then (readText properties).or (s.text b) else s.text x := by
  induction properties generalizing s with
  | nil =>
      by_cases same : x = b
      · rw [if_pos same, same]
        rfl
      · rw [if_neg same]
        rfl
  | cons attr rest ih =>
      rcases attr with ⟨_ | name, value⟩
      · by_cases same : x = b
        · rw [if_pos same, same]
          rfl
        · rw [if_neg same]
          rfl
      · rcases value with _ | value
        · by_cases same : x = b
          · rw [if_pos same, same]
            rfl
          · rw [if_neg same]
            rfl
        · have first : (XmlAttr.mk (some name) (some value)).assigned =
              if name = cstr "TEXT" then utf8slice value 250 else [] := by
            simp [XmlAttr.assigned, XmlAttr.IsText, XmlAttr.value]
          have read : readText (⟨some name, some value⟩ :: rest) =
              some ((readText rest).getD (XmlAttr.mk (some name) (some value)).assigned) := by
            unfold readText
            rw [List.takeWhile_cons_of_pos (by rfl), List.getLast?_cons, Option.map_some]
            cases (rest.takeWhile fun a => a.Passed).getLast? <;> rfl
          rw [readProperties, ih, setText_text, setText_text, if_pos rfl, read, ← first]
          by_cases same : x = b
          · rw [if_pos same, if_pos same]
            cases readText rest <;> rfl
          · rw [if_neg same, if_neg same, if_neg same]

theorem setText_links (s : Import) (b : BranchPtr) (text : CString) :
    SameLinks s.tree (s.setText b text).tree := by
  refine ⟨rfl, fun x => ?_⟩
  unfold Import.setText Tree.parent Tree.children
  rw [modify_mem]
  refine ⟨?_, ?_, ?_⟩
  · split <;> rfl
  · split <;> rfl
  · split <;> rfl

theorem readProperties_links (s : Import) (b : BranchPtr) (properties : List XmlAttr) :
    SameLinks s.tree (readProperties s b properties).tree := by
  induction properties generalizing s with
  | nil => exact .refl _
  | cons attr rest ih =>
      rcases attr with ⟨_ | name, value⟩
      · exact .refl _
      · rcases value with _ | value
        · exact .refl _
        · rw [readProperties]
          exact (setText_links s b _).trans (ih _)

/-- The branch that the outer loop allocates for a node. -/
def Import.newBranch (s : Import) : Branch where
  id := s.bId
  findex := s.tree.branchN

theorem branchNew_alloc (s : Import) :
    { (branchNew s).1.tree.modify s.tree.next fun x => { x with findex := s.tree.branchN } with
      branchN := s.tree.branchN + 1 } = s.tree.alloc s.newBranch := by
  unfold branchNew Tree.modify Tree.alloc Import.newBranch
  simp

/-- The branch of a node is the next one, and the last child of its parent. -/
theorem readNode_spec (shape : s.tree.Shape) (allocated : p < s.tree.next)
    (properties : List XmlAttr) :
    (s.tree.children p).length = 65535 ∧ readNode s properties p = .error .childOverflow ∨
    (s.tree.children p).length < 65535 ∧ ∃ s', readNode s properties p = .ok (s', s.tree.next) ∧
      s'.tree.Shape ∧ s'.tree.next = s.tree.next + 1 ∧
      (∀ x, s'.tree.children x =
        if x = p then s.tree.children x ++ [s.tree.next] else s.tree.children x) ∧
      ∀ x, s'.text x = if x = s.tree.next then readText properties else s.text x := by
  have fresh : Fresh s.newBranch := ⟨rfl, rfl, rfl, rfl⟩
  have can := shape.canLink_alloc fresh allocated
  have added := (shape.alloc fresh).branchAdd_eq can (-1)
  rw [shape.alloc_children fresh] at added
  have last : insertPos (-1) (s.tree.children p).length = (s.tree.children p).length :=
    if_pos (.inl (by decide))
  have body : readNode s properties p =
      branchAdd (s.tree.alloc s.newBranch) s.tree.next p (-1) >>= fun t =>
        .ok (readProperties { (branchNew s).1 with tree := branchIndexPut t s.tree.next }
          s.tree.next properties, s.tree.next) := by
    rw [← branchNew_alloc]
    rfl
  by_cases full : (s.tree.children p).length = 65535
  · left
    rw [body, added, if_pos full]
    exact ⟨full, rfl⟩
  · right
    have short := shape.children_length_le p
    have room : (s.tree.children p).length < 65535 := by omega
    rw [if_neg full, last] at added
    have links := readProperties_links { (branchNew s).1 with
      tree := branchIndexPut ((s.tree.alloc s.newBranch).link s.tree.next p
        (s.tree.children p).length) s.tree.next } s.tree.next properties
    refine ⟨room, _, by rw [body, added]; rfl, links.shape ?_, links.1, ?_, ?_⟩
    · have roomy : ((s.tree.alloc s.newBranch).children p).length < 65535 := by
        rw [shape.alloc_children fresh]
        exact room
      have linked := (shape.alloc fresh).link can (i := (s.tree.children p).length) roomy
        (by rw [shape.alloc_children fresh])
      exact ⟨linked.mirrors, linked.childN_eq, linked.acyclic, linked.supported⟩
    · intro x
      refine (links.2 x).2.1.trans ?_
      change (if x = p then ((s.tree.alloc s.newBranch).children x).insertIdx _ _
        else (s.tree.alloc s.newBranch).children x) = _
      rw [shape.alloc_children fresh]
      split
      · next same =>
          rw [same, List.insertIdx_length_self]
      · rfl
    · intro x
      rw [readProperties_text]
      by_cases new : x = s.tree.next
      · rw [if_pos new, if_pos new]
        have blank : Import.text { (branchNew s).1 with
            tree := branchIndexPut ((s.tree.alloc s.newBranch).link s.tree.next p
              (s.tree.children p).length) s.tree.next } s.tree.next = none := by
          simp [Import.text, branchNew]
        rw [blank, Option.or_none]
      · rw [if_neg new, if_neg new]
        simp [Import.text, branchNew, branchIndexPut, Tree.link, Tree.alloc, new]

end Node

/-! ## The whole document -/

section Document

variable {s s' s₁ s₂ : Import} {b p : BranchPtr} {bs bs₁ bs₂ : List BranchPtr}
  {kinds : XmlElementType → Prop} [DecidablePred kinds]
  {right : List XmlAttr → Option CString → Prop} {nodes children next : XmlNode}

/-- An outline only depends on the branches that are listed in it. -/
theorem XmlNode.Outlined.congr {U : BranchPtr → Prop}
    (closed : ∀ b, U b → ∀ c ∈ s.tree.children b, U c)
    (same : ∀ b, U b → s'.text b = s.text b ∧ s'.tree.children b = s.tree.children b)
    (inside : ∀ b ∈ bs, U b) (outlined : nodes.Outlined kinds right s bs) :
    nodes.Outlined kinds right s' bs := by
  induction nodes generalizing bs with
  | null => exact outlined
  | node type name properties children next ihChildren ihNext =>
      unfold XmlNode.Outlined at outlined ⊢
      by_cases element : name = some (cstr "node") ∧ kinds type
      · rw [if_pos element] at outlined ⊢
        obtain ⟨b, rest, listed, text, nested, later⟩ := outlined
        have here := inside b (listed ▸ List.mem_cons_self)
        refine ⟨b, rest, listed, ?_, ?_, ?_⟩
        · rw [(same b here).1]
          exact text
        · rw [(same b here).2]
          exact ihChildren (closed b here) nested
        · exact ihNext (fun c member => inside c (listed ▸ List.mem_cons_of_mem b member)) later
      · rw [if_neg element] at outlined ⊢
        exact ihNext inside outlined

theorem XmlNode.Outlined.length (outlined : nodes.Outlined kinds right s bs) :
    bs.length = nodes.nodeN kinds := by
  induction nodes generalizing bs with
  | null =>
      rw [show bs = [] from outlined]
      rfl
  | node type name properties children next _ ihNext =>
      unfold XmlNode.Outlined at outlined
      unfold XmlNode.nodeN
      by_cases element : name = some (cstr "node") ∧ kinds type
      · rw [if_pos element] at outlined ⊢
        obtain ⟨b, rest, rfl, -, -, later⟩ := outlined
        rw [List.length_cons, ihNext later, Nat.add_comm]
      · rw [if_neg element] at outlined ⊢
        rw [ihNext outlined, Nat.zero_add]

theorem XmlNode.elementN_le (nodes : XmlNode) : nodes.elementN ≤ nodes.nodeN fun _ => True := by
  induction nodes with
  | null => exact le_rfl
  | node type name properties children next _ ihNext =>
      unfold XmlNode.elementN XmlNode.nodeN
      refine Nat.add_le_add ?_ ihNext
      split
      · next element => rw [if_pos ⟨element.1, trivial⟩]
      · exact Nat.zero_le _

theorem XmlNode.AllNodes.elementN_eq (typed : nodes.AllNodes fun type _ _ => type = .element) :
    nodes.elementN = nodes.nodeN fun _ => True := by
  induction nodes with
  | null => rfl
  | node type name properties children next _ ihNext =>
      unfold XmlNode.elementN XmlNode.nodeN
      congr 1
      · by_cases named : name = some (cstr "node")
        · rw [if_pos ⟨named, (typed.1 named).1⟩, if_pos ⟨named, trivial⟩]
        · rw [if_neg fun both => named both.1, if_neg fun both => named both.1]
      · exact ihNext typed.2

/-- A node, then its children, then the rest of the list. -/
theorem Imported.cons (shape : s.tree.Shape) (allocated : p < s.tree.next)
    (grown : s₁.tree.next = s.tree.next + 1)
    (lists : ∀ x, s₁.tree.children x =
      if x = p then s.tree.children x ++ [s.tree.next] else s.tree.children x)
    (texts : ∀ x, x < s.tree.next → s₁.text x = s.text x)
    (nested : Imported s₁ s₂ s.tree.next bs₁) (later : Imported s₂ s' p bs₂) :
    Imported s s' p (s.tree.next :: bs₂) ∧ s₂.tree.children s.tree.next = bs₁ ∧
      (∀ b, s.tree.next ≤ b → b < s₂.tree.next →
        s'.text b = s₂.text b ∧ s'.tree.children b = s₂.tree.children b) ∧
      (∀ b, s.tree.next ≤ b → ∀ c ∈ s₂.tree.children b, s.tree.next ≤ c ∧ c < s₂.tree.next) := by
  have le₁ := nested.next_le
  have le₂ := later.next_le
  have ne : p ≠ s.tree.next := allocated.ne
  have leaf : s₁.tree.children s.tree.next = [] := by
    rw [lists, if_neg ne.symm, shape.next_children]
  have own : s₂.tree.children s.tree.next = bs₁ := by
    rw [nested.listed, leaf, List.nil_append]
  have inside : ∀ b, s.tree.next ≤ b → ∀ c ∈ s₂.tree.children b,
      s.tree.next ≤ c ∧ c < s₂.tree.next := by
    intro b new c member
    have bounded := (nested.shape.supported c b (nested.shape.mirrors.mem_iff.mp member)).1
    refine ⟨?_, Finset.mem_range.mp bounded⟩
    by_cases same : b = s.tree.next
    · rw [same, own] at member
      have listed := nested.fresh c member
      omega
    · have born : s₁.tree.next ≤ b := by
        rw [grown]
        exact Nat.lt_of_le_of_ne new (Ne.symm same)
      have listed := nested.below b born c member
      omega
  have kept : ∀ b, s.tree.next ≤ b → b < s₂.tree.next →
      s'.text b = s₂.text b ∧ s'.tree.children b = s₂.tree.children b := by
    intro b new old
    exact ⟨later.texts b old, later.others b old (allocated.trans_le new).ne'⟩
  have le₀ : s.tree.next ≤ s₁.tree.next := by omega
  have listed : s₂.tree.children p = s.tree.children p ++ [s.tree.next] := by
    rw [nested.others p (allocated.trans_le le₀) ne, lists, if_pos rfl]
  refine ⟨⟨later.shape, by omega, ?_, ?_, ?_, ?_, ?_⟩, own, kept, inside⟩
  · rw [later.listed, listed, List.append_assoc]
    rfl
  · intro b member
    rcases List.mem_cons.mp member with first | other
    · exact first.ge
    · exact Nat.le_trans (by omega) (later.fresh b other)
  · intro b new c member
    by_cases old : b < s₂.tree.next
    · rw [(kept b new old).2] at member
      exact (inside b new c member).1
    · have newer := later.below b (by omega) c member
      omega
  · intro b old other
    rw [later.others b (by omega) other, nested.others b (by omega) (by omega), lists, if_neg other]
  · intro b old
    rw [later.texts b (by omega), nested.texts b (by omega), texts b old]

theorem Imported.unique (one : Imported s s' p bs₁) (other : Imported s s' p bs₂) : bs₁ = bs₂ := by
  have listed := other.listed
  rw [one.listed] at listed
  exact List.append_cancel_left listed

/-- What a document must be like for `read_map` to come to its end. -/
def XmlNode.Readable (nodes : XmlNode) : Prop :=
  nodes.Named ∧ nodes.AllNodes fun _ _ children => (children.nodeN fun _ => True) ≤ 65535

/-- A run that returns has made a branch for each node `node`, with the text the loop leaves. -/
theorem readMap_spec (shape : s.tree.Shape) (allocated : p < s.tree.next)
    (run : readMap s nodes p = .ok s') :
    ∃ bs, Imported s s' p bs ∧ nodes.Readable ∧
      nodes.Outlined (fun _ => True) (fun properties text => text = readText properties) s' bs := by
  induction nodes generalizing s s' p with
  | null =>
      rw [← Except.ok.inj run]
      refine ⟨[], ⟨shape, le_rfl, (List.append_nil _).symm, ?_, ?_, fun _ _ _ => rfl,
        fun _ _ => rfl⟩, ⟨trivial, trivial⟩, rfl⟩
      · intro b member
        cases member
      · intro b new c member
        have supported := (shape.supported c b (shape.mirrors.mem_iff.mp member)).2
        exact absurd (Finset.mem_range.mp supported) (Nat.not_lt.mpr new)
  | node type name properties children next ihChildren ihNext =>
      rcases name with _ | name
      · cases run
      · unfold XmlNode.Readable XmlNode.Named XmlNode.AllNodes XmlNode.Outlined
        unfold readMap at run
        by_cases element : name = cstr "node"
        · rw [if_pos element] at run
          have named : some name = some (cstr "node") := congrArg some element
          rcases readNode_spec shape allocated properties with ⟨_, stopped⟩ | ⟨_, s₁, read, spec⟩
          · rw [stopped] at run
            cases run
          · rw [read, ok_bind] at run
            obtain ⟨shape₁, grown, lists, texts⟩ := spec
            obtain ⟨s₂, inner, outer⟩ := bind_eq_ok.mp run
            obtain ⟨bs₁, nested, readable₁, outlined₁⟩ :=
              ihChildren shape₁ (grown ▸ Nat.lt_succ_self _) inner
            have le₁ := nested.next_le
            have le₂ : s.tree.next ≤ s₂.tree.next := by omega
            obtain ⟨bs₂, later, readable₂, outlined₂⟩ :=
              ihNext nested.shape (allocated.trans_le le₂) outer
            obtain ⟨imported, own, kept, inside⟩ := Imported.cons shape allocated grown lists
              (fun x old => by rw [texts, if_neg old.ne]) nested later
            have few : (children.nodeN fun _ => True) ≤ 65535 := by
              rw [← outlined₁.length, ← own]
              exact nested.shape.children_length_le _
            have born : s.tree.next < s₂.tree.next := by omega
            refine ⟨_, imported, ?_, ?_⟩
            · exact ⟨⟨by simp, fun _ => readable₁.1, readable₂.1⟩,
                fun _ => ⟨few, readable₁.2⟩, readable₂.2⟩
            · rw [if_pos ⟨named, trivial⟩]
              refine ⟨s.tree.next, bs₂, rfl, ?_, ?_, outlined₂⟩
              · rw [(kept _ le_rfl born).1, nested.texts _ (by omega), texts, if_pos rfl]
              · rw [(kept _ le_rfl born).2, own]
                refine outlined₁.congr (U := fun b => s.tree.next ≤ b ∧ b < s₂.tree.next) ?_ ?_ ?_
                · exact fun b new => inside b new.1
                · exact fun b new => kept b new.1 new.2
                · exact fun b member => inside s.tree.next le_rfl b (own ▸ member)
        · rw [if_neg element] at run
          have other : some name ≠ some (cstr "node") := fun same => element (Option.some.inj same)
          obtain ⟨bs, imported, readable, outlined⟩ := ihNext shape allocated run
          refine ⟨bs, imported, ?_, ?_⟩
          · exact ⟨⟨by simp, fun same => absurd same other, readable.1⟩,
              fun same => absurd same other, readable.2⟩
          · rw [if_neg fun both => other both.1]
            exact outlined

/-- With room for the nodes `node` at every depth, and a name on every node, the run returns. -/
theorem readMap_total (shape : s.tree.Shape) (allocated : p < s.tree.next)
    (room : (s.tree.children p).length + (nodes.nodeN fun _ => True) ≤ 65535)
    (readable : nodes.Readable) :
    ∃ s', readMap s nodes p = .ok s' := by
  induction nodes generalizing s p with
  | null => exact ⟨s, rfl⟩
  | node type name properties children next ihChildren ihNext =>
      obtain ⟨⟨present, namedC, namedN⟩, fewC, fewN⟩ := readable
      rcases name with _ | name
      · exact absurd rfl present
      · rw [XmlNode.nodeN] at room
        unfold readMap
        by_cases element : name = cstr "node"
        · have named : some name = some (cstr "node") := congrArg some element
          rw [if_pos ⟨named, trivial⟩] at room
          rw [if_pos element]
          rcases readNode_spec shape allocated properties with ⟨full, _⟩ | ⟨_, s₁, read, spec⟩
          · omega
          · obtain ⟨shape₁, grown, lists, texts⟩ := spec
            have le₁ : s.tree.next ≤ s₁.tree.next := by omega
            have born : s.tree.next < s₁.tree.next := by omega
            have leaf : s₁.tree.children s.tree.next = [] := by
              rw [lists, if_neg allocated.ne', shape.next_children]
            obtain ⟨few, nested⟩ := fewC named
            obtain ⟨s₂, inner⟩ := ihChildren shape₁ born
              (by rw [leaf, List.length_nil, Nat.zero_add]; exact few) ⟨namedC named, nested⟩
            obtain ⟨bs, imported, -⟩ := readMap_spec shape₁ born inner
            have old : p < s₁.tree.next := allocated.trans_le le₁
            have listed : s₂.tree.children p = s.tree.children p ++ [s.tree.next] := by
              rw [imported.others p old allocated.ne, lists, if_pos rfl]
            rw [read, ok_bind]
            dsimp only
            rw [inner, ok_bind]
            refine ihNext imported.shape (old.trans_le imported.next_le) ?_ ⟨namedN, fewN⟩
            rw [listed, List.length_append, List.length_singleton]
            omega
        · have other : some name ≠ some (cstr "node") :=
            fun same => element (Option.some.inj same)
          rw [if_neg fun both => other both.1, Nat.zero_add] at room
          rw [if_neg element]
          exact ihNext shape allocated room ⟨namedN, fewN⟩

theorem XmlNode.AllNodes.imp {P Q : XmlElementType → List XmlAttr → XmlNode → Prop}
    (implies : ∀ type properties (children : XmlNode), children.AllNodes P →
      P type properties children → Q type properties children) (all : nodes.AllNodes P) :
    nodes.AllNodes Q := by
  induction nodes with
  | null => trivial
  | node type name properties children next ihChildren ihNext =>
      refine ⟨fun named => ?_, ihNext all.2⟩
      rcases all.1 named with ⟨here, nested⟩
      exact ⟨implies type properties children nested here, ihChildren nested⟩

theorem XmlNode.AllNodes.and {P Q : XmlElementType → List XmlAttr → XmlNode → Prop}
    (one : nodes.AllNodes P) (other : nodes.AllNodes Q) :
    nodes.AllNodes fun type properties children =>
      P type properties children ∧ Q type properties children := by
  induction nodes with
  | null => trivial
  | node type name properties children next ihChildren ihNext =>
      refine ⟨fun named => ?_, ihNext one.2 other.2⟩
      rcases one.1 named with ⟨hereP, nestedP⟩
      rcases other.1 named with ⟨hereQ, nestedQ⟩
      exact ⟨⟨hereP, hereQ⟩, ihChildren nestedP nestedQ⟩

/--
Where every node `node` has a branch with the text that the loop leaves, the elements alone have
theirs with the right text if there are no other nodes `node` and the loop leaves the right texts.
-/
theorem XmlNode.Outlined.right_iff (outlined : nodes.Outlined (fun _ => True)
      (fun properties text => text = readText properties) s bs) :
    nodes.Outlined (· = .element) right s bs ↔
      nodes.AllNodes fun type properties _ =>
        type = .element ∧ right properties (readText properties) := by
  induction nodes generalizing bs with
  | null => exact iff_of_true outlined trivial
  | node type name properties children next ihChildren ihNext =>
      unfold XmlNode.Outlined at outlined ⊢
      unfold XmlNode.AllNodes
      by_cases named : name = some (cstr "node")
      · rw [if_pos ⟨named, trivial⟩] at outlined
        obtain ⟨b, rest, rfl, text, nested, later⟩ := outlined
        by_cases element : type = .element
        · rw [if_pos ⟨named, element⟩, ← ihChildren nested, ← ihNext later]
          constructor
          · rintro ⟨b', rest', listed, good, nested', later'⟩
            cases listed
            exact ⟨fun _ => ⟨⟨element, text ▸ good⟩, nested'⟩, later'⟩
          · rintro ⟨here, later'⟩
            exact ⟨b, rest, rfl, text ▸ (here named).1.2, (here named).2, later'⟩
        · -- The node has a branch, so there is one too many for the elements behind it.
          rw [if_neg fun both => element both.2]
          constructor
          · intro skipped
            have few := skipped.length.trans_le next.elementN_le
            rw [← later.length, List.length_cons] at few
            exact absurd few (Nat.not_succ_le_self _)
          · exact fun all => absurd (all.1 named).1.1 element
      · rw [if_neg fun both => named both.1] at outlined ⊢
        rw [← ihNext outlined]
        exact (and_iff_right fun same => absurd same named).symm

theorem utf8slice_eq_nil_iff {value : CString} : utf8slice value 250 = [] ↔ value = [] := by
  constructor
  · intro empty
    rcases value with _ | ⟨c, value⟩
    · rfl
    · have kept : utf8Length 250 (c :: value) 0 ≠ 0 := by
        unfold utf8Length
        split
        · exact Nat.succ_ne_zero _
        · exact Nat.succ_ne_zero _
      rw [utf8slice, List.take_eq_nil_iff] at empty
      rcases empty with none | none
      · omega
      · cases none
  · rintro rfl
    rfl

/-- The loop leaves the right text exactly where the `TEXT` comes last. -/
theorem keepsText_readText_iff (properties : List XmlAttr) :
    KeepsText properties (readText properties) ↔ TextLast properties := by
  have left : ∀ (last : XmlAttr) (text : CString), last.assigned = text ↔
      if last.IsText then utf8slice last.value 250 = text else [] = text := by
    intro last text
    unfold XmlAttr.assigned
    split <;> rfl
  unfold KeepsText TextLast
  refine forall_congr' fun attr => forall_congr' fun _ => forall_congr' fun _ => ?_
  unfold readText
  rw [Option.map_eq_some_iff]
  refine exists_congr fun last => and_congr_right fun _ => ?_
  rw [left]
  split
  · rfl
  · rw [eq_comm, utf8slice_eq_nil_iff]

end Document

/--
Under a parent with room, the document is imported with its tree and its texts exactly when no node
is without a name, every node `node` is an element, none has more than 65535 elements below it, and
in every one the `TEXT` is what the loop passes last.
-/
theorem readMap_imports_iff (s : Import) (nodes : XmlNode) (parent : BranchPtr)
    (shape : s.tree.Shape) (allocated : parent < s.tree.next)
    (room : (s.tree.children parent).length + nodes.elementN ≤ 65535) :
    ImportsDocument s nodes parent ↔
      nodes.Named ∧ nodes.AllNodes fun type properties children =>
        type = .element ∧ TextLast properties ∧ children.elementN ≤ 65535 := by
  constructor
  · rintro ⟨s', bs, run, imported, outlined⟩
    obtain ⟨bs', imported', readable, outlined'⟩ := readMap_spec shape allocated run
    cases imported.unique imported'
    refine ⟨readable.1, ((outlined'.right_iff.mp outlined).and readable.2).imp ?_⟩
    rintro type properties children - ⟨⟨element, kept⟩, few⟩
    exact ⟨element, (keepsText_readText_iff properties).mp kept, children.elementN_le.trans few⟩
  · rintro ⟨named, all⟩
    have elements : nodes.AllNodes fun type _ _ => type = .element :=
      all.imp fun _ _ _ _ here => here.1
    have few : nodes.AllNodes fun _ _ children => (children.nodeN fun _ => True) ≤ 65535 := by
      refine all.imp fun type properties children nested here => ?_
      have below : children.AllNodes fun type _ _ => type = .element :=
        nested.imp fun _ _ _ _ here => here.1
      exact below.elementN_eq ▸ here.2.2
    obtain ⟨s', run⟩ := readMap_total shape allocated (elements.elementN_eq ▸ room) ⟨named, few⟩
    obtain ⟨bs, imported, -, outlined⟩ := readMap_spec shape allocated run
    refine ⟨s', bs, run, imported, outlined.right_iff.mpr (all.imp ?_)⟩
    exact fun type properties _ _ here =>
      ⟨here.1, (keepsText_readText_iff properties).mpr here.2.1⟩

/-- An import into a map that holds only its root. -/
def createdImport : Import where
  tree := (mapCreateEmpty 1).tree
  bId := 1000
  hasText := fun b => b = 0

/-- An attribute before the `TEXT` and an element below another. -/
theorem readMap_imports_example :
    ImportsDocument createdImport
      (.node .element (some (cstr "node"))
        [⟨some (cstr "COLOR"), some (cstr "red")⟩, ⟨some (cstr "TEXT"), some (cstr "a")⟩]
        (.node .element (some (cstr "node")) [⟨some (cstr "TEXT"), some (cstr "b")⟩] .null .null)
        .null) 0 := by
  apply (readMap_imports_iff createdImport _ 0 (mapCreateEmpty_holdsOnlyRoot 1).wellFormed.toShape
    Nat.one_pos (by decide)).mpr
  decide

/-- `<node TEXT="a" COLOR="red"/>` -/
def coloredNode : XmlNode :=
  .node .element (some (cstr "node"))
    [⟨some (cstr "TEXT"), some (cstr "a")⟩, ⟨some (cstr "COLOR"), some (cstr "red")⟩] .null .null

/-- The attribute after the `TEXT` leaves the branch with an empty text. -/
theorem readMap_losesText :
    (readMap createdImport coloredNode 0).map (fun s => s.text 1) = .ok (some []) ∧
    ¬ ImportsDocument createdImport coloredNode 0 := by
  refine ⟨by decide +kernel, ?_⟩
  rintro ⟨s', bs, run, imported, outlined⟩
  obtain ⟨bs', imported', -, outlined'⟩ :=
    readMap_spec (mapCreateEmpty_holdsOnlyRoot 1).wellFormed.toShape Nat.one_pos run
  cases imported.unique imported'
  have kept := (outlined'.right_iff.mp outlined).1 rfl
  exact absurd ((keepsText_readText_iff _).mp kept.1.2) (by decide)

end Treedb
