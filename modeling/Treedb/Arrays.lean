import Treedb.Request

/-!
# Arrays of requests (`json_get_id64s`, `json_get_strs`)

The two readers of arrays allocate an entry for each element, up to 10000, and then assign those
whose element is a string. The others keep what the memory held before, and are handed on with the
rest.
-/

namespace Treedb

/-- The element is a string. -/
def Json.IsString : Json → Prop
  | .string _ => True
  | _ => False

instance (json : Json) : Decidable json.IsString :=
  match json with
  | .string _ => .isTrue trivial
  | .null | .boolean _ | .integer _ | .real | .array _ | .object _ => .isFalse id

/-- The number of entries that a reader allocates: the size in 32 bits, cut to 10000. -/
def entriesN (elements : List Json) : ℕ :=
  min (elements.length % 2 ^ 32) 10000

/-- One round of the loop of a reader: only a string is assigned. -/
def assignEntry {α : Type} (decode : CString → α) (elements : List Json) (entries : List (Option α))
    (i : ℕ) : List (Option α) :=
  match elements[i]? with
  | some (.string s) => entries.set i (some (decode s))
  | _ => entries

/-- The array that a reader hands on, `none` for an entry that it never assigned. -/
def readEntries {α : Type} (decode : CString → α) (parent : Json) (name : CString) :
    List (Option α) :=
  match jsonObjectGet parent name with
  | some (.array elements) =>
      (List.range (entriesN elements)).foldl (assignEntry decode elements)
        (List.replicate (entriesN elements) none)
  | _ => []

/-- What is read from an array whose unassigned entries hold `junk`. -/
def fillEntries {α : Type} (junk : ℕ → α) (entries : List (Option α)) : List α :=
  entries.mapIdx fun i entry => entry.getD (junk i)

/-- The counted elements of the field are strings. -/
def StringsOnly (parent : Json) (name : CString) : Prop :=
  ∀ elements, jsonObjectGet parent name = some (.array elements) →
    ∀ json ∈ elements.take (entriesN elements), json.IsString

/-- Every entry was assigned from the element at its place. -/
def AllAssigned {α : Type} (decode : CString → α) (parent : Json) (name : CString) : Prop :=
  ∀ i, i < (readEntries decode parent name).length → ∃ elements s,
    jsonObjectGet parent name = some (.array elements) ∧ elements[i]? = some (.string s) ∧
      (readEntries decode parent name)[i]? = some (some (decode s))

section Loop

variable {α : Type} {decode : CString → α} {elements : List Json} {parent : Json} {name : CString}

/-- What an element assigns to its entry. -/
def entryOf (decode : CString → α) : Option Json → Option α
  | some (.string s) => some (decode s)
  | _ => none

theorem getElem?_assignEntry (entries : List (Option α)) (k i : ℕ)
    (blank : entries[k]? = some none) :
    (assignEntry decode elements entries k)[i]? =
      if i = k then some (entryOf decode elements[k]?) else entries[i]? := by
  have inside : k < entries.length := (List.getElem?_eq_some_iff.mp blank).1
  unfold assignEntry entryOf
  split
  · by_cases here : i = k
    · rw [here, if_pos rfl, List.getElem?_set_self inside]
    · rw [if_neg here, List.getElem?_set_ne (Ne.symm here)]
  · by_cases here : i = k
    · rw [here, if_pos rfl, blank]
    · rw [if_neg here]

/-- After `k` rounds the first `k` entries are as their elements say. -/
theorem foldl_assignEntry (n k : ℕ) (inside : k ≤ n) (i : ℕ) :
    ((List.range k).foldl (assignEntry decode elements) (List.replicate n none))[i]? =
      if i < k then some (entryOf decode elements[i]?) else if i < n then some none else none := by
  induction k generalizing i with
  | zero =>
      rw [List.range_zero, List.foldl_nil, List.getElem?_replicate, if_neg (Nat.not_lt_zero i)]
  | succ k ih =>
      have blank := ih (by omega) k
      rw [if_neg (Nat.lt_irrefl k), if_pos (by omega)] at blank
      rw [List.range_succ, List.foldl_append, List.foldl_cons, List.foldl_nil,
        getElem?_assignEntry _ _ _ blank, ih (by omega)]
      by_cases here : i = k
      · rw [here, if_pos rfl, if_pos (Nat.lt_succ_self k)]
      · rw [if_neg here]
        by_cases early : i < k
        · rw [if_pos early, if_pos (by omega)]
        · rw [if_neg early, if_neg (show ¬ i < k + 1 by omega)]

theorem entriesN_le (elements : List Json) : entriesN elements ≤ elements.length := by
  have low := Nat.mod_le elements.length (2 ^ 32)
  unfold entriesN
  omega

theorem readEntries_eq (found : jsonObjectGet parent name = some (.array elements)) :
    readEntries decode parent name =
      (elements.take (entriesN elements)).map fun json => entryOf decode (some json) := by
  simp only [readEntries, found]
  apply List.ext_getElem?
  intro i
  have short := entriesN_le elements
  rw [foldl_assignEntry _ _ le_rfl, List.getElem?_map, List.getElem?_take]
  by_cases inside : i < entriesN elements
  · rw [if_pos inside, if_pos inside, List.getElem?_eq_getElem (by omega)]
    rfl
  · rw [if_neg inside, if_neg inside, if_neg inside]
    rfl

theorem readEntries_of_not_array
    (other : ∀ elements, jsonObjectGet parent name ≠ some (.array elements)) :
    readEntries decode parent name = [] := by
  unfold readEntries
  split
  case h_1 elements found => exact absurd found (other elements)
  case h_2 => rfl

theorem length_readEntries (found : jsonObjectGet parent name = some (.array elements)) :
    (readEntries decode parent name).length = entriesN elements := by
  rw [readEntries_eq found, List.length_map, List.length_take, min_eq_left (entriesN_le elements)]

theorem length_readEntries_le : (readEntries decode parent name).length ≤ 10000 := by
  by_cases array : ∃ elements, jsonObjectGet parent name = some (.array elements)
  · obtain ⟨elements, found⟩ := array
    rw [length_readEntries found]
    exact Nat.min_le_right _ _
  · push Not at array
    rw [readEntries_of_not_array array]
    exact Nat.zero_le _

/-- What the requests are given is the array that the loop leaves, junk and all. -/
theorem jsonGetList_eq_fillEntries (junk : ℕ → α) :
    jsonGetList decode junk parent name = fillEntries junk (readEntries decode parent name) := by
  by_cases array : ∃ elements, jsonObjectGet parent name = some (.array elements)
  · obtain ⟨elements, found⟩ := array
    rw [readEntries_eq found, fillEntries]
    simp only [jsonGetList, found]
    apply List.ext_getElem?
    intro i
    rw [List.getElem?_mapIdx, List.getElem?_mapIdx, List.getElem?_map, Option.map_map]
    unfold entriesN
    congr 1
    funext json
    cases json <;> rfl
  · push Not at array
    rw [readEntries_of_not_array array]
    unfold jsonGetList
    split
    case h_1 elements found => exact absurd found (array elements)
    case h_2 => rfl

theorem allAssigned_of_stringsOnly (strings : StringsOnly parent name) :
    AllAssigned decode parent name := by
  intro i inside
  by_cases array : ∃ elements, jsonObjectGet parent name = some (.array elements)
  · obtain ⟨elements, found⟩ := array
    rw [length_readEntries found] at inside
    have short := entriesN_le elements
    have held : elements[i]? = some elements[i] := List.getElem?_eq_getElem (by omega)
    have counted : elements[i] ∈ elements.take (entriesN elements) := by
      apply List.mem_of_getElem? (i := i)
      rw [List.getElem?_take, if_pos inside, held]
    have string := strings elements found elements[i] counted
    generalize elements[i] = json at held string
    cases json with
    | string s =>
        refine ⟨elements, s, found, held, ?_⟩
        rw [readEntries_eq found, List.getElem?_map, List.getElem?_take, if_pos inside, held]
        rfl
    | null | boolean _ | integer _ | real | array _ | object _ => exact string.elim
  · push Not at array
    rw [readEntries_of_not_array array] at inside
    exact absurd inside (Nat.not_lt_zero i)

theorem stringsOnly_of_allAssigned (assigned : AllAssigned decode parent name) :
    StringsOnly parent name := by
  intro elements found json counted
  obtain ⟨i, held⟩ := List.getElem?_of_mem counted
  rw [List.getElem?_take] at held
  by_cases inside : i < entriesN elements
  · rw [if_pos inside] at held
    have small : i < (readEntries decode parent name).length := by
      rw [length_readEntries found]
      exact inside
    obtain ⟨elements', s, found', held', -⟩ := assigned i small
    rw [found] at found'
    cases found'
    rw [held] at held'
    cases held'
    trivial
  · rw [if_neg inside] at held
    cases held

end Loop

/-- The readers assign all that they count exactly when every counted element is a string. -/
theorem requestArrays_assigned_iff (parent : Json) (name : CString) :
    (AllAssigned hex2id64 parent name ↔ StringsOnly parent name) ∧
    (AllAssigned (fun s => s) parent name ↔ StringsOnly parent name) ∧
    (readEntries hex2id64 parent name).length ≤ 10000 ∧
    (readEntries (fun s => s) parent name).length ≤ 10000 ∧
    ∀ out : Outside,
      jsonGetId64s out parent name = fillEntries out.junkIds (readEntries hex2id64 parent name) ∧
      jsonGetStrs out parent name =
        fillEntries out.junkNames (readEntries (fun s => s) parent name) := by
  refine ⟨⟨stringsOnly_of_allAssigned, allAssigned_of_stringsOnly⟩,
    ⟨stringsOnly_of_allAssigned, allAssigned_of_stringsOnly⟩, length_readEntries_le,
    length_readEntries_le, ?_⟩
  intro out
  exact ⟨jsonGetList_eq_fillEntries out.junkIds, jsonGetList_eq_fillEntries out.junkNames⟩

/-- The data `\x7b"branchIds": [7], "names": [7]\x7d` of a request. -/
def numberedArrays : Json :=
  .object [(cstr "branchIds", .array [.integer 7]), (cstr "names", .array [.integer 7])]

/-- A number among the elements is counted and leaves its entry as the memory was. -/
theorem requestArrays_unassigned :
    ¬ AllAssigned hex2id64 numberedArrays (cstr "branchIds") ∧
    ¬ AllAssigned (fun s => s) numberedArrays (cstr "names") ∧
    ∀ out : Outside,
      jsonGetId64s out numberedArrays (cstr "branchIds") = [out.junkIds 0] ∧
      jsonGetStrs out numberedArrays (cstr "names") = [out.junkNames 0] := by
  have ids : jsonObjectGet numberedArrays (cstr "branchIds") = some (.array [.integer 7]) := by
    rfl
  have names : jsonObjectGet numberedArrays (cstr "names") = some (.array [.integer 7]) := by
    rfl
  refine ⟨fun assigned => ?_, fun assigned => ?_, fun out => ⟨?_, ?_⟩⟩
  · exact stringsOnly_of_allAssigned assigned _ ids (.integer 7) (List.mem_singleton_self _)
  · exact stringsOnly_of_allAssigned assigned _ names (.integer 7) (List.mem_singleton_self _)
  · simp only [jsonGetId64s, jsonGetList, ids]
    rfl
  · simp only [jsonGetStrs, jsonGetList, names]
    rfl

end Treedb
