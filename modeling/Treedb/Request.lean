import Treedb.Call

/-!
# Requests (`map_proc`)

A request is a JSON text. The text is parsed by a library; the model starts from the value that it
answers, or from nothing where the text is not JSON. A field that is missing or of the wrong type
ends the request, an id that is not sixteen hexadecimal digits is read as 0.

Two things come from outside. The arrays of ids and of names are allocated without being cleared,
and an element that is no string leaves its entry as it was found. A search is answered by SQLite.
Both are given with the request.
-/

namespace Treedb

/-- A parsed JSON value. Object members are listed in the order of the text. -/
inductive Json
  | null
  | boolean (value : Bool)
  | integer (value : ℤ)
  | real
  | string (value : CString)
  | array (elements : List Json)
  | object (members : List (CString × Json))

/-- What a request meets outside of the program. -/
structure Outside where
  /-- The contents of uninitialised memory, read as ids and as names. -/
  junkIds : ℕ → UInt64 := fun _ => 0
  junkNames : ℕ → CString := fun _ => []
  /-- The ids of the rows that match the query of the request. -/
  rows : List UInt64 := []

/-! ## Fields (`helpers.c`) -/

/-- Of members with the same name the last one counts. -/
def jsonObjectGet (parent : Json) (name : CString) : Option Json :=
  match parent with
  | .object members => (members.reverse.find? fun member => member.1 = name).map Prod.snd
  | _ => none

/-- An id is the integer 0 or a string, read by `decode`. -/
def jsonGetId {α : Type} [Zero α] (decode : CString → α) (parent : Json) (name : CString) :
    Option α :=
  match jsonObjectGet parent name with
  | some (.integer n) => if n = 0 then some 0 else none
  | some (.string s) => some (decode s)
  | _ => none

/-- `json_get_id32`. -/
def jsonGetId32 (parent : Json) (name : CString) : Option UInt32 :=
  jsonGetId hex2id32 parent name

/-- `json_get_id64`. -/
def jsonGetId64 (parent : Json) (name : CString) : Option UInt64 :=
  jsonGetId hex2id64 parent name

/-- The entries of an array, at most 10000; no array counts as an empty one. -/
def jsonGetList {α : Type} (decode : CString → α) (junk : ℕ → α) (parent : Json)
    (name : CString) : List α :=
  match jsonObjectGet parent name with
  | some (.array elements) =>
      (elements.take (min (elements.length % 2 ^ 32) 10000)).mapIdx fun i element =>
        match element with
        | .string s => decode s
        | _ => junk i
  | _ => []

/-- `json_get_id64s`. -/
def jsonGetId64s (out : Outside) (parent : Json) (name : CString) : List UInt64 :=
  jsonGetList hex2id64 out.junkIds parent name

/-- `json_get_strs`. -/
def jsonGetStrs (out : Outside) (parent : Json) (name : CString) : List CString :=
  jsonGetList (fun s => s) out.junkNames parent name

/-- `json_get_str`. -/
def jsonGetStr (parent : Json) (name : CString) : Option CString :=
  match jsonObjectGet parent name with
  | some (.string s) => some s
  | _ => none

/-- `json_get_int16`: an integer is cut to 16 bits. -/
def jsonGetInt16 (parent : Json) (name : CString) : Option UInt16 :=
  match jsonObjectGet parent name with
  | some (.integer n) => some (UInt16.ofInt n)
  | _ => none

/-! ## Dispatch -/

/-- The field `cloneViewId` is read as well, but the views do not use it. -/
def readInitView (out : Outside) (viewId : UInt32) (data : Json) : Option Call := do
  let query ← jsonGetStr data (cstr "query")
  let reqId ← jsonGetId64 data (cstr "reqId")
  let docId ← jsonGetId64 data (cstr "docId")
  let endpointIds := jsonGetId64s out data (cstr "endpoints")
  let branchId := (jsonGetId64 data (cstr "branchId")).getD 0
  return .initView viewId reqId branchId query docId endpointIds out.rows

/-- The fields of a `mapInsertInPath`. -/
def readInsertInPath (out : Outside) (data : Json) : Option Call := do
  let parentBranchId ← jsonGetId64 data (cstr "parentBranchId")
  let names := jsonGetStrs out data (cstr "names")
  let branchId ← jsonGetId64 data (cstr "branchId")
  let branchText ← jsonGetStr data (cstr "branchText")
  let branchDocumentId ← jsonGetId64 data (cstr "branchDocumentId")
  return .insertInPath parentBranchId names branchId branchText 1 branchDocumentId

/-- The fields of a `mapMoveToPath`. -/
def readMoveToPath (out : Outside) (data : Json) : Option Call := do
  let parentBranchId ← jsonGetId64 data (cstr "parentBranchId")
  let names := jsonGetStrs out data (cstr "names")
  let branchId ← jsonGetId64 data (cstr "branchId")
  return .moveToPath parentBranchId names branchId

/-- The field of a `mapDelete`. -/
def readDelete (viewId : UInt32) (data : Json) : Option Call := do
  let branchId ← jsonGetId64 data (cstr "branchId")
  return .delete viewId branchId

/-- The fields of a `mapInsert`. -/
def readInsert (viewId : UInt32) (data : Json) : Option Call := do
  let parentBranchId ← jsonGetId64 data (cstr "parentBranchId")
  let branchId ← jsonGetId64 data (cstr "branchId")
  let branchPos ← jsonGetInt16 data (cstr "branchPos")
  let branchText ← jsonGetStr data (cstr "branchText")
  let branchDocumentId ← jsonGetId64 data (cstr "branchDocumentId")
  return .insert viewId parentBranchId branchId branchPos.toUInt32 branchText 1 branchDocumentId

/-- The fields of a `mapUpdate`. -/
def readUpdate (viewId : UInt32) (data : Json) : Option Call := do
  let branchId ← jsonGetId64 data (cstr "branchId")
  let branchText := jsonGetStr data (cstr "branchText")
  let branchDocumentId := (jsonGetId64 data (cstr "branchDocumentId")).getD 0
  return .update viewId branchId branchText branchDocumentId

/-- The field of a `mapBranchUnfold`. -/
def readBranchUnfold (viewId : UInt32) (data : Json) : Option Call := do
  let branchId ← jsonGetId64 data (cstr "branchId")
  return .branchUnfold viewId branchId

/-- The field of a `mapExpandTo`. -/
def readExpandTo (viewId : UInt32) (data : Json) : Option Call := do
  let branchId ← jsonGetId64 data (cstr "branchId")
  return .expandTo viewId branchId

/-- The fields of a `mapMove`. -/
def readMove (viewId : UInt32) (data : Json) : Option Call := do
  let newParentId ← jsonGetId64 data (cstr "newParentId")
  let oldParentId ← jsonGetId64 data (cstr "oldParentId")
  let branchId ← jsonGetId64 data (cstr "branchId")
  let branchPos ← jsonGetInt16 data (cstr "branchPos")
  return .move viewId newParentId oldParentId branchId branchPos

/-- The requests that are taken from a known view only. -/
def readOnView (out : Outside) (viewId : UInt32) (name : CString) (data : Json) : Option Call :=
  if name = cstr "mapVisible" then
    some (.visible viewId (jsonGetId64s out data (cstr "branchIds")))
  else if name = cstr "mapInvisible" then
    some (.invisible viewId (jsonGetId64s out data (cstr "branchIds")))
  else if name = cstr "mapDestroyView" then some (.destroyView viewId)
  else if name = cstr "mapBranchUnfold" then readBranchUnfold viewId data
  else if name = cstr "mapExpandTo" then readExpandTo viewId data
  else if name = cstr "mapMove" then readMove viewId data
  else none

/-- The dispatch of `map_proc` on the name of the request. -/
def readNamed (out : Outside) (m : Map) (viewId : UInt32) (name : CString) (data : Json) :
    Option Call :=
  if name = cstr "mapInitView" then readInitView out viewId data
  else if name = cstr "mapInsertInPath" then readInsertInPath out data
  else if name = cstr "mapMoveToPath" then readMoveToPath out data
  else if name = cstr "mapDelete" then readDelete viewId data
  else if name = cstr "mapInsert" then readInsert viewId data
  else if name = cstr "mapUpdate" then readUpdate viewId data
  else if (viewIndexGet m.overlay viewId).isSome then readOnView out viewId name data
  else none

/-- The call that a request asks for; a malformed request asks for none. -/
def readRequest (out : Outside) (m : Map) (root : Json) : Option Call := do
  let viewId ← jsonGetId32 root (cstr "viewId")
  let name ← jsonGetStr root (cstr "name")
  match jsonObjectGet root (cstr "data") with
  | some (.object members) => readNamed out m viewId name (.object members)
  | _ => none

/-- Carry out what the request asks for. -/
def perform (m : Map) : Option Call → Except Fault Map
  | none => .ok m
  | some call => m.call call

/-- A request that is JSON is acknowledged, whatever becomes of it. -/
def mapProc (m : Map) (request : Outside × Option Json) : Except Fault Map :=
  match request with
  | (_, none) => .ok m
  | (out, some root) => do
      let m ← perform m (readRequest out m root)
      return { m with overlay := m.overlay.push .ack }

/-- A sequence of requests, up to the first fault. -/
def mapProcAll (m : Map) (requests : List (Outside × Option Json)) : Except Fault Map :=
  requests.foldlM mapProc m

end Treedb
