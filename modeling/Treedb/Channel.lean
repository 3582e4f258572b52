import Treedb.Request

/-!
# The channel (`app.c`, `channel.c`)

Messages for all maps arrive on one channel. Each names its map by a string, from which two things
are derived: the id under which the map is looked up, and the directory in which a map that is not
found is made.

Of a map only what decides where messages go is kept here. Its files and its tree are left out: a map
whose files cannot be loaded ends the process, and with it the sequence of messages. The queue of a
map keeps the messages that its thread has taken out.
-/

namespace Treedb

/-- A message of the channel: its text, and the value that the JSON library answers for it. -/
structure Incoming where
  text : CString
  json : Option Json

/-- `map_t` as the channel sees it. -/
structure Hosted where
  id : UInt32 := 0
  path : CString := []
  inQ : List Incoming := []

instance : Inhabited Hosted :=
  ⟨{}⟩

/-- `app_t`. Maps are never freed; those below `next` were made. -/
structure App where
  path : CString
  maps : ℕ → Hosted
  next : ℕ
  mapIndex : UInt32 → Option ℕ
  /-- The directories between which `map_copy` copied, the source first. -/
  copies : List (CString × CString)

/-- `map_index_put`. -/
def mapIndexPut (app : App) (map : ℕ) : App :=
  { app with mapIndex := Function.update app.mapIndex (app.maps map).id (some map) }

/-- `map_index_get`. -/
def mapIndexGet (app : App) (id : UInt32) : Option ℕ :=
  app.mapIndex id

/-- `app_get_map_path`. -/
def appGetMapPath (app : App) (hexid : CString) : CString :=
  app.path ++ hexid

/-- `map_load`: the map in the directory of this name. -/
def mapLoad (app : App) (hexid : CString) : App × ℕ :=
  let map := app.next
  let app :=
    { app with
      maps := Function.update app.maps map { id := hex2id32 hexid, path := appGetMapPath app hexid }
      next := app.next + 1 }
  (mapIndexPut app map, map)

/-- `map_copy`. -/
def mapCopy (app : App) (hexidFrom hexidTo : CString) : App :=
  { app with
    copies := app.copies ++ [(appGetMapPath app hexidFrom, appGetMapPath app hexidTo)] }

/-- `map_create_clone`: a copy of the template under a new name. -/
def mapCreateClone (app : App) (hexid hexidFrom : CString) : App × ℕ :=
  mapLoad (mapCopy app hexidFrom hexid) hexid

/-- `app_create`. -/
def appCreate (path : CString) : App where
  path := path
  maps := fun _ => {}
  next := 0
  mapIndex := fun _ => none
  copies := []

/-- The directories among `names` that have a name of eight bytes are loaded. -/
def appLoadMaps (app : App) (names : List CString) : App :=
  (names.filter fun name => name.length = 8).foldl (fun app name => (mapLoad app name).1) app

/-- `queue_push_right(map->in_q, ..)`. -/
def queuePushRight (app : App) (map : ℕ) (msg : Incoming) : App :=
  { app with
    maps := Function.update app.maps map
      { app.maps map with inQ := (app.maps map).inQ ++ [msg] } }

/-- The map with this id, made from the template if it is not there. -/
def mapFor (app : App) (mapHexid : CString) : App × ℕ :=
  match mapIndexGet app (hex2id32 mapHexid) with
  | some map => (app, map)
  | none => mapCreateClone app mapHexid (cstr "1cc0d587")

/-- `onMessage`. What is no JSON or names no map is dropped. -/
def onMessage (app : App) (msg : Incoming) : App :=
  match msg.json with
  | none => app
  | some root =>
      match jsonGetStr root (cstr "mapId") with
      | none => app
      | some mapHexid =>
          let s := mapFor app mapHexid
          queuePushRight s.1 s.2 msg

end Treedb
