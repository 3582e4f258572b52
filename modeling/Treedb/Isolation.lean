import Treedb.Channel

/-!
# Isolation of maps

A message is to reach the map that it names, and a map is to be made in the directory of its id. A
name that is not eight hexadecimal digits is read as the id 0, while the directory is made from the
name as it stands. So both hold exactly for names that are such digits, up to one harmless case.
-/

namespace Treedb

/-- Eight hexadecimal digits. -/
def IsHexId (s : CString) : Prop :=
  s.length = 8 ∧ ∀ c ∈ s, (hexDigit c).isSome

instance (s : CString) : Decidable (IsHexId s) :=
  inferInstanceAs (Decidable (_ ∧ _))

/-- The number that a string of hexadecimal digits denotes. -/
def hexNumber (s : CString) : ℕ :=
  s.foldl (fun n c => n * 16 + (hexDigit c).getD 0) 0

namespace Incoming

/-- The string by which the message names its map. -/
def mapId (msg : Incoming) : Option CString :=
  msg.json.bind fun root => jsonGetStr root (cstr "mapId")

/-- The message is looked up under the id `k`. -/
def routedTo (k : UInt32) (msg : Incoming) : Bool :=
  msg.mapId.any fun s => hex2id32 s = k

/-- Both messages name one map by its id. -/
def SameMap (x y : Incoming) : Prop :=
  ∃ s s', x.mapId = some s ∧ y.mapId = some s' ∧ IsHexId s ∧ IsHexId s' ∧ hexNumber s = hexNumber s'

end Incoming

open Incoming

/-- What the messages between `app` and `app'` reached and made belongs to the ids they name. -/
structure App.Isolates (app app' : App) : Prop where
  queues : ∀ map, (app'.maps map).inQ.Pairwise SameMap
  directories : ∀ map, app.next ≤ map → map < app'.next →
    ∃ s, IsHexId s ∧ (app'.maps map).path = app.path ++ s
  copies : ∀ c ∈ app'.copies, ∃ s, IsHexId s ∧ c.2 = app.path ++ s

/-! ## Names of maps -/

section Names

variable {s : CString}

theorem hexLoop_of_digits (s : CString) (id : ℕ) (even : s.length % 2 = 0)
    (digits : ∀ c ∈ s, (hexDigit c).isSome) :
    hexLoop s id = some (s.foldl (fun n c => n * 16 + (hexDigit c).getD 0) id) := by
  induction s, id using hexLoop.induct with
  | case1 id => rfl
  | case2 c id => simp at even
  | case3 a b rest id ih =>
      rcases Option.isSome_iff_exists.mp (digits a (by simp)) with ⟨high, readHigh⟩
      rcases Option.isSome_iff_exists.mp (digits b (by simp)) with ⟨low, readLow⟩
      have even' : rest.length % 2 = 0 := by
        simp only [List.length_cons] at even
        omega
      have value := ih high low even' fun c member => digits c (by simp [member])
      simp only [hexLoop, readHigh, readLow, Option.bind_eq_bind, Option.bind_some, List.foldl_cons,
        Option.getD_some]
      rw [value]
      apply congrArg some
      apply congrArg (rest.foldl _)
      omega

theorem hexLoop_of_not_digit (s : CString) (id : ℕ) {c : UInt8} (member : c ∈ s)
    (other : hexDigit c = none) : hexLoop s id = none := by
  induction s, id using hexLoop.induct with
  | case1 id => simp at member
  | case2 d id => rfl
  | case3 a b rest id ih =>
      simp only [List.mem_cons] at member
      cases readHigh : hexDigit a with
      | none => simp [hexLoop, readHigh]
      | some high =>
          cases readLow : hexDigit b with
          | none => simp [hexLoop, readHigh, readLow]
          | some low =>
              have inside : c ∈ rest := by
                rcases member with rfl | rfl | inside
                · simp [other] at readHigh
                · simp [other] at readLow
                · exact inside
              simp [hexLoop, readHigh, readLow, ih high low inside]

theorem hexNumber_lt (hexId : IsHexId s) : hexNumber s < 2 ^ 32 := by
  have digit : ∀ c, (hexDigit c).getD 0 < 16 := by
    intro c
    have small := c.toNat_lt
    unfold hexDigit
    split
    · rename_i range
      have upper := UInt8.le_iff_toNat_le.mp range.2
      simp at upper ⊢
      omega
    · split
      · rename_i range
        have upper := UInt8.le_iff_toNat_le.mp range.2
        simp at upper ⊢
        omega
      · split
        · rename_i range
          have upper := UInt8.le_iff_toNat_le.mp range.2
          simp at upper ⊢
          omega
        · simp
  have bound : ∀ (s : CString) (n k : ℕ), n < 16 ^ k →
      s.foldl (fun n c => n * 16 + (hexDigit c).getD 0) n < 16 ^ (k + s.length) := by
    intro s
    induction s with
    | nil => exact fun n k small => small
    | cons c s ih =>
        intro n k small
        have next : n * 16 + (hexDigit c).getD 0 < 16 ^ (k + 1) := by
          have := digit c
          rw [pow_succ]
          omega
        have rest := ih _ _ next
        rw [List.foldl_cons, List.length_cons, ← Nat.add_assoc, Nat.add_right_comm]
        exact rest
  have whole := bound s 0 0 (by simp)
  rw [hexId.1] at whole
  exact whole

theorem hex2id32_of_hexId (hexId : IsHexId s) : (hex2id32 s).toNat = hexNumber s := by
  have value := hexLoop_of_digits s 0 (by rw [hexId.1]) hexId.2
  simp only [hex2id32, hexValue, hexId.1, ne_eq, not_true, if_false, value, Option.getD_some]
  rw [UInt32.toNat_ofNat']
  exact Nat.mod_eq_of_lt (hexNumber_lt hexId)

theorem hex2id32_of_not_hexId (malformed : ¬IsHexId s) : hex2id32 s = 0 := by
  unfold hex2id32 hexValue
  split
  · rfl
  · rename_i length
    have other : ∃ c ∈ s, hexDigit c = none := by
      by_contra all
      simp only [not_exists, not_and] at all
      exact malformed ⟨by simpa using length, fun c member =>
        Option.isSome_iff_ne_none.mpr (all c member)⟩
    rcases other with ⟨c, member, other⟩
    rw [hexLoop_of_not_digit s 0 member other]
    rfl

end Names

/-! ## Routing -/

section Routing

variable {app app₀ : App} {msgs : List Incoming} {k : UInt32} {map : ℕ}

/-- Every map is indexed under its own id, and no message has arrived yet. -/
structure App.Started (app : App) : Prop where
  index : ∀ {k map}, app.mapIndex k = some map → (app.maps map).id = k ∧ map < app.next
  quiet : ∀ map, (app.maps map).inQ = []
  copies : app.copies = []

theorem mapLoad_index (app : App) (hexid : CString) (k : UInt32) :
    (mapLoad app hexid).1.mapIndex k = if k = hex2id32 hexid then some app.next else app.mapIndex k := by
  simp [mapLoad, mapIndexPut, Function.update_apply]

theorem appLoadMaps_started (path : CString) (names : List CString) :
    (appLoadMaps (appCreate path) names).Started ∧
      (appLoadMaps (appCreate path) names).path = path := by
  have loaded : ∀ (names : List CString) (app : App), app.Started ∧ app.path = path →
      (names.foldl (fun app name => (mapLoad app name).1) app).Started ∧
        (names.foldl (fun app name => (mapLoad app name).1) app).path = path := by
    intro names
    induction names with
    | nil => exact fun app before => before
    | cons name names ih =>
        rintro app ⟨started, same⟩
        apply ih
        refine ⟨⟨?_, ?_, started.copies⟩, same⟩
        · intro k map stored
          rw [mapLoad_index] at stored
          split at stored
          · rename_i here
            rw [← Option.some.inj stored]
            simp [mapLoad, mapIndexPut, here]
          · rcases started.index stored with ⟨named, made⟩
            refine ⟨?_, Nat.lt_succ_of_lt made⟩
            simp only [mapLoad, mapIndexPut, Function.update_of_ne (Nat.ne_of_lt made)]
            exact named
        · intro map
          simp only [mapLoad, mapIndexPut, Function.update_apply]
          split
          · rfl
          · exact started.quiet map
  apply loaded
  exact ⟨⟨by simp [appCreate], fun _ => rfl, rfl⟩, rfl⟩

/-- Where the messages went, from `app₀` on. -/
structure Routed (app₀ : App) (msgs : List Incoming) (app : App) : Prop where
  path : app.path = app₀.path
  next_le : app₀.next ≤ app.next
  index : ∀ {k map}, app.mapIndex k = some map → (app.maps map).id = k ∧ map < app.next
  missing : ∀ {k}, app.mapIndex k = none →
    app₀.mapIndex k = none ∧ msgs.filter (routedTo k) = []
  old : ∀ {k map}, app₀.mapIndex k = some map → app.mapIndex k = some map ∧ map < app₀.next
  fresh : ∀ {k map}, app₀.mapIndex k = none → app.mapIndex k = some map → app₀.next ≤ map
  queue : ∀ map, (app.maps map).inQ =
    if app.mapIndex (app.maps map).id = some map then msgs.filter (routedTo (app.maps map).id) else []
  created : ∀ {map}, app₀.next ≤ map → map < app.next →
    ∃ msg rest s, (app.maps map).inQ = msg :: rest ∧ msg.mapId = some s ∧
      (app.maps map).path = app₀.path ++ s
  copies : ∀ c ∈ app.copies, ∃ map, app₀.next ≤ map ∧ map < app.next ∧ c.2 = (app.maps map).path

theorem App.Started.routed (started : app₀.Started) : Routed app₀ [] app₀ where
  path := rfl
  next_le := le_refl _
  index := started.index
  missing := fun absent => ⟨absent, rfl⟩
  old := fun stored => ⟨stored, (started.index stored).2⟩
  fresh := fun absent stored => by simp [absent] at stored
  queue := by
    intro map
    rw [started.quiet map]
    split <;> rfl
  created := fun from' below => absurd below (Nat.not_lt.mpr from')
  copies := by simp [started.copies]

theorem onMessage_of_mapId {msg : Incoming} {s : CString} (named : msg.mapId = some s) :
    onMessage app msg = queuePushRight (mapFor app s).1 (mapFor app s).2 msg := by
  rcases Option.bind_eq_some_iff.mp named with ⟨root, parsed, read⟩
  simp only [onMessage, parsed, read]

theorem onMessage_of_no_mapId {msg : Incoming} (unnamed : msg.mapId = none) :
    onMessage app msg = app := by
  unfold onMessage
  cases parsed : msg.json with
  | none => rfl
  | some root =>
      simp only [Incoming.mapId, parsed, Option.bind_some] at unnamed
      simp only [unnamed]

theorem filter_routedTo_append {msg : Incoming} {s : CString} (named : msg.mapId = some s) :
    (msgs ++ [msg]).filter (routedTo k) =
      if k = hex2id32 s then msgs.filter (routedTo k) ++ [msg] else msgs.filter (routedTo k) := by
  rw [List.filter_append]
  by_cases here : k = hex2id32 s
  · simp [here, routedTo, named]
  · simp [here, routedTo, named, Ne.symm here]

/-- A message to a known map. -/
theorem Routed.known {msg : Incoming} {s : CString} (routed : Routed app₀ msgs app)
    (named : msg.mapId = some s) (stored : app.mapIndex (hex2id32 s) = some map) :
    Routed app₀ (msgs ++ [msg]) (queuePushRight app map msg) := by
  rcases routed.index stored with ⟨sameId, made⟩
  have fields : ∀ x, ((queuePushRight app map msg).maps x).id = (app.maps x).id ∧
      ((queuePushRight app map msg).maps x).path = (app.maps x).path ∧
      ((queuePushRight app map msg).maps x).inQ =
        if x = map then (app.maps x).inQ ++ [msg] else (app.maps x).inQ := by
    intro x
    simp only [queuePushRight, Function.update_apply]
    split
    · rename_i here
      rw [here]
      exact ⟨rfl, rfl, rfl⟩
    · exact ⟨rfl, rfl, rfl⟩
  refine ⟨routed.path, routed.next_le, ?_, ?_, routed.old, routed.fresh, ?_, ?_, ?_⟩
  · intro k x stored'
    rw [(fields x).1]
    exact routed.index stored'
  · intro k absent
    rcases routed.missing absent with ⟨before, none'⟩
    refine ⟨before, ?_⟩
    rw [filter_routedTo_append named, if_neg, none']
    rintro rfl
    rw [show app.mapIndex _ = none from absent] at stored
    simp at stored
  · intro x
    rw [(fields x).1, (fields x).2.2, filter_routedTo_append named, routed.queue x]
    change _ = if app.mapIndex (app.maps x).id = some x then _ else _
    by_cases here : x = map
    · subst here
      rw [sameId, if_pos rfl, if_pos stored, if_pos stored, if_pos rfl]
    · rw [if_neg here]
      split
      · rename_i indexed
        rw [if_neg]
        intro same
        rw [same, stored] at indexed
        exact here (Option.some.inj indexed).symm
      · rfl
  · intro x from' below
    rcases routed.created from' below with ⟨first, rest, s', queued, named', place⟩
    rw [(fields x).2.1, (fields x).2.2, queued]
    split
    · exact ⟨first, rest ++ [msg], s', rfl, named', place⟩
    · exact ⟨first, rest, s', rfl, named', place⟩
  · intro c member
    rcases routed.copies c member with ⟨x, from', below, place⟩
    exact ⟨x, from', below, place.trans (fields x).2.1.symm⟩

/-- A message to a map that is made for it. -/
theorem Routed.made {msg : Incoming} {s : CString} (routed : Routed app₀ msgs app)
    (named : msg.mapId = some s) (absent : app.mapIndex (hex2id32 s) = none) :
    Routed app₀ (msgs ++ [msg])
      (queuePushRight (mapCreateClone app s (cstr "1cc0d587")).1 app.next msg) := by
  rcases routed.missing absent with ⟨before, none'⟩
  generalize result :
    queuePushRight (mapCreateClone app s (cstr "1cc0d587")).1 app.next msg = app'
  have maps : ∀ x, app'.maps x = if x = app.next then
      { id := hex2id32 s, path := app.path ++ s, inQ := [msg] } else app.maps x := by
    intro x
    rw [← result]
    simp only [queuePushRight, mapCreateClone, mapLoad, mapCopy, mapIndexPut, appGetMapPath,
      Function.update_apply]
    split
    · simp
    · rfl
  have index : ∀ k, app'.mapIndex k = if k = hex2id32 s then some app.next else app.mapIndex k := by
    intro k
    rw [← result]
    exact mapLoad_index (mapCopy app (cstr "1cc0d587") s) s k
  have next : app'.next = app.next + 1 := by
    rw [← result]
    rfl
  have old : ∀ {x}, x < app.next → app'.maps x = app.maps x :=
    fun below => by rw [maps, if_neg (Nat.ne_of_lt below)]
  refine ⟨?_, ?_, ?_, ?_, ?_, ?_, ?_, ?_, ?_⟩
  · rw [← result]
    exact routed.path
  · rw [next]
    exact Nat.le_succ_of_le routed.next_le
  · intro k x stored
    rw [index] at stored
    rw [next]
    split at stored
    · rename_i here
      rw [← Option.some.inj stored, maps, if_pos rfl]
      exact ⟨here.symm, Nat.lt_succ_self _⟩
    · rcases routed.index stored with ⟨sameId, below⟩
      rw [old below]
      exact ⟨sameId, Nat.lt_succ_of_lt below⟩
  · intro k stillAbsent
    rw [index] at stillAbsent
    split at stillAbsent
    · simp at stillAbsent
    · rename_i other
      rw [filter_routedTo_append named, if_neg other]
      exact routed.missing stillAbsent
  · intro k x stored
    rcases routed.old stored with ⟨still, below⟩
    refine ⟨?_, below⟩
    rw [index, if_neg, still]
    rintro rfl
    simp [absent] at still
  · intro k x absent₀ stored
    rw [index] at stored
    split at stored
    · rw [← Option.some.inj stored]
      exact routed.next_le
    · exact routed.fresh absent₀ stored
  · intro x
    by_cases here : x = app.next
    · subst here
      rw [maps, if_pos rfl]
      simp only [index, if_true, filter_routedTo_append named, none', List.nil_append]
    · rw [maps, if_neg here, index, filter_routedTo_append named, routed.queue x]
      by_cases same : (app.maps x).id = hex2id32 s
      · rw [same, if_pos rfl, if_pos rfl, absent, if_neg (by simp), if_neg]
        intro stored
        exact here (Option.some.inj stored).symm
      · rw [if_neg same, if_neg same]
  · intro x from' below
    rw [next] at below
    rcases Nat.lt_succ_iff_lt_or_eq.mp below with below | rfl
    · rw [old below]
      exact routed.created from' below
    · rw [maps, if_pos rfl, routed.path]
      exact ⟨msg, [], s, rfl, named, rfl⟩
  · intro c member
    rw [← result] at member
    simp only [queuePushRight, mapCreateClone, mapLoad, mapCopy, mapIndexPut, appGetMapPath,
      List.mem_append, List.mem_singleton] at member
    rcases member with earlier | rfl
    · rcases routed.copies c earlier with ⟨x, from', below, place⟩
      refine ⟨x, from', by rw [next]; exact Nat.lt_succ_of_lt below, ?_⟩
      rw [old below]
      exact place
    · refine ⟨app.next, routed.next_le, by rw [next]; exact Nat.lt_succ_self _, ?_⟩
      rw [maps, if_pos rfl]

theorem Routed.step (routed : Routed app₀ msgs app) (msg : Incoming) :
    Routed app₀ (msgs ++ [msg]) (onMessage app msg) := by
  cases named : msg.mapId with
  | none =>
      have unrouted : ∀ k, (msgs ++ [msg]).filter (routedTo k) = msgs.filter (routedTo k) := by
        intro k
        simp [List.filter_append, routedTo, named]
      rw [onMessage_of_no_mapId named]
      refine { routed with missing := ?_, queue := ?_ }
      · intro k absent
        rw [unrouted]
        exact routed.missing absent
      · intro map
        rw [unrouted]
        exact routed.queue map
  | some s =>
      rw [onMessage_of_mapId named, mapFor, mapIndexGet]
      cases stored : app.mapIndex (hex2id32 s) with
      | none => exact routed.made named stored
      | some map => exact routed.known named stored

theorem App.Started.routed_all (started : app₀.Started) (msgs : List Incoming) :
    Routed app₀ msgs (msgs.foldl onMessage app₀) := by
  induction msgs using List.reverseRecOn with
  | nil => exact started.routed
  | append_singleton msgs msg ih =>
      rw [List.foldl_append]
      exact ih.step msg

/--
Every message names its map by eight hexadecimal digits. One that does not is only harmless if it is
the only one for the map with the id 0, and this map is there from the start.
-/
def App.WellNamed (app : App) (msgs : List Incoming) : Prop :=
  ∀ msg ∈ msgs, ∀ s ∈ msg.mapId,
    IsHexId s ∨ app.mapIndex 0 ≠ none ∧ (msgs.filter (routedTo 0)).length = 1

theorem routedTo_iff {msg : Incoming} {s : CString} (named : msg.mapId = some s) :
    routedTo k msg = true ↔ hex2id32 s = k := by
  simp [routedTo, named]

/-- The messages of one queue name one map, unless they meet at the id 0. -/
theorem sameMap_of_routedTo {x y : Incoming} {s s' : CString} (namedX : x.mapId = some s)
    (namedY : y.mapId = some s') (hexX : IsHexId s) (hexY : IsHexId s')
    (routedX : routedTo k x = true) (routedY : routedTo k y = true) : SameMap x y := by
  refine ⟨s, s', namedX, namedY, hexX, hexY, ?_⟩
  rw [← hex2id32_of_hexId hexX, ← hex2id32_of_hexId hexY, (routedTo_iff namedX).mp routedX,
    (routedTo_iff namedY).mp routedY]

theorem exists_mapId_of_routedTo {msg : Incoming} (routed : routedTo k msg = true) :
    ∃ s, msg.mapId = some s := by
  rcases named : msg.mapId with _ | s
  · simp [routedTo, named] at routed
  · exact ⟨s, rfl⟩

theorem Routed.isolates (routed : Routed app₀ msgs app) (named : app₀.WellNamed msgs) :
    app₀.Isolates app := by
  -- The id of a map that was made was not there from the start, so its message is well named.
  have directories : ∀ map, app₀.next ≤ map → map < app.next →
      ∃ s, IsHexId s ∧ (app.maps map).path = app₀.path ++ s := by
    intro map from' below
    rcases routed.created from' below with ⟨msg, rest, s, queued, names, place⟩
    refine ⟨s, ?_, place⟩
    have queue := routed.queue map
    rw [queued] at queue
    split at queue
    · rename_i indexed
      have member : msg ∈ msgs.filter (routedTo (app.maps map).id) := by simp [← queue]
      rw [List.mem_filter] at member
      rcases named msg member.1 s names with hexId | ⟨there, _⟩
      · exact hexId
      · by_contra malformed
        have zero := (routedTo_iff names).mp member.2
        rw [hex2id32_of_not_hexId malformed] at zero
        rcases Option.ne_none_iff_exists'.mp there with ⟨map₀, stored⟩
        rcases routed.old stored with ⟨still, below₀⟩
        rw [← zero, still, Option.some.injEq] at indexed
        omega
    · simp at queue
  refine ⟨?_, directories, ?_⟩
  · intro map
    rw [routed.queue map]
    split
    · -- Two messages that meet are well named, or they would both have the id 0.
      by_cases single : (msgs.filter (routedTo (app.maps map).id)).length ≤ 1
      · rcases queued : msgs.filter (routedTo (app.maps map).id) with _ | ⟨x, _ | ⟨y, rest⟩⟩
        · exact List.Pairwise.nil
        · exact List.pairwise_singleton _ x
        · simp [queued] at single
      · have hexIds : ∀ msg ∈ msgs.filter (routedTo (app.maps map).id), ∃ s, msg.mapId = some s ∧
            IsHexId s := by
          intro msg member
          rw [List.mem_filter] at member
          rcases exists_mapId_of_routedTo member.2 with ⟨s, names⟩
          refine ⟨s, names, ?_⟩
          by_contra malformed
          have zero := (routedTo_iff names).mp member.2
          rw [hex2id32_of_not_hexId malformed] at zero
          rcases named msg member.1 s names with hexId | ⟨_, one⟩
          · exact malformed hexId
          · rw [← zero, one] at single
            exact single (le_refl 1)
        apply List.pairwise_of_forall_mem_list
        intro x memberX y memberY
        rcases hexIds x memberX with ⟨s, namesX, hexX⟩
        rcases hexIds y memberY with ⟨s', namesY, hexY⟩
        exact sameMap_of_routedTo namesX namesY hexX hexY (List.mem_filter.mp memberX).2
          (List.mem_filter.mp memberY).2
    · exact List.Pairwise.nil
  · intro c member
    rcases routed.copies c member with ⟨map, from', below, place⟩
    rcases directories map from' below with ⟨s, hexId, path⟩
    exact ⟨s, hexId, place.trans path⟩

/-- A malformed name that shares the id 0 with another message is seen in their queue. -/
theorem Routed.wellNamed (routed : Routed app₀ msgs app) (isolates : app₀.Isolates app) :
    app₀.WellNamed msgs := by
  intro msg member s names
  by_contra bad
  rw [not_or] at bad
  rcases bad with ⟨malformed, harmful⟩
  have zero : routedTo 0 msg = true := (routedTo_iff names).mpr (hex2id32_of_not_hexId malformed)
  have inside : msg ∈ msgs.filter (routedTo 0) := List.mem_filter.mpr ⟨member, zero⟩
  cases stored : app.mapIndex 0 with
  | none => simp [(routed.missing stored).2] at inside
  | some map =>
      rcases routed.index stored with ⟨sameId, below⟩
      have queue := routed.queue map
      rw [sameId, if_pos stored] at queue
      have pairs := isolates.queues map
      rw [queue] at pairs
      -- Of two messages in the queue the malformed one is not named by an id.
      have single : (msgs.filter (routedTo 0)).length = 1 := by
        rcases List.append_of_mem inside with ⟨left, right, parts⟩
        rw [parts, List.pairwise_append, List.pairwise_cons] at pairs
        have noRight : right = [] := by
          apply List.eq_nil_iff_forall_not_mem.mpr
          intro y memberY
          rcases pairs.2.1.1 y memberY with ⟨s₁, _, names₁, _, hexId, _⟩
          rw [names, Option.some.injEq] at names₁
          exact malformed (names₁ ▸ hexId)
        have noLeft : left = [] := by
          apply List.eq_nil_iff_forall_not_mem.mpr
          intro x memberX
          rcases pairs.2.2 x memberX msg List.mem_cons_self with ⟨_, s₁, _, names₁, _, hexId, _⟩
          rw [names, Option.some.injEq] at names₁
          exact malformed (names₁ ▸ hexId)
        simp [parts, noLeft, noRight]
      apply harmful
      refine ⟨?_, single⟩
      intro absent
      -- The map was made for the message itself.
      have from' := routed.fresh absent stored
      rcases routed.created from' below with ⟨first, rest, s₁, queued, names₁, place⟩
      rcases isolates.directories map from' below with ⟨s₂, hexId, place'⟩
      rw [place, List.append_cancel_left_eq] at place'
      rw [queue] at queued
      rw [queued, List.length_cons, Nat.add_eq_right, List.length_eq_zero_iff] at single
      rw [queued, single, List.mem_singleton] at inside
      rw [← inside, names, Option.some.injEq] at names₁
      rw [names₁, place'] at malformed
      exact malformed hexId

end Routing

/--
The messages after the start are isolated exactly if each of them names its map by eight hexadecimal
digits, up to a single message for a loaded map with the id 0.
-/
theorem onMessage_isolates_iff (path : CString) (names : List CString) (msgs : List Incoming) :
    (appLoadMaps (appCreate path) names).Isolates
        (msgs.foldl onMessage (appLoadMaps (appCreate path) names)) ↔
      (appLoadMaps (appCreate path) names).WellNamed msgs := by
  have routed := (appLoadMaps_started path names).1.routed_all msgs
  exact ⟨routed.wellNamed, routed.isolates⟩

/--
Beside the template, a message with a malformed name makes a map outside of the directory of maps.
-/
theorem malformed_mapId_is_routed :
    ¬∀ (path : CString) (names : List CString) (msgs : List Incoming),
      (appLoadMaps (appCreate path) names).Isolates
        (msgs.foldl onMessage (appLoadMaps (appCreate path) names)) := by
  intro claim
  have named : Incoming.mapId ⟨[], some (.object [(cstr "mapId", .string (cstr "../etc"))])⟩ =
      some (cstr "../etc") := by
    rfl
  have wellNamed := (appLoadMaps_started (cstr "../maps/") [cstr "1cc0d587"]).1.routed_all
    [⟨[], some (.object [(cstr "mapId", .string (cstr "../etc"))])⟩] |>.wellNamed (claim _ _ _)
  rcases wellNamed _ List.mem_cons_self _ named with hexId | ⟨there, _⟩
  · exact absurd hexId (by decide)
  · exact there rfl

end Treedb
