import Treedb.Clients
import Treedb.Tombstone

/-!
# Subscribers

What reaches the queue of a map are requests, of which some ask for calls and every one is
acknowledged. A client that has asked for a view gets the view and then the messages for it; the
requests that follow come from the clients of other views. In the end it holds what its view shows.
The queue keeps the messages of one request together, in the order of the requests.
-/

namespace Treedb

open Overlay Outcome Treedb.Tree Client

section Requests

variable {stale : Prop} {m m' : Map} {request : Outside × Option Json} {k : UInt32} {w : ViewPtr}

theorem along_both {σ ι ε : Type} {step : σ → ι → Except ε σ} {P Q : σ → ι → Prop} {s : σ}
    {list : List ι} (first : Outcome.Along step P s list) (second : Outcome.Along step Q s list) :
    Outcome.Along step (fun s i => P s i ∧ Q s i) s list := by
  induction list generalizing s with
  | nil => trivial
  | cons i list ih =>
      exact ⟨⟨first.1, second.1⟩, fun s' taken => ih (first.2 s' taken) (second.2 s' taken)⟩

/-- The call that the request asks for, if it asks for one, satisfies `P`. -/
def Asks (P : Map → Call → Prop) (m : Map) (request : Outside × Option Json) : Prop :=
  ∀ root call, request.2 = some root → readRequest request.1 m root = some call → P m call

instance (P : Map → Call → Prop) [∀ m call, Decidable (P m call)] (m : Map)
    (request : Outside × Option Json) : Decidable (Asks P m request) :=
  decidable_of_iff (∀ call ∈ request.2.bind (readRequest request.1 m), P m call) (by
    simp only [Asks, Option.mem_def, Option.bind_eq_some_iff]
    exact ⟨fun all root call isJson read => all call ⟨root, isJson, read⟩,
      fun all call ⟨root, isJson, read⟩ => all root call isJson read⟩)

/-- The map and its views are as the operations leave them. -/
structure Map.Served (stale : Prop) (m : Map) : Prop where
  wf : m.tree.WellFormed
  oneRoot : m.tree.OneRoot
  sound : Sound (.indexed stale) m.tree m.overlay

theorem Map.Served.call {call : Call} (served : m.Served stale) (spares : call.SparesViews stale m)
    (run : m.call call = .ok m') : m'.Served stale where
  wf := call_wellFormed served.wf run
  oneRoot := served.oneRoot.edits served.wf
    (call_edits False False served.wf False.elim False.elim run)
  sound := served.sound.call served.wf served.oneRoot spares run

theorem Map.Served.ack (served : m.Served stale) :
    Map.Served stale { m with overlay := m.overlay.push .ack } :=
  ⟨served.wf, served.oneRoot, served.sound.push _⟩

theorem follows_ack (o : Overlay) (w : ViewPtr) (t : Tree) : Overlay.Follows w t t o (o.push .ack) :=
  ⟨(Overlay.keeps_push o w .ack).informs ⟨[.ack], rfl, by simp [Message.viewId]⟩ t, id⟩

/-- What a request does: nothing, an acknowledgement, or a call and an acknowledgement. -/
theorem mapProc_steps (run : mapProc m request = .ok m') :
    m' = m ∨ m' = { m with overlay := m.overlay.push .ack } ∨
      ∃ root call m₁, request.2 = some root ∧ readRequest request.1 m root = some call ∧
        m.call call = .ok m₁ ∧ m' = { m₁ with overlay := m₁.overlay.push .ack } := by
  rcases request with ⟨out, _ | root⟩
  · exact Or.inl (Except.ok.inj run).symm
  · rcases bind_eq_ok.mp run with ⟨m₁, performed, result⟩
    rw [pure_eq_ok, Except.ok.injEq] at result
    right
    cases asked : readRequest out m root with
    | none =>
        left
        rw [asked] at performed
        rw [← result, ← Except.ok.inj performed]
    | some call =>
        right
        rw [asked] at performed
        exact ⟨root, call, m₁, rfl, asked, performed, result.symm⟩

theorem Map.Served.mapProc (served : m.Served stale)
    (spares : Asks (fun m call => call.SparesViews stale m) m request)
    (run : mapProc m request = .ok m') : m'.Served stale := by
  rcases mapProc_steps run with rfl | rfl | ⟨root, call, m₁, isJson, asked, called, rfl⟩
  · exact served
  · exact served.ack
  · exact (served.call (spares root call isJson asked) called).ack

/-- The client of a view follows a request of another client. -/
theorem Map.Served.mapProc_follows (served : m.Served stale)
    (spares : Asks (fun m call => call.SparesViews stale m) m request)
    (other : Asks (fun _ call => call.viewId ≠ some k) m request)
    (found : viewIndexGet m.overlay k = some w) (run : Treedb.mapProc m request = .ok m') :
    Overlay.Follows w m.tree m'.tree m.overlay m'.overlay := by
  rcases mapProc_steps run with rfl | rfl | ⟨root, call, m₁, isJson, asked, called, rfl⟩
  · exact .refl w _ _
  · exact follows_ack _ w _
  · exact (served.sound.call_follows served.wf served.oneRoot (spares root call isJson asked) found
      (other root call isJson asked) called).trans (follows_ack _ w _)

theorem Map.Served.mapProcAll {requests : List (Outside × Option Json)} (served : m.Served stale)
    (spares : Outcome.Along Treedb.mapProc (Asks fun m call => call.SparesViews stale m) m requests)
    (run : mapProcAll m requests = .ok m') : m'.Served stale :=
  foldlM_invariant_along (Map.Served stale)
    (fun _ _ _ spares served done => served.mapProc spares done) spares served run

/-- A request for a view of the whole tree. -/
def initViewJson (viewId : String) : Json :=
  .object
    [(cstr "viewId", .string (cstr viewId)), (cstr "name", .string (cstr "mapInitView")),
      (cstr "data", .object
        [(cstr "query", .string []), (cstr "reqId", .integer 0), (cstr "docId", .integer 0)])]

end Requests

/-! ## The queue -/

section Queue

variable {m m' : Map}

/-- What a request may put into the queue: if it is JSON, messages and an acknowledgement behind them. -/
def Answers (request : Outside × Option Json) (sent : List Message) : Prop :=
  match request.2 with
  | none => sent = []
  | some _ => ∃ told, sent = told ++ [.ack] ∧ Message.ack ∉ told

theorem mapProc_answers {request : Outside × Option Json} (run : mapProc m request = .ok m') :
    ∃ sent, m'.overlay.outQ = m.overlay.outQ ++ sent ∧ Answers request sent := by
  rcases request with ⟨out, _ | root⟩
  · rw [← Except.ok.inj run]
    exact ⟨[], (List.append_nil _).symm, rfl⟩
  · rcases bind_eq_ok.mp run with ⟨m₁, performed, result⟩
    have appends : m.overlay.Appends m₁.overlay := by
      unfold perform at performed
      split at performed
      · exact Except.ok.inj performed ▸ .refl _
      · exact call_appends performed
    rcases appends with ⟨told, queued, talks⟩
    refine ⟨told ++ [.ack], ?_, told, rfl, talks⟩
    rw [← Except.ok.inj result, ← List.append_assoc, ← queued]
    rfl

/--
The queue keeps what was queued, and behind it come the messages of each request in the order of the
requests. The acknowledgements say where those of one request end.
-/
theorem mapProcAll_answers {requests : List (Outside × Option Json)}
    (run : mapProcAll m requests = .ok m') :
    ∃ blocks, List.Forall₂ Answers requests blocks ∧
      m'.overlay.outQ = m.overlay.outQ ++ blocks.flatten := by
  induction requests generalizing m with
  | nil =>
      rw [← Except.ok.inj run]
      exact ⟨[], .nil, (List.append_nil _).symm⟩
  | cons request requests ih =>
      rw [mapProcAll, List.foldlM_cons] at run
      rcases bind_eq_ok.mp run with ⟨m₁, handled, rest⟩
      rcases mapProc_answers handled with ⟨sent, queued, answers⟩
      rcases ih rest with ⟨blocks, each, whole⟩
      refine ⟨sent :: blocks, .cons answers each, ?_⟩
      rw [whole, queued, List.flatten_cons, List.append_assoc]

/--
Two inserts that are acknowledged, with a text between them that is no JSON. The second insert names
the id of the first.
-/
theorem mapProcAll_answers_example :
    ∃ m', mapProcAll (mapCreateEmpty 1) [insertRequest "0000000000000001" "0000000000000002",
        ({}, none), insertRequest "0000000000000001" "0000000000000002"] = .ok m' ∧
      ∃ blocks, List.Forall₂ Answers [insertRequest "0000000000000001" "0000000000000002",
          ({}, none), insertRequest "0000000000000001" "0000000000000002"] blocks ∧
        m'.overlay.outQ = (mapCreateEmpty 1).overlay.outQ ++ blocks.flatten := by
  have ends : (mapProcAll (mapCreateEmpty 1) [insertRequest "0000000000000001" "0000000000000002",
      ({}, none), insertRequest "0000000000000001" "0000000000000002"]).toBool = true := by
    decide +kernel
  cases run : mapProcAll (mapCreateEmpty 1) [insertRequest "0000000000000001" "0000000000000002",
      ({}, none), insertRequest "0000000000000001" "0000000000000002"] with
  | error e => simp [run, Except.toBool] at ends
  | ok m' => exact ⟨m', rfl, mapProcAll_answers run⟩

end Queue

end Treedb
