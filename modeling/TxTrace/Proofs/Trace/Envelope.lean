import TxTrace.Trace.Basic

/-!
Traces that stand in the fields `result` of other objects. An object there is the trace, however many
objects stand around it and whatever else they hold. An array there is not looked at: the trace is then
that of the other fields (`Trace.ofJson_eq_iff_of_enveloped`).
-/

namespace TxTrace

namespace Json

/-- A value stands in another: it is that value, or the other is an object with a field `result` in
    which it stands. -/
inductive Enveloped (content : Json) : Json → Prop
  | self : Enveloped content content
  | wrap {json inner : Json} (hresult : json.get? "result" = some inner)
      (h : Enveloped content inner) : Enveloped content json

/-- An object without one of its fields. -/
def without (json : Json) (key : String) : Json :=
  match json with
  | obj fields => obj (fields.filter (·.1 != key))
  | json => json

theorem exists_obj_of_get? {json value : Json} {key : String} (h : json.get? key = some value) :
    ∃ fields, json = .obj fields := by
  cases json with
  | obj fields => exact ⟨fields, rfl⟩
  | _ => cases h

theorem get?_without_self (json : Json) (key : String) : (json.without key).get? key = none := by
  cases json with
  | obj fields =>
    have hnone : (fields.filter (·.1 != key)).find? (·.1 == key) = none := by
      rw [List.find?_eq_none]
      intro field hfield
      simpa using (List.mem_filter.1 hfield).2
    rw [without, get?, hnone]
    rfl
  | _ => rfl

theorem get?_without_of_ne (json : Json) {key name : String} (hne : name ≠ key) :
    (json.without key).get? name = json.get? name := by
  cases json with
  | obj fields =>
    have hfind : (fields.filter (·.1 != key)).find? (·.1 == name) = fields.find? (·.1 == name) := by
      rw [List.find?_filter]
      congr 1
      funext field
      by_cases hname : field.1 = name
      · simp [hname, hne]
      · simp [hname]
    rw [without, get?, get?, hfind]
  | _ => rfl

/-- What an object stands in is an object. -/
theorem Enveloped.exists_obj {fields : List (String × Json)} {json : Json}
    (h : Enveloped (.obj fields) json) : ∃ fields', json = .obj fields' := by
  cases h with
  | self => exact ⟨fields, rfl⟩
  | wrap hresult => exact exists_obj_of_get? hresult

end Json

namespace Trace

theorem payload_of_result {json : Json} {fields : List (String × Json)}
    (h : json.get? "result" = some (.obj fields)) : payload json = payload (.obj fields) := by
  rw [payload]
  split
  · next fields' h' =>
    rw [h] at h'
    rw [Option.some.inj h']
  · next hother => exact absurd h (hother fields)

theorem payload_of_forall_ne {json : Json} (h : ∀ fields, json.get? "result" ≠ some (.obj fields)) :
    payload json = json := by
  rw [payload]
  split
  · next fields hfields => exact absurd hfields (h fields)
  · rfl

/-- An object that stands in another value is its payload. -/
theorem payload_of_enveloped {fields : List (String × Json)} {json : Json}
    (h : Json.Enveloped (.obj fields) json) : payload json = payload (.obj fields) := by
  induction h with
  | self => rfl
  | wrap hresult h ih =>
    obtain ⟨fields', rfl⟩ := h.exists_obj
    rw [payload_of_result hresult, ih]

/-- All that is read of a trace in JSON is its payload. -/
theorem ofJson_congr {json json' : Json} (h : payload json = payload json') :
    ofJson json = ofJson json' := by
  rw [ofJson, ofJson, h]

theorem firstField_congr {α : Type} {json json' : Json} {names : List String} (read : Json → Option α)
    (h : ∀ name ∈ names, json'.get? name = json.get? name) :
    firstField json' names read = firstField json names read := by
  induction names with
  | nil => rfl
  | cons name names ih =>
    have hrest : firstField json' names read = firstField json names read :=
      ih fun name' hname => h name' (List.mem_cons_of_mem _ hname)
    simp only [firstField] at hrest
    rw [firstField, firstField, List.findSome?_cons, List.findSome?_cons, h name List.mem_cons_self, hrest]

/-- A field `result` that is no object is not looked at. -/
theorem ofJson_without {json content : Json} (hcontent : json.get? "result" = some content)
    (hobj : ∀ fields, content ≠ .obj fields) : ofJson (json.without "result") = ofJson json := by
  obtain ⟨fields, rfl⟩ := Json.exists_obj_of_get? hcontent
  have hpayload : payload (.obj fields) = .obj fields := by
    refine payload_of_forall_ne fun fields' h => ?_
    rw [hcontent] at h
    exact hobj fields' (Option.some.inj h)
  have hpayload' : payload ((Json.obj fields).without "result") = (Json.obj fields).without "result" := by
    refine payload_of_forall_ne fun fields' h => ?_
    rw [Json.get?_without_self] at h
    cases h
  have hother {name : String} (hne : name ≠ "result") :
      ((Json.obj fields).without "result").get? name = (Json.obj fields).get? name :=
    Json.get?_without_of_ne _ hne
  have hfirst {α : Type} (names : List String) (read : Json → Option α) (hnames : "result" ∉ names) :
      firstField ((Json.obj fields).without "result") names read = firstField (.obj fields) names read :=
    firstField_congr read fun name hname => hother fun heq => hnames (heq ▸ hname)
  have hfailed := hother (show "failed" ≠ "result" by decide)
  simp only [Json.without] at hpayload' hfirst hfailed ⊢
  simp only [ofJson, hpayload, hpayload']
  rw [hfirst _ _ (by decide), hfirst _ _ (by decide), hfirst _ _ (by decide), hfailed]

/-- A trace that stands in other objects is read as it is by itself exactly if it is an object, or an
    array in whose place the other fields of the innermost object give the same. That object's other
    fields are what is read when the trace is an array. -/
theorem ofJson_eq_iff_of_enveloped {json envelope content : Json} {trace : Trace}
    (hcontent : envelope.get? "result" = some content) (htrace : ofJson content = .ok trace)
    (h : Json.Enveloped envelope json) :
    (ofJson json = .ok trace ↔
        (∃ fields, content = .obj fields) ∨ ofJson (envelope.without "result") = .ok trace) ∧
      ∀ records, content = .arr records → ofJson json = ofJson (envelope.without "result") := by
  obtain ⟨fields, rfl⟩ := Json.exists_obj_of_get? hcontent
  have hjson : ofJson json = ofJson (.obj fields) := ofJson_congr (payload_of_enveloped h)
  rw [hjson]
  by_cases hobj : ∃ inner, content = .obj inner
  · obtain ⟨inner, rfl⟩ := hobj
    have hread : ofJson (.obj fields) = .ok trace :=
      (ofJson_congr (payload_of_result hcontent)).trans htrace
    exact ⟨iff_of_true hread (.inl ⟨inner, rfl⟩), fun records heq => by cases heq⟩
  · have hwithout := ofJson_without hcontent (not_exists.1 hobj)
    rw [hwithout]
    exact ⟨⟨.inr, fun hread => hread.resolve_left hobj⟩, fun _ _ => rfl⟩

/-- A record of a step that stops. -/
def stopRecord : Json :=
  .obj [("depth", .int 1), ("gas", .int 10), ("gasCost", .int 0), ("op", .str "STOP"), ("pc", .int 0)]

/-- A trace of one step, and what the node said of its gas. -/
def stopTrace : Json := .obj [("gas", .int 21000), ("structLogs", .arr [stopRecord])]

/-- A response of a node whose result is `content`. -/
def response (content : Json) : Json :=
  .obj [("id", .int 1), ("jsonrpc", .str "2.0"), ("result", content)]

/-- A trace in a response in a response is read as it is by itself. -/
theorem ofJson_eq_iff_of_enveloped_response :
    ∃ trace, ofJson stopTrace = .ok trace ∧ trace.steps.size = 1 ∧ trace.gasUsed = some 21000 ∧
      ofJson (response (response stopTrace)) = .ok trace := by
  have hread : (ofJson stopTrace).toOption.map (fun trace => (trace.steps.size, trace.gasUsed)) =
      some (1, some 21000) := by
    decide +kernel
  obtain ⟨trace, hsome, heq⟩ := Option.map_eq_some_iff.1 hread
  have htrace := eq_ok_of_toOption hsome
  have hcontent : (response stopTrace).get? "result" = some stopTrace := rfl
  have hresult : (response (response stopTrace)).get? "result" = some (response stopTrace) := rfl
  rw [Prod.mk.injEq] at heq
  refine ⟨trace, htrace, heq.1, heq.2, ?_⟩
  exact (ofJson_eq_iff_of_enveloped hcontent htrace (.wrap hresult .self)).1.2 (.inl ⟨_, rfl⟩)

/-- An array of records in a response is not read: its step is missing, and nothing says so. -/
theorem not_forall_ofJson_enveloped :
    ¬ ∀ (json envelope content : Json) (trace : Trace), envelope.get? "result" = some content →
        ofJson content = .ok trace → Json.Enveloped envelope json → ofJson json = .ok trace := by
  intro h
  have hread : (ofJson (.arr [stopRecord])).toOption.map (·.steps.size) = some 1 := by decide +kernel
  have hempty : (ofJson (response (.arr [stopRecord]))).toOption.map
      (fun trace => (trace.steps.size, trace.dropped.length)) = some (0, 0) := by
    decide +kernel
  obtain ⟨trace, hsome, hsize⟩ := Option.map_eq_some_iff.1 hread
  have heq := h (response (.arr [stopRecord])) (response (.arr [stopRecord])) (.arr [stopRecord]) trace rfl
    (eq_ok_of_toOption hsome) .self
  rw [heq] at hempty
  simp only [Except.toOption, Option.map_some, Option.some.injEq, Prod.mk.injEq] at hempty
  omega

end Trace

end TxTrace
