import TxTrace.Proofs.Trace.Envelope

/-!
The records of a trace. Each that is a step is read, at the place that it has among those, and each other
one is dropped and listed by its position (`Trace.reads_of_records?`). So records that are no steps leave
no mark but in that list, wherever they stand (`Trace.exists_ofJson_of_padded`).
-/

namespace TxTrace.Trace

/-! ### Steps and other records -/

/-- Whether a record is a step. -/
def isStep (record : Json) : Bool := (Step.ofJson record).isOk

/-- The trace has one step for each record that is one, at the place that it has among them, and lists
    all others by their positions, in order, with what is wrong with them. -/
structure Reads (records : List Json) (trace : Trace) : Prop where
  size_steps : trace.steps.size = records.countP isStep
  step {i : Nat} {record : Json} {s : Step} : records[i]? = some record → Step.ofJson record = .ok s →
    trace.steps[(records.take i).countP isStep]? = some s
  pairwise_dropped : trace.dropped.Pairwise fun a b => a.1 < b.1
  mem_dropped_iff {i : Nat} {cause : StepError} : (i, cause) ∈ trace.dropped ↔
    ∃ record, records[i]? = some record ∧ Step.ofJson record = .error cause

theorem isStep_of_ok {record : Json} {s : Step} (h : Step.ofJson record = .ok s) : isStep record = true := by
  rw [isStep, h]
  rfl

theorem isStep_of_error {record : Json} {cause : StepError} (h : Step.ofJson record = .error cause) :
    isStep record = false := by
  rw [isStep, h]
  rfl

theorem readSteps_cons_of_ok {record : Json} {s : Step} (records : List Json)
    (h : Step.ofJson record = .ok s) : readSteps (record :: records) = s :: readSteps records :=
  List.filterMap_cons_some (by rw [h]; rfl)

theorem readSteps_cons_of_error {record : Json} {cause : StepError} (records : List Json)
    (h : Step.ofJson record = .error cause) : readSteps (record :: records) = readSteps records :=
  List.filterMap_cons_none (by rw [h]; rfl)

theorem length_readSteps (records : List Json) : (readSteps records).length = records.countP isStep := by
  induction records with
  | nil => rfl
  | cons record records ih =>
    cases h : Step.ofJson record with
    | ok s =>
      rw [readSteps_cons_of_ok records h, List.length_cons, ih, List.countP_cons_of_pos (isStep_of_ok h)]
    | error cause =>
      rw [readSteps_cons_of_error records h, ih, List.countP_cons_of_neg (by simp [isStep_of_error h])]

/-- A record that is a step stands among the steps as it does among the records that are steps. -/
theorem getElem?_readSteps {records : List Json} {i : Nat} {record : Json} {s : Step}
    (hrecord : records[i]? = some record) (hs : Step.ofJson record = .ok s) :
    (readSteps records)[(records.take i).countP isStep]? = some s := by
  induction records generalizing i with
  | nil => cases hrecord
  | cons first records ih =>
    cases i with
    | zero =>
      obtain rfl : first = record := by simpa using hrecord
      rw [readSteps_cons_of_ok records hs]
      rfl
    | succ i =>
      have hrest := ih (by simpa using hrecord)
      rw [List.take_succ_cons]
      cases h : Step.ofJson first with
      | ok s' =>
        rw [readSteps_cons_of_ok records h, List.countP_cons_of_pos (isStep_of_ok h), List.getElem?_cons_succ]
        exact hrest
      | error cause =>
        rw [readSteps_cons_of_error records h, List.countP_cons_of_neg (by simp [isStep_of_error h])]
        exact hrest

theorem mem_readDropped_iff {records : List Json} {i : Nat} {cause : StepError} :
    (i, cause) ∈ readDropped records ↔
      ∃ record, records[i]? = some record ∧ Step.ofJson record = .error cause := by
  rw [readDropped, List.mem_filterMap]
  constructor
  · rintro ⟨⟨record, j⟩, hmem, h⟩
    have hrecord := List.mem_zipIdx_iff_getElem?.1 hmem
    cases herror : Step.ofJson record with
    | ok s => simp [herror] at h
    | error cause' =>
      obtain ⟨rfl, rfl⟩ : j = i ∧ cause' = cause := by simpa [herror] using h
      exact ⟨record, hrecord, herror⟩
  · rintro ⟨record, hrecord, herror⟩
    exact ⟨(record, i), List.mem_zipIdx_iff_getElem?.2 hrecord, by simp [herror]⟩

theorem pairwise_readDropped (records : List Json) :
    (readDropped records).Pairwise fun a b => a.1 < b.1 := by
  have hpositions : records.zipIdx.Pairwise fun a b => a.2 < b.2 := by
    rw [← List.pairwise_map (f := Prod.snd), List.zipIdx_map_snd]
    exact List.pairwise_lt_range'
  refine hpositions.filterMap _ fun p q hlt a ha b hb => ?_
  cases hp : Step.ofJson p.1 <;> cases hq : Step.ofJson q.1 <;> simp_all
  obtain rfl := ha
  obtain rfl := hb
  exact hlt

theorem reads_ofRecords (records : List Json) : Reads records (ofRecords records) where
  size_steps := by
    rw [ofRecords, List.size_toArray]
    exact length_readSteps records
  step hrecord hs := by
    rw [ofRecords, List.getElem?_toArray]
    exact getElem?_readSteps hrecord hs
  pairwise_dropped := pairwise_readDropped records
  mem_dropped_iff := mem_readDropped_iff

/-! ### The records in a trace in JSON -/

/-- The names of the fields that hold the records of a trace. -/
def recordFields : List String := ["structLogs", "struct_logs", "steps"]

/-- The records of a trace in JSON, if it has any. -/
def records? (json : Json) : Option (List Json) :=
  match payload json with
  | .arr records => some records
  | .obj fields => firstField (.obj fields) recordFields Json.arr?
  | _ => none

theorem records?_arr (records : List Json) : records? (.arr records) = some records := by
  rw [records?, payload_of_forall_ne (by simp [Json.get?])]

/-- The records of a trace are read, whatever else it says. -/
theorem reads_of_records? {json : Json} {records : List Json} (h : records? json = some records) :
    ∃ trace, ofJson json = .ok trace ∧ Reads records trace := by
  unfold records? at h
  rw [ofJson]
  cases hpayload : payload json with
  | arr records' =>
    obtain rfl : records' = records := by simpa [hpayload] using h
    exact ⟨_, rfl, reads_ofRecords records'⟩
  | obj fields =>
    rw [hpayload] at h
    have hreads := reads_ofRecords records
    refine ⟨_, rfl, ?_⟩
    have hrecords : firstField (.obj fields) ["structLogs", "struct_logs", "steps"] Json.arr? = some records := h
    simp only [hrecords, Option.getD_some]
    exact ⟨hreads.size_steps, hreads.step, hreads.pairwise_dropped, hreads.mem_dropped_iff⟩
  | _ => simp [hpayload] at h

/-! ### Records that are no steps -/

/-- The same records with others between them that are no steps. -/
inductive PaddedRecords : List Json → List Json → Prop
  | nil : PaddedRecords [] []
  | keep {records padded : List Json} (record : Json) (h : PaddedRecords records padded) :
      PaddedRecords (record :: records) (record :: padded)
  | insert {records padded : List Json} {record : Json} {cause : StepError}
      (hrecord : Step.ofJson record = .error cause) (h : PaddedRecords records padded) :
      PaddedRecords records (record :: padded)

theorem PaddedRecords.readSteps_eq {records padded : List Json} (h : PaddedRecords records padded) :
    readSteps padded = readSteps records := by
  induction h with
  | nil => rfl
  | keep record h ih =>
    cases hrecord : Step.ofJson record with
    | ok s => rw [readSteps_cons_of_ok _ hrecord, readSteps_cons_of_ok _ hrecord, ih]
    | error cause => rw [readSteps_cons_of_error _ hrecord, readSteps_cons_of_error _ hrecord, ih]
  | insert hrecord h ih => rw [readSteps_cons_of_error _ hrecord, ih]

/-- The same trace in JSON with records that are no steps put among its records. -/
inductive Padded : Json → Json → Prop
  | same (json : Json) : Padded json json
  | records {records padded : List Json} (h : PaddedRecords records padded) :
      Padded (.arr records) (.arr padded)
  | field {name : String} {records padded : List Json} (before after : List (String × Json))
      (hname : name ∈ recordFields) (h : PaddedRecords records padded) :
      Padded (.obj (before ++ (name, .arr records) :: after)) (.obj (before ++ (name, .arr padded) :: after))
  | envelope {json padded : Json} (before after : List (String × Json)) (h : Padded json padded) :
      Padded (.obj (before ++ ("result", json) :: after)) (.obj (before ++ ("result", padded) :: after))

theorem Padded.map_arr? {json padded : Json} (h : Padded json padded) :
    padded.arr?.map readSteps = json.arr?.map readSteps := by
  cases h with
  | records h => exact congrArg some h.readSteps_eq
  | _ => rfl

theorem Padded.exists_obj_iff {json padded : Json} (h : Padded json padded) :
    (∃ fields, json = .obj fields) ↔ ∃ fields, padded = .obj fields := by
  cases h with
  | same => exact .rfl
  | records => simp
  | field | envelope => exact iff_of_true ⟨_, rfl⟩ ⟨_, rfl⟩

/-- When one field of an object changes, a look-up finds the change, or what it found before. -/
theorem get?_replace (before after : List (String × Json)) (name : String) (value value' : Json)
    (key : String) :
    (Json.obj (before ++ (name, value') :: after)).get? key =
        (Json.obj (before ++ (name, value) :: after)).get? key ∨
      key = name ∧ (Json.obj (before ++ (name, value) :: after)).get? key = some value ∧
        (Json.obj (before ++ (name, value') :: after)).get? key = some value' := by
  simp only [Json.get?, List.find?_append]
  cases before.find? (·.1 == key) with
  | some field => exact .inl rfl
  | none =>
    by_cases hname : name = key
    · exact .inr ⟨hname.symm, by simp [hname], by simp [hname]⟩
    · exact .inl (by simp [hname])

/-- A field of a padded trace is that of the trace, or it is one that may be padded, and is. -/
theorem Padded.get? {json padded : Json} (h : Padded json padded) (key : String) :
    padded.get? key = json.get? key ∨
      (key ∈ recordFields ∨ key = "result") ∧ ∃ value value', json.get? key = some value ∧
        padded.get? key = some value' ∧ Padded value value' := by
  cases h with
  | same | records => exact .inl rfl
  | field before after hname h =>
    refine (get?_replace before after _ _ _ key).imp_right ?_
    rintro ⟨rfl, hvalue, hvalue'⟩
    exact ⟨.inl hname, _, _, hvalue, hvalue', .records h⟩
  | envelope before after h =>
    refine (get?_replace before after _ _ _ key).imp_right ?_
    rintro ⟨rfl, hvalue, hvalue'⟩
    exact ⟨.inr rfl, _, _, hvalue, hvalue', h⟩

theorem Padded.payload_of_get?_eq {json padded : Json} (h : Padded json padded)
    (hresult : padded.get? "result" = json.get? "result") : Padded (payload json) (payload padded) := by
  by_cases hobj : ∃ fields, json.get? "result" = some (.obj fields)
  · obtain ⟨fields, hfields⟩ := hobj
    rw [payload_of_result hfields, payload_of_result (hresult.trans hfields)]
    exact .same _
  · rw [not_exists] at hobj
    have hobj' (fields : List (String × Json)) : padded.get? "result" ≠ some (.obj fields) := by
      rw [hresult]
      exact hobj fields
    rwa [payload_of_forall_ne hobj, payload_of_forall_ne hobj']

/-- What is read of a padded trace is what is read of the trace, padded. -/
theorem Padded.payload {json padded : Json} (h : Padded json padded) :
    Padded (payload json) (payload padded) := by
  induction h with
  | same json => exact .same _
  | records h => exact (Padded.records h).payload_of_get?_eq rfl
  | @field name _ _ before after hname h =>
    refine (Padded.field before after hname h).payload_of_get?_eq ?_
    refine (get?_replace before after _ _ _ "result").resolve_right fun heq => ?_
    rw [← heq.1] at hname
    exact absurd hname (by decide)
  | @envelope json padded before after h ih =>
    rcases get?_replace before after "result" json padded "result" with hresult | ⟨-, hjson, hpadded⟩
    · exact (Padded.envelope before after h).payload_of_get?_eq hresult
    · by_cases hobj : ∃ fields, json = .obj fields
      · obtain ⟨fields', rfl⟩ := h.exists_obj_iff.1 hobj
        obtain ⟨fields, rfl⟩ := hobj
        rwa [payload_of_result hjson, payload_of_result hpadded]
      · have hobj' := mt h.exists_obj_iff.2 hobj
        rw [payload_of_forall_ne, payload_of_forall_ne]
        · exact .envelope before after h
        · intro fields heq
          exact hobj' ⟨fields, Option.some.inj (hpadded.symm.trans heq)⟩
        · intro fields heq
          exact hobj ⟨fields, Option.some.inj (hjson.symm.trans heq)⟩

theorem Padded.firstField_eq {α : Type} {json padded : Json} (h : Padded json padded) {names : List String}
    (read : Json → Option α) (hnames : ∀ name ∈ names, name ∉ recordFields ∧ name ≠ "result") :
    firstField padded names read = firstField json names read :=
  firstField_congr read fun name hname =>
    (h.get? name).resolve_right fun hpadded => hpadded.1.elim (hnames name hname).1 (hnames name hname).2

theorem Padded.map_firstField {json padded : Json} (h : Padded json padded) (names : List String) :
    (firstField padded names Json.arr?).map readSteps = (firstField json names Json.arr?).map readSteps := by
  induction names with
  | nil => rfl
  | cons name names ih =>
    have hname : (padded.get? name >>= Json.arr?).map readSteps =
        (json.get? name >>= Json.arr?).map readSteps := by
      rcases h.get? name with heq | ⟨-, value, value', hvalue, hvalue', hpadded⟩
      · rw [heq]
      · rw [hvalue, hvalue']
        exact hpadded.map_arr?
    simp only [firstField, List.findSome?_cons] at ih ⊢
    cases hpadded : padded.get? name >>= Json.arr? with
    | none =>
      rw [hpadded, Option.map_none, eq_comm, Option.map_eq_none_iff] at hname
      rwa [hname]
    | some records' =>
      rw [hpadded, Option.map_some, eq_comm, Option.map_eq_some_iff] at hname
      obtain ⟨records, hrecords, heq⟩ := hname
      rw [hrecords, Option.map_some, Option.map_some, heq]

theorem exists_dropped_of_eq {trace trace' : Trace} (hsteps : trace'.steps = trace.steps)
    (hgas : trace'.gasUsed = trace.gasUsed) (hfailed : trace'.failed = trace.failed)
    (hreturn : trace'.returnValue = trace.returnValue) :
    ∃ dropped, (.ok trace' : Except FormatError Trace) = .ok { trace with dropped } := by
  refine ⟨trace'.dropped, congrArg Except.ok ?_⟩
  cases trace
  cases trace'
  simp_all

/-- Of a padded trace the same is read, but for the list of what was dropped. -/
theorem exists_ofJson_of_padded {json padded : Json} (h : Padded json padded) :
    (∀ cause, ofJson json = .error cause → ofJson padded = .error cause) ∧
      ∀ trace, ofJson json = .ok trace → ∃ dropped, ofJson padded = .ok { trace with dropped } := by
  have hpayload := h.payload
  rw [ofJson, ofJson]
  cases hjson : Trace.payload json with
  | obj fields =>
    rw [hjson] at hpayload
    obtain ⟨fields', hpadded⟩ := hpayload.exists_obj_iff.1 ⟨fields, rfl⟩
    rw [hpadded] at hpayload ⊢
    refine ⟨fun cause herror => (by cases herror), fun trace htrace => ?_⟩
    rw [← Except.ok.inj htrace]
    refine exists_dropped_of_eq ?_ ?_ ?_ ?_
    · have hrecords := hpayload.map_firstField recordFields
      have hgetD (records : Option (List Json)) :
          (readSteps (records.getD [])).toArray = ((records.map readSteps).getD []).toArray := by
        cases records <;> rfl
      simp only [ofRecords]
      rw [hgetD, hgetD]
      exact congrArg (fun records => (Option.getD records []).toArray) hrecords
    · exact hpayload.firstField_eq _ (by decide)
    · exact congrArg (· >>= Json.bool?) ((hpayload.get? "failed").resolve_right fun hname =>
        absurd hname.1 (by decide))
    · exact hpayload.firstField_eq _ (by decide)
  | arr records =>
    rw [hjson] at hpayload
    generalize Trace.payload padded = value at hpayload
    cases hpayload with
    | same => exact ⟨fun _ herror => herror, fun trace htrace => ⟨trace.dropped, htrace⟩⟩
    | records hrecords =>
      refine ⟨fun cause herror => (by cases herror), fun trace htrace => ?_⟩
      rw [← Except.ok.inj htrace]
      refine exists_dropped_of_eq ?_ rfl rfl rfl
      simp only [ofRecords]
      rw [hrecords.readSteps_eq]
  | _ =>
    rw [hjson] at hpayload
    generalize Trace.payload padded = value at hpayload
    cases hpayload
    exact ⟨fun _ herror => herror, fun trace htrace => ⟨trace.dropped, htrace⟩⟩

end TxTrace.Trace
