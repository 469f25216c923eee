import TxTrace.Abi.Event
import TxTrace.Proofs.Abi.Arguments

/-!
Events as they are written to logs (`encodeEvent`), and that reading the log gives the event back
(`decodeEvent_encodeEvent`). Indexed parameters stand in the topics and the others in the data, each side
in the order of the declaration, however the two alternate.
-/

namespace TxTrace.Abi

/-- The type of what a log holds of a parameter. A topic is one word, so where a value may be longer it
    holds the hash of the value. -/
def Parameter.loggedType (p : Parameter) : Ty :=
  if p.indexed && !p.type.isElementary then .word else p.type

/-- The topic for a value of the logged type. -/
def Parameter.topic (p : Parameter) (v : Value) : Except EncodeError Word := do
  let content ← encode [p.loggedType] [v]
  return Word.ofBytes content

/-- The topics and the data of a log of the event, each parameter given with a value of its logged
    type. -/
def encodeEvent (event : Entry) (args : List (Parameter × Value)) :
    Except EncodeError (List Word × Bytes) := do
  let words ← (args.filter fun a => a.1.indexed).mapM fun a => a.1.topic a.2
  let plain := args.filter fun a => !a.1.indexed
  let data ← encode (plain.map (·.1.type)) (plain.map (·.2))
  return ((if event.anonymous then [] else [event.topic]) ++ words, data)

/-- What an event shows of a parameter. Of one that the log holds the hash of, it shows the hash. -/
def Parameter.shown (p : Parameter) (v : Value) : EventArgument :=
  ⟨⟨p.name, p.type, v.retype p.loggedType⟩, p.indexed, !(p.indexed && !p.type.isElementary)⟩

variable {p : Parameter} {v : Value} {word : Word} {topics words : List Word}
  {args : List (Parameter × Value)} {body : List Value} {dataSize index : Nat}

/-! ### Topics -/

theorem loggedType_of_isElementary (hty : p.type.isElementary = true) : p.loggedType = p.type := by
  rw [Parameter.loggedType, hty]
  simp

theorem loggedType_of_not_isElementary (hindexed : p.indexed = true)
    (hty : p.type.isElementary = false) : p.loggedType = .word := by
  rw [Parameter.loggedType, hindexed, hty]
  rfl

theorem isElementary_loggedType (hindexed : p.indexed = true) : p.loggedType.isElementary = true := by
  cases hty : p.type.isElementary with
  | true => rw [loggedType_of_isElementary hty, hty]
  | false => rw [loggedType_of_not_isElementary hindexed hty]; rfl

/-- The bytes of a topic encode the value that it was made for. -/
theorem encodeValue_of_topic (hindexed : p.indexed = true) (h : p.topic v = .ok word) :
    encodeValue p.loggedType v = .ok word.toBytes := by
  obtain ⟨content, hcontent, hword⟩ := bind_eq_ok_iff.1 h
  have hty := isElementary_loggedType hindexed
  have hvalue := encodeValue_of_encode hty hcontent
  rw [← Except.ok.inj hword, Word.toBytes_ofBytes (length_of_isElementary hty hvalue)]
  exact hvalue

/-- The topic of an elementary parameter is read as the value that it was made for. -/
theorem decodeValue_topic (hindexed : p.indexed = true) (hty : p.type.isElementary = true)
    (h : p.topic v = .ok word) : decodeValue p.type word.toBytes 0 = .ok (v.retype p.loggedType) := by
  have hvalue := encodeValue_of_topic hindexed h
  have hmemory : word.toBytes.length ≤ max64 := by
    rw [Word.length_toBytes]
    decide
  rw [loggedType_of_isElementary hty] at hvalue ⊢
  exact roundTrips_of_isElementary hty v _ _ 0 hvalue (Bytes.standsAt_zero _) hmemory

/-- The topic of any other parameter is the hash that it was made for. -/
theorem fixedBytes_topic (hindexed : p.indexed = true) (hty : p.type.isElementary = false)
    (h : p.topic v = .ok word) : .fixedBytes word.toBytes = v.retype p.loggedType := by
  have hvalue := encodeValue_of_topic hindexed h
  rw [loggedType_of_not_isElementary hindexed hty] at hvalue ⊢
  obtain ⟨hash, rfl, hlength, hbytes⟩ := encodeValue_fixedBytes hvalue
  have hword : hash.length = 32 := hlength
  have hpadded : hash.padRight = hash := by
    rw [Bytes.padRight, hword]
    simp
  rw [hbytes, hpadded]
  rfl

/-! ### Parameters -/

theorem bindParameters_topic {ps : List Parameter} (hindexed : p.indexed = true)
    (htopic : p.topic v = .ok word) (hword : topics[index]? = some word) :
    bindParameters topics dataSize (p :: ps) index body =
      (do
        let rest ← bindParameters topics dataSize ps (index + 1) body
        return p.shown v :: rest) := by
  rw [bindParameters.eq_def]
  dsimp only
  rw [if_pos hindexed, hword]
  dsimp only
  cases hty : p.type.isElementary with
  | true =>
    rw [if_pos rfl, decodeValue_topic hindexed hty htopic, ok_bind]
    simp [Parameter.shown, hindexed, hty]
  | false =>
    rw [if_neg Bool.false_ne_true, fixedBytes_topic hindexed hty htopic, ok_bind]
    simp [Parameter.shown, hindexed, hty]

theorem bindParameters_missing {ps : List Parameter} (hindexed : p.indexed = true)
    (hword : topics[index]? = none) :
    bindParameters topics dataSize (p :: ps) index body = .error (.missingTopic index) := by
  rw [bindParameters.eq_def]
  dsimp only
  rw [if_pos hindexed, hword]

theorem bindParameters_plain {ps : List Parameter} (hplain : p.indexed = false) :
    bindParameters topics dataSize (p :: ps) index (v.retype p.type :: body) =
      (do
        let rest ← bindParameters topics dataSize ps index body
        return p.shown v :: rest) := by
  rw [bindParameters, if_neg (by simp [hplain])]
  simp [Parameter.shown, Parameter.loggedType, hplain]

/-- The topics of the indexed parameters among `args`. -/
def TopicsOf (args : List (Parameter × Value)) (words : List Word) : Prop :=
  (args.filter fun a => a.1.indexed).mapM (fun a => a.1.topic a.2) = .ok words

theorem TopicsOf.cons {a : Parameter × Value} (hindexed : a.1.indexed = true)
    (h : TopicsOf (a :: args) words) :
    ∃ word rest, words = word :: rest ∧ a.1.topic a.2 = .ok word ∧ TopicsOf args rest := by
  simp only [TopicsOf, List.filter_cons, hindexed, if_true, List.mapM_cons] at h
  obtain ⟨word, hword, h⟩ := bind_eq_ok_iff.1 h
  obtain ⟨rest, hrest, h⟩ := bind_eq_ok_iff.1 h
  exact ⟨word, rest, (Except.ok.inj h).symm, hword, hrest⟩

theorem TopicsOf.tail {a : Parameter × Value} (hplain : a.1.indexed = false)
    (h : TopicsOf (a :: args) words) : TopicsOf args words := by
  rw [TopicsOf, List.filter_cons_of_neg (by simp [hplain])] at h
  exact h

/-- The values in the data of a log, as they are read. -/
def bodyOf (args : List (Parameter × Value)) : List Value :=
  (args.filter fun a => !a.1.indexed).map fun a => a.2.retype a.1.type

theorem bodyOf_cons_of_indexed {a : Parameter × Value} (hindexed : a.1.indexed = true) :
    bodyOf (a :: args) = bodyOf args := by
  simp [bodyOf, hindexed]

theorem bodyOf_cons_of_plain {a : Parameter × Value} (hplain : a.1.indexed = false) :
    bodyOf (a :: args) = a.2.retype a.1.type :: bodyOf args := by
  simp [bodyOf, hplain]

theorem getElem?_of_drop (h : topics.drop index = word :: words) :
    topics[index]? = some word ∧ topics.drop (index + 1) = words := by
  constructor
  · rw [← List.head?_drop, h, List.head?_cons]
  · rw [← List.tail_drop, h, List.tail_cons]

/-- Both cursors pass over the parameters: the topics that are left are those of the parameters that
    are left. -/
theorem bindParameters_of_topicsOf (dataSize : Nat) (h : TopicsOf args words) (htopics : topics.drop index = words) :
    bindParameters topics dataSize (args.map (·.1)) index (bodyOf args) =
      .ok (args.map fun a => a.1.shown a.2) := by
  induction args generalizing words index with
  | nil => rfl
  | cons a args ih =>
    rw [List.map_cons, List.map_cons]
    cases hindexed : a.1.indexed with
    | true =>
      obtain ⟨word, rest, rfl, hword, hrest⟩ := h.cons hindexed
      obtain ⟨hget, hdrop⟩ := getElem?_of_drop htopics
      rw [bodyOf_cons_of_indexed hindexed, bindParameters_topic hindexed hword hget, ih hrest hdrop]
      rfl
    | false =>
      rw [bodyOf_cons_of_plain hindexed, bindParameters_plain hindexed, ih (h.tail hindexed) htopics]
      rfl

/-- Where the topics end early, the first one that is not there is missed. -/
theorem missingTopic_of_topicsOf {k : Nat} (dataSize : Nat) (h : TopicsOf args words) (hk : k < words.length)
    (htopics : topics.drop index = words.take k) :
    bindParameters topics dataSize (args.map (·.1)) index (bodyOf args) =
      .error (.missingTopic (index + k)) := by
  induction args generalizing words index k with
  | nil =>
    obtain rfl := Except.ok.inj h
    exact absurd hk (Nat.not_lt_zero k)
  | cons a args ih =>
    rw [List.map_cons]
    cases hindexed : a.1.indexed with
    | true =>
      obtain ⟨word, rest, rfl, hword, hrest⟩ := h.cons hindexed
      cases k with
      | zero =>
        have hget : topics[index]? = none := by
          rw [← List.head?_drop, htopics]
          rfl
        exact bindParameters_missing hindexed hget
      | succ k =>
        obtain ⟨hget, hdrop⟩ := getElem?_of_drop htopics
        have hmissing := ih hrest (Nat.lt_of_succ_lt_succ hk) hdrop
        rw [bodyOf_cons_of_indexed hindexed, bindParameters_topic hindexed hword hget, hmissing,
          Nat.add_right_comm]
        rfl
    | false =>
      rw [bodyOf_cons_of_plain hindexed, bindParameters_plain hindexed,
        ih (h.tail hindexed) hk htopics]
      rfl

/-! ### Events -/

/-- The data of a log holds the values of the parameters that are not indexed. -/
theorem decode_bodyOf {data : Bytes}
    (htypes : ∀ a ∈ args, a.1.indexed = false → a.1.type.elementsTakeBytes = true)
    (hmemory : data.length ≤ max64)
    (h : encode ((args.filter fun a => !a.1.indexed).map (·.1.type))
      ((args.filter fun a => !a.1.indexed).map (·.2)) = .ok data) :
    decode (((args.map (·.1)).filter fun p => !p.indexed).map (·.type)) data = .ok (bodyOf args) := by
  have hplain : ∀ ty ∈ (args.filter fun a => !a.1.indexed).map (·.1.type),
      ty.elementsTakeBytes = true := by
    intro ty hty
    obtain ⟨a, ha, rfl⟩ := List.mem_map.1 hty
    obtain ⟨hmem, hindexed⟩ := List.mem_filter.1 ha
    exact htypes a hmem (by simpa using hindexed)
  have hfilter : ((args.map (·.1)).filter fun p => !p.indexed).map (·.type) =
      (args.filter fun a => !a.1.indexed).map (·.1.type) := by
    rw [List.filter_map, List.map_map]
    rfl
  rw [hfilter, decode_of_encode hplain hmemory h, List.zipWith_map, List.zipWith_self]
  rfl

theorem exists_topicsOf_of_encodeEvent {event : Entry} {data : Bytes}
    (h : encodeEvent event args = .ok (topics, data)) :
    ∃ words, TopicsOf args words ∧
      topics = (if event.anonymous then [] else [event.topic]) ++ words ∧
      encode ((args.filter fun a => !a.1.indexed).map (·.1.type))
        ((args.filter fun a => !a.1.indexed).map (·.2)) = .ok data := by
  obtain ⟨words, hwords, h⟩ := bind_eq_ok_iff.1 h
  obtain ⟨data', hdata, h⟩ := bind_eq_ok_iff.1 h
  obtain ⟨rfl, rfl⟩ := Prod.mk.inj (Except.ok.inj h)
  exact ⟨words, hwords, rfl, hdata⟩

/-- There is a topic for each indexed parameter. -/
theorem TopicsOf.length_pos (h : TopicsOf args words) (hindexed : (args.map (·.1)).any (·.indexed)) :
    0 < words.length := by
  induction args generalizing words with
  | nil => cases hindexed
  | cons a args ih =>
    cases ha : a.1.indexed with
    | true =>
      obtain ⟨word, rest, rfl, _⟩ := h.cons ha
      exact Nat.succ_pos _
    | false =>
      rw [List.map_cons, List.any_cons, ha, Bool.false_or] at hindexed
      exact ih (h.tail ha) hindexed

/-- A log is read as the event that it was written for, with its values. With fewer topics the first one
    that an indexed parameter misses is the error. -/
theorem decodeEvent_encodeEvent {event : Entry} {args : List (Parameter × Value)} {topics : List Word}
    {data : Bytes} (hargs : args.map (·.1) = event.inputs)
    (htypes : ∀ p ∈ event.inputs, p.indexed = false → p.type.elementsTakeBytes = true)
    (hmemory : data.length ≤ max64) (h : encodeEvent event args = .ok (topics, data)) :
    decodeEvent topics data event = .ok ⟨event.name, none, args.map fun a => a.1.shown a.2⟩ ∧
      ∀ m < topics.length, event.inputs.any (·.indexed) →
        decodeEvent (topics.take m) data event =
          .error (.missingTopic (if m = 0 ∧ event.anonymous = false then 1 else m)) := by
  obtain ⟨words, hwords, rfl, hdata⟩ := exists_topicsOf_of_encodeEvent h
  have hplain : ∀ a ∈ args, a.1.indexed = false → a.1.type.elementsTakeBytes = true := by
    intro a ha
    exact htypes a.1 (hargs ▸ List.mem_map_of_mem ha)
  have hbody := decode_bodyOf hplain hmemory hdata
  rw [hargs] at hbody
  constructor
  · have hdrop : ((if event.anonymous then [] else [event.topic]) ++ words).drop
        (if event.anonymous then 0 else 1) = words := by
      cases event.anonymous <;> rfl
    have hbind := bindParameters_of_topicsOf data.length hwords hdrop
    rw [hargs] at hbind
    rw [decodeEvent, hbody, ok_bind, hbind]
    rfl
  · intro m hm hindexed
    have hpos := hwords.length_pos (hargs ▸ hindexed)
    have hmissing {k : Nat} (hk : k < words.length)
        (hdrop : (((if event.anonymous then [] else [event.topic]) ++ words).take m).drop
          (if event.anonymous then 0 else 1) = words.take k) :
        decodeEvent (((if event.anonymous then [] else [event.topic]) ++ words).take m) data event =
          .error (.missingTopic ((if event.anonymous then 0 else 1) + k)) := by
      have hbind := missingTopic_of_topicsOf data.length hwords hk hdrop
      rw [hargs] at hbind
      rw [decodeEvent, hbody, ok_bind, hbind]
      rfl
    cases hanonymous : event.anonymous with
    | true =>
      simp only [hanonymous, if_true, List.nil_append] at hm hmissing ⊢
      rw [hmissing hm rfl, Nat.zero_add, if_neg (by simp)]
    | false =>
      simp only [hanonymous, Bool.false_eq_true, if_false] at hm hmissing ⊢
      cases m with
      | zero => exact hmissing hpos rfl
      | succ k =>
        rw [List.length_append, List.length_singleton] at hm
        rw [hmissing (k := k) (by omega) rfl, Nat.add_comm, if_neg (by simp)]

def oneByte : Width := ⟨⟨0, by decide⟩⟩

/-- An event with a text in a topic and another one in the data. -/
def namedEvent : Entry where
  kind := .event
  name := "Named"
  inputs := [⟨"label", .string, true⟩, ⟨"count", .uint oneByte, false⟩, ⟨"owner", .address, true⟩,
    ⟨"note", .string, false⟩]
  outputs := []
  anonymous := false
  signature := "Named(string,uint8,address,string)"
  selector := 0
  topic := 0x77

def namedHash : Bytes := List.replicate 32 0x11

def namedArgs : List (Parameter × Value) :=
  [(⟨"label", .string, true⟩, .fixedBytes namedHash), (⟨"count", .uint oneByte, false⟩, .uint 3 256),
    (⟨"owner", .address, true⟩, .address 0xaa), (⟨"note", .string, false⟩, .string "hi")]

def namedTopics : List Word := [0x77, Word.ofBytes namedHash, 0xaa]

def namedData : Bytes := sizeWord 3 ++ sizeWord 64 ++ lengthPrefixed [0x68, 0x69]

theorem decodeEvent_encodeEvent_named :
    encodeEvent namedEvent namedArgs = .ok (namedTopics, namedData) ∧
      decodeEvent namedTopics namedData namedEvent =
        .ok ⟨"Named", none, [⟨⟨"label", .string, .fixedBytes namedHash⟩, true, false⟩,
          ⟨⟨"count", .uint oneByte, .uint 3 8⟩, false, true⟩,
          ⟨⟨"owner", .address, .address 0xaa⟩, true, true⟩,
          ⟨⟨"note", .string, .string "hi"⟩, false, true⟩]⟩ ∧
      decodeEvent (namedTopics.take 0) namedData namedEvent = .error (.missingTopic 1) ∧
      decodeEvent (namedTopics.take 2) namedData namedEvent = .error (.missingTopic 2) := by
  have hencode : encodeEvent namedEvent namedArgs = .ok (namedTopics, namedData) :=
    eq_ok_of_toOption (by decide +kernel)
  have htypes : ∀ p ∈ namedEvent.inputs, p.indexed = false → p.type.elementsTakeBytes = true := by
    decide +kernel
  have hmemory : namedData.length ≤ max64 := by decide +kernel
  obtain ⟨hdecode, hmissing⟩ := decodeEvent_encodeEvent rfl htypes hmemory hencode
  exact ⟨hencode, hdecode, hmissing 0 (by decide) rfl, hmissing 2 (by decide) rfl⟩

end TxTrace.Abi
