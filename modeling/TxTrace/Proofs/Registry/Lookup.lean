import TxTrace.Analysis.Event

/-!
What is found among all contracts: in the order of the addresses, the first that answers
(`Registry.findEvent?_eq`, `Registry.findError?_eq`, `Registry.findCreated?_eq_some_iff`). So a log of
code that is not known is read against the first event that its topic names, and against no other
(`Registry.event_decoded_iff`).
-/

namespace TxTrace

namespace Registry

variable {r : Registry} {code : Address} {log : Log}

/-! ### The first contract -/

/-- The first contract with an entry that is looked for has the first such entry of all. -/
theorem map_findSome?_find? (contracts : List Contract) (entries : Contract → List Abi.Entry)
    (p : Abi.Entry → Bool) :
    (contracts.findSome? fun c => ((entries c).find? p).map (c, ·)).map (·.2) =
      (contracts.flatMap entries).find? p := by
  rw [List.map_findSome?, List.find?_flatMap]
  congr 1
  funext c
  rw [Function.comp_apply, Option.map_map]
  exact Option.map_id_apply

theorem findEvent?_eq (r : Registry) (topic : Word) :
    (r.findEvent? topic).map (·.2) =
      (r.contracts.flatMap (·.abi.events)).find? fun e => !e.anonymous && e.topic == topic :=
  map_findSome?_find? r.contracts (·.abi.events) _

theorem findError?_eq (r : Registry) (selector : Selector) :
    (r.findError? selector).map (·.2) =
      (r.contracts.flatMap (·.abi.errors)).find? (·.selector == selector) :=
  map_findSome?_find? r.contracts (·.abi.errors) _

/-- Code creates a contract whose creation code it begins with, where there are several the one with the
    first address. -/
theorem findCreated?_eq_some_iff {input : Bytes} {c : Contract} :
    r.findCreated? input = some c ↔
      ∃ a, r.find? a = some c ∧ c.created input ∧
        ∀ a' < a, ∀ c', r.find? a' = some c' → ¬ c'.created input :=
  r.sorted.find?_map_snd_eq_some_iff

/-! ### Logs of unknown code -/

/-- The events that the first topic of a log names, in the order of the addresses of their contracts. -/
def eventsOf (r : Registry) (log : Log) : List Abi.Entry :=
  (r.contracts.flatMap (·.abi.events)).filter fun e => !e.anonymous && some e.topic == log.topics.head?

theorem eventOf?_of_unknown (hcode : r.find? code = none) :
    r.eventOf? code log = (r.eventsOf log).head? := by
  rw [eventOf?, eventsOf, List.head?_filter]
  cases htopic : log.topics.head? with
  | none =>
    have hnone : (r.contracts.flatMap (·.abi.events)).find?
        (fun e => !e.anonymous && some e.topic == none) = none := by
      rw [List.find?_eq_none]
      simp
    rw [hnone]
    rfl
  | some topic =>
    have hlookup := r.findEvent?_eq topic
    simp only [hcode, Option.bind_none, Option.none_or]
    rw [Option.bind_eq_bind, Option.bind_some, hlookup]
    rfl

/-- A log of code that is not known is decoded exactly if the first event that its topic names decodes
    it. If that one does not, the log is raw, whatever the others would make of it. -/
theorem event_decoded_iff {r : Registry} {code : Address} {log : Log} (hcode : r.find? code = none) :
    ((∃ entry ∈ r.eventsOf log, ∃ event, Abi.decodeEvent log.topics log.data entry = .ok event ∧
        r.event code log = ({ event with address := some log.address }, [])) ↔
      ∃ entry event, (r.eventsOf log).head? = some entry ∧
        Abi.decodeEvent log.topics log.data entry = .ok event) ∧
      ∀ entry cause, (r.eventsOf log).head? = some entry →
        Abi.decodeEvent log.topics log.data entry = .error cause →
        r.event code log = (log.undecoded, [.undecodedEvent log.step entry.name cause]) := by
  have hraw : ∀ entry cause, (r.eventsOf log).head? = some entry →
      Abi.decodeEvent log.topics log.data entry = .error cause →
      r.event code log = (log.undecoded, [.undecodedEvent log.step entry.name cause]) := by
    intro entry cause hfirst herror
    simp only [event, eventOf?_of_unknown hcode, hfirst, herror]
  refine ⟨⟨?_, ?_⟩, hraw⟩
  · rintro ⟨entry, hmem, event, -, hevent⟩
    obtain ⟨first, rest, hentries⟩ := List.exists_cons_of_ne_nil (List.ne_nil_of_mem hmem)
    have hfirst : (r.eventsOf log).head? = some first := by rw [hentries, List.head?_cons]
    cases hdecode : Abi.decodeEvent log.topics log.data first with
    | ok decoded => exact ⟨first, decoded, hfirst, hdecode⟩
    | error cause =>
      -- then an anomaly stands beside the raw log
      rw [hraw first cause hfirst hdecode] at hevent
      exact absurd (congrArg Prod.snd hevent) (List.cons_ne_nil _ _)
  · rintro ⟨entry, event, hfirst, hdecode⟩
    refine ⟨entry, List.mem_of_head? hfirst, event, hdecode, ?_⟩
    simp only [Registry.event, eventOf?_of_unknown hcode, hfirst, hdecode]

/-- The event of coins and of deeds alike: only what it passes on is indexed or not. -/
def transferEvent (indexed : Bool) : Abi.Entry where
  kind := .event
  name := "Transfer"
  inputs := [⟨"from", .address, true⟩, ⟨"to", .address, true⟩, ⟨"value", .uint .word, indexed⟩]
  outputs := []
  anonymous := false
  signature := "Transfer(address,address,uint256)"
  selector := 0xddf252ad
  topic := 0xddf252ad1be2c89b69c2b068fc378daa952ba7f163c4a11628f55a4df523b3ef

/-- A coin, and behind it a deed. -/
def coinAndDeed : Registry :=
  (Registry.empty.insert 0xbb
    { name := "Deed", abi := { Abi.Interface.empty with events := [transferEvent true] } }).insert 0xaa
    { name := "Coin", abi := { Abi.Interface.empty with events := [transferEvent false] } }

/-- A log of a coin that is not known. -/
def coinLog : Log where
  address := 0xcc
  topics := [(transferEvent false).topic, 0xa1, 0xa2]
  data := Word.toBytes 7
  step := none

/-- A log of a deed that is not known. -/
def deedLog : Log where
  address := 0xcc
  topics := [(transferEvent true).topic, 0xa1, 0xa2, 7]
  data := []
  step := none

theorem find?_coinAndDeed : coinAndDeed.find? 0xcc = none := by
  simp only [coinAndDeed, find?_insert]
  rfl

theorem event_decoded_iff_coinLog :
    (∃ entry ∈ coinAndDeed.eventsOf coinLog, ∃ event,
        Abi.decodeEvent coinLog.topics coinLog.data entry = .ok event ∧
        coinAndDeed.event 0xcc coinLog = ({ event with address := some 0xcc }, [])) ∧
      coinAndDeed.event 0xcc deedLog =
        (deedLog.undecoded, [.undecodedEvent none "Transfer" (.insufficientData 0 32 0)]) := by
  have hcoin : Abi.decodeEvent coinLog.topics coinLog.data (transferEvent false) =
      .ok ⟨"Transfer", none, [⟨⟨"from", .address, .address 0xa1⟩, true, true⟩,
        ⟨⟨"to", .address, .address 0xa2⟩, true, true⟩,
        ⟨⟨"value", .uint .word, .uint 7 256⟩, false, true⟩]⟩ := by
    rfl
  have hdeed : Abi.decodeEvent deedLog.topics deedLog.data (transferEvent false) =
      .error (.insufficientData 0 32 0) := by
    rfl
  exact ⟨(event_decoded_iff find?_coinAndDeed).1.2 ⟨transferEvent false, _, rfl, hcoin⟩,
    (event_decoded_iff find?_coinAndDeed).2 (transferEvent false) _ rfl hdeed⟩

/-- Of several events that a topic names, one that decodes the log is not found behind one that does
    not. -/
theorem not_forall_event_decoded :
    ¬ ∀ (r : Registry) (code : Address) (log : Log), r.find? code = none →
        (∃ entry ∈ r.eventsOf log, ∃ event,
          Abi.decodeEvent log.topics log.data entry = .ok event) →
        ∃ entry ∈ r.eventsOf log, ∃ event, Abi.decodeEvent log.topics log.data entry = .ok event ∧
          r.event code log = ({ event with address := some log.address }, []) := by
  intro h
  have hmem : transferEvent true ∈ coinAndDeed.eventsOf deedLog := .tail _ (.head _)
  have hdecode : Abi.decodeEvent deedLog.topics deedLog.data (transferEvent true) =
      .ok ⟨"Transfer", none, [⟨⟨"from", .address, .address 0xa1⟩, true, true⟩,
        ⟨⟨"to", .address, .address 0xa2⟩, true, true⟩,
        ⟨⟨"value", .uint .word, .uint 7 256⟩, true, true⟩]⟩ := by
    rfl
  obtain ⟨_, _, _, _, hevent⟩ := h coinAndDeed 0xcc deedLog find?_coinAndDeed ⟨_, hmem, _, hdecode⟩
  have hraw : (coinAndDeed.event 0xcc deedLog).2 ≠ [] := List.cons_ne_nil _ _
  exact hraw (congrArg Prod.snd hevent)

end Registry

end TxTrace
