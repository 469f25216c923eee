import Mathlib.Data.List.Dedup
import Mathlib.Data.List.Forall2
import TxTrace.Proofs.Json.Fields
import TxTrace.Registry.Artifact
import TxTrace.Result

/-!
Registries read from files. A file is refused for a key that is no address and for an artifact that describes no
contract. From one that is not, each entry is found at its address if the keys denote different addresses
(`keepsAll_ofText_iff`). An address that is written in more than one way has the contract of the last key.
-/

namespace TxTrace.Registry

variable {r r' : Registry} {entries : List (String × Artifact)} {described : List (Address × Contract)}
  {address : Address}

/-! ### Registering one entry after the other -/

/-- The key of an entry denotes an address, and its artifact describes a contract. -/
def Describes (entry : String × Artifact) (address : Address) (contract : Contract) : Prop :=
  Hex.address? entry.1 = some address ∧ entry.2.toContract = .ok contract

theorem insertArtifact_eq_ok_iff {entry : String × Artifact} :
    r.insertArtifact entry.1 entry.2 = .ok r' ↔
      ∃ d : Address × Contract, Describes entry d.1 d.2 ∧ r' = r.insert d.1 d.2 := by
  rw [insertArtifact]
  cases haddress : Hex.address? entry.1 with
  | none => simp [Describes, haddress]
  | some address =>
    dsimp only
    rw [bind_eq_ok_iff]
    constructor
    · rintro ⟨contract, hcontract, hr⟩
      exact ⟨(address, contract), ⟨haddress, hcontract⟩, (Except.ok.inj hr).symm⟩
    · rintro ⟨⟨address', contract⟩, ⟨haddress', hcontract⟩, rfl⟩
      obtain rfl : address = address' := Option.some.inj (haddress.symm.trans haddress')
      exact ⟨contract, hcontract, rfl⟩

/-- The registry with contracts at their addresses, a later one in place of an earlier one. -/
def insertAll (r : Registry) (described : List (Address × Contract)) : Registry :=
  described.foldl (fun r d => r.insert d.1 d.2) r

/-- A file is read if each of its entries is, and then the contracts are registered in their order. -/
theorem foldlM_insertArtifact_eq_ok_iff :
    entries.foldlM (fun r (key, a) => r.insertArtifact key a) r = .ok r' ↔
      ∃ described, List.Forall₂ (fun e d => Describes e d.1 d.2) entries described ∧
        r' = r.insertAll described := by
  induction entries generalizing r with
  | nil =>
    simp only [List.foldlM_nil, List.forall₂_nil_left_iff, exists_eq_left]
    exact ⟨fun h => (Except.ok.inj h).symm, fun h => congrArg Except.ok h.symm⟩
  | cons entry entries ih =>
    rw [List.foldlM_cons, bind_eq_ok_iff]
    constructor
    · rintro ⟨next, hnext, hrest⟩
      obtain ⟨d, hd, rfl⟩ := insertArtifact_eq_ok_iff.1 hnext
      obtain ⟨described, hdescribed, rfl⟩ := ih.1 hrest
      exact ⟨d :: described, .cons hd hdescribed, rfl⟩
    · rintro ⟨described, hdescribed, rfl⟩
      cases hdescribed with
      | cons hd hdescribed =>
        exact ⟨_, insertArtifact_eq_ok_iff.2 ⟨_, hd, rfl⟩, ih.2 ⟨_, hdescribed, rfl⟩⟩

/-- An address has the last contract that was registered there. -/
theorem find?_insertAll (r : Registry) (described : List (Address × Contract)) (address : Address) :
    (r.insertAll described).find? address =
      ((described.reverse.find? (·.1 == address)).map (·.2)).or (r.find? address) := by
  induction described generalizing r with
  | nil => rfl
  | cons d described ih =>
    have hstep : r.insertAll (d :: described) = (r.insert d.1 d.2).insertAll described := rfl
    rw [hstep, ih, find?_insert, List.reverse_cons, List.find?_append, List.find?_singleton, Option.map_or,
      Option.or_assoc]
    congr 1
    by_cases h : d.1 = address <;> simp [h]

theorem nodup_map_fst_entries (r : Registry) : (r.entries.map (·.1)).Nodup :=
  List.Pairwise.map _ (fun _ _ => BitVec.ne_of_lt) r.sorted

theorem mem_map_fst_entries_iff :
    address ∈ r.entries.map (·.1) ↔ ∃ contract, r.find? address = some contract := by
  simp only [find?, r.sorted.find?_eq_some_iff, List.mem_map, Prod.exists, exists_and_right, exists_eq_right]

/-! ### Entries of a file -/

/-- The entries in the text of a registry file, in the order in which they were written. -/
def writtenArtifacts? (text : String) : Option (List (String × Artifact)) := do
  let r ← Json.Record.ofJson? ["contracts"] 1 (← Json.readAs? shape text)
  let fields ← r.required "contracts" Json.fields?
  fields.mapM fun (key, json) => do return (key, ← Artifact.ofJson? json)

/-- Of entries with one key the last is taken. -/
theorem artifacts?_eq (text : String) : artifacts? text = (writtenArtifacts? text).map Json.sortFields := by
  rw [artifacts?, writtenArtifacts?]
  simp only [Option.bind_eq_bind, Option.pure_def, Function.comp_def, Option.map_eq_bind, Option.bind_assoc]

/-- What is registered of the entries of a file, in the order of their keys. -/
theorem ofText_eq_ok_iff {text : String} {written : List (String × Artifact)}
    (hwritten : writtenArtifacts? text = some written) :
    ofText text = .ok r ↔
      ∃ described, List.Forall₂ (fun e d => Describes e d.1 d.2) (Json.sortFields written) described ∧
        r = empty.insertAll described := by
  rw [ofText, artifacts?_eq, hwritten]
  exact foldlM_insertArtifact_eq_ok_iff

/-- The address that the key of an entry denotes. -/
def keyAddress? (entry : String × Artifact) : Option Address := Hex.address? entry.1

theorem exists_forall₂_describes_iff :
    (∃ described : List (Address × Contract),
        List.Forall₂ (fun e d => Describes e d.1 d.2) entries described) ↔
      ∀ e ∈ entries, ∃ address contract, Describes e address contract := by
  induction entries with
  | nil => simp
  | cons entry entries ih =>
    rw [List.forall_mem_cons, ← ih]
    constructor
    · rintro ⟨described, hdescribed⟩
      cases hdescribed with
      | cons hd hdescribed => exact ⟨⟨_, _, hd⟩, _, hdescribed⟩
    · rintro ⟨⟨address, contract, hd⟩, described, hdescribed⟩
      exact ⟨(address, contract) :: described, .cons hd hdescribed⟩

theorem map_keyAddress? (entries : List (String × Artifact)) :
    entries.map keyAddress? = (entries.map (·.1)).map Hex.address? := by
  rw [List.map_map]
  rfl

/-- The addresses that are taken are those that were written. -/
theorem mem_map_keyAddress?_iff {written : List (String × Artifact)} {a : Option Address} :
    a ∈ (Json.sortFields written).map keyAddress? ↔ a ∈ written.map keyAddress? := by
  rw [map_keyAddress?, map_keyAddress?, List.mem_map, List.mem_map]
  simp only [Json.mem_map_fst_sortFields_iff]

theorem forall_keyAddress?_iff :
    (∀ e ∈ entries, ∃ address, keyAddress? e = some address) ↔
      ∀ a ∈ entries.map keyAddress?, ∃ address, a = some address := by
  simp only [List.forall_mem_map]

/-- A file with readable entries is a registry if each key denotes an address and each artifact that is taken
    describes a contract. -/
theorem exists_ofText_eq_ok_iff {text : String} {written : List (String × Artifact)}
    (hwritten : writtenArtifacts? text = some written) :
    (∃ r, ofText text = .ok r) ↔
      (∀ e ∈ written, ∃ address, keyAddress? e = some address) ∧
        ∀ e ∈ Json.sortFields written, ∃ contract, e.2.toContract = .ok contract := by
  have hkeys : (∀ e ∈ written, ∃ address, keyAddress? e = some address) ↔
      ∀ e ∈ Json.sortFields written, ∃ address, keyAddress? e = some address := by
    rw [forall_keyAddress?_iff, forall_keyAddress?_iff]
    simp only [mem_map_keyAddress?_iff]
  have hread : (∃ r, ofText text = .ok r) ↔ ∃ described : List (Address × Contract),
      List.Forall₂ (fun e d => Describes e d.1 d.2) (Json.sortFields written) described := by
    simp only [ofText_eq_ok_iff hwritten]
    exact ⟨fun ⟨_, described, h, _⟩ => ⟨described, h⟩, fun ⟨described, h⟩ => ⟨_, described, h, rfl⟩⟩
  rw [hread, exists_forall₂_describes_iff, hkeys]
  simp only [Describes, exists_and_left, exists_and_right, keyAddress?, ← forall₂_and]

/-! ### What is found -/

/-- An address has the contract of the last key that denotes it. -/
theorem find?_eq_of_forall₂ (h : List.Forall₂ (fun e d => Describes e d.1 d.2) entries described)
    (address : Address) :
    (described.find? (·.1 == address)).map (·.2) =
      (entries.find? (keyAddress? · == some address)).bind (·.2.toContract.toOption) := by
  induction h with
  | nil => rfl
  | @cons entry d entries described hd _ ih =>
    have hkey : keyAddress? entry = some d.1 := hd.1
    rw [List.find?_cons, List.find?_cons, hkey, Option.some_beq_some]
    cases d.1 == address with
    | false => exact ih
    | true =>
      rw [Option.map_some, Option.bind_some, hd.2]
      rfl

theorem map_keyAddress?_of_forall₂ (h : List.Forall₂ (fun e d => Describes e d.1 d.2) entries described) :
    entries.map keyAddress? = described.map fun d => some d.1 := by
  induction h with
  | nil => rfl
  | cons hd _ ih => rw [List.map_cons, List.map_cons, ih, keyAddress?, hd.1]

theorem mem_map_fst_insertAll_iff :
    address ∈ (empty.insertAll described).entries.map (·.1) ↔ address ∈ described.map (·.1) := by
  have hnone : empty.find? address = none := rfl
  rw [mem_map_fst_entries_iff, find?_insertAll, hnone, Option.or_none, ← Option.isSome_iff_exists,
    Option.isSome_map, List.find?_isSome]
  simp only [List.mem_reverse, beq_iff_eq, List.mem_map]

/-- There are as many contracts as there are different addresses. -/
theorem size_insertAll (h : List.Forall₂ (fun e d => Describes e d.1 d.2) entries described) :
    (empty.insertAll described).size = (entries.map keyAddress?).dedup.length := by
  have hkeys : (((empty.insertAll described).entries.map (·.1)).map some).Perm
      (entries.map keyAddress?).dedup := by
    rw [List.perm_ext_iff_of_nodup ((nodup_map_fst_entries _).map fun _ _ => Option.some.inj)
      (List.nodup_dedup _), map_keyAddress?_of_forall₂ h]
    intro a
    have hmap : (described.map fun d => some d.1) = (described.map (·.1)).map some := by
      rw [List.map_map]
      rfl
    rw [List.mem_dedup, hmap, List.mem_map, List.mem_map]
    simp only [mem_map_fst_insertAll_iff]
  rw [size, ← hkeys.length_eq, List.length_map, List.length_map]

/-- An entry is found by what sets it apart from all others. -/
theorem find?_eq_some_of_nodup {α β : Type} [BEq β] [LawfulBEq β] {f : α → β} {l : List α} {a : α}
    (h : (l.map f).Nodup) (ha : a ∈ l) : l.find? (f · == f a) = some a := by
  have hsome : (l.find? (f · == f a)).isSome := List.find?_isSome.2 ⟨a, ha, by simp⟩
  obtain ⟨b, hb⟩ := Option.isSome_iff_exists.1 hsome
  have heq : f b = f a := by simpa using List.find?_some hb
  rw [hb, List.inj_on_of_nodup_map h (List.mem_of_find?_eq_some hb) ha heq]

/-- An address has the contract of the last key in the order of keys that denotes it. -/
theorem find?_ofText {text : String} {written : List (String × Artifact)}
    (hwritten : writtenArtifacts? text = some written) (h : ofText text = .ok r) (address : Address) :
    r.find? address =
      ((Json.sortFields written).reverse.find? (keyAddress? · == some address)).bind
        (·.2.toContract.toOption) := by
  obtain ⟨described, hdescribed, rfl⟩ := (ofText_eq_ok_iff hwritten).1 h
  have hnone : empty.find? address = none := rfl
  rw [find?_insertAll, hnone, Option.or_none,
    find?_eq_of_forall₂ (List.forall₂_reverse_iff.2 hdescribed) address]

/-- Every entry is found at the address that its key denotes, and there are as many contracts as entries. -/
def KeepsAll (r : Registry) (written : List (String × Artifact)) : Prop :=
  (∀ e ∈ written, ∃ address contract, Describes e address contract ∧ r.find? address = some contract) ∧
    r.size = written.length

theorem size_ofText {text : String} {written : List (String × Artifact)}
    (hwritten : writtenArtifacts? text = some written) (h : ofText text = .ok r) :
    r.size = (written.map keyAddress?).dedup.length := by
  obtain ⟨described, hdescribed, rfl⟩ := (ofText_eq_ok_iff hwritten).1 h
  rw [size_insertAll hdescribed]
  refine List.Perm.length_eq ((List.perm_ext_iff_of_nodup (List.nodup_dedup _) (List.nodup_dedup _)).2 ?_)
  intro a
  rw [List.mem_dedup, List.mem_dedup, mem_map_keyAddress?_iff]

theorem keepsAll_of_nodup {text : String} {written : List (String × Artifact)}
    (hwritten : writtenArtifacts? text = some written) (h : ofText text = .ok r)
    (hnodup : (written.map keyAddress?).Nodup) : r.KeepsAll written := by
  constructor
  · intro e he
    obtain ⟨described, hdescribed, -⟩ := (ofText_eq_ok_iff hwritten).1 h
    have hperm : (Json.sortFields written).Perm written := by
      rw [map_keyAddress?] at hnodup
      exact Json.perm_sortFields (List.Nodup.of_map _ hnodup)
    have htaken : e ∈ (Json.sortFields written).reverse := List.mem_reverse.2 (hperm.mem_iff.2 he)
    have hnodup' : ((Json.sortFields written).reverse.map keyAddress?).Nodup := by
      rw [List.map_reverse, List.nodup_reverse]
      exact (hperm.map _).nodup_iff.2 hnodup
    obtain ⟨address, contract, hd⟩ :=
      exists_forall₂_describes_iff.1 ⟨described, hdescribed⟩ e (hperm.mem_iff.2 he)
    have hkey : keyAddress? e = some address := hd.1
    refine ⟨address, contract, hd, ?_⟩
    rw [find?_ofText hwritten h, ← hkey, find?_eq_some_of_nodup hnodup' htaken, Option.bind_some, hd.2]
    rfl
  · rw [size_ofText hwritten h, hnodup.dedup, List.length_map]

/-- What a registry file holds is read, or the file is refused. It is read if its text is that of such a file,
    each key in it denotes an address and each artifact that is taken describes a contract, of those with one key
    the last being taken. Then an address has the contract of the last key that denotes it. So every entry is
    found at its address, and there are as many contracts as entries, exactly if all keys denote different
    addresses. -/
theorem keepsAll_ofText_iff (text : String) :
    (writtenArtifacts? text = none → ofText text = .error .invalidJson) ∧
      ∀ written, writtenArtifacts? text = some written →
        ((∃ r, ofText text = .ok r) ↔
          (∀ e ∈ written, ∃ address, keyAddress? e = some address) ∧
            ∀ e ∈ Json.sortFields written, ∃ contract, e.2.toContract = .ok contract) ∧
        ∀ r, ofText text = .ok r →
          (r.KeepsAll written ↔ (written.map keyAddress?).Nodup) ∧
            ∀ address, r.find? address =
              ((Json.sortFields written).reverse.find? (keyAddress? · == some address)).bind
                (·.2.toContract.toOption) := by
  constructor
  · intro hnone
    rw [ofText, artifacts?_eq, hnone]
    rfl
  intro written hwritten
  refine ⟨exists_ofText_eq_ok_iff hwritten, fun r h => ⟨⟨?_, keepsAll_of_nodup hwritten h⟩, ?_⟩⟩
  · rintro ⟨-, hsize⟩
    rw [size_ofText hwritten h, ← List.length_map keyAddress?] at hsize
    rw [← (List.dedup_sublist (written.map keyAddress?)).eq_of_length hsize]
    exact List.nodup_dedup _
  · exact find?_ofText hwritten h

/-- An artifact that has nothing but a name. -/
def bareArtifact (name : String) : Artifact := ⟨name, .null, none, none, none, none, [], []⟩

/-- The name of an artifact that has nothing else. -/
def bareName? : Artifact → Option String
  | ⟨name, .null, none, none, none, none, [], []⟩ => some name
  | _ => none

theorem eq_bareArtifact {a : Artifact} {name : String} (h : bareName? a = some name) :
    a = bareArtifact name := by
  unfold bareName? at h
  split at h
  · rw [← Option.some.inj h]
    rfl
  · cases h

/-- Two artifacts with their keys. -/
def pairEntries (key key' : String) : List (String × Artifact) :=
  [(key, bareArtifact "Vault"), (key', bareArtifact "Token")]

/-- Entries are read off their keys and names where they have nothing else. -/
theorem writtenArtifacts?_eq_pairEntries {text key key' : String}
    (h : (writtenArtifacts? text).map (·.map fun e => (e.1, bareName? e.2)) =
      some [(key, some "Vault"), (key', some "Token")]) :
    writtenArtifacts? text = some (pairEntries key key') := by
  obtain ⟨written, hwritten, hentries⟩ := Option.map_eq_some_iff.1 h
  obtain ⟨⟨k, a⟩, rest, rfl, hfirst, hrest⟩ := List.map_eq_cons_iff.1 hentries
  obtain ⟨⟨k', b⟩, rest, rfl, hsecond, hnil⟩ := List.map_eq_cons_iff.1 hrest
  obtain ⟨rfl, ha⟩ := Prod.mk.inj hfirst
  obtain ⟨rfl, hb⟩ := Prod.mk.inj hsecond
  obtain rfl := List.map_eq_nil_iff.1 hnil
  obtain rfl : a = bareArtifact "Vault" := eq_bareArtifact ha
  obtain rfl : b = bareArtifact "Token" := eq_bareArtifact hb
  exact hwritten

theorem exists_toContract_of_mem_pairEntries {key key' : String} :
    ∀ e ∈ Json.sortFields (pairEntries key key'), ∃ contract, e.2.toContract = .ok contract := by
  intro e he
  have hbare (name : String) : (bareArtifact name).toContract = .ok { name } := rfl
  rcases List.mem_pair.1 (Json.mem_of_mem_sortFields he) with rfl | rfl
  · exact ⟨_, hbare "Vault"⟩
  · exact ⟨_, hbare "Token"⟩

/-- A file with two addresses. -/
def differentText : String :=
  "\x7b \"contracts\": \x7b
    \"0x00000000000000000000000000000000000000bb\": \x7b \"contractName\": \"Vault\" \x7d,
    \"0x00000000000000000000000000000000000000aa\": \x7b \"contractName\": \"Token\" \x7d \x7d \x7d"

def differentEntries : List (String × Artifact) :=
  pairEntries "0x00000000000000000000000000000000000000bb" "0x00000000000000000000000000000000000000aa"

theorem writtenArtifacts?_differentText : writtenArtifacts? differentText = some differentEntries :=
  writtenArtifacts?_eq_pairEntries (by decide +kernel)

theorem map_keyAddress?_differentEntries : differentEntries.map keyAddress? = [some 0xbb, some 0xaa] := by
  decide +kernel

theorem keepsAll_ofText_iff_differentText :
    ∃ r, ofText differentText = .ok r ∧ r.KeepsAll differentEntries := by
  obtain ⟨hread, hkeeps⟩ := (keepsAll_ofText_iff differentText).2 differentEntries writtenArtifacts?_differentText
  have hkeys : ∀ e ∈ differentEntries, ∃ address, keyAddress? e = some address := by
    refine forall_keyAddress?_iff.2 ?_
    simp [map_keyAddress?_differentEntries]
  obtain ⟨r, h⟩ := hread.2 ⟨hkeys, exists_toContract_of_mem_pairEntries⟩
  refine ⟨r, h, (hkeeps r h).1.2 ?_⟩
  rw [map_keyAddress?_differentEntries]
  decide

/-- A file with one address in two spellings. -/
def twiceText : String :=
  "\x7b \"contracts\": \x7b
    \"00000000000000000000000000000000000000AA\": \x7b \"contractName\": \"Vault\" \x7d,
    \"0x00000000000000000000000000000000000000aa\": \x7b \"contractName\": \"Token\" \x7d \x7d \x7d"

def twiceEntries : List (String × Artifact) :=
  pairEntries "00000000000000000000000000000000000000AA" "0x00000000000000000000000000000000000000aa"

theorem writtenArtifacts?_twiceText : writtenArtifacts? twiceText = some twiceEntries :=
  writtenArtifacts?_eq_pairEntries (by decide +kernel)

theorem map_keyAddress?_twiceEntries : twiceEntries.map keyAddress? = [some 0xaa, some 0xaa] := by
  decide +kernel

/-- An entry is lost whose address is written in another way in a later one. -/
theorem not_forall_keepsAll :
    ¬ ∀ (text : String) (written : List (String × Artifact)) (r : Registry),
        writtenArtifacts? text = some written → ofText text = .ok r → r.KeepsAll written := by
  intro hall
  have hkeys : ∀ e ∈ twiceEntries, ∃ address, keyAddress? e = some address := by
    refine forall_keyAddress?_iff.2 ?_
    simp [map_keyAddress?_twiceEntries]
  obtain ⟨r, h⟩ := (exists_ofText_eq_ok_iff writtenArtifacts?_twiceText).2
    ⟨hkeys, exists_toContract_of_mem_pairEntries⟩
  have hsize := (hall _ _ r writtenArtifacts?_twiceText h).2
  rw [size_ofText writtenArtifacts?_twiceText h, map_keyAddress?_twiceEntries] at hsize
  exact absurd hsize (by decide)

end TxTrace.Registry
