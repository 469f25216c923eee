import TxTrace.Abi.Interface
import TxTrace.Proofs.Abi.Dimensions

/-!
Declarations of parameters. What is written for a type reads back as that type, the names of members
included, and stands in signatures as its canonical text (`Declaration.declares_ofTy`), as long as every
tuple has members and no member is named by the empty text. So an entry that is built from types is the
one that is loaded from its declarations (`Entry.loaded_eq_built`).
-/

namespace TxTrace.Abi

namespace Ty

/-- The type inside all array dimensions. -/
def base : Ty → Ty
  | array elem => elem.base
  | fixedArray elem _ => elem.base
  | ty => ty

/-- The text of the array dimensions, such as `[][3]`, the innermost first. -/
def dimensions : Ty → String
  | array elem => elem.dimensions ++ "[]"
  | fixedArray elem size => elem.dimensions ++ "[" ++ toString size.toNat ++ "]"
  | _ => ""

mutual

/-- Every tuple in the type has members, and none is named by the empty text. -/
def isDeclarable : Ty → Bool
  | array elem => elem.isDeclarable
  | fixedArray elem _ => elem.isDeclarable
  | tuple members => !members.isEmpty && areDeclarable members
  | _ => true

def areDeclarable : List (Member Ty) → Bool
  | [] => true
  | m :: ms => m.name != some "" && m.val.isDeclarable && areDeclarable ms

end

theorem canonical_eq_append (ty : Ty) : ty.canonical = ty.base.canonical ++ ty.dimensions := by
  induction ty using Ty.induct with
  | array elem ih => rw [canonical, ih, base, dimensions, String.append_assoc]
  | fixedArray elem size ih =>
    rw [canonical, ih, base, dimensions]
    simp only [String.append_assoc]
  | _ => exact String.append_empty.symm

theorem isBlank_dimensions (ty : Ty) : ∀ c ∈ ty.dimensions.toList, Text.isBlank c = false := by
  intro c hc
  have hnested : Nested ty.canonical.toList :=
    ((spells_canonical ty).imp fun _ _ h => h.padded).nested
  apply hnested.isBlank_eq_false
  rw [canonical_eq_append, String.toList_append]
  exact List.mem_append_right _ hc

/-- The dimensions of a type are around its base. -/
theorem wrap?_dimensions (ty : Ty) : ty.base.wrap? ty.dimensions.toList = some ty := by
  induction ty using Ty.induct with
  | array elem ih =>
    have hbrackets : elem.wrap? ['[', ']'] = (elem.withSize? []).bind fun e => e.wrap? [] :=
      wrap?_brackets List.not_mem_nil
    rw [base, dimensions, String.toList_append, wrap?_append ih]
    exact hbrackets.trans (wrap?_nil _)
  | fixedArray elem size ih =>
    have hdigits : Text.Padded size.toNat (toString size.toNat).toList :=
      (digits_toString size.toNat).padded
    have hclose : ']' ∉ (toString size.toNat).toList := fun hc =>
      absurd (isWordChar_of_mem (isWord_of_padded hdigits) hc) (by decide)
    have hsize : elem.withSize? (toString size.toNat).toList = some (fixedArray elem size) :=
      withSize?_eq_some_iff.2 (.inr ⟨size, hdigits, rfl⟩)
    have hbrackets : elem.wrap? ('[' :: ((toString size.toNat).toList ++ [']'])) =
        (elem.withSize? (toString size.toNat).toList).bind fun e => e.wrap? [] := wrap?_brackets hclose
    simp only [base, dimensions, String.toList_append, List.append_assoc]
    rw [wrap?_append ih]
    exact hbrackets.trans (by rw [hsize, Option.bind_some, wrap?_nil])
  | _ => exact wrap?_nil _

theorem unnamed_eq_self {ty : Ty} (h : ∀ members, ty.base ≠ tuple members) : ty.unnamed = ty := by
  induction ty using Ty.induct with
  | array elem ih => rw [unnamed, ih h]
  | fixedArray elem size ih => rw [unnamed, ih h]
  | tuple members => exact absurd rfl (h members)
  | _ => rfl

end Ty

namespace Declaration

open Ty

/-- The declaration reads as the type, and as its text in a signature. -/
structure Declares (d : Declaration) (ty : Ty) : Prop where
  toTy : d.toTy = .ok ty
  signature : d.signature = ty.canonical

/-- The declarations read as the members of a tuple, and as their texts in a signature. -/
structure DeclareMembers (ds : List Declaration) (members : List (Member Ty)) : Prop where
  toMembers : toMembers ds = .ok members
  signatures : signatures ds = canonicalMembers members

/-- Dimensions are written behind the kind of the type inside them. -/
theorem ofTy_eq (name : String) (ty : Ty) :
    ofTy name ty = { ofTy name ty.base with type := (ofTy name ty.base).type ++ ty.dimensions } := by
  induction ty using Ty.induct with
  | array elem ih =>
    rw [ofTy, ih, base, dimensions]
    simp only [String.append_assoc]
  | fixedArray elem size ih =>
    rw [ofTy, ih, base, dimensions]
    simp only [String.append_assoc]
  | _ => simp [ofTy, base, dimensions]

theorem tupleSuffix?_append (suffix : String) : tupleSuffix? ("tuple" ++ suffix) = some suffix := by
  rw [tupleSuffix?, String.toList_append]
  simp

/-- The text of a type that is neither an array nor a tuple is no `tuple` with dimensions. -/
theorem ofTy_base {ty : Ty} (name : String) (h : ∀ members, ty.base ≠ tuple members) :
    ofTy name ty.base = ⟨name, ty.base.canonical, []⟩ ∧
      ∀ dims, tupleSuffix? (ty.base.canonical ++ dims) = none := by
  induction ty using Ty.induct with
  | array elem ih => exact ih h
  | fixedArray elem size ih => exact ih h
  | tuple members => exact absurd rfl (h members)
  | _ => simp [base, ofTy, tupleSuffix?, canonical]

theorem declares_ofTy_of_ne_tuple {ty : Ty} (name : String) (h : ∀ members, ty.base ≠ tuple members) :
    Declares (ofTy name ty) ty := by
  obtain ⟨hbase, htuple⟩ := ofTy_base name h
  rw [ofTy_eq, hbase, ← canonical_eq_append]
  have hnone : tupleSuffix? ty.canonical = none := by rw [canonical_eq_append, htuple]
  constructor
  · rw [Declaration.toTy, hnone]
    exact (parse_canonical ty).trans (by rw [unnamed_eq_self h])
  · rw [Declaration.signature]
    rfl

/-- A tuple, with dimensions or without, is declared by its members. -/
theorem declares_ofTy_of_tuple {ty : Ty} {members : List (Member Ty)} (name : String)
    (hbase : ty.base = tuple members) (hne : members ≠ [])
    (hmembers : DeclareMembers (ofMembers members) members) : Declares (ofTy name ty) ty := by
  have hne' : ofMembers members ≠ [] := by
    cases members with
    | nil => exact absurd rfl hne
    | cons m ms => exact List.cons_ne_nil _ _
  rw [ofTy_eq, hbase, ofTy]
  constructor
  · rw [toTy_tuple hne' hmembers.toMembers, withArraySuffix_eq_ok_iff ty.isBlank_dimensions, ← hbase]
    exact ty.wrap?_dimensions
  · rw [Declaration.signature, if_neg (by simpa using hne'), hmembers.signatures, tupleSuffix?_append,
      canonical_eq_append, hbase, canonical]
    rfl

/-- A type is declared by what is written for it if a tuple inside its dimensions is. -/
theorem declares_ofTy_of_base {ty : Ty} (name : String)
    (h : ∀ members, ty.base = tuple members →
      members ≠ [] ∧ DeclareMembers (ofMembers members) members) : Declares (ofTy name ty) ty := by
  by_cases htuple : ∃ members, ty.base = tuple members
  · obtain ⟨members, hbase⟩ := htuple
    obtain ⟨hne, hmembers⟩ := h members hbase
    exact declares_ofTy_of_tuple name hbase hne hmembers
  · exact declares_ofTy_of_ne_tuple name (not_exists.1 htuple)

theorem name_ofTy (name : String) (ty : Ty) : (ofTy name ty).name = name := by
  induction ty using Ty.induct with
  | array elem ih => rw [ofTy, ih]
  | fixedArray elem size ih => rw [ofTy, ih]
  | _ => simp [ofTy]

/-- An absent name is written as the empty text, which is read as no name. -/
theorem DeclareMembers.cons {m : Member Ty} {ms : List (Member Ty)} (hname : m.name ≠ some "")
    (hm : Declares (ofTy (m.name.getD "") m.val) m.val) (hms : DeclareMembers (ofMembers ms) ms) :
    DeclareMembers (ofMembers (m :: ms)) (m :: ms) := by
  obtain ⟨name, ty⟩ := m
  have hread : (if (name.getD "").isEmpty then none else some (name.getD "")) = name := by
    cases name with
    | none => rfl
    | some text => exact if_neg fun hempty => hname (congrArg some (String.isEmpty_iff.1 hempty))
  constructor
  · rw [ofMembers, Declaration.toMembers, hm.toTy, hms.toMembers, name_ofTy, hread]
    rfl
  · rw [ofMembers, Declaration.signatures, hm.signature, hms.signatures, canonicalMembers]

theorem declareMembers_ofMembers {members : List (Member Ty)} (h : areDeclarable members)
    (hdeclares : ∀ m ∈ members, ∀ name, m.val.isDeclarable → Declares (ofTy name m.val) m.val) :
    DeclareMembers (ofMembers members) members := by
  induction members with
  | nil => exact ⟨rfl, rfl⟩
  | cons m ms ih =>
    simp only [areDeclarable, Bool.and_eq_true, bne_iff_ne] at h
    obtain ⟨⟨hname, hm⟩, hms⟩ := h
    refine .cons hname (hdeclares m List.mem_cons_self _ hm) (ih hms fun m' hm' => ?_)
    exact hdeclares m' (List.mem_cons_of_mem _ hm')

/-- What is written for a type declares it. -/
theorem declares_ofTy (name : String) {ty : Ty} (h : ty.isDeclarable) :
    Declares (ofTy name ty) ty := by
  apply declares_ofTy_of_base
  -- The induction is on the tuple inside the dimensions, which go around it all at once.
  induction ty using Ty.induct with
  | array elem ih => exact ih h
  | fixedArray elem size ih => exact ih h
  | tuple members ih =>
    rintro _ ⟨⟩
    simp only [isDeclarable, Bool.and_eq_true, Bool.not_eq_true', List.isEmpty_eq_false_iff] at h
    refine ⟨h.1, declareMembers_ofMembers h.2 fun m hm name hdeclarable => ?_⟩
    exact declares_ofTy_of_base name (ih m hm hdeclarable)
  | _ => exact fun members heq => nomatch heq

theorem signatures_eq_map (ds : List Declaration) : signatures ds = ds.map signature := by
  induction ds with
  | nil => rfl
  | cons d ds ih => rw [signatures, ih, List.map_cons]

end Declaration

/-! ### Entries -/

variable {inputs outputs : List Parameter}

/-- The parameters of an entry are declared by what is written for their types. -/
theorem signatures_map_declaration (h : ∀ p ∈ inputs, p.type.isDeclarable) :
    Declaration.signatures (inputs.map (·.declaration)) = inputs.map (·.type.canonical) := by
  rw [Declaration.signatures_eq_map, List.map_map]
  exact List.map_congr_left fun p hp => (Declaration.declares_ofTy p.name (h p hp)).signature

theorem eventParameters_map_declaration (h : ∀ p ∈ inputs, p.type.isDeclarable) :
    eventParameters (inputs.map fun p => (p.declaration, p.indexed)) = .ok inputs := by
  rw [eventParameters, mapM_eq_ok_iff, List.forall₂_map_left_iff, List.forall₂_same]
  intro p hp
  have hty := (Declaration.declares_ofTy p.name (h p hp)).toTy
  simp only [Parameter.declaration, hty, Declaration.name_ofTy]
  rfl

theorem parameters_map_declaration (h : ∀ p ∈ inputs, p.type.isDeclarable)
    (hindexed : ∀ p ∈ inputs, p.indexed = false) :
    parameters (inputs.map (·.declaration)) = .ok inputs := by
  rw [parameters, mapM_eq_ok_iff, List.forall₂_map_left_iff, List.forall₂_same]
  intro p hp
  have hty := (Declaration.declares_ofTy p.name (h p hp)).toTy
  simp only [Parameter.declaration, hty, Declaration.name_ofTy, ← hindexed p hp]
  rfl

namespace Interface

theorem ofItems_event (name : String) (h : ∀ p ∈ inputs, p.type.isDeclarable) :
    ofItems [.event name (inputs.map fun p => (p.declaration, p.indexed)) false] =
      .ok { empty with events := [.event name inputs] } := by
  have hinputs := eventParameters_map_declaration h
  simp [ofItems, sortedItems, empty, hinputs, Entry.event, Function.comp_def]

theorem ofItems_function (name : String) (hin : ∀ p ∈ inputs, p.type.isDeclarable)
    (hout : ∀ p ∈ outputs, p.type.isDeclarable) (hindexed : ∀ p ∈ inputs ++ outputs, p.indexed = false) :
    ofItems [.function name (inputs.map (·.declaration)) (outputs.map (·.declaration))] =
      .ok { empty with functions := [.function name inputs outputs] } := by
  have hinputs := parameters_map_declaration hin fun p hp => hindexed p (List.mem_append_left _ hp)
  have houtputs := parameters_map_declaration hout fun p hp => hindexed p (List.mem_append_right _ hp)
  simp [ofItems, sortedItems, empty, hinputs, houtputs, Entry.function, ok_bind]

theorem ofItems_error (name : String) (h : ∀ p ∈ inputs, p.type.isDeclarable)
    (hindexed : ∀ p ∈ inputs, p.indexed = false) :
    ofItems [.error name (inputs.map (·.declaration))] =
      .ok { empty with errors := [.error name inputs] } := by
  have hinputs := parameters_map_declaration h hindexed
  simp [ofItems, sortedItems, empty, hinputs, Entry.error]

end Interface

namespace Entry

/-- The declaration of a parameter reads as its type, so an entry that is built from types has the
    signature of their canonical texts, and is the one that is loaded from its declarations. Only the
    parameters of events can be loaded as indexed. -/
theorem built_eq_loaded (name : String) (inputs outputs : List Parameter)
    (hin : ∀ p ∈ inputs, p.type.isDeclarable) (hout : ∀ p ∈ outputs, p.type.isDeclarable) :
    (∀ p ∈ inputs, p.declaration.toTy = .ok p.type) ∧
    (function name inputs outputs).signature = signatureOf name (inputs.map (·.type.canonical)) ∧
    (event name inputs).signature = signatureOf name (inputs.map (·.type.canonical)) ∧
    (error name inputs).signature = signatureOf name (inputs.map (·.type.canonical)) ∧
    (constructor inputs).signature = signatureOf "constructor" (inputs.map (·.type.canonical)) ∧
    Interface.ofItems [.event name (inputs.map fun p => (p.declaration, p.indexed)) false] =
      .ok { Interface.empty with events := [event name inputs] } ∧
    ((∀ p ∈ inputs ++ outputs, p.indexed = false) →
      Interface.ofItems [.function name (inputs.map (·.declaration)) (outputs.map (·.declaration))] =
          .ok { Interface.empty with functions := [function name inputs outputs] } ∧
        Interface.ofItems [.error name (inputs.map (·.declaration))] =
          .ok { Interface.empty with errors := [error name inputs] }) := by
  have hsignature := congrArg (signatureOf name) (signatures_map_declaration hin)
  refine ⟨fun p hp => (Declaration.declares_ofTy p.name (hin p hp)).toTy, hsignature, hsignature,
    hsignature, rfl, Interface.ofItems_event name hin, fun hindexed => ?_⟩
  refine ⟨Interface.ofItems_function name hin hout hindexed, Interface.ofItems_error name hin ?_⟩
  exact fun p hp => hindexed p (List.mem_append_left _ hp)

/-- Tuples in two layers of dimensions, and a tuple in a tuple, with names and without. -/
theorem built_eq_loaded_orders :
    let line : Ty := .tuple [⟨some "item", .address⟩, ⟨none, .fixedArray (.uint .word) 3⟩]
    let order : Ty := .array (.fixedArray (.tuple [⟨some "lines", .array line⟩, ⟨none, .bytes⟩]) 2)
    line.isDeclarable ∧ order.isDeclarable ∧ (Parameter.mk "orders" order true).declaration.toTy = .ok order ∧
      (event "Filled" [⟨"orders", order, true⟩]).signature =
        "Filled(((address,uint256[3])[],bytes)[2][])" := by
  intro line order
  have hinputs : ∀ p ∈ [Parameter.mk "orders" order true], p.type.isDeclarable := by
    intro p hp
    obtain rfl := List.mem_singleton.1 hp
    rfl
  have hbuilt := built_eq_loaded "Filled" [⟨"orders", order, true⟩] [] hinputs (fun p hp => nomatch hp)
  refine ⟨rfl, rfl, hbuilt.1 _ List.mem_cons_self, hbuilt.2.2.1.trans ?_⟩
  cbv

end Entry

end TxTrace.Abi
