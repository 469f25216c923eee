import TxTrace.Abi.Ty
import TxTrace.Text.Blank

/-!
Reading types from text, such as `uint256`, `bytes32[]` or `(address,uint8)[2]`. White space may
stand around a type and around each member of a tuple.
-/

namespace TxTrace.Abi

/-- Why a text is not a type. Both hold the text at fault. -/
inductive TypeError where
  | invalid (text : String)
  /-- A bare `tuple`, whose members are not known. -/
  | missingComponents (text : String)
deriving DecidableEq, Repr

def TypeError.message : TypeError → String
  | .invalid text => s!"Invalid ABI type '{text}'"
  | .missingComponents text => s!"Tuple type '{text}' has no components"

namespace Ty

/-- What the outermost brackets of a type's text say it is. -/
inductive Outline where
  /-- `elem[size]`, with the last opening bracket. -/
  | array (elem size : List Char)
  /-- A closing bracket that nothing opens. -/
  | unopened
  /-- `(body)` -/
  | tuple (body : List Char)
  | name (text : List Char)

/-- The outline of a text without white space at its ends. -/
def Outline.of (s : List Char) : Outline :=
  match s.reverse with
  | ']' :: rest =>
    match rest.dropWhile (· != '[') with
    | _ :: elem => .array elem.reverse (rest.takeWhile (· != '[')).reverse
    | [] => .unopened
  | ')' :: rest =>
    match rest.reverse with
    | '(' :: body => .tuple body
    | _ => .name s
  | _ => .name s

theorem Outline.length_elem_lt {s elem size : List Char} (h : Outline.of s = .array elem size) :
    elem.length < s.length := by
  have hrev : s.reverse.length = s.length := List.length_reverse
  rw [← hrev]
  unfold Outline.of at h
  split at h
  · next rest hs =>
    split at h
    · next c rev hd =>
      have hle := Text.length_dropWhile_le (· != '[') rest
      rw [hd] at hle
      simp only [array.injEq] at h
      rw [hs, ← h.1]
      simp only [List.length_reverse, List.length_cons] at hle ⊢
      omega
    · cases h
  · split at h <;> cases h
  · cases h

theorem Outline.length_body_lt {s body : List Char} (h : Outline.of s = .tuple body) :
    body.length < s.length := by
  have hrev : s.reverse.length = s.length := List.length_reverse
  rw [← hrev]
  unfold Outline.of at h
  split at h
  · split at h <;> cases h
  · next rest hs =>
    split at h
    · next b hb =>
      have hlen := congrArg List.length hb
      simp only [tuple.injEq] at h
      rw [hs, ← h]
      simp only [List.length_reverse, List.length_cons] at hlen ⊢
      omega
    · cases h
  · cases h

/-- A text cut at the commas that no parenthesis encloses, `current` being the part at hand, last
    character first. A parenthesis that nothing opens is no nesting. -/
def splitAt : (depth : Nat) → (current : List Char) → List Char → List (List Char)
  | _, current, [] => [current.reverse]
  | depth, current, c :: cs =>
    if c = ',' ∧ depth = 0 then current.reverse :: splitAt 0 [] cs
    else
      let depth := if c = '(' then depth + 1 else if c = ')' then depth - 1 else depth
      splitAt depth (c :: current) cs

/-- The texts of the members of a tuple with the body `body`. -/
def memberTexts (body : List Char) : List (List Char) :=
  if (Text.trim body).isEmpty then [] else splitAt 0 [] body

theorem length_le_of_mem_splitAt {depth : Nat} {current cs part : List Char}
    (h : part ∈ splitAt depth current cs) : part.length ≤ current.length + cs.length := by
  induction cs generalizing depth current with
  | nil =>
    simp only [splitAt, List.mem_singleton] at h
    simp [h]
  | cons c cs ih =>
    simp only [splitAt] at h
    split at h
    · rcases List.mem_cons.1 h with rfl | h
      · simp
      · have := ih h
        simp only [List.length_nil, List.length_cons] at this ⊢
        omega
    · have := ih h
      simp only [List.length_cons] at this ⊢
      omega

theorem length_le_of_mem_memberTexts {body part : List Char} (h : part ∈ memberTexts body) :
    part.length ≤ body.length := by
  unfold memberTexts at h
  split at h
  · cases h
  · simpa using length_le_of_mem_splitAt h

/-- The type that a bare name stands for. -/
def ofName? : String → Option Ty
  | "address" => some address
  | "bool" => some bool
  | "string" => some string
  | "bytes" => some bytes
  | "uint" => some (uint Width.word)
  | "int" => some (int Width.word)
  | "function" => some function
  | _ => none

/-- The type that a name followed by a size stands for. -/
def ofSized? : List Char → Option Ty
  | 'u' :: 'i' :: 'n' :: 't' :: bits =>
    (Text.readU64 bits).toOption.bind Width.ofBits? |>.map uint
  | 'i' :: 'n' :: 't' :: bits => (Text.readU64 bits).toOption.bind Width.ofBits? |>.map int
  | 'b' :: 'y' :: 't' :: 'e' :: 's' :: size =>
    (Text.readU64 size).toOption.bind Width.ofBytes? |>.map fixedBytes
  | _ => none

/-- The array of `elem` whose size is written `size`: none for the empty text. -/
def withSize? (elem : Ty) (size : List Char) : Option Ty :=
  if size.isEmpty then some (array elem)
  else (Text.readU64 size).toOption.map fun n => fixedArray elem (UInt64.ofNat n)

/-- The type that the characters `text` denote. The error names the innermost text at fault. -/
def parseChars (text : List Char) : Except TypeError Ty :=
  match h : Outline.of (Text.trim text) with
  | .array elem size => do
    have : elem.length < text.length :=
      Nat.lt_of_lt_of_le (Outline.length_elem_lt h) (Text.length_trim_le text)
    let elem ← parseChars elem
    match elem.withSize? size with
    | some ty => return ty
    | none => throw (.invalid (String.ofList text))
  | .unopened => throw (.invalid (String.ofList text))
  | .tuple body => do
    let members ← (memberTexts body).attach.mapM fun ⟨part, hpart⟩ =>
      have : part.length < text.length :=
        Nat.lt_of_le_of_lt (length_le_of_mem_memberTexts hpart)
          (Nat.lt_of_lt_of_le (Outline.length_body_lt h) (Text.length_trim_le text))
      parseChars part
    return tuple (members.map Member.unnamed)
  | .name name =>
    match (ofName? (String.ofList name)).or (ofSized? name) with
    | some ty => return ty
    | none =>
      if name = "tuple".toList then throw (.missingComponents (String.ofList text))
      else throw (.invalid (String.ofList text))
termination_by text.length

def parse (text : String) : Except TypeError Ty := parseChars text.toList

/-- A type with the array dimensions `dimensions`, such as `[][3]`, around it. -/
def wrap? (ty : Ty) : (dimensions : List Char) → Option Ty
  | [] => some ty
  | '[' :: rest =>
    match h : rest.dropWhile (· != ']') with
    | _ :: after =>
      have : after.length < rest.length + 1 := by
        have hle := Text.length_dropWhile_le (· != ']') rest
        rw [h, List.length_cons] at hle
        omega
      (ty.withSize? (rest.takeWhile (· != ']'))).bind fun ty => wrap? ty after
    | [] => none
  | _ => none
termination_by dimensions => dimensions.length

/-- A type with the array dimensions of a suffix, such as `[][3]`, around it. -/
def withArraySuffix (ty : Ty) (suffix : String) : Except TypeError Ty :=
  match ty.wrap? (Text.trim suffix.toList) with
  | some ty => .ok ty
  | none => .error (.invalid suffix)

end Ty

end TxTrace.Abi
