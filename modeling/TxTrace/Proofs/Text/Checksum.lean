import TxTrace.Address
import TxTrace.Proofs.Text.Hex
import TxTrace.Word.Lemmas

/-!
The checksum in the text of an address says nothing but which letters are upper case. The digits stay what they
are (`pairBytes_markCase`), so that no two addresses have one text (`checksum_injective`).
-/

namespace TxTrace.Address

theorem digitValue_markCase {n : Nat} (h : n < 16) (mark : Char) :
    Hex.digitValue (markCase (Hex.digit n) mark) = n := by
  have hupper : Hex.digitValue (Hex.digit n).toUpper = n := by
    revert n
    decide
  rw [markCase]
  split
  · exact hupper
  · exact Hex.digitValue_digit h

theorem map_digitValue_zipWith_markCase {digits marks : List Char}
    (hdigits : ∀ c ∈ digits, ∃ n < 16, c = Hex.digit n) (hmarks : digits.length ≤ marks.length) :
    (List.zipWith markCase digits marks).map Hex.digitValue = digits.map Hex.digitValue := by
  induction digits generalizing marks with
  | nil => rfl
  | cons c digits ih =>
    cases marks with
    | nil => simp at hmarks
    | cons mark marks =>
      obtain ⟨⟨n, hn, rfl⟩, hrest⟩ := List.forall_mem_cons.1 hdigits
      rw [List.zipWith_cons_cons, List.map_cons, List.map_cons, digitValue_markCase hn, Hex.digitValue_digit hn,
        ih hrest (Nat.le_of_succ_le_succ hmarks)]

/-- The digits of an address denote it in any case. -/
theorem pairBytes_markCase (a : Address) (hash : Word) :
    Hex.pairBytes ((List.zipWith markCase (Hex.digits a.toBytes) (Hex.digits hash.toBytes)).map Hex.digitValue) =
      a.toBytes := by
  have hmarks : (Hex.digits a.toBytes).length ≤ (Hex.digits hash.toBytes).length := by
    rw [Hex.length_digits, Hex.length_digits, length_toBytes, Word.length_toBytes]
    decide
  rw [map_digitValue_zipWith_markCase (fun c hc => Hex.exists_digit_of_mem_digits hc) hmarks, Hex.pairBytes_digits]

theorem checksum_injective : Function.Injective checksum := by
  intro a b h
  have hdigits := String.ofList_injective h
  rw [List.cons.injEq, List.cons.injEq] at hdigits
  have hbytes := congrArg (fun cs => Hex.pairBytes (cs.map Hex.digitValue)) hdigits.2.2
  rw [pairBytes_markCase, pairBytes_markCase] at hbytes
  exact Option.some.inj (by rw [← ofBytes?_toBytes, hbytes, ofBytes?_toBytes])

end TxTrace.Address
