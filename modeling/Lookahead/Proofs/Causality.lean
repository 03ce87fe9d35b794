import Lookahead.Proofs.SharedPrefix

/-!
A failure depends on the bytes up to its offset only.  Two inputs that agree beyond the offset
where one of them fails take the machine through the same states, so both fail alike, whatever the
table is; and what is appended to an input cannot move a failure back into it.
-/

namespace Lookahead.Machine

variable {machine : Machine} {table : Table} {names : NameMap} {left right : Array UInt8}

theorem getElem?_eq_of_take_eq {limit offset : Nat}
    (same : left.toList.take limit = right.toList.take limit) (early : offset < limit) :
    left[offset]? = right[offset]? := by
  rw [← Array.getElem?_toList, ← Array.getElem?_toList, ← List.getElem?_take_of_lt early, same,
    List.getElem?_take_of_lt early]

theorem exists_row_of_parse_error {error : ParseError}
    (failed : machine.parse = some (.error (.parse error))) :
    ∃ row, machine.table.row? 0 = some row := by
  cases present : machine.table.row? 0 with
  | some row => exact ⟨row, rfl⟩
  | none =>
      rw [parse, present] at failed
      split at failed <;> simp at failed

theorem exists_steps_of_parse_error {error : ParseError}
    (unreserved : endOfInputByte ∉ machine.input.toList)
    (failed : machine.parse = some (.error (.parse error))) :
    ∃ last, machine.Steps initial last ∧
      machine.step last = .stop (.error (.parse error)) ∧ last.offset = error.position := by
  obtain ⟨row, present⟩ := exists_row_of_parse_error failed
  rw [machine.parse_eq_run present unreserved] at failed
  obtain ⟨last, steps, stopped⟩ := exists_steps_of_run failed
  exact ⟨last, steps, stopped, ((stops_of_step stopped).position_eq rfl).symm⟩

theorem parse_error_of_take_eq {limit : Nat} {error : ParseError}
    (leftUnreserved : endOfInputByte ∉ left.toList)
    (rightUnreserved : endOfInputByte ∉ right.toList)
    (same : left.toList.take limit = right.toList.take limit)
    (failed : Machine.parse ⟨table, names, left⟩ = some (.error (.parse error)))
    (early : error.position < limit) :
    Machine.parse ⟨table, names, right⟩ = some (.error (.parse error)) := by
  obtain ⟨row, present⟩ := exists_row_of_parse_error failed
  obtain ⟨last, steps, stopped, positionIs⟩ := exists_steps_of_parse_error leftUnreserved failed
  -- The state that fails looks at the input at its own offset only.
  have agree : ∀ offset ≤ error.position, left[offset]? = right[offset]? := by
    intro offset before
    exact getElem?_eq_of_take_eq same (Nat.lt_of_le_of_lt before early)
  rw [parse_eq_run ⟨table, names, right⟩ present rightUnreserved]
  exact run_eq_of_agree agree steps stopped (Nat.le_of_eq positionIs)

/-- Whatever the table, inputs that begin alike fail alike: an error below the offset up to which
they agree is the error of both.  So when an input parses or fails at its end, it fails no earlier
with more input behind it. -/
theorem parse_error_depends_on_bytes_read (table : Table) (names : NameMap) :
    (∀ (left right : Array UInt8) (limit : Nat) (error : ParseError),
      endOfInputByte ∉ left.toList → endOfInputByte ∉ right.toList →
      left.toList.take limit = right.toList.take limit →
      Machine.parse ⟨table, names, left⟩ = some (.error (.parse error)) →
      error.position < limit →
      Machine.parse ⟨table, names, right⟩ = some (.error (.parse error))) ∧
    ∀ (input more : Array UInt8) (error : ParseError),
      endOfInputByte ∉ (input ++ more).toList →
      ((∃ tree, Machine.parse ⟨table, names, input⟩ = some (.ok tree)) ∨
        ∃ failure, Machine.parse ⟨table, names, input⟩ = some (.error (.parse failure)) ∧
          input.size ≤ failure.position) →
      Machine.parse ⟨table, names, input ++ more⟩ = some (.error (.parse error)) →
      input.size ≤ error.position := by
  constructor
  · intro left right limit error leftUnreserved rightUnreserved same failed early
    exact parse_error_of_take_eq leftUnreserved rightUnreserved same failed early
  · intro input more error unreserved ends failed
    by_contra inside
    have early : error.position < input.size := Nat.lt_of_not_le inside
    have alone : endOfInputByte ∉ input.toList := fun member =>
      unreserved (by simp [Array.toList_append, member])
    have same : (input ++ more).toList.take input.size = input.toList.take input.size := by
      rw [Array.toList_append, List.take_append_of_le_length (by simp)]
    -- With nothing behind it, the input would fail at the same offset.
    have again := parse_error_of_take_eq unreserved alone same failed early
    rcases ends with ⟨tree, parsed⟩ | ⟨failure, other, late⟩
    · simp [parsed] at again
    · rw [other] at again
      obtain rfl : failure = error := by simpa using again
      omega

def pairTable : Table :=
  ⟨#[some (.uniform [.matchLiteral [97], .matchLiteral [98]])]⟩

theorem pairTable_parse_error :
    Machine.parse ⟨pairTable, .empty, #[97, 99, 99]⟩ =
        some (.error (.parse (.unexpectedByte (.byte 98) 99 1))) ∧
      Machine.parse ⟨pairTable, .empty, #[97, 99]⟩ =
        some (.error (.parse (.unexpectedByte (.byte 98) 99 1))) ∧
      Machine.parse ⟨pairTable, .empty, #[97, 98] ++ #[99]⟩ =
        some (.error (.parse (.trailingInput 99 2))) ∧
      2 ≤ (ParseError.trailingInput 99 2).position := by
  have middle : Machine.parse ⟨pairTable, .empty, #[97, 99, 99]⟩ =
      some (.error (.parse (.unexpectedByte (.byte 98) 99 1))) := by
    rw [parse_eq_run _ rfl (by decide)]
    exact (run_eq_some_iff .refl).mpr ⟨6, rfl⟩
  have whole : Machine.parse ⟨pairTable, .empty, #[97, 98]⟩ =
      some (.ok ⟨.node 2 (.rule 0) ⟨0, 2⟩
        [.node 0 .literal ⟨0, 1⟩ [], .node 1 .literal ⟨1, 2⟩ []], 3⟩) := by
    rw [parse_eq_run _ rfl (by decide)]
    exact (run_eq_some_iff .refl).mpr ⟨9, rfl⟩
  have behind : Machine.parse ⟨pairTable, .empty, #[97, 98] ++ #[99]⟩ =
      some (.error (.parse (.trailingInput 99 2))) := by
    rw [parse_eq_run _ rfl (by decide)]
    exact (run_eq_some_iff .refl).mpr ⟨9, rfl⟩
  obtain ⟨alike, later⟩ := parse_error_depends_on_bytes_read pairTable .empty
  refine ⟨middle, ?_, behind, later _ _ _ (by decide) (Or.inl ⟨_, whole⟩) behind⟩
  exact alike #[97, 99, 99] #[97, 99] 2 _ (by decide) (by decide) rfl middle (by decide)

end Lookahead.Machine
