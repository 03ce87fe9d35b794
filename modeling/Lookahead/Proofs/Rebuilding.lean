import Lookahead.Enumeration.Samples
import Lookahead.Proofs.Correctness
import Lookahead.Proofs.Describing
import Lookahead.Proofs.Naming

/-!
Programs rebuild what they are emitted for.  The calls fill a row alternative by alternative, so
they give back every row whose cells all point at alternatives of the row, and with the rows the
table and the names.
-/

namespace Lookahead

namespace Row

theorem ext_cell {left right : Row} (alternatives : left.alternatives = right.alternatives)
    (cells : ∀ byte, left.cell byte = right.cell byte) : left = right := by
  obtain ⟨leftAlternatives, leftCells⟩ := left
  obtain ⟨rightAlternatives, rightCells⟩ := right
  obtain rfl : leftAlternatives = rightAlternatives := alternatives
  congr 1
  apply Vector.ext
  intro place bound
  have here := cells (UInt8.ofNat place)
  have small : place < UInt8.size := bound
  simp only [cell, Cells.entry, Vector.get, UInt8.toNat_ofNat_of_lt' small] at here
  exact here

/-! ### Assigning -/

theorem foldlM_assign {place : Nat} {bytes : List UInt8} (row : Row)
    (vacant : ∀ byte ∈ bytes, ∀ existing, row.cell byte = some existing → existing = place) :
    ∃ filled, bytes.foldlM (fun row byte => row.assign byte place) row = .ok filled ∧
      filled.alternatives = row.alternatives ∧
      ∀ byte, filled.cell byte = if byte ∈ bytes then some place else row.cell byte := by
  induction bytes generalizing row with
  | nil => exact ⟨row, rfl, rfl, by simp⟩
  | cons first rest ih =>
      obtain ⟨here, later⟩ := List.forall_mem_cons.mp vacant
      obtain ⟨filled, success, alternatives, cells⟩ := ih (row.point first place) <| by
        intro byte member existing points
        rw [cell_point] at points
        split at points
        · exact (Option.some.inj points).symm
        · exact later byte member existing points
      refine ⟨filled, ?_, alternatives, fun byte => ?_⟩
      · rw [List.foldlM_cons, assign_eq_ok here]
        exact success
      · rw [cells, cell_point]
        by_cases same : byte = first
        · simp [same]
        · simp [same]

/-- Every cell that points anywhere points at an alternative of the row. -/
def Settled (row : Row) : Prop :=
  ∀ byte place, row.cell byte = some place → place < row.alternatives.size

/-- The row begins with the alternatives of the part, and the part has its cells as far as they
point at these. -/
structure Part (row part : Row) (later : List (List Operation)) : Prop where
  alternatives : row.alternatives.toList = part.alternatives.toList ++ later
  cells : ∀ byte, part.cell byte = (row.cell byte).filter (· < part.alternatives.size)

theorem part_empty (row : Row) : row.Part empty row.alternatives.toList := by
  refine ⟨rfl, fun byte => ?_⟩
  have vacant : empty.alternatives.size = 0 := rfl
  rw [cell_empty, vacant]
  cases row.cell byte with
  | none => rfl
  | some place => simp [Option.filter]

theorem Part.eq {row part : Row} (whole : row.Part part []) (settled : row.Settled) :
    part = row := by
  have alternatives : part.alternatives = row.alternatives :=
    Array.toList_inj.mp (by simpa using whole.alternatives.symm)
  refine ext_cell alternatives fun byte => ?_
  rw [whole.cells, alternatives]
  cases points : row.cell byte with
  | none => rfl
  | some place => simp [Option.filter, settled byte place points]

end Row

namespace RowCalls

theorem mem_bytesOf {row : Row} {place : Nat} {byte : UInt8} :
    byte ∈ row.bytesOf place ↔ row.cell byte = some place := by
  simp [Row.bytesOf, ByteSet.mem_allBytes]

theorem exists_addAlternative {row part : Row} {operations : List Operation}
    {later : List (List Operation)} (begun : row.Part part (operations :: later)) :
    ∃ next, addAlternative part ⟨operations, row.bytesOf part.alternatives.size⟩ = .ok next ∧
      next.alternatives = part.alternatives.push operations ∧ row.Part next later := by
  have vacant : ∀ byte ∈ row.bytesOf part.alternatives.size, ∀ existing,
      (part.push operations).cell byte = some existing → existing = part.alternatives.size := by
    intro byte member existing points
    rw [Row.cell_push, begun.cells, mem_bytesOf.mp member] at points
    simp [Option.filter] at points
  obtain ⟨next, success, alternatives, cells⟩ := Row.foldlM_assign _ vacant
  refine ⟨next, success, alternatives, ?_, fun byte => ?_⟩
  · rw [alternatives]
    simpa [Row.push] using begun.alternatives
  · have size : next.alternatives.size = part.alternatives.size + 1 := by
      simp [alternatives, Row.push]
    simp only [cells, Row.cell_push, begun.cells, mem_bytesOf, size]
    cases points : row.cell byte with
    | none => simp
    | some place =>
        by_cases same : place = part.alternatives.size
        · simp [Option.filter, same]
        · have less : place < part.alternatives.size + 1 ↔ place < part.alternatives.size := by
            omega
          simp [Option.filter, same, less]

theorem foldlM_addAlternative {row part : Row} {later : List (List Operation)}
    (settled : row.Settled) (begun : row.Part part later) :
    ((later.zipIdx part.alternatives.size).map fun (operations, place) =>
        (⟨operations, row.bytesOf place⟩ : AlternativeCalls)).foldlM addAlternative part =
      .ok row := by
  induction later generalizing part with
  | nil => exact congrArg Except.ok (begun.eq settled)
  | cons operations later ih =>
      obtain ⟨next, success, alternatives, goes⟩ := exists_addAlternative begun
      rw [List.zipIdx_cons, List.map_cons, List.foldlM_cons, success]
      have rest := ih goes
      rw [alternatives, Array.size_push] at rest
      exact rest

theorem build_ofRow (rule : Nat) {row : Row} (settled : row.Settled) :
    (ofRow rule row).build = .ok row :=
  foldlM_addAlternative settled row.part_empty

end RowCalls

namespace Table

theorem presentRows_ofRows (rows : List Row) :
    (ofRows rows).presentRows = rows.zipIdx.map fun (row, id) => (id, row) := by
  simp [presentRows, ofRows, List.zipIdx_map, List.filterMap_map]

end Table

namespace Program

theorem foldlM_build {rows : List Row} (settled : ∀ row ∈ rows, row.Settled) :
    (rows.zipIdx.map fun (row, id) => RowCalls.ofRow id row).foldlM
        (fun (table : Table) calls => return table.insertRow calls.rule (← calls.build))
        Table.empty =
      .ok (Table.ofRows rows) := by
  have built : (rows.zipIdx.map fun (row, id) => RowCalls.ofRow id row).mapM RowCalls.build =
      .ok rows := by
    have each : List.Forall₂
        (fun (entry : Row × Nat) row => (RowCalls.ofRow entry.2 entry.1).build = .ok row)
        rows.zipIdx (rows.zipIdx.map Prod.fst) := by
      rw [List.forall₂_map_right_iff, List.forall₂_same]
      intro entry member
      exact RowCalls.build_ofRow _ (settled _ (List.fst_mem_of_mem_zipIdx member))
    rw [List.zipIdx_map_fst] at each
    exact mapM_eq_ok_iff.mpr (List.forall₂_map_left_iff.mpr each)
  refine (Table.foldlM_insertRow RowCalls.rule RowCalls.build [] ?_).trans ?_
  · rw [List.map_map, List.length_map, List.length_zipIdx]
    exact List.zipIdx_map_snd 0 rows
  · rw [built]
    rfl

/-- What a program of a grammar gives back: the parser of the grammar, and the head of each rule
as the variant of its kind. -/
structure Rebuilds (program : Program) (grammar : Grammar) : Prop where
  parser : ∃ parser, program.parser = .ok parser ∧ Parser.ofGrammar grammar = .ok parser
  variant : ∀ id rule, grammar.rules[id]? = some rule →
    program.variantOf? (.rule id) = some rule.head
  other : ∀ kind, (∀ id rule, grammar.rules[id]? = some rule → kind ≠ .rule id) →
    program.variantOf? kind = none

end Program

namespace Analysis

variable {n : Nat} {analysis : Analysis n}

theorem settled_of_row {rule : Fin n} {row : Row} (success : analysis.row rule = .ok row) :
    row.Settled := by
  obtain ⟨draft, _, rfl, holds⟩ := exists_draft_of_row success
  exact fun byte place => holds.place_lt

theorem exists_rows_of_table {table : Table} (success : analysis.table = .ok table) :
    ∃ rows, table = .ofRows rows ∧ ∀ row ∈ rows, row.Settled := by
  rw [table_eq] at success
  obtain ⟨rows, converted, result⟩ := bind_eq_ok_iff.mp success
  refine ⟨rows, (Except.ok.inj result).symm, fun row member => ?_⟩
  obtain ⟨rule, _, made⟩ := exists_of_forall₂_left (mapM_eq_ok_iff.mp converted).flip member
  exact settled_of_row made

theorem rulesOf_names (analysis : Analysis n) :
    Program.rulesOf analysis.names =
      (List.finRange n).map fun rule => (rule.val, analysis.grammar.heads.get rule) := by
  rw [Program.rulesOf, entries_names, nameEntries, List.filterMap_map]
  exact congrFun List.filterMap_eq_map (List.finRange n)

theorem foldl_rulesOf_names (analysis : Analysis n) :
    (Program.rulesOf analysis.names).foldl
      (fun (names : NameMap) (rule, name) => names.insert (.rule rule) name) NameMap.empty =
        analysis.names := by
  rw [rulesOf_names, List.foldl_map]
  rfl

end Analysis

namespace Program

theorem lookup_of_mem {entries : List (Nat × String)} {id : Nat} {name : String}
    (distinct : entries.Pairwise fun left right => left.1 ≠ right.1)
    (member : (id, name) ∈ entries) : entries.lookup id = some name := by
  induction entries with
  | nil => simp at member
  | cons entry rest ih =>
      obtain ⟨apart, restDistinct⟩ := List.pairwise_cons.mp distinct
      rcases List.mem_cons.mp member with rfl | later
      · simp
      · have different : (id == entry.1) = false :=
          beq_eq_false_iff_ne.mpr (apart _ later).symm
        rw [List.lookup_cons, different]
        exact ih restDistinct later

theorem rebuilds_of_generate (enumeration : Enumeration) {grammar : Grammar} {table : Table}
    {names : NameMap} (generated : grammar.generate = .ok (table, names)) :
    (ofTable enumeration table names).Rebuilds grammar := by
  obtain ⟨analysis, analyzed, tabulated, rfl⟩ := Grammar.generate_eq_ok_iff.mp generated
  obtain ⟨rows, rfl, settled⟩ := Analysis.exists_rows_of_table tabulated
  obtain ⟨_, resolves⟩ := Grammar.sound_of_analyze analyzed
  have ruleNames : (ofTable enumeration (.ofRows rows) analysis.names).ruleNames =
      (List.finRange _).map fun rule => (rule.val, analysis.grammar.heads.get rule) :=
    analysis.rulesOf_names
  have names : (ofTable enumeration (.ofRows rows) analysis.names).ruleNames.foldl _
      NameMap.empty = analysis.names := analysis.foldl_rulesOf_names
  refine ⟨⟨Parser.ofTable (.ofRows rows) analysis.names, ?_, ?_⟩, ?_, ?_⟩
  · have calls : (ofTable enumeration (.ofRows rows) analysis.names).rows =
        rows.zipIdx.map fun (row, id) => RowCalls.ofRow id row := by
      simp [ofTable, Table.presentRows_ofRows]
    refine bind_eq_ok_iff.mpr ⟨.ofRows rows, ?_, by rw [names]; rfl⟩
    rw [calls]
    exact foldlM_build settled
  · exact bind_eq_ok_iff.mpr ⟨_, generated, rfl⟩
  · intro id rule found
    obtain ⟨bound, rfl⟩ := List.getElem?_eq_some_iff.mp found
    change (ofTable _ _ _).ruleNames.lookup id = _
    rw [ruleNames]
    refine lookup_of_mem ?_ (List.mem_map.mpr ⟨⟨id, bound⟩, List.mem_finRange _, ?_⟩)
    · rw [List.pairwise_map]
      exact (List.nodup_finRange _).imp fun different same => different (Fin.ext same)
    · rw [resolves.head_get]
      rfl
  · intro kind foreign
    cases kind with
    | rule id =>
        change (ofTable _ _ _).ruleNames.lookup id = none
        rw [ruleNames, List.lookup_eq_none_iff]
        intro entry member
        obtain ⟨rule, _, rfl⟩ := List.mem_map.mp member
        rw [bne_iff_ne]
        rintro rfl
        exact foreign rule.val _ (List.getElem?_eq_getElem rule.isLt) rfl
    | literal | endOfLine | nothing => rfl

/-- The calls that are emitted for a grammar never meet a taken cell and build the parser of the
grammar, and the emitted mapping sends the kind of each rule to its head and no other kind
anywhere.  So it is for the grammar of every description that has a program. -/
theorem emitted_parser_is_generated (enumeration : Enumeration) :
    (∀ grammar table names, grammar.generate = .ok (table, names) →
      (ofTable enumeration table names).Rebuilds grammar) ∧
    ∀ program, enumeration.program = .ok program →
      ∃ grammar, enumeration.grammar = .ok grammar ∧ program.Rebuilds grammar := by
  refine ⟨fun grammar table names => rebuilds_of_generate enumeration, ?_⟩
  intro program emitted
  obtain ⟨⟨grammar, table, names⟩, made, result⟩ := bind_eq_ok_iff.mp emitted
  obtain rfl : ofTable enumeration table names = program := Except.ok.inj result
  obtain ⟨described, loaded, rest⟩ := bind_eq_ok_iff.mp made
  obtain ⟨⟨_, _⟩, generated, same⟩ := bind_eq_ok_iff.mp rest
  obtain ⟨rfl, rfl, rfl⟩ : described = grammar ∧ _ = table ∧ _ = names := by
    simpa using Except.ok.inj same
  exact ⟨described, loaded, rebuilds_of_generate enumeration (mapError_eq_ok_iff.mp generated)⟩

def assignmentBounds : Resolved.Bounds Enumeration.assignmentGrammar.rules.length where
  nullable := .replicate _ false
  first := #v[ByteSet.ofList [65], ByteSet.ofList [67, 68]]
  follow := .replicate _ (ByteSet.ofList [endOfInputByte])
  rank := .replicate _ 0

theorem exists_program_assignment : ∃ program, Samples.assignment.program = .ok program := by
  have fits : assignmentBounds.fit = true := by decide +kernel
  obtain ⟨_, made⟩ := Resolved.Bounds.exists_ofGrammar fits
  obtain ⟨⟨table, names⟩, generated, _⟩ := bind_eq_ok_iff.mp made
  have described : Samples.assignment.generate =
      .ok (Enumeration.assignmentGrammar, table, names) :=
    bind_eq_ok_iff.mpr ⟨_, Enumeration.grammar_assignment,
      bind_eq_ok_iff.mpr ⟨_, mapError_eq_ok_iff.mpr generated, rfl⟩⟩
  exact ⟨ofTable Samples.assignment table names, bind_eq_ok_iff.mpr ⟨_, described, rfl⟩⟩

theorem assignment_rebuilds :
    (∃ table names, Parser.letterLines.generate = .ok (table, names) ∧
      (ofTable Samples.assignment table names).Rebuilds Parser.letterLines) ∧
    ∃ program, Samples.assignment.program = .ok program ∧
      ∃ grammar, Samples.assignment.grammar = .ok grammar ∧ program.Rebuilds grammar := by
  obtain ⟨ofGrammar, ofDescription⟩ := emitted_parser_is_generated Samples.assignment
  obtain ⟨table, names, generated⟩ := Parser.exists_generate_letterLines
  obtain ⟨program, success⟩ := exists_program_assignment
  exact ⟨⟨table, names, generated, ofGrammar _ table names generated⟩,
    program, success, ofDescription program success⟩

end Program

end Lookahead
