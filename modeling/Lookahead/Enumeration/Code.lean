import Lookahead.Enumeration.Program

/-!
The text of a program, as tokens with single blanks between them.
-/

namespace Lookahead

def byteHex (byte : UInt8) : String :=
  let digits := Nat.toDigits 16 byte.toNat
  String.ofList ((List.replicate (2 - digits.length) '0' ++ digits).map Char.toUpper)

def byteStringEscape (byte : UInt8) : String :=
  if byte == 9 then "\\t"
  else if byte == 10 then "\\n"
  else if byte == 13 then "\\r"
  else if byte == 34 then "\\\""
  else if byte == 92 then "\\\\"
  else if 0x20 ≤ byte && byte ≤ 0x7e then String.singleton (Char.ofNat byte.toNat)
  else "\\x" ++ byteHex byte

namespace Program

private def commaSeparated (items : List String) : String :=
  " , ".intercalate items

private def block (content : List String) : String :=
  " ".intercalate (["\x7b"] ++ content ++ ["\x7d"])

private def ruleIdCode (id : Nat) : String :=
  "RuleId :: unchecked_new (" ++ toString id ++ "usize)"

def operationCode : Operation → String
  | .invoke (.rule id) => "ParserOp :: Invoke (Callee :: Rule (" ++ ruleIdCode id ++ "))"
  | .invoke .endOfLine => "ParserOp :: Invoke (Callee :: EndOfLine)"
  | .matchLiteral bytes =>
    "ParserOp :: MatchLiteral (Box :: from (& b\"" ++ String.join (bytes.map byteStringEscape) ++
      "\" [..]))"
  | .endOfInput => "ParserOp :: EndOfInput"

def alternativeCode (calls : AlternativeCalls) : String :=
  let operations := commaSeparated (calls.operations.map operationCode)
  let bytes := commaSeparated (calls.bytes.map fun byte => toString byte.toNat ++ "u8")
  "let alternative = row . push_alternative_mut (vec ! [" ++ operations ++ "]) ; for byte in [" ++
    bytes ++ "] " ++
    block ["row . assign_mut (byte , alternative) . expect " ++
      "(\"derived table cells are checked for conflicts at compile time\") ;"]

def rowCode (calls : RowCalls) : String :=
  block <| ["let mut row = Row :: new () ;"] ++ calls.alternatives.map alternativeCode ++
    ["table . insert_row_mut (" ++ ruleIdCode calls.rule ++ " , row) ;"]

def nameCode (rule : Nat) (name : String) : String :=
  "names . insert_mut (NodeKind :: Rule (" ++ ruleIdCode rule ++ ") , \"" ++ name ++ "\") ;"

def armCode (rule : Nat) (name : String) : String :=
  toString rule ++ "usize => :: core :: option :: Option :: Some (Self :: " ++ name ++ ") ,"

def parserCode (program : Program) : String :=
  let build := ["let mut table = LlTable :: new () ;"] ++ program.rows.map rowCode ++
    ["let mut names = NameMap :: new () ;"] ++
    (program.ruleNames.map fun (rule, name) => nameCode rule name) ++
    [":: ll_core :: parser :: Parser :: new (table , names)"]
  "fn parser () -> & 'static :: ll_core :: parser :: Parser " ++
    block
      ["# [allow (unused_imports)] use :: ll_core :: ll ::",
        block ["Callee , LlTable , NameMap , NodeKind , ParserOp , Row , RuleId"], ";",
        "static PARSER : :: std :: sync :: OnceLock < :: ll_core :: parser :: Parser > =",
        ":: std :: sync :: OnceLock :: new () ;",
        "PARSER . get_or_init (|| " ++ block build ++ ")"]

def variantCode (program : Program) : String :=
  let arms := program.ruleNames.map fun (rule, name) => armCode rule name
  "fn from_node_kind (kind : :: ll_core :: ll :: NodeKind) -> " ++
    ":: core :: option :: Option < Self > " ++
    block
      ["match kind " ++
        block
          [":: ll_core :: ll :: NodeKind :: Rule (rule) => match rule . as_usize () " ++
              block (arms ++ ["_ => :: core :: option :: Option :: None ,"]) ++ " ,",
            "_ => :: core :: option :: Option :: None ,"]]

def code (program : Program) : String :=
  let parameters :=
    if program.parameters.isEmpty then []
    else ["< " ++ commaSeparated program.parameters ++ " >"]
  " ".intercalate <| ["impl"] ++ parameters ++ [":: ll_core :: Ll1Parseable for", program.name] ++
    parameters ++ [block [program.parserCode, program.variantCode]]

end Program

end Lookahead
