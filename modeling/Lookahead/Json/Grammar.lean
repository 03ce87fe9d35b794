import Lookahead.Bnf.Load

/-!
A grammar of JSON documents: strings hold printable ASCII and a few escapes, numbers have no
exponent.
-/

namespace Lookahead.Json

def grammarText : String :=
  "\n".intercalate
    ["<json>          ::= <ws> <value>",
      "<value>         ::= <object> <ws> | <array> <ws> | <string> <ws> | <number> <ws> | " ++
        "\"true\" <ws> | \"false\" <ws> | \"null\" <ws>",
      "<object>        ::= \"\x7b\" <ws> <members> \"\x7d\"",
      "<members>       ::= \"\" | <member> <more-members>",
      "<member>        ::= <string> <ws> \":\" <ws> <value>",
      "<more-members>  ::= \"\" | \",\" <ws> <member> <more-members>",
      "<array>         ::= \"[\" <ws> <elements> \"]\"",
      "<elements>      ::= \"\" | <value> <more-elements>",
      "<more-elements> ::= \"\" | \",\" <ws> <value> <more-elements>",
      "<string>        ::= '\"' <chars> '\"'",
      "<chars>         ::= \"\" | <char> <chars>",
      "<char>          ::= <letter> | <digit> | <punct> | \"\\\\\" <escape>",
      "<escape>        ::= '\"' | \"\\\\\" | \"/\" | \"n\" | \"t\" | \"r\"",
      "<number>        ::= <sign> <digit> <digits> <fraction>",
      "<sign>          ::= \"\" | \"-\"",
      "<digits>        ::= \"\" | <digit> <digits>",
      "<fraction>      ::= \"\" | \".\" <digit> <digits>",
      "<digit>         ::= \"0\" | \"1\" | \"2\" | \"3\" | \"4\" | \"5\" | \"6\" | \"7\" | " ++
        "\"8\" | \"9\"",
      "<letter>        ::= \"a\" | \"b\" | \"c\" | \"d\" | \"e\" | \"f\" | \"g\" | \"h\" | " ++
        "\"i\" | \"j\" | \"k\" | \"l\" | \"m\" | \"n\" | \"o\" | \"p\" | \"q\" | \"r\" | " ++
        "\"s\" | \"t\" | \"u\" | \"v\" | \"w\" | \"x\" | \"y\" | \"z\" | \"A\" | \"B\" | " ++
        "\"C\" | \"D\" | \"E\" | \"F\" | \"G\" | \"H\" | \"I\" | \"J\" | \"K\" | \"L\" | " ++
        "\"M\" | \"N\" | \"O\" | \"P\" | \"Q\" | \"R\" | \"S\" | \"T\" | \"U\" | \"V\" | " ++
        "\"W\" | \"X\" | \"Y\" | \"Z\"",
      "<punct>         ::= \" \" | \"!\" | \"#\" | \"$\" | \"%\" | \"&\" | \"'\" | \"(\" | " ++
        "\")\" | \"*\" | \"+\" | \",\" | \"-\" | \".\" | \"/\" | \":\" | \";\" | \"<\" | " ++
        "\"=\" | \">\" | \"?\" | \"@\" | \"[\" | \"]\" | \"^\" | \"_\" | \"`\" | \"\x7b\" | " ++
        "\"|\" | \"\x7d\" | \"~\"",
      "<ws>            ::= \"\" | \" \" <ws> | \"\\t\" <ws> | <EOL> <ws>",
      ""]

def parser : Except Error Parser := do
  let (table, names) ← Table.ofText grammarText
  return Parser.ofTable table names

end Lookahead.Json
