import SyntaxTables.Command.Fuzz
import SyntaxTables.Command.Tables

/-!
# The programs by name
-/

namespace SyntaxTables.Command

def plan? (program : String) (env : Environment) (read : ReadFile) (time : Nat)
    (args : List String) : Option Plan :=
  match program with
  | "gen_lex_tables" => some (lexTables env read args)
  | "gen_parse_tables" => some (parseTables env read args)
  | "fuzz_lex" => some (fuzz Sampling.congruential.draw UInt64.ofNat env time)
  | _ => none

def watchedVariables : List String :=
  ["TABLEGEN_NO_MINIMIZE", "TABLEGEN_CANONICAL_LR1", "FUZZ_SEED", "FUZZ_ITERS", "FUZZ_LEN"]

def usage : String := "usage: (gen_lex_tables | gen_parse_tables | fuzz_lex) [arguments]"

end SyntaxTables.Command
