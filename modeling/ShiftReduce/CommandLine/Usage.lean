/-
What the command line says about itself.

* `usage` — how to call the program;
* `help` — the same with an explanation of each argument;
* `complaint` — an error in one line.
-/
namespace ShiftReduce.CommandLine

/-- How to call the program. -/
def usage : String :=
  "usage: slrgen [-h] [-i INPUT] [--full-initial-state] [--debugfile DEBUGFILE]\n"
    ++ "              file\n"

/-- How to call the program, and what its arguments mean. -/
def help : String :=
  usage ++ "\n"
    ++ "Build the SLR(1) table of a grammar.\n"
    ++ "\n"
    ++ "positional arguments:\n"
    ++ "  file                  grammar file with rules such as \"E -> E + T | T\", or -\n"
    ++ "                        for stdin\n"
    ++ "\n"
    ++ "options:\n"
    ++ "  -h, --help            show this help message and exit\n"
    ++ "  -i INPUT, --input INPUT\n"
    ++ "                        space-separated terminals to run through the parser\n"
    ++ "  --full-initial-state  seed state 0 with every production instead of the\n"
    ++ "                        closure of the start item\n"
    ++ "  --debugfile DEBUGFILE\n"
    ++ "                        write the grammar and state descriptions to this file\n"

/-- An error in one line. -/
def complaint (message : String) : String := "slrgen: error: " ++ message ++ "\n"

end ShiftReduce.CommandLine
