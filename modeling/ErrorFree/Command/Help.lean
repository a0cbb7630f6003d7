import ErrorFree.Command.Request

/-!
# Help

The texts about the commands, the version lines and the completion scripts.
-/

namespace ErrorFree

namespace Command

/-- The version of the program. -/
def version : String := "0.1.0"

/-- The name under which a topic shows its version. -/
def Topic.title : Topic → String
  | .program => "efrt"
  | .run => "efrt-run"
  | .random => "efrt-random"
  | .completions => "efrt-completions"
  | .help => "efrt-help"

/-- The version line of a topic. -/
def Topic.versionLine (t : Topic) : String := t.title ++ " " ++ version

/-- How a command is written. -/
def Topic.usage : Topic → String
  | .program => "Usage: efrt <COMMAND>"
  | .run => "Usage: efrt run [OPTIONS] <FILES>..."
  | .random => "Usage: efrt random [OPTIONS] <LENGTH>"
  | .completions => "Usage: efrt completions <SHELL>"
  | .help => "Usage: efrt help [COMMAND]"

/-- The flags shared by the commands that run programs. -/
def flagLines : List String :=
  ["Options:",
    "  -z, --auto-zero                        Make D and O push 0 instead of reading",
    "      --seed <SEED>                      Seed for R and random programs",
    "      --stack-capacity <STACK_CAPACITY>  Stack capacity in cells",
    "      --heap-capacity <HEAP_CAPACITY>    Heap capacity in resident addresses",
    "      --max-cycles <MAX_CYCLES>          Stop each run after this many cycles",
    "  -c, --config <CONFIG>                  Use this config file, not the nearest efrt.toml",
    "      --no-progress                      Hide the progress display",
    "  -q, --quiet                            Suppress status lines and the run summary",
    "      --json                             Print the run summary as JSON",
    "  -h, --help                             Print help",
    "  -V, --version                          Print version"]

/-- What is told about a topic. -/
def Topic.lines : Topic → List String
  | .program =>
      ["ErrorFree runtime: every byte is an instruction, and no instruction can fail.", "",
        Topic.usage .program, "",
        "Commands:",
        "  run          Run one or more program files [aliases: r]",
        "  random       Generate and run a random program [aliases: rnd]",
        "  completions  Generate shell completions",
        "  help         Print this message or the help of a command", "",
        "Options:",
        "  -h, --help     Print help",
        "  -V, --version  Print version"]
  | .run => ["Run one or more program files", "", Topic.usage .run, ""] ++ flagLines
  | .random =>
      ["Generate and run a random program", "", Topic.usage .random, ""] ++ flagLines ++
        ["  -s, --save <SAVE>                      Also write the generated bytes to this file"]
  | .completions =>
      ["Generate shell completions", "", Topic.usage .completions, "",
        "Shells: bash, elvish, fish, powershell, zsh"]
  | .help => ["Print the help of the program or of a command", "", Topic.usage .help]

/-- The help about a topic. -/
def Topic.text (t : Topic) : String := String.join (t.lines.map (· ++ "\n"))

/-- The words to complete with. -/
def words : String :=
  "run random completions help --auto-zero --seed --stack-capacity --heap-capacity --max-cycles " ++
    "--config --no-progress --quiet --json --save --help --version"

/-- The completion script of a shell. -/
def Shell.script : Shell → String
  | .bash => "complete -o default -W \"" ++ words ++ "\" efrt\n"
  | .elvish =>
      "set edit:completion:arg-completer[efrt] = \x7b|@a| put " ++ words ++ " \x7d\n"
  | .fish => "complete -c efrt -a \"" ++ words ++ "\"\n"
  | .powershell =>
      "Register-ArgumentCompleter -Native -CommandName efrt -ScriptBlock \x7b param($word) \"" ++
        words ++ "\".Split(\" \") | Where-Object \x7b $_ -like \"$word*\" \x7d \x7d\n"
  | .zsh => "#compdef efrt\n_arguments \"*:argument:(" ++ words ++ ")\"\n"

end Command

end ErrorFree
