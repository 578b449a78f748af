/-!
The help text of the command line.
-/

namespace Concordance.Cli

/-- The lines of the help text. -/
def usage : List String :=
  ["usedby - cross-reference PHP, JavaScript and CSS symbols",
   "",
   "Usage:",
   "  usedby <command> [arguments]",
   "  usedby --help",
   "  usedby --version",
   "",
   "  usedby scan --root <DIR> [--output <FILE>] [--format <human|json>] [--basic]",
   "  usedby annotate --root <DIR> [--dry-run] [--diagrams] [--ungrouped]",
   "  usedby graph --root <DIR> [--symbol <NAME>] [--output <FILE>] [--labels] [--no-files]",
   "",
   "Commands:",
   "  scan      Extract symbols and usages, optionally persisting them as JSON",
   "  annotate  Write @usedby doc blocks above every used definition",
   "  graph     Print a Mermaid relationship diagram",
   "",
   "Common arguments:",
   "  --root <DIR>            Directory to scan (default: current directory)",
   "  --include <GLOB>        Only scan matching files (repeatable)",
   "  --exclude <GLOB>        Skip matching files (repeatable)",
   "  --ungrouped             One annotation or edge per usage instead of per file",
   "",
   "Scan arguments:",
   "  --output <FILE>         Write the scan result to FILE",
   "  --format <FORMAT>       Output format: human (default) or json",
   "  --basic                 Definitions only, no usage discovery",
   "",
   "Annotate arguments:",
   "  --dry-run               Report files that would change without writing",
   "  --diagrams              Embed a Mermaid diagram in every doc block",
   "  --diagram-type <TYPE>   graph (default) or flowchart",
   "  --direction <DIR>       TD (default), LR, RL or BT",
   "",
   "Graph arguments:",
   "  --symbol <NAME>         Only the symbol(s) with this name",
   "  --output <FILE>         Write the diagram to FILE instead of stdout",
   "  --direction <DIR>       TD (default), LR, RL or BT",
   "  --diagram-type <TYPE>   graph (default) or flowchart",
   "  --max-nodes <N>         Cap on symbol nodes (default: 50)",
   "  --no-files              Leave out file nodes",
   "  --labels                Label edges with the usage kind",
   "",
   "Settings are read from <root>/usedby.json when present; flags override them.",
   "Log verbosity follows RUST_LOG (default: info)."]

end Concordance.Cli
