/-!
# Help
-/

namespace RecurrenceCompiler.Cli

/-- The version of the program. -/
def version : String := "0.1.0"

/-- The line that `--version` prints. -/
def versionText : String :=
  "recurforge v" ++ version

/-- The text that `--help` prints. -/
def helpText : String :=
  "\n".intercalate
    ["recurforge - compile linear recurrences to C++ templates or JavaScript",
      "",
      "USAGE:",
      "  recurforge generate [options]              Generate files for every recurrence",
      "  recurforge list [-v]                       List known recurrences",
      "  recurforge watch [options]                 Regenerate when definition files change",
      "  recurforge eval <Name> <i,j,..> [var=value...] [--layered]",
      "                                             Evaluate one coefficient",
      "",
      "OPTIONS:",
      "  -h, --help                         Show this help message",
      "  --version                          Show version information",
      "  -o, --output <dir>                 Output directory (default: generated)",
      "  -t, --target <cpp|js>              Output language (default: cpp)",
      "  -c, --config <file>                Config file (.json, .yaml, .yml)",
      "  --definitions <dir>                Directory of JSON recurrence definitions",
      "  --layered                          eval: use the layered generator",
      "  -v, --verbose                      Show per-file timings and details",
      "",
      "ENVIRONMENT:",
      "  RECURFORGE_TARGET, RECURFORGE_VEC_TYPE, RECURFORGE_OPTIMIZATION,",
      "  RECURFORGE_CSE_THRESHOLD, RECURFORGE_TABLE_PADDING, RECURFORGE_OUTPUT_DIR,",
      "  RECURFORGE_DEFINITIONS_DIR, RECURFORGE_WATCH_DEBOUNCE_MS",
      "",
      "EXAMPLES:",
      "  recurforge generate --target js -o out",
      "  recurforge eval Fibonacci 5 x=2",
      "  recurforge eval CoulombR 1,0,0,0 PCx=0.5 PCy=0 PCz=0 Boys=1,0.5,0.25,0.125 --layered"]

end RecurrenceCompiler.Cli
