/-!
What the command line says about itself.
-/

set_option autoImplicit false

namespace RoutePolicy.Command

def version : String := "0.1.0"

def versionText : String := "route-condenser v" ++ version

def buildUsage : String := "route-condenser build <config-dir> [-o out.json]"

def simplifyUsage : String := "route-condenser simplify <raw.json> [-o out.ir.json]"

def queryUsage : String := "route-condenser query <ir.json|raw.json> --destination <addr>"

def helpLines : List String :=
  ["",
   "route-condenser - condense routing policies into a verification IR",
   "",
   "Usage:",
   "  route-condenser <command> [options]",
   "",
   "Commands:",
   "  build <config-dir> [-o out.json]          Upload configs to the analysis service",
   "                                            and write its raw answer tables",
   "  simplify <raw.json> [-o out.ir.json]      Build the topology and write the",
   "                                            condensed IR",
   "  query <ir.json|raw.json> --destination <addr>",
   "                                            Answer a reachability query",
   "  version                                   Show version information",
   "  help                                      Show this help message",
   "",
   "Global Options:",
   "  --config <path>   Config file (default: ./route-condenser.yaml)",
   "  --verbose, -v     Debug logging and stack traces",
   "  --quiet, -q       Only log errors",
   "  --help, -h        Show help",
   "",
   "Command Options:",
   "  simplify:",
   "    --simplify-bools, -b    Simplify policy expressions before writing",
   "    --keep-unsupported      Keep unknown constructs instead of failing",
   "",
   "  query:",
   "    --destination <addr>    Destination address or prefix",
   "    --source <node>         Node whose reachability decides the answer",
   "    --trace                 Include the hop-by-hop trace",
   "    --queries <file.yaml>   Run a batch of queries instead",
   "",
   "Exit Codes:",
   "  0  Success (query: every answer is accept)",
   "  1  Failure (query: reject, error or inconclusive)",
   "  2  Usage error (invalid arguments)",
   ""]

def helpText : String := "\n".intercalate helpLines

end RoutePolicy.Command
