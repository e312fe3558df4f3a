import Offside.Command.Content
import Offside.Command.Options
import Offside.Command.Report
import Offside.Scan.Listing

/-!
The command line, apart from the files themselves: what the arguments ask for, which files that
needs, and what it prints once it is known what the files hold.
-/

namespace Offside

inductive Invocation where
  | help
  | unknown (command : String)
  | lex (path : String) (spaces : Bool)
  | parse (path : String) (options : Options)
  | check (paths : List String)
  | incomplete (usage : String)
  | refused (e : OptionError)
  deriving DecidableEq

/-- What a run prints, and the code with which it ends. -/
structure Outcome where
  exit : Nat := 0
  out : String := ""
  err : String := ""
  deriving DecidableEq

namespace Invocation

def lexUsage : String := "Usage: sprigc lex <file> [--spaces]"

def parseUsage : String := "Usage: sprigc parse <file> [--max-depth=N]"

def checkUsage : String := "Usage: sprigc check <file>..."

def overview : String :=
  "sprigc: front end for the sprig markup language\n" ++
  "\n" ++
  "Usage: sprigc <command> [options]\n" ++
  "\n" ++
  "Commands:\n" ++
  "  lex <file> [--spaces]          Print the token stream\n" ++
  "  parse <file> [--max-depth=N]   Print the syntax tree\n" ++
  "  check <file>...                Parse files in parallel, report errors\n" ++
  "\n" ++
  "Set RUST_LOG (e.g. RUST_LOG=sprig_parse=debug) for tracing output.\n"

def path? (arguments : List String) : Option String :=
  arguments.find? fun argument => !Options.isOption argument

def ofArguments : List String → Invocation
  | [] => help
  | "help" :: _ | "--help" :: _ | "-h" :: _ => help
  | "lex" :: rest =>
    match path? rest with
    | some path => lex path (rest.contains "--spaces")
    | none => incomplete lexUsage
  | "parse" :: rest =>
    match path? rest, Options.ofArguments rest with
    | none, _ => incomplete parseUsage
    | some _, .error e => refused e
    | some path, .ok options => parse path options
  | "check" :: [] => incomplete checkUsage
  | "check" :: paths => check paths
  | command :: _ => unknown command

def paths : Invocation → List String
  | lex path _ | parse path _ => [path]
  | check paths => paths
  | help | unknown _ | incomplete _ | refused _ => []

def complain (message : String) : Outcome := { exit := 1, err := message ++ "\n" }

def runLex (text : String) (spaces : Bool) : Outcome :=
  { out := Listing.render (Source.ofText text) { Flags.layout with spaces } }

def runParse (path text : String) (options : Options) : Outcome :=
  match outlineOf text options.depth with
  | .ok outline => { out := if outline.isEmpty then "(empty)\n" else outline }
  | .error message => complain (path ++ ": " ++ message)

def failureLine (r : Report) : String :=
  match r.failure with
  | some message => r.path ++ ": " ++ message ++ "\n"
  | none => ""

/-- Reports on files, the failures one by one and all of them counted. -/
def runCheck (reports : List Report) : Outcome :=
  let failed := (reports.filter fun r => !r.isOk).length
  { exit := if failed = 0 then 0 else 1
    out := s!"checked {reports.length} file(s): {reports.length - failed} ok, {failed} failed\n"
    err := String.join (reports.map failureLine) }

def reportOn (files : String → Content) (path : String) : Report :=
  match (files path).text path with
  | .ok text => .ofText path text
  | .error reason => .unread path reason

def run (files : String → Content) : Invocation → Outcome
  | help => { out := overview }
  | unknown command =>
    { exit := 1, out := overview, err := s!"error: unknown command '{command}'\n\n" }
  | incomplete usage => complain usage
  | refused e => complain ("error: " ++ e.message)
  | lex path spaces =>
    match (files path).text path with
    | .ok text => runLex text spaces
    | .error message => complain message
  | parse path options =>
    match (files path).text path with
    | .ok text => runParse path text options
    | .error message => complain message
  | check paths => runCheck (paths.map (reportOn files))

end Invocation
end Offside
