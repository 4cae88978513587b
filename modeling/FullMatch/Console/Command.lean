import FullMatch.Console.Session

/-!
# Commands

The command line: what its arguments ask for.
-/

namespace FullMatch.Console

/-- What the command line can be asked to do. -/
inductive Command where
  /-- Test texts against a pattern. -/
  | test (strategy : Strategy) (verbose : Bool) (pattern : String) (texts : List String)
  | explain (pattern : String)
  | session (strategy : Strategy)
  deriving DecidableEq

namespace Command

/-- The options among the arguments, and the others; behind `--` there are no options. -/
def splitOptions : List String → List String × List String
  | [] => ([], [])
  | "--" :: rest => ([], rest)
  | arg :: rest =>
    let (options, others) := splitOptions rest
    if arg.startsWith "-" then (arg :: options, others) else (options, arg :: others)

/-- The strategy that the options ask for. -/
def strategyOf (options : List String) : Strategy :=
  if options.contains "--nfa" then .nfa else .dfa

/-- The command that the arguments ask for. -/
def ofArgs? : List String → Option Command
  | "match" :: args =>
    match splitOptions args with
    | (options, pattern :: text :: texts) =>
      if options.all ["--nfa", "--verbose", "-v"].contains then
        let verbose := options.any ["--verbose", "-v"].contains
        some (.test (strategyOf options) verbose pattern (text :: texts))
      else none
    | _ => none
  | "explain" :: args =>
    match splitOptions args with
    | ([], [pattern]) => some (.explain pattern)
    | _ => none
  | "repl" :: args =>
    match splitOptions args with
    | (options, []) =>
      if options.all (· = "--nfa") then some (.session (strategyOf options)) else none
    | _ => none
  | _ => none

/-- How the command line is used. -/
def usage : String :=
  "usage: match [--nfa] [-v|--verbose] [--] PATTERN TEXT...\n" ++
  "       explain [--] PATTERN\n" ++
  "       repl [--nfa]\n"

end Command

end FullMatch.Console
