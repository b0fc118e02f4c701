import Sluice.Analysis
import Sluice.Expr.Parser
import Sluice.Expr.Postfix
import Sluice.Lexeme.Scan
import Sluice.Library.Standard
import Sluice.Report

namespace Sluice

namespace Source

-- The postfix form of a source, with a token at the end of it in the place of the last lexeme.
def tokens (source : Bytes) : Except Failure (List Token) := do
  let lexemes ← Lexeme.scan source
  let expr ← Expr.parse lexemes
  let last := (lexemes.getLast?.map Lexeme.position).getD .start
  .ok (expr.postfixTokens ++ [⟨.finish, .leftUnary, "", last⟩])

-- Compiles a source against a library, and tells what happened on the way.
def compileLogged (library : Library) (source : Bytes) : List Event × Except Failure Program :=
  match tokens source with
  | .error failure => ([], .error failure)
  | .ok tokens =>
      let (events, result) := Analysis.compile library tokens
      (.compiling tokens.length :: events, result)

def compile (library : Library) (source : Bytes) : Except Failure Program :=
  (compileLogged library source).2

-- Compiles and runs, all events in one journal.
def runLogged (library runLibrary : Library) (source : Bytes) :
    List Event × Except Failure Value :=
  match compileLogged library source with
  | (events, .error failure) => (events, .error failure)
  | (events, .ok program) =>
      let (more, result) := program.trace runLibrary
      (events ++ more, result)

-- The value of a source under the standard library.
def evaluate (source : Bytes) : Except Failure Value :=
  (runLogged .standard .standard source).2

-- A failure with the lines of the source that it points at.
def report (source : Bytes) (failure : Failure) : Report :=
  failure.report.quote source

end Source

end Sluice
