import Sluice.Problem

namespace Sluice

namespace Report

inductive Weight
  | error
  | remark
deriving DecidableEq, Repr

def Weight.label : Weight → String
  | .error => "ERROR: "
  | .remark => " INFO: "

-- `line` is empty until the source is known.
structure Statement where
  weight : Weight
  position : Option Position
  message : String
  line : String
deriving DecidableEq, Repr

namespace Statement

-- A blank for each character in front of the column, tabs kept. If the line does not reach the
-- column, and for column zero, the blanks cover all of it.
def indent : Nat → List Char → List Char
  | _, [] => []
  | column, c :: rest =>
      if column = 1 then [] else (if c = '\t' then '\t' else ' ') :: indent (column - 1) rest

def caret (column : Nat) (line : String) : String :=
  String.ofList (indent column line.toList) ++ "^"

def text (statement : Statement) : String :=
  let headline := statement.weight.label ++ statement.message ++ "\n"
  match statement.position with
  | none => headline
  | some position =>
      let place := headline ++ " +- at " ++ position.text ++ "\n"
      if statement.line = "" then place
      else
        place ++ " | \n | " ++ statement.line ++ "\n | " ++
          caret position.column.toNat statement.line ++ "\n"

-- Looks up the line that the statement points at.
def quote (source : Bytes) (statement : Statement) : Statement :=
  match statement.position with
  | none => statement
  | some position => { statement with line := (Source.lineAt? source position).getD "" }

end Statement

end Report

structure Report where
  kind : Problem.Kind
  main : Report.Statement
  remarks : List Report.Statement
deriving DecidableEq, Repr

namespace Report

def statements (report : Report) : List Statement :=
  report.main :: report.remarks

def ofMessage (kind : Problem.Kind) (position : Option Position) (message : String) : Report :=
  ⟨kind, ⟨.error, position, message, ""⟩, []⟩

def remark (report : Report) (position : Option Position) (message : String) : Report :=
  { report with remarks := report.remarks ++ [⟨.remark, position, message, ""⟩] }

def quote (source : Bytes) (report : Report) : Report :=
  { report with
    main := report.main.quote source
    remarks := report.remarks.map (Statement.quote source) }

def message (report : Report) : String := report.main.message

def position (report : Report) : Option Position := report.main.position

def isDefect (report : Report) : Bool := report.kind = .defect

def text (report : Report) : String :=
  report.kind.text ++ "\n" ++ String.join (report.statements.map Statement.text)

end Report

def Failure.report (failure : Failure) : Report :=
  failure.problem.remarks.foldl (fun report remark => report.remark (some remark.1) remark.2)
    (Report.ofMessage failure.problem.kind failure.position failure.problem.message)

end Sluice
