import Sluice.Instruction
import Sluice.Lexeme
import Sluice.Token

namespace Sluice

namespace Problem

-- All kinds but the last are mistakes in a program.
inductive Kind
  | badText
  | undefinedName
  | notFunction
  | mixedArray
  | unknownMember
  | duplicateBinding
  | typeMismatch
  | defect
deriving DecidableEq, Repr

def Kind.text : Kind → String
  | .badText => "syntax error"
  | .undefinedName => "undefined identifier"
  | .notFunction => "calling a non-function"
  | .mixedArray => "array element type mismatch"
  | .unknownMember => "unknown member name"
  | .duplicateBinding => "duplicate binding"
  | .typeMismatch => "type mismatch"
  | .defect => "internal error"

end Problem

inductive Problem
  -- The text is no program.
  | unexpectedCharacter (character : Char)
  | expectedExpression
  | expectedExpressionNot (found : String)
  | unexpectedText (found : String)
  | wrongCloser (bracket : Bracket) (found : String) (opened : Position)
  | missingCloser (bracket : Bracket)
  | invalidNumber (text : String)
  | integerTooLarge (text : String)
  -- Names, calls and types do not fit.
  | assignmentToNonName
  | undefinedName (name : String)
  | noOverload (name : String) (argument : Ty)
  | callOfNonFunction (ty : Ty)
  | nameNotCallable (name : String) (ty : Ty)
  | mixedElements (position : Nat) (ty first : Ty)
  | unknownMember (ty : Ty) (name : String)
  | alreadyBound (name : String) (ty : Ty)
  | nativeRegistered (name : String) (ty : Ty)
  | constantRegistered (name : String) (ty : Ty)
  | operandMismatch (sign : String) (left right : Ty)
  | negationMismatch (ty : Ty)
  | argumentMismatch (callee argument : Ty)
  -- Sizes of constants.
  | literalSize (ty : Ty) (needed : UInt32) (given : Nat)
  | constantSize (name : String) (ty : Ty) (needed : UInt32) (given : Nat)
  -- Token sequences that no expression has.
  | tokenAfterEnd (shown : String)
  | missingEnd
  | unexpectedToken (kind : Token.Kind) (arity : Token.Arity)
  | missingOperands
  | appliedUnpiped
  | memberWithoutName
  | groupedPipe
  | pipedOutsideCall
  | pipedCallee
  | notPlaceholder (index : Nat)
  | resolvedTwice (index : Nat)
  | placedTwice (index : Nat)
  | valuesLeftOver (count : Nat)
  | unbalancedScopes
  | noReturnType (ty : Ty)
  | leavingRoot
  -- Instructions that cannot be run.
  | unencodable (atom : Atom)
  | missingOperand (op : Op) (index : Nat)
  | ranPlaceholder (name : String)
  | unexpectedPayload (payload : Payload) (op : Op)
  | literalOutside (start finish : UInt32)
  | underflow (size height : Nat)
  | placementOutside (placement : Int) (size height : Nat)
  | frameReadBeyond (start finish frame : Nat)
  | frameWriteBeyond (start finish frame : Nat)
  | memberOutside (offset size length : Nat)
  | unknownHandle (handle : Bytes)
  | nativeMismatch (name : String) (ty : Ty) (called : Option Ty) (bytes : Nat)
  | bytesLeftOver (height : Nat)
  | endedWithoutFinish
  | arithmeticOn (atom : Atom)
  | negationOf (atom : Atom)
  -- Bytes, atoms or instructions that are not there. Well-formed data never leads here.
  | outOfRange
deriving DecidableEq, Repr

namespace Problem

def kind : Problem → Kind
  | .unexpectedCharacter _ | .expectedExpression | .expectedExpressionNot _ | .unexpectedText _
  | .wrongCloser .. | .missingCloser _ | .invalidNumber _ | .integerTooLarge _ => .badText
  | .assignmentToNonName | .undefinedName _ | .noOverload .. => .undefinedName
  | .callOfNonFunction _ | .nameNotCallable .. => .notFunction
  | .mixedElements .. => .mixedArray
  | .unknownMember .. => .unknownMember
  | .alreadyBound .. | .nativeRegistered .. | .constantRegistered .. => .duplicateBinding
  | .operandMismatch .. | .negationMismatch _ | .argumentMismatch .. => .typeMismatch
  | _ => .defect

def inQuotes (text : String) : String :=
  "'" ++ text ++ "'"

def message : Problem → String
  | .unexpectedCharacter character => "unexpected character " ++ inQuotes character.toString
  | .expectedExpression => "expected an expression"
  | .expectedExpressionNot found => "expected an expression, found " ++ inQuotes found
  | .unexpectedText found => "unexpected " ++ inQuotes found
  | .wrongCloser bracket found _ =>
      "expected " ++ inQuotes bracket.closer ++ ", found " ++ inQuotes found
  | .missingCloser bracket => "missing closing " ++ inQuotes bracket.closer
  | .invalidNumber text => "invalid number " ++ inQuotes text
  | .integerTooLarge text =>
      "integer " ++ inQuotes text ++ " does not fit in " ++ Primitive.i32.text
  | .assignmentToNonName => "the left side of ':=' must be a name"
  | .undefinedName name => inQuotes name ++ " is not defined"
  | .noOverload name argument => "no overload of " ++ inQuotes name ++ " accepts " ++ argument.text
  | .callOfNonFunction ty => "calling a value of type " ++ ty.text
  | .nameNotCallable name ty => inQuotes name ++ " has type " ++ ty.text ++ " and cannot be called"
  | .mixedElements position ty first =>
      "array element " ++ toString position ++ " has type " ++ ty.text ++
        ", but the first element has type " ++ first.text
  | .unknownMember ty name => "a value of type " ++ ty.text ++ " has no member " ++ inQuotes name
  | .alreadyBound name ty =>
      inQuotes name ++ " is already bound with type " ++ ty.text ++ " in this scope"
  | .nativeRegistered name ty =>
      "native " ++ inQuotes name ++ " of type " ++ ty.text ++ " is already registered"
  | .constantRegistered name ty =>
      "constant " ++ inQuotes name ++ " of type " ++ ty.text ++ " is already registered"
  | .operandMismatch sign left right =>
      "cannot apply " ++ inQuotes sign ++ " to " ++ left.text ++ " and " ++ right.text
  | .negationMismatch ty => "cannot negate a value of type " ++ ty.text
  | .argumentMismatch callee argument =>
      "a function of type " ++ callee.text ++ " does not accept " ++ argument.text
  | .literalSize ty needed given =>
      "literal of type " ++ ty.text ++ " needs " ++ toString needed ++ " bytes, got " ++
        toString given
  | .constantSize name ty needed given =>
      "constant " ++ inQuotes name ++ " of type " ++ ty.text ++ " needs " ++ toString needed ++
        " bytes, got " ++ toString given
  | .tokenAfterEnd shown => "token " ++ inQuotes shown ++ " after the end of the program"
  | .missingEnd => "token stream is missing its end token"
  | .unexpectedToken kind arity =>
      "unexpected " ++ kind.label ++ " token with " ++ arity.label ++ " arity"
  | .missingOperands => "operator without enough operands"
  | .appliedUnpiped => "applying a value that is not piped"
  | .memberWithoutName => "member access without a member name"
  | .groupedPipe => "grouping a pipe without a call"
  | .pipedOutsideCall => "piped value used outside of a call"
  | .pipedCallee => "calling a piped value"
  | .notPlaceholder index => "instruction " ++ toString index ++ " is not an unresolved placeholder"
  | .resolvedTwice index => "instruction " ++ toString index ++ " resolved twice"
  | .placedTwice index => "instruction " ++ toString index ++ " placed twice"
  | .valuesLeftOver count => toString count ++ " values left over at the end of the program"
  | .unbalancedScopes => "unbalanced block scopes at the end of the program"
  | .noReturnType ty => "callee of type " ++ ty.text ++ " has no return type"
  | .leavingRoot => "leaving the root scope"
  | .unencodable atom => "cannot encode an immediate as " ++ atom.name
  | .missingOperand op index => op.mnemonic ++ " is missing operand " ++ toString index
  | .ranPlaceholder name => "executing unresolved placeholder " ++ inQuotes name
  | .unexpectedPayload payload op => "unexpected payload " ++ payload.label ++ " for " ++ op.label
  | .literalOutside start finish =>
      "literal " ++ toString start ++ ".." ++ toString finish ++ " outside of the literal pool"
  | .underflow size height =>
      "stack underflow: popping " ++ toString size ++ " bytes with " ++ toString height ++
        " on the stack"
  | .placementOutside placement size height =>
      "placement " ++ toString placement ++ " for " ++ toString size ++
        " bytes outside of the evaluation stack (" ++ toString height ++ " bytes)"
  | .frameReadBeyond start finish frame =>
      "frame read " ++ toString start ++ ".." ++ toString finish ++ " beyond frame of " ++
        toString frame ++ " bytes"
  | .frameWriteBeyond start finish frame =>
      "frame write " ++ toString start ++ ".." ++ toString finish ++ " beyond frame of " ++
        toString frame ++ " bytes"
  | .memberOutside offset size length =>
      "member at " ++ toString offset ++ " of " ++ toString size ++ " bytes outside of " ++
        toString length ++ " byte tuple"
  | .unknownHandle handle => "unknown native handle " ++ Text.hex handle
  | .nativeMismatch name ty called bytes =>
      let shown := match called with
        | some called => called.text
        | none => "?"
      "native " ++ inQuotes name ++ " of type " ++ ty.text ++ " called as " ++ shown ++ " with " ++
        toString bytes ++ " argument bytes"
  | .bytesLeftOver height => toString height ++ " bytes left on the stack at END"
  | .endedWithoutFinish => "instruction sequence ended without END"
  | .arithmeticOn atom => "arithmetic on non-numeric " ++ atom.name
  | .negationOf atom => "negating non-numeric " ++ atom.name
  | .outOfRange => "access out of range"

-- Further remarks, each about a place.
def remarks : Problem → List (Position × String)
  | .wrongCloser _ _ opened => [(opened, "to close the bracket opened here")]
  | _ => []

end Problem

-- A problem and the place it was found at, if there is one.
structure Failure where
  problem : Problem
  position : Option Position
deriving DecidableEq, Repr

namespace Failure

def located (position : Position) (problem : Problem) : Failure :=
  ⟨problem, some position⟩

def plain (problem : Problem) : Failure :=
  ⟨problem, none⟩

end Failure

-- Missing data is the one problem that has no place.
def inRange {α : Type} (value : Option α) : Except Failure α :=
  match value with
  | some value => .ok value
  | none => .error (.plain .outOfRange)

end Sluice
