import Sluice.Expr
import Sluice.Token

namespace Sluice

namespace Expr

def tokenKind : Operator → Token.Kind
  | .sequence => .sequence
  | .assign => .assign
  | .comma => .comma
  | .plus => .plus
  | .minus => .minus
  | .star => .star
  | .call => .call

-- A pipe is followed by its call at once, with the argument in between if it has one. A member name
-- takes the place of its dot. Only a block leaves a token in front of what it holds.
def postfixTokens : Expr → List Token
  | .number text position => [⟨.number, .nullary, text, position⟩]
  | .name text position => [⟨.name, .nullary, text, position⟩]
  | .negate operand position => operand.postfixTokens ++ [⟨.minus, .rightUnary, "-", position⟩]
  | .binary operator left right position =>
      left.postfixTokens ++ right.postfixTokens ++
        [⟨tokenKind operator, .binary, "", position⟩]
  | .pipe value callee position =>
      value.postfixTokens ++ callee.postfixTokens ++
        [⟨.pipe, .binary, "|>", position⟩, ⟨.call, .leftUnary, "", position⟩]
  | .pipeWith value callee argument position =>
      value.postfixTokens ++ callee.postfixTokens ++ [⟨.pipe, .binary, "|>", position⟩] ++
        argument.postfixTokens ++ [⟨.call, .binary, "", position⟩]
  | .member subject field position =>
      subject.postfixTokens ++
        [⟨.name, .nullary, field, position⟩, ⟨.member, .binary, ".", position⟩]
  | .bracketed .round inner opened _ =>
      inner.postfixTokens ++ [⟨.group, .leftUnary, "()", opened⟩]
  | .bracketed .square inner opened _ =>
      inner.postfixTokens ++ [⟨.array, .leftUnary, "[]", opened⟩]
  | .bracketed .curly inner opened closed =>
      ⟨.blockBegin, .nullary, "\x7b", opened⟩ ::
        (inner.postfixTokens ++ [⟨.blockEnd, .leftUnary, "\x7d", closed⟩])

end Expr

end Sluice
