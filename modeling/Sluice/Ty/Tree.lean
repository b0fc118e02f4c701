import Sluice.Ty.Atom
import Sluice.Text.Digits

namespace Sluice

inductive Tree
  | prim (primitive : Primitive)
  | tuple (elements : List Tree)
  | array (element : Tree) (count : UInt32)
  | func (result argument : Tree)

namespace Tree

mutual

-- Depth first. The result of a function comes before its argument.
def atoms : Tree → List Atom
  | .prim primitive => [.prim primitive]
  | .tuple elements => .tuple :: (atomsAll elements ++ [.close])
  | .array element count => .array :: (element.atoms ++ [.count count])
  | .func result argument => .func :: (result.atoms ++ argument.atoms ++ [.close])

def atomsAll : List Tree → List Atom
  | [] => []
  | tree :: rest => tree.atoms ++ atomsAll rest

end

mutual

-- Values are packed, and a function is its handle.
def size : Tree → Nat
  | .prim primitive => primitive.width
  | .tuple elements => sizeAll elements
  | .array element count => element.size * count.toNat
  | .func _ _ => handleWidth

def sizeAll : List Tree → Nat
  | [] => 0
  | tree :: rest => tree.size + sizeAll rest

end

mutual

-- In text the argument of a function comes first.
def text : Tree → String
  | .prim primitive => primitive.text
  | .tuple elements => "(" ++ Text.joined "," (textAll elements) ++ ")"
  | .array element count => "@array(" ++ element.text ++ "," ++ toString count ++ ")"
  | .func result argument => "@fn(" ++ argument.text ++ "->" ++ result.text ++ ")"

def textAll : List Tree → List String
  | [] => []
  | tree :: rest => tree.text :: textAll rest

end

end Tree

end Sluice
