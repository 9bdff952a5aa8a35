import EdgeTemplate.Directive
import EdgeTemplate.Problem

/-!
# Blocks

A block directive stays open until a closer takes it. `@end` takes the innermost open block;
`@endname` takes the innermost open block of that name and leaves the blocks inside it open.
-/

namespace EdgeTemplate

/-- The part of a directive in matching blocks. -/
inductive Role where
  | opener (block : String)
  | closer
  | namedCloser (block : String)
  | neutral
  deriving DecidableEq

def Role.ofDirective (name : String) : Role :=
  if name ∈ blockNames then .opener name
  else
    match name.toList with
    | ['e', 'n', 'd'] => .closer
    | 'e' :: 'n' :: 'd' :: block => .namedCloser (String.ofList block)
    | _ => .neutral

def Role.ofKind : Kind → Role
  | .directive name => ofDirective name
  | _ => .neutral

/-- An open block and the directive that opened it. -/
structure Frame where
  block : String
  index : Nat
  node : Record
  deriving DecidableEq

namespace Frame

/-- The open blocks after a directive, innermost first. -/
def advance (opened : List Frame) (index : Nat) (node : Record) : Role → List Frame
  | .opener block => ⟨block, index, node⟩ :: opened
  | .closer => opened.tail
  | .namedCloser block => opened.eraseP (·.block == block)
  | .neutral => opened

/-- A closer that finds no block to take. -/
def stray? (opened : List Frame) : Role → Option Problem
  | .closer => if opened.isEmpty then some .strayEnd else none
  | .namedCloser block => if opened.any (·.block == block) then none else some (.strayNamedEnd block)
  | _ => none

end Frame

end EdgeTemplate
