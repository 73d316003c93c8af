import Wraparound.Kind
/-!
# Faults: breaches of the contract between the library and its caller

A fault is not an answer. It says that a call was made on operands the called operation does not
accept, or on a handle that no store ever gave out. An operation that faults keeps what it had done
before; only the call itself is lost. `Fault.message` is the one place where a fault is worded.

Faults without a wording are met only through references or child positions that were made up by the
caller, or are those of a machine that no correct program lets it raise.
-/
namespace Wraparound

inductive Fault where
  /-- A width outside 1 to 64 bits was asked for. -/
  | widthRange (bits : Nat)
  /-- Position `index` of a table of `size` entries was read. -/
  | vacant (index size : Nat)
  /-- A read was built on a buffer that is not registered. -/
  | unknownBuffer (buffer : Nat)
  /-- A second buffer was registered under a name in use. -/
  | bufferTaken (name : String)
  | selectCondition
  | selectBranches
  | extractRange (bits offset source : Nat)
  | zeroExtendNarrows (source target : Nat)
  | signExtendNarrows (source target : Nat)
  | notBinary (kind : Kind)
  | notArithmetic (kind : Kind)
  | notComparison (kind : Kind)
  | operandWidths (kind : Kind)
  | childCount (kind : Kind) (expected given : Nat)
  /-- A named value must be made of whole bytes. -/
  | symbolicWidth (bits : Nat)
  /-- A boolean term was required. -/
  | notBoolean (bits : Nat)
  /-- A path condition was rolled back to a point it has not reached. -/
  | snapshotAhead (recorded present : Nat)
  /-- Variable 0 belongs to the terminal of a diagram. -/
  | variableZero
  /-- A constant was shown to the hook of its kind. -/
  | constantVisited (handle : Nat)
  /-- A child position past the last child. -/
  | childRange
  /-- Cofactors at a variable that lies below the root of the function. -/
  | foreignVariable
  /-- A diagram variable was read back with no buffer registered. -/
  | noBuffers
  /-- A recursion met its own starting point or outran its budget. -/
  | unfounded
  /-- A number is not below `bound`: the place of a bit in a register, or what has to fit one. -/
  | outOfRange (value bound : Nat)
  | zeroDivisor
  /-- A result is not what the program that computed it takes it to be. -/
  | selfCheck
  deriving DecidableEq, Repr

/-- The wording of a fault, if it has one. -/
def Fault.message : Fault → Option String
  | .widthRange bits => s!"Width must be in the range 1..=64, got {bits}"
  | .vacant index size => s!"Index {index} is not occupied (size {size})"
  | .unknownBuffer buffer => s!"Unknown array arr{buffer}"
  | .bufferTaken name => "Array '" ++ name ++ "' is already registered"
  | .selectCondition => "Select condition must be boolean"
  | .selectBranches => "Select branches must have equal widths"
  | .extractRange bits offset source =>
    s!"Extract of {bits} bits at offset {offset} is out of range for w{source}"
  | .zeroExtendNarrows source target => s!"Cannot zero-extend w{source} to w{target}"
  | .signExtendNarrows source target => s!"Cannot sign-extend w{source} to w{target}"
  | .notBinary kind => s!"{kind.name} is not a binary operator"
  | .notArithmetic kind => s!"{kind.name} is not a binary arithmetic operator"
  | .notComparison kind => s!"{kind.name} is not a comparison"
  | .operandWidths kind => s!"Operands of {kind.name} must have equal widths"
  | .childCount kind expected given => s!"{kind.name} expects {expected} children, got {given}"
  | .symbolicWidth bits => s!"Symbolic values must have a byte-multiple width, got w{bits}"
  | .notBoolean bits => s!"Expected a boolean expression, got w{bits}"
  | .snapshotAhead recorded present =>
    s!"Snapshot of {recorded} constraints is newer than the set ({present})"
  | .variableZero => "Variable index should not be zero"
  | .constantVisited handle => s!"MalformedExpression: constant @{handle} reached per-kind dispatch"
  | .childRange | .foreignVariable | .noBuffers | .unfounded | .outOfRange .. | .zeroDivisor
  | .selfCheck => none

end Wraparound
