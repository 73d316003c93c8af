import Std.Data.HashMap
import Wraparound.Hex
/-!
# Solutions and assignments

A solution lists the bytes of named buffers in the order in which they were reported; the same name
may stand in it twice, and a look-up finds the first. An assignment gives each name at most one
sequence of bytes, the last one set; bytes that were never set are zero. A solution turned into an
assignment therefore keeps the last of two entries of one name.
-/
namespace Wraparound

/-- The bytes of named buffers, in order (`Solution`). -/
structure Solution where
  entries : Array (String × Array UInt8) := #[]
  deriving DecidableEq

namespace Solution

def size (s : Solution) : Nat := s.entries.size

def isEmpty (s : Solution) : Bool := s.entries.isEmpty

def push (s : Solution) (name : String) (bytes : Array UInt8) : Solution :=
  ⟨s.entries.push (name, bytes)⟩

/-- The bytes of the first entry of a name (`Solution.get`). -/
def get? (s : Solution) (name : String) : Option (Array UInt8) :=
  (s.entries.find? (·.1 == name)).map (·.2)

/-- One line for each entry: the name, a colon, the bytes. -/
def text (s : Solution) : String :=
  String.join (s.entries.toList.map fun (name, bytes) =>
    name ++ ":" ++ String.join (bytes.toList.map fun b => " " ++ Hex.byte b) ++ "\n")

end Solution

/-- At most one sequence of bytes for a name (`Assignment`). -/
structure Assignment where
  bytes : Std.HashMap String (Array UInt8) := {}

namespace Assignment

instance : Inhabited Assignment := ⟨{}⟩

def set (a : Assignment) (name : String) (bytes : Array UInt8) : Assignment :=
  ⟨a.bytes.insert name bytes⟩

def get? (a : Assignment) (name : String) : Option (Array UInt8) := a.bytes[name]?

/-- Byte `index` of the buffer `name`; a byte that was not set is zero (`Assignment.byte`). -/
def byte (a : Assignment) (name : String) (index : Nat) : UInt8 :=
  match a.get? name with
  | some bytes => bytes[index]?.getD 0
  | none => 0

/-- The assignment that sets a solution's entries one after the other (`Assignment.from`). -/
def ofSolution (s : Solution) : Assignment :=
  s.entries.foldl (fun a entry => a.set entry.1 entry.2) {}

theorem get?_set (a : Assignment) (name other : String) (bytes : Array UInt8) :
    (a.set name bytes).get? other = if name = other then some bytes else a.get? other := by
  simp [set, get?, Std.HashMap.getElem?_insert]

end Assignment
end Wraparound
