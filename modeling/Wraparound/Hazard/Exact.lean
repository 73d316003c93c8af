import Wraparound.Word
/-!
# When an operator goes wrong, in exact arithmetic

The same events as the hazard predicates, said of the operands' patterns without any vector
arithmetic: the exact result of the operator on the unsigned values, or on the two's complement
values, is compared with what the width can hold.
-/
namespace Wraparound.Hazard

/-- The exact integer is not the value of a pattern of the width read without a sign. -/
def EscapesUnsigned (w : Width) (exact : Int) : Prop := exact < 0 ∨ (w.modulus : Int) ≤ exact

/-- The exact integer is not the value of a pattern of the width read in two's complement. -/
def EscapesSigned (w : Width) (exact : Int) : Prop :=
  exact < -(w.signBit : Int) ∨ (w.signBit : Int) ≤ exact

instance (w : Width) (i : Int) : Decidable (EscapesUnsigned w i) := by
  unfold EscapesUnsigned; infer_instance

instance (w : Width) (i : Int) : Decidable (EscapesSigned w i) := by
  unfold EscapesSigned; infer_instance

/-- An exact operation leaves the range of one of the two readings. -/
def Escapes (w : Width) (exact : Int → Int → Int) (a b : Nat) : Prop :=
  EscapesUnsigned w (exact a b) ∨ EscapesSigned w (exact (Word.toSigned w a) (Word.toSigned w b))

instance (w : Width) (f : Int → Int → Int) (a b : Nat) : Decidable (Escapes w f a b) := by
  unfold Escapes; infer_instance

/-- The operator goes wrong on the operands `a` and `b`. -/
def GoesWrong (op : ArithOp) (w : Width) (a b : Nat) : Prop :=
  match op with
  | .add => Escapes w (· + ·) a b
  | .sub => Escapes w (· - ·) a b
  | .mul => Escapes w (· * ·) a b
  | .udiv | .urem | .srem => b = 0
  | .sdiv => b = 0 ∨ EscapesSigned w ((Word.toSigned w a).tdiv (Word.toSigned w b))
  | .shl => w.bits ≤ b ∨ w.modulus ≤ a <<< b
  | _ => False

end Wraparound.Hazard
