/-!
# References into a diagram

A reference names a node of a diagram and says whether the node's function is negated. Both are
packed into one number, the node's index above the negation bit, so that a reference is as cheap to
hash and compare as a number. `Ref.ext` and the lemmas on `index` and `negated` are the view of a
reference; nothing else need know of the packing.
-/
namespace Wraparound

/-- A node and whether it is negated, as one number (`Ref`). -/
structure Ref where
  code : Nat
  deriving DecidableEq, Hashable, Repr

namespace Ref

/-- The node of index `i`, not negated (`Ref.positive`). -/
def regularAt (i : Nat) : Ref := ⟨2 * i⟩

/-- A reference packed into 32 bits (`Ref.new`): the index loses the bit that no longer fits. -/
def pack (index : Nat) (negated : Bool) : Ref := ⟨(index <<< 1) % 0x100000000 + negated.toNat⟩

/-- The constantly true function: the terminal itself. -/
def one : Ref := ⟨0⟩

/-- The constantly false function: the terminal, negated. -/
def zero : Ref := ⟨1⟩

def index (r : Ref) : Nat := r.code / 2

def negated (r : Ref) : Bool := r.code % 2 == 1

/-- The reference without its negation (`Ref.regular`). -/
def regular (r : Ref) : Ref := ⟨2 * (r.code / 2)⟩

instance : Neg Ref := ⟨fun r => ⟨r.code ^^^ 1⟩⟩

/-- `-r` if `b`, else `r`. -/
def negateIf (b : Bool) (r : Ref) : Ref := if b then -r else r

/-- The constant function (`Bdd.constant`). -/
def ofBool (b : Bool) : Ref := if b then one else zero

def isZero (r : Ref) : Bool := r == zero

def isOne (r : Ref) : Bool := r == one

def isTerminal (r : Ref) : Bool := r.isZero || r.isOne

instance : ToString Ref := ⟨fun r => (if r.negated then "~" else "") ++ s!"@{r.index}"⟩

/-! ## The view -/

theorem code_neg (r : Ref) : (-r).code = if r.code % 2 = 0 then r.code + 1 else r.code - 1 := by
  show r.code ^^^ 1 = _
  rw [← Nat.div_add_mod r.code 2]
  generalize r.code / 2 = q
  have hm : r.code % 2 = 0 ∨ r.code % 2 = 1 := by omega
  have even : (2 * q) ^^^ 1 = 2 * q + 1 := by
    have hd : ((2 * q) ^^^ 1) / 2 = q := by rw [Nat.xor_div_two]; simp
    have hm : ((2 * q) ^^^ 1) % 2 = 1 := by rw [Nat.xor_mod_two_eq_one]; omega
    omega
  rcases hm with h | h
  · rw [h]; simp [even]
  · have : (2 * q + 1) ^^^ 1 = 2 * q := by rw [← even, Nat.xor_assoc, Nat.xor_self, Nat.xor_zero]
    rw [h, this]; simp

@[simp] theorem index_neg (r : Ref) : (-r).index = r.index := by
  simp only [index, code_neg]; split <;> omega

@[simp] theorem negated_neg (r : Ref) : (-r).negated = !r.negated := by
  simp only [negated, code_neg]
  have hm : r.code % 2 = 0 ∨ r.code % 2 = 1 := by omega
  rcases hm with h | h
  · rw [if_pos h]
    have : (r.code + 1) % 2 = 1 := by omega
    simp [h, this]
  · rw [if_neg (by omega)]
    have : (r.code - 1) % 2 = 0 := by omega
    simp [h, this]

/-- A reference is its index and its negation. -/
theorem ext_view {r s : Ref} (hi : r.index = s.index) (hn : r.negated = s.negated) : r = s := by
  cases r with | mk a =>
  cases s with | mk b =>
  simp only [index, negated] at hi hn
  congr 1
  have ha : a % 2 = 0 ∨ a % 2 = 1 := by omega
  have hb : b % 2 = 0 ∨ b % 2 = 1 := by omega
  rcases ha with ha | ha <;> rcases hb with hb | hb <;> simp [ha, hb] at hn <;> omega

@[simp] theorem neg_neg (r : Ref) : - -r = r := ext_view (by simp) (by simp)

theorem ne_neg (r : Ref) : r ≠ -r := by
  intro h
  have := congrArg negated h
  simp at this

@[simp] theorem index_regularAt (i : Nat) : (regularAt i).index = i := by simp [regularAt, index]

@[simp] theorem negated_regularAt (i : Nat) : (regularAt i).negated = false := by
  simp [regularAt, negated]

@[simp] theorem index_one : one.index = 0 := rfl

@[simp] theorem index_zero : zero.index = 0 := rfl

theorem neg_one : -one = zero := rfl

theorem neg_zero : -zero = one := rfl

/-- The two references to the terminal are the constants. -/
theorem isTerminal_iff (r : Ref) : r.isTerminal = true ↔ r.index = 0 := by
  simp only [isTerminal, isZero, isOne, Bool.or_eq_true, beq_iff_eq]
  constructor
  · rintro (rfl | rfl) <;> rfl
  · intro h
    cases hn : r.negated with
    | true => exact .inl (ext_view h (by rw [hn]; rfl))
    | false => exact .inr (ext_view h (by rw [hn]; rfl))

end Ref
end Wraparound
