import Wraparound.Circuit.Operator
import Wraparound.Proofs.Run
/-!
# How long the vectors of the circuits are

On operands of one length the result of an operator has that length again, whatever the diagram is. So a
position that exists in an operand exists in every vector that is computed on the way.
-/
namespace Wraparound.Circuit

variable {a b acc : Bits} {r : Ref} {fill : Ref} {dir : Direction} {n : Nat}

theorem bitwise_returns (op : Ref → Ref → Diagram.Action Ref) (h : a.length = b.length) :
    Returns (bitwise op a b) (·.length = a.length) := by
  induction a generalizing b with
  | nil => exact .pure rfl
  | cons x a ih =>
    cases b with
    | nil => cases h
    | cons y b =>
      refine (Returns.any _).bind fun z _ => (ih (Nat.succ.inj h)).bind fun zs hzs => .pure ?_
      rw [List.length_cons, hzs, List.length_cons]

theorem mux_returns (cond : Ref) (h : a.length = b.length) : Returns (mux cond a b) (·.length = a.length) :=
  bitwise_returns _ h

theorem addFrom_returns (carry : Ref) (h : a.length = b.length) :
    Returns (addFrom carry a b) (·.length = a.length) := by
  induction a generalizing b carry with
  | nil => exact .pure rfl
  | cons x a ih =>
    cases b with
    | nil => cases h
    | cons y b =>
      refine (Returns.any _).bind fun half _ => (Returns.any _).bind fun sum _ => ?_
      refine (Returns.any _).bind fun both _ => (Returns.any _).bind fun passed _ => ?_
      refine (Returns.any _).bind fun carry _ => (ih carry (Nat.succ.inj h)).bind fun zs hzs => .pure ?_
      rw [List.length_cons, hzs, List.length_cons]

theorem add_returns (h : a.length = b.length) : Returns (add a b) (·.length = a.length) :=
  addFrom_returns _ h

theorem sub_returns (h : a.length = b.length) : Returns (sub a b) (·.length = a.length) :=
  addFrom_returns _ (by rw [List.length_map, h])

theorem negate_returns (a : Bits) : Returns (negate a) (·.length = a.length) := by
  have := sub_returns (a := List.replicate a.length .zero) (b := a) List.length_replicate
  rwa [List.length_replicate] at this

theorem mapM_returns {α : Type} {f : α → Diagram.Action Ref} (l : List α) :
    Returns (l.mapM f) (·.length = l.length) := by
  induction l with
  | nil => exact .pure rfl
  | cons x l ih =>
    rw [List.mapM_cons]
    refine (Returns.any _).bind fun y _ => ih.bind fun ys hys => .pure ?_
    rw [List.length_cons, hys, List.length_cons]

theorem mulFrom_returns {i : Nat} (hacc : acc.length = a.length) (h : i + b.length ≤ a.length) :
    Returns (mulFrom a i b acc) (·.length = a.length) := by
  induction b generalizing i acc with
  | nil => exact .pure hacc
  | cons x b ih =>
    rw [List.length_cons] at h
    unfold mulFrom
    split
    · exact ih hacc (by omega)
    · refine (mapM_returns _).bind fun row hrow => (add_returns ?_).bind fun sum hsum => ?_
      · rw [List.length_append, List.length_replicate, hrow, List.length_take, hacc]
        omega
      · exact ih (hsum.trans hacc) (by omega)

theorem mul_returns (h : a.length = b.length) : Returns (mul a b) (·.length = a.length) :=
  mulFrom_returns List.length_replicate (by omega)

/-- The remainder of a division, one bit longer than the operands, with the next bit of the dividend. -/
theorem length_shifted {x : Ref} {rest divisor : Bits} (h : rest.length = divisor.length)
    (hpos : 0 < divisor.length) : (x :: rest.dropLast).length = divisor.length := by
  rw [List.length_cons, List.length_dropLast]
  omega

theorem divideFrom_returns {divisor quotient rest : Bits} (hrest : rest.length = divisor.length)
    (hpos : 0 < divisor.length) : Returns (divideFrom divisor a quotient rest) fun r =>
      r.1.length = a.length + quotient.length ∧ r.2.length = divisor.length := by
  induction a generalizing quotient rest with
  | nil => exact .pure ⟨(Nat.zero_add _).symm, hrest⟩
  | cons x a ih =>
    have hlen := length_shifted (x := x) hrest hpos
    refine (Returns.any _).bind fun fits _ => (sub_returns hlen).bind fun reduced hreduced => ?_
    refine (mux_returns _ hreduced).bind fun rest hrest' => ?_
    refine (ih (hrest'.trans (hreduced.trans hlen))).mono fun r hr => ⟨?_, hr.2⟩
    rw [hr.1, List.length_cons, List.length_cons]
    omega

theorem divide_returns (h : a.length = b.length) :
    Returns (divide a b) fun r => r.1.length = a.length ∧ r.2.length = a.length := by
  have hlen : (List.replicate (a.length + 1) Ref.zero).length = (b ++ [Ref.zero]).length := by
    rw [List.length_replicate, List.length_append, h, List.length_singleton]
  refine (divideFrom_returns hlen (by rw [List.length_append, List.length_singleton]; omega)).bind
    fun r hr => .pure ⟨?_, ?_⟩
  · rw [hr.1, List.length_reverse, List.length_nil, Nat.add_zero]
  · rw [List.length_take, hr.2, List.length_append, List.length_singleton, h]
    omega

theorem negateWhere_returns (cond : Ref) (a : Bits) : Returns (negateWhere cond a) (·.length = a.length) :=
  (negate_returns a).bind fun _ hnegated => (mux_returns cond hnegated).mono fun _ hr => hr.trans hnegated

theorem signedDivide_returns (h : a.length = b.length) :
    Returns (signedDivide a b) fun r => r.1.length = a.length ∧ r.2.length = a.length := by
  refine (negateWhere_returns _ a).bind fun magnitude hm => (negateWhere_returns _ b).bind fun divisor hd => ?_
  refine (divide_returns (by rw [hm, hd, h])).bind fun qr hqr => (Returns.any _).bind fun differ _ => ?_
  refine (negateWhere_returns _ qr.1).bind fun quotient hq => ?_
  refine (negateWhere_returns _ qr.2).bind fun rest hr => .pure ⟨?_, ?_⟩
  · rw [hq, hqr.1, hm]
  · rw [hr, hqr.2, hm]

theorem length_shiftBy (dir : Direction) (fill : Ref) (hn : n ≤ a.length) :
    (shiftBy dir fill n a).length = a.length := by
  cases dir <;> simp [shiftBy]
  omega

theorem shiftFrom_returns : Returns (shiftFrom dir fill n b a) (·.length = a.length) := by
  induction b generalizing n a with
  | nil => exact .pure rfl
  | cons x b ih =>
    unfold shiftFrom
    split
    · rename_i hn
      have hlen := length_shiftBy dir fill (Nat.le_of_lt hn)
      exact (mux_returns x hlen).bind fun moved hmoved => ih.mono fun r hr => hr.trans (hmoved.trans hlen)
    · exact .pure rfl

theorem shift_returns : Returns (shift dir fill a b) (·.length = a.length) := by
  refine shiftFrom_returns.bind fun moved hmoved => (Returns.any _).bind fun tooFar _ => ?_
  exact (mux_returns _ (by rw [List.length_replicate, hmoved])).mono fun r hr => by
    rw [hr, List.length_replicate]

/-- **The result of an operator is as long as its operands.** -/
theorem arith_returns (op : ArithOp) (h : a.length = b.length) :
    Returns (arith op a b) (·.length = a.length) := by
  cases op with
  | add => exact add_returns h
  | sub => exact sub_returns h
  | mul => exact mul_returns h
  | udiv => exact (divide_returns h).bind fun r hr => .pure hr.1
  | urem => exact (divide_returns h).bind fun r hr => .pure hr.2
  | sdiv => exact (signedDivide_returns h).bind fun r hr => .pure hr.1
  | srem => exact (signedDivide_returns h).bind fun r hr => .pure hr.2
  | and | or | xor => exact bitwise_returns _ h
  | shl | lshr | ashr => exact shift_returns

theorem readFrom_returns {byteAt : Nat → Diagram.Action Bits} {index : Bits} {count position : Nat}
    (hbyte : ∀ i, Returns (byteAt i) (·.length = acc.length)) :
    Returns (readFrom index byteAt count position acc) (·.length = acc.length) := by
  induction count generalizing position acc with
  | zero => exact .pure rfl
  | succ count ih =>
    unfold readFrom
    refine (Returns.any _).bind fun hit _ => ?_
    split
    · exact ih hbyte
    · refine (hbyte position).bind fun byte hb => (mux_returns hit hb).bind fun acc' hacc => ?_
      have hlen := hacc.trans hb
      exact (ih fun i => (hbyte i).mono fun x hx => hx.trans hlen.symm).mono fun r hr => hr.trans hlen

theorem read_returns {byteAt : Nat → Diagram.Action Bits} {index : Bits} {size : Nat}
    (hbyte : ∀ i, Returns (byteAt i) (·.length = 8)) :
    Returns (read index size byteAt) (·.length = 8) :=
  (readFrom_returns hbyte).mono fun _ hr => hr.trans List.length_replicate

end Wraparound.Circuit
