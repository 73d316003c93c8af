import Wraparound.Machine.Circuit
import Wraparound.Proofs.Circuit.Length
import Wraparound.Proofs.Circuit.Spelling
import Wraparound.Proofs.Machine.Word
/-!
# Every position that a circuit looks up exists

On operands of one length, from 1 to 64, the circuits with checked positions are the circuits: no position
lies past the end of a row and no shift past the end of a register.
-/
namespace Wraparound.Machine.Circuit

open Wraparound.Circuit (Bits Direction)

variable {a b acc : Bits} {r fill : Ref} {dir : Direction} {w : Width} {i k n : Nat} {α β σ : Type}

/-! ## Rows -/

theorem entry_eq (h : i < a.length) : entry a i = .ok a[i] := by
  rw [entry, List.getElem?_eq_getElem h]

theorem replace_eq (h : i < a.length) : replace a i r = .ok (a.set i r) := if_pos h

theorem slice_eq {start stop : Nat} (h : start ≤ stop) (h' : stop ≤ a.length) :
    slice a start stop = .ok ((a.drop start).take (stop - start)) := if_pos ⟨h, h'⟩

theorem resize_eq (h : a.length ≤ n) : resize a n r = a ++ List.replicate (n - a.length) r := by
  rw [resize, List.take_of_length_le h]

theorem mapM_congr {l : List α} {f g : α → EStateM Fault σ β} (h : ∀ x ∈ l, f x = g x) :
    l.mapM f = l.mapM g := by
  induction l with
  | nil => rfl
  | cons x l ih =>
    obtain ⟨hx, hl⟩ := List.forall_mem_cons.1 h
    rw [List.mapM_cons, List.mapM_cons, hx, ih hl]

/-- The entries of a row, read by their positions one after the other. -/
theorem mapM_entry (f : Ref → EStateM Fault σ β) (h : n ≤ a.length) :
    ((List.range n).mapM fun j => do f (← trying (entry a j))) = (a.take n).mapM f := by
  induction n with
  | zero => rfl
  | succ n ih =>
    rw [List.range_succ, List.mapM_append, ih (Nat.le_of_succ_le h), List.take_succ_eq_append_getElem h,
      List.mapM_append]
    simp only [List.mapM_cons, List.mapM_nil, trying_ok (entry_eq h)]

theorem constant_eq (h : n ≤ 64) (v : Nat) : constant n (register v) = .ok (Wraparound.Circuit.constant n v) := by
  refine mapM_ok fun i hi => ?_
  have := List.mem_range.1 hi
  rw [bit_register (by omega)]
  rfl

/-! ## Multiplying and dividing -/

theorem row_eq (h : i ≤ a.length) :
    row a r i = (a.take (a.length - i)).mapM (Diagram.conj r) >>= fun partials =>
      pure (List.replicate i .zero ++ partials) := by
  have low : ((List.range i).mapM fun j => if j < i then pure .zero else do
      let x ← trying (minus j i >>= entry a)
      Diagram.conj r x) = pure (List.replicate i .zero) := by
    rw [mapM_congr (g := fun _ => pure Ref.zero) fun j hj => if_pos (List.mem_range.1 hj), List.mapM_pure,
      List.map_const', List.length_range]
  have high : ((List.range (a.length - i)).mapM fun j => if i + j < i then pure .zero else do
      let x ← trying (minus (i + j) i >>= entry a)
      Diagram.conj r x) = (a.take (a.length - i)).mapM (Diagram.conj r) := by
    rw [← mapM_entry _ (Nat.sub_le _ _)]
    refine mapM_congr fun j _ => ?_
    rw [if_neg (Nat.not_lt.2 (Nat.le_add_right i j)), minus_eq (Nat.le_add_right i j), Nat.add_sub_cancel_left]
    rfl
  have hsplit : List.range a.length = List.range i ++ (List.range (a.length - i)).map (i + ·) := by
    rw [← List.range_add, Nat.add_sub_cancel' h]
  unfold row
  rw [hsplit, List.mapM_append, List.mapM_map]
  simp only [low, high, pure_bind, Function.comp_def]

theorem mulFrom_eq (h : i + b.length ≤ a.length) : mulFrom a i b acc = Wraparound.Circuit.mulFrom a i b acc := by
  induction b generalizing i acc with
  | nil => rfl
  | cons x b ih =>
    rw [List.length_cons] at h
    unfold mulFrom Wraparound.Circuit.mulFrom
    split
    · exact ih (by omega)
    · rw [row_eq (by omega), bind_assoc]
      simp only [pure_bind, ih (show i + 1 + b.length ≤ a.length by omega)]

/-- Writing the last of the bits that are still to come. -/
theorem set_replicate_append (i : Nat) (x : Ref) (a : Bits) :
    (List.replicate (i + 1) Ref.zero ++ a).set i x = List.replicate i .zero ++ x :: a := by
  rw [List.replicate_succ', List.append_assoc, List.set_append_right _ _ (Nat.le_of_eq List.length_replicate),
    List.length_replicate, Nat.sub_self]
  rfl

theorem divideFrom_eq {divisor quotient rest : Bits} (hi : i ≤ a.length) (hq : quotient.length = a.length - i)
    (hrest : rest.length = divisor.length) (hpos : 0 < divisor.length) :
    divideFrom divisor a i (List.replicate i .zero ++ quotient) rest =
      Wraparound.Circuit.divideFrom divisor (a.take i).reverse quotient rest := by
  induction i generalizing quotient rest with
  | zero => rfl
  | succ i ih =>
    rw [List.take_succ_eq_append_getElem hi, List.reverse_append, List.reverse_singleton]
    unfold divideFrom Wraparound.Circuit.divideFrom
    rw [trying_ok (entry_eq hi)]
    have hlen := Wraparound.Circuit.length_shifted (x := a[i]) hrest hpos
    refine Returns.bind_congr (Returns.any _) fun lt _ => ?_
    refine (trying_ok (replace_eq ?_) _).trans ?_
    · rw [List.length_append, List.length_replicate]
      omega
    refine Returns.bind_congr (Wraparound.Circuit.sub_returns hlen) fun reduced hreduced => ?_
    refine Returns.bind_congr (Wraparound.Circuit.mux_returns _ hreduced) fun rest' hrest' => ?_
    rw [set_replicate_append]
    refine ih (Nat.le_of_succ_le hi) ?_ (hrest'.trans (hreduced.trans hlen))
    rw [List.length_cons, hq]
    omega

theorem divide_eq (h : a.length = b.length) : divide a b = Wraparound.Circuit.divide a b := by
  have hlen : (List.replicate (a.length + 1) Ref.zero).length = (b ++ [Ref.zero]).length := by
    rw [List.length_replicate, List.length_append, h, List.length_singleton]
  unfold divide Wraparound.Circuit.divide
  have hnone : ([] : Bits).length = a.length - a.length := (Nat.sub_self _).symm
  have hrun := divideFrom_eq (Nat.le_refl _) hnone hlen (by rw [List.length_append, List.length_singleton]; omega)
  rw [List.append_nil, List.take_length] at hrun
  rw [hrun]

/-- The sign that is read at the top position. -/
theorem entry_top (hpos : 0 < a.length) : entry a (a.length - 1) = .ok (Wraparound.Circuit.sign a) := by
  have htop : a.length - 1 < a.length := Nat.sub_one_lt (Nat.ne_of_gt hpos)
  rw [entry_eq htop, Wraparound.Circuit.sign, List.getLastD_eq_getLast?, List.getLast?_eq_getElem?,
    List.getElem?_eq_getElem htop]
  rfl

theorem signedDivide_eq (h : a.length = b.length) (hpos : 0 < a.length) :
    signedDivide a b = Wraparound.Circuit.signedDivide a b := by
  unfold signedDivide Wraparound.Circuit.signedDivide
  refine (trying_ok (minus_eq hpos) _).trans ((trying_ok (entry_top hpos) _).trans ?_)
  refine (trying_ok (h ▸ entry_top (h ▸ hpos)) _).trans ?_
  refine Returns.bind_congr (Wraparound.Circuit.negateWhere_returns _ a) fun magnitude hm => ?_
  refine Returns.bind_congr (Wraparound.Circuit.negateWhere_returns _ b) fun divisor hd => ?_
  rw [divide_eq (by rw [hm, hd, h])]

/-! ## Shifting -/

/-- A row is the list of its entries. -/
theorem map_getD_range (a : Bits) (fill : Ref) : (List.range a.length).map (a.getD · fill) = a := by
  apply List.ext_getElem (by simp)
  intro i h₁ h₂
  simp [h₂]

theorem moved_eq (hk : k < a.length) :
    (List.range a.length).mapM (movedEntry dir fill a.length k a) =
      .ok (Wraparound.Circuit.shiftBy dir fill k a) := by
  have hlen : (Wraparound.Circuit.shiftBy dir fill k a).length = a.length := Wraparound.Circuit.length_shiftBy dir fill (Nat.le_of_lt hk)
  rw [← map_getD_range (Wraparound.Circuit.shiftBy dir fill k a) fill, hlen]
  refine mapM_ok fun j hj => ?_
  have hj := List.mem_range.1 hj
  cases dir with
  | left =>
    simp only [movedEntry, Wraparound.Circuit.shiftBy]
    by_cases h : k ≤ j
    · rw [if_pos h, minus_eq h]
      refine (entry_eq (Nat.lt_of_le_of_lt (Nat.sub_le j k) hj)).trans (congrArg _ ?_)
      simp [List.getD, hj, h]
    · have h := Nat.not_le.1 h
      rw [if_neg (Nat.not_le.2 h)]
      simp [List.getD, hj, h]
  | right =>
    simp only [movedEntry, Wraparound.Circuit.shiftBy]
    by_cases h : j + k < a.length
    · rw [if_pos h, entry_eq h]
      have : j < (a.drop k).length := by rw [List.length_drop]; omega
      simp [List.getD, List.getElem?_append_left this, Nat.add_comm k j, h]
    · have : (a.drop k).length ≤ j := by rw [List.length_drop]; omega
      have hin : j - (a.length - k) < k := by omega
      rw [if_neg h]
      simp [List.getD, List.getElem?_append_right this, hin]

/-- The stages end before the weight of a stage no longer fits a register. -/
theorem shiftFrom_eq {amount : Bits} {stage : Nat} (hn : a.length ≤ 64) (hb : amount.length = a.length)
    (hstage : stage < 64) :
    shiftFrom dir fill amount a.length stage a =
      Wraparound.Circuit.shiftFrom dir fill (2 ^ stage) (amount.drop stage) a := by
  induction hd : 64 - stage generalizing stage a with
  | zero => omega
  | succ d ih =>
    unfold shiftFrom
    rw [if_pos hstage, Nat.one_shiftLeft]
    by_cases hin : stage < amount.length
    · rw [List.drop_eq_getElem_cons hin]
      unfold Wraparound.Circuit.shiftFrom
      split
      · rename_i hk
        refine (trying_ok (moved_eq hk) _).trans ((trying_ok (entry_eq hin) _).trans ?_)
        have hlen : (Wraparound.Circuit.shiftBy dir fill (2 ^ stage) a).length = a.length :=
          Wraparound.Circuit.length_shiftBy dir fill (Nat.le_of_lt hk)
        refine Returns.bind_congr (Wraparound.Circuit.mux_returns _ hlen) fun moved hmoved => ?_
        have hmoved := hmoved.trans hlen
        have : 2 ^ stage < 2 ^ 6 := by omega
        have := (Nat.pow_lt_pow_iff_right (by decide : 1 < 2)).1 this
        rw [← hmoved, ih (by omega) (by omega) (by omega) (by omega), Nat.pow_succ']
      · rfl
    · have := @Nat.lt_two_pow_self stage
      rw [if_neg (by omega), List.drop_of_length_le (by omega)]
      rfl

theorem shift_eq (h64 : a.length ≤ 64) (h : a.length = b.length) :
    shift dir fill a b = Wraparound.Circuit.shift dir fill a b := by
  unfold shift Wraparound.Circuit.shift
  rw [shiftFrom_eq h64 h.symm (by omega), Nat.pow_zero, List.drop_zero]
  refine congrArg _ (funext fun moved => ?_)
  rw [trying_ok (constant_eq h64 _)]

/-- **No operator looks past the end of a row or shifts past the end of a register.** -/
theorem arith_eq (op : ArithOp) (h : a.length = b.length) (hpos : 0 < a.length) (h64 : a.length ≤ 64) :
    arith op a b = Wraparound.Circuit.arith op a b := by
  cases op with
  | add | sub | and | or | xor => rfl
  | mul => exact mulFrom_eq (by omega)
  | udiv | urem =>
    unfold arith Wraparound.Circuit.arith
    simp only [divide_eq h]
  | sdiv | srem =>
    unfold arith Wraparound.Circuit.arith
    simp only [signedDivide_eq h hpos]
  | shl | lshr => exact shift_eq h64 h
  | ashr =>
    exact (trying_ok (minus_eq hpos) _).trans ((trying_ok (entry_top hpos) _).trans (shift_eq h64 h))

/-! ## Comparing -/

/-- The sign is the entry at the top. -/
theorem flipSign_eq_set (a : Bits) :
    Wraparound.Circuit.flipSign a = a.set (a.length - 1) (-Wraparound.Circuit.sign a) := by
  induction a with
  | nil => rfl
  | cons x a ih =>
    cases a with
    | nil => rfl
    | cons y a => exact congrArg (x :: ·) ih

theorem flipAt_eq (hpos : 0 < a.length) : flipAt (a.length - 1) a = .ok (Wraparound.Circuit.flipSign a) := by
  unfold flipAt
  rw [entry_top hpos, flipSign_eq_set]
  exact replace_eq (Nat.sub_one_lt (Nat.ne_of_gt hpos))

theorem signedLess_eq (h : a.length = b.length) (hpos : 0 < a.length) :
    signedLess a b = Wraparound.Circuit.signedLess a b := by
  refine (trying_ok (minus_eq hpos) _).trans ((trying_ok (flipAt_eq hpos) _).trans ?_)
  exact trying_ok (h ▸ flipAt_eq (h ▸ hpos)) _

theorem relation_eq (rel : Relation) (h : a.length = b.length) (hpos : 0 < a.length) :
    relation rel a b = Wraparound.Circuit.relation rel a b := by
  have hab := signedLess_eq h hpos
  have hba := signedLess_eq h.symm (h ▸ hpos)
  cases rel <;> simp only [relation, Wraparound.Circuit.relation, hab, hba]

/-! ## Reading -/

theorem readFrom_eq {index : Bits} {byteAt : Nat → Diagram.Action Bits} {count position : Nat}
    (hindex : index.length = w.bits) :
    readFrom index (padded (BitVec.allOnes w.bits)) byteAt count position acc =
      Wraparound.Circuit.readFrom index byteAt (min count (2 ^ w.bits - position)) position acc := by
  induction count generalizing position acc with
  | zero => rw [Nat.zero_min]; rfl
  | succ count ih =>
    have := Nat.two_pow_pos w.bits
    unfold readFrom
    rw [toNat_padded, BitVec.toNat_allOnes]
    by_cases h : 2 ^ w.bits - 1 < position
    · rw [if_pos h, show 2 ^ w.bits - position = 0 by omega, Nat.min_zero]
      rfl
    · rw [if_neg h, show min (count + 1) (2 ^ w.bits - position) =
        min count (2 ^ w.bits - (position + 1)) + 1 by omega]
      unfold Wraparound.Circuit.readFrom
      rw [trying_ok (constant_eq (hindex ▸ w.le) _)]
      simp only [ih]

/-- Only the bytes of the positions that are gone through count, and of these only the ones that the index can
hit. -/
theorem readFrom_agrees {F : Fault → Prop} {index : Bits} {byteAt byteAt' : Nat → Diagram.Action Bits}
    {count position : Nat} (h : ∀ i < position + count, ∀ d, Agrees F (byteAt' i) (byteAt i) d) (d : Diagram) :
    Agrees F (Wraparound.Circuit.readFrom index byteAt' count position acc)
      (Wraparound.Circuit.readFrom index byteAt count position acc) d := by
  induction count generalizing position acc d with
  | zero => exact .refl _ d
  | succ count ih =>
    have hrest : ∀ acc d, Agrees F (Wraparound.Circuit.readFrom index byteAt' count (position + 1) acc)
        (Wraparound.Circuit.readFrom index byteAt count (position + 1) acc) d :=
      fun acc => ih fun i hi => h i (by omega)
    unfold Wraparound.Circuit.readFrom
    refine (Agrees.refl _ d).bind fun hit d _ => ?_
    split
    · exact hrest acc d
    · exact (h position (by omega) d).bind fun byte d _ => (Agrees.refl _ d).bind fun acc d _ => hrest acc d

/-- **A read looks up the bytes of the buffer only.** -/
theorem read_agrees {F : Fault → Prop} {index : Bits} {byteAt byteAt' : Nat → Diagram.Action Bits} {size : Nat}
    (hindex : index.length = w.bits) (hbyte : ∀ i < size, ∀ d, Agrees F (byteAt' i) (byteAt i) d) (d : Diagram) :
    Agrees F (read index w size byteAt') (Wraparound.Circuit.read index size byteAt) d := by
  unfold read Wraparound.Circuit.read
  rw [trying_ok (mask_eq w), readFrom_eq hindex, hindex, Nat.one_shiftLeft, Nat.sub_zero]
  exact readFrom_agrees (fun i hi => hbyte i (by omega)) d

end Wraparound.Machine.Circuit
