import Wraparound.Decision.ByDiagram
import Wraparound.Proofs.Encoding.Encoder
import Wraparound.Proofs.Term.Evaluation
import Wraparound.Proofs.Term.Sample
/-!
# Encoder and evaluator agree bit for bit

An encoder may be used for any number of terms, one after the other, while the store grows and while
calls stop at the limit. It stays valid throughout, and the vector of a term is, read under the
variables that an assignment gives, the value that the evaluator computes.
-/
namespace Wraparound

open Term (Store)
open Diagram (Valuation)
open Decision (encodingOf)

variable {limit : Nat} {s s' : Store} {x : Encoder} {e : Handle} {w : Width}

theorem encodingOf_proper (hs : s.WellFormed) (limit : Nat) : (encodingOf s limit).Proper := ⟨hs, rfl⟩

namespace Encoder

/-- The encoder that a call leaves, also when it stops. -/
def after (c : Encoding) (e : Handle) (x : Encoder) : Encoder :=
  match encode c e x with
  | .ok _ x' => x'
  | .error _ x' => x'

/-- An encoder that was started on a well-formed store and has gone through any number of calls on
terms of the store. Terms may have been added in between, but no buffers. -/
inductive Reached (limit : Nat) : Store → Encoder → Prop
  | start {s : Store} : s.WellFormed → Reached limit s {}
  | grown {s s' : Store} {x : Encoder} : Reached limit s x → s'.WellFormed → s.GrowsTo s' →
      s'.buffers = s.buffers → Reached limit s' x
  | call {s : Store} {x : Encoder} (e : Handle) : Reached limit s x → s.Has e →
      Reached limit s (after (encodingOf s limit) e x)

theorem assignmentOf_of_buffers (h : s'.buffers = s.buffers) (ρ : Valuation) :
    s'.assignmentOf ρ = s.assignmentOf ρ := by
  obtain ⟨nodes, buffers, journal⟩ := s
  cases h
  rfl

/-- New terms leave what is known of the old ones true. -/
theorem Valid.of_store (h : x.Valid s) (hs : s.WellFormed) (hs' : s'.WellFormed) (g : s.GrowsTo s')
    (hb : s'.buffers = s.buffers) : x.Valid s' := by
  refine ⟨h.sound, fun e bits hk => ?_⟩
  obtain ⟨w, hw, hbits⟩ := h.known e bits hk
  refine ⟨w, hw.grow g, hbits.congr fun ρ => ?_⟩
  rw [Store.word, Store.word, assignmentOf_of_buffers hb, Store.meaning_grow hs hs' g hw.has]

/-- One call keeps the encoder valid, however it ends. -/
theorem Valid.after (h : x.Valid s) (hs : s.WellFormed) (he : s.Has e) :
    (after (encodingOf s limit) e x).Valid s := by
  unfold Encoder.after
  rcases encode_encodes (encodingOf_proper hs limit) h he with ⟨bits, x', hrun, hx', -⟩ | ⟨x', hrun, hx', -⟩
  · rw [hrun]
    exact hx'
  · rw [hrun]
    exact hx'

/-- **Any number of calls** leave a valid encoder. -/
theorem Reached.valid (h : Reached limit s x) : s.WellFormed ∧ x.Valid s := by
  induction h with
  | start hs => exact ⟨hs, start_valid⟩
  | grown _ hs' g hb ih => exact ⟨hs', ih.2.of_store ih.1 hs' g hb⟩
  | call e _ he ih => exact ⟨ih.1, ih.2.after ih.1 he⟩

/-- **The vector of a term agrees with the evaluator bit for bit.** The encoder may have been through
any calls before; `ρ` is any valuation that gives the bits of the buffers what the assignment gives
them. The only other way for a call to end is the limit. -/
theorem encode_agrees (hx : Reached limit s x) (he : s.HasWidth e w) :
    (∃ bits x', encode (encodingOf s limit) e x = .ok bits x' ∧ bits.length = w.bits ∧
      ∀ (a : Assignment) (ρ : Valuation), s.Reflects ρ a →
        ∃ v, s.evaluateFresh a e = .ok v ∧ v < w.modulus ∧ ∀ i (h : i < bits.length),
          x'.diagram.Holds bits[i] ∧ x'.diagram.denote ρ bits[i] = v.testBit i) ∨
    ∃ x', encode (encodingOf s limit) e x = .error (.overLimit limit) x' ∧ limit < x'.diagram.size := by
  obtain ⟨hs, hv⟩ := hx.valid
  rcases encode_encodes (encodingOf_proper hs limit) hv he.has with
    ⟨bits, x', hrun, -, -, hb⟩ | ⟨x', hrun, -, -, hover⟩
  · have hshow := hb.shows he
    refine Or.inl ⟨bits, x', hrun, hshow.length, fun a ρ href => ?_⟩
    refine ⟨s.meaning a e, Store.evaluateFresh_eq hs he.has, Store.meaning_lt hs he, fun i hi => ?_⟩
    have hbit := hshow.means_getElem hi
    refine ⟨hbit.holds, ?_⟩
    rw [hbit.denote, ← href.meaning_eq hs he.has]
    exact congrArg (·.testBit i) (Store.toNat_word hs he ρ)
  · exact Or.inr ⟨x', hrun, hover⟩

/-- A quotient of the sample store, encoded after the sum in it. -/
theorem encode_agrees_quotient :
    (∃ bits x', encode (encodingOf Store.sample 1000) ⟨3⟩ (after (encodingOf Store.sample 1000) ⟨2⟩ {}) =
        .ok bits x' ∧
      bits.length = Width.byte.bits ∧
      ∀ (a : Assignment) (ρ : Valuation), Store.sample.Reflects ρ a →
        ∃ v, Store.sample.evaluateFresh a ⟨3⟩ = .ok v ∧ v < Width.byte.modulus ∧ ∀ i (h : i < bits.length),
          x'.diagram.Holds bits[i] ∧ x'.diagram.denote ρ bits[i] = v.testBit i) ∨
    ∃ x', encode (encodingOf Store.sample 1000) ⟨3⟩ (after (encodingOf Store.sample 1000) ⟨2⟩ {}) =
      .error (.overLimit 1000) x' ∧ 1000 < x'.diagram.size := by
  obtain ⟨hbuilt, -, hvalues⟩ := Store.sample_spec
  have own : Store.sample.Has ⟨2⟩ := by
    unfold Store.Has Store.size Interner.size
    rw [hvalues]
    decide
  exact encode_agrees (.call ⟨2⟩ (.start hbuilt.wellFormed) own) ⟨_, by rw [hvalues]; rfl, rfl⟩

end Encoder
end Wraparound
