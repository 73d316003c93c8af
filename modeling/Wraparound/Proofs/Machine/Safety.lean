import Wraparound.Proofs.Encoding.Agreement
import Wraparound.Proofs.Machine.Builder
import Wraparound.Proofs.Machine.Decision
import Wraparound.Proofs.Machine.Evaluation
import Wraparound.Proofs.Hazard.Size
import Wraparound.Proofs.Search.Exploration
import Wraparound.Proofs.Term.Stale
import Wraparound.Proofs.Term.Transparent
/-!
# Well-formed use does not fault

What builders check of their operands is all that the rest of the library relies on. In a store that was made
by the builders nothing that is done with its own handles faults, also where every shift of a register, every
position of a vector and every number of a variable is checked (`Machine`): `safe`. The numbers of the
variables have to fit 32 bits; how many terms there are does not matter, as handles are numbers of any size.
-/
namespace Wraparound.Machine

open Term (Store Builds)
open Wraparound.Decision (encodingOf)

variable {s : Store} {c : PathCondition} {e : Handle} {w : Width} {limit : Nat} {x : Encoder}

/-! ## Building -/

/-- The builders that compute in registers are the builders. So what is folded on the way to any term, a hazard
predicate and a rebuilt term included, is computed with no shift out of range and no division by zero. -/
structure FoldsInRegisters : Prop where
  constant : ∀ w v, Builder.constant w (register v) = Term.constant w v
  concat : Builder.concat = Term.concat
  extract : ∀ e offset w, offset + w.bits < 1 <<< 32 → Builder.extract e offset w = Term.extract e offset w
  zeroExtend : Builder.zeroExtend = Term.zeroExtend
  signExtend : Builder.signExtend = Term.signExtend
  complement : Builder.complement = Term.complement
  arith : Builder.arith = Term.arith
  relation : Builder.relation = Term.relation
  extremes : Builder.extremes = Hazard.extremes

theorem foldsInRegisters : FoldsInRegisters where
  constant := Builder.constant_register
  concat := Builder.concat_eq
  extract _ _ _ h := Builder.extract_eq (by rwa [Nat.one_shiftLeft] at h)
  zeroExtend := Builder.zeroExtend_eq
  signExtend := Builder.signExtend_eq
  complement := Builder.complement_eq
  arith := Builder.arith_eq
  relation := Builder.relation_eq
  extremes := Builder.extremes_eq

/-- A term has a hazard predicate exactly if its operator can go wrong. -/
theorem overflow?_ok {n : Term.Node} (hs : s.WellFormed) (hn : s.node e = .ok n) :
    ∃ p t, Hazard.overflow? e s = .ok p t ∧ p.isSome = n.kind.canOverflow := by
  have hn := Store.node_eq_ok.1 hn
  cases hk : n.kind.canOverflow with
  | false => exact ⟨none, s, Hazard.overflow?_eq_none hn hk, rfl⟩
  | true =>
    cases n with
    | arith op w l r =>
      obtain ⟨-, t, hrun, -, -, -, p, rfl, -⟩ := Hazard.overflow?_tells hk hs hn
      exact ⟨some p, t, hrun, rfl⟩
    | _ => cases hk

theorem overflowOrSelf_ok (hs : s.WellFormed) (he : s.Has e) : ∃ p t, Hazard.overflowOrSelf e s = .ok p t := by
  obtain ⟨n, hn⟩ := he.exists_node
  obtain ⟨p, t, hrun, -⟩ := overflow?_ok hs (Store.node_eq_ok.2 hn)
  exact ⟨p.getD e, t, run_bind hrun⟩

/-! ## Encoding and deciding -/

/-- A call of the encoder on a machine is one of the encoder, whatever calls there were before. -/
theorem encode_eq (hroom : s.Addressable) (hx : Wraparound.Encoder.Reached limit s x) (he : s.HasWidth e w) :
    Encoder.encode (encodingOf s limit) e x = Wraparound.Encoder.encode (encodingOf s limit) e x := by
  obtain ⟨hs, hv⟩ := hx.valid
  refine (Encoder.encode_follows (encodingOf_proper hs limit) he x (.of_valid hv)).1.eq fun reason hreason => ?_
  cases reason with
  | fault f => exact hroom.not_overflows hreason
  | overLimit n => exact hreason

/-- The variables on the path to a model are read back as bits of the buffers. -/
theorem path_decodes {es : List Handle} {d : Diagram} {f : Ref} {path : Diagram.Path} (hs : s.WellFormed)
    (hroom : s.Addressable) (hes : s.Boolean es) (hrun : Decision.conjoined s limit es = .ok (.ok (d, f)))
    (hpath : Decision.satisfy d f = .ok (some path)) {p : Nat × Bool} (hp : p ∈ path) :
    ∃ l, Encoder.ofVariable s.buffers.size p.1 = .ok l ∧ s.Locates l := by
  rw [(Decision.conjoined_concurs limit hs hes).eq fun _ => hroom.not_overflows] at hrun
  rcases Wraparound.Decision.conjoined_spec limit hs hes with ⟨d', f', hrun', hd, hf⟩ | hrun'
  · cases hrun.symm.trans hrun'
    rw [Decision.satisfy_eq hd.ordered hf.holds] at hpath
    obtain ⟨l, hl, hv⟩ := Decision.exists_location hs hes hd hf hpath hp
    exact ⟨l, by rw [← hv, Decision.ofVariable_eq hl], hl⟩
  · cases hrun.symm.trans hrun'

/-! ## Safety -/

section

variable [Guard]

/-- What may be done with a store and its own handles, and how it ends. An encoding may hit its limit, and the
solver may refuse; nothing faults. -/
structure Safe (s : Store) : Prop where
  folds : FoldsInRegisters
  /-- One evaluator, asked for any terms one after the other. -/
  evaluates : ∀ (a : Assignment) (es : List Handle), (∀ e ∈ es, s.Has e) →
    ∃ known, es.mapM (evaluate s a) {} = .ok (es.map fun e => register (s.meaning a e)) known
  writes : ∀ e, s.Has e → ∃ text, s.text e = .ok text
  overflow : ∀ e n, s.node e = .ok n →
    ∃ p t, Hazard.overflow? e s = .ok p t ∧ p.isSome = n.kind.canOverflow
  overflowOrSelf : ∀ e, s.Has e → ∃ p t, Hazard.overflowOrSelf e s = .ok p t
  exceeds : ∀ size bound, s.Has size → ∃ p t, Hazard.exceeds size bound s = .ok p t
  rebuilds : ∀ e n children, s.node e = .ok n → children.map s.width = n.children.map s.width →
    ∃ r t, Builder.rebuild e children s = .ok r t ∧ Term.rebuild e children s = .ok r t
  /-- An encoder that has been through any calls. -/
  encodes : ∀ limit x e w, Wraparound.Encoder.Reached limit s x → s.HasWidth e w →
    (∃ bits x', Encoder.encode (encodingOf s limit) e x = .ok bits x' ∧
      Wraparound.Encoder.encode (encodingOf s limit) e x = .ok bits x' ∧ bits.length = w.bits) ∨
    ∃ x', Encoder.encode (encodingOf s limit) e x = .error (.overLimit limit) x'
  answers : ∀ limit c e, s.Boolean c.toList → s.HasWidth e .bool →
    ∃ reply, (Decision.byDiagram limit).mayHold c e ⟨s, ()⟩ = .ok reply ⟨s, ()⟩ ∧
      (Wraparound.Decision.byDiagram limit).mayHold c e ⟨s, ()⟩ = .ok reply ⟨s, ()⟩
  models : ∀ limit c, s.Boolean c.toList →
    ∃ reply, (Decision.byDiagram limit).model c ⟨s, ()⟩ = .ok reply ⟨s, ()⟩ ∧
      (Wraparound.Decision.byDiagram limit).model c ⟨s, ()⟩ = .ok reply ⟨s, ()⟩
  /-- Each variable on the path to a model is that of a bit of a registered buffer. -/
  decodes : ∀ limit es d f path, s.Boolean es → Decision.conjoined s limit es = .ok (.ok (d, f)) →
    Decision.satisfy d f = .ok (some path) → ∀ p ∈ path,
      ∃ l, Encoder.ofVariable s.buffers.size p.1 = .ok l ∧ s.Locates l
  finds : ∀ limit maxNodes root c k, s.Boolean c.toList → s.Has root →
    ∃ finding st, Search.find (Decision.byDiagram limit) maxNodes root ⟨s, c, (), k⟩ = .ok (.ok finding) st
  checks : ∀ limit size bound c k, s.Boolean c.toList → s.Has size →
    ∃ finding st, Search.checkSize (Decision.byDiagram limit) size bound ⟨s, c, (), k⟩ = .ok (.ok finding) st

/-- **Well-formed use does not fault**: a store that the builders have made on their own handles is safe, if
its variables can be numbered with 32 bits. -/
theorem built_safe [Guard.Fires] (hb : s.Built) (hroom : s.Addressable) : Safe s where
  folds := foldsInRegisters
  evaluates a _ hes := evaluate_mapM hb.wellFormed a hes
  writes _ he := ⟨_, Store.text_eq hb.wellFormed he⟩
  overflow _ _ hn := overflow?_ok hb.wellFormed hn
  overflowOrSelf _ he := overflowOrSelf_ok hb.wellFormed he
  exceeds size bound hsize := by
    obtain ⟨w, hw⟩ := hsize.hasWidth
    obtain ⟨p, t, hrun, -⟩ := Hazard.exceeds_builds hb.wellFormed hw.denotes bound
    exact ⟨p, t, hrun⟩
  rebuilds e n children hn hcs := by
    have hn := Store.node_eq_ok.1 hn
    obtain ⟨r, t, hrun, -⟩ := Term.rebuild_realizes hb.wellFormed hn hcs
    exact ⟨r, t, (Builder.rebuild_eq hb.wellFormed (Store.has_of_node hn) children).trans hrun, hrun⟩
  encodes limit x e w hx he := by
    obtain ⟨hs, hv⟩ := hx.valid
    rw [encode_eq hroom hx he]
    rcases Wraparound.Encoder.encode_encodes (encodingOf_proper hs limit) hv he.has with
      ⟨bits, x', hrun, -, -, w', hw', hbits⟩ | ⟨x', hrun, -⟩
    · cases hw'.unique he
      exact .inl ⟨bits, x', hrun, hrun, hbits.length⟩
    · exact .inr ⟨x', hrun⟩
  answers limit c e hc he := by
    obtain ⟨reply, hrun, -⟩ := Wraparound.Decision.mayHold_answers limit hb.wellFormed hc he
    have heq := (Decision.mayHold_concurs limit hb.wellFormed hc he).eq fun _ => hroom.not_overflows
    exact ⟨reply, Decision.byDiagram_mayHold (heq.trans hrun), Wraparound.Decision.byDiagram_mayHold hrun⟩
  models limit c hc := by
    obtain ⟨reply, hrun, -⟩ := Wraparound.Decision.model_modelled limit hb.wellFormed hc
    have heq := (Decision.model_concurs limit hb.wellFormed hc).eq fun _ => hroom.not_overflows
    exact ⟨reply, Decision.byDiagram_model (heq.trans hrun), Wraparound.Decision.byDiagram_model hrun⟩
  decodes _ _ _ _ _ hes hrun hpath _ hp := path_decodes hb.wellFormed hroom hes hrun hpath hp
  finds limit maxNodes _ _ k hc hroot := by
    rcases Search.find_settles limit maxNodes k hb.wellFormed hc hroot with ⟨finding, st, hrun, -⟩ | ⟨_, _, -, hf⟩
    · exact ⟨finding, st, hrun⟩
    · exact absurd hf hroom.not_overflows
  checks limit _ bound _ k hc hsize := by
    obtain ⟨w, hw⟩ := hsize.hasWidth
    rcases Search.checkSize_settles limit k hb.wellFormed hc (Hazard.exceeds_compares hb.wellFormed hw bound) with
      ⟨finding, st, hrun, -⟩ | ⟨_, _, -, hf⟩
    · exact ⟨finding, st, hrun⟩
    · exact absurd hf hroom.not_overflows

end

/-- The sample store, with its two bytes, is safe: its quotient and its comparison evaluate, the quotient's hazard
is searched for and found or not, and the comparison is decided and has a model or none. -/
theorem built_safe_sample : Store.sample.Built ∧ Store.sample.Addressable ∧
    (∀ a, ∃ known, [(⟨3⟩ : Handle), ⟨4⟩].mapM (evaluate Store.sample a) {} =
      .ok [register (Store.sample.meaning a ⟨3⟩), register (Store.sample.meaning a ⟨4⟩)] known) ∧
    (∃ reply, (Decision.byDiagram 1000).mayHold (.ofList [⟨4⟩]) ⟨4⟩ ⟨Store.sample, ()⟩ = .ok reply ⟨Store.sample, ()⟩) ∧
    (∃ reply, (Decision.byDiagram 1000).model (.ofList [⟨4⟩]) ⟨Store.sample, ()⟩ = .ok reply ⟨Store.sample, ()⟩) ∧
    ∃ finding st, Search.find (Decision.byDiagram 1000) none ⟨3⟩ ⟨Store.sample, .ofList [⟨4⟩], (), {}⟩ =
      .ok (.ok finding) st := by
  obtain ⟨hbuilt, -, hvalues⟩ := Store.sample_spec
  have hbool := Store.sample_boolean
  have hroom := Store.sample_addressable
  have hhas : ∀ e ∈ [(⟨3⟩ : Handle), ⟨4⟩], Store.sample.Has e := Store.has_of_all hvalues rfl
  have hsafe := built_safe hbuilt hroom
  obtain ⟨reply, hask, -⟩ := hsafe.answers 1000 (.ofList [⟨4⟩]) ⟨4⟩ hbool (hbool ⟨4⟩ List.mem_cons_self)
  obtain ⟨reply', hmodel, -⟩ := hsafe.models 1000 (.ofList [⟨4⟩]) hbool
  exact ⟨hbuilt, hroom, fun a => hsafe.evaluates a _ hhas, ⟨reply, hask⟩, ⟨reply', hmodel⟩,
    hsafe.finds 1000 none ⟨3⟩ _ {} hbool (hhas _ List.mem_cons_self)⟩

end Wraparound.Machine
