import Wraparound.Term.Text
import Wraparound.Proofs.Term.Sharing
import Wraparound.Proofs.Term.Sample
/-!
# The text of a term names it

Every term of a well-formed store has a text. The text is unambiguous: up to the first bracket after the
opening one stand the form of the node and everything that is written of it beside its children, and what is
not written is determined by what is. So if the names of the buffers have no brackets in them, terms of one
text are one term (`Store.text_eq_iff`).
-/
namespace Wraparound

/-! ## Numbers -/

theorem digitChar_inj {i j : Nat} (hi : i < 16) (hj : j < 16) (h : i.digitChar = j.digitChar) : i = j := by
  have : ∀ i < 16, ∀ j < 16, i.digitChar = j.digitChar → i = j := by decide
  exact this i hi j hj h

/-- Numbers of the same digits are the same. -/
theorem toDigits_inj {b m n : Nat} (hb : 1 < b) (hb' : b ≤ 16) (h : Nat.toDigits b m = Nat.toDigits b n) :
    m = n := by
  -- One digit is not a shorter number with a digit more.
  have lone : ∀ {c d : Char} {k : Nat}, [c] ≠ Nat.toDigits b k ++ [d] := by
    intro c d k heq
    have hlength := congrArg List.length heq
    have hpos := Nat.length_toDigits_pos (b := b) (n := k)
    simp only [List.length_append, List.length_singleton] at hlength
    omega
  induction m using Nat.strongRecOn generalizing n with
  | ind m ih =>
    rw [Nat.toDigits_eq_if (n := m) hb, Nat.toDigits_eq_if (n := n) hb] at h
    split at h <;> split at h
    · exact digitChar_inj (by omega) (by omega) (List.singleton_inj.1 h)
    · exact (lone h).elim
    · exact (lone h.symm).elim
    · obtain ⟨hmore, hlast⟩ := List.append_inj' h rfl
      have hdiv : m / b = n / b := ih (m / b) (Nat.div_lt_self (by omega) hb) hmore
      have hmod : m % b = n % b :=
        digitChar_inj (Nat.lt_of_lt_of_le (Nat.mod_lt _ (by omega)) hb')
          (Nat.lt_of_lt_of_le (Nat.mod_lt _ (by omega)) hb') (List.singleton_inj.1 hlast)
      rw [← Nat.div_add_mod m b, hdiv, hmod, Nat.div_add_mod]

theorem exists_digitChar {b n : Nat} {c : Char} (hb : 1 < b) (h : c ∈ Nat.toDigits b n) :
    ∃ d : Nat, c = d.digitChar := by
  induction n using Nat.strongRecOn with
  | ind n ih =>
    rw [Nat.toDigits_eq_if hb] at h
    split at h
    · exact ⟨n, List.mem_singleton.1 h⟩
    · rcases List.mem_append.1 h with h | h
      · exact ih (n / b) (Nat.div_lt_self (by omega) hb) h
      · exact ⟨n % b, List.mem_singleton.1 h⟩

theorem toString_self (x : String) : toString x = x := rfl

/-- Before the first sign of some sort, two texts are the same if they go on the same. -/
theorem split_unique {p : Char → Prop} {u v x y : List Char} {c d : Char} (hu : ∀ z ∈ u, ¬ p z)
    (hv : ∀ z ∈ v, ¬ p z) (hc : p c) (hd : p d) (h : u ++ c :: x = v ++ d :: y) : u = v ∧ c :: x = d :: y := by
  induction u generalizing v with
  | nil =>
    cases v with
    | nil => exact ⟨rfl, h⟩
    | cons z v =>
      obtain ⟨rfl, -⟩ := List.cons_eq_cons.1 h
      exact absurd hc (hv _ List.mem_cons_self)
  | cons z u ih =>
    cases v with
    | nil =>
      obtain ⟨rfl, -⟩ := List.cons_eq_cons.1 h
      exact absurd hd (hu _ List.mem_cons_self)
    | cons z' v =>
      obtain ⟨rfl, htail⟩ := List.cons_eq_cons.1 h
      obtain ⟨rfl, hrest⟩ := ih (fun z hz => hu z (List.mem_cons_of_mem _ hz))
        (fun z hz => hv z (List.mem_cons_of_mem _ hz)) htail
      exact ⟨rfl, hrest⟩

namespace Term

variable {s : Store} {d e : Handle} {n m : Node} {w v : Width} {c : Char} {x y : List Char}

/-! ## The text as it is put together -/

/-- The form of a node as it is written: the width of a constant, else the name of the kind. -/
def Node.label : Node → List Char
  | .constant w _ => (toString w).toList
  | n => n.kind.name.toList

/-- What is written of a node after its form and before its children. -/
def Node.detail (s : Store) : Node → List Char
  | .constant _ v => (Hex.number v).toList
  | .read b _ => (toString Width.byte).toList ++ ' ' :: (s.buffers[b.index]?.elim [] (·.name.toList))
  | .extract w offset _ => (toString w).toList ++ ' ' :: (toString offset).toList
  | n => (toString n.width).toList

/-- The text of a node whose children have the texts `below`. -/
def Node.letters (s : Store) (below : Handle → List Char) (n : Node) : List Char :=
  '(' :: (n.label ++ ' ' :: n.detail s ++ n.children.flatMap (fun c => ' ' :: below c) ++ [')'])

/-- The text of a term, followed for a number of steps. -/
def Store.lettersWithin (s : Store) : Nat → Handle → List Char
  | 0, _ => []
  | steps + 1, e =>
    match s.nodes.values[e.index]? with
    | some n => n.letters s (s.lettersWithin steps)
    | none => []

/-- The text of a term, letter by letter. -/
def Store.letters (s : Store) (e : Handle) : List Char := s.lettersWithin (e.index + 1) e

theorem Node.letters_congr {f g : Handle → List Char} (h : ∀ c ∈ n.children, f c = g c) :
    n.letters s f = n.letters s g := by
  unfold Node.letters
  rw [List.flatMap_congr fun c hc => by rw [h c hc]]

namespace Store

theorem lettersWithin_of_lt (hs : s.WellFormed) (steps : Nat) (e : Handle) (he : e.index < steps) :
    s.lettersWithin steps e = s.letters e :=
  hs.follow_of_lt (fun _ n f => n.letters s f) [] (fun _ _ _ hn => by simp only [lettersWithin, hn])
    (fun _ _ hn => by simp only [lettersWithin, hn]) (fun _ _ _ _ => Node.letters_congr) steps e he

theorem letters_eq (hs : s.WellFormed) (hn : s.nodes.values[e.index]? = some n) :
    s.letters e = n.letters s s.letters := by
  simp only [letters, lettersWithin, hn]
  exact Node.letters_congr fun c hc => lettersWithin_of_lt hs _ c (hs.founded _ _ hn c hc)

/-- A term is written as its letters. -/
theorem textWithin_eq (hs : s.WellFormed) (budget : Nat) : ∀ e, s.Has e → e.index < budget →
    s.textWithin budget e = .ok (String.ofList (s.letters e)) := by
  induction budget with
  | zero => exact fun e _ h => absurd h (Nat.not_lt_zero _)
  | succ budget ih =>
    intro e he hlt
    obtain ⟨n, hn⟩ := he.exists_node
    have hf := hs.typed _ _ hn
    have hparts : ∀ c ∈ n.children, s.textWithin budget c = .ok (String.ofList (s.letters c)) := fun c hc =>
      ih c (hf.has_child hc) (Nat.lt_of_lt_of_le (hs.founded _ _ hn c hc) (Nat.le_of_lt_succ hlt))
    rw [textWithin, node_eq_ok.2 hn, letters_eq hs hn]
    cases n with
    | constant w v =>
      refine congrArg Except.ok (String.toList_inj.1 ?_)
      simp [toString_self, Node.letters, Node.label, Node.detail, Node.children]
    | read b i =>
      have hb := Array.getElem?_eq_getElem hf.1
      simp only [Bind.bind, Except.bind, buffer_eq_ok.2 hb, hparts i (List.mem_singleton.2 rfl)]
      refine congrArg Except.ok (String.toList_inj.1 ?_)
      simp [toString_self, Node.letters, Node.label, Node.detail, Node.children, Node.kind, Kind.name, Node.width, hb]
    | extract w offset x =>
      simp only [Bind.bind, Except.bind, hparts x (List.mem_singleton.2 rfl)]
      refine congrArg Except.ok (String.toList_inj.1 ?_)
      simp [toString_self, Node.letters, Node.label, Node.detail, Node.children, Node.kind, Kind.name]
    | _ =>
      simp only [Bind.bind, Except.bind, mapM_ok hparts]
      refine congrArg Except.ok (String.toList_inj.1 ?_)
      simp [toString_self, Node.letters, Node.label, Node.detail, Node.children]

theorem text_eq (hs : s.WellFormed) (he : s.Has e) : s.text e = .ok (String.ofList (s.letters e)) :=
  textWithin_eq hs _ e he (Nat.lt_succ_of_lt he)

end Store

/-! ## What the heading says -/

/-- Neither a space nor a bracket. -/
def Solid (c : Char) : Prop := c ≠ ' ' ∧ c ≠ '(' ∧ c ≠ ')'

instance (c : Char) : Decidable (Solid c) := inferInstanceAs (Decidable (_ ∧ _ ∧ _))

theorem solid_digitChar (i : Nat) : Solid i.digitChar :=
  ⟨Nat.digitChar_ne _ (by decide), Nat.digitChar_ne _ (by decide), Nat.digitChar_ne _ (by decide)⟩

theorem solid_of_mem_toDigits {b i : Nat} (hb : 1 < b) (h : c ∈ Nat.toDigits b i) : Solid c := by
  obtain ⟨j, rfl⟩ := exists_digitChar hb h
  exact solid_digitChar j

theorem toList_toString_width (w : Width) : (toString w).toList = 'w' :: Nat.toDigits 10 w.bits := by
  show (s!"w{w.bits}").toList = _
  simp [toString_self]

theorem toString_width_inj (h : (toString w).toList = (toString v).toList) : w = v := by
  rw [toList_toString_width, toList_toString_width] at h
  exact Width.ext_bits (toDigits_inj (b := 10) (by decide) (by decide) (List.cons.inj h).2)

theorem toList_number (i : Nat) : (Hex.number i).toList = '0' :: 'x' :: Nat.toDigits 16 i := by
  simp [Hex.number, Hex.digits]

theorem number_inj {i j : Nat} (h : (Hex.number i).toList = (Hex.number j).toList) : i = j := by
  rw [toList_number, toList_number] at h
  exact toDigits_inj (b := 16) (by decide) (by decide) (List.cons.inj (List.cons.inj h).2).2

theorem solid_of_mem_width (h : c ∈ (toString w).toList) : Solid c := by
  rw [toList_toString_width] at h
  rcases List.mem_cons.1 h with rfl | h
  · decide
  · exact solid_of_mem_toDigits (by decide) h

theorem solid_of_mem_name (k : Kind) : ∀ c ∈ k.name.toList, Solid c := by
  cases k with
  | arith op => cases op <;> simp [Kind.name, Solid]
  | relation rel => cases rel <;> simp [Kind.name, Solid]
  | _ => simp [Kind.name, Solid]

/-- No kind has a name that begins as the widths do. -/
theorem name_ne_width (k : Kind) (w : Width) : k.name.toList ≠ (toString w).toList := by
  have hhead : k.name.toList.head? ≠ some 'w' := by
    cases k with
    | arith op => cases op <;> simp [Kind.name]
    | relation rel => cases rel <;> simp [Kind.name]
    | _ => simp [Kind.name]
  intro h
  rw [h, toList_toString_width] at hhead
  exact hhead rfl

namespace Node

theorem solid_of_mem_label (h : c ∈ n.label) : Solid c := by
  cases n with
  | constant w v => exact solid_of_mem_width h
  | _ => exact solid_of_mem_name _ c h

/-- The form of a node can be read off its text. -/
theorem kind_of_label (h : n.label = m.label) : n.kind = m.kind := by
  have name : ∀ {k l : Kind}, k.name.toList = l.name.toList → k = l := by
    intro k l hkl
    have := Kind.ofName?_name k
    rw [String.toList_inj.1 hkl, Kind.ofName?_name] at this
    exact (Option.some.inj this).symm
  cases n with
  | constant w v =>
    cases m with
    | constant w' v' => rfl
    | _ => exact absurd h.symm (name_ne_width _ w)
  | _ =>
    cases m with
    | constant w' v' => exact absurd h (name_ne_width _ w')
    | _ => exact name h

/-- A node is determined by what is written of it and by its children. -/
theorem eq_of_text (hs : s.WellFormed) (hn : n.Fits s) (hm : m.Fits s) (hlabel : n.label = m.label)
    (hdetail : n.detail s = m.detail s) (hchildren : n.children = m.children) : n = m := by
  have hkind := kind_of_label hlabel
  cases n <;> cases m <;> simp only [kind, reduceCtorEq, Kind.arith.injEq, Kind.relation.injEq] at hkind
  case constant.constant w v w' v' =>
    obtain rfl : w = w' := toString_width_inj hlabel
    obtain rfl : v = v' := number_inj hdetail
    rfl
  case read.read b i b' i' =>
    obtain ⟨rfl⟩ := List.singleton_inj.1 hchildren
    have hb := Array.getElem?_eq_getElem hn.1
    have hb' := Array.getElem?_eq_getElem hm.1
    simp only [detail, hb, hb', Option.elim_some] at hdetail
    have hname := String.toList_inj.1 (List.cons.inj (List.append_cancel_left hdetail)).2
    have hindex : b.index = b'.index := hs.names _ _ _ _ hb hb' hname
    obtain ⟨b⟩ := b
    obtain ⟨b'⟩ := b'
    rw [show b = b' from hindex]
  case extract.extract w o i w' o' i' =>
    obtain rfl : i = i' := List.singleton_inj.1 hchildren
    have hspace : ∀ {w : Width}, ∀ c ∈ (toString w).toList, ¬ c = ' ' := fun c hc => (solid_of_mem_width hc).1
    obtain ⟨hw, ho⟩ := split_unique hspace hspace rfl rfl hdetail
    obtain rfl : w = w' := toString_width_inj hw
    have hdigits := (List.cons.inj ho).2
    rw [Nat.toString_eq_ofList_toDigits, Nat.toString_eq_ofList_toDigits, String.toList_ofList,
      String.toList_ofList] at hdigits
    rw [toDigits_inj (by decide) (by decide) hdigits]
  case relation.relation rel l r rel' l' r' =>
    simp_all [children]
  all_goals
    have hwidth := toString_width_inj hdetail
    simp_all [children, width]

end Node

/-! ## Where a text ends -/

def Bracket (c : Char) : Prop := c = '(' ∨ c = ')'

theorem Solid.not_bracket (h : Solid c) : ¬ Bracket c := not_or.2 h.2

/-- The text of a node from its form to before its children. -/
def Node.heading (s : Store) (n : Node) : List Char := n.label ++ ' ' :: n.detail s

/-- There is no bracket in a heading, if there is none in the name of a buffer. -/
theorem Node.not_bracket_of_mem_heading
    (hnames : ∀ u ∈ s.buffers, '(' ∉ u.name.toList ∧ ')' ∉ u.name.toList) (hn : n.Fits s)
    (h : c ∈ n.heading s) : ¬ Bracket c := by
  have space : ¬ Bracket ' ' := by unfold Bracket; decide
  rcases List.mem_append.1 h with h | h
  · exact (solid_of_mem_label h).not_bracket
  rcases List.mem_cons.1 h with rfl | h
  · exact space
  cases n with
  | constant w v =>
    rw [detail, toList_number] at h
    have hzero : ¬ Bracket '0' ∧ ¬ Bracket 'x' := by unfold Bracket; decide
    rcases List.mem_cons.1 h with rfl | h
    · exact hzero.1
    rcases List.mem_cons.1 h with rfl | h
    · exact hzero.2
    · exact (solid_of_mem_toDigits (by decide) h).not_bracket
  | read b i =>
    simp only [detail, Array.getElem?_eq_getElem hn.1, Option.elim_some] at h
    rcases List.mem_append.1 h with h | h
    · exact (solid_of_mem_width h).not_bracket
    rcases List.mem_cons.1 h with rfl | h
    · exact space
    obtain ⟨hopen, hclose⟩ := hnames _ (Array.getElem_mem hn.1)
    rintro (rfl | rfl)
    · exact hopen h
    · exact hclose h
  | extract w offset i =>
    rcases List.mem_append.1 h with h | h
    · exact (solid_of_mem_width h).not_bracket
    rcases List.mem_cons.1 h with rfl | h
    · exact space
    · rw [Nat.toString_eq_ofList_toDigits, String.toList_ofList] at h
      exact (solid_of_mem_toDigits (by decide) h).not_bracket
  | _ => exact (solid_of_mem_width h).not_bracket

namespace Store

/-- The texts of the children, the closing bracket, and what follows. -/
def tail (s : Store) (cs : List Handle) (x : List Char) : List Char :=
  cs.flatMap (fun c => ' ' :: s.letters c) ++ ')' :: x

theorem letters_append (hs : s.WellFormed) (hn : s.nodes.values[e.index]? = some n) :
    s.letters e ++ x = '(' :: (n.heading s ++ s.tail n.children x) := by
  rw [letters_eq hs hn, Node.letters, Node.heading, tail]
  simp only [List.cons_append, List.append_assoc, List.nil_append]

theorem tail_cons (c : Handle) (cs : List Handle) :
    s.tail (c :: cs) x = ' ' :: (s.letters c ++ s.tail cs x) := by
  simp only [tail, List.flatMap_cons, List.cons_append, List.append_assoc]

/-- After a heading comes a bracket: at once the closing one, or after a space the one that opens the text of
a child. -/
theorem tail_bracket (hs : s.WellFormed) {cs : List Handle} (hcs : ∀ c ∈ cs, s.Has c) (x : List Char) :
    (∃ y, s.tail cs x = ')' :: y) ∨ ∃ y, s.tail cs x = ' ' :: '(' :: y := by
  cases cs with
  | nil => exact Or.inl ⟨x, rfl⟩
  | cons c cs =>
    obtain ⟨n, hn⟩ := (hcs c List.mem_cons_self).exists_node
    refine Or.inr ⟨n.heading s ++ s.tail n.children (s.tail cs x), ?_⟩
    rw [tail_cons, letters_append hs hn]

/-- Where a heading ends can be seen. -/
theorem heading_unique (hs : s.WellFormed) (hnames : ∀ u ∈ s.buffers, '(' ∉ u.name.toList ∧ ')' ∉ u.name.toList)
    (hn : n.Fits s) (hm : m.Fits s) (h : n.heading s ++ s.tail n.children x = m.heading s ++ s.tail m.children y) :
    n.heading s = m.heading s ∧ s.tail n.children x = s.tail m.children y := by
  have hopen : Bracket '(' := Or.inl rfl
  have hclose : Bracket ')' := Or.inr rfl
  have plain : ∀ {k : Node}, k.Fits s → ∀ c ∈ k.heading s, ¬ Bracket c := fun hk c =>
    Node.not_bracket_of_mem_heading hnames hk
  have spaced : ∀ {k : Node}, k.Fits s → ∀ c ∈ k.heading s ++ [' '], ¬ Bracket c := by
    intro k hk c hc
    rcases List.mem_append.1 hc with hc | hc
    · exact plain hk c hc
    · rw [List.mem_singleton.1 hc]
      unfold Bracket
      decide
  rcases tail_bracket hs (fun c hc => hn.has_child hc) x with ⟨x', hx⟩ | ⟨x', hx⟩ <;>
    rcases tail_bracket hs (fun c hc => hm.has_child hc) y with ⟨y', hy⟩ | ⟨y', hy⟩ <;> rw [hx, hy] at h ⊢
  · exact split_unique (plain hn) (plain hm) hclose hclose h
  · rw [List.append_cons _ ' '] at h
    exact absurd (split_unique (plain hn) (spaced hm) hclose hopen h).2 (by simp)
  · rw [List.append_cons _ ' '] at h
    exact absurd (split_unique (spaced hn) (plain hm) hopen hclose h).2 (by simp)
  · rw [List.append_cons _ ' ', List.append_cons (m.heading s)] at h
    obtain ⟨hheading, hrest⟩ := split_unique (spaced hn) (spaced hm) hopen hopen h
    exact ⟨List.append_cancel_right hheading, by rw [hrest]⟩

/-- As many children are told apart one after the other, if each can be. -/
theorem tail_unique {cs ds : List Handle} (hlength : cs.length = ds.length)
    (hcs : ∀ c ∈ cs, ∀ d ∈ ds, ∀ x y, s.letters c ++ x = s.letters d ++ y → c = d ∧ x = y)
    (h : s.tail cs x = s.tail ds y) : cs = ds ∧ x = y := by
  induction cs generalizing ds with
  | nil =>
    obtain rfl := List.length_eq_zero_iff.1 hlength.symm
    exact ⟨rfl, (List.cons.inj h).2⟩
  | cons c cs ih =>
    cases ds with
    | nil => cases hlength
    | cons d ds =>
      rw [tail_cons, tail_cons] at h
      obtain ⟨rfl, hrest⟩ := hcs c List.mem_cons_self d List.mem_cons_self _ _ (List.cons.inj h).2
      obtain ⟨rfl, rfl⟩ := ih (Nat.succ.inj hlength)
        (fun c hc d hd => hcs c (List.mem_cons_of_mem _ hc) d (List.mem_cons_of_mem _ hd)) hrest
      exact ⟨rfl, rfl⟩

/-- **Where a text ends can be seen, and which term it is of**, whatever follows. -/
theorem letters_unique (hs : s.WellFormed) (hnames : ∀ u ∈ s.buffers, '(' ∉ u.name.toList ∧ ')' ∉ u.name.toList)
    (hd : s.Has d) : ∀ e, s.Has e → ∀ x y, s.letters d ++ x = s.letters e ++ y → d = e ∧ x = y := by
  refine hs.induction (P := fun d => ∀ e, s.Has e → ∀ x y, s.letters d ++ x = s.letters e ++ y → d = e ∧ x = y)
    (fun d n hn hf ih e he x y h => ?_) d hd
  obtain ⟨m, hm⟩ := he.exists_node
  have hg := hs.typed _ _ hm
  rw [letters_append hs hn, letters_append hs hm] at h
  obtain ⟨hheading, htail⟩ := heading_unique hs hnames hf hg (List.cons.inj h).2
  obtain ⟨hlabel, hdetail⟩ := split_unique (p := (· = ' ')) (fun c hc => (Node.solid_of_mem_label hc).1)
    (fun c hc => (Node.solid_of_mem_label hc).1) rfl rfl hheading
  have hlength : n.children.length = m.children.length := by
    rw [Node.length_children, Node.length_children, Node.kind_of_label hlabel]
  obtain ⟨hchildren, rfl⟩ := tail_unique hlength (fun c hc d hd => ih c hc d (hg.has_child hd)) htail
  obtain rfl := Node.eq_of_text hs hf hg hlabel (List.cons.inj hdetail).2 hchildren
  exact ⟨eq_of_node hn hm, rfl⟩

/-- **A text is of one term only.** In a built store every term has a text. If no buffer has a name with a
bracket in it, terms of one text are one term. -/
theorem text_eq_iff (h : s.Built) (hnames : ∀ u ∈ s.buffers, '(' ∉ u.name.toList ∧ ')' ∉ u.name.toList)
    (hd : s.Has d) (he : s.Has e) : ∃ x y, s.text d = .ok x ∧ s.text e = .ok y ∧ (x = y ↔ d = e) := by
  have hs := h.wellFormed
  refine ⟨_, _, text_eq hs hd, text_eq hs he, fun hxy => ?_, fun hde => by rw [hde]⟩
  have hletters : s.letters d ++ [] = s.letters e ++ [] := by
    rw [List.append_nil, List.append_nil]
    exact String.ofList_injective hxy
  exact (letters_unique hs hnames hd e he [] [] hletters).1

theorem text_eq_iff_sample : sample.Built ∧ (∀ u ∈ sample.buffers, '(' ∉ u.name.toList ∧ ')' ∉ u.name.toList) ∧
    sample.Has ⟨2⟩ ∧ sample.Has ⟨4⟩ ∧ ∃ x y, sample.text ⟨2⟩ = .ok x ∧ sample.text ⟨4⟩ = .ok y ∧
      (x = y ↔ (⟨2⟩ : Handle) = ⟨4⟩) := by
  obtain ⟨hbuilt, hbuffers, hvalues⟩ := sample_spec
  have hnames : ∀ u ∈ sample.buffers, '(' ∉ u.name.toList ∧ ')' ∉ u.name.toList := by
    rw [hbuffers]
    simp
  have hsize : sample.size = 5 := congrArg Array.size hvalues
  have hd : sample.Has ⟨2⟩ := by rw [Has, hsize]; decide
  have he : sample.Has ⟨4⟩ := by rw [Has, hsize]; decide
  exact ⟨hbuilt, hnames, hd, he, text_eq_iff hbuilt hnames hd he⟩

end Store
end Term
end Wraparound
