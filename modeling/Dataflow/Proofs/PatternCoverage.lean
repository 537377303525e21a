import Dataflow.Graph.Build
import Dataflow.Pattern.Match
import Mathlib.Data.Fin.Tuple.Basic
import Mathlib.Order.Fin.Basic

/- A match covers a pattern if its nodes can be put at places of the pattern, in order, so that
   each stands at a token that takes it and no mandatory token is left without a node. The walk
   of the matcher may end at a mandatory token, and then the nodes are only counted:
   `search_uncovered` is a match without its mandatory node. How far a match covers its pattern
   can be told from the tokens that the walk left unread, and for unambiguous patterns from these
   alone (`search_covers`).

   The argument compares the walk with any way to fill the tokens, both read side by side with
   the nodes (`covers_iff_fills`, `exists_fills_walk`, `walk_of_fills`). -/

namespace Dataflow

namespace Pattern

variable {g : Graph} {n : Node} {t u : Token} {ts rest : List Token} {ns : List Node}
  {op : String}

/-! ## Covering -/

/-- The nodes can be put at places of the tokens, in order, each at a token that takes it and so that
no mandatory token is left without a node. -/
def Assigns (ts : List Token) (ns : List Node) : Prop :=
  ∃ place : Fin ns.length → Fin ts.length, StrictMono place ∧
    (∀ i, (ts.get (place i)).accepts (ns.get i).op = true) ∧
    ∀ j, (ts.get j).isOptional = false → ∃ i, place i = j

/-- A match covers a pattern, producer first. -/
def Covers (p : Pattern) (m : Match) : Prop := Assigns p.tokens m.chain

/-- Nodes that fill tokens one after the other, with optional tokens left out. -/
inductive Fills : List Token → List Node → Prop where
  | nil : Fills [] []
  | take {t : Token} {ts : List Token} {n : Node} {ns : List Node} :
    t.accepts n.op = true → Fills ts ns → Fills (t :: ts) (n :: ns)
  | skip {t : Token} {ts : List Token} {ns : List Node} :
    t.isOptional = true → Fills ts ns → Fills (t :: ts) ns

theorem Assigns.take (ha : Assigns ts ns) (ht : t.accepts n.op = true) :
    Assigns (t :: ts) (n :: ns) := by
  obtain ⟨place, hmono, hacc, hall⟩ := ha
  refine ⟨Fin.cons 0 fun i => (place i).succ, ?_, ?_, ?_⟩
  · intro i j hij
    cases j using Fin.cases with
    | zero => exact absurd hij (Fin.not_lt_zero i)
    | succ j =>
      cases i using Fin.cases with
      | zero => exact Fin.succ_pos (place j)
      | succ i => exact Fin.succ_lt_succ_iff.mpr (hmono (Fin.succ_lt_succ_iff.mp hij))
  · intro i
    cases i using Fin.cases with
    | zero => exact ht
    | succ i => exact hacc i
  · intro j hj
    cases j using Fin.cases with
    | zero => exact ⟨0, rfl⟩
    | succ j =>
      obtain ⟨i, hi⟩ := hall j hj
      exact ⟨i.succ, congrArg Fin.succ hi⟩

theorem Assigns.skip (ha : Assigns ts ns) (ht : t.isOptional = true) : Assigns (t :: ts) ns := by
  obtain ⟨place, hmono, hacc, hall⟩ := ha
  refine ⟨fun i => (place i).succ, fun i j hij => Fin.succ_lt_succ_iff.mpr (hmono hij), hacc, ?_⟩
  intro j hj
  cases j using Fin.cases with
  | zero => exact absurd ht (by simp_all)
  | succ j =>
    obtain ⟨i, hi⟩ := hall j hj
    exact ⟨i, congrArg Fin.succ hi⟩

theorem assigns_tail (place : Fin ns.length → Fin (t :: ts).length) (hmono : StrictMono place)
    (hlate : ∀ i, ∃ j : Fin ts.length, Fin.succ j = place i)
    (hacc : ∀ i, ((t :: ts).get (place i)).accepts (ns.get i).op = true)
    (hall : ∀ j, (ts.get j).isOptional = false → ∃ i, place i = Fin.succ j) : Assigns ts ns := by
  choose lower hlower using hlate
  refine ⟨lower, ?_, ?_, ?_⟩
  · intro i j hij
    have := hmono hij
    rw [← hlower, ← hlower] at this
    exact Fin.succ_lt_succ_iff.mp this
  · intro i
    have := hacc i
    rw [← hlower] at this
    exact this
  · intro j hj
    obtain ⟨i, hi⟩ := hall j hj
    exact ⟨i, Fin.succ_injective _ ((hlower i).trans hi)⟩

/-- The first token is filled by the first node, or it is optional and left out. -/
theorem Assigns.cons_cases (ha : Assigns (t :: ts) ns) :
    (∃ n ms, ns = n :: ms ∧ t.accepts n.op = true ∧ Assigns ts ms) ∨
      t.isOptional = true ∧ Assigns ts ns := by
  obtain ⟨place, hmono, hacc, hall⟩ := ha
  by_cases hzero : ∃ i, place i = 0
  · obtain ⟨i, hi⟩ := hzero
    cases ns with
    | nil => exact i.elim0
    | cons n ms =>
      have hfirst : place 0 = 0 := by
        have hle : place 0 ≤ place i := hmono.monotone (Fin.zero_le i)
        rw [hi] at hle
        exact Fin.le_zero_iff.mp hle
      have ht : t.accepts n.op = true := by
        have := hacc 0
        rw [hfirst] at this
        exact this
      have hlate : ∀ j : Fin ms.length, ∃ k : Fin ts.length, Fin.succ k = place j.succ := by
        intro j
        have hlt : place 0 < place j.succ := hmono (Fin.succ_pos j)
        exact Fin.exists_succ_eq.mpr (Fin.ne_zero_of_lt hlt)
      refine .inl ⟨n, ms, rfl, ht, assigns_tail (fun j => place j.succ) ?_ hlate ?_ ?_⟩
      · exact fun j k hjk => hmono (Fin.succ_lt_succ_iff.mpr hjk)
      · exact fun j => hacc j.succ
      · intro j hj
        obtain ⟨k, hk⟩ := hall j.succ hj
        cases k using Fin.cases with
        | zero => exact absurd (hfirst.symm.trans hk).symm (Fin.succ_ne_zero j)
        | succ k => exact ⟨k, hk⟩
  · have hne : ∀ i, place i ≠ 0 := fun i hi => hzero ⟨i, hi⟩
    have ht : t.isOptional = true := by
      refine by_contra fun ht => ?_
      obtain ⟨i, hi⟩ := hall 0 (Bool.eq_false_iff.mpr ht)
      exact hne i hi
    have hlate : ∀ i, ∃ j : Fin ts.length, Fin.succ j = place i :=
      fun i => Fin.exists_succ_eq.mpr (hne i)
    exact .inr ⟨ht, assigns_tail place hmono hlate hacc fun j hj => hall j.succ hj⟩

theorem fills_of_assigns : ∀ {ts : List Token} {ns : List Node}, Assigns ts ns → Fills ts ns
  | [], [], _ => .nil
  | [], _ :: _, ⟨place, _⟩ => (place 0).elim0
  | t :: ts, ns, ha => by
    rcases ha.cons_cases with ⟨n, ms, rfl, ht, hrest⟩ | ⟨ht, hrest⟩
    · exact .take ht (fills_of_assigns hrest)
    · exact .skip ht (fills_of_assigns hrest)

theorem assigns_iff_fills : Assigns ts ns ↔ Fills ts ns := by
  refine ⟨fills_of_assigns, fun hf => ?_⟩
  induction hf with
  | nil => exact ⟨id, strictMono_id, fun i => i.elim0, fun j => j.elim0⟩
  | take ht _ ih => exact ih.take ht
  | skip ht _ ih => exact ih.skip ht

/-! ## Reading from the other end -/

theorem Fills.append {ts' : List Token} {ns' : List Node} (hf : Fills ts ns) (hf' : Fills ts' ns') :
    Fills (ts ++ ts') (ns ++ ns') := by
  induction hf with
  | nil => exact hf'
  | take ht _ ih => exact .take ht ih
  | skip ht _ ih => exact .skip ht ih

theorem Fills.reverse (hf : Fills ts ns) : Fills ts.reverse ns.reverse := by
  induction hf with
  | nil => exact .nil
  | take ht _ ih =>
    rw [List.reverse_cons, List.reverse_cons]
    exact ih.append (.take ht .nil)
  | @skip t ts ns ht _ ih =>
    rw [List.reverse_cons, ← List.append_nil ns.reverse]
    exact ih.append (.skip ht .nil)

/-- Covering, by the tokens and the nodes read consumer first. -/
theorem covers_iff_fills {p : Pattern} {m : Match} :
    p.Covers m ↔ Fills p.tokens.reverse m.chain.reverse := by
  rw [Covers, assigns_iff_fills]
  refine ⟨Fills.reverse, fun hf => ?_⟩
  have := hf.reverse
  rwa [List.reverse_reverse, List.reverse_reverse] at this

theorem fills_optional (ho : ∀ t ∈ ts, t.isOptional = true) (hf : Fills rest ns) :
    Fills (ts ++ rest) ns := by
  induction ts with
  | nil => exact hf
  | cons t ts ih =>
    exact .skip (ho t List.mem_cons_self) (ih fun u hu => ho u (List.mem_cons_of_mem t hu))

theorem fills_nil_iff : Fills ts [] ↔ ∀ t ∈ ts, t.isOptional = true := by
  refine ⟨fun hf => ?_, fun ho => ?_⟩
  · induction ts with
    | nil => exact fun t ht => absurd ht List.not_mem_nil
    | cons t ts ih =>
      cases hf with
      | skip ht hf => exact List.forall_mem_cons.mpr ⟨ht, ih hf⟩
  · have := fills_optional ho Fills.nil
    rwa [List.append_nil] at this

/-- The first node stands at the first token that is not left out. -/
theorem Fills.cons_eq (hf : Fills ts (n :: ns)) : ∃ skipped t rest, ts = skipped ++ t :: rest ∧
    (∀ u ∈ skipped, u.isOptional = true) ∧ t.accepts n.op = true ∧ Fills rest ns := by
  induction ts with
  | nil => cases hf
  | cons t ts ih =>
    cases hf with
    | take ht hf => exact ⟨[], t, ts, rfl, (fun u hu => absurd hu List.not_mem_nil), ht, hf⟩
    | skip ht hf =>
      obtain ⟨skipped, u, rest, rfl, ho, hu, hrest⟩ := ih hf
      exact ⟨t :: skipped, u, rest, rfl, List.forall_mem_cons.mpr ⟨ht, ho⟩, hu, hrest⟩

/-! ## What the walk leaves -/

/-- The tokens that a walk from a node does not use up, consumer first. -/
def leftAfter (g : Graph) (current : Node) : List Token → List Token
  | [] => []
  | t :: rest =>
    match g.firstProducer? current with
    | none => t :: rest
    | some producer =>
      if t.accepts producer.op then leftAfter g producer rest
      else if t.isOptional then leftAfter g current rest
      else t :: rest

def unread (p : Pattern) (g : Graph) (n : Node) : List Token :=
  match align n.op p.tokens.reverse with
  | none => p.tokens.reverse
  | some rest => leftAfter g n rest

theorem align_eq_some {op : String} (h : align op ts = some rest) :
    ∃ skipped t, ts = skipped ++ t :: rest ∧ (∀ u ∈ skipped, u.isOptional = true) ∧
      t.accepts op = true := by
  induction ts with
  | nil => cases h
  | cons t ts ih =>
    rw [align] at h
    split at h
    · rename_i hacc
      cases h
      exact ⟨[], t, rfl, (fun u hu => absurd hu List.not_mem_nil), hacc⟩
    · split at h
      · rename_i hopt
        obtain ⟨skipped, u, rfl, ho, hu⟩ := ih h
        exact ⟨t :: skipped, u, rfl, List.forall_mem_cons.mpr ⟨hopt, ho⟩, hu⟩
      · cases h

/-- The tokens that a walk uses up are filled by the nodes that it goes along. -/
theorem exists_fills_walk (g : Graph) (n : Node) (rest : List Token) :
    ∃ used, rest = used ++ leftAfter g n rest ∧ Fills used (walk g n rest) := by
  fun_induction walk g n rest with
  | case1 current => exact ⟨[], rfl, .nil⟩
  | case2 current t rest hp =>
    simp only [leftAfter, hp]
    exact ⟨[], rfl, .nil⟩
  | case3 current t rest producer hp hacc ih =>
    simp only [leftAfter, hp, hacc, if_true]
    obtain ⟨used, hused, hf⟩ := ih
    exact ⟨t :: used, congrArg (t :: ·) hused, .take hacc hf⟩
  | case4 current t rest producer hp hacc hopt ih =>
    simp only [leftAfter, hp, hacc, hopt, if_true]
    obtain ⟨used, hused, hf⟩ := ih
    exact ⟨t :: used, congrArg (t :: ·) hused, .skip hopt hf⟩
  | case5 current t rest producer hp hacc hopt =>
    simp only [leftAfter, hp, hacc, hopt]
    exact ⟨[], rfl, .nil⟩

theorem fills_walk (ho : ∀ t ∈ leftAfter g n rest, t.isOptional = true) :
    Fills rest (walk g n rest) := by
  obtain ⟨used, hused, hf⟩ := exists_fills_walk g n rest
  have hall := hf.append (fills_nil_iff.mpr ho)
  rwa [List.append_nil, ← hused] at hall

/-! ## Unambiguous patterns -/

/-- No optional token takes an operation that an earlier token takes too, where all tokens between
the two are optional. -/
def Unambiguous (p : Pattern) : Prop :=
  ∀ before t between u after, p.tokens = before ++ t :: (between ++ u :: after) →
    u.isOptional = true → (∀ x ∈ between, x.isOptional = true) →
      ∀ op, ¬(t.accepts op = true ∧ u.accepts op = true)

def Separated (ts : List Token) : Prop :=
  ∀ before u between t after, ts = before ++ u :: (between ++ t :: after) →
    u.isOptional = true → (∀ x ∈ between, x.isOptional = true) →
      ∀ op, ¬(t.accepts op = true ∧ u.accepts op = true)

theorem Unambiguous.separated {p : Pattern} (hp : p.Unambiguous) : Separated p.tokens.reverse := by
  intro before u between t after hts hu hb
  refine hp after.reverse t between.reverse u before.reverse ?_ hu fun x hx => ?_
  · have := congrArg List.reverse hts
    simpa only [List.reverse_reverse, List.reverse_append, List.reverse_cons, List.append_assoc,
      List.singleton_append, List.cons_append, List.nil_append] using this
  · exact hb x (List.mem_reverse.mp hx)

theorem Separated.of_append (skipped : List Token) (hs : Separated (skipped ++ ts)) :
    Separated ts := by
  intro before u between t after hts
  refine hs (skipped ++ before) u between t after ?_
  rw [hts, List.append_assoc]

/-- Where no token is in the way of another, any way to fill the tokens puts the first node where
the alignment puts it. -/
theorem align_of_fills (hs : Separated ts) (hf : Fills ts (n :: ns)) :
    ∃ rest, align n.op ts = some rest ∧ Fills rest ns := by
  induction ts with
  | nil => cases hf
  | cons t ts ih =>
    cases hf with
    | take ht hf => exact ⟨ts, by rw [align, if_pos ht], hf⟩
    | skip ht hf =>
      obtain ⟨rest, ha, hr⟩ := ih (hs.of_append [t]) hf
      obtain ⟨skipped, u, after, hts, ho, hu, -⟩ := hf.cons_eq
      have hnot : ¬t.accepts n.op = true :=
        fun hacc => hs [] t skipped u after (by rw [hts]; rfl) ht ho n.op ⟨hu, hacc⟩
      refine ⟨rest, ?_, hr⟩
      rw [align, if_neg hnot, if_pos ht]
      exact ha

/-- The walk goes along every chain of first producers that fills the tokens, and then leaves only
optional ones. It gives a node the first token that takes it, and in any way to fill the tokens the node
stands there too. -/
theorem walk_of_fills (hs : Separated rest) (hn : FollowsFirstInputs g (n :: ns))
    (hf : Fills rest ns) :
    ns <+: walk g n rest ∧ ∀ t ∈ leftAfter g n rest, t.isOptional = true := by
  fun_induction walk g n rest generalizing ns with
  | case1 current =>
    cases hf
    exact ⟨List.prefix_rfl, fun t ht => absurd ht List.not_mem_nil⟩
  | case2 current t rest hp =>
    cases ns with
    | nil =>
      simp only [leftAfter, hp]
      exact ⟨List.prefix_rfl, fills_nil_iff.mp hf⟩
    | cons m ms => cases hp.symm.trans hn.1
  | case3 current t rest producer hp hacc ih =>
    simp only [leftAfter, hp, hacc, if_true]
    cases ns with
    | nil =>
      have hrest : Fills rest [] :=
        fills_nil_iff.mpr fun u hu => fills_nil_iff.mp hf u (List.mem_cons_of_mem t hu)
      have halone : FollowsFirstInputs g [producer] := trivial
      exact ⟨List.nil_prefix, (ih (hs.of_append [t]) halone hrest).2⟩
    | cons m ms =>
      obtain ⟨rest', ha, hrest⟩ := align_of_fills hs hf
      cases hp.symm.trans hn.1
      rw [align, if_pos hacc] at ha
      cases ha
      obtain ⟨halong, hleft⟩ := ih (hs.of_append [t]) hn.2 hrest
      exact ⟨List.cons_prefix_cons.mpr ⟨rfl, halong⟩, hleft⟩
  | case4 current t rest producer hp hacc hopt ih =>
    simp only [leftAfter, hp, hacc, hopt, if_true]
    refine ih (hs.of_append [t]) hn ?_
    cases hf with
    | take ht hf =>
      cases hp.symm.trans hn.1
      exact absurd ht hacc
    | skip _ hf => exact hf
  | case5 current t rest producer hp hacc hopt =>
    cases hf with
    | take ht hf =>
      cases hp.symm.trans hn.1
      exact absurd ht hacc
    | skip ht _ => exact absurd ht hopt

/-- If what the walk went along can be filled at all, then the walk leaves only optional tokens. -/
theorem unread_of_fills (hs : Separated rest) (hf : Fills rest (walk g n rest)) :
    ∀ t ∈ leftAfter g n rest, t.isOptional = true :=
  (walk_of_fills hs (followsFirstInputs_walk g n rest) hf).2

/-! ## What a search returns -/

theorem length_walk_add_leftAfter (g : Graph) (n : Node) (rest : List Token) :
    (walk g n rest).length + (leftAfter g n rest).length ≤ rest.length := by
  fun_induction walk g n rest with
  | case1 current => exact Nat.le_refl 0
  | case2 current t rest hp => simp [leftAfter, hp]
  | case3 current t rest producer hp hacc ih =>
    simp only [leftAfter, hp, hacc, if_true, List.length_cons]
    omega
  | case4 current t rest producer hp hacc hopt ih =>
    simp only [leftAfter, hp, hacc, hopt, Bool.false_eq_true, if_true, if_false, List.length_cons]
    omega
  | case5 current t rest producer hp hacc hopt => simp [leftAfter, hp, hacc, hopt]

/-- A match leaves no more tokens unread than the pattern has optional ones. -/
theorem length_unread_le {p : Pattern} {m : Match} (hm : p.matchAt g n = some m) :
    (p.unread g n).length ≤ p.tokens.countP Token.isOptional := by
  obtain ⟨rest, ha, hc, hle⟩ := matchAt_eq_some.mp hm
  obtain ⟨skipped, t, hts, -⟩ := align_eq_some ha
  have hwalk := length_walk_add_leftAfter g n rest
  have hsize : m.size = (walk g n rest).length + 1 := by
    rw [Match.size, hc, List.length_reverse, List.length_cons]
  have hlen : p.tokens.length = skipped.length + (rest.length + 1) := by
    rw [← List.length_reverse, hts, List.length_append, List.length_cons]
  have hcount := p.tokens.length_eq_countP_add_countP Token.isOptional
  have hmand : p.mandatoryCount = p.tokens.countP fun t => !t.isOptional := rfl
  simp only [unread, ha]
  simp only [Bool.not_eq_true, Bool.decide_eq_false] at hcount
  omega

/-- A match that a search returns covers the pattern if its walk leaves only optional tokens unread.
For unambiguous patterns it covers the pattern only then, and patterns without optional tokens are
always covered. -/
theorem search_covers {p : Pattern} {m : Match} (hm : m ∈ p.search g) :
    ∃ n, m.chain.getLast? = some n ∧
      ((∀ t ∈ p.unread g n, t.isOptional = true) → p.Covers m) ∧
      (p.Unambiguous → p.Covers m → ∀ t ∈ p.unread g n, t.isOptional = true) ∧
      ((∀ t ∈ p.tokens, t.isOptional = false) → p.Covers m) := by
  obtain ⟨⟨n, -, hmatch⟩, -⟩ := mem_search.mp hm
  obtain ⟨rest, ha, hc, -⟩ := matchAt_eq_some.mp hmatch
  obtain ⟨skipped, t, hts, hskip, ht⟩ := align_eq_some ha
  have hunread : p.unread g n = leftAfter g n rest := by
    rw [unread, ha]
  have hcover : p.Covers m ↔ Fills p.tokens.reverse (n :: walk g n rest) := by
    rw [covers_iff_fills, hc, List.reverse_reverse]
  have henough : (∀ t ∈ p.unread g n, t.isOptional = true) → p.Covers m := by
    intro ho
    rw [hcover, hts]
    exact fills_optional hskip (.take ht (fills_walk (hunread ▸ ho)))
  refine ⟨n, (matchAt_follows hmatch).1, henough, ?_, ?_⟩
  · intro hp hcov
    have hs := hp.separated
    obtain ⟨rest', ha', hf⟩ := align_of_fills hs (hcover.mp hcov)
    cases ha.symm.trans ha'
    rw [hunread]
    rw [hts] at hs
    exact unread_of_fills ((hs.of_append skipped).of_append [t]) hf
  · intro hnone
    refine henough ?_
    have hzero : p.tokens.countP Token.isOptional = 0 :=
      List.countP_eq_zero.mpr fun t ht => by simp [hnone t ht]
    have hle := length_unread_le hmatch
    rw [hzero, Nat.le_zero, List.length_eq_zero_iff] at hle
    rw [hle]
    exact fun t ht => absurd ht List.not_mem_nil

/-- A convolution with its bias and its rectifier. -/
def convolutionNodes : List Node :=
  [.make "Placeholder" "x" [], .make "Conv2D" "conv" ["x"], .make "BiasAdd" "bias" ["conv"],
    .make "Relu" "relu" ["bias"]]

def biasNodes : List Node :=
  [.make "Placeholder" "x" [], .make "BiasAdd" "bias" ["x"], .make "Relu" "relu" ["bias"]]

/-- The convolution is covered without the addition that it might have. -/
theorem search_covers_convolution :
    (⟨convolutionNodes.tail⟩ : Match) ∈ convBiasAddRelu.search (.build convolutionNodes) ∧
      convBiasAddRelu.Covers ⟨convolutionNodes.tail⟩ := by
  have hm : (⟨convolutionNodes.tail⟩ : Match) ∈ convBiasAddRelu.search (.build convolutionNodes) := by
    decide +kernel
  obtain ⟨n, hn, hcovers, -⟩ := search_covers hm
  cases hn
  exact ⟨hm, hcovers (by decide +kernel)⟩

/-- A rectifier that the pattern could do without is counted for the matrix product that it cannot do
without. -/
theorem search_uncovered :
    ¬∀ (p : Pattern) (g : Graph) (m : Match), m ∈ p.search g → p.Covers m := by
  intro hall
  have hm : (⟨biasNodes.tail⟩ : Match) ∈ matMulBiasRelu.search (.build biasNodes) := by
    decide +kernel
  obtain ⟨place, -, hacc, hmand⟩ := hall _ _ _ hm
  obtain ⟨i, hi⟩ := hmand ⟨0, by decide⟩ rfl
  have htake := hacc i
  rw [hi] at htake
  -- No node of the match is a matrix product.
  have hnone : ∀ i : Fin biasNodes.tail.length,
      (matMulBiasRelu.tokens.get ⟨0, by decide⟩).accepts (biasNodes.tail.get i).op = false := by decide
  exact Bool.false_ne_true ((hnone i).symm.trans htake)

end Pattern
end Dataflow
