import Dataflow.Proofs.Adjacency
import Dataflow.Proofs.PatternCoverage
import Mathlib.Data.List.Chain
import Mathlib.Data.List.MinMax

/- A match is a chain of first producers whose nodes stand at places of the pattern
   (`matchAt_traces`). The walk leaves out a token only if it is optional, so that all tokens
   after the first place that have no node are optional; what comes before the first place may be
   anything, and is what a match may leave uncovered. A search keeps one match for each first
   node, a longest one (`exists_longest`, `search_outcome`). Where tokens are not in the way of
   each other, the walk finds every chain that covers the pattern (`matchAt_of_covers`). -/

namespace Dataflow

namespace Pattern

open Dataflow.Graph

variable {p : Pattern} {g : Graph} {m : Match} {n v : Node} {t : Token} {ts : List Token}
  {ns : List Node}

/-! ## One match -/

/-- The nodes stand at places of the tokens, in order, each at a token that takes it. Every token after
the first of these places is optional or has a node. -/
def Stands (ts : List Token) (ns : List Node) : Prop :=
  ∃ place : Fin ns.length → Fin ts.length, StrictMono place ∧
    (∀ i, (ts.get (place i)).accepts (ns.get i).op = true) ∧
    ∀ i j, place i < j → (∀ k, place k ≠ j) → (ts.get j).isOptional = true

theorem Assigns.stands (ha : Assigns ts ns) : Stands ts ns := by
  obtain ⟨place, hmono, hacc, hall⟩ := ha
  refine ⟨place, hmono, hacc, fun i j _ hj => Classical.byContradiction fun hopt => ?_⟩
  obtain ⟨k, hk⟩ := hall j (Bool.eq_false_iff.mpr hopt)
  exact hj k hk

theorem Stands.cons (hs : Stands ts ns) (t : Token) : Stands (t :: ts) ns := by
  obtain ⟨place, hmono, hacc, hopt⟩ := hs
  refine ⟨fun i => (place i).succ, fun i j hij => Fin.succ_lt_succ_iff.mpr (hmono hij), hacc, ?_⟩
  intro i j hij hj
  cases j using Fin.cases with
  | zero => exact absurd hij (Fin.not_lt_zero _)
  | succ j =>
    exact hopt i j (Fin.succ_lt_succ_iff.mp hij) fun k hk => hj k (congrArg Fin.succ hk)

theorem Stands.append (hs : Stands ts ns) : ∀ before : List Token, Stands (before ++ ts) ns
  | [] => hs
  | t :: before => (hs.append before).cons t

/-- What a match of a pattern is. -/
structure Traces (p : Pattern) (g : Graph) (m : Match) : Prop where
  nonempty : m.chain ≠ []
  mandatoryCount_le : p.mandatoryCount ≤ m.size
  size_le : m.size ≤ p.size
  /-- The names are those of nodes of the graph. -/
  nodes : m.names.map g.node? = m.chain.map some
  /-- The operations are those of the nodes with these names. -/
  ops : m.names.map (fun x => (g.node? x).map Node.op) = m.ops.map some
  /-- Each node but the last is the first producer of the next. -/
  producers : m.chain.IsChain fun a b => g.firstProducer? b = some a
  stands : Stands p.tokens m.chain

theorem followsFirstInputs_iff : ∀ {ns : List Node},
    FollowsFirstInputs g ns ↔ ns.IsChain fun a b => g.firstProducer? a = some b
  | [] => by simp [FollowsFirstInputs]
  | [_] => by simp [FollowsFirstInputs]
  | _ :: m :: rest => by
    rw [FollowsFirstInputs, List.isChain_cons_cons, followsFirstInputs_iff]

theorem node?_of_firstProducer? (hv : g.firstProducer? n = some v) :
    g.node? v.name = some v := by
  obtain ⟨input, -, hv⟩ := Option.bind_eq_some_iff.mp hv
  have hname : v.name = Reference.nodeOf input := name_of_node? hv
  rw [hname]
  exact hv

theorem node?_of_followsFirstInputs : ∀ {n : Node} {ns : List Node}, g.node? n.name = some n →
    FollowsFirstInputs g (n :: ns) → ∀ k ∈ n :: ns, g.node? k.name = some k
  | n, [], hn, _, k, hk => by
    rw [List.mem_singleton.mp hk]
    exact hn
  | n, m :: ms, hn, hf, k, hk => by
    rcases List.mem_cons.mp hk with rfl | hk
    · exact hn
    · exact node?_of_followsFirstInputs (node?_of_firstProducer? hf.1) hf.2 k hk

/-- The tokens that a match uses stand at the end of the pattern, and the match covers them. -/
theorem stands_of_matchAt (hm : p.matchAt g n = some m) : Stands p.tokens m.chain := by
  obtain ⟨rest, ha, hc, -⟩ := matchAt_eq_some.mp hm
  obtain ⟨skipped, t, hts, hskip, ht⟩ := align_eq_some ha
  obtain ⟨used, hused, hf⟩ := exists_fills_walk g n rest
  have hfills : Fills (skipped ++ t :: used) (n :: walk g n rest) :=
    fills_optional hskip (.take ht hf)
  have hsplit : p.tokens = (leftAfter g n rest).reverse ++ (skipped ++ t :: used).reverse := by
    rw [← List.reverse_append, List.append_assoc, List.cons_append, ← hused, ← hts,
      List.reverse_reverse]
  rw [hsplit, hc]
  exact (assigns_iff_fills.mpr hfills.reverse).stands.append _

theorem size_le_of_matchAt (hm : p.matchAt g n = some m) : m.size ≤ p.size := by
  obtain ⟨rest, ha, hc, -⟩ := matchAt_eq_some.mp hm
  have hwalk := walk_length_le g n rest
  have hrest := align_length_lt ha
  rw [List.length_reverse] at hrest
  rw [Match.size, hc, List.length_reverse, List.length_cons, size]
  omega

theorem matchAt_traces (hn : n ∈ g.nodes) (hm : p.matchAt g n = some m) : p.Traces g m := by
  obtain ⟨rest, -, hc, hle⟩ := matchAt_eq_some.mp hm
  have hfollows := followsFirstInputs_walk g n rest
  have hnodes : ∀ k ∈ m.chain, g.node? k.name = some k := by
    intro k hk
    rw [hc, List.mem_reverse] at hk
    exact node?_of_followsFirstInputs (node?_of_mem_nodes hn) hfollows k hk
  refine ⟨?_, hle, size_le_of_matchAt hm, ?_, ?_, ?_, stands_of_matchAt hm⟩
  · rw [hc]
    simp
  · rw [Match.names, List.map_map]
    exact List.map_congr_left hnodes
  · rw [Match.names, Match.ops, List.map_map, List.map_map]
    refine List.map_congr_left fun k hk => ?_
    rw [Function.comp_apply, Function.comp_apply, hnodes k hk, Option.map_some]
  · rw [hc, List.isChain_reverse]
    exact followsFirstInputs_iff.mp hfollows

/-! ## A search -/

/-- Of the matches with one first node a longest one is kept. -/
theorem exists_longest {found : List Match} (hm : m ∈ found) :
    ∃ best ∈ found.filter (isLongest found), best.first = m.first ∧ m.size ≤ best.size := by
  have hgroup : m ∈ found.filter fun other => other.first == m.first :=
    List.mem_filter.mpr ⟨hm, beq_self_eq_true m.first⟩
  have hsome : (found.filter fun other => other.first == m.first).argmax Match.size ≠ none :=
    fun hnone => List.ne_nil_of_mem hgroup (List.argmax_eq_none.mp hnone)
  obtain ⟨best, hbest⟩ := Option.ne_none_iff_exists'.mp hsome
  have hmax : ∀ other ∈ found, other.first = m.first → other.size ≤ best.size := by
    intro other hother hfirst
    have hmem : other ∈ found.filter fun other => other.first == m.first :=
      List.mem_filter.mpr ⟨hother, beq_iff_eq.mpr hfirst⟩
    exact List.le_of_mem_argmax hmem hbest
  obtain ⟨hin, hfirst⟩ := List.mem_filter.mp (List.argmax_mem hbest)
  rw [beq_iff_eq] at hfirst
  refine ⟨best, List.mem_filter.mpr ⟨hin, ?_⟩, hfirst, hmax m hm rfl⟩
  rw [isLongest, List.all_eq_true]
  intro other hother
  rw [Bool.or_eq_true, bne_iff_ne, decide_eq_true_eq, hfirst]
  exact Decidable.or_iff_not_imp_left.mpr fun hne => hmax other hother (Decidable.not_not.mp hne)

theorem map_last_matches (p : Pattern) (g : Graph) : ∀ ns : List Node,
    (ns.filterMap (p.matchAt g)).map Match.last =
      (ns.filter fun n => (p.matchAt g n).isSome).map Node.name
  | [] => rfl
  | n :: ns => by
    have ih := map_last_matches p g ns
    cases hm : p.matchAt g n with
    | none => rw [List.filterMap_cons_none hm, ih, List.filter_cons_of_neg (by simp [hm])]
    | some m =>
      rw [List.filterMap_cons_some hm, List.map_cons, ih, last_of_matchAt hm,
        List.filter_cons_of_pos (by simp [hm]), List.map_cons]

theorem last_sublist_names (p : Pattern) (g : Graph) :
    ((p.search g).map Match.last).Sublist g.names := by
  have hfound : (p.search g).Sublist (g.nodes.filterMap (p.matchAt g)) := List.filter_sublist
  refine (hfound.map Match.last).trans ?_
  rw [map_last_matches, ← map_name_nodes]
  exact List.filter_sublist.map Node.name

/-- What a search returns: chains of first producers along the pattern, one for each last node at most,
in index order; of those with one first node only the longest, and one for each first node that a match
is found for. -/
theorem search_outcome (p : Pattern) (g : Graph) :
    (∀ m ∈ p.search g, p.Traces g m) ∧
    ((p.search g).map Match.last).Nodup ∧ ((p.search g).map Match.last).Sublist g.names ∧
    (∀ m ∈ p.search g, ∀ m' ∈ p.search g, m.first = m'.first → m.size = m'.size) ∧
    ∀ n ∈ g.nodes, ∀ m, p.matchAt g n = some m →
      ∃ m' ∈ p.search g, m'.first = m.first ∧ m.size ≤ m'.size := by
  refine ⟨?_, (last_sublist_names p g).nodup g.nodup_names, last_sublist_names p g, ?_, ?_⟩
  · intro m hm
    obtain ⟨⟨n, hn, hmatch⟩, -⟩ := mem_search.mp hm
    exact matchAt_traces hn hmatch
  · intro m hm m' hm' hfirst
    obtain ⟨⟨n, hn, hmatch⟩, hlongest⟩ := mem_search.mp hm
    obtain ⟨⟨n', hn', hmatch'⟩, hlongest'⟩ := mem_search.mp hm'
    exact Nat.le_antisymm (hlongest' n hn m hmatch hfirst) (hlongest n' hn' m' hmatch' hfirst.symm)
  · intro n hn m hm
    exact exists_longest (List.mem_filterMap.mpr ⟨n, hn, hm⟩)

/-! ## Unambiguous patterns -/

theorem eq_append_of_lt {α : Type} {l : List α} {i j : Nat} (hij : i < j) (hj : j < l.length) :
    l = l.take i ++ l[i] :: ((l.drop (i + 1)).take (j - (i + 1)) ++ l[j] :: l.drop (j + 1)) := by
  have hlater : (l.drop (i + 1)).drop (j - (i + 1)) = l[j] :: l.drop (j + 1) := by
    rw [List.drop_drop, Nat.add_sub_cancel' hij]
    exact List.drop_eq_getElem_cons hj
  calc l = l.take i ++ l.drop i := (List.take_append_drop i l).symm
    _ = l.take i ++ l[i] :: l.drop (i + 1) := by rw [List.drop_eq_getElem_cons]
    _ = _ := by rw [← hlater, List.take_append_drop]

theorem unambiguous_iff : p.Unambiguous ↔ ∀ i j : Fin p.tokens.length, i < j →
    (p.tokens.get j).isOptional = true →
      (∀ k, i < k → k < j → (p.tokens.get k).isOptional = true) →
        ∀ op ∈ (p.tokens.get i).ops, op ∉ (p.tokens.get j).ops := by
  constructor
  · intro hp i j hij hopt hbetween op hi hj
    refine hp _ _ _ _ _ (eq_append_of_lt hij j.isLt) hopt (fun x hx => ?_) op
      ⟨Token.accepts_iff.mpr hi, Token.accepts_iff.mpr hj⟩
    obtain ⟨k, hk, rfl⟩ := List.getElem_of_mem hx
    rw [List.length_take, List.length_drop] at hk
    rw [List.getElem_take, List.getElem_drop]
    exact hbetween ⟨i + 1 + k, by omega⟩ (Fin.mk_lt_mk.mpr (by omega)) (Fin.mk_lt_mk.mpr (by omega))
  · intro hall before t between u after hts hu hbetween op hboth
    have hfirst : p.tokens[before.length]? = some t := by simp [hts]
    have hlast : p.tokens[before.length + (between.length + 1)]? = some u := by simp [hts]
    obtain ⟨hi, hti⟩ := List.getElem?_eq_some_iff.mp hfirst
    obtain ⟨hj, huj⟩ := List.getElem?_eq_some_iff.mp hlast
    have hmiddle : ∀ k (hk : k < p.tokens.length), before.length < k →
        k < before.length + (between.length + 1) → p.tokens[k].isOptional = true := by
      intro k hk hik hkj
      obtain ⟨d, rfl⟩ := Nat.exists_eq_add_of_lt hik
      have hd : d < between.length := by omega
      have hget : p.tokens[before.length + d + 1]? = some between[d] := by
        rw [hts, Nat.add_assoc, List.getElem?_append_right (Nat.le_add_right _ _),
          Nat.add_sub_cancel_left, List.getElem?_cons_succ, List.getElem?_append_left hd,
          List.getElem?_eq_getElem hd]
      obtain ⟨_, hx⟩ := List.getElem?_eq_some_iff.mp hget
      rw [hx]
      exact hbetween _ (List.getElem_mem hd)
    refine hall ⟨before.length, hi⟩ ⟨_, hj⟩ (Fin.mk_lt_mk.mpr (by omega)) ?_
      (fun k => hmiddle k k.isLt) op ?_ ?_
    · rwa [List.get_eq_getElem, huj]
    · rw [List.get_eq_getElem, hti]
      exact Token.accepts_iff.mp hboth.1
    · rw [List.get_eq_getElem, huj]
      exact Token.accepts_iff.mp hboth.2

instance (p : Pattern) : Decidable p.Unambiguous := decidable_of_iff' _ unambiguous_iff

/-- Nodes that follow one another from `v`, each the first producer of the one before, and cover the
pattern together. -/
structure CoversFrom (p : Pattern) (g : Graph) (v : Node) (ns : List Node) : Prop where
  follows : FollowsFirstInputs g (v :: ns)
  covers : p.Covers ⟨(v :: ns).reverse⟩

theorem Fills.countP_le (hf : Fills ts ns) : (ts.countP fun t => !t.isOptional) ≤ ns.length := by
  induction hf with
  | nil => exact Nat.le_refl 0
  | take _ _ ih =>
    rw [List.countP_cons, List.length_cons]
    split <;> omega
  | skip ht _ ih =>
    rw [List.countP_cons_of_neg (by simp [ht])]
    exact ih

theorem mandatoryCount_le_of_covers (hc : p.Covers m) : p.mandatoryCount ≤ m.size :=
  (assigns_iff_fills.mp hc).countP_le

/-- The match at the start of a chain that covers an unambiguous pattern. The alignment puts the start
where it stands in the covering, and the walk goes along the chain to its end. -/
theorem CoversFrom.exists_align (hp : p.Unambiguous) (hc : p.CoversFrom g v ns) :
    ∃ rest, align v.op p.tokens.reverse = some rest ∧ ns <+: walk g v rest ∧
      p.Covers ⟨(v :: walk g v rest).reverse⟩ := by
  have hfills := covers_iff_fills.mp hc.covers
  rw [List.reverse_reverse] at hfills
  obtain ⟨rest, ha, hrest⟩ := align_of_fills hp.separated hfills
  obtain ⟨skipped, t, hts, hskip, ht⟩ := align_eq_some ha
  have hs : Separated rest := by
    have hall := hp.separated
    rw [hts] at hall
    exact (hall.of_append skipped).of_append [t]
  obtain ⟨halong, hleft⟩ := walk_of_fills hs hc.follows hrest
  refine ⟨rest, ha, halong, covers_iff_fills.mpr ?_⟩
  rw [List.reverse_reverse, hts]
  exact fills_optional hskip (.take ht (fills_walk hleft))

/-- If the nodes that follow a node, as far as they may be, cover an unambiguous pattern, then there is a
match at the node. It covers the pattern too, and it is as long as all such chains at least. -/
theorem matchAt_of_covers (hp : p.Unambiguous) (hc : p.CoversFrom g v ns) :
    ∃ m, p.matchAt g v = some m ∧ p.Covers m ∧
      ∀ ns', p.CoversFrom g v ns' → (v :: ns').length ≤ m.size := by
  obtain ⟨rest, ha, -, hcovers⟩ := hc.exists_align hp
  have hcount := mandatoryCount_le_of_covers hcovers
  refine ⟨⟨(v :: walk g v rest).reverse⟩, matchAt_eq_some.mpr ⟨rest, ha, rfl, hcount⟩, hcovers, ?_⟩
  intro ns' hc'
  obtain ⟨rest', ha', halong, -⟩ := hc'.exists_align hp
  cases ha.symm.trans ha'
  rw [Match.size, List.length_reverse, List.length_cons, List.length_cons]
  exact Nat.succ_le_succ halong.length_le

/-- The rectifier of the convolution. The addition that it might have is left out, and the input of the
convolution is no part of the pattern. -/
theorem matchAt_convolution : convBiasAddRelu.Unambiguous ∧
    ∃ m, convBiasAddRelu.matchAt (.build convolutionNodes) (.make "Relu" "relu" ["bias"]) = some m ∧
      convBiasAddRelu.Covers m ∧
      ∀ ns, convBiasAddRelu.CoversFrom (.build convolutionNodes) (.make "Relu" "relu" ["bias"]) ns →
        ns.length < m.size := by
  have hp : convBiasAddRelu.Unambiguous := by decide
  have hc : convBiasAddRelu.CoversFrom (.build convolutionNodes) (.make "Relu" "relu" ["bias"])
      [.make "BiasAdd" "bias" ["conv"], .make "Conv2D" "conv" ["x"]] := by
    refine ⟨⟨by decide +kernel, by decide +kernel, trivial⟩, covers_iff_fills.mpr ?_⟩
    exact .take rfl (.skip rfl (.take rfl (.take rfl .nil)))
  exact ⟨hp, matchAt_of_covers hp hc⟩

end Pattern
end Dataflow
