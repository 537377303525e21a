import Dataflow.Positivity
import Dataflow.Proofs.Adjacency
import Mathlib.Data.List.Basic

/- The analysis is written with a bound on how deep it goes. `Concludes` is the same analysis as
   a relation without one, in which a question has an answer only where the analysis ends. A node
   is looked at only while the trail says nothing about it, and the trail says something about it
   from then on, so that the names of which nothing is known become fewer on the way down. A
   depth above their number is never used up (`suffices_all`), and so every question comes to its
   end (`isNonNegative_concludes`). -/

namespace Dataflow

/-! ## Verdicts -/

/-- What the latest step about a name says. -/
def SignTrail.verdict? (t : SignTrail) (name : String) : Option Bool :=
  t.findSome? (SignStep.verdict? name)

namespace SignTrail

variable {t : SignTrail} {x y : String}

theorem verdict?_started :
    verdict? (.started y :: t) x = if y = x then some false else t.verdict? x := by
  by_cases h : y = x <;> simp [verdict?, SignStep.verdict?, h]

theorem verdict?_evaluated {n : Node} {r : Bool} :
    verdict? (.evaluated n r :: t) x = if n.name = x then some r else t.verdict? x := by
  by_cases h : n.name = x <;> simp [verdict?, SignStep.verdict?, h]

theorem verdict?_read {input : String} : verdict? (.read input :: t) x = t.verdict? x := rfl

theorem verdict?_unresolved : verdict? (.unresolved y :: t) x = t.verdict? x := rfl

end SignTrail

namespace Graph

variable {g : Graph} {t u : SignTrail} {x name : String} {n : Node} {depth : Nat} {r : Bool}

/-! ## The analysis without a bound -/

inductive Question where
  /-- Whether a node is proven non-negative. -/
  | node (name : String)
  /-- Whether the sign rule of a node proves it. -/
  | rule (n : Node)
  /-- Whether all nodes are proven that the data references among these name. -/
  | inputs (references : List String)

/-- The nodes that data references name, in order. -/
def dataNodes (references : List String) : List String :=
  ((references.map Reference.parse).filter Reference.isData).map Reference.node

/-- A question that the analysis ends with an answer, the trail before it and the trail after. There is
no bound on how deep the analysis goes, and a question on which it does not end has no answer here. -/
inductive Concludes (g : Graph) : Question → SignTrail → Bool → SignTrail → Prop where
  -- A node that the trail speaks of is not looked at again, be it done or still being looked at.
  | known {name : String} {t : SignTrail} {r : Bool} : t.verdict? name = some r →
    Concludes g (.node name) t r t
  | absent {name : String} {t : SignTrail} : t.verdict? name = none → g.node? name = none →
    Concludes g (.node name) t false (.unresolved name :: t)
  | looked {name : String} {n : Node} {t u : SignTrail} {r : Bool} : t.verdict? name = none →
    g.node? name = some n → Concludes g (.rule n) (.started name :: t) r u →
    Concludes g (.node name) t r (.evaluated n r :: u)
  -- One rule for each kind of operation; the first input counts even if it is a control input.
  | always {n : Node} {t : SignTrail} : Op.signRule n.op = .nonNegative →
    Concludes g (.rule n) t true t
  | never {n : Node} {t : SignTrail} : Op.signRule n.op = .unknown →
    Concludes g (.rule n) t false t
  | all {n : Node} {t u : SignTrail} {r : Bool} : Op.signRule n.op = .allInputs →
    Concludes g (.inputs n.inputs) t r u → Concludes g (.rule n) t r u
  | first {n : Node} {input : String} {t u : SignTrail} {r : Bool} :
    Op.signRule n.op = .firstInput → n.inputs.head? = some input →
    Concludes g (.node (Reference.nodeOf input)) (.read input :: t) r u →
    Concludes g (.rule n) t r u
  | noFirst {n : Node} {t : SignTrail} : Op.signRule n.op = .firstInput →
    n.inputs.head? = none → Concludes g (.rule n) t false t
  -- The inputs of a merge in order, up to the first that is unproven.
  | done {t : SignTrail} : Concludes g (.inputs []) t true t
  | control {input : String} {rest : List String} {t u : SignTrail} {r : Bool} :
    (Reference.parse input).isData = false → Concludes g (.inputs rest) (.read input :: t) r u →
    Concludes g (.inputs (input :: rest)) t r u
  | proven {input : String} {rest : List String} {t u v : SignTrail} {r : Bool} :
    (Reference.parse input).isData = true →
    Concludes g (.node (Reference.nodeOf input)) (.read input :: t) true u →
    Concludes g (.inputs rest) u r v → Concludes g (.inputs (input :: rest)) t r v
  | unproven {input : String} {rest : List String} {t u : SignTrail} :
    (Reference.parse input).isData = true →
    Concludes g (.node (Reference.nodeOf input)) (.read input :: t) false u →
    Concludes g (.inputs (input :: rest)) t false u

theorem Concludes.keeps {q : Question} {b : Bool} (h : g.Concludes q t r u)
    (hx : t.verdict? x = some b) : u.verdict? x = some b := by
  induction h with
  | known _ | absent _ _ | always _ | never _ | noFirst _ _ | done => exact hx
  | @looked name n t u r hv hn _ ih =>
    have hne : name ≠ x := by
      intro he
      rw [he, hx] at hv
      cases hv
    have hu : u.verdict? x = some b := ih (by rw [SignTrail.verdict?_started, if_neg hne, hx])
    rw [SignTrail.verdict?_evaluated, name_of_node? hn, if_neg hne, hu]
  | all _ _ ih => exact ih hx
  | first _ _ _ ih => exact ih hx
  | control _ _ ih => exact ih hx
  | proven _ _ _ ihnode ihrest => exact ihrest (ihnode hx)
  | unproven _ _ ih => exact ih hx

theorem Concludes.unique {q : Question} {r' : Bool} {u' : SignTrail} (h : g.Concludes q t r u)
    (h' : g.Concludes q t r' u') : r' = r ∧ u' = u := by
  induction h generalizing r' u' with
  | known _ | absent _ _ | always _ | never _ | noFirst _ _ | done => cases h' <;> grind
  | looked _ _ _ ih | all _ _ ih | first _ _ _ ih => cases h' <;> grind
  | control _ _ ih | unproven _ _ ih => cases h' <;> grind
  | proven _ _ _ ihnode ihrest => cases h' <;> grind

/-! ## The bound -/

/-- The names of the graph that a trail says nothing about. -/
def unseen (g : Graph) (t : SignTrail) : List String :=
  g.names.filter fun x => (t.verdict? x).isNone

theorem length_unseen_le (hk : ∀ x b, t.verdict? x = some b → u.verdict? x = some b) :
    (g.unseen u).length ≤ (g.unseen t).length := by
  refine (List.monotone_filter_right g.names fun x hx => ?_).length_le
  rw [Option.isNone_iff_eq_none] at hx ⊢
  cases ht : t.verdict? x with
  | none => rfl
  | some b => rw [hk x b ht] at hx; cases hx

theorem length_unseen_started (hv : t.verdict? name = none) (hh : g.has name = true) :
    (g.unseen (.started name :: t)).length < (g.unseen t).length := by
  have hmem : name ∈ g.unseen t := List.mem_filter.mpr ⟨has_iff.mp hh, by rw [hv]; rfl⟩
  have hrest : g.unseen (.started name :: t) = (g.unseen t).filter (· != name) := by
    rw [unseen, unseen, List.filter_filter]
    refine List.filter_congr fun x _ => ?_
    rw [SignTrail.verdict?_started]
    by_cases hx : name = x
    · simp [hx]
    · simp [hx, Ne.symm hx]
  rw [hrest]
  exact List.length_filter_lt_length_iff_exists.mpr ⟨name, hmem, by simp⟩

/-- Looks at what an input of a merge names, if it carries a value. -/
def visitInput (g : Graph) (depth : Nat) (input : String) : StateM SignTrail Bool := do
  let r ← readInput input
  if r.isData then g.visit depth r.node else return true

def visitRule (g : Graph) (depth : Nat) (n : Node) : StateM SignTrail Bool :=
  match Op.signRule n.op with
  | .nonNegative => return true
  | .unknown => return false
  | .allInputs => n.inputs.allM (g.visitInput depth)
  | .firstInput =>
    match n.inputs.head? with
    | some input => do g.visit depth (← readInput input).node
    | none => return false

theorem visit_known (hv : t.verdict? name = some r) : g.visit (depth + 1) name t = (r, t) := by
  have hsome : t.findSome? (SignStep.verdict? name) = some r := hv
  show StateT.run (g.visit (depth + 1) name) t = _
  rw [visit]
  simp only [StateT.run_bind, StateT.run_get, pure_bind, hsome]
  rfl

theorem visit_absent (hv : t.verdict? name = none) (hn : g.node? name = none) :
    g.visit (depth + 1) name t = (false, .unresolved name :: t) := by
  have hnone : t.findSome? (SignStep.verdict? name) = none := hv
  show StateT.run (g.visit (depth + 1) name) t = _
  rw [visit]
  simp only [StateT.run_bind, StateT.run_get, pure_bind, hnone, hn]
  rfl

theorem visit_present (hv : t.verdict? name = none) (hn : g.node? name = some n)
    (hr : g.visitRule depth n (.started name :: t) = (r, u)) :
    g.visit (depth + 1) name t = (r, .evaluated n r :: u) := by
  have hnone : t.findSome? (SignStep.verdict? name) = none := hv
  have hthen : g.visit (depth + 1) name t =
      (g.visitRule depth n >>= noteVerdict n) (.started name :: t) := by
    show StateT.run (g.visit (depth + 1) name) t = _
    rw [visit]
    simp only [StateT.run_bind, StateT.run_get, pure_bind, hnone, hn]
    unfold visitRule
    cases Op.signRule n.op with
    | nonNegative | unknown | allInputs => rfl
    | firstInput => cases n.inputs.head? <;> rfl
  rw [hthen]
  show noteVerdict n (g.visitRule depth n (.started name :: t)).1
    (g.visitRule depth n (.started name :: t)).2 = _
  rw [hr]
  rfl

theorem visitInput_control {input : String} (hi : (Reference.parse input).isData = false) :
    g.visitInput depth input t = (true, .read input :: t) := by
  show (if (Reference.parse input).isData then g.visit depth (Reference.parse input).node
    else return true) (.read input :: t) = _
  rw [hi]
  rfl

theorem visitInput_data {input : String} (hi : (Reference.parse input).isData = true) :
    g.visitInput depth input t = g.visit depth (Reference.nodeOf input) (.read input :: t) := by
  show (if (Reference.parse input).isData then g.visit depth (Reference.parse input).node
    else return true) (.read input :: t) = _
  rw [hi]
  rfl

theorem Concludes.length_unseen_le {q : Question} (h : g.Concludes q t r u) :
    (g.unseen u).length ≤ (g.unseen t).length :=
  Graph.length_unseen_le fun _ _ hx => h.keeps hx

/-- The depth is above the number of nodes that nothing is known of, and that is enough for every
question about a node. -/
def Suffices (g : Graph) (depth : Nat) : Prop :=
  ∀ name t, (g.unseen t).length < depth →
    g.Concludes (.node name) t (g.visit depth name t).1 (g.visit depth name t).2

theorem Suffices.inputs (hd : g.Suffices depth) : ∀ (references : List String) (t : SignTrail),
    (g.unseen t).length < depth → g.Concludes (.inputs references) t
      (references.allM (g.visitInput depth) t).1 (references.allM (g.visitInput depth) t).2
  | [], _, _ => .done
  | input :: rest, t, ht => by
    have hcons : (input :: rest).allM (g.visitInput depth) t =
        if (g.visitInput depth input t).1 then
          rest.allM (g.visitInput depth) (g.visitInput depth input t).2
        else (false, (g.visitInput depth input t).2) := by
      show (bif (g.visitInput depth input t).1 then rest.allM (g.visitInput depth)
        else return false) (g.visitInput depth input t).2 = _
      cases (g.visitInput depth input t).1 <;> rfl
    rw [hcons]
    cases hi : (Reference.parse input).isData with
    | false =>
      rw [visitInput_control hi, if_pos rfl]
      exact .control hi (Suffices.inputs hd rest _ ht)
    | true =>
      have hnode := hd (Reference.nodeOf input) (.read input :: t) ht
      rw [visitInput_data hi]
      cases hr : (g.visit depth (Reference.nodeOf input) (.read input :: t)).1 with
      | false =>
        rw [hr] at hnode
        exact .unproven hi hnode
      | true =>
        rw [hr] at hnode
        exact .proven hi hnode
          (Suffices.inputs hd rest _ (Nat.lt_of_le_of_lt hnode.length_unseen_le ht))

theorem Suffices.rule (hd : g.Suffices depth) (n : Node) (ht : (g.unseen t).length < depth) :
    g.Concludes (.rule n) t (g.visitRule depth n t).1 (g.visitRule depth n t).2 := by
  unfold visitRule
  cases hr : Op.signRule n.op with
  | nonNegative => exact .always hr
  | unknown => exact .never hr
  | allInputs => exact .all hr (hd.inputs n.inputs t ht)
  | firstInput =>
    cases hh : n.inputs.head? with
    | none => exact .noFirst hr hh
    | some input => exact .first hr hh (hd (Reference.nodeOf input) (.read input :: t) ht)

/-- The analysis ends by itself before the depth is used up. A node that it looks at has no verdict
before and one after, so that a step down leaves fewer names that nothing is known of. -/
theorem suffices_all (g : Graph) (depth : Nat) : g.Suffices depth := by
  induction depth with
  | zero => exact fun _ _ ht => absurd ht (Nat.not_lt_zero _)
  | succ depth ih =>
    intro name t ht
    cases hv : t.verdict? name with
    | some r =>
      rw [visit_known hv]
      exact .known hv
    | none =>
      cases hn : g.node? name with
      | none =>
        rw [visit_absent hv hn]
        exact .absent hv hn
      | some n =>
        have hless := length_unseen_started hv (has_of_node? hn)
        rw [visit_present hv hn rfl]
        exact .looked hv hn (ih.rule n (by omega))

theorem isNonNegative_concludes (g : Graph) (name : String) (t : SignTrail) :
    g.Concludes (.node name) t (g.isNonNegative name t).1 (g.isNonNegative name t).2 := by
  have hsize : (g.unseen t).length ≤ g.size := by
    calc (g.unseen t).length ≤ g.names.length := List.length_filter_le _ _
      _ = g.size := by rw [names, size, List.length_map]
  exact g.suffices_all (g.size + 1) name t (Nat.lt_succ_of_le hsize)

end Graph
end Dataflow
