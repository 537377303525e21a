import Dataflow.Graph.Command
import Dataflow.Proofs.Adjacency

/- Every edit checks a graph before it changes anything. A check accepts a graph exactly if a
   list of conditions on names holds; the conditions are stated here once, for each edit, in
   terms of who reads whom (`checkSplice_eq_ok` and its like). `guarded_eq_ok` and
   `exists_guarded_eq_ok` carry them over to the edits: nothing but its check can refuse one. -/

namespace Dataflow

namespace Edit

theorem bind_eq_ok {α β : Type} {x : Except Error α} {f : α → Except Error β} {b : β} :
    (x >>= f) = .ok b ↔ ∃ a, x = .ok a ∧ f a = .ok b := by
  cases x with
  | error e => simp [bind, Except.bind]
  | ok a => simp [bind, Except.bind]

theorem seq_eq_ok {β : Type} {x : Except Error Unit} {y : Except Error β} {b : β} :
    (x >>= fun _ => y) = .ok b ↔ x = .ok () ∧ y = .ok b := by
  rw [bind_eq_ok]
  refine ⟨?_, ?_⟩
  · intro hboth
    obtain ⟨⟨⟩, hx, hy⟩ := hboth
    exact ⟨hx, hy⟩
  · intro hboth
    obtain ⟨hx, hy⟩ := hboth
    exact ⟨(), hx, hy⟩

theorem throwIf_eq_ok {β : Type} {c : Prop} [Decidable c] {e : Error} {f : PUnit → Except Error β}
    {y : Except Error β} {b : β} :
    (if c then throw e >>= f else y) = .ok b ↔ ¬c ∧ y = .ok b := by
  by_cases hc : c
  · simp [hc, throw, throwThe, MonadExceptOf.throw, bind, Except.bind]
  · simp [hc]

theorem refuse_eq_ok {fault? : Option Error} : refuse fault? = .ok () ↔ fault? = none := by
  cases fault? <;> simp [refuse]

/-! ## Edits one after the other -/

section Bind

variable {α β : Type} {g h k : Graph} {e : Edit α} {f : α → Edit β}

theorem bind_apply {a : α} (he : e g = (.ok a, h)) : (e >>= f) g = f a h := by
  simp only [bind, ExceptT.bind, ExceptT.mk, StateT.bind, he]
  rfl

theorem bind_error {x : Error} (he : e g = (.error x, h)) : (e >>= f) g = (.error x, h) := by
  simp only [bind, ExceptT.bind, ExceptT.mk, StateT.bind, he]
  rfl

theorem get_apply (g : Graph) : (get : Edit Graph) g = (.ok g, g) := rfl

theorem exists_of_bind {b : β} (hr : (e >>= f) g = (.ok b, k)) :
    ∃ a h, e g = (.ok a, h) ∧ f a h = (.ok b, k) := by
  cases he : e g with
  | mk x h =>
    cases x with
    | ok a => exact ⟨a, h, rfl, (bind_apply he).symm.trans hr⟩
    | error fault => cases (bind_error he).symm.trans hr

end Bind

theorem guarded_eq_ok {α : Type} {check : Graph → Except Error α} {change : α → Graph → Graph}
    {g h : Graph} {a : α} :
    guarded check change g = (.ok a, h) ↔ check g = .ok a ∧ h = change a g := by
  unfold guarded
  cases check g with
  | error e =>
    refine ⟨?_, ?_⟩
    · intro hr
      cases (Prod.mk.inj hr).1
    · intro hboth
      obtain ⟨hc, -⟩ := hboth
      cases hc
  | ok a' =>
    refine ⟨?_, ?_⟩
    · intro hr
      obtain ⟨ha, hh⟩ := Prod.mk.inj hr
      cases ha
      exact ⟨rfl, hh.symm⟩
    · intro hboth
      obtain ⟨ha, rfl⟩ := hboth
      cases ha
      rfl

/-- Nothing but its check can refuse an edit. -/
theorem exists_guarded_eq_ok {α : Type} {check : Graph → Except Error α}
    {change : α → Graph → Graph} {g : Graph} {a : α} :
    (∃ h, guarded check change g = (.ok a, h)) ↔ check g = .ok a := by
  simp only [guarded_eq_ok, exists_and_left, exists_eq, and_true]

end Edit

namespace Graph

variable {g : Graph}

theorem entry_eq_ok {name : String} {e : Entry} :
    g.entry name = .ok e ↔ g.find? name = some e := by
  unfold entry
  cases g.find? name <;> simp

theorem node_eq_ok {name : String} {n : Node} : g.node name = .ok n ↔ g.node? name = some n := by
  unfold node entry node?
  cases g.find? name <;> simp [Functor.map, Except.map]

theorem reads_of_references {c p : String} {n : Node} (hn : g.node? c = some n) :
    n.references p = true ↔ g.Reads c p := by
  rw [Node.references_iff, reads_iff hn]

/-! ## Splicing -/

theorem primaryInput_eq_ok {n : Node} {primary : String} :
    primaryInput n = .ok primary ↔ n.inputs.head? = some primary ∧
      (Reference.parse primary).isData = true ∧ Reference.nodeOf primary ≠ n.name := by
  unfold primaryInput
  cases n.inputs.head? with
  | none => simp
  | some input =>
    simp only [Bool.and_eq_true, bne_iff_ne, ne_eq, Option.some.injEq]
    refine ⟨?_, ?_⟩
    · intro h
      split at h
      · rename_i hc
        cases h
        exact ⟨rfl, hc⟩
      · cases h
    · intro hex
      obtain ⟨rfl, hc⟩ := hex
      exact if_pos hc

theorem splicedInputFault?_eq_none {name p : String} :
    g.splicedInputFault? name p = none ↔ g.has p = true := by
  unfold splicedInputFault?
  split <;> simp_all

/-- A node can be spliced out if all its inputs name nodes, at most one of them one that is no
constant, the first of them is a data input from another node, and its consumers are there. -/
theorem checkSplice_eq_ok {name primary : String} :
    checkSplice name g = .ok primary ↔ ∃ n, g.node? name = some n ∧
      (∀ p ∈ n.inputNodes, g.has p = true) ∧ n.inputNodes.countP g.namesNonConstant ≤ 1 ∧
      n.inputs.head? = some primary ∧ (Reference.parse primary).isData = true ∧
      Reference.nodeOf primary ≠ name ∧ ∀ c ∈ g.consumers name, g.has c = true := by
  unfold checkSplice
  cases he : g.find? name with
  | none => simp [entry, he, node?, bind, Except.bind]
  | some e =>
    have hn : g.node? name = some e.node := by rw [node?, he]; rfl
    have hk : g.consumers name = e.consumers := by rw [consumers, he]; rfl
    simp only [Edit.bind_eq_ok, entry_eq_ok, he, hn, hk, Option.some.injEq, exists_eq_left']
    rw [← Edit.bind_eq_ok, Edit.seq_eq_ok, Edit.throwIf_eq_ok, Edit.bind_eq_ok]
    simp only [Edit.refuseFirst_eq_ok, splicedInputFault?_eq_none, Nat.not_lt, primaryInput_eq_ok,
      Edit.seq_eq_ok, ite_eq_left_iff, reduceCtorEq, imp_false, Classical.not_not,
      name_of_node? hn, pure, Except.pure, Except.ok.injEq]
    refine ⟨?_, ?_⟩
    · intro hboth
      obtain ⟨hp, hc, primary, ⟨hh, hd, hne⟩, hcs, rfl⟩ := hboth
      exact ⟨hp, hc, hh, hd, hne, hcs⟩
    · intro hboth
      obtain ⟨hp, hc, hh, hd, hne, hcs⟩ := hboth
      exact ⟨hp, hc, primary, ⟨hh, hd, hne⟩, hcs, rfl⟩

theorem reads_primary {name primary : String} (hc : checkSplice name g = .ok primary) :
    g.Reads name (Reference.nodeOf primary) := by
  obtain ⟨n, hn, -, -, hh, -⟩ := checkSplice_eq_ok.mp hc
  exact ⟨n, hn, List.mem_map_of_mem (List.mem_of_mem_head? hh)⟩

theorem has_primary {name primary : String} (hc : checkSplice name g = .ok primary) :
    g.has (Reference.nodeOf primary) = true := by
  obtain ⟨n, hn, hi, -⟩ := checkSplice_eq_ok.mp hc
  exact hi _ ((reads_iff hn).mp (reads_primary hc))

/-! ## Replacing -/

theorem replacedConsumerFault?_eq_none {new : Node} {old c : String} :
    g.replacedConsumerFault? new old c = none ↔
      (new.name ≠ old → c ≠ new.name ∧ c ≠ old) ∧ g.Reads c old := by
  unfold replacedConsumerFault?
  split
  · rename_i hc
    simp only [reduceCtorEq, false_iff, not_and]
    intro hne
    exact absurd hc.2 (not_or.mpr (hne hc.1))
  · rename_i hc
    have hne : new.name ≠ old → c ≠ new.name ∧ c ≠ old :=
      fun hr => not_or.mp fun ho => hc ⟨hr, ho⟩
    cases hn : g.node? c with
    | none => simp [Reads, hn]
    | some n =>
      simp only [ite_eq_left_iff, reduceCtorEq, imp_false, Classical.not_not,
        reads_of_references hn]
      exact ⟨fun hr => ⟨hne, hr⟩, And.right⟩

theorem unlistedConsumerFault?_eq_none {old c : String} {cs : List String} :
    unlistedConsumerFault? old cs c = none ↔ c = old ∨ c ∈ cs := by
  unfold unlistedConsumerFault?
  split <;> simp_all

theorem replacingInputFault?_eq_none {new : Node} {old p : String} :
    g.replacingInputFault? new old p = none ↔ p = new.name ∨ (p ≠ old ∧ g.has p = true) := by
  unfold replacingInputFault?
  split <;> simp_all

/-- A node can be replaced if every listed consumer reads it, every recorded one other than itself
is listed, and every input of the new node names another node that stays, or the new one. -/
theorem checkReplace_eq_ok {new : Node} {old : String} {cs : List String} :
    checkReplace new old cs g = .ok () ↔ g.has old = true ∧
      (∀ c ∈ cs, (new.name ≠ old → c ≠ new.name ∧ c ≠ old) ∧ g.Reads c old) ∧
      (∀ c ∈ g.consumers old, c = old ∨ c ∈ cs) ∧
      ∀ p ∈ new.inputNodes, p = new.name ∨ (p ≠ old ∧ g.has p = true) := by
  unfold checkReplace checkReplacePlace
  rw [Edit.seq_eq_ok, Edit.bind_eq_ok]
  cases he : g.find? old with
  | none => simp [entry_eq_ok, he, has]
  | some e =>
    have hk : g.consumers old = e.consumers := by rw [consumers, he]; rfl
    simp only [entry_eq_ok, he, Option.some.injEq, exists_eq_left', Edit.seq_eq_ok,
      Edit.refuseFirst_eq_ok, replacedConsumerFault?_eq_none, unlistedConsumerFault?_eq_none,
      replacingInputFault?_eq_none, hk, has, Option.isSome_some, true_and, and_assoc]

/-! ## Inserting -/

theorem producerFault?_eq_none {new : Node} {producer? : Option String} :
    g.producerFault? new producer? = none ↔
      ∀ p, producer? = some p → g.has p = true ∧ p ≠ new.name := by
  unfold producerFault?
  cases producer? with
  | none => simp
  | some p =>
    simp only [Option.some.injEq, forall_eq']
    split
    · simp_all
    · split <;> simp_all

theorem listedConsumerFault?_eq_none {name p c : String} :
    g.listedConsumerFault? name p c = none ↔ c ≠ name ∧ g.Reads c p := by
  unfold listedConsumerFault?
  split
  · simp_all
  · cases hn : g.node? c with
    | none => simp [Reads, hn]
    | some n => simp_all [reads_of_references hn]

theorem newInputFault?_eq_none {new : Node} {p : String} :
    g.newInputFault? new p = none ↔ p = new.name ∨ g.has p = true := by
  unfold newInputFault?
  split <;> simp_all

/-- A node can be inserted if the producer is another node, every listed consumer is another node
that reads the producer, or the new name where there is none, and every input of the new node names
a node. -/
theorem checkInsert_eq_ok {new : Node} {producer? : Option String} {cs : List String} :
    checkInsert new producer? cs g = .ok () ↔
      (∀ p, producer? = some p → g.has p = true ∧ p ≠ new.name) ∧
      (∀ c ∈ cs, c ≠ new.name ∧ g.Reads c (producer?.getD new.name)) ∧
      ∀ p ∈ new.inputNodes, p = new.name ∨ g.has p = true := by
  unfold checkInsert checkInsertPlace
  simp only [Edit.seq_eq_ok, Edit.refuse_eq_ok, Edit.refuseFirst_eq_ok, producerFault?_eq_none,
    listedConsumerFault?_eq_none, newInputFault?_eq_none, and_assoc]

/-! ## Editing constants -/

theorem checkConstant_eq_ok {n : Node} : checkConstant n = .ok () ↔ n.isConstant = true := by
  unfold checkConstant
  split <;> simp_all

theorem checkSwapNames_eq_ok {new : Node} {old : String} :
    checkSwapNames new old g = .ok () ↔
      new.isConstant = true ∧ g.has old = true ∧ new.name ≠ old := by
  unfold checkSwapNames
  rw [Edit.seq_eq_ok, checkConstant_eq_ok, Edit.bind_eq_ok]
  cases he : g.find? old with
  | none => simp [entry_eq_ok, he, has]
  | some e =>
    simp only [entry_eq_ok, he, Option.some.injEq, exists_eq_left', has, Option.isSome_some,
      true_and]
    split
    · rename_i hn
      simp [hn, throw, throwThe, MonadExceptOf.throw]
    · rename_i hn
      simp [hn, pure, Except.pure]

/-- A constant can be swapped in if it has another name than the old node, every listed consumer is
another node that reads the old one, and every input of the constant names a node. -/
theorem checkSwap_eq_ok {new : Node} {old : String} {cs : List String} :
    checkSwap new old cs g = .ok () ↔ new.isConstant = true ∧ g.has old = true ∧
      new.name ≠ old ∧ (∀ c ∈ cs, c ≠ new.name ∧ g.Reads c old) ∧
      ∀ p ∈ new.inputNodes, p = new.name ∨ g.has p = true := by
  unfold checkSwap checkSwapPlace
  simp only [Edit.seq_eq_ok, Edit.refuseFirst_eq_ok, checkSwapNames_eq_ok,
    listedConsumerFault?_eq_none, newInputFault?_eq_none, and_assoc]

theorem foldedInputFault?_eq_none {name p : String} :
    g.foldedInputFault? name p = none ↔ ∃ m, g.node? p = some m ∧ m.isConstant = true := by
  unfold foldedInputFault?
  cases g.node? p <;> simp

/-- A node can be folded if it can be replaced by the constant with its recorded consumers, and
every one of its inputs names a constant. -/
theorem checkFold_eq_ok {new : Node} {name : String} :
    checkFold new name g = .ok () ↔ new.isConstant = true ∧
      (∃ n, g.node? name = some n ∧
        ∀ p ∈ n.inputNodes, ∃ m, g.node? p = some m ∧ m.isConstant = true) ∧
      checkReplace new name (g.consumers name) g = .ok () := by
  unfold checkFold checkFeeders
  rw [Edit.seq_eq_ok, Edit.seq_eq_ok, Edit.bind_eq_ok]
  simp only [checkConstant_eq_ok, node_eq_ok, Edit.refuseFirst_eq_ok, foldedInputFault?_eq_none,
    and_assoc]

end Graph
end Dataflow
