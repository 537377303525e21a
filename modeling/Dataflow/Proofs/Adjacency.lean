import Dataflow.Graph.Consistency
import Dataflow.Graph.Edit.Constant
import Dataflow.Graph.Edit.Splice
import Mathlib.Logic.Relation
import Mathlib.Tactic.Tauto

/- A graph says twice who consumes whom: by the inputs of its nodes, and by the consumers
   recorded for them. Here both are relations on names, `Graph.Reads` and `Graph.consumers`, and
   every elementary change is described by what it does to them and to the node under a name, so
   that edits are followed without opening a graph again. -/

namespace Dataflow.Graph

def Reads (g : Graph) (a b : String) : Prop := ∃ n, g.node? a = some n ∧ b ∈ n.inputNodes

instance (g : Graph) (a b : String) : Decidable (g.Reads a b) :=
  inferInstanceAs (Decidable (∃ n, n ∈ g.node? a ∧ b ∈ n.inputNodes))

/-- No node reads itself, directly or through others. -/
def Acyclic (g : Graph) : Prop := ∀ a, ¬Relation.TransGen g.Reads a a

variable {g h : Graph} {a b x y : String}

/-! ## The views of a graph -/

theorem has_eq_isSome (g : Graph) (x : String) : g.has x = (g.node? x).isSome := by
  rw [has, node?, Option.isSome_map]

theorem has_iff_exists : g.has x = true ↔ ∃ n, g.node? x = some n := by
  rw [has_eq_isSome, Option.isSome_iff_exists]

theorem has_of_node? {n : Node} (hn : g.node? x = some n) : g.has x = true :=
  has_iff_exists.mpr ⟨n, hn⟩

theorem node?_eq_none : g.node? x = none ↔ ¬g.has x = true := by
  rw [has_eq_isSome]
  cases g.node? x <;> simp

theorem Reads.has (hr : g.Reads a b) : g.has a = true := by
  obtain ⟨n, hn, -⟩ := hr
  exact has_of_node? hn

theorem reads_iff {n : Node} (hn : g.node? a = some n) : g.Reads a b ↔ b ∈ n.inputNodes := by
  refine ⟨?_, ?_⟩
  · intro hex
    obtain ⟨m, hm, hb⟩ := hex
    cases hn.symm.trans hm
    exact hb
  · exact fun hb => ⟨n, hn, hb⟩

theorem reads_congr (hn : g.node? a = h.node? a) : g.Reads a b ↔ h.Reads a b := by
  rw [Reads, Reads, hn]

theorem mem_consumers : a ∈ g.consumers b ↔ ∃ e, g.find? b = some e ∧ a ∈ e.consumers := by
  unfold consumers
  cases g.find? b <;> simp

theorem has_of_mem_consumers (hm : a ∈ g.consumers b) : g.has b = true := by
  obtain ⟨e, he, -⟩ := mem_consumers.mp hm
  rw [Graph.has, he]
  rfl

theorem name_of_node? {n : Node} (hn : g.node? x = some n) : n.name = x := by
  obtain ⟨e, he, rfl⟩ := Option.map_eq_some_iff.mp hn
  exact (find?_eq_some.mp he).2

theorem node?_of_mem {e : Entry} (he : e ∈ g.entries) : g.node? e.name = some e.node := by
  rw [node?, find?_eq_some.mpr ⟨he, rfl⟩]
  rfl

theorem node?_eq_some {n : Node} : g.node? x = some n ↔ n ∈ g.nodes ∧ n.name = x := by
  constructor
  · intro hn
    obtain ⟨e, he, rfl⟩ := Option.map_eq_some_iff.mp hn
    obtain ⟨hm, hx⟩ := find?_eq_some.mp he
    exact ⟨List.mem_map_of_mem hm, hx⟩
  · intro hmem
    obtain ⟨hn, rfl⟩ := hmem
    obtain ⟨e, he, rfl⟩ := List.mem_map.mp hn
    exact node?_of_mem he

theorem node?_of_mem_nodes {n : Node} (hn : n ∈ g.nodes) : g.node? n.name = some n :=
  node?_eq_some.mpr ⟨hn, rfl⟩

theorem map_name_nodes (g : Graph) : g.nodes.map Node.name = g.names := by
  rw [nodes, names, List.map_map]
  rfl

theorem consumers_of_mem {e : Entry} (he : e ∈ g.entries) : g.consumers e.name = e.consumers := by
  rw [consumers, find?_eq_some.mpr ⟨he, rfl⟩]
  rfl

theorem exists_mem_of_has (hx : g.has x = true) : ∃ e ∈ g.entries, e.name = x :=
  mem_names.mp (has_iff.mp hx)

/-- A graph is acyclic if every node has a greater rank than the nodes it names. -/
theorem acyclic_of_rank (rank : String → Nat)
    (hr : ∀ e ∈ g.entries, ∀ b ∈ e.node.inputNodes, rank b < rank e.name) : g.Acyclic := by
  have hs : ∀ a b, g.Reads a b → rank b < rank a := by
    intro a b hex
    obtain ⟨n, hn, hb⟩ := hex
    obtain ⟨e, he, rfl⟩ := Option.map_eq_some_iff.mp hn
    obtain ⟨hm, rfl⟩ := find?_eq_some.mp he
    exact hr e hm b hb
  have ht : ∀ a b, Relation.TransGen g.Reads a b → rank b < rank a := by
    intro a b hab
    induction hab with
    | single hab => exact hs _ _ hab
    | tail _ hbc ih => exact Nat.lt_trans (hs _ _ hbc) ih
  exact fun a ha => Nat.lt_irrefl _ (ht a a ha)

/-! ## Changes under one name -/

theorem find?_mapAt (g : Graph) (x : String) (f : Entry → Entry) (hf : ∀ e, (f e).name = e.name)
    (y : String) : (g.mapEntries (atName x f) (atName_name hf)).find? y
      = if y = x then (g.find? y).map f else g.find? y := by
  rw [mapEntries_find?]
  cases he : g.find? y with
  | none => simp
  | some e =>
    have hn := (find?_eq_some.mp he).2
    by_cases hy : y = x
    · simp [atName, hn, hy]
    · simp [atName, hn, hy]

theorem find?_updateConsumers (g : Graph) (x : String) (f : Entry → List String) (y : String) :
    (g.updateConsumers x f).find? y
      = if y = x then (g.find? y).map fun e => { e with consumers := f e } else g.find? y :=
  find?_mapAt g x (fun e => { e with consumers := f e }) (fun _ => rfl) y

theorem find?_redirectReferences (g : Graph) (c p : String) (t : Reference → String) (y : String) :
    (g.redirectReferences c p t).find? y
      = if y = c then (g.find? y).map fun e => { e with node := e.node.redirectInputs p t }
        else g.find? y :=
  find?_mapAt g c (fun e => { e with node := e.node.redirectInputs p t }) (fun _ => rfl) y

theorem node?_updateConsumers (g : Graph) (x : String) (f : Entry → List String) (y : String) :
    (g.updateConsumers x f).node? y = g.node? y := by
  rw [node?, node?, find?_updateConsumers]
  split
  · cases g.find? y <;> rfl
  · rfl

theorem consumers_updateConsumers (g : Graph) (x : String) (f : Entry → List String) (y : String) :
    (g.updateConsumers x f).consumers y
      = if y = x then ((g.find? y).map f).getD [] else g.consumers y := by
  rw [consumers, find?_updateConsumers]
  split
  · cases g.find? y <;> rfl
  · rfl

theorem node?_redirectReferences (g : Graph) (c p : String) (t : Reference → String) (y : String) :
    (g.redirectReferences c p t).node? y
      = if y = c then (g.node? y).map (·.redirectInputs p t) else g.node? y := by
  rw [node?, node?, find?_redirectReferences]
  split
  · cases g.find? y <;> rfl
  · rfl

theorem consumers_redirectReferences (g : Graph) (c p : String) (t : Reference → String)
    (y : String) : (g.redirectReferences c p t).consumers y = g.consumers y := by
  rw [consumers, consumers, find?_redirectReferences]
  split
  · cases g.find? y <;> rfl
  · rfl

/-! ## Recording and forgetting a consumer -/

theorem node?_link (g : Graph) (p c y : String) : (g.link p c).node? y = g.node? y :=
  node?_updateConsumers g p _ y

theorem has_link (g : Graph) (p c y : String) : (g.link p c).has y = g.has y := by
  rw [has_eq_isSome, node?_link, has_eq_isSome]

theorem node?_unlink (g : Graph) (p c y : String) : (g.unlink p c).node? y = g.node? y :=
  node?_updateConsumers g p _ y

theorem mem_consumers_link {p c : String} :
    a ∈ (g.link p c).consumers b ↔ a ∈ g.consumers b ∨ (b = p ∧ a = c ∧ g.has b = true) := by
  rw [link, consumers_updateConsumers]
  by_cases hb : b = p
  · rw [if_pos hb, consumers, has]
    cases g.find? b with
    | none => simp
    | some e => simp [Entry.mem_addConsumer, hb]
  · simp [hb]

theorem mem_consumers_unlink {p c : String} :
    a ∈ (g.unlink p c).consumers b ↔ a ∈ g.consumers b ∧ ¬(b = p ∧ a = c) := by
  rw [unlink, consumers_updateConsumers]
  by_cases hb : b = p
  · rw [if_pos hb, consumers]
    cases g.find? b with
    | none => simp
    | some e => simp [Entry.mem_removeConsumer, hb]
  · simp [hb]

theorem node?_linkAll (g : Graph) (ps : List String) (c y : String) :
    (g.linkAll ps c).node? y = g.node? y := by
  induction ps generalizing g with
  | nil => rfl
  | cons p ps ih => exact (ih (g.link p c)).trans (node?_link g p c y)

theorem node?_unlinkAll (g : Graph) (ps : List String) (c y : String) :
    (g.unlinkAll ps c).node? y = g.node? y := by
  induction ps generalizing g with
  | nil => rfl
  | cons p ps ih => exact (ih (g.unlink p c)).trans (node?_unlink g p c y)

theorem mem_consumers_linkAll {ps : List String} {c : String} :
    a ∈ (g.linkAll ps c).consumers b ↔
      a ∈ g.consumers b ∨ (b ∈ ps ∧ a = c ∧ g.has b = true) := by
  induction ps generalizing g with
  | nil => simp [linkAll]
  | cons p ps ih =>
    show a ∈ ((g.link p c).linkAll ps c).consumers b ↔ _
    rw [ih, mem_consumers_link, has_link, List.mem_cons]
    tauto

theorem mem_consumers_unlinkAll {ps : List String} {c : String} :
    a ∈ (g.unlinkAll ps c).consumers b ↔ a ∈ g.consumers b ∧ ¬(b ∈ ps ∧ a = c) := by
  induction ps generalizing g with
  | nil => simp [unlinkAll]
  | cons p ps ih =>
    show a ∈ ((g.unlink p c).unlinkAll ps c).consumers b ↔ _
    rw [ih, mem_consumers_unlink, List.mem_cons]
    tauto

/-! ## Taking an entry out and putting one in -/

theorem node?_erase (g : Graph) (x y : String) :
    (g.erase x).node? y = if y = x then none else g.node? y := by
  rw [node?, erase_find?, node?]
  split <;> rfl

theorem consumers_erase (g : Graph) (x y : String) :
    (g.erase x).consumers y = if y = x then [] else g.consumers y := by
  rw [consumers, erase_find?, consumers]
  split <;> rfl

theorem mem_place {position : Nat} {e e' : Entry} :
    e' ∈ (g.place position e).entries ↔ e' = e ∨ (e' ∈ g.entries ∧ e'.name ≠ e.name) := by
  have hk : ∀ l : List Entry, e' ∈ l.take position ++ e :: l.drop position ↔ e' = e ∨ e' ∈ l := by
    intro l
    conv => rhs; rw [← List.take_append_drop position l]
    simp only [List.mem_append, List.mem_cons]
    tauto
  rw [place, hk, erase, List.mem_filter, bne_iff_ne]

theorem find?_place (g : Graph) (position : Nat) (e : Entry) (y : String) :
    (g.place position e).find? y = if y = e.name then some e else g.find? y := by
  ext e'
  rw [find?_eq_some, mem_place]
  by_cases hy : y = e.name
  · subst hy
    rw [if_pos rfl, Option.some.injEq]
    refine ⟨?_, ?_⟩
    · intro hex
      obtain ⟨rfl | ⟨-, hne⟩, hn⟩ := hex
      · rfl
      · exact absurd hn hne
    · intro heq
      subst heq
      exact ⟨.inl rfl, rfl⟩
  · rw [if_neg hy, find?_eq_some]
    refine ⟨?_, ?_⟩
    · intro hex
      obtain ⟨rfl | ⟨hm, -⟩, hn⟩ := hex
      · exact absurd hn.symm hy
      · exact ⟨hm, hn⟩
    · intro hboth
      obtain ⟨hm, rfl⟩ := hboth
      exact ⟨.inr ⟨hm, hy⟩, rfl⟩

theorem node?_place (g : Graph) (position : Nat) (e : Entry) (y : String) :
    (g.place position e).node? y = if y = e.name then some e.node else g.node? y := by
  rw [node?, find?_place]
  split <;> rfl

theorem consumers_place (g : Graph) (position : Nat) (e : Entry) (y : String) :
    (g.place position e).consumers y = if y = e.name then e.consumers else g.consumers y := by
  rw [consumers, find?_place]
  split <;> rfl

theorem has_place {position : Nat} {e : Entry} :
    (g.place position e).has y = true ↔ y = e.name ∨ g.has y = true := by
  rw [has_eq_isSome, node?_place, has_eq_isSome]
  by_cases hy : y = e.name <;> simp [hy]

/-! ## Taking a node out -/

theorem node?_detach (g : Graph) (x y : String) :
    (g.detach x).node? y = if y = x then none else g.node? y := by
  unfold detach
  split
  · rename_i hn
    split
    · rename_i hy
      rw [hy, hn]
    · rfl
  · rw [node?_unlinkAll, node?_erase]

theorem has_detach : (g.detach x).has y = true ↔ y ≠ x ∧ g.has y = true := by
  rw [has_eq_isSome, node?_detach, has_eq_isSome]
  split <;> simp_all

theorem reads_detach : (g.detach x).Reads a b ↔ a ≠ x ∧ g.Reads a b := by
  rw [Reads, node?_detach, Reads]
  by_cases ha : a = x
  · simp [ha]
  · simp [ha]

theorem mem_consumers_detach :
    a ∈ (g.detach x).consumers b ↔ b ≠ x ∧ a ∈ g.consumers b ∧ ¬(a = x ∧ g.Reads x b) := by
  unfold detach
  split
  · rename_i hn
    have hx : ¬g.has x = true := node?_eq_none.mp hn
    refine ⟨?_, ?_⟩
    · intro hm
      refine ⟨?_, hm, fun hr => hx hr.2.has⟩
      intro heq
      subst heq
      exact hx (has_of_mem_consumers hm)
    · exact fun hm => hm.2.1
  · rename_i n hn
    rw [mem_consumers_unlinkAll, consumers_erase, Node.mem_producerNames, reads_iff hn]
    by_cases hb : b = x
    · simp [hb]
    · simp [hb, and_comm]

/-! ## Redirecting inputs -/

theorem redirectInput_of_eq {p i : String} {t : Reference → String} (hi : Reference.nodeOf i = p) :
    Node.redirectInput p t i = t (Reference.parse i) := if_pos hi

theorem redirectInput_of_ne {p i : String} {t : Reference → String} (hi : Reference.nodeOf i ≠ p) :
    Node.redirectInput p t i = i := if_neg hi

theorem nodeOf_redirectInput {p q : String} {t : Reference → String}
    (ht : ∀ r, Reference.nodeOf (t r) = q) (i : String) :
    Reference.nodeOf (Node.redirectInput p t i)
      = if Reference.nodeOf i = p then q else Reference.nodeOf i := by
  by_cases hi : Reference.nodeOf i = p
  · rw [redirectInput_of_eq hi, if_pos hi, ht]
  · rw [redirectInput_of_ne hi, if_neg hi]

theorem mem_inputNodes_redirectInputs {n : Node} {p q : String} {t : Reference → String}
    (ht : ∀ r, Reference.nodeOf (t r) = q) :
    b ∈ (n.redirectInputs p t).inputNodes ↔
      (b ∈ n.inputNodes ∧ b ≠ p) ∨ (p ∈ n.inputNodes ∧ b = q) := by
  simp only [Node.inputNodes, Node.redirectInputs, List.map_map, List.mem_map, Function.comp_apply,
    nodeOf_redirectInput ht]
  refine ⟨?_, ?_⟩
  · intro hex
    obtain ⟨i, hm, rfl⟩ := hex
    by_cases hp : Reference.nodeOf i = p
    · exact .inr ⟨⟨i, hm, hp⟩, by rw [if_pos hp]⟩
    · rw [if_neg hp]
      exact .inl ⟨⟨i, hm, rfl⟩, hp⟩
  · intro hcase
    rcases hcase with ⟨⟨i, hm, rfl⟩, hp⟩ | ⟨⟨i, hm, hp⟩, rfl⟩
    · exact ⟨i, hm, if_neg hp⟩
    · exact ⟨i, hm, if_pos hp⟩

theorem reads_redirectReferences {c p q : String} {t : Reference → String}
    (ht : ∀ r, Reference.nodeOf (t r) = q) :
    (g.redirectReferences c p t).Reads a b ↔
      (a ≠ c ∧ g.Reads a b) ∨ (a = c ∧ ((g.Reads a b ∧ b ≠ p) ∨ (g.Reads a p ∧ b = q))) := by
  by_cases hc : a = c
  · subst hc
    rw [Reads, node?_redirectReferences, if_pos rfl]
    cases hn : g.node? a with
    | none => simp [Reads, hn]
    | some n => simp [mem_inputNodes_redirectInputs ht, reads_iff hn]
  · rw [Reads, node?_redirectReferences, if_neg hc, Reads]
    simp [hc]

/-- What the listed consumers read when their inputs that named `p` name `q`. A consumer that is
listed twice is redirected twice, which changes nothing more. -/
theorem reads_redirect {cs : List String} {p q : String} {t : Reference → String}
    (ht : ∀ r, Reference.nodeOf (t r) = q) :
    (g.redirect cs p t).Reads a b ↔
      (a ∉ cs ∧ g.Reads a b) ∨ (a ∈ cs ∧ ((g.Reads a b ∧ b ≠ p) ∨ (g.Reads a p ∧ b = q))) := by
  induction cs generalizing g with
  | nil => simp [redirect]
  | cons c cs ih =>
    show ((g.redirectReferences c p t).redirect cs p t).Reads a b ↔ _
    rw [ih, reads_redirectReferences ht, reads_redirectReferences ht, List.mem_cons]
    by_cases hc : a = c <;> by_cases hq : p = q <;> grind

theorem consumers_redirect (g : Graph) (cs : List String) (p : String) (t : Reference → String)
    (y : String) : (g.redirect cs p t).consumers y = g.consumers y := by
  induction cs generalizing g with
  | nil => rfl
  | cons c cs ih =>
    exact (ih (g.redirectReferences c p t)).trans (consumers_redirectReferences g c p t y)

theorem has_redirectReferences (g : Graph) (c p : String) (t : Reference → String) (y : String) :
    (g.redirectReferences c p t).has y = g.has y := by
  rw [has_eq_isSome, node?_redirectReferences, has_eq_isSome]
  split
  · rw [Option.isSome_map]
  · rfl

theorem has_redirect (g : Graph) (cs : List String) (p : String) (t : Reference → String)
    (y : String) : (g.redirect cs p t).has y = g.has y := by
  induction cs generalizing g with
  | nil => rfl
  | cons c cs ih => exact (ih (g.redirectReferences c p t)).trans (has_redirectReferences g c p t y)

theorem node?_redirect {cs : List String} (hd : cs.Nodup) (g : Graph) (p : String)
    (t : Reference → String) (y : String) : (g.redirect cs p t).node? y =
      if y ∈ cs then (g.node? y).map (·.redirectInputs p t) else g.node? y := by
  induction cs generalizing g with
  | nil => rfl
  | cons c cs ih =>
    obtain ⟨hc, hcs⟩ := List.nodup_cons.mp hd
    show ((g.redirectReferences c p t).redirect cs p t).node? y = _
    rw [ih hcs, node?_redirectReferences]
    by_cases hy : y = c
    · subst hy
      rw [if_neg hc, if_pos rfl, if_pos List.mem_cons_self]
    · rw [if_neg hy]
      simp [hy]

/-! ## Diverting consumers -/

theorem node?_redirect_congr {cs : List String} {p : String} {t : Reference → String}
    (hn : ∀ y, g.node? y = h.node? y) (y : String) :
    (g.redirect cs p t).node? y = (h.redirect cs p t).node? y := by
  induction cs generalizing g h with
  | nil => exact hn y
  | cons c cs ih =>
    refine ih (g := g.redirectReferences c p t) (h := h.redirectReferences c p t) ?_
    intro z
    rw [node?_redirectReferences, node?_redirectReferences, hn]

/-- Diverting redirects the consumers; that the producer forgets them leaves the nodes alone. -/
theorem node?_divert (g : Graph) (cs : List String) (p : String) (t : Reference → String)
    (y : String) : (divert cs p t g).node? y = (g.redirect cs p t).node? y := by
  induction cs generalizing g with
  | nil => rfl
  | cons c cs ih =>
    exact (ih ((g.redirectReferences c p t).unlink p c)).trans
      (node?_redirect_congr (node?_unlink _ p c) y)

theorem mem_consumers_divert {cs : List String} {p : String} {t : Reference → String} :
    a ∈ (divert cs p t g).consumers b ↔ a ∈ g.consumers b ∧ ¬(b = p ∧ a ∈ cs) := by
  induction cs generalizing g with
  | nil => simp [divert]
  | cons c cs ih =>
    show a ∈ (divert cs p t ((g.redirectReferences c p t).unlink p c)).consumers b ↔ _
    rw [ih, mem_consumers_unlink, consumers_redirectReferences, List.mem_cons]
    tauto

end Dataflow.Graph
