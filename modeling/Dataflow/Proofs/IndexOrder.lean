import Dataflow.Proofs.Rewiring
import Mathlib.Data.List.Basic

/- Who reads whom says nothing about the order of the nodes, or of the consumers recorded for one
   of them. Here both are lists. The nodes of a graph are its names looked up one after the
   other, so that an edit is known in full from the order in which it leaves the names and from
   the node under each (`filterMap_node?`, `flatMap_node?`). References are redirected once,
   however often a consumer is listed (`node?_redirect_settled`). -/

namespace Dataflow.Graph

/-! ## Lists without repeats -/

section Lists

variable {l m : List String} {old new : String}

/-- Leaving entries out and dropping repeats may be exchanged. -/
theorem filter_eraseDups (p : String → Bool) : ∀ l : List String,
    l.eraseDups.filter p = (l.filter p).eraseDups
  | [] => rfl
  | x :: rest => by
    have ih := filter_eraseDups p (rest.filter fun y => !y == x)
    rw [List.eraseDups_cons]
    by_cases hx : p x = true
    · rw [List.filter_cons_of_pos hx, List.filter_cons_of_pos hx, List.eraseDups_cons, ih,
        List.filter_filter, List.filter_filter]
      simp only [Bool.and_comm]
    · -- Nothing that is kept equals an entry that is left out.
      have hrest : (rest.filter fun y => !y == x).filter p = rest.filter p := by
        rw [List.filter_filter]
        refine List.filter_congr fun y _ => ?_
        by_cases hy : y = x
        · simp [hy, hx]
        · simp [hy]
      rw [List.filter_cons_of_neg hx, List.filter_cons_of_neg hx, ih, hrest]
termination_by l => l.length
decreasing_by
  have := List.length_filter_le (fun y => !y == x) rest
  simp only [List.length_cons]
  omega

theorem eraseDups_append_of_subset (h : m ⊆ l) : (l ++ m).eraseDups = l.eraseDups := by
  have hnone : m.removeAll l = [] := by
    simp only [List.removeAll, List.filter_eq_nil_iff]
    intro x hx
    simpa using h hx
  rw [List.eraseDups_append, hnone]
  exact List.append_nil _

/-- What is put at the place of an entry stands where that entry stood. -/
theorem take_append_cons_drop : ∀ {l : List String} {position : Nat},
    l.Nodup → l.findIdx? (· == old) = some position →
      (l.filter (· != old)).take position ++ new :: (l.filter (· != old)).drop position
        = l.map fun y => if y = old then new else y
  | [], _, _, hq => by simp at hq
  | x :: rest, position, hd, hq => by
    obtain ⟨hx, hrest⟩ := List.nodup_cons.mp hd
    rw [List.findIdx?_cons] at hq
    by_cases hxo : x = old
    · subst hxo
      have hzero : position = 0 := by simpa [eq_comm] using hq
      have hne : ∀ y ∈ rest, y ≠ x := fun y hy hyx => hx (hyx ▸ hy)
      have hkeep : rest.filter (· != x) = rest := by simpa using hne
      have hmap : (rest.map fun y => if y = x then new else y) = rest :=
        (List.map_congr_left fun y hy => if_neg (hne y hy)).trans (List.map_id rest)
      simp [hzero, hkeep, hmap]
    · rw [if_neg (by simpa using hxo), Option.map_eq_some_iff] at hq
      obtain ⟨position', hq', rfl⟩ := hq
      have ih := take_append_cons_drop hrest hq'
      rw [List.filter_cons_of_pos (by simpa using hxo), List.map_cons, if_neg hxo, ← ih]
      rfl

/-- What is put in front of an entry stands immediately before it. -/
theorem take_append_cons_drop_before : ∀ {l : List String} {position : Nat},
    l.Nodup → l.findIdx? (· == old) = some position →
      l.take position ++ new :: l.drop position
        = l.flatMap fun y => if y = old then [new, y] else [y]
  | [], _, _, hq => by simp at hq
  | x :: rest, position, hd, hq => by
    obtain ⟨hx, hrest⟩ := List.nodup_cons.mp hd
    rw [List.findIdx?_cons] at hq
    by_cases hxo : x = old
    · subst hxo
      have hzero : position = 0 := by simpa [eq_comm] using hq
      have hkeep : (rest.flatMap fun y => if y = x then [new, y] else [y]) = rest := by
        refine (List.flatMap_congr fun y hy => ?_).trans (List.flatMap_singleton' rest)
        exact if_neg fun hyx : y = x => hx (hyx ▸ hy)
      simp [hzero, hkeep]
    · rw [if_neg (by simpa using hxo), Option.map_eq_some_iff] at hq
      obtain ⟨position', hq', rfl⟩ := hq
      have ih := take_append_cons_drop_before hrest hq'
      rw [List.flatMap_cons, if_neg hxo, ← ih]
      rfl

theorem eraseDups_of_nodup (hd : l.Nodup) : l.eraseDups = l := by
  induction l with
  | nil => rfl
  | cons x rest ih =>
    obtain ⟨hx, hrest⟩ := List.nodup_cons.mp hd
    have hkeep : (rest.filter fun y => !y == x) = rest := by
      refine List.filter_eq_self.mpr fun y hy => ?_
      simpa using fun hyx : y = x => hx (hyx ▸ hy)
    rw [List.eraseDups_cons, hkeep, ih hrest]

end Lists

variable {g h : Graph} {a b c x y : String}

/-! ## Names in order -/

theorem names_updateConsumers (g : Graph) (x : String) (f : Entry → List String) :
    (g.updateConsumers x f).names = g.names := mapEntries_names g _ _

theorem names_redirectReferences (g : Graph) (c p : String) (t : Reference → String) :
    (g.redirectReferences c p t).names = g.names := mapEntries_names g _ _

theorem names_linkAll (g : Graph) (ps : List String) (c : String) :
    (g.linkAll ps c).names = g.names := by
  induction ps generalizing g with
  | nil => rfl
  | cons p ps ih => exact (ih (g.link p c)).trans (names_updateConsumers g p _)

theorem names_unlinkAll (g : Graph) (ps : List String) (c : String) :
    (g.unlinkAll ps c).names = g.names := by
  induction ps generalizing g with
  | nil => rfl
  | cons p ps ih => exact (ih (g.unlink p c)).trans (names_updateConsumers g p _)

theorem names_redirect (g : Graph) (cs : List String) (p : String) (t : Reference → String) :
    (g.redirect cs p t).names = g.names := by
  induction cs generalizing g with
  | nil => rfl
  | cons c cs ih => exact (ih (g.redirectReferences c p t)).trans (names_redirectReferences g c p t)

theorem names_divert (g : Graph) (cs : List String) (p : String) (t : Reference → String) :
    (divert cs p t g).names = g.names := by
  induction cs generalizing g with
  | nil => rfl
  | cons c cs ih =>
    refine (ih ((g.redirectReferences c p t).unlink p c)).trans ?_
    exact (names_updateConsumers _ p _).trans (names_redirectReferences g c p t)

theorem filter_names_of_not_has (hx : ¬g.has x = true) : g.names.filter (· != x) = g.names := by
  refine List.filter_eq_self.mpr fun y hy => bne_iff_ne.mpr fun hyx => hx ?_
  exact has_iff.mpr (hyx ▸ hy)

theorem names_detach (g : Graph) (x : String) : (g.detach x).names = g.names.filter (· != x) := by
  unfold detach
  split
  · rename_i hn
    exact (filter_names_of_not_has (node?_eq_none.mp hn)).symm
  · rw [names_unlinkAll, erase_names]

theorem names_place (g : Graph) (position : Nat) (e : Entry) : (g.place position e).names =
    (g.names.filter (· != e.name)).take position ++
      e.name :: (g.names.filter (· != e.name)).drop position := by
  rw [← erase_names]
  simp [place, names]

theorem names_append (g : Graph) (e : Entry) :
    (g.append e).names = g.names.filter (· != e.name) ++ [e.name] := by
  have hlen : (g.erase e.name).size = (g.names.filter (· != e.name)).length := by
    rw [← erase_names, names, size, List.length_map]
  rw [append, names_place, hlen, List.take_length, List.drop_length]

theorem position?_eq (g : Graph) (x : String) : g.position? x = g.names.findIdx? (· == x) := by
  rw [position?, names, List.findIdx?_map]
  rfl

/-! ## Names after an edit -/

theorem names_bypass (name primary : String) (g : Graph) :
    (bypass name primary g).names = g.names.filter (· != name) := by
  rw [bypass, names_detach, names_updateConsumers, names_redirect]

theorem names_interpose (new : Node) (producer? : Option String) (cs : List String) (g : Graph) :
    (interpose new producer? cs g).names = g.names.filter (· != new.name) ++ [new.name] := by
  have hk : ∀ k : Graph, k.names = (g.detach new.name).names →
      ((k.append (.withConsumers new (cs ++ g.inherited new.name none))).linkAll
        new.producerNames new.name).names = g.names.filter (· != new.name) ++ [new.name] := by
    intro k hk
    rw [names_linkAll, names_append, hk, names_detach]
    show (List.filter (· != new.name) (g.names.filter (· != new.name))) ++ _ = _
    rw [List.filter_filter]
    simp only [Bool.and_self]
    rfl
  cases producer? with
  | none => exact hk _ rfl
  | some producer => exact hk _ (names_divert _ _ _ _)

theorem names_vacate (new : Node) (old : String) (g : Graph) :
    (vacate new old g).names = g.names.filter fun y => y == old || y != new.name := by
  unfold vacate
  split
  · rename_i hn
    refine (List.filter_eq_self.mpr fun y _ => ?_).symm
    by_cases hy : y = old
    · simp [hy]
    · simp [hy, hn]
  · rename_i hn
    rw [names_detach]
    refine List.filter_congr fun y _ => ?_
    by_cases hy : y = old
    · simp [hy, Ne.symm hn]
    · simp [hy]

theorem names_exchange {new : Node} {old : String} (cs : List String) (ho : g.has old = true) :
    (exchange new old cs g).names =
      (g.names.filter fun y => y == old || y != new.name).map fun y =>
        if y = old then new.name else y := by
  have hv : (vacate new old g).has old = true := by
    rw [has_iff, names_vacate]
    exact List.mem_filter.mpr ⟨has_iff.mp ho, by simp⟩
  obtain ⟨position, hq⟩ := position?_isSome hv
  -- The new name is free when the node is put in.
  have hfree : ((vacate new old g).detach old).names.filter (· != new.name) =
      (vacate new old g).names.filter (· != old) := by
    rw [names_detach]
    refine List.filter_eq_self.mpr fun y hy => ?_
    rw [names_vacate, List.mem_filter, List.mem_filter] at hy
    obtain ⟨⟨-, hfree⟩, hyo⟩ := hy
    simpa [bne_iff_ne.mp hyo] using hfree
  have hseat : seat? new old cs g = some (((vacate new old g).detach old).place position
      (.withConsumers new (seated new old cs g))) := by
    simp only [seat?, hq, Option.map_some]
    rfl
  rw [exchange, hseat]
  show (linkAll _ new.producerNames new.name).names = _
  rw [names_linkAll, names_redirect, names_place]
  show (((vacate new old g).detach old).names.filter (· != new.name)).take position ++
    new.name :: (((vacate new old g).detach old).names.filter (· != new.name)).drop position = _
  have hd : (vacate new old g).names.Nodup := (vacate new old g).nodup_names
  rw [position?_eq] at hq
  rw [hfree, take_append_cons_drop hd hq, names_vacate]

/-! ## Nodes in order -/

theorem nodes_eq_filterMap (g : Graph) : g.nodes = g.names.filterMap g.node? := by
  rw [names, List.filterMap_map, nodes]
  refine (List.filterMap_eq_map_iff_forall_eq_some.mpr fun e he => ?_).symm
  exact node?_of_mem he

/-- What is found in `h` under the names of `g` that were kept, if a kept node is found as `f` makes
it under the name that it has there. -/
theorem filterMap_node? {keep : String → Bool} {rename : String → String} {f : Node → Node}
    (hf : ∀ y n, g.node? y = some n → keep y = true → h.node? (rename y) = some (f n)) :
    ((g.names.filter keep).map rename).filterMap h.node? =
      (g.nodes.filter fun n => keep n.name).map f := by
  rw [List.filterMap_map, names, nodes, List.filter_map, List.filterMap_map, List.filter_map,
    List.map_map]
  refine List.filterMap_eq_map_iff_forall_eq_some.mpr fun e he => ?_
  obtain ⟨hm, hk⟩ := List.mem_filter.mp he
  exact hf e.name e.node (node?_of_mem hm) hk

/-- The same where a kept node stands among others: `around` gives the names that stand for its name,
and `f` the nodes found under them. -/
theorem flatMap_node? {keep : String → Bool} {around : String → List String} {f : Node → List Node}
    (hf : ∀ y n, g.node? y = some n → keep y = true → (around y).filterMap h.node? = f n) :
    ((g.names.filter keep).flatMap around).filterMap h.node? =
      (g.nodes.filter fun n => keep n.name).flatMap f := by
  rw [List.filterMap_flatMap, names, nodes, List.filter_map, List.flatMap_map, List.filter_map,
    List.flatMap_map]
  refine List.flatMap_congr fun e he => ?_
  obtain ⟨hm, hk⟩ := List.mem_filter.mp he
  exact hf e.name e.node (node?_of_mem hm) hk

/-! ## Recorded consumers in order -/

theorem consumers_unlink (g : Graph) (p c y : String) : (g.unlink p c).consumers y =
    if y = p then (g.consumers y).filter (· != c) else g.consumers y := by
  rw [unlink, consumers_updateConsumers]
  split
  · rw [consumers]
    cases g.find? y <;> rfl
  · rfl

theorem consumers_unlinkAll (g : Graph) (ps : List String) (c y : String) :
    (g.unlinkAll ps c).consumers y =
      if y ∈ ps then (g.consumers y).filter (· != c) else g.consumers y := by
  induction ps generalizing g with
  | nil => rfl
  | cons p ps ih =>
    show ((g.unlink p c).unlinkAll ps c).consumers y = _
    rw [ih, consumers_unlink]
    by_cases hp : y = p <;> by_cases hy : y ∈ ps <;> simp [hp, hy, List.filter_filter]

/-- A node that is taken out is no longer recorded anywhere, if it was recorded only with nodes that it
read. -/
theorem consumers_detach_eq (hy : y ≠ x) (hr : x ∈ g.consumers y → g.Reads x y) :
    (g.detach x).consumers y = (g.consumers y).filter (· != x) := by
  have hkeep : x ∉ g.consumers y → (g.consumers y).filter (· != x) = g.consumers y := by
    intro hx
    refine List.filter_eq_self.mpr fun c hc => bne_iff_ne.mpr fun hcx => hx (hcx ▸ hc)
  unfold detach
  split
  · rename_i hn
    exact (hkeep fun hx => node?_eq_none.mp hn (hr hx).has).symm
  · rename_i n hn
    rw [consumers_unlinkAll, consumers_erase, if_neg hy]
    split
    · rfl
    · rename_i hp
      rw [Node.mem_producerNames, ← reads_iff hn] at hp
      exact (hkeep fun hx => hp (hr hx)).symm

theorem consumers_divert (g : Graph) (cs : List String) (p : String) (t : Reference → String)
    (y : String) : (divert cs p t g).consumers y =
      if y = p then (g.consumers y).filter (fun c => !cs.contains c) else g.consumers y := by
  induction cs generalizing g with
  | nil => simp [divert]
  | cons c cs ih =>
    show (divert cs p t ((g.redirectReferences c p t).unlink p c)).consumers y = _
    rw [ih, consumers_unlink, consumers_redirectReferences]
    split
    · rw [List.filter_filter]
      refine List.filter_congr fun d _ => ?_
      rw [List.contains_cons, Bool.not_or, Bool.and_comm]
      rfl
    · rfl

theorem consumers_link_eq {l : List String} {p : String} (hy : g.has y = true)
    (hl : g.consumers y = l.eraseDups) : (g.link p c).consumers y =
      (if y = p then l ++ [c] else l).eraseDups := by
  rw [link, consumers_updateConsumers]
  split
  · obtain ⟨e, he⟩ := Option.isSome_iff_exists.mp hy
    have hk : e.consumers = l.eraseDups := by rw [← hl, consumers, he]; rfl
    rw [he, Option.map_some, Option.getD_some, Entry.addConsumer, Entry.hasConsumer, hk]
    by_cases hc : c ∈ l
    · rw [if_pos (by simpa using hc), hk, eraseDups_append_of_subset (by simpa using hc)]
    · rw [if_neg (by simpa using hc), List.eraseDups_append]
      simp [List.removeAll, hc, List.eraseDups_cons]
  · exact hl

/-- A consumer that is recorded with several producers comes last with each of them, unless it is
recorded there already. -/
theorem consumers_linkAll_eq {l ps : List String} (hy : g.has y = true)
    (hl : g.consumers y = l.eraseDups) : (g.linkAll ps c).consumers y =
      (l ++ if y ∈ ps then [c] else []).eraseDups := by
  induction ps generalizing g l with
  | nil => simpa [linkAll] using hl
  | cons p ps ih =>
    have hlink := consumers_link_eq (c := c) (p := p) hy hl
    have hrest := ih (g := g.link p c) (by rw [has_link, hy]) hlink
    refine hrest.trans ?_
    by_cases hp : y = p
    · by_cases hm : y ∈ ps
      · rw [if_pos hp, if_pos hm, if_pos (List.mem_cons_of_mem p hm)]
        exact eraseDups_append_of_subset (by simp)
      · rw [if_pos hp, if_neg hm, if_pos (hp ▸ List.mem_cons_self), List.append_nil]
    · simp [hp]

theorem consumers_linkAll_of_not_mem {ps : List String} (hy : g.has y = true)
    (hd : (g.consumers y).Nodup) (hc : c ∉ g.consumers y) :
    (g.linkAll ps c).consumers y = g.consumers y ++ if y ∈ ps then [c] else [] := by
  rw [consumers_linkAll_eq hy (eraseDups_of_nodup hd).symm]
  refine eraseDups_of_nodup (List.nodup_append.mpr ⟨hd, by split <;> simp, ?_⟩)
  intro d hdm d' hdm' hdd
  subst hdd
  split at hdm'
  · rw [List.mem_singleton] at hdm'
    exact hc (hdm' ▸ hdm)
  · cases hdm'

/-! ## Consumers that are listed more than once -/

/-- What is written for a reference to `p` stays as it is when it names `p` and is redirected
again. -/
def Settled (p : String) (t : Reference → String) : Prop :=
  ∀ r, Reference.nodeOf (t r) = p → t (Reference.parse (t r)) = t r

theorem settled_of_ne {p q : String} {t : Reference → String}
    (ht : ∀ r, Reference.nodeOf (t r) = q) (hq : q ≠ p) : Settled p t :=
  fun r hr => absurd ((ht r).symm.trans hr) hq

theorem settled_renamed {name : String} (hp : Reference.isPlain name = true) (p : String) :
    Settled p (renamed name) := by
  intro r _
  have hparse := Reference.parse_render (r := { r with node := name }) hp
  simp only [renamed, hparse]
  cases hc : r.control <;> simp [Reference.render]

theorem redirectInputs_twice {p : String} {t : Reference → String} (hs : Settled p t) (n : Node) :
    (n.redirectInputs p t).redirectInputs p t = n.redirectInputs p t := by
  have hi : ∀ i, Node.redirectInput p t (Node.redirectInput p t i) = Node.redirectInput p t i := by
    intro i
    by_cases hp : Reference.nodeOf i = p
    · rw [redirectInput_of_eq hp]
      by_cases ht : Reference.nodeOf (t (Reference.parse i)) = p
      · exact (redirectInput_of_eq ht).trans (hs _ ht)
      · exact redirectInput_of_ne ht
    · rw [redirectInput_of_ne hp, redirectInput_of_ne hp]
  have hmap : (n.inputs.map (Node.redirectInput p t)).map (Node.redirectInput p t) =
      n.inputs.map (Node.redirectInput p t) := by
    rw [List.map_map]
    refine List.map_congr_left fun i _ => ?_
    rw [Function.comp_apply, hi]
  unfold Node.redirectInputs
  exact congrArg (fun inputs : List String => { n with inputs := inputs }) hmap

theorem node?_redirect_settled {p : String} {t : Reference → String} (hs : Settled p t)
    (g : Graph) (cs : List String) (y : String) : (g.redirect cs p t).node? y =
      if y ∈ cs then (g.node? y).map (·.redirectInputs p t) else g.node? y := by
  induction cs generalizing g with
  | nil => rfl
  | cons c cs ih =>
    show ((g.redirectReferences c p t).redirect cs p t).node? y = _
    rw [ih, node?_redirectReferences]
    by_cases hy : y = c
    · by_cases hm : y ∈ cs
      · rw [if_pos hm, if_pos hy, if_pos (List.mem_cons_of_mem c hm), Option.map_map]
        congr 1
        exact funext fun n => redirectInputs_twice hs n
      · rw [if_neg hm, if_pos hy, if_pos (hy ▸ List.mem_cons_self)]
    · simp [hy]

/-- The nodes after consumers were diverted: those that are listed no longer name `p`, or name it as
they did. -/
theorem node?_divert_settled {p : String} {t : Reference → String} (hs : Settled p t)
    (g : Graph) (cs : List String) (y : String) : (divert cs p t g).node? y =
      (g.node? y).map fun n => if n.name ∈ cs then n.redirectInputs p t else n := by
  rw [node?_divert, node?_redirect_settled hs]
  cases hn : g.node? y with
  | none => split <;> rfl
  | some n =>
    rw [Option.map_some, Option.map_some, name_of_node? hn]
    split <;> rfl

theorem redirectInputs_of_not_mem {n : Node} {p : String} (hp : p ∉ n.inputNodes)
    (t : Reference → String) : n.redirectInputs p t = n := by
  have hi : n.inputs.map (Node.redirectInput p t) = n.inputs := by
    refine (List.map_congr_left fun i hi => ?_).trans (List.map_id _)
    exact redirectInput_of_ne fun hn => hp (List.mem_map.mpr ⟨i, hi, hn⟩)
  rw [Node.redirectInputs, hi]

end Dataflow.Graph
