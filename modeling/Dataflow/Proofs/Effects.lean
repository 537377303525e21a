import Dataflow.Proofs.Checks
import Dataflow.Proofs.ReadBack

/- The graph after each edit, seen as the names that are there, who reads whom, and which
   consumers are recorded. The position of a node plays no part in any of these. A node is
   spliced out (`reads_bypass`, `mem_consumers_bypass`), comes in beside the others (`Enters`),
   or stands in the place of an old one (`Supersedes`); when a node is folded, what fed nothing
   else goes (`Thins`). -/

namespace Dataflow.Graph

variable {g : Graph} {a b x y : String}

/-! ## What redirected references are -/

theorem nodeOf_renamed {name : String} (hp : Reference.isPlain name = true) (r : Reference) :
    Reference.nodeOf (renamed name r) = name :=
  Reference.nodeOf_render (r := { r with node := name }) hp

theorem nodeOf_towards {name : String} (hp : Reference.isPlain name = true) (r : Reference) :
    Reference.nodeOf (towards name r) = name :=
  Reference.nodeOf_render (r := ⟨name, r.control, 0⟩) hp

theorem nodeOf_pastSplice {primary : String}
    (hp : Reference.isPlain (Reference.nodeOf primary) = true) (r : Reference) :
    Reference.nodeOf (pastSplice primary r) = Reference.nodeOf primary := by
  unfold pastSplice
  split
  · exact Reference.nodeOf_render (r := ⟨Reference.nodeOf primary, true, 0⟩) hp
  · rfl

theorem isData_renamed {name : String} (hp : Reference.isPlain name = true) (r : Reference) :
    (Reference.parse (renamed name r)).isData = r.isData := by
  rw [renamed, Reference.parse_render (r := { r with node := name }) hp]
  rfl

theorem isData_pastSplice {primary : String}
    (hp : Reference.isPlain (Reference.nodeOf primary) = true)
    (hd : (Reference.parse primary).isData = true) (r : Reference) :
    (Reference.parse (pastSplice primary r)).isData = r.isData := by
  unfold pastSplice
  by_cases hr : r.control = true
  · rw [if_pos hr, Reference.toNode,
      Reference.parse_render (r := ⟨Reference.nodeOf primary, true, 0⟩) hp]
    simp only [Reference.isData, hr]
  · rw [if_neg hr, hd]
    simp [Reference.isData, hr]

/-! ## Bypassing -/

theorem mem_replaceConsumer {e : Entry} {name c : String} {substitutes : List String} :
    c ∈ (e.replaceConsumer name substitutes).consumers ↔
      (c ∈ e.consumers ∧ c ≠ name) ∨ c ∈ substitutes := by
  simp only [Entry.replaceConsumer, List.mem_eraseDups, List.mem_append, List.mem_flatMap]
  refine ⟨?_, ?_⟩
  · intro hcase
    rcases hcase with ⟨d, hd, hc⟩ | hc
    · split at hc
      · exact .inr hc
      · rename_i hne
        rw [List.mem_singleton] at hc
        exact .inl (hc ▸ ⟨hd, hne⟩)
    · exact .inr hc
  · intro hcase
    rcases hcase with ⟨hc, hne⟩ | hc
    · exact .inl ⟨c, hc, by rw [if_neg hne]; exact List.mem_singleton_self c⟩
    · exact .inr hc

section Bypass

variable {name primary : String}

theorem node?_bypass (g : Graph) (name primary y : String) :
    (bypass name primary g).node? y = if y = name then none
      else (g.redirect (g.consumers name) name (pastSplice primary)).node? y := by
  rw [bypass, node?_detach, node?_updateConsumers]

theorem has_bypass : (bypass name primary g).has y = true ↔ y ≠ name ∧ g.has y = true := by
  rw [bypass, has_detach, has_eq_isSome, node?_updateConsumers, ← has_eq_isSome, has_redirect]

theorem reads_bypass (hp : Reference.isPlain (Reference.nodeOf primary) = true) :
    (bypass name primary g).Reads a b ↔ a ≠ name ∧
      ((a ∉ g.consumers name ∧ g.Reads a b) ∨ (a ∈ g.consumers name ∧
        ((g.Reads a b ∧ b ≠ name) ∨ (g.Reads a name ∧ b = Reference.nodeOf primary)))) := by
  rw [bypass, reads_detach, reads_congr (node?_updateConsumers _ _ _ a),
    reads_redirect (nodeOf_pastSplice hp)]

/-- What is recorded after a bypass: the consumers of the node take its place with the node that its
first input names. The node itself is forgotten where it reads by then. -/
theorem mem_consumers_bypass (hp : Reference.isPlain (Reference.nodeOf primary) = true)
    (ht : g.has (Reference.nodeOf primary) = true) :
    a ∈ (bypass name primary g).consumers b ↔ b ≠ name ∧
      ((a ∈ g.consumers b ∧ (b = Reference.nodeOf primary → a ≠ name)) ∨
        (b = Reference.nodeOf primary ∧ a ∈ g.consumers name)) ∧
      ¬(a = name ∧ ((name ∉ g.consumers name ∧ g.Reads name b) ∨ (name ∈ g.consumers name ∧
        ((g.Reads name b ∧ b ≠ name) ∨
          (g.Reads name name ∧ b = Reference.nodeOf primary))))) := by
  rw [bypass, mem_consumers_detach, consumers_updateConsumers, consumers_redirect,
    reads_congr (node?_updateConsumers _ _ _ name), reads_redirect (nodeOf_pastSplice hp)]
  by_cases hb : b = Reference.nodeOf primary
  · rw [if_pos hb]
    have hh : (g.redirect (g.consumers name) name (pastSplice primary)).has b = true := by
      rw [has_redirect, hb, ht]
    rw [has, Option.isSome_iff_exists] at hh
    obtain ⟨e, he⟩ := hh
    have hk : e.consumers = g.consumers b := by
      rw [← consumers_redirect g (g.consumers name) name (pastSplice primary), consumers, he]
      rfl
    rw [he, Option.map_some, Option.getD_some, mem_replaceConsumer, hk]
    simp only [hb, true_and, forall_const]
  · rw [if_neg hb]
    simp only [hb, false_and, or_false, false_implies, and_true]

end Bypass

/-! ## Settling a new node -/

/-- The graph with a new node put at a position, with its consumers, and recorded with its
producers. -/
def settle (new : Node) (consumers : List String) (position : Nat) (g : Graph) : Graph :=
  (g.place position (.withConsumers new consumers)).linkAll new.producerNames new.name

section Settle

variable {new : Node} {cs : List String} {position : Nat}

theorem mem_consumers_place : a ∈ (g.place position (.withConsumers new cs)).consumers b ↔
    (b = new.name ∧ a ∈ cs) ∨ (b ≠ new.name ∧ a ∈ g.consumers b) := by
  rw [consumers_place]
  show a ∈ (if b = new.name then cs.eraseDups else g.consumers b) ↔ _
  by_cases hb : b = new.name
  · rw [if_pos hb, List.mem_eraseDups]
    simp [hb]
  · rw [if_neg hb]
    simp [hb]

theorem node?_settle (new : Node) (cs : List String) (position : Nat) (g : Graph) (y : String) :
    (settle new cs position g).node? y = if y = new.name then some new else g.node? y := by
  rw [settle, node?_linkAll, node?_place]
  rfl

theorem has_settle : (settle new cs position g).has y = true ↔ y = new.name ∨ g.has y = true := by
  rw [has_eq_isSome, node?_settle, has_eq_isSome]
  by_cases hy : y = new.name <;> simp [hy]

theorem reads_settle : (settle new cs position g).Reads a b ↔
    (a = new.name ∧ b ∈ new.inputNodes) ∨ (a ≠ new.name ∧ g.Reads a b) := by
  rw [Reads, node?_settle, Reads]
  by_cases ha : a = new.name <;> simp [ha]

theorem mem_consumers_settle : a ∈ (settle new cs position g).consumers b ↔
    (b = new.name ∧ a ∈ cs) ∨ (b ≠ new.name ∧ a ∈ g.consumers b) ∨
      (b ∈ new.inputNodes ∧ a = new.name ∧ (b = new.name ∨ g.has b = true)) := by
  have hh : (g.place position (.withConsumers new cs)).has b = true ↔
      b = new.name ∨ g.has b = true := has_place
  rw [settle, mem_consumers_linkAll, mem_consumers_place, Node.mem_producerNames, hh, or_assoc]

end Settle

/-! ## Inserting and swapping -/

/-- What `h` is to `g` when `new` came in, after a node of its name was taken out, and the listed
consumers that read `source` read it. Without a producer the source is the new name itself. -/
structure Enters (new : Node) (source : String) (cs : List String) (g h : Graph) : Prop where
  has : ∀ y, h.has y = true ↔ y = new.name ∨ g.has y = true
  reads : ∀ a b, h.Reads a b ↔ (a = new.name ∧ b ∈ new.inputNodes) ∨
    (a ≠ new.name ∧ ((a ∉ cs ∧ g.Reads a b) ∨
      (a ∈ cs ∧ ((g.Reads a b ∧ b ≠ source) ∨ (g.Reads a source ∧ b = new.name)))))
  consumers : ∀ a b, a ∈ h.consumers b ↔
    (b = new.name ∧ (a ∈ cs ∨ a ∈ g.consumers new.name)) ∨
    (b ≠ new.name ∧ a ∈ g.consumers b ∧ ¬(a = new.name ∧ g.Reads new.name b) ∧
      ¬(b = source ∧ a ∈ cs)) ∨
    (b ∈ new.inputNodes ∧ a = new.name ∧ (b = new.name ∨ g.has b = true))

section Enters

variable {new : Node} {source : String} {cs : List String} {h : Graph}

theorem Enters.reads_new (he : Enters new source cs g h) :
    h.Reads new.name b ↔ b ∈ new.inputNodes := by
  rw [he.reads]
  simp

theorem Enters.reads_kept (he : Enters new source cs g h) (ha : a ≠ new.name) (hr : g.Reads a b)
    (hb : ¬(b = source ∧ a ∈ cs)) : h.Reads a b := by
  rw [he.reads]
  by_cases hc : a ∈ cs
  · exact .inr ⟨ha, .inr ⟨hc, .inl ⟨hr, fun hbs => hb ⟨hbs, hc⟩⟩⟩⟩
  · exact .inr ⟨ha, .inl ⟨hc, hr⟩⟩

theorem Enters.reads_listed (he : Enters new source cs g h) (ha : a ≠ new.name) (hc : a ∈ cs)
    (hr : g.Reads a source) : h.Reads a new.name :=
  (he.reads a _).mpr (.inr ⟨ha, .inr ⟨hc, .inr ⟨hr, rfl⟩⟩⟩)

end Enters

section Insert

variable {new : Node} {old : String} {cs : List String}

theorem mem_inherited {name : String} {skip? : Option String} :
    a ∈ g.inherited name skip? ↔ a ∈ g.consumers name ∧ some a ≠ skip? := by
  simp [inherited]

theorem has_divert (g : Graph) (cs : List String) (p : String) (t : Reference → String)
    (y : String) : (divert cs p t g).has y = g.has y := by
  rw [has_eq_isSome, node?_divert, ← has_eq_isSome, has_redirect]

/-- A new node that is settled after its consumers were diverted to it comes in. -/
theorem enters_of_divert {source : String} {t : Reference → String}
    (ht : ∀ r, Reference.nodeOf (t r) = new.name) (position : Nat) :
    Enters new source cs g (settle new (cs ++ g.inherited new.name none) position
      (divert cs source t (g.detach new.name))) where
  has y := by
    rw [has_settle, has_divert, has_detach]
    by_cases hy : y = new.name <;> simp [hy]
  reads a b := by
    rw [reads_settle, reads_congr (node?_divert _ _ _ _ a), reads_redirect ht, reads_detach,
      reads_detach]
    by_cases ha : a = new.name <;> simp [ha]
  consumers a b := by
    rw [mem_consumers_settle, mem_consumers_divert, mem_consumers_detach, has_divert, has_detach,
      List.mem_append, mem_inherited]
    by_cases hb : b = new.name <;> simp [hb, and_assoc]

theorem enters_of_detach (position : Nat) :
    Enters new new.name cs g
      (settle new (cs ++ g.inherited new.name none) position (g.detach new.name)) where
  has y := by
    rw [has_settle, has_detach]
    by_cases hy : y = new.name <;> simp [hy]
  reads a b := by
    rw [reads_settle, reads_detach]
    by_cases ha : a = new.name
    · simp [ha]
    · by_cases hb : b = new.name <;> by_cases hc : a ∈ cs <;> simp [ha, hb, hc]
  consumers a b := by
    rw [mem_consumers_settle, mem_consumers_detach, has_detach, List.mem_append, mem_inherited]
    by_cases hb : b = new.name <;> simp [hb]

theorem interpose_enters {producer? : Option String} (hp : Reference.isPlain new.name = true) :
    Enters new (producer?.getD new.name) cs g (interpose new producer? cs g) := by
  cases producer? with
  | none => exact enters_of_detach _
  | some producer => exact enters_of_divert (nodeOf_towards hp) _

theorem standBefore_enters (hp : Reference.isPlain new.name = true) :
    Enters new old cs g (standBefore new old cs g) := by
  have hd : ∀ position, Enters new old cs g (settle new (cs ++ g.inherited new.name none) position
      (divert cs old (renamed new.name) (g.detach new.name))) :=
    enters_of_divert (nodeOf_renamed hp)
  simp only [standBefore]
  cases (divert cs old (renamed new.name) (g.detach new.name)).position? old with
  | none => exact hd _
  | some position => exact hd position

end Insert

/-! ## Replacing -/

/-- What `h` is to `g` when `new` stands in the place of `old`, a third node of its name was taken
out, and the listed consumers that read `old` read it. -/
structure Supersedes (new : Node) (old : String) (cs : List String) (g h : Graph) : Prop where
  has : ∀ y, h.has y = true ↔ y = new.name ∨ (y ≠ old ∧ g.has y = true)
  reads : ∀ a b, h.Reads a b ↔ (a = new.name ∧ b ∈ new.inputNodes) ∨
    (a ≠ new.name ∧ a ≠ old ∧ ((a ∉ cs ∧ g.Reads a b) ∨
      (a ∈ cs ∧ ((g.Reads a b ∧ b ≠ old) ∨ (g.Reads a old ∧ b = new.name)))))
  consumers : ∀ a b, a ∈ h.consumers b ↔
    (b = new.name ∧ (a ∈ cs ∨ (new.name ≠ old ∧ a ∈ g.consumers new.name ∧ a ≠ old))) ∨
    (b ≠ new.name ∧ b ≠ old ∧ a ∈ g.consumers b ∧ ¬(a = new.name ∧ g.Reads new.name b) ∧
      ¬(a = old ∧ g.Reads old b)) ∨
    (b ∈ new.inputNodes ∧ a = new.name ∧ (b = new.name ∨ (b ≠ old ∧ g.has b = true)))

section Supersedes

variable {new : Node} {old : String} {cs : List String} {h : Graph}

theorem Supersedes.reads_new (hs : Supersedes new old cs g h) :
    h.Reads new.name b ↔ b ∈ new.inputNodes := by
  rw [hs.reads]
  simp

theorem Supersedes.reads_kept (hs : Supersedes new old cs g h) (ha : a ≠ new.name) (hao : a ≠ old)
    (hr : g.Reads a b) (hb : ¬(b = old ∧ a ∈ cs)) : h.Reads a b := by
  rw [hs.reads]
  by_cases hc : a ∈ cs
  · exact .inr ⟨ha, hao, .inr ⟨hc, .inl ⟨hr, fun hbo => hb ⟨hbo, hc⟩⟩⟩⟩
  · exact .inr ⟨ha, hao, .inl ⟨hc, hr⟩⟩

theorem Supersedes.reads_listed (hs : Supersedes new old cs g h) (ha : a ≠ new.name)
    (hao : a ≠ old) (hc : a ∈ cs) (hr : g.Reads a old) : h.Reads a new.name :=
  (hs.reads a _).mpr (.inr ⟨ha, hao, .inr ⟨hc, .inr ⟨hr, rfl⟩⟩⟩)

end Supersedes

section Replace

variable {new : Node} {old : String} {cs : List String}

theorem position?_isSome (hx : g.has x = true) : ∃ position, g.position? x = some position := by
  obtain ⟨e, he, hn⟩ := exists_mem_of_has hx
  cases hq : g.position? x with
  | some position => exact ⟨position, rfl⟩
  | none =>
    have := List.findIdx?_eq_none_iff.mp hq e he
    simp [hn] at this

def clear (new : Node) (old : String) (g : Graph) : Graph := (vacate new old g).detach old

theorem node?_clear (new : Node) (old : String) (g : Graph) (y : String) :
    (clear new old g).node? y = if y = new.name ∨ y = old then none else g.node? y := by
  unfold clear vacate
  split
  · rename_i hn
    simp only [node?_detach, hn, or_self]
  · rw [node?_detach, node?_detach]
    by_cases hy : y = old
    · simp [hy]
    · simp [hy]

theorem mem_consumers_clear : a ∈ (clear new old g).consumers b ↔
    b ≠ new.name ∧ b ≠ old ∧ a ∈ g.consumers b ∧ ¬(a = new.name ∧ g.Reads new.name b) ∧
      ¬(a = old ∧ g.Reads old b) := by
  unfold clear vacate
  split
  · rename_i hn
    rw [mem_consumers_detach, hn]
    tauto
  · rename_i hn
    rw [mem_consumers_detach, mem_consumers_detach, reads_detach]
    refine ⟨?_, ?_⟩
    · intro hboth
      obtain ⟨hbo, ⟨hbn, ha, hr⟩, ho⟩ := hboth
      exact ⟨hbn, hbo, ha, hr, fun h => ho ⟨h.1, Ne.symm hn, h.2⟩⟩
    · intro hboth
      obtain ⟨hbn, hbo, ha, hr, ho⟩ := hboth
      exact ⟨hbo, ⟨hbn, ha, hr⟩, fun h => ho ⟨h.1, h.2.2⟩⟩

/-- The consumers that a new node starts with: the listed ones, and those of a third node whose name
it takes. -/
def seated (new : Node) (old : String) (cs : List String) (g : Graph) : List String :=
  cs ++ (if new.name = old then [] else g.inherited new.name (some old))

theorem mem_seated : a ∈ seated new old cs g ↔
    a ∈ cs ∨ (new.name ≠ old ∧ a ∈ g.consumers new.name ∧ a ≠ old) := by
  rw [seated, List.mem_append]
  split
  · simp_all
  · rename_i hn
    rw [mem_inherited]
    simp [hn]

/-- The graph with the new node in the place of the old one, and nothing redirected yet. -/
def installed (new : Node) (old : String) (cs : List String) (position : Nat) (g : Graph) : Graph :=
  (clear new old g).place position (.withConsumers new (seated new old cs g))

theorem node?_installed (new : Node) (old : String) (cs : List String) (position : Nat) (g : Graph)
    (y : String) : (installed new old cs position g).node? y =
      if y = new.name then some new else if y = old then none else g.node? y := by
  rw [installed, node?_place, node?_clear]
  show (if y = new.name then some new else _) = _
  by_cases hy : y = new.name
  · rw [if_pos hy, if_pos hy]
  · rw [if_neg hy, if_neg hy]
    simp only [hy, false_or]

theorem has_installed {position : Nat} : (installed new old cs position g).has y = true ↔
    y = new.name ∨ (y ≠ old ∧ g.has y = true) := by
  rw [has_eq_isSome, node?_installed, has_eq_isSome]
  by_cases hy : y = new.name
  · simp [hy]
  · rw [if_neg hy]
    by_cases ho : y = old
    · subst ho
      simp [hy]
    · simp [hy, ho]

theorem reads_installed {position : Nat} : (installed new old cs position g).Reads a b ↔
    (a = new.name ∧ b ∈ new.inputNodes) ∨ (a ≠ new.name ∧ a ≠ old ∧ g.Reads a b) := by
  rw [Reads, node?_installed, Reads]
  by_cases ha : a = new.name
  · simp [ha]
  · rw [if_neg ha]
    by_cases ho : a = old
    · subst ho
      simp [ha]
    · simp [ha, ho]

theorem exchange_eq (new : Node) (cs : List String) (ho : g.has old = true) :
    ∃ position, exchange new old cs g =
      ((installed new old cs position g).redirect cs old (renamed new.name)).linkAll
        new.producerNames new.name := by
  have hv : (vacate new old g).has old = true := by
    unfold vacate
    split
    · exact ho
    · rename_i hn
      exact has_detach.mpr ⟨Ne.symm hn, ho⟩
  obtain ⟨position, hq⟩ := position?_isSome hv
  refine ⟨position, ?_⟩
  simp only [exchange, seat?, hq, Option.map_some]
  rfl

/-- The nodes after an exchange: the new one, and those that stay, with the references of the listed
consumers to the old name renamed. -/
theorem node?_exchange (ho : g.has old = true) (hd : cs.Nodup) (y : String) :
    (exchange new old cs g).node? y =
      (if y = new.name then some new else if y = old then none else g.node? y).map fun n =>
        if y ∈ cs then n.redirectInputs old (renamed new.name) else n := by
  obtain ⟨position, he⟩ := exchange_eq new cs ho
  rw [he, node?_linkAll, node?_redirect hd, node?_installed]
  by_cases hc : y ∈ cs
  · simp only [hc, if_true]
  · simp only [hc, if_false, Option.map_id']

theorem exchange_supersedes (hp : Reference.isPlain new.name = true) (ho : g.has old = true)
    (hn : new.name ≠ old → new.name ∉ cs) : Supersedes new old cs g (exchange new old cs g) := by
  obtain ⟨position, he⟩ := exchange_eq new cs ho
  rw [he]
  refine ⟨?_, ?_, ?_⟩
  · intro y
    rw [has_eq_isSome, node?_linkAll, ← has_eq_isSome, has_redirect]
    exact has_installed
  · intro a b
    rw [reads_congr (node?_linkAll _ _ _ a), reads_redirect (nodeOf_renamed hp), reads_installed,
      reads_installed]
    by_cases ha : a = new.name
    · subst ha
      by_cases hc : new.name ∈ cs
      · -- Only a node that takes the old name itself is redirected, and to that same name.
        have heq : new.name = old := Classical.byContradiction fun h => hn h hc
        rw [heq] at hc ⊢
        by_cases hb : b = old
        · simp [hc, hb]
        · simp [hc, hb]
      · simp [hc]
    · by_cases hao : a = old
      · subst hao
        simp [ha]
      · simp [ha, hao]
  · intro a b
    rw [mem_consumers_linkAll, consumers_redirect, has_redirect, has_installed, installed,
      mem_consumers_place, mem_seated, mem_consumers_clear, Node.mem_producerNames]
    by_cases hb : b = new.name
    · simp [hb]
    · simp [hb]

end Replace

/-! ## Dropping feeders -/

/-- What `k` is to `g` when producers of `name` among `ps` were taken out that fed nothing else that
is still there. -/
structure Thins (name : String) (ps : List String) (g k : Graph) : Prop where
  node : ∀ y, k.has y = true → k.node? y = g.node? y
  stays : g.has name = true → k.has name = true
  consumers : ∀ a b, a ∈ k.consumers b ↔
    k.has b = true ∧ a ∈ g.consumers b ∧ ¬(¬k.has a = true ∧ g.Reads a b)
  dropped : ∀ y, g.has y = true → ¬k.has y = true →
    y ≠ name ∧ y ∈ ps ∧ ∀ a ∈ g.consumers y, a = name ∨ (a ≠ y ∧ ¬k.has a = true)

section Fold

variable {name p : String} {ps qs : List String} {k l : Graph}

theorem Thins.has_of_has (ht : Thins name ps g k) (hy : k.has y = true) : g.has y = true := by
  rw [has_eq_isSome, ← ht.node y hy, ← has_eq_isSome]
  exact hy

theorem Thins.reads (ht : Thins name ps g k) : k.Reads a b ↔ k.has a = true ∧ g.Reads a b := by
  refine ⟨?_, ?_⟩
  · intro hr
    exact ⟨hr.has, (reads_congr (ht.node a hr.has)).mp hr⟩
  · intro hboth
    obtain ⟨ha, hr⟩ := hboth
    exact (reads_congr (ht.node a ha)).mpr hr

theorem thins_refl (name : String) (g : Graph) : Thins name [] g g where
  node _ _ := rfl
  stays hn := hn
  consumers a b := by
    refine ⟨?_, ?_⟩
    · intro ha
      exact ⟨has_of_mem_consumers ha, ha, fun h => h.1 h.2.has⟩
    · exact fun ha => ha.2.1
  dropped y hg hk := absurd hg hk

theorem Thins.trans (ht : Thins name ps g k) (hu : Thins name qs k l) :
    Thins name (ps ++ qs) g l where
  node y hy := (hu.node y hy).trans (ht.node y (hu.has_of_has hy))
  stays hn := hu.stays (ht.stays hn)
  consumers a b := by
    have hl : l.has a = true → k.has a = true := hu.has_of_has
    rw [hu.consumers, ht.consumers, ht.reads]
    refine ⟨?_, ?_⟩
    · intro hboth
      obtain ⟨hb, ⟨-, ha, hg⟩, hk⟩ := hboth
      exact ⟨hb, ha, fun h => hk ⟨h.1, by_contra fun hka => hg ⟨hka, h.2⟩, h.2⟩⟩
    · intro hboth
      obtain ⟨hb, ha, hr⟩ := hboth
      exact ⟨hb, ⟨hu.has_of_has hb, ha, fun h => hr ⟨fun hla => h.1 (hl hla), h.2⟩⟩,
        fun h => hr ⟨h.1, h.2.2⟩⟩
  dropped y hg hy := by
    by_cases hk : k.has y = true
    · obtain ⟨hn, hm, hc⟩ := hu.dropped y hk hy
      refine ⟨hn, List.mem_append_right ps hm, fun a ha => ?_⟩
      by_cases hka : a ∈ k.consumers y
      · exact hc a hka
      · -- A consumer that is no longer recorded went away.
        right
        have hna : ¬k.has a = true := fun h =>
          hka ((ht.consumers a y).mpr ⟨hk, ha, fun hr => hr.1 h⟩)
        exact ⟨fun hay => hna (hay ▸ hk), fun hla => hna (hu.has_of_has hla)⟩
    · obtain ⟨hn, hm, hc⟩ := ht.dropped y hg hk
      refine ⟨hn, List.mem_append_left qs hm, fun a ha => ?_⟩
      exact (hc a ha).imp_right (.imp_right fun hka hla => hka (hu.has_of_has hla))

theorem feedsOnly_iff : g.feedsOnly p name = true ↔
    (∀ a ∈ g.consumers p, a = name) ∧ p ≠ name := by
  simp [feedsOnly]

theorem thins_detach (hf : g.feedsOnly p name = true) : Thins name [p] g (g.detach p) where
  node y hy := by rw [node?_detach, if_neg (has_detach.mp hy).1]
  stays hn := has_detach.mpr ⟨Ne.symm (feedsOnly_iff.mp hf).2, hn⟩
  consumers a b := by
    rw [mem_consumers_detach, has_detach, has_detach]
    refine ⟨?_, ?_⟩
    · intro hboth
      obtain ⟨hb, ha, hr⟩ := hboth
      refine ⟨⟨hb, has_of_mem_consumers ha⟩, ha, fun h => ?_⟩
      have hap : a = p := by_contra fun hne => h.1 ⟨hne, h.2.has⟩
      exact hr ⟨hap, hap ▸ h.2⟩
    · intro hboth
      obtain ⟨⟨hb, -⟩, ha, hr⟩ := hboth
      exact ⟨hb, ha, fun h => hr ⟨fun hd => hd.1 h.1, h.1 ▸ h.2⟩⟩
  dropped y hg hy := by
    have hyp : y = p := by_contra fun hne => hy (has_detach.mpr ⟨hne, hg⟩)
    obtain ⟨hc, hp⟩ := feedsOnly_iff.mp hf
    rw [hyp]
    exact ⟨hp, List.mem_singleton_self p, fun a ha => .inl (hc a ha)⟩

theorem dropFeeders_thins (name : String) (ps : List String) (g : Graph) :
    Thins name ps g (dropFeeders name ps g) := by
  induction ps generalizing g with
  | nil => exact thins_refl name g
  | cons p ps ih =>
    by_cases hf : g.feedsOnly p name = true
    · have hs : dropFeeders name (p :: ps) g = dropFeeders name ps (g.detach p) := by
        show dropFeeders name ps (if g.feedsOnly p name then g.detach p else g) = _
        rw [if_pos hf]
      rw [hs]
      exact (thins_detach hf).trans (ih (g.detach p))
    · have hs : dropFeeders name (p :: ps) g = dropFeeders name ps g := by
        show dropFeeders name ps (if g.feedsOnly p name then g.detach p else g) = _
        rw [if_neg hf]
      rw [hs]
      obtain ⟨hn, ht, hc, hd⟩ := ih g
      exact ⟨hn, ht, hc, fun y hg hy => (hd y hg hy).imp_right (.imp_left (List.mem_cons_of_mem p))⟩

/-- The graph without the producers of a node that feed nothing else. -/
def thinned (name : String) (g : Graph) : Graph :=
  dropFeeders name (((g.node? name).map Node.producerNames).getD []) g

theorem reads_of_dropped (hg : g.has y = true) (hy : ¬(thinned name g).has y = true) :
    g.Reads name y := by
  obtain ⟨-, hm, -⟩ := (dropFeeders_thins name _ g).dropped y hg hy
  cases hn : g.node? name with
  | none => simp [hn] at hm
  | some n =>
    rw [hn, Option.map_some, Option.getD_some, Node.mem_producerNames] at hm
    exact ⟨n, hn, hm⟩

theorem thinned_thins (name : String) (g : Graph) :
    Thins name (((g.node? name).map Node.producerNames).getD []) g (thinned name g) :=
  dropFeeders_thins name _ g

theorem collapse_supersedes {new : Node} (hp : Reference.isPlain new.name = true)
    (ho : g.has name = true) (hn : new.name ≠ name → new.name ∉ g.consumers name) :
    Supersedes new name (g.consumers name) (thinned name g) (collapse new name g) :=
  exchange_supersedes hp ((thinned_thins name g).stays ho) hn

end Fold

end Dataflow.Graph
