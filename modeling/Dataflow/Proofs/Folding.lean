import Dataflow.Proofs.Replacing

/- A fold takes out the constants that fed nothing else, one after the other, and then puts the
   new constant in the place of the node that they fed. The constants that go stand before or
   behind that node, may be named more than once or be waited for; those that something else
   reads are kept, as long as the new constant does not take the name of one of them.

   1. `not_has_thinned`, `nodes_thinned` and `consumers_thinned` tell which producers go, and
      what the rest loses.
   2. `fold_outcome` is the whole fold where the producers of the folded node read nothing:
      what it asks for, what it leaves, and that the graph stays consistent.
   3. `sharedConstant_kept_iff` allows for any cycles: a constant that something else reads is
      lost exactly to a new constant that takes its name, as in `sharedConstant_lost`. -/

namespace Dataflow.Graph

/-- What `h` is to `g` when `name` was folded into `new`. -/
structure Collapsed (new : Node) (name : String) (g h : Graph) : Prop where
  /-- The producers that nothing but the folded node consumed are gone. The new constant, without
  its inputs, has the slot of the folded node among the others. What named the folded node names the
  constant, through the same port and with the same control marker; nothing else is changed. -/
  nodes : h.nodes =
    (g.nodes.filter fun n => ¬(g.Reads name n.name ∧ g.consumers n.name = [name])).map fun n =>
      if n.name = name then { new with inputs := [] }
      else n.redirectInputs name fun r => Reference.render ⟨new.name, r.control, r.port⟩
  /-- The producers that something else consumes are what they were. -/
  producers : ∀ p n, g.Reads name p → g.consumers p ≠ [name] → g.node? p = some n →
    h.node? p = some n
  /-- The constant has the consumers of the folded node. -/
  consumers : h.consumers new.name = g.consumers name
  /-- Every other node has the consumers that it had, but for the folded node. -/
  others : ∀ y, h.has y = true → y ≠ new.name → h.consumers y = (g.consumers y).filter (· != name)

variable {g h : Graph} {new m : Node} {name p x y : String} {ps : List String}

/-! ## Consumers of the others -/

theorem consumers_clear {old : String} (hr : ∀ c ∈ g.consumers y, g.Reads c y)
    (hyn : y ≠ new.name) (hyo : y ≠ old) : (clear new old g).consumers y =
      (g.consumers y).filter fun c => c != new.name && c != old := by
  unfold clear vacate
  split
  · rename_i hno
    rw [consumers_detach_eq hyo (hr old), hno]
    simp only [Bool.and_self]
  · rename_i hno
    have hvacated : (g.detach new.name).consumers y =
        (g.consumers y).filter (· != new.name) := consumers_detach_eq hyn (hr new.name)
    rw [consumers_detach_eq hyo, hvacated, List.filter_filter]
    · simp only [Bool.and_comm]
    · intro hm
      exact reads_detach.mpr ⟨Ne.symm hno, hr old (mem_consumers_detach.mp hm).2.1⟩

/-- After an exchange any other node has lost the nodes that went away, and has the new one as its
last consumer if that reads it. -/
theorem consumers_exchange_other {old : String} {cs : List String} (ho : g.has old = true)
    (hy : g.has y = true) (hd : (g.consumers y).Nodup) (hr : ∀ c ∈ g.consumers y, g.Reads c y)
    (hyn : y ≠ new.name) (hyo : y ≠ old) : (exchange new old cs g).consumers y =
      ((g.consumers y).filter fun c => c != new.name && c != old)
        ++ if y ∈ new.inputNodes then [new.name] else [] := by
  obtain ⟨position, he⟩ := exchange_eq new cs ho
  have hinstalled : ((installed new old cs position g).redirect cs old
      (renamed new.name)).consumers y =
        (g.consumers y).filter fun c => c != new.name && c != old := by
    rw [consumers_redirect, installed, consumers_place]
    exact (if_neg hyn).trans (consumers_clear hr hyn hyo)
  have hhas : ((installed new old cs position g).redirect cs old (renamed new.name)).has y
      = true := by
    rw [has_redirect]
    exact has_installed.mpr (.inr ⟨hyo, hy⟩)
  rw [he, consumers_linkAll_of_not_mem hhas, hinstalled]
  · simp only [Node.mem_producerNames]
  · rw [hinstalled]
    exact hd.filter _
  · simp [hinstalled]

/-! ## Producers that go -/

theorem dropFeeders_cons (name p : String) (ps : List String) (g : Graph) :
    dropFeeders name (p :: ps) g =
      dropFeeders name ps (if g.feedsOnly p name then g.detach p else g) := rfl

/-- A listed producer that nothing but the folded node consumes goes, whichever go before it. -/
theorem not_has_dropFeeders (hy : y ∈ ps) (hne : y ≠ name) (hc : ∀ a ∈ g.consumers y, a = name) :
    ¬(dropFeeders name ps g).has y = true := by
  induction ps generalizing g with
  | nil => cases hy
  | cons p ps ih =>
    rw [dropFeeders_cons]
    rcases List.mem_cons.mp hy with rfl | hm
    · rw [if_pos (feedsOnly_iff.mpr ⟨hc, hne⟩)]
      exact fun hk => (has_detach.mp ((dropFeeders_thins name ps _).has_of_has hk)).1 rfl
    · refine ih hm fun a ha => hc a ?_
      split at ha
      · exact (mem_consumers_detach.mp ha).2.1
      · exact ha

theorem mem_producers_iff : p ∈ ((g.node? name).map Node.producerNames).getD [] ↔
    g.Reads name p := by
  unfold Reads
  cases g.node? name with
  | none => simp
  | some n => simp [Node.mem_producerNames]

theorem not_has_thinned (hr : g.Reads name y) (hne : y ≠ name)
    (hc : ∀ a ∈ g.consumers y, a = name) : ¬(thinned name g).has y = true :=
  not_has_dropFeeders (mem_producers_iff.mpr hr) hne hc

theorem names_dropFeeders (name : String) (ps : List String) (g : Graph) :
    (dropFeeders name ps g).names = g.names.filter fun y => (dropFeeders name ps g).has y := by
  induction ps generalizing g with
  | nil =>
    refine (List.filter_eq_self.mpr fun y hy => ?_).symm
    exact has_iff.mpr hy
  | cons p ps ih =>
    rw [dropFeeders_cons]
    split
    · rw [ih (g.detach p), names_detach, List.filter_filter]
      refine List.filter_congr fun y _ => ?_
      cases hy : (dropFeeders name ps (g.detach p)).has y with
      | false => rfl
      | true =>
        have hd := (dropFeeders_thins name ps (g.detach p)).has_of_has hy
        simpa using (has_detach.mp hd).1
    · exact ih g

theorem nodes_thinned (name : String) (g : Graph) :
    (thinned name g).nodes = g.nodes.filter fun n => (thinned name g).has n.name := by
  have ht := thinned_thins name g
  have hnames : (thinned name g).names =
      (g.names.filter fun y => (thinned name g).has y).map id := by
    rw [List.map_id]
    exact names_dropFeeders name _ g
  rw [nodes_eq_filterMap, hnames]
  refine (filterMap_node? (f := id) fun y n hn hy => ?_).trans (List.map_id _)
  rw [id_eq, ht.node y hy, hn]
  rfl

/-- A node that stays has the consumers that it had, if none of the listed producers was one. -/
theorem consumers_dropFeeders (hy : (dropFeeders name ps g).has y = true)
    (hc : ∀ p ∈ ps, p ∉ g.consumers y) : (dropFeeders name ps g).consumers y = g.consumers y := by
  induction ps generalizing g with
  | nil => rfl
  | cons p ps ih =>
    rw [dropFeeders_cons] at hy ⊢
    have hp : p ∉ g.consumers y := hc p List.mem_cons_self
    have hrest : ∀ q ∈ ps, q ∉ g.consumers y := fun q hq => hc q (List.mem_cons_of_mem p hq)
    by_cases hf : g.feedsOnly p name = true
    · rw [if_pos hf] at hy ⊢
      have hyp : y ≠ p := (has_detach.mp ((dropFeeders_thins name ps _).has_of_has hy)).1
      have hsame : (g.detach p).consumers y = g.consumers y := by
        rw [consumers_detach_eq hyp fun hm => absurd hm hp]
        exact List.filter_eq_self.mpr fun c hm => bne_iff_ne.mpr fun hcp => hp (hcp ▸ hm)
      rw [ih hy (hsame ▸ hrest), hsame]
    · rw [if_neg hf] at hy ⊢
      exact ih hy hrest

/-! ## What a fold leaves -/

theorem fold_eq_ok : fold new name g = (.ok (), h) ↔
    checkFold new.bare name g = .ok () ∧ h = collapse new.bare name g := Edit.guarded_eq_ok

/-- The constant has no inputs that could be redirected. -/
theorem node?_collapse_new (hn : Reference.isPlain new.name = true) (hx : g.has name = true) :
    (collapse new.bare name g).node? new.name = some new.bare := by
  have ho := (thinned_thins name g).stays hx
  refine (@node?_exchange_listed _ new.bare name hn ho (g.consumers name) new.name).trans ?_
  rw [if_pos (show new.name = new.bare.name from rfl), Option.map_some]
  split <;> rfl

theorem node?_collapse_kept (hn : Reference.isPlain new.name = true) (hx : g.has name = true)
    (hk : (thinned name g).has y = true) (hyn : y ≠ new.name) (hyo : y ≠ name) :
    (collapse new.bare name g).node? y = (g.node? y).map fun n =>
      if y ∈ g.consumers name then n.redirectInputs name (renamed new.name) else n := by
  have ht := thinned_thins name g
  refine (@node?_exchange_listed _ new.bare name hn (ht.stays hx) (g.consumers name) y).trans ?_
  rw [if_neg (show y ≠ new.bare.name from hyn), if_neg hyo, ht.node y hk]
  rfl

section Outcome

variable (hg : g.Recorded) (hr : g.ConsumersReferring)
  (hfeed : ∀ p, g.Reads name p → g.inputs p = [])

include hfeed in
theorem not_reads_of_feeder (hp : g.Reads name p) : ¬g.Reads p y := by
  rintro ⟨n, hn, hy⟩
  have hempty : n.inputs = [] := by
    have hi := hfeed p hp
    rw [inputs, hn] at hi
    exact hi
  rw [Node.inputNodes, hempty] at hy
  cases hy

include hg hr hfeed in
theorem has_thinned_iff : (thinned name g).has y = true ↔
    g.has y = true ∧ ¬(g.Reads name y ∧ g.consumers y = [name]) := by
  have ht := thinned_thins name g
  have hself : ¬g.Reads name name := fun hn => not_reads_of_feeder hfeed hn hn
  constructor
  · intro hk
    refine ⟨ht.has_of_has hk, fun hboth => ?_⟩
    obtain ⟨hread, hc⟩ := hboth
    refine not_has_thinned hread (fun hy => hself (hy ▸ hread)) (fun a ha => ?_) hk
    exact List.mem_singleton.mp (hc ▸ ha)
  · rintro ⟨hy, hnot⟩
    refine by_contra fun hk => hnot ?_
    have hread : g.Reads name y := reads_of_dropped hy hk
    -- A consumer that went too would be a producer of the folded node that reads something.
    have hall : ∀ a ∈ g.consumers y, a = name := by
      intro a ha
      refine ((ht.dropped y hy hk).2.2 a ha).resolve_right fun hgone => ?_
      have hay : g.Reads a y := consumersReferring_iff.mp hr a y ha
      exact not_reads_of_feeder hfeed (reads_of_dropped hay.has hgone.2) hay
    have hm : name ∈ g.consumers y := hg.presentInputsRecorded name y hread hy
    refine ⟨hread, List.perm_singleton.mp ?_⟩
    refine (List.perm_ext_iff_of_nodup (hg.consumersDistinct.nodup_consumers y)
      (by simp)).mpr fun a => ?_
    rw [List.mem_singleton]
    exact ⟨hall a, fun ha => ha ▸ hm⟩

include hr hfeed in
theorem consumers_thinned (hy : (thinned name g).has y = true) :
    (thinned name g).consumers y = g.consumers y := by
  refine consumers_dropFeeders hy fun p hp hm => ?_
  exact not_reads_of_feeder hfeed (mem_producers_iff.mp hp) (consumersReferring_iff.mp hr p y hm)

include hr hfeed in
theorem not_mem_consumers_of_name (hname : new.name = name ∨ ¬g.has new.name = true) :
    new.name ∉ g.consumers name := by
  intro hm
  have hread : g.Reads new.name name := consumersReferring_iff.mp hr _ _ hm
  rcases hname with heq | hnot
  · rw [heq] at hread
    exact not_reads_of_feeder hfeed hread hread
  · exact hnot hread.has

include hg hr hfeed in
theorem nodes_collapse (hn : Reference.isPlain new.name = true) (hx : g.has name = true)
    (hname : new.name = name ∨ ¬g.has new.name = true) : (collapse new.bare name g).nodes =
      (g.nodes.filter fun n => ¬(g.Reads name n.name ∧ g.consumers n.name = [name])).map fun n =>
        if n.name = name then new.bare else n.redirectInputs name (renamed new.name) := by
  have ht := thinned_thins name g
  have hexchange : (collapse new.bare name g).nodes =
      ((thinned name g).nodes.filter fun n => n.name == name || n.name != new.name).map fun n =>
        if n.name = name then new.bare else n.redirectInputs name (renamed new.name) := by
    refine @nodes_exchange _ new.bare name _ hn (ht.stays hx)
      (not_mem_consumers_of_name hr hfeed hname) fun c hc => .inr ?_
    exact hg.presentInputsRecorded c name (ht.reads.mp hc).2 hx
  rw [hexchange, nodes_thinned, List.filter_filter]
  congr 1
  refine List.filter_congr fun n hmem => ?_
  have hhas : g.has n.name = true := by
    rw [has_iff, ← map_name_nodes]
    exact List.mem_map_of_mem hmem
  -- No node but the folded one has the name of the constant.
  have hother : (n.name == name || n.name != new.name) = true := by
    rcases hname with heq | hnot
    · by_cases hnn : n.name = name <;> simp [hnn, heq]
    · simp [show n.name ≠ new.name from fun heq => hnot (heq ▸ hhas)]
  rw [hother, Bool.true_and, Bool.eq_iff_iff, has_thinned_iff hg hr hfeed, decide_eq_true_iff,
    and_iff_right hhas]

omit hr hfeed in
include hg in
theorem consumers_collapse_new (hx : g.has name = true)
    (hname : new.name = name ∨ ¬g.has new.name = true) :
    (collapse new.bare name g).consumers new.name = g.consumers name := by
  have ht := thinned_thins name g
  -- There is no third node that has the name of the constant.
  have hthird : (if new.name = name then []
      else (thinned name g).inherited new.name (some name)) = [] := by
    split
    · rfl
    · rename_i hne
      refine List.eq_nil_iff_forall_not_mem.mpr fun c hc => ?_
      have hk : (thinned name g).has new.name = true :=
        has_of_mem_consumers (mem_inherited.mp hc).1
      exact hname.elim hne fun hnot => hnot (ht.has_of_has hk)
  have hseated : seated new.bare name (g.consumers name) (thinned name g) = g.consumers name := by
    show g.consumers name ++ (if new.name = name then []
      else (thinned name g).inherited new.name (some name)) = _
    rw [hthird, List.append_nil]
  calc (collapse new.bare name g).consumers new.name
      = (seated new.bare name (g.consumers name) (thinned name g)
          ++ if new.name ∈ new.bare.inputNodes then [new.name] else []).eraseDups :=
        @consumers_exchange_new _ new.bare name _ (ht.stays hx)
    _ = (g.consumers name).eraseDups := by
        rw [hseated, if_neg (show new.name ∉ new.bare.inputNodes from List.not_mem_nil),
          List.append_nil]
    _ = g.consumers name := eraseDups_of_nodup (hg.consumersDistinct.nodup_consumers name)

include hg hr hfeed in
theorem consumers_collapse_other (hn : Reference.isPlain new.name = true) (hx : g.has name = true)
    (hname : new.name = name ∨ ¬g.has new.name = true)
    (hy : (collapse new.bare name g).has y = true) (hyn : y ≠ new.name) :
    (collapse new.bare name g).consumers y = (g.consumers y).filter (· != name) := by
  have ht := thinned_thins name g
  have hs : Supersedes new.bare name (g.consumers name) (thinned name g) _ :=
    collapse_supersedes hn hx fun _ => not_mem_consumers_of_name hr hfeed hname
  obtain ⟨hyo, hk⟩ := ((hs.has y).mp hy).resolve_left hyn
  have hsame : (thinned name g).consumers y = g.consumers y := consumers_thinned hr hfeed hk
  have hread : ∀ c ∈ (thinned name g).consumers y, (thinned name g).Reads c y :=
    fun c hc => consumersReferring_iff.mp (referring_thinned hr name) c y hc
  -- The constant reads nothing, and no node has its name but the folded one.
  have hfree : ∀ c ∈ g.consumers y, c ≠ name → c ≠ new.name := by
    intro c hc hcn hcnew
    have hgc : g.has c = true := (consumersReferring_iff.mp hr c y hc).has
    exact hname.elim (fun heq => hcn (hcnew.trans heq)) fun hnot => hnot (hcnew ▸ hgc)
  calc (collapse new.bare name g).consumers y
      = ((thinned name g).consumers y).filter (fun c => c != new.name && c != name) := by
        have he := @consumers_exchange_other _ new.bare y name (g.consumers name)
          (ht.stays hx) hk (hsame ▸ hg.consumersDistinct.nodup_consumers y) hread hyn hyo
        refine he.trans ?_
        rw [if_neg (show y ∉ new.bare.inputNodes from List.not_mem_nil), List.append_nil]
        rfl
    _ = (g.consumers y).filter (· != name) := by
        rw [hsame]
        refine List.filter_congr fun c hc => ?_
        by_cases hcn : c = name
        · simp [hcn]
        · simp [hcn, hfree c hc hcn]

include hg hr hfeed in
theorem collapse_collapsed (hn : Reference.isPlain new.name = true) (hx : g.has name = true)
    (hname : new.name = name ∨ ¬g.has new.name = true) :
    Collapsed new name g (collapse new.bare name g) where
  nodes := nodes_collapse hg hr hfeed hn hx hname
  producers p n hread hc hp := by
    have ht := thinned_thins name g
    have hk : (thinned name g).has p = true :=
      (has_thinned_iff hg hr hfeed).mpr ⟨has_of_node? hp, fun hboth => hc hboth.2⟩
    have hself : ¬g.Reads name name := fun hn => not_reads_of_feeder hfeed hn hn
    have hpo : p ≠ name := fun heq => hself (heq ▸ hread)
    have hpn : p ≠ new.name := by
      rintro rfl
      exact hname.elim hpo fun hnot => hnot (has_of_node? hp)
    have hlisted : p ∉ g.consumers name :=
      fun hm => not_reads_of_feeder hfeed hread (consumersReferring_iff.mp hr p name hm)
    rw [node?_collapse_kept hn hx hk hpn hpo, hp, Option.map_some, if_neg hlisted]
  consumers := consumers_collapse_new hg hx hname
  others _ := consumers_collapse_other hg hr hfeed hn hx hname

end Outcome

/-! ## Folding -/

/-- A node that does not read itself can be replaced by a constant of its name or of a free one, if
its inputs name constants. -/
theorem checkFold_bare_eq_ok (hr : g.ConsumersReferring)
    (hself : ¬g.Reads name name) (hx : g.has name = true)
    (hname : new.name = name ∨ ¬g.has new.name = true) : checkFold new.bare name g = .ok () ↔
      new.isConstant = true ∧
        ∀ p, g.Reads name p → ∃ m, g.node? p = some m ∧ m.isConstant = true := by
  obtain ⟨n, hnode⟩ := has_iff_exists.mp hx
  have hread : ∀ c ∈ g.consumers name, g.Reads c name :=
    fun c => consumersReferring_iff.mp hr c name
  have hreplace : checkReplace new.bare name (g.consumers name) g = .ok () := by
    refine checkReplace_eq_ok.mpr ⟨hx, fun c hc => ⟨fun hne => ⟨?_, ?_⟩, hread c hc⟩, ?_, ?_⟩
    · rintro rfl
      exact hname.elim hne fun hnot => hnot (hread _ hc).has
    · rintro rfl
      exact hself (hread _ hc)
    · exact fun c hc => .inr hc
    · exact fun p hp => absurd hp List.not_mem_nil
  rw [checkFold_eq_ok, hnode]
  simp only [Option.some.injEq, exists_eq_left', reads_iff hnode, hreplace, and_true]
  rfl

/-- On a consistent graph with plain names, a node none of whose producers takes an input is folded
into a constant of its own name or of a free one exactly if that is a constant and every input of
the node names a constant. What is left is the graph with the node folded, and it is consistent. -/
theorem fold_outcome (hk : g.check = .ok ()) (hp : g.PlainNames) (hd : g.ConsumersDistinct)
    (hx : g.has name = true) (hfeed : ∀ p, g.Reads name p → g.inputs p = [])
    (hn : Reference.isPlain new.name = true)
    (hname : new.name = name ∨ ¬g.has new.name = true) :
    ((∃ h, fold new name g = (.ok (), h)) ↔ new.isConstant = true ∧
      ∀ p, g.Reads name p → ∃ m, g.node? p = some m ∧ m.isConstant = true) ∧
    ∀ h, fold new name g = (.ok (), h) → Collapsed new name g h ∧ h.check = .ok () := by
  have hg : g.Recorded := recorded_of_check hk hp hd
  have hr : g.ConsumersReferring := (check_eq_ok_iff.mp hk).2
  have hself : ¬g.Reads name name := fun hread => not_reads_of_feeder hfeed hread hread
  constructor
  · rw [← checkFold_bare_eq_ok hr hself hx hname]
    exact Edit.exists_guarded_eq_ok
  · intro h hs
    obtain ⟨hc, rfl⟩ := fold_eq_ok.mp hs
    have hm : Command.Moves (.fold new name) g (collapse new.bare name g) := .fold hc
    have hstrands : ¬g.Strands (.fold new name) := by
      rintro (hmem | ⟨a, ha, hgone⟩)
      · have hread : g.Reads new.name new.name := consumersReferring_iff.mp hr _ _ hmem
        exact hname.elim (fun heq => hself (heq ▸ hread)) fun hnot => hnot hread.has
      · -- A consumer that went away as a producer would read something.
        have hread : g.Reads a name := consumersReferring_iff.mp hr a name ha
        exact not_reads_of_feeder hfeed (reads_of_dropped hread.has hgone) hread
    refine ⟨collapse_collapsed hg hr hfeed hn hx hname, ?_⟩
    refine hm.check ⟨trivial, fun n hnode => ?_⟩ hg hr hstrands
    cases hnode
    exact hn

/-- A product that reads a constant of its own twice, waits for another one behind it, and shares a
third one with its reader. -/
def productNodes : List Node :=
  [.make "Const" "own" [], .make "Const" "shared" [],
    .make "Mul" "product" ["own", "shared:1", "^late", "own:2"],
    .make "Add" "out" ["product:2", "^product", "shared"], .make "HostConst" "late" []]

def result : Node := .make "HostConst" "result" ["ghost", "^ghost"]

theorem fold_outcome_productNodes :
    ∃ h, fold result "product" (build productNodes) = (.ok (), h) ∧
      h.nodes = [.make "Const" "shared" [], .make "HostConst" "result" [],
        .make "Add" "out" ["result:2", "^result", "shared"]] ∧
      h.consumers "result" = ["out"] ∧ h.consumers "shared" = ["out"] ∧ h.check = .ok () := by
  have hproduct : (build productNodes).node? "product" =
      some (.make "Mul" "product" ["own", "shared:1", "^late", "own:2"]) := by decide
  obtain ⟨hiff, hout⟩ := @fold_outcome (build productNodes) result "product" rfl
    (build_plainNames (by decide)) (build_consumersDistinct _) rfl
    (fun p hread => by
      rw [reads_iff hproduct] at hread
      revert p
      decide) (by decide) (by decide)
  obtain ⟨h, hs⟩ := hiff.mpr ⟨rfl, fun p hread => by
    rw [reads_iff hproduct] at hread
    have hconstant : ∀ q ∈ Node.inputNodes (.make "Mul" "product"
        ["own", "shared:1", "^late", "own:2"]), ∃ m, m ∈ (build productNodes).node? q ∧
          m.isConstant = true := by decide
    exact hconstant p hread⟩
  obtain ⟨hfolded, hcheck⟩ := hout h hs
  have hshared : h.node? "shared" = some (.make "Const" "shared" []) :=
    hfolded.producers "shared" _ (by decide) (by decide) (by decide)
  refine ⟨h, hs, hfolded.nodes.trans (by decide), hfolded.consumers.trans (by decide), ?_, hcheck⟩
  exact (hfolded.others "shared" (has_of_node? hshared) (by decide)).trans (by decide)

/-! ## Constants that something else reads -/

/-- A constant that a folded node and a node that stays both read is still there with its operation
and attributes, and read by that node, exactly if the new constant does not take its name or has the
same operation and attributes. A node whose name the new constant takes does not stay. -/
theorem sharedConstant_kept_iff (hk : g.check = .ok ()) (hn : Reference.isPlain new.name = true)
    (hf : fold new name g = (.ok (), h)) (hm : g.node? p = some m) (hread : g.Reads name p)
    (hx : g.Reads x p) (hxn : x ≠ name) (hstays : h.has x = true) (hxnew : x ≠ new.name) :
    ((∃ k, h.node? p = some k ∧ k.op = m.op ∧ k.attributes = m.attributes) ∧ h.Reads x p) ↔
      (new.name = p → new.op = m.op ∧ new.attributes = m.attributes) := by
  obtain ⟨hc, rfl⟩ := fold_eq_ok.mp hf
  obtain ⟨-, -, hcheck⟩ := checkFold_eq_ok.mp hc
  obtain ⟨ho, hlisted, -⟩ := checkReplace_eq_ok.mp hcheck
  obtain ⟨hclosed, hrecorded⟩ := inputsRecorded_iff.mp (check_eq_ok_iff.mp hk).1
  have ht := thinned_thins name g
  have hs : Supersedes new.bare name (g.consumers name) (thinned name g) _ :=
    Command.supersedes_of_checkFold hn hc
  have hkx : (thinned name g).has x = true := (((hs.has x).mp hstays).resolve_left hxnew).2
  have hkread : (thinned name g).Reads x p := ht.reads.mpr ⟨hkx, hx⟩
  -- A node that reads itself and is folded has to keep its name.
  have hloop : p = name → new.name = name := by
    rintro rfl
    refine by_contra fun hne => ?_
    exact ((hlisted p (hrecorded p p hread ho)).1 hne).2 rfl
  have hreads : (collapse new.bare name g).Reads x p := by
    by_cases hpn : p = name
    · have hnew := hs.reads_listed hxnew hxn (hrecorded x name (hpn ▸ hx) ho) (hpn ▸ hkread)
      rwa [show new.bare.name = p from (hloop hpn).trans hpn.symm] at hnew
    · exact hs.reads_kept hxnew hxn hkread fun hboth => hpn hboth.1
  rw [and_iff_left hreads]
  by_cases hp : new.name = p
  · subst hp
    have hnode := node?_collapse_new hn ho
    constructor
    · rintro ⟨k, hnew, hop, hattributes⟩ -
      cases hnew.symm.trans hnode
      exact ⟨hop, hattributes⟩
    · exact fun hsame => ⟨new.bare, hnode, hsame rfl⟩
  · have hpn : p ≠ name := fun hpn => hp ((hloop hpn).trans hpn.symm)
    have hkp : (thinned name g).has p = true := has_thinned hclosed hrecorded hkread hxn
    have hnode := node?_collapse_kept hn ho hkp (Ne.symm hp) hpn
    rw [hm, Option.map_some] at hnode
    refine iff_of_true ⟨_, hnode, ?_⟩ fun heq => absurd heq hp
    split <;> exact ⟨rfl, rfl⟩

/-- A constant that reads itself and one that waits for it, and a node that reads both. -/
def spinningNodes : List Node :=
  [.make "Const" "spin" ["spin:1", "shared"], .make "Const" "shared" ["^spin"],
    .make "Add" "out" ["shared", "spin", "shared:2"]]

/-- The constant that waits for the folded one is kept, since it is read by a third node. -/
theorem sharedConstant_kept_spinningNodes :
    ∃ h, fold (.make "HostConst" "spin" []) "spin" (build spinningNodes) = (.ok (), h) ∧
      (∃ k, h.node? "shared" = some k ∧ k.op = "Const" ∧ k.attributes = .empty) ∧
        h.Reads "out" "shared" := by
  have hs : fold (.make "HostConst" "spin" []) "spin" (build spinningNodes) = (.ok (), _) :=
    fold_eq_ok.mpr ⟨rfl, rfl⟩
  have hkept := @sharedConstant_kept_iff (build spinningNodes) _ (.make "HostConst" "spin" [])
    (.make "Const" "shared" ["^spin"]) "spin" "shared" "out" rfl (by decide) hs (by decide)
    (by decide) (by decide) (by decide) (by decide) (by decide)
  exact ⟨_, hs, hkept.mpr fun heq => absurd heq (by decide)⟩

/-- A constant that a product shares with another node. -/
def sharedNodes : List Node :=
  [.make "Const" "a" [], .make "Const" "b" [], .make "Mul" "product" ["a", "b"],
    .make "Relu" "other" ["a"]]

/-- A constant that is not refused when its name is that of a constant that is to be kept: the other
node now reads the result of the product. -/
theorem sharedConstant_lost :
    ¬∀ (g h : Graph) (new m : Node) (name p x : String), g.check = .ok () → g.PlainNames →
      Reference.isPlain new.name = true → fold new name g = (.ok (), h) → g.node? p = some m →
        m.isConstant = true → g.Reads name p → g.Reads x p → x ≠ name → h.has x = true →
          x ≠ new.name →
            (∃ k, h.node? p = some k ∧ k.op = m.op ∧ k.attributes = m.attributes) ∧
              h.Reads x p := by
  intro hall
  obtain ⟨⟨k, hk, hop, -⟩, -⟩ := hall (build sharedNodes) _ (.make "HostConst" "a" [])
    (.make "Const" "a" []) "product" "a" "other" rfl (build_plainNames (by decide)) (by decide)
    (fold_eq_ok.mpr ⟨rfl, rfl⟩) (by decide) rfl (by decide) (by decide) (by decide) (by decide)
    (by decide)
  have hnode := @node?_collapse_new (build sharedNodes) (.make "HostConst" "a" []) "product"
    (by decide) (by decide)
  cases hk.symm.trans hnode
  revert hop
  decide

end Dataflow.Graph
