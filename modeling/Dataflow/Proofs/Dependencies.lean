import Dataflow.Proofs.PipelineValues
import Dataflow.Proofs.Splicing

/- A node depends on another one if a chain of inputs leads there, data and control inputs alike.
   A pipeline cuts some chains: a constant that a node was folded into has no inputs, and of an
   identity that was spliced out only the first input is passed on. Which links it keeps can be
   told from the graphs before and after it (`Graph.Kept`), and a chain survives exactly if all
   its links are kept (`Simplifies.transGen_kept`).

   In graphs that are `Tidy` nothing is lost but chains to constants. `standard_run_transGen`
   says both of the standard pipeline, `standard_run_loses_dependency` has a chain that is cut. -/

namespace Dataflow

open Relation (TransGen)

/-! ## Bypassing a point of a relation -/

/-- In `S` what `R` led to `x` leads to where `x` led. -/
def Bypasses {α : Type} (x : α) (R S : α → α → Prop) : Prop :=
  ∀ u v, u ≠ x → (S u v ↔ v ≠ x ∧ (R u v ∨ R u x ∧ R x v))

section Bypasses

variable {α : Type} {x a b : α} {R S : α → α → Prop}

/-- A chain in `S` that starts elsewhere never comes to the point, and is one in `R`. -/
theorem Bypasses.transGen_of (hs : Bypasses x R S) (ha : a ≠ x) (hc : TransGen S a b) :
    TransGen R a b ∧ b ≠ x := by
  have hstep : ∀ u v, u ≠ x → S u v → TransGen R u v ∧ v ≠ x := by
    intro u v hu huv
    obtain ⟨hv, hr | ⟨hux, hxv⟩⟩ := (hs u v hu).mp huv
    · exact ⟨.single hr, hv⟩
    · exact ⟨.tail (.single hux) hxv, hv⟩
  induction hc with
  | single hac => exact hstep a _ ha hac
  | tail _ hcd ih =>
    obtain ⟨hc, hcx⟩ := ih
    obtain ⟨hd, hdx⟩ := hstep _ _ hcx hcd
    exact ⟨hc.trans hd, hdx⟩

/-- Where a chain in `R` stands at the point, a chain in `S` goes to whatever the point leads to. -/
theorem Bypasses.transGen_to (hs : Bypasses x R S) (ha : a ≠ x) (hc : TransGen R a b) :
    (b ≠ x → TransGen S a b) ∧ (b = x → ∀ v, v ≠ x → R x v → TransGen S a v) := by
  induction hc with
  | single hac =>
    refine ⟨fun hcx => .single ?_, fun hcx v hv hxv => .single ?_⟩
    · exact (hs a _ ha).mpr ⟨hcx, .inl hac⟩
    · exact (hs a v ha).mpr ⟨hv, .inr ⟨hcx ▸ hac, hxv⟩⟩
  | @tail c d _ hcd ih =>
    by_cases hcx : c = x
    · exact ⟨fun hdx => ih.2 hcx d hdx (hcx ▸ hcd), fun _ => ih.2 hcx⟩
    · refine ⟨fun hdx => (ih.1 hcx).tail ?_, fun hdx v hv hxv => (ih.1 hcx).tail ?_⟩
      · exact (hs c d hcx).mpr ⟨hdx, .inl hcd⟩
      · exact (hs c v hcx).mpr ⟨hv, .inr ⟨hdx ▸ hcd, hxv⟩⟩

theorem Bypasses.transGen_iff (hs : Bypasses x R S) (ha : a ≠ x) (hb : b ≠ x) :
    TransGen S a b ↔ TransGen R a b :=
  ⟨fun hc => (hs.transGen_of ha hc).1, fun hc => (hs.transGen_to ha hc).1 hb⟩

end Bypasses

namespace Graph

open Pass.FoldBinaryConstants

variable {g h k : Graph} {a b u w name primary : String} {n c : Node}

/-! ## Nodes as others see them -/

/-- The operation of a node, and the nodes that its inputs name. -/
def outline (g : Graph) (a : String) : Option (String × List String) :=
  (g.node? a).map fun n => (n.op, n.inputNodes)

theorem reads_iff_outline : g.Reads a b ↔ ∃ o, g.outline a = some o ∧ b ∈ o.2 := by
  unfold Reads outline
  cases g.node? a <;> simp

theorem namesNonConstant_eq_outline (g : Graph) (a : String) : g.namesNonConstant a =
    ((g.outline a).map fun o => !Op.isConstant o.1).getD false := by
  unfold namesNonConstant outline
  cases g.node? a <;> rfl

theorem inputNodes_redirectInputs {p q : String} {t : Reference → String}
    (ht : ∀ r, Reference.nodeOf (t r) = q) (n : Node) :
    (n.redirectInputs p t).inputNodes = n.inputNodes.map fun x => if x = p then q else x := by
  simp only [Node.inputNodes, Node.redirectInputs, List.map_map]
  exact List.map_congr_left fun i _ => nodeOf_redirectInput ht i

theorem outline_bypass (hg : g.Sound) (hc : checkSplice name g = .ok primary) (ha : a ≠ name) :
    (bypass name primary g).outline a = (g.outline a).map fun o =>
      (o.1, o.2.map fun x => if x = name then Reference.nodeOf primary else x) := by
  have hp := hg.plainNames _ (has_primary hc)
  rw [outline, node?_bypass_kept hg.toRecorded (reads_primary hc).has ha, outline]
  cases g.node? a with
  | none => rfl
  | some n =>
    simp only [Option.map_some, Option.some.injEq]
    rw [inputNodes_redirectInputs (nodeOf_pastSplice hp)]
    rfl

theorem outline_collapse (hg : g.Sound) (hn : g.node? name = some n) (hname : c.name = name)
    (ha : a ≠ name) : (collapse c.bare name g).outline a = (thinned name g).outline a := by
  have hp := hg.plainNames name (has_of_node? hn)
  rw [outline, node?_collapse hg.consumersDistinct hname (has_of_node? hn), if_neg ha, outline]
  cases (thinned name g).node? a with
  | none => rfl
  | some m =>
    simp only [Option.map_some, Option.some.injEq]
    split
    · rw [inputNodes_redirectInputs (nodeOf_renamed hp)]
      refine Prod.ext rfl ((List.map_congr_left fun x _ => ?_).trans (List.map_id _))
      split
      · rename_i hx
        exact hx.symm
      · rfl
    · rfl

/-- The node `a` is an identity whose first input names `b`. -/
def Forwards (g : Graph) (a b : String) : Prop :=
  ∃ n, g.node? a = some n ∧ n.op ∈ Op.identities ∧ n.inputNodes.head? = some b

theorem Forwards.reads (hf : g.Forwards a b) : g.Reads a b := by
  obtain ⟨n, hn, -, hb⟩ := hf
  exact ⟨n, hn, List.mem_of_mem_head? hb⟩

theorem forwards_iff_outline : g.Forwards a b ↔
    ∃ o, g.outline a = some o ∧ o.1 ∈ Op.identities ∧ o.2.head? = some b := by
  unfold Forwards outline
  cases g.node? a <;> simp

/-! ## What a splice does to links -/

theorem mem_map_past {l : List String} {x t v : String} :
    v ∈ l.map (fun y => if y = x then t else y) ↔ v ∈ l ∧ v ≠ x ∨ x ∈ l ∧ v = t := by
  induction l with
  | nil => simp
  | cons y l ih =>
    rw [List.map_cons, List.mem_cons, ih, List.mem_cons, List.mem_cons]
    by_cases hy : y = x <;> grind

theorem head?_map_past {l : List String} {x t v : String} :
    (l.map fun y => if y = x then t else y).head? = some v ↔
      l.head? = some v ∧ v ≠ x ∨ l.head? = some x ∧ v = t := by
  cases l with
  | nil => simp
  | cons y l => by_cases hy : y = x <;> grind

section Splice

variable (hg : g.Sound) (hc : checkSplice name g = .ok primary)

include hg hc

theorem reads_bypass_iff (ha : a ≠ name) : (bypass name primary g).Reads a b ↔
    g.Reads a b ∧ b ≠ name ∨ g.Reads a name ∧ b = Reference.nodeOf primary := by
  simp only [reads_iff_outline, outline_bypass hg hc ha]
  cases g.outline a <;> simp [mem_map_past]

theorem forwards_bypass_iff (ha : a ≠ name) : (bypass name primary g).Forwards a b ↔
    g.Forwards a b ∧ b ≠ name ∨ g.Forwards a name ∧ b = Reference.nodeOf primary := by
  simp only [forwards_iff_outline, outline_bypass hg hc ha]
  cases g.outline a with
  | none => simp
  | some o =>
    simp only [Option.map_some, Option.some.injEq, exists_eq_left', head?_map_past, and_or_left,
      and_assoc]

theorem namesNonConstant_bypass (ha : a ≠ name) :
    (bypass name primary g).namesNonConstant a = g.namesNonConstant a := by
  simp only [namesNonConstant_eq_outline, outline_bypass hg hc ha]
  cases g.outline a <;> rfl

end Splice

theorem forwards_spliced (hc : checkSplice name g = .ok primary) (hn : g.node? name = some n)
    (hid : n.op ∈ Op.identities) : g.Forwards name b ↔ b = Reference.nodeOf primary := by
  obtain ⟨m, hm, -, -, hhead, -⟩ := checkSplice_eq_ok.mp hc
  cases hn.symm.trans hm
  have hfirst : n.inputNodes.head? = some (Reference.nodeOf primary) := by
    rw [Node.inputNodes, List.head?_map, hhead]
    rfl
  refine ⟨?_, ?_⟩
  · intro hex
    obtain ⟨l, hl, -, hb⟩ := hex
    cases hn.symm.trans hl
    exact Option.some.inj (hb.symm.trans hfirst)
  · rintro rfl
    exact ⟨n, hn, hid, hfirst⟩

theorem primary_ne (hc : checkSplice name g = .ok primary) : Reference.nodeOf primary ≠ name := by
  obtain ⟨-, -, -, -, -, -, hne, -⟩ := checkSplice_eq_ok.mp hc
  exact hne

/-! ## What a fold does to links -/

section Fold

variable (hg : g.Sound) (hn : g.node? name = some n) (hf : folded? g n = .ok (some c))

include hg hn hf

theorem not_namesNonConstant_folded : ¬(collapse c.bare name g).namesNonConstant name = true := by
  intro hnc
  obtain ⟨m, hm, hmc⟩ := namesNonConstant_iff.mp hnc
  cases (node?_folded hg.consumersDistinct hn hf).symm.trans hm
  exact absurd (isConstant_of_folded hf) (by simp [hmc])

theorem not_reads_folded : ¬(collapse c.bare name g).Reads name b := by
  intro hr
  obtain ⟨m, hm, hb⟩ := hr
  cases (node?_folded hg.consumersDistinct hn hf).symm.trans hm
  cases hb

theorem outline_of_namesNonConstant (ha : a ≠ name) (hnc : g.namesNonConstant a = true) :
    (collapse c.bare name g).outline a = g.outline a := by
  have hka := has_thinned_of_namesNonConstant hn hf hnc
  rw [outline_collapse hg hn (name_of_folded hn hf) ha, outline, outline,
    (thinned_thins name g).node a hka]

theorem namesNonConstant_collapse (ha : a ≠ name) :
    (collapse c.bare name g).namesNonConstant a = true ↔ g.namesNonConstant a = true := by
  refine ⟨?_, ?_⟩
  · exact (ages_collapse hg.consumersDistinct hn hf).namesNonConstant
  · intro hnc
    rw [namesNonConstant_eq_outline, outline_of_namesNonConstant hg hn hf ha hnc,
      ← namesNonConstant_eq_outline]
    exact hnc

theorem reads_of_reads_collapse (hr : (collapse c.bare name g).Reads a b) :
    g.Reads a b :=
  reads_collapse hg (name_of_folded hn hf) (hg.workable.checkFold hn hf) hr

end Fold

/-! ## Links that are kept -/

/-- The node `a` is a constant in `h`, but not yet in `g`. -/
def Folded (g h : Graph) (a : String) : Prop :=
  g.namesNonConstant a = true ∧ h.has a = true ∧ h.namesNonConstant a = false

/-- The node `a` reads `b` in `g`, and a run that ends in `h` keeps this link: either `a` is still
there and has not been folded, or it was an identity and `b` stood first. -/
def Kept (g h : Graph) (a b : String) : Prop :=
  g.Reads a b ∧ (h.has a = true ∧ ¬g.Folded h a ∨ ¬h.has a = true ∧ g.Forwards a b)

theorem kept_of_has (ha : h.has a = true) : g.Kept h a b ↔ g.Reads a b ∧ ¬g.Folded h a := by
  simp only [Kept, ha, true_and, not_true, false_and, or_false]

theorem kept_of_not_has (ha : ¬h.has a = true) : g.Kept h a b ↔ g.Forwards a b := by
  simp only [Kept, ha, Bool.false_eq_true, not_false_eq_true, true_and, false_and, false_or]
  exact and_iff_right_of_imp Forwards.reads

theorem kept_self : h.Kept h a b ↔ h.Reads a b := by
  have hf : ¬h.Folded h a := by
    intro hf
    obtain ⟨hc, -, hn⟩ := hf
    exact absurd hc (by simp [hn])
  refine ⟨And.left, fun hr => ?_⟩
  exact (kept_of_has hr.has).mpr ⟨hr, hf⟩

theorem kept_congr (ho : g.outline a = h.outline a) : g.Kept k a b ↔ h.Kept k a b := by
  simp only [Kept, Folded, reads_iff_outline, forwards_iff_outline, namesNonConstant_eq_outline, ho]

theorem kept_bypass (hg : g.Sound) (hc : checkSplice name g = .ok primary)
    (hn : g.node? name = some n) (hid : n.op ∈ Op.identities) (hk : ¬k.has name = true) :
    Bypasses name (g.Kept k) ((bypass name primary g).Kept k) := by
  intro u v hu
  have hname : g.Kept k name v ↔ v = Reference.nodeOf primary :=
    (kept_of_not_has hk).trans (forwards_spliced hc hn hid)
  have hv : v = Reference.nodeOf primary → v ≠ name := fun hv => hv ▸ primary_ne hc
  have hfolded : (bypass name primary g).Folded k u ↔ g.Folded k u := by
    rw [Folded, Folded, namesNonConstant_bypass hg hc hu]
  rw [hname]
  by_cases hku : k.has u = true
  · rw [kept_of_has hku, kept_of_has hku, kept_of_has hku, reads_bypass_iff hg hc hu, hfolded]
    grind
  · rw [kept_of_not_has hku, kept_of_not_has hku, kept_of_not_has hku,
      forwards_bypass_iff hg hc hu]
    grind

/-- Nothing is kept of a constant that goes away, nor of what becomes a constant. -/
theorem not_kept (hk : ¬k.namesNonConstant a = true)
    (hc : k.has a = true → g.namesNonConstant a = true)
    (hid : ∀ n, g.node? a = some n → n.op ∉ Op.identities) : ¬g.Kept k a b := by
  intro hkept
  by_cases ha : k.has a = true
  · obtain ⟨-, hf⟩ := (kept_of_has ha).mp hkept
    exact hf ⟨hc ha, ha, Bool.eq_false_iff.mpr hk⟩
  · obtain ⟨n, hn, hop, -⟩ := (kept_of_not_has ha).mp hkept
    exact hid n hn hop

/-- A fold changes none of the links that will be kept: the folded node and the feeders that go with
it lose theirs either way. -/
theorem kept_collapse (hg : g.Sound) (hn : g.node? name = some n) (hf : folded? g n = .ok (some c))
    (hk : (collapse c.bare name g).Ages k) :
    g.Kept k a b ↔ (collapse c.bare name g).Kept k a b := by
  by_cases ha : a = name
  · subst ha
    refine iff_of_false ?_ fun hkept => not_reads_folded hg hn hf hkept.1
    refine not_kept ?_ (fun _ => namesNonConstant_of_folded hn hf) ?_
    · exact fun hnc => not_namesNonConstant_folded hg hn hf (hk.namesNonConstant hnc)
    · intro m hm
      cases hn.symm.trans hm
      exact Op.not_identities_of_foldables _ (op_of_folded hf)
  · by_cases hka : (thinned name g).has a = true
    · refine kept_congr ((outline_collapse hg hn (name_of_folded hn hf) ha).trans ?_).symm
      rw [outline, outline, (thinned_thins name g).node a hka]
    · have hgone : ¬(collapse c.bare name g).has a = true := by
        intro hh
        rw [has_eq_isSome, node?_collapse hg.consumersDistinct (name_of_folded hn hf)
          (has_of_node? hn), if_neg ha, node?_eq_none.mpr hka] at hh
        cases hh
      have hka' : ¬k.has a = true := fun h => hgone (hk.has h)
      refine iff_of_false ?_ fun hkept => hgone hkept.1.has
      -- A feeder that was dropped is a constant, and so no identity.
      intro hkept
      obtain ⟨m, hm, hop, -⟩ := (kept_of_not_has hka').mp hkept
      have hr := reads_of_dropped (has_of_node? hm) hka
      exact not_namesNonConstant_operand hn hf hr
        (namesNonConstant_of_op hm (Op.isConstant_of_identities _ hop))

/-- Chains of kept links are the same from every graph on the way. -/
theorem Simplifies.transGen_kept {r : PassResult} (hs : g.Simplifies r h) (hg : g.Sound)
    (hk : h.Ages k) (ha : k.has a = true) (hb : k.has b = true) :
    TransGen (g.Kept k) a b ↔ TransGen (h.Kept k) a b := by
  induction hs with
  | done g => rfl
  | seen g => rfl
  | @splice g name primary n hc hn hid =>
    have hgone : ∀ y, k.has y = true → y ≠ name := fun y hy => (has_bypass.mp (hk.has hy)).1
    have hx : ¬k.has name = true := fun hx => hgone name hx rfl
    exact ((kept_bypass hg hc hn hid hx).transGen_iff (hgone a ha) (hgone b hb)).symm
  | @fold g name n c hn hf =>
    have hrel : g.Kept k = (Graph.collapse c.bare name g).Kept k := by
      funext u v
      exact propext (kept_collapse hg hn hf hk)
    rw [hrel]
  | merge hs hs' ih ih' =>
    have hh := hs.sound hg
    have hages := hs'.ages hh.workable
    exact (ih hg (hages.trans hk)).trans (ih' hh hk)

/-! ## Tidy graphs -/

/-- What is read by a constant is a constant, and what an identity reads after its first input is one
too, unless the first input names it already. -/
structure Tidy (g : Graph) : Prop where
  constants : ∀ a b, g.Reads a b → g.namesNonConstant b = true → g.namesNonConstant a = true
  identities : ∀ a b n, g.node? a = some n → n.op ∈ Op.identities → g.Reads a b →
    g.namesNonConstant b = true → g.Forwards a b

theorem tidy_of_nodes
    (hc : ∀ n ∈ g.nodes, ∀ b ∈ n.inputNodes, g.namesNonConstant b = true → n.isConstant = false)
    (hi : ∀ n ∈ g.nodes, n.op ∈ Op.identities → ∀ b ∈ n.inputNodes, g.namesNonConstant b = true →
      n.inputNodes.head? = some b) : g.Tidy where
  constants := by
    rintro a b ⟨n, hn, hb⟩ hnc
    exact namesNonConstant_iff.mpr ⟨n, hn, hc n (node?_eq_some.mp hn).1 b hb hnc⟩
  identities := by
    rintro a b n hn hop ⟨m, hm, hb⟩ hnc
    cases hn.symm.trans hm
    exact ⟨n, hn, hop, hi n (node?_eq_some.mp hn).1 hop b hb hnc⟩

def Live (g : Graph) (a b : String) : Prop := g.Reads a b ∧ g.namesNonConstant b = true

theorem Tidy.transGen_live (ht : g.Tidy) (hb : g.namesNonConstant b = true) :
    TransGen g.Live a b ↔ TransGen g.Reads a b := by
  refine ⟨fun hc => hc.lift id fun _ _ hl => hl.1, fun hc => ?_⟩
  have hall : ∀ u, TransGen g.Reads u b → TransGen g.Live u b ∧ g.namesNonConstant u = true := by
    intro u hu
    induction hu using TransGen.head_induction_on with
    | single hub => exact ⟨.single ⟨hub, hb⟩, ht.constants _ b hub hb⟩
    | head huv _ ih => exact ⟨.head ⟨huv, ih.2⟩ ih.1, ht.constants _ _ huv ih.2⟩
  exact (hall a hc).1

section Splice

variable (hg : g.Sound) (hc : checkSplice name g = .ok primary) (hn : g.node? name = some n)
  (hid : n.op ∈ Op.identities)

include hg hc hn hid

theorem live_bypass (ht : g.Tidy) : Bypasses name g.Live (bypass name primary g).Live := by
  intro u v hu
  have hnc := namesNonConstant_of_op hn (Op.isConstant_of_identities _ hid)
  have hname : g.Live name v ↔ v = Reference.nodeOf primary ∧ g.namesNonConstant v = true := by
    refine ⟨?_, ?_⟩
    · intro hl
      exact ⟨(forwards_spliced hc hn hid).mp (ht.identities name v n hn hid hl.1 hl.2), hl.2⟩
    · intro hboth
      obtain ⟨rfl, hv⟩ := hboth
      exact ⟨reads_primary hc, hv⟩
  have hv : v = Reference.nodeOf primary → v ≠ name := fun hv => hv ▸ primary_ne hc
  have hsame : v ≠ name →
      (bypass name primary g).namesNonConstant v = g.namesNonConstant v :=
    namesNonConstant_bypass hg hc
  rw [hname, Live, Live, Live, reads_bypass_iff hg hc hu]
  grind

theorem Tidy.bypass (ht : g.Tidy) : (bypass name primary g).Tidy := by
  have hages : g.Ages (Graph.bypass name primary g) := ages_bypass hg.consumersDistinct
  have hnc := namesNonConstant_of_op hn (Op.isConstant_of_identities _ hid)
  have hne : ∀ a, (Graph.bypass name primary g).has a = true → a ≠ name :=
    fun a ha => (has_bypass.mp ha).1
  refine ⟨?_, ?_⟩
  · intro a b hr hb
    have ha := hne a hr.has
    rw [namesNonConstant_bypass hg hc ha]
    rcases (reads_bypass_iff hg hc ha).mp hr with ⟨hr, -⟩ | ⟨hr, -⟩
    · exact ht.constants a b hr (hages.namesNonConstant hb)
    · exact ht.constants a name hr hnc
  · intro a b m hm hop hr hb
    have ha := hne a hr.has
    obtain ⟨l, hl, hlop⟩ := hages.of_identity hm hop
    refine (forwards_bypass_iff hg hc ha).mpr ?_
    rcases (reads_bypass_iff hg hc ha).mp hr with ⟨hr, hbn⟩ | ⟨hr, hbt⟩
    · exact .inl ⟨ht.identities a b l hl hlop hr (hages.namesNonConstant hb), hbn⟩
    · exact .inr ⟨ht.identities a name l hl hlop hr hnc, hbt⟩

end Splice

section Fold

variable (hg : g.Sound) (hn : g.node? name = some n) (hf : folded? g n = .ok (some c))

include hg hn hf

theorem live_collapse (ht : g.Tidy) :
    Bypasses name g.Live (collapse c.bare name g).Live := by
  intro u v hu
  rw [Live, Live, Live, Live]
  refine ⟨?_, ?_⟩
  · intro hl
    obtain ⟨hr, hnc⟩ := hl
    have hv : v ≠ name := by
      rintro rfl
      exact not_namesNonConstant_folded hg hn hf hnc
    have hrg := reads_of_reads_collapse hg hn hf hr
    exact ⟨hv, .inl ⟨hrg, (namesNonConstant_collapse hg hn hf hv).mp hnc⟩⟩
  · intro hboth
    obtain ⟨hv, ⟨hr, hnc⟩ | ⟨-, hr, hnc⟩⟩ := hboth
    · refine ⟨?_, (namesNonConstant_collapse hg hn hf hv).mpr hnc⟩
      have ho := outline_of_namesNonConstant hg hn hf hu (ht.constants u v hr hnc)
      rw [reads_iff_outline, ho, ← reads_iff_outline]
      exact hr
    · exact absurd hnc (not_namesNonConstant_operand hn hf hr)

theorem Tidy.collapse (ht : g.Tidy) : (collapse c.bare name g).Tidy := by
  have hages : g.Ages (Graph.collapse c.bare name g) := ages_collapse hg.consumersDistinct hn hf
  have hne : ∀ a b, (Graph.collapse c.bare name g).Reads a b → a ≠ name := by
    rintro a b hr rfl
    exact not_reads_folded hg hn hf hr
  refine ⟨?_, ?_⟩
  · intro a b hr hb
    have hrg := reads_of_reads_collapse hg hn hf hr
    refine (namesNonConstant_collapse hg hn hf (hne a b hr)).mpr ?_
    exact ht.constants a b hrg (hages.namesNonConstant hb)
  · intro a b m hm hop hr hb
    have hrg := reads_of_reads_collapse hg hn hf hr
    obtain ⟨l, hl, hlop⟩ := hages.of_identity hm hop
    have ho := outline_of_namesNonConstant hg hn hf (hne a b hr)
      (namesNonConstant_of_op hl (Op.isConstant_of_identities _ hlop))
    rw [forwards_iff_outline, ho, ← forwards_iff_outline]
    exact ht.identities a b l hl hlop hrg (hages.namesNonConstant hb)

end Fold

theorem Simplifies.tidy {r : PassResult} (hs : g.Simplifies r h) (hg : g.Sound) (ht : g.Tidy) :
    h.Tidy := by
  induction hs with
  | done g => exact ht
  | seen g => exact ht
  | splice hc hn hid => exact ht.bypass hg hc hn hid
  | fold hn hf => exact ht.collapse hg hn hf
  | merge hs _ ih ih' => exact ih' (hs.sound hg) (ih hg ht)

theorem Simplifies.transGen_live {r : PassResult} (hs : g.Simplifies r h) (hg : g.Sound)
    (ht : g.Tidy) (ha : h.has a = true) (hb : h.namesNonConstant b = true) :
    TransGen h.Live a b ↔ TransGen g.Live a b := by
  induction hs with
  | done g => rfl
  | seen g => rfl
  | splice hc hn hid =>
    have hx := has_of_namesNonConstant hb
    exact (live_bypass hg hc hn hid ht).transGen_iff (has_bypass.mp ha).1 (has_bypass.mp hx).1
  | @fold g name n c hn hf =>
    have hbn : b ≠ name := by
      rintro rfl
      exact not_namesNonConstant_folded hg hn hf hb
    by_cases han : a = name
    · -- The folded node leads to constants before, and to nothing afterwards.
      subst han
      refine iff_of_false ?_ ?_
      · intro hc
        obtain ⟨v, hv, -⟩ := TransGen.head'_iff.mp hc
        exact not_reads_folded hg hn hf hv.1
      · intro hc
        obtain ⟨v, hv, -⟩ := TransGen.head'_iff.mp hc
        exact not_namesNonConstant_operand hn hf hv.1 hv.2
    · exact (live_collapse hg hn hf ht).transGen_iff han hbn
  | merge hs hs' ih ih' =>
    have hh := hs.sound hg
    have hages := hs'.ages hh.workable
    exact (ih' hh (hs.tidy hg ht) ha hb).trans
      (ih hg ht (hages.has ha) (hages.namesNonConstant hb))

end Graph

/-! ## The standard pipeline -/

namespace Pipeline

open Dataflow.Graph

variable {g : Graph}

/-- What depends on what where the standard pipeline ends on a consistent acyclic graph: a node still
reaches those that it reached through links that are kept, and no others. In a tidy graph it still
reaches every node that is not a constant. -/
theorem standard_run_transGen (hc : g.check = .ok ()) (hn : g.PlainNames)
    (hd : g.ConsumersDistinct) (ha : g.Acyclic) : ∃ r h, standard.run.Ends g r h ∧
      (∀ a b, h.has a = true → h.has b = true →
        (TransGen h.Reads a b ↔ TransGen (g.Kept h) a b)) ∧
      (g.Tidy → ∀ a b, h.has a = true → h.namesNonConstant b = true →
        (TransGen h.Reads a b ↔ TransGen g.Reads a b)) := by
  have hg : g.Sound := sound_of_check hc hn hd ha
  obtain ⟨r, h, hend, -, hs⟩ := simplifying_run standard_passes g hg.workable
  have hself : h.Kept h = h.Reads := funext fun u => funext fun v => propext kept_self
  refine ⟨r, h, hend, ?_, ?_⟩
  · intro a b ha hb
    rw [hs.transGen_kept hg (ages_refl h) ha hb, hself]
  · intro ht a b ha hb
    have hages := hs.ages hg.workable
    calc TransGen h.Reads a b
      _ ↔ TransGen h.Live a b := ((hs.tidy hg ht).transGen_live hb).symm
      _ ↔ TransGen g.Live a b := hs.transGen_live hg ht ha hb
      _ ↔ TransGen g.Reads a b := ht.transGen_live (hages.namesNonConstant hb)

/-- A sum of a constant that waits for the start. -/
def waitingNodes : List Node :=
  [.make "Placeholder" "start" [], { oneNode with inputs := ["^start"] },
    .make "Add" "sum" ["one", "one"], .make "Relu" "out" ["sum"]]

theorem acyclic_waitingNodes : (build waitingNodes).Acyclic := by
  refine acyclic_of_rank (fun x => ["start", "one", "sum", "out"].idxOf x) ?_
  decide

/-- A copy of the start that waits for a constant, and a sum that waits for nothing. -/
def tidyNodes : List Node :=
  [.make "Placeholder" "start" [], oneNode, .make "Identity" "copy" ["start", "^one"],
    .make "Add" "sum" ["one", "one"], .make "Relu" "out" ["copy", "^sum"]]

/-- What waits is lost with a constant that folds, and nothing is lost in a tidy graph. -/
theorem standard_run_waitingNodes :
    (∃ r h, standard.run (build waitingNodes) = (.ok r, h) ∧ r.touched = ["sum"] ∧
      (TransGen h.Reads "out" "start" ↔ TransGen ((build waitingNodes).Kept h) "out" "start")) ∧
    ∃ r h, standard.run (build tidyNodes) = (.ok r, h) ∧ r.touched = ["sum", "copy"] ∧
      (build tidyNodes).Tidy ∧ TransGen h.Reads "out" "start" := by
  constructor
  · have hrun : (standard.run (build waitingNodes)).1 = .ok ⟨1, 1, 1, ["sum"]⟩ := by
      decide +kernel
    have hnames : (standard.run (build waitingNodes)).2.names = ["start", "sum", "out"] := by
      decide +kernel
    obtain ⟨r, h, hend, hkept, -⟩ := standard_run_transGen rfl (build_plainNames (by decide))
      (build_consumersDistinct waitingNodes) acyclic_waitingNodes
    obtain ⟨rfl, hok⟩ := hend.of_ok hrun
    rw [hok] at hnames
    refine ⟨_, h, hok, rfl, hkept _ _ ?_ ?_⟩ <;> exact has_iff.mpr (by simp [hnames])
  · have hrun : (standard.run (build tidyNodes)).1 = .ok ⟨2, 2, 1, ["sum", "copy"]⟩ := by
      decide +kernel
    have hout : (standard.run (build tidyNodes)).2.has "out" = true := by decide +kernel
    have hstart : (standard.run (build tidyNodes)).2.namesNonConstant "start" = true := by
      decide +kernel
    have hacyclic : (build tidyNodes).Acyclic :=
      acyclic_of_rank (fun x => ["start", "one", "copy", "sum", "out"].idxOf x) (by decide)
    have htidy : (build tidyNodes).Tidy := tidy_of_nodes (by decide) (by decide)
    have hreach : TransGen (build tidyNodes).Reads "out" "start" := by
      have hcopy : (build tidyNodes).Reads "out" "copy" := by decide
      exact .tail (.single hcopy) (by decide)
    obtain ⟨r, h, hend, -, hkept⟩ := standard_run_transGen rfl (build_plainNames (by decide))
      (build_consumersDistinct tidyNodes) hacyclic
    obtain ⟨rfl, hok⟩ := hend.of_ok hrun
    rw [hok] at hout hstart
    exact ⟨_, h, hok, rfl, htidy, (hkept htidy "out" "start" hout hstart).mpr hreach⟩

/-- A constant that is folded no longer waits, and what reads the sum no longer does. -/
theorem standard_run_loses_dependency :
    ¬∀ (g h : Graph) (r : PassResult), g.check = .ok () → g.PlainNames → g.ConsumersDistinct →
      g.Acyclic → standard.run g = (.ok r, h) → ∀ a b, h.has a = true → h.has b = true →
        g.namesNonConstant b = true → h.namesNonConstant b = true →
          (TransGen h.Reads a b ↔ TransGen g.Reads a b) := by
  intro hall
  have hp : ∀ n ∈ waitingNodes, Reference.isPlain n.name = true := by decide
  have hrun : (standard.run (build waitingNodes)).1 = .ok ⟨1, 1, 1, ["sum"]⟩ := by decide +kernel
  have hb : (standard.run (build waitingNodes)).2.namesNonConstant "start" = true := by
    decide +kernel
  have hiff := hall _ _ _ rfl (build_plainNames hp) (build_consumersDistinct _)
    acyclic_waitingNodes (Prod.ext hrun rfl) "out" "start" (by decide +kernel) (has_of_namesNonConstant hb)
    (by decide) hb
  have hreach : TransGen (build waitingNodes).Reads "out" "start" := by
    have hout : (build waitingNodes).Reads "out" "sum" :=
      ⟨.make "Relu" "out" ["sum"], by decide, by decide⟩
    have hsum : (build waitingNodes).Reads "sum" "one" :=
      ⟨.make "Add" "sum" ["one", "one"], by decide, by decide⟩
    have hone : (build waitingNodes).Reads "one" "start" :=
      ⟨{ oneNode with inputs := ["^start"] }, by decide, by decide⟩
    exact .tail (.tail (.single hout) hsum) hone
  -- Nothing reads the start any more.
  have hnone : ∀ e ∈ (standard.run (build waitingNodes)).2.entries,
      "start" ∉ e.node.inputNodes := by decide +kernel
  obtain ⟨a, -, n, hn, hin⟩ := TransGen.tail'_iff.mp (hiff.mpr hreach)
  obtain ⟨e, he, rfl⟩ := Option.map_eq_some_iff.mp hn
  exact hnone e (find?_eq_some.mp he).1 hin

end Pipeline
end Dataflow
