import Dataflow.Pass.RemoveIdentity
import Dataflow.Proofs.Simplification

/- Each step of a pipeline splices an identity out, folds arithmetic on constants, or does
   nothing. What a whole run does is a chain of such steps, together with what the passes report
   about them (`Simplifies`), and every property of a run is an induction over the chain. A run
   ends with a report, or at a graph in which some node overruns (`Edit.Ends`); either way there
   is a chain up to its end, and no run is refused (`simplifying_run`).

   The steps need less than a consistent graph. An input may name no node and the graph may have
   cycles: what has to be right are the consumers recorded for nodes that are no constants
   (`Workable`). -/

namespace Dataflow

open Dataflow.Graph

namespace Graph

variable {g h k : Graph} {a b y name primary : String} {n c : Node}

theorem namesNonConstant_iff :
    g.namesNonConstant b = true ↔ ∃ n, g.node? b = some n ∧ n.isConstant = false := by
  unfold namesNonConstant
  cases g.node? b <;> simp

theorem namesNonConstant_of_op (hn : g.node? b = some n) (hop : Op.isConstant n.op = false) :
    g.namesNonConstant b = true :=
  namesNonConstant_iff.mpr ⟨n, hn, hop⟩

theorem has_of_namesNonConstant (hb : g.namesNonConstant b = true) : g.has b = true := by
  obtain ⟨n, hn, -⟩ := namesNonConstant_iff.mp hb
  exact has_of_node? hn

/-! ## Operations that stay -/

/-- The nodes of `h` are nodes of `g` with the operations they had, but for arithmetic that has become
constant. -/
def Ages (g h : Graph) : Prop :=
  ∀ y m, h.node? y = some m → ∃ n, g.node? y = some n ∧
    (m.op = n.op ∨ n.op ∈ Op.foldables ∧ m.isConstant = true)

theorem ages_refl (g : Graph) : g.Ages g := fun _ m hm => ⟨m, hm, .inl rfl⟩

theorem Ages.trans (hgh : g.Ages h) (hhk : h.Ages k) : g.Ages k := by
  intro y m hm
  obtain ⟨l, hl, hml⟩ := hhk y m hm
  obtain ⟨n, hn, hln⟩ := hgh y l hl
  refine ⟨n, hn, ?_⟩
  rcases hml with hml | ⟨hl', hm'⟩
  · rcases hln with hln | ⟨hn', hl'⟩
    · exact .inl (hml.trans hln)
    · exact .inr ⟨hn', hl' ▸ congrArg Op.isConstant hml⟩
  · rcases hln with hln | ⟨hn', -⟩
    · exact .inr ⟨hln ▸ hl', hm'⟩
    · exact .inr ⟨hn', hm'⟩

theorem Ages.has (ha : g.Ages h) (hy : h.has y = true) : g.has y = true := by
  obtain ⟨m, hm⟩ := has_iff_exists.mp hy
  obtain ⟨n, hn, -⟩ := ha y m hm
  exact has_of_node? hn

theorem Ages.namesNonConstant (ha : g.Ages h) (hb : h.namesNonConstant b = true) :
    g.namesNonConstant b = true := by
  obtain ⟨m, hm, hmc⟩ := namesNonConstant_iff.mp hb
  obtain ⟨n, hn, hop | ⟨-, hc⟩⟩ := ha b m hm
  · exact namesNonConstant_of_op hn (hop ▸ hmc)
  · exact absurd hc (by simp [hmc])

theorem Ages.identity (ha : g.Ages h) {m : Node} (hm : h.node? y = some m)
    (hid : ∀ n, g.node? y = some n → n.op ∈ Op.identities) : m.op ∈ Op.identities := by
  obtain ⟨n, hn, hop | ⟨hf, -⟩⟩ := ha y m hm
  · exact hop ▸ hid n hn
  · exact absurd (hid n hn) (Op.not_identities_of_foldables _ hf)

theorem Ages.of_identity (ha : g.Ages h) {m : Node} (hm : h.node? y = some m)
    (hid : m.op ∈ Op.identities) : ∃ n, g.node? y = some n ∧ n.op ∈ Op.identities := by
  obtain ⟨n, hn, hop | ⟨-, hc⟩⟩ := ha y m hm
  · exact ⟨n, hn, hop ▸ hid⟩
  · rw [Node.isConstant, Op.isConstant_of_identities _ hid] at hc
    cases hc

/-- A node that is there after a splice was there before, but for its inputs. -/
theorem exists_node?_of_bypass (hd : g.ConsumersDistinct) {m : Node}
    (hm : (bypass name primary g).node? y = some m) :
    ∃ n inputs, g.node? y = some n ∧ m = { n with inputs := inputs } := by
  rw [node?_bypass_eq hd] at hm
  by_cases hy : y = name
  · rw [if_pos hy] at hm
    cases hm
  · rw [if_neg hy] at hm
    obtain ⟨n, hn, rfl⟩ := Option.map_eq_some_iff.mp hm
    split
    · exact ⟨n, _, hn, rfl⟩
    · exact ⟨n, n.inputs, hn, rfl⟩

theorem ages_bypass (hd : g.ConsumersDistinct) : g.Ages (bypass name primary g) := by
  intro y m hm
  obtain ⟨n, inputs, hn, rfl⟩ := exists_node?_of_bypass hd hm
  exact ⟨n, hn, .inl rfl⟩

end Graph

/-! ## Arithmetic that folds -/

namespace Pass.FoldBinaryConstants

variable {g : Graph} {n c : Node} {b name : String}

theorem op_of_folded (hf : folded? g n = .ok (some c)) : n.op ∈ Op.foldables := by
  obtain ⟨o, a, ho, -, -⟩ := folded?_eq_some.mp hf
  exact ho.foldable

theorem namesNonConstant_of_folded (hn : g.node? name = some n) (hf : folded? g n = .ok (some c)) :
    g.namesNonConstant name = true :=
  namesNonConstant_of_op hn (Op.isConstant_of_foldables _ (op_of_folded hf))

theorem not_namesNonConstant_operand (hn : g.node? name = some n) (hf : folded? g n = .ok (some c))
    (hr : g.Reads name b) : ¬g.namesNonConstant b = true := by
  obtain ⟨o, -, ho, -⟩ := folded?_eq_some.mp hf
  obtain ⟨l, hl, hlc⟩ := ho.isConstant b ((reads_iff hn).mp hr)
  intro hnc
  obtain ⟨m, hm, hmc⟩ := namesNonConstant_iff.mp hnc
  cases hl.symm.trans hm
  exact absurd hlc (by simp [hmc])

theorem has_thinned_of_namesNonConstant (hn : g.node? name = some n)
    (hf : folded? g n = .ok (some c)) (hnc : g.namesNonConstant b = true) :
    (thinned name g).has b = true := by
  refine by_contra fun hb => ?_
  have hr : g.Reads name b := reads_of_dropped (has_of_namesNonConstant hnc) hb
  exact not_namesNonConstant_operand hn hf hr hnc

theorem node?_folded (hd : g.ConsumersDistinct) (hn : g.node? name = some n)
    (hf : folded? g n = .ok (some c)) : (collapse c.bare name g).node? name = some c.bare := by
  rw [node?_collapse hd (name_of_folded hn hf) (has_of_node? hn), if_pos rfl]

/-- A node that is no constant stays in a fold of another one, but for references to that. -/
theorem node?_collapse_of_namesNonConstant (hd : g.ConsumersDistinct) (hn : g.node? name = some n)
    (hf : folded? g n = .ok (some c)) (hnc : g.namesNonConstant b = true) (hne : b ≠ name) :
    (collapse c.bare name g).node? b = (g.node? b).map fun m =>
      if b ∈ g.consumers name then m.redirectInputs name (renamed name) else m := by
  have hkept := has_thinned_of_namesNonConstant hn hf hnc
  rw [node?_collapse hd (name_of_folded hn hf) (has_of_node? hn), if_neg hne,
    (thinned_thins name g).node b hkept]

/-- A node that is there after a fold is the constant, or was there before, but for its inputs. -/
theorem exists_node?_of_collapse (hd : g.ConsumersDistinct) (hn : g.node? name = some n)
    (hf : folded? g n = .ok (some c)) {y : String} {m : Node}
    (hm : (collapse c.bare name g).node? y = some m) : (y = name ∧ m = c.bare) ∨
      ∃ l inputs, g.node? y = some l ∧ m = { l with inputs := inputs } := by
  rw [node?_collapse hd (name_of_folded hn hf) (has_of_node? hn)] at hm
  by_cases hy : y = name
  · rw [if_pos hy] at hm
    exact .inl ⟨hy, (Option.some.inj hm).symm⟩
  · rw [if_neg hy] at hm
    obtain ⟨l, hl, rfl⟩ := Option.map_eq_some_iff.mp hm
    have hkept : g.node? y = some l :=
      ((thinned_thins name g).node y (has_of_node? hl)).symm.trans hl
    refine .inr ?_
    split
    · exact ⟨l, _, hkept, rfl⟩
    · exact ⟨l, l.inputs, hkept, rfl⟩

theorem ages_collapse (hd : g.ConsumersDistinct) (hn : g.node? name = some n)
    (hf : folded? g n = .ok (some c)) : g.Ages (collapse c.bare name g) := by
  intro y m hm
  rcases exists_node?_of_collapse hd hn hf hm with ⟨rfl, rfl⟩ | ⟨l, inputs, hl, rfl⟩
  · exact ⟨n, hn, .inr ⟨op_of_folded hf, isConstant_of_folded hf⟩⟩
  · exact ⟨l, hl, .inl rfl⟩

end Pass.FoldBinaryConstants

/-! ## Graphs that can be worked on -/

open Pass.FoldBinaryConstants

namespace Graph

variable {g h k : Graph} {a b y name primary : String} {n c : Node}

/-- Names are plain, and what is recorded as a consumer of a node that is no constant reads it. For
constants this may fail: on a graph with cycles a fold can leave a consumer behind. -/
structure Workable (g : Graph) : Prop where
  plainNames : g.PlainNames
  consumersDistinct : g.ConsumersDistinct
  reads : ∀ b, g.namesNonConstant b = true → ∀ a ∈ g.consumers b, g.Reads a b

theorem build_workable {ns : List Node} (hp : ∀ n ∈ ns, Reference.isPlain n.name = true) :
    (build ns).Workable where
  plainNames := build_plainNames hp
  consumersDistinct := build_consumersDistinct ns
  reads _ _ _ ha := (mem_consumers_build.mp ha).1

theorem workable_of_check (hc : g.check = .ok ()) (hp : g.PlainNames) (hd : g.ConsumersDistinct) :
    g.Workable where
  plainNames := hp
  consumersDistinct := hd
  reads b _ a ha := consumersReferring_iff.mp (check_eq_ok_iff.mp hc).2 a b ha

theorem Sound.workable (hg : g.Sound) : g.Workable where
  plainNames := hg.plainNames
  consumersDistinct := hg.consumersDistinct
  reads _ _ _ ha := hg.mem_consumers_iff.mp ha

theorem Ages.plainNames (ha : g.Ages h) (hp : g.PlainNames) : h.PlainNames :=
  fun x hx => hp x (ha.has hx)

theorem Workable.checkFold (hg : g.Workable) (hn : g.node? name = some n)
    (hf : folded? g n = .ok (some c)) : checkFold c.bare name g = .ok () :=
  checkFold_of_folded (hg.reads name (namesNonConstant_of_folded hn hf)) hn hf

theorem Workable.bypass (hg : g.Workable) (hc : checkSplice name g = .ok primary)
    (hnc : g.namesNonConstant name = true) : (Graph.bypass name primary g).Workable := by
  have hages : g.Ages (Graph.bypass name primary g) := ages_bypass hg.consumersDistinct
  have ht := has_primary hc
  have hp := hg.plainNames _ ht
  refine ⟨hages.plainNames hg.plainNames, hg.consumersDistinct.bypass name primary, ?_⟩
  intro b hb a ha
  have hbg := hages.namesNonConstant hb
  obtain ⟨hbn, hcase, hself⟩ := (mem_consumers_bypass hp ht).mp ha
  -- The spliced node itself is recorded nowhere: it was taken off what it read by then.
  have hne : a ≠ name := by
    intro han
    subst han
    refine hself ⟨rfl, ?_⟩
    by_cases hm : a ∈ g.consumers a
    · rcases hcase with ⟨hab, -⟩ | ⟨hbt, -⟩
      · exact .inr ⟨hm, .inl ⟨hg.reads b hbg a hab, hbn⟩⟩
      · exact .inr ⟨hm, .inr ⟨hg.reads a hnc a hm, hbt⟩⟩
    · rcases hcase with ⟨hab, -⟩ | ⟨-, han⟩
      · exact .inl ⟨hm, hg.reads b hbg a hab⟩
      · exact absurd han hm
  refine (reads_bypass hp).mpr ⟨hne, ?_⟩
  rcases hcase with ⟨hab, -⟩ | ⟨hbt, han⟩
  · have hr := hg.reads b hbg a hab
    by_cases hm : a ∈ g.consumers name
    · exact .inr ⟨hm, .inl ⟨hr, hbn⟩⟩
    · exact .inl ⟨hm, hr⟩
  · exact .inr ⟨han, .inr ⟨hg.reads name hnc a han, hbt⟩⟩

/-- Folding leaves a workable graph: what the fold may leave behind is recorded for the constant
only. -/
theorem Workable.collapse (hg : g.Workable) (hn : g.node? name = some n)
    (hf : folded? g n = .ok (some c)) : (Graph.collapse c.bare name g).Workable := by
  have hages : g.Ages (Graph.collapse c.bare name g) := ages_collapse hg.consumersDistinct hn hf
  have hname : c.name = name := name_of_folded hn hf
  have hx := has_of_node? hn
  have hp : Reference.isPlain c.bare.name = true := hname.symm ▸ hg.plainNames name hx
  have hs := Command.supersedes_of_checkFold hp (hg.checkFold hn hf)
  have ht := thinned_thins name g
  refine ⟨hages.plainNames hg.plainNames, ?_, ?_⟩
  · exact (hg.consumersDistinct.dropFeeders name _).exchange _ _ _
  · intro b hb a ha
    have hbn : b ≠ name := by
      intro hbn
      obtain ⟨m, hm, hmc⟩ := namesNonConstant_iff.mp hb
      rw [hbn, node?_folded hg.consumersDistinct hn hf] at hm
      cases hm
      rw [isConstant_of_folded hf] at hmc
      cases hmc
    rcases (hs.consumers a b).mp ha with ⟨hb', -⟩ | ⟨-, -, hab, -, hself⟩ | ⟨hb', -⟩
    · exact absurd (hb'.trans hname) hbn
    · obtain ⟨-, hag, hgone⟩ := (ht.consumers a b).mp hab
      have hr : g.Reads a b := hg.reads b (hages.namesNonConstant hb) a hag
      have hka : (thinned name g).has a = true := by_contra fun hka => hgone ⟨hka, hr⟩
      have hrk : (thinned name g).Reads a b := ht.reads.mpr ⟨hka, hr⟩
      have hne : a ≠ name := fun han => hself ⟨han, han ▸ hrk⟩
      exact hs.reads_kept (fun h => hne (h.trans hname)) hne hrk fun h => hbn h.1
    · cases hb'

/-! ## Chains of steps -/

/-- Splices of identities and folds of arithmetic lead from `g` to `h`, and `r` is what the passes
report about them. -/
inductive Simplifies : Graph → PassResult → Graph → Prop where
  /-- Nothing to do. -/
  | done (g : Graph) : Simplifies g .empty g
  /-- An identity that cannot be spliced out. -/
  | seen (g : Graph) : Simplifies g { matched := 1 } g
  | splice {g : Graph} {name primary : String} {n : Node} :
    checkSplice name g = .ok primary → g.node? name = some n → n.op ∈ Op.identities →
      Simplifies g (PassResult.record { matched := 1 } name 1) (Graph.bypass name primary g)
  | fold {g : Graph} {name : String} {n c : Node} :
    g.node? name = some n → folded? g n = .ok (some c) →
      Simplifies g
        (PassResult.record { matched := 1 } name (g.size - (Graph.collapse c.bare name g).size))
        (Graph.collapse c.bare name g)
  | merge {g h k : Graph} {r s : PassResult} :
    Simplifies g r h → Simplifies h s k → Simplifies g (r.merge s) k

theorem Simplifies.workable {r : PassResult} (hs : g.Simplifies r h) (hg : g.Workable) :
    h.Workable := by
  induction hs with
  | done g => exact hg
  | seen g => exact hg
  | splice hc hn hid =>
    exact hg.bypass hc (namesNonConstant_of_op hn (Op.isConstant_of_identities _ hid))
  | fold hn hf => exact hg.collapse hn hf
  | merge _ _ ih ih' => exact ih' (ih hg)

theorem Simplifies.ages {r : PassResult} (hs : g.Simplifies r h) (hg : g.Workable) :
    g.Ages h := by
  induction hs with
  | done g => exact ages_refl g
  | seen g => exact ages_refl g
  | splice _ _ _ => exact ages_bypass hg.consumersDistinct
  | fold hn hf => exact ages_collapse hg.consumersDistinct hn hf
  | merge hs _ ih ih' => exact (ih hg).trans (ih' (hs.workable hg))

theorem Simplifies.sound {r : PassResult} (hs : g.Simplifies r h) (hg : g.Sound) : h.Sound := by
  induction hs with
  | done g => exact hg
  | seen g => exact hg
  | splice hc _ _ => exact bypass_sound hg hc
  | fold hn hf => exact collapse_sound hg (name_of_folded hn hf) (hg.workable.checkFold hn hf)
  | merge _ _ ih ih' => exact ih' (ih hg)

end Graph

/-! ## Edits that are chains of steps -/

/-- To fold some node takes an array that cannot be allocated. -/
def Graph.Overrunning (g : Graph) : Prop := ∃ x n, g.node? x = some n ∧ Overruns g n

namespace Edit

variable {P : Graph → Prop} {e f : Edit PassResult} {g h k : Graph} {r s : PassResult}

/-- The edit comes from `g` to `h`, and there it gives a result or overruns. -/
def Ends (e : Edit PassResult) (g : Graph) (r : PassResult) (h : Graph) : Prop :=
  e g = (.ok r, h) ∨ e g = (.error (.overrun .bytes), h) ∧ h.Overrunning

theorem Ends.of_ok (he : e.Ends g r h) (hs : (e g).1 = .ok s) : r = s ∧ e g = (.ok r, h) := by
  rcases he with he | ⟨he, -⟩
  · rw [he] at hs
    cases hs
    exact ⟨rfl, he⟩
  · rw [he] at hs
    cases hs

theorem Ends.merge (hf : f.Ends h s k) (r : PassResult) :
    (do return r.merge (← f) : Edit PassResult).Ends h (r.merge s) k := by
  rcases hf with hf | ⟨hf, hover⟩
  · exact .inl (bind_apply hf)
  · exact .inr ⟨bind_error hf, hover⟩

/-- The edit is not refused on graphs of a kind, leads to such a graph, and is a chain of steps up to
there. If it overruns, what it reports is lost. -/
def Simplifying (P : Graph → Prop) (e : Edit PassResult) : Prop :=
  ∀ g, P g → ∃ r h, e.Ends g r h ∧ P h ∧ g.Simplifies r h

theorem simplifying_done (P : Graph → Prop) : Simplifying P (pure .empty) := by
  intro g hg
  exact ⟨_, g, .inl rfl, hg, .done g⟩

theorem simplifying_bind {f : PassResult → Edit PassResult} (he : Simplifying P e)
    (hf : ∀ r h, P h → ∃ s k, (f r).Ends h s k ∧ P k ∧
      ∀ {g : Graph}, g.Simplifies r h → g.Simplifies s k) :
    Simplifying P (do f (← e)) := by
  intro g hg
  obtain ⟨r, h, hrun, hh, hgh⟩ := he g hg
  rcases hrun with hrun | ⟨hrun, hover⟩
  · obtain ⟨s, k, hends, hk, hchain⟩ := hf r h hh
    refine ⟨s, k, ?_, hk, hchain hgh⟩
    rw [Ends, bind_apply hrun]
    exact hends
  · exact ⟨r, h, .inr ⟨bind_error hrun, hover⟩, hh, hgh⟩

/-- One edit and then another, with the results merged. -/
theorem simplifying_merge (he : Simplifying P e) (hf : Simplifying P f) :
    Simplifying P (do let r ← e; return r.merge (← f)) := by
  refine simplifying_bind he fun r h hh => ?_
  obtain ⟨s, k, hrun, hk, hhk⟩ := hf h hh
  exact ⟨r.merge s, k, hrun.merge r, hk, fun hgh => .merge hgh hhk⟩

end Edit

namespace Pass

variable {P : Graph → Prop} {g h : Graph}

open Edit (Simplifying simplifying_done simplifying_merge)

theorem simplifying_attemptAll {attempt : String → Edit PassResult} : ∀ {sites : List String},
    (∀ s ∈ sites, Simplifying P (attempt s)) → Simplifying P (attemptAll attempt sites)
  | [], _ => simplifying_done P
  | s :: rest, hs => by
    have hrest : Simplifying P (attemptAll attempt rest) :=
      simplifying_attemptAll fun t ht => hs t (List.mem_cons_of_mem s ht)
    exact simplifying_merge (hs s List.mem_cons_self) hrest

/-- A pass that is not refused runs the same whether refusals are tolerated or not. -/
theorem simplifying_runOr {p : Pass} (hp : Simplifying P p.run) (tolerant : Bool) :
    Simplifying P (p.runOr tolerant) := by
  intro g hg
  obtain ⟨r, h, hrun, hh, hs⟩ := hp g hg
  refine ⟨r, h, ?_, hh, hs⟩
  rcases hrun with hrun | ⟨hrun, hover⟩
  · exact .inl (by rw [runOr, hrun])
  · refine .inr ⟨?_, hover⟩
    rw [runOr, hrun]
    simp [Error.isOverrun]

theorem simplifying_runAll {tolerant : Bool} : ∀ {passes : List Pass},
    (∀ p ∈ passes, Simplifying P p.run) → Simplifying P (runAll tolerant passes)
  | [], _ => simplifying_done P
  | p :: rest, hp => by
    have hrest : Simplifying P (runAll tolerant rest) :=
      simplifying_runAll fun q hq => hp q (List.mem_cons_of_mem p hq)
    exact simplifying_merge (simplifying_runOr (hp p List.mem_cons_self) tolerant) hrest

/-! ## The passes -/

namespace FoldBinaryConstants

variable {name : String} {n c : Node} {e : Error}

theorem foldedAt?_of_node? (hn : g.node? name = some n) : foldedAt? g name = folded? g n := by
  rw [foldedAt?, hn]

theorem attempt_none (hf : foldedAt? g name = .ok none) : attempt name g = (.ok .empty, g) := by
  rw [attempt, Edit.bind_apply (Edit.get_apply g), hf]
  rfl

theorem attempt_error (hf : foldedAt? g name = .error e) : attempt name g = (.error e, g) := by
  rw [attempt, Edit.bind_apply (Edit.get_apply g), hf]
  rfl

theorem attempt_some (hf : foldedAt? g name = .ok (some c))
    (hc : checkFold c.bare name g = .ok ()) : attempt name g =
      (.ok (PassResult.record { matched := 1 } name (g.size - (collapse c.bare name g).size)),
        collapse c.bare name g) := by
  have hfold : Graph.fold c name g = (.ok (), collapse c.bare name g) :=
    Edit.guarded_eq_ok.mpr ⟨hc, rfl⟩
  rw [attempt, Edit.bind_apply (Edit.get_apply g), hf]
  exact Edit.bind_apply hfold

/-- Looking at a node, and folding it where that is possible. -/
theorem simplifying_attempt (name : String) : Simplifying Workable (attempt name) := by
  intro g hg
  cases hn : g.node? name with
  | none => exact ⟨_, g, .inl (attempt_none (by rw [foldedAt?, hn])), hg, .done g⟩
  | some n =>
    have hat := foldedAt?_of_node? hn
    cases hf : folded? g n with
    | error e =>
      obtain ⟨rfl, hover⟩ := folded?_eq_error.mp hf
      refine ⟨_, g, .inr ⟨attempt_error (hat.trans hf), name, n, hn, hover⟩, hg, .done g⟩
    | ok c? =>
      cases c? with
      | none => exact ⟨_, g, .inl (attempt_none (hat.trans hf)), hg, .done g⟩
      | some c =>
        have hrun := attempt_some (hat.trans hf) (hg.checkFold hn hf)
        exact ⟨_, _, .inl hrun, hg.collapse hn hf, .fold hn hf⟩

end FoldBinaryConstants

theorem simplifying_foldBinaryConstants : Simplifying Workable foldBinaryConstants.run := by
  intro g hg
  exact simplifying_attemptAll (fun s _ => FoldBinaryConstants.simplifying_attempt s) g hg

namespace RemoveIdentity

/-- A workable graph in which the sites, as far as they are still there, are identities. -/
def AtIdentities (sites : List String) (g : Graph) : Prop :=
  g.Workable ∧ ∀ s ∈ sites, ∀ n, g.node? s = some n → n.op ∈ Op.identities

/-- Looking at an identity, and splicing it out where that is possible. -/
theorem simplifying_attempt {sites : List String} {name : String} (hs : name ∈ sites) :
    Simplifying (AtIdentities sites) (attempt name) := by
  intro g hg
  obtain ⟨hwork, hid⟩ := hg
  cases hc : checkSplice name g with
  | error e =>
    have hr : Graph.splice name g = (.error e, g) := by
      rw [Graph.splice, Edit.guarded, hc]
    refine ⟨_, g, .inl ?_, ⟨hwork, hid⟩, .seen g⟩
    rw [attempt, hr]
  | ok primary =>
    have hr : Graph.splice name g = (.ok primary, bypass name primary g) :=
      Edit.guarded_eq_ok.mpr ⟨hc, rfl⟩
    obtain ⟨n, hn, -⟩ := checkSplice_eq_ok.mp hc
    have hstep : g.Simplifies _ (bypass name primary g) := .splice hc hn (hid name hs n hn)
    refine ⟨_, _, .inl ?_, ⟨hstep.workable hwork, ?_⟩, hstep⟩
    · rw [attempt, hr]
    · exact fun s hm _ hn => (hstep.ages hwork).identity hn (hid s hm)

theorem op_of_mem_sites {s : String} (hs : s ∈ removeIdentity.sites g) {n : Node}
    (hn : g.node? s = some n) : n.op ∈ Op.identities := by
  obtain ⟨m, hm, rfl⟩ := List.mem_map.mp hs
  obtain ⟨⟨k, hk, hmk⟩, -⟩ := Pattern.mem_search.mp hm
  obtain ⟨rest, hal, -⟩ := Pattern.matchAt_eq_some.mp hmk
  have hop : k.op ∈ Op.identities := by
    simp only [pattern, List.reverse_singleton, Pattern.align] at hal
    split at hal
    · rename_i hacc
      exact Token.accepts_iff.mp hacc
    · cases hal
  have hke : g.node? m.last = some k := by
    rw [Pattern.last_of_matchAt hmk]
    exact node?_of_mem_nodes hk
  cases hn.symm.trans hke
  exact hop

end RemoveIdentity

theorem simplifying_removeIdentity : Simplifying Workable removeIdentity.run := by
  intro g hg
  have hall : Simplifying (RemoveIdentity.AtIdentities (removeIdentity.sites g))
      (attemptAll removeIdentity.attempt (removeIdentity.sites g)) :=
    simplifying_attemptAll fun s hs => RemoveIdentity.simplifying_attempt hs
  obtain ⟨r, h, hr, hh, hs⟩ := hall g ⟨hg, fun s hs n hn => RemoveIdentity.op_of_mem_sites hs hn⟩
  exact ⟨r, h, hr, hh.1, hs⟩

end Pass

/-! ## Pipelines -/

namespace Pipeline

open Edit (Simplifying simplifying_bind simplifying_done)

variable {P : Graph → Prop} {p : Pipeline}

theorem simplifying_rounds (hp : ∀ q ∈ p.passes, Simplifying P q.run) :
    ∀ more : Nat, Simplifying P (p.rounds more)
  | 0 => simplifying_done P
  | more + 1 => by
    refine simplifying_bind (Pass.simplifying_runAll hp) fun r h hh => ?_
    by_cases hc : r.changed = true
    · obtain ⟨s, k, hrun, hk, hhk⟩ := simplifying_rounds hp more h hh
      refine ⟨r.merge s, k, ?_, hk, fun hgh => .merge hgh hhk⟩
      rw [if_pos hc]
      exact hrun.merge r
    · refine ⟨r, h, .inl ?_, hh, id⟩
      rw [if_neg hc]
      rfl

theorem simplifying_passes
    (hps : ∀ q ∈ p.passes, q = Pass.foldBinaryConstants ∨ q = Pass.removeIdentity) :
    ∀ q ∈ p.passes, Simplifying Workable q.run := by
  intro q hq
  rcases hps q hq with rfl | rfl
  · exact Pass.simplifying_foldBinaryConstants
  · exact Pass.simplifying_removeIdentity

/-- A pipeline of folding and removing identities, in any order and number and with any settings, is
not refused on a workable graph, and is a chain of splices and folds. -/
theorem simplifying_run
    (hps : ∀ q ∈ p.passes, q = Pass.foldBinaryConstants ∨ q = Pass.removeIdentity) :
    Simplifying Workable p.run :=
  simplifying_rounds (simplifying_passes hps) p.maxRounds

theorem standard_passes :
    ∀ q ∈ standard.passes, q = Pass.foldBinaryConstants ∨ q = Pass.removeIdentity := by
  intro q hq
  simp only [standard, List.mem_cons, List.not_mem_nil, or_false] at hq
  exact hq

end Pipeline
end Dataflow
