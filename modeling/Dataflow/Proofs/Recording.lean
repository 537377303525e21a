import Dataflow.Graph.Build
import Dataflow.Proofs.Steps

/- A graph may have inputs that name no node: the lenient builder leaves them alone, and removing
   a node leaves its consumers as they are. Such an input says nothing about consumers until a
   node comes in under the missing name. From then on the node has to be recorded, and the
   command that brings the node in records those it is told of. A step loses a consumer exactly
   if it `Overlooks` one (`Moves.presentInputsRecorded_iff`), and
   `build_presentInputsRecorded_iff` is the same for a run of any commands on any built graph. -/

namespace Dataflow.Graph

/-- Every input that names a node of the graph is recorded with that node. -/
def PresentInputsRecorded (g : Graph) : Prop :=
  ∀ a b, g.Reads a b → g.has b = true → a ∈ g.consumers b

def Closed (g : Graph) : Prop := ∀ a b, g.Reads a b → g.has b = true

variable {g h k : Graph} {a b : String}

/-! ## Consistency by names -/

theorem inputsRecorded_iff : g.InputsRecorded ↔ g.Closed ∧ g.PresentInputsRecorded := by
  refine ⟨?_, ?_⟩
  · intro hr
    have hm : ∀ a b, g.Reads a b → a ∈ g.consumers b := by
      intro a b hex
      obtain ⟨n, hn, hb⟩ := hex
      obtain ⟨e, he, rfl⟩ := Option.map_eq_some_iff.mp hn
      obtain ⟨hme, rfl⟩ := find?_eq_some.mp he
      exact mem_consumers.mpr (hr e hme b hb)
    exact ⟨fun a b hab => has_of_mem_consumers (hm a b hab), fun a b hab _ => hm a b hab⟩
  · intro hboth e he b hb
    obtain ⟨hc, hj⟩ := hboth
    have hr : g.Reads e.name b := ⟨e.node, node?_of_mem he, hb⟩
    exact mem_consumers.mp (hj e.name b hr (hc e.name b hr))

theorem consumersReferring_iff :
    g.ConsumersReferring ↔ ∀ a b, a ∈ g.consumers b → g.Reads a b := by
  refine ⟨?_, ?_⟩
  · intro hr a b ha
    obtain ⟨e, he, hc⟩ := mem_consumers.mp ha
    obtain ⟨hm, rfl⟩ := find?_eq_some.mp he
    exact hr e hm a hc
  · intro hr e he a ha
    exact hr a e.name (consumers_of_mem he ▸ ha)

/-! ## Built graphs -/

theorem node?_recordLinks (g : Graph) (ls : List Link) (y : String) :
    (g.recordLinks ls).node? y = g.node? y := by
  induction ls generalizing g with
  | nil => rfl
  | cons l ls ih => exact (ih (g.link l.producer l.consumer)).trans (node?_link g _ _ y)

theorem mem_consumers_recordLinks {ls : List Link} :
    a ∈ (g.recordLinks ls).consumers b ↔
      a ∈ g.consumers b ∨ (⟨b, a⟩ ∈ ls ∧ g.has b = true) := by
  induction ls generalizing g with
  | nil => simp [recordLinks]
  | cons l ls ih =>
    have hl : (⟨b, a⟩ : Link) = l ↔ b = l.producer ∧ a = l.consumer := by
      cases l
      exact Link.mk.injEq .. ▸ Iff.rfl
    show a ∈ ((g.link l.producer l.consumer).recordLinks ls).consumers b ↔ _
    rw [ih, mem_consumers_link, has_link, List.mem_cons, hl]
    tauto

theorem ConsumersDistinct.recordLinks (hd : g.ConsumersDistinct) (ls : List Link) :
    (g.recordLinks ls).ConsumersDistinct := by
  induction ls generalizing g with
  | nil => exact hd
  | cons l ls ih => exact ih (hd.link _ _)

theorem mem_links : ⟨b, a⟩ ∈ g.links ↔ g.Reads a b := by
  simp only [links, nodes, List.mem_flatMap, List.mem_map, Link.mk.injEq]
  refine ⟨?_, ?_⟩
  · intro hex
    obtain ⟨n, ⟨e, he, rfl⟩, p, hp, rfl, rfl⟩ := hex
    exact ⟨e.node, node?_of_mem he, hp⟩
  · intro hex
    obtain ⟨n, hn, hb⟩ := hex
    obtain ⟨e, he, rfl⟩ := Option.map_eq_some_iff.mp hn
    exact ⟨e.node, ⟨e, (find?_eq_some.mp he).1, rfl⟩, b, hb, rfl, (find?_eq_some.mp he).2⟩

theorem consumers_unlinked (ns : List Node) (x : String) : (unlinked ns).consumers x = [] := by
  unfold consumers
  cases he : (unlinked ns).find? x with
  | none => rfl
  | some e =>
    obtain ⟨n, -, rfl⟩ := List.mem_map.mp (find?_eq_some.mp he).1
    rfl

theorem node?_build (ns : List Node) (y : String) :
    (build ns).node? y = (unlinked ns).node? y := node?_recordLinks _ _ y

theorem has_build (ns : List Node) (y : String) : (build ns).has y = (unlinked ns).has y := by
  rw [has_eq_isSome, node?_build, has_eq_isSome]

theorem reads_build {ns : List Node} : (build ns).Reads a b ↔ (unlinked ns).Reads a b :=
  reads_congr (node?_build ns a)

theorem mem_consumers_build {ns : List Node} :
    a ∈ (build ns).consumers b ↔ (build ns).Reads a b ∧ (build ns).has b = true := by
  rw [reads_build, has_build, build, mem_consumers_recordLinks, consumers_unlinked, mem_links]
  simp

theorem build_presentInputsRecorded (ns : List Node) : (build ns).PresentInputsRecorded :=
  fun _ _ hr hb => mem_consumers_build.mpr ⟨hr, hb⟩

theorem build_consumersReferring (ns : List Node) : (build ns).ConsumersReferring :=
  consumersReferring_iff.mpr fun _ _ ha => (mem_consumers_build.mp ha).1

theorem build_consumersDistinct (ns : List Node) : (build ns).ConsumersDistinct := by
  refine ConsumersDistinct.recordLinks (fun e he => ?_) _
  obtain ⟨n, -, rfl⟩ := List.mem_map.mp he
  exact List.nodup_nil

theorem mem_of_mem_keepFirst {ns : List Node} {n : Node} (hn : n ∈ keepFirst ns) : n ∈ ns := by
  induction ns with
  | nil => exact hn
  | cons m ns ih =>
    rw [keepFirst, List.mem_cons] at hn
    rcases hn with rfl | hn
    · exact List.mem_cons_self
    · exact List.mem_cons_of_mem m (ih (List.mem_filter.mp hn).1)

theorem build_plainNames {ns : List Node}
    (hp : ∀ n ∈ ns, Reference.isPlain n.name = true) : (build ns).PlainNames := by
  intro x hx
  obtain ⟨e, he, rfl⟩ := exists_mem_of_has hx
  have hm : e.node ∈ keepFirst ns := build_nodes ns ▸ List.mem_map_of_mem he
  exact hp e.node (mem_of_mem_keepFirst hm)

/-- The strict builder gives the graph of the lenient one, if every input names a node. -/
theorem tryBuild_eq_ok {ns : List Node} :
    tryBuild ns = .ok g ↔ (build ns).Closed ∧ g = build ns := by
  have hc : (build ns).Closed ↔
      (unlinked ns).links.find? (fun l => !(unlinked ns).has l.producer) = none := by
    rw [List.find?_eq_none]
    refine ⟨?_, ?_⟩
    · intro hc l hl
      have hr : (unlinked ns).Reads l.consumer l.producer := mem_links.mp hl
      have hh := hc _ _ (reads_build.mpr hr)
      rw [has_build] at hh
      simp [hh]
    · intro hl a b hr
      have hh := hl ⟨b, a⟩ (mem_links.mpr (reads_build.mp hr))
      rw [has_build]
      simpa using hh
  rw [hc]
  cases hf : (unlinked ns).links.find? fun l => !(unlinked ns).has l.producer with
  | none =>
    simp only [tryBuild, hf, Except.ok.injEq, true_and]
    exact eq_comm
  | some l => simp [tryBuild, hf]

/-! ## Steps that lose a consumer -/

/-- The nodes that read a name before a node comes in under it, and that the command does not list.
Whoever had a node of that name recorded is recorded with the new one, so only a name that no node
has can be overlooked. -/
def Overlooks (g : Graph) : Command → Prop
  | .remove _ | .splice _ => False
  | .replace new old cs =>
    ¬g.has new.name = true ∧ ∃ a, g.Reads a new.name ∧ a ≠ old ∧ a ∉ cs
  | .insert new _ cs | .swapConstant new _ cs =>
    ¬g.has new.name = true ∧ ∃ a, g.Reads a new.name ∧ a ∉ cs
  | .fold new name =>
    ¬g.has new.name = true ∧ ∃ a, g.Reads a new.name ∧ a ≠ name ∧ a ∉ g.consumers name ∧
      (thinned name g).has a = true

section Steps

variable {new : Node} {source old name primary : String} {cs : List String}

/-- A node that comes in is recorded with all its readers exactly if none was overlooked. -/
theorem Enters.recorded_iff (he : Enters new source cs g h) (hj : g.PresentInputsRecorded) :
    h.PresentInputsRecorded ↔
      ¬(¬g.has new.name = true ∧ ∃ a, g.Reads a new.name ∧ a ∉ cs) := by
  refine ⟨?_, ?_⟩
  · intro hh hboth
    obtain ⟨hn, a, hr, ha⟩ := hboth
    have hne : a ≠ new.name := fun heq => hn (heq ▸ hr.has)
    have hm : a ∈ h.consumers new.name :=
      hh a new.name (he.reads_kept hne hr fun hx => ha hx.2) ((he.has _).mpr (.inl rfl))
    rcases (he.consumers a _).mp hm with ⟨-, hc | hc⟩ | ⟨hb, -⟩ | ⟨-, hc, -⟩
    · exact ha hc
    · exact hn (has_of_mem_consumers hc)
    · exact hb rfl
    · exact hne hc
  · intro ho a b hr hb
    rw [he.consumers]
    rcases (he.reads a b).mp hr with ⟨ha, hi⟩ | ⟨hne, ⟨ha, hg⟩ | ⟨ha, ⟨hg, hs⟩ | ⟨-, hs⟩⟩⟩
    · exact .inr (.inr ⟨hi, ha, (he.has b).mp hb⟩)
    · by_cases hbn : b = new.name
      · have hn : g.has new.name = true :=
          by_contra fun hn => ho ⟨hn, a, hbn ▸ hg, ha⟩
        exact .inl ⟨hbn, .inr (hj a _ (hbn ▸ hg) hn)⟩
      · have hgb : g.has b = true := ((he.has b).mp hb).resolve_left hbn
        exact .inr (.inl ⟨hbn, hj a b hg hgb, fun hx => hne hx.1, fun hx => ha hx.2⟩)
    · by_cases hbn : b = new.name
      · exact .inl ⟨hbn, .inl ha⟩
      · have hgb : g.has b = true := ((he.has b).mp hb).resolve_left hbn
        exact .inr (.inl ⟨hbn, hj a b hg hgb, fun hx => hne hx.1, fun hx => hs hx.1⟩)
    · exact .inl ⟨hs, .inl ha⟩

/-- A node that takes the place of another is recorded with all its readers exactly if none was
overlooked. The readers of the old node are listed. -/
theorem Supersedes.recorded_iff (hs : Supersedes new old cs g h) (hj : g.PresentInputsRecorded)
    (hl : ∀ c ∈ g.consumers old, c = old ∨ c ∈ cs) :
    h.PresentInputsRecorded ↔
      ¬(¬g.has new.name = true ∧ ∃ a, g.Reads a new.name ∧ a ≠ old ∧ a ∉ cs) := by
  refine ⟨?_, ?_⟩
  · intro hh hboth
    obtain ⟨hn, a, hr, hao, ha⟩ := hboth
    have hne : a ≠ new.name := fun heq => hn (heq ▸ hr.has)
    have hm : a ∈ h.consumers new.name :=
      hh a new.name (hs.reads_kept hne hao hr fun hx => ha hx.2) ((hs.has _).mpr (.inl rfl))
    rcases (hs.consumers a _).mp hm with ⟨-, hc | ⟨-, hc, -⟩⟩ | ⟨hb, -⟩ | ⟨-, hc, -⟩
    · exact ha hc
    · exact hn (has_of_mem_consumers hc)
    · exact hb rfl
    · exact hne hc
  · intro ho a b hr hb
    rw [hs.consumers]
    -- A third node that is read stays recorded, since neither the new nor the old one reads it.
    have hthird : a ≠ new.name → a ≠ old → b ≠ new.name → g.Reads a b →
        b ≠ new.name ∧ b ≠ old ∧ a ∈ g.consumers b ∧ ¬(a = new.name ∧ g.Reads new.name b) ∧
          ¬(a = old ∧ g.Reads old b) := by
      intro hne hao hbn hg
      obtain ⟨hbo, hgb⟩ := ((hs.has b).mp hb).resolve_left hbn
      exact ⟨hbn, hbo, hj a b hg hgb, fun hx => hne hx.1, fun hx => hao hx.1⟩
    rcases (hs.reads a b).mp hr with
      ⟨ha, hi⟩ | ⟨hne, hao, ⟨ha, hg⟩ | ⟨ha, ⟨hg, -⟩ | ⟨-, hbn⟩⟩⟩
    · exact .inr (.inr ⟨hi, ha, (hs.has b).mp hb⟩)
    · by_cases hbn : b = new.name
      · have hn : g.has new.name = true :=
          by_contra fun hn => ho ⟨hn, a, hbn ▸ hg, hao, ha⟩
        have hm : a ∈ g.consumers new.name := hj a _ (hbn ▸ hg) hn
        have hno : new.name ≠ old := by
          intro heq
          rcases hl a (heq ▸ hm) with hc | hc
          · exact hao hc
          · exact ha hc
        exact .inl ⟨hbn, .inr ⟨hno, hm, hao⟩⟩
      · exact .inr (.inl (hthird hne hao hbn hg))
    · by_cases hbn : b = new.name
      · exact .inl ⟨hbn, .inl ha⟩
      · exact .inr (.inl (hthird hne hao hbn hg))
    · exact .inl ⟨hbn, .inl ha⟩

theorem PresentInputsRecorded.detach (hj : g.PresentInputsRecorded) (x : String) :
    (g.detach x).PresentInputsRecorded := by
  intro a b hr hb
  obtain ⟨ha, hg⟩ := reads_detach.mp hr
  obtain ⟨hbx, hgb⟩ := has_detach.mp hb
  exact mem_consumers_detach.mpr ⟨hbx, hj a b hg hgb, fun hx => ha hx.1⟩

/-- Bypassing a node loses no consumer: those of the node are recorded with its producer. -/
theorem PresentInputsRecorded.bypass (hj : g.PresentInputsRecorded) (hp : g.PlainNames)
    (ht : g.has (Reference.nodeOf primary) = true) :
    (bypass name primary g).PresentInputsRecorded := by
  intro a b hr hb
  obtain ⟨hbn, hgb⟩ := has_bypass.mp hb
  obtain ⟨ha, hr⟩ := (reads_bypass (hp _ ht)).mp hr
  refine (mem_consumers_bypass (hp _ ht) ht).mpr ⟨hbn, ?_, fun hx => ha hx.1⟩
  rcases hr with ⟨-, hg⟩ | ⟨hc, ⟨hg, -⟩ | ⟨-, hbt⟩⟩
  · exact .inl ⟨hj a b hg hgb, fun _ => ha⟩
  · exact .inl ⟨hj a b hg hgb, fun _ => ha⟩
  · exact .inr ⟨hbt, hc⟩

/-- Dropping feeders loses no consumer that stays. -/
theorem PresentInputsRecorded.thinned (hj : g.PresentInputsRecorded) (name : String) :
    (thinned name g).PresentInputsRecorded := by
  intro a b hr hb
  have ht := thinned_thins name g
  exact (ht.consumers a b).mpr
    ⟨hb, hj a b (ht.reads.mp hr).2 (ht.has_of_has hb), fun hx => hx.1 hr.has⟩

/-- What stays after feeders were dropped overlooks what the whole graph does: a feeder that was
dropped is read by none that stays but the folded node. -/
theorem overlooks_thinned (hj : g.PresentInputsRecorded) :
    (¬(thinned name g).has new.name = true ∧ ∃ a, (thinned name g).Reads a new.name ∧ a ≠ name ∧
      a ∉ g.consumers name) ↔ g.Overlooks (.fold new name) := by
  have ht := thinned_thins name g
  refine ⟨?_, ?_⟩
  · intro hboth
    obtain ⟨hn, a, hr, hne, hc⟩ := hboth
    obtain ⟨hka, hg⟩ := ht.reads.mp hr
    refine ⟨fun hgn => ?_, a, hg, hne, hc, hka⟩
    rcases (ht.dropped _ hgn hn).2.2 a (hj a _ hg hgn) with heq | ⟨-, hna⟩
    · exact hne heq
    · exact hna hka
  · intro hboth
    obtain ⟨hn, a, hg, hne, hc, hka⟩ := hboth
    exact ⟨fun hkn => hn (ht.has_of_has hkn), a, ht.reads.mpr ⟨hka, hg⟩, hne, hc⟩

end Steps

namespace Command

variable {c : Command} {cs : List Command}

theorem Moves.presentInputsRecorded_iff (hm : c.Moves g h) (hc : c.Plain) (hp : g.PlainNames)
    (hj : g.PresentInputsRecorded) : h.PresentInputsRecorded ↔ ¬g.Overlooks c := by
  cases hm with
  | remove hn => exact iff_of_true (hj.detach _) not_false
  | splice hs =>
    exact iff_of_true (hj.bypass hp (has_primary hs)) not_false
  | replace hs =>
    exact (supersedes_of_check (hc _ rfl) hs).recorded_iff hj (checkReplace_eq_ok.mp hs).2.2.1
  | insert hs => exact (interpose_enters (hc _ rfl)).recorded_iff hj
  | swap hs => exact (standBefore_enters (hc _ rfl)).recorded_iff hj
  | @fold _ new name hs =>
    have hf : Supersedes new.bare name (g.consumers name) (thinned name g) _ :=
      supersedes_of_checkFold (hc new rfl) hs
    have hl : ∀ c ∈ (thinned name g).consumers name, c = name ∨ c ∈ g.consumers name :=
      fun c hcm => .inr (((thinned_thins name g).consumers c name).mp hcm).2.1
    rw [hf.recorded_iff (hj.thinned name) hl]
    exact not_congr (overlooks_thinned hj)

/-- A run of any commands on a graph built from any nodes keeps every input that names a node
recorded, exactly if no command on the way overlooks a node that reads the name it brings in. -/
theorem build_presentInputsRecorded_iff {ns : List Node}
    (hp : ∀ n ∈ ns, Reference.isPlain n.name = true) (hc : ∀ c ∈ cs, c.Plain)
    (hr : Reaches (build ns) cs h) :
    Throughout PresentInputsRecorded (build ns) cs ↔
      AtEveryStep (fun g c => ¬g.Overlooks c) (build ns) cs := by
  refine Reaches.throughout_iff (Q := PlainNames) ?_ hr hc (build_plainNames hp)
    (build_presentInputsRecorded ns)
  intro g h c hcp hg hj hm
  exact ⟨hm.plainNames hcp hg, hm.presentInputsRecorded_iff hcp hg hj⟩

/-- A node with an input that names no node yet. -/
def earlyReader : Node := .make "Relu" "c" ["late"]

/-- The node that comes in under the name that was missing. -/
def lateSource : Node := .make "Placeholder" "late" []

def bringIn (cs : List String) : Command := .insert lateSource none cs

theorem plain_bringIn (cs : List String) : (bringIn cs).Plain := by
  intro n hn
  cases hn
  decide

theorem moves_bringIn {cs : List String} (hc : checkInsert lateSource none cs g = .ok ()) :
    (bringIn cs).Moves g (interpose lateSource none cs g) := .insert hc

/-- A missing node that comes in with its reader listed loses nothing. -/
theorem bringIn_listed :
    Throughout PresentInputsRecorded (build [earlyReader]) [bringIn ["c"]] := by
  have hm : (bringIn ["c"]).Moves (build [earlyReader]) _ := moves_bringIn rfl
  refine (build_presentInputsRecorded_iff (by decide) ?_ (reaches_cons.mpr ⟨_, hm, .done _⟩)).mpr ?_
  · intro c hc
    cases List.mem_singleton.mp hc
    exact plain_bringIn _
  · refine (atEveryStep_cons hm).mpr ⟨?_, atEveryStep_nil⟩
    intro hboth
    obtain ⟨-, a, ⟨n, hn, -⟩, ha⟩ := hboth
    obtain ⟨e, he, -⟩ := Option.map_eq_some_iff.mp hn
    obtain ⟨hme, rfl⟩ := find?_eq_some.mp he
    have hall : ∀ e ∈ (build [earlyReader]).entries, e.name ∈ ["c"] := by decide
    exact ha (hall e hme)

/-- A missing node that comes in without its reader listed is not recorded with it, although the
graph is acyclic. -/
theorem bringIn_overlooked :
    ¬∀ (ns : List Node) (cs : List Command) (h : Graph),
      (∀ n ∈ ns, Reference.isPlain n.name = true) → (∀ c ∈ cs, c.Plain) →
        Reaches (build ns) cs h → h.Acyclic → h.PresentInputsRecorded := by
  intro hall
  have hm : (bringIn []).Moves (build [earlyReader]) _ := moves_bringIn rfl
  have hj := hall [earlyReader] [bringIn []] _ (by decide) ?_ (reaches_cons.mpr ⟨_, hm, .done _⟩) ?_
  · have hr : (interpose lateSource none [] (build [earlyReader])).Reads "c" "late" :=
      ⟨earlyReader, by decide, by decide⟩
    have hc := hj "c" "late" hr (by decide)
    revert hc
    decide
  · intro c hc
    cases List.mem_singleton.mp hc
    exact plain_bringIn _
  · exact acyclic_of_rank (fun x => if x = "c" then 1 else 0) (by decide)

end Command
end Dataflow.Graph
