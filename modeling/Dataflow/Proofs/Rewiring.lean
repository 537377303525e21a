import Dataflow.Proofs.Recording

/- All commands but removing ask about consumers before they take a node out. On a consistent
   graph they leave no input without a node, and none that is not recorded; that does not depend
   on the graph being acyclic (`Moves.closed`, `reaches_inputsRecorded`).

   The other direction is not kept. A node that reads itself, or that feeds a node it reads, may
   be recorded as a consumer after it went away or stopped reading, as in `breakLoop_stranded`. A
   step strands a consumer exactly under `Strands`, and `tryBuild_consumersReferring_iff` says
   when a run does on a graph of the strict builder. -/

namespace Dataflow.Graph

variable {g h k : Graph} {a b : String}

namespace Command

/-- The command takes no node out without asking its consumers. -/
def Rewires : Command → Prop
  | .remove _ => False
  | .splice _ | .replace .. | .insert .. | .swapConstant .. | .fold .. => True

end Command

/-! ## Inputs keep their nodes -/

section Closed

variable {new : Node} {source old name primary : String} {cs : List String}

theorem Enters.closed (he : Enters new source cs g h) (hc : g.Closed)
    (hi : ∀ b ∈ new.inputNodes, b = new.name ∨ g.has b = true) : h.Closed := by
  intro a b hr
  rw [he.has]
  rcases (he.reads a b).mp hr with ⟨-, hb⟩ | ⟨-, ⟨-, hg⟩ | ⟨-, ⟨hg, -⟩ | ⟨-, hb⟩⟩⟩
  · exact hi b hb
  · exact .inr (hc a b hg)
  · exact .inr (hc a b hg)
  · exact .inl hb

/-- A replaced node leaves no input behind, since all its readers are listed. Its own inputs need not
name nodes: they go with it. -/
theorem Supersedes.closed (hs : Supersedes new old cs g h)
    (hc : ∀ a b, g.Reads a b → a ≠ old → g.has b = true)
    (hl : ∀ a, g.Reads a old → a = old ∨ a ∈ cs)
    (hi : ∀ b ∈ new.inputNodes, b = new.name ∨ (b ≠ old ∧ g.has b = true)) : h.Closed := by
  intro a b hr
  rw [hs.has]
  rcases (hs.reads a b).mp hr with ⟨-, hb⟩ | ⟨-, hao, ⟨ha, hg⟩ | ⟨-, ⟨hg, hb⟩ | ⟨-, hb⟩⟩⟩
  · exact hi b hb
  · refine .inr ⟨?_, hc a b hg hao⟩
    intro heq
    subst heq
    exact (hl a hg).elim hao ha
  · exact .inr ⟨hb, hc a b hg hao⟩
  · exact .inl hb

/-- A bypassed node leaves no input behind, since its readers read its producer. -/
theorem Closed.bypass (hc : g.Closed) (hj : g.PresentInputsRecorded) (hp : g.PlainNames)
    (ht : g.has (Reference.nodeOf primary) = true) (hn : Reference.nodeOf primary ≠ name) :
    (bypass name primary g).Closed := by
  intro a b hr
  rw [has_bypass]
  obtain ⟨-, ⟨ha, hg⟩ | ⟨-, ⟨hg, hb⟩ | ⟨-, rfl⟩⟩⟩ := (reads_bypass (hp _ ht)).mp hr
  · refine ⟨?_, hc a b hg⟩
    intro heq
    subst heq
    exact ha (hj a b hg (hc a b hg))
  · exact ⟨hb, hc a b hg⟩
  · exact ⟨hn, ht⟩

theorem has_thinned (hc : g.Closed) (hj : g.PresentInputsRecorded)
    (hr : (thinned name g).Reads a b) (ha : a ≠ name) : (thinned name g).has b = true := by
  have ht := thinned_thins name g
  obtain ⟨hka, hg⟩ := ht.reads.mp hr
  refine by_contra fun hb => ?_
  have hgb : g.has b = true := hc a b hg
  rcases (ht.dropped b hgb hb).2.2 a (hj a b hg hgb) with heq | ⟨-, hna⟩
  · exact ha heq
  · exact hna hka

end Closed

namespace Command

variable {c : Command} {cs : List Command}

theorem Moves.closed (hm : c.Moves g h) (hw : c.Rewires) (hc : c.Plain) (hp : g.PlainNames)
    (hg : g.Closed) (hj : g.PresentInputsRecorded) : h.Closed := by
  cases hm with
  | remove _ => exact hw.elim
  | splice hs =>
    obtain ⟨-, -, -, -, -, -, hne, -⟩ := checkSplice_eq_ok.mp hs
    exact hg.bypass hj hp (has_primary hs) hne
  | replace hs =>
    obtain ⟨ho, -, hl, hi⟩ := checkReplace_eq_ok.mp hs
    exact (supersedes_of_check (hc _ rfl) hs).closed (fun a b hr _ => hg a b hr)
      (fun a hr => hl a (hj a _ hr ho)) hi
  | insert hs => exact (interpose_enters (hc _ rfl)).closed hg (checkInsert_eq_ok.mp hs).2.2
  | swap hs => exact (standBefore_enters (hc _ rfl)).closed hg (checkSwap_eq_ok.mp hs).2.2.2.2
  | @fold _ new name hs =>
    have ht := thinned_thins name g
    have hf : Supersedes new.bare name (g.consumers name) (thinned name g) _ :=
      supersedes_of_checkFold (hc new rfl) hs
    refine hf.closed (fun a b hr ha => has_thinned hg hj hr ha) ?_ ?_
    · intro a hr
      have hga := (ht.reads.mp hr).2
      exact .inr (hj a name hga (hg a name hga))
    · intro b hb
      cases hb

/-- On a graph whose inputs all name nodes no reader can be overlooked. -/
theorem not_overlooks (hg : g.Closed) : ¬g.Overlooks c := by
  cases c with
  | remove _ => exact id
  | splice _ => exact id
  | replace new _ _ => exact fun ⟨hn, a, hr, _⟩ => hn (hg a _ hr)
  | insert new _ _ => exact fun ⟨hn, a, hr, _⟩ => hn (hg a _ hr)
  | swapConstant new _ _ => exact fun ⟨hn, a, hr, _⟩ => hn (hg a _ hr)
  | fold new _ => exact fun ⟨hn, a, hr, _⟩ => hn (hg a _ hr)

theorem Moves.presentInputsRecorded (hm : c.Moves g h) (hc : c.Plain) (hp : g.PlainNames)
    (hg : g.Closed) (hj : g.PresentInputsRecorded) : h.PresentInputsRecorded :=
  (hm.presentInputsRecorded_iff hc hp hj).mpr (not_overlooks hg)

end Command

/-- What rewiring keeps: plain names, inputs that name nodes which record them, and consumers that are
recorded once. -/
structure Recorded (g : Graph) : Prop where
  plainNames : g.PlainNames
  closed : g.Closed
  presentInputsRecorded : g.PresentInputsRecorded
  consumersDistinct : g.ConsumersDistinct

theorem Recorded.inputsRecorded (hg : g.Recorded) : g.InputsRecorded :=
  inputsRecorded_iff.mpr ⟨hg.closed, hg.presentInputsRecorded⟩

theorem recorded_of_check (hc : g.check = .ok ()) (hp : g.PlainNames)
    (hd : g.ConsumersDistinct) : g.Recorded := by
  obtain ⟨hg, hj⟩ := inputsRecorded_iff.mp (check_eq_ok_iff.mp hc).1
  exact ⟨hp, hg, hj, hd⟩

theorem name_of_find? {e : Entry} {x : String} (he : g.find? x = some e) : e.name = x :=
  (find?_eq_some.mp he).2

namespace Command

variable {c : Command} {cs : List Command}

theorem Moves.recorded (hm : c.Moves g h) (hc : c.Rewires ∧ c.Plain) (hg : g.Recorded) :
    h.Recorded where
  plainNames := hm.plainNames hc.2 hg.plainNames
  closed := hm.closed hc.1 hc.2 hg.plainNames hg.closed hg.presentInputsRecorded
  presentInputsRecorded :=
    hm.presentInputsRecorded hc.2 hg.plainNames hg.closed hg.presentInputsRecorded
  consumersDistinct := hm.consumersDistinct hg.consumersDistinct

/-- A run of rewiring commands on a consistent graph keeps every input recorded with a node, every
entry under its name, and every consumer recorded once, whatever cycles the graph has. -/
theorem reaches_inputsRecorded (hk : g.check = .ok ()) (hp : g.PlainNames)
    (hd : g.ConsumersDistinct) (hc : ∀ c ∈ cs, c.Rewires ∧ c.Plain) (hr : Reaches g cs h) :
    h.InputsRecorded ∧ (∀ x e, h.find? x = some e → e.name = x) ∧ h.ConsumersDistinct := by
  have hh : h.Recorded := hr.keeps (fun _ _ _ hc hg hm => hm.recorded hc hg) hc
    (recorded_of_check hk hp hd)
  exact ⟨hh.inputsRecorded, fun _ _ => name_of_find?, hh.consumersDistinct⟩

/-- A node that reads itself, as merges in loops do. -/
def loopNode : Node := .make "Merge" "loop" ["loop"]

def loopNodes : List Node := [loopNode, .make "Relu" "exit" ["loop"]]

def relay : Command := .insert (.make "Identity" "relay" ["loop"]) (some "loop") ["exit"]

theorem relay_rewires : ∀ c ∈ [relay], c.Rewires ∧ c.Plain := by
  intro c hc
  cases List.mem_singleton.mp hc
  refine ⟨trivial, fun n hn => ?_⟩
  cases hn
  decide

theorem loop_plain : ∀ n ∈ loopNodes, Reference.isPlain n.name = true := by decide

theorem moves_relay : relay.Moves (build loopNodes)
    (interpose (.make "Identity" "relay" ["loop"]) (some "loop") ["exit"] (build loopNodes)) :=
  .insert rfl

theorem relay_inputsRecorded : ∃ h, Reaches (build loopNodes) [relay] h ∧ h.InputsRecorded ∧
    (∀ x e, h.find? x = some e → e.name = x) ∧ h.ConsumersDistinct := by
  have hr : Reaches (build loopNodes) [relay] _ := reaches_cons.mpr ⟨_, moves_relay, .done _⟩
  exact ⟨_, hr, reaches_inputsRecorded rfl (build_plainNames loop_plain)
    (build_consumersDistinct loopNodes) relay_rewires hr⟩

end Command

/-! ## Steps that strand a recorded consumer -/

/-- The node that comes in would be recorded as a consumer of itself without reading itself, or a
consumer of a folded node went away as one of its feeders. -/
def Strands (g : Graph) : Command → Prop
  | .remove _ | .splice _ => False
  | .replace new old cs =>
    new.name ∉ new.inputNodes ∧
      new.name ∈ if new.name = old then cs else g.consumers new.name
  | .insert new _ _ | .swapConstant new _ _ =>
    new.name ∉ new.inputNodes ∧ new.name ∈ g.consumers new.name
  | .fold new name =>
    new.name ∈ g.consumers new.name ∨ ∃ a ∈ g.consumers name, ¬(thinned name g).has a = true

section Strands

variable {new : Node} {source old name primary : String} {cs : List String}

/-- The consumers of a node that comes in are those listed, which read it, and those of a node whose
name it took. Among these only that node itself may have stopped reading. -/
theorem Enters.referring_iff (he : Enters new source cs g h) (hg : g.ConsumersReferring)
    (hl : ∀ c ∈ cs, c ≠ new.name ∧ g.Reads c source) :
    h.ConsumersReferring ↔ ¬(new.name ∉ new.inputNodes ∧ new.name ∈ g.consumers new.name) := by
  rw [consumersReferring_iff] at hg ⊢
  refine ⟨?_, ?_⟩
  · intro hh hboth
    obtain ⟨hi, hm⟩ := hboth
    have hc : new.name ∈ h.consumers new.name := (he.consumers _ _).mpr (.inl ⟨rfl, .inr hm⟩)
    exact hi (he.reads_new.mp (hh _ _ hc))
  · intro hs a b ha
    rcases (he.consumers a b).mp ha with ⟨rfl, hc | hm⟩ | ⟨hb, hm, hn, hd⟩ | ⟨hb, rfl, -⟩
    · exact he.reads_listed (hl a hc).1 hc (hl a hc).2
    · by_cases hc : a ∈ cs
      · exact he.reads_listed (hl a hc).1 hc (hl a hc).2
      · by_cases han : a = new.name
        · subst han
          exact he.reads_new.mpr (by_contra fun hi => hs ⟨hi, hm⟩)
        · exact he.reads_kept han (hg a _ hm) fun hx => hc hx.2
    · have hr : g.Reads a b := hg a b hm
      exact he.reads_kept (fun han => hn ⟨han, han ▸ hr⟩) hr hd
    · exact he.reads_new.mpr hb

/-- The consumers of a node that takes the place of another are those listed, which read it if they
are still there, and those of a third node whose name it took. -/
theorem Supersedes.referring_iff (hs : Supersedes new old cs g h) (hg : g.ConsumersReferring)
    (hl : ∀ c ∈ cs, (new.name ≠ old → c ≠ new.name ∧ c ≠ old) ∧
      (g.has c = true → g.Reads c old)) :
    h.ConsumersReferring ↔
      ¬((new.name ∉ new.inputNodes ∧ new.name ∈ if new.name = old then cs else g.consumers new.name)
        ∨ ∃ a ∈ cs, a ≠ new.name ∧ ¬g.has a = true) := by
  rw [consumersReferring_iff] at hg ⊢
  refine ⟨?_, ?_⟩
  · intro hh hst
    rcases hst with ⟨hi, hm⟩ | ⟨a, ha, hne, hna⟩
    · have hc : new.name ∈ h.consumers new.name := by
        refine (hs.consumers _ _).mpr (.inl ⟨rfl, ?_⟩)
        split at hm
        · exact .inl hm
        · rename_i hn
          exact .inr ⟨hn, hm, hn⟩
      exact hi (hs.reads_new.mp (hh _ _ hc))
    · -- Whoever reads the new node is still there.
      have hc : a ∈ h.consumers new.name := (hs.consumers _ _).mpr (.inl ⟨rfl, .inl ha⟩)
      rcases (hs.has a).mp (hh _ _ hc).has with han | ⟨-, hga⟩
      · exact hne han
      · exact hna hga
  · intro hst a b ha
    obtain ⟨hself, hgone⟩ := not_or.mp hst
    rcases (hs.consumers a b).mp ha with
      ⟨rfl, hc | ⟨hn, hm, hao⟩⟩ | ⟨hb, hbo, hm, hnn, hno⟩ | ⟨hb, rfl, -⟩
    · by_cases han : a = new.name
      · -- Only a node that takes the old name itself lists itself.
        have heq : new.name = old := by_contra fun hn => ((hl a hc).1 hn).1 han
        subst han
        exact hs.reads_new.mpr (by_contra fun hi => hself ⟨hi, by rw [if_pos heq]; exact hc⟩)
      · have hga : g.has a = true := by_contra fun hna => hgone ⟨a, hc, han, hna⟩
        have hao : a ≠ old := by
          intro hao
          by_cases hn : new.name = old
          · exact han (hao.trans hn.symm)
          · exact ((hl a hc).1 hn).2 hao
        exact hs.reads_listed han hao hc ((hl a hc).2 hga)
    · by_cases han : a = new.name
      · subst han
        exact hs.reads_new.mpr (by_contra fun hi => hself ⟨hi, by rw [if_neg hn]; exact hm⟩)
      · exact hs.reads_kept han hao (hg a _ hm) fun hx => hn hx.1
    · have hr : g.Reads a b := hg a b hm
      exact hs.reads_kept (fun han => hnn ⟨han, han ▸ hr⟩) (fun hao => hno ⟨hao, hao ▸ hr⟩) hr
        fun hx => hbo hx.1
    · exact hs.reads_new.mpr hb

/-- Bypassing a node strands nobody, itself included: it is forgotten where it would be recorded. -/
theorem referring_bypass (hg : g.ConsumersReferring) (hp : g.PlainNames)
    (ht : g.has (Reference.nodeOf primary) = true) : (bypass name primary g).ConsumersReferring := by
  rw [consumersReferring_iff] at hg ⊢
  intro a b ha
  obtain ⟨hb, hm, hx⟩ := (mem_consumers_bypass (hp _ ht) ht).mp ha
  rw [reads_bypass (hp _ ht)]
  rcases hm with ⟨hm, -⟩ | ⟨hbt, hc⟩
  · have hr : g.Reads a b := hg a b hm
    by_cases hc : a ∈ g.consumers name
    · exact ⟨fun han => hx ⟨han, .inr ⟨han ▸ hc, .inl ⟨han ▸ hr, hb⟩⟩⟩, .inr ⟨hc, .inl ⟨hr, hb⟩⟩⟩
    · exact ⟨fun han => hx ⟨han, .inl ⟨han ▸ hc, han ▸ hr⟩⟩, .inl ⟨hc, hr⟩⟩
  · have hr : g.Reads a name := hg a name hc
    exact ⟨fun han => hx ⟨han, .inr ⟨han ▸ hc, .inr ⟨han ▸ hr, hbt⟩⟩⟩, .inr ⟨hc, .inr ⟨hr, hbt⟩⟩⟩

theorem referring_thinned (hg : g.ConsumersReferring) (name : String) :
    (thinned name g).ConsumersReferring := by
  rw [consumersReferring_iff] at hg ⊢
  intro a b ha
  have ht := thinned_thins name g
  obtain ⟨-, hm, hx⟩ := (ht.consumers a b).mp ha
  exact ht.reads.mpr ⟨by_contra fun hna => hx ⟨hna, hg a b hm⟩, hg a b hm⟩

/-- A node that reads itself is no feeder that could be dropped, so it is recorded with itself before
and after. -/
theorem mem_consumers_thinned_self {x : String} (hx : x ≠ name) :
    x ∈ (thinned name g).consumers x ↔ x ∈ g.consumers x := by
  have ht := thinned_thins name g
  rw [ht.consumers]
  refine ⟨?_, ?_⟩
  · exact fun hm => hm.2.1
  · intro hm
    have hk : (thinned name g).has x = true := by
      refine by_contra fun hk => ?_
      rcases (ht.dropped x (has_of_mem_consumers hm) hk).2.2 x hm with heq | ⟨hne, -⟩
      · exact hx heq
      · exact hne rfl
    exact ⟨hk, hm, fun hn => hn.1 hk⟩

end Strands

namespace Command

variable {c : Command} {cs : List Command}

/-- A fold strands a consumer exactly if it is the new node itself, or was dropped as a feeder. -/
theorem referring_fold_iff {new : Node} {name : String} (hp : Reference.isPlain new.name = true)
    (hc : checkFold new.bare name g = .ok ()) (hg : g.ConsumersReferring) :
    (collapse new.bare name g).ConsumersReferring ↔ ¬g.Strands (.fold new name) := by
  obtain ⟨ho, hl, -, -⟩ := checkReplace_eq_ok.mp (checkFold_eq_ok.mp hc).2.2
  have ht := thinned_thins name g
  have hs : Supersedes new.bare name (g.consumers name) (thinned name g) _ :=
    supersedes_of_checkFold hp hc
  have hlk : ∀ c ∈ g.consumers name, (new.name ≠ name → c ≠ new.name ∧ c ≠ name) ∧
      ((thinned name g).has c = true → (thinned name g).Reads c name) :=
    fun c hm => ⟨(hl c hm).1, fun hk => ht.reads.mpr ⟨hk, (hl c hm).2⟩⟩
  rw [hs.referring_iff (referring_thinned hg name) hlk]
  have hi : new.name ∉ new.bare.inputNodes := List.not_mem_nil
  refine not_congr ?_
  show (new.name ∉ new.bare.inputNodes ∧ new.name ∈ if new.name = name then g.consumers name
    else (thinned name g).consumers new.name) ∨ (∃ a ∈ g.consumers name, a ≠ new.name ∧ _) ↔ _
  by_cases hn : new.name = name
  · rw [if_pos hn]
    refine ⟨?_, ?_⟩
    · intro hcase
      rcases hcase with ⟨-, hm⟩ | ⟨a, ha, -, hna⟩
      · exact .inl (hn ▸ hm)
      · exact .inr ⟨a, ha, hna⟩
    · intro hcase
      rcases hcase with hm | ⟨a, ha, hna⟩
      · exact .inl ⟨hi, hn ▸ hm⟩
      · -- The folded node itself is never dropped.
        exact .inr ⟨a, ha, fun han => hna (by rw [han, hn]; exact ht.stays ho), hna⟩
  · rw [if_neg hn, mem_consumers_thinned_self hn]
    refine ⟨?_, ?_⟩
    · intro hcase
      rcases hcase with ⟨-, hm⟩ | ⟨a, ha, -, hna⟩
      · exact .inl hm
      · exact .inr ⟨a, ha, hna⟩
    · intro hcase
      rcases hcase with hm | ⟨a, ha, hna⟩
      · exact .inl ⟨hi, hm⟩
      · exact .inr ⟨a, ha, ((hl a ha).1 hn).1, hna⟩

theorem Moves.consumersReferring_iff (hm : c.Moves g h) (hc : c.Rewires ∧ c.Plain)
    (hp : g.PlainNames) (hg : g.ConsumersReferring) :
    h.ConsumersReferring ↔ ¬g.Strands c := by
  cases hm with
  | remove _ => exact hc.1.elim
  | splice hs =>
    exact iff_of_true (referring_bypass hg hp (has_primary hs)) not_false
  | @replace _ new old cs hs =>
    obtain ⟨-, hl, -, -⟩ := checkReplace_eq_ok.mp hs
    rw [(supersedes_of_check (hc.2 _ rfl) hs).referring_iff hg
      fun c hm => ⟨(hl c hm).1, fun _ => (hl c hm).2⟩]
    refine not_congr (or_iff_left ?_)
    intro hex
    obtain ⟨a, ha, -, hna⟩ := hex
    exact hna (hl a ha).2.has
  | insert hs =>
    exact (interpose_enters (hc.2 _ rfl)).referring_iff hg (checkInsert_eq_ok.mp hs).2.1
  | swap hs =>
    exact (standBefore_enters (hc.2 _ rfl)).referring_iff hg (checkSwap_eq_ok.mp hs).2.2.2.1
  | @fold _ new name hs => exact referring_fold_iff (hc.2 new rfl) hs hg

theorem Moves.check (hm : c.Moves g h) (hc : c.Rewires ∧ c.Plain) (hg : g.Recorded)
    (hr : g.ConsumersReferring) (hs : ¬g.Strands c) : h.check = .ok () :=
  check_eq_ok_iff.mpr ⟨(hm.recorded hc hg).inputsRecorded,
    (hm.consumersReferring_iff hc hg.plainNames hr).mpr hs⟩

/-- A run of rewiring commands on a graph of the strict builder keeps every recorded consumer a node
that reads what it is recorded with, exactly if no command on the way strands one. -/
theorem tryBuild_consumersReferring_iff {ns : List Node} (hb : tryBuild ns = .ok g)
    (hp : ∀ n ∈ ns, Reference.isPlain n.name = true) (hc : ∀ c ∈ cs, c.Rewires ∧ c.Plain)
    (hr : Reaches g cs h) :
    Throughout ConsumersReferring g cs ↔ AtEveryStep (fun g c => ¬g.Strands c) g cs := by
  obtain ⟨-, rfl⟩ := tryBuild_eq_ok.mp hb
  refine hr.throughout_iff (Q := PlainNames) ?_ hc (build_plainNames hp)
    (build_consumersReferring ns)
  intro g h c hcp hg hj hm
  exact ⟨hm.plainNames hcp.2 hg, hm.consumersReferring_iff hcp hg hj⟩

/-- Rewiring a loop strands nobody, as long as no node takes the name of one that reads itself. -/
theorem relay_consumersReferring :
    Throughout ConsumersReferring (build loopNodes) [relay] := by
  refine (tryBuild_consumersReferring_iff rfl loop_plain relay_rewires
    (reaches_cons.mpr ⟨_, moves_relay, .done _⟩)).mpr ?_
  refine (atEveryStep_cons moves_relay).mpr ⟨?_, atEveryStep_nil⟩
  intro hboth
  obtain ⟨-, hm⟩ := hboth
  revert hm
  decide

/-- Replaces a node that reads itself by one of the same name that reads nothing. -/
def breakLoop : Command := .replace (.make "Relu" "loop" []) "loop" ["loop"]

/-- A node that reads itself stays recorded as its own consumer when it is replaced by a node that
reads nothing. -/
theorem breakLoop_stranded :
    ¬∀ (ns : List Node) (g h : Graph) (cs : List Command), tryBuild ns = .ok g →
      (∀ n ∈ ns, Reference.isPlain n.name = true) → (∀ c ∈ cs, c.Rewires ∧ c.Plain) →
        Reaches g cs h → h.ConsumersReferring := by
  intro hall
  have hm : breakLoop.Moves (build [loopNode])
      (exchange (.make "Relu" "loop" []) "loop" ["loop"] (build [loopNode])) := .replace rfl
  have hr := hall [loopNode] _ _ [breakLoop] rfl (by decide) ?_ (reaches_cons.mpr ⟨_, hm, .done _⟩)
  · obtain ⟨n, hn, hi⟩ := consumersReferring_iff.mp hr "loop" "loop" (by decide)
    have heq : (exchange (.make "Relu" "loop" []) "loop" ["loop"] (build [loopNode])).node? "loop"
        = some (.make "Relu" "loop" []) := by decide
    cases hn.symm.trans heq
    cases hi
  · intro c hc
    cases List.mem_singleton.mp hc
    refine ⟨trivial, fun n hn => ?_⟩
    cases hn
    decide

end Command
end Dataflow.Graph
