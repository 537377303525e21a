import Dataflow.Graph.Command
import Dataflow.Proofs.Effects

/- A command that is not refused passed its check and made its change. That is said once here,
   with one case for each command (`Moves`, `run_iff_moves`); and what every command keeps,
   whatever it does to inputs and consumers: the names stay plain, and no consumer is recorded
   twice. What every step keeps, a run keeps (`Reaches.keeps`), and what a step keeps exactly
   under a condition, a run has throughout exactly under it (`Reaches.throughout_iff`). -/

namespace Dataflow

def Node.bare (n : Node) : Node := { n with inputs := [] }

namespace Graph

/-- No node has a name that could be read as a control reference or as one with a port. -/
def PlainNames (g : Graph) : Prop := ∀ x, g.has x = true → Reference.isPlain x = true

/-- No consumer is recorded twice with one node. -/
def ConsumersDistinct (g : Graph) : Prop := ∀ e ∈ g.entries, e.consumers.Nodup

variable {g h k : Graph} {x y : String}

/-! ## Recording a consumer once -/

theorem nodup_eraseDups : ∀ l : List String, l.eraseDups.Nodup
  | [] => List.nodup_nil
  | c :: rest => by
    rw [List.eraseDups_cons, List.nodup_cons, List.mem_eraseDups]
    exact ⟨by simp, nodup_eraseDups _⟩
termination_by l => l.length
decreasing_by
  -- The rest is filtered before it is searched.
  have := List.length_filter_le (fun d => !d == c) rest
  simp only [List.length_cons]
  omega

theorem ConsumersDistinct.nodup_consumers (hd : g.ConsumersDistinct) (x : String) :
    (g.consumers x).Nodup := by
  unfold consumers
  cases he : g.find? x with
  | none => exact List.nodup_nil
  | some e => exact hd e (find?_eq_some.mp he).1

/-- Changing entries keeps the recorded consumers distinct if each change does. -/
theorem ConsumersDistinct.mapEntries (hd : g.ConsumersDistinct) {f : Entry → Entry}
    (hf : ∀ e, (f e).name = e.name) (hk : ∀ e, e.consumers.Nodup → (f e).consumers.Nodup) :
    (g.mapEntries f hf).ConsumersDistinct := by
  intro e he
  obtain ⟨e', he', rfl⟩ := List.mem_map.mp he
  exact hk e' (hd e' he')

theorem nodup_atName {f : Entry → Entry} (hk : ∀ e, e.consumers.Nodup → (f e).consumers.Nodup)
    (e : Entry) (he : e.consumers.Nodup) : (atName x f e).consumers.Nodup := by
  unfold atName
  split
  · exact hk e he
  · exact he

theorem ConsumersDistinct.updateConsumers (hd : g.ConsumersDistinct) (x : String)
    {f : Entry → List String} (hk : ∀ e, e.consumers.Nodup → (f e).Nodup) :
    (g.updateConsumers x f).ConsumersDistinct :=
  hd.mapEntries _ (nodup_atName (f := fun e => { e with consumers := f e }) hk)

theorem ConsumersDistinct.link (hd : g.ConsumersDistinct) (p c : String) :
    (g.link p c).ConsumersDistinct :=
  hd.updateConsumers p fun _ he => Entry.nodup_addConsumer he c

theorem ConsumersDistinct.unlink (hd : g.ConsumersDistinct) (p c : String) :
    (g.unlink p c).ConsumersDistinct :=
  hd.updateConsumers p fun _ he => he.filter _

theorem ConsumersDistinct.redirectReferences (hd : g.ConsumersDistinct) (c p : String)
    (t : Reference → String) : (g.redirectReferences c p t).ConsumersDistinct :=
  hd.mapEntries _ (nodup_atName (f := fun e => { e with node := e.node.redirectInputs p t })
    fun _ he => he)

theorem ConsumersDistinct.linkAll (hd : g.ConsumersDistinct) (ps : List String) (c : String) :
    (g.linkAll ps c).ConsumersDistinct := by
  induction ps generalizing g with
  | nil => exact hd
  | cons p ps ih => exact ih (hd.link p c)

theorem ConsumersDistinct.unlinkAll (hd : g.ConsumersDistinct) (ps : List String) (c : String) :
    (g.unlinkAll ps c).ConsumersDistinct := by
  induction ps generalizing g with
  | nil => exact hd
  | cons p ps ih => exact ih (hd.unlink p c)

theorem ConsumersDistinct.redirect (hd : g.ConsumersDistinct) (cs : List String) (p : String)
    (t : Reference → String) : (g.redirect cs p t).ConsumersDistinct := by
  induction cs generalizing g with
  | nil => exact hd
  | cons c cs ih => exact ih (hd.redirectReferences c p t)

theorem ConsumersDistinct.divert (hd : g.ConsumersDistinct) (cs : List String) (p : String)
    (t : Reference → String) : (divert cs p t g).ConsumersDistinct := by
  induction cs generalizing g with
  | nil => exact hd
  | cons c cs ih => exact ih ((hd.redirectReferences c p t).unlink p c)

theorem ConsumersDistinct.detach (hd : g.ConsumersDistinct) (x : String) :
    (g.detach x).ConsumersDistinct := by
  have he : (g.erase x).ConsumersDistinct := fun e hm => hd e (List.mem_filter.mp hm).1
  unfold Graph.detach
  split
  · exact hd
  · exact he.unlinkAll _ x

/-- An entry that is put in with the consumers of a list has each of them once. -/
theorem ConsumersDistinct.place (hd : g.ConsumersDistinct) (position : Nat) (new : Node)
    (cs : List String) : (g.place position (.withConsumers new cs)).ConsumersDistinct := by
  intro e he
  rcases mem_place.mp he with rfl | ⟨hm, -⟩
  · exact nodup_eraseDups cs
  · exact hd e hm

theorem ConsumersDistinct.settle (hd : g.ConsumersDistinct) (new : Node) (cs : List String)
    (position : Nat) : (settle new cs position g).ConsumersDistinct :=
  (hd.place position new cs).linkAll _ _

theorem ConsumersDistinct.bypass (hd : g.ConsumersDistinct) (name primary : String) :
    (bypass name primary g).ConsumersDistinct := by
  have hr := hd.redirect (g.consumers name) name (pastSplice primary)
  exact (hr.updateConsumers (Reference.nodeOf primary) fun _ _ => nodup_eraseDups _).detach name

theorem ConsumersDistinct.interpose (hd : g.ConsumersDistinct) (new : Node)
    (producer? : Option String) (cs : List String) :
    (interpose new producer? cs g).ConsumersDistinct := by
  cases producer? with
  | none => exact (hd.detach _).settle _ _ _
  | some producer => exact ((hd.detach _).divert _ _ _).settle _ _ _

theorem ConsumersDistinct.standBefore (hd : g.ConsumersDistinct) (new : Node) (old : String)
    (cs : List String) : (standBefore new old cs g).ConsumersDistinct := by
  have hs := ((hd.detach new.name).divert cs old (renamed new.name)).settle new
    (cs ++ g.inherited new.name none)
  simp only [Graph.standBefore]
  cases (Graph.divert cs old (renamed new.name) (g.detach new.name)).position? old with
  | none => exact hs _
  | some position => exact hs position

theorem ConsumersDistinct.exchange (hd : g.ConsumersDistinct) (new : Node) (old : String)
    (cs : List String) : (exchange new old cs g).ConsumersDistinct := by
  have hv : (g.vacate new old).ConsumersDistinct := by
    unfold vacate
    split
    · exact hd
    · exact hd.detach _
  simp only [Graph.exchange, seat?]
  cases (g.vacate new old).position? old with
  | none => exact hv
  | some position => exact (((hv.detach old).place _ _ _).redirect _ _ _).linkAll _ _

theorem ConsumersDistinct.dropFeeders (hd : g.ConsumersDistinct) (name : String)
    (ps : List String) : (dropFeeders name ps g).ConsumersDistinct := by
  induction ps generalizing g with
  | nil => exact hd
  | cons p ps ih =>
    show (Graph.dropFeeders name ps (if g.feedsOnly p name then g.detach p else g)).ConsumersDistinct
    split
    · exact ih (hd.detach p)
    · exact ih hd

namespace Command

/-! ## Moves -/

/-- The node that a command brings in. -/
def newNode? : Command → Option Node
  | .remove _ | .splice _ => none
  | .replace new .. | .insert new .. | .swapConstant new .. | .fold new .. => some new

/-- The command brings in no node without a plain name. -/
def Plain (c : Command) : Prop := ∀ n, c.newNode? = some n → Reference.isPlain n.name = true

/-- What a command that is not refused does: it passed its check, and made its change. -/
inductive Moves : Command → Graph → Graph → Prop where
  | remove {g : Graph} {name : String} :
    g.has name = true → Moves (.remove name) g (g.detach name)
  | splice {g : Graph} {name primary : String} :
    checkSplice name g = .ok primary → Moves (.splice name) g (bypass name primary g)
  | replace {g : Graph} {new : Node} {old : String} {cs : List String} :
    checkReplace new old cs g = .ok () → Moves (.replace new old cs) g (exchange new old cs g)
  | insert {g : Graph} {new : Node} {producer? : Option String} {cs : List String} :
    checkInsert new producer? cs g = .ok () →
      Moves (.insert new producer? cs) g (interpose new producer? cs g)
  | swap {g : Graph} {new : Node} {old : String} {cs : List String} :
    checkSwap new old cs g = .ok () →
      Moves (.swapConstant new old cs) g (standBefore new old cs g)
  | fold {g : Graph} {new : Node} {name : String} :
    checkFold new.bare name g = .ok () →
      Moves (.fold new name) g (collapse new.bare name g)

theorem answering_eq_ok {α : Type} {f : α → Option Node} {r : Except Error α × Graph}
    {answer : Option Node} :
    answering f r = (.ok answer, h) ↔ ∃ a, r = (.ok a, h) ∧ f a = answer := by
  obtain ⟨x, k⟩ := r
  cases x with
  | error e => simp [answering, Except.map]
  | ok a =>
    simp only [answering, Except.map, Prod.mk.injEq, Except.ok.injEq]
    refine ⟨?_, ?_⟩
    · intro hboth
      obtain ⟨hf, hk⟩ := hboth
      exact ⟨a, ⟨rfl, hk⟩, hf⟩
    · intro hex
      obtain ⟨b, ⟨rfl, hk⟩, hf⟩ := hex
      exact ⟨hf, hk⟩

theorem answering_guarded {α : Type} {f : α → Option Node} {check : Graph → Except Error α}
    {change : α → Graph → Graph} :
    (∃ answer, answering f (Edit.guarded check change g) = (.ok answer, h)) ↔
      ∃ a, check g = .ok a ∧ h = change a g := by
  refine ⟨?_, ?_⟩
  · intro hex
    obtain ⟨answer, hr⟩ := hex
    obtain ⟨a, ha, -⟩ := answering_eq_ok.mp hr
    exact ⟨a, Edit.guarded_eq_ok.mp ha⟩
  · intro hex
    obtain ⟨a, ha⟩ := hex
    exact ⟨f a, answering_eq_ok.mpr ⟨a, Edit.guarded_eq_ok.mpr ha, rfl⟩⟩

theorem run_iff_moves {c : Command} :
    (∃ answer, c.run g = (.ok answer, h)) ↔ c.Moves g h := by
  refine ⟨?_, ?_⟩
  · intro hr
    cases c with
    | remove name =>
      obtain ⟨n, hn, rfl⟩ := answering_guarded.mp hr
      exact .remove (has_of_node? (node_eq_ok.mp hn))
    | splice name =>
      obtain ⟨primary, hc, rfl⟩ := answering_guarded.mp hr
      exact .splice hc
    | replace new old cs =>
      obtain ⟨⟨⟩, hc, rfl⟩ := answering_guarded.mp hr
      exact .replace hc
    | insert new producer? cs =>
      obtain ⟨⟨⟩, hc, rfl⟩ := answering_guarded.mp hr
      exact .insert hc
    | swapConstant new old cs =>
      obtain ⟨⟨⟩, hc, rfl⟩ := answering_guarded.mp hr
      exact .swap hc
    | fold new name =>
      obtain ⟨⟨⟩, hc, rfl⟩ := answering_guarded.mp hr
      exact .fold hc
  · intro hm
    cases hm with
    | remove hn =>
      obtain ⟨n, hn⟩ := has_iff_exists.mp hn
      exact answering_guarded.mpr ⟨n, node_eq_ok.mpr hn, rfl⟩
    | splice hc => exact answering_guarded.mpr ⟨_, hc, rfl⟩
    | replace hc => exact answering_guarded.mpr ⟨(), hc, rfl⟩
    | insert hc => exact answering_guarded.mpr ⟨(), hc, rfl⟩
    | swap hc => exact answering_guarded.mpr ⟨(), hc, rfl⟩
    | fold hc => exact answering_guarded.mpr ⟨(), hc, rfl⟩

theorem Moves.unique {c : Command} (hm : c.Moves g h) (hm' : c.Moves g k) : h = k := by
  obtain ⟨answer, hr⟩ := run_iff_moves.mpr hm
  obtain ⟨answer', hr'⟩ := run_iff_moves.mpr hm'
  exact (Prod.mk.inj (hr.symm.trans hr')).2

/-! ## What every move keeps -/

theorem checkReplace_unlisted {new : Node} {old : String} {cs : List String}
    (hc : checkReplace new old cs g = .ok ()) (hn : new.name ≠ old) : new.name ∉ cs :=
  fun hm => (((checkReplace_eq_ok.mp hc).2.1 new.name hm).1 hn).1 rfl

theorem supersedes_of_check {new : Node} {old : String} {cs : List String}
    (hp : Reference.isPlain new.name = true) (hc : checkReplace new old cs g = .ok ()) :
    Supersedes new old cs g (exchange new old cs g) :=
  exchange_supersedes hp (checkReplace_eq_ok.mp hc).1 (checkReplace_unlisted hc)

theorem supersedes_of_checkFold {new : Node} {name : String}
    (hp : Reference.isPlain new.name = true) (hc : checkFold new name g = .ok ()) :
    Supersedes new name (g.consumers name) (thinned name g) (collapse new name g) := by
  have hr := (checkFold_eq_ok.mp hc).2.2
  exact collapse_supersedes hp (checkReplace_eq_ok.mp hr).1 (checkReplace_unlisted hr)

theorem Moves.has {c : Command} (hm : c.Moves g h) (hc : c.Plain) (hy : h.has y = true) :
    g.has y = true ∨ ∃ n, c.newNode? = some n ∧ y = n.name := by
  cases hm with
  | remove hn => exact .inl (has_detach.mp hy).2
  | splice hs => exact .inl (has_bypass.mp hy).2
  | @replace _ new _ _ hs =>
    rcases ((supersedes_of_check (hc _ rfl) hs).has y).mp hy with hn | ⟨-, hg⟩
    · exact .inr ⟨new, rfl, hn⟩
    · exact .inl hg
  | @insert _ new _ _ hs =>
    rcases ((interpose_enters (hc _ rfl)).has y).mp hy with hn | hg
    · exact .inr ⟨new, rfl, hn⟩
    · exact .inl hg
  | @swap _ new _ _ hs =>
    rcases ((standBefore_enters (hc _ rfl)).has y).mp hy with hn | hg
    · exact .inr ⟨new, rfl, hn⟩
    · exact .inl hg
  | @fold _ new name hs =>
    have hp : Reference.isPlain new.bare.name = true := hc new rfl
    rcases ((supersedes_of_checkFold hp hs).has y).mp hy with hn | ⟨-, hg⟩
    · exact .inr ⟨new, rfl, hn⟩
    · exact .inl ((thinned_thins name g).has_of_has hg)

theorem Moves.plainNames {c : Command} (hm : c.Moves g h) (hc : c.Plain) (hp : g.PlainNames) :
    h.PlainNames := by
  intro y hy
  rcases hm.has hc hy with hg | ⟨n, hn, rfl⟩
  · exact hp y hg
  · exact hc n hn

theorem Moves.consumersDistinct {c : Command} (hm : c.Moves g h) (hd : g.ConsumersDistinct) :
    h.ConsumersDistinct := by
  cases hm with
  | remove _ => exact hd.detach _
  | splice _ => exact hd.bypass _ _
  | replace _ => exact hd.exchange _ _ _
  | insert _ => exact hd.interpose _ _ _
  | swap _ => exact hd.standBefore _ _ _
  | fold _ => exact (hd.dropFeeders _ _).exchange _ _ _

/-! ## Runs -/

section Runs

variable {c : Command} {cs : List Command} {P Q : Graph → Prop} {N : Graph → Command → Prop}
  {A : Command → Prop}

theorem reaches_nil : Reaches g [] h ↔ h = g := by
  refine ⟨?_, ?_⟩
  · intro hr
    cases hr
    rfl
  · intro heq
    subst heq
    exact .done h

theorem reaches_cons : Reaches g (c :: cs) k ↔ ∃ h, c.Moves g h ∧ Reaches h cs k := by
  refine ⟨?_, ?_⟩
  · intro hr
    cases hr with
    | step hs hr => exact ⟨_, run_iff_moves.mp ⟨_, hs⟩, hr⟩
  · intro hex
    obtain ⟨h, hm, hr⟩ := hex
    obtain ⟨answer, hs⟩ := run_iff_moves.mpr hm
    exact .step hs hr

/-- What every step by an admitted command keeps, a run of them keeps. -/
theorem Reaches.keeps (hs : ∀ g h c, A c → P g → c.Moves g h → P h) (hr : Reaches g cs h)
    (ha : ∀ c ∈ cs, A c) (hp : P g) : P h := by
  induction hr with
  | done g => exact hp
  | @step g h k c cs answer hc _ ih =>
    have hm : c.Moves g h := run_iff_moves.mp ⟨answer, hc⟩
    exact ih (fun d hd => ha d (List.mem_cons_of_mem c hd))
      (hs g h c (ha c List.mem_cons_self) hp hm)

/-- Every graph that a run passes through has a property, its ends included. -/
def Throughout (P : Graph → Prop) (g : Graph) (cs : List Command) : Prop :=
  ∀ ds k, ds <+: cs → Reaches g ds k → P k

/-- Every step of a run has a property, which is about the graph before it and its command. -/
def AtEveryStep (N : Graph → Command → Prop) (g : Graph) (cs : List Command) : Prop :=
  ∀ ds c k, ds ++ [c] <+: cs → Reaches g ds k → N k c

theorem throughout_nil : Throughout P g [] ↔ P g := by
  refine ⟨?_, ?_⟩
  · exact fun ht => ht [] g List.prefix_rfl (.done g)
  · intro hp ds k hd hr
    rw [List.prefix_nil] at hd
    subst hd
    exact reaches_nil.mp hr ▸ hp

theorem throughout_cons (hm : c.Moves g h) :
    Throughout P g (c :: cs) ↔ P g ∧ Throughout P h cs := by
  refine ⟨?_, ?_⟩
  · intro ht
    refine ⟨ht [] g (List.nil_prefix) (.done g), fun ds k hd hr => ?_⟩
    exact ht (c :: ds) k (List.cons_prefix_cons.mpr ⟨rfl, hd⟩) (reaches_cons.mpr ⟨h, hm, hr⟩)
  · intro hboth ds k hd hr
    obtain ⟨hp, ht⟩ := hboth
    cases ds with
    | nil => exact reaches_nil.mp hr ▸ hp
    | cons d ds =>
      obtain ⟨rfl, hds⟩ := List.cons_prefix_cons.mp hd
      obtain ⟨h', hm', hr⟩ := reaches_cons.mp hr
      cases hm.unique hm'
      exact ht ds k hds hr

theorem atEveryStep_nil : AtEveryStep N g [] := by
  intro ds c k hd
  simp at hd

theorem atEveryStep_cons (hm : c.Moves g h) :
    AtEveryStep N g (c :: cs) ↔ N g c ∧ AtEveryStep N h cs := by
  refine ⟨?_, ?_⟩
  · intro ha
    refine ⟨ha [] c g (by simp) (.done g), fun ds d k hd hr => ?_⟩
    exact ha (c :: ds) d k (List.cons_prefix_cons.mpr ⟨rfl, hd⟩) (reaches_cons.mpr ⟨h, hm, hr⟩)
  · intro hboth ds d k hd hr
    obtain ⟨hn, ha⟩ := hboth
    cases ds with
    | nil =>
      obtain ⟨rfl, -⟩ := List.cons_prefix_cons.mp hd
      exact reaches_nil.mp hr ▸ hn
    | cons e ds =>
      obtain ⟨rfl, hds⟩ := List.cons_prefix_cons.mp hd
      obtain ⟨h', hm', hr⟩ := reaches_cons.mp hr
      cases hm.unique hm'
      exact ha ds d k hds hr

/-- If a step keeps a property exactly under a condition, a run has it throughout exactly if every
step meets the condition. What else a step needs is kept by every step. -/
theorem Reaches.throughout_iff
    (hs : ∀ g h c, A c → Q g → P g → c.Moves g h → Q h ∧ (P h ↔ N g c))
    (hr : Reaches g cs k) (ha : ∀ c ∈ cs, A c) (hq : Q g) (hp : P g) :
    Throughout P g cs ↔ AtEveryStep N g cs := by
  induction hr with
  | done g => exact ⟨fun _ => atEveryStep_nil, fun _ => throughout_nil.mpr hp⟩
  | @step g h k c cs answer hc _ ih =>
    have hm : c.Moves g h := run_iff_moves.mp ⟨answer, hc⟩
    obtain ⟨hq', hn⟩ := hs g h c (ha c List.mem_cons_self) hq hp hm
    have ha' : ∀ d ∈ cs, A d := fun d hd => ha d (List.mem_cons_of_mem c hd)
    rw [throughout_cons hm, atEveryStep_cons hm]
    refine ⟨?_, ?_⟩
    · intro hboth
      obtain ⟨-, ht⟩ := hboth
      have hp' : P h := ht [] h List.nil_prefix (.done h)
      exact ⟨hn.mp hp', (ih ha' hq' hp').mp ht⟩
    · intro hboth
      obtain ⟨hn', he⟩ := hboth
      exact ⟨hp, (ih ha' hq' (hn.mpr hn')).mpr he⟩

end Runs

end Command
end Graph
end Dataflow
