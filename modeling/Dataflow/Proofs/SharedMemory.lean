import Dataflow.Reference.Normalizer
import Mathlib.Data.Finset.Card

/- A normalizer is shared by everything that is done to graphs in one session, so calls of
   different origin follow each other on one memory. What the memory holds is known from the
   calls alone (`calls_memory`): each text that was resolved since everything was last forgotten,
   once, with its parsed form, and apart from these each text that was brought to canonical form.
   What it answers does not depend on the calls before (`calls_answers`). This is why graphs can
   be described without a memory, by what `Reference.parse` makes of their inputs.

   An operation on a graph is a client of the normalizer: it makes a call, goes on by the answer,
   and ends with a result. Clients that take turns in any order each come as far as they would
   alone, on a normalizer of their own, even if one of them has everything forgotten in between
   (`share_alone`). -/

namespace Dataflow.Normalizer

/-! ## Answers -/

theorem call_answer {n : Normalizer} (h : n.Sound) (c : Call) : (n.call c).1 = (empty.call c).1 := by
  cases c with
  | resolve text => exact congrArg Answer.reference (resolve_eq_parse h text)
  | nodeName text => exact congrArg (fun r => Answer.text r.node) (resolve_eq_parse h text)
  | canonicalize text => exact congrArg Answer.text (canonicalize_eq_canonical h text)
  | clear => rfl

theorem calls_answers {n : Normalizer} (h : n.Sound) (cs : List Call) :
    (n.calls cs).1 = cs.map fun c => (empty.call c).1 := by
  induction cs generalizing n with
  | nil => rfl
  | cons c cs ih =>
    rw [List.map_cons, ← call_answer h c, ← ih (call_sound h c)]
    rfl

/-! ## Memory -/

/-- The text that a call resolves; asking for the name of the node resolves too. -/
def Call.resolved? : Call → Option String
  | resolve text | nodeName text => some text
  | canonicalize _ | clear => none

/-- The text that a call brings to canonical form. -/
def Call.canonicalized? : Call → Option String
  | canonicalize text => some text
  | resolve _ | nodeName _ | clear => none

/-- The calls after the last that forgot everything, latest first. -/
def sinceClear (cs : List Call) : List Call := cs.reverse.takeWhile fun c => c ≠ .clear

def resolvedTexts (cs : List Call) : List String := (sinceClear cs).filterMap Call.resolved?

def canonicalizedTexts (cs : List Call) : List String := (sinceClear cs).filterMap Call.canonicalized?

/-- What `f` makes of each text asked for, once. The texts are given latest first, and a text stands where
it was first asked for. -/
def answersTo {α : Type} (f : String → α) (asked : List String) : List (String × α) :=
  asked.dedup.map fun text => (text, f text)

def after (cs : List Call) : Normalizer :=
  ⟨answersTo Reference.parse (resolvedTexts cs), answersTo Reference.canonical (canonicalizedTexts cs)⟩

section Tables

variable {α : Type} {f : String → α} {asked : List String} {text : String}

theorem lookup_answersTo_of_mem (h : text ∈ asked) : (answersTo f asked).lookup text = some (f text) :=
  List.lookup_graph f (List.mem_dedup.mpr h)

theorem lookup_answersTo_of_not_mem (h : text ∉ asked) : (answersTo f asked).lookup text = none := by
  rw [List.lookup_eq_none_iff]
  intro p hp
  obtain ⟨other, hother, rfl⟩ := List.mem_map.mp hp
  rw [bne_iff_ne]
  rintro rfl
  exact h (List.mem_dedup.mp hother)

theorem answersTo_of_mem (h : text ∈ asked) : answersTo f (text :: asked) = answersTo f asked := by
  rw [answersTo, List.dedup_cons_of_mem h, answersTo]

theorem answersTo_of_not_mem (h : text ∉ asked) :
    answersTo f (text :: asked) = (text, f text) :: answersTo f asked := by
  rw [answersTo, List.dedup_cons_of_notMem h, List.map_cons, answersTo]

theorem length_answersTo : (answersTo f asked).length = asked.toFinset.card := by
  rw [answersTo, List.length_map, List.card_toFinset]

end Tables

theorem resolve_memory (resolved : List String) (canonical : List (String × String)) (text : String) :
    (resolve ⟨answersTo Reference.parse resolved, canonical⟩ text).2 =
      ⟨answersTo Reference.parse (text :: resolved), canonical⟩ := by
  by_cases h : text ∈ resolved
  · rw [answersTo_of_mem h]
    simp only [resolve, lookup_answersTo_of_mem h]
  · rw [answersTo_of_not_mem h]
    simp only [resolve, lookup_answersTo_of_not_mem h]

theorem canonicalize_memory (resolved : List (String × Reference)) (canonicalized : List String)
    (text : String) :
    (canonicalize ⟨resolved, answersTo Reference.canonical canonicalized⟩ text).2 =
      ⟨resolved, answersTo Reference.canonical (text :: canonicalized)⟩ := by
  by_cases h : text ∈ canonicalized
  · rw [answersTo_of_mem h]
    simp only [canonicalize, lookup_answersTo_of_mem h]
  · rw [answersTo_of_not_mem h]
    simp only [canonicalize, lookup_answersTo_of_not_mem h]

theorem sinceClear_concat (cs : List Call) (c : Call) :
    sinceClear (cs ++ [c]) = if c = .clear then [] else c :: sinceClear cs := by
  rw [sinceClear, List.reverse_append, List.reverse_singleton, List.singleton_append,
    List.takeWhile_cons, sinceClear]
  by_cases h : c = .clear <;> simp [h]

theorem filterMap_sinceClear {c : Call} (h : c ≠ .clear) (f : Call → Option String) (cs : List Call) :
    (sinceClear (cs ++ [c])).filterMap f = (f c).toList ++ (sinceClear cs).filterMap f := by
  rw [sinceClear_concat, if_neg h, List.filterMap_cons]
  cases f c <;> rfl

theorem after_concat (cs : List Call) (c : Call) (h : c ≠ .clear) : after (cs ++ [c]) =
    ⟨answersTo Reference.parse (c.resolved?.toList ++ resolvedTexts cs),
      answersTo Reference.canonical (c.canonicalized?.toList ++ canonicalizedTexts cs)⟩ := by
  rw [after, resolvedTexts, canonicalizedTexts, filterMap_sinceClear h, filterMap_sinceClear h]
  rfl

theorem after_clear (cs : List Call) : after (cs ++ [.clear]) = empty := by
  rw [after, resolvedTexts, canonicalizedTexts, sinceClear_concat, if_pos rfl]
  rfl

theorem call_memory (cs : List Call) (c : Call) : ((after cs).call c).2 = after (cs ++ [c]) := by
  cases c with
  | resolve text =>
    rw [after_concat cs (.resolve text) (by simp)]
    exact resolve_memory _ _ text
  | nodeName text =>
    rw [after_concat cs (.nodeName text) (by simp)]
    exact resolve_memory _ _ text
  | canonicalize text =>
    rw [after_concat cs (.canonicalize text) (by simp)]
    exact canonicalize_memory _ _ text
  | clear =>
    rw [after_clear]
    rfl

theorem calls_memory (earlier cs : List Call) :
    ((after earlier).calls cs).2 = after (earlier ++ cs) := by
  induction cs generalizing earlier with
  | nil =>
    rw [List.append_nil]
    rfl
  | cons c cs ih =>
    calc ((after earlier).calls (c :: cs)).2
        = (((after earlier).call c).2.calls cs).2 := rfl
      _ = ((after (earlier ++ [c])).calls cs).2 := by rw [call_memory]
      _ = after (earlier ++ [c] ++ cs) := ih _
      _ = after (earlier ++ c :: cs) := by rw [List.append_assoc, List.singleton_append]

/-- As many answers are remembered as there are different texts, those resolved and those brought to
canonical form counted apart. -/
theorem cached_after (cs : List Call) :
    (after cs).cached = (resolvedTexts cs).toFinset.card + (canonicalizedTexts cs).toFinset.card := by
  rw [cached, after, length_answersTo, length_answersTo]

/-! ## Clients -/

variable {α : Type} {ι : Type} [DecidableEq ι] {β : ι → Type}

/-- What is done with a normalizer: a call, after which the answer decides how to go on, or nothing more. -/
inductive Client (α : Type) where
  | done (result : α)
  | ask (c : Call) (next : Answer → Client α)

/-- A turn of a client: it makes its next call, unless it has come to its result. -/
def Client.turn (n : Normalizer) : Client α → Client α × Normalizer
  | done result => (done result, n)
  | ask c next => (next (n.call c).1, (n.call c).2)

/-- How far a client comes in some turns when it has the normalizer to itself. -/
def Client.alone (n : Normalizer) (client : Client α) : Nat → Client α
  | 0 => client
  | turns + 1 => alone (client.turn n).2 (client.turn n).1 turns

/-- How far clients come that share a normalizer; the schedule says whose turn is next. -/
def share (n : Normalizer) (clients : ∀ i, Client (β i)) : List ι → ∀ i, Client (β i)
  | [] => clients
  | i :: schedule =>
    share ((clients i).turn n).2 (Function.update clients i ((clients i).turn n).1) schedule

theorem Client.turn_sound {n : Normalizer} (h : n.Sound) (client : Client α) :
    (client.turn n).2.Sound := by
  cases client with
  | done result => exact h
  | ask c next => exact call_sound h c

theorem Client.turn_eq {n m : Normalizer} (hn : n.Sound) (hm : m.Sound) (client : Client α) :
    (client.turn n).1 = (client.turn m).1 := by
  cases client with
  | done result => rfl
  | ask c next => exact congrArg next ((call_answer hn c).trans (call_answer hm c).symm)

/-- Whatever the others do in their turns, a client comes as far as in its own turns alone. -/
theorem share_alone {n m : Normalizer} (hn : n.Sound) (hm : m.Sound) (clients : ∀ i, Client (β i))
    (schedule : List ι) (i : ι) :
    share n clients schedule i = (clients i).alone m (schedule.count i) := by
  induction schedule generalizing n m clients with
  | nil => rfl
  | cons j schedule ih =>
    -- The shared memory moves with every turn, the memory of the client alone only with its own.
    have hshared := Client.turn_sound hn (clients j)
    by_cases hij : j = i
    · subst hij
      have hown := Client.turn_sound hm (clients j)
      rw [List.count_cons_self, share, ih hshared hown, Function.update_self,
        Client.turn_eq hn hm, Client.alone]
    · rw [List.count_cons_of_ne hij, share, ih hshared hm, Function.update_of_ne (Ne.symm hij)]

/-! ## Any calls -/

/-- Calls in any order are answered as a new normalizer answers each of them. After them as many answers
are remembered as different texts were resolved, and different texts brought to canonical form, since
everything was last forgotten. And whoever shares the normalizer from then on, each client comes as far as
it does alone on a new one. -/
theorem calls_outcome (cs : List Call) (clients : ∀ i, Client (β i)) (schedule : List ι) (i : ι) :
    (empty.calls cs).1 = cs.map (fun c => (empty.call c).1) ∧
    (empty.calls cs).2.cached =
      (resolvedTexts cs).toFinset.card + (canonicalizedTexts cs).toFinset.card ∧
    share (empty.calls cs).2 clients schedule i = (clients i).alone empty (schedule.count i) := by
  refine ⟨calls_answers empty_sound cs, ?_, ?_⟩
  · rw [← cached_after]
    exact congrArg cached (calls_memory [] cs)
  · exact share_alone (calls_sound empty_sound cs) empty_sound clients schedule i

/-- Both tables count, a repeated call does not, and neither does what was forgotten. -/
example : (empty.calls [.resolve "x:1", .canonicalize "x:1", .nodeName "x:1"]).2.cached = 2 ∧
    (empty.calls [.resolve "x:1", .canonicalize "x", .clear, .nodeName "^y"]).2.cached = 1 := by
  decide

end Dataflow.Normalizer
