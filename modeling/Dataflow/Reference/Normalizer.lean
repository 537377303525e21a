import Dataflow.Reference

/- A normalizer answers questions about references and remembers every answer, so that a
   reference is parsed once per session. Parsed and canonical forms are remembered apart. A
   memory is `Sound` if all it holds is what the parser gives; answering keeps it so, and a sound
   memory never changes an answer. -/

namespace Dataflow

/-- The answers remembered so far, latest first. -/
structure Normalizer where
  /-- Parsed references. -/
  resolved : List (String × Reference) := []
  /-- Canonical references. -/
  canonical : List (String × String) := []
  deriving Repr

namespace Normalizer

def empty : Normalizer := {}

/-- The parsed form of a reference, from memory where it is there. -/
def resolve (n : Normalizer) (text : String) : Reference × Normalizer :=
  match n.resolved.lookup text with
  | some r => (r, n)
  | none =>
    let r := Reference.parse text
    (r, { n with resolved := (text, r) :: n.resolved })

def nodeName (n : Normalizer) (text : String) : String × Normalizer :=
  let (r, n') := n.resolve text
  (r.node, n')

def canonicalize (n : Normalizer) (text : String) : String × Normalizer :=
  match n.canonical.lookup text with
  | some c => (c, n)
  | none =>
    let c := Reference.canonical text
    (c, { n with canonical := (text, c) :: n.canonical })

def cached (n : Normalizer) : Nat := n.resolved.length + n.canonical.length

def clear (_ : Normalizer) : Normalizer := empty

/-! ## Calls -/

inductive Call where
  | resolve (text : String)
  | nodeName (text : String)
  | canonicalize (text : String)
  | clear
  deriving DecidableEq, Repr

inductive Answer where
  | reference (r : Reference)
  | text (s : String)
  | done
  deriving DecidableEq, Repr

/-- The answer to a call, and the memory after it. -/
def call (n : Normalizer) : Call → Answer × Normalizer
  | .resolve text => let (r, n') := n.resolve text; (.reference r, n')
  | .nodeName text => let (s, n') := n.nodeName text; (.text s, n')
  | .canonicalize text => let (s, n') := n.canonicalize text; (.text s, n')
  | .clear => (.done, n.clear)

def calls (n : Normalizer) : List Call → List Answer × Normalizer
  | [] => ([], n)
  | c :: cs =>
    let (a, n') := n.call c
    let (as, n'') := n'.calls cs
    (a :: as, n'')

/-! ## Memory never changes an answer -/

/-- Every remembered answer is the one the parser gives. -/
def Sound (n : Normalizer) : Prop :=
  (∀ p ∈ n.resolved, p.2 = Reference.parse p.1) ∧
    ∀ p ∈ n.canonical, p.2 = Reference.canonical p.1

theorem empty_sound : empty.Sound := by simp [Sound, empty]

theorem lookup_mem {α : Type} {text : String} {a : α} {l : List (String × α)}
    (h : l.lookup text = some a) : (text, a) ∈ l := by
  obtain ⟨later, earlier, rfl, -⟩ := List.lookup_eq_some_iff.mp h
  exact List.mem_append_right later List.mem_cons_self

theorem resolve_eq_parse {n : Normalizer} (h : n.Sound) (text : String) :
    (n.resolve text).1 = Reference.parse text := by
  unfold resolve
  split
  · rename_i r hr
    exact h.1 _ (lookup_mem hr)
  · rfl

theorem canonicalize_eq_canonical {n : Normalizer} (h : n.Sound) (text : String) :
    (n.canonicalize text).1 = Reference.canonical text := by
  unfold canonicalize
  split
  · rename_i c hc
    exact h.2 _ (lookup_mem hc)
  · rfl

theorem resolve_sound {n : Normalizer} (h : n.Sound) (text : String) :
    (n.resolve text).2.Sound := by
  unfold resolve
  split
  · exact h
  · exact ⟨List.forall_mem_cons.mpr ⟨rfl, h.1⟩, h.2⟩

theorem canonicalize_sound {n : Normalizer} (h : n.Sound) (text : String) :
    (n.canonicalize text).2.Sound := by
  unfold canonicalize
  split
  · exact h
  · exact ⟨h.1, List.forall_mem_cons.mpr ⟨rfl, h.2⟩⟩

theorem call_sound {n : Normalizer} (h : n.Sound) : ∀ c : Call, (n.call c).2.Sound
  | .resolve text => resolve_sound h text
  | .nodeName text => resolve_sound h text
  | .canonicalize text => canonicalize_sound h text
  | .clear => empty_sound

theorem calls_sound {n : Normalizer} (h : n.Sound) (cs : List Call) : (n.calls cs).2.Sound := by
  induction cs generalizing n with
  | nil => exact h
  | cons c cs ih => exact ih (call_sound h c)

end Normalizer
end Dataflow
