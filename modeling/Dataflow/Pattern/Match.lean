import Dataflow.Graph.Query
import Dataflow.Pattern

/- A pattern is matched against the chain of first inputs that ends at a node. The walk starts at
   the last token that can stand at that node, goes from consumer to producer, gives every
   producer the first token that takes it, and never comes back on a choice. A match that is too
   short for the mandatory tokens is dropped. Of the matches that begin at one node, a search
   keeps the longest. -/

namespace Dataflow

/-- The nodes of a match, producer first. -/
structure Match where
  chain : List Node
  deriving DecidableEq

namespace Match

def names (m : Match) : List String := m.chain.map Node.name

def ops (m : Match) : List String := m.chain.map Node.op

def size (m : Match) : Nat := m.chain.length

/-- The name of the earliest producer. -/
def first (m : Match) : String := (m.names.head?).getD ""

/-- The name of the last consumer. -/
def last (m : Match) : String := (m.names.getLast?).getD ""

end Match

namespace Pattern

/-- The tokens left when an operation stands at the first token that takes it, optional tokens
before that one being left out. Tokens are read consumer first. -/
def align (op : String) : List Token → Option (List Token)
  | [] => none
  | t :: rest => if t.accepts op then some rest else if t.isOptional then align op rest else none

/-- The producers that follow a node, consumer first, by the tokens that are left. -/
def walk (g : Graph) (current : Node) : List Token → List Node
  | [] => []
  | t :: rest =>
    match g.firstProducer? current with
    | none => []
    | some producer =>
      if t.accepts producer.op then producer :: walk g producer rest
      -- An optional token that does not take the producer is used up all the same.
      else if t.isOptional then walk g current rest
      else []

def matchAt (p : Pattern) (g : Graph) (n : Node) : Option Match := do
  let rest ← align n.op p.tokens.reverse
  let m : Match := ⟨(n :: walk g n rest).reverse⟩
  if m.size < p.mandatoryCount then none else some m

def isLongest (found : List Match) (m : Match) : Bool :=
  found.all fun other => other.first != m.first || other.size ≤ m.size

/-- The matches of a pattern in index order of their last nodes. Of those that begin at one node
only the longest are kept. -/
def search (p : Pattern) (g : Graph) : List Match :=
  let found := g.nodes.filterMap (p.matchAt g)
  found.filter (isLongest found)

def searchWhere (p : Pattern) (g : Graph) (condition : Match → Bool) : List Match :=
  (p.search g).filter condition

/-! ## What a match is -/

/-- A list of nodes, consumer first, in which each node is followed by its first producer. -/
def FollowsFirstInputs (g : Graph) : List Node → Prop
  | [] => True
  | [_] => True
  | n :: m :: rest => g.firstProducer? n = some m ∧ FollowsFirstInputs g (m :: rest)

theorem followsFirstInputs_walk (g : Graph) (n : Node) (tokens : List Token) :
    FollowsFirstInputs g (n :: walk g n tokens) := by
  induction tokens generalizing n with
  | nil => trivial
  | cons t rest ih =>
    rw [walk]
    split
    · trivial
    · rename_i producer hp
      split
      · exact ⟨hp, ih producer⟩
      · split
        · exact ih n
        · trivial

theorem walk_length_le (g : Graph) (n : Node) (tokens : List Token) :
    (walk g n tokens).length ≤ tokens.length := by
  induction tokens generalizing n with
  | nil => exact Nat.le_refl _
  | cons t rest ih =>
    rw [walk]
    split
    · exact Nat.zero_le _
    · rename_i producer hp
      split
      · exact Nat.succ_le_succ (ih producer)
      · split
        · exact Nat.le_succ_of_le (ih n)
        · exact Nat.zero_le _

theorem align_length_lt {op : String} {tokens rest : List Token}
    (h : align op tokens = some rest) : rest.length < tokens.length := by
  induction tokens with
  | nil => cases h
  | cons t tokens ih =>
    rw [align] at h
    split at h
    · cases h; exact Nat.lt_succ_self _
    · split at h
      · exact Nat.lt_succ_of_lt (ih h)
      · cases h

theorem matchAt_eq_some {p : Pattern} {g : Graph} {n : Node} {m : Match} :
    p.matchAt g n = some m ↔
      ∃ rest, align n.op p.tokens.reverse = some rest ∧
        m.chain = (n :: walk g n rest).reverse ∧ p.mandatoryCount ≤ m.size := by
  unfold matchAt
  cases h : align n.op p.tokens.reverse with
  | none => simp
  | some rest =>
    simp only [Option.bind_eq_bind, Option.bind_some, Option.some.injEq]
    split
    · rename_i hlt
      refine ⟨?_, ?_⟩
      · intro hm; cases hm
      · intro hex
        obtain ⟨_, rfl, hc, hle⟩ := hex
        rw [Match.size, hc] at hle
        exact absurd hle (Nat.not_le.mpr hlt)
    · rename_i hge
      refine ⟨?_, ?_⟩
      · intro hm
        cases hm
        exact ⟨rest, rfl, rfl, Nat.le_of_not_lt hge⟩
      · intro hex
        obtain ⟨_, rfl, hc, _⟩ := hex
        cases m; cases hc; rfl

/-- A match ends at the node asked about, and each of its nodes is the first producer of the
next. -/
theorem matchAt_follows {p : Pattern} {g : Graph} {n : Node} {m : Match}
    (h : p.matchAt g n = some m) :
    m.chain.getLast? = some n ∧ FollowsFirstInputs g m.chain.reverse := by
  obtain ⟨rest, -, hc, -⟩ := matchAt_eq_some.mp h
  rw [hc]
  refine ⟨by simp, ?_⟩
  rw [List.reverse_reverse]
  exact followsFirstInputs_walk g n rest

theorem last_of_matchAt {p : Pattern} {g : Graph} {n : Node} {m : Match}
    (h : p.matchAt g n = some m) : m.last = n.name := by
  rw [Match.last, Match.names, List.getLast?_map, (matchAt_follows h).1]
  rfl

theorem mem_search {p : Pattern} {g : Graph} {m : Match} :
    m ∈ p.search g ↔
      (∃ n ∈ g.nodes, p.matchAt g n = some m) ∧
        ∀ n ∈ g.nodes, ∀ other, p.matchAt g n = some other → other.first = m.first →
          other.size ≤ m.size := by
  simp only [search, List.mem_filter, List.mem_filterMap, isLongest, List.all_eq_true,
    Bool.or_eq_true, bne_iff_ne, ne_eq, decide_eq_true_eq]
  refine ⟨?_, ?_⟩
  · intro hboth
    obtain ⟨hm, hall⟩ := hboth
    refine ⟨hm, fun n hn other ho hf => ?_⟩
    rcases hall other ⟨n, hn, ho⟩ with hne | hle
    · exact absurd hf hne
    · exact hle
  · intro hboth
    obtain ⟨hm, hall⟩ := hboth
    refine ⟨hm, ?_⟩
    intro other hex
    obtain ⟨n, hn, ho⟩ := hex
    by_cases hf : other.first = m.first
    · exact .inr (hall n hn other ho hf)
    · exact .inl hf

end Pattern
end Dataflow
