import Dataflow.Proofs.FieldReadBack

/- The stored form of a graph holds all of it: every field of every message is read back as it
   was written (the lemmas `restores_node` and its like, by the levels of nesting below a
   message). What is left out when it is written is what reading starts from, a member of an
   attribute is never left out, and the entries of an attribute map come in the order of their
   keys. The deepest message is a dimension, seven levels below the graph, so the limit of
   nesting is not met.

   `stored_reads_back` is about decoding and loading; for what a graph is refused is told by
   `checkAttributes_eq_error`. -/

namespace Dataflow.Wire

open Scalar

theorem restores_dimension (budget : Nat) (d : Dimension) :
    Restores dimensionField budget (writeDimension d) {} d :=
  .append (restores_scalarUnless (fun (d : Dimension) size => { d with size }) int64_lawful
    (by decide) rfl rfl d.size) <|
  restores_text (fun (d : Dimension) name => { d with name }) (by decide) rfl rfl d.name

theorem restores_shape (budget : Nat) (s : DeclaredShape) :
    Restores shapeField (budget + 1) (writeShape s) {} s :=
  .append (restores_each (fun (s : DeclaredShape) dimensions => { s with dimensions }) (by decide)
    rfl (fun _ => rfl) (fun d => readMessage_restored rfl (restores_dimension budget d)) _) <|
  restores_scalarUnless (fun (s : DeclaredShape) unknownRank => { s with unknownRank }) bool_lawful
    (by decide) rfl rfl _

theorem restores_tensor (budget : Nat) (l : Literal) :
    Restores tensorField (budget + 2) (writeTensor l) {} l := by
  unfold writeTensor
  repeat rw [List.append_assoc]
  -- Each field starts from what the fields before it have restored.
  refine .append (restores_scalarUnless (fun (l : Literal) typeCode => { l with typeCode })
    int32_lawful (by decide) rfl rfl _) ?_
  refine .append (restores_toList (fun (l : Literal) shape => { l with shape }) (by decide)
    rfl rfl (fun s => readMessage_restored rfl (restores_shape budget s)) _) ?_
  refine .append (restores_scalarUnless (fun (l : Literal) version => { l with version })
    int32_lawful (by decide) rfl rfl _) ?_
  refine .append (restores_bytes (fun (l : Literal) content => { l with content }) (by decide)
    rfl rfl _) ?_
  refine .append (restores_packed (fun (l : Literal) floats => { l with floats })
    binary32_lawful (by decide) rfl rfl _) ?_
  refine .append (restores_packed (fun (l : Literal) doubles => { l with doubles })
    binary64_lawful (by decide) rfl rfl _) ?_
  refine .append (restores_packed (fun (l : Literal) ints => { l with ints })
    int32_lawful (by decide) rfl rfl _) ?_
  refine .append (restores_each (fun (l : Literal) strings => { l with strings }) (by decide)
    rfl (fun _ => rfl) (fun _ hlen => consumes_readBytes rfl hlen) _) ?_
  refine .append (restores_packed (fun (l : Literal) complexFloats => { l with complexFloats })
    binary32_lawful (by decide) rfl rfl _) ?_
  refine .append (restores_packed (fun (l : Literal) longs => { l with longs })
    int64_lawful (by decide) rfl rfl _) ?_
  refine .append (restores_packed (fun (l : Literal) bools => { l with bools })
    bool_lawful (by decide) rfl rfl _) ?_
  refine .append (restores_packed (fun (l : Literal) complexDoubles => { l with complexDoubles })
    binary64_lawful (by decide) rfl rfl _) ?_
  refine .append (restores_packed (fun (l : Literal) halves => { l with halves })
    int32_lawful (by decide) rfl rfl _) ?_
  refine .append (restores_each (fun (l : Literal) resources => { l with resources }) (by decide)
    rfl (fun _ => rfl) (fun _ hlen => consumes_readBytes rfl hlen) _) ?_
  refine .append (restores_each (fun (l : Literal) variants => { l with variants }) (by decide)
    rfl (fun _ => rfl) (fun _ hlen => consumes_readBytes rfl hlen) _) ?_
  refine .append (restores_packed (fun (l : Literal) unsignedInts => { l with unsignedInts })
    uint32_lawful (by decide) rfl rfl _) ?_
  refine .append (restores_packed (fun (l : Literal) unsignedLongs => { l with unsignedLongs })
    uint64_lawful (by decide) rfl rfl _) ?_
  exact restores_bytes (fun (l : Literal) quarters => { l with quarters }) (by decide)
    rfl rfl _

theorem restores_attributeList (budget : Nat) (l : AttributeList) :
    Restores attributeListField (budget + 3) (writeAttributeList l) {} l := by
  unfold writeAttributeList
  repeat rw [List.append_assoc]
  refine .append (restores_each (fun (l : AttributeList) strings => { l with strings })
    (by decide) rfl (fun _ => rfl) (fun _ hlen => consumes_readBytes rfl hlen) _) ?_
  refine .append (restores_packed (fun (l : AttributeList) ints => { l with ints })
    int64_lawful (by decide) rfl rfl _) ?_
  refine .append (restores_packed (fun (l : AttributeList) floats => { l with floats })
    binary32_lawful (by decide) rfl rfl _) ?_
  refine .append (restores_packed (fun (l : AttributeList) bools => { l with bools })
    bool_lawful (by decide) rfl rfl _) ?_
  refine .append (restores_packed (fun (l : AttributeList) typeCodes => { l with typeCodes })
    int32_lawful (by decide) rfl rfl _) ?_
  refine .append (restores_each (fun (l : AttributeList) shapes => { l with shapes })
    (by decide) rfl (fun _ => rfl)
    (fun s => readMessage_restored rfl (restores_shape (budget + 1) s)) _) ?_
  exact restores_each (fun (l : AttributeList) tensors => { l with tensors })
    (by decide) rfl (fun _ => rfl)
    (fun t => readMessage_restored rfl (restores_tensor budget t)) _

/-- A member of an attribute is written even where it holds what is left out elsewhere. -/
theorem restores_attribute (budget : Nat) (a : Attribute) :
    Restores attributeField (budget + 4) (writeAttribute a) .none a := by
  cases a with
  | none => exact restores_nil _
  | list items =>
    refine restores_delimited (by decide) fun hlen => ?_
    exact ((readMessage_restored rfl (restores_attributeList budget items) hlen).map
      Attribute.list).within _ _
  | string bytes =>
    refine restores_delimited (by decide) fun hlen => ?_
    exact ((consumes_readBytes rfl hlen).map Attribute.string).within _ _
  | int value =>
    refine restores_scalar (by decide) ?_
    exact ((consumes_readScalar int64_lawful rfl value).map Attribute.int).within _ _
  | float value =>
    refine restores_scalar (by decide) ?_
    exact ((consumes_readScalar binary32_lawful rfl value).map Attribute.float).within _ _
  | bool value =>
    refine restores_scalar (by decide) ?_
    exact ((consumes_readScalar bool_lawful rfl value).map Attribute.bool).within _ _
  | typeCode code =>
    refine restores_scalar (by decide) ?_
    exact ((consumes_readScalar int32_lawful rfl code).map Attribute.typeCode).within _ _
  | shape value =>
    refine restores_delimited (by decide) fun hlen => ?_
    exact ((readMessage_restored rfl (restores_shape (budget + 2) value) hlen).map
      Attribute.shape).within _ _
  | tensor value =>
    refine restores_delimited (by decide) fun hlen => ?_
    exact ((readMessage_restored rfl (restores_tensor (budget + 1) value) hlen).map
      Attribute.tensor).within _ _

theorem restores_entry (budget : Nat) (e : String × Attribute) :
    Restores entryField (budget + 5) (writeEntry e) ("", .none) e := by
  have hkey : Restores entryField (budget + 5) (writeText 1 e.1) ("", .none) (e.1, .none) :=
    restores_writeText (by decide) (fun hs => by rw [hs]) fun bytes hs =>
      hs.map fun key => (key, Attribute.none)
  refine hkey.append ?_
  split
  · rename_i hnone
    rw [← hnone]
    exact restores_nil e
  · refine restores_delimited (by decide) fun hlen => ?_
    exact (readMessage_restored rfl (restores_attribute budget e.2) hlen).map fun a => (e.1, a)

theorem consumes_entry (budget : Nat) (e : String × Attribute)
    (hlen : (writeEntry e).length < lengthLimit) :
    Consumes (readFields entryField (budget + 6) ("", .none)) (withLength (writeEntry e)) e :=
  (restores_entry budget e hlen).readDelimited hlen

/-- The entries are put into the map in the order in which they were written. -/
theorem restores_entries (budget : Nat) {n : Node} (hn : n.attributes = .empty)
    (entries : List (String × Attribute)) :
    Restores nodeField (budget + 6) (writeEach writeEntry 5 entries) n
      { n with attributes := .ofList entries } := by
  have hput : ∀ before, nodeField (budget + 6) { tag := 5, layout := .delimited }
      { n with attributes := .ofList before } = within "NodeDef" "attr" (do
        let e ← readFields entryField (budget + 6) ("", .none)
        return { n with attributes := .ofList (before ++ [e]) }) := by
    intro before
    simp only [AttributeMap.ofList_concat]
    rfl
  have hz : { n with attributes := AttributeMap.ofList [] } = n := by
    show { n with attributes := AttributeMap.empty } = n
    rw [← hn]
  exact restores_each (fun (n : Node) entries => { n with attributes := .ofList entries })
    (by decide) hz hput (consumes_entry budget) entries

theorem restores_node (budget : Nat) (n : Node) :
    Restores nodeField (budget + 6) (writeNode n) {} n := by
  unfold writeNode
  repeat rw [List.append_assoc]
  refine .append (restores_text (fun (n : Node) name => { n with name }) (by decide) rfl rfl _) ?_
  refine .append (restores_text (fun (n : Node) op => { n with op }) (by decide) rfl rfl _) ?_
  refine .append (restores_each (fun (n : Node) inputs => { n with inputs }) (by decide) rfl
    (fun _ => rfl) (fun _ hlen => consumes_readText rfl hlen) _) ?_
  refine .append (restores_text (fun (n : Node) device => { n with device }) (by decide)
    rfl rfl _) ?_
  refine .append (restores_entries budget rfl _) ?_
  rw [AttributeMap.ofList_entries]
  refine .append (restores_bytes (fun (n : Node) debugInfo => { n with debugInfo }) (by decide)
    rfl rfl _) ?_
  exact restores_bytes (fun (n : Node) fullType => { n with fullType }) (by decide) rfl rfl _

theorem restores_versions (budget : Nat) (v : Versions) :
    Restores versionsField budget (writeVersions v) {} v := by
  unfold writeVersions
  rw [List.append_assoc]
  refine .append (restores_scalarUnless (fun (v : Versions) producer => { v with producer })
    int32_lawful (by decide) rfl rfl _) ?_
  refine .append (restores_scalarUnless (fun (v : Versions) minConsumer => { v with minConsumer })
    int32_lawful (by decide) rfl rfl _) ?_
  exact restores_packed (fun (v : Versions) badConsumers => { v with badConsumers })
    int32_lawful (by decide) rfl rfl _

theorem restores_graph (budget : Nat) (g : SavedGraph) :
    Restores graphField (budget + 7) (writeGraph g) {} g := by
  unfold writeGraph
  repeat rw [List.append_assoc]
  refine .append (restores_each (fun (g : SavedGraph) nodes => { g with nodes }) (by decide) rfl
    (fun _ => rfl) (fun n => readMessage_restored rfl (restores_node budget n)) _) ?_
  refine .append (restores_bytes (fun (g : SavedGraph) library => { g with library }) (by decide)
    rfl rfl _) ?_
  refine .append (restores_scalarUnless (fun (g : SavedGraph) version => { g with version })
    int32_lawful (by decide) rfl rfl _) ?_
  refine .append (restores_toList (fun (g : SavedGraph) versions => { g with versions })
    (by decide) rfl rfl
    (fun v => readMessage_restored rfl (restores_versions (budget + 6) v)) _) ?_
  exact restores_bytes (fun (g : SavedGraph) debugInfo => { g with debugInfo }) (by decide)
    rfl rfl _

end Dataflow.Wire

namespace Dataflow

/-! ## Attributes without a kind -/

namespace Node

def Supported (n : Node) : Prop := ∀ key a, n.attribute? key = some a → a.kind? ≠ none

/-- The node has an attribute without a supported kind under the key, and under no smaller one. -/
structure Offends (n : Node) (key : String) : Prop where
  unsupported : ∃ a, n.attribute? key = some a ∧ a.kind? = none
  least : ∀ other a, n.attribute? other = some a → a.kind? = none → key ≤ other

variable {n : Node} {key : String}

theorem Offends.not_supported (h : n.Offends key) : ¬n.Supported := by
  intro hs
  obtain ⟨a, ha, hk⟩ := h.unsupported
  exact hs key a ha hk

theorem Offends.unique {other : String} (h : n.Offends key) (h' : n.Offends other) :
    key = other := by
  obtain ⟨a, ha, hk⟩ := h.unsupported
  obtain ⟨a', ha', hk'⟩ := h'.unsupported
  exact String.le_antisymm (h.least other a' ha' hk') (h'.least key a ha hk)

theorem unsupportedKey?_eq_none : n.attributes.unsupportedKey? = none ↔ n.Supported := by
  rw [AttributeMap.unsupportedKey?, Option.map_eq_none_iff, List.find?_eq_none]
  constructor
  · intro h key a ha hk
    exact h (key, a) (n.attributes.get?_eq_some.mp ha) (Option.isNone_iff_eq_none.mpr hk)
  · intro h e he hk
    exact h e.1 e.2 (n.attributes.get?_eq_some.mpr he) (Option.isNone_iff_eq_none.mp hk)

theorem offends_of_unsupportedKey? (h : n.attributes.unsupportedKey? = some key) :
    n.Offends key := by
  rw [AttributeMap.unsupportedKey?, Option.map_eq_some_iff] at h
  obtain ⟨e, he, rfl⟩ := h
  obtain ⟨hk, before, after, hsplit, hbefore⟩ := List.find?_eq_some_iff_append.mp he
  have hsorted := n.attributes.sorted
  rw [hsplit] at hsorted
  obtain ⟨-, htail, -⟩ := List.pairwise_append.mp hsorted
  refine ⟨⟨e.2, ?_, Option.isNone_iff_eq_none.mp hk⟩, ?_⟩
  · refine n.attributes.get?_eq_some.mpr ?_
    rw [hsplit]
    exact List.mem_append_right before List.mem_cons_self
  · intro other a ha hka
    have hmem := n.attributes.get?_eq_some.mp ha
    rw [hsplit, List.mem_append, List.mem_cons] at hmem
    -- The attributes before this one have a kind, and those after it have greater keys.
    rcases hmem with hmem | heq | hmem
    · have := hbefore _ hmem
      rw [hka] at this
      contradiction
    · subst heq
      exact String.le_refl other
    · exact String.not_lt.mp (String.lt_asymm ((List.pairwise_cons.mp htail).1 _ hmem))

theorem unsupportedKey?_eq_some : n.attributes.unsupportedKey? = some key ↔ n.Offends key := by
  refine ⟨offends_of_unsupportedKey?, fun h => ?_⟩
  cases hkey : n.attributes.unsupportedKey? with
  | none => exact absurd (unsupportedKey?_eq_none.mp hkey) h.not_supported
  | some other => rw [(offends_of_unsupportedKey? hkey).unique h]

end Node

namespace SavedGraph

variable {g : SavedGraph}

/-- The node is the first one with an attribute that has no supported kind, the key the smallest
one under which it has such an attribute. -/
def FirstOffence (g : SavedGraph) (n : Node) (key : String) : Prop :=
  ∃ before after, g.nodes = before ++ n :: after ∧ (∀ m ∈ before, m.Supported) ∧ n.Offends key

theorem attributeFault?_eq_none {n : Node} : attributeFault? n = none ↔ n.Supported := by
  rw [attributeFault?, Option.map_eq_none_iff, Node.unsupportedKey?_eq_none]

theorem attributeFault?_eq_some {n : Node} {e : Error} :
    attributeFault? n = some e ↔ ∃ key, n.Offends key ∧ e = .unsupportedAttribute n.name key := by
  rw [attributeFault?, Option.map_eq_some_iff]
  constructor
  · rintro ⟨key, hkey, rfl⟩
    exact ⟨key, Node.unsupportedKey?_eq_some.mp hkey, rfl⟩
  · rintro ⟨key, hkey, rfl⟩
    exact ⟨key, Node.unsupportedKey?_eq_some.mpr hkey, rfl⟩

theorem checkAttributes_eq_ok : g.checkAttributes = .ok () ↔ ∀ n ∈ g.nodes, n.Supported := by
  have hnone : g.nodes.findSome? attributeFault? = none ↔ ∀ n ∈ g.nodes, n.Supported := by
    simp only [List.findSome?_eq_none_iff, attributeFault?_eq_none]
  rw [← hnone, checkAttributes]
  cases g.nodes.findSome? attributeFault? with
  | none => simp
  | some e => simp

theorem checkAttributes_eq_error {e : Error} : g.checkAttributes = .error e ↔
    ∃ n key, g.FirstOffence n key ∧ e = .unsupportedAttribute n.name key := by
  have hfound : g.checkAttributes = .error e ↔ g.nodes.findSome? attributeFault? = some e := by
    rw [checkAttributes]
    cases g.nodes.findSome? attributeFault? with
    | none => simp
    | some e' => simp
  rw [hfound, List.findSome?_eq_some_iff]
  simp only [attributeFault?_eq_some, attributeFault?_eq_none]
  constructor
  · rintro ⟨before, n, after, hsplit, ⟨key, hkey, rfl⟩, hbefore⟩
    exact ⟨n, key, ⟨before, after, hsplit, hbefore, hkey⟩, rfl⟩
  · rintro ⟨n, key, ⟨before, after, hsplit, hbefore, hkey⟩, rfl⟩
    exact ⟨before, n, after, hsplit, ⟨key, hkey, rfl⟩, hbefore⟩

/-! ## Whole graphs -/

theorem decode_toBytes (hlen : g.toBytes.length < Wire.lengthLimit) :
    decode g.toBytes = .ok g :=
  -- Seven of the hundred levels that are allowed are needed.
  Wire.readWhole_restored (Wire.restores_graph 93 g) hlen

theorem ofBytes_of_decode {bytes : Bytes} (hd : decode bytes = .ok g) :
    ofBytes bytes = g.checkAttributes.map fun _ => g := by
  rw [ofBytes, hd]
  show (g.checkAttributes >>= fun _ => .ok g) = _
  cases g.checkAttributes with
  | error e => rfl
  | ok u => rfl

theorem supported_of_ofBytes {bytes : Bytes} (h : ofBytes bytes = .ok g) :
    ∀ n ∈ g.nodes, n.Supported := by
  cases hd : decode bytes with
  | error fault =>
    rw [ofBytes, hd] at h
    cases h
  | ok s =>
    rw [ofBytes_of_decode hd] at h
    cases hc : s.checkAttributes with
    | error e =>
      rw [hc] at h
      cases h
    | ok u =>
      rw [hc] at h
      obtain rfl := Except.ok.inj h
      exact checkAttributes_eq_ok.mp hc

/-- The stored form of a graph decodes to that graph, bit for bit. It loads exactly if every
attribute has a supported kind, and is refused for the first one that has none; so whatever was
loaded loads again from its stored form. -/
theorem stored_reads_back (g : SavedGraph) (hlen : g.toBytes.length < Wire.lengthLimit) :
    decode g.toBytes = .ok g ∧
    (∀ r, ofBytes g.toBytes = .ok r ↔ r = g ∧ ∀ n ∈ g.nodes, n.Supported) ∧
    (∀ e, ofBytes g.toBytes = .error e ↔
      ∃ n key, g.FirstOffence n key ∧ e = .unsupportedAttribute n.name key) ∧
    ∀ bytes, ofBytes bytes = .ok g → ofBytes g.toBytes = .ok g := by
  have hload := ofBytes_of_decode (decode_toBytes hlen)
  have hok : ∀ r, ofBytes g.toBytes = .ok r ↔ r = g ∧ ∀ n ∈ g.nodes, n.Supported := by
    intro r
    rw [hload, ← checkAttributes_eq_ok]
    cases g.checkAttributes with
    | error e => simp [Except.map]
    | ok u => simp [Except.map, eq_comm]
  have herror : ∀ e, ofBytes g.toBytes = .error e ↔
      ∃ n key, g.FirstOffence n key ∧ e = .unsupportedAttribute n.name key := by
    intro e
    rw [hload, ← checkAttributes_eq_error]
    cases g.checkAttributes with
    | error e' => simp [Except.map]
    | ok u => simp [Except.map]
  refine ⟨decode_toBytes hlen, hok, herror, ?_⟩
  intro bytes hb
  exact (hok g).mpr ⟨rfl, supported_of_ofBytes hb⟩

/-- A node whose attributes hold what is left out elsewhere. -/
def plainNode : Node where
  name := "plain"
  op := "Relu"
  inputs := ["^x"]
  attributes := .ofList [("", .bool false), ("axis", .int (-1)), ("shape", .shape {})]

/-- A node with two attributes that have no supported kind. -/
def oddNode : Node where
  name := "odd"
  attributes := .ofList [("b", .none), ("a", .list { floats := [Binary32.mk 0x7fc00000] })]

def plainThenOdd : SavedGraph where
  nodes := [plainNode, oddNode]
  version := -1
  versions := some {}

theorem stored_reads_back_plainThenOdd :
    plainThenOdd.toBytes.length < Wire.lengthLimit ∧
    decode plainThenOdd.toBytes = .ok plainThenOdd ∧
    ofBytes plainThenOdd.toBytes = .error (.unsupportedAttribute "odd" "a") := by
  have hlen : plainThenOdd.toBytes.length < Wire.lengthLimit := by decide
  obtain ⟨hdecode, -, herror, -⟩ := stored_reads_back plainThenOdd hlen
  refine ⟨hlen, hdecode, (herror _).mpr ?_⟩
  refine ⟨oddNode, "a", ⟨[plainNode], [], rfl, ?_, ?_⟩, rfl⟩
  · intro m hm
    obtain rfl := List.mem_singleton.mp hm
    exact Node.unsupportedKey?_eq_none.mp (by decide)
  · exact Node.unsupportedKey?_eq_some.mp (by decide)

end SavedGraph

end Dataflow
