import Dataflow.Proofs.Mirroring
import Dataflow.Proofs.StoredGraphs
import Mathlib.Control.Monad.Basic
import Mathlib.Tactic.Tauto

/- Whether an attribute is supported is decided on what has been read, and a field that is not
   known leaves nothing there. So a second reading of the same bytes, `storedAttributes`, keeps
   what the first one skips: the fields of each list payload as they stand in the bytes. It
   mirrors the first reading message by message, down to the single value of an attribute and the
   fields of its payload (`mirrors_attributeListField` up to `mirrors_graphField`).

   `ofBytes_listPayloads` tells by this reading which graphs are loaded, and what their list
   payloads hold. A field that no list declares is lost on the way: `functionList_dropped`. -/

namespace Dataflow.Wire

/-! ## Lists as they stand in the bytes -/

/-- A field as it stands in the bytes of a message. -/
structure RawField where
  key : Key
  /-- The payload, a delimited one without its length. -/
  payload : Bytes
  deriving DecidableEq, Repr

/-- The message of a list declares the fields from 2 to 8. -/
def RawField.Declared (f : RawField) : Prop := 2 ≤ f.key.tag ∧ f.key.tag ≤ 8

/-- A field of a list carries nothing but integers: those are in field 3, and the fields of packed
numbers may hold none. A field of any other number carries an element of another kind. -/
def RawField.OnlyInts (f : RawField) : Prop :=
  f.key.tag = 3 ∨
    (4 ≤ f.key.tag ∧ f.key.tag ≤ 6) ∧ f.key.layout = .delimited ∧ f.payload = []

instance : DecidablePred RawField.Declared := fun _ => inferInstanceAs (Decidable (_ ∧ _))

instance : DecidablePred RawField.OnlyInts := fun _ => inferInstanceAs (Decidable (_ ∨ _))

/-- A field that the message does not declare, or one that carries nothing but integers. -/
def RawField.Passes (f : RawField) : Prop := f.Declared → f.OnlyInts

instance : DecidablePred RawField.Passes := fun _ => inferInstanceAs (Decidable (_ → _))

def rawField : FieldReader (List RawField) := fun budget key fields => do
  return fields ++ [{ key, payload := ← readPayload budget key }]

/-- A member of an attribute, by its number; of a list, all fields of its payload. -/
inductive StoredMember where
  | list (fields : List RawField)
  | other (tag : Nat)
  deriving DecidableEq, Repr

def StoredMember.Passes : StoredMember → Prop
  | .list fields => ∀ f ∈ fields, f.Passes
  | .other _ => True

def memberField : FieldReader (List StoredMember) := fun budget key members =>
  if key.tag = 1 then do return members ++ [.list (← readMessage rawField budget key [])]
  else do
    skipField budget key
    return if 2 ≤ key.tag ∧ key.tag ≤ 8 then members ++ [.other key.tag] else members

/-- An attribute as it stands in the bytes of a node: its key, and the members of all its values. -/
structure StoredAttribute where
  key : Bytes := []
  members : List StoredMember := []
  deriving DecidableEq, Repr

def storedEntry : FieldReader StoredAttribute := fun budget key a =>
  if key.tag = 1 then do return { a with key := ← readBytes key }
  else if key.tag = 2 then do
    return { a with members := ← readMessage memberField budget key a.members }
  else do
    skipField budget key
    return a

/-- Reads the attributes of a node. An entry is taken by its length, whatever layout is named. -/
def storedNode : FieldReader (List StoredAttribute) := fun budget key attributes =>
  if key.tag = 5 then do return attributes ++ [← readFields storedEntry budget {}]
  else do
    skipField budget key
    return attributes

/-- Reads the attributes of each node of a graph. -/
def storedGraph : FieldReader (List (List StoredAttribute)) := fun budget key nodes =>
  if key.tag = 1 then do return nodes ++ [← readMessage storedNode budget key []]
  else do
    skipField budget key
    return nodes

/-- The attributes of each node, as they stand in the bytes of a graph. -/
def storedAttributes (bytes : Bytes) : Except Fault (List (List StoredAttribute)) :=
  readWhole storedGraph [] bytes

/-! ## Reading lists -/

section Lists

variable {key : Key} {payload : Bytes} {f : RawField} {fields : List RawField}
  {l l' start : AttributeList}

theorem RawField.passes_of_not_declared (h : ¬f.Declared) : f.Passes := fun hd => absurd hd h

theorem RawField.OnlyInts.declared (h : f.OnlyInts) : f.Declared := by
  rw [OnlyInts] at h
  rw [Declared]
  omega

theorem RawField.passes_ints (h : key.tag = 3) : Passes ⟨key, payload⟩ := fun _ => .inl h

theorem RawField.passes_packed (h : key.tag = 4 ∨ key.tag = 5 ∨ key.tag = 6) :
    Passes ⟨key, payload⟩ ↔ key.layout = .delimited ∧ payload = [] := by
  have hd : Declared ⟨key, payload⟩ := by
    simp only [Declared]
    omega
  have h3 : key.tag ≠ 3 := by omega
  have h46 : 4 ≤ key.tag ∧ key.tag ≤ 6 := by omega
  rw [Passes, imp_iff_right hd, OnlyInts, or_iff_right h3, and_iff_right h46]

theorem RawField.not_passes (h : key.tag = 2 ∨ key.tag = 7 ∨ key.tag = 8) :
    ¬Passes ⟨key, payload⟩ := by
  intro hp
  have hd : Declared ⟨key, payload⟩ := by
    simp only [Declared]
    omega
  have hints := hp hd
  simp only [OnlyInts] at hints
  omega

theorem onlyInts_iff : l.onlyInts ↔ l.strings = [] ∧ l.floats = [] ∧ l.bools = [] ∧
    l.typeCodes = [] ∧ l.shapes = [] ∧ l.tensors = [] := by
  simp [AttributeList.onlyInts, and_assoc]

/-- What reading the fields has added to a list: nothing but integers, if all of them pass. -/
def Adds (start l : AttributeList) (fields : List RawField) : Prop :=
  l.onlyInts ↔ start.onlyInts ∧ ∀ f ∈ fields, f.Passes

theorem adds_nil : Adds start start [] := by simp [Adds]

theorem Adds.concat (h : Adds start l fields) (hl : l'.onlyInts ↔ l.onlyInts ∧ f.Passes) :
    Adds start l' (fields ++ [f]) := by
  unfold Adds at *
  rw [hl, h, and_assoc, List.forall_mem_append, List.forall_mem_singleton]

theorem mirrors_attributeListField (budget : Nat) (key : Key) (h : Adds start l fields) :
    Mirrors (Adds start) (attributeListField (budget + 1) key l)
      (rawField (budget + 1) key fields) := by
  unfold attributeListField rawField
  split
  · rename_i hk
    refine skips_readBytes.payload.known fun b payload _ => h.concat ?_
    simp [onlyInts_iff, RawField.not_passes (.inl hk)]
  · rename_i hk
    refine (skips_readRepeated Scalar.skips_int64 _).payload.known fun xs payload _ => h.concat ?_
    simp [onlyInts_iff, RawField.passes_ints hk]
  · rename_i hk
    refine (mirrors_readRepeated Scalar.skips_binary32 _).known fun xs payload hxs => h.concat ?_
    simp only [onlyInts_iff, hxs, RawField.passes_packed (.inl hk)]
    tauto
  · rename_i hk
    refine (mirrors_readRepeated Scalar.skips_bool _).known fun xs payload hxs => h.concat ?_
    simp only [onlyInts_iff, hxs, RawField.passes_packed (.inr (.inl hk))]
    tauto
  · rename_i hk
    refine (mirrors_readRepeated Scalar.skips_int32 _).known fun xs payload hxs => h.concat ?_
    simp only [onlyInts_iff, hxs, RawField.passes_packed (.inr (.inr hk))]
    tauto
  · rename_i hk
    refine (skips_readMessage advances_shapeField _ _).payload.known fun b payload _ => h.concat ?_
    simp [onlyInts_iff, RawField.not_passes (.inr (.inl hk))]
  · rename_i hk
    refine (skips_readMessage advances_tensorField _ _).payload.known fun b payload _ => h.concat ?_
    simp [onlyInts_iff, RawField.not_passes (.inr (.inr hk))]
  · refine mirrors_skipField.map fun _ payload _ => h.concat ?_
    have hd : ¬RawField.Declared ⟨key, payload⟩ := by grind [RawField.Declared]
    exact (and_iff_left (RawField.passes_of_not_declared hd)).symm

end Lists

/-! ## Reading attributes -/

section Attributes

variable {a : Attribute} {members : List StoredMember}

/-- An attribute without a member is empty, and one with a single member has a supported kind
exactly if that member passes. -/
structure Shows (a : Attribute) (members : List StoredMember) : Prop where
  empty : members = [] → a = .none
  single : ∀ m, members = [m] → (a.kind? ≠ none ↔ m.Passes)

theorem shows_nil : Shows .none [] where
  empty _ := rfl
  single m h := by simp at h

theorem Shows.kind (h : Shows a members) (hone : members.length ≤ 1) :
    a.kind? ≠ none ↔ ∃ m ∈ members, m.Passes := by
  cases members with
  | nil => simp [h.empty rfl, Attribute.kind?]
  | cons m rest =>
    have hrest : rest.length = 0 := Nat.le_zero.mp (Nat.le_of_succ_le_succ hone)
    obtain rfl := List.length_eq_zero_iff.mp hrest
    simp [h.single m rfl]

theorem shows_concat_other {kind : AttributeKind} (members : List StoredMember) (tag : Nat)
    (ha : a.kind? = some kind) : Shows a (members ++ [.other tag]) where
  empty h := by simp at h
  single m hm := by
    obtain ⟨-, rfl⟩ : members = [] ∧ StoredMember.other tag = m := by
      simpa [List.append_eq_singleton_iff] using hm
    exact iff_of_true (by simp [ha]) trivial

theorem kind_list {l : AttributeList} : (Attribute.list l).kind? ≠ none ↔ l.onlyInts := by
  rw [Attribute.kind?]
  cases l.onlyInts with
  | false => simp
  | true => simp

theorem Shows.concat_list {l : AttributeList} {fields : List RawField} (h : Shows a members)
    (hl : Adds (listSoFar a) l fields) : Shows (.list l) (members ++ [.list fields]) where
  empty h := by simp at h
  single m hm := by
    obtain ⟨hnil, rfl⟩ : members = [] ∧ StoredMember.list fields = m := by
      simpa [List.append_eq_singleton_iff] using hm
    rw [h.empty hnil] at hl
    exact kind_list.trans (hl.trans (and_iff_right rfl))

theorem mirrors_otherMember {α : Type} {r : Reader α} {f : α → Attribute} {key : Key}
    {budget : Nat} (hr : Skips key r)
    (hf : ∀ x, ∃ kind, (f x).kind? = some kind) (hk : 2 ≤ key.tag ∧ key.tag ≤ 8) :
    Mirrors Shows (within "AttrValue" "value" (do return f (← r)))
      (memberField (budget + 1) key members) := by
  rw [memberField, if_neg (by omega), if_pos hk]
  refine hr.skipped.known fun x _ _ => ?_
  obtain ⟨kind, hkind⟩ := hf x
  exact shows_concat_other members key.tag hkind

theorem mirrors_attributeField (budget : Nat) (key : Key) (h : Shows a members) :
    Mirrors Shows (attributeField (budget + 2) key a) (memberField (budget + 2) key members) := by
  unfold attributeField
  simp only [map_eq_pure_bind]
  split
  · rename_i hk
    rw [memberField, if_pos hk]
    exact (mirrors_readMessage (fun key _ _ => mirrors_attributeListField budget key)
      adds_nil).known fun l fields => h.concat_list
  · exact mirrors_otherMember skips_readBytes (fun _ => ⟨_, rfl⟩) (by omega)
  · exact mirrors_otherMember (skips_readScalar Scalar.skips_int64) (fun _ => ⟨_, rfl⟩) (by omega)
  · exact mirrors_otherMember (skips_readScalar Scalar.skips_binary32) (fun _ => ⟨_, rfl⟩)
      (by omega)
  · exact mirrors_otherMember (skips_readScalar Scalar.skips_bool) (fun _ => ⟨_, rfl⟩) (by omega)
  · exact mirrors_otherMember (skips_readScalar Scalar.skips_int32) (fun _ => ⟨_, rfl⟩) (by omega)
  · exact mirrors_otherMember (skips_readMessage advances_shapeField _ _) (fun _ => ⟨_, rfl⟩)
      (by omega)
  · exact mirrors_otherMember (skips_readMessage advances_tensorField _ _) (fun _ => ⟨_, rfl⟩)
      (by omega)
  · rw [memberField, if_neg (by omega), if_neg (by grind)]
    exact (mirrors_refl _).map fun _ _ _ => h

end Attributes

/-! ## Reading nodes -/

theorem mirrors_readText (key : Key) :
    Mirrors (fun s b => Bytes.ofText s = b) (readText key) (readBytes key) := by
  intro i s j h
  obtain ⟨b, hb, hs⟩ := readText_eq_ok.mp h
  exact ⟨b, hb, Bytes.ofText_of_toText? hs⟩

structure Reflects (e : String × Attribute) (a : StoredAttribute) : Prop where
  key : Bytes.ofText e.1 = a.key
  members : Shows e.2 a.members

theorem reflects_nil : Reflects ("", .none) {} := ⟨rfl, shows_nil⟩

theorem mirrors_entryField {e : String × Attribute} {a : StoredAttribute} (budget : Nat)
    (key : Key) (h : Reflects e a) :
    Mirrors Reflects (entryField (budget + 3) key e) (storedEntry (budget + 3) key a) := by
  unfold entryField storedEntry
  split
  · rename_i hk
    rw [if_pos hk]
    exact (mirrors_readText key).map fun s b hs => ⟨hs, h.members⟩
  · rename_i hk
    rw [if_neg (by omega), if_pos hk]
    exact (mirrors_readMessage (fun key _ _ => mirrors_attributeField budget key)
      h.members).map fun a members ha => ⟨h.key, ha⟩
  · rw [if_neg (by omega), if_neg (by omega)]
    exact (mirrors_refl _).map fun _ _ _ => h

/-- As long as no key repeats, the attributes are those that are found under their keys. -/
def Collects (m : AttributeMap) (attributes : List StoredAttribute) : Prop :=
  (attributes.map StoredAttribute.key).Nodup →
    (∀ a ∈ attributes, ∃ key value, m.get? key = some value ∧ Reflects (key, value) a) ∧
    ∀ key value, m.get? key = some value → ∃ a ∈ attributes, Reflects (key, value) a

section Nodes

variable {m : AttributeMap} {n : Node} {attributes : List StoredAttribute}

theorem collects_nil : Collects .empty [] := by
  intro _
  refine ⟨fun a ha => by simp at ha, ?_⟩
  intro key value h
  cases h

theorem Collects.insert {e : String × Attribute} {a : StoredAttribute} (h : Collects m attributes)
    (he : Reflects e a) : Collects (m.insert e.1 e.2) (attributes ++ [a]) := by
  intro hnodup
  rw [List.map_append, List.nodup_append] at hnodup
  obtain ⟨hnodup, -, hne⟩ := hnodup
  obtain ⟨hfound, hlisted⟩ := h hnodup
  constructor
  · intro b hb
    rcases List.mem_append.mp hb with hb | hb
    · obtain ⟨key, value, hkey, hr⟩ := hfound b hb
      have hkeys : key ≠ e.1 := by
        rintro rfl
        exact hne b.key (List.mem_map_of_mem hb) a.key (by simp) (hr.key.symm.trans he.key)
      exact ⟨key, value, (m.get?_insert_ne e.2 hkeys).trans hkey, hr⟩
    · obtain rfl := List.mem_singleton.mp hb
      exact ⟨e.1, e.2, m.get?_insert_self e.1 e.2, he⟩
  · intro key value hkey
    by_cases hkeys : key = e.1
    · subst hkeys
      obtain rfl := Option.some.inj ((m.get?_insert_self e.1 e.2).symm.trans hkey)
      exact ⟨a, List.mem_append_right attributes List.mem_cons_self, he⟩
    · obtain ⟨b, hb, hr⟩ := hlisted key value ((m.get?_insert_ne e.2 hkeys).symm.trans hkey)
      exact ⟨b, List.mem_append_left [a] hb, hr⟩

theorem mirrors_otherNodeField {α : Type} {r : Reader α} {f : α → Node} {field : String}
    {key : Key} (hr : Skips key r) (budget : Nat) (h : Collects m attributes)
    (hf : ∀ x, (f x).attributes = m) (hk : key.tag ≠ 5) :
    Mirrors (fun n => Collects n.attributes) (within "NodeDef" field (do return f (← r)))
      (storedNode (budget + 1) key attributes) := by
  rw [storedNode, if_neg hk]
  refine hr.skipped.known fun x _ _ => ?_
  rw [hf x]
  exact h

theorem mirrors_nodeField (budget : Nat) (key : Key) (h : Collects n.attributes attributes) :
    Mirrors (fun n => Collects n.attributes) (nodeField (budget + 4) key n)
      (storedNode (budget + 4) key attributes) := by
  unfold nodeField
  split
  · exact mirrors_otherNodeField skips_readText _ h (fun _ => rfl) (by omega)
  · exact mirrors_otherNodeField skips_readText _ h (fun _ => rfl) (by omega)
  · exact mirrors_otherNodeField skips_readText _ h (fun _ => rfl) (by omega)
  · exact mirrors_otherNodeField skips_readText _ h (fun _ => rfl) (by omega)
  · rename_i hk
    rw [storedNode, if_pos hk]
    exact (mirrors_readFields (fun key _ _ => mirrors_entryField budget key)
      reflects_nil).known fun e a => h.insert
  · exact mirrors_otherNodeField skips_readBytes _ h (fun _ => rfl) (by omega)
  · exact mirrors_otherNodeField skips_readBytes _ h (fun _ => rfl) (by omega)
  · rw [storedNode, if_neg (by omega)]
    exact (mirrors_refl _).map fun _ _ _ => h

end Nodes

/-! ## Reading graphs -/

def Lists (g : SavedGraph) (nodes : List (List StoredAttribute)) : Prop :=
  (∀ attributes ∈ nodes, ∃ n ∈ g.nodes, Collects n.attributes attributes) ∧
    ∀ n ∈ g.nodes, ∃ attributes ∈ nodes, Collects n.attributes attributes

section Graphs

variable {g : SavedGraph} {nodes : List (List StoredAttribute)}

theorem lists_nil : Lists {} [] :=
  ⟨fun _ h => by simp at h, fun _ h => by simp at h⟩

theorem Lists.concat {n : Node} {attributes : List StoredAttribute} (h : Lists g nodes)
    (hn : Collects n.attributes attributes) :
    Lists { g with nodes := g.nodes ++ [n] } (nodes ++ [attributes]) := by
  constructor
  · intro as has
    rcases List.mem_append.mp has with has | has
    · obtain ⟨m, hm, hc⟩ := h.1 as has
      exact ⟨m, List.mem_append_left [n] hm, hc⟩
    · obtain rfl := List.mem_singleton.mp has
      exact ⟨n, List.mem_append_right g.nodes List.mem_cons_self, hn⟩
  · intro m hm
    rcases List.mem_append.mp hm with hm | hm
    · obtain ⟨as, has, hc⟩ := h.2 m hm
      exact ⟨as, List.mem_append_left [attributes] has, hc⟩
    · obtain rfl := List.mem_singleton.mp hm
      exact ⟨attributes, List.mem_append_right nodes List.mem_cons_self, hn⟩

theorem mirrors_otherGraphField {α : Type} {r : Reader α} {f : α → SavedGraph} {field : String}
    {key : Key} (hr : Skips key r) (budget : Nat) (h : Lists g nodes)
    (hf : ∀ x, (f x).nodes = g.nodes) (hk : key.tag ≠ 1) :
    Mirrors Lists (within "GraphDef" field (do return f (← r)))
      (storedGraph (budget + 1) key nodes) := by
  rw [storedGraph, if_neg hk]
  refine hr.skipped.known fun x _ _ => ?_
  rw [Lists, hf x]
  exact h

theorem mirrors_graphField (budget : Nat) (key : Key) (h : Lists g nodes) :
    Mirrors Lists (graphField (budget + 5) key g) (storedGraph (budget + 5) key nodes) := by
  unfold graphField
  split
  · rename_i hk
    rw [storedGraph, if_pos hk]
    exact (mirrors_readMessage (fun key _ _ => mirrors_nodeField budget key)
      collects_nil).known fun n as => h.concat
  · exact mirrors_otherGraphField skips_readBytes _ h (fun _ => rfl) (by omega)
  · exact mirrors_otherGraphField (skips_readScalar Scalar.skips_int32) _ h (fun _ => rfl)
      (by omega)
  · exact mirrors_otherGraphField (skips_readMessage advances_versionsField _ _) _ h (fun _ => rfl)
      (by omega)
  · exact mirrors_otherGraphField skips_readBytes _ h (fun _ => rfl) (by omega)
  · rw [storedGraph, if_neg (by omega)]
    exact (mirrors_refl _).map fun _ _ _ => h

end Graphs

/-- Wherever a graph is decoded, its attributes can be read as they stand in the bytes. -/
theorem storedAttributes_of_decode {bytes : Bytes} {g : SavedGraph}
    (h : SavedGraph.decode bytes = .ok g) :
    ∃ nodes, storedAttributes bytes = .ok nodes ∧ Lists g nodes :=
  -- Five of the hundred levels are those of the messages that are looked into.
  mirrors_readWhole (fun key _ _ => mirrors_graphField 95 key) lists_nil h

/-! ## Loading -/

/-- No key repeats within the node, and each attribute carries one value at most. -/
def SingleValued (attributes : List StoredAttribute) : Prop :=
  (attributes.map StoredAttribute.key).Nodup ∧ ∀ a ∈ attributes, a.members.length ≤ 1

instance : DecidablePred SingleValued := fun _ => inferInstanceAs (Decidable (_ ∧ _))

def HoldsList (nodes : List (List StoredAttribute)) (fields : List RawField) : Prop :=
  ∃ attributes ∈ nodes, ∃ a ∈ attributes, .list fields ∈ a.members

def AllPass (nodes : List (List StoredAttribute)) : Prop :=
  ∀ attributes ∈ nodes, ∀ a ∈ attributes, ∃ m ∈ a.members, m.Passes

theorem Collects.supported_iff {n : Node} {attributes : List StoredAttribute}
    (h : Collects n.attributes attributes) (hs : SingleValued attributes) :
    n.Supported ↔ ∀ a ∈ attributes, ∃ m ∈ a.members, m.Passes := by
  obtain ⟨hnodup, hone⟩ := hs
  obtain ⟨hfound, hlisted⟩ := h hnodup
  constructor
  · intro hsup a ha
    obtain ⟨key, value, hkey, hr⟩ := hfound a ha
    exact (hr.members.kind (hone a ha)).mp (hsup key value hkey)
  · intro hpass key value hkey
    obtain ⟨a, ha, hr⟩ := hlisted key value hkey
    exact (hr.members.kind (hone a ha)).mpr (hpass a ha)

section Loading

variable {g : SavedGraph} {nodes : List (List StoredAttribute)} {fields : List RawField}

theorem Lists.supported_iff (h : Lists g nodes)
    (hs : ∀ attributes ∈ nodes, SingleValued attributes) :
    (∀ n ∈ g.nodes, n.Supported) ↔ AllPass nodes := by
  constructor
  · intro hsup attributes has
    obtain ⟨n, hn, hc⟩ := h.1 attributes has
    exact (hc.supported_iff (hs attributes has)).mp (hsup n hn)
  · intro hpass n hn
    obtain ⟨attributes, has, hc⟩ := h.2 n hn
    exact (hc.supported_iff (hs attributes has)).mpr (hpass attributes has)

theorem AllPass.passes (h : AllPass nodes)
    (hs : ∀ attributes ∈ nodes, SingleValued attributes) (hf : HoldsList nodes fields) :
    ∀ f ∈ fields, f.Passes := by
  obtain ⟨attributes, has, a, ha, hmem⟩ := hf
  obtain ⟨m, hm, hpass⟩ := h attributes has a ha
  -- The list is the only member that there is.
  obtain ⟨x, hx⟩ := List.length_eq_one_iff.mp
    (Nat.le_antisymm ((hs attributes has).2 a ha) (List.length_pos_of_mem hmem))
  rw [hx, List.mem_singleton] at hm hmem
  obtain rfl := hm.trans hmem.symm
  exact hpass

end Loading

end Dataflow.Wire

namespace Dataflow.SavedGraph

open Wire

theorem ofBytes_eq_ok_iff {bytes : Bytes} {g : SavedGraph} (hd : decode bytes = .ok g) :
    ofBytes bytes = .ok g ↔ ∀ n ∈ g.nodes, n.Supported := by
  rw [ofBytes_of_decode hd, ← checkAttributes_eq_ok]
  cases g.checkAttributes with
  | error e => simp [Except.map]
  | ok u => simp [Except.map]

/-- A graph that can be decoded is loaded exactly if every attribute carries a value that passes. So
an element of another kind in a declared field of a list is refused, but one in a field that is not
declared is dropped: a list that was loaded holds nothing but integers exactly if all of its fields
are declared. -/
theorem ofBytes_listPayloads {bytes : Bytes} {g : SavedGraph} (hd : decode bytes = .ok g) :
    ∃ nodes, storedAttributes bytes = .ok nodes ∧
      ((∀ attributes ∈ nodes, SingleValued attributes) →
        (ofBytes bytes = .ok g ↔ AllPass nodes) ∧
        (ofBytes bytes = .ok g → ∀ fields, HoldsList nodes fields →
          ((∀ f ∈ fields, f.OnlyInts) ↔ ∀ f ∈ fields, f.Declared)) ∧
        ((∃ fields, HoldsList nodes fields ∧ ∃ f ∈ fields, f.Declared ∧ ¬f.OnlyInts) →
          ∃ node key, ofBytes bytes = .error (.unsupportedAttribute node key))) := by
  obtain ⟨nodes, hnodes, hlists⟩ := storedAttributes_of_decode hd
  refine ⟨nodes, hnodes, fun hsingle => ?_⟩
  have hload : ofBytes bytes = .ok g ↔ AllPass nodes :=
    (ofBytes_eq_ok_iff hd).trans (hlists.supported_iff hsingle)
  refine ⟨hload, ?_, ?_⟩
  · intro hok fields hfields
    have hpass := (hload.mp hok).passes hsingle hfields
    exact forall₂_congr fun f hf => ⟨RawField.OnlyInts.declared, hpass f hf⟩
  · rintro ⟨fields, hfields, f, hf, hdeclared, hnot⟩
    rw [ofBytes_of_decode hd]
    cases hc : g.checkAttributes with
    | ok u =>
      have hall := (hlists.supported_iff hsingle).mp (checkAttributes_eq_ok.mp hc)
      exact absurd (hall.passes hsingle hfields f hf hdeclared) hnot
    | error e =>
      obtain ⟨n, key, -, rfl⟩ := checkAttributes_eq_error.mp hc
      exact ⟨n.name, key, rfl⟩

def oneList (payload : Bytes) : Bytes :=
  writeDelimited 1 (writeText 1 "n" ++ writeText 2 "Case" ++
    writeDelimited 5 (writeText 1 "branches" ++ writeDelimited 2 (writeDelimited 1 payload)))

/-- The same graph when it has been read, with what the list holds. -/
def oneListGraph (l : AttributeList) : SavedGraph :=
  .ofNodes [{ name := "n", op := "Case", attributes := .ofList [("branches", .list l)] }]

/-- The attributes of the same graph as they stand in the bytes. -/
def oneListStored (fields : List RawField) : List (List StoredAttribute) :=
  [[{ key := Bytes.ofText "branches", members := [.list fields] }]]

theorem holdsList_oneListStored (fields : List RawField) :
    HoldsList (oneListStored fields) fields :=
  ⟨_, List.mem_singleton_self _, _, List.mem_singleton_self _, List.mem_singleton_self _⟩

theorem singleValued_oneListStored (fields : List RawField) :
    ∀ attributes ∈ oneListStored fields, SingleValued attributes := by
  intro attributes h
  obtain rfl := List.mem_singleton.mp h
  exact ⟨by simp, by simp⟩

theorem allPass_oneListStored {fields : List RawField} (h : ∀ f ∈ fields, f.Passes) :
    AllPass (oneListStored fields) := by
  intro attributes has a ha
  obtain rfl := List.mem_singleton.mp has
  obtain rfl := List.mem_singleton.mp ha
  exact ⟨.list fields, List.mem_singleton_self _, h⟩

/-- A list of integers is loaded, and a list with a string is refused. -/
theorem ofBytes_listPayloads_oneList :
    ofBytes (oneList (writePacked .int64 3 [5, 6])) = .ok (oneListGraph { ints := [5, 6] }) ∧
    (∀ f ∈ [RawField.mk ⟨3, .delimited⟩ [5, 6]], f.OnlyInts) ∧
    ∃ node key, ofBytes (oneList (writeText 2 "s")) = .error (.unsupportedAttribute node key) := by
  have hints : decode (oneList (writePacked .int64 3 [5, 6])) =
      .ok (oneListGraph { ints := [5, 6] }) := by decide +kernel
  have hstored : storedAttributes (oneList (writePacked .int64 3 [5, 6])) =
      .ok (oneListStored [⟨⟨3, .delimited⟩, [5, 6]⟩]) := by decide +kernel
  have hstring : decode (oneList (writeText 2 "s")) =
      .ok (oneListGraph { strings := [Bytes.ofText "s"] }) := by decide +kernel
  have hstored' : storedAttributes (oneList (writeText 2 "s")) =
      .ok (oneListStored [⟨⟨2, .delimited⟩, Bytes.ofText "s"⟩]) := by decide +kernel
  obtain ⟨nodes, hnodes, h⟩ := ofBytes_listPayloads hints
  obtain ⟨nodes', hnodes', h'⟩ := ofBytes_listPayloads hstring
  cases hnodes.symm.trans hstored
  cases hnodes'.symm.trans hstored'
  obtain ⟨hload, honly, -⟩ := h (singleValued_oneListStored _)
  obtain ⟨-, -, hrefused⟩ := h' (singleValued_oneListStored _)
  have hok := hload.mpr (allPass_oneListStored (by decide))
  refine ⟨hok, (honly hok _ (holdsList_oneListStored _)).mpr (by decide), ?_⟩
  exact hrefused ⟨_, holdsList_oneListStored _, _, List.mem_singleton_self _, by decide, by decide⟩

/-- A list of one function, in a field that lists do not declare. -/
def functionList : Bytes := oneList (writeDelimited 9 (writeText 1 "g"))

/-- The function is dropped: what is loaded is an empty list, which counts as one of integers. -/
theorem functionList_dropped :
    ¬∀ (bytes : Bytes) (g : SavedGraph) (nodes : List (List StoredAttribute)),
      ofBytes bytes = .ok g → storedAttributes bytes = .ok nodes →
      (∀ attributes ∈ nodes, SingleValued attributes) →
      ∀ fields, HoldsList nodes fields → ∀ f ∈ fields, f.OnlyInts := by
  intro hall
  have hload : ofBytes functionList = .ok (oneListGraph {}) := by decide +kernel
  have hstored : storedAttributes functionList =
      .ok (oneListStored [⟨⟨9, .delimited⟩, writeText 1 "g"⟩]) := by decide +kernel
  have hints := hall _ _ _ hload hstored (singleValued_oneListStored _) _
    (holdsList_oneListStored _) _ (List.mem_singleton_self _)
  exact absurd hints (by decide)

end Dataflow.SavedGraph
