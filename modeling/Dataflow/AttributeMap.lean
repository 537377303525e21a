import Dataflow.Attribute

/- The attributes of a node, each under its own key and in the order of the keys, which is that
   of the UTF-8 bytes and so that of code points. The order is kept by the type, so two maps with
   the same entries are the same map; `get?_insert_self` and `get?_insert_ne` are all that the
   rest of the library needs to know of an insertion. -/

namespace Dataflow

/-- Attributes under distinct keys, in increasing order of the keys. -/
structure AttributeMap where
  entries : List (String × Attribute)
  sorted : entries.Pairwise fun a b => a.1 < b.1
  deriving DecidableEq

namespace AttributeMap

def empty : AttributeMap := ⟨[], List.Pairwise.nil⟩

instance : Inhabited AttributeMap := ⟨empty⟩

def isEmpty (m : AttributeMap) : Bool := m.entries.isEmpty

def get? (m : AttributeMap) (key : String) : Option Attribute := m.entries.lookup key

/-- An attribute put into a list in key order, in the place of one with the same key. -/
def insertEntry (key : String) (value : Attribute) :
    List (String × Attribute) → List (String × Attribute)
  | [] => [(key, value)]
  | e :: rest =>
    if key < e.1 then (key, value) :: e :: rest
    else if key = e.1 then (key, value) :: rest
    else e :: insertEntry key value rest

theorem mem_insertEntry {key : String} {value : Attribute} {l : List (String × Attribute)}
    {e : String × Attribute} (h : e ∈ insertEntry key value l) : e = (key, value) ∨ e ∈ l := by
  induction l with
  | nil => simpa [insertEntry] using h
  | cons x l ih =>
    simp only [insertEntry] at h
    split at h
    · simpa using h
    · split at h
      · rcases List.mem_cons.mp h with h | h
        · exact .inl h
        · exact .inr (List.mem_cons_of_mem x h)
      · rcases List.mem_cons.mp h with h | h
        · exact .inr (h ▸ List.mem_cons_self)
        · exact (ih h).imp id (List.mem_cons_of_mem x)

theorem lt_of_not_lt_of_ne {a b : String} (h : ¬a < b) (hne : a ≠ b) : b < a := by
  rcases Decidable.em (b < a) with hb | hb
  · exact hb
  · exact absurd (String.le_antisymm (String.not_lt.mp hb) (String.not_lt.mp h)) hne

theorem sorted_insertEntry {key : String} {value : Attribute} {l : List (String × Attribute)}
    (h : l.Pairwise fun a b => a.1 < b.1) :
    (insertEntry key value l).Pairwise fun a b => a.1 < b.1 := by
  induction l with
  | nil => simp [insertEntry]
  | cons x l ih =>
    have hx := List.pairwise_cons.mp h
    simp only [insertEntry]
    split
    · rename_i hlt
      refine List.pairwise_cons.mpr ⟨?_, h⟩
      intro e he
      rcases List.mem_cons.mp he with rfl | he
      · exact hlt
      · exact String.lt_trans hlt (hx.1 e he)
    · rename_i hlt
      split
      · rename_i heq
        exact List.pairwise_cons.mpr ⟨fun e he => heq ▸ hx.1 e he, hx.2⟩
      · rename_i hne
        refine List.pairwise_cons.mpr ⟨?_, ih hx.2⟩
        intro e he
        rcases mem_insertEntry he with rfl | he
        · exact lt_of_not_lt_of_ne hlt hne
        · exact hx.1 e he

def insert (m : AttributeMap) (key : String) (value : Attribute) : AttributeMap :=
  ⟨insertEntry key value m.entries, sorted_insertEntry m.sorted⟩

def erase (m : AttributeMap) (key : String) : AttributeMap :=
  ⟨m.entries.filter fun e => e.1 != key, m.sorted.filter _⟩

/-- The map of key and attribute pairs; a later pair replaces an earlier one with the same key. -/
def ofList (pairs : List (String × Attribute)) : AttributeMap :=
  pairs.foldl (fun m e => m.insert e.1 e.2) empty

/-- The first key in order whose attribute has no supported kind. -/
def unsupportedKey? (m : AttributeMap) : Option String :=
  (m.entries.find? fun e => e.2.kind?.isNone).map Prod.fst

def sameNumbers (a b : AttributeMap) : Bool :=
  listsAgree (fun x y => x.1 == y.1 && x.2.sameNumbers y.2) a.entries b.entries

/-! ## What is found after putting -/

theorem lookup_insertEntry_self (key : String) (value : Attribute)
    (l : List (String × Attribute)) : (insertEntry key value l).lookup key = some value := by
  induction l with
  | nil => simp [insertEntry]
  | cons x l ih =>
    simp only [insertEntry]
    split
    · simp
    · split
      · simp
      · rename_i hne
        rw [List.lookup_cons, show (key == x.1) = false by simpa using hne]
        exact ih

theorem lookup_insertEntry_ne {key other : String} (value : Attribute)
    (l : List (String × Attribute)) (h : other ≠ key) :
    (insertEntry key value l).lookup other = l.lookup other := by
  have hb : (other == key) = false := by simpa using h
  induction l with
  | nil => simp [insertEntry, List.lookup_cons, hb]
  | cons x l ih =>
    simp only [insertEntry]
    split
    · rw [List.lookup_cons, hb]
    · split
      · rename_i heq
        rw [List.lookup_cons, List.lookup_cons, hb, ← heq, hb]
      · rw [List.lookup_cons, List.lookup_cons, ih]

theorem get?_insert_self (m : AttributeMap) (key : String) (value : Attribute) :
    (m.insert key value).get? key = some value :=
  lookup_insertEntry_self key value m.entries

theorem get?_insert_ne (m : AttributeMap) {key other : String} (value : Attribute)
    (h : other ≠ key) : (m.insert key value).get? other = m.get? other :=
  lookup_insertEntry_ne value m.entries h

/-! ## Entries -/

theorem lookup_eq_some_of_sorted {key : String} {value : Attribute}
    {l : List (String × Attribute)} (h : l.Pairwise fun a b => a.1 < b.1) :
    l.lookup key = some value ↔ (key, value) ∈ l := by
  induction l with
  | nil => simp
  | cons x l ih =>
    obtain ⟨hx, hl⟩ := List.pairwise_cons.mp h
    rw [List.lookup_cons, List.mem_cons]
    by_cases hkey : key = x.1
    · -- No later entry has the key of the first one.
      have hnot : (key, value) ∉ l := by
        intro hmem
        have hlt := hx _ hmem
        rw [hkey] at hlt
        exact String.lt_irrefl _ hlt
      have hbeq : (key == x.1) = true := by rw [hkey]; exact beq_self_eq_true x.1
      rw [hbeq, or_iff_left hnot, Prod.ext_iff]
      constructor
      · intro hv
        exact ⟨hkey, (Option.some.inj hv).symm⟩
      · rintro ⟨-, hv⟩
        exact congrArg some hv.symm
    · have hne : (key, value) ≠ x := fun he => hkey (congrArg Prod.fst he)
      rw [beq_false_of_ne hkey, or_iff_right hne]
      exact ih hl

theorem get?_eq_some (m : AttributeMap) {key : String} {value : Attribute} :
    m.get? key = some value ↔ (key, value) ∈ m.entries :=
  lookup_eq_some_of_sorted m.sorted

theorem insertEntry_last {key : String} (value : Attribute) {l : List (String × Attribute)}
    (h : ∀ e ∈ l, e.1 < key) : insertEntry key value l = l ++ [(key, value)] := by
  induction l with
  | nil => rfl
  | cons x l ih =>
    have hx := h x List.mem_cons_self
    have hne : key ≠ x.1 := fun heq => String.lt_irrefl _ (heq ▸ hx)
    rw [insertEntry, if_neg (String.lt_asymm hx), if_neg hne,
      ih fun e he => h e (List.mem_cons_of_mem x he)]
    rfl

theorem ofList_concat (before : List (String × Attribute)) (e : String × Attribute) :
    ofList (before ++ [e]) = (ofList before).insert e.1 e.2 := by
  rw [ofList, List.foldl_append]
  rfl

/-- Entries that come after all of a map are put at its end. -/
theorem entries_foldl_insert (m : AttributeMap) (l : List (String × Attribute))
    (h : (m.entries ++ l).Pairwise fun a b => a.1 < b.1) :
    (l.foldl (fun m e => m.insert e.1 e.2) m).entries = m.entries ++ l := by
  induction l generalizing m with
  | nil => exact (List.append_nil m.entries).symm
  | cons e l ih =>
    have hlast : ∀ x ∈ m.entries, x.1 < e.1 := fun x hx =>
      (List.pairwise_append.mp h).2.2 x hx e List.mem_cons_self
    have hput : (m.insert e.1 e.2).entries = m.entries ++ [e] := insertEntry_last e.2 hlast
    have hsplit : m.entries ++ e :: l = m.entries ++ [e] ++ l := by simp
    rw [List.foldl_cons, ih, hput, hsplit]
    rw [hput, ← hsplit]
    exact h

/-- A map is put together from its entries. -/
theorem ofList_entries (m : AttributeMap) : ofList m.entries = m := by
  cases m with
  | mk entries sorted =>
    rw [AttributeMap.mk.injEq]
    exact entries_foldl_insert empty entries sorted

end AttributeMap
end Dataflow
