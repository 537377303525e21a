import Dataflow.Proofs.Broadcast

/- To broadcast to one another orders shapes: a shape is below those that its axes, aligned at
   the innermost one, can be stretched to. Two shapes have a common shape exactly if something is
   above both, and it is then the least such shape. All laws of broadcasting follow from that,
   since a shape above several others does not depend on how they are grouped or ordered
   (`isLeastBound_congr`); `broadcast?_outcome` lists them. -/

namespace Dataflow.Shape

variable {a b c r : List Nat}

/-! ## The order of shapes -/

theorem broadcastsInner_iff : ∀ {as rs : List Nat}, BroadcastsInner as rs ↔
    as.length ≤ rs.length ∧ ∀ (i d : Nat), as[i]? = some d → rs[i]? = some d ∨ d = 1
  | [], rs => by simp [BroadcastsInner]
  | a :: as, [] => by simp [BroadcastsInner]
  | a :: as, r :: rs => by
    rw [BroadcastsInner, broadcastsInner_iff, List.length_cons, List.length_cons,
      Nat.add_le_add_iff_right]
    constructor
    · intro h
      refine ⟨h.2.1, fun i d hd => ?_⟩
      cases i with
      | zero =>
        cases hd
        exact h.1.imp (congrArg some ·.symm) id
      | succ i => exact h.2.2 i d hd
    · intro h
      have ha : a = r ∨ a = 1 := (h.2 0 a rfl).imp (fun hr => (Option.some.inj hr).symm) id
      exact ⟨ha, h.1, fun i d => h.2 (i + 1) d⟩

/-- One shape broadcasts to another if it has no more axes and each of its sizes, aligned at the innermost
axis, is the size there or one. -/
theorem broadcastsTo_iff : BroadcastsTo a r ↔
    a.length ≤ r.length ∧ ∀ (i d : Nat), a.reverse[i]? = some d → r.reverse[i]? = some d ∨ d = 1 := by
  rw [BroadcastsTo, broadcastsInner_iff, List.length_reverse, List.length_reverse]

theorem broadcastsTo_refl (a : List Nat) : BroadcastsTo a a := broadcastsInner_refl a.reverse

theorem BroadcastsTo.trans (h : BroadcastsTo a b) (h' : BroadcastsTo b c) : BroadcastsTo a c := by
  obtain ⟨hl, hd⟩ := broadcastsTo_iff.mp h
  obtain ⟨hl', hd'⟩ := broadcastsTo_iff.mp h'
  refine broadcastsTo_iff.mpr ⟨Nat.le_trans hl hl', fun i d hi => ?_⟩
  rcases hd i d hi with hb | hone
  · exact hd' i d hb
  · exact .inr hone

/-! ## Existence -/

theorem exists_broadcastAxis {a b r : Nat} (ha : a = r ∨ a = 1) (hb : b = r ∨ b = 1) :
    ∃ c, broadcastAxis a b = some c := by
  unfold broadcastAxis
  split
  · exact ⟨a, rfl⟩
  · split
    · exact ⟨b, rfl⟩
    · rw [if_pos (by omega)]
      exact ⟨a, rfl⟩

theorem exists_broadcastInner : ∀ {as bs rs : List Nat}, BroadcastsInner as rs →
    BroadcastsInner bs rs → ∃ cs, broadcastInner as bs = some cs
  | [], bs, _, _, _ => ⟨bs, rfl⟩
  | a :: as, [], _, _, _ => ⟨a :: as, rfl⟩
  | a :: as, b :: bs, r :: rs, ha, hb => by
    obtain ⟨c, hc⟩ := exists_broadcastAxis ha.1 hb.1
    obtain ⟨cs, hcs⟩ := exists_broadcastInner ha.2 hb.2
    refine ⟨c :: cs, ?_⟩
    rw [broadcastInner, hc, hcs]

theorem exists_broadcast? (ha : BroadcastsTo a r) (hb : BroadcastsTo b r) :
    ∃ c, broadcast? a b = some c := by
  obtain ⟨cs, hcs⟩ := exists_broadcastInner ha hb
  exact ⟨cs.reverse, by rw [broadcast?, hcs, Option.map_some]⟩

/-! ## Least bounds -/

/-- All of some shapes broadcast to this one, and it broadcasts to every other such shape. -/
structure IsLeastBound (shapes : List (List Nat)) (c : List Nat) : Prop where
  bound : ∀ a ∈ shapes, BroadcastsTo a c
  least : ∀ r, (∀ a ∈ shapes, BroadcastsTo a r) → BroadcastsTo c r

theorem IsLeastBound.unique {shapes : List (List Nat)} (h : IsLeastBound shapes b)
    (h' : IsLeastBound shapes c) : b = c :=
  (h.least c h'.bound).antisymm (h'.least b h.bound)

theorem IsLeastBound.congr {shapes shapes' : List (List Nat)} (h : ∀ a, a ∈ shapes ↔ a ∈ shapes')
    (hc : IsLeastBound shapes c) : IsLeastBound shapes' c :=
  ⟨fun a ha => hc.bound a ((h a).mpr ha), fun r hr => hc.least r fun a ha => hr a ((h a).mp ha)⟩

/-- Neither the order of the shapes nor how often they are given plays a part. -/
theorem isLeastBound_congr {shapes shapes' : List (List Nat)} (h : ∀ a, a ∈ shapes ↔ a ∈ shapes') :
    IsLeastBound shapes c ↔ IsLeastBound shapes' c :=
  ⟨.congr h, .congr fun a => (h a).symm⟩

theorem isLeastBound_pair : IsLeastBound [a, b] c ↔ BroadcastsTo a c ∧ BroadcastsTo b c ∧
    ∀ r, BroadcastsTo a r → BroadcastsTo b r → BroadcastsTo c r := by
  constructor
  · intro h
    refine ⟨h.bound a (by simp), h.bound b (by simp), fun r ha hb => h.least r ?_⟩
    simp [ha, hb]
  · intro h
    refine ⟨by simp [h.1, h.2.1], fun r hr => h.2.2 r (hr a (by simp)) (hr b (by simp))⟩

theorem broadcast?_eq_some_iff : broadcast? a b = some c ↔ IsLeastBound [a, b] c := by
  constructor
  · intro h
    exact isLeastBound_pair.mpr (broadcast?_isLeast h)
  · intro h
    obtain ⟨c', hc'⟩ := exists_broadcast? (h.bound a (by simp)) (h.bound b (by simp))
    have hleast : IsLeastBound [a, b] c' := isLeastBound_pair.mpr (broadcast?_isLeast hc')
    rw [hc', hleast.unique h]

theorem bind_broadcast?_eq_some_iff {d : List Nat} :
    (broadcast? a b).bind (broadcast? · c) = some d ↔ IsLeastBound [a, b, c] d := by
  have hleast : ∀ {m e : List Nat}, IsLeastBound [a, b] m → IsLeastBound [m, c] e →
      IsLeastBound [a, b, c] e := by
    intro m e hm he
    have hme : BroadcastsTo m e := he.bound m (by simp)
    refine ⟨?_, fun r hr => ?_⟩
    · have ha : BroadcastsTo a e := (hm.bound a (by simp)).trans hme
      have hb : BroadcastsTo b e := (hm.bound b (by simp)).trans hme
      simp [ha, hb, he.bound c (by simp)]
    · have hmr : BroadcastsTo m r := hm.least r (by simp [hr a, hr b])
      exact he.least r (by simp [hmr, hr c])
  rw [Option.bind_eq_some_iff]
  simp only [broadcast?_eq_some_iff]
  constructor
  · intro h
    obtain ⟨m, hm, hd⟩ := h
    exact hleast hm hd
  · intro h
    obtain ⟨m, hm⟩ := exists_broadcast? (h.bound a (by simp)) (h.bound b (by simp))
    have hm := broadcast?_eq_some_iff.mp hm
    have hmd : BroadcastsTo m d := hm.least d (by simp [h.bound a, h.bound b])
    obtain ⟨e, he⟩ := exists_broadcast? hmd (h.bound c (by simp))
    have he := broadcast?_eq_some_iff.mp he
    exact ⟨m, hm, (hleast hm he).unique h ▸ he⟩

/-! ## The laws -/

theorem broadcast?_comm (a b : List Nat) : broadcast? a b = broadcast? b a := by
  apply Option.ext
  intro c
  rw [broadcast?_eq_some_iff, broadcast?_eq_some_iff]
  exact isLeastBound_congr fun x => by simp [or_comm]

theorem broadcast?_assoc (a b c : List Nat) :
    (broadcast? a b).bind (broadcast? · c) = (broadcast? b c).bind (broadcast? a ·) := by
  have hturn : (broadcast? a ·) = (broadcast? · a) := funext (broadcast?_comm a)
  apply Option.ext
  intro d
  rw [hturn, bind_broadcast?_eq_some_iff, bind_broadcast?_eq_some_iff]
  exact isLeastBound_congr fun x => by simp [or_comm, or_left_comm]

theorem broadcast?_self (a : List Nat) : broadcast? a a = some a :=
  broadcast?_eq_some_iff.mpr
    (isLeastBound_pair.mpr ⟨broadcastsTo_refl a, broadcastsTo_refl a, fun _ h _ => h⟩)

/-- Two shapes have a common shape if they broadcast to one at all, and it is then the least of these. So
shapes can be broadcast in any order and grouping, with a failure wherever it comes up, a shape and itself
give the shape, and a scalar changes nothing. -/
theorem broadcast?_outcome (a b : List Nat) :
    ((∃ c, broadcast? a b = some c) ↔ ∃ r, BroadcastsTo a r ∧ BroadcastsTo b r) ∧
    (∀ c, broadcast? a b = some c ↔ BroadcastsTo a c ∧ BroadcastsTo b c ∧
      ∀ r, BroadcastsTo a r → BroadcastsTo b r → BroadcastsTo c r) ∧
    broadcast? a b = broadcast? b a ∧ broadcast? a a = some a ∧
    broadcast? [] a = some a ∧ broadcast? a [] = some a ∧
    ∀ c, (broadcast? a b).bind (broadcast? · c) = (broadcast? b c).bind (broadcast? a ·) := by
  refine ⟨?_, fun c => broadcast?_eq_some_iff.trans isLeastBound_pair, broadcast?_comm a b,
    broadcast?_self a, broadcast?_nil_left a, broadcast?_nil_right a, broadcast?_assoc a b⟩
  constructor
  · intro h
    obtain ⟨c, hc⟩ := h
    obtain ⟨ha, hb, -⟩ := broadcast?_isLeast hc
    exact ⟨c, ha, hb⟩
  · intro h
    obtain ⟨r, ha, hb⟩ := h
    exact exists_broadcast? ha hb

/-- Axes of size one are stretched on either side, to size zero as well; two and zero have nothing in
common. -/
example : broadcast? [4, 1, 1] [0, 5] = some [4, 0, 5] ∧ broadcast? [2, 5] [0, 1] = none := by decide

end Dataflow.Shape
