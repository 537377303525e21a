import Dataflow.DenseArray
import Mathlib.Data.List.Forall2

/- Two shapes broadcast to the least shape that both broadcast to (`broadcast?_isLeast`), and an
   array combined with another holds at every index what the function gives on the elements that
   the operands show there. Neither is said by how arrays are repeated: an operand is asked at
   the index as it sees it, and `getElem?_stretch` tells what the repeated data holds there.

   `IsBroadcast` is the specification of combining two arrays. It leaves one array at most
   (`IsBroadcast.unique`), which is what `zipBroadcast?` gives as long as the common shape can be
   laid out and its elements can be allocated (`zipBroadcast?_isBroadcast`,
   `exists_zipBroadcast?`). Where they cannot be allocated it overruns, and nowhere else
   (`zipBroadcast?_eq_error`). -/

namespace Dataflow

namespace Shape

/-! ## The least common shape -/

theorem broadcastsInner_antisymm : ∀ {as rs : List Nat}, BroadcastsInner as rs →
    BroadcastsInner rs as → as = rs
  | [], [], _, _ => rfl
  | a :: as, r :: rs, h, h' => by
    have ha := h.1
    have hr := h'.1
    rw [show a = r by omega, broadcastsInner_antisymm h.2 h'.2]

theorem broadcastsInner_refl : ∀ as : List Nat, BroadcastsInner as as
  | [] => trivial
  | _ :: as => ⟨.inl rfl, broadcastsInner_refl as⟩

theorem BroadcastsTo.antisymm {a r : List Nat} (h : BroadcastsTo a r) (h' : BroadcastsTo r a) :
    a = r := List.reverse_inj.mp (broadcastsInner_antisymm h h')

theorem broadcastAxis_isLeast {a b c : Nat} (h : broadcastAxis a b = some c) :
    (a = c ∨ a = 1) ∧ (b = c ∨ b = 1) ∧
      ∀ r, (a = r ∨ a = 1) → (b = r ∨ b = 1) → c = r ∨ c = 1 := by
  unfold broadcastAxis at h
  split at h
  · rename_i hab
    cases h
    exact ⟨.inl rfl, .inl hab.symm, fun _ hr _ => hr⟩
  · split at h
    · rename_i ha
      cases h
      exact ⟨.inr ha, .inl rfl, fun _ _ hr => hr⟩
    · split at h
      · rename_i hb
        cases h
        exact ⟨.inl rfl, .inr hb, fun _ hr _ => hr⟩
      · cases h

theorem broadcastInner_isLeast : ∀ {as bs cs : List Nat}, broadcastInner as bs = some cs →
    BroadcastsInner as cs ∧ BroadcastsInner bs cs ∧
      ∀ rs, BroadcastsInner as rs → BroadcastsInner bs rs → BroadcastsInner cs rs
  | [], bs, cs, h => by
    rw [broadcastInner, Option.some.injEq] at h
    subst h
    exact ⟨trivial, broadcastsInner_refl bs, fun _ _ hr => hr⟩
  | a :: as, [], cs, h => by
    rw [broadcastInner_nil_right, Option.some.injEq] at h
    subst h
    exact ⟨broadcastsInner_refl _, trivial, fun _ hr _ => hr⟩
  | a :: as, b :: bs, cs, h => by
    rw [broadcastInner] at h
    split at h
    · rename_i c cs' hx hi
      cases h
      obtain ⟨ha, hb, hl⟩ := broadcastAxis_isLeast hx
      obtain ⟨has, hbs, hls⟩ := broadcastInner_isLeast hi
      refine ⟨⟨ha, has⟩, ⟨hb, hbs⟩, ?_⟩
      intro rs hra hrb
      cases rs with
      | nil => exact hra.elim
      | cons r rs => exact ⟨hl r hra.1 hrb.1, hls rs hra.2 hrb.2⟩
    · cases h

/-- The common shape of two shapes is the least that both broadcast to. -/
theorem broadcast?_isLeast {a b c : List Nat} (h : broadcast? a b = some c) :
    BroadcastsTo a c ∧ BroadcastsTo b c ∧
      ∀ r, BroadcastsTo a r → BroadcastsTo b r → BroadcastsTo c r := by
  obtain ⟨cs, hi, rfl⟩ := Option.map_eq_some_iff.mp h
  obtain ⟨ha, hb, hl⟩ := broadcastInner_isLeast hi
  refine ⟨?_, ?_, fun r hra hrb => ?_⟩
  · show BroadcastsInner a.reverse cs.reverse.reverse
    rw [List.reverse_reverse]
    exact ha
  · show BroadcastsInner b.reverse cs.reverse.reverse
    rw [List.reverse_reverse]
    exact hb
  · show BroadcastsInner cs.reverse.reverse r.reverse
    rw [List.reverse_reverse]
    exact hl r.reverse hra hrb

/-! ## Alignment -/

def padded (shape : List Nat) (rank : Nat) : List Nat :=
  List.replicate (rank - shape.length) 1 ++ shape

theorem volume_padded (shape : List Nat) (rank : Nat) :
    volume (padded shape rank) = volume shape := by
  unfold padded
  induction rank - shape.length with
  | zero => rfl
  | succ k ih => rw [List.replicate_succ, List.cons_append, volume_cons, Nat.one_mul, ih]

/-- What broadcasting asks of one axis. -/
def Fits (s t : Nat) : Prop := s = t ∨ s = 1

theorem broadcastsInner_forall₂ : ∀ {as rs : List Nat}, BroadcastsInner as rs →
    List.Forall₂ Fits (as ++ List.replicate (rs.length - as.length) 1) rs
  | [], [], _ => .nil
  | [], r :: rs, _ => by
    have ht := broadcastsInner_forall₂ (show BroadcastsInner [] rs from trivial)
    exact .cons (.inr rfl) ht
  | a :: as, r :: rs, h => by
    have ht := broadcastsInner_forall₂ h.2
    rw [List.length_cons, List.length_cons, Nat.add_sub_add_right, List.cons_append]
    exact .cons h.1 ht

theorem BroadcastsTo.fits {a r : List Nat} (h : BroadcastsTo a r) :
    List.Forall₂ Fits (padded a r.length) r := by
  have hf := List.forall₂_reverse_iff.mpr (broadcastsInner_forall₂ h)
  rw [List.reverse_append, List.reverse_replicate, List.reverse_reverse, List.reverse_reverse,
    List.length_reverse, List.length_reverse] at hf
  exact hf

end Shape

namespace DenseArray

open Shape (volume)

variable {α β γ : Type}

/-! ## Rows of one length -/

theorem length_flatten_of_length {m : Nat} : ∀ {rows : List (List α)},
    (∀ row ∈ rows, row.length = m) → rows.flatten.length = rows.length * m
  | [], _ => by simp
  | row :: rows, h => by
    have ht := length_flatten_of_length fun r hr => h r (List.mem_cons_of_mem row hr)
    rw [List.flatten_cons, List.length_append, h row List.mem_cons_self, ht, List.length_cons,
      Nat.succ_mul]
    omega

/-- Where rows are equally long, an element stands in the row and at the place that its position
gives. -/
theorem getElem?_flatten_of_length {m j : Nat} (hj : j < m) : ∀ {rows : List (List α)} {i : Nat},
    (∀ row ∈ rows, row.length = m) →
      rows.flatten[i * m + j]? = rows[i]?.bind fun row => row[j]?
  | [], i, _ => by simp
  | row :: rows, 0, h => by
    have hl : row.length = m := h row List.mem_cons_self
    rw [List.flatten_cons, Nat.zero_mul, Nat.zero_add, List.getElem?_append_left (by omega)]
    rfl
  | row :: rows, i + 1, h => by
    have hl : row.length = m := h row List.mem_cons_self
    have ht := getElem?_flatten_of_length hj (i := i)
      fun r hr => h r (List.mem_cons_of_mem row hr)
    rw [List.flatten_cons, Nat.succ_mul, List.getElem?_append_right (by omega),
      show i * m + m + j - row.length = i * m + j by omega, ht, List.getElem?_cons_succ]

/-! ## Stretching -/

/-- The index of a stretched shape, as the shape it was stretched from sees it. -/
def narrow (source index : List Nat) : List Nat :=
  List.zipWith (fun d i => if d = 1 then 0 else i) source index

theorem offset_lt : ∀ {shape index : List Nat}, InBounds shape index →
    offset shape index < volume shape
  | [], [], _ => Nat.one_pos
  | d :: ds, i :: is, h => by
    have ht := offset_lt h.2
    have hm : (i + 1) * volume ds ≤ d * volume ds := Nat.mul_le_mul_right _ h.1
    rw [offset, Shape.volume_cons]
    rw [Nat.succ_mul] at hm
    omega

theorem inBounds_narrow : ∀ {source target index : List Nat},
    List.Forall₂ Shape.Fits source target → InBounds target index →
      InBounds source (narrow source index)
  | [], [], [], .nil, _ => trivial
  | [], [], _ :: _, .nil, h => h.elim
  | _ :: _, _ :: _, [], .cons _ _, h => h.elim
  | s :: ss, t :: ts, i :: is, .cons hs hf, h => by
    refine ⟨?_, inBounds_narrow hf h.2⟩
    have hi := h.1
    show (if s = 1 then 0 else i) < s
    rcases hs with rfl | rfl
    · split <;> omega
    · rw [if_pos rfl]
      exact Nat.one_pos

def chunk (data : List α) (size i : Nat) : List α := (data.drop (i * size)).take size

theorem length_chunk {data : List α} {d size i : Nat} (hd : data.length = d * size) (hi : i < d) :
    (chunk data size i).length = size := by
  have hm : (i + 1) * size ≤ d * size := Nat.mul_le_mul_right _ hi
  rw [Nat.succ_mul] at hm
  rw [chunk, List.length_take, List.length_drop, hd]
  omega

theorem getElem?_chunk {data : List α} {size i j : Nat} (hj : j < size) :
    (chunk data size i)[j]? = data[i * size + j]? := by
  rw [chunk, List.getElem?_take_of_lt hj, List.getElem?_drop]

def rows (s : Nat) (ss ts : List Nat) (data : List α) : List (List α) :=
  (List.range s).map fun i => stretch ss ts (chunk data (volume ss) i)

theorem stretch_cons (s t : Nat) (ss ts : List Nat) (data : List α) :
    stretch (s :: ss) (t :: ts) data =
      if s = t then (rows s ss ts data).flatten
      else (List.replicate t (rows s ss ts data).flatten).flatten := rfl

section Rows

variable {s t : Nat} {ss ts : List Nat} {data : List α}

theorem length_of_mem_rows (hd : data.length = s * volume ss)
    (hlen : ∀ {d : List α}, d.length = volume ss → (stretch ss ts d).length = volume ts) :
    ∀ row ∈ rows s ss ts data, row.length = volume ts := by
  intro row hr
  obtain ⟨i, hi, rfl⟩ := List.mem_map.mp hr
  exact hlen (length_chunk hd (List.mem_range.mp hi))

theorem length_flatten_rows (hrow : ∀ row ∈ rows s ss ts data, row.length = volume ts) :
    (rows s ss ts data).flatten.length = s * volume ts := by
  rw [length_flatten_of_length hrow, rows, List.length_map, List.length_range]

end Rows

theorem length_stretch : ∀ {source target : List Nat} {data : List α},
    List.Forall₂ Shape.Fits source target → data.length = volume source →
      (stretch source target data).length = volume target
  | [], _, _, .nil, hd => hd
  | s :: ss, t :: ts, data, .cons hs hf, hd => by
    have hlen := length_flatten_rows (length_of_mem_rows hd (length_stretch hf))
    rw [stretch_cons, Shape.volume_cons]
    by_cases hst : s = t
    · rw [if_pos hst, hlen, hst]
    · have hs1 : s = 1 := hs.resolve_left hst
      rw [if_neg hst, length_flatten_of_length (m := volume ts), List.length_replicate]
      intro row hr
      rw [List.eq_of_mem_replicate hr, hlen, hs1, Nat.one_mul]

theorem getElem?_stretch : ∀ {source target index : List Nat} {data : List α},
    List.Forall₂ Shape.Fits source target → data.length = volume source → InBounds target index →
      (stretch source target data)[offset target index]? =
        data[offset source (narrow source index)]?
  | [], [], [], _, .nil, _, _ => rfl
  | [], [], _ :: _, _, .nil, _, h => h.elim
  | _ :: _, _ :: _, [], _, .cons _ _, _, h => h.elim
  | s :: ss, t :: ts, i :: is, data, .cons hs hf, hd, h => by
    have hrow := length_of_mem_rows hd (length_stretch hf)
    have hoff : offset ts is < volume ts := offset_lt h.2
    have hin : offset ss (narrow ss is) < volume ss := offset_lt (inBounds_narrow hf h.2)
    -- A row is asked where the inner index stands, and answers by the induction hypothesis.
    have hask : ∀ k, k < s → (rows s ss ts data).flatten[k * volume ts + offset ts is]? =
        data[k * volume ss + offset ss (narrow ss is)]? := by
      intro k hk
      rw [getElem?_flatten_of_length hoff hrow, rows, List.getElem?_map, List.getElem?_range hk,
        Option.map_some, Option.bind_some, getElem?_stretch hf (length_chunk hd hk) h.2,
        getElem?_chunk hin]
    have hi : i < t := h.1
    show (stretch (s :: ss) (t :: ts) data)[i * volume ts + offset ts is]? =
      data[(if s = 1 then 0 else i) * volume ss + offset ss (narrow ss is)]?
    rw [stretch_cons]
    by_cases hst : s = t
    · rw [if_pos hst, hask i (by omega)]
      by_cases hs1 : s = 1
      · rw [if_pos hs1, show i = 0 by omega]
      · rw [if_neg hs1]
    · -- The only row is repeated, and every repetition answers as it does.
      have hs1 : s = 1 := hs.resolve_left hst
      have hall : ∀ row ∈ List.replicate t (rows s ss ts data).flatten, row.length = volume ts := by
        intro row hr
        rw [List.eq_of_mem_replicate hr, length_flatten_rows hrow, hs1, Nat.one_mul]
      rw [if_neg hst, if_pos hs1, ← hask 0 (by omega), getElem?_flatten_of_length hoff hall,
        List.getElem?_replicate, if_pos hi, Option.bind_some, Nat.zero_mul, Nat.zero_add]

/-! ## Padding -/

/-- The axes that were added play no part in where an element stands. -/
theorem offset_padded (shape : List Nat) : ∀ {k : Nat} {index : List Nat}, k ≤ index.length →
    offset (List.replicate k 1 ++ shape) (narrow (List.replicate k 1 ++ shape) index) =
      offset shape (narrow shape (index.drop k))
  | 0, _, _ => rfl
  | k + 1, [], h => absurd h (Nat.not_succ_le_zero k)
  | k + 1, i :: is, h => by
    have ht := offset_padded shape (Nat.le_of_succ_le_succ h)
    rw [List.replicate_succ, List.cons_append, List.drop_succ_cons, ← ht]
    show 0 * _ + _ = _
    rw [Nat.zero_mul, Nat.zero_add]
    rfl

theorem inBounds_length : ∀ {shape index : List Nat}, InBounds shape index →
    index.length = shape.length
  | [], [], _ => rfl
  | _ :: _, _ :: _, h => congrArg (· + 1) (inBounds_length h.2)

section Stretched

variable {a : DenseArray α} {target index : List Nat}

theorem length_stretched (h : Shape.BroadcastsTo a.shape target) :
    (a.stretched target).length = volume target :=
  length_stretch h.fits (a.length_data.trans (Shape.volume_padded _ _).symm)

/-- A stretched array holds at an index the element that the array shows there. -/
theorem getElem?_stretched (h : Shape.BroadcastsTo a.shape target) (hi : InBounds target index) :
    (a.stretched target)[offset target index]? = a.get? (project a.shape index) := by
  have hl : index.length = target.length := inBounds_length hi
  have hd : a.data.length = volume (Shape.padded a.shape target.length) :=
    a.length_data.trans (Shape.volume_padded _ _).symm
  calc (a.stretched target)[offset target index]?
      = a.data[offset (Shape.padded a.shape target.length)
          (narrow (Shape.padded a.shape target.length) index)]? := getElem?_stretch h.fits hd hi
    _ = a.data[offset a.shape (narrow a.shape (index.drop (target.length - a.shape.length)))]? := by
      rw [Shape.padded, offset_padded a.shape (by omega)]
    _ = a.get? (project a.shape index) := by
      rw [get?, project, hl]
      rfl

end Stretched

/-! ## Combining arrays -/

/-- `c` is `a` and `b` combined element by element after broadcasting: its shape is the least that
both broadcast to, and each of its elements is that of the elements the operands show there. -/
structure IsBroadcast (f : α → β → γ) (a : DenseArray α) (b : DenseArray β)
    (c : DenseArray γ) : Prop where
  left : Shape.BroadcastsTo a.shape c.shape
  right : Shape.BroadcastsTo b.shape c.shape
  least : ∀ r, Shape.BroadcastsTo a.shape r → Shape.BroadcastsTo b.shape r →
    Shape.BroadcastsTo c.shape r
  element : ∀ index, InBounds c.shape index → ∃ x y, a.get? (project a.shape index) = some x ∧
    b.get? (project b.shape index) = some y ∧ c.get? index = some (f x y)

theorem exists_offset : ∀ {shape : List Nat} {k : Nat}, k < volume shape →
    ∃ index, InBounds shape index ∧ offset shape index = k
  | [], k, h => by
    refine ⟨[], trivial, ?_⟩
    have hk : k < 1 := h
    show 0 = k
    omega
  | d :: ds, k, h => by
    rw [Shape.volume_cons] at h
    have hpos : 0 < volume ds := Nat.pos_of_mul_pos_left (Nat.zero_lt_of_lt h)
    obtain ⟨is, hi, ho⟩ := exists_offset (Nat.mod_lt k hpos)
    refine ⟨k / volume ds :: is, ⟨Nat.div_lt_of_lt_mul (Nat.mul_comm d _ ▸ h), hi⟩, ?_⟩
    show k / volume ds * volume ds + offset ds is = k
    rw [ho]
    exact Nat.div_add_mod' k (volume ds)

theorem eq_of_get? {a b : DenseArray α} (hs : a.shape = b.shape)
    (hget : ∀ index, InBounds a.shape index → a.get? index = b.get? index) : a = b := by
  have hd : a.data = b.data := by
    apply List.ext_getElem?
    intro k
    by_cases hk : k < volume a.shape
    · obtain ⟨index, hi, rfl⟩ := exists_offset hk
      have h := hget index hi
      unfold get? at h
      rw [← hs] at h
      exact h
    · rw [List.getElem?_eq_none, List.getElem?_eq_none]
      · rw [b.length_data, ← hs]
        omega
      · rw [a.length_data]
        omega
  exact eq_of_data hs hd

theorem IsBroadcast.unique {f : α → β → γ} {a : DenseArray α} {b : DenseArray β}
    {c c' : DenseArray γ} (h : IsBroadcast f a b c) (h' : IsBroadcast f a b c') : c = c' := by
  have hs : c.shape = c'.shape :=
    (h.least _ h'.left h'.right).antisymm (h'.least _ h.left h.right)
  apply eq_of_get? hs
  intro index hi
  obtain ⟨x, y, hx, hy, hc⟩ := h.element index hi
  obtain ⟨x', y', hx', hy', hc'⟩ := h'.element index (hs ▸ hi)
  cases hx.symm.trans hx'
  cases hy.symm.trans hy'
  rw [hc, hc']

theorem exists_getElem?_stretched {a : DenseArray α} {target index : List Nat}
    (h : Shape.BroadcastsTo a.shape target) (hi : InBounds target index) :
    ∃ x, (a.stretched target)[offset target index]? = some x := by
  have hlt : offset target index < (a.stretched target).length := by
    rw [length_stretched h]
    exact offset_lt hi
  exact ⟨_, List.getElem?_eq_getElem hlt⟩

section Combined

variable {width : Nat} {f : α → β → γ} {a : DenseArray α} {b : DenseArray β} {c : DenseArray γ}
  {shape : List Nat}

theorem zipBroadcast?_of_broadcast? (hs : Shape.broadcast? a.shape b.shape = some shape) :
    ∃ c : DenseArray γ, c.shape = shape ∧
      c.data = List.zipWith f (a.stretched shape) (b.stretched shape) ∧
      zipBroadcast? width f a b =
        if Shape.fitsLayout shape = true then
          if Shape.fitsBytes width shape = true then .ok (some c) else .error (.overrun .bytes)
        else .ok none := by
  obtain ⟨hl, hr, -⟩ := Shape.broadcast?_isLeast hs
  have hlen : (List.zipWith f (a.stretched shape) (b.stretched shape)).length = volume shape := by
    rw [List.length_zipWith, length_stretched hl, length_stretched hr, Nat.min_self]
  refine ⟨⟨shape, _, hlen⟩, rfl, rfl, ?_⟩
  simp only [zipBroadcast?, hs, ofData?, hlen, dite_true]

theorem broadcast?_of_zipBroadcast? (h : zipBroadcast? width f a b = .ok (some c)) :
    Shape.broadcast? a.shape b.shape = some c.shape := by
  cases hs : Shape.broadcast? a.shape b.shape with
  | none =>
    simp only [zipBroadcast?, hs] at h
    cases h
  | some shape =>
    obtain ⟨d, hd, -, he⟩ := @zipBroadcast?_of_broadcast? α β γ width f a b shape hs
    rw [he] at h
    split at h
    · split at h <;> cases h
      rw [hd]
    · cases h

/-- Combining two arrays gives them combined element by element after broadcasting, in a shape that
can be laid out and whose elements can be allocated. -/
theorem zipBroadcast?_isBroadcast (h : zipBroadcast? width f a b = .ok (some c)) :
    IsBroadcast f a b c ∧ Shape.fitsLayout c.shape = true ∧ Shape.fitsBytes width c.shape = true := by
  have hs := broadcast?_of_zipBroadcast? h
  obtain ⟨hl, hr, hleast⟩ := Shape.broadcast?_isLeast hs
  obtain ⟨d, -, hdata, he⟩ := @zipBroadcast?_of_broadcast? α β γ width f a b _ hs
  rw [he] at h
  split at h
  · rename_i hfit
    split at h <;> cases h
    rename_i hbytes
    refine ⟨⟨hl, hr, hleast, ?_⟩, hfit, hbytes⟩
    intro index hi
    obtain ⟨x, hx⟩ := exists_getElem?_stretched hl hi
    obtain ⟨y, hy⟩ := exists_getElem?_stretched hr hi
    refine ⟨x, y, ?_, ?_, ?_⟩
    · rw [← getElem?_stretched hl hi, hx]
    · rw [← getElem?_stretched hr hi, hy]
    · rw [get?, hdata, List.getElem?_zipWith, hx, hy]
  · cases h

theorem exists_zipBroadcast? (hs : Shape.broadcast? a.shape b.shape = some shape)
    (hf : Shape.fitsLayout shape = true) (hb : Shape.fitsBytes width shape = true) :
    ∃ c, zipBroadcast? width f a b = .ok (some c) ∧ c.shape = shape := by
  obtain ⟨c, hc, -, he⟩ := @zipBroadcast?_of_broadcast? α β γ width f a b shape hs
  exact ⟨c, by rw [he, if_pos hf, if_pos hb], hc⟩

/-- Combining two arrays overruns only where the common shape can be laid out and its elements cannot
be allocated. -/
theorem zipBroadcast?_eq_error {e : Error} : zipBroadcast? width f a b = .error e ↔
    e = .overrun .bytes ∧ ∃ shape, Shape.broadcast? a.shape b.shape = some shape ∧
      Shape.fitsLayout shape = true ∧ Shape.fitsBytes width shape = false := by
  cases hs : Shape.broadcast? a.shape b.shape with
  | none => simp [zipBroadcast?, hs]
  | some shape =>
    obtain ⟨d, -, -, he⟩ := @zipBroadcast?_of_broadcast? α β γ width f a b shape hs
    rw [he]
    cases hf : Shape.fitsLayout shape with
    | false => simp [hf]
    | true =>
      cases hb : Shape.fitsBytes width shape with
      | false => simpa [hf, hb] using eq_comm
      | true => simp [hb]

end Combined

end DenseArray
end Dataflow
