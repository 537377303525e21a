import Dataflow.Shape

/- The sizes of a shape are multiplied from the outermost axis inwards, and the product has to
   fit a word at every step. An axis of size zero makes the product zero, but only from there on:
   what stands before it is multiplied first (`checkedProduct_eq_some_iff`). So a shape without
   elements is refused if the axes before its first zero have too many, and the same sizes in
   another order are counted (`counted_iff`, `declaredCount_outcome`).

   A shape that can be laid out has none of these troubles: `count?_of_fitsLayout`. -/

namespace Dataflow.Shape

/-- The sizes before the first axis of size zero. -/
def leading (shape : List Nat) : List Nat := shape.takeWhile (· ≠ 0)

theorem leading_zero (ds : List Nat) : leading (0 :: ds) = [] := rfl

theorem leading_cons {d : Nat} (hd : d ≠ 0) (ds : List Nat) : leading (d :: ds) = d :: leading ds :=
  List.takeWhile_cons_of_pos (by simpa using hd)

theorem leading_append {a : List Nat} (h : 0 ∉ a) (b : List Nat) : leading (a ++ b) = a ++ leading b := by
  apply List.takeWhile_append_of_pos
  intro d hd
  have hne : d ≠ 0 := fun h0 => h (h0 ▸ hd)
  simpa using hne

theorem leading_eq_self {shape : List Nat} (h : 0 ∉ shape) : leading shape = shape := by
  have happend := leading_append h []
  rw [List.append_nil] at happend
  rw [happend]
  exact List.append_nil shape

theorem leading_of_zeros {shape : List Nat} (h : ∀ d ∈ shape, d = 0) : leading shape = [] := by
  cases shape with
  | nil => rfl
  | cons d ds => rw [h d List.mem_cons_self, leading_zero]

theorem zero_not_mem_leading (shape : List Nat) : 0 ∉ leading shape := by
  intro h
  simpa using List.all_eq_true.mp List.all_takeWhile 0 h

/-! ## Products of sizes -/

theorem volume_eq_zero : ∀ {shape : List Nat}, 0 ∈ shape → volume shape = 0
  | d :: ds, h => by
    rw [volume_cons]
    rcases List.mem_cons.mp h with rfl | h
    · exact Nat.zero_mul _
    · rw [volume_eq_zero h, Nat.mul_zero]

theorem volume_perm {a b : List Nat} (h : a.Perm b) : volume a = volume b := by
  induction h with
  | nil => rfl
  | cons d _ ih => rw [volume_cons, volume_cons, ih]
  | swap d e ds => simp only [volume_cons, Nat.mul_left_comm]
  | trans _ _ ih ih' => exact ih.trans ih'

theorem volume_pos : ∀ {shape : List Nat}, 0 ∉ shape → 0 < volume shape
  | [], _ => Nat.one_pos
  | d :: ds, h => by
    obtain ⟨hd, hds⟩ := List.ne_and_not_mem_of_not_mem_cons h
    exact Nat.mul_pos (Nat.pos_of_ne_zero hd.symm) (volume_pos hds)

theorem volume_filter_pos (shape : List Nat) : 0 < volume (shape.filter (· ≠ 0)) :=
  volume_pos (by simp)

theorem volume_leading_pos (shape : List Nat) : 0 < volume (leading shape) :=
  volume_pos (zero_not_mem_leading shape)

theorem volume_le_volume_filter : ∀ shape : List Nat, volume shape ≤ volume (shape.filter (· ≠ 0))
  | [] => Nat.le_refl _
  | d :: ds => by
    by_cases hd : d = 0
    · rw [hd, volume_cons, Nat.zero_mul]
      exact Nat.zero_le _
    · rw [List.filter_cons_of_pos (by simpa using hd), volume_cons, volume_cons]
      exact Nat.mul_le_mul_left d (volume_le_volume_filter ds)

theorem le_volume_filter : ∀ {shape : List Nat} {d : Nat}, d ∈ shape →
    d ≤ volume (shape.filter (· ≠ 0))
  | e :: es, d, hd => by
    by_cases he : e = 0
    · rw [List.filter_cons_of_neg (by simpa using he)]
      rcases List.mem_cons.mp hd with rfl | hd
      · omega
      · exact le_volume_filter hd
    · rw [List.filter_cons_of_pos (by simpa using he), volume_cons]
      rcases List.mem_cons.mp hd with rfl | hd
      · exact Nat.le_mul_of_pos_right _ (volume_filter_pos es)
      · exact Nat.le_trans (le_volume_filter hd) (Nat.le_mul_of_pos_left _ (Nat.pos_of_ne_zero he))

theorem volume_leading_le : ∀ shape : List Nat,
    volume (leading shape) ≤ volume (shape.filter (· ≠ 0))
  | [] => Nat.le_refl _
  | d :: ds => by
    by_cases hd : d = 0
    · rw [hd, leading_zero]
      exact volume_filter_pos _
    · rw [leading_cons hd, List.filter_cons_of_pos (by simpa using hd), volume_cons, volume_cons]
      exact Nat.mul_le_mul_left d (volume_leading_le ds)

/-! ## When a count is given -/

/-- The product of sizes is given if the one up to the first zero fits a word: from the zero on it cannot
grow any more, and before it no step makes it smaller. -/
theorem checkedProduct_eq_some_iff {acc n : Nat} {shape : List Nat} (h : acc < wordLimit) :
    checkedProduct acc shape = some n ↔
      n = acc * volume shape ∧ acc * volume (leading shape) < wordLimit := by
  induction shape generalizing acc with
  | nil => simp [checkedProduct, leading, volume, h, eq_comm]
  | cons d ds ih =>
    by_cases hd : d = 0
    · have hzero : checkedProduct acc (0 :: ds) = checkedProduct 0 ds := rfl
      have hword : 0 < wordLimit := by decide
      rw [hd, hzero, ih hword, leading_zero, volume_cons]
      simp [volume, h, hword]
    · rw [leading_cons hd, volume_cons, volume_cons, ← Nat.mul_assoc, ← Nat.mul_assoc, checkedProduct]
      by_cases hlt : acc * d < wordLimit
      · rw [if_pos hlt, ih hlt]
      · have hle : acc * d ≤ acc * d * volume (leading ds) :=
          Nat.le_mul_of_pos_right _ (volume_leading_pos ds)
        rw [if_neg hlt]
        simp
        omega

/-- A shape is counted if its elements can be addressed and the sizes before its first zero multiply to a
word. -/
theorem count?_eq_some_iff {shape : List Nat} {n : Nat} : count? shape = some n ↔
    n = volume shape ∧ n ≤ addressLimit ∧ volume (leading shape) < wordLimit := by
  rw [count?, Option.filter_eq_some_iff, checkedProduct_eq_some_iff (by decide), Nat.one_mul,
    Nat.one_mul, decide_eq_true_eq]
  exact ⟨fun h => ⟨h.1.1, h.2, h.1.2⟩, fun h => ⟨⟨h.1, h.2.2⟩, h.2.1⟩⟩

/-! ## Shapes that can be laid out -/

theorem fitsLayout_iff {shape : List Nat} :
    fitsLayout shape = true ↔ volume (shape.filter (· ≠ 0)) ≤ addressLimit := by
  simp [fitsLayout]

theorem count?_of_fitsLayout {shape : List Nat} (h : fitsLayout shape = true) :
    count? shape = some (volume shape) := by
  have hf := fitsLayout_iff.mp h
  have hle : volume shape ≤ addressLimit := Nat.le_trans (volume_le_volume_filter shape) hf
  have hlt : volume (leading shape) < wordLimit := by
    calc volume (leading shape) ≤ volume (shape.filter (· ≠ 0)) := volume_leading_le shape
      _ ≤ addressLimit := hf
      _ < wordLimit := by decide
  exact count?_eq_some_iff.mpr ⟨rfl, hle, hlt⟩

theorem count_of_fitsLayout {shape : List Nat} (h : fitsLayout shape = true) :
    count shape = .ok (volume shape) := by
  rw [count, count?_of_fitsLayout h]

/-! ## Declared dimensions -/

variable {dims ds : List Int64}

theorem declaredCount_eq_ok {n : Nat} :
    declaredCount dims = .ok n ↔ count? (clamp dims) = some n := by
  unfold declaredCount
  cases count? (clamp dims) <;> simp

/-- Declared dimensions are counted as they are to be: by the product of their sizes if it can be
addressed, and otherwise not at all. -/
def Counted (dims : List Int64) : Prop :=
  declaredCount dims = if volume (clamp dims) ≤ addressLimit then .ok (volume (clamp dims))
    else .error (.countOverflow (dims.map Int64.toInt))

/-- The only shapes counted wrongly are those with too many elements before the first zero. -/
theorem counted_iff :
    Counted dims ↔ (0 ∈ clamp dims → volume (leading (clamp dims)) < wordLimit) := by
  unfold Counted
  constructor
  · intro h hz
    rw [volume_eq_zero hz, if_pos (Nat.zero_le _), declaredCount_eq_ok, count?_eq_some_iff] at h
    exact h.2.2
  · intro h
    split
    · rename_i hle
      refine declaredCount_eq_ok.mpr (count?_eq_some_iff.mpr ⟨rfl, hle, ?_⟩)
      by_cases hz : 0 ∈ clamp dims
      · exact h hz
      · rw [leading_eq_self hz]
        unfold addressLimit at hle
        unfold wordLimit
        omega
    · rename_i hlt
      have hnone : count? (clamp dims) = none := by
        rw [Option.eq_none_iff_forall_ne_some]
        intro n hn
        obtain ⟨rfl, hle, -⟩ := count?_eq_some_iff.mp hn
        exact hlt hle
      rw [declaredCount, hnone]

/-! ## The order of the sizes -/

theorem clamp_perm (h : ds.Perm dims) : (clamp ds).Perm (clamp dims) := h.map _

/-- The dimensions with those that count as zero last. -/
def zerosLast (dims : List Int64) : List Int64 :=
  dims.filter (fun d => d.toInt.toNat ≠ 0) ++ dims.filter (fun d => !decide (d.toInt.toNat ≠ 0))

theorem zerosLast_perm (dims : List Int64) : (zerosLast dims).Perm dims :=
  List.filter_append_perm _ dims

theorem leading_zerosLast (dims : List Int64) :
    leading (clamp (zerosLast dims)) = (clamp dims).filter (· ≠ 0) := by
  have hsizes : clamp (dims.filter fun d => d.toInt.toNat ≠ 0) = (clamp dims).filter (· ≠ 0) := by
    rw [clamp, clamp, List.filter_map]
    rfl
  have hzeros : ∀ d ∈ clamp (dims.filter fun d => !decide (d.toInt.toNat ≠ 0)), d = 0 := by
    intro d hd
    obtain ⟨e, he, rfl⟩ := List.mem_map.mp hd
    simpa using (List.mem_filter.mp he).2
  calc leading (clamp (zerosLast dims))
      = leading ((clamp dims).filter (· ≠ 0) ++
          clamp (dims.filter fun d => !decide (d.toInt.toNat ≠ 0))) := by
        rw [← hsizes]
        exact congrArg leading List.map_append
    _ = (clamp dims).filter (· ≠ 0) := by
        rw [leading_append (by simp), leading_of_zeros hzeros, List.append_nil]

theorem exists_perm_counted (hz : 0 ∈ clamp dims) :
    ∃ ds, ds.Perm dims ∧ declaredCount ds = .ok 0 := by
  obtain ⟨d, hd, hd0⟩ := List.mem_map.mp hz
  have hp : (d :: dims.erase d).Perm dims := (List.perm_cons_erase hd).symm
  refine ⟨d :: dims.erase d, hp, declaredCount_eq_ok.mpr (count?_eq_some_iff.mpr ?_)⟩
  have hvolume : volume (clamp (d :: dims.erase d)) = 0 := by
    rw [volume_perm (clamp_perm hp), volume_eq_zero hz]
  have hleading : leading (clamp (d :: dims.erase d)) = [] := by
    show leading (d.toInt.toNat :: clamp (dims.erase d)) = []
    rw [hd0, leading_zero]
  rw [hvolume, hleading]
  exact ⟨rfl, Nat.zero_le _, by decide⟩

/-- The count is the same for all orders of the dimensions if the sizes other than zero multiply to a word,
or none of them is zero. -/
theorem declaredCount_perm_iff :
    (∀ ds, ds.Perm dims → ∀ n, declaredCount ds = .ok n ↔ declaredCount dims = .ok n) ↔
      (0 ∈ clamp dims → volume ((clamp dims).filter (· ≠ 0)) < wordLimit) := by
  constructor
  · intro h hz
    obtain ⟨ds, hp, hds⟩ := exists_perm_counted hz
    have hlast : declaredCount (zerosLast dims) = .ok 0 :=
      (h _ (zerosLast_perm dims) 0).mpr ((h ds hp 0).mp hds)
    have hlt := (count?_eq_some_iff.mp (declaredCount_eq_ok.mp hlast)).2.2
    rwa [leading_zerosLast] at hlt
  · intro h ds hp n
    have hcounted : ∀ es : List Int64, es.Perm dims → Counted es := by
      intro es hes
      refine counted_iff.mpr fun hz => ?_
      calc volume (leading (clamp es))
          ≤ volume ((clamp es).filter (· ≠ 0)) := volume_leading_le _
        _ = volume ((clamp dims).filter (· ≠ 0)) := volume_perm ((clamp_perm hes).filter _)
        _ < wordLimit := h ((clamp_perm hes).mem_iff.mp hz)
    rw [hcounted ds hp, hcounted dims (List.Perm.refl dims), volume_perm (clamp_perm hp)]
    split <;> simp

/-- The elements of declared dimensions are counted by the product of the sizes, unknown ones clamped to
zero, or refused because there are too many to address, exactly if the sizes before the first zero multiply
to a word or no size is zero. In any case the clamped sizes have the same count. The order of the
dimensions plays no part exactly if all sizes other than zero multiply to a word or no size is zero. -/
theorem declaredCount_outcome (dims : List Int64) :
    (Counted dims ↔ (0 ∈ clamp dims → volume (leading (clamp dims)) < wordLimit)) ∧
    (∀ n, declaredCount dims = .ok n ↔ count (clamp dims) = .ok n) ∧
    ((∀ ds, ds.Perm dims → ∀ n, declaredCount ds = .ok n ↔ declaredCount dims = .ok n) ↔
      (0 ∈ clamp dims → volume ((clamp dims).filter (· ≠ 0)) < wordLimit)) := by
  refine ⟨counted_iff, fun n => ?_, declaredCount_perm_iff⟩
  rw [declaredCount_eq_ok]
  unfold count
  cases count? (clamp dims) <;> simp

/-- A shape without elements is refused if its zero comes last, and counted if it comes first. -/
theorem declaredCount_zeroLast :
    volume (clamp [4611686018427387904, 4, 0]) = 0 ∧
      declaredCount [4611686018427387904, 4, 0] =
        .error (.countOverflow [4611686018427387904, 4, 0]) ∧
      ¬Counted [4611686018427387904, 4, 0] ∧ declaredCount [0, 4611686018427387904, 4] = .ok 0 := by
  refine ⟨by decide, rfl, ?_, rfl⟩
  rw [counted_iff]
  decide

end Dataflow.Shape
