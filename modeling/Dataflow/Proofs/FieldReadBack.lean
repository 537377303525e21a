import Dataflow.Wire.Graph

/- What is written is read by taking exactly the bytes that were written, whatever follows them.
   For a single payload this is a property of its reader, `Consumes`. For a message it is one of
   the steps that its reader repeats, `Folds`: field by field they lead from the empty message to
   the one that was written, where the fields that are left out change nothing. `Restores` says
   it for the fields of each kind.

   A length is written as a number of 64 bits, so that all of this is about messages that are
   shorter than that. -/

namespace Dataflow.Wire

variable {α β γ : Type}

/-! ## Readers that take what was written -/

/-- The reader takes these bytes from the front of any input, and gives `a`. -/
def Consumes (r : Reader α) (bytes : Bytes) (a : α) : Prop :=
  ∀ rest, r (Input.ofBytes (bytes ++ rest)) = .ok (a, Input.ofBytes rest)

theorem consumes_pure (a : α) : Consumes (pure a) [] a := fun _ => rfl

theorem Consumes.bind {r : Reader α} {f : α → Reader β} {bytes bytes' : Bytes} {a : α} {b : β}
    (hr : Consumes r bytes a) (hf : Consumes (f a) bytes' b) :
    Consumes (r >>= f) (bytes ++ bytes') b := by
  intro rest
  show (r (Input.ofBytes (bytes ++ bytes' ++ rest)) >>= fun p => f p.1 p.2) = _
  rw [List.append_assoc, hr]
  exact hf rest

theorem Consumes.map {r : Reader α} {bytes : Bytes} {a : α} (hr : Consumes r bytes a)
    (f : α → β) : Consumes (do return f (← r)) bytes (f a) := by
  have := hr.bind (f := fun a => pure (f a)) (consumes_pure (f a))
  rwa [List.append_nil] at this

theorem Consumes.within {r : Reader α} {bytes : Bytes} {a : α} (hr : Consumes r bytes a)
    (message field : String) : Consumes (within message field r) bytes a := by
  intro rest
  rw [Wire.within, hr]
  rfl

theorem consumes_expect {want : WireType} {key : Key} (hk : key.layout = want) :
    Consumes (liftM (expect want key)) [] () := by
  intro rest
  rw [expect, if_pos hk]
  rfl

theorem Consumes.after_expect {r : Reader α} {bytes : Bytes} {a : α} {want : WireType} {key : Key}
    (hr : Consumes r bytes a) (hk : key.layout = want) :
    Consumes (do expect want key; r) bytes a := by
  have := (consumes_expect hk).bind (f := fun _ => r) hr
  rwa [List.nil_append] at this

def lengthLimit : Nat := 18446744073709551616

theorem consumes_readVarint {n : Nat} (hn : n < lengthLimit) :
    Consumes readVarint (writeVarint n) n := readVarint_writeVarint hn

theorem consumes_readKey {k : Key} (hpos : 0 < k.tag) (hlt : k.tag < 536870912) :
    Consumes readKey (writeKey k) k := readKey_writeKey hpos hlt

theorem consumes_take (payload : Bytes) : Consumes (take payload.length) payload payload :=
  take_append payload

theorem consumes_readBytes {key : Key} {b : Bytes} (hk : key.layout = .delimited)
    (hb : b.length < lengthLimit) : Consumes (readBytes key) (withLength b) b :=
  ((consumes_readVarint hb).bind (consumes_take b)).after_expect hk

theorem consumes_readText {key : Key} {s : String} (hk : key.layout = .delimited)
    (hs : (Bytes.ofText s).length < lengthLimit) :
    Consumes (readText key) (withLength (Bytes.ofText s)) s := by
  rw [readText, ← List.append_nil (withLength _)]
  refine (consumes_readBytes hk hs).bind ?_
  rw [Bytes.toText?_ofText]
  exact consumes_pure s

/-! ## Steps that take what was written -/

/-- Repeated steps that take these bytes, whole, lead from one value to another. -/
inductive Folds (step : α → Reader α) : Bytes → α → α → Prop where
  | nil (a : α) : Folds step [] a a
  | cons {bytes rest : Bytes} {a b c : α} :
    bytes ≠ [] → Consumes (step a) bytes b → Folds step rest b c → Folds step (bytes ++ rest) a c

section Folds

variable {step : α → Reader α} {bytes bytes' : Bytes} {a b c : α}

theorem Folds.append (hf : Folds step bytes a b) (hf' : Folds step bytes' b c) :
    Folds step (bytes ++ bytes') a c := by
  induction hf with
  | nil a => exact hf'
  | cons hne hs _ ih =>
    rw [List.append_assoc]
    exact .cons hne hs (ih hf')

theorem folds_one (hne : bytes ≠ []) (hs : Consumes (step a) bytes b) : Folds step bytes a b := by
  have := Folds.cons hne hs (.nil b)
  rwa [List.append_nil] at this

/-- Where a step is repeated on an input, by what is left of it. -/
theorem repeatDown_succ (step : α → Reader α) (limit fuel : Nat) (a : α) (i : Input) :
    repeatDown step limit (fuel + 1) a i =
      if limit < i.size then (step a >>= repeatDown step limit fuel) i
      else if i.size = limit then .ok (a, i) else fail .lengthExceeded := by
  show (if limit < i.size then step a >>= repeatDown step limit fuel
    else if i.size = limit then pure a else fail .lengthExceeded : Reader α) i = _
  split
  · rfl
  · split <;> rfl

theorem repeatDown_done (step : α → Reader α) (fuel : Nat) (a : α) (tail : Bytes) :
    repeatDown step tail.length fuel a (Input.ofBytes tail) = .ok (a, Input.ofBytes tail) := by
  cases fuel with
  | zero =>
    show (if tail.length = tail.length then pure a else fail .lengthExceeded : Reader α) _ = _
    rw [if_pos rfl]
    rfl
  | succ fuel =>
    rw [repeatDown_succ, Input.size_ofBytes, if_neg (Nat.lt_irrefl _), if_pos rfl]

/-- Repeating steps until so many bytes are left takes the bytes before them. -/
theorem Folds.repeatDown (hf : Folds step bytes a c) (tail : Bytes) : ∀ {fuel : Nat},
    bytes.length ≤ fuel → repeatDown step tail.length fuel a (Input.ofBytes (bytes ++ tail)) =
      .ok (c, Input.ofBytes tail) := by
  induction hf with
  | nil a =>
    intro fuel _
    exact repeatDown_done step fuel a tail
  | @cons bytes rest a b c hne hs _ ih =>
    intro fuel hfuel
    have hpos : 0 < bytes.length := List.length_pos_iff.mpr hne
    rw [List.length_append] at hfuel
    -- A step takes at least one byte, so the fuel lasts as long as there are bytes.
    cases fuel with
    | zero => omega
    | succ fuel =>
      have hlt : tail.length < (Input.ofBytes (bytes ++ rest ++ tail)).size := by
        simp only [Input.size_ofBytes, List.length_append]
        omega
      rw [repeatDown_succ, if_pos hlt, List.append_assoc]
      show (step a _ >>= fun p => Wire.repeatDown step tail.length fuel p.1 p.2) = _
      rw [hs]
      exact ih (by omega)

theorem Folds.readDelimited (hf : Folds step bytes a c) (hb : bytes.length < lengthLimit) :
    Consumes (readDelimited step a) (withLength bytes) c := by
  refine (consumes_readVarint hb).bind fun rest => ?_
  have hsize : (Input.ofBytes (bytes ++ rest)).size = bytes.length + rest.length := by
    rw [Input.size_ofBytes, List.length_append]
  have hle : ¬(Input.ofBytes (bytes ++ rest)).size < bytes.length := by omega
  have hleft : (Input.ofBytes (bytes ++ rest)).size - bytes.length = rest.length := by omega
  show (if (Input.ofBytes (bytes ++ rest)).size < bytes.length then fail .underflow
    else Wire.repeatDown step ((Input.ofBytes (bytes ++ rest)).size - bytes.length)
      (Input.ofBytes (bytes ++ rest)).size a : Reader α) _ = _
  rw [if_neg hle, hleft]
  exact hf.repeatDown rest (by omega)

end Folds

/-! ## Fields of a message -/

/-- Reading one field into what has been read of a message so far. -/
def fieldStep (field : FieldReader α) (budget : Nat) (a : α) : Reader α := do
  let key ← readKey
  field budget key a

/-- The fields lead from one message to another, unless they are too long to be written. -/
def Restores (field : FieldReader α) (budget : Nat) (bytes : Bytes) (a b : α) : Prop :=
  bytes.length < lengthLimit → Folds (fieldStep field budget) bytes a b

section Fields

variable {field : FieldReader α} {budget tag : Nat} {bytes bytes' : Bytes} {a b c : α}

theorem restores_nil (a : α) : Restores field budget [] a a := fun _ => .nil a

theorem Restores.append (hr : Restores field budget bytes a b)
    (hr' : Restores field budget bytes' b c) : Restores field budget (bytes ++ bytes') a c := by
  intro hlen
  rw [List.length_append] at hlen
  exact (hr (by omega)).append (hr' (by omega))

theorem readMessage_restored {key : Key} (hk : key.layout = .delimited)
    (hr : Restores field budget bytes a b) (hlen : bytes.length < lengthLimit) :
    Consumes (readMessage field (budget + 1) key a) (withLength bytes) b :=
  ((hr hlen).readDelimited hlen).after_expect hk

theorem readWhole_restored (hr : Restores field nestingLimit bytes a b)
    (hlen : bytes.length < lengthLimit) : readWhole field a bytes = .ok b := by
  have := (hr hlen).repeatDown [] (Nat.le_refl bytes.length)
  rw [List.append_nil] at this
  show Prod.fst <$> Wire.repeatDown (fieldStep field nestingLimit) 0 bytes.length a
    (Input.ofBytes bytes) = _
  rw [show (0 : Nat) = ([] : Bytes).length from rfl, this]
  rfl

end Fields

/-! ## Numbers -/

structure Scalar.Lawful (s : Scalar α) : Prop where
  consumes : ∀ x, Consumes s.read (s.write x) x
  ne_nil : ∀ x, s.write x ≠ []

namespace Scalar

theorem writeVarint_ne_nil (n : Nat) : writeVarint n ≠ [] := by
  rw [writeVarint, varintBytes]
  split
  · exact List.cons_ne_nil _ _
  · exact List.cons_ne_nil _ _

theorem consumes_varint (of : Nat → α) {n : Nat} {x : α} (hn : n < lengthLimit) (hx : of n = x) :
    Consumes (do return of (← readVarint)) (writeVarint n) x :=
  hx ▸ (consumes_readVarint hn).map of

theorem unsigned64_lt (z : Int) : unsigned64 z < lengthLimit := by
  unfold unsigned64 lengthLimit
  omega

theorem ofInt_unsigned64_int32 (n : Int32) : Int32.ofInt (unsigned64 n.toInt : Int) = n := by
  have hlt := n.toInt_lt
  have hle := n.le_toInt
  apply Int32.toInt_inj.mp
  rw [Int32.toInt_ofInt, unsigned64]
  simp only [Int.bmod, Int32.size] at *
  omega

theorem ofInt_unsigned64_int64 (n : Int64) : Int64.ofInt (unsigned64 n.toInt : Int) = n := by
  have hlt := n.toInt_lt
  have hle := n.le_toInt
  apply Int64.toInt_inj.mp
  rw [Int64.toInt_ofInt, unsigned64]
  simp only [Int.bmod, Int64.size] at *
  omega

theorem int32_lawful : int32.Lawful where
  consumes n := consumes_varint (Int32.ofInt ·) (unsigned64_lt _) (ofInt_unsigned64_int32 n)
  ne_nil _ := writeVarint_ne_nil _

theorem int64_lawful : int64.Lawful where
  consumes n := consumes_varint (Int64.ofInt ·) (unsigned64_lt _) (ofInt_unsigned64_int64 n)
  ne_nil _ := writeVarint_ne_nil _

theorem uint32_lawful : uint32.Lawful where
  consumes n := by
    have hlt := n.toNat_lt
    exact consumes_varint UInt32.ofNat (by unfold lengthLimit; omega) UInt32.ofNat_toNat
  ne_nil _ := writeVarint_ne_nil _

theorem uint64_lawful : uint64.Lawful where
  consumes n := consumes_varint UInt64.ofNat n.toNat_lt UInt64.ofNat_toNat
  ne_nil _ := writeVarint_ne_nil _

theorem bool_lawful : bool.Lawful where
  consumes b := by
    have hlt : b.toNat < lengthLimit := by cases b <;> decide
    exact consumes_varint (fun n => n != 0) hlt (by cases b <;> rfl)
  ne_nil _ := writeVarint_ne_nil _

/-- A number that is written in so many bytes is what is made of those. -/
theorem consumes_fixed (of : Nat → α) {width n : Nat} {x : α} (hn : n < Nat.pow 256 width)
    (hx : of n = x) :
    Consumes (do return of (Bytes.littleEndian (← take width))) (Bytes.ofNat width n) x := by
  have := (consumes_take (Bytes.ofNat width n)).map fun b => of (Bytes.littleEndian b)
  rwa [Bytes.length_ofNat, Bytes.littleEndian_ofNat, Nat.mod_eq_of_lt hn, hx] at this

theorem binary32_lawful : binary32.Lawful where
  consumes x := by
    have hlt : x.bits.toNat < Nat.pow 256 4 := x.bits.toNat_lt
    exact consumes_fixed (fun n => Binary32.mk (UInt32.ofNat n)) hlt
      (congrArg Binary32.mk UInt32.ofNat_toNat)
  ne_nil _ := List.cons_ne_nil _ _

theorem binary64_lawful : binary64.Lawful where
  consumes x := by
    have hlt : x.bits.toNat < Nat.pow 256 8 := x.bits.toNat_lt
    exact consumes_fixed (fun n => Binary64.mk (UInt64.ofNat n)) hlt
      (congrArg Binary64.mk UInt64.ofNat_toNat)
  ne_nil _ := List.cons_ne_nil _ _

end Scalar

/-! ## Fields by their kind -/

section Kinds

variable {field : FieldReader α} {budget tag : Nat} {a b : α} {payload : Bytes}
  {message name : String}

theorem consumes_readScalar {s : Scalar β} (hs : s.Lawful) {key : Key} (hk : key.layout = s.layout)
    (x : β) : Consumes (readScalar s key) (s.write x) x :=
  (hs.consumes x).after_expect hk

/-- Packed numbers are read one by one, the latest first. -/
theorem folds_packed {s : Scalar β} (hs : s.Lawful) (xs before : List β) :
    Folds (fun xs => do return (← s.read) :: xs) (xs.flatMap s.write) before
      (xs.reverse ++ before) := by
  induction xs generalizing before with
  | nil => exact .nil before
  | cons x xs ih =>
    have hx : Consumes (do return (← s.read) :: before) (s.write x) (x :: before) :=
      (hs.consumes x).map fun x => x :: before
    rw [List.reverse_cons, List.append_assoc, List.flatMap_cons]
    exact .cons (hs.ne_nil x) hx (ih (x :: before))

theorem consumes_readRepeated {s : Scalar β} (hs : s.Lawful) {key : Key}
    (hk : key.layout = .delimited) (before : List β) {xs : List β}
    (hlen : (xs.flatMap s.write).length < lengthLimit) :
    Consumes (readRepeated s key before) (withLength (xs.flatMap s.write)) (before ++ xs) := by
  rw [readRepeated, if_pos hk]
  have := ((folds_packed hs xs []).readDelimited hlen).map fun latest => before ++ latest.reverse
  rwa [List.append_nil, List.reverse_reverse] at this

theorem restores_delimited (ht : 0 < tag ∧ tag < 536870912)
    (hf : payload.length < lengthLimit →
      Consumes (field budget { tag, layout := .delimited } a) (withLength payload) b) :
    Restores field budget (writeDelimited tag payload) a b := by
  intro hlen
  have hkey : Consumes readKey (writeKey { tag, layout := .delimited }) _ :=
    consumes_readKey ht.1 ht.2
  have hp : payload.length < lengthLimit := by
    rw [writeDelimited, withLength, List.length_append, List.length_append] at hlen
    omega
  refine folds_one ?_ (hkey.bind (hf hp))
  exact List.append_ne_nil_of_left_ne_nil (Scalar.writeVarint_ne_nil _) _

theorem restores_scalar {s : Scalar β} {x : β} (ht : 0 < tag ∧ tag < 536870912)
    (hf : Consumes (field budget { tag, layout := s.layout } a) (s.write x) b) :
    Restores field budget (writeScalar s tag x) a b := by
  intro hlen
  have hkey : Consumes readKey (writeKey { tag, layout := s.layout }) _ :=
    consumes_readKey ht.1 ht.2
  refine folds_one ?_ (hkey.bind hf)
  exact List.append_ne_nil_of_left_ne_nil (Scalar.writeVarint_ne_nil _) _

/-! In what follows `put` puts what was read into the message. A message starts with what is left out
when it is written, and putting that changes nothing. -/

theorem restores_scalarUnless [DecidableEq β] {s : Scalar β} {zero : β} (put : α → β → α)
    (hs : s.Lawful) (ht : 0 < tag ∧ tag < 536870912) (hz : put a zero = a)
    (hf : field budget { tag, layout := s.layout } a =
      within message name (do return put a (← readScalar s { tag, layout := s.layout })))
    (x : β) : Restores field budget (writeScalarUnless s tag zero x) a (put a x) := by
  unfold writeScalarUnless
  split
  · rename_i hx
    rw [hx, hz]
    exact restores_nil a
  · apply restores_scalar ht
    rw [hf]
    exact ((consumes_readScalar hs rfl x).map (put a)).within message name

theorem restores_packed {s : Scalar β} (put : α → List β → α) (hs : s.Lawful)
    (ht : 0 < tag ∧ tag < 536870912) (hz : put a [] = a)
    (hf : field budget { tag, layout := .delimited } a =
      within message name (do return put a (← readRepeated s { tag, layout := .delimited } [])))
    (xs : List β) : Restores field budget (writePacked s tag xs) a (put a xs) := by
  unfold writePacked
  split
  · rename_i hx
    rw [List.isEmpty_iff.mp hx, hz]
    exact restores_nil a
  · apply restores_delimited ht
    intro hlen
    rw [hf]
    exact ((consumes_readRepeated hs rfl [] hlen).map (put a)).within message name

theorem restores_bytes (put : α → Bytes → α) (ht : 0 < tag ∧ tag < 536870912) (hz : put a [] = a)
    (hf : field budget { tag, layout := .delimited } a =
      within message name (do return put a (← readBytes { tag, layout := .delimited })))
    (b : Bytes) : Restores field budget (writeBytes tag b) a (put a b) := by
  unfold writeBytes
  split
  · rename_i hb
    rw [List.isEmpty_iff.mp hb, hz]
    exact restores_nil a
  · apply restores_delimited ht
    intro hlen
    rw [hf]
    exact ((consumes_readBytes rfl hlen).map (put a)).within message name

theorem eq_empty_of_ofText {s : String} (hs : Bytes.ofText s = []) : s = "" := by
  have h := Bytes.toText?_ofText s
  rw [hs] at h
  exact (Option.some.inj ((Bytes.toText?_ofText "").symm.trans h)).symm

/-- A field with a text, however it is worked on. -/
theorem restores_writeText (ht : 0 < tag ∧ tag < 536870912) {s : String} (hz : s = "" → b = a)
    (hf : ∀ bytes, Consumes (readText { tag, layout := .delimited }) bytes s →
      Consumes (field budget { tag, layout := .delimited } a) bytes b) :
    Restores field budget (writeText tag s) a b := by
  unfold writeText writeBytes
  split
  · rename_i hb
    rw [hz (eq_empty_of_ofText (List.isEmpty_iff.mp hb))]
    exact restores_nil a
  · exact restores_delimited ht fun hlen => hf _ (consumes_readText rfl hlen)

theorem restores_text (put : α → String → α) (ht : 0 < tag ∧ tag < 536870912) (hz : put a "" = a)
    (hf : field budget { tag, layout := .delimited } a =
      within message name (do return put a (← readText { tag, layout := .delimited })))
    (s : String) : Restores field budget (writeText tag s) a (put a s) := by
  refine restores_writeText ht (fun hs => by rw [hs, hz]) fun bytes hs => ?_
  rw [hf]
  exact (hs.map (put a)).within message name

/-- One field for each payload, each of which is put after those read before. -/
theorem restores_each {write : β → Bytes} {r : Reader β} (put : α → List β → α)
    (ht : 0 < tag ∧ tag < 536870912) (hz : put a [] = a)
    (hf : ∀ before, field budget { tag, layout := .delimited } (put a before) =
      within message name (do return put a (before ++ [← r])))
    (hr : ∀ x, (write x).length < lengthLimit → Consumes r (withLength (write x)) x)
    (xs : List β) : Restores field budget (writeEach write tag xs) a (put a xs) := by
  -- What is put are the payloads so far, and the next one goes behind them.
  have hone : ∀ before x, Restores field budget (writeDelimited tag (write x)) (put a before)
      (put a (before ++ [x])) := by
    intro before x
    apply restores_delimited ht
    intro hlen
    rw [hf]
    exact ((hr x hlen).map fun x => put a (before ++ [x])).within message name
  have hall : ∀ before, Restores field budget (writeEach write tag xs) (put a before)
      (put a (before ++ xs)) := by
    induction xs with
    | nil =>
      intro before
      rw [List.append_nil]
      exact restores_nil _
    | cons x xs ih =>
      intro before
      have := (hone before x).append (ih (before ++ [x]))
      rwa [List.append_assoc] at this
  have := hall []
  rwa [hz] at this

theorem restores_toList {write : β → Bytes} {r : Reader β} (put : α → Option β → α)
    (ht : 0 < tag ∧ tag < 536870912) (hz : put a none = a)
    (hf : field budget { tag, layout := .delimited } a =
      within message name (do return put a (some (← r))))
    (hr : ∀ x, (write x).length < lengthLimit → Consumes r (withLength (write x)) x)
    (x? : Option β) : Restores field budget (writeEach write tag x?.toList) a (put a x?) := by
  cases x? with
  | none =>
    rw [hz]
    exact restores_nil a
  | some x =>
    have : Restores field budget (writeDelimited tag (write x)) a (put a (some x)) := by
      apply restores_delimited ht
      intro hlen
      rw [hf]
      exact ((hr x hlen).map fun x => put a (some x)).within message name
    rwa [← List.append_nil (writeDelimited tag (write x))] at this

end Kinds

end Dataflow.Wire
