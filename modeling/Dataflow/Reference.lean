/- A node names each of its inputs by a reference: `name`, `name:port`, or `^name` for a control
   dependency. Here are the parsed form, the parser and the printer, the canonical form that
   always carries a port, and the identifier-safe key of a reference.

   A colon and digits at the end are the port, whatever stands before them (`splitPort_append`);
   without such an ending all of the text is the name (`splitPort_eq_self`). -/

namespace Dataflow

structure Reference where
  /-- Name of the producing node. -/
  node : String
  /-- Whether this is a control dependency. -/
  control : Bool
  /-- Output port of the producer. -/
  port : UInt32
  deriving DecidableEq, Repr

namespace Reference

def controlMark : Char := '^'

def portMark : Char := ':'

/-- The largest port; larger suffixes are read as this one. -/
def maxPort : Nat := 4294967295

def isData (r : Reference) : Bool := !r.control

/-! ## Reading -/

/-- The control marker of a reference, and the text after it. At most one marker is taken. -/
def splitControl : List Char → Bool × List Char
  | [] => (false, [])
  | c :: rest => if c = controlMark then (true, rest) else (false, c :: rest)

/-- The node name and the digits of the port suffix: a colon and one or more ASCII digits at the
end of the text. -/
def splitPort (body : List Char) : List Char × Option (List Char) :=
  -- Read from the end: digits, then the colon, then the name.
  match body.reverse.takeWhile Char.isDigit, body.reverse.dropWhile Char.isDigit with
  | digit :: digits, c :: rest =>
    if c = portMark then (rest.reverse, some (digit :: digits).reverse) else (body, none)
  | _, _ => (body, none)

def suffixValue (digits : List Char) : Nat := Nat.ofDigitChars 10 digits 0

/-- The port named by the digits of a suffix; a number above the largest port stands for it. -/
def portOfDigits (digits : List Char) : UInt32 :=
  UInt32.ofNat (min (suffixValue digits) maxPort)

def ofChars (text : List Char) : Reference :=
  let (control, body) := splitControl text
  let (node, digits) := splitPort body
  { node := String.ofList node, control, port := (digits.map portOfDigits).getD 0 }

def parse (text : String) : Reference := ofChars text.toList

def nodeOf (text : String) : String := (parse text).node

/-- The body of a reference whose port suffix is above the largest port, if it has one. -/
def outOfRange? (text : String) : Option String :=
  let body := (splitControl text.toList).2
  match (splitPort body).2 with
  | some digits => if maxPort < suffixValue digits then some (String.ofList body) else none
  | none => none

/-! ## Writing -/

/-- The text of a reference. A control reference never carries a port, and port 0 is left out. -/
def render (r : Reference) : String :=
  if r.control then String.singleton controlMark ++ r.node
  else if r.port = 0 then r.node
  else r.node ++ String.singleton portMark ++ r.port.toNat.repr

/-- A data reference to port 0 of `node`, or a control reference to it. -/
def toNode (node : String) (control : Bool) : String := render { node, control, port := 0 }

/-- The reference with a port suffix: as it is if it has one, and with port 0 added otherwise. -/
def canonical (text : String) : String :=
  match (splitPort (splitControl text.toList).2).2 with
  | some _ => text
  | none => text ++ ":0"

/-! ## Keys -/

/-- Whether an underscore before `next` needs escaping: it would join another underscore or the
token of a marker. -/
def joinsToken (next : Option Char) : Bool :=
  next == some '_' || next == some portMark || next == some controlMark

def keyChars : List Char → List Char
  | [] => []
  | c :: rest =>
    let token :=
      if c = portMark then "__port__".toList
      else if c = controlMark then "__hat__".toList
      else if c = '_' && joinsToken rest.head? then "__us__".toList
      else [c]
    token ++ keyChars rest

/-- The identifier-safe form of a reference: the markers become words between double underscores,
and an underscore that would run into such a word is written as one too. -/
def key (text : String) : String := String.ofList (keyChars text.toList)

/-! ## Plain names -/

/-- A name that no reference syntax can be mistaken for: it does not start with the control marker
and does not end in a port suffix. -/
def isPlain (name : String) : Bool :=
  !(splitControl name.toList).1 && (splitPort name.toList).2.isNone

/-! ## What the splitters do -/

theorem takeWhile_append_stop {p : Char → Bool} {ds rest : List Char} {c : Char}
    (hd : ∀ d ∈ ds, p d = true) (hc : p c = false) :
    (ds ++ c :: rest).takeWhile p = ds ∧ (ds ++ c :: rest).dropWhile p = c :: rest := by
  induction ds with
  | nil => simp [hc]
  | cons d ds ih =>
    have hds : ∀ x ∈ ds, p x = true := fun x hx => hd x (List.mem_cons_of_mem d hx)
    have hp := hd d List.mem_cons_self
    simp [hp, ih hds]

theorem splitControl_eq_self {text : List Char} (h : (splitControl text).1 = false) :
    splitControl text = (false, text) := by
  cases text with
  | nil => rfl
  | cons c rest =>
    simp only [splitControl] at h ⊢
    split <;> simp_all

theorem splitPort_append {name digits : List Char} (hne : digits ≠ [])
    (hd : ∀ d ∈ digits, d.isDigit = true) :
    splitPort (name ++ portMark :: digits) = (name, some digits) := by
  have hrev : (name ++ portMark :: digits).reverse
      = digits.reverse ++ portMark :: name.reverse := by simp
  have hds : ∀ d ∈ digits.reverse, d.isDigit = true := fun d h => hd d (List.mem_reverse.mp h)
  have hs := @takeWhile_append_stop _ _ name.reverse _ hds
    (show portMark.isDigit = false by decide)
  have hnr : digits.reverse ≠ [] := by simpa using hne
  unfold splitPort
  rw [hrev, hs.1, hs.2]
  cases h : digits.reverse with
  | nil => exact absurd h hnr
  | cons d ds =>
    have : digits = (d :: ds).reverse := by rw [← h]; simp
    simp [this]

theorem splitPort_eq_some {body name digits : List Char}
    (h : splitPort body = (name, some digits)) :
    body = name ++ portMark :: digits ∧ digits ≠ [] ∧ ∀ d ∈ digits, d.isDigit = true := by
  unfold splitPort at h
  split at h
  · rename_i d ds c rest ht hdr
    split at h
    · rename_i hc
      simp only [Prod.mk.injEq, Option.some.injEq] at h
      obtain ⟨rfl, rfl⟩ := h
      have hall : ∀ x ∈ d :: ds, x.isDigit = true := by
        intro x hx
        rw [← ht] at hx
        exact List.all_eq_true.mp (List.all_takeWhile (l := body.reverse)) x hx
      refine ⟨?_, by simp, fun x hx => hall x (List.mem_reverse.mp hx)⟩
      have hcat := List.takeWhile_append_dropWhile (p := Char.isDigit) (l := body.reverse)
      rw [ht, hdr, hc] at hcat
      have := congrArg List.reverse hcat
      simpa using this.symm
    · simp at h
  · simp at h

theorem splitPort_eq_self {body : List Char} (h : (splitPort body).2 = none) :
    splitPort body = (body, none) := by
  unfold splitPort at h ⊢
  split at h <;> try rfl
  split at h
  · simp at h
  · rename_i hc
    simp_all

/-- A data reference to port 0 of a plain name reads back as written. -/
theorem parse_render_plain {name : String} (h : isPlain name = true) :
    parse (render ⟨name, false, 0⟩) = ⟨name, false, 0⟩ := by
  simp only [isPlain, Bool.and_eq_true, Bool.not_eq_true', Option.isNone_iff_eq_none] at h
  simp [parse, render, ofChars, splitControl_eq_self h.1, splitPort_eq_self h.2]

end Reference
end Dataflow
