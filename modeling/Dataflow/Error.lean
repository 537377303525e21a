import Dataflow.Wire.Fault

/- Why an operation on graphs, literals or files comes to no result. The constructors name
   causes, and the wording of all of them is `Error.message`. One of them is no refusal: an
   overrun ends whatever is being done, and nothing that tolerates refusals goes on after it
   (`unlessRefused`). -/

namespace Dataflow

/-- A list in the wording of errors and events. -/
def listText (items : List String) : String := "[" ++ ", ".intercalate items ++ "]"

/-- Why elements and a shape do not go together. -/
inductive ShapeFault where
  /-- The number of elements exceeds what can be addressed. -/
  | countOverflow (dims : List Int)
  /-- A constant needs every dimension known. -/
  | dynamicShape (dims : List Int)
  /-- The dimensions other than zero multiply to more than can be addressed. -/
  | layoutOverflow
  /-- Neither one element nor as many as the shape has. -/
  | wrongCount (count : Nat) (shape : List Nat)
  /-- More elements are stored than the shape has. -/
  | tooMany (count : Nat) (shape : List Nat) (expected : Nat)
  /-- The packed bytes are not a whole number of elements, or not as many as the shape has. -/
  | contentSize (size expected width : Nat)
  deriving DecidableEq, Repr

def ShapeFault.message : ShapeFault → String
  | .countOverflow dims => "element count of shape " ++ listText (dims.map Int.repr) ++ " overflows"
  | .dynamicShape dims =>
    "Cannot build a constant with dynamic shape " ++ listText (dims.map Int.repr)
  | .layoutOverflow => "ShapeError/Overflow: arithmetic overflow"
  | .wrongCount count shape =>
    count.repr ++ " elements do not fit shape " ++ listText (shape.map Nat.repr)
  | .tooMany count shape expected =>
    "Data length " ++ count.repr ++ " exceeds shape " ++ listText (shape.map Nat.repr)
      ++ " (expected " ++ expected.repr ++ ")"
  | .contentSize size expected width =>
    "Content size " ++ size.repr ++ " does not match expected " ++ expected.repr
      ++ " * " ++ width.repr

/-- Why an array cannot be allocated. -/
inductive Overrun where
  /-- The sizes other than zero multiply to more than can be addressed. -/
  | layout
  /-- The elements take more bytes than can be addressed. -/
  | bytes
  deriving DecidableEq, Repr

def Overrun.message : Overrun → String
  | .layout => "ndarray: Shape too large, product of non-zero axis lengths overflows isize"
  | .bytes => "capacity overflow"

inductive FileFault where
  | noSuchFile
  | isDirectory
  deriving DecidableEq, Repr

def FileFault.message : FileFault → String
  | .noSuchFile => "No such file or directory (os error 2)"
  | .isDirectory => "Is a directory (os error 21)"

/-- Why an operation is refused. -/
inductive Error where
  /-- No node has this name. -/
  | unknownNode (name : String)
  /-- A node fed by several producers that are not constants cannot be spliced. -/
  | multipleProducers (node : String) (count : Nat)
  /-- A node without a data input in first place cannot be spliced. -/
  | noPrimaryInput (node : String)
  /-- A constant is needed. -/
  | notConstant (name op : String)
  /-- Folding needs every producer to be a constant. -/
  | nonConstantInput (node input : String)
  /-- A node names a node that is not there. -/
  | danglingReference (node missing : String)
  /-- A node does not consume the producer it is said to consume. -/
  | notConnected (producer consumer : String)
  /-- A new node would take the name of a node in the same edit. -/
  | nameConflict (name : String)
  /-- The recorded consumers of a node disagree with the inputs that name it. -/
  | inconsistentConsumers (producer consumer : String)
  /-- A node lacks an attribute. -/
  | missingAttribute (node key : String)
  /-- An attribute holds a value outside the supported kinds. -/
  | unsupportedAttribute (node key : String)
  /-- No element type has this number, or the type has no element storage. -/
  | invalidElementType (code : Int)
  /-- Elements and shape do not go together. -/
  | shapeMismatch (fault : ShapeFault)
  /-- A file cannot be opened. -/
  | file (fault : FileFault)
  /-- The bytes are no stored graph. -/
  | decode (fault : Wire.Fault)
  /-- An array cannot be allocated. This refuses no operation: it ends the whole run. -/
  | overrun (cause : Overrun)
  deriving DecidableEq, Repr

def Error.message : Error → String
  | .unknownNode name => "Unknown node: " ++ name
  | .multipleProducers node count =>
    "Cannot splice " ++ node ++ ": " ++ count.repr ++ " non-constant inputs"
  | .noPrimaryInput node => "Cannot splice " ++ node ++ ": no primary data input"
  | .notConstant name op => "Node " ++ name ++ " is not a constant (op: " ++ op ++ ")"
  | .nonConstantInput node input =>
    "Cannot fold into " ++ node ++ ": input " ++ input ++ " is not constant"
  | .danglingReference node missing => "Node " ++ node ++ " references missing node " ++ missing
  | .notConnected producer consumer =>
    "Node " ++ consumer ++ " is not a consumer of " ++ producer
  | .nameConflict name => "Name conflict: " ++ name
  | .inconsistentConsumers producer consumer =>
    "Outputs of " ++ producer ++ " are inconsistent with " ++ consumer
  | .missingAttribute node key => "Node " ++ node ++ " has no attribute " ++ key
  | .unsupportedAttribute node key => "Unsupported attribute " ++ key ++ " on node " ++ node
  | .invalidElementType code => "Invalid data type: " ++ code.repr
  | .shapeMismatch fault => "Shape mismatch: " ++ fault.message
  | .file fault => "IO error: " ++ fault.message
  | .decode fault => "Protobuf decode error: " ++ fault.message
  | .overrun cause => cause.message

namespace Error

/-- Whether an error ends the run. Every other one refuses an operation, and may be passed over. -/
def isOverrun : Error → Bool
  | .overrun _ => true
  | _ => false

/-- The result, or nothing where there was a refusal. An overrun is not passed over. -/
def unlessRefused {α : Type} : Except Error α → Except Error (Option α)
  | .ok a => .ok (some a)
  | .error e => if e.isOverrun then .error e else .ok none

variable {α : Type} {r : Except Error α} {a : α} {e : Error}

theorem unlessRefused_eq_some : unlessRefused r = .ok (some a) ↔ r = .ok a := by
  cases r with
  | ok b => simp [unlessRefused]
  | error d => cases hd : d.isOverrun <;> simp [unlessRefused, hd]

theorem unlessRefused_eq_error :
    unlessRefused r = .error e ↔ ∃ o, e = .overrun o ∧ r = .error (.overrun o) := by
  cases r with
  | ok b => simp [unlessRefused]
  | error d => cases d <;> simp [unlessRefused, isOverrun, eq_comm]

end Error

end Dataflow
