import ScriptHost.Invocation
import ScriptHost.Property

/-! # Classes

A class is a metatable in the registry that is marked as one and knows the size, the constructor and
the finalizer of its instances. Scripts and host reach classes through the functions of the global
table `class`.
-/

namespace ScriptHost

/-- What is needed to define a class. -/
structure ClassDef where
  name : String
  /-- Bytes of the block of an instance. The class keeps the number as a signed integer of 64 bits;
      one that is negative there stands for no bytes. -/
  size : Nat
  methods : List (String × NativeCode) := []
  /-- Called with the instance and the further arguments of `New`. -/
  constructor : Option NativeCode := none
  finalizer : Option NativeCode := none
  peer : Option Peer := none
  deriving Repr, Inhabited

namespace Class

/-- The field that marks the metatable of a class. -/
def markerField : String := "__class"

def sizeField : String := "__size"

def constructorField : String := "__cons"

/-- The functions of the global table `class`. -/
def functions : List (String × NativeCode) :=
  [("New", .classNew), ("IsInstance", .classIsInstance), ("IsType", .classIsType)]

/-- The token under which one of these functions is cached. -/
def token : NativeCode → Nat
  | .classNew => 1
  | .classIsInstance => 2
  | _ => 3

/-- The global name of one of these functions. -/
def path : NativeCode → String
  | .classNew => "class.New"
  | .classIsInstance => "class.IsInstance"
  | _ => "class.IsType"

end Class

/-- Records that the constructor of the value at an index returned. -/
def Machine.noteConstructed (m : Machine) (i : StackIndex) : Machine :=
  match m.value i with
  | .userdata slot => m.note .constructed slot
  | _ => m

namespace Act

/-- Sets up the global table `class`. -/
def installClasses : Act ScriptError Unit := register (some "class") Class.functions

/-- Pops a value and stores it as a raw field of the metatable at an index, after pushing it. -/
def setPushed (metatable : StackIndex) (field : String) (push : Act ScriptError Unit) :
    Act ScriptError Unit := do
  push
  Op.rawSetField metatable field

/-- Fills the metatable of a class, which is taken from the top. -/
def fillMetatable (d : ClassDef) : Act ScriptError Unit := do
  let metatable := StackIndex.fromBottom (← get).top
  setPushed metatable Class.markerField (modify (·.push (.bool true)))
  setPushed metatable Class.sizeField (modify (·.pushInt (wrapInt64 d.size)))
  d.constructor.forM fun code => setPushed metatable Class.constructorField (pushNative code)
  d.finalizer.forM fun code => setPushed metatable Metafield.finalizer.text (pushNative code)
  d.methods.forM fun (name, code) => setPushed metatable name (pushNative code (.named name))
  setPushed metatable Metafield.index.text (modify (·.pushAt metatable))
  d.peer.forM (installPeer metatable)
  modify (·.pop 1)

/-- Defines a class; its name must be new to the registry. -/
def defineClass (d : ClassDef) : Act ScriptError Unit := do
  installClasses
  if !(← newMetatable d.name) then
    modify (·.pop 1)
    fail (.classExists d.name)
  fillMetatable d

/-- Pushes a function of the global table `class`, which is set up if it is missing. -/
def pushClassFunction (code : NativeCode) : Act ScriptError Unit := do
  if !(← cacheGet (.token (Class.token code))) then
    let kind ← getGlobal "class"
    modify (·.pop 1)
    if kind ≠ .table then installClasses
    cachedGlobal (Class.path code) (.token (Class.token code))

/-- Pushes a new instance of a class, made with marshaled arguments. -/
def newInstance (name : String) (ds : List Directive) (args : List Argument) :
    Act ScriptError Unit := do
  pushClassFunction .classNew
  modify (·.pushText name)
  let _ ← callMarshaled 1 1 ds args .unguarded

/-- Takes the truth of the value on top. -/
def popTruth : Act ScriptError Bool := do
  let b := (← get).topValue.isTruthy
  modify (·.pop 1)
  pure b

/-- Whether the value at an index is an instance of any class. -/
def isInstance (i : StackIndex) : Act ScriptError Bool := do
  let i := (← get).absolute i
  pushClassFunction .classIsInstance
  modify (·.pushAt i)
  call 1 1
  popTruth

/-- Whether the value at an index is an instance of the class of a name. -/
def isType (i : StackIndex) (name : String) : Act ScriptError Bool := do
  let i := (← get).absolute i
  pushClassFunction .classIsType
  modify (·.pushAt i)
  modify (·.pushText name)
  call 2 1
  popTruth

/-- Calls the constructor on top with an instance and the arguments of `New` after the name. -/
def callConstructor (count : Nat) (created : StackIndex) : Act ScriptError Unit := do
  modify (·.pushAt created)
  (List.range (count - 1)).forM fun k => modify (·.pushAt (.fromBottom (k + 2)))
  call count 0
  modify (·.noteConstructed created)

/-- Gives the block on top the metatable at an index and hands it to the constructor of the class. -/
def construct (count : Nat) (metatable : StackIndex) : Act ScriptError Unit := do
  let created := StackIndex.fromBottom (← get).top
  modify (·.pushAt metatable)
  Op.setMetatable created
  if (← Op.rawGetField metatable Class.constructorField) = .function then
    callConstructor count created
  else modify (·.pop 1)
  modify (·.pushAt created)

/-- Makes an instance of the class whose metatable is on top, with so many arguments of `New`. -/
def instantiate (count : Nat) : Act ScriptError Unit := do
  let metatable := StackIndex.fromBottom (← get).top
  let _ ← Op.rawGetField metatable Class.sizeField
  let m ← get
  let size := ((m.toInt? m.topValue).getD 0).toNat
  modify (·.pop 1)
  let _ ← newUserdata size
  construct count metatable

/-- `class.New(name, ...)`: a new block with the metatable of the class, handed to its
    constructor. -/
def classNew : Act ScriptError Nat := do
  let name ← Op.checkText 1
  let count := (← get).top
  if (← Op.getRegistered name) ≠ .table then fail (.classUnknown name)
  instantiate count
  pure 1

/-- Pushes the metatable of the value at argument 1 if it belongs to a class. -/
def classMetatable : Act ScriptError Bool := do
  let i := StackIndex.argument 1
  if (← get).kindAt i ≠ .userdata then pure false
  else if !(← modifyGet (·.getMetatable i)) then pure false
  else
    let marked := (← Op.rawGetField .top Class.markerField) = .boolean
    modify (·.pop 1)
    if !marked then modify (·.pop 1)
    pure marked

/-- `class.IsInstance(value)` -/
def classIsInstance : Act ScriptError Nat := do
  let found ← classMetatable
  if found then modify (·.pop 1)
  modify (·.push (.bool found))
  pure 1

/-- `class.IsType(value, name)` -/
def classIsType : Act ScriptError Nat := do
  let name ← Op.checkText 2
  let found ← do
    if !(← classMetatable) then pure false
    else
      let _ ← Op.getRegistered name
      let m ← get
      pure (m.rawEqual (m.value (.fromTop 1)) (m.value (.fromTop 2)))
  modify fun m => (m.setTop 2).push (.bool found)
  pure 1

end Act

end ScriptHost
