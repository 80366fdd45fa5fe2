import ScriptHost.Program.CallStep

/-! # Class steps

Steps that define classes, make instances, and install the properties of native types.
-/

namespace ScriptHost

open Act (silently script)

namespace ClassDef

/-- The class of a bound type whose instances hold a value. -/
def inline (t : BoundType) : ClassDef := { name := t.typeName, size := t.size }

/-- The class of a bound type whose instances hold a pointer. -/
def boxed (t : BoundType) : ClassDef := { name := t.boxedName, size := Memory.pointerSize }

end ClassDef

/-- A step that works on classes. -/
inductive ClassStep where
  | install
  /-- Defines a class with the properties of a peer. -/
  | define (d : ClassDef) (peer : Option PeerTerm)
  | newInstance (name : String) (x : Marshaled)
  | isInstance (i : StackIndex)
  | isType (i : StackIndex) (name : String)
  | bindPeer (p : PeerTerm)
  | installPeer (metatable : StackIndex) (p : PeerTerm)
  deriving Repr, Inhabited

namespace ClassStep

/-- The peer of a term; refused members fail the step before it does anything. -/
def peer (p : PeerTerm) : Act StepError Peer :=
  Act.ofExcept (p.resolve.mapError .member)

def run : ClassStep → Act StepError Reply
  | .install => silently (script Act.installClasses)
  | .define d p => silently do
      let peer ← p.mapM peer
      script (Act.defineClass { d with peer })
  | .newInstance name x => silently do
      let args := x.arguments (← get)
      script (Act.newInstance name x.format args)
  | .isInstance i => do pure (.bool (← script (Act.isInstance i)))
  | .isType i name => do pure (.bool (← script (Act.isType i name)))
  | .bindPeer p => silently do Act.bindPeer (← peer p)
  | .installPeer metatable p => silently do
      let p ← peer p
      script (Act.installPeer metatable p)

end ClassStep

end ScriptHost
