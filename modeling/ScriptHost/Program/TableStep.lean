import ScriptHost.Program.Term
import ScriptHost.Snapshot

/-! # Table steps

Steps that read and write tables, metatables, user values, globals and sequences.
-/

namespace ScriptHost

open Act (silently)

/-- A step that works on a table. -/
inductive TableStep where
  | rawGet (i : StackIndex)
  | rawSet (i : StackIndex)
  | rawGetInt (i : StackIndex) (n : Int)
  | rawSetInt (i : StackIndex) (n : Int)
  | rawGetField (i : StackIndex) (name : String)
  | rawSetField (i : StackIndex) (name : String)
  | entry (i : StackIndex)
  | setEntry (i : StackIndex)
  | getField (i : StackIndex) (name : String)
  | setField (i : StackIndex) (name : String)
  | next (i : StackIndex)
  /-- Walks through all entries. -/
  | iterate (i : StackIndex)
  | length (i : StackIndex)
  | append (i : StackIndex)
  | removeLast (i : StackIndex) (keep : Bool)
  | last (i : StackIndex)
  | unpack (i : StackIndex) (first final : Int)
  deriving Repr, Inhabited

namespace TableStep

/-- Takes the entries of the table at an index one by one, each after the key on top. -/
def walk (i : StackIndex) : Nat → Act ScriptError (List (Shallow × Shallow))
  | 0 => pure []
  | fuel + 1 => do
      if ← Op.next i then
        let m ← get
        let entry := (m.shallow (m.value (.fromTop 2)), m.shallow m.topValue)
        modify (·.pop 1)
        let rest ← walk i fuel
        pure (entry :: rest)
      else pure []

/-- One more than the number of entries of the table at an index: the walk through it ends within
    so many steps. -/
def walkBound (m : Machine) (i : StackIndex) : Nat :=
  match m.value i with
  | .table slot => (m.heap.table slot).toList.length + 1
  | _ => 1

def run : TableStep → Act ScriptError Reply
  | .rawGet i => do pure (.kind (← Op.rawGet i))
  | .rawSet i => silently (Op.rawSet i)
  | .rawGetInt i n => do pure (.kind (← Op.rawGetInt i n))
  | .rawSetInt i n => silently (Op.rawSetInt i n)
  | .rawGetField i name => do pure (.kind (← Op.rawGetField i name))
  | .rawSetField i name => silently (Op.rawSetField i name)
  | .entry i => do pure (.kind (← Act.getTable i))
  | .setEntry i => silently (Act.setTable i)
  | .getField i name => do pure (.kind (← Act.getField i name))
  | .setField i name => silently (Act.setField i name)
  | .next i => do pure (.bool (← Op.next i))
  | .iterate i => do
      let i := (← get).absolute i
      modify (·.push .nil)
      let bound := walkBound (← get) i
      pure (.entries (← walk i bound))
  | .length i => do pure (.int ((← get).lengthAt i))
  | .append i => silently (Op.append i)
  | .removeLast i keep => silently (Op.removeLast i keep)
  | .last i => do pure (.kind (← Op.last i))
  | .unpack i first final => do pure (.int (← Op.unpack i first final))

end TableStep

/-- A step that works on metatables and user values. -/
inductive MetaStep where
  | metatable (i : StackIndex)
  | setMetatable (i : StackIndex)
  | metafield (i : StackIndex) (name : String)
  | newMetatable (name : String)
  | registered (name : String)
  | userValue (i : StackIndex)
  | setUserValue (i : StackIndex)
  deriving Repr, Inhabited

def MetaStep.run : MetaStep → Act ScriptError Reply
  | .metatable i => do pure (.bool (← modifyGet (·.getMetatable i)))
  | .setMetatable i => silently (Op.setMetatable i)
  | .metafield i name => do pure (.optionalKind (← modifyGet (·.getMetafield i name)))
  | .newMetatable name => do pure (.bool (← Act.newMetatable name))
  | .registered name => do pure (.kind (← Op.getRegistered name))
  | .userValue i => do pure (.kind (← modifyGet (·.getUserValue i)))
  | .setUserValue i => silently (Op.setUserValue i)

/-- How a program writes a cache key. -/
inductive CacheTerm where
  | token (n : Nat)
  /-- A token that was given out under a name. -/
  | named (name : String)
  deriving DecidableEq, Repr, Inhabited

def CacheTerm.resolve (m : Machine) : CacheTerm → CacheKey NativeCode
  | .token n => .token n
  | .named name => .token ((m.names.tokens.lookup name).getD 0)

/-- A step that works on globals and cached values. -/
inductive NameStep where
  /-- Pushes an entry of the globals whose name is taken as it is. -/
  | plainGlobal (name : String)
  | setPlainGlobal (name : String)
  | global (name : String)
  | setGlobal (name : String)
  | cachedGlobal (name : String) (key : CacheTerm)
  | cachedFunction (code : NativeCode)
  | findTable (name : String)
  | register (name : Option String) (functions : List (String × NativeCode))
  /-- Pushes a cached value. -/
  | recall (key : CacheTerm)
  | remember (key : CacheTerm)
  /-- Gives out a token and remembers it under a name. -/
  | freshKey (name : String)
  deriving Repr, Inhabited

def NameStep.run : NameStep → Act ScriptError Reply
  | .plainGlobal name => do pure (.kind (← Act.getField .environment name))
  | .setPlainGlobal name => silently (Act.setField .environment name)
  | .global name => do pure (.kind (← Act.getGlobal name))
  | .setGlobal name => silently (Act.setGlobal name)
  | .cachedGlobal name key => silently do Act.cachedGlobal name (key.resolve (← get))
  | .cachedFunction code => silently (Act.cachedNative code)
  | .findTable name => silently (Act.findTable name)
  | .register name functions => silently (Act.register name functions)
  | .recall key => do pure (.bool (← Act.cacheGet (key.resolve (← get))))
  | .remember key => silently do Act.cacheSet (key.resolve (← get))
  | .freshKey name => do
      let token ← modifyGet fun m =>
        let (token, cache) := m.cache.fresh
        (token, { m with cache, names.tokens := (name, token) :: m.names.tokens })
      pure (.int token)

end ScriptHost
