import ScriptHost.Counted.Handles
import ScriptHost.Session
import ScriptHost.Value.Encoding
import ScriptHost.Proofs.AllOrNothing
import ScriptHost.Proofs.Armed
import ScriptHost.Proofs.Collection
import ScriptHost.Proofs.Construction
import ScriptHost.Proofs.Traceback
import ScriptHost.Proofs.Transparency
import ScriptHost.Proofs.Careful
import ScriptHost.Proofs.Careful.Call
import ScriptHost.Proofs.Careful.Collect
import ScriptHost.Proofs.Careful.Index
import ScriptHost.Proofs.Composed
import ScriptHost.Proofs.Freshness
import ScriptHost.Proofs.Members
import ScriptHost.Proofs.Traversal
import ScriptHost.Proofs.Walk
import ScriptHost.Proofs.Suppression
import ScriptHost.Proofs.Ownership
import ScriptHost.Proofs.Answers
import ScriptHost.Proofs.Installation
import ScriptHost.Proofs.Precedence
import ScriptHost.Proofs.Absence
import ScriptHost.Proofs.Invisibility
import ScriptHost.Proofs.Garbage
import ScriptHost.Proofs.Conservation
import ScriptHost.Proofs.SlotReference
import ScriptHost.Proofs.Sequence
import ScriptHost.Proofs.Globals
import ScriptHost.Proofs.Namespaces
import ScriptHost.Proofs.GlobalTables
import ScriptHost.Proofs.Pointers
import ScriptHost.Proofs.Interning
import ScriptHost.Proofs.Occupancy
import ScriptHost.Proofs.Words
import ScriptHost.Proofs.Succession
