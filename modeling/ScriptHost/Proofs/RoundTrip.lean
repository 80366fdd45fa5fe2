import ScriptHost.Proofs.Property
import ScriptHost.Proofs.Utf8

/-! # Properties are read as they were written

A handle leads to its object, whose members lie at fixed offsets. The value that a property was assigned is
read back as far as the member can hold it, however much was interned, allocated or collected meanwhile,
as long as nobody writes to the same bytes and the write has not changed the handle itself.
-/

namespace ScriptHost

namespace Peer

variable {p : Peer} {m m' : Machine} {handle : Value} {block object : Address}

/-- What a peer takes for a handle of its objects. -/
structure Accepts (p : Peer) (m : Machine) (handle : Value) (block object : Address) : Prop where
  address : m.address? handle = some block
  room : ∀ size, m.blockSize? handle = some size → p.neededSize ≤ size
  inBlock : p.addressing = .inBlock → object = block
  byPointer : p.addressing = .byPointer → m.heap.memory.readPointer block = object ∧ object ≠ 0

theorem Accepts.objectOf (h : p.Accepts m handle block object) : p.objectOf block m = .ok object m := by
  unfold Peer.objectOf
  cases hp : p.addressing with
  | inBlock => rw [h.inBlock hp]; rfl
  | byPointer =>
      obtain ⟨hread, hne⟩ := h.byPointer hp
      simp only [Op.bind_ok Op.run_get, hread, if_neg hne]
      rfl

theorem Accepts.objectAddress (h : p.Accepts m handle block object)
    (hhandle : m.value (.argument 1) = handle) : p.objectAddress m = .ok object m := by
  rw [Peer.objectAddress, Op.bind_ok Op.run_get]
  simp only [hhandle, h.address]
  cases hsize : m.blockSize? handle with
  | none => exact h.objectOf
  | some size =>
      have hroom := h.room size hsize
      simp only [if_neg (Nat.not_lt.mpr hroom)]
      exact h.objectOf

/-- A peer that finds the object of a handle accepts the handle, and changes nothing. -/
theorem accepts_of_objectAddress (h : p.objectAddress m = .ok object m') :
    m' = m ∧ ∃ block, p.Accepts m (m.value (.argument 1)) block object := by
  have hobject : ∀ block, p.objectOf block m = .ok object m' → m' = m ∧
      (p.addressing = .inBlock → object = block) ∧
      (p.addressing = .byPointer → m.heap.memory.readPointer block = object ∧ object ≠ 0) := by
    intro block hrun
    unfold Peer.objectOf at hrun
    cases hp : p.addressing with
    | inBlock =>
        rw [hp] at hrun
        cases hrun
        exact ⟨rfl, fun _ => rfl, fun h => by cases h⟩
    | byPointer =>
        simp only [hp, Op.bind_ok Op.run_get] at hrun
        split at hrun
        · cases hrun
        · rename_i hne
          cases hrun
          exact ⟨rfl, (fun h => by cases h), fun _ => ⟨rfl, hne⟩⟩
  rw [Peer.objectAddress, Op.bind_ok Op.run_get] at h
  generalize m.value (.argument 1) = handle at h ⊢
  dsimp only at h
  cases haddress : m.address? handle with
  | none => simp [haddress, Op.failArgument, Op.run_bind] at h
  | some block =>
      rw [haddress] at h
      dsimp only at h
      cases hsize : m.blockSize? handle with
      | none =>
          rw [hsize] at h
          obtain ⟨hm, hin, hby⟩ := hobject block h
          exact ⟨hm, block, haddress, (fun size hs => by rw [hsize] at hs; cases hs), hin, hby⟩
      | some size =>
          rw [hsize] at h
          dsimp only at h
          split at h
          · cases h
          · rename_i hroom
            obtain ⟨hm, hin, hby⟩ := hobject block h
            refine ⟨hm, block, haddress, fun s hs => ?_, hin, hby⟩
            rw [hsize] at hs
            exact Option.some.inj hs ▸ Nat.not_lt.mp hroom

/-- The handle and the name of a property, the arguments of the handlers. -/
structure Names (m : Machine) (handle : Value) (name : String) : Prop where
  handle : m.value (.argument 1) = handle
  key : ∃ id, m.value (.argument 2) = .string id ∧ Utf8.decodeLossy (m.strings.get id) = name

theorem keyName_ok {name : String} (h : Names m handle name) : keyName m = .ok (some name) m := by
  obtain ⟨id, hvalue, hname⟩ := h.key
  rw [keyName, Op.bind_ok Op.run_get]
  simp only [hvalue, hname]
  rfl

end Peer

/-! ## Members -/

namespace Op

open Machine

variable {m m' : Machine} {object : Address} {member : Member} {c : Content}

theorem pushInt_reads (hm : m.heap.Sound) (i : Int) :
    ∃ r, (m.pushInt i).stack = m.stack.push r ∧ (m.pushInt i).Reads r (.int i) := by
  cases hfits : Value.fitsInline i with
  | true =>
    rw [pushInt_inline hfits]
    exact ⟨_, rfl, rfl⟩
  | false =>
    rw [pushInt_newBoxed hfits]
    refine ⟨_, rfl, ?_⟩
    have hget := Arena.get?_insert (a := m.heap.boxed) (x := i) (s := (m.heap.boxed.insert i).1) hm.boxed
    rwa [if_pos rfl] at hget

theorem pushBytes_reads (m : Machine) (bytes : Bytes) :
    ∃ r, (m.pushBytes bytes).stack = m.stack.push r ∧ (m.pushBytes bytes).Reads r (.text bytes) := by
  refine ⟨_, rfl, (m.intern bytes).1, rfl, ?_⟩
  have hfound : (m.intern bytes).2.strings.strings[(m.intern bytes).1]? = some bytes :=
    StringPool.intern_found
  change (m.intern bytes).2.strings.get (m.intern bytes).1 = bytes
  rw [StringPool.get, hfound, Option.getD_some]

/-- What the bytes of a member mean is what is read. -/
theorem readMember_reads (hm : m.heap.Sound)
    (h : m.heap.memory.content? member.tag
      (m.heap.memory.read (memberAddress object member) member.tag.size) = some c) :
    ∃ r m', readMember object member m = .ok () m' ∧ m'.stack = m.stack.push r ∧ m'.Reads r c := by
  rw [readMember, bind_ok run_get]
  dsimp only
  generalize m.heap.memory.read (memberAddress object member) member.tag.size = bytes at h ⊢
  unfold Memory.content? at h
  by_cases htag : member.tag = .text
  · simp only [htag, if_true] at h ⊢
    by_cases hnull : Bytes.toNat bytes = 0
    · rw [if_pos hnull] at h ⊢
      obtain rfl := Option.some.inj h
      exact ⟨.nil, _, rfl, rfl, rfl⟩
    · rw [if_neg hnull] at h ⊢
      obtain rfl := Option.some.inj h
      obtain ⟨r, hstack, hreads⟩ := pushBytes_reads m (m.heap.memory.readText (Bytes.toNat bytes))
      exact ⟨r, _, rfl, hstack, hreads⟩
  · rw [if_neg htag] at h ⊢
    cases hdecode : member.tag.decode bytes with
    | error a => simp [hdecode] at h
    | ok read =>
        rw [hdecode] at h
        cases read with
        | inl i =>
            obtain rfl := Option.some.inj h
            obtain ⟨r, hstack, hreads⟩ := pushInt_reads hm i
            exact ⟨r, _, rfl, hstack, hreads⟩
        | inr v =>
            obtain rfl := Option.some.inj h
            exact ⟨v, _, rfl, rfl, rfl⟩

end Op

/-! ## Assignments -/

namespace Machine

variable {m m' m₁ : Machine} {tag : MemberTag} {bytes : Bytes} {c : Content} {a : Address} {b : Block}

/-- A machine where bytes were written to native memory. -/
def written (m : Machine) (a : Address) (bytes : Bytes) : Machine :=
  { m with heap := { m.heap with memory := m.heap.memory.write a bytes } }

/-- What is left of a value once its bytes are written to a block that is no interned text: they are what
    was assigned, and nothing else changed. -/
structure Assigned (m m₁ : Machine) (tag : MemberTag) (a : Address) (c : Content) : Prop where
  legible : m₁.Legible
  bytes : m₁.heap.memory.content? tag (m₁.heap.memory.read a tag.size) = some c
  pinned : tag = .text → Bytes.toNat (m₁.heap.memory.read a tag.size) ≠ 0 →
    ∃ b ∈ m₁.heap.memory.blocks, b.base = Bytes.toNat (m₁.heap.memory.read a tag.size) ∧
      ∃ id, b.owner = .literal id
  outside : ∀ d x, d < a ∨ a + tag.size ≤ d → m.heap.memory.byte? d = some x →
    m₁.heap.memory.byte? d = some x
  read : ∀ d count, m.heap.memory.blockAt? d ≠ none → d + count ≤ a ∨ a + tag.size ≤ d →
    m₁.heap.memory.read d count = m.heap.memory.read d count
  blockAt : ∀ d, m.heap.memory.blockAt? d ≠ none → m₁.heap.memory.blockAt? d ≠ none

theorem Prepared.assigned (hp : Prepared m m' tag bytes c) (hm : m.heap.memory.Sound)
    (hspans : m.heap.memory.Spans b a tag.size) (hb : ∀ id, b.owner ≠ .literal id) :
    Assigned m (m'.written a bytes) tag a c := by
  have hm' := hp.memory.sound hm
  have hspans' := hp.memory.spans hspans
  have hcovers : b.covers a := hspans.covers (i := 0) tag.size_pos
  have hread : (m'.written a bytes).heap.memory.read a tag.size = bytes := by
    rw [← hp.length] at hspans' ⊢
    exact hspans'.read_write hm'
  have htexts := fun {d : Block} {id : StringId} (hid : d.owner = .literal id) =>
    @Memory.mem_write_text m'.heap.memory a b d bytes id hm' hspans'.mem hcovers hb hid
  exact {
    legible := by
      intro d hd id hid
      exact hp.legible d ((htexts hid).mp hd) id hid
    bytes := by
      rw [hread, ← hp.content]
      apply Memory.content?_congr
      intro htag hne
      obtain ⟨d, hd, hbase, id, hid⟩ := hp.pinned htag hne
      have hkeeps : m'.heap.memory.KeepsTexts (m'.written a bytes).heap.memory :=
        fun e he id hid => (htexts hid).mpr he
      rw [← hbase]
      exact hkeeps.readText hm' (Memory.write_sound hm') hd hid
    pinned := by
      rw [hread]
      intro htag hne
      obtain ⟨d, hd, hbase, id, hid⟩ := hp.pinned htag hne
      exact ⟨d, (htexts hid).mpr hd, hbase, id, hid⟩
    outside := by
      intro d x hd hx
      have hx' := hp.memory.byte? hm hx
      rw [← hx', ← hp.length] at *
      exact Memory.byte?_write_of_ne hm' hd
    read := by
      intro d count hthere hapart
      obtain ⟨e, he⟩ := Option.ne_none_iff_exists'.mp hthere
      rw [← hp.memory.read hm he]
      rw [← hp.length] at hapart
      exact Memory.read_write_of_apart hm' (hp.memory.blockAt? hm he) hapart
    blockAt := by
      intro d hthere
      obtain ⟨e, he⟩ := Option.ne_none_iff_exists'.mp hthere
      apply Memory.blockAt?_write hm'
      rw [hp.memory.blockAt? hm he]
      exact Option.some_ne_none e }

end Machine

namespace Act

variable {p : Peer} {host : Host} {m m' : Machine} {handle : Value} {block object : Address}
  {name : String} {member : Member}

/-- A member that has no setter is written. -/
theorem writeProperty_eq (haccepts : p.Accepts m handle block object) (hnames : Peer.Names m handle name)
    (hsetter : p.setters.lookup name = none) (hmember : p.members.get? name = some member) :
    writeProperty p host m = (liftM (Op.writeMember object member) >>= fun _ => pure 0 :
      Act ScriptError Nat) host m := by
  rw [writeProperty, bind_ok (run_lift.trans (haccepts.objectAddress hnames.handle)),
    bind_ok (run_lift.trans (Peer.keyName_ok hnames))]
  simp only [hsetter, hmember]

/-- A member that has no getter is read. -/
theorem readProperty_eq (haccepts : p.Accepts m handle block object) (hnames : Peer.Names m handle name)
    (hgetter : p.getters.lookup name = none) (hmember : p.members.get? name = some member) :
    readProperty p host m = (liftM (Op.readMember object member) >>= fun _ => pure 1 :
      Act ScriptError Nat) host m := by
  rw [readProperty, bind_ok (run_lift.trans (haccepts.objectAddress hnames.handle)),
    bind_ok (run_lift.trans (Peer.keyName_ok hnames))]
  simp only [hgetter, hmember]

end Act

namespace Peer

variable {p : Peer} {m m₁ m₂ : Machine} {handle v : Value} {block object : Address} {member : Member}
  {c : Content}

/-- The addresses of the bytes of a member, and of the pointer to its object if the handle holds one. -/
def Concerns (p : Peer) (block object : Address) (member : Member) (a : Address) : Prop :=
  Op.memberAddress object member ≤ a ∧ a < Op.memberAddress object member + member.tag.size ∨
    p.addressing = .byPointer ∧ block ≤ a ∧ a < block + Memory.pointerSize

/-- A member does not overlap the pointer to its object. -/
def Apart (p : Peer) (block object : Address) (member : Member) : Prop :=
  p.addressing = .byPointer → block + Memory.pointerSize ≤ Op.memberAddress object member ∨
    Op.memberAddress object member + member.tag.size ≤ block

/-- There is something at an address where a pointer is found. -/
theorem blockAt?_of_readPointer {memory : Memory} {a : Address} (h : memory.readPointer a ≠ 0) :
    memory.blockAt? a ≠ none := by
  intro hnone
  rw [Memory.readPointer, Memory.read, hnone] at h
  exact h rfl

/-- A handle leads to its object after an assignment to a member that lies apart. -/
theorem Accepts.undisturbed (h : p.Accepts m handle block object) (hm₁ : m₁.Reachable)
    (hassigned : m.Assigned m₁ member.tag (Op.memberAddress object member) c)
    (hapart : p.Apart block object member)
    (hrest : Machine.Undisturbed (p.Concerns block object member) m₁ m₂)
    (haddress : m₂.address? handle = m.address? handle)
    (hsize : m₂.blockSize? handle = m.blockSize? handle) : p.Accepts m₂ handle block object where
  address := haddress.trans h.address
  room size hs := h.room size (hsize ▸ hs)
  inBlock := h.inBlock
  byPointer hp := by
    obtain ⟨hread, hne⟩ := h.byPointer hp
    have hthere := blockAt?_of_readPointer (hread ▸ hne)
    have hfirst : m₁.heap.memory.readPointer block = m.heap.memory.readPointer block :=
      congrArg Bytes.toNat (hassigned.read block _ hthere (hapart hp))
    have hlater : m₂.heap.memory.readPointer block = m₁.heap.memory.readPointer block := by
      refine congrArg Bytes.toNat (hrest.read hm₁ (by decide) (hassigned.blockAt block hthere) ?_)
      intro i hi
      exact .inr ⟨hp, Nat.le_add_right _ _, Nat.add_lt_add_left hi _⟩
    exact ⟨hlater.trans (hfirst.trans hread), hne⟩

/-- What was assigned is still what the bytes of the member mean. -/
theorem content_undisturbed (hm₁ : m₁.Reachable)
    (hthere : m.heap.memory.blockAt? (Op.memberAddress object member) ≠ none)
    (hassigned : m.Assigned m₁ member.tag (Op.memberAddress object member) c)
    (hrest : Machine.Undisturbed (p.Concerns block object member) m₁ m₂) :
    m₂.heap.memory.content? member.tag
      (m₂.heap.memory.read (Op.memberAddress object member) member.tag.size) = some c := by
  have hread : m₂.heap.memory.read (Op.memberAddress object member) member.tag.size =
      m₁.heap.memory.read (Op.memberAddress object member) member.tag.size := by
    apply hrest.read hm₁ member.tag.size_pos (hassigned.blockAt _ hthere)
    intro i hi
    exact .inl ⟨Nat.le_add_right _ _, Nat.add_lt_add_left hi _⟩
  rw [hread, ← hassigned.bytes]
  apply Memory.content?_congr
  intro htag hne
  obtain ⟨b, hb, hbase, id, hid⟩ := hassigned.pinned htag hne
  rw [← hbase]
  exact (hrest.keepsTexts hm₁).readText hm₁.heap_sound.memory
    (hm₁.moves hrest.moves).heap_sound.memory hb hid

end Peer

namespace Machine

variable {m : Machine} {p : Peer} {handle v : Value} {block object : Address} {name : String}
  {member : Member} {b : Block}

/-- A property of a handle is read as it was assigned, up to what its member can hold, however the machine
    went on in between, if only nothing was written over the bytes of the member, the pointer of the handle
    and interned texts. The assignment changes no byte beside the member, and none at all if the value has
    another type. The member must lie in one block that is no interned text, apart from the pointer. -/
theorem Reachable.property_round_trip (hm : m.Reachable) (hlegible : m.Legible)
    (hspace : m.heap.memory.frontier < Value.lightBound) (hnames : Peer.Names m handle name)
    (hv : m.value (.fromBottom 3) = v) (hgenuine : m.Genuine v)
    (haccepts : p.Accepts m handle block object) (hmember : p.members.get? name = some member)
    (hsetter : p.setters.lookup name = none) (hgetter : p.getters.lookup name = none)
    (hspans : m.heap.memory.Spans b (Op.memberAddress object member) member.tag.size)
    (hblock : ∀ id, b.owner ≠ .literal id) (hapart : p.Apart block object member) (host : Host) :
    (m.assigned? v member.tag = none → ∃ e m₁, Act.writeProperty p host m = .error e m₁ ∧
      m₁.heap.memory = m.heap.memory) ∧
    (∀ c, m.assigned? v member.tag = some c → ∃ m₁, Act.writeProperty p host m = .ok 0 m₁ ∧
      m₁.Legible ∧
      (∀ a x, a < Op.memberAddress object member ∨ Op.memberAddress object member + member.tag.size ≤ a →
        m.heap.memory.byte? a = some x → m₁.heap.memory.byte? a = some x) ∧
      ∀ m₂, Undisturbed (p.Concerns block object member) m₁ m₂ → Peer.Names m₂ handle name →
        m₂.address? handle = m.address? handle → m₂.blockSize? handle = m.blockSize? handle →
        ∃ r m₃, Act.readProperty p host m₂ = .ok 1 m₃ ∧ m₃.stack = m₂.stack.push r ∧ m₃.Reads r c) := by
  have hwrite : Act.writeProperty p host m = _ :=
    Act.writeProperty_eq haccepts hnames hsetter hmember
  constructor
  · intro hnone
    obtain ⟨e, m', hbytes, hheap⟩ := Op.memberBytes_refused hv hgenuine hnone
    have hrefused : Op.writeMember object member m = .error e m' := Op.bind_error hbytes
    refine ⟨e, m', ?_, congrArg Heap.memory hheap⟩
    rw [hwrite, Act.run_bind, Act.run_lift, hrefused]
  · intro c hc
    obtain ⟨bytes, m', hbytes, hprepared⟩ :=
      Op.memberBytes_prepared hm hlegible hspace hv hgenuine hc
    have hstored : Op.writeMember object member m =
        .ok ⟨⟩ (m'.written (Op.memberAddress object member) bytes) := Op.bind_ok hbytes
    have hassigned := hprepared.assigned hm.heap_sound.memory hspans hblock
    have hm₁ : (m'.written (Op.memberAddress object member) bytes).Reachable := by
      have hruns := Op.writeMember_lawful object member m
      rw [Op.after_ok hstored] at hruns
      exact hm.runs (hruns hm.framed)
    refine ⟨_, hwrite.trans (Act.bind_ok (Act.run_lift.trans hstored)), hassigned.legible,
      hassigned.outside, ?_⟩
    intro m₂ hrest hnames₂ haddress hsize
    have hthere : m.heap.memory.blockAt? (Op.memberAddress object member) ≠ none := by
      have hat : m.heap.memory.blockAt? (Op.memberAddress object member) = some b :=
        hspans.blockAt? (i := 0) hm.heap_sound.memory member.tag.size_pos
      rw [hat]
      exact Option.some_ne_none b
    have haccepts₂ := haccepts.undisturbed hm₁ hassigned hapart hrest haddress hsize
    obtain ⟨r, m₃, hread, hstack, hreads⟩ := Op.readMember_reads (hm₁.moves hrest.moves).heap_sound
      (Peer.content_undisturbed hm₁ hthere hassigned hrest)
    refine ⟨r, m₃, ?_, hstack, hreads⟩
    rw [Act.readProperty_eq haccepts₂ hnames₂ hgetter hmember]
    exact Act.bind_ok (Act.run_lift.trans hread)

/-! ## A block, and a box that points to itself -/

/-- The properties of an object with one member. -/
def singleMember (member : Member) (addressing : Addressing) : Peer :=
  { members := { members := [member], extent := member.stop }, addressing }

/-- A machine with some values on its stack. -/
def loaded (heap : Heap Native) (values : Array Value) : Machine :=
  { create {} with heap := heap, stack := values }

theorem loaded_reachable {heap : Heap Native} (h : (create {}).heap.Change heap) (values : Array Value) :
    (loaded heap values).Reachable := by
  have hheap : Move (create {}) { create {} with heap } := .change (.heap heap h)
  have hstack : Move { create {} with heap } (loaded heap values) :=
    .change (.stack values (Nat.zero_le _) fun i hi => absurd hi (Nat.not_lt_zero i))
  exact ⟨{}, .tail (.single hheap) hstack⟩

/-- A string of every machine is the name of a property. -/
theorem names_metafield {handle : Value} (hm : m.Named) (hhandle : m.value (.argument 1) = handle)
    (hkey : m.value (.argument 2) = .string Metafield.name.id) : Peer.Names m handle "__name" := by
  refine ⟨hhandle, Metafield.name.id, hkey, ?_⟩
  rw [StringPool.get, hm.names .name, Option.getD_some]
  exact Utf8.decodeLossy_encode _

/-- A number is to be assigned to a byte in the block of a userdata. -/
def labelled : Machine :=
  loaded ((create {}).heap.newUserdata 8).2 #[.userdata 0, .string Metafield.name.id, .int 300]

def labels : Peer := singleMember ⟨"__name", 2, .unsignedChar⟩ .inBlock

theorem labelled_reachable : labelled.Reachable := loaded_reachable (.newUserdata 8) _

/-- The block on the stack outlives a collection. -/
theorem labelled_collected :
    let m₁ := labelled.written 0x5A3C00000002 [44]
    let m₂ := (m₁.intern []).2.cycle.2.2
    Undisturbed (labels.Concerns 0x5A3C00000000 0x5A3C00000000 ⟨"__name", 2, .unsignedChar⟩) m₁ m₂ ∧
      Peer.Names m₂ (.userdata 0) "__name" ∧
      m₂.address? (.userdata 0) = labelled.address? (.userdata 0) ∧
      m₂.blockSize? (.userdata 0) = labelled.blockSize? (.userdata 0) := by
  intro m₁ m₂
  have hm₁ : m₁.Reachable := labelled_reachable.moves (.single (.change (.heap _ (.write _ _))))
  have hinterned : (m₁.intern []).2.Reachable := hm₁.moves (.single (.change (.intern [])))
  have hm₂ : m₂.Reachable := hinterned.moves (.single (.cycle rfl))
  have hkept : (m₁.intern []).2.Kept ⟨.userdata, 0⟩ :=
    .inl (.start (.stack (v := .userdata 0) (by simp [m₁, labelled, loaded, written, intern])) rfl)
  have hu : m₂.heap.userdata? 0 = some { serial := 0, address := 0x5A3C00000000, size := 8 } :=
    userdata?_cycle_of_kept hinterned.heap_sound rfl hkept
  obtain ⟨heap, events, hcycle⟩ := (m₁.intern []).2.cycle_eq
  refine ⟨?_, names_metafield hm₂.named ?_ ?_, ?_, ?_⟩
  · refine (undisturbed_intern _ []).trans (undisturbed_cycle rfl ?_) hm₁
    intro b hb _ _ _
    obtain ⟨b', hb', hbase, -⟩ := hm₂.heap_sound.block hu
    obtain rfl := List.mem_singleton.mp hb
    exact ⟨b', hb', hbase⟩
  · rw [show m₂ = _ from hcycle]
    rfl
  · rw [show m₂ = _ from hcycle]
    rfl
  · rw [address?, hu]
    rfl
  · rw [blockSize?, hu]
    rfl

/-- A host whose functions do nothing. -/
def idleHost : Host := ⟨fun _ => pure 0⟩

/-- A byte holds what is left of the number, also after a collection. -/
theorem labelled_round_trip : ∃ m₁ r m₃, Act.writeProperty labels idleHost labelled = .ok 0 m₁ ∧
    Act.readProperty labels idleHost (m₁.intern []).2.cycle.2.2 = .ok 1 m₃ ∧
    m₃.Reads r (.int 44) := by
  have haccepts : labels.Accepts labelled (.userdata 0) 0x5A3C00000000 0x5A3C00000000 :=
    ⟨rfl, fun size hs => by cases hs; decide, fun _ => rfl, fun h => by cases h⟩
  have hnames : Peer.Names labelled (.userdata 0) "__name" := names_metafield labelled_reachable.named rfl rfl
  have hwritten : Act.writeProperty labels idleHost labelled =
      .ok 0 (labelled.written 0x5A3C00000002 [44]) := by
    rw [Act.writeProperty_eq haccepts hnames rfl rfl]
    rfl
  have hlegible : labelled.Legible := by
    intro b hb id hid
    obtain rfl := List.mem_singleton.mp hb
    cases hid
  have hgenuine : labelled.Genuine (.int 300) :=
    ⟨fun _ h => (by cases h), fun _ h => (by cases h), fun _ h => (by cases h), fun _ h => (by cases h)⟩
  have hspans : labelled.heap.memory.Spans ⟨0x5A3C00000000, .userdata, Array.replicate 8 0⟩
      0x5A3C00000002 1 := ⟨List.mem_singleton_self _, by decide, by decide⟩
  obtain ⟨-, hfits⟩ := labelled_reachable.property_round_trip hlegible (by decide) hnames rfl hgenuine
    haccepts rfl rfl rfl hspans (fun _ h => by cases h) (fun h => by cases h) idleHost
  obtain ⟨m₁, hrun, -, -, hread⟩ := hfits (.int 44) rfl
  rw [hwritten] at hrun
  cases hrun
  obtain ⟨hundisturbed, hnames₂, haddress, hsize⟩ := labelled_collected
  obtain ⟨r, m₃, hrun, -, hreads⟩ := hread _ hundisturbed hnames₂ haddress hsize
  exact ⟨_, r, m₃, hwritten, hrun, hreads⟩

/-- A light handle of a box that points to itself; null is to be assigned to what it points to. -/
def entangled : Machine :=
  loaded { (create {}).heap with memory :=
      ((create {}).heap.memory.allocate (.host "box") (Bytes.ofNat 0x5A3C00000000 8).toArray).2 }
    #[.light 0x5A3C00000000, .string Metafield.name.id, .int 0]

def entanglement : Peer := singleMember ⟨"__name", 0, .unsignedLong⟩ .byPointer

/-- The assignment is made, and the handle leads nowhere afterwards. -/
theorem entangled_property_lost : entangled.Reachable ∧
    entanglement.Accepts entangled (.light 0x5A3C00000000) 0x5A3C00000000 0x5A3C00000000 ∧
    Peer.Names entangled (.light 0x5A3C00000000) "__name" ∧
    entangled.assigned? (entangled.value (.fromBottom 3)) .unsignedLong = some (.int 0) ∧
    ∃ m₁, Act.writeProperty entanglement idleHost entangled = .ok 0 m₁ ∧
      m₁.stack = entangled.stack ∧ m₁.strings = entangled.strings ∧
      Act.readProperty entanglement idleHost m₁ = .error (.ofFault .boxIsNull) m₁ := by
  have hm : entangled.Reachable := loaded_reachable (.allocate _ _) _
  have hnames : Peer.Names entangled (.light 0x5A3C00000000) "__name" := names_metafield hm.named rfl rfl
  have haccepts : entanglement.Accepts entangled (.light 0x5A3C00000000) 0x5A3C00000000 0x5A3C00000000 :=
    ⟨rfl, (fun _ h => by cases h), (fun h => by cases h), fun _ => ⟨by decide, by decide⟩⟩
  have hwritten : Act.writeProperty entanglement idleHost entangled =
      .ok 0 (entangled.written 0x5A3C00000000 (Bytes.ofNat 0 8)) := by
    rw [Act.writeProperty_eq haccepts hnames rfl rfl]
    rfl
  exact ⟨hm, haccepts, hnames, rfl, _, hwritten, rfl, rfl, rfl⟩

end Machine

end ScriptHost
