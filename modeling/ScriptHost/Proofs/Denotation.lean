import Mathlib.Data.List.AList
import Mathlib.Data.List.Perm.Subperm
import Mathlib.Data.Nat.Find
import Mathlib.Tactic.Common
import ScriptHost.Marshal.Reader
import ScriptHost.Proofs.Format

/-! # What formats denote

A reference for marshaling that knows no stack and no heap. A format with its arguments denotes data;
the functions and tables that it makes are known by number, in the order of their making. A table is
a finite map, built from left to right from the empty one.
-/

namespace ScriptHost

/-- What a value denotes. -/
inductive Datum where
  | nil
  | bool (b : Bool)
  | int (i : Int)
  | number (d : Double)
  | text (bytes : Bytes)
  | light (a : Address)
  /-- A function or table that was made. -/
  | object (id : Nat)
  deriving DecidableEq, Repr, Inhabited

/-- The key that a datum names: an integral number names the integer, nil and NaN name none. -/
def Datum.key? : Datum → Option Datum
  | .nil => none
  | .number d =>
      if d.isNaN then none
      else match d.toInt64? with
        | some i => some (.int i)
        | none => some (.number d)
  | x => some x

theorem Datum.eq_of_key?_object {x : Datum} {id : Nat} (h : x.key? = some (.object id)) :
    x = .object id := by
  cases x with
  | nil => cases h
  | number d =>
      rw [key?] at h
      split at h
      · cases h
      · split at h <;> cases h
  | bool | int | text | light | object => exact Option.some.inj h

/-- The contents of a table. -/
abbrev Entries := AList fun _ : Datum => Datum

namespace Entries

variable (es : Entries)

/-- The largest number such that all keys from 1 up to it are present. There are no more such keys
    than keys. -/
def border : Nat :=
  Nat.findGreatest (fun m => ∀ j < m, (es.lookup (.int (j + 1 : Nat))).isSome = true) es.keys.length

/-- Stores at the key after the border; nil adds nothing. -/
def append (x : Datum) : Entries :=
  if x = .nil then es else es.insert (.int (es.border + 1 : Nat)) x

/-- Whether an object is a key or a value. -/
def Mentions (id : Nat) : Prop :=
  (es.lookup (.object id)).isSome = true ∨ ∃ k, es.lookup k = some (.object id)

variable {es} {k x : Datum} {id : Nat}

theorem not_mentions_empty : ¬ Mentions ∅ id := by
  simp [Mentions]

theorem mentions_insert (h : Mentions (es.insert k x) id) :
    es.Mentions id ∨ k = .object id ∨ x = .object id := by
  rcases h with hkey | ⟨k', hvalue⟩
  · by_cases hk : k = .object id
    · exact .inr (.inl hk)
    · rw [AList.lookup_insert_ne (Ne.symm hk)] at hkey
      exact .inl (.inl hkey)
  · by_cases hk : k' = k
    · subst hk
      rw [AList.lookup_insert] at hvalue
      exact .inr (.inr (Option.some.inj hvalue))
    · rw [AList.lookup_insert_ne hk] at hvalue
      exact .inl (.inr ⟨k', hvalue⟩)

theorem mentions_append (h : Mentions (es.append x) id) : es.Mentions id ∨ x = .object id := by
  unfold append at h
  split at h
  · exact .inl h
  · rcases mentions_insert h with h | h | h
    · exact .inl h
    · cases h
    · exact .inr h

/-- Keys from 1 on that are present are keys. -/
theorem le_length_keys {n : Nat}
    (hpresent : ∀ j < n, (es.lookup (.int (j + 1 : Nat))).isSome = true) : n ≤ es.keys.length := by
  have hsub : (List.range n).map (fun j => Datum.int (j + 1 : Nat)) ⊆ es.keys := by
    intro k hk
    obtain ⟨j, hj, rfl⟩ := List.mem_map.mp hk
    exact AList.mem_keys.mp (AList.lookup_isSome.mp (hpresent j (List.mem_range.mp hj)))
  have hnodup : ((List.range n).map fun j => Datum.int (j + 1 : Nat)).Nodup :=
    List.nodup_range.map fun i j h => by
      have := Datum.int.inj h
      omega
  simpa using (List.subperm_of_subset hnodup hsub).length_le

/-- The border is known by the keys up to it, which are present, and the one after it, which is not. -/
theorem border_eq {n : Nat} (hpresent : ∀ j < n, (es.lookup (.int (j + 1 : Nat))).isSome = true)
    (hnext : es.lookup (.int (n + 1 : Nat)) = none) : es.border = n := by
  rw [border, Nat.findGreatest_eq_iff]
  refine ⟨le_length_keys hpresent, fun _ => hpresent, fun m hlt _ hm => ?_⟩
  have h := hm n hlt
  rw [hnext] at h
  cases h

end Entries

/-- A function or table that was made. -/
inductive Made where
  | function (code : NativeCode)
  | table (entries : Entries)
  deriving Inhabited

/-- The arguments that are left and what was made so far, by number. -/
structure Supply where
  args : List Argument
  made : List Made := []

/-- What an element adds to the stack or to the table that it stands in. -/
inductive Contribution where
  | nothing
  | value (x : Datum)
  | entry (key value : Datum)
  deriving DecidableEq, Repr

/-- A key, which must be one, and a value, which must not be nil, make an entry. -/
def Contribution.pair : Contribution → Contribution → Option Contribution
  | .value k, .value v => if v = .nil then none else k.key?.map fun k => .entry k v
  | .nothing, .nothing => some .nothing
  | _, _ => none

/-- Adds to a map. -/
def Entries.add (es : Entries) : Contribution → Entries
  | .nothing => es
  | .value x => es.append x
  | .entry key value => es.insert key value

/-- Adds to the table of a number. -/
def Supply.contribute (σ : Supply) (id : Nat) (c : Contribution) : Supply :=
  { σ with made := σ.made.modify id fun
      | .table es => .table (es.add c)
      | what => what }

theorem Supply.contribute_nothing (σ : Supply) (id : Nat) : σ.contribute id .nothing = σ := by
  have hsame : (fun | .table es => .table (es.add .nothing) | what => what : Made → Made) =
      fun what => what := by
    funext what
    cases what <;> rfl
  rw [contribute, hsame]
  exact congrArg (Supply.mk σ.args) (List.modify_id id σ.made)

theorem Supply.made_contribute {σ : Supply} {id : Nat} {es : Entries} {c : Contribution}
    (hes : σ.made[id]? = some (.table es)) :
    (σ.contribute id c).made = σ.made.set id (.table (es.add c)) := by
  rw [contribute, List.modify_eq_set_getElem?, hes]
  rfl

namespace Directive

/-- The datum of a directive with the arguments after it. -/
def take : Directive → List Argument → Option (Datum × List Argument)
  | .boolean, .bool b :: args => some (.bool b, args)
  | .constTrue, args => some (.bool true, args)
  | .constFalse, args => some (.bool false, args)
  | .integer, .int i :: args => some (.int i, args)
  | .number, .number d :: args => some (.number d.canonical, args)
  | .number, .int i :: args => some (.number (Double.ofInt i).canonical, args)
  | .text, .text s :: args => some (.text (Utf8.encode s), args)
  | .light, .pointer a :: args => some (if a = 0 then .nil else .light a, args)
  | .lightNonNull, .pointer a :: args => some (if a = 0 then .nil else .light a, args)
  | .nil, args => some (.nil, args)
  | _, _ => none

/-- The same, directive by directive. -/
inductive Takes (rest : List Argument) : Directive → List Argument → Datum → Prop where
  | boolean (b) : Takes rest .boolean (.bool b :: rest) (.bool b)
  | constTrue : Takes rest .constTrue rest (.bool true)
  | constFalse : Takes rest .constFalse rest (.bool false)
  | integer (i) : Takes rest .integer (.int i :: rest) (.int i)
  | number (d) : Takes rest .number (.number d :: rest) (.number d.canonical)
  | numberInt (i) : Takes rest .number (.int i :: rest) (.number (Double.ofInt i).canonical)
  | text (s) : Takes rest .text (.text s :: rest) (.text (Utf8.encode s))
  | light (a) : Takes rest .light (.pointer a :: rest) (if a = 0 then .nil else .light a)
  | lightNonNull (a) :
      Takes rest .lightNonNull (.pointer a :: rest) (if a = 0 then .nil else .light a)
  | nil : Takes rest .nil rest .nil

theorem takes {d : Directive} {args rest : List Argument} {x : Datum}
    (h : d.take args = some (x, rest)) : Takes rest d args x := by
  unfold take at h
  split at h <;> cases h <;> constructor

/-- Whether a directive can build a datum: light handles have a largest address, and may have to be
    other than null. -/
def admits : Directive → Datum → Bool
  | .lightNonNull, .nil => false
  | _, .light a => a < Value.lightBound
  | _, _ => true

/-- What a directive that builds one value contributes; it takes its argument even where a condition
    suppresses it. -/
def denote (live : Bool) (d : Directive) (σ : Supply) : Option (Contribution × Supply) :=
  match d, σ.args with
  | .function, .function code :: args =>
      if live then some (.value (.object σ.made.length), ⟨args, σ.made ++ [.function code]⟩)
      else some (.nothing, { σ with args })
  | d, args =>
      match d.take args with
      | none => none
      | some (x, args) =>
          if !live then some (.nothing, { σ with args })
          else if d.admits x then some (.value x, { σ with args })
          else none

/-- What a directive contributes is a new function, or the datum of its argument; nothing where it is
    suppressed. -/
theorem denote_cases {live : Bool} {d : Directive} {σ τ : Supply} {c : Contribution}
    (h : d.denote live σ = some (c, τ)) :
    (∃ code args, d = .function ∧ σ.args = .function code :: args ∧
      (live = false ∧ c = .nothing ∧ τ = { σ with args } ∨
        live = true ∧ c = .value (.object σ.made.length) ∧
          τ = ⟨args, σ.made ++ [.function code]⟩)) ∨
    ∃ x args, Takes args d σ.args x ∧ τ = { σ with args } ∧
      (live = false ∧ c = .nothing ∨ live = true ∧ d.admits x = true ∧ c = .value x) := by
  unfold denote at h
  split at h
  · rename_i code args hargs
    refine .inl ⟨code, args, rfl, hargs, ?_⟩
    cases live with
    | true =>
        cases h
        exact .inr ⟨rfl, rfl, rfl⟩
    | false =>
        cases h
        exact .inl ⟨rfl, rfl, rfl⟩
  · split at h
    · cases h
    · rename_i x args htake
      refine .inr ⟨x, args, takes htake, ?_⟩
      cases live with
      | false =>
          cases h
          exact ⟨rfl, .inl ⟨rfl, rfl⟩⟩
      | true =>
          simp only [Bool.not_true, Bool.false_eq_true, if_false] at h
          split at h
          · rename_i hadmits
            cases h
            exact ⟨rfl, .inr ⟨rfl, hadmits, rfl⟩⟩
          · cases h

end Directive

namespace Element

/-- Constant nil and NaN are refused as keys, even where a condition suppresses them. -/
def isRefused : Element → List Argument → Bool
  | .scalar .nil, _ => true
  | .scalar d, args =>
      match d.take args with
      | some (.number d, _) => d.isNaN
      | _ => false
  | _, _ => false

mutual

/-- What an element contributes. -/
def denote (live : Bool) : Element → Supply → Option (Contribution × Supply)
  | .scalar d, σ => d.denote live σ
  | .table es, σ =>
      if live then
        -- A table of its own, which starts empty.
        (denoteItems true σ.made.length es { σ with made := σ.made ++ [.table ∅] }).map
          fun τ => (.value (.object σ.made.length), τ)
      else (denoteItems false 0 es σ).map fun τ => (.nothing, τ)
  | .condition e, σ =>
      match σ.args with
      | .bool b :: args => e.denote (live && b) { σ with args }
      | _ => none
  | .pair key value, σ =>
      if key.isRefused σ.args then none
      else
        match key.denote live σ with
        | none => none
        | some (k, τ) =>
            match value.denote live τ with
            | none => none
            | some (v, υ) => (Contribution.pair k v).map fun c => (c, υ)
  | .bad _, _ => none

/-- Elements add one after another to the table of a number. -/
def denoteItems (live : Bool) (id : Nat) : List Element → Supply → Option Supply
  | [], σ => some σ
  | e :: es, σ =>
      match e.denote live σ with
      | none => none
      | some (c, τ) => denoteItems live id es (τ.contribute id c)

end

/-- The data that elements outside of tables denote. -/
def denoteAll : List Element → Supply → Option (List Datum × Supply)
  | [], σ => some ([], σ)
  | e :: es, σ =>
      match e.denote true σ with
      | some (.nothing, τ) => denoteAll es τ
      | some (.value x, τ) => (denoteAll es τ).map fun (xs, υ) => (x :: xs, υ)
      | _ => none

end Element

end ScriptHost
