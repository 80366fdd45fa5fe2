import ScriptHost.Marshal.Directive

/-! # Formats

A format read as a tree: tables hold elements, conditions and pairs have elements below them. Where
a format is malformed the tree has a leaf with the error, and what follows does not matter, because
reading stops there; what stands before the leaf is read first.
-/

namespace ScriptHost

/-- An element of a format. -/
inductive Element where
  /-- A directive that builds one value by itself. -/
  | scalar (d : Directive)
  /-- The elements between two braces. -/
  | table (items : List Element)
  /-- An element that counts only if a condition holds. -/
  | condition (e : Element)
  /-- A key and its value. -/
  | pair (key value : Element)
  /-- Reading fails here. -/
  | bad (e : FormatError)
  deriving Repr, Inhabited

namespace Format

/-- How deep tables may be nested. -/
def maxDepth : Nat := 200

/-- Where an element stands. -/
inductive Role where
  | plain
  | key
  | value
  deriving DecidableEq, Repr

/-- An element with the directives after it. -/
abbrev Parsed (α : Type) (ds : List Directive) := α × { rest : List Directive // rest.length ≤ ds.length }

mutual

/-- The element that starts with the directive `d`, inside so many tables. -/
def element (depth : Nat) (role : Role) (d : Directive) (ds : List Directive) :
    Parsed Element ds :=
  match d with
  | .openTable =>
      if maxDepth ≤ depth then (.bad .tooDeep, ⟨ds, Nat.le_refl _⟩)
      else
        let (es, rest) := items (depth + 1) ds
        (.table es, rest)
  | .closeTable => (.bad .unopenedTable, ⟨ds, Nat.le_refl _⟩)
  | .condition =>
      match role with
      | .key => (.bad .conditionalKey, ⟨ds, Nat.le_refl _⟩)
      | .value => (.bad .conditionalValue, ⟨ds, Nat.le_refl _⟩)
      | .plain =>
          match ds with
          | [] => (.condition (.bad .unfinishedCondition), ⟨[], Nat.le_refl _⟩)
          | d :: rest =>
              if d = .closeTable then
                let e := if depth = 0 then .unopenedTable else .unfinishedCondition
                (.condition (.bad e), ⟨rest, Nat.le_succ _⟩)
              else
                let (e, ⟨rest', h⟩) := element depth .plain d rest
                (.condition e, ⟨rest', Nat.le_succ_of_le h⟩)
  | .key =>
      if depth = 0 then (.bad .keyOutsideTable, ⟨ds, Nat.le_refl _⟩)
      else if role ≠ .plain then (.bad .nestedKey, ⟨ds, Nat.le_refl _⟩)
      else
        match ds with
        | [] => (.bad .missingKey, ⟨[], Nat.le_refl _⟩)
        | d :: rest =>
            if d = .closeTable then (.bad .missingKey, ⟨rest, Nat.le_succ _⟩)
            else
              let (key, ⟨afterKey, hk⟩) := element depth .key d rest
              match afterKey, hk with
              | [], _ => (.pair key (.bad .missingValue), ⟨[], Nat.zero_le _⟩)
              | d' :: rest', hk =>
                  if d' = .closeTable then
                    (.pair key (.bad .missingValue), ⟨rest', by simp at hk ⊢; omega⟩)
                  else
                    let (value, ⟨rest'', hv⟩) := element depth .value d' rest'
                    (.pair key value, ⟨rest'', by simp at hk ⊢; omega⟩)
  | .unknown _ => (.bad .badType, ⟨ds, Nat.le_refl _⟩)
  | d => (.scalar d, ⟨ds, Nat.le_refl _⟩)
termination_by 2 * ds.length + 1
decreasing_by all_goals simp_wf; try (simp at *; omega)

/-- The elements up to the closing brace of the table that they are in. -/
def items (depth : Nat) (ds : List Directive) : Parsed (List Element) ds :=
  match ds with
  | [] => ([.bad .unclosedTable], ⟨[], Nat.le_refl _⟩)
  | d :: rest =>
      if d = .closeTable then ([], ⟨rest, Nat.le_succ _⟩)
      else
        let (e, ⟨rest', h⟩) := element depth .plain d rest
        let (es, ⟨rest'', h'⟩) := items depth rest'
        (e :: es, ⟨rest'', by simp; omega⟩)
termination_by 2 * ds.length
decreasing_by all_goals simp_wf; try omega

end

/-- The elements of a whole format. -/
def elements (ds : List Directive) : List Element :=
  match ds with
  | [] => []
  | d :: rest =>
      let (e, ⟨rest', _⟩) := element 0 .plain d rest
      e :: elements rest'
termination_by ds.length
decreasing_by simp_wf; omega

end Format

end ScriptHost
