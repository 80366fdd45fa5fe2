import Mathlib.Tactic.Common
import ScriptHost.Marshal.Format

/-! # Formats

What the parser makes of directives is a relation with a case for each outcome. Where a format pairs a key
and a value, neither is a condition or a pair. The directives of well-formed elements are read as these
elements.
-/

namespace ScriptHost

namespace Directive

/-- Whether a directive builds one value by itself. -/
def isScalar : Directive → Bool
  | .openTable | .closeTable | .condition | .key | .unknown _ => false
  | .slotFromStart | .slotFromTop | .boolean | .constTrue | .constFalse | .function | .integer
  | .number | .text | .light | .lightNonNull | .nil | .global => true

end Directive

namespace Element

/-- Whether an element may be the key or the value of a pair. -/
def isOperand : Element → Bool
  | .scalar _ | .table _ | .bad _ => true
  | .condition _ | .pair _ _ => false

/-- Keys and values are operands. -/
inductive Regular : Element → Prop where
  | scalar (d) : Regular (.scalar d)
  | table {es} : (∀ e ∈ es, Regular e) → Regular (.table es)
  | condition {e} : Regular e → Regular (.condition e)
  | pair {key value} : key.isOperand → value.isOperand → Regular key → Regular value →
      Regular (.pair key value)
  | bad (e) : Regular (.bad e)

/-- An element of a format, inside of a table or not: its scalars are directives of the format, and
    pairs stand in tables. -/
inductive Within (format : List Directive) : Bool → Element → Prop where
  | scalar {inside d} : d.isScalar = true → d ∈ format → Within format inside (.scalar d)
  | table {inside es} : (∀ e ∈ es, Within format true e) → Within format inside (.table es)
  | condition {inside e} : Within format inside e → Within format inside (.condition e)
  | pair {key value} : key.isOperand = true → value.isOperand = true → Within format false key →
      Within format false value → Within format true (.pair key value)
  | bad {inside} (e) : Within format inside (.bad e)

/-- Operands may stand anywhere. -/
theorem Within.operand {format : List Directive} {inside inside' : Bool} {e : Element}
    (h : e.Within format inside) (he : e.isOperand = true) : e.Within format inside' := by
  cases h with
  | scalar hd hmem => exact .scalar hd hmem
  | table hes => exact .table hes
  | bad e => exact .bad e
  | condition | pair => cases he

theorem Within.regular {format : List Directive} {inside : Bool} {e : Element}
    (h : e.Within format inside) : e.Regular := by
  induction h with
  | scalar => exact .scalar _
  | table _ ih => exact .table ih
  | condition _ ih => exact .condition ih
  | pair hkey hvalue _ _ ihkey ihvalue => exact .pair hkey hvalue ihkey ihvalue
  | bad e => exact .bad e

end Element

namespace Format

open Element (Regular Within)

/-! ## What the parser makes of directives -/

mutual

/-- What the parser makes of a directive and those after it, inside so many tables, and what it leaves. -/
inductive Parses : Nat → Role → Directive → List Directive → Element → List Directive → Prop where
  | scalar {depth role d ds} : d.isScalar = true → Parses depth role d ds (.scalar d) ds
  | table {depth role ds es rest} : depth < maxDepth → ParsesItems (depth + 1) ds es rest →
      Parses depth role .openTable ds (.table es) rest
  | condition {depth d ds e rest} : Parses depth .plain d ds e rest →
      Parses depth .plain .condition (d :: ds) (.condition e) rest
  | pair {depth d d' ds ds' key value rest} : 0 < depth → Parses depth .key d ds key (d' :: ds') →
      Parses depth .value d' ds' value rest → Parses depth .plain .key (d :: ds) (.pair key value) rest
  /-- An error stands for the whole element, for what a condition decides on or for the value of a pair. -/
  | bad {depth role d ds rest} (e : FormatError) : rest <:+ ds → Parses depth role d ds (.bad e) rest
  | unfinished {depth ds rest} (e : FormatError) : rest <:+ ds →
      Parses depth .plain .condition ds (.condition (.bad e)) rest
  | valueless {depth d ds key after rest} (e : FormatError) : 0 < depth → Parses depth .key d ds key after →
      rest <:+ after → Parses depth .plain .key (d :: ds) (.pair key (.bad e)) rest

/-- The elements up to a closing brace, which may be missing. -/
inductive ParsesItems : Nat → List Directive → List Element → List Directive → Prop where
  | closed {depth ds} : ParsesItems depth (.closeTable :: ds) [] ds
  | unclosed {depth} (e : FormatError) : ParsesItems depth [] [.bad e] []
  | cons {depth d ds e es after rest} : Parses depth .plain d ds e after → ParsesItems depth after es rest →
      ParsesItems depth (d :: ds) (e :: es) rest

end

/-- The elements of a whole format. -/
inductive ParsesAll : List Directive → List Element → Prop where
  | nil : ParsesAll [] []
  | cons {d ds e after es} : Parses 0 .plain d ds e after → ParsesAll after es → ParsesAll (d :: ds) (e :: es)

mutual

theorem parses_element (depth : Nat) (role : Role) (d : Directive) (ds : List Directive) :
    Parses depth role d ds (element depth role d ds).1 (element depth role d ds).2.1 := by
  cases d with
  | openTable =>
      rw [element]
      split
      · exact .bad _ (List.suffix_refl ds)
      · rename_i hdepth
        exact .table (Nat.lt_of_not_le hdepth) (parses_items (depth + 1) ds)
  | condition =>
      cases role with
      | key | value =>
          rw [element]
          exact .bad _ (List.suffix_refl ds)
      | plain =>
          rw [element.eq_def]
          dsimp only
          cases ds with
          | nil => exact .unfinished _ (List.suffix_refl [])
          | cons d rest =>
              dsimp only
              split
              · exact .unfinished _ (List.suffix_cons d rest)
              · exact .condition (parses_element depth .plain d rest)
  | key =>
      rw [element.eq_def]
      dsimp only
      split
      · exact .bad _ (List.suffix_refl ds)
      · rename_i hdepth
        have hinside := Nat.pos_of_ne_zero hdepth
        split
        · exact .bad _ (List.suffix_refl ds)
        · rename_i hplain
          obtain rfl : role = .plain := not_not.mp hplain
          cases ds with
          | nil => exact .bad _ (List.suffix_refl [])
          | cons d rest =>
              dsimp only
              split
              · exact .bad _ (List.suffix_cons d rest)
              · have hkey := parses_element depth .key d rest
                rcases hparsed : element depth .key d rest with ⟨key, afterKey, hk⟩
                rw [hparsed] at hkey
                cases afterKey with
                | nil => exact .valueless _ hinside hkey (List.suffix_refl [])
                | cons d' rest' =>
                    have hlt : rest'.length < rest.length := hk
                    dsimp only
                    split
                    · exact .valueless _ hinside hkey (List.suffix_cons d' rest')
                    · exact .pair hinside hkey (parses_element depth .value d' rest')
  | closeTable | unknown =>
      rw [element]
      exact .bad _ (List.suffix_refl ds)
  | slotFromStart | slotFromTop | boolean | constTrue | constFalse | function | integer | number
  | text | light | lightNonNull | nil | global =>
      rw [element.eq_def]
      exact .scalar rfl
termination_by 2 * ds.length + 1
decreasing_by all_goals (subst_vars; simp_wf; try omega)

theorem parses_items (depth : Nat) (ds : List Directive) :
    ParsesItems depth ds (items depth ds).1 (items depth ds).2.1 := by
  cases ds with
  | nil =>
      rw [items]
      exact .unclosed _
  | cons d rest =>
      rw [items]
      split
      · rename_i hclose
        rw [hclose]
        exact .closed
      · have hfirst := parses_element depth .plain d rest
        rcases hparsed : element depth .plain d rest with ⟨e, rest', hle⟩
        rw [hparsed] at hfirst
        exact .cons hfirst (parses_items depth rest')
termination_by 2 * ds.length
decreasing_by all_goals (subst_vars; simp_wf; try omega)

end

theorem parses_elements (ds : List Directive) : ParsesAll ds (elements ds) := by
  cases ds with
  | nil =>
      rw [elements]
      exact .nil
  | cons d rest =>
      rw [elements]
      have hfirst := parses_element 0 .plain d rest
      rcases hparsed : element 0 .plain d rest with ⟨e, rest', hle⟩
      rw [hparsed] at hfirst
      exact .cons hfirst (parses_elements rest')
termination_by ds.length
decreasing_by subst_vars; simp_wf; omega

/-! ## What stands where -/

section

variable {depth : Nat} {role : Role} {d : Directive} {ds rest : List Directive} {e : Element} {es : List Element}

/-- Keys and values are operands. -/
theorem Parses.isOperand (h : Parses depth role d ds e rest) (hrole : role ≠ .plain) : e.isOperand = true := by
  cases h with
  | scalar | table | bad => rfl
  | condition | pair | unfinished | valueless => exact absurd rfl hrole

mutual

theorem Parses.suffix {depth : Nat} {role : Role} {d : Directive} {ds rest : List Directive} {e : Element}
    (h : Parses depth role d ds e rest) : rest <:+ ds := by
  cases h with
  | scalar => exact List.suffix_refl ds
  | table _ hitems => exact hitems.suffix
  | condition he => exact he.suffix.trans (List.suffix_cons _ _)
  | pair _ hkey hvalue =>
      exact hvalue.suffix.trans ((List.suffix_cons _ _).trans (hkey.suffix.trans (List.suffix_cons _ _)))
  | bad _ h | unfinished _ h => exact h
  | valueless _ _ hkey h => exact h.trans (hkey.suffix.trans (List.suffix_cons _ _))
termination_by sizeOf e

theorem ParsesItems.suffix {depth : Nat} {ds rest : List Directive} {es : List Element}
    (h : ParsesItems depth ds es rest) : rest <:+ ds := by
  cases h with
  | closed => exact List.suffix_cons _ _
  | unclosed => exact List.suffix_refl []
  | cons he hes => exact hes.suffix.trans (he.suffix.trans (List.suffix_cons _ _))
termination_by sizeOf es

end

theorem Parses.subset {format : List Directive} (h : Parses depth role d ds e rest) (hin : d :: ds ⊆ format) :
    rest ⊆ format := List.Subset.trans h.suffix.subset (List.subset_of_cons_subset hin)

mutual

theorem Parses.within {depth : Nat} {role : Role} {d : Directive} {ds rest format : List Directive} {e : Element}
    (h : Parses depth role d ds e rest) (hin : d :: ds ⊆ format) : e.Within format (decide (0 < depth)) := by
  have hds : ds ⊆ format := List.subset_of_cons_subset hin
  cases h with
  | scalar hd => exact .scalar hd (hin List.mem_cons_self)
  | table _ hitems => exact .table (hitems.within (Nat.zero_lt_succ depth) hds)
  | condition he => exact .condition (he.within hds)
  | pair hinside hkey hvalue =>
      have hkey' := hkey.isOperand (fun h => by cases h)
      have hvalue' := hvalue.isOperand (fun h => by cases h)
      have hafter := hkey.subset hds
      rw [decide_eq_true hinside]
      exact .pair hkey' hvalue' ((hkey.within hds).operand hkey') ((hvalue.within hafter).operand hvalue')
  | bad e => exact .bad e
  | unfinished e => exact .condition (.bad e)
  | valueless e hinside hkey =>
      have hkey' := hkey.isOperand (fun h => by cases h)
      rw [decide_eq_true hinside]
      exact .pair hkey' rfl ((hkey.within hds).operand hkey') (.bad e)
termination_by sizeOf e

theorem ParsesItems.within {depth : Nat} {ds rest format : List Directive} {es : List Element}
    (h : ParsesItems depth ds es rest) (hdepth : 0 < depth) (hds : ds ⊆ format) :
    ∀ e ∈ es, e.Within format true := by
  cases h with
  | closed => simp
  | unclosed e => exact fun e' he' => List.mem_singleton.mp he' ▸ .bad e
  | cons he hes =>
      have hfirst := he.within hds
      rw [decide_eq_true hdepth] at hfirst
      have hafter := he.subset hds
      exact List.forall_mem_cons.mpr ⟨hfirst, hes.within hdepth hafter⟩
termination_by sizeOf es

end

theorem ParsesAll.within {format : List Directive} (h : ParsesAll ds es) (hds : ds ⊆ format) :
    ∀ e ∈ es, e.Within format false := by
  induction h with
  | nil => simp
  | cons he _ ih =>
      have hafter := he.subset hds
      exact List.forall_mem_cons.mpr ⟨he.within hds, ih hafter⟩

theorem elements_within (ds : List Directive) {format : List Directive} (hds : ds ⊆ format) :
    ∀ e ∈ elements ds, e.Within format false := (parses_elements ds).within hds

theorem elements_regular (ds : List Directive) : ∀ e ∈ elements ds, e.Regular :=
  fun e he => (elements_within ds (List.Subset.refl ds) e he).regular

end

end Format

/-! ## Well-formed elements -/

namespace Element

mutual

/-- The directives of an element. -/
def directives : Element → List Directive
  | .scalar d => [d]
  | .table es => .openTable :: (listDirectives es ++ [.closeTable])
  | .condition e => .condition :: e.directives
  | .pair key value => .key :: (key.directives ++ value.directives)
  | .bad _ => []

/-- The directives of elements one after another. -/
def listDirectives : List Element → List Directive
  | [] => []
  | e :: es => e.directives ++ listDirectives es

end

open Format (Role maxDepth)

/-- An element that may stand inside so many tables: pairs stand in tables, and their keys and values
    are scalars or tables. -/
inductive WellFormed : Nat → Role → Element → Prop where
  | scalar {depth role d} : d.isScalar = true → WellFormed depth role (.scalar d)
  | table {depth role es} : depth < maxDepth → (∀ e ∈ es, WellFormed (depth + 1) .plain e) →
      WellFormed depth role (.table es)
  | condition {depth e} : WellFormed depth .plain e → WellFormed depth .plain (.condition e)
  | pair {depth key value} : 0 < depth → WellFormed depth .key key → WellFormed depth .value value →
      WellFormed depth .plain (.pair key value)

end Element

namespace Format

open Element

/-- A parser gave an element and left these directives. -/
def Reads {ds : List Directive} {α : Type} (parsed : Parsed α ds) (x : α) (rest : List Directive) :
    Prop := parsed.1 = x ∧ parsed.2.1 = rest

theorem reads_scalar {depth : Nat} {role : Role} {d : Directive} (hd : d.isScalar = true)
    (rest : List Directive) : Reads (element depth role d rest) (.scalar d) rest := by
  cases d with
  | openTable | closeTable | condition | key | unknown => cases hd
  | slotFromStart | slotFromTop | boolean | constTrue | constFalse | function | integer | number
  | text | light | lightNonNull | nil | global =>
      rw [element.eq_def]
      exact ⟨rfl, rfl⟩

mutual
theorem reads_element {depth : Nat} {role : Role} {e : Element} (he : e.WellFormed depth role)
    (rest : List Directive) : ∃ d ds, e.directives = d :: ds ∧ d ≠ .closeTable ∧
      Reads (element depth role d (ds ++ rest)) e rest := by
  cases e with
  | scalar d =>
      cases he with
      | scalar hd =>
          refine ⟨d, [], by rw [directives], ?_, reads_scalar hd rest⟩
          rintro rfl
          cases hd
  | table es =>
      cases he with
      | table hdepth hes =>
          refine ⟨.openTable, _, by rw [directives], nofun, ?_⟩
          rw [List.append_assoc, element, if_neg (Nat.not_le.mpr hdepth)]
          obtain ⟨hitems, hrest⟩ := reads_items hes rest
          rw [List.singleton_append]
          exact ⟨congrArg Element.table hitems, hrest⟩
  | condition e =>
      cases he with
      | condition he =>
          obtain ⟨d, ds, hds, hopen, helement, hrest⟩ := reads_element he rest
          refine ⟨.condition, _, by rw [directives], nofun, ?_⟩
          rw [hds, List.cons_append, element.eq_def]
          dsimp only
          rw [if_neg hopen]
          exact ⟨congrArg Element.condition helement, hrest⟩
  | pair key value =>
      cases he with
      | pair hdepth hkey hvalue =>
          obtain ⟨d', ds', hds', hopen', hvalue, hrest⟩ := reads_element hvalue rest
          obtain ⟨d, ds, hds, hopen, hkey, hafter⟩ := reads_element hkey (d' :: ds' ++ rest)
          refine ⟨.key, _, by rw [directives], nofun, ?_⟩
          rw [hds, hds', List.append_assoc, List.cons_append, element.eq_def]
          dsimp only
          rw [if_neg (Nat.ne_of_gt hdepth), if_neg (not_not.mpr rfl), if_neg hopen]
          rcases hparsed : element depth .key d (ds ++ (d' :: ds' ++ rest)) with ⟨key', afterKey, hk⟩
          rw [hparsed] at hkey hafter
          obtain rfl : key' = key := hkey
          obtain rfl : afterKey = d' :: ds' ++ rest := hafter
          dsimp only [List.cons_append]
          rw [if_neg hopen']
          exact ⟨congrArg (Element.pair key') hvalue, hrest⟩
  | bad e => cases he
termination_by sizeOf e

theorem reads_items {depth : Nat} {es : List Element} (hes : ∀ e ∈ es, e.WellFormed depth .plain)
    (rest : List Directive) :
    Reads (items depth (listDirectives es ++ .closeTable :: rest)) es rest := by
  cases es with
  | nil =>
      rw [listDirectives, List.nil_append, items]
      exact ⟨rfl, rfl⟩
  | cons e es =>
      obtain ⟨d, ds, hds, hopen, helement, hafter⟩ := reads_element (hes e List.mem_cons_self)
        (listDirectives es ++ .closeTable :: rest)
      have hrest := reads_items (fun e he => hes e (List.mem_cons_of_mem _ he)) rest
      rw [listDirectives, hds, List.append_assoc, List.cons_append, items, if_neg hopen]
      rcases hparsed : element depth .plain d
        (ds ++ (listDirectives es ++ .closeTable :: rest)) with ⟨e', rest', hle⟩
      rw [hparsed] at helement hafter
      obtain rfl : e' = e := helement
      obtain rfl : rest' = listDirectives es ++ .closeTable :: rest := hafter
      exact ⟨congrArg (e' :: ·) hrest.1, hrest.2⟩
termination_by sizeOf es
end

/-- Well-formed elements are read back from their directives. -/
theorem elements_listDirectives {es : List Element} (hes : ∀ e ∈ es, e.WellFormed 0 .plain) :
    elements (listDirectives es) = es := by
  induction es with
  | nil => rw [listDirectives, elements]
  | cons e es ih =>
      obtain ⟨d, ds, hds, -, helement, hafter⟩ := reads_element (hes e List.mem_cons_self)
        (listDirectives es)
      have hrest := ih fun e he => hes e (List.mem_cons_of_mem _ he)
      rw [listDirectives, hds, List.cons_append, elements]
      rcases hparsed : element 0 .plain d (ds ++ listDirectives es) with ⟨e', rest', hle⟩
      rw [hparsed] at helement hafter
      obtain rfl : e' = e := helement
      obtain rfl : rest' = listDirectives es := hafter
      exact congrArg (e' :: ·) hrest

end Format

end ScriptHost
