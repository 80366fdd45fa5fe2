import Mathlib.Data.List.Forall2
import Mathlib.Tactic.Common
import ScriptHost.Marshal.Reader
import ScriptHost.Proofs.Format

/-! # The grammar of formats

A format whose elements have no leaf with an error is a row of well-formed elements, and is made of
their directives. Whether arguments fit well-formed elements can be said without reading anything: there
are enough of them, each of the kind that its directive takes, and every scalar is admissible where
it stands.
-/

namespace ScriptHost

namespace Directive

/-- Whether what a directive builds depends on its argument alone. -/
def isSelfContained : Directive → Bool
  | .slotFromStart | .slotFromTop | .global => false
  | _ => true

/-- Whether an argument is of the kind that a directive takes. -/
def accepts : Directive → Argument → Bool
  | .slotFromStart, .int _ | .slotFromStart, .index _ | .slotFromTop, .int _ | .slotFromTop, .index _
  | .boolean, .bool _ | .condition, .bool _ | .function, .function _ | .integer, .int _
  | .number, .number _ | .number, .int _ | .text, .text _ | .global, .text _
  | .light, .pointer _ | .lightNonNull, .pointer _ => true
  | _, _ => false

end Directive

/-- Arguments suffice for directives: those that take one find one of their kind, in their order. -/
def Supplies (args : List Argument) (ds : List Directive) : Prop :=
  ∃ used rest, args = used ++ rest ∧
    List.Forall₂ (fun d a => d.accepts a = true) (ds.filter Directive.takesArgument) used

/-- A scalar where it stands, with the argument that it takes. -/
structure Spot where
  directive : Directive
  argument : Option Argument
  /-- Whether it is the key of a pair. -/
  asKey : Bool
  /-- Whether a false condition suppresses it. -/
  suppressed : Bool

/-- What is asked of a scalar besides an argument of its kind. Constant nil and NaN are no keys, even
    where they are suppressed. -/
structure Spot.Admissible (p : Spot) : Prop where
  nil : p.asKey = true → p.directive ≠ .nil
  number : p.asKey = true → p.directive = .number → ∀ d, p.argument = some (.number d) → d.isNaN = false
  nonNull : p.suppressed = false → p.directive = .lightNonNull → p.argument ≠ some (.pointer 0)
  nonNullKey : p.suppressed = false → p.asKey = true → p.directive = .light →
    p.argument ≠ some (.pointer 0)
  inRange : p.suppressed = false → ∀ a, p.argument = some (.pointer a) → a < Value.lightBound

namespace Element

/-- How many arguments an element takes. -/
def arity (e : Element) : Nat := e.directives.countP Directive.takesArgument

mutual

/-- The scalars of an element, each where it stands. -/
def spots (asKey suppressed : Bool) : Element → List Argument → List Spot
  | .scalar d, args => [⟨d, if d.takesArgument then args.head? else none, asKey, suppressed⟩]
  | .table es, args => spotsAll suppressed es args
  | .condition e, args => e.spots asKey (suppressed || args.head? != some (.bool true)) args.tail
  | .pair key value, args =>
      key.spots true suppressed args ++ value.spots false suppressed (args.drop key.arity)
  | .bad _, _ => []

/-- The scalars of elements one after another. -/
def spotsAll (suppressed : Bool) : List Element → List Argument → List Spot
  | [], _ => []
  | e :: es, args => e.spots false suppressed args ++ spotsAll suppressed es (args.drop e.arity)

end

mutual

/-- Whether an element has no leaf with an error. -/
def Complete : Element → Prop
  | .scalar d => d.isScalar = true
  | .table es => CompleteAll es
  | .condition e => e.Complete
  | .pair key value => key.Complete ∧ value.Complete
  | .bad _ => False

def CompleteAll : List Element → Prop
  | [] => True
  | e :: es => e.Complete ∧ CompleteAll es

end

end Element

/-! ## Elements without errors -/

namespace Format

open Element

mutual

theorem Parses.complete {depth : Nat} {role : Role} {d : Directive} {ds rest : List Directive} {e : Element}
    (h : Parses depth role d ds e rest) (he : e.Complete) :
    e.WellFormed depth role ∧ d :: ds = e.directives ++ rest := by
  cases h with
  | scalar hd => exact ⟨.scalar hd, by rw [directives, List.singleton_append]⟩
  | table hdepth hitems =>
      rw [Complete] at he
      obtain ⟨hwes, hds⟩ := hitems.complete he
      refine ⟨.table hdepth hwes, ?_⟩
      rw [directives, List.cons_append, List.append_assoc, List.singleton_append, ← hds]
  | condition hbody =>
      rw [Complete] at he
      obtain ⟨hwe, hds⟩ := hbody.complete he
      refine ⟨.condition hwe, ?_⟩
      rw [directives, List.cons_append, ← hds]
  | pair hinside hkey hvalue =>
      rw [Complete] at he
      obtain ⟨hwkey, hds⟩ := hkey.complete he.1
      obtain ⟨hwvalue, hds'⟩ := hvalue.complete he.2
      refine ⟨.pair hinside hwkey hwvalue, ?_⟩
      rw [directives, List.cons_append, List.append_assoc, ← hds', ← hds]
  | bad | unfinished | valueless => simp only [Complete, and_false] at he
termination_by sizeOf e

theorem ParsesItems.complete {depth : Nat} {ds rest : List Directive} {es : List Element}
    (h : ParsesItems depth ds es rest) (hes : CompleteAll es) :
    (∀ e ∈ es, e.WellFormed depth .plain) ∧ ds = listDirectives es ++ .closeTable :: rest := by
  cases h with
  | closed => exact ⟨by simp, by rw [listDirectives, List.nil_append]⟩
  | unclosed => simp only [CompleteAll, Complete, false_and] at hes
  | cons hfirst hrest =>
      rw [CompleteAll] at hes
      obtain ⟨hwe, hds⟩ := hfirst.complete hes.1
      obtain ⟨hwes, hds'⟩ := hrest.complete hes.2
      refine ⟨List.forall_mem_cons.mpr ⟨hwe, hwes⟩, ?_⟩
      rw [listDirectives, List.append_assoc, ← hds', hds]
termination_by sizeOf es

end

theorem ParsesAll.complete {ds : List Directive} {es : List Element} (h : ParsesAll ds es) (hes : CompleteAll es) :
    (∀ e ∈ es, e.WellFormed 0 .plain) ∧ listDirectives es = ds := by
  induction h with
  | nil => exact ⟨by simp, by rw [listDirectives]⟩
  | cons hfirst _ ih =>
      rw [CompleteAll] at hes
      obtain ⟨hwe, hds⟩ := hfirst.complete hes.1
      obtain ⟨hwes, hds'⟩ := ih hes.2
      refine ⟨List.forall_mem_cons.mpr ⟨hwe, hwes⟩, ?_⟩
      rw [listDirectives, hds', hds]

/-- An element without errors is well-formed, and it is made of the directives that were read. -/
theorem element_complete (depth : Nat) (role : Role) (d : Directive) (ds : List Directive)
    (h : (element depth role d ds).1.Complete) : (element depth role d ds).1.WellFormed depth role ∧
      d :: ds = (element depth role d ds).1.directives ++ (element depth role d ds).2.1 :=
  (parses_element depth role d ds).complete h

/-- A format without errors is a row of well-formed elements. -/
theorem elements_complete (ds : List Directive) (h : CompleteAll (elements ds)) :
    (∀ e ∈ elements ds, e.WellFormed 0 .plain) ∧ listDirectives (elements ds) = ds :=
  (parses_elements ds).complete h

end Format

/-! ## Arguments that suffice -/

section

variable {args : List Argument} {d : Directive} {ds ds' : List Directive}

theorem supplies_nil : Supplies args [] := ⟨[], args, rfl, .nil⟩

theorem supplies_append : Supplies args (ds ++ ds') ↔
    Supplies args ds ∧ Supplies (args.drop (ds.countP Directive.takesArgument)) ds' := by
  rw [List.countP_eq_length_filter]
  unfold Supplies
  rw [List.filter_append]
  constructor
  · rintro ⟨used, rest, rfl, hused⟩
    have hfirst := List.forall₂_take (ds.filter Directive.takesArgument).length hused
    have hlast := List.forall₂_drop (ds.filter Directive.takesArgument).length hused
    rw [List.take_left] at hfirst
    rw [List.drop_left] at hlast
    have hle : (ds.filter Directive.takesArgument).length ≤ used.length := by
      rw [← hused.length_eq, List.length_append]
      exact Nat.le_add_right _ _
    refine ⟨⟨_, used.drop (ds.filter Directive.takesArgument).length ++ rest, ?_, hfirst⟩, _, rest,
      List.drop_append_of_le_length hle, hlast⟩
    rw [← List.append_assoc, List.take_append_drop]
  · rintro ⟨⟨used, rest, rfl, hused⟩, used', rest', hargs, hused'⟩
    rw [hused.length_eq, List.drop_left] at hargs
    exact ⟨used ++ used', rest', by rw [hargs, List.append_assoc], List.rel_append hused hused'⟩

/-- A directive without argument asks for nothing. -/
theorem supplies_cons_plain (hd : d.takesArgument = false) :
    Supplies args (d :: ds) ↔ Supplies args ds := by
  unfold Supplies
  rw [List.filter_cons_of_neg (by simp [hd])]

theorem supplies_cons (hd : d.takesArgument = true) :
    Supplies args (d :: ds) ↔ ∃ a rest, args = a :: rest ∧ d.accepts a = true ∧ Supplies rest ds := by
  unfold Supplies
  rw [List.filter_cons_of_pos hd]
  constructor
  · rintro ⟨used, rest, rfl, hused⟩
    cases hused with
    | cons ha hused => exact ⟨_, _, rfl, ha, _, rest, rfl, hused⟩
  · rintro ⟨a, _, rfl, ha, used, rest, rfl, hused⟩
    exact ⟨a :: used, rest, rfl, .cons ha hused⟩

end

namespace Element

/-! ## Arguments that fit elements -/

variable {e key value : Element} {es : List Element} {asKey suppressed : Bool} {args : List Argument}

theorem arity_table : (table es).arity = (listDirectives es).countP Directive.takesArgument := by
  simp [arity, directives, Directive.takesArgument]

theorem arity_condition : (condition e).arity = e.arity + 1 := by
  rw [arity, directives, List.countP_cons_of_pos rfl]
  rfl

theorem arity_pair : (pair key value).arity = key.arity + value.arity := by
  simp [arity, directives, Directive.takesArgument]

theorem countP_listDirectives_cons :
    (listDirectives (e :: es)).countP Directive.takesArgument =
      e.arity + (listDirectives es).countP Directive.takesArgument := by
  simp [arity, listDirectives]

mutual

/-- Whether arguments fit an element, piece by piece. -/
def Fits (asKey suppressed : Bool) : Element → List Argument → Prop
  | .scalar d, args => d.isScalar = true ∧ Supplies args [d] ∧
      Spot.Admissible ⟨d, if d.takesArgument then args.head? else none, asKey, suppressed⟩
  | .table es, args => FitsAll suppressed es args
  | .condition e, args => ∃ b rest, args = .bool b :: rest ∧ e.Fits asKey (suppressed || !b) rest
  | .pair key value, args =>
      key.Fits true suppressed args ∧ value.Fits false suppressed (args.drop key.arity)
  | .bad _, _ => False

def FitsAll (suppressed : Bool) : List Element → List Argument → Prop
  | [], _ => True
  | e :: es, args => e.Fits false suppressed args ∧ FitsAll suppressed es (args.drop e.arity)

end

mutual
/-- Arguments fit piece by piece if they suffice altogether and all scalars are admissible. -/
theorem fits_iff (asKey suppressed : Bool) (e : Element) (args : List Argument) :
    e.Fits asKey suppressed args ↔ e.Complete ∧ Supplies args e.directives ∧
      ∀ p ∈ e.spots asKey suppressed args, p.Admissible := by
  cases e with
  | scalar d =>
      rw [Fits, Complete, directives, spots]
      simp only [List.mem_singleton, forall_eq]
  | table es =>
      rw [Fits, Complete, directives, spots, supplies_cons_plain rfl, supplies_append,
        supplies_cons_plain rfl, fitsAll_iff suppressed es args]
      simp only [supplies_nil, and_true]
  | condition e =>
      rw [Fits, Complete, directives, spots, supplies_cons rfl]
      constructor
      · rintro ⟨b, rest, rfl, he⟩
        have hhead : ((Argument.bool b :: rest).head? != some (.bool true)) = !b := by
          cases b <;> rfl
        obtain ⟨hcomplete, hsupplies, hspots⟩ := (fits_iff asKey _ e rest).mp he
        exact ⟨hcomplete, ⟨_, rest, rfl, rfl, hsupplies⟩, by rw [hhead]; exact hspots⟩
      · rintro ⟨hcomplete, ⟨a, rest, rfl, ha, hsupplies⟩, hspots⟩
        cases a with
        | bool b =>
            have hhead : ((Argument.bool b :: rest).head? != some (.bool true)) = !b := by
              cases b <;> rfl
            rw [hhead] at hspots
            exact ⟨b, rest, rfl, (fits_iff asKey _ e rest).mpr ⟨hcomplete, hsupplies, hspots⟩⟩
        | int | number | text | function | pointer | index => cases ha
  | pair key value =>
      rw [Fits, Complete, directives, spots, supplies_cons_plain rfl, supplies_append,
        fits_iff true suppressed key args, fits_iff false suppressed value (args.drop key.arity)]
      simp only [List.mem_append, or_imp, forall_and, arity]
      exact ⟨fun ⟨⟨hc, hs, hp⟩, hc', hs', hp'⟩ => ⟨⟨hc, hc'⟩, ⟨hs, hs'⟩, hp, hp'⟩,
        fun ⟨⟨hc, hc'⟩, ⟨hs, hs'⟩, hp, hp'⟩ => ⟨⟨hc, hs, hp⟩, hc', hs', hp'⟩⟩
  | bad e =>
      rw [Fits, Complete]
      simp only [false_and]
termination_by sizeOf e

theorem fitsAll_iff (suppressed : Bool) (es : List Element) (args : List Argument) :
    FitsAll suppressed es args ↔ CompleteAll es ∧ Supplies args (listDirectives es) ∧
      ∀ p ∈ spotsAll suppressed es args, p.Admissible := by
  cases es with
  | nil =>
      rw [FitsAll, CompleteAll, listDirectives, spotsAll]
      simp only [supplies_nil, List.not_mem_nil, false_implies, implies_true, and_true]
  | cons e es =>
      rw [FitsAll, CompleteAll, listDirectives, spotsAll, supplies_append,
        fits_iff false suppressed e args, fitsAll_iff suppressed es (args.drop e.arity)]
      simp only [List.mem_append, or_imp, forall_and, arity]
      exact ⟨fun ⟨⟨hc, hs, hp⟩, hc', hs', hp'⟩ => ⟨⟨hc, hc'⟩, ⟨hs, hs'⟩, hp, hp'⟩,
        fun ⟨⟨hc, hc'⟩, ⟨hs, hs'⟩, hp, hp'⟩ => ⟨⟨hc, hs, hp⟩, hc', hs', hp'⟩⟩
termination_by sizeOf es
end

theorem completeAll_iff : CompleteAll es ↔ ∀ e ∈ es, e.Complete := by
  induction es with
  | nil => simp only [CompleteAll, List.not_mem_nil, false_implies, implies_true]
  | cons e es ih => rw [CompleteAll, ih, List.forall_mem_cons]

theorem WellFormed.complete {depth : Nat} {role : Format.Role} (h : e.WellFormed depth role) : e.Complete := by
  induction h with
  | scalar hd => rwa [Complete]
  | table _ _ ih => rwa [Complete, completeAll_iff]
  | condition _ ih => rwa [Complete]
  | pair _ _ _ ihkey ihvalue =>
      rw [Complete]
      exact ⟨ihkey, ihvalue⟩

end Element

namespace Format

open Element

variable {ds : List Directive} {args : List Argument}

/-- A format is a row of well-formed elements, the arguments suffice for it, and every scalar is
    admissible where it stands. -/
def Accepts (ds : List Directive) (args : List Argument) : Prop :=
  ∃ es, (∀ e ∈ es, e.WellFormed 0 .plain) ∧ listDirectives es = ds ∧ Supplies args ds ∧
    ∀ p ∈ spotsAll false es args, p.Admissible

/-- The elements of such a format are those that are read. -/
theorem accepts_iff : Accepts ds args ↔ FitsAll false (elements ds) args := by
  rw [fitsAll_iff]
  constructor
  · rintro ⟨es, hes, rfl, hsupplies, hspots⟩
    rw [elements_listDirectives hes]
    exact ⟨completeAll_iff.mpr fun e he => (hes e he).complete, hsupplies, hspots⟩
  · rintro ⟨hcomplete, hsupplies, hspots⟩
    obtain ⟨hes, hds⟩ := elements_complete ds hcomplete
    exact ⟨_, hes, hds, hds ▸ hsupplies, hspots⟩

end Format

end ScriptHost
