import ScriptFrontend.Diagnostic

/-!
Scopes: what each name was declared as, and which labels there are.

Names and labels are apart: a label never clashes with a name.  Each holds a name once, so declaring
one again changes nothing and is an error.
-/

namespace ScriptFrontend

inductive Symbol
  | module_
  /-- An opened module, with its qualified name. -/
  | opened (target : String)
  | function
  | constant
  | global
  | parameter
  deriving DecidableEq, Repr

/-- Names and labels in the order in which they were declared. -/
structure Scope where
  symbols : List (String × Symbol) := []
  labels : List String := []
  deriving DecidableEq, Repr

namespace Scope

def symbol? (s : Scope) (name : String) : Option Symbol :=
  s.symbols.lookup name

def hasLabel (s : Scope) (name : String) : Bool :=
  s.labels.contains name

def isEmpty (s : Scope) : Bool :=
  s.symbols.isEmpty && s.labels.isEmpty

end Scope

/-- One name or one label that a scope is to hold, and the place that says so. -/
inductive Declaration
  | symbol (name : String) (symbol : Symbol) (position : Position)
  | label (name : String) (position : Position)
  deriving DecidableEq, Repr

namespace Declaration

def name : Declaration → String
  | symbol name _ _ => name
  | label name _ => name

def position : Declaration → Position
  | symbol _ _ position => position
  | label _ position => position

def clashes (s : Scope) : Declaration → Bool
  | symbol name _ _ => (s.symbol? name).isSome
  | label name _ => s.hasLabel name

end Declaration

namespace Scope

def add (s : Scope) : Declaration → Scope
  | .symbol name symbol _ => { s with symbols := s.symbols ++ [(name, symbol)] }
  | .label name _ => { s with labels := s.labels ++ [name] }

def addAll (s : Scope) (ds : List Declaration) : Scope :=
  ds.foldl add s

/-- Makes declarations in order up to the first that clashes, and keeps those before it. -/
def declareAll (s : Scope) : List Declaration → Scope × Except Diagnostic Unit
  | [] => (s, .ok ())
  | d :: ds =>
    if d.clashes s then
      (s, .error ⟨.alreadyDeclared d.name, d.position, none⟩)
    else
      (s.add d).declareAll ds

def declare (s : Scope) (d : Declaration) : Scope × Except Diagnostic Unit :=
  s.declareAll [d]

@[simp] theorem symbol?_add_label (s : Scope) (name : String) (p : Position) (other : String) :
    (s.add (.label name p)).symbol? other = s.symbol? other := rfl

@[simp] theorem hasLabel_add_symbol (s : Scope) (name : String) (symbol : Symbol) (p : Position)
    (other : String) : (s.add (.symbol name symbol p)).hasLabel other = s.hasLabel other := rfl

@[simp] theorem symbol?_add_symbol (s : Scope) (name : String) (symbol : Symbol) (p : Position)
    (other : String) :
    (s.add (.symbol name symbol p)).symbol? other =
      (s.symbol? other).or (if other = name then some symbol else none) := by
  simp only [symbol?, add, List.lookup_append]
  by_cases h : other = name
  · simp [h]
  · have hb : (other == name) = false := by simpa using h
    simp [List.lookup_cons, h, hb]

@[simp] theorem hasLabel_add_label (s : Scope) (name : String) (p : Position) (other : String) :
    (s.add (.label name p)).hasLabel other = (s.hasLabel other || other == name) := by
  simp [hasLabel, add, Bool.beq_eq_decide_eq]

theorem addAll_append (s : Scope) (ds es : List Declaration) :
    s.addAll (ds ++ es) = (s.addAll ds).addAll es := by
  simp [addAll]

theorem declareAll_append (s : Scope) (ds es : List Declaration) :
    s.declareAll (ds ++ es) =
      match s.declareAll ds with
      | (s', .ok ()) => s'.declareAll es
      | (s', .error e) => (s', .error e) := by
  induction ds generalizing s with
  | nil => rfl
  | cons d ds ih =>
    simp only [List.cons_append, declareAll]
    split
    · rfl
    · exact ih (s.add d)

theorem declareAll_fst_of_ok {s : Scope} {ds : List Declaration}
    (h : (s.declareAll ds).2 = .ok ()) : (s.declareAll ds).1 = s.addAll ds := by
  induction ds generalizing s with
  | nil => rfl
  | cons d ds ih =>
    unfold declareAll at h ⊢
    split at h
    · cases h
    next hd =>
      rw [if_neg hd]
      exact ih h

end Scope

end ScriptFrontend
