import ScriptFrontend.Proofs.WellScoped

/-!
What requests leave in a scope.

A request that fails is not undone: the scope keeps what was made in front of the clash, and the
next request goes on from there.  So the scope behind any requests is the one before them and what
each of them made, whichever failed.  The obligation is that all of this is new where it is made, for
then it is in the scope at the end and nothing from before is lost.
-/

namespace ScriptFrontend

/-! ### Injection of a statement -/

def Declaration.make (d : Declaration) : EStateM Diagnostic Scope Unit := fun s =>
  if d.clashes s then .error ⟨.alreadyDeclared d.name, d.position, none⟩ s else .ok () (s.add d)

mutual

/-- Makes what a statement declares in its own frame, one statement in it after the other. -/
def Stmt.inject : Stmt → EStateM Diagnostic Scope Unit
  | .block _ body => injectBody body
  | .const span name _ => (Declaration.symbol name .constant span.start).make
  | .def_ span name _ _ _ => (Declaration.symbol name .function span.start).make
  | .foreach _ _ _ _ body => injectBody body
  | .global span names => names.forM fun name => (Declaration.symbol name .global span.start).make
  | .if_ _ _ body chain => do
    injectBody body
    chain.inject
  | .label span name => (Declaration.label name span.start).make
  | .module_ span segments => (Declaration.symbol (qualified segments) .module_ span.start).make
  | .open_ span segments rename =>
    (Declaration.symbol (localName segments rename) (.opened (qualified segments)) span.start).make
  | .while_ _ _ body => injectBody body
  | .break_ _ _ | .class_ _ _ | .continue_ _ _ | .expr _ _ | .goto _ _ | .print _ _ | .raise _ _
  | .return_ _ _ => return

def ElseChain.inject : ElseChain → EStateM Diagnostic Scope Unit
  | .done => return
  | .elif _ body chain => do
    injectBody body
    chain.inject
  | .otherwise body => injectBody body

def injectBody : List Stmt → EStateM Diagnostic Scope Unit
  | [] => return
  | s :: ss => do
    s.inject
    injectBody ss

end

mutual

/-- Injecting a statement is making its declarations in their order. -/
theorem Stmt.inject_eq (s : Stmt) : s.inject = forM s.declarations Declaration.make := by
  cases s with
  | block span body => exact injectBody_eq body
  | foreach span name byReference iterable body => exact injectBody_eq body
  | if_ span condition body chain =>
      rw [Stmt.inject, Stmt.declarations, List.forM_append, injectBody_eq body, chain.inject_eq]
  | while_ span condition body => exact injectBody_eq body
  | global span names => exact (List.forM_map ..).symm
  | const | def_ | label | module_ | open_ => simp [Stmt.inject, Stmt.declarations]
  | break_ | class_ | continue_ | expr | goto | print | raise | return_ => rfl

theorem ElseChain.inject_eq (chain : ElseChain) :
    chain.inject = forM chain.declarations Declaration.make := by
  cases chain with
  | done => rfl
  | elif condition body chain =>
      rw [ElseChain.inject, ElseChain.declarations, List.forM_append, injectBody_eq body,
        chain.inject_eq]
  | otherwise body => exact injectBody_eq body

theorem injectBody_eq (body : List Stmt) :
    injectBody body = forM (declarationsOf body) Declaration.make := by
  cases body with
  | nil => rfl
  | cons s ss => rw [injectBody, declarationsOf, List.forM_append, s.inject_eq, injectBody_eq ss]

end

/-! ### Requests -/

inductive Request
  | declare (d : Declaration)
  | inject (s : Stmt)

/-- What a request asks for, in the order of the text.  The declarations of a statement are those of
the statements that are flat in it, each at the place of its own statement. -/
def Request.entries : Request → List Declaration
  | declare d => [d]
  | inject s => s.flat.flatMap Stmt.entries

namespace Declaration

def name? : Declaration → Option (String × Symbol)
  | symbol name what _ => some (name, what)
  | label _ _ => none

def label? : Declaration → Option String
  | symbol _ _ _ => none
  | label name _ => some name

/-- The name is among the names of the scope, or the label among its labels. -/
def TakenIn (s : Scope) : Declaration → Prop
  | symbol name _ _ => name ∈ s.symbols.map Prod.fst
  | label name _ => name ∈ s.labels

/-- The scope answers with what is declared. -/
def FoundIn (s : Scope) : Declaration → Prop
  | symbol name what _ => s.symbol? name = some what
  | label name _ => s.hasLabel name

variable {d : Declaration} {s : Scope}

theorem clashes_iff_takenIn : d.clashes s ↔ d.TakenIn s := by
  cases d with
  | symbol name symbol position => exact s.symbol?_isSome_iff name
  | label name position => exact List.contains_iff_mem

theorem foundIn_add (h : ¬ d.TakenIn s) : d.FoundIn (s.add d) := by
  cases d with
  | symbol name symbol position =>
      have hnew : s.symbol? name = none := by
        rw [← Option.not_isSome_iff_eq_none]
        exact mt (s.symbol?_isSome_iff name).1 h
      simp [FoundIn, hnew]
  | label name position => simp [FoundIn]

end Declaration

namespace Scope

variable {s s' s'' : Scope} {d : Declaration} {ds made more : List Declaration}

/-- The scope and more declarations: their names behind its names, and their labels behind its
labels. -/
def plus (s : Scope) (ds : List Declaration) : Scope :=
  ⟨s.symbols ++ ds.filterMap Declaration.name?, s.labels ++ ds.filterMap Declaration.label?⟩

@[simp] theorem plus_nil (s : Scope) : s.plus [] = s := by
  simp [plus]

theorem plus_cons (s : Scope) (d : Declaration) (ds : List Declaration) :
    s.plus (d :: ds) = (s.add d).plus ds := by
  cases d <;> simp [plus, add, List.filterMap_cons, Declaration.name?, Declaration.label?]

theorem addAll_eq_plus (s : Scope) (ds : List Declaration) : s.addAll ds = s.plus ds := by
  induction ds generalizing s with
  | nil => exact s.plus_nil.symm
  | cons d ds ih => exact (ih (s.add d)).trans (s.plus_cons d ds).symm

theorem plus_append (s : Scope) (ds es : List Declaration) :
    s.plus (ds ++ es) = (s.plus ds).plus es := by
  simp [plus]

theorem takenIn_plus : d.TakenIn (s.plus ds) ↔ d.TakenIn s ∨ ∃ e ∈ ds, d.repeats e := by
  rw [← Declaration.clashes_iff_takenIn, ← Declaration.clashes_iff_takenIn, ← addAll_eq_plus,
    d.clashes_addAll, Bool.or_eq_true, List.any_eq_true]

/-- What a scope answers stays, whatever is added. -/
theorem foundIn_plus (h : d.FoundIn s) : d.FoundIn (s.plus ds) := by
  cases d with
  | symbol name symbol position =>
      have hlookup : s.symbols.lookup name = some symbol := h
      show (s.symbols ++ _).lookup name = some symbol
      rw [List.lookup_append, hlookup, Option.some_or]
  | label name position =>
      have hmem : name ∈ s.labels := List.contains_iff_mem.1 h
      exact List.contains_iff_mem.2 (List.mem_append_left _ hmem)

/-- Each declaration is new in the scope with those in front of it. -/
def Fresh (s : Scope) : List Declaration → Prop
  | [] => True
  | d :: ds => ¬ d.TakenIn s ∧ (s.add d).Fresh ds

theorem Fresh.append (h : s.Fresh ds) (hmore : (s.plus ds).Fresh more) : s.Fresh (ds ++ more) := by
  induction ds generalizing s with
  | nil => rwa [plus_nil] at hmore
  | cons d ds ih =>
      rw [plus_cons] at hmore
      exact ⟨h.1, ih h.2 hmore⟩

theorem Fresh.found (h : s.Fresh ds) (hd : d ∈ ds) : d.FoundIn (s.plus ds) := by
  induction ds generalizing s with
  | nil => cases hd
  | cons e es ih =>
      rw [plus_cons]
      cases hd with
      | head => exact foundIn_plus (Declaration.foundIn_add h.1)
      | tail _ hd => exact ih h.2 hd

/-- What is new is declared without a clash, and so it repeats nothing. -/
theorem Fresh.nodup_iff (h : s.Fresh ds) : (s.plus ds).Nodup ↔ s.Nodup := by
  induction ds generalizing s with
  | nil => rw [plus_nil]
  | cons d ds ih =>
      have hnew : d.clashes s = false := by
        rw [← Bool.not_eq_true, Declaration.clashes_iff_takenIn]
        exact h.1
      rw [plus_cons, ih h.2, nodup_add_iff, and_iff_right hnew]

/-- The second scope is the first one and what is made, all of which is new. -/
structure Grows (s : Scope) (made : List Declaration) (s' : Scope) : Prop where
  scope : s' = s.plus made
  fresh : s.Fresh made
  kept : ∀ d : Declaration, d.FoundIn s → d.FoundIn s'
  found : ∀ d ∈ made, d.FoundIn s'
  /-- Names are taken by names only, and labels by labels. -/
  taken : ∀ d : Declaration, d.TakenIn s' ↔ d.TakenIn s ∨ ∃ e ∈ made, d.repeats e
  symbols : s'.symbols.length = s.symbols.length + (made.filterMap Declaration.name?).length
  labels : s'.labels.length = s.labels.length + (made.filterMap Declaration.label?).length
  nodup : s'.Nodup ↔ s.Nodup

theorem Fresh.grows (h : s.Fresh made) : s.Grows made (s.plus made) where
  scope := rfl
  fresh := h
  kept _ := foundIn_plus
  found _ := h.found
  taken _ := takenIn_plus
  symbols := List.length_append
  labels := List.length_append
  nodup := h.nodup_iff

theorem Grows.refl (s : Scope) : s.Grows [] s := by
  have hgrows : s.Grows [] (s.plus []) := Fresh.grows trivial
  rwa [plus_nil] at hgrows

theorem Grows.trans (h : s.Grows made s') (hmore : s'.Grows more s'') :
    s.Grows (made ++ more) s'' := by
  obtain rfl := h.scope
  obtain rfl := hmore.scope
  rw [← plus_append]
  exact (h.fresh.append hmore.fresh).grows

/-! ### One request -/

/-- What is done when `ds` is asked for: they are made in order, all of them or those in front of
the first that is taken, which is the error. -/
structure Answers (s : Scope) (ds made : List Declaration) (outcome : Except Diagnostic Unit)
    (s' : Scope) : Prop where
  grows : s.Grows made s'
  outcome : made = ds ∧ outcome = .ok () ∨
    ∃ d rest, ds = made ++ d :: rest ∧ d.TakenIn s' ∧
      outcome = .error ⟨.alreadyDeclared d.name, d.position, none⟩

theorem exists_answers_declareAll (s : Scope) (ds : List Declaration) :
    ∃ made, s.Answers ds made (s.declareAll ds).2 (s.declareAll ds).1 := by
  induction ds generalizing s with
  | nil => exact ⟨[], .refl s, .inl ⟨rfl, rfl⟩⟩
  | cons d ds ih =>
      rw [declareAll]
      by_cases hd : d.clashes s
      · rw [if_pos hd]
        exact ⟨[], .refl s, .inr ⟨d, ds, rfl, Declaration.clashes_iff_takenIn.1 hd, rfl⟩⟩
      · rw [if_neg hd]
        obtain ⟨made, hgrows, houtcome⟩ := ih (s.add d)
        have hnew : ¬ d.TakenIn s := mt Declaration.clashes_iff_takenIn.2 hd
        refine ⟨d :: made, ?_, ?_⟩
        · rw [hgrows.scope, ← plus_cons]
          exact Fresh.grows ⟨hnew, hgrows.fresh⟩
        · rcases houtcome with ⟨rfl, hok⟩ | ⟨e, rest, rfl, htaken, herror⟩
          · exact .inl ⟨rfl, hok⟩
          · exact .inr ⟨e, rest, rfl, htaken, herror⟩

def settled : EStateM.Result Diagnostic Scope Unit → Scope × Except Diagnostic Unit
  | .ok () s => (s, .ok ())
  | .error e s => (s, .error e)

theorem settled_forM_make (s : Scope) (ds : List Declaration) :
    settled ((forM ds Declaration.make).run s) = s.declareAll ds := by
  induction ds generalizing s with
  | nil => rfl
  | cons d ds ih =>
      rw [declareAll, List.forM_cons, EStateM.run_bind]
      by_cases hd : d.clashes s
      · have hmake : d.make.run s = .error ⟨.alreadyDeclared d.name, d.position, none⟩ s := if_pos hd
        rw [hmake, if_pos hd]
        rfl
      · have hmake : d.make.run s = .ok () (s.add d) := if_neg hd
        rw [hmake, if_neg hd]
        exact ih (s.add d)

def perform (s : Scope) : Request → Scope × Except Diagnostic Unit
  | .declare d => s.declare d
  | .inject t => settled (t.inject.run s)

theorem perform_eq_declareAll (s : Scope) (r : Request) : s.perform r = s.declareAll r.entries := by
  cases r with
  | declare d => rfl
  | inject t => rw [perform, t.inject_eq, settled_forM_make, t.declarations_eq_flat, Request.entries]

/-! ### Any number of requests -/

/-- Makes one request after the other, also behind those that fail. -/
def performAll (s : Scope) : List Request → Scope × List (Except Diagnostic Unit)
  | [] => (s, [])
  | r :: rs =>
    let (s', outcome) := s.perform r
    let (s'', outcomes) := s'.performAll rs
    (s'', outcome :: outcomes)

inductive Run : Scope → List Request → List (List Declaration) → List (Except Diagnostic Unit) →
    Scope → Prop
  | done (s : Scope) : Run s [] [] [] s
  | request {s s' s'' : Scope} {r : Request} {rs : List Request} {made : List Declaration}
      {mades : List (List Declaration)} {outcome : Except Diagnostic Unit}
      {outcomes : List (Except Diagnostic Unit)} (h : s.Answers r.entries made outcome s')
      (hrest : Run s' rs mades outcomes s'') :
      Run s (r :: rs) (made :: mades) (outcome :: outcomes) s''

theorem Run.grows {rs : List Request} {mades : List (List Declaration)}
    {outcomes : List (Except Diagnostic Unit)} (h : s.Run rs mades outcomes s') :
    s.Grows mades.flatten s' := by
  induction h with
  | done s => exact .refl s
  | request h _ ih => exact h.grows.trans ih

theorem exists_run_performAll (s : Scope) (rs : List Request) :
    ∃ mades, s.Run rs mades (s.performAll rs).2 (s.performAll rs).1 := by
  induction rs generalizing s with
  | nil => exact ⟨[], .done s⟩
  | cons r rs ih =>
      obtain ⟨made, hanswers⟩ := s.exists_answers_declareAll r.entries
      rw [← perform_eq_declareAll] at hanswers
      obtain ⟨mades, hrest⟩ := ih (s.perform r).1
      exact ⟨made :: mades, .request hanswers hrest⟩

/-- Requests only ever add.  Whatever the scope holds before, and whichever requests fail, each
makes the declarations that it asks for up to the first whose name is taken among the names, or whose
label among the labels; and all that is made is in the scope at the end, behind what was there. -/
theorem performAll_only_adds (s : Scope) (rs : List Request) :
    ∃ mades, s.Run rs mades (s.performAll rs).2 (s.performAll rs).1 ∧
      s.Grows mades.flatten (s.performAll rs).1 := by
  obtain ⟨mades, hrun⟩ := s.exists_run_performAll rs
  exact ⟨mades, hrun, hrun.grows⟩

/-- A statement fails at its third name, and what comes behind it is declared all the same. -/
example (span : Span) (p : Position) :
    performAll {} [.inject (.global span ["a", "b", "a", "c"]), .declare (.label "a" p),
        .declare (.symbol "c" .constant p)] =
      (⟨[("a", .global), ("b", .global), ("c", .constant)], ["a"]⟩,
        [.error ⟨.alreadyDeclared "a", span.start, none⟩, .ok (), .ok ()]) := rfl

end Scope

end ScriptFrontend
