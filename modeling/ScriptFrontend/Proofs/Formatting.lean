import ScriptFrontend.Syntax.Render

/-!
Writing with one layout that moves.

A formatter carries a single layout along: it enters a level in front of the lines of a body and
leaves it behind them.  Rendering hands each part the layout that it is written at instead.  The two
write the same text, because a formatter is back at the layout that it came with whenever it is done.
-/

namespace ScriptFrontend

def Layout.nested (write : StateM Layout String) : StateM Layout String := do
  modify Layout.enter
  let text ← write
  modify Layout.leave
  return text

def ClassDecl.format (d : ClassDecl) : StateM Layout String := do
  let lines ← Layout.nested do
    let indent := (← get).indent
    return String.join (d.signatures.map fun s => indent ++ s.render ++ "\n")
  return flagged d.native "native " ++ d.category.name ++ " " ++ d.name ++
    (match d.base with
      | some base => " : " ++ base
      | none => "") ++
    (match d.interfaces with
      | [] => ""
      | names => " # " ++ "; # ".intercalate names) ++ "\n" ++ lines ++ (← get).indent ++ "end\n"

mutual

/-- Writes a statement whose first line is indented already. -/
def Stmt.format : Stmt → StateM Layout String
  | .block _ body => do
    let lines ← Layout.nested (formatLines body)
    return "begin\n" ++ lines ++ (← get).indent ++ "end\n"
  | .class_ _ decl => decl.format
  | .def_ _ name byReference parameters body => do
    let body ← formatBody body
    return "def " ++ flagged byReference "*" ++ name ++ " " ++ renderParameters parameters ++ " " ++
      body ++ "\n"
  | .foreach _ name byReference iterable body => do
    let body ← formatBody body
    return "foreach " ++ flagged byReference "*" ++ name ++ " in " ++ iterable.render ++ " " ++
      body ++ "\n"
  | .if_ _ condition body chain => do
    let body ← formatBody body
    let branches ← chain.format
    return "if " ++ condition.render ++ " " ++ body ++ branches ++ "\n"
  | .while_ _ condition body => do
    let body ← formatBody body
    return "while " ++ condition.render ++ " " ++ body ++ "\n"
  -- the others are on one line, so the layout is not looked at
  | s => return s.render {}

def ElseChain.format : ElseChain → StateM Layout String
  | .done => return ""
  | .elif condition body chain => do
    let body ← formatBody body
    let branches ← chain.format
    return " elif " ++ condition.render ++ " " ++ body ++ branches
  | .otherwise body => do
    let body ← formatBody body
    return " else " ++ body

def formatBody : List Stmt → StateM Layout String
  | [] => return "[]"
  | s :: ss => do
    let lines ← Layout.nested do
      let indent := (← get).indent
      let first ← s.format
      let others ← formatLines ss
      return indent ++ first ++ others
    return "[\n" ++ lines ++ (← get).indent ++ "]"

def formatLines : List Stmt → StateM Layout String
  | [] => return ""
  | s :: ss => do
    let indent := (← get).indent
    let first ← s.format
    let others ← formatLines ss
    return indent ++ first ++ others

end

theorem Layout.run_nested {write : StateM Layout String} {render : Layout → String}
    (h : ∀ l, write.run l = pure (render l, l)) (l : Layout) :
    (Layout.nested write).run l = pure (render l.enter, l) := by
  simp [nested, h]

theorem ClassDecl.run_format (d : ClassDecl) (l : Layout) :
    d.format.run l = pure (d.render l, l) := by
  have hlines : ∀ l : Layout, (do
      let indent := (← get).indent
      return String.join (d.signatures.map fun s => indent ++ s.render ++ "\n") :
        StateM Layout String).run l =
      pure (String.join (d.signatures.map fun s => l.indent ++ s.render ++ "\n"), l) :=
    fun _ => rfl
  rw [format, StateT.run_bind, Layout.run_nested hlines]
  rfl

mutual

theorem Stmt.run_format : ∀ (s : Stmt) (l : Layout), s.format.run l = pure (s.render l, l)
  | .block _ body, l => by
      simp [Stmt.format, Stmt.render, Layout.run_nested (run_formatLines body)]
  | .class_ _ decl, l => decl.run_format l
  | .def_ _ _ _ _ body, l => by
      simp [Stmt.format, Stmt.render, run_formatBody body]
  | .foreach _ _ _ _ body, l => by
      simp [Stmt.format, Stmt.render, run_formatBody body]
  | .if_ _ _ body chain, l => by
      simp [Stmt.format, Stmt.render, run_formatBody body, ElseChain.run_format chain]
  | .while_ _ _ body, l => by
      simp [Stmt.format, Stmt.render, run_formatBody body]
  | .break_ _ _, _ | .const _ _ _, _ | .continue_ _ _, _ | .expr _ _, _ | .global _ _, _
  | .goto _ _, _ | .label _ _, _ | .module_ _ _, _ | .print _ _, _ | .raise _ _, _
  | .open_ _ _ none, _ | .open_ _ _ (some _), _ | .return_ _ none, _ | .return_ _ (some _), _ => rfl

theorem ElseChain.run_format : ∀ (chain : ElseChain) (l : Layout),
    chain.format.run l = pure (chain.render l, l)
  | .done, _ => rfl
  | .elif _ body chain, l => by
      simp [ElseChain.format, ElseChain.render, run_formatBody body, ElseChain.run_format chain]
  | .otherwise body, l => by
      simp [ElseChain.format, ElseChain.render, run_formatBody body]

theorem run_formatBody : ∀ (ss : List Stmt) (l : Layout),
    (formatBody ss).run l = pure (renderBody l ss, l)
  | [], _ => rfl
  | s :: ss, l => by
      have hlines := Layout.run_nested (run_formatLines (s :: ss)) l
      rw [formatLines] at hlines
      rw [formatBody, StateT.run_bind, hlines, renderBody_cons]
      rfl

theorem run_formatLines : ∀ (ss : List Stmt) (l : Layout),
    (formatLines ss).run l = pure (renderLines l ss, l)
  | [], _ => rfl
  | s :: ss, l => by
      simp [formatLines, renderLines, Stmt.run_format s, run_formatLines ss]

end

end ScriptFrontend
