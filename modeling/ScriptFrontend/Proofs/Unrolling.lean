import ScriptFrontend.Proofs.Progress

/-!
Recursions without a bound.

The grammar reads nested expressions and statements by recursion and lists by loops.  Its definitions
carry bounds and tests that make them functions; here the bounds and the tests are taken away.  What
is left of a recursion is one round of it, which may enter the next round wherever it likes, and
nothing is known about what stands behind the last of finitely many rounds.  A recursion ends on a
cursor if that makes no difference as soon as there are more rounds than tokens ahead: nothing in the
grammar catches an error, so an error behind the last round would show if that place were reached.

A round that enters the next one only with fewer tokens ahead of a closed cursor ends on all of them.
That a round does so is a matter of progress.
-/

namespace ScriptFrontend

namespace Parser

variable {ι α β : Type}

/-- So many rounds of a recursion, and anything behind the last one. -/
def unroll (round : (ι → Parser α) → ι → Parser α) (deeper : ι → Parser α) : Nat → ι → Parser α
  | 0 => deeper
  | n + 1 => round (unroll round deeper n)

/-- The recursion ends on the cursor, and with the outcome of `p`. -/
def Ends (round : (ι → Parser α) → ι → Parser α) (p : ι → Parser α) (c : Cursor) : Prop :=
  ∀ (deeper : ι → Parser α) (n : Nat) (i : ι), c.rest.length < n → unroll round deeper n i c = p i c

def AgreeBelow (c : Cursor) (p q : ι → Parser α) : Prop :=
  ∀ (i : ι) (d : Cursor), d.Closed → d.rest.length < c.rest.length → p i d = q i d

variable {round : (ι → Parser α) → ι → Parser α} {p : ι → Parser α} {c : Cursor}

/-- One round decides: a recursion ends if a round of it does what `p` does, as long as the next
rounds do so wherever fewer tokens are ahead. -/
theorem ends_of_round
    (h : ∀ nested i (c : Cursor), c.Closed → AgreeBelow c nested p → round nested i c = p i c)
    (hc : c.Closed) : Ends round p c := by
  intro deeper n
  -- On the number of rounds, for all cursors: what a round enters has one round less to go and at
  -- least one token less ahead.
  induction n generalizing c with
  | zero => exact fun i hn => absurd hn (Nat.not_lt_zero _)
  | succ n ih =>
      intro i hn
      refine h _ i c hc fun j d hd hlt => ih hd j ?_
      omega

/-- Sequences agree if their first parts do, and their second parts behind that. -/
theorem bind_congr {p q : Parser α} {f k : α → Parser β} (hp : p c = q c)
    (h : ∀ a d, q c = .ok a d → f a d = k a d) : (p >>= f) c = (q >>= k) c := by
  cases hq : q c with
  | error e d => rw [bind_of_error (hp.trans hq), bind_of_error hq]
  | ok a d => rw [bind_of_ok (hp.trans hq), bind_of_ok hq, h a d hq]

/-! ### Loops -/

/-- One round of a loop: an item and the next round, as long as the current kind starts an item. -/
def loop (starts : Kind → Bool) (item : Parser α) (nested : Unit → Parser (List α)) (_ : Unit) :
    Parser (List α) := do
  if starts (← peek).kind then
    let a ← item
    let as ← nested ()
    return a :: as
  else
    return []

variable {starts : Kind → Bool} {item item' : Parser α} {nested : Unit → Parser (List α)}

theorem loop_eq_many (hitem : item c = item' c)
    (hmoves : starts c.current.kind = true → Moves True item' c) (hc : c.Closed)
    (hn : AgreeBelow c nested fun _ => many starts item') :
    loop starts item nested () c = many starts item' c := by
  have hloop : loop starts item nested () c =
      if starts c.current.kind then
        (item >>= fun a => nested () >>= fun as => pure (a :: as)) c
      else
        .ok [] c := by
    change (if starts c.current.kind then _ else _ : Parser (List α)) c = _
    split <;> rfl
  rw [hloop]
  cases hst : starts c.current.kind with
  | false => exact (many_of_not hst).symm
  | true =>
      have hshorter {a : α} {d : Cursor} (h : item' c = .ok a d) :=
        (hmoves hst).shorter trivial hc h
      rw [many_eq_onward hst, onward_eq_bind fun a d h => (hshorter h).2, if_pos rfl]
      refine bind_congr hitem fun a d h => ?_
      obtain ⟨hd, hlt⟩ := hshorter h
      exact bind_congr (hn () d hd hlt) fun _ _ _ => rfl

/-- A loop ends if its items consume. -/
theorem ends_many (h : ∀ c : Cursor, starts c.current.kind = true → Moves True item c)
    (hc : c.Closed) : Ends (loop starts item) (fun _ => many starts item) c :=
  ends_of_round (fun _ _ c hc hn => loop_eq_many rfl (h c) hc hn) hc

/-! ### Productions that agree -/

/-- A production that tracks another one on the same tokens has the same outcome. -/
theorem Tracks.eq {p q : Parser α} {φ : α → α} {m : Nat} (h : Tracks .keep φ m p q c)
    (hφ : ∀ a, φ a = a) (hm : c.rest.length < m) (hc : c.Closed) : p c = q c := by
  obtain ⟨w, hw, hq⟩ := h hc
  have hkeep (ts : List Token) : ts.map (Token.relabel .keep) = ts := List.map_id ts
  have hout := hq c (Outcome.ending (p c)) ⟨(hkeep _).symm, rfl⟩ hm (by rwa [hkeep]) rfl
  rw [hout]
  cases hpc : p c with
  | error e d => rfl
  | ok a d => exact congrArg (EStateM.Result.ok · d) (hφ a).symm

end Parser

namespace Grammar

open ScriptFrontend.Parser

variable {g : Grammar} {c : Cursor}

/-! ### Expressions -/

/-- What an expression is read by: as a whole, or from its first operand on. -/
inductive Reading
  | whole (floor : Power)
  | rest (floor : Power) (left : Expr)

def extendStep (g : Grammar) (nested : Power → Parser Expr) (more : Expr → Parser Expr)
    (floor : Power) (left : Expr) : Parser Expr := do
  let k := (← peek).kind
  match g.power k with
  | none => return left
  | some power =>
    if power.rank ≤ floor.rank then
      return left
    else
      match g.operatorRule k with
      | none => fail .operator
      | some rule =>
        let wider ← g.operatorOf nested left power rule
        more wider

/-- One round of reading an expression: the whole of it is an operand and the rest, and the rest is
an operator with what it reads and the rest of that. -/
def expressionRound (g : Grammar) (nested : Reading → Parser Expr) : Reading → Parser Expr
  | .whole floor => do
    let left ← g.operand fun floor => nested (.whole floor)
    nested (.rest floor left)
  | .rest floor left =>
    g.extendStep (fun floor => nested (.whole floor)) (fun wider => nested (.rest floor wider)) floor
      left

def reading (g : Grammar) : Reading → Parser Expr
  | .whole floor => g.expression floor
  | .rest floor left => g.extend g.expression floor left

section

variable {nested : Power → Parser Expr} {left : Expr} {floor power : Power}

theorem nestedTracks_of_agree (hg : g.RefusesEnd) (m : Nat)
    (hn : AgreeBelow c nested g.expression) : NestedTracks .keep m nested g.expression c :=
  fun floor d hlt hd =>
    (Tracks.congr (tracks_expression hg floor) (hn floor d hd hlt) fun _ _ => rfl) hd

theorem operand_congr (hg : g.RefusesEnd) (hc : c.Closed)
    (hn : AgreeBelow c nested g.expression) : g.operand nested c = g.operand g.expression c :=
  (tracks_operand hg (nestedTracks_of_agree hg _ hn)).eq Expr.relabel_keep (Nat.lt_succ_self _) hc

theorem operatorOf_congr (hg : g.RefusesEnd) (hk : c.current.kind ≠ .endOfInput) (hc : c.Closed)
    (hn : AgreeBelow c nested g.expression) (rule : OperatorRule) :
    g.operatorOf nested left power rule c = g.operatorOf g.expression left power rule c := by
  have h : g.operatorOf nested left power rule c =
      g.operatorOf g.expression (left.relabel .keep) power rule c :=
    (tracks_operatorOf rule hk (nestedTracks_of_agree hg _ hn)).eq Expr.relabel_keep
      (Nat.lt_succ_self _) hc
  rwa [Expr.relabel_keep] at h

theorem expressionUpTo_eq (hg : g.RefusesEnd) {n : Nat} (hn : c.rest.length < n) (hc : c.Closed) :
    g.expressionUpTo n floor c = g.expression floor c :=
  (tracks_expressionUpTo hg n (c.rest.length + 1) floor c hn).eq Expr.relabel_keep
    (Nat.lt_succ_self _) hc

/-- The bound on the nesting of expressions is never reached. -/
theorem expression_eq (hg : g.RefusesEnd) (hc : c.Closed) :
    g.expression floor c = g.expressionWith g.expression floor c := by
  have hn : AgreeBelow c (g.expressionUpTo c.rest.length) g.expression :=
    fun floor d hd hlt => expressionUpTo_eq hg hlt hd
  exact (tracks_expressionWith hg (nestedTracks_of_agree hg _ hn)).eq Expr.relabel_keep
    (Nat.lt_succ_self _) hc

/-- An operator behind an expression consumes, so what goes on from there has fewer tokens ahead. -/
theorem extendStep_eq (hg : g.RefusesEnd) {more : Expr → Parser Expr} (hc : c.Closed)
    (hn : AgreeBelow c nested g.expression)
    (hmore : AgreeBelow c more (g.extend g.expression floor)) :
    g.extendStep nested more floor left c = g.extend g.expression floor left c := by
  change (match g.power c.current.kind with
    | none => pure left
    | some power =>
      if power.rank ≤ floor.rank then
        pure left
      else
        match g.operatorRule c.current.kind with
        | none => fail .operator
        | some rule => g.operatorOf nested left power rule >>= more : Parser Expr) c = _
  by_cases hstop : ∀ power, g.power c.current.kind = some power → power.rank ≤ floor.rank
  · rw [extend_of_stop hstop]
    cases hp : g.power c.current.kind with
    | none => rfl
    | some power => exact congrFun (if_pos (hstop power hp)) c
  · simp only [Classical.not_forall] at hstop
    obtain ⟨power, hp, hr⟩ := hstop
    simp only [hp, if_neg hr]
    cases ho : g.operatorRule c.current.kind with
    | none => exact (extend_of_no_rule hp hr ho).symm
    | some rule =>
        have hk := hg.ne_of_power hp
        have hshorter {wider : Expr} {d : Cursor}
            (h : g.operatorOf g.expression left power rule c = .ok wider d) :=
          (moves_operatorOf (expression_forward hg) rule).shorter hk hc h
        rw [extend_eq_onward hp hr ho, onward_eq_bind fun _ _ h => (hshorter h).2]
        refine bind_congr (operatorOf_congr hg hk hc hn rule) fun wider d h => ?_
        exact hmore wider d (hshorter h).1 (hshorter h).2

end

theorem expressionRound_eq (hg : g.RefusesEnd) {nested : Reading → Parser Expr} (i : Reading)
    (hc : c.Closed) (hn : AgreeBelow c nested g.reading) :
    g.expressionRound nested i c = g.reading i c := by
  have hwhole : AgreeBelow c (fun floor => nested (.whole floor)) g.expression :=
    fun floor d hd hlt => hn (.whole floor) d hd hlt
  cases i with
  | whole floor =>
      rw [reading, expression_eq hg hc]
      refine bind_congr (operand_congr hg hc hwhole) fun left d h => ?_
      obtain ⟨hd, hlt⟩ := (moves_operand hg (expression_forward hg)).shorter trivial hc h
      exact hn (.rest floor left) d hd hlt
  | rest floor left =>
      exact extendStep_eq hg hc hwhole fun wider d hd hlt => hn (.rest floor wider) d hd hlt

/-- Reading an expression ends, at every binding power and from every operand on. -/
theorem ends_expression (hg : g.RefusesEnd) (hc : c.Closed) :
    Ends g.expressionRound g.reading c :=
  ends_of_round (fun _ i _ hc hn => expressionRound_eq hg i hc hn) hc

/-! ### Statements -/

def statementsRound (g : Grammar) (nested : Unit → Parser (List Stmt)) :
    Unit → Parser (List Stmt) :=
  loop g.startsInner (g.innerWith (nested ())) nested

section

variable {nested : Unit → Parser (List Stmt)}

theorem bodyTracks_of_agree (hg : g.RefusesEnd) (m : Nat)
    (hn : AgreeBelow c nested fun _ => g.statements) :
    BodyTracks .keep m (nested ()) g.statements c :=
  fun d hlt hd => (Tracks.congr (tracks_statements hg rfl) (hn () d hd hlt) fun _ _ => rfl) hd

theorem innerWith_congr (hg : g.RefusesEnd) (hc : c.Closed)
    (hn : AgreeBelow c nested fun _ => g.statements) : g.innerWith (nested ()) c = g.inner c :=
  (tracks_innerWith hg rfl (bodyTracks_of_agree hg _ hn)).eq Stmt.relabel_keep
    (Nat.lt_succ_self _) hc

end

theorem map_relabel_keep (ss : List Stmt) : ss.map (Stmt.relabel .keep) = ss := by
  rw [← Stmt.relabelEach_eq_map, Stmt.relabelEach_keep]

theorem statementsUpTo_eq (hg : g.RefusesEnd) {n : Nat} (hn : c.rest.length < n)
    (hc : c.Closed) : g.statementsUpTo n c = g.statements c :=
  (tracks_statementsUpTo hg rfl n (c.rest.length + 1) c hn).eq map_relabel_keep
    (Nat.lt_succ_self _) hc

/-- The bound on the nesting of statements is never reached. -/
theorem statements_eq (hg : g.RefusesEnd) (hc : c.Closed) :
    g.statements c = many g.startsInner g.inner c := by
  have hitem (c₁ : Cursor) (hle : c₁.rest.length ≤ c.rest.length) :
      AgreeBelow c₁ (fun _ : Unit => g.statementsUpTo c.rest.length) fun _ => g.statements :=
    fun _ d hd hlt => statementsUpTo_eq hg (Nat.lt_of_lt_of_le hlt hle) hd
  have hmany : Tracks .keep (List.map (Stmt.relabel .keep)) (c.rest.length + 1)
      (many g.startsInner (g.innerWith (g.statementsUpTo c.rest.length)))
      (many g.startsInner g.inner) c :=
    .many fun c₁ hle _ => tracks_innerWith hg rfl (bodyTracks_of_agree hg _ (hitem c₁ hle))
  exact hmany.eq map_relabel_keep (Nat.lt_succ_self _) hc

/-- Reading the statements of a body ends, however the bodies are nested. -/
theorem ends_statements (hg : g.RefusesEnd) (hc : c.Closed) :
    Ends g.statementsRound (fun _ => g.statements) c := by
  refine ends_of_round (fun nested _ c hc hn => ?_) hc
  rw [statements_eq hg hc]
  refine loop_eq_many (innerWith_congr hg hc hn) (fun _ => moves_inner hg) hc fun i d hd hlt => ?_
  exact (hn i d hd hlt).trans (statements_eq hg hd)

end Grammar

end ScriptFrontend
