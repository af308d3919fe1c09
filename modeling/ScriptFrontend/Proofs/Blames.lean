import ScriptFrontend.Proofs.Tracking

/-!
The judgment of blame: which errors a production may stop with.

The grammar keeps two errors for states that its tables and predicates are to exclude: an operator
that binds but has no production, and a statement that is entered on a token that starts none.  A
production blames well if it stops with neither of them.  Most productions also stop at the token that
their error names; reading a literal or a name does not, since it passes over the token before it looks
at its kind.  The judgment `Blames exact p c` therefore carries the condition `exact` under which the
cursor is known to be left on the token that the error names.
-/

namespace ScriptFrontend

def Expected.Specific : Expected → Prop
  | operator => False
  | statement => False
  | kind _ | expression | classCategory | staticScalar | loopDepth => True

namespace Parser

variable {α β : Type}

/-- An error of the production asks for something specific, and it names the token that the cursor is
left on if `exact` holds. -/
def Blames (exact : Prop) (p : Parser α) (c : Cursor) : Prop :=
  ∀ e d, p c = .error e d → e.expected.Specific ∧ (exact → e.found = d.current)

section

variable {s t : Prop} {p : Parser α} {f : α → Parser β} {c d : Cursor} {a : α} {x : Expected}

theorem Blames.mono (h : Blames s p c) (hst : t → s) : Blames t p c := by
  intro e d hp
  obtain ⟨hx, hs⟩ := h e d hp
  exact ⟨hx, fun ht => hs (hst ht)⟩

/-- The judgment at its weakest already excludes the two errors. -/
theorem Blames.expected_ne {e : SyntaxError} (h : Blames False p c) (hp : p c = .error e d) :
    e.expected ≠ .operator ∧ e.expected ≠ .statement := by
  have hspecific := (h e d hp).1
  constructor
  all_goals
    intro he
    rw [he] at hspecific
    exact hspecific

theorem Blames.congr {q : Parser α} (h : Blames s q c) (hp : p c = q c) : Blames s p c := by
  intro e d he
  rw [hp] at he
  exact h e d he

/-- A production that yields a value stops with no error. -/
theorem Blames.ok (h : p c = .ok a d) : Blames s p c := by
  intro e d' hp
  cases h.symm.trans hp

theorem Blames.error (h : p c = .error ⟨x, c.current⟩ c) (hx : x.Specific) : Blames s p c := by
  intro e d hp
  cases h.symm.trans hp
  exact ⟨hx, fun _ => rfl⟩

theorem Blames.pure : Blames s (pure a) c :=
  .ok rfl

theorem Blames.fail (hx : x.Specific) : Blames s (fail x : Parser α) c :=
  .error rfl hx

theorem Blames.bind (hp : Blames s p c) (hf : ∀ a d, Blames s (f a) d) : Blames s (p >>= f) c := by
  intro e d h
  cases hpc : p c with
  | error e' d' =>
      rw [bind_of_error hpc] at h
      cases h
      exact hp _ _ hpc
  | ok a d' =>
      rw [bind_of_ok hpc] at h
      exact hf a d' e d h

theorem Blames.onward {last : α → β} (hp : Blames s p c)
    (hf : ∀ a (d : Cursor), d.rest.length < c.rest.length → Blames s (f a) d) :
    Blames s (onward p f last) c := by
  intro e d h
  cases hpc : p c with
  | error e' d' =>
      rw [onward_of_error hpc] at h
      cases h
      exact hp _ _ hpc
  | ok a d' =>
      by_cases hlt : d'.rest.length < c.rest.length
      · rw [onward_of_ok hpc hlt] at h
        exact hf a d' hlt e d h
      · rw [onward_of_stuck hpc hlt] at h
        cases h

theorem Blames.here_bind {f : Position → Parser β} (hf : Blames s (f c.start) c) :
    Blames s (here >>= f) c :=
  hf

theorem Blames.peek_bind {f : Token → Parser β} (hf : Blames s (f c.current) c) :
    Blames s (peek >>= f) c :=
  hf

theorem Blames.spanFrom {start : Position} : Blames s (spanFrom start) c :=
  .ok rfl

/-! ### Single tokens -/

theorem Blames.advance : Blames s advance c :=
  .ok rfl

theorem Blames.skip : Blames s skip c :=
  .ok rfl

theorem Blames.skipIf (k : Kind) : Blames s (skipIf k) c :=
  .ok rfl

theorem Blames.accept (k : Kind) : Blames s (accept k) c := by
  by_cases h : c.current.kind = k
  · exact .ok (if_pos h)
  · exact .ok (if_neg h)

theorem Blames.expect (k : Kind) : Blames s (expect k) c := by
  by_cases h : c.current.kind = k
  · exact .ok (if_pos h)
  · exact .error (if_neg h) trivial

theorem Blames.require (k : Kind) : Blames s (require k) c := by
  by_cases h : c.current.kind = k
  · exact .ok (if_pos h)
  · exact .error (if_neg h) trivial

end

/-! ### Repetitions and options -/

section

variable {s : Prop} {starts : Kind → Bool} {p : Parser α} {c : Cursor}

theorem Blames.optional (hp : ∀ d, Blames s p d) : Blames s (optional starts p) c := by
  cases h : starts c.current.kind with
  | false => exact .ok (by rw [Parser.optional, h]; rfl)
  | true =>
      refine Blames.congr (q := some <$> p) (.bind (hp c) fun _ _ => .pure) ?_
      rw [Parser.optional, h]
      rfl

/-- An item of a loop is entered only on a token that starts one. -/
theorem Blames.many (hp : ∀ d, starts d.current.kind = true → Blames s p d) :
    Blames s (many starts p) c := by
  induction c using induction_rounds starts with
  | stop c hst => exact .ok (many_of_not hst)
  | round c hst ih =>
      refine .congr (.onward (hp c hst) fun a d hlt => ?_) (many_eq_onward hst)
      exact .bind (ih d hlt) fun _ _ => .pure

theorem Blames.separated {k : Kind} (hp : ∀ d, Blames s p d) : Blames s (separated k p) c :=
  .bind (hp c) fun _ _ => .bind (.many fun _ _ => .bind .skip fun _ _ => hp _) fun _ _ => .pure

theorem Blames.after? {k : Kind} (hp : ∀ d, Blames s p d) : Blames s (after? k p) c :=
  .optional fun _ => .bind .skip fun _ d => hp d

end

end Parser

end ScriptFrontend
