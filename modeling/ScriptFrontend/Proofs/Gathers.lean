import ScriptFrontend.Proofs.Extent
import ScriptFrontend.Proofs.Meets

/-!
The judgment of gathering: which tokens a value was read from.

`Gathers p c₀ u c Q` says of a production `p` on the cursor `c`, which has passed over the tokens `u`
since it stood at `c₀`: if it yields a value, then the value and all the tokens passed over since `c₀`
meet `Q`.  The cursor `c₀` stays the same through a sequence, so at its end the tokens are at hand that
a span from its start covers.  The end of input is never among them.
-/

namespace ScriptFrontend

structure Cursor.Passes (c : Cursor) (w : List Token) (d : Cursor) : Prop
    extends Cursor.Reaches c w d where
  kind_ne : ∀ t ∈ w, t.kind ≠ .endOfInput

namespace Cursor

variable {c d e : Cursor} {v w : List Token}

theorem Passes.refl (c : Cursor) : c.Passes [] c :=
  ⟨.refl c, nofun⟩

theorem Passes.trans (h : c.Passes v d) (h' : d.Passes w e) : c.Passes (v ++ w) e :=
  ⟨h.toReaches.trans h'.toReaches, fun t ht =>
    (List.mem_append.1 ht).elim (h.kind_ne t) (h'.kind_ne t)⟩

theorem Closed.passes_advance (hc : c.Closed) (hk : c.current.kind ≠ .endOfInput) :
    c.Passes [c.current] c.advance :=
  ⟨hc.reaches_advance hk, fun _ ht => List.mem_singleton.1 ht ▸ hk⟩

/-- From where a move starts to the end of the last token it passes over. -/
theorem Reaches.covers (h : c.Reaches w d) (hw : w ≠ []) :
    Span.Covers ⟨c.start, d.previousEnd⟩ w := by
  obtain ⟨first, v, rfl⟩ := List.exists_cons_of_ne_nil hw
  obtain ⟨u, last, hlast⟩ := List.exists_cons_of_ne_nil (List.reverse_ne_nil_iff.2 hw)
  have hw : (first :: v).getLast? = some u := by
    rw [← List.head?_reverse, hlast]
    rfl
  refine ⟨first, rfl, u, hw, ?_⟩
  rw [start, h.current, previousEnd, h.consumed, hlast]
  rfl

end Cursor

namespace Parser

variable {α β : Type}

/-- If the production yields a value, then the value and the tokens since `c₀` meet `Q`. -/
def Gathers (p : Parser α) (c₀ : Cursor) (u : List Token) (c : Cursor)
    (Q : α → List Token → Prop) : Prop :=
  c₀.Closed → c₀.Passes u c → ∀ a d, p c = .ok a d → ∃ w, c₀.Passes w d ∧ Q a w

section

variable {p : Parser α} {f : α → Parser β} {c₀ c : Cursor} {u : List Token}
variable {P P' : α → List Token → Prop} {Q : β → List Token → Prop}

theorem Gathers.congr {q : Parser α} (h : p c = q c) (hq : Gathers q c₀ u c P) :
    Gathers p c₀ u c P := by
  intro hc hu a d hp
  rw [h] at hp
  exact hq hc hu a d hp

theorem Gathers.mono (hp : Gathers p c₀ u c P) (h : ∀ a w, P a w → P' a w) :
    Gathers p c₀ u c P' := by
  intro hc hu a d hpc
  obtain ⟨w, hw, ha⟩ := hp hc hu a d hpc
  exact ⟨w, hw, h a w ha⟩

theorem Gathers.pure {a : α} (h : P a u) : Gathers (pure a) c₀ u c P := by
  rintro - hu _ _ ⟨⟩
  exact ⟨u, hu, h⟩

theorem Gathers.fail (x : Expected) : Gathers (fail x) c₀ u c P := by
  rintro - - _ _ ⟨⟩

theorem Gathers.throw (e : SyntaxError) : Gathers (throw e) c₀ u c P := by
  rintro - - _ _ ⟨⟩

/-- A part of a sequence gathers from its own start, and what comes behind it from that of the
sequence. -/
theorem Gathers.bind
    (hp : c₀.rest.length = u.length + c.rest.length → Gathers p c [] c P)
    (hf : ∀ a v c₁, P a v → Gathers (f a) c₀ (u ++ v) c₁ Q) : Gathers (p >>= f) c₀ u c Q := by
  intro hc hu b d h
  cases hpc : p c with
  | error e c₁ => cases (bind_of_error hpc).symm.trans h
  | ok a c₁ =>
      rw [bind_of_ok hpc] at h
      obtain ⟨v, hv, ha⟩ := hp hu.length (hu.closed hc) (.refl c) a c₁ hpc
      exact hf a v c₁ ha hc (hu.trans hv) b d h

/-- The last part of a sequence. -/
theorem Gathers.last (hp : c₀.rest.length = u.length + c.rest.length → Gathers p c [] c P)
    (h : ∀ a v, P a v → P' a (u ++ v)) : Gathers p c₀ u c P' := by
  have := Gathers.bind (f := Pure.pure) hp fun a v c₁ ha => .pure (h a v ha)
  rwa [bind_pure] at this

/-- Behind a production that may have consumed nothing, the next one only runs if it has. -/
theorem Gathers.onward {last : α → β} (hp : Gathers p c₀ u c P)
    (hf : ∀ a w (c₁ : Cursor), P a w → c₁.rest.length < c.rest.length →
      Gathers (f a) c₀ w c₁ Q)
    (hlast : ∀ a w, P a w → Q (last a) w) : Gathers (onward p f last) c₀ u c Q := by
  intro hc hu b d h
  cases hpc : p c with
  | error e c₁ => cases (onward_of_error hpc).symm.trans h
  | ok a c₁ =>
      obtain ⟨w, hw, ha⟩ := hp hc hu a c₁ hpc
      by_cases hlt : c₁.rest.length < c.rest.length
      · rw [onward_of_ok hpc hlt] at h
        exact hf a w c₁ ha hlt hc hw b d h
      · cases (onward_of_stuck hpc hlt).symm.trans h
        exact ⟨w, hw, hlast a w ha⟩

/-- What a production reads it reads from the tokens it gathers. -/
theorem Gathers.and_meets {R : Post α} (hp : Gathers p c [] c P) (hm : Meets p c R) :
    Gathers p c [] c fun a w => P a w ∧ ∃ k, R a (w.map Token.lexeme) k := by
  intro hc hu a d h
  obtain ⟨w, hw, ha⟩ := hp hc hu a d h
  have hread := hm hc
  rw [h] at hread
  obtain ⟨_, ⟨v, hv, rfl⟩, hR⟩ := hread
  obtain rfl : v = w := List.append_cancel_right (hv.ahead.symm.trans hw.ahead)
  exact ⟨v, hw, ha, _, hR⟩

theorem Gathers.here_bind {f : Position → Parser β} (hf : Gathers (f c.start) c₀ u c Q) :
    Gathers (here >>= f) c₀ u c Q :=
  hf

theorem Gathers.peek_bind {f : Token → Parser β} (hf : Gathers (f c.current) c₀ u c Q) :
    Gathers (peek >>= f) c₀ u c Q :=
  hf

/-- A span that ends here covers the tokens gathered so far if it starts where they do. -/
theorem Gathers.spanFrom_bind {start : Position} {f : Span → Parser β} (hu : u ≠ [])
    (hf : ∀ stop, Span.Covers ⟨c₀.start, stop⟩ u → Gathers (f ⟨start, stop⟩) c₀ u c Q) :
    Gathers (spanFrom start >>= f) c₀ u c Q := by
  intro hc hpass
  exact hf c.previousEnd (hpass.covers hu) hc hpass

/-! ### Productions that consume -/

theorem Gathers.advance_bind {f : Token → Parser β} (hk : c.current.kind ≠ .endOfInput)
    (hf : ∀ c₁, Gathers (f c.current) c₀ (u ++ [c.current]) c₁ Q) :
    Gathers (Parser.advance >>= f) c₀ u c Q := by
  intro hc hu
  exact hf c.advance hc (hu.trans ((hu.closed hc).passes_advance hk))

theorem Gathers.skip_bind {f : Unit → Parser β} (hk : c.current.kind ≠ .endOfInput)
    (hf : ∀ c₁, Gathers (f ()) c₀ (u ++ [c.current]) c₁ Q) :
    Gathers (Parser.skip >>= f) c₀ u c Q :=
  Gathers.advance_bind (f := fun _ => f ()) hk hf

theorem Gathers.expect_bind {k : Kind} {f : Token → Parser β} (hk : k ≠ .endOfInput)
    (hf : ∀ t c₁, t.kind = k → Gathers (f t) c₀ (u ++ [t]) c₁ Q) :
    Gathers (expect k >>= f) c₀ u c Q := by
  by_cases h : c.current.kind = k
  · refine .congr (q := Parser.advance >>= f) ?_ (.advance_bind (h ▸ hk) fun c₁ => hf _ c₁ h)
    simp only [Bind.bind, EStateM.bind, expect, if_pos h, Parser.advance]
  · refine .congr (q := Parser.fail (.kind k)) ?_ (.fail _)
    simp only [Bind.bind, EStateM.bind, expect, if_neg h, Parser.fail]

theorem Gathers.require_bind {k : Kind} {f : Unit → Parser β} (hk : k ≠ .endOfInput)
    (hf : ∀ t c₁, t.kind = k → Gathers (f ()) c₀ (u ++ [t]) c₁ Q) :
    Gathers (require k >>= f) c₀ u c Q := by
  refine .congr (q := expect k >>= fun _ => f ()) ?_ (.expect_bind hk hf)
  simp only [Bind.bind, EStateM.bind, Parser.require, Parser.expect]
  by_cases hck : c.current.kind = k <;> simp only [hck, if_true, if_false]

theorem Gathers.accept_bind {k : Kind} {f : Bool → Parser β} (hk : k ≠ .endOfInput)
    (hf : ∀ b v c₁, Gathers (f b) c₀ (u ++ v) c₁ Q) : Gathers (accept k >>= f) c₀ u c Q := by
  by_cases h : c.current.kind = k
  · refine .congr (q := Parser.advance >>= fun _ => f true) ?_
      (.advance_bind (h ▸ hk) fun c₁ => hf true _ c₁)
    simp only [Bind.bind, EStateM.bind, accept, if_pos h, Parser.advance]
  · refine .congr (q := f false) ?_ ?_
    · simp only [Bind.bind, EStateM.bind, accept, if_neg h]
    · have := hf false [] c
      rwa [List.append_nil] at this

theorem Gathers.skipIf_bind {k : Kind} {f : Unit → Parser β} (hk : k ≠ .endOfInput)
    (hf : ∀ v c₁, Gathers (f ()) c₀ (u ++ v) c₁ Q) : Gathers (skipIf k >>= f) c₀ u c Q := by
  refine .congr (q := accept k >>= fun _ => f ()) ?_ (.accept_bind hk fun _ => hf)
  simp only [Bind.bind, EStateM.bind, skipIf, accept]
  by_cases hck : c.current.kind = k <;> simp only [hck, if_true, if_false]

end

/-! ### Repetitions and options -/

section

variable {starts : Kind → Bool} {p : Parser α} {c : Cursor} {P : α → List Token → Prop} {k : Kind}

theorem Gathers.optional (hp : starts c.current.kind = true → Gathers p c [] c P) :
    Gathers (optional starts p) c [] c fun o w =>
      o = none ∧ w = [] ∨ ∃ a, o = some a ∧ P a w := by
  cases hst : starts c.current.kind with
  | false =>
      exact .congr (q := Pure.pure none) (by rw [Parser.optional, hst]; rfl) (.pure (.inl ⟨rfl, rfl⟩))
  | true =>
      refine .congr (q := p >>= fun a => Pure.pure (some a)) (by rw [Parser.optional, hst]; rfl) ?_
      exact .bind (fun _ => hp hst) fun a v c₁ ha => .pure (.inr ⟨a, rfl, ha⟩)

/-- The items of a repetition make up all that it gathers. -/
theorem Gathers.many
    (hp : ∀ c₁ : Cursor, c₁.rest.length ≤ c.rest.length → starts c₁.current.kind = true →
      Gathers p c₁ [] c₁ P) : Gathers (many starts p) c [] c (Filled P) := by
  induction c using induction_rounds starts with
  | stop c hst => exact .congr (q := Pure.pure []) (many_of_not hst) (.pure .nil)
  | round c hst ih =>
      refine .congr (many_eq_onward hst) (.onward (hp c (Nat.le_refl _) hst) ?_ ?_)
      · intro a w c₁ ha hlt
        have hmore : Gathers (Parser.many starts p) c₁ [] c₁ (Filled P) :=
          ih c₁ hlt fun c₂ h₂ => hp c₂ (by omega)
        exact .bind (f := fun as => Pure.pure (a :: as)) (fun _ => hmore) fun as v c₂ has =>
          .pure (.cons ha has)
      · intro a w ha
        have := Filled.cons ha .nil
        rwa [List.append_nil] at this

theorem Gathers.separated {m : Mark} {lexemes : α → List Lexeme}
    (hP : ∀ a w, P a w → w.map Token.lexeme = lexemes a)
    (hp : ∀ c₁ : Cursor, c₁.rest.length ≤ c.rest.length → Gathers p c₁ [] c₁ P) :
    Gathers (separated (.mark m) p) c [] c fun as w =>
      Spread P as w ∧ w.map Token.lexeme = [Lexeme.mark m].intercalate (as.map lexemes) := by
  refine .bind (fun _ => hp c (Nat.le_refl _)) fun a v c₁ ha => ?_
  refine .bind (P := Filled fun a w =>
    Spread P [a] w ∧ w.map Token.lexeme = .mark m :: lexemes a) (fun h₁ => .many fun c₂ h₂ hst => ?_)
    fun as w c₂ has => .pure ⟨?_, ?_⟩
  · have hk : c₂.current.kind = .mark m := of_decide_eq_true hst
    refine .skip_bind (by rw [hk]; exact nofun) fun c₃ => ?_
    refine .last (fun h₃ => hp c₃ (by omega)) fun b x hb => ?_
    refine ⟨(Spread.single hb).pad_left _, ?_⟩
    rw [List.nil_append, List.singleton_append, List.map_cons, Token.lexeme_of_mark hk, hP b x hb]
  · exact (Spread.single ha).append (has.mono fun _ _ h => h.1).spread.flatten
  · have hothers := (has.mono fun _ _ h => h.2).map_lexeme
    rw [List.nil_append, List.map_append, hP a v ha, hothers, List.map_cons, intercalate_cons,
      List.map_map]
    rfl

theorem Gathers.after? (hk : k ≠ .endOfInput)
    (hp : ∀ c₁ : Cursor, c₁.rest.length ≤ c.rest.length → Gathers p c₁ [] c₁ P) :
    Gathers (after? k p) c [] c fun o w =>
      o = none ∧ w = [] ∨ ∃ a, o = some a ∧ ∃ t v, w = t :: v ∧ P a v := by
  refine .optional fun hst => ?_
  have hck : c.current.kind ≠ .endOfInput := by
    rw [of_decide_eq_true hst]
    exact hk
  refine .skip_bind hck fun c₁ => ?_
  exact .last (fun h₁ => hp c₁ (by omega)) fun a v ha => ⟨_, v, rfl, ha⟩

end

end Parser

end ScriptFrontend
