import ScriptFrontend.Grammar.Declaration
import ScriptFrontend.Proofs.Reach
import ScriptFrontend.Proofs.Spelling
import ScriptFrontend.Proofs.Tracking

/-!
The judgment of soundness: what a production read, or what it would have read.

A postcondition relates a value to the lexemes that it was read from and the kind that follows them.
`Meets p c Q` says that the production `p` on the cursor `c` either yields a value that meets `Q`, or
stops at a token with an error that is viable: had one of the lexemes that the error asks for stood
there, followed by the right ones and the end of input, a value that meets `Q` would have come out.

Viability passes through sequences at no cost.  What is missing behind a part of a production is read
off from the rest of the production on the end of input: there it either ends well or asks for more.
-/

namespace ScriptFrontend

def Expected.Admits : Expected → Lexeme → Prop
  | kind k, l => l.kind = k
  | expression, l => (Grammar.operandEntry l.kind).isSome
  | operator, l => (Grammar.operatorEntry l.kind).isSome
  | statement, l => Grammar.standard.startsTop l.kind
  | classCategory, l => (ClassCategory.ofKind? l.kind).isSome
  | staticScalar, l => l.kind.isStaticScalar
  | loopDepth, l =>
    ∃ digits, l = .number digits ∧ (Text.Decimal.word? digits.toList).isSome

/-- What a value has to do with the lexemes it is read from and the kind behind them. -/
abbrev Post (α : Type) := α → List Lexeme → Kind → Prop

namespace Post

variable {α : Type}

def after (Q : Post α) (v : List Lexeme) : Post α :=
  fun a w k => Q a (v ++ w) k

/-- Behind some lexemes, one that the error asks for can be completed to a whole. -/
def Viable (Q : Post α) (x : Expected) (w : List Lexeme) : Prop :=
  ∃ u us a, x.Admits u ∧ Q a (w ++ u :: us) .endOfInput

def optional (starts : Kind → Bool) (P : Post α) : Post (Option α)
  | none, w, k => w = [] ∧ starts k = false
  | some a, w, k => P a w k

inductive Items (P : Post α) : List α → List Lexeme → Kind → Prop
  | nil (k : Kind) : Items P [] [] k
  | cons {a : α} {as : List α} {v w : List Lexeme} {k : Kind} :
      P a v (Lexeme.front w k) → Items P as w k → Items P (a :: as) (v ++ w) k

/-- Items read in front of a cursor whose kind is `k₀`, each of which may begin with another kind
when it is completed in another way: `R` bounds how far it strays. -/
def Joined (P : Post α) (starts : Kind → Bool) (R : Kind → Kind → Prop) (k₀ : Kind) :
    Post (List α) :=
  fun as w k =>
    (starts k₀ = true → w ≠ [] ∧ R k₀ (Lexeme.front w .endOfInput)) ∧
      starts k = false ∧ P.Items as w k

theorem Viable.mono {P Q : Post α} {x : Expected} {w : List Lexeme} (h : P.Viable x w)
    (hPQ : ∀ a v, P a v .endOfInput → Q a v .endOfInput) : Q.Viable x w := by
  obtain ⟨u, us, a, hu, ha⟩ := h
  exact ⟨u, us, a, hu, hPQ a _ ha⟩

theorem Viable.of_after {Q : Post α} {x : Expected} {v w : List Lexeme}
    (h : (Q.after v).Viable x w) : Q.Viable x (v ++ w) := by
  obtain ⟨u, us, a, hu, ha⟩ := h
  exact ⟨u, us, a, hu, by rw [List.append_assoc]; exact ha⟩

section

variable {P : Post α} {starts : Kind → Bool} {R : Kind → Kind → Prop} {k₀ k₁ k : Kind}
  {a : α} {as : List α} {x : Expected} {v w : List Lexeme}

theorem Joined.cons (hv : v ≠ []) (hfront : R k₀ (Lexeme.front v .endOfInput))
    (ha : P a v (Lexeme.front w k)) (has : P.Joined starts R k₁ as w k) :
    P.Joined starts R k₀ (a :: as) (v ++ w) k := by
  obtain ⟨l, ls, rfl⟩ := List.exists_cons_of_ne_nil hv
  exact ⟨fun _ => ⟨List.cons_ne_nil _ _, hfront⟩, has.2.1, .cons ha has.2.2⟩

/-- The item that is missing can be the last one. -/
theorem Viable.joined (hend : starts .endOfInput = false)
    (h : Viable (fun a w k => (w ≠ [] ∧ R k₀ (Lexeme.front w .endOfInput)) ∧ P a w k) x w) :
    (P.Joined starts R k₀).Viable x w := by
  obtain ⟨u, us, a, hu, hfront, ha⟩ := h
  refine ⟨u, us, [a], hu, fun _ => hfront, hend, ?_⟩
  have := Items.cons (w := []) ha (.nil .endOfInput)
  rwa [List.append_nil] at this

/-- The item in front stands whatever completes the ones behind it, since `R` keeps their first
kind harmless to it. -/
theorem Viable.joined_cons (hR : ∀ a v k k', P a v k → R k k' → P a v k')
    (hstarts : starts k₁ = true) (hv : v ≠ []) (hfront : R k₀ (Lexeme.front v .endOfInput))
    (ha : P a v k₁) (h : (P.Joined starts R k₁).Viable x w) :
    (P.Joined starts R k₀).Viable x (v ++ w) := by
  obtain ⟨u, us, as, hu, has⟩ := h
  refine ⟨u, us, a :: as, hu, ?_⟩
  rw [List.append_assoc]
  exact has.cons hv hfront (hR a v _ _ ha (has.1 hstarts).2)

end

/-- Items whose lexemes depend on nothing but the item. -/
theorem Items.of_lexemes {lexemes : α → List Lexeme} {G : α → Prop} {as : List α}
    {w : List Lexeme} {k : Kind} (h : Items (fun a v _ => G a ∧ v = lexemes a) as w k) :
    (∀ a ∈ as, G a) ∧ w = (as.map lexemes).flatten := by
  induction h with
  | nil k => exact ⟨nofun, rfl⟩
  | cons ha _ ih =>
      obtain ⟨hgood, rfl⟩ := ha
      obtain ⟨hgoods, rfl⟩ := ih
      exact ⟨List.forall_mem_cons.2 ⟨hgood, hgoods⟩, rfl⟩

end Post

namespace Parser

variable {α β : Type}

/-- Either the value meets the postcondition, or the error is viable. -/
def Outcome.Meets (c : Cursor) (Q : Post α) : Outcome α → Prop
  | .ok a d => ∃ w, c.Reads w d ∧ Q a w d.current.kind
  | .error e d => ∃ w, c.Reads w d ∧ e.found = d.current ∧ Q.Viable e.expected w

def Meets (p : Parser α) (c : Cursor) (Q : Post α) : Prop :=
  c.Closed → Outcome.Meets c Q (p c)

section

variable {p : Parser α} {f : α → Parser β} {c : Cursor} {P P' : Post α} {Q : Post β}

theorem Meets.congr {q : Parser α} (h : p c = q c) (hq : Meets q c P) : Meets p c P := by
  intro hc
  rw [h]
  exact hq hc

theorem Meets.mono (hp : Meets p c P) (h : ∀ a w k, P a w k → P' a w k) : Meets p c P' := by
  intro hc
  have := hp hc
  cases hpc : p c with
  | ok a d =>
      rw [hpc] at this
      obtain ⟨w, hw, ha⟩ := this
      exact ⟨w, hw, h a w _ ha⟩
  | error e d =>
      rw [hpc] at this
      obtain ⟨w, hw, hf, hv⟩ := this
      exact ⟨w, hw, hf, hv.mono fun a v => h a v _⟩

/-- On the end of input alone a production reads nothing or asks for more. -/
theorem Meets.inhabited (hp : Meets p (Cursor.ofTokens []) P) : ∃ a v, P a v .endOfInput := by
  have := hp (Cursor.closed_ofTokens [])
  cases hpc : p (Cursor.ofTokens []) with
  | ok a d =>
      rw [hpc] at this
      obtain ⟨w, hw, ha⟩ := this
      have hlen : 0 = w.length + d.rest.length := hw.length
      have hnil : w = [] := List.length_eq_zero_iff.1 (by omega)
      subst hnil
      rw [Cursor.reads_nil.1 hw] at ha
      exact ⟨a, [], ha⟩
  | error e d =>
      rw [hpc] at this
      obtain ⟨w, -, -, u, us, a, -, ha⟩ := this
      exact ⟨a, _, ha⟩

theorem Meets.pure {a : α} (h : P a [] c.current.kind) : Meets (pure a) c P :=
  fun _ => ⟨[], .refl c, h⟩

theorem Meets.fail {x : Expected} (h : P.Viable x []) : Meets (fail x) c P :=
  fun _ => ⟨[], .refl c, rfl, h⟩

/-- What is missing behind a part is what the rest of the production asks for at the end of
input. -/
theorem Meets.bind (hp : Meets p c P)
    (hf : ∀ a w (c₁ : Cursor), P a w c₁.current.kind → c₁.rest.length ≤ c.rest.length - w.length →
      Meets (f a) c₁ (Q.after w)) : Meets (p >>= f) c Q := by
  intro hc
  have hpc' := hp hc
  cases hpc : p c with
  | ok a d =>
      rw [hpc] at hpc'
      obtain ⟨w, hw, ha⟩ := hpc'
      have hlen := hw.length
      have hfd := hf a w d ha (by omega) (hw.closed hc)
      rw [bind_of_ok hpc]
      cases hfa : f a d with
      | ok b d' =>
          rw [hfa] at hfd
          obtain ⟨v, hv, hb⟩ := hfd
          exact ⟨w ++ v, hw.trans hv, hb⟩
      | error e d' =>
          rw [hfa] at hfd
          obtain ⟨v, hv, hfound, hviable⟩ := hfd
          exact ⟨w ++ v, hw.trans hv, hfound, hviable.of_after⟩
  | error e d =>
      rw [hpc] at hpc'
      obtain ⟨w, hw, hfound, u, us, a, hu, ha⟩ := hpc'
      rw [bind_of_error hpc]
      have hrest := hf a _ (Cursor.ofTokens []) ha (Nat.zero_le _)
      obtain ⟨b, v, hb⟩ := hrest.inhabited
      refine ⟨w, hw, hfound, u, us ++ v, b, hu, ?_⟩
      simpa [Post.after] using hb

theorem Meets.map {f : α → β} (hp : Meets p c P) (h : ∀ a w k, P a w k → Q (f a) w k) :
    Meets (f <$> p) c Q := by
  refine .bind (f := fun a => Pure.pure (f a)) hp fun a w c₁ ha _ => .pure ?_
  rw [Post.after, List.append_nil]
  exact h a w _ ha

theorem Meets.here_bind {f : Position → Parser β} (hf : Meets (f c.start) c Q) :
    Meets (here >>= f) c Q :=
  hf

theorem Meets.peek_bind {f : Token → Parser β} (hf : Meets (f c.current) c Q) :
    Meets (peek >>= f) c Q :=
  hf

theorem Meets.spanFrom_bind {start : Position} {f : Span → Parser β}
    (hf : ∀ span, Meets (f span) c Q) : Meets (spanFrom start >>= f) c Q :=
  hf ⟨start, c.previousEnd⟩

/-! ### Productions that consume -/

theorem Meets.advance (hk : c.current.kind ≠ .endOfInput) :
    Meets advance c fun t w _ => t = c.current ∧ w = [c.current.lexeme] :=
  fun hc => ⟨_, hc.reads_advance hk, rfl, rfl⟩

theorem Meets.advance_bind {f : Token → Parser β} (hk : c.current.kind ≠ .endOfInput)
    (hf : ∀ c₁ : Cursor, c₁.rest.length ≤ c.rest.length - 1 →
      Meets (f c.current) c₁ (Q.after [c.current.lexeme])) : Meets (Parser.advance >>= f) c Q := by
  refine .bind (.advance hk) ?_
  rintro t w c₁ ⟨rfl, rfl⟩ h₁
  exact hf c₁ h₁

theorem Meets.skip_bind {f : Unit → Parser β} (hk : c.current.kind ≠ .endOfInput)
    (hf : ∀ c₁ : Cursor, c₁.rest.length ≤ c.rest.length - 1 →
      Meets (f ()) c₁ (Q.after [c.current.lexeme])) : Meets (Parser.skip >>= f) c Q :=
  Meets.advance_bind (f := fun _ => f ()) hk hf

theorem Meets.expect {k : Kind} {u : Lexeme} (hu : u.kind = k) (hk : k ≠ .endOfInput) :
    Meets (expect k) c fun t w _ => t.kind = k ∧ w = [t.lexeme] := by
  intro hc
  rw [Parser.expect]
  split
  next h => exact ⟨_, hc.reads_advance (h ▸ hk), h, rfl⟩
  next h => exact ⟨[], .refl c, rfl, u, [], u.token, hu, hu, by rw [Token.lexeme_token]; rfl⟩

theorem Meets.require_bind {k : Kind} {f : Unit → Parser β} (hk : k.Fixed)
    (hf : ∀ c₁ : Cursor, c₁.rest.length ≤ c.rest.length - 1 →
      Meets (f ()) c₁ (Q.after [k.lexeme])) : Meets (Parser.require k >>= f) c Q := by
  have h := Meets.bind (f := fun _ => f ()) (Q := Q)
    (Meets.expect (c := c) k.kind_lexeme hk.ne_endOfInput) ?_
  · refine .congr ?_ h
    simp only [Bind.bind, EStateM.bind, Parser.require, Parser.expect]
    by_cases hck : c.current.kind = k <;> simp only [hck, if_true, if_false]
  · rintro t w c₁ ⟨ht, rfl⟩ h₁
    rw [Token.lexeme_of_fixed hk ht]
    exact hf c₁ h₁

theorem Meets.accept_bind {k : Kind} {f : Bool → Parser β} (hk : k.Fixed)
    (hf : ∀ b (c₁ : Cursor), c₁.rest.length ≤ c.rest.length →
      Meets (f b) c₁ (Q.after (Lexeme.flag b k.lexeme))) : Meets (accept k >>= f) c Q := by
  by_cases h : c.current.kind = k
  · have hne : c.current.kind ≠ .endOfInput := h ▸ hk.ne_endOfInput
    refine .congr (q := Parser.advance >>= fun _ => f true) ?_ (.advance_bind hne fun c₁ h₁ => ?_)
    · simp only [Bind.bind, EStateM.bind, accept, if_pos h, Parser.advance]
    · rw [Token.lexeme_of_fixed hk h]
      exact hf true c₁ (Nat.le_trans h₁ (Nat.sub_le _ _))
  · refine .congr (q := f false) ?_ (hf false c (Nat.le_refl _))
    simp only [Bind.bind, EStateM.bind, accept, if_neg h]

theorem Meets.skipIf_bind {k : Kind} {f : Unit → Parser β} (hk : k.Fixed)
    (hf : ∀ b (c₁ : Cursor), c₁.rest.length ≤ c.rest.length →
      Meets (f ()) c₁ (Q.after (Lexeme.flag b k.lexeme))) : Meets (skipIf k >>= f) c Q := by
  refine .congr (q := accept k >>= fun _ => f ()) ?_ (.accept_bind hk hf)
  simp only [Bind.bind, EStateM.bind, skipIf, accept]
  by_cases hck : c.current.kind = k <;> simp only [hck, if_true, if_false]

end

/-! ### Repetitions and options -/

section

variable {starts : Kind → Bool} {p : Parser α} {c : Cursor} {P : Post α}

theorem Meets.optional (hp : starts c.current.kind = true → Meets p c P) :
    Meets (optional starts p) c (P.optional starts) := by
  cases hst : starts c.current.kind with
  | false => exact .congr (q := Pure.pure none) (by rw [Parser.optional, hst]; rfl) (.pure ⟨rfl, hst⟩)
  | true =>
      refine .congr (q := some <$> p) (by rw [Parser.optional, hst]; rfl) ?_
      exact .map (hp hst) fun a w k h => h

theorem Meets.after? {k : Kind} (hk : k.Fixed)
    (hp : ∀ c₁ : Cursor, c₁.rest.length ≤ c.rest.length - 1 → Meets p c₁ P) :
    Meets (after? k p) c (Post.optional (· = k) fun a w next =>
      ∃ v, w = k.lexeme :: v ∧ P a v next) := by
  refine .optional fun hst => ?_
  have hck : c.current.kind = k := of_decide_eq_true hst
  refine .skip_bind (hck ▸ hk.ne_endOfInput) fun c₁ h₁ => (hp c₁ h₁).mono fun a w next h => ?_
  rw [Token.lexeme_of_fixed hk hck]
  exact ⟨w, rfl, h⟩

/-- An item that is completed in another way than the one that was read may begin with another
kind, which `R` keeps harmless to the item before it. -/
theorem Meets.many_joining {R : Kind → Kind → Prop} (hend : starts .endOfInput = false)
    (hR : ∀ a v k k', P a v k → R k k' → P a v k')
    (hp : ∀ c₁ : Cursor, c₁.rest.length ≤ c.rest.length → starts c₁.current.kind = true →
      Meets p c₁ fun a w k => (w ≠ [] ∧ R c₁.current.kind (Lexeme.front w .endOfInput)) ∧ P a w k) :
    Meets (many starts p) c fun as w k => starts k = false ∧ P.Items as w k := by
  -- The item in front was read with the kind behind it, which may be another one once the items
  -- behind it are completed; so their first kind is part of the invariant.
  suffices h : Meets (Parser.many starts p) c (P.Joined starts R c.current.kind) from
    h.mono fun as w k h => h.2
  induction c using induction_rounds starts with
  | stop c hst =>
      refine .congr (q := Pure.pure []) (many_of_not hst) (.pure ⟨fun h => ?_, hst, .nil _⟩)
      rw [hst] at h
      cases h
  | round c hst ih =>
      intro hc
      have hitem := hp c (Nat.le_refl _) hst hc
      cases hpc : p c with
      | error e d =>
          rw [hpc] at hitem
          obtain ⟨w, hw, hfound, hviable⟩ := hitem
          rw [many_of_error hst hpc]
          exact ⟨w, hw, hfound, hviable.joined hend⟩
      | ok a d =>
          rw [hpc] at hitem
          obtain ⟨v, hv, ⟨hne, hfront⟩, ha⟩ := hitem
          have hlen := hv.length
          have hpos := List.length_pos_iff.2 hne
          have hmore := ih d (by omega) (fun c₁ h₁ => hp c₁ (by omega)) (hv.closed hc)
          rw [many_of_ok hst hpc (by omega)]
          simp only [Functor.map, EStateM.map]
          cases hmd : Parser.many starts p d with
          | ok as d' =>
              rw [hmd] at hmore
              obtain ⟨w, hw, has⟩ := hmore
              exact ⟨_, hv.trans hw, has.cons hne hfront (hw.kind_eq ▸ ha)⟩
          | error e d' =>
              rw [hmd] at hmore
              obtain ⟨w, hw, hfound, hviable⟩ := hmore
              have hstarts := starts_of_many_error hmd
              exact ⟨_, hv.trans hw, hfound, hviable.joined_cons hR hstarts hne hfront ha⟩

/-- Items that do not care what follows them. -/
theorem Meets.many {S : α → List Lexeme → Prop} (hend : starts .endOfInput = false)
    (hp : ∀ c₁ : Cursor, c₁.rest.length ≤ c.rest.length → starts c₁.current.kind = true →
      Meets p c₁ fun a w _ => w ≠ [] ∧ S a w) :
    Meets (many starts p) c fun as w _ => Post.Items (fun a w _ => S a w) as w .endOfInput := by
  refine .mono (.many_joining (R := fun _ _ => True) (P := fun a w _ => S a w) hend
    (fun _ _ _ _ h _ => h) fun c₁ h₁ hst =>
      (hp c₁ h₁ hst).mono fun a w k h => ⟨⟨h.1, trivial⟩, h.2⟩)
    fun as w k h => ?_
  obtain ⟨-, h⟩ := h
  induction h with
  | nil k => exact .nil _
  | cons ha _ ih => exact .cons ha ih

theorem Meets.separated {m : Mark} {lexemes : α → List Lexeme} {G : α → Prop}
    (hp : ∀ c₁ : Cursor, c₁.rest.length ≤ c.rest.length →
      Meets p c₁ fun a w _ => G a ∧ w = lexemes a) :
    Meets (separated (.mark m) p) c fun as w _ =>
      as ≠ [] ∧ (∀ a ∈ as, G a) ∧ w = [Lexeme.mark m].intercalate (as.map lexemes) := by
  refine .bind (hp c (Nat.le_refl _)) ?_
  rintro a _ c₁ ⟨ha, rfl⟩ h₁
  refine .bind (Meets.many (S := fun a w => G a ∧ w = .mark m :: lexemes a) rfl ?_) ?_
  · intro c₂ h₂ hst
    have hk : c₂.current.kind = .mark m := of_decide_eq_true hst
    refine .skip_bind (by rw [hk]; exact nofun) fun c₃ h₃ => ?_
    refine (hp c₃ (by omega)).mono fun a w k h => ?_
    rw [Token.lexeme_of_mark hk]
    exact ⟨List.cons_ne_nil _ _, h.1, congrArg _ h.2⟩
  · intro as w c₂ has h₂
    obtain ⟨hgoods, rfl⟩ := has.of_lexemes
    refine .pure ⟨List.cons_ne_nil a as, List.forall_mem_cons.2 ⟨ha, hgoods⟩, ?_⟩
    rw [List.append_nil, List.map_cons, intercalate_cons, List.map_map]
    rfl

end

end Parser

end ScriptFrontend
