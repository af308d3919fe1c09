import ScriptFrontend.Grammar.Declaration
import ScriptFrontend.Proofs.Reach
import ScriptFrontend.Proofs.Spelling
import ScriptFrontend.Proofs.Tracking

/-!
The judgment of completeness: what a production makes of lexemes that it ought to read.

`Yields p w k Q` says that the production `p` reads the lexemes `w` to the end, wherever they lie
ahead with a token of kind `k` behind them, and yields a value with `Q`.  The kind behind matters,
since a production stops where the next kind cannot continue it.
-/

namespace ScriptFrontend

namespace Parser

variable {α β : Type}

def Yields (p : Parser α) (w : List Lexeme) (k : Kind) (Q : α → Prop) : Prop :=
  ∀ c d : Cursor, c.Reads w d → d.current.kind = k → ∃ a, p c = .ok a d ∧ Q a

section

variable {p : Parser α} {f : α → Parser β} {l : Lexeme} {v w : List Lexeme} {k : Kind}
variable {P : α → Prop} {Q : β → Prop}

theorem Yields.mono {P' : α → Prop} (hp : Yields p w k P) (h : ∀ a, P a → P' a) :
    Yields p w k P' := by
  intro c d hr hk
  obtain ⟨a, ha, hP⟩ := hp c d hr hk
  exact ⟨a, ha, h a hP⟩

theorem Yields.pure {b : β} (h : Q b) : Yields (pure b) [] k Q := by
  intro c d hr _
  rw [Cursor.reads_nil.1 hr]
  exact ⟨b, rfl, h⟩

/-- A part reads its own lexemes if the kind in front of the others stops it. -/
theorem Yields.bind (hp : Yields p v (Lexeme.front w k) P)
    (hf : ∀ a, P a → Yields (f a) w k Q) : Yields (p >>= f) (v ++ w) k Q := by
  intro c d hr hk
  obtain ⟨e, hce, hed⟩ := hr.split
  obtain ⟨a, ha, hP⟩ := hp c e hce (hk ▸ hed.kind_eq)
  obtain ⟨b, hb, hQ⟩ := hf a hP e d hed hk
  exact ⟨b, (bind_of_ok ha).trans hb, hQ⟩

theorem Yields.here_bind {f : Position → Parser β} (hf : ∀ p, Yields (f p) w k Q) :
    Yields (here >>= f) w k Q :=
  fun c d hr hk => hf c.start c d hr hk

theorem Yields.spanFrom_bind {start : Position} {f : Span → Parser β}
    (hf : ∀ span, Yields (f span) w k Q) : Yields (spanFrom start >>= f) w k Q :=
  fun c d hr hk => hf ⟨start, c.previousEnd⟩ c d hr hk

theorem Yields.peek_bind {f : Token → Parser β}
    (hf : ∀ t : Token, t.kind = Lexeme.front w k → (∀ l ∈ w.head?, t.lexeme = l) →
      Yields (f t) w k Q) : Yields (peek >>= f) w k Q := by
  intro c d hr hk
  refine hf c.current (hk ▸ hr.kind_eq) ?_ c d hr hk
  intro l hl
  obtain ⟨v, rfl⟩ := List.head?_eq_some_iff.1 hl
  exact hr.lexeme_eq

theorem Yields.advance_bind {f : Token → Parser β}
    (hf : ∀ t : Token, t.lexeme = l → Yields (f t) w k Q) :
    Yields (Parser.advance >>= f) (l :: w) k Q :=
  fun c d hr hk => hf c.current hr.lexeme_eq c.advance d hr.advance hk

theorem Yields.skip_bind {f : Unit → Parser β} (hf : Yields (f ()) w k Q) :
    Yields (Parser.skip >>= f) (l :: w) k Q :=
  fun c d hr hk => hf c.advance d hr.advance hk

theorem kind_of_reads {c d : Cursor} (hr : c.Reads (l :: w) d) : c.current.kind = l.kind := by
  rw [← Token.kind_lexeme, hr.lexeme_eq]

theorem Yields.expect_bind {f : Token → Parser β}
    (hf : ∀ t : Token, t.lexeme = l → Yields (f t) w k Q) :
    Yields (Parser.expect l.kind >>= f) (l :: w) k Q := by
  intro c d hr hk
  have hexpect : Parser.expect l.kind c = .ok c.current c.advance := if_pos (kind_of_reads hr)
  obtain ⟨b, hb, hQ⟩ := hf c.current hr.lexeme_eq c.advance d hr.advance hk
  exact ⟨b, (bind_of_ok hexpect).trans hb, hQ⟩

theorem Yields.require_bind {f : Unit → Parser β} (hf : Yields (f ()) w k Q) :
    Yields (Parser.require l.kind >>= f) (l :: w) k Q := by
  intro c d hr hk
  have hrequire : Parser.require l.kind c = .ok () c.advance := if_pos (kind_of_reads hr)
  obtain ⟨b, hb, hQ⟩ := hf c.advance d hr.advance hk
  exact ⟨b, (bind_of_ok hrequire).trans hb, hQ⟩

/-- A flag is read off from its lexeme, and from the absence of its kind in front of the rest. -/
theorem Yields.accept_bind {b : Bool} {f : Bool → Parser β}
    (hk : b = false → Lexeme.front w k ≠ l.kind) (hf : Yields (f b) w k Q) :
    Yields (Parser.accept l.kind >>= f) (Lexeme.flag b l ++ w) k Q := by
  intro c d hr hd
  cases b with
  | true =>
      have haccept : Parser.accept l.kind c = .ok true c.advance := if_pos (kind_of_reads hr)
      obtain ⟨a, ha, hQ⟩ := hf c.advance d hr.advance hd
      exact ⟨a, (bind_of_ok haccept).trans ha, hQ⟩
  | false =>
      have hne : c.current.kind ≠ l.kind := by
        rw [hr.kind_eq, hd]
        exact hk rfl
      have haccept : Parser.accept l.kind c = .ok false c := if_neg hne
      obtain ⟨a, ha, hQ⟩ := hf c d hr hd
      exact ⟨a, (bind_of_ok haccept).trans ha, hQ⟩

theorem Yields.skipIf_bind {b : Bool} {f : Unit → Parser β}
    (hk : b = false → Lexeme.front w k ≠ l.kind) (hf : Yields (f ()) w k Q) :
    Yields (Parser.skipIf l.kind >>= f) (Lexeme.flag b l ++ w) k Q := by
  intro c d hr hd
  cases b with
  | true =>
      have hskip : Parser.skipIf l.kind c = .ok () c.advance := by
        rw [Parser.skipIf, if_pos (kind_of_reads hr)]
      obtain ⟨a, ha, hQ⟩ := hf c.advance d hr.advance hd
      exact ⟨a, (bind_of_ok hskip).trans ha, hQ⟩
  | false =>
      have hne : c.current.kind ≠ l.kind := by
        rw [hr.kind_eq, hd]
        exact hk rfl
      have hskip : Parser.skipIf l.kind c = .ok () c := by
        rw [Parser.skipIf, if_neg hne]
      obtain ⟨a, ha, hQ⟩ := hf c d hr hd
      exact ⟨a, (bind_of_ok hskip).trans ha, hQ⟩

end

/-! ### Repetitions and options -/

section

variable {starts : Kind → Bool} {p : Parser α} {v w : List Lexeme} {k : Kind} {P : α → Prop}

theorem Yields.optional_none {Q : Option α → Prop} (hk : starts k = false) (h : Q none) :
    Yields (optional starts p) [] k Q := by
  intro c d hr hd
  have hst : starts c.current.kind = false := by
    rw [hr.kind_eq, hd]
    exact hk
  refine ⟨none, ?_, h⟩
  rw [Parser.optional, hst, Cursor.reads_nil.1 hr]
  rfl

theorem Yields.optional_some {Q : Option α → Prop} (hk : starts (Lexeme.front w k) = true)
    (hp : Yields p w k fun a => Q (some a)) : Yields (optional starts p) w k Q := by
  intro c d hr hd
  have hst : starts c.current.kind = true := by
    rw [hr.kind_eq, hd]
    exact hk
  obtain ⟨a, ha, hQ⟩ := hp c d hr hd
  refine ⟨some a, ?_, hQ⟩
  rw [Parser.optional, hst]
  exact bind_of_ok ha

theorem Yields.after?_some {Q : Option α → Prop} {l : Lexeme}
    (hp : Yields p w k fun a => Q (some a)) : Yields (after? l.kind p) (l :: w) k Q :=
  .optional_some (decide_eq_true rfl) (.skip_bind hp)

theorem Yields.many_nil {Q : List α → Prop} (hk : starts k = false) (h : Q []) :
    Yields (many starts p) [] k Q := by
  intro c d hr hd
  have hst : starts c.current.kind = false := by
    rw [hr.kind_eq, hd]
    exact hk
  rw [Cursor.reads_nil.1 hr]
  exact ⟨[], many_of_not hst, h⟩

theorem Yields.many_cons {Q R : List α → Prop} (hv : v ≠ [])
    (hst : starts (Lexeme.front v (Lexeme.front w k)) = true)
    (hp : Yields p v (Lexeme.front w k) P) (hmany : Yields (many starts p) w k R)
    (h : ∀ a as, P a → R as → Q (a :: as)) : Yields (many starts p) (v ++ w) k Q := by
  intro c d hr hd
  obtain ⟨e, hce, hed⟩ := hr.split
  obtain ⟨a, ha, hP⟩ := hp c e hce (hd ▸ hed.kind_eq)
  obtain ⟨as, has, hR⟩ := hmany e d hed hd
  have hstc : starts c.current.kind = true := by
    rw [hr.kind_eq, hd, Lexeme.front_append]
    exact hst
  have hlt : e.rest.length < c.rest.length := by
    have := hce.length
    have := List.length_pos_iff.2 hv
    omega
  refine ⟨a :: as, ?_, h a as hP hR⟩
  rw [many_of_ok hstc ha hlt]
  exact bind_of_ok has

/-- Items whose lexemes depend on nothing but the item, up to a function of the items. -/
theorem Yields.many {β : Type} {lexemes : α → List Lexeme} {φ : α → β} {as : List α}
    (hk : starts k = false)
    (hst : ∀ a ∈ as, lexemes a ≠ [] ∧ ∀ k, starts (Lexeme.front (lexemes a) k) = true)
    (hp : ∀ a ∈ as, ∀ k', k' = k ∨ starts k' = true →
      Yields p (lexemes a) k' fun b => φ b = φ a) :
    Yields (many starts p) ((as.map lexemes).flatten) k fun bs => bs.map φ = as.map φ := by
  induction as with
  | nil => exact .many_nil hk rfl
  | cons a as ih =>
      obtain ⟨hsta, hstas⟩ := List.forall_mem_cons.1 hst
      obtain ⟨hpa, hpas⟩ := List.forall_mem_cons.1 hp
      rw [List.map_cons, List.flatten_cons]
      refine .many_cons hsta.1 (hsta.2 _) (hpa _ ?_) (ih hstas hpas) ?_
      · cases as with
        | nil => exact .inl rfl
        | cons a' as =>
            rw [List.map_cons, List.flatten_cons, Lexeme.front_append]
            exact .inr ((hstas a' (List.mem_cons_self ..)).2 _)
      · intro b bs hb hbs
        rw [List.map_cons, List.map_cons, hb, hbs]

theorem Yields.separated {β : Type} {m : Mark} {lexemes : α → List Lexeme} {φ : α → β}
    {as : List α} (hne : as ≠ []) (hk : k ≠ .mark m)
    (hp : ∀ a ∈ as, ∀ k', k' = k ∨ k' = .mark m → Yields p (lexemes a) k' fun b => φ b = φ a) :
    Yields (separated (.mark m) p) ([Lexeme.mark m].intercalate (as.map lexemes)) k
      fun bs => bs.map φ = as.map φ := by
  obtain ⟨a, as, rfl⟩ := List.exists_cons_of_ne_nil hne
  obtain ⟨hpa, hpas⟩ := List.forall_mem_cons.1 hp
  rw [List.map_cons, intercalate_cons, List.map_map]
  refine .bind (hpa _ ?_) fun b hb => ?_
  · cases as with
    | nil => exact .inl rfl
    | cons a' as => exact .inr rfl
  have hmany : Yields (Parser.many (· = .mark m) do skip; p)
      ((as.map fun a => .mark m :: lexemes a).flatten) k fun bs => bs.map φ = as.map φ :=
    .many (decide_eq_false hk)
      (fun a _ => ⟨List.cons_ne_nil _ _, fun _ => decide_eq_true rfl⟩)
      fun a ha k' hk' => .skip_bind (hpas a ha k' (hk'.imp id of_decide_eq_true))
  have hrest := Yields.bind (f := fun bs => Pure.pure (b :: bs)) (w := []) (k := k)
    (Q := fun bs => bs.map φ = (a :: as).map φ) hmany
    fun bs hbs => .pure (by rw [List.map_cons, List.map_cons, hb, hbs])
  rwa [List.append_nil] at hrest

end

end Parser

end ScriptFrontend
