import ScriptFrontend.Proofs.Reach
import ScriptFrontend.Proofs.Relabel

/-!
The tracking judgment: two productions that read the same tokens in step.

A production looks at nothing but the tokens that it consumes and the one it stops at, and it does
nothing with their places but pass them on.  `Tracks r φ m p q c` says so of a production `p` on a
cursor `c`: wherever the same tokens, relabelled, lie ahead of another cursor up to the place where
`p` stops, `q` stops at the same place with the same outcome, relabelled.  What follows that place
may differ, so the judgment says at once that outcomes do not depend on places, and that no error
depends on a token behind it.

The two cursors have different numbers of tokens ahead, and with them different bounds on the
nesting; `m` bounds the tokens ahead of the second cursor, as the first one is bounded by `c`.
-/

namespace ScriptFrontend

namespace Cursor

def relabel (r : Relabelling) (c : Cursor) : Cursor :=
  ⟨c.consumed.map (Token.relabel r), c.current.relabel r, c.rest.map (Token.relabel r)⟩

theorem Reaches.relabel {c d : Cursor} {w : List Token} (h : c.Reaches w d) (r : Relabelling) :
    (c.relabel r).Reaches (w.map (Token.relabel r)) (d.relabel r) where
  consumed := by
    simp only [Cursor.relabel, h.consumed, List.map_append, List.map_reverse]
  ahead := by
    have := congrArg (List.map (Token.relabel r)) h.ahead
    simpa [Cursor.ahead, Cursor.relabel] using this

/-- Moves over the same tokens to the same token start on the same token. -/
theorem Reaches.current_relabel {r : Relabelling} {c c' d d' : Cursor} {w : List Token}
    (hc : c.Reaches w c') (hd : d.Reaches (w.map (Token.relabel r)) d')
    (hcur : d'.current = c'.current.relabel r) : d.current = c.current.relabel r := by
  rw [hd.current_eq, hc.current_eq, hcur]
  cases w <;> rfl

theorem ofTokens_relabel {r : Relabelling} {ts : List Token}
    (hr : ts = [] → r.place .nowhere = .nowhere) :
    ofTokens (ts.map (Token.relabel r)) = (ofTokens ts).relabel r := by
  cases ts with
  | nil => simp [ofTokens, Cursor.relabel, Token.endOfInput, Token.relabel, Span.relabel, hr]
  | cons t ts =>
      have hlast : (t.relabel r :: ts.map (Token.relabel r)).getLast (List.cons_ne_nil _ _) =
          ((t :: ts).getLast (List.cons_ne_nil _ _)).relabel r :=
        List.getLast_map (l := t :: ts) (by simp)
      simp only [List.map_cons, ofTokens, Cursor.relabel, hlast, closing, Token.kind_relabel]
      split <;> simp [Token.endOfInput, Token.relabel, Span.relabel]

end Cursor

/-- The second cursor stands where the first one does, among relabelled tokens. -/
structure Cursor.Shadows (r : Relabelling) (c d : Cursor) : Prop where
  consumed : d.consumed = c.consumed.map (Token.relabel r)
  current : d.current = c.current.relabel r

namespace Cursor.Shadows

variable {r : Relabelling} {c c' d d' : Cursor} {w : List Token}

theorem start (h : Shadows r c d) : d.start = r.place c.start := by
  rw [Cursor.start, h.current]; rfl

theorem previousEnd (h : Shadows r c d) : d.previousEnd = r.place c.previousEnd := by
  rw [Cursor.previousEnd, Cursor.previousEnd, h.consumed]
  cases c.consumed with
  | nil => exact h.start
  | cons t ts => rfl

/-- Cursors that move over the same tokens keep standing at the same place. -/
theorem move (h : Shadows r c d) (hc : c.Reaches w c') (hd : d.Reaches (w.map (Token.relabel r)) d')
    (hcur : d'.current = c'.current.relabel r) : Shadows r c' d' where
  consumed := by
    rw [hd.consumed, hc.consumed, h.consumed, List.map_append, List.map_reverse]
  current := hcur

end Cursor.Shadows

namespace Parser

variable {α β γ δ : Type}

abbrev Outcome (α : Type) := EStateM.Result SyntaxError Cursor α

namespace Outcome

def ending : Outcome α → Cursor
  | .ok _ c => c
  | .error _ c => c

def retell (r : Relabelling) (φ : α → β) (d : Cursor) : Outcome α → Outcome β
  | .ok a _ => .ok (φ a) d
  | .error e _ => .error (e.relabel r) d

end Outcome

/-- The outcome of `p` on `c` is the outcome of `q`, relabelled, on every cursor that has the same
tokens ahead up to where `p` stops, and fewer than `m` tokens behind its current one. -/
def Tracks (r : Relabelling) (φ : α → β) (m : Nat) (p : Parser α) (q : Parser β) (c : Cursor) :
    Prop :=
  c.Closed → ∃ w, c.Reaches w (Outcome.ending (p c)) ∧
    ∀ d d', c.Shadows r d → d.rest.length < m → d.Reaches (w.map (Token.relabel r)) d' →
      d'.current = (Outcome.ending (p c)).current.relabel r →
        q d = Outcome.retell r φ d' (p c)

/-- One production behind another that has consumed something, and a last word if it has not. -/
def onward (p : Parser α) (f : α → Parser γ) (last : α → γ) : Parser γ := fun c =>
  match p c with
  | .error e c' => .error e c'
  | .ok a c' => if c'.rest.length < c.rest.length then f a c' else .ok (last a) c'

theorem bind_of_ok {p : Parser α} {f : α → Parser β} {c d : Cursor} {a : α}
    (h : p c = .ok a d) : (p >>= f) c = f a d := by
  simp only [bind, EStateM.bind, h]

theorem bind_of_error {p : Parser α} {f : α → Parser β} {c d : Cursor} {e : SyntaxError}
    (h : p c = .error e d) : (p >>= f) c = .error e d := by
  simp only [bind, EStateM.bind, h]

section

variable {p : Parser α} {f : α → Parser γ} {last : α → γ} {c d : Cursor} {a : α}

theorem onward_of_error {e : SyntaxError} (h : p c = .error e d) :
    onward p f last c = .error e d := by
  simp only [onward, h]

theorem onward_of_ok (h : p c = .ok a d) (hl : d.rest.length < c.rest.length) :
    onward p f last c = f a d := by
  simp only [onward, h, if_pos hl]

theorem onward_of_stuck (h : p c = .ok a d) (hl : ¬ d.rest.length < c.rest.length) :
    onward p f last c = .ok (last a) d := by
  simp only [onward, h, if_neg hl]

theorem onward_eq_bind (h : ∀ a d, p c = .ok a d → d.rest.length < c.rest.length) :
    onward p f last c = (p >>= f) c := by
  cases hp : p c with
  | error e d => rw [onward_of_error hp, bind_of_error hp]
  | ok a d => rw [onward_of_ok hp (h a d hp), bind_of_ok hp]

theorem many_eq_onward {starts : Kind → Bool} (h : starts c.current.kind = true) :
    many starts p c = onward p (fun a => (a :: ·) <$> many starts p) (fun a => [a]) c := by
  cases hp : p c with
  | error e d => rw [many_of_error h hp, onward_of_error hp]
  | ok a d =>
      by_cases hl : d.rest.length < c.rest.length
      · rw [many_of_ok h hp hl, onward_of_ok hp hl]
      · rw [many, h, hp, onward_of_stuck hp hl]
        simp only [if_true, if_neg hl]

end

section

variable {r : Relabelling} {φ : α → β} {ψ : γ → δ} {m : Nat} {c : Cursor}
variable {p : Parser α} {q : Parser β} {f : α → Parser γ} {k : β → Parser δ}

theorem Tracks.congr {p' : Parser α} {q' : Parser β} (h : Tracks r φ m p q c) (hp : p' c = p c)
    (hq : ∀ d, c.Shadows r d → q' d = q d) : Tracks r φ m p' q' c := by
  intro hc
  obtain ⟨w, hw, h⟩ := h hc
  rw [hp]
  refine ⟨w, hw, fun d d' hs hm hd hcur => ?_⟩
  rw [hq d hs]
  exact h d d' hs hm hd hcur

theorem Tracks.mono {n : Nat} (h : Tracks r φ n p q c) (hm : m ≤ n) : Tracks r φ m p q c := by
  intro hc
  obtain ⟨w, hw, hq⟩ := h hc
  exact ⟨w, hw, fun d d' hs hl => hq d d' hs (Nat.lt_of_lt_of_le hl hm)⟩

/-- A production that neither moves nor reports anything new tracks itself. -/
theorem Tracks.still {s : Outcome α} {t : Cursor → Outcome β} (hs : Outcome.ending s = c)
    (hp : p c = s) (hq : ∀ d, q d = t d)
    (h : ∀ d, c.Shadows r d → t d = Outcome.retell r φ d s) : Tracks r φ m p q c := by
  intro _
  rw [hp, hs]
  refine ⟨[], .refl c, fun d d' hd _ hr _ => ?_⟩
  rw [Cursor.reaches_nil.1 hr, hq, h d hd]

/-- Behind a production the second cursor has as many tokens fewer ahead as the first one. -/
theorem Tracks.seq (hp : Tracks r φ m p q c)
    (hf : ∀ a w c₁, p c = .ok a c₁ → c.Reaches w c₁ →
      Tracks r ψ (m - w.length) (f a) (k (φ a)) c₁) :
    Tracks r ψ m (p >>= f) (q >>= k) c := by
  intro hc
  obtain ⟨w, hw, hq⟩ := hp hc
  cases hpc : p c with
  | error e c₁ =>
      rw [hpc] at hw hq
      rw [bind_of_error hpc]
      refine ⟨w, hw, fun d d' hs hm hd hcur => ?_⟩
      exact bind_of_error (hq d d' hs hm hd hcur)
  | ok a c₁ =>
      rw [hpc] at hw hq
      rw [bind_of_ok hpc]
      obtain ⟨v, hv, hq'⟩ := hf a w c₁ hpc hw (hw.closed hc)
      refine ⟨w ++ v, hw.trans hv, fun d d' hs hm hd hcur => ?_⟩
      rw [List.map_append] at hd
      obtain ⟨d₁, hd₁, hd'⟩ := hd.split
      have hcur₁ := hv.current_relabel hd' hcur
      have hm₁ : d₁.rest.length < m - w.length := by
        have := hd₁.length
        rw [List.length_map] at this
        omega
      rw [bind_of_ok (hq d d₁ hs hm hd₁ hcur₁)]
      exact hq' d₁ d' (hs.move hw hd₁ hcur₁) hm₁ hd' hcur

theorem Tracks.bind (hp : Tracks r φ m p q c)
    (hf : ∀ a w c₁, p c = .ok a c₁ → c.Reaches w c₁ → Tracks r ψ m (f a) (k (φ a)) c₁) :
    Tracks r ψ m (p >>= f) (q >>= k) c :=
  .seq hp fun a w c₁ h hw => (hf a w c₁ h hw).mono (Nat.sub_le m w.length)

/-- Either both productions consume something, or neither does. -/
theorem Tracks.onward {s : α → γ} {t : β → δ} (hp : Tracks r φ m p q c)
    (hf : ∀ a (c₁ : Cursor), c₁.rest.length < c.rest.length → Tracks r ψ m (f a) (k (φ a)) c₁)
    (hlast : ∀ a, ψ (s a) = t (φ a)) : Tracks r ψ m (onward p f s) (onward q k t) c := by
  intro hc
  obtain ⟨w, hw, hq⟩ := hp hc
  cases hpc : p c with
  | error e c₁ =>
      rw [hpc] at hw hq
      rw [onward_of_error hpc]
      exact ⟨w, hw, fun d d' hs hm hd hcur => onward_of_error (hq d d' hs hm hd hcur)⟩
  | ok a c₁ =>
      rw [hpc] at hw hq
      by_cases hlt : c₁.rest.length < c.rest.length
      · obtain ⟨v, hv, hq'⟩ := hf a c₁ hlt (hw.closed hc)
        rw [onward_of_ok hpc hlt]
        refine ⟨w ++ v, hw.trans hv, fun d d' hs hm hd hcur => ?_⟩
        rw [List.map_append] at hd
        obtain ⟨d₁, hd₁, hd'⟩ := hd.split
        have hcur₁ := hv.current_relabel hd' hcur
        have hlt' : d₁.rest.length < d.rest.length :=
          hd₁.length_lt (by simpa using hw.ne_nil hlt)
        rw [onward_of_ok (hq d d₁ hs hm hd₁ hcur₁) hlt']
        exact hq' d₁ d' (hs.move hw hd₁ hcur₁) (Nat.lt_trans hlt' hm) hd' hcur
      · obtain rfl := hw.eq_nil hlt
        rw [onward_of_stuck hpc hlt]
        refine ⟨[], hw, fun d d' hs hm hd hcur => ?_⟩
        have hstuck : ¬ d'.rest.length < d.rest.length := by
          rw [Cursor.reaches_nil.1 hd]
          exact Nat.lt_irrefl _
        rw [onward_of_stuck (hq d d' hs hm hd hcur) hstuck, ← hlast]
        rfl

/-- What comes behind a production that consumes has fewer tokens ahead of it, on both sides. -/
theorem Tracks.strict_bind (hp : Tracks r φ (m + 1) p q c)
    (hlt : c.Closed → ∀ a c₁, p c = .ok a c₁ → c₁.rest.length < c.rest.length)
    (hf : ∀ a (c₁ : Cursor), p c = .ok a c₁ → c₁.rest.length < c.rest.length →
      Tracks r ψ m (f a) (k (φ a)) c₁) :
    Tracks r ψ (m + 1) (p >>= f) (q >>= k) c := by
  intro hc
  refine Tracks.seq hp (fun a w c₁ h hw => ?_) hc
  have hl := hlt hc a c₁ h
  have := List.length_pos_iff.2 (hw.ne_nil hl)
  exact (hf a c₁ h hl).mono (by omega)

/-- No cursor has fewer tokens ahead than none, so a bound is at least one wherever it counts. -/
theorem Tracks.of_succ {q : Nat → Parser β} (h : ∀ m, Tracks r φ (m + 1) p (q (m + 1)) c) :
    ∀ m, Tracks r φ m p (q m) c
  | 0 => by
      intro hc
      obtain ⟨w, hw, -⟩ := h 0 hc
      exact ⟨w, hw, fun d d' _ hm => absurd hm (Nat.not_lt_zero _)⟩
  | m + 1 => h m

theorem Tracks.pure {a : γ} {b : δ} (h : ψ a = b) :
    Tracks r ψ m (pure a) (pure b) c := by
  subst h
  exact .still (t := fun d => .ok (ψ a) d) rfl rfl (fun _ => rfl) fun _ _ => rfl

theorem Tracks.fail (x : Expected) : Tracks r φ m (fail x) (fail x) c :=
  .still (t := fun d => .error ⟨x, d.current⟩ d) rfl rfl (fun _ => rfl)
    fun d hs => by rw [hs.current]; rfl

theorem Tracks.throw (x : Expected) (t : Token) :
    Tracks r φ m (throw ⟨x, t⟩) (throw ⟨x, t.relabel r⟩) c :=
  .still (t := fun d => .error ⟨x, t.relabel r⟩ d) rfl rfl (fun _ => rfl) fun _ _ => rfl

theorem Tracks.here_bind {f : Position → Parser γ} {k : Position → Parser δ}
    (hf : Tracks r ψ m (f c.start) (k (r.place c.start)) c) :
    Tracks r ψ m (here >>= f) (here >>= k) c := by
  refine .bind (φ := r.place) ?_ ?_
  · exact .still (t := fun d => .ok d.start d) rfl rfl (fun _ => rfl)
      fun d hs => by rw [hs.start]; rfl
  · intro a w c₁ h _
    cases h
    exact hf

theorem Tracks.peek_bind {f : Token → Parser γ} {k : Token → Parser δ}
    (hf : Tracks r ψ m (f c.current) (k (c.current.relabel r)) c) :
    Tracks r ψ m (peek >>= f) (peek >>= k) c := by
  refine .bind (φ := Token.relabel r) ?_ ?_
  · exact .still (t := fun d => .ok d.current d) rfl rfl (fun _ => rfl)
      fun d hs => by rw [hs.current]; rfl
  · intro a w c₁ h _
    cases h
    exact hf

theorem Tracks.spanFrom (start : Position) :
    Tracks r (Span.relabel r) m (spanFrom start) (spanFrom (r.place start)) c :=
  .still (t := fun d => .ok ⟨r.place start, d.previousEnd⟩ d) rfl rfl (fun _ => rfl)
    fun d hs => by rw [hs.previousEnd]; rfl

/-! ### Productions that consume

Each of these moves by one token or not at all, and whether it does depends on the kind of the
current token.  Where the token is consumed whatever it is, it must not be the end of input, since
the cursor would not leave it. -/

theorem Tracks.consume {s : Token → α} {t : Token → β} (hk : c.current.kind ≠ .endOfInput)
    (hp : p c = .ok (s c.current) c.advance)
    (hq : ∀ d, d.current.kind = c.current.kind → q d = .ok (t d.current) d.advance)
    (h : φ (s c.current) = t (c.current.relabel r)) : Tracks r φ m p q c := by
  intro hc
  rw [hp]
  refine ⟨[c.current], hc.reaches_advance hk, fun d d' hs _ hd _ => ?_⟩
  have hstep : d.advance = d' := (Cursor.reaches_nil.1 hd.advance).symm
  rw [hq d (by rw [hs.current]; rfl), hs.current, hstep, ← h]
  rfl

theorem Tracks.advance (hk : c.current.kind ≠ .endOfInput) :
    Tracks r (Token.relabel r) m advance advance c :=
  .consume (s := id) (t := id) hk rfl (fun _ _ => rfl) rfl

theorem Tracks.skip (hk : c.current.kind ≠ .endOfInput) : Tracks r id m skip skip c :=
  .consume (s := fun _ => ()) (t := fun _ => ()) hk rfl (fun _ _ => rfl) rfl

theorem Tracks.accept (k : Kind) (hk : k ≠ .endOfInput) :
    Tracks r id m (accept k) (accept k) c := by
  by_cases h : c.current.kind = k
  · refine .consume (s := fun _ => true) (t := fun _ => true) (h ▸ hk) (if_pos h) ?_ rfl
    intro d hd
    exact if_pos (hd.trans h)
  · refine .still (t := fun d => Parser.accept k d) rfl (if_neg h) (fun _ => rfl) fun d hs => ?_
    exact if_neg (by rw [hs.current]; exact h)

theorem Tracks.expect (k : Kind) (hk : k ≠ .endOfInput) :
    Tracks r (Token.relabel r) m (expect k) (expect k) c := by
  by_cases h : c.current.kind = k
  · refine .consume (s := id) (t := id) (h ▸ hk) (if_pos h) ?_ rfl
    intro d hd
    exact if_pos (hd.trans h)
  · refine .still (t := fun d => Parser.expect k d) rfl (if_neg h) (fun _ => rfl) fun d hs => ?_
    rw [Parser.expect, hs.current]
    exact if_neg h

theorem Tracks.require (k : Kind) (hk : k ≠ .endOfInput) :
    Tracks r id m (require k) (require k) c := by
  by_cases h : c.current.kind = k
  · refine .consume (s := fun _ => ()) (t := fun _ => ()) (h ▸ hk) (if_pos h) ?_ rfl
    intro d hd
    exact if_pos (hd.trans h)
  · refine .still (t := fun d => Parser.require k d) rfl (if_neg h) (fun _ => rfl) fun d hs => ?_
    rw [Parser.require, hs.current]
    exact if_neg h

theorem Tracks.skipIf (k : Kind) (hk : k ≠ .endOfInput) :
    Tracks r id m (skipIf k) (skipIf k) c := by
  by_cases h : c.current.kind = k
  · refine .consume (s := fun _ => ()) (t := fun _ => ()) (h ▸ hk) ?_ ?_ rfl
    · rw [Parser.skipIf, if_pos h]
    · intro d hd
      rw [Parser.skipIf, if_pos (hd.trans h)]
  · refine .still (s := .ok () c) (t := fun d => Parser.skipIf k d) rfl ?_ (fun _ => rfl) fun d hs => ?_
    · rw [Parser.skipIf, if_neg h]
    · rw [Parser.skipIf, if_neg (by rw [hs.current]; exact h)]
      rfl

theorem Tracks.advance_bind {f : Token → Parser γ} {k : Token → Parser δ}
    (hk : c.current.kind ≠ .endOfInput)
    (hf : ∀ c₁ : Cursor, c₁.rest.length < c.rest.length →
      Tracks r ψ m (f c.current) (k (c.current.relabel r)) c₁) :
    Tracks r ψ (m + 1) (Parser.advance >>= f) (Parser.advance >>= k) c := by
  refine .strict_bind (.advance hk) ?_ ?_
  · rintro hc a c₁ ⟨⟩
    exact (hc.reaches_advance hk).length_lt (by simp)
  · rintro a c₁ ⟨⟩ hl
    exact hf _ hl

theorem Tracks.skip_bind {f : Unit → Parser γ} {k : Unit → Parser δ}
    (hk : c.current.kind ≠ .endOfInput)
    (hf : ∀ c₁ : Cursor, c₁.rest.length < c.rest.length → Tracks r ψ m (f ()) (k ()) c₁) :
    Tracks r ψ (m + 1) (Parser.skip >>= f) (Parser.skip >>= k) c := by
  refine .strict_bind (.skip hk) ?_ ?_
  · rintro hc a c₁ ⟨⟩
    exact (hc.reaches_advance hk).length_lt (by simp)
  · rintro a c₁ ⟨⟩ hl
    exact hf _ hl

theorem Tracks.require_bind {kind : Kind} {f : Unit → Parser γ} {k : Unit → Parser δ}
    (hkind : kind ≠ .endOfInput)
    (hf : ∀ c₁ : Cursor, c₁.rest.length < c.rest.length → Tracks r ψ m (f ()) (k ()) c₁) :
    Tracks r ψ (m + 1) (Parser.require kind >>= f) (Parser.require kind >>= k) c := by
  refine .strict_bind (.require kind hkind) ?_ fun _ c₁ _ hl => hf c₁ hl
  intro hc a c₁ h
  rw [Parser.require] at h
  split at h
  next hk =>
    cases h
    exact (hc.reaches_advance (hk ▸ hkind)).length_lt (by simp)
  · cases h

end

/-! ### Repetitions and options -/

section

variable {r : Relabelling} {φ : α → β} {m : Nat} {c : Cursor}
variable {p : Parser α} {q : Parser β} {starts : Kind → Bool}

theorem Tracks.many
    (hp : ∀ c₁ : Cursor, c₁.rest.length ≤ c.rest.length → starts c₁.current.kind = true →
      Tracks r φ m p q c₁) :
    Tracks r (List.map φ) m (many starts p) (many starts q) c := by
  have hstarts (c d : Cursor) (hs : c.Shadows r d) :
      starts d.current.kind = starts c.current.kind := by
    rw [hs.current]
    rfl
  induction c using induction_rounds starts with
  | stop c hst =>
      refine .still (t := fun d => Parser.many starts q d) rfl (many_of_not hst)
        (fun _ => rfl) fun d hs => ?_
      exact many_of_not ((hstarts c d hs).trans hst)
  | round c hst ih =>
      refine .congr (.onward (hp c (Nat.le_refl _) hst) (fun a c₁ hlt => ?_) fun _ => rfl)
        (many_eq_onward hst) fun d hs => many_eq_onward ((hstarts c d hs).trans hst)
      have hmore : Tracks r (List.map φ) m (Parser.many starts p) (Parser.many starts q) c₁ :=
        ih c₁ hlt fun c₂ h₂ => hp c₂ (by omega)
      exact .bind (f := fun as => Pure.pure (a :: as)) hmore fun _ _ _ _ _ => .pure rfl

theorem Tracks.optional (hp : starts c.current.kind = true → Tracks r φ m p q c) :
    Tracks r (Option.map φ) m (optional starts p) (optional starts q) c := by
  cases hst : starts c.current.kind with
  | false =>
      refine .still (t := fun d => Parser.optional starts q d) rfl
        (by rw [Parser.optional, hst]) (fun _ => rfl) fun d hs => ?_
      rw [Parser.optional, hs.current, Token.kind_relabel, hst]
      rfl
  | true =>
      have hsome : Tracks r (Option.map φ) m (some <$> p) (some <$> q) c :=
        .bind (f := fun a => Pure.pure (some a)) (hp hst) fun _ _ _ _ _ => .pure rfl
      refine .congr hsome ?_ fun d hs => ?_
      · rw [Parser.optional, hst]
        rfl
      · rw [Parser.optional, hs.current, Token.kind_relabel, hst]
        rfl

theorem Tracks.separated {k : Kind} (hk : k ≠ .endOfInput)
    (hp : ∀ c₁ : Cursor, c₁.rest.length ≤ c.rest.length → Tracks r φ m p q c₁) :
    Tracks r (List.map φ) m (separated k p) (separated k q) c := by
  refine .bind (hp c (Nat.le_refl _)) fun a _ c₁ _ h₁ => ?_
  refine .bind (Tracks.many fun c₂ h₂ hst => ?_) fun as _ _ _ _ => .pure rfl
  have hk₂ : c₂.current.kind ≠ .endOfInput := by
    rw [of_decide_eq_true hst]; exact hk
  exact .bind (.skip hk₂) fun _ _ c₃ _ h₃ =>
    hp c₃ (Nat.le_trans h₃.length_le (Nat.le_trans h₂ h₁.length_le))

theorem Tracks.after? {k : Kind} (hk : k ≠ .endOfInput)
    (hp : ∀ c₁ : Cursor, c₁.rest.length ≤ c.rest.length → Tracks r φ m p q c₁) :
    Tracks r (Option.map φ) m (after? k p) (after? k q) c := by
  refine .optional fun hst => ?_
  have hk' : c.current.kind ≠ .endOfInput := by
    rw [of_decide_eq_true hst]; exact hk
  exact .bind (.skip hk') fun _ _ c₁ _ h₁ => hp c₁ h₁.length_le

end

end Parser

end ScriptFrontend
