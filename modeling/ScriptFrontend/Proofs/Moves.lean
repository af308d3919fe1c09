import ScriptFrontend.Proofs.Tracking

/-!
The judgment of progress: where a production may leave the cursor.

No production goes back, on any cursor and with any outcome.  Many do more: they consume a token
before they yield a value.  The cursor does not leave the end of input, so a production that passes
over whatever token is current consumes nothing there; the judgment `Moves eats p c` therefore
carries the condition `eats` under which the production is known to consume.  It goes through a
sequence if it holds of one part, and the other part has only to go forward.
-/

namespace ScriptFrontend

namespace Parser

variable {α β : Type}

/-- The production leaves the cursor where it is or further on, and behind a token if it yields a
value although `eats` holds. -/
def Moves (eats : Prop) (p : Parser α) (c : Cursor) : Prop :=
  ∃ w, c.Reaches w (Outcome.ending (p c)) ∧
    (eats → c.Closed → ∀ a d, p c = .ok a d → w ≠ [])

section

variable {s t : Prop} {p : Parser α} {f : α → Parser β} {c d : Cursor} {a : α}

theorem Moves.mono (h : Moves s p c) (hst : t → s) : Moves t p c := by
  obtain ⟨w, hw, hs⟩ := h
  exact ⟨w, hw, fun ht => hs (hst ht)⟩

/-- A production that may consume goes forward in any case. -/
theorem Moves.forward (h : Moves s p c) : Moves False p c :=
  h.mono False.elim

theorem Moves.congr {q : Parser α} (h : Moves s q c) (hp : p c = q c) : Moves s p c := by
  rw [Moves, hp]
  exact h

/-- What is left ahead of a production that consumes is shorter, and still closed. -/
theorem Moves.shorter (h : Moves s p c) (hs : s) (hc : c.Closed) (hp : p c = .ok a d) :
    d.Closed ∧ d.rest.length < c.rest.length := by
  obtain ⟨w, hw, heats⟩ := h
  rw [hp] at hw
  exact ⟨hw.closed hc, hw.length_lt (heats hs hc a d hp)⟩

/-- A production that stays where it is. -/
theorem Moves.still (h : Outcome.ending (p c) = c) (hs : ¬ s) : Moves s p c :=
  ⟨[], Cursor.reaches_nil.2 h, fun hs' => absurd hs' hs⟩

theorem Moves.pure {a : α} : Moves False (pure a) c :=
  .still rfl id

theorem Moves.error {e : SyntaxError} (h : p c = .error e c) : Moves s p c := by
  refine ⟨[], h ▸ .refl c, fun _ _ a d hp => ?_⟩
  cases h.symm.trans hp

theorem Moves.fail {x : Expected} : Moves s (fail x : Parser α) c :=
  .error rfl

theorem Moves.throw {e : SyntaxError} : Moves s (throw e : Parser α) c :=
  .error rfl

/-- A sequence consumes if one of its parts does. -/
theorem Moves.bind (hp : Moves s p c) (hf : ∀ a d, Moves t (f a) d) :
    Moves (s ∨ t) (p >>= f) c := by
  obtain ⟨v, hv, hs⟩ := hp
  cases hpc : p c with
  | error e d =>
      rw [hpc] at hv
      rw [Moves, bind_of_error hpc]
      exact ⟨v, hv, fun _ _ b d' h => nomatch h⟩
  | ok a d =>
      rw [hpc] at hv
      obtain ⟨w, hw, ht⟩ := hf a d
      rw [Moves, bind_of_ok hpc]
      refine ⟨v ++ w, hv.trans hw, fun hst hc b d' h hnil => ?_⟩
      obtain ⟨hvnil, hwnil⟩ := List.append_eq_nil_iff.1 hnil
      rcases hst with h' | h'
      · exact hs h' hc a d hpc hvnil
      · exact ht h' (hv.closed hc) b d' h hwnil

theorem Moves.first (hp : Moves s p c) (hf : ∀ a d, Moves False (f a) d) :
    Moves s (p >>= f) c :=
  (hp.bind hf).mono .inl

theorem Moves.later (hp : Moves False p c) (hf : ∀ a d, Moves t (f a) d) :
    Moves t (p >>= f) c :=
  (hp.bind hf).mono .inr

theorem Moves.onward {last : α → β} (hp : Moves False p c)
    (hf : ∀ a (d : Cursor), d.rest.length < c.rest.length → Moves False (f a) d) :
    Moves False (onward p f last) c := by
  obtain ⟨v, hv, -⟩ := hp
  cases hpc : p c with
  | error e d =>
      rw [hpc] at hv
      rw [Moves, onward_of_error hpc]
      exact ⟨v, hv, False.elim⟩
  | ok a d =>
      rw [hpc] at hv
      by_cases hlt : d.rest.length < c.rest.length
      · obtain ⟨w, hw, -⟩ := hf a d hlt
        rw [Moves, onward_of_ok hpc hlt]
        exact ⟨v ++ w, hv.trans hw, False.elim⟩
      · rw [Moves, onward_of_stuck hpc hlt]
        exact ⟨v, hv, False.elim⟩

theorem Moves.here_bind {f : Position → Parser β} (hf : Moves s (f c.start) c) :
    Moves s (here >>= f) c :=
  hf

theorem Moves.peek_bind {f : Token → Parser β} (hf : Moves s (f c.current) c) :
    Moves s (peek >>= f) c :=
  hf

theorem Moves.spanFrom {start : Position} : Moves False (spanFrom start) c :=
  .still rfl id

/-! ### Single tokens -/

/-- A production that passes over the current token, whatever it is. -/
theorem Moves.over (h : p c = .ok a c.advance) : Moves (c.current.kind ≠ .endOfInput) p c := by
  by_cases hr : c.rest = []
  · have hstay : c.advance = c := by simp [Cursor.advance, hr]
    refine ⟨[], ?_, fun hk hc => absurd hr (hc.rest_ne_nil hk)⟩
    rw [h, hstay]
    exact .refl c
  · exact ⟨[c.current], h ▸ Cursor.reaches_advance hr, fun _ _ _ _ _ => List.cons_ne_nil _ _⟩

theorem Moves.advance : Moves (c.current.kind ≠ .endOfInput) advance c :=
  .over rfl

theorem Moves.skip : Moves (c.current.kind ≠ .endOfInput) skip c :=
  .over rfl

theorem Moves.accept (k : Kind) : Moves False (accept k) c := by
  by_cases h : c.current.kind = k
  · exact (Moves.over (if_pos h)).forward
  · exact .still (by rw [Parser.accept, if_neg h]; rfl) id

theorem Moves.skipIf (k : Kind) : Moves False (skipIf k) c := by
  by_cases h : c.current.kind = k
  · exact (Moves.over (a := ()) (by rw [Parser.skipIf, if_pos h])).forward
  · exact .still (by rw [Parser.skipIf, if_neg h]; rfl) id

theorem Moves.expect {k : Kind} (hk : k ≠ .endOfInput) : Moves True (expect k) c := by
  by_cases h : c.current.kind = k
  · exact (Moves.over (if_pos h)).mono fun _ => h ▸ hk
  · exact .error (if_neg h)

theorem Moves.require {k : Kind} (hk : k ≠ .endOfInput) : Moves True (require k) c := by
  by_cases h : c.current.kind = k
  · exact (Moves.over (if_pos h)).mono fun _ => h ▸ hk
  · exact .error (if_neg h)

end

/-! ### Repetitions and options -/

section

variable {s : Prop} {starts : Kind → Bool} {p : Parser α} {c : Cursor}

theorem Moves.optional (hp : ∀ d, Moves False p d) : Moves False (optional starts p) c := by
  cases h : starts c.current.kind with
  | false =>
      refine .still ?_ id
      rw [Parser.optional, h]
      rfl
  | true =>
      refine Moves.congr (q := some <$> p) (.first (hp c) fun _ _ => .pure) ?_
      rw [Parser.optional, h]
      rfl

theorem Moves.many (hp : ∀ d, Moves False p d) : Moves False (many starts p) c := by
  induction c using induction_rounds starts with
  | stop c hst => exact .still (by rw [many_of_not hst]; rfl) id
  | round c hst ih =>
      refine .congr (.onward (hp c) fun a d hlt => ?_) (many_eq_onward hst)
      exact .first (ih d hlt) fun _ _ => .pure

theorem Moves.separated {k : Kind} (hp : ∀ d, Moves s p d) : Moves s (separated k p) c := by
  have hitem (d : Cursor) : Moves False p d := (hp d).forward
  refine .first (hp c) fun _ d => .first (.many fun e => ?_) fun _ _ => .pure
  exact .later Moves.skip.forward fun _ _ => hitem _

theorem Moves.after? {k : Kind} (hp : ∀ d, Moves False p d) : Moves False (after? k p) c :=
  .optional fun _ => .later Moves.skip.forward fun _ d => hp d

end

end Parser

end ScriptFrontend
