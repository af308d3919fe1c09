import ScriptFrontend.Proofs.Acceptance
import ScriptFrontend.Proofs.Extents.Statement

/-!
The spans of a parsed program.

The statements of a program stand on stretches that make up the tokens before the end of input, and
every node below them stands on a stretch of the tokens of its parent.  Where the tokens themselves
are in order, so are the spans: those of parts lie inside those of their parents, one behind the
other.
-/

namespace ScriptFrontend

namespace Span

def Inside (s s' : Span) : Prop :=
  s'.start.offset ≤ s.start.offset ∧ s.stop.offset ≤ s'.stop.offset

def Precedes (s s' : Span) : Prop :=
  s.stop.offset ≤ s'.start.offset

end Span

/-- No token ends before it starts, or behind the start of the next. -/
def InOrder : List Token → Prop
  | [] => True
  | t :: ts => t.span.start.offset ≤ t.span.stop.offset ∧
      (∀ u ∈ ts.head?, t.span.Precedes u.span) ∧ InOrder ts

structure Ordered (ts : List Token) : Prop where
  bounds : ∀ t ∈ ts, t.span.start.offset ≤ t.span.stop.offset
  pairwise : ts.Pairwise fun t u => t.span.Precedes u.span

section

variable {ts u v w x y z : List Token} {s s' : Span}

theorem InOrder.ordered (h : InOrder ts) : Ordered ts := by
  induction ts with
  | nil => exact ⟨nofun, .nil⟩
  | cons t ts ih =>
      obtain ⟨ht, hnext, hts⟩ := h
      obtain ⟨hbounds, hpairwise⟩ := ih hts
      refine ⟨List.forall_mem_cons.2 ⟨ht, hbounds⟩, List.pairwise_cons.2 ⟨fun u hu => ?_, hpairwise⟩⟩
      cases ts with
      | nil => cases hu
      | cons next ts =>
          have hfirst : t.span.stop.offset ≤ next.span.start.offset := hnext next rfl
          rcases List.mem_cons.1 hu with rfl | hu
          · exact hfirst
          · have hlater : next.span.stop.offset ≤ u.span.start.offset :=
              (List.pairwise_cons.1 hpairwise).1 u hu
            have := hbounds next (List.mem_cons_self ..)
            show t.span.stop.offset ≤ u.span.start.offset
            omega

theorem Ordered.sublist (h : Ordered ts) (hw : w.Sublist ts) : Ordered w :=
  ⟨fun t ht => h.bounds t (hw.subset ht), h.pairwise.sublist hw⟩

theorem Ordered.stretch (h : Ordered (u ++ v ++ x)) : Ordered v :=
  h.sublist ((List.sublist_append_right u v).trans (List.sublist_append_left (u ++ v) x))

/-- The span of some tokens in order reaches around each of them. -/
theorem Span.Covers.inside_of_mem {t : Token} (h : Ordered w) (hs : s.Covers w) (ht : t ∈ w) :
    t.span.Inside s := by
  obtain ⟨first, hfirst, last, hlast, rfl⟩ := hs
  constructor
  · obtain ⟨w', rfl⟩ : ∃ w', w = first :: w' := by
      cases w with
      | nil => cases hfirst
      | cons _ w' => cases hfirst; exact ⟨w', rfl⟩
    rcases List.mem_cons.1 ht with rfl | ht
    · exact Nat.le_refl _
    · exact Nat.le_trans (h.bounds first (List.mem_cons_self ..))
        ((List.pairwise_cons.1 h.pairwise).1 t ht)
  · obtain ⟨w', rfl⟩ := List.getLast?_eq_some_iff.1 hlast
    rcases List.mem_append.1 ht with ht | ht
    · exact Nat.le_trans ((List.pairwise_append.1 h.pairwise).2.2 t ht last (List.mem_singleton.2 rfl))
        (h.bounds last (List.mem_append_right _ (List.mem_singleton.2 rfl)))
    · obtain rfl := List.mem_singleton.1 ht
      exact Nat.le_refl _

theorem Span.Covers.inside (h : Ordered (u ++ v ++ x)) (hs : s.Covers (u ++ v ++ x))
    (hs' : s'.Covers v) : s'.Inside s := by
  have hmem {t : Token} (ht : t ∈ v) : t ∈ u ++ v ++ x :=
    List.mem_append_left _ (List.mem_append_right _ ht)
  obtain ⟨first, hfirst, last, hlast, rfl⟩ := hs'
  exact ⟨(hs.inside_of_mem h (hmem (List.mem_of_mem_head? hfirst))).1,
    (hs.inside_of_mem h (hmem (List.mem_of_mem_getLast? hlast))).2⟩

theorem Span.Covers.precedes (h : Ordered (u ++ v ++ x ++ y ++ z)) (hs : s.Covers v)
    (hs' : s'.Covers y) : s.Precedes s' := by
  obtain ⟨-, -, last, hlast, rfl⟩ := hs
  obtain ⟨first, hfirst, -, -, rfl⟩ := hs'
  have hpairwise := (List.pairwise_append.1 h.pairwise).1
  refine (List.pairwise_append.1 hpairwise).2.2 last ?_ first (List.mem_of_mem_head? hfirst)
  exact List.mem_append_left _ (List.mem_append_right _ (List.mem_of_mem_getLast? hlast))

end

namespace Node.Occupies

variable {m n : Node} {w : List Token}

/-- The spans of the parts lie inside the span of the node. -/
theorem parts_inside (h : n.Occupies w) (hw : Ordered w) (hm : m ∈ n.parts) :
    m.span.Inside n.span := by
  obtain ⟨u, v, x, rfl, hv⟩ := h.parts.mem hm
  exact h.covers.inside hw hv.covers

/-- The spans of the parts lie one behind the other. -/
theorem parts_pairwise (h : n.Occupies w) (hw : Ordered w) :
    n.parts.Pairwise fun m k => m.span.Precedes k.span := by
  refine h.parts.pairwise.imp ?_
  rintro m k ⟨u, v, x, y, z, rfl, hv, hy⟩
  exact hv.covers.precedes hw hy.covers

end Node.Occupies

/-! ### The tokens of a program -/

/-- What closes a list are ends of input. -/
theorem Cursor.takeWhile_ahead_ofTokens (ts : List Token) :
    (ofTokens ts).ahead.takeWhile (·.kind ≠ .endOfInput) =
      ts.takeWhile (·.kind ≠ .endOfInput) := by
  obtain ⟨us, hus, hend⟩ : ∃ us, (ofTokens ts).ahead = ts ++ us ∧
      us.takeWhile (·.kind ≠ .endOfInput) = [] := by
    cases ts with
    | nil => exact ⟨_, rfl, rfl⟩
    | cons t ts =>
        refine ⟨_, rfl, ?_⟩
        rw [closing]
        split <;> rfl
  rw [hus, List.takeWhile_append, hend, List.append_nil]
  split
  next h => exact ((List.takeWhile_sublist _).eq_of_length h).symm
  · rfl

namespace Grammar

open ScriptFrontend.Parser

variable {ts : List Token} {p : List Stmt} {s : Stmt} {n : Node}

/-- The statements of a program stand on the tokens before the first end of input. -/
theorem filled_of_parse (h : standard.parse ts = .ok p) :
    Filled (fun s w => (Node.stmt s).Occupies w) p (ts.takeWhile (·.kind ≠ .endOfInput)) := by
  obtain ⟨d, hd⟩ := parse_eq_ok_iff.1 h
  have hc := Cursor.closed_ofTokens ts
  obtain ⟨w, hw, hfilled⟩ := gathers_program hc (.refl _) p d hd
  -- a program stops at an end of input and passes over none, so it gathers all before the first
  have hend : d.current.kind = .endOfInput := by
    have hmeets := meets_program hc
    rw [hd] at hmeets
    obtain ⟨_, -, hend, -⟩ := hmeets
    exact hend
  have hall : ∀ t ∈ w, decide (t.kind ≠ .endOfInput) = true := fun t ht =>
    decide_eq_true (hw.kind_ne t ht)
  have htokens : ts.takeWhile (·.kind ≠ .endOfInput) = w := by
    rw [← Cursor.takeWhile_ahead_ofTokens, hw.ahead, List.takeWhile_append_of_pos hall,
      Cursor.ahead, List.takeWhile_cons_of_neg (by simp [hend]), List.append_nil]
  rwa [htokens]

/-- Every node of a program stands on a stretch of its tokens. -/
theorem occupies_of_parse (h : standard.parse ts = .ok p) (hs : s ∈ p) (hn : n.Within (.stmt s)) :
    ∃ before w after, ts.takeWhile (·.kind ≠ .endOfInput) = before ++ w ++ after ∧
      n.Occupies w := by
  obtain ⟨u, v, x, hts, hv⟩ := (filled_of_parse h).spread.mem hs
  obtain ⟨u', w, x', rfl, hw⟩ := hv.within hn
  exact ⟨u ++ u', w, x' ++ x, by rw [hts]; simp only [List.append_assoc], hw⟩

/-- The spans of the statements of a program split up the tokens before the first end of input.  At
every depth the span of a node covers the tokens that spell the node, and holds the spans of its
parts, one behind the other. -/
theorem parse_spans (hts : InOrder ts) (h : standard.parse ts = .ok p) :
    Filled (fun s w => s.span.Covers w) p (ts.takeWhile (·.kind ≠ .endOfInput)) ∧
      (p.Pairwise fun s s' => s.span.Precedes s'.span) ∧
      ∀ s ∈ p, ∀ n : Node, n.Within (.stmt s) →
        (∃ before w after, ts.takeWhile (·.kind ≠ .endOfInput) = before ++ w ++ after ∧
          n.span.Covers w ∧ n.Spells (w.map Token.lexeme)) ∧
        (∀ m ∈ n.parts, m.span.Inside n.span) ∧
        n.parts.Pairwise fun m k => m.span.Precedes k.span := by
  have hordered := hts.ordered.sublist (List.takeWhile_sublist (·.kind ≠ .endOfInput))
  have hfilled := filled_of_parse h
  refine ⟨hfilled.mono fun _ _ h => h.covers, ?_, fun s hs n hn => ?_⟩
  · refine hfilled.spread.pairwise.imp ?_
    rintro s s' ⟨u, v, x, y, z, htokens, hv, hy⟩
    rw [htokens] at hordered
    exact hv.covers.precedes hordered hy.covers
  · obtain ⟨before, w, after, htokens, hw⟩ := occupies_of_parse h hs hn
    rw [htokens] at hordered
    exact ⟨⟨before, w, after, htokens, hw.covers, hw.spells⟩,
      fun _ hm => hw.parts_inside hordered.stretch hm, hw.parts_pairwise hordered.stretch⟩

/-- The parameters of a method lie in its span, and its span in that of the class. -/
theorem parse_spans_class :
    ∃ ts s signature, InOrder ts ∧ standard.parse ts = .ok [s] ∧ signature ∈ Node.parts (.stmt s) ∧
      signature.span.Inside s.span ∧ signature.parts.length = 2 ∧
        ∀ m ∈ signature.parts, m.span.Inside signature.span := by
  let position (column : Nat) : Position := ⟨column - 1, 1, column, "a.qk"⟩
  let span (start stop : Nat) : Span := ⟨position start, position stop⟩
  let ts : List Token := [⟨.keyword .class_, "class", span 1 6⟩, ⟨.identifier, "A", span 7 8⟩,
    ⟨.identifier, "f", span 9 10⟩, ⟨.mark .openParen, "(", span 10 11⟩,
    ⟨.identifier, "x", span 11 12⟩, ⟨.mark .comma, ",", span 12 13⟩, ⟨.mark .star, "*", span 14 15⟩,
    ⟨.identifier, "y", span 15 16⟩, ⟨.mark .closeParen, ")", span 16 17⟩,
    ⟨.keyword .end_, "end", span 18 21⟩, .endOfInput (position 21)]
  let f : Signature :=
    ⟨"f", false, false, [⟨"x", false, false, span 11 12⟩, ⟨"y", true, false, span 14 16⟩], span 9 17⟩
  let s : Stmt := .class_ (span 1 21) ⟨.plain, "A", none, [], [f], false⟩
  have hts : InOrder ts := by simp [ts, span, position, InOrder, Span.Precedes, Token.endOfInput]
  have hs : standard.parse ts = .ok [s] := by with_unfolding_all rfl
  have hf : Node.signature f ∈ Node.parts (.stmt s) := List.mem_singleton.2 rfl
  have hnodes := (parse_spans hts hs).2.2 s (List.mem_singleton.2 rfl)
  exact ⟨ts, s, .signature f, hts, hs, hf, (hnodes _ .self).2.1 _ hf, rfl,
    (hnodes _ (.part hf .self)).2.1⟩

end Grammar

end ScriptFrontend
