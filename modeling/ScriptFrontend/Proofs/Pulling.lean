import Mathlib.Algebra.Ring.Nat
import ScriptFrontend.Proofs.Termination

/-!
Programs that are pulled.

A list hands out statements up to the first pull that finds none, and then at most an error.  Until
it ends it keeps nothing but the cursor, so a list that is made anew on the cursor goes on where the
one before it was left, and what such lists hand out together is what one list would.
-/

namespace ScriptFrontend

open ScriptFrontend.Parser

abbrev Item := Option (Except SyntaxError Stmt)

namespace Pull

section

variable (g : Grammar)

/-- What so many pulls hand out. -/
def items : Nat → Pull → List Item
  | 0, _ => []
  | n + 1, p => (p.next g).1 :: items n (p.next g).2

/-- What lists hand out that are made one after the other on the same cursor, each of them pulled so
many times. -/
def sessions : List Nat → Cursor → List Item
  | [], _ => []
  | n :: ns, c => items g n ⟨c, false⟩ ++ sessions ns (after g n ⟨c, false⟩).cursor

/-- What is handed out from the cursor on: these statements, and then the error if there is one.
The list ends at the last cursor. -/
inductive HandsOut : Cursor → List Stmt → Option SyntaxError → Cursor → Prop
  | ended {c : Cursor} (hst : g.startsTop c.current.kind = false)
      (hk : c.current.kind = .endOfInput) : HandsOut c [] none c
  | stuck {c : Cursor} (hst : g.startsTop c.current.kind = false)
      (hk : c.current.kind ≠ .endOfInput) : HandsOut c [] (some ⟨.statement, c.current⟩) c
  | failed {c d : Cursor} {e : SyntaxError} (hst : g.startsTop c.current.kind = true)
      (h : g.top c = .error e d) : HandsOut c [] (some e) d
  | statement {c d d' : Cursor} {s : Stmt} {ss : List Stmt} {last : Option SyntaxError}
      (hst : g.startsTop c.current.kind = true) (h : g.top c = .ok s d)
      (hrest : HandsOut d ss last d') : HandsOut c (s :: ss) last d'

end

/-- The items up to the first that is no statement, and this one with them. -/
def uptoEnd : List Item → List Item
  | [] => []
  | some (.ok s) :: items => some (.ok s) :: uptoEnd items
  | item :: _ => [item]

def outcomes (ss : List Stmt) (last : Option SyntaxError) : List (Except SyntaxError Stmt) :=
  ss.map .ok ++ last.toList.map .error

variable {g : Grammar} {c d : Cursor} {s : Stmt} {ss : List Stmt} {e : SyntaxError}
variable {last : Option SyntaxError}

/-! ### One pull -/

theorem next_of_ok (hst : g.startsTop c.current.kind = true) (h : g.top c = .ok s d) :
    next g ⟨c, false⟩ = (some (.ok s), ⟨d, false⟩) := by
  simp [next, hst, h]

theorem next_of_error (hst : g.startsTop c.current.kind = true) (h : g.top c = .error e d) :
    next g ⟨c, false⟩ = (some (.error e), ⟨d, true⟩) := by
  simp [next, hst, h]

theorem next_of_end (hst : g.startsTop c.current.kind = false)
    (hk : c.current.kind = .endOfInput) : next g ⟨c, false⟩ = (none, ⟨c, true⟩) := by
  rw [hk] at hst
  simp [next, hst, hk]

theorem next_of_not_starts (hst : g.startsTop c.current.kind = false)
    (hk : c.current.kind ≠ .endOfInput) :
    next g ⟨c, false⟩ = (some (.error ⟨.statement, c.current⟩), ⟨c, true⟩) := by
  simp [next, hst, hk]

/-- A pull hands out a statement, or it ends the list. -/
theorem next_cases (g : Grammar) (c : Cursor) :
    (∃ s d, next g ⟨c, false⟩ = (some (.ok s), ⟨d, false⟩)) ∨
      ∃ item d, next g ⟨c, false⟩ = (item, ⟨d, true⟩) ∧
        ∀ items, uptoEnd (item :: items) = [item] := by
  cases hst : g.startsTop c.current.kind with
  | true =>
      cases h : g.top c with
      | ok s d => exact .inl ⟨s, d, next_of_ok hst h⟩
      | error e d => exact .inr ⟨_, d, next_of_error hst h, fun _ => rfl⟩
  | false =>
      by_cases hk : c.current.kind = .endOfInput
      · exact .inr ⟨_, c, next_of_end hst hk, fun _ => rfl⟩
      · exact .inr ⟨_, c, next_of_not_starts hst hk, fun _ => rfl⟩

/-! ### One list -/

/-- Every cursor hands something out: statements consume, so they come to an end. -/
theorem exists_handsOut (hg : g.RefusesEnd) (hc : c.Closed) :
    ∃ ss last d, HandsOut g c ss last d := by
  induction c using induction_rounds g.startsTop with
  | stop c hst =>
      by_cases hk : c.current.kind = .endOfInput
      · exact ⟨[], none, c, .ended hst hk⟩
      · exact ⟨[], some _, c, .stuck hst hk⟩
  | round c hst ih =>
      cases h : g.top c with
      | error e d => exact ⟨[], some e, d, .failed hst h⟩
      | ok s d =>
          obtain ⟨hd, hlt⟩ := (Grammar.moves_top hg).shorter trivial hc h
          obtain ⟨ss, last, d', hrest⟩ := ih d hlt hd
          exact ⟨s :: ss, last, d', .statement hst h hrest⟩

theorem items_finished (n : Nat) : items g n ⟨c, true⟩ = List.replicate n none := by
  induction n with
  | zero => rfl
  | succ n ih =>
      rw [items, next_finished rfl, ih]
      rfl

theorem range_map_getElem?_nil {α : Type} (n : Nat) :
    (List.range n).map (fun i => ([] : List α)[i]?) = List.replicate n none := by
  rw [List.map_congr_left fun i _ => List.getElem?_nil, List.map_const', List.length_range]

theorem range_map_getElem?_cons {α : Type} (n : Nat) (a : α) (as : List α) :
    (List.range (n + 1)).map (fun i => (a :: as)[i]?) =
      some a :: (List.range n).map fun i => as[i]? := by
  rw [List.range_succ_eq_map, List.map_cons, List.map_map]
  rfl

/-- Behind a pull that ends the list there is nothing. -/
theorem items_of_last {item : Item} (h : next g ⟨c, false⟩ = (item, ⟨d, true⟩)) (n : Nat) :
    items g n ⟨c, false⟩ = (List.range n).map fun i => item.toList[i]? := by
  cases n with
  | zero => rfl
  | succ n =>
      rw [items, h, items_finished]
      cases item with
      | none => exact (range_map_getElem?_nil (n + 1)).symm
      | some x =>
          show _ = (List.range (n + 1)).map fun i => [x][i]?
          rw [range_map_getElem?_cons, range_map_getElem?_nil]

theorem after_of_last {item : Item} (h : next g ⟨c, false⟩ = (item, ⟨d, true⟩)) {n : Nat}
    (hn : 0 < n) : after g n ⟨c, false⟩ = ⟨d, true⟩ := by
  obtain ⟨n, rfl⟩ := Nat.exists_eq_succ_of_ne_zero (Nat.pos_iff_ne_zero.1 hn)
  rw [after, h, after_finished rfl]

/-- A program begins with its first statement. -/
theorem program_of_ok (hst : g.startsTop c.current.kind = true) (h : g.top c = .ok s d)
    (hlt : d.rest.length < c.rest.length) :
    g.program c = match g.program d with
      | .ok ss d' => .ok (s :: ss) d'
      | .error e d' => .error e d' := by
  have hmany := many_of_ok hst h hlt
  cases hrest : many g.startsTop g.top d with
  | error e d' =>
      have hmany' : many g.startsTop g.top c = .error e d' := by
        simp [hmany, Functor.map, EStateM.map, hrest]
      rw [Grammar.program, bind_of_error hmany', bind_of_error hrest]
  | ok ss d' =>
      have hmany' : many g.startsTop g.top c = .ok (s :: ss) d' := by
        simp [hmany, Functor.map, EStateM.map, hrest]
      rw [Grammar.program, bind_of_ok hmany', bind_of_ok hrest]
      show (if d'.current.kind = .endOfInput then pure (s :: ss) else fail .statement :
          Parser (List Stmt)) d' =
        match (if d'.current.kind = .endOfInput then pure ss else fail .statement :
          Parser (List Stmt)) d' with
        | .ok ss d' => .ok (s :: ss) d'
        | .error e d' => .error e d'
      split <;> rfl

namespace HandsOut

/-- The pulls hand out one outcome each, and nothing when there are no more. -/
theorem items_eq (h : HandsOut g c ss last d) (n : Nat) :
    items g n ⟨c, false⟩ = (List.range n).map fun i => (outcomes ss last)[i]? := by
  induction h generalizing n with
  | ended hst hk => exact items_of_last (next_of_end hst hk) n
  | stuck hst hk => exact items_of_last (next_of_not_starts hst hk) n
  | failed hst h => exact items_of_last (next_of_error hst h) n
  | @statement c d d' s ss last hst h hrest ih =>
      cases n with
      | zero => rfl
      | succ n =>
          rw [items, next_of_ok hst h, ih]
          exact (range_map_getElem?_cons n (.ok s) (outcomes ss last)).symm

theorem after_eq (h : HandsOut g c ss last d) {n : Nat} (hn : ss.length < n) :
    after g n ⟨c, false⟩ = ⟨d, true⟩ := by
  induction h generalizing n with
  | ended hst hk => exact after_of_last (next_of_end hst hk) hn
  | stuck hst hk => exact after_of_last (next_of_not_starts hst hk) hn
  | failed hst h => exact after_of_last (next_of_error hst h) hn
  | statement hst h hrest ih =>
      cases n with
      | zero => cases hn
      | succ n =>
          rw [after, next_of_ok hst h]
          exact ih (Nat.lt_of_succ_lt_succ hn)

theorem kind_eq (h : HandsOut g c ss none d) : d.current.kind = .endOfInput := by
  generalize hlast : (none : Option SyntaxError) = last at h
  induction h with
  | ended hst hk => exact hk
  | stuck hst hk => cases hlast
  | failed hst h => cases hlast
  | statement hst h hrest ih => exact ih hlast

/-- The whole program is what is handed out, or the error. -/
theorem program_eq (hg : g.RefusesEnd) (h : HandsOut g c ss last d) (hc : c.Closed) :
    g.program c = match last with
      | none => .ok ss d
      | some e => .error e d := by
  induction h with
  | ended hst hk =>
      rw [Grammar.program, bind_of_ok (many_of_not hst)]
      exact congrFun (if_pos hk) _
  | stuck hst hk =>
      rw [Grammar.program, bind_of_ok (many_of_not hst)]
      exact congrFun (if_neg hk) _
  | failed hst h =>
      rw [Grammar.program, bind_of_error (many_of_error hst h)]
  | @statement c d d' s ss last hst h hrest ih =>
      obtain ⟨hd, hlt⟩ := (Grammar.moves_top hg).shorter trivial hc h
      rw [program_of_ok hst h hlt, ih hd]
      cases last <;> rfl

end HandsOut

/-! ### Lists one after the other -/

theorem items_add (m n : Nat) (p : Pull) :
    items g (m + n) p = items g m p ++ items g n (after g m p) := by
  induction m generalizing p with
  | zero => rw [Nat.zero_add, items, after, List.nil_append]
  | succ m ih => rw [Nat.succ_add, items, ih, items, after, List.cons_append]

/-- What is handed out behind some pulls counts unless these have ended the list. -/
theorem uptoEnd_items_append (n : Nat) (c : Cursor) (behind : List Item) :
    uptoEnd (items g n ⟨c, false⟩ ++ behind) =
      if (after g n ⟨c, false⟩).finished then uptoEnd (items g n ⟨c, false⟩)
      else items g n ⟨c, false⟩ ++ uptoEnd behind := by
  induction n generalizing c with
  | zero => rfl
  | succ n ih =>
      rcases next_cases g c with ⟨s, d, h⟩ | ⟨item, d, h, hlast⟩
      · rw [items, after, h, List.cons_append, uptoEnd, uptoEnd, ih]
        split <;> rfl
      · rw [items, after, h, after_finished rfl, List.cons_append, hlast, hlast]
        rfl

/-- Lists that are made one after the other hand out what a single list does. -/
theorem uptoEnd_sessions (counts : List Nat) (c : Cursor) :
    uptoEnd (sessions g counts c) = uptoEnd (items g counts.sum ⟨c, false⟩) := by
  induction counts generalizing c with
  | nil => rfl
  | cons n ns ih =>
      rw [sessions, List.sum_cons, items_add, uptoEnd_items_append, uptoEnd_items_append]
      obtain ⟨d, finished⟩ := after g n ⟨c, false⟩
      cases finished with
      | true => rfl
      | false => rw [ih]

/-- A list on the tokens hands out the statements and then the error, if there is one, and it ends
at the cursor. -/
structure Fused (g : Grammar) (ts : List Token) (ss : List Stmt) (last : Option SyntaxError)
    (d : Cursor) : Prop where
  hands_out : ∀ n, items g n ⟨.ofTokens ts, false⟩ =
    (List.range n).map fun i => (outcomes ss last)[i]?
  /-- From the first pull on that hands out no statement the cursor stays where it is. -/
  settles : ∀ n, ss.length < n → after g n ⟨.ofTokens ts, false⟩ = ⟨d, true⟩
  kind_of_none : last = none → d.current.kind = .endOfInput
  parse_eq : g.parse ts = match last with
    | none => .ok ss
    | some e => .error e
  /-- Lists that are made anew on the cursor lose nothing, repeat nothing and change no order. -/
  restarts : ∀ counts, uptoEnd (sessions g counts (.ofTokens ts)) =
    uptoEnd (items g counts.sum ⟨.ofTokens ts, false⟩)

/-- On every list of tokens, pulling hands out some statements and then at most one error, without
which it ends on an end of input; from then on nothing is handed out and the cursor does not move.
Parsing yields the statements, or the error, and so do lists that are made one after the other. -/
theorem exists_fused (resolve : String → String) (ts : List Token) :
    ∃ ss last d, Fused (Grammar.standard resolve) ts ss last d := by
  have hg := Grammar.standard_refusesEnd resolve
  have hc := Cursor.closed_ofTokens ts
  obtain ⟨ss, last, d, h⟩ := exists_handsOut hg hc
  refine ⟨ss, last, d, h.items_eq, fun n hn => h.after_eq hn, ?_, ?_, ?_⟩
  · rintro rfl
    exact h.kind_eq
  · rw [Grammar.parse, h.program_eq hg hc]
    cases last <;> rfl
  · exact fun counts => uptoEnd_sessions counts _

/-- A bracket that starts nothing, between two modules: a new list hands out the error again, and
nothing behind it. -/
example :
    (sessions (Grammar.standard id) [1, 2, 1] (.ofTokens ([.keyword .module_, .name "a",
        .mark .closeBracket, .keyword .module_, .name "b"].map Lexeme.token))).map
      (Option.map Except.isOk) = [some true, some false, none, some false] := by
  with_unfolding_all rfl

end Pull

end ScriptFrontend
