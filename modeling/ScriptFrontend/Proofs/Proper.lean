import ScriptFrontend.Proofs.Lexes
import ScriptFrontend.Proofs.Unplaced

/-!
Trees that can be written down.

A tree is proper if its names are names of the language and its numbers are numerals.  Every tree
that is spelled by what a scanner reads is proper, and it stays so wherever its places are and
whichever of its classes are native.
-/

namespace ScriptFrontend

/-- The names and the numbers of the expression can be written down. -/
def Expr.Proper (e : Expr) : Prop :=
  ∀ l ∈ e.lexemes, l.Proper

def Parameter.Proper (p : Parameter) : Prop :=
  (Lexeme.name p.name).Proper

structure Signature.Proper (s : Signature) : Prop where
  name : (Lexeme.name s.name).Proper
  parameters : ∀ p ∈ s.parameters, p.Proper

structure ClassDecl.Proper (d : ClassDecl) : Prop where
  name : (Lexeme.name d.name).Proper
  base : ∀ word ∈ d.base, (Lexeme.name word).Proper
  interfaces : ∀ word ∈ d.interfaces, (Lexeme.name word).Proper
  signatures : ∀ s ∈ d.signatures, s.Proper

mutual

def Stmt.Proper : Stmt → Prop
  | .block _ body => ProperEach body
  | .break_ _ _ => True
  | .class_ _ decl => decl.Proper
  | .const _ name value => (Lexeme.name name).Proper ∧ value.Proper
  | .continue_ _ _ => True
  | .def_ _ name _ parameters body =>
    (Lexeme.name name).Proper ∧ (∀ p ∈ parameters, p.Proper) ∧ ProperEach body
  | .expr _ expr => expr.Proper
  | .foreach _ name _ iterable body =>
    (Lexeme.name name).Proper ∧ iterable.Proper ∧ ProperEach body
  | .global _ names => ∀ name ∈ names, (Lexeme.name name).Proper
  | .goto _ label => (Lexeme.name label).Proper
  | .if_ _ condition body chain => condition.Proper ∧ ProperEach body ∧ chain.Proper
  | .label _ name => (Lexeme.name name).Proper
  | .module_ _ segments => ∀ name ∈ segments, (Lexeme.name name).Proper
  | .open_ _ segments rename =>
    (∀ name ∈ segments, (Lexeme.name name).Proper) ∧ ∀ name ∈ rename, (Lexeme.name name).Proper
  | .print _ value => value.Proper
  | .raise _ value => value.Proper
  | .return_ _ value => ∀ e ∈ value, e.Proper
  | .while_ _ condition body => condition.Proper ∧ ProperEach body

def ElseChain.Proper : ElseChain → Prop
  | .done => True
  | .elif condition body chain => condition.Proper ∧ ProperEach body ∧ chain.Proper
  | .otherwise body => ProperEach body

def ProperEach : List Stmt → Prop
  | [] => True
  | s :: ss => s.Proper ∧ ProperEach ss

end

/-! ### What is spelled by proper lexemes -/

theorem mem_intercalate {α : Type} {separator part : List α} {parts : List (List α)} {x : α}
    (hp : part ∈ parts) (hx : x ∈ part) : x ∈ separator.intercalate parts := by
  cases parts with
  | nil => cases hp
  | cons first parts =>
      rw [intercalate_cons, List.mem_append]
      rcases List.mem_cons.1 hp with rfl | hp
      · exact .inl hx
      · refine .inr (List.mem_flatten_of_mem (List.mem_map_of_mem hp) ?_)
        exact List.mem_append_right _ hx

theorem Lexeme.proper_of_names {separator : Mark} {names : List String}
    (h : ∀ l ∈ Lexeme.names separator names, l.Proper) :
    ∀ name ∈ names, (Lexeme.name name).Proper := fun _ hname =>
  h _ (mem_intercalate (List.mem_map_of_mem hname) (List.mem_singleton_self _))

theorem Lexeme.proper_of_announced {announcer : Lexeme} {name : Option String}
    (h : ∀ l ∈ Lexeme.announced announcer name, l.Proper) :
    ∀ word ∈ name, (Lexeme.name word).Proper := by
  rintro word rfl
  exact h _ (List.mem_cons_of_mem _ (List.mem_singleton_self _))

theorem Lexeme.proper_of_parameters {separator : Mark} {ps : List Parameter}
    (h : ∀ l ∈ Lexeme.parameters separator ps, l.Proper) : ∀ p ∈ ps, p.Proper := by
  intro p hp
  refine h _ (mem_intercalate (List.mem_map_of_mem hp) ?_)
  rw [Parameter.lexemes]
  exact List.mem_append_right _ (List.mem_append_right _ (List.mem_singleton_self _))

theorem ParametersSpelled.proper {ps : List Parameter} {w : List Lexeme}
    (h : ParametersSpelled ps w) (hw : ∀ l ∈ w, l.Proper) : ∀ p ∈ ps, p.Proper := by
  rcases h with ⟨rfl, -⟩ | rfl
  · exact nofun
  · simp only [List.forall_mem_cons, List.forall_mem_append] at hw
    exact Lexeme.proper_of_parameters hw.2.1

theorem Signature.proper_of_lexemes {s : Signature} (h : ∀ l ∈ s.lexemes, l.Proper) :
    s.Proper := by
  simp only [lexemes, List.forall_mem_cons, List.forall_mem_append] at h
  obtain ⟨-, -, hname, -, hps, -⟩ := h
  exact ⟨hname, Lexeme.proper_of_parameters hps⟩

theorem OthersSpelled.proper {names : List String} {w : List Lexeme} (h : OthersSpelled names w)
    (hw : ∀ l ∈ w, l.Proper) : ∀ name ∈ names, (Lexeme.name name).Proper := by
  induction names generalizing w with
  | nil => exact nofun
  | cons name names ih =>
      obtain ⟨hash, v, hv, rfl⟩ := h
      simp only [List.forall_mem_cons, List.forall_mem_append] at hw ⊢
      exact ⟨hw.2.2.1, ih hv hw.2.2.2⟩

theorem InterfacesSpelled.proper {names : List String} {w : List Lexeme}
    (h : InterfacesSpelled names w) (hw : ∀ l ∈ w, l.Proper) :
    ∀ name ∈ names, (Lexeme.name name).Proper := by
  cases names with
  | nil => exact nofun
  | cons name names =>
      obtain ⟨v, hv, rfl⟩ := h
      simp only [List.forall_mem_cons] at hw ⊢
      exact ⟨hw.2.1, hv.proper hw.2.2⟩

theorem ClassDecl.Spelled.proper {d : ClassDecl} {w : List Lexeme} (h : d.Spelled w)
    (hw : ∀ l ∈ w, l.Proper) : d.Proper := by
  obtain ⟨v, hv, rfl⟩ := h
  simp only [List.forall_mem_cons, List.forall_mem_append] at hw
  obtain ⟨-, -, hname, hbase, hvp, hsigs, -⟩ := hw
  refine ⟨hname, Lexeme.proper_of_announced hbase, hv.proper hvp, fun s hs => ?_⟩
  exact s.proper_of_lexemes fun l hl => hsigs l (List.mem_flatten_of_mem (List.mem_map_of_mem hs) hl)

theorem Bracketed.proper {spelled : List Lexeme → Prop} {w : List Lexeme}
    (h : Bracketed spelled w) (hw : ∀ l ∈ w, l.Proper) :
    ∃ v, spelled v ∧ ∀ l ∈ v, l.Proper := by
  obtain ⟨v, ended, hv, rfl⟩ := h
  simp only [List.forall_mem_cons, List.forall_mem_append] at hw
  exact ⟨v, hv, hw.2.1⟩

mutual

theorem Stmt.Spelled.proper :
    ∀ (s : Stmt) {w : List Lexeme}, s.Spelled w → (∀ l ∈ w, l.Proper) → s.Proper
  | .block _ body, _, ⟨v, hv, hw⟩, hp => by
      subst hw
      simp only [List.forall_mem_cons, List.forall_mem_append] at hp
      exact SpelledEach.proper body hv hp.2.1
  | .break_ _ _, _, _, _ => trivial
  | .class_ _ _, _, h, hp => ClassDecl.Spelled.proper h hp
  | .const _ _ _, _, rfl, hp => by
      simp only [List.forall_mem_cons] at hp
      exact ⟨hp.2.1, hp.2.2.2⟩
  | .continue_ _ _, _, _, _ => trivial
  | .def_ _ _ _ _ body, _, ⟨u, v, hu, hv, hw⟩, hp => by
      subst hw
      simp only [List.forall_mem_cons, List.forall_mem_append] at hp
      obtain ⟨-, -, hname, hup, hvp⟩ := hp
      obtain ⟨v', hv', hvp'⟩ := hv.proper hvp
      exact ⟨hname, hu.proper hup, SpelledEach.proper body hv' hvp'⟩
  | .expr _ _, _, rfl, hp => hp
  | .foreach _ _ _ _ body, _, ⟨v, hv, hw⟩, hp => by
      subst hw
      simp only [List.forall_mem_cons, List.forall_mem_append] at hp
      obtain ⟨-, -, hname, -, hiterable, hvp⟩ := hp
      obtain ⟨v', hv', hvp'⟩ := hv.proper hvp
      exact ⟨hname, hiterable, SpelledEach.proper body hv' hvp'⟩
  | .global _ _, _, rfl, hp => by
      rw [List.forall_mem_cons] at hp
      exact Lexeme.proper_of_names hp.2
  | .goto _ label, _, rfl, hp => hp (.name label) (by simp)
  | .if_ _ _ body chain, _, ⟨u, v, hu, hv, hw⟩, hp => by
      subst hw
      simp only [List.forall_mem_cons, List.forall_mem_append] at hp
      obtain ⟨-, hcondition, hup, hvp⟩ := hp
      obtain ⟨u', hu', hup'⟩ := hu.proper hup
      exact ⟨hcondition, SpelledEach.proper body hu' hup', ElseChain.Spelled.proper chain hv hvp⟩
  | .label _ name, _, rfl, hp => hp (.name name) (by simp)
  | .module_ _ _, _, rfl, hp => by
      rw [List.forall_mem_cons] at hp
      exact Lexeme.proper_of_names hp.2
  | .open_ _ _ _, _, rfl, hp => by
      simp only [List.forall_mem_cons, List.forall_mem_append] at hp
      exact ⟨Lexeme.proper_of_names hp.2.1, Lexeme.proper_of_announced hp.2.2⟩
  | .print _ _, _, rfl, hp => (List.forall_mem_cons.1 hp).2
  | .raise _ _, _, rfl, hp => (List.forall_mem_cons.1 hp).2
  | .return_ _ none, _, _, _ => nofun
  | .return_ _ (some value), _, rfl, hp => by
      intro e he
      cases he
      exact (List.forall_mem_cons.1 hp).2
  | .while_ _ _ body, _, ⟨v, hv, hw⟩, hp => by
      subst hw
      simp only [List.forall_mem_cons, List.forall_mem_append] at hp
      obtain ⟨v', hv', hvp'⟩ := hv.proper hp.2.2
      exact ⟨hp.2.1, SpelledEach.proper body hv' hvp'⟩

theorem ElseChain.Spelled.proper :
    ∀ (chain : ElseChain) {w : List Lexeme}, chain.Spelled w → (∀ l ∈ w, l.Proper) → chain.Proper
  | .done, _, _, _ => trivial
  | .elif _ body chain, _, ⟨u, v, hu, hv, hw⟩, hp => by
      subst hw
      simp only [List.forall_mem_cons, List.forall_mem_append] at hp
      obtain ⟨-, hcondition, hup, hvp⟩ := hp
      obtain ⟨u', hu', hup'⟩ := hu.proper hup
      exact ⟨hcondition, SpelledEach.proper body hu' hup', ElseChain.Spelled.proper chain hv hvp⟩
  | .otherwise body, _, ⟨v, hv, hw⟩, hp => by
      subst hw
      obtain ⟨v', hv', hvp'⟩ := hv.proper (List.forall_mem_cons.1 hp).2
      exact SpelledEach.proper body hv' hvp'

theorem SpelledEach.proper :
    ∀ (ss : List Stmt) {w : List Lexeme}, SpelledEach ss w → (∀ l ∈ w, l.Proper) → ProperEach ss
  | [], _, _, _ => trivial
  | s :: ss, _, ⟨u, v, hu, hv, hw⟩, hp => by
      subst hw
      rw [List.forall_mem_append] at hp
      exact ⟨Stmt.Spelled.proper s hu hp.1, SpelledEach.proper ss hv hp.2⟩

end

/-! ### Places and native classes -/

section

variable {r : Relabelling}

theorem Expr.proper_relabel (hn : r.name = id) (e : Expr) : (e.relabel r).Proper ↔ e.Proper := by
  rw [Proper, e.lexemes_relabel hn]
  rfl

theorem forall_proper_map {names : List String} (hn : r.name = id) :
    (∀ name ∈ names.map r.name, (Lexeme.name name).Proper) ↔
      ∀ name ∈ names, (Lexeme.name name).Proper := by
  rw [hn, List.map_id]

theorem Parameter.proper_relabel (hn : r.name = id) (ps : List Parameter) :
    (∀ p ∈ ps.map (Parameter.relabel r), p.Proper) ↔ ∀ p ∈ ps, p.Proper := by
  rw [List.forall_mem_map]
  refine forall₂_congr fun p _ => ?_
  rw [Proper, relabel, hn]
  rfl

theorem Signature.proper_relabel (hn : r.name = id) (s : Signature) :
    (s.relabel r).Proper ↔ s.Proper := by
  have hps := Parameter.proper_relabel hn s.parameters
  refine ⟨fun h => ⟨?_, hps.1 h.parameters⟩, fun h => ⟨?_, hps.2 h.parameters⟩⟩
  · have := h.name
    rwa [relabel, hn] at this
  · rw [relabel, hn]
    exact h.name

theorem ClassDecl.proper_relabel (hn : r.name = id) (d : ClassDecl) :
    (d.relabel r).Proper ↔ d.Proper := by
  have hsigs : (∀ s ∈ (d.relabel r).signatures, s.Proper) ↔ ∀ s ∈ d.signatures, s.Proper :=
    List.forall_mem_map.trans (forall₂_congr fun s _ => s.proper_relabel hn)
  have hname : (d.relabel r).name = d.name := by rw [relabel, hn]; rfl
  have hbase : (d.relabel r).base = d.base := by rw [relabel, hn, Option.map_id_apply]
  have hinterfaces : (d.relabel r).interfaces = d.interfaces := by rw [relabel, hn, List.map_id]
  refine ⟨fun h => ⟨?_, ?_, ?_, hsigs.1 h.signatures⟩, fun h => ⟨?_, ?_, ?_, hsigs.2 h.signatures⟩⟩
  · exact hname ▸ h.name
  · exact hbase ▸ h.base
  · exact hinterfaces ▸ h.interfaces
  · exact hname.symm ▸ h.name
  · exact hbase.symm ▸ h.base
  · exact hinterfaces.symm ▸ h.interfaces

mutual

theorem Stmt.proper_relabel (hn : r.name = id) : ∀ s : Stmt, (s.relabel r).Proper ↔ s.Proper
  | .block _ body => properEach_relabel hn body
  | .break_ _ _ => Iff.rfl
  | .class_ _ decl => decl.proper_relabel hn
  | .const _ _ value => by
      simp only [Stmt.relabel, Stmt.Proper, hn, id, value.proper_relabel hn]
  | .continue_ _ _ => Iff.rfl
  | .def_ _ _ _ ps body => by
      simp only [Stmt.relabel, Stmt.Proper, hn, id, Parameter.proper_relabel hn,
        properEach_relabel hn body]
  | .expr _ e => e.proper_relabel hn
  | .foreach _ _ _ iterable body => by
      simp only [Stmt.relabel, Stmt.Proper, hn, id, iterable.proper_relabel hn,
        properEach_relabel hn body]
  | .global _ _ => forall_proper_map hn
  | .goto _ _ => by
      simp only [Stmt.relabel, Stmt.Proper, hn, id]
  | .if_ _ condition body chain =>
      and_congr (condition.proper_relabel hn)
        (and_congr (properEach_relabel hn body) (ElseChain.proper_relabel hn chain))
  | .label _ _ => by
      simp only [Stmt.relabel, Stmt.Proper, hn, id]
  | .module_ _ _ => forall_proper_map hn
  | .open_ _ _ _ => by
      simp only [Stmt.relabel, Stmt.Proper, hn, List.map_id, Option.map_id_apply]
  | .print _ value => value.proper_relabel hn
  | .raise _ value => value.proper_relabel hn
  | .return_ _ none => Iff.rfl
  | .return_ _ (some value) => by
      simp only [Stmt.relabel, Stmt.Proper, Option.map_some, Option.mem_some_iff, forall_eq',
        value.proper_relabel hn]
  | .while_ _ condition body =>
      and_congr (condition.proper_relabel hn) (properEach_relabel hn body)

theorem ElseChain.proper_relabel (hn : r.name = id) :
    ∀ chain : ElseChain, (chain.relabel r).Proper ↔ chain.Proper
  | .done => Iff.rfl
  | .elif condition body chain =>
      and_congr (condition.proper_relabel hn)
        (and_congr (properEach_relabel hn body) (ElseChain.proper_relabel hn chain))
  | .otherwise body => properEach_relabel hn body

theorem properEach_relabel (hn : r.name = id) :
    ∀ ss : List Stmt, ProperEach (Stmt.relabelEach r ss) ↔ ProperEach ss
  | [] => Iff.rfl
  | s :: ss => and_congr (Stmt.proper_relabel hn s) (properEach_relabel hn ss)

end

/-- Programs that agree once only places and native classes are relabelled are proper alike. -/
theorem properEach_congr (hn : r.name = id) {ss ts : List Stmt}
    (h : ss.map (Stmt.relabel r) = ts.map (Stmt.relabel r)) : ProperEach ss ↔ ProperEach ts := by
  rw [← properEach_relabel hn ss, ← properEach_relabel hn ts, Stmt.relabelEach_eq_map,
    Stmt.relabelEach_eq_map, h]

end

end ScriptFrontend
