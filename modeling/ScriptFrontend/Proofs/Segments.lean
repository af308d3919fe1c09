import ScriptFrontend.Proofs.Lexes
import ScriptFrontend.Syntax.Tree

/-!
Names that are made of segments.

A qualified name is one word, and the words that it was joined from can be read off from it as long
as none of them has a dot.  No word of the language has one.
-/

namespace ScriptFrontend

def Plain (name : String) : Prop :=
  '.' ∉ name.toList

instance (name : String) : Decidable (Plain name) :=
  inferInstanceAs (Decidable (¬ _))

def segments (name : String) : List String :=
  (name.toList.splitOn '.').map String.ofList

theorem toList_qualified (words : List String) :
    (qualified words).toList = ['.'].intercalate (words.map String.toList) :=
  String.toList_intercalate

theorem map_toList_segments (name : String) :
    (segments name).map String.toList = name.toList.splitOn '.' := by
  rw [segments, List.map_map, Function.comp_def]
  simp only [String.toList_ofList, List.map_id']

theorem segments_ne_nil (name : String) : segments name ≠ [] := by
  rw [segments, Ne, List.map_eq_nil_iff]
  exact List.splitOn_ne_nil '.' name.toList

@[simp] theorem qualified_segments (name : String) : qualified (segments name) = name := by
  apply String.toList_injective
  rw [toList_qualified, map_toList_segments]
  exact List.intercalate_splitOn '.'

theorem segments_qualified {words : List String} (hne : words ≠ []) (h : ∀ w ∈ words, Plain w) :
    segments (qualified words) = words := by
  have hplain : ∀ cs ∈ words.map String.toList, '.' ∉ cs := List.forall_mem_map.2 h
  have hne' : words.map String.toList ≠ [] := mt List.map_eq_nil_iff.1 hne
  rw [segments, toList_qualified, List.splitOn_intercalate '.' hplain hne', List.map_map,
    Function.comp_def]
  simp only [String.ofList_toList, List.map_id']

theorem segments_of_plain {name : String} (h : Plain name) : segments name = [name] :=
  segments_qualified (List.cons_ne_nil name []) (List.forall_mem_singleton.2 h)

/-- A name is its only segment exactly if it has no dot. -/
theorem segments_eq_singleton_iff {name word : String} :
    segments name = [word] ↔ Plain name ∧ word = name := by
  constructor
  · intro h
    have hword : word = name := by
      rw [← qualified_segments name, h]
      exact String.intercalate_singleton.symm
    refine ⟨fun hdot => ?_, hword⟩
    obtain ⟨before, behind, hname⟩ := List.append_of_mem hdot
    have hlength := congrArg List.length h
    have hbefore := List.length_pos_iff.2 (List.splitOn_ne_nil '.' before)
    have hbehind := List.length_pos_iff.2 (List.splitOn_ne_nil '.' behind)
    rw [segments, hname, List.splitOn_append_cons_self, List.length_map, List.length_append,
      List.length_singleton] at hlength
    omega
  · rintro ⟨hplain, rfl⟩
    exact segments_of_plain hplain

/-- No word of the language has a dot. -/
theorem Lexeme.Proper.plain {word : String} (h : (Lexeme.name word).Proper) : Plain word := by
  obtain ⟨⟨c, ds, hword, hc, hds⟩, -⟩ := h
  rw [Plain, hword, List.mem_cons]
  rintro (rfl | hdot)
  · cases hc
  · cases hds '.' hdot

end ScriptFrontend
