import Ebnf.Proofs.Document.Slices

namespace Ebnf

open Lexeme

namespace Lexeme

theorem length_le_byteLength_spell {ls : List Lexeme} (h : ∀ l ∈ ls, l.Proper) :
    ls.length ≤ (spell ls).byteLength := by
  induction ls with
  | nil => exact Nat.le_refl 0
  | cons l ls ih =>
      obtain ⟨hl, hls⟩ := List.forall_mem_cons.1 h
      have hpos := hl.byteLength_pos
      have hle := ih hls
      rw [List.length_cons, spell_cons, Text.byteLength_append]
      omega

end Lexeme

namespace Grammar

variable {α : Type} {g : Grammar α} {r : Rule α}

theorem length_rules_le_yield (g : Grammar α) : g.rules.length ≤ g.yield.length := by
  rw [yield]
  induction g.rules with
  | nil => exact Nat.le_refl 0
  | cons r rs ih =>
      have hr := r.yield_length
      rw [List.flatMap_cons, List.length_append, List.length_cons]
      omega

theorem length_yield_le_of_mem (h : r ∈ g.rules) : r.yield.length ≤ g.yield.length := by
  have hmem : r.yield ∈ g.rules.map Rule.yield := List.mem_map_of_mem h
  have hinfix := List.infix_of_mem_flatten hmem
  rw [← List.flatMap_def] at hinfix
  exact hinfix.length_le

end Grammar

namespace Document

variable {source : Text} {d : Document}

theorem length_yield_le (h : ofSource source = .ok d) : d.grammar.yield.length ≤ source.byteLength := by
  obtain ⟨segs, stop, -, hst⟩ := exists_standing h
  obtain ⟨ls, hc, rfl, hg⟩ := hst.lexemes
  have hkinds : ls.filterMap kind? = segs.flatten.map (·.kind) := by
    have hm : (gists 0 [] ls).map (·.kind) = ls.filterMap kind? := map_kind_gists
    rw [← hm, hg, List.map_map]
    rfl
  have hyield : segs.flatten.map (·.kind) = d.grammar.yield :=
    flatMap_of_segments (hst.stands.imp fun _ _ hr => hr.kinds)
  calc d.grammar.yield.length
      = (ls.filterMap kind?).length := by rw [hkinds, hyield]
    _ ≤ ls.length := List.length_filterMap_le kind? ls
    _ ≤ (spell ls).byteLength := length_le_byteLength_spell hc.proper

end Document

end Ebnf
