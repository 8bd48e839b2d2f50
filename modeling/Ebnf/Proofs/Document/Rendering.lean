import Ebnf.Proofs.Document.Source
import Ebnf.Proofs.Grammar.Readability

namespace Ebnf

theorem Grammar.render_eq_iff_of_legal {α β : Type} {g : Grammar α} {g' : Grammar β} (hg : ∀ r ∈ g.shape, r.Legal)
    (hg' : ∀ r ∈ g'.shape, r.Legal) : g.render = g'.render ↔ g.bare = g'.bare := by
  rw [Grammar.bare_eq_iff_shape_eq, ← g.render_shape, ← g'.render_shape]
  exact ⟨renderShapes_inj hg hg', congrArg renderShapes⟩

theorem legal_shape_of_parse {source : Text} {g : Grammar Span} (h : parse source = .ok g) :
    ∀ r ∈ g.shape, r.Legal := by
  obtain ⟨d, hd, rfl⟩ := exists_of_map_eq_ok h
  obtain ⟨ps, trail, hp⟩ := Document.printed_of_ofSource hd
  intro s hs
  obtain ⟨r, hr, rfl⟩ := List.mem_map.1 hs
  exact r.legal_shape (hp.laid.legal r hr)

/-- A grammar is told by its rendering, places apart, whatever characters its
leaves hold. This is so for all trees whose leaves are spelled as lexemes are,
malformed ones too, and for every grammar that has been read from a text. -/
theorem render_eq_iff :
    (∀ g : Grammar Span, renderShapes g.shape = g.render) ∧
    (∀ rs rs' : List RuleShape, (∀ r ∈ rs, r.Legal) → (∀ r ∈ rs', r.Legal) →
      (renderShapes rs = renderShapes rs' ↔ rs = rs')) ∧
    (∀ g g' : Grammar Span, (∀ r ∈ g.shape, r.Legal) → (∀ r ∈ g'.shape, r.Legal) →
      (g.render = g'.render ↔ g.bare = g'.bare)) ∧
    ∀ (source source' : Text) (g g' : Grammar Span), parse source = .ok g → parse source' = .ok g' →
      (g.render = g'.render ↔ g.bare = g'.bare) := by
  refine ⟨Grammar.render_shape, ?_, ?_, ?_⟩
  · intro rs rs' hr hr'
    exact ⟨renderShapes_inj hr hr', congrArg renderShapes⟩
  · intro g g' hg hg'
    exact Grammar.render_eq_iff_of_legal hg hg'
  · intro source source' g g' h h'
    exact Grammar.render_eq_iff_of_legal (legal_shape_of_parse h) (legal_shape_of_parse h')

/-- Two spellings of one rule whose leaf holds the end of a rule and the
beginning of another, `a = ?;\nb = (|? - ;`, and a malformed rule in front of
the one that leaf seems to begin. -/
theorem render_eq_iff_of_hidden_rule :
    let leaf : Text := ";\nb = (|".toList
    let g : Grammar Span := ⟨[⟨['a'], ⟨0, 1⟩, some (.without (.atom (.special leaf) ⟨4, 14⟩) ⟨4, 16⟩), ⟨0, 18⟩⟩], ⟨0, 18⟩⟩
    let g' : Grammar Span := ⟨[⟨['a'], ⟨0, 1⟩, some (.without (.atom (.special leaf) ⟨2, 12⟩) ⟨2, 13⟩), ⟨0, 14⟩⟩], ⟨0, 14⟩⟩
    let rs : List RuleShape := [⟨['a'], some (.without (.joining .alternation) (.integer 3))⟩, ⟨['b'], none⟩]
    parse "a = ?;\nb = (|? - ;".toList = .ok g ∧ parse "a=?;\nb = (|?-;".toList = .ok g' ∧
      (g.render = g'.render ↔ g.bare = g'.bare) ∧ g.render = "a = (- ?;\nb = (|?);".toList ∧
      (∀ r ∈ rs, r.Legal) ∧ (∀ r ∈ g.shape, r.Legal) ∧ (renderShapes rs = renderShapes g.shape ↔ rs = g.shape) := by
  intro leaf g g' rs
  have h : parse "a = ?;\nb = (|? - ;".toList = .ok g := by decide +kernel
  have h' : parse "a=?;\nb = (|?-;".toList = .ok g' := by decide +kernel
  have hname (c : Char) (hc : c.isAlpha = true) : (Lexeme.identifier [c]).Proper := ⟨c, [], rfl, hc, by simp⟩
  have hrs : ∀ r ∈ rs, r.Legal := by
    simp [rs, RuleShape.Legal, Shape.Legal, hname]
  have hg := legal_shape_of_parse h
  exact ⟨h, h', render_eq_iff.2.2.2 _ _ g g' h h', rfl, hrs, hg, render_eq_iff.2.1 rs g.shape hrs hg⟩

end Ebnf
