import Ebnf.Explorer.Highlight
import Ebnf.Proofs.Token.Items

namespace Ebnf.Explorer

/-- A span that lies on characters of the source, or one that is left out
because it ends behind the source. -/
structure Cuttable (source : Text) (a : Span) : Prop where
  ordered : a.start ≤ a.stop
  within : a.stop ≤ source.byteLength → source.Boundary a.start ∧ source.Boundary a.stop

/-- A span that is not left out cuts off what stands in front of it and what it
covers. -/
theorem cover_cons {source front rest : Text} {a : Span} (style : Style) (spans : List (Span × Style))
    (hs : source = front ++ rest) (ha : Cuttable source a) (hstart : front.byteLength ≤ a.start)
    (hstop : a.stop ≤ source.byteLength) :
    ∃ gap inner behind, rest = gap ++ (inner ++ behind) ∧ a.start = (front ++ gap).byteLength ∧
      a.stop = (front ++ gap ++ inner).byteLength ∧
      cover source.byteLength front.byteLength (rest, 0) ((a, style) :: spans) =
        ⟨gap, .plain⟩ :: ⟨inner, style⟩ :: cover source.byteLength a.stop (behind, 0) spans := by
  obtain ⟨⟨t, u, htu, ht⟩, ⟨v, w, hvw, hv⟩⟩ := ha.within hstop
  obtain ⟨gap, rfl, rfl⟩ := Text.exists_append_of_byteLength_le (hs.symm.trans htu) (ht ▸ hstart)
  obtain ⟨inner, rfl, rfl⟩ := Text.exists_append_of_byteLength_le (htu.symm.trans hvw) (ht ▸ hv ▸ ha.ordered)
  refine ⟨gap, inner, w, rfl, ht, hv, ?_⟩
  have hgap := Span.slice_append [] gap (inner ++ w)
  have hinner := Span.slice_append gap inner w
  have hdrop := Text.dropWithin_append (gap ++ inner) w
  simp only [List.append_assoc, Text.byteLength_append, Text.byteLength_nil, List.nil_append,
    Nat.zero_add] at ht hv hgap hdrop
  have hskip : ¬ (a.start < front.byteLength ∨ source.byteLength < a.stop) := by omega
  have hfirst : 0 + (a.start - front.byteLength) = gap.byteLength := by omega
  have hlast : 0 + (a.stop - front.byteLength) = gap.byteLength + inner.byteLength := by omega
  rw [cover, if_neg (by simpa using hskip), hfirst, hlast]
  dsimp only
  rw [hgap, hinner, hdrop]

theorem flatMap_cover {source front rest : Text} {spans : List (Span × Style)} (hs : source = front ++ rest)
    (hc : ∀ p ∈ spans, Cuttable source p.1) :
    (cover source.byteLength front.byteLength (rest, 0) spans).flatMap (·.text) = rest := by
  induction spans generalizing front rest with
  | nil => simp [cover, Text.dropBytes?]
  | cons p spans ih =>
      obtain ⟨a, style⟩ := p
      obtain ⟨ha, hc⟩ := List.forall_mem_cons.1 hc
      by_cases hcut : front.byteLength ≤ a.start ∧ a.stop ≤ source.byteLength
      · obtain ⟨gap, inner, behind, rfl, -, hstop, hcover⟩ := cover_cons style spans hs ha hcut.1 hcut.2
        have hnext : source = (front ++ gap ++ inner) ++ behind := by simp [hs]
        have hrest := ih hnext hc
        rw [hcover, hstop, List.flatMap_cons, List.flatMap_cons, hrest]
      · rw [cover, if_pos (by simpa [Nat.not_le, -not_and, not_and_or] using hcut)]
        exact ih hs hc

theorem splitLines_ne_nil (t : Text) : t.splitLines ≠ [] := by
  cases t with
  | nil => simp [Text.splitLines]
  | cons c t =>
      rw [Text.splitLines]
      split
      · simp
      · split <;> simp

theorem map_fst_styledSpans (ts : List Token) : (styledSpans ts).map (·.1) = ts.flatMap Token.spans := by
  induction ts with
  | nil => rfl
  | cons t ts ih => simp [styledSpans, ih, Token.spans, Function.comp_def]

theorem cuttable_of_tokenize {source : Text} {ts : List Token} (h : tokenize source = .ok ts) :
    ∀ p ∈ styledSpans ts, Cuttable source p.1 := by
  intro p hp
  obtain ⟨ls, -, rfl, rfl⟩ := tokenize_eq_ok.1 h
  have hmem : p.1 ∈ (Lexeme.items 0 ls).map Item.span := by
    have hm : p.1 ∈ (styledSpans (Token.place .start [] ls)).map (·.1) := List.mem_map_of_mem hp
    rw [map_fst_styledSpans, ← Token.map_span_flatMap_items, Token.flatMap_items_place] at hm
    exact hm
  obtain ⟨x, hx, hspan⟩ := List.mem_map.1 hmem
  rw [← hspan]
  rcases Lexeme.mem_items hx with rfl | ⟨as, l, bs, rfl, rfl⟩
  · have hend : (Lexeme.spell ls).Boundary (0 + (Lexeme.spell ls).byteLength) :=
      ⟨Lexeme.spell ls, [], by simp, by simp⟩
    exact ⟨Nat.le_refl _, fun _ => ⟨hend, hend⟩⟩
  · rw [Lexeme.span_item]
    have hstart : (Lexeme.spell (as ++ l :: bs)).Boundary (0 + (Lexeme.spell as).byteLength) :=
      ⟨Lexeme.spell as, l.spelling ++ Lexeme.spell bs, by simp, by simp⟩
    have hstop : (Lexeme.spell (as ++ l :: bs)).Boundary (0 + (Lexeme.spell as).byteLength + l.spelling.byteLength) :=
      ⟨Lexeme.spell as ++ l.spelling, Lexeme.spell bs, by simp, by simp⟩
    exact ⟨Nat.le_add_right _ _, fun _ => ⟨hstart, hstop⟩⟩

end Ebnf.Explorer
