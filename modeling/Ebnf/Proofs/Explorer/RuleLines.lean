import Ebnf.Proofs.Document.Locations
import Ebnf.Proofs.Document.Slices
import Ebnf.Proofs.Explorer.Display
import Ebnf.Proofs.Token.Roundtrip

namespace Ebnf

variable {source : Text}

theorem Location.Exact.line_eq {l : Location} (h : l.Exact source) : l.line = source.breaksBefore l.offset + 1 := by
  obtain ⟨before, after, rfl, hoffset, hline, -⟩ := h
  rw [hoffset, hline, Text.breaksBefore_append, Nat.add_comm]

theorem Span.lineRange_eq {a : Span} (h : a.start ≤ a.stop) :
    a.lineRange source = (source.breaksBefore a.start + 1, source.breaksBefore a.stop + 1) := by
  rw [lineRange, Nat.min_eq_left h]

namespace Explorer

variable {ts : List Token} {d : Document} {r : Rule Span}

theorem breaksBefore_semicolon {v : Token} (h : tokenize source = .ok ts) (hv : v ∈ ts)
    (hk : v.kind = .mark .semicolon) :
    v.span.stop = v.span.start + 1 ∧ v.span.stop ≤ source.byteLength ∧
      source.breaksBefore v.span.stop = source.breaksBefore v.span.start := by
  obtain ⟨front, text, back, rfl, hspan, hspelled⟩ := Token.exists_spelled h hv
  rw [hk] at hspelled
  obtain rfl : text = [';'] := hspelled
  have hsize : Text.byteLength [';'] = 1 := rfl
  rw [hsize] at hspan
  have hstart := Text.breaksBefore_append front ([';'] ++ back)
  have hstop := Text.breaksBefore_append (front ++ [';']) back
  rw [Text.byteLength_append, hsize, List.append_assoc] at hstop
  have hcount : (front ++ [';']).count '\n' = front.count '\n' := by simp
  rw [hspan]
  exact ⟨rfl, by simp only [Text.byteLength_append, hsize]; omega, by rw [hstart, hstop, hcount]⟩

/-- Which lines are marked for a rule. They run from that of its name to that of
its semicolon, all of them are displayed, and a line is one of them if there is
a byte of the rule on it. -/
structure Marked (source : Text) (d : Document) (r : Rule Span) : Prop where
  ends : ∃ t ∈ d.tokens, ∃ v ∈ d.tokens, t.kind = .identifier r.name ∧ t.span = r.namePlace ∧
    v.kind = .mark .semicolon ∧ v.span.stop = r.place.stop ∧
    r.place.lineRange source = (t.location.line, v.location.line)
  displayed : 1 ≤ (r.place.lineRange source).1 ∧ (r.place.lineRange source).1 ≤ (r.place.lineRange source).2 ∧
    (r.place.lineRange source).2 ≤ (highlight source d.tokens).length
  lines : ∀ i, ((r.place.lineRange source).1 ≤ i + 1 ∧ i + 1 ≤ (r.place.lineRange source).2) ↔
    ∃ n, r.place.Holds n ∧ source.OnLine i n

theorem marked (h : Document.ofSource source = .ok d) (hr : r ∈ d.grammar.rules) : Marked source d r := by
  have htokens := Document.tokenize_tokens h
  obtain ⟨t, ht, v, hv, hname, hspan, hstart, hsemicolon, hstop⟩ := Document.exists_ends h hr
  obtain ⟨htoffset, htexact⟩ := location_exact_of_tokenize htokens ht
  obtain ⟨hvoffset, hvexact⟩ := location_exact_of_tokenize htokens hv
  obtain ⟨hone, hwithin, hbreaks⟩ := breaksBefore_semicolon htokens hv hsemicolon
  have hnonempty := (Document.nests_rules h).nonempty r.place (List.mem_map_of_mem hr)
  have hle : r.place.start ≤ v.span.start := by omega
  have hrange : r.place.lineRange source =
      (source.breaksBefore r.place.start + 1, source.breaksBefore v.span.start + 1) := by
    rw [Span.lineRange_eq (by omega), ← hstop, hbreaks]
  constructor
  case ends =>
    refine ⟨t, ht, v, hv, hname, hspan, hsemicolon, hstop, ?_⟩
    rw [hrange, htexact.line_eq, hvexact.line_eq, htoffset, hvoffset, hstart]
  case displayed =>
    rw [hrange, length_highlight (cuttable_of_tokenize htokens)]
    have hmono := source.breaksBefore_mono hle
    have hinside : v.span.start < source.byteLength := by omega
    have hlast := Text.breaksBefore_lt_length hinside
    exact ⟨Nat.le_add_left 1 _, Nat.succ_le_succ hmono, hlast⟩
  case lines =>
    intro i
    rw [hrange]
    constructor
    · rintro ⟨hfirst, hlast⟩
      obtain ⟨n, hn, hnv, hi⟩ :=
        Text.exists_breaksBefore_eq hle (Nat.le_of_succ_le_succ hfirst) (Nat.le_of_succ_le_succ hlast)
      exact ⟨n, ⟨hn, by omega⟩, (Text.onLine_iff (by omega)).2 hi⟩
    · rintro ⟨n, ⟨hn, hnv⟩, hi⟩
      obtain rfl := (Text.onLine_iff (by omega)).1 hi
      have hfirst := source.breaksBefore_mono hn
      have hlast := source.breaksBefore_mono (show n ≤ v.span.start by omega)
      exact ⟨Nat.succ_le_succ hfirst, Nat.succ_le_succ hlast⟩

/-- The lines marked for the rules of a grammar, in order. A row shows the line
of the source that has its number. -/
theorem marked_lines (h : Document.ofSource source = .ok d) :
    (∀ r ∈ d.grammar.rules, Marked source d r) ∧
    (∀ (i : Nat) (row : Line), (highlight source d.tokens)[i]? = some row →
      ∃ line, (source.splitOnP (· = '\n'))[i]? = some line ∧ Line.text row = Text.shown line) ∧
    d.grammar.rules.Pairwise fun r r' => (r.place.lineRange source).2 ≤ (r'.place.lineRange source).1 := by
  refine ⟨fun r hr => marked h hr, fun i row hrow => ?_, ?_⟩
  · have htext := map_text_highlight (cuttable_of_tokenize (Document.tokenize_tokens h))
    have hi : (source.shownLines)[i]? = some (Line.text row) := by
      rw [← htext, List.getElem?_map, hrow]
      rfl
    rw [Text.shownLines, List.getElem?_map] at hi
    obtain ⟨line, hline, hshown⟩ := Option.map_eq_some_iff.1 hi
    obtain ⟨hlt, -⟩ := List.getElem?_eq_some_iff.1 hline
    obtain ⟨rest, hrest⟩ := linesAt_isPrefix (· = '\n') source
    exact ⟨line, by rw [← hrest, List.getElem?_append_left hlt, hline], hshown.symm⟩
  · have hnests := Document.nests_rules h
    refine (List.pairwise_map.1 hnests.apart).imp_of_mem fun hr hr' happart => ?_
    have hlt := hnests.nonempty _ (List.mem_map_of_mem hr)
    have hlt' := hnests.nonempty _ (List.mem_map_of_mem hr')
    rw [Span.lineRange_eq (Nat.le_of_lt hlt), Span.lineRange_eq (Nat.le_of_lt hlt')]
    exact Nat.succ_le_succ (source.breaksBefore_mono happart)

theorem marked_lines_of_shared_line :
    let source : Text := "a=\r\n'é\nb';c=;\n".toList
    ∃ d, Document.ofSource source = .ok d ∧ d.grammar.rules.map (·.place.lineRange source) = [(1, 3), (3, 3)] ∧
      (∀ r ∈ d.grammar.rules, Marked source d r) ∧
      (∀ (i : Nat) (row : Line), (highlight source d.tokens)[i]? = some row →
        ∃ line, (source.splitOnP (· = '\n'))[i]? = some line ∧ Line.text row = Text.shown line) ∧
      d.grammar.rules.Pairwise fun r r' => (r.place.lineRange source).2 ≤ (r'.place.lineRange source).1 := by
  intro source
  obtain ⟨d, hd, hranges⟩ : ∃ d, Document.ofSource source = .ok d ∧
      d.grammar.rules.map (·.place.lineRange source) = [(1, 3), (3, 3)] := exists_of_map_eq_ok (by decide +kernel)
  exact ⟨d, hd, hranges, marked_lines hd⟩

end Explorer

end Ebnf
