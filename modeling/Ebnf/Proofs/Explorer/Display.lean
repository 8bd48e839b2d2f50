import Ebnf.Proofs.Explorer.Highlight
import Ebnf.Proofs.Text.Lines

namespace Ebnf

variable {α β γ : Type}

namespace Text

/-- A line as it is displayed. Carriage returns leave no trace, and a tab fills
what is displayed in front of it up to the next multiple of four characters. -/
def shown (line : Text) : Text :=
  line.foldl (fun before c =>
    if c = '\t' then padRight ((before.length / 4 + 1) * 4) before
    else if c = '\r' then before
    else before ++ [c]) []

def shownLines (source : Text) : List Text := (linesAt (· = '\n') source).map shown

end Text

namespace Explorer

def Line.text (row : Line) : Text := row.flatMap (·.text)

def Stretch.cells (s : Stretch) : List (Char × Style) := s.text.map (·, s.style)

def Line.cells (row : Line) : List (Char × Style) := row.flatMap Stretch.cells

/-- Marked characters as displayed from `column` on. What a character is
displayed as carries the mark of that character. -/
def spread : Nat → List (Char × β) → List (Char × β)
  | _, [] => []
  | column, (c, b) :: cs =>
      let text := expand column [c]
      text.map (·, b) ++ spread (column + text.length) cs

def display (cs : List (Char × β)) : List (List (Char × β)) := (linesAt (·.1 = '\n') cs).map (spread 0)

theorem expand_cons (column : Nat) (c : Char) (t : Text) :
    expand column (c :: t) = expand column [c] ++ expand (column + (expand column [c]).length) t := by
  by_cases htab : c = '\t'
  · simp [expand, htab, Text.spaces]
  · by_cases hreturn : c = '\r'
    · simp [expand, hreturn]
    · simp [expand, htab, hreturn]

/-- Tab stops are where the length of what is displayed is a multiple of four. -/
theorem expand_eq_shown (line : Text) : expand 0 line = line.shown := by
  have h (before : Text) : line.foldl (fun before c =>
      if c = '\t' then Text.padRight ((before.length / 4 + 1) * 4) before
      else if c = '\r' then before else before ++ [c]) before = before ++ expand before.length line := by
    induction line generalizing before with
    | nil => simp [expand]
    | cons c t ih =>
        rw [List.foldl_cons, ih]
        by_cases htab : c = '\t'
        · have hstop : (before.length / 4 + 1) * 4 - before.length = tabWidth - before.length % tabWidth := by
            simp only [tabWidth]
            omega
          simp [htab, expand, Text.padRight, Text.spaces, hstop]
        · by_cases hreturn : c = '\r'
          · simp [expand, hreturn]
          · simp [expand, htab, hreturn]
  exact (h []).symm

theorem spread_append (column : Nat) (cs ds : List (Char × β)) :
    spread column (cs ++ ds) = spread column cs ++ spread (column + (spread column cs).length) ds := by
  induction cs generalizing column with
  | nil => rfl
  | cons p cs ih => simp [spread, ih, Nat.add_assoc]

theorem spread_uniform (column : Nat) (t : Text) (b : β) :
    spread column (t.map (·, b)) = (expand column t).map (·, b) := by
  induction t generalizing column with
  | nil => rfl
  | cons c t ih => rw [List.map_cons, spread, ih, expand_cons column c t, List.map_append]

theorem map_fst_spread (column : Nat) (cs : List (Char × β)) :
    (spread column cs).map (·.1) = expand column (cs.map (·.1)) := by
  induction cs generalizing column with
  | nil => rfl
  | cons p cs ih =>
      rw [spread, List.map_append, ih, List.map_cons, expand_cons column p.1 (cs.map (·.1))]
      simp [Function.comp_def]

theorem spread_map (f : β → γ) (column : Nat) (cs : List (Char × β)) :
    spread column (cs.map (Prod.map id f)) = (spread column cs).map (Prod.map id f) := by
  induction cs generalizing column with
  | nil => rfl
  | cons p cs ih => simp [spread, ih, Function.comp_def]

theorem display_map (f : β → γ) (cs : List (Char × β)) :
    display (cs.map (Prod.map id f)) = (display cs).map (List.map (Prod.map id f)) := by
  rw [display, linesAt_map, List.map_map, display, List.map_map]
  exact List.map_congr_left fun line _ => spread_map f 0 line

theorem map_fst_display (cs : List (Char × β)) :
    (display cs).map (List.map (·.1)) = Text.shownLines (cs.map (·.1)) := by
  rw [Text.shownLines, linesAt_map, display, List.map_map, List.map_map]
  refine List.map_congr_left fun line _ => ?_
  rw [Function.comp_apply, map_fst_spread, expand_eq_shown]
  rfl

theorem map_fst_cells (row : Line) : row.cells.map (·.1) = Line.text row := by
  simp [Line.cells, Line.text, List.map_flatMap, Stretch.cells, Function.comp_def]

theorem cells_expandRow (column : Nat) (row : Line) :
    Line.cells (expandRow column row) = spread column (Line.cells row) := by
  induction row generalizing column with
  | nil => rfl
  | cons s row ih =>
      have hs : spread column s.cells = (expand column s.text).map (·, s.style) :=
        spread_uniform column s.text s.style
      have hrow := ih (column + (expand column s.text).length)
      simp only [Line.cells, List.flatMap_cons] at hrow ⊢
      rw [spread_append, hs, List.length_map, ← hrow]
      rfl

theorem cells_prependLines_cons (style : Style) (c : Char) (p : Text) (ps : List Text) {rows : List Line}
    (hr : rows ≠ []) : (prependLines style ((c :: p) :: ps) rows).map Line.cells =
      ((prependLines style (p :: ps) rows).map Line.cells).modifyHead ((c, style) :: ·) := by
  obtain ⟨row, rows, rfl⟩ := List.exists_cons_of_ne_nil hr
  cases ps with
  | nil => cases p <;> simp [prependLines, Line.cells, Stretch.cells]
  | cons q ps => cases p <;> simp [prependLines, Line.cells, Stretch.cells]

theorem cells_prependLines (style : Style) (t : Text) {rows : List Line} {cs : List (Char × Style)}
    (hr : rows.map Line.cells = cs.splitOnP (·.1 = '\n')) :
    (prependLines style t.splitLines rows).map Line.cells = (t.map (·, style) ++ cs).splitOnP (·.1 = '\n') := by
  have hne : rows ≠ [] := by
    rintro rfl
    exact List.splitOnP_ne_nil _ _ hr.symm
  induction t with
  | nil =>
      obtain ⟨row, rows, rfl⟩ := List.exists_cons_of_ne_nil hne
      exact hr
  | cons c t ih =>
      obtain ⟨p, ps, hp⟩ := List.exists_cons_of_ne_nil (splitLines_ne_nil t)
      rw [hp] at ih
      rw [List.map_cons, List.cons_append, List.splitOnP_cons_eq_if_modifyHead, ← ih, Text.splitLines, hp]
      by_cases hc : c = '\n'
      · simp [hc, prependLines, Line.cells]
      · simp only [hc, if_false, decide_false, Bool.false_eq_true]
        exact cells_prependLines_cons style c p ps hne

theorem cells_sourceRows (ss : List Stretch) :
    (sourceRows ss).map Line.cells = (ss.flatMap Stretch.cells).splitOnP (·.1 = '\n') := by
  induction ss with
  | nil => rfl
  | cons s ss ih => exact cells_prependLines s.style s.text ih

theorem text_ne_nil_of_mem_prependLines {style : Style} {ps : List Text} {rows : List Line}
    (h : ∀ row ∈ rows, ∀ s ∈ row, s.text ≠ []) : ∀ row ∈ prependLines style ps rows, ∀ s ∈ row, s.text ≠ [] := by
  induction ps with
  | nil => exact h
  | cons p ps ih =>
      cases ps with
      | nil => cases rows with
          | nil => cases p <;> simp [prependLines]
          | cons row rows => cases p <;> simpa [prependLines] using h
      | cons q ps => cases p <;> simpa [prependLines] using ih

theorem text_ne_nil_of_mem_sourceRows (ss : List Stretch) : ∀ row ∈ sourceRows ss, ∀ s ∈ row, s.text ≠ [] := by
  induction ss with
  | nil => simp [sourceRows]
  | cons s ss ih => exact text_ne_nil_of_mem_prependLines ih

theorem eq_nil_of_cells_eq_nil {ss : List Stretch} {row : Line} (hr : row ∈ sourceRows ss)
    (h : row.cells = []) : row = [] := by
  cases row with
  | nil => rfl
  | cons s row =>
      have hs := text_ne_nil_of_mem_sourceRows ss _ hr s List.mem_cons_self
      simp [Line.cells, Stretch.cells, hs] at h

/-- The lines displayed are those of the stretches into which the source is cut. -/
theorem cells_highlight {source : Text} {ts : List Token} (hc : ∀ p ∈ styledSpans ts, Cuttable source p.1) :
    (highlight source ts).map Line.cells =
      display ((cover source.byteLength 0 (source, 0) (styledSpans ts)).flatMap Stretch.cells) := by
  have htext := flatMap_cover (List.nil_append source).symm hc
  rw [Text.byteLength_nil] at htext
  generalize hss : cover source.byteLength 0 (source, 0) (styledSpans ts) = ss at htext
  have hrows := cells_sourceRows ss
  have hlast : source.getLast? = (ss.flatMap Stretch.cells).getLast?.map (·.1) := by
    rw [← List.getLast?_map, List.map_flatMap, ← htext]
    simp [Stretch.cells, Function.comp_def]
  have hcut : (source.getLast? = some '\n' ∧ (sourceRows ss).getLast? = some []) ↔
      (ss.flatMap Stretch.cells).getLast?.any (·.1 = '\n') = true := by
    rw [hlast]
    constructor
    · rintro ⟨h, -⟩
      obtain ⟨p, hp, hbreak⟩ := Option.map_eq_some_iff.1 h
      simp [hp, hbreak]
    · intro h
      have hempty := getLast?_splitOnP h
      rw [← hrows, List.getLast?_map] at hempty
      obtain ⟨row, hrow, hcells⟩ := Option.map_eq_some_iff.1 hempty
      obtain rfl := eq_nil_of_cells_eq_nil (List.mem_of_getLast? hrow) hcells
      obtain ⟨p, hp, hbreak⟩ := (Option.any_eq_true _ _).1 h
      exact ⟨by simpa [hp] using hbreak, hrow⟩
  have hshown : (if source.getLast? = some '\n' ∧ (sourceRows ss).getLast? = some [] then (sourceRows ss).dropLast
      else sourceRows ss).map Line.cells = linesAt (·.1 = '\n') (ss.flatMap Stretch.cells) := by
    simp only [hcut, linesAt, ← hrows]
    rw [apply_ite (List.map Line.cells), List.map_dropLast]
  rw [display, ← hshown, List.map_map]
  simp only [highlight, hss, List.map_map]
  exact List.map_congr_left fun row _ => cells_expandRow 0 row

theorem map_text_highlight {source : Text} {ts : List Token} (hc : ∀ p ∈ styledSpans ts, Cuttable source p.1) :
    (highlight source ts).map Line.text = source.shownLines := by
  have htext := flatMap_cover (List.nil_append source).symm hc
  have hcells := congrArg (List.map (List.map (·.1))) (cells_highlight hc)
  rw [map_fst_display, List.map_map, List.map_flatMap] at hcells
  simp only [Function.comp_def, map_fst_cells, Stretch.cells, List.map_map, List.map_id'] at hcells
  rw [hcells]
  exact congrArg Text.shownLines htext

theorem length_highlight {source : Text} {ts : List Token} (hc : ∀ p ∈ styledSpans ts, Cuttable source p.1) :
    (highlight source ts).length = (linesAt (· = '\n') source).length := by
  have hlines := congrArg List.length (map_text_highlight hc)
  rwa [Text.shownLines, List.length_map, List.length_map] at hlines

theorem length_highlight_le {source : Text} {ts : List Token} (hc : ∀ p ∈ styledSpans ts, Cuttable source p.1) :
    (highlight source ts).length ≤ source.count '\n' + 1 := by
  have hle := (linesAt_isPrefix (· = '\n') source).length_le
  rw [length_splitOnP] at hle
  rw [length_highlight hc]
  exact hle

/-- Colours change nothing in the text. Along whatever spans it is cut, as long
as they lie on its characters or end behind it, a source is displayed line by
line as it is without them; and the tokens of a source have such spans. -/
theorem text_highlight (source : Text) :
    (∀ ts, (∀ a ∈ ts.flatMap Token.spans, Cuttable source a) →
      (highlight source ts).map Line.text = source.shownLines) ∧
    ∀ ts, tokenize source = .ok ts → ∀ a ∈ ts.flatMap Token.spans, Cuttable source a := by
  refine ⟨fun ts hc => ?_, fun ts h a ha => ?_⟩
  · apply map_text_highlight
    intro p hp
    rw [← map_fst_styledSpans] at hc
    exact hc p.1 (List.mem_map_of_mem hp)
  · rw [← map_fst_styledSpans] at ha
    obtain ⟨p, hp, rfl⟩ := List.mem_map.1 ha
    exact cuttable_of_tokenize h p hp

theorem text_highlight_of_crossing_spans :
    let source : Text := "a\té\r\nb\n".toList
    let ts : List Token := [⟨.identifier ['a'], ⟨2, 5⟩, .start, [.gap ⟨3, 99⟩]⟩,
      ⟨.integer 1, ⟨0, 4⟩, .start, []⟩, ⟨.eof, ⟨6, 7⟩, .start, []⟩]
    (∀ a ∈ ts.flatMap Token.spans, Cuttable source a) ∧
      (highlight source ts).map Line.text = source.shownLines ∧ source.shownLines = ["a   é".toList, "b".toList] := by
  intro source ts
  have hc : ∀ a ∈ ts.flatMap Token.spans, Cuttable source a := by
    have hspans : ts.flatMap Token.spans = [⟨3, 99⟩, ⟨2, 5⟩, ⟨0, 4⟩, ⟨6, 7⟩] := rfl
    rw [hspans]
    simp only [List.forall_mem_cons, List.not_mem_nil, false_imp_iff, implies_true, and_true]
    refine ⟨⟨by decide, fun h => absurd h (by decide)⟩, ⟨by decide, fun _ => ⟨?_, ?_⟩⟩,
      ⟨by decide, fun _ => ⟨?_, ?_⟩⟩, ⟨by decide, fun _ => ⟨?_, ?_⟩⟩⟩
    · exact ⟨"a\t".toList, "é\r\nb\n".toList, rfl, rfl⟩
    · exact ⟨"a\té\r".toList, "\nb\n".toList, rfl, rfl⟩
    · exact ⟨[], source, rfl, rfl⟩
    · exact ⟨"a\té".toList, "\r\nb\n".toList, rfl, rfl⟩
    · exact ⟨"a\té\r\n".toList, "b\n".toList, rfl, rfl⟩
    · exact ⟨"a\té\r\nb".toList, "\n".toList, rfl, rfl⟩
  exact ⟨hc, (text_highlight source).1 ts hc, by decide +kernel⟩

end Explorer

end Ebnf
