import Ebnf.Command.Run
import Ebnf.Proofs.Document.Locations
import Ebnf.Proofs.Text.Lines

namespace Ebnf

open Lexeme

theorem Token.exists_cut {source : Text} {ts : List Token} {t : Token} (h : tokenize source = .ok ts) (ht : t ∈ ts) :
    ∃ before after, before ++ after = source ∧ t.location = Location.start.after before ∧
      ∀ c ∈ after.head?, isGap c = false := by
  obtain ⟨ls, hc, rfl, rfl⟩ := tokenize_eq_ok.1 h
  obtain ⟨-, as, bs, rfl, hl, hrole⟩ := Token.location_of_mem_place ht
  refine ⟨spell as, spell bs, (spell_append as bs).symm, hl, ?_⟩
  cases bs with
  | nil => simp
  | cons l bs =>
      obtain ⟨-, hp, -⟩ := chained_append.1 hc
      obtain ⟨c, s, hs⟩ := List.exists_cons_of_ne_nil hp.spelling_ne_nil
      rw [spell_cons, hs]
      rintro c ⟨⟩
      apply Bool.eq_false_iff.2
      intro hgap
      obtain ⟨run, rfl⟩ := (hp.begins hs).isGap.1 hgap
      cases hrole _ rfl

theorem exists_cut_of_parse_error {source : Text} {e : ParseError} {l : Location} (h : parse source = .error e)
    (hl : e.location? = some l) : ∃ before after, before ++ after = source ∧ l = Location.start.after before ∧
      ∀ c ∈ after.head?, isGap c = false := by
  rcases parse_error_cases h with ⟨e, he, rfl⟩ | ⟨us, t, hs, ⟨-, -, rfl⟩ | ⟨q, -, -, rfl⟩⟩
  · obtain ⟨ls, rest, -, hsource, hloc, hb⟩ := tokenize_eq_error.1 he
    obtain rfl : e.location = l := Option.some.inj hl
    refine ⟨spell ls, rest, hsource, hloc.symm, fun c hc => ?_⟩
    obtain ⟨t, rfl⟩ := List.head?_eq_some_iff.1 hc
    exact hb.isGap_head
  · cases hl
  · obtain ⟨vs, c, hts, -, -⟩ := hs
    rw [(q.refusal_blames t).1] at hl
    obtain rfl := Option.some.inj hl
    exact Token.exists_cut hts (List.mem_append_right us List.mem_cons_self)

namespace Command

/-- An excerpt points at a location of the source: it shows the line of that
number, and with as many characters in front of the caret as columns in front of
the location, the caret stands below the character that begins at this byte, or
behind the line if the source ends there. -/
structure Excerpt.PointsAt (x : Excerpt) (source : Text) (l : Location) : Prop where
  line : ∃ n, l.line = n + 1 ∧ source.lines[n]? = some x.line
  column : l.column = x.pad.length + 1
  pad : ∀ i < x.pad.length, ∃ c, x.line[i]? = some c ∧ x.pad[i]? = some (if c = '\t' then '\t' else ' ')
  inside : l.offset ≤ source.byteLength
  character : l.offset < source.byteLength →
    ∃ c after, source.dropBytes? l.offset = some (c :: after) ∧ x.line[x.pad.length]? = some c
  ending : l.offset = source.byteLength → x.line.length = x.pad.length

variable {source : Text} {e : ParseError} {l : Location}

theorem exists_excerpt (h : parse source = .error e) (hl : e.location? = some l)
    (hs : l.offset < source.byteLength ∨ source ≠ [] ∧ source.getLast? ≠ some '\n') :
    ∃ x, excerpt? source l = some x ∧ x.PointsAt source l := by
  obtain ⟨before, after, rfl, hat, hgap⟩ := exists_cut_of_parse_error h hl
  rw [Location.after_start_eq] at hat
  subst hat
  have hfree : ∀ c ∈ after.head?, c ≠ '\n' ∧ c ≠ '\r' := by
    intro c hc
    constructor
    all_goals
      rintro rfl
      cases hgap _ hc
  have hend : after = [] → before ≠ [] ∧ before.getLast? ≠ some '\n' := by
    rintro rfl
    rw [List.append_nil] at hs
    exact hs.resolve_left (Nat.lt_irrefl _)
  obtain ⟨rest, hline, hrest⟩ := Text.exists_line hfree hend
  generalize before.rtakeWhile (· ≠ '\n') = front at hline ⊢
  have htake : (front ++ rest).take (1 + front.length - 1) = front := by
    rw [Nat.add_sub_cancel_left, List.take_left]
  have hnumber : 1 + before.count '\n' - 1 = before.count '\n' := Nat.add_sub_cancel_left 1 _
  refine ⟨⟨front ++ rest, front.map fun c => if c = '\t' then '\t' else ' '⟩, ?_, ?_⟩
  · rw [excerpt?, hnumber, hline, Option.map_some, htake]
  · refine ⟨⟨_, Nat.add_comm _ _, hline⟩, by simp [Nat.add_comm], fun i hi => ?_, ?_, fun hlt => ?_, fun heq => ?_⟩
    · rw [List.length_map] at hi
      exact ⟨front[i], by rw [List.getElem?_append_left hi, List.getElem?_eq_getElem hi], by simp [hi]⟩
    · simp
    · cases after with
      | nil => simp at hlt
      | cons c after =>
          obtain ⟨rest', rfl⟩ := List.head?_eq_some_iff.1 hrest
          exact ⟨c, after, Text.dropBytes?_append before (c :: after), by simp⟩
    · have hafter : after.byteLength = 0 := by
        rw [Text.byteLength_append] at heq
        exact Nat.left_eq_add.1 heq
      obtain rfl := Text.byteLength_eq_zero hafter
      obtain rfl := List.head?_eq_none_iff.1 hrest
      simp

def reportLines (path : Text) (e : ParseError) (l : Location) (x : Excerpt) : List Text :=
  let number := Decimal.digits l.line
  let margin := Text.spaces number.length
  ["error: ".toList ++ e.message.toList,
    "  --> ".toList ++ path ++ ':' :: number ++ ':' :: Decimal.digits l.column,
    margin ++ " |".toList,
    number ++ " | ".toList ++ x.line,
    margin ++ " | ".toList ++ x.pad ++ ['^']]

theorem report_eq (path : Text) {x : Excerpt} (hl : e.location? = some l) (hx : excerpt? source l = some x) :
    report path source e = (reportLines path e l x).flatMap (· ++ ['\n']) := by
  have harrow : "\n  --> ".toList = '\n' :: "  --> ".toList := rfl
  have hbar : " |\n".toList = " |".toList ++ ['\n'] := rfl
  unfold report
  simp only [hl, hx, excerptText, Option.map_some, Option.getD_some, harrow, hbar, reportLines,
    List.flatMap_cons, List.flatMap_nil, List.append_assoc, List.cons_append, List.nil_append, List.append_nil]

/-- A source that cannot be read is reported with the line of the error and a
caret that points at it, unless the error is at the end of a source that is empty
or ends with a line end. -/
theorem report_points (a : Arguments) (h : parse source = .error e) (hl : e.location? = some l)
    (hs : l.offset < source.byteLength ∨ source ≠ [] ∧ source.getLast? ≠ some '\n') :
    ∃ x : Excerpt, x.PointsAt source l ∧ runOn a source = .finish
      { exit := 1, stderr := (reportLines a.file e l x).flatMap (· ++ ['\n']) } := by
  obtain ⟨x, hx, hpoints⟩ := exists_excerpt h hl hs
  have hdocument : Document.ofSource source = .error e := by
    cases hd : Document.ofSource source with
    | error e' =>
        rw [parse, hd] at h
        cases h
        rfl
    | ok d =>
        rw [parse, hd] at h
        cases h
  refine ⟨x, hpoints, ?_⟩
  unfold runOn
  simp only [hdocument, report_eq a.file hl hx]

theorem report_points_of_tabs :
    ∃ x : Excerpt, x.PointsAt "a =\r\n'x\r\n\té'\r \t] ;".toList ⟨16, 3, 7⟩ ∧
      runOn {} "a =\r\n'x\r\n\té'\r \t] ;".toList = .finish
        { exit := 1
          stderr := (reportLines [] (.malformedRule ⟨16, 3, 7⟩ .semicolon (.mark (.closing .optional))) ⟨16, 3, 7⟩
            x).flatMap (· ++ ['\n']) } :=
  report_points {} (by decide +kernel) rfl (.inl (by decide +kernel))

end Command

end Ebnf
