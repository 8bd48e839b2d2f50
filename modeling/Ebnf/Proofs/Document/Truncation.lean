import Ebnf.Proofs.Document.Locations
import Ebnf.Proofs.Parser.Calls
import Ebnf.Proofs.Token.Roundtrip

namespace Ebnf

theorem Location.Exact.eq_after {before after : Text} {l : Location} (h : l.Exact (before ++ after))
    (ho : l.offset = before.byteLength) : l = start.after before := by
  obtain ⟨front, back, hs, hoffset, hline, hcolumn⟩ := h
  have hle : front.byteLength ≤ before.byteLength := Nat.le_of_eq (hoffset.symm.trans ho)
  obtain ⟨m, rfl, -⟩ := Text.exists_append_of_byteLength_le hs hle
  rw [hoffset, Text.byteLength_append] at ho
  obtain rfl : m = [] := Text.byteLength_eq_zero (by omega)
  rw [List.append_nil, after_start_eq, ← hoffset, ← hline, ← hcolumn]

/-- Where errors place the end of tokens that were cut off: behind the last
token, but in the line and in the column where this token starts. Without any
token the end has no line. -/
inductive CutEnd (source : Text) : List Token → Location → Prop
  | nil : CutEnd source [] ⟨0, 0, 0⟩
  | last {us : List Token} {t : Token} {before word after : Text} (ht : us.getLast? = some t)
      (hs : before ++ word ++ after = source) (hspan : t.span = ⟨before.byteLength, (before ++ word).byteLength⟩)
      (hw : t.kind.Spelled word) :
      CutEnd source us ⟨(before ++ word).byteLength, (Location.start.after before).line,
        (Location.start.after before).column⟩

/-- The end never lies there. If the last token has a line feed inside, then the
line is wrong, and otherwise the column. -/
theorem CutEnd.not_exact {source : Text} {us : List Token} {l : Location} (h : CutEnd source us l)
    (hus : ∀ u ∈ us, u.kind ≠ .eof) : ¬ l.Exact source := by
  intro he
  cases h with
  | nil =>
      obtain ⟨before, after, -, -, hline, -⟩ := he
      have : 0 = 1 + before.count '\n' := hline
      omega
  | @last _ t before word after ht hs hspan hw =>
      subst hs
      have htrue := he.eq_after rfl
      have hline : (Location.start.after before).line = (Location.start.after (before ++ word)).line := by rw [← htrue]
      have hcolumn : (Location.start.after before).column = (Location.start.after (before ++ word)).column := by
        rw [← htrue]
      have hbreaks : '\n' ∉ word := by
        rw [Location.after_start_eq, Location.after_start_eq] at hline
        simp only [List.count_append] at hline
        exact List.count_eq_zero.1 (by omega)
      have hlength := Location.column_after hbreaks (Location.start.after before)
      rw [← Location.after_append, ← hcolumn] at hlength
      exact hw.ne_nil (hus t (List.mem_of_getLast? ht)) (List.length_eq_zero_iff.1 (by omega))

namespace Cursor

variable {us : List Token}

theorem kind_endOf (us : List Token) : (endOf us).kind = .eof := by
  rw [endOf]
  split <;> rfl

theorem closed_of_ne_eof (hus : ∀ u ∈ us, u.kind ≠ .eof) : closed us = us ++ [endOf us] := by
  rw [closed, if_neg]
  intro h
  obtain ⟨t, ht, hk⟩ := (Option.any_eq_true _ _).1 h
  exact hus t (List.mem_of_getLast? ht) (of_decide_eq_true hk)

theorem ahead_of_ne_eof (hus : ∀ u ∈ us, u.kind ≠ .eof) : (ofTokens us).ahead = us := by
  have h : (ofTokens us).ahead = (ofTokens (us ++ [endOf us])).ahead := by
    simp only [ofTokens, closed_of_ne_eof hus]
    simp [closed, kind_endOf]
  rw [h, ofTokens_append hus (kind_endOf us)]

theorem cutEnd_of_tokenize {source : Text} {ts : List Token} (h : tokenize source = .ok ts)
    (hus : ∀ u ∈ us, u ∈ ts) : CutEnd source us (endOf us).location := by
  cases hlast : us.getLast? with
  | none =>
      obtain rfl := List.getLast?_eq_none_iff.1 hlast
      exact .nil
  | some t =>
      have ht : t ∈ ts := hus t (List.mem_of_getLast? hlast)
      obtain ⟨before, word, after, hs, hspan, hw⟩ := Token.exists_spelled h ht
      obtain ⟨hstart, hexact⟩ := location_exact_of_tokenize h ht
      rw [← Text.byteLength_append] at hspan
      have hlocation : t.location = Location.start.after before := by
        rw [hs] at hexact
        exact hexact.eq_after (by rw [hstart, hspan])
      have hend : (endOf us).location = ⟨(before ++ word).byteLength, (Location.start.after before).line,
          (Location.start.after before).column⟩ := by
        simp only [endOf, hlast, hspan, hlocation]
      rw [hend]
      exact .last hlast (by rw [hs, List.append_assoc]) hspan hw

theorem exact_iff_of_blames {source : Text} {ts : List Token} (h : tokenize source = .ok ts)
    (hts : ∀ u ∈ us, u ∈ ts) (hus : ∀ u ∈ us, u.kind ≠ .eof) {j : Nat} {t : Token}
    (ht : (closed us)[j]? = some t) :
    (t.location.Exact source ↔ j ≠ us.length) ∧ (j = us.length → CutEnd source us t.location) := by
  rw [closed_of_ne_eof hus] at ht
  have hend := cutEnd_of_tokenize h hts
  by_cases hj : j = us.length
  · subst hj
    obtain rfl : endOf us = t := by simpa using ht
    exact ⟨iff_of_false (hend.not_exact hus) (by simp), fun _ => hend⟩
  · have hlt : j < us.length := by
      have := (List.getElem?_eq_some_iff.1 ht).1
      rw [List.length_append, List.length_singleton] at this
      omega
    rw [List.getElem?_append_left hlt] at ht
    have hmem := hts t (List.mem_of_getElem? ht)
    exact ⟨iff_of_true (location_exact_of_tokenize h hmem).2 hj, fun h => absurd h hj⟩

/-- Tokens of a source, cut off somewhere in front of its end. Whatever has been
called before, an error is located exactly if it is found at one of the tokens,
and never if it is found at the end behind them. -/
theorem truncated_error_exact_iff {source : Text} {ts : List Token} (h : tokenize source = .ok ts) {n : Nat}
    (hn : n < ts.length) (ks : List Call) (k : Call) {e : ParseError} {c : Cursor} {l : Location}
    (he : ((ofTokens (ts.take n)).after ks).call k = (.error e, c)) (hl : e.location? = some l) :
    (l.Exact source ↔ c.ahead ≠ []) ∧ (c.ahead = [] → CutEnd source (ts.take n) l) := by
  obtain ⟨us, stop, rfl, hus, -⟩ := tokenize_closed h
  rw [List.length_append, List.length_singleton] at hn
  have htake : (us ++ [stop]).take n = us.take n := List.take_append_of_le_length (by omega)
  rw [htake] at he ⊢
  have hin : ∀ u ∈ us.take n, u ∈ us ++ [stop] := fun u hu => List.mem_append_left _ (List.mem_of_mem_take hu)
  have hcut : ∀ u ∈ us.take n, u.kind ≠ .eof := fun u hu => hus u (List.mem_of_mem_take hu)
  obtain ⟨i, hi, -⟩ := exists_callsAt? (at?_zero (us.take n)) ks
  obtain ⟨j, hj, hcall⟩ := exists_callAt? hi k
  obtain ⟨-, behind, hclosed⟩ := closed_eq_ahead_append (us.take n)
  have hsafe := safe_of_callAt? hj (hclosed ▸ hcall behind)
  rw [he] at hj hsafe
  obtain ⟨t, ht, hlt, -⟩ := hsafe.blamed e l rfl hl
  rw [hl] at hlt
  obtain rfl := Option.some.inj hlt
  have hahead : c.ahead = [] ↔ j = (us.take n).length := by
    obtain ⟨hle, rfl⟩ := at?_eq_some.1 hj
    rw [ahead_of_ne_eof hcut] at hle ⊢
    rw [List.drop_eq_nil_iff]
    omega
  rw [Ne, hahead]
  exact exact_iff_of_blames h hin hcut ht

/-- The missing semicolon is reported where the terminal begins, in the fifth
column, and not where it ends. -/
theorem truncated_end_not_exact :
    let source : Text := "a = 'x'".toList
    let ts : List Token := [⟨.identifier ['a'], ⟨0, 1⟩, ⟨0, 1, 1⟩, []⟩,
      ⟨.mark .equals, ⟨2, 3⟩, ⟨2, 1, 3⟩, [.gap ⟨1, 2⟩]⟩,
      ⟨.terminal ['x'] .single, ⟨4, 7⟩, ⟨4, 1, 5⟩, [.gap ⟨3, 4⟩]⟩, ⟨.eof, ⟨7, 7⟩, ⟨7, 1, 8⟩, []⟩]
    let l : Location := ⟨7, 1, 5⟩
    tokenize source = .ok ts ∧ (ofTokens (ts.take 3)).grammar.1 = .error (.malformedRule l .semicolon .eof) ∧
      (ofTokens (ts.take 3)).grammar.2.ahead = [] ∧ ¬ l.Exact source := by
  intro source ts l
  refine ⟨by decide +kernel, by decide +kernel, by decide +kernel, fun h => ?_⟩
  have htrue : l = Location.start.after source := @Location.Exact.eq_after source [] l h rfl
  exact absurd htrue (by decide)

theorem truncated_error_of_open_bracket :
    let source : Text := "a=b;\nr=['ö\n'];".toList
    let e : ParseError := .mismatchedBracket ⟨13, 2, 4⟩ .optional ⟨7, 2, 3⟩ .eof
    ∃ ts c, tokenize source = .ok ts ∧ 8 < ts.length ∧
      ((ofTokens (ts.take 8)).after [.rule]).call .rule = (.error e, c) ∧ c.ahead = [] ∧
      CutEnd source (ts.take 8) ⟨13, 2, 4⟩ ∧ ¬ Location.Exact source ⟨13, 2, 4⟩ := by
  intro source e
  obtain ⟨ts, h, hts⟩ : ∃ ts, tokenize source = .ok ts ∧ (decide (8 < ts.length),
      ((ofTokens (ts.take 8)).after [.rule]).rule.1, ((ofTokens (ts.take 8)).after [.rule]).rule.2.ahead) =
      (true, .error e, []) :=
    exists_of_map_eq_ok (by decide +kernel)
  obtain ⟨hn, hcall⟩ := Prod.mk.inj hts
  obtain ⟨herror, hahead⟩ := Prod.mk.inj hcall
  have hn := of_decide_eq_true hn
  have he : ((ofTokens (ts.take 8)).after [.rule]).call .rule = (.error e, _) := Prod.ext herror rfl
  obtain ⟨hexact, hcut⟩ := truncated_error_exact_iff h hn [.rule] .rule he rfl
  exact ⟨ts, _, h, hn, he, hahead, hcut hahead, fun hl => hexact.1 hl hahead⟩

end Cursor

end Ebnf
