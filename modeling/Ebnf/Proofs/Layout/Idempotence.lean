import Ebnf.Proofs.Layout.SecondPass

namespace Ebnf

open Lexeme Layout

variable {config : Config} {source : Text} {d d' : Document} {ps qs : List Passage} {trail trail' : List Lexeme}

namespace Layout

namespace Reprint

variable (hd : Document.Printed source d ps trail) (hr : Reprint config source d d' qs trail')
include hd hr

theorem settles (hi : ∀ c ∈ config.ignore, Blank.isBlank c = false)
    (he : format config (format config source d) d' = format config source d) : d.Settles config := by
  obtain ⟨d'', qs', trail'', hr'⟩ := exists_reprint config hr.printed
  have hread := hr'.read
  rw [he, hr.read] at hread
  obtain rfl := Except.ok.inj hread
  refine (settles_iff source).2 fun i hc c hmem => ?_
  have hfirst := hr.notesAt_eq hd config i
  have hsecond := hr'.notesAt_eq hr.printed config i
  rw [Page.notesAt_eq, ← Page.notesAt_eq config (format config source d), hfirst, keptTexts, keptTexts, hc,
    hr.copies_eq hd hi, hc, List.map_map] at hsecond
  exact normalText_normalText.1 (List.map_inj_left.1 hsecond.symm c hmem)

theorem format_eq (hi : ∀ c ∈ config.ignore, Blank.isBlank c = false) (hs : d.Settles config) :
    format config (format config source d) d' = format config source d :=
  hr.format_next hd rfl hi id hs

end Reprint

/-- The layout is idempotent, except that short breaks need a second pass where
a carriage return stands in front of a long break inside a comment. -/
theorem format_format_iff (config : Config) (hi : config.ignore = ({} : Config).ignore)
    (h : Document.ofSource source = .ok d) :
    ∃ d', Document.ofSource (format config source d) = .ok d' ∧
      (format config (format config source d) d' = format config source d ↔ d.Settles config) := by
  have hblank : ∀ c ∈ config.ignore, Blank.isBlank c = false := by
    rw [hi]
    exact isBlank_defaultIgnore
  obtain ⟨ps, trail, hd⟩ := Document.printed_of_ofSource h
  obtain ⟨d', qs, trail', hr⟩ := exists_reprint config hd
  refine ⟨d', hr.read, ?_⟩
  constructor
  · intro he
    exact hr.settles hd hblank he
  · intro hs
    exact hr.format_eq hd hblank hs

theorem format_format_of_long_breaks : ∃ d d', Document.ofSource "(*a\r\r\nb*)r='x';".toList = .ok d ∧
    Document.ofSource "(*a\r\r\nb*)\r\nr = 'x' ;\r\n".toList = .ok d' ∧
    format { newline := .windows } "(*a\r\r\nb*)\r\nr = 'x' ;\r\n".toList d' =
      "(*a\r\r\nb*)\r\nr = 'x' ;\r\n".toList := by
  obtain ⟨d, h, hout⟩ : ∃ d, Document.ofSource "(*a\r\r\nb*)r='x';".toList = .ok d ∧
      format { newline := .windows } "(*a\r\r\nb*)r='x';".toList d = "(*a\r\r\nb*)\r\nr = 'x' ;\r\n".toList :=
    exists_of_map_eq_ok (by decide +kernel)
  obtain ⟨d', h', hiff⟩ := format_format_iff { newline := .windows } rfl h
  rw [hout] at h' hiff
  exact ⟨d, d', h, h', hiff.2 fun hu => by cases hu⟩

/-- With short breaks the first pass leaves a long break inside this comment,
and the second pass makes it short. -/
theorem format_format_ne : ∃ d d', Document.ofSource "(*a\r\r\nb*)\nr = 'x' ;\n".toList = .ok d ∧
    format {} "(*a\r\r\nb*)\nr = 'x' ;\n".toList d = "(*a\r\nb*)\nr = 'x' ;\n".toList ∧
    Document.ofSource "(*a\r\nb*)\nr = 'x' ;\n".toList = .ok d' ∧
    format {} "(*a\r\nb*)\nr = 'x' ;\n".toList d' ≠ "(*a\r\nb*)\nr = 'x' ;\n".toList := by
  obtain ⟨d, h, hout⟩ : ∃ d, Document.ofSource "(*a\r\r\nb*)\nr = 'x' ;\n".toList = .ok d ∧
      format {} "(*a\r\r\nb*)\nr = 'x' ;\n".toList d = "(*a\r\nb*)\nr = 'x' ;\n".toList :=
    exists_of_map_eq_ok (by decide +kernel)
  obtain ⟨d', h', hout'⟩ : ∃ d, Document.ofSource "(*a\r\nb*)\nr = 'x' ;\n".toList = .ok d ∧
      format {} "(*a\r\nb*)\nr = 'x' ;\n".toList d = "(*a\nb*)\nr = 'x' ;\n".toList :=
    exists_of_map_eq_ok (by decide +kernel)
  refine ⟨d, d', h, hout, h', ?_⟩
  rw [hout']
  decide

end Layout

end Ebnf
