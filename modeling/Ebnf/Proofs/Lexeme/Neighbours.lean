import Ebnf.Proofs.Lexeme.Split
import Mathlib.Data.List.Chain

namespace Ebnf

namespace Mark

theorem mem_all (m : Mark) : m ∈ all := by
  cases m with
  | operator o => cases o with
      | joining c => cases c <;> decide
      | counting => decide
  | opening b | closing b => cases b <;> decide
  | _ => decide

theorem isGap_char (m : Mark) : Lexeme.isGap m.char = false :=
  (by decide : ∀ m ∈ all, Lexeme.isGap m.char = false) m m.mem_all

theorem isNamePart_char (m : Mark) : Lexeme.isNamePart m.char = false :=
  (by decide : ∀ m ∈ all, Lexeme.isNamePart m.char = false) m m.mem_all

theorem char_eq_star {m : Mark} : m.char = '*' ↔ m = .operator .counting :=
  (by decide : ∀ m ∈ all, m.char = '*' ↔ m = .operator .counting) m m.mem_all

end Mark

namespace Lexeme

theorem isNamePart_of_isAlpha {c : Char} (h : c.isAlpha = true) : isNamePart c = true := by
  simp [isNamePart, Char.isAlphanum, h]

theorem isNamePart_of_isDigit {c : Char} (h : c.isDigit = true) : isNamePart c = true := by
  simp [isNamePart, Char.isAlphanum, h]

theorem isDigit_of_isAlpha {c : Char} (h : c.isAlpha = true) : c.isDigit = false := by
  apply Bool.eq_false_iff.2
  intro hd
  rw [isAlpha_of_isDigit hd] at h
  cases h

theorem isGap_of_isNamePart {c : Char} (h : isNamePart c = true) : isGap c = false := by
  apply Bool.eq_false_iff.2
  intro hg
  rcases isGap_iff.1 hg with rfl | rfl | rfl | rfl <;> cases h

theorem isNamePart_of_isGap {c : Char} (h : isGap c = true) : isNamePart c = false := by
  apply Bool.eq_false_iff.2
  intro hn
  rw [isGap_of_isNamePart hn] at h
  cases h

theorem isDigit_of_isNamePart {c : Char} (h : isNamePart c = false) : c.isDigit = false := by
  apply Bool.eq_false_iff.2
  intro hd
  rw [isNamePart_of_isDigit hd] at h
  cases h

variable {l l' : Lexeme} {c : Char}

def Begins (c : Char) : Lexeme → Prop
  | .gap _ => isGap c = true
  | .comment _ => c = '('
  | .identifier _ => c.isAlpha = true
  | .terminal _ quote => c = quote.char
  | .special _ => c = '?'
  | .integer _ => c.isDigit = true
  | .mark m => c = m.char

theorem Proper.begins {s : Text} (h : l.Proper) (hc : l.spelling = c :: s) : l.Begins c := by
  cases l with
  | gap run =>
      obtain rfl : run = c :: s := hc
      exact h.2 c List.mem_cons_self
  | integer digits =>
      obtain rfl : digits = c :: s := hc
      exact h.2.1 c List.mem_cons_self
  | identifier name =>
      obtain ⟨d, t, rfl, hd, -⟩ := h
      obtain ⟨rfl, -⟩ := List.cons.inj hc
      exact hd
  | comment | terminal | special | mark => exact (List.cons.inj hc).1.symm

namespace Begins

theorem isGap (h : l.Begins c) : Lexeme.isGap c = true ↔ ∃ run, l = .gap run := by
  cases l with
  | gap run => exact iff_of_true h ⟨run, rfl⟩
  | identifier name => simp [isGap_of_isAlpha h]
  | integer digits => simp [isGap_of_isDigit h]
  | terminal text q => obtain rfl := h; cases q <;> simp [Quote.char, Lexeme.isGap]
  | comment | special => obtain rfl := h; simp [Lexeme.isGap]
  | mark m => obtain rfl := h; simp [m.isGap_char]

theorem isNamePart (h : l.Begins c) : Lexeme.isNamePart c = true ↔
    (∃ name, l = .identifier name) ∨ ∃ digits, l = .integer digits := by
  cases l with
  | gap run => simp [isNamePart_of_isGap h]
  | identifier name => exact iff_of_true (isNamePart_of_isAlpha h) (.inl ⟨name, rfl⟩)
  | integer digits => exact iff_of_true (isNamePart_of_isDigit h) (.inr ⟨digits, rfl⟩)
  | terminal text q => obtain rfl := h; cases q <;> simp [Quote.char, Lexeme.isNamePart]
  | comment | special => obtain rfl := h; simp [Lexeme.isNamePart]
  | mark m => obtain rfl := h; simp [m.isNamePart_char]

theorem isDigit (h : l.Begins c) : c.isDigit = true ↔ ∃ digits, l = .integer digits := by
  by_cases hn : Lexeme.isNamePart c = true
  · rcases h.isNamePart.1 hn with ⟨name, rfl⟩ | ⟨digits, rfl⟩
    · simp [isDigit_of_isAlpha h]
    · exact iff_of_true h ⟨digits, rfl⟩
  · rw [isDigit_of_isNamePart (Bool.eq_false_iff.2 hn)]
    have := h.isNamePart.not.1 hn
    simp_all

theorem star (h : l.Begins c) : c = '*' ↔ l = .mark (.operator .counting) := by
  cases l with
  | mark m =>
      obtain rfl := h
      simp [Mark.char_eq_star]
  | gap | identifier | integer =>
      refine iff_of_false ?_ (by simp)
      rintro rfl
      cases h
  | terminal text q => obtain rfl := h; cases q <;> simp [Quote.char]
  | comment | special => obtain rfl := h; simp

end Begins

def Ends (c : Char) : Lexeme → Prop
  | .gap _ => isGap c = true
  | .comment _ => c = ')'
  | .identifier _ => isNamePart c = true
  | .terminal _ quote => c = quote.char
  | .special _ => c = '?'
  | .integer _ => c.isDigit = true
  | .mark m => c = m.char

theorem Proper.ends (h : l.Proper) (hc : c ∈ l.spelling.getLast?) : l.Ends c := by
  have hmem : c ∈ l.spelling := List.mem_of_getLast? hc
  cases l with
  | gap run => exact h.2 c hmem
  | integer digits => exact h.2.1 c hmem
  | identifier name =>
      obtain ⟨d, t, rfl, hd, ht⟩ := h
      rcases List.mem_cons.1 hmem with rfl | hm
      · exact isNamePart_of_isAlpha hd
      · exact ht c hm
  | mark m => exact List.mem_singleton.1 hmem
  | terminal | special => exact Option.some.inj (hc.symm.trans List.getLast?_concat)
  | comment body =>
      have hlast := List.getLast?_append_of_ne_nil ('(' :: '*' :: body) (List.cons_ne_nil '*' [')'])
      exact Option.some.inj (hc.symm.trans hlast)

theorem getLast?_spell_concat (h : l.Proper) (ls : List Lexeme) :
    (spell (ls ++ [l])).getLast? = l.spelling.getLast? := by
  simp [List.getLast?_append_of_ne_nil _ h.spelling_ne_nil]

/-- Side by side, the second lexeme would become a part of the first one, or the
two would open a comment. -/
def Clashes : Lexeme → Lexeme → Prop
  | .gap _, .gap _ => True
  | .identifier _, .identifier _ => True
  | .identifier _, .integer _ => True
  | .integer _, .integer _ => True
  | .mark (.opening .grouped), .mark (.operator .counting) => True
  | _, _ => False

theorem grouped_clashes_iff :
    (Lexeme.mark (.opening .grouped)).Clashes l ↔ l = .mark (.operator .counting) := by
  cases l with
  | mark m => cases m with
      | operator o => cases o <;> simp [Clashes]
      | _ => simp [Clashes]
  | _ => simp [Clashes]

theorem stops_nil (l : Lexeme) : l.Stops [] := by
  cases l with
  | mark m => cases m with
      | opening b => cases b <;> simp [Stops]
      | _ => trivial
  | _ => simp [Stops]

/-- A lexeme stops in front of the next one just if the two do not clash. -/
theorem stops_spelling_iff (h : l'.Proper) (u : Text) : l.Stops (l'.spelling ++ u) ↔ ¬ l.Clashes l' := by
  obtain ⟨c, s, hc⟩ := List.exists_cons_of_ne_nil h.spelling_ne_nil
  have hb := h.begins hc
  have hu : (l'.spelling ++ u).head? = some c := by rw [hc]; rfl
  cases l with
  | gap run =>
      have hs : (Lexeme.gap run).Stops (l'.spelling ++ u) ↔ ¬ isGap c = true := by simp [Stops, hu]
      rw [hs, hb.isGap]
      cases l' <;> simp [Clashes]
  | identifier name =>
      have hs : (Lexeme.identifier name).Stops (l'.spelling ++ u) ↔ ¬ isNamePart c = true := by
        simp [Stops, hu]
      rw [hs, hb.isNamePart]
      cases l' <;> simp [Clashes]
  | integer digits =>
      have hs : (Lexeme.integer digits).Stops (l'.spelling ++ u) ↔ ¬ c.isDigit = true := by simp [Stops, hu]
      rw [hs, hb.isDigit]
      cases l' <;> simp [Clashes]
  | mark m => cases m with
      | opening b => cases b with
          | grouped =>
              have hs : (Lexeme.mark (.opening .grouped)).Stops (l'.spelling ++ u) ↔ ¬ c = '*' := by
                simp [Stops, hu]
              rw [hs, hb.star, grouped_clashes_iff]
          | _ => exact iff_of_true trivial id
      | _ => exact iff_of_true trivial id
  | comment | terminal | special => exact iff_of_true trivial id

/-- Lexemes are read back one by one just if no two neighbours clash. -/
theorem chained_iff_isChain {ls : List Lexeme} :
    Chained ls [] ↔ (∀ l ∈ ls, l.Proper) ∧ ls.IsChain fun l l' => ¬ l.Clashes l' := by
  induction ls with
  | nil => simp [Chained]
  | cons l ls ih =>
      rw [Chained, ih, List.forall_mem_cons, List.append_nil]
      cases ls with
      | nil => simp [stops_nil]
      | cons l' ls =>
          rw [spell_cons, List.isChain_cons_cons, List.forall_mem_cons]
          constructor
          · rintro ⟨hp, hs, ⟨hp', hps⟩, hc⟩
            exact ⟨⟨hp, hp', hps⟩, (stops_spelling_iff hp' _).1 hs, hc⟩
          · rintro ⟨⟨hp, hp', hps⟩, hs, hc⟩
            exact ⟨hp, (stops_spelling_iff hp' _).2 hs, ⟨hp', hps⟩, hc⟩

end Lexeme

end Ebnf
