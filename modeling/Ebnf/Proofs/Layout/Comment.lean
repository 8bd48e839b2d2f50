import Ebnf.Layout.Piece
import Ebnf.Proofs.Lexeme.Scan
import Ebnf.Proofs.Text.Blank

namespace Ebnf.Layout

open Text

variable {nl : Newline} {body n : Text}

/-- The text that the layout writes inside a comment. -/
def normalText (newline : Newline) (body : Text) : Text :=
  if '\n' ∈ body then replaceBreaks newline.text (unixBreaks body) else ' ' :: Blank.trim body ++ [' ']

theorem commentText_eq (nl : Newline) (body : Text) :
    commentText nl.text body = (Lexeme.comment (normalText nl body)).spelling := rfl

theorem normalText_of_break (h : '\n' ∈ body) :
    normalText nl body = replaceBreaks nl.text (unixBreaks body) :=
  if_pos h

theorem normalText_of_line (h : '\n' ∉ body) : normalText nl body = ' ' :: Blank.trim body ++ [' '] := if_neg h

/-- A comment's text without what the layout decides: the blanks at the ends of
a line, and the kind of breaks. -/
def plainText (body : Text) : Text := if '\n' ∈ body then unixBreaks body else Blank.trim body

theorem mem_plainText : '\n' ∈ plainText body ↔ '\n' ∈ body := by
  rw [plainText]
  split
  · exact mem_unixBreaks
  · next h => exact iff_of_false (fun hm => h ((Blank.trim_infix_self body).mem hm)) h

theorem normalText_congr {body' : Text} (h : plainText body = plainText body') :
    normalText nl body = normalText nl body' := by
  have hmem : '\n' ∈ body ↔ '\n' ∈ body' := by rw [← mem_plainText, h, mem_plainText]
  rw [plainText, plainText] at h
  by_cases hb : '\n' ∈ body
  · rw [if_pos hb, if_pos (hmem.1 hb)] at h
    rw [normalText_of_break hb, normalText_of_break (hmem.1 hb), h]
  · have hb' : '\n' ∉ body' := fun hm => hb (hmem.2 hm)
    rw [if_neg hb, if_neg hb'] at h
    rw [normalText_of_line hb, normalText_of_line hb', h]

theorem infix_normalText (hn : ∀ c ∈ n, Blank.isBlank c = false) : n <:+: normalText nl body ↔ n <:+: body := by
  have hb : '\n' ∉ n := fun h => by cases hn _ h
  have hr : '\r' ∉ n := fun h => by cases hn _ h
  by_cases h : '\n' ∈ body
  · rw [normalText_of_break h, ← infix_unixBreaks hb hr]
    cases nl with
    | unix => rw [Newline.text, replaceBreaks_unix, infix_unixBreaks hb hr, infix_unixBreaks hb hr]
    | windows => rw [Newline.text, infix_unixBreaks hb hr, infix_replaceBreaks hb hr, infix_unixBreaks hb hr]
  · rw [normalText_of_line h, Blank.infix_spaced hn, Blank.infix_trim hn]

theorem proper_normalText (h : (Lexeme.comment body).Proper) : (Lexeme.comment (normalText nl body)).Proper :=
  fun hi => h ((infix_normalText (List.forall_mem_cons.2 ⟨rfl, List.forall_mem_singleton.2 rfl⟩)).1 hi)

theorem mem_normalText : '\n' ∈ normalText nl body ↔ '\n' ∈ body := by
  by_cases h : '\n' ∈ body
  · have hu : '\n' ∈ unixBreaks body := mem_unixBreaks.2 h
    refine iff_of_true ?_ h
    rw [normalText_of_break h, replaceBreaks, List.mem_flatMap]
    exact ⟨'\n', hu, by cases nl <;> simp [Newline.text]⟩
  · refine iff_of_false ?_ h
    rw [normalText_of_line h]
    have ht : '\n' ∉ Blank.trim body := fun hm => h ((Blank.trim_infix_self body).mem hm)
    simpa using ht

/-- After one pass the breaks of a comment are uniform, unless a carriage
return stood in front of a long break that became a short one. -/
theorem unixBreaks_normalText (h : '\n' ∈ body) (hs : nl = .unix → ¬ ['\r', '\r', '\n'] <:+: body) :
    unixBreaks (normalText nl body) = unixBreaks body := by
  rw [normalText_of_break h]
  cases nl with
  | unix => rw [Newline.text, replaceBreaks_unix, unixBreaks_unixBreaks.2 (hs rfl)]
  | windows => rw [Newline.text, unixBreaks_replaceBreaks]

theorem plainText_normalText (hs : nl = .unix → ¬ ['\r', '\r', '\n'] <:+: body) :
    plainText (normalText nl body) = plainText body := by
  by_cases h : '\n' ∈ body
  · rw [plainText, if_pos (mem_normalText.2 h), plainText, if_pos h, unixBreaks_normalText h hs]
  · rw [plainText, if_neg fun hm => h (mem_normalText.1 hm), plainText, if_neg h, normalText_of_line h,
      Blank.trim_spaced]

theorem normalText_normalText :
    normalText nl (normalText nl body) = normalText nl body ↔ (nl = .unix → ¬ ['\r', '\r', '\n'] <:+: body) := by
  constructor
  · rintro he rfl hi
    have h : '\n' ∈ body := hi.mem (by simp)
    rw [normalText_of_break (mem_normalText.2 h), normalText_of_break h, Newline.text, replaceBreaks_unix,
      replaceBreaks_unix] at he
    exact unixBreaks_unixBreaks.1 he hi
  · intro hs
    exact normalText_congr (plainText_normalText hs)

theorem hasBlankLine_normalText (hs : nl = .unix → ¬ ['\r', '\r', '\n'] <:+: body) :
    HasBlankLine (normalText nl body) ↔ HasBlankLine body := by
  by_cases h : '\n' ∈ body
  · rw [← blank_line_infix_unixBreaks, unixBreaks_normalText h hs, blank_line_infix_unixBreaks]
  · exact iff_of_false (fun hb => h (mem_normalText.1 hb.mem)) (fun hb => h hb.mem)

end Ebnf.Layout
