import Ebnf.Token.Lexeme

namespace Ebnf.Lexeme

/-- What a lexeme is made of, for its spelling to be read as that lexeme. -/
def Proper : Lexeme → Prop
  | .gap run => run ≠ [] ∧ ∀ c ∈ run, isGap c = true
  | .comment body => ¬ ['*', ')'] <:+: body
  | .identifier name => ∃ c s, name = c :: s ∧ c.isAlpha = true ∧ ∀ d ∈ s, isNamePart d = true
  | .terminal text quote => quote.char ∉ text
  | .special text => '?' ∉ text
  | .integer digits => digits ≠ [] ∧ (∀ c ∈ digits, c.isDigit = true) ∧ Decimal.value digits < integerBound
  | .mark _ => True

/-- The text behind a lexeme does not make it longer. -/
def Stops : Lexeme → Text → Prop
  | .gap _, u => ∀ c ∈ u.head?, isGap c = false
  | .identifier _, u => ∀ c ∈ u.head?, isNamePart c = false
  | .integer _, u => ∀ c ∈ u.head?, c.isDigit = false
  | .mark (.opening .grouped), u => u.head? ≠ some '*'
  | _, _ => True

theorem isGap_iff {c : Char} : isGap c = true ↔ c = ' ' ∨ c = '\t' ∨ c = '\r' ∨ c = '\n' := by
  simp [isGap, or_assoc]

theorem isGap_of_isAlpha {c : Char} (h : c.isAlpha = true) : isGap c = false := by
  apply Bool.eq_false_iff.2
  intro hg
  rcases isGap_iff.1 hg with rfl | rfl | rfl | rfl <;> cases h

theorem isGap_of_isDigit {c : Char} (h : c.isDigit = true) : isGap c = false := by
  apply Bool.eq_false_iff.2
  intro hg
  rcases isGap_iff.1 hg with rfl | rfl | rfl | rfl <;> cases h

theorem isAlpha_of_isDigit {c : Char} (h : c.isDigit = true) : c.isAlpha = false := by
  have hd : '0'.toNat ≤ c.toNat ∧ c.toNat ≤ '9'.toNat := Char.isDigit_iff_toNat.1 h
  apply Bool.eq_false_iff.2
  intro ha
  rcases Bool.or_eq_true_iff.1 ha with hu | hl
  · have hA : 'A'.toNat ≤ c.toNat := UInt32.le_iff_toNat_le.1 (of_decide_eq_true hu).1
    exact absurd (Nat.le_trans hA hd.2) (by decide)
  · have ha : 'a'.toNat ≤ c.toNat := UInt32.le_iff_toNat_le.1 (of_decide_eq_true (Bool.and_eq_true_iff.1 hl).1)
    exact absurd (Nat.le_trans ha hd.2) (by decide)

theorem takeWhile_run {p : Char → Bool} {s u : Text} (hs : ∀ c ∈ s, p c = true)
    (hu : ∀ c ∈ u.head?, p c = false) : (s ++ u).takeWhile p = s := by
  rw [List.takeWhile_append_of_pos hs]
  cases u with
  | nil => simp
  | cons c u => simp [hu c rfl]

theorem dropWhile_run {p : Char → Bool} {s u : Text} (hs : ∀ c ∈ s, p c = true)
    (hu : ∀ c ∈ u.head?, p c = false) : (s ++ u).dropWhile p = u := by
  rw [List.dropWhile_append_of_pos hs]
  cases u with
  | nil => rfl
  | cons c u => simp [hu c rfl]

theorem head?_dropWhile {p : Char → Bool} (t : Text) : ∀ c ∈ (t.dropWhile p).head?, p c = false := by
  intro c hc
  have := List.head?_dropWhile_not p t
  rw [Option.mem_def.1 hc] at this
  exact this

theorem mem_takeWhile {p : Char → Bool} {t : Text} : ∀ c ∈ t.takeWhile p, p c = true := by
  intro c hc
  exact List.all_eq_true.1 (List.all_takeWhile (l := t)) c hc

theorem untilChar_eq_some {close : Char} {t body rest : Text} :
    untilChar close t = some (body, rest) ↔ close ∉ body ∧ body ++ close :: rest = t := by
  refine ⟨fun h => ⟨?_, untilChar_append h⟩, ?_⟩
  · induction t generalizing body with
    | nil => cases h
    | cons c t ih =>
        rw [untilChar] at h
        split at h
        · cases h
          simp
        · next hc =>
            obtain ⟨⟨b, r⟩, hb, he⟩ := Option.map_eq_some_iff.1 h
            cases he
            simp [Ne.symm hc, ih hb]
  · rintro ⟨hn, rfl⟩
    induction body with
    | nil => simp [untilChar]
    | cons c body ih =>
        rw [List.mem_cons, not_or] at hn
        rw [List.cons_append, untilChar, if_neg (Ne.symm hn.1), ih hn.2]
        rfl

theorem untilCommentEnd_eq_some {t body rest : Text} :
    untilCommentEnd t = some (body, rest) ↔ ¬ ['*', ')'] <:+: body ∧ body ++ '*' :: ')' :: rest = t := by
  refine ⟨fun h => ⟨?_, untilCommentEnd_append h⟩, ?_⟩
  · induction t using untilCommentEnd.induct generalizing body with
    | case1 => cases h
    | case2 t => cases h; simp
    | case3 c t hc ih =>
        rw [untilCommentEnd] at h
        · obtain ⟨⟨b, r⟩, hb, he⟩ := Option.map_eq_some_iff.1 h
          cases he
          rw [List.infix_cons_iff, not_or]
          refine ⟨?_, ih hb⟩
          rintro ⟨s, hs⟩
          obtain ⟨rfl, rfl⟩ := List.cons.inj hs
          exact hc (s ++ '*' :: ')' :: r) rfl (untilCommentEnd_append hb).symm
        · exact hc
  · rintro ⟨hn, rfl⟩
    induction body with
    | nil => rfl
    | cons c body ih =>
        rw [List.infix_cons_iff, not_or] at hn
        rw [List.cons_append, untilCommentEnd, ih hn.2]
        · rfl
        · -- the two characters do not stand at the front of the body
          rintro u rfl hu
          cases body with
          | nil => cases hu
          | cons d body =>
              obtain ⟨rfl, -⟩ := List.cons.inj hu
              exact hn.1 ⟨body, rfl⟩

theorem untilChar_eq_none {close : Char} {t : Text} : untilChar close t = none ↔ close ∉ t := by
  constructor
  · intro h hm
    obtain ⟨body, rest, rfl, hb⟩ := List.eq_append_cons_of_mem hm
    rw [untilChar_eq_some.2 ⟨hb, rfl⟩] at h
    cases h
  · intro h
    cases hu : untilChar close t with
    | none => rfl
    | some p =>
        obtain ⟨-, rfl⟩ := untilChar_eq_some.1 hu
        simp at h

theorem untilCommentEnd_eq_none {t : Text} : untilCommentEnd t = none ↔ ¬ ['*', ')'] <:+: t := by
  constructor
  · intro h hm
    induction t using untilCommentEnd.induct with
    | case1 => simp at hm
    | case2 t => cases h
    | case3 c t hc ih =>
        rw [untilCommentEnd, Option.map_eq_none_iff] at h
        · rcases List.infix_cons_iff.1 hm with ⟨s, hs⟩ | hm
          · obtain ⟨rfl, rfl⟩ := List.cons.inj hs
            exact hc s rfl rfl
          · exact ih h hm
        · exact hc
  · intro h
    cases hu : untilCommentEnd t with
    | none => rfl
    | some p =>
        obtain ⟨-, rfl⟩ := untilCommentEnd_eq_some.1 hu
        exact absurd ⟨p.1, p.2, by simp⟩ h

theorem Proper.spelling_ne_nil {l : Lexeme} (h : l.Proper) : l.spelling ≠ [] := by
  cases l with
  | gap run | integer digits => exact h.1
  | identifier name =>
      obtain ⟨c, s, rfl, -⟩ := h
      exact List.cons_ne_nil _ _
  | _ => simp [spelling]

section

variable {c : Char} {t : Text}

theorem scan_gap (h : isGap c = true) :
    scan c t = .ok (.gap (c :: t.takeWhile isGap), t.dropWhile isGap) :=
  if_pos h

theorem scan_alpha (h : c.isAlpha = true) :
    scan c t = .ok (.identifier (c :: t.takeWhile isNamePart), t.dropWhile isNamePart) := by
  rw [scan, if_neg (by simp [isGap_of_isAlpha h]), if_pos h]

theorem scan_digit (h : c.isDigit = true) (hv : Decimal.value (c :: t.takeWhile Char.isDigit) < integerBound) :
    scan c t = .ok (.integer (c :: t.takeWhile Char.isDigit), t.dropWhile Char.isDigit) := by
  rw [scan, if_neg (by simp [isGap_of_isDigit h]), if_neg (by simp [isAlpha_of_isDigit h]), if_pos h]
  exact if_pos hv

theorem scan_special : scan '?' t = delimited .special .special (untilChar '?' t) := rfl

theorem scan_quote (q : Quote) : scan q.char t = delimited .terminal (.terminal · q) (untilChar q.char t) := by
  cases q <;> rfl

theorem scan_comment : scan '(' ('*' :: t) = delimited .comment .comment (untilCommentEnd t) := rfl

theorem scan_mark {m : Mark} (h : (Lexeme.mark m).Stops t) : scan m.char t = .ok (.mark m, t) := by
  cases m with
  | opening b =>
      cases b with
      | grouped =>
          have : ¬ ('(' = '(' ∧ t.head? = some '*') := fun h' => h h'.2
          exact (if_neg this).trans rfl
      | _ => rfl
  | operator o => cases o with
      | joining c => cases c <;> rfl
      | counting => rfl
  | closing b => cases b <;> rfl
  | _ => rfl

end

theorem proper_of_scan {c : Char} {t : Text} {l : Lexeme} {rest : Text} (h : scan c t = .ok (l, rest)) :
    l.Proper ∧ l.Stops rest := by
  unfold scan at h
  split at h
  · next hc =>
      cases h
      exact ⟨⟨List.cons_ne_nil _ _, List.forall_mem_cons.2 ⟨hc, mem_takeWhile⟩⟩, head?_dropWhile t⟩
  split at h
  · next hc =>
      cases h
      exact ⟨⟨c, _, rfl, hc, mem_takeWhile⟩, head?_dropWhile t⟩
  split at h
  · next hc =>
      dsimp only at h
      split at h
      · next hv =>
          cases h
          exact ⟨⟨List.cons_ne_nil _ _, List.forall_mem_cons.2 ⟨hc, mem_takeWhile⟩, hv⟩, head?_dropWhile t⟩
      · cases h
  split at h
  · obtain ⟨body, hb, rfl⟩ := delimited_ok h
    exact ⟨(untilChar_eq_some.1 hb).1, trivial⟩
  split at h
  · obtain ⟨body, hb, rfl⟩ := delimited_ok h
    exact ⟨(untilChar_eq_some.1 hb).1, trivial⟩
  split at h
  · obtain ⟨body, hb, rfl⟩ := delimited_ok h
    exact ⟨(untilChar_eq_some.1 hb).1, trivial⟩
  split at h
  · obtain ⟨body, hb, rfl⟩ := delimited_ok h
    exact ⟨(untilCommentEnd_eq_some.1 hb).1, trivial⟩
  · next hno =>
      split at h
      · next m hm =>
          cases h
          have hc : m.char = c := by simpa using List.find?_some hm
          subst hc
          refine ⟨trivial, ?_⟩
          cases m with
          | opening b => cases b with
              | grouped => exact fun hs => hno ⟨rfl, hs⟩
              | _ => trivial
          | _ => trivial
      · cases h

theorem scan_of_spelling {c : Char} {t : Text} {l : Lexeme} {rest : Text} (hp : l.Proper) (hs : l.Stops rest)
    (he : l.spelling ++ rest = c :: t) : scan c t = .ok (l, rest) := by
  cases l with
  | gap run =>
      obtain ⟨hne, hg⟩ := hp
      obtain ⟨d, run, rfl⟩ := List.exists_cons_of_ne_nil hne
      obtain ⟨hd, hr⟩ := List.forall_mem_cons.1 hg
      obtain ⟨rfl, rfl⟩ := List.cons.inj ((List.cons_append ..).symm.trans he)
      rw [scan_gap hd, takeWhile_run hr hs, dropWhile_run hr hs]
  | identifier name =>
      obtain ⟨d, s, rfl, hd, hr⟩ := hp
      obtain ⟨rfl, rfl⟩ := List.cons.inj ((List.cons_append ..).symm.trans he)
      rw [scan_alpha hd, takeWhile_run hr hs, dropWhile_run hr hs]
  | integer digits =>
      obtain ⟨hne, hg, hv⟩ := hp
      obtain ⟨d, run, rfl⟩ := List.exists_cons_of_ne_nil hne
      obtain ⟨hd, hr⟩ := List.forall_mem_cons.1 hg
      obtain ⟨rfl, rfl⟩ := List.cons.inj ((List.cons_append ..).symm.trans he)
      rw [scan_digit hd (by rwa [takeWhile_run hr hs]), takeWhile_run hr hs, dropWhile_run hr hs]
  | terminal text q =>
      obtain ⟨rfl, rfl⟩ := List.cons.inj ((List.cons_append ..).symm.trans he)
      have hb := untilChar_eq_some.2 ⟨hp, (List.append_assoc text [q.char] rest).symm⟩
      exact (scan_quote q).trans (congrArg _ hb)
  | special text =>
      obtain ⟨rfl, rfl⟩ := List.cons.inj ((List.cons_append ..).symm.trans he)
      have hb := untilChar_eq_some.2 ⟨hp, (List.append_assoc text ['?'] rest).symm⟩
      exact scan_special.trans (congrArg _ hb)
  | comment body =>
      obtain ⟨rfl, rfl⟩ := List.cons.inj ((List.cons_append ..).symm.trans he)
      have hb := untilCommentEnd_eq_some.2 ⟨hp, (List.append_assoc body ['*', ')'] rest).symm⟩
      exact scan_comment.trans (congrArg _ hb)
  | mark m =>
      obtain ⟨rfl, rfl⟩ := List.cons.inj he
      exact scan_mark hs

/-- A text begins with a lexeme if it begins with the spelling of a proper one
that the text behind it makes no longer. -/
theorem scan_eq_ok {c : Char} {t : Text} {l : Lexeme} {rest : Text} :
    scan c t = .ok (l, rest) ↔ l.Proper ∧ l.Stops rest ∧ l.spelling ++ rest = c :: t := by
  constructor
  · intro h
    obtain ⟨s, hs, hr⟩ := scan_ok h
    obtain ⟨hp, hst⟩ := proper_of_scan h
    exact ⟨hp, hst, by rw [hs, List.cons_append, hr]⟩
  · rintro ⟨hp, hst, he⟩
    exact scan_of_spelling hp hst he

theorem spelling_append_inj {l l' : Lexeme} {u u' : Text} (hp : l.Proper) (hs : l.Stops u) (hp' : l'.Proper)
    (hs' : l'.Stops u') (h : l.spelling ++ u = l'.spelling ++ u') : l = l' ∧ u = u' := by
  obtain ⟨c, t, hc⟩ := List.exists_cons_of_ne_nil hp.spelling_ne_nil
  have hl : scan c (t ++ u) = .ok (l, u) := scan_of_spelling hp hs (by rw [hc, List.cons_append])
  have hl' : scan c (t ++ u) = .ok (l', u') := scan_of_spelling hp' hs' (by rw [← h, hc, List.cons_append])
  rw [hl] at hl'
  exact Prod.mk.inj (Except.ok.inj hl')

end Ebnf.Lexeme
