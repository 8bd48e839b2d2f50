import Ebnf.Proofs.Token.Items

namespace Ebnf

open Lexeme

/-- The texts that begin with such a fault: with a character that begins no
lexeme, with an opening whose closing does not follow, or with a whole run of
digits that is too large. -/
inductive Fault.Begins : Fault → Text → Prop
  | unrecognized {c : Char} {t : Text} (h : ∀ l : Lexeme, l.Proper → l.spelling.head? ≠ some c) :
      Begins (.unrecognized c) (c :: t)
  | terminal {quote : Quote} {t : Text} (h : quote.char ∉ t) : Begins (.unterminated .terminal) (quote.char :: t)
  | special {t : Text} (h : '?' ∉ t) : Begins (.unterminated .special) ('?' :: t)
  | comment {t : Text} (h : ¬ ['*', ')'] <:+: t) : Begins (.unterminated .comment) ('(' :: '*' :: t)
  | tooLarge {digits t : Text} (hne : digits ≠ []) (hd : ∀ c ∈ digits, c.isDigit = true)
      (ht : ∀ c ∈ t.head?, c.isDigit = false) (hv : integerBound ≤ Decimal.value digits) :
      Begins (.integerTooLarge digits) (digits ++ t)

theorem Fault.Begins.ne_nil {f : Fault} {t : Text} (h : f.Begins t) : t ≠ [] := by
  cases h with
  | tooLarge hne => simp [hne]
  | _ => simp

theorem Fault.Begins.isGap_head {f : Fault} {c : Char} {t : Text} (h : f.Begins (c :: t)) : isGap c = false := by
  generalize hu : c :: t = u at h
  cases h with
  | unrecognized h =>
      obtain ⟨rfl, -⟩ := List.cons.inj hu
      apply Bool.eq_false_iff.2
      intro hc
      exact h (.gap [c]) ⟨List.cons_ne_nil c [], by simpa using hc⟩ rfl
  | @terminal q _ _ =>
      obtain ⟨rfl, -⟩ := List.cons.inj hu
      cases q <;> rfl
  | special | comment =>
      obtain ⟨rfl, -⟩ := List.cons.inj hu
      rfl
  | tooLarge hne hd =>
      obtain ⟨d, ds, rfl⟩ := List.exists_cons_of_ne_nil hne
      obtain ⟨rfl, -⟩ := List.cons.inj hu
      exact isGap_of_isDigit (hd c List.mem_cons_self)

theorem Fault.Begins.digit {digits t : Text} (h : (Fault.integerTooLarge digits).Begins t) :
    ∃ c u, t = c :: u ∧ c.isDigit = true := by
  cases h with
  | tooLarge hne hd =>
      obtain ⟨c, ds, rfl⟩ := List.exists_cons_of_ne_nil hne
      exact ⟨c, _, rfl, hd c List.mem_cons_self⟩

namespace Lexeme

theorem delimited_error {what : Delimited} {lexeme : Text → Lexeme} {p : Option (Text × Text)} {f : Fault}
    (h : delimited what lexeme p = .error f) : p = none ∧ f = .unterminated what := by
  cases p with
  | none => cases h; exact ⟨rfl, rfl⟩
  | some p => cases h

variable {c : Char} {t : Text} {f : Fault}

theorem begins_of_scan (h : scan c t = .error f) : f.Begins (c :: t) := by
  unfold scan at h
  split at h
  · cases h
  split at h
  · cases h
  split at h
  · next hc =>
      dsimp only at h
      split at h
      · cases h
      · next hv =>
          cases h
          have hrun : c :: t = (c :: t.takeWhile Char.isDigit) ++ t.dropWhile Char.isDigit := by simp
          rw [hrun]
          exact .tooLarge (List.cons_ne_nil _ _) (List.forall_mem_cons.2 ⟨hc, mem_takeWhile⟩)
            (head?_dropWhile t) (Nat.le_of_not_lt hv)
  split at h
  · next hc =>
      obtain ⟨hn, rfl⟩ := delimited_error h
      exact hc ▸ .special (untilChar_eq_none.1 hn)
  split at h
  · next hc =>
      obtain ⟨hn, rfl⟩ := delimited_error h
      have ht : Quote.single.char ∉ t := untilChar_eq_none.1 hn
      exact hc ▸ .terminal ht
  split at h
  · next hc =>
      obtain ⟨hn, rfl⟩ := delimited_error h
      have ht : Quote.double.char ∉ t := untilChar_eq_none.1 hn
      exact hc ▸ .terminal ht
  split at h
  · next hc =>
      obtain ⟨hn, rfl⟩ := delimited_error h
      obtain ⟨rfl, hstar⟩ := hc
      obtain ⟨u, rfl⟩ := List.head?_eq_some_iff.1 hstar
      exact .comment (untilCommentEnd_eq_none.1 hn)
  split at h
  · cases h
  · next hm =>
      cases h
      have hmark (m : Mark) : m.char ≠ c := by simpa using List.find?_eq_none.1 hm m m.mem_all
      refine .unrecognized fun l hp hl => ?_
      obtain ⟨s, hs⟩ := List.head?_eq_some_iff.1 hl
      have hb := hp.begins hs
      cases l with
      | gap | identifier | integer => contradiction
      | comment => exact hmark (.opening .grouped) hb.symm
      | special => contradiction
      | terminal text q => cases q <;> contradiction
      | mark m => exact hmark m hb.symm

theorem proper_digit (h : c.isDigit = true) : (Lexeme.integer [c]).Proper := by
  have hd : '0'.toNat ≤ c.toNat ∧ c.toNat ≤ '9'.toNat := Char.isDigit_iff_toNat.1 h
  have h9 : '9'.toNat < integerBound := by decide
  refine ⟨List.cons_ne_nil _ _, by simpa using h, ?_⟩
  simp [Decimal.value, Nat.ofDigitChars]
  omega

/-- Reading a lexeme fails just where the text begins with a fault, and there is
one fault at most. -/
theorem scan_eq_error : scan c t = .error f ↔ f.Begins (c :: t) := by
  refine ⟨begins_of_scan, fun h => ?_⟩
  generalize hu : c :: t = u at h
  cases h with
  | terminal h =>
      obtain ⟨rfl, rfl⟩ := List.cons.inj hu
      rw [scan_quote, untilChar_eq_none.2 h]
      rfl
  | special h =>
      obtain ⟨rfl, rfl⟩ := List.cons.inj hu
      rw [scan_special, untilChar_eq_none.2 h]
      rfl
  | comment h =>
      obtain ⟨rfl, rfl⟩ := List.cons.inj hu
      rw [scan_comment, untilCommentEnd_eq_none.2 h]
      rfl
  | tooLarge hne hd ht hv =>
      obtain ⟨d, ds, rfl⟩ := List.exists_cons_of_ne_nil hne
      obtain ⟨hc, hds⟩ := List.forall_mem_cons.1 hd
      obtain ⟨rfl, rfl⟩ := List.cons.inj (hu.trans (List.cons_append ..))
      rw [scan, if_neg (by simp [isGap_of_isDigit hc]), if_neg (by simp [isAlpha_of_isDigit hc]), if_pos hc,
        takeWhile_run hds ht]
      exact if_neg (Nat.not_lt_of_le hv)
  | unrecognized h =>
      obtain ⟨rfl, rfl⟩ := List.cons.inj hu
      cases hs : scan c t with
      | ok p =>
          obtain ⟨s, hl, -⟩ := scan_ok hs
          exact absurd (by rw [hl]; rfl) (h p.1 (proper_of_scan hs).1)
      | error f' =>
          have hb := begins_of_scan hs
          generalize hv : c :: t = v at hb
          cases hb with
          | unrecognized => cases hv; rfl
          | @terminal q _ _ => cases hv; exact absurd rfl (h (.terminal [] q) List.not_mem_nil)
          | special => cases hv; exact absurd rfl (h (.special []) List.not_mem_nil)
          | comment => cases hv; exact absurd rfl (h (.mark (.opening .grouped)) trivial)
          | tooLarge hne hd =>
              obtain ⟨d, ds, rfl⟩ := List.exists_cons_of_ne_nil hne
              cases hv
              exact absurd rfl (h (.integer [c]) (proper_digit (hd c List.mem_cons_self)))

theorem split_eq_fault {source : Text} {ls : List Lexeme} : split source = (ls, some f) ↔
    ∃ rest, Chained ls rest ∧ spell ls ++ rest = source ∧ f.Begins rest := by
  constructor
  · intro h
    induction source using split.induct generalizing ls with
    | case1 =>
        rw [split] at h
        cases h
    | case2 c t f' hf =>
        rw [split_cons_error hf] at h
        cases h
        exact ⟨c :: t, trivial, rfl, scan_eq_error.1 hf⟩
    | case3 c t l rest hl _ ih =>
        rw [split_cons_ok hl] at h
        obtain ⟨rfl, hn⟩ := Prod.mk.inj h
        obtain ⟨rest', hc, hs, hb⟩ := ih (Prod.ext rfl hn)
        obtain ⟨hp, hst, he⟩ := scan_eq_ok.1 hl
        exact ⟨rest', ⟨hp, by rwa [hs], hc⟩, by rw [spell_cons, List.append_assoc, hs, he], hb⟩
  · rintro ⟨rest, hc, rfl, hb⟩
    obtain ⟨c, t, rfl⟩ := List.exists_cons_of_ne_nil hb.ne_nil
    rw [split_spell hc, split_cons_error (scan_eq_error.2 hb), List.append_nil]

theorem Proper.isDigit_last {l : Lexeme} {u : Text} (h : l.Proper) (hs : l.Stops (c :: u)) (hc : c.isDigit = true) :
    ∀ d ∈ l.spelling.getLast?, d.isDigit = false := by
  intro d hd
  have he := h.ends hd
  cases l with
  | gap run => exact isDigit_of_isNamePart (isNamePart_of_isGap he)
  | identifier name => exact absurd (isNamePart_of_isDigit hc) (by simp [hs c rfl])
  | integer digits => exact absurd hc (by simp [hs c rfl])
  | mark m => obtain rfl := he; exact isDigit_of_isNamePart m.isNamePart_char
  | terminal text q => obtain rfl := he; cases q <;> rfl
  | comment | special => obtain rfl := he; rfl

theorem Chained.alone {ls : List Lexeme} {u : Text} (h : Chained ls u) : Chained ls [] := by
  induction ls with
  | nil => trivial
  | cons l ls ih =>
      obtain ⟨hp, hs, hc⟩ := h
      refine ⟨hp, ?_, ih hc⟩
      cases he : spell ls with
      | nil => exact stops_nil l
      | cons d s => exact hs.congr (by rw [he]; rfl)

/-- A run of digits that is too large is as long as it can be to the left, too. -/
theorem isDigit_last_of_chained {ls : List Lexeme} {c : Char} {u : Text} (h : Chained ls (c :: u))
    (hc : c.isDigit = true) : ∀ d ∈ (spell ls).getLast?, d.isDigit = false := by
  rcases ls.eq_nil_or_concat with rfl | ⟨ls, l, rfl⟩
  · simp
  · rw [List.concat_eq_append] at h ⊢
    obtain ⟨hp, hs, -⟩ := (chained_append.1 h).2
    rw [getLast?_spell_concat hp]
    exact hp.isDigit_last hs hc

end Lexeme

theorem tokenize_eq_error {source : Text} {e : LexError} : tokenize source = .error e ↔
    ∃ ls rest, Chained ls rest ∧ spell ls ++ rest = source ∧ Location.start.after (spell ls) = e.location ∧
      e.fault.Begins rest := by
  rw [tokenize]
  constructor
  · intro h
    split at h
    · cases h
    · next ls f hs =>
        cases h
        obtain ⟨rest, hc, he, hb⟩ := split_eq_fault.1 hs
        exact ⟨ls, rest, hc, he, rfl, hb⟩
  · rintro ⟨ls, rest, hc, he, hl, hb⟩
    rw [split_eq_fault.2 ⟨rest, hc, he, hb⟩]
    exact congrArg _ (congrArg _ hl)

/-- Reading fails just if a text is not made of lexemes. What stands in front of
the error is, and the error says with what the rest begins instead. An integer
that is too large is the whole run of digits. -/
theorem tokenize_fails_iff {source : Text} :
    ((∃ e, tokenize source = .error e) ↔
      ¬ ∃ ls : List Lexeme, (∀ l ∈ ls, l.Proper) ∧ ls.IsChain (fun l l' => ¬ l.Clashes l') ∧ spell ls = source) ∧
    ∀ e, tokenize source = .error e → ∃ before rest, before ++ rest = source ∧
      before.byteLength = e.location.offset ∧ Location.start.after before = e.location ∧
      (∃ ts, tokenize before = .ok ts) ∧ e.fault.Begins rest ∧
      ∀ ds, e.fault = .integerTooLarge ds → ∀ c ∈ before.getLast?, c.isDigit = false := by
  constructor
  · have hok : (∃ ts, tokenize source = .ok ts) ↔ ∃ ls : List Lexeme, (∀ l ∈ ls, l.Proper) ∧
        ls.IsChain (fun l l' => ¬ l.Clashes l') ∧ spell ls = source := by
      simp [tokenize_eq_ok, chained_iff_isChain, and_assoc]
    rw [← hok]
    cases tokenize source <;> simp
  · intro e h
    obtain ⟨ls, rest, hc, he, hl, hb⟩ := tokenize_eq_error.1 h
    refine ⟨spell ls, rest, he, ?_, hl, ⟨_, tokenize_eq_ok.2 ⟨ls, hc.alone, rfl, rfl⟩⟩, hb, ?_⟩
    · rw [← hl, Location.after_offset]
      exact (Nat.zero_add _).symm
    · intro ds hf
      rw [hf] at hb
      obtain ⟨d, u, rfl, hd⟩ := hb.digit
      exact isDigit_last_of_chained hc hd

theorem tokenize_fails_iff_of_leading_zeros :
    let source : Text := "a (*)*)00099999999999999999999;".toList
    let e : LexError := ⟨.integerTooLarge "00099999999999999999999".toList, ⟨7, 1, 8⟩⟩
    tokenize source = .error e ∧ ∃ before rest, before ++ rest = source ∧ before.byteLength = e.location.offset ∧
      Location.start.after before = e.location ∧ (∃ ts, tokenize before = .ok ts) ∧ e.fault.Begins rest ∧
      ∀ ds, e.fault = .integerTooLarge ds → ∀ c ∈ before.getLast?, c.isDigit = false := by
  intro source e
  have h : tokenize source = .error e := by decide +kernel
  exact ⟨h, tokenize_fails_iff.2 e h⟩

example : tokenize "(*)".toList = .error ⟨.unterminated .comment, .start⟩ := by decide +kernel

end Ebnf
